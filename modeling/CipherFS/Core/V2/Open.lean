import CipherFS.Core.V2.PasswordChange

/-!
# Opening a container

`open` reads the header and unlocks it; the duress password wipes the keyslots
on the way. `verify_inner` and `extract_v2_inner` begin with it. What they do
with the data key, from reading the index on, is a parameter here: it is reached
only with a password that unlocks.
-/

namespace CipherFS.V2

open Result VaultProg Prog

variable {Key W α : Type}

/-- The `match` on the unlock result in `open`. -/
def openDek (header : Header W) : UnlockResult → VaultProg W (ByteArr 32)
  | .unlocked dek => pure dek
  | .duress => do
      wipeForDuress header
      bail "Unable to unlock container (wrong password or damage)"
  | .failed => bail "Unable to unlock container (wrong password or damage)"

/-- The beginning of `open`: the stored header. -/
def openHeader : VaultProg W (Header W) := do
  openFile
  VaultProg.readHeader

/-- `open`, with what follows the unlocking. -/
def openContainer (C : Crypto Key W) (rest : Header W → ByteArr 32 → VaultProg W α)
    (password : String) : VaultProg W α := do
  let header ← openHeader
  let found ← ofExcept (unlock C header password)
  let dek ← openDek header found
  rest header dek

/-- The common beginning of `verify_inner` and `extract_v2_inner`. -/
def openForReading (C : Crypto Key W) (rest : Header W → ByteArr 32 → VaultProg W Unit)
    (password : String) : VaultProg W Unit := do
  check
  event (.phaseStarted .keyDerivation)
  openContainer C rest password

/-- `verify_inner`. -/
def verifyInner (C : Crypto Key W) (rest : Header W → ByteArr 32 → VaultProg W Unit)
    (password : String) : VaultProg W Unit :=
  openForReading C rest password

/-- `extract_v2_inner`. -/
def extractV2Inner (C : Crypto Key W) (rest : Header W → ByteArr 32 → VaultProg W Unit)
    (password : String) : VaultProg W Unit :=
  openForReading C rest password

end CipherFS.V2
