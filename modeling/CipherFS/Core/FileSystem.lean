import CipherFS.Core.Operation
import CipherFS.Core.V2.Chunks
import CipherFS.Framework.FileTree

/-!
# Operations on the file system

The state that `pack` and `extract` share with everybody else: the file system,
the control part, and what a run keeps in memory across its steps. An operation
of the standard library, of `cap_std` or of `libc` is one atomic step; any of
them can fail with an I/O error, and other processes act between any two steps.

Directory components of a path are resolved already; a symbolic link matters as
the last component. A handle is the object it was opened on.
-/

namespace CipherFS

/-- An inode, by who made it: this run, or anybody else. -/
inductive Ino where
  | own (n : Nat)
  | other (n : Nat)
deriving DecidableEq, Repr

/-- What a path leads to. -/
inductive FsNode where
  | directory
  | file (ino : Ino)
  | symlink (target : Path)
  | special
deriving DecidableEq, Repr

structure Inode where
  content : Bytes
  modified : Nat
deriving DecidableEq, Repr

structure Fs where
  tree : FileTree OsString FsNode
  inodes : Ino → Inode

namespace Fs

/-- The object behind a path; the kernel follows at most 40 links. -/
def follow (fs : Fs) : Nat → Path → Option FsNode
  | 0, _ => none
  | n + 1, p =>
    match fs.tree p with
    | some (.symlink target) => fs.follow n target
    | node => node

/-- Whether an object can be made at a path. -/
def vacant (fs : Fs) (p : Path) : Result Unit :=
  match fs.tree p, fs.tree p.dropLast with
  | some _, _ => Result.ioError "File exists"
  | none, some .directory => .ok ()
  | none, some _ => Result.ioError "Not a directory"
  | none, none => Result.ioError "No such file or directory"

def setInode (fs : Fs) (ino : Ino) (inode : Inode) : Fs :=
  { fs with inodes := Function.update fs.inodes ino inode }

end Fs

/-- What can happen to a run beyond its own steps. -/
inductive Disturbance where
  /-- Somebody else's object is at the temporary path of the container before
  this run has made its file there. -/
  | occupied
  /-- The new staging directory could not be opened. -/
  | notOpened
  /-- A leftover could not be removed. -/
  | notRemoved
  /-- The duress password was given. -/
  | wiped
deriving DecidableEq, Repr

/-- The state. `chunks` and `guards` are memory of the run: the decrypted chunks
of a batch, and the temporary files whose guards are armed.

The other fields after `control` are not in the source. `others` is the file
system as everybody else would have made it without this run; `versions` is what
an inode of theirs has held; `reserved` is the temporary path that has been
chosen and not been made yet; `failures` are the errors that a step has raised. -/
structure World where
  fs : Fs
  control : Control
  nextOwn : Nat
  nextOther : Nat
  chunks : UInt64 → Bytes
  guards : List Path
  others : Fs
  versions : Nat → List Inode
  reserved : Option Path
  failures : List Error
  disturbances : List Disturbance

instance : Controlled World where
  control := World.control
  setControl w c := { w with control := c }

/-- What a step is answered: an I/O error if there is one and how far the step
had come, random bytes, and the time. -/
structure WorldInput where
  fault : Option String
  written : Nat
  removed : Path → Bool
  random : Nat → UInt8
  time : Nat

abbrev WorldProg (α : Type) := Prog World WorldInput Error α

/-- One call of the operating system. -/
abbrev Op (α : Type) := WorldInput → World → Result α × World

namespace WorldProg

variable {α : Type}

/-- `call?`: the error of the call is the error of the program. -/
def perform (op : Op α) : WorldProg α := Prog.call fun i w =>
  match op i w with
  | (.ok a, w) => (.ok a, w)
  | (.error e, w) => (.error e, { w with failures := w.failures ++ [e] })

/-- `let result = call`. -/
def attempted (op : Op α) : WorldProg (Result α) := Prog.call fun i w =>
  ((.ok (op i w).1), (op i w).2)

/-- A computation that leaves the file system alone. -/
def require : Result α → WorldProg α
  | .ok a => pure a
  | .error e => perform fun _ w => (.error e, w)

/-- `rng.fill_bytes`, beginning at a place of the random stream. -/
def fillBytes (i : WorldInput) (start n : Nat) : ByteArr n :=
  ⟨(List.range n).map fun k => i.random (start + k), by simp⟩

/-- A fresh random array. -/
def random (n : Nat) : WorldProg (ByteArr n) := Prog.call fun i w => (.ok (fillBytes i 0 n), w)

end WorldProg

/-! ## Calls -/

namespace Op

variable {α : Type}

/-- A call that fails with the I/O error before it has any effect. -/
def io (f : WorldInput → World → Result α × World) : Op α := fun i w =>
  match i.fault with
  | some text => (Result.ioError text, w)
  | none => f i w

/-- A call that only reads. -/
def reading (f : World → Result α) : Op α := io fun _ w => (f w, w)

/-- `symlink_metadata`. -/
def symlinkMetadata (p : Path) : Op FsNode := reading fun w =>
  match w.fs.tree p with
  | some node => .ok node
  | none => Result.ioError "No such file or directory"

/-- `File::open`. -/
def openFile (p : Path) : Op FsNode := reading fun w =>
  match w.fs.follow 41 p with
  | some node => .ok node
  | none => Result.ioError "No such file or directory"

/-- `open_dir`, and `openat` with `O_DIRECTORY` and `O_NOFOLLOW`. -/
def openDirectory (p : Path) : Op Unit := reading fun w =>
  match w.fs.tree p with
  | some .directory => .ok ()
  | some _ => Result.ioError "Not a directory"
  | none => Result.ioError "No such file or directory"

/-- `metadata().len()` on a handle. -/
def fileLen (file : FsNode) : Op UInt64 := reading fun w =>
  match file with
  | .file ino => .ok (UInt64.ofNat (w.fs.inodes ino).content.length)
  | _ => .ok 0

/-- `read_exact_at` on a handle. -/
def readExactAt (file : FsNode) (pos len : UInt64) : Op Bytes := reading fun w =>
  match file with
  | .file ino => V2.readExactAt (w.fs.inodes ino).content pos len
  | _ => Result.ioError "Is a directory"

/-- `sync_all`, `try_clone`, `flush`: calls that change nothing here. -/
def sync : Op Unit := reading fun _ => .ok ()

/-- Opening a file with `create_new`. -/
def createNew (p : Path) : Op Nat := io fun i w =>
  match w.fs.vacant p with
  | .error e => (.error e, w)
  | .ok () => (.ok w.nextOwn,
      { w with
        fs := { tree := w.fs.tree.put p (.file (.own w.nextOwn))
                inodes := Function.update w.fs.inodes (.own w.nextOwn) ⟨[], i.time⟩ }
        nextOwn := w.nextOwn + 1
        reserved := none })

/-- `create_dir`. -/
def createDir (p : Path) : Op Unit := io fun _ w =>
  match w.fs.vacant p with
  | .error e => (.error e, w)
  | .ok () => (.ok (), { w with fs := { w.fs with tree := w.fs.tree.put p .directory } })

/-- A new content for a file of this run. -/
def overwrite (n : Nat) (f : Bytes → Bytes) (i : WorldInput) (w : World) : World :=
  { w with fs := w.fs.setInode (.own n) ⟨f (w.fs.inodes (.own n)).content, i.time⟩ }

/-- `set_len`. -/
def setLen (n : Nat) (len : UInt64) : Op Unit := io fun i w =>
  (.ok (), overwrite n (CipherFS.setLen · len.toNat) i w)

/-- `write_all_at`. An error can come after a part has been written. -/
def writeAllAt (n : Nat) (data : Bytes) (pos : UInt64) : Op Unit := fun i w =>
  match i.fault with
  | none => (.ok (), overwrite n (writeAt · pos.toNat data) i w)
  | some text => (Result.ioError text,
      overwrite n (writeAt · pos.toNat (data.take i.written)) i w)

/-- `write_all` at the end of a file. -/
def writeAll (n : Nat) (data : Bytes) : Op Unit := fun i w =>
  match i.fault with
  | none => (.ok (), overwrite n (· ++ data) i w)
  | some text => (Result.ioError text, overwrite n (· ++ data.take i.written) i w)

/-- `remove_file`. -/
def removeFile (p : Path) : Op Unit := io fun _ w =>
  match w.fs.tree p with
  | none => (Result.ioError "No such file or directory", w)
  | some .directory => (Result.ioError "Is a directory", w)
  | some _ => (.ok (), { w with fs := { w.fs with tree := w.fs.tree.remove p } })

/-- `remove_dir_all`. An error can come after a part has been removed. -/
def removeDirAll (p : Path) : Op Unit := fun i w =>
  match i.fault with
  | some text => (Result.ioError text,
      { w with fs := { w.fs with tree := w.fs.tree.prune p i.removed } })
  | none =>
    if w.fs.tree p = some .directory then
      (.ok (), { w with fs := { w.fs with tree := w.fs.tree.prune p fun _ => true } })
    else (Result.ioError "Not a directory", w)

/-- A call whose I/O error disturbs the run. -/
def orDisturbed (d : Disturbance) (op : Op α) : Op α := fun i w =>
  let (r, w) := op i w
  (r, if i.fault.isSome then { w with disturbances := d :: w.disturbances } else w)

/-- `rename` of a file, which replaces a file at its target. -/
def rename (src dst : Path) : Op Unit := io fun _ w =>
  match w.fs.tree src, w.fs.tree dst with
  | none, _ => (Result.ioError "No such file or directory", w)
  | some .directory, _ => (Result.ioError "Is a directory", w)
  | some _, some .directory => (Result.ioError "Is a directory", w)
  | some node, _ =>
    (.ok (), { w with fs := { w.fs with tree := (w.fs.tree.remove src).put dst node } })

/-- `renameat2` with `RENAME_NOREPLACE`. -/
def renameNoReplace (src dst : Path) : Op Unit := io fun _ w =>
  match w.fs.tree src, w.fs.vacant dst with
  | none, _ => (Result.ioError "No such file or directory", w)
  | some _, .error e => (.error e, w)
  | some _, .ok () => (.ok (), { w with fs := { w.fs with tree := w.fs.tree.move src dst } })

end Op

/-! ## Everybody else -/

/-- What other processes, and the user of the cancellation token, do. -/
inductive EnvAction where
  | cancel
  | mkdir (p : Path)
  | mkfile (p : Path) (inode : Inode)
  | mklink (p target : Path)
  | mkspecial (p : Path)
  | modify (n : Nat) (inode : Inode)

namespace World

/-- A new object of somebody else, in a directory that is not of this run. -/
def install (w : World) (p : Path) (node : FsNode) : Option World :=
  if w.fs.tree p = none ∧ w.others.tree p.dropLast = some .directory then
    some { w with
      fs := { w.fs with tree := w.fs.tree.put p node }
      others := { w.others with tree := w.others.tree.put p node }
      disturbances := if w.reserved = some p ∧ node ≠ .directory then
          .occupied :: w.disturbances
        else w.disturbances }
  else none

/-- A new content for a file of somebody else. -/
def store (w : World) (n : Nat) (inode : Inode) : World :=
  { w with
    fs := w.fs.setInode (.other n) inode
    others := w.others.setInode (.other n) inode
    versions := Function.update w.versions n (inode :: w.versions n) }

/-- One action of the environment. Others make objects and modify files, but they
remove, rename and replace nothing. A file that is modified gets a length and time
that it has never had: any other write would pass `ensure_unchanged` unseen.
Lengths are numbers of 64 bits. -/
def env (w : World) : EnvAction → Option World
  | .cancel => some { w with control := { w.control with cancelled := true } }
  | .mkdir p => w.install p .directory
  | .mkfile p inode =>
    if inode.content.length < 2 ^ 64 then
      ({ w with nextOther := w.nextOther + 1 }.store w.nextOther inode).install p
        (.file (.other w.nextOther))
    else none
  | .mklink p target => w.install p (.symlink target)
  | .mkspecial p => w.install p .special
  | .modify n inode =>
    if inode.content.length < 2 ^ 64 ∧ ∀ v ∈ w.versions n,
        (v.content.length, v.modified) ≠ (inode.content.length, inode.modified) then
      some (w.store n inode)
    else none

/-- The state before a run: a file system without anything of this run. -/
def start (fs : Fs) (nextOther : Nat) : World where
  fs := fs
  control := .start
  nextOwn := 0
  nextOther := nextOther
  chunks := fun _ => []
  guards := []
  others := fs
  versions := fun n => [fs.inodes (.other n)]
  reserved := none
  failures := []
  disturbances := []

end World

/-- A file system in which a run can start: nothing in it is of the run, and no
inode that is still to be made is in use. -/
structure Fs.Clean (fs : Fs) (nextOther : Nat) : Prop where
  file : ∀ p ino, fs.tree p = some (.file ino) → ∃ n < nextOther, ino = .other n
  length : ∀ n, (fs.inodes (.other n)).content.length < 2 ^ 64

end CipherFS
