import CipherFS.Core.Pack.Accepted
import CipherFS.Core.Progress.Extract
import CipherFS.Core.Progress.SelfVerify

/-!
# Exact progress

Packing, verification and extraction as one kind of request. Each has a part that
comes to the entries of all files, and phases whose progress comes to the sum of
their sizes, in whatever order the chunk tasks run.
-/

namespace CipherFS

open WorldProg Prog V2

variable {Key : Type}

/-- A request whose progress is reported. -/
inductive OperationRequest where
  | pack (walk : List (Result Path)) (req : Pack.PackRequest)
  | verify (container : Path) (password : String)
  | extract (req : Extract.ExtractRequest)

namespace OperationRequest

/-- The `execute` of the request. -/
def execute (R : Reader Key) : OperationRequest → WorldProg Unit
  | .pack walk req => Pack.execute R walk req
  | .verify container password => verifyStored R container password
  | .extract req => Extract.execute R req

/-- The part of the request that scans the files or opens the container: the
entries of its index. -/
def entries (R : Reader Key) : OperationRequest → WorldProg (List Entry)
  | .pack walk req => do
    let prepared ← Pack.prepareInPool R walk req
    return prepared.scan.entries
  | .verify container password => do
    let opened ← openReading R container password
    return opened.index.entries.values
  | .extract req => do
    let opened ← Extract.openInPool R req
    return opened.index.entries.values

/-- The phases in which the request goes through all chunks. -/
def phases : OperationRequest → List OperationPhase
  | .pack _ _ => [.encrypt, .selfVerify]
  | .verify _ _ => [.verify]
  | .extract _ => [.extract]

/-- `ordered_batch_size` is at least 1. -/
def Ordered : OperationRequest → Prop
  | .extract req => 1 ≤ req.batchSize
  | _ => True

end OperationRequest

/-- **Progress is exact.** In every run, under every interleaving of the chunk
tasks and of everybody else, the progress of a phase starts at 0, never decreases,
never exceeds the total, and has come to the total when the phase is over; the
total is the sum of the sizes of all files, and is known before the first report.
Packing reports nothing as a verification. -/
theorem progress_exact (R : Reader Key) (hC : R.crypto.Correct) (hK : R.codec.Lawful)
    (hB : R.codec.Bounded) (request : OperationRequest) (hrequest : request.Ordered) {fs : Fs}
    {nextOther : Nat} {labels : List (Label WorldInput EnvAction)}
    {t : Task World WorldInput Error} {w : World}
    (hrun : run (interleave World.env) ((request.execute R).task, World.start fs nextOther) labels =
      some (t, w)) :
    (((∀ p ∈ request.phases, p.reports w.control.events = []) ∧ t.isDone = false) ∨
      ∃ before after entries u, labels = before ++ after ∧
        (request.entries R).Executes World.env (World.start fs nextOther) before (.ok entries) u ∧
        ∀ p ∈ request.phases, Measured p (totalSize entries) t.isDone w.control.events) ∧
    ∀ walk req, request = .pack walk req → ∀ e ∈ w.control.events, e.phase? ≠ some .verify := by
  refine ⟨?_, fun walk req heq => ?_⟩
  · cases request with
    | pack walk req =>
        rcases Pack.measured_pack hC hK hB hrun with ⟨hencrypt, hself, hdone⟩ |
          ⟨before, after, prepared, u, hls, hexec, hencrypt, hself⟩
        · refine .inl ⟨fun p hp => ?_, hdone⟩
          rcases List.mem_pair.mp hp with rfl | rfl
          · exact hencrypt
          · exact hself
        · refine .inr ⟨before, after, prepared.scan.entries, u, hls, hexec.map, fun p hp => ?_⟩
          rcases List.mem_pair.mp hp with rfl | rfl
          · exact hencrypt
          · exact hself
    | verify container password =>
        rcases measured_verify hrun with ⟨hnone, hdone⟩ |
          ⟨before, after, opened, u, hls, hexec, hverify⟩
        · refine .inl ⟨fun p hp => ?_, hdone⟩
          obtain rfl := List.mem_singleton.mp hp
          exact hnone
        · refine .inr ⟨before, after, opened.index.entries.values, u, hls, hexec.map, fun p hp => ?_⟩
          obtain rfl := List.mem_singleton.mp hp
          exact hverify
    | extract req =>
        rcases Extract.measured_extract hrequest hrun with ⟨hnone, hdone⟩ |
          ⟨before, after, opened, u, hls, hexec, hextract⟩
        · refine .inl ⟨fun p hp => ?_, hdone⟩
          obtain rfl := List.mem_singleton.mp hp
          exact hnone
        · refine .inr ⟨before, after, opened.index.entries.values, u, hls, hexec.map, fun p hp => ?_⟩
          obtain rfl := List.mem_singleton.mp hp
          exact hextract
  · subst heq
    exact Pack.outside_verify hrun

/-! ## A source with one file -/

namespace OperationRequest

def sampleTree : FileTree OsString FsNode := fun p =>
  if p = [] ∨ p = [.utf8 "s"] then some .directory
  else if p = [.utf8 "s", .utf8 "a"] then some (.file (.other 0)) else none

def sampleFs : Fs := ⟨sampleTree, fun _ => ⟨[7], 0⟩⟩

/-- A codec for the one index of this run. -/
def sampleCodec : IndexCodec where
  encode i := if i = ⟨Pack.sampleScan.entries⟩ then some [1] else none
  decode _ := some ⟨Pack.sampleScan.entries⟩

theorem sampleCodec_encode {i : Index} {b : Bytes} :
    sampleCodec.encode i = some b ↔ i = ⟨Pack.sampleScan.entries⟩ ∧ b = [1] := by
  show (if i = ⟨Pack.sampleScan.entries⟩ then some [1] else none) = some b ↔ _
  by_cases hi : i = ⟨Pack.sampleScan.entries⟩
  · rw [if_pos hi, Option.some.injEq]
    exact ⟨fun h => ⟨hi, h.symm⟩, fun h => h.2.symm⟩
  · rw [if_neg hi]
    exact ⟨nofun, fun h => absurd h.1 hi⟩

theorem sampleCodec_lawful : sampleCodec.Lawful := by
  intro i b h
  rw [(sampleCodec_encode.mp h).1]
  rfl

theorem sampleCodec_bounded : sampleCodec.Bounded := by
  intro i b h
  rw [(sampleCodec_encode.mp h).2]
  decide

def sampleReader : Reader Unit := ⟨clearCrypto, sampleCodec, .stored, .unix, .ascii, id⟩

/-- The directory `s`, with a file of one byte, is to be packed into `o`. -/
def sampleRequest : OperationRequest :=
  .pack Pack.sampleWalk
    ⟨[.utf8 "s"], [.utf8 "o"], "p", none, ⟨65536, 3, 1⟩, 1000, some [.utf8 "t"]⟩

/-- The same step some times. -/
def sampleSteps (n : Nat) (p : Pick WorldInput) : List (Label WorldInput EnvAction) :=
  List.replicate n (.task p)

/-- The whole run. The encryption and the verification of the chunk are children of
children. -/
def sampleRun : List (Label WorldInput EnvAction) :=
  let one : Pick WorldInput := .here Pack.sampleInput
  sampleSteps 27 one ++
    (sampleSteps 3 (.child 0 one) ++ sampleSteps 4 (.child 0 (.child 0 one)) ++
      sampleSteps 1 (.child 0 .join) ++ sampleSteps 1 (.child 0 one) ++ sampleSteps 1 .join) ++
    sampleSteps 13 one ++
    (sampleSteps 3 (.child 0 (.child 0 one)) ++ sampleSteps 1 (.child 0 .join) ++
      sampleSteps 1 .join) ++
    sampleSteps 8 one

theorem progress_exact_sample : ∃ w,
    run (interleave World.env)
      ((sampleRequest.execute sampleReader).task, World.start sampleFs 1) sampleRun =
        some (.done, w) ∧
    Measured .encrypt 1 True w.control.events ∧ Measured .selfVerify 1 True w.control.events := by
  have hend : (run (interleave World.env)
      ((sampleRequest.execute sampleReader).task, World.start sampleFs 1)
        sampleRun).map (fun c => (c.1.isDone, OperationPhase.encrypt.reports c.2.control.events)) =
          some (true, [⟨.encrypt, 0, 1⟩, ⟨.encrypt, 1, 1⟩]) := by
    decide +kernel
  obtain ⟨⟨t, w⟩, hrun, hc⟩ := Option.map_eq_some_iff.mp hend
  obtain ⟨hdone, hreports⟩ := Prod.mk.inj hc
  obtain rfl := Task.isDone_iff.mp hdone
  refine ⟨w, hrun, ?_⟩
  have hexact := progress_exact sampleReader clearCrypto_correct sampleCodec_lawful
    sampleCodec_bounded sampleRequest trivial hrun
  rcases hexact.1 with ⟨-, hnot⟩ | ⟨_, _, entries, _, -, -, hmeasured⟩
  · cases hnot
  · have hencrypt := hmeasured .encrypt List.mem_cons_self
    have hself := hmeasured .selfVerify (List.mem_cons_of_mem _ List.mem_cons_self)
    -- the first report names the total
    have hfirst : (⟨.encrypt, 0, 1⟩ : OperationProgress) ∈
        OperationPhase.encrypt.reports w.control.events := by
      dsimp only at hreports
      rw [hreports]
      exact List.mem_cons_self
    obtain ⟨htotal, -⟩ := hencrypt.bounded _ hfirst
    rw [← htotal] at hencrypt hself
    simp only [Task.isDone_iff] at hencrypt hself
    exact ⟨hencrypt, hself⟩

end OperationRequest

end CipherFS
