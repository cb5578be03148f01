import CipherFS.Framework.RelyGuarantee

/-!
# Parties that share a cell

Each party is a sequential program that reads the cell in one step at most, the
same one in every run, and later overwrites it without looking at it again. In
any interleaving each party does what it would do alone from the value it read,
and if no party reads between the read and a write of another one, two parties do
together what they would do one after the other.
-/

namespace CipherFS

variable {P σ ι ε ξ H α β : Type}

/-- A cell in the state of a program, and the values the program has written to it. -/
structure Shared (σ H : Type) where
  get : σ → H
  set : σ → H → σ
  written : σ → List H
  get_set : ∀ s h, get (set s h) = h
  set_get : ∀ s, set s (get s) = s
  set_set : ∀ s h h', set (set s h) h' = set s h'
  written_set : ∀ s h, written (set s h) = written s

namespace Shared

variable (S : Shared σ H)

/-- The cell and the values written are the same. -/
def Keeps (s s' : σ) : Prop := S.get s' = S.get s ∧ S.written s' = S.written s

/-- A step that neither looks at the cell nor changes it. -/
structure Private (f : σ → Option σ) (next : σ → Task σ ι ε) (s : σ) : Prop where
  step : ∀ h, f (S.set s h) = (f s).map fun s' => S.set s' h
  next : ∀ h, next (S.set s h) = next s
  keeps : ∀ s', f s = some s' → S.Keeps s s'

/-- A step that overwrites the cell without looking at it. -/
structure Overwrites (f : σ → Option σ) (next : σ → Task σ ι ε) (s : σ) : Prop where
  step : ∀ h, f (S.set s h) = f s
  next : ∀ h, next (S.set s h) = next s
  writes : ∀ s', f s = some s' → S.written s' = S.written s ++ [S.get s']

variable {S}

theorem Private.of_set {f : σ → Option σ} {next : σ → Task σ ι ε} {s s' : σ} {c : H}
    (hp : S.Private f next s) (hf : f (S.set s c) = some s') :
    (S.written s' = S.written s ∧ S.get s' = c) ∧ (∀ h, f (S.set s h) = some (S.set s' h)) ∧
      ∀ h, next (S.set s h) = next (S.set s c) := by
  rw [hp.step, Option.map_eq_some_iff] at hf
  obtain ⟨u, hu, rfl⟩ := hf
  refine ⟨⟨(S.written_set u c).trans (hp.keeps u hu).2, S.get_set u c⟩, fun h => ?_, fun h => ?_⟩
  · rw [hp.step, hu, S.set_set]
    rfl
  · rw [hp.next, hp.next]

end Shared

namespace Task

/-- The program never looks at the cell. -/
def Oblivious (S : Shared σ H) : Task σ ι ε → Prop
  | done => True
  | fail _ => True
  | act f next => ∀ i s, (S.Private (f i) (next i) s ∨ S.Overwrites (f i) (next i) s) ∧
      (next i s).Oblivious S
  | fork _ _ _ _ _ => False

/-- The program looks at the cell after so many steps, and never again. -/
def ReadsAt (S : Shared σ H) : Task σ ι ε → Nat → Prop
  | done, _ => True
  | fail _, _ => True
  | act f next, 0 => ∀ i s, (∀ s', f i s = some s' → S.Keeps s s') ∧ (next i s).Oblivious S
  | act f next, n + 1 => ∀ i s, S.Private (f i) (next i) s ∧ (next i s).ReadsAt S n
  | fork _ _ _ _ _, _ => False

end Task

/-! ## Programs -/

namespace Prog

variable {S : Shared σ H}

def Oblivious (S : Shared σ H) (m : Prog σ ι ε α) : Prop :=
  ∀ k h, (∀ a, (k a).Oblivious S) → (∀ e, (h e).Oblivious S) → (m k h).Oblivious S

theorem Oblivious.pure (a : α) : Oblivious S (Pure.pure a : Prog σ ι ε α) :=
  fun _ _ hk _ => hk a

theorem Oblivious.throw (e : ε) : Oblivious S (Prog.throw e : Prog σ ι ε α) :=
  fun _ _ _ hh => hh e

theorem Oblivious.ofExcept (r : Except ε α) : Oblivious S (Prog.ofExcept r : Prog σ ι ε α) := by
  cases r with
  | ok a => exact .pure a
  | error e => exact .throw e

theorem Oblivious.bind {m : Prog σ ι ε α} {f : α → Prog σ ι ε β} (hm : Oblivious S m)
    (hf : ∀ a, Oblivious S (f a)) : Oblivious S (m >>= f) :=
  fun k h hk hh => hm _ h (fun a => hf a k h hk hh) hh

/-- A step of a program that neither looks at the cell nor changes it. -/
structure PrivateCall (S : Shared σ H) (f : ι → σ → Except ε α × σ) (i : ι) (s : σ) : Prop where
  step : ∀ h, f i (S.set s h) = ((f i s).1, S.set (f i s).2 h)
  keeps : S.Keeps s (f i s).2

theorem PrivateCall.private {f : ι → σ → Except ε α × σ} {i : ι} {s : σ}
    (hf : PrivateCall S f i s) (g : Except ε α → Task σ ι ε) :
    S.Private (fun s => some (f i s).2) (fun s => g (f i s).1) s where
  step h := congrArg some (congrArg Prod.snd (hf.step h))
  next h := congrArg (fun r => g r.1) (hf.step h)
  keeps _ hs' := Option.some.inj hs' ▸ hf.keeps

/-- A step of a program that overwrites the cell without looking at it. -/
structure OverwritingCall (S : Shared σ H) (f : ι → σ → Except ε α × σ) (i : ι) (s : σ) :
    Prop where
  step : ∀ h, f i (S.set s h) = f i s
  writes : S.written (f i s).2 = S.written s ++ [S.get (f i s).2]

theorem OverwritingCall.overwrites {f : ι → σ → Except ε α × σ} {i : ι} {s : σ}
    (hf : OverwritingCall S f i s) (g : Except ε α → Task σ ι ε) :
    S.Overwrites (fun s => some (f i s).2) (fun s => g (f i s).1) s where
  step h := congrArg some (congrArg Prod.snd (hf.step h))
  next h := congrArg (fun r => g r.1) (hf.step h)
  writes _ hs' := Option.some.inj hs' ▸ hf.writes

theorem call_eq_act (f : ι → σ → Except ε α × σ) (k : α → Task σ ι ε) (h : ε → Task σ ι ε) :
    Prog.call f k h = .act (fun i s => some (f i s).2) fun i s =>
      match (f i s).1 with
      | .ok a => k a
      | .error e => h e := by
  show Task.act _ _ = _
  congr 1
  funext i s
  dsimp only
  generalize f i s = r
  rcases r with ⟨e | a, s'⟩ <;> rfl

theorem Oblivious.call {f : ι → σ → Except ε α × σ}
    (hf : ∀ i s, PrivateCall S f i s ∨ OverwritingCall S f i s) :
    Oblivious S (Prog.call f) := by
  intro k h hk hh
  rw [call_eq_act]
  refine fun i s => ⟨?_, ?_⟩
  · exact (hf i s).imp
      (fun hp => hp.private fun | .ok a => k a | .error e => h e)
      fun ho => ho.overwrites fun | .ok a => k a | .error e => h e
  · show Task.Oblivious S (match (f i s).1 with | .ok a => k a | .error e => h e)
    cases (f i s).1 with
    | ok a => exact hk a
    | error e => exact hh e

theorem readsAt_call_succ {f : ι → σ → Except ε α × σ} {k : α → Task σ ι ε}
    {h : ε → Task σ ι ε} {n : Nat} (hf : ∀ i s, PrivateCall S f i s)
    (hk : ∀ a, (k a).ReadsAt S n) (hh : ∀ e, (h e).ReadsAt S n) :
    (Prog.call f k h).ReadsAt S (n + 1) := by
  rw [call_eq_act]
  refine fun i s => ⟨(hf i s).private fun | .ok a => k a | .error e => h e, ?_⟩
  show Task.ReadsAt S (match (f i s).1 with | .ok a => k a | .error e => h e) n
  cases (f i s).1 with
  | ok a => exact hk a
  | error e => exact hh e

theorem readsAt_call_zero {f : ι → σ → Except ε α × σ} {k : α → Task σ ι ε}
    {h : ε → Task σ ι ε} (hf : ∀ i s, S.Keeps s (f i s).2)
    (hk : ∀ a, (k a).Oblivious S) (hh : ∀ e, (h e).Oblivious S) :
    (Prog.call f k h).ReadsAt S 0 := by
  rw [call_eq_act]
  refine fun i s => ⟨fun s' hs' => Option.some.inj hs' ▸ hf i s, ?_⟩
  show Task.Oblivious S (match (f i s).1 with | .ok a => k a | .error e => h e)
  cases (f i s).1 with
  | ok a => exact hk a
  | error e => exact hh e

end Prog

/-! ## The race -/

/-- A party has read the cell or written it, with what is in it afterwards. -/
inductive Touch (P H : Type) where
  | read (p : P) (value : H)
  | write (p : P) (value : H)

namespace Touch

def party : Touch P H → P
  | read p _ => p
  | write p _ => p

def value : Touch P H → H
  | read _ h => h
  | write _ h => h

def isWrite : Touch P H → Bool
  | read _ _ => false
  | write _ _ => true

end Touch

/-- What the cell holds after the touches. -/
def lastValue (h : H) (log : List (Touch P H)) : H := log.foldl (fun _ t => t.value) h

theorem lastValue_append (h : H) (log log' : List (Touch P H)) :
    lastValue h (log ++ log') = lastValue (lastValue h log) log' :=
  List.foldl_append

def Label.isTask : Label ι ξ → Bool
  | .task _ => true
  | .env _ => false

/-- The parties with their own parts of the state, the labels each has taken, and
all touches of the cell. -/
structure Race (P σ ι ε ξ H : Type) where
  cell : H
  task : P → Task σ ι ε
  own : P → σ
  trace : P → List (Label ι ξ)
  log : List (Touch P H)

namespace Race

variable (S : Shared σ H) (env : σ → ξ → Option σ) (readsAt : P → Nat)

def start (cell : H) (task : P → Task σ ι ε) (own : P → σ) : Race P σ ι ε ξ H :=
  ⟨cell, task, own, fun _ => [], []⟩

/-- How many steps a party has taken. -/
def steps (r : Race P σ ι ε ξ H) (p : P) : Nat := (r.trace p).countP Label.isTask

/-- The touches of a step that leaves the party in a state. -/
def touches (r : Race P σ ι ε ξ H) (p : P) (l : Label ι ξ) (s' : σ) : List (Touch P H) :=
  (if l.isTask ∧ r.steps p = readsAt p then [.read p r.cell] else []) ++
    ((S.written s').drop (S.written (r.own p)).length).map (.write p)

variable {S env readsAt} {r r' : Race P σ ι ε ξ H} {p q : P} {l : Label ι ξ} {s' : σ}
  {t' : Task σ ι ε}

theorem party_touches : ∀ t ∈ r.touches S readsAt p l s', t.party = p := by
  intro t ht
  rcases List.mem_append.mp ht with ht | ht
  · split at ht
    · rw [List.mem_singleton.mp ht]
      rfl
    · cases ht
  · obtain ⟨h, -, rfl⟩ := List.mem_map.mp ht
    rfl

theorem touches_of_written (hw : S.written s' = S.written (r.own p))
    (hl : ¬(l.isTask ∧ r.steps p = readsAt p)) : r.touches S readsAt p l s' = [] := by
  rw [touches, if_neg hl, hw, List.drop_length]
  rfl

variable [DecidableEq P]

variable (S readsAt) in
/-- The race after a label of one party. -/
def moved (r : Race P σ ι ε ξ H) (p : P) (l : Label ι ξ) (t' : Task σ ι ε) (s' : σ) :
    Race P σ ι ε ξ H where
  cell := S.get s'
  task := Function.update r.task p t'
  own := Function.update r.own p s'
  trace := Function.update r.trace p (r.trace p ++ [l])
  log := r.log ++ r.touches S readsAt p l s'

@[simp] theorem moved_task :
    (r.moved S readsAt p l t' s').task = Function.update r.task p t' := rfl

@[simp] theorem moved_own : (r.moved S readsAt p l t' s').own = Function.update r.own p s' := rfl

@[simp] theorem moved_trace : (r.moved S readsAt p l t' s').trace =
    Function.update r.trace p (r.trace p ++ [l]) := rfl

variable (S env readsAt) in
/-- One label of one party, on the cell as it is now. -/
def step (r : Race P σ ι ε ξ H) (a : P × Label ι ξ) : Option (Race P σ ι ε ξ H) :=
  (interleave env (r.task a.1, S.set (r.own a.1) r.cell) a.2).map fun c =>
    r.moved S readsAt a.1 a.2 c.1 c.2

/-! ## Each party by itself -/

/-- The touches of one party. -/
def mine (r : Race P σ ι ε ξ H) (p : P) : List (Touch P H) := r.log.filter (·.party = p)

theorem mine_moved :
    (r.moved S readsAt p l t' s').mine p = r.mine p ++ r.touches S readsAt p l s' := by
  rw [mine, moved, List.filter_append, ← mine, List.filter_eq_self.mpr]
  exact fun t ht => decide_eq_true (party_touches t ht)

theorem mine_moved_of_ne (hq : q ≠ p) : (r.moved S readsAt p l t' s').mine q = r.mine q := by
  have hnone : (r.touches S readsAt p l s').filter (·.party = q) = [] := by
    refine List.filter_eq_nil_iff.mpr fun t ht => ?_
    rw [decide_eq_true_eq, party_touches t ht]
    exact hq.symm
  rw [mine, moved, List.filter_append, hnone, List.append_nil, ← mine]

/-- The environment of a party does not touch the cell. -/
def EnvPrivate (S : Shared σ H) (env : σ → ξ → Option σ) : Prop :=
  ∀ a s, S.Private (fun s => env s a) (fun _ => (Task.done : Task σ Unit Unit)) s

variable (S env readsAt) in
/-- Where a party stands: before its read it is where it would be alone, whatever
the cell holds; from its read on, where it would be alone from the value it read. -/
inductive Stage (task : P → Task σ ι ε) (own : P → σ) (r : Race P σ ι ε ξ H) (p : P) : Prop
  | before (n : Nat) : r.steps p + n = readsAt p → (r.task p).ReadsAt S n → r.mine p = [] →
      S.written (r.own p) = [] →
      (∀ h, run (interleave env) (task p, S.set (own p) h) (r.trace p) =
        some (r.task p, S.set (r.own p) h)) → Stage task own r p
  | after (h : H) : readsAt p < r.steps p → (r.task p).Oblivious S →
      r.mine p = .read p h :: (S.written (r.own p)).map (.write p) →
      run (interleave env) (task p, S.set (own p) h) (r.trace p) =
        some (r.task p, S.set (r.own p) (lastValue h (r.mine p))) → Stage task own r p

variable (S readsAt) in
/-- What a label tells of the cell. -/
inductive Tells (r : Race P σ ι ε ξ H) (p : P) (l : Label ι ξ) (s' : σ) : Prop
  | nothing : r.touches S readsAt p l s' = [] → S.get s' = r.cell → Tells r p l s'
  | read : r.touches S readsAt p l s' = [.read p r.cell] → S.get s' = r.cell → Tells r p l s'
  | write : r.touches S readsAt p l s' = [.write p (S.get s')] → Tells r p l s'

variable {task : P → Task σ ι ε} {own : P → σ}

theorem Stage.moved_of_ne (hs : Stage S env readsAt task own r q) (hq : q ≠ p) :
    Stage S env readsAt task own (r.moved S readsAt p l t' s') q := by
  have hmine : (r.moved S readsAt p l t' s').mine q = r.mine q := mine_moved_of_ne hq
  have htask : (r.moved S readsAt p l t' s').task q = r.task q := Function.update_of_ne hq _ _
  have hown : (r.moved S readsAt p l t' s').own q = r.own q := Function.update_of_ne hq _ _
  have htrace : (r.moved S readsAt p l t' s').trace q = r.trace q := Function.update_of_ne hq _ _
  cases hs with
  | before n hn hreads hm hw hrun =>
      refine .before n ?_ ?_ ?_ ?_ ?_
      · rwa [steps, htrace]
      · rwa [htask]
      · rwa [hmine]
      · rwa [hown]
      · rwa [htask, hown, htrace]
  | after h hn ho hm hrun =>
      refine .after h ?_ ?_ ?_ ?_
      · rwa [steps, htrace]
      · rwa [htask]
      · rwa [hmine, hown]
      · rwa [hmine, htask, hown, htrace]

theorem steps_moved : (r.moved S readsAt p l t' s').steps p =
    r.steps p + if l.isTask then 1 else 0 := by
  rw [steps, moved_trace, Function.update_self, List.countP_append, List.countP_singleton, ← steps]

theorem run_moved {c c' : Task σ ι ε × σ} {s : σ}
    (hrun : run (interleave env) (task p, s) (r.trace p) = some c)
    (hmove : interleave env c l = some c') :
    run (interleave env) (task p, s) ((r.moved S readsAt p l t' s').trace p) = some c' := by
  rw [moved_trace, Function.update_self, run_concat, hrun]
  exact hmove

/-- A label that leaves the cell alone, whatever it holds. -/
theorem Stage.before_private {n n' : Nat}
    (hkeeps : S.written s' = S.written (r.own p) ∧ S.get s' = r.cell)
    (hmove : ∀ h, interleave env (r.task p, S.set (r.own p) h) l = some (t', S.set s' h))
    (hn : r.steps p + n = readsAt p) (hn' : n' + (if l.isTask then 1 else 0) = n)
    (hreads : t'.ReadsAt S n') (hm : r.mine p = []) (hempty : S.written (r.own p) = [])
    (hrun : ∀ h, run (interleave env) (task p, S.set (own p) h) (r.trace p) =
      some (r.task p, S.set (r.own p) h)) :
    Stage S env readsAt task own (r.moved S readsAt p l t' s') p ∧ Tells S readsAt r p l s' := by
  obtain ⟨hw, hget⟩ := hkeeps
  have htouch : r.touches S readsAt p l s' = [] := by
    refine touches_of_written hw ?_
    rintro ⟨hl, hsteps⟩
    rw [if_pos hl] at hn'
    omega
  refine ⟨.before n' ?_ ?_ ?_ ?_ fun h => ?_, .nothing htouch hget⟩
  · rw [steps_moved]
    omega
  · rwa [moved_task, Function.update_self]
  · rw [mine_moved, hm, htouch]
    rfl
  · rw [moved_own, Function.update_self, hw, hempty]
  · rw [run_moved (hrun h) (hmove h), moved_task, moved_own, Function.update_self,
      Function.update_self]

theorem Stage.after_private {h : H}
    (hkeeps : S.written s' = S.written (r.own p) ∧ S.get s' = r.cell)
    (hmove : ∀ h, interleave env (r.task p, S.set (r.own p) h) l = some (t', S.set s' h))
    (hn : readsAt p < r.steps p) (ho : t'.Oblivious S)
    (hm : r.mine p = .read p h :: (S.written (r.own p)).map (.write p))
    (hrun : run (interleave env) (task p, S.set (own p) h) (r.trace p) =
      some (r.task p, S.set (r.own p) (lastValue h (r.mine p)))) :
    Stage S env readsAt task own (r.moved S readsAt p l t' s') p ∧ Tells S readsAt r p l s' := by
  obtain ⟨hw, hget⟩ := hkeeps
  have htouch : r.touches S readsAt p l s' = [] := touches_of_written hw fun hl => by omega
  have hmine : (r.moved S readsAt p l t' s').mine p = r.mine p := by
    rw [mine_moved, htouch, List.append_nil]
  refine ⟨.after h ?_ ?_ ?_ ?_, .nothing htouch hget⟩
  · rw [steps_moved]
    omega
  · rwa [moved_task, Function.update_self]
  · rwa [hmine, moved_own, Function.update_self, hw]
  · rw [run_moved hrun (hmove _), moved_task, moved_own, Function.update_self,
      Function.update_self, hmine]

/-- The read. -/
theorem Stage.before_read {i : ι}
    (hstep : interleave env (r.task p, S.set (r.own p) r.cell) (.task (.here i)) = some (t', s'))
    (hkeeps : S.Keeps (S.set (r.own p) r.cell) s') (hn : r.steps p = readsAt p)
    (ho : t'.Oblivious S) (hm : r.mine p = []) (hempty : S.written (r.own p) = [])
    (hrun : ∀ h, run (interleave env) (task p, S.set (own p) h) (r.trace p) =
      some (r.task p, S.set (r.own p) h)) :
    Stage S env readsAt task own (r.moved S readsAt p (.task (.here i)) t' s') p ∧
      Tells S readsAt r p (.task (.here i)) s' := by
  obtain ⟨hget, hw⟩ := hkeeps
  rw [S.get_set] at hget
  rw [S.written_set] at hw
  have htouch : r.touches S readsAt p (.task (.here i)) s' = [.read p r.cell] := by
    rw [touches, if_pos ⟨rfl, hn⟩, hw, List.drop_length]
    rfl
  have hmine : (r.moved S readsAt p (.task (.here i)) t' s').mine p = [.read p r.cell] := by
    rw [mine_moved, hm, htouch]
    rfl
  refine ⟨.after r.cell ?_ ?_ ?_ ?_, .read htouch hget⟩
  · rw [steps_moved, hn]
    exact Nat.lt_succ_self _
  · rwa [moved_task, Function.update_self]
  · rw [hmine, moved_own, Function.update_self, hw, hempty]
    rfl
  · rw [run_moved (hrun r.cell) hstep, moved_task, moved_own, Function.update_self,
      Function.update_self, hmine]
    show some (_, s') = some (_, S.set s' r.cell)
    rw [← hget, S.set_get]

/-- A write puts the same value into the cell, whatever it holds. -/
theorem Stage.after_write {h : H}
    (hmove : ∀ h, interleave env (r.task p, S.set (r.own p) h) l = some (t', s'))
    (hw : S.written s' = S.written (r.own p) ++ [S.get s'])
    (hn : readsAt p < r.steps p) (ho : t'.Oblivious S)
    (hm : r.mine p = .read p h :: (S.written (r.own p)).map (.write p))
    (hrun : run (interleave env) (task p, S.set (own p) h) (r.trace p) =
      some (r.task p, S.set (r.own p) (lastValue h (r.mine p)))) :
    Stage S env readsAt task own (r.moved S readsAt p l t' s') p ∧ Tells S readsAt r p l s' := by
  have htouch : r.touches S readsAt p l s' = [.write p (S.get s')] := by
    rw [touches, if_neg fun hl => by omega, hw, List.drop_left]
    rfl
  have hmine : (r.moved S readsAt p l t' s').mine p = r.mine p ++ [.write p (S.get s')] := by
    rw [mine_moved, htouch]
  refine ⟨.after h ?_ ?_ ?_ ?_, .write htouch⟩
  · rw [steps_moved]
    omega
  · rwa [moved_task, Function.update_self]
  · rw [hmine, moved_own, Function.update_self, hw, hm, List.map_append]
    rfl
  · rw [run_moved hrun (hmove _), moved_task, moved_own, Function.update_self,
      Function.update_self, hmine, lastValue_append]
    show some (_, s') = some (_, S.set s' (S.get s'))
    rw [S.set_get]

/-- **Every label keeps the party that takes it at its stage, or takes it on.** -/
theorem Stage.moved (henv : EnvPrivate S env) (hs : Stage S env readsAt task own r p)
    (hstep : interleave env (r.task p, S.set (r.own p) r.cell) l = some (t', s')) :
    Stage S env readsAt task own (r.moved S readsAt p l t' s') p ∧ Tells S readsAt r p l s' := by
  cases l with
  | env a =>
      obtain ⟨u, hu, heq⟩ := Option.map_eq_some_iff.mp hstep
      cases heq
      obtain ⟨hw, hmove, -⟩ := (henv a (r.own p)).of_set hu
      have hmove' : ∀ h, interleave env (r.task p, S.set (r.own p) h) (.env a) =
          some (r.task p, S.set s' h) := fun h => Option.map_eq_some_iff.mpr ⟨_, hmove h, rfl⟩
      cases hs with
      | before n hn hreads hm hempty hrun =>
          exact Stage.before_private hw hmove' hn rfl hreads hm hempty hrun
      | after h hn ho hm hrun => exact Stage.after_private hw hmove' hn ho hm hrun
  | task pick =>
      have hpick : (r.task p).step (S.set (r.own p) r.cell) pick = some (t', s') := hstep
      rcases Task.step_cases hpick with ⟨f, next, i, heq, rfl, hf, rfl⟩ |
        ⟨n, started, children, next, handler, heq, -⟩
      swap
      · cases hs with
        | before m _ hreads => exact absurd hreads (by rw [heq, Task.ReadsAt]; exact id)
        | after h _ ho => exact absurd ho (by rw [heq, Task.Oblivious]; exact id)
      have hmoves : S.Private (f i) (next i) (r.own p) → ∀ h,
          interleave env (r.task p, S.set (r.own p) h) (.task (.here i)) =
            some (next i (S.set (r.own p) r.cell), S.set s' h) := by
        intro hp h
        obtain ⟨-, hstep', hnext⟩ := hp.of_set hf
        rw [heq]
        show ((f i (S.set (r.own p) h)).map _) = _
        rw [hstep', hnext h]
        rfl
      cases hs with
      | before n hn hreads hm hempty hrun =>
          rw [heq] at hreads
          cases n with
          | succ n =>
              have hp := (hreads i (r.own p)).1
              exact Stage.before_private (hp.of_set hf).1 (hmoves hp) hn rfl
                (hreads i (S.set (r.own p) r.cell)).2 hm hempty hrun
          | zero =>
              obtain ⟨hkeeps, ho⟩ := hreads i (S.set (r.own p) r.cell)
              exact Stage.before_read hstep (hkeeps s' hf) hn ho hm hempty hrun
      | after h hn ho hm hrun =>
          rw [heq] at ho
          have hnext := (ho i (S.set (r.own p) r.cell)).2
          rcases (ho i (r.own p)).1 with hp | hov
          · exact Stage.after_private (hp.of_set hf).1 (hmoves hp) hn hnext hm hrun
          · rw [hov.step] at hf
            refine Stage.after_write (fun h' => ?_) (hov.writes s' hf) hn hnext hm hrun
            rw [heq]
            show ((f i (S.set (r.own p) h')).map _) = _
            rw [hov.step, hov.next, hov.next, hf]
            rfl

/-! ## The log -/

/-- The log tells what the cell holds, and what it held at each read. -/
structure LogTrue (cell : H) (r : Race P σ ι ε ξ H) : Prop where
  cell_eq : r.cell = lastValue cell r.log
  reads : ∀ pre p h post, r.log = pre ++ .read p h :: post → h = lastValue cell pre

theorem LogTrue.moved {cell : H} (hlog : LogTrue cell r) (ht : Tells S readsAt r p l s') :
    LogTrue cell (r.moved S readsAt p l t' s') := by
  have hone : ∀ t : Touch P H, r.touches S readsAt p l s' = [t] → t.value = S.get s' →
      (∀ q h, t = .read q h → h = r.cell) → LogTrue cell (r.moved S readsAt p l t' s') := by
    intro t htouch hvalue hread
    constructor
    · show S.get s' = lastValue cell (r.log ++ r.touches S readsAt p l s')
      rw [lastValue_append, htouch, ← hvalue]
      rfl
    · intro pre q h post hsplit
      change r.log ++ r.touches S readsAt p l s' = _ at hsplit
      rw [htouch] at hsplit
      rcases List.eq_nil_or_concat post with rfl | ⟨post', t', rfl⟩
      · obtain ⟨hpre, ht⟩ := List.append_inj' hsplit rfl
        rw [hread q h (List.singleton_inj.mp ht), ← hpre, hlog.cell_eq]
      · rw [List.concat_eq_append, ← List.cons_append, ← List.append_assoc] at hsplit
        exact hlog.reads pre q h post' (List.append_inj' hsplit rfl).1
  cases ht with
  | nothing htouch hget =>
      constructor
      · show S.get s' = lastValue cell (r.log ++ r.touches S readsAt p l s')
        rw [htouch, List.append_nil, hget, hlog.cell_eq]
      · intro pre q h post hsplit
        change r.log ++ r.touches S readsAt p l s' = _ at hsplit
        rw [htouch, List.append_nil] at hsplit
        exact hlog.reads pre q h post hsplit
  | read htouch hget =>
      refine hone _ htouch hget.symm ?_
      rintro q h ⟨⟩
      rfl
  | write htouch =>
      refine hone _ htouch rfl ?_
      rintro q h ⟨⟩

variable (S env readsAt) in
/-- **In a race every party stands where it would stand alone.** -/
theorem stages (henv : EnvPrivate S env) {cell : H}
    (hreads : ∀ q, (task q).ReadsAt S (readsAt q)) (hfresh : ∀ q, S.written (own q) = [])
    {labels : List (P × Label ι ξ)}
    (hrun : run (step S env readsAt) (start cell task own) labels = some r) :
    (∀ q, Stage S env readsAt task own r q) ∧ LogTrue cell r := by
  refine run_inv (I := fun r => (∀ q, Stage S env readsAt task own r q) ∧ LogTrue cell r) ?_ hrun
    ⟨fun q => .before (readsAt q) (Nat.zero_add _) (hreads q) rfl (hfresh q) fun _ => rfl, rfl, ?_⟩
  · rintro m ⟨p, l⟩ m' _ ⟨hstage, hlog⟩ hstep
    obtain ⟨⟨t', s'⟩, hint, rfl⟩ := Option.map_eq_some_iff.mp hstep
    obtain ⟨hp, htells⟩ := (hstage p).moved henv hint
    refine ⟨fun q => ?_, hlog.moved htells⟩
    by_cases hq : q = p
    · subst hq
      exact hp
    · exact (hstage q).moved_of_ne hq
  · intro pre p h post hnil
    exact absurd hnil (by simp [start])

/-! ## Two parties -/

/-- The run of a party by itself. -/
def alone (env : σ → ξ → Option σ) (task : P → Task σ ι ε) (own : P → σ) (S : Shared σ H)
    (r : Race P σ ι ε ξ H) (p : P) (h : H) : Option (Task σ ι ε × σ) :=
  run (interleave env) (task p, S.set (own p) h) (r.trace p)

/-- A party that has not touched the cell would be there from any value. -/
theorem Stage.alone_of_mine_nil (hs : Stage S env readsAt task own r p) (hm : r.mine p = [])
    (h : H) : alone env task own S r p h = some (r.task p, S.set (r.own p) h) := by
  cases hs with
  | before n _ _ _ _ hrun => exact hrun h
  | after h' _ _ hm' _ =>
      rw [hm'] at hm
      cases hm

theorem Stage.alone_of_mine_cons (hs : Stage S env readsAt task own r p) {t : Touch P H}
    {ts : List (Touch P H)} (hm : r.mine p = t :: ts) :
    ∃ h, t = .read p h ∧ (∀ t ∈ ts, t.isWrite = true) ∧
      alone env task own S r p h =
        some (r.task p, S.set (r.own p) (lastValue h (r.mine p))) := by
  cases hs with
  | before n _ _ hm' =>
      rw [hm'] at hm
      cases hm
  | after h _ _ hm' hrun =>
      rw [hm'] at hm
      obtain ⟨rfl, rfl⟩ := List.cons.inj hm
      refine ⟨h, rfl, fun t ht => ?_, hrun⟩
      obtain ⟨h', -, rfl⟩ := List.mem_map.mp ht
      rfl

end Race

/-- One of two parties. -/
inductive Side where
  | one
  | two
deriving DecidableEq

namespace Side

def other : Side → Side
  | one => two
  | two => one

@[simp] theorem other_other (s : Side) : s.other.other = s := by
  cases s <;> rfl

theorem eq_other_of_ne {s t : Side} (h : t ≠ s) : t = s.other := by
  cases s <;> cases t <;> first | rfl | exact absurd rfl h

theorem other_ne (s : Side) : s.other ≠ s := by
  cases s <;> nofun

end Side

namespace Race

variable {S : Shared σ H} {env : σ → ξ → Option σ} {readsAt : Side → Nat}
  {task : Side → Task σ ι ε} {own : Side → σ} {r : Race Side σ ι ε ξ H} {cell : H} {s : Side}

/-- When the second party reads the cell, the first one writes no more. -/
def Apart (r : Race Side σ ι ε ξ H) : Prop :=
  ∀ s pre h mid h' post, r.log = pre ++ .read s h :: mid ++ .read s.other h' :: post →
    ∀ t ∈ post, t.party = s → t.isWrite = false

theorem mine_eq_log (s : Side) (hm : r.mine s = []) : r.mine s.other = r.log := by
  refine List.filter_eq_self.mpr fun t ht => ?_
  rw [decide_eq_true_eq]
  refine Side.eq_other_of_ne fun hts => ?_
  exact List.filter_eq_nil_iff.mp hm t ht (decide_eq_true hts)

/-- If both parties have read the cell and they keep apart, the log is that of one
party and then that of the other. -/
theorem split_of_apart
    (hstage : ∀ s, Stage S env readsAt task own r s) (hapart : r.Apart)
    (hboth : ∀ s, r.mine s ≠ []) : ∃ s h mid h' post,
      r.log = .read s h :: mid ++ .read s.other h' :: post ∧ r.mine s = .read s h :: mid ∧
      r.mine s.other = .read s.other h' :: post := by
  obtain ⟨t, rest, hl⟩ : ∃ t rest, r.log = t :: rest := by
    refine List.exists_cons_of_ne_nil fun hnil => hboth .one ?_
    rw [mine, hnil]
    rfl
  have hfirst : r.mine t.party = t :: rest.filter (·.party = t.party) := by
    rw [mine, hl]
    exact List.filter_cons_of_pos (decide_eq_true rfl)
  obtain ⟨h, ht, hwrites, -⟩ := (hstage t.party).alone_of_mine_cons hfirst
  generalize t.party = s at ht hfirst hwrites
  subst ht
  obtain ⟨t', ts', hsecond⟩ := List.exists_cons_of_ne_nil (hboth s.other)
  obtain ⟨h', rfl, -, -⟩ := (hstage s.other).alone_of_mine_cons hsecond
  have hskip : r.mine s.other = rest.filter (·.party = s.other) := by
    rw [mine, hl, List.filter_cons_of_neg]
    rw [decide_eq_true_eq]
    exact (Side.other_ne s).symm
  rw [hskip, List.filter_eq_cons_iff] at hsecond
  obtain ⟨mid, post, rfl, hmid, -, -⟩ := hsecond
  have hmids : ∀ x ∈ mid, x.party = s := fun x hx => by
    by_contra hne
    exact hmid x hx (decide_eq_true (Side.eq_other_of_ne hne))
  have hpost : ∀ x ∈ post, x.party = s.other := fun x hx => by
    refine Side.eq_other_of_ne fun hxs => ?_
    have hmem : x ∈ (mid ++ .read s.other h' :: post).filter (·.party = s) :=
      List.mem_filter.mpr ⟨List.mem_append_right _ (List.mem_cons_of_mem _ hx), decide_eq_true hxs⟩
    exact Bool.false_ne_true
      ((hapart s [] h mid h' post hl x hx hxs).symm.trans (hwrites x hmem))
  have hours : ∀ x ∈ mid, decide (x.party = s) = true := fun x hx => decide_eq_true (hmids x hx)
  have htheirs : ∀ x ∈ (.read s.other h' :: post : List (Touch Side H)), x.party = s.other :=
    List.forall_mem_cons.mpr ⟨rfl, hpost⟩
  refine ⟨s, h, mid, h', post, hl, ?_, ?_⟩
  · have hnone : (.read s.other h' :: post : List (Touch Side H)).filter (·.party = s) = [] := by
      refine List.filter_eq_nil_iff.mpr fun x hx => ?_
      rw [decide_eq_true_eq, htheirs x hx]
      exact Side.other_ne s
    rw [hfirst, List.filter_append, List.filter_eq_self.mpr hours, hnone, List.append_nil]
  · rw [hskip, List.filter_append, List.filter_eq_nil_iff.mpr hmid, List.nil_append]
    exact List.filter_eq_self.mpr fun x hx => decide_eq_true (htheirs x hx)

/-- A party that has not touched the cell can as well go first. -/
theorem serial_of_mine_nil (hstage : ∀ s, Stage S env readsAt task own r s)
    (hlog : LogTrue cell r) {s : Side} (hm : r.mine s = []) : ∃ v₁ v₂,
      alone env task own S r s cell = some (r.task s, v₁) ∧
      alone env task own S r s.other (S.get v₁) = some (r.task s.other, v₂) ∧
      S.get v₂ = r.cell := by
  have hother := mine_eq_log s hm
  have hfirst := (hstage s).alone_of_mine_nil hm cell
  cases hl : r.log with
  | nil =>
      have hsecond := (hstage s.other).alone_of_mine_nil (hother.trans hl) cell
      refine ⟨_, _, hfirst, (S.get_set _ cell).symm ▸ hsecond, ?_⟩
      rw [S.get_set, S.get_set, hlog.cell_eq, hl]
      rfl
  | cons t ts =>
      obtain ⟨h, rfl, -, hsecond⟩ := (hstage s.other).alone_of_mine_cons (hother.trans hl)
      obtain rfl : h = cell := hlog.reads [] s.other h ts hl
      refine ⟨_, _, hfirst, (S.get_set _ h).symm ▸ hsecond, ?_⟩
      rw [S.get_set, S.get_set, hother, hlog.cell_eq]

/-- **Parties that keep apart come to what they come to one after the other.** -/
theorem serial_of_apart (hstage : ∀ s, Stage S env readsAt task own r s) (hlog : LogTrue cell r)
    (hapart : r.Apart) : ∃ s v₁ v₂, alone env task own S r s cell = some (r.task s, v₁) ∧
      alone env task own S r s.other (S.get v₁) = some (r.task s.other, v₂) ∧
      S.get v₂ = r.cell := by
  by_cases hnone : ∃ s, r.mine s = []
  · obtain ⟨s, hm⟩ := hnone
    exact ⟨s, serial_of_mine_nil hstage hlog hm⟩
  · rw [not_exists] at hnone
    obtain ⟨s, h, mid, h', post, hl, hmine, hmine'⟩ := split_of_apart hstage hapart hnone
    obtain ⟨_, heq, -, hrun⟩ := (hstage s).alone_of_mine_cons hmine
    cases heq
    obtain ⟨_, heq, -, hrun'⟩ := (hstage s.other).alone_of_mine_cons hmine'
    cases heq
    obtain rfl : h = cell := hlog.reads [] s h _ hl
    have hread : h' = lastValue h (r.mine s) := by
      rw [hmine]
      exact hlog.reads (.read s h :: mid) s.other h' post hl
    have hget := S.get_set (r.own s) (lastValue h (r.mine s))
    refine ⟨s, _, _, hrun, (hget.trans hread.symm).symm ▸ hrun', ?_⟩
    rw [S.get_set, hget, ← lastValue_append, hmine, hmine', hlog.cell_eq, hl]

/-- Parties of which all touches of the first come before those of the second. -/
theorem apart_of_pairwise
    (hl : r.log.Pairwise fun t t' => ¬(t.party = .two ∧ t'.party = .one)) : r.Apart := by
  intro s pre h mid h' post heq t ht hts
  rw [heq, List.append_assoc, List.cons_append] at hl
  have hrest := List.pairwise_cons.mp (List.pairwise_append.mp hl).2.1
  cases s with
  | two =>
      refine absurd ⟨rfl, rfl⟩ (hrest.1 (.read Side.two.other h') ?_)
      exact List.mem_append_right _ List.mem_cons_self
  | one =>
      have hpost := (List.pairwise_cons.mp (List.pairwise_append.mp hrest.2).2.1).1
      exact absurd ⟨rfl, hts⟩ (hpost t ht)

/-! ## A party that only reads -/

theorem Stage.mine_of_written_nil (hs : Stage S env readsAt task own r s)
    (hw : S.written (r.own s) = []) : r.mine s = [] ∨ ∃ g, r.mine s = [.read s g] := by
  cases hs with
  | before _ _ _ hm => exact .inl hm
  | after g _ _ hm =>
      rw [hw] at hm
      exact .inr ⟨g, hm⟩

theorem Stage.tail_of_mine_cons (hs : Stage S env readsAt task own r s) {t : Touch Side H}
    {ts : List (Touch Side H)} (hm : r.mine s = t :: ts) :
    ts = (S.written (r.own s)).map (.write s) := by
  cases hs with
  | before _ _ _ hm' =>
      rw [hm'] at hm
      cases hm
  | after h _ _ hm' =>
      rw [hm'] at hm
      exact (List.cons.inj hm).2.symm

/-- One read between the touches of the other party. -/
theorem log_of_reader {g : H} (hm : r.mine s = [.read s g]) : ∃ pre post,
    r.log = pre ++ .read s g :: post ∧ r.mine s.other = pre ++ post := by
  obtain ⟨pre, post, hl, hpre, -, hpost⟩ := List.filter_eq_cons_iff.mp hm
  have htheirs : ∀ ts : List (Touch Side H), (∀ t ∈ ts, ¬decide (t.party = s) = true) →
      ts.filter (·.party = s.other) = ts := fun ts hts => by
    refine List.filter_eq_self.mpr fun t ht => decide_eq_true (Side.eq_other_of_ne fun hts' => ?_)
    exact hts t ht (decide_eq_true hts')
  refine ⟨pre, post, hl, ?_⟩
  rw [mine, hl, List.filter_append, List.filter_cons_of_neg, htheirs pre hpre,
    htheirs post (List.filter_eq_nil_iff.mp hpost)]
  rw [decide_eq_true_eq]
  exact (Side.other_ne s).symm

/-- **A party that only reads comes before or after the other one**, unless it
read what that one wrote and wrote over again. -/
theorem serial_of_reader (hstage : ∀ s, Stage S env readsAt task own r s) (hlog : LogTrue cell r)
    (hw : S.written (r.own s) = []) :
    (∃ q v₁ v₂, alone env task own S r q cell = some (r.task q, v₁) ∧
      alone env task own S r q.other (S.get v₁) = some (r.task q.other, v₂) ∧
      S.get v₂ = r.cell) ∨
    ∃ ws₁ w ws₂, S.written (r.own s.other) = ws₁ ++ w :: ws₂ ∧ ws₂ ≠ [] ∧
      alone env task own S r s w = some (r.task s, S.set (r.own s) w) ∧
      alone env task own S r s.other cell = some (r.task s.other, S.set (r.own s.other) r.cell) := by
  rcases (hstage s).mine_of_written_nil hw with hm | ⟨g, hm⟩
  · exact .inl ⟨s, serial_of_mine_nil hstage hlog hm⟩
  obtain ⟨pre, post, hl, hother⟩ := log_of_reader hm
  cases hours : r.mine s.other with
  | nil => exact .inl ⟨s.other, serial_of_mine_nil hstage hlog hours⟩
  | cons t ts =>
      obtain ⟨h, rfl, -, htheirs⟩ := (hstage s.other).alone_of_mine_cons hours
      obtain ⟨_, heq, -, hreader⟩ := (hstage s).alone_of_mine_cons hm
      cases heq
      rw [hm] at hreader
      have hg : g = lastValue cell pre := hlog.reads pre s g post hl
      have hend : lastValue h (r.mine s.other) = r.cell := by
        have hsame : lastValue h (r.mine s.other) = lastValue cell (r.mine s.other) := by
          rw [hours]
          rfl
        rw [hsame, hlog.cell_eq, hl, hother, lastValue_append, lastValue_append, ← hg]
        rfl
      have htail := (hstage s.other).tail_of_mine_cons hours
      rw [hend] at htheirs
      -- the reader first, if it read what was there at the start
      have hbefore : g = cell → h = cell → ∃ q v₁ v₂,
          alone env task own S r q cell = some (r.task q, v₁) ∧
          alone env task own S r q.other (S.get v₁) = some (r.task q.other, v₂) ∧
          S.get v₂ = r.cell := by
        rintro rfl rfl
        exact ⟨s, _, _, hreader, (S.get_set _ h).symm ▸ htheirs, S.get_set _ _⟩
      rw [hours] at hother
      cases pre with
      | nil =>
          obtain rfl : g = cell := hg
          rw [← List.nil_append post, ← hother] at hl
          exact .inl (hbefore rfl (hlog.reads [.read s g] s.other h ts hl))
      | cons t pre =>
          obtain ⟨rfl, rfl⟩ := List.cons.inj hother
          obtain rfl : h = cell := hlog.reads [] s.other h _ hl
          rcases List.eq_nil_or_concat pre with rfl | ⟨pre, x, rfl⟩
          · exact .inl (hbefore hg rfl)
          · rw [List.concat_eq_append] at htail hg hl hours
            obtain ⟨ws, ws₂, hws, hpre, hpost⟩ := List.map_eq_append_iff.mp htail.symm
            obtain ⟨ws₁, ws', rfl, -, hx⟩ := List.map_eq_append_iff.mp hpre
            obtain ⟨w, rfl, rfl⟩ := List.map_eq_singleton_iff.mp hx
            obtain rfl : g = w := by rw [hg, ← List.cons_append, lastValue_append]; rfl
            cases ws₂ with
            | nil =>
                obtain rfl : post = [] := hpost.symm
                have hlast : r.cell = g := by
                  rw [hlog.cell_eq, hl, lastValue_append]
                  rfl
                refine .inl ⟨s.other, _, _, htheirs, ?_, S.get_set (r.own s) r.cell⟩
                rw [S.get_set, Side.other_other, hlast]
                exact hreader
            | cons w₂ ws₂ =>
                refine .inr ⟨ws₁, g, w₂ :: ws₂, ?_, List.cons_ne_nil _ _, hreader, htheirs⟩
                rw [hws, List.append_assoc]
                rfl

end Race

end CipherFS
