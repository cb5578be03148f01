import Mathlib

/-!
# Fallible results with a chain of contexts

`anyhow::Error` as the code uses it: a root cause and the contexts added on the
way up, outermost first. `Result` is `Except` over it. The lemmas give each
combinator its success condition, so that a chain of checks unfolds to the
conjunction of what it checked.
-/

namespace CipherFS

/-- What an error was made from. `panic` is an arithmetic overflow or an
indexing fault, which no `Result` of the source reports. -/
inductive Cause where
  | message (text : String)
  | io (text : String)
  | cancelled
  | panic (text : String)
deriving DecidableEq, Repr

/-- An `anyhow::Error`: the cause and the contexts around it. -/
structure Error where
  cause : Cause
  contexts : List String
deriving DecidableEq, Repr

/-- `anyhow::Result`. -/
abbrev Result (α : Type) := Except Error α

namespace Result

variable {α β : Type}

/-- `anyhow::bail!`. -/
def bail (text : String) : Result α :=
  .error ⟨.message text, []⟩

/-- An I/O error as the standard library returns it. -/
def ioError (text : String) : Result α :=
  .error ⟨.io text, []⟩

/-- A panic of the source. -/
def panicked (text : String) : Result α :=
  .error ⟨.panic text, []⟩

/-- `if condition { bail!(text) }`. -/
def rejectIf (condition : Prop) [Decidable condition] (text : String) : Result Unit :=
  if condition then bail text else .ok ()

/-- `Context::context` on a `Result`. -/
def context (r : Result α) (text : String) : Result α :=
  match r with
  | .ok a => .ok a
  | .error e => .error ⟨e.cause, text :: e.contexts⟩

/-- Unsigned subtraction outside the checked operations: `none` is the overflow
panic. -/
def ofSub (o : Option α) : Result α :=
  match o with
  | some a => .ok a
  | none => panicked "attempt to subtract with overflow"

/-- `Context::context` on an `Option`. -/
def ofOption (o : Option α) (text : String) : Result α :=
  match o with
  | some a => .ok a
  | none => bail text

@[simp] theorem bind_eq_ok {ε : Type} {r : Except ε α} {f : α → Except ε β} {b : β} :
    r >>= f = .ok b ↔ ∃ a, r = .ok a ∧ f a = .ok b := by
  cases r with
  | ok a => simp [bind, Except.bind]
  | error e => simp [bind, Except.bind]

@[simp] theorem pure_eq_ok {ε : Type} {a b : α} :
    (pure a : Except ε α) = .ok b ↔ a = b := by
  simp [pure, Except.pure]

@[simp] theorem ok_bind {ε : Type} (a : α) (f : α → Except ε β) :
    (Except.ok a >>= f) = f a := rfl

@[simp] theorem bail_ne_ok {text : String} {a : α} : bail text ≠ .ok a := by
  simp [bail]

@[simp] theorem rejectIf_eq_ok {condition : Prop} [Decidable condition] {text : String}
    {u : Unit} : rejectIf condition text = .ok u ↔ ¬condition := by
  unfold rejectIf
  split <;> simp_all

@[simp] theorem context_eq_ok {r : Result α} {text : String} {a : α} :
    r.context text = .ok a ↔ r = .ok a := by
  cases r <;> simp [context]

@[simp] theorem ofOption_eq_ok {o : Option α} {text : String} {a : α} :
    ofOption o text = .ok a ↔ o = some a := by
  cases o <;> simp [ofOption]

@[simp] theorem ofSub_eq_ok {o : Option α} {a : α} : ofSub o = .ok a ↔ o = some a := by
  cases o <;> simp [ofSub, panicked]

/-- A failure passes through the rest of a computation unchanged. -/
@[simp] theorem error_bind {ε : Type} (e : ε) (f : α → Except ε β) :
    ((Except.error e : Except ε α) >>= f) = .error e := rfl

/-- A result is never both a value and an error. -/
theorem exists_ok_iff {r : Result α} : (∃ a, r = .ok a) ↔ ∀ e, r ≠ .error e := by
  cases r <;> simp

/-! ## Loops -/

@[simp] theorem forM_eq_ok {l : List α} {f : α → Result Unit} {u : Unit} :
    l.forM f = .ok u ↔ ∀ a ∈ l, f a = .ok () := by
  induction l with
  | nil => simp
  | cons a rest ih =>
      change (f a >>= fun _ => rest.forM f) = .ok u ↔ _
      simp only [bind_eq_ok, ih, List.mem_cons, forall_eq_or_imp]
      constructor
      · rintro ⟨_, ha, hrest⟩
        exact ⟨ha, hrest⟩
      · rintro ⟨ha, hrest⟩
        exact ⟨(), ha, hrest⟩

/-- Element by element, a successful `mapM` is a relation between two lists. -/
theorem mapM_eq_ok {l : List α} {f : α → Result β} : ∀ {bs : List β},
    l.mapM f = .ok bs ↔ List.Forall₂ (fun a b => f a = .ok b) l bs := by
  induction l with
  | nil =>
      intro bs
      rw [List.mapM_nil, pure_eq_ok, List.forall₂_nil_left_iff, eq_comm]
  | cons a rest ih =>
      intro bs
      simp only [List.mapM_cons, bind_eq_ok, pure_eq_ok, ih, List.forall₂_cons_left_iff]
      constructor
      · rintro ⟨b, hb, bs, hbs, rfl⟩
        exact ⟨b, bs, hb, hbs, rfl⟩
      · rintro ⟨b, bs, hb, hbs, rfl⟩
        exact ⟨b, hb, bs, hbs, rfl⟩

theorem exists_mapM_eq_ok {l : List α} {f : α → Result β} (h : ∀ a ∈ l, ∃ b, f a = .ok b) :
    ∃ bs, l.mapM f = .ok bs := by
  induction l with
  | nil => exact ⟨[], rfl⟩
  | cons a rest ih =>
      obtain ⟨b, hb⟩ := h a List.mem_cons_self
      obtain ⟨bs, hbs⟩ := ih fun c hc => h c (List.mem_cons_of_mem _ hc)
      exact ⟨b :: bs, mapM_eq_ok.mpr (.cons hb (mapM_eq_ok.mp hbs))⟩

/-- A measure of the results that the arguments determine. -/
theorem map_eq_of_mapM_eq_ok {γ : Type} {f : α → Result β} {g : β → γ} {k : α → γ} :
    ∀ {l : List α} {bs : List β}, l.mapM f = .ok bs →
      (∀ a ∈ l, ∀ b, f a = .ok b → g b = k a) → bs.map g = l.map k := by
  intro l
  induction l with
  | nil =>
      intro bs h _
      rw [mapM_eq_ok, List.forall₂_nil_left_iff] at h
      rw [h]
      rfl
  | cons a rest ih =>
      intro bs h hg
      rw [mapM_eq_ok, List.forall₂_cons_left_iff] at h
      obtain ⟨b, bs, hb, hbs, rfl⟩ := h
      rw [List.map_cons, List.map_cons, hg a List.mem_cons_self b hb,
        ih (mapM_eq_ok.mpr hbs) fun c hc => hg c (List.mem_cons_of_mem _ hc)]

/-- A successful loop ends in a state that the invariant ties to the elements it
consumed. -/
theorem foldlM_inv {ε : Type} {I : List α → β → Prop} {f : β → α → Except ε β} {s t : β}
    {l : List α} (hinit : I [] s)
    (hstep : ∀ done a s s', I done s → f s a = .ok s' → I (done ++ [a]) s')
    (h : l.foldlM f s = .ok t) : I l t := by
  suffices go : ∀ (l done : List α) (s : β), I done s → l.foldlM f s = .ok t →
      I (done ++ l) t by
    simpa using go l [] s hinit h
  intro l
  induction l with
  | nil =>
      intro done s hs h
      obtain rfl : s = t := by simpa using h
      simpa using hs
  | cons a rest ih =>
      intro done s hs h
      rw [List.foldlM_cons, bind_eq_ok] at h
      obtain ⟨s', hs', hrest⟩ := h
      simpa using ih (done ++ [a]) s' (hstep done a s s' hs hs') hrest

/-- A loop succeeds when its invariant makes every iteration succeed. -/
theorem foldlM_ok {ε : Type} {I : List α → β → Prop} {f : β → α → Except ε β} {s : β}
    {l : List α} (hinit : I [] s)
    (hstep : ∀ done a rest s, l = done ++ a :: rest → I done s →
      ∃ s', f s a = .ok s' ∧ I (done ++ [a]) s') :
    ∃ t, l.foldlM f s = .ok t ∧ I l t := by
  suffices go : ∀ (todo done : List α) (s : β), l = done ++ todo → I done s →
      ∃ t, todo.foldlM f s = .ok t ∧ I l t by
    exact go l [] s rfl hinit
  intro todo
  induction todo with
  | nil =>
      intro done s hl hs
      exact ⟨s, rfl, by rw [hl, List.append_nil]; exact hs⟩
  | cons a rest ih =>
      intro done s hl hs
      obtain ⟨s', hs', hI⟩ := hstep done a rest s hl hs
      obtain ⟨t, ht, hIt⟩ := ih (done ++ [a]) s' (by rw [hl]; simp) hI
      exact ⟨t, by rw [List.foldlM_cons, hs', ok_bind, ht], hIt⟩

end Result

end CipherFS
