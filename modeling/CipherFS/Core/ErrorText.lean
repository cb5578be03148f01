import CipherFS.Core.ErrorKind

/-!
# Kinds inferred from texts

`infer_kind` looks for words in the whole text of an error, and that text can
hold a path. Two paths give one kind when the first class that either text
mentions is mentioned by both.
-/

namespace CipherFS

variable {α : Type} {w pre rest : List α}

/-! ## Words in a text -/

theorem infix_cons_iff {a : α} : w <:+: a :: rest ↔ w <+: a :: rest ∨ w <:+: rest :=
  List.infix_cons_iff

/-- A word that neither lies in a text nor begins in it is found in what follows. -/
theorem infix_append_iff_of_clash :
    ∀ {pre : List α}, (∀ t ∈ pre.tails, t ≠ [] → ¬t <+: w ∧ ¬w <+: t) →
      (w <:+: pre ++ rest ↔ w <:+: rest) := by
  intro pre
  induction pre with
  | nil => exact fun _ => Iff.rfl
  | cons a pre ih =>
      intro h
      rw [List.tails_cons, List.forall_mem_cons] at h
      rw [List.cons_append, infix_cons_iff, ih h.2]
      refine or_iff_right fun hpre => ?_
      obtain ⟨hshort, hlong⟩ := h.1 (List.cons_ne_nil a pre)
      rcases List.prefix_or_prefix_of_prefix hpre (List.prefix_append (a :: pre) rest) with h | h
      · exact hlong h
      · exact hshort h

/-- A search through a list finds the same for two tests when the first element
that either test accepts is accepted by both. -/
theorem find?_eq_find?_iff {p q : α → Bool} : ∀ {l : List α}, l.find? p = l.find? q ↔
    ∀ before a after, l = before ++ a :: after → (∀ b ∈ before, p b = false ∧ q b = false) →
      p a = q a := by
  intro l
  induction l with
  | nil =>
      refine iff_of_true rfl fun before a after h _ => ?_
      exact absurd h.symm (List.append_ne_nil_of_right_ne_nil before (List.cons_ne_nil a after))
  | cons c l ih =>
      cases hp : p c <;> cases hq : q c
      · rw [List.find?_cons_of_neg (by simp [hp]), List.find?_cons_of_neg (by simp [hq]), ih]
        constructor
        · intro h before a after heq hall
          cases before with
          | nil =>
              obtain ⟨rfl, -⟩ := List.cons.inj heq
              rw [hp, hq]
          | cons b before =>
              rw [List.cons_append] at heq
              obtain ⟨rfl, rfl⟩ := List.cons.inj heq
              exact h before a after rfl (List.forall_mem_cons.mp hall).2
        · rintro h before a after rfl hall
          exact h (c :: before) a after rfl (List.forall_mem_cons.mpr ⟨⟨hp, hq⟩, hall⟩)
      · refine iff_of_false ?_ fun h => ?_
        · rw [List.find?_cons_of_neg (by simp [hp]), List.find?_cons_of_pos hq]
          intro hfound
          rw [List.find?_some hfound] at hp
          cases hp
        · rw [h [] c l rfl nofun, hq] at hp
          cases hp
      · refine iff_of_false ?_ fun h => ?_
        · rw [List.find?_cons_of_pos hp, List.find?_cons_of_neg (by simp [hq])]
          intro hfound
          rw [List.find?_some hfound.symm] at hq
          cases hq
        · rw [← h [] c l rfl nofun, hp] at hq
          cases hq
      · refine iff_of_true ?_ fun before a after heq hall => ?_
        · rw [List.find?_cons_of_pos hp, List.find?_cons_of_pos hq]
        · cases before with
          | nil =>
              obtain ⟨rfl, -⟩ := List.cons.inj heq
              rw [hp, hq]
          | cons b before =>
              obtain ⟨rfl, -⟩ := List.cons.inj heq
              rw [(hall c List.mem_cons_self).1] at hp
              cases hp

/-! ## The cascade -/

/-- `contains`. -/
def mentions (message : List Char) (word : String) : Bool := word.toList <:+: message

/-- The words that put an error into a class. -/
def raises (message : List Char) : CoreErrorKind → Bool
  | .authentication => mentions message "password" || mentions message "key slot"
  | .integrity => mentions message "authentication" || mentions message "integrity"
  | .destinationExists => mentions message "destination" && mentions message "exist"
  | .sourceChanged => mentions message "source file changed"
  | .unsafePath => mentions message "unsafe" || mentions message "link" ||
      mentions message "reparse" || mentions message "escape"
  | .invalidFormat => mentions message "format" || mentions message "header" ||
      mentions message "container version"
  | _ => false

/-- The classes in the order of `infer_kind`. -/
def cascade : List CoreErrorKind :=
  [.authentication, .integrity, .destinationExists, .sourceChanged, .unsafePath, .invalidFormat]

/-- `to_ascii_lowercase`. -/
def lowercase (text : String) : List Char := text.toList.map Char.toLower

/-- The kind of an error that mentions no class. -/
def Error.defaultKind (e : Error) : CoreErrorKind := if e.isIo then .io else .internal

theorem getD_find?_cons (p : CoreErrorKind → Bool) (k d : CoreErrorKind)
    (rest : List CoreErrorKind) :
    ((k :: rest).find? p).getD d = if p k then k else (rest.find? p).getD d := by
  cases hk : p k
  · rw [List.find?_cons_of_neg (by simp [hk])]
    rfl
  · rw [List.find?_cons_of_pos hk]
    rfl

theorem inferKind_eq {e : Error} (h : e.cause ≠ .cancelled) :
    inferKind e = (cascade.find? (raises (lowercase e.display))).getD e.defaultKind := by
  rw [inferKind, if_neg h, cascade]
  simp only [getD_find?_cons]
  rfl

/-- The first class that either text mentions is mentioned by both. -/
def SameFirstClass (message message' : List Char) : Prop :=
  ∀ before k after, cascade = before ++ k :: after →
    (∀ j ∈ before, raises message j = false ∧ raises message' j = false) →
    raises message k = raises message' k

theorem defaultKind_notMem (e : Error) : e.defaultKind ∉ cascade := by
  unfold Error.defaultKind
  split <;> decide

theorem inferKind_eq_iff {e e' : Error} (h : e.cause ≠ .cancelled) (h' : e'.cause ≠ .cancelled)
    (hio : e.isIo = e'.isIo) : inferKind e = inferKind e' ↔
      SameFirstClass (lowercase e.display) (lowercase e'.display) := by
  have hdefault : e'.defaultKind = e.defaultKind := by rw [Error.defaultKind, Error.defaultKind, hio]
  rw [inferKind_eq h, inferKind_eq h', hdefault, SameFirstClass, ← find?_eq_find?_iff]
  refine ⟨fun hkind => ?_, fun hfound => by rw [hfound]⟩
  -- the default kind is no class, so it cannot be taken for one
  have hmem : ∀ {p : CoreErrorKind → Bool} {k}, cascade.find? p = some k → k ≠ e.defaultKind := by
    rintro p k hk rfl
    exact defaultKind_notMem e (List.mem_of_find?_eq_some hk)
  cases hp : cascade.find? (raises (lowercase e.display)) with
  | none =>
      cases hq : cascade.find? (raises (lowercase e'.display)) with
      | none => rfl
      | some k =>
          rw [hp, hq] at hkind
          exact absurd hkind.symm (hmem hq)
  | some k =>
      cases hq : cascade.find? (raises (lowercase e'.display)) with
      | none =>
          rw [hp, hq] at hkind
          exact absurd hkind (hmem hp)
      | some k' =>
          rw [hp, hq] at hkind
          exact congrArg some hkind

/-! ## Errors with a path -/

/-- An error with a path in its message, in the text of its I/O error, or in one
of its contexts. -/
inductive PathError where
  | message (contexts : List String) (start stop : String)
  | io (contexts : List String) (start stop : String)
  | context (cause : Cause) (outer : List String) (start stop : String) (inner : List String)

/-- The error for some path. -/
def PathError.embed (path : String) : PathError → Error
  | .message contexts start stop => ⟨.message (start ++ path ++ stop), contexts⟩
  | .io contexts start stop => ⟨.io (start ++ path ++ stop), contexts⟩
  | .context cause outer start stop inner => ⟨cause, outer ++ (start ++ path ++ stop) :: inner⟩

/-- A cancellation below a context. -/
def PathError.IsCancelled : PathError → Prop
  | .context cause _ _ _ _ => cause = .cancelled
  | _ => False

theorem PathError.cause_embed (t : PathError) (p : String) :
    (t.embed p).cause = .cancelled ↔ t.IsCancelled := by
  cases t with
  | message contexts start stop => exact iff_of_false nofun id
  | io contexts start stop => exact iff_of_false nofun id
  | context cause outer start stop inner => exact Iff.rfl

theorem PathError.isIo_embed (t : PathError) (p q : String) :
    (t.embed p).isIo = (t.embed q).isIo := by
  cases t <;> rfl

theorem PathError.inferKind_embed (t : PathError) (p q : String) :
    inferKind (t.embed p) = inferKind (t.embed q) ↔
      (¬t.IsCancelled → SameFirstClass (lowercase (t.embed p).display)
        (lowercase (t.embed q).display)) := by
  by_cases h : t.IsCancelled
  · refine iff_of_true ?_ fun hnot => absurd h hnot
    rw [inferKind, if_pos ((t.cause_embed p).mpr h), inferKind, if_pos ((t.cause_embed q).mpr h)]
  · rw [inferKind_eq_iff (fun hc => h ((t.cause_embed p).mp hc))
      (fun hc => h ((t.cause_embed q).mp hc)) (t.isIo_embed p q)]
    exact ⟨fun hsame _ => hsame, fun hsame => hsame h⟩

/-! ## The two messages with a path -/

/-- The text before the path in `ensure_unchanged`. -/
def changedText : String := "Source file changed while packing: "

/-- The text before the path in `open_new_at`. -/
def existsText : String :=
  "Extraction destination already exists; " ++ "choose a path that does not exist: "

theorem lowercase_append (s p : String) : lowercase (s ++ p) = lowercase s ++ lowercase p := by
  rw [lowercase, String.toList_append, List.map_append]
  rfl

/-- The word is found in the path or nowhere. -/
theorem mentions_append {s p word : String}
    (h : ∀ t ∈ (lowercase s).tails, t ≠ [] → ¬t <+: word.toList ∧ ¬word.toList <+: t) :
    mentions (lowercase (s ++ p)) word = mentions (lowercase p) word := by
  rw [mentions, mentions, lowercase_append, decide_eq_decide]
  exact infix_append_iff_of_clash h

theorem mentions_start {s p word : String} (h : word.toList <:+: lowercase s) :
    mentions (lowercase (s ++ p)) word = true := by
  rw [mentions, lowercase_append]
  exact decide_eq_true (h.trans (List.infix_append_left))

/-- The words of the classes before `SourceChanged`. -/
theorem mentions_changedText (p word : String)
    (h : word ∈ ["password", "key slot", "authentication", "integrity", "destination", "exist"]) :
    mentions (lowercase (changedText ++ p)) word = mentions (lowercase p) word := by
  refine mentions_append ?_
  revert word
  decide +kernel

/-- The words of the classes before `DestinationExists`. -/
theorem mentions_existsText (p word : String)
    (h : word ∈ ["password", "key slot", "authentication", "integrity"]) :
    mentions (lowercase (existsText ++ p)) word = mentions (lowercase p) word := by
  refine mentions_append ?_
  revert word
  decide +kernel

/-- The kind of an error that is one message. -/
theorem errorKind_message (text : String) :
    errorKind (typed (.raw ⟨.message text, []⟩)) =
      (cascade.find? (raises (lowercase text))).getD .internal := by
  have hdisplay : Error.display ⟨.message text, []⟩ = text := String.intercalate_singleton
  have hkind := inferKind_eq (e := ⟨.message text, []⟩) nofun
  rw [hdisplay] at hkind
  exact hkind

theorem errorKind_changed_iff (p : String) :
    errorKind (typed (.raw ⟨.message (changedText ++ p), []⟩)) = .sourceChanged ↔
      ∀ k ∈ [.authentication, .integrity, .destinationExists], raises (lowercase p) k = false := by
  have hword := mentions_changedText p
  have hchanged : raises (lowercase (changedText ++ p)) .sourceChanged = true :=
    mentions_start (by decide +kernel)
  have hsame : ∀ k ∈ [CoreErrorKind.authentication, .integrity, .destinationExists],
      raises (lowercase (changedText ++ p)) k = raises (lowercase p) k := by
    simp only [List.forall_mem_cons, List.not_mem_nil, false_imp_iff, implies_true, and_true, raises]
    refine ⟨?_, ?_, ?_⟩
    · rw [hword "password" (by decide), hword "key slot" (by decide)]
    · rw [hword "authentication" (by decide), hword "integrity" (by decide)]
    · rw [hword "destination" (by decide), hword "exist" (by decide)]
  rw [errorKind_message, cascade]
  simp only [getD_find?_cons, hchanged, if_true]
  rw [hsame .authentication (by decide), hsame .integrity (by decide),
    hsame .destinationExists (by decide)]
  simp only [List.forall_mem_cons, List.not_mem_nil, false_imp_iff, implies_true, and_true]
  cases raises (lowercase p) .authentication <;> cases raises (lowercase p) .integrity <;>
    cases raises (lowercase p) .destinationExists <;> simp

theorem errorKind_exists_iff (p : String) :
    errorKind (typed (.raw ⟨.message (existsText ++ p), []⟩)) = .destinationExists ↔
      ∀ k ∈ [.authentication, .integrity], raises (lowercase p) k = false := by
  have hword := mentions_existsText p
  have hexists : raises (lowercase (existsText ++ p)) .destinationExists = true := by
    rw [raises, mentions_start (by decide +kernel), mentions_start (by decide +kernel)]
    rfl
  have hsame : ∀ k ∈ [CoreErrorKind.authentication, .integrity],
      raises (lowercase (existsText ++ p)) k = raises (lowercase p) k := by
    simp only [List.forall_mem_cons, List.not_mem_nil, false_imp_iff, implies_true, and_true, raises]
    refine ⟨?_, ?_⟩
    · rw [hword "password" (by decide), hword "key slot" (by decide)]
    · rw [hword "authentication" (by decide), hword "integrity" (by decide)]
  rw [errorKind_message, cascade]
  simp only [getD_find?_cons, hexists, if_true]
  rw [hsame .authentication (by decide), hsame .integrity (by decide)]
  simp only [List.forall_mem_cons, List.not_mem_nil, false_imp_iff, implies_true, and_true]
  cases raises (lowercase p) .authentication <;> cases raises (lowercase p) .integrity <;> simp

/-- **When the kind of an error does not depend on the path in its text**: the
first class that the texts mention is the same; for the two messages of packing
and extraction, the path mentions no class above theirs. -/
theorem kind_independent_iff (t : PathError) (p q : String) :
    (errorKind (typed (.raw (t.embed p))) = errorKind (typed (.raw (t.embed q))) ↔
      (¬t.IsCancelled → SameFirstClass (lowercase (t.embed p).display)
        (lowercase (t.embed q).display))) ∧
    (errorKind (typed (.raw ⟨.message (changedText ++ p), []⟩)) = .sourceChanged ↔
      ∀ k ∈ [.authentication, .integrity, .destinationExists], raises (lowercase p) k = false) ∧
    (errorKind (typed (.raw ⟨.message (existsText ++ p), []⟩)) = .destinationExists ↔
      ∀ k ∈ [.authentication, .integrity], raises (lowercase p) k = false) :=
  ⟨t.inferKind_embed p q, errorKind_changed_iff p, errorKind_exists_iff p⟩

/-- A path that names a password changes the kind. -/
theorem password_in_path :
    errorKind (typed (.raw ((PathError.message [] changedText "").embed "/notes"))) =
      .sourceChanged ∧
    errorKind (typed (.raw ((PathError.message [] changedText "").embed "/passwords"))) =
      .authentication := by
  decide +kernel

end CipherFS
