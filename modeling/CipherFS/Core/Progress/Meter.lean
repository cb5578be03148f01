import CipherFS.Core.Operation

/-!
# The progress of one phase

What a frontend sees of a phase, as a list, and the invariant behind it: what
has been reported and what is still owed come to the total. A phase that has not
begun owes one more than its total, so that a phase that owes nothing has begun.
-/

namespace CipherFS

/-- The progress events of a phase, in order. -/
def OperationPhase.reports (p : OperationPhase) (events : List OperationEvent) :
    List OperationProgress :=
  events.filterMap fun
    | .progress r => if r.phase = p then some r else none
    | _ => none

/-- A phase is over when some phase is started after progress of it. -/
def OperationPhase.Over (p : OperationPhase) (events : List OperationEvent) : Prop :=
  ∃ r q, r.phase = p ∧ [.progress r, .phaseStarted q].Sublist events

/-- The progress of a phase starts at 0, never decreases and never exceeds the
total, and the last one is the total when the phase is over or `ended` holds. -/
structure Measured (p : OperationPhase) (total : Nat) (ended : Prop)
    (events : List OperationEvent) : Prop where
  start : ∀ r, (p.reports events).head? = some r → r.completed = 0
  monotone : (p.reports events).Pairwise fun r r' => r.completed ≤ r'.completed
  bounded : ∀ r ∈ p.reports events, r.total.toNat = total ∧ r.completed ≤ r.total
  complete : p.Over events ∨ ended →
    ∃ r, (p.reports events).getLast? = some r ∧ r.completed = r.total

/-- The phase that an event is of. -/
def OperationEvent.phase? : OperationEvent → Option OperationPhase
  | .phaseStarted p => some p
  | .progress r => some r.phase
  | _ => none

/-- The event is not of the phase. -/
def OperationEvent.Outside (p : OperationPhase) (e : OperationEvent) : Prop := e.phase? ≠ some p

/-- The event is not progress of the phase. -/
def OperationEvent.Beside (p : OperationPhase) (e : OperationEvent) : Prop :=
  ∀ r, e = .progress r → r.phase ≠ p

theorem OperationEvent.Outside.beside {p : OperationPhase} {e : OperationEvent}
    (h : e.Outside p) : e.Beside p := by
  rintro r rfl hp
  exact h (congrArg some hp)

/-- The event does not start a phase. -/
def OperationEvent.Within (e : OperationEvent) : Prop := ∀ q, e ≠ .phaseStarted q

namespace OperationPhase

variable {p : OperationPhase} {events es : List OperationEvent}

theorem reports_append : p.reports (events ++ es) = p.reports events ++ p.reports es :=
  List.filterMap_append

theorem reports_beside (h : ∀ e ∈ es, e.Beside p) : p.reports es = [] := by
  rw [reports, List.filterMap_eq_nil_iff]
  intro e he
  cases e with
  | progress r => exact if_neg (h _ he r rfl)
  | _ => rfl

theorem reports_progress (completed total : UInt64) :
    p.reports [.progress ⟨p, completed, total⟩] = [⟨p, completed, total⟩] := by
  simp [reports]

theorem reports_append_beside (h : ∀ e ∈ es, e.Beside p) :
    p.reports (events ++ es) = p.reports events := by
  rw [reports_append, reports_beside h, List.append_nil]

/-- A phase without progress is not over. -/
theorem not_over_of_nil (h : p.reports events = []) : ¬p.Over events := by
  rintro ⟨r, q, hr, hsub⟩
  rw [reports, List.filterMap_eq_nil_iff] at h
  have hnone : (if r.phase = p then some r else none) = none :=
    h _ (hsub.subset List.mem_cons_self)
  rw [if_pos hr] at hnone
  cases hnone

/-- Only the start of a phase can end another one. -/
theorem over_append (h : ∀ e ∈ es, e.Within) (hover : p.Over (events ++ es)) :
    p.Over events := by
  obtain ⟨r, q, hr, hsub⟩ := hover
  refine ⟨r, q, hr, ?_⟩
  obtain ⟨l₁, l₂, heq, h₁, h₂⟩ := List.sublist_append_iff.mp hsub
  rcases List.eq_nil_or_concat l₂ with rfl | ⟨l, e, rfl⟩
  · rw [List.append_nil] at heq
    rwa [heq]
  · -- the last event of the two would be among the new ones
    have hlast := congrArg List.getLast? heq
    rw [List.concat_eq_append, ← List.append_assoc, List.getLast?_concat] at hlast
    obtain rfl : .phaseStarted q = e := Option.some.inj hlast
    exact absurd rfl (h _ (h₂.subset (by simp)) q)

end OperationPhase

/-! ## The invariant -/

/-- The counter of the tracker of `q`, which reports as phase `p`, and what is
owed come to the total. -/
structure Running (p q : OperationPhase) (total : UInt64) (owed : Nat) (c : Control) : Prop where
  last : ∃ r, (p.reports c.events).getLast? = some r ∧ r.completed = c.completed q
  start : ∀ r, (p.reports c.events).head? = some r → r.completed = 0
  monotone : (p.reports c.events).Pairwise fun r r' => r.completed ≤ r'.completed
  bounded : ∀ r ∈ p.reports c.events, r.total = total ∧ r.completed ≤ total
  sum : (c.completed q).toNat + owed = total.toNat
  closed : p.Over c.events → owed = 0

/-- The phase has not begun, or it is running. A share is an amount that is owed,
and a number of parts that know the phase has begun. -/
def Meter (p q : OperationPhase) (total : UInt64) (share : Nat × Nat) (c : Control) : Prop :=
  (p.reports c.events = [] ∧ c.completed q = 0 ∧ share = (total.toNat + 1, 0)) ∨
    Running p q total share.1 c

variable {p q : OperationPhase} {total : UInt64} {share : Nat × Nat} {owed : Nat} {c c' : Control}
  {es : List OperationEvent}

theorem Meter.running (h : Meter p q total share c) (hs : share.2 ≠ 0 ∨ share.1 ≤ total.toNat) :
    Running p q total share.1 c := by
  rcases h with ⟨-, -, rfl⟩ | h
  · rcases hs with hs | hs
    · exact absurd rfl hs
    · exact absurd hs (Nat.not_succ_le_self _)
  · exact h

/-- What the frontend sees. -/
theorem Meter.measured {ended : Prop} (h : Meter p q total share c) (hend : ended → share.1 = 0) :
    Measured p total.toNat ended c.events := by
  rcases h with ⟨hnil, -, rfl⟩ | h
  · refine ⟨fun r hr => ?_, ?_, fun r hr => ?_, fun hover => ?_⟩
    · rw [hnil] at hr
      cases hr
    · rw [hnil]
      exact .nil
    · rw [hnil] at hr
      cases hr
    · rcases hover with hover | hended
      · exact absurd hover (OperationPhase.not_over_of_nil hnil)
      · cases hend hended
  · refine ⟨h.start, h.monotone, fun r hr => ?_, fun hover => ?_⟩
    · obtain ⟨rfl, hle⟩ := h.bounded r hr
      exact ⟨rfl, hle⟩
    · have howed : share.1 = 0 := hover.elim h.closed hend
      obtain ⟨r, hr, hcompleted⟩ := h.last
      refine ⟨r, hr, ?_⟩
      rw [hcompleted, (h.bounded r (List.mem_of_getLast? hr)).1]
      have hsum := h.sum
      rw [howed, Nat.add_zero] at hsum
      exact UInt64.toNat_inj.mp hsum

/-- Events beside the phase. A phase may be started only before this one has
begun, or when nothing is owed any more. -/
theorem Meter.log (h : Meter p q total share c) (hevents : c'.events = c.events ++ es)
    (hcompleted : c'.completed q = c.completed q) (hes : ∀ e ∈ es, e.Beside p)
    (hstart : (∀ e ∈ es, e.Within) ∨ share = (total.toNat + 1, 0) ∨ share.1 = 0) :
    Meter p q total share c' := by
  have hreports : p.reports c'.events = p.reports c.events := by
    rw [hevents, OperationPhase.reports_append_beside hes]
  rcases h with ⟨hnil, hzero, hshare⟩ | h
  · exact .inl ⟨hreports.trans hnil, hcompleted.trans hzero, hshare⟩
  · have hover : p.Over c'.events → share.1 = 0 := by
      intro hover
      rcases hstart with hwithin | rfl | hnone
      · rw [hevents] at hover
        exact h.closed (OperationPhase.over_append hwithin hover)
      · exact absurd h.sum (by dsimp only; omega)
      · exact hnone
    refine .inr ⟨?_, ?_, ?_, ?_, ?_, hover⟩
    · rw [hreports, hcompleted]
      exact h.last
    · rw [hreports]
      exact h.start
    · rw [hreports]
      exact h.monotone
    · rw [hreports]
      exact h.bounded
    · rw [hcompleted]
      exact h.sum

/-- One more report: it is at least the last one, and at most the total. -/
theorem Running.report {completed : UInt64} {owed' : Nat} (h : Running p q total owed c)
    (hevents : c'.events = c.events ++ [.progress ⟨p, completed, total⟩])
    (hcompleted : c'.completed q = completed) (hle : c.completed q ≤ completed)
    (hsum : completed.toNat + owed' = total.toNat) (howed : owed' ≤ owed) :
    Running p q total owed' c' := by
  have hreports : p.reports c'.events = p.reports c.events ++ [⟨p, completed, total⟩] := by
    rw [hevents, OperationPhase.reports_append, OperationPhase.reports_progress]
  obtain ⟨r, hr, hlast⟩ := h.last
  have hsplit := List.dropLast_append_getLast? r hr
  refine ⟨⟨⟨p, completed, total⟩, ?_, hcompleted.symm⟩, ?_, ?_, ?_, ?_, ?_⟩
  · rw [hreports, List.getLast?_concat]
  · intro r' hr'
    rw [hreports, List.head?_append_of_ne_nil _ (List.ne_nil_of_mem (List.mem_of_getLast? hr))] at hr'
    exact h.start r' hr'
  · rw [hreports, List.pairwise_append]
    refine ⟨h.monotone, List.pairwise_singleton _ _, fun r' hr' r'' hr'' => ?_⟩
    rw [List.mem_singleton.mp hr'']
    -- every report is at most the last one, and the last one is the counter
    have hbefore : r'.completed ≤ r.completed := by
      have hmono := h.monotone
      rw [← hsplit, List.pairwise_append] at hmono
      rw [← hsplit, List.mem_append, List.mem_singleton] at hr'
      rcases hr' with hr' | rfl
      · exact hmono.2.2 r' hr' r List.mem_cons_self
      · exact UInt64.le_refl _
    exact UInt64.le_trans hbefore (hlast ▸ hle)
  · intro r' hr'
    rw [hreports, List.mem_append, List.mem_singleton] at hr'
    rcases hr' with hr' | rfl
    · exact h.bounded r' hr'
    · have hle : completed.toNat ≤ total.toNat := by omega
      exact ⟨rfl, UInt64.le_iff_toNat_le.mpr hle⟩
  · rw [hcompleted]
    exact hsum
  · intro hover
    rw [hevents] at hover
    have hold := h.closed (OperationPhase.over_append ?_ hover)
    · omega
    · intro e he q' heq
      rw [List.mem_singleton.mp he] at heq
      cases heq

/-- The report of 0 that begins a phase, and one that repeats it. -/
theorem Meter.begin (h : Meter p q total share c)
    (hshare : share = (total.toNat + 1, 0) ∨ share.1 = total.toNat)
    (hevents : c'.events = c.events ++ [.progress ⟨p, 0, total⟩])
    (hcompleted : c'.completed q = c.completed q) : Running p q total total.toNat c' := by
  have hzero : (0 : UInt64).toNat = 0 := rfl
  rcases h with ⟨hnil, hcounter, -⟩ | h
  · have hreports : p.reports c'.events = [⟨p, 0, total⟩] := by
      rw [hevents, OperationPhase.reports_append, hnil, OperationPhase.reports_progress,
        List.nil_append]
    refine ⟨⟨⟨p, 0, total⟩, ?_, (hcompleted.trans hcounter).symm⟩, ?_, ?_, ?_, ?_, ?_⟩
    · rw [hreports]
      rfl
    · intro r hr
      rw [hreports] at hr
      exact Option.some.inj hr ▸ rfl
    · rw [hreports]
      exact List.pairwise_singleton _ _
    · intro r hr
      rw [hreports, List.mem_singleton] at hr
      rw [hr]
      exact ⟨rfl, UInt64.le_iff_toNat_le.mpr (by rw [hzero]; exact Nat.zero_le _)⟩
    · rw [hcompleted, hcounter, hzero, Nat.zero_add]
    · intro hover
      rw [hevents] at hover
      refine absurd (OperationPhase.over_append ?_ hover) (OperationPhase.not_over_of_nil hnil)
      intro e he q' heq
      rw [List.mem_singleton.mp he] at heq
      cases heq
  · have hsum := h.sum
    have howed : share.1 = total.toNat := by
      rcases hshare with rfl | hshare
      · dsimp only at hsum
        omega
      · exact hshare
    have hcounter : c.completed q = 0 := UInt64.toNat_inj.mp (by rw [hzero]; omega)
    refine h.report hevents (hcompleted.trans hcounter) ?_ (Nat.zero_add _) howed.ge
    rw [hcounter]
    exact UInt64.le_refl _

/-- The counter of a phase that owes everything is 0 already. -/
theorem Running.reset (h : Running p q total total.toNat c) (hevents : c'.events = c.events)
    (hcompleted : c'.completed q = 0) : Running p q total total.toNat c' := by
  have hzero : c.completed q = 0 := by
    have hsum := h.sum
    refine UInt64.toNat_inj.mp ?_
    have hz : (0 : UInt64).toNat = 0 := rfl
    omega
  obtain ⟨hlast, hstart, hmono, hbounded, hsum, hover⟩ := h
  rw [← hevents] at hlast hstart hmono hbounded hover
  rw [hzero, ← hcompleted] at hlast hsum
  exact ⟨hlast, hstart, hmono, hbounded, hsum, hover⟩

/-- **An advance pays what it reports**: nothing is cut off at the total. -/
theorem Running.advance {amount : UInt64} (h : Running p q total (amount.toNat + owed) c)
    (hevents : c'.events = c.events ++
      [.progress ⟨p, min (saturatingAdd (c.completed q) amount) total, total⟩])
    (hcompleted : c'.completed q = min (saturatingAdd (c.completed q) amount) total) :
    Running p q total owed c' := by
  have hsum := h.sum
  have hcounter : (min (saturatingAdd (c.completed q) amount) total).toNat =
      (c.completed q).toNat + amount.toNat := by
    have htotal := total.toNat_lt
    obtain ⟨x, hx, hxsum⟩ := exists_checkedAdd (a := c.completed q) (b := amount) (by omega)
    rw [saturatingAdd, hx, Option.getD_some, toNat_min, hxsum]
    omega
  refine h.report hevents hcompleted ?_ ?_ ?_
  · exact UInt64.le_iff_toNat_le.mpr (by omega)
  · omega
  · omega

end CipherFS
