import CipherFS.Framework.Built

/-!
# Shares of a sum that the state keeps

Parts of a parallel program often change one number of the state in turns, each
by its own amount, and what matters is the sum in the end. Every part holds a
share; `I g s` says of a state that all shares that are out come to `g`. A step
knows its own share and nothing about the rest, and leaves a share with which the
assertion still holds. `Settles` says so of a whole program; the shares need not
be numbers, any commutative monoid will do.
-/

namespace CipherFS

open Prog

variable {σ ι ε ξ α β γ : Type} [AddCommMonoid γ]

/-- A share may be exchanged for another, whatever the others hold. -/
def Exchange (I : γ → σ → Prop) (F : γ → Prop) (g g' : γ) : Prop :=
  ∀ frame s, F frame → I (g + frame) s → I (g' + frame) s

section Exchange

variable {I : γ → σ → Prop} {F : γ → Prop} {g g' g'' : γ}

theorem Exchange.refl (g : γ) : Exchange I F g g := fun _ _ _ h => h

theorem Exchange.trans (h : Exchange I F g g') (h' : Exchange I F g' g'') :
    Exchange I F g g'' := fun frame s hF hs => h' frame s hF (h frame s hF hs)

end Exchange

/-- One share of several changes, and the others stay. -/
theorem sum_update {n : Nat} (d : Fin n → γ) (i : Fin n) (g : γ) :
    ∑ j, Function.update d i g j = g + ∑ j ∈ Finset.univ.erase i, d j := by
  rw [← Finset.add_sum_erase _ _ (Finset.mem_univ i), Function.update_self]
  congr 1
  refine Finset.sum_congr rfl fun j hj => ?_
  rw [Function.update_of_ne (Finset.ne_of_mem_erase hj)]

/-- Shares that may be exchanged beside each other may be exchanged together. -/
theorem exchange_sum {I : γ → σ → Prop} {n : Nat} {C : Fin n → γ → Prop} {G : Fin n → γ → Prop}
    {d d' : Fin n → γ} {rest : γ} {s : σ}
    (h : ∀ i, C i (d i) ∧ C i (d' i) ∧ Exchange I (G i) (d i) (d' i))
    (hG : ∀ i (c : Fin n → γ), (∀ j, C j (c j)) → G i (∑ j ∈ Finset.univ.erase i, c j + rest))
    (hs : I (∑ i, d i + rest) s) : I (∑ i, d' i + rest) s := by
  suffices go : ∀ S : Finset (Fin n), I (∑ i, (if i ∈ S then d' i else d i) + rest) s by
    have hall := go Finset.univ
    simpa using hall
  intro S
  induction S using Finset.induction with
  | empty => simpa using hs
  | insert i S hi ih =>
      let c : Fin n → γ := fun j => if j ∈ S then d' j else d j
      have hc : ∀ j, C j (c j) := by
        intro j
        by_cases hj : j ∈ S
        · rw [show c j = d' j from if_pos hj]
          exact (h j).2.1
        · rw [show c j = d j from if_neg hj]
          exact (h j).1
      have hnew : (fun j => if j ∈ insert i S then d' j else d j) = Function.update c i (d' i) := by
        ext j
        by_cases hj : j = i
        · subst hj
          rw [Function.update_self, if_pos (Finset.mem_insert_self _ _)]
        · rw [Function.update_of_ne hj]
          simp [c, hj]
      have hold : ∑ j, c j = d i + ∑ j ∈ Finset.univ.erase i, c j := by
        rw [← Finset.add_sum_erase _ _ (Finset.mem_univ i), show c i = d i from if_neg hi]
      have hs' : I (∑ j, c j + rest) s := ih
      rw [hold, add_assoc] at hs'
      rw [hnew, sum_update, add_assoc]
      exact (h i).2.2 _ s (hG i c hc) hs'

/-! ## Tasks -/

namespace Task

/-- Holding `g`, beside others who hold a share of `F`, the task keeps `I` with
every step, always holds a share of `B`, and if it ends well it holds `q`. -/
def Settles (I : γ → σ → Prop) : Task σ ι ε → (γ → Prop) → (γ → Prop) → γ → γ → Prop
  | done, F, _, q, g => Exchange I F g q
  | fail _, _, _, _, _ => True
  | act f next, F, B, q, g => ∀ i s s' frame, F frame → I (g + frame) s → f i s = some s' →
      ∃ g', B g' ∧ I (g' + frame) s' ∧ (next i s).Settles I F B q g'
  | fork n _ children next handler, F, B, q, g =>
      ∃ (C G : Fin n → γ → Prop) (d d' : Fin n → γ) (rest : γ),
        Exchange I F g (∑ i, d i + rest) ∧
        (∀ i, C i (d i) ∧ C i (d' i) ∧ (children i).Settles I (G i) (C i) (d' i) (d i)) ∧
        (∀ c : Fin n → γ, (∀ i, C i (c i)) → B (∑ i, c i + rest) ∧
          (∀ i frame, F frame → G i (∑ j ∈ Finset.univ.erase i, c j + (rest + frame))) ∧
          ∀ e, (handler e).Settles I F B q (∑ i, c i + rest)) ∧
        next.Settles I F B q (∑ i, d' i + rest)

variable {I : γ → σ → Prop} {F B : γ → Prop} {q g g' frame : γ} {t t' : Task σ ι ε} {s s' : σ}

/-- A share may be exchanged before the task starts. -/
theorem Settles.exchange (h : t.Settles I F B q g') (hg : Exchange I F g g') :
    t.Settles I F B q g := by
  cases t with
  | done => exact hg.trans h
  | fail e => trivial
  | act f next => exact fun i s s' frame hF hs => h i s s' frame hF (hg frame s hF hs)
  | fork n started children next handler =>
      obtain ⟨C, G, d, d', rest, hsplit, hrest⟩ := h
      exact ⟨C, G, d, d', rest, hg.trans hsplit, hrest⟩

/-- **A step leaves a share with which the assertion still holds.** -/
theorem Settles.step {p : Pick ι} (h : t.Settles I F B q g) (hF : F frame) (hB : B g)
    (hs : I (g + frame) s) (hstep : t.step s p = some (t', s')) :
    ∃ g', B g' ∧ I (g' + frame) s' ∧ t'.Settles I F B q g' := by
  induction t generalizing p t' F B q g frame with
  | done => cases hstep
  | fail e => cases hstep
  | act f next _ =>
      rcases step_cases hstep with ⟨f, next, i, heq, rfl, hf, rfl⟩ | ⟨_, _, _, _, _, heq, -⟩
      · cases heq
        exact h i s s' frame hF hs hf
      · cases heq
  | fork n started children next handler ih _ _ =>
      rcases step_cases hstep with ⟨_, _, _, heq, -⟩ | ⟨_, _, _, _, _, heq, hcases⟩
      · cases heq
      cases heq
      obtain ⟨C, G, d, d', rest, hsplit, hc, hh, hnext⟩ := h
      have hsum := hsplit frame s hF hs
      have hd : ∀ i, C i (d i) := fun i => (hc i).1
      rcases hcases with ⟨i, p', c, rfl, hchild, rfl⟩ | ⟨rfl, hdone, rfl, rfl⟩ |
        ⟨i, e, rfl, hfail, rfl, rfl⟩
      · -- the child sees the shares of all others as its frame
        rw [← Finset.add_sum_erase _ _ (Finset.mem_univ i), add_assoc, add_assoc] at hsum
        obtain ⟨k, hk, hsum', hc'⟩ :=
          ih i (hc i).2.2 ((hh d hd).2.1 i frame hF) (hd i) hsum hchild
        have hC : ∀ j, C j (Function.update d i k j) := by
          intro j
          by_cases hj : j = i
          · subst hj
            rwa [Function.update_self]
          · rw [Function.update_of_ne hj]
            exact hd j
        refine ⟨∑ j, Function.update d i k j + rest, (hh _ hC).1, ?_, C, G, _, d', rest, .refl _,
          fun j => ⟨hC j, (hc j).2.1, ?_⟩, hh, hnext⟩
        · rw [sum_update, add_assoc, add_assoc]
          exact hsum'
        · by_cases hj : j = i
          · subst hj
            rw [Function.update_self, Function.update_self]
            exact hc'
          · rw [Function.update_of_ne hj, Function.update_of_ne hj]
            exact (hc j).2.2
      · have hends : ∀ i, C i (d i) ∧ C i (d' i) ∧ Exchange I (G i) (d i) (d' i) := by
          intro i
          have hi := hc i
          rwa [hdone i] at hi
        rw [add_assoc] at hsum
        have hsum' := exchange_sum hends (fun i c hC => (hh c hC).2.1 i frame hF) hsum
        rw [← add_assoc] at hsum'
        exact ⟨_, (hh d' fun i => (hc i).2.1).1, hsum', hnext⟩
      · obtain ⟨hBsum, -, hhandler⟩ := hh d hd
        exact ⟨_, hBsum, hsum, hhandler e⟩

variable {env : σ → ξ → Option σ} {labels : List (Label ι ξ)}

/-- **The assertion holds in every state of every run**, with the share that the
program holds by then. -/
theorem Settles.run (h : t.Settles I (· = 0) B q g) (hB : B g) (hs : I g s)
    (henv : ∀ g s a s', env s a = some s' → I g s → I g s')
    (hrun : CipherFS.run (interleave env) (t, s) labels = some (t', s')) :
    ∃ g', B g' ∧ I g' s' ∧ t'.Settles I (· = 0) B q g' := by
  refine run_inv (I := fun c : Task σ ι ε × σ =>
    ∃ g', B g' ∧ I g' c.2 ∧ c.1.Settles I (· = 0) B q g') ?_ hrun ⟨g, hB, hs, h⟩
  rintro ⟨m, u⟩ l ⟨m', u'⟩ _ ⟨k, hk, hu, hm⟩ hstep
  cases l with
  | task p =>
      rw [← add_zero k] at hu
      obtain ⟨k', hk', hu', hm'⟩ := Settles.step hm rfl hk hu hstep
      rw [add_zero] at hu'
      exact ⟨k', hk', hu', hm'⟩
  | env a =>
      obtain ⟨v, hv, heq⟩ := Option.map_eq_some_iff.mp hstep
      cases heq
      exact ⟨k, hk, henv k u a _ hv hu, hm⟩

/-- What a program holds that has ended well. -/
theorem Settles.of_done (h : (done : Task σ ι ε).Settles I (· = 0) B q g) (hs : I g s) :
    I q s := by
  rw [← add_zero g] at hs
  have hq := h 0 s rfl hs
  rwa [add_zero] at hq

end Task

/-! ## Programs -/

namespace Prog

/-- Holding `g`, the program settles, and if it comes to a result it holds a share
as `V` describes it. -/
def Settles (I : γ → σ → Prop) (F : γ → Prop) (g : γ) (m : Prog σ ι ε α) (V : α → γ → Prop) :
    Prop :=
  ∀ q k h, (∀ a g', V a g' → (k a).Settles I F (fun _ => True) q g') →
    (∀ e g', (h e).Settles I F (fun _ => True) q g') → (m k h).Settles I F (fun _ => True) q g

variable {I : γ → σ → Prop} {F : γ → Prop} {g g' : γ} {m : Prog σ ι ε α} {V W : α → γ → Prop}

/-- A whole program. -/
theorem Settles.task {m : Prog σ ι ε Unit} {q : γ} (h : Settles I F g m fun _ g' => g' = q) :
    m.task.Settles I F (fun _ => True) q g := by
  refine h q _ _ (fun _ g' hg => ?_) fun _ _ => trivial
  subst hg
  exact Exchange.refl g'

theorem Settles.conseq (h : Settles I F g m V) (hV : ∀ a g', V a g' → W a g') :
    Settles I F g m W := fun q k hd hk => h q k hd fun a g' ha => hk a g' (hV a g' ha)

/-- The share of a result may be exchanged as well. -/
theorem Settles.after (h : Settles I F g m V)
    (hV : ∀ a g', V a g' → ∃ g'', Exchange I F g' g'' ∧ W a g'') : Settles I F g m W := by
  refine fun q k hd hk hh => h q k hd (fun a g' ha => ?_) hh
  obtain ⟨g'', hg, ha'⟩ := hV a g' ha
  exact (hk a g'' ha').exchange hg

theorem Settles.exchange (h : Settles I F g' m V) (hg : Exchange I F g g') : Settles I F g m V :=
  fun q k hd hk hh => (h q k hd hk hh).exchange hg

theorem Settles.pure {a : α} (h : V a g) : Settles I F g (Pure.pure a : Prog σ ι ε α) V :=
  fun _ _ _ hk _ => hk a g h

theorem Settles.throw (e : ε) : Settles I F g (Prog.throw e : Prog σ ι ε α) V :=
  fun _ _ _ _ hh => hh e g

theorem Settles.draw {f : ι → σ → Option (Except ε α × σ)}
    (h : ∀ i s r s' frame, F frame → I (g + frame) s → f i s = some (r, s') →
      ∃ g', I (g' + frame) s' ∧ ∀ a, r = .ok a → V a g') : Settles I F g (Prog.draw f) V := by
  intro q k hd hk hh i s s' frame hF hs hf
  obtain ⟨⟨r, u⟩, hr, rfl⟩ := Option.map_eq_some_iff.mp hf
  obtain ⟨g', hs', hV⟩ := h i s r u frame hF hs hr
  refine ⟨g', trivial, hs', ?_⟩
  simp only [hr]
  cases r with
  | ok a => exact hk a g' (hV a rfl)
  | error e => exact hh e g'

theorem Settles.call {f : ι → σ → Except ε α × σ}
    (h : ∀ i s frame, F frame → I (g + frame) s →
      ∃ g', I (g' + frame) (f i s).2 ∧ ∀ a, (f i s).1 = .ok a → V a g') :
    Settles I F g (Prog.call f) V := by
  refine .draw fun i s r s' frame hF hs hf => ?_
  have hcall := h i s frame hF hs
  rwa [Option.some.inj hf] at hcall

theorem Settles.bind {f : α → Prog σ ι ε β} {S : β → γ → Prop} (hm : Settles I F g m V)
    (hf : ∀ a g', V a g' → Settles I F g' (f a) S) : Settles I F g (m >>= f) S :=
  fun q k hd hk hh => hm q _ hd (fun a g' ha => hf a g' ha q k hd hk hh) hh

theorem Settles.mapError {f : ε → ε} (hm : Settles I F g m V) : Settles I F g (m.mapError f) V :=
  fun q k _ hk hh => hm q k _ hk fun e => hh (f e)

theorem Settles.onError {cleanup : Prog σ ι ε Unit} (hm : Settles I F g m V)
    (hc : ∀ g', Settles I F g' cleanup fun _ _ => True) : Settles I F g (m.onError cleanup) V :=
  fun q k _ hk hh => hm q k _ hk fun e g' =>
    hc g' q _ _ (fun _ k' _ => hh e k') fun _ k' => hh e k'

/-- **A parallel loop**: the share is split among the iterations and a rest, and
what the iterations end with is put together again. -/
theorem Settles.parForEach {f : β → Prog σ ι ε Unit} {xs : List β} {d d' : β → γ} {rest : γ}
    (hg : Exchange I F g ((xs.map d).sum + rest))
    (hf : ∀ x ∈ xs, Settles I (fun _ => True) (d x) (f x) fun _ g' => g' = d' x) :
    Settles I F g (Prog.parForEach xs f) fun _ g' => g' = (xs.map d').sum + rest := by
  intro q k h hk hh
  have hsum : ∀ d : β → γ, (xs.map d).sum = ∑ i : Fin xs.length, d (xs.get i) := fun d =>
    (Fin.sum_univ_fun_getElem xs d).symm
  refine ⟨fun _ _ => True, fun _ _ => True, fun i => d (xs.get i), fun i => d' (xs.get i), rest,
    ?_, fun i => ?_, fun c _ => ⟨trivial, fun _ _ _ => trivial, fun e => hh e _⟩, ?_⟩
  · rw [← hsum]
    exact hg
  · exact ⟨trivial, trivial, (hf _ (List.get_mem xs i)).task⟩
  · rw [← hsum]
    exact hk () _ rfl

/-- A sequential loop: `J` names the share after what has been done. -/
theorem Settles.foldlM {f : α → β → Prog σ ι ε α} {xs : List β} {J : List β → α → γ → Prop}
    (h : ∀ pre x post a g, xs = pre ++ x :: post → J pre a g →
      Settles I F g (f a x) (J (pre ++ [x]))) {a : α} (ha : J [] a g) :
    Settles I F g (xs.foldlM f a) (J xs) := by
  suffices go : ∀ (todo pre : List β) (a : α) (g : γ), xs = pre ++ todo → J pre a g →
      Settles I F g (todo.foldlM f a) (J xs) from go xs [] a g rfl ha
  intro todo
  induction todo with
  | nil =>
      intro pre a g hxs ha
      rw [List.append_nil] at hxs
      subst hxs
      exact .pure ha
  | cons x rest ih =>
      intro pre a g hxs ha
      rw [List.foldlM_cons]
      exact (h pre x rest a g hxs ha).bind fun b g' hb => ih (pre ++ [x]) b g' (by simp [hxs]) hb

theorem Settles.forM {f : β → Prog σ ι ε Unit} {xs : List β} {J : List β → γ → Prop}
    (h : ∀ pre x post g, xs = pre ++ x :: post → J pre g →
      Settles I F g (f x) fun _ => J (pre ++ [x])) (hg : J [] g) :
    Settles I F g (xs.forM f) fun _ => J xs := by
  suffices go : ∀ (todo pre : List β) (g : γ), xs = pre ++ todo → J pre g →
      Settles I F g (todo.forM f) fun _ => J xs from go xs [] g rfl hg
  intro todo
  induction todo with
  | nil =>
      intro pre g hxs hg
      rw [List.append_nil] at hxs
      subst hxs
      exact .pure hg
  | cons x rest ih =>
      intro pre g hxs hg
      exact (h pre x rest g hxs hg).bind fun _ g' hg' => ih (pre ++ [x]) g' (by simp [hxs]) hg'

/-- **A program whose steps keep the assertion keeps its share.** -/
theorem Yields.settles {D : Discipline σ ι ε} {U : α → Prop} (hm : Yields D U m)
    (hgood : ∀ {δ : Type} {f : ι → σ → Option (Except ε δ × σ)}, D.good f → ∀ i s r s' frame,
      f i s = some (r, s') → F frame → I (g + frame) s → I (g + frame) s') :
    Settles I F g m fun a g' => U a ∧ g' = g := by
  intro q k h hk hh
  -- a share that its holder keeps, beside frames that allow each step
  have hdraw : ∀ {F' B : γ → Prop} {p c : γ}, B c →
      (∀ frame, F' frame → ∃ frame', F frame' ∧ c + frame = g + frame') →
      ∀ {δ : Type} {f : ι → σ → Option (Except ε δ × σ)} {U : δ → Prop}, D.good f →
      (∀ i s a s', f i s = some (.ok a, s') → U a) → ∀ k h,
      (∀ a, U a → (k a).Settles I F' B p c) → (∀ e, (h e).Settles I F' B p c) →
      (Prog.draw f k h).Settles I F' B p c := by
    intro F' B p c hB hframe δ f U hf hU k h hk hh i s s' frame hF hs hstep
    obtain ⟨⟨r, u⟩, hr, rfl⟩ := Option.map_eq_some_iff.mp hstep
    obtain ⟨frame', hF', heq⟩ := hframe frame hF
    rw [heq] at hs
    refine ⟨c, hB, ?_, ?_⟩
    · rw [heq]
      exact hgood hf i s r u frame' hr hF' hs
    · simp only [hr]
      cases r with
      | ok a => exact hk a (hU i s a u hr)
      | error e => exact hh e
  -- the iterations of a parallel loop hold nothing
  let G : γ → Prop := fun frame => ∃ frame', F frame' ∧ frame = g + frame'
  have hfork : ∀ {F' B : γ → Prop} {p c : γ} n st (ch : Fin n → Task σ ι ε) nx hd, B c →
      (∀ frame, F' frame → G (c + frame)) → (∀ i, (ch i).Settles I G (· = 0) 0 0) →
      nx.Settles I F' B p c → (∀ e, (hd e).Settles I F' B p c) →
      (Task.fork n st ch nx hd).Settles I F' B p c := by
    intro F' B p c n st ch nx hd hB hframe hc hn hh
    have hidle : ∀ {d : Fin n → γ}, (∀ i, d i = 0) → ∑ i, d i + c = c := by
      intro d hd
      rw [Finset.sum_eq_zero fun i _ => hd i, zero_add]
    refine ⟨fun _ => (· = 0), fun _ => G, fun _ => 0, fun _ => 0, c, ?_, fun i => ⟨rfl, rfl, hc i⟩,
      fun d hd => ⟨?_, fun i frame hF => ?_, ?_⟩, ?_⟩
    · rw [hidle fun _ => rfl]
      exact .refl c
    · rw [hidle hd]
      exact hB
    · rw [Finset.sum_eq_zero fun i _ => hd i, zero_add]
      exact hframe frame hF
    · rw [hidle hd]
      exact hh
    · rw [hidle fun _ => rfl]
      exact hn
  have hzero : ∀ frame, G frame → ∃ frame', F frame' ∧ 0 + frame = g + frame' :=
    fun frame ⟨frame', hF, heq⟩ => ⟨frame', hF, by rw [zero_add, heq]⟩
  have hzeroG : ∀ frame, G frame → G (0 + frame) := fun frame hG => by rwa [zero_add]
  exact (hm.closed (P := fun t => t.Settles I F (fun _ => True) q g)
    (C := fun t => t.Settles I G (· = 0) 0 0) (Exchange.refl 0) (fun _ => trivial)
    (hdraw trivial fun frame hF => ⟨frame, hF, rfl⟩) (hdraw (B := (· = 0)) rfl hzero)
    (fun n st ch nx hd => hfork n st ch nx hd trivial fun frame hF => ⟨frame, hF, rfl⟩)
    fun n st ch nx hd => hfork (B := (· = 0)) n st ch nx hd rfl hzeroG).1 k h
      (fun a ha => hk a g ⟨ha, rfl⟩) fun e => hh e g

/-- A run of a program whose steps keep an assertion keeps it. -/
theorem Yields.run_keeps {D : Discipline σ ι ε} {U : α → Prop} {P : σ → Prop}
    {env : σ → ξ → Option σ} {s s' : σ} {ls : List (Label ι ξ)} {t : Task σ ι ε}
    (hm : Yields D U m)
    (hgood : ∀ {δ : Type} {f : ι → σ → Option (Except ε δ × σ)}, D.good f → ∀ i s r s',
      f i s = some (r, s') → P s → P s')
    (henv : ∀ s a s', env s a = some s' → P s → P s') (hs : P s)
    (hrun : CipherFS.run (interleave env) (m (fun _ => .done) .fail, s) ls = some (t, s')) :
    P s' := by
  -- there is nothing to share
  let I : Nat → σ → Prop := fun _ => P
  have hsettles : Settles I (· = 0) 0 m fun a g' => U a ∧ g' = 0 :=
    hm.settles fun hf i s r s' _ hstep _ => hgood hf i s r s' hstep
  have htask := hsettles 0 (fun _ => .done) .fail (fun _ _ _ _ _ _ h => h) fun _ _ => trivial
  obtain ⟨_, _, hI, _⟩ := htask.run trivial hs (fun _ => henv) hrun
  exact hI

end Prog

end CipherFS
