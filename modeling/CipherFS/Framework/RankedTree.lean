import Mathlib

/-!
# Trees from local rank checks

Parent pointers and ranks on a set of nodes, with one local law: every node but
the root ranks one above its parent. Acyclicity and reachability follow: the
parent pointer iterated `rank x` times leads from `x` to the root, and not
earlier. `Frontier` is the invariant of a breadth-first traversal that keeps the
nodes met so far in one list and a cursor into it; at its end every node has
been met exactly once.
-/

namespace CipherFS

structure RankedTree (α : Type*) where
  nodes : Set α
  root : α
  parent : α → α
  rank : α → ℕ
  root_mem : root ∈ nodes
  parent_mem : ∀ x ∈ nodes, parent x ∈ nodes
  rank_root : rank root = 0
  rank_parent : ∀ x ∈ nodes, x ≠ root → rank (parent x) + 1 = rank x

namespace RankedTree

variable {α : Type*} (t : RankedTree α)

/-! ## Ancestors -/

theorem iterate_mem {x : α} (hx : x ∈ t.nodes) (k : ℕ) : t.parent^[k] x ∈ t.nodes := by
  induction k with
  | zero => exact hx
  | succ k ih =>
      rw [Function.iterate_succ_apply']
      exact t.parent_mem _ ih

theorem eq_root_of_rank_zero {x : α} (hx : x ∈ t.nodes) (h : t.rank x = 0) : x = t.root := by
  by_contra hne
  have := t.rank_parent x hx hne
  omega

theorem rank_iterate {x : α} (hx : x ∈ t.nodes) {k : ℕ} (hk : k ≤ t.rank x) :
    t.rank (t.parent^[k] x) + k = t.rank x := by
  induction k with
  | zero => rfl
  | succ k ih =>
      have hrank := ih (by omega)
      have hne : t.parent^[k] x ≠ t.root := by
        intro h
        rw [h, t.rank_root] at hrank
        omega
      have hstep := t.rank_parent _ (t.iterate_mem hx k) hne
      rw [Function.iterate_succ_apply']
      omega

/-- The chain of parents reaches the root after `rank x` steps. -/
theorem iterate_rank {x : α} (hx : x ∈ t.nodes) : t.parent^[t.rank x] x = t.root := by
  apply t.eq_root_of_rank_zero (t.iterate_mem hx _)
  have := t.rank_iterate hx (Nat.le_refl _)
  omega

/-- It does not reach the root earlier. -/
theorem iterate_ne_root {x : α} (hx : x ∈ t.nodes) {k : ℕ} (hk : k < t.rank x) :
    t.parent^[k] x ≠ t.root := by
  intro h
  have := t.rank_iterate hx (Nat.le_of_lt hk)
  rw [h, t.rank_root] at this
  omega

/-- Induction from the root downwards. -/
theorem induction {p : α → Prop} (hroot : p t.root)
    (hstep : ∀ x ∈ t.nodes, x ≠ t.root → p (t.parent x) → p x) : ∀ x ∈ t.nodes, p x := by
  intro x hx
  generalize hn : t.rank x = n
  induction n generalizing x with
  | zero => exact t.eq_root_of_rank_zero hx hn ▸ hroot
  | succ n ih =>
      have hne : x ≠ t.root := by
        rintro rfl
        rw [t.rank_root] at hn
        omega
      have hrank := t.rank_parent x hx hne
      exact hstep x hx hne (ih _ (t.parent_mem x hx) (by omega))

/-! ## Labelled paths -/

section Trails

variable {β : Type*} {label : α → β}

/-- The labels of a node and of the nodes above it, from the top, after going up
a number of times. -/
def trail (parent : α → α) (label : α → β) : ℕ → α → List β
  | 0, _ => []
  | n + 1, x => trail parent label n (parent x) ++ [label x]

@[simp] theorem length_trail (parent : α → α) (label : α → β) :
    ∀ (n : ℕ) (x : α), (trail parent label n x).length = n
  | 0, _ => rfl
  | n + 1, x => by rw [trail, List.length_append, length_trail parent label n]; rfl

/-- The labels on the way from the root to a node. -/
def path (label : α → β) (x : α) : List β := trail t.parent label (t.rank x) x

theorem path_root : t.path label t.root = [] := by
  rw [path, t.rank_root]
  rfl

theorem path_of_ne_root {x : α} (hx : x ∈ t.nodes) (hne : x ≠ t.root) :
    t.path label x = t.path label (t.parent x) ++ [label x] := by
  rw [path, ← t.rank_parent x hx hne]
  rfl

theorem path_eq_nil {x : α} (hx : x ∈ t.nodes) : t.path label x = [] ↔ x = t.root := by
  constructor
  · intro h
    have hlen : (t.path label x).length = t.rank x := length_trail ..
    rw [h] at hlen
    exact t.eq_root_of_rank_zero hx hlen.symm
  · rintro rfl
    exact t.path_root

/-- The children of a node have different labels. -/
def Distinct (label : α → β) : Prop := ∀ x ∈ t.nodes, ∀ y ∈ t.nodes, x ≠ t.root → y ≠ t.root →
  t.parent x = t.parent y → label x = label y → x = y

/-- **Where siblings have different labels, no two nodes have one path.** -/
theorem path_injective (h : t.Distinct label) : ∀ x ∈ t.nodes, ∀ y ∈ t.nodes,
    t.path label x = t.path label y → x = y := by
  refine t.induction ?_ ?_
  · intro y hy heq
    rw [path_root] at heq
    exact ((t.path_eq_nil hy).mp heq.symm).symm
  · intro x hx hne ih y hy heq
    have hy' : y ≠ t.root := by
      rintro rfl
      rw [path_root] at heq
      exact hne ((t.path_eq_nil hx).mp heq)
    rw [t.path_of_ne_root hx hne, t.path_of_ne_root hy hy'] at heq
    obtain ⟨hparents, hlabels⟩ := List.append_inj' heq rfl
    refine h x hx y hy hne hy' ?_ (List.cons.inj hlabels).1
    exact ih _ (t.parent_mem y hy) hparents

end Trails

/-! ## Breadth-first traversal -/

/-- `next` lists the children of every node, each once. -/
structure Lists (next : α → List α) : Prop where
  nodup : ∀ p ∈ t.nodes, (next p).Nodup
  mem : ∀ p ∈ t.nodes, ∀ x, x ∈ next p ↔ x ∈ t.nodes ∧ x ≠ t.root ∧ t.parent x = p

/-- The nodes met so far, of which those before the cursor have been expanded. -/
structure Frontier (next : α → List α) (seen : List α) (cursor : ℕ) : Prop where
  nodup : seen.Nodup
  subset : ∀ x ∈ seen, x ∈ t.nodes
  grown : seen = t.root :: (seen.take cursor).flatMap next

variable {t}

theorem Frontier.start (next : α → List α) : t.Frontier next [t.root] 0 where
  nodup := List.nodup_singleton _
  subset := by
    intro x hx
    rw [List.mem_singleton.mp hx]
    exact t.root_mem
  grown := rfl

/-- Expanding the node under the cursor keeps the frontier. -/
theorem Frontier.step {next : α → List α} (hnext : t.Lists next) {seen : List α}
    {cursor : ℕ} {x : α} (h : t.Frontier next seen cursor)
    (hx : seen[cursor]? = some x) : t.Frontier next (seen ++ next x) (cursor + 1) := by
  obtain ⟨hlt, hget⟩ := List.getElem?_eq_some_iff.mp hx
  have hxmem : x ∈ t.nodes := h.subset x (List.mem_of_getElem? hx)
  refine ⟨?_, ?_, ?_⟩
  · rw [List.nodup_append]
    refine ⟨h.nodup, hnext.nodup x hxmem, ?_⟩
    rintro y hy _ hy' rfl
    obtain ⟨-, hne, hpar⟩ := (hnext.mem x hxmem y).mp hy'
    -- a node met before was listed by its own parent, which lies before the cursor
    rw [h.grown] at hy
    rcases List.mem_cons.mp hy with rfl | hy
    · exact hne rfl
    obtain ⟨q, hq, hyq⟩ := List.mem_flatMap.mp hy
    have hqmem := h.subset q (List.mem_of_mem_take hq)
    have hqx : q = x := ((hnext.mem q hqmem y).mp hyq).2.2.symm.trans hpar
    obtain ⟨i, hi, hqi⟩ := List.getElem_of_mem hq
    rw [List.getElem_take] at hqi
    rw [List.length_take] at hi
    have hilt : i < seen.length := by omega
    have heq : seen[i] = seen[cursor] := hqi.trans (hqx.trans hget.symm)
    have := h.nodup.getElem_inj_iff.mp heq
    omega
  · intro y hy
    rcases List.mem_append.mp hy with hy | hy
    · exact h.subset y hy
    · exact ((hnext.mem x hxmem y).mp hy).1
  · have htake : (seen ++ next x).take (cursor + 1) = seen.take cursor ++ [x] := by
      rw [List.take_append_of_le_length (by omega), List.take_add_one, hx]
      rfl
    rw [htake, List.flatMap_append, List.flatMap_singleton, ← List.cons_append, ← h.grown]

/-- Once the cursor has passed the whole list, every node has been met. -/
theorem Frontier.complete {next : α → List α} (hnext : t.Lists next) {seen : List α}
    {cursor : ℕ} (h : t.Frontier next seen cursor) (hend : seen[cursor]? = none) :
    ∀ x ∈ t.nodes, x ∈ seen := by
  have hlen : seen.length ≤ cursor := List.getElem?_eq_none_iff.mp hend
  have hgrown := h.grown
  rw [List.take_of_length_le hlen] at hgrown
  refine t.induction (p := (· ∈ seen)) ?_ ?_
  · rw [hgrown]
    exact List.mem_cons_self
  · intro x hx hne hpar
    rw [hgrown]
    refine List.mem_cons_of_mem _ (List.mem_flatMap.mpr ⟨t.parent x, hpar, ?_⟩)
    exact (hnext.mem _ (t.parent_mem x hx) x).mpr ⟨hx, hne, rfl⟩

/-- The frontier never outgrows a list that contains every node. -/
theorem Frontier.length_le {next : α → List α} {seen all : List α} {cursor : ℕ}
    (h : t.Frontier next seen cursor) (hall : ∀ x ∈ t.nodes, x ∈ all) :
    seen.length ≤ all.length :=
  (List.subperm_of_subset h.nodup fun x hx => hall x (h.subset x hx)).length_le

end RankedTree

end CipherFS
