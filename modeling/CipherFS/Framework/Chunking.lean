import CipherFS.Framework.Slice
import CipherFS.Framework.Tiling

/-!
# Cutting a length into fixed-size chunks

A length `n` is cut into `⌈n / c⌉` chunks of `c`, the last one shorter; each
chunk may carry a fixed overhead `t`. Laid end to end, the chunks tile
`n + t * ⌈n / c⌉` positions. With `t = 0` this is the plaintext, with the tag
size it is the ciphertext.
-/

namespace CipherFS.Chunking

open Tiling

variable (c t n : ℕ)

/-- How many chunks a length needs. -/
def count : ℕ := (n + (c - 1)) / c

/-- The length of chunk `i`. -/
def len (i : ℕ) : ℕ := min c (n - i * c)

/-- Where chunk `i` lies when each chunk carries `t` more. -/
def extent (i : ℕ) : Extent := (i * (c + t), len c n i + t)

variable {c t n}

theorem lt_count_iff (hc : 0 < c) {i : ℕ} : i < count c n ↔ i * c < n := by
  unfold count
  rw [Nat.lt_iff_add_one_le, Nat.le_div_iff_mul_le hc, Nat.add_mul]
  omega

theorem len_pos (hc : 0 < c) {i : ℕ} (hi : i < count c n) : 0 < len c n i := by
  have := (lt_count_iff hc).mp hi
  unfold len
  omega

theorem len_le (i : ℕ) : len c n i ≤ c := Nat.min_le_left _ _

theorem mul_add_len_le (hc : 0 < c) {i : ℕ} (hi : i < count c n) : i * c + len c n i ≤ n := by
  have := (lt_count_iff hc).mp hi
  unfold len
  omega

/-- Every chunk before the last one is full. -/
theorem len_of_lt_pred (hc : 0 < c) {i : ℕ} (hi : i + 1 < count c n) : len c n i = c := by
  have := (lt_count_iff hc).mp hi
  rw [Nat.add_mul, Nat.one_mul] at this
  unfold len
  omega

theorem count_zero (hc : 0 < c) : count c 0 = 0 := by
  unfold count
  exact Nat.div_eq_of_lt (by omega)

theorem le_count_mul (hc : 0 < c) : n ≤ count c n * c := by
  by_contra h
  exact absurd ((lt_count_iff hc).mpr (Nat.lt_of_not_le h)) (Nat.lt_irrefl _)

/-- The first `k` chunks end where chunk `k` begins, or at the end of the whole. -/
theorem contiguous_range (hc : 0 < c) : ∀ k ≤ count c n,
    Contiguous 0 ((List.range k).map (extent c t n)) (min (k * c) n + t * k)
  | 0, _ => by simp [Contiguous]
  | k + 1, hk => by
      have hlt := (lt_count_iff hc).mp (Nat.lt_of_succ_le hk)
      rw [List.range_succ, List.map_append, contiguous_append]
      refine ⟨_, contiguous_range hc k (Nat.le_of_succ_le hk), ?_⟩
      simp only [List.map_cons, List.map_nil, Contiguous, extent, len, Nat.mul_add, Nat.add_mul,
        Nat.mul_one, Nat.one_mul, Nat.mul_comm t k]
      omega

/-- **The chunks tile the whole.** -/
theorem contiguous_extents (hc : 0 < c) :
    Contiguous 0 ((List.range (count c n)).map (extent c t n)) (n + t * count c n) := by
  have h := contiguous_range (t := t) hc (count c n) (Nat.le_refl _)
  rwa [Nat.min_eq_right (le_count_mul hc)] at h

theorem extent_le (hc : 0 < c) {i : ℕ} (hi : i < count c n) :
    (extent c t n i).1 + (extent c t n i).2 ≤ n + t * count c n :=
  (Contiguous.bounds (contiguous_extents hc) _
    (List.mem_map.mpr ⟨i, List.mem_range.mpr hi, rfl⟩)).2

/-- The chunk lengths add up to the length. -/
theorem sum_len (hc : 0 < c) : ((List.range (count c n)).map (len c n)).sum = n := by
  have h := Contiguous.sum (contiguous_extents (t := 0) (n := n) hc)
  rw [List.map_map] at h
  simpa [Function.comp_def, extent] using h

/-! ## Chunks of a list -/

variable {α : Type*} {f : ℕ → List α}

theorem length_flatMap_range (hc : 0 < c) (hf : ∀ i < count c n, (f i).length = len c n i) :
    ∀ k ≤ count c n, ((List.range k).flatMap f).length = min (k * c) n
  | 0, _ => by simp
  | k + 1, hk => by
      have hlt := (lt_count_iff hc).mp (Nat.lt_of_succ_le hk)
      rw [List.range_succ, List.flatMap_append, List.length_append,
        length_flatMap_range hc hf k (Nat.le_of_succ_le hk), List.flatMap_singleton,
        hf k (Nat.lt_of_succ_le hk), len, Nat.add_mul, Nat.one_mul]
      omega

/-- A chunk is the slice of the whole at its place. -/
theorem slice_flatMap_range (hc : 0 < c) (hf : ∀ i < count c n, (f i).length = len c n i)
    {i : ℕ} : ∀ k ≤ count c n, i < k →
      slice ((List.range k).flatMap f) (i * c) ((i + 1) * c) = f i
  | k + 1, hk, hi => by
      have hlt := (lt_count_iff hc).mp (Nat.lt_of_succ_le hk)
      have hlen := length_flatMap_range hc hf k (Nat.le_of_succ_le hk)
      rw [Nat.min_eq_left (Nat.le_of_lt hlt)] at hlen
      rw [List.range_succ, List.flatMap_append, List.flatMap_singleton]
      rcases Nat.lt_or_eq_of_le (Nat.le_of_lt_succ hi) with hlt' | rfl
      · rw [slice_append_left, slice_flatMap_range hc hf k (Nat.le_of_succ_le hk) hlt']
        rw [hlen]
        exact Nat.mul_le_mul_right c hlt'
      · have hfi := hf i (Nat.lt_of_succ_le hk)
        have hle := len_le (c := c) (n := n) i
        have hend : (i + 1) * c - i * c = c := by rw [Nat.add_mul, Nat.one_mul]; omega
        rw [slice_append_right (Nat.le_of_eq hlen), hlen, Nat.sub_self, hend]
        exact slice_zero_length (by omega)

/-- Output that reaches to the start of chunk `i`, extended by what chunk `i`
holds of the range `a` to `a + r`. -/
theorem slice_append_chunk {l : List α} {a r i : ℕ} (hl : l.length = n) (hrange : a + r ≤ n)
    (hi : i * c < a + r) :
    slice l a (i * c) ++ ((slice l (i * c) ((i + 1) * c)).drop (a - i * c)).take
        (min (len c n i - (a - i * c)) (r - (slice l a (i * c)).length)) =
      slice l a (min ((i + 1) * c) (a + r)) := by
  have hnext : (i + 1) * c = i * c + c := by rw [Nat.add_mul, Nat.one_mul]
  rw [hnext] at *
  generalize hx : i * c = x at *
  rw [length_slice, hl, drop_slice, take_slice, len, hx]
  by_cases hin : x ≤ a
  · -- the first chunk of the range: nothing has been put out yet
    have hstart : x + (a - x) = a := by omega
    have hend : min (a + min (min c (n - x) - (a - x)) (r - (min x n - a))) (x + c) =
        min (x + c) (a + r) := by omega
    rw [slice_eq_nil hin, List.nil_append, hstart, hend]
  · -- a later chunk: the output reaches to its start, and nothing is skipped
    have hstart : x + (a - x) = x := by omega
    have hend : min (x + min (min c (n - x) - (a - x)) (r - (min x n - a))) (x + c) =
        min (x + c) (a + r) := by omega
    rw [hstart, hend, slice_append_slice (by omega) (by omega)]

end CipherFS.Chunking
