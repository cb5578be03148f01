import CipherFS.Framework.Bytes
import CipherFS.Framework.Slice
import CipherFS.Framework.Tiling

/-!
# Positional reads and writes

A file's content is a byte string. A write past the end fills the gap with
zeros; a read is exact or fails. Two contents are compared by length and by the
byte at each position, where a position past the end reads as zero: in those
terms a write changes its own range and nothing else, so writes to disjoint
ranges commute.
-/

namespace CipherFS

open Tiling

/-- `write_all_at`. An empty buffer writes nothing. -/
def writeAt (file : Bytes) (pos : Nat) (data : Bytes) : Bytes :=
  if data = [] then file
  else file.take pos ++ List.replicate (pos - file.length) 0 ++ data ++
    file.drop (pos + data.length)

/-- `read_exact_at`: `none` is the end-of-file error. -/
def readAt (file : Bytes) (pos len : Nat) : Option Bytes :=
  if len = 0 ∨ pos + len ≤ file.length then some ((file.drop pos).take len) else none

/-- `File::set_len`. -/
def setLen (file : Bytes) (len : Nat) : Bytes :=
  file.take len ++ List.replicate (len - file.length) 0

/-- A write: where and what. -/
abbrev FileWrite : Type := Nat × Bytes

/-- The range a write touches. -/
def writeExtent (w : FileWrite) : Extent := (w.1, w.2.length)

/-- Writes in order. -/
def applyWrites (file : Bytes) (ws : List FileWrite) : Bytes :=
  ws.foldl (fun f w => writeAt f w.1 w.2) file

example : applyWrites [1, 2, 3] [(4, [9, 9]), (0, [7])] = [7, 2, 3, 0, 9, 9] := by decide

/-! ## Lengths and bytes -/

theorem eq_of_getD {a b : Bytes} (hlen : a.length = b.length)
    (h : ∀ i, a.getD i 0 = b.getD i 0) : a = b := by
  apply List.ext_getElem hlen
  intro i hi hi'
  have := h i
  rwa [List.getD_eq_getElem _ _ hi, List.getD_eq_getElem _ _ hi'] at this

theorem length_writeAt (file : Bytes) (pos : Nat) (data : Bytes) :
    (writeAt file pos data).length =
      if data = [] then file.length else max file.length (pos + data.length) := by
  unfold writeAt
  split
  · rfl
  · simp only [List.length_append, List.length_take, List.length_replicate, List.length_drop]
    omega

theorem length_writeAt_of_le {file : Bytes} {pos : Nat} {data : Bytes}
    (h : pos + data.length ≤ file.length) : (writeAt file pos data).length = file.length := by
  rw [length_writeAt]
  split
  · rfl
  · omega

theorem getD_writeAt (file : Bytes) (pos : Nat) (data : Bytes) (i : Nat) :
    (writeAt file pos data).getD i 0 =
      if pos ≤ i ∧ i < pos + data.length then data.getD (i - pos) 0 else file.getD i 0 := by
  unfold writeAt
  split
  · rename_i h
    rw [if_neg (by simp [h])]
  · simp only [List.getD_eq_getElem?_getD, List.append_assoc, List.getElem?_append,
      List.length_take, List.length_replicate, List.getElem?_take,
      List.getElem?_replicate, List.getElem?_drop]
    by_cases hin : pos ≤ i ∧ i < pos + data.length
    · rw [if_pos hin, if_neg (by omega), if_neg (by omega), if_pos (by omega)]
      congr 2
      omega
    · rw [if_neg hin]
      by_cases hbefore : i < pos
      · by_cases hshort : i < file.length
        · rw [if_pos (by omega), if_pos (by omega)]
        · rw [if_neg (by omega), if_pos (by omega), if_pos (by omega),
            List.getElem?_eq_none (by omega : file.length ≤ i)]
          rfl
      · rw [if_neg (by omega), if_neg (by omega), if_neg (by omega)]
        congr 2
        omega

theorem getD_setLen (file : Bytes) (len i : Nat) :
    (setLen file len).getD i 0 = if i < len then file.getD i 0 else 0 := by
  simp only [setLen, List.getD_eq_getElem?_getD, List.getElem?_append, List.length_take,
    List.getElem?_take, List.getElem?_replicate]
  by_cases hlen : i < len
  · by_cases hfile : i < file.length
    · rw [if_pos (by omega), if_pos hlen, if_pos hlen]
    · rw [if_neg (by omega), if_pos hlen, if_pos (by omega),
        List.getElem?_eq_none (by omega : file.length ≤ i)]
      rfl
  · rw [if_neg (by omega), if_neg hlen, if_neg (by omega)]
    rfl

@[simp] theorem length_setLen (file : Bytes) (len : Nat) : (setLen file len).length = len := by
  simp only [setLen, List.length_append, List.length_take, List.length_replicate]
  omega

theorem readAt_eq_some_iff {file : Bytes} {pos len : Nat} {data : Bytes} :
    readAt file pos len = some data ↔
      data.length = len ∧ (len = 0 ∨ pos + len ≤ file.length) ∧
        ∀ i < len, data.getD i 0 = file.getD (pos + i) 0 := by
  unfold readAt
  split
  · rename_i h
    rw [Option.some.injEq]
    constructor
    · rintro rfl
      refine ⟨?_, h, ?_⟩
      · rw [List.length_take, List.length_drop]
        omega
      · intro i hi
        simp [List.getD_eq_getElem?_getD, hi, List.getElem?_drop]
    · rintro ⟨hlen, -, hbytes⟩
      apply eq_of_getD
      · rw [List.length_take, List.length_drop]
        omega
      · intro i
        by_cases hi : i < len
        · rw [hbytes i hi]
          simp [List.getD_eq_getElem?_getD, hi, List.getElem?_drop]
        · have htake : ((file.drop pos).take len).length ≤ i := by
            rw [List.length_take]
            omega
          rw [List.getD_eq_default _ _ htake, List.getD_eq_default _ _ (by omega)]
  · rename_i h
    simp only [reduceCtorEq, false_iff]
    exact fun hread => h hread.2.1

theorem readAt_eq_some_slice {file : Bytes} {pos len : Nat} (h : pos + len ≤ file.length) :
    readAt file pos len = some (slice file pos (pos + len)) := by
  rw [readAt, if_pos (.inr h), slice, Nat.add_sub_cancel_left]

/-- What was written reads back. -/
theorem readAt_writeAt (file : Bytes) (pos : Nat) (data : Bytes) :
    readAt (writeAt file pos data) pos data.length = some data := by
  refine readAt_eq_some_iff.mpr ⟨rfl, ?_, ?_⟩
  · rw [length_writeAt]
    split
    · rename_i h
      exact .inl (by rw [h]; rfl)
    · exact .inr (Nat.le_max_right _ _)
  · intro i hi
    rw [getD_writeAt, if_pos (by omega), Nat.add_sub_cancel_left]

/-- A write behind a range leaves what is read there. -/
theorem readAt_writeAt_of_le {file data : Bytes} {pos len pos' : Nat}
    (h : readAt file pos len = some data) (hle : pos + len ≤ pos') (data' : Bytes) :
    readAt (writeAt file pos' data') pos len = some data := by
  rw [readAt_eq_some_iff] at h ⊢
  obtain ⟨hlen, hin, hbytes⟩ := h
  refine ⟨hlen, hin.imp id fun hfile => ?_, fun i hi => ?_⟩
  · rw [length_writeAt]
    split
    · exact hfile
    · exact Nat.le_trans hfile (Nat.le_max_left _ _)
  · rw [getD_writeAt, if_neg (by omega), hbytes i hi]

/-- Reads see only their own range. -/
theorem readAt_congr {file file' : Bytes} {pos len : Nat}
    (hlen : file.length = file'.length)
    (h : ∀ i, pos ≤ i → i < pos + len → file.getD i 0 = file'.getD i 0) :
    readAt file pos len = readAt file' pos len := by
  apply Option.ext
  intro data
  simp only [readAt_eq_some_iff, hlen]
  refine and_congr_right fun _ => and_congr_right fun _ => forall₂_congr fun i hi => ?_
  rw [h (pos + i) (Nat.le_add_right _ _) (by omega)]

/-! ## Several writes -/

theorem writeAt_comm {file : Bytes} {a b : FileWrite}
    (h : Apart (writeExtent a) (writeExtent b)) :
    writeAt (writeAt file a.1 a.2) b.1 b.2 = writeAt (writeAt file b.1 b.2) a.1 a.2 := by
  apply eq_of_getD
  · simp only [length_writeAt]
    split <;> split <;> omega
  · intro i
    have hi := h i
    simp only [Covers, writeExtent] at hi
    simp only [getD_writeAt]
    split <;> split <;> first | rfl | omega

/-- **The order of disjoint writes does not matter.** -/
theorem applyWrites_perm {ws ws' : List FileWrite} (hperm : ws.Perm ws')
    (hapart : (ws.map writeExtent).Pairwise Apart) (file : Bytes) :
    applyWrites file ws = applyWrites file ws' := by
  have : Std.Symm fun a b => Apart (writeExtent a) (writeExtent b) := ⟨fun _ _ => apart_symm⟩
  rw [List.pairwise_map] at hapart
  refine hperm.foldl_eq' ?_ file
  intro a ha b hb z
  by_cases hab : a = b
  · rw [hab]
  · exact writeAt_comm (hapart.forall ha hb hab)

theorem length_applyWrites {n : Nat} : ∀ {ws : List FileWrite} {file : Bytes},
    file.length = n → (∀ w ∈ ws, w.1 + w.2.length ≤ n) → (applyWrites file ws).length = n
  | [], _, hlen, _ => hlen
  | w :: rest, file, hlen, hfit => by
      show (applyWrites (writeAt file w.1 w.2) rest).length = n
      refine length_applyWrites ?_ fun v hv => hfit v (List.mem_cons_of_mem _ hv)
      have := hfit w List.mem_cons_self
      rw [length_writeAt_of_le (by omega), hlen]

/-- A position no write covers keeps its byte. -/
theorem getD_applyWrites_of_not_covered {i : Nat} : ∀ {ws : List FileWrite} {file : Bytes},
    (∀ w ∈ ws, ¬Covers (writeExtent w) i) → (applyWrites file ws).getD i 0 = file.getD i 0
  | [], _, _ => rfl
  | w :: rest, file, h => by
      have hw := h w List.mem_cons_self
      rw [applyWrites, List.foldl_cons, ← applyWrites,
        getD_applyWrites_of_not_covered fun v hv => h v (List.mem_cons_of_mem _ hv),
        getD_writeAt]
      exact if_neg hw

end CipherFS
