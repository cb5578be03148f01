import CipherFS.Framework.MsgPack

/-!
# Torn writes

A write that is cut off leaves a prefix of the new bytes over the old ones.
Where the two encodings agree in the width of every token up to the cut, the
result is again an encoding: token by token it is the new one, the old one, or
one token with a new front and an old back.
-/

namespace CipherFS

/-- What is stored when only the first `k` bytes of a write have happened. -/
def tear (new old : Bytes) (k : Nat) : Bytes := new.take k ++ old.drop k

namespace MsgPack

/-- Where the first `p` tokens end. -/
def endOf (ts : List Bytes) (p : Nat) : Nat := (ts.take p).flatten.length

/-- At the cut both lists have the same number of complete tokens behind them
and are equally far into the next one, which is as long in one as in the other. -/
def InStep (ts us : List Bytes) (k : Nat) : Prop :=
  ∃ p ≤ ts.length, endOf ts p = endOf us p ∧
    (k = endOf ts p ∨ endOf ts (p + 1) = endOf us (p + 1) ∧ endOf ts p ≤ k ∧ k ≤ endOf ts (p + 1))

instance (ts us : List Bytes) (k : Nat) : Decidable (InStep ts us k) :=
  inferInstanceAs (Decidable (∃ p ≤ ts.length, endOf ts p = endOf us p ∧
    (k = endOf ts p ∨
      endOf ts (p + 1) = endOf us (p + 1) ∧ endOf ts p ≤ k ∧ k ≤ endOf ts (p + 1))))

end MsgPack

theorem tear_zero (new old : Bytes) : tear new old 0 = old := by
  simp [tear]

theorem tear_of_length_le {new old : Bytes} {k : Nat} (hn : new.length ≤ k) (ho : old.length ≤ k) :
    tear new old k = new := by
  rw [tear, List.take_of_length_le hn, List.drop_eq_nil_of_le ho, List.append_nil]

theorem length_tear {new old : Bytes} {k : Nat} (h : new.length = old.length) :
    (tear new old k).length = old.length := by
  simp only [tear, List.length_append, List.length_take, List.length_drop]
  omega

theorem length_tear_of_le {new old : Bytes} {k : Nat} (hn : k ≤ new.length)
    (ho : k ≤ old.length) : (tear new old k).length = old.length := by
  simp only [tear, List.length_append, List.length_take, List.length_drop]
  omega

theorem tear_append {a b c d : Bytes} (h : a.length = c.length) (k : Nat) :
    tear (a ++ b) (c ++ d) k = tear a c k ++ tear b d (k - a.length) := by
  simp only [tear, List.take_append, List.drop_append, h, List.append_assoc]
  rcases Nat.le_total k c.length with hk | hk
  · rw [Nat.sub_eq_zero_of_le hk]
    simp
  · rw [List.drop_eq_nil_of_le hk]
    simp

namespace MsgPack

/-- One of two tokens, or a mixture of them if they have one width. -/
def Torn (t u x : Bytes) : Prop := x = t ∨ x = u ∨ t.length = u.length ∧ ∃ j, x = tear t u j

/-- Token by token, a mixture of two lists. -/
inductive TornAll : List Bytes → List Bytes → List Bytes → Prop
  | nil : TornAll [] [] []
  | cons {t u x : Bytes} {ts us xs : List Bytes} : Torn t u x → TornAll ts us xs →
      TornAll (t :: ts) (u :: us) (x :: xs)

namespace TornAll

theorem left : ∀ {ts us : List Bytes}, ts.length = us.length → TornAll ts us ts
  | [], [], _ => .nil
  | _ :: _, _ :: _, h => .cons (.inl rfl) (left (Nat.succ.inj h))

theorem right : ∀ {ts us : List Bytes}, ts.length = us.length → TornAll ts us us
  | [], [], _ => .nil
  | _ :: _, _ :: _, h => .cons (.inr (.inl rfl)) (right (Nat.succ.inj h))

theorem append {ts us xs ts' us' xs' : List Bytes} (h : TornAll ts us xs)
    (h' : TornAll ts' us' xs') : TornAll (ts ++ ts') (us ++ us') (xs ++ xs') := by
  induction h with
  | nil => exact h'
  | cons ht _ ih => exact .cons ht ih

theorem of_append : ∀ {ts us ts' us' xs : List Bytes}, ts.length = us.length →
    TornAll (ts ++ ts') (us ++ us') xs →
      ∃ ys zs, xs = ys ++ zs ∧ TornAll ts us ys ∧ TornAll ts' us' zs
  | [], [], _, _, xs, _, h => ⟨[], xs, rfl, .nil, h⟩
  | _ :: _, _ :: _, _, _, _, hlen, .cons ht h => by
      obtain ⟨ys, zs, rfl, hys, hzs⟩ := of_append (Nat.succ.inj hlen) h
      exact ⟨_ :: ys, zs, rfl, .cons ht hys, hzs⟩

end TornAll

theorem endOf_le (ts : List Bytes) (p : Nat) : endOf ts p ≤ ts.flatten.length := by
  have hsplit : ts.flatten = (ts.take p).flatten ++ (ts.drop p).flatten := by
    rw [← List.flatten_append, List.take_append_drop]
  rw [hsplit, List.length_append, ← endOf]
  exact Nat.le_add_right _ _

/-- A cut in step is within both encodings. -/
theorem InStep.le {ts us : List Bytes} {k : Nat} (h : InStep ts us k) :
    k ≤ ts.flatten.length ∧ k ≤ us.flatten.length := by
  obtain ⟨p, -, hend, rfl | ⟨hend', -, hk⟩⟩ := h
  · exact ⟨endOf_le ts p, hend ▸ endOf_le us p⟩
  · exact ⟨Nat.le_trans hk (endOf_le ts _), Nat.le_trans hk (hend' ▸ endOf_le us _)⟩

/-- **A cut at which two encodings are in step leaves tokens of both.** -/
theorem InStep.exists_torn {ts us : List Bytes} {k : Nat} (h : InStep ts us k)
    (hlen : ts.length = us.length) :
    ∃ xs, TornAll ts us xs ∧ xs.flatten = tear ts.flatten us.flatten k := by
  obtain ⟨p, hp, hend, hcut⟩ := h
  have hts : ts.flatten = (ts.take p).flatten ++ (ts.drop p).flatten := by
    rw [← List.flatten_append, List.take_append_drop]
  have hus : us.flatten = (us.take p).flatten ++ (us.drop p).flatten := by
    rw [← List.flatten_append, List.take_append_drop]
  have hfront : TornAll (ts.take p) (us.take p) (ts.take p) := .left (by simp [hlen])
  have hback : (ts.drop p).length = (us.drop p).length := by simp [hlen]
  have hle : endOf ts p ≤ k := by
    rcases hcut with rfl | ⟨-, hle, -⟩
    · exact Nat.le_refl _
    · exact hle
  have hle' : endOf us p ≤ k := by
    rwa [← hend]
  have htear : tear ts.flatten us.flatten k = (ts.take p).flatten ++
      tear (ts.drop p).flatten (us.drop p).flatten (k - endOf ts p) := by
    rw [hts, hus, tear_append hend, tear_of_length_le hle hle']
    rfl
  suffices h : ∃ xs, TornAll (ts.drop p) (us.drop p) xs ∧
      xs.flatten = tear (ts.drop p).flatten (us.drop p).flatten (k - endOf ts p) by
    obtain ⟨xs, hxs, hflat⟩ := h
    refine ⟨ts.take p ++ xs, ?_, by rw [List.flatten_append, hflat, htear]⟩
    have happ := hfront.append hxs
    rwa [List.take_append_drop, List.take_append_drop] at happ
  rcases hcut with rfl | ⟨hend', -, hk⟩
  · exact ⟨us.drop p, .right hback, by rw [Nat.sub_self, tear_zero]⟩
  -- the token at the cut is torn, the ones behind it are old
  cases hd : ts.drop p with
  | nil =>
      rw [hd, List.length_nil, eq_comm, List.length_eq_zero_iff] at hback
      rw [hback]
      exact ⟨[], .nil, by simp [tear]⟩
  | cons t rest =>
      cases hd' : us.drop p with
      | nil =>
          rw [hd, hd'] at hback
          cases hback
      | cons u rest' =>
          rw [hd, hd'] at hback
          have hnext : endOf ts (p + 1) = endOf ts p + t.length := by
            rw [endOf, List.take_add_one, List.flatten_append, List.length_append, ← endOf]
            simp [← List.head?_drop, hd]
          have hnext' : endOf us (p + 1) = endOf us p + u.length := by
            rw [endOf, List.take_add_one, List.flatten_append, List.length_append, ← endOf]
            simp [← List.head?_drop, hd']
          have hw : t.length = u.length := by omega
          refine ⟨tear t u (k - endOf ts p) :: rest',
            .cons (.inr (.inr ⟨hw, _, rfl⟩)) (.right (Nat.succ.inj hback)), ?_⟩
          have hzero : k - endOf ts p - t.length = 0 := by omega
          rw [List.flatten_cons, List.flatten_cons, List.flatten_cons, tear_append hw, hzero,
            tear_zero]

/-- The forms of an encoded integer. -/
theorem encodeUint_cases {n : Nat} (h : n < 2 ^ 64) :
    encodeUint n = [UInt8.ofNat n] ∧ n < 2 ^ 7 ∨
      ∃ m w, (m, w) ∈ wideMarkers ∧ encodeUint n = m :: beBytes w n ∧ 2 ^ (4 * w) ≤ n := by
  unfold encodeUint
  split
  · rename_i hn
    exact .inl ⟨rfl, hn⟩
  split
  · exact .inr ⟨0xcc, 1, by decide, rfl, by omega⟩
  split
  · exact .inr ⟨0xcd, 2, by decide, rfl, by omega⟩
  split
  · exact .inr ⟨0xce, 4, by decide, rfl, by omega⟩
  · exact .inr ⟨0xcf, 8, by decide, rfl, by omega⟩

theorem eq_of_mem_wideMarkers {m m' : UInt8} {w : Nat} (h : (m, w) ∈ wideMarkers)
    (h' : (m', w) ∈ wideMarkers) : m = m' := by
  simp only [wideMarkers, List.mem_cons, Prod.mk.injEq, List.not_mem_nil, or_false] at h h'
  rcases h with ⟨rfl, rfl⟩ | ⟨rfl, rfl⟩ | ⟨rfl, rfl⟩ | ⟨rfl, rfl⟩ <;> simp at h' <;> exact h'.symm

/-- A torn integer is an integer of the same type. -/
theorem Torn.reads_uint {bits m n : Nat} {x : Bytes} (hbits : bits ∈ [8, 16, 32, 64])
    (hm : m < 2 ^ bits) (hn : n < 2 ^ bits) (h : Torn (encodeUint m) (encodeUint n) x) :
    ∃ v, Reads (Decoder.uint bits) x v := by
  have h64 : 2 ^ bits ≤ 2 ^ 64 := by
    refine Nat.pow_le_pow_right (by decide) ?_
    simp only [List.mem_cons, List.not_mem_nil, or_false] at hbits
    omega
  have hread (k : Nat) (hk : k < 2 ^ bits) : ∃ v, Reads (Decoder.uint bits) (encodeUint k) v :=
    ⟨k, (reads_int (by omega)).uint hk⟩
  rcases h with rfl | rfl | ⟨hlen, j, rfl⟩
  · exact hread m hm
  · exact hread n hn
  rcases Nat.eq_zero_or_pos j with rfl | hj
  · rw [tear_zero]
    exact hread n hn
  rcases encodeUint_cases (Nat.lt_of_lt_of_le hm h64) with ⟨hem, -⟩ | ⟨a, w, ha, hem, -⟩
  · -- one byte cannot be torn
    rw [tear_of_length_le (by rw [hem]; exact hj) (by rw [← hlen, hem]; exact hj)]
    exact hread m hm
  rcases encodeUint_cases (Nat.lt_of_lt_of_le hn h64) with ⟨hen, -⟩ | ⟨b, w', hb, hen, hge⟩
  · rw [hem, hen, List.length_cons, length_beBytes] at hlen
    simp only [wideMarkers, List.mem_cons, Prod.mk.injEq, List.not_mem_nil, or_false] at ha
    simp only [List.length_singleton] at hlen
    omega
  -- a wide one has the marker of its width and any bytes behind it
  obtain rfl : w = w' := by
    simpa [hem, hen] using hlen
  obtain rfl := eq_of_mem_wideMarkers ha hb
  obtain ⟨j, rfl⟩ := Nat.exists_eq_add_of_lt hj
  have htear : tear (encodeUint m) (encodeUint n) (0 + j + 1) =
      a :: tear (beBytes w m) (beBytes w n) j := by
    simp [hem, hen, tear]
  have hlen' : (tear (beBytes w m) (beBytes w n) j).length = w := by
    rw [length_tear (by simp), length_beBytes]
  rw [htear]
  refine ⟨_, (reads_int_wide (by rwa [hlen'])).uint ?_⟩
  refine Nat.lt_of_lt_of_le (ofBe_lt _) ?_
  rw [hlen', show 256 = 2 ^ 8 from rfl, ← Nat.pow_mul]
  refine Nat.pow_le_pow_right (by decide) ?_
  have hlt : 4 * w < bits := (Nat.pow_lt_pow_iff_right (by decide)).mp (Nat.lt_of_le_of_lt hge hn)
  simp only [wideMarkers, List.mem_cons, Prod.mk.injEq, List.not_mem_nil, or_false] at ha hbits
  omega

/-- A token on which both agree is not torn. -/
theorem Torn.eq {t x : Bytes} (h : Torn t t x) : x = t := by
  rcases h with rfl | rfl | ⟨-, j, rfl⟩
  · rfl
  · rfl
  · rw [tear, List.take_append_drop]

/-! ## Decoders on torn encodings -/

variable {α β : Type}

/-- The decoder reads something from every mixture of the two token lists. -/
structure ReadsTorn (d : Decoder α) (ts us : List Bytes) : Prop where
  length_eq : ts.length = us.length
  reads : ∀ {xs}, TornAll ts us xs → ∃ a, Reads d xs.flatten a

namespace ReadsTorn

theorem pure (a : α) : ReadsTorn (Pure.pure a) [] [] where
  length_eq := rfl
  reads
    | .nil => ⟨a, Reads.pure a⟩

theorem bind {d : Decoder α} {f : α → Decoder β} {ts us ts' us' : List Bytes}
    (h : ReadsTorn d ts us) (hf : ∀ a, ReadsTorn (f a) ts' us') :
    ReadsTorn (d >>= f) (ts ++ ts') (us ++ us') where
  length_eq := by
    obtain ⟨a, -⟩ := h.reads (.left h.length_eq)
    rw [List.length_append, List.length_append, h.length_eq, (hf a).length_eq]
  reads hall := by
    obtain ⟨ys, zs, rfl, hys, hzs⟩ := hall.of_append h.length_eq
    obtain ⟨a, ha⟩ := h.reads hys
    obtain ⟨b, hb⟩ := (hf a).reads hzs
    rw [List.flatten_append]
    exact ⟨b, ha.bind hb⟩

theorem bind_nil {d : Decoder α} {f : α → Decoder β} {ts us : List Bytes}
    (h : ReadsTorn d ts us) (hf : ∀ a, ReadsTorn (f a) [] []) : ReadsTorn (d >>= f) ts us := by
  have hread := h.bind hf
  rwa [List.append_nil, List.append_nil] at hread

theorem map {d : Decoder α} {ts us : List Bytes} (f : α → β) (h : ReadsTorn d ts us) :
    ReadsTorn (f <$> d) ts us where
  length_eq := h.length_eq
  reads hall := by
    obtain ⟨a, ha⟩ := h.reads hall
    exact ⟨f a, ha.map f⟩

/-- A token on which both agree is not torn. -/
theorem same {d : Decoder α} {t : Bytes} {a : α} (h : Reads d t a) : ReadsTorn d [t] [t] where
  length_eq := rfl
  reads
    | .cons ht .nil => ⟨a, by
        rw [ht.eq, List.flatten_singleton]
        exact h⟩

/-- A torn integer is an integer of the same type. -/
theorem uint {bits m n : Nat} (hbits : bits ∈ [8, 16, 32, 64]) (hm : m < 2 ^ bits)
    (hn : n < 2 ^ bits) : ReadsTorn (Decoder.uint bits) [encodeUint m] [encodeUint n] where
  length_eq := rfl
  reads
    | .cons ht .nil => by
        rw [List.flatten_singleton]
        exact ht.reads_uint hbits hm hn

theorem times {d : Decoder α} {g : β → Bytes} (h : ∀ a b, ReadsTorn d [g a] [g b]) :
    ∀ {l l' : List β}, l.length = l'.length →
      ReadsTorn (Decoder.times d l.length) (l.map g) (l'.map g)
  | [], [], _ => .pure _
  | a :: _, b :: _, hlen => (h a b).bind fun _ =>
      (times h (Nat.succ.inj hlen)).bind_nil fun _ => .pure _

theorem byteArr {n : Nat} (hn : n < 2 ^ 32) (a b : ByteArr n) :
    ReadsTorn (Decoder.byteArr n) (byteTokens a.val) (byteTokens b.val) := by
  obtain ⟨as, rfl⟩ := a
  obtain ⟨bs, hlen⟩ := b
  have hbytes : ReadsTorn (Decoder.times Decoder.u8 as.length) (as.map fun x => encodeUint x.toNat)
      (bs.map fun x => encodeUint x.toNat) :=
    times (fun x y => (uint (by decide) x.toNat_lt y.toNat_lt).map _) hlen.symm
  have harr := (same (reads_array hn)).bind fun _ => hbytes
  simp only [byteTokens, hlen]
  exact harr

end ReadsTorn

end MsgPack

end CipherFS
