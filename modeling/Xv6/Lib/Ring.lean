import Mathlib.Tactic

/-!
# Ring buffers with wrapping counters

A ring of `c` cells with a read counter and a write counter of `w` bits that only ever count up and
wrap.  Cell `n % c` is used for element number `n`, so `c` has to divide `2 ^ w`.  `Queue` relates
the ring to everything that was ever put in and everything that was ever taken out.
-/

namespace Ring

variable {α : Type*} {c w : ℕ}

/-- The ring holds what was put in and not yet taken out. -/
structure Queue (c : ℕ) (data : ℕ → α) (nread nwrite : BitVec w) (put got : List α) : Prop where
  took : got <+: put
  bound : put.length ≤ got.length + c
  nread_eq : nread = BitVec.ofNat w got.length
  nwrite_eq : nwrite = BitVec.ofNat w put.length
  cells : ∀ j, got.length ≤ j → j < put.length → put[j]? = some (data (j % c))

theorem Queue.new (data : ℕ → α) : Queue c data (0 : BitVec w) 0 [] [] :=
  ⟨List.prefix_rfl, by simp, by simp, by simp, by simp⟩

/-- The cell of a counter is the cell of the number it counts. -/
theorem toNat_ofNat_mod (hc : c ∣ 2 ^ w) (n : ℕ) : (BitVec.ofNat w n).toNat % c = n % c := by
  rw [BitVec.toNat_ofNat, Nat.mod_mod_of_dvd n hc]

/-- Counters that are close are equal only if the numbers are. -/
theorem ofNat_eq_iff {m n : ℕ} (hm : m ≤ n) (hn : n < m + 2 ^ w) :
    BitVec.ofNat w m = BitVec.ofNat w n ↔ m = n := by
  constructor
  · intro h
    have h' := congrArg BitVec.toNat h
    rw [BitVec.toNat_ofNat, BitVec.toNat_ofNat] at h'
    have hd : 2 ^ w ∣ n - m := (Nat.modEq_iff_dvd' hm).1 h'
    have := Nat.eq_zero_of_dvd_of_lt hd (by omega)
    omega
  · rintro rfl
    rfl

namespace Queue

variable {data : ℕ → α} {nread nwrite : BitVec w} {put got : List α}

theorem length_le (h : Queue c data nread nwrite put got) : got.length ≤ put.length :=
  h.took.length_le

/-- The ring without the elements that were put in last. -/
theorem restrict {rest : List α} (h : Queue c data nread nwrite (put ++ rest) got)
    (hgot : got <+: put) : Queue c data nread (BitVec.ofNat w put.length) put got := by
  have hlen : (put ++ rest).length = put.length + rest.length := List.length_append
  refine ⟨hgot, by have := h.bound; omega, h.nread_eq, rfl, fun j hj hlt => ?_⟩
  rw [← h.cells j hj (by omega), List.getElem?_append_left hlt]

section

variable (hw : c < 2 ^ w)

include hw

theorem empty_iff (h : Queue c data nread nwrite put got) :
    nread = nwrite ↔ got.length = put.length := by
  rw [h.nread_eq, h.nwrite_eq]
  exact ofNat_eq_iff h.length_le (by have := h.bound; omega)

theorem full_iff (h : Queue c data nread nwrite put got) :
    nwrite = nread + BitVec.ofNat w c ↔ put.length = got.length + c := by
  rw [h.nread_eq, h.nwrite_eq, ← BitVec.ofNat_add]
  exact ofNat_eq_iff h.bound (by have := h.length_le; omega)

/-- The counters tell the number of elements in the ring. -/
theorem count (h : Queue c data nread nwrite put got) :
    (nwrite - nread).toNat = put.length - got.length := by
  have h1 := h.length_le
  have h2 := h.bound
  have hd : nwrite - nread = BitVec.ofNat w (put.length - got.length) := by
    rw [h.nread_eq, h.nwrite_eq]
    nth_rewrite 1 [show put.length = put.length - got.length + got.length by omega]
    rw [BitVec.ofNat_add, BitVec.add_sub_cancel]
  rw [hd, BitVec.toNat_ofNat, Nat.mod_eq_of_lt (by omega)]

end

section

variable (hc : c ∣ 2 ^ w)

include hc

theorem push (h : Queue c data nread nwrite put got) (hroom : put.length < got.length + c) (b : α) :
    Queue c (Function.update data (nwrite.toNat % c) b) nread (nwrite + 1) (put ++ [b]) got := by
  have hslot : nwrite.toNat % c = put.length % c := by
    rw [h.nwrite_eq, toNat_ofNat_mod hc]
  refine ⟨h.took.trans (List.prefix_append ..), by simp; omega, h.nread_eq, ?_, ?_⟩
  · rw [h.nwrite_eq, List.length_append, List.length_singleton, BitVec.ofNat_add]
    rfl
  · intro j hj hlt
    rw [List.length_append, List.length_singleton] at hlt
    rw [hslot]
    by_cases hjn : j = put.length
    · subst hjn
      simp
    · -- another number in reach of the ring has another cell
      have hne : j % c ≠ put.length % c := by
        intro he
        have hd : c ∣ put.length - j := (Nat.modEq_iff_dvd' (by omega)).1 he
        have := Nat.eq_zero_of_dvd_of_lt hd (by omega)
        omega
      rw [Function.update_of_ne hne, List.getElem?_append_left (by omega)]
      exact h.cells j hj (by omega)

theorem pop (h : Queue c data nread nwrite put got) (hne : got.length < put.length) :
    Queue c data (nread + 1) nwrite put (got ++ [data (nread.toNat % c)]) := by
  have hslot : nread.toNat % c = got.length % c := by
    rw [h.nread_eq, toNat_ofNat_mod hc]
  have hcell := h.cells got.length le_rfl hne
  have hgot : got ++ [data (nread.toNat % c)] = put.take (got.length + 1) := by
    rw [hslot, List.take_add_one, hcell, ← List.prefix_iff_eq_take.1 h.took]
    rfl
  have hlen : (got ++ [data (nread.toNat % c)]).length = got.length + 1 := by simp
  refine ⟨?_, ?_, ?_, h.nwrite_eq, ?_⟩
  · rw [hgot]
    exact List.take_prefix ..
  · have := h.bound
    omega
  · rw [hlen, h.nread_eq, BitVec.ofNat_add]
    rfl
  · intro j hj hlt
    exact h.cells j (by omega) hlt

end

end Queue

/-! ### Reading the cells -/

/-- The elements in the `k` cells from the counter `x` on. -/
def slice (c : ℕ) (data : ℕ → α) (x : BitVec w) (k : ℕ) : List α :=
  (List.range k).map fun j => data ((x + BitVec.ofNat w j).toNat % c)

@[simp]
theorem length_slice (data : ℕ → α) (x : BitVec w) (k : ℕ) : (slice c data x k).length = k := by
  simp [slice]

theorem Queue.slice_eq {data : ℕ → α} {nread nwrite : BitVec w} {put got : List α}
    (h : Queue c data nread nwrite put got) (hc : c ∣ 2 ^ w) {m k : ℕ} (hm : got.length ≤ m)
    (hk : m + k ≤ put.length) : slice c data (BitVec.ofNat w m) k = (put.drop m).take k := by
  refine List.ext_getElem? fun j => ?_
  rw [List.getElem?_take]
  split_ifs with hj
  · rw [List.getElem?_drop, h.cells (m + j) (by omega) (by omega), slice, List.getElem?_map,
      List.getElem?_range hj, Option.map_some, ← BitVec.ofNat_add, toNat_ofNat_mod hc]
  · exact List.getElem?_eq_none (by rw [length_slice]; omega)

end Ring
