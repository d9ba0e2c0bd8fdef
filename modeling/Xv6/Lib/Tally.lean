import Mathlib.Tactic

/-!
# Tallies

A finite set of places, each of which may point to an object.  `tally S ptr x` is the number of
places in `S` that point to `x`, as an integer, so that what is gained and what is lost can be
subtracted.

`Marks S ptr mark R` is the case of objects that belong to one place each: the objects in the region
`R` are marked if and only if a place points to them, and then only one does.
-/

namespace Tally

variable {ι κ : Type*} [DecidableEq κ]

/-- One for the object that a pointer points to. -/
def hit (p : Option κ) (x : κ) : ℤ := if p = some x then 1 else 0

@[simp]
theorem hit_none (x : κ) : hit none x = 0 := by simp [hit]

@[simp]
theorem hit_self (x : κ) : hit (some x) x = 1 := by simp [hit]

theorem hit_of_ne {x y : κ} (h : y ≠ x) : hit (some y) x = 0 := by simp [hit, h]

/-- The number of places in `S` that point to `x`. -/
def tally (S : Finset ι) (ptr : ι → Option κ) (x : κ) : ℤ := (S.filter fun i => ptr i = some x).card

theorem tally_eq_sum (S : Finset ι) (ptr : ι → Option κ) (x : κ) :
    tally S ptr x = ∑ i ∈ S, hit (ptr i) x := by
  rw [tally, Finset.card_filter, Nat.cast_sum]
  exact Finset.sum_congr rfl fun i _ => by simp [hit]

theorem tally_nonneg (S : Finset ι) (ptr : ι → Option κ) (x : κ) : 0 ≤ tally S ptr x :=
  Int.natCast_nonneg _

theorem tally_congr {S : Finset ι} {ptr ptr' : ι → Option κ} {x : κ}
    (h : ∀ i ∈ S, ptr' i = some x ↔ ptr i = some x) : tally S ptr' x = tally S ptr x := by
  rw [tally, tally, Finset.filter_congr h]

/-- Redirecting one place takes one from its old object and gives one to its new one. -/
theorem tally_redirect [DecidableEq ι] {S : Finset ι} {ptr ptr' : ι → Option κ} {i : ι} (hi : i ∈ S)
    (h : ∀ j ∈ S, j ≠ i → ptr' j = ptr j) (x : κ) :
    tally S ptr' x = tally S ptr x - hit (ptr i) x + hit (ptr' i) x := by
  rw [tally_eq_sum, tally_eq_sum, ← Finset.add_sum_erase S _ hi, ← Finset.add_sum_erase S _ hi]
  have hrest : ∑ j ∈ S.erase i, hit (ptr' j) x = ∑ j ∈ S.erase i, hit (ptr j) x :=
    Finset.sum_congr rfl fun j hj => by
      rw [h j (Finset.mem_of_mem_erase hj) (Finset.ne_of_mem_erase hj)]
  rw [hrest]
  ring

/-- A place that points to `x` is counted. -/
theorem one_le_tally {S : Finset ι} {ptr : ι → Option κ} {i : ι} {x : κ} (hi : i ∈ S)
    (h : ptr i = some x) : 1 ≤ tally S ptr x := by
  have : 0 < (S.filter fun i => ptr i = some x).card :=
    Finset.card_pos.2 ⟨i, Finset.mem_filter.2 ⟨hi, h⟩⟩
  unfold tally
  omega

theorem tally_eq_zero {S : Finset ι} {ptr : ι → Option κ} {x : κ} (h : ∀ i ∈ S, ptr i ≠ some x) :
    tally S ptr x = 0 := by
  rw [tally, Finset.filter_eq_empty_iff.2 fun i hi => h i hi]
  rfl

/-- Two places that point to one object, if the object is counted once, are the same. -/
theorem eq_of_tally_le_one {S : Finset ι} {ptr : ι → Option κ} {x : κ} (h : tally S ptr x ≤ 1)
    {i j : ι} (hi : i ∈ S) (hj : j ∈ S) (hpi : ptr i = some x) (hpj : ptr j = some x) : i = j := by
  have hcard : (S.filter fun i => ptr i = some x).card ≤ 1 := by
    unfold tally at h
    omega
  exact Finset.card_le_one.1 hcard i (Finset.mem_filter.2 ⟨hi, hpi⟩) j
    (Finset.mem_filter.2 ⟨hj, hpj⟩)

/-! ### Marks -/

/-- Places point to objects in the region, and an object there is marked if and only if one place
points to it, and otherwise none does. -/
structure Marks (S : Finset ι) (ptr : ι → Option κ) (mark : κ → Bool) (R : κ → Prop) : Prop where
  inside : ∀ i ∈ S, ∀ x, ptr i = some x → R x
  count : ∀ x, R x → tally S ptr x = if mark x then 1 else 0

namespace Marks

variable {S : Finset ι} {ptr ptr' : ι → Option κ} {mark mark' : κ → Bool} {R : κ → Prop} {i j : ι}
  {x : κ}

theorem unique (h : Marks S ptr mark R) (hi : i ∈ S) (hj : j ∈ S) (hpi : ptr i = some x)
    (hpj : ptr j = some x) : i = j := by
  refine eq_of_tally_le_one ?_ hi hj hpi hpj
  rw [h.count x (h.inside i hi x hpi)]
  split_ifs <;> decide

theorem marked (h : Marks S ptr mark R) (hi : i ∈ S) (hp : ptr i = some x) : mark x = true := by
  have hone := one_le_tally hi hp
  rw [h.count x (h.inside i hi x hp)] at hone
  by_contra hx
  rw [if_neg hx] at hone
  omega

/-- Something points to an object with a mark. -/
theorem exists_ptr (h : Marks S ptr mark R) (hR : R x) (hx : mark x = true) :
    ∃ i ∈ S, ptr i = some x := by
  by_contra hno
  push Not at hno
  have hone := h.count x hR
  rw [if_pos hx, tally_eq_zero hno] at hone
  omega

theorem congr (h : Marks S ptr mark R) (hptr : ∀ i ∈ S, ptr' i = ptr i)
    (hmark : ∀ x, R x → mark' x = mark x) : Marks S ptr' mark' R := by
  refine ⟨fun i hi x => ?_, fun x hx => ?_⟩
  · rw [hptr i hi]
    exact h.inside i hi x
  · rw [tally_congr fun i hi => by rw [hptr i hi], h.count x hx, hmark x hx]

/-- An object without a mark is marked and taken by a place that points to nothing. -/
theorem link [DecidableEq ι] (h : Marks S ptr mark R) (hi : i ∈ S) (hR : R x)
    (hx : mark x = false) (hnone : ptr i = none) (hsome : ptr' i = some x)
    (hptr : ∀ j ∈ S, j ≠ i → ptr' j = ptr j)
    (hmark : ∀ y, R y → mark' y = if y = x then true else mark y) : Marks S ptr' mark' R := by
  refine ⟨fun j hj y hy => ?_, fun y hy => ?_⟩
  · by_cases hji : j = i
    · rw [hji, hsome] at hy
      cases hy
      exact hR
    · rw [hptr j hj hji] at hy
      exact h.inside j hj y hy
  · rw [tally_redirect hi hptr, hnone, hsome, hit_none, h.count y hy, hmark y hy]
    by_cases hyx : y = x
    · subst hyx
      simp [hx]
    · simp [hyx, hit_of_ne (Ne.symm hyx)]

/-- Some places let go of their objects, which lose their marks. -/
theorem unlink (h : Marks S ptr mark R) {T : ι → Prop} (hT : ∀ i ∈ S, T i → ptr' i = none)
    (hptr : ∀ i ∈ S, ¬ T i → ptr' i = ptr i)
    (hmark : ∀ x, R x → (mark' x = true ↔ mark x = true ∧ ∀ i ∈ S, T i → ptr i ≠ some x)) :
    Marks S ptr' mark' R := by
  have hsub (i : ι) (hi : i ∈ S) (x : κ) (hx : ptr' i = some x) : ¬ T i ∧ ptr i = some x := by
    by_cases ht : T i
    · rw [hT i hi ht] at hx
      cases hx
    · exact ⟨ht, hptr i hi ht ▸ hx⟩
  refine ⟨fun i hi x hx => h.inside i hi x (hsub i hi x hx).2, fun x hR => ?_⟩
  by_cases hx : mark' x = true
  · -- the object keeps its place
    obtain ⟨hm, hno⟩ := (hmark x hR).1 hx
    have hsame : tally S ptr' x = tally S ptr x := tally_congr fun i hi =>
      ⟨fun hp => (hsub i hi x hp).2, fun hp => by rw [hptr i hi fun ht => hno i hi ht hp, hp]⟩
    rw [if_pos hx, hsame, h.count x hR, if_pos hm]
  · rw [if_neg hx]
    refine tally_eq_zero fun i hi hp => ?_
    obtain ⟨ht, hp⟩ := hsub i hi x hp
    refine hx ((hmark x hR).2 ⟨h.marked hi hp, fun j hj htj hpj => ht ?_⟩)
    rwa [h.unique hi hj hp hpj]

end Marks

end Tally
