import Mathlib.Data.Set.Card
import Mathlib.Tactic

/-!
# Reference counts

Places point to objects (`ptr : ι → Option κ`), and every object keeps a count of its references.
`Counts` says that the count of an object is the number of places in a set `S` that point to it,
plus what others hold (`ext`).  Counts are in `ℕ∞`, so that nothing has to be finite in advance.

The rules say what moving a reference does: `Counts.redirect` is the general one, the others are
its cases.
-/

namespace Count

open Classical

variable {ι κ : Type*}

/-- The number of places in `S` that point to `f`. -/
noncomputable def count (S : Set ι) (ptr : ι → Option κ) (f : κ) : ℕ∞ :=
  {i | i ∈ S ∧ ptr i = some f}.encard

/-- One for the object that a pointer points to. -/
noncomputable def hit (x : Option κ) (f : κ) : ℕ∞ := if x = some f then 1 else 0

@[simp]
theorem hit_none (f : κ) : hit none f = 0 := by simp [hit]

@[simp]
theorem hit_some_self (f : κ) : hit (some f) f = 1 := by simp [hit]

theorem hit_of_ne {f g : κ} (h : g ≠ f) : hit (some g) f = 0 := by simp [hit, h]

theorem hit_ne_top (x : Option κ) (f : κ) : hit x f ≠ ⊤ := by
  unfold hit
  split_ifs <;> simp

theorem count_congr {S : Set ι} {ptr ptr' : ι → Option κ} (h : ∀ i ∈ S, ptr' i = ptr i) (f : κ) :
    count S ptr' f = count S ptr f := by
  unfold count
  congr 1
  ext i
  exact and_congr_right fun hi => by rw [h i hi]

/-- A place that points to `f` is counted. -/
theorem one_le_count {S : Set ι} {ptr : ι → Option κ} {i : ι} {f : κ} (hi : i ∈ S)
    (h : ptr i = some f) : 1 ≤ count S ptr f :=
  Set.one_le_encard_iff_nonempty.2 ⟨i, hi, h⟩

theorem count_eq_zero {S : Set ι} {ptr : ι → Option κ} {f : κ} (h : ∀ i ∈ S, ptr i ≠ some f) :
    count S ptr f = 0 := by
  rw [count, Set.encard_eq_zero, Set.eq_empty_iff_forall_notMem]
  exact fun i hi => h i hi.1 hi.2

/-- Redirecting one place moves one from its old object to its new one. -/
theorem count_redirect {S : Set ι} {ptr ptr' : ι → Option κ} {i : ι} (hi : i ∈ S)
    (h : ∀ j, j ≠ i → ptr' j = ptr j) (f : κ) :
    count S ptr' f + hit (ptr i) f = count S ptr f + hit (ptr' i) f := by
  -- both counts are that of the other places, plus one if this place points to `f`
  have split : ∀ p : ι → Option κ, count S p f = {j | j ∈ S ∧ j ≠ i ∧ p j = some f}.encard
      + hit (p i) f := by
    intro p
    unfold count hit
    split_ifs with hp
    · have hni : i ∉ {j | j ∈ S ∧ j ≠ i ∧ p j = some f} := by simp
      rw [← Set.encard_insert_of_notMem hni]
      congr 1
      ext j
      by_cases hj : j = i
      · simp [hj, hi, hp]
      · simp [hj]
    · rw [add_zero]
      congr 1
      ext j
      by_cases hj : j = i
      · simp [hj, hp]
      · simp [hj]
  have same : {j | j ∈ S ∧ j ≠ i ∧ ptr' j = some f} = {j | j ∈ S ∧ j ≠ i ∧ ptr j = some f} := by
    ext j
    simp only [Set.mem_ofPred_eq]
    exact and_congr_right fun _ => and_congr_right fun hj => by rw [h j hj]
  rw [split ptr, split ptr', same]
  ac_rfl

/-- Every count is the number of references in `S`, plus those others hold. -/
def Counts (refs : κ → ℕ∞) (S : Set ι) (ptr : ι → Option κ) (ext : κ → ℕ∞) : Prop :=
  ∀ f, refs f = count S ptr f + ext f

namespace Counts

variable {refs refs' ext : κ → ℕ∞} {S : Set ι} {ptr ptr' : ι → Option κ}

/-- One place is redirected and the counts follow. -/
theorem redirect (h : Counts refs S ptr ext) {i : ι} (hi : i ∈ S)
    (hptr : ∀ j, j ≠ i → ptr' j = ptr j)
    (hrefs : ∀ f, refs' f + hit (ptr i) f = refs f + hit (ptr' i) f) :
    Counts refs' S ptr' ext := by
  intro f
  have hc := count_redirect hi hptr f
  refine WithTop.add_right_cancel (hit_ne_top (ptr i) f) ?_
  calc refs' f + hit (ptr i) f
      = count S ptr f + ext f + hit (ptr' i) f := by rw [hrefs, h f]
    _ = count S ptr f + hit (ptr' i) f + ext f := by ac_rfl
    _ = count S ptr' f + ext f + hit (ptr i) f := by rw [← hc]; ac_rfl

/-- Nothing that is counted changes. -/
theorem congr (h : Counts refs S ptr ext) (hptr : ∀ i ∈ S, ptr' i = ptr i)
    (hrefs : ∀ f, refs' f = refs f) : Counts refs' S ptr' ext := by
  intro f
  rw [hrefs, h f, count_congr hptr]

/-- An object that is pointed to has a positive count. -/
theorem one_le (h : Counts refs S ptr ext) {i : ι} {f : κ} (hi : i ∈ S) (hp : ptr i = some f) :
    1 ≤ refs f := by
  rw [h f]
  exact (one_le_count hi hp).trans le_self_add

end Counts

end Count
