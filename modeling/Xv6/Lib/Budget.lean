import Mathlib.Tactic

/-!
# What a log will hold

A log is a list without repetitions to which objects are added, and a finite set of places says what
will still be added: each place points to an object, or to none as long as its object has not been
chosen.  `load W ptr log` is the length the log will have when the object of every place in `W` is
in it.  Adding the object of a place does not raise the load, whether the place pointed to it before
or is made to point to it now (`load_logged_le`); so the length of the log never passes the load at
the start.
-/

namespace Budget

variable {ι κ : Type*} [DecidableEq κ]

/-- The log with `b` in it. -/
def logged (log : List κ) (b : κ) : List κ := if b ∈ log then log else log ++ [b]

theorem mem_logged {log : List κ} {b x : κ} : x ∈ logged log b ↔ x ∈ log ∨ x = b := by
  unfold logged
  split_ifs with h
  · exact ⟨.inl, fun hx => hx.elim id fun hx => hx ▸ h⟩
  · simp

theorem length_le_logged {log : List κ} {b : κ} : log.length ≤ (logged log b).length := by
  unfold logged
  split_ifs <;> simp

/-- The places whose object is not in the log. -/
def pending (W : Finset ι) (ptr : ι → Option κ) (log : List κ) : Finset ι :=
  W.filter fun i => ¬ ∃ b ∈ log, ptr i = some b

/-- The places without an object. -/
def missing (W : Finset ι) (ptr : ι → Option κ) : Finset ι := W.filter fun i => ptr i = none

/-- The length of the log when everything is in it. -/
def load (W : Finset ι) (ptr : ι → Option κ) (log : List κ) : ℕ :=
  log.length + (pending W ptr log).card

variable {W : Finset ι} {ptr ptr' : ι → Option κ} {log : List κ} {i : ι} {b : κ}

theorem length_le_load : log.length ≤ load W ptr log := Nat.le_add_right _ _

theorem load_le_card : load W ptr log ≤ log.length + W.card :=
  Nat.add_le_add_left (Finset.card_filter_le _ _) _

/-- Fewer places. -/
theorem load_mono {W' : Finset ι} (h : W' ⊆ W) : load W' ptr log ≤ load W ptr log :=
  Nat.add_le_add_left (Finset.card_le_card (Finset.filter_subset_filter _ h)) _

omit [DecidableEq κ] in
theorem missing_congr (h : ∀ i ∈ W, ptr' i = ptr i) : missing W ptr' = missing W ptr :=
  Finset.filter_congr fun i hi => by rw [h i hi]

/-- The object of a place joins the log. -/
theorem load_logged_le [DecidableEq ι] (hi : i ∈ W) (hb : ptr' i = some b)
    (hold : ptr i = none ∨ ptr i = some b) (hother : ∀ j ∈ W, j ≠ i → ptr' j = ptr j) :
    load W ptr' (logged log b) ≤ load W ptr log := by
  have hsub : pending W ptr' (logged log b) ⊆ (pending W ptr log).erase i := by
    intro j hj
    obtain ⟨hjW, hj⟩ := Finset.mem_filter.mp hj
    have hji : j ≠ i := fun h => hj ⟨b, mem_logged.mpr (.inr rfl), h ▸ hb⟩
    refine Finset.mem_erase.mpr ⟨hji, Finset.mem_filter.mpr ⟨hjW, fun ⟨c, hc, hp⟩ => hj ?_⟩⟩
    exact ⟨c, mem_logged.mpr (.inl hc), (hother j hjW hji).trans hp⟩
  unfold load logged at *
  split_ifs with hmem <;> simp only [hmem, if_true, if_false] at hsub
  · exact Nat.add_le_add_left (Finset.card_le_card (hsub.trans (Finset.erase_subset _ _))) _
  · -- the object was not in the log, so its place was waiting
    have hpend : i ∈ pending W ptr log := by
      refine Finset.mem_filter.mpr ⟨hi, fun ⟨c, hc, hp⟩ => hmem ?_⟩
      rcases hold with h0 | h0
      · rw [h0] at hp
        cases hp
      · rwa [Option.some.inj (h0.symm.trans hp)]
    have hcard := Finset.card_le_card hsub
    rw [Finset.card_erase_of_mem hpend] at hcard
    have hpos := Finset.card_pos.mpr ⟨i, hpend⟩
    rw [List.length_append, List.length_singleton]
    omega

omit [DecidableEq κ] in
/-- A place gets its object. -/
theorem card_missing_link [DecidableEq ι] (hi : i ∈ W) (h0 : ptr i = none) (hb : ptr' i = some b)
    (hother : ∀ j ∈ W, j ≠ i → ptr' j = ptr j) :
    (missing W ptr').card + 1 = (missing W ptr).card := by
  have herase : missing W ptr' = (missing W ptr).erase i := by
    ext j
    simp only [missing, Finset.mem_filter, Finset.mem_erase]
    by_cases hji : j = i
    · subst hji
      simp [hb]
    · constructor
      · exact fun ⟨hj, hn⟩ => ⟨hji, hj, (hother j hj hji).symm.trans hn⟩
      · exact fun ⟨_, hj, hn⟩ => ⟨hj, (hother j hj hji).trans hn⟩
  rw [herase]
  exact Finset.card_erase_add_one (Finset.mem_filter.mpr ⟨hi, h0⟩)

end Budget
