import Mathlib.Tactic

/-!
# Finite maps kept in slots

A list of slots, each live or not; a live slot has a key.  While the keys of live slots are
distinct, the list is a finite map: a key is looked up in the first live slot that has it (`find`).
A slot that is not live, or a new one at the end, takes a new key (`Distinct.link`), and a slot that
is cleared gives its key up (`Distinct.clear`); no other key is found elsewhere than before.
-/

namespace SlotMap

variable {α κ : Type*} [DecidableEq κ] (live : α → Bool) (key : α → κ)

/-- The first live slot with key `k`. -/
def find (es : List α) (k : κ) : Option ℕ := es.findIdx? fun e => live e && key e = k

/-- Live slots have distinct keys. -/
def Distinct (es : List α) : Prop :=
  ∀ (i j : ℕ) (a b : α), es[i]? = some a → es[j]? = some b → live a = true → live b = true →
    key a = key b → i = j

variable {live key} {es es' : List α} {k : κ} {i : ℕ} {a : α}

theorem find_eq_none : find live key es k = none ↔
    ∀ (i : ℕ) (a : α), es[i]? = some a → live a = true → key a ≠ k := by
  rw [find, List.findIdx?_eq_none_iff]
  constructor
  · intro h i a ha hl hk
    have := h a (List.mem_of_getElem? ha)
    simp [hl, hk] at this
  · intro h a ha
    obtain ⟨i, hi⟩ := List.mem_iff_getElem?.1 ha
    rw [← Bool.not_eq_true, Bool.and_eq_true, decide_eq_true_iff]
    exact fun hc => h i a hi hc.1 hc.2

/-- What is found is a live slot with the key. -/
theorem find_some (h : find live key es k = some i) :
    ∃ a, es[i]? = some a ∧ live a = true ∧ key a = k := by
  obtain ⟨hlt, hp, -⟩ := List.findIdx?_eq_some_iff_getElem.1 h
  rw [Bool.and_eq_true, decide_eq_true_iff] at hp
  exact ⟨es[i], List.getElem?_eq_getElem hlt, hp.1, hp.2⟩

namespace Distinct

theorem find_iff (h : Distinct live key es) :
    find live key es k = some i ↔ ∃ a, es[i]? = some a ∧ live a = true ∧ key a = k := by
  refine ⟨find_some, fun ⟨a, ha, hl, hk⟩ => ?_⟩
  rcases hf : find live key es k with _ | j
  · exact absurd hk (find_eq_none.1 hf i a ha hl)
  · obtain ⟨b, hb, hlb, hkb⟩ := find_some hf
    rw [h j i b a hb ha hlb hl (hkb.trans hk.symm)]

/-- Slot `i` changes, and it has only had to do with key `k`. -/
theorem find_other (h : Distinct live key es) (h' : Distinct live key es')
    (hother : ∀ j, j ≠ i → es'[j]? = es[j]?)
    (hold : ∀ a, es[i]? = some a → live a = true → key a = k)
    (hnew : ∀ a, es'[i]? = some a → live a = true → key a = k) {k' : κ} (hk : k' ≠ k) :
    find live key es' k' = find live key es k' := by
  refine Option.ext fun j => ?_
  rw [h.find_iff, h'.find_iff]
  by_cases hj : j = i
  · subst hj
    constructor
    · rintro ⟨a, ha, hl, rfl⟩
      exact absurd (hnew a ha hl) hk
    · rintro ⟨a, ha, hl, rfl⟩
      exact absurd (hold a ha hl) hk
  · rw [hother j hj]

/-- A slot that is not live takes a key that is not there. -/
theorem link (h : Distinct live key es) (hnone : find live key es k = none)
    (hother : ∀ j, j ≠ i → es'[j]? = es[j]?) (hi : es'[i]? = some a) (hl : live a = true)
    (hk : key a = k) (hfree : ∀ b, es[i]? = some b → live b = false) :
    Distinct live key es' ∧ find live key es' k = some i ∧
      ∀ k', k' ≠ k → find live key es' k' = find live key es k' := by
  have hold := find_eq_none.1 hnone
  have h' : Distinct live key es' := by
    intro j j' b b' hb hb' hlb hlb' hkey
    by_cases hj : j = i <;> by_cases hj' : j' = i
    · rw [hj, hj']
    · rw [hj, hi] at hb
      cases hb
      rw [hother j' hj'] at hb'
      exact absurd (hkey.symm.trans hk) (hold j' b' hb' hlb')
    · rw [hj', hi] at hb'
      cases hb'
      rw [hother j hj] at hb
      exact absurd (hkey.trans hk) (hold j b hb hlb)
    · rw [hother j hj] at hb
      rw [hother j' hj'] at hb'
      exact h j j' b b' hb hb' hlb hlb' hkey
  refine ⟨h', h'.find_iff.2 ⟨a, hi, hl, hk⟩, fun k' hk' => h.find_other h' hother ?_ ?_ hk'⟩
  · intro b hb hlb
    rw [hfree b hb] at hlb
    cases hlb
  · intro b hb _
    rw [hi] at hb
    cases hb
    exact hk

/-- A slot is cleared. -/
theorem clear (h : Distinct live key es) (hfind : find live key es k = some i)
    (hother : ∀ j, j ≠ i → es'[j]? = es[j]?) (hdead : ∀ b, es'[i]? = some b → live b = false) :
    Distinct live key es' ∧ find live key es' k = none ∧
      ∀ k', k' ≠ k → find live key es' k' = find live key es k' := by
  obtain ⟨a, ha, hla, hka⟩ := h.find_iff.1 hfind
  have hne : ∀ j b, es'[j]? = some b → live b = true → j ≠ i := by
    rintro j b hb hlb rfl
    rw [hdead b hb] at hlb
    cases hlb
  have h' : Distinct live key es' := by
    intro j j' b b' hb hb' hlb hlb' hkey
    rw [hother j (hne j b hb hlb)] at hb
    rw [hother j' (hne j' b' hb' hlb')] at hb'
    exact h j j' b b' hb hb' hlb hlb' hkey
  refine ⟨h', find_eq_none.2 fun j b hb hlb hkb => ?_, fun k' hk' =>
    h.find_other h' hother ?_ ?_ hk'⟩
  · have hj := hne j b hb hlb
    rw [hother j hj] at hb
    exact hj (h j i b a hb ha hlb hla (hkb.trans hka.symm))
  · intro b hb hlb
    rw [ha] at hb
    cases hb
    exact hka
  · intro b hb hlb
    rw [hdead b hb] at hlb
    cases hlb

end Distinct

end SlotMap
