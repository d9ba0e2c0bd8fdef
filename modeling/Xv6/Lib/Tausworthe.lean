import Mathlib.Data.Fintype.EquivFin
import Mathlib.Data.BitVec

/-!
# Shift registers in a word

A Tausworthe generator keeps a bit sequence with `x (j + k) = x j + x (j + k - q)` in the high `k`
bits of a word of `w` bits, and moves on by `s` places with two shifts, a mask and an exclusive or.
The low bits of the word do not matter: the register is the high bits, and a step permutes them.
-/

namespace Tausworthe

variable {w : ℕ}

/-- One step of the register in the bits from `low` on. -/
def step (low q s : ℕ) (z : BitVec w) : BitVec w :=
  ((z &&& (BitVec.allOnes w <<< low)) <<< s) ^^^ (((z <<< q) ^^^ z) >>> (w - low - s))

/-- The bits from `low` on. -/
def significant (low : ℕ) (z : BitVec w) : BitVec (w - low) := z.extractLsb' low (w - low)

/-- A word with the given high bits. -/
def word (low : ℕ) (x : BitVec (w - low)) : BitVec w := x.setWidth w <<< low

/-- What a step does to the register. -/
def next (w low q s : ℕ) (x : BitVec (w - low)) : BitVec (w - low) :=
  significant low (step low q s (word low x))

/-- The constants fit together: what is shifted out at the top has been used before. -/
structure Fits (w low q s : ℕ) : Prop where
  pos : 0 < q
  room : low + s + q ≤ w

variable {low q s : ℕ} {z z' : BitVec w}

theorem significant_eq_iff :
    significant low z = significant low z' ↔
      ∀ i, low ≤ i → i < w → z.getLsbD i = z'.getLsbD i := by
  constructor
  · intro h i hlo hi
    have hbit := congrArg (fun x => x.getLsbD (i - low)) h
    simp only [significant, BitVec.getLsbD_extractLsb', Nat.add_sub_cancel' hlo,
      show i - low < w - low by omega, decide_true, Bool.true_and] at hbit
    exact hbit
  · intro h
    apply BitVec.eq_of_getLsbD_eq
    intro i hi
    simp only [significant, BitVec.getLsbD_extractLsb', hi, decide_true, Bool.true_and]
    exact h _ (by omega) (by omega)

theorem significant_word (x : BitVec (w - low)) : significant low (word low x) = x := by
  apply BitVec.eq_of_getLsbD_eq
  intro i hi
  simp only [significant, word, BitVec.getLsbD_extractLsb', BitVec.getLsbD_shiftLeft,
    BitVec.getLsbD_setWidth, hi, decide_true, Bool.true_and, show low + i < w by omega,
    show i < w by omega, Nat.add_sub_cancel_left, show ¬ low + i < low by omega, decide_false,
    Bool.not_false]

/-- The bits of a step. -/
theorem getLsbD_step (h : Fits w low q s) {i : ℕ} (hi : i < w) :
    (step low q s z).getLsbD i =
      if i < low + s then z.getLsbD (w - low - s + i - q) ^^ z.getLsbD (w - low - s + i)
      else z.getLsbD (i - s) := by
  have hroom := h.room
  unfold step
  simp only [BitVec.getLsbD_xor, BitVec.getLsbD_shiftLeft, BitVec.getLsbD_and,
    BitVec.getLsbD_allOnes, BitVec.getLsbD_ushiftRight]
  split_ifs with hlt
  · have hout : (!decide (i < s) && !decide (i - s < low)) = false := by
      rw [Bool.and_eq_false_iff, Bool.not_eq_false', Bool.not_eq_false', decide_eq_true_iff,
        decide_eq_true_iff]
      omega
    simp only [show w - low - s + i < w by omega, show ¬ w - low - s + i < q by omega]
    revert hout
    cases decide (i < s) <;> cases decide (i - s < low) <;> simp
  · simp only [hi, show ¬ i < s by omega, show ¬ i - s < low by omega, show i - s < w by omega,
      show i - s - low < w by omega, show ¬ w - low - s + i < w by omega,
      BitVec.getLsbD_of_ge z (w - low - s + i) (by omega)]
    simp

/-- A step depends on the high bits only, and the high bits can be found again: those that were
shifted up are there, and the others follow from them one by one. -/
theorem significant_step_eq_iff (h : Fits w low q s) :
    significant low (step low q s z) = significant low (step low q s z') ↔
      significant low z = significant low z' := by
  have hroom := h.room
  have hpos := h.pos
  rw [significant_eq_iff, significant_eq_iff]
  constructor
  · intro heq i
    induction i using Nat.strong_induction_on with
    | _ i ih =>
      intro hlo hi
      by_cases hup : i + s < w
      · have hbit := heq (i + s) (by omega) hup
        rwa [getLsbD_step h hup, getLsbD_step h hup, if_neg (by omega),
          if_neg (by omega), Nat.add_sub_cancel] at hbit
      · have hbit := heq (i - (w - low - s)) (by omega) (by omega)
        rw [getLsbD_step h (by omega), getLsbD_step h (by omega),
          if_pos (by omega), if_pos (by omega), show w - low - s + (i - (w - low - s)) = i by omega,
          ih (i - q) (by omega) (by omega) (by omega)] at hbit
        exact Bool.xor_right_inj.1 hbit
  · intro heq i hlo hi
    rw [getLsbD_step h hi, getLsbD_step h hi]
    split_ifs
    · rw [heq _ (by omega) (by omega), heq _ (by omega) (by omega)]
    · exact heq _ (by omega) (by omega)

theorem significant_step (h : Fits w low q s) (z : BitVec w) :
    significant low (step low q s z) = next w low q s (significant low z) :=
  (significant_step_eq_iff h).2 (significant_word _).symm

/-- A step permutes the registers. -/
theorem next_bijective (h : Fits w low q s) : Function.Bijective (next w low q s) := by
  have : Finite (BitVec (w - low)) := Finite.of_injective BitVec.toFin BitVec.toFin_injective
  apply Finite.injective_iff_bijective.1
  intro x y hxy
  have := (significant_step_eq_iff h).1 hxy
  rwa [significant_word, significant_word] at this

/-! ### The register that is stuck -/

theorem significant_ne_zero_iff : significant low z ≠ 0#_ ↔ 2 ^ low ≤ z.toNat := by
  have hval : (significant low z).toNat = z.toNat / 2 ^ low := by
    rw [significant, BitVec.extractLsb'_toNat, Nat.shiftRight_eq_div_pow, Nat.mod_eq_of_lt]
    refine Nat.div_lt_of_lt_mul (z.isLt.trans_le ?_)
    rw [← Nat.pow_add]
    exact Nat.pow_le_pow_right (by decide) (by omega)
  rw [ne_eq, ← BitVec.toNat_inj, hval, BitVec.toNat_zero, Nat.div_eq_zero_iff]
  have := Nat.two_pow_pos low
  omega

theorem next_zero (w low q s : ℕ) : next w low q s 0#_ = 0#_ := by
  have hw : word low (0#(w - low)) = 0#w := by
    rw [word, BitVec.setWidth_zero, BitVec.zero_shiftLeft]
  rw [next, hw, step]
  simp [significant]

/-- A register that is not zero never becomes zero. -/
theorem two_pow_le_step (h : Fits w low q s) (hz : 2 ^ low ≤ z.toNat) :
    2 ^ low ≤ (step low q s z).toNat := by
  rw [← significant_ne_zero_iff] at hz ⊢
  rw [significant_step h]
  intro h0
  exact hz ((next_bijective h).1 (h0.trans (next_zero w low q s).symm))

end Tausworthe
