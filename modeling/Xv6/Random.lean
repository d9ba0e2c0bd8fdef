import Xv6.Lottery
import Xv6.Lib.Tausworthe

/-!
# The random generator

`rand` of `kernel/random.c` runs four shift registers, of 31, 29, 28 and 25 bits, in the high bits
of four words.  Each call permutes the states of each register, and zero goes to zero: a register
that starts from another state never gets stuck.  `cpuinit` starts all four from one number that has
a high bit set in each of them.
-/

namespace Xv6

open Wp Tausworthe

/-- `cpuinit`: the generator of a cpu. -/
def cpuinit : Rng := srand 12345

/-- The generator after a call. -/
def Rng.next (g : Rng) : Rng := (rand g).2

/-- None of the registers is zero. -/
structure Rng.Alive (g : Rng) : Prop where
  z1 : 2 ≤ g.z1.toNat
  z2 : 8 ≤ g.z2.toNat
  z3 : 16 ≤ g.z3.toNat
  z4 : 128 ≤ g.z4.toNat

variable {g : Rng}

/-- The masks and shifts of `rand` are those of four registers. -/
theorem Rng.next_eq (g : Rng) :
    g.next = ⟨step 1 6 18 g.z1, step 3 2 2 g.z2, step 4 13 7 g.z3, step 7 3 13 g.z4⟩ := rfl

theorem fits_z1 : Tausworthe.Fits 32 1 6 18 := ⟨by decide, by decide⟩

theorem fits_z2 : Tausworthe.Fits 32 3 2 2 := ⟨by decide, by decide⟩

theorem fits_z3 : Tausworthe.Fits 32 4 13 7 := ⟨by decide, by decide⟩

theorem fits_z4 : Tausworthe.Fits 32 7 3 13 := ⟨by decide, by decide⟩

theorem Rng.Alive.next (h : g.Alive) : g.next.Alive := by
  rw [Rng.next_eq]
  exact ⟨two_pow_le_step fits_z1 h.z1, two_pow_le_step fits_z2 h.z2, two_pow_le_step fits_z3 h.z3,
    two_pow_le_step fits_z4 h.z4⟩

theorem cpuinit_alive : cpuinit.Alive := ⟨by decide, by decide, by decide, by decide⟩

theorem Rng.Alive.iterate (h : g.Alive) (n : ℕ) : (Rng.next^[n] g).Alive := by
  induction n with
  | zero => exact h
  | succ n ih =>
    rw [Function.iterate_succ_apply']
    exact ih.next

/-- **The generator never degenerates.**  A call permutes the high bits of each word, whatever the
others are, and from the start that `cpuinit` makes no register ever becomes zero. -/
theorem rand_never_degenerates :
    (∃ f₁ : BitVec 31 → BitVec 31, f₁.Bijective ∧
      ∀ g, significant 1 (rand g).2.z1 = f₁ (significant 1 g.z1)) ∧
    (∃ f₂ : BitVec 29 → BitVec 29, f₂.Bijective ∧
      ∀ g, significant 3 (rand g).2.z2 = f₂ (significant 3 g.z2)) ∧
    (∃ f₃ : BitVec 28 → BitVec 28, f₃.Bijective ∧
      ∀ g, significant 4 (rand g).2.z3 = f₃ (significant 4 g.z3)) ∧
    (∃ f₄ : BitVec 25 → BitVec 25, f₄.Bijective ∧
      ∀ g, significant 7 (rand g).2.z4 = f₄ (significant 7 g.z4)) ∧
    ∀ n : ℕ, let g := Rng.next^[n] cpuinit
      (2 ≤ g.z1.toNat ∧ 8 ≤ g.z2.toNat ∧ 16 ≤ g.z3.toNat ∧ 128 ≤ g.z4.toNat) ∧
        g.z1 ≠ 0 ∧ g.z2 ≠ 0 ∧ g.z3 ≠ 0 ∧ g.z4 ≠ 0 := by
  refine ⟨⟨_, next_bijective fits_z1, fun g => significant_step fits_z1 g.z1⟩,
    ⟨_, next_bijective fits_z2, fun g => significant_step fits_z2 g.z2⟩,
    ⟨_, next_bijective fits_z3, fun g => significant_step fits_z3 g.z3⟩,
    ⟨_, next_bijective fits_z4, fun g => significant_step fits_z4 g.z4⟩, fun n => ?_⟩
  have h := cpuinit_alive.iterate n
  have hne {k : ℕ} {z : U32} (hk : 0 < k) (hz : k ≤ z.toNat) : z ≠ 0 := by
    rintro rfl
    exact absurd (hk.trans_le hz) (lt_irrefl 0)
  exact ⟨⟨h.z1, h.z2, h.z3, h.z4⟩, hne (by decide) h.z1, hne (by decide) h.z2, hne (by decide) h.z3,
    hne (by decide) h.z4⟩

end Xv6
