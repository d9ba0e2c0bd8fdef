import Mathlib.Tactic

/-!
# Pages and page-table entries (`kernel/riscv.h`, `kernel/memlayout.h`)

The page arithmetic and the Sv39 page-table entries of the kernel, on 64-bit words that wrap.
Physical pages are also known by their number, `pa >> PGSHIFT`.
-/

namespace Xv6

abbrev U64 := BitVec 64
abbrev U32 := BitVec 32

/-! ### `kernel/riscv.h` -/

/-- Bytes per page. -/
abbrev PGSIZE : U64 := 4096

def pgRoundUp (sz : U64) : U64 := (sz + PGSIZE - 1) &&& ~~~(PGSIZE - 1)
def pgRoundDown (a : U64) : U64 := a &&& ~~~(PGSIZE - 1)

abbrev PTE_V : U64 := 1
abbrev PTE_R : U64 := 2
abbrev PTE_W : U64 := 4
abbrev PTE_X : U64 := 8
abbrev PTE_U : U64 := 16

/-- Shift a physical address to the right place for a PTE. -/
def pa2pte (pa : U64) : U64 := (pa >>> 12) <<< 10

def pte2pa (pte : U64) : U64 := (pte >>> 10) <<< 12

def pteFlags (pte : U64) : U64 := pte &&& 0x3FF

/-- `PX(level, va)`: one of the three 9-bit page table indices of a virtual address. -/
def px (level : ℕ) (va : U64) : U64 := (va >>> (12 + 9 * level)) &&& 0x1FF

/-- One beyond the highest possible virtual address. -/
abbrev MAXVA : U64 := 0x4000000000

/-! ### `kernel/memlayout.h` -/

abbrev KERNBASE : U64 := 0x80000000
abbrev PHYSTOP : U64 := 0x88000000

/-- The trampoline page, at the highest address. -/
abbrev TRAMPOLINE : U64 := MAXVA - PGSIZE

/-- The trapframe page, just below it. -/
abbrev TRAPFRAME : U64 := TRAMPOLINE - PGSIZE

abbrev START_VMAS_ADDR : U64 := TRAPFRAME / 2

/-- The symbols `end` (the first address after the kernel) and `trampoline` that `kernel.ld`
places, the trampoline in the text of the kernel and on a page of its own. -/
class Layout where
  kend : U64
  trampoline : U64
  base_le : KERNBASE ≤ trampoline
  aligned : trampoline.toNat % 4096 = 0
  text_lt : trampoline.toNat + 4096 ≤ kend.toNat
  kend_le : kend ≤ PHYSTOP

/-! ### Rounding -/

theorem toNat_pgRoundDown (a : U64) : (pgRoundDown a).toNat = a.toNat / 4096 * 4096 := by
  have h : pgRoundDown a = (a >>> 12) <<< 12 := by
    apply BitVec.eq_of_getLsbD_eq
    intro i hi
    have hmask : (~~~(PGSIZE - 1)).getLsbD i = decide (12 ≤ i) := by
      interval_cases i <;> rfl
    rw [pgRoundDown, BitVec.getLsbD_and, hmask, BitVec.getLsbD_shiftLeft,
      BitVec.getLsbD_ushiftRight]
    by_cases h12 : i < 12
    · simp [h12]
    · simp [h12, hi, Nat.add_sub_cancel' (Nat.not_lt.1 h12), Nat.not_lt.1 h12]
  rw [h, BitVec.toNat_shiftLeft, BitVec.toNat_ushiftRight, Nat.shiftLeft_eq,
    Nat.shiftRight_eq_div_pow]
  have := a.isLt
  omega

theorem toNat_pgRoundUp (a : U64) :
    (pgRoundUp a).toNat = (a.toNat + 4095) % 2 ^ 64 / 4096 * 4096 := by
  have h : pgRoundUp a = pgRoundDown (a + 4095) := by
    rw [pgRoundUp, pgRoundDown, BitVec.sub_eq_add_neg, BitVec.add_assoc]
    rfl
  have h4 : (4095 : U64).toNat = 4095 := rfl
  rw [h, toNat_pgRoundDown, BitVec.toNat_add, h4]

/-! ### Page-table entries -/

/-- The entry has PTE_V. -/
abbrev Valid (pte : U64) : Prop := pte &&& PTE_V ≠ 0

/-- The address of a page. -/
def pageAddr (g : ℕ) : U64 := BitVec.ofNat 64 (g * 4096)

/-- The number of the page an entry maps. -/
def pteFrame (pte : U64) : ℕ := (pte2pa pte).toNat / 4096

theorem toNat_pageAddr {g : ℕ} (hg : g < 2 ^ 52) : (pageAddr g).toNat = g * 4096 := by
  rw [pageAddr, BitVec.toNat_ofNat]
  omega

theorem pageAddr_aligned {f : ℕ} (hf : f < 2 ^ 52) : pageAddr f % PGSIZE = 0 := by
  have hpg : PGSIZE.toNat = 4096 := by decide
  apply BitVec.eq_of_toNat_eq
  rw [BitVec.toNat_umod, toNat_pageAddr hf, hpg]
  simp

theorem toNat_pa2pte (pa : U64) : (pa2pte pa).toNat = pa.toNat / 4096 * 1024 := by
  rw [pa2pte, BitVec.toNat_shiftLeft, BitVec.toNat_ushiftRight, Nat.shiftLeft_eq,
    Nat.shiftRight_eq_div_pow]
  have := pa.isLt
  omega

theorem toNat_pte2pa (pte : U64) : (pte2pa pte).toNat = pte.toNat / 1024 * 4096 % 2 ^ 64 := by
  rw [pte2pa, BitVec.toNat_shiftLeft, BitVec.toNat_ushiftRight, Nat.shiftLeft_eq,
    Nat.shiftRight_eq_div_pow]

/-- A flag is tested by masking. -/
theorem and_twoPow_eq_zero_iff (x : U64) {n : ℕ} (hn : n < 64) :
    x &&& BitVec.twoPow 64 n = 0 ↔ x.getLsbD n = false := by
  rw [BitVec.and_twoPow]
  cases h : x.getLsbD n with
  | false => simp
  | true =>
    simp only [if_true, Bool.true_eq_false, iff_false]
    intro h0
    have := congrArg (fun y : U64 => y.getLsbD n) h0
    simp [hn] at this

theorem and_PTE_V_eq_zero (x : U64) : x &&& PTE_V = 0 ↔ x.getLsbD 0 = false :=
  and_twoPow_eq_zero_iff x (n := 0) (by omega)

theorem and_PTE_U_eq_zero (x : U64) : x &&& PTE_U = 0 ↔ x.getLsbD 4 = false :=
  and_twoPow_eq_zero_iff x (n := 4) (by omega)

/-- Flags are the ten low bits. -/
def IsFlags (fl : U64) : Prop := fl.toNat < 1024

instance (fl : U64) : Decidable (IsFlags fl) := inferInstanceAs (Decidable (fl.toNat < 1024))

theorem IsFlags.getLsbD {fl : U64} (h : IsFlags fl) {i : ℕ} (hi : 10 ≤ i) :
    fl.getLsbD i = false := by
  rw [← BitVec.testBit_toNat]
  have hpow : 2 ^ 10 ≤ 2 ^ i := Nat.pow_le_pow_right (by norm_num) hi
  exact Nat.testBit_lt_two_pow (lt_of_lt_of_le h hpow)

theorem pte2pa_congr {x y : U64} (h : ∀ i, 10 ≤ i → x.getLsbD i = y.getLsbD i) :
    pte2pa x = pte2pa y := by
  have : x >>> 10 = y >>> 10 := by
    apply BitVec.eq_of_getLsbD_eq
    intro i _
    rw [BitVec.getLsbD_ushiftRight, BitVec.getLsbD_ushiftRight]
    exact h _ (by omega)
  rw [pte2pa, pte2pa, this]

theorem pte2pa_or_flags (x : U64) {fl : U64} (h : IsFlags fl) : pte2pa (x ||| fl) = pte2pa x :=
  pte2pa_congr fun i hi => by rw [BitVec.getLsbD_or, h.getLsbD hi, Bool.or_false]

/-- Whatever else is in an entry, it does not hide the page. -/
theorem pte2pa_or_ne_zero {x : U64} (h : pte2pa x ≠ 0) (y : U64) : pte2pa (x ||| y) ≠ 0 := by
  rw [pte2pa, BitVec.ushiftRight_or_distrib, BitVec.shiftLeft_or_distrib]
  exact fun h0 => h (BitVec.or_eq_zero_iff.1 h0).1

theorem pte2pa_and_not_W (x : U64) : pte2pa (x &&& ~~~PTE_W) = pte2pa x :=
  pte2pa_congr fun i hi => by
    have hW : IsFlags PTE_W := by decide
    by_cases h : i < 64
    · rw [BitVec.getLsbD_and, BitVec.getLsbD_not, hW.getLsbD hi]
      simp [h]
    · rw [BitVec.getLsbD_of_ge _ _ (by omega), BitVec.getLsbD_of_ge _ _ (by omega)]

theorem pte2pa_and_not_U (x : U64) : pte2pa (x &&& ~~~PTE_U) = pte2pa x :=
  pte2pa_congr fun i hi => by
    have hU : IsFlags PTE_U := by decide
    by_cases h : i < 64
    · rw [BitVec.getLsbD_and, BitVec.getLsbD_not, hU.getLsbD hi]
      simp [h]
    · rw [BitVec.getLsbD_of_ge _ _ (by omega), BitVec.getLsbD_of_ge _ _ (by omega)]

theorem pte2pa_pa2pte {g : ℕ} (hg : g < 2 ^ 44) : pte2pa (pa2pte (pageAddr g)) = pageAddr g := by
  apply BitVec.eq_of_toNat_eq
  rw [toNat_pte2pa, toNat_pa2pte, toNat_pageAddr (by omega)]
  omega

theorem getLsbD_pa2pte (pa : U64) {i : ℕ} (hi : i < 10) : (pa2pte pa).getLsbD i = false := by
  rw [pa2pte, BitVec.getLsbD_shiftLeft]
  simp [hi]

theorem IsFlags.or {x y : U64} (hx : IsFlags x) (hy : IsFlags y) : IsFlags (x ||| y) := by
  unfold IsFlags at *
  rw [BitVec.toNat_or]
  exact Nat.or_lt_two_pow (n := 10) hx hy

theorem isFlags_pteFlags (pte : U64) : IsFlags (pteFlags pte) := by
  unfold IsFlags
  rw [pteFlags, BitVec.toNat_and]
  exact lt_of_le_of_lt Nat.and_le_right (by decide)

theorem isFlags_setWidth {perm : U32} (h : perm.toNat < 1024) : IsFlags (perm.setWidth 64) := by
  unfold IsFlags
  rw [BitVec.toNat_setWidth]
  omega

/-- An entry for page `g` with the flags `fl`. -/
theorem pte2pa_pa2pte_or {g : ℕ} (hg : g < 2 ^ 44) {fl : U64} (h : IsFlags fl) :
    pte2pa (pa2pte (pageAddr g) ||| fl) = pageAddr g := by
  rw [pte2pa_or_flags _ h, pte2pa_pa2pte hg]

theorem pteFlags_getLsbD (pte : U64) {i : ℕ} (hi : i < 10) :
    (pteFlags pte).getLsbD i = pte.getLsbD i := by
  have hmask : (0x3FF : U64).getLsbD i = true := by
    interval_cases i <;> rfl
  rw [pteFlags, BitVec.getLsbD_and, hmask, Bool.and_true]

/-! ### Testing flags -/

theorem or_and_eq_zero (x y m : U64) : (x ||| y) &&& m = 0 ↔ x &&& m = 0 ∧ y &&& m = 0 := by
  rw [BitVec.and_comm, BitVec.and_or_distrib_left, BitVec.and_comm m, BitVec.and_comm m]
  exact BitVec.or_eq_zero_iff

theorem or_and_ne_left {x m : U64} (h : x &&& m ≠ 0) (y : U64) : (x ||| y) &&& m ≠ 0 :=
  fun h0 => h ((or_and_eq_zero x y m).1 h0).1

theorem or_and_ne_right {y m : U64} (x : U64) (h : y &&& m ≠ 0) : (x ||| y) &&& m ≠ 0 :=
  fun h0 => h ((or_and_eq_zero x y m).1 h0).2

/-- The flags of an entry are tested like the entry. -/
theorem pteFlags_and {m : U64} (hm : IsFlags m) (pte : U64) : pteFlags pte &&& m = pte &&& m := by
  apply BitVec.eq_of_getLsbD_eq
  intro i _
  by_cases hi : i < 10
  · rw [BitVec.getLsbD_and, BitVec.getLsbD_and, pteFlags_getLsbD pte hi]
  · rw [BitVec.getLsbD_and, BitVec.getLsbD_and, hm.getLsbD (by omega), Bool.and_false,
      Bool.and_false]

/-- A physical address brings no flags along. -/
theorem pa2pte_and {m : U64} (hm : IsFlags m) (pa : U64) : pa2pte pa &&& m = 0 := by
  apply BitVec.eq_of_getLsbD_eq
  intro i _
  by_cases hi : i < 10
  · simp [getLsbD_pa2pte _ hi]
  · simp [hm.getLsbD (show 10 ≤ i by omega)]

/-- A user entry has more than the valid bit. -/
theorem pteFlags_ne_of_U {pte : U64} (h : pte &&& PTE_U ≠ 0) : pteFlags pte ≠ PTE_V := by
  intro he
  have h4 := pteFlags_getLsbD pte (show 4 < 10 by omega)
  rw [he] at h4
  exact h ((and_PTE_U_eq_zero pte).2 (by rw [← h4]; rfl))

theorem pteFrame_of_pte2pa {pte : U64} {g : ℕ} (hg : g < 2 ^ 52) (h : pte2pa pte = pageAddr g) :
    pteFrame pte = g := by
  rw [pteFrame, h, toNat_pageAddr hg]
  omega

/-- An entry maps the page of its number. -/
theorem pte2pa_eq_pageAddr (pte : U64) : pte2pa pte = pageAddr (pteFrame pte) := by
  apply BitVec.eq_of_toNat_eq
  have h := toNat_pte2pa pte
  rw [toNat_pageAddr, pteFrame]
  · omega
  · rw [pteFrame]
    omega

theorem pteFrame_lt (pte : U64) : pteFrame pte < 2 ^ 52 := by
  have := (pte2pa pte).isLt
  rw [pteFrame]
  omega

end Xv6
