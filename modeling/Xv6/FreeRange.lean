import Xv6.Boot
import Xv6.Spaces

/-!
# The free range that `getfreevrange` finds

The search starts at `START_VMAS_ADDR` and goes on from the end of one vma to the least end above
it.  A range that is not free meets a vma which ends above its first page, and that vma also meets
every range that starts below the next end (`Taken.step`); so no address is passed over, and as
every round leaves an end behind, the rounds are at most one more than the vmas.

The code counts in whole pages: a vma takes the pages from `PGROUNDDOWN(start)` up to
`PGROUNDUP(start + length)`, and an empty vma that starts inside a page takes that page.
-/

namespace Xv6

open Wp

/-- Page `n` holds a byte of the vma. -/
def Vma.HasByte (v : Vma) (n : ℕ) : Prop :=
  ∃ y, v.start.toNat ≤ y ∧ y < v.start.toNat + v.length.toNat ∧ y / 4096 = n

/-- The pages of a vma that is not empty are those that hold its bytes. -/
theorem Vma.hasByte_iff {v : Vma} (h : 0 < v.length.toNat) {n : ℕ} : v.HasByte n ↔ v.Pages n := by
  unfold Pages first past
  constructor
  · rintro ⟨y, h1, h2, rfl⟩
    omega
  · rintro ⟨h1, h2⟩
    exact ⟨max v.start.toNat (n * 4096), by omega, by omega, by omega⟩

section FreeRange

variable {s : Kernel} {u : UvmPtr}

/-- The vmas of `u` do not wrap and lie below `MAXVA`. -/
def BelowMaxva (s : Kernel) (u : UvmPtr) : Prop :=
  ∀ i j, i < VMA_SIZE → s.slot u i = some j →
    (s.vmas j).start.toNat + (s.vmas j).length.toNat ≤ MAXVA.toNat

/-- One of the `n` pages from page `p` on is a page of a vma. -/
def Taken (s : Kernel) (u : UvmPtr) (p n : ℕ) : Prop :=
  ∃ i j, i < VMA_SIZE ∧ s.slot u i = some j ∧
    ∃ x, (s.vmas j).Pages x ∧ p ≤ x ∧ x < p + n

/-- `[a, a + length)` is a range `getfreevrange` may return, if a vma has the pages `pages`. -/
structure FitsAt (pages : Vma → ℕ → Prop) (s : Kernel) (u : UvmPtr) (length a : ℕ) : Prop where
  start_le : START_VMAS_ADDR.toNat ≤ a
  aligned : a % 4096 = 0
  stop_le : a + length ≤ MAXVA.toNat
  apart : ∀ i j, i < VMA_SIZE → s.slot u i = some j →
    ∀ x, a ≤ x → x < a + length → ¬ pages (s.vmas j) (x / 4096)

/-- Where no vma is empty, it does not matter how its pages are told. -/
theorem fitsAt_hasByte_iff {length a : ℕ}
    (hne : ∀ i j, i < VMA_SIZE → s.slot u i = some j → 0 < (s.vmas j).length.toNat) :
    FitsAt Vma.HasByte s u length a ↔ FitsAt Vma.Pages s u length a := by
  constructor
  · intro h
    exact ⟨h.start_le, h.aligned, h.stop_le, fun i j hi hs x h1 h2 hp =>
      h.apart i j hi hs x h1 h2 ((Vma.hasByte_iff (hne i j hi hs)).2 hp)⟩
  · intro h
    exact ⟨h.start_le, h.aligned, h.stop_le, fun i j hi hs x h1 h2 hp =>
      h.apart i j hi hs x h1 h2 ((Vma.hasByte_iff (hne i j hi hs)).1 hp)⟩

/-- The number of pages of a range that starts at a page. -/
def pagesOf (length : ℕ) : ℕ := (length + 4095) / 4096

theorem FitsAt.not_taken {length a : ℕ} (h : FitsAt Vma.Pages s u length a) :
    ¬ Taken s u (a / 4096) (pagesOf length) := by
  rintro ⟨i, j, hi, hs, x, hx, h1, h2⟩
  have ha := h.aligned
  unfold pagesOf at h2
  refine h.apart i j hi hs (x * 4096) (by omega) (by omega) ?_
  rwa [Nat.mul_div_cancel _ (by norm_num)]

theorem fitsAt_of_not_taken {length a : ℕ} (h1 : START_VMAS_ADDR.toNat ≤ a) (h2 : a % 4096 = 0)
    (h3 : a + length ≤ MAXVA.toNat) (h : ¬ Taken s u (a / 4096) (pagesOf length)) :
    FitsAt Vma.Pages s u length a := by
  refine ⟨h1, h2, h3, fun i j hi hs x hx hx' hp => h ⟨i, j, hi, hs, x / 4096, hp, by omega, ?_⟩⟩
  unfold pagesOf
  omega

/-- Where a vma ends, for the code. -/
theorem BelowMaxva.toNat_stop (h : BelowMaxva s u) {i j : ℕ} (hi : i < VMA_SIZE)
    (hs : s.slot u i = some j) :
    (pgRoundUp (s.vmas j).stop).toNat = (s.vmas j).past * 4096 ∧ (s.vmas j).past ≤ 0x4000000 := by
  have hb := h i j hi hs
  have hM : MAXVA.toNat = 0x4000000000 := rfl
  rw [toNat_pgRoundUp, Vma.stop, BitVec.toNat_add, Vma.past]
  omega

/-- `uvm_israngefree` asks whether one of the pages is taken. -/
theorem BelowMaxva.uvmIsrangefree_iff_not_taken (h : BelowMaxva s u) {addr : U64} (len : U64)
    (ha : addr.toNat % 4096 = 0) (hl : addr.toNat + len.toNat ≤ 2 ^ 40) :
    uvmIsrangefree s u addr len = true ↔ ¬ Taken s u (addr.toNat / 4096) (pagesOf len.toNat) := by
  have hup : (pgRoundUp (addr + len)).toNat = addr.toNat + pagesOf len.toNat * 4096 := by
    rw [toNat_pgRoundUp, BitVec.toNat_add, pagesOf]
    omega
  rw [uvmIsrangefree_iff]
  constructor
  · rintro hfree ⟨i, j, hi, hs, x, hx, h1, h2⟩
    have hle := hfree i j hi hs
    rw [BitVec.le_def, toNat_umin, toNat_umax, hup, (h.toNat_stop hi hs).1, toNat_pgRoundDown,
      toNat_pgRoundDown] at hle
    unfold Vma.Pages Vma.first at hx
    omega
  · intro hfree i j hi hs
    rw [BitVec.le_def, toNat_umin, toNat_umax, hup, (h.toNat_stop hi hs).1, toNat_pgRoundDown,
      toNat_pgRoundDown]
    by_contra hlt
    refine hfree ⟨i, j, hi, hs, max (addr.toNat / 4096) (s.vmas j).first, ⟨le_max_right _ _, ?_⟩,
      le_max_left _ _, ?_⟩ <;> unfold Vma.first at * <;> omega

/-! ### The next address to try -/

/-- `b` is the least end above `p` among the first `n` vmas, or the end of the address space. -/
structure NextEnd (s : Kernel) (u : UvmPtr) (n p b : ℕ) : Prop where
  le : b ≤ 0x4000000
  gt : p < b ∨ b = 0x4000000
  least : ∀ i j, i < n → s.slot u i = some j → p < (s.vmas j).past → b ≤ (s.vmas j).past
  attained : b = 0x4000000 ∨ ∃ i j, i < n ∧ s.slot u i = some j ∧ (s.vmas j).past = b

theorem BelowMaxva.toNat_nextEnd (h : BelowMaxva s u) {previous : U64}
    (hp : previous.toNat % 4096 = 0) :
    ∃ b, (nextEnd s u previous).toNat = b * 4096 ∧
      NextEnd s u VMA_SIZE (previous.toNat / 4096) b := by
  unfold nextEnd
  -- over the vmas looked at so far
  obtain ⟨n, hsize, hn⟩ : ∃ n, n = VMA_SIZE ∧ n ≤ VMA_SIZE := ⟨_, rfl, le_rfl⟩
  rw [← hsize]
  clear hsize
  induction n with
  | zero =>
    exact ⟨0x4000000, rfl, le_rfl, .inr rfl, fun i j hi => by omega, .inl rfl⟩
  | succ n ih =>
    obtain ⟨b, hb, hN⟩ := ih (by omega)
    rw [List.range_succ, List.foldl_append, List.foldl_cons, List.foldl_nil]
    rcases hs : (s.uvms u).vma n with _ | j
    · refine ⟨b, hb, hN.le, hN.gt, fun i j hi hs' => ?_, ?_⟩
      · rcases Nat.lt_succ_iff_lt_or_eq.mp hi with hi | rfl
        · exact hN.least i j hi hs'
        · exact absurd (hs.symm.trans hs') (by simp)
      · obtain he | ⟨i, j, hi, hs', he⟩ := hN.attained
        · exact .inl he
        · exact .inr ⟨i, j, by omega, hs', he⟩
    · obtain ⟨hstop, hle⟩ := h.toNat_stop (Nat.lt_of_succ_le hn) hs
      have hj {i j' : ℕ} (hi : i = n) (hs' : s.slot u i = some j') : j' = j := by
        subst hi
        exact Option.some.inj (hs'.symm.trans hs)
      dsimp only
      split_ifs with hlt
      · rw [BitVec.lt_def, hstop] at hlt
        refine ⟨min b (s.vmas j).past, ?_, ?_, ?_, fun i j' hi hs' hp' => ?_, ?_⟩
        · rw [toNat_umin, hb, hstop, Nat.mul_min_mul_right]
        · have := hN.le
          omega
        · have := hN.gt
          omega
        · rcases Nat.lt_succ_iff_lt_or_eq.mp hi with hi | hi
          · exact (min_le_left _ _).trans (hN.least i j' hi hs' hp')
          · rw [hj hi hs']
            exact min_le_right _ _
        · rcases min_choice b (s.vmas j).past with he | he <;> rw [he]
          · obtain he | ⟨i, j', hi, hs', he⟩ := hN.attained
            · exact .inl he
            · exact .inr ⟨i, j', by omega, hs', he⟩
          · exact .inr ⟨n, j, by omega, hs, rfl⟩
      · rw [BitVec.lt_def, hstop] at hlt
        refine ⟨b, hb, hN.le, hN.gt, fun i j' hi hs' hp' => ?_, ?_⟩
        · rcases Nat.lt_succ_iff_lt_or_eq.mp hi with hi | hi
          · exact hN.least i j' hi hs' hp'
          · rw [hj hi hs'] at hp'
            omega
        · obtain he | ⟨i, j', hi, hs', he⟩ := hN.attained
          · exact .inl he
          · exact .inr ⟨i, j', by omega, hs', he⟩

/-- A vma that is in the way stays in the way up to the next end. -/
theorem Taken.step {p b n q : ℕ} (h : Taken s u p n) (hb : NextEnd s u VMA_SIZE p b)
    (hpq : p ≤ q) (hq : q < b) : Taken s u q n := by
  obtain ⟨i, j, hi, hs, x, ⟨hx, hx'⟩, h1, h2⟩ := h
  have hle := hb.least i j hi hs (by omega)
  exact ⟨i, j, hi, hs, max q x, ⟨le_max_of_le_right hx, by omega⟩, le_max_left _ _, by omega⟩

/-- The vmas that end above page `p`. -/
def endsAbove (s : Kernel) (u : UvmPtr) (p : ℕ) : Finset ℕ :=
  (Finset.range VMA_SIZE).filter fun i => ∃ j, s.slot u i = some j ∧ p < (s.vmas j).past

theorem NextEnd.card_lt {p b : ℕ} (hb : NextEnd s u VMA_SIZE p b)
    (hlt : b < 0x4000000) : (endsAbove s u b).card < (endsAbove s u p).card := by
  have hpb : p < b := hb.gt.resolve_right hlt.ne
  obtain ⟨i, j, hi, hs, he⟩ := hb.attained.resolve_left hlt.ne
  refine Finset.card_lt_card (Finset.ssubset_iff_of_subset ?_ |>.mpr ⟨i, ?_, ?_⟩)
  · intro k hk
    obtain ⟨hk, j', hs', hj'⟩ := Finset.mem_filter.mp hk
    exact Finset.mem_filter.mpr ⟨hk, j', hs', by omega⟩
  · exact Finset.mem_filter.mpr ⟨Finset.mem_range.mpr hi, j, hs, by omega⟩
  · rintro hmem
    obtain ⟨-, j', hs', hj'⟩ := Finset.mem_filter.mp hmem
    obtain rfl := Option.some.inj (hs.symm.trans hs')
    omega

/-! ### The search -/

/-- What the search answers: the least address that fits, or 0 if there is none. -/
def Found (s : Kernel) (u : UvmPtr) (length : ℕ) (r : U64) : Prop :=
  IsLeast {a | FitsAt Vma.Pages s u length a} r.toNat ∨ r = 0 ∧ ∀ a, ¬ FitsAt Vma.Pages s u length a

/-- The loop, from an address below which nothing fits, with more rounds left than vmas end above
it. -/
theorem BelowMaxva.getfreevrangeFrom_found (h : BelowMaxva s u) {length : U32}
    (hpos : 0 < length.toNat) (hlt : length.toNat < 2 ^ 31) (t : Kernel) :
    ∀ (n : ℕ) (addr : U64), START_VMAS_ADDR.toNat ≤ addr.toNat → addr.toNat % 4096 = 0 →
      addr.toNat + length.toNat ≤ MAXVA.toNat →
      (∀ a, FitsAt Vma.Pages s u length.toNat a → addr.toNat ≤ a) →
      (endsAbove s u (addr.toNat / 4096)).card < n →
      wp (getfreevrangeFrom s u length n addr) (fun _ => False)
        (fun r t' => t' = t ∧ Found s u length.toNat r) t := by
  have hM : MAXVA.toNat = 0x4000000 * 4096 := rfl
  have hlen : (length.signExtend 64).toNat = length.toNat := by rw [toNat_signExtend, if_pos hlt]
  intro n
  induction n with
  | zero => intro addr _ _ _ _ hn; omega
  | succ n ih =>
    intro addr hstart halign hfit hbelow hn
    have hfree := h.uvmIsrangefree_iff_not_taken (length.signExtend 64) halign (by omega)
    rw [hlen] at hfree
    rw [getfreevrangeFrom, wp_ite]
    split_ifs with hf
    · exact ⟨rfl, .inl ⟨fitsAt_of_not_taken hstart halign hfit (hfree.mp hf), hbelow⟩⟩
    have htaken : Taken s u (addr.toNat / 4096) (pagesOf length.toNat) := by
      by_contra hnot
      exact hf (hfree.mpr hnot)
    obtain ⟨b, hb, hN⟩ := h.toNat_nextEnd halign
    have hble := hN.le
    have hnext : (pgRoundUp (nextEnd s u addr)).toNat = b * 4096 := by
      rw [toNat_pgRoundUp, hb]
      omega
    -- what fits starts at the next end or above it
    have hpass (a : ℕ) (ha : FitsAt Vma.Pages s u length.toNat a) : b * 4096 ≤ a := by
      by_contra hlt'
      have hle := hbelow a ha
      have hal := ha.aligned
      exact ha.not_taken (htaken.step hN (by omega) (by omega))
    have hsum : (pgRoundUp (nextEnd s u addr) + length.signExtend 64).toNat =
        b * 4096 + length.toNat := by
      rw [BitVec.toNat_add, hnext, hlen]
      omega
    dsimp only
    rw [wp_ite]
    split_ifs with hover
    · rw [BitVec.lt_def, hsum] at hover
      refine ⟨rfl, .inr ⟨rfl, fun a ha => ?_⟩⟩
      have h1 := hpass a ha
      have h2 := ha.stop_le
      omega
    · rw [BitVec.lt_def, hsum] at hover
      have hgt : addr.toNat / 4096 < b := hN.gt.resolve_right (by omega)
      have hcard := hN.card_lt (by omega)
      refine ih _ ?_ ?_ ?_ ?_ ?_ <;> rw [hnext]
      · omega
      · omega
      · omega
      · exact hpass
      · rw [Nat.mul_div_cancel _ (by norm_num)]
        omega

/-- `getfreevrange` returns, and it returns the least address that fits, or 0 exactly when no
address fits.  Where no vma is empty, it is the bytes of the vmas that have to be kept off. -/
theorem getfreevrange_isLeast (h : BelowMaxva s u) (length : U32) (hpos : 0 < length.toNat)
    (hlt : length.toNat < 2 ^ 31) :
    ∃ r, getfreevrange u length s = .ok (r, s) ∧
      (r = 0 ↔ ∀ a, ¬ FitsAt Vma.Pages s u length.toNat a) ∧
      (r ≠ 0 → IsLeast {a | FitsAt Vma.Pages s u length.toNat a} r.toNat) ∧
      ((∀ i j, i < VMA_SIZE → s.slot u i = some j → 0 < (s.vmas j).length.toNat) →
        (r = 0 ↔ ∀ a, ¬ FitsAt Vma.HasByte s u length.toNat a) ∧
        (r ≠ 0 → IsLeast {a | FitsAt Vma.HasByte s u length.toNat a} r.toNat)) := by
  have hcard : (endsAbove s u (START_VMAS_ADDR.toNat / 4096)).card < VMA_SIZE + 3 := by
    have := Finset.card_filter_le (Finset.range VMA_SIZE) fun i =>
      ∃ j, s.slot u i = some j ∧ START_VMAS_ADDR.toNat / 4096 < (s.vmas j).past
    rw [Finset.card_range] at this
    unfold endsAbove
    omega
  have hS : START_VMAS_ADDR.toNat = 0x1FFFFFF000 := rfl
  have hM : MAXVA.toNat = 0x4000000000 := rfl
  have hwp : wp (getfreevrange u length) (fun _ => False)
      (fun r t => t = s ∧ Found s u length.toNat r) s := by
    unfold getfreevrange
    rw [wp_bind, wp_get]
    exact h.getfreevrangeFrom_found hpos hlt s _ _ le_rfl (by omega) (by omega)
      (fun a ha => ha.start_le) hcard
  obtain ⟨r, t, hrun, rfl, hr⟩ := hwp.exists_ok
  have hzero : r = 0 ↔ ∀ a, ¬ FitsAt Vma.Pages t u length.toNat a := by
    constructor
    · rintro rfl
      refine (hr.resolve_left fun hl => ?_).2
      have := hl.1.start_le
      rw [hS] at this
      exact absurd this (by decide)
    · intro hnone
      rcases hr with hl | hz
      · exact absurd hl.1 (hnone _)
      · exact hz.1
  have hleast : r ≠ 0 → IsLeast {a | FitsAt Vma.Pages t u length.toNat a} r.toNat := fun hr0 =>
    hr.resolve_right fun h => hr0 h.1
  refine ⟨r, hrun, hzero, hleast, fun hne => ?_⟩
  simp only [fitsAt_hasByte_iff hne]
  exact ⟨hzero, hleast⟩

end FreeRange

/-! ### Vmas without bytes -/

/-- An address space with one vma. -/
def oneVma (v : Vma) : Kernel := (Kernel.zero.setVma 0 v).setSlot (.proc 0) 0 (some 0)

theorem oneVma_slot {v : Vma} {i j : ℕ} (h : (oneVma v).slot (.proc 0) i = some j) :
    i = 0 ∧ j = 0 := by
  rcases Nat.eq_zero_or_pos i with rfl | hi
  · exact ⟨rfl, (Option.some.inj h).symm⟩
  · rw [oneVma, Kernel.setSlot_slot_of_ne (by omega)] at h
    exact absurd h (by simp [Kernel.slot, Kernel.zero, Kernel.setVma, Uvm.zero])

theorem oneVma_below {v : Vma} (h : v.start.toNat + v.length.toNat ≤ MAXVA.toNat) :
    BelowMaxva (oneVma v) (.proc 0) := by
  rintro i j - hs
  obtain ⟨rfl, rfl⟩ := oneVma_slot hs
  exact h

/-- The empty vma of `mmap((void *) (START_VMAS_ADDR + 1), 0, ...)`. -/
def emptyVma : Vma where
  used := true
  inode := none
  offset := 0
  filesz := 0
  start := START_VMAS_ADDR + 1
  length := 0
  perm := 0
  flags := MAP_PRIVATE

/-- With that vma, a range of one page. -/
theorem getfreevrange_isLeast_emptyVma :
    ∃ r, getfreevrange (.proc 0) 4096 (oneVma emptyVma) = .ok (r, oneVma emptyVma) ∧
      (r = 0 ↔ ∀ a, ¬ FitsAt Vma.Pages (oneVma emptyVma) (.proc 0) 4096 a) ∧
      (r ≠ 0 → IsLeast {a | FitsAt Vma.Pages (oneVma emptyVma) (.proc 0) 4096 a} r.toNat) := by
  obtain ⟨r, hrun, hzero, hleast, -⟩ :=
    getfreevrange_isLeast (oneVma_below (v := emptyVma) (by decide)) 4096 (by decide) (by decide)
  exact ⟨r, hrun, hzero, hleast⟩

/-- The first page of the search is passed over, although no byte of a vma is on it. -/
theorem getfreevrange_emptyVma :
    BelowMaxva (oneVma emptyVma) (.proc 0) ∧
      ¬ ∃ r, getfreevrange (.proc 0) 4096 (oneVma emptyVma) = .ok (r, oneVma emptyVma) ∧
        (r ≠ 0 → IsLeast {a | FitsAt Vma.HasByte (oneVma emptyVma) (.proc 0) 4096 a} r.toNat) := by
  refine ⟨oneVma_below (by decide), ?_⟩
  rintro ⟨r, hrun, hleast⟩
  have hval : getfreevrange (.proc 0) 4096 (oneVma emptyVma) =
      .ok (START_VMAS_ADDR + 4096, oneVma emptyVma) := rfl
  obtain rfl : START_VMAS_ADDR + 4096 = r :=
    congrArg Prod.fst (Except.ok.inj (hval.symm.trans hrun))
  have hfits : FitsAt Vma.HasByte (oneVma emptyVma) (.proc 0) 4096 START_VMAS_ADDR.toNat := by
    refine ⟨le_rfl, by decide, by decide, fun i j _ hs x _ _ => ?_⟩
    obtain ⟨rfl, rfl⟩ := oneVma_slot hs
    rintro ⟨y, h1, h2, -⟩
    exact absurd (h1.trans_lt h2) (by decide)
  exact absurd ((hleast (by decide)).2 hfits) (by decide)

end Xv6
