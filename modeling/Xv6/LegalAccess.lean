import Xv6.FaultFile
import Xv6.Spaces
import Xv6.File
import Xv6.Dir

/-!
# Legal accesses and the lookup of a page fault

`usertrap` passes the base of the faulting page to `uvm_completemap`, and `uvm_va2vma` looks for a
vma that holds the base.  The address itself may be in a vma that begins later in the page.
-/

namespace Xv6

open Bytes Wp

theorem findSome?_range_eq_some {α : Type} {f : ℕ → Option α} {n : ℕ} {b : α} :
    (List.range n).findSome? f = some b ↔ ∃ i < n, f i = some b ∧ ∀ i' < i, f i' = none := by
  induction n with
  | zero => simp
  | succ n ih =>
    rw [List.range_succ, List.findSome?_append, Option.or_eq_some_iff, ih]
    simp only [List.findSome?_cons, List.findSome?_nil, List.findSome?_eq_none_iff, List.mem_range]
    constructor
    · rintro (⟨i, hi, hb, hbefore⟩ | ⟨hnone, hb⟩)
      · exact ⟨i, by omega, hb, hbefore⟩
      · refine ⟨n, by omega, ?_, hnone⟩
        cases hf : f n with
        | none => simp [hf] at hb
        | some b' => simpa [hf] using hb
    · rintro ⟨i, hi, hb, hbefore⟩
      rcases Nat.lt_succ_iff_lt_or_eq.1 hi with hlt | rfl
      · exact Or.inl ⟨i, hlt, hb, hbefore⟩
      · exact Or.inr ⟨hbefore, by simp [hb]⟩

/-- `uvm_va2vma` finds the first vma in the order of the array. -/
theorem uvmVa2vma_eq_some_iff {s : Kernel} {u : UvmPtr} {va : U64} {j : ℕ} :
    uvmVa2vma s u va = some j ↔
      ∃ i < VMA_SIZE, s.slot u i = some j ∧ (s.vmas j).has va = true ∧
        ∀ i' < i, ∀ j', s.slot u i' = some j' → (s.vmas j').has va = false := by
  unfold uvmVa2vma Kernel.slot
  rw [findSome?_range_eq_some]
  simp only [Option.filter_eq_some_iff, Option.filter_eq_none_iff, and_assoc, Bool.not_eq_true]

section

variable [Layout]

/-- The memory that a first touch of the page `va` needs: an entry of the page table, which is not
valid yet, and a page. -/
def fetchable (pagetable va : U64) : P Bool := do
  match ← pgtWalk pagetable va true with
  | none => return false
  | some a =>
    let pte ← loadPte a
    if pte &&& PTE_V ≠ 0 then return false
    return decide ((← kalloc) ≠ 0)

/-- The page at `va` is not resident, and `kalloc` does not fail when it is brought in. -/
def Fetchable (s : Kernel) (u : UvmPtr) (va : U64) : Prop :=
  ∃ p, fetchable (s.uvms u).pagetable va s.phys = .ok (true, p)

/-! ### Accesses that do not leave RAM -/

/-- `a` is an address in RAM. -/
def InRam (a : U64) : Prop := KERNBASE ≤ a ∧ a < PHYSTOP

section

variable {E : Stop → Prop} {a : U64} {p : Phys}

omit [Layout]

theorem wp_frame_inRam (h : InRam a) {Q : ℕ → Phys → Prop} :
    wp (frame a) E Q p ↔ Q (a.toNat / 4096) p := by
  rw [frame, if_pos (show KERNBASE ≤ a ∧ a < PHYSTOP from h), wp_pure]

theorem storePte_inRam (h : InRam a) (v : U64) : wp (storePte a v) E (fun _ _ => True) p := by
  rw [storePte, wp_bind, wp_frame_inRam h]
  trivial

theorem memset_inRam (h : InRam a) (c : Byte) : wp (memset a c) E (fun _ _ => True) p := by
  rw [memset, wp_bind, wp_frame_inRam h]
  trivial

theorem writeBytes_inRam (h : InRam a) (bs : List Byte) :
    wp (writeBytes a bs) E (fun _ _ => True) p := by
  rw [writeBytes, wp_bind, wp_frame_inRam h]
  trivial

/-- A `pte_t *` that can be read is in RAM. -/
theorem loadPte_inRam {Q : U64 → Phys → Prop} (h : wp (loadPte a) (fun _ => False) Q p) :
    InRam a ∧ wp (loadPte a) E (fun pte t => t = p ∧ Q pte p) p := by
  have hram : InRam a := by
    by_contra hn
    rw [loadPte, wp_bind, frame, if_neg (show ¬ (KERNBASE ≤ a ∧ a < PHYSTOP) from hn)] at h
    exact h
  rw [loadPte, wp_bind, wp_frame_inRam hram] at h ⊢
  exact ⟨hram, rfl, h⟩

theorem kalloc_inRam {Q : U64 → Phys → Prop} (h : wp kalloc (fun _ => False) Q p) :
    wp kalloc E (fun pa t => Q pa t ∧ (pa ≠ 0 → InRam pa)) p := by
  rw [kalloc, wp_bind, wp_get] at h ⊢
  cases hl : p.freelist with
  | nil =>
    rw [hl] at h
    exact ⟨h, fun hne => absurd rfl hne⟩
  | cons g rest =>
    rw [hl] at h
    simp only [wp_bind, wp_set, wp_pure, memset] at h ⊢
    have hram : InRam (BitVec.ofNat 64 g <<< 12) := by
      by_contra hn
      rw [frame, if_neg (show ¬ (KERNBASE ≤ _ ∧ _ < PHYSTOP) from hn)] at h
      exact h
    rw [wp_frame_inRam hram] at h ⊢
    exact ⟨h, fun _ => hram⟩

end

/-- With memory for the page and a file that can be read, the fault is resolved. -/
theorem completemap_fetches {s : Kernel} {u : UvmPtr} {va perm : U64} {j : ℕ}
    (hal : va % PGSIZE = 0) (hlt : va < MAXVA) (hj : uvmVa2vma s u va = some j)
    (hperm : (s.vmas j).perm.setWidth 64 &&& perm ≠ 0) (hmem : Fetchable s u va)
    (hread : ∃ bs fs, readPage (s.vmas j) va s.fs = .ok (bs, fs)) :
    ∃ pa t, uvmCompletemap u va perm s = .ok (pa, t) ∧ pa ≠ 0 := by
  suffices h : wp (uvmCompletemap u va perm) (fun _ => False) (fun pa _ => pa ≠ 0) s by
    obtain ⟨pa, t, hrun, hpa⟩ := h.exists_ok
    exact ⟨pa, t, hrun, hpa⟩
  obtain ⟨q, hq⟩ := hmem
  obtain ⟨bs, fs, hbs⟩ := hread
  have hroom :
      wp (fetchable (s.uvms u).pagetable va) (fun _ => False) (fun r _ => r = true) s.phys :=
    (wp_of_ok hq).2 rfl
  have hrange : ¬ (va % PGSIZE ≠ 0 ∨ MAXVA ≤ va) := by
    rintro (h | h)
    · exact h hal
    · exact absurd h (BitVec.not_le.2 hlt)
  rw [uvmCompletemap, if_neg hrange, wp_bind, wp_get, hj]
  dsimp only
  rw [if_neg hperm, wp_bind, wp_liftP]
  rw [fetchable, wp_bind] at hroom
  refine hroom.mono fun x p hx => ?_
  cases x with
  | none => cases hx
  | some a =>
    dsimp only at hx ⊢
    rw [wp_bind] at hx
    obtain ⟨ha, hload⟩ := loadPte_inRam (E := fun _ => False) hx
    rw [completeEntry, wp_bind, wp_liftP]
    refine hload.mono fun pte p₁ hpte => ?_
    obtain ⟨rfl, hpte⟩ := hpte
    rw [wp_ite] at hpte ⊢
    by_cases hv : pte &&& PTE_V = 0
    swap
    · rw [if_pos hv] at hpte
      cases hpte
    rw [if_neg (not_not.2 hv), wp_bind] at hpte
    rw [if_pos hv, completeFresh, freshPage]
    simp only [wp_bind, wp_liftP, wp_liftF, wp_ite, wp_pure]
    refine (kalloc_inRam hpte).mono fun pa p₂ hpa => ?_
    obtain ⟨hpa, hram⟩ := hpa
    have hne : pa ≠ 0 := by simpa using hpa
    rw [if_neg hne]
    refine (storePte_inRam ha _).mono fun _ p₃ _ => ?_
    refine (memset_inRam (hram hne) _).mono fun _ p₄ _ => ?_
    rw [if_neg hne]
    exact (wp_of_ok (s := s.fs) hbs).2 ((writeBytes_inRam (hram hne) _).mono fun _ p₅ _ => hne)

/-- Without a vma for the page, or without the permission, the fault is refused. -/
theorem completemap_refuses {s : Kernel} {u : UvmPtr} {va perm : U64}
    (h : ¬ (va < MAXVA ∧ ∃ j, uvmVa2vma s u va = some j ∧
      (s.vmas j).perm.setWidth 64 &&& perm ≠ 0)) : uvmCompletemap u va perm s = .ok (0, s) := by
  unfold uvmCompletemap
  by_cases hrange : va % PGSIZE ≠ 0 ∨ MAXVA ≤ va
  · rw [if_pos hrange]
    rfl
  rw [if_neg hrange, bind_of_ok (a := s) (t := s) rfl]
  rw [not_or, BitVec.not_le] at hrange
  cases hj : uvmVa2vma s u va with
  | none => rfl
  | some j =>
    have hperm : (s.vmas j).perm.setWidth 64 &&& perm = 0 := by
      by_contra hne
      exact h ⟨hrange.2, j, hj, hne⟩
    dsimp only
    rw [if_pos hperm]
    rfl

omit [Layout] in
theorem pgRoundDown_lt_MAXVA {va : U64} : pgRoundDown va < MAXVA ↔ va < MAXVA := by
  have hmax : MAXVA.toNat = 2 ^ 38 := by decide
  rw [BitVec.lt_def, BitVec.lt_def, toNat_pgRoundDown, hmax]
  omega

omit [Layout] in
theorem pgRoundDown_aligned (va : U64) : pgRoundDown va % PGSIZE = 0 := by
  apply BitVec.eq_of_toNat_eq
  rw [BitVec.toNat_umod, toNat_pgRoundDown, show PGSIZE.toNat = 4096 by decide]
  simp

end

attribute [local instance] imageLayout

end Xv6
