import Xv6.Spaces

/-!
# The code of `kernel/uvm.c` keeps address spaces well formed

`Good L ext own s a` joins the three parts of the invariant: physical memory represents `a`, the
address spaces in `L` are well formed, and every reference to a page is counted.  For every
function that changes an address space there is a specification: what it does to the pool, the
arrays and the tables, and that `Good` is kept.
-/

namespace Xv6

open Bytes Wp

variable [Layout]

/-- The invariant of the virtual-memory code; `ext` are the references to pages that are not user
entries. -/
structure Good (L : UvmPtr → Prop) (ext : ℕ → ℕ∞) (own : ℕ → Owner) (s : Kernel) (a : Maps) :
    Prop where
  rep : Rep own s.phys a
  spaces : Spaces L s a
  counted : Counted a userPlaces ext

variable {L : UvmPtr → Prop} {ext : ℕ → ℕ∞} {E : Stop → Prop} {own : ℕ → Owner} {s : Kernel}
  {a : Maps} {u : UvmPtr}

/-! ### New vmas -/

/-- The file system after `idup` of a pointer that may be null. -/
def Fs.addRef (fs : Fs) : Option ℕ → Fs
  | none => fs
  | some ip => { fs with
      itable := Function.update fs.itable ip { fs.itable ip with ref := (fs.itable ip).ref + 1 } }

omit [Layout] in
@[simp]
theorem wp_idupOpt (inode : Option ℕ) {Q : Unit → Fs → Prop} (fs : Fs) :
    wp (idupOpt inode) E Q fs ↔ Q () (fs.addRef inode) := by
  cases inode <;> exact Iff.rfl

/-- The state after a new record `j` with contents `v` has joined the array of `u` at `i`. -/
def Kernel.addVma (s : Kernel) (u : UvmPtr) (i j : ℕ) (v : Vma) : Kernel :=
  ((s.setVma j v).setSlot u i (some j)).io s.phys (s.fs.addRef v.inode)

omit [Layout] in
/-- **What `uvm_map` does.** -/
theorem uvmMap_spec {addr length : U64} {perm flags : U32} {inode : Option ℕ} {offset filesz : U32}
    {Q : U64 → Kernel → Prop} (hfail : Q (-1) s)
    (hok : ∀ i j, freeSlot s u = some i → freeVma s = some j →
      uvmIsrangefree s u addr length = true →
      Q addr (s.addVma u i j ⟨true, inode, offset, filesz, addr, length, perm, flags⟩)) :
    wp (uvmMap u addr length perm flags inode offset filesz) E Q s := by
  rw [uvmMap, wp_ite]
  by_cases h1 : inode = none ∧ flags ≠ MAP_PRIVATE
  · rw [if_pos h1]
    exact hfail
  rw [if_neg h1, wp_bind, wp_get, wp_ite]
  by_cases h2 : uvmIsrangefree s u addr length = true
  swap
  · rw [if_pos (by simpa using h2)]
    exact hfail
  rw [if_neg (by simpa using h2), wp_bind, vmaalloc, wp_bind, wp_get]
  rcases hi : freeSlot s u with _ | i
  · exact hfail
  rcases hj : freeVma s with _ | j
  · exact hfail
  simp only [wp_bind, wp_set, wp_pure, vmaInit, wp_liftF, wp_idupOpt, wp_modify]
  have hr := hok i j hi hj h2
  simpa only [Kernel.addVma, Kernel.setVma, Kernel.setSlot, Kernel.setUvm, Kernel.io,
    Function.update_idem, Function.update_self] using hr

omit [Layout] in
/-- A record that is not in use is in no array. -/
theorem Spaces.not_slot (h : Spaces L s a) {j : ℕ} (hj : (s.vmas j).used = false) (u : UvmPtr)
    (i : ℕ) : s.slot u i ≠ some j := by
  intro hs
  have := h.used u i j hs
  rw [hj] at this
  cases this

theorem Good.addVma (h : Good L ext own s a) (hu : L u) {i j : ℕ} {v : Vma}
    (hi : freeSlot s u = some i) (hj : freeVma s = some j)
    (hfree : uvmIsrangefree s u v.start v.length = true) (hused : v.used = true) (hok : v.Ok)
    (hperm : v.perm.toNat < 1024) : Good L ext own (s.addVma u i j v) a := by
  obtain ⟨hi, hnone⟩ := freeSlot_some hi
  have hns := h.spaces.not_slot (freeVma_some hj)
  refine ⟨h.rep, ?_, h.counted⟩
  have h1 := (h.spaces.setVma_unused hns v).setSlot (u := u) (i := i) hu hi hnone hns
    (by rwa [Kernel.setVma_vmas_self]) (by rwa [Kernel.setVma_vmas_self])
    (by rwa [Kernel.setVma_vmas_self]) ?_
  · exact h1.frame rfl rfl
  · intro i' j' hs n hn
    rw [Kernel.setVma_slot] at hs
    rw [Kernel.setVma_vmas_self] at hn
    have hne : j' ≠ j := fun he => hns u i' (he ▸ hs)
    rw [Kernel.setVma_vmas_of_ne hne]
    exact Vma.disjoint_of_le hok (h.spaces.ok u i' j' hs)
      (uvmIsrangefree_iff.1 hfree i' j' (h.spaces.bound u i' j' hs) hs) hn

/-! ### Page faults -/

theorem Allocatable.lt {g : ℕ} (hg : Allocatable g) : g < 2 ^ 44 := by
  have := hg.2
  omega

omit [Layout] in
theorem vpn_lt_vTrapframe {v : Vma} (h : v.Ok) {va : U64} (hva : v.has va = true) :
    vpn va < vTrapframe := (h.pages_of_has hva).2.trans_le h.past_le

/-- A page fault changes one entry. -/
theorem Completes.leaf_other {r v : ℕ} {perm ret : U64} {fill : (ℕ → Byte) → Prop} {a' : Maps}
    (h : Completes a r v perm fill ret a') {r' v' : ℕ} (hne : ¬ (r' = r ∧ v' = v)) :
    a'.leaf r' v' = a.leaf r' v' := by
  cases h with
  | refused => rfl
  | fresh => rw [Maps.setLeaf_leaf_of_ne _ _ hne, Maps.setPage_leaf]
  | single => exact Maps.setLeaf_leaf_of_ne _ _ hne
  | copied => rw [Maps.decref_leaf, Maps.setLeaf_leaf_of_ne _ _ hne, Maps.setPage_leaf]

/-- What the new entry of a page fault is like. -/
theorem Completes.leaf_cases {r v : ℕ} {perm ret : U64} {fill : (ℕ → Byte) → Prop} {a' : Maps}
    (h : Completes a r v perm fill ret a') (hperm : IsFlags perm) :
    (ret = 0 ∧ a' = a) ∨ (Valid (a'.leaf r v) ∧ a'.leaf r v &&& PTE_U ≠ 0 ∧
      pte2pa (a'.leaf r v) = ret ∧ ∀ r' v', ¬ (r' = r ∧ v' = v) → a'.leaf r' v' =
        a.leaf r' v') := by
  have hother : ∀ r' v', ¬ (r' = r ∧ v' = v) → a'.leaf r' v' = a.leaf r' v' :=
    fun _ _ hne => h.leaf_other hne
  cases h with
  | refused => exact Or.inl ⟨rfl, rfl⟩
  | fresh hinv hg hpage hd =>
    refine Or.inr ⟨?_, ?_, ?_, hother⟩ <;> rw [Maps.setLeaf_leaf_self]
    · exact or_and_ne_left (or_and_ne_right _ (by decide)) _
    · exact or_and_ne_right _ (by decide)
    · rw [BitVec.or_assoc, BitVec.or_assoc]
      exact pte2pa_pa2pte_or hg.lt (hperm.or (by decide))
  | single hv hu hp h1 =>
    refine Or.inr ⟨?_, ?_, ?_, hother⟩ <;> rw [Maps.setLeaf_leaf_self]
    · exact or_and_ne_left hv _
    · exact or_and_ne_left hu _
    · exact pte2pa_or_flags _ (by decide)
  | copied hv hu hp h1 hg hpage =>
    refine Or.inr ⟨?_, ?_, ?_, hother⟩ <;> rw [Maps.decref_leaf, Maps.setLeaf_leaf_self]
    · exact or_and_ne_left (or_and_ne_right _ (by rwa [pteFlags_and (by decide)])) _
    · exact or_and_ne_left (or_and_ne_right _ (by rwa [pteFlags_and (by decide)])) _
    · rw [BitVec.or_assoc]
      exact pte2pa_pa2pte_or hg.lt ((isFlags_pteFlags _).or (by decide))

/-- The frame of the new entry was free, or it is the frame of the old entry, which was alone. -/
theorem Completes.frame_cases {r v : ℕ} {perm ret : U64} {fill : (ℕ → Byte) → Prop} {a' : Maps}
    (h : Completes a r v perm fill ret a') (hperm : IsFlags perm) :
    a' = a ∨ a.page (pteFrame (a'.leaf r v)) = none ∨
      (Valid (a.leaf r v) ∧ pteFrame (a'.leaf r v) = pteFrame (a.leaf r v) ∧
        ∃ p, a.page (pteFrame (a.leaf r v)) = some p ∧ p.refs = 1) := by
  -- the frame of the entry is the page that is returned
  have hnew : ∀ g, Allocatable g → ret = pageAddr g → a.page g = none →
      a.page (pteFrame (a'.leaf r v)) = none := by
    rintro g hg rfl hpage
    rcases h.leaf_cases hperm with ⟨h0, -⟩ | ⟨-, -, hpa, -⟩
    · exact absurd h0 hg.pageAddr_ne_zero
    · rwa [pteFrame_of_pte2pa (by have := hg.lt; omega) hpa]
  cases h with
  | refused => exact .inl rfl
  | fresh hinv hg hpage hd => exact .inr (.inl (hnew _ hg rfl hpage))
  | @single p hv hu hp h1 =>
    refine .inr (.inr ⟨hv, ?_, p, hp, h1⟩)
    rw [Maps.setLeaf_leaf_self, pteFrame, pteFrame, pte2pa_or_flags _ (by decide)]
  | copied hv hu hp h1 hg hpage => exact .inr (.inl (hnew _ hg rfl hpage))

/-- A page fault keeps the invariant. -/
theorem Good.complete (h : Good L ext own s a) (hu : L u) {va ret : U64} {j : ℕ}
    (hj : uvmVa2vma s u va = some j) {own' : ℕ → Owner} {a' : Maps} {phys : Phys} (fs : Fs)
    (hrep : Rep own' phys a') {fill : (ℕ → Byte) → Prop}
    (hc : Completes a (s.root u) (vpn va) ((s.vmas j).perm.setWidth 64) fill ret a') :
    Good L ext own' (s.io phys fs) a' := by
  obtain ⟨i, hs, hhas⟩ := uvmVa2vma_some hj
  have hok := h.spaces.ok u i j hs
  have hperm := isFlags_setWidth (h.spaces.perm u i j hs)
  have hpage : (s.root u, vpn va) ∈ userPlaces := vpn_lt_vTrapframe hok hhas
  refine ⟨hrep, ?_, ?_⟩
  · rcases hc.leaf_cases hperm with ⟨-, rfl⟩ | ⟨hv, hU, -, hother⟩
    · exact h.spaces.frame rfl rfl
    refine (Spaces.setMaps h.spaces (b := a') ?_ ?_ ?_).frame rfl rfl
    · intro u' hu'
      have : a'.root = a.root := by cases hc <;> simp
      rw [this]
      exact (h.spaces.table u' hu').2
    · intro u' v hu' hv'
      by_cases he : s.root u' = s.root u ∧ v = vpn va
      · obtain rfl := h.spaces.table_inj u' u hu' hu he.1
        exact Or.inr ⟨i, j, hs, he.2 ▸ hok.pages_of_has hhas⟩
      · rw [hother _ _ he] at hv'
        exact Or.inl hv'
    · intro u' v hu' hv'
      by_cases he : s.root u' = s.root u ∧ v = vpn va
      · rw [he.1, he.2]
        exact pteFlags_ne_of_U hU
      · rw [hother _ _ he] at hv' ⊢
        exact h.spaces.leaf u' v hu' hv'
  · cases hc with
    | refused => exact h.counted
    | fresh hinv hg hpage' hd =>
      refine h.counted.mapFresh hpage hinv hpage' ?_ _
      rw [BitVec.or_assoc, BitVec.or_assoc]
      exact target_mk hg.lt (hperm.or (by decide))
        (or_and_ne_right _ (or_and_ne_right _ (by decide)))
    | single hv hU hp h1 =>
      refine h.counted.setLeaf_same ?_
      rw [Maps.ptr, target_of_valid hv, target_of_valid (or_and_ne_left hv _), pteFrame, pteFrame,
        pte2pa_or_flags _ (by decide)]
    | copied hv hU hp h1 hg hpage' =>
      refine h.counted.copy hpage (target_of_valid hv) hpage' ?_ _
      rw [BitVec.or_assoc]
      refine target_mk hg.lt ((isFlags_pteFlags _).or (by decide)) ?_
      exact or_and_ne_right _ (or_and_ne_left (by rwa [pteFlags_and (by decide)]) _)

end Xv6
