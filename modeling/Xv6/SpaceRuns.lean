import Xv6.Prefault

/-!
# Address spaces over whole runs

What holds in every state reached by building address spaces, mapping, faults, copies, `fork`,
`exec`, unmapping and freeing.
-/

namespace Xv6

open Bytes Run Count

section

variable [Layout] {L : UvmPtr → Prop} {ext : ℕ → ℕ∞} {own : ℕ → Owner} {s : Kernel} {a : Maps}

/-- A walk finds the entry `w` for page `v` of the address space `u`. -/
def Kernel.Entry (s : Kernel) (u : UvmPtr) (v : ℕ) (w : U64) : Prop :=
  ∃ p, entryAt (s.uvms u).pagetable (pageAddr v) s.phys = .ok (w, p)

/-- The user pages of the address spaces in `L` that are mapped to the physical page `f`. -/
def Kernel.mapped (s : Kernel) (L : UvmPtr → Prop) (f : ℕ) : Set (UvmPtr × ℕ) :=
  {x | L x.1 ∧ x.2 < vTrapframe ∧ ∃ w, s.Entry x.1 x.2 w ∧ target w = some f}

theorem Tracked.entry_iff (h : Tracked L ext own s a) {u : UvmPtr} (hu : L u) {v : ℕ}
    (hv : v < vTrapframe) {w : U64} : s.Entry u v w ↔ w = a.leaf (s.root u) v := by
  obtain ⟨hpt, hr⟩ := h.spaces.table u hu
  have hV : vTrapframe = 0x3FFFFFE := rfl
  have hva : (pageAddr v).toNat = v * 4096 := toNat_pageAddr (by omega)
  have hlt : pageAddr v < MAXVA := by
    rw [BitVec.lt_def, hva, show MAXVA.toNat = 2 ^ 38 from rfl]
    omega
  have hrun := h.rep.entryAt_eq hr hlt
  rw [vpn, hva, Nat.mul_div_cancel _ (by norm_num)] at hrun
  simp [Kernel.Entry, hpt, hrun, eq_comm]

/-- The entries that map a page, with what the kernel has of it, do not exceed its reference
count. -/
theorem Tracked.mapped_le (h : Tracked L ext own s a) (f : ℕ) :
    (s.mapped L f).encard + ext f ≤ (s.phys.refs f).toNat := by
  have hle : (s.mapped L f).encard ≤ count userPlaces a.ptr f := by
    refine Set.encard_le_encard_of_injOn (f := fun x => (s.root x.1, x.2)) ?_ ?_
    · rintro ⟨u, v⟩ ⟨hu, hv, w, hw, hf⟩
      obtain rfl := (h.entry_iff hu hv).1 hw
      exact ⟨hv, hf⟩
    · rintro ⟨u, v⟩ ⟨hu, -⟩ ⟨u', v'⟩ ⟨hu', -⟩ he
      simp only [Prod.mk.injEq] at he
      rw [h.spaces.table_inj u u' hu hu' he.1, he.2]
  refine (add_le_add_left hle _).trans ((h.counted.counts f).symm.le.trans ?_)
  rw [Maps.refs, h.rep.alloc.page_eq]
  split_ifs <;> simp

theorem Rep.mem_freelist_iff {p : Phys} (h : Rep own p a) (f : ℕ) :
    f ∈ p.freelist ↔ Allocatable f ∧ p.refs f = 0 := by
  have hout := h.alloc.outside f
  have hcount := h.alloc.count f
  rw [← h.alloc.free f]
  cases ho : own f <;> simp_all [Owner.Count]
  omega

variable {s₀ s : SpaceSys}

/-- **No page in use is free.**  In every state reached, the free list has the pages without
references, each once; the reference count of a page is at least the number of user pages that are
mapped to it, and one more if it was taken for a trapframe. -/
theorem mapped_pages_are_counted (h0 : s₀.Start) (h : Reach SpaceSys.step PlainMaps s₀ s) :
    s.kernel.phys.freelist.Nodup ∧
    (∀ f, f ∈ s.kernel.phys.freelist ↔ Allocatable f ∧ s.kernel.phys.refs f = 0) ∧
    (∀ f, (s.kernel.mapped (· ∈ s.live) f).encard ≤ (s.kernel.phys.refs f).toNat) ∧
    ∀ f ∈ s.frames, (s.kernel.mapped (· ∈ s.live) f).encard + 1 ≤ (s.kernel.phys.refs f).toNat := by
  obtain ⟨ext, own, a, hT, hframes⟩ := h.invariant h0.inv fun _ _ _ hI hok hs => hI.step hok hs
  exact ⟨hT.rep.alloc.nodup, hT.rep.mem_freelist_iff, fun f => le_self_add.trans (hT.mapped_le f),
    fun f hf => (add_le_add_right (hframes f hf).1 _).trans (hT.mapped_le f)⟩

/-- **Address spaces keep their layout.**  In every state reached, a vma that is pointed to is in
use, not empty and below the trapframe; no two pointers share it, and vmas of one address space have
no page in common; and a valid entry of a page table is for a page of a vma and is in step with its
permissions. -/
theorem spaces_keep_layout (h0 : s₀.Start) (h : Reach SpaceSys.step PlainMaps s₀ s) :
    (∀ u i j, s.kernel.slot u i = some j → u ∈ s.live ∧ (s.kernel.vmas j).used = true ∧
      (s.kernel.vmas j).Ok) ∧
    (∀ u i j u' i' j', s.kernel.slot u i = some j → s.kernel.slot u' i' = some j' →
      (u, i) ≠ (u', i') → j ≠ j' ∧
        (u = u' → ∀ v, (s.kernel.vmas j).Pages v → ¬ (s.kernel.vmas j').Pages v)) ∧
    ∀ u ∈ s.live, ∀ v < vTrapframe, ∀ w, s.kernel.Entry u v w → Valid w → ∃ i j,
      s.kernel.slot u i = some j ∧ (s.kernel.vmas j).Pages v ∧
      Tracks ((s.kernel.vmas j).perm.setWidth 64) w := by
  obtain ⟨ext, own, a, hT, -⟩ := h.invariant h0.inv fun _ _ _ hI hok hs => hI.step hok hs
  have hS := hT.spaces
  refine ⟨fun u i j hj => ⟨hS.live u i j hj, hS.used u i j hj, hS.ok u i j hj⟩,
    fun u i j u' i' j' hj hj' hne => ⟨?_, ?_⟩, fun u hu v hv w hw hvalid => ?_⟩
  · rintro rfl
    obtain ⟨rfl, rfl⟩ := hS.inj u i u' i' j hj hj'
    exact hne rfl
  · rintro rfl
    exact hS.disjoint u i i' j j' hj hj' fun he => hne (by rw [he])
  · obtain rfl := (hT.entry_iff hu hv).1 hw
    obtain rfl | rfl | ⟨i, j, hj, hpage⟩ := hS.cover u v hu hvalid
    · exact absurd hv (lt_irrefl _)
    · exact absurd hv (by decide)
    · exact ⟨i, j, hj, hpage, hT.tracks u i j v hj hpage hvalid⟩

end

attribute [local instance] imageLayout

/-- A process maps its file, stores to the page, and forks. -/
def forkedRun : List SpaceEvent :=
  [.frame, .new (.proc 0) 0x80030, .map (.proc 0) 0x1000 4096 6 MAP_PRIVATE (some 0) 0 1,
    .store (.proc 0) 0x1000 7, .frame, .new (.proc 1) 0x80037, .dup (.proc 0) (.proc 1)]

/-- The two processes share the page. -/
theorem forkedRun_reached : ∃ s, Reach SpaceSys.step PlainMaps (filePages 24) s ∧
    .proc 0 ∈ s.live ∧ .proc 1 ∈ s.live ∧ 0x80037 ∈ s.frames ∧
    s.kernel.slot (.proc 0) 0 = some 0 ∧ s.kernel.slot (.proc 1) 0 = some 1 ∧
    s.kernel.phys.refs 0x80036 = 2 ∧ ∃ w, Valid w ∧ target w = some 0x80036 ∧
      s.kernel.Entry (.proc 0) 1 w ∧ s.kernel.Entry (.proc 1) 1 w := by
  have hrun : (runsOk SpaceSys.step PlainMaps forkedRun (filePages 24)).map (fun s => decide (
      (.proc 0 ∈ s.live ∧ .proc 1 ∈ s.live ∧ 0x80037 ∈ s.frames ∧
        s.kernel.slot (.proc 0) 0 = some 0 ∧ s.kernel.slot (.proc 1) 0 = some 1 ∧
        s.kernel.phys.refs 0x80036 = 2) ∧
      resultOf (entryAt (s.kernel.uvms (.proc 0)).pagetable (pageAddr 1) s.kernel.phys) =
        some 0x2000d813 ∧
      resultOf (entryAt (s.kernel.uvms (.proc 1)).pagetable (pageAddr 1) s.kernel.phys) =
        some 0x2000d813)) = some true := by
    decide +kernel
  obtain ⟨s, hs, hfacts⟩ := Option.map_eq_some_iff.1 hrun
  obtain ⟨⟨h0, h1, hf, hs0, hs1, href⟩, hw0, hw1⟩ := of_decide_eq_true hfacts
  exact ⟨s, reach_of_runsOk hs, h0, h1, hf, hs0, hs1, href, 0x2000d813, by decide, by decide,
    exists_ok_of_resultOf hw0, exists_ok_of_resultOf hw1⟩

theorem mapped_pages_are_counted_fork :
    ∃ s, Reach SpaceSys.step PlainMaps (filePages 24) s ∧
      {(.proc 0, 1), (.proc 1, 1)} ⊆ s.kernel.mapped (· ∈ s.live) 0x80036 ∧
      (s.kernel.mapped (· ∈ s.live) 0x80036).encard ≤ 2 ∧
      (s.kernel.mapped (· ∈ s.live) 0x80037).encard + 1 ≤ (s.kernel.phys.refs 0x80037).toNat := by
  obtain ⟨s, h, h0, h1, hf, -, -, href, w, -, hw, hw0, hw1⟩ := forkedRun_reached
  obtain ⟨-, -, hcount, hframe⟩ := mapped_pages_are_counted (filePages_start (by decide)) h
  refine ⟨s, h, ?_, ?_, hframe _ hf⟩
  · rintro x (rfl | rfl)
    · exact ⟨h0, by decide, w, hw0, hw⟩
    · exact ⟨h1, by decide, w, hw1, hw⟩
  · have hle := hcount 0x80036
    rw [href] at hle
    exact hle

theorem spaces_keep_layout_fork : ∃ s, Reach SpaceSys.step PlainMaps (filePages 24) s ∧
    ∃ j j', s.kernel.slot (.proc 0) 0 = some j ∧ s.kernel.slot (.proc 1) 0 = some j' ∧ j ≠ j' ∧
      (s.kernel.vmas j').Ok ∧ ∃ w, s.kernel.Entry (.proc 1) 1 w ∧ Valid w ∧ ∃ i k,
        s.kernel.slot (.proc 1) i = some k ∧ (s.kernel.vmas k).Pages 1 ∧
        Tracks ((s.kernel.vmas k).perm.setWidth 64) w := by
  obtain ⟨s, h, -, h1, -, hs0, hs1, -, w, hv, -, -, hw⟩ := forkedRun_reached
  obtain ⟨hok, hapart, hcover⟩ := spaces_keep_layout (filePages_start (by decide)) h
  exact ⟨s, h, 0, 1, hs0, hs1, (hapart _ _ _ _ _ _ hs0 hs1 (by decide)).1, (hok _ _ _ hs1).2.2, w,
    hw, hv, hcover _ h1 1 (by decide) w hw hv⟩

end Xv6
