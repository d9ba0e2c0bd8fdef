import Xv6.UvmSpec

/-!
# Unmapping

What `uvm_unmap` does with any arguments (`uvmUnmap_spec`), and that it keeps address spaces well
formed when the range is a part of a vma at one of its ends; from this the heap and `uvm_free`.
-/

namespace Xv6

open Bytes Wp

variable [Layout]

variable {L : UvmPtr → Prop} {ext : ℕ → ℕ∞} {E : Stop → Prop} {own : ℕ → Owner} {s : Kernel}
  {a : Maps} {u : UvmPtr}

/-! ### The write-back -/

omit [Layout] in
/-- Reading memory stops only at a fault. -/
theorem readBytes_frame (hE : E .fault) (x : U64) (n : ℕ) (p : Phys) :
    wp (readBytes x n) E (fun _ t => t = p) p := by
  unfold readBytes frame
  simp only [wp_bind, wp_ite, wp_pure, wp_throw, wp_get]
  split_ifs
  exact hE

/-- The write-back changes the file system only. -/
theorem writeBackPage_spec {r : ℕ} (h : Rep own s.phys a) (hr : a.root r) (vma : Vma) (ip : ℕ)
    (addr length va : U64) (hE : ∀ e, FsStop e → E e)
    (hwrite : E (.panic "uvm_unmap: write error\n")) :
    wp (writeBackPage (pageAddr r) vma ip addr length va) E
      (fun _ t => ∃ fs, t = s.io s.phys fs) s := by
  rw [writeBackPage, wp_bind, wp_liftP]
  refine pgtGetpa_spec h hr va ?_
  rw [wp_ite]
  by_cases h0 : a.getpa r va = 0
  · rw [if_pos h0]
    exact ⟨s.fs, rfl⟩
  rw [if_neg h0]
  dsimp only
  generalize umin (umin _ _) _ = va1
  rw [wp_ite]
  by_cases h1 : va1 ≤ umax va addr
  · rw [if_pos h1]
    exact ⟨s.fs, rfl⟩
  rw [if_neg h1, wp_bind, wp_liftP]
  refine (readBytes_frame (hE _ trivial) _ _ _).mono fun bs p hp => ?_
  subst hp
  rw [wp_bind, wp_liftF]
  refine ((fsOnly_writei _ _ _).wp hE _).mono fun w fs _ => ?_
  rw [wp_panicIf]
  split_ifs
  · exact hwrite
  · exact ⟨fs, rfl⟩

theorem writeBack_spec {r : ℕ} (h : Rep own s.phys a) (hr : a.root r) (vma : Vma)
    (addr length : U64) (hE : ∀ e, FsStop e → E e)
    (hwrite : E (.panic "uvm_unmap: write error\n")) :
    wp (writeBack (pageAddr r) vma addr length) E (fun _ t => ∃ fs, t = s.io s.phys fs) s := by
  rw [writeBack, wp_bind, wp_liftF]
  refine (fsOnly_fsBeginOp.wp hE _).mono fun _ fs₀ _ => ?_
  split
  · exact hE _ (by decide : _ ∈ fsPanics)
  rename_i ip _
  simp only [wp_bind, wp_liftF]
  refine ((fsOnly_ilock ip).wp hE _).mono fun _ fs₁ _ => ?_
  have hloop : wp (loop (fun i => writeBackPage (pageAddr r) vma ip addr length
      (pageNo (pgRoundDown addr) i)) 0 (pagesIn (pgRoundDown addr) (pgRoundUp (addr + length)))) E
      (fun _ t => ∃ fs, t = s.io s.phys fs) (s.io s.phys fs₁) := by
    refine wp_loop (fun _ t => ∃ fs, t = s.io s.phys fs) ⟨fs₁, rfl⟩ ?_
    rintro i t - - ⟨fs, rfl⟩
    refine (writeBackPage_spec (s := s.io s.phys fs) h hr vma ip addr length _ hE hwrite).mono
      fun _ t ht => ?_
    obtain ⟨fs', rfl⟩ := ht
    exact ⟨fs', rfl⟩
  refine hloop.mono fun _ t ht => ?_
  obtain ⟨fs, rfl⟩ := ht
  refine ((fsOnly_iunlock ip).wp hE _).mono fun _ fs₂ _ => ?_
  exact (fsOnly_fsEndOp.wp hE _).mono fun _ fs₃ _ => ⟨fs₃, rfl⟩

omit [Layout] in
theorem fsOnly_iputOp (inode : Option ℕ) : FsOnly (iputOp inode) := by
  cases inode with
  | none => exact .pure ()
  | some ip =>
    exact .bind fsOnly_fsBeginOp fun _ => .bind (fsOnly_iput ip) fun _ => fsOnly_fsEndOp

omit [Layout] in
theorem vmafree_wp (j : ℕ) (hiput : wp (iputOp (s.vmas j).inode) E (fun _ _ => True) s.fs) :
    wp (vmafree j) E (fun _ t =>
      ∃ fs, iputOp (s.vmas j).inode s.fs = .ok ((), fs) ∧
        t = (s.setVma j { s.vmas j with used := false }).io s.phys fs) s := by
  simp only [vmafree, wp_bind, wp_get, wp_liftF, wp_modify]
  exact hiput.run.mono fun _ fs hfs => ⟨fs, hfs.1, rfl⟩

/-- `pgt_deallocunmap` may run on a range of table `r`: it panics only as `E` allows. -/
structure CanUnmap (E : Stop → Prop) (a : Maps) (r : ℕ) (lo hi : U64) : Prop where
  range : badRange lo hi → E (.panic "pgt_unmap_impl: Invalid range\n")
  leaf : ∀ v, vpn lo ≤ v → v < vpn hi → Valid (a.leaf r v) → pteFlags (a.leaf r v) = PTE_V →
    E (.panic "uvmunmap: not a leaf")
  free : ∀ i, i < vpn hi - vpn lo → Valid (a.leaf r (vpn lo + i)) →
    CanFree E (a.unmap r (vpn lo) true i) (a.leaf r (vpn lo + i))

theorem pgtDeallocunmap_spec {r : ℕ} {p : Phys} (h : Rep own p a) (hr : a.root r) {lo hi : U64}
    (hcan : CanUnmap E a r lo hi) :
    wp (pgtDeallocunmap (pageAddr r) lo hi) E (fun _ t =>
      ∃ own', Rep own' t (a.unmapTo r (lo, hi)) ∧
        (∀ f r l k, own' f = .node r l k ↔ own f = .node r l k) ∧ Outside p t) p :=
  pgtUnmapImpl_spec h hr hcan.range hcan.leaf fun _ => hcan.free

/-- What unmapping a private vma does to the file system: it drops the reference to the file when
the whole vma goes. -/
def UnmapFs (s : Kernel) (j : ℕ) (length : U64) (fs : Fs) : Prop :=
  (s.vmas j).flags ≠ MAP_SHARED →
    if (s.vmas j).length = length then iputOp (s.vmas j).inode s.fs = .ok ((), fs) else fs = s.fs

/-- The file system after the reference to the file has been dropped, if the whole vma goes. -/
def DropsFile (s : Kernel) (j : ℕ) (length : U64) (fs fs' : Fs) : Prop :=
  if (s.vmas j).length = length then iputOp (s.vmas j).inode fs = .ok ((), fs') else fs' = fs

theorem unmapVma_wp {r : ℕ} (h : Rep own s.phys a) (hr : a.root r) {j : ℕ} {addr length : U64}
    (hiput : (s.vmas j).length = length → wp (iputOp (s.vmas j).inode) E (fun _ _ => True) s.fs)
    (hcan : CanUnmap E a r (unmapRange (s.vmas j) addr length).1
      (unmapRange (s.vmas j) addr length).2) :
    wp (unmapVma u (pageAddr r) j (s.vmas j) addr length) E (fun _ t =>
      ∃ phys fs own', Rep own' phys (a.unmapTo r (unmapRange (s.vmas j) addr length)) ∧
        (∀ f r l k, own' f = .node r l k ↔ own f = .node r l k) ∧ Outside s.phys phys ∧
        DropsFile s j length s.fs fs ∧ t = (s.unmapped u j addr length).io phys fs) s := by
  rw [unmapVma, wp_ite]
  unfold unmapRange Kernel.unmapped DropsFile at *
  by_cases hw : (s.vmas j).length = length
  · simp only [if_pos hw, wp_bind, wp_liftP, wp_modify] at hcan ⊢
    refine (pgtDeallocunmap_spec h hr hcan).mono fun _ p hp => ?_
    obtain ⟨own', hrep, hsame, hout⟩ := hp
    refine (vmafree_wp (s := clearSlot (s.io p s.fs) u j) j (hiput hw)).mono fun _ t ht => ?_
    obtain ⟨fs, hfs, rfl⟩ := ht
    exact ⟨p, fs, own', hrep, hsame, hout, hfs, rfl⟩
  by_cases hf : addr = (s.vmas j).start
  · simp only [if_neg hw, if_pos hf, wp_bind, wp_liftP, wp_modify] at hcan ⊢
    refine (pgtDeallocunmap_spec h hr hcan).mono fun _ p hp => ?_
    obtain ⟨own', hrep, hsame, hout⟩ := hp
    exact ⟨p, s.fs, own', hrep, hsame, hout, rfl, rfl⟩
  · simp only [if_neg hw, if_neg hf, wp_bind, wp_liftP, wp_modify] at hcan ⊢
    refine (pgtDeallocunmap_spec h hr hcan).mono fun _ p hp => ?_
    obtain ⟨own', hrep, hsame, hout⟩ := hp
    exact ⟨p, s.fs, own', hrep, hsame, hout, rfl, rfl⟩

/-- **What `uvm_unmap` does**, for any arguments: it stops where the write-back or the `iput` of the
file does, or for one of its own panics; `R` is what is known of the file system after the
write-back. -/
theorem uvmUnmap_wp {r : ℕ} {R : ℕ → Fs → Prop} (h : Rep own s.phys a)
    (hpt : (s.uvms u).pagetable = pageAddr r) (hr : a.root r) {addr length : U64}
    (hnone : uvmVa2vma s u addr = none → E (.panic "uvm_unmap: not in vma!\n"))
    (hmode : ∀ j, uvmVa2vma s u addr = some j → addr ≠ (s.vmas j).start →
      addr + length ≠ (s.vmas j).stop → E (.panic "uvm_unmap: not a valid mode\n"))
    (hcan : ∀ j, uvmVa2vma s u addr = some j → CanUnmap E a r
      (unmapRange (s.vmas j) addr length).1 (unmapRange (s.vmas j) addr length).2)
    (hback : ∀ j, uvmVa2vma s u addr = some j → (s.vmas j).flags = MAP_SHARED →
      wp (writeBack (pageAddr r) (s.vmas j) addr length) E
        (fun _ t => ∃ fs, t = s.io s.phys fs ∧ R j fs) s)
    (hpriv : ∀ j, uvmVa2vma s u addr = some j → (s.vmas j).flags ≠ MAP_SHARED → R j s.fs)
    (hiput : ∀ j, uvmVa2vma s u addr = some j → (s.vmas j).length = length → ∀ fs, R j fs →
      wp (iputOp (s.vmas j).inode) E (fun _ _ => True) fs) :
    wp (uvmUnmap u addr length) E (fun _ t =>
      ∃ j phys fs₀ fs own', uvmVa2vma s u addr = some j ∧
        Rep own' phys (a.unmapTo r (unmapRange (s.vmas j) addr length)) ∧
        (∀ f r l k, own' f = .node r l k ↔ own f = .node r l k) ∧ Outside s.phys phys ∧
        R j fs₀ ∧ DropsFile s j length fs₀ fs ∧
        t = (s.unmapped u j addr length).io phys fs) s := by
  rw [uvmUnmap, wp_bind, wp_get]
  rcases hj : uvmVa2vma s u addr with _ | j
  · exact hnone hj
  dsimp only
  rw [wp_bind, wp_panicIf]
  by_cases hm : addr ≠ (s.vmas j).start ∧ addr + length ≠ (s.vmas j).stop
  · rw [if_pos hm]
    exact hmode j hj hm.1 hm.2
  rw [if_neg hm, hpt]
  -- the write-back leaves everything but the file system as it is
  have hrest (fs₀ : Fs) (hR : R j fs₀) :
      wp (unmapVma u (pageAddr r) j (s.vmas j) addr length) E (fun _ t =>
      ∃ j' phys fs₀ fs own', some j = some j' ∧
        Rep own' phys (a.unmapTo r (unmapRange (s.vmas j') addr length)) ∧
        (∀ f r l k, own' f = .node r l k ↔ own f = .node r l k) ∧ Outside s.phys phys ∧
        R j' fs₀ ∧ DropsFile s j' length fs₀ fs ∧ t = (s.unmapped u j' addr length).io phys fs)
        (s.io s.phys fs₀) := by
    refine (unmapVma_wp (s := s.io s.phys fs₀) h hr (fun hw => hiput j hj hw fs₀ hR)
      (hcan j hj)).mono fun _ t ht => ?_
    obtain ⟨phys, fs, own', hrep, hsame, hout, hfs, rfl⟩ := ht
    exact ⟨j, phys, fs₀, fs, own', rfl, hrep, hsame, hout, hR, hfs,
      Kernel.unmapped_io s.phys _ fs₀ _ _ _ _⟩
  rw [wp_ite]
  by_cases hsh : (s.vmas j).flags = MAP_SHARED
  · rw [if_pos hsh, wp_bind]
    refine (hback j hj hsh).mono fun _ t ht => ?_
    obtain ⟨fs, rfl, hR⟩ := ht
    exact hrest fs hR
  · rw [if_neg hsh]
    exact hrest s.fs (hpriv j hj hsh)

/-! ### Parts of a vma -/

/-- Removing entries of user pages never goes wrong. -/
theorem Good.canUnmap (h : Good L ext own s a) (hu : L u) {lo hi : U64} (hb : ¬ badRange lo hi)
    (hhi : vpn hi ≤ vTrapframe) : CanUnmap E a (s.root u) lo hi where
  range hbad := absurd hbad hb
  leaf v _ _ hv hfl := absurd hfl (h.spaces.leaf u v hu hv)
  free i hi' hv := by
    have hc : Counted (a.unmap (s.root u) (vpn lo) true i) userPlaces ext :=
      h.counted.unmap fun k _ h2 => show k < vTrapframe by omega
    have hsame : (a.unmap (s.root u) (vpn lo) true i).leaf (s.root u) (vpn lo + i) =
        a.leaf (s.root u) (vpn lo + i) := a.unmap_leaf_of_notMem true (by omega)
    have hp := hc.page_of_valid (r := s.root u) (v := vpn lo + i)
      (show vpn lo + i < vTrapframe by omega) (by rwa [hsame])
    rw [hsame] at hp
    exact Or.inl hp

/-- Unmapping a part of a vma at one of its ends stops only where the write-back or the `iput` of
the file does, and keeps the invariant. -/
theorem uvmUnmap_end_wp {R : Fs → Prop} (h : Good L ext own s a) {i j : ℕ}
    (hs : s.slot u i = some j) {addr length : U64} (he : (s.vmas j).End addr length)
    (hback : (s.vmas j).flags = MAP_SHARED →
      wp (writeBack (pageAddr (s.root u)) (s.vmas j) addr length) E
        (fun _ t => ∃ fs, t = s.io s.phys fs ∧ R fs) s)
    (hpriv : (s.vmas j).flags ≠ MAP_SHARED → R s.fs)
    (hiput : (s.vmas j).length = length → ∀ fs, R fs →
      wp (iputOp (s.vmas j).inode) E (fun _ _ => True) fs) :
    wp (uvmUnmap u addr length) E (fun _ t =>
      ∃ phys fs₀ fs own', t = (s.unmapped u j addr length).io phys fs ∧ R fs₀ ∧
        DropsFile s j length fs₀ fs ∧ (∀ f r l k, own' f = .node r l k ↔ own f = .node r l k) ∧
        Outside s.phys phys ∧
        Good L ext own' t (a.unmapTo (s.root u) (unmapRange (s.vmas j) addr length))) s := by
  have hu := h.spaces.live u i j hs
  have hok := h.spaces.ok u i j hs
  have hj := h.spaces.va2vma hs (he.has hok)
  obtain ⟨hb, -, hhi⟩ := he.range_ok hok
  have hthis {j' : ℕ} (hj' : uvmVa2vma s u addr = some j') : j' = j :=
    Option.some.inj (hj'.symm.trans hj)
  refine (uvmUnmap_wp (R := fun _ => R) h.rep (h.spaces.table u hu).1 (h.spaces.table u hu).2
    ?_ ?_ ?_ ?_ ?_ ?_).mono fun _ t ht => ?_
  · rw [hj]
    exact fun h0 => nomatch h0
  all_goals try
    intro j' hj'
    obtain rfl := hthis hj'
  · intro h1 h2
    exact absurd (he.stop hok h1) h2
  · exact h.canUnmap hu hb (hhi.trans hok.past_le)
  · exact hback
  · exact hpriv
  · exact hiput
  · obtain ⟨j', phys, fs₀, fs, own', hj', hrep, hsame, hout, hR, hfs, rfl⟩ := ht
    obtain rfl := hthis hj'
    refine ⟨phys, fs₀, fs, own', rfl, hR, hfs, hsame, hout, hrep,
      (h.spaces.unmapEnd hs he).frame rfl rfl, ?_⟩
    have hpast := hok.past_le
    exact h.counted.unmap fun k _ h2 => show k < vTrapframe by omega

/-- **Unmapping a part of a vma at one of its ends** never panics, apart from the file system and
the write-back, and keeps the invariant. -/
theorem uvmUnmap_good (h : Good L ext own s a) {i j : ℕ} (hs : s.slot u i = some j)
    {addr length : U64} (he : (s.vmas j).End addr length) (hE : ∀ e, FsStop e → E e)
    (hwrite : E (.panic "uvm_unmap: write error\n")) :
    wp (uvmUnmap u addr length) E (fun _ t =>
      ∃ phys fs own', t = (s.unmapped u j addr length).io phys fs ∧ UnmapFs s j length fs ∧
        (∀ f r l k, own' f = .node r l k ↔ own f = .node r l k) ∧
        Good L ext own' t (a.unmapTo (s.root u) (unmapRange (s.vmas j) addr length))) s := by
  have hu := h.spaces.live u i j hs
  refine (uvmUnmap_end_wp (R := fun fs => (s.vmas j).flags ≠ MAP_SHARED → fs = s.fs) h hs he
    (fun hsh => ?_) (fun _ _ => rfl) fun _ fs _ => ?_).mono fun _ t ht => ?_
  · refine (writeBack_spec h.rep (h.spaces.table u hu).2 _ addr length hE hwrite).mono
      fun _ t ⟨fs, ht⟩ => ⟨fs, ht, fun hne => absurd hsh hne⟩
  · exact ((fsOnly_iputOp _).wp hE _).mono fun _ _ _ => trivial
  · obtain ⟨phys, fs₀, fs, own', ht, hR, hdrop, hsame, -, hgood⟩ := ht
    refine ⟨phys, fs, own', ht, fun hpriv => ?_, hsame, hgood⟩
    rwa [DropsFile, hR hpriv] at hdrop

/-! ### The heap -/

/-- The vma `j` of `u`, at `i`, may become `length` bytes long. -/
structure HeapRoom (s : Kernel) (u : UvmPtr) (i j : ℕ) (length : U64) : Prop where
  slot : s.slot u i = some j
  le : (s.vmas j).length.toNat ≤ length.toNat
  ok : ({ s.vmas j with length := length } : Vma).Ok
  apart : ∀ i' j', i' ≠ i → s.slot u i' = some j' → ∀ n,
    ({ s.vmas j with length := length } : Vma).Pages n → ¬ (s.vmas j').Pages n

/-- A tail of the vma `j` of `u` goes, and its pages with it. -/
structure HeapCut (L : UvmPtr → Prop) (ext : ℕ → ℕ∞) (s : Kernel) (a : Maps) (u : UvmPtr) (j : ℕ)
    (addr length : U64) (t : Kernel) : Prop where
  slot : ∃ i, s.slot u i = some j
  end_ : (s.vmas j).End addr length
  ne_start : addr ≠ (s.vmas j).start
  state : ∃ phys fs own', t = (s.unmapped u j addr length).io phys fs ∧ UnmapFs s j length fs ∧
    Good L ext own' t (a.unmapTo (s.root u) (unmapRange (s.vmas j) addr length))

omit [Layout] in
/-- Growing does not meet another vma. -/
theorem Spaces.heapRoom (h : Spaces L s a) {i j : ℕ} (hs : s.slot u i = some j) {n : U64}
    (hwrap : ¬ (s.vmas j).stop + n < (s.vmas j).stop) (htop : ¬ TRAPFRAME < (s.vmas j).stop + n)
    (hmeet : heapMeets (s.setVma j { s.vmas j with length := (s.vmas j).length + n }) u j = false) :
    HeapRoom s u i j ((s.vmas j).length + n) := by
  have hok := h.ok u i j hs
  have hpos := hok.pos
  have hstop := hok.stop_le
  have htoNat := hok.toNat_stop
  have hTF : TRAPFRAME.toNat = 0x3FFFFFE000 := by decide
  have hsum : (s.vmas j).start.toNat + (s.vmas j).length.toNat + n.toNat ≤ 0x3FFFFFE000 := by
    rw [BitVec.not_lt, BitVec.le_def, BitVec.toNat_add] at hwrap htop
    have := n.isLt
    omega
  have hlen : ((s.vmas j).length + n).toNat = (s.vmas j).length.toNat + n.toNat := by
    rw [BitVec.toNat_add]
    omega
  have hok' : ({ s.vmas j with length := (s.vmas j).length + n } : Vma).Ok := by
    refine ⟨?_, ?_⟩ <;> dsimp only <;> omega
  refine ⟨hs, by omega, hok', fun i' j' hne hs' m hm => ?_⟩
  have hjj : j' ≠ j := fun he => hne (h.inj u i' u i j (he ▸ hs') hs).2
  have hmeets := List.any_eq_false.1 hmeet i' (List.mem_range.2 (h.bound u i' j' hs'))
  rw [show ((s.setVma j { s.vmas j with length := (s.vmas j).length + n }).uvms u).vma i' = some j'
    from hs'] at hmeets
  have hcut : ¬ vmaIntersect { s.vmas j with length := (s.vmas j).length + n } (s.vmas j') =
      true := by
    intro hx
    refine hmeets (decide_eq_true ⟨hjj, ?_⟩)
    rwa [Kernel.setVma_vmas_self, Kernel.setVma_vmas_of_ne hjj]
  refine Vma.disjoint_of_le hok' (h.ok u i' j' hs') ?_ hm
  rw [vmaIntersect, decide_eq_true_iff, BitVec.not_lt] at hcut
  exact hcut

/-- **What `uvm_growheap` does** to a heap that is one of the vmas: nothing, or the vma becomes
longer, or a tail of it is unmapped. -/
theorem uvmGrowheap_good (h : Good L ext own s a)
    (hheap : ∀ j, (s.uvms u).heap = some j →
      (∃ i, s.slot u i = some j) ∧ PGSIZE ≤ (s.vmas j).length) (n : U32)
    (hE : ∀ e, FsStop e → E e) (hwrite : E (.panic "uvm_unmap: write error\n"))
    (hfault : E .fault) :
    wp (uvmGrowheap u n) E (fun _ t => t = s ∨
      (∃ i j length, HeapRoom s u i j length ∧ t = s.setVma j { s.vmas j with length := length }) ∨
      ∃ j addr length, HeapCut L ext s a u j addr length t) s := by
  rw [uvmGrowheap, wp_bind, wp_get]
  dsimp only
  rw [wp_ite]
  by_cases h0 : n = 0
  · rw [if_pos h0]
    exact Or.inl rfl
  rw [if_neg h0]
  rcases hj : (s.uvms u).heap with _ | j
  · exact hfault
  obtain ⟨⟨i, hs⟩, hpage⟩ := hheap j hj
  have hok := h.spaces.ok u i j hs
  dsimp only
  rw [wp_ite]
  by_cases hpos : 0 < n.toInt
  · rw [if_pos hpos, wp_ite]
    split_ifs with hout hmeet
    · exact Or.inl rfl
    · exact Or.inl rfl
    rw [not_or] at hout
    rw [wp_bind, wp_set, wp_pure]
    exact Or.inr (Or.inl ⟨i, j, _, h.spaces.heapRoom hs hout.1 hout.2 (Bool.not_eq_true _ ▸ hmeet),
      rfl⟩)
  rw [if_neg hpos, wp_ite]
  split_ifs with hshort
  · exact Or.inl rfl
  -- the heap keeps its first page
  obtain ⟨hend, hne⟩ : (s.vmas j).End ((s.vmas j).stop + n.signExtend 64) ((-n).signExtend 64) ∧
      (s.vmas j).stop + n.signExtend 64 ≠ (s.vmas j).start := by
    have hstop := hok.stop_le
    have htoNat := hok.toNat_stop
    have hn := n.isLt
    have hn0 : n.toNat ≠ 0 := fun he => h0 (BitVec.eq_of_toNat_eq he)
    have hneg : ¬ (0 < n.toNat ∧ n.toNat < 2 ^ 31) := fun hx => hpos ((toInt_pos_iff n).2 hx)
    have hPG : PGSIZE.toNat = 4096 := rfl
    rw [BitVec.le_def, hPG] at hpage
    have hsub : ((s.vmas j).length - PGSIZE).toNat = (s.vmas j).length.toNat - 4096 :=
      BitVec.toNat_sub_of_le (BitVec.le_def.2 (by rwa [hPG]))
    have hcut : ((-n).signExtend 64).toNat ≤ (s.vmas j).length.toNat - 4096 := by
      rw [BitVec.not_lt, BitVec.le_def, hsub] at hshort
      exact hshort
    have hnegn : (-n).toNat = 2 ^ 32 - n.toNat := by
      rw [BitVec.toNat_neg]
      omega
    have hextn := toNat_signExtend n
    have hextm := toNat_signExtend (-n)
    rw [if_neg (by omega)] at hextn
    rw [if_pos (by split_ifs at hextm <;> omega), hnegn] at hextm
    have haddr : ((s.vmas j).stop + n.signExtend 64).toNat =
        (s.vmas j).start.toNat + (s.vmas j).length.toNat - (2 ^ 32 - n.toNat) := by
      rw [BitVec.toNat_add, htoNat, hextn]
      omega
    refine ⟨⟨?_, ?_, ?_, Or.inr ?_⟩, fun he => ?_⟩
    · omega
    · omega
    · omega
    · omega
    · have := congrArg BitVec.toNat he
      omega
  rw [wp_bind]
  refine (uvmUnmap_good h hs hend hE hwrite).mono fun _ t ht => ?_
  obtain ⟨phys, fs, own', rfl, hfs, -, hgood⟩ := ht
  rw [wp_pure]
  exact Or.inr (Or.inr ⟨j, _, _, ⟨i, hs⟩, hend, hne, phys, fs, own', rfl, hfs, hgood⟩)

end Xv6
