import Xv6.DupSpec

/-!
# Entries that track the permissions of their vmas

The entry of a page evolves through its first touch, the write protection by `fork` and the
write-enable of a later fault.  Throughout, its bits R and X are those of the vma, and its bit W is
set only if the vma allows stores.  `Tracked` adds this to the invariant of the virtual-memory code,
and what is known about the entries of the trapframe and of the trampoline.
-/

namespace Xv6

open Bytes Wp Count

/-! ### One entry -/

/-- The entry `w` is in step with the permissions `perm` of its vma. -/
def Tracks (perm w : U64) : Prop :=
  w &&& (PTE_R ||| PTE_X) = perm &&& (PTE_R ||| PTE_X) ∧ (w &&& PTE_W ≠ 0 → perm &&& PTE_W ≠ 0)

/-- Stores only where loads are allowed. -/
def Plain (perm : U32) : Prop :=
  perm.setWidth 64 &&& PTE_W ≠ (0 : U64) → perm.setWidth 64 &&& PTE_R ≠ (0 : U64)

instance (perm : U32) : Decidable (Plain perm) := by
  unfold Plain
  infer_instance

/-- The permissions a page fault can ask for. -/
def IsAccess (perm : U64) : Prop := perm = PTE_R ∨ perm = PTE_W ∨ perm = PTE_X

instance (perm : U64) : Decidable (IsAccess perm) := by
  unfold IsAccess
  infer_instance

/-- Sv39: an access is allowed by a leaf entry with V, U and the needed bit, unless the entry has W
without R. -/
def Allows (w perm : U64) : Prop :=
  Valid w ∧ w &&& PTE_U ≠ 0 ∧ w &&& perm ≠ 0 ∧ (w &&& PTE_W ≠ 0 → w &&& PTE_R ≠ 0)

instance (w perm : U64) : Decidable (Allows w perm) := by
  unfold Allows Valid
  infer_instance

section

variable {perm w m : U64}

theorem or_and (x y m : U64) : (x ||| y) &&& m = (x &&& m) ||| (y &&& m) := by
  rw [BitVec.and_comm, BitVec.and_or_distrib_left, BitVec.and_comm m, BitVec.and_comm m]

/-- A part of a mask. -/
theorem and_eq_of_and_eq {x y m m' : U64} (h : x &&& m = y &&& m) (hm : m &&& m' = m') :
    x &&& m' = y &&& m' := by
  rw [← hm, ← BitVec.and_assoc, h, BitVec.and_assoc]

theorem and_ne_zero_of_and_ne {x m m' : U64} (h : x &&& m' ≠ 0) (hm : m &&& m' = m') :
    x &&& m ≠ 0 := by
  intro h0
  refine h (and_eq_of_and_eq (y := 0) (m := m) ?_ hm |>.trans ?_)
  · rw [h0]
    simp
  · simp

theorem Tracks.read (h : Tracks perm w) : w &&& PTE_R = perm &&& PTE_R :=
  and_eq_of_and_eq h.1 (by decide)

theorem Tracks.exec (h : Tracks perm w) : w &&& PTE_X = perm &&& PTE_X :=
  and_eq_of_and_eq h.1 (by decide)

/-- The entry of a first touch. -/
theorem tracks_fresh (pa perm : U64) : Tracks perm (pa2pte pa ||| perm ||| PTE_V ||| PTE_U) := by
  have hbits : ∀ m, IsFlags m → PTE_V &&& m = 0 → PTE_U &&& m = 0 →
      (pa2pte pa ||| perm ||| PTE_V ||| PTE_U) &&& m = perm &&& m := by
    intro m hm hV hU
    rw [or_and, or_and, or_and, pa2pte_and hm, hV, hU]
    simp
  refine ⟨hbits _ (by decide) (by decide) (by decide), fun hW => ?_⟩
  rwa [hbits _ (by decide) (by decide) (by decide)] at hW

/-- Write protection. -/
theorem Tracks.and_not_W (h : Tracks perm w) : Tracks perm (w &&& ~~~PTE_W) := by
  refine ⟨?_, fun hW => absurd ?_ hW⟩
  · rw [and_not_W_and w (by decide)]
    exact h.1
  · rw [BitVec.and_assoc, show ~~~PTE_W &&& PTE_W = 0 by decide]
    simp

/-- Write-enable. -/
theorem Tracks.or_W (h : Tracks perm w) (hW : perm &&& PTE_W ≠ 0) : Tracks perm (w ||| PTE_W) := by
  refine ⟨?_, fun _ => hW⟩
  rw [or_and, show PTE_W &&& (PTE_R ||| PTE_X) = 0 by decide, h.1]
  simp

/-- The same flags on another page. -/
theorem Tracks.move (h : Tracks perm w) (pa : U64) (hW : perm &&& PTE_W ≠ 0) :
    Tracks perm (pa2pte pa ||| pteFlags w ||| PTE_W) := by
  have hflags : Tracks perm (pa2pte pa ||| pteFlags w) := by
    refine ⟨?_, fun _ => hW⟩
    rw [or_and, pa2pte_and (by decide), pteFlags_and (by decide), h.1]
    simp
  exact hflags.or_W hW

/-- Without the user bit. -/
theorem Tracks.and_not_U (h : Tracks perm w) : Tracks perm (w &&& ~~~PTE_U) := by
  refine ⟨?_, fun hW => h.2 ?_⟩
  · rw [BitVec.and_assoc, show ~~~PTE_U &&& (PTE_R ||| PTE_X) = PTE_R ||| PTE_X by decide]
    exact h.1
  · rwa [BitVec.and_assoc, show ~~~PTE_U &&& PTE_W = PTE_W by decide] at hW

/-- A user entry that tracks plain permissions allows every access they give, apart from stores that
are still protected. -/
theorem Tracks.allows {p : U32} (h : Tracks (p.setWidth 64) w) (hplain : Plain p) (hv : Valid w)
    (hu : w &&& PTE_U ≠ 0) (hm : IsAccess m) (hp : p.setWidth 64 &&& m ≠ 0)
    (hW : m = PTE_W → w &&& PTE_W ≠ 0) : Allows w m := by
  refine ⟨hv, hu, ?_, fun hw => ?_⟩
  · rcases hm with rfl | rfl | rfl
    · rwa [h.read]
    · exact hW rfl
    · rwa [h.exec]
  · rw [h.read]
    exact hplain (h.2 hw)

end

/-! ### The invariant -/

variable [Layout]

/-- The address spaces are well formed, their entries track their vmas, and the kernel holds a
reference to every trapframe. -/
structure Tracked (L : UvmPtr → Prop) (ext : ℕ → ℕ∞) (own : ℕ → Owner) (s : Kernel) (a : Maps) :
    Prop extends Good L ext own s a where
  firm : Firm L s a
  plain : ∀ u i j, s.slot u i = some j → Plain (s.vmas j).perm
  tracks : ∀ u i j v, s.slot u i = some j → (s.vmas j).Pages v → Valid (a.leaf (s.root u) v) →
    Tracks ((s.vmas j).perm.setWidth 64) (a.leaf (s.root u) v)
  trapframe : ∀ u, L u → 1 ≤ ext (pteFrame (a.leaf (s.root u) vTrapframe))
  trampoline : ∀ u, L u → a.leaf (s.root u) vTrampoline &&& PTE_W = 0

namespace Tracked

variable {L : UvmPtr → Prop} {ext : ℕ → ℕ∞} {own own' : ℕ → Owner} {s t : Kernel} {a a' : Maps}
  {u : UvmPtr}

/-- The rest of the kernel does not matter. -/
theorem frame (h : Tracked L ext own s a) (hu : t.uvms = s.uvms) (hv : t.vmas = s.vmas)
    (hp : t.phys = s.phys) : Tracked L ext own t a := by
  cases t
  cases hu
  cases hv
  cases hp
  exact ⟨⟨h.rep, h.spaces.frame rfl rfl, h.counted⟩, h.firm, h.plain, h.tracks, h.trapframe,
    h.trampoline⟩

/-- A vma that has the page of `va` is the one that `uvm_va2vma` finds. -/
theorem eq_of_pages (h : Tracked L ext own s a) {va : U64} {j i' j' : ℕ}
    (hj : uvmVa2vma s u va = some j) (hs : s.slot u i' = some j')
    (hp : (s.vmas j').Pages (vpn va)) : j' = j := by
  obtain ⟨i, hi, hhas⟩ := uvmVa2vma_some hj
  by_cases hii : i' = i
  · rw [hii] at hs
    exact Option.some.inj (hs.symm.trans hi)
  · exact absurd ((h.spaces.ok u i j hi).pages_of_has hhas)
      (h.spaces.disjoint u i' i j' j hs hi hii _ hp)

/-- **A page fault** keeps the entries in step. -/
theorem complete (h : Tracked L ext own s a) (hu : L u) {va perm ret : U64} {j : ℕ}
    (hj : uvmVa2vma s u va = some j) (hperm : (s.vmas j).perm.setWidth 64 &&& perm ≠ 0)
    {phys : Phys} (fs : Fs) (hrep : Rep own' phys a') {fill : (ℕ → Byte) → Prop}
    (hc : Completes a (s.root u) (vpn va) ((s.vmas j).perm.setWidth 64) fill ret a')
    (hW : Valid (a.leaf (s.root u) (vpn va)) → ret ≠ 0 → perm = PTE_W) :
    Tracked L ext own' (s.io phys fs) a' := by
  obtain ⟨i, hs, hhas⟩ := uvmVa2vma_some hj
  have hok := h.spaces.ok u i j hs
  have hlt : vpn va < vTrapframe := vpn_lt_vTrapframe hok hhas
  have hleaf := hc.leaf_cases (isFlags_setWidth (h.spaces.perm u i j hs))
  -- the entries of other pages, and those of the kernel, stay
  have hother : ∀ r v, ¬ (r = s.root u ∧ v = vpn va) → a'.leaf r v = a.leaf r v := by
    intro r v hne
    rcases hleaf with ⟨-, rfl⟩ | ⟨-, -, -, hsame⟩
    · rfl
    · exact hsame r v hne
  have hhigh : ∀ r v, vTrapframe ≤ v → a'.leaf r v = a.leaf r v :=
    fun r v hv => hother r v fun he => by omega
  refine ⟨h.toGood.complete hu hj fs hrep hc, fun u' v hu' hv => ?_, h.plain,
    fun u' i' j' v hs' hp hv => ?_, fun u' hu' => ?_, fun u' hu' => ?_⟩
  · by_cases he : s.root u' = s.root u ∧ v = vpn va
    · rcases hleaf with ⟨-, rfl⟩ | ⟨-, hU, -, -⟩
      · exact h.firm u' v hu' hv
      · change a'.leaf (s.root u') v &&& (PTE_U ||| PTE_R) ≠ 0
        rw [he.1, he.2]
        exact and_ne_zero_of_and_ne hU (by decide)
    · change Valid (a'.leaf (s.root u') v) at hv
      change a'.leaf (s.root u') v &&& _ ≠ 0
      rw [hother _ _ he] at hv ⊢
      exact h.firm u' v hu' hv
  · change Valid (a'.leaf (s.root u') v) at hv
    change Tracks _ (a'.leaf (s.root u') v)
    by_cases he : s.root u' = s.root u ∧ v = vpn va
    · have hu' := h.spaces.live u' i' j' hs'
      obtain rfl := h.spaces.table_inj u' u hu' hu he.1
      obtain rfl := he.2
      obtain rfl := h.eq_of_pages hj hs' hp
      have hold := h.tracks u' i' j' (vpn va) hs' hp
      cases hc with
      | refused => exact hold hv
      | fresh hinv hg hpage hd =>
        rw [Maps.setLeaf_leaf_self]
        exact tracks_fresh _ _
      | single hval hU hp' h1 =>
        rw [Maps.setLeaf_leaf_self]
        have hne :=
          (hrep.allocatable (f := pteFrame (a.leaf (s.root u') (vpn va))) hp').pageAddr_ne_zero
        rw [← pte2pa_eq_pageAddr] at hne
        exact (hold hval).or_W (hW hval hne ▸ hperm)
      | copied hval hU hp' h1 hg hpage =>
        rw [Maps.decref_leaf, Maps.setLeaf_leaf_self]
        exact (hold hval).move _ (hW hval hg.pageAddr_ne_zero ▸ hperm)
    · rw [hother _ _ he] at hv ⊢
      exact h.tracks u' i' j' v hs' hp hv
  · change 1 ≤ ext (pteFrame (a'.leaf (s.root u') vTrapframe))
    rw [hhigh _ _ le_rfl]
    exact h.trapframe u' hu'
  · change a'.leaf (s.root u') vTrampoline &&& PTE_W = 0
    rw [hhigh _ _ (Nat.le_succ _)]
    exact h.trampoline u' hu'

/-- Entries go away, vmas shrink, and everything else stays. -/
theorem shrink (h : Tracked L ext own s a) {L' : UvmPtr → Prop} {ext' : ℕ → ℕ∞}
    (hgood : Good L' ext' own' t a') (hL : ∀ u, L' u → L u) (hext : ∀ f, ext f ≤ ext' f)
    (hroot : ∀ u, L' u → t.root u = s.root u)
    (hleaf : ∀ u v, L' u → Valid (a'.leaf (s.root u) v) →
      a'.leaf (s.root u) v = a.leaf (s.root u) v)
    (hhigh : ∀ u v, L' u → vTrapframe ≤ v → a'.leaf (s.root u) v = a.leaf (s.root u) v)
    (hslot : ∀ u i k, t.slot u i = some k → ∃ j, s.slot u i = some j ∧
      (t.vmas k).perm = (s.vmas j).perm ∧ ∀ v, (t.vmas k).Pages v → (s.vmas j).Pages v) :
    Tracked L' ext' own' t a' := by
  refine ⟨hgood, fun u v hu hv => ?_, fun u i k hs => ?_, fun u i k v hs hp hv => ?_,
    fun u hu => ?_, fun u hu => ?_⟩
  · rw [hroot u hu] at hv ⊢
    have he := hleaf u v hu hv
    rw [he] at hv ⊢
    exact h.firm u v (hL u hu) hv
  · obtain ⟨j, hj, hperm, -⟩ := hslot u i k hs
    rw [hperm]
    exact h.plain u i j hj
  · have hu := hgood.spaces.live u i k hs
    obtain ⟨j, hj, hperm, hpages⟩ := hslot u i k hs
    rw [hroot u hu] at hv ⊢
    have he := hleaf u v hu hv
    rw [he] at hv ⊢
    rw [hperm]
    exact h.tracks u i j v hj (hpages v hp) hv
  · rw [hroot u hu, hhigh u _ hu le_rfl]
    exact (h.trapframe u (hL u hu)).trans (hext _)
  · rw [hroot u hu, hhigh u _ hu (Nat.le_succ _)]
    exact h.trampoline u (hL u hu)

/-- Another heap. -/
theorem setHeap (h : Tracked L ext own s a) (u : UvmPtr) (x : Option ℕ) :
    Tracked L ext own (s.setHeap u x) a :=
  h.shrink ⟨h.rep, h.spaces.setHeap x, h.counted⟩ (fun _ hu => hu) (fun _ => le_rfl)
    (fun _ _ => by rw [Kernel.setHeap_root]) (fun _ _ _ _ => rfl) (fun _ _ _ _ => rfl)
    fun u' i k hs => ⟨k, by rwa [Kernel.setHeap_slot] at hs, rfl, fun _ hv => hv⟩

/-- Pages change hands or contents. -/
theorem setPage (h : Tracked L ext own s a) {ext' : ℕ → ℕ∞} (hext : ∀ f, ext f ≤ ext' f) {g : ℕ}
    {p : Option Page} {phys : Phys} (fs : Fs) (hrep : Rep own' phys (a.setPage g p))
    (hcounted : Counted (a.setPage g p) userPlaces ext') :
    Tracked L ext' own' (s.io phys fs) (a.setPage g p) := by
  have hsp : Spaces L s (a.setPage g p) := h.spaces.setMaps (b := a.setPage g p)
    (fun u hu => (h.spaces.table u hu).2) (fun _ _ _ hv => Or.inl hv)
    fun u v hu hv => h.spaces.leaf u v hu hv
  exact h.shrink ⟨hrep, hsp.frame rfl rfl, hcounted⟩ (fun _ hu => hu) hext (fun _ _ => rfl)
    (fun _ _ _ _ => rfl) (fun _ _ _ _ => rfl) fun u i k hs => ⟨k, hs, rfl, fun _ hv => hv⟩

/-- A page changes its contents. -/
theorem setData (h : Tracked L ext own s a) {f : ℕ} {p : Page} (hp : a.page f = some p)
    (d : ℕ → Byte) {phys : Phys} (fs : Fs)
    (hrep : Rep own phys (a.setPage f (some { p with data := d }))) :
    Tracked L ext own (s.io phys fs) (a.setPage f (some { p with data := d })) :=
  h.setPage (fun _ => le_rfl) fs hrep (h.counted.setData hp d)

/-- The kernel takes a page for itself. -/
theorem take (h : Tracked L ext own s a) {g : ℕ} (hg : a.page g = none) {d : ℕ → Byte}
    {phys : Phys} (fs : Fs) (hrep : Rep own' phys (a.setPage g (some ⟨1, d⟩))) :
    Tracked L (fun f => ext f + hit (some g) f) own' (s.io phys fs)
      (a.setPage g (some ⟨1, d⟩)) := by
  refine h.setPage (fun _ => le_self_add) fs hrep ⟨Counted.pos_fresh h.counted.pos g d, fun f => ?_⟩
  rw [Maps.refs_fresh hg, h.counted.counts f, Maps.ptr_setPage, add_assoc]

/-- **Unmapping an end of a vma** leaves the other entries as they are. -/
theorem unmap (h : Tracked L ext own s a) {i j : ℕ} (hs : s.slot u i = some j) {addr length : U64}
    (he : (s.vmas j).End addr length) {phys : Phys} {fs : Fs}
    (hg : Good L ext own' ((s.unmapped u j addr length).io phys fs)
      (a.unmapTo (s.root u) (unmapRange (s.vmas j) addr length))) :
    Tracked L ext own' ((s.unmapped u j addr length).io phys fs)
      (a.unmapTo (s.root u) (unmapRange (s.vmas j) addr length)) := by
  have hok := h.spaces.ok u i j hs
  obtain ⟨-, -, hhi⟩ := he.range_ok hok
  have hpast := hok.past_le
  have huvms : (s.unmapped u j addr length).root = s.root := h.spaces.unmapped_root hs
  refine h.shrink hg (fun _ hu => hu) (fun _ => le_rfl) (fun u' _ => congrFun huvms u')
    (fun u' v _ hv => ?_) (fun u' v _ hv => ?_) fun u' i' k hk => ?_
  · rcases a.unmap_leaf_or (s.root u) (vpn (unmapRange (s.vmas j) addr length).1) true
      (vpn (unmapRange (s.vmas j) addr length).2 - vpn (unmapRange (s.vmas j) addr length).1)
      (s.root u') v with he' | he'
    · exact he'
    · rw [Maps.unmapTo, he'] at hv
      exact absurd hv (by decide)
  · exact a.unmap_leaf_of_notMem _ fun hc => by omega
  · change (s.unmapped u j addr length).slot u' i' = some k at hk
    change ∃ j', _ ∧ ((s.unmapped u j addr length).vmas k).perm = _ ∧
      ∀ v, ((s.unmapped u j addr length).vmas k).Pages v → _
    obtain ⟨hk', ⟨-, hv⟩ | ⟨rfl, hw, ⟨hf, hv⟩ | ⟨hf, hv⟩⟩⟩ := h.spaces.unmapped_slot hs hk
    · rw [hv]
      exact ⟨k, hk', rfl, fun _ hn => hn⟩
    · obtain ⟨-, hfirst', hpast'⟩ := he.dropFront_ok hok hf hw
      rw [hv]
      refine ⟨k, hk', rfl, fun n hn => ⟨?_, hpast' ▸ hn.2⟩⟩
      have := hn.1
      rw [hfirst'] at this
      rw [Vma.first]
      omega
    · obtain ⟨-, hfirst', hpast'⟩ := he.dropTail_ok hok hf
      rw [hv]
      refine ⟨k, hk', rfl, fun n hn => ⟨hfirst' ▸ hn.1, ?_⟩⟩
      have h1 := hn.2
      have h2 := he.lt_stop
      rw [hpast'] at h1
      rw [Vma.past]
      omega

/-- **Freeing an address space** leaves the others as they are. -/
theorem free (h : Tracked L ext own s a) (hg : Good (fun u' => L u' ∧ u' ≠ u) ext own' t a')
    (hu : L u) (he : Emptied u VMA_SIZE s t a a') :
    Tracked (fun u' => L u' ∧ u' ≠ u) ext own' t a' := by
  have hroot : ∀ u', L u' ∧ u' ≠ u → t.root u' = s.root u' := fun u' hu' => by
    rw [Kernel.root, Kernel.root, he.uvms u' hu'.2]
  have hleaf : ∀ u' v, L u' ∧ u' ≠ u → a'.leaf (s.root u') v = a.leaf (s.root u') v :=
    fun u' v hu' => he.leaf _ v fun hr => hu'.2 (h.spaces.table_inj u' u hu'.1 hu hr)
  refine h.shrink hg (fun _ hu' => hu'.1) (fun _ => le_rfl) hroot (fun u' v hu' _ => hleaf u' v hu')
    (fun u' v hu' _ => hleaf u' v hu') fun u' i k hk => ?_
  have hu' := hg.spaces.live u' i k hk
  have hs : s.slot u' i = some k := by
    rw [Kernel.slot, he.uvms u' hu'.2] at hk
    exact hk
  refine ⟨k, hs, ?_⟩
  rw [he.vmas k fun i' _ hc => hu'.2 (h.spaces.inj u' i u i' k hs hc).1]
  exact ⟨rfl, fun _ hv => hv⟩

/-- **A guard page**: an entry for a readable page loses its user bit. -/
theorem guard (h : Tracked L ext own s a) (hu : L u) {va : U64} {j : ℕ}
    (hj : uvmVa2vma s u va = some j) (hR : (s.vmas j).perm.setWidth 64 &&& PTE_R ≠ 0) {phys : Phys}
    (fs : Fs)
    (hrep : Rep own' phys
      (a.setLeaf (s.root u) (vpn va) (a.leaf (s.root u) (vpn va) &&& ~~~PTE_U))) :
    Tracked L ext own' (s.io phys fs)
      (a.setLeaf (s.root u) (vpn va) (a.leaf (s.root u) (vpn va) &&& ~~~PTE_U)) := by
  obtain ⟨i, hs, hhas⟩ := uvmVa2vma_some hj
  have hok := h.spaces.ok u i j hs
  have hpages := hok.pages_of_has hhas
  have hlt : vpn va < vTrapframe := vpn_lt_vTrapframe hok hhas
  generalize hw : a.leaf (s.root u) (vpn va) &&& ~~~PTE_U = w at hrep ⊢
  have hvalid : Valid w → Valid (a.leaf (s.root u) (vpn va)) := by
    rw [← hw, valid_and_not (by decide)]
    exact id
  have htracks : Valid w → Tracks ((s.vmas j).perm.setWidth 64) w := by
    intro hv
    rw [← hw]
    exact (h.tracks u i j _ hs hpages (hvalid hv)).and_not_U
  have hread : Valid w → w &&& (PTE_U ||| PTE_R) ≠ 0 := by
    intro hv
    refine and_ne_zero_of_and_ne (?_ : w &&& PTE_R ≠ 0) (by decide)
    rwa [(htracks hv).read]
  have hsame : ∀ r v, ¬ (r = s.root u ∧ v = vpn va) →
      (a.setLeaf (s.root u) (vpn va) w).leaf r v = a.leaf r v :=
    fun r v hne => Maps.setLeaf_leaf_of_ne _ _ hne
  have hfirm : Firm L s (a.setLeaf (s.root u) (vpn va) w) := by
    intro u' v hu' hv
    by_cases he : s.root u' = s.root u ∧ v = vpn va
    · rw [he.1, he.2, Maps.setLeaf_leaf_self] at hv ⊢
      exact hread hv
    · rw [hsame _ _ he] at hv ⊢
      exact h.firm u' v hu' hv
  refine ⟨⟨hrep, ?_, ?_⟩, hfirm, h.plain, fun u' i' j' v hs' hp hv => ?_, fun u' hu' => ?_,
    fun u' hu' => ?_⟩
  · refine (h.spaces.setMaps (b := a.setLeaf (s.root u) (vpn va) w)
      (fun u' hu' => (h.spaces.table u' hu').2) (fun u' v hu' hv => ?_)
      fun u' v hu' hv => pteFlags_ne_of_firm (hfirm u' v hu' hv)).frame rfl rfl
    by_cases he : s.root u' = s.root u ∧ v = vpn va
    · rw [he.1, he.2, Maps.setLeaf_leaf_self] at hv
      rw [he.1, he.2]
      exact Or.inl (hvalid hv)
    · rw [hsame _ _ he] at hv
      exact Or.inl hv
  · refine h.counted.setLeaf_same ?_
    rw [← hw, target_and_not (by decide) (pte2pa_and_not_U _), Maps.ptr]
  · change Valid ((a.setLeaf (s.root u) (vpn va) w).leaf (s.root u') v) at hv
    change Tracks _ ((a.setLeaf (s.root u) (vpn va) w).leaf (s.root u') v)
    by_cases he : s.root u' = s.root u ∧ v = vpn va
    · obtain rfl := h.spaces.table_inj u' u (h.spaces.live u' i' j' hs') hu he.1
      obtain rfl := he.2
      obtain rfl := h.eq_of_pages hj hs' hp
      rw [Maps.setLeaf_leaf_self] at hv ⊢
      exact htracks hv
    · rw [hsame _ _ he] at hv ⊢
      exact h.tracks u' i' j' v hs' hp hv
  · change 1 ≤ ext (pteFrame ((a.setLeaf (s.root u) (vpn va) w).leaf (s.root u') vTrapframe))
    rw [hsame _ _ fun he => by omega]
    exact h.trapframe u' hu'
  · change (a.setLeaf (s.root u) (vpn va) w).leaf (s.root u') vTrampoline &&& PTE_W = 0
    have hnext : vTrampoline = vTrapframe + 1 := rfl
    rw [hsame _ _ fun he => by omega]
    exact h.trampoline u' hu'

/-- **A new vma** has no entries yet. -/
theorem addVma (h : Tracked L ext own s a) (hu : L u) {i j : ℕ} {v : Vma}
    (hi : freeSlot s u = some i) (hj : freeVma s = some j)
    (hfree : uvmIsrangefree s u v.start v.length = true) (hused : v.used = true) (hok : v.Ok)
    (hperm : v.perm.toNat < 1024) (hplain : Plain v.perm) :
    Tracked L ext own (s.addVma u i j v) a := by
  have hg := h.toGood.addVma hu hi hj hfree hused hok hperm
  have hns := h.spaces.not_slot (freeVma_some hj)
  have hroot : (s.addVma u i j v).root = s.root := Kernel.setSlot_root
  have hself : (s.addVma u i j v).slot u i = some j := Kernel.setSlot_slot_self
  have hvj : (s.addVma u i j v).vmas j = v := Kernel.setVma_vmas_self
  have hcase : ∀ u' i' j', (s.addVma u i j v).slot u' i' = some j' →
      (u' = u ∧ i' = i ∧ j' = j) ∨
        (s.slot u' i' = some j' ∧ (s.addVma u i j v).vmas j' = s.vmas j') := by
    intro u' i' j' hs'
    by_cases he : u' = u ∧ i' = i
    · obtain ⟨rfl, rfl⟩ := he
      exact Or.inl ⟨rfl, rfl, Option.some.inj (hs'.symm.trans hself)⟩
    · have hs : s.slot u' i' = some j' := (Kernel.setSlot_slot_of_ne he).symm.trans hs'
      exact Or.inr ⟨hs, Kernel.setVma_vmas_of_ne fun hjj => hns u' i' (hjj ▸ hs)⟩
  refine ⟨hg, fun u' n hu' => ?_, fun u' i' j' hs' => ?_, fun u' i' j' n hs' hp hv => ?_,
    fun u' hu' => ?_, fun u' hu' => ?_⟩
  · rw [hroot]
    exact h.firm u' n hu'
  · rcases hcase u' i' j' hs' with ⟨-, -, rfl⟩ | ⟨hs, he⟩
    · rwa [hvj]
    · rw [he]
      exact h.plain u' i' j' hs
  · rw [hroot] at hv ⊢
    rcases hcase u' i' j' hs' with ⟨rfl, rfl, rfl⟩ | ⟨hs, he⟩
    · -- an entry in the new vma would be in an old one
      exfalso
      have hpast := hok.past_le
      rw [hvj] at hp
      rcases h.spaces.cover u' n hu hv with rfl | rfl | ⟨i₀, j₀, hs₀, hp₀⟩
      · exact absurd hp.2 (by omega)
      · have hnext : vTrampoline = vTrapframe + 1 := rfl
        exact absurd hp.2 (by omega)
      · have hne : i₀ ≠ i' := by
          rintro rfl
          rw [(freeSlot_some hi).2] at hs₀
          cases hs₀
        have hs₀' : (s.addVma u' i' j' v).slot u' i₀ = some j₀ :=
          (Kernel.setSlot_slot_of_ne fun he => hne he.2).trans hs₀
        have hv₀ : (s.addVma u' i' j' v).vmas j₀ = s.vmas j₀ :=
          Kernel.setVma_vmas_of_ne fun hjj => hns u' i₀ (hjj ▸ hs₀)
        exact hg.spaces.disjoint u' i₀ i' j₀ j' hs₀' hself hne n (hv₀ ▸ hp₀) (hvj.symm ▸ hp)
    · rw [he] at hp ⊢
      exact h.tracks u' i' j' n hs hp hv
  · rw [hroot]
    exact h.trapframe u' hu'
  · rw [hroot]
    exact h.trampoline u' hu'

/-- **A new address space** has the entries of the trampoline and of the trapframe. -/
theorem newSpace (h : Tracked L ext own s a) (hu : ¬ L u) {g : ℕ} (hg : Allocatable g)
    (hroot : ¬ a.root g) (hleaf : ∀ v, a.leaf g v = 0) {f : ℕ} (hf : f < 2 ^ 44) (hext : 1 ≤ ext f)
    {phys : Phys} (hrep : Rep own' phys (a.newSpace g (pageAddr f))) (fs : Fs) :
    Tracked (fun u' => L u' ∨ u' = u) ext own'
      ((s.setUvm u { Uvm.zero with pagetable := pageAddr g }).io phys fs)
      (a.newSpace g (pageAddr f)) := by
  have hgood := h.toGood.newSpace hu hg hroot hleaf hrep fs
  generalize ht : (s.setUvm u { Uvm.zero with pagetable := pageAddr g }).io phys fs = t at hgood ⊢
  have hru : t.root u = g := by
    have hlt := hg.lt
    rw [← ht, Kernel.root, Kernel.io_uvms, Kernel.setUvm_self, toNat_pageAddr (by omega)]
    omega
  have hold : ∀ u', u' ≠ u → t.root u' = s.root u' ∧ t.slot u' = s.slot u' := by
    intro u' hne
    rw [← ht, Kernel.root, Kernel.root, Kernel.io_uvms, Kernel.setUvm_of_ne hne]
    exact ⟨rfl, funext fun i => congrArg (fun x : Uvm => x.vma i) (Kernel.setUvm_of_ne hne)⟩
  have hne : ∀ u', L u' → u' ≠ u := fun u' hu' he => hu (he ▸ hu')
  have hframe : (a.newSpace g (pageAddr f)).leaf g vTrapframe =
      kernelPte (pageAddr f) (PTE_R ||| PTE_W) := Maps.setLeaf_leaf_self ..
  have htramp : (a.newSpace g (pageAddr f)).leaf g vTrampoline =
      kernelPte Layout.trampoline (PTE_R ||| PTE_X) := by
    rw [Maps.newSpace, Maps.setLeaf_leaf_of_ne _ _ (by simp), Maps.setLeaf_leaf_self]
  have hother : ∀ r v, ¬ (r = g ∧ (v = vTrapframe ∨ v = vTrampoline)) →
      (a.newSpace g (pageAddr f)).leaf r v = a.leaf r v := fun _ _ => Maps.newSpace_leaf_of_ne
  -- an old address space does not see the new table
  have hsame : ∀ u' v, L u' → (a.newSpace g (pageAddr f)).leaf (t.root u') v =
      a.leaf (s.root u') v := by
    intro u' v hu'
    rw [(hold u' (hne u' hu')).1]
    refine hother _ _ fun he => hroot ?_
    rw [← he.1]
    exact (h.spaces.table u' hu').2
  have hslot : ∀ u' i j, t.slot u' i = some j → L u' ∧ s.slot u' i = some j := by
    intro u' i j hs
    by_cases hu' : u' = u
    · rw [hu', ← ht, Kernel.slot, Kernel.io_uvms, Kernel.setUvm_self] at hs
      cases hs
    · rw [(hold u' hu').2] at hs
      exact ⟨h.spaces.live u' i j hs, hs⟩
  have hvmas : t.vmas = s.vmas := by
    rw [← ht]
    rfl
  refine ⟨hgood, fun u' v hu' hv => ?_, fun u' i j hs => ?_, fun u' i j v hs hp hv => ?_,
    fun u' hu' => ?_, fun u' hu' => ?_⟩
  · rcases hu' with hu' | rfl
    · rw [hsame u' v hu'] at hv ⊢
      exact h.firm u' v hu' hv
    · rw [hru] at hv ⊢
      by_cases h1 : v = vTrapframe
      · rw [h1, hframe]
        exact and_ne_zero_of_and_ne (kernelPte_and (m := PTE_R) (by decide) (by decide) _)
          (by decide)
      by_cases h2 : v = vTrampoline
      · rw [h2, htramp]
        exact and_ne_zero_of_and_ne (kernelPte_and (m := PTE_R) (by decide) (by decide) _)
          (by decide)
      rw [hother g v (by tauto), hleaf] at hv
      exact absurd hv (by decide)
  · rw [hvmas]
    exact h.plain u' i j (hslot u' i j hs).2
  · obtain ⟨hu', hs⟩ := hslot u' i j hs
    rw [hvmas] at hp ⊢
    rw [hsame u' v hu'] at hv ⊢
    exact h.tracks u' i j v hs hp hv
  · rcases hu' with hu' | rfl
    · rw [hsame u' _ hu']
      exact h.trapframe u' hu'
    · rwa [hru, hframe, pteFrame_of_pte2pa (by omega) (pte2pa_kernelPte hf (by decide))]
  · rcases hu' with hu' | rfl
    · rw [hsame u' _ hu']
      exact h.trampoline u' hu'
    · rw [hru, htramp, kernelPte, BitVec.and_assoc, show ~~~PTE_U &&& PTE_W = PTE_W by decide,
        or_and, or_and, or_and, pa2pte_and (by decide)]
      decide

/-- **The heap grows** where no vma is, so without entries. -/
theorem grow (h : Tracked L ext own s a) {i j : ℕ} {length : U64} (hr : HeapRoom s u i j length) :
    Tracked L ext own (s.setVma j { s.vmas j with length := length }) a := by
  have hs := hr.slot
  have hold : ∀ n, (s.vmas j).Pages n → ({ s.vmas j with length := length } : Vma).Pages n :=
    fun n hn => ⟨hn.1, hn.2.trans_le
      (Nat.div_le_div_right (Nat.add_le_add_right (Nat.add_le_add_left hr.le _) _))⟩
  refine ⟨⟨h.rep, h.spaces.setVma hs (h.spaces.used u i j hs) hr.ok (h.spaces.perm u i j hs)
    hr.apart fun n _ hn => hold n hn, h.counted⟩, h.firm, fun u' i' j' hs' => ?_,
    fun u' i' j' v hs' hp hv => ?_, h.trapframe, h.trampoline⟩
  · by_cases hj : j' = j
    · rw [hj, Kernel.setVma_vmas_self]
      exact h.plain u i j hs
    · rw [Kernel.setVma_vmas_of_ne hj]
      exact h.plain u' i' j' hs'
  · rw [Kernel.setVma_root] at hv ⊢
    by_cases hj : j' = j
    · obtain rfl := hj
      obtain ⟨rfl, rfl⟩ := h.spaces.inj u' i' u i j' hs' hs
      rw [Kernel.setVma_vmas_self] at hp ⊢
      -- an entry of the longer vma is one of a vma that was there
      have hpast : v < vTrapframe := hp.2.trans_le hr.ok.past_le
      rcases h.spaces.cover u' v (h.spaces.live u' i' j' hs) hv with rfl | rfl | ⟨k, l, hk, hl⟩
      · exact absurd hpast (lt_irrefl _)
      · exact absurd hpast (by decide)
      · by_cases hki : k = i'
        · obtain rfl : l = j' := Option.some.inj (hk.symm.trans (hki ▸ hs))
          exact h.tracks u' i' l v hs hl hv
        · exact absurd hl (hr.apart k l hki hk v hp)
    · rw [Kernel.setVma_vmas_of_ne hj] at hp ⊢
      exact h.tracks u' i' j' v hs' hp hv

/-- **A successful `uvm_dup`** keeps the entries of both sides in step. -/
theorem dup (h : Tracked L ext own s a) {p c : UvmPtr} (hp : L p) (hc : L c)
    (hempty : ∀ i, s.slot c i = none)
    (hd : Dupping L ext p c s a VMA_SIZE t own' a') : Tracked L ext own' t a' := by
  have hroot := hd.dups.root
  have hhigh : ∀ u' v, vTrapframe ≤ v → a'.leaf (t.root u') v = a.leaf (s.root u') v := by
    intro u' v hv
    rw [hroot]
    refine hd.cloned.same _ _ fun he => ?_
    obtain ⟨i, -, j, hs, hpages⟩ := he.1
    have := (h.spaces.ok p i j hs).past_le
    exact absurd hpages.2 (by omega)
  -- a vma of the child is the copy of one of the parent
  have hslot : ∀ u' i k, t.slot u' i = some k → (u' ≠ c ∧ s.slot u' i = some k ∧
      t.vmas k = s.vmas k) ∨ (u' = c ∧ ∃ j, s.slot p i = some j ∧ t.vmas k = s.vmas j) := by
    intro u' i k hs
    by_cases hu' : u' = c
    · obtain rfl := hu'
      by_cases hi : VMA_SIZE ≤ i ∨ s.slot p i = none
      · exact nomatch (hd.dups.empty i hi).symm.trans hs
      rw [not_or, Nat.not_le] at hi
      obtain ⟨j, hj⟩ := Option.ne_none_iff_exists'.1 hi.2
      obtain ⟨k', hk', hv, -⟩ := hd.dups.copies i hi.1 j hj
      obtain rfl : k' = k := Option.some.inj (hk'.symm.trans hs)
      exact Or.inr ⟨rfl, j, hj, hv⟩
    · rw [hd.dups.slot hu'] at hs
      exact Or.inl ⟨hu', hs, hd.dups.vmas u' i k hs⟩
  refine ⟨hd.good, hd.firm, fun u' i k hs => ?_, fun u' i k v hs hv hval => ?_, fun u' hu' => ?_,
    fun u' hu' => ?_⟩
  · rcases hslot u' i k hs with ⟨-, hs', he⟩ | ⟨-, j, hj, he⟩
    · rw [he]
      exact h.plain u' i k hs'
    · rw [he]
      exact h.plain p i j hj
  · have hu' := hd.good.spaces.live u' i k hs
    rw [hroot] at hval ⊢
    rcases hd.cloned.leaf_cases (s.root u') v with he | ⟨-, hva, hr, he⟩
    · rw [he] at hval ⊢
      rcases hslot u' i k hs with ⟨-, hs', hk⟩ | ⟨rfl, j, hj, hk⟩
      · rw [hk] at hv ⊢
        exact h.tracks u' i k v hs' hv hval
      · -- the child had no entries for user pages
        have hlt := (h.spaces.ok p i j hj).past_le
        rw [hk] at hv
        rcases h.spaces.cover u' v hc hval with rfl | rfl | ⟨i', j', hs', -⟩
        · exact absurd hv.2 (by omega)
        · have hnext : vTrampoline = vTrapframe + 1 := rfl
          exact absurd hv.2 (by omega)
        · exact nomatch (hempty i').symm.trans hs'
    · rw [he]
      refine Tracks.and_not_W ?_
      rcases hslot u' i k hs with ⟨hne, hs', hk⟩ | ⟨-, j, hj, hk⟩
      · rw [hk] at hv ⊢
        obtain rfl : u' = p := hr.elim (h.spaces.table_inj u' p hu' hp) fun hr =>
          absurd (h.spaces.table_inj u' c hu' hc hr) hne
        exact h.tracks u' i k v hs' hv hva
      · rw [hk] at hv ⊢
        exact h.tracks p i j v hj hv hva
  · rw [hhigh u' _ le_rfl]
    exact h.trapframe u' hu'
  · rw [hhigh u' _ (Nat.le_succ _)]
    exact h.trampoline u' hu'

/-- **The end of `exec`**: the new image moves from the local `struct uvm` to that of the
process. -/
theorem moveTo (h : Tracked L ext own s a) {d : UvmPtr} (hu : L u) (hd : ¬ L d) :
    Tracked (fun x => x = d ∨ L x ∧ x ≠ u) ext own
      ((s.setUvm d (s.uvms u)).setUvm u Uvm.zero) a := by
  have hud : u ≠ d := fun he => hd (he ▸ hu)
  generalize ht : (s.setUvm d (s.uvms u)).setUvm u Uvm.zero = t
  -- the address space that has become `x`
  let old : UvmPtr → UvmPtr := fun x => if x = d then u else x
  have hold : ∀ x, (x = d ∨ L x ∧ x ≠ u) → L (old x) := by
    rintro x (rfl | ⟨hx, hxu⟩)
    · rwa [show old x = u from if_pos rfl]
    · rwa [show old x = x from if_neg (show x ≠ d from fun he => hd (he ▸ hx))]
  have huvms : ∀ x, (x = d ∨ L x ∧ x ≠ u) → t.uvms x = s.uvms (old x) := by
    rintro x (rfl | ⟨hx, hxu⟩)
    · rw [← ht, Kernel.setUvm_of_ne hud.symm, Kernel.setUvm_self, show old x = u from if_pos rfl]
    · have hxd : x ≠ d := fun he => hd (he ▸ hx)
      rw [← ht, Kernel.setUvm_of_ne hxu, Kernel.setUvm_of_ne hxd, show old x = x from if_neg hxd]
  have hinj : ∀ x y, (x = d ∨ L x ∧ x ≠ u) → (y = d ∨ L y ∧ y ≠ u) → old x = old y → x = y := by
    intro x y hx hy he
    by_cases hxd : x = d <;> by_cases hyd : y =
      d <;> simp only [old, hxd, hyd, if_true, if_false] at he
    · rw [hxd, hyd]
    · exact absurd he.symm (hy.resolve_left hyd).2
    · exact absurd he (hx.resolve_left hxd).2
    · exact he
  have hlive : ∀ x i j, t.slot x i = some j → x = d ∨ L x ∧ x ≠ u := by
    intro x i j hs
    by_cases hxd : x = d
    · exact Or.inl hxd
    by_cases hxu : x = u
    · rw [hxu, Kernel.slot, ← ht, Kernel.setUvm_self] at hs
      cases hs
    · rw [Kernel.slot, ← ht, Kernel.setUvm_of_ne hxu, Kernel.setUvm_of_ne hxd] at hs
      exact Or.inr ⟨h.spaces.live x i j hs, hxu⟩
  have hslot : ∀ x i j, t.slot x i = some j → s.slot (old x) i = some j := by
    intro x i j hs
    rwa [Kernel.slot, huvms x (hlive x i j hs)] at hs
  have hroot : ∀ x, (x = d ∨ L x ∧ x ≠ u) → t.root x = s.root (old x) := fun x hx => by
    rw [Kernel.root, Kernel.root, huvms x hx]
  have hvmas : t.vmas = s.vmas := by
    rw [← ht]
    rfl
  have hphys : t.phys = s.phys := by
    rw [← ht]
    rfl
  refine ⟨⟨hphys ▸ h.rep, ⟨?_, ?_, hlive, ?_, ?_, ?_, ?_, ?_, ?_, ?_, ?_⟩, h.counted⟩, ?_, ?_,
    ?_, ?_, ?_⟩
  · intro x hx
    rw [hroot x hx, huvms x hx]
    exact h.spaces.table _ (hold x hx)
  · intro x y hx hy he
    rw [hroot x hx, hroot y hy] at he
    exact hinj x y hx hy (h.spaces.table_inj _ _ (hold x hx) (hold y hy) he)
  · exact fun x i j hs => h.spaces.bound _ i j (hslot x i j hs)
  · intro x i j hs
    rw [hvmas]
    exact h.spaces.used _ i j (hslot x i j hs)
  · intro x i y i' j hs hs'
    obtain ⟨he, hi⟩ := h.spaces.inj _ _ _ _ _ (hslot x i j hs) (hslot y i' j hs')
    exact ⟨hinj x y (hlive x i j hs) (hlive y i' j hs') he, hi⟩
  · intro x i j hs
    rw [hvmas]
    exact h.spaces.ok _ i j (hslot x i j hs)
  · intro x i j hs
    rw [hvmas]
    exact h.spaces.perm _ i j (hslot x i j hs)
  · intro x i i' j j' hs hs' hne
    rw [hvmas]
    exact h.spaces.disjoint _ i i' j j' (hslot x i j hs) (hslot x i' j' hs') hne
  · intro x v hx hv
    rw [hroot x hx] at hv
    rw [hvmas, show t.slot x = s.slot (old x) from funext fun i => by
      rw [Kernel.slot, Kernel.slot, huvms x hx]]
    exact h.spaces.cover _ v (hold x hx) hv
  · intro x v hx hv
    rw [hroot x hx] at hv ⊢
    exact h.spaces.leaf _ v (hold x hx) hv
  · intro x v hx hv
    rw [hroot x hx] at hv ⊢
    exact h.firm _ v (hold x hx) hv
  · intro x i j hs
    rw [hvmas]
    exact h.plain _ i j (hslot x i j hs)
  · intro x i j v hs hp hv
    rw [hvmas] at hp ⊢
    rw [hroot x (hlive x i j hs)] at hv ⊢
    exact h.tracks _ i j v (hslot x i j hs) hp hv
  · intro x hx
    rw [hroot x hx]
    exact h.trapframe _ (hold x hx)
  · intro x hx
    rw [hroot x hx]
    exact h.trampoline _ (hold x hx)

end Tracked

end Xv6
