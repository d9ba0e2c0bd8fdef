import Xv6.UnmapSpec

/-!
# Creating and freeing an address space

`uvm_new` adds an address space without vmas to the well-formed ones; `uvm_free` takes one away
and leaves the others as they are.
-/

namespace Xv6

open Bytes Wp

namespace Maps

variable {a : Maps} {S : Set (ℕ × ℕ)} {ext : ℕ → ℕ∞} {r : ℕ}

@[simp]
theorem addRoot_leaf (a : Maps) (r : ℕ) : (a.addRoot r).leaf = a.leaf := rfl

@[simp]
theorem addRoot_page (a : Maps) (r : ℕ) : (a.addRoot r).page = a.page := rfl

@[simp]
theorem dropRoot_page (a : Maps) (r : ℕ) : (a.dropRoot r).page = a.page := rfl

theorem dropRoot_leaf_self (a : Maps) (r v : ℕ) : (a.dropRoot r).leaf r v = 0 := by
  simp [dropRoot]

theorem dropRoot_leaf_of_ne (a : Maps) {r r' : ℕ} (h : r' ≠ r) :
    (a.dropRoot r).leaf r' = a.leaf r' := by
  simp [dropRoot, Function.update_of_ne h]

/-- A table that was not there is taken away again. -/
theorem dropRoot_addRoot (hr : ¬ a.root r) (hl : ∀ v, a.leaf r v = 0) :
    (a.addRoot r).dropRoot r = a := by
  obtain ⟨root, leaf, page⟩ := a
  simp only [dropRoot, addRoot, Maps.mk.injEq, and_true]
  refine ⟨?_, ?_⟩
  · funext r'
    by_cases h : r' = r
    · simp [h]
      exact hr
    · simp [h]
  · funext r' v
    by_cases h : r' = r
    · subst h
      simp
      exact (hl v).symm
    · simp [Function.update_of_ne h]

end Maps

namespace Counted

variable {a : Maps} {S : Set (ℕ × ℕ)} {ext : ℕ → ℕ∞} {r : ℕ}

theorem addRoot (h : Counted a S ext) (r : ℕ) : Counted (a.addRoot r) S ext := ⟨h.pos, h.counts⟩

/-- A table without counted entries goes away. -/
theorem dropRoot (h : Counted a S ext) (hr : ∀ v, (r, v) ∈ S → ¬ Valid (a.leaf r v)) :
    Counted (a.dropRoot r) S ext where
  pos := h.pos
  counts := by
    refine h.counts.congr (fun x hx => ?_) fun _ => rfl
    rw [Maps.ptr, Maps.ptr]
    by_cases hxr : x.1 = r
    · rw [hxr, Maps.dropRoot_leaf_self, target_zero,
        target_of_not_valid (hr x.2 (by rw [← hxr]; exact hx))]
    · rw [Maps.dropRoot_leaf_of_ne _ hxr]

end Counted

namespace Spaces

variable {L : UvmPtr → Prop} {s t : Kernel} {a b : Maps} {u : UvmPtr} {g : ℕ}

/-- A `struct uvm` that is in no use changes. -/
theorem setUvm_unused (h : Spaces L s a) (hu : ¬ L u) {x : Uvm} (hx : ∀ i, x.vma i = none) :
    Spaces L (s.setUvm u x) a := by
  have hother : ∀ u', L u' → (s.setUvm u x).uvms u' = s.uvms u' := by
    intro u' hu'
    have hne : u' ≠ u := fun he => hu (he ▸ hu')
    exact Function.update_of_ne hne ..
  have hroot : ∀ u', L u' → (s.setUvm u x).root u' = s.root u' := fun u' hu' => by
    rw [Kernel.root, Kernel.root, hother u' hu']
  have hslot : ∀ {u' i j}, (s.setUvm u x).slot u' i = some j → s.slot u' i = some j := by
    intro u' i j hs
    by_cases he : u' = u
    · rw [he, Kernel.slot, Kernel.setUvm_self, hx] at hs
      cases hs
    · rwa [Kernel.slot, Kernel.setUvm_of_ne he] at hs
  have hslot' : ∀ {u' i j}, s.slot u' i = some j → (s.setUvm u x).slot u' i = some j := by
    intro u' i j hs
    rw [Kernel.slot, hother u' (h.live u' i j hs)]
    exact hs
  refine ⟨fun u' hu' => ?_, fun u₁ u₂ h1 h2 he => ?_, fun u' i j hs => h.live u' i j (hslot hs),
    fun u' i j hs => h.bound u' i j (hslot hs), fun u' i j hs => h.used u' i j (hslot hs),
    fun _ _ _ _ _ h1 h2 => h.inj _ _ _ _ _ (hslot h1) (hslot h2),
    fun u' i j hs => h.ok u' i j (hslot hs), fun u' i j hs => h.perm u' i j (hslot hs),
    fun _ _ _ _ _ h1 h2 => h.disjoint _ _ _ _ _ (hslot h1) (hslot h2), fun u' v hu' hv => ?_,
    fun u' v hu' hv => ?_⟩
  · rw [hother u' hu', hroot u' hu']
    exact h.table u' hu'
  · rw [hroot _ h1, hroot _ h2] at he
    exact h.table_inj _ _ h1 h2 he
  · rw [hroot _ hu'] at hv
    rcases h.cover u' v hu' hv with hc | hc | ⟨i, j, hs, hp⟩
    · exact Or.inl hc
    · exact Or.inr (Or.inl hc)
    · exact Or.inr (Or.inr ⟨i, j, hslot' hs, hp⟩)
  · rw [hroot _ hu'] at hv ⊢
    exact h.leaf u' v hu' hv

/-- An address space joins that has a table of its own and no vmas. -/
theorem join (h : Spaces L s a) (hu : ¬ L u) (hg : ¬ a.root g)
    (hpt : (s.uvms u).pagetable = pageAddr g) (hlt : g < 2 ^ 52)
    (hroot : ∀ r, a.root r ∨ r = g → b.root r) (hleaf : ∀ r v, r ≠ g → b.leaf r v = a.leaf r v)
    (hnew : ∀ v, Valid (b.leaf g v) →
      (v = vTrapframe ∨ v = vTrampoline) ∧ pteFlags (b.leaf g v) ≠ PTE_V) :
    Spaces (fun u' => L u' ∨ u' = u) s b := by
  have hrg : s.root u = g := by
    rw [Kernel.root, hpt, toNat_pageAddr hlt]
    omega
  have hne : ∀ u', L u' → s.root u' ≠ g := fun u' hu' he => hg (he ▸ (h.table u' hu').2)
  refine ⟨?_, ?_, fun u' i j hs => Or.inl (h.live u' i j hs), h.bound, h.used, h.inj, h.ok, h.perm,
    h.disjoint, ?_, ?_⟩
  · rintro u' (hu' | rfl)
    · exact ⟨(h.table u' hu').1, hroot _ (Or.inl (h.table u' hu').2)⟩
    · rw [hrg]
      exact ⟨hpt, hroot _ (Or.inr rfl)⟩
  · rintro u₁ u₂ (h1 | rfl) (h2 | rfl) he
    · exact h.table_inj _ _ h1 h2 he
    · exact absurd (he.trans hrg) (hne _ h1)
    · exact absurd (he.symm.trans hrg) (hne _ h2)
    · rfl
  · rintro u' v (hu' | rfl) hv
    · rw [hleaf _ _ (hne u' hu')] at hv
      exact h.cover u' v hu' hv
    · rw [hrg] at hv
      exact (hnew v hv).1.imp_right Or.inl
  · rintro u' v (hu' | rfl) hv
    · rw [hleaf _ _ (hne u' hu')] at hv ⊢
      exact h.leaf u' v hu' hv
    · rw [hrg] at hv ⊢
      exact (hnew v hv).2

/-- An address space without vmas leaves, with its table. -/
theorem leave (h : Spaces L s a) (hu : L u) (hs : ∀ i, s.slot u i = none)
    (hroot : ∀ r, a.root r → r ≠ s.root u → b.root r)
    (hleaf : ∀ r v, r ≠ s.root u → b.leaf r v = a.leaf r v) :
    Spaces (fun u' => L u' ∧ u' ≠ u) s b := by
  have hne : ∀ u', L u' ∧ u' ≠ u → s.root u' ≠ s.root u := fun u' hu' he =>
    hu'.2 (h.table_inj u' u hu'.1 hu he)
  refine ⟨fun u' hu' => ⟨(h.table u' hu'.1).1, hroot _ (h.table u' hu'.1).2 (hne u' hu')⟩,
    fun _ _ h1 h2 => h.table_inj _ _ h1.1 h2.1, fun u' i j hs' => ⟨h.live u' i j hs', ?_⟩, h.bound,
    h.used, h.inj, h.ok, h.perm, h.disjoint, fun u' v hu' hv => ?_, fun u' v hu' hv => ?_⟩
  · rintro rfl
    rw [hs i] at hs'
    cases hs'
  · rw [hleaf _ _ (hne u' hu')] at hv
    exact h.cover u' v hu'.1 hv
  · rw [hleaf _ _ (hne u' hu')] at hv ⊢
    exact h.leaf u' v hu'.1 hv

end Spaces

-- the code below runs on fixed addresses, and is not to be evaluated
attribute [local irreducible] wp

variable [Layout]

variable {L : UvmPtr → Prop} {ext : ℕ → ℕ∞} {E : Stop → Prop} {own : ℕ → Owner} {s : Kernel}
  {a : Maps} {u : UvmPtr}

/-- The kernel's entry for page `pa` with the flags `fl`: not for the user. -/
def kernelPte (pa fl : U64) : U64 := (pa2pte pa ||| fl ||| PTE_V ||| PTE_U) &&& ~~~PTE_U

omit [Layout] in
/-- A flag other than `PTE_U` is in the entry if it was asked for. -/
theorem kernelPte_and {fl m : U64} (hm : ~~~PTE_U &&& m = m) (h : (fl ||| PTE_V) &&& m ≠ 0)
    (pa : U64) : kernelPte pa fl &&& m ≠ 0 := by
  rw [kernelPte, BitVec.and_assoc, hm, BitVec.or_assoc (pa2pte pa)]
  exact or_and_ne_left (or_and_ne_right _ h) _

omit [Layout] in
theorem valid_kernelPte (pa fl : U64) : Valid (kernelPte pa fl) :=
  kernelPte_and (by decide) (or_and_ne_right _ (by decide)) pa

omit [Layout] in
theorem pteFlags_kernelPte {fl : U64} (h : fl &&& PTE_R ≠ 0) (pa : U64) :
    pteFlags (kernelPte pa fl) ≠ PTE_V := by
  intro he
  have hR := kernelPte_and (m := PTE_R) (by decide) (or_and_ne_left h _) pa
  rw [← pteFlags_and (by decide), he] at hR
  exact hR (by decide)

omit [Layout] in
theorem pte2pa_kernelPte {g : ℕ} (hg : g < 2 ^ 44) {fl : U64} (h : IsFlags fl) :
    pte2pa (kernelPte (pageAddr g) fl) = pageAddr g := by
  rw [kernelPte, pte2pa_and_not_U, BitVec.or_assoc, BitVec.or_assoc]
  exact pte2pa_pa2pte_or hg (h.or (by decide))

/-- The memory after `uvm_new` has made a table at `g`. -/
def Maps.newSpace (a : Maps) (g : ℕ) (trapframe : U64) : Maps :=
  ((a.addRoot g).setLeaf g vTrampoline (kernelPte Layout.trampoline (PTE_R ||| PTE_X))).setLeaf g
    vTrapframe (kernelPte trapframe (PTE_R ||| PTE_W))

/-- The new table has two entries. -/
theorem Maps.newSpace_leaf_of_ne {a : Maps} {g : ℕ} {trapframe : U64} {r v : ℕ}
    (h : ¬ (r = g ∧ (v = vTrapframe ∨ v = vTrampoline))) :
    (a.newSpace g trapframe).leaf r v = a.leaf r v := by
  rw [Maps.newSpace, Maps.setLeaf_leaf_of_ne _ _ (by tauto), Maps.setLeaf_leaf_of_ne _ _ (by tauto),
    Maps.addRoot_leaf]

theorem trampoline_aligned : Layout.trampoline % PGSIZE = 0 :=
  BitVec.eq_of_toNat_eq Layout.aligned

/-- `pgt_clearubit` after `pgt_map` leaves a kernel entry. -/
theorem clearKernel_spec {p : Phys} {r : ℕ} {va pa flags : U64}
    (h : Rep own p (a.setLeaf r (vpn va) (pa2pte pa ||| flags ||| PTE_V ||| PTE_U))) (hr : a.root r)
    (hva : va < MAXVA) {Q : Unit → Phys → Prop}
    (hok : ∀ t, Rep own t (a.setLeaf r (vpn va) (kernelPte pa flags)) → Q () t) :
    wp (pgtClearubit (pageAddr r) va) E Q p := by
  refine (pgtClearubit_spec h hr hva fun hz => ?_).mono fun _ t h1 => ?_
  · have hU := or_and_ne_right (m := PTE_U) (pa2pte pa ||| flags ||| PTE_V) (y := PTE_U)
      (by decide)
    rw [Maps.setLeaf_leaf_self] at hz
    rw [hz] at hU
    exact absurd rfl hU
  · rw [Maps.setLeaf_leaf_self, Maps.setLeaf_setLeaf] at h1
    exact hok t h1

/-- `pgt_map` and `pgt_clearubit` set a kernel entry. -/
theorem mapKernel_spec {p : Phys} {r : ℕ} (h : Rep own p a) (hr : a.root r) {va pa flags : U64}
    (hva : va < MAXVA) (hal : va % PGSIZE = 0) (hpa : pa % PGSIZE = 0)
    (hinv : ¬ Valid (a.leaf r (vpn va))) {Q : Unit → Phys → Prop} {Q' : Phys → Prop}
    (hfail : ∀ t own', Rep own' t a → Grows r own own' → Q' t)
    (hok : ∀ t own', Rep own' t (a.setLeaf r (vpn va) (kernelPte pa flags)) → Grows r own own' →
      Q () t) :
    wp (pgtMap (pageAddr r) va pa flags) E (fun ok t =>
      if (!ok) = true then Q' t else wp (pgtClearubit (pageAddr r) va) E Q t) p := by
  refine (pgtMap_spec h hr hva hal hpa hinv).mono fun ok t ht => ?_
  obtain ⟨own₁, h1, hgrow, -⟩ := ht
  cases ok with
  | false => exact hfail t own₁ h1 hgrow
  | true =>
    change wp _ _ _ _
    exact clearKernel_spec h1 hr hva fun t' h2 => hok t' own₁ h2 hgrow

/-- Where the leaf table is there, they do not fail. -/
theorem mapKernel_there {p : Phys} {r : ℕ} (h : Rep own p a) (hr : a.root r) {va pa flags : U64}
    (hva : va < MAXVA) (hal : va % PGSIZE = 0) (hpa : pa % PGSIZE = 0)
    (hinv : ¬ Valid (a.leaf r (vpn va))) (hleaf : ∃ x, own x = .node r 0 (vpn va / 512))
    {Q : Unit → Phys → Prop} {Q' : Phys → Prop}
    (hok : ∀ t, Rep own t (a.setLeaf r (vpn va) (kernelPte pa flags)) → Q () t) :
    wp (pgtMap (pageAddr r) va pa flags) E (fun ok t =>
      if (!ok) = true then Q' t else wp (pgtClearubit (pageAddr r) va) E Q t) p := by
  refine (pgtMap_there h hr hva hal hpa hinv hleaf).mono fun ok t ht => ?_
  obtain ⟨rfl, h1⟩ := ht
  change wp _ _ _ _
  exact clearKernel_spec h1 hr hva hok

/-- The leaf table of an entry that is not 0 is there. -/
theorem Rep.leaf_table {p : Phys} (h : Rep own p a) {r v : ℕ} (hl : a.leaf r v ≠ 0) :
    ∃ x, own x = .node r 0 (v / 512) := by
  by_contra hno
  exact hl (h.tree.leaf_none r v fun f hf => hno ⟨f, hf⟩)

/-- **What `uvm_new` does** for a `struct uvm` that is in no use: it makes a table with the
trampoline and the trapframe, or changes nothing that is represented.  It never panics: the second
`pgt_map` finds the leaf table that the first has made. -/
theorem uvmNew_spec (h : Rep own s.phys a) {trapframe : U64} (htf : trapframe % PGSIZE = 0) :
    wp (uvmNew u trapframe) E (fun ok t =>
      ∃ phys own', if ok then
          ∃ g, own g = .free ∧ Allocatable g ∧ ¬ a.root g ∧ (∀ v, a.leaf g v = 0) ∧
            Rep own' phys (a.newSpace g trapframe) ∧ Grows g own own' ∧
            t = (s.setUvm u { Uvm.zero with pagetable := pageAddr g }).io phys s.fs
        else Rep own' phys a ∧ (∀ f r l k, own' f = .node r l k ↔ own f = .node r l k) ∧
          t = (s.setUvm u Uvm.zero).io phys s.fs) s := by
  simp only [uvmNew, wp_bind, wp_modify, wp_liftP, wp_ite, wp_pure, Kernel.io_setUvm,
    Kernel.io_uvms, Kernel.io_io, Kernel.io_phys, Kernel.io_fs, Kernel.setUvm_self,
    Kernel.setUvm_setUvm, Kernel.setUvm_phys, Kernel.setUvm_fs]
  refine (pgtNew_spec h).mono fun pa p hp => ?_
  rcases hp with ⟨rfl, rfl, -⟩ | ⟨g, rfl, hfree, hg, hroot, hleaf, -, h1⟩
  · rw [if_pos rfl]
    exact ⟨_, own, h, fun _ _ _ _ => Iff.rfl, rfl⟩
  rw [if_neg hg.pageAddr_ne_zero]
  have hgr : (a.addRoot g).root g := Or.inl rfl
  have hempty : ∀ v, ¬ Valid ((a.addRoot g).leaf g v) := fun v => by
    rw [Maps.addRoot_leaf, hleaf]
    decide
  have hnode : ∀ r l k, own g ≠ .node r l k := fun r l k he => by
    rw [hfree] at he
    cases he
  refine mapKernel_spec h1 hgr (by decide) (by decide) trampoline_aligned (hempty _)
    (fun p₂ own₂ h2 hgrow₂ => ?_) fun p₂ own₂ h2 hgrow₂ => ?_
  · refine (pgtFree_spec h2 hgr hempty).mono fun _ p₃ hp₃ => ?_
    obtain ⟨own₃, h3, hs3, -⟩ := hp₃
    rw [Maps.dropRoot_addRoot hroot hleaf] at h3
    refine ⟨p₃, own₃, ?_⟩
    rw [if_neg Bool.false_ne_true]
    -- the other tables have the pages they had, and table `g` was not there
    refine ⟨h3, fun f r l k => (hs3 f r l k).trans ?_, rfl⟩
    have hsame := ((Grows.of_update hnode).trans hgrow₂).others f r l k
    refine ⟨fun hf => (hsame hf.1).1 hf.2, fun hf => ?_⟩
    have hne : r ≠ g := fun he => hroot ((h.tree.root g).2 (he ▸ h.tree.root_of_node hf))
    exact ⟨hne, (hsame hne).2 hf⟩
  have hinv : ¬ Valid (((a.addRoot g).setLeaf g (vpn TRAMPOLINE)
      (kernelPte Layout.trampoline (PTE_R ||| PTE_X))).leaf g (vpn TRAPFRAME)) := by
    have hne : ¬ vpn TRAPFRAME = vpn TRAMPOLINE := by decide
    rw [Maps.setLeaf_leaf_of_ne _ _ fun he => hne he.2]
    exact hempty _
  have hthere : ∃ x, own₂ x = .node g 0 (vpn TRAPFRAME / 512) := by
    rw [show vpn TRAPFRAME / 512 = vpn TRAMPOLINE / 512 by decide]
    refine h2.leaf_table fun h0 => ?_
    rw [Maps.setLeaf_leaf_self] at h0
    exact valid_kernelPte Layout.trampoline (PTE_R ||| PTE_X) (by rw [h0]; decide)
  refine mapKernel_there h2 hgr (by decide) (by decide) htf hinv hthere fun p₃ h3 => ?_
  refine ⟨p₃, own₂, ?_⟩
  rw [if_pos trivial]
  exact ⟨g, hfree, hg, hroot, hleaf, h3, (Grows.of_update hnode).trans hgrow₂, rfl⟩

/-- An address space joins the well-formed ones. -/
theorem Good.newSpace (h : Good L ext own s a) (hu : ¬ L u) {g : ℕ} (hg : Allocatable g)
    (hroot : ¬ a.root g) (hleaf : ∀ v, a.leaf g v = 0) {trapframe : U64} {phys : Phys}
    {own' : ℕ → Owner} (hrep : Rep own' phys (a.newSpace g trapframe)) (fs : Fs) :
    Good (fun u' => L u' ∨ u' = u) ext own'
      ((s.setUvm u { Uvm.zero with pagetable := pageAddr g }).io phys fs)
      (a.newSpace g trapframe) := by
  refine ⟨hrep, ?_, ?_⟩
  · refine ((h.spaces.setUvm_unused hu fun i => rfl).join hu hroot ?_ (by have := hg.lt; omega)
      (fun r hr => hr.symm) (fun r v hr => ?_) fun v hv => ?_).frame rfl rfl
    · rw [Kernel.setUvm_self]
    · rw [Maps.newSpace, Maps.setLeaf_leaf_of_ne _ _ (by simp [hr]),
        Maps.setLeaf_leaf_of_ne _ _ (by simp [hr]), Maps.addRoot_leaf]
    · rw [Maps.newSpace] at hv ⊢
      by_cases h1 : v = vTrapframe
      · rw [h1, Maps.setLeaf_leaf_self]
        exact ⟨Or.inl rfl, pteFlags_kernelPte (by decide) _⟩
      rw [Maps.setLeaf_leaf_of_ne _ _ (by simp [h1])] at hv ⊢
      by_cases h2 : v = vTrampoline
      · rw [h2, Maps.setLeaf_leaf_self]
        exact ⟨Or.inr rfl, pteFlags_kernelPte (by decide) _⟩
      rw [Maps.setLeaf_leaf_of_ne _ _ (by simp [h2]), Maps.addRoot_leaf, hleaf] at hv
      exact absurd rfl hv
  · refine Counted.setLeaf_outside (Counted.setLeaf_outside (h.counted.addRoot g) _ ?_) _ ?_
    · exact show ¬ vTrampoline < vTrapframe by decide
    · exact show ¬ vTrapframe < vTrapframe by decide

/-! ### Freeing -/

/-- The file system after `begin_op(); iput(ip); end_op();` for every inode of a list. -/
inductive Drops : List (Option ℕ) → Fs → Fs → Prop
  | nil (fs : Fs) : Drops [] fs fs
  | snoc {is : List (Option ℕ)} {i : Option ℕ} {fs fs₁ fs₂ : Fs} :
    Drops is fs fs₁ → iputOp i fs₁ = .ok ((), fs₂) → Drops (is ++ [i]) fs fs₂

/-- The inodes of the first `n` entries of the vma array of `u`. -/
def Kernel.inodes (s : Kernel) (u : UvmPtr) (n : ℕ) : List (Option ℕ) :=
  (List.range n).filterMap fun i => (s.slot u i).map fun j => (s.vmas j).inode

/-- What the first `n` rounds of the loop of `uvm_free` do. -/
structure Emptied (u : UvmPtr) (n : ℕ) (s t : Kernel) (a a' : Maps) : Prop where
  uvms : ∀ u', u' ≠ u → t.uvms u' = s.uvms u'
  gone : ∀ i, i < n → t.slot u i = none
  rest : ∀ i, n ≤ i → t.slot u i = s.slot u i
  vmas : ∀ j, (∀ i, i < n → s.slot u i ≠ some j) → t.vmas j = s.vmas j
  freed : ∀ i j, i < n → s.slot u i = some j → (t.vmas j).used = false
  tables : t.procs = s.procs ∧ t.files = s.files ∧ t.nextpid = s.nextpid
  leaf : ∀ r v, r ≠ s.root u → a'.leaf r v = a.leaf r v
  kept : Maps.Kept a a'
  fs : (∀ i j, s.slot u i = some j → (s.vmas j).flags ≠ MAP_SHARED) →
    Drops (s.inodes u n) s.fs t.fs

omit [Layout] in
theorem Kernel.inodes_succ (s : Kernel) (u : UvmPtr) (n : ℕ) :
    s.inodes u (n + 1) = s.inodes u n ++
      ((s.slot u n).map fun j => (s.vmas j).inode).toList := by
  rw [Kernel.inodes, List.range_succ, List.filterMap_append, Kernel.inodes]
  rcases h : s.slot u n with _ | j <;> simp [h]

namespace Emptied

variable {t : Kernel} {a' : Maps} {n : ℕ}

omit [Layout] in
theorem start (u : UvmPtr) (s : Kernel) (a : Maps) : Emptied u 0 s s a a where
  uvms _ _ := rfl
  gone _ hi := absurd hi (Nat.not_lt_zero _)
  rest _ _ := rfl
  vmas _ _ := rfl
  freed _ _ hi := absurd hi (Nat.not_lt_zero _)
  tables := ⟨rfl, rfl, rfl⟩
  leaf _ _ _ := rfl
  kept := Maps.Kept.refl a
  fs _ := Drops.nil _

omit [Layout] in
/-- A round on an empty entry. -/
theorem skip (h : Emptied u n s t a a') (hs : t.slot u n = none) : Emptied u (n + 1) s t a a' where
  uvms := h.uvms
  gone i hi := by
    rcases Nat.lt_succ_iff_lt_or_eq.1 hi with hi | rfl
    · exact h.gone i hi
    · exact hs
  rest i hi := h.rest i (by omega)
  vmas j hj := h.vmas j fun i hi => hj i (by omega)
  freed i j hi hij := by
    rcases Nat.lt_succ_iff_lt_or_eq.1 hi with hi | rfl
    · exact h.freed i j hi hij
    · rw [← h.rest i le_rfl, hs] at hij
      cases hij
  tables := h.tables
  leaf := h.leaf
  kept := h.kept
  fs hp := by
    rw [Kernel.inodes_succ, ← h.rest n le_rfl, hs]
    simpa using h.fs hp

omit [Layout] in
/-- A round that unmaps a whole vma. -/
theorem unmap (h : Emptied u n s t a a') (hsp : Spaces L s a) (hst : Spaces L t a') {j : ℕ}
    (hs : t.slot u n = some j) (hroot : t.root u = s.root u) {phys : Phys} {fs : Fs}
    (hfs : UnmapFs t j (t.vmas j).length fs) :
    Emptied u (n + 1) s ((t.unmapped u j (t.vmas j).start (t.vmas j).length).io phys fs) a
      (a'.unmapTo (t.root u) (unmapRange (t.vmas j) (t.vmas j).start (t.vmas j).length)) := by
  have hss : s.slot u n = some j := (h.rest n le_rfl).symm.trans hs
  have hvj : t.vmas j = s.vmas j := h.vmas j fun i hi hi' => by
    have := (hsp.inj u i u n j hi' hss).2
    omega
  have hun : t.unmapped u j (t.vmas j).start (t.vmas j).length =
      (t.setSlot u n none).setVma j { t.vmas j with used := false } := by
    rw [Kernel.unmapped, if_pos rfl, hst.clearSlot_eq hs]
  have hslot : ∀ i, i ≠ n → (t.setSlot u n none).slot u i = t.slot u i := fun i hi =>
    Kernel.setSlot_slot_of_ne fun h => hi h.2
  rw [hun]
  exact {
    uvms := fun u' hu' => by
      rw [Kernel.io_uvms, Kernel.setVma_uvms, ← h.uvms u' hu']
      exact Kernel.setUvm_of_ne hu'
    gone := fun i hi => by
      change (t.setSlot u n none).slot u i = none
      by_cases hin : i = n
      · rw [hin, Kernel.setSlot_slot_self]
      · rw [hslot i hin, h.gone i (by omega)]
    rest := fun i hi => by
      change (t.setSlot u n none).slot u i = s.slot u i
      rw [hslot i (by omega), h.rest i (by omega)]
    vmas := fun j' hj' => by
      have hne : j' ≠ j := fun he => hj' n (by omega) (he ▸ hss)
      rw [Kernel.io_vmas, Kernel.setVma_vmas_of_ne hne, Kernel.setSlot_vmas]
      exact h.vmas j' fun i hi => hj' i (by omega)
    freed := fun i j' hi hij => by
      rw [Kernel.io_vmas]
      by_cases hne : j' = j
      · rw [hne, Kernel.setVma_vmas_self]
      · rw [Kernel.setVma_vmas_of_ne hne, Kernel.setSlot_vmas]
        have hin : i ≠ n := fun he => hne (by rw [he, hss] at hij; exact (Option.some.inj hij).symm)
        exact h.freed i j' (by omega) hij
    tables := h.tables
    leaf := fun r v hr => by
      rw [Maps.unmapTo, hroot, Maps.unmap_leaf_of_notMem _ _ fun hx => hr hx.1, h.leaf r v hr]
    kept := h.kept.trans (Maps.kept_unmap _ _ _ _ _)
    fs := fun hp => by
      rw [Kernel.inodes_succ, hss]
      have hput := hfs (by rw [hvj]; exact hp n j hss)
      rw [if_pos rfl, hvj] at hput
      exact (h.fs hp).snoc hput }

end Emptied

theorem Good.table_ne_zero (h : Good L ext own s a) (hu : L u) : (s.uvms u).pagetable ≠ 0 := by
  obtain ⟨hpt, hroot⟩ := h.spaces.table u hu
  have hnode := (h.rep.tree.root _).1 hroot
  rw [hpt]
  exact (h.rep.alloc.allocatable (by rw [hnode]; exact fun h => nomatch h)).pageAddr_ne_zero

omit [Layout] in
theorem Maps.valid_of_unmap {r v n w : ℕ} {b : Bool} (h : Valid ((a.unmap r v b n).leaf r w)) :
    (a.unmap r v b n).leaf r w = a.leaf r w := by
  rcases a.unmap_leaf_or r v b n r w with he | he
  · exact he
  · rw [he] at h
    exact absurd rfl h

/-- One page leaves a table without its reference. -/
theorem pgtUnmap_one {p : Phys} {r : ℕ} (h : Rep own p a) (hr : a.root r) {va : U64} {v : ℕ}
    (hbad : ¬ badRange va (va + PGSIZE)) (hv : vpn va = v) (hv' : vpn (va + PGSIZE) = v + 1)
    (hleaf : ∀ v, Valid (a.leaf r v) → pteFlags (a.leaf r v) ≠ PTE_V) :
    wp (pgtUnmap (pageAddr r) va (va + PGSIZE)) E (fun _ t =>
      ∃ own', Rep own' t (a.unmap r v false 1) ∧
        (∀ f r l k, own' f = .node r l k ↔ own f = .node r l k) ∧ Outside p t) p := by
  have := @pgtUnmapImpl_spec _ E own p a r h hr va (va + PGSIZE) false
    (fun hb => absurd hb hbad) (fun w _ _ hw hfl => absurd hfl (hleaf w hw))
    (fun hd => nomatch hd)
  rwa [hv, hv', Nat.add_sub_cancel_left] at this

/-- The end of `uvm_free`: the trampoline and the trapframe leave the table, and the table
goes. -/
theorem freeTable_spec {p : Phys} {r : ℕ} (h : Rep own p a) (hr : a.root r)
    (hempty : ∀ v, Valid (a.leaf r v) → v = vTrapframe ∨ v = vTrampoline)
    (hleaf : ∀ v, Valid (a.leaf r v) → pteFlags (a.leaf r v) ≠ PTE_V) {Q : Unit → Phys → Prop}
    (hQ : ∀ t own', Rep own' t
        (((a.unmap r vTrampoline false 1).unmap r vTrapframe false 1).dropRoot r) →
      (∀ f r' l k, own' f = .node r' l k ↔ r' ≠ r ∧ own f = .node r' l k) → Outside p t → Q () t) :
    wp (pgtUnmap (pageAddr r) TRAMPOLINE (TRAMPOLINE + PGSIZE)) E (fun _ p =>
      wp (pgtUnmap (pageAddr r) TRAPFRAME (TRAPFRAME + PGSIZE)) E (fun _ p =>
        wp (pgtFree (pageAddr r)) E Q p) p) p := by
  refine (pgtUnmap_one (v := vTrampoline) h hr (by decide) (by decide) (by decide) hleaf).mono
    fun _ p₁ hp₁ => ?_
  obtain ⟨own₁, h1, hs1, ho1⟩ := hp₁
  refine (pgtUnmap_one (v := vTrapframe) h1 (by rwa [Maps.unmap_root]) (by decide) (by decide)
    (by decide) fun v hv => ?_).mono fun _ p₂ hp₂ => ?_
  · have he := Maps.valid_of_unmap hv
    rw [he] at hv ⊢
    exact hleaf v hv
  obtain ⟨own₂, h2, hs2, ho2⟩ := hp₂
  refine (pgtFree_spec h2 (by rwa [Maps.unmap_root, Maps.unmap_root]) fun v hv => ?_).mono
    fun _ p₃ hp₃ => ?_
  · have he := Maps.valid_of_unmap hv
    rw [he] at hv
    have he' := Maps.valid_of_unmap hv
    rw [he'] at hv
    rcases hempty v hv with rfl | rfl
    · exact Maps.unmap_not_valid _ _ le_rfl (by omega) (he ▸ he' ▸ hv)
    · exact Maps.unmap_not_valid _ _ le_rfl (by omega) (he' ▸ hv)
  · obtain ⟨own₃, h3, hs3, ho3⟩ := hp₃
    exact hQ p₃ own₃ h3 (fun f r' l k => by rw [hs3, hs2, hs1]) ((ho1.trans ho2).trans ho3)

/-- The loop of `uvm_free` unmaps every vma. -/
theorem emptyVmas_spec (h : Good L ext own s a) (hE : ∀ e, FsStop e → E e)
    (hwrite : E (.panic "uvm_unmap: write error\n")) :
    wp (loop (fun i => do
      let s ← get
      match (s.uvms u).vma i with
      | none => return
      | some j => uvmUnmap u (s.vmas j).start (s.vmas j).length) 0 VMA_SIZE) E (fun _ t =>
      ∃ own' a', Good L ext own' t a' ∧ (∀ f r l k, own' f = .node r l k ↔ own f = .node r l k) ∧
        t.uvms u = ⟨(s.uvms u).pagetable, fun _ => none, (s.uvms u).heap⟩ ∧ a'.root = a.root ∧
        Emptied u VMA_SIZE s t a a') s := by
  refine wp_loop_of (fun n t =>
    ∃ own' a', Good L ext own' t a' ∧ (∀ f r l k, own' f = .node r l k ↔ own f = .node r l k) ∧
      (t.uvms u).pagetable = (s.uvms u).pagetable ∧ (t.uvms u).heap = (s.uvms u).heap ∧
      a'.root = a.root ∧ Emptied u n s t a a')
    ⟨own, a, h, fun _ _ _ _ => Iff.rfl, rfl, rfl, rfl, Emptied.start u s a⟩
    (fun n t _ hn hI => ?_) fun t ht => ?_
  · obtain ⟨own₁, a₁, h1, hs1, hpt, hheap, hroot, he⟩ := hI
    rw [wp_bind, wp_get]
    have hr : t.root u = s.root u := by rw [Kernel.root, hpt, Kernel.root]
    rcases hs : (t.uvms u).vma n with _ | j
    · exact (wp_pure _).2 ⟨own₁, a₁, h1, hs1, hpt, hheap, hroot, he.skip hs⟩
    · refine (uvmUnmap_good h1 hs (Vma.End.whole (h1.spaces.ok u n j hs)) hE hwrite).mono
        fun _ t' ht' => ?_
      obtain ⟨phys, fs, own₂, rfl, hfs, hs2, h2⟩ := ht'
      refine ⟨own₂, _, h2, fun f r l k => (hs2 f r l k).trans (hs1 f r l k), ?_, ?_, ?_,
        he.unmap h.spaces h1.spaces hs hr hfs⟩
      · rw [Kernel.io_uvms, Kernel.unmapped, if_pos rfl, h1.spaces.clearSlot_eq hs,
          Kernel.setVma_uvms, Kernel.setSlot_pagetable, hpt]
      · rw [Kernel.io_uvms, Kernel.unmapped, if_pos rfl, Kernel.setVma_uvms, clearSlot,
          Kernel.setUvm_self, hheap]
      · rw [Maps.unmapTo, Maps.unmap_root, hroot]
  · obtain ⟨own₁, a₁, h1, hs1, hpt, hheap, hroot, he⟩ := ht
    have hnone : (t.uvms u).vma = fun _ => none := by
      funext i
      by_cases hi : i < VMA_SIZE
      · exact he.gone i (by omega)
      · rcases hs : s.slot u i with _ | j
        · exact (he.rest i (by omega)).trans hs
        · exact absurd (h.spaces.bound u i j hs) hi
    exact ⟨own₁, a₁, h1, hs1, by rw [← hpt, ← hheap, ← hnone], hroot, he⟩

/-- The end of `uvm_free`, after the loop. -/
def freeTable (u : UvmPtr) : K Unit := do
  let s ← get
  let pagetable := (s.uvms u).pagetable
  panicIf (pagetable = 0) "uvm_free"
  pgtUnmap pagetable TRAMPOLINE (TRAMPOLINE + PGSIZE)
  pgtUnmap pagetable TRAPFRAME (TRAPFRAME + PGSIZE)
  pgtFree pagetable
  modify fun s => s.setUvm u { s.uvms u with pagetable := 0 }

/-- An address space without vmas goes, with its table. -/
structure Dropped (L : UvmPtr → Prop) (ext : ℕ → ℕ∞) (u : UvmPtr) (own own' : ℕ → Owner)
    (s t : Kernel) (a a' : Maps) : Prop where
  good : Good (fun u' => L u' ∧ u' ≠ u) ext own' t a'
  state : ∃ phys, t = (s.io phys s.fs).setUvm u { s.uvms u with pagetable := 0 }
  nodes : ∀ f r l k, own' f = .node r l k ↔ r ≠ s.root u ∧ own f = .node r l k
  root : ∀ r, a'.root r ↔ r ≠ s.root u ∧ a.root r
  leaf : ∀ r v, r ≠ s.root u → a'.leaf r v = a.leaf r v
  gone : ∀ v, a'.leaf (s.root u) v = 0
  kept : Maps.Kept a a'
  outside : Outside s.phys t.phys

theorem freeTable_good (h : Good L ext own s a) (hu : L u) (hslot : ∀ i, s.slot u i = none) :
    wp (freeTable u) E (fun _ t => ∃ own' a', Dropped L ext u own own' s t a a') s := by
  obtain ⟨hpt, hr⟩ := h.spaces.table u hu
  simp only [freeTable, wp_bind, wp_get, wp_panicIf, wp_liftP, wp_modify, Kernel.io_phys,
    Kernel.io_fs, Kernel.io_io]
  rw [if_neg (h.table_ne_zero hu), hpt]
  have hempty : ∀ v, Valid (a.leaf (s.root u) v) → v = vTrapframe ∨ v = vTrampoline := by
    intro v hv
    rcases h.spaces.cover u v hu hv with hc | hc | ⟨i, j, hs, -⟩
    · exact Or.inl hc
    · exact Or.inr hc
    · rw [hslot i] at hs
      cases hs
  refine freeTable_spec h.rep hr hempty (h.spaces.leaf u · hu) fun p own' h2 hs2 hout => ?_
  generalize hb : ((a.unmap (s.root u) vTrampoline false 1).unmap (s.root u) vTrapframe false
    1).dropRoot (s.root u) = b at h2
  have hbl : ∀ r v, r ≠ s.root u → b.leaf r v = a.leaf r v := fun r v hrne => by
    rw [← hb, Maps.dropRoot_leaf_of_ne _ hrne, Maps.unmap_leaf_of_notMem _ _ fun hx => hrne hx.1,
      Maps.unmap_leaf_of_notMem _ _ fun hx => hrne hx.1]
  have hbr : ∀ r, b.root r ↔ r ≠ s.root u ∧ a.root r := fun r => by
    rw [← hb]
    simp only [Maps.dropRoot, Maps.unmap_root]
  have hcount : Counted b userPlaces ext := by
    rw [← hb]
    refine Counted.dropRoot (Counted.unmap_outside (Counted.unmap_outside h.counted ?_) ?_) ?_
    · exact fun k hk _ => Nat.not_lt.2 ((Nat.le_succ vTrapframe).trans hk)
    · exact fun k hk _ => Nat.not_lt.2 hk
    · intro v hv hval
      have hval' := hval
      rw [Maps.valid_of_unmap hval, Maps.valid_of_unmap (Maps.valid_of_unmap hval ▸ hval)] at hval'
      rcases hempty v hval' with rfl | rfl
      · exact absurd hv (lt_irrefl vTrapframe)
      · exact absurd hv (Nat.not_lt.2 (Nat.le_succ vTrapframe))
  refine ⟨own', b, ⟨h2, ?_, hcount⟩, ⟨p, rfl⟩, hs2, hbr, hbl, fun v => ?_, ?_, hout⟩
  · refine ((h.spaces.leave (b := b) hu hslot ?_ hbl).setUvm_unused (fun hx => hx.2 rfl) ?_).frame
      rfl rfl
    · exact fun r hra hrne => (hbr r).2 ⟨hrne, hra⟩
    · exact hslot
  · rw [← hb, Maps.dropRoot_leaf_self]
  · rw [← hb]
    exact (Maps.kept_unmap _ _ _ _ _).trans (Maps.kept_unmap _ _ _ _ _)

/-- **Freeing an address space** never panics, apart from the file system and the write-back, and
leaves the other address spaces as they are. -/
theorem uvmFree_good (h : Good L ext own s a) (hu : L u) (hE : ∀ e, FsStop e → E e)
    (hwrite : E (.panic "uvm_unmap: write error\n")) :
    wp (uvmFree u) E (fun _ t =>
      ∃ own' a', Good (fun u' => L u' ∧ u' ≠ u) ext own' t a' ∧
        (∀ f r l k, own' f = .node r l k ↔ r ≠ s.root u ∧ own f = .node r l k) ∧
        t.uvms u = ⟨0, fun _ => none, (s.uvms u).heap⟩ ∧
        (∀ r, a'.root r ↔ r ≠ s.root u ∧ a.root r) ∧ Emptied u VMA_SIZE s t a a') s := by
  rw [uvmFree, wp_bind]
  refine (emptyVmas_spec h hE hwrite).mono fun _ t ht => ?_
  obtain ⟨own₁, a₁, h1, hs1, hut, hroot, he⟩ := ht
  have hrt : t.root u = s.root u := by rw [Kernel.root, hut, Kernel.root]
  refine (freeTable_good h1 hu fun i => by rw [Kernel.slot, hut]).mono fun _ x hx => ?_
  obtain ⟨own₂, b, hd⟩ := hx
  obtain ⟨p, rfl⟩ := hd.state
  have hu' : (((t.io p t.fs).setUvm u { t.uvms u with pagetable := 0 }).uvms u) =
      ⟨0, fun _ => none, (s.uvms u).heap⟩ := by
    rw [Kernel.setUvm_self, hut]
  have hslot : ∀ i, Kernel.slot _ u i = none := fun i => congrFun (congrArg Uvm.vma hu') i
  refine ⟨own₂, b, hd.good, fun f r l k => by rw [hd.nodes, hs1, hrt], hu',
    fun r => by rw [hd.root, hroot, hrt], ?_⟩
  exact {
    uvms := fun u' hne => (Kernel.setUvm_of_ne hne).trans (he.uvms u' hne)
    gone := fun i _ => hslot i
    rest := fun i hi => by
      rcases hs : s.slot u i with _ | j
      · exact hslot i
      · exact absurd (h.spaces.bound u i j hs) (Nat.not_lt.2 hi)
    vmas := he.vmas
    freed := he.freed
    tables := he.tables
    leaf := fun r v hrne => (hd.leaf r v (hrt ▸ hrne)).trans (he.leaf r v hrne)
    kept := he.kept.trans hd.kept
    fs := he.fs }

end Xv6
