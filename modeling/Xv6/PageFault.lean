import Xv6.PagetableFree
import Xv6.Refs
import Xv6.FsStop
import Xv6.Uvm

/-!
# What a page fault does

`uvm_completemap` either changes nothing that is represented, or it maps a fresh page, gives back
the write bit of a page that is not shared, or moves the entry to a copy of a shared page.
`Completes` lists these outcomes; `uvmCompletemap_spec` says that there are no others.
-/

namespace Xv6

open Bytes Wp

variable [Layout]

/-! ### Bytes of a page -/

section Access

variable {E : Stop → Prop} {own : ℕ → Owner} {s : Phys} {a : Maps} {f : ℕ} {p : Page}

theorem writeBytes_spec (h : Rep own s a) (hp : a.page f = some p) {o : ℕ} (ho : o < 4096)
    (bs : List Byte) :
    wp (writeBytes (BitVec.ofNat 64 (f * 4096 + o)) bs) E (fun _ t =>
      Rep own t (a.setPage f (some { p with data := putBytes p.data o bs }))) s := by
  have hA := h.allocatable hp
  have hlt : f * 4096 + o < 2 ^ 64 := by
    have := hA.2
    omega
  have hmem := (h.alloc.page_iff.1 hp).2.2
  rw [writeBytes, wp_bind, wp_frame hA ho]
  simp only [wp_bind, wp_get, setPage, wp_modify]
  rw [BitVec.toNat_ofNat, Nat.mod_eq_of_lt hlt, show (f * 4096 + o) % 4096 = o by omega, hmem]
  exact h.setData hp _

theorem writeBytes_pageAddr (h : Rep own s a) (hp : a.page f = some p) (bs : List Byte) :
    wp (writeBytes (pageAddr f) bs) E (fun _ t =>
      Rep own t (a.setPage f (some { p with data := putBytes p.data 0 bs }))) s := by
  have := writeBytes_spec (E := E) h hp (show 0 < 4096 by omega) bs
  rwa [Nat.add_zero] at this

theorem readBytes_spec (h : Rep own s a) (hp : a.page f = some p) {o : ℕ} (ho : o < 4096) (n : ℕ)
    {Q : List Byte → Phys → Prop} :
    wp (readBytes (BitVec.ofNat 64 (f * 4096 + o)) n) E Q s ↔
      Q ((List.range n).map fun i => p.data (o + i)) s := by
  have hA := h.allocatable hp
  have hlt : f * 4096 + o < 2 ^ 64 := by
    have := hA.2
    omega
  have hmem := (h.alloc.page_iff.1 hp).2.2
  rw [readBytes, wp_bind, wp_frame hA ho]
  simp only [wp_bind, wp_get, wp_pure]
  rw [BitVec.toNat_ofNat, Nat.mod_eq_of_lt hlt, show (f * 4096 + o) % 4096 = o by omega, hmem]

theorem memset_spec (h : Rep own s a) (hp : a.page f = some p) (c : Byte) :
    wp (memset (pageAddr f) c) E (fun _ t =>
      Rep own t (a.setPage f (some { p with data := fun _ => c }))) s := by
  rw [wp_memset (h.allocatable hp)]
  exact h.setData hp _

theorem memmove_spec (h : Rep own s a) (hp : a.page f = some p) {g : ℕ} {q : Page}
    (hq : a.page g = some q) :
    wp (memmove (pageAddr f) (pageAddr g)) E (fun _ t =>
      Rep own t (a.setPage f (some { p with data := q.data }))) s := by
  have hmem := (h.alloc.page_iff.1 hq).2.2
  have e : ∀ x, pageAddr x = BitVec.ofNat 64 (x * 4096 + 0) :=
    fun x => by rw [Nat.add_zero, pageAddr]
  rw [memmove, wp_bind, e f, wp_frame (h.allocatable hp) (by omega), wp_bind, e g,
    wp_frame (h.allocatable hq) (by omega)]
  simp only [wp_bind, wp_get, setPage, wp_modify, hmem]
  exact h.setData hp _

end Access

/-! ### The outcomes -/

/-- The outcomes of a page fault at page `v` of table `r`, for a vma with permissions `perm` whose
new pages are filled as `fill` says: the address returned and the memory after. -/
inductive Completes (a : Maps) (r v : ℕ) (perm : U64) (fill : (ℕ → Byte) → Prop) :
    U64 → Maps → Prop
  /-- Nothing is mapped. -/
  | refused : Completes a r v perm fill 0 a
  /-- A fresh page. -/
  | fresh {g : ℕ} {d : ℕ → Byte} (hinv : ¬ Valid (a.leaf r v)) (hg : Allocatable g)
      (hpage : a.page g = none) (hd : fill d) :
      Completes a r v perm fill (pageAddr g)
        ((a.setPage g (some ⟨1, d⟩)).setLeaf r v
          (pa2pte (pageAddr g) ||| perm ||| PTE_V ||| PTE_U))
  /-- The page is not shared. -/
  | single {p : Page} (hv : Valid (a.leaf r v)) (hu : a.leaf r v &&& PTE_U ≠ 0)
      (hp : a.page (pteFrame (a.leaf r v)) = some p) (h1 : p.refs = 1) :
      Completes a r v perm fill (pte2pa (a.leaf r v)) (a.setLeaf r v (a.leaf r v ||| PTE_W))
  /-- The page is shared and copied. -/
  | copied {p : Page} {g : ℕ} (hv : Valid (a.leaf r v)) (hu : a.leaf r v &&& PTE_U ≠ 0)
      (hp : a.page (pteFrame (a.leaf r v)) = some p) (h1 : p.refs ≠ 1) (hg : Allocatable g)
      (hpage : a.page g = none) :
      Completes a r v perm fill (pageAddr g)
        (((a.setPage g (some ⟨1, p.data⟩)).setLeaf r v
          (pa2pte (pageAddr g) ||| pteFlags (a.leaf r v) ||| PTE_W)).decref
            (pteFrame (a.leaf r v)))

/-- The contents of a new page of a vma, when the file system is `fs`. -/
def Fills (fs : Fs) (vma : Vma) (va : U64) (d : ℕ → Byte) : Prop :=
  ∃ bs fs', readPage vma va fs = .ok (bs, fs') ∧ d = putBytes (fun _ => 0) 0 bs

omit [Layout] in
theorem Slot.handOut {own : ℕ → Owner} {r v g : ℕ} {x : U64} (hx : Slot own r v x)
    (hg : own g = .free) : Slot (Function.update own g .page) r v x := by
  obtain ⟨f, hf, rfl⟩ := hx
  exact ⟨f, update_of_node (by simp [hg]) hf, rfl⟩

omit [Layout] in
theorem Grows.handOut {own : ℕ → Owner} {r g : ℕ} (hg : own g = .free) :
    Grows r own (Function.update own g .page) := by
  refine Grows.of_same fun f r l k => ⟨fun hf => ?_, update_of_node (by simp [hg])⟩
  rcases node_of_update hf with ⟨-, ho⟩ | ⟨-, hf⟩
  · cases ho
  · exact hf

omit [Layout] in
/-- `readPage` stops like other file-system code, or because the file is too short. -/
theorem readPage_spec (vma : Vma) (va : U64) {E : Stop → Prop} (hE : ∀ e, FsStop e → E e)
    (hread : E (.panic "uvm_completemap: readi")) (fs : Fs) :
    wp (readPage vma va) E (fun bs fs' => readPage vma va fs = .ok (bs, fs')) fs := by
  suffices h : wp (readPage vma va) E (fun _ _ => True) fs from h.run.mono fun _ _ h => h.1
  unfold readPage
  split
  · trivial
  · rename_i ip hip
    simp only [wp_ite, wp_pure, wp_bind, wp_panicIf]
    by_cases heof : vma.start + vma.filesz.setWidth 64 ≤ va
    · rw [if_pos heof]
      trivial
    · rw [if_neg heof]
      refine ((fsOnly_ilock ip).wp hE fs).mono fun _ fs₁ _ => ?_
      refine ((fsOnly_readi ip _ _).wp hE fs₁).mono fun bs fs₂ _ => ?_
      refine ((fsOnly_iunlock ip).wp hE fs₂).mono fun _ fs₃ _ => ?_
      split_ifs
      exact hread

section Completemap

variable {E : Stop → Prop} {own : ℕ → Owner} {a : Maps} {r : ℕ} {u : UvmPtr}

theorem completeFresh_spec {s : Kernel} (h : Rep own s.phys a) (vma : Vma) (va : U64) {v : ℕ}
    {x : U64} (hx : Slot own r v x) (hinv : ¬ Valid (a.leaf r v))
    (hfile : wp (readPage vma va) E (fun bs fs => readPage vma va s.fs = .ok (bs, fs)) s.fs) :
    wp (completeFresh vma va x) E (fun ret t =>
      ∃ phys fs own' a', t = s.io phys fs ∧ Rep own' phys a' ∧
        Grows r own own' ∧
        Completes a r v (vma.perm.setWidth 64) (Fills s.fs vma va) ret a') s := by
  simp only [completeFresh, freshPage, wp_bind, wp_liftP, wp_liftF, wp_ite, wp_pure]
  refine (kalloc_spec h).mono fun pa t ht => ?_
  rcases ht with ⟨rfl, rfl, -⟩ | ⟨g, rfl, hfree, -, hA, -, hrep⟩
  · rw [if_pos rfl, if_pos trivial]
    exact ⟨s.phys, s.fs, own, a, rfl, h, .refl r own, .refused⟩
  rw [if_neg hA.pageAddr_ne_zero]
  have hnone : a.page g = none := h.alloc.page_none_iff.2 (by simp [hfree])
  have hx' := hx.handOut hfree
  refine (storePte_slot hrep hx' _).mono fun _ t ht => ?_
  refine (memset_spec ht (by rw [Maps.setLeaf_page, Maps.setPage_page_self]) 0).mono
    fun _ t ht => ?_
  rw [if_neg hA.pageAddr_ne_zero]
  refine hfile.mono fun bs fs hbs => ?_
  refine (writeBytes_pageAddr ht (Maps.setPage_page_self ..) bs).mono fun _ t ht => ?_
  rw [Maps.setPage_setPage, Maps.setLeaf_setPage, Maps.setPage_setPage] at ht
  exact ⟨t, fs, _, _, rfl, ht, .handOut hfree, .fresh hinv hA hnone ⟨bs, fs, hbs, rfl⟩⟩

theorem completeWrite_spec {s : Phys} (h : Rep own s a) {v : ℕ} {x : U64} (hx : Slot own r v x)
    (hv : Valid (a.leaf r v)) (hu : a.leaf r v &&& PTE_U ≠ 0) {p : Page}
    (hp : a.page (pteFrame (a.leaf r v)) = some p) (perm : U64) (fill : (ℕ → Byte) → Prop) :
    wp (completeWrite x (a.leaf r v)) E (fun ret t =>
      ∃ own' a', Rep own' t a' ∧ Grows r own own' ∧ Completes a r v perm fill ret a') s := by
  simp only [completeWrite, wp_bind]
  rw [pte2pa_eq_pageAddr, ksingleref_spec h hp]
  simp only [wp_ite, wp_bind, wp_pure, decide_eq_true_eq]
  by_cases h1 : p.refs = 1
  · rw [if_pos h1]
    refine (storePte_slot h hx _).mono fun _ t ht => ?_
    rw [← pte2pa_eq_pageAddr]
    exact ⟨own, _, ht, .refl r own, .single hv hu hp h1⟩
  rw [if_neg h1]
  refine (kalloc_spec h).mono fun pa t ht => ?_
  rcases ht with ⟨rfl, rfl, -⟩ | ⟨g, rfl, hfree, -, hA, -, hrep⟩
  · rw [if_pos rfl]
    exact ⟨own, a, h, .refl r own, .refused⟩
  rw [if_neg hA.pageAddr_ne_zero]
  have hnone : a.page g = none := h.alloc.page_none_iff.2 (by simp [hfree])
  have hne : pteFrame (a.leaf r v) ≠ g := by
    rintro he
    rw [he, hnone] at hp
    cases hp
  have hx' := hx.handOut hfree
  refine (memmove_spec hrep (Maps.setPage_page_self ..)
    (by rw [Maps.setPage_page_of_ne _ _ hne, hp])).mono fun _ t ht => ?_
  rw [Maps.setPage_setPage] at ht
  refine (storePte_slot ht hx' _).mono fun _ t ht => ?_
  refine (kfree_spec ht (p := p)
    (by rw [Maps.setLeaf_page, Maps.setPage_page_of_ne _ _ hne, hp])).mono fun _ t ht => ?_
  obtain ⟨own', hrep', hsame, -⟩ := ht
  exact ⟨own', _, hrep', (Grows.handOut hfree).trans (.of_same hsame),
    .copied hv hu hp h1 hA hnone⟩

theorem completeEntry_spec {s : Kernel} (h : Rep own s.phys a) (vma : Vma) (va perm : U64) {v : ℕ}
    {x : U64} (hx : Slot own r v x)
    (hpage : perm = PTE_W → Valid (a.leaf r v) → a.leaf r v &&& PTE_U ≠ 0 →
      ∃ p, a.page (pteFrame (a.leaf r v)) = some p)
    (hfile : wp (readPage vma va) E (fun bs fs => readPage vma va s.fs = .ok (bs, fs)) s.fs)
    (hinvalid : Valid (a.leaf r v) → a.leaf r v &&& PTE_U ≠ 0 → perm ≠ PTE_W →
      E (.panic "invalid pagefault\n")) :
    wp (completeEntry vma va perm x) E (fun ret t =>
      ∃ phys fs own' a', t = s.io phys fs ∧ Rep own' phys a' ∧
        Grows r own own' ∧
        Completes a r v (vma.perm.setWidth 64) (Fills s.fs vma va) ret a' ∧
        (Valid (a.leaf r v) → ret ≠ 0 → perm = PTE_W)) s := by
  simp only [completeEntry, wp_bind, wp_liftP, loadPte_slot h hx, wp_ite]
  by_cases hv : Valid (a.leaf r v)
  swap
  · rw [if_pos (not_not.1 hv)]
    refine (completeFresh_spec h vma va hx hv hfile).mono fun ret t => ?_
    rintro ⟨phys, fs, own', a', ht, hrep', hgr', hc⟩
    exact ⟨phys, fs, own', a', ht, hrep', hgr', hc, fun hv' => absurd hv' hv⟩
  rw [if_neg hv]
  by_cases hu : a.leaf r v &&& PTE_U = 0
  · rw [if_pos hu]
    exact ⟨s.phys, s.fs, own, a, rfl, h, .refl r own, .refused, fun _ hne => absurd rfl hne⟩
  rw [if_neg hu]
  by_cases hw : perm = PTE_W
  · rw [if_pos hw]
    obtain ⟨p, hp⟩ := hpage hw hv hu
    refine (completeWrite_spec h hx hv hu hp (vma.perm.setWidth 64)
      (Fills s.fs vma va)).mono fun ret t => ?_
    rintro ⟨own', a', hrep', hgr', hc⟩
    exact ⟨t, s.fs, own', a', rfl, hrep', hgr', hc, fun _ _ => hw⟩
  · rw [if_neg hw]
    exact hinvalid hv hu hw

/-- **What `uvm_completemap` does.**  For a store, the user entry at an address of a vma, if there
is one, must point to a page that is handed out.  A valid entry is changed for a store only. -/
theorem uvmCompletemap_wp {s : Kernel} (h : Rep own s.phys a)
    (hpt : (s.uvms u).pagetable = pageAddr r) (hr : a.root r) {va perm : U64}
    (hpage : ∀ j, uvmVa2vma s u va = some j → perm = PTE_W → Valid (a.leaf r (vpn va)) →
      a.leaf r (vpn va) &&& PTE_U ≠ 0 → ∃ p, a.page (pteFrame (a.leaf r (vpn va))) = some p)
    (hfile : ∀ j, va < MAXVA → uvmVa2vma s u va = some j → wp (readPage (s.vmas j) va) E
      (fun bs fs => readPage (s.vmas j) va s.fs = .ok (bs, fs)) s.fs)
    (hinvalid : ∀ j, va < MAXVA → uvmVa2vma s u va = some j →
      (s.vmas j).perm.setWidth 64 &&& perm ≠ 0 → Valid (a.leaf r (vpn va)) →
      a.leaf r (vpn va) &&& PTE_U ≠ 0 → perm ≠ PTE_W → E (.panic "invalid pagefault\n")) :
    wp (uvmCompletemap u va perm) E (fun ret t =>
      (ret = 0 ∧ t = s) ∨
      ∃ j phys fs own' a', va % PGSIZE = 0 ∧ va < MAXVA ∧ uvmVa2vma s u va = some j ∧
        (s.vmas j).perm.setWidth 64 &&& perm ≠ 0 ∧ t = s.io phys fs ∧
        Rep own' phys a' ∧ Grows r own own' ∧
        Completes a r (vpn va) ((s.vmas j).perm.setWidth 64) (Fills s.fs (s.vmas j) va) ret a' ∧
        (Valid (a.leaf r (vpn va)) → ret ≠ 0 → perm = PTE_W)) s := by
  rw [uvmCompletemap, wp_ite]
  by_cases hva : va % PGSIZE ≠ 0 ∨ MAXVA ≤ va
  · rw [if_pos hva]
    exact Or.inl ⟨rfl, rfl⟩
  rw [if_neg hva]
  push Not at hva
  obtain ⟨hal, hlt⟩ := hva
  rw [BitVec.not_le] at hlt
  rw [wp_bind, wp_get]
  rcases hj : uvmVa2vma s u va with _ | j
  · exact Or.inl ⟨rfl, rfl⟩
  simp only [wp_ite, wp_bind, wp_liftP]
  by_cases hperm : (s.vmas j).perm.setWidth 64 &&& perm = 0
  · rw [if_pos hperm]
    exact Or.inl ⟨rfl, rfl⟩
  rw [if_neg hperm, hpt]
  refine (pgtWalk_alloc h hr hlt).mono fun res t ht => ?_
  obtain ⟨own₁, hrep, hgr, hres⟩ := ht
  rcases res with _ | x
  · exact Or.inr ⟨j, t, s.fs, own₁, a, hal, hlt, rfl, hperm, rfl, hrep, hgr, .refused,
      fun _ hne => absurd rfl hne⟩
  refine (completeEntry_spec (s := s.io t s.fs) hrep (s.vmas j) va perm hres (hpage j hj)
    (hfile j hlt hj) (hinvalid j hlt hj hperm)).mono fun ret t' => ?_
  rintro ⟨phys, fs, own', a', rfl, hrep', hgr', hc, hw⟩
  exact Or.inr ⟨j, phys, fs, own', a', hal, hlt, rfl, hperm, rfl, hrep', hgr.trans hgr', hc, hw⟩

/-- `uvm_completemap` where reading the file may stop. -/
theorem uvmCompletemap_spec {s : Kernel} (h : Rep own s.phys a)
    (hpt : (s.uvms u).pagetable = pageAddr r) (hr : a.root r) {va perm : U64}
    (hpage : ∀ j, uvmVa2vma s u va = some j → perm = PTE_W → Valid (a.leaf r (vpn va)) →
      a.leaf r (vpn va) &&& PTE_U ≠ 0 → ∃ p, a.page (pteFrame (a.leaf r (vpn va))) = some p)
    (hE : ∀ e, FsStop e → E e) (hread : E (.panic "uvm_completemap: readi"))
    (hinvalid : ∀ j, va < MAXVA → uvmVa2vma s u va = some j →
      (s.vmas j).perm.setWidth 64 &&& perm ≠ 0 → Valid (a.leaf r (vpn va)) →
      a.leaf r (vpn va) &&& PTE_U ≠ 0 → perm ≠ PTE_W → E (.panic "invalid pagefault\n")) :
    wp (uvmCompletemap u va perm) E (fun ret t =>
      (ret = 0 ∧ t = s) ∨
      ∃ j phys fs own' a', va % PGSIZE = 0 ∧ va < MAXVA ∧ uvmVa2vma s u va = some j ∧
        (s.vmas j).perm.setWidth 64 &&& perm ≠ 0 ∧ t = s.io phys fs ∧
        Rep own' phys a' ∧ Grows r own own' ∧
        Completes a r (vpn va) ((s.vmas j).perm.setWidth 64) (Fills s.fs (s.vmas j) va) ret a' ∧
        (Valid (a.leaf r (vpn va)) → ret ≠ 0 → perm = PTE_W)) s :=
  uvmCompletemap_wp h hpt hr hpage
    (fun j _ _ => readPage_spec (s.vmas j) va hE hread s.fs) hinvalid

end Completemap

end Xv6
