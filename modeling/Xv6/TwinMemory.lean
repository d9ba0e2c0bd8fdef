import Xv6.Lib.Alike
import Xv6.PagesReady
import Xv6.UvmSpec

/-!
# What the pages hold does not matter to page faults

Two memories are twins if they have the same free pages, counts and page tables; the pages that are
handed out may hold anything.  `copyout` completes a page and stores to it before it comes to the
next one, and the stores do not matter to what follows: `uvm_guaranteecomplete` for a store does the
same in twins (`StorePages.twinRuns`).
-/

namespace Xv6

open Bytes Wp

variable [Layout]

/-! ### Memory -/

/-- The same free pages, counts and page tables. -/
structure Twin (own : ℕ → Owner) (p q : Phys) : Prop where
  freelist : q.freelist = p.freelist
  refs : q.refs = p.refs
  node : ∀ f r l k, own f = .node r l k → q.mem f = p.mem f

section

variable {own own' : ℕ → Owner} {p q : Phys} {a : Maps} {r f g v l k : ℕ} {x va w : U64}

omit [Layout] in
theorem Twin.refl (own : ℕ → Owner) (p : Phys) : Twin own p p := ⟨rfl, rfl, fun _ _ _ _ _ => rfl⟩

namespace Twin

omit [Layout] in
theorem of_nodes (h : Twin own p q)
    (hn : ∀ f r l k, own' f = .node r l k → own f = .node r l k) : Twin own' p q :=
  ⟨h.freelist, h.refs, fun f r l k hf => h.node f r l k (hn f r l k hf)⟩

omit [Layout] in
/-- A page gets the same contents in both. -/
theorem fill (h : Twin own p q) (g : ℕ) (o : Owner) (d : ℕ → Byte) :
    Twin (Function.update own g o) { p with mem := Function.update p.mem g d }
      { q with mem := Function.update q.mem g d } := by
  refine ⟨h.freelist, h.refs, fun f r l k hf => ?_⟩
  by_cases hfg : f = g
  · subst hfg
    change Function.update q.mem f d f = Function.update p.mem f d f
    rw [Function.update_self, Function.update_self]
  · rw [Function.update_of_ne hfg] at hf
    exact (Function.update_of_ne hfg ..).trans
      ((h.node f r l k hf).trans (Function.update_of_ne hfg ..).symm)

omit [Layout] in
/-- A page that is not a page-table page may get any contents. -/
theorem data (h : Twin own p q) (hg : ∀ r l k, own g ≠ .node r l k) (d d' : ℕ → Byte) :
    Twin own { p with mem := Function.update p.mem g d }
      { q with mem := Function.update q.mem g d' } := by
  refine ⟨h.freelist, h.refs, fun f r l k hf => ?_⟩
  have hfg : f ≠ g := by
    rintro rfl
    exact hg r l k hf
  exact (Function.update_of_ne hfg ..).trans
    ((h.node f r l k hf).trans (Function.update_of_ne hfg ..).symm)

omit [Layout] in
/-- An entry is stored in both. -/
theorem entry (h : Twin own p q) (hf : own f = .node r l k) (i : ℕ) (w : U64) :
    Twin own { p with mem := putPte p.mem f i w } { q with mem := putPte q.mem f i w } := by
  have hfill := h.fill f (own f) (storeW (p.mem f) (8 * i) w)
  rw [Function.update_eq_self] at hfill
  unfold putPte
  rwa [h.node f r l k hf]

/-! ### Allocator and entries -/

theorem kalloc (h : Twin own p q) (hrep : Rep own p a) :
    Alike kalloc (fun pa p' q' => (pa = 0 ∧ p' = p ∧ q' = q) ∨
      ∃ g, pa = pageAddr g ∧ own g = .free ∧ Allocatable g ∧ (∀ f, f ≠ g → p'.mem f = p.mem f) ∧
        Rep (Function.update own g .page) p' (a.setPage g (some ⟨1, fun _ => 5⟩)) ∧
        ∀ o, Twin (Function.update own g o) p' q') p q := by
  have hq := h.freelist
  cases hfl : p.freelist with
  | nil =>
    have hrun : ∀ s : Phys, s.freelist = [] →
        wp Xv6.kalloc (fun _ => False) (fun pa t => pa = 0 ∧ t = s) s := fun s hs => by
      rw [Xv6.kalloc, wp_bind, wp_get, hs]
      exact ⟨rfl, rfl⟩
    exact .of_wp (hrun p hfl) (hrun q (hq.trans hfl)) (.inl ⟨rfl, rfl, rfl⟩)
  | cons g free =>
    have hg : own g = .free := (hrep.alloc.free g).2 (by rw [hfl]; simp)
    have hA : Allocatable g := hrep.alloc.allocatable (by simp [hg])
    have hrun : ∀ s : Phys, s.freelist = g :: free →
        wp Xv6.kalloc (fun _ => False) (fun pa t => pa = pageAddr g ∧
          t = ⟨Function.update s.mem g fun _ => 5, free, Function.update s.refs g 1⟩) s :=
      fun s hs => by
        rw [Xv6.kalloc, wp_bind, wp_get, hs]
        simp only [wp_bind, wp_set]
        rw [ofNat_shiftLeft_eq_pageAddr (by have := hA.2; omega), wp_memset hA]
        exact ⟨rfl, rfl⟩
    refine .of_wp (hrun p hfl) (hrun q (hq.trans hfl)) (.inr ⟨g, rfl, hg, hA,
      fun f hf => Function.update_of_ne hf .., hrep.handOut hfl _, fun o => ?_⟩)
    exact ⟨rfl, by rw [h.refs], (h.fill g o _).node⟩

theorem memset (h : Twin own p q) (hA : Allocatable g) (c : Byte) :
    Alike (memset (pageAddr g) c) (fun _ p' q' =>
      p' = { p with mem := Function.update p.mem g fun _ => c } ∧ Twin own p' q') p q := by
  have hfill := h.fill g (own g) fun _ => c
  rw [Function.update_eq_self] at hfill
  exact .of_wp ((wp_memset hA c).2 ⟨rfl, rfl⟩) ((wp_memset hA c).2 ⟨rfl, rfl⟩) ⟨rfl, hfill⟩

theorem storePte (h : Twin own p q) (hA : Allocatable f) (hf : own f = .node r l k) {i : ℕ}
    (hi : i < 512) (w : U64) : Alike (storePte (slotAddr f i) w) (fun _ p' q' =>
      p' = { p with mem := putPte p.mem f i w } ∧ Twin own p' q') p q :=
  .of_wp ((wp_storePte hA hi w).2 ⟨rfl, rfl⟩) ((wp_storePte hA hi w).2 ⟨rfl, rfl⟩)
    ⟨rfl, h.entry hf i w⟩

theorem loadPte (h : Twin own p q) (hA : Allocatable f) (hf : own f = .node r l k) {i : ℕ}
    (hi : i < 512) : Alike (loadPte (slotAddr f i))
      (fun w p' q' => w = pteAt p.mem f i ∧ p' = p ∧ q' = q) p q :=
  .of_wp ((wp_loadPte hA hi).2 ⟨rfl, rfl⟩)
    ((wp_loadPte hA hi).2 ⟨by rw [pteAt, h.node f r l k hf, ← pteAt], rfl⟩) ⟨rfl, rfl, rfl⟩

theorem storeSlot (h : Twin own p q) (hrep : Rep own p a) (hx : Slot own r v x) (w : U64) :
    Alike (Xv6.storePte x w)
      (fun _ p' q' => Rep own p' (a.setLeaf r v w) ∧ Twin own p' q') p q := by
  have hw := storePte_slot (E := fun _ => True) hrep hx w
  obtain ⟨f, hf, rfl⟩ := hx
  have hA : Allocatable f := hrep.alloc.allocatable (by simp [hf])
  exact ((h.storePte hA hf (Nat.mod_lt _ (by norm_num)) w).wp hw).mono
    fun _ _ _ ⟨⟨_, ht⟩, hrep'⟩ => ⟨hrep', ht⟩

theorem loadSlot (h : Twin own p q) (hrep : Rep own p a) (hx : Slot own r v x) :
    Alike (Xv6.loadPte x) (fun w p' q' => w = a.leaf r v ∧ p' = p ∧ q' = q) p q := by
  have hw := (loadPte_slot (E := fun _ => True) hrep hx (Q := fun w _ => w = a.leaf r v)).2 rfl
  obtain ⟨f, hf, rfl⟩ := hx
  have hA : Allocatable f := hrep.alloc.allocatable (by simp [hf])
  exact ((h.loadPte hA hf (Nat.mod_lt _ (by norm_num))).wp hw).mono
    fun _ _ _ ⟨⟨_, hp, hq⟩, hleaf⟩ => ⟨hleaf, hp, hq⟩

/-! ### Walks -/

theorem pgtWalkFrom (alloc : Bool) (hrep : Rep own p a) (h : Twin own p q)
    (hf : own f = .node r l (vpn va / 512 ^ (l + 1))) :
    Alike (pgtWalkFrom va alloc l (pageAddr f)) (fun res p' q' => ∃ own', Rep own' p' a ∧
      Twin own' p' q' ∧ ∀ x, res = some x → Slot own' r (vpn va) x) p q := by
  induction l generalizing own p q f with
  | zero =>
    rw [Xv6.pgtWalkFrom, px_eq, pteAddr_pageAddr]
    refine .pure ⟨own, hrep, h, fun x hx => ⟨f, by simpa using hf, ?_⟩⟩
    rw [← Option.some.inj hx]
    simp
  | succ l ih =>
    have hL := hrep.linked
    have hA : Allocatable f := hL.nodes _ _ _ _ hf
    have hi : vpn va / 512 ^ (l + 1) % 512 < 512 := Nat.mod_lt _ (by norm_num)
    rw [Xv6.pgtWalkFrom]
    simp only [px_eq, pteAddr_pageAddr]
    refine (h.loadPte hA hf hi).bind ?_
    rintro _ p q ⟨rfl, rfl, rfl⟩
    by_cases hv : Valid (pteAt p.mem f (vpn va / 512 ^ (l + 1) % 512))
    · obtain ⟨g, hg, he⟩ := hL.tree.down f r l _ _ hf hi hv
      have hgA := hL.nodes _ _ _ _ hg
      rw [place_below] at hg
      rw [if_pos hv, he, pte2pa_pteTo (by have := hgA.2; omega)]
      exact ih hrep h hg
    rw [if_neg hv]
    cases alloc with
    | false => exact .pure ⟨own, hrep, h, fun x hx => by cases hx⟩
    | true =>
      rw [if_neg (by simp)]
      refine (h.kalloc hrep).bind ?_
      rintro _ p₁ q₁ (⟨rfl, rfl, rfl⟩ | ⟨g, rfl, hgo, hgA, hmem, hrep', htwin⟩)
      · rw [if_pos rfl]
        exact .pure ⟨own, hrep, h, fun x hx => by cases hx⟩
      -- the new page is zeroed, then linked below this one
      rw [if_neg hgA.pageAddr_ne_zero]
      have hg : ∀ r l k, own g ≠ .node r l k := by simp [hgo]
      have hlink := hrep.linkNew hgo hmem hrep' rfl hf hi hv
      rw [place_below] at hlink
      refine ((htwin (.node r l (vpn va / 512 ^ (l + 1)))).memset hgA 0).bind ?_
      rintro _ _ q₂ ⟨rfl, ht⟩
      refine (ht.storePte hA (update_of_node hg hf) hi (pteTo g)).bind ?_
      rintro _ _ q₃ ⟨rfl, ht⟩
      exact ih hlink ht (Function.update_self ..)

theorem pgtWalk (alloc : Bool) (hrep : Rep own p a) (h : Twin own p q) (hr : a.root r)
    (hva : va < MAXVA) : Alike (pgtWalk (pageAddr r) va alloc) (fun res p' q' => ∃ own',
      Rep own' p' a ∧ Twin own' p' q' ∧ ∀ x, res = some x → Slot own' r (vpn va) x) p q := by
  rw [Xv6.pgtWalk, panicIf, if_neg (BitVec.not_le.2 hva), pure_bind]
  refine pgtWalkFrom (l := 2) alloc hrep h ?_
  rw [(hrep.tree.root r).1 hr, vpn_div_root hva]

/-! ### Pages -/

/-- A page takes bytes. -/
theorem writeBytes_run (hA : Allocatable g) {o : ℕ} (ho : o < 4096) (bs : List Byte) (s : Phys) :
    wp (Xv6.writeBytes (BitVec.ofNat 64 (g * 4096 + o)) bs) (fun _ => False) (fun y t => y = () ∧
      t = { s with mem := Function.update s.mem g (putBytes (s.mem g) o bs) }) s := by
  have ht : (BitVec.ofNat 64 (g * 4096 + o)).toNat % 4096 = o := by
    have := hA.2
    rw [BitVec.toNat_ofNat]
    omega
  rw [Xv6.writeBytes, wp_bind, wp_frame hA ho]
  exact ⟨rfl, by rw [ht]⟩

theorem writeBytes (h : Twin own p q) (hrep : Rep own p a) {pg : Page} (hp : a.page g = some pg)
    {o : ℕ} (ho : o < 4096) (bs : List Byte) :
    Alike (writeBytes (BitVec.ofNat 64 (g * 4096 + o)) bs) (fun _ p' q' =>
      Rep own p' (a.setPage g (some { pg with data := putBytes pg.data o bs })) ∧
        Twin own p' q') p q := by
  have hA := hrep.allocatable hp
  have hg : ∀ r l k, own g ≠ .node r l k := by simp [(hrep.alloc.page_iff.1 hp).1]
  exact (Alike.wp (R := fun _ p' q' => Twin own p' q') (.of_wp (writeBytes_run hA ho bs p)
    (writeBytes_run hA ho bs q) (h.data hg _ _)) (writeBytes_spec hrep hp ho bs)).mono
      fun _ _ _ h => h.symm

theorem memmove (h : Twin own p q) (hrep : Rep own p a) {pg pg' : Page} (hp : a.page f = some pg)
    (hp' : a.page g = some pg') : Alike (memmove (pageAddr f) (pageAddr g)) (fun _ p' q' =>
      Rep own p' (a.setPage f (some { pg with data := pg'.data })) ∧ Twin own p' q') p q := by
  have hf : ∀ r l k, own f ≠ .node r l k := by simp [(hrep.alloc.page_iff.1 hp).1]
  have e : ∀ x, pageAddr x = BitVec.ofNat 64 (x * 4096 + 0) :=
    fun x => by rw [Nat.add_zero, pageAddr]
  have hrun : ∀ s : Phys, wp (Xv6.memmove (pageAddr f) (pageAddr g)) (fun _ => False)
      (fun y t => y = () ∧ t = { s with mem := Function.update s.mem f (s.mem g) }) s := fun s => by
    rw [Xv6.memmove, wp_bind, e f, wp_frame (hrep.allocatable hp) (by omega), wp_bind, e g,
      wp_frame (hrep.allocatable hp') (by omega)]
    exact ⟨rfl, rfl⟩
  exact (Alike.wp (R := fun _ p' q' => Twin own p' q') (.of_wp (hrun p) (hrun q) (h.data hf _ _))
    (memmove_spec hrep hp hp')).mono fun _ _ _ h => h.symm

theorem ksingleref (h : Twin own p q) (hrep : Rep own p a) {pg : Page} (hp : a.page g = some pg) :
    Alike (ksingleref (pageAddr g))
      (fun one p' q' => one = decide (pg.refs = 1) ∧ p' = p ∧ q' = q) p q := by
  obtain ⟨hg, hrefs, -⟩ := hrep.alloc.page_iff.1 hp
  have hA : Allocatable g := hrep.alloc.allocatable (by simp [hg])
  have hsh := pageAddr_shiftRight (g := g) (by have := hA.2; omega)
  have hrun : ∀ s : Phys, s.refs g = pg.refs → wp (Xv6.ksingleref (pageAddr g)) (fun _ => False)
      (fun one t => one = decide (pg.refs = 1) ∧ t = s) s := fun s hs => by
    rw [Xv6.ksingleref]
    simp only [wp_bind, wp_panicIf, if_neg (not_badPage hA), wp_get, hsh, hs]
    exact ⟨rfl, rfl⟩
  exact .of_wp (hrun p hrefs) (hrun q (by rw [h.refs, hrefs])) ⟨rfl, rfl, rfl⟩

/-- A reference to a page that has others is given up. -/
theorem kfree (h : Twin own p q) (hrep : Rep own p a) {pg : Page} (hp : a.page g = some pg)
    (h1 : pg.refs ≠ 1) : Alike (kfree (pageAddr g)) (fun _ p' q' => ∃ own',
      Rep own' p' (a.decref g) ∧ Twin own' p' q') p q := by
  obtain ⟨hg, hrefs, -⟩ := hrep.alloc.page_iff.1 hp
  have hA : Allocatable g := hrep.alloc.allocatable (by simp [hg])
  have hpos := hrep.alloc.refs_pos hp
  have hsh := pageAddr_shiftRight (g := g) (by have := hA.2; omega)
  have hrun : ∀ s : Phys, s.refs g = pg.refs → wp (Xv6.kfree (pageAddr g)) (fun _ => False)
      (fun y t => y = () ∧ t = { s with refs := Function.update s.refs g (pg.refs - 1) }) s :=
    fun s hs => by
      rw [Xv6.kfree]
      simp only [wp_bind, wp_panicIf, if_neg (not_badPage hA), wp_modify, wp_get, hsh,
        Function.update_self, wp_ite, hs]
      rw [if_neg (by omega), if_neg (by omega)]
      exact ⟨trivial, rfl⟩
  have htwin : Twin own { p with refs := Function.update p.refs g (pg.refs - 1) }
      { q with refs := Function.update q.refs g (pg.refs - 1) } :=
    ⟨h.freelist, by rw [h.refs], h.node⟩
  refine (Alike.wp (R := fun _ p' q' => Twin own p' q') (.of_wp (hrun p hrefs)
    (hrun q (by rw [h.refs, hrefs])) htwin) (kfree_spec hrep hp)).mono ?_
  rintro _ p' q' ⟨ht, own', hrep', hsame, -⟩
  exact ⟨own', hrep', ht.of_nodes fun f r l k => (hsame f r l k).1⟩

/-- A new page behind an entry. -/
theorem freshPage (h : Twin own p q) (hrep : Rep own p a) (vma : Vma) (hx : Slot own r v x) :
    Alike (freshPage vma x) (fun pa p' q' => ∃ own', Twin own' p' q' ∧
      ((pa = 0 ∧ Rep own' p' a) ∨ ∃ g, pa = pageAddr g ∧ Allocatable g ∧ a.page g = none ∧
        Rep own' p' ((a.setPage g (some ⟨1, fun _ => 0⟩)).setLeaf r v
          (pa2pte (pageAddr g) ||| vma.perm.setWidth 64 ||| PTE_V ||| PTE_U)))) p q := by
  rw [Xv6.freshPage]
  refine (h.kalloc hrep).bind ?_
  rintro _ p₁ q₁ (⟨rfl, rfl, rfl⟩ | ⟨g, rfl, hgo, hgA, -, hrep', htwin⟩)
  · rw [if_pos rfl]
    exact .pure ⟨own, h, .inl ⟨rfl, hrep⟩⟩
  rw [if_neg hgA.pageAddr_ne_zero]
  refine ((htwin .page).storeSlot hrep' (hx.handOut hgo) _).bind ?_
  rintro _ p₂ q₂ ⟨hrep₂, ht₂⟩
  refine ((ht₂.memset hgA 0).wp (memset_spec hrep₂
    (by rw [Maps.setLeaf_page, Maps.setPage_page_self]) 0)).bind ?_
  rintro _ p₃ q₃ ⟨⟨-, ht₃⟩, hrep₃⟩
  rw [Maps.setLeaf_setPage, Maps.setPage_setPage] at hrep₃
  exact .pure ⟨_, ht₃, .inr ⟨g, rfl, hgA, hrep.alloc.page_none_iff.2 (by simp [hgo]), hrep₃⟩⟩

/-- A store to a page that is mapped. -/
theorem completeWrite (h : Twin own p q) (hrep : Rep own p a) (hx : Slot own r v x)
    (hv : Valid (a.leaf r v)) (hU : a.leaf r v &&& PTE_U ≠ 0) {pg : Page}
    (hp : a.page (pteFrame (a.leaf r v)) = some pg) (perm : U64) (fill : (ℕ → Byte) → Prop) :
    Alike (completeWrite x (a.leaf r v)) (fun ret p' q' => ∃ own' b, Rep own' p' b ∧
      Twin own' p' q' ∧ Completes a r v perm fill ret b) p q := by
  rw [Xv6.completeWrite, pte2pa_eq_pageAddr]
  refine (h.ksingleref hrep hp).bind ?_
  rintro _ p₁ q₁ ⟨rfl, rfl, rfl⟩
  by_cases h1 : pg.refs = 1
  · rw [if_pos (decide_eq_true h1)]
    refine (h.storeSlot hrep hx _).bind ?_
    rintro _ p₂ q₂ ⟨hrep₂, ht₂⟩
    rw [← pte2pa_eq_pageAddr]
    exact .pure ⟨own, _, hrep₂, ht₂, .single hv hU hp h1⟩
  rw [if_neg (by simpa using h1)]
  refine (h.kalloc hrep).bind ?_
  rintro _ p₂ q₂ (⟨rfl, rfl, rfl⟩ | ⟨g, rfl, hgo, hgA, -, hrep₂, htwin⟩)
  · rw [if_pos rfl]
    exact .pure ⟨own, a, hrep, h, .refused⟩
  rw [if_neg hgA.pageAddr_ne_zero]
  have hnone : a.page g = none := hrep.alloc.page_none_iff.2 (by simp [hgo])
  have hne : pteFrame (a.leaf r v) ≠ g := by
    rintro he
    rw [he, hnone] at hp
    cases hp
  refine ((htwin .page).memmove hrep₂ (Maps.setPage_page_self ..)
    (by rw [Maps.setPage_page_of_ne _ _ hne, hp])).bind ?_
  rintro _ p₃ q₃ ⟨hrep₃, ht₃⟩
  rw [Maps.setPage_setPage] at hrep₃
  refine (ht₃.storeSlot hrep₃ (hx.handOut hgo) _).bind ?_
  rintro _ p₄ q₄ ⟨hrep₄, ht₄⟩
  refine (ht₄.kfree hrep₄ ((congrFun (Maps.setLeaf_page ..) _).trans
    ((Maps.setPage_page_of_ne _ _ hne).trans hp)) h1).bind ?_
  rintro _ p₅ q₅ ⟨own', hrep₅, ht₅⟩
  exact .pure ⟨own', _, hrep₅, ht₅, .copied hv hU hp h1 hgA hnone⟩

end Twin

end

/-! ### The kernel -/

/-- The runs of `m` from `x`, and from `x` with the memory `q`, end alike, in kernels that differ in
memory only. -/
def TwinRuns {α : Type} (m : K α) (R : α → Kernel → Phys → Prop) (x : Kernel) (q : Phys) : Prop :=
  Alike m (fun y x' t' => ∃ q', t' = x'.io q' x'.fs ∧ R y x' q') x (x.io q x.fs)

section

variable {α β : Type} {m : K α} {R : α → Kernel → Phys → Prop} {x : Kernel} {q : Phys}

namespace TwinRuns

omit [Layout] in
theorem pure {y : α} (h : R y x q) : TwinRuns (Pure.pure y : K α) R x q :=
  Alike.pure ⟨q, rfl, h⟩

omit [Layout] in
theorem bind {f : α → K β} {Q : β → Kernel → Phys → Prop} (h : TwinRuns m R x q)
    (hf : ∀ y x' q', R y x' q' → TwinRuns (f y) Q x' q') : TwinRuns (m >>= f) Q x q := by
  refine Alike.bind h ?_
  rintro y x' _ ⟨q', rfl, hR⟩
  exact hf y x' q' hR

omit [Layout] in
theorem getBind {f : Kernel → K α} (hf : f (x.io q x.fs) = f x) (h : TwinRuns (f x) R x q) :
    TwinRuns (get >>= f) R x q := by
  unfold TwinRuns Alike at h ⊢
  rw [wp_bind, wp_get, bind_of_ok (a := x.io q x.fs) (t := x.io q x.fs) rfl, hf]
  exact h

omit [Layout] in
/-- Code on memory. -/
theorem bindP {m : P α} {f : α → K β} {P : α → Phys → Phys → Prop} {Q : β → Kernel → Phys → Prop}
    (h : Alike m P x.phys q)
    (hf : ∀ y p' q', P y p' q' → TwinRuns (f y) Q (x.io p' x.fs) q') :
    TwinRuns ((liftM m : K α) >>= f) Q x q := by
  refine bind (R := fun y x' q' => ∃ p', x' = x.io p' x.fs ∧ P y p' q') ?_ ?_
  · cases hm : m x.phys with
    | error e =>
      exact Alike.of_error (liftP_of_error hm)
        (liftP_of_error (s := x.io q x.fs) (h.error_left hm))
    | ok y =>
      obtain ⟨y, p'⟩ := y
      obtain ⟨q', hq, hP⟩ := h.ok_left hm
      exact Alike.of_ok (liftP_of_ok hm) (liftP_of_ok (s := x.io q x.fs) hq) ⟨q', rfl, p', rfl, hP⟩
  · rintro y _ q' ⟨p', rfl, hP⟩
    exact hf y p' q' hP

omit [Layout] in
/-- Code on the file system does the same in both. -/
theorem bindF {m : F α} {f : α → K β} {Q : β → Kernel → Phys → Prop}
    (hf : ∀ y fs, m x.fs = .ok (y, fs) → TwinRuns (f y) Q (x.io x.phys fs) q) :
    TwinRuns ((liftM m : K α) >>= f) Q x q := by
  refine bind (R := fun y x' q' => ∃ fs, m x.fs = .ok (y, fs) ∧ x' = x.io x.phys fs ∧ q' = q) ?_ ?_
  · cases hm : m x.fs with
    | error e => exact Alike.of_error (liftF_of_error hm) (liftF_of_error (s := x.io q x.fs) hm)
    | ok y =>
      obtain ⟨y, fs⟩ := y
      exact Alike.of_ok (liftF_of_ok hm) (liftF_of_ok (s := x.io q x.fs) hm)
        ⟨q, rfl, fs, rfl, rfl, rfl⟩
  · rintro y _ _ ⟨fs, hm, rfl, rfl⟩
    exact hf y fs hm

end TwinRuns

end

/-! ### Address spaces -/

omit [Layout] in
theorem vTrampoline_eq : vTrampoline = vTrapframe + 1 := rfl

/-- An address space in which stores go to pages: the kernel holds a reference to its trapframe, and
the trampoline cannot be stored to. -/
structure StorePages (L : UvmPtr → Prop) (ext : ℕ → ℕ∞) (own : ℕ → Owner) (s : Kernel) (a : Maps)
    (u : UvmPtr) : Prop extends Good L ext own s a where
  live : L u
  trapframe : Valid (a.leaf (s.root u) vTrapframe) →
    1 ≤ ext (pteFrame (a.leaf (s.root u) vTrapframe))
  trampoline : a.leaf (s.root u) vTrampoline &&& PTE_W = 0

namespace StorePages

variable {L : UvmPtr → Prop} {ext : ℕ → ℕ∞} {own : ℕ → Owner} {s : Kernel} {a : Maps} {u : UvmPtr}
  {q : Phys}

theorem page_of_valid (h : StorePages L ext own s a u) {v : ℕ} (hlt : v < vTrampoline)
    (hv : Valid (a.leaf (s.root u) v)) : ∃ p, a.page (pteFrame (a.leaf (s.root u) v)) = some p := by
  by_cases hlow : v < vTrapframe
  · exact h.counted.page_of_valid (show (s.root u, v) ∈ userPlaces from hlow) hv
  obtain rfl : v = vTrapframe := by
    have := vTrampoline_eq
    omega
  have hone : 1 ≤ a.refs (pteFrame (a.leaf (s.root u) vTrapframe)) := by
    rw [h.counted.counts (pteFrame (a.leaf (s.root u) vTrapframe))]
    exact (h.trapframe hv).trans le_add_self
  cases hpg : a.page (pteFrame (a.leaf (s.root u) vTrapframe)) with
  | some p => exact ⟨p, rfl⟩
  | none =>
    rw [Maps.refs_of_none hpg] at hone
    exact absurd hone (by simp)

/-- New page-table pages do not matter. -/
theorem walked (h : StorePages L ext own s a u) {own' : ℕ → Owner} {p : Phys} (hrep : Rep own' p a)
    (fs : Fs) : StorePages L ext own' (s.io p fs) a u :=
  { h with rep := hrep, spaces := h.spaces.frame rfl rfl }

/-- A store to a page, in one of the twins. -/
theorem stored (h : StorePages L ext own s a u) (ht : Twin own s.phys q) {g : ℕ} {pg : Page}
    (hp : a.page g = some pg) {off : U64} (hoff : off.toNat < 4096) (bs : List Byte) :
    ∃ p b, (liftM (writeBytes (pageAddr g + off) bs) : K Unit) s = .ok ((), s.io p s.fs) ∧
      StorePages L ext own (s.io p s.fs) b u ∧ Twin own p q := by
  have hA := h.rep.allocatable hp
  have haddr : pageAddr g + off = BitVec.ofNat 64 (g * 4096 + off.toNat) := by
    apply BitVec.eq_of_toNat_eq
    rw [BitVec.toNat_add, toNat_pageAddr (by have := hA.lt; omega), BitVec.toNat_ofNat]
  obtain ⟨_, p, hrun, rfl, hp'⟩ := (Twin.writeBytes_run hA hoff bs s.phys).exists_ok
  have hrep := (writeBytes_spec (E := fun _ => True) h.rep hp hoff bs).ok hrun
  set b := a.setPage g (some { pg with data := putBytes pg.data off.toNat bs }) with hb
  have hsp : Spaces L s b := h.spaces.setMaps (b := b) (fun u hu => (h.spaces.table u hu).2)
    (fun _ _ _ hv => Or.inl hv) fun u v hu hv => h.spaces.leaf u v hu hv
  refine ⟨p, b, ?_, ⟨⟨hrep, hsp.frame rfl rfl, h.counted.setData hp _⟩, h.live, h.trapframe,
    h.trampoline⟩, ?_⟩
  · rw [haddr]
    exact liftP_of_ok hrun
  · have hg : ∀ r l k, own g ≠ .node r l k := by simp [(h.rep.alloc.page_iff.1 hp).1]
    have hdata := ht.data hg (putBytes (s.phys.mem g) off.toNat bs) (q.mem g)
    rwa [Function.update_eq_self, ← hp'] at hdata

/-- A page fault. -/
theorem complete (h : StorePages L ext own s a u) {va ret : U64} {j : ℕ}
    (hj : uvmVa2vma s u va = some j) {own' : ℕ → Owner} {b : Maps} {p : Phys} (fs : Fs)
    (hrep : Rep own' p b) {fill : (ℕ → Byte) → Prop}
    (hc : Completes a (s.root u) (vpn va) ((s.vmas j).perm.setWidth 64) fill ret b) :
    StorePages L ext own' (s.io p fs) b u := by
  obtain ⟨i, hs, hhas⟩ := uvmVa2vma_some hj
  have hlow : vpn va < vTrapframe := vpn_lt_vTrapframe (h.spaces.ok u i j hs) hhas
  have htop := vTrampoline_eq
  have hother : ∀ v, v ≠ vpn va → b.leaf (s.root u) v = a.leaf (s.root u) v :=
    fun v hv => hc.leaf_other fun he => hv he.2
  refine ⟨h.toGood.complete h.live hj fs hrep hc, h.live, ?_, ?_⟩
  · change Valid (b.leaf (s.root u) vTrapframe) →
      1 ≤ ext (pteFrame (b.leaf (s.root u) vTrapframe))
    rw [hother _ (by omega)]
    exact h.trapframe
  · change b.leaf (s.root u) vTrampoline &&& PTE_W = 0
    rw [hother _ (by omega)]
    exact h.trampoline

/-- What a page fault for a store, or the lookup before it, leaves, in a kernel and in its twin: no
entry is lost, and the address returned is that of a page. -/
def Completed (L : UvmPtr → Prop) (ext : ℕ → ℕ∞) (u : UvmPtr) (va : U64) (s : Kernel) (a : Maps)
    (ret : U64) (t : Kernel) (q : Phys) : Prop :=
  ∃ p fs own' b, t = s.io p fs ∧ StorePages L ext own' t b u ∧ Twin own' p q ∧
    (∀ v, Valid (a.leaf (s.root u) v) → Valid (b.leaf (s.root u) v)) ∧
    (ret ≠ 0 → ret = pageAddr (pteFrame (b.leaf (s.root u) (vpn va))) ∧
      ∃ pg, b.page (pteFrame (b.leaf (s.root u) (vpn va))) = some pg)

theorem completed_refused (h : StorePages L ext own s a u) (ht : Twin own s.phys q) (va : U64) :
    Completed L ext u va s a 0 s q :=
  ⟨s.phys, s.fs, own, a, rfl, h, ht, fun _ hv => hv, fun h0 => absurd rfl h0⟩

theorem completed (h : StorePages L ext own s a u) {va ret : U64} {j : ℕ}
    (hj : uvmVa2vma s u va = some j) {own' : ℕ → Owner} {b : Maps} {p : Phys} {fs : Fs}
    (hrep : Rep own' p b) (ht : Twin own' p q) (fill : (ℕ → Byte) → Prop)
    (hc : Completes a (s.root u) (vpn va) ((s.vmas j).perm.setWidth 64) fill ret b) :
    Completed L ext u va s a ret (s.io p fs) q := by
  obtain ⟨i, hs, hhas⟩ := uvmVa2vma_some hj
  have hlow : vpn va < vTrapframe := vpn_lt_vTrapframe (h.spaces.ok u i j hs) hhas
  have hnew := h.complete hj fs hrep hc
  refine ⟨p, fs, own', b, rfl, hnew, ht, ?_⟩
  rcases hc.leaf_cases (isFlags_setWidth (h.spaces.perm u i j hs)) with
    ⟨rfl, rfl⟩ | ⟨hv, -, hpa, hsame⟩
  · exact ⟨fun _ hv => hv, fun h0 => absurd rfl h0⟩
  refine ⟨fun v hval => ?_, fun _ => ⟨?_, ?_⟩⟩
  · by_cases he : v = vpn va
    · rwa [he]
    · rwa [hsame _ _ fun h => he h.2]
  · rw [← hpa, pte2pa_eq_pageAddr]
  · exact hnew.page_of_valid (by have := vTrampoline_eq; omega) hv

/-- An entry that is not valid. -/
theorem completeFresh (h : StorePages L ext own s a u) (ht : Twin own s.phys q) {va x : U64} {j : ℕ}
    (hj : uvmVa2vma s u va = some j) (hx : Slot own (s.root u) (vpn va) x)
    (hinv : ¬ Valid (a.leaf (s.root u) (vpn va))) :
    TwinRuns (completeFresh (s.vmas j) va x) (Completed L ext u va s a) s q := by
  rw [Xv6.completeFresh]
  refine .bindP (ht.freshPage h.rep (s.vmas j) hx) ?_
  rintro _ p₁ q₁ ⟨own₁, ht₁, ⟨rfl, hrep₁⟩ | ⟨g, rfl, hgA, hnone, hrep₁⟩⟩
  · rw [if_pos rfl]
    exact .pure (h.completed hj hrep₁ ht₁ (fun _ => True) .refused)
  rw [if_neg hgA.pageAddr_ne_zero]
  refine .bindF fun bs fs hread => ?_
  have hwrite := ht₁.writeBytes hrep₁
    ((congrFun (Maps.setLeaf_page ..) g).trans (Maps.setPage_page_self ..)) (o := 0) (by omega) bs
  rw [Nat.add_zero, ← pageAddr] at hwrite
  refine .bindP hwrite ?_
  rintro _ p₂ q₂ ⟨hrep₂, ht₂⟩
  rw [Maps.setLeaf_setPage, Maps.setPage_setPage] at hrep₂
  exact .pure (h.completed hj hrep₂ ht₂ (fun _ => True) (.fresh hinv hgA hnone trivial))

/-- `uvm_completemap` for a store. -/
theorem completemap (h : StorePages L ext own s a u) (ht : Twin own s.phys q) (va : U64) :
    TwinRuns (uvmCompletemap u va PTE_W) (Completed L ext u va s a) s q := by
  obtain ⟨hpt, hr⟩ := h.spaces.table u h.live
  rw [uvmCompletemap]
  by_cases hva : va % PGSIZE ≠ 0 ∨ MAXVA ≤ va
  · rw [if_pos hva]
    exact .pure (h.completed_refused ht va)
  rw [if_neg hva]
  push Not at hva
  refine .getBind rfl ?_
  cases hj : uvmVa2vma s u va with
  | none => exact .pure (h.completed_refused ht va)
  | some j =>
    dsimp only
    by_cases hperm : (s.vmas j).perm.setWidth 64 &&& PTE_W = 0
    · rw [if_pos hperm]
      exact .pure (h.completed_refused ht va)
    rw [if_neg hperm, hpt]
    refine .bindP (Twin.pgtWalk true h.rep ht hr (BitVec.not_le.1 hva.2)) ?_
    rintro res p₁ q₁ ⟨own₁, hrep₁, ht₁, hslot⟩
    have h₁ := h.walked hrep₁ s.fs
    cases res with
    | none => exact .pure (h.completed hj hrep₁ ht₁ (fun _ => True) .refused)
    | some x =>
      have hx := hslot x rfl
      dsimp only
      rw [completeEntry]
      refine .bindP (ht₁.loadSlot hrep₁ hx) ?_
      rintro _ p q' ⟨rfl, rfl, rfl⟩
      by_cases hv : Valid (a.leaf (s.root u) (vpn va))
      swap
      · rw [if_pos (not_not.1 hv)]
        exact h₁.completeFresh ht₁ hj hx hv
      rw [if_neg hv]
      by_cases hU : a.leaf (s.root u) (vpn va) &&& PTE_U = 0
      · rw [if_pos hU]
        exact .pure (h.completed hj hrep₁ ht₁ (fun _ => True) .refused)
      rw [if_neg hU, if_pos rfl]
      obtain ⟨i, hs, hhas⟩ := uvmVa2vma_some hj
      have hlow := vpn_lt_vTrapframe (h.spaces.ok u i j hs) hhas
      obtain ⟨pg, hp⟩ := h.page_of_valid (by have := vTrampoline_eq; omega) hv
      rw [← bind_pure (liftM (Xv6.completeWrite x (a.leaf (s.root u) (vpn va))) : K U64)]
      refine .bindP (ht₁.completeWrite hrep₁ hx hv hU hp ((s.vmas j).perm.setWidth 64)
        fun _ => True) ?_
      rintro ret p₂ q₂ ⟨own₂, b, hrep₂, ht₂, hc⟩
      exact .pure (h.completed hj hrep₂ ht₂ _ hc)

/-- **`uvm_guaranteecomplete` for a store**, which `copyout` does for each page. -/
theorem twinRuns (h : StorePages L ext own s a u) (ht : Twin own s.phys q) (va : U64) :
    TwinRuns (uvmGuaranteecomplete u va PTE_W) (Completed L ext u va s a) s q := by
  obtain ⟨hpt, hr⟩ := h.spaces.table u h.live
  rw [uvmGuaranteecomplete]
  refine .getBind rfl ?_
  rw [hpt]
  by_cases hva : va < MAXVA
  swap
  · exact .bindP (P := fun _ _ _ => False) (.of_error (pgtWalk_panics (BitVec.not_lt.1 hva) _)
      (pgtWalk_panics (BitVec.not_lt.1 hva) _)) fun _ _ _ h => h.elim
  refine .bindP (Twin.pgtWalk false h.rep ht hr hva) ?_
  rintro res p₁ q₁ ⟨own₁, hrep₁, ht₁, hslot⟩
  have h₁ := h.walked hrep₁ s.fs
  cases res with
  | none => exact h₁.completemap ht₁ va
  | some x =>
    refine .bindP (ht₁.loadSlot hrep₁ (hslot x rfl)) ?_
    rintro _ p q' ⟨rfl, rfl, rfl⟩
    by_cases hc : a.leaf (s.root u) (vpn va) &&& PTE_V = 0 ∨
        a.leaf (s.root u) (vpn va) &&& PTE_W = 0
    · rw [if_pos hc]
      exact h₁.completemap ht₁ va
    rw [if_neg hc]
    obtain ⟨hv, hW⟩ := not_or.1 hc
    have hM : MAXVA.toNat = (vTrampoline + 1) * 4096 := by decide
    have hlt : vpn va < vTrampoline := by
      have hne : vpn va ≠ vTrampoline := fun he => hW (he ▸ h.trampoline)
      rw [BitVec.lt_def, hM] at hva
      unfold vpn at hne ⊢
      omega
    exact .pure ⟨_, s.fs, own₁, a, rfl, h₁, ht₁, fun _ hv => hv,
      fun _ => ⟨pte2pa_eq_pageAddr _, h.page_of_valid hlt hv⟩⟩

end StorePages

end Xv6
