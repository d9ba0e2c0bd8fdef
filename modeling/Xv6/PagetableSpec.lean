import Xv6.Rep

/-!
# The page-table code implements maps

For every function of `kernel/kalloc.c` and `kernel/pagetable.c` a specification in terms of the
memory it represents: `pgt_walk` finds the place of a leaf entry and changes nothing that is
represented, stores to that place set the leaf, `pgt_unmap_impl` and `pgt_clone` act on a range of
leaves, `pgt_free` takes a table without leaves away.
-/

namespace Xv6

open Bytes Wp

/-! ### Addresses -/

/-- The address of entry `i` of the page-table page `f`. -/
def slotAddr (f i : ℕ) : U64 := BitVec.ofNat 64 (f * 4096 + 8 * i)

theorem px_eq (level : ℕ) (va : U64) :
    px level va = BitVec.ofNat 64 (vpn va / 512 ^ level % 512) := by
  apply BitVec.eq_of_toNat_eq
  rw [px, BitVec.toNat_and, BitVec.toNat_ushiftRight, Nat.shiftRight_eq_div_pow, BitVec.toNat_ofNat,
    show (0x1FF : U64).toNat = 2 ^ 9 - 1 from rfl, Nat.and_two_pow_sub_one_eq_mod, vpn,
    Nat.div_div_eq_div_mul, pow_add, pow_mul]
  have : va.toNat / (2 ^ 12 * (2 ^ 9) ^ level) % 2 ^ 9 < 512 := Nat.mod_lt _ (by norm_num)
  norm_num at this ⊢
  omega

theorem pteAddr_pageAddr (f i : ℕ) : pteAddr (pageAddr f) (BitVec.ofNat 64 i) = slotAddr f i := by
  apply BitVec.eq_of_toNat_eq
  have h8 : (8 : U64).toNat = 8 := rfl
  rw [pteAddr, pageAddr, slotAddr]
  simp only [BitVec.toNat_add, BitVec.toNat_mul, BitVec.toNat_ofNat, h8]
  omega

theorem vpn_pageNo {a : U64} {i : ℕ} (h : a.toNat + 4096 * i < 2 ^ 64) :
    vpn (pageNo a i) = vpn a + i := by
  have h1 : (PGSIZE : U64).toNat = 4096 := rfl
  rw [vpn, vpn, pageNo, BitVec.toNat_add, BitVec.toNat_mul, BitVec.toNat_ofNat, h1]
  omega

theorem vpn_lt {va : U64} (hva : va < MAXVA) : vpn va < 2 ^ 26 := by
  have h1 : va.toNat < MAXVA.toNat := hva
  have h2 : MAXVA.toNat = 2 ^ 38 := rfl
  rw [vpn]
  omega

theorem vpn_div_root {va : U64} (hva : va < MAXVA) : vpn va / 512 ^ (2 + 1) = 0 := by
  have := vpn_lt hva
  omega

/-- The place below a page-table page on the way to page `v`. -/
theorem place_below (v l : ℕ) :
    v / 512 ^ (l + 1 + 1) * 512 + v / 512 ^ (l + 1) % 512 = v / 512 ^ (l + 1) := by
  rw [pow_succ, ← Nat.div_div_eq_div_mul, Nat.div_add_mod']

theorem ofNat_shiftLeft_eq_pageAddr {g : ℕ} (hg : g < 2 ^ 52) :
    BitVec.ofNat 64 g <<< 12 = pageAddr g := by
  apply BitVec.eq_of_toNat_eq
  rw [toNat_pageAddr hg, BitVec.toNat_shiftLeft, BitVec.toNat_ofNat, Nat.shiftLeft_eq]
  omega

theorem pageAddr_shiftRight {g : ℕ} (hg : g < 2 ^ 52) : (pageAddr g >>> 12).toNat = g := by
  rw [BitVec.toNat_ushiftRight, toNat_pageAddr hg, Nat.shiftRight_eq_div_pow]
  omega

/-! ### Ranges of pages -/

/-- The pages of a range that passes the check. -/
structure GoodRange (vastart vaend : U64) : Prop where
  le : vastart.toNat ≤ vaend.toNat
  max : vaend.toNat ≤ 2 ^ 38
  start : vastart.toNat % 4096 = 0
  stop : vaend.toNat % 4096 = 0

theorem not_badRange {vastart vaend : U64} (h : ¬ badRange vastart vaend) :
    GoodRange vastart vaend := by
  have h1 : MAXVA.toNat = 2 ^ 38 := rfl
  have h2 : PGSIZE.toNat = 4096 := rfl
  simp only [badRange, not_or, BitVec.not_lt, ne_eq, not_not] at h
  obtain ⟨ha, hb, hc, hd⟩ := h
  rw [BitVec.le_def] at ha hb
  have hc := congrArg BitVec.toNat hc
  have hd := congrArg BitVec.toNat hd
  rw [BitVec.toNat_umod] at hc hd
  exact ⟨hb, by omega, by simpa [h2] using hc, by simpa [h2] using hd⟩

namespace GoodRange

variable {vastart vaend : U64}

theorem pagesIn (h : GoodRange vastart vaend) :
    pagesIn vastart vaend = vpn vaend - vpn vastart := by
  obtain ⟨h1, h2, h3, h4⟩ := h
  rw [Xv6.pagesIn, vpn, vpn]
  omega

theorem pageNo_lt (h : GoodRange vastart vaend) {i : ℕ} (hi : i < vpn vaend - vpn vastart) :
    pageNo vastart i < MAXVA := by
  obtain ⟨h1, h2, h3, h4⟩ := h
  have hM : MAXVA.toNat = 2 ^ 38 := rfl
  have hP : (PGSIZE : U64).toNat = 4096 := rfl
  rw [vpn, vpn] at hi
  rw [BitVec.lt_def, pageNo, BitVec.toNat_add, BitVec.toNat_mul, BitVec.toNat_ofNat, hM, hP]
  omega

theorem vpn_pageNo (h : GoodRange vastart vaend) {i : ℕ} (hi : i ≤ vpn vaend - vpn vastart) :
    vpn (pageNo vastart i) = vpn vastart + i := by
  obtain ⟨h1, h2, h3, h4⟩ := h
  apply Xv6.vpn_pageNo
  rw [vpn, vpn] at hi
  omega

theorem not_bad (h : GoodRange vastart vaend) : ¬ badRange vastart vaend := by
  obtain ⟨h1, h2, h3, h4⟩ := h
  have hM : MAXVA.toNat = 2 ^ 38 := rfl
  have hP : PGSIZE.toNat = 4096 := rfl
  simp only [badRange, not_or, BitVec.not_lt, ne_eq, not_not, BitVec.le_def, hM]
  refine ⟨h2, h1, ?_, ?_⟩
  · apply BitVec.eq_of_toNat_eq
    rw [BitVec.toNat_umod, hP]
    exact h3
  · apply BitVec.eq_of_toNat_eq
    rw [BitVec.toNat_umod, hP]
    exact h4

/-- A shorter range passes the check too. -/
theorem sub (h : GoodRange vastart vaend) {j : ℕ} (hj : j ≤ vpn vaend - vpn vastart) :
    ¬ badRange vastart (pageNo vastart j) := by
  obtain ⟨h1, h2, h3, h4⟩ := h
  have hP : PGSIZE.toNat = 4096 := rfl
  rw [vpn, vpn] at hj
  have ht : (pageNo vastart j).toNat = vastart.toNat + 4096 * j := by
    rw [pageNo, BitVec.toNat_add, BitVec.toNat_mul, BitVec.toNat_ofNat, hP]
    omega
  exact not_bad ⟨by omega, by omega, h3, by omega⟩

end GoodRange

/-! ### Tables that grow -/

/-- Table `r` may have grown; the pages of the other tables are the same. -/
structure Grows (r : ℕ) (own own' : ℕ → Owner) : Prop where
  keeps : ∀ f l k, own f = .node r l k → own' f = .node r l k
  others : ∀ f r' l k, r' ≠ r → (own' f = .node r' l k ↔ own f = .node r' l k)

namespace Grows

variable {r : ℕ} {own own' own'' : ℕ → Owner}

theorem refl (r : ℕ) (own : ℕ → Owner) : Grows r own own :=
  ⟨fun _ _ _ h => h, fun _ _ _ _ _ => Iff.rfl⟩

theorem trans (h : Grows r own own') (h' : Grows r own' own'') : Grows r own own'' :=
  ⟨fun f l k hf => h'.keeps f l k (h.keeps f l k hf),
    fun f r' l k hr => (h'.others f r' l k hr).trans (h.others f r' l k hr)⟩

theorem of_same (h : ∀ f r l k, own' f = .node r l k ↔ own f = .node r l k) : Grows r own own' :=
  ⟨fun f l k => (h f r l k).2, fun f r' l k _ => h f r' l k⟩

/-- A page that was in no table joins table `r`. -/
theorem of_update {g l k : ℕ} (hg : ∀ r l k, own g ≠ .node r l k) :
    Grows r own (Function.update own g (.node r l k)) := by
  refine ⟨fun f l k hf => update_of_node hg hf, fun f r' l' k' hr =>
    ⟨fun hf => ?_, update_of_node hg⟩⟩
  rcases node_of_update hf with ⟨-, ho⟩ | ⟨-, hf⟩
  · cases ho
    exact absurd rfl hr
  · exact hf

theorem node (h : Grows r own own') {f r' l k : ℕ} (hf : own f = .node r' l k) :
    own' f = .node r' l k := by
  by_cases hr : r' = r
  · subst hr
    exact h.keeps f l k hf
  · exact (h.others f r' l k hr).2 hf

end Grows

/-- `x` is the address of the leaf entry for page `v` in table `r`. -/
def Slot (own : ℕ → Owner) (r v : ℕ) (x : U64) : Prop :=
  ∃ f, own f = .node r 0 (v / 512) ∧ x = slotAddr f (v % 512)

theorem Slot.grows {own own' : ℕ → Owner} {r r' v : ℕ} {x : U64} (hx : Slot own r v x)
    (h : Grows r' own own') : Slot own' r v x := by
  obtain ⟨f, hf, rfl⟩ := hx
  exact ⟨f, h.node hf, rfl⟩

variable [Layout]

theorem Allocatable.base {f : ℕ} (hf : Allocatable f) : 0x80000 ≤ f := by
  have h1 : KERNBASE.toNat ≤ Layout.trampoline.toNat := Layout.base_le
  have h2 := Layout.text_lt
  have h3 := hf.1
  have h4 : KERNBASE.toNat = 0x80000000 := rfl
  omega

theorem Allocatable.pageAddr_ne_zero {f : ℕ} (hf : Allocatable f) : pageAddr f ≠ 0 := by
  intro h
  have h1 := congrArg BitVec.toNat h
  rw [toNat_pageAddr (by have := hf.2; omega)] at h1
  have := hf.base
  simp at h1
  omega

theorem not_badPage {f : ℕ} (hf : Allocatable f) : ¬ badPage (pageAddr f) := by
  have hlt := hf.2
  have ht := toNat_pageAddr (show f < 2 ^ 52 by omega)
  rintro (h | h | h)
  · apply h
    apply BitVec.eq_of_toNat_eq
    rw [BitVec.toNat_umod, ht]
    simp
  · have : (pageAddr f).toNat < Layout.kend.toNat := h
    have := hf.1
    omega
  · have h' : PHYSTOP.toNat ≤ (pageAddr f).toNat := h
    have h4 : PHYSTOP.toNat = 0x88000000 := rfl
    omega

section Access

variable {E : Stop → Prop} {s : Phys} {f : ℕ}

theorem wp_frame {Q : ℕ → Phys → Prop} (hf : Allocatable f) {o : ℕ} (ho : o < 4096) :
    wp (frame (BitVec.ofNat 64 (f * 4096 + o))) E Q s ↔ Q f s := by
  have hlt := hf.2
  have hb := hf.base
  have ht : (BitVec.ofNat 64 (f * 4096 + o)).toNat = f * 4096 + o := by
    rw [BitVec.toNat_ofNat]
    omega
  have h1 : KERNBASE.toNat = 0x80000000 := rfl
  have h2 : PHYSTOP.toNat = 0x88000000 := rfl
  rw [frame, if_pos, wp_pure, ht, show (f * 4096 + o) / 4096 = f by omega]
  rw [BitVec.le_def, BitVec.lt_def, ht]
  omega

theorem wp_memset {Q : Unit → Phys → Prop} (hf : Allocatable f) (c : Byte) :
    wp (memset (pageAddr f) c) E Q s
      ↔ Q () { s with mem := Function.update s.mem f fun _ => c } := by
  rw [memset, wp_bind, pageAddr, ← Nat.add_zero (f * 4096), wp_frame hf (by omega)]
  exact Iff.rfl

theorem wp_loadPte {Q : U64 → Phys → Prop} (hf : Allocatable f) {i : ℕ} (hi : i < 512) :
    wp (loadPte (slotAddr f i)) E Q s ↔ Q (pteAt s.mem f i) s := by
  have hlt := hf.2
  have ht : (slotAddr f i).toNat % 4096 = 8 * i := by
    rw [slotAddr, BitVec.toNat_ofNat]
    omega
  rw [loadPte, wp_bind, slotAddr, wp_frame hf (by omega), ← slotAddr, ht]
  exact Iff.rfl

theorem wp_storePte {Q : Unit → Phys → Prop} (hf : Allocatable f) {i : ℕ} (hi : i < 512)
    (w : U64) :
    wp (storePte (slotAddr f i) w) E Q s ↔ Q () { s with mem := putPte s.mem f i w } := by
  have hlt := hf.2
  have ht : (slotAddr f i).toNat % 4096 = 8 * i := by
    rw [slotAddr, BitVec.toNat_ofNat]
    omega
  rw [storePte, wp_bind, slotAddr, wp_frame hf (by omega), ← slotAddr, ht]
  exact Iff.rfl

end Access

/-! ### The allocator -/

/-- The pages that the allocator does not manage stay as they are. -/
def Outside (s t : Phys) : Prop :=
  ∀ f, ¬ Allocatable f → t.mem f = s.mem f ∧ t.refs f = s.refs f

namespace Outside

variable {s t u : Phys}

theorem refl (s : Phys) : Outside s s := fun _ _ => ⟨rfl, rfl⟩

theorem trans (h : Outside s t) (h' : Outside t u) : Outside s u := fun f hf =>
  ⟨(h' f hf).1.trans (h f hf).1, (h' f hf).2.trans (h f hf).2⟩

/-- A managed page changes. -/
theorem of_update {g : ℕ} (hg : Allocatable g) (hmem : ∀ f, f ≠ g → t.mem f = s.mem f)
    (hrefs : ∀ f, f ≠ g → t.refs f = s.refs f) : Outside s t := fun f hf =>
  have hne : f ≠ g := fun he => hf (he ▸ hg)
  ⟨hmem f hne, hrefs f hne⟩

end Outside

section Alloc

variable {E : Stop → Prop} {own : ℕ → Owner} {s : Phys} {a : Maps}

/-- `kinit` frees the pages that the allocator manages, each once. -/
theorem kinit_spec (h : s.freelist = []) :
    wp kinit E (fun _ t =>
      t.refs = s.refs ∧ t.freelist.Nodup ∧ ∀ f, f ∈ t.freelist ↔ Allocatable f) s := by
  have hkend : Layout.kend.toNat ≤ PHYSTOP.toNat := Layout.kend_le
  have hstop : PHYSTOP.toNat = 0x88000000 := rfl
  obtain ⟨b, hb⟩ : ∃ b, (Layout.kend.toNat + 4095) / 4096 = b := ⟨_, rfl⟩
  have hstart : (pgRoundUp Layout.kend).toNat = b * 4096 := by
    rw [toNat_pgRoundUp]
    omega
  have hcount : (PHYSTOP.toNat - (pgRoundUp Layout.kend).toNat) / 4096 = 0x88000 - b := by omega
  have hpage : ∀ j, b + j < 0x88000 → pgRoundUp Layout.kend + PGSIZE * BitVec.ofNat 64 j =
      pageAddr (b + j) := by
    intro j hj
    have hsize : PGSIZE.toNat = 4096 := rfl
    apply BitVec.eq_of_toNat_eq
    rw [toNat_pageAddr (by omega), BitVec.toNat_add, BitVec.toNat_mul, BitVec.toNat_ofNat, hstart,
      hsize]
    omega
  rw [kinit, freerange, freerangeFrom, hcount]
  refine wp_loop_of (fun j t => t.refs = s.refs ∧
    t.freelist = ((List.range j).map (b + ·)).reverse) ⟨rfl, h⟩ ?_ ?_
  · rintro j t - hj ⟨hrefs, hfree⟩
    have hA : Allocatable (b + j) := ⟨by omega, by omega⟩
    rw [hpage j (by omega), krelease, wp_bind, wp_memset hA, wp_modify,
      pageAddr_shiftRight (by omega)]
    refine ⟨hrefs, ?_⟩
    rw [hfree, List.range_succ, List.map_append, List.reverse_append]
    rfl
  · rintro t ⟨hrefs, hfree⟩
    refine ⟨hrefs, ?_, fun f => ?_⟩
    · rw [hfree, List.nodup_reverse]
      exact List.nodup_range.map (add_right_injective b)
    · rw [hfree, List.mem_reverse, List.mem_map]
      constructor
      · rintro ⟨i, hi, rfl⟩
        rw [List.mem_range] at hi
        exact ⟨by omega, by omega⟩
      · rintro ⟨h1, h2⟩
        exact ⟨f - b, List.mem_range.2 (by omega), by omega⟩

/-- `kalloc` fails only when no page is free; otherwise it hands out a free page. -/
theorem kalloc_spec (h : Rep own s a) :
    wp kalloc E (fun pa t =>
      (pa = 0 ∧ t = s ∧ s.freelist = []) ∨
      ∃ g, pa = pageAddr g ∧ own g = .free ∧ s.freelist = g :: t.freelist ∧ Allocatable g ∧
        (∀ f, f ≠ g → t.mem f = s.mem f) ∧
        Rep (Function.update own g .page) t (a.setPage g (some ⟨1, fun _ => 5⟩))) s := by
  rw [kalloc]
  simp only [wp_bind, wp_get]
  rcases hfl : s.freelist with _ | ⟨g, free⟩
  · exact Or.inl ⟨rfl, rfl, rfl⟩
  · have hg : own g = .free := (h.alloc.free g).2 (by rw [hfl]; simp)
    have hA : Allocatable g := h.alloc.allocatable (by simp [hg])
    simp only [wp_bind, wp_set]
    rw [ofNat_shiftLeft_eq_pageAddr (by have := hA.2; omega), wp_memset hA]
    exact Or.inr ⟨g, rfl, hg, rfl, hA, fun f hf => Function.update_of_ne hf .., h.handOut hfl _⟩

theorem kfree_spec (h : Rep own s a) {g : ℕ} {p : Page} (hp : a.page g = some p) :
    wp (kfree (pageAddr g)) E (fun _ t =>
      ∃ own', Rep own' t (a.decref g) ∧
        (∀ f r l k, own' f = .node r l k ↔ own f = .node r l k) ∧ Outside s t) s := by
  obtain ⟨hg, hr, hm⟩ := h.alloc.page_iff.1 hp
  have hA : Allocatable g := h.alloc.allocatable (by simp [hg])
  have hpos := h.alloc.refs_pos hp
  have hsh := pageAddr_shiftRight (g := g) (by have := hA.2; omega)
  rw [kfree]
  simp only [wp_bind, wp_panicIf, if_neg (not_badPage hA), wp_modify, wp_get, hsh,
    Function.update_self, wp_ite]
  rw [if_neg (by omega), hr, Maps.decref, hp]
  by_cases h1 : p.refs = 1
  · rw [if_pos (by omega)]
    simp only [if_pos h1, krelease, wp_bind, wp_modify, wp_memset hA, hsh]
    refine ⟨Function.update own g .free, ?_, ?_, .of_update hA ?_ ?_⟩
    · have := h.giveBack hg (fun _ => 1)
      rwa [h1]
    · intro f r l k
      by_cases hf : f = g
      · subst hf
        simp [hg]
      · rw [Function.update_of_ne hf]
    · exact fun f hf => Function.update_of_ne hf ..
    · exact fun f hf => Function.update_of_ne hf ..
  · rw [if_neg (by omega)]
    refine ⟨own, ?_, fun _ _ _ _ => Iff.rfl, .of_update hA (fun _ _ => rfl) fun f hf =>
      Function.update_of_ne hf ..⟩
    simpa only [if_neg h1, wp_pure] using h.setRefs hp (n := p.refs - 1) (by omega)

theorem kincref_spec (h : Rep own s a) {g : ℕ} {p : Page} (hp : a.page g = some p) :
    wp (kincref (pageAddr g)) E (fun _ t => Rep own t (a.incref g)) s := by
  obtain ⟨hg, hr, -⟩ := h.alloc.page_iff.1 hp
  have hA : Allocatable g := h.alloc.allocatable (by simp [hg])
  have hpos := h.alloc.refs_pos hp
  have hsh := pageAddr_shiftRight (g := g) (by have := hA.2; omega)
  rw [kincref]
  simp only [wp_bind, wp_panicIf, if_neg (not_badPage hA), wp_modify, hsh]
  rw [Maps.incref, hp, hr]
  exact h.setRefs hp (by omega)

theorem ksingleref_spec (h : Rep own s a) {g : ℕ} {p : Page} (hp : a.page g = some p)
    {Q : Bool → Phys → Prop} :
    wp (ksingleref (pageAddr g)) E Q s ↔ Q (decide (p.refs = 1)) s := by
  obtain ⟨hg, hr, -⟩ := h.alloc.page_iff.1 hp
  have hA : Allocatable g := h.alloc.allocatable (by simp [hg])
  have hsh := pageAddr_shiftRight (g := g) (by have := hA.2; omega)
  rw [ksingleref]
  simp only [wp_bind, wp_panicIf, if_neg (not_badPage hA), wp_get, hsh, hr]
  exact Iff.rfl

end Alloc

/-! ### Walking -/

section Walk

variable {E : Stop → Prop} {own : ℕ → Owner} {s : Phys} {a : Maps} {r : ℕ}

theorem loadPte_slot (h : Rep own s a) {v : ℕ} {x : U64} (hx : Slot own r v x)
    {Q : U64 → Phys → Prop} : wp (loadPte x) E Q s ↔ Q (a.leaf r v) s := by
  obtain ⟨f, hf, rfl⟩ := hx
  have hA : Allocatable f := h.alloc.allocatable (by simp [hf])
  have hi : v % 512 < 512 := Nat.mod_lt _ (by norm_num)
  rw [wp_loadPte hA hi, ← h.tree.leaf_node f r (v / 512) (v % 512) hf hi, Nat.div_add_mod']

theorem storePte_slot (h : Rep own s a) {v : ℕ} {x : U64} (hx : Slot own r v x) (w : U64) :
    wp (storePte x w) E (fun _ t => Rep own t (a.setLeaf r v w)) s := by
  obtain ⟨f, hf, rfl⟩ := hx
  have hA : Allocatable f := h.alloc.allocatable (by simp [hf])
  have hi : v % 512 < 512 := Nat.mod_lt _ (by norm_num)
  have := h.storeLeaf hf hi w
  rw [Nat.div_add_mod'] at this
  rwa [wp_storePte hA hi]

/-- A store to an entry of a managed page. -/
theorem storePte_outside {f i : ℕ} (hA : Allocatable f) (hi : i < 512) (w : U64) :
    wp (storePte (slotAddr f i) w) E (fun _ t => Outside s t) s := by
  rw [wp_storePte hA hi]
  exact .of_update hA (fun g hg => Function.update_of_ne hg ..) fun _ _ => rfl

theorem storePte_slot_outside (h : Rep own s a) {v : ℕ} {x : U64} (hx : Slot own r v x) (w : U64) :
    wp (storePte x w) E (fun _ t => Outside s t) s := by
  obtain ⟨f, hf, rfl⟩ := hx
  exact storePte_outside (h.alloc.allocatable (by simp [hf])) (Nat.mod_lt _ (by norm_num)) w

/-- Page tables in memory: the pages that `own` says are theirs are pages of the allocator, and are
linked to trees. -/
structure Linked (own : ℕ → Owner) (s : Phys) (root : ℕ → Prop) (leaf : ℕ → ℕ → U64) : Prop where
  tree : Tree own s.mem root leaf
  nodes : ∀ f r l k, own f = .node r l k → Allocatable f

theorem Rep.linked (h : Rep own s a) : Linked own s a.root a.leaf :=
  ⟨h.tree, fun _ _ _ _ hf => h.alloc.allocatable (by simp [hf])⟩

section Steps

variable {root : ℕ → Prop} {leaf : ℕ → ℕ → U64} {va : U64} {l f : ℕ} {alloc : Bool}

/-- `pgt_walk` follows a valid entry. -/
theorem pgtWalkFrom_down (h : Linked own s root leaf)
    (hf : own f = .node r (l + 1) (vpn va / 512 ^ (l + 1 + 1)))
    (hv : Valid (pteAt s.mem f (vpn va / 512 ^ (l + 1) % 512))) :
    ∃ g, own g = .node r l (vpn va / 512 ^ (l + 1)) ∧
      ∀ Q, wp (pgtWalkFrom va alloc (l + 1) (pageAddr f)) E Q s ↔
        wp (pgtWalkFrom va alloc l (pageAddr g)) E Q s := by
  have hi : vpn va / 512 ^ (l + 1) % 512 < 512 := Nat.mod_lt _ (by norm_num)
  obtain ⟨g, hg, he⟩ := h.tree.down f r l _ _ hf hi hv
  have hgA := h.nodes _ _ _ _ hg
  rw [place_below] at hg
  refine ⟨g, hg, fun Q => ?_⟩
  rw [pgtWalkFrom]
  simp only [wp_bind, px_eq, pteAddr_pageAddr, wp_loadPte (h.nodes _ _ _ _ hf) hi, wp_ite]
  rw [if_pos hv, he, pte2pa_pteTo (by have := hgA.2; omega)]

/-- Under an invalid entry on its way a page has no leaf table. -/
theorem Linked.not_leaf_node (h : Linked own s root leaf)
    (hf : own f = .node r (l + 1) (vpn va / 512 ^ (l + 1 + 1)))
    (hv : ¬ Valid (pteAt s.mem f (vpn va / 512 ^ (l + 1) % 512))) (x : ℕ) :
    own x ≠ .node r 0 (vpn va / 512) := by
  intro hx
  have hi : vpn va / 512 ^ (l + 1) % 512 < 512 := Nat.mod_lt _ (by norm_num)
  obtain ⟨y, hy⟩ := h.tree.ancestor hx (j := l)
    (by have := h.tree.level f r _ _ hf; omega)
  rw [Nat.zero_add, Nat.div_div_eq_div_mul, ← pow_succ', ← place_below] at hy
  exact h.tree.not_node_of_invalid hf hi hv y hy

theorem Linked.leaf_eq_zero (h : Linked own s root leaf)
    (hf : own f = .node r (l + 1) (vpn va / 512 ^ (l + 1 + 1)))
    (hv : ¬ Valid (pteAt s.mem f (vpn va / 512 ^ (l + 1) % 512))) : leaf r (vpn va) = 0 :=
  h.tree.leaf_none _ _ (h.not_leaf_node hf hv)

/-- From a page-table page on the way of `va`, `pgt_walk` without allocation finds the leaf entry if
there is one. -/
theorem pgtWalkFrom_find (h : Linked own s root leaf)
    (hf : own f = .node r l (vpn va / 512 ^ (l + 1))) :
    wp (pgtWalkFrom va false l (pageAddr f)) E (fun res t =>
      t = s ∧
        match res with
        | some x => Slot own r (vpn va) x
        | none => leaf r (vpn va) = 0) s := by
  induction l generalizing f with
  | zero =>
    rw [pgtWalkFrom, wp_pure, px_eq, pteAddr_pageAddr]
    exact ⟨rfl, f, by simpa using hf, by simp⟩
  | succ l ih =>
    by_cases hv : Valid (pteAt s.mem f (vpn va / 512 ^ (l + 1) % 512))
    · obtain ⟨g, hg, hwp⟩ := pgtWalkFrom_down h hf hv
      exact (hwp _).2 (ih hg)
    · rw [pgtWalkFrom]
      simp only [wp_bind, px_eq, pteAddr_pageAddr, wp_loadPte (h.nodes _ _ _ _ hf)
        (Nat.mod_lt _ (by norm_num : 0 < 512)), wp_ite]
      rw [if_neg hv]
      exact ⟨rfl, h.leaf_eq_zero hf hv⟩

/-- Where the leaf table is there already, `pgt_walk` allocates nothing. -/
theorem pgtWalkFrom_there (h : Linked own s root leaf)
    (hf : own f = .node r l (vpn va / 512 ^ (l + 1)))
    (hleaf : ∃ x, own x = .node r 0 (vpn va / 512)) :
    wp (pgtWalkFrom va alloc l (pageAddr f)) E (fun res t =>
      t = s ∧ ∃ x, res = some x ∧ Slot own r (vpn va) x) s := by
  induction l generalizing f with
  | zero =>
    rw [pgtWalkFrom, wp_pure, px_eq, pteAddr_pageAddr]
    exact ⟨rfl, _, rfl, f, by simpa using hf, by simp⟩
  | succ l ih =>
    have hv : Valid (pteAt s.mem f (vpn va / 512 ^ (l + 1) % 512)) := by
      obtain ⟨x, hx⟩ := hleaf
      exact not_not.1 fun hv => h.not_leaf_node hf hv x hx
    obtain ⟨g, hg, hwp⟩ := pgtWalkFrom_down h hf hv
    exact (hwp _).2 (ih hg)

/-- An invariant of ownership and memory that lasts when a page that `kalloc` returns is linked into
a table below an empty entry. -/
structure Extends (E : Stop → Prop) (root : ℕ → Prop) (leaf : ℕ → ℕ → U64)
    (I : (ℕ → Owner) → Phys → Prop) : Prop where
  linked : ∀ own s, I own s → Linked own s root leaf
  kalloc : ∀ own s, I own s →
    wp kalloc E (fun pa t =>
      (pa = 0 ∧ t = s ∧ s.freelist = []) ∨
      ∃ g, pa = pageAddr g ∧ Allocatable g ∧ (∀ r l k, own g ≠ .node r l k) ∧
        ∀ f r l k i, own f = .node r (l + 1) k → i < 512 → ¬ Valid (pteAt s.mem f i) →
          I (Function.update own g (.node r l (k * 512 + i)))
            { t with mem := putPte (Function.update t.mem g fun _ => 0) f i (pteTo g) }) s

/-- From a page-table page on the way of `va`, `pgt_walk` with allocation finds the leaf entry
unless there is no free page; new page-table pages are the only thing it may add. -/
theorem Extends.pgtWalkFrom {I : (ℕ → Owner) → Phys → Prop} (hI : Extends E root leaf I)
    (h : I own s) (hf : own f = .node r l (vpn va / 512 ^ (l + 1))) :
    wp (pgtWalkFrom va true l (pageAddr f)) E (fun res t =>
      ∃ own', I own' t ∧ Grows r own own' ∧
        match res with
        | some x => Slot own' r (vpn va) x
        | none => t.freelist = []) s := by
  induction l generalizing own s f with
  | zero =>
    rw [Xv6.pgtWalkFrom, wp_pure, px_eq, pteAddr_pageAddr]
    exact ⟨own, h, Grows.refl r own, f, by simpa using hf, by simp⟩
  | succ l ih =>
    have hL := hI.linked own s h
    have hA : Allocatable f := hL.nodes _ _ _ _ hf
    have hi : vpn va / 512 ^ (l + 1) % 512 < 512 := Nat.mod_lt _ (by norm_num)
    by_cases hv : Valid (pteAt s.mem f (vpn va / 512 ^ (l + 1) % 512))
    · obtain ⟨g, hg, hwp⟩ := pgtWalkFrom_down hL hf hv
      exact (hwp _).2 (ih h hg)
    · rw [Xv6.pgtWalkFrom]
      simp only [wp_bind, px_eq, pteAddr_pageAddr, wp_loadPte hA hi, wp_ite]
      rw [if_neg hv]
      simp only [Bool.not_true, Bool.false_eq_true, if_false]
      refine (hI.kalloc own s h).mono fun pa t ht => ?_
      rcases ht with ⟨rfl, rfl, hnil⟩ | ⟨g, rfl, hgA, hg, hlink⟩
      · exact ⟨own, h, Grows.refl r own, hnil⟩
      · -- the new page is zeroed, then linked below this one
        rw [if_neg hgA.pageAddr_ne_zero, wp_memset hgA, wp_storePte hA hi]
        refine (ih (hlink f r l _ _ hf hi hv) ?_).mono fun res u hu => ?_
        · rw [Function.update_self, place_below]
        · obtain ⟨own', hu, hgr, hres⟩ := hu
          exact ⟨own', hu, (Grows.of_update hg).trans hgr, hres⟩

end Steps

/-- A page that `kalloc` has handed out is zeroed and linked below a page-table page. -/
theorem Rep.linkNew {t : Phys} {f g l k i : ℕ} (h : Rep own s a) (hgo : own g = .free)
    (hmem : ∀ f, f ≠ g → t.mem f = s.mem f) {p : Page}
    (ht : Rep (Function.update own g .page) t (a.setPage g (some p))) (hp : p.refs = 1)
    (hf : own f = .node r (l + 1) k) (hi : i < 512) (hv : ¬ Valid (pteAt s.mem f i)) :
    Rep (Function.update own g (.node r l (k * 512 + i)))
      { t with mem := putPte (Function.update t.mem g fun _ => 0) f i (pteTo g) } a := by
  obtain ⟨n, d⟩ := p
  obtain rfl : n = 1 := hp
  have hg : ∀ r l k, own g ≠ .node r l k := by simp [hgo]
  have hfg : f ≠ g := by
    rintro rfl
    exact hg _ _ _ hf
  have hz := ht.setData (Maps.setPage_page_self ..) (fun _ => 0)
  rw [Maps.setPage_setPage] at hz
  have hinv : ¬ Valid (pteAt (Function.update t.mem g fun _ => 0) f i) := by
    rwa [pteAt, Function.update_of_ne hfg, hmem f hfg, ← pteAt]
  have hlink := hz.link (update_of_node hg hf) hi hinv (Maps.setPage_page_self ..)
  rwa [Maps.setPage_setPage, Maps.setPage_of_eq (h.alloc.page_none_iff.2 (by simp [hgo])),
    Function.update_idem] at hlink

/-- The allocator's own account of the pages lasts. -/
theorem Rep.extends : Extends E a.root a.leaf fun own s => Rep own s a := by
  refine ⟨fun own s h => h.linked, fun own s h => (kalloc_spec h).mono fun pa t ht => ?_⟩
  rcases ht with h0 | ⟨g, rfl, hgo, -, hgA, hmem, ht⟩
  · exact Or.inl h0
  · exact Or.inr ⟨g, rfl, hgA, by simp [hgo], fun f r l k i hf hi hv =>
      h.linkNew hgo hmem ht rfl hf hi hv⟩

/-- `pgt_walk` without allocation changes nothing and finds the leaf entry if there is one. -/
theorem pgtWalk_find (h : Rep own s a) (hr : a.root r) {va : U64} (hva : va < MAXVA) :
    wp (pgtWalk (pageAddr r) va false) E (fun res t =>
      t = s ∧
        match res with
        | some x => Slot own r (vpn va) x
        | none => a.leaf r (vpn va) = 0) s := by
  rw [pgtWalk, wp_bind, wp_panicIf, if_neg (by bv_omega)]
  refine pgtWalkFrom_find h.linked (l := 2) ?_
  rw [(h.tree.root r).1 hr, vpn_div_root hva]

/-- `pgt_walk` with allocation finds the leaf entry, unless there is no free page. -/
theorem pgtWalk_alloc (h : Rep own s a) (hr : a.root r) {va : U64} (hva : va < MAXVA) :
    wp (pgtWalk (pageAddr r) va true) E (fun res t =>
      ∃ own', Rep own' t a ∧ Grows r own own' ∧
        match res with
        | some x => Slot own' r (vpn va) x
        | none => t.freelist = []) s := by
  rw [pgtWalk, wp_bind, wp_panicIf, if_neg (by bv_omega)]
  refine Rep.extends.pgtWalkFrom h (l := 2) ?_
  rw [(h.tree.root r).1 hr, vpn_div_root hva]

/-- `pgt_walk` to a page whose leaf table is there changes nothing. -/
theorem pgtWalk_there (h : Rep own s a) (hr : a.root r) {va : U64} (hva : va < MAXVA) (alloc : Bool)
    (hleaf : ∃ x, own x = .node r 0 (vpn va / 512)) :
    wp (pgtWalk (pageAddr r) va alloc) E (fun res t =>
      t = s ∧ ∃ x, res = some x ∧ Slot own r (vpn va) x) s := by
  rw [pgtWalk, wp_bind, wp_panicIf, if_neg (by bv_omega)]
  refine pgtWalkFrom_there h.linked (l := 2) ?_ hleaf
  rw [(h.tree.root r).1 hr, vpn_div_root hva]

end Walk

/-! ### Single entries -/

section Entries

variable {E : Stop → Prop} {own : ℕ → Owner} {s : Phys} {a : Maps} {r : ℕ}

theorem pgtGetpa_spec (h : Rep own s a) (hr : a.root r) (va : U64) {Q : U64 → Phys → Prop} :
    Q (a.getpa r va) s → wp (pgtGetpa (pageAddr r) va) E Q s := by
  intro hQ
  rw [pgtGetpa, wp_ite]
  by_cases hva : MAXVA ≤ va
  · rw [if_pos hva]
    rwa [Maps.getpa, if_pos hva] at hQ
  rw [if_neg hva, wp_bind]
  rw [Maps.getpa, if_neg hva] at hQ
  refine (pgtWalk_find h hr (by bv_omega)).mono fun res t ht => ?_
  obtain ⟨rfl, hres⟩ := ht
  rcases res with _ | x
  · simpa [hres] using hQ
  · simp only [wp_bind, loadPte_slot h hres, wp_ite, wp_pure]
    split_ifs at hQ ⊢ <;> exact hQ

theorem pgtMap_spec (h : Rep own s a) (hr : a.root r) {va pa flags : U64} (hva : va < MAXVA)
    (hal : va % PGSIZE = 0) (hpa : pa % PGSIZE = 0) (hinv : ¬ Valid (a.leaf r (vpn va))) :
    wp (pgtMap (pageAddr r) va pa flags) E (fun ok t =>
      ∃ own', Rep own' t
          (if ok then a.setLeaf r (vpn va) (pa2pte pa ||| flags ||| PTE_V ||| PTE_U) else a) ∧
        Grows r own own' ∧ (ok = false → t.freelist = [])) s := by
  rw [pgtMap, wp_bind, wp_panicIf, if_neg (by bv_omega), wp_bind]
  refine (pgtWalk_alloc h hr hva).mono fun res t ht => ?_
  obtain ⟨own', hrep, hgr, hres⟩ := ht
  rcases res with _ | x
  · exact ⟨own', hrep, hgr, fun _ => hres⟩
  · simp only [wp_bind, loadPte_slot hrep hres, wp_panicIf, if_neg hinv]
    refine (storePte_slot hrep hres _).mono fun _ u hu => ?_
    exact ⟨own', hu, hgr, by simp⟩

/-- `pgt_map` does not fail where the leaf table is there. -/
theorem pgtMap_there (h : Rep own s a) (hr : a.root r) {va pa flags : U64} (hva : va < MAXVA)
    (hal : va % PGSIZE = 0) (hpa : pa % PGSIZE = 0) (hinv : ¬ Valid (a.leaf r (vpn va)))
    (hleaf : ∃ x, own x = .node r 0 (vpn va / 512)) :
    wp (pgtMap (pageAddr r) va pa flags) E (fun ok t =>
      ok = true ∧ Rep own t (a.setLeaf r (vpn va) (pa2pte pa ||| flags ||| PTE_V ||| PTE_U)))
      s := by
  rw [pgtMap, wp_bind, wp_panicIf, if_neg (by bv_omega), wp_bind]
  refine (pgtWalk_there h hr hva true hleaf).mono fun res t ht => ?_
  obtain ⟨rfl, x, rfl, hx⟩ := ht
  simp only [wp_bind, loadPte_slot h hx, wp_panicIf, if_neg hinv]
  exact (storePte_slot h hx _).mono fun _ u hu => ⟨rfl, hu⟩

theorem pgtClearubit_spec (h : Rep own s a) (hr : a.root r) {va : U64} (hva : va < MAXVA)
    (hnone : a.leaf r (vpn va) = 0 → E (.panic "pgt_clearubit")) :
    wp (pgtClearubit (pageAddr r) va) E (fun _ t =>
      Rep own t (a.setLeaf r (vpn va) (a.leaf r (vpn va) &&& ~~~PTE_U))) s := by
  rw [pgtClearubit, wp_bind]
  refine (pgtWalk_find h hr hva).mono fun res t ht => ?_
  obtain ⟨rfl, hres⟩ := ht
  rcases res with _ | x
  · exact hnone hres
  · simp only [wp_bind, loadPte_slot h hres]
    exact storePte_slot h hres _

end Entries

/-! ### Ranges -/

theorem badPage_pageAddr {f : ℕ} (hf : f < 2 ^ 52) : badPage (pageAddr f) ↔ ¬ Allocatable f := by
  constructor
  · intro h hA
    exact not_badPage hA h
  · intro h
    have ht := toNat_pageAddr hf
    have h2 : PHYSTOP.toNat = 0x88000000 := rfl
    rw [Allocatable] at h
    rw [badPage, BitVec.lt_def, BitVec.le_def, ht]
    omega

section Ranges

variable {E : Stop → Prop} {own : ℕ → Owner} {s : Phys} {a : Maps} {r : ℕ}

/-- What `kfree` may do with the page of an entry: take a reference from it, or panic on a page
that is not managed. -/
def CanFree (E : Stop → Prop) (a : Maps) (w : U64) : Prop :=
  (∃ p, a.page (pteFrame w) = some p) ∨ (¬ Allocatable (pteFrame w) ∧ E (.panic "kfree"))

theorem pgtUnmapPage_spec (h : Rep own s a) (hr : a.root r) {addr : U64} (haddr : addr < MAXVA)
    {dealloc : Bool}
    (hleaf : Valid (a.leaf r (vpn addr)) → pteFlags (a.leaf r (vpn addr)) = PTE_V →
      E (.panic "uvmunmap: not a leaf"))
    (hfree : dealloc = true → Valid (a.leaf r (vpn addr)) → CanFree E a (a.leaf r (vpn addr))) :
    wp (pgtUnmapPage (pageAddr r) dealloc addr) E (fun _ t =>
      ∃ own', Rep own' t (a.unmapPage r (vpn addr) dealloc) ∧
        (∀ f r l k, own' f = .node r l k ↔ own f = .node r l k) ∧ Outside s t) s := by
  rw [pgtUnmapPage, wp_bind]
  refine (pgtWalk_find h hr haddr).mono fun res t ht => ?_
  obtain ⟨rfl, hres⟩ := ht
  rcases res with _ | x
  · refine ⟨own, ?_, fun _ _ _ _ => Iff.rfl, .refl _⟩
    rwa [Maps.unmapPage, if_neg (by simp [hres])]
  simp only [wp_bind, loadPte_slot h hres, wp_ite, wp_panicIf]
  by_cases hv : Valid (a.leaf r (vpn addr))
  swap
  · rw [if_pos (not_not.1 hv)]
    refine ⟨own, ?_, fun _ _ _ _ => Iff.rfl, .refl _⟩
    rwa [Maps.unmapPage, if_neg hv]
  rw [if_neg hv]
  by_cases hfl : pteFlags (a.leaf r (vpn addr)) = PTE_V
  · rw [if_pos hfl]
    exact hleaf hv hfl
  rw [if_neg hfl, Maps.unmapPage, if_pos hv]
  cases dealloc with
  | false =>
    refine ((storePte_slot h hres 0).and (storePte_slot_outside h hres 0)).mono fun _ u hu => ?_
    exact ⟨own, hu.1, fun _ _ _ _ => Iff.rfl, hu.2⟩
  | true =>
    rcases hfree rfl hv with ⟨p, hp⟩ | ⟨hnA, hE⟩
    · simp only [if_true, pte2pa_eq_pageAddr]
      refine (kfree_spec h hp).mono fun _ u hu => ?_
      obtain ⟨own', hrep, hsame, hout⟩ := hu
      have hslot : Slot own' r (vpn addr) x := hres.grows (Grows.of_same (r := r) hsame)
      refine ((storePte_slot hrep hslot 0).and (storePte_slot_outside hrep hslot 0)).mono
        fun _ w hw => ?_
      exact ⟨own', hw.1, hsame, hout.trans hw.2⟩
    · simp only [if_true, pte2pa_eq_pageAddr]
      rw [kfree, wp_bind, wp_panicIf, if_pos ((badPage_pageAddr (pteFrame_lt _)).2 hnA)]
      exact hE

theorem pgtUnmapImpl_spec (h : Rep own s a) (hr : a.root r) {vastart vaend : U64} {dealloc : Bool}
    (hrange : badRange vastart vaend → E (.panic "pgt_unmap_impl: Invalid range\n"))
    (hleaf : ∀ v, vpn vastart ≤ v → v < vpn vaend → Valid (a.leaf r v) →
      pteFlags (a.leaf r v) = PTE_V → E (.panic "uvmunmap: not a leaf"))
    (hfree : dealloc = true → ∀ i, i < vpn vaend - vpn vastart →
      Valid (a.leaf r (vpn vastart + i)) →
      CanFree E (a.unmap r (vpn vastart) dealloc i) (a.leaf r (vpn vastart + i))) :
    wp (pgtUnmapImpl (pageAddr r) vastart vaend dealloc) E (fun _ t =>
      ∃ own', Rep own' t (a.unmap r (vpn vastart) dealloc (vpn vaend - vpn vastart)) ∧
        (∀ f r l k, own' f = .node r l k ↔ own f = .node r l k) ∧ Outside s t) s := by
  rw [pgtUnmapImpl, wp_bind, wp_panicIf]
  by_cases hbad : badRange vastart vaend
  · rw [if_pos hbad]
    exact hrange hbad
  rw [if_neg hbad]
  have hg := not_badRange hbad
  rw [hg.pagesIn]
  -- before round `i` the first `i` pages are unmapped
  refine (wp_loop (fun i t => ∃ own', Rep own' t (a.unmap r (vpn vastart) dealloc i) ∧
    (∀ f r l k, own' f = .node r l k ↔ own f = .node r l k) ∧ Outside s t)
    ⟨own, h, fun _ _ _ _ => Iff.rfl, .refl s⟩ ?_).mono fun _ t ht => by simpa using ht
  rintro i t - hi ⟨own', hrep, hsame, hout⟩
  rw [Nat.zero_add] at hi
  have hv := hg.vpn_pageNo hi.le
  have hl : (a.unmap r (vpn vastart) dealloc i).leaf r (vpn vastart + i)
      = a.leaf r (vpn vastart + i) := Maps.unmap_leaf_of_notMem _ _ (by omega)
  refine (pgtUnmapPage_spec hrep (by rwa [Maps.unmap_root]) (hg.pageNo_lt hi) ?_ ?_).mono
    fun _ u hu => ?_
  · rw [hv, hl]
    exact hleaf _ (by omega) (by omega)
  · rw [hv, hl]
    exact fun hd hval => hfree hd i hi hval
  · obtain ⟨own'', hrep', hsame', hout'⟩ := hu
    rw [hv] at hrep'
    exact ⟨own'', hrep', fun f r l k => (hsame' f r l k).trans (hsame f r l k), hout.trans hout'⟩

theorem pgtClonePage_spec (h : Rep own s a) {d : ℕ} (hr : a.root r) (hd : a.root d) {addr : U64}
    (haddr : addr < MAXVA)
    (hpage : Valid (a.leaf r (vpn addr)) →
      (∃ p, a.page (pteFrame (a.leaf r (vpn addr))) = some p) ∨
      (¬ Allocatable (pteFrame (a.leaf r (vpn addr))) ∧ E (.panic "kincref"))) :
    wp (pgtClonePage (pageAddr r) (pageAddr d) addr) E (fun ok t =>
      ∃ own', Rep own' t (if ok then a.clonePage r d (vpn addr) else a) ∧ Grows d own own' ∧
        (ok = false → t.freelist = [])) s := by
  rw [pgtClonePage, wp_bind]
  refine (pgtWalk_find h hr haddr).mono fun res t ht => ?_
  obtain ⟨rfl, hres⟩ := ht
  rcases res with _ | x
  · refine ⟨own, ?_, Grows.refl d own, by simp⟩
    rwa [if_pos rfl, Maps.clonePage, if_neg (by simp [hres])]
  simp only [wp_bind, loadPte_slot h hres, wp_ite]
  by_cases hv : Valid (a.leaf r (vpn addr))
  swap
  · rw [if_pos (not_not.1 hv)]
    refine ⟨own, ?_, Grows.refl d own, by simp⟩
    rwa [if_pos rfl, Maps.clonePage, if_neg hv]
  rw [if_neg hv]
  refine (pgtWalk_alloc h hd haddr).mono fun res t ht => ?_
  obtain ⟨own', hrep, hgr, hy⟩ := ht
  rcases res with _ | y
  · exact ⟨own', hrep, hgr, fun _ => hy⟩
  -- both entries are stored, then the page gets its reference
  have hx := hres.grows hgr
  simp only [wp_bind, loadPte_slot hrep hx]
  refine (storePte_slot hrep hx _).mono fun _ t ht => ?_
  rw [loadPte_slot ht hx, Maps.setLeaf_leaf_self]
  refine (storePte_slot ht hy _).mono fun _ t ht => ?_
  rw [pte2pa_eq_pageAddr]
  rcases hpage hv with ⟨p, hp⟩ | ⟨hnA, hE⟩
  · refine (kincref_spec ht hp).mono fun _ u hu => ?_
    refine ⟨own', ?_, hgr, by simp⟩
    rwa [if_pos rfl, Maps.clonePage, if_pos hv]
  · rw [kincref, wp_bind, wp_panicIf, if_pos ((badPage_pageAddr (pteFrame_lt _)).2 hnA)]
    exact hE

theorem pgtClone_spec (h : Rep own s a) {d : ℕ} (hr : a.root r) (hd : a.root d)
    {vastart vaend : U64}
    (hrange : badRange vastart vaend → E (.panic "pgt_clone: Invalid range\n"))
    (hpage : ∀ v, vpn vastart ≤ v → v < vpn vaend → Valid (a.leaf r v) →
      (∃ p, a.page (pteFrame (a.leaf r v)) = some p) ∨
      (¬ Allocatable (pteFrame (a.leaf r v)) ∧ E (.panic "kincref")))
    (hleaf : ∀ j, j < vpn vaend - vpn vastart → ∀ v, vpn vastart ≤ v → v < vpn vastart + j →
      Valid ((a.clone r d (vpn vastart) j).leaf d v) →
      pteFlags ((a.clone r d (vpn vastart) j).leaf d v) = PTE_V →
      E (.panic "uvmunmap: not a leaf"))
    (hfree : ∀ j, j < vpn vaend - vpn vastart → ∀ i, i < j →
      Valid ((a.clone r d (vpn vastart) j).leaf d (vpn vastart + i)) →
      CanFree E ((a.clone r d (vpn vastart) j).unmap d (vpn vastart) true i)
        ((a.clone r d (vpn vastart) j).leaf d (vpn vastart + i))) :
    wp (pgtClone (pageAddr r) (pageAddr d) vastart vaend) E (fun ok t =>
      ∃ own', Grows d own own' ∧
        if ok then Rep own' t (a.clone r d (vpn vastart) (vpn vaend - vpn vastart))
        else ∃ j, j < vpn vaend - vpn vastart ∧
          Rep own' t ((a.clone r d (vpn vastart) j).unmap d (vpn vastart) true j)) s := by
  rw [pgtClone, wp_bind, wp_panicIf]
  by_cases hbad : badRange vastart vaend
  · rw [if_pos hbad]
    exact hrange hbad
  rw [if_neg hbad, wp_bind]
  have hg := not_badRange hbad
  rw [hg.pagesIn]
  refine (wp_loopWhile
    (fun i t => ∃ own', Rep own' t (a.clone r d (vpn vastart) i) ∧ Grows d own own')
    (fun i t => ∃ own', Rep own' t (a.clone r d (vpn vastart) i) ∧ Grows d own own')
    ⟨own, h, Grows.refl d own⟩ ?_).mono fun res t ht => ?_
  · rintro i t - hi ⟨own', hrep, hgr⟩
    rw [Nat.zero_add] at hi
    have hv := hg.vpn_pageNo hi.le
    have hl : (a.clone r d (vpn vastart) i).leaf r (vpn vastart + i)
        = a.leaf r (vpn vastart + i) := Maps.clone_leaf_of_notMem _ (by omega)
    refine (pgtClonePage_spec hrep (by rwa [Maps.clone_root]) (by rwa [Maps.clone_root])
      (hg.pageNo_lt hi) ?_).mono fun ok u hu => ?_
    · rw [hv, hl]
      intro hval
      rcases hpage _ (by omega) (by omega) hval with ⟨p, hp⟩ | hn
      · exact Or.inl (Maps.clone_page_some hp)
      · exact Or.inr hn
    · obtain ⟨own'', hrep', hgr', -⟩ := hu
      rw [hv] at hrep'
      cases ok with
      | true => exact ⟨own'', hrep', hgr.trans hgr'⟩
      | false => exact ⟨own'', hrep', hgr.trans hgr'⟩
  · rcases res with _ | j
    · obtain ⟨own', hrep, hgr⟩ := ht
      rw [Nat.zero_add] at hrep
      exact ⟨own', hgr, hrep⟩
    · obtain ⟨-, hj, own', hrep, hgr⟩ := ht
      rw [Nat.zero_add] at hj
      have hv := hg.vpn_pageNo hj.le
      have hsub : vpn (pageNo vastart j) - vpn vastart = j := by omega
      simp only [wp_bind]
      refine (@pgtUnmapImpl_spec _ E own' t _ d hrep (by rwa [Maps.clone_root]) _ _ true ?_ ?_
        ?_).mono fun _ u hu => ?_
      · intro hbad'
        exact absurd hbad' (hg.sub hj.le)
      · rw [hv]
        exact hleaf j hj
      · rw [hsub]
        exact fun _ => hfree j hj
      · obtain ⟨own'', hrep', hsame, -⟩ := hu
        rw [hsub] at hrep'
        exact ⟨own'', hgr.trans (Grows.of_same hsame), j, hj, hrep'⟩

end Ranges

end Xv6
