import Xv6.Maps

/-!
# What physical memory represents

`Rep own s a` says that the physical memory `s` represents `a`; `own` tells for every page who
has it: the free list, a page table (with the level and the index path of the page in it), or
somebody else.  Ownership is what keeps the tables apart: two page-table pages are never the same
page, and no page of a table is free or handed out.
-/

namespace Xv6

open Bytes Wp

/-! ### Page-table pages in memory -/

/-- Entry `i` of the page-table page `f`. -/
def pteAt (m : ℕ → ℕ → Byte) (f i : ℕ) : U64 := loadW 64 (m f) (8 * i)

/-- Memory after a store to entry `i` of the page-table page `f`. -/
def putPte (m : ℕ → ℕ → Byte) (f i : ℕ) (w : U64) : ℕ → ℕ → Byte :=
  Function.update m f (storeW (m f) (8 * i) w)

/-- The entry that points to the page-table page `g`. -/
def pteTo (g : ℕ) : U64 := pa2pte (pageAddr g) ||| PTE_V

theorem pteAt_putPte_self (m : ℕ → ℕ → Byte) (f i : ℕ) (w : U64) :
    pteAt (putPte m f i w) f i = w := by
  rw [pteAt, putPte, Function.update_self]
  exact loadW_storeW (by norm_num) _ _

theorem pteAt_putPte_of_ne (m : ℕ → ℕ → Byte) {f i f' i' : ℕ} (w : U64)
    (h : ¬ (f' = f ∧ i' = i)) : pteAt (putPte m f i w) f' i' = pteAt m f' i' := by
  rw [pteAt, pteAt, putPte]
  by_cases hf : f' = f
  · subst hf
    rw [Function.update_self]
    apply loadW_storeW_of_disjoint
    have hi : i' ≠ i := fun hi => h ⟨rfl, hi⟩
    omega
  · rw [Function.update_of_ne hf]

theorem pteAt_of_zero {m : ℕ → ℕ → Byte} {f : ℕ} (h : m f = fun _ => 0) (i : ℕ) :
    pteAt m f i = 0 := by
  rw [pteAt, h]
  exact loadW_zero _

theorem valid_pteTo (g : ℕ) : Valid (pteTo g) := by
  rw [Valid, pteTo, ne_eq, and_PTE_V_eq_zero, BitVec.getLsbD_or]
  simp

theorem pte2pa_pteTo {g : ℕ} (hg : g < 2 ^ 44) : pte2pa (pteTo g) = pageAddr g := by
  rw [pteTo, pte2pa_or_flags _ (by decide), pte2pa_pa2pte hg]

theorem pteTo_injective {g g' : ℕ} (hg : g < 2 ^ 44) (hg' : g' < 2 ^ 44) (h : pteTo g = pteTo g') :
    g = g' := by
  have h' := congrArg pteFrame h
  rwa [pteFrame_of_pte2pa (by omega) (pte2pa_pteTo hg),
    pteFrame_of_pte2pa (by omega) (pte2pa_pteTo hg')] at h'

/-! ### Ownership -/

/-- Who has a page.  `node r l k` is the page-table page of table `r` at level `l` for the virtual
page numbers `v` with `v / 512 ^ (l + 1) = k`. -/
inductive Owner
  | outside
  | free
  | node (r l k : ℕ)
  | page
  deriving DecidableEq

/-- The page-table pages after one page has changed hands. -/
theorem node_of_update {own : ℕ → Owner} {o : Owner} {g f r l k : ℕ}
    (h : Function.update own g o f = .node r l k) :
    (f = g ∧ o = .node r l k) ∨ (f ≠ g ∧ own f = .node r l k) := by
  by_cases hfg : f = g
  · subst hfg
    rw [Function.update_self] at h
    exact Or.inl ⟨rfl, h⟩
  · rw [Function.update_of_ne hfg] at h
    exact Or.inr ⟨hfg, h⟩

theorem update_of_node {own : ℕ → Owner} {o : Owner} {g f r l k : ℕ}
    (hg : ∀ r l k, own g ≠ .node r l k) (hf : own f = .node r l k) :
    Function.update own g o f = .node r l k := by
  rw [Function.update_of_ne, hf]
  rintro rfl
  exact hg _ _ _ hf

/-- The page-table pages are linked to trees as `own` says, and the trees hold the leaves. -/
structure Tree (own : ℕ → Owner) (m : ℕ → ℕ → Byte) (root : ℕ → Prop) (leaf : ℕ → ℕ → U64) :
    Prop where
  bound : ∀ f r l k, own f = .node r l k → f < 2 ^ 44
  level : ∀ f r l k, own f = .node r l k → l ≤ 2
  top : ∀ f r k, own f = .node r 2 k → f = r ∧ k = 0
  down : ∀ f r l k i, own f = .node r (l + 1) k → i < 512 → Valid (pteAt m f i) →
    ∃ g, own g = .node r l (k * 512 + i) ∧ pteAt m f i = pteTo g
  up : ∀ g r l k, own g = .node r l k → l < 2 →
    ∃ f, own f = .node r (l + 1) (k / 512) ∧ pteAt m f (k % 512) = pteTo g
  root : ∀ r, root r ↔ own r = .node r 2 0
  leaf_node : ∀ f r k i, own f = .node r 0 k → i < 512 → leaf r (k * 512 + i) = pteAt m f i
  leaf_none : ∀ r v, (∀ f, own f ≠ .node r 0 (v / 512)) → leaf r v = 0

namespace Tree

variable {own own' : ℕ → Owner} {m m' : ℕ → ℕ → Byte} {root : ℕ → Prop} {leaf : ℕ → ℕ → U64}

/-- Pages that are not page-table pages do not matter. -/
theorem congr (h : Tree own m root leaf)
    (hown : ∀ f r l k, own' f = .node r l k ↔ own f = .node r l k)
    (hm : ∀ f r l k, own f = .node r l k → m' f = m f) : Tree own' m' root leaf := by
  have hpte : ∀ f r l k i, own f = .node r l k → pteAt m' f i = pteAt m f i := by
    intro f r l k i hf
    rw [pteAt, pteAt, hm f r l k hf]
  constructor
  · intro f r l k hf
    exact h.bound f r l k ((hown ..).1 hf)
  · intro f r l k hf
    exact h.level f r l k ((hown ..).1 hf)
  · intro f r k hf
    exact h.top f r k ((hown ..).1 hf)
  · intro f r l k i hf hi hv
    have hf := (hown ..).1 hf
    rw [hpte _ _ _ _ i hf] at hv ⊢
    obtain ⟨g, hg, he⟩ := h.down f r l k i hf hi hv
    exact ⟨g, (hown ..).2 hg, he⟩
  · intro g r l k hg hl
    obtain ⟨f, hf, he⟩ := h.up g r l k ((hown ..).1 hg) hl
    exact ⟨f, (hown ..).2 hf, by rw [hpte _ _ _ _ _ hf, he]⟩
  · intro r
    rw [h.root, hown]
  · intro f r k i hf hi
    have hf := (hown ..).1 hf
    rw [hpte _ _ _ _ i hf]
    exact h.leaf_node f r k i hf hi
  · intro r v hv
    exact h.leaf_none r v fun f hf => hv f ((hown ..).2 hf)

/-- A place in a tree has only one page. -/
theorem unique (h : Tree own m root leaf) {f g r l k : ℕ} (hf : own f = .node r l k)
    (hg : own g = .node r l k) : f = g := by
  have step : ∀ l, (∀ k f g, own f = .node r (l + 1) k → own g = .node r (l + 1) k → f = g) →
      l < 2 → ∀ k f g, own f = .node r l k → own g = .node r l k → f = g := by
    intro l ih hl k f g hf hg
    obtain ⟨f', hf', hef⟩ := h.up f r l k hf hl
    obtain ⟨g', hg', heg⟩ := h.up g r l k hg hl
    have := ih _ _ _ hf' hg'
    subst this
    exact pteTo_injective (h.bound _ _ _ _ hf) (h.bound _ _ _ _ hg) (hef.symm.trans heg)
  have h2 : ∀ k f g, own f = .node r 2 k → own g = .node r 2 k → f = g := fun k f g hf hg =>
    (h.top f r k hf).1.trans (h.top g r k hg).1.symm
  have h1 := step 1 h2 (by omega)
  have h0 := step 0 h1 (by omega)
  have hl := h.level f r l k hf
  interval_cases l
  · exact h0 _ _ _ hf hg
  · exact h1 _ _ _ hf hg
  · exact h2 _ _ _ hf hg

/-- Below an invalid entry there is no page. -/
theorem not_node_of_invalid (h : Tree own m root leaf) {f r l k i : ℕ}
    (hf : own f = .node r (l + 1) k) (hi : i < 512) (hinv : ¬ Valid (pteAt m f i)) (x : ℕ) :
    own x ≠ .node r l (k * 512 + i) := by
  intro hx
  have hl : l + 1 ≤ 2 := h.level f r (l + 1) k hf
  obtain ⟨f', hf', he⟩ := h.up x r l _ hx (by omega)
  rw [show (k * 512 + i) / 512 = k by omega] at hf'
  rw [show (k * 512 + i) % 512 = i by omega, h.unique hf' hf] at he
  exact hinv (he ▸ valid_pteTo x)

/-- A page of a table has pages above it up to the root. -/
theorem ancestor (h : Tree own m root leaf) {f r l k : ℕ} (hf : own f = .node r l k) {j : ℕ}
    (hj : l + j ≤ 2) : ∃ g, own g = .node r (l + j) (k / 512 ^ j) := by
  induction j with
  | zero => exact ⟨f, by simpa using hf⟩
  | succ j ih =>
    obtain ⟨g, hg⟩ := ih (by omega)
    obtain ⟨g', hg', -⟩ := h.up g r (l + j) _ hg (by omega)
    rw [Nat.div_div_eq_div_mul, ← pow_succ] at hg'
    exact ⟨g', hg'⟩

/-- A page of a table belongs to a table that is there. -/
theorem root_of_node (h : Tree own m root leaf) {f r l k : ℕ} (hf : own f = .node r l k) :
    own r = .node r 2 0 := by
  have hl := h.level f r l k hf
  obtain ⟨g, hg⟩ := h.ancestor hf (j := 2 - l) (by omega)
  rw [show l + (2 - l) = 2 by omega] at hg
  obtain ⟨rfl, h0⟩ := h.top _ _ _ hg
  rwa [h0] at hg

/-- Table `r` is taken out of the picture. -/
theorem hide (h : Tree own m root leaf) (r : ℕ) (own' : ℕ → Owner)
    (hown : ∀ f r' l k, own' f = .node r' l k ↔ r' ≠ r ∧ own f = .node r' l k) :
    Tree own' m (fun r' => r' ≠ r ∧ root r') (Function.update leaf r fun _ => 0) := by
  constructor
  · intro f r' l k hf
    exact h.bound f r' l k ((hown ..).1 hf).2
  · intro f r' l k hf
    exact h.level f r' l k ((hown ..).1 hf).2
  · intro f r' k hf
    exact h.top f r' k ((hown ..).1 hf).2
  · intro f r' l k i hf hi hv
    obtain ⟨hr, hf⟩ := (hown ..).1 hf
    obtain ⟨g, hg, he⟩ := h.down f r' l k i hf hi hv
    exact ⟨g, (hown ..).2 ⟨hr, hg⟩, he⟩
  · intro g r' l k hg hl
    obtain ⟨hr, hg⟩ := (hown ..).1 hg
    obtain ⟨f, hf, he⟩ := h.up g r' l k hg hl
    exact ⟨f, (hown ..).2 ⟨hr, hf⟩, he⟩
  · intro r'
    rw [hown, h.root]
  · intro f r' k i hf hi
    obtain ⟨hr, hf⟩ := (hown ..).1 hf
    rw [Function.update_of_ne hr]
    exact h.leaf_node f r' k i hf hi
  · intro r' v hv
    by_cases hr : r' = r
    · subst hr
      rw [Function.update_self]
    · rw [Function.update_of_ne hr]
      exact h.leaf_none r' v fun f hf => hv f ((hown ..).2 ⟨hr, hf⟩)

/-- Storing a leaf entry. -/
theorem storeLeaf (h : Tree own m root leaf) {f r k i : ℕ} (hf : own f = .node r 0 k)
    (hi : i < 512) (w : U64) :
    Tree own (putPte m f i w) root
      (fun r' v' => if r' = r ∧ v' = k * 512 + i then w else leaf r' v') := by
  have hne : ∀ g r' l k' j, own g = .node r' (l + 1) k' →
      pteAt (putPte m f i w) g j = pteAt m g j := by
    intro g r' l k' j hg
    apply pteAt_putPte_of_ne
    rintro ⟨rfl, -⟩
    rw [hf] at hg
    cases hg
  refine ⟨h.bound, h.level, h.top, ?_, ?_, h.root, ?_, ?_⟩
  · intro g r' l k' j hg hj hv
    rw [hne g r' l k' j hg] at hv ⊢
    exact h.down g r' l k' j hg hj hv
  · intro g r' l k' hg hl
    obtain ⟨f', hf', he⟩ := h.up g r' l k' hg hl
    exact ⟨f', hf', by rw [hne _ _ _ _ _ hf', he]⟩
  · intro g r' k' j hg hj
    by_cases hc : r' = r ∧ k' * 512 + j = k * 512 + i
    · obtain ⟨rfl, hkj⟩ := hc
      obtain ⟨rfl, rfl⟩ : k' = k ∧ j = i := by omega
      rw [h.unique hg hf, pteAt_putPte_self, if_pos ⟨rfl, rfl⟩]
    · rw [if_neg hc, h.leaf_node g r' k' j hg hj, pteAt_putPte_of_ne]
      rintro ⟨rfl, rfl⟩
      rw [hf] at hg
      cases hg
      exact hc ⟨rfl, rfl⟩
  · intro r' v hv
    rw [if_neg, h.leaf_none r' v hv]
    rintro ⟨rfl, rfl⟩
    exact hv f (by rw [hf]; congr 1; omega)

/-- Linking a zeroed page below an empty entry. -/
theorem link (h : Tree own m root leaf) {f g r l k i : ℕ} (hf : own f = .node r (l + 1) k)
    (hi : i < 512) (hinv : ¬ Valid (pteAt m f i)) (hg : ∀ r l k, own g ≠ .node r l k)
    (hz : m g = fun _ => 0) (hb : g < 2 ^ 44) :
    Tree (Function.update own g (.node r l (k * 512 + i))) (putPte m f i (pteTo g)) root leaf := by
  have hfg : f ≠ g := fun he => hg r (l + 1) k (he ▸ hf)
  have hl : l + 1 ≤ 2 := h.level f r (l + 1) k hf
  have hgz : ∀ j, pteAt (putPte m f i (pteTo g)) g j = 0 := by
    intro j
    rw [pteAt_putPte_of_ne _ _ (fun hc => hfg hc.1.symm), pteAt_of_zero hz]
  constructor
  · intro x r' l' k' hx
    rcases node_of_update hx with ⟨rfl, -⟩ | ⟨-, hx⟩
    · exact hb
    · exact h.bound x r' l' k' hx
  · intro x r' l' k' hx
    rcases node_of_update hx with ⟨-, ho⟩ | ⟨-, hx⟩
    · cases ho
      omega
    · exact h.level x r' l' k' hx
  · intro x r' k' hx
    rcases node_of_update hx with ⟨-, ho⟩ | ⟨-, hx⟩
    · cases ho
      omega
    · exact h.top x r' k' hx
  · intro x r' l' k' j hx hj hv
    rcases node_of_update hx with ⟨rfl, -⟩ | ⟨hxg, hx'⟩
    · rw [hgz j] at hv
      exact absurd (by simp) hv
    · by_cases hc : x = f ∧ j = i
      · obtain ⟨rfl, rfl⟩ := hc
        rw [hf] at hx'
        cases hx'
        exact ⟨g, Function.update_self .., pteAt_putPte_self ..⟩
      · rw [pteAt_putPte_of_ne _ _ hc] at hv ⊢
        obtain ⟨y, hy, he⟩ := h.down x r' l' k' j hx' hj hv
        exact ⟨y, update_of_node hg hy, he⟩
  · intro x r' l' k' hx hl'
    rcases node_of_update hx with ⟨rfl, ho⟩ | ⟨hxg, hx⟩
    · cases ho
      refine ⟨f, ?_, ?_⟩
      · rw [show (k * 512 + i) / 512 = k by omega]
        exact update_of_node hg hf
      · rw [show (k * 512 + i) % 512 = i by omega]
        exact pteAt_putPte_self ..
    · obtain ⟨y, hy, he⟩ := h.up x r' l' k' hx hl'
      refine ⟨y, update_of_node hg hy, ?_⟩
      rw [pteAt_putPte_of_ne, he]
      rintro ⟨rfl, hki⟩
      rw [hki] at he
      exact hinv (he ▸ valid_pteTo x)
  · intro r'
    rw [h.root]
    constructor
    · exact update_of_node hg
    · intro hx
      rcases node_of_update hx with ⟨-, ho⟩ | ⟨-, hx⟩
      · rw [Owner.node.injEq] at ho
        omega
      · exact hx
  · intro x r' k' j hx hj
    rcases node_of_update hx with ⟨rfl, ho⟩ | ⟨hxg, hx⟩
    · cases ho
      rw [hgz j]
      apply h.leaf_none
      intro y hy
      rw [show ((k * 512 + i) * 512 + j) / 512 = k * 512 + i by omega] at hy
      exact h.not_node_of_invalid hf hi hinv y hy
    · rw [h.leaf_node x r' k' j hx hj, pteAt_putPte_of_ne]
      rintro ⟨rfl, -⟩
      rw [hf] at hx
      cases hx
  · intro r' v hv
    exact h.leaf_none r' v fun y hy => hv y (update_of_node hg hy)

/-- A zeroed page becomes an empty table. -/
theorem newRoot (h : Tree own m root leaf) {g : ℕ} (hg : ∀ r l k, own g ≠ .node r l k)
    (hz : m g = fun _ => 0) (hb : g < 2 ^ 44) :
    Tree (Function.update own g (.node g 2 0)) m (fun r => r = g ∨ root r) leaf := by
  constructor
  · intro x r' l' k' hx
    rcases node_of_update hx with ⟨rfl, -⟩ | ⟨-, hx⟩
    · exact hb
    · exact h.bound x r' l' k' hx
  · intro x r' l' k' hx
    rcases node_of_update hx with ⟨-, ho⟩ | ⟨-, hx⟩
    · cases ho
      exact le_rfl
    · exact h.level x r' l' k' hx
  · intro x r' k' hx
    rcases node_of_update hx with ⟨rfl, ho⟩ | ⟨-, hx⟩
    · cases ho
      exact ⟨rfl, rfl⟩
    · exact h.top x r' k' hx
  · intro x r' l' k' j hx hj hv
    rcases node_of_update hx with ⟨rfl, -⟩ | ⟨hxg, hx⟩
    · rw [pteAt_of_zero hz] at hv
      exact absurd (by simp) hv
    · obtain ⟨y, hy, he⟩ := h.down x r' l' k' j hx hj hv
      exact ⟨y, update_of_node hg hy, he⟩
  · intro x r' l' k' hx hl'
    rcases node_of_update hx with ⟨-, ho⟩ | ⟨-, hx⟩
    · cases ho
      omega
    · obtain ⟨y, hy, he⟩ := h.up x r' l' k' hx hl'
      exact ⟨y, update_of_node hg hy, he⟩
  · intro r'
    rw [h.root]
    constructor
    · rintro (rfl | hr)
      · exact Function.update_self ..
      · exact update_of_node hg hr
    · intro hx
      rcases node_of_update hx with ⟨rfl, -⟩ | ⟨-, hx⟩
      · exact Or.inl rfl
      · exact Or.inr hx
  · intro x r' k' j hx hj
    rcases node_of_update hx with ⟨-, ho⟩ | ⟨-, hx⟩
    · cases ho
    · exact h.leaf_node x r' k' j hx hj
  · intro r' v hv
    exact h.leaf_none r' v fun y hy => hv y (update_of_node hg hy)

end Tree

/-! ### The representation -/

variable [Layout]

/-- The pages the allocator manages. -/
def Allocatable (f : ℕ) : Prop := Layout.kend.toNat ≤ f * 4096 ∧ f < 0x88000

/-- The reference count of a page, by its owner. -/
def Owner.Count : Owner → ℤ → Prop
  | .outside, _ => True
  | .free, n => n = 0
  | .node _ _ _, n => n = 1
  | .page, n => 0 < n

/-- The free list and the reference counts are as `own` says, and `page` tells the pages handed
out. -/
structure Alloc (own : ℕ → Owner) (s : Phys) (page : ℕ → Option Page) : Prop where
  outside : ∀ f, own f = .outside ↔ ¬ Allocatable f
  free : ∀ f, own f = .free ↔ f ∈ s.freelist
  nodup : s.freelist.Nodup
  count : ∀ f, (own f).Count (s.refs f)
  page_eq : ∀ f, page f = if own f = .page then some ⟨s.refs f, s.mem f⟩ else none

/-- Page `g` changes hands; everything about the other pages stays. -/
theorem Alloc.move {own : ℕ → Owner} {s : Phys} {page : ℕ → Option Page} (h : Alloc own s page)
    {g : ℕ} {o : Owner} {free : List ℕ} {n : ℤ} (d : ℕ → Byte) (hg : own g ≠ .outside)
    (ho : o ≠ .outside) (hn : o.Count n) (hnd : free.Nodup) (hfree : o = .free ↔ g ∈ free)
    (hother : ∀ f, f ≠ g → (f ∈ free ↔ f ∈ s.freelist)) :
    Alloc (Function.update own g o)
      { mem := Function.update s.mem g d, freelist := free, refs := Function.update s.refs g n }
      (Function.update page g (if o = .page then some ⟨n, d⟩ else none)) := by
  constructor
  · intro f
    by_cases hf : f = g
    · subst hf
      rw [Function.update_self, ← (h.outside f)]
      simp [hg, ho]
    · rw [Function.update_of_ne hf]
      exact h.outside f
  · intro f
    by_cases hf : f = g
    · subst hf
      rw [Function.update_self]
      exact hfree
    · rw [Function.update_of_ne hf, h.free f]
      exact (hother f hf).symm
  · exact hnd
  · intro f
    by_cases hf : f = g
    · subst hf
      simpa using hn
    · simpa [Function.update_of_ne hf] using h.count f
  · intro f
    by_cases hf : f = g
    · subst hf
      simp
    · simpa [Function.update_of_ne hf] using h.page_eq f

namespace Alloc

variable {own : ℕ → Owner} {s : Phys} {page : ℕ → Option Page}

theorem allocatable (h : Alloc own s page) {f : ℕ} (hf : own f ≠ .outside) : Allocatable f := by
  by_contra hn
  exact hf ((h.outside f).2 hn)

theorem page_iff (h : Alloc own s page) {f : ℕ} {p : Page} :
    page f = some p ↔ own f = .page ∧ s.refs f = p.refs ∧ s.mem f = p.data := by
  rw [h.page_eq f]
  by_cases hf : own f = .page
  · rw [if_pos hf, Option.some.injEq]
    constructor
    · rintro rfl
      exact ⟨hf, rfl, rfl⟩
    · rintro ⟨-, h1, h2⟩
      rw [h1, h2]
  · simp [hf]

theorem page_none_iff (h : Alloc own s page) {f : ℕ} : page f = none ↔ own f ≠ .page := by
  rw [h.page_eq f]
  by_cases hf : own f = .page <;> simp [hf]

theorem refs_pos (h : Alloc own s page) {f : ℕ} {p : Page} (hp : page f = some p) :
    0 < p.refs := by
  obtain ⟨hf, hr, -⟩ := h.page_iff.1 hp
  have := h.count f
  rw [hf, hr] at this
  exact this

theorem not_mem_free (h : Alloc own s page) {f : ℕ} (hf : own f ≠ .free) : f ∉ s.freelist :=
  (h.free f).not.1 hf

/-- A page that is handed out becomes a page of a table, its contents unchanged. -/
theorem toNode (h : Alloc own s page) {g r l k : ℕ} {p : Page} (hp : page g = some p)
    (h1 : p.refs = 1) :
    Alloc (Function.update own g (.node r l k)) s (Function.update page g none) := by
  obtain ⟨hg, hr, -⟩ := h.page_iff.1 hp
  have := h.move (g := g) (o := .node r l k) (n := 1) (s.mem g) (by simp [hg]) (by simp) rfl
    h.nodup (by simp [h.not_mem_free, hg]) (fun _ _ => Iff.rfl)
  rw [Function.update_eq_self, ← h1, ← hr, Function.update_eq_self] at this
  exact this

/-- A store to a page-table page does not concern the allocator. -/
theorem putPte (h : Alloc own s page) {f r l k : ℕ} (hf : own f = .node r l k) (i : ℕ) (w : U64) :
    Alloc own { s with mem := Xv6.putPte s.mem f i w } page := by
  have hone : s.refs f = 1 := by
    have := h.count f
    rwa [hf] at this
  have hpage : page f = none := h.page_none_iff.2 (by simp [hf])
  have := h.move (g := f) (o := .node r l k) (n := 1) (storeW (s.mem f) (8 * i) w)
    (by simp [hf]) (by simp) rfl h.nodup (by simp [h.not_mem_free, hf]) (fun _ _ => Iff.rfl)
  rw [← hf, Function.update_eq_self, ← hone, Function.update_eq_self, hf, if_neg (by simp), ← hpage,
    Function.update_eq_self] at this
  exact this

end Alloc

/-- `s` represents `a`, with the pages owned as `own` says. -/
structure Rep (own : ℕ → Owner) (s : Phys) (a : Maps) : Prop where
  tree : Tree own s.mem a.root a.leaf
  alloc : Alloc own s a.page

namespace Rep

variable {own : ℕ → Owner} {s : Phys} {a : Maps}

theorem allocatable (h : Rep own s a) {f : ℕ} {p : Page} (hp : a.page f = some p) : Allocatable f :=
  h.alloc.allocatable (by rw [(h.alloc.page_iff.1 hp).1]; simp)

/-- A page that belongs to no table changes hands and stays outside the tables. -/
theorem tree_move (h : Rep own s a) {g : ℕ} {o : Owner} (hg : ∀ r l k, own g ≠ .node r l k)
    (ho : ∀ r l k, o ≠ .node r l k) (d : ℕ → Byte) :
    Tree (Function.update own g o) (Function.update s.mem g d) a.root a.leaf := by
  apply h.tree.congr
  · intro f r l k
    by_cases hf : f = g
    · subst hf
      simp [hg, ho]
    · rw [Function.update_of_ne hf]
  · intro f r l k hf
    apply Function.update_of_ne
    rintro rfl
    exact hg _ _ _ hf

/-- New contents or a new count for a page that is handed out. -/
theorem putPage (h : Rep own s a) {f : ℕ} {n : ℤ} (hf : own f = .page) (hn : 0 < n)
    (d : ℕ → Byte) :
    Rep own { s with mem := Function.update s.mem f d, refs := Function.update s.refs f n }
      (a.setPage f (some ⟨n, d⟩)) := by
  have hown : Function.update own f .page = own := by
    rw [← hf, Function.update_eq_self]
  constructor
  · have := h.tree_move (g := f) (o := .page) (by simp [hf]) (by simp) d
    rwa [hown] at this
  · have := h.alloc.move (g := f) (o := .page) (n := n) d (by simp [hf]) (by simp) hn h.alloc.nodup
      (by simp [h.alloc.not_mem_free, hf]) (fun _ _ => Iff.rfl)
    rwa [hown] at this

theorem setData (h : Rep own s a) {f : ℕ} {p : Page} (hp : a.page f = some p) (d : ℕ → Byte) :
    Rep own { s with mem := Function.update s.mem f d }
    (a.setPage f (some { p with data := d })) := by
  obtain ⟨hf, hr, -⟩ := h.alloc.page_iff.1 hp
  have := h.putPage hf (h.alloc.refs_pos hp) d
  rwa [← hr, Function.update_eq_self, hr] at this

theorem setRefs (h : Rep own s a) {f : ℕ} {p : Page} (hp : a.page f = some p) {n : ℤ}
    (hn : 0 < n) :
    Rep own { s with refs := Function.update s.refs f n }
    (a.setPage f (some { p with refs := n })) := by
  obtain ⟨hf, -, hm⟩ := h.alloc.page_iff.1 hp
  have := h.putPage hf hn p.data
  rwa [show Function.update s.mem f p.data = s.mem by rw [← hm, Function.update_eq_self]] at this

/-- The page on top of the free list is handed out. -/
theorem handOut (h : Rep own s a) {g : ℕ} {free : List ℕ} (hs : s.freelist = g :: free)
    (d : ℕ → Byte) :
    Rep (Function.update own g .page)
      { mem := Function.update s.mem g d, freelist := free, refs := Function.update s.refs g 1 }
      (a.setPage g (some ⟨1, d⟩)) := by
  have hg : own g = .free := (h.alloc.free g).2 (by rw [hs]; simp)
  have hnd := h.alloc.nodup
  rw [hs, List.nodup_cons] at hnd
  refine ⟨h.tree_move (by simp [hg]) (by simp) d,
    h.alloc.move (o := .page) (n := 1) d (by simp [hg]) (by simp) one_pos hnd.2
    (by simp [hnd.1]) ?_⟩
  intro f hf
  rw [hs]
  simp [hf]

/-- A page that is handed out goes back to the free list. -/
theorem giveBack (h : Rep own s a) {g : ℕ} (hg : own g = .page) (d : ℕ → Byte) :
    Rep (Function.update own g .free)
      { mem := Function.update s.mem g d
        freelist := g :: s.freelist
        refs := Function.update s.refs g 0 } (a.setPage g none) := by
  refine ⟨h.tree_move (by simp [hg]) (by simp) d,
    h.alloc.move (o := .free) (n := 0) d (by simp [hg]) (by simp) rfl ?_ (by simp) ?_⟩
  · exact List.nodup_cons.2 ⟨h.alloc.not_mem_free (by simp [hg]), h.alloc.nodup⟩
  · intro f hf
    simp [hf]

/-- A store to a leaf entry. -/
theorem storeLeaf (h : Rep own s a) {f r k i : ℕ} (hf : own f = .node r 0 k) (hi : i < 512)
    (w : U64) :
    Rep own { s with mem := putPte s.mem f i w } (a.setLeaf r (k * 512 + i) w) :=
  ⟨h.tree.storeLeaf hf hi w, h.alloc.putPte hf i w⟩

/-- A fresh zeroed page is linked below an empty entry of a table. -/
theorem link (h : Rep own s a) {f g r l k i : ℕ} (hf : own f = .node r (l + 1) k) (hi : i < 512)
    (hinv : ¬ Valid (pteAt s.mem f i)) (hg : a.page g = some ⟨1, fun _ => 0⟩) :
    Rep (Function.update own g (.node r l (k * 512 + i)))
      { s with mem := putPte s.mem f i (pteTo g) } (a.setPage g none) := by
  obtain ⟨hgo, -, hm⟩ := h.alloc.page_iff.1 hg
  have hlt := (h.alloc.allocatable (f := g) (by simp [hgo])).2
  have hfg : f ≠ g := by
    rintro rfl
    rw [hgo] at hf
    cases hf
  refine ⟨h.tree.link hf hi hinv (by simp [hgo]) hm (by omega), ?_⟩
  exact (h.alloc.toNode hg rfl).putPte (by rw [Function.update_of_ne hfg, hf]) i (pteTo g)

/-- A fresh zeroed page becomes an empty table. -/
theorem newRoot (h : Rep own s a) {g : ℕ} (hg : a.page g = some ⟨1, fun _ => 0⟩) :
    Rep (Function.update own g (.node g 2 0)) s ((a.setPage g none).addRoot g) := by
  obtain ⟨hgo, -, hm⟩ := h.alloc.page_iff.1 hg
  have hlt := (h.alloc.allocatable (f := g) (by simp [hgo])).2
  exact ⟨h.tree.newRoot (by simp [hgo]) hm (by omega), h.alloc.toNode hg rfl⟩

end Rep

/-- Memory without page tables: pages are free, or somebody else has them. -/
theorem exists_rep_of_pages {s : Phys} (hnd : s.freelist.Nodup)
    (hfree : ∀ f ∈ s.freelist, Allocatable f ∧ s.refs f = 0)
    (htaken : ∀ f, Allocatable f → f ∉ s.freelist → 0 < s.refs f) :
    ∃ own a, Rep own s a ∧ (∀ r, ¬ a.root r) ∧ (∀ r v, a.leaf r v = 0) ∧
      ∀ f, Allocatable f → f ∉ s.freelist →
        own f = .page ∧ a.page f = some ⟨s.refs f, s.mem f⟩ := by
  classical
  set own : ℕ → Owner := fun f =>
    if f ∈ s.freelist then .free else if Allocatable f then .page else .outside with hown
  have hnode : ∀ f r l k, own f ≠ .node r l k := by
    intro f r l k
    rw [hown]
    dsimp only
    split_ifs <;> simp
  have hpage : ∀ f, Allocatable f → f ∉ s.freelist → own f = .page := by
    intro f hA hf
    rw [hown]
    dsimp only
    rw [if_neg hf, if_pos hA]
  refine ⟨own, ⟨fun _ => False, fun _ _ => 0,
    fun f => if own f = .page then some ⟨s.refs f, s.mem f⟩ else none⟩, ⟨?_, ?_⟩, fun _ => id,
    fun _ _ => rfl, fun f hA hf => ⟨hpage f hA hf, if_pos (hpage f hA hf)⟩⟩
  · refine ⟨?_, ?_, ?_, ?_, ?_, ?_, ?_, ?_⟩
    · exact fun f r l k hf => (hnode f r l k hf).elim
    · exact fun f r l k hf => (hnode f r l k hf).elim
    · exact fun f r k hf => (hnode f r 2 k hf).elim
    · exact fun f r l k i hf => (hnode f r (l + 1) k hf).elim
    · exact fun f r l k hf => (hnode f r l k hf).elim
    · exact fun r => ⟨False.elim, fun hf => (hnode r r 2 0 hf).elim⟩
    · exact fun f r k i hf => (hnode f r 0 k hf).elim
    · exact fun r v _ => rfl
  · refine ⟨fun f => ?_, fun f => ?_, hnd, fun f => ?_, fun f => rfl⟩
    all_goals
      rw [hown]
      dsimp only
      by_cases hf : f ∈ s.freelist
      · have := hfree f hf
        simp [hf, this.1, Owner.Count, this.2]
      · by_cases hA : Allocatable f
        · have := htaken f hA hf
          simp [hf, hA, Owner.Count, this]
        · simp [hf, hA, Owner.Count]

end Xv6
