import Xv6.PagetableSpec

/-!
# Creating and freeing a page table

`pgt_new` adds an empty table.  `pgt_free` walks down a table without leaves and gives every page
of it back.  While it does so the table is no tree any more: a page is freed before the entry that
points to it is cleared.  So the table is first taken out of the picture (`Rep.hide`): its pages
count as handed out, and the recursion frees them one by one (`pgtFreeDepth_spec`).
-/

namespace Xv6

open Bytes Wp

open Classical in
/-- Take the pages of a set back. -/
noncomputable def Maps.without (a : Maps) (S : ℕ → Prop) : Maps :=
  { a with page := fun f => if S f then none else a.page f }

namespace Maps

variable {a : Maps} {S S' : ℕ → Prop} {f : ℕ}

theorem without_congr {T : ℕ → Prop} (h : ∀ x, S x ↔ T x) : a.without S = a.without T := by
  rw [show S = T from funext fun x => propext (h x)]

theorem without_without : (a.without S).without S' = a.without fun x => S x ∨ S' x := by
  unfold without
  congr 1
  funext x
  by_cases h : S x <;> by_cases h' : S' x <;> simp [h, h']

theorem setPage_without (p : Option Page) (hf : ¬ S f) :
    (a.setPage f p).without S = (a.without S).setPage f p := by
  unfold without setPage
  congr 1
  funext x
  by_cases hx : x = f
  · subst hx
    simp [hf]
  · simp [Function.update_of_ne hx]

theorem setPage_none : a.setPage f none = a.without fun x => x = f := by
  unfold without setPage
  congr 1
  funext x
  by_cases hx : x = f
  · subst hx
    simp
  · simp [hx]

theorem without_page_of_not (hf : ¬ S f) : (a.without S).page f = a.page f := by
  simp [without, hf]

/-- The last reference to a page. -/
theorem decref_of_one {d : ℕ → Byte} (h : a.page f = some ⟨1, d⟩) :
    a.decref f = a.setPage f none := by
  rw [decref, h]
  rfl

end Maps

/-- The pages of table `r` at and below place `k` of level `l`. -/
def Below (own : ℕ → Owner) (r l k : ℕ) (f : ℕ) : Prop :=
  ∃ l' j k', own f = .node r l' k' ∧ l' + j = l ∧ k' / 512 ^ j = k

theorem below_zero {own : ℕ → Owner} {r k f : ℕ} :
    Below own r 0 k f ↔ own f = .node r 0 k := by
  constructor
  · rintro ⟨l', j, k', hf, hl, hk⟩
    obtain ⟨rfl, rfl⟩ : l' = 0 ∧ j = 0 := by omega
    rw [pow_zero, Nat.div_one] at hk
    rwa [hk] at hf
  · intro hf
    exact ⟨0, 0, k, hf, rfl, by simp⟩

theorem below_succ {own : ℕ → Owner} {r l k f : ℕ} :
    Below own r (l + 1) k f ↔
      own f = .node r (l + 1) k ∨ ∃ i, i < 512 ∧ Below own r l (k * 512 + i) f := by
  constructor
  · rintro ⟨l', j, k', hf, hl, hk⟩
    cases j with
    | zero =>
      rw [pow_zero, Nat.div_one] at hk
      rw [Nat.add_zero] at hl
      rw [hl, hk] at hf
      exact Or.inl hf
    | succ j =>
      refine Or.inr ⟨k' / 512 ^ j % 512, Nat.mod_lt _ (by norm_num), l', j, k', hf, by omega, ?_⟩
      rw [pow_succ, ← Nat.div_div_eq_div_mul] at hk
      omega
  · rintro (hf | ⟨i, hi, l', j, k', hf, hl, hk⟩)
    · exact ⟨l + 1, 0, k, hf, by omega, by simp⟩
    · refine ⟨l', j + 1, k', hf, by omega, ?_⟩
      rw [pow_succ, ← Nat.div_div_eq_div_mul]
      omega

/-- Ownership when the pages of table `r` count as handed out. -/
def hideTable (own : ℕ → Owner) (r : ℕ) (f : ℕ) : Owner :=
  match own f with
  | .node r' l k => if r' = r then .page else .node r' l k
  | o => o

theorem hideTable_node {own : ℕ → Owner} {r f r' l k : ℕ} :
    hideTable own r f = .node r' l k ↔ r' ≠ r ∧ own f = .node r' l k := by
  rw [hideTable]
  rcases own f with _ | _ | ⟨r'', l'', k''⟩ | _
  · simp
  · simp
  · by_cases hr : r'' = r
    · simp only [if_pos hr]
      constructor
      · simp
      · rintro ⟨hne, he⟩
        cases he
        exact absurd hr hne
    · simp only [if_neg hr]
      constructor
      · intro he
        cases he
        exact ⟨hr, rfl⟩
      · exact fun he => he.2
  · simp

theorem pteTo_and_RWX (g : ℕ) : pteTo g &&& (PTE_R ||| PTE_W ||| PTE_X) = 0 := by
  apply BitVec.eq_of_getLsbD_eq
  intro i hi
  rw [pteTo, BitVec.getLsbD_and, BitVec.getLsbD_or]
  by_cases h : i < 10
  · rw [getLsbD_pa2pte _ h]
    interval_cases i <;> rfl
  · have hfl : IsFlags (PTE_R ||| PTE_W ||| PTE_X) := by decide
    rw [hfl.getLsbD (by omega)]
    simp

variable [Layout]

section

variable {E : Stop → Prop} {own : ℕ → Owner} {s : Phys} {a : Maps} {r : ℕ}

/-- `pgt_new` fails only when no page is free; otherwise it adds an empty table. -/
theorem pgtNew_spec (h : Rep own s a) :
    wp pgtNew E (fun pa t =>
      (pa = 0 ∧ t = s ∧ s.freelist = []) ∨
      ∃ g, pa = pageAddr g ∧ own g = .free ∧ Allocatable g ∧ ¬ a.root g ∧
        (∀ v, a.leaf g v = 0) ∧ a.page g = none ∧
        Rep (Function.update own g (.node g 2 0)) t (a.addRoot g)) s := by
  rw [pgtNew, wp_bind]
  refine (kalloc_spec h).mono fun pa t ht => ?_
  rcases ht with ⟨rfl, rfl, hnil⟩ | ⟨g, rfl, hgo, -, hgA, -, ht⟩
  · exact Or.inl ⟨rfl, rfl, hnil⟩
  · have hpage : a.page g = none := h.alloc.page_none_iff.2 (by simp [hgo])
    have hnode : ∀ f l k, own f ≠ .node g l k := by
      intro f l k hf
      have := h.tree.root_of_node hf
      rw [hgo] at this
      cases this
    rw [wp_ite, if_neg hgA.pageAddr_ne_zero]
    simp only [wp_bind, wp_memset hgA]
    have hz := ht.setData (Maps.setPage_page_self ..) (fun _ => 0)
    rw [Maps.setPage_setPage] at hz
    have hroot := hz.newRoot (Maps.setPage_page_self ..)
    rw [Maps.setPage_setPage, Maps.setPage_of_eq hpage, Function.update_idem] at hroot
    refine Or.inr ⟨g, rfl, hgo, hgA, ?_, fun v => h.tree.leaf_none g v fun f => hnode f _ _, hpage,
      hroot⟩
    rw [h.tree.root]
    exact hnode g 2 0

open Classical in
/-- Table `r` is taken out of the picture: its pages count as handed out. -/
theorem Rep.hide (h : Rep own s a) (r : ℕ) :
    Rep (hideTable own r) s
      { a.dropRoot r with
        page := fun f => if ∃ l k, own f = .node r l k then some ⟨1, s.mem f⟩ else a.page f } := by
  constructor
  · exact h.tree.hide r _ fun f r' l k => hideTable_node
  · have hcases : ∀ f, (∃ l k, own f = .node r l k) ∧ hideTable own r f = .page ∨
        (¬ ∃ l k, own f = .node r l k) ∧ hideTable own r f = own f := by
      intro f
      rw [hideTable]
      rcases hf : own f with _ | _ | ⟨r', l, k⟩ | _
      · simp
      · simp
      · by_cases hr : r' = r
        · subst hr
          simp
        · simp [hr]
      · simp
    constructor
    · intro f
      rcases hcases f with ⟨⟨l, k, hf⟩, he⟩ | ⟨-, he⟩
      · rw [he, ← h.alloc.outside f, hf]
        simp
      · rw [he]
        exact h.alloc.outside f
    · intro f
      rcases hcases f with ⟨⟨l, k, hf⟩, he⟩ | ⟨-, he⟩
      · rw [he, ← h.alloc.free f, hf]
        simp
      · rw [he]
        exact h.alloc.free f
    · exact h.alloc.nodup
    · intro f
      rcases hcases f with ⟨⟨l, k, hf⟩, he⟩ | ⟨-, he⟩
      · have := h.alloc.count f
        rw [hf] at this
        rw [he, show s.refs f = 1 from this]
        exact one_pos
      · rw [he]
        exact h.alloc.count f
    · intro f
      rcases hcases f with ⟨hn, he⟩ | ⟨hn, he⟩
      · obtain ⟨l, k, hf⟩ := hn
        have := h.alloc.count f
        rw [hf] at this
        simp only [he, if_true]
        rw [if_pos ⟨l, k, hf⟩, show s.refs f = 1 from this]
      · simp only [he]
        rw [if_neg hn]
        exact h.alloc.page_eq f

theorem loadPte_page (h : Rep own s a) {f : ℕ} {p : Page} (hp : a.page f = some p) {i : ℕ}
    (hi : i < 512) {Q : U64 → Phys → Prop} :
    wp (loadPte (slotAddr f i)) E Q s ↔ Q (loadW 64 p.data (8 * i)) s := by
  obtain ⟨hf, -, hm⟩ := h.alloc.page_iff.1 hp
  rw [wp_loadPte (h.alloc.allocatable (by simp [hf])) hi, pteAt, hm]

theorem storePte_page (h : Rep own s a) {f : ℕ} {p : Page} (hp : a.page f = some p) {i : ℕ}
    (hi : i < 512) (w : U64) :
    wp (storePte (slotAddr f i) w) E (fun _ t =>
      Rep own t (a.setPage f (some { p with data := storeW p.data (8 * i) w }))) s := by
  obtain ⟨hf, -, hm⟩ := h.alloc.page_iff.1 hp
  rw [wp_storePte (h.alloc.allocatable (by simp [hf])) hi, putPte, hm]
  exact h.setData hp _

section Free

variable {own₀ : ℕ → Owner} {m₀ : ℕ → ℕ → Byte} {root : ℕ → Prop} {leaf : ℕ → ℕ → U64}

/-- The recursion of `pgt_free`: from a page of a table without leaves, all pages at and below it
are given back.  `own₀` and `m₀` tell the table as it was at the start. -/
theorem pgtFreeDepth_spec (T : Tree own₀ m₀ root leaf) (hinv : ∀ v, ¬ Valid (leaf r v)) {l n : ℕ}
    (hn : l ≤ n) {f k : ℕ} (hf : own₀ f = .node r l k) (h : Rep own s a)
    (hpage : ∀ x, Below own₀ r l k x → a.page x = some ⟨1, m₀ x⟩) :
    wp (pgtFreeDepth (n + 1) (pageAddr f)) E (fun _ t =>
      ∃ own', Rep own' t (a.without (Below own₀ r l k)) ∧
        (∀ f r l k, own' f = .node r l k ↔ own f = .node r l k) ∧ Outside s t) s := by
  induction l generalizing n f k own s a with
  | zero =>
    have hfp : a.page f = some ⟨1, m₀ f⟩ := hpage f (below_zero.2 hf)
    rw [pgtFreeDepth]
    simp only [wp_bind]
    -- all entries are leaves, and none is valid
    refine (wp_loop (fun _ t => t = s) rfl ?_).mono fun _ t ht => ?_
    · rintro i t - hi rfl
      rw [Nat.zero_add] at hi
      have hv : ¬ Valid (loadW 64 (m₀ f) (8 * i)) := by
        have := hinv (k * 512 + i)
        rwa [T.leaf_node f r k i hf hi] at this
      simp only [wp_bind, pteAddr_pageAddr, loadPte_page h hfp hi]
      rw [wp_ite, if_neg (fun hc => hv hc.1), wp_panicIf, if_neg hv]
    · subst ht
      refine (kfree_spec h hfp).mono fun _ u hu => ?_
      obtain ⟨own', hrep, hsame, hout⟩ := hu
      refine ⟨own', ?_, hsame, hout⟩
      rw [Maps.decref_of_one hfp, Maps.setPage_none] at hrep
      rwa [Maps.without_congr fun x => below_zero.trans
        ⟨fun hx => T.unique hx hf, fun hx => hx ▸ hf⟩]
  | succ l ih =>
    obtain ⟨n, rfl⟩ : ∃ n', n = n' + 1 := ⟨n - 1, by omega⟩
    have hfp : a.page f = some ⟨1, m₀ f⟩ := hpage f (below_succ.2 (Or.inl hf))
    -- the page itself is above the ones its entries lead to
    have hnot : ∀ j, ¬ Below own₀ r l (k * 512 + j) f := by
      rintro j ⟨l', i, k', hf', hl, -⟩
      rw [hf] at hf'
      cases hf'
      omega
    have hdisj : ∀ i j x, Below own₀ r l i x → Below own₀ r l j x → i = j := by
      rintro i j x ⟨l', i', k', hx, hl, hk⟩ ⟨l'', j', k'', hx', hl', hk'⟩
      rw [hx] at hx'
      cases hx'
      obtain rfl : i' = j' := by omega
      exact hk.symm.trans hk'
    rw [pgtFreeDepth]
    simp only [wp_bind]
    -- before round `i` the pages below the first `i` entries are gone
    refine (wp_loop (fun i t => ∃ own' d,
      Rep own' t ((a.without fun x => ∃ j, j < i ∧ Below own₀ r l (k * 512 + j) x).setPage f
        (some ⟨1, d⟩)) ∧
      (∀ f r l k, own' f = .node r l k ↔ own f = .node r l k) ∧ Outside s t ∧
      ∀ j, i ≤ j → j < 512 → loadW 64 d (8 * j) = pteAt m₀ f j) ?_ ?_).mono fun _ t ht => ?_
    · refine ⟨own, m₀ f, ?_, fun _ _ _ _ => Iff.rfl, .refl s, fun j _ _ => rfl⟩
      rw [Maps.setPage_of_eq]
      · rwa [show (a.without fun x => ∃ j, j < 0 ∧ Below own₀ r l (k * 512 + j) x) = a by
          simp [Maps.without]]
      · rw [Maps.without_page_of_not (by simp), hfp]
    · rintro i t - hi ⟨own', d, hrep, hsame, hout, hd⟩
      rw [Nat.zero_add] at hi
      simp only [wp_bind, pteAddr_pageAddr, loadPte_page hrep (Maps.setPage_page_self ..) hi]
      rw [hd i le_rfl hi, wp_ite]
      by_cases hv : Valid (pteAt m₀ f i)
      · obtain ⟨g, hg, he⟩ := T.down f r l k i hf hi hv
        have hgb := T.bound g r l _ hg
        rw [he, if_pos ⟨valid_pteTo g, pteTo_and_RWX g⟩, pte2pa_pteTo hgb, wp_bind]
        refine (ih (by omega) hg hrep ?_).mono fun _ u hu => ?_
        · intro x hx
          have hxf : x ≠ f := fun he => hnot i (he ▸ hx)
          rw [Maps.setPage_page_of_ne _ _ hxf, Maps.without_page_of_not]
          · exact hpage x (below_succ.2 (Or.inr ⟨i, hi, hx⟩))
          · rintro ⟨j, hj, hx'⟩
            have := hdisj _ _ x hx hx'
            omega
        · obtain ⟨own'', hrep', hsame', hout'⟩ := hu
          rw [Maps.setPage_without _ (hnot i), Maps.without_without] at hrep'
          refine ((storePte_page hrep' (Maps.setPage_page_self ..) hi 0).and
            (storePte_outside (hrep'.allocatable (Maps.setPage_page_self ..)) hi 0)).mono
            fun _ w hw => ?_
          obtain ⟨hw, hout''⟩ := hw
          rw [Maps.setPage_setPage] at hw
          refine ⟨own'', storeW d (8 * i) (0 : U64), ?_,
            fun f r l k => (hsame' f r l k).trans (hsame f r l k),
            (hout.trans hout').trans hout'', ?_⟩
          · rw [Maps.without_congr (T := fun x =>
              (∃ j, j < i ∧ Below own₀ r l (k * 512 + j) x) ∨ Below own₀ r l (k * 512 + i) x)]
            · exact hw
            · intro x
              constructor
              · rintro ⟨j, hj, hx⟩
                rcases Nat.lt_succ_iff_lt_or_eq.1 hj with hj | rfl
                · exact Or.inl ⟨j, hj, hx⟩
                · exact Or.inr hx
              · rintro (⟨j, hj, hx⟩ | hx)
                · exact ⟨j, by omega, hx⟩
                · exact ⟨i, by omega, hx⟩
          · intro j hj hj'
            rw [← hd j (by omega) hj']
            exact loadW_storeW_of_disjoint (by omega)
      · rw [if_neg (fun hc => hv hc.1), wp_panicIf, if_neg hv]
        refine ⟨own', d, ?_, hsame, hout, fun j hj => hd j (by omega)⟩
        rw [Maps.without_congr (T := fun x => ∃ j, j < i ∧ Below own₀ r l (k * 512 + j) x)]
        · exact hrep
        · intro x
          constructor
          · rintro ⟨j, hj, hx⟩
            rcases Nat.lt_succ_iff_lt_or_eq.1 hj with hj | rfl
            · exact ⟨j, hj, hx⟩
            · -- nothing is below an invalid entry
              obtain ⟨l', i', k', hx, hl, hk⟩ := hx
              have hlev := T.level f r _ _ hf
              obtain ⟨y, hy⟩ := T.ancestor hx (j := i') (by omega)
              rw [hl, hk] at hy
              exact absurd hy (T.not_node_of_invalid hf hi hv y)
          · rintro ⟨j, hj, hx⟩
            exact ⟨j, by omega, hx⟩
    · obtain ⟨own', d, hrep, hsame, hout, -⟩ := ht
      have hp := Maps.setPage_page_self
        (a.without fun x => ∃ j, j < 0 + 512 ∧ Below own₀ r l (k * 512 + j) x) f (some ⟨1, d⟩)
      refine (kfree_spec hrep hp).mono fun _ u hu => ?_
      obtain ⟨own'', hrep', hsame', hout'⟩ := hu
      refine ⟨own'', ?_, fun f r l k => (hsame' f r l k).trans (hsame f r l k), hout.trans hout'⟩
      rw [Maps.decref_of_one hp, Maps.setPage_setPage, Maps.setPage_none,
        Maps.without_without] at hrep'
      rw [Maps.without_congr (T := fun x =>
        (∃ j, j < 0 + 512 ∧ Below own₀ r l (k * 512 + j) x) ∨ x = f)]
      · exact hrep'
      · intro x
        rw [below_succ, or_comm, Nat.zero_add]
        apply or_congr Iff.rfl
        exact ⟨fun hx => T.unique hx hf, fun hx => hx ▸ hf⟩

end Free

/-- `pgt_free` takes a table without leaves away; the other tables keep their pages. -/
theorem pgtFree_spec (h : Rep own s a) (hr : a.root r) (hinv : ∀ v, ¬ Valid (a.leaf r v)) :
    wp (pgtFree (pageAddr r)) E (fun _ t =>
      ∃ own', Rep own' t (a.dropRoot r) ∧
        (∀ f r' l k, own' f = .node r' l k ↔ r' ≠ r ∧ own f = .node r' l k) ∧ Outside s t) s := by
  have hroot := (h.tree.root r).1 hr
  have hbelow : ∀ x, Below own r 2 0 x ↔ ∃ l k, own x = .node r l k := by
    intro x
    constructor
    · rintro ⟨l, -, k, hx, -⟩
      exact ⟨l, k, hx⟩
    · rintro ⟨l, k, hx⟩
      have hl := h.tree.level x r l k hx
      obtain ⟨y, hy⟩ := h.tree.ancestor hx (j := 2 - l) (by omega)
      rw [show l + (2 - l) = 2 by omega] at hy
      exact ⟨l, 2 - l, k, hx, by omega, (h.tree.top _ _ _ hy).2⟩
  have hhide := h.hide r
  refine (pgtFreeDepth_spec h.tree hinv (n := 4095) (by norm_num) hroot hhide ?_).mono
    fun _ t ht => ?_
  · intro x hx
    exact if_pos ((hbelow x).1 hx)
  · obtain ⟨own', hrep, hsame, hout⟩ := ht
    refine ⟨own', ?_, fun f r' l k => (hsame f r' l k).trans hideTable_node, hout⟩
    convert hrep using 1
    unfold Maps.without Maps.dropRoot
    congr 1
    funext x
    by_cases hx : Below own r 2 0 x
    · rw [if_pos hx]
      obtain ⟨l, k, hx⟩ := (hbelow x).1 hx
      exact h.alloc.page_none_iff.2 (by simp [hx])
    · rw [if_neg hx]
      exact (if_neg fun hc => hx ((hbelow x).2 hc)).symm

end

end Xv6
