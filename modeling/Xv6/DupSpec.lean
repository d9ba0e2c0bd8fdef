import Xv6.SpaceSpec

/-!
# `uvm_dup` keeps address spaces well formed

A successful `uvm_dup` gives the child a copy of every vma and of every entry of the parent; both
sides of a copied entry lose their write bit.  `Cloned` says this of the tables, `Dups` of the pool
and of the arrays; the loop of `uvm_dup` makes both grow vma by vma.
-/

namespace Xv6

open Bytes Wp

/-! ### Entries -/

/-- The table `d` has got the entries of `r` for the pages in `P`, and both have lost their write
bit; the contents of the pages stay. -/
structure Cloned (r d : ℕ) (P : ℕ → Prop) (a b : Maps) : Prop where
  root : b.root = a.root
  copied : ∀ k, P k → Valid (a.leaf r k) →
    b.leaf r k = a.leaf r k &&& ~~~PTE_W ∧ b.leaf d k = a.leaf r k &&& ~~~PTE_W
  same : ∀ r' k, ¬ (P k ∧ Valid (a.leaf r k) ∧ (r' = r ∨ r' = d)) → b.leaf r' k = a.leaf r' k
  kept : Maps.Kept a b

theorem Cloned.refl (r d : ℕ) (a : Maps) : Cloned r d (fun _ => False) a a :=
  ⟨rfl, fun _ h => h.elim, fun _ _ _ => rfl, .refl a⟩

theorem Cloned.congr {r d : ℕ} {P Q : ℕ → Prop} {a b : Maps} (h : Cloned r d P a b)
    (hPQ : ∀ k, P k ↔ Q k) : Cloned r d Q a b := by
  rwa [← show P = Q from funext fun k => propext (hPQ k)]

/-- `pgt_clone` on the entries from `v` on. -/
theorem Maps.cloned (a : Maps) {r d : ℕ} (hne : r ≠ d) (v n : ℕ) :
    Cloned r d (fun k => v ≤ k ∧ k < v + n) a (a.clone r d v n) := by
  induction n with
  | zero =>
    exact ⟨rfl, fun k hk => absurd hk (by omega), fun _ _ _ => rfl, .refl a⟩
  | succ n ih =>
    have hsrc : (a.clone r d v n).leaf r (v + n) = a.leaf r (v + n) :=
      ih.same _ _ fun h => absurd h.1 (by omega)
    have hother : ∀ r' k, k ≠ v + n ∨ (r' ≠ r ∧ r' ≠ d) →
        (a.clone r d v (n + 1)).leaf r' k = (a.clone r d v n).leaf r' k :=
      fun r' k h => Maps.clonePage_leaf_of_ne _ h
    refine ⟨by simp, fun k hk hv => ?_, fun r' k hk => ?_,
      ih.kept.trans (Maps.kept_clonePage _ _ _ _)⟩
    · by_cases hkn : k = v + n
      · subst hkn
        rw [Maps.clone, Maps.clonePage, hsrc, if_pos hv]
        refine ⟨?_, ?_⟩
        · rw [Maps.incref_leaf, Maps.setLeaf_leaf_of_ne _ _ fun h => hne h.1,
            Maps.setLeaf_leaf_self]
        · rw [Maps.incref_leaf, Maps.setLeaf_leaf_self]
      · rw [hother r k (Or.inl hkn), hother d k (Or.inl hkn)]
        exact ih.copied k (by omega) hv
    · by_cases hkn : k = v + n
      · subst hkn
        by_cases hv : Valid (a.leaf r (v + n))
        · have hr' : r' ≠ r ∧ r' ≠ d := by
            rw [← not_or]
            exact fun h => hk ⟨by omega, hv, h⟩
          rw [hother r' _ (Or.inr hr')]
          exact ih.same _ _ fun h => absurd h.1 (by omega)
        · rw [Maps.clone, Maps.clonePage, hsrc, if_neg hv]
          exact ih.same _ _ fun h => absurd h.1 (by omega)
      · rw [hother r' k (Or.inl hkn)]
        exact ih.same _ _ fun h => hk ⟨by omega, h.2⟩

/-- More pages are cloned. -/
theorem Cloned.append {r d : ℕ} {P Q : ℕ → Prop} {a b c : Maps} (h : Cloned r d P a b)
    (h' : Cloned r d Q b c) (hdisj : ∀ k, Q k → ¬ P k) : Cloned r d (fun k => P k ∨ Q k) a c := by
  have hsrc : ∀ k, Q k → b.leaf r k = a.leaf r k := fun k hk =>
    h.same r k fun hx => hdisj k hk hx.1
  refine ⟨h'.root.trans h.root, fun k hk hv => ?_, fun r' k hk => ?_, h.kept.trans h'.kept⟩
  · rcases hk with hp | hq
    · have hnot : ∀ r', c.leaf r' k = b.leaf r' k := fun r' =>
        h'.same r' k fun hx => hdisj k hx.1 hp
      rw [hnot, hnot]
      exact h.copied k hp hv
    · have := h'.copied k hq (by rwa [hsrc k hq])
      rwa [hsrc k hq] at this
  · rw [h'.same r' k, h.same r' k fun hx => hk ⟨Or.inl hx.1, hx.2⟩]
    rintro ⟨hq, hv, hr⟩
    rw [hsrc k hq] at hv
    exact hk ⟨Or.inr hq, hv, hr⟩

/-- An entry after cloning is the one before, or the copy of one. -/
theorem Cloned.leaf_cases {r d : ℕ} {P : ℕ → Prop} {a b : Maps} (h : Cloned r d P a b) (r' k : ℕ) :
    b.leaf r' k = a.leaf r' k ∨ (P k ∧ Valid (a.leaf r k) ∧ (r' = r ∨ r' = d) ∧
      b.leaf r' k = a.leaf r k &&& ~~~PTE_W) := by
  by_cases hc : P k ∧ Valid (a.leaf r k) ∧ (r' = r ∨ r' = d)
  · obtain ⟨hp, hva, hr⟩ := hc
    refine Or.inr ⟨hp, hva, hr, ?_⟩
    rcases hr with rfl | rfl
    · exact (h.copied k hp hva).1
    · exact (h.copied k hp hva).2
  · exact Or.inl (h.same r' k hc)

/-! ### User entries -/

/-- The entries of the address spaces in `L` have the user bit or can be read, so that an entry
without its write bit is still a leaf. -/
def Firm (L : UvmPtr → Prop) (s : Kernel) (a : Maps) : Prop :=
  ∀ u v, L u → Valid (a.leaf (s.root u) v) → a.leaf (s.root u) v &&& (PTE_U ||| PTE_R) ≠ 0

theorem pteFlags_ne_of_firm {w : U64} (h : w &&& (PTE_U ||| PTE_R) ≠ 0) : pteFlags w ≠ PTE_V := by
  intro he
  rw [← pteFlags_and (by decide), he] at h
  exact h (by decide)

theorem and_not_W_and (w : U64) {m : U64} (hm : ~~~PTE_W &&& m = m) :
    (w &&& ~~~PTE_W) &&& m = w &&& m := by
  rw [BitVec.and_assoc, hm]

section

variable [Layout] {L : UvmPtr → Prop} {ext : ℕ → ℕ∞} {own own' : ℕ → Owner} {s : Kernel} {a : Maps}
  {p c : UvmPtr}

omit [Layout] in
theorem Firm.cloned (hfirm : Firm L s a) (hp : L p) {P : ℕ → Prop} {b : Maps}
    (h : Cloned (s.root p) (s.root c) P a b) : Firm L s b := by
  intro u v hu hv
  rcases h.leaf_cases (s.root u) v with he | ⟨-, hva, -, he⟩
  · rw [he] at hv ⊢
    exact hfirm u v hu hv
  · rw [he, and_not_W_and _ (by decide)]
    exact hfirm p v hp hva

omit [Layout] in
/-- `Spaces` does not look at the heap pointers. -/
theorem Spaces.congr {t : Kernel} (h : Spaces L s a)
    (htable : ∀ u, (t.uvms u).pagetable = (s.uvms u).pagetable) (hslot : t.slot = s.slot)
    (hvmas : t.vmas = s.vmas) : Spaces L t a := by
  have hroot : t.root = s.root := funext fun u => by rw [Kernel.root, Kernel.root, htable]
  constructor
  · simpa only [htable, hroot] using h.table
  · simpa only [hroot] using h.table_inj
  · simpa only [hslot] using h.live
  · simpa only [hslot] using h.bound
  · simpa only [hslot, hvmas] using h.used
  · simpa only [hslot] using h.inj
  · simpa only [hslot, hvmas] using h.ok
  · simpa only [hslot, hvmas] using h.perm
  · simpa only [hslot, hvmas] using h.disjoint
  · simpa only [hslot, hvmas, hroot] using h.cover
  · simpa only [hroot] using h.leaf

/-- The pages of a vma of the parent are cloned to the child, which has the same vma. -/
theorem Good.cloned (h : Good L ext own s a) (hfirm : Firm L s a) (hp : L p) (hc : L c)
    (hne : p ≠ c) {i j i' k : ℕ} (hj : s.slot p i = some j) (hk : s.slot c i' = some k)
    (hjk : s.vmas k = s.vmas j) (hempty : ∀ v, (s.vmas k).Pages v → ¬ Valid (a.leaf (s.root c) v))
    {phys : Phys} (fs : Fs) (hrep : Rep own' phys (a.clone (s.root p) (s.root c) (s.vmas j).first
      ((s.vmas j).past - (s.vmas j).first))) :
    Good L ext own' (s.io phys fs) (a.clone (s.root p) (s.root c) (s.vmas j).first
      ((s.vmas j).past - (s.vmas j).first)) := by
  have hok := h.spaces.ok p i j hj
  have hroot : s.root p ≠ s.root c := fun he => hne (h.spaces.table_inj p c hp hc he)
  have hfl := hok.first_lt
  have hpast := hok.past_le
  have hcl := a.cloned hroot (s.vmas j).first ((s.vmas j).past - (s.vmas j).first)
  have hPages : ∀ v, ((s.vmas j).first ≤ v ∧ v < (s.vmas j).first +
      ((s.vmas j).past - (s.vmas j).first)) → (s.vmas j).Pages v := fun v hv => ⟨hv.1, by omega⟩
  have hfirm' := hfirm.cloned hp hcl
  refine ⟨hrep, ?_, ?_⟩
  · refine (h.spaces.setMaps (fun u hu => ?_) (fun u v hu hv => ?_)
      fun u v hu hv => ?_).frame rfl rfl
    · rw [hcl.root]
      exact (h.spaces.table u hu).2
    · rcases hcl.leaf_cases (s.root u) v with he | ⟨hin, hva, hr, -⟩
      · exact Or.inl (he ▸ hv)
      · rcases hr with hr | hr
        · exact Or.inl (hr ▸ hva)
        · obtain rfl := h.spaces.table_inj u c hu hc hr
          exact Or.inr ⟨i', k, hk, hjk ▸ hPages v hin⟩
    · exact pteFlags_ne_of_firm (hfirm' u v hu hv)
  · refine h.counted.clone (fun v _ hv => ?_) (fun v _ hv => ?_) hroot fun v h1 h2 => ?_
    · exact show v < vTrapframe by omega
    · exact show v < vTrapframe by omega
    · exact hempty v (hjk ▸ hPages v ⟨h1, h2⟩)

end

/-! ### The arrays -/

/-- The first `n` vmas of `p` have been copied to `c`. -/
structure Dups (p c : UvmPtr) (n : ℕ) (s t : Kernel) : Prop where
  uvms : ∀ u, u ≠ c → t.uvms u = s.uvms u
  table : (t.uvms c).pagetable = (s.uvms c).pagetable
  vmas : ∀ u i j, s.slot u i = some j → t.vmas j = s.vmas j
  copies : ∀ i < n, ∀ j, s.slot p i = some j → ∃ k, t.slot c i = some k ∧ t.vmas k = s.vmas j ∧
    ((s.uvms p).heap = some j → (t.uvms c).heap = some k)
  empty : ∀ i, n ≤ i ∨ s.slot p i = none → t.slot c i = none

/-- The pages of the first `n` vmas of `p`. -/
def Kernel.pagesUpTo (s : Kernel) (p : UvmPtr) (n v : ℕ) : Prop :=
  ∃ i < n, ∃ j, s.slot p i = some j ∧ (s.vmas j).Pages v

theorem Kernel.pagesUpTo_succ (s : Kernel) (p : UvmPtr) (n v : ℕ) :
    s.pagesUpTo p (n + 1) v ↔ s.pagesUpTo p n v ∨ ∃ j, s.slot p n = some j ∧
      (s.vmas j).Pages v := by
  constructor
  · rintro ⟨i, hi, j, hj, hv⟩
    rcases Nat.lt_succ_iff_lt_or_eq.1 hi with hlt | rfl
    · exact Or.inl ⟨i, hlt, j, hj, hv⟩
    · exact Or.inr ⟨j, hj, hv⟩
  · rintro (⟨i, hi, j, hj, hv⟩ | ⟨j, hj, hv⟩)
    · exact ⟨i, by omega, j, hj, hv⟩
    · exact ⟨n, by omega, j, hj, hv⟩

namespace Dups

variable {L : UvmPtr → Prop} {s t : Kernel} {a : Maps} {p c : UvmPtr} {n : ℕ}

theorem root (h : Dups p c n s t) : t.root = s.root := by
  funext u
  rw [Kernel.root, Kernel.root]
  by_cases hu : u = c
  · rw [hu, h.table]
  · rw [h.uvms u hu]

theorem slot (h : Dups p c n s t) {u : UvmPtr} (hu : u ≠ c) : t.slot u = s.slot u := by
  funext i
  rw [Kernel.slot, Kernel.slot, h.uvms u hu]

theorem start (s : Kernel) (p : UvmPtr) (hc : ∀ i, s.slot c i = none) : Dups p c 0 s s :=
  ⟨fun _ _ => rfl, rfl, fun _ _ _ _ => rfl, fun i hi => absurd hi (by omega), fun i _ => hc i⟩

/-- An empty entry of the array is skipped. -/
theorem skip (h : Dups p c n s t) (hn : s.slot p n = none) : Dups p c (n + 1) s t := by
  refine ⟨h.uvms, h.table, h.vmas, fun i hi j hj => ?_, fun i hi => h.empty i ?_⟩
  · refine h.copies i ?_ j hj
    rcases Nat.lt_succ_iff_lt_or_eq.1 hi with hlt | rfl
    · exact hlt
    · rw [hn] at hj
      cases hj
  · rcases hi with hi | hi
    · exact Or.inl (by omega)
    · exact Or.inr hi

/-- A record `k` that is in no array takes the contents of `vmas[j]` and joins `c`. -/
theorem push (h : Dups p c n s t) (hsp : Spaces L s a) {j k : ℕ} (hj : s.slot p n = some j)
    (hks : ∀ u i, s.slot u i ≠ some k) (hkt : ∀ u i, t.slot u i ≠ some k) {x : Kernel}
    (hvmas : x.vmas = Function.update t.vmas k (s.vmas j))
    (huvms : ∀ u, u ≠ c → x.uvms u = t.uvms u)
    (htable : (x.uvms c).pagetable = (t.uvms c).pagetable)
    (hslot : ∀ i, x.slot c i = Function.update (t.slot c) n (some k) i)
    (hheap : (x.uvms c).heap = if (s.uvms p).heap = some j then some k else (t.uvms c).heap) :
    Dups p c (n + 1) s x := by
  refine ⟨fun u hu => (huvms u hu).trans (h.uvms u hu), htable.trans h.table, fun u i j' hs => ?_,
    fun i hi j' hj' => ?_, fun i hi => ?_⟩
  · rw [hvmas, Function.update_of_ne (show j' ≠ k from fun he => hks u i (he ▸ hs))]
    exact h.vmas u i j' hs
  · by_cases hin : i = n
    · subst hin
      obtain rfl : j' = j := Option.some.inj (hj'.symm.trans hj)
      refine ⟨k, ?_, ?_, fun hh => ?_⟩
      · rw [hslot, Function.update_self]
      · rw [hvmas, Function.update_self]
      · rw [hheap, if_pos hh]
    · obtain ⟨k', hk', hv', hh'⟩ := h.copies i (by omega) j' hj'
      refine ⟨k', ?_, ?_, fun hh => ?_⟩
      · rw [hslot, Function.update_of_ne hin, hk']
      · rw [hvmas, Function.update_of_ne (show k' ≠ k from fun he => hkt c i (he ▸ hk')), hv']
      · rw [hheap, if_neg, hh' hh]
        intro he
        obtain rfl : j' = j := Option.some.inj (hh.symm.trans he)
        exact hin (hsp.inj p i p n j' hj' hj).2
  · have hin : i ≠ n := by
      rintro rfl
      rcases hi with hi | hi
      · omega
      · rw [hj] at hi
        cases hi
    rw [hslot, Function.update_of_ne hin]
    exact h.empty i (hi.imp_left fun _ => by omega)

end Dups

section

variable [Layout] {L : UvmPtr → Prop} {ext : ℕ → ℕ∞} {own : ℕ → Owner} {s : Kernel} {a : Maps}
  {p c : UvmPtr}

/-- The state of the loop of `uvm_dup` before round `n`. -/
structure Dupping (L : UvmPtr → Prop) (ext : ℕ → ℕ∞) (p c : UvmPtr) (s : Kernel) (a : Maps) (n : ℕ)
    (t : Kernel) (own : ℕ → Owner) (b : Maps) : Prop where
  good : Good L ext own t b
  firm : Firm L t b
  dups : Dups p c n s t
  cloned : Cloned (s.root p) (s.root c) (s.pagesUpTo p n) a b

namespace Dupping

variable {n : ℕ} {t : Kernel} {b : Maps} {j k : ℕ}

/-- The copy of the next vma joins the child. -/
theorem join (ht : Dupping L ext p c s a n t own b) (h : Spaces L s a) (hc : L c)
    (hn : n < VMA_SIZE) (hj : s.slot p n = some j) (hkt : ∀ u i, t.slot u i ≠ some k) (fs : Fs) :
    Good L ext own (((t.io t.phys fs).setVma k (s.vmas j)).setSlot c n (some k)) b := by
  have hvk : ((t.io t.phys fs).setVma k (s.vmas j)).vmas k = s.vmas j := Kernel.setVma_vmas_self
  have hsp := (ht.good.spaces.frame (t := t.io t.phys fs) rfl rfl).setVma_unused hkt (s.vmas j)
  refine ⟨ht.good.rep, hsp.setSlot hc hn (ht.dups.empty n (Or.inl le_rfl)) hkt ?_ ?_ ?_ ?_,
    ht.good.counted⟩
  · rw [hvk]
    exact h.used p n j hj
  · rw [hvk]
    exact h.ok p n j hj
  · rw [hvk]
    exact h.perm p n j hj
  · -- the other vmas of the child are copies of other vmas of the parent
    intro i' j' hs' v hv hv'
    rw [hvk] at hv
    rw [Kernel.setVma_vmas_of_ne (show j' ≠ k from fun he => hkt c i' (he ▸ hs'))] at hv'
    by_cases hi : n ≤ i' ∨ s.slot p i' = none
    · exact nomatch (ht.dups.empty i' hi).symm.trans hs'
    rw [not_or, Nat.not_le] at hi
    obtain ⟨j₀, hj₀⟩ := Option.ne_none_iff_exists'.1 hi.2
    obtain ⟨k', hk', hvk', -⟩ := ht.dups.copies i' hi.1 j₀ hj₀
    obtain rfl : k' = j' := Option.some.inj (hk'.symm.trans hs')
    rw [Kernel.io_vmas, hvk'] at hv'
    exact h.disjoint p n i' j j₀ hj hj₀ (by omega) v hv hv'

/-- The child has no entries for the next vma yet. -/
theorem no_entry (ht : Dupping L ext p c s a n t own b) (h : Spaces L s a) (hc : L c)
    (hj : s.slot p n = some j) {v : ℕ} (hv : (s.vmas j).Pages v) :
    ¬ Valid (b.leaf (t.root c) v) := by
  intro hval
  have hlt := (h.ok p n j hj).past_le
  rcases ht.good.spaces.cover c v hc hval with rfl | rfl | ⟨i', k', hk', hp'⟩
  · exact absurd hv.2 (by omega)
  · have hnext : vTrampoline = vTrapframe + 1 := rfl
    exact absurd hv.2 (by omega)
  by_cases hi : n ≤ i' ∨ s.slot p i' = none
  · exact nomatch (ht.dups.empty i' hi).symm.trans hk'
  rw [not_or, Nat.not_le] at hi
  obtain ⟨j₀, hj₀⟩ := Option.ne_none_iff_exists'.1 hi.2
  obtain ⟨k₀, hk₀, hvk, -⟩ := ht.dups.copies i' hi.1 j₀ hj₀
  obtain rfl : k₀ = k' := Option.some.inj (hk₀.symm.trans hk')
  rw [hvk] at hp'
  exact h.disjoint p n i' j j₀ hj hj₀ (by omega) v hv hp'

end Dupping

/-- The entries of the next vma have been cloned. -/
theorem Dupping.advance {n : ℕ} {t y : Kernel} {b b' : Maps} {own' : ℕ → Owner} {j : ℕ}
    (ht : Dupping L ext p c s a n t own b) (h : Spaces L s a) (hj : s.slot p n = some j)
    (hgood : Good L ext own' y b') (hfirm : Firm L y b') (hdups : Dups p c (n + 1) s y)
    (hcl : Cloned (s.root p) (s.root c) (fun v => (s.vmas j).first ≤ v ∧
      v < (s.vmas j).first + ((s.vmas j).past - (s.vmas j).first)) b b') :
    Dupping L ext p c s a (n + 1) y own' b' := by
  have hrange : (s.vmas j).first + ((s.vmas j).past - (s.vmas j).first) = (s.vmas j).past := by
    have := (h.ok p n j hj).first_lt
    omega
  rw [hrange] at hcl
  refine ⟨hgood, hfirm, hdups, (ht.cloned.append hcl fun v hv hin => ?_).congr fun v => ?_⟩
  · obtain ⟨i, hi, j', hj', hv'⟩ := hin
    exact h.disjoint p n i j j' hj hj' (by omega) v hv hv'
  · rw [Kernel.pagesUpTo_succ, hj]
    simp [Vma.Pages]

/-- One round of the loop. -/
theorem uvmDupSlot_spec (h : Spaces L s a) (hp : L p) (hc : L c) (hpc : p ≠ c)
    (hempty : ∀ i, s.slot c i = none) {n : ℕ} (hn : n < VMA_SIZE) {t : Kernel} {b : Maps}
    (ht : Dupping L ext p c s a n t own b) :
    wp (uvmDupSlot p c n) (fun _ => True) (fun ok x => ok = true →
      ∃ own' b', Dupping L ext p c s a (n + 1) x own' b') t := by
  have hslot := ht.dups.slot hpc
  have hroot := ht.dups.root
  rw [uvmDupSlot, wp_bind, wp_get]
  rcases hj : s.slot p n with _ | j
  · have hj' : (t.uvms p).vma n = none := (congrFun hslot n).trans hj
    rw [hj']
    intro _
    refine ⟨own, b, ht.good, ht.firm, ht.dups.skip hj, ht.cloned.congr fun v => ?_⟩
    rw [Kernel.pagesUpTo_succ, hj]
    simp
  have hj' : (t.uvms p).vma n = some j := (congrFun hslot n).trans hj
  have hvj := ht.dups.vmas p n j hj
  have hok := h.ok p n j hj
  rw [hj']
  simp only [vmadup, wp_bind, wp_get]
  rcases hk : freeVma t with _ | k
  · simp only [wp_pure, wp_modify]
    exact (absurd · Bool.false_ne_true)
  -- the record `k` becomes a copy of `j` and the entry `n` of the child
  have hkt := ht.good.spaces.not_slot (freeVma_some hk)
  have hks : ∀ u i, s.slot u i ≠ some k := by
    intro u i hs
    by_cases hu : u = c
    · rw [hu, hempty] at hs
      cases hs
    · rw [← ht.dups.slot hu] at hs
      exact hkt u i hs
  have hused : ({ t.vmas j with used := true } : Vma) = s.vmas j := by
    rw [hvj]
    have := h.used p n j hj
    cases hv : s.vmas j
    rw [hv] at this
    cases this
    rfl
  simp only [wp_bind, wp_liftF, wp_idupOpt, wp_modify, wp_pure, wp_get, wp_liftP, wp_ite,
    Kernel.io_vmas, hused]
  generalize hx : ((t.io t.phys (t.fs.addRef (t.vmas j).inode)).setVma k (s.vmas j)).setSlot c n
    (some k) = x
  have hgx := ht.join h hc hn hj hkt (t.fs.addRef (t.vmas j).inode)
  rw [hx] at hgx
  have hxk : x.vmas k = s.vmas j := by rw [← hx, Kernel.setSlot_vmas, Kernel.setVma_vmas_self]
  have hxj : x.vmas j = s.vmas j := by
    rw [← hx, Kernel.setSlot_vmas,
      Kernel.setVma_vmas_of_ne (show j ≠ k from fun he => hks p n (he ▸ hj))]
    exact hvj
  have hxroot : x.root = s.root := by rw [← hx, Kernel.setSlot_root, ← hroot]; rfl
  have hxp : x.slot p n = some j := by
    rw [← hx, Kernel.setSlot_slot_of_ne fun he => hpc he.1]
    exact (congrFun hslot n).trans hj
  have hxc : x.slot c n = some k := by rw [← hx, Kernel.setSlot_slot_self]
  have hfx : Firm L x b := by
    intro u v hu
    rw [hxroot, ← hroot]
    exact ht.firm u v hu
  obtain ⟨htp, hrp⟩ := hgx.spaces.table p hp
  obtain ⟨htc, hrc⟩ := hgx.spaces.table c hc
  have hrne : x.root p ≠ x.root c := fun he => hpc (hgx.spaces.table_inj p c hp hc he)
  have hfirst : vpn (pgRoundDown (x.vmas j).start) = (s.vmas j).first := by
    rw [hxj, Vma.vpn_start]
  have hpast : vpn (pgRoundUp (x.vmas j).stop) = (s.vmas j).past := by rw [hxj, hok.vpn_stop]
  have hle := hok.past_le
  have hno : ∀ v, (s.vmas j).Pages v → ¬ Valid (b.leaf (x.root c) v) := by
    intro v hv
    rw [hxroot, ← hroot]
    exact ht.no_entry h hc hj hv
  have hcount : ∀ m ≤ (s.vmas j).past - (s.vmas j).first,
      Counted (b.clone (x.root p) (x.root c) (s.vmas j).first m) userPlaces ext := by
    intro m hm
    refine hgx.counted.clone (fun v _ hv => ?_) (fun v _ hv => ?_) hrne fun v h1 h2 => ?_
    · exact show v < vTrapframe by omega
    · exact show v < vTrapframe by omega
    · exact hno v ⟨h1, by omega⟩
  rw [htp, htc]
  refine (pgtClone_spec hgx.rep hrp hrc (fun _ => trivial) ?_ (fun _ _ _ _ _ _ _ => trivial)
    ?_).mono fun ok phys hcl => ?_
  · intro v h1 h2 hv
    rw [hfirst] at h1
    rw [hpast] at h2
    exact Or.inl (hgx.counted.page_of_valid (show v < vTrapframe by omega) hv)
  · -- what `err:` takes back is there
    rw [hfirst, hpast]
    intro m hm i hi hv
    have hc' := (hcount m (by omega)).unmap (r := x.root c) (v := (s.vmas j).first) (n := i)
      fun v _ hv => show v < vTrapframe by omega
    have hsame : ((b.clone (x.root p) (x.root c) (s.vmas j).first m).unmap (x.root c)
        (s.vmas j).first true i).leaf (x.root c) ((s.vmas j).first + i) =
          (b.clone (x.root p) (x.root c) (s.vmas j).first m).leaf (x.root c)
          ((s.vmas j).first + i) :=
      Maps.unmap_leaf_of_notMem _ true (by omega)
    have hpage := hc'.page_of_valid (r := x.root c) (v := (s.vmas j).first + i)
      (show _ < vTrapframe by omega) (by rwa [hsame])
    rw [hsame] at hpage
    exact Or.inl hpage
  · cases ok with
    | false => exact (wp_true _ _).mono fun _ _ _ => (absurd · Bool.false_ne_true)
    | true =>
      obtain ⟨own', -, hrep⟩ := hcl
      rw [if_pos rfl, hfirst, hpast] at hrep
      have hg := hgx.cloned hfx hp hc hpc hxp hxc (hxk.trans hxj.symm)
        (fun v hv => hno v (hxk ▸ hv)) x.fs (hxj.symm ▸ hrep)
      rw [hxj] at hg
      have hcl := b.cloned hrne (s.vmas j).first ((s.vmas j).past - (s.vmas j).first)
      have hfirm := hfx.cloned hp hcl
      generalize b.clone (x.root p) (x.root c) (s.vmas j).first
        ((s.vmas j).past - (s.vmas j).first) = b' at hg hcl hfirm
      rw [hxroot] at hcl
      have hdups : ∀ y : Kernel, y.vmas = x.vmas → (∀ u, u ≠ c → y.uvms u = x.uvms u) →
          (y.uvms c).pagetable = (x.uvms c).pagetable → y.slot c = x.slot c →
          (y.uvms c).heap = (if (s.uvms p).heap = some j then some k else (t.uvms c).heap) →
          Dups p c (n + 1) s y := by
        intro y hyv hyu hyt hys hyh
        refine ht.dups.push h hj hks hkt ?_ (fun u hu => ?_) ?_ (fun i => ?_) hyh
        · rw [hyv, ← hx]
          rfl
        · rw [hyu u hu, ← hx]
          exact Kernel.setUvm_of_ne hu
        · rw [hyt, ← hx, Kernel.setSlot_pagetable]
          rfl
        · rw [hys, ← hx]
          by_cases hi : i = n
          · rw [hi, Kernel.setSlot_slot_self, Function.update_self]
          · rw [Kernel.setSlot_slot_of_ne fun he => hi he.2, Function.update_of_ne hi]
            rfl
      have hpheap : (x.uvms p).heap = (s.uvms p).heap := by
        rw [← ht.dups.uvms p hpc, ← hx, Kernel.setSlot, Kernel.setUvm_of_ne hpc]
        rfl
      rw [if_pos rfl, hpheap]
      -- only the heap pointer of the child is left
      by_cases hh : (s.uvms p).heap = some j
      · rw [if_pos hh]
        intro _
        have hslot' : ∀ u i, ((x.io phys x.fs).setUvm c { (x.io phys x.fs).uvms c with
            heap := some k }).slot u i = x.slot u i := by
          intro u i
          rw [Kernel.slot]
          by_cases hu : u = c
          · rw [hu, Kernel.setUvm_self]
            rfl
          · rw [Kernel.setUvm_of_ne hu]
            rfl
        have htable : ∀ u, (((x.io phys x.fs).setUvm c { (x.io phys x.fs).uvms c with
            heap := some k }).uvms u).pagetable = (x.uvms u).pagetable := by
          intro u
          by_cases hu : u = c
          · rw [hu, Kernel.setUvm_self]
            rfl
          · rw [Kernel.setUvm_of_ne hu]
            rfl
        refine ⟨own', b', ht.advance h hj ⟨hg.rep, ?_, hg.counted⟩ ?_ ?_ hcl⟩
        · exact hg.spaces.congr htable (funext fun u => funext fun i => hslot' u i) rfl
        · intro u v hu
          rw [Kernel.root, htable]
          exact hfirm u v hu
        · refine hdups _ rfl (fun u hu => Kernel.setUvm_of_ne hu) (htable c)
            (funext fun i => hslot' c i) ?_
          rw [Kernel.setUvm_self, if_pos hh]
      · rw [if_neg hh]
        intro _
        refine ⟨own', b', ht.advance h hj hg hfirm (hdups _ rfl (fun _ _ => rfl) rfl rfl ?_) hcl⟩
        rw [if_neg hh, Kernel.io_uvms, ← hx, Kernel.setSlot, Kernel.setUvm_self]
        rfl

/-- **A successful `uvm_dup`** keeps the invariant: the child gets a copy of every vma of the parent
and of every entry. -/
theorem uvmDup_good (h : Good L ext own s a) (hfirm : Firm L s a) (hp : L p) (hc : L c)
    (hpc : p ≠ c) (hempty : ∀ i, s.slot c i = none) :
    wp (uvmDup p c) (fun _ => True) (fun ok t => ok = true →
      ∃ own' b, Dupping L ext p c s a VMA_SIZE t own' b) s := by
  rw [uvmDup, wp_bind]
  have h0 : Dupping L ext p c s a 0 s own a := by
    refine ⟨h, hfirm, .start s p hempty, (Cloned.refl _ _ a).congr fun v => ?_⟩
    simp [Kernel.pagesUpTo]
  refine (wp_loopWhile (fun n t => ∃ own' b, Dupping L ext p c s a n t own' b) (fun _ _ => True)
    ⟨own, a, h0⟩ ?_).mono fun r t ht => ?_
  · rintro n t - hn ⟨own', b, ht⟩
    rw [Nat.zero_add] at hn
    refine (uvmDupSlot_spec h.spaces hp hc hpc hempty hn ht).mono fun ok x hx => ?_
    cases ok with
    | false => trivial
    | true => exact hx rfl
  · cases r with
    | none =>
      rw [Nat.zero_add] at ht
      exact fun _ => ht
    | some i =>
      rw [wp_bind]
      exact (wp_true _ _).mono fun _ _ _ => (absurd · Bool.false_ne_true)

end

end Xv6
