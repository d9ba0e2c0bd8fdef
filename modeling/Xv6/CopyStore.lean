import Xv6.CopyView
import Xv6.TwinMemory

/-!
# What `copyout` leaves in memory

`Kernel.byteAt s u va` is the byte that the entry of the page of `va` leads to.  A page fault moves
pages and write bits but no bytes (`Completes.contents`), and a store changes the bytes it stores
only, because no two pages of an address space share a frame.  So `copyout` puts its bytes where it
says and leaves the other bytes of the address space alone (`OwnPages.copyoutPart`).
-/

namespace Xv6

open Bytes Wp

/-! ### Contents of pages -/

/-- The contents of page `v` of table `r`. -/
def Maps.contents (a : Maps) (r v : ℕ) : Option (ℕ → Byte) :=
  if Valid (a.leaf r v) then (a.page (pteFrame (a.leaf r v))).map Page.data else none

theorem Maps.contents_eq_some {a : Maps} {r v : ℕ} {d : ℕ → Byte} : a.contents r v = some d ↔
    Valid (a.leaf r v) ∧ ∃ p, a.page (pteFrame (a.leaf r v)) = some p ∧ p.data = d := by
  rw [Maps.contents]
  split_ifs with hv
  · rw [Option.map_eq_some_iff, and_iff_right hv]
  · exact iff_of_false (by simp) fun h => hv h.1

theorem Maps.contents_congr {a b : Maps} {r v : ℕ} (hleaf : b.leaf r v = a.leaf r v)
    (hpage : b.page (pteFrame (a.leaf r v)) = a.page (pteFrame (a.leaf r v))) :
    b.contents r v = a.contents r v := by
  rw [Maps.contents, Maps.contents, hleaf, hpage]

section

variable [Layout]

/-- A page fault keeps the contents of every page that is there. -/
theorem Completes.contents {a a' : Maps} {r v : ℕ} {perm ret : U64} {fill : (ℕ → Byte) → Prop}
    (h : Completes a r v perm fill ret a') {r' v' : ℕ} {d : ℕ → Byte}
    (hd : a.contents r' v' = some d) : a'.contents r' v' = some d := by
  obtain ⟨hval, p', hp', hpd⟩ := Maps.contents_eq_some.1 hd
  cases h with
  | refused => exact hd
  | @fresh g e hinv hg hpage hfill =>
    have hne : ¬ (r' = r ∧ v' = v) := by
      rintro ⟨rfl, rfl⟩
      exact hinv hval
    have hfg : pteFrame (a.leaf r' v') ≠ g := by
      intro he
      rw [he, hpage] at hp'
      cases hp'
    refine (Maps.contents_congr (a := a) ?_ ?_).trans hd
    · exact Maps.setLeaf_leaf_of_ne _ _ hne
    · rw [Maps.setLeaf_page, Maps.setPage_page_of_ne _ _ hfg]
  | @single p hv hu hp h1 =>
    refine Maps.contents_eq_some.2 ?_
    by_cases he : r' = r ∧ v' = v
    · obtain ⟨rfl, rfl⟩ := he
      rw [Maps.setLeaf_leaf_self]
      have hframe : pteFrame (a.leaf r' v' ||| PTE_W) = pteFrame (a.leaf r' v') := by
        rw [pteFrame, pteFrame, pte2pa_or_flags _ (by decide)]
      rw [hframe]
      exact ⟨or_and_ne_left hval _, p', hp', hpd⟩
    · rw [Maps.setLeaf_leaf_of_ne _ _ he]
      exact ⟨hval, p', hp', hpd⟩
  | @copied p g hv hu hp h1 hg hpage =>
    refine Maps.contents_eq_some.2 ?_
    have hfg : ∀ {f q}, a.page f = some q → f ≠ g := by
      rintro f q hq rfl
      rw [hpage] at hq
      cases hq
    -- the old page keeps its contents for the others that share it
    have hpages : ∀ f q, a.page f = some q →
        ∃ q', (((a.setPage g (some ⟨1, p.data⟩)).setLeaf r v
          (pa2pte (pageAddr g) ||| pteFlags (a.leaf r v) ||| PTE_W)).decref
            (pteFrame (a.leaf r v))).page f = some q' ∧ q'.data = q.data := by
      intro f q hq
      rw [Maps.decref, Maps.setLeaf_page, Maps.setPage_page_of_ne _ _ (hfg hp), hp]
      dsimp only
      by_cases hf : f = pteFrame (a.leaf r v)
      · rw [hf, Maps.setPage_page_self, if_neg h1]
        have hpq : p = q := Option.some.inj (hp.symm.trans (hf ▸ hq))
        exact ⟨_, rfl, hpq ▸ rfl⟩
      · rw [Maps.setPage_page_of_ne _ _ hf, Maps.setLeaf_page, Maps.setPage_page_of_ne _ _ (hfg hq)]
        exact ⟨q, hq, rfl⟩
    rw [Maps.decref_leaf]
    by_cases he : r' = r ∧ v' = v
    · obtain ⟨rfl, rfl⟩ := he
      rw [Maps.setLeaf_leaf_self]
      have hframe : pteFrame (pa2pte (pageAddr g) ||| pteFlags (a.leaf r' v') ||| PTE_W) = g := by
        refine pteFrame_of_pte2pa (by have := hg.lt; omega) ?_
        rw [BitVec.or_assoc]
        exact pte2pa_pa2pte_or (by have := hg.lt; omega) ((isFlags_pteFlags _).or (by decide))
      rw [hframe]
      refine ⟨?_, ⟨1, p.data⟩, ?_, ?_⟩
      · refine or_and_ne_left (or_and_ne_right _ ?_) _
        rwa [pteFlags_and (by decide)]
      · rw [Maps.decref, Maps.setLeaf_page, Maps.setPage_page_of_ne _ _ (hfg hp), hp]
        dsimp only
        rw [Maps.setPage_page_of_ne _ _ (hfg hp).symm, Maps.setLeaf_page, Maps.setPage_page_self]
      · rw [hp] at hp'
        rw [← hpd, Option.some.inj hp']
    · rw [Maps.setLeaf_leaf_of_ne _ _ he, Maps.setPage_leaf]
      obtain ⟨q', hq', hqd⟩ := hpages _ _ hp'
      exact ⟨hval, q', hq', hqd.trans hpd⟩

end

/-! ### Bytes of an address space -/

/-- The byte that the entry of the page of `va` leads to. -/
def Kernel.byteAt (s : Kernel) (u : UvmPtr) (va : U64) : Option Byte :=
  match entryAt (s.uvms u).pagetable (pgRoundDown va) s.phys with
  | .error _ => none
  | .ok (w, _) =>
    if w &&& PTE_V = 0 then none else some (s.phys.mem (pteFrame w) (va.toNat % 4096))

section

variable [Layout]

/-- An address space whose bytes are its own: a store goes to a page of it, and no two of its pages
below the trampoline share a frame. -/
structure OwnPages (L : UvmPtr → Prop) (ext : ℕ → ℕ∞) (own : ℕ → Owner) (s : Kernel) (a : Maps)
    (u : UvmPtr) : Prop extends StorePages L ext own s a u where
  apart : ∀ v v', v < vTrampoline → v' < vTrampoline → Valid (a.leaf (s.root u) v) →
    Valid (a.leaf (s.root u) v') → pteFrame (a.leaf (s.root u) v) =
      pteFrame (a.leaf (s.root u) v') → v = v'

variable {L : UvmPtr → Prop} {ext : ℕ → ℕ∞} {own : ℕ → Owner} {s t : Kernel} {a : Maps} {u : UvmPtr}

namespace OwnPages

/-- The bytes are the contents of the pages. -/
theorem byteAt_eq (h : OwnPages L ext own s a u) {va : U64} (hlt : vpn va < vTrampoline) :
    s.byteAt u va = (a.contents (s.root u) (vpn va)).map (· (va.toNat % 4096)) := by
  obtain ⟨hpt, hr⟩ := h.spaces.table u h.live
  have hva : va < MAXVA := by
    have hM : MAXVA.toNat = (vTrampoline + 1) * 4096 := by decide
    rw [BitVec.lt_def, hM]
    unfold vpn at hlt
    omega
  have hentry := h.rep.entryAt_eq hr (pgRoundDown_lt_MAXVA.2 hva)
  rw [vpn_pgRoundDown] at hentry
  rw [Kernel.byteAt, hpt, hentry]
  dsimp only
  by_cases hv : Valid (a.leaf (s.root u) (vpn va))
  · obtain ⟨p, hp⟩ := h.page_of_valid hlt hv
    rw [if_neg hv, Maps.contents, if_pos hv, hp, (h.rep.alloc.page_iff.1 hp).2.2]
    rfl
  · rw [if_pos (not_not.1 hv), Maps.contents, if_neg hv]
    rfl

/-- A page fault keeps the bytes. -/
theorem complete (h : OwnPages L ext own s a u) {va ret : U64} {j : ℕ}
    (hj : uvmVa2vma s u va = some j) {own' : ℕ → Owner} {a' : Maps} {phys : Phys} (fs : Fs)
    (hrep : Rep own' phys a') {fill : (ℕ → Byte) → Prop}
    (hc : Completes a (s.root u) (vpn va) ((s.vmas j).perm.setWidth 64) fill ret a') :
    OwnPages L ext own' (s.io phys fs) a' u ∧
      ∀ v d, a.contents (s.root u) v = some d → a'.contents (s.root u) v = some d := by
  obtain ⟨i, hs, hhas⟩ := uvmVa2vma_some hj
  have hlow : vpn va < vTrapframe := vpn_lt_vTrapframe (h.spaces.ok u i j hs) hhas
  have htop := vTrampoline_eq
  have hflags := isFlags_setWidth (h.spaces.perm u i j hs)
  have hother : ∀ v, v ≠ vpn va → a'.leaf (s.root u) v = a.leaf (s.root u) v := by
    intro v hv
    exact hc.leaf_other fun he => hv he.2
  -- a page that comes in was not handed out before
  have hnew : ∀ v, v < vTrampoline → v ≠ vpn va → Valid (a.leaf (s.root u) v) →
      Valid (a'.leaf (s.root u) (vpn va)) →
      pteFrame (a'.leaf (s.root u) (vpn va)) ≠ pteFrame (a.leaf (s.root u) v) := by
    intro v hv hne hval hval' he
    obtain ⟨p, hp⟩ := h.page_of_valid hv hval
    rcases hc.frame_cases hflags with rfl | hnone | ⟨hv', hsame, -⟩
    · exact hne (h.apart v (vpn va) hv (by omega) hval hval' he.symm)
    · rw [he, hp] at hnone
      cases hnone
    · exact hne (h.apart v (vpn va) hv (by omega) hval hv' (he.symm.trans hsame))
  refine ⟨⟨h.toStorePages.complete hj fs hrep hc, ?_⟩, fun v d hd => hc.contents hd⟩
  intro v v' hv hv' hval hval' he
  change Valid (a'.leaf (s.root u) v) at hval
  change Valid (a'.leaf (s.root u) v') at hval'
  change pteFrame (a'.leaf (s.root u) v) = pteFrame (a'.leaf (s.root u) v') at he
  by_cases hvv : v = vpn va
  · subst hvv
    by_contra hne
    rw [hother v' (Ne.symm hne)] at hval' he
    exact hnew v' hv' (Ne.symm hne) hval' hval he
  · by_cases hvv' : v' = vpn va
    · subst hvv'
      rw [hother v hvv] at hval he
      exact absurd he.symm (hnew v hv hvv hval hval')
    · rw [hother v hvv] at hval he
      rw [hother v' hvv'] at hval' he
      exact h.apart v v' hv hv' hval hval' he

/-- A store into a page changes that page only. -/
theorem store (h : OwnPages L ext own s a u) {v : ℕ} (hlt : v < vTrampoline)
    (hv : Valid (a.leaf (s.root u) v)) {o : ℕ} (ho : o < 4096) (bs : List Byte) {E : Stop → Prop} :
    wp (liftM (writeBytes (BitVec.ofNat 64 (pteFrame (a.leaf (s.root u) v) * 4096 + o)) bs) :
      K Unit) E (fun _ t => ∃ phys a', t = s.io phys s.fs ∧ OwnPages L ext own t a' u ∧
        (∀ d, a.contents (s.root u) v = some d →
          a'.contents (s.root u) v = some (putBytes d o bs)) ∧
        ∀ v', v' < vTrampoline → v' ≠ v →
          a'.contents (s.root u) v' = a.contents (s.root u) v') s := by
  obtain ⟨p, hp⟩ := h.page_of_valid hlt hv
  rw [wp_liftP]
  refine (writeBytes_spec h.rep hp ho bs).mono fun _ phys hrep => ?_
  set f := pteFrame (a.leaf (s.root u) v) with hf
  set a' := a.setPage f (some { p with data := putBytes p.data o bs }) with ha'
  have hsp : Spaces L s a' := h.spaces.setMaps (b := a') (fun u hu => (h.spaces.table u hu).2)
    (fun _ _ _ hv => Or.inl hv) fun u v hu hv => h.spaces.leaf u v hu hv
  refine ⟨phys, a', rfl, ⟨⟨⟨hrep, hsp.frame rfl rfl, h.counted.setData hp _⟩, h.live, h.trapframe,
    h.trampoline⟩, h.apart⟩, fun d hd => ?_, fun v' hv' hne => ?_⟩
  · obtain ⟨-, p', hp', rfl⟩ := Maps.contents_eq_some.1 hd
    rw [← hf, hp] at hp'
    obtain rfl := Option.some.inj hp'
    exact Maps.contents_eq_some.2 ⟨hv, _, Maps.setPage_page_self .., rfl⟩
  · by_cases hval : Valid (a.leaf (s.root u) v')
    · refine Maps.contents_congr rfl (Maps.setPage_page_of_ne _ _ fun he => hne ?_)
      exact h.apart v' v hv' hlt hval hv he
    · exact (if_neg hval).trans (if_neg hval).symm

/-- The page that `copyout` gets. -/
theorem copyoutPage (h : OwnPages L ext own s a u) (va : U64) :
    wp (copyoutPage u va) (fun _ => True) (fun ret t => ∃ phys fs own' a', t = s.io phys fs ∧
      OwnPages L ext own' t a' u ∧
      (∀ v d, a.contents (s.root u) v = some d → a'.contents (s.root u) v = some d) ∧
      (ret ≠ 0 → vpn va < vTrampoline ∧ Valid (a'.leaf (s.root u) (vpn va)) ∧
        ret = pageAddr (pteFrame (a'.leaf (s.root u) (vpn va))))) s := by
  obtain ⟨hpt, hr⟩ := h.spaces.table u h.live
  have htop := vTrampoline_eq
  rw [Xv6.copyoutPage, wp_bind, wp_get, hpt]
  have hfault : wp (uvmCompletemap u va PTE_W) (fun _ => True) (fun ret t =>
      ∃ phys fs own' a', t = s.io phys fs ∧ OwnPages L ext own' t a' u ∧
      (∀ v d, a.contents (s.root u) v = some d → a'.contents (s.root u) v = some d) ∧
      (ret ≠ 0 → vpn va < vTrampoline ∧ Valid (a'.leaf (s.root u) (vpn va)) ∧
        ret = pageAddr (pteFrame (a'.leaf (s.root u) (vpn va))))) s := by
    have hlow : ∀ j, uvmVa2vma s u va = some j → vpn va < vTrapframe := fun j hj => by
      obtain ⟨i, hs, hhas⟩ := uvmVa2vma_some hj
      exact vpn_lt_vTrapframe (h.spaces.ok u i j hs) hhas
    refine (uvmCompletemap_spec h.rep hpt hr (fun j hj _ hv _ => ?_) (fun _ _ => trivial) trivial
      fun _ _ _ _ _ _ _ => trivial).mono ?_
    · exact h.page_of_valid (by have := hlow j hj; omega) hv
    rintro ret t (⟨rfl, rfl⟩ | ⟨j, phys, fs, own', a', -, -, hj, -, rfl, hrep, -, hc, -⟩)
    · exact ⟨t.phys, t.fs, own, a, rfl, h, fun _ _ hd => hd, fun h0 => absurd rfl h0⟩
    · obtain ⟨hown, hcont⟩ := h.complete hj fs hrep hc
      refine ⟨phys, fs, own', a', rfl, hown, hcont, fun h0 => ⟨by have := hlow j hj; omega, ?_⟩⟩
      obtain ⟨i, hs, -⟩ := uvmVa2vma_some hj
      rcases hc.leaf_cases
        (isFlags_setWidth (h.spaces.perm u i j hs)) with ⟨h0', -⟩ | ⟨hv, -, hpa, -⟩
      · exact absurd h0' h0
      · exact ⟨hv, by rw [← pte2pa_eq_pageAddr, hpa]⟩
  refine wp_entry h.rep hr (fun _ => trivial) (fun _ _ => hfault) fun hva => ?_
  rw [wp_ite]
  split_ifs with hc
  · exact hfault
  · rw [not_or] at hc
    refine ⟨s.phys, s.fs, own, a, rfl, h, fun _ _ hd => hd,
      fun _ => ⟨?_, hc.1, pte2pa_eq_pageAddr _⟩⟩
    -- the trampoline cannot be stored to
    have hM : MAXVA.toNat = (vTrampoline + 1) * 4096 := by decide
    rw [BitVec.lt_def, hM] at hva
    have hne : vpn va ≠ vTrampoline := fun he => hc.2 (he ▸ h.trampoline)
    unfold vpn at hne ⊢
    omega

end OwnPages

/-- From `s` to `t` the bytes `bs` come to stand from `dstva` on; the other bytes below the
trampoline stay. -/
structure Deposits (u : UvmPtr) (dstva : U64) (bs : List Byte) (s t : Kernel) : Prop where
  low : bs ≠ [] → dstva.toNat + bs.length ≤ vTrampoline * 4096
  here : ∀ i b, bs[i]? = some b → t.byteAt u (dstva + intOff i) = some b
  rest : ∀ x c, vpn x < vTrampoline → x.toNat < dstva.toNat ∨ dstva.toNat + bs.length ≤ x.toNat →
    s.byteAt u x = some c → t.byteAt u x = some c

omit [Layout] in
theorem toNat_add_intOff (dstva : U64) {k : ℕ} (h : dstva.toNat + k < 2 ^ 64) :
    (dstva + intOff k).toNat = dstva.toNat + k := by
  rw [intOff, BitVec.toNat_add, BitVec.toNat_ofNat]
  omega

omit [Layout] in
/-- What is deposited after `bs` does not disturb it. -/
theorem Deposits.append {x : Kernel} {dstva : U64} {bs cs : List Byte} (h : Deposits u dstva bs s t)
    (h' : Deposits u (dstva + intOff bs.length) cs t x) (hcs : cs ≠ [] → bs = [] ∨
      dstva.toNat + bs.length < 2 ^ 64) : Deposits u dstva (bs ++ cs) s x := by
  have hT : vTrampoline * 4096 < 2 ^ 64 := by decide
  have hnext : cs ≠ [] → (dstva + intOff bs.length).toNat = dstva.toNat + bs.length := fun hne => by
    rcases hcs hne with rfl | hlt
    · simp [intOff]
    · exact toNat_add_intOff _ hlt
  refine ⟨fun hne => ?_, fun i b hb => ?_, fun y c hy hout hc => ?_⟩
  · rw [List.length_append]
    by_cases hc : cs = []
    · rw [hc, List.append_nil] at hne
      rw [hc, List.length_nil, Nat.add_zero]
      exact h.low hne
    · have := h'.low hc
      rw [hnext hc] at this
      omega
  · by_cases hi : i < bs.length
    · rw [List.getElem?_append_left hi] at hb
      have hbs : bs ≠ [] := List.ne_nil_of_length_pos (by omega)
      have hlow := h.low hbs
      have haddr := toNat_add_intOff dstva (k := i) (by omega)
      refine h'.rest _ b ?_ ?_ (h.here i b hb)
      · unfold vpn
        omega
      · by_cases hc : cs = []
        · rw [hc, List.length_nil, Nat.add_zero]
          exact lt_or_ge _ _
        · rw [hnext hc]
          omega
    · rw [List.getElem?_append_right (by omega)] at hb
      have hsum : dstva + intOff i = dstva + intOff bs.length + intOff (i - bs.length) := by
        rw [BitVec.add_assoc, intOff, intOff, intOff, ← BitVec.ofNat_add]
        congr 2
        omega
      rw [hsum]
      exact h'.here _ b hb
  · rw [List.length_append] at hout
    refine h'.rest y c hy ?_ (h.rest y c hy (by omega) hc)
    by_cases hcn : cs = []
    · rw [hcn, List.length_nil, Nat.add_zero]
      exact lt_or_ge _ _
    · rw [hnext hcn]
      omega

/-- **One round of `copyout`** deposits its bytes, or none. -/
theorem OwnPages.copyoutPart (h : OwnPages L ext own s a u) (src : ℕ → Byte) (dstva : U64) (k : ℕ)
    (len : U64) :
    wp (copyoutPart u src dstva k len) (fun _ => True) (fun ok t =>
      (∃ phys fs own' a', t = s.io phys fs ∧ OwnPages L ext own' t a' u) ∧ Deposits u dstva
        (if ok then (List.range (inPage dstva len).toNat).map fun i => src (k + i) else [])
        s t) s := by
  unfold Xv6.copyoutPart
  rw [wp_bind]
  refine (h.copyoutPage _).mono ?_
  rintro pa t ⟨phys, fs, own', a', rfl, hown, hcont, hpage⟩
  have hkeep : ∀ x c, vpn x < vTrampoline → s.byteAt u x = some c →
      (s.io phys fs).byteAt u x = some c := by
    intro x c hx hc
    rw [h.byteAt_eq hx, Option.map_eq_some_iff] at hc
    obtain ⟨d, hd, rfl⟩ := hc
    rw [hown.byteAt_eq hx, show (s.io phys fs).root u = s.root u from rfl, hcont _ d hd]
    rfl
  rw [wp_ite]
  split_ifs with h0
  · refine ⟨⟨phys, fs, own', a', rfl, hown⟩, fun hne => absurd rfl hne, fun i b hb => ?_,
      fun x c hx _ hc => hkeep x c hx hc⟩
    simp at hb
  obtain ⟨hlow, hv, rfl⟩ := hpage h0
  rw [vpn_pgRoundDown] at hlow hv
  rw [vpn_pgRoundDown]
  set f := pteFrame (a'.leaf (s.root u) (vpn dstva)) with hf
  set bs := (List.range (inPage dstva len).toNat).map fun i => src (k + i) with hbs
  obtain ⟨p, hp⟩ := hown.page_of_valid hlow hv
  have hdown := toNat_pgRoundDown dstva
  have hoff : (dstva - pgRoundDown dstva).toNat = dstva.toNat % 4096 := by
    rw [BitVec.toNat_sub_of_le (by rw [BitVec.le_def]; omega)]
    omega
  have hfl := (hown.rep.allocatable hp).lt
  have haddr : pageAddr f + (dstva - pgRoundDown dstva) =
      BitVec.ofNat 64 (f * 4096 + dstva.toNat % 4096) := by
    apply BitVec.eq_of_toNat_eq
    rw [BitVec.toNat_add, hoff, toNat_pageAddr (by
      change f < 2 ^ 44 at hfl
      omega), BitVec.toNat_ofNat]
  have hlen : bs.length ≤ 4096 - dstva.toNat % 4096 := by
    rw [hbs, List.length_map, List.length_range, inPage, toNat_pagePart]
    exact min_le_left _ _
  rw [wp_bind, haddr]
  refine (hown.store hlow hv (Nat.mod_lt _ (by norm_num)) bs).mono ?_
  rintro - t ⟨phys', b, rfl, hown', hself, hother⟩
  rw [wp_pure, if_pos rfl]
  change ∀ d, a'.contents (s.root u) (vpn dstva) = some d →
    b.contents (s.root u) (vpn dstva) = some (putBytes d (dstva.toNat % 4096) bs) at hself
  have hroot : ((s.io phys fs).io phys' (s.io phys fs).fs).root u = s.root u := rfl
  obtain ⟨d, hd⟩ : ∃ d, a'.contents (s.root u) (vpn dstva) = some d :=
    ⟨p.data, Maps.contents_eq_some.2 ⟨hv, p, hp, rfl⟩⟩
  have hT : vTrampoline * 4096 < 2 ^ 64 := by decide
  refine ⟨⟨phys', fs, own', b, rfl, hown'⟩, fun _ => ?_, fun i c hc => ?_, fun x c hx hout hc => ?_⟩
  · unfold vpn at hlow
    omega
  · have hi : i < bs.length := (List.getElem?_eq_some_iff.1 hc).1
    have hsum := toNat_add_intOff dstva (k := i) (by
      unfold vpn at hlow
      omega)
    have hpg : vpn (dstva + intOff i) = vpn dstva := by
      rw [vpn, vpn, hsum]
      omega
    have hlow' : vpn (dstva + intOff i) < vTrampoline := hpg.symm ▸ hlow
    rw [hown'.byteAt_eq hlow', hroot, hpg, hself d hd, Option.map_some]
    refine congrArg some (putBytes_in ?_ ?_)
    · rw [hsum]
      omega
    · rw [hsum, show (dstva.toNat + i) % 4096 - dstva.toNat % 4096 = i by omega]
      exact hc
  · have hmid := hkeep x c hx hc
    rw [hown.byteAt_eq hx] at hmid
    rw [hown'.byteAt_eq hx, hroot]
    change (a'.contents (s.root u) (vpn x)).map _ = some c at hmid
    by_cases hpg : vpn x = vpn dstva
    · rw [hpg, hself d hd, Option.map_some]
      rw [hpg, hd, Option.map_some] at hmid
      rw [← hmid]
      refine congrArg some (putBytes_of_not_mem ?_)
      unfold vpn at hpg
      omega
    · have hsame : b.contents (s.root u) (vpn x) = a'.contents (s.root u) (vpn x) :=
        hother _ hx hpg
      rw [hsame]
      exact hmid

/-- A copy of one byte has one round. -/
theorem copyout_one_eq {va : U64} {b : Byte} (hin : InRange va 1) :
    copyout u va (fun _ => b) 1 = copyoutPart u (fun _ => b) va 0 1 := by
  funext s
  rw [copyout_eq hin, show (1 : U64).toNat = 0 + 1 from rfl, copyoutFrom_succ (by decide)]
  rcases hrun : copyoutPart u (fun _ => b) va 0 1 s with e | ⟨_ | _, t⟩
  · exact bind_of_error hrun
  · exact bind_of_ok hrun
  · exact bind_of_ok hrun

/-- `copyout` of one byte. -/
theorem OwnPages.copyout_one (h : OwnPages L ext own s a u) (va : U64) (b : Byte) :
    wp (copyout u va (fun _ => b) 1) (fun _ => True) (fun ok t =>
      (∃ phys fs own' a', t = s.io phys fs ∧ OwnPages L ext own' t a' u) ∧
        Deposits u va (if ok then [b] else []) s t) s := by
  by_cases hin : InRange va 1
  · have hlen : (inPage va 1).toNat = 1 := by
      rw [inPage, toNat_pagePart, show (1 : U64).toNat = 1 from rfl]
      omega
    rw [copyout_one_eq hin]
    refine (h.copyoutPart (fun _ => b) va 0 1).mono fun ok t ht => ?_
    rw [hlen] at ht
    exact ht
  · rw [copyout_eq_false hin]
    exact ⟨⟨s.phys, s.fs, own, a, rfl, h⟩, fun hne => absurd rfl hne, fun i b hb => by simp at hb,
      fun x c _ _ hc => hc⟩

end

end Xv6
