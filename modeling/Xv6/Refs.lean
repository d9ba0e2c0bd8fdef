import Xv6.Maps
import Xv6.Lib.Count

/-!
# Reference counts of pages

The reference count of a page is the number of leaf entries that point to it, at the places of a
set `S`, plus the references that others hold.  Every change the kernel makes to an entry keeps
the balance: a fresh page is mapped, an entry is copied to another table, a page is copied on
write, an entry is removed.
-/

namespace Xv6

open Bytes Count

/-- The page that a leaf entry points to. -/
def target (w : U64) : Option ℕ := if Valid w then some (pteFrame w) else none

theorem target_of_valid {w : U64} (h : Valid w) : target w = some (pteFrame w) := if_pos h

theorem target_of_not_valid {w : U64} (h : ¬ Valid w) : target w = none := if_neg h

theorem target_mk {g : ℕ} (hg : g < 2 ^ 44) {fl : U64} (hfl : IsFlags fl)
    (hv : Valid (pa2pte (pageAddr g) ||| fl)) : target (pa2pte (pageAddr g) ||| fl) = some g := by
  rw [target_of_valid hv, pteFrame_of_pte2pa (by omega) (pte2pa_pa2pte_or hg hfl)]

@[simp]
theorem target_zero : target 0 = none := target_of_not_valid (by decide)

namespace Maps

/-- The page that entry `x = (table, page number)` points to. -/
def ptr (a : Maps) (x : ℕ × ℕ) : Option ℕ := target (a.leaf x.1 x.2)

/-- The reference count of a page, 0 for a page that is not handed out. -/
def refs (a : Maps) (f : ℕ) : ℕ∞ :=
  match a.page f with
  | some p => p.refs.toNat
  | none => 0

variable {a : Maps}

theorem ptr_setLeaf_self (r v : ℕ) (w : U64) : (a.setLeaf r v w).ptr (r, v) = target w := by
  rw [ptr, setLeaf_leaf_self]

theorem ptr_setLeaf_of_ne {r v : ℕ} {x : ℕ × ℕ} (w : U64) (h : x ≠ (r, v)) :
    (a.setLeaf r v w).ptr x = a.ptr x := by
  rw [ptr, ptr, setLeaf_leaf_of_ne]
  rintro ⟨h1, h2⟩
  exact h (Prod.ext h1 h2)

@[simp]
theorem ptr_setPage (g : ℕ) (p : Option Page) : (a.setPage g p).ptr = a.ptr := rfl

@[simp]
theorem ptr_decref (g : ℕ) : (a.decref g).ptr = a.ptr := by
  funext x
  rw [ptr, ptr, decref_leaf]

@[simp]
theorem ptr_incref (g : ℕ) : (a.incref g).ptr = a.ptr := by
  funext x
  rw [ptr, ptr, incref_leaf]

theorem refs_of_some {f : ℕ} {p : Page} (h : a.page f = some p) : a.refs f = p.refs.toNat := by
  rw [refs, h]

theorem refs_of_none {f : ℕ} (h : a.page f = none) : a.refs f = 0 := by rw [refs, h]

@[simp]
theorem refs_setLeaf (r v : ℕ) (w : U64) : (a.setLeaf r v w).refs = a.refs := rfl

theorem refs_setPage_of_ne {f g : ℕ} (p : Option Page) (h : f ≠ g) :
    (a.setPage g p).refs f = a.refs f := by
  rw [refs, refs, setPage_page_of_ne _ _ h]

/-- A fresh page has one reference. -/
theorem refs_fresh {g : ℕ} (hg : a.page g = none) (d : ℕ → Byte) (f : ℕ) :
    (a.setPage g (some ⟨1, d⟩)).refs f = a.refs f + hit (some g) f := by
  by_cases hf : f = g
  · subst hf
    rw [refs_of_none hg, refs_of_some (setPage_page_self ..), hit_some_self]
    rfl
  · rw [refs_setPage_of_ne _ hf, hit_of_ne (Ne.symm hf), add_zero]

theorem refs_incref {g : ℕ} {p : Page} (hp : a.page g = some p) (h0 : 0 < p.refs) (f : ℕ) :
    (a.incref g).refs f = a.refs f + hit (some g) f := by
  simp only [incref, hp]
  by_cases hf : f = g
  · subst hf
    rw [refs_of_some (setPage_page_self ..), refs_of_some hp, hit_some_self]
    show ((p.refs + 1).toNat : ℕ∞) = p.refs.toNat + 1
    rw [show (p.refs + 1).toNat = p.refs.toNat + 1 by omega]
    rfl
  · rw [refs_setPage_of_ne _ hf, hit_of_ne (Ne.symm hf), add_zero]

theorem refs_decref {g : ℕ} {p : Page} (hp : a.page g = some p) (h0 : 0 < p.refs) (f : ℕ) :
    (a.decref g).refs f + hit (some g) f = a.refs f := by
  simp only [decref, hp]
  by_cases hf : f = g
  · subst hf
    rw [refs_of_some hp, hit_some_self]
    split_ifs with h1
    · rw [refs_of_none (setPage_page_self ..), h1]
      rfl
    · rw [refs_of_some (setPage_page_self ..)]
      show ((p.refs - 1).toNat : ℕ∞) + 1 = p.refs.toNat
      rw [show p.refs.toNat = (p.refs - 1).toNat + 1 by omega]
      rfl
  · rw [refs_setPage_of_ne _ hf, hit_of_ne (Ne.symm hf), add_zero]

end Maps

/-- Every reference is counted: those of the entries in `S`, and those `ext` that others hold. -/
structure Counted (a : Maps) (S : Set (ℕ × ℕ)) (ext : ℕ → ℕ∞) : Prop where
  pos : ∀ f p, a.page f = some p → 0 < p.refs
  counts : Counts a.refs S a.ptr ext

namespace Counted

open Maps

variable {a : Maps} {S : Set (ℕ × ℕ)} {ext : ℕ → ℕ∞}

/-- An entry that is counted points to a page that is handed out. -/
theorem page_of_ptr (h : Counted a S ext) {x : ℕ × ℕ} {f : ℕ} (hx : x ∈ S)
    (hp : a.ptr x = some f) : ∃ p, a.page f = some p := by
  have h1 := h.counts.one_le hx hp
  cases hpg : a.page f with
  | some p => exact ⟨p, rfl⟩
  | none =>
    rw [refs_of_none hpg] at h1
    exact absurd h1 (by simp)

theorem page_of_valid (h : Counted a S ext) {r v : ℕ} (hx : (r, v) ∈ S)
    (hv : Valid (a.leaf r v)) : ∃ p, a.page (pteFrame (a.leaf r v)) = some p :=
  h.page_of_ptr hx (target_of_valid hv)

/-- An entry changes its flags only. -/
theorem setLeaf_same (h : Counted a S ext) {r v : ℕ} {w : U64} (hw : target w = a.ptr (r, v)) :
    Counted (a.setLeaf r v w) S ext where
  pos := h.pos
  counts := by
    refine h.counts.congr (fun x _ => ?_) fun _ => rfl
    by_cases hx : x = (r, v)
    · rw [hx, ptr_setLeaf_self, hw]
    · rw [ptr_setLeaf_of_ne _ hx]

/-- An entry that is not counted changes. -/
theorem setLeaf_outside (h : Counted a S ext) {r v : ℕ} (w : U64) (hx : (r, v) ∉ S) :
    Counted (a.setLeaf r v w) S ext where
  pos := h.pos
  counts := h.counts.congr (fun _ hxS => ptr_setLeaf_of_ne _ fun he => hx (he ▸ hxS)) fun _ => rfl

/-- A page changes its contents only. -/
theorem setData (h : Counted a S ext) {f : ℕ} {p : Page} (hp : a.page f = some p) (d : ℕ → Byte) :
    Counted (a.setPage f (some { p with data := d })) S ext where
  pos g q hq := by
    by_cases hg : g = f
    · rw [hg, setPage_page_self] at hq
      cases hq
      exact h.pos f p hp
    · rw [setPage_page_of_ne _ _ hg] at hq
      exact h.pos g q hq
  counts := by
    refine h.counts.congr (fun _ _ => rfl) fun g => ?_
    by_cases hg : g = f
    · rw [hg, refs_of_some (setPage_page_self ..), refs_of_some hp]
    · exact refs_setPage_of_ne _ hg

theorem pos_fresh (h : ∀ f p, a.page f = some p → 0 < p.refs) (g : ℕ) (d : ℕ → Byte) :
    ∀ f p, (a.setPage g (some ⟨1, d⟩)).page f = some p → 0 < p.refs := by
  intro f p hp
  by_cases hf : f = g
  · rw [hf, setPage_page_self] at hp
    cases hp
    exact one_pos
  · rw [setPage_page_of_ne _ _ hf] at hp
    exact h f p hp

theorem pos_incref (h : ∀ f p, a.page f = some p → 0 < p.refs) (g : ℕ) :
    ∀ f p, (a.incref g).page f = some p → 0 < p.refs := by
  intro f p hp
  unfold incref at hp
  split at hp
  · rename_i q hq
    by_cases hf : f = g
    · rw [hf, setPage_page_self] at hp
      cases hp
      have := h g q hq
      show 0 < q.refs + 1
      omega
    · rw [setPage_page_of_ne _ _ hf] at hp
      exact h f p hp
  · exact h f p hp

theorem pos_decref (h : ∀ f p, a.page f = some p → 0 < p.refs) (g : ℕ) :
    ∀ f p, (a.decref g).page f = some p → 0 < p.refs := by
  intro f p hp
  unfold decref at hp
  split at hp
  · rename_i q hq
    by_cases hf : f = g
    · rw [hf, setPage_page_self] at hp
      split_ifs at hp with h1
      cases hp
      have := h g q hq
      show 0 < q.refs - 1
      omega
    · rw [setPage_page_of_ne _ _ hf] at hp
      exact h f p hp
  · exact h f p hp

/-- A fresh page is mapped at an empty entry. -/
theorem mapFresh (h : Counted a S ext) {r v g : ℕ} {w : U64} (hx : (r, v) ∈ S)
    (hinv : ¬ Valid (a.leaf r v)) (hg : a.page g = none) (hw : target w = some g) (d : ℕ → Byte) :
    Counted ((a.setPage g (some ⟨1, d⟩)).setLeaf r v w) S ext where
  pos := pos_fresh h.pos g d
  counts := by
    refine h.counts.redirect hx (fun x hne => ptr_setLeaf_of_ne _ hne) fun f => ?_
    rw [ptr_setLeaf_self, hw, refs_setLeaf, refs_fresh hg]
    have : a.ptr (r, v) = none := target_of_not_valid hinv
    rw [this, hit_none, add_zero]

/-- An entry moves to a fresh page and gives up its reference to the old one. -/
theorem copy (h : Counted a S ext) {r v f g : ℕ} {w : U64} (hx : (r, v) ∈ S)
    (hptr : a.ptr (r, v) = some f) (hg : a.page g = none) (hw : target w = some g)
    (d : ℕ → Byte) :
    Counted (((a.setPage g (some ⟨1, d⟩)).setLeaf r v w).decref f) S ext where
  pos := by
    refine pos_decref ?_ f
    exact pos_fresh h.pos g d
  counts := by
    obtain ⟨p, hp⟩ := h.page_of_ptr hx hptr
    have hfg : f ≠ g := by
      rintro rfl
      rw [hp] at hg
      cases hg
    have hp' : ((a.setPage g (some ⟨1, d⟩)).setLeaf r v w).page f = some p := by
      rw [setLeaf_page, setPage_page_of_ne _ _ hfg, hp]
    refine h.counts.redirect hx (fun x hne => ?_) fun k => ?_
    · rw [ptr_decref, ptr_setLeaf_of_ne _ hne, ptr_setPage]
    · rw [ptr_decref, ptr_setLeaf_self, hw, hptr, refs_decref hp' (h.pos f p hp), refs_setLeaf,
        refs_fresh hg]

/-- An entry is removed, with the reference it held. -/
theorem unmapPage (h : Counted a S ext) {r v : ℕ} (hx : (r, v) ∈ S) :
    Counted (a.unmapPage r v true) S ext := by
  unfold Maps.unmapPage
  rw [if_pos rfl]
  split_ifs with hv
  · obtain ⟨p, hp⟩ := h.page_of_valid hx hv
    refine ⟨pos_decref h.pos _, ?_⟩
    refine h.counts.redirect hx (fun x hne => ?_) fun k => ?_
    · rw [ptr_setLeaf_of_ne _ hne, ptr_decref]
    · have hptr : a.ptr (r, v) = some (pteFrame (a.leaf r v)) := target_of_valid hv
      rw [ptr_setLeaf_self, target_zero, hit_none, add_zero, hptr, refs_setLeaf,
        refs_decref hp (h.pos _ p hp)]
  · exact h

/-- The entries of a range are removed. -/
theorem unmap (h : Counted a S ext) {r v n : ℕ} (hx : ∀ k, v ≤ k → k < v + n → (r, k) ∈ S) :
    Counted (a.unmap r v true n) S ext := by
  induction n with
  | zero => exact h
  | succ n ih =>
    exact (ih fun k h1 h2 => hx k h1 (by omega)).unmapPage (hx (v + n) (by omega) (by omega))

/-- Entries that are not counted are removed without touching their pages. -/
theorem unmap_outside (h : Counted a S ext) {r v n : ℕ}
    (hx : ∀ k, v ≤ k → k < v + n → (r, k) ∉ S) : Counted (a.unmap r v false n) S ext := by
  induction n with
  | zero => exact h
  | succ n ih =>
    have := ih fun k h1 h2 => hx k h1 (by omega)
    rw [Maps.unmap, Maps.unmapPage, if_neg Bool.false_ne_true]
    split_ifs
    · exact this.setLeaf_outside 0 (hx (v + n) (by omega) (by omega))
    · exact this

end Counted

theorem valid_and_not {w fl : U64} (h : ~~~fl &&& PTE_V = PTE_V) :
    Valid (w &&& ~~~fl) ↔ Valid w := by
  rw [Valid, Valid, BitVec.and_assoc, h]

/-- An entry without some of its flags points to the same page. -/
theorem target_and_not {w fl : U64} (h : ~~~fl &&& PTE_V = PTE_V)
    (hpa : pte2pa (w &&& ~~~fl) = pte2pa w) : target (w &&& ~~~fl) = target w := by
  unfold target
  rw [pteFrame, pteFrame, hpa]
  exact if_congr (valid_and_not h) rfl rfl

theorem target_and_not_W (w : U64) : target (w &&& ~~~PTE_W) = target w :=
  target_and_not (by decide) (pte2pa_and_not_W w)

namespace Counted

open Maps

variable {a : Maps} {S : Set (ℕ × ℕ)} {ext : ℕ → ℕ∞}

/-- An entry is copied to an empty entry of another table. -/
theorem clonePage (h : Counted a S ext) {r d v : ℕ} (hr : (r, v) ∈ S) (hd : (d, v) ∈ S)
    (hne : r ≠ d) (hinv : ¬ Valid (a.leaf d v)) : Counted (a.clonePage r d v) S ext := by
  unfold Maps.clonePage
  split_ifs with hv
  · obtain ⟨p, hp⟩ := h.page_of_valid hr hv
    set w := a.leaf r v &&& ~~~PTE_W with hw
    have htw : target w = a.ptr (r, v) := target_and_not_W _
    have hb := h.setLeaf_same htw
    refine ⟨pos_incref ?_ _, ?_⟩
    · exact h.pos
    refine hb.counts.redirect hd (fun x hx => ?_) fun k => ?_
    · rw [ptr_incref, ptr_setLeaf_of_ne _ hx]
    · have hdv : (a.setLeaf r v w).ptr (d, v) = none := by
        rw [ptr_setLeaf_of_ne _ fun he => hne (congrArg Prod.fst he).symm]
        exact target_of_not_valid hinv
      rw [hdv, hit_none, add_zero, ptr_incref, ptr_setLeaf_self, htw]
      have hptr : a.ptr (r, v) = some (pteFrame (a.leaf r v)) := target_of_valid hv
      rw [hptr, refs_incref (p := p) (by simpa using hp) (h.pos _ p hp)]
      rfl
  · exact h

/-- The entries of a range are copied to another table that has none there. -/
theorem clone (h : Counted a S ext) {r d v n : ℕ}
    (hr : ∀ k, v ≤ k → k < v + n → (r, k) ∈ S) (hd : ∀ k, v ≤ k → k < v + n → (d, k) ∈ S)
    (hne : r ≠ d) (hinv : ∀ k, v ≤ k → k < v + n → ¬ Valid (a.leaf d k)) :
    Counted (a.clone r d v n) S ext := by
  induction n with
  | zero => exact h
  | succ n ih =>
    have hc := ih (fun k h1 h2 => hr k h1 (by omega)) (fun k h1 h2 => hd k h1 (by omega))
      fun k h1 h2 => hinv k h1 (by omega)
    refine hc.clonePage (hr _ (by omega) (by omega)) (hd _ (by omega) (by omega)) hne ?_
    rw [clone_leaf_of_notMem _ (Or.inl (by omega))]
    exact hinv _ (by omega) (by omega)

end Counted

end Xv6
