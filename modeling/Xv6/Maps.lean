import Xv6.Pagetable

/-!
# The memory behind the page tables

The allocator and the three-level page tables of the kernel implement a simple abstract object,
`Maps`: a set of tables, each a map from virtual page numbers to leaf entries, and a set of
allocated pages with their reference counts and contents.  The functions of
`kernel/pagetable.c` that work on a range of pages are folds over it.
-/

namespace Xv6

open Bytes

/-- The virtual page number of an address. -/
def vpn (va : U64) : ℕ := va.toNat / 4096

/-- An allocated page that belongs to no table. -/
structure Page where
  refs : ℤ
  data : ℕ → Byte

/-- The tables, by the page number of their root, and the allocated pages. -/
structure Maps where
  root : ℕ → Prop
  leaf : ℕ → ℕ → U64
  page : ℕ → Option Page

namespace Maps

/-- Set the leaf entry of page `v` in table `r`. -/
def setLeaf (a : Maps) (r v : ℕ) (w : U64) : Maps :=
  { a with leaf := fun r' v' => if r' = r ∧ v' = v then w else a.leaf r' v' }

/-- Hand out, change or take back page `g`. -/
def setPage (a : Maps) (g : ℕ) (p : Option Page) : Maps :=
  { a with page := Function.update a.page g p }

/-- A new table without entries. -/
def addRoot (a : Maps) (r : ℕ) : Maps :=
  { a with root := fun r' => r' = r ∨ a.root r' }

/-- Take table `r` away. -/
def dropRoot (a : Maps) (r : ℕ) : Maps :=
  { a with
    root := fun r' => r' ≠ r ∧ a.root r'
    leaf := Function.update a.leaf r fun _ => 0 }

@[simp]
theorem setLeaf_page (a : Maps) (r v : ℕ) (w : U64) : (a.setLeaf r v w).page = a.page := rfl

@[simp]
theorem setLeaf_root (a : Maps) (r v : ℕ) (w : U64) : (a.setLeaf r v w).root = a.root := rfl

@[simp]
theorem setPage_leaf (a : Maps) (g : ℕ) (p : Option Page) : (a.setPage g p).leaf = a.leaf := rfl

@[simp]
theorem setPage_root (a : Maps) (g : ℕ) (p : Option Page) : (a.setPage g p).root = a.root := rfl

@[simp]
theorem setPage_page_self (a : Maps) (g : ℕ) (p : Option Page) : (a.setPage g p).page g = p :=
  Function.update_self ..

@[simp]
theorem setPage_setPage (a : Maps) (g : ℕ) (p q : Option Page) :
    (a.setPage g p).setPage g q = a.setPage g q := by
  simp [setPage]

theorem setLeaf_setPage (a : Maps) (r v : ℕ) (w : U64) (g : ℕ) (p : Option Page) :
    (a.setLeaf r v w).setPage g p = (a.setPage g p).setLeaf r v w := rfl

theorem setPage_of_eq {a : Maps} {g : ℕ} {p : Option Page} (h : a.page g = p) :
    a.setPage g p = a := by
  subst h
  simp [setPage]

theorem setPage_page_of_ne (a : Maps) {g f : ℕ} (p : Option Page) (h : f ≠ g) :
    (a.setPage g p).page f = a.page f := Function.update_of_ne h ..

@[simp]
theorem setLeaf_leaf_self (a : Maps) (r v : ℕ) (w : U64) : (a.setLeaf r v w).leaf r v = w := by
  simp [setLeaf]

@[simp]
theorem setLeaf_setLeaf (a : Maps) (r v : ℕ) (w w' : U64) :
    (a.setLeaf r v w).setLeaf r v w' = a.setLeaf r v w' := by
  simp only [setLeaf, Maps.mk.injEq, true_and, and_true]
  funext r' v'
  split_ifs <;> rfl

theorem setLeaf_leaf_of_ne (a : Maps) {r v r' v' : ℕ} (w : U64) (h : ¬ (r' = r ∧ v' = v)) :
    (a.setLeaf r v w).leaf r' v' = a.leaf r' v' := by
  simp [setLeaf, h]

/-! ### References -/

/-- The count of page `g` goes down by one; the page is taken back when it reaches 0. -/
def decref (a : Maps) (g : ℕ) : Maps :=
  match a.page g with
  | some p => a.setPage g (if p.refs = 1 then none else some { p with refs := p.refs - 1 })
  | none => a

def incref (a : Maps) (g : ℕ) : Maps :=
  match a.page g with
  | some p => a.setPage g (some { p with refs := p.refs + 1 })
  | none => a

/-! ### Entries and ranges -/

/-- `pgt_getpa` on the represented table. -/
def getpa (a : Maps) (r : ℕ) (va : U64) : U64 :=
  if MAXVA ≤ va then 0
  else if a.leaf r (vpn va) &&& PTE_V = 0 ∨ a.leaf r (vpn va) &&& PTE_U = 0 then 0
  else pte2pa (a.leaf r (vpn va))

/-- One round of `pgt_unmap_impl`. -/
def unmapPage (a : Maps) (r v : ℕ) (dealloc : Bool) : Maps :=
  if Valid (a.leaf r v) then
    (if dealloc then a.decref (pteFrame (a.leaf r v)) else a).setLeaf r v 0
  else a

/-- `pgt_unmap_impl` on the `n` pages from `v` on. -/
def unmap (a : Maps) (r v : ℕ) (dealloc : Bool) : ℕ → Maps
  | 0 => a
  | n + 1 => (a.unmap r v dealloc n).unmapPage r (v + n) dealloc

/-- One round of `pgt_clone`: both tables get the entry without its write bit. -/
def clonePage (a : Maps) (r d v : ℕ) : Maps :=
  if Valid (a.leaf r v) then
    ((a.setLeaf r v (a.leaf r v &&& ~~~PTE_W)).setLeaf d v (a.leaf r v &&& ~~~PTE_W)).incref
      (pteFrame (a.leaf r v))
  else a

/-- `pgt_clone` on the `n` pages from `v` on. -/
def clone (a : Maps) (r d v : ℕ) : ℕ → Maps
  | 0 => a
  | n + 1 => (a.clone r d v n).clonePage r d (v + n)

@[simp]
theorem decref_leaf (a : Maps) (g : ℕ) : (a.decref g).leaf = a.leaf := by
  rw [decref]
  split <;> rfl

@[simp]
theorem decref_root (a : Maps) (g : ℕ) : (a.decref g).root = a.root := by
  rw [decref]
  split <;> rfl

@[simp]
theorem incref_leaf (a : Maps) (g : ℕ) : (a.incref g).leaf = a.leaf := by
  rw [incref]
  split <;> rfl

@[simp]
theorem incref_root (a : Maps) (g : ℕ) : (a.incref g).root = a.root := by
  rw [incref]
  split <;> rfl

@[simp]
theorem unmapPage_root (a : Maps) (r v : ℕ) (dealloc : Bool) :
    (a.unmapPage r v dealloc).root = a.root := by
  rw [unmapPage]
  split_ifs <;> simp

@[simp]
theorem unmap_root (a : Maps) (r v : ℕ) (dealloc : Bool) (n : ℕ) :
    (a.unmap r v dealloc n).root = a.root := by
  induction n with
  | zero => rfl
  | succ n ih => rw [unmap, unmapPage_root, ih]

theorem unmapPage_leaf_of_ne (a : Maps) {r v r' v' : ℕ} (dealloc : Bool)
    (h : ¬ (r' = r ∧ v' = v)) : (a.unmapPage r v dealloc).leaf r' v' = a.leaf r' v' := by
  rw [unmapPage]
  split_ifs
  · rw [setLeaf_leaf_of_ne _ _ h, decref_leaf]
  · rw [setLeaf_leaf_of_ne _ _ h]
  · rfl

theorem unmap_leaf_of_notMem (a : Maps) {r v r' v' : ℕ} (dealloc : Bool) {n : ℕ}
    (h : ¬ (r' = r ∧ v ≤ v' ∧ v' < v + n)) : (a.unmap r v dealloc n).leaf r' v' = a.leaf r' v' := by
  induction n with
  | zero => rfl
  | succ n ih =>
    rw [unmap, unmapPage_leaf_of_ne _ _ (by omega), ih (by omega)]

/-- An entry stays as it is or is cleared. -/
theorem unmap_leaf_or (a : Maps) (r v : ℕ) (dealloc : Bool) (n r' v' : ℕ) :
    (a.unmap r v dealloc n).leaf r' v' = a.leaf r' v' ∨ (a.unmap r v dealloc n).leaf r' v' = 0 := by
  induction n with
  | zero => exact Or.inl rfl
  | succ n ih =>
    rw [unmap]
    by_cases h : r' = r ∧ v' = v + n
    · obtain ⟨rfl, rfl⟩ := h
      rw [unmapPage]
      split_ifs
      · exact Or.inr (setLeaf_leaf_self ..)
      · exact Or.inr (setLeaf_leaf_self ..)
      · exact ih
    · rw [unmapPage_leaf_of_ne _ _ h]
      exact ih

/-- The entries of the range are gone. -/
theorem unmap_not_valid (a : Maps) {r v k : ℕ} (dealloc : Bool) {n : ℕ} (h1 : v ≤ k)
    (h2 : k < v + n) : ¬ Valid ((a.unmap r v dealloc n).leaf r k) := by
  induction n with
  | zero => omega
  | succ n ih =>
    rw [unmap]
    by_cases hk : k = v + n
    · rw [hk, unmapPage]
      split_ifs with hv
      · simp
      · simp
      · exact hv
    · rw [unmapPage_leaf_of_ne _ _ (by omega)]
      exact ih (by omega)

@[simp]
theorem clonePage_root (a : Maps) (r d v : ℕ) : (a.clonePage r d v).root = a.root := by
  rw [clonePage]
  split_ifs <;> simp

@[simp]
theorem clone_root (a : Maps) (r d v n : ℕ) : (a.clone r d v n).root = a.root := by
  induction n with
  | zero => rfl
  | succ n ih => rw [clone, clonePage_root, ih]

theorem clonePage_leaf_of_ne (a : Maps) {r d v r' v' : ℕ} (h : v' ≠ v ∨ (r' ≠ r ∧ r' ≠ d)) :
    (a.clonePage r d v).leaf r' v' = a.leaf r' v' := by
  rw [clonePage]
  split_ifs
  · rw [incref_leaf, setLeaf_leaf_of_ne _ _ (by omega), setLeaf_leaf_of_ne _ _ (by omega)]
  · rfl

theorem clone_leaf_of_notMem (a : Maps) {r d v r' v' n : ℕ}
    (h : ¬ (v ≤ v' ∧ v' < v + n) ∨ (r' ≠ r ∧ r' ≠ d)) :
    (a.clone r d v n).leaf r' v' = a.leaf r' v' := by
  induction n with
  | zero => rfl
  | succ n ih =>
    rw [clone, clonePage_leaf_of_ne _ (by omega), ih (by omega)]

/-- Cloning keeps every page. -/
theorem clone_page_some {a : Maps} {r d v n g : ℕ} {p : Page} (hp : a.page g = some p) :
    ∃ q, (a.clone r d v n).page g = some q := by
  induction n with
  | zero => exact ⟨p, hp⟩
  | succ n ih =>
    obtain ⟨q, hq⟩ := ih
    rw [clone, clonePage]
    split_ifs
    · generalize hb : ((a.clone r d v n).setLeaf r _ _).setLeaf d _ _ = b
      have hbq : b.page g = some q := by
        rw [← hb]
        exact hq
      rw [incref]
      split
      · rename_i f p' hp'
        by_cases hf : g = pteFrame ((a.clone r d v n).leaf r (v + n))
        · exact ⟨_, by rw [hf, setPage_page_self]⟩
        · exact ⟨q, by rw [setPage_page_of_ne _ _ hf, hbq]⟩
      · exact ⟨q, hbq⟩
    · exact ⟨q, hq⟩

/-! ### Contents -/

/-- The pages of `a'` are pages of `a`, with the same contents. -/
def Kept (a a' : Maps) : Prop :=
  ∀ f p, a'.page f = some p → ∃ q, a.page f = some q ∧ q.data = p.data

theorem Kept.refl (a : Maps) : Kept a a := fun _ p hp => ⟨p, hp, rfl⟩

theorem Kept.trans {a b c : Maps} (h : Kept a b) (h' : Kept b c) : Kept a c := fun f p hp => by
  obtain ⟨q, hq, hd⟩ := h' f p hp
  obtain ⟨q', hq', hd'⟩ := h f q hq
  exact ⟨q', hq', hd'.trans hd⟩

theorem Kept.setLeaf {a b : Maps} (h : Kept a b) (r v : ℕ) (w : U64) : Kept a (b.setLeaf r v w) := h

theorem kept_decref (a : Maps) (g : ℕ) : Kept a (a.decref g) := by
  intro f p hp
  rw [decref] at hp
  split at hp
  · rename_i q hq
    by_cases hf : f = g
    · subst hf
      rw [setPage_page_self] at hp
      split_ifs at hp
      cases hp
      exact ⟨q, hq, rfl⟩
    · rw [setPage_page_of_ne _ _ hf] at hp
      exact ⟨p, hp, rfl⟩
  · exact ⟨p, hp, rfl⟩

theorem kept_incref (a : Maps) (g : ℕ) : Kept a (a.incref g) := by
  intro f p hp
  rw [incref] at hp
  split at hp
  · rename_i q hq
    by_cases hf : f = g
    · subst hf
      rw [setPage_page_self] at hp
      cases hp
      exact ⟨q, hq, rfl⟩
    · rw [setPage_page_of_ne _ _ hf] at hp
      exact ⟨p, hp, rfl⟩
  · exact ⟨p, hp, rfl⟩

theorem kept_unmap (a : Maps) (r v : ℕ) (dealloc : Bool) (n : ℕ) :
    Kept a (a.unmap r v dealloc n) := by
  induction n with
  | zero => exact Kept.refl a
  | succ n ih =>
    refine ih.trans ?_
    rw [unmap, unmapPage]
    split_ifs
    · exact (kept_decref _ _).setLeaf _ _ _
    · exact (Kept.refl _).setLeaf _ _ _
    · exact Kept.refl _

theorem kept_clonePage (a : Maps) (r d v : ℕ) : Kept a (a.clonePage r d v) := by
  rw [clonePage]
  split_ifs
  · exact (((Kept.refl a).setLeaf _ _ _).setLeaf _ _ _).trans (kept_incref _ _)
  · exact Kept.refl a

end Maps

end Xv6
