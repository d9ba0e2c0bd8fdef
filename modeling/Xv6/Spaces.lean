import Xv6.PageFault

/-!
# Well-formed address spaces

`Spaces L s a` is what the virtual-memory code maintains for the address spaces in `L`: each has a
page table of its own, its vmas are nonempty, lie below the trapframe and cover disjoint sets of
pages, no record of the pool is used twice, and every user entry of the table is in a vma.

The lemmas of this file say how the changes the code makes to the pool, to the vma arrays and to
the page tables keep this: `Spaces.addVma`, `Spaces.shrink`, `Spaces.grow`, `Spaces.dropVma`.
-/

namespace Xv6

open Bytes

/-! ### The pages of a vma -/

/-- The page numbers of the trapframe and of the trampoline. -/
abbrev vTrapframe : ℕ := 0x3FFFFFE
abbrev vTrampoline : ℕ := 0x3FFFFFF

/-- The places of user pages in the tables. -/
def userPlaces : Set (ℕ × ℕ) := {x | x.2 < vTrapframe}

theorem vpn_pgRoundDown (va : U64) : vpn (pgRoundDown va) = vpn va := by
  rw [vpn, vpn, toNat_pgRoundDown]
  omega

namespace Vma

/-- The first page of a vma. -/
def first (v : Vma) : ℕ := v.start.toNat / 4096

/-- The page past the end of a vma. -/
def past (v : Vma) : ℕ := (v.start.toNat + v.length.toNat + 4095) / 4096

/-- Page `n` belongs to the vma. -/
def Pages (v : Vma) (n : ℕ) : Prop := v.first ≤ n ∧ n < v.past

instance (v : Vma) : DecidablePred v.Pages := fun n =>
  inferInstanceAs (Decidable (v.first ≤ n ∧ n < v.past))

/-- A vma is nonempty and ends below the trapframe. -/
structure Ok (v : Vma) : Prop where
  pos : 0 < v.length.toNat
  stop_le : v.start.toNat + v.length.toNat ≤ 0x3FFFFFE000

variable {v : Vma}

theorem Ok.toNat_stop (h : v.Ok) : v.stop.toNat = v.start.toNat + v.length.toNat := by
  have := h.stop_le
  rw [Vma.stop, BitVec.toNat_add]
  omega

theorem Ok.past_le (h : v.Ok) : v.past ≤ vTrapframe := by
  have := h.stop_le
  rw [past, vTrapframe]
  omega

theorem Ok.first_lt (h : v.Ok) : v.first < v.past := by
  have := h.pos
  rw [first, past]
  omega

theorem vpn_start (v : Vma) : vpn (pgRoundDown v.start) = v.first := vpn_pgRoundDown _

theorem Ok.vpn_stop (h : v.Ok) : vpn (pgRoundUp v.stop) = v.past := by
  have := h.stop_le
  rw [vpn, toNat_pgRoundUp, h.toNat_stop, past]
  omega

/-- `start <= va && va < start + length` is what it says. -/
theorem Ok.has_iff (h : v.Ok) (va : U64) :
    v.has va = true ↔ v.start.toNat ≤ va.toNat ∧ va.toNat < v.start.toNat + v.length.toNat := by
  rw [has, decide_eq_true_iff, BitVec.le_def, BitVec.lt_def, h.toNat_stop]

theorem Ok.pages_of_has (h : v.Ok) {va : U64} (hva : v.has va = true) : v.Pages (vpn va) := by
  rw [h.has_iff] at hva
  rw [Pages, first, past, vpn]
  omega

end Vma

/-! ### The invariant -/

namespace Kernel

/-- The root page of a page table. -/
def root (s : Kernel) (u : UvmPtr) : ℕ := (s.uvms u).pagetable.toNat / 4096

/-- `u->vma[i]`. -/
def slot (s : Kernel) (u : UvmPtr) (i : ℕ) : Option ℕ := (s.uvms u).vma i

end Kernel

/-- The address spaces in `L` are well formed. -/
structure Spaces (L : UvmPtr → Prop) (s : Kernel) (a : Maps) : Prop where
  table : ∀ u, L u → (s.uvms u).pagetable = pageAddr (s.root u) ∧ a.root (s.root u)
  table_inj : ∀ u u', L u → L u' → s.root u = s.root u' → u = u'
  live : ∀ u i j, s.slot u i = some j → L u
  bound : ∀ u i j, s.slot u i = some j → i < VMA_SIZE
  used : ∀ u i j, s.slot u i = some j → (s.vmas j).used = true
  inj : ∀ u i u' i' j, s.slot u i = some j → s.slot u' i' = some j → u = u' ∧ i = i'
  ok : ∀ u i j, s.slot u i = some j → (s.vmas j).Ok
  perm : ∀ u i j, s.slot u i = some j → (s.vmas j).perm.toNat < 1024
  disjoint : ∀ u i i' j j', s.slot u i = some j → s.slot u i' = some j' → i ≠ i' →
    ∀ n, (s.vmas j).Pages n → ¬ (s.vmas j').Pages n
  cover : ∀ u v, L u → Valid (a.leaf (s.root u) v) →
    v = vTrapframe ∨ v = vTrampoline ∨ ∃ i j, s.slot u i = some j ∧ (s.vmas j).Pages v
  leaf : ∀ u v, L u → Valid (a.leaf (s.root u) v) → pteFlags (a.leaf (s.root u) v) ≠ PTE_V

/-! ### Lookup -/

section Lookup

variable {s : Kernel} {u : UvmPtr}

theorem uvmVa2vma_some {va : U64} {j : ℕ} (h : uvmVa2vma s u va = some j) :
    ∃ i, s.slot u i = some j ∧ (s.vmas j).has va = true := by
  obtain ⟨i, -, hi⟩ := List.exists_of_findSome?_eq_some h
  rw [Option.filter_eq_some_iff] at hi
  exact ⟨i, hi⟩

theorem uvmVa2vma_none {va : U64} (h : uvmVa2vma s u va = none) {i j : ℕ} (hi : i < VMA_SIZE)
    (hs : s.slot u i = some j) : (s.vmas j).has va = false := by
  have := List.findSome?_eq_none_iff.1 h i (List.mem_range.2 hi)
  rw [Option.filter_eq_none_iff] at this
  simpa using this j hs

theorem freeSlot_some {i : ℕ} (h : freeSlot s u = some i) : i < VMA_SIZE ∧ s.slot u i = none := by
  have h1 := List.mem_of_find?_eq_some h
  have h2 := List.find?_some h
  exact ⟨List.mem_range.1 h1, Option.isNone_iff_eq_none.1 h2⟩

theorem freeVma_some {j : ℕ} (h : freeVma s = some j) : (s.vmas j).used = false := by
  have h2 := List.find?_some h
  simpa using h2

theorem uvmIsrangefree_iff {vastart length : U64} :
    uvmIsrangefree s u vastart length = true ↔
      ∀ i j, i < VMA_SIZE → s.slot u i = some j →
        umin (pgRoundUp (vastart + length)) (pgRoundUp (s.vmas j).stop) ≤
          umax (pgRoundDown vastart) (pgRoundDown (s.vmas j).start) := by
  simp only [uvmIsrangefree, List.all_eq_true, List.mem_range]
  refine forall_congr' fun i => ?_
  constructor
  · intro h j hi hj
    have := h hi
    rw [Kernel.slot] at hj
    rw [hj] at this
    simpa using this
  · intro h hi
    split
    · rfl
    · rename_i j hj
      simpa using h j hi hj

end Lookup

theorem toNat_signExtend (n : U32) :
    (n.signExtend 64).toNat = if n.toNat < 2 ^ 31 then n.toNat
    else n.toNat + (2 ^ 64 - 2 ^ 32) := by
  rw [BitVec.toNat_signExtend, BitVec.msb_eq_decide, BitVec.toNat_setWidth]
  have := n.isLt
  split_ifs <;> simp at * <;> omega

theorem toInt_pos_iff (n : U32) : 0 < n.toInt ↔ 0 < n.toNat ∧ n.toNat < 2 ^ 31 := by
  rw [BitVec.toInt_eq_toNat_cond]
  have := n.isLt
  split_ifs <;> omega

theorem toNat_umin (x y : U64) : (umin x y).toNat = min x.toNat y.toNat := by
  unfold umin
  split_ifs with h <;> rw [BitVec.lt_def] at h <;> omega

theorem toNat_umax (x y : U64) : (umax x y).toNat = max x.toNat y.toNat := by
  unfold umax
  split_ifs with h <;> rw [BitVec.lt_def] at h <;> omega

/-- Vmas whose rounded ranges do not meet have no page in common. -/
theorem Vma.disjoint_of_le {v w : Vma} (hv : v.Ok) (hw : w.Ok)
    (h : umin (pgRoundUp v.stop) (pgRoundUp w.stop) ≤
      umax (pgRoundDown v.start) (pgRoundDown w.start)) {n : ℕ} (hn : v.Pages n) : ¬ w.Pages n := by
  have h1 := hv.stop_le
  have h2 := hw.stop_le
  rw [BitVec.le_def, toNat_umin, toNat_umax, toNat_pgRoundUp, toNat_pgRoundUp, toNat_pgRoundDown,
    toNat_pgRoundDown, hv.toNat_stop, hw.toNat_stop] at h
  unfold Vma.Pages Vma.first Vma.past at *
  omega

/-! ### The pages of a range -/

theorem toNat_sub_pgRoundDown (va : U64) : (va - pgRoundDown va).toNat = va.toNat % 4096 := by
  have hdown := toNat_pgRoundDown va
  rw [BitVec.toNat_sub_of_le (by rw [BitVec.le_def]; omega)]
  omega

theorem pos_toNat {len : U64} (h : len ≠ 0) : len.toNat ≠ 0 :=
  fun h0 => h (BitVec.eq_of_toNat_eq h0)

/-- The number of pages that `[srcva, srcva + len)` touches. -/
def pagesTouched (srcva : U64) (len : ℕ) : ℕ :=
  if len = 0 then 0 else (srcva.toNat % 4096 + len + 4095) / 4096

/-- The pages that `[srcva, srcva + len)` touches; addresses wrap around. -/
def touchedPages (srcva : U64) (len : ℕ) : List U64 :=
  (List.range (pagesTouched srcva len)).map (pageNo (pgRoundDown srcva))

theorem pgRoundDown_next (srcva : U64) :
    pgRoundDown (pgRoundDown srcva + PGSIZE) = pgRoundDown srcva + PGSIZE := by
  have hdown := toNat_pgRoundDown srcva
  have hpg : PGSIZE.toNat = 4096 := by decide
  apply BitVec.eq_of_toNat_eq
  rw [toNat_pgRoundDown, BitVec.toNat_add, hpg, hdown]
  omega

/-- The first page, and the pages of the rest. -/
theorem touchedPages_cons {srcva : U64} {len n : ℕ} (hlen : len ≠ 0)
    (hn : n = min (4096 - srcva.toNat % 4096) len) :
    touchedPages srcva len =
      pgRoundDown srcva :: touchedPages (pgRoundDown srcva + PGSIZE) (len - n) := by
  have hpg : PGSIZE.toNat = 4096 := by decide
  have hmod : (pgRoundDown srcva + PGSIZE).toNat % 4096 = 0 := by
    rw [BitVec.toNat_add, hpg, toNat_pgRoundDown]
    omega
  have hcount : pagesTouched srcva len =
      pagesTouched (pgRoundDown srcva + PGSIZE) (len - n) + 1 := by
    unfold pagesTouched
    rw [if_neg hlen, hmod]
    split_ifs <;> omega
  have hnext : ∀ k, pageNo (pgRoundDown srcva) (k + 1) = pageNo (pgRoundDown srcva + PGSIZE) k := by
    intro k
    apply BitVec.eq_of_toNat_eq
    simp only [pageNo, BitVec.toNat_add, BitVec.toNat_mul, BitVec.toNat_ofNat, hpg]
    omega
  have hfirst : pageNo (pgRoundDown srcva) 0 = pgRoundDown srcva := by simp [pageNo]
  rw [touchedPages, touchedPages, hcount, pgRoundDown_next, List.range_succ_eq_map, List.map_cons,
    hfirst, List.map_map]
  exact congrArg _ (List.map_congr_left fun k _ => hnext k)

/-- The bytes of a page that a copy takes, out of `len`. -/
theorem toNat_pagePart (srcva len : U64) :
    (umin (PGSIZE - (srcva - pgRoundDown srcva)) len).toNat =
      min (4096 - srcva.toNat % 4096) len.toNat := by
  have hoff := toNat_sub_pgRoundDown srcva
  have hpg : PGSIZE.toNat = 4096 := by decide
  rw [toNat_umin, BitVec.toNat_sub_of_le (by rw [BitVec.le_def]; omega), hoff, hpg]

theorem toNat_sub_pagePart (srcva len : U64) :
    (len - umin (PGSIZE - (srcva - pgRoundDown srcva)) len).toNat =
      len.toNat - min (4096 - srcva.toNat % 4096) len.toNat := by
  have hn := toNat_pagePart srcva len
  rw [BitVec.toNat_sub_of_le (by rw [BitVec.le_def]; omega), hn]

/-! ### Changes of the pool and of the vma arrays -/

namespace Kernel

variable {s : Kernel} {u u' : UvmPtr} {i i' j j' : ℕ} {v : Vma} {x : Option ℕ}

/-- `u` gets another heap. -/
def setHeap (s : Kernel) (u : UvmPtr) (x : Option ℕ) : Kernel :=
  s.setUvm u { s.uvms u with heap := x }

theorem setHeap_uvm : ((s.setHeap u x).uvms u').pagetable = (s.uvms u').pagetable ∧
    ((s.setHeap u x).uvms u').vma = (s.uvms u').vma := by
  by_cases hu : u' = u
  · subst hu
    simp [setHeap, setUvm]
  · simp [setHeap, setUvm, Function.update_of_ne hu]

@[simp]
theorem setHeap_pagetable : ((s.setHeap u x).uvms u').pagetable = (s.uvms u').pagetable :=
  setHeap_uvm.1

@[simp]
theorem setHeap_root : (s.setHeap u x).root = s.root :=
  funext fun _ => by rw [root, setHeap_pagetable, root]

@[simp]
theorem setHeap_slot : (s.setHeap u x).slot = s.slot :=
  funext fun _ => funext fun _ => by rw [slot, setHeap_uvm.2, slot]

@[simp]
theorem setHeap_vmas : (s.setHeap u x).vmas = s.vmas := rfl

@[simp]
theorem setVma_slot : (s.setVma j v).slot = s.slot := rfl

@[simp]
theorem setVma_root : (s.setVma j v).root = s.root := rfl

@[simp]
theorem setVma_uvms : (s.setVma j v).uvms = s.uvms := rfl

@[simp]
theorem setVma_vmas_self : (s.setVma j v).vmas j = v := Function.update_self ..

theorem setVma_vmas_of_ne (h : j' ≠ j) : (s.setVma j v).vmas j' = s.vmas j' :=
  Function.update_of_ne h ..

@[simp]
theorem setSlot_vmas : (s.setSlot u i x).vmas = s.vmas := rfl

@[simp]
theorem setSlot_slot_self : (s.setSlot u i x).slot u i = x := by
  simp [slot, setSlot, setUvm]

theorem setSlot_slot_of_ne (h : ¬ (u' = u ∧ i' = i)) :
    (s.setSlot u i x).slot u' i' = s.slot u' i' := by
  by_cases hu : u' = u
  · subst hu
    simp [slot, setSlot, setUvm, Function.update_of_ne (show i' ≠ i from fun hi => h ⟨rfl, hi⟩)]
  · simp [slot, setSlot, setUvm, Function.update_of_ne hu]

@[simp]
theorem setSlot_pagetable : ((s.setSlot u i x).uvms u').pagetable = (s.uvms u').pagetable := by
  by_cases hu : u' = u
  · subst hu
    simp [setSlot, setUvm]
  · simp [setSlot, setUvm, Function.update_of_ne hu]

@[simp]
theorem setSlot_root : (s.setSlot u i x).root = s.root := by
  funext u'
  rw [root, root, setSlot_pagetable]

end Kernel

namespace Spaces

variable {L : UvmPtr → Prop} {s t : Kernel} {a a' : Maps} {u : UvmPtr} {i j : ℕ}

/-- Only the pool and the `struct uvm`s matter. -/
theorem frame (h : Spaces L s a) (hu : t.uvms = s.uvms) (hv : t.vmas = s.vmas) : Spaces L t a := by
  cases t
  cases hu
  cases hv
  exact ⟨h.table, h.table_inj, h.live, h.bound, h.used, h.inj, h.ok, h.perm, h.disjoint, h.cover,
    h.leaf⟩

/-- Another heap. -/
theorem setHeap (h : Spaces L s a) (x : Option ℕ) : Spaces L (s.setHeap u x) a := by
  refine ⟨?_, ?_, ?_, ?_, ?_, ?_, ?_, ?_, ?_, ?_, ?_⟩ <;>
    simp only [Kernel.setHeap_slot, Kernel.setHeap_root, Kernel.setHeap_vmas,
      Kernel.setHeap_pagetable]
  exacts [h.table, h.table_inj, h.live, h.bound, h.used, h.inj, h.ok, h.perm, h.disjoint, h.cover,
    h.leaf]

/-- The tables change. -/
theorem setMaps {b : Maps} (h : Spaces L s a) (hroot : ∀ u, L u → b.root (s.root u))
    (hcover : ∀ u v, L u → Valid (b.leaf (s.root u) v) → Valid (a.leaf (s.root u) v) ∨
      ∃ i j, s.slot u i = some j ∧ (s.vmas j).Pages v)
    (hleaf : ∀ u v, L u → Valid (b.leaf (s.root u) v) →
      pteFlags (b.leaf (s.root u) v) ≠ PTE_V) : Spaces L s b :=
  { h with
    table := fun u hu => ⟨(h.table u hu).1, hroot u hu⟩
    cover := fun u v hu hv => (hcover u v hu hv).elim (h.cover u v hu) fun hc => Or.inr (Or.inr hc)
    leaf := hleaf }

/-- Entries are removed. -/
theorem unmap (h : Spaces L s a) (r v n : ℕ) (d : Bool) : Spaces L s (a.unmap r v d n) := by
  have hsub : ∀ r' v', Valid ((a.unmap r v d n).leaf r' v') →
      (a.unmap r v d n).leaf r' v' = a.leaf r' v' := by
    intro r' v' hv
    exact (Maps.unmap_leaf_or a r v d n r' v').resolve_right fun h0 => by simp [h0] at hv
  refine h.setMaps (fun u hu => ?_) (fun u v' hu hv => Or.inl ?_) fun u v' hu hv => ?_
  · rw [Maps.unmap_root]
    exact (h.table u hu).2
  · rwa [← hsub _ _ hv]
  · have he := hsub _ _ hv
    rw [he] at hv ⊢
    exact h.leaf u v' hu hv

/-- A vma changes its range. -/
theorem setVma (h : Spaces L s a) (hs : s.slot u i = some j) {v : Vma} (hused : v.used = true)
    (hok : v.Ok) (hperm : v.perm.toNat < 1024)
    (hdisj : ∀ i' j', i' ≠ i → s.slot u i' = some j' → ∀ n, v.Pages n → ¬ (s.vmas j').Pages n)
    (hcover : ∀ n, Valid (a.leaf (s.root u) n) → (s.vmas j).Pages n → v.Pages n) :
    Spaces L (s.setVma j v) a := by
  -- any other entry of an array is for another record
  have hother : ∀ u' i' j', s.slot u' i' = some j' → j' ≠ j → (s.setVma j v).vmas j' = s.vmas j' :=
    fun _ _ _ _ hne => Kernel.setVma_vmas_of_ne hne
  refine ⟨h.table, h.table_inj, h.live, h.bound, ?_, h.inj, ?_, ?_, ?_, ?_, h.leaf⟩
  · intro u' i' j' hs'
    by_cases hj : j' = j
    · rw [hj, Kernel.setVma_vmas_self]
      exact hused
    · rw [hother u' i' j' hs' hj]
      exact h.used u' i' j' hs'
  · intro u' i' j' hs'
    by_cases hj : j' = j
    · rw [hj, Kernel.setVma_vmas_self]
      exact hok
    · rw [hother u' i' j' hs' hj]
      exact h.ok u' i' j' hs'
  · intro u' i' j' hs'
    by_cases hj : j' = j
    · rw [hj, Kernel.setVma_vmas_self]
      exact hperm
    · rw [hother u' i' j' hs' hj]
      exact h.perm u' i' j' hs'
  · intro u' i₁ i₂ j₁ j₂ h1 h2 hne n hn
    by_cases hj₁ : j₁ = j
    · subst hj₁
      obtain ⟨rfl, rfl⟩ := h.inj _ _ _ _ _ h1 hs
      have hj₂ : j₂ ≠ j₁ := fun he => hne (h.inj _ _ _ _ _ h1 (he ▸ h2)).2
      rw [Kernel.setVma_vmas_self] at hn
      rw [hother _ _ _ h2 hj₂]
      exact hdisj i₂ j₂ (Ne.symm hne) h2 n hn
    · rw [hother _ _ _ h1 hj₁] at hn
      by_cases hj₂ : j₂ = j
      · subst hj₂
        obtain ⟨rfl, rfl⟩ := h.inj _ _ _ _ _ h2 hs
        rw [Kernel.setVma_vmas_self]
        exact fun hv => hdisj i₁ j₁ hne h1 n hv hn
      · rw [hother _ _ _ h2 hj₂]
        exact h.disjoint _ _ _ _ _ h1 h2 hne n hn
  · intro u' n hu' hv
    rcases h.cover u' n hu' hv with hc | hc | ⟨i', j', hs', hp⟩
    · exact Or.inl hc
    · exact Or.inr (Or.inl hc)
    · refine Or.inr (Or.inr ⟨i', j', hs', ?_⟩)
      by_cases hj : j' = j
      · subst hj
        obtain ⟨rfl, rfl⟩ := h.inj _ _ _ _ _ hs' hs
        rw [Kernel.setVma_vmas_self]
        exact hcover n hv hp
      · rwa [hother _ _ _ hs' hj]

/-- A record that is in no array changes. -/
theorem setVma_unused (h : Spaces L s a) (hs : ∀ u i, s.slot u i ≠ some j) (v : Vma) :
    Spaces L (s.setVma j v) a := by
  have hother : ∀ u' i' j', s.slot u' i' = some j' → (s.setVma j v).vmas j' = s.vmas j' :=
    fun u' i' j' hs' => Kernel.setVma_vmas_of_ne fun he => hs u' i' (he ▸ hs')
  refine ⟨h.table, h.table_inj, h.live, h.bound, ?_, h.inj, ?_, ?_, ?_, ?_, h.leaf⟩
  · intro u' i' j' hs'
    rw [hother u' i' j' hs']
    exact h.used u' i' j' hs'
  · intro u' i' j' hs'
    rw [hother u' i' j' hs']
    exact h.ok u' i' j' hs'
  · intro u' i' j' hs'
    rw [hother u' i' j' hs']
    exact h.perm u' i' j' hs'
  · intro u' i₁ i₂ j₁ j₂ h1 h2 hne n hn
    rw [hother _ _ _ h1] at hn
    rw [hother _ _ _ h2]
    exact h.disjoint _ _ _ _ _ h1 h2 hne n hn
  · intro u' n hu' hv
    rcases h.cover u' n hu' hv with hc | hc | ⟨i', j', hs', hp⟩
    · exact Or.inl hc
    · exact Or.inr (Or.inl hc)
    · exact Or.inr (Or.inr ⟨i', j', hs', by rwa [hother _ _ _ hs']⟩)

/-- A record that is in no array joins one. -/
theorem setSlot (h : Spaces L s a) (hu : L u) (hi : i < VMA_SIZE) (hfree : s.slot u i = none)
    (hs : ∀ u i, s.slot u i ≠ some j) (hused : (s.vmas j).used = true) (hok : (s.vmas j).Ok)
    (hperm : (s.vmas j).perm.toNat < 1024)
    (hdisj : ∀ i' j', s.slot u i' = some j' → ∀ n, (s.vmas j).Pages n → ¬ (s.vmas j').Pages n) :
    Spaces L (s.setSlot u i (some j)) a := by
  -- an entry of the new arrays is the new one or an old one
  have hcase : ∀ {u' i' j'}, (s.setSlot u i (some j)).slot u' i' = some j' →
      (u' = u ∧ i' = i ∧ j' = j) ∨ (¬ (u' = u ∧ i' = i) ∧ s.slot u' i' = some j') := by
    intro u' i' j' hs'
    by_cases hc : u' = u ∧ i' = i
    · obtain ⟨rfl, rfl⟩ := hc
      rw [Kernel.setSlot_slot_self] at hs'
      exact Or.inl ⟨rfl, rfl, (Option.some.inj hs').symm⟩
    · rw [Kernel.setSlot_slot_of_ne hc] at hs'
      exact Or.inr ⟨hc, hs'⟩
  refine ⟨?_, ?_, ?_, ?_, ?_, ?_, ?_, ?_, ?_, ?_, ?_⟩
  · intro u' hu'
    rw [Kernel.setSlot_pagetable, Kernel.setSlot_root]
    exact h.table u' hu'
  · intro u₁ u₂ h1 h2 he
    rw [Kernel.setSlot_root] at he
    exact h.table_inj u₁ u₂ h1 h2 he
  · intro u' i' j' hs'
    rcases hcase hs' with ⟨rfl, -, -⟩ | ⟨-, hs'⟩
    · exact hu
    · exact h.live u' i' j' hs'
  · intro u' i' j' hs'
    rcases hcase hs' with ⟨-, rfl, -⟩ | ⟨-, hs'⟩
    · exact hi
    · exact h.bound u' i' j' hs'
  · intro u' i' j' hs'
    rcases hcase hs' with ⟨-, -, rfl⟩ | ⟨-, hs'⟩
    · exact hused
    · exact h.used u' i' j' hs'
  · intro u₁ i₁ u₂ i₂ j' h1 h2
    rcases hcase h1 with ⟨rfl, rfl, rfl⟩ | ⟨-, h1'⟩ <;>
      rcases hcase h2 with ⟨rfl, rfl, he⟩ | ⟨-, h2'⟩
    · exact ⟨rfl, rfl⟩
    · exact absurd h2' (hs _ _)
    · exact absurd (he ▸ h1') (hs _ _)
    · exact h.inj _ _ _ _ _ h1' h2'
  · intro u' i' j' hs'
    rcases hcase hs' with ⟨-, -, rfl⟩ | ⟨-, hs'⟩
    · exact hok
    · exact h.ok u' i' j' hs'
  · intro u' i' j' hs'
    rcases hcase hs' with ⟨-, -, rfl⟩ | ⟨-, hs'⟩
    · exact hperm
    · exact h.perm u' i' j' hs'
  · intro u' i₁ i₂ j₁ j₂ h1 h2 hne n hn
    rcases hcase h1 with ⟨rfl, rfl, rfl⟩ | ⟨-, h1'⟩ <;>
      rcases hcase h2 with ⟨hu2, hi2, hj2⟩ | ⟨-, h2'⟩
    · exact absurd hi2.symm hne
    · exact hdisj i₂ j₂ h2' n hn
    · subst hu2 hj2
      exact fun hp => hdisj i₁ j₁ h1' n hp hn
    · exact h.disjoint _ _ _ _ _ h1' h2' hne n hn
  · intro u' n hu' hv
    rw [Kernel.setSlot_root] at hv
    rcases h.cover u' n hu' hv with hc | hc | ⟨i', j', hs', hp⟩
    · exact Or.inl hc
    · exact Or.inr (Or.inl hc)
    · refine Or.inr (Or.inr ⟨i', j', ?_, hp⟩)
      rwa [Kernel.setSlot_slot_of_ne]
      rintro ⟨rfl, rfl⟩
      rw [hfree] at hs'
      cases hs'
  · intro u' n hu' hv
    rw [Kernel.setSlot_root] at hv ⊢
    exact h.leaf u' n hu' hv

/-- A vma without entries in the table leaves its array. -/
theorem clearSlot (h : Spaces L s a) (hs : s.slot u i = some j)
    (hcover : ∀ n, (s.vmas j).Pages n → ¬ Valid (a.leaf (s.root u) n)) :
    Spaces L (s.setSlot u i none) a := by
  have hcase : ∀ {u' i' j'}, (s.setSlot u i none).slot u' i' = some j' →
      ¬ (u' = u ∧ i' = i) ∧ s.slot u' i' = some j' := by
    intro u' i' j' hs'
    by_cases hc : u' = u ∧ i' = i
    · obtain ⟨rfl, rfl⟩ := hc
      rw [Kernel.setSlot_slot_self] at hs'
      cases hs'
    · rw [Kernel.setSlot_slot_of_ne hc] at hs'
      exact ⟨hc, hs'⟩
  refine ⟨?_, ?_, fun u' i' j' hs' => h.live u' i' j' (hcase hs').2,
    fun u' i' j' hs' => h.bound u' i' j' (hcase hs').2,
    fun u' i' j' hs' => h.used u' i' j' (hcase hs').2,
    fun _ _ _ _ _ h1 h2 => h.inj _ _ _ _ _ (hcase h1).2 (hcase h2).2,
    fun u' i' j' hs' => h.ok u' i' j' (hcase hs').2,
    fun u' i' j' hs' => h.perm u' i' j' (hcase hs').2,
    fun _ _ _ _ _ h1 h2 => h.disjoint _ _ _ _ _ (hcase h1).2 (hcase h2).2, ?_, ?_⟩
  · intro u' hu'
    rw [Kernel.setSlot_pagetable, Kernel.setSlot_root]
    exact h.table u' hu'
  · intro u₁ u₂ h1 h2 he
    rw [Kernel.setSlot_root] at he
    exact h.table_inj u₁ u₂ h1 h2 he
  · intro u' n hu' hv
    rw [Kernel.setSlot_root] at hv
    rcases h.cover u' n hu' hv with hc | hc | ⟨i', j', hs', hp⟩
    · exact Or.inl hc
    · exact Or.inr (Or.inl hc)
    · refine Or.inr (Or.inr ⟨i', j', ?_, hp⟩)
      rwa [Kernel.setSlot_slot_of_ne]
      rintro ⟨rfl, rfl⟩
      rw [hs] at hs'
      cases hs'
      exact hcover n hp hv
  · intro u' n hu' hv
    rw [Kernel.setSlot_root] at hv ⊢
    exact h.leaf u' n hu' hv

end Spaces

/-! ### Parts of a vma -/

/-- The range of pages that `uvm_unmap` takes out of the table. -/
def unmapRange (vma : Vma) (addr length : U64) : U64 × U64 :=
  if vma.length = length then (pgRoundDown addr, pgRoundUp (addr + length))
  else if addr = vma.start then (pgRoundDown addr, pgRoundDown (addr + length))
  else (pgRoundUp addr, pgRoundUp (addr + length))

/-- The memory after the entries of a range have been removed. -/
def Maps.unmapTo (a : Maps) (r : ℕ) (range : U64 × U64) : Maps :=
  a.unmap r (vpn range.1) true (vpn range.2 - vpn range.1)

/-- What `uvm_unmap` does to the pool and to the array. -/
def Kernel.unmapped (s : Kernel) (u : UvmPtr) (j : ℕ) (addr length : U64) : Kernel :=
  if (s.vmas j).length = length then
    (clearSlot s u j).setVma j { s.vmas j with used := false }
  else if addr = (s.vmas j).start then s.setVma j ((s.vmas j).dropFront length)
  else s.setVma j ((s.vmas j).dropTail length)

@[simp]
theorem Kernel.unmapped_io {s : Kernel} {u : UvmPtr} (phys phys' : Phys) (fs fs' : Fs) (j : ℕ)
    (addr length : U64) : ((s.io phys fs).unmapped u j addr length).io phys' fs' =
      (s.unmapped u j addr length).io phys' fs' := by
  unfold Kernel.unmapped
  by_cases hw : (s.vmas j).length = length
  · rw [if_pos hw, if_pos (show ((s.io phys fs).vmas j).length = length from hw)]
    rfl
  · rw [if_neg hw, if_neg (show ¬ ((s.io phys fs).vmas j).length = length from hw)]
    by_cases hf : addr = (s.vmas j).start
    · rw [if_pos hf, if_pos (show addr = ((s.io phys fs).vmas j).start from hf)]
      rfl
    · rw [if_neg hf, if_neg (show ¬ addr = ((s.io phys fs).vmas j).start from hf)]
      rfl

/-- `[addr, addr + length)` is a part of the vma at one of its ends. -/
structure Vma.End (v : Vma) (addr length : U64) : Prop where
  start_le : v.start.toNat ≤ addr.toNat
  lt_stop : addr.toNat < v.start.toNat + v.length.toNat
  stop_le : addr.toNat + length.toNat ≤ v.start.toNat + v.length.toNat
  mode : addr = v.start ∨ addr.toNat + length.toNat = v.start.toNat + v.length.toNat

instance (v : Vma) (addr length : U64) : Decidable (v.End addr length) :=
  decidable_of_iff (v.start.toNat ≤ addr.toNat ∧ addr.toNat < v.start.toNat + v.length.toNat ∧
      addr.toNat + length.toNat ≤ v.start.toNat + v.length.toNat ∧
      (addr = v.start ∨ addr.toNat + length.toNat = v.start.toNat + v.length.toNat))
    ⟨fun h => ⟨h.1, h.2.1, h.2.2.1, h.2.2.2⟩, fun h => ⟨h.start_le, h.lt_stop, h.stop_le, h.mode⟩⟩

namespace Vma.End

variable {v : Vma} {addr length : U64}

theorem whole (h : v.Ok) : v.End v.start v.length where
  start_le := le_rfl
  lt_stop := by
    have := h.pos
    omega
  stop_le := le_rfl
  mode := Or.inl rfl

theorem toNat_add (h : v.End addr length) (hv : v.Ok) :
    (addr + length).toNat = addr.toNat + length.toNat := by
  have h1 := h.stop_le
  have h2 := hv.stop_le
  rw [BitVec.toNat_add]
  omega

theorem range_of_whole (v : Vma) :
    unmapRange v v.start v.length = (pgRoundDown v.start, pgRoundUp v.stop) := if_pos rfl

theorem range_of_front (hne : v.length ≠ length) :
    unmapRange v v.start length = (pgRoundDown v.start, pgRoundDown (v.start + length)) := by
  rw [unmapRange, if_neg hne, if_pos rfl]

theorem range_of_tail (hne : v.length ≠ length) (hs : addr ≠ v.start) :
    unmapRange v addr length = (pgRoundUp addr, pgRoundUp (addr + length)) := by
  rw [unmapRange, if_neg hne, if_neg hs]

/-- What is left after the front is gone. -/
theorem dropFront_ok (h : v.End addr length) (hv : v.Ok) (hs : addr = v.start)
    (hne : v.length ≠ length) :
    (v.dropFront length).Ok ∧ (v.dropFront length).first = (v.start.toNat + length.toNat) / 4096 ∧
      (v.dropFront length).past = v.past := by
  have h1 := h.stop_le
  have h2 := hv.stop_le
  have h3 : v.length.toNat ≠ length.toNat := fun he => hne (BitVec.eq_of_toNat_eq he)
  rw [hs] at h1
  have hstart : (v.dropFront length).start.toNat = v.start.toNat + length.toNat := by
    rw [dropFront, BitVec.toNat_add]
    omega
  have hlen : (v.dropFront length).length.toNat = v.length.toNat - length.toNat := by
    rw [dropFront, BitVec.toNat_sub_of_le (BitVec.le_def.2 (by omega))]
  refine ⟨⟨?_, ?_⟩, ?_, ?_⟩
  · omega
  · omega
  · rw [first, hstart]
  · rw [past, past, hstart, hlen]
    omega

/-- What is left after the tail is gone. -/
theorem dropTail_ok (h : v.End addr length) (hv : v.Ok) (hs : addr ≠ v.start) :
    (v.dropTail length).Ok ∧ (v.dropTail length).first = v.first ∧
      (v.dropTail length).past = (addr.toNat + 4095) / 4096 := by
  have h1 := h.start_le
  have h2 := hv.stop_le
  have h3 : addr.toNat ≠ v.start.toNat := fun he => hs (BitVec.eq_of_toNat_eq he)
  have h4 := h.mode.resolve_left hs
  have hlen : (v.dropTail length).length.toNat = v.length.toNat - length.toNat := by
    rw [dropTail, BitVec.toNat_sub_of_le (BitVec.le_def.2 (by omega))]
  have hstart : (v.dropTail length).start = v.start := rfl
  refine ⟨⟨?_, ?_⟩, ?_, ?_⟩
  · omega
  · rw [hstart]
    omega
  · rw [first, first, hstart]
  · rw [past, hstart, hlen]
    omega

/-- The pages that are unmapped are pages of the vma. -/
theorem range_ok (h : v.End addr length) (hv : v.Ok) :
    ¬ badRange (unmapRange v addr length).1 (unmapRange v addr length).2 ∧
      v.first ≤ vpn (unmapRange v addr length).1 ∧ vpn (unmapRange v addr length).2 ≤ v.past := by
  have h1 := h.start_le
  have h2 := hv.stop_le
  have h3 := h.stop_le
  have h4 := h.toNat_add hv
  have h5 := h.lt_stop
  have hd := toNat_pgRoundDown addr
  have hu := toNat_pgRoundUp addr
  have hd' := toNat_pgRoundDown (addr + length)
  have hu' := toNat_pgRoundUp (addr + length)
  unfold unmapRange
  split_ifs with hw hs <;> refine ⟨GoodRange.not_bad ⟨?_, ?_, ?_, ?_⟩, ?_, ?_⟩ <;>
    simp only [first, past, vpn] <;> omega

end Vma.End

theorem Vma.End.has {v : Vma} {addr length : U64} (h : v.End addr length) (hv : v.Ok) :
    v.has addr = true := (hv.has_iff addr).2 ⟨h.start_le, h.lt_stop⟩

theorem Vma.End.stop {v : Vma} {addr length : U64} (h : v.End addr length) (hv : v.Ok)
    (hs : addr ≠ v.start) : addr + length = v.stop := by
  apply BitVec.eq_of_toNat_eq
  rw [h.toNat_add hv, hv.toNat_stop]
  exact h.mode.resolve_left hs

namespace Spaces

variable {L : UvmPtr → Prop} {s : Kernel} {a : Maps} {u : UvmPtr} {i j : ℕ}

/-- Looking an address of a vma up finds the vma. -/
theorem va2vma (h : Spaces L s a) (hs : s.slot u i = some j) {va : U64}
    (hva : (s.vmas j).has va = true) : uvmVa2vma s u va = some j := by
  rcases hj : uvmVa2vma s u va with _ | j'
  · rw [uvmVa2vma_none hj (h.bound u i j hs) hs] at hva
    cases hva
  · obtain ⟨i', hs', hva'⟩ := uvmVa2vma_some hj
    by_cases hi : i' = i
    · rw [hi, hs] at hs'
      exact hs'.symm
    · exact absurd ((h.ok u i j hs).pages_of_has hva)
        (h.disjoint u i' i j' j hs' hs hi _ ((h.ok u i' j' hs').pages_of_has hva'))

/-- `clearEntry` finds the entry of a record. -/
theorem clearSlot_eq (h : Spaces L s a) (hs : s.slot u i = some j) :
    Xv6.clearSlot s u j = s.setSlot u i none := by
  have hfind : (List.range VMA_SIZE).find? (fun i => (s.uvms u).vma i = some j) = some i := by
    rcases hf : (List.range VMA_SIZE).find? fun i => (s.uvms u).vma i = some j with _ | i'
    · have := List.find?_eq_none.1 hf i (List.mem_range.2 (h.bound u i j hs))
      rw [decide_eq_true_iff] at this
      exact absurd hs this
    · have hi' := List.find?_some hf
      rw [decide_eq_true_iff] at hi'
      rw [(h.inj u i' u i j hi' hs).2]
  rw [Xv6.clearSlot, clearEntry, hfind]
  rfl

theorem unmapped_root (h : Spaces L s a) (hs : s.slot u i = some j) {addr length : U64} :
    (s.unmapped u j addr length).root = s.root := by
  unfold Kernel.unmapped
  split_ifs
  · rw [Kernel.setVma_root, h.clearSlot_eq hs, Kernel.setSlot_root]
  · rfl
  · rfl

/-- What is left of the vmas: `j` is gone, or a part of it. -/
theorem unmapped_slot (h : Spaces L s a) (hs : s.slot u i = some j) {addr length : U64}
    {u' : UvmPtr} {i' k : ℕ} (hk : (s.unmapped u j addr length).slot u' i' = some k) :
    s.slot u' i' = some k ∧ ((k ≠ j ∧ (s.unmapped u j addr length).vmas k = s.vmas k) ∨
      (k = j ∧ (s.vmas j).length ≠ length ∧
        ((addr = (s.vmas j).start ∧
            (s.unmapped u j addr length).vmas k = (s.vmas j).dropFront length) ∨
          addr ≠ (s.vmas j).start ∧
            (s.unmapped u j addr length).vmas k = (s.vmas j).dropTail length))) := by
  unfold Kernel.unmapped at hk ⊢
  by_cases hw : (s.vmas j).length = length
  · rw [if_pos hw] at hk ⊢
    rw [h.clearSlot_eq hs, Kernel.setVma_slot] at hk
    by_cases hui : u' = u ∧ i' = i
    · rw [hui.1, hui.2, Kernel.setSlot_slot_self] at hk
      cases hk
    · rw [Kernel.setSlot_slot_of_ne hui] at hk
      have hkj : k ≠ j := fun he => hui (h.inj _ _ _ _ _ (he ▸ hk) hs)
      exact ⟨hk, Or.inl ⟨hkj, Kernel.setVma_vmas_of_ne hkj⟩⟩
  rw [if_neg hw] at hk ⊢
  by_cases hf : addr = (s.vmas j).start
  · rw [if_pos hf] at hk ⊢
    refine ⟨hk, ?_⟩
    by_cases hkj : k = j
    · exact Or.inr ⟨hkj, hw, Or.inl ⟨hf, hkj ▸ Kernel.setVma_vmas_self⟩⟩
    · exact Or.inl ⟨hkj, Kernel.setVma_vmas_of_ne hkj⟩
  · rw [if_neg hf] at hk ⊢
    refine ⟨hk, ?_⟩
    by_cases hkj : k = j
    · exact Or.inr ⟨hkj, hw, Or.inr ⟨hf, hkj ▸ Kernel.setVma_vmas_self⟩⟩
    · exact Or.inl ⟨hkj, Kernel.setVma_vmas_of_ne hkj⟩

/-- A whole vma, its front or its tail is unmapped. -/
theorem unmapEnd (h : Spaces L s a) (hs : s.slot u i = some j) {addr length : U64}
    (he : (s.vmas j).End addr length) :
    Spaces L (s.unmapped u j addr length)
      (a.unmapTo (s.root u) (unmapRange (s.vmas j) addr length)) := by
  have hok := h.ok u i j hs
  have hsp : Spaces L s (a.unmapTo (s.root u) (unmapRange (s.vmas j) addr length)) :=
    h.unmap _ _ _ _
  have hgone : ∀ n, vpn (unmapRange (s.vmas j) addr length).1 ≤ n →
      n < vpn (unmapRange (s.vmas j) addr length).2 →
      ¬ Valid ((a.unmapTo (s.root u) (unmapRange (s.vmas j) addr length)).leaf (s.root u) n) :=
    fun n h1 h2 => a.unmap_not_valid true h1 (by omega)
  rw [Kernel.unmapped]
  by_cases hw : (s.vmas j).length = length
  · -- the record leaves the array
    rw [if_pos hw]
    obtain rfl : addr = (s.vmas j).start := by
      have h1 := he.start_le
      have h2 := he.stop_le
      rw [← hw] at h2
      exact BitVec.eq_of_toNat_eq (by omega)
    subst hw
    rw [h.clearSlot_eq hs]
    refine (hsp.clearSlot hs fun n hn => ?_).setVma_unused (fun u' i' hs' => ?_) _
    · refine hgone n ?_ ?_
      · rw [Vma.End.range_of_whole, Vma.vpn_start]
        exact hn.1
      · rw [Vma.End.range_of_whole, hok.vpn_stop]
        exact hn.2
    · by_cases hc : u' = u ∧ i' = i
      · rw [hc.1, hc.2, Kernel.setSlot_slot_self] at hs'
        cases hs'
      · rw [Kernel.setSlot_slot_of_ne hc] at hs'
        exact hc (h.inj _ _ _ _ _ hs' hs)
  rw [if_neg hw]
  by_cases hf : addr = (s.vmas j).start
  · rw [if_pos hf]
    subst hf
    obtain ⟨hok', hfirst, hpast⟩ := he.dropFront_ok hok rfl hw
    refine hsp.setVma hs (h.used u i j hs) hok' (h.perm u i j hs) ?_ ?_
    · intro i' j' hne hs' n hn
      refine h.disjoint u i i' j j' hs hs' (Ne.symm hne) n ⟨?_, ?_⟩
      · have := hn.1
        rw [hfirst] at this
        rw [Vma.first]
        omega
      · exact hpast ▸ hn.2
    · intro n hv hn
      refine ⟨?_, hpast ▸ hn.2⟩
      by_contra hlt
      refine hgone n ?_ ?_ hv
      · rw [Vma.End.range_of_front hw, Vma.vpn_start]
        exact hn.1
      · rw [Vma.End.range_of_front hw, vpn, toNat_pgRoundDown, he.toNat_add hok]
        omega
  · rw [if_neg hf]
    obtain ⟨hok', hfirst, hpast⟩ := he.dropTail_ok hok hf
    have hlt := he.lt_stop
    have hstop := hok.stop_le
    refine hsp.setVma hs (h.used u i j hs) hok' (h.perm u i j hs) ?_ ?_
    · intro i' j' hne hs' n hn
      refine h.disjoint u i i' j j' hs hs' (Ne.symm hne) n ⟨hfirst ▸ hn.1, ?_⟩
      have := hn.2
      rw [hpast] at this
      rw [Vma.past]
      omega
    · intro n hv hn
      refine ⟨hfirst.symm ▸ hn.1, ?_⟩
      by_contra hge
      refine hgone n ?_ ?_ hv
      · rw [Vma.End.range_of_tail hw hf, vpn, toNat_pgRoundUp]
        omega
      · rw [Vma.End.range_of_tail hw hf, vpn, toNat_pgRoundUp, he.toNat_add hok,
          he.mode.resolve_left hf]
        have := hn.2
        rw [Vma.past] at this
        omega

end Spaces

end Xv6
