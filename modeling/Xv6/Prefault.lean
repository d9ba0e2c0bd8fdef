import Xv6.SharedBack

/-!
# The pages that `sys_write` completes

`sys_write` completes the pages of its buffer before it calls `filewrite`, so that no copy from the
buffer faults on a file later, under a spinlock or with an inode locked.  The loop tests an entry
for `PTE_V` and `PTE_R`, `copyin` tests it for `PTE_V` and `PTE_U`; what both agree on is that the
page has a valid entry (`Kernel.Entered`).  At such a page `copyin` finds the page, or is refused,
and changes nothing.
-/

namespace Xv6

open Bytes Wp Run

/-! ### Pages with an entry -/

/-- The page of `va` has a valid entry, with a page. -/
def Kernel.Entered (s : Kernel) (u : UvmPtr) (va : U64) : Prop :=
  ∃ w, entryAt (s.uvms u).pagetable va s.phys = .ok (w, s.phys) ∧ Valid w ∧ pte2pa w ≠ 0

/-- What happened from `t` to `t'` left the valid entries of `u` as they were. -/
def StillMapped (u : UvmPtr) (t t' : Kernel) : Prop :=
  ∀ va w, entryAt (t.uvms u).pagetable va t.phys = .ok (w, t.phys) → Valid w →
    entryAt (t'.uvms u).pagetable va t'.phys = .ok (w, t'.phys)

/-- Every page of `[srcva, srcva + len)` below `MAXVA` has an entry. -/
def Kernel.Covered (s : Kernel) (u : UvmPtr) (srcva : U64) (len : ℕ) : Prop :=
  ∀ va : U64, va.toNat % 4096 = 0 → va < MAXVA → 0 < len → srcva.toNat < va.toNat + 4096 →
    va.toNat < srcva.toNat + len → s.Entered u va

section

variable {s t : Kernel} {u : UvmPtr} {va srcva : U64} {len : ℕ}

theorem Kernel.Entered.still (h : s.Entered u va) (hst : StillMapped u s t) : t.Entered u va := by
  obtain ⟨w, hw, hv, h0⟩ := h
  exact ⟨w, hst va w hw hv, hv, h0⟩

theorem Kernel.Covered.still (h : s.Covered u srcva len) (hst : StillMapped u s t) :
    t.Covered u srcva len := fun va hal hva h0 hlo hhi => (h va hal hva h0 hlo hhi).still hst

/-- A walk that allocates comes to the entry that a walk without allocation finds. -/
theorem pgtWalkFrom_of_find {x : U64} {p : Phys} {level : ℕ} {pagetable : U64}
    (h : pgtWalkFrom va false level pagetable p = .ok (some x, p)) :
    pgtWalkFrom va true level pagetable p = .ok (some x, p) := by
  induction level generalizing pagetable with
  | zero => exact h
  | succ level ih =>
    unfold pgtWalkFrom at h ⊢
    dsimp only at h ⊢
    cases hload : loadPte (pteAddr pagetable (px (level + 1) va)) p with
    | error e => cases (bind_of_error hload).symm.trans h
    | ok r =>
      obtain ⟨pte, q⟩ := r
      obtain rfl := loadPte_ok hload
      rw [bind_of_ok hload] at h ⊢
      by_cases hv : pte &&& PTE_V ≠ 0
      · rw [if_pos hv] at h ⊢
        exact ih h
      · rw [if_neg hv, if_pos (by rfl)] at h
        cases h

/-- A valid entry lies below `MAXVA`, and a walk comes to it. -/
theorem Kernel.Entered.walk (h : s.Entered u va) : va < MAXVA ∧ ∃ x w,
    pgtWalk (s.uvms u).pagetable va false s.phys = .ok (some x, s.phys) ∧
      pgtWalk (s.uvms u).pagetable va true s.phys = .ok (some x, s.phys) ∧
      loadPte x s.phys = .ok (w, s.phys) ∧ Valid w ∧ pte2pa w ≠ 0 := by
  obtain ⟨w, hw, hv, h0⟩ := h
  have hva : va < MAXVA := by
    by_contra hno
    cases (bind_of_error (pgtWalk_panics (BitVec.not_lt.1 hno) s.phys)).symm.trans hw
  have hw' := hw
  unfold entryAt at hw'
  cases hwalk : pgtWalk (s.uvms u).pagetable va false s.phys with
  | error e => cases (bind_of_error hwalk).symm.trans hw'
  | ok r =>
    obtain ⟨res, q⟩ := r
    obtain rfl : q = s.phys := ((readsPhys_pgtWalk _ _).start _).ok hwalk
    rw [bind_of_ok hwalk] at hw'
    rcases res with _ | x
    · cases hw'
      exact absurd hv (by decide)
    · refine ⟨hva, x, w, rfl, ?_, hw', hv, h0⟩
      unfold pgtWalk panicIf at hwalk ⊢
      rw [if_neg (BitVec.not_le.2 hva)] at hwalk ⊢
      exact pgtWalkFrom_of_find hwalk

/-! ### Copies -/

variable [Layout]

/-- `copyin` gets the page that `pgt_getpa` finds, or is refused, and nothing changes. -/
structure Lookup (s : Kernel) (u : UvmPtr) (va pa : U64) : Prop where
  page : copyinPage u va s = .ok (pa, s)
  getpa : pgtGetpa (s.uvms u).pagetable va s.phys = .ok (pa, s.phys)

/-- At a page with an entry. -/
theorem Kernel.Entered.lookup (h : s.Entered u va) : ∃ pa, Lookup s u va pa := by
  obtain ⟨hva, x, w, hfind, halloc, hload, hv, h0⟩ := h.walk
  have hgetpa : pgtGetpa (s.uvms u).pagetable va s.phys =
      .ok (if w &&& PTE_U = 0 then 0 else pte2pa w, s.phys) := by
    unfold pgtGetpa
    rw [if_neg (BitVec.not_le.2 hva), bind_of_ok hfind]
    dsimp only
    rw [bind_of_ok hload]
    by_cases hU : w &&& PTE_U = 0
    · rw [if_pos (Or.inr hU), if_pos hU]
      rfl
    · rw [if_neg (not_or.2 ⟨hv, hU⟩), if_neg hU]
      rfl
  refine ⟨_, ?_, hgetpa⟩
  have hlift := liftP_of_ok (s := s) hgetpa
  refine (bind_of_ok (a := s) (t := s) rfl).trans ((bind_of_ok hlift).trans ?_)
  by_cases hU : w &&& PTE_U = 0
  · -- a page that is not the user's
    rw [if_pos hU, if_pos rfl]
    unfold uvmCompletemap
    by_cases hal : va % PGSIZE ≠ 0 ∨ MAXVA ≤ va
    · rw [if_pos hal]
      rfl
    rw [if_neg hal]
    refine (bind_of_ok (a := s) (t := s) rfl).trans ?_
    rcases uvmVa2vma s u va with _ | j
    · rfl
    dsimp only
    by_cases hp : (s.vmas j).perm.setWidth 64 &&& PTE_R = 0
    · rw [if_pos hp]
      rfl
    rw [if_neg hp]
    refine (bind_of_ok (liftP_of_ok (s := s) halloc)).trans ?_
    refine (bind_of_ok (liftP_of_ok (s := s) hload)).trans ?_
    rw [if_neg hv, if_pos hU]
    rfl
  · rw [if_neg hU, if_neg h0]
    rfl

/-- At a page from `MAXVA` on. -/
theorem lookup_high (s : Kernel) (u : UvmPtr) (hva : MAXVA ≤ va) : Lookup s u va 0 := by
  have hgetpa : pgtGetpa (s.uvms u).pagetable va s.phys = .ok (0, s.phys) := by
    unfold pgtGetpa
    rw [if_pos hva]
    rfl
  refine ⟨?_, hgetpa⟩
  have hlift := liftP_of_ok (s := s) hgetpa
  refine (bind_of_ok (a := s) (t := s) rfl).trans ((bind_of_ok hlift).trans ?_)
  rw [if_pos rfl]
  unfold uvmCompletemap
  rw [if_pos (Or.inr hva)]
  rfl

/-! ### Writers -/

/-! ### The loop of `sys_write` -/

variable {own : ℕ → Owner} {a : Maps} {r : ℕ}

/-- The table of `u` is represented, and the valid entries of `a` are in it. -/
structure HoldsEntries (u : UvmPtr) (r : ℕ) (a : Maps) (own : ℕ → Owner) (t : Kernel) (b : Maps) :
    Prop where
  rep : Rep own t.phys b
  table : (t.uvms u).pagetable = pageAddr r
  root : b.root r
  keeps : ∀ v, Valid (a.leaf r v) → b.leaf r v = a.leaf r v

/-- A fault for a load adds an entry, or nothing. -/
theorem Completes.load {v : ℕ} {perm ret : U64} {fill : (ℕ → Byte) → Prop} {b : Maps} {p : Phys}
    (h : Completes a r v perm fill ret b) (hrep : Rep own p a) (hv : Valid (a.leaf r v) → ret = 0) :
    b.root = a.root ∧ (∀ w, Valid (a.leaf r w) → b.leaf r w = a.leaf r w) ∧
      (ret ≠ 0 → Valid (b.leaf r v) ∧ pte2pa (b.leaf r v) ≠ 0) := by
  cases h with
  | refused => exact ⟨rfl, fun _ _ => rfl, fun h0 => absurd rfl h0⟩
  | single hv' hu hp =>
    have h0 := hv hv'
    rw [pte2pa_eq_pageAddr] at h0
    exact absurd h0 (hrep.allocatable hp).pageAddr_ne_zero
  | copied hv' hu hp h1 hg => exact absurd (hv hv') hg.pageAddr_ne_zero
  | @fresh g d hinv hg hpage hd =>
    refine ⟨rfl, fun w hw => ?_, fun _ => ?_⟩
    · refine Maps.setLeaf_leaf_of_ne _ _ fun h => hinv ?_
      rwa [← h.2]
    · rw [Maps.setLeaf_leaf_self]
      refine ⟨or_and_ne_left (or_and_ne_right _ (by decide)) _, ?_⟩
      refine pte2pa_or_ne_zero (pte2pa_or_ne_zero (pte2pa_or_ne_zero ?_ _) _) _
      rw [pte2pa_pa2pte hg.lt]
      exact hg.pageAddr_ne_zero

/-- A page is completed for reading: the valid entries stay, and the page that is returned has
one. -/
theorem uvmGuaranteecomplete_spec (h : HoldsEntries u r a own s a) (va : U64) :
    wp (uvmGuaranteecomplete u va PTE_R) (fun _ => True) (fun ret t => ∃ own' b,
      HoldsEntries u r a own' t b ∧ (ret ≠ 0 → va < MAXVA ∧ Valid (b.leaf r (vpn va)) ∧
        pte2pa (b.leaf r (vpn va)) ≠ 0)) s := by
  have hfault : va < MAXVA → wp (uvmCompletemap u va PTE_R) (fun _ => True) (fun ret t => ∃ own' b,
      HoldsEntries u r a own' t b ∧ (ret ≠ 0 → va < MAXVA ∧ Valid (b.leaf r (vpn va)) ∧
        pte2pa (b.leaf r (vpn va)) ≠ 0)) s := by
    intro hva
    refine (uvmCompletemap_spec h.rep h.table h.root (fun _ _ hw => absurd hw (by decide))
      (fun _ _ => trivial) trivial fun _ _ _ _ _ _ _ => trivial).mono fun ret t ht => ?_
    rcases ht with ⟨rfl, rfl⟩ | ⟨j, phys, fs, own', b, -, -, -, -, rfl, hrep, -, hc, hw⟩
    · exact ⟨own, a, h, fun h0 => absurd rfl h0⟩
    obtain ⟨hroot, hkeep, hnew⟩ := hc.load h.rep fun hv => by
      by_contra h0
      exact absurd (hw hv h0) (by decide)
    exact ⟨own', b, ⟨hrep, h.table, hroot ▸ h.root, hkeep⟩, fun h0 => ⟨hva, hnew h0⟩⟩
  rw [uvmGuaranteecomplete, wp_bind, wp_get, h.table]
  refine wp_entry h.rep h.root (fun _ => trivial) (fun hva _ => hfault hva) fun hva => ?_
  rw [wp_ite]
  split_ifs with hc
  · exact hfault hva
  · exact ⟨own, a, h, fun h0 => ⟨hva, (not_or.1 hc).1, h0⟩⟩

/-- The loop leaves an entry for every page it has come to. -/
theorem prefault_entered (h : HoldsEntries u r a own s a) (x e : U64) :
    wp (prefault u x e) (fun _ => True) (fun ok t => ok = true →
      ∀ k < pagesIn x e, t.Entered u (pageNo x k)) s := by
  rw [prefault, wp_bind]
  let I : ℕ → Kernel → Prop := fun n t => ∃ own' b, HoldsEntries u r b own' t b ∧ ∀ k < n,
    pageNo x k < MAXVA ∧ Valid (b.leaf r (vpn (pageNo x k))) ∧
      pte2pa (b.leaf r (vpn (pageNo x k))) ≠ 0
  refine (wp_loopWhile I (fun _ _ => True) ⟨own, a, h, fun k hk => absurd hk (by omega)⟩
    fun n t _ _ ht => ?_).mono fun res t ht => ?_
  · obtain ⟨own', b, hb, hpages⟩ := ht
    rw [wp_bind]
    refine (uvmGuaranteecomplete_spec hb (pageNo x n)).mono fun ret t' ht' => ?_
    obtain ⟨own'', c, hc, hret⟩ := ht'
    rw [wp_pure]
    split_ifs with h0
    · refine ⟨own'', c, ⟨hc.rep, hc.table, hc.root, fun _ _ => rfl⟩, fun k hk => ?_⟩
      rcases Nat.lt_succ_iff_lt_or_eq.1 hk with hk | rfl
      · obtain ⟨hlt, hv, hp⟩ := hpages k hk
        rw [hc.keeps _ hv]
        exact ⟨hlt, hv, hp⟩
      · exact hret (by simpa using h0)
  · rcases res with _ | j
    · intro _ k hk
      obtain ⟨own', b, hb, hpages⟩ := ht
      obtain ⟨hlt, hv, hp⟩ := hpages k (by omega)
      refine ⟨_, ?_, hv, hp⟩
      rw [hb.table]
      exact hb.rep.entryAt_eq hb.root hlt
    · exact fun h => by cases h

/-- A loop that completes has covered the buffer; if `p + n` wraps, or `n` is negative, there is
nothing to cover. -/
theorem prefault_covers (h : HoldsEntries u r a own s a) {p : U64} {n : U32}
    (hrun : prefault u (pgRoundDown p) (p + n.signExtend 64) s = .ok (true, t)) :
    t.Covered u p n.toInt.toNat := by
  have hentered := (prefault_entered h (pgRoundDown p) (p + n.signExtend 64)).ok hrun rfl
  intro va hal hva h0 hlo hhi
  have hM : MAXVA.toNat = 2 ^ 38 := by decide
  rw [BitVec.lt_def, hM] at hva
  have hn : n.toNat < 2 ^ 31 ∧ n.toInt.toNat = n.toNat := by
    have := (toInt_pos_iff n).1 (by omega)
    have := BitVec.toInt_eq_toNat_of_lt (x := n) (by omega)
    omega
  have hdown := toNat_pgRoundDown p
  have hstop : (p + n.signExtend 64).toNat = p.toNat + n.toNat := by
    rw [BitVec.toNat_add, toNat_signExtend, if_pos hn.1]
    omega
  have hk : (va.toNat - (pgRoundDown p).toNat) / 4096 <
      pagesIn (pgRoundDown p) (p + n.signExtend 64) := by
    unfold pagesIn
    omega
  have hpage : pageNo (pgRoundDown p) ((va.toNat - (pgRoundDown p).toNat) / 4096) = va := by
    apply BitVec.eq_of_toNat_eq
    rw [toNat_pageNo_of_le] <;> omega
  exact hpage ▸ hentered _ hk

/-! ### Between the copies -/

namespace Writing

variable {i k : ℕ} {p : U64} {n : U32} {s x : SpaceSys} {y : Kernel}

end Writing

end

attribute [local instance] imageLayout

/-- A process maps a file. -/
def mapRun : List SpaceEvent :=
  [.frame, .new (.proc 0) 0x80030, .map (.proc 0) 0x1000 4096 6 MAP_PRIVATE (some 0) 0 1]

theorem mapRun_reach {s₀ s : SpaceSys} (hs : runs SpaceSys.step mapRun s₀ = some s) :
    Reach SpaceSys.step PlainMaps s₀ s := by
  refine reach_of_runs (fun e he t => ?_) hs
  simp only [mapRun, List.mem_cons, List.not_mem_nil, or_false] at he
  rcases he with rfl | rfl | rfl
  · trivial
  · trivial
  · exact ⟨by decide, by decide, by decide, by decide⟩

end Xv6
