import Xv6.FaultFile

/-!
# Pages that are there or are completed

`uvm_guaranteecomplete`, and `copyout` with the same lines, look an entry up.  If it is valid and
has the permission wanted, the page is there; else `uvm_completemap` completes it or refuses it.
`PageReady` says this of one page and `PagesReady` of a list of pages, one after the other; so the
pre-faulting of `sys_write` gets through exactly if the pages of its range are ready
(`prefault_iff`).
-/

namespace Xv6

open Bytes Wp

/-! ### Looking up a page -/

/-- The same memory. -/
def SamePhys (p q : Phys) : Prop := q = p

instance : Std.Refl SamePhys := ⟨fun _ => rfl⟩

instance : IsTrans Phys SamePhys := ⟨fun _ _ _ h h' => h'.trans h⟩

/-- Code that reads memory and does not sleep. -/
abbrev ReadsPhys {α : Type} (m : P α) : Prop := Keeps (· ≠ .sleep) SamePhys m

theorem ReadsPhys.noSleep {α : Type} {m : P α} (h : ReadsPhys m) :
    Keeps (· ≠ .sleep) (fun _ _ => True) m := ⟨fun p => (h.start p).mono fun _ _ _ => trivial⟩

theorem readsPhys_frame (a : U64) : ReadsPhys (frame a) := .ite (.pure _) (.throw (by simp))

theorem readsPhys_loadPte (a : U64) : ReadsPhys (loadPte a) :=
  .bind (readsPhys_frame a) fun _ => .bind .get fun _ => .pure _

theorem readsPhys_readBytes (a : U64) (n : ℕ) : ReadsPhys (readBytes a n) :=
  .bind (readsPhys_frame a) fun _ => .bind .get fun _ => .pure _

theorem readBytes_length {a : U64} {n : ℕ} {bs : List Byte} {p p' : Phys}
    (h : readBytes a n p = .ok (bs, p')) :
    bs.length = n := by
  have hw : wp (readBytes a n) (fun _ => True) (fun bs _ => bs.length = n) p := by
    unfold readBytes
    simp only [wp_bind, wp_get, wp_pure, List.length_map, List.length_range]
    exact wp_true _ _
  exact hw.ok h

theorem readsPhys_pgtWalkFrom (va : U64) (level : ℕ) (pagetable : U64) :
    ReadsPhys (pgtWalkFrom va false level pagetable) := by
  induction level generalizing pagetable with
  | zero => exact .pure _
  | succ level ih =>
    refine .bind (readsPhys_loadPte _) fun pte => .ite (ih _) ?_
    rw [if_pos (by rfl)]
    exact .pure _

theorem readsPhys_pgtWalk (pagetable va : U64) : ReadsPhys (pgtWalk pagetable va false) :=
  .bind (keeps_panicIf (by simp)) fun _ => readsPhys_pgtWalkFrom _ _ _

theorem readsPhys_pgtGetpa (pagetable va : U64) : ReadsPhys (pgtGetpa pagetable va) := by
  refine .ite (.pure _) (.bind (readsPhys_pgtWalk _ _) fun r => ?_)
  cases r with
  | none => exact .pure _
  | some a => exact .bind (readsPhys_loadPte a) fun _ => .ite (.pure _) (.pure _)

/-- The entry for `va` that a walk of the page table finds. -/
def entryAt (pagetable va : U64) : P U64 := do
  match ← pgtWalk pagetable va false with
  | none => return 0
  | some a => loadPte a

theorem readsPhys_entryAt (pagetable va : U64) : ReadsPhys (entryAt pagetable va) := by
  refine .bind (readsPhys_pgtWalk _ _) fun r => ?_
  cases r with
  | none => exact .pure _
  | some a => exact readsPhys_loadPte a

/-- A walk finds the entry that is represented. -/
theorem Rep.entryAt_eq [Layout] {own : ℕ → Owner} {a : Maps} {p : Phys} {r : ℕ} (h : Rep own p a)
    (hr : a.root r) {va : U64} (hva : va < MAXVA) :
    entryAt (pageAddr r) va p = .ok (a.leaf r (vpn va), p) := by
  have hentry : wp (entryAt (pageAddr r) va) (fun _ => False)
      (fun w t => w = a.leaf r (vpn va) ∧ t = p) p := by
    rw [entryAt, wp_bind]
    refine (pgtWalk_find h hr hva).mono fun res t ht => ?_
    obtain ⟨rfl, hres⟩ := ht
    rcases res with _ | x
    · exact ⟨hres.symm, rfl⟩
    · rw [loadPte_slot h hres]
      exact ⟨rfl, rfl⟩
  obtain ⟨w, t, hrun, rfl, rfl⟩ := hentry.exists_ok
  exact hrun

/-! ### One page -/

section

variable [Layout] {u : UvmPtr} {perm va w : U64} {s t : Kernel}

/-- An access with `perm` to the page `va` finds the page, or the page is completed. -/
inductive PageReady (u : UvmPtr) (perm va : U64) (s : Kernel) : Kernel → Prop
  | there {w : U64} (hw : entryAt (s.uvms u).pagetable va s.phys = .ok (w, s.phys)) (hv : Valid w)
      (hp : w &&& perm ≠ 0) (h0 : pte2pa w ≠ 0) : PageReady u perm va s s
  | completed {w pa : U64} {t : Kernel}
      (hw : entryAt (s.uvms u).pagetable va s.phys = .ok (w, s.phys))
      (hno : ¬ (Valid w ∧ w &&& perm ≠ 0)) (hrun : uvmCompletemap u va perm s = .ok (pa, t))
      (hpa : pa ≠ 0) : PageReady u perm va s t

/-- The page is neither there nor completed: the access is not allowed, or there is no memory.  Page
0 counts as no page. -/
def Refused (u : UvmPtr) (perm va : U64) (s : Kernel) : Prop :=
  ∃ w, entryAt (s.uvms u).pagetable va s.phys = .ok (w, s.phys) ∧
    (Valid w ∧ w &&& perm ≠ 0 ∧ pte2pa w = 0 ∨
      ¬ (Valid w ∧ w &&& perm ≠ 0) ∧ ∃ t, uvmCompletemap u va perm s = .ok (0, t))

/-- `uvm_guaranteecomplete` goes by the entry. -/
theorem uvmGuaranteecomplete_of_entry
    (hw : entryAt (s.uvms u).pagetable va s.phys = .ok (w, s.phys)) :
    uvmGuaranteecomplete u va perm s =
      if Valid w ∧ w &&& perm ≠ 0 then .ok (pte2pa w, s) else uvmCompletemap u va perm s := by
  unfold uvmGuaranteecomplete
  rw [bind_of_ok (a := s) (t := s) rfl]
  unfold entryAt at hw
  cases hwalk : pgtWalk (s.uvms u).pagetable va false s.phys with
  | error e => cases (bind_of_error hwalk).symm.trans hw
  | ok r =>
    obtain ⟨res, q⟩ := r
    obtain rfl : q = s.phys := ((readsPhys_pgtWalk _ _).start _).ok hwalk
    rw [bind_of_ok hwalk] at hw
    rw [bind_of_ok (liftP_of_ok hwalk)]
    rcases res with _ | x
    · cases hw
      exact (if_neg fun h => absurd h.1 (by decide)).symm
    · dsimp only at hw ⊢
      rw [bind_of_ok (liftP_of_ok (s := s.io s.phys s.fs) hw)]
      by_cases hv : Valid w ∧ w &&& perm ≠ 0
      · rw [if_pos hv, if_neg (not_or.2 ⟨hv.1, hv.2⟩)]
        rfl
      · rw [if_neg hv, if_pos (by rwa [Valid, Ne, Ne, not_and_or, not_not, not_not] at hv)]
        rfl

theorem uvmGuaranteecomplete_of_error {e : Stop}
    (hw : entryAt (s.uvms u).pagetable va s.phys = .error e) :
    uvmGuaranteecomplete u va perm s = .error e := by
  unfold uvmGuaranteecomplete
  rw [bind_of_ok (a := s) (t := s) rfl]
  unfold entryAt at hw
  cases hwalk : pgtWalk (s.uvms u).pagetable va false s.phys with
  | error e' =>
    rw [bind_of_error hwalk] at hw
    rw [bind_of_error (liftP_of_error hwalk), Except.error.inj hw]
  | ok r =>
    obtain ⟨res, q⟩ := r
    obtain rfl : q = s.phys := ((readsPhys_pgtWalk _ _).start _).ok hwalk
    rw [bind_of_ok hwalk] at hw
    rw [bind_of_ok (liftP_of_ok hwalk)]
    rcases res with _ | x
    · cases hw
    · exact bind_of_error (liftP_of_error (s := s.io s.phys s.fs) hw)

/-- What `uvm_guaranteecomplete` returns comes from the entry or from `uvm_completemap`. -/
theorem uvmGuaranteecomplete_cases {pa : U64}
    (hrun : uvmGuaranteecomplete u va perm s = .ok (pa, t)) :
    ∃ w, entryAt (s.uvms u).pagetable va s.phys = .ok (w, s.phys) ∧
      ((Valid w ∧ w &&& perm ≠ 0) ∧ pa = pte2pa w ∧ t = s ∨
        ¬ (Valid w ∧ w &&& perm ≠ 0) ∧ uvmCompletemap u va perm s = .ok (pa, t)) := by
  cases hw : entryAt (s.uvms u).pagetable va s.phys with
  | error e => cases (uvmGuaranteecomplete_of_error hw).symm.trans hrun
  | ok r =>
    obtain ⟨w, q⟩ := r
    obtain rfl : q = s.phys := ((readsPhys_entryAt _ _).start _).ok hw
    rw [uvmGuaranteecomplete_of_entry hw] at hrun
    refine ⟨w, rfl, ?_⟩
    by_cases hv : Valid w ∧ w &&& perm ≠ 0
    · rw [if_pos hv] at hrun
      obtain ⟨rfl, rfl⟩ := Prod.mk.inj (Except.ok.inj hrun)
      exact .inl ⟨hv, rfl, rfl⟩
    · rw [if_neg hv] at hrun
      exact .inr ⟨hv, hrun⟩

/-- `uvm_guaranteecomplete` returns a page exactly if the page is ready. -/
theorem pageReady_iff : PageReady u perm va s t ↔
    ∃ pa, uvmGuaranteecomplete u va perm s = .ok (pa, t) ∧ pa ≠ 0 := by
  constructor
  · rintro (⟨hw, hv, hp, h0⟩ | ⟨hw, hno, hrun, hpa⟩)
    · exact ⟨_, by rw [uvmGuaranteecomplete_of_entry hw, if_pos ⟨hv, hp⟩], h0⟩
    · exact ⟨_, by rw [uvmGuaranteecomplete_of_entry hw, if_neg hno, hrun], hpa⟩
  · rintro ⟨pa, hrun, hpa⟩
    obtain ⟨w, hw, ⟨hv, rfl, rfl⟩ | ⟨hno, hrun⟩⟩ := uvmGuaranteecomplete_cases hrun
    · exact .there hw hv.1 hv.2 hpa
    · exact .completed hw hno hrun hpa

theorem refused_iff : Refused u perm va s ↔ ∃ t, uvmGuaranteecomplete u va perm s = .ok (0, t) := by
  constructor
  · rintro ⟨w, hw, ⟨hv, hp, h0⟩ | ⟨hno, t, hrun⟩⟩
    · exact ⟨s, by rw [uvmGuaranteecomplete_of_entry hw, if_pos ⟨hv, hp⟩, h0]⟩
    · exact ⟨t, by rw [uvmGuaranteecomplete_of_entry hw, if_neg hno, hrun]⟩
  · rintro ⟨t, hrun⟩
    obtain ⟨w, hw, ⟨hv, h0, -⟩ | ⟨hno, hrun⟩⟩ := uvmGuaranteecomplete_cases hrun
    · exact ⟨w, hw, .inl ⟨hv.1, hv.2, h0.symm⟩⟩
    · exact ⟨w, hw, .inr ⟨hno, t, hrun⟩⟩

/-! ### A list of pages -/

/-- The pages of a list, one after the other, are there or are completed. -/
inductive PagesReady (u : UvmPtr) (perm : U64) : List U64 → Kernel → Kernel → Prop
  | nil (s : Kernel) : PagesReady u perm [] s s
  | cons {va : U64} {vas : List U64} {s t t' : Kernel} (h : PageReady u perm va s t)
      (hs : PagesReady u perm vas t t') : PagesReady u perm (va :: vas) s t'

/-- The pages of `[a, e)`. -/
def pagesUpTo (a e : U64) : List U64 := (List.range (pagesIn a e)).map (pageNo a)

/-- The rounds of `prefault`. -/
theorem pagesReady_loopWhile (a : U64) (i n : ℕ) :
    loopWhile (fun k => do
      let pa ← uvmGuaranteecomplete u (pageNo a k) PTE_R
      return decide (pa ≠ 0) : ℕ → K Bool) i n s = .ok (none, t) ↔
      PagesReady u PTE_R ((List.range' i n).map (pageNo a)) s t := by
  induction n generalizing i s with
  | zero =>
    constructor
    · intro h
      cases h
      exact .nil _
    · rintro ⟨⟩
      rfl
  | succ n ih =>
    rw [loopWhile, bind_assoc, List.range'_succ, List.map_cons]
    constructor
    · intro h
      cases hrun : uvmGuaranteecomplete u (pageNo a i) PTE_R s with
      | error e => cases (bind_of_error hrun).symm.trans h
      | ok r =>
        obtain ⟨pa, s'⟩ := r
        rw [bind_of_ok hrun, pure_bind] at h
        by_cases hpa : pa = 0
        · rw [if_neg (by simpa using hpa)] at h
          cases h
        · rw [if_pos (by simpa using hpa)] at h
          exact .cons (pageReady_iff.2 ⟨pa, hrun, hpa⟩) ((ih (i + 1)).1 h)
    · rintro (_ | ⟨h, hs⟩)
      obtain ⟨pa, hrun, hpa⟩ := pageReady_iff.1 h
      rw [bind_of_ok hrun, pure_bind, if_pos (by simpa using hpa)]
      exact (ih (i + 1)).2 hs

/-- **Pre-faulting gets through exactly if all pages are ready.** -/
theorem prefault_iff (a e : U64) :
    prefault u a e s = .ok (true, t) ↔ PagesReady u PTE_R (pagesUpTo a e) s t := by
  rw [pagesUpTo, List.range_eq_range', ← pagesReady_loopWhile, prefault]
  constructor
  · intro h
    cases hrun : loopWhile (fun k => do
        let pa ← uvmGuaranteecomplete u (pageNo a k) PTE_R
        return decide (pa ≠ 0) : ℕ → K Bool) 0 (pagesIn a e) s with
    | error e => cases (bind_of_error hrun).symm.trans h
    | ok r =>
      obtain ⟨res, s'⟩ := r
      rw [bind_of_ok hrun] at h
      cases res with
      | none => cases h; rfl
      | some j => cases h
  · intro h
    rw [bind_of_ok h]
    rfl

end

end Xv6
