import Xv6.FirstTouch
import Xv6.Prefault

/-!
# Copies read what the process sees

`Kernel.viewByte s u va` is the byte that the process of `u` sees at `va`: the byte of the page, if
the page is there and open to the user, or the byte that a first load would bring in.  To complete a
page changes nothing in what the process sees, so `copyin` and `copyinstr`, which complete pages as
they go, return the bytes that the process saw before the call.
-/

namespace Xv6

open Bytes Wp Run

/-! ### Reading a file -/

section

variable {fs fs' : Fs} {ip : ℕ}

theorem SameLoaded.lockable (h : SameLoaded fs fs') (hl : fs.Lockable ip) : fs'.Lockable ip where
  ref := by
    rw [← loaded_ref, h.loaded, loaded_ref]
    exact hl.ref
  free := by
    rw [← loaded_locked, h.loaded, loaded_locked]
    exact hl.free
  type := by
    rw [h.loaded]
    exact hl.type

theorem SameLoaded.insideFile (h : SameLoaded fs fs') {v : Vma} (hv : v.InsideFile fs) :
    v.InsideFile fs' := by
  intro ip hip
  obtain ⟨hfull, hle⟩ := hv ip hip
  refine ⟨h.full hfull, ?_⟩
  rw [h.loaded]
  exact hle

theorem SameLoaded.shownByte (h : SameLoaded fs fs') (v : Vma) (va : U64) (k : ℕ) :
    v.shownByte fs' va k = v.shownByte fs va k := by
  unfold Vma.shownByte
  cases v.inode with
  | none => rfl
  | some ip =>
    dsimp only
    rw [h.byteAt]

/-- A page of a vma inside its file is read. -/
theorem readPage_total {v : Vma} {va : U64} (hstart : v.start ≤ va) (hlt : va < MAXVA)
    (hfile : v.InsideFile fs) (hlock : ∀ ip, v.inode = some ip → fs.Lockable ip) :
    ∃ bs fs', readPage v va fs = .ok (bs, fs') ∧ SameLoaded fs fs' := by
  by_cases heof : ∀ ip, v.inode = some ip → v.start + v.filesz.setWidth 64 ≤ va
  · exact ⟨[], fs, readPage_of_eof heof, .refl fs⟩
  push Not at heof
  obtain ⟨ip, hip, hpart⟩ := heof
  rw [BitVec.not_le] at hpart
  obtain ⟨hfull, hin⟩ := hfile ip hip
  have hmax : MAXVA.toNat = 2 ^ 38 := by decide
  have heof' : (v.start + v.filesz.setWidth 64).toNat = v.start.toNat + v.filesz.toNat := by
    rw [BitVec.le_def] at hstart
    rw [BitVec.lt_def, hmax] at hlt
    rw [BitVec.toNat_add, BitVec.toNat_setWidth]
    omega
  rw [BitVec.lt_def, heof'] at hpart
  rw [BitVec.lt_def, hmax] at hlt
  rw [BitVec.le_def] at hstart
  have hoff : (v.fileOff va).toNat = v.offset.toNat + (va.toNat - v.start.toNat) := by
    have := (fs.loaded ip).size.isLt
    rw [Vma.fileOff, BitVec.toNat_setWidth, BitVec.toNat_add, BitVec.toNat_setWidth,
      BitVec.toNat_sub]
    omega
  have hlen : (v.fileLen va).toNat = min (v.start.toNat + v.filesz.toNat - va.toNat) 4096 := by
    rw [Vma.fileLen, toNat_umin, BitVec.toNat_sub, heof', show PGSIZE.toNat = 4096 by decide]
    omega
  have hlen' : ((v.fileLen va).setWidth 32).toNat = (v.fileLen va).toNat := by
    rw [BitVec.toNat_setWidth]
    omega
  have hread : wp (readPage v va) (fun _ => False) (fun _ fs' => SameLoaded fs fs') fs := by
    rw [readPage_eq hip (by rw [BitVec.lt_def, heof']; exact hpart), wp_bind]
    refine (fileRead_bytes (.inl (hlock ip hip)) hfull (by omega)).mono fun bs fs' hbs => ?_
    have hall : ¬ BitVec.ofNat 64 bs.length ≠ v.fileLen va := by
      rw [not_not, hbs.2, List.length_map, List.length_range, hlen']
      simp
    rw [wp_bind, wp_panicIf, if_neg hall]
    exact hbs.1
  obtain ⟨bs, fs', hrun, hsame⟩ := hread.exists_ok
  exact ⟨bs, fs', hrun, hsame⟩

end

/-! ### What the process sees -/

/-- The byte that the process of `u` sees at `va`, if it may look: the byte of a page that is there
and open to the user, or the byte that a first load would show. -/
def Kernel.viewByte (s : Kernel) (u : UvmPtr) (va : U64) : Option Byte :=
  match entryAt (s.uvms u).pagetable (pgRoundDown va) s.phys with
  | .error _ => none
  | .ok (w, _) =>
    if w &&& PTE_V ≠ 0 then
      if w &&& PTE_U ≠ 0 then some (s.phys.mem (vpn (pte2pa w)) (va.toNat % 4096)) else none
    else
      match uvmVa2vma s u (pgRoundDown va) with
      | none => none
      | some j =>
        if (s.vmas j).perm.setWidth 64 &&& PTE_R = 0 then none
        else some ((s.vmas j).shownByte s.fs (pgRoundDown va) (va.toNat % 4096))

/-- The page `va` is there and open to the user. -/
def Kernel.Resident (s : Kernel) (u : UvmPtr) (va : U64) : Prop :=
  ∃ w, entryAt (s.uvms u).pagetable va s.phys = .ok (w, s.phys) ∧ Valid w ∧ w &&& PTE_U ≠ 0

section

variable [Layout]

/-- The page `va` can be completed for a load: it is in a vma that may be read, it is not there yet,
and there is memory for it. -/
def Kernel.CanComplete (s : Kernel) (u : UvmPtr) (va : U64) : Prop :=
  ∃ j, uvmVa2vma s u va = some j ∧ (s.vmas j).perm.setWidth 64 &&& PTE_R ≠ 0 ∧ Fetchable s u va

/-- The page `va` is there, or it is completed. -/
inductive Fetch (u : UvmPtr) (va : U64) : Kernel → Kernel → Prop
  | resident {s : Kernel} (h : s.Resident u va) : Fetch u va s s
  | completed {s t : Kernel} {pa : U64} (h : ¬ s.Resident u va) (hc : s.CanComplete u va)
      (hrun : uvmCompletemap u va PTE_R s = .ok (pa, t)) : Fetch u va s t

/-- The pages of a list, one after the other, are there or are completed. -/
inductive Fetches (u : UvmPtr) : List U64 → Kernel → Kernel → Prop
  | nil (s : Kernel) : Fetches u [] s s
  | cons {va : U64} {vas : List U64} {s t t' : Kernel} (h : Fetch u va s t)
      (hs : Fetches u vas t t') : Fetches u (va :: vas) s t'

/-- An address space whose copies can be told: it is well formed, the trapframe and the trampoline
are not open to the user, and the files of its vmas can be locked and hold the file parts. -/
structure WellFormed (L : UvmPtr → Prop) (ext : ℕ → ℕ∞) (own : ℕ → Owner) (s : Kernel) (a : Maps)
    (u : UvmPtr) : Prop extends Good L ext own s a where
  live : L u
  kernel : ∀ v, vTrapframe ≤ v → Valid (a.leaf (s.root u) v) → a.leaf (s.root u) v &&& PTE_U = 0
  inside : ∀ i j, s.slot u i = some j → (s.vmas j).InsideFile s.fs
  lockable : ∀ i j ip, s.slot u i = some j → (s.vmas j).inode = some ip → s.fs.Lockable ip

variable {L : UvmPtr → Prop} {ext : ℕ → ℕ∞} {own : ℕ → Owner} {s t : Kernel} {a : Maps} {u : UvmPtr}
  {va : U64}

namespace WellFormed

theorem entryAt_eq (h : WellFormed L ext own s a u) (hva : va < MAXVA) :
    entryAt (s.uvms u).pagetable va s.phys = .ok (a.leaf (s.root u) (vpn va), s.phys) := by
  obtain ⟨hpt, hr⟩ := h.spaces.table u h.live
  rw [hpt]
  exact h.rep.entryAt_eq hr hva

theorem resident_iff (h : WellFormed L ext own s a u) (hva : va < MAXVA) :
    s.Resident u va ↔ Valid (a.leaf (s.root u) (vpn va)) ∧
      a.leaf (s.root u) (vpn va) &&& PTE_U ≠ 0 := by
  have hentry := h.entryAt_eq hva
  constructor
  · rintro ⟨w, hw, hv⟩
    rw [hentry] at hw
    cases hw
    exact hv
  · exact fun hv => ⟨_, hentry, hv⟩

omit [Layout] in
theorem not_resident_of_le (s : Kernel) (u : UvmPtr) (hva : MAXVA ≤ va) : ¬ s.Resident u va := by
  rintro ⟨w, hw, -⟩
  cases (bind_of_error (pgtWalk_panics hva s.phys)).symm.trans hw

/-- A resident page is below the trapframe, and it is the page that `pgt_getpa` finds. -/
theorem getpa_of_resident (h : WellFormed L ext own s a u) (hres : s.Resident u va) :
    vpn va < vTrapframe ∧ a.getpa (s.root u) va ≠ 0 ∧
      a.getpa (s.root u) va = pte2pa (a.leaf (s.root u) (vpn va)) := by
  have hva : va < MAXVA := by
    by_contra hno
    exact not_resident_of_le s u (BitVec.not_lt.1 hno) hres
  obtain ⟨hv, hU⟩ := (h.resident_iff hva).1 hres
  have hlow : vpn va < vTrapframe := by
    by_contra hno
    exact hU (h.kernel _ (not_lt.1 hno) hv)
  obtain ⟨p, hp⟩ := h.counted.page_of_valid (show (s.root u, vpn va) ∈ userPlaces from hlow) hv
  have hgetpa : a.getpa (s.root u) va = pte2pa (a.leaf (s.root u) (vpn va)) := by
    rw [Maps.getpa, if_neg (BitVec.not_le.2 hva), if_neg (not_or.2 ⟨hv, hU⟩)]
  refine ⟨hlow, ?_, hgetpa⟩
  rw [hgetpa, pte2pa_eq_pageAddr]
  exact (h.rep.allocatable hp).pageAddr_ne_zero

theorem getpa_of_not_resident (h : WellFormed L ext own s a u) (hres : ¬ s.Resident u va) :
    a.getpa (s.root u) va = 0 := by
  rw [Maps.getpa]
  by_cases hva : MAXVA ≤ va
  · rw [if_pos hva]
  rw [if_neg hva, if_pos]
  rw [h.resident_iff (BitVec.not_le.1 hva), not_and_or, not_not, not_not] at hres
  exact hres

/-- What the process sees, by the entry of the page. -/
theorem viewByte_eq (h : WellFormed L ext own s a u) (hva : va < MAXVA) :
    s.viewByte u va =
      if Valid (a.leaf (s.root u) (vpn va)) then
        if a.leaf (s.root u) (vpn va) &&& PTE_U ≠ 0 then
          some (s.phys.mem (pteFrame (a.leaf (s.root u) (vpn va))) (va.toNat % 4096))
        else none
      else
        match uvmVa2vma s u (pgRoundDown va) with
        | none => none
        | some j =>
          if (s.vmas j).perm.setWidth 64 &&& PTE_R = 0 then none
          else some ((s.vmas j).shownByte s.fs (pgRoundDown va) (va.toNat % 4096)) := by
  rw [Kernel.viewByte, h.entryAt_eq (pgRoundDown_lt_MAXVA.2 hva), vpn_pgRoundDown]
  rfl

omit [Layout] in
theorem viewByte_of_le (s : Kernel) (u : UvmPtr) (hva : MAXVA ≤ va) : s.viewByte u va = none := by
  have hdown : MAXVA ≤ pgRoundDown va := by
    rw [← BitVec.not_lt, pgRoundDown_lt_MAXVA, BitVec.not_lt]
    exact hva
  have herr : entryAt (s.uvms u).pagetable (pgRoundDown va) s.phys = .error (.panic "walk") :=
    bind_of_error (pgtWalk_panics hdown s.phys)
  rw [Kernel.viewByte, herr]

end WellFormed

/-! ### Completing a page -/

/-- A fault leaves the file system as it is, but for reading the page. -/
theorem uvmCompletemap_fs (s : Kernel) (u : UvmPtr) (va perm : U64) :
    wp (uvmCompletemap u va perm) (fun _ => True) (fun _ t => t.fs = s.fs ∨
      ∃ j bs, uvmVa2vma s u va = some j ∧ readPage (s.vmas j) va s.fs = .ok (bs, t.fs)) s := by
  have hmem : ∀ {α : Type} (m : P α) (t : Kernel), t.fs = s.fs →
      wp (liftM m : K α) (fun _ => True) (fun _ t' => t'.fs = s.fs) t := by
    intro α m t ht
    rw [wp_liftP]
    exact (wp_true m t.phys).mono fun _ _ _ => ht
  rw [uvmCompletemap, wp_ite]
  split_ifs
  · exact Or.inl rfl
  rw [wp_bind, wp_get]
  cases hj : uvmVa2vma s u va with
  | none => exact Or.inl rfl
  | some j =>
    dsimp only
    rw [wp_ite]
    refine ite_prop_iff_and.2 ⟨fun _ => Or.inl rfl, fun _ => ?_⟩
    rw [wp_bind]
    refine (hmem _ s rfl).mono fun res t ht => ?_
    rcases res with _ | x
    · exact Or.inl ht
    dsimp only
    rw [completeEntry, wp_bind]
    refine (hmem _ t ht).mono fun pte t ht => ?_
    rw [wp_ite]
    refine ite_prop_iff_and.2 ⟨fun _ => ?_, fun _ => ?_⟩
    · rw [completeFresh, wp_bind]
      refine (hmem _ t ht).mono fun pa t ht => ?_
      rw [wp_ite]
      refine ite_prop_iff_and.2 ⟨fun _ => Or.inl ht, fun _ => ?_⟩
      rw [wp_bind, wp_liftF]
      refine (wp_true _ t.fs).run.mono fun bs fs hread => ?_
      rw [wp_bind, wp_liftP]
      refine (wp_true _ _).mono fun _ p _ => Or.inr ⟨j, bs, rfl, ?_⟩
      rw [← ht]
      exact hread.1
    · rw [wp_ite]
      refine ite_prop_iff_and.2 ⟨fun _ => Or.inl ht, fun _ => ?_⟩
      rw [wp_ite]
      exact ite_prop_iff_and.2 ⟨fun _ => (hmem _ t ht).mono fun _ _ h => Or.inl h, fun _ => trivial⟩

namespace WellFormed

/-- A page that can be completed is completed, and the process sees what it saw. -/
theorem complete (h : WellFormed L ext own s a u) (hc : s.CanComplete u va)
    (hal : va % PGSIZE = 0) : ∃ pa t own' b, uvmCompletemap u va PTE_R s = .ok (pa, t) ∧ pa ≠ 0 ∧
      WellFormed L ext own' t b u ∧ t.root u = s.root u ∧ b.getpa (s.root u) va = pa ∧
      t.Resident u va ∧ ∀ x, t.viewByte u x = s.viewByte u x := by
  obtain ⟨j, hj, hperm, hmem⟩ := hc
  obtain ⟨i, hs, hhas⟩ := uvmVa2vma_some hj
  have hok := h.spaces.ok u i j hs
  have hlow := vpn_lt_vTrapframe hok hhas
  have hbounds := (hok.has_iff va).1 hhas
  have hM : MAXVA.toNat = 2 ^ 38 := by decide
  have hlt : va < MAXVA := by
    have := hok.stop_le
    rw [BitVec.lt_def, hM]
    omega
  have hstart : (s.vmas j).start ≤ va := BitVec.le_def.2 hbounds.1
  obtain ⟨bs₀, fs₀, hread, -⟩ := readPage_total hstart hlt (h.inside i j hs) (h.lockable i j · hs)
  obtain ⟨pa, t, hrun, hpa⟩ := completemap_fetches hal hlt hj hperm hmem ⟨bs₀, fs₀, hread⟩
  obtain ⟨hpt, hr⟩ := h.spaces.table u h.live
  have hspec : wp (uvmCompletemap u va PTE_R) (fun _ => True) _ s :=
    uvmCompletemap_spec h.rep hpt hr (fun _ _ hw => absurd hw (by decide)) (fun _ _ => trivial)
    trivial fun _ _ _ _ _ _ _ => trivial
  rcases hspec.ok hrun with ⟨h0, -⟩ | ⟨j', phys, fs, own', b, -, -, hj', -, rfl, hrep, -, hcomp, hw⟩
  · exact absurd h0 hpa
  obtain rfl : j' = j := Option.some.inj (hj'.symm.trans hj)
  -- reading the page leaves the files as they are
  have hsame : SameLoaded s.fs fs := by
    rcases (uvmCompletemap_fs s u va PTE_R).ok hrun with hfs | ⟨j, bs, hj', hread'⟩
    · rw [Kernel.io_fs] at hfs
      rw [hfs]
      exact .refl _
    · obtain rfl : j = j' := Option.some.inj (hj'.symm.trans hj)
      obtain ⟨_, _, hread'', hsame⟩ :=
        readPage_total hstart hlt (h.inside i j hs) (h.lockable i j · hs)
      rw [hread'] at hread''
      cases hread''
      exact hsame
  have hgood := h.toGood.complete h.live hj fs hrep hcomp
  have hinv : ¬ Valid (a.leaf (s.root u) (vpn va)) := fun hv => absurd (hw hv hpa) (by decide)
  cases hcomp with
  | refused => exact absurd rfl hpa
  | single hv => exact absurd hv hinv
  | copied hv => exact absurd hv hinv
  | @fresh g d _ hg hpage hd =>
    set w := pa2pte (pageAddr g) ||| (s.vmas j').perm.setWidth 64 ||| PTE_V ||| PTE_U with hw'
    set b := (a.setPage g (some ⟨1, d⟩)).setLeaf (s.root u) (vpn va) w with hb
    have hvalid : Valid w := or_and_ne_left (or_and_ne_right _ (by decide)) _
    have hU : w &&& PTE_U ≠ 0 := or_and_ne_right _ (by decide)
    have hw2pa : pte2pa w = pageAddr g := KeepsFrame.of_lt (h.spaces.perm u i j' hs) g hg
    have hself : b.leaf (s.root u) (vpn va) = w := Maps.setLeaf_leaf_self _ _ _ _
    have hother : ∀ n, n ≠ vpn va → b.leaf (s.root u) n = a.leaf (s.root u) n := fun n hn =>
      Maps.setLeaf_leaf_of_ne _ _ fun hc => hn hc.2
    have hnew : phys.mem g = d :=
      (hrep.alloc.page_iff.1 (Maps.setPage_page_self a g (some ⟨1, d⟩))).2.2
    have hold : ∀ f p, a.page f = some p → phys.mem f = s.phys.mem f := by
      intro f p hf
      have hne : f ≠ g := by
        rintro rfl
        rw [hpage] at hf
        cases hf
      have hf' : b.page f = some p := (Maps.setPage_page_of_ne a _ hne).trans hf
      exact (hrep.alloc.page_iff.1 hf').2.2.trans (h.rep.alloc.page_iff.1 hf).2.2.symm
    have hroot : (s.io phys fs).root u = s.root u := rfl
    have hwf : WellFormed L ext own' (s.io phys fs) b u :=
      { hgood with
        live := h.live
        kernel := fun v hv => by
          rw [hroot, hother v (by omega)]
          exact h.kernel v hv
        inside := fun i j hs => hsame.insideFile (h.inside i j hs)
        lockable := fun i j ip hs hip => hsame.lockable (h.lockable i j ip hs hip) }
    have hgetpa : b.getpa (s.root u) va = pageAddr g := by
      rw [Maps.getpa, if_neg (BitVec.not_le.2 hlt), hself, if_neg (not_or.2 ⟨hvalid, hU⟩), hw2pa]
    have hres' : (s.io phys fs).Resident u va := (hwf.resident_iff hlt).2 (by
      rw [hroot, hself]
      exact ⟨hvalid, hU⟩)
    refine ⟨_, _, own', b, hrun, hpa, hwf, rfl, hgetpa, hres', fun x => ?_⟩
    by_cases hx : x < MAXVA
    swap
    · rw [viewByte_of_le _ _ (BitVec.not_lt.1 hx), viewByte_of_le _ _ (BitVec.not_lt.1 hx)]
    rw [hwf.viewByte_eq hx, h.viewByte_eq hx, hroot]
    by_cases hpg : vpn x = vpn va
    · -- the new page shows what was to be seen
      have hdown : pgRoundDown x = va := by
        apply BitVec.eq_of_toNat_eq
        have hal' := congrArg BitVec.toNat hal
        rw [BitVec.toNat_umod,
          show PGSIZE.toNat = 4096 by decide, show (0 : U64).toNat = 0 from rfl] at hal'
        rw [toNat_pgRoundDown]
        unfold vpn at hpg
        omega
      have hbyte : d (x.toNat % 4096) = (s.vmas j').shownByte s.fs va (x.toNat % 4096) :=
        fills_shownByte hstart hlt (h.inside i j' hs) hd (Nat.mod_lt _ (by norm_num))
      rw [hpg, hself, if_pos hvalid, if_neg hinv, hdown, hj]
      dsimp only
      rw [if_neg hperm, if_pos hU, pteFrame_of_pte2pa (by have := hg.lt; omega) hw2pa,
        Kernel.io_phys, hnew, hbyte]
    · rw [hother _ hpg]
      by_cases hv : Valid (a.leaf (s.root u) (vpn x))
      · rw [if_pos hv, if_pos hv]
        by_cases hUx : a.leaf (s.root u) (vpn x) &&& PTE_U = 0
        · rw [if_neg (not_not.2 hUx), if_neg (not_not.2 hUx)]
        · have hlow' : vpn x < vTrapframe := by
            by_contra hno
            exact hUx (h.kernel _ (not_lt.1 hno) hv)
          obtain ⟨p, hp⟩ :=
            h.counted.page_of_valid (show (s.root u, vpn x) ∈ userPlaces from hlow') hv
          rw [Kernel.io_phys, hold _ p hp]
      · rw [if_neg hv, if_neg hv, show uvmVa2vma (s.io phys fs) u (pgRoundDown x) =
          uvmVa2vma s u (pgRoundDown x) from rfl]
        cases uvmVa2vma s u (pgRoundDown x) with
        | none => rfl
        | some k =>
          dsimp only
          rw [Kernel.io_fs, hsame.shownByte]
          rfl

/-- A page that is not there and cannot be completed is refused. -/
theorem refused (h : WellFormed L ext own s a u) (hres : ¬ s.Resident u va)
    (hc : ¬ s.CanComplete u va) (hal : va % PGSIZE = 0) :
    ∃ t, uvmCompletemap u va PTE_R s = .ok (0, t) := by
  by_cases hlegal : va < MAXVA ∧ ∃ j, uvmVa2vma s u va = some j ∧
      (s.vmas j).perm.setWidth 64 &&& PTE_R ≠ 0
  swap
  · exact ⟨s, completemap_refuses hlegal⟩
  obtain ⟨hlt, j, hj, hperm⟩ := hlegal
  obtain ⟨hpt, hr⟩ := h.spaces.table u h.live
  suffices hw : wp (uvmCompletemap u va PTE_R) (fun _ => False) (fun ret _ => ret = 0) s by
    obtain ⟨_, t, hrun, rfl⟩ := hw.exists_ok
    exact ⟨t, hrun⟩
  have hrange : ¬ (va % PGSIZE ≠ 0 ∨ MAXVA ≤ va) :=
    not_or.2 ⟨not_not.2 hal, BitVec.not_le.2 hlt⟩
  rw [uvmCompletemap, if_neg hrange, wp_bind, wp_get, hj]
  dsimp only
  rw [if_neg hperm, wp_bind, wp_liftP, hpt]
  refine (pgtWalk_alloc h.rep hr hlt).run.mono fun res p hres' => ?_
  obtain ⟨hwalk, own', hrep, -, hslot⟩ := hres'
  rcases res with _ | x
  · rfl
  have hload : loadPte x p = .ok (a.leaf (s.root u) (vpn va), p) := by
    have hw : wp (loadPte x) (fun _ => False)
        (fun w t => w = a.leaf (s.root u) (vpn va) ∧ t = p) p :=
        (loadPte_slot hrep hslot).2 ⟨rfl, rfl⟩
    obtain ⟨_, _, hrun, rfl, rfl⟩ := hw.exists_ok
    exact hrun
  dsimp only
  rw [completeEntry, wp_bind, wp_liftP, Kernel.io_phys, wp_of_ok hload, wp_ite]
  by_cases hv : a.leaf (s.root u) (vpn va) &&& PTE_V = 0
  swap
  · -- a page that is there is not the user's
    have hU : a.leaf (s.root u) (vpn va) &&& PTE_U = 0 := by
      by_contra hU
      exact hres ((h.resident_iff hlt).2 ⟨hv, hU⟩)
    rw [if_neg hv, wp_ite, if_pos hU]
    rfl
  rw [if_pos hv, completeFresh, wp_bind, freshPage, wp_liftP, wp_bind]
  refine (kalloc_spec hrep).run.mono fun pa p' hpa => ?_
  obtain ⟨hkalloc, ⟨rfl, -, -⟩ | ⟨g, rfl, -, -, hg, -⟩⟩ := hpa
  · rfl
  · refine absurd ⟨j, hj, hperm, p', ?_⟩ hc
    rw [hpt, fetchable, bind_of_ok hwalk]
    dsimp only
    rw [bind_of_ok hload, if_neg (not_not.2 hv), bind_of_ok hkalloc, decide_eq_true
      hg.pageAddr_ne_zero]
    rfl

end WellFormed

/-- What `copyin` has when it has the page `va`: the page `pa`, the pages brought in, and the same
view. -/
structure Fetched (L : UvmPtr → Prop) (ext : ℕ → ℕ∞) (u : UvmPtr) (va pa : U64) (s t : Kernel) :
    Prop where
  fetch : Fetch u va s t
  low : vpn va < vTrapframe
  page : ∃ own a, WellFormed L ext own t a u ∧ a.getpa (t.root u) va = pa ∧ t.Resident u va
  view : ∀ x, t.viewByte u x = s.viewByte u x

/-- `copyin` gets the page `va` exactly if it is there or can be completed. -/
theorem WellFormed.copyinPage (h : WellFormed L ext own s a u) (hal : va % PGSIZE = 0) :
    ∃ pa t, copyinPage u va s = .ok (pa, t) ∧
      if pa = 0 then ∀ t', ¬ Fetch u va s t' else Fetched L ext u va pa s t := by
  obtain ⟨hpt, hr⟩ := h.spaces.table u h.live
  have hgetpa := h.rep.pgtGetpa_eq hr va
  rw [← hpt] at hgetpa
  have hlift := liftP_of_ok (s := s) hgetpa
  have hstep : Xv6.copyinPage u va s =
      (if a.getpa (s.root u) va = 0 then uvmCompletemap u va PTE_R
        else return a.getpa (s.root u) va : K U64) s :=
    (bind_of_ok (a := s) (t := s) rfl).trans (bind_of_ok hlift)
  by_cases hres : s.Resident u va
  · obtain ⟨hlow, h0, -⟩ := h.getpa_of_resident hres
    refine ⟨a.getpa (s.root u) va, s, hstep.trans ?_, ?_⟩
    · rw [if_neg h0]
      rfl
    · rw [if_neg h0]
      exact ⟨.resident hres, hlow, ⟨own, a, h, rfl, hres⟩, fun _ => rfl⟩
  rw [if_pos (h.getpa_of_not_resident hres)] at hstep
  by_cases hc : s.CanComplete u va
  · obtain ⟨pa, t, own', b, hrun, hpa, hwf, hroot, hpage, hres', hview⟩ := h.complete hc hal
    refine ⟨pa, t, hstep.trans hrun, ?_⟩
    rw [if_neg hpa]
    obtain ⟨hlow, -⟩ := hwf.getpa_of_resident hres'
    exact ⟨.completed hres hc hrun, hlow, ⟨own', b, hwf, hroot ▸ hpage, hres'⟩, hview⟩
  · obtain ⟨t, hrun⟩ := h.refused hres hc hal
    refine ⟨0, t, hstep.trans hrun, ?_⟩
    rw [if_pos rfl]
    intro t' hf
    cases hf with
    | resident h => exact hres h
    | completed _ h => exact hc h

/-- The bytes that `copyin` reads from a page that it has got. -/
theorem Fetched.readBytes {pa srcva : U64} (h : Fetched L ext u (pgRoundDown srcva) pa s t) {n : ℕ}
    (hn : srcva.toNat % 4096 + n ≤ 4096) :
    ∃ bs, readBytes (pa + (srcva - pgRoundDown srcva)) n t.phys = .ok (bs, t.phys) ∧
      bs.map some = (List.range n).map fun k => s.viewByte u (srcva + intOff k) := by
  obtain ⟨own, a, hwf, rfl, hres⟩ := h.page
  obtain ⟨hlow, h0, hpa⟩ := hwf.getpa_of_resident hres
  have hdown := toNat_pgRoundDown srcva
  have hoff : (srcva - pgRoundDown srcva).toNat = srcva.toNat % 4096 := by
    rw [BitVec.toNat_sub_of_le (by rw [BitVec.le_def]; omega)]
    omega
  refine ⟨_, hwf.readBytes_eq hlow h0 (by omega) n, ?_⟩
  rw [List.map_map]
  refine List.map_congr_left fun k hk => ?_
  have hk := List.mem_range.1 hk
  -- the address is on the same page
  have hM : MAXVA.toNat = 2 ^ 38 := by decide
  have hvpn : srcva.toNat / 4096 < 0x3FFFFFE := by
    rw [vpn_pgRoundDown] at hlow
    exact hlow
  have hadd : (srcva + intOff k).toNat = srcva.toNat + k := by
    rw [intOff, BitVec.toNat_add, BitVec.toNat_ofNat]
    omega
  have hlt : srcva + intOff k < MAXVA := by
    rw [BitVec.lt_def, hM, hadd]
    omega
  have hsame : vpn (srcva + intOff k) = vpn (pgRoundDown srcva) := by
    rw [vpn_pgRoundDown, vpn, vpn, hadd]
    omega
  have hlt' : pgRoundDown srcva < MAXVA := by
    rw [BitVec.lt_def, hM]
    omega
  obtain ⟨hv, hU⟩ := (hwf.resident_iff hlt').1 hres
  rw [← h.view, hwf.viewByte_eq hlt, hsame, if_pos hv, if_pos hU, hadd, Function.comp_apply,
    hpa, hoff]
  congr 2
  omega

/-! ### `copyin` -/

omit [Layout] in
/-- What follows the part of the first page is the next page. -/
theorem add_pagePart (srcva : U64) (k : ℕ) :
    srcva + intOff (4096 - srcva.toNat % 4096 + k) = pgRoundDown srcva + PGSIZE + intOff k := by
  have hdown := toNat_pgRoundDown srcva
  have hpg : PGSIZE.toNat = 4096 := by decide
  apply BitVec.eq_of_toNat_eq
  simp only [intOff, BitVec.toNat_add, BitVec.toNat_ofNat, hpg, hdown]
  omega

/-- What the process sees in `[srcva, srcva + len)`. -/
def Kernel.viewBytes (s : Kernel) (u : UvmPtr) (srcva : U64) (len : ℕ) : List (Option Byte) :=
  (List.range len).map fun k => s.viewByte u (srcva + intOff k)

omit [Layout] in
theorem viewBytes_split (s : Kernel) (u : UvmPtr) {srcva : U64} {len n : ℕ}
    (hn : n = min (4096 - srcva.toNat % 4096) len) :
    s.viewBytes u srcva len =
      s.viewBytes u srcva n ++ s.viewBytes u (pgRoundDown srcva + PGSIZE) (len - n) := by
  obtain hle | hlt := le_or_gt len (4096 - srcva.toNat % 4096)
  · obtain rfl : n = len := by omega
    rw [Nat.sub_self]
    exact (List.append_nil _).symm
  · obtain rfl : n = 4096 - srcva.toNat % 4096 := by omega
    rw [Kernel.viewBytes, ← Nat.add_sub_of_le hlt.le, List.range_add, List.map_append,
      List.map_map, Nat.add_sub_cancel_left]
    exact congrArg _ (List.map_congr_left fun k _ => by rw [Function.comp_apply, add_pagePart])

omit [Layout] in
theorem viewBytes_congr {s t : Kernel} (h : ∀ x, t.viewByte u x = s.viewByte u x) (srcva : U64)
    (len : ℕ) : t.viewBytes u srcva len = s.viewBytes u srcva len :=
  List.map_congr_left fun _ _ => h _

theorem Fetch.unique {t' : Kernel} (h : Fetch u va s t) (h' : Fetch u va s t') : t = t' := by
  cases h with
  | resident h =>
    cases h' with
    | resident => rfl
    | completed h' => exact absurd h h'
  | completed h _ hrun =>
    cases h' with
    | resident h' => exact absurd h' h
    | completed _ _ hrun' =>
      rw [hrun] at hrun'
      exact (Prod.mk.inj (Except.ok.inj hrun')).2

theorem fetches_cons_iff {vas : List U64} {t' : Kernel} (h : Fetch u va s t) :
    Fetches u (va :: vas) s t' ↔ Fetches u vas t t' := by
  constructor
  · rintro (_ | ⟨h', hs⟩)
    rwa [h.unique h']
  · exact .cons h

/-- The loop of `copyin`. -/
theorem WellFormed.copyinFrom (h : WellFormed L ext own s a u) {fuel : ℕ} (srcva len : U64)
    (hfuel : len.toNat ≤ fuel) (done : List Byte) :
    ∃ ok bs t, copyinFrom u fuel done srcva len s = .ok ((ok, done ++ bs), t) ∧
      (ok = true ↔ ∃ t', Fetches u (touchedPages srcva len.toNat) s t') ∧
      (ok = true → bs.map some = s.viewBytes u srcva len.toNat) := by
  have hempty : ∀ (s : Kernel) (srcva len : U64) (done : List Byte), len.toNat = 0 →
      ∃ ok bs t, (.ok ((true, done), s) : Except Stop _) = .ok ((ok, done ++ bs), t) ∧
        (ok = true ↔ ∃ t', Fetches u (touchedPages srcva len.toNat) s t') ∧
        (ok = true → bs.map some = s.viewBytes u srcva len.toNat) := by
    intro s srcva len done h0
    rw [h0]
    exact ⟨true, [], s, by rw [List.append_nil], ⟨fun _ => ⟨s, .nil s⟩, fun _ => rfl⟩, fun _ => rfl⟩
  induction fuel generalizing s own a srcva len done with
  | zero => exact hempty s srcva len done (by omega)
  | succ fuel ih =>
    rw [Xv6.copyinFrom]
    by_cases h0 : len = 0
    · rw [if_pos h0]
      exact hempty s srcva len done (by rw [h0]; rfl)
    rw [if_neg h0]
    have hn := toNat_pagePart srcva len
    have hrest := toNat_sub_pagePart srcva len
    have hpos := pos_toNat h0
    rw [touchedPages_cons hpos rfl, viewBytes_split s u rfl, ← hrest]
    obtain ⟨pa, t, hpage, hcase⟩ := h.copyinPage (pgRoundDown_aligned srcva)
    rw [bind_of_ok hpage]
    by_cases hpa : pa = 0
    · rw [if_pos hpa] at hcase ⊢
      refine ⟨false, [], t, by rw [List.append_nil]; rfl, ?_, by simp⟩
      simp only [Bool.false_eq_true, false_iff]
      rintro ⟨t', _ | ⟨hf, -⟩⟩
      exact hcase _ hf
    rw [if_neg hpa] at hcase ⊢
    obtain ⟨bs, hread, hbs⟩ := hcase.readBytes
      (n := (umin (PGSIZE - (srcva - pgRoundDown srcva)) len).toNat) (by omega)
    obtain ⟨own', b, hwf, -⟩ := hcase.page
    rw [bind_of_ok (liftP_of_ok (s := t) hread)]
    obtain ⟨ok, bs', t', hrun, hok, hview⟩ := ih hwf (pgRoundDown srcva + PGSIZE)
      (len - umin (PGSIZE - (srcva - pgRoundDown srcva)) len) (by omega) (done ++ bs)
    refine ⟨ok, bs ++ bs', t', by rw [← List.append_assoc]; exact hrun, ?_, fun h => ?_⟩
    · rw [hok]
      exact exists_congr fun t' => (fetches_cons_iff hcase.fetch).symm
    · rw [List.map_append, hview h, viewBytes_congr hcase.view, hbs, hn]
      rfl

/-! ### `copyinstr` -/

/-- The inner loop of `copyinstr`: the bytes that it stores, up to the first `'\0'`, and whether
there is one. -/
def copyString : List Byte → Bool × List Byte
  | [] => (false, [])
  | b :: bs => if b = 0 then (true, [0]) else ((copyString bs).1, b :: (copyString bs).2)

/-- The loop of `copyinstr` with what it stores to `dst`: whether it has come to the `'\0'`, and the
bytes stored so far. -/
def copyinstrToFrom (u : UvmPtr) : ℕ → List Byte → U64 → U64 → K (Bool × List Byte)
  | 0, done, _, _ => return (false, done)
  | fuel + 1, done, srcva, max => do
    if max = 0 then return (false, done)
    let va0 := pgRoundDown srcva
    let pa0 ← Xv6.copyinPage u va0
    if pa0 = 0 then return (false, done)
    let n := umin (PGSIZE - (srcva - va0)) max
    let bs ← Xv6.readBytes (pa0 + (srcva - va0)) n.toNat
    if (copyString bs).1 then return (true, done ++ (copyString bs).2)
    copyinstrToFrom u fuel (done ++ (copyString bs).2) (va0 + PGSIZE) (max - n)

/-- `copyinstr` with what it stores to `dst`. -/
def copyinstrTo (u : UvmPtr) (srcva max : U64) : K (Bool × List Byte) :=
  copyinstrToFrom u max.toNat [] srcva max

omit [Layout] in
/-- Bytes with a `'\0'`. -/
theorem copyString_of_mem {bs : List Byte} (h : (0 : Byte) ∈ bs) :
    ∃ str rest, bs = str ++ 0 :: rest ∧ (0 : Byte) ∉ str ∧ copyString bs = (true, str ++ [0]) ∧
      bs.takeWhile (· ≠ 0) = str := by
  obtain ⟨str, rest, rfl, hstr⟩ := List.eq_append_cons_of_mem h
  refine ⟨str, rest, rfl, hstr, ?_⟩
  clear h
  induction str with
  | nil => exact ⟨rfl, rfl⟩
  | cons b str ih =>
    obtain ⟨hb, hmem⟩ := not_or.1 (List.mem_cons.not.1 hstr)
    obtain ⟨heq, htake⟩ := ih hmem
    rw [List.cons_append, copyString, if_neg (Ne.symm hb), heq,
      List.takeWhile_cons_of_pos (by simpa using Ne.symm hb), htake]
    exact ⟨rfl, rfl⟩

omit [Layout] in
theorem copyString_of_not_mem {bs : List Byte} (h : (0 : Byte) ∉ bs) :
    copyString bs = (false, bs) ∧ bs.takeWhile (· ≠ 0) = bs := by
  induction bs with
  | nil => exact ⟨rfl, rfl⟩
  | cons b bs ih =>
    obtain ⟨hb, hbs⟩ := not_or.1 (List.mem_cons.not.1 h)
    obtain ⟨heq, hall⟩ := ih hbs
    rw [copyString, if_neg (Ne.symm hb), heq,
      List.takeWhile_cons_of_pos (by simpa using Ne.symm hb), hall]
    exact ⟨rfl, rfl⟩

/-- The string is what is stored, without the `'\0'`. -/
theorem copyinstr_eq (u : UvmPtr) (srcva max : U64) :
    copyinstr u srcva max = (fun r => if r.1 then some r.2.dropLast else none) <$>
      copyinstrTo u srcva max := by
  suffices h : ∀ fuel done srcva max, copyinstrFrom u fuel done srcva max =
      (fun r => if r.1 then some r.2.dropLast else none) <$>
        copyinstrToFrom u fuel done srcva max from
    h _ _ _ _
  intro fuel
  induction fuel with
  | zero => exact fun _ _ _ => rfl
  | succ fuel ih =>
    intro done srcva max
    funext s
    rw [copyinstrFrom, copyinstrToFrom]
    by_cases hmax : max = 0
    · rw [if_pos hmax, if_pos hmax]
      rfl
    rw [if_neg hmax, if_neg hmax, map_eq_pure_bind, bind_assoc]
    cases hpage : Xv6.copyinPage u (pgRoundDown srcva) s with
    | error e => rw [bind_of_error hpage, bind_of_error hpage]
    | ok r =>
      obtain ⟨pa, t⟩ := r
      rw [bind_of_ok hpage, bind_of_ok hpage]
      by_cases hpa : pa = 0
      · rw [if_pos hpa, if_pos hpa]
        rfl
      rw [if_neg hpa, if_neg hpa, bind_assoc]
      cases hread : Xv6.readBytes (pa + (srcva - pgRoundDown srcva))
          (umin (PGSIZE - (srcva - pgRoundDown srcva)) max).toNat t.phys with
      | error e =>
        have hread := liftP_of_error (s := t) hread
        rw [bind_of_error hread, bind_of_error hread]
      | ok r =>
        obtain ⟨bs, p⟩ := r
        have hlen := readBytes_length hread
        have hread := liftP_of_ok (s := t) hread
        rw [bind_of_ok hread, bind_of_ok hread, ← hlen]
        by_cases hz : (0 : Byte) ∈ bs
        · obtain ⟨str, rest, hsplit, -, heq, htake⟩ := copyString_of_mem hz
          rw [heq, htake, if_pos (by simp [hsplit]), if_pos rfl, pure_bind, ← List.append_assoc,
            if_pos rfl, List.dropLast_concat]
        · obtain ⟨heq, hall⟩ := copyString_of_not_mem hz
          rw [heq, hall, if_neg (lt_irrefl _), ih]
          rfl

/-- A `'\0'` is among the first `max` bytes from `srcva` on, and the pages up to it can be read. -/
def NulWithin (u : UvmPtr) (srcva : U64) (max : ℕ) (s : Kernel) : Prop :=
  ∃ n < max, (∃ t, Fetches u (touchedPages srcva (n + 1)) s t) ∧
    s.viewByte u (srcva + intOff n) = some 0

/-- `w` is what the process sees from `srcva` on, up to and with the first `'\0'`. -/
def IsString (s : Kernel) (u : UvmPtr) (srcva : U64) (w : List Byte) : Prop :=
  ∃ n, w.map some = s.viewBytes u srcva (n + 1) ∧ s.viewByte u (srcva + intOff n) = some 0 ∧
    ∀ k < n, s.viewByte u (srcva + intOff k) ≠ some 0

omit [Layout] in
theorem length_of_viewBytes {bs : List Byte} {srcva : U64} {n : ℕ}
    (h : bs.map some = s.viewBytes u srcva n) : bs.length = n := by
  simpa [Kernel.viewBytes] using congrArg List.length h

omit [Layout] in
theorem viewByte_eq_getElem? {bs : List Byte} {srcva : U64} {n k : ℕ}
    (h : bs.map some = s.viewBytes u srcva n) (hk : k < n) :
    s.viewByte u (srcva + intOff k) = bs[k]? := by
  have hget := congrArg (·[k]?) h
  have hlen : k < bs.length := (length_of_viewBytes h).symm ▸ hk
  simpa [Kernel.viewBytes, hk, hlen] using hget.symm

omit [Layout] in
/-- The string in the bytes of one page. -/
theorem isString_of_mem {bs : List Byte} {srcva : U64} {n : ℕ}
    (h : bs.map some = s.viewBytes u srcva n) (hz : (0 : Byte) ∈ bs) :
    (copyString bs).1 = true ∧ (copyString bs).2.length ≤ n ∧ IsString s u srcva (copyString bs).2 ∧
      ∃ m < n, s.viewByte u (srcva + intOff m) = some 0 := by
  obtain ⟨str, rest, rfl, hstr, heq, -⟩ := copyString_of_mem hz
  have hlen := length_of_viewBytes h
  rw [List.length_append, List.length_cons] at hlen
  have hnul : s.viewByte u (srcva + intOff str.length) = some 0 := by
    rw [viewByte_eq_getElem? h (by omega)]
    simp
  rw [heq]
  refine ⟨rfl, by simp; omega, ⟨str.length, ?_, hnul, fun k hk => ?_⟩, str.length, by omega, hnul⟩
  · have hsplit : (str ++ 0 :: rest).take (str.length + 1) = str ++ [0] := by
      rw [List.append_cons, List.take_left' (by simp)]
    have htake := congrArg (List.take (str.length + 1)) h
    rw [Kernel.viewBytes, ← List.map_take, ← List.map_take, List.take_range,
      Nat.min_eq_left (by omega), hsplit] at htake
    exact htake
  · rw [viewByte_eq_getElem? h (by omega), List.getElem?_append_left hk,
      List.getElem?_eq_getElem hk]
    intro h0
    exact hstr (Option.some.inj h0 ▸ List.getElem_mem hk)

/-- The loop of `copyinstr`. -/
theorem WellFormed.copyinstrToFrom (h : WellFormed L ext own s a u) {fuel : ℕ}
    (srcva max : U64) (hfuel : max.toNat ≤ fuel) (done : List Byte) :
    ∃ ok w t, copyinstrToFrom u fuel done srcva max s = .ok ((ok, done ++ w), t) ∧
      w.length ≤ max.toNat ∧ (ok = true ↔ NulWithin u srcva max.toNat s) ∧
      (ok = true → IsString s u srcva w) := by
  have hempty : ∀ (s : Kernel) (srcva max : U64) (done : List Byte), max.toNat = 0 →
      ∃ ok w t, (.ok ((false, done), s) : Except Stop _) = .ok ((ok, done ++ w), t) ∧
        w.length ≤ max.toNat ∧ (ok = true ↔ NulWithin u srcva max.toNat s) ∧
        (ok = true → IsString s u srcva w) := by
    intro s srcva max done h0
    refine ⟨false, [], s, by rw [List.append_nil], Nat.zero_le _, ?_, fun h => nomatch h⟩
    simp only [Bool.false_eq_true, false_iff]
    rintro ⟨n, hn, -⟩
    omega
  induction fuel generalizing s own a srcva max done with
  | zero => exact hempty s srcva max done (by omega)
  | succ fuel ih =>
    rw [Xv6.copyinstrToFrom]
    by_cases h0 : max = 0
    · rw [if_pos h0]
      exact hempty s srcva max done (by rw [h0]; rfl)
    rw [if_neg h0]
    have hn := toNat_pagePart srcva max
    have hrest := toNat_sub_pagePart srcva max
    have hpos := pos_toNat h0
    obtain ⟨pa, t, hpage, hcase⟩ := h.copyinPage (pgRoundDown_aligned srcva)
    rw [bind_of_ok hpage]
    by_cases hpa : pa = 0
    · rw [if_pos hpa] at hcase ⊢
      refine ⟨false, [], t, by rw [List.append_nil]; rfl, Nat.zero_le _, ?_, fun h => nomatch h⟩
      simp only [Bool.false_eq_true, false_iff]
      rintro ⟨n, -, ⟨t', hf⟩, -⟩
      rw [touchedPages_cons (Nat.succ_ne_zero n) rfl] at hf
      rcases hf with _ | ⟨hf, -⟩
      exact hcase _ hf
    rw [if_neg hpa] at hcase ⊢
    obtain ⟨bs, hread, hbs⟩ := hcase.readBytes
      (n := (umin (PGSIZE - (srcva - pgRoundDown srcva)) max).toNat) (by omega)
    obtain ⟨own', b, hwf, -⟩ := hcase.page
    rw [bind_of_ok (liftP_of_ok (s := t) hread)]
    by_cases hz : (0 : Byte) ∈ bs
    · -- the string ends on this page
      obtain ⟨hok, hlen, hstr, m, hm, hnul⟩ := isString_of_mem hbs hz
      rw [if_pos hok]
      refine ⟨true, _, t, rfl, by omega, ⟨fun _ => ⟨m, by omega, ⟨t, ?_⟩, hnul⟩, fun _ => rfl⟩,
        fun _ => hstr⟩
      rw [touchedPages_cons (n := m + 1) (Nat.succ_ne_zero m) (by omega), Nat.sub_self]
      exact .cons hcase.fetch (.nil t)
    obtain ⟨heq, -⟩ := copyString_of_not_mem hz
    rw [heq, if_neg Bool.false_ne_true]
    have hlen := length_of_viewBytes hbs
    have hnone : ∀ k < bs.length, s.viewByte u (srcva + intOff k) ≠ some 0 := by
      intro k hk h0
      rw [viewByte_eq_getElem? hbs (by omega), List.getElem?_eq_getElem hk] at h0
      exact hz (Option.some.inj h0 ▸ List.getElem_mem hk)
    obtain ⟨ok, w, t', hrun, hw, hok, hstr⟩ := ih hwf (pgRoundDown srcva + PGSIZE)
      (max - umin (PGSIZE - (srcva - pgRoundDown srcva)) max) (by omega) (done ++ bs)
    -- where the rest of the string is
    have hmore : ∀ m, bs.length = 4096 - srcva.toNat % 4096 →
        srcva + intOff (bs.length + m) = pgRoundDown srcva + PGSIZE + intOff m := by
      intro m hfull
      rw [hfull, add_pagePart]
    refine ⟨ok, bs ++ w, t', by rw [← List.append_assoc]; exact hrun, ?_, ?_, fun h => ?_⟩
    · rw [List.length_append]
      omega
    · rw [hok]
      constructor
      · rintro ⟨m, hm, ⟨t₁, hf⟩, hnul⟩
        have hfull : bs.length = 4096 - srcva.toNat % 4096 := by omega
        refine ⟨bs.length + m, by omega, ⟨t₁, ?_⟩, ?_⟩
        · rw [touchedPages_cons (n := bs.length) (Nat.succ_ne_zero _) (by omega),
            show bs.length + m + 1 - bs.length = m + 1 by omega]
          exact .cons hcase.fetch hf
        · rw [hmore m hfull, ← hcase.view]
          exact hnul
      · rintro ⟨n, hn', ⟨t₁, hf⟩, hnul⟩
        have hge : bs.length ≤ n := by
          by_contra hlt
          exact hnone n (by omega) hnul
        have hfull : bs.length = 4096 - srcva.toNat % 4096 := by omega
        obtain ⟨m, rfl⟩ := Nat.exists_eq_add_of_le hge
        refine ⟨m, by omega, ⟨t₁, ?_⟩, ?_⟩
        · rw [touchedPages_cons (n := bs.length) (Nat.succ_ne_zero _) (by omega),
            show bs.length + m + 1 - bs.length = m + 1 by omega] at hf
          exact (fetches_cons_iff hcase.fetch).1 hf
        · rw [← hmore m hfull, hcase.view]
          exact hnul
    · obtain ⟨m, hw', hnul, hfirst⟩ := hstr h
      have hwlen := length_of_viewBytes hw'
      have hfull : bs.length = 4096 - srcva.toNat % 4096 := by omega
      refine ⟨bs.length + m, ?_, ?_, fun k hk h0 => ?_⟩
      · rw [viewBytes_split s u (n := bs.length) (by omega), List.map_append, hw',
          viewBytes_congr hcase.view,
          show bs.length + m + 1 - bs.length = m + 1 by omega, hbs, hlen]
        rfl
      · rw [hmore m hfull, ← hcase.view]
        exact hnul
      · rcases lt_or_ge k bs.length with hlt | hge
        · exact hnone k hlt h0
        · obtain ⟨k', rfl⟩ := Nat.exists_eq_add_of_le hge
          rw [hmore k' hfull, ← hcase.view] at h0
          exact hfirst k' (by omega) h0

/-! ### The copies -/

/-- A page from `MAXVA` on is not there and cannot be completed. -/
theorem WellFormed.not_fetch (h : WellFormed L ext own s a u) (hva : MAXVA ≤ va) (t : Kernel) :
    ¬ Fetch u va s t := by
  rintro (hres | ⟨-, ⟨j, hj, -⟩, -⟩)
  · exact not_resident_of_le s u hva hres
  · obtain ⟨i, hs, hhas⟩ := uvmVa2vma_some hj
    have hM : MAXVA.toNat = 2 ^ 38 := by decide
    have hlow := vpn_lt_vTrapframe (h.spaces.ok u i j hs) hhas
    rw [BitVec.le_def, hM] at hva
    unfold vpn vTrapframe at hlow
    omega

/-- Pages that can be read lie below `MAXVA`. -/
theorem WellFormed.lt_of_fetches (h : WellFormed L ext own s a u) {vas : List U64}
    (hal : ∀ va ∈ vas, va % PGSIZE = 0) (hf : Fetches u vas s t) : ∀ va ∈ vas, va < MAXVA := by
  induction hf generalizing own a with
  | nil => exact fun _ h => nomatch h
  | cons hfetch _ ih =>
    obtain ⟨pa, t', hpage, hcase⟩ := h.copyinPage (hal _ List.mem_cons_self)
    split_ifs at hcase with hpa
    · exact absurd hfetch (hcase _)
    obtain ⟨own', b, hwf, -⟩ := hcase.page
    rw [← hfetch.unique hcase.fetch] at hwf
    intro va hva
    rcases List.mem_cons.1 hva with rfl | hva
    · by_contra hhigh
      exact h.not_fetch (BitVec.not_lt.1 hhigh) _ hfetch
    · exact ih hwf (fun va hva => hal va (List.mem_cons_of_mem _ hva)) va hva

omit [Layout] in
theorem pageNo_aligned (srcva : U64) (k : ℕ) : pageNo (pgRoundDown srcva) k % PGSIZE = 0 := by
  have hpg : PGSIZE.toNat = 4096 := by decide
  apply BitVec.eq_of_toNat_eq
  simp only [pageNo, BitVec.toNat_umod, BitVec.toNat_add, BitVec.toNat_mul, BitVec.toNat_ofNat, hpg,
    toNat_pgRoundDown]
  change _ = 0
  omega

/-- A range that goes beyond `MAXVA`, or wraps around, cannot be read. -/
theorem WellFormed.not_fetches (h : WellFormed L ext own s a u) {srcva : U64} {len : ℕ}
    (h0 : 0 < len) (hout : MAXVA.toNat < srcva.toNat + len) (t : Kernel) :
    ¬ Fetches u (touchedPages srcva len) s t := by
  intro hf
  have hM : MAXVA.toNat = 2 ^ 38 := by decide
  have hdown := toNat_pgRoundDown srcva
  have hlow : ∀ k < pagesTouched srcva len, pageNo (pgRoundDown srcva) k < MAXVA := by
    intro k hk
    refine h.lt_of_fetches ?_ hf _ (List.mem_map.2 ⟨k, List.mem_range.2 hk, rfl⟩)
    intro va hva
    obtain ⟨k, -, rfl⟩ := List.mem_map.1 hva
    exact pageNo_aligned srcva k
  -- the page at `MAXVA`, or the first page if it lies beyond
  have hk : (2 ^ 38 - (pgRoundDown srcva).toNat) / 4096 < pagesTouched srcva len := by
    unfold pagesTouched
    rw [if_neg h0.ne']
    omega
  have := srcva.isLt
  have hpage := hlow _ hk
  rw [BitVec.lt_def, hM, toNat_pageNo_of_le] at hpage <;> omega

/-- **`copyin` and `copyinstr` read exactly what the process sees.** -/
theorem copies_read_view (h : WellFormed L ext own s a u) (srcva len max : U64) :
    (∃ ok bs t, copyin u srcva len s = .ok ((ok, bs), t) ∧
      (ok = true ↔ ∃ t', Fetches u (touchedPages srcva len.toNat) s t') ∧
      (ok = true → bs.map some = s.viewBytes u srcva len.toNat) ∧
      (0 < len.toNat → MAXVA.toNat < srcva.toNat + len.toNat → ok = false)) ∧
    ∃ ok w t, copyinstrTo u srcva max s = .ok ((ok, w), t) ∧ w.length ≤ max.toNat ∧
      copyinstr u srcva max s = .ok (if ok then some w.dropLast else none, t) ∧
      (ok = true ↔ NulWithin u srcva max.toNat s) ∧ (ok = true → IsString s u srcva w) ∧
      (MAXVA ≤ srcva → ok = false) := by
  obtain ⟨ok, bs, t, hrun, hok, hbs⟩ := h.copyinFrom srcva len le_rfl []
  obtain ⟨ok', w, t', hrun', hlen, hok', hstr⟩ := h.copyinstrToFrom srcva max le_rfl []
  refine ⟨⟨ok, bs, t, hrun, hok, hbs, fun h0 hout => ?_⟩,
    ok', w, t', hrun', hlen, ?_, hok', hstr, fun hhigh => ?_⟩
  · rw [Bool.eq_false_iff, Ne, hok]
    rintro ⟨t₁, hf⟩
    exact h.not_fetches h0 hout t₁ hf
  · rw [copyinstr_eq, copyinstrTo, map_eq_pure_bind, bind_of_ok hrun']
    rfl
  · rw [Bool.eq_false_iff, Ne, hok']
    rintro ⟨n, -, ⟨t₁, hf⟩, -⟩
    refine h.not_fetches (Nat.succ_pos n) ?_ t₁ hf
    rw [BitVec.le_def] at hhigh
    omega

end

attribute [local instance] imageLayout

/-- A process maps its file of one byte in two pages, and stores a byte at the end of the first. -/
def viewRun : List SpaceEvent :=
  [.frame, .new (.proc 0) 0x80030, .map (.proc 0) 0x1000 8192 6 MAP_PRIVATE (some 0) 0 1,
    .store (.proc 0) 0x1fff 65]

/-- Two bytes and a string from there on: one page is in memory, the other comes in. -/
theorem copies_read_view_map : ∃ s bs t w t', Reach SpaceSys.step PlainMaps fileSpaces s ∧
    (copyin (.proc 0) 0x1fff 2 s.kernel = .ok ((true, bs), t) ∧
      bs.map some = s.kernel.viewBytes (.proc 0) 0x1fff 2) ∧
    copyinstr (.proc 0) 0x1fff 8 s.kernel = .ok (some w.dropLast, t') ∧
      IsString s.kernel (.proc 0) 0x1fff w := by
  have hrun : (runsOk SpaceSys.step PlainMaps viewRun fileSpaces).map (fun s => decide (
      s.live = [.proc 0] ∧
      (∀ i < VMA_SIZE, s.kernel.slot (.proc 0) i = if i = 0 then some 0 else none) ∧
      s.kernel.vmas 0 = ⟨true, some 0, 0, 1, 0x1000, 8192, 6, MAP_PRIVATE⟩ ∧
      ((s.kernel.fs.itable 0).ref = 2 ∧ (s.kernel.fs.itable 0).locked = false) ∧
      ((s.kernel.fs.loaded 0).type = 2 ∧ (s.kernel.fs.loaded 0).size = 1 ∧
        (s.kernel.fs.loaded 0).addrs 0 = 70) ∧
      (resultOf (entryAt (s.kernel.uvms (.proc 0)).pagetable TRAPFRAME s.kernel.phys)).map
        (· &&& PTE_U) = some 0 ∧
      (resultOf (entryAt (s.kernel.uvms (.proc 0)).pagetable TRAMPOLINE s.kernel.phys)).map
        (· &&& PTE_U) = some 0 ∧
      (resultOf (copyin (.proc 0) 0x1fff 2 s.kernel)).map Prod.fst = some true ∧
      (resultOf (copyinstrTo (.proc 0) 0x1fff 8 s.kernel)).map Prod.fst = some true)) =
        some true := by
    decide +kernel
  obtain ⟨s, hs, hfacts⟩ := Option.map_eq_some_iff.1 hrun
  obtain ⟨hlive, hslot, hvma, ⟨href, hlock⟩, ⟨htype, hsize, haddr⟩, hframe, htramp, hcopy,
    hcopystr⟩ := of_decide_eq_true hfacts
  have hreach := reach_of_runsOk hs
  obtain ⟨ext, own, a, hT, -⟩ := hreach.invariant fileSpaces_start.inv fun _ _ _ hI hok hs =>
    hI.step hok hs
  have hmem : .proc 0 ∈ s.live := by simp [hlive]
  obtain ⟨hpt, hroot⟩ := hT.spaces.table (.proc 0) hmem
  -- the only vma is the one of the file
  have honly : ∀ i j, s.kernel.slot (.proc 0) i = some j → j = 0 := by
    intro i j hj
    rw [hslot i (hT.spaces.bound _ i j hj)] at hj
    split_ifs at hj
    exact (Option.some.inj hj).symm
  have hwf : WellFormed (· ∈ s.live) ext own s.kernel a (.proc 0) :=
    { hT.toGood with
      live := hmem
      kernel := fun v hv hvalid => by
        rw [hpt, hT.rep.entryAt_eq hroot (by decide)] at hframe htramp
        rcases hT.spaces.cover _ v hmem hvalid with rfl | rfl | ⟨i, j, hj, hpages⟩
        · exact Option.some.inj hframe
        · exact Option.some.inj htramp
        · exact absurd (hpages.2.trans_le (hT.spaces.ok _ i j hj).past_le) (not_lt.2 hv)
      inside := fun i j hj ip hip => by
        obtain rfl := honly i j hj
        rw [hvma] at hip ⊢
        cases hip
        refine ⟨⟨by rw [hsize]; decide, fun bn hbn => ?_⟩, by rw [hsize]; decide⟩
        have hB : BSIZE = 1024 := rfl
        obtain rfl : bn = 0 := by
          rw [hsize, hB] at hbn
          change bn * 1024 < 1 at hbn
          omega
        change (s.kernel.fs.loaded 0).addrs 0 ≠ 0
        rw [haddr]
        decide
      lockable := fun i j ip hj hip => by
        obtain rfl := honly i j hj
        rw [hvma] at hip
        cases hip
        exact ⟨by rw [href]; decide, hlock, by rw [htype]; decide⟩ }
  obtain ⟨⟨ok, bs, t, hcopyin, -, hbs, -⟩, ok', w, t', hstr, -, hcopyinstr, -, hstring, -⟩ :=
    copies_read_view hwf 0x1fff 2 8
  rw [hcopyin] at hcopy
  obtain rfl : ok = true := Option.some.inj hcopy
  rw [hstr] at hcopystr
  obtain rfl : ok' = true := Option.some.inj hcopystr
  exact ⟨s, bs, t, w, t', hreach, ⟨hcopyin, hbs rfl⟩, hcopyinstr, hstring rfl⟩

end Xv6
