import Xv6.CopySleep
import Xv6.LegalAccess
import Xv6.Tracking
import Xv6.UserPtr

/-!
# Code that works in one address space

Page faults, the copies to and from user memory, stores of the process and `sys_write` change the
entries of one address space, by page faults, and the contents of its pages, by stores (`Works`).
The entries stay in step with the vmas on the way, so that the panic of `uvm_completemap` for a page
that is already there is out of reach.
-/

namespace Xv6

open Bytes Wp Count

/-! ### Code that does not panic -/

/-- Every way to stop but the panic of `uvm_completemap`. -/
def NotInvalid (e : Stop) : Prop := e ≠ .panic "invalid pagefault\n"

theorem PhysStop.notInvalid {e : Stop} (h : PhysStop e) : NotInvalid e := by
  rintro rfl
  revert h
  simp [PhysStop]

theorem FsStop.notInvalid {e : Stop} (h : FsStop e) : NotInvalid e := by
  rintro rfl
  revert h
  simp [FsStop, fsPanics]

/-- The same memory and the same address spaces. -/
structure SameSpaces (s t : Kernel) : Prop where
  uvms : t.uvms = s.uvms
  vmas : t.vmas = s.vmas
  phys : t.phys = s.phys

instance : Std.Refl SameSpaces := ⟨fun _ => ⟨rfl, rfl, rfl⟩⟩

instance : IsTrans Kernel SameSpaces :=
  ⟨fun _ _ _ h h' => ⟨h'.uvms.trans h.uvms, h'.vmas.trans h.vmas, h'.phys.trans h.phys⟩⟩

/-- Code that leaves the memory and the address spaces alone. -/
abbrev LeavesSpaces {α : Type} (m : K α) : Prop := Keeps NotInvalid SameSpaces m

theorem leavesSpaces_fs {α : Type} {m : F α} (h : FsOnly m) : LeavesSpaces (liftM m : K α) := by
  refine ⟨fun _ => ?_⟩
  rw [wp_liftF]
  exact ((h.weaken fun _ => FsStop.notInvalid).start _).mono fun _ _ _ => ⟨rfl, rfl, rfl⟩

section

variable {E : Stop → Prop} (ha : E (.panic "acquire")) (hr : E (.panic "release"))

include ha in
theorem keepsSpaces_acquireProc (i : ℕ) : Keeps E SameSpaces (acquireProc i) :=
  .getBind fun s => by
    rw [wp_bind, wp_panicIf]
    split_ifs
    · exact ha
    · exact ⟨rfl, rfl, rfl⟩

include hr in
theorem keepsSpaces_releaseProc (i : ℕ) : Keeps E SameSpaces (releaseProc i) :=
  .getBind fun s => by
    rw [wp_bind, wp_panicIf]
    split_ifs
    · exact hr
    · exact ⟨rfl, rfl, rfl⟩

include ha hr in
theorem keepsSpaces_wakeup (me : Option ℕ) (chan : Option Chan) :
    Keeps E SameSpaces (wakeup me chan) :=
  .loop (fun j => .ite (.pure _) (.bind (keepsSpaces_acquireProc ha j) fun _ => .getBind fun s => by
    rw [wp_ite]
    split_ifs
    · rw [wp_bind, wp_set]
      exact (keepsSpaces_releaseProc hr j).after ⟨rfl, rfl, rfl⟩
    · exact (keepsSpaces_releaseProc hr j).start s)) _ _

end

theorem leavesSpaces_wakeup (me : Option ℕ) (chan : Option Chan) : LeavesSpaces (wakeup me chan) :=
  keepsSpaces_wakeup (by simp [NotInvalid]) (by simp [NotInvalid]) me chan

/-! ### Page faults -/

section

variable [Layout]

variable {L : UvmPtr → Prop} {ext : ℕ → ℕ∞} {own : ℕ → Owner} {s t : Kernel} {a : Maps} {u : UvmPtr}

/-- What `uvm_completemap(u, va, perm)` does to the entries. -/
inductive Faults (u : UvmPtr) (va perm : U64) (s : Kernel) (a : Maps) : U64 → Kernel → Maps → Prop
  | refused : Faults u va perm s a 0 s a
  | completed {j : ℕ} {ret : U64} {phys : Phys} {fs : Fs} {a' : Maps} (hal : va % PGSIZE = 0)
      (hlt : va < MAXVA) (hj : uvmVa2vma s u va = some j)
      (hp : (s.vmas j).perm.setWidth 64 &&& perm ≠ 0)
      (hc : Completes a (s.root u) (vpn va) ((s.vmas j).perm.setWidth 64)
        (Fills s.fs (s.vmas j) va) ret a')
      (hW : Valid (a.leaf (s.root u) (vpn va)) → ret ≠ 0 → perm = PTE_W) :
      Faults u va perm s a ret (s.io phys fs) a'

/-- A page fault leaves the address spaces as they are. -/
theorem Faults.spaces {va perm ret : U64} {b : Maps} (h : Faults u va perm s a ret t b) :
    t.uvms = s.uvms ∧ t.vmas = s.vmas := by
  cases h <;> exact ⟨rfl, rfl⟩

/-- After a fault that was resolved the entry has the write bit, if it was a store. -/
theorem Completes.leaf_write {r v : ℕ} {perm ret : U64} {fill : (ℕ → Byte) → Prop} {b : Maps}
    (h : Completes a r v perm fill ret b) (hret : ret ≠ 0) (hp : perm &&& PTE_W ≠ 0) :
    b.leaf r v &&& PTE_W ≠ 0 := by
  cases h with
  | refused => exact absurd rfl hret
  | fresh hinv hg hpage hd =>
    rw [Maps.setLeaf_leaf_self]
    exact or_and_ne_left (or_and_ne_left (or_and_ne_right _ hp) _) _
  | single hv hu hpg h1 =>
    rw [Maps.setLeaf_leaf_self]
    exact or_and_ne_right _ (by decide)
  | copied hv hu hpg h1 hg hpage =>
    rw [Maps.decref_leaf, Maps.setLeaf_leaf_self]
    exact or_and_ne_right _ (by decide)

variable {E : Stop → Prop}

/-- **A page fault.**  It panics only if the entry has the permission already; a page that is
returned is the one of the entry, and the entry allows the access. -/
theorem Tracked.completemap (h : Tracked L ext own s a) (hu : L u) {va perm : U64}
    (hm : IsAccess perm) (hE : ∀ e, NotInvalid e → E e)
    (hpanic : va < MAXVA → vpn va < vTrapframe → perm ≠ PTE_W →
      Allows (a.leaf (s.root u) (vpn va)) perm → E (.panic "invalid pagefault\n")) :
    wp (uvmCompletemap u va perm) E (fun ret t =>
      ∃ own' a', Tracked L ext own' t a' ∧ Faults u va perm s a ret t a' ∧
        (ret ≠ 0 → va < MAXVA ∧ Allows (a'.leaf (s.root u) (vpn va)) perm ∧
          ret = pte2pa (a'.leaf (s.root u) (vpn va)) ∧
          ∃ p, a'.page (pteFrame (a'.leaf (s.root u) (vpn va))) = some p)) s := by
  obtain ⟨hpt, hr⟩ := h.spaces.table u hu
  -- a page with an entry and a vma is a user page
  have hplace : ∀ j, uvmVa2vma s u va = some j → ∃ i, s.slot u i = some j ∧
      (s.vmas j).Pages (vpn va) ∧ vpn va < vTrapframe := by
    intro j hj
    obtain ⟨i, hs, hhas⟩ := uvmVa2vma_some hj
    have hok := h.spaces.ok u i j hs
    exact ⟨i, hs, hok.pages_of_has hhas, vpn_lt_vTrapframe hok hhas⟩
  refine (uvmCompletemap_spec h.rep hpt hr (fun j hj _ hv _ => ?_) (fun e he => hE e he.notInvalid)
    (hE _ (by simp [NotInvalid])) fun j hlt hj hp hv hU hW => ?_).mono fun ret t ht => ?_
  · obtain ⟨-, -, -, hvt⟩ := hplace j hj
    exact h.counted.page_of_valid (r := s.root u) hvt hv
  · obtain ⟨i, hs, hpages, hvt⟩ := hplace j hj
    exact hpanic hlt hvt hW ((h.tracks u i j _ hs hpages hv).allows (h.plain u i j hs) hv hU hm hp
      fun he => absurd he hW)
  rcases ht with ⟨rfl, rfl⟩ | ⟨j, phys, fs, own', a', hal, hlt, hj, hp, rfl, hrep, -, hc, hW⟩
  · exact ⟨own, a, h, .refused, fun h0 => absurd rfl h0⟩
  have h' := h.complete hu hj hp fs hrep hc hW
  refine ⟨own', a', h', .completed hal hlt hj hp hc hW, fun hret => ⟨hlt, ?_⟩⟩
  obtain ⟨i, hs, hpages, hvt⟩ := hplace j hj
  rcases hc.leaf_cases (isFlags_setWidth (h.spaces.perm u i j hs)) with ⟨h0, -⟩ | ⟨hv, hU, hpa, -⟩
  · exact absurd h0 hret
  refine ⟨(h'.tracks u i j _ hs hpages hv).allows (h.plain u i j hs) hv hU hm hp ?_, hpa.symm, ?_⟩
  · rintro rfl
    exact hc.leaf_write hret hp
  · exact h'.counted.page_of_valid (r := s.root u) hvt hv

/-! ### What is done on the way -/

/-- What code that works in the address space `u` has done since `s`: page faults, stores to the
pages in `D`, and, if `q`, changes of files. -/
inductive Works (L : UvmPtr → Prop) (ext : ℕ → ℕ∞) (u : UvmPtr) (D : ℕ → Prop) (q : Prop)
    (s : Kernel) (a : Maps) : Kernel → Maps → Prop
  | start : Works L ext u D q s a s a
  /-- the rest of the kernel -/
  | other {t t' : Kernel} {b : Maps} (h : Works L ext u D q s a t b) (hsame : SameSpaces t t')
      (hfs : q ∨ t'.fs = t.fs) : Works L ext u D q s a t' b
  | fault {own : ℕ → Owner} {t t' : Kernel} {b b' : Maps} {va perm ret : U64}
      (h : Works L ext u D q s a t b) (hT : Tracked L ext own t b)
      (hrun : uvmCompletemap u va perm t = .ok (ret, t')) (hf : Faults u va perm t b ret t' b') :
      Works L ext u D q s a t' b'
  | store {own : ℕ → Owner} {t : Kernel} {b : Maps} {v : ℕ} {p : Page} {d : ℕ → Byte} {phys : Phys}
      (h : Works L ext u D q s a t b) (hT : Tracked L ext own t b) (hD : D v)
      (hv : Valid (b.leaf (t.root u) v)) (hW : b.leaf (t.root u) v &&& PTE_W ≠ 0)
      (hp : b.page (pteFrame (b.leaf (t.root u) v)) = some p) :
      Works L ext u D q s a (t.io phys t.fs)
        (b.setPage (pteFrame (b.leaf (t.root u) v)) (some { p with data := d }))

/-- Work in the address space `u` from `s` on has led to this state. -/
def Working (L : UvmPtr → Prop) (ext : ℕ → ℕ∞) (u : UvmPtr) (D : ℕ → Prop) (q : Prop) (s : Kernel)
    (a : Maps) (t : Kernel) : Prop :=
  ∃ own b, Tracked L ext own t b ∧ Works L ext u D q s a t b

theorem Tracked.working (h : Tracked L ext own s a) (u : UvmPtr) (D : ℕ → Prop) (q : Prop) :
    Working L ext u D q s a s :=
  ⟨own, a, h, .start⟩

variable {D : ℕ → Prop} {q : Prop} {t' : Kernel} {b : Maps}

theorem Works.uvms (h : Works L ext u D q s a t b) : t.uvms = s.uvms := by
  induction h with
  | start => rfl
  | other _ hsame _ ih => exact hsame.uvms.trans ih
  | fault _ _ _ hf ih => exact hf.spaces.1.trans ih
  | store _ _ _ _ _ _ ih => exact ih

theorem Works.vmas (h : Works L ext u D q s a t b) : t.vmas = s.vmas := by
  induction h with
  | start => rfl
  | other _ hsame _ ih => exact hsame.vmas.trans ih
  | fault _ _ _ hf ih => exact hf.spaces.2.trans ih
  | store _ _ _ _ _ _ ih => exact ih

theorem Working.other (h : Working L ext u D q s a t) (hsame : SameSpaces t t')
    (hfs : q ∨ t'.fs = t.fs) : Working L ext u D q s a t' := by
  obtain ⟨own, b, hT, hw⟩ := h
  exact ⟨own, b, hT.frame hsame.uvms hsame.vmas hsame.phys, hw.other hsame hfs⟩

/-- Code that works in the address space `u` and does not panic. -/
abbrev KeepsWorking (L : UvmPtr → Prop) (ext : ℕ → ℕ∞) (u : UvmPtr) (D : ℕ → Prop) (q : Prop)
    (s : Kernel) (a : Maps) {α : Type} (m : K α) : Prop :=
  Maintains NotInvalid (Working L ext u D q s a) m

theorem keepsWorking_leaves {α : Type} {m : K α} (h : LeavesSpaces m) :
    KeepsWorking L ext u D True s a m :=
  h.maintains fun _ _ hst hs => hs.other hst (Or.inl trivial)

theorem keepsWorking_read {α : Type} {m : P α} (h : PhysOnly m) (hr : ReadsPhys m) :
    KeepsWorking L ext u D q s a (liftM m : K α) := ⟨fun t ht => by
  rw [wp_liftP]
  have hreads : Keeps (fun _ => True) SamePhys m := hr.weaken fun _ _ => trivial
  have hsame : wp m PhysStop (fun _ p => SamePhys t.phys p) t.phys :=
    (hreads.start t.phys).stops (h.start t.phys)
  exact (hsame.weaken fun _ => PhysStop.notInvalid).mono fun _ _ hp =>
    ht.other ⟨rfl, rfl, hp⟩ (Or.inr rfl)⟩

/-- A page fault for an access that the entry does not allow yet. -/
theorem Works.resolves (hw : Works L ext u D q s a t b) (h : Tracked L ext own t b) (hu : L u)
    (va : U64) {perm : U64} (hm : IsAccess perm)
    (hno : va < MAXVA → vpn va < vTrapframe → perm ≠ PTE_W →
      ¬ Allows (b.leaf (t.root u) (vpn va)) perm) :
    wp (uvmCompletemap u va perm) NotInvalid (fun ret x =>
      ∃ own' b', Tracked L ext own' x b' ∧ Works L ext u D q s a x b' ∧ (ret ≠ 0 →
        va < MAXVA ∧ Allows (b'.leaf (x.root u) (vpn va)) perm ∧
          ret = pte2pa (b'.leaf (x.root u) (vpn va)) ∧
          ∃ p, b'.page (pteFrame (b'.leaf (x.root u) (vpn va))) = some p)) t := by
  refine (h.completemap hu hm (fun _ he => he) fun hlt hvt hW hA =>
    absurd hA (hno hlt hvt hW)).run.mono fun ret x hx => ?_
  obtain ⟨hrun, own', b', h', hf, hret⟩ := hx
  refine ⟨own', b', h', hw.fault h hrun hf, ?_⟩
  rw [Kernel.root, hf.spaces.1]
  exact hret

/-! ### Copies -/

/-- The page of a valid user entry is handed out, so it is not page 0. -/
theorem Tracked.pte2pa_ne_zero (h : Tracked L ext own s a) {r v : ℕ} (hvt : v < vTrapframe)
    (hv : Valid (a.leaf r v)) : pte2pa (a.leaf r v) ≠ 0 := by
  obtain ⟨p, hp⟩ := h.counted.page_of_valid (r := r) hvt hv
  rw [pte2pa_eq_pageAddr]
  exact (h.rep.allocatable hp).pageAddr_ne_zero

/-- `copyin` and `copyinstr` ask for a page only if it is not there or not a user page. -/
theorem keepsWorking_copyinPage (hu : L u) (va0 : U64) :
    KeepsWorking L ext u D q s a (copyinPage u va0) :=
  .getBind fun t ht => by
    obtain ⟨own, b, h, hw⟩ := ht
    obtain ⟨hpt, hr⟩ := h.spaces.table u hu
    rw [wp_bind, wp_liftP, hpt]
    refine pgtGetpa_spec h.rep hr va0 ?_
    rw [wp_ite]
    by_cases h0 : b.getpa (t.root u) va0 = 0
    · rw [if_pos h0]
      refine (hw.resolves h hu _ (Or.inl rfl) fun hlt hvt _ hA => ?_).mono fun _ x hx => ?_
      · rw [Maps.getpa, if_neg (BitVec.not_le.2 hlt), if_neg (not_or.2 ⟨hA.1, hA.2.1⟩)] at h0
        exact h.pte2pa_ne_zero hvt hA.1 h0
      · obtain ⟨own', b', h', hw', -⟩ := hx
        exact ⟨own', b', h', hw'⟩
    · rw [if_neg h0]
      exact ⟨own, b, h, hw⟩

theorem keepsWorking_readBytes (x : U64) (n : ℕ) :
    KeepsWorking L ext u D q s a (liftM (readBytes x n) : K (List Byte)) :=
  keepsWorking_read (physOnly_readBytes x n) (readsPhys_readBytes x n)

theorem keepsWorking_copyin (hu : L u) (srcva len : U64) :
    KeepsWorking L ext u D q s a (copyin u srcva len) :=
  Composed.copyin Maintains.composed (keepsWorking_copyinPage hu) keepsWorking_readBytes _ _

theorem keepsWorking_copyinstr (hu : L u) (srcva max : U64) :
    KeepsWorking L ext u D q s a (copyinstr u srcva max) :=
  Composed.copyinstr Maintains.composed (keepsWorking_copyinPage hu) keepsWorking_readBytes _ _

/-- The entry of a page, for code that walks to it. -/
theorem wp_entry {α : Type} (h : Rep own s.phys a) {r : ℕ} (hr : a.root r) {va : U64}
    (hwalk : MAXVA ≤ va → E (.panic "walk")) {none : K α} {some : U64 → K α}
    {Q : α → Kernel → Prop}
    (hnone : va < MAXVA → a.leaf r (vpn va) = 0 → wp none E Q s)
    (hsome : va < MAXVA → wp (some (a.leaf r (vpn va))) E Q s) :
    wp (do
      match ← (liftM (pgtWalk (pageAddr r) va false) : K (Option U64)) with
      | .none => none
      | .some x => do
        let pte ← (liftM (loadPte x) : K U64)
        some pte) E Q s := by
  rw [wp_bind, wp_liftP]
  by_cases hva : va < MAXVA
  · refine (pgtWalk_find h hr hva).mono fun res t ht => ?_
    obtain ⟨rfl, hres⟩ := ht
    rcases res with _ | x
    · exact hnone hva hres
    · simp only [wp_bind, wp_liftP, Kernel.io_phys]
      rw [loadPte_slot h hres]
      exact hsome hva
  · exact (wp_of_error (pgtWalk_panics (BitVec.not_lt.1 hva) _)).2 (hwalk (BitVec.not_lt.1 hva))

/-- A page that the kernel can store to by its entry is handed out: it is a user page or a
trapframe. -/
theorem Tracked.page_of_write (h : Tracked L ext own s a) (hu : L u) {v : ℕ}
    (hv : Valid (a.leaf (s.root u) v)) (hW : a.leaf (s.root u) v &&& PTE_W ≠ 0) :
    ∃ p, a.page (pteFrame (a.leaf (s.root u) v)) = some p := by
  rcases h.spaces.cover u v hu hv with rfl | rfl | ⟨i, j, hs, hp⟩
  · have hcount := h.counted.counts (pteFrame (a.leaf (s.root u) vTrapframe))
    have hone : 1 ≤ a.refs (pteFrame (a.leaf (s.root u) vTrapframe)) := by
      rw [hcount]
      exact (h.trapframe u hu).trans le_add_self
    cases hpg : a.page (pteFrame (a.leaf (s.root u) vTrapframe)) with
    | some p => exact ⟨p, rfl⟩
    | none =>
      rw [Maps.refs_of_none hpg] at hone
      exact absurd hone (by simp)
  · exact absurd (h.trampoline u hu) hW
  · have hpast := (h.spaces.ok u i j hs).past_le
    exact h.counted.page_of_valid (r := s.root u) (show v < vTrapframe by have := hp.2; omega) hv

/-- `copyout` asks for a page only if it cannot be stored to. -/
theorem Works.copyoutPage (hw : Works L ext u D q s a t b) (h : Tracked L ext own t b) (hu : L u)
    (va0 : U64) :
    wp (copyoutPage u va0) NotInvalid (fun ret x => ∃ own' b', Tracked L ext own' x b' ∧
      Works L ext u D q s a x b' ∧ (ret ≠ 0 → ret = pte2pa (b'.leaf (x.root u) (vpn va0)) ∧
        Valid (b'.leaf (x.root u) (vpn va0)) ∧ b'.leaf (x.root u) (vpn va0) &&& PTE_W ≠ 0 ∧
        ∃ p, b'.page (pteFrame (b'.leaf (x.root u) (vpn va0))) = some p)) t := by
  obtain ⟨hpt, hr⟩ := h.spaces.table u hu
  rw [Xv6.copyoutPage, wp_bind, wp_get, hpt]
  have hfault :=
      (hw.resolves h hu va0 (Or.inr (Or.inl rfl)) fun _ _ hW => absurd rfl hW).mono
    fun ret x hx => (show ∃ own' b', Tracked L ext own' x b' ∧
      Works L ext u D q s a x b' ∧ (ret ≠ 0 → ret = pte2pa (b'.leaf (x.root u) (vpn va0)) ∧
        Valid (b'.leaf (x.root u) (vpn va0)) ∧ b'.leaf (x.root u) (vpn va0) &&& PTE_W ≠ 0 ∧
        ∃ p, b'.page (pteFrame (b'.leaf (x.root u) (vpn va0))) = some p) from by
    obtain ⟨own', b', h', hw', hret⟩ := hx
    refine ⟨own', b', h', hw', fun h0 => ?_⟩
    obtain ⟨-, hA, hpa, hp⟩ := hret h0
    exact ⟨hpa, hA.1, hA.2.2.1, hp⟩)
  refine wp_entry h.rep hr (fun _ => by simp [NotInvalid]) (fun _ _ => hfault) fun _ => ?_
  rw [wp_ite]
  split_ifs with hc
  · exact hfault
  · rw [not_or] at hc
    exact ⟨own, b, h, hw, fun _ => ⟨rfl, hc.1, hc.2, h.page_of_write hu hc.1 hc.2⟩⟩

/-- A store to a page that is there. -/
theorem Works.writeBytes (hw : Works L ext u D q s a t b) (h : Tracked L ext own t b) {v : ℕ}
    (hD : D v) (hv : Valid (b.leaf (t.root u) v)) (hW : b.leaf (t.root u) v &&& PTE_W ≠ 0)
    {p : Page} (hp : b.page (pteFrame (b.leaf (t.root u) v)) = some p) {off : U64}
    (hoff : off.toNat < 4096) (bs : List Byte) :
    wp (liftM (Xv6.writeBytes (pte2pa (b.leaf (t.root u) v) + off) bs) : K Unit) NotInvalid
      (fun _ x => Working L ext u D q s a x) t := by
  have hA := (h.rep.allocatable hp).lt
  have haddr : pte2pa (b.leaf (t.root u) v) + off =
      BitVec.ofNat 64 (pteFrame (b.leaf (t.root u) v) * 4096 + off.toNat) := by
    apply BitVec.eq_of_toNat_eq
    rw [pte2pa_eq_pageAddr, BitVec.toNat_add, toNat_pageAddr (by omega), BitVec.toNat_ofNat]
  rw [wp_liftP, haddr]
  refine (writeBytes_spec h.rep hp hoff bs).mono fun _ x hx => ?_
  exact ⟨own, _, h.setData hp _ t.fs hx, hw.store h hD hv hW hp⟩

theorem keepsWorking_copyoutFrom (hu : L u) (src : ℕ → Byte) (fuel : ℕ) {x n : U64} (k : ℕ)
    (hD : ∀ va ∈ touchedPages x n.toNat, D (vpn va)) :
    KeepsWorking L ext u D q s a (copyoutFrom u src fuel x k n) := by
  induction fuel generalizing x k n with
  | zero => exact .pure _
  | succ fuel ih =>
    rw [copyoutFrom]
    by_cases hn : n = 0
    · rw [if_pos hn]
      exact .pure _
    rw [if_neg hn]
    rw [touchedPages_cons (pos_toNat hn) rfl, ← toNat_sub_pagePart] at hD
    refine ⟨fun t ht => ?_⟩
    obtain ⟨own, b, h, hw⟩ := ht
    rw [wp_bind]
    refine (hw.copyoutPage h hu _).mono fun pa y hy => ?_
    obtain ⟨own', b', h', hw', hpa⟩ := hy
    rw [wp_ite]
    split_ifs with h0
    · exact ⟨own', b', h', hw'⟩
    · obtain ⟨rfl, hv, hW, p, hp⟩ := hpa h0
      have hoff : (x - pgRoundDown x).toNat < 4096 := by
        rw [toNat_sub_pgRoundDown]
        exact Nat.mod_lt _ (by norm_num)
      rw [wp_bind]
      exact (hw'.writeBytes h' (hD _ (List.mem_cons_self ..)) hv hW hp hoff _).mono
        fun _ z hz => (ih _ fun va hva => hD va (List.mem_cons_of_mem _ hva)).start z hz

/-- `copyout` stores to the pages of the range. -/
theorem keepsWorking_copyout (hu : L u) (dstva : U64) (src : ℕ → Byte) (len : U64) :
    KeepsWorking L ext u (fun v => ∃ va ∈ touchedPages dstva len.toNat, v = vpn va) q s a
      (copyout u dstva src len) :=
  .ite (.pure _) (keepsWorking_copyoutFrom hu src _ _ fun va hva => ⟨va, hva, rfl⟩)

/-! ### Stores of the process -/

/-- What the hardware finds is the page of an entry that is valid and has the permission. -/
theorem mmu_spec {p : Phys} {r : ℕ} (h : Rep own p a) (hr : a.root r) (va perm : U64) :
    wp (mmu (pageAddr r) va perm) E (fun x p' => p' = p ∧ ∀ pa, x = some pa →
      Valid (a.leaf r (vpn va)) ∧ a.leaf r (vpn va) &&& perm ≠ 0 ∧
        pa = pte2pa (a.leaf r (vpn va)) + va % PGSIZE) p := by
  rw [mmu, wp_ite]
  split_ifs with hva
  · exact ⟨rfl, nofun⟩
  rw [wp_bind]
  refine (pgtWalk_find h hr (BitVec.not_le.1 hva)).mono fun res p' hp' => ?_
  obtain ⟨rfl, hres⟩ := hp'
  rcases res with _ | x
  · exact ⟨rfl, nofun⟩
  rw [wp_bind, loadPte_slot h hres, wp_ite]
  split_ifs with hc
  · exact ⟨rfl, nofun⟩
  · push Not at hc
    refine ⟨rfl, fun pa hpa => ⟨hc.1, hc.2.2, ?_⟩⟩
    exact (Option.some.inj hpa).symm

/-- A store goes to a page with the write bit. -/
theorem Works.userAccess (hw : Works L ext u D q s a t b) (h : Tracked L ext own t b) (hu : L u)
    (va : U64) :
    wp (userAccess u va PTE_W) NotInvalid (fun x y => ∃ own' b', Tracked L ext own' y b' ∧
      Works L ext u D q s a y b' ∧ ∀ pa, x = some pa → Valid (b'.leaf (y.root u) (vpn va)) ∧
        b'.leaf (y.root u) (vpn va) &&& PTE_W ≠ 0 ∧
        pa = pte2pa (b'.leaf (y.root u) (vpn va)) + va % PGSIZE) t := by
  obtain ⟨hpt, hr⟩ := h.spaces.table u hu
  rw [Xv6.userAccess, wp_bind, wp_get, wp_bind, wp_liftP, hpt]
  refine (mmu_spec h.rep hr va PTE_W).mono fun x p' hx => ?_
  obtain ⟨rfl, hx⟩ := hx
  rcases x with _ | pa
  · -- the page fault, and the same instruction again
    rw [wp_bind, pageFault, wp_bind]
    refine (hw.resolves h hu _ (Or.inr (Or.inl rfl)) fun _ _ hW => absurd rfl hW).mono
      fun ret y hy => ?_
    obtain ⟨own', b', h', hw', -⟩ := hy
    rw [wp_pure, wp_ite]
    split_ifs with h0
    · exact ⟨own', b', h', hw', nofun⟩
    obtain ⟨hpt', hr'⟩ := h'.spaces.table u hu
    rw [wp_bind, wp_get, wp_bind, wp_liftP, hpt']
    refine (mmu_spec h'.rep hr' va PTE_W).mono fun x p' hx => ?_
    obtain ⟨rfl, hx⟩ := hx
    rcases x with _ | pa
    · simp [NotInvalid]
    · exact ⟨own', b', h', hw', hx⟩
  · exact ⟨own, b, h, hw, hx⟩

theorem keepsWorking_userStore (hu : L u) (va : U64) (x : Byte) :
    KeepsWorking L ext u (· = vpn va) q s a (userStore u va x) := ⟨fun t ht => by
  obtain ⟨own, b, h, hw⟩ := ht
  rw [userStore, wp_bind]
  refine (hw.userAccess h hu va).mono fun pa y hy => ?_
  obtain ⟨own', b', h', hw', hpa⟩ := hy
  rcases pa with _ | pa
  · exact ⟨own', b', h', hw'⟩
  · obtain ⟨hv, hW, rfl⟩ := hpa pa rfl
    obtain ⟨p, hp⟩ := h'.page_of_write hu hv hW
    have hoff : (va % PGSIZE).toNat < 4096 := by
      rw [BitVec.toNat_umod]
      exact Nat.mod_lt _ (by decide)
    rw [wp_bind]
    exact hw'.writeBytes h' rfl hv hW hp hoff [x]⟩

/-! ### `sys_write` -/

/-- `sys_write` asks for a page only if it is not there or cannot be read. -/
theorem keepsWorking_uvmGuaranteecomplete (hu : L u) (va : U64) :
    KeepsWorking L ext u D q s a (uvmGuaranteecomplete u va PTE_R) :=
  .getBind fun t ht => by
    obtain ⟨own, b, h, hw⟩ := ht
    obtain ⟨hpt, hr⟩ := h.spaces.table u hu
    rw [hpt]
    have hfault : b.leaf (t.root u) (vpn va) &&& PTE_V = 0 ∨
      b.leaf (t.root u) (vpn va) &&& PTE_R = 0 →
        wp (uvmCompletemap u va PTE_R) NotInvalid (fun _ x => Working L ext u D q s a x) t := by
      intro hno
      refine (hw.resolves h hu _ (Or.inl rfl) fun _ _ _ hA => ?_).mono fun _ x hx => ?_
      · exact hno.elim hA.1 hA.2.2.1
      · obtain ⟨own', b', h', hw', -⟩ := hx
        exact ⟨own', b', h', hw'⟩
    refine wp_entry h.rep hr (fun _ => by simp [NotInvalid]) (fun _ h0 => hfault (Or.inl ?_))
      fun _ => ?_
    · rw [h0]
      decide
    · rw [wp_ite]
      split_ifs with hc
      · exact hfault hc
      · exact ⟨own, b, h, hw⟩

theorem keepsWorking_prefault (hu : L u) (x e : U64) :
    KeepsWorking L ext u D q s a (prefault u x e) := by
  refine .bind (.loopWhile (fun k => .bind (keepsWorking_uvmGuaranteecomplete hu _) fun _ =>
    .pure _) _ _) fun r => ?_
  split <;> exact .pure _

theorem keepsWorking_writes {i : ℕ} (hu : L (.proc i)) :
    Writes (fun {α} (m : K α) => KeepsWorking L ext (.proc i) D True s a m) i where
  toComposed := Maintains.composed
  copyin := keepsWorking_copyin hu
  fs h := keepsWorking_leaves (leavesSpaces_fs h)
  wakeup _ := keepsWorking_leaves (leavesSpaces_wakeup _ _)
  setPipe _ _ := .modify fun _ ht => ht.other ⟨rfl, rfl, rfl⟩ (Or.inl trivial)
  setFile _ _ := .modify fun _ ht => ht.other ⟨rfl, rfl, rfl⟩ (Or.inl trivial)
  fault := .throw (by simp [NotInvalid])
  panic := .throw (by simp [NotInvalid])

theorem keepsWorking_sysWrite {i : ℕ} (hu : L (.proc i)) (fd : U32) (p : U64) (n : U32) :
    KeepsWorking L ext (.proc i) D True s a (sysWrite i fd p n) := by
  refine .bind .get fun t => ?_
  split
  · exact .pure _
  · exact .bind (keepsWorking_prefault hu _ _) fun _ =>
      .ite (.pure _) ((keepsWorking_writes hu).filewrite _ _ _)

end

end Xv6
