import Xv6.CopyFrame
import Xv6.PagesReady

/-!
# User pointers

Every copy to or from user memory goes page by page through `uvm_completemap`, which checks its
address, or through a walk that its caller has to keep below `MAXVA`: `pgt_getpa` and `copyout` do,
`uvm_guaranteecomplete` does not.  So only the pre-faulting of `sys_write` can reach the panic of
`pgt_walk`, and `user_pointers_translate` says when it does.
-/

namespace Xv6

open Bytes Wp

/-! ### Addresses -/

theorem pgRoundDown_pgRoundDown (p : U64) : pgRoundDown (pgRoundDown p) = pgRoundDown p := by
  apply BitVec.eq_of_toNat_eq
  rw [toNat_pgRoundDown, toNat_pgRoundDown]
  omega

theorem toNat_pageNo_of_le {a : U64} {k : ℕ} (h : a.toNat + 4096 * k < 2 ^ 64) :
    (pageNo a k).toNat = a.toNat + 4096 * k := by
  have hpg : PGSIZE.toNat = 4096 := by decide
  rw [pageNo, BitVec.toNat_add, BitVec.toNat_mul, BitVec.toNat_ofNat, hpg]
  omega

section

variable {a e : U64}

theorem pageNo_lt_MAXVA {k : ℕ} (h : k < pagesIn a MAXVA) : pageNo a k < MAXVA := by
  have hmax : MAXVA.toNat = 2 ^ 38 := by decide
  unfold pagesIn at h
  rw [BitVec.lt_def, toNat_pageNo_of_le] <;> omega

theorem MAXVA_le_pageNo : MAXVA ≤ pageNo a (pagesIn a MAXVA) := by
  have hmax : MAXVA.toNat = 2 ^ 38 := by decide
  have := a.isLt
  unfold pagesIn
  rw [BitVec.le_def, toNat_pageNo_of_le] <;> omega

theorem pagesIn_MAXVA_lt (h : pgRoundDown a = a) :
    pagesIn a MAXVA < pagesIn a e ↔ umax MAXVA a < e := by
  have hmax : MAXVA.toNat = 2 ^ 38 := by decide
  have hal : a.toNat % 4096 = 0 := by
    have := toNat_pgRoundDown a
    rw [h] at this
    omega
  unfold pagesIn umax
  split_ifs with hc <;> rw [BitVec.lt_def] at hc ⊢ <;> omega

end

/-! ### Code without a walk from `MAXVA` on -/

/-- Code that does not stop in the panic of `pgt_walk`. -/
abbrev NoWalk {α : Type} (m : K α) : Prop := Keeps (· ≠ .panic "walk") (fun _ _ => True) m

theorem PhysStop.ne_walk {e : Stop} (h : PhysStop e) : e ≠ .panic "walk" := by
  rintro rfl
  revert h
  simp [PhysStop]

theorem FsStop.ne_walk {e : Stop} (h : FsStop e) : e ≠ .panic "walk" := by
  rintro rfl
  revert h
  simp [FsStop, fsPanics]

theorem noWalk_phys {α : Type} {m : P α} (h : PhysOnly m) : NoWalk (liftM m : K α) := ⟨fun _ => by
  rw [wp_liftP]
  exact (h.weaken fun _ => PhysStop.ne_walk).start _⟩

theorem noWalk_fs {α : Type} {m : F α} (h : FsOnly m) : NoWalk (liftM m : K α) := ⟨fun _ => by
  rw [wp_liftF]
  exact (h.weaken fun _ => FsStop.ne_walk).start _⟩

theorem noWalk_acquireProc (i : ℕ) : NoWalk (acquireProc i) :=
  .bind .get fun _ => .bind (keeps_panicIf (by decide)) fun _ => .set fun _ => trivial

theorem noWalk_releaseProc (i : ℕ) : NoWalk (releaseProc i) :=
  .bind .get fun _ => .bind (keeps_panicIf (by decide)) fun _ => .set fun _ => trivial

theorem noWalk_wakeup (me : Option ℕ) (chan : Option Chan) : NoWalk (wakeup me chan) :=
  .loop (fun j => .ite (.pure _) (.bind (noWalk_acquireProc j) fun _ => .bind .get fun _ =>
    .ite (.bind (.set fun _ => trivial) fun _ => noWalk_releaseProc j) (noWalk_releaseProc j))) _ _

/-! ### Page faults -/

theorem noWalk_readPage (vma : Vma) (va : U64) :
    NoWalk (liftM (readPage vma va) : K (List Byte)) := ⟨fun s => by
  rw [wp_liftF]
  exact (readPage_spec vma va (fun _ => FsStop.ne_walk) (by decide) s.fs).mono fun _ _ _ => trivial⟩

theorem noWalk_copies : CopyFrame (· ≠ .panic "walk") fun _ _ => True :=
  ⟨noWalk_phys, noWalk_readPage, by decide⟩

section

variable [Layout]

/-- `uvm_guaranteecomplete` does not check its address. -/
theorem noWalk_uvmGuaranteecomplete (u : UvmPtr) {va : U64} (perm : U64) (h : va < MAXVA) :
    NoWalk (uvmGuaranteecomplete u va perm) := by
  refine .bind .get fun s => .bind (noWalk_phys (physOnly_pgtWalk h)) fun r => ?_
  split
  · exact noWalk_copies.uvmCompletemap _ _ _
  · exact .bind (noWalk_phys (physOnly_loadPte _)) fun _ =>
      .ite (noWalk_copies.uvmCompletemap _ _ _) (.pure _)

theorem uvmGuaranteecomplete_panics (u : UvmPtr) {va : U64} (perm : U64) (h : MAXVA ≤ va)
    (s : Kernel) : uvmGuaranteecomplete u va perm s = .error (.panic "walk") := by
  have hw : wp (uvmGuaranteecomplete u va perm) (· = .panic "walk") (fun _ _ => False) s := by
    unfold uvmGuaranteecomplete
    rw [wp_bind, wp_get, wp_bind, wp_liftP]
    exact (wp_of_error (pgtWalk_panics h _)).2 rfl
  cases hm : uvmGuaranteecomplete u va perm s with
  | ok x => exact (hw.ok hm).elim
  | error e => rw [hw.error hm]

/-! ### Writers -/

/-- A property that `write` has if what it is made of has it. -/
structure Writes (C : ∀ {α : Type}, K α → Prop) (i : ℕ) : Prop extends Composed C where
  copyin : ∀ src len, C (copyin (.proc i) src len)
  fs : ∀ {α : Type} {m : F α}, FsOnly m → C (liftM m : K α)
  wakeup : ∀ chan, C (wakeup (some i) chan)
  setPipe : ∀ pi (g : Kernel → Pipe), C (modify fun s => s.setPipe pi (g s))
  setFile : ∀ f (g : Kernel → File), C (modify fun s => s.setFile f (g s))
  fault : C (throw .fault : K ℕ)
  panic : C (throw (.panic "filewrite") : K (Option ℤ))

namespace Writes

variable {C : ∀ {α : Type}, K α → Prop} {i : ℕ}

theorem fileIp (h : Writes C i) (f : File) : C (fileIp f) := by
  unfold Xv6.fileIp
  split
  · exact h.fault
  · exact h.pure _

theorem filePipe (h : Writes C i) (f : File) : C (filePipe f) := by
  unfold Xv6.filePipe
  split
  · exact h.fault
  · exact h.pure _

theorem pipewrite (h : Writes C i) (pi : ℕ) (addr : U64) (n : U32) : C (pipewrite i pi addr n) := by
  suffices hfrom : ∀ fuel k, C (pipewriteFrom i pi addr n fuel k) from hfrom _ _
  have hwake :
      ∀ {r : ℕ × Option ℤ}, C (do Xv6.wakeup (some i) (some (readChan pi)); return r : K _) :=
    h.bind (h.wakeup _) fun _ => h.pure _
  intro fuel
  induction fuel with
  | zero => exact fun _ => h.pure _
  | succ fuel ih =>
    intro k
    refine h.ite hwake (h.bind h.get fun _ => h.ite (h.pure _) (h.ite hwake ?_))
    exact h.bind (h.copyin _ _) fun r => h.ite hwake (h.bind (h.setPipe pi _) fun _ => ih _)

theorem consolewrite (h : Writes C i) (src : U64) (n : U32) : C (consolewrite i src n) := by
  suffices hfrom : ∀ fuel k, C (consolewriteFrom i src n fuel k) from hfrom _ _
  intro fuel
  induction fuel with
  | zero => exact fun _ => h.pure _
  | succ fuel ih =>
    exact fun k => h.ite (h.pure _) (h.bind (h.copyin _ _) fun _ => h.ite (h.pure _) (ih _))

theorem writeiUser (h : Writes C i) (ip : ℕ) (src : U64) (off n : U32) :
    C (writeiUser (.proc i) ip src off n) := by
  have hfrom : ∀ fuel src off n tot, C (writeiUserFrom (.proc i) ip fuel src off n tot) := by
    intro fuel
    induction fuel with
    | zero => exact fun _ _ _ _ => h.pure _
    | succ fuel ih =>
      exact fun src off n tot => h.ite (h.pure _) (h.bind (h.fs (fsOnly_bmap _ _)) fun _ =>
        h.bind (h.fs (keeps_bread _)) fun _ => h.bind (h.copyin _ _) fun _ =>
          h.ite (h.bind (h.fs (.modify fun _ => trivial)) fun _ => h.pure _)
            (h.bind (h.fs (fsOnly_fsLogWrite _ _)) fun _ => ih _ _ _ _))
  exact h.bind (h.fs (keeps_getInode ip)) fun _ => h.ite (h.pure _) (h.ite (h.pure _)
    (h.bind (hfrom _ _ _ _ _) fun _ => h.bind (h.fs (fsOnly_setInode _ _)) fun _ =>
      h.bind (h.fs (fsOnly_iupdate ip)) fun _ => h.pure _))

theorem filewriteOp (h : Writes C i) (f ip : ℕ) (addr : U64) (n1 : ℕ) :
    C (filewriteOp i f ip addr n1) := by
  refine h.bind (h.fs fsOnly_fsBeginOp) fun _ => h.bind (h.fs (fsOnly_ilock ip)) fun _ =>
    h.bind h.get fun _ => h.bind (h.writeiUser _ _ _ _) fun r => ?_
  have hend : C (do iunlock ip; fsEndOp; return r : K ℤ) :=
    h.bind (h.fs (fsOnly_iunlock ip)) fun _ => h.bind (h.fs fsOnly_fsEndOp) fun _ => h.pure _
  exact h.ite (h.bind (h.setFile f _) fun _ => hend) hend

theorem filewrite (h : Writes C i) (f : ℕ) (addr : U64) (n : U32) : C (filewrite i f addr n) := by
  have hfrom : ∀ ip m fuel k, C (filewriteFrom i f ip addr m fuel k) := by
    intro ip m fuel
    induction fuel with
    | zero => exact fun _ => h.pure _
    | succ fuel ih =>
      exact fun k =>
        h.ite (h.pure _) (h.bind (h.filewriteOp _ _ _ _) fun _ => h.ite (h.pure _) (ih _))
  refine h.bind h.get fun s => h.ite (h.pure _) ?_
  split
  · exact h.bind (h.filePipe _) fun _ => h.bind (h.pipewrite _ _ _) fun _ => h.pure _
  · exact h.ite (h.pure _) (h.bind (h.consolewrite _ _) fun _ => h.pure _)
  · exact h.ite (h.pure _) (h.bind (h.fileIp _) fun _ => h.bind (hfrom _ _ _ _) fun _ => h.pure _)
  · exact h.panic

end Writes

theorem noWalk_writes (i : ℕ) : Writes (fun {α} (m : K α) => NoWalk m) i where
  toComposed := Keeps.composed
  copyin := noWalk_copies.copyin _
  fs := noWalk_fs
  wakeup := noWalk_wakeup _
  setPipe _ _ := .modify fun _ => trivial
  setFile _ _ := .modify fun _ => trivial
  fault := .throw (by decide)
  panic := .throw (by decide)

/-! ### Callers -/

theorem noWalk_piperead (i pi : ℕ) (addr : U64) (n : U32) : NoWalk (piperead i pi addr n) := by
  have h : ∀ fuel k, NoWalk (pipereadFrom i pi addr n fuel k) := by
    intro fuel
    induction fuel with
    | zero => exact fun _ => .pure _
    | succ fuel ih =>
      exact fun k => .ite (.pure _) (.bind .get fun _ => .ite (.pure _)
        (.bind (.set fun _ => trivial) fun _ => .bind (noWalk_copies.copyout _ _ _ _) fun _ =>
          .ite (.pure _) (ih _)))
  exact .bind .get fun _ => .ite (.ite (.pure _) (.pure _)) (.bind (h _ _) fun _ =>
    .bind (noWalk_wakeup _ _) fun _ => .pure _)

theorem noWalk_consoleread (i : ℕ) (dst : U64) (n : U32) : NoWalk (consoleread i dst n) := by
  suffices h : ∀ fuel dst m, NoWalk (consolereadFrom i n.toInt fuel dst m) from h _ _ _
  intro fuel
  induction fuel with
  | zero => exact fun _ _ => .pure _
  | succ fuel ih =>
    intro dst m
    refine .ite (.pure _) (.bind .get fun _ => .ite (.ite (.pure _) (.pure _)) (.ite ?_ ?_))
    · exact .ite (.bind (.set fun _ => trivial) fun _ => .pure _) (.pure _)
    · exact .bind (.set fun _ => trivial) fun _ => .bind (noWalk_copies.copyout _ _ _ _) fun _ =>
        .ite (.pure _) (.ite (.pure _) (ih _ _))

theorem noWalk_readiUser (u : UvmPtr) (ip : ℕ) (dst : U64) (off n : U32) :
    NoWalk (readiUser u ip dst off n) := by
  have h : ∀ fuel dst off n tot, NoWalk (readiUserFrom u ip fuel dst off n tot) := by
    intro fuel
    induction fuel with
    | zero => exact fun _ _ _ _ => .pure _
    | succ fuel ih =>
      exact fun dst off n tot => .ite (.pure _) (.bind (noWalk_fs (fsOnly_bmap _ _)) fun _ =>
        .bind (noWalk_fs (keeps_bread _)) fun _ => .bind (noWalk_copies.copyout _ _ _ _) fun _ =>
          .ite (.pure _) (ih _ _ _ _))
  exact .bind (noWalk_fs (keeps_getInode ip)) fun _ => .ite (.pure _) (h _ _ _ _ _)

theorem noWalk_filestat (i f : ℕ) (addr : U64) : NoWalk (filestat i f addr) :=
  .bind .get fun _ => .ite (.pure _) (.bind ((noWalk_writes i).fileIp _) fun ip =>
    .bind (noWalk_fs (fsOnly_ilock ip)) fun _ => .bind (noWalk_fs (keeps_getInode ip)) fun _ =>
      .bind (noWalk_fs (fsOnly_iunlock ip)) fun _ => .bind (noWalk_copies.copyout _ _ _ _) fun _ =>
        .ite (.pure _) (.pure _))

theorem noWalk_filereadInode (i f ip : ℕ) (addr : U64) (n : U32) :
    NoWalk (filereadInode i f ip addr n) := by
  refine .bind (noWalk_fs (fsOnly_ilock ip)) fun _ => .bind .get fun _ =>
    .bind (noWalk_readiUser _ _ _ _ _) fun r => ?_
  have hend : NoWalk (do iunlock ip; return r : K ℤ) :=
    .bind (noWalk_fs (fsOnly_iunlock ip)) fun _ => .pure _
  exact .ite (.bind (.modify fun _ => trivial) fun _ => hend) hend

theorem noWalk_fileread (i f : ℕ) (addr : U64) (n : U32) : NoWalk (fileread i f addr n) := by
  refine .bind .get fun s => .ite (.pure _) ?_
  split
  · exact .bind ((noWalk_writes i).filePipe _) fun _ => noWalk_piperead _ _ _ _
  · exact .ite (.pure _) (.bind (noWalk_consoleread _ _ _) fun _ => .pure _)
  · exact .bind ((noWalk_writes i).fileIp _) fun _ => .bind (noWalk_filereadInode _ _ _ _ _)
      fun _ => .pure _
  · exact .throw (by decide)

theorem noWalk_sysRead (i : ℕ) (fd : U32) (p : U64) (n : U32) : NoWalk (sysRead i fd p n) := by
  refine .bind .get fun s => ?_
  split
  · exact .pure _
  · exact noWalk_fileread _ _ _ _

theorem noWalk_sysFstat (i : ℕ) (fd : U32) (st : U64) : NoWalk (sysFstat i fd st) := by
  refine .bind .get fun s => ?_
  split
  · exact .pure _
  · exact noWalk_filestat _ _ _

theorem noWalk_pipeFds (i : ℕ) (fdarray : U64) (fd0 fd1 : ℤ) :
    NoWalk (pipeFds i fdarray fd0 fd1) :=
  .bind (noWalk_copies.copyout _ _ _ _) fun _ => .ite (.pure _) (noWalk_copies.copyout _ _ _ _)

theorem noWalk_sysGetpinfo (i : ℕ) (useraddr : U64) : NoWalk (sysGetpinfo i useraddr) :=
  .ite (.pure _) (.bind .get fun _ => .bind (noWalk_copies.copyout _ _ _ _) fun _ =>
    .ite (.pure _) (.pure _))

theorem noWalk_fetchaddr (i : ℕ) (addr : U64) : NoWalk (fetchaddr i addr) :=
  .bind (noWalk_copies.copyin _ _ _) fun _ => .pure _

theorem noWalk_execFetch (i : ℕ) (path uargv : U64) : NoWalk (execFetch i path uargv) := by
  have h : ∀ fuel k argv pages, NoWalk (execArgv i uargv fuel k argv pages) := by
    intro fuel
    induction fuel with
    | zero => exact fun _ _ _ => .pure _
    | succ fuel ih =>
      intro k argv pages
      refine .bind (noWalk_fetchaddr _ _) fun r => ?_
      split
      · exact .pure _
      refine .ite (.pure _) (.bind (noWalk_phys physOnly_kalloc) fun _ => .ite (.pure _)
        (.bind (noWalk_copies.copyinstr _ _ _) fun r => ?_))
      split
      · exact .pure _
      · exact ih _ _ _
  refine .bind (noWalk_copies.copyinstr _ _ _) fun r => ?_
  split
  · exact .pure _
  refine .bind (h _ _ _ _) fun r => ?_
  split <;> exact .pure _

theorem noWalk_freeproc (i : ℕ) : NoWalk (freeproc i) :=
  .bind .get fun _ => .bind (noWalk_phys (.ite (.pure _) (physOnly_kfree _))) fun _ =>
    .bind (.modify fun _ => trivial) fun _ => .bind .get fun _ =>
      .bind (keeps_panicIf (by decide)) fun _ => .set fun _ => trivial

theorem noWalk_waitSlot (i : ℕ) (addr : U64) (j : ℕ) : NoWalk (waitSlot i addr j) := by
  have hfree : ∀ r : Bool × Option ℤ, NoWalk (do freeproc j; releaseProc j; return r : K _) :=
    fun r => .bind (noWalk_freeproc j) fun _ => .bind (noWalk_releaseProc j) fun _ => .pure _
  have hend : ∀ r : Bool × Option ℤ, NoWalk (do releaseProc j; return r : K _) :=
    fun r => .bind (noWalk_releaseProc j) fun _ => .pure _
  refine .bind .get fun s => .ite (.pure _) (.bind (noWalk_acquireProc j) fun _ => .ite ?_ (hend _))
  exact .ite (.bind (noWalk_copies.copyout _ _ _ _) fun _ => .ite (hend _) (hfree _)) (hfree _)

theorem noWalk_wait (i : ℕ) (addr : U64) : NoWalk (wait i addr) := by
  have h : ∀ n j b, NoWalk (waitScan i addr j n b) := by
    intro n
    induction n with
    | zero => exact fun _ _ => .pure _
    | succ n ih =>
      intro j b
      refine .bind (noWalk_waitSlot _ _ _) fun r => ?_
      split
      · exact .pure _
      · exact ih _ _
  refine .bind (h _ _ _) fun r => ?_
  split
  · exact .pure _
  · exact .bind .get fun _ => .ite (.pure _) (.pure _)

/-! ### `sys_write` -/

/-- Pre-faulting reaches the panic exactly if it gets through all pages below `MAXVA` and has more
to do. -/
theorem prefault_walk_iff (u : UvmPtr) {a e : U64} (ha : pgRoundDown a = a) (s : Kernel) :
    prefault u a e s = .error (.panic "walk") ↔
      umax MAXVA a < e ∧ ∃ t, prefault u a MAXVA s = .ok (true, t) := by
  rw [← pagesIn_MAXVA_lt ha]
  unfold prefault
  generalize hB : (fun k : ℕ => (do
    let pa ← uvmGuaranteecomplete u (pageNo a k) PTE_R
    return decide (pa ≠ 0) : K Bool)) = B
  -- the rounds below `MAXVA` do not panic
  have hbelow : ∀ n ≤ pagesIn a MAXVA,
      wp (loopWhile B 0 n) (· ≠ .panic "walk") (fun _ _ => True) s := by
    intro n hn
    refine (wp_loopWhile (fun _ _ => True) (fun _ _ => True) trivial fun j t _ hj _ => ?_).mono
      fun _ _ _ => trivial
    have hround : NoWalk (B j) := by
      rw [← hB]
      exact .bind (noWalk_uvmGuaranteecomplete u _ (pageNo_lt_MAXVA (by omega))) fun _ => .pure _
    exact (hround.start t).mono fun b _ _ => by cases b <;> trivial
  by_cases hlt : pagesIn a MAXVA < pagesIn a e
  swap
  · refine ⟨fun hrun => ?_, fun h => absurd h.1 hlt⟩
    cases hm : loopWhile B 0 (pagesIn a e) s with
    | ok x =>
      rw [bind_of_ok hm] at hrun
      cases h : x.1 <;> rw [h] at hrun <;> cases hrun
    | error e' =>
      rw [bind_of_error hm] at hrun
      exact absurd (Except.error.inj hrun) ((hbelow _ (not_lt.1 hlt)).error hm)
  -- the first round from `MAXVA` on does
  have habove : ∀ t n, loopWhile B (0 + pagesIn a MAXVA) (n + 1) t = .error (.panic "walk") := by
    intro t n
    rw [loopWhile, ← hB]
    refine bind_of_error (bind_of_error ?_)
    rw [zero_add]
    exact uvmGuaranteecomplete_panics u PTE_R MAXVA_le_pageNo t
  obtain ⟨n, hn⟩ : ∃ n, pagesIn a e = pagesIn a MAXVA + (n + 1) :=
    ⟨pagesIn a e - pagesIn a MAXVA - 1, by omega⟩
  rw [hn, loopWhile_add]
  simp only [lt_add_iff_pos_right, Nat.succ_pos, true_and]
  cases hm : loopWhile B 0 (pagesIn a MAXVA) s with
  | error e' =>
    have hne := (hbelow _ le_rfl).error hm
    rw [bind_of_error (bind_of_error hm), bind_of_error hm]
    simp [hne]
  | ok x =>
    obtain ⟨r, t⟩ := x
    cases r with
    | none =>
      have herr := habove t n
      rw [bind_of_error ((bind_of_ok hm).trans herr), bind_of_ok hm]
      exact ⟨fun _ => ⟨t, rfl⟩, fun _ => rfl⟩
    | some j =>
      rw [bind_assoc, bind_of_ok hm, bind_of_ok hm]
      constructor
      · intro h
        cases h
      · rintro ⟨t', h⟩
        cases h

theorem sysWrite_walk_iff (i : ℕ) (fd : U32) (p : U64) (n : U32) (s : Kernel) :
    sysWrite i fd p n s = .error (.panic "walk") ↔
      argfd s i fd ≠ none ∧
        prefault (.proc i) (pgRoundDown p) (p + n.signExtend 64) s = .error (.panic "walk") := by
  cases hf : argfd s i fd with
  | none =>
    have hrun : sysWrite i fd p n s = .ok (some (-1), s) := by
      unfold sysWrite
      rw [bind_of_ok (a := s) (t := s) rfl, hf]
      rfl
    simp [hrun]
  | some f =>
    have hrun : sysWrite i fd p n s = (prefault (.proc i) (pgRoundDown p) (p + n.signExtend 64) >>=
        fun ok => if !ok then pure (some (-1)) else filewrite i f p n) s := by
      unfold sysWrite
      rw [bind_of_ok (a := s) (t := s) rfl, hf]
    rw [hrun]
    simp only [ne_eq, reduceCtorEq, not_false_eq_true, true_and]
    cases hm : prefault (.proc i) (pgRoundDown p) (p + n.signExtend 64) s with
    | error e =>
      rw [bind_of_error hm]
      simp
    | ok x =>
      obtain ⟨ok, t⟩ := x
      rw [bind_of_ok hm]
      have hrest : NoWalk (if !ok then pure (some (-1)) else filewrite i f p n) :=
        .ite (.pure _) ((noWalk_writes i).filewrite _ _ _)
      refine ⟨fun herr => absurd rfl ((hrest.start t).error herr), fun h => by cases h⟩

/-- **User pointers and the address translation.**  No address and no length passed to `read`,
`fstat`, `pipe`, `wait`, `getpinfo`, `exec` or as a path makes `pgt_walk` panic.  `write` makes it
panic unless its range ends below `MAXVA`, or is empty, or some page from its start up to `MAXVA` is
neither there nor completed. -/
theorem user_pointers_translate (s : Kernel) (i : ℕ) :
    (∀ fd p n, sysRead i fd p n s ≠ .error (.panic "walk")) ∧
    (∀ fd st, sysFstat i fd st s ≠ .error (.panic "walk")) ∧
    (∀ p fd0 fd1, pipeFds i p fd0 fd1 s ≠ .error (.panic "walk")) ∧
    (∀ p, wait i p s ≠ .error (.panic "walk")) ∧
    (∀ p, sysGetpinfo i p s ≠ .error (.panic "walk")) ∧
    (∀ path argv, execFetch i path argv s ≠ .error (.panic "walk")) ∧
    (∀ p max, fetchstr i p max s ≠ .error (.panic "walk")) ∧
    ∀ fd p n, sysWrite i fd p n s ≠ .error (.panic "walk") ↔
      argfd s i fd = none ∨ p + n.signExtend 64 ≤ umax MAXVA (pgRoundDown p) ∨
        ¬ ∃ t, PagesReady (.proc i) PTE_R (pagesUpTo (pgRoundDown p) MAXVA) s t := by
  have hne : ∀ {α : Type} {m : K α}, NoWalk m → m s ≠ .error (.panic "walk") :=
    fun h herr => (h.start s).error herr rfl
  refine ⟨fun _ _ _ => hne (noWalk_sysRead _ _ _ _), fun _ _ => hne (noWalk_sysFstat _ _ _),
    fun _ _ _ => hne (noWalk_pipeFds _ _ _ _), fun _ => hne (noWalk_wait _ _),
    fun _ => hne (noWalk_sysGetpinfo _ _), fun _ _ => hne (noWalk_execFetch _ _ _),
    fun _ _ => hne (noWalk_copies.copyinstr _ _ _), fun fd p n => ?_⟩
  simp only [Ne, sysWrite_walk_iff, prefault_walk_iff _ (pgRoundDown_pgRoundDown p), prefault_iff,
    not_and_or, not_not, BitVec.not_lt]

end

attribute [local instance] imageLayout

/-- A kernel with one process that has the file 0, open for writing, as its descriptor 0. -/
def writerKernel : Kernel where
  phys := Kernel.zero.phys
  fs := Fs.zero
  vmas := Kernel.zero.vmas
  uvms := Kernel.zero.uvms
  procs _ := { Proc.zero with ofile := fun fd => if fd = 0 then some 0 else none }
  files _ := ⟨.inode, 1, true, true, none, some 0, 0, 0⟩
  pipes := Kernel.zero.pipes
  cons := Kernel.zero.cons
  nextpid := 2
  initproc := some 0

/-- **A byte written from `MAXVA` stops the kernel**, whatever is mapped. -/
theorem write_from_MAXVA_panics :
    sysWrite 0 0 MAXVA 1 writerKernel = .error (.panic "walk") := by
  rw [sysWrite_walk_iff, prefault_walk_iff _ (pgRoundDown_pgRoundDown _)]
  have hnone : pagesIn (pgRoundDown MAXVA) MAXVA = 0 := by decide
  refine ⟨by decide, by decide, writerKernel, ?_⟩
  unfold prefault
  rw [hnone]
  rfl

end Xv6
