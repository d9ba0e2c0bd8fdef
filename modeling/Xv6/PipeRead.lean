import Xv6.CopyPages
import Xv6.CopyStore
import Xv6.TableFrame

/-!
# Reading a pipe

`piperead` takes a byte out of the pipe, `nread++`, before `copyout` stores it.  If `copyout` fails,
`piperead` returns the number of bytes stored, and the byte it has taken is lost.
`piperead_exact_iff` says that this is the only way to lose a byte: where no page of the buffer is
refused, the bytes removed are those stored, in order, at the start of the buffer.
-/

namespace Xv6

open Bytes Run Wp

/-! ### Code that leaves pipes alone -/

def Kernel.withPipes (s : Kernel) (P : ℕ → Pipe) : Kernel := { s with pipes := P }

/-- `m` neither looks at the pipes nor changes them. -/
def PipeFree {α : Type} (m : K α) : Prop :=
  ∀ s P, m (s.withPipes P) = (m s).map fun r => (r.1, r.2.withPipes P)

namespace PipeFree

variable {α β : Type}

theorem pure (x : α) : PipeFree (Pure.pure x : K α) := fun _ _ => rfl

theorem throw (e : Stop) : PipeFree (MonadExcept.throw e : K α) := fun _ _ => rfl

theorem bind {m : K α} {f : α → K β} (hm : PipeFree m) (hf : ∀ x, PipeFree (f x)) :
    PipeFree (m >>= f) := by
  intro s P
  rcases hrun : m s with e | ⟨x, t⟩
  · rw [bind_of_error hrun, bind_of_error (e := e) (by rw [hm, hrun]; rfl)]
    rfl
  · rw [bind_of_ok hrun, bind_of_ok (a := x) (t := t.withPipes P) (by rw [hm, hrun]; rfl)]
    exact hf x t P

theorem ite {c : Prop} [Decidable c] {m m' : K α} (hm : PipeFree m) (hm' : PipeFree m') :
    PipeFree (if c then m else m') := by
  split_ifs
  · exact hm
  · exact hm'

/-- What is read of the state is not its pipes. -/
theorem getBind {f : Kernel → K α} (hf : ∀ s P, f (s.withPipes P) = f s) (h : ∀ s, PipeFree (f s)) :
    PipeFree (get >>= f) := by
  intro s P
  change f (s.withPipes P) (s.withPipes P) = (f s s).map _
  rw [hf]
  exact h s s P

theorem liftP (m : P α) : PipeFree (liftM m : K α) := by
  intro s Q
  change zoom _ _ m (s.withPipes Q) = (zoom _ _ m s).map _
  unfold zoom
  rw [show (s.withPipes Q).phys = s.phys from rfl]
  rcases m s.phys with e | ⟨x, t⟩ <;> rfl

theorem liftF (m : F α) : PipeFree (liftM m : K α) := by
  intro s Q
  change zoom _ _ m (s.withPipes Q) = (zoom _ _ m s).map _
  unfold zoom
  rw [show (s.withPipes Q).fs = s.fs from rfl]
  rcases m s.fs with e | ⟨x, t⟩ <;> rfl

theorem completeFresh (vma : Vma) (va x : U64) : PipeFree (completeFresh vma va x) :=
  (liftP _).bind fun _ => .ite (.pure _) ((liftF _).bind fun _ => (liftP _).bind fun _ => .pure _)

section

variable [Layout]

theorem completeEntry (vma : Vma) (va perm x : U64) : PipeFree (completeEntry vma va perm x) :=
  (liftP _).bind fun _ => .ite (completeFresh _ _ _) (.ite (.pure _) (.ite (liftP _) (.throw _)))

theorem uvmCompletemap (u : UvmPtr) (va perm : U64) : PipeFree (uvmCompletemap u va perm) := by
  refine .ite (.pure _) (.getBind (fun _ _ => rfl) fun s => ?_)
  cases uvmVa2vma s u va with
  | none => exact .pure _
  | some j =>
    refine .ite (.pure _) ((liftP _).bind fun r => ?_)
    cases r with
    | none => exact .pure _
    | some x => exact completeEntry _ _ _ _

theorem copyoutPage (u : UvmPtr) (va : U64) : PipeFree (copyoutPage u va) := by
  refine .getBind (fun _ _ => rfl) fun s => (liftP _).bind fun r => ?_
  cases r with
  | none => exact uvmCompletemap _ _ _
  | some x => exact (liftP _).bind fun _ => .ite (uvmCompletemap _ _ _) (.pure _)

theorem copyout (u : UvmPtr) (dstva : U64) (src : ℕ → Byte) (len : U64) :
    PipeFree (copyout u dstva src len) := by
  have hloop : ∀ fuel dstva k len, PipeFree (copyoutFrom u src fuel dstva k len) := by
    intro fuel
    induction fuel with
    | zero => exact fun _ _ _ => .pure _
    | succ fuel ih =>
      exact fun dstva k len => .ite (.pure _) ((copyoutPage _ _).bind fun _ => .ite (.pure _)
        ((liftP _).bind fun _ => ih _ _ _))
  exact .ite (.pure _) (hloop _ _ _ _)

end

end PipeFree

/-! ### The bytes of a pipe -/

namespace Pipe

/-- The number of bytes in the pipe. -/
def pending (p : Pipe) : ℕ := (p.nwrite - p.nread).toNat

/-- The pipe without its first `k` bytes. -/
def skip (p : Pipe) (k : ℕ) : Pipe := { p with nread := p.nread + BitVec.ofNat 32 k }

/-- The first `m` bytes. -/
def first (p : Pipe) (m : ℕ) : List Byte :=
  (List.range m).map fun k => p.data ((p.nread + BitVec.ofNat 32 k).toNat % PIPESIZE)

variable (p : Pipe)

@[simp]
theorem skip_zero : p.skip 0 = p := by
  cases p
  simp [skip]

theorem skip_skip (j k : ℕ) : (p.skip j).skip k = p.skip (j + k) := by
  simp only [skip, BitVec.add_assoc, BitVec.ofNat_add]

theorem first_length (m : ℕ) : (p.first m).length = m := by
  rw [first, List.length_map, List.length_range]

theorem first_succ (m : ℕ) :
    p.first (m + 1) = p.data (p.nread.toNat % PIPESIZE) :: (p.skip 1).first m := by
  have hnext : ∀ k, (p.skip 1).nread + BitVec.ofNat 32 k = p.nread + BitVec.ofNat 32 (k + 1) := by
    intro k
    rw [skip, BitVec.add_assoc, ← BitVec.ofNat_add, Nat.add_comm 1 k]
  rw [first, List.range_succ_eq_map, List.map_cons, List.map_map, first]
  simp only [hnext]
  simp [skip, Function.comp_def]

theorem pending_eq_zero {p : Pipe} : p.pending = 0 ↔ p.nread = p.nwrite := by
  have hr := p.nread.isLt
  have hw := p.nwrite.isLt
  rw [pending, BitVec.toNat_sub, BitVec.toNat_eq]
  omega

theorem pending_skip_one {p : Pipe} (h : p.nread ≠ p.nwrite) :
    p.pending = (p.skip 1).pending + 1 := by
  have hr := p.nread.isLt
  have hw := p.nwrite.isLt
  rw [Ne, BitVec.toNat_eq] at h
  simp only [pending, skip, BitVec.toNat_sub, BitVec.toNat_add, BitVec.toNat_ofNat]
  omega

theorem skip_ne {j : ℕ} : p.skip (j + 1) ≠ p.skip j := by
  intro h
  have h1 := congrArg (fun q => q.nread.toNat) h
  simp only [skip, BitVec.toNat_add, BitVec.toNat_ofNat] at h1
  omega

end Pipe

/-! ### `piperead` -/

section

variable [Layout]

/-- A `copyout` of one of the bytes `bs`, one after the other from `addr` on, fails. -/
def copyoutFails (u : UvmPtr) : U64 → List Byte → Kernel → Bool
  | _, [], _ => false
  | addr, b :: bs, s =>
    match copyout u addr (fun _ => b) 1 s with
    | .ok (true, t) => copyoutFails u (addr + 1) bs t
    | .ok (false, _) => true
    | .error _ => false

variable {L : UvmPtr → Prop} {ext : ℕ → ℕ∞} {own : ℕ → Owner} {s t : Kernel} {a : Maps} {u : UvmPtr}

theorem copyoutFails_withPipes (addr : U64) (bs : List Byte) (s : Kernel) (P : ℕ → Pipe) :
    copyoutFails u addr bs (s.withPipes P) = copyoutFails u addr bs s := by
  induction bs generalizing addr s with
  | nil => rfl
  | cons b bs ih =>
    rw [copyoutFails, copyoutFails, PipeFree.copyout]
    rcases copyout u addr (fun _ => b) 1 s with e | ⟨_ | _, t⟩
    · rfl
    · rfl
    · exact ih _ _

/-- The page of each of the `n` bytes from `addr` on. -/
def bytePages (addr : U64) (n : ℕ) : List U64 :=
  (List.range n).map fun k => pgRoundDown (addr + intOff k)

omit [Layout] in
theorem bytePages_succ (addr : U64) (n : ℕ) :
    bytePages addr (n + 1) = pgRoundDown addr :: bytePages (addr + 1) n := by
  have hnext : ∀ k, addr + intOff (k + 1) = addr + 1 + intOff k := by
    intro k
    rw [BitVec.add_assoc, intOff, intOff, Nat.add_comm, BitVec.ofNat_add]
    rfl
  unfold bytePages
  rw [List.range_succ_eq_map, List.map_cons, List.map_map,
    show addr + intOff 0 = addr from BitVec.add_zero addr]
  exact congrArg _ (List.map_congr_left fun k _ => congrArg pgRoundDown (hnext k))

/-- Some page of `vas` is refused for a store, when the pages before it are ready. -/
def RefusesStore (u : UvmPtr) (vas : List U64) (s : Kernel) : Prop :=
  Meets (fun va t => MAXVA ≤ va ∨ Refused u PTE_W va t) u vas s

omit [Layout] in
theorem inRange_one_iff {addr : U64} : InRange addr 1 ↔ pgRoundDown addr < MAXVA := by
  refine ⟨fun h => pgRoundDown_lt_MAXVA.2 ?_, inRange_one⟩
  have h1 := h.1
  have h2 := h.2
  rw [BitVec.le_def] at h1 h2
  rw [BitVec.lt_def]
  have hne : (addr + 1).toNat ≠ addr.toNat := by
    intro he
    have := BitVec.eq_of_toNat_eq he
    bv_omega
  omega

/-- **Whether one of the copies fails can be told by the pages of the bytes.** -/
theorem StorePages.copyoutFails_iff (h : StorePages L ext own s a u) {q : Phys}
    (ht : Twin own s.phys q) (addr : U64) (bs : List Byte) :
    copyoutFails u addr bs s = true ↔
      RefusesStore u (bytePages addr bs.length) (s.io q s.fs) := by
  induction bs generalizing s own a q addr with
  | nil => exact iff_of_false Bool.false_ne_true meets_nil
  | cons b bs ih =>
    rw [List.length_cons, bytePages_succ, RefusesStore, meets_cons, copyoutFails]
    by_cases hin : InRange addr 1
    swap
    · rw [copyout_eq_false hin]
      exact iff_of_true rfl (.inl (.inl (BitVec.not_lt.1 (mt inRange_one_iff.2 hin))))
    have hlt := inRange_one_iff.1 hin
    rw [copyout_one_eq hin]
    constructor
    · intro hfails
      rcases hrun : copyoutPart u (fun _ => b) addr 0 1 s with e | ⟨_ | _, t⟩
      · rw [hrun] at hfails
        cases hfails
      · exact .inl (.inr ((h.copyoutPart_refused ht).1 ⟨t, hrun⟩))
      · rw [hrun] at hfails
        obtain ⟨t₁, hr⟩ := h.ready_of_copyoutPart ht hrun
        obtain ⟨t', own', c, q', hrun', h', ht', rfl⟩ := h.copyoutPart_ready ht hr
        obtain rfl := (Prod.mk.inj (Except.ok.inj (hrun.symm.trans hrun'))).2
        exact .inr ⟨_, hr, (ih h' ht' _).1 hfails⟩
    · rintro ((hge | href) | ⟨t₁, hr, hmeets⟩)
      · exact absurd hlt (BitVec.not_lt.2 hge)
      · obtain ⟨t, hrun⟩ : ∃ t, copyoutPart u (fun _ => b) addr 0 1 s = .ok (false, t) :=
          (h.copyoutPart_refused ht).2 href
        rw [hrun]
      · obtain ⟨t', own', c, q', hrun, h', ht', rfl⟩ := h.copyoutPart_ready ht hr
        rw [hrun]
        exact (ih h' ht' _).2 hmeets

/-- The rest of the kernel does not matter. -/
theorem OwnPages.frame (h : OwnPages L ext own s a u) (hu : t.uvms = s.uvms) (hv : t.vmas = s.vmas)
    (hp : t.phys = s.phys) : OwnPages L ext own t a u := by
  cases t
  cases hu
  cases hv
  cases hp
  exact ⟨⟨⟨h.rep, h.spaces.frame rfl rfl, h.counted⟩, h.live, h.trapframe, h.trampoline⟩, h.apart⟩

omit [Layout] in
theorem Deposits.refl (u : UvmPtr) (addr : U64) (s : Kernel) : Deposits u addr [] s s :=
  ⟨fun h => absurd rfl h, fun i b hb => by simp at hb, fun _ _ _ _ hc => hc⟩

/-- The loop of `piperead` after `k` bytes: it stores and takes out `j` bytes, and it takes out one
more if a `copyout` fails, which ends it. -/
theorem pipereadFrom_wp {i pi : ℕ} (h : OwnPages L ext own s a (.proc i)) {addr : U64} {n : U32}
    {fuel k : ℕ} (hfuel : n.toInt.toNat - k < fuel) {m : ℕ}
    (hm : m = min (n.toInt.toNat - k) (s.pipes pi).pending) :
    wp (pipereadFrom i pi addr n fuel k)
      (fun _ => copyoutFails (.proc i) (addr + intOff k) ((s.pipes pi).first m) s = false)
      (fun r t => ∃ j, r = ((k + j : ℕ) : ℤ) ∧ j ≤ m ∧ t.procs = s.procs ∧
        Deposits (.proc i) (addr + intOff k) ((s.pipes pi).first j) s t ∧
        t.pipes pi = (s.pipes pi).skip (j +
          if copyoutFails (.proc i) (addr + intOff k) ((s.pipes pi).first m) s then 1 else 0))
            s := by
  induction fuel generalizing k s m own a with
  | zero => omega
  | succ fuel ih =>
    -- where the loop ends before it copies, there is nothing to copy
    have hstop : m = 0 → ∃ j, (k : ℤ) = ((k + j : ℕ) : ℤ) ∧ j ≤ m ∧ s.procs = s.procs ∧
        Deposits (.proc i) (addr + intOff k) ((s.pipes pi).first j) s s ∧
        s.pipes pi = (s.pipes pi).skip (j +
          if copyoutFails (.proc i) (addr + intOff k) ((s.pipes pi).first m) s then 1 else 0) := by
      rintro rfl
      refine ⟨0, rfl, le_rfl, rfl, .refl _ _ _, ?_⟩
      rw [show (s.pipes pi).first 0 = [] from rfl, copyoutFails]
      exact (Pipe.skip_zero _).symm
    rw [pipereadFrom, wp_ite]
    by_cases hn : n.toInt ≤ k
    · rw [if_pos hn]
      exact hstop (by omega)
    rw [if_neg hn, wp_bind, wp_get, wp_ite]
    by_cases hempty : (s.pipes pi).nread = (s.pipes pi).nwrite
    · rw [if_pos hempty]
      exact hstop (by rw [hm, Pipe.pending_eq_zero.2 hempty]; omega)
    rw [if_neg hempty]
    clear hstop
    set p := s.pipes pi with hp
    set b := p.data (p.nread.toNat % PIPESIZE) with hb
    have hpend := Pipe.pending_skip_one hempty
    obtain ⟨m, rfl⟩ : ∃ m', m = m' + 1 := Nat.exists_eq_succ_of_ne_zero (by omega)
    have hm' : m = min (n.toInt.toNat - (k + 1)) (p.skip 1).pending := by omega
    set s₁ := s.setPipe pi { p with nread := p.nread + 1 } with hs₁
    have hs₁' : s₁ = s.withPipes (Function.update s.pipes pi (p.skip 1)) := rfl
    have h₁ : OwnPages L ext own s₁ a (.proc i) := h.frame rfl rfl rfl
    rw [wp_bind, wp_set, wp_bind]
    rw [Pipe.first_succ, ← hb]
    have hfree := PipeFree.copyout (.proc i) (addr + intOff k) (fun _ => b) 1 s
      (Function.update s.pipes pi (p.skip 1))
    rw [← hs₁'] at hfree
    rw [copyoutFails]
    have hspec := h₁.copyout_one (addr + intOff k) b
    rcases hrun : copyout (.proc i) (addr + intOff k) (fun _ => b) 1 s with e | ⟨ok, t₀⟩
    · rw [hrun] at hfree
      rw [wp_of_error hfree]
    rw [hrun] at hfree
    obtain ⟨⟨phys, fs, own', a', ht₀, hown⟩, hdep⟩ := hspec.ok hfree
    rw [wp_of_ok hfree]
    -- the bytes are there, in whichever state the pipes are
    have ht₁ : (t₀.withPipes (Function.update s.pipes pi (p.skip 1))).pipes pi = p.skip 1 :=
      Function.update_self ..
    have hprocs : (t₀.withPipes (Function.update s.pipes pi (p.skip 1))).procs = s.procs := by
      rw [ht₀]
      rfl
    cases ok with
    | false =>
      refine ⟨0, rfl, Nat.zero_le _, hprocs, ⟨hdep.low, hdep.here, hdep.rest⟩, ?_⟩
      exact ht₁
    | true =>
      have hnext : addr + intOff k + 1 = addr + intOff (k + 1) := by
        rw [BitVec.add_assoc, intOff, intOff, BitVec.ofNat_add]
        rfl
      have hrec := ih hown (k := k + 1) (m := m) (by omega) (by rw [ht₁]; exact hm')
      rw [ht₁, copyoutFails_withPipes, ← hnext] at hrec
      refine hrec.mono ?_
      rintro r t ⟨j, rfl, hj, hpr, hdep', hpipe⟩
      refine ⟨j + 1, by push_cast; ring, by omega, hpr.trans hprocs, ?_, ?_⟩
      · rw [Pipe.first_succ, ← hb]
        have hone : Deposits (.proc i) (addr + intOff k) [b] s
            (t₀.withPipes (Function.update s.pipes pi (p.skip 1))) :=
          ⟨hdep.low, hdep.here, hdep.rest⟩
        refine Deposits.append hone ?_ fun _ => Or.inr ?_
        · rw [List.length_singleton, show intOff 1 = 1 from rfl]
          exact hdep'
        · have := hdep.low (by simp)
          have hT : vTrampoline * 4096 < 2 ^ 64 := by decide
          exact lt_of_le_of_lt this hT
      · rw [hpipe, Pipe.skip_skip]
        exact congrArg p.skip ((by omega : ∀ x : ℕ, 1 + (j + x) = j + 1 + x) _)

omit [Layout] in
/-- `wakeup` changes the process table only. -/
theorem wakeup_procs (me : Option ℕ) (chan : Option Chan) (hl : ∀ j, (s.procs j).locked = false) :
    wp (wakeup me chan) (fun _ => False) (fun _ t => ∃ Q, t = { s with procs := Q }) s := by
  refine wp_loop_of (fun _ t => ∃ Q : ℕ → Proc, (∀ j, (Q j).locked = false) ∧
    t = { s with procs := Q }) ⟨s.procs, hl, rfl⟩ ?_ fun t ⟨Q, _, ht⟩ => ⟨Q, ht⟩
  rintro j t - - ⟨Q, hQ, rfl⟩
  unfold wakeupSlot
  have hset : ∀ r : Proc, r.locked = false → ∃ Q' : ℕ → Proc, (∀ j, (Q' j).locked = false) ∧
      ({ s with procs := Q } : Kernel).setProc j r = { s with procs := Q' } := fun r hr =>
    ⟨Function.update Q j r, fun l => by
      by_cases hl : l = j
      · rw [hl, Function.update_self, hr]
      · rw [Function.update_of_ne hl, hQ], rfl⟩
  by_cases hme : me = some j
  · rw [if_pos hme]
    exact ⟨Q, hQ, rfl⟩
  simp only [if_neg hme, wp_bind, wp_get, wp_set, wp_ite, wp_acquireProc, wp_releaseProc, hQ j,
    Kernel.setProc_procs_self, Kernel.setProc_setProc, Proc.lock_locked, Proc.lock_lock,
    Bool.false_eq_true, if_false, if_true]
  split_ifs
  · exact hset _ rfl
  · exact hset _ rfl

/-- If `piperead` returns `r` bytes, it has removed exactly these from the pipe, and they are stored
in order at the start of the buffer. -/
def ReadsExactly (i pi : ℕ) (addr : U64) (n : U32) (s : Kernel) : Prop :=
  ∀ (r : ℕ) (t : Kernel), piperead i pi addr n s = .ok (some r, t) →
    r ≤ (s.pipes pi).pending ∧ t.pipes pi = (s.pipes pi).skip r ∧
      ∀ k b, ((s.pipes pi).first r)[k]? = some b → t.byteAt (.proc i) (addr + intOff k) = some b

/-- **`piperead` loses a byte exactly if the page of one of the bytes is refused**, when the pages
of the bytes before it are ready. -/
theorem piperead_exact_iff {i pi : ℕ} (h : OwnPages L ext own s a (.proc i))
    (hl : ∀ j, (s.procs j).locked = false) (addr : U64) (n : U32) :
    ReadsExactly i pi addr n s ↔ ¬ RefusesStore (.proc i)
      (bytePages addr (min n.toInt.toNat (s.pipes pi).pending)) s := by
  set m := min n.toInt.toNat (s.pipes pi).pending with hm
  have hfails := h.toStorePages.copyoutFails_iff (.refl own _) addr ((s.pipes pi).first m)
  rw [Pipe.first_length] at hfails
  have hiff : ¬ RefusesStore (.proc i) (bytePages addr m) s ↔
      copyoutFails (.proc i) addr ((s.pipes pi).first m) s = false := by
    rw [← Bool.not_eq_true]
    exact not_congr hfails.symm
  rw [hiff]
  by_cases hwait : (s.pipes pi).nread = (s.pipes pi).nwrite ∧ (s.pipes pi).writeopen
  · -- `piperead` returns -1 or sleeps
    have hm0 : m = 0 := by
      rw [hm, Pipe.pending_eq_zero.2 hwait.1]
      omega
    rw [hm0]
    refine iff_of_true (fun r t hrun => ?_) rfl
    have hnone : wp (piperead i pi addr n) (fun _ => True)
        (fun x _ => x = some (-1) ∨ x = none) s := by
      rw [piperead, wp_bind, wp_get, wp_ite, if_pos hwait, wp_ite]
      split_ifs
      · exact Or.inl rfl
      · exact Or.inr rfl
    rcases hnone.ok hrun with he | he
    · have := Option.some.inj he
      omega
    · cases he
  have hzero : addr + intOff 0 = addr := by simp [intOff]
  have hloop := @pipereadFrom_wp _ L ext own s a i pi h addr n _ 0 (Nat.lt_succ_self _) m hm
  rw [hzero] at hloop
  set bad := copyoutFails (.proc i) addr ((s.pipes pi).first m) s with hbad
  have hspec : wp (piperead i pi addr n) (fun _ => bad = false) (fun x t => ∃ j : ℕ,
      x = some (j : ℤ) ∧ j ≤ m ∧ Deposits (.proc i) addr ((s.pipes pi).first j) s t ∧
      t.pipes pi = (s.pipes pi).skip (j + if bad then 1 else 0)) s := by
    rw [piperead, wp_bind, wp_get, wp_ite, if_neg hwait, wp_bind]
    refine hloop.mono ?_
    rintro _ t ⟨j, rfl, hj, hprocs, hdep, hpipe⟩
    rw [wp_bind]
    refine ((wakeup_procs (some i) (some (writeChan pi)) (s := t)
      (hprocs ▸ hl)).weaken fun _ hf => hf.elim).mono ?_
    rintro - _ ⟨Q, rfl⟩
    exact ⟨j, by rw [Nat.zero_add], hj, ⟨hdep.low, hdep.here, hdep.rest⟩, hpipe⟩
  constructor
  · intro hexact
    by_contra hno
    rw [Bool.not_eq_false] at hno
    have htotal : wp (piperead i pi addr n) (fun _ => False) _ s :=
      hspec.weaken fun _ hf => by rw [hno] at hf; cases hf
    obtain ⟨_, t, hrun, j, rfl, -, -, hpipe⟩ := htotal.exists_ok
    rw [hno, if_pos rfl] at hpipe
    exact Pipe.skip_ne _ (hpipe.symm.trans (hexact j t hrun).2.1)
  · intro hgood r t hrun
    obtain ⟨j, hj, hjm, hdep, hpipe⟩ := hspec.ok hrun
    obtain rfl : r = j := by exact_mod_cast Option.some.inj hj
    rw [hgood] at hpipe
    exact ⟨hjm.trans (min_le_right _ _), hpipe, hdep.here⟩

end

attribute [local instance] imageLayout

/-- The bytes 7 and 8 in a pipe. -/
def twoBytes : Pipe := ⟨fun i => if i = 0 then 7 else 8, 0, 2, true, true⟩

/-- The kernel with `twoBytes`, and with no lock of a process held. -/
def holding (s : Kernel) : Kernel :=
  { s with procs := Kernel.zero.procs, pipes := fun _ => twoBytes }

/-- The address space after `mapRun`, whose page is not yet in memory. -/
theorem mapRun_ownPages {s : SpaceSys} (hs : runs SpaceSys.step mapRun fileSpaces = some s) :
    ∃ L ext own a, OwnPages L ext own s.kernel a (.proc 0) := by
  have hrun : (runs SpaceSys.step mapRun fileSpaces).map (fun s => decide (s.live = [.proc 0] ∧
      (∀ i < VMA_SIZE, s.kernel.slot (.proc 0) i = if i = 0 then some 0 else none) ∧
      s.kernel.vmas 0 = ⟨true, some 0, 0, 1, 0x1000, 4096, 6, MAP_PRIVATE⟩ ∧
      resultOf (entryAt (s.kernel.uvms (.proc 0)).pagetable 0x1000 s.kernel.phys) = some 0)) =
      some true := by
    decide +kernel
  rw [hs] at hrun
  obtain ⟨hlive, hslot, hvma, hentry⟩ := of_decide_eq_true (Option.some.inj hrun)
  obtain ⟨ext, own, a, hT, -⟩ := (mapRun_reach hs).invariant fileSpaces_start.inv
    fun _ _ _ hI hok hs => hI.step hok hs
  have hmem : .proc 0 ∈ s.live := by simp [hlive]
  obtain ⟨hpt, hroot⟩ := hT.spaces.table (.proc 0) hmem
  -- the trapframe is alone below the trampoline
  have honly : ∀ v, v < vTrampoline → Valid (a.leaf (s.kernel.root (.proc 0)) v) →
      v = vTrapframe := by
    intro v hlt hvalid
    rcases hT.spaces.cover _ v hmem hvalid with rfl | rfl | ⟨i, j, hj, hpages⟩
    · rfl
    · exact absurd hlt (lt_irrefl _)
    · rw [hslot i (hT.spaces.bound _ i j hj)] at hj
      split_ifs at hj
      obtain rfl := Option.some.inj hj
      rw [hvma] at hpages
      obtain rfl : v = vpn 0x1000 := by
        have hfirst : (⟨true, some 0, 0, 1, 0x1000, 4096, 6, MAP_PRIVATE⟩ : Vma).first = 1 := by
          decide
        have hpast : (⟨true, some 0, 0, 1, 0x1000, 4096, 6, MAP_PRIVATE⟩ : Vma).past = 2 := by
          decide
        have hpage : vpn 0x1000 = 1 := by decide
        rw [Vma.Pages, hfirst, hpast] at hpages
        omega
      rw [hpt, hT.rep.entryAt_eq hroot (by decide)] at hentry
      have hzero : a.leaf (s.kernel.root (.proc 0)) (vpn 0x1000) = 0 := Option.some.inj hentry
      rw [hzero] at hvalid
      exact absurd hvalid (by decide)
  exact ⟨(· ∈ s.live), ext, own, a, { hT.toGood with
    live := hmem
    trapframe := fun _ => hT.trapframe _ hmem
    trampoline := hT.trampoline _ hmem
    apart := fun v v' hv hv' hval hval' _ => by rw [honly v hv hval, honly v' hv' hval'] }⟩

/-- Two bytes are read to a page that is not yet in memory. -/
theorem piperead_exact_two : ∃ s : SpaceSys, ∃ t, Reach SpaceSys.step PlainMaps fileSpaces s ∧
    piperead 0 0 0x1000 2 (holding s.kernel) = .ok (some 2, t) ∧
    t.pipes 0 = twoBytes.skip 2 ∧ t.byteAt (.proc 0) 0x1000 = some 7 ∧
    t.byteAt (.proc 0) 0x1001 = some 8 := by
  have hrun : (runs SpaceSys.step mapRun fileSpaces).map (fun s => decide (
      copyoutFails (.proc 0) 0x1000 [7, 8] (holding s.kernel) = false ∧
      resultOf (piperead 0 0 0x1000 2 (holding s.kernel)) = some (some 2))) = some true := by
    decide +kernel
  obtain ⟨s, hs, hfacts⟩ := Option.map_eq_some_iff.1 hrun
  obtain ⟨hgood, hread⟩ := of_decide_eq_true hfacts
  obtain ⟨L, ext, own, a, hown⟩ := mapRun_ownPages hs
  obtain ⟨t, ht⟩ := exists_ok_of_resultOf hread
  have hown' : OwnPages L ext own (holding s.kernel) a (.proc 0) := hown.frame rfl rfl rfl
  have hexact : ReadsExactly 0 0 0x1000 2 (holding s.kernel) := by
    refine (piperead_exact_iff hown' (fun _ => rfl) 0x1000 2).2 fun hrefuses => ?_
    have htwo : min (2 : U32).toInt.toNat twoBytes.pending = 2 := by decide
    rw [show (holding s.kernel).pipes 0 = twoBytes from rfl, htwo] at hrefuses
    rw [(hown'.copyoutFails_iff (.refl own _) 0x1000 [7, 8]).2 hrefuses] at hgood
    cases hgood
  obtain ⟨-, hpipe, hbytes⟩ := hexact 2 t ht
  exact ⟨s, t, mapRun_reach hs, ht, hpipe, hbytes 0 7 rfl, hbytes 1 8 rfl⟩

/-- A read to an address that no process has: `piperead` returns 0, and the byte is gone. -/
theorem piperead_loses_byte : ¬ ReadsExactly 0 0 0xffffffffffffffff 8192 pipeKernel := by
  intro hexact
  have hrun : (match piperead 0 0 0xffffffffffffffff 8192 pipeKernel with
      | .ok (r, t) => decide (r = some 0 ∧ (t.pipes 0).nread = 1)
      | .error _ => false) = true := by decide +kernel
  rcases h : piperead 0 0 0xffffffffffffffff 8192 pipeKernel with e | ⟨r, t⟩
  · rw [h] at hrun
    cases hrun
  · rw [h] at hrun
    obtain ⟨rfl, hnread⟩ := of_decide_eq_true hrun
    have hpipe := (hexact 0 t h).2.1
    rw [hpipe] at hnread
    exact absurd hnread (by decide)

end Xv6
