import Xv6.Boot
import Xv6.TableFrame
import Xv6.Lib.Run

/-!
# Slots of the process table

A slot that is UNUSED has to be as `freeproc` leaves it: `allocproc` resets neither `killed` nor
`chan` nor `parent`.  Every step of the system keeps it so (`sysOk_step`), except a `kill` that asks
for the process 0: UNUSED slots have the pid 0, and `kill` does not look at the state of a slot.
`kill_touches_named` is about the runs without such a step, `kill_zero_marks_unused` is one with it.
-/

namespace Xv6

open Bytes Wp Run

/-! ### Slots -/

/-- What `freeproc` leaves of a row. -/
def Row.unused : Row := ⟨false, .unused, none, false, 0, none⟩

/-- A row that `allocproc` has taken. -/
def Row.fresh (pid : ℤ) : Row := ⟨false, .used, none, false, pid, none⟩

/-- The slots of a table: a slot that is UNUSED is as `freeproc` leaves it, the others have a pid,
and no lock is held. -/
structure Slots (T : Table) : Prop where
  clean : ∀ j, (T.rows j).state = .unused → T.rows j = Row.unused
  live : ∀ j, (T.rows j).state ≠ .unused → 0 < (T.rows j).pid
  unlocked : ∀ j, (T.rows j).locked = false
  nextpid : 0 < T.nextpid

namespace Slots

variable {T : Table} {j : ℕ} {r : Row}

/-- A row may change if it stays as the others. -/
theorem set (h : Slots T) (hclean : r.state = .unused → r = Row.unused)
    (hlive : r.state ≠ .unused → 0 < r.pid) (hlock : r.locked = false) : Slots (T.set j r) := by
  have key : ∀ k, ((T.set j r).rows k = r) ∨ ((T.set j r).rows k = T.rows k) := by
    intro k
    by_cases hk : k = j
    · exact Or.inl (by rw [hk, Table.set_rows_self])
    · exact Or.inr (Table.set_rows_of_ne hk)
  refine ⟨fun k => ?_, fun k => ?_, fun k => ?_, h.nextpid⟩ <;> rcases key
    k with hk | hk <;> rw [hk]
  · exact hclean
  · exact h.clean k
  · exact hlive
  · exact h.live k
  · exact hlock
  · exact h.unlocked k

/-- A process that stays one and keeps its pid. -/
theorem setLive (h : Slots T) (hj : (T.rows j).state ≠ .unused) (hr : r.state ≠ .unused)
    (hpid : r.pid = (T.rows j).pid) (hlock : r.locked = false) : Slots (T.set j r) :=
  h.set (fun he => absurd he hr) (fun _ => hpid ▸ h.live j hj) hlock

/-- The next pid has been taken. -/
theorem bump (h : Slots T) : Slots { T with nextpid := T.nextpid + 1 } :=
  ⟨h.clean, h.live, h.unlocked, by have := h.nextpid; change 0 < T.nextpid + 1; omega⟩

end Slots

/-- The table after `allocproc` has taken slot `i`, with the lock as in `locked`. -/
def Table.alloc (T : Table) (i : ℕ) (locked : Bool) : Table :=
  { T.set i { Row.fresh T.nextpid with locked := locked } with nextpid := T.nextpid + 1 }

/-- The table after `allocproc` has taken slot `i` and given it back. -/
def Table.taken (T : Table) (i : ℕ) : Table :=
  { T.set i Row.unused with nextpid := T.nextpid + 1 }

variable {E : Stop → Prop} {s : Kernel}

/-- `findUnused` takes the lock of an unused slot and leaves the others as they are. -/
theorem findUnused_spec (is : List ℕ) (h : ∀ j, (s.procs j).locked = false) :
    wp (findUnused is) E (fun r t =>
      match r with
      | none => t = s ∧ ∀ i ∈ is, (s.procs i).state ≠ .unused
      | some i => (s.procs i).state = .unused ∧
          is.find? (fun i => (s.procs i).state = .unused) = some i ∧
          t.table = s.table.set i { s.table.rows i with locked := true }) s := by
  induction is with
  | nil => exact ⟨rfl, by simp⟩
  | cons i is ih =>
    unfold findUnused
    simp only [wp_bind, wp_get, wp_ite, wp_pure, wp_acquireProc, wp_releaseProc, h i,
      Kernel.setProc_procs_self, Kernel.setProc_setProc]
    by_cases hi : (s.procs i).state = .unused
    · simp [hi, Proc.row]
    · simp only [Proc.lock_lock, Proc.lock_state, Proc.lock_locked, hi, if_false, if_true,
        Bool.false_eq_true, Kernel.setProc_lock (h i)]
      refine ih.mono fun r t ht => ?_
      cases r with
      | none =>
        refine ⟨ht.1, fun k hk => ?_⟩
        rcases List.mem_cons.1 hk with rfl | hk
        · exact hi
        · exact ht.2 k hk
      | some k => exact ⟨ht.1, by simp [hi, ht.2.1], ht.2.2⟩

/-- What `acquire` does to the table. -/
theorem acquireProc_spec (i : ℕ) :
    wp (acquireProc i) (fun _ => True) (fun _ t =>
      t.table = s.table.set i { s.table.rows i with locked := true }) s := by
  rw [wp_acquireProc]
  split_ifs with h
  rw [Kernel.table_setProc]
  rfl

/-- What `release` does to the table. -/
theorem releaseProc_spec (i : ℕ) :
    wp (releaseProc i) (fun _ => True) (fun _ t => (s.table.rows i).locked = true ∧
      t.table = s.table.set i { s.table.rows i with locked := false }) s := by
  rw [wp_releaseProc]
  split_ifs with h
  exact ⟨h, by rw [Kernel.table_setProc]; rfl⟩

theorem allocpid_spec :
    wp allocpid E (fun r t => r = s.table.nextpid ∧
      t.table = { s.table with nextpid := s.table.nextpid + 1 }) s := ⟨rfl, rfl⟩

section

variable [Layout]

theorem freeproc_spec (i : ℕ) :
    wp (freeproc i) (fun _ => True) (fun _ t =>
      t.table = s.table.set i { Row.unused with locked := (s.procs i).locked }) s := by
  unfold freeproc panicIf
  simp only [wp_bind, wp_get, wp_liftP, wp_modify, wp_ite, wp_throw, wp_pure, wp_set]
  refine (wp_true _ _).mono fun _ p _ => ?_
  split_ifs
  simp [Proc.row, Row.unused]

/-- A slot is given back. -/
theorem freeRelease_spec (i : ℕ) :
    wp (do freeproc i; releaseProc i) (fun _ => True) (fun _ t =>
      (s.table.rows i).locked = true ∧ t.table = s.table.set i Row.unused) s := by
  rw [wp_bind]
  refine (freeproc_spec i).mono fun _ t ht => (releaseProc_spec i).mono fun _ u hu => ?_
  rw [ht] at hu
  simpa [Row.unused] using hu

theorem allocproc_spec (h : Slots s.table) :
    wp allocproc (fun _ => True) (fun r t =>
      match r with
      | none => t.table = s.table ∨
          ∃ i, (s.procs i).state = .unused ∧ t.table = s.table.taken i
      | some i => (List.range NPROC).find? (fun i => (s.procs i).state = .unused) = some i ∧
          (t.table = s.table.alloc i true ∨ (t.procs i).locked = false)) s := by
  unfold allocproc
  rw [wp_bind]
  refine (findUnused_spec _ h.unlocked).mono fun r t ht => ?_
  cases r with
  | none => exact Or.inl (by rw [ht.1])
  | some i =>
    obtain ⟨hi, hfind, htab⟩ := ht
    rw [h.clean i hi] at htab
    rw [wp_bind]
    refine allocpid_spec.mono fun pid t₁ h₁ => ?_
    obtain ⟨rfl, h₁⟩ := h₁
    rw [wp_bind]
    refine wp_modify_table (T := s.table.alloc i true) ?_ fun t₂ h₂ => ?_
    · rw [Kernel.table_setProc]
      change t₁.table.set i { t₁.table.rows i with pid := t.table.nextpid, state := .used } = _
      rw [h₁, htab]
      simp [Table.alloc, Table.set, Row.unused, Row.fresh]
    rw [wp_bind, wp_liftP]
    refine (wp_true _ _).mono fun tf p _ => ?_
    rw [wp_bind]
    refine wp_modify_table (T := s.table.alloc i true) ?_ fun t₃ h₃ => ?_
    · refine Eq.trans (Kernel.table_setProc_row ?_) h₂
      rfl
    have hset : (s.table.alloc i true).set i Row.unused = s.table.taken i := by
      simp [Table.alloc, Table.taken, Table.set]
    rw [wp_ite]
    split_ifs
    · -- no page for the trapframe
      rw [← bind_assoc, wp_bind]
      refine (freeRelease_spec i).mono fun _ u hu => Or.inr ⟨i, hi, ?_⟩
      rw [hu.2, h₃, hset]
    · rw [wp_bind]
      refine ((keepsTable_uvmNew _ _).start t₃).mono fun ok t₄ h₄ => ?_
      rw [wp_ite]
      split_ifs
      · rw [← bind_assoc, wp_bind]
        refine (freeRelease_spec i).mono fun _ u hu => ⟨hfind, Or.inr ?_⟩
        change (u.table.rows i).locked = false
        simp [hu.2, Row.unused]
      · exact ⟨hfind, Or.inl (h₄.trans h₃)⟩

/-- The first part of `fork`: the child is UNUSED before and USED after, or nothing is left of
it. -/
theorem forkAlloc_spec (i : ℕ) (h : Slots s.table) :
    wp (forkAlloc i) (fun _ => True) (fun r t =>
      match r with
      | none => t.table = s.table ∨ ∃ j, (s.procs j).state = .unused ∧ t.table = s.table.taken j
      | some (np, pid) => (s.procs np).state = .unused ∧ pid = s.table.nextpid ∧
          t.table = s.table.alloc np false) s := by
  unfold forkAlloc
  rw [wp_bind]
  refine (allocproc_spec h).mono fun r t ht => ?_
  cases r with
  | none => exact ht
  | some np =>
    obtain ⟨hfind, ht⟩ := ht
    have hnp : (s.procs np).state = .unused := by simpa using List.find?_some hfind
    rw [wp_bind]
    refine ((keepsTable_uvmDup _ _).start t).mono fun ok u hu => ?_
    -- without the lock both ways end in the panic of `release`
    have hlock : (u.table.rows np).locked = true → u.table = s.table.alloc np true := by
      intro hl
      rw [hu] at hl ⊢
      exact ht.resolve_right fun hf => by simp [hf] at hl
    rw [wp_ite]
    split_ifs
    · rw [← bind_assoc, wp_bind]
      refine (freeRelease_spec np).mono fun _ v hv => Or.inr ⟨np, hnp, ?_⟩
      rw [hv.2, hlock hv.1]
      simp [Table.alloc, Table.taken, Table.set]
    · rw [wp_bind, wp_get, wp_bind]
      refine ((keepsTable_forkCopy _ _).start u).mono fun _ v hv => ?_
      rw [wp_bind]
      refine (releaseProc_spec np).mono fun _ w hw => ?_
      rw [hv] at hw
      obtain ⟨hl, hw⟩ := hw
      rw [hlock hl] at hw
      refine ⟨hnp, ?_, ?_⟩
      · change (u.table.rows np).pid = _
        rw [hlock hl]
        simp [Table.alloc, Row.fresh]
      · rw [hw]
        simp [Table.alloc, Table.set, Row.fresh]

/-- One round of `wait` changes nothing or gives a ZOMBIE's slot back. -/
theorem waitSlot_spec (i : ℕ) (addr : U64) (j : ℕ) (h : Slots s.table) :
    wp (waitSlot i addr j) (fun _ => True) (fun _ t => t.table = s.table ∨
      (s.procs j).state = .zombie ∧ t.table = s.table.set j Row.unused) s := by
  -- the two ends of a round, with the lock of the slot held
  have hleave : ∀ t : Kernel, t.table = s.table.set j { s.table.rows j with locked := true } →
      wp (releaseProc j) (fun _ => True) (fun _ t => t.table = s.table) t := fun t ht =>
    (releaseProc_spec j).mono fun _ u hu => by
      rw [hu.2, ht, Table.set_set, Table.set_rows_self, ← h.unlocked j]
      exact Table.set_rows
  have hfree : ∀ t : Kernel, t.table = s.table.set j { s.table.rows j with locked := true } →
      wp (do freeproc j; releaseProc j) (fun _ => True)
        (fun _ t => t.table = s.table.set j Row.unused) t := fun t ht =>
    (freeRelease_spec j).mono fun _ u hu => by rw [hu.2, ht, Table.set_set]
  unfold waitSlot
  rw [wp_bind, wp_get, wp_ite]
  split_ifs with hparent hz haddr
  · exact Or.inl rfl
  all_goals
    rw [wp_bind]
    refine (acquireProc_spec j).mono fun _ t ht => ?_
  · dsimp only
    rw [wp_bind]
    refine ((IoOnly.table (ioOnly_copies.copyout _ _ _ _)).start t).mono fun ok u hu => ?_
    rw [wp_ite]
    split_ifs
    · rw [wp_bind]
      exact (hleave u (hu.trans ht)).mono fun _ v hv => Or.inl hv
    · rw [← bind_assoc, wp_bind]
      exact (hfree u (hu.trans ht)).mono fun _ v hv => Or.inr ⟨hz, hv⟩
  · rw [← bind_assoc, wp_bind]
    exact (hfree t ht).mono fun _ u hu => Or.inr ⟨hz, hu⟩
  · rw [wp_bind]
    exact (hleave t ht).mono fun _ u hu => Or.inl hu

end

/-! ### The steps of the system -/

/-- One round of `kill`. -/
theorem killSlot_spec (pid : ℤ) {j : ℕ} (hl : (s.procs j).locked = false) :
    wp (killSlot pid j) E (fun r t =>
      if (s.procs j).pid = pid then r = true ∧ t = s.setProc j (s.procs j).kill
      else r = false ∧ t = s) s := by
  unfold killSlot
  have hkill : ((s.procs j).lock true).kill.lock false = (s.procs j).kill :=
    Proc.lock_self (p := (s.procs j).kill) hl
  have hlocked : ((s.procs j).lock true).kill.locked = true := rfl
  simp only [wp_bind, wp_get, wp_set, wp_ite, wp_pure, wp_acquireProc, wp_releaseProc, hl,
    Kernel.setProc_procs_self, Kernel.setProc_setProc, Proc.lock_lock, Proc.lock_pid,
    Proc.lock_locked, Kernel.setProc_lock hl, Bool.false_eq_true, if_false, if_true, hkill,
    hlocked, true_and]
  split_ifs

section

variable {j : ℕ}

theorem sleepSlot_spec (chan : Chan) (hl : (s.procs j).locked = false) :
    wp (sleepSlot j chan) E (fun _ t =>
      t.table = s.table.set j { s.table.rows j with chan := some chan, state := .sleeping }) s := by
  unfold sleepSlot
  simp [hl, Proc.row]

theorem yieldSlot_spec (hl : (s.procs j).locked = false) :
    wp (yieldSlot j) E (fun _ t =>
      t.table = s.table.set j { s.table.rows j with state := .runnable }) s := by
  unfold yieldSlot
  simp [hl, Proc.row]

theorem becomeZombie_spec (status : ℤ) (hl : (s.procs j).locked = false) :
    wp (becomeZombie j status) E (fun _ t =>
      t.table = s.table.set j { s.table.rows j with state := .zombie }) s := by
  unfold becomeZombie
  simp [hl, Proc.row]

theorem forkRun_spec (hl : (s.procs j).locked = false) :
    wp (forkRun j) E (fun _ t =>
      t.table = s.table.set j { s.table.rows j with state := .runnable }) s := by
  unfold forkRun
  simp [hl, Proc.row]

theorem forkParent_spec (i : ℕ) :
    wp (forkParent i j) E (fun _ t =>
      t.table = s.table.set j { s.table.rows j with parent := some i }) s := by
  unfold forkParent
  simp [Proc.row]

theorem setKilled_spec :
    wp (setKilled j) E (fun _ t =>
      t.table = s.table.set j { s.table.rows j with killed := true }) s := by
  unfold setKilled
  simp [Proc.row]

theorem wakeupSlot_spec (me : Option ℕ) (chan : Option Chan) (hl : (s.procs j).locked = false) :
    wp (wakeupSlot me chan j) E (fun _ t => t.table = s.table ∨
      (s.procs j).state = .sleeping ∧
        t.table = s.table.set j { s.table.rows j with state := .runnable }) s := by
  unfold wakeupSlot
  by_cases hme : me = some j
  · simp [hme]
  by_cases hc : (s.procs j).state = .sleeping ∧ (s.procs j).chan = chan
  · simp [hme, hc, hl, Proc.row]
  · simp [hme, hc, hl, Kernel.table_set_lock hl]

theorem schedule_spec (slept : Bool) (hl : (s.procs j).locked = false) :
    wp (schedule j slept) E (fun _ t => t.table = s.table ∨
      (s.procs j).state = .runnable ∧
        t.table = s.table.set j { s.table.rows j with
          state := .running, chan := if slept then none else (s.procs j).chan }) s := by
  unfold schedule
  by_cases hc : (s.procs j).state = .runnable
  · cases slept <;> simp [hc, hl, Proc.row]
  · simp [hc, hl, Kernel.table_set_lock hl]

theorem adopt_spec (i : ℕ) :
    wp (adopt i j) E (fun _ t => t.table = s.table ∨ (s.procs j).parent = some i ∧
      t.table = s.table.set j { s.table.rows j with parent := s.initproc }) s := by
  unfold adopt
  by_cases hc : (s.procs j).parent = some i
  · simp [hc, Proc.row]
  · simp [hc]

end

/-- A slot is UNUSED or clean, and the children that `fork` is still working on are USED, each in
the hands of one process. -/
structure SysOk (t : Sys) : Prop where
  slots : Slots t.kernel.table
  child : ∀ i np, t.forking i = some np → (t.kernel.table.rows np).state = .used
  once : ∀ i i' np, t.forking i = some np → t.forking i' = some np → i = i'

namespace SysOk

variable {t : Sys} {k : Kernel} {j : ℕ} {r : Row}

theorem same (h : SysOk t) (hk : k.table = t.kernel.table) : SysOk ⟨k, t.forking⟩ :=
  ⟨hk ▸ h.slots, fun i np hi => by rw [hk]; exact h.child i np hi, h.once⟩

theorem set (h : SysOk t) (hk : k.table = t.kernel.table.set j r)
    (hslots : Slots (t.kernel.table.set j r))
    (hchild : ∀ i, t.forking i = some j → r.state = .used) : SysOk ⟨k, t.forking⟩ := by
  refine ⟨hk ▸ hslots, fun i np hi => ?_, h.once⟩
  rw [hk]
  by_cases hnp : np = j
  · subst hnp
    rw [Table.set_rows_self]
    exact hchild i hi
  · rw [Table.set_rows_of_ne hnp]
    exact h.child i np hi

/-- A process that is not USED changes and stays a process. -/
theorem setLive (h : SysOk t) (hk : k.table = t.kernel.table.set j r)
    (hj : (t.kernel.procs j).state ≠ .unused) (hr : r.state ≠ .unused)
    (hpid : r.pid = (t.kernel.procs j).pid) (hlock : r.locked = (t.kernel.procs j).locked)
    (hused : (t.kernel.procs j).state = .used → r.state = .used) : SysOk ⟨k, t.forking⟩ :=
  h.set hk (h.slots.setLive hj hr hpid (hlock.trans (h.slots.unlocked j))) fun i hi =>
    hused (h.child i j hi)

/-- `fork` is done with its child, or `exit` has ended it. -/
theorem forget (h : SysOk t) (i : ℕ) : SysOk ⟨t.kernel, Function.update t.forking i none⟩ := by
  have hsub : ∀ l np, Function.update t.forking i none l = some np → t.forking l = some np := by
    intro l np hl
    by_cases hli : l = i
    · subst hli
      simp at hl
    · rwa [Function.update_of_ne hli] at hl
  exact ⟨h.slots, fun l np hl => h.child l np (hsub l np hl),
    fun l l' np hl hl' => h.once l l' np (hsub l np hl) (hsub l' np hl')⟩

end SysOk

/-- `kill` is not asked for the process 0, unless the slot it looks at is in use. -/
def KillsNamed (t : Sys) (e : SysEvent) : Prop :=
  ∀ pid j, e = .kill pid j → pid ≠ 0 ∨ (t.kernel.procs j).state ≠ .unused

theorem exec_cases {α : Type} {t t' : Sys} {m : K α} {f : α × Kernel → Sys}
    {Q : α → Kernel → Prop} (hs : (t.exec m).map f = some t')
    (hw : wp m (fun _ => True) Q t.kernel) : ∃ r k, Q r k ∧ f (r, k) = t' := by
  obtain ⟨⟨r, k⟩, hrk, hf⟩ := Option.map_eq_some_iff.1 hs
  refine ⟨r, k, hw.ok ?_, hf⟩
  unfold Sys.exec at hrk
  cases hm : m t.kernel with
  | error e => rw [hm] at hrk; cases hrk
  | ok x => rw [hm] at hrk; cases hrk; rfl

theorem SysOk.kill {t : Sys} {k : Kernel} {pid : ℤ} {j : ℕ} {r : Bool} (h : SysOk t)
    (hok : pid ≠ 0 ∨ (t.kernel.procs j).state ≠ .unused)
    (hk : if (t.kernel.procs j).pid = pid then
      r = true ∧ k = t.kernel.setProc j (t.kernel.procs j).kill else r = false ∧ k = t.kernel) :
    SysOk ⟨k, t.forking⟩ := by
  split_ifs at hk with hpid
  swap
  · exact h.same (by rw [hk.2])
  have hlive : (t.kernel.procs j).state ≠ .unused := by
    intro hu
    have hrow : (t.kernel.procs j).row = Row.unused := h.slots.clean j hu
    refine hok.elim (fun hne => hne ?_) fun hne => hne hu
    rw [← hpid]
    exact congrArg Row.pid hrow
  refine h.setLive (r := (t.kernel.procs j).kill.row) (by rw [hk.2, Kernel.table_setProc]) hlive ?_
    rfl rfl fun hused => ?_
  · simp only [Proc.kill, Proc.row]
    split_ifs
    · simp
    · exact hlive
  · simp [Proc.kill, Proc.row, hused]

section

variable [Layout]

theorem sysOk_fork {t t' : Sys} {i : ℕ} (h : SysOk t) (hs : sysStep (.fork i) t = some t') :
    SysOk t' := by
  simp only [sysStep] at hs
  split_ifs at hs with hrun
  obtain ⟨r, k, hk, rfl⟩ := exec_cases hs (forkAlloc_spec i h.slots)
  cases r with
  | none =>
    have hstay : Function.update t.forking i none = t.forking := by
      rw [← hrun.2, Function.update_eq_self]
    dsimp only [Option.map_none]
    rw [hstay]
    rcases hk with hk | ⟨j, hj, hk⟩
    · exact h.same hk
    · -- the slot was taken and given back
      have hset : t.kernel.table.set j Row.unused = t.kernel.table := by
        rw [← h.slots.clean j hj, Table.set_rows]
      rw [Table.taken, hset] at hk
      exact ⟨hk ▸ h.slots.bump, fun l np hl => by rw [hk]; exact h.child l np hl, h.once⟩
  | some x =>
    obtain ⟨np, pid⟩ := x
    obtain ⟨hnp, -, hk⟩ := hk
    have hold : ∀ l c, t.forking l = some c → c ≠ np := by
      rintro l c hl rfl
      have hc : (t.kernel.procs c).state = .used := h.child l c hl
      rw [hnp] at hc
      cases hc
    have hslots : Slots (t.kernel.table.alloc np false) :=
      (h.slots.set (r := Row.fresh t.kernel.table.nextpid) (fun he => by cases he)
        (fun _ => h.slots.nextpid) rfl).bump
    have hcases : ∀ l c, Function.update t.forking i (some np) l = some c →
        l = i ∧ c = np ∨ l ≠ i ∧ t.forking l = some c := by
      intro l c hl
      by_cases hli : l = i
      · subst hli
        simp only [Function.update_self, Option.some.injEq] at hl
        exact Or.inl ⟨rfl, hl.symm⟩
      · rw [Function.update_of_ne hli] at hl
        exact Or.inr ⟨hli, hl⟩
    refine ⟨hk ▸ hslots, fun l c hl => ?_, fun l l' c hl hl' => ?_⟩
    · change (k.table.rows c).state = .used
      rw [hk]
      rcases hcases l c hl with ⟨rfl, rfl⟩ | ⟨-, hl⟩
      · simp [Table.alloc, Row.fresh]
      · have hne := hold l c hl
        have hrow : (t.kernel.table.alloc np false).rows c = t.kernel.table.rows c :=
          Table.set_rows_of_ne hne
        rw [hrow]
        exact h.child l c hl
    · rcases hcases l c hl with ⟨hi, hc⟩ | ⟨-, ho⟩ <;>
        rcases hcases l' c hl' with ⟨hi', hc'⟩ | ⟨-, ho'⟩
      · rw [hi, hi']
      · exact absurd hc (hold l' c ho')
      · exact absurd hc' (hold l c ho)
      · exact h.once l l' c ho ho'

theorem sysOk_step {t t' : Sys} {e : SysEvent} (h : SysOk t) (hok : KillsNamed t e)
    (hs : sysStep e t = some t') : SysOk t' := by
  have hl : ∀ j, (t.kernel.procs j).locked = false := h.slots.unlocked
  cases e with
  | fork i => exact sysOk_fork h hs
  | forkParent i =>
    simp only [sysStep] at hs
    split at hs
    · cases hs
    · rename_i np hnp
      obtain ⟨_, k, hk, rfl⟩ := exec_cases hs (forkParent_spec i)
      have hused : (t.kernel.procs np).state = .used := h.child i np hnp
      refine h.setLive hk ?_ ?_ rfl rfl id <;> simp [hused]
  | forkRun i =>
    simp only [sysStep] at hs
    split at hs
    · cases hs
    · rename_i np hnp
      obtain ⟨_, k, hk, rfl⟩ := exec_cases hs (forkRun_spec (hl _))
      have hused : (t.kernel.procs np).state = .used := h.child i np hnp
      -- the child is in the hands of this process alone
      refine (h.forget i).set hk (h.slots.setLive ?_ ?_ rfl (hl np)) fun l hlnp => ?_
      · simp [hused]
      · simp
      · by_cases hli : l = i
        · subst hli
          simp at hlnp
        · change Function.update t.forking i none l = some np at hlnp
          rw [Function.update_of_ne hli] at hlnp
          exact absurd (h.once l i np hlnp hnp) hli
  | kill pid j =>
    obtain ⟨r, k, hk, rfl⟩ := exec_cases hs (killSlot_spec pid (hl j))
    exact h.kill (hok pid j rfl) hk
  | setKilled i =>
    simp only [sysStep] at hs
    split_ifs at hs with hrun
    rw [Sys.Running] at hrun
    obtain ⟨_, k, hk, rfl⟩ := exec_cases hs setKilled_spec
    refine h.setLive hk ?_ ?_ rfl rfl id <;> simp [hrun]
  | sleep i chan =>
    simp only [sysStep] at hs
    split_ifs at hs with hrun
    rw [Sys.Running] at hrun
    obtain ⟨_, k, hk, rfl⟩ := exec_cases hs (sleepSlot_spec chan (hl _))
    refine h.setLive hk ?_ ?_ rfl rfl ?_ <;> simp [hrun]
  | yield i =>
    simp only [sysStep] at hs
    split_ifs at hs with hrun
    rw [Sys.Running] at hrun
    obtain ⟨_, k, hk, rfl⟩ := exec_cases hs (yieldSlot_spec (hl _))
    refine h.setLive hk ?_ ?_ rfl rfl ?_ <;> simp [hrun]
  | schedule j slept =>
    obtain ⟨_, k, hk, rfl⟩ := exec_cases hs (schedule_spec slept (hl j))
    rcases hk with hk | ⟨hj, hk⟩
    · exact h.same hk
    · refine h.setLive hk ?_ ?_ rfl rfl ?_ <;> simp [hj]
  | wakeup me chan j =>
    obtain ⟨_, k, hk, rfl⟩ := exec_cases hs (wakeupSlot_spec me chan (hl j))
    rcases hk with hk | ⟨hj, hk⟩
    · exact h.same hk
    · refine h.setLive hk ?_ ?_ rfl rfl ?_ <;> simp [hj]
  | adopt i j =>
    simp only [sysStep] at hs
    split_ifs at hs with hrun
    obtain ⟨_, k, hk, rfl⟩ := exec_cases hs (adopt_spec i)
    rcases hk with hk | ⟨hj, hk⟩
    · exact h.same hk
    · have hlive : (t.kernel.procs j).state ≠ .unused := fun hu => by
        have hrow : (t.kernel.procs j).row = Row.unused := h.slots.clean j hu
        have hp := congrArg Row.parent hrow
        simp [hj, Row.unused] at hp
      exact h.setLive hk hlive hlive rfl rfl id
  | zombie i status =>
    simp only [sysStep] at hs
    split_ifs at hs with hrun
    rw [Sys.Running] at hrun
    obtain ⟨_, k, hk, rfl⟩ := exec_cases hs (becomeZombie_spec status (hl _))
    have hset : SysOk ⟨k, t.forking⟩ := by
      refine h.setLive hk ?_ ?_ rfl rfl ?_ <;> simp [hrun]
    exact hset.forget i
  | wait i addr j =>
    simp only [sysStep] at hs
    split_ifs at hs with hrun
    obtain ⟨_, k, hk, rfl⟩ := exec_cases hs (waitSlot_spec i addr j h.slots)
    rcases hk with hk | ⟨hj, hk⟩
    · exact h.same hk
    · refine h.set hk (h.slots.set (fun _ => rfl) (fun hne => absurd rfl hne) rfl) fun l hl => ?_
      have hused : (t.kernel.procs j).state = .used := h.child l j hl
      simp [hj] at hused
  | other kernel =>
    cases hs
    exact h.same rfl

end

/-! ### `kill` -/

/-- The whole loop of `kill`: the first slot with the pid, if there is one. -/
theorem kill_spec (pid : ℤ) (h : ∀ j, (s.procs j).locked = false) :
    wp (kill pid) E (fun r t =>
      (r = -1 ∧ t = s ∧ ∀ j < NPROC, (s.procs j).pid ≠ pid) ∨
        ∃ j < NPROC, (s.procs j).pid = pid ∧ r = 0 ∧ t = s.setProc j (s.procs j).kill) s := by
  unfold kill
  rw [wp_bind]
  refine (wp_loopWhile (fun j t => t = s ∧ ∀ k < j, (s.procs k).pid ≠ pid)
    (fun j t => (s.procs j).pid = pid ∧ t = s.setProc j (s.procs j).kill) ⟨rfl, by simp⟩ ?_).mono
    fun r t ht => ?_
  swap
  · cases r with
    | none => exact Or.inl ⟨rfl, ht.1, fun j hj => ht.2 j (by simpa using hj)⟩
    | some j => exact Or.inr ⟨j, by simpa using ht.2.1, ht.2.2.1, rfl, ht.2.2.2⟩
  · rintro j t - - ⟨rfl, hbefore⟩
    rw [wp_bind]
    refine (killSlot_spec pid (h j)).mono fun r u hu => ?_
    split_ifs at hu with hpid
    · obtain ⟨rfl, rfl⟩ := hu
      exact ⟨hpid, rfl⟩
    · obtain ⟨rfl, rfl⟩ := hu
      refine ⟨rfl, fun k hk => ?_⟩
      rcases Nat.lt_succ_iff_lt_or_eq.1 hk with hk | rfl
      · exact hbefore k hk
      · exact hpid

/-- `kill(pid)` changes at most the one process that is not UNUSED and has that pid, and returns -1
without a change when there is none. -/
def KillExact (s : Kernel) (pid : ℤ) : Prop :=
  ∃ r t, kill pid s = .ok (r, t) ∧
    (∀ j, t.procs j ≠ s.procs j → (s.procs j).state ≠ .unused ∧ (s.procs j).pid = pid) ∧
    (∀ j k, t.procs j ≠ s.procs j → t.procs k ≠ s.procs k → j = k) ∧
    ((∀ j < NPROC, (s.procs j).state = .unused ∨ (s.procs j).pid ≠ pid) → r = -1 ∧ t = s)

theorem killExact_iff (h : Slots s.table) (pid : ℤ) :
    KillExact s pid ↔ pid ≠ 0 ∨ ∀ j < NPROC, (s.procs j).state ≠ .unused := by
  have hclean : ∀ j, (s.procs j).state = .unused →
      (s.procs j).pid = 0 ∧ (s.procs j).killed = false :=
    fun j hj => by
      have hrow : (s.procs j).row = Row.unused := h.clean j hj
      exact ⟨congrArg Row.pid hrow, congrArg Row.killed hrow⟩
  obtain ⟨r, t, hrun, hkill⟩ : ∃ r t, kill pid s = .ok (r, t) ∧
      ((r = -1 ∧ t = s ∧ ∀ j < NPROC, (s.procs j).pid ≠ pid) ∨
        ∃ j < NPROC, (s.procs j).pid = pid ∧ r = 0 ∧ t = s.setProc j (s.procs j).kill) := by
    have hw := kill_spec (E := fun _ => False) pid h.unlocked
    cases hm : kill pid s with
    | error e => exact (hw.error hm).elim
    | ok x => exact ⟨x.1, x.2, rfl, hw.ok hm⟩
  constructor
  · rintro ⟨r', t', hrun', hone, -, -⟩
    obtain ⟨rfl, rfl⟩ : r = r' ∧ t = t' := by
      rw [hrun] at hrun'
      simpa using hrun'
    by_contra hcon
    push Not at hcon
    obtain ⟨rfl, j, hj, hunused⟩ := hcon
    rcases hkill with ⟨-, -, hnone⟩ | ⟨k, hk, hpid, -, rfl⟩
    · exact hnone j hj (hclean j hunused).1
    · -- the slot that is killed has pid 0, so it is UNUSED
      have hku : (s.procs k).state = .unused := by
        by_contra hlive
        have hpos : 0 < (s.procs k).pid := h.live k hlive
        omega
      refine (hone k fun heq => ?_).1 hku
      have hkilled := congrArg Proc.killed heq
      rw [Kernel.setProc_procs_self, (hclean k hku).2] at hkilled
      simp [Proc.kill] at hkilled
  · intro hcond
    refine ⟨r, t, hrun, ?_⟩
    rcases hkill with ⟨rfl, rfl, hnone⟩ | ⟨k, hk, hpid, rfl, rfl⟩
    · exact ⟨fun j hne => absurd rfl hne, fun j k hne => absurd rfl hne, fun _ => ⟨rfl, rfl⟩⟩
    · have hlive : (s.procs k).state ≠ .unused := by
        intro hu
        rcases hcond with hne | hall
        · exact hne (hpid ▸ (hclean k hu).1)
        · exact hall k hk hu
      have honly : ∀ j, (s.setProc k (s.procs k).kill).procs j ≠ s.procs j → j = k := by
        intro j hne
        by_contra hjk
        exact hne (Function.update_of_ne hjk _ _)
      refine ⟨fun j hne => ?_, fun j l hj hl => (honly j hj).trans (honly l hl).symm,
        fun hnone => ?_⟩
      · rw [honly j hne]
        exact ⟨hlive, hpid⟩
      · rcases hnone k hk with hu | hne
        · exact absurd hu hlive
        · exact absurd hpid hne

/-! ### Whole runs -/

/-- The table that `userinit` leaves: the first process in slot 0. -/
def bootTable : Table where
  rows j := if j = 0 then ⟨false, .runnable, none, false, 1, none⟩ else Row.unused
  nextpid := 2
  initproc := some 0

theorem slots_bootTable : Slots bootTable := by
  have hrow : ∀ j, bootTable.rows j = ⟨false, .runnable, none, false, 1, none⟩ ∨
      bootTable.rows j = Row.unused := fun j => by
    by_cases hj : j = 0
    · exact Or.inl (by simp [bootTable, hj])
    · exact Or.inr (by simp [bootTable, hj])
  refine ⟨fun j hj => ?_, fun j hj => ?_, fun j => ?_, by decide⟩ <;> rcases hrow j with h | h
  · simp [h] at hj
  · exact h
  · simp [h]
  · simp [h, Row.unused] at hj
  · simp [h]
  · simp [h, Row.unused]

theorem sysOk_boot {t₀ : Sys} (h₀ : t₀.kernel.table = bootTable)
    (hf : ∀ i, t₀.forking i = none) : SysOk t₀ :=
  ⟨h₀ ▸ slots_bootTable,
    fun i np hi => by simp [hf i] at hi, fun i i' np hi => by simp [hf i] at hi⟩

section

variable [Layout]

/-- The table before the first process. -/
def emptyTable : Table := ⟨fun _ => Row.unused, 1, none⟩

/-- `userinit` leaves `bootTable`. -/
theorem userinit_spec (initcode : List Byte) (h : s.table = emptyTable) :
    wp (userinit initcode) (fun _ => True) (fun _ t => t.table = bootTable) s := by
  have hstate : ∀ j, (s.procs j).state = .unused := fun j =>
    congrArg (fun T : Table => (T.rows j).state) h
  have hslots : Slots s.table := by
    rw [h]
    exact ⟨fun _ _ => rfl, fun _ hne => absurd rfl hne, fun _ => rfl, by decide⟩
  unfold userinit
  rw [wp_bind]
  refine (allocproc_spec hslots).mono fun r t ht => ?_
  cases r with
  | none => trivial
  | some i =>
    obtain ⟨hfind, ht⟩ := ht
    obtain rfl : i = 0 := by
      simp only [hstate, decide_true] at hfind
      exact (Option.some.inj hfind).symm
    rw [wp_bind, wp_modify, wp_bind]
    refine ((keepsTable_code2uvm _ _).start _).mono fun _ t₁ h₁ => ?_
    rw [wp_bind, wp_get, wp_bind]
    refine ((keepsTable_liftP _).start t₁).mono fun _ t₂ h₂ => ?_
    rw [wp_bind]
    refine ((keepsTable_liftP _).start t₂).mono fun _ t₃ h₃ => ?_
    rw [wp_bind]
    refine ((keepsTable_liftF _).start t₃).mono fun cwd t₄ h₄ => ?_
    have htab : t₄.table = { t.table with initproc := some 0 } := h₄.trans (h₃.trans (h₂.trans h₁))
    rw [wp_bind, wp_modify]
    refine (releaseProc_spec 0).mono fun _ t₅ h₅ => ?_
    rw [Kernel.table_setProc, Table.set_rows_self, Table.set_set] at h₅
    obtain ⟨hlock, h₅⟩ := h₅
    have hrow : (t₄.procs 0).row = t.table.rows 0 := congrArg (fun T : Table => T.rows 0) htab
    -- a slot that `allocproc` has given back is not locked
    have ht' : t.table = s.table.alloc 0 true := ht.resolve_right fun hfree => by
      have hfree' : (t.table.rows 0).locked = false := hfree
      rw [← hrow] at hfree'
      exact absurd (hlock.symm.trans hfree') (by decide)
    rw [ht', h] at hrow htab
    have hnew : t₅.table.rows = Function.update (emptyTable.alloc 0 true).rows 0
        { (t₄.procs 0).row with state := .runnable, locked := false } := by
      rw [h₅, htab]
      rfl
    ext1
    · rw [hnew, hrow]
      funext j
      by_cases hj : j = 0
      · subst hj
        rfl
      · rw [Function.update_of_ne hj]
        simp [bootTable, Table.alloc, emptyTable, Table.set, hj]
    · rw [h₅, htab]
      rfl
    · rw [h₅, htab]
      rfl

/-- **`kill` touches only the process it names**, and a child never starts life killed, in every run
whose `kill`s do not ask for the process 0 in a slot that is UNUSED: every UNUSED slot is clean,
the child that `fork` makes has not been killed, and `kill(pid)` is exact if and only if `pid` is
not 0 or no slot is UNUSED. -/
theorem kill_touches_named {t₀ t : Sys} (h₀ : t₀.kernel.table = bootTable)
    (hf : ∀ i, t₀.forking i = none) (h : Reach sysStep KillsNamed t₀ t) :
    (∀ j, (t.kernel.procs j).state = .unused → (t.kernel.procs j).killed = false ∧
      (t.kernel.procs j).chan = none ∧ (t.kernel.procs j).parent = none) ∧
    (∀ i np pid k, forkAlloc i t.kernel = .ok (some (np, pid), k) → (k.procs np).killed = false) ∧
    ∀ pid, KillExact t.kernel pid ↔
      pid ≠ 0 ∨ ∀ j < NPROC, (t.kernel.procs j).state ≠ .unused := by
  have hok : SysOk t := h.invariant (sysOk_boot h₀ hf) fun _ _ _ ht hok hs => sysOk_step ht hok hs
  refine ⟨fun j hj => ?_, fun i np pid k hrun => ?_, fun pid => killExact_iff hok.slots pid⟩
  · have hrow : (t.kernel.procs j).row = Row.unused := hok.slots.clean j hj
    exact ⟨congrArg Row.killed hrow, congrArg Row.chan hrow, congrArg Row.parent hrow⟩
  · obtain ⟨-, -, hk⟩ := (forkAlloc_spec i hok.slots).ok hrun
    change (k.table.rows np).killed = false
    rw [hk]
    simp [Table.alloc, Row.fresh]

end

attribute [local instance] imageLayout

example : ∃ t, userinit [0x6f, 0, 0, 0] bootKernel = .ok ((), t) ∧ t.table = bootTable := by
  have hrun : stopOf (userinit [0x6f, 0, 0, 0] bootKernel) = none := by decide +kernel
  obtain ⟨_, t, ht⟩ := exists_ok_of_stopOf hrun
  exact ⟨t, ht, (userinit_spec _ rfl).ok ht⟩

/-- The system after `userinit`, when the scheduler starts. -/
def bootSys : Sys where
  kernel := { Kernel.zero with
    procs := fun j => if j = 0 then { Proc.zero with state := .runnable, pid := 1 } else Proc.zero
    nextpid := 2
    initproc := some 0 }
  forking _ := none

theorem bootSys_table : bootSys.kernel.table = bootTable := by
  ext1
  · funext j
    by_cases hj : j = 0 <;> simp [bootSys, bootTable, Kernel.table, Proc.row, Proc.zero,
      Row.unused, hj]
  · rfl
  · rfl

/-- The first process runs and asks for itself: nothing else is touched. -/
theorem kill_touches_named_init :
    ∃ t, Reach sysStep KillsNamed bootSys t ∧ (t.kernel.procs 0).killed = true ∧
      KillExact t.kernel 1 := by
  have hrun : (runs sysStep [.schedule 0 false, .kill 1 0] bootSys).map
      (fun t => (t.kernel.procs 0).killed) = some true := by
    decide +kernel
  obtain ⟨t, ht, hp⟩ := Option.map_eq_some_iff.1 hrun
  have hreach : Reach sysStep KillsNamed bootSys t := reach_of_runs (by simp [KillsNamed]) ht
  have hexact := (kill_touches_named bootSys_table (fun _ => rfl) hreach).2.2 1
  exact ⟨t, hreach, hp, hexact.2 (Or.inl (by decide))⟩

/-- **`kill(0)` kills a process that does not exist**: the first process asks for the process 0, and
the first UNUSED slot is marked as killed. -/
theorem kill_zero_marks_unused :
    ∃ t, Reach sysStep (fun _ _ => True) bootSys t ∧ (t.kernel.procs 1).state = .unused ∧
      (t.kernel.procs 1).killed = true ∧ ¬ KillExact bootSys.kernel 0 := by
  have hrun : (runs sysStep [.schedule 0 false, .kill 0 0, .kill 0 1] bootSys).map
      (fun t => ((t.kernel.procs 1).state, (t.kernel.procs 1).killed)) = some (.unused, true) := by
    decide +kernel
  obtain ⟨t, ht, hp⟩ := Option.map_eq_some_iff.1 hrun
  simp only [Prod.mk.injEq] at hp
  refine ⟨t, reach_of_runs (by simp) ht, hp.1, hp.2, ?_⟩
  rw [killExact_iff (bootSys_table ▸ slots_bootTable)]
  push Not
  exact ⟨rfl, 1, by decide, rfl⟩

end Xv6
