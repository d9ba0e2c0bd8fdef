import Xv6.Thread

/-!
# How a process dies

`kill` promises that "the victim won't exit until it tries to return to user space".  Under that
promise a process dies cleanly: in every run in which no interrupt taken in kernel mode finds
`p->killed` set, the process becomes a ZOMBIE with every transaction ended, no sleeplock held,
`exit` entered once, and its files and its address space released once (`clean_death`).

`kerneltrap` breaks the promise: it calls `exit(-1)` in the middle of whatever the kernel was
doing.  `dies_inside_transaction` is a run in which a process killed during `write` becomes a
ZOMBIE with its transaction still open.
-/

namespace Xv6.Thread

open Abortable Run

/-- Nothing held. -/
def idle : Res := ⟨0, 0, [], 0⟩

/-- Outside `exit` no program closes the files of the table or changes the process state. -/
def sysEff : Act → Res → Option Res
  | .closing _, _ => none
  | .zombie, _ => none
  | a, r => a.eff r

/-- The parts of `exit` that only release what they take also leave the descriptors alone. -/
def exitEff : Act → Res → Option Res
  | .closing _, _ => none
  | .zombie, _ => none
  | .setFd _ _, _ => none
  | a, r => a.eff r

/-! ### The analysis of the kernel code -/

/-- Every path through `usertrap` ends what it begins, and holds nothing where it may exit. -/
theorem effect_usertrap : effect sysEff (some idle) usertrap idle = .held idle := by
  decide +kernel

theorem effect_fileclose : effect exitEff none fileclose idle = .held idle := by
  decide +kernel

theorem effect_exitRelease : effect exitEff none exitRelease idle = .held ⟨0, 2, [], 1⟩ := by
  decide +kernel

/-- `exit` has not been entered. -/
structure Alive (s : St) : Prop where
  exits : s.exits = 0
  closed : ∀ fd, s.closed fd = 0
  zombie : s.zombie = false

/-- `exit` is running, with the descriptor table `o` and the close counts `c`. -/
structure Exiting (o : Fin NOFILE → Bool) (c : Fin NOFILE → ℕ) (e : Fin NOFILE → Bool)
    (s : St) : Prop where
  exits : s.exits = 1
  ofile : s.ofile = o
  closed : s.closed = c
  atExit : s.atExit = e
  zombie : s.zombie = false

theorem sysEff_spec (a : Act) (s : St) (r : Res) (hF : Alive s) (h : sysEff a s.res = some r) :
    a.safe s ∧ ∀ s', a.exec s = some s' → Alive s' ∧ s'.res = r := by
  cases a with
  | closing fd => simp [sysEff] at h
  | zombie => simp [sysEff] at h
  | isFd fd b =>
    simp only [sysEff, Act.eff, Option.some.injEq] at h
    refine ⟨by simp [Act.safe, Act.eff], fun s' hs' => ?_⟩
    simp only [Act.exec] at hs'
    split_ifs at hs'
    cases hs'
    exact ⟨hF, h⟩
  | intrOn | intrOff | setFd fd b =>
    simp only [sysEff, Act.eff, Option.some.injEq] at h
    refine ⟨by simp [Act.safe, Act.eff], fun s' hs' => ?_⟩
    cases hs'
    exact ⟨⟨hF.exits, hF.closed, hF.zombie⟩, h⟩
  | _ =>
    simp only [sysEff] at h
    refine ⟨by simp [Act.safe, h], fun s' hs' => ?_⟩
    simp only [Act.exec, h, Option.map_some, Option.some.injEq] at hs'
    subst hs'
    exact ⟨⟨hF.exits, hF.closed, hF.zombie⟩, rfl⟩

theorem exitEff_spec {o c e} (a : Act) (s : St) (r : Res) (hF : Exiting o c e s)
    (h : exitEff a s.res = some r) :
    a.safe s ∧ ∀ s', a.exec s = some s' → Exiting o c e s' ∧ s'.res = r := by
  cases a with
  | closing fd => simp [exitEff] at h
  | zombie => simp [exitEff] at h
  | setFd fd b => simp [exitEff] at h
  | isFd fd b =>
    simp only [exitEff, Act.eff, Option.some.injEq] at h
    refine ⟨by simp [Act.safe, Act.eff], fun s' hs' => ?_⟩
    simp only [Act.exec] at hs'
    split_ifs at hs'
    cases hs'
    exact ⟨hF, h⟩
  | intrOn | intrOff =>
    simp only [exitEff, Act.eff, Option.some.injEq] at h
    refine ⟨by simp [Act.safe, Act.eff], fun s' hs' => ?_⟩
    cases hs'
    exact ⟨⟨hF.exits, hF.ofile, hF.closed, hF.atExit, hF.zombie⟩, h⟩
  | _ =>
    simp only [exitEff] at h
    refine ⟨by simp [Act.safe, h], fun s' hs' => ?_⟩
    simp only [Act.exec, h, Option.map_some, Option.some.injEq] at hs'
    subst hs'
    exact ⟨⟨hF.exits, hF.ofile, hF.closed, hF.atExit, hF.zombie⟩, rfl⟩

/-! ### `exit` -/

/-- The weakest precondition inside `exit`, which never enters itself. -/
abbrev wpExit (p : P) (Q : St → Prop) (s : St) : Prop := wp sem (fun _ => False) p Q s

/-- A part of `exit` that the analysis covers. -/
theorem wpExit_of_effect {p : P} {r : Res} {o c e} {s : St}
    (hp : effect exitEff none p s.res = .held r) (hF : Exiting o c e s) :
    wpExit p (fun t => Exiting o c e t ∧ t.res = r) s := by
  have hsound := effect_sound (S := sem) (A := fun _ => False) (F := Exiting o c e)
    (exitEff_spec (o := o) (c := c) (e := e))
    (fun s _ (h : some s.res = none) => by cases h) p hF (by rw [hp]; simp)
  rw [hp] at hsound
  exact wp_mono (fun t ht => ⟨ht.1, (Outcome.held.inj ht.2).symm⟩) hsound

/-- The loop of `exit` is at the descriptors `fds`: the ones before have been closed once. -/
structure AtFds (fds : List (Fin NOFILE)) (s : St) : Prop where
  exits : s.exits = 1
  zombie : s.zombie = false
  res : s.res = idle
  todo : ∀ fd ∈ fds, s.closed fd = 0 ∧ s.ofile fd = s.atExit fd
  done : ∀ fd ∉ fds, s.closed fd = if s.atExit fd then 1 else 0

theorem wpExit_fd {fd : Fin NOFILE} {fds : List (Fin NOFILE)} {s : St} (hfd : fd ∉ fds)
    (h : AtFds (fd :: fds) s) : wpExit (exitFd fd) (AtFds fds) s := by
  obtain ⟨hc, ho⟩ := h.todo fd (by simp)
  constructor
  · -- an empty slot
    refine ⟨by simp [sem, Act.safe, Act.eff], fun s' hs' => ?_⟩
    simp only [sem, Act.exec] at hs'
    split_ifs at hs' with hopen
    cases hs'
    refine ⟨h.exits, h.zombie, h.res, fun x hx => h.todo x (by simp [hx]), fun x hx => ?_⟩
    by_cases hxfd : x = fd
    · subst hxfd
      rw [hc, ← ho, hopen]
      rfl
    · exact h.done x (by simp [hxfd, hx])
  · -- an open file: closed once, then the slot is cleared
    refine ⟨by simp [sem, Act.safe, Act.eff], fun s₁ hs₁ => ?_⟩
    simp only [sem, Act.exec] at hs₁
    split_ifs at hs₁ with hopen
    cases hs₁
    refine ⟨hc, fun s₂ hs₂ => ?_⟩
    cases hs₂
    have hclose := wpExit_of_effect (p := fileclose)
      (s := { s with closed := Function.update s.closed fd (s.closed fd + 1) })
      (by simpa [h.res] using effect_fileclose) ⟨h.exits, rfl, rfl, rfl, h.zombie⟩
    refine wp_mono (p := fileclose) (fun t ht => ?_) hclose
    obtain ⟨ht, hres⟩ := ht
    refine ⟨by simp [sem, Act.safe, Act.eff], fun s₃ hs₃ => ?_⟩
    cases hs₃
    refine ⟨ht.exits, ht.zombie, hres, fun x hx => ?_, fun x hx => ?_⟩
    · have hne : x ≠ fd := fun he => hfd (he ▸ hx)
      obtain ⟨hcx, hox⟩ := h.todo x (by simp [hx])
      simp only [ht.closed, ht.ofile, ht.atExit, Function.update_of_ne hne]
      exact ⟨hcx, hox⟩
    · simp only [ht.closed, ht.atExit]
      by_cases hxfd : x = fd
      · subst hxfd
        rw [Function.update_self, hc, ← ho, hopen]
        rfl
      · rw [Function.update_of_ne hxfd]
        exact h.done x (by simp [hxfd, hx])

/-- `exit` releases everything once and ends as a clean ZOMBIE. -/
theorem wpExit_exitFrom {fds : List (Fin NOFILE)} (hnd : fds.Nodup) {s : St} (h : AtFds fds s) :
    wpExit (exitFrom fds) (fun _ => True) s := by
  induction fds generalizing s with
  | nil =>
    refine wp_mono (p := exitRelease) (fun t ht => ?_) (wpExit_of_effect (r := ⟨0, 2, [], 1⟩)
      (by simpa [h.res] using effect_exitRelease) ⟨h.exits, rfl, rfl, rfl, h.zombie⟩)
    obtain ⟨ht, hres⟩ := ht
    refine ⟨⟨by rw [hres], by rw [hres], ht.exits, fun fd => ?_, by rw [hres]⟩, fun _ _ => trivial⟩
    rw [ht.closed, ht.atExit]
    exact h.done fd (by simp)
  | cons fd fds ih =>
    obtain ⟨hfd, hnd⟩ := List.nodup_cons.1 hnd
    exact wp_mono (fun t ht => ih hnd ht) (wpExit_fd hfd h)

/-- What has to hold where a program enters `exit`. -/
def MayExit (s : St) : Prop := wpExit exit (fun _ => True) (sem.enter s)

theorem mayExit_of_idle {s : St} (h : Alive s) (hr : s.res = idle) : MayExit s := by
  apply wpExit_exitFrom (List.nodup_finRange _)
  refine ⟨by simp [sem, h.exits], h.zombie, hr, fun fd _ => ⟨h.closed fd, ?_⟩, fun fd hfd => ?_⟩
  · simp [sem, h.exits]
  · exact absurd (List.mem_finRange fd) hfd

/-! ### Whole runs -/

/-- The invariant of a run: before `exit` the rest of the program may be run and may exit; inside
`exit` it may be run and does not exit again; a ZOMBIE is clean. -/
structure Sound (c : Config Act St) : Prop where
  running : c.state.zombie = false →
    wpStack sem MayExit c.stack (fun _ => True) c.state ∨
      wpStack sem (fun _ => False) c.stack (fun _ => True) c.state
  clean : c.state.zombie = true → Clean c.state

theorem sound_start (ofile : Fin NOFILE → Bool) : Sound (start ofile) := by
  refine ⟨fun _ => Or.inl ?_, fun h => by simp [start] at h⟩
  refine ⟨fun s => Alive s ∧ s.res = idle, ⟨⟨rfl, fun _ => rfl, rfl⟩, rfl⟩, fun s hs => ?_⟩
  obtain ⟨hF, hr⟩ := hs
  have hsound := effect_sound (S := sem) (A := MayExit) (F := Alive) sysEff_spec
    (fun s hF (hr : some s.res = some idle) => mayExit_of_idle hF (Option.some.inj hr)) usertrap hF
    (by rw [hr, effect_usertrap]; simp)
  rw [hr, effect_usertrap] at hsound
  exact ⟨fun _ => wp_mono (fun t ht => ⟨ht.1, (Outcome.held.inj ht.2).symm⟩) hsound, trivial⟩

/-- Only the last action of `exit` makes a ZOMBIE. -/
theorem zombie_of_exec {a : Act} {s s' : St} (hs : a.exec s = some s') (h : s.zombie = false)
    (h' : s'.zombie = true) : a = .zombie ∧ s' = { s with zombie := true } := by
  cases a with
  | zombie => cases hs; exact ⟨rfl, rfl⟩
  | isFd fd b =>
    simp only [Act.exec] at hs
    split_ifs at hs
    cases hs
    simp [h] at h'
  | intrOn | intrOff | setFd fd b | closing fd =>
    cases hs
    simp [h] at h'
  | _ =>
    simp only [Act.exec, Option.map_eq_some_iff] at hs
    obtain ⟨r, -, rfl⟩ := hs
    simp [h] at h'

theorem zombie_of_runStep {b : Bool} {c c' : Config Act St} (hs : runStep sem b c = some c')
    (h : c.state.zombie = false) (h' : c'.state.zombie = true) :
    ∃ k, c.stack = .act .zombie :: k ∧ c'.state = { c.state with zombie := true } := by
  obtain ⟨stack, s, fl⟩ := c
  unfold runStep at hs
  cases stack with
  | nil => simp at hs
  | cons p k =>
    cases p with
    | act a =>
      simp only [Option.map_eq_some_iff] at hs
      obtain ⟨s', hs', rfl⟩ := hs
      obtain ⟨rfl, rfl⟩ := zombie_of_exec hs' h h'
      exact ⟨k, rfl, rfl⟩
    | panic => simp at hs
    | poll =>
      cases fl <;> cases hs <;> exact absurd (h.symm.trans h') (by simp)
    | _ => cases hs; exact absurd (h.symm.trans h') (by simp)

/-- One event keeps the invariant, unless it is an interrupt that finds the process killed. -/
theorem sound_step {c c' : Config Act St} {e : Event} (hc : Sound c)
    (hok : e = .trap → c.flag = false) (hs : step sem e c = some c') : Sound c' := by
  unfold step at hs
  rcases hz : c.state.zombie with _ | _
  swap
  · simp [sem, hz] at hs
  simp only [sem, hz, Bool.false_eq_true, if_false] at hs
  cases e with
  | signal => cases hs; exact ⟨hc.running, hc.clean⟩
  | trap =>
    simp only [hok rfl, Bool.false_eq_true, if_false] at hs
    split_ifs at hs
    cases hs
    exact hc
  | run b =>
    simp only at hs
    refine ⟨fun _ => ?_, fun hz' => ?_⟩
    · rcases hc.running hz with h | h
      · rcases wpStack_runStep h hs with h' | ⟨hA, rfl⟩
        · exact Or.inl h'
        · exact Or.inr hA
      · rcases wpStack_runStep h hs with h' | ⟨hA, -⟩
        · exact Or.inr h'
        · exact hA.elim
    · obtain ⟨k, hk, hst⟩ := zombie_of_runStep hs hz hz'
      have hclean : Clean c.state := by
        rcases hc.running hz with h | h <;> exact safe_of_wpStack h hk
      rw [hst]
      exact ⟨hclean.ops, hclean.locks, hclean.once, hclean.files, hclean.uvm⟩

/-- `n` steps of the program, taking the first branch of each choice. -/
def yes (n : ℕ) : List Event := List.replicate n (.run true)

/-- `n` steps of the program, taking the second branch of each choice. -/
def no (n : ℕ) : List Event := List.replicate n (.run false)

/-- **A process dies cleanly** in every run whose kernel-mode interrupts find `p->killed` clear:
whenever it is a ZOMBIE every transaction has ended, no sleeplock is held, `exit` was entered once,
and its files and its address space were released once; and on the way no action panics, in
particular no `fileclose` or `uvm_free` of something already released. -/
theorem clean_death {ofile : Fin NOFILE → Bool} {c : Config Act St}
    (h : Reach (step sem) (fun c e => e = .trap → c.flag = false) (start ofile) c) :
    (c.state.zombie = true → Clean c.state) ∧
      ∀ a k, c.state.zombie = false → c.stack = .act a :: k → a.safe c.state := by
  have hs : Sound c := h.invariant (sound_start ofile) fun t e u ht hok hs => sound_step ht hok hs
  refine ⟨hs.clean, fun a k hz hk => ?_⟩
  rcases hs.running hz with h | h <;> exact safe_of_wpStack h hk

/-- A process with one open file calls `exit` and gets to its end. -/
theorem clean_death_of_sys_exit :
    ∃ c, Reach (step sem) (fun c e => e = .trap → c.flag = false)
        (start fun fd => decide (fd.val = 0)) c ∧ c.state.zombie = true ∧ Clean c.state := by
  have hrun : ((runs (step sem) (yes 7 ++ no 2 ++ yes 3 ++ no 1 ++ yes 63 ++ no 1 ++ yes 26)
      (start fun fd => decide (fd.val = 0))).map (fun c => c.state.zombie)) = some true := by
    decide +kernel
  obtain ⟨c, hc, hz⟩ := Option.map_eq_some_iff.1 hrun
  have hreach : Reach (step sem) (fun c e => e = .trap → c.flag = false) _ c :=
    reach_of_runs (by simp [yes, no]) hc
  exact ⟨c, hreach, hz, (clean_death hreach).1 hz⟩

/-! ### The interrupt that kills -/

/-- A process with one open file calls `write`, gets as far as `begin_op`, is killed, and takes an
interrupt; `exit` then runs to its end. -/
def killedInWrite : List Event :=
  -- `usertrap`, `sys_write`, `filewrite` of an inode, `begin_op`
  yes 7 ++ no 14 ++ yes 2 ++ no 5 ++ yes 4 ++
  -- `kill`, then a timer interrupt in kernel mode
  [.signal, .trap] ++
  -- `exit`: the open file, the empty slots, the address space, the current directory
  yes 1 ++ no 1 ++ yes 63 ++ no 1 ++ yes 26

/-- **A killed process dies inside a transaction**: the run is possible, and the ZOMBIE has a
`begin_op` without its `end_op`. -/
theorem dies_inside_transaction :
    ∃ c, Reach (step sem) (fun _ _ => True) (start fun fd => decide (fd.val = 0)) c ∧
      c.state.zombie = true ∧ c.state.res.depth = 1 ∧ ¬ Clean c.state := by
  have hrun : (runs (step sem) killedInWrite (start fun fd => decide (fd.val = 0))).map
      (fun c => (c.state.zombie, c.state.res.depth)) = some (true, 1) := by decide +kernel
  obtain ⟨c, hc, hp⟩ := Option.map_eq_some_iff.1 hrun
  simp only [Prod.mk.injEq] at hp
  refine ⟨c, reach_of_runs (by simp) hc, hp.1, hp.2, fun hclean => ?_⟩
  have := hclean.ops
  omega

end Xv6.Thread
