import Xv6.Lottery
import Xv6.Lib.Run

/-!
# Processors and processes

Any number of processors that run `scheduler` and, through `swtch`, the processes (`kernel/proc.c`).
A processor is at a place of `scheduler`, or it executes on the kernel stack of a process, which is
outside of `sched` (`normal`), or on its way into `sched` or out of it.  The lock of a process is
held by a processor; what is acquired before a `swtch` is released after it, by the other side.

A step is what happens between two points at which another processor can come in between: taking a
lock, what is done while it is held, handing it over, giving it back.  The scheduler reads each slot
of the table under its lock, one slot a step, so its sums may be of a table that never was.

Processes come into being by a `fork` that has all the memory it needs or fails as a whole; a `fork`
that lacks pages for the page table only is left out.
-/

namespace Xv6

open Run

/-- Where a process is while a processor executes on its kernel stack: just switched to, with its
lock held; running; with its lock taken in `yield`, `sleep` or `exit`; with its state changed,
before the `swtch`. -/
inductive Phase
  | resumed
  | normal
  | locked
  | switching
  deriving DecidableEq

/-- Where a processor is: in the loop over the table before slot `i`; with a winner chosen; with the
lock of the winner; on the kernel stack of a process; back in `scheduler` after the `swtch`. -/
inductive CpuPc
  | snapshot (i : ℕ) (sums : ℕ → U32)
  | picked (p : ℕ)
  | holding (p : ℕ)
  | exec (p : ℕ) (ph : Phase)
  | back (p : ℕ)

/-- `struct cpu`, and where the processor is. -/
structure Cpu where
  proc : Option ℕ
  pc : CpuPc

/-- The part of `struct proc` that matters here; `lock` is the processor that holds `p->lock`, and
`slept` says that the process was switched away in `sleep`. -/
structure CpuProc where
  state : ProcState
  lock : Option ℕ
  chan : Option ℕ
  killed : Bool
  tickets : U32
  slept : Bool

structure CpuSys where
  cpus : ℕ → Cpu
  procs : ℕ → CpuProc

/-- How a process gives up its processor. -/
inductive GiveUp
  | yield
  | sleep (chan : ℕ)
  | exit

def GiveUp.apply : GiveUp → CpuProc → CpuProc
  | .yield, p => { p with state := .runnable, slept := false }
  | .sleep chan, p => { p with state := .sleeping, chan := some chan, slept := true }
  | .exit, p => { p with state := .zombie, slept := false }

/-- What the processor `c` does next. -/
inductive CpuEvent
  /-- Read the next slot. -/
  | snap (c : ℕ)
  /-- Draw the ticket `r` and search. -/
  | pick (c : ℕ) (r : U32)
  | acquire (c : ℕ)
  /-- `if (p->state == RUNNABLE)`, and the `swtch` or the `release`. -/
  | test (c : ℕ)
  /-- The process releases the lock that the scheduler took. -/
  | resume (c : ℕ)
  | lock (c : ℕ)
  | giveUp (c : ℕ) (g : GiveUp)
  | swtch (c : ℕ)
  /-- `c->proc = 0; release(&p->lock)`. -/
  | finish (c : ℕ)
  | wakeup (c : ℕ) (chan j : ℕ)
  | kill (c j : ℕ)
  /-- `wait` frees the slot `j`. -/
  | wait (c j : ℕ)
  /-- `allocproc` in `fork`. -/
  | alloc (c j : ℕ)
  /-- A `fork` that fails gives the slot back before it releases the lock. -/
  | forkFails (c j : ℕ)
  /-- The end of `fork`: the child becomes RUNNABLE, with the tickets of its parent. -/
  | start (c j : ℕ) (tickets : U32)
  | settickets (c : ℕ) (n : U32)

namespace CpuSys

variable (s : CpuSys)

def setCpu (c : ℕ) (x : Cpu) : CpuSys := { s with cpus := Function.update s.cpus c x }

def setProc (p : ℕ) (x : CpuProc) : CpuSys := { s with procs := Function.update s.procs p x }

/-- Move a processor. -/
def goto (c : ℕ) (pc : CpuPc) : CpuSys := s.setCpu c { s.cpus c with pc := pc }

/-- The processor `c` executes on the kernel stack of `p`. -/
def On (c p : ℕ) : Prop := ∃ ph, (s.cpus c).pc = .exec p ph

/-- The lock of `p` is being handed from the process to the scheduler. -/
def HandOver (c p : ℕ) : Prop :=
  (s.procs p).lock = some c ∧ ((s.cpus c).pc = .exec p .switching ∨ (s.cpus c).pc = .back p)

@[simp, grind =] theorem setCpu_cpus (c c' : ℕ) (x : Cpu) :
    (s.setCpu c x).cpus c' = if c' = c then x else s.cpus c' := Function.update_apply ..

@[simp, grind =] theorem setCpu_procs (c p : ℕ) (x : Cpu) :
    (s.setCpu c x).procs p = s.procs p := rfl

@[simp, grind =] theorem setProc_procs (p p' : ℕ) (x : CpuProc) :
    (s.setProc p x).procs p' = if p' = p then x else s.procs p' := Function.update_apply ..

@[simp, grind =] theorem setProc_cpus (p c : ℕ) (x : CpuProc) :
    (s.setProc p x).cpus c = s.cpus c := rfl

@[simp, grind =] theorem goto_cpus (c c' : ℕ) (pc : CpuPc) :
    (s.goto c pc).cpus c' = if c' = c then { s.cpus c with pc := pc } else s.cpus c' :=
  Function.update_apply ..

@[simp, grind =] theorem goto_procs (c p : ℕ) (pc : CpuPc) :
    (s.goto c pc).procs p = s.procs p := rfl

/-- Another process changes slot `j` under the lock of the slot. -/
def change (j : ℕ) (f : CpuProc → Option CpuProc) : Option CpuSys :=
  if (s.procs j).lock = none then (f (s.procs j)).map (s.setProc j) else none

/-- The same, by the process that runs on processor `c`. -/
def changeBy (c j : ℕ) (f : CpuProc → Option CpuProc) : Option CpuSys :=
  match (s.cpus c).pc with
  | .exec _ .normal => s.change j f
  | _ => none

end CpuSys

/-- Change a process if it is in state `st`. -/
def CpuProc.when (st : ProcState) (f : CpuProc → CpuProc) (p : CpuProc) : Option CpuProc :=
  if p.state = st then some (f p) else none

/-- The start of the scheduler's loop. -/
def CpuPc.loop : CpuPc := .snapshot 0 fun _ => 0

/-- One step. -/
def cpuStep (e : CpuEvent) (s : CpuSys) : Option CpuSys :=
  match e with
  | .snap c =>
    match (s.cpus c).pc with
    | .snapshot i sums =>
      if i < NPROC ∧ (s.procs i).lock = none then
        let tickets := if (s.procs i).state = .runnable then (s.procs i).tickets else 0
        some (s.goto c (.snapshot (i + 1) (Function.update sums (i + 1) (sums i + tickets))))
      else none
    | _ => none
  | .pick c r =>
    match (s.cpus c).pc with
    | .snapshot i sums =>
      if i = NPROC then
        if sums NPROC = 0 then some (s.goto c .loop)
          else some (s.goto c (.picked (winnerSlot sums r)))
      else none
    | _ => none
  | .acquire c =>
    match (s.cpus c).pc with
    | .picked p =>
      if (s.procs p).lock = none then
        some ((s.setProc p { s.procs p with lock := some c }).goto c (.holding p))
      else none
    | _ => none
  | .test c =>
    match (s.cpus c).pc with
    | .holding p =>
      if (s.procs p).state = .runnable then
        some ((s.setProc p { s.procs p with state := .running }).setCpu c
          ⟨some p, .exec p .resumed⟩)
      else some ((s.setProc p { s.procs p with lock := none }).goto c .loop)
    | _ => none
  | .resume c =>
    match (s.cpus c).pc with
    | .exec p .resumed =>
      let chan := if (s.procs p).slept then none else (s.procs p).chan
      some ((s.setProc p { s.procs p with lock := none, chan := chan }).goto c (.exec p .normal))
    | _ => none
  | .lock c =>
    match (s.cpus c).pc with
    | .exec p .normal =>
      if (s.procs p).lock = none then
        some ((s.setProc p { s.procs p with lock := some c }).goto c (.exec p .locked))
      else none
    | _ => none
  | .giveUp c g =>
    match (s.cpus c).pc with
    | .exec p .locked => some ((s.setProc p (g.apply (s.procs p))).goto c (.exec p .switching))
    | _ => none
  | .swtch c =>
    match (s.cpus c).pc with
    | .exec p .switching => some (s.goto c (.back p))
    | _ => none
  | .finish c =>
    match (s.cpus c).pc with
    | .back p => some ((s.setProc p { s.procs p with lock := none }).setCpu c ⟨none, .loop⟩)
    | _ => none
  | .wakeup c chan j =>
    if (s.cpus c).proc = some j then none
    else s.change j fun p => some
      (if p.state = .sleeping ∧ p.chan = some chan then { p with state := .runnable } else p)
  | .kill c j => s.changeBy c j fun p => some
      { p with killed := true, state := if p.state = .sleeping then .runnable else p.state }
  | .wait c j => s.changeBy c j (CpuProc.when .zombie fun p =>
      { p with state := .unused, chan := none, killed := false })
  | .alloc c j => s.changeBy c j (CpuProc.when .unused fun p =>
      { p with state := .used, slept := false })
  | .forkFails c j => s.changeBy c j (CpuProc.when .unused fun p =>
      { p with chan := none, killed := false })
  | .start c j tickets => s.changeBy c j (CpuProc.when .used fun p =>
      { p with state := .runnable, tickets := tickets })
  | .settickets c n =>
    match (s.cpus c).pc with
    | .exec p .normal =>
      if n.toInt < 1 then none else some (s.setProc p { s.procs p with tickets := n })
    | _ => none

/-- The processors enter `scheduler`; no process runs yet. -/
structure CpuSys.Started (s : CpuSys) : Prop where
  cpus : ∀ c, s.cpus c = ⟨none, .loop⟩
  locks : ∀ p, (s.procs p).lock = none
  states : ∀ p, (s.procs p).state ≠ .running

/-! ### What a step does -/

namespace CpuPc

/-- The process whose lock the processor holds. -/
def holds : CpuPc → Option ℕ
  | .holding p | .exec p .resumed | .exec p .locked | .exec p .switching | .back p => some p
  | _ => none

/-- The process that runs on the processor: its state is RUNNING. -/
def runs : CpuPc → Option ℕ
  | .exec p .resumed | .exec p .normal | .exec p .locked => some p
  | _ => none

/-- The process that is on the processor or has just left it. -/
def current : CpuPc → Option ℕ
  | .exec p _ | .back p => some p
  | _ => none

end CpuPc

/-- What a step can do: one processor moves, with or without the process it is at, or a process
whose lock is free changes otherwise than from or to RUNNING. -/
inductive CpuTo (s : CpuSys) : CpuSys → Prop
  | choose {c : ℕ} {pc : CpuPc} : (s.cpus c).pc.holds = none → (s.cpus c).pc.current = none →
    pc.holds = none → pc.current = none → CpuTo s (s.goto c pc)
  | acquire {c p : ℕ} : (s.cpus c).pc = .picked p → (s.procs p).lock = none →
    CpuTo s ((s.setProc p { s.procs p with lock := some c }).goto c (.holding p))
  | switchTo {c p : ℕ} : (s.cpus c).pc = .holding p → (s.procs p).state = .runnable →
    CpuTo s ((s.setProc p { s.procs p with state := .running }).setCpu c ⟨some p, .exec p .resumed⟩)
  | pass {c p : ℕ} : (s.cpus c).pc = .holding p →
    CpuTo s ((s.setProc p { s.procs p with lock := none }).goto c .loop)
  | resume {c p : ℕ} {chan : Option ℕ} : (s.cpus c).pc = .exec p .resumed →
    CpuTo s ((s.setProc p { s.procs p with lock := none, chan := chan }).goto c (.exec p .normal))
  | lock {c p : ℕ} : (s.cpus c).pc = .exec p .normal → (s.procs p).lock = none →
    CpuTo s ((s.setProc p { s.procs p with lock := some c }).goto c (.exec p .locked))
  | giveUp {c p : ℕ} {x : CpuProc} : (s.cpus c).pc = .exec p .locked → x.lock = (s.procs p).lock →
    x.state ≠ .running → CpuTo s ((s.setProc p x).goto c (.exec p .switching))
  | swtch {c p : ℕ} : (s.cpus c).pc = .exec p .switching → CpuTo s (s.goto c (.back p))
  | finish {c p : ℕ} : (s.cpus c).pc = .back p →
    CpuTo s ((s.setProc p { s.procs p with lock := none }).setCpu c ⟨none, .loop⟩)
  | change {j : ℕ} {x : CpuProc} : x.lock = (s.procs j).lock →
    (x.state = .running ↔ (s.procs j).state = .running) → CpuTo s (s.setProc j x)

theorem CpuSys.change_to {s t : CpuSys} {j : ℕ} {f : CpuProc → Option CpuProc}
    (h : s.change j f = some t)
    (hf : ∀ p x, f p = some x → x.lock = p.lock ∧ (x.state = .running ↔ p.state = .running)) :
    CpuTo s t := by
  rw [CpuSys.change] at h
  split_ifs at h
  obtain ⟨x, hx, rfl⟩ := Option.map_eq_some_iff.1 h
  exact .change (hf _ _ hx).1 (hf _ _ hx).2

theorem CpuSys.changeBy_to {s t : CpuSys} {c j : ℕ} {f : CpuProc → Option CpuProc}
    (h : s.changeBy c j f = some t)
    (hf : ∀ p x, f p = some x → x.lock = p.lock ∧ (x.state = .running ↔ p.state = .running)) :
    CpuTo s t := by
  rw [CpuSys.changeBy] at h
  split at h
  · exact CpuSys.change_to h hf
  · cases h

theorem CpuProc.when_some {st : ProcState} {f : CpuProc → CpuProc} {p x : CpuProc}
    (h : CpuProc.when st f p = some x) : p.state = st ∧ x = f p := by
  rw [CpuProc.when] at h
  split_ifs at h with hst
  exact ⟨hst, (Option.some.inj h).symm⟩

theorem cpuStep_to {s t : CpuSys} {e : CpuEvent} (h : cpuStep e s = some t) : CpuTo s t := by
  cases e with
  | snap c =>
    simp only [cpuStep] at h
    split at h
    next i sums hpc =>
      split_ifs at h <;> cases h <;> exact .choose (by rw [hpc]; rfl) (by rw [hpc]; rfl) rfl rfl
    · cases h
  | pick c r =>
    simp only [cpuStep] at h
    split at h
    next i sums hpc =>
      split_ifs at h <;> cases h <;> exact .choose (by rw [hpc]; rfl) (by rw [hpc]; rfl) rfl rfl
    · cases h
  | acquire c =>
    simp only [cpuStep] at h
    split at h
    next p hpc =>
      split_ifs at h with hl
      cases h
      exact .acquire hpc hl
    · cases h
  | test c =>
    simp only [cpuStep] at h
    split at h
    next p hpc =>
      split_ifs at h with hst
      · cases h
        exact .switchTo hpc hst
      · cases h
        exact .pass hpc
    · cases h
  | resume c =>
    simp only [cpuStep] at h
    split at h
    · cases h
      exact .resume ‹_›
    · cases h
  | lock c =>
    simp only [cpuStep] at h
    split at h
    next p hpc =>
      split_ifs at h with hl
      cases h
      exact .lock hpc hl
    · cases h
  | giveUp c g =>
    simp only [cpuStep] at h
    split at h
    · cases h
      cases g <;> exact .giveUp ‹_› rfl (by simp [GiveUp.apply])
    · cases h
  | swtch c =>
    simp only [cpuStep] at h
    split at h
    · cases h
      exact .swtch ‹_›
    · cases h
  | finish c =>
    simp only [cpuStep] at h
    split at h
    · cases h
      exact .finish ‹_›
    · cases h
  | wakeup c chan j =>
    simp only [cpuStep] at h
    split_ifs at h
    refine CpuSys.change_to h fun p x hx => ?_
    cases hx
    split_ifs with hp <;> simp [*]
  | kill c j =>
    refine CpuSys.changeBy_to h fun p x hx => ?_
    cases hx
    by_cases hp : p.state = .sleeping <;> simp [hp]
  | wait c j | alloc c j | forkFails c j | start c j n =>
    refine CpuSys.changeBy_to h fun p x hx => ?_
    obtain ⟨hst, rfl⟩ := CpuProc.when_some hx
    simp [hst]
  | settickets c n =>
    simp only [cpuStep] at h
    split at h
    · split_ifs at h
      cases h
      exact .change rfl Iff.rfl
    · cases h

/-! ### The invariant -/

/-- Locks belong to the processors that are at a place where they hold them; a process is RUNNING
exactly when it runs on a processor; no two processors have a process at once; `c->proc` is the
process on the stack of which the processor is or has just been. -/
structure CpuInv (s : CpuSys) : Prop where
  locks : ∀ c p, (s.procs p).lock = some c ↔ (s.cpus c).pc.holds = some p
  running : ∀ p, (s.procs p).state = .running ↔ ∃ c, (s.cpus c).pc.runs = some p
  once : ∀ c c' p, (s.cpus c).pc.current = some p → (s.cpus c').pc.current = some p → c = c'
  proc : ∀ c, (s.cpus c).proc = (s.cpus c).pc.current

/-- A process that is not RUNNING is on a processor only while its lock is handed over there. -/
theorem CpuInv.handed {s : CpuSys} (hi : CpuInv s) {c p : ℕ} (hst : (s.procs p).state ≠ .running)
    (hc : (s.cpus c).pc.current = some p) :
    (s.procs p).lock = some c
      ∧ ((s.cpus c).pc = .exec p .switching ∨ (s.cpus c).pc = .back p) := by
  have hruns : (s.cpus c).pc.runs ≠ some p := fun h => hst ((hi.running p).2 ⟨c, h⟩)
  rw [hi.locks]
  cases hpc : (s.cpus c).pc with
  | exec q ph =>
    rw [hpc] at hc hruns
    obtain rfl : q = p := Option.some.inj hc
    cases ph with
    | switching => exact ⟨rfl, .inl rfl⟩
    | _ => exact absurd rfl hruns
  | back q =>
    rw [hpc] at hc
    obtain rfl : q = p := Option.some.inj hc
    exact ⟨rfl, .inr rfl⟩
  | _ => rw [hpc] at hc; cases hc

theorem CpuPc.runs_current {pc : CpuPc} {p : ℕ} (h : pc.runs = some p) : pc.current = some p := by
  unfold CpuPc.runs at h
  split at h <;> cases h <;> rfl

section step

variable {s t : CpuSys}

theorem CpuTo.locks (h : CpuTo s t) (hi : CpuInv s) (c p : ℕ) :
    (t.procs p).lock = some c ↔ (t.cpus c).pc.holds = some p := by
  have hl := hi.locks
  have hloop : CpuPc.loop.holds = none := rfl
  have hnormal : ∀ p, (CpuPc.exec p .normal).holds = none := fun _ => rfl
  cases h with
  | choose => grind
  | acquire hpc hfree | lock hpc hfree => grind [CpuPc.holds]
  | switchTo hpc hst | swtch hpc | giveUp hpc hl hst => grind [CpuPc.holds]
  | @pass c₀ p₀ hpc | @resume c₀ p₀ _ hpc | @finish c₀ p₀ hpc =>
    -- the lock that is released is the processor's own
    have hh : (s.cpus c₀).pc.holds = some p₀ := by rw [hpc]; rfl
    have hown : (s.procs p₀).lock = some c₀ := (hl _ _).2 hh
    grind
  | change hl hst => grind

theorem CpuTo.running (h : CpuTo s t) (hi : CpuInv s) (p : ℕ) :
    (t.procs p).state = .running ↔ ∃ c, (t.cpus c).pc.runs = some p := by
  have hr := hi.running
  have ho := hi.once
  cases h with
  | choose hh hc hh' hc' =>
    simp only [CpuSys.goto_procs, CpuSys.goto_cpus]
    grind [CpuPc.runs_current]
  | acquire hpc _ | pass hpc | resume hpc | lock hpc _ | swtch hpc =>
    simp only [CpuSys.goto_procs, CpuSys.goto_cpus, CpuSys.setProc_procs, CpuSys.setProc_cpus]
    grind [CpuPc.runs, CpuPc.loop]
  | switchTo hpc hst | finish hpc =>
    simp only [CpuSys.setCpu_procs, CpuSys.setCpu_cpus, CpuSys.setProc_procs, CpuSys.setProc_cpus]
    grind [CpuPc.runs, CpuPc.loop]
  | giveUp hpc hl hst =>
    -- nobody else runs the process that leaves
    simp only [CpuSys.goto_procs, CpuSys.goto_cpus, CpuSys.setProc_procs, CpuSys.setProc_cpus]
    grind [CpuPc.runs, CpuPc.runs_current]
  | change hl hst =>
    simp only [CpuSys.setProc_procs, CpuSys.setProc_cpus]
    grind

theorem CpuTo.once (h : CpuTo s t) (hi : CpuInv s) (c c' p : ℕ)
    (hc : (t.cpus c).pc.current = some p) (hc' : (t.cpus c').pc.current = some p) : c = c' := by
  have ho := hi.once
  cases h with
  | choose => grind
  | acquire hpc | resume hpc | lock hpc | giveUp hpc | swtch hpc => grind [CpuPc.current]
  | pass hpc | finish hpc => grind [CpuPc.current, CpuPc.loop]
  | @switchTo c₀ p₀ hpc hst =>
    -- the processor holds the lock of a process that does not run, so no other one is at it
    have hown : (s.procs p₀).lock = some c₀ := (hi.locks _ _).2 (by rw [hpc]; rfl)
    have halone : ∀ c, (s.cpus c).pc.current = some p₀ → c = c₀ := fun c h =>
      Option.some.inj ((hi.handed (by simp [hst]) h).1.symm.trans hown)
    grind [CpuPc.current]
  | change hl hst => grind

theorem CpuTo.proc (h : CpuTo s t) (hi : CpuInv s) (c : ℕ) :
    (t.cpus c).proc = (t.cpus c).pc.current := by
  have hp := hi.proc
  cases h <;> grind [CpuPc.current, CpuPc.loop]

theorem CpuInv.step (hi : CpuInv s) (h : CpuTo s t) : CpuInv t :=
  ⟨h.locks hi, h.running hi, h.once hi, h.proc hi⟩

end step

theorem CpuSys.Started.inv {s : CpuSys} (h : s.Started) : CpuInv s where
  locks c p := by rw [h.locks, h.cpus]; exact ⟨nofun, nofun⟩
  running p := ⟨fun hr => absurd hr (h.states p), fun ⟨c, hc⟩ => by rw [h.cpus] at hc; cases hc⟩
  once c c' p hc := by rw [h.cpus] at hc; cases hc
  proc c := by rw [h.cpus]; rfl

/-! ### No process runs twice at once -/

theorem CpuSys.On.current {s : CpuSys} {c p : ℕ} (h : s.On c p) :
    (s.cpus c).pc.current = some p := by
  obtain ⟨ph, hph⟩ := h
  rw [hph]
  rfl

theorem CpuPc.exec_of_runs {pc : CpuPc} {p : ℕ} (h : pc.runs = some p) : ∃ ph, pc = .exec p ph := by
  unfold CpuPc.runs at h
  split at h <;> cases h <;> exact ⟨_, rfl⟩

/-- `c->proc` is a process exactly while it runs on the processor or its lock is handed over
there. -/
theorem CpuInv.proc_iff {s : CpuSys} (hi : CpuInv s) (c p : ℕ) :
    (s.cpus c).proc = some p ↔ ((s.procs p).state = .running ∧ s.On c p) ∨ s.HandOver c p := by
  rw [hi.proc]
  refine ⟨fun h => ?_, ?_⟩
  · by_cases hst : (s.procs p).state = .running
    · obtain ⟨c', hc'⟩ := (hi.running p).1 hst
      obtain rfl := hi.once c' c p (CpuPc.runs_current hc') h
      exact .inl ⟨hst, CpuPc.exec_of_runs hc'⟩
    · exact .inr (hi.handed hst h)
  · rintro (⟨-, hon⟩ | ⟨-, hpc | hpc⟩)
    · exact hon.current
    · rw [hpc]; rfl
    · rw [hpc]; rfl

/-- A process gets on a processor only in the step that finds it RUNNABLE under its lock. -/
theorem CpuTo.on {s t : CpuSys} (h : CpuTo s t) {c p : ℕ} (hon : t.On c p) (hoff : ¬ s.On c p) :
    (s.procs p).state = .runnable ∧ (s.cpus c).pc = .holding p := by
  obtain ⟨ph, hph⟩ := hon
  have hkeep : t.cpus c ≠ s.cpus c := fun h => hoff ⟨ph, h ▸ hph⟩
  cases h with
  | @switchTo c₀ p₀ hpc hst =>
    obtain rfl : c = c₀ := by
      by_contra hc
      simp [hc] at hkeep
    obtain rfl : p₀ = p := by
      simp at hph
      exact hph.1
    exact ⟨hst, hpc⟩
  | @resume c₀ p₀ _ hpc | @lock c₀ p₀ hpc _ | @giveUp c₀ p₀ _ hpc _ _ =>
    exfalso
    have : s.On c₀ p₀ := ⟨_, hpc⟩
    grind
  | _ => grind [CpuPc.current, CpuPc.loop]

/-- `wait` frees a ZOMBIE, on the kernel stack of which no processor executes any more. -/
theorem CpuInv.wait {s t : CpuSys} (hi : CpuInv s) {c j : ℕ} (h : cpuStep (.wait c j) s = some t) :
    (s.procs j).state = .zombie ∧ ∀ c', ¬ s.On c' j := by
  simp only [cpuStep, CpuSys.changeBy] at h
  split at h
  · rw [CpuSys.change] at h
    split_ifs at h with hfree
    obtain ⟨x, hx, -⟩ := Option.map_eq_some_iff.1 h
    obtain ⟨hst, -⟩ := CpuProc.when_some hx
    refine ⟨hst, fun c' hon => ?_⟩
    have hlock := (hi.handed (by simp [hst]) hon.current).1
    rw [hfree] at hlock
    cases hlock
  · cases h

/-- In every state that the processors reach, a process is on at most one of them, a RUNNING one is
on one, and `c->proc` is the process that runs there or whose lock is handed over there.  Whatever a
processor has read of the table before, it switches to a process that is RUNNABLE then; and `wait`
frees a slot only when no processor is on its stack. -/
theorem no_process_runs_twice {s₀ s : CpuSys} (h₀ : s₀.Started)
    (h : Reach cpuStep (fun _ _ => True) s₀ s) :
    (∀ c c' p, s.On c p → s.On c' p → c = c')
      ∧ (∀ p, (s.procs p).state = .running → ∃ c, s.On c p)
      ∧ (∀ c p, (s.cpus c).proc = some p
          ↔ ((s.procs p).state = .running ∧ s.On c p) ∨ s.HandOver c p)
      ∧ (∀ e t c p, cpuStep e s = some t → t.On c p → ¬ s.On c p →
          (s.procs p).state = .runnable ∧ (s.procs p).lock = some c)
      ∧ ∀ t c j, cpuStep (.wait c j) s = some t →
          (s.procs j).state = .zombie ∧ ∀ c', ¬ s.On c' j := by
  have hi : CpuInv s := h.invariant h₀.inv fun _ _ _ hi _ hs => hi.step (cpuStep_to hs)
  refine ⟨fun c c' p hc hc' => hi.once c c' p hc.current hc'.current, fun p hp => ?_, hi.proc_iff,
    fun e t c p hs hon hoff => ?_, fun t c j hs => hi.wait hs⟩
  · obtain ⟨c, hc⟩ := (hi.running p).1 hp
    exact ⟨c, CpuPc.exec_of_runs hc⟩
  · obtain ⟨hst, hpc⟩ := (cpuStep_to hs).on hon hoff
    exact ⟨hst, (hi.locks c p).2 (by rw [hpc]; rfl)⟩

/-- One process, in the first slot, and all processors at the start of `scheduler`. -/
def oneProc : CpuSys where
  cpus _ := ⟨none, .loop⟩
  procs p := ⟨if p = 0 then .runnable else .unused, none, none, false, 1, false⟩

/-- Two processors read the whole table and draw the same process; the first one gets it, and the
other one comes late. -/
def staleDraw : List CpuEvent :=
  List.replicate NPROC (.snap 0) ++ List.replicate NPROC (.snap 1)
    ++ [.pick 0 0, .pick 1 0, .acquire 0, .test 0, .resume 0, .acquire 1]

theorem no_process_runs_twice_stale :
    ∃ s, Reach cpuStep (fun _ _ => True) oneProc s ∧ s.On 0 0 ∧ (s.cpus 1).pc = .holding 0
      ∧ ∀ c, s.On c 0 → c = 0 := by
  have h₀ : oneProc.Started :=
    ⟨fun _ => rfl, fun _ => rfl, fun p => by by_cases hp : p = 0 <;> simp [oneProc, hp]⟩
  have hrun : (runs cpuStep staleDraw oneProc).map (fun s =>
      (match (s.cpus 0).pc with | .exec 0 .normal => true | _ => false)
        && (match (s.cpus 1).pc with | .holding 0 => true | _ => false)) = some true := by
    decide +kernel
  obtain ⟨s, hs, hst⟩ := Option.map_eq_some_iff.1 hrun
  obtain ⟨h0, h1⟩ := Bool.and_eq_true_iff.1 hst
  have hon : s.On 0 0 := by
    split at h0
    · exact ⟨_, ‹_›⟩
    · cases h0
  have hlate : (s.cpus 1).pc = .holding 0 := by
    split at h1
    · assumption
    · cases h1
  have hreach := reach_of_runs (fun _ _ _ => trivial) hs
  exact ⟨s, hreach, hon, hlate, fun c hc => (no_process_runs_twice h₀ hreach).1 c 0 0 hc hon⟩

end Xv6
