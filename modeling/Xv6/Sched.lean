import Xv6.Proc

/-!
# The process table

The rest of `kernel/proc.c` that writes the process table: `kill`, `sleep` and `wakeup`, the end of
`exit`, `wait`, the scheduler.  Each function is cut where it releases a lock; what it does while it
holds one is one step of the system, and the steps of all processes and processors may come in any
order (`sysStep`).  A lock that is passed between a process and the scheduler by `swtch` is released
at the end of the step.
-/

namespace Xv6

open Bytes Wp

/-! ### `kill`, `sleep`, `wakeup` -/

/-- A process is killed, and woken up if it sleeps. -/
def Proc.kill (p : Proc) : Proc :=
  { p with killed := true, state := if p.state = .sleeping then .runnable else p.state }

/-- One round of the loop of `kill`: whether this is the process. -/
def killSlot (pid : ℤ) (j : ℕ) : K Bool := do
  acquireProc j
  let s ← get
  if (s.procs j).pid = pid then
    set (s.setProc j (s.procs j).kill)
    releaseProc j
    return true
  releaseProc j
  return false

def kill (pid : ℤ) : K ℤ := do
  match ← loopWhile (fun j => return !(← killSlot pid j)) 0 NPROC with
  | none => return -1
  | some _ => return 0

/-- One round of the loop of `wakeup`; `me` is `myproc()`. -/
def wakeupSlot (me : Option ℕ) (chan : Option Chan) (j : ℕ) : K Unit := do
  if me = some j then return
  acquireProc j
  let s ← get
  if (s.procs j).state = .sleeping ∧ (s.procs j).chan = chan then
    set (s.setProc j { s.procs j with state := .runnable })
  releaseProc j

def wakeup (me : Option ℕ) (chan : Option Chan) : K Unit := loop (wakeupSlot me chan) 0 NPROC

/-- `sleep` up to the switch to the scheduler, which releases the lock. -/
def sleepSlot (i : ℕ) (chan : Chan) : K Unit := do
  acquireProc i
  modify fun s => s.setProc i { s.procs i with chan := some chan, state := .sleeping }
  releaseProc i

/-- `yield` up to the switch to the scheduler. -/
def yieldSlot (i : ℕ) : K Unit := do
  acquireProc i
  modify fun s => s.setProc i { s.procs i with state := .runnable }
  releaseProc i

/-- The scheduler gives the processor to `proc[j]`, which goes on in `sleep` (`slept`), in `yield`
or in `forkret` and releases its lock there. -/
def schedule (j : ℕ) (slept : Bool) : K Unit := do
  acquireProc j
  let s ← get
  if (s.procs j).state = .runnable then
    set (s.setProc j { s.procs j with state := .running, ticks := (s.procs j).ticks + 1 })
    if slept then modify fun s => s.setProc j { s.procs j with chan := none }
  releaseProc j

/-- `p->killed = 1` of `usertrap`. -/
def setKilled (i : ℕ) : K Unit := modify fun s => s.setProc i { s.procs i with killed := true }

/-! ### `exit` and `wait` -/

/-- `if (pp->parent == p) pp->parent = initproc`: whether it was a child. -/
def adopt (i j : ℕ) : K Bool := do
  let s ← get
  if (s.procs j).parent = some i then
    set (s.setProc j { s.procs j with parent := s.initproc })
    return true
  return false

/-- The process becomes a ZOMBIE and leaves for the scheduler. -/
def becomeZombie (i : ℕ) (status : ℤ) : K Unit := do
  acquireProc i
  modify fun s => s.setProc i { s.procs i with xstate := status, state := .zombie }
  releaseProc i

variable [Layout]

/-- The bytes of an `int`. -/
def intBytes (n : ℤ) : ℕ → Byte := fun k => ((BitVec.ofInt 32 n) >>> (8 * k)).setWidth 8

/-- One round of the scan of `wait` by the process `i`: whether `proc[j]` is a child, and what
`wait` returns if it ends here. -/
def waitSlot (i : ℕ) (addr : U64) (j : ℕ) : K (Bool × Option ℤ) := do
  let s ← get
  if (s.procs j).parent ≠ some i then return (false, none)
  acquireProc j
  if (s.procs j).state = .zombie then
    if addr ≠ 0 then
      if !(← copyout (.proc i) addr (intBytes (s.procs j).xstate) 4) then
        releaseProc j
        return (true, some (-1))
    freeproc j
    releaseProc j
    return (true, some (s.procs j).pid)
  releaseProc j
  return (true, none)

/-- The scan of `wait` from slot `j` on: whether there are children, and what `wait` returns. -/
def waitScan (i : ℕ) (addr : U64) : ℕ → ℕ → Bool → K (Bool × Option ℤ)
  | _, 0, havekids => return (havekids, none)
  | j, n + 1, havekids => do
    match ← waitSlot i addr j with
    | (_, some r) => return (true, some r)
    | (child, none) => waitScan i addr (j + 1) n (havekids || child)

/-- `wait` up to its `sleep`, which is `none`. -/
def wait (i : ℕ) (addr : U64) : K (Option ℤ) := do
  match ← waitScan i addr 0 NPROC false with
  | (_, some r) => return some r
  | (havekids, none) =>
    let s ← get
    if !havekids ∨ (s.procs i).killed then return some (-1)
    return none

/-! ### The table -/

/-- The part of a `struct proc` that other processes look at. -/
structure Row where
  locked : Bool
  state : ProcState
  chan : Option Chan
  killed : Bool
  pid : ℤ
  parent : Option ℕ
  deriving DecidableEq

@[simps]
def Proc.row (p : Proc) : Row := ⟨p.locked, p.state, p.chan, p.killed, p.pid, p.parent⟩

/-- The process table as an abstract state. -/
@[ext]
structure Table where
  rows : ℕ → Row
  nextpid : ℤ
  initproc : Option ℕ

/-- Change a row. -/
def Table.set (T : Table) (j : ℕ) (r : Row) : Table :=
  { T with rows := Function.update T.rows j r }

/-- The process table of a kernel. -/
def Kernel.table (s : Kernel) : Table := ⟨fun j => (s.procs j).row, s.nextpid, s.initproc⟩

/-! ### The system -/

/-- The kernel, and the child that `fork` has made and has not yet made RUNNABLE, for the process in
each slot. -/
structure Sys where
  kernel : Kernel
  forking : ℕ → Option ℕ

/-- The steps of the system. -/
inductive SysEvent
  | fork (i : ℕ)
  | forkParent (i : ℕ)
  | forkRun (i : ℕ)
  | kill (pid : ℤ) (j : ℕ)
  | setKilled (i : ℕ)
  | sleep (i : ℕ) (chan : Chan)
  | yield (i : ℕ)
  | schedule (j : ℕ) (slept : Bool)
  | wakeup (me : Option ℕ) (chan : Option Chan) (j : ℕ)
  | adopt (i j : ℕ)
  | zombie (i : ℕ) (status : ℤ)
  | wait (i : ℕ) (addr : U64) (j : ℕ)
  /-- All other code: it may change everything but the table. -/
  | other (kernel : Kernel)

/-- Run a piece of kernel code that returns. -/
def Sys.exec {α : Type} (t : Sys) (m : K α) : Option (α × Kernel) := (m t.kernel).toOption

/-- The processor runs `proc[i]`. -/
def Sys.Running (t : Sys) (i : ℕ) : Prop := (t.kernel.procs i).state = .running

instance (t : Sys) (i : ℕ) : Decidable (t.Running i) := by
  unfold Sys.Running
  infer_instance

/-- One step. -/
def sysStep (e : SysEvent) (t : Sys) : Option Sys :=
  match e with
  | .fork i =>
    if t.Running i ∧ t.forking i = none then
      (t.exec (forkAlloc i)).map fun (r, k) =>
        ⟨k, Function.update t.forking i (r.map Prod.fst)⟩
    else none
  | .forkParent i =>
    match t.forking i with
    | none => none
    | some np => (t.exec (forkParent i np)).map fun (_, k) => ⟨k, t.forking⟩
  | .forkRun i =>
    match t.forking i with
    | none => none
    | some np => (t.exec (forkRun np)).map fun (_, k) => ⟨k, Function.update t.forking i none⟩
  | .kill pid j => (t.exec (killSlot pid j)).map fun (_, k) => ⟨k, t.forking⟩
  | .setKilled i =>
    if t.Running i then (t.exec (setKilled i)).map fun (_, k) => ⟨k, t.forking⟩ else none
  | .sleep i chan =>
    if t.Running i then (t.exec (sleepSlot i chan)).map fun (_, k) => ⟨k, t.forking⟩ else none
  | .yield i =>
    if t.Running i then (t.exec (yieldSlot i)).map fun (_, k) => ⟨k, t.forking⟩ else none
  | .schedule j slept => (t.exec (schedule j slept)).map fun (_, k) => ⟨k, t.forking⟩
  | .wakeup me chan j => (t.exec (wakeupSlot me chan j)).map fun (_, k) => ⟨k, t.forking⟩
  | .adopt i j =>
    if t.Running i then (t.exec (adopt i j)).map fun (_, k) => ⟨k, t.forking⟩ else none
  | .zombie i status =>
    if t.Running i then
      (t.exec (becomeZombie i status)).map fun (_, k) => ⟨k, Function.update t.forking i none⟩
    else none
  | .wait i addr j =>
    if t.Running i then (t.exec (waitSlot i addr j)).map fun (_, k) => ⟨k, t.forking⟩ else none
  | .other kernel =>
    some ⟨{ kernel with
      procs := fun j => { kernel.procs j with
        locked := (t.kernel.procs j).locked
        state := (t.kernel.procs j).state
        chan := (t.kernel.procs j).chan
        killed := (t.kernel.procs j).killed
        pid := (t.kernel.procs j).pid
        parent := (t.kernel.procs j).parent }
      nextpid := t.kernel.nextpid
      initproc := t.kernel.initproc }, t.forking⟩

end Xv6
