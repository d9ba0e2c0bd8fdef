import Xv6.Uvm

/-!
# Processes and the system calls on their memory

`allocproc`, `freeproc`, `userinit` and `fork` of `kernel/proc.c`, the page-fault branch of
`usertrap`, the system calls `mmap`, `munmap` and `sbrk`, and the accesses a user program makes
through its page table.  A `struct proc *` is an index into `proc[]`; `p->lock` is a flag that says
whether the running thread holds it.  The registers a process saves are in its trapframe page;
those of the scheduler (`context`, `kstack`) are left out.
-/

namespace Xv6

open Bytes Wp

/-! ### Locks -/

/-- A process with its lock held or free. -/
@[simps]
def Proc.lock (p : Proc) (b : Bool) : Proc := { p with locked := b }

def acquireProc (i : ℕ) : K Unit := do
  let s ← get
  panicIf (s.procs i).locked "acquire"
  set (s.setProc i ((s.procs i).lock true))

def releaseProc (i : ℕ) : K Unit := do
  let s ← get
  panicIf (!(s.procs i).locked) "release"
  set (s.setProc i ((s.procs i).lock false))

/-! ### The process table -/

/-- `allocpid`. -/
def allocpid : K ℤ := do
  let s ← get
  set { s with nextpid := s.nextpid + 1 }
  return s.nextpid

/-- The loop of `allocproc`: the first unused slot, with its lock held. -/
def findUnused : List ℕ → K (Option ℕ)
  | [] => return none
  | i :: is => do
    acquireProc i
    if ((← get).procs i).state = .unused then return some i
    releaseProc i
    findUnused is

variable [Layout]

/-- `if (pa) kfree(pa)`. -/
def kfreeOpt (pa : U64) : P Unit := if pa = 0 then return else kfree pa

/-- `freeproc`. -/
def freeproc (i : ℕ) : K Unit := do
  let s ← get
  kfreeOpt (s.procs i).trapframe
  modify fun s => s.setProc i { s.procs i with trapframe := 0 }
  let s ← get
  panicIf (∃ k < VMA_SIZE, ((s.uvms (.proc i)).vma k).isSome) "freeproc: remaining vma\n"
  set (s.setProc i { s.procs i with
    pid := 0, parent := none, name := [], chan := none, killed := false, xstate := 0,
    state := .unused })

/-- `allocproc`.  When `uvm_new` fails, the slot is freed and returned all the same. -/
def allocproc : K (Option ℕ) := do
  match ← findUnused (List.range NPROC) with
  | none => return none
  | some i =>
    let pid ← allocpid
    modify fun s => s.setProc i { s.procs i with pid := pid, state := .used, ticks := 0 }
    let trapframe ← kalloc
    modify fun s => s.setProc i { s.procs i with trapframe := trapframe }
    if trapframe = 0 then
      freeproc i
      releaseProc i
      return none
    if !(← uvmNew (.proc i) trapframe) then
      freeproc i
      releaseProc i
    return some i

/-- Offsets in `struct trapframe`, and its size. -/
def TF_EPC : U64 := 24
def TF_SP : U64 := 48
def TF_A0 : U64 := 112
def TF_SIZE : ℕ := 288

/-- `filedup`. -/
def filedup (f : ℕ) : K Unit := do
  let s ← get
  panicIf ((s.files f).ref < 1) "filedup"
  set { s with files := Function.update s.files f { s.files f with ref := (s.files f).ref + 1 } }

/-- `np->ofile[fd] = filedup(p->ofile[fd])`, unless it is null. -/
def dupFile (i np fd : ℕ) : K Unit := do
  let s ← get
  match (s.procs i).ofile fd with
  | none => return
  | some f =>
    filedup f
    modify fun s => s.setProc np { s.procs np with
      ofile := Function.update (s.procs np).ofile fd (some f) }

/-- What `fork` copies to the child in slot `np` after `uvm_dup`. -/
def forkCopy (i np : ℕ) : K Unit := do
  let s ← get
  let regs ← readBytes (s.procs i).trapframe TF_SIZE
  writeBytes (s.procs np).trapframe regs
  storePte ((s.procs np).trapframe + TF_A0) 0
  loop (dupFile i np) 0 NOFILE
  let s ← get
  match (s.procs i).cwd with
  | none => throw .fault
  | some cwd => idup cwd
  let s ← get
  set (s.setProc np { s.procs np with
    cwd := (s.procs i).cwd, tickets := (s.procs i).tickets, name := (s.procs i).name })

/-- The part of `fork` in which it holds the lock of the child: the child and its pid, or
`none`. -/
def forkAlloc (i : ℕ) : K (Option (ℕ × ℤ)) := do
  match ← allocproc with
  | none => return none
  | some np =>
    if !(← uvmDup (.proc i) (.proc np)) then
      freeproc np
      releaseProc np
      return none
    let pid := ((← get).procs np).pid
    forkCopy i np
    releaseProc np
    return some (np, pid)

/-- `np->parent = p`, under `wait_lock`. -/
def forkParent (i np : ℕ) : K Unit :=
  modify fun s => s.setProc np { s.procs np with parent := some i }

/-- The child becomes RUNNABLE. -/
def forkRun (np : ℕ) : K Unit := do
  acquireProc np
  modify fun s => s.setProc np { s.procs np with state := .runnable }
  releaseProc np

/-! ### User accesses -/

/-- What the hardware finds for a user access that needs `perm`: the physical address, unless the
access faults. -/
def mmu (pagetable va perm : U64) : P (Option U64) := do
  if MAXVA ≤ va then return none
  match ← pgtWalk pagetable va false with
  | none => return none
  | some a =>
    let pte ← loadPte a
    if pte &&& PTE_V = 0 ∨ pte &&& PTE_U = 0 ∨ pte &&& perm = 0 then return none
    return some (pte2pa pte + va % PGSIZE)

/-- The page-fault branch of `usertrap`: `false` kills the process. -/
def pageFault (u : UvmPtr) (va missingPerm : U64) : K Bool := do
  let pa ← uvmCompletemap u (pgRoundDown va) missingPerm
  return pa ≠ 0

/-- A user access: the physical address, or `none` if the process is killed.  An instruction that
faults again after its page fault was handled faults for ever. -/
def userAccess (u : UvmPtr) (va perm : U64) : K (Option U64) := do
  let s ← get
  match ← mmu (s.uvms u).pagetable va perm with
  | some a => return some a
  | none =>
    if !(← pageFault u va perm) then return none
    let s ← get
    match ← mmu (s.uvms u).pagetable va perm with
    | some a => return some a
    | none => throw .diverge

/-- A user store of one byte: `false` kills the process. -/
def userStore (u : UvmPtr) (va : U64) (b : Byte) : K Bool := do
  match ← userAccess u va PTE_W with
  | none => return false
  | some a =>
    writeBytes a [b]
    return true

/-! ### System calls -/

/-- `argfd`. -/
def argfd (s : Kernel) (i : ℕ) (fd : U32) : Option ℕ :=
  if fd.toInt < 0 ∨ NOFILE ≤ fd.toNat then none else (s.procs i).ofile fd.toNat

/-- `sys_mmap`, for the arguments in the registers of process `i`. -/
def sysMmap (i : ℕ) (addr length : U64) (perm flags fd offset : U32) : K U64 := do
  let s ← get
  match argfd s i fd with
  | none => return -1
  | some f =>
    let file := s.files f
    if file.type ≠ .inode then return -1
    match file.ip with
    | none => throw .fault
    | some ip =>
      if perm &&& 2 ≠ 0 ∧ !file.readable then return -1
      if perm &&& 4 ≠ 0 ∧ flags = MAP_SHARED ∧ !file.writable then return -1
      let mut addr := addr
      if !uvmIsrangefree s (.proc i) addr length then
        addr ← getfreevrange (.proc i) (length.setWidth 32)
        if addr = 0 then return -1
      uvmMap (.proc i) addr length perm flags (some ip) offset
        ((s.fs.itable ip).size - offset)

/-! ### The first process -/

/-- `"initcode"`. -/
def initName : List Byte := [105, 110, 105, 116, 99, 111, 100, 101]

/-- `userinit`, for a kernel whose memory has been set up; `initcode` is the code of the first
process. -/
def userinit (initcode : List Byte) : K Unit := do
  match ← allocproc with
  | none => throw .fault
  | some i =>
    modify fun s => { s with initproc := some i }
    code2uvm (.proc i) initcode
    let s ← get
    storePte ((s.procs i).trapframe + TF_EPC) 0
    storePte ((s.procs i).trapframe + TF_SP) PGSIZE
    let cwd ← namei none [slash]
    modify fun s => s.setProc i { s.procs i with
      name := initName, cwd := cwd, tickets := 1, state := .runnable }
    releaseProc i

end Xv6
