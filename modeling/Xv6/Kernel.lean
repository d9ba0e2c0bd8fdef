import Xv6.Fs
import Xv6.Pagetable

/-!
# The state of the kernel

The tables of the kernel as the virtual-memory and process code sees them: physical memory, the
file system, the pool `vmas[]`, the `struct uvm` of every process, the process table and the file
table.  Pointers into a table are indices.  Code that works on physical memory or on the file
system alone runs on that part of the state.
-/

namespace Xv6

open Bytes Wp

/-- `struct vma`. -/
structure Vma where
  used : Bool
  inode : Option ℕ
  offset : U32
  filesz : U32
  start : U64
  length : U64
  perm : U32
  flags : U32
  deriving DecidableEq

/-- `struct uvm`.  Its `vma` array has the `VMA_SIZE` entries from 0 on. -/
structure Uvm where
  pagetable : U64
  vma : ℕ → Option ℕ
  heap : Option ℕ

/-- A `struct uvm` after `memset(uvm, 0, sizeof(struct uvm))`. -/
def Uvm.zero : Uvm := ⟨0, fun _ => none, none⟩

/-- A `struct uvm *`: the `uvm` of a slot of the process table, or the local one of an `exec` by
the process in a slot. -/
inductive UvmPtr
  | proc (i : ℕ)
  | exec (i : ℕ)
  deriving DecidableEq

/-- `enum procstate`. -/
inductive ProcState
  | unused
  | used
  | sleeping
  | runnable
  | running
  | zombie
  deriving DecidableEq

/-- What a process sleeps on: the address of a `struct proc`, or of anything else. -/
inductive Chan
  | proc (i : ℕ)
  | other (a : ℕ)
  deriving DecidableEq

/-- `struct proc`, without its `uvm` and what only the scheduler uses. -/
structure Proc where
  locked : Bool
  state : ProcState
  chan : Option Chan
  killed : Bool
  xstate : ℤ
  pid : ℤ
  tickets : ℤ
  ticks : U32
  parent : Option ℕ
  trapframe : U64
  ofile : ℕ → Option ℕ
  cwd : Option ℕ
  name : List Byte

/-- The type of a `struct file`. -/
inductive FileType
  | none
  | pipe
  | inode
  | device
  deriving DecidableEq

/-- `struct file`. -/
structure File where
  type : FileType
  ref : ℤ
  readable : Bool
  writable : Bool
  pipe : Option ℕ
  ip : Option ℕ
  off : U32
  major : U16

/-- `struct pipe`. -/
structure Pipe where
  data : ℕ → Byte
  nread : U32
  nwrite : U32
  readopen : Bool
  writeopen : Bool

/-- The input buffer of the console, as its readers see it. -/
structure Cons where
  buf : ℕ → Byte
  r : U32
  w : U32

/-- The state of the kernel. -/
structure Kernel where
  phys : Phys
  fs : Fs
  vmas : ℕ → Vma
  uvms : UvmPtr → Uvm
  procs : ℕ → Proc
  files : ℕ → File
  pipes : ℕ → Pipe
  cons : Cons
  nextpid : ℤ
  initproc : Option ℕ

/-- Kernel code. -/
abbrev K := Prog Kernel Stop

instance : MonadLift P K where
  monadLift m := zoom Kernel.phys (fun p s => { s with phys := p }) m

instance : MonadLift F K where
  monadLift m := zoom Kernel.fs (fun f s => { s with fs := f }) m

namespace Kernel

variable (s : Kernel)

/-- Change `vmas[j]`. -/
def setVma (j : ℕ) (v : Vma) : Kernel := { s with vmas := Function.update s.vmas j v }

/-- Change `*u`. -/
def setUvm (u : UvmPtr) (x : Uvm) : Kernel := { s with uvms := Function.update s.uvms u x }

/-- `u->vma[i] = j`. -/
def setSlot (u : UvmPtr) (i : ℕ) (j : Option ℕ) : Kernel :=
  s.setUvm u { s.uvms u with vma := Function.update (s.uvms u).vma i j }

/-- Other physical memory and another file system, the tables as they are. -/
def io (phys : Phys) (fs : Fs) : Kernel :=
  ⟨phys, fs, s.vmas, s.uvms, s.procs, s.files, s.pipes, s.cons, s.nextpid,
    s.initproc⟩

/-- Change `proc[i]`. -/
def setProc (i : ℕ) (p : Proc) : Kernel := { s with procs := Function.update s.procs i p }

section

variable {s : Kernel} {phys phys' : Phys} {fs fs' : Fs}

@[simp]
theorem io_phys : (s.io phys fs).phys = phys := rfl

@[simp]
theorem io_fs : (s.io phys fs).fs = fs := rfl

@[simp]
theorem io_vmas : (s.io phys fs).vmas = s.vmas := rfl

@[simp]
theorem io_uvms : (s.io phys fs).uvms = s.uvms := rfl

@[simp]
theorem io_procs : (s.io phys fs).procs = s.procs := rfl

@[simp]
theorem setUvm_self {u : UvmPtr} {x : Uvm} : (s.setUvm u x).uvms u = x := Function.update_self ..

theorem setUvm_of_ne {u u' : UvmPtr} {x : Uvm} (h : u' ≠ u) :
    (s.setUvm u x).uvms u' = s.uvms u' := Function.update_of_ne h ..

@[simp]
theorem setUvm_setUvm {u : UvmPtr} {x y : Uvm} : (s.setUvm u x).setUvm u y = s.setUvm u y := by
  simp [setUvm]

@[simp]
theorem setUvm_phys {u : UvmPtr} {x : Uvm} : (s.setUvm u x).phys = s.phys := rfl

@[simp]
theorem setUvm_fs {u : UvmPtr} {x : Uvm} : (s.setUvm u x).fs = s.fs := rfl

@[simp]
theorem setUvm_vmas {u : UvmPtr} {x : Uvm} : (s.setUvm u x).vmas = s.vmas := rfl

@[simp]
theorem io_setUvm (u : UvmPtr) (x : Uvm) :
    (s.io phys fs).setUvm u x = (s.setUvm u x).io phys fs := rfl

@[simp]
theorem io_setVma (j : ℕ) (v : Vma) : (s.io phys fs).setVma j v = (s.setVma j v).io phys fs := rfl

@[simp]
theorem io_setSlot (u : UvmPtr) (i : ℕ) (j : Option ℕ) :
    (s.io phys fs).setSlot u i j = (s.setSlot u i j).io phys fs := rfl

@[simp]
theorem io_setProc (i : ℕ) (p : Proc) :
    (s.io phys fs).setProc i p = (s.setProc i p).io phys fs := rfl

@[simp]
theorem io_io : (s.io phys fs).io phys' fs' = s.io phys' fs' := rfl

end

end Kernel

section

variable {α : Type} {E : Stop → Prop} {Q : α → Kernel → Prop} {s : Kernel}

/-- Code on physical memory leaves the rest of the kernel alone. -/
@[simp]
theorem wp_liftP (m : P α) :
    wp (liftM m : K α) E Q s ↔ wp m E (fun r p => Q r (s.io p s.fs)) s.phys :=
  wp_zoom ..

/-- Code on the file system leaves the rest of the kernel alone. -/
@[simp]
theorem wp_liftF (m : F α) :
    wp (liftM m : K α) E Q s ↔ wp m E (fun r f => Q r (s.io s.phys f)) s.fs :=
  wp_zoom ..

end

end Xv6
