import Xv6.Kernel

/-!
# The kernel as `main` finds it

The static data of the kernel before anything has been initialized, and the layout of a kernel image
as the linker script makes it: what a run on concrete values starts from.
-/

namespace Xv6

open Bytes

/-- A kernel image of 152 KiB with the trampoline at the end of its text. -/
@[reducible]
def imageLayout : Layout where
  kend := 0x80026000
  trampoline := 0x80007000
  base_le := by decide
  aligned := by decide
  text_lt := by decide
  kend_le := by decide

def Inode.zero : Inode := ⟨0, 0, 0, false, false, 0, 0, 0, 0, 0, fun _ => 0⟩

/-- A file system whose log and superblock have not been read. -/
def Fs.zero : Fs where
  log := ⟨fun _ _ => 0, fun _ _ => 0, fun _ => 0, [], ⟨0, 0, 0, false, []⟩⟩
  sb := ⟨0, 0, 0, 0⟩
  itable _ := Inode.zero

def Vma.zero : Vma := ⟨false, none, 0, 0, 0, 0, 0, 0⟩

def Proc.zero : Proc :=
  ⟨false, .unused, none, false, 0, 0, 0, 0, none, 0, fun _ => none, none, []⟩

/-- `.data` and `.bss`. -/
def Kernel.zero : Kernel where
  phys := ⟨fun _ _ => 0, [], fun _ => 0⟩
  fs := Fs.zero
  vmas _ := Vma.zero
  uvms _ := Uvm.zero
  procs _ := Proc.zero
  files _ := ⟨.none, 0, false, false, none, none, 0, 0⟩
  pipes _ := ⟨fun _ => 0, 0, 0, false, false⟩
  cons := ⟨fun _ => 0, 0, 0⟩
  nextpid := 1
  initproc := none

/-- A process in slot 0 with an empty address space and a file of `size` bytes, open for reading and
writing as descriptor 0; the first block of the file is block 70. -/
def openKernel (size : U32) : Kernel where
  phys := ⟨fun _ _ => 0, [0x80031, 0x80032, 0x80033, 0x80034, 0x80035], fun _ => 0⟩
  fs := { Fs.zero with
    itable := fun _ => ⟨1, 2, 1, false, true, 2, 0, 0, 1, size, fun n => if n = 0 then 70 else 0⟩ }
  vmas := Kernel.zero.vmas
  uvms _ := { Uvm.zero with pagetable := 0x80030000 }
  procs _ := { Proc.zero with
    state := .running, pid := 1, ofile := fun fd => if fd = 0 then some 0 else none }
  files _ := ⟨.inode, 1, true, true, none, some 0, 0, 0⟩
  pipes := Kernel.zero.pipes
  cons := Kernel.zero.cons
  nextpid := 2
  initproc := some 0

/-- A file system with a root directory, whose only entry is `init`, and the file `init`: an ELF
file without segments. -/
def initFs : Fs where
  log := ⟨fun _ _ => 0, fun b k =>
    if b = 60 then ([2, 0, 105, 110, 105, 116] : List Byte).getD k 0
    else if b = 61 then ([0x7f, 0x45, 0x4c, 0x46] : List Byte).getD k 0
    else 0, fun _ => 0, [], ⟨2, 30, 0, false, []⟩⟩
  sb := ⟨1000, 200, 32, 45⟩
  itable n :=
    if n = 0 then ⟨1, 1, 1, false, true, T_DIR, 0, 0, 1, 16, fun k => if k = 0 then 60 else 0⟩
    else if n = 1 then ⟨1, 2, 1, false, true, 2, 0, 0, 1, 64, fun k => if k = 0 then 61 else 0⟩
    else Inode.zero

/-- The kernel before `userinit`: 16 pages are free, and the root directory is in memory. -/
def bootKernel : Kernel :=
  { Kernel.zero with
    phys := ⟨fun _ _ => 0, (List.range 16).map (· + 0x80030), fun _ => 0⟩
    fs := initFs }

/-- Why a run stops. -/
def stopOf {α σ : Type} : Except Stop (α × σ) → Option Stop
  | .ok _ => none
  | .error e => some e

theorem eq_error_of_stopOf {α σ : Type} {r : Except Stop (α × σ)} {e : Stop}
    (h : stopOf r = some e) : r = .error e := by
  cases r with
  | ok x => cases h
  | error e' => rw [Option.some.inj h]

theorem exists_ok_of_stopOf {α σ : Type} {r : Except Stop (α × σ)} (h : stopOf r = none) :
    ∃ a t, r = .ok (a, t) := by
  cases r with
  | ok x => exact ⟨x.1, x.2, rfl⟩
  | error e => cases h

/-- What a run returns. -/
def resultOf {α σ : Type} : Except Stop (α × σ) → Option α
  | .ok x => some x.1
  | .error _ => none

theorem exists_ok_of_resultOf {α σ : Type} {r : Except Stop (α × σ)} {a : α}
    (h : resultOf r = some a) : ∃ t, r = .ok (a, t) := by
  cases r with
  | ok x => exact ⟨x.2, by rw [← Option.some.inj h]⟩
  | error e => cases h

theorem exists_of_resultOf_bind {α β σ : Type} {m : Wp.Prog σ Stop α} {f : α → Wp.Prog σ Stop β}
    {s : σ} {b : β} (h : resultOf ((m >>= f) s) = some b) :
    ∃ a t, m s = .ok (a, t) ∧ resultOf (f a t) = some b := by
  cases hm : m s with
  | ok r =>
    rw [Wp.bind_of_ok hm] at h
    exact ⟨r.1, r.2, rfl, h⟩
  | error e =>
    rw [Wp.bind_of_error hm] at h
    cases h

end Xv6
