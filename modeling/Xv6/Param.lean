import Xv6.Lib.Wp

/-!
# The constants of the kernel, and how its code stops

`kernel/param.h` and the sizes of `kernel/fs.h`.

Kernel code runs as a program that may stop without returning: at a panic, at a fault (a null
pointer, or an access outside the RAM the kernel maps), at a point where the thread would sleep for
something only another thread can do, or in a loop that does not end.
-/

namespace Xv6

open Wp

/-- Maximum number of processes. -/
def NPROC : ℕ := 64

/-- Open files per process. -/
def NOFILE : ℕ := 16

/-- Maximum number of active inodes. -/
def NINODE : ℕ := 50

/-- Maximum number of `exec` arguments. -/
def MAXARG : ℕ := 32

/-- Maximum number of blocks any file-system operation writes. -/
def MAXOPBLOCKS : ℕ := 10

/-- Maximum number of data blocks in the on-disk log. -/
def LOGSIZE : ℕ := MAXOPBLOCKS * 3

/-- Maximum number of vmas of a process. -/
def VMA_SIZE : ℕ := 50

/-- Maximum number of vmas. -/
def MAX_VMAS : ℕ := NPROC * 30

/-- Size of a disk block in bytes. -/
def BSIZE : ℕ := 1024

/-- How kernel code stops without returning. -/
inductive Stop
  | panic (msg : String)
  | fault
  | sleep
  | diverge
  deriving DecidableEq

/-- `if(c) panic(msg)`. -/
def panicIf {σ : Type} (c : Prop) [Decidable c] (msg : String) : Prog σ Stop Unit :=
  if c then throw (.panic msg) else pure ()

@[simp]
theorem wp_panicIf {σ : Type} {c : Prop} [Decidable c] {msg : String} {E : Stop → Prop}
    {Q : Unit → σ → Prop} {s : σ} :
    wp (panicIf c msg) E Q s ↔ if c then E (.panic msg) else Q () s := by
  rw [panicIf, wp_ite, wp_throw, wp_pure]

theorem keeps_panicIf {σ : Type} {c : Prop} [Decidable c] {msg : String} {E : Stop → Prop}
    {R : σ → σ → Prop} [Std.Refl R] (h : E (.panic msg)) : Keeps E R (panicIf c msg) :=
  .ite (.throw h) (.pure ())

end Xv6
