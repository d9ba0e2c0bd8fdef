import Xv6.CopyFrame
import Xv6.Sched

/-!
# Code that leaves the tables of the kernel alone

A page fault, a copy to user memory and the write-back of a mapping change memory and the file
system; what they read from the tables stays as it is.
-/

namespace Xv6

open Bytes Wp

/-- Only memory and the file system may differ. -/
def Io (s t : Kernel) : Prop := ∃ p f, t = s.io p f

instance : Std.Refl Io := ⟨fun s => ⟨s.phys, s.fs, rfl⟩⟩

instance : IsTrans Kernel Io := ⟨by
  rintro s _ _ ⟨p, f, rfl⟩ ⟨p', f', rfl⟩
  exact ⟨p', f', rfl⟩⟩

/-- Code that only changes memory and the file system, however it stops. -/
abbrev IoOnly {α : Type} (m : K α) : Prop := Keeps (fun _ => True) Io m

theorem ioOnly_liftP {α : Type} (m : P α) : IoOnly (liftM m : K α) := ⟨fun s => by
  rw [wp_liftP]
  exact (wp_true m _).mono fun _ p _ => ⟨p, s.fs, rfl⟩⟩

theorem ioOnly_liftF {α : Type} (m : F α) : IoOnly (liftM m : K α) := ⟨fun s => by
  rw [wp_liftF]
  exact (wp_true m _).mono fun _ f _ => ⟨s.phys, f, rfl⟩⟩

theorem ioOnly_panicIf (c : Prop) [Decidable c] (msg : String) :
    IoOnly (panicIf c msg : K Unit) := keeps_panicIf trivial

theorem ioOnly_copies : CopyFrame (fun _ => True) Io :=
  ⟨fun _ => ioOnly_liftP _, fun _ _ => ioOnly_liftF _, trivial⟩

theorem ioOnly_writeBackPage (pagetable : U64) (vma : Vma) (ip : ℕ) (addr length va : U64) :
    IoOnly (writeBackPage pagetable vma ip addr length va) := by
  refine .bind (ioOnly_liftP _) fun _ => .ite (.pure _) (.ite (.pure _) ?_)
  exact .bind (ioOnly_liftP _) fun _ => .bind (ioOnly_liftF _) fun _ => ioOnly_panicIf _ _

theorem ioOnly_writeBack (pagetable : U64) (vma : Vma) (addr length : U64) :
    IoOnly (writeBack pagetable vma addr length) := by
  refine .bind (ioOnly_liftF _) fun _ => ?_
  split
  · exact .throw trivial
  · exact .bind (ioOnly_liftF _) fun _ =>
      .bind (.loop (fun _ => ioOnly_writeBackPage ..) _ _) fun _ =>
        .bind (ioOnly_liftF _) fun _ => ioOnly_liftF _

end Xv6
