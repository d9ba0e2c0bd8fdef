import Xv6.FsStop
import Xv6.Uvm

/-!
# How memory code stops

Code on physical memory stops at an address outside RAM or in a check of `kernel/kalloc.c`; a walk
stops in a panic of its own if and only if its address is not below `MAXVA`.
-/

namespace Xv6

open Bytes Wp

/-- The ways in which the allocator and accesses to memory stop. -/
def PhysStop : Stop → Prop
  | .panic msg => msg ∈ ["kincref", "kfree", "kfree: refs below 0\n", "ksingleref"]
  | .fault => True
  | .sleep => False
  | .diverge => False

/-- Code that stops only in these ways. -/
abbrev PhysOnly {α : Type} (m : P α) : Prop := Keeps PhysStop (fun _ _ => True) m

theorem physOnly_frame (a : U64) : PhysOnly (frame a) := .ite (.pure _) (.throw trivial)

theorem physOnly_setPage (f : ℕ) (data : ℕ → Byte) : PhysOnly (setPage f data) :=
  .modify fun _ => trivial

theorem physOnly_memset (pa : U64) (c : Byte) : PhysOnly (memset pa c) :=
  .bind (physOnly_frame pa) fun _ => physOnly_setPage _ _

theorem physOnly_memmove (dst src : U64) : PhysOnly (memmove dst src) :=
  .bind (physOnly_frame dst) fun _ => .bind (physOnly_frame src) fun _ => .bind .get fun _ =>
    physOnly_setPage _ _

theorem physOnly_writeBytes (a : U64) (bs : List Byte) : PhysOnly (writeBytes a bs) :=
  .bind (physOnly_frame a) fun _ => .bind .get fun _ => physOnly_setPage _ _

theorem physOnly_readBytes (a : U64) (n : ℕ) : PhysOnly (readBytes a n) :=
  .bind (physOnly_frame a) fun _ => .bind .get fun _ => .pure _

theorem physOnly_loadPte (a : U64) : PhysOnly (loadPte a) :=
  .bind (physOnly_frame a) fun _ => .bind .get fun _ => .pure _

theorem physOnly_storePte (a v : U64) : PhysOnly (storePte a v) :=
  .bind (physOnly_frame a) fun _ => .bind .get fun _ => physOnly_setPage _ _

theorem physOnly_kalloc : PhysOnly kalloc := by
  refine .bind .get fun s => ?_
  split
  · exact .pure _
  · exact .bind (.set fun _ => trivial) fun _ => .bind (physOnly_memset _ _) fun _ => .pure _

theorem physOnly_freshPage (vma : Vma) (a : U64) : PhysOnly (freshPage vma a) :=
  .bind physOnly_kalloc fun _ => .ite (.pure _) (.bind (physOnly_storePte _ _) fun _ =>
    .bind (physOnly_memset _ _) fun _ => .pure _)

theorem physOnly_pgtWalkFrom (va : U64) (alloc : Bool) (level : ℕ) (pagetable : U64) :
    PhysOnly (pgtWalkFrom va alloc level pagetable) := by
  induction level generalizing pagetable with
  | zero => exact .pure _
  | succ level ih =>
    refine .bind (physOnly_loadPte _) fun _ => .ite (ih _) (.ite (.pure _) ?_)
    exact .bind physOnly_kalloc fun _ => .ite (.pure _) (.bind (physOnly_memset _ _) fun _ =>
      .bind (physOnly_storePte _ _) fun _ => ih _)

/-- A walk below `MAXVA` does not panic. -/
theorem physOnly_pgtWalk {pagetable va : U64} {alloc : Bool} (h : va < MAXVA) :
    PhysOnly (pgtWalk pagetable va alloc) := by
  refine .bind ?_ fun _ => physOnly_pgtWalkFrom _ _ _ _
  rw [panicIf, if_neg (BitVec.not_le.2 h)]
  exact .pure _

/-- A walk from `MAXVA` on panics. -/
theorem pgtWalk_panics {pagetable va : U64} {alloc : Bool} (h : MAXVA ≤ va) (s : Phys) :
    pgtWalk pagetable va alloc s = .error (.panic "walk") := by
  rw [pgtWalk, panicIf, if_pos h]
  rfl

theorem physOnly_pgtGetpa (pagetable va : U64) : PhysOnly (pgtGetpa pagetable va) := by
  unfold pgtGetpa
  by_cases h : MAXVA ≤ va
  · rw [if_pos h]
    exact .pure _
  · rw [if_neg h]
    refine .bind (physOnly_pgtWalk (BitVec.not_le.1 h)) fun r => ?_
    split
    · exact .pure _
    · exact .bind (physOnly_loadPte _) fun _ => .ite (.pure _) (.pure _)

section

variable [Layout]

theorem physOnly_kfree (pa : U64) : PhysOnly (kfree pa) :=
  .bind (keeps_panicIf (by simp [PhysStop])) fun _ => .bind (.modify fun _ => trivial) fun _ =>
    .bind .get fun _ => .bind (keeps_panicIf (by simp [PhysStop])) fun _ =>
      .ite (.bind (physOnly_memset _ _) fun _ => .modify fun _ => trivial) (.pure _)

theorem physOnly_ksingleref (pa : U64) : PhysOnly (ksingleref pa) :=
  .bind (keeps_panicIf (by simp [PhysStop])) fun _ => .bind .get fun _ => .pure _

theorem physOnly_completeWrite (a pte : U64) : PhysOnly (completeWrite a pte) := by
  refine .bind (physOnly_ksingleref _) fun _ => .ite ?_ ?_
  · exact .bind (physOnly_storePte _ _) fun _ => .pure _
  · exact .bind physOnly_kalloc fun _ => .ite (.pure _) (.bind (physOnly_memmove _ _) fun _ =>
      .bind (physOnly_storePte _ _) fun _ => .bind (physOnly_kfree _) fun _ => .pure _)

end

end Xv6
