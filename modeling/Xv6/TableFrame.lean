import Xv6.IoFrame

/-!
# Code that leaves the process table alone

The virtual-memory code works in the middle of `fork` and `wait`, under the lock of a slot.  It does
not touch the table, whatever it does and however it stops.
-/

namespace Xv6

open Bytes Wp

/-! ### Rows -/

namespace Table

variable {T : Table} {j k : ℕ} {r r' : Row}

@[simp]
theorem set_rows_self : (T.set j r).rows j = r := Function.update_self ..

theorem set_rows_of_ne (h : k ≠ j) : (T.set j r).rows k = T.rows k := Function.update_of_ne h ..

@[simp]
theorem set_set : (T.set j r).set j r' = T.set j r' := by simp [set]

@[simp]
theorem set_nextpid : (T.set j r).nextpid = T.nextpid := rfl

@[simp]
theorem set_rows : T.set j (T.rows j) = T := by simp [set]

end Table

namespace Kernel

variable {s : Kernel} {i : ℕ} {p q : Proc}

@[simp]
theorem table_rows : s.table.rows i = (s.procs i).row := rfl

@[simp]
theorem table_io {phys : Phys} {fs : Fs} : (s.io phys fs).table = s.table := rfl

@[simp]
theorem table_setProc : (s.setProc i p).table = s.table.set i p.row := by
  ext1
  · funext j
    change (Function.update s.procs i p j).row =
      Function.update (fun j => (s.procs j).row) i p.row j
    by_cases h : j = i
    · subst h
      simp
    · simp [h]
  · rfl
  · rfl

theorem table_setProc_row (h : p.row = (s.procs i).row) : (s.setProc i p).table = s.table := by
  rw [table_setProc, h, ← table_rows, Table.set_rows]

@[simp]
theorem setProc_procs_self : (s.setProc i p).procs i = p := Function.update_self ..

@[simp]
theorem setProc_setProc : (s.setProc i p).setProc i q = s.setProc i q := by simp [setProc]

@[simp]
theorem setProc_procs : s.setProc i (s.procs i) = s := by simp [setProc]

end Kernel

/-! ### Locks and slots -/

section

variable {E : Stop → Prop} {s : Kernel} {i j : ℕ}

@[simp]
theorem wp_acquireProc {Q : Unit → Kernel → Prop} : wp (acquireProc j) E Q s ↔
    if (s.procs j).locked then E (.panic "acquire")
    else Q () (s.setProc j ((s.procs j).lock true)) := by
  unfold acquireProc panicIf
  simp only [wp_bind, wp_get, wp_ite, wp_throw, wp_pure, wp_set]

@[simp]
theorem wp_releaseProc {Q : Unit → Kernel → Prop} : wp (releaseProc j) E Q s ↔
    if (s.procs j).locked then Q () (s.setProc j ((s.procs j).lock false))
    else E (.panic "release") := by
  unfold releaseProc panicIf
  cases h : (s.procs j).locked <;>
    simp only [wp_bind, wp_get, wp_ite, wp_throw, wp_pure, wp_set, h] <;> simp

/-- What is known of the table after a change of the state. -/
theorem wp_modify_table {F : Kernel → Kernel} {T : Table} {Q : PUnit → Kernel → Prop}
    (hF : (F s).table = T) (hQ : ∀ t, t.table = T → Q ⟨⟩ t) : wp (modify F : K PUnit) E Q s :=
  hQ _ hF

@[simp]
theorem Proc.lock_lock (p : Proc) (a b : Bool) : (p.lock a).lock b = p.lock b := rfl

theorem Proc.lock_self {p : Proc} {b : Bool} (h : p.locked = b) : p.lock b = p := by
  rw [← h]
  rfl

theorem Kernel.setProc_lock (h : (s.procs j).locked = false) :
    s.setProc j ((s.procs j).lock false) = s := by
  rw [Proc.lock_self h, setProc_procs]

theorem Kernel.table_set_lock (h : (s.procs j).locked = false) :
    s.table.set j ((s.procs j).lock false).row = s.table := by
  rw [Proc.lock_self h, ← table_rows, Table.set_rows]

end

/-! ### Code that leaves the table alone -/

def SameTable (s t : Kernel) : Prop := t.table = s.table

instance : Std.Refl SameTable := ⟨fun _ => rfl⟩

instance : IsTrans Kernel SameTable := ⟨fun _ _ _ h h' => h'.trans h⟩

/-- Code that does not change the table, however it stops. -/
abbrev KeepsTable {α : Type} (m : K α) : Prop := Keeps (fun _ => True) SameTable m

theorem IoOnly.table {α : Type} {m : K α} (h : IoOnly m) : KeepsTable m := h.mono fun _ _ => by
  rintro ⟨p, f, rfl⟩
  rfl

theorem keepsTable_liftP {α : Type} (m : P α) : KeepsTable (liftM m : K α) := (ioOnly_liftP m).table

theorem keepsTable_liftF {α : Type} (m : F α) : KeepsTable (liftM m : K α) := (ioOnly_liftF m).table

theorem keepsTable_panicIf (c : Prop) [Decidable c] (msg : String) :
    KeepsTable (panicIf c msg : K Unit) := keeps_panicIf trivial

theorem keepsTable_vmafree (j : ℕ) : KeepsTable (vmafree j) :=
  .bind .get fun _ => .bind (keepsTable_liftF _) fun _ => .modify fun _ => rfl

theorem keepsTable_vmadup (j : ℕ) : KeepsTable (vmadup j) := by
  refine .bind .get fun s => ?_
  dsimp only
  split
  · exact .pure _
  · exact .bind (keepsTable_liftF _) fun _ => .bind (.modify fun _ => rfl) fun _ => .pure _

theorem keepsTable_dupFile (i np fd : ℕ) : KeepsTable (dupFile i np fd) := by
  refine .bind .get fun s => ?_
  split
  · exact .pure _
  refine .bind (.getBind fun t => ?_) fun _ => .modify fun t => ?_
  · rw [panicIf]
    split_ifs <;> trivial
  · exact Kernel.table_setProc_row rfl

theorem keepsTable_forkCopy (i np : ℕ) : KeepsTable (forkCopy i np) := by
  refine .bind .get fun s => .bind (keepsTable_liftP _) fun _ => .bind (keepsTable_liftP _) fun _ =>
    .bind (keepsTable_liftP _) fun _ => .bind (.loop (keepsTable_dupFile i np) _ _) fun _ =>
      .bind .get fun t => ?_
  dsimp only
  split
  · exact .bind (.throw trivial) fun _ => .getBind fun u => Kernel.table_setProc_row rfl
  · exact .bind (keepsTable_liftF _) fun _ => .getBind fun u => Kernel.table_setProc_row rfl

theorem keepsTable_vmaalloc (u : UvmPtr) : KeepsTable (vmaalloc u) := by
  refine .getBind fun s => ?_
  cases freeSlot s u with
  | none => rfl
  | some i =>
    cases freeVma s with
    | none => rfl
    | some j => rfl

theorem keepsTable_code2uvm (u : UvmPtr) (src : List Byte) : KeepsTable (code2uvm u src) := by
  refine .bind (keepsTable_panicIf _ _) fun _ => .bind (keepsTable_vmaalloc u) fun r => ?_
  cases r with
  | none => exact .throw trivial
  | some j =>
    refine .bind (.bind (keepsTable_liftF _) fun _ => .modify fun _ => rfl) fun _ => ?_
    exact .bind (keepsTable_liftP _) fun _ => .bind (keepsTable_liftP _) fun _ =>
      .bind .get fun s =>
      .bind (keepsTable_liftP _) fun _ => keepsTable_liftP _

variable [Layout]

theorem keepsTable_uvmNew (u : UvmPtr) (trapframe : U64) : KeepsTable (uvmNew u trapframe) := by
  unfold uvmNew
  refine .bind (.modify fun _ => rfl) fun _ => .bind (keepsTable_liftP _) fun _ => .ite (.pure _) ?_
  refine .bind (.modify fun _ => rfl) fun _ => .bind (keepsTable_liftP _) fun _ => .ite ?_ ?_
  · exact .bind (keepsTable_liftP _) fun _ => .bind (.modify fun _ => rfl) fun _ => .pure _
  refine .bind (keepsTable_liftP _) fun _ => .bind (keepsTable_liftP _) fun _ => .ite ?_ ?_
  · exact .bind (keepsTable_liftP _) fun _ => .bind (keepsTable_liftP _) fun _ =>
      .bind (.modify fun _ => rfl) fun _ => .pure _
  · exact .bind (keepsTable_liftP _) fun _ => .pure _

theorem keepsTable_unmapVma (u : UvmPtr) (pagetable : U64) (j : ℕ) (vma : Vma)
    (addr length : U64) : KeepsTable (unmapVma u pagetable j vma addr length) := by
  refine .ite ?_ (.ite ?_ ?_)
  · exact .bind (keepsTable_liftP _) fun _ => .bind (.modify fun _ => rfl) fun _ =>
      keepsTable_vmafree j
  all_goals exact .bind (keepsTable_liftP _) fun _ => .modify fun _ => rfl

theorem keepsTable_uvmUnmap (u : UvmPtr) (addr length : U64) :
    KeepsTable (uvmUnmap u addr length) := by
  refine .bind .get fun s => ?_
  dsimp only
  split
  · exact .throw trivial
  · exact .bind (keepsTable_panicIf _ _) fun _ => .ite
      (.bind (ioOnly_writeBack ..).table fun _ => keepsTable_unmapVma ..) (keepsTable_unmapVma ..)

theorem keepsTable_uvmDupSlot (p c : UvmPtr) (i : ℕ) : KeepsTable (uvmDupSlot p c i) := by
  refine .bind .get fun s => ?_
  split
  · exact .pure _
  refine .bind (keepsTable_vmadup _) fun k => .bind (.modify fun _ => rfl) fun _ => ?_
  split
  · exact .pure _
  refine .bind .get fun s => .bind (keepsTable_liftP _) fun ok => .ite ?_ ?_
  · exact .ite (.bind (.modify fun _ => rfl) fun _ => .pure _) (.pure _)
  · exact .bind (keepsTable_vmafree _) fun _ => .bind (.modify fun _ => rfl) fun _ => .pure _

theorem keepsTable_uvmDup (p c : UvmPtr) : KeepsTable (uvmDup p c) := by
  refine .bind (.loopWhile (keepsTable_uvmDupSlot p c) _ _) fun r => ?_
  split
  · exact .pure _
  refine .bind (.loop (fun i => .bind .get fun s => ?_) _ _) fun _ => .pure _
  split
  · exact .pure _
  · exact keepsTable_uvmUnmap ..

end Xv6
