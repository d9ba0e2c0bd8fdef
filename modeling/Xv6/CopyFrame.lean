import Xv6.PhysStop

/-!
# Copies to and from user memory

Copies work on memory, and a page fault on the way may read a page of a file.  A relation that both
of them keep is kept by every copy.  No copy walks from `MAXVA` on: `uvm_completemap` and
`pgt_getpa` check their address, and `copyout` checks the end of its range.
-/

namespace Xv6

open Bytes Wp

section

variable {C : ∀ {α : Type}, K α → Prop} {u : UvmPtr}

/-- A copy from user memory gets a page and reads it, again and again. -/
theorem Composed.copyin [Layout] (hC : Composed C) (hpage : ∀ va0, C (copyinPage u va0))
    (hread : ∀ x n, C (liftM (readBytes x n) : K (List Byte))) (srcva len : U64) :
    C (copyin u srcva len) := by
  suffices h : ∀ fuel done srcva len, C (copyinFrom u fuel done srcva len) from h _ _ _ _
  intro fuel
  induction fuel with
  | zero => exact fun _ _ _ => hC.pure _
  | succ fuel ih =>
    exact fun done srcva len => hC.ite (hC.pure _) (hC.bind (hpage _) fun _ =>
      hC.ite (hC.pure _) (hC.bind (hread _ _) fun _ => ih _ _ _))

theorem Composed.copyinstr [Layout] (hC : Composed C) (hpage : ∀ va0, C (copyinPage u va0))
    (hread : ∀ x n, C (liftM (readBytes x n) : K (List Byte))) (srcva max : U64) :
    C (copyinstr u srcva max) := by
  suffices h : ∀ fuel done srcva max, C (copyinstrFrom u fuel done srcva max) from h _ _ _ _
  intro fuel
  induction fuel with
  | zero => exact fun _ _ _ => hC.pure _
  | succ fuel ih =>
    exact fun done srcva max => hC.ite (hC.pure _) (hC.bind (hpage _) fun _ =>
      hC.ite (hC.pure _) (hC.bind (hread _ _) fun _ => hC.ite (hC.pure _) (ih _ _ _)))

end

/-- A relation that memory code and the reading of a page keep, for code that stops in `E`. -/
structure CopyFrame (E : Stop → Prop) (R : Kernel → Kernel → Prop) : Prop where
  phys : ∀ {α : Type} {m : P α}, PhysOnly m → Keeps E R (liftM m : K α)
  read : ∀ (vma : Vma) (va : U64), Keeps E R (liftM (readPage vma va) : K (List Byte))
  stop : E (.panic "invalid pagefault\n")

namespace CopyFrame

variable {E : Stop → Prop} {R : Kernel → Kernel → Prop}

variable [Std.Refl R] [IsTrans Kernel R]

theorem completeFresh (h : CopyFrame E R) (vma : Vma) (va a : U64) :
    Keeps E R (completeFresh vma va a) :=
  .bind (h.phys (physOnly_freshPage _ _)) fun _ => .ite (.pure _)
    (.bind (h.read _ _) fun _ => .bind (h.phys (physOnly_writeBytes _ _)) fun _ => .pure _)

variable [Layout]

theorem completeEntry (h : CopyFrame E R) (vma : Vma) (va perm a : U64) :
    Keeps E R (completeEntry vma va perm a) :=
  .bind (h.phys (physOnly_loadPte _)) fun _ => .ite (h.completeFresh _ _ _)
    (.ite (.pure _) (.ite (h.phys (physOnly_completeWrite _ _)) (.throw h.stop)))

theorem uvmCompletemap (h : CopyFrame E R) (u : UvmPtr) (va perm : U64) :
    Keeps E R (uvmCompletemap u va perm) := by
  unfold Xv6.uvmCompletemap
  by_cases hbad : va % PGSIZE ≠ 0 ∨ MAXVA ≤ va
  · rw [if_pos hbad]
    exact .pure _
  rw [if_neg hbad]
  have hva : va < MAXVA := BitVec.not_le.1 fun hle => hbad (Or.inr hle)
  refine .bind .get fun s => ?_
  dsimp only
  split
  · exact .pure _
  refine .ite (.pure _) (.bind (h.phys (physOnly_pgtWalk hva)) fun r => ?_)
  split
  · exact .pure _
  · exact h.completeEntry _ _ _ _

theorem copyoutPage (h : CopyFrame E R) (u : UvmPtr) {va0 : U64} (hva : va0 < MAXVA) :
    Keeps E R (copyoutPage u va0) := by
  refine .bind .get fun s => .bind (h.phys (physOnly_pgtWalk hva)) fun r => ?_
  split
  · exact h.uvmCompletemap _ _ _
  · exact .bind (h.phys (physOnly_loadPte _)) fun _ => .ite (h.uvmCompletemap _ _ _) (.pure _)

theorem copyoutFrom (h : CopyFrame E R) (u : UvmPtr) (src : ℕ → Byte) (fuel : ℕ)
    {dstva : U64} (k : ℕ) {len : U64} (hin : len = 0 ∨ dstva.toNat + len.toNat ≤ MAXVA.toNat) :
    Keeps E R (copyoutFrom u src fuel dstva k len) := by
  induction fuel generalizing dstva k len with
  | zero => exact .pure _
  | succ fuel ih =>
    unfold Xv6.copyoutFrom
    by_cases hlen : len = 0
    · rw [if_pos hlen]
      exact .pure _
    rw [if_neg hlen]
    have hsum := hin.resolve_left hlen
    refine .bind (h.copyoutPage u ?_) fun _ => .ite (.pure _)
      (.bind (h.phys (physOnly_writeBytes _ _)) fun _ => ih _ ?_)
    · rw [BitVec.lt_def, toNat_pgRoundDown]
      have : 0 < len.toNat := Nat.pos_of_ne_zero fun h0 => hlen (BitVec.eq_of_toNat_eq h0)
      omega
    · by_cases hn : umin (PGSIZE - (dstva - pgRoundDown dstva)) len = len
      · exact Or.inl (by rw [hn, BitVec.sub_self]; rfl)
      · refine Or.inr ?_
        have hdown := toNat_pgRoundDown dstva
        have hmax : MAXVA.toNat = 2 ^ 38 := by decide
        have hpg : PGSIZE.toNat = 4096 := by decide
        unfold umin at hn ⊢
        split_ifs at hn ⊢ with hc
        · exact absurd rfl hn
        · rw [BitVec.not_lt, BitVec.le_def] at hc
          have hoff : (dstva - pgRoundDown dstva).toNat = dstva.toNat % 4096 := by
            rw [BitVec.toNat_sub, hdown]
            omega
          have hrest : (PGSIZE - (dstva - pgRoundDown dstva)).toNat =
              4096 - dstva.toNat % 4096 := by
            rw [BitVec.toNat_sub, hoff, hpg]
            omega
          rw [BitVec.toNat_add, BitVec.toNat_sub, hrest, hdown, hpg]
          rw [hrest] at hc
          have := len.isLt
          omega

theorem copyout (h : CopyFrame E R) (u : UvmPtr) (dstva : U64) (src : ℕ → Byte) (len : U64) :
    Keeps E R (copyout u dstva src len) := by
  unfold Xv6.copyout
  split_ifs with hbad
  · exact .pure _
  · refine h.copyoutFrom u src _ 0 (Or.inr ?_)
    rw [not_or, BitVec.not_lt, BitVec.not_lt, BitVec.le_def, BitVec.le_def,
      BitVec.toNat_add] at hbad
    omega

theorem copyinPage (h : CopyFrame E R) (u : UvmPtr) (va0 : U64) : Keeps E R (copyinPage u va0) :=
  .bind .get fun _ => .bind (h.phys (physOnly_pgtGetpa _ _)) fun _ =>
    .ite (h.uvmCompletemap _ _ _) (.pure _)

theorem copyin (h : CopyFrame E R) (u : UvmPtr) (srcva len : U64) :
    Keeps E R (copyin u srcva len) :=
  Composed.copyin Keeps.composed (h.copyinPage u) (fun _ _ => h.phys (physOnly_readBytes _ _)) _ _

theorem copyinstr (h : CopyFrame E R) (u : UvmPtr) (srcva max : U64) :
    Keeps E R (copyinstr u srcva max) :=
  Composed.copyinstr Keeps.composed (h.copyinPage u)
    (fun _ _ => h.phys (physOnly_readBytes _ _)) _ _

end CopyFrame

end Xv6
