import Xv6.LogCrash
import Xv6.Lib.Run
import Mathlib.Algebra.Order.BigOperators.Group.Finset

/-!
# Admission to the log

`begin_op` lets an operation in when the log would have room for `MAXOPBLOCKS` more blocks of it
and of every operation that is in already; `log_write` panics when the log is full.  The machine of
this file runs any number of operations at once, in any order of their `begin_op`, `log_write` and
`end_op`; `end_op` is split where it gives up the lock of the log to commit.

`log_write` stops one block early: a log of `nlog = LOGSIZE` blocks has a header and `LOGSIZE - 1`
data blocks, while `begin_op` gives out `LOGSIZE` of them.  Three operations that all use their
full budget overflow it (`log_overflows`); operations that stay below the budget never do
(`log_never_overflows`).
-/

namespace Xv6

open Run

/-! ### `end_op` in two parts -/

/-- The part of `end_op` under the lock; the last operation sets `committing`. -/
def endOpLocked (s : LogState) : Option LogState :=
  let s := { s with log := { s.log with outstanding := s.log.outstanding - 1 } }
  if s.log.committing then none
  else if s.log.outstanding = 0 then some { s with log := { s.log with committing := true } }
  else some s

/-- The rest of `end_op` for the thread that commits. -/
def endOpCommit (s : LogState) : LogState :=
  let s := commit s
  { s with log := { s.log with committing := false } }

/-! ### The machine -/

/-- The log and the operations that are open, with the blocks each of them has logged. -/
structure Ops where
  log : LogState
  active : Finset ℕ
  blocks : ℕ → Finset ℕ

/-- What the threads do to the log. -/
inductive LogEvent
  | begin (i : ℕ)
  | write (i b : ℕ) (data : Block)
  | finish (i : ℕ)
  | commit

namespace Ops

/-- One event; `none` when it has to wait, panics, or is not a thread's next call. -/
def step : LogEvent → Ops → Option Ops
  | .begin i, s =>
    if i ∈ s.active then none
    else (beginOp s.log).map fun l =>
      ⟨l, insert i s.active, Function.update s.blocks i ∅⟩
  | .write i b data, s =>
    if i ∈ s.active then
      (logWrite s.log b data).map fun l =>
        ⟨l, s.active, Function.update s.blocks i (insert b (s.blocks i))⟩
    else none
  | .finish i, s =>
    if i ∈ s.active then (endOpLocked s.log).map fun l => ⟨l, s.active.erase i, s.blocks⟩
    else none
  | .commit, s =>
    if s.log.log.committing then some ⟨endOpCommit s.log, s.active, s.blocks⟩ else none

/-- A log that has just been initialised on the image of `mkfs`. -/
structure Fresh (s : Ops) : Prop where
  size : s.log.log.size = LOGSIZE
  lh : s.log.log.lh = []
  outstanding : s.log.log.outstanding = 0
  committing : s.log.log.committing = false
  active : s.active = ∅

/-- Every `log_write` leaves its operation with at most `n` distinct blocks. -/
def Budget (n : ℕ) (s : Ops) : LogEvent → Prop
  | .write i b _ => (insert b (s.blocks i)).card ≤ n
  | _ => True

instance (n : ℕ) (s : Ops) : DecidablePred (Budget n s) := fun e => by
  cases e <;> unfold Budget <;> infer_instance

/-- What operations with at most `MAXOPBLOCKS - 1` blocks keep: room for what the open ones may
still log. -/
structure Room (s : Ops) : Prop where
  size : s.log.log.size = LOGSIZE
  outstanding : s.log.log.outstanding = s.active.card
  committing : s.log.log.committing = true → s.active = ∅
  empty : s.active = ∅ → s.log.log.committing = false → s.log.log.lh = []
  logged : ∀ i ∈ s.active, ∀ b ∈ s.blocks i, b ∈ s.log.log.lh
  room : s.log.log.lh.length + ∑ i ∈ s.active, (MAXOPBLOCKS - 1 - (s.blocks i).card) + 2 ≤ LOGSIZE

theorem Fresh.room {s : Ops} (h : Fresh s) : Room s where
  size := h.size
  outstanding := by rw [h.outstanding, h.active]; rfl
  committing hc := by rw [h.committing] at hc; cases hc
  empty _ _ := h.lh
  logged i hi := by rw [h.active] at hi; exact absurd hi (Finset.notMem_empty i)
  room := by
    rw [h.lh, h.active, Finset.sum_empty]
    decide

/-- What an operation may still log. -/
abbrev left (s : Ops) (i : ℕ) : ℕ := MAXOPBLOCKS - 1 - (s.blocks i).card

/-- The sum changes in one place. -/
theorem sum_left_update {s : Ops} {i : ℕ} (hi : i ∈ s.active) (X : Finset ℕ) :
    ∑ j ∈ s.active, (MAXOPBLOCKS - 1 - (Function.update s.blocks i X j).card) + s.left i =
      ∑ j ∈ s.active, s.left j + (MAXOPBLOCKS - 1 - X.card) := by
  rw [← Finset.add_sum_erase _ _ hi, ← Finset.add_sum_erase s.active s.left hi,
    Function.update_self]
  have : ∑ j ∈ s.active.erase i, (MAXOPBLOCKS - 1 - (Function.update s.blocks i X j).card) =
      ∑ j ∈ s.active.erase i, s.left j := by
    refine Finset.sum_congr rfl fun j hj => ?_
    rw [Function.update_of_ne (Finset.ne_of_mem_erase hj)]
  omega

namespace Room

variable {s : Ops} {l : LogState} {i b : ℕ} {data : Block}

theorem begin (h : Room s) (hi : i ∉ s.active) (hb : beginOp s.log = some l) :
    Room ⟨l, insert i s.active, Function.update s.blocks i ∅⟩ := by
  unfold beginOp at hb
  split_ifs at hb with hc hfull
  cases hb
  have hc : s.log.log.committing = false := by simpa using hc
  have hout := h.outstanding
  have hcard : (insert i s.active).card = s.active.card + 1 := Finset.card_insert_of_notMem hi
  refine ⟨h.size, ?_, fun h' => ?_, fun h' => ?_, fun j hj b hb => ?_, ?_⟩
  · change s.log.log.outstanding + 1 = _
    rw [hcard, hout]
    push_cast
    rfl
  · change s.log.log.committing = true at h'
    rw [hc] at h'
    cases h'
  · exact absurd h' (Finset.insert_ne_empty i s.active)
  · change b ∈ Function.update s.blocks i ∅ j at hb
    by_cases hji : j = i
    · rw [hji] at hb
      simp at hb
    · rw [Function.update_of_ne hji] at hb
      exact h.logged j ((Finset.mem_insert.1 hj).resolve_left hji) b hb
  · change s.log.log.lh.length + ∑ j ∈ insert i s.active,
      (MAXOPBLOCKS - 1 - (Function.update s.blocks i ∅ j).card) + 2 ≤ LOGSIZE
    have hsum : ∑ j ∈ s.active, (MAXOPBLOCKS - 1 - (Function.update s.blocks i ∅ j).card) ≤
        s.active.card * (MAXOPBLOCKS - 1) :=
      Finset.sum_le_card_nsmul _ _ _ fun j _ => Nat.sub_le _ _
    rw [Finset.sum_insert hi, Function.update_self, Finset.card_empty]
    rw [hout] at hfull
    simp only [MAXOPBLOCKS, LOGSIZE] at hfull hsum ⊢
    rcases Finset.eq_empty_or_nonempty s.active with he | he
    · -- the first operation finds an empty log
      rw [h.empty he hc, he]
      simp
    · -- the others have reserved a block more than they use
      have hpos := he.card_pos
      push_cast at hfull
      omega

theorem write (h : Room s) (hi : i ∈ s.active) (hw : logWrite s.log b data = some l)
    (hbud : (insert b (s.blocks i)).card ≤ MAXOPBLOCKS - 1) :
    Room ⟨l, s.active, Function.update s.blocks i (insert b (s.blocks i))⟩ := by
  have hsum := sum_left_update hi (insert b (s.blocks i))
  have hroom := h.room
  unfold logWrite at hw
  simp only at hw
  split_ifs at hw with hfull hout hmem
  · cases hw
    refine ⟨h.size, h.outstanding, h.committing, h.empty, fun j hj c hc => ?_, ?_⟩
    · change c ∈ Function.update s.blocks i _ j at hc
      by_cases hji : j = i
      · rw [hji, Function.update_self] at hc
        rcases Finset.mem_insert.1 hc with rfl | hc
        · exact hmem
        · exact h.logged i hi c hc
      · rw [Function.update_of_ne hji] at hc
        exact h.logged j hj c hc
    · have hle : (s.blocks i).card ≤ (insert b (s.blocks i)).card :=
        Finset.card_le_card (Finset.subset_insert _ _)
      change s.log.log.lh.length + ∑ j ∈ s.active,
        (MAXOPBLOCKS - 1 - (Function.update s.blocks i (insert b (s.blocks i)) j).card) + 2 ≤
          LOGSIZE
      simp only [left] at hsum
      omega
  · cases hw
    have hnew : b ∉ s.blocks i := fun hb => hmem (h.logged i hi b hb)
    have hcard := Finset.card_insert_of_notMem hnew
    refine ⟨h.size, h.outstanding, h.committing, fun he => ?_, fun j hj c hc => ?_, ?_⟩
    · change s.active = ∅ at he
      rw [he] at hi
      exact absurd hi (Finset.notMem_empty i)
    · change c ∈ s.log.log.lh ++ [b]
      change c ∈ Function.update s.blocks i _ j at hc
      by_cases hji : j = i
      · rw [hji, Function.update_self] at hc
        rcases Finset.mem_insert.1 hc with rfl | hc
        · exact List.mem_append_right _ (List.mem_singleton_self c)
        · exact List.mem_append_left _ (h.logged i hi c hc)
      · rw [Function.update_of_ne hji] at hc
        exact List.mem_append_left _ (h.logged j hj c hc)
    · change (s.log.log.lh ++ [b]).length + ∑ j ∈ s.active,
        (MAXOPBLOCKS - 1 - (Function.update s.blocks i (insert b (s.blocks i)) j).card) + 2 ≤
          LOGSIZE
      rw [List.length_append, List.length_singleton]
      simp only [left] at hsum hroom
      omega

theorem finish (h : Room s) (hi : i ∈ s.active) (hf : endOpLocked s.log = some l) :
    Room ⟨l, s.active.erase i, s.blocks⟩ := by
  have hout := h.outstanding
  have hcard := Finset.card_erase_add_one hi
  have hroom : s.log.log.lh.length + ∑ j ∈ s.active.erase i, s.left j + 2 ≤ LOGSIZE := by
    have := h.room
    rw [← Finset.add_sum_erase _ _ hi] at this
    simp only [left] at this ⊢
    omega
  have hlogged : ∀ j ∈ s.active.erase i, ∀ b ∈ s.blocks j, b ∈ s.log.log.lh :=
    fun j hj => h.logged j (Finset.mem_of_mem_erase hj)
  unfold endOpLocked at hf
  simp only at hf
  split_ifs at hf with hc ho
  · cases hf
    refine ⟨h.size, ?_, fun _ => ?_, fun _ h' => (nomatch h'), hlogged, hroom⟩
    · change s.log.log.outstanding - 1 = ((s.active.erase i).card : ℤ)
      omega
    · exact Finset.card_eq_zero.1 (show (s.active.erase i).card = 0 by omega)
  · cases hf
    refine ⟨h.size, ?_, fun h' => absurd h' hc, fun h' => ?_, hlogged, hroom⟩
    · change s.log.log.outstanding - 1 = ((s.active.erase i).card : ℤ)
      omega
    · change s.active.erase i = ∅ at h'
      rw [h', Finset.card_empty] at hcard
      omega

theorem commit (h : Room s) (hc : s.log.log.committing = true) :
    Room ⟨endOpCommit s.log, s.active, s.blocks⟩ := by
  have he := h.committing hc
  have hlog : (endOpCommit s.log).log = { s.log.log with lh := [], committing := false } := by
    simp only [endOpCommit, commit_log]
  refine ⟨?_, ?_, fun h' => ?_, fun _ _ => ?_, fun j hj => ?_, ?_⟩
  · rw [hlog]
    exact h.size
  · rw [hlog]
    exact h.outstanding
  · rw [hlog] at h'
    cases h'
  · rw [hlog]
  · change j ∈ s.active at hj
    rw [he] at hj
    exact absurd hj (Finset.notMem_empty j)
  · change (endOpCommit s.log).log.lh.length + ∑ j ∈ s.active, _ + 2 ≤ LOGSIZE
    rw [hlog, he, Finset.sum_empty]
    change 0 + 0 + 2 ≤ LOGSIZE
    decide

/-- One event keeps the room. -/
theorem step {e : LogEvent} {t : Ops} (h : Room s) (hok : Budget (MAXOPBLOCKS - 1) s e)
    (hs : Ops.step e s = some t) : Room t := by
  cases e with
  | begin i =>
    simp only [Ops.step] at hs
    split_ifs at hs with hi
    obtain ⟨l, hl, rfl⟩ := Option.map_eq_some_iff.1 hs
    exact h.begin hi hl
  | write i b data =>
    simp only [Ops.step] at hs
    split_ifs at hs with hi
    obtain ⟨l, hl, rfl⟩ := Option.map_eq_some_iff.1 hs
    exact h.write hi hl hok
  | finish i =>
    simp only [Ops.step] at hs
    split_ifs at hs with hi
    obtain ⟨l, hl, rfl⟩ := Option.map_eq_some_iff.1 hs
    exact h.finish hi hl
  | commit =>
    simp only [Ops.step] at hs
    split_ifs at hs with hc
    cases hs
    exact h.commit hc

/-- An open operation finds room for a block. -/
theorem logWrite_isSome (h : Room s) (hi : i ∈ s.active) (b : ℕ) (data : Block) :
    (logWrite s.log b data).isSome := by
  have hroom := h.room
  have hsize := h.size
  have hout := h.outstanding
  have hpos : 0 < s.active.card := Finset.card_pos.2 ⟨i, hi⟩
  unfold logWrite
  simp only
  rw [if_neg (by omega), if_neg (by omega)]
  split_ifs <;> rfl

end Room

/-- **The log never overflows** when every operation logs less than its budget: in every run in
which each `log_write` leaves its operation with at most `MAXOPBLOCKS - 1` distinct blocks, a
`log_write` of any open operation succeeds. -/
theorem log_never_overflows {s₀ s : Ops} (h0 : Fresh s₀)
    (h : Reach step (Budget (MAXOPBLOCKS - 1)) s₀ s) :
    ∀ i ∈ s.active, ∀ b data, (logWrite s.log b data).isSome :=
  fun _ hi b data => (h.invariant h0.room fun _ _ _ => Room.step).logWrite_isSome hi b data

/-- A log that has just been initialised, with empty blocks. -/
def fresh : Ops :=
  ⟨⟨fun _ _ => 0, fun _ _ => 0, fun _ => 0, [], ⟨2, LOGSIZE, 0, false, []⟩⟩, ∅, fun _ => ∅⟩

theorem fresh_fresh : Fresh fresh := ⟨rfl, rfl, rfl, rfl, rfl⟩

/-- Operation `i` logs the `n` blocks from `b` on. -/
def writes (i b n : ℕ) : List LogEvent := (List.range n).map fun k => .write i (b + k) fun _ => 0

/-- Three operations of nine blocks each run side by side, and the log still has room. -/
theorem log_never_overflows_three :
    ∃ s, Reach step (Budget (MAXOPBLOCKS - 1)) fresh s ∧ s.log.log.lh.length = 27 ∧
      (∀ i ∈ s.active, ∀ b data, (logWrite s.log b data).isSome) ∧ 2 ∈ s.active := by
  obtain ⟨s, hs, hlen, hact⟩ : ∃ s, runsOk step (Budget (MAXOPBLOCKS - 1))
      ([.begin 0, .begin 1, .begin 2] ++ writes 0 0 9 ++ writes 1 9 9 ++ writes 2 18 9) fresh =
        some s ∧ s.log.log.lh.length = 27 ∧ 2 ∈ s.active := ⟨_, rfl, by decide, by decide⟩
  have h := reach_of_runsOk hs
  exact ⟨s, h, hlen, log_never_overflows fresh_fresh h, hact⟩

/-- **The log overflows**: three operations are let in, two log `MAXOPBLOCKS` blocks and the third
one less, all within their budget; the next `log_write` of the third panics. -/
theorem log_overflows :
    ∃ s, Reach step (Budget MAXOPBLOCKS) fresh s ∧ 2 ∈ s.active ∧
      (insert 29 (s.blocks 2)).card ≤ MAXOPBLOCKS ∧
      logWrite s.log 29 (fun _ => 0) = none := by
  obtain ⟨s, hs, hact, hcard, hnone⟩ : ∃ s, runsOk step (Budget MAXOPBLOCKS)
      ([.begin 0, .begin 1, .begin 2] ++ writes 0 0 10 ++ writes 1 10 10 ++ writes 2 20 9) fresh =
        some s ∧ 2 ∈ s.active ∧ (insert 29 (s.blocks 2)).card ≤ MAXOPBLOCKS ∧
        logWrite s.log 29 (fun _ => 0) = none := ⟨_, rfl, by decide, by decide, rfl⟩
  exact ⟨s, reach_of_runsOk hs, hact, hcard, hnone⟩

end Ops

end Xv6
