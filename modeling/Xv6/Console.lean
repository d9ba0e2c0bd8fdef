import Xv6.File
import Xv6.Lib.Ring
import Xv6.Lib.Run

/-!
# The line discipline of the console

The input side of `kernel/console.c`: `consoleintr`, called for one character after the other, and
any number of processes in `consoleread`.  The buffer has three indices: readers take bytes at `r`,
bytes before `w` are committed, and the line between `w` and `e` can still be edited.

A step is one call of `consoleintr` or one round of the loop of `consoleread`; the lock is held from
`acquire` over all rounds to the `release` or the `sleep`.  As in `PipeRun`, the `killed` flag that
a round has seen may be older than the flag.  Two histories are kept beside the code: the bytes that
were committed, and what readers got, a byte or the end of their call.

What is echoed, and the list that `^P` prints, are left out.
-/

namespace Xv6

open Bytes Run Ring Wp

/-- `cons`: what readers see, and the edit index. -/
structure Input extends Cons where
  e : U32

namespace Input

variable (s : Input)

/-- The committed bytes that no reader has taken. -/
def ready : List Byte := slice INPUT_BUF s.buf s.r (s.w - s.r).toNat

/-- The line that can still be edited. -/
def line : List Byte := slice INPUT_BUF s.buf s.w (s.e - s.w).toNat

/-- `cons.buf[cons.e++ % INPUT_BUF] = c`. -/
def store (c : Byte) : Input :=
  { s with
    buf := Function.update s.buf (s.e.toNat % INPUT_BUF) c
    e := s.e + 1 }

/-- `cons.e--`. -/
def erase : Input := { s with e := s.e - 1 }

/-- `cons.w = cons.e`. -/
def commit : Input := { s with w := s.e }

/-- The loop of `^U`. -/
def killLine : ℕ → Input → Input
  | 0, s => s
  | fuel + 1, s =>
    if s.e ≠ s.w ∧ s.buf ((s.e - 1).toNat % INPUT_BUF) ≠ 10 then killLine fuel s.erase else s

/-- A character that is no command is stored, and a line is committed at its end or where the buffer
is full. -/
def enter (c : U32) : Input × Bool :=
  let s := s.store (c.setWidth 8)
  if c = 10 ∨ c = 4 ∨ s.e = s.r + BitVec.ofNat 32 INPUT_BUF then (s.commit, true) else (s, false)

/-- `consoleintr`, and whether it wakes up the readers. -/
def consoleintr (c : U32) : Input × Bool :=
  if c = 0x10 then (s, false)  -- `^P`
  else if c = 0x15 then (killLine (s.e - s.w).toNat s, false)  -- `^U`
  else if c = 8 ∨ c = 0x7f then (if s.e ≠ s.w then s.erase else s, false)
  else if c ≠ 0 ∧ (s.e - s.r).toNat < INPUT_BUF then s.enter (if c = 13 then 10 else c)
  else (s, false)

end Input

/-- Where a process is: outside, at the head of the loop of `consoleread` with `n` of `target` bytes
left, or in its `sleep`. -/
inductive ConsPc
  | out
  | read (target n : U32)
  | sleep (target n : U32)
  deriving DecidableEq

structure ConsProc where
  pc : ConsPc
  asleep : Bool
  killed : Bool

/-- What readers get: process `i` a byte, or the result `v` of its call for `n` bytes. -/
inductive ConsOut
  | byte (i : ℕ) (b : Byte)
  | ret (i : ℕ) (n : U32) (v : ℤ)
  deriving DecidableEq

namespace ConsOut

/-- The byte of a copy. -/
def copied : ConsOut → Option Byte
  | byte _ b => some b
  | ret .. => none

/-- What was taken from the buffer for it: the byte, or a `^D` for a call that asked for bytes and
ended with none. -/
def taken : ConsOut → Option Byte
  | byte _ b => some b
  | ret _ n v => if 0 < n.toInt ∧ v = 0 then some 4 else none

end ConsOut

structure ConsSys where
  cons : Input
  /-- The holder of `cons.lock`. -/
  lock : Option ℕ
  procs : ℕ → ConsProc
  committed : List Byte
  outs : List ConsOut

namespace ConsSys

variable (s : ConsSys)

/-- What readers have taken. -/
def taken : List Byte := s.outs.filterMap ConsOut.taken

/-- The bytes copied to readers. -/
def delivered : List Byte := s.outs.filterMap ConsOut.copied

/-- `consoleintr` with its `wakeup`. -/
def intr (c : U32) : ConsSys :=
  let (x, wake) := s.cons.consoleintr c
  { s with
    cons := x
    procs := fun i => if wake then { s.procs i with asleep := false } else s.procs i
    committed := s.committed ++ slice INPUT_BUF x.buf s.cons.w (x.w - s.cons.w).toNat }

/-- The process `i` is at `pc` and has the lock. -/
def goto (i : ℕ) (pc : ConsPc) : ConsSys :=
  { s with
    lock := some i
    procs := Function.update s.procs i { s.procs i with pc := pc } }

/-- `release` and return `v` from the call for `target` bytes. -/
def leave (i : ℕ) (target : U32) (v : ℤ) : ConsSys :=
  { s with
    lock := none
    procs := Function.update s.procs i { s.procs i with pc := .out }
    outs := s.outs ++ [.ret i target v] }

/-- `sleep(&cons.r, &cons.lock)`. -/
def sleep (i : ℕ) (target n : U32) : ConsSys :=
  { s with
    lock := none
    procs := Function.update s.procs i { s.procs i with pc := .sleep target n, asleep := true } }

/-- `cons.r++`. -/
def take : ConsSys := { s with cons := { s.cons with r := s.cons.r + 1 } }

/-- `cons.r--`. -/
def putBack : ConsSys := { s with cons := { s.cons with r := s.cons.r - 1 } }

/-- A successful copy. -/
def deliver (i : ℕ) (c : Byte) : ConsSys := { s with outs := s.outs ++ [.byte i c] }

/-- One round of the loop of `consoleread`; `copy` says whether `either_copyout` succeeds. -/
def readRound (i : ℕ) (target n : U32) (killed copy : Bool) : ConsSys :=
  if 0 < n.toInt then
    if s.cons.r = s.cons.w then
      if killed then s.leave i target (-1) else s.sleep i target n
    else
      let c := s.cons.buf (s.cons.r.toNat % INPUT_BUF)
      if c = 4 then  -- `^D`
        if n < target then s.take.putBack.leave i target (target - n).toInt
        else s.take.leave i target (target - n).toInt
      else if copy then
        if c = 10 then (s.take.deliver i c).leave i target (target - (n - 1)).toInt
        else (s.take.deliver i c).goto i (.read target (n - 1))
      else s.take.leave i target (target - n).toInt
  else s.leave i target (target - n).toInt

end ConsSys

inductive ConsEvent
  /-- A character arrives. -/
  | intr (c : Byte)
  | read (i : ℕ) (n : U32)
  /-- The process `i` goes through one round, with the value of `killed` it has seen and whether its
  copy succeeds. -/
  | round (i : ℕ) (killed copy : Bool)
  /-- The process `i` returns from `sleep`. -/
  | resume (i : ℕ)
  | kill (j : ℕ)

/-- One step. -/
def consStep (e : ConsEvent) (s : ConsSys) : Option ConsSys :=
  match e with
  | .intr c => if s.lock = none then some (s.intr (c.setWidth 32)) else none
  | .read i n =>
    if s.lock = none ∧ (s.procs i).pc = .out then some (s.goto i (.read n n)) else none
  | .round i killed copy =>
    if s.lock = some i ∧ (killed → (s.procs i).killed) then
      match (s.procs i).pc with
      | .read target n => some (s.readRound i target n killed copy)
      | _ => none
    else none
  | .resume i =>
    if s.lock = none ∧ (s.procs i).asleep = false then
      match (s.procs i).pc with
      | .sleep target n => some (s.goto i (.read target n))
      | _ => none
    else none
  | .kill j =>
    some { s with
      procs := Function.update s.procs j { s.procs j with killed := true, asleep := false } }

/-- Steps whose copy succeeds. -/
def Copies : ConsEvent → Prop
  | .round _ _ copy => copy = true
  | _ => True

/-- The console after boot. -/
def newConsole (killed : ℕ → Bool) : ConsSys where
  cons := ⟨⟨fun _ => 0, 0, 0⟩, 0⟩
  lock := none
  procs i := ⟨.out, false, killed i⟩
  committed := []
  outs := []

/-- All a step can do. -/
inductive ConsTo (s : ConsSys) : ConsEvent → ConsSys → Prop
  | intr {c : Byte} : ConsTo s (.intr c) (s.intr (c.setWidth 32))
  | read {i : ℕ} {n : U32} : ConsTo s (.read i n) (s.goto i (.read n n))
  | round {i : ℕ} {target n : U32} {killed copy : Bool} : (s.procs i).pc = .read target n →
    ConsTo s (.round i killed copy) (s.readRound i target n killed copy)
  | resume {i : ℕ} {target n : U32} : (s.procs i).pc = .sleep target n →
    ConsTo s (.resume i) (s.goto i (.read target n))
  | kill {j : ℕ} : ConsTo s (.kill j) { s with
      procs := Function.update s.procs j { s.procs j with killed := true, asleep := false } }

theorem consStep_to {s t : ConsSys} {e : ConsEvent} (h : consStep e s = some t) : ConsTo s e t := by
  cases e with
  | intr c =>
    simp only [consStep] at h
    split_ifs at h
    cases h
    exact .intr
  | read i n =>
    simp only [consStep] at h
    split_ifs at h
    cases h
    exact .read
  | round i killed copy =>
    simp only [consStep] at h
    split_ifs at h
    split at h
    · cases h
      exact .round ‹_›
    · cases h
  | resume i =>
    simp only [consStep] at h
    split_ifs at h
    split at h
    · cases h
      exact .resume ‹_›
    · cases h
  | kill j =>
    cases h
    exact .kill

/-! ### The buffer -/

/-- The buffer after `taken` of the bytes `committed`, with `line` being edited. -/
structure Input.Holds (s : Input) (committed line taken : List Byte) : Prop where
  queue : Queue INPUT_BUF s.buf s.r s.e (committed ++ line) taken
  w_eq : s.w = BitVec.ofNat 32 committed.length
  taken : taken <+: committed

/-- Neither a newline nor a `^D`: the bytes that do not end a line. -/
def Unfinished (line : List Byte) : Prop := ∀ b ∈ line, b ≠ 10 ∧ b ≠ 4

namespace Input

/-- `^U` leaves what readers see. -/
theorem killLine_toCons (fuel : ℕ) (s : Input) : (killLine fuel s).toCons = s.toCons := by
  induction fuel generalizing s with
  | zero => rfl
  | succ fuel ih =>
    rw [killLine]
    split_ifs
    · exact ih s.erase
    · rfl

namespace Holds

variable {s : Input} {committed line taken : List Byte} {b : Byte}

/-- The queue of the readers. -/
theorem readers (h : s.Holds committed line taken) :
    Queue INPUT_BUF s.buf s.r s.w committed taken := by
  rw [h.w_eq]
  exact h.queue.restrict h.taken

theorem ready_eq (h : s.Holds committed line taken) : s.ready = committed.drop taken.length := by
  have hlen := h.taken.length_le
  rw [Input.ready, h.readers.count (by decide), h.readers.nread_eq,
    h.readers.slice_eq (by decide) le_rfl (by omega)]
  exact List.take_of_length_le (by simp)

theorem dist_eq (h : s.Holds committed line taken) : (s.e - s.w).toNat = line.length := by
  have hlen := h.taken.length_le
  have hbound := h.queue.bound
  rw [List.length_append] at hbound
  have hB : INPUT_BUF = 128 := rfl
  rw [h.queue.nwrite_eq, h.w_eq, List.length_append, BitVec.ofNat_add, BitVec.add_comm,
    BitVec.add_sub_cancel, BitVec.toNat_ofNat, Nat.mod_eq_of_lt (by omega)]

theorem line_eq (h : s.Holds committed line taken) : s.line = line := by
  rw [Input.line, h.dist_eq, h.w_eq,
    h.queue.slice_eq (by decide) h.taken.length_le (by rw [List.length_append]),
    List.drop_left, List.take_length]

theorem edited_iff (h : s.Holds committed line taken) : s.e = s.w ↔ line = [] := by
  rw [← List.length_eq_zero_iff, ← h.dist_eq, BitVec.toNat_sub, BitVec.toNat_eq]
  have he := s.e.isLt
  have hw := s.w.isLt
  omega

theorem pred_e (h : s.Holds committed (line ++ [b]) taken) :
    s.e - 1 = BitVec.ofNat 32 (committed ++ line).length := by
  rw [h.queue.nwrite_eq, ← List.append_assoc, List.length_append, List.length_singleton,
    BitVec.ofNat_add]
  exact BitVec.add_sub_cancel _ _

/-- The last byte of the line. -/
theorem last_eq (h : s.Holds committed (line ++ [b]) taken) :
    s.buf ((s.e - 1).toNat % INPUT_BUF) = b := by
  have hcell := h.queue.cells (committed ++ line).length
    (by have := h.taken.length_le; rw [List.length_append]; omega) (by simp)
  rw [← List.append_assoc, List.getElem?_concat_length] at hcell
  rw [h.pred_e, toNat_ofNat_mod (by decide)]
  exact (Option.some.inj hcell).symm

theorem erase (h : s.Holds committed (line ++ [b]) taken) :
    s.erase.Holds committed line taken := by
  have hq : Queue INPUT_BUF s.buf s.r s.e ((committed ++ line) ++ [b]) taken := by
    rw [List.append_assoc]
    exact h.queue
  refine ⟨?_, h.w_eq, h.taken⟩
  rw [Input.erase, h.pred_e]
  exact hq.restrict (h.taken.trans (List.prefix_append ..))

theorem killLine (h : s.Holds committed line taken) (hplain : Unfinished line) :
    (Input.killLine line.length s).Holds committed [] taken := by
  induction line using List.reverseRecOn generalizing s with
  | nil => exact h
  | append_singleton line b ih =>
    have hne : s.e ≠ s.w := by
      rw [Ne, h.edited_iff]
      simp
    have hb : s.buf ((s.e - 1).toNat % INPUT_BUF) ≠ 10 := by
      rw [h.last_eq]
      exact (hplain b (by simp)).1
    rw [List.length_append, List.length_singleton, Input.killLine, if_pos ⟨hne, hb⟩]
    exact ih h.erase fun c hc => hplain c (by simp [hc])

theorem store (h : s.Holds committed line taken) (hroom : (s.e - s.r).toNat < INPUT_BUF)
    (b : Byte) : (s.store b).Holds committed (line ++ [b]) taken := by
  refine ⟨?_, h.w_eq, h.taken⟩
  rw [h.queue.count (by decide)] at hroom
  rw [← List.append_assoc]
  exact h.queue.push (by decide) (by have := h.queue.length_le; omega) b

theorem commit (h : s.Holds committed line taken) :
    s.commit.Holds (committed ++ line) [] taken :=
  ⟨by rw [List.append_nil]; exact h.queue, h.queue.nwrite_eq,
    h.taken.trans (List.prefix_append ..)⟩

/-- A reader takes the next byte. -/
theorem take (h : s.Holds committed line taken) (hne : s.r ≠ s.w) :
    Input.Holds { s with r := s.r + 1 } committed line
      (taken ++ [s.buf (s.r.toNat % INPUT_BUF)]) := by
  rw [Ne, h.readers.empty_iff (by decide)] at hne
  have hlt : taken.length < committed.length := lt_of_le_of_ne h.taken.length_le hne
  refine ⟨h.queue.pop (by decide) ?_, h.w_eq, (h.readers.pop (by decide) hlt).took⟩
  rw [List.length_append]
  omega

/-- Where `w` stays, nothing is committed. -/
theorem keep {x : Input} (h : x.Holds committed line taken) (hw : x.w = s.w) :
    x.Holds (committed ++ slice INPUT_BUF x.buf s.w (x.w - s.w).toNat) line taken := by
  rw [hw, BitVec.sub_self]
  simpa [slice] using h

theorem enter (h : s.Holds committed line taken) (hplain : Unfinished line) {c : U32}
    (hc : c.toNat < 256) (hroom : (s.e - s.r).toNat < INPUT_BUF) :
    ∃ line', (s.enter c).1.Holds (committed ++ slice INPUT_BUF (s.enter c).1.buf s.w
      ((s.enter c).1.w - s.w).toNat) line' taken ∧ Unfinished line' := by
  have hstore := h.store hroom (c.setWidth 8)
  rw [Input.enter]
  split_ifs with hend
  · refine ⟨[], ?_, by simp [Unfinished]⟩
    have hline : slice INPUT_BUF (s.store (c.setWidth 8)).commit.buf s.w
        ((s.store (c.setWidth 8)).commit.w - s.w).toNat = line ++ [c.setWidth 8] := hstore.line_eq
    rw [hline]
    exact hstore.commit
  · refine ⟨line ++ [c.setWidth 8], hstore.keep rfl, ?_⟩
    -- the low byte of a character is the character
    have hbyte : ∀ b : Byte, c.setWidth 8 = b → c = b.setWidth 32 := by
      rintro b rfl
      refine BitVec.eq_of_toNat_eq ?_
      rw [BitVec.toNat_setWidth, BitVec.toNat_setWidth]
      omega
    push Not at hend
    intro b hb
    rcases List.mem_append.1 hb with hb | hb
    · exact hplain b hb
    · rw [List.mem_singleton] at hb
      rw [hb]
      exact ⟨fun h10 => hend.1 (hbyte 10 h10), fun h4 => hend.2.1 (hbyte 4 h4)⟩

/-- `consoleintr` commits whole lines, or a full buffer. -/
theorem consoleintr (h : s.Holds committed line taken) (hplain : Unfinished line) (c : Byte) :
    ∃ line', (s.consoleintr (c.setWidth 32)).1.Holds
      (committed ++ slice INPUT_BUF (s.consoleintr (c.setWidth 32)).1.buf s.w
        ((s.consoleintr (c.setWidth 32)).1.w - s.w).toNat) line' taken ∧ Unfinished line' := by
  rw [Input.consoleintr]
  split_ifs with hP hU hH hne hroom hcr
  · exact ⟨line, h.keep rfl, hplain⟩
  · rw [h.dist_eq]
    exact ⟨[], (h.killLine hplain).keep (congrArg Cons.w (killLine_toCons _ _)),
      by simp [Unfinished]⟩
  · obtain ⟨line', b, rfl⟩ : ∃ line' b, line = line' ++ [b] := by
      rw [Ne, h.edited_iff] at hne
      exact ⟨_, _, (List.dropLast_append_getLast hne).symm⟩
    exact ⟨line', h.erase.keep rfl, fun b hb => hplain b (by simp [hb])⟩
  · exact ⟨line, h.keep rfl, hplain⟩
  · exact h.enter hplain (by decide) hroom.2
  · refine h.enter hplain ?_ hroom.2
    rw [BitVec.toNat_setWidth]
    omega
  · exact ⟨line, h.keep rfl, hplain⟩

end Holds

end Input

/-! ### Runs -/

/-- A call of `consoleread` has not more bytes left than it asked for. -/
def ConsPc.Fits : ConsPc → Prop
  | .out => True
  | .read target n | .sleep target n => n ≤ target

structure ConsSys.Disciplined (s : ConsSys) : Prop where
  holds : ∃ line, s.cons.Holds s.committed line s.taken ∧ Unfinished line
  fits : ∀ i, (s.procs i).pc.Fits
  copies : s.delivered = s.taken.filter (· ≠ 4)

namespace ConsSys.Disciplined

variable {s t : ConsSys} {e : ConsEvent} {i : ℕ} {target n : U32}

theorem fits_update {procs : ℕ → ConsProc} {p : ConsProc} (h : ∀ j, (procs j).pc.Fits)
    (hp : p.pc.Fits) (j : ℕ) : (Function.update procs i p j).pc.Fits := by
  by_cases hj : j = i
  · rw [hj, Function.update_self]
    exact hp
  · rw [Function.update_of_ne hj]
    exact h j

theorem fits_read (h : s.Disciplined) (hpc : (s.procs i).pc = .read target n) :
    n ≤ target := by
  have hfit := h.fits i
  rwa [hpc] at hfit

theorem goto (h : s.Disciplined) {pc : ConsPc} (hpc : pc.Fits) : (s.goto i pc).Disciplined :=
  ⟨h.holds, fits_update h.fits hpc, h.copies⟩

theorem sleep (h : s.Disciplined) (hpc : (s.procs i).pc = .read target n) :
    (s.sleep i target n).Disciplined :=
  ⟨h.holds, fits_update h.fits (h.fits_read hpc), h.copies⟩

/-- A call that does not end with 0 for `^D`. -/
theorem leave (h : s.Disciplined) {v : ℤ} (hv : ¬ (0 < target.toInt ∧ v = 0)) :
    (s.leave i target v).Disciplined := by
  have htaken : (s.leave i target v).taken = s.taken := by
    simp [ConsSys.taken, ConsSys.leave, ConsOut.taken, hv]
  have hdelivered : (s.leave i target v).delivered = s.delivered := by
    simp [ConsSys.delivered, ConsSys.leave, ConsOut.copied]
  refine ⟨?_, fits_update h.fits trivial, ?_⟩
  · rw [htaken]
    exact h.holds
  · rw [htaken, hdelivered]
    exact h.copies

/-- A byte is taken and copied. -/
theorem deliver (h : s.Disciplined) (hne : s.cons.r ≠ s.cons.w)
    (hc : s.cons.buf (s.cons.r.toNat % INPUT_BUF) ≠ 4) :
    (s.take.deliver i (s.cons.buf (s.cons.r.toNat % INPUT_BUF))).Disciplined := by
  set c := s.cons.buf (s.cons.r.toNat % INPUT_BUF) with hceq
  have htaken : (s.take.deliver i c).taken = s.taken ++ [c] := by
    simp [ConsSys.taken, ConsSys.deliver, ConsSys.take, ConsOut.taken]
  have hdelivered : (s.take.deliver i c).delivered = s.delivered ++ [c] := by
    simp [ConsSys.delivered, ConsSys.deliver, ConsSys.take, ConsOut.copied]
  obtain ⟨line, hh, hplain⟩ := h.holds
  refine ⟨⟨line, ?_, hplain⟩, h.fits, ?_⟩
  · rw [htaken, hceq]
    exact hh.take hne
  · rw [htaken, hdelivered, h.copies, List.filter_append,
      List.filter_cons_of_pos (by simpa using hc), List.filter_nil]

/-- A `^D` is taken by a call that has copied nothing. -/
theorem endOfFile (h : s.Disciplined) (hne : s.cons.r ≠ s.cons.w)
    (hc : s.cons.buf (s.cons.r.toNat % INPUT_BUF) = 4) (hn : 0 < n.toInt) :
    (s.take.leave i n 0).Disciplined := by
  have htaken : (s.take.leave i n 0).taken = s.taken ++ [4] := by
    simp [ConsSys.taken, ConsSys.leave, ConsSys.take, ConsOut.taken, hn]
  have hdelivered : (s.take.leave i n 0).delivered = s.delivered := by
    simp [ConsSys.delivered, ConsSys.leave, ConsSys.take, ConsOut.copied]
  obtain ⟨line, hh, hplain⟩ := h.holds
  refine ⟨⟨line, ?_, hplain⟩, fits_update h.fits trivial, ?_⟩
  · rw [htaken, ← hc]
    exact hh.take hne
  · rw [htaken, hdelivered, h.copies, List.filter_append]
    simp

/-- A call that has copied bytes does not end with 0. -/
theorem count_ne_zero (hlt : n < target) : (target - n).toInt ≠ 0 := by
  intro h
  have hd := BitVec.toInt_eq_toNat_cond (target - n)
  rw [BitVec.toNat_sub] at hd
  rw [BitVec.lt_def] at hlt
  omega

theorem readRound (h : s.Disciplined) (hpc : (s.procs i).pc = .read target n) (killed : Bool) :
    (s.readRound i target n killed true).Disciplined := by
  have hfit := h.fits_read hpc
  unfold ConsSys.readRound
  by_cases hpos : 0 < n.toInt
  · rw [if_pos hpos]
    -- one byte more is copied
    have hless : n - 1 < target := by
      have hn := BitVec.toInt_eq_toNat_cond n
      rw [BitVec.le_def] at hfit
      rw [BitVec.lt_def, BitVec.toNat_sub, show (1 : U32).toNat = 1 from rfl]
      omega
    by_cases hempty : s.cons.r = s.cons.w
    · rw [if_pos hempty]
      split_ifs
      · exact h.leave fun hv => absurd hv.2 (by decide)
      · exact h.sleep hpc
    simp only [if_neg hempty, ↓reduceIte]
    split_ifs with hD hlt hnl
    · have hback : s.take.putBack = s := by
        rw [ConsSys.putBack, ConsSys.take, BitVec.add_sub_cancel]
      rw [hback]
      exact h.leave fun hv => count_ne_zero hlt hv.2
    · obtain rfl : n = target := BitVec.le_antisymm hfit (BitVec.not_lt.1 hlt)
      rw [BitVec.sub_self]
      exact h.endOfFile hempty hD hpos
    · exact (h.deliver hempty hD).leave fun hv => count_ne_zero hless hv.2
    · exact (h.deliver hempty hD).goto (BitVec.le_of_lt hless)
  · rw [if_neg hpos]
    refine h.leave fun hv => ?_
    by_cases hlt : n < target
    · exact count_ne_zero hlt hv.2
    · obtain rfl : n = target := BitVec.le_antisymm hfit (BitVec.not_lt.1 hlt)
      exact hpos hv.1

theorem intr (h : s.Disciplined) (c : Byte) : (s.intr (c.setWidth 32)).Disciplined := by
  obtain ⟨line, hh, hplain⟩ := h.holds
  refine ⟨hh.consoleintr hplain c, fun j => ?_, h.copies⟩
  have hpc : ((s.intr (c.setWidth 32)).procs j).pc = (s.procs j).pc := by
    simp only [ConsSys.intr]
    split_ifs <;> rfl
  rw [hpc]
  exact h.fits j

theorem step (h : s.Disciplined) (hcopy : Copies e) (hs : consStep e s = some t) :
    t.Disciplined := by
  cases consStep_to hs with
  | intr => exact h.intr _
  | read => exact h.goto (BitVec.le_refl _)
  | round hpc =>
    rw [show _ = true from hcopy]
    exact h.readRound hpc _
  | @resume i target n hpc =>
    have hfit := h.fits i
    rw [hpc] at hfit
    exact h.goto hfit
  | @kill j => exact ⟨h.holds, fits_update h.fits (h.fits j), h.copies⟩

theorem newConsole (killed : ℕ → Bool) : (newConsole killed).Disciplined :=
  ⟨⟨[], ⟨Queue.new _, rfl, List.prefix_rfl⟩, by simp [Unfinished]⟩, fun _ => trivial, rfl⟩

end ConsSys.Disciplined

/-- **The line discipline of the console.**  In every run of `consoleintr` and of any calls of
`consoleread` whose copies succeed, also when the indices wrap: `r`, `w` and `e` are in order and at
most `INPUT_BUF` apart; the line being edited has no newline and no `^D`; erasing and killing a line
leave the committed bytes; the bytes committed are those readers have taken and those that are ready
for them, a `^D` being taken by a call for bytes that ends with 0 and by nothing else; and what is
copied to readers are the bytes taken without the `^D`. -/
theorem console_line_discipline {killed : ℕ → Bool} {s : ConsSys}
    (h : Reach consStep (fun _ => Copies) (newConsole killed) s) :
    (s.cons.w - s.cons.r).toNat ≤ (s.cons.e - s.cons.r).toNat ∧
    (s.cons.e - s.cons.r).toNat ≤ INPUT_BUF ∧
    (∀ b ∈ s.cons.line, b ≠ 10 ∧ b ≠ 4) ∧
    (∀ c : U32, c = 0x15 ∨ c = 8 ∨ c = 0x7f →
      (s.intr c).cons.toCons = s.cons.toCons ∧ (s.intr c).committed = s.committed) ∧
    s.committed = s.taken ++ s.cons.ready ∧
    s.delivered = s.taken.filter (· ≠ 4) := by
  have hs := h.invariant (ConsSys.Disciplined.newConsole killed) fun _ _ _ hI hok hst =>
    hI.step hok hst
  obtain ⟨line, hh, hplain⟩ := hs.holds
  have hdist := hh.queue.count (by decide)
  have hbound := hh.queue.bound
  refine ⟨?_, by omega, ?_, ?_, ?_, hs.copies⟩
  · rw [hdist, hh.readers.count (by decide), List.length_append]
    omega
  · rw [hh.line_eq]
    exact hplain
  · intro c hc
    have hkeep : (s.intr c).cons.toCons = s.cons.toCons := by
      change (s.cons.consoleintr c).1.toCons = _
      rcases hc with rfl | rfl | rfl
      · exact Input.killLine_toCons _ _
      · rw [Input.consoleintr, if_neg (by decide), if_neg (by decide), if_pos (by decide)]
        split_ifs <;> rfl
      · rw [Input.consoleintr, if_neg (by decide), if_neg (by decide), if_pos (by decide)]
        split_ifs <;> rfl
    refine ⟨hkeep, ?_⟩
    have hw : (s.intr c).cons.w = s.cons.w := congrArg Cons.w hkeep
    change s.committed ++ slice INPUT_BUF (s.intr c).cons.buf s.cons.w
      ((s.intr c).cons.w - s.cons.w).toNat = s.committed
    rw [hw, BitVec.sub_self]
    exact List.append_nil _
  · rw [hh.ready_eq]
    exact (List.prefix_iff_eq_append.1 hh.taken).symm

/-- A line with an erased character, then `^D` after `a`: three calls get the line, the `a`, and the
end of file. -/
def typing : List ConsEvent :=
  [.intr 0x78, .intr 8, .intr 0x79, .intr 13, .read 0 9, .round 0 false true, .round 0 false true,
    .intr 0x61, .intr 4, .read 0 9, .round 0 false true, .round 0 false true, .read 1 9,
    .round 1 false true]

theorem console_line_discipline_typing : ∃ s, Reach consStep (fun _ => Copies)
    (newConsole fun _ => false) s ∧ s.outs = [.byte 0 0x79, .byte 0 10, .ret 0 9 2, .byte 0 0x61,
      .ret 0 9 1, .ret 1 9 0] ∧ s.committed = [0x79, 10, 0x61, 4] ++ s.cons.ready := by
  have hrun : (runs consStep typing (newConsole fun _ => false)).map ConsSys.outs =
      some [.byte 0 0x79, .byte 0 10, .ret 0 9 2, .byte 0 0x61, .ret 0 9 1, .ret 1 9 0] := by
    decide +kernel
  obtain ⟨s, hs, houts⟩ := Option.map_eq_some_iff.1 hrun
  have hreach : Reach consStep (fun _ => Copies) (newConsole fun _ => false) s := by
    refine reach_of_runs (fun e he t => ?_) hs
    simp only [typing, List.mem_cons, List.not_mem_nil, or_false] at he
    rcases he with rfl | rfl | rfl | rfl | rfl | rfl | rfl | rfl | rfl | rfl | rfl | rfl | rfl | rfl
    all_goals first | exact trivial | exact rfl
  obtain ⟨-, -, -, -, hcommitted, -⟩ := console_line_discipline hreach
  refine ⟨s, hreach, houts, ?_⟩
  rw [hcommitted, ConsSys.taken, houts]
  rfl

end Xv6
