import Xv6.File
import Xv6.Lib.Ring
import Xv6.Lib.Run

/-!
# Readers and writers of a pipe

One pipe with any number of processes in `pipewrite` and `piperead` (`kernel/pipe.c`), others that
close its ends, and `kill`.  A step is one round of the loop a process is in; the lock is held from
`acquire` over all rounds to the `release` or the `sleep`.  What is done between two rounds under
the lock cannot be seen by those who wait for it, but `p->killed` may be set at any time, so the
flag a round has seen may be older than the flag.

The bytes `copyin` and `copyout` deal with are part of the step: any byte, or a failure.  Two
histories are kept beside the code: what was put into `pi->data`, by whom, and what was taken out.
-/

namespace Xv6

open Bytes Run Ring

/-- What a process in `sleep` waits for: `&pi->nread` or `&pi->nwrite`. -/
inductive PipeChan
  | nread
  | nwrite
  deriving DecidableEq

/-- Where a process is: outside, at the head of the loop of `pipewrite` after the bytes `sent`, at
the head of the first or of the second loop of `piperead`, or in a `sleep` of one of them. -/
inductive PipePc
  | out
  | write (n : ℤ) (sent : List Byte)
  | writeSleep (n : ℤ) (sent : List Byte)
  | read (n : ℤ)
  | readSleep (n : ℤ)
  | readCopy (n : ℤ) (k : ℕ)
  deriving DecidableEq

/-- A process: SLEEPING on a channel or not, `p->killed`, and the bytes its earlier calls of
`pipewrite` have put in. -/
structure PipeProc where
  pc : PipePc
  asleep : Option PipeChan
  killed : Bool
  past : List Byte

/-- All bytes a process has put in. -/
def PipeProc.sent (p : PipeProc) : List Byte :=
  match p.pc with
  | .write _ bs | .writeSleep _ bs => p.past ++ bs
  | _ => p.past

structure PipeSys where
  pipe : Pipe
  /-- The holder of `pi->lock`. -/
  lock : Option ℕ
  freed : Bool
  procs : ℕ → PipeProc
  put : List (ℕ × Byte)
  got : List Byte

namespace PipeSys

variable (s : PipeSys)

def setProc (i : ℕ) (p : PipeProc) : PipeSys := { s with procs := Function.update s.procs i p }

/-- The process `i` is at `pc` and has the lock. -/
def goto (i : ℕ) (pc : PipePc) : PipeSys :=
  { s with
    lock := some i
    procs := Function.update s.procs i { s.procs i with pc := pc } }

/-- `wakeup` by process `i`. -/
def wakeup (i : ℕ) (chan : PipeChan) : PipeSys :=
  { s with procs := fun j =>
      if j ≠ i ∧ (s.procs j).asleep = some chan then { s.procs j with asleep := none }
      else s.procs j }

/-- `release` and return. -/
def leave (i : ℕ) : PipeSys :=
  { s with
    lock := none
    procs := Function.update s.procs i
      { s.procs i with pc := .out, past := (s.procs i).sent } }

/-- `sleep`, which releases the lock. -/
def sleep (i : ℕ) (chan : PipeChan) (pc : PipePc) : PipeSys :=
  { s with
    lock := none
    procs := Function.update s.procs i { s.procs i with pc := pc, asleep := some chan } }

/-- `pi->data[pi->nwrite++ % PIPESIZE] = ch; i++`. -/
def putByte (i : ℕ) (n : ℤ) (bs : List Byte) (ch : Byte) : PipeSys :=
  { s with
    pipe := { s.pipe with
      data := Function.update s.pipe.data (s.pipe.nwrite.toNat % PIPESIZE) ch
      nwrite := s.pipe.nwrite + 1 }
    procs := Function.update s.procs i { s.procs i with pc := .write n (bs ++ [ch]) }
    put := s.put ++ [(i, ch)] }

/-- `ch = pi->data[pi->nread++ % PIPESIZE]`. -/
def takeByte : PipeSys :=
  { s with
    pipe := { s.pipe with nread := s.pipe.nread + 1 }
    got := s.got ++ [s.pipe.data (s.pipe.nread.toNat % PIPESIZE)] }

/-- One round of the loop of `pipewrite`. -/
def writeRound (i : ℕ) (n : ℤ) (bs : List Byte) (killed : Bool) (copy : Option Byte) : PipeSys :=
  if (bs.length : ℤ) < n then
    if s.pipe.readopen = false ∨ killed then s.leave i
    else if s.pipe.nwrite = s.pipe.nread + BitVec.ofNat 32 PIPESIZE then
      (s.wakeup i .nread).sleep i .nwrite (.writeSleep n bs)
    else
      match copy with
      | none => (s.wakeup i .nread).leave i
      | some ch => s.putByte i n bs ch
  else (s.wakeup i .nread).leave i

/-- One round of the first loop of `piperead`. -/
def readRound (i : ℕ) (n : ℤ) (killed : Bool) : PipeSys :=
  if s.pipe.nread = s.pipe.nwrite ∧ s.pipe.writeopen then
    if killed then s.leave i else s.sleep i .nread (.readSleep n)
  else s.goto i (.readCopy n 0)

/-- One round of the second loop of `piperead`; `copy` says whether `copyout` succeeds. -/
def copyRound (i : ℕ) (n : ℤ) (k : ℕ) (copy : Bool) : PipeSys :=
  if (k : ℤ) < n ∧ s.pipe.nread ≠ s.pipe.nwrite then
    if copy then s.takeByte.goto i (.readCopy n (k + 1))
    else (s.takeByte.wakeup i .nwrite).leave i
  else (s.wakeup i .nwrite).leave i

/-- `pipeclose`. -/
def close (i : ℕ) (writable : Bool) : PipeSys :=
  let t := if writable then
      PipeSys.wakeup { s with pipe := { s.pipe with writeopen := false } } i .nread
    else PipeSys.wakeup { s with pipe := { s.pipe with readopen := false } } i .nwrite
  { t with freed := !t.pipe.readopen && !t.pipe.writeopen }

/-- The state `kill` leaves. -/
def kill (j : ℕ) : PipeSys := s.setProc j { s.procs j with killed := true, asleep := none }

end PipeSys

inductive PipeEvent
  | write (i : ℕ) (n : ℤ)
  | read (i : ℕ) (n : ℤ)
  /-- The process `i` goes through one round, with the value of `killed` it has seen and what its
  copy does. -/
  | round (i : ℕ) (killed : Bool) (copy : Option Byte)
  /-- The process `i` returns from `sleep`. -/
  | resume (i : ℕ)
  | close (i : ℕ) (writable : Bool)
  | kill (j : ℕ)

/-- The process `i`, outside the pipe code, calls `pipewrite` or `piperead` and gets the lock. -/
def PipeSys.enter (s : PipeSys) (i : ℕ) (pc : PipePc) : Option PipeSys :=
  if s.lock = none ∧ !s.freed ∧ (s.procs i).pc = .out then
    some (s.goto i pc)
  else none

/-- One step. -/
def pipeStep (e : PipeEvent) (s : PipeSys) : Option PipeSys :=
  match e with
  | .write i n => s.enter i (.write n [])
  | .read i n => s.enter i (.read n)
  | .round i killed copy =>
    if s.lock = some i ∧ (killed → (s.procs i).killed) then
      match (s.procs i).pc with
      | .write n bs => some (s.writeRound i n bs killed copy)
      | .read n => some (s.readRound i n killed)
      | .readCopy n k => some (s.copyRound i n k copy.isSome)
      | _ => none
    else none
  | .resume i =>
    if s.lock = none ∧ !s.freed ∧ (s.procs i).asleep = none then
      match (s.procs i).pc with
      | .writeSleep n bs => some (s.goto i (.write n bs))
      | .readSleep n => some (s.goto i (.read n))
      | _ => none
    else none
  | .close i writable =>
    if s.lock = none ∧ !s.freed ∧ (s.procs i).pc = .out then some (s.close i writable) else none
  | .kill j => some (s.kill j)

/-- What `pipealloc` makes, in a page with any contents. -/
def newPipe (data : ℕ → Byte) (killed : ℕ → Bool) : PipeSys where
  pipe := ⟨data, 0, 0, true, true⟩
  lock := none
  freed := false
  procs i := ⟨.out, none, killed i, []⟩
  put := []
  got := []

/-- All a step can do. -/
inductive PipeTo (s : PipeSys) : PipeEvent → PipeSys → Prop
  | write {i : ℕ} {n : ℤ} : s.lock = none → (s.procs i).pc = .out →
    PipeTo s (.write i n) (s.goto i (.write n []))
  | read {i : ℕ} {n : ℤ} : s.lock = none → (s.procs i).pc = .out →
    PipeTo s (.read i n) (s.goto i (.read n))
  | writeRound {i : ℕ} {n : ℤ} {bs : List Byte} {killed : Bool} {copy : Option Byte} :
    s.lock = some i → (s.procs i).pc = .write n bs →
    PipeTo s (.round i killed copy) (s.writeRound i n bs killed copy)
  | readRound {i : ℕ} {n : ℤ} {killed : Bool} {copy : Option Byte} :
    s.lock = some i → (s.procs i).pc = .read n →
    PipeTo s (.round i killed copy) (s.readRound i n killed)
  | copyRound {i : ℕ} {n : ℤ} {k : ℕ} {killed : Bool} {copy : Option Byte} :
    s.lock = some i → (s.procs i).pc = .readCopy n k →
    PipeTo s (.round i killed copy) (s.copyRound i n k copy.isSome)
  | resumeWrite {i : ℕ} {n : ℤ} {bs : List Byte} : s.lock = none → (s.procs i).asleep = none →
    (s.procs i).pc = .writeSleep n bs → PipeTo s (.resume i) (s.goto i (.write n bs))
  | resumeRead {i : ℕ} {n : ℤ} : s.lock = none → (s.procs i).asleep = none →
    (s.procs i).pc = .readSleep n → PipeTo s (.resume i) (s.goto i (.read n))
  | close {i : ℕ} {writable : Bool} : s.lock = none → (s.procs i).pc = .out →
    PipeTo s (.close i writable) (s.close i writable)
  | kill {j : ℕ} : PipeTo s (.kill j) (s.kill j)

theorem pipeStep_to {s t : PipeSys} {e : PipeEvent} (h : pipeStep e s = some t) : PipeTo s e t := by
  cases e with
  | write i n =>
    simp only [pipeStep, PipeSys.enter] at h
    split_ifs at h with hc
    cases h
    exact .write hc.1 hc.2.2
  | read i n =>
    simp only [pipeStep, PipeSys.enter] at h
    split_ifs at h with hc
    cases h
    exact .read hc.1 hc.2.2
  | round i killed copy =>
    simp only [pipeStep] at h
    split_ifs at h with hc
    split at h
    · cases h
      exact .writeRound hc.1 ‹_›
    · cases h
      exact .readRound hc.1 ‹_›
    · cases h
      exact .copyRound hc.1 ‹_›
    · cases h
  | resume i =>
    simp only [pipeStep] at h
    split_ifs at h with hc
    split at h
    · cases h
      exact .resumeWrite hc.1 hc.2.2 ‹_›
    · cases h
      exact .resumeRead hc.1 hc.2.2 ‹_›
    · cases h
  | close i writable =>
    simp only [pipeStep] at h
    split_ifs at h with hc
    cases h
    exact .close hc.1 hc.2.2
  | kill j =>
    cases h
    exact .kill

/-! ### A bounded queue -/

section Fifo

variable {s t : PipeSys} {e : PipeEvent}

/-- The ring holds what was put in and not taken out, and every process put in its bytes in the
order in which it sent them. -/
structure Fifo (s : PipeSys) : Prop where
  queue : Queue PIPESIZE s.pipe.data s.pipe.nread s.pipe.nwrite (s.put.map Prod.snd) s.got
  own : ∀ i, (s.put.filter (·.1 = i)).map Prod.snd = (s.procs i).sent

/-- Steps that move no byte. -/
structure SameBytes (s t : PipeSys) : Prop where
  data : t.pipe.data = s.pipe.data
  nread : t.pipe.nread = s.pipe.nread
  nwrite : t.pipe.nwrite = s.pipe.nwrite
  put : t.put = s.put
  got : t.got = s.got
  sent : ∀ i, (t.procs i).sent = (s.procs i).sent

theorem Fifo.same (h : Fifo s) (hs : SameBytes s t) : Fifo t := by
  constructor
  · rw [hs.data, hs.nread, hs.nwrite, hs.put, hs.got]
    exact h.queue
  · intro i
    rw [hs.put, hs.sent]
    exact h.own i

theorem SameBytes.trans {u : PipeSys} (h : SameBytes s t) (h' : SameBytes t u) : SameBytes s u :=
  ⟨h'.data.trans h.data, h'.nread.trans h.nread, h'.nwrite.trans h.nwrite, h'.put.trans h.put,
    h'.got.trans h.got, fun i => (h'.sent i).trans (h.sent i)⟩

/-- A process changes its place and keeps what it has sent. -/
theorem SameBytes.setProc {i : ℕ} {p : PipeProc} (hp : p.sent = (s.procs i).sent) :
    SameBytes s (s.setProc i p) := by
  refine ⟨rfl, rfl, rfl, rfl, rfl, fun j => ?_⟩
  by_cases hj : j = i
  · subst hj
    simp only [PipeSys.setProc, Function.update_self, hp]
  · simp only [PipeSys.setProc, Function.update_of_ne hj]

theorem SameBytes.wakeup (i : ℕ) (c : PipeChan) : SameBytes s (s.wakeup i c) := by
  refine ⟨rfl, rfl, rfl, rfl, rfl, fun j => ?_⟩
  simp only [PipeSys.wakeup]
  split_ifs <;> rfl

theorem SameBytes.leave (i : ℕ) : SameBytes s (s.leave i) := by
  have := SameBytes.setProc (s := s) (i := i)
    (p := { s.procs i with pc := .out, past := (s.procs i).sent }) rfl
  exact ⟨rfl, rfl, rfl, rfl, rfl, this.sent⟩

theorem SameBytes.sleep {i : ℕ} {c : PipeChan} {pc : PipePc}
    (hp : PipeProc.sent { s.procs i with pc := pc, asleep := some c } = (s.procs i).sent) :
    SameBytes s (s.sleep i c pc) := by
  have := SameBytes.setProc (s := s) hp
  exact ⟨rfl, rfl, rfl, rfl, rfl, this.sent⟩

theorem SameBytes.goto {i : ℕ} {pc : PipePc}
    (hp : PipeProc.sent { s.procs i with pc := pc } = (s.procs i).sent) :
    SameBytes s (s.goto i pc) := by
  have := SameBytes.setProc (s := s) hp
  exact ⟨rfl, rfl, rfl, rfl, rfl, this.sent⟩

theorem PipeProc.sent_eq {p : PipeProc} {n : ℤ} {bs : List Byte} (h : p.pc = .write n bs) :
    p.sent = p.past ++ bs := by
  rw [PipeProc.sent, h]

/-- A byte is put in. -/
theorem Fifo.put (h : Fifo s) {i : ℕ} {n : ℤ} {bs : List Byte} (hpc : (s.procs i).pc = .write n bs)
    (hroom : s.pipe.nwrite ≠ s.pipe.nread + BitVec.ofNat 32 PIPESIZE) (ch : Byte) :
    Fifo (s.putByte i n bs ch) := by
  unfold PipeSys.putByte
  constructor
  · rw [ne_eq, h.queue.full_iff (by decide)] at hroom
    have hbound := h.queue.bound
    simp only [List.map_append, List.map_cons, List.map_nil]
    exact h.queue.push (by decide) (by omega) ch
  · intro j
    simp only [List.filter_append, List.map_append, h.own j]
    by_cases hj : j = i
    · subst hj
      rw [Function.update_self, PipeProc.sent_eq hpc, PipeProc.sent_eq rfl]
      simp
    · rw [Function.update_of_ne hj]
      simp [Ne.symm hj]

/-- A byte is taken out. -/
theorem Fifo.take (h : Fifo s) (hne : s.pipe.nread ≠ s.pipe.nwrite) :
    Fifo s.takeByte := by
  rw [ne_eq, h.queue.empty_iff (by decide)] at hne
  exact ⟨h.queue.pop (by decide) (lt_of_le_of_ne h.queue.length_le hne), h.own⟩

theorem Fifo.writeRound (h : Fifo s) {i : ℕ} {n : ℤ} {bs : List Byte}
    (hpc : (s.procs i).pc = .write n bs) (killed : Bool) (copy : Option Byte) :
    Fifo (s.writeRound i n bs killed copy) := by
  have hend : Fifo ((s.wakeup i .nread).leave i) :=
    h.same ((SameBytes.wakeup i .nread).trans (SameBytes.leave i))
  unfold PipeSys.writeRound
  split_ifs with h1 h2 h3
  · exact h.same (SameBytes.leave i)
  · refine h.same ((SameBytes.wakeup i .nread).trans (SameBytes.sleep ?_))
    have hawake : ((s.wakeup i .nread).procs i).pc = .write n bs := by
      rw [← hpc, PipeSys.wakeup]
      simp
    rw [PipeProc.sent, PipeProc.sent_eq hawake]
  · cases copy with
    | none => exact hend
    | some ch => exact h.put hpc h3 ch
  · exact hend

theorem Fifo.readRound (h : Fifo s) {i : ℕ} {n : ℤ} (hpc : (s.procs i).pc = .read n)
    (killed : Bool) : Fifo (s.readRound i n killed) := by
  rw [PipeSys.readRound]
  split_ifs
  · exact h.same (SameBytes.leave i)
  · exact h.same (SameBytes.sleep (by simp [PipeProc.sent, hpc]))
  · exact h.same (SameBytes.goto (by simp [PipeProc.sent, hpc]))

theorem Fifo.copyRound (h : Fifo s) {i : ℕ} {n : ℤ} {k : ℕ} (hpc : (s.procs i).pc = .readCopy n k)
    (copy : Bool) : Fifo (s.copyRound i n k copy) := by
  rw [PipeSys.copyRound]
  split_ifs with h1 h2
  · exact (h.take h1.2).same (SameBytes.goto (by simp [PipeProc.sent, PipeSys.takeByte, hpc]))
  · exact (h.take h1.2).same ((SameBytes.wakeup i .nwrite).trans (SameBytes.leave i))
  · exact h.same ((SameBytes.wakeup i .nwrite).trans (SameBytes.leave i))

theorem SameBytes.close (i : ℕ) (writable : Bool) : SameBytes s (s.close i writable) := by
  cases writable with
  | true =>
    have := SameBytes.wakeup (s := { s with pipe := { s.pipe with writeopen := false } }) i .nread
    exact ⟨rfl, rfl, rfl, rfl, rfl, this.sent⟩
  | false =>
    have := SameBytes.wakeup (s := { s with pipe := { s.pipe with readopen := false } }) i .nwrite
    exact ⟨rfl, rfl, rfl, rfl, rfl, this.sent⟩

theorem Fifo.step (h : Fifo s) (hs : pipeStep e s = some t) : Fifo t := by
  cases pipeStep_to hs with
  | write _ hpc | read _ hpc => exact h.same (.goto (by simp [PipeProc.sent, hpc]))
  | writeRound _ hpc => exact h.writeRound hpc ..
  | readRound _ hpc => exact h.readRound hpc _
  | copyRound _ hpc => exact h.copyRound hpc _
  | resumeWrite _ _ hpc | resumeRead _ _ hpc => exact h.same (.goto (by simp [PipeProc.sent, hpc]))
  | close => exact h.same (.close ..)
  | kill => exact h.same (.setProc rfl)

/-- **A pipe is a bounded queue.**  In every run of any readers and writers, also when the counters
wrap: there are at most `PIPESIZE` bytes in the pipe, the bytes taken out are the first of those put
in, and each writer's bytes are among those in the order in which it sent them. -/
theorem pipe_is_fifo {data : ℕ → Byte} {killed : ℕ → Bool} {s : PipeSys}
    (h : Reach pipeStep (fun _ _ => True) (newPipe data killed) s) :
    (s.pipe.nwrite - s.pipe.nread).toNat ≤ PIPESIZE ∧ s.got <+: s.put.map Prod.snd ∧
      ∀ i, (s.put.filter (·.1 = i)).map Prod.snd = (s.procs i).sent := by
  have h0 : Fifo (newPipe data killed) := ⟨Queue.new data, fun i => rfl⟩
  have hs := h.invariant h0 fun _ _ _ hI _ hst => hI.step hst
  refine ⟨?_, hs.queue.took, hs.own⟩
  rw [hs.queue.count (by decide)]
  have := hs.queue.bound
  omega

end Fifo

/-- Two bytes are written and one is read. -/
def pipeTalk : List PipeEvent :=
  [.write 0 2, .round 0 false (some 7), .round 0 false (some 8), .round 0 false none,
    .read 1 1, .round 1 false none, .round 1 false (some 0), .round 1 false none]

theorem pipe_is_fifo_talk :
    ∃ s, Reach pipeStep (fun _ _ => True) (newPipe (fun _ => 0) fun _ => false) s ∧
      s.put = [(0, 7), (0, 8)] ∧ s.got = [7] ∧ s.got <+: s.put.map Prod.snd := by
  have hrun : (runs pipeStep pipeTalk (newPipe (fun _ => 0) fun _ => false)).map
      (fun s => (s.put, s.got)) = some ([(0, 7), (0, 8)], [7]) := by decide +kernel
  obtain ⟨s, hs, hst⟩ := Option.map_eq_some_iff.1 hrun
  obtain ⟨hput, hgot⟩ := Prod.mk.inj hst
  have hreach : Reach pipeStep (fun _ _ => True) (newPipe (fun _ => 0) fun _ => false) s :=
    reach_of_runs (fun _ _ _ => trivial) hs
  exact ⟨s, hreach, hput, hgot, (pipe_is_fifo hreach).2.1⟩

/-! ### Sleepers -/

section Sleepers

variable {s t : PipeSys} {e : PipeEvent} {i : ℕ}

/-- The places inside the lock. -/
def PipePc.Inside : PipePc → Prop
  | .write .. | .read .. | .readCopy .. => True
  | _ => False

/-- The place of a process that sleeps on a channel. -/
def PipePc.SleepsOn : PipePc → PipeChan → Prop
  | .readSleep .., .nread | .writeSleep .., .nwrite => True
  | _, _ => False

/-- The pipe is full. -/
def Pipe.Full (p : Pipe) : Prop := p.nwrite = p.nread + BitVec.ofNat 32 PIPESIZE

/-- Nobody sleeps who could go on. -/
structure NoneForgotten (s : PipeSys) : Prop where
  readers : ∀ j, (s.procs j).asleep = some .nread →
    s.pipe.nread = s.pipe.nwrite ∧ s.pipe.writeopen = true
  writers : ∀ j, (s.procs j).asleep = some .nwrite → s.pipe.Full ∧ s.pipe.readopen = true

/-- Nobody sleeps who could go on, unless the holder of the lock has yet to wake him up: a writer in
its loop the readers, a reader in its second loop the writers. -/
structure Watched (s : PipeSys) : Prop where
  inside : ∀ j, (s.procs j).pc.Inside → s.lock = some j
  asleep : ∀ j c, (s.procs j).asleep = some c → (s.procs j).pc.SleepsOn c
  readers : ∀ j, (s.procs j).asleep = some .nread → s.pipe.writeopen = true ∧
    (s.pipe.nread = s.pipe.nwrite ∨ ∃ i n bs, s.lock = some i ∧ (s.procs i).pc = .write n bs)
  writers : ∀ j, (s.procs j).asleep = some .nwrite → s.pipe.readopen = true ∧
    (s.pipe.Full ∨ ∃ i n k, s.lock = some i ∧ (s.procs i).pc = .readCopy n k)

/-- A writer does not return -1 while readers sleep on a pipe with bytes in it. -/
def WakesReaders (s : PipeSys) (e : PipeEvent) : Prop :=
  ∀ i killed copy n bs, e = .round i killed copy → (s.procs i).pc = .write n bs →
    (bs.length : ℤ) < n → (s.pipe.readopen = false ∨ killed = true) →
    s.pipe.nread ≠ s.pipe.nwrite → ∀ j, (s.procs j).asleep ≠ some .nread

section Fields

variable (j : ℕ) (c : PipeChan) (pc : PipePc)

theorem leave_pc : ((s.leave i).procs j).pc = if j = i then .out else (s.procs j).pc := by
  simp only [PipeSys.leave, Function.update_apply]
  split_ifs <;> rfl

theorem leave_asleep : ((s.leave i).procs j).asleep = (s.procs j).asleep := by
  simp only [PipeSys.leave, Function.update_apply]
  split_ifs with h
  · rw [h]
  · rfl

theorem sleep_pc : ((s.sleep i c pc).procs j).pc = if j = i then pc else (s.procs j).pc := by
  simp only [PipeSys.sleep, Function.update_apply]
  split_ifs <;> rfl

theorem sleep_asleep :
    ((s.sleep i c pc).procs j).asleep = if j = i then some c else (s.procs j).asleep := by
  simp only [PipeSys.sleep, Function.update_apply]
  split_ifs <;> rfl

theorem wakeup_pc : ((s.wakeup i c).procs j).pc = (s.procs j).pc := by
  simp only [PipeSys.wakeup]
  split_ifs <;> rfl

theorem wakeup_asleep : ((s.wakeup i c).procs j).asleep =
    if j ≠ i ∧ (s.procs j).asleep = some c then none else (s.procs j).asleep := by
  simp only [PipeSys.wakeup]
  split_ifs <;> rfl

theorem goto_pc : ((s.goto i pc).procs j).pc = if j = i then pc else (s.procs j).pc := by
  simp only [PipeSys.goto, Function.update_apply]
  split_ifs <;> rfl

theorem goto_asleep : ((s.goto i pc).procs j).asleep = (s.procs j).asleep := by
  simp only [PipeSys.goto, Function.update_apply]
  split_ifs with h
  · rw [h]
  · rfl

theorem put_pc (n : ℤ) (bs : List Byte) (ch : Byte) : ((s.putByte i n bs ch).procs j).pc =
    if j = i then .write n (bs ++ [ch]) else (s.procs j).pc := by
  simp only [PipeSys.putByte, Function.update_apply]
  split_ifs <;> rfl

theorem put_asleep (n : ℤ) (bs : List Byte) (ch : Byte) :
    ((s.putByte i n bs ch).procs j).asleep = (s.procs j).asleep := by
  simp only [PipeSys.putByte, Function.update_apply]
  split_ifs with h
  · rw [h]
  · rfl

end Fields

/-- A process inside the lock is awake. -/
theorem Watched.awake (h : Watched s) (hi : (s.procs i).pc.Inside) : (s.procs i).asleep = none := by
  cases ha : (s.procs i).asleep with
  | none => rfl
  | some c =>
    have := h.asleep i c ha
    revert hi this
    cases (s.procs i).pc <;> cases c <;> simp [PipePc.Inside, PipePc.SleepsOn]

/-- The process `i` goes on from a place in the lock or from outside; the others stay where they
are, and some wake up. -/
theorem Watched.of_others (h : Watched s) (hl : s.lock = none ∨ s.lock = some i)
    (hother : ∀ j, j ≠ i → (t.procs j).pc = (s.procs j).pc ∧
      ((t.procs j).asleep = none ∨ (t.procs j).asleep = (s.procs j).asleep))
    (hinside : (t.procs i).pc.Inside → t.lock = some i)
    (hown : ∀ c, (t.procs i).asleep = some c → (t.procs i).pc.SleepsOn c)
    (hreaders : ∀ j, (t.procs j).asleep = some .nread → t.pipe.writeopen = true ∧
      (t.pipe.nread = t.pipe.nwrite ∨ ∃ i n bs, t.lock = some i ∧ (t.procs i).pc = .write n bs))
    (hwriters : ∀ j, (t.procs j).asleep = some .nwrite → t.pipe.readopen = true ∧
      (t.pipe.Full ∨ ∃ i n k, t.lock = some i ∧ (t.procs i).pc = .readCopy n k)) : Watched t := by
  refine ⟨fun j hj => ?_, fun j c hj => ?_, hreaders, hwriters⟩
  · by_cases hji : j = i
    · subst hji
      exact hinside hj
    · rw [(hother j hji).1] at hj
      rcases hl with hl | hl
      · rw [h.inside j hj] at hl
        cases hl
      · rw [h.inside j hj] at hl
        exact absurd (Option.some.inj hl) hji
  · by_cases hji : j = i
    · subst hji
      exact hown c hj
    · obtain ⟨hpc, ha | ha⟩ := hother j hji
      · rw [ha] at hj
        cases hj
      · rw [hpc]
        exact h.asleep j c (ha ▸ hj)

/-- The holder of the lock is not copying from the pipe: the writers that sleep have reason to. -/
theorem Watched.writers_of_write (h : Watched s) (hl : s.lock = some i)
    (hpc : ∀ n k, (s.procs i).pc ≠ .readCopy n k) {j : ℕ} (hj : (s.procs j).asleep = some .nwrite) :
    s.pipe.readopen = true ∧ s.pipe.Full := by
  obtain ⟨hopen, hfull | ⟨i', n', k, hl', hpc'⟩⟩ := h.writers j hj
  · exact ⟨hopen, hfull⟩
  · rw [hl] at hl'
    cases hl'
    exact absurd hpc' (hpc _ _)

/-- The holder of the lock is not writing: the readers that sleep have reason to. -/
theorem Watched.readers_of_read (h : Watched s) (hl : s.lock = some i)
    (hpc : ∀ n bs, (s.procs i).pc ≠ .write n bs) {j : ℕ} (hj : (s.procs j).asleep = some .nread) :
    s.pipe.writeopen = true ∧ s.pipe.nread = s.pipe.nwrite := by
  obtain ⟨hopen, hempty | ⟨i', n', bs, hl', hpc'⟩⟩ := h.readers j hj
  · exact ⟨hopen, hempty⟩
  · rw [hl] at hl'
    cases hl'
    exact absurd hpc' (hpc _ _)

/-- The lock is free: everybody who sleeps has reason to. -/
theorem Watched.noneForgotten (h : Watched s) (hl : s.lock = none) : NoneForgotten s := by
  constructor
  · intro j hj
    obtain ⟨hopen, hempty | ⟨i, n, bs, hl', -⟩⟩ := h.readers j hj
    · exact ⟨hempty, hopen⟩
    · rw [hl] at hl'
      cases hl'
  · intro j hj
    obtain ⟨hopen, hfull | ⟨i, n, k, hl', -⟩⟩ := h.writers j hj
    · exact ⟨hfull, hopen⟩
    · rw [hl] at hl'
      cases hl'

/-- Who is asleep after a wakeup. -/
theorem asleep_of_wakeup {c c' : PipeChan} (hi : (s.procs i).asleep = none) {j : ℕ}
    (hj : ((s.wakeup i c).procs j).asleep = some c') : (s.procs j).asleep = some c' ∧ c' ≠ c := by
  rw [wakeup_asleep] at hj
  split_ifs at hj with hw
  refine ⟨hj, ?_⟩
  rintro rfl
  refine hw ⟨?_, hj⟩
  rintro rfl
  rw [hi] at hj
  cases hj

/-- The holder of the lock leaves without a wakeup. -/
theorem Watched.leave (h : Watched s) (hl : s.lock = some i) (hi : (s.procs i).pc.Inside)
    (hreaders : ∀ j, (s.procs j).asleep = some .nread →
      s.pipe.writeopen = true ∧ s.pipe.nread = s.pipe.nwrite)
    (hwriters : ∀ j, (s.procs j).asleep = some .nwrite → s.pipe.readopen = true ∧ s.pipe.Full) :
    Watched (s.leave i) := by
  refine h.of_others (Or.inr hl) (fun j hj => ?_) ?_ ?_ ?_ ?_
  · rw [leave_pc, if_neg hj, leave_asleep]
    exact ⟨rfl, Or.inr rfl⟩
  · rw [leave_pc, if_pos rfl]
    exact False.elim
  · intro c hc
    rw [leave_asleep, h.awake hi] at hc
    cases hc
  · intro j hj
    rw [leave_asleep] at hj
    exact ⟨(hreaders j hj).1, Or.inl (hreaders j hj).2⟩
  · intro j hj
    rw [leave_asleep] at hj
    exact ⟨(hwriters j hj).1, Or.inl (hwriters j hj).2⟩

/-- A process that is awake has the lock and goes to `pc`; the sleepers have reason to sleep. -/
theorem Watched.goto (h : Watched s) (hl : s.lock = none ∨ s.lock = some i)
    (hawake : (s.procs i).asleep = none) {pc : PipePc}
    (hreaders : ∀ j, (s.procs j).asleep = some .nread →
      s.pipe.writeopen = true ∧ s.pipe.nread = s.pipe.nwrite)
    (hwriters : ∀ j, (s.procs j).asleep = some .nwrite → s.pipe.readopen = true ∧ s.pipe.Full) :
    Watched (s.goto i pc) := by
  refine h.of_others hl (fun j hj => ?_) (fun _ => rfl) ?_ ?_ ?_
  · rw [goto_pc, if_neg hj, goto_asleep]
    exact ⟨rfl, Or.inr rfl⟩
  · intro c hc
    rw [goto_asleep, hawake] at hc
    cases hc
  · intro j hj
    rw [goto_asleep] at hj
    exact ⟨(hreaders j hj).1, Or.inl (hreaders j hj).2⟩
  · intro j hj
    rw [goto_asleep] at hj
    exact ⟨(hwriters j hj).1, Or.inl (hwriters j hj).2⟩

/-- The holder of the lock goes to sleep, with reason. -/
theorem Watched.sleep (h : Watched s) (hl : s.lock = some i) {c : PipeChan} {pc : PipePc}
    (hpc : pc.SleepsOn c)
    (hreaders : ∀ j, ((s.sleep i c pc).procs j).asleep = some .nread →
      s.pipe.writeopen = true ∧ s.pipe.nread = s.pipe.nwrite)
    (hwriters : ∀ j, ((s.sleep i c pc).procs j).asleep = some .nwrite →
      s.pipe.readopen = true ∧ s.pipe.Full) : Watched (s.sleep i c pc) := by
  refine h.of_others (Or.inr hl) (fun j hj => ?_) ?_ ?_ ?_ ?_
  · rw [sleep_pc, if_neg hj, sleep_asleep, if_neg hj]
    exact ⟨rfl, Or.inr rfl⟩
  · rw [sleep_pc, if_pos rfl]
    revert hpc
    cases pc <;> cases c <;> simp [PipePc.SleepsOn, PipePc.Inside]
  · intro c' hc
    rw [sleep_asleep, if_pos rfl] at hc
    cases hc
    rwa [sleep_pc, if_pos rfl]
  · exact fun j hj => ⟨(hreaders j hj).1, Or.inl (hreaders j hj).2⟩
  · exact fun j hj => ⟨(hwriters j hj).1, Or.inl (hwriters j hj).2⟩

/-- Nothing but a wakeup. -/
theorem Watched.wakeup (h : Watched s) (hi : (s.procs i).asleep = none) (c : PipeChan) :
    Watched (s.wakeup i c) := by
  refine ⟨fun j hj => ?_, fun j c' hj => ?_, fun j hj => ?_, fun j hj => ?_⟩
  · rw [wakeup_pc] at hj
    exact h.inside j hj
  · rw [wakeup_pc]
    exact h.asleep j c' (asleep_of_wakeup hi hj).1
  · simp only [wakeup_pc]
    exact h.readers j (asleep_of_wakeup hi hj).1
  · simp only [wakeup_pc]
    exact h.writers j (asleep_of_wakeup hi hj).1

theorem Watched.writeRound (h : Watched s) {n : ℤ} {bs : List Byte} (hl : s.lock = some i)
    (hpc : (s.procs i).pc = .write n bs) {killed : Bool} {copy : Option Byte}
    (hok : WakesReaders s (.round i killed copy)) : Watched (s.writeRound i n bs killed copy) := by
  have hin : (s.procs i).pc.Inside := by
    rw [hpc]
    trivial
  have hawake := h.awake hin
  have hwriters : ∀ j, (s.procs j).asleep = some .nwrite → s.pipe.readopen = true ∧ s.pipe.Full :=
    fun j hj => h.writers_of_write hl (by simp [hpc]) hj
  have hend : Watched ((s.wakeup i .nread).leave i) := by
    refine (h.wakeup hawake .nread).leave hl (by rwa [wakeup_pc]) (fun j hj => ?_) fun j hj => ?_
    · exact absurd rfl (asleep_of_wakeup hawake hj).2
    · exact hwriters j (asleep_of_wakeup hawake hj).1
  unfold PipeSys.writeRound
  split_ifs with h1 h2 h3
  · -- the early return: by assumption no reader is left behind
    refine h.leave hl hin (fun j hj => ⟨(h.readers j hj).1, ?_⟩) hwriters
    by_contra hne
    exact hok i killed copy n bs rfl hpc h1 h2 hne j hj
  · -- the pipe is full: the readers wake up, the writer sleeps
    have hopen : s.pipe.readopen = true := by simpa using fun hc => h2 (Or.inl hc)
    refine (h.wakeup hawake .nread).sleep hl trivial (fun j hj => ?_) fun j _ => ⟨hopen, h3⟩
    rw [sleep_asleep] at hj
    split_ifs at hj
    · cases hj
    · exact absurd rfl (asleep_of_wakeup hawake hj).2
  · cases copy with
    | none => exact hend
    | some ch =>
      -- the pipe was not full, so no writer sleeps
      refine h.of_others (Or.inr hl) (fun j hj => ?_) (fun _ => hl) ?_ ?_ ?_
      · rw [put_pc, if_neg hj, put_asleep]
        exact ⟨rfl, Or.inr rfl⟩
      · intro c hc
        rw [put_asleep, hawake] at hc
        cases hc
      · intro j hj
        rw [put_asleep] at hj
        exact ⟨(h.readers j hj).1, Or.inr ⟨i, n, bs ++ [ch], hl, by rw [put_pc, if_pos rfl]⟩⟩
      · intro j hj
        rw [put_asleep] at hj
        exact absurd (hwriters j hj).2 h3
  · exact hend

theorem Watched.readRound (h : Watched s) {n : ℤ} (hl : s.lock = some i)
    (hpc : (s.procs i).pc = .read n) (killed : Bool) : Watched (s.readRound i n killed) := by
  have hin : (s.procs i).pc.Inside := by
    rw [hpc]
    trivial
  have hreaders : ∀ j, (s.procs j).asleep = some .nread →
      s.pipe.writeopen = true ∧ s.pipe.nread = s.pipe.nwrite := fun j hj =>
    h.readers_of_read hl (by simp [hpc]) hj
  have hwriters : ∀ j, (s.procs j).asleep = some .nwrite → s.pipe.readopen = true ∧ s.pipe.Full :=
    fun j hj => h.writers_of_write hl (by simp [hpc]) hj
  unfold PipeSys.readRound
  split_ifs with h1 h2
  · exact h.leave hl hin hreaders hwriters
  · refine h.sleep hl trivial (fun j _ => ⟨h1.2, h1.1⟩) fun j hj => ?_
    rw [sleep_asleep] at hj
    split_ifs at hj
    · cases hj
    · exact hwriters j hj
  · exact h.goto (Or.inr hl) (h.awake hin) hreaders hwriters

/-- A reader takes a byte: no reader sleeps, and the writers will be woken up. -/
theorem Watched.take (h : Watched s) {n : ℤ} {k : ℕ} (hl : s.lock = some i)
    (hpc : (s.procs i).pc = .readCopy n k) (hne : s.pipe.nread ≠ s.pipe.nwrite) :
    Watched s.takeByte := by
  refine ⟨h.inside, h.asleep, fun j hj => ?_, fun j hj => ?_⟩
  · exact absurd (h.readers_of_read hl (by simp [hpc]) hj).2 hne
  · exact ⟨(h.writers j hj).1, Or.inr ⟨i, n, k, hl, hpc⟩⟩

/-- A reader is done: it wakes up the writers. -/
theorem Watched.copied (h : Watched s) {n : ℤ} {k : ℕ} (hl : s.lock = some i)
    (hpc : (s.procs i).pc = .readCopy n k) : Watched ((s.wakeup i .nwrite).leave i) := by
  have hin : (s.procs i).pc.Inside := by
    rw [hpc]
    trivial
  have hawake := h.awake hin
  refine (h.wakeup hawake .nwrite).leave hl (by rwa [wakeup_pc]) (fun j hj => ?_) fun j hj => ?_
  · exact h.readers_of_read hl (by simp [hpc]) (asleep_of_wakeup hawake hj).1
  · exact absurd rfl (asleep_of_wakeup hawake hj).2

theorem Watched.copyRound (h : Watched s) {n : ℤ} {k : ℕ} (hl : s.lock = some i)
    (hpc : (s.procs i).pc = .readCopy n k) (copy : Bool) : Watched (s.copyRound i n k copy) := by
  have hin : (s.procs i).pc.Inside := by
    rw [hpc]
    trivial
  unfold PipeSys.copyRound
  split_ifs with h1 h2
  · have ht := h.take hl hpc h1.2
    refine ht.of_others (Or.inr hl) (fun j hj => ?_) (fun _ => rfl) ?_ ?_ ?_
    · rw [goto_pc, if_neg hj, goto_asleep]
      exact ⟨rfl, Or.inr rfl⟩
    · intro c hc
      rw [goto_asleep, ht.awake hin] at hc
      cases hc
    · intro j hj
      rw [goto_asleep] at hj
      exact absurd (h.readers_of_read hl (by simp [hpc]) hj).2 h1.2
    · intro j hj
      rw [goto_asleep] at hj
      exact ⟨(h.writers j hj).1, Or.inr ⟨i, n, k + 1, rfl, by rw [goto_pc, if_pos rfl]⟩⟩
  · exact (h.take hl hpc h1.2).copied hl hpc
  · exact h.copied hl hpc

/-- A process that is outside is awake. -/
theorem Watched.awake_of_out (h : Watched s) (hpc : (s.procs i).pc = .out) :
    (s.procs i).asleep = none := by
  cases ha : (s.procs i).asleep with
  | none => rfl
  | some c =>
    have := h.asleep i c ha
    rw [hpc] at this
    exact this.elim

theorem Watched.close (h : Watched s) (hl : s.lock = none) (hpc : (s.procs i).pc = .out)
    (writable : Bool) : Watched (s.close i writable) := by
  have hawake := h.awake_of_out hpc
  have hnone := h.noneForgotten hl
  have hpcs : ∀ j, ((s.close i writable).procs j).pc = (s.procs j).pc := fun j => by
    cases writable
    · exact wakeup_pc j .nwrite
    · exact wakeup_pc j .nread
  have hw : ∀ {j c}, ((s.close i writable).procs j).asleep = some c →
      (s.procs j).asleep = some c ∧ c ≠ if writable then .nread else .nwrite := fun {j c} hj => by
    cases writable
    · exact asleep_of_wakeup hawake (c := .nwrite) hj
    · exact asleep_of_wakeup hawake (c := .nread) hj
  refine ⟨fun j hj => ?_, fun j c hj => ?_, fun j hj => ?_, fun j hj => ?_⟩
  · rw [hpcs] at hj
    rw [← h.inside j hj]
    cases writable <;> rfl
  · rw [hpcs]
    exact h.asleep j c (hw hj).1
  · obtain ⟨hempty, hopen⟩ := hnone.readers j (hw hj).1
    cases writable
    · exact ⟨hopen, Or.inl hempty⟩
    · exact absurd rfl (hw hj).2
  · obtain ⟨hfull, hopen⟩ := hnone.writers j (hw hj).1
    cases writable
    · exact absurd rfl (hw hj).2
    · exact ⟨hopen, Or.inl hfull⟩

theorem kill_pc (j k : ℕ) : ((s.kill j).procs k).pc = (s.procs k).pc := by
  simp only [PipeSys.kill, PipeSys.setProc, Function.update_apply]
  split_ifs with h
  · rw [h]
  · rfl

theorem asleep_of_kill {j k : ℕ} {c : PipeChan} (h : ((s.kill j).procs k).asleep = some c) :
    (s.procs k).asleep = some c := by
  simp only [PipeSys.kill, PipeSys.setProc, Function.update_apply] at h
  split_ifs at h
  exact h

theorem Watched.kill (h : Watched s) (j : ℕ) : Watched (s.kill j) := by
  refine ⟨fun k hk => ?_, fun k c hk => ?_, fun k hk => ?_, fun k hk => ?_⟩
  · rw [kill_pc] at hk
    exact h.inside k hk
  · rw [kill_pc]
    exact h.asleep k c (asleep_of_kill hk)
  · simp only [kill_pc]
    exact h.readers k (asleep_of_kill hk)
  · simp only [kill_pc]
    exact h.writers k (asleep_of_kill hk)

theorem Watched.step (h : Watched s) (hok : WakesReaders s e) (hs : pipeStep e s = some t) :
    Watched t := by
  have hfree : ∀ {i pc}, s.lock = none → (s.procs i).asleep = none → Watched (s.goto i pc) := by
    intro i pc hl ha
    have hnone := h.noneForgotten hl
    exact h.goto (Or.inl hl) ha (fun j hj => (hnone.readers j hj).symm) fun j hj =>
      (hnone.writers j hj).symm
  cases pipeStep_to hs with
  | write hl hpc | read hl hpc => exact hfree hl (h.awake_of_out hpc)
  | writeRound hl hpc => exact h.writeRound hl hpc hok
  | readRound hl hpc => exact h.readRound hl hpc _
  | copyRound hl hpc => exact h.copyRound hl hpc _
  | resumeWrite hl ha | resumeRead hl ha => exact hfree hl ha
  | close hl hpc => exact h.close hl hpc _
  | kill => exact h.kill _

/-- The early return leaves the readers it did not wake up. -/
theorem wakesReaders_of_noneForgotten (hs : pipeStep e s = some t) (ht : NoneForgotten t) :
    WakesReaders s e := by
  rintro i killed copy n bs rfl hpc hlt hret hne j hj
  cases pipeStep_to hs with
  | readRound _ hpc' | copyRound _ hpc' =>
    rw [hpc] at hpc'
    cases hpc'
  | writeRound hl' hpc' =>
    rw [hpc] at hpc'
    cases hpc'
    have heq : s.writeRound i n bs killed copy = s.leave i := by
      unfold PipeSys.writeRound
      rw [if_pos hlt, if_pos hret]
    rw [heq] at ht
    refine hne (ht.readers j ?_).1
    rwa [leave_asleep]

end Sleepers

/-- **Who sleeps on a pipe has reason to, but for one early return.**  As long as no writer returns
-1 while a reader sleeps on a pipe that is not empty: whenever the lock is free, nobody sleeps on
`&pi->nread` unless the pipe is empty and its write end open, and nobody sleeps on `&pi->nwrite`
unless the pipe is full and its read end open.  The first such return breaks this. -/
theorem no_sleeper_forgotten {data : ℕ → Byte} {killed : ℕ → Bool} {s : PipeSys}
    (h : Reach pipeStep WakesReaders (newPipe data killed) s) :
    (s.lock = none → NoneForgotten s) ∧
      ∀ e t, pipeStep e s = some t → t.lock = none → (NoneForgotten t ↔ WakesReaders s e) := by
  have h0 : Watched (newPipe data killed) :=
    ⟨fun _ hj => hj.elim, fun _ _ hj => (nomatch hj), fun _ hj => (nomatch hj),
      fun _ hj => (nomatch hj)⟩
  have hs := h.invariant h0 fun _ _ _ hI hok hst => hI.step hok hst
  exact ⟨hs.noneForgotten, fun e t hst hl =>
    ⟨wakesReaders_of_noneForgotten hst, fun hok => (hs.step hok hst).noneForgotten hl⟩⟩

/-- A reader that has gone to sleep on the empty pipe. -/
theorem no_sleeper_forgotten_reader :
    ∃ s, Reach pipeStep WakesReaders (newPipe (fun _ => 0) fun _ => false) s ∧ s.lock = none ∧
      (s.procs 1).asleep = some .nread ∧ NoneForgotten s := by
  have h1 : Reach pipeStep WakesReaders (newPipe (fun _ => 0) fun _ => false) _ :=
    Reach.refl.tail (e := .read 1 1) (fun _ _ _ _ _ he => nomatch he) rfl
  have h2 : Reach pipeStep WakesReaders (newPipe (fun _ => 0) fun _ => false) _ :=
    h1.tail (e := .round 1 false none) (fun i killed copy n bs he hpc => by cases he; cases hpc) rfl
  exact ⟨_, h2, rfl, rfl, (no_sleeper_forgotten h2).1 rfl⟩

/-- A reader sleeps on the empty pipe; a writer puts in one byte of two and is killed. -/
def killedWriter : List PipeEvent :=
  [.read 1 1, .round 1 false none, .write 0 2, .round 0 false (some 7), .kill 0, .round 0 true none]

/-- The writer is gone, the reader sleeps, and there is a byte in the pipe. -/
theorem killed_writer_forgets_reader :
    ∃ s, Reach pipeStep (fun _ _ => True) (newPipe (fun _ => 0) fun _ => false) s ∧
      s.lock = none ∧ (s.procs 1).asleep = some .nread ∧ s.pipe.nread ≠ s.pipe.nwrite := by
  have hrun : (runs pipeStep killedWriter (newPipe (fun _ => 0) fun _ => false)).map
      (fun s => (s.lock, (s.procs 1).asleep, s.pipe.nread, s.pipe.nwrite)) =
        some (none, some .nread, 0, 1) := by decide +kernel
  obtain ⟨s, hs, hst⟩ := Option.map_eq_some_iff.1 hrun
  simp only [Prod.mk.injEq] at hst
  obtain ⟨hlock, hasleep, hread, hwrite⟩ := hst
  refine ⟨s, reach_of_runs (fun _ _ _ => trivial) hs, hlock, hasleep, ?_⟩
  rw [hread, hwrite]
  decide

end Xv6
