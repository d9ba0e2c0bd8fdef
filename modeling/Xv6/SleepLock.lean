import Xv6.Param
import Xv6.Riscv
import Xv6.Lib.Monitor

/-!
# Sleep locks

`kernel/sleeplock.c`, with `sleep` and `wakeup` of `kernel/proc.c` at their locking points: the
spinlock `lk->lk` guards a `struct sleeplock`, and any number of its calls run at once.
-/

namespace Xv6

open Monitor Run

/-- `struct sleeplock`; the process that has the lock is kept beside the code. -/
structure SleepLock where
  locked : Bool
  pid : U32
  owner : Option ℕ

inductive SleepCall
  | acquiresleep
  | releasesleep
  | holdingsleep
  deriving DecidableEq

namespace SleepLock

def initsleeplock : SleepLock := ⟨false, 0, none⟩

/-- What `holdingsleep` returns to the process with `pid`. -/
def holdingsleep (lk : SleepLock) (pid : U32) : Bool := lk.locked && lk.pid == pid

variable (pid : ℕ → U32)

/-- The calls, under `lk->lk`. -/
def body (p : ℕ) : SleepCall → SleepLock → Outcome SleepLock
  | .acquiresleep, lk => if lk.locked then .sleep else .leave ⟨true, pid p, some p⟩ false
  | .releasesleep, _ => .leave ⟨false, 0, none⟩ true
  | .holdingsleep, lk => .leave lk false

/-- Only the owner releases the lock. -/
def Pre (p : ℕ) (k : SleepCall) (lk : SleepLock) : Prop :=
  p < NPROC ∧ (k = .releasesleep → lk.owner = some p)

instance (p : ℕ) (k : SleepCall) (lk : SleepLock) : Decidable (Pre p k lk) :=
  inferInstanceAs (Decidable (p < NPROC ∧ (k = .releasesleep → lk.owner = some p)))

/-- The fields tell the owner. -/
def Ok (lk : SleepLock) : Prop :=
  (lk.locked = true ↔ lk.owner ≠ none) ∧ ∀ p, lk.owner = some p → p < NPROC ∧ lk.pid = pid p

variable {pid}

theorem body_eq_sleep {p : ℕ} {k : SleepCall} {lk : SleepLock} :
    body pid p k lk = .sleep ↔ k = .acquiresleep ∧ lk.locked = true := by
  cases k <;> simp [body]

/-- What is reached from `initsleeplock`. -/
def Reachable (pid : ℕ → U32) : Sys SleepCall SleepLock → Prop :=
  Reach (step NPROC (body pid)) (Allowed Pre) ⟨initsleeplock, none, fun _ => .out⟩

theorem spec : Spec (body pid) Pre (Ok pid) := by
  refine ⟨fun {p k x y w} hx hp hb => ?_, fun {p k x y} hx hp hb q k' hq => ?_⟩
  · cases k <;> simp only [body] at hb <;> grind [Ok, Pre]
  · rw [body_eq_sleep] at hq ⊢
    cases k <;> simp only [body] at hb <;> grind

/-- **Sleep locks exclude, and nobody is forgotten.**  In any interleaving of the calls, if only the
owner releases the lock: the fields tell the owner, and so does `holdingsleep`; it stays the owner
until it executes `releasesleep`; and while the spinlock is free, only calls of `acquiresleep`
sleep, and only if the lock is taken. -/
theorem sleeplock_excludes (hpid : ∀ p < NPROC, ∀ q < NPROC, pid p = pid q → p = q)
    {s : Sys SleepCall SleepLock} (h : Reachable pid s) :
    (s.state.locked = true ↔ s.state.owner ≠ none) ∧
    (∀ p < NPROC, s.state.holdingsleep (pid p) = true ↔ s.state.owner = some p) ∧
    (∀ p e t, s.state.owner = some p → Allowed Pre s e →
      step NPROC (body pid) e s = some t →
      t.state.owner = some p ∨ e = .go p ∧ s.pc p = .hold .releasesleep) ∧
    (s.lock = none → ∀ p < NPROC, ∀ k, s.pc p = .asleep k →
      k = .acquiresleep ∧ s.state.locked = true) := by
  have hI := inv_of_reach spec (by simp [Ok, initsleeplock]) h
  obtain ⟨hlocked, hpids⟩ := hI.state
  refine ⟨hlocked, fun p hp => ?_, fun p e t hp hok hs => ?_,
    fun hfree p hp k hk => body_eq_sleep.1 (hI.blocked hfree hp hk)⟩
  · rw [holdingsleep, Bool.and_eq_true, hlocked, beq_iff_eq]
    constructor
    · rintro ⟨hne, he⟩
      obtain ⟨q, hq⟩ := Option.ne_none_iff_exists'.1 hne
      rw [hq, hpid q (hpids q hq).1 p hp ((hpids q hq).2.symm.trans he)]
    · exact fun ho => ⟨by simp [ho], (hpids p ho).2⟩
  · rcases state_step hs with hst | ⟨q, k, w, rfl, hq, hb⟩
    · exact Or.inl (hst ▸ hp)
    · have hpre := hok k hq
      cases k <;> simp only [body] at hb <;> grind [Pre]

/-- Process 0 takes the lock, and process 1 goes to sleep. -/
def sleepRun : List (Event SleepCall) :=
  [.call 0 .acquiresleep, .go 0, .go 0, .call 1 .acquiresleep, .go 1, .go 1, .go 1, .go 1]

/-- Process 0 releases the lock and wakes process 1, which takes it. -/
def wakeRun : List (Event SleepCall) :=
  [.call 0 .releasesleep, .go 0, .go 0] ++ List.replicate (NPROC + 1) (.go 0) ++ [.go 1, .go 1]

theorem sleeplock_excludes_two : ∃ s t, Reachable (BitVec.ofNat 32) s ∧
    runsOk (step NPROC (body (BitVec.ofNat 32))) (Allowed Pre) wakeRun s = some t ∧
    (s.state.owner = some 0 ∧ s.pc 1 = .asleep .acquiresleep ∧ s.state.locked = true) ∧
    t.state.owner = some 1 ∧ t.state.holdingsleep 1 = true ∧ t.state.holdingsleep 0 ≠ true := by
  have hrun : (runsOk (step NPROC (body (BitVec.ofNat 32))) (Allowed Pre) sleepRun
      ⟨initsleeplock, none, fun _ => .out⟩).map (fun s => decide (
        (s.state.owner = some 0 ∧ s.lock = none ∧ s.pc 1 = .asleep .acquiresleep) ∧
        (runsOk (step NPROC (body (BitVec.ofNat 32))) (Allowed Pre) wakeRun s).map
          (fun t => t.state.owner) = some (some 1))) = some true := by
    decide +kernel
  obtain ⟨s, hs, hfacts⟩ := Option.map_eq_some_iff.1 hrun
  obtain ⟨⟨howner, hlock, hpc⟩, hwake⟩ := of_decide_eq_true hfacts
  obtain ⟨t, ht, howner'⟩ := Option.map_eq_some_iff.1 hwake
  have hreach : Reachable (BitVec.ofNat 32) s := reach_of_runsOk hs
  have hreach' : Reachable (BitVec.ofNat 32) t := Reach.runsOk hreach ht
  have hpid : ∀ p < NPROC, ∀ q < NPROC, BitVec.ofNat 32 p = BitVec.ofNat 32 q → p = q := by
    decide +kernel
  obtain ⟨-, -, -, hsleep⟩ := sleeplock_excludes hpid hreach
  obtain ⟨-, hholds, -, -⟩ := sleeplock_excludes hpid hreach'
  refine ⟨s, t, hreach, ht, ⟨howner, hpc, (hsleep hlock 1 (by decide) _ hpc).2⟩, howner',
    (hholds 1 (by decide)).2 howner', fun h0 => ?_⟩
  have h01 := (hholds 0 (by decide)).1 h0
  rw [howner'] at h01
  cases h01

end SleepLock

end Xv6
