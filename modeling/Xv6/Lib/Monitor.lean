import Xv6.Lib.Run

/-!
# Monitors with `sleep` and `wakeup`

A spinlock guards a state `σ`.  A process takes it for a call `k : κ`, and `body p k` says what it
does: leave, with or without a `wakeup`, or sleep.  `sleep` takes a lock of the process before it
gives the spinlock back, and keeps it until the process is marked as sleeping; `wakeup` takes the
locks of the processes `0, …, N - 1` one after the other.  A process that was woken tries again from
the start.
-/

namespace Monitor

open Run Function

variable {κ σ : Type*}

inductive Outcome (σ : Type*)
  | leave (x : σ) (wake : Bool)
  | sleep

/-- Where a process is: outside; before the spinlock; with it; in `sleep` with both locks, with its
own, marked; in `wakeup` before process `n`. -/
inductive Pc (κ : Type*)
  | out
  | want (k : κ)
  | hold (k : κ)
  | both (k : κ)
  | own (k : κ)
  | asleep (k : κ)
  | waking (n : ℕ)
  deriving DecidableEq

/-- The call in which a process sleeps or is about to. -/
@[grind]
def Pc.sleeping : Pc κ → Option κ
  | .both k | .own k | .asleep k => some k
  | _ => none

/-- The process has the spinlock. -/
@[grind]
def Pc.inside : Pc κ → Bool
  | .hold _ | .both _ | .waking _ => true
  | _ => false

/-- What `wakeup` does to a process, once it has the lock of the process. -/
def Pc.woken : Pc κ → Option (Pc κ)
  | .both _ | .own _ => none
  | .asleep k => some (.want k)
  | pc => some pc

structure Sys (κ σ : Type*) where
  state : σ
  lock : Option ℕ
  pc : ℕ → Pc κ

inductive Event (κ : Type*)
  | call (p : ℕ) (k : κ)
  | go (p : ℕ)
  | kill (p : ℕ)

variable (N : ℕ) (body : ℕ → κ → σ → Outcome σ)

/-- One event; `go p` is the next step of `p`. -/
def step : Event κ → Sys κ σ → Option (Sys κ σ)
  | .call p k, s =>
    match s.pc p with
    | .out => some { s with pc := update s.pc p (.want k) }
    | _ => none
  | .kill p, s =>
    match s.pc p with
    | .asleep k => some { s with pc := update s.pc p (.want k) }
    | _ => none
  | .go p, s =>
    match s.pc p with
    | .out | .asleep _ => none
    | .want k =>
      if s.lock = none then some { s with lock := some p, pc := update s.pc p (.hold k) } else none
    | .hold k =>
      match body p k s.state with
      | .sleep => some { s with pc := update s.pc p (.both k) }
      | .leave x true => some { s with state := x, pc := update s.pc p (.waking 0) }
      | .leave x false => some ⟨x, none, update s.pc p .out⟩
    | .both k => some { s with lock := none, pc := update s.pc p (.own k) }
    | .own k => some { s with pc := update s.pc p (.asleep k) }
    | .waking n =>
      if N ≤ n then some { s with lock := none, pc := update s.pc p .out }
      else (s.pc n).woken.map fun pc =>
        { s with pc := update (update s.pc n pc) p (.waking (n + 1)) }

/-- A call is executed only where `pre` holds. -/
def Allowed (pre : ℕ → κ → σ → Prop) (s : Sys κ σ) : Event κ → Prop
  | .go p => ∀ k, s.pc p = .hold k → pre p k s.state
  | _ => True

instance (pre : ℕ → κ → σ → Prop) [∀ p k x, Decidable (pre p k x)] (s : Sys κ σ) :
    DecidablePred (Allowed pre s)
  | .go p =>
    match h : s.pc p with
    | .hold k => decidable_of_iff (pre p k s.state) (by simp [Allowed, h])
    | .out | .want _ | .both _ | .own _ | .asleep _ | .waking _ => isTrue (by simp [Allowed, h])
  | .call .. | .kill .. => isTrue trivial

/-- Calls keep `J`, and those that leave without a `wakeup` let no sleeper go on. -/
structure Spec (pre : ℕ → κ → σ → Prop) (J : σ → Prop) : Prop where
  leave : ∀ {p k x y w}, J x → pre p k x → body p k x = .leave y w → J y
  quiet : ∀ {p k x y}, J x → pre p k x → body p k x = .leave y false →
    ∀ q k', body q k' x = .sleep → body q k' y = .sleep

attribute [local grind =] update_apply

/-- Somebody is in `wakeup` and has yet to come to process `p`. -/
def Waking (pc : ℕ → Pc κ) (p : ℕ) : Prop := ∃ q n, pc q = .waking n ∧ n ≤ p

structure Inv (J : σ → Prop) (s : Sys κ σ) : Prop where
  state : J s.state
  lock : ∀ p, s.lock = some p ↔ (s.pc p).inside = true
  asleep : ∀ p < N, ∀ k, (s.pc p).sleeping = some k → body p k s.state = .sleep ∨ Waking s.pc p

variable {N body} {pre : ℕ → κ → σ → Prop} {J : σ → Prop} {s t : Sys κ σ} {p n : ℕ}

/-- The state changes only when a call leaves. -/
theorem state_step {e : Event κ} (hs : step N body e s = some t) : t.state = s.state ∨
    ∃ p k w, e = .go p ∧ s.pc p = .hold k ∧ body p k s.state = .leave t.state w := by
  cases e with
  | go p => grind [step, Option.map_eq_some_iff]
  | _ => grind [step]

namespace Inv

/-- Only one process is inside. -/
theorem unique (h : Inv N body J s) {q : ℕ} (hp : (s.pc p).inside = true)
    (hq : (s.pc q).inside = true) : p = q := by
  have := h.lock p
  have := h.lock q
  grind

/-- A process that is not in `wakeup` moves, and the state stays. -/
theorem move (h : Inv N body J s) {pc : Pc κ} {l : Option ℕ} (hp : ∀ n, s.pc p ≠ .waking n)
    (hlock : ∀ q, l = some q ↔ (update s.pc p pc q).inside = true)
    (hsleep : ∀ k, pc.sleeping = some k → body p k s.state = .sleep ∨ (s.pc p).sleeping = some k) :
    Inv N body J ⟨s.state, l, update s.pc p pc⟩ := by
  refine ⟨h.state, hlock, fun q hq k hk => ?_⟩
  have hwas : body q k s.state = .sleep ∨ (s.pc q).sleeping = some k := by
    by_cases hqp : q = p
    · subst hqp
      exact hsleep k (by simpa using hk)
    · exact Or.inr (by simpa [hqp] using hk)
  refine hwas.elim Or.inl fun hk => (h.asleep q hq k hk).imp_right ?_
  rintro ⟨r, m, hr, hm⟩
  exact ⟨r, m, by grind, hm⟩

/-- A process leaves without a `wakeup`, or after it. -/
theorem leave {x : σ} (h : Inv N body J s) (hx : J x) (hp : (s.pc p).inside = true)
    (hquiet : ∀ q k, body q k s.state = .sleep → body q k x = .sleep)
    (hn : ∀ n, s.pc p = .waking n → N ≤ n) : Inv N body J ⟨x, none, update s.pc p .out⟩ := by
  refine ⟨hx, fun q => ?_, fun q hq k hk => ?_⟩
  · have := fun hq => h.unique (q := q) hp hq
    grind
  · have hqp : q ≠ p := by grind
    refine Or.inl (hquiet q k ((h.asleep q hq k (by simpa [hqp] using hk)).resolve_right ?_))
    rintro ⟨r, m, hr, hm⟩
    obtain rfl := h.unique (q := r) hp (by rw [hr]; rfl)
    have := hn m hr
    omega

/-- One process is woken. -/
theorem wake {pc : Pc κ} (h : Inv N body J s) (hp : s.pc p = .waking n)
    (hn : (s.pc n).woken = some pc) :
    Inv N body J { s with pc := update (update s.pc n pc) p (.waking (n + 1)) } := by
  have hpc : pc.inside = (s.pc n).inside ∧ pc.sleeping = none := by
    cases hs : s.pc n <;> grind [Pc.woken]
  refine ⟨h.state, fun q => ?_, fun q hq k hk => ?_⟩
  · have := h.lock q
    grind
  · have hq' : q ≠ p ∧ q ≠ n := by grind
    refine (h.asleep q hq k (by simpa [hq'] using hk)).imp_right ?_
    rintro ⟨r, m, hr, hm⟩
    obtain rfl := h.unique (p := p) (q := r) (by rw [hp]; rfl) (by rw [hr]; rfl)
    exact ⟨p, n + 1, update_self .., by grind⟩

theorem go (h : Inv N body J s) (hspec : Spec body pre J) (hok : Allowed pre s (.go p))
    (hs : step N body (.go p) s = some t) : Inv N body J t := by
  have hlock := h.lock
  simp only [Monitor.step] at hs
  split at hs
  · cases hs
  · cases hs
  · split_ifs at hs
    cases hs
    refine h.move ?_ ?_ ?_ <;> grind
  · rename_i k hk
    split at hs <;> rename_i hb <;> cases hs
    · refine h.move ?_ ?_ ?_ <;> grind
    · refine ⟨hspec.leave h.state (hok k hk) hb, ?_, fun q _ _ _ => Or.inr
        ⟨p, 0, update_self .., q.zero_le⟩⟩
      grind
    · exact h.leave (hspec.leave h.state (hok k hk) hb) (by rw [hk]; rfl)
        (hspec.quiet h.state (hok k hk) hb) (by grind)
  · cases hs
    refine h.move ?_ ?_ ?_ <;> grind
  · cases hs
    refine h.move ?_ ?_ ?_ <;> grind
  · rename_i n hn
    split_ifs at hs with hN
    · cases hs
      exact h.leave h.state (by rw [hn]; rfl) (fun _ _ hb => hb) (by grind)
    · obtain ⟨pc, hpc, rfl⟩ := Option.map_eq_some_iff.1 hs
      exact h.wake hn hpc

theorem step {e : Event κ} (h : Inv N body J s) (hspec : Spec body pre J) (hok : Allowed pre s e)
    (hs : step N body e s = some t) : Inv N body J t := by
  have hlock := h.lock
  cases e with
  | go p => exact h.go hspec hok hs
  | call p k =>
    simp only [Monitor.step] at hs
    split at hs <;> cases hs
    refine h.move ?_ ?_ ?_ <;> grind
  | kill p =>
    simp only [Monitor.step] at hs
    split at hs <;> cases hs
    refine h.move ?_ ?_ ?_ <;> grind

/-- While the lock is free, a process that sleeps would sleep again. -/
theorem blocked (h : Inv N body J s) (hfree : s.lock = none) {k : κ} (hp : p < N)
    (hk : s.pc p = .asleep k) : body p k s.state = .sleep := by
  refine (h.asleep p hp k (by rw [hk]; rfl)).resolve_right ?_
  rintro ⟨q, n, hq, -⟩
  have := (h.lock q).2 (by rw [hq]; rfl)
  simp [hfree] at this

end Inv

/-- The invariant of all runs from a monitor without processes. -/
theorem inv_of_reach (hspec : Spec body pre J) {x : σ} (hx : J x)
    (h : Reach (step N body) (Allowed pre) ⟨x, none, fun _ => .out⟩ s) : Inv N body J s :=
  h.invariant ⟨hx, by simp [Pc.inside], by simp [Pc.sleeping]⟩ fun _ _ _ hI hok hs =>
    hI.step hspec hok hs

end Monitor
