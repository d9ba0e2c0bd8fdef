import Xv6.Death

/-!
# Transactions inside transactions

A thread that calls `begin_op` before the `end_op` of its own last one may sleep for a commit that
its open operation holds up.  Two places of the kernel can do it: `exec` frees a half-built address
space at `bad` while its transaction is open, and `vmafree` starts another one for the inode of
every segment that was mapped (`exec_nests_transaction`); and `kerneltrap` may enter `exit`
anywhere.

In every run without these two, `begin_op` is called only where no operation of the thread is open
(`begin_op_never_nested`).
-/

namespace Xv6.Thread

open Abortable Run

/-- A vma is unmapped only where no transaction is open. -/
def UnmapsOutside (p : P) (s : St) : Prop := p = uvmUnmap → s.res.depth = 0

/-- Like `Act.eff`, but `begin_op` must find no transaction open. -/
def flatEff : Act → Res → Option Res
  | .beginOp, r => if r.depth = 0 then some { r with depth := 1 } else none
  | a, r => a.eff r

/-- The kernel thread, with `begin_op` as the only action to watch. -/
def flatSem : Sem Act St := { sem with safe := fun a s => a = .beginOp → s.res.depth = 0 }

/-- The guard of the analysis. -/
def unmapsOutside (p : P) (r : Res) : Bool := decide (p = uvmUnmap → r.depth = 0)

/-- No path through `usertrap` starts a transaction inside another. -/
theorem flat_usertrap :
    effectIf unmapsOutside flatEff (some idle) usertrap idle = .held idle := by
  decide +kernel

theorem flat_exit : effectIf unmapsOutside flatEff none exit idle = .never := by
  decide +kernel

theorem flatEff_spec (a : Act) (s : St) (r : Res) (h : flatEff a s.res = some r) :
    flatSem.safe a s ∧ ∀ s', flatSem.exec a s = some s' → True ∧ s'.res = r := by
  cases a with
  | beginOp =>
    simp only [flatEff] at h
    split_ifs at h with hd
    cases h
    refine ⟨fun _ => hd, fun s' hs' => ⟨trivial, ?_⟩⟩
    cases hs'
    simp [hd]
  | isFd fd b =>
    refine ⟨by rintro ⟨⟩, fun s' hs' => ⟨trivial, ?_⟩⟩
    simp only [flatSem, sem, Act.exec] at hs'
    split_ifs at hs'
    cases hs'
    exact Option.some.inj h
  | intrOn | intrOff | setFd fd b | closing fd | zombie =>
    refine ⟨by rintro ⟨⟩, fun s' hs' => ⟨trivial, ?_⟩⟩
    cases hs'
    exact Option.some.inj h
  | _ =>
    refine ⟨by rintro ⟨⟩, fun s' hs' => ⟨trivial, ?_⟩⟩
    simp only [flatSem, sem, Act.exec, Option.map_eq_some_iff] at hs'
    obtain ⟨r', hr', rfl⟩ := hs'
    exact Option.some.inj (hr'.symm.trans h)

/-- The rest of a program that may be run, and leaves for `exit` only where `A` holds. -/
abbrev Runs (A : St → Prop) (k : List P) (s : St) : Prop :=
  wpStackIf flatSem UnmapsOutside A k (fun _ => True) s

/-- `exit` may be entered. -/
def MayEnter (s : St) : Prop := Runs (fun _ => False) [exit] (sem.enter s)

theorem mayEnter_of_idle {s : St} (hr : s.res = idle) : MayEnter s := by
  have hsound := effectIf_sound (S := flatSem) (A := fun _ => False) (F := fun _ => True)
    (G := UnmapsOutside) (g := unmapsOutside) (fun p t _ hG => decide_eq_true hG)
    (fun a t r _ => flatEff_spec a t r) (fun t _ (h : some t.res = none) => by cases h) exit
    (s := sem.enter s) trivial (by change effectIf _ _ _ _ s.res ≠ _; rw [hr, flat_exit]; simp)
  exact wp_mono (fun _ _ => trivial) hsound

/-- The invariant of a run. -/
def FlatRun (c : Config Act St) : Prop :=
  Runs MayEnter c.stack c.state ∨ Runs (fun _ => False) c.stack c.state

theorem flatRun_start (ofile : Fin NOFILE → Bool) : FlatRun (start ofile) := by
  refine Or.inl ⟨fun s => s.res = idle, rfl, fun s hr => ⟨fun _ => ?_, trivial⟩⟩
  have hsound := effectIf_sound (S := flatSem) (A := MayEnter) (F := fun _ => True)
    (G := UnmapsOutside) (g := unmapsOutside) (fun p t _ hG => decide_eq_true hG)
    (fun a t r _ => flatEff_spec a t r) (fun t _ h => mayEnter_of_idle (Option.some.inj h)) usertrap
    (s := s) trivial (by rw [hr, flat_usertrap]; simp)
  refine wp_mono (fun t ht => ?_) hsound
  have hheld := ht.2
  change Outcome.Allows (effectIf _ _ _ _ s.res) _ at hheld
  rw [hr, flat_usertrap] at hheld
  exact (Outcome.held.inj hheld).symm

/-- An interrupt in kernel mode does not find the process killed, and no vma is unmapped inside a
transaction. -/
def FlatStep (c : Config Act St) (e : Event) : Prop :=
  (e = .trap → c.flag = false) ∧
    (e = .run true → c.stack.head? = some (.loop uvmUnmap) → c.state.res.depth = 0)

instance (c : Config Act St) (e : Event) : Decidable (FlatStep c e) := by
  unfold FlatStep
  infer_instance

theorem flatRun_step {c c' : Config Act St} {e : Event} (hc : FlatRun c) (hok : FlatStep c e)
    (hs : step sem e c = some c') : FlatRun c' := by
  unfold step at hs
  by_cases hz : sem.final c.state
  · simp [hz] at hs
  simp only [hz] at hs
  cases e with
  | run b =>
    have hG : ∀ p k, c.stack = .loop p :: k → b = true → UnmapsOutside p c.state := by
      rintro p k hk rfl rfl
      exact hok.2 rfl (by rw [hk]; rfl)
    rcases hc with h | h
    · rcases wpStackIf_runStep h hG hs with h' | ⟨hA, rfl⟩
      · exact Or.inl h'
      · exact Or.inr hA
    · rcases wpStackIf_runStep h hG hs with h' | ⟨hA, -⟩
      · exact Or.inr h'
      · exact hA.elim
  | signal =>
    cases hs
    exact hc
  | trap =>
    by_cases hm : sem.masked c.state
    · simp [hm] at hs
    · simp only [hm, hok.1 rfl] at hs
      cases hs
      exact hc

/-- **No process waits for its own transaction**: in every run in which no kernel-mode interrupt
finds `p->killed` set and no vma is unmapped while a transaction of the thread is open, `begin_op`
is called only where none is. -/
theorem begin_op_never_nested {ofile : Fin NOFILE → Bool} {c : Config Act St}
    (h : Reach (step sem) FlatStep (start ofile) c) {k : List P}
    (hk : c.stack = .act .beginOp :: k) : c.state.res.depth = 0 := by
  have hrun := h.invariant (flatRun_start ofile) fun _ _ _ => flatRun_step
  rcases hrun with hr | hr <;> exact safe_of_wpStack hr hk rfl

/-- A process calls `open` and gets to `begin_op`. -/
theorem begin_op_never_nested_open :
    ∃ c k, Reach (step sem) FlatStep (start fun _ => false) c ∧
      c.stack = .act .beginOp :: k ∧ c.state.res.depth = 0 := by
  have hrun : (runsOk (step sem) FlatStep (yes 7 ++ no 13 ++ yes 2 ++ no 2 ++ yes 1)
      (start fun _ => false)).map (fun c => c.stack.head?) = some (some (.act .beginOp)) := by
    decide +kernel
  obtain ⟨c, hc, hp⟩ := Option.map_eq_some_iff.1 hrun
  obtain ⟨k, hk⟩ := List.head?_eq_some_iff.1 hp
  exact ⟨c, k, reach_of_runsOk hc, hk, begin_op_never_nested (reach_of_runsOk hc) hk⟩

/-! ### The transaction `exec` nests -/

/-- A process executes a file whose second program header is bad. -/
def execFails : List Event :=
  -- `usertrap`, `sys_exec` and its arguments
  yes 7 ++ no 7 ++ yes 2 ++ no 1 ++ yes 3 ++ no 4 ++
  -- `begin_op`, `namex` with one directory to look in
  yes 28 ++ no 1 ++ yes 13 ++ no 1 ++ yes 2 ++ no 2 ++ yes 17 ++ no 1 ++ yes 2 ++ no 1 ++
  -- the inode is locked, the ELF header and two program headers are read
  yes 10 ++ no 1 ++ yes 13 ++ no 1 ++ yes 1 ++ no 1 ++ yes 13 ++ no 1 ++ yes 1 ++ no 1 ++ yes 13 ++
  -- `bad`: `uvm_free` unmaps the first segment, and `vmafree` is to drop its inode
  no 2 ++ yes 13 ++ no 1 ++ yes 1 ++ no 1 ++ yes 1

/-- **A failing `exec` begins a transaction inside its own**: the run is possible without any
interrupt, and ends at a `begin_op` with an operation open. -/
theorem exec_nests_transaction :
    ∃ c k, Reach (step sem) (fun _ e => e ≠ .trap) (start fun _ => false) c ∧
      c.stack = .act .beginOp :: k ∧ c.state.res.depth = 1 := by
  have hrun : (runs (step sem) execFails (start fun _ => false)).map
      (fun c => (c.stack.head?, c.state.res.depth)) = some (some (.act .beginOp), 1) := by
    decide +kernel
  obtain ⟨c, hc, hp⟩ := Option.map_eq_some_iff.1 hrun
  simp only [Prod.mk.injEq, List.head?_eq_some_iff] at hp
  obtain ⟨⟨k, hk⟩, hd⟩ := hp
  have hfree : ∀ e ∈ execFails, e ≠ .trap := by decide +kernel
  have hreach : Reach (step sem) (fun _ e => e ≠ .trap) (start fun _ => false) c :=
    reach_of_runs (fun e he _ => hfree e he) hc
  exact ⟨c, k, hreach, hk, hd⟩

end Xv6.Thread
