import Xv6.Lib.Run

/-!
# Programs that can be aborted from outside

A small language of nondeterministic programs over atomic actions, run by a machine with a flag
that can be raised at any time.  A program gives way to its abort handler in three places: where
it says so (`abort`), where it polls a raised flag (`poll`), and at a trap, taken between any two
actions unless the state masks it, that finds the flag raised.

`wp A p Q` is the weakest precondition of `p` for the postcondition `Q` when `A` has to hold at
every point where `p` aborts by itself; `wpStack_runStep` says that the machine keeps it, except at
a trap.  `effect` is an executable analysis of programs that use resources in brackets,
and `effect_sound` derives the weakest precondition from it.  Both come in a second form
(`wpIf`, `effectIf`) for runs in which a loop goes round only in the states that `G` allows.
-/

namespace Abortable

/-- Programs over the actions `α`. -/
inductive Prog (α : Type*)
  | skip
  | act (a : α)
  | seq (p q : Prog α)
  | choice (p q : Prog α)
  | loop (p : Prog α)
  | panic
  | poll
  | abort
  deriving DecidableEq

namespace Prog

variable {α : Type*}

/-- The programs of a list, one after another. -/
def block : List (Prog α) → Prog α
  | [] => skip
  | [p] => p
  | p :: ps => seq p (block ps)

/-- Any one of the programs of a list. -/
def anyOf : List (Prog α) → Prog α
  | [] => panic
  | [p] => p
  | p :: ps => choice p (anyOf ps)

/-- A program that may be left out. -/
def opt (p : Prog α) : Prog α := choice skip p

end Prog

/-- What the machine runs on: the effect of an action (`none` when it is not enabled), what has
to hold when it is taken, the abort handler, the change of state on entering it, whether the state
masks traps, the change of state on taking one, and whether the state is final. -/
structure Sem (α σ : Type*) where
  exec : α → σ → Option σ
  safe : α → σ → Prop
  handler : Prog α
  enter : σ → σ
  masked : σ → Bool
  trapped : σ → σ
  final : σ → Bool

/-- A machine configuration: the programs still to run, the state, the flag. -/
structure Config (α σ : Type*) where
  stack : List (Prog α)
  state : σ
  flag : Bool

/-- An event: the program takes its next step (`b` resolves its choices), the flag is raised, or
a trap is taken. -/
inductive Event
  | run (b : Bool)
  | signal
  | trap
  deriving DecidableEq

variable {α σ : Type*} (S : Sem α σ)

/-- Drop everything and run the handler from the state `s`. -/
def Config.toHandler (c : Config α σ) (s : σ) : Config α σ :=
  { c with stack := [S.handler], state := S.enter s }

/-- The next step of the program on top of the stack. -/
def runStep (b : Bool) (c : Config α σ) : Option (Config α σ) :=
  match c.stack with
  | [] => none
  | .skip :: k => some { c with stack := k }
  | .act a :: k => (S.exec a c.state).map fun s => { c with stack := k, state := s }
  | .seq p q :: k => some { c with stack := p :: q :: k }
  | .choice p q :: k => some { c with stack := (if b then p else q) :: k }
  | .loop p :: k => some { c with stack := if b then p :: .loop p :: k else k }
  | .panic :: _ => none
  | .poll :: k => some (if c.flag then c.toHandler S c.state else { c with stack := k })
  | .abort :: _ => some (c.toHandler S c.state)

/-- One event.  Nothing happens in a final state. -/
def step (e : Event) (c : Config α σ) : Option (Config α σ) :=
  if S.final c.state then none
  else
    match e with
    | .run b => runStep S b c
    | .signal => some { c with flag := true }
    | .trap =>
      if S.masked c.state then none
      else some (if c.flag then c.toHandler S (S.trapped c.state) else c)

/-! ### Weakest preconditions -/

/-- The weakest precondition of `p` for `Q`, when `A` has to hold wherever `p` aborts, and a loop
goes round only where `G` allows it. -/
def wpIf (G : Prog α → σ → Prop) (A : σ → Prop) : Prog α → (σ → Prop) → σ → Prop
  | .skip, Q => Q
  | .act a, Q => fun s => S.safe a s ∧ ∀ s', S.exec a s = some s' → Q s'
  | .seq p q, Q => wpIf G A p (wpIf G A q Q)
  | .choice p q, Q => fun s => wpIf G A p Q s ∧ wpIf G A q Q s
  | .loop p, Q => fun s => ∃ I : σ → Prop, I s ∧ ∀ t, I t → (G p t → wpIf G A p I t) ∧ Q t
  | .panic, _ => fun _ => True
  | .poll, Q => fun s => A s ∧ Q s
  | .abort, _ => A

/-- The weakest precondition of a stack of programs. -/
def wpStackIf (G : Prog α → σ → Prop) (A : σ → Prop) : List (Prog α) → (σ → Prop) → σ → Prop
  | [], Q => Q
  | p :: k, Q => wpIf S G A p (wpStackIf G A k Q)

/-- The weakest precondition of `p` for `Q`, when `A` has to hold wherever `p` aborts. -/
abbrev wp (A : σ → Prop) : Prog α → (σ → Prop) → σ → Prop := wpIf S (fun _ _ => True) A

abbrev wpStack (A : σ → Prop) : List (Prog α) → (σ → Prop) → σ → Prop :=
  wpStackIf S (fun _ _ => True) A

variable {S} {A : σ → Prop} {G : Prog α → σ → Prop}

theorem wp_mono {p : Prog α} {Q Q' : σ → Prop} (h : ∀ s, Q s → Q' s) {s : σ}
    (hp : wpIf S G A p Q s) : wpIf S G A p Q' s := by
  induction p generalizing Q Q' s with
  | skip => exact h s hp
  | act a => exact ⟨hp.1, fun s' hs' => h s' (hp.2 s' hs')⟩
  | seq p q ihp ihq => exact ihp (fun t ht => ihq h ht) hp
  | choice p q ihp ihq => exact ⟨ihp h hp.1, ihq h hp.2⟩
  | loop p _ =>
    obtain ⟨I, hI, hstep⟩ := hp
    exact ⟨I, hI, fun t ht => ⟨(hstep t ht).1, h t (hstep t ht).2⟩⟩
  | panic => trivial
  | poll => exact ⟨hp.1, h s hp.2⟩
  | abort => exact hp

/-- A step of the program keeps the weakest precondition of the stack, or enters the handler from
a state in which `A` holds. -/
theorem wpStackIf_runStep {b : Bool} {c c' : Config α σ} {Q : σ → Prop}
    (h : wpStackIf S G A c.stack Q c.state)
    (hG : ∀ p k, c.stack = .loop p :: k → b = true → G p c.state) (hs : runStep S b c = some c') :
    wpStackIf S G A c'.stack Q c'.state ∨ (A c.state ∧ c' = c.toHandler S c.state) := by
  obtain ⟨stack, s, fl⟩ := c
  unfold runStep at hs
  cases stack with
  | nil => simp at hs
  | cons p k =>
    cases p with
    | skip => cases hs; exact Or.inl h
    | act a =>
      simp only [Option.map_eq_some_iff] at hs
      obtain ⟨s', hs', rfl⟩ := hs
      exact Or.inl (h.2 s' hs')
    | seq p q => cases hs; exact Or.inl h
    | choice p q =>
      cases hs
      cases b
      · exact Or.inl h.2
      · exact Or.inl h.1
    | loop p =>
      cases hs
      obtain ⟨I, hI, hstep⟩ := h
      cases b
      · exact Or.inl (hstep s hI).2
      · -- one more round: the invariant is what the rest of the stack starts from
        exact Or.inl (wp_mono (fun t ht => ⟨I, ht, hstep⟩) ((hstep s hI).1 (hG p k rfl rfl)))
    | panic => simp at hs
    | poll =>
      cases fl
      · cases hs; exact Or.inl h.2
      · cases hs; exact Or.inr ⟨h.1, rfl⟩
    | abort => cases hs; exact Or.inr ⟨h, rfl⟩

theorem wpStack_runStep {b : Bool} {c c' : Config α σ} {Q : σ → Prop}
    (h : wpStack S A c.stack Q c.state) (hs : runStep S b c = some c') :
    wpStack S A c'.stack Q c'.state ∨ (A c.state ∧ c' = c.toHandler S c.state) :=
  wpStackIf_runStep h (fun _ _ _ _ => trivial) hs

/-- Where the weakest precondition holds, the next action is safe. -/
theorem safe_of_wpStack {c : Config α σ} {Q : σ → Prop} {a : α} {k : List (Prog α)}
    (h : wpStackIf S G A c.stack Q c.state) (hc : c.stack = .act a :: k) : S.safe a c.state := by
  rw [hc] at h
  exact h.1

/-! ### Programs that use resources in brackets -/

/-- What the analysis knows after a program: a misuse, that the program does not get there, or
the resources held. -/
inductive Outcome (ρ : Type*)
  | misuse
  | never
  | held (r : ρ)
  deriving DecidableEq

variable {ρ : Type*} [DecidableEq ρ]

/-- Both branches of a choice must agree. -/
def Outcome.join : Outcome ρ → Outcome ρ → Outcome ρ
  | .misuse, _ => .misuse
  | _, .misuse => .misuse
  | .never, o => o
  | o, .never => o
  | .held r, .held r' => if r = r' then .held r else .misuse

def Outcome.bind (o : Outcome ρ) (f : ρ → Outcome ρ) : Outcome ρ :=
  match o with
  | .misuse => .misuse
  | .never => .never
  | .held r => f r

/-- The resources held after a program that starts with `r`; `eff` gives the effect of an action,
`none` for one that must not be taken there.  A program may abort only where it holds exactly
`r₀`, and not at all when `r₀` is `none`; a loop goes round only with the resources that `g`
allows. -/
def effectIf (g : Prog α → ρ → Bool) (eff : α → ρ → Option ρ) (r₀ : Option ρ) :
    Prog α → ρ → Outcome ρ
  | .skip, r => .held r
  | .act a, r =>
    match eff a r with
    | some r' => .held r'
    | none => .misuse
  | .seq p q, r => (effectIf g eff r₀ p r).bind (effectIf g eff r₀ q)
  | .choice p q, r => (effectIf g eff r₀ p r).join (effectIf g eff r₀ q r)
  | .loop p, r =>
    if g p r then
      match effectIf g eff r₀ p r with
      | .misuse => .misuse
      | .never => .held r
      | .held r' => if r' = r then .held r else .misuse
    else .held r
  | .panic, _ => .never
  | .poll, r => if some r = r₀ then .held r else .misuse
  | .abort, r => if some r = r₀ then .never else .misuse

abbrev effect (eff : α → ρ → Option ρ) (r₀ : Option ρ) : Prog α → ρ → Outcome ρ :=
  effectIf (fun _ _ => true) eff r₀

/-- `r` is allowed by the outcome. -/
def Outcome.Allows (o : Outcome ρ) (r : ρ) : Prop := o = .held r

theorem Outcome.join_misuse {o o' : Outcome ρ} (h : o.join o' ≠ .misuse) :
    o ≠ .misuse ∧ o' ≠ .misuse := by
  cases o <;> cases o' <;> simp_all [Outcome.join]

theorem Outcome.join_allows {o o' : Outcome ρ} (h : o.join o' ≠ .misuse) {r : ρ} :
    (o.Allows r → (o.join o').Allows r) ∧ (o'.Allows r → (o.join o').Allows r) := by
  cases o <;> cases o' <;> simp_all [Outcome.join, Outcome.Allows]

section Sound

variable {eff : α → ρ → Option ρ} {r₀ : Option ρ} {res : σ → ρ} {F : σ → Prop}
  {g : Prog α → ρ → Bool}

/-- **Soundness of the analysis.** When the actions of a program act on the resources as `eff`
says and keep `F`, and the handler may be entered with `r₀`, a program without misuse ends only
in states that keep `F` and hold the resources of its outcome. -/
theorem effectIf_sound (hG : ∀ p s, F s → G p s → g p (res s) = true)
    (hact : ∀ a s r', F s → eff a (res s) = some r' →
      S.safe a s ∧ ∀ s', S.exec a s = some s' → F s' ∧ res s' = r')
    (hA : ∀ s, F s → some (res s) = r₀ → A s) (p : Prog α) {s : σ} (hF : F s)
    (hp : effectIf g eff r₀ p (res s) ≠ .misuse) :
    wpIf S G A p (fun t => F t ∧ (effectIf g eff r₀ p (res s)).Allows (res t)) s := by
  induction p generalizing s with
  | skip => exact ⟨hF, rfl⟩
  | act a =>
    cases he : eff a (res s) with
    | none => simp [effectIf, he] at hp
    | some r' =>
      obtain ⟨hsafe, hnext⟩ := hact a s r' hF he
      refine ⟨hsafe, fun s' hs' => ?_⟩
      obtain ⟨hF', hr⟩ := hnext s' hs'
      exact ⟨hF', by simp [effectIf, he, Outcome.Allows, hr]⟩
  | seq p q ihp ihq =>
    have hp1 : effectIf g eff r₀ p (res s) ≠ .misuse := by
      intro h
      simp [effectIf, h, Outcome.bind] at hp
    refine wp_mono (p := p) (fun t ht => ?_) (ihp hF hp1)
    obtain ⟨hFt, hrt⟩ := ht
    have hseq : effectIf g eff r₀ (.seq p q) (res s) = effectIf g eff r₀ q (res t) := by
      rw [effectIf, hrt, Outcome.bind]
    rw [hseq] at hp ⊢
    exact ihq hFt hp
  | choice p q ihp ihq =>
    obtain ⟨hp1, hp2⟩ := Outcome.join_misuse hp
    exact ⟨wp_mono (fun t ht => ⟨ht.1, (Outcome.join_allows hp).1 ht.2⟩) (ihp hF hp1),
      wp_mono (fun t ht => ⟨ht.1, (Outcome.join_allows hp).2 ht.2⟩) (ihq hF hp2)⟩
  | loop p ih =>
    -- the loop invariant: the resources are those of the start
    refine ⟨fun t => F t ∧ res t = res s, ⟨hF, rfl⟩, fun t ht => ?_⟩
    obtain ⟨hFt, hrt⟩ := ht
    by_cases hg : g p (res s)
    swap
    · refine ⟨fun hGt => absurd (hrt ▸ hG p t hFt hGt) hg, hFt, ?_⟩
      simp [effectIf, hg, Outcome.Allows, hrt]
    simp only [effectIf, hg, if_true] at hp ⊢
    cases he : effectIf g eff r₀ p (res s) with
    | misuse => simp [he] at hp
    | never =>
      refine ⟨fun _ => wp_mono (fun u hu => ?_) (ih hFt (by rw [hrt, he]; simp)), hFt, by
        simp [Outcome.Allows, hrt]⟩
      rw [hrt, he] at hu
      exact absurd hu.2 (by simp [Outcome.Allows])
    | held r' =>
      by_cases hr : r' = res s
      · subst hr
        refine ⟨fun _ => wp_mono (fun u hu => ?_) (ih hFt (by rw [hrt, he]; simp)), hFt, by
          simp [Outcome.Allows, hrt]⟩
        rw [hrt, he] at hu
        exact ⟨hu.1, (Outcome.held.inj hu.2).symm⟩
      · simp [he, hr] at hp
  | panic => trivial
  | poll =>
    by_cases hr : some (res s) = r₀
    · exact ⟨hA s hF hr, hF, by simp [effectIf, hr, Outcome.Allows]⟩
    · simp [effectIf, hr] at hp
  | abort =>
    by_cases hr : some (res s) = r₀
    · exact hA s hF hr
    · simp [effectIf, hr] at hp

theorem effect_sound
    (hact : ∀ a s r', F s → eff a (res s) = some r' →
      S.safe a s ∧ ∀ s', S.exec a s = some s' → F s' ∧ res s' = r')
    (hA : ∀ s, F s → some (res s) = r₀ → A s) (p : Prog α) {s : σ} (hF : F s)
    (hp : effect eff r₀ p (res s) ≠ .misuse) :
    wp S A p (fun t => F t ∧ (effect eff r₀ p (res s)).Allows (res t)) s :=
  effectIf_sound (fun _ _ _ _ => rfl) hact hA p hF hp

end Sound

end Abortable
