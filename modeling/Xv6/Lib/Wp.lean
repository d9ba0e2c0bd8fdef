import Mathlib.Tactic

/-!
# Programs with state and failure

A program over the state `σ` that may stop with an error of type `ε` is a `StateT σ (Except ε)`.
`wp m E Q s` is its weakest precondition: run from `s`, the program `m` either returns with a
value and a state that satisfy `Q`, or stops with an error that satisfies `E`.  So `E` says which
errors are tolerated: `fun _ => False` is total correctness, `fun _ => True` partial correctness.

The rules follow the structure of programs (`wp_pure`, `wp_bind`, `wp_ite`, …); `zoom` runs a
program on a part of the state, and `wp_zoom` says that the rest is untouched.
-/

namespace Wp

variable {σ τ ε α β : Type}

/-- Programs over the state `σ` that may stop with an `ε`. -/
abbrev Prog (σ ε : Type) := StateT σ (Except ε)

/-- The weakest precondition of `m` for `Q`, with the errors in `E` tolerated. -/
def wp (m : Prog σ ε α) (E : ε → Prop) (Q : α → σ → Prop) (s : σ) : Prop :=
  match m s with
  | .ok (a, t) => Q a t
  | .error e => E e

variable {E : ε → Prop} {Q : α → σ → Prop} {s : σ}

theorem wp_of_ok {m : Prog σ ε α} {a : α} {t : σ} (h : m s = .ok (a, t)) :
    wp m E Q s ↔ Q a t := by
  rw [wp, h]

theorem wp_of_error {m : Prog σ ε α} {e : ε} (h : m s = .error e) : wp m E Q s ↔ E e := by
  rw [wp, h]

/-- What a weakest precondition says about a run that returns. -/
theorem wp.ok {m : Prog σ ε α} (hw : wp m E Q s) {a : α} {t : σ} (h : m s = .ok (a, t)) : Q a t :=
  (wp_of_ok h).1 hw

/-- What a weakest precondition says about a run that stops. -/
theorem wp.error {m : Prog σ ε α} (hw : wp m E Q s) {e : ε} (h : m s = .error e) : E e :=
  (wp_of_error h).1 hw

theorem bind_of_ok {m : Prog σ ε α} {f : α → Prog σ ε β} {a : α} {t : σ} (h : m s = .ok (a, t)) :
    (m >>= f) s = f a t := by
  change (m s >>= fun p => f p.1 p.2) = _
  rw [h]
  rfl

theorem bind_of_error {m : Prog σ ε α} {f : α → Prog σ ε β} {e : ε} (h : m s = .error e) :
    (m >>= f) s = .error e := by
  change (m s >>= fun p => f p.1 p.2) = _
  rw [h]
  rfl

/-- The rule of consequence. -/
theorem wp.mono {m : Prog σ ε α} {Q' : α → σ → Prop} (hw : wp m E Q s)
    (h : ∀ a t, Q a t → Q' a t) : wp m E Q' s := by
  unfold wp at hw ⊢
  rcases hm : m s with e | ⟨a, t⟩
  · rw [hm] at hw
    exact hw
  · rw [hm] at hw
    exact h a t hw

/-- More errors may be tolerated. -/
theorem wp.weaken {m : Prog σ ε α} {E' : ε → Prop} (hw : wp m E Q s) (h : ∀ e, E e → E' e) :
    wp m E' Q s := by
  unfold wp at hw ⊢
  rcases hm : m s with e | ⟨a, t⟩
  · rw [hm] at hw
    exact h e hw
  · rw [hm] at hw
    exact hw

/-- Every error may be tolerated. -/
theorem wp.orStop {m : Prog σ ε α} (hw : wp m E Q s) : wp m (fun _ => True) Q s :=
  hw.weaken fun _ _ => trivial

theorem wp.and {m : Prog σ ε α} {Q' : α → σ → Prop} (h : wp m E Q s) (h' : wp m E Q' s) :
    wp m E (fun a t => Q a t ∧ Q' a t) s := by
  unfold wp at h h' ⊢
  rcases hm : m s with e | ⟨a, t⟩
  · rw [hm] at h
    exact h
  · rw [hm] at h h'
    exact ⟨h, h'⟩

/-- What holds of the runs that return, for a program that stops only with an error in `E`. -/
theorem wp.stops {m : Prog σ ε α} (h : wp m (fun _ => True) Q s)
    (hE : wp m E (fun _ _ => True) s) : wp m E Q s := by
  unfold wp at h hE ⊢
  rcases hm : m s with e | ⟨a, t⟩
  · rw [hm] at hE
    exact hE
  · rw [hm] at h
    exact h

/-- A postcondition may say what the run was. -/
theorem wp.run {m : Prog σ ε α} (hw : wp m E Q s) :
    wp m E (fun a t => m s = .ok (a, t) ∧ Q a t) s := by
  unfold wp at hw ⊢
  rcases hm : m s with e | ⟨a, t⟩
  · rw [hm] at hw
    exact hw
  · rw [hm] at hw
    exact ⟨rfl, hw⟩

/-- Where no error is tolerated, the run returns. -/
theorem wp.exists_ok {m : Prog σ ε α} (hw : wp m (fun _ => False) Q s) :
    ∃ a t, m s = .ok (a, t) ∧ Q a t := by
  unfold wp at hw
  rcases hm : m s with e | ⟨a, t⟩
  · rw [hm] at hw
    exact hw.elim
  · rw [hm] at hw
    exact ⟨a, t, rfl, hw⟩

/-- Where no result is tolerated, the run fails. -/
theorem wp.exists_error {m : Prog σ ε α} (hw : wp m E (fun _ _ => False) s) :
    ∃ e, m s = .error e ∧ E e := by
  unfold wp at hw
  rcases hm : m s with e | ⟨a, t⟩
  · rw [hm] at hw
    exact ⟨e, rfl, hw⟩
  · rw [hm] at hw
    exact hw.elim

theorem wp_true (m : Prog σ ε α) (s : σ) : wp m (fun _ => True) (fun _ _ => True) s := by
  unfold wp
  split <;> trivial

@[simp]
theorem wp_pure (a : α) : wp (pure a : Prog σ ε α) E Q s ↔ Q a s := Iff.rfl

@[simp]
theorem wp_bind (m : Prog σ ε α) (f : α → Prog σ ε β) {Q : β → σ → Prop} :
    wp (m >>= f) E Q s ↔ wp m E (fun a t => wp (f a) E Q t) s := by
  unfold wp
  change (match (m s >>= fun p => f p.1 p.2) with | .ok (a, t) => Q a t | .error e => E e) ↔ _
  rcases m s with e | ⟨a, t⟩ <;> exact Iff.rfl

@[simp]
theorem wp_map (f : α → β) (m : Prog σ ε α) {Q : β → σ → Prop} :
    wp (f <$> m) E Q s ↔ wp m E (fun a t => Q (f a) t) s := by
  rw [← bind_pure_comp, wp_bind]
  exact Iff.rfl

@[simp]
theorem wp_get {Q : σ → σ → Prop} : wp (get : Prog σ ε σ) E Q s ↔ Q s s := Iff.rfl

@[simp]
theorem wp_set (t : σ) {Q : PUnit → σ → Prop} : wp (set t : Prog σ ε PUnit) E Q s ↔ Q ⟨⟩ t :=
  Iff.rfl

@[simp]
theorem wp_modify (f : σ → σ) {Q : PUnit → σ → Prop} :
    wp (modify f : Prog σ ε PUnit) E Q s ↔ Q ⟨⟩ (f s) := Iff.rfl

@[simp]
theorem wp_throw (e : ε) : wp (throw e : Prog σ ε α) E Q s ↔ E e := Iff.rfl

@[simp]
theorem wp_ite (c : Prop) [Decidable c] (m n : Prog σ ε α) :
    wp (if c then m else n) E Q s ↔ if c then wp m E Q s else wp n E Q s := by
  split <;> exact Iff.rfl

/-! ### A part of the state -/

/-- Run a program on the part `get s` of the state. -/
def zoom (get : σ → τ) (set : τ → σ → σ) (m : Prog τ ε α) : Prog σ ε α := fun s =>
  match m (get s) with
  | .ok (a, t) => .ok (a, set t s)
  | .error e => .error e

@[simp]
theorem wp_zoom (get : σ → τ) (set : τ → σ → σ) (m : Prog τ ε α) :
    wp (zoom get set m) E Q s ↔ wp m E (fun a t => Q a (set t s)) (get s) := by
  unfold wp zoom
  rcases m (get s) with e | ⟨a, t⟩ <;> exact Iff.rfl

/-! ### Loops -/

/-- `body i`, `body (i + 1)`, …: `n` rounds. -/
def loop (body : ℕ → Prog σ ε Unit) : ℕ → ℕ → Prog σ ε Unit
  | _, 0 => pure ()
  | i, n + 1 => do
    body i
    loop body (i + 1) n

/-- The invariant rule for `loop`: `I j` holds before round `j`. -/
theorem wp_loop {body : ℕ → Prog σ ε Unit} {i n : ℕ} (I : ℕ → σ → Prop) (h0 : I i s)
    (hstep : ∀ j t, i ≤ j → j < i + n → I j t → wp (body j) E (fun _ u => I (j + 1) u) t) :
    wp (loop body i n) E (fun _ t => I (i + n) t) s := by
  induction n generalizing i s with
  | zero => exact h0
  | succ n ih =>
    rw [loop, wp_bind]
    refine (hstep i s le_rfl (by omega) h0).mono fun _ t ht => ?_
    have := ih ht fun j u h1 h2 => hstep j u (by omega) (by omega)
    rwa [show i + 1 + n = i + (n + 1) by omega] at this

/-- The invariant rule with what is wanted at the end. -/
theorem wp_loop_of {body : ℕ → Prog σ ε Unit} {i n : ℕ} {Q : Unit → σ → Prop} (I : ℕ → σ → Prop)
    (h0 : I i s)
    (hstep : ∀ j t, i ≤ j → j < i + n → I j t → wp (body j) E (fun _ u => I (j + 1) u) t)
    (hQ : ∀ t, I (i + n) t → Q () t) : wp (loop body i n) E Q s :=
  (wp_loop I h0 hstep).mono fun _ t ht => hQ t ht

/-- Rounds `i`, `i + 1`, … until one says `false`; its number is returned. -/
def loopWhile (body : ℕ → Prog σ ε Bool) : ℕ → ℕ → Prog σ ε (Option ℕ)
  | _, 0 => pure none
  | i, n + 1 => do
    if ← body i then loopWhile body (i + 1) n else pure (some i)

/-- The first `m` rounds, then the others. -/
theorem loopWhile_add (body : ℕ → Prog σ ε Bool) (i m n : ℕ) :
    loopWhile body i (m + n) = loopWhile body i m >>= fun r =>
      match r with
      | none => loopWhile body (i + m) n
      | some j => pure (some j) := by
  induction m generalizing i with
  | zero => simp [loopWhile]
  | succ m ih =>
    rw [show m + 1 + n = m + n + 1 by omega, loopWhile, loopWhile, bind_assoc]
    congr 1
    funext b
    cases b
    · simp
    · simp only [if_true]
      rw [ih, show i + 1 + m = i + (m + 1) by omega]

/-- The invariant rule for `loopWhile`: `I j` holds before round `j`, and `J j` after round `j`
if it is the last. -/
theorem wp_loopWhile {body : ℕ → Prog σ ε Bool} {i n : ℕ} (I J : ℕ → σ → Prop) (h0 : I i s)
    (hstep : ∀ j t, i ≤ j → j < i + n → I j t →
      wp (body j) E (fun b u => if b then I (j + 1) u else J j u) t) :
    wp (loopWhile body i n) E (fun r t =>
      match r with
      | none => I (i + n) t
      | some j => i ≤ j ∧ j < i + n ∧ J j t) s := by
  induction n generalizing i s with
  | zero => exact h0
  | succ n ih =>
    rw [loopWhile, wp_bind]
    refine (hstep i s le_rfl (by omega) h0).mono fun b t ht => ?_
    cases b with
    | false => exact ⟨le_rfl, by omega, ht⟩
    | true =>
      refine (ih ht fun j u h1 h2 => hstep j u (by omega) (by omega)).mono fun r u hu => ?_
      cases r with
      | none =>
        rw [show i + (n + 1) = i + 1 + n by omega]
        exact hu
      | some j => exact ⟨by omega, by omega, hu.2.2⟩

/-! ### What a program keeps -/

/-- Run from any state, `m` returns in a state that `R` relates to it, or stops with an error in
`E`. -/
structure Keeps (E : ε → Prop) (R : σ → σ → Prop) (m : Prog σ ε α) : Prop where
  start : ∀ s, wp m E (fun _ t => R s t) s

/-- Programs of which only the errors matter. -/
instance refl_true : Std.Refl fun _ _ : σ => True := ⟨fun _ => trivial⟩

instance isTrans_true : IsTrans σ fun _ _ => True := ⟨fun _ _ _ _ _ => trivial⟩

namespace Keeps

variable {R : σ → σ → Prop}

theorem bind [IsTrans σ R] {m : Prog σ ε α} {f : α → Prog σ ε β} (hm : Keeps E R m)
    (hf : ∀ a, Keeps E R (f a)) : Keeps E R (m >>= f) := by
  refine ⟨fun s => ?_⟩
  rw [wp_bind]
  exact (hm.start s).mono fun a t ht => ((hf a).start t).mono fun _ u hu =>
    IsTrans.trans _ _ _ ht hu

theorem pure [Std.Refl R] (a : α) : Keeps E R (Pure.pure a : Prog σ ε α) :=
  ⟨fun s => (wp_pure a).2 (Std.Refl.refl s)⟩

theorem get [Std.Refl R] : Keeps E R (MonadState.get : Prog σ ε σ) :=
  ⟨fun s => wp_get.2 (Std.Refl.refl s)⟩

theorem throw {e : ε} (he : E e) : Keeps E R (MonadExcept.throw e : Prog σ ε α) :=
  ⟨fun _ => (wp_throw e).2 he⟩

theorem modify {f : σ → σ} (h : ∀ s, R s (f s)) :
    Keeps E R (modifyGet (fun s => (⟨⟩, f s)) : Prog σ ε PUnit) :=
  ⟨fun s => (wp_modify f).2 (h s)⟩

theorem set {t : σ} (h : ∀ s, R s t) : Keeps E R (MonadStateOf.set t : Prog σ ε PUnit) :=
  ⟨fun s => (wp_set t).2 (h s)⟩

/-- Code that reads the state first. -/
theorem getBind {f : σ → Prog σ ε α} (h : ∀ s, wp (f s) E (fun _ t => R s t) s) :
    Keeps E R (MonadState.get >>= f) := ⟨fun s => by
  rw [wp_bind, wp_get]
  exact h s⟩

/-- The relation goes on over a program that is run later. -/
theorem after [IsTrans σ R] {m : Prog σ ε α} (h : Keeps E R m) {t : σ} (hst : R s t) :
    wp m E (fun _ u => R s u) t := (h.start t).mono fun _ _ => IsTrans.trans _ _ _ hst

/-- More errors may be tolerated. -/
theorem weaken {E' : ε → Prop} {m : Prog σ ε α} (h : Keeps E R m) (hE : ∀ e, E e → E' e) :
    Keeps E' R m := ⟨fun s => (h.start s).weaken hE⟩

/-- A weaker relation may be kept. -/
theorem mono {R' : σ → σ → Prop} {m : Prog σ ε α} (h : Keeps E R m) (hR : ∀ s t, R s t → R' s t) :
    Keeps E R' m := ⟨fun s => (h.start s).mono fun _ t ht => hR s t ht⟩

theorem ite {c : Prop} [Decidable c] {m n : Prog σ ε α} (hm : Keeps E R m) (hn : Keeps E R n) :
    Keeps E R (if c then m else n) := by
  split_ifs
  · exact hm
  · exact hn

theorem loop [Std.Refl R] [IsTrans σ R] {body : ℕ → Prog σ ε Unit} (h : ∀ i, Keeps E R (body i))
    (i n : ℕ) : Keeps E R (Wp.loop body i n) := by
  induction n generalizing i with
  | zero => exact pure ()
  | succ n ih => exact bind (h i) fun _ => ih (i + 1)

theorem loopWhile [Std.Refl R] [IsTrans σ R] {body : ℕ → Prog σ ε Bool}
    (h : ∀ i, Keeps E R (body i)) (i n : ℕ) : Keeps E R (Wp.loopWhile body i n) := by
  induction n generalizing i with
  | zero => exact pure none
  | succ n ih => exact bind (h i) fun _ => ite (ih (i + 1)) (pure _)

end Keeps

/-! ### What a program maintains -/

/-- Run from a state with `I`, `m` returns in a state with `I`, or stops with an error in `E`. -/
structure Maintains (E : ε → Prop) (I : σ → Prop) (m : Prog σ ε α) : Prop where
  start : ∀ s, I s → wp m E (fun _ t => I t) s

/-- What a program keeps it also maintains. -/
theorem Keeps.maintains {R : σ → σ → Prop} {I : σ → Prop} {m : Prog σ ε α} (h : Keeps E R m)
    (hI : ∀ s t, R s t → I s → I t) : Maintains E I m :=
  ⟨fun s hs => (h.start s).mono fun _ t ht => hI s t ht hs⟩

namespace Maintains

variable {I : σ → Prop}

theorem bind {m : Prog σ ε α} {f : α → Prog σ ε β} (hm : Maintains E I m)
    (hf : ∀ a, Maintains E I (f a)) : Maintains E I (m >>= f) := by
  refine ⟨fun s hs => ?_⟩
  rw [wp_bind]
  exact (hm.start s hs).mono fun a t ht => (hf a).start t ht

theorem pure (a : α) : Maintains E I (Pure.pure a : Prog σ ε α) := ⟨fun _ hs => hs⟩

theorem get : Maintains E I (MonadState.get : Prog σ ε σ) := ⟨fun _ hs => hs⟩

theorem throw {e : ε} (he : E e) : Maintains E I (MonadExcept.throw e : Prog σ ε α) :=
  ⟨fun _ _ => (wp_throw e).2 he⟩

theorem modify {f : σ → σ} (h : ∀ s, I s → I (f s)) :
    Maintains E I (modifyGet (fun s => (⟨⟩, f s)) : Prog σ ε PUnit) :=
  ⟨fun s hs => (wp_modify f).2 (h s hs)⟩

/-- Code that reads the state first. -/
theorem getBind {f : σ → Prog σ ε α} (h : ∀ s, I s → wp (f s) E (fun _ t => I t) s) :
    Maintains E I (MonadState.get >>= f) := ⟨fun s hs => by
  rw [wp_bind, wp_get]
  exact h s hs⟩

theorem ite {c : Prop} [Decidable c] {m n : Prog σ ε α} (hm : Maintains E I m)
    (hn : Maintains E I n) : Maintains E I (if c then m else n) := by
  split_ifs
  · exact hm
  · exact hn

theorem loopWhile {body : ℕ → Prog σ ε Bool} (h : ∀ i, Maintains E I (body i)) (i n : ℕ) :
    Maintains E I (Wp.loopWhile body i n) := by
  induction n generalizing i with
  | zero => exact pure none
  | succ n ih => exact bind (h i) fun _ => ite (ih (i + 1)) (pure _)

end Maintains

/-! ### Properties that composition keeps -/

/-- What holds of two programs holds of one after the other. -/
structure Composed {σ ε : Type} (C : ∀ {α : Type}, Prog σ ε α → Prop) : Prop where
  pure : ∀ {α : Type} (a : α), C (Pure.pure a)
  get : C (MonadState.get : Prog σ ε σ)
  bind : ∀ {α β : Type} {m : Prog σ ε α} {f : α → Prog σ ε β}, C m → (∀ a, C (f a)) → C (m >>= f)

theorem Composed.ite {σ ε α : Type} {C : ∀ {α : Type}, Prog σ ε α → Prop} (_ : Composed C)
    {c : Prop} [Decidable c] {m n : Prog σ ε α} (hm : C m) (hn : C n) : C (if c then m else n) := by
  split_ifs
  · exact hm
  · exact hn

theorem Keeps.composed {σ ε : Type} {E : ε → Prop} {R : σ → σ → Prop} [Std.Refl R] [IsTrans σ R] :
    Composed fun {α} (m : Prog σ ε α) => Keeps E R m := ⟨.pure, .get, .bind⟩

theorem Maintains.composed {σ ε : Type} {E : ε → Prop} {I : σ → Prop} :
    Composed fun {α} (m : Prog σ ε α) => Maintains E I m := ⟨.pure, .get, .bind⟩

end Wp
