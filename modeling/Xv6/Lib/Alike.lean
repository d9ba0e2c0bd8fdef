import Xv6.Lib.Wp

/-!
# Two runs of one program

`Alike m R s t` compares the runs of `m` from two states: they stop with the same error, or they
return the same value, in states that `R` relates.  The rules follow the structure of programs, and
a weakest precondition for one of the runs may be added (`Alike.wp`).
-/

namespace Wp

variable {σ ε α β : Type} {m : Prog σ ε α} {R : α → σ → σ → Prop} {s t : σ}

/-- The runs of `m` from `s` and from `t` end alike. -/
def Alike (m : Prog σ ε α) (R : α → σ → σ → Prop) (s t : σ) : Prop :=
  wp m (fun e => m t = .error e) (fun x s' => ∃ t', m t = .ok (x, t') ∧ R x s' t') s

namespace Alike

theorem of_ok {x : α} {s' t' : σ} (hs : m s = .ok (x, s')) (ht : m t = .ok (x, t'))
    (h : R x s' t') : Alike m R s t := (wp_of_ok hs).2 ⟨t', ht, h⟩

/-- Both runs are known. -/
theorem of_wp {x : α} {s' t' : σ} (hs : Wp.wp m (fun _ => False) (fun y u => y = x ∧ u = s') s)
    (ht : Wp.wp m (fun _ => False) (fun y u => y = x ∧ u = t') t) (h : R x s' t') :
    Alike m R s t := by
  obtain ⟨y, u, hrun, rfl, rfl⟩ := hs.exists_ok
  obtain ⟨y', u', hrun', rfl, rfl⟩ := ht.exists_ok
  exact of_ok hrun hrun' h

theorem of_error {e : ε} (hs : m s = .error e) (ht : m t = .error e) : Alike m R s t :=
  (wp_of_error hs).2 ht

theorem ok_left (h : Alike m R s t) {x : α} {s' : σ} (hs : m s = .ok (x, s')) :
    ∃ t', m t = .ok (x, t') ∧ R x s' t' := wp.ok h hs

theorem error_left (h : Alike m R s t) {e : ε} (hs : m s = .error e) : m t = .error e :=
  wp.error h hs

theorem ok_right (h : Alike m R s t) {x : α} {t' : σ} (ht : m t = .ok (x, t')) :
    ∃ s', m s = .ok (x, s') ∧ R x s' t' := by
  cases hs : m s with
  | error e => cases (h.error_left hs).symm.trans ht
  | ok y =>
    obtain ⟨y, s'⟩ := y
    obtain ⟨t'', ht', hR⟩ := h.ok_left hs
    obtain ⟨rfl, rfl⟩ := Prod.mk.inj (Except.ok.inj (ht'.symm.trans ht))
    exact ⟨s', rfl, hR⟩

theorem error_right (h : Alike m R s t) {e : ε} (ht : m t = .error e) : m s = .error e := by
  cases hs : m s with
  | error e' =>
    rw [h.error_left hs] at ht
    exact ht
  | ok y =>
    obtain ⟨t', ht', -⟩ := h.ok_left hs
    cases ht'.symm.trans ht

theorem mono {R' : α → σ → σ → Prop} (h : Alike m R s t)
    (hR : ∀ x s' t', R x s' t' → R' x s' t') : Alike m R' s t := by
  refine wp.mono h fun x s' hx => ?_
  obtain ⟨t', ht, hx⟩ := hx
  exact ⟨t', ht, hR x s' t' hx⟩

/-- What is known of the run from `s` may be added. -/
theorem wp {Q : α → σ → Prop} (h : Alike m R s t) (hw : Wp.wp m (fun _ => True) Q s) :
    Alike m (fun x s' t' => R x s' t' ∧ Q x s') s t := by
  cases hs : m s with
  | error e => exact of_error hs (h.error_left hs)
  | ok y =>
    obtain ⟨y, s'⟩ := y
    obtain ⟨t', ht, hR⟩ := h.ok_left hs
    exact of_ok hs ht ⟨hR, hw.ok hs⟩

theorem pure {x : α} (h : R x s t) : Alike (Pure.pure x : Prog σ ε α) R s t := of_ok rfl rfl h

theorem bind {f : α → Prog σ ε β} {Q : β → σ → σ → Prop} (h : Alike m R s t)
    (hf : ∀ x s' t', R x s' t' → Alike (f x) Q s' t') : Alike (m >>= f) Q s t := by
  cases hs : m s with
  | error e => exact of_error (bind_of_error hs) (bind_of_error (h.error_left hs))
  | ok y =>
    obtain ⟨y, s'⟩ := y
    obtain ⟨t', ht, hR⟩ := h.ok_left hs
    rw [Alike, Wp.wp, bind_of_ok hs, bind_of_ok ht]
    exact hf y s' t' hR

end Alike

end Wp
