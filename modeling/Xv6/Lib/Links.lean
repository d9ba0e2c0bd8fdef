import Mathlib.Tactic

/-!
# Circular doubly linked lists

Nodes with a `next` and a `prev` link, one of them a sentinel.  `Seg L a xs b` says that the links
lead from `a` through `xs` to `b` and back; the list of the sentinel `h` is a segment from `h` to
`h` whose nodes are distinct (`Linked`).  Taking a node out and putting one in at the front change
the list as they should, wherever the node is (`Linked.unlink`, `Linked.pushFront`), and a walk
along `next` or `prev` sees the list or its reverse (`Linked.find_next`, `Linked.find_prev`).
-/

/-- The links of the nodes. -/
structure Links (α : Type*) where
  next : α → α
  prev : α → α

namespace Links

variable {α : Type*}

/-- From `a` the links lead through `xs` to `b`, and back. -/
def Seg (L : Links α) : α → List α → α → Prop
  | a, [], b => L.next a = b ∧ L.prev b = a
  | a, x :: xs, b => (L.next a = x ∧ L.prev x = a) ∧ Seg L x xs b

theorem seg_append {L : Links α} {a b x : α} {xs ys : List α} :
    L.Seg a (xs ++ x :: ys) b ↔ L.Seg a xs x ∧ L.Seg x ys b := by
  induction xs generalizing a with
  | nil => rfl
  | cons y xs ih => rw [List.cons_append, Seg, Seg, ih, ← and_assoc]

/-- Links that a segment does not use may change. -/
theorem Seg.frame {L M : Links α} {a b : α} {xs : List α} (h : L.Seg a xs b)
    (hn : ∀ c ∈ a :: xs, M.next c = L.next c) (hp : ∀ c ∈ xs ++ [b], M.prev c = L.prev c) :
    M.Seg a xs b := by
  induction xs generalizing a with
  | nil => exact ⟨(hn a (by simp)).trans h.1, (hp b (by simp)).trans h.2⟩
  | cons x xs ih =>
    refine ⟨⟨(hn a (by simp)).trans h.1.1, (hp x (by simp)).trans h.1.2⟩, ih h.2 ?_ ?_⟩
    · exact fun c hc => hn c (List.mem_cons_of_mem _ hc)
    · exact fun c hc => hp c (List.mem_cons_of_mem _ hc)

theorem Seg.prev_mem {L : Links α} {a b : α} {xs : List α} (h : L.Seg a xs b) :
    L.prev b ∈ a :: xs := by
  induction xs generalizing a with
  | nil => simp [h.2]
  | cons x xs ih => exact List.mem_cons_of_mem _ (ih h.2)

theorem Seg.next_mem {L : Links α} {a b : α} {xs : List α} (h : L.Seg a xs b) :
    L.next a ∈ xs ++ [b] := by
  cases xs with
  | nil => simp [h.1]
  | cons x xs => simp [h.1.1]

/-- A segment read backwards. -/
theorem Seg.reverse {L : Links α} {a b : α} {xs : List α} (h : L.Seg a xs b) :
    Seg ⟨L.prev, L.next⟩ b xs.reverse a := by
  induction xs generalizing a with
  | nil => exact ⟨h.2, h.1⟩
  | cons x xs ih =>
    rw [List.reverse_cons, seg_append]
    exact ⟨ih h.2, h.1.2, h.1.1⟩

variable [DecidableEq α]

/-- `b->next->prev = b->prev; b->prev->next = b->next`. -/
def unlink (L : Links α) (b : α) : Links α :=
  let L : Links α := { L with prev := Function.update L.prev (L.next b) (L.prev b) }
  { L with next := Function.update L.next (L.prev b) (L.next b) }

/-- `b->next = h->next; b->prev = h; h->next->prev = b; h->next = b`. -/
def pushFront (L : Links α) (h b : α) : Links α :=
  let L : Links α := { L with next := Function.update L.next b (L.next h) }
  let L : Links α := { L with prev := Function.update L.prev b h }
  let L : Links α := { L with prev := Function.update L.prev (L.next h) b }
  { L with next := Function.update L.next h b }

/-- The end of a segment moves: the last node leads to `c` instead. -/
theorem Seg.moveEnd {L M : Links α} {a b c : α} {xs : List α} (h : L.Seg a xs b)
    (hnodup : (a :: xs).Nodup) (hc : c ∉ xs)
    (hn : M.next = Function.update L.next (L.prev b) c)
    (hp : M.prev = Function.update L.prev c (L.prev b)) : M.Seg a xs c := by
  induction xs generalizing a with
  | nil =>
    rw [Seg, hn, hp, h.2, Function.update_self, Function.update_self]
    exact ⟨rfl, rfl⟩
  | cons x xs ih =>
    obtain ⟨ha, hx⟩ := List.nodup_cons.1 hnodup
    rw [List.mem_cons, not_or] at hc
    refine ⟨⟨?_, ?_⟩, ih h.2 hx hc.2⟩
    · have hne : a ≠ L.prev b := fun he => ha (he ▸ h.2.prev_mem)
      rw [hn, Function.update_of_ne hne]
      exact h.1.1
    · rw [hp, Function.update_of_ne (Ne.symm hc.1)]
      exact h.1.2

/-- The list of the sentinel `h` is `xs`. -/
structure Linked (L : Links α) (h : α) (xs : List α) : Prop where
  nodup : (h :: xs).Nodup
  seg : L.Seg h xs h

namespace Linked

variable {L : Links α} {h b : α} {xs l r : List α}

omit [DecidableEq α] in
theorem notMem (hl : L.Linked h xs) : h ∉ xs := (List.nodup_cons.1 hl.nodup).1

/-- A node is taken out. -/
theorem unlink (hl : L.Linked h (l ++ b :: r)) : (L.unlink b).Linked h (l ++ r) := by
  obtain ⟨hnodup, hseg⟩ := hl
  obtain ⟨hleft, hright⟩ := seg_append.1 hseg
  have hnodup' : (h :: l ++ b :: r).Nodup := hnodup
  obtain ⟨hl, hbr, hdisj⟩ := List.nodup_append.1 hnodup'
  obtain ⟨hb, hr⟩ := List.nodup_cons.1 hbr
  have hself : b ≠ L.next b := by
    intro he
    have hmem := hright.next_mem
    rw [← he, List.mem_append, List.mem_singleton] at hmem
    exact hmem.elim hb fun hh => hdisj h (by simp) b (by simp) hh.symm
  have hp : (L.unlink b).prev = Function.update L.prev (L.next b) (L.prev b) := rfl
  have hn : (L.unlink b).next = Function.update L.next (L.prev b) (L.next b) := by
    change Function.update L.next (Function.update L.prev (L.next b) (L.prev b) b) (L.next b) = _
    rw [Function.update_of_ne hself]
  refine ⟨?_, ?_⟩
  · rw [← List.cons_append, List.nodup_append]
    exact ⟨hl, hr, fun x hx y hy => hdisj x hx y (List.mem_cons_of_mem _ hy)⟩
  cases r with
  | nil =>
    rw [hright.1] at hn hp
    rw [List.append_nil]
    exact hleft.moveEnd hl (List.nodup_cons.1 hl).1 hn hp
  | cons n r =>
    rw [hright.1.1] at hn hp
    have hnl : ∀ x ∈ h :: l, ∀ y ∈ n :: r, x ≠ y := fun x hx y hy =>
      hdisj x hx y (List.mem_cons_of_mem _ hy)
    rw [seg_append]
    refine ⟨hleft.moveEnd hl (fun hmem => hnl n (by simp [hmem]) n (by simp) rfl) hn hp,
      hright.2.frame (fun c hc => ?_) fun c hc => ?_⟩
    · rw [hn, Function.update_of_ne (hnl _ hleft.prev_mem c hc).symm]
    · have hc' : c ≠ n := by
        rintro rfl
        rw [List.mem_append, List.mem_singleton] at hc
        exact hc.elim (List.nodup_cons.1 hr).1 fun hh => hnl h (by simp) c (by simp) hh.symm
      rw [hp, Function.update_of_ne hc']

/-- A node is put in at the front. -/
theorem pushFront (hl : L.Linked h xs) (hb : b ∉ h :: xs) :
    (L.pushFront h b).Linked h (b :: xs) := by
  obtain ⟨hnodup, hseg⟩ := hl
  obtain ⟨hh, hxs⟩ := List.nodup_cons.1 hnodup
  rw [List.mem_cons, not_or] at hb
  have hn : (L.pushFront h b).next =
      Function.update (Function.update L.next b (L.next h)) h b := rfl
  have hp : (L.pushFront h b).prev =
      Function.update (Function.update L.prev b h) (L.next h) b := by
    change Function.update (Function.update L.prev b h)
      (Function.update L.next b (L.next h) h) b = _
    rw [Function.update_of_ne (Ne.symm hb.1)]
  have hnb : (L.pushFront h b).next b = L.next h := by
    rw [hn, Function.update_of_ne hb.1, Function.update_self]
  have hbn : b ≠ L.next h := by
    intro he
    have hmem := hseg.next_mem
    rw [← he, List.mem_append, List.mem_singleton] at hmem
    exact hmem.elim hb.2 hb.1
  refine ⟨?_, ⟨?_, ?_⟩, ?_⟩
  · simp only [List.nodup_cons, List.mem_cons, not_or]
    exact ⟨⟨Ne.symm hb.1, hh⟩, hb.2, hxs⟩
  · rw [hn, Function.update_self]
  · rw [hp, Function.update_of_ne hbn, Function.update_self]
  cases xs with
  | nil =>
    refine ⟨hnb.trans hseg.1, ?_⟩
    rw [hp, hseg.1, Function.update_self]
  | cons x xs =>
    refine ⟨⟨hnb.trans hseg.1.1, ?_⟩, hseg.2.frame (fun c hc => ?_) fun c hc => ?_⟩
    · rw [hp, hseg.1.1, Function.update_self]
    · have hch : c ≠ h := fun he => hh (he ▸ hc)
      have hcb : c ≠ b := fun he => hb.2 (he ▸ hc)
      rw [hn, Function.update_of_ne hch, Function.update_of_ne hcb]
    · have hcx : c ≠ x := by
        rintro rfl
        rw [List.mem_append, List.mem_singleton] at hc
        exact hc.elim (List.nodup_cons.1 hxs).1 fun he => hh (he ▸ List.mem_cons_self)
      have hcb : c ≠ b := by
        rintro rfl
        rw [List.mem_append, List.mem_singleton] at hc
        exact hc.elim (fun hm => hb.2 (List.mem_cons_of_mem _ hm)) hb.1
      rw [hp, hseg.1.1, Function.update_of_ne hcx, Function.update_of_ne hcb]

end Linked

/-! ### Walks -/

/-- The nodes that `next` leads to from `a`. -/
def follow (next : α → α) : ℕ → α → List α
  | 0, _ => []
  | n + 1, a => next a :: follow next n (next a)

omit [DecidableEq α] in
theorem Seg.follow {L : Links α} {a b : α} {xs : List α} (h : L.Seg a xs b) :
    Links.follow L.next xs.length a = xs := by
  induction xs generalizing a with
  | nil => rfl
  | cons x xs ih => rw [List.length_cons, Links.follow, h.1.1, ih h.2]

omit [DecidableEq α] in
/-- A walk along a whole segment arrives at its end. -/
theorem Seg.iterate {L : Links α} {a b : α} {xs : List α} (h : L.Seg a xs b) :
    L.next^[xs.length + 1] a = b := by
  induction xs generalizing a with
  | nil => exact h.1
  | cons x xs ih => rw [List.length_cons, Function.iterate_succ_apply, h.1.1, ih h.2]

/-- `for (b = b; b != h; b = b->next) if (p(b)) return b`, for at most `fuel` nodes. -/
def find (next : α → α) (h : α) (p : α → Bool) : ℕ → α → Option α
  | 0, _ => none
  | fuel + 1, b => if b = h then none else if p b then some b else find next h p fuel (next b)

/-- A walk sees the nodes in order. -/
theorem Seg.find {L : Links α} {a h : α} {xs : List α} (hs : L.Seg a xs h) (hh : h ∉ xs)
    (p : α → Bool) : Links.find L.next h p xs.length (L.next a) = xs.find? p := by
  induction xs generalizing a with
  | nil => rfl
  | cons x xs ih =>
    rw [List.mem_cons, not_or] at hh
    rw [List.length_cons, Links.find, hs.1.1, if_neg (Ne.symm hh.1), ih hs.2 hh.2, List.find?_cons]
    cases p x <;> rfl

namespace Linked

variable {L : Links α} {h : α} {xs : List α}

theorem find_next (hl : L.Linked h xs) (p : α → Bool) :
    find L.next h p xs.length (L.next h) = xs.find? p := hl.seg.find hl.notMem p

theorem find_prev (hl : L.Linked h xs) (p : α → Bool) :
    find L.prev h p xs.length (L.prev h) = xs.reverse.find? p := by
  rw [← hl.seg.reverse.find (by simpa using hl.notMem) p, List.length_reverse]

end Linked

end Links
