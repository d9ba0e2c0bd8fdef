import Mathlib.Tactic

/-!
# Circular lists sorted by address

The nodes of a singly linked circular list are a finite set, and following the links goes through
them upwards, from the highest node back to the lowest.  `Sorted F next` says so without naming an
order of visit: no node lies on the arc from a node to the next.  So a node is linked in or unlinked
by rules about sets (`Sorted.insert`, `Sorted.erase`).  From every node every other one is reached
(`Sorted.reach`), which is what makes a walk around the list terminate.
-/

namespace Cycle

variable {α : Type*} [LinearOrder α]

/-- `x` lies on the arc that goes up from `a` to `b`, through the top if `b` is not above `a`. -/
def Between (a x b : α) : Prop := (a < x ∧ x < b) ∨ (b ≤ a ∧ (a < x ∨ x < b))

instance (a x b : α) : Decidable (Between a x b) := by unfold Between; infer_instance

section Arcs

variable {a b c n m p x : α}

theorem not_between_left : ¬ Between a a b := by unfold Between; grind

theorem not_between_right : ¬ Between a b b := by unfold Between; grind

/-- A point of an arc cuts it in two. -/
theorem Between.upper (h : Between p x n) (hc : ¬ Between p c n) : ¬ Between x c n := by
  unfold Between at *; grind

theorem Between.lower (h : Between p x n) (hc : ¬ Between p c n) : ¬ Between p c x := by
  unfold Between at *; grind

/-- Arcs that do not hold each other's ends have no point in common. -/
theorem Between.disjoint (h : Between p x n) (hne : a ≠ p) (h1 : ¬ Between a p b)
    (h2 : ¬ Between p a n) (h3 : ¬ Between a n b) (h4 : ¬ Between p b n) : ¬ Between a x b := by
  unfold Between at *; grind

/-- Arcs that follow one another are joined by the point where they meet. -/
theorem not_between_join (h : ¬ Between p x n) (hc : ¬ Between n x m) (hx : x ≠ n) :
    ¬ Between p x m := by
  unfold Between at *; grind

/-- Of two arcs with the same end, one holds the start of the other. -/
theorem between_or (h : a ≠ p) (n : α) : Between a p n ∨ Between p a n := by
  unfold Between; grind

end Arcs

/-- `next` goes around the nodes `F` in increasing order. -/
structure Sorted (F : Finset α) (next : α → α) : Prop where
  mem : ∀ a ∈ F, next a ∈ F
  empty : ∀ a ∈ F, ∀ c ∈ F, ¬ Between a c (next a)

namespace Sorted

variable {F : Finset α} {next next' : α → α} {a b c p x : α}

theorem congr (h : Sorted F next) (heq : ∀ a ∈ F, next' a = next a) : Sorted F next' where
  mem a ha := by
    rw [heq a ha]
    exact h.mem a ha
  empty a ha := by
    rw [heq a ha]
    exact h.empty a ha

theorem singleton (h : next a = a) : Sorted {a} next where
  mem := by simp [h]
  empty := by simp [h, not_between_left]

/-- Below another node the next node is higher, and not above that one. -/
theorem next_le (h : Sorted F next) (ha : a ∈ F) (hb : b ∈ F) (hab : a < b) :
    a < next a ∧ next a ≤ b := by
  have hno := h.empty a ha b hb
  unfold Between at hno
  grind

/-- A list whose node is its own successor has no other node. -/
theorem eq_of_next_self (h : Sorted F next) (ha : a ∈ F) (hn : next a = a) (hc : c ∈ F) :
    c = a := by
  have hno := h.empty a ha c hc
  unfold Between at hno
  grind

theorem next_ne_next (h : Sorted F next) (ha : a ∈ F) (hp : p ∈ F) (hne : a ≠ p) :
    next a ≠ next p := by
  intro he
  rcases between_or hne (next p) with hb | hb
  · exact h.empty a ha p hp (he ▸ hb)
  · exact h.empty p hp a ha hb

/-! ### Walking around -/

/-- Going up from `a` to `b` takes one step for each node passed. -/
theorem climb (h : Sorted F next) (ha : a ∈ F) (hb : b ∈ F) (hab : a ≤ b) :
    ∃ k ≤ (F.filter fun c => a < c ∧ c ≤ b).card, next^[k] a = b := by
  -- by induction on the number of nodes between, for every start
  generalize hn : (F.filter fun c => a < c ∧ c ≤ b).card = n
  induction n using Nat.strong_induction_on generalizing a with
  | _ n ih =>
    rcases hab.eq_or_lt with rfl | hlt
    · exact ⟨0, Nat.zero_le _, rfl⟩
    · obtain ⟨hup, hle⟩ := h.next_le ha hb hlt
      have hss : (F.filter fun c => next a < c ∧ c ≤ b) ⊂ F.filter fun c => a < c ∧ c ≤ b := by
        rw [Finset.ssubset_iff_of_subset]
        · exact ⟨next a, by simp [h.mem a ha, hup, hle], by simp⟩
        · intro c
          simp only [Finset.mem_filter]
          rintro ⟨hc, hc1, hc2⟩
          exact ⟨hc, hup.trans hc1, hc2⟩
      have hcard := Finset.card_lt_card hss
      obtain ⟨k, hk, hkb⟩ := ih _ (hn ▸ hcard) (h.mem a ha) hle rfl
      exact ⟨k + 1, by omega, by rw [Function.iterate_succ_apply, hkb]⟩

/-- Every node is reached from every node. -/
theorem reach (h : Sorted F next) (ha : a ∈ F) (hb : b ∈ F) :
    ∃ k ≤ F.card, next^[k] a = b := by
  rcases le_or_gt a b with hab | hab
  · obtain ⟨k, hk, hkb⟩ := h.climb ha hb hab
    exact ⟨k, hk.trans (Finset.card_le_card (Finset.filter_subset _ _)), hkb⟩
  · -- up to the highest node, on to the lowest, and up from there
    have hM := F.max'_mem ⟨a, ha⟩
    have hmax : ∀ c ∈ F, c ≤ F.max' ⟨a, ha⟩ := fun c hc => F.le_max' c hc
    generalize F.max' ⟨a, ha⟩ = M at hM hmax
    have hm := h.mem M hM
    have hmin : ∀ c ∈ F, next M ≤ c := fun c hc => by
      by_contra hlt
      exact h.empty M hM c hc (Or.inr ⟨hmax _ hm, Or.inr (not_le.1 hlt)⟩)
    obtain ⟨k₁, hk₁, hk₁M⟩ := h.climb ha hM (hmax a ha)
    obtain ⟨k₂, hk₂, hk₂b⟩ := h.climb hm hb (hmin b hb)
    refine ⟨k₂ + 1 + k₁, ?_, by
      rw [Function.iterate_add_apply, hk₁M, Function.iterate_succ_apply, hk₂b]⟩
    -- the nodes passed are different ones
    have hd : Disjoint (F.filter fun c => a < c ∧ c ≤ M)
        (Insert.insert (next M) (F.filter fun c => next M < c ∧ c ≤ b)) := by
      rw [Finset.disjoint_left]
      intro c hc hc'
      have hac := (Finset.mem_filter.1 hc).2.1
      rcases Finset.mem_insert.1 hc' with rfl | hc'
      · exact absurd (hmin a ha) (not_le.2 hac)
      · exact absurd ((Finset.mem_filter.1 hc').2.2.trans_lt hab) (not_lt.2 hac.le)
    have hcard := Finset.card_le_card (Finset.union_subset
      (Finset.filter_subset (fun c => a < c ∧ c ≤ M) F)
      (Finset.insert_subset hm (Finset.filter_subset (fun c => next M < c ∧ c ≤ b) F)))
    rw [Finset.card_union_of_disjoint hd, Finset.card_insert_of_notMem (by simp)] at hcard
    omega

/-- There is a place for every new node. -/
theorem exists_between (h : Sorted F next) (hne : F.Nonempty) (hx : x ∉ F) :
    ∃ p ∈ F, Between p x (next p) := by
  by_cases hlow : (F.filter (· < x)).Nonempty
  · -- after the highest node below `x`
    have hp := Finset.mem_filter.1 ((F.filter (· < x)).max'_mem hlow)
    have hmax : ∀ c ∈ F.filter (· < x), c ≤ (F.filter (· < x)).max' hlow := fun c hc =>
      (F.filter (· < x)).le_max' c hc
    generalize (F.filter (· < x)).max' hlow = p at hp hmax
    have hn := h.mem p hp.1
    have hxn : x ≠ next p := fun he => hx (he ▸ hn)
    refine ⟨p, hp.1, ?_⟩
    rcases le_or_gt (next p) p with hle | hlt
    · exact Or.inr ⟨hle, Or.inl hp.2⟩
    · refine Or.inl ⟨hp.2, lt_of_le_of_ne (not_lt.1 fun hnx => ?_) hxn⟩
      exact absurd hlt (not_lt.2 (hmax _ (Finset.mem_filter.2 ⟨hn, hnx⟩)))
  · -- all nodes are above `x`: after the highest
    have hM := F.max'_mem hne
    have hn := h.mem _ hM
    have hxn : x ≠ next (F.max' hne) := fun he => hx (he ▸ hn)
    refine ⟨F.max' hne, hM, Or.inr ⟨F.le_max' _ hn, Or.inr (lt_of_le_of_ne ?_ hxn)⟩⟩
    by_contra hlt
    exact hlow ⟨_, Finset.mem_filter.2 ⟨hn, not_le.1 hlt⟩⟩

/-! ### Linking and unlinking -/

/-- A node is linked in on the arc it lies on. -/
theorem insert (h : Sorted F next) (hp : p ∈ F) (hx : x ∉ F) (hf : Between p x (next p)) :
    Sorted (insert x F) (Function.update (Function.update next x (next p)) p x) := by
  have hxp : x ≠ p := fun he => hx (he ▸ hp)
  have hother : ∀ a ∈ F, a ≠ p →
      Function.update (Function.update next x (next p)) p x a = next a := by
    intro a ha hap
    have hax : a ≠ x := fun he => hx (he ▸ ha)
    rw [Function.update_of_ne hap, Function.update_of_ne hax]
  have hatp : Function.update (Function.update next x (next p)) p x p = x := by simp
  have hatx : Function.update (Function.update next x (next p)) p x x = next p := by
    rw [Function.update_of_ne hxp, Function.update_self]
  have hn := h.mem p hp
  refine ⟨fun a ha => ?_, fun a ha c hc => ?_⟩
  · rcases Finset.mem_insert.1 ha with rfl | ha
    · rw [hatx]
      exact Finset.mem_insert_of_mem hn
    · by_cases hap : a = p
      · rw [hap, hatp]
        exact Finset.mem_insert_self _ _
      · rw [hother a ha hap]
        exact Finset.mem_insert_of_mem (h.mem a ha)
  · rcases Finset.mem_insert.1 ha with hax | haF
    · rw [hax, hatx]
      rcases Finset.mem_insert.1 hc with rfl | hc
      · exact not_between_left
      · exact hf.upper (h.empty p hp c hc)
    · by_cases hap : a = p
      · rw [hap, hatp]
        rcases Finset.mem_insert.1 hc with rfl | hc
        · exact not_between_right
        · exact hf.lower (h.empty p hp c hc)
      · rw [hother a haF hap]
        rcases Finset.mem_insert.1 hc with hcx | hc
        · rw [hcx]
          exact hf.disjoint hap (h.empty a haF p hp) (h.empty p hp a haF) (h.empty a haF _ hn)
            (h.empty p hp _ (h.mem a haF))
        · exact h.empty a haF c hc

/-- The node after `p` is unlinked. -/
theorem erase (h : Sorted F next) (hp : p ∈ F) (hne : next p ≠ p) :
    Sorted (F.erase (next p)) (Function.update next p (next (next p))) := by
  have hn := h.mem p hp
  have hnn : next (next p) ≠ next p := fun he => hne (h.eq_of_next_self hn he hp).symm
  refine ⟨fun a ha => ?_, fun a ha c hc => ?_⟩
  · have haF := Finset.mem_of_mem_erase ha
    by_cases hap : a = p
    · rw [hap, Function.update_self]
      exact Finset.mem_erase.2 ⟨hnn, h.mem _ hn⟩
    · rw [Function.update_of_ne hap]
      exact Finset.mem_erase.2 ⟨h.next_ne_next haF hp hap, h.mem a haF⟩
  · have haF := Finset.mem_of_mem_erase ha
    obtain ⟨hcn, hcF⟩ := Finset.mem_erase.1 hc
    by_cases hap : a = p
    · rw [hap, Function.update_self]
      exact not_between_join (h.empty p hp c hcF) (h.empty _ hn c hcF) hcn
    · rw [Function.update_of_ne hap]
      exact h.empty a haF c hcF

end Sorted

end Cycle
