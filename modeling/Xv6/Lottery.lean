import Xv6.Proc
import Xv6.Boot

/-!
# Lottery scheduling

How `scheduler` of `kernel/proc.c` chooses a process: it adds up the tickets of the RUNNABLE
processes, slot by slot, in an array of `int`, draws a ticket with `rand` (`kernel/random.c`) modulo
the total, and looks for the slot whose tickets it falls in by binary search.  An `int` is a word of
32 bits, compared as a signed number.

The choice is right as long as the sum of all tickets is an `int`.
-/

namespace Xv6

open Wp

/-! ### The code -/

/-- `struct rng`. -/
structure Rng where
  z1 : U32
  z2 : U32
  z3 : U32
  z4 : U32

def srand (seed : U32) : Rng := ⟨seed, seed, seed, seed⟩

def rand (rng : Rng) : U32 × Rng :=
  let b := ((rng.z1 <<< 6) ^^^ rng.z1) >>> 13
  let z1 := ((rng.z1 &&& 4294967294) <<< 18) ^^^ b
  let b := ((rng.z2 <<< 2) ^^^ rng.z2) >>> 27
  let z2 := ((rng.z2 &&& 4294967288) <<< 2) ^^^ b
  let b := ((rng.z3 <<< 13) ^^^ rng.z3) >>> 21
  let z3 := ((rng.z3 &&& 4294967280) <<< 7) ^^^ b
  let b := ((rng.z4 <<< 3) ^^^ rng.z4) >>> 12
  let z4 := ((rng.z4 &&& 4294967168) <<< 13) ^^^ b
  (z1 ^^^ z2 ^^^ z3 ^^^ z4, ⟨z1, z2, z3, z4⟩)

/-- The loop that fills `tickets_partial_sums`, from slot `i` on. -/
def sumTickets : ℕ → ℕ → (ℕ → U32) → K (ℕ → U32)
  | _, 0, sums => return sums
  | i, n + 1, sums => do
    let sums := Function.update sums (i + 1) (sums i)
    acquireProc i
    let s ← get
    let sums := if (s.procs i).state = .runnable then
        Function.update sums (i + 1) (sums (i + 1) + BitVec.ofInt 32 (s.procs i).tickets)
      else sums
    releaseProc i
    sumTickets (i + 1) n sums

/-- The binary search: the last slot whose tickets start at or below the winner. -/
def searchTicket (sums : ℕ → U32) (winner : U32) (lo hi : ℕ) : ℕ :=
  if 1 < hi - lo then
    let med := (lo + hi) / 2
    if winner.toInt < (sums med).toInt then searchTicket sums winner lo med
    else searchTicket sums winner med hi
  else lo
termination_by hi - lo

/-- The slot that wins with the random number `r`. -/
def winnerSlot (sums : ℕ → U32) (r : U32) : ℕ := searchTicket sums (r % sums NPROC) 0 NPROC

/-- One round of `scheduler` up to its choice; `none` is the `continue` when there is nothing to
schedule. -/
def chooseProc (rng : Rng) : K (Option ℕ × Rng) := do
  let sums ← sumTickets 0 NPROC fun _ => 0
  if sums NPROC = 0 then return (none, rng)
  let (r, rng) := rand rng
  return (some (winnerSlot sums r), rng)

/-- `sys_settickets`: `false` is -1. -/
def sysSettickets (i : ℕ) (n : U32) : K Bool := do
  if n.toInt < 1 then return false
  modify fun s => s.setProc i { s.procs i with tickets := n.toInt }
  return true

/-! ### The sums -/

/-- The tickets with which a process takes part. -/
def Proc.plays (p : Proc) : ℤ := if p.state = .runnable then p.tickets else 0

/-- What `tickets_partial_sums[i]` is for the processes that were read. -/
def partialSums (procs : ℕ → Proc) : ℕ → U32
  | 0 => 0
  | i + 1 => partialSums procs i + BitVec.ofInt 32 (procs i).plays

/-- The process has a number of tickets that `sys_settickets` accepts. -/
def Proc.TicketsOk (p : Proc) : Prop :=
  ∃ n : U32, n.toInt = p.tickets ∧ ∀ i s, resultOf (sysSettickets i n s) = some true

theorem Proc.ticketsOk_iff {p : Proc} : p.TicketsOk ↔ 1 ≤ p.tickets ∧ p.tickets < 2 ^ 31 := by
  have hresult : ∀ (n : U32) i s, resultOf (sysSettickets i n s) = some true ↔ 1 ≤ n.toInt := by
    intro n i s
    unfold sysSettickets
    by_cases hn : n.toInt < 1
    · rw [if_pos hn]
      exact iff_of_false (fun h => by cases h) (not_le.2 hn)
    · rw [if_neg hn]
      exact iff_of_true rfl (not_lt.1 hn)
  constructor
  · rintro ⟨n, hn, haccept⟩
    have hlt := BitVec.toInt_lt (x := n)
    rw [← hn]
    exact ⟨(hresult n 0 Kernel.zero).1 (haccept 0 _), by simpa using hlt⟩
  · rintro ⟨h1, hlt⟩
    have hint : (BitVec.ofInt 32 p.tickets).toInt = p.tickets := by
      rw [BitVec.toInt_ofInt, Int.bmod_def]
      norm_num at hlt ⊢
      omega
    exact ⟨BitVec.ofInt 32 p.tickets, hint, fun i s => (hresult _ i s).2 (by rw [hint]; exact h1)⟩

/-- The loop reads every slot once and computes the sums. -/
theorem sumTickets_spec (s : Kernel) (hfree : ∀ i < NPROC, (s.procs i).locked = false) :
    wp (sumTickets 0 NPROC fun _ => 0) (fun _ => False) (fun sums t =>
      t = s ∧ ∀ i ≤ NPROC, sums i = partialSums s.procs i) s := by
  have main : ∀ n i sums, i + n = NPROC → (∀ j ≤ i, sums j = partialSums s.procs j) →
      wp (sumTickets i n sums) (fun _ => False) (fun sums t =>
        t = s ∧ ∀ i ≤ NPROC, sums i = partialSums s.procs i) s := by
    intro n
    induction n with
    | zero =>
      intro i sums hi hsums
      rw [sumTickets, wp_pure]
      exact ⟨rfl, fun j hj => hsums j (by omega)⟩
    | succ n ih =>
      intro i sums hi hsums
      have hlock := hfree i (by omega)
      have hback : (s.setProc i ((s.procs i).lock true)).setProc i
          (((s.procs i).lock true).lock false) = s := by
        simp only [Kernel.setProc, Function.update_idem]
        rw [show ((s.procs i).lock true).lock false = s.procs i by
          rw [Proc.lock, Proc.lock, ← hlock], Function.update_eq_self]
      rw [sumTickets]
      simp only [acquireProc, releaseProc, wp_bind, wp_get, wp_panicIf, hlock, Bool.false_eq_true,
        if_false, wp_set, Kernel.setProc, Function.update_self, Proc.lock_locked, Bool.not_true]
      simp only [Kernel.setProc] at hback
      rw [hback]
      refine ih (i + 1) _ (by omega) fun j hj => ?_
      have hstep : partialSums s.procs (i + 1) = sums i + BitVec.ofInt 32 (s.procs i).plays := by
        rw [partialSums, hsums i le_rfl]
      by_cases hj' : j = i + 1
      · subst hj'
        rw [hstep, Proc.plays]
        by_cases hr : (s.procs i).state = .runnable
        · rw [if_pos hr, if_pos (show ((s.procs i).lock true).state = .runnable from hr)]
          simp [Proc.lock]
        · rw [if_neg hr, if_neg (show ((s.procs i).lock true).state ≠ .runnable from hr)]
          simp
      · have hne : ∀ x, Function.update (Function.update sums (i + 1) (sums i)) (i + 1) x j =
            sums j := by
          intro x
          rw [Function.update_of_ne hj', Function.update_of_ne hj']
        split_ifs
        · rw [hne, hsums j (by omega)]
        · rw [Function.update_of_ne hj', hsums j (by omega)]
  exact main NPROC 0 _ (by simp) fun j hj => by
    obtain rfl : j = 0 := by omega
    rfl

/-- The number of tickets in the first `i` slots. -/
def tickets (procs : ℕ → Proc) (i : ℕ) : ℤ := ∑ j ∈ Finset.range i, (procs j).plays

section Sums

variable {procs : ℕ → Proc}

theorem tickets_succ (i : ℕ) : tickets procs (i + 1) = tickets procs i + (procs i).plays :=
  Finset.sum_range_succ ..

/-- The sums are right modulo `2 ^ 32`. -/
theorem partialSums_eq (i : ℕ) : partialSums procs i = BitVec.ofInt 32 (tickets procs i) := by
  induction i with
  | zero => rfl
  | succ i ih => rw [partialSums, ih, tickets_succ, BitVec.ofInt_add]

theorem toInt_partialSums {i : ℕ} (h0 : 0 ≤ tickets procs i) (h : tickets procs i < 2 ^ 31) :
    (partialSums procs i).toInt = tickets procs i := by
  rw [partialSums_eq, BitVec.toInt_ofInt, Int.bmod_def]
  norm_num at h ⊢
  omega

/-- A sum that has overflowed is negative. -/
theorem toInt_partialSums_neg {i : ℕ} (h0 : 2 ^ 31 ≤ tickets procs i)
    (h : tickets procs i < 2 ^ 32) : (partialSums procs i).toInt < 0 := by
  rw [partialSums_eq, BitVec.toInt_ofInt, Int.bmod_def]
  norm_num at h h0 ⊢
  omega

variable (ht : ∀ i < NPROC, (procs i).state = .runnable → (procs i).TicketsOk)

include ht

theorem plays_bounds {i : ℕ} (hi : i < NPROC) : 0 ≤ (procs i).plays ∧ (procs i).plays < 2 ^ 31 := by
  rw [Proc.plays]
  split_ifs with hr
  · have := Proc.ticketsOk_iff.1 (ht i hi hr)
    exact ⟨by linarith [this.1], this.2⟩
  · norm_num

theorem tickets_le {i j : ℕ} (hij : i ≤ j) (hj : j ≤ NPROC) :
    tickets procs i ≤ tickets procs j := by
  apply Finset.sum_le_sum_of_subset_of_nonneg
  · exact Finset.range_subset_range.2 hij
  · intro k hk _
    exact (plays_bounds ht (by have := Finset.mem_range.1 hk; omega)).1

theorem tickets_nonneg {i : ℕ} (hi : i ≤ NPROC) : 0 ≤ tickets procs i :=
  tickets_le ht (Nat.zero_le i) hi

/-- Someone plays. -/
theorem tickets_pos (hr : ∃ i < NPROC, (procs i).state = .runnable) : 0 < tickets procs NPROC := by
  obtain ⟨i, hi, hr⟩ := hr
  have h1 : tickets procs (i + 1) ≤ tickets procs NPROC := tickets_le ht (by omega) le_rfl
  have h2 := tickets_nonneg ht (i := i) hi.le
  have h3 : 1 ≤ (procs i).plays := by
    rw [Proc.plays, if_pos hr]
    exact (Proc.ticketsOk_iff.1 (ht i hi hr)).1
  rw [tickets_succ] at h1
  linarith

/-- Sums that never go down have not overflowed. -/
theorem tickets_lt_of_mono
    (hmono : ∀ i < NPROC, (partialSums procs i).toInt ≤ (partialSums procs (i + 1)).toInt) {i : ℕ}
    (hi : i ≤ NPROC) : tickets procs i < 2 ^ 31 := by
  induction i with
  | zero => norm_num [tickets]
  | succ i ih =>
    have hlt := ih (by omega)
    have h0 := tickets_nonneg ht (i := i) (by omega)
    by_contra hge
    have hneg : (partialSums procs (i + 1)).toInt < 0 := by
      refine toInt_partialSums_neg (not_lt.1 hge) ?_
      rw [tickets_succ]
      have := (plays_bounds ht (i := i) (by omega)).2
      linarith
    have hle := hmono i (by omega)
    rw [toInt_partialSums h0 hlt] at hle
    linarith

end Sums

/-! ### The search -/

/-- The search ends in a slot with the winner among its tickets.  It needs no order of the sums. -/
theorem searchTicket_spec {sums : ℕ → U32} {winner : U32} {lo hi : ℕ} (hlt : lo < hi)
    (hlo : (sums lo).toInt ≤ winner.toInt) (hhi : winner.toInt < (sums hi).toInt) :
    lo ≤ searchTicket sums winner lo hi ∧ searchTicket sums winner lo hi < hi ∧
      (sums (searchTicket sums winner lo hi)).toInt ≤ winner.toInt ∧
      winner.toInt < (sums (searchTicket sums winner lo hi + 1)).toInt := by
  induction lo, hi using searchTicket.induct sums winner with
  | case1 lo hi h1 med hc ih =>
    rw [searchTicket, if_pos h1, if_pos hc]
    obtain ⟨h2, h3, h4⟩ := ih (by omega) hlo hc
    exact ⟨h2, h3.trans (by omega), h4⟩
  | case2 lo hi h1 med hc ih =>
    rw [searchTicket, if_pos h1, if_neg hc]
    obtain ⟨h2, h3, h4⟩ := ih (by omega) (not_lt.1 hc) hhi
    exact ⟨le_trans (by omega) h2, h3, h4⟩
  | case3 lo hi h1 =>
    rw [searchTicket, if_neg h1]
    obtain rfl : hi = lo + 1 := by omega
    exact ⟨le_rfl, hlt, hlo, hhi⟩

theorem searchTicket_congr {sums sums' : ℕ → U32} {winner : U32} {lo hi : ℕ}
    (h : ∀ i ≤ hi, sums i = sums' i) :
    searchTicket sums winner lo hi = searchTicket sums' winner lo hi := by
  induction lo, hi using searchTicket.induct sums winner with
  | case1 lo hi h1 med hc ih =>
    have hmed : med ≤ hi := by omega
    rw [searchTicket, if_pos h1, if_pos hc, ih fun i hi' => h i (hi'.trans hmed)]
    rw [h _ hmed] at hc
    conv_rhs => rw [searchTicket, if_pos h1, if_pos hc]
  | case2 lo hi h1 med hc ih =>
    have hmed : med ≤ hi := by omega
    rw [searchTicket, if_pos h1, if_neg hc, ih h]
    rw [h _ hmed] at hc
    conv_rhs => rw [searchTicket, if_pos h1, if_neg hc]
  | case3 lo hi h1 => rw [searchTicket, if_neg h1, searchTicket, if_neg h1]

/-- A round of the scheduler on a table with all locks free. -/
theorem chooseProc_spec (rng : Rng) (s : Kernel)
    (hfree : ∀ i < NPROC, (s.procs i).locked = false) :
    wp (chooseProc rng) (fun _ => False) (fun res t => t = s ∧
      res = if partialSums s.procs NPROC = 0 then (none, rng)
        else (some (winnerSlot (partialSums s.procs) (rand rng).1), (rand rng).2)) s := by
  rw [chooseProc, wp_bind]
  refine (sumTickets_spec s hfree).mono fun sums t ht => ?_
  obtain ⟨rfl, hsums⟩ := ht
  rw [wp_ite, hsums NPROC le_rfl]
  split_ifs
  · exact ⟨rfl, rfl⟩
  · refine ⟨rfl, ?_⟩
    rw [winnerSlot, hsums NPROC le_rfl, searchTicket_congr hsums, winnerSlot]
    rfl

/-- A total of 0 is taken for an empty table. -/
theorem chooseProc_none (rng : Rng) {s : Kernel} (hfree : ∀ i < NPROC, (s.procs i).locked = false)
    (h0 : partialSums s.procs NPROC = 0) : chooseProc rng s = .ok ((none, rng), s) := by
  obtain ⟨res, t, hrun, ht, hres⟩ := (chooseProc_spec rng s hfree).exists_ok
  rw [if_pos h0] at hres
  rw [hrun, ht, hres]

/-- A draw from a positive total. -/
theorem toInt_draw {total : U32} (h : 0 < total.toInt) (r : U32) :
    0 ≤ (r % total).toInt ∧ (r % total).toInt < total.toInt := by
  have hpos : total.toInt = total.toNat := by
    rw [BitVec.toInt_eq_toNat_cond] at h ⊢
    have := total.isLt
    split_ifs at h ⊢ <;> omega
  have hn : 0 < total.toNat := by omega
  have hlt : 2 * total.toNat < 2 ^ 32 := by
    rw [BitVec.toInt_eq_toNat_cond] at hpos
    have := total.isLt
    split_ifs at hpos <;> omega
  have hmod : (r % total).toNat < total.toNat := by
    rw [BitVec.toNat_umod]
    exact Nat.mod_lt _ hn
  have heq : (r % total).toInt = (r % total).toNat := by
    rw [BitVec.toInt_eq_toNat_cond, if_pos (by omega)]
  omega

/-- When the total is positive the winner is RUNNABLE. -/
theorem winnerSlot_runnable {procs : ℕ → Proc} (h : 0 < (partialSums procs NPROC).toInt) (r : U32) :
    (procs (winnerSlot (partialSums procs) r)).state = .runnable := by
  obtain ⟨h0, hlt⟩ := toInt_draw h r
  obtain ⟨-, -, h1, h2⟩ :=
    searchTicket_spec (show 0 < NPROC by decide) (show (partialSums procs 0).toInt ≤ _ from h0) hlt
  by_contra hr
  have hsame : partialSums procs (winnerSlot (partialSums procs) r + 1)
      = partialSums procs (winnerSlot (partialSums procs) r) := by
    rw [partialSums, Proc.plays, if_neg hr]
    simp
  rw [winnerSlot] at hsame
  rw [hsame] at h2
  omega

/-! ### Chances -/

section Chances

variable {procs : ℕ → Proc} (ht : ∀ i < NPROC, (procs i).state = .runnable → 1 ≤ (procs i).tickets)
  (hT : tickets procs NPROC < 2 ^ 31)

include ht hT

/-- Tickets whose sum is an `int` are `int`s. -/
theorem ticketsOk_of_total {i : ℕ} (hi : i < NPROC) (hr : (procs i).state = .runnable) :
    (procs i).TicketsOk := by
  have hnonneg : ∀ j ∈ Finset.range NPROC, 0 ≤ (procs j).plays := fun j hj => by
    rw [Proc.plays]
    split_ifs with hr
    · linarith [ht j (Finset.mem_range.1 hj) hr]
    · exact le_rfl
  have hle := Finset.single_le_sum hnonneg (Finset.mem_range.2 hi)
  rw [Proc.plays, if_pos hr] at hle
  exact Proc.ticketsOk_iff.2 ⟨ht i hi hr, hle.trans_lt hT⟩

theorem toInt_partialSums_of_total {i : ℕ} (hi : i ≤ NPROC) :
    (partialSums procs i).toInt = tickets procs i :=
  have hok := fun i hi hr => ticketsOk_of_total ht hT (i := i) hi hr
  toInt_partialSums (tickets_nonneg hok hi) ((tickets_le hok hi le_rfl).trans_lt hT)

/-- A ticket belongs to the slot that the search finds. -/
theorem searchTicket_interval {w : U32} (h0 : 0 ≤ w.toInt) (hw : w.toInt < tickets procs NPROC) :
    searchTicket (partialSums procs) w 0 NPROC < NPROC ∧
      tickets procs (searchTicket (partialSums procs) w 0 NPROC) ≤ w.toInt ∧
      w.toInt < tickets procs (searchTicket (partialSums procs) w 0 NPROC + 1) := by
  have hsum {i : ℕ} (hi : i ≤ NPROC) := toInt_partialSums_of_total ht hT hi
  obtain ⟨-, hlt, hlo, hhi⟩ := searchTicket_spec (show 0 < NPROC by decide)
    (show (partialSums procs 0).toInt ≤ w.toInt from h0) (by rwa [hsum le_rfl])
  rw [hsum hlt.le] at hlo
  rw [hsum hlt] at hhi
  exact ⟨hlt, hlo, hhi⟩

/-- The slot that the search finds is the one whose tickets include the winner. -/
theorem searchTicket_eq_iff {w : U32} (h0 : 0 ≤ w.toInt) (hw : w.toInt < tickets procs NPROC)
    {i : ℕ} (hi : i < NPROC) : searchTicket (partialSums procs) w 0 NPROC = i ↔
      tickets procs i ≤ w.toInt ∧ w.toInt < tickets procs (i + 1) := by
  obtain ⟨hlt, hlo, hhi⟩ := searchTicket_interval ht hT h0 hw
  have hmono {i j : ℕ} (hij : i ≤ j) (hj : j ≤ NPROC) : tickets procs i ≤ tickets procs j :=
    tickets_le (fun i hi hr => ticketsOk_of_total ht hT (i := i) hi hr) hij hj
  generalize searchTicket (partialSums procs) w 0 NPROC = lo at hlt hlo hhi ⊢
  constructor
  · rintro rfl
    exact ⟨hlo, hhi⟩
  · rintro ⟨hlo', hhi'⟩
    rcases lt_trichotomy lo i with h | h | h
    · linarith [hmono (show lo + 1 ≤ i from h) hi.le]
    · exact h
    · linarith [hmono (show i + 1 ≤ lo from h) hlt.le]

/-- The number of draws that pick a slot. -/
theorem card_winners {i : ℕ} (hi : i < NPROC) :
    (((Finset.range (tickets procs NPROC).toNat).filter fun w =>
      searchTicket (partialSums procs) (BitVec.ofNat 32 w) 0 NPROC = i).card : ℤ) =
      (procs i).plays := by
  have hok := fun i hi hr => ticketsOk_of_total ht hT (i := i) hi hr
  have h0 := tickets_nonneg hok hi.le
  have h1 := tickets_le hok (show i ≤ i + 1 by omega) hi
  have h2 := tickets_le hok (show i + 1 ≤ NPROC from hi) le_rfl
  have hset : ((Finset.range (tickets procs NPROC).toNat).filter fun w =>
      searchTicket (partialSums procs) (BitVec.ofNat 32 w) 0 NPROC = i) =
      Finset.Ico (tickets procs i).toNat (tickets procs (i + 1)).toNat := by
    ext w
    rw [Finset.mem_filter, Finset.mem_range, Finset.mem_Ico]
    -- a draw is the same number as an `int`
    have hint (hw : w < (tickets procs NPROC).toNat) : (BitVec.ofNat 32 w).toInt = w := by
      rw [BitVec.toInt_eq_toNat_cond, BitVec.toNat_ofNat]
      split_ifs <;> omega
    constructor
    · rintro ⟨hw, he⟩
      have := (searchTicket_eq_iff ht hT (by rw [hint hw]; omega) (by rw [hint hw]; omega) hi).1 he
      rw [hint hw] at this
      omega
    · rintro ⟨hlo, hhi⟩
      have hw : w < (tickets procs NPROC).toNat := by omega
      refine ⟨hw,
        (searchTicket_eq_iff ht hT (by rw [hint hw]; omega) (by rw [hint hw]; omega) hi).2 ?_⟩
      rw [hint hw]
      omega
  rw [hset, Nat.card_Ico]
  have : tickets procs (i + 1) = tickets procs i + (procs i).plays := tickets_succ i
  omega

end Chances

/-- The lottery is proportional: a winner among the tickets of the RUNNABLE processes is found in
the slot it belongs to, and every slot is picked by as many winners as it has tickets in the
game. -/
theorem lottery_is_proportional (procs : ℕ → Proc)
    (ht : ∀ i < NPROC, (procs i).state = .runnable → 1 ≤ (procs i).tickets)
    (hT : tickets procs NPROC < 2 ^ 31) :
    (∀ s : Kernel, s.procs = procs → (∀ i < NPROC, (procs i).locked = false) →
      wp (sumTickets 0 NPROC fun _ => 0) (fun _ => False)
        (fun sums t => t = s ∧ ∀ i ≤ NPROC, sums i = partialSums procs i) s) ∧
    (∀ w : U32, 0 ≤ w.toInt → w.toInt < tickets procs NPROC →
      let lo := searchTicket (partialSums procs) w 0 NPROC
      lo < NPROC ∧ (partialSums procs lo).toInt ≤ w.toInt ∧
        w.toInt < (partialSums procs (lo + 1)).toInt ∧ (procs lo).state = .runnable) ∧
    ∀ i < NPROC, (((Finset.range (tickets procs NPROC).toNat).filter fun w =>
      searchTicket (partialSums procs) (BitVec.ofNat 32 w) 0 NPROC = i).card : ℤ) =
        if (procs i).state = .runnable then (procs i).tickets else 0 := by
  refine ⟨fun s hs hfree => hs ▸ sumTickets_spec s (hs ▸ hfree), fun w h0 hw => ?_,
    fun i hi => card_winners ht hT hi⟩
  obtain ⟨hlt, hlo, hhi⟩ := searchTicket_interval ht hT h0 hw
  refine ⟨hlt, ?_, ?_, ?_⟩
  · rwa [toInt_partialSums_of_total ht hT hlt.le]
  · rwa [toInt_partialSums_of_total ht hT hlt]
  · by_contra hr
    rw [tickets_succ, Proc.plays, if_neg hr, add_zero] at hhi
    exact absurd hhi hlo.not_gt

/-- The sums do not go down, the total is positive and every draw picks a RUNNABLE process if and
only if the RUNNABLE processes have less than `2 ^ 31` tickets. -/
theorem partialSums_fair_iff (procs : ℕ → Proc)
    (ht : ∀ i < NPROC, (procs i).state ≠ .unused → (procs i).TicketsOk)
    (hr : ∃ i < NPROC, (procs i).state = .runnable) :
    ((∀ i < NPROC, (partialSums procs i).toInt ≤ (partialSums procs (i + 1)).toInt) ∧
      0 < (partialSums procs NPROC).toInt ∧
      ∀ r : U32, (procs (winnerSlot (partialSums procs) r)).state = .runnable) ↔
    tickets procs NPROC < 2 ^ 31 := by
  have ht' : ∀ i < NPROC, (procs i).state = .runnable → (procs i).TicketsOk := fun i hi hi' =>
    ht i hi (by simp [hi'])
  constructor
  · rintro ⟨hmono, -⟩
    exact tickets_lt_of_mono ht' hmono le_rfl
  · intro hlt
    have heq : ∀ i ≤ NPROC, (partialSums procs i).toInt = tickets procs i := fun i hi =>
      toInt_partialSums (tickets_nonneg ht' hi) ((tickets_le ht' hi le_rfl).trans_lt hlt)
    have hpos : 0 < (partialSums procs NPROC).toInt := by
      rw [heq _ le_rfl]
      exact tickets_pos ht' hr
    refine ⟨fun i hi => ?_, hpos, fun r => winnerSlot_runnable hpos r⟩
    rw [heq i hi.le, heq (i + 1) hi]
    exact tickets_le ht' (Nat.le_succ i) hi

/-- **The lottery is right exactly while the sum of all tickets is an `int`.**  In a kernel with a
RUNNABLE process and no lock of the table held: the sums that the scheduler computes do not go down,
its total is positive, every draw picks a RUNNABLE process, and so does every round of the
scheduler, if and only if the RUNNABLE processes have less than `2 ^ 31` tickets. -/
theorem lottery_picks_runnable (s : Kernel) (hfree : ∀ i < NPROC, (s.procs i).locked = false)
    (ht : ∀ i < NPROC, (s.procs i).state ≠ .unused → (s.procs i).TicketsOk)
    (hr : ∃ i < NPROC, (s.procs i).state = .runnable) :
    (∃ sums, sumTickets 0 NPROC (fun _ => 0) s = .ok (sums, s) ∧
      (∀ i < NPROC, (sums i).toInt ≤ (sums (i + 1)).toInt) ∧ 0 < (sums NPROC).toInt ∧
      (∀ r : U32, (s.procs (winnerSlot sums r)).state = .runnable) ∧
      ∀ rng, ∃ slot, chooseProc rng s = .ok ((some slot, (rand rng).2), s) ∧
        (s.procs slot).state = .runnable) ↔
    tickets s.procs NPROC < 2 ^ 31 := by
  obtain ⟨sums, t, hrun, rfl, hsums⟩ := (sumTickets_spec s hfree).exists_ok
  have hwinner : ∀ r, winnerSlot sums r = winnerSlot (partialSums t.procs) r := by
    intro r
    rw [winnerSlot, hsums NPROC le_rfl, searchTicket_congr hsums, winnerSlot]
  have hmono : (∀ i < NPROC, (sums i).toInt ≤ (sums (i + 1)).toInt) ↔
      ∀ i < NPROC, (partialSums t.procs i).toInt ≤ (partialSums t.procs (i + 1)).toInt := by
    refine forall₂_congr fun i hi => ?_
    rw [hsums i hi.le, hsums (i + 1) hi]
  rw [← partialSums_fair_iff t.procs ht hr]
  constructor
  · rintro ⟨sums', hrun', hm, hpos, hall, -⟩
    obtain ⟨rfl, -⟩ := Prod.mk.inj (Except.ok.inj (hrun.symm.trans hrun'))
    rw [hsums NPROC le_rfl] at hpos
    exact ⟨hmono.1 hm, hpos, fun r => hwinner r ▸ hall r⟩
  · rintro ⟨hm, hpos, hall⟩
    refine ⟨sums, hrun, hmono.2 hm, by rwa [hsums NPROC le_rfl],
      fun r => by rw [hwinner]; exact hall r,
      fun rng => ⟨winnerSlot (partialSums t.procs) (rand rng).1, ?_, hall _⟩⟩
    obtain ⟨res, t', hrun', rfl, hres⟩ := (chooseProc_spec rng t hfree).exists_ok
    have hne : partialSums t'.procs NPROC ≠ 0 := by
      intro h0
      rw [h0] at hpos
      simp at hpos
    rw [if_neg hne] at hres
    rw [hrun', hres]

/-- Processes in the first slots with these tickets. -/
def players (ts : List ℤ) (i : ℕ) : Proc :=
  match ts[i]? with
  | some n => { Proc.zero with state := .runnable, pid := i + 1, tickets := n }
  | none => Proc.zero

/-- Ten of eleven winners pick the second process. -/
theorem lottery_is_proportional_two :
    ((Finset.range 11).filter fun w =>
      searchTicket (partialSums (players [1, 10])) (BitVec.ofNat 32 w) 0 NPROC = 1).card = 10 := by
  have hT : tickets (players [1, 10]) NPROC = 11 := by decide +kernel
  have h := (lottery_is_proportional (players [1, 10]) (by decide +kernel)
    (by rw [hT]; decide)).2.2 1 (by decide)
  rw [hT] at h
  exact Int.ofNat.inj h

/-- A kernel with these players. -/
def playing (ts : List ℤ) : Kernel := { Kernel.zero with procs := players ts }

/-- Three processes that have all tickets an `int` can count between them. -/
theorem lottery_picks_runnable_three :
    tickets (players [1, 1000, 2 ^ 31 - 1002]) NPROC < 2 ^ 31 ∧
      ∀ rng, ∃ slot, chooseProc rng (playing [1, 1000, 2 ^ 31 - 1002]) =
          .ok ((some slot, (rand rng).2), playing [1, 1000, 2 ^ 31 - 1002]) ∧
        (players [1, 1000, 2 ^ 31 - 1002] slot).state = .runnable := by
  have hlt : tickets (players [1, 1000, 2 ^ 31 - 1002]) NPROC < 2 ^ 31 := by decide +kernel
  have hok : ∀ i < NPROC, (players [1, 1000, 2 ^ 31 - 1002] i).state ≠ .unused →
      (players [1, 1000, 2 ^ 31 - 1002] i).TicketsOk := by
    simp only [Proc.ticketsOk_iff]
    decide +kernel
  have hiff := lottery_picks_runnable (playing [1, 1000, 2 ^ 31 - 1002]) (by decide +kernel) hok
    ⟨0, by decide, rfl⟩
  obtain ⟨-, -, -, -, -, hchoose⟩ := hiff.2 hlt
  exact ⟨hlt, hchoose⟩

/-- Three RUNNABLE processes whose tickets add up to `2 ^ 32`. -/
def frozenKernel : Kernel := playing [2 ^ 31 - 1, 2 ^ 31 - 1, 2]

/-- Three processes with one ticket each call `settickets`. -/
def setThree : K (Bool × Bool × Bool) := do
  let a ← sysSettickets 0 0x7fffffff
  let b ← sysSettickets 1 0x7fffffff
  let c ← sysSettickets 2 2
  return (a, b, c)

/-- The scheduler finds nothing to schedule. -/
theorem lottery_overflow :
    setThree (playing [1, 1, 1]) = .ok ((true, true, true), frozenKernel) ∧
      (∀ i < NPROC, (frozenKernel.procs i).state ≠ .unused → (frozenKernel.procs i).TicketsOk) ∧
      (∃ i < NPROC, (frozenKernel.procs i).state = .runnable) ∧
      ∀ rng, chooseProc rng frozenKernel = .ok ((none, rng), frozenKernel) := by
  refine ⟨?_, ?_, ⟨0, by decide, rfl⟩,
    fun rng => chooseProc_none rng (by decide +kernel) (by decide +kernel)⟩
  · have hprocs : ((playing [1, 1, 1]).setProc 0 (frozenKernel.procs 0) |>.setProc 1
        (frozenKernel.procs 1) |>.setProc 2 (frozenKernel.procs 2)).procs = frozenKernel.procs := by
      funext i
      match i with
      | 0 | 1 | 2 => rfl
      | i + 3 => rfl
    exact congrArg
      (fun procs => Except.ok ((true, true, true), { Kernel.zero with procs := procs })) hprocs
  · simp only [Proc.ticketsOk_iff]
    decide +kernel

end Xv6
