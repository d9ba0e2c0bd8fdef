import Xv6.Umalloc

/-!
# The size of a request

`malloc` rounds a `uint` number of bytes up to headers, `morecore` multiplies the headers by 16 in
64 bits, and `sbrk` takes an `int`.  A request of nearly two gigabytes or more comes out negative
there, and one of nearly four comes out as 0 or 16: `sbrk` then takes memory back or gives next to
none, and answers with the end of the heap all the same.  `malloc_usable_iff` says which calls
return memory that the process has.
-/

namespace Xv6.Umalloc

open Wp

/-- A heap `malloc` may find: there is no list yet, or the headers of the list and of the blocks
handed out lay claim to the memory granted. -/
def Heap.WellFormed (base : ℕ) (s : Heap) : Prop :=
  (s.freep = 0 ∧ s.brk = []) ∨ ∃ F A, Listed base F A (granted s.brk) s

/-- A node of the list has `n` headers. -/
def Heap.Roomy (n : ℕ) (s : Heap) : Prop :=
  s.freep ≠ 0 ∧ ∃ k, n ≤ size s.mem ((ptr s.mem)^[k] s.freep)

/-- `malloc` returns, with 0 or with a pointer to `nbytes` bytes of the memory granted. -/
def Heap.Usable (base : ℕ) (sbrk : Sbrk) (nbytes : BitVec 32) (s : Heap) : Prop :=
  ∃ r t, malloc base sbrk nbytes s = .ok (r, t) ∧
    (r = 0 ∨ ∀ i < nbytes.toNat, r + i ∈ granted t.brk)

variable {base : ℕ} {s : Heap} {sbrk : Sbrk} {nbytes : BitVec 32}

/-- Every heap `malloc` may find has a list, if need be the empty one that `malloc` makes. -/
theorem Heap.WellFormed.malloc (hbase : 0 < base) (hlt : base < 2 ^ 64) (hs : s.WellFormed base)
    (hfresh : Fresh base s.brk (16 * coreUnits (unitsOf nbytes)) (answer sbrk nbytes s)) :
    ∃ F A h r t, Listed base F A (granted h.brk) h ∧ h.brk = s.brk ∧
      (s.Roomy (unitsOf nbytes) ↔ ∃ a ∈ F, unitsOf nbytes ≤ size h.mem a) ∧
      malloc base sbrk nbytes s = .ok (r, t) ∧ Served base F A sbrk (unitsOf nbytes) h r t := by
  rcases hs with ⟨hf, hbrk⟩ | ⟨F, A, hF⟩
  · obtain ⟨r, t, hrun, hr⟩ := (wp_malloc_first hbase hlt hf hbrk hfresh).exists_ok
    have hlist := firstList_listed hbase hlt hbrk
    refine ⟨{base}, ∅, firstList base s, r, t, hlist, rfl, ?_, hrun, hr⟩
    refine iff_of_false (fun h => h.1 hf) ?_
    rintro ⟨a, ha, hle⟩
    have hpos := unitsOf_pos nbytes
    rw [Finset.mem_singleton.1 ha, hlist.arena.base_size] at hle
    omega
  · obtain ⟨r, t, hrun, hr⟩ := (wp_malloc hF hfresh).exists_ok
    refine ⟨F, A, s, r, t, hF, rfl, ?_, hrun, hr⟩
    constructor
    · rintro ⟨-, k, hk⟩
      exact ⟨_, hF.mem_iff.2 ⟨k, rfl⟩, hk⟩
    · rintro ⟨a, ha, hle⟩
      obtain ⟨k, rfl⟩ := hF.mem_iff.1 ha
      exact ⟨(hF.pos (Finset.mem_union_left _ hF.freep_mem)).ne', k, hle⟩

/-- A block handed out has room for the bytes asked for, in the memory its header lays claim to. -/
theorem Handed.payload {A got : Finset ℕ} {q : ℕ} {t : Heap}
    (h : Handed base A (unitsOf nbytes) q got s t) :
    ∀ i < nbytes.toNat, plus q 1 + i ∈ got := by
  intro i hi
  obtain ⟨F, hF⟩ := h.listed
  refine (hF.arena.cover _).2 ⟨q, Finset.mem_union_right _ (Finset.mem_insert_self _ _), ?_, ?_⟩
  · unfold plus
    omega
  · have := le_units nbytes
    rw [h.units]
    unfold plus
    omega

/-- A byte count that does not fit the `int` gets less than one header of memory beyond `hp`. -/
theorem notMem_granted_moveBrk {n hp : ℕ} (hn : n ≤ 2 ^ 28 + 1) (hbig : ¬ 16 * coreUnits n < 2 ^ 31)
    {brk : List (ℕ × ℕ)} (habove : ∀ x ∈ brk, x.1 + x.2 ≤ hp) :
    plus hp 1 ∉ granted (moveBrk hp (coreBytes n).toInt brk) := by
  have hcore : coreUnits n = n := by
    unfold coreUnits at hbig ⊢
    split_ifs at hbig ⊢ <;> omega
  have hint : (coreBytes n).toInt ≤ 16 := by
    rw [coreBytes, hcore, BitVec.toInt_ofNat', Int.bmod]
    rw [hcore] at hbig
    split_ifs <;> omega
  rw [mem_granted]
  rintro ⟨x, hx, -, hlt⟩
  rw [moveBrk] at hx
  split_ifs at hx with hpos
  · rcases List.mem_cons.1 hx with rfl | hx
    · unfold plus at hlt
      omega
    · have := habove x hx
      unfold plus at hlt
      omega
  · obtain ⟨y, hy, rfl⟩ := List.mem_map.1 hx
    have := habove y hy
    have hmin := Nat.min_le_left y.2 (hp + (coreBytes n).toInt - y.1).toNat
    unfold plus at hlt
    simp only at hlt
    omega

/-- **The memory `malloc` returns.**  `malloc` returns 0 or a pointer to as many bytes of the memory
granted as were asked for exactly when a free block is large enough, or `sbrk` refuses, or the byte
count fits the `int` of `sbrk`; and then the headers lay claim to the memory granted again. -/
theorem malloc_usable_iff (hbase : 0 < base) (hlt : base < 2 ^ 64) (hs : s.WellFormed base)
    (hfresh : Fresh base s.brk (16 * coreUnits (unitsOf nbytes)) (answer sbrk nbytes s)) :
    (s.Usable base sbrk nbytes ↔ s.Roomy (unitsOf nbytes) ∨ answer sbrk nbytes s = none ∨
      16 * coreUnits (unitsOf nbytes) < 2 ^ 31) ∧
    (s.Usable base sbrk nbytes → ∃ r t, malloc base sbrk nbytes s = .ok (r, t) ∧
      t.WellFormed base) := by
  obtain ⟨F, A, h, r, t, hF, hbrk, hroomy, hrun, hr⟩ := hs.malloc hbase hlt hfresh
  have husable : s.Usable base sbrk nbytes ↔ r = 0 ∨ ∀ i < nbytes.toNat, r + i ∈ granted t.brk := by
    constructor
    · rintro ⟨r', t', hrun', h'⟩
      rw [hrun] at hrun'
      obtain ⟨rfl, rfl⟩ := Prod.mk.inj (Except.ok.inj hrun')
      exact h'
    · exact fun h' => ⟨r, t, hrun, h'⟩
  rw [hroomy, husable]
  cases hr with
  | found hroom q hr htbrk ht =>
    rw [← htbrk] at ht
    have hpay : ∀ i < nbytes.toNat, r + i ∈ granted t.brk := hr ▸ ht.payload
    obtain ⟨F', hF'⟩ := ht.listed
    exact ⟨iff_of_true (Or.inr hpay) (Or.inl hroom), fun _ => ⟨r, t, hrun, Or.inr ⟨F', _, hF'⟩⟩⟩
  | refused hroom hans hr ht =>
    have hnone : answer sbrk nbytes s = none := by rwa [answer, ← hbrk]
    exact ⟨iff_of_true (Or.inl hr) (Or.inr (Or.inl hnone)),
      fun _ => ⟨r, t, hrun, Or.inr ⟨F, A, ht ▸ hF⟩⟩⟩
  | grown hroom hp hans q hr htbrk hq ht =>
    by_cases hfit : 16 * coreUnits (unitsOf nbytes) < 2 ^ 31
    · rw [← (granted_moveBrk _ hfit h).2, ← htbrk] at ht
      have hpay : ∀ i < nbytes.toNat, r + i ∈ granted t.brk := hr ▸ ht.payload
      obtain ⟨F', hF'⟩ := ht.listed
      exact ⟨iff_of_true (Or.inr hpay) (Or.inr (Or.inr hfit)),
        fun _ => ⟨r, t, hrun, Or.inr ⟨F', _, hF'⟩⟩⟩
    · -- the block begins at the old end of the heap, and what follows its header is not granted
      have hans' : answer sbrk nbytes s = some hp := by rwa [answer, ← hbrk]
      have hcore : coreUnits (unitsOf nbytes) = unitsOf nbytes := by
        unfold coreUnits at hfit ⊢
        split_ifs at hfit ⊢ <;> omega
      have hqp : q = hp := by
        rw [hcore] at hq
        unfold plus at hq
        omega
      have hnot : ¬ (r = 0 ∨ ∀ i < nbytes.toNat, r + i ∈ granted t.brk) := by
        rintro (h0 | hall)
        · rw [hr] at h0
          unfold plus at h0
          omega
        · have hpos : 0 < nbytes.toNat := by
            unfold unitsOf at hcore hfit
            omega
          have := hall 0 hpos
          rw [hr, hqp, htbrk, hbrk] at this
          exact notMem_granted_moveBrk (unitsOf_le nbytes) hfit
            (fun x hx => (hfresh hp hans').2.1 x hx) this
      have hroom' : ¬ ∃ a ∈ F, unitsOf nbytes ≤ size h.mem a := by
        rintro ⟨a, ha, hle⟩
        have := hroom a ha
        omega
      refine ⟨iff_of_false hnot ?_, fun h' => absurd h' hnot⟩
      rintro (h' | h' | h')
      · exact hroom' h'
      · exact absurd (h'.symm.trans hans') (by simp)
      · exact hfit h'

/-- The first request of a process, for a hundred bytes. -/
theorem malloc_usable_hundred :
    (Sys.start fun _ => 0).heap.Usable 0x2000 heapEnd 100 :=
  (malloc_usable_iff (by decide) (by decide) (Or.inl ⟨rfl, rfl⟩) (by decide)).1.2
    (Or.inr (Or.inr (by decide)))

/-- A request for `0xffffffff` bytes is answered with 16 bytes, which its header takes up. -/
theorem malloc_unusable : ¬ (Sys.start fun _ => 0).heap.Usable 0x2000 heapEnd 0xffffffff := by
  have hrun : (malloc 0x2000 heapEnd 0xffffffff (Sys.start fun _ => 0).heap).map
      (fun p => (p.1, p.2.brk)) = .ok (0x3010, [(0x3000, 16)]) := by decide +kernel
  rintro ⟨r, t, hok, hr⟩
  rw [hok] at hrun
  obtain ⟨h1, h2⟩ := Prod.mk.inj (Except.ok.inj hrun)
  rcases hr with h0 | hall
  · exact absurd (h1.symm.trans h0) (by decide)
  · have := hall 0 (by decide)
    simp only at h1 h2
    rw [h1, h2] at this
    exact absurd this (by decide)

end Xv6.Umalloc
