import Xv6.Blocks

/-!
# Who owns a block

A block of the data area is marked in the bitmap if and only if one slot of one inode refers to it:
a direct slot, a slot of its indirect block, or the slot of the indirect block itself.

The invariant `FsOk D x fs` is stated for the inodes `D` as they are meant to be.  A valid inode in
memory agrees with `D`, and so does every inode on disk, except for the inode `x` that is being
changed in memory and has not been written back yet.
-/

namespace Xv6

open Bytes Wp Tally

/-! ### Slots -/

/-- The address in slot `n` of an inode: the direct slots, those of the indirect block, and at the
end the slot of the indirect block itself. -/
def slotEntry (fs : Fs) (d : Dinode) (n : ℕ) : U32 :=
  if n < NDIRECT then d.addrs n
  else if n = MAXFILE then d.addrs NDIRECT
  else if d.addrs NDIRECT = 0 then 0
  else loadW 32 (fs.log.buf (d.addrs NDIRECT).toNat) (4 * (n - NDIRECT))

/-- The slots of all inodes. -/
def slotsOf (sb : Superblock) : Finset (ℕ × ℕ) :=
  Finset.range sb.ninodes.toNat ×ˢ Finset.range (MAXFILE + 1)

/-- The block that a slot of an allocated inode refers to. -/
def slotPtr (fs : Fs) (D : ℕ → Dinode) (x : ℕ × ℕ) : Option ℕ :=
  if (D x.1).type = 0 ∨ slotEntry fs (D x.1) x.2 = 0 then none
  else some (slotEntry fs (D x.1) x.2).toNat

/-- Blocks are marked if and only if they are referred to, and no file has a hole. -/
structure Owned (D : ℕ → Dinode) (fs : Fs) : Prop where
  marks : Marks (slotsOf fs.sb) (slotPtr fs D) fs.bit (InData fs.sb)
  low : ∀ b < dataStart fs.sb, fs.bit b = true
  size_le : ∀ inum < fs.sb.ninodes.toNat, (D inum).type ≠ 0 →
    (D inum).size.toNat ≤ MAXFILE * BSIZE
  mapped : ∀ inum < fs.sb.ninodes.toNat, (D inum).type ≠ 0 → ∀ bn,
    bn * BSIZE < (D inum).size.toNat → slotPtr fs D (inum, bn) ≠ none

/-- The file system is in order, for the inodes `D` and while inode `x` is being changed. -/
structure FsOk (D : ℕ → Dinode) (x : Option ℕ) (fs : Fs) : Prop where
  layout : DiskLayout fs
  log : LogOk fs.log
  owned : Owned D fs
  disk : ∀ inum < fs.sb.ninodes.toNat, x ≠ some inum → fs.dinode inum = D inum
  mem : ∀ ip, 0 < (fs.itable ip).ref → (fs.itable ip).valid →
    (fs.itable ip).dinode = D (fs.itable ip).inum.toNat ∧ (fs.itable ip).type ≠ 0
  inum : ∀ ip, 0 < (fs.itable ip).ref → ip < NINODE ∧ (fs.itable ip).dev = ROOTDEV ∧
    (fs.itable ip).inum.toNat < fs.sb.ninodes.toNat
  unique : ∀ ip ip', 0 < (fs.itable ip).ref → 0 < (fs.itable ip').ref →
    (fs.itable ip).inum = (fs.itable ip').inum → ip = ip'

section

variable {D D' : ℕ → Dinode} {x : Option ℕ} {fs fs' : Fs} {inum n : ℕ} {d : Dinode}

theorem mem_slotsOf (hi : inum < fs.sb.ninodes.toNat) (hn : n ≤ MAXFILE) :
    (inum, n) ∈ slotsOf fs.sb := by
  simp only [slotsOf, Finset.mem_product, Finset.mem_range]
  omega

theorem mem_slotsOf_iff {y : ℕ × ℕ} :
    y ∈ slotsOf fs.sb ↔ y.1 < fs.sb.ninodes.toNat ∧ y.2 ≤ MAXFILE := by
  simp only [slotsOf, Finset.mem_product, Finset.mem_range]
  omega

attribute [local irreducible] slotsOf

theorem slotEntry_congr (h : d.addrs NDIRECT ≠ 0 →
    fs'.log.buf (d.addrs NDIRECT).toNat = fs.log.buf (d.addrs NDIRECT).toNat) (n : ℕ) :
    slotEntry fs' d n = slotEntry fs d n := by
  unfold slotEntry
  split_ifs with _ _ h0
  · rfl
  · rfl
  · rfl
  · rw [h h0]

theorem slotPtr_eq_some {b : ℕ} : slotPtr fs D (inum, n) = some b ↔
    (D inum).type ≠ 0 ∧ slotEntry fs (D inum) n ≠ 0 ∧ (slotEntry fs (D inum) n).toNat = b := by
  unfold slotPtr
  by_cases h : (D inum).type = 0 ∨ slotEntry fs (D inum) n = 0
  · rw [if_pos h]
    exact ⟨nofun, fun ⟨h₁, h₂, _⟩ => absurd h (not_or.2 ⟨h₁, h₂⟩)⟩
  · rw [if_neg h, Option.some.injEq]
    exact ⟨fun hb => ⟨fun h' => h (.inl h'), fun h' => h (.inr h'), hb⟩, fun hb => hb.2.2⟩

theorem slotPtr_eq_none (h : slotEntry fs (D inum) n = 0) : slotPtr fs D (inum, n) = none :=
  if_pos (.inr h)

theorem slotPtr_congr {y : ℕ × ℕ} (ht : (D' y.1).type = (D y.1).type)
    (ha : slotEntry fs' (D' y.1) y.2 = slotEntry fs (D y.1) y.2) :
    slotPtr fs' D' y = slotPtr fs D y := by
  unfold slotPtr
  simp only [ht, ha]

theorem slotEntry_indirect (fs : Fs) (d : Dinode) : slotEntry fs d MAXFILE = d.addrs NDIRECT := by
  rw [slotEntry, if_neg (by decide), if_pos rfl]

theorem slotEntry_direct (hn : n < NDIRECT) : slotEntry fs d n = d.addrs n := if_pos hn

theorem slotEntry_entry_of_zero (hn : NDIRECT ≤ n) (hm : n ≠ MAXFILE) (h0 : d.addrs NDIRECT = 0) :
    slotEntry fs d n = 0 := by
  rw [slotEntry, if_neg (by omega), if_neg hm, if_pos h0]

theorem slotEntry_entry (hn : NDIRECT ≤ n) (hm : n ≠ MAXFILE) (h0 : d.addrs NDIRECT ≠ 0) :
    slotEntry fs d n = loadW 32 (fs.log.buf (d.addrs NDIRECT).toNat) (4 * (n - NDIRECT)) := by
  rw [slotEntry, if_neg (by omega), if_neg hm, if_neg h0]

/-- The indirect block of an inode belongs to it. -/
theorem slotPtr_indirect (ht : (D inum).type ≠ 0) (h0 : (D inum).addrs NDIRECT ≠ 0) :
    slotPtr fs D (inum, MAXFILE) = some ((D inum).addrs NDIRECT).toNat := by
  rw [slotPtr_eq_some, slotEntry_indirect]
  exact ⟨ht, h0, rfl⟩

/-- No indirect block is changed. -/
def Spares (D : ℕ → Dinode) (fs fs' : Fs) : Prop :=
  ∀ j < fs.sb.ninodes.toNat, ∀ b, slotPtr fs D (j, MAXFILE) = some b → fs'.log.buf b = fs.log.buf b

theorem Spares.slotEntry (h : Spares D fs fs') (hi : inum < fs.sb.ninodes.toNat)
    (ht : (D inum).type ≠ 0) (n : ℕ) : slotEntry fs' (D inum) n = slotEntry fs (D inum) n :=
  slotEntry_congr (fun h0 => h inum hi _ (slotPtr_indirect ht h0)) n

theorem Spares.slotPtr (h : Spares D fs fs') {y : ℕ × ℕ} (hy : y ∈ slotsOf fs.sb) :
    slotPtr fs' D y = slotPtr fs D y := by
  unfold Xv6.slotPtr
  by_cases ht : (D y.1).type = 0
  · rw [if_pos (.inl ht), if_pos (.inl ht)]
  · rw [h.slotEntry (mem_slotsOf_iff.1 hy).1 ht]

theorem Owned.indirect (h : Owned D fs) (hi : inum < fs.sb.ninodes.toNat) {b : ℕ}
    (hb : Xv6.slotPtr fs D (inum, MAXFILE) = some b) : InData fs.sb b ∧ fs.bit b = true :=
  ⟨h.marks.inside _ (mem_slotsOf hi le_rfl) b hb, h.marks.marked (mem_slotsOf hi le_rfl) hb⟩

theorem Owned.block_lt (h : Owned D fs) (hi : inum < fs.sb.ninodes.toNat) (ht : (D inum).type ≠ 0)
    (hn : n * BSIZE < (D inum).size.toNat) : n < MAXFILE :=
  Nat.lt_of_mul_lt_mul_right (hn.trans_le (h.size_le inum hi ht))

/-- A slot gets a new block. -/
theorem Owned.link (h : Owned D fs) {r : ℕ} (hi : inum < fs.sb.ninodes.toNat) (hn : n ≤ MAXFILE)
    (hr : InData fs.sb r) (hbit : fs.bit r = false) (hsb : fs'.sb = fs.sb)
    (hbits : ∀ x < fs.sb.size.toNat, fs'.bit x = if x = r then true else fs.bit x)
    (hnone : slotPtr fs D (inum, n) = none) (hsome : slotPtr fs' D' (inum, n) = some r)
    (hothers : ∀ y ∈ slotsOf fs.sb, y ≠ (inum, n) → slotPtr fs' D' y = slotPtr fs D y)
    (hD : ∀ j, (D' j).type = (D j).type ∧ (D' j).size = (D j).size) : Owned D' fs' := by
  refine ⟨?_, fun b hb => ?_, fun j hj ht => ?_, fun j hj ht bn hbn => ?_⟩
  · rw [hsb]
    exact h.marks.link (mem_slotsOf hi hn) hr hbit hnone hsome hothers fun y hy => hbits y hy.2
  · rw [hsb] at hb
    have hlt : b < fs.sb.size.toNat := by
      have := hr.1
      have := hr.2
      omega
    rw [hbits b hlt, if_neg fun hbr => ?_]
    · exact h.low b hb
    · have := hr.1
      omega
  · rw [hsb] at hj
    rw [(hD j).1] at ht
    rw [(hD j).2]
    exact h.size_le j hj ht
  · rw [hsb] at hj
    rw [(hD j).1] at ht
    rw [(hD j).2] at hbn
    by_cases hy : (j, bn) = (inum, n)
    · rw [hy, hsome]
      exact nofun
    · rw [hothers _ (mem_slotsOf hj (h.block_lt hj ht hbn).le) hy]
      exact h.mapped j hj ht bn hbn

/-! ### One entry of the table -/

/-- The table with entry `ip` changed. -/
def Fs.withInode (fs : Fs) (ip : ℕ) (i : Inode) : Fs :=
  { fs with itable := Function.update fs.itable ip i }

theorem wp_setInode {E : Stop → Prop} {ip : ℕ} {f : Inode → Inode} {Q : Unit → Fs → Prop} :
    wp (setInode ip f) E Q fs ↔ Q () (fs.withInode ip (f (fs.itable ip))) := Iff.rfl

theorem wp_getInode {E : Stop → Prop} {ip : ℕ} {Q : Inode → Fs → Prop} :
    wp (getInode ip) E Q fs ↔ Q (fs.itable ip) fs := Iff.rfl

theorem wp_bread {E : Stop → Prop} {b : U32} {Q : Block → Fs → Prop} :
    wp (bread b) E Q fs ↔ Q (fs.log.buf b.toNat) fs := Iff.rfl

theorem withInode_self (fs : Fs) (ip : ℕ) (i : Inode) : (fs.withInode ip i).itable ip = i :=
  Function.update_self ..

theorem withInode_of_ne {jp : ℕ} (fs : Fs) {ip : ℕ} (i : Inode) (h : jp ≠ ip) :
    (fs.withInode ip i).itable jp = fs.itable jp := Function.update_of_ne h ..

theorem withInode_withInode (fs : Fs) (ip : ℕ) (i i' : Inode) :
    (fs.withInode ip i).withInode ip i' = fs.withInode ip i' := by
  simp [Fs.withInode]

/-! ### New addresses -/

/-- The fields of an inode that do not say what is in it. -/
structure SameHead (i i' : Inode) : Prop where
  dev : i'.dev = i.dev
  inum : i'.inum = i.inum
  ref : i'.ref = i.ref
  locked : i'.locked = i.locked
  valid : i'.valid = i.valid

theorem SameHead.refl (i : Inode) : SameHead i i := ⟨rfl, rfl, rfl, rfl, rfl⟩

theorem SameHead.trans {i j k : Inode} (h : SameHead i j) (h' : SameHead j k) : SameHead i k :=
  ⟨h'.dev.trans h.dev, h'.inum.trans h.inum, h'.ref.trans h.ref, h'.locked.trans h.locked,
    h'.valid.trans h.valid⟩

/-- Inode `inum`, in the table at `ip`, may have got more blocks. -/
structure Grown (ip inum : ℕ) (D : ℕ → Dinode) (fs : Fs) (D' : ℕ → Dinode) (fs' : Fs) : Prop where
  sb : fs'.sb = fs.sb
  others : ∀ j, j ≠ inum → D' j = D j
  type : (D' inum).type = (D inum).type
  size : (D' inum).size = (D inum).size
  ptr : ∀ y ∈ slotsOf fs.sb, ∀ b, slotPtr fs D y = some b → slotPtr fs' D' y = some b
  head : SameHead (fs.itable ip) (fs'.itable ip)

theorem Grown.refl (ip inum : ℕ) (D : ℕ → Dinode) (fs : Fs) : Grown ip inum D fs D fs :=
  ⟨rfl, fun _ _ => rfl, rfl, rfl, fun _ _ _ => id, .refl _⟩

theorem Grown.trans {ip : ℕ} {D'' : ℕ → Dinode} {fs'' : Fs} (h : Grown ip inum D fs D' fs')
    (h' : Grown ip inum D' fs' D'' fs'') : Grown ip inum D fs D'' fs'' :=
  ⟨h'.sb.trans h.sb, fun j hj => (h'.others j hj).trans (h.others j hj), h'.type.trans h.type,
    h'.size.trans h.size,
    fun y hy b hb => h'.ptr y (h.sb ▸ hy) b (h.ptr y hy b hb),
    h.head.trans h'.head⟩

/-- The table entry `ip` holds inode `inum`. -/
structure InCore (fs : Fs) (ip inum : ℕ) : Prop where
  ref : 0 < (fs.itable ip).ref
  valid : (fs.itable ip).valid = true
  inum : (fs.itable ip).inum.toNat = inum

theorem InCore.same {ip : ℕ} (h : InCore fs ip inum)
    (hs : SameHead (fs.itable ip) (fs'.itable ip)) : InCore fs' ip inum :=
  ⟨hs.ref ▸ h.ref, hs.valid ▸ h.valid, hs.inum ▸ h.inum⟩

/-! ### Data and costs -/

/-- The data of a slot: zeros where there is no block. -/
def slotData (fs : Fs) (D : ℕ → Dinode) (y : ℕ × ℕ) : Block :=
  match slotPtr fs D y with
  | none => fun _ => 0
  | some b => fs.log.buf b

theorem slotData_none {y : ℕ × ℕ} (h : slotPtr fs D y = none) : slotData fs D y = fun _ => 0 := by
  rw [slotData, h]

theorem slotData_some {y : ℕ × ℕ} {b : ℕ} (h : slotPtr fs D y = some b) :
    slotData fs D y = fs.log.buf b := by
  rw [slotData, h]

/-- The slots in `V` that have no block. -/
def emptySlots (V : Finset ℕ) (inum : ℕ) (D : ℕ → Dinode) (fs : Fs) : Finset ℕ :=
  Budget.missing V fun n => slotPtr fs D (inum, n)

/-- The blocks that are not marked. -/
def freeBlocks (fs : Fs) : Finset ℕ :=
  (Finset.range fs.sb.size.toNat).filter fun b => fs.bit b = false

/-- The blocks that the next `m` calls of `balloc` take: the first ones that are not marked. -/
def nextBlocks (fs : Fs) (m : ℕ) : Finset ℕ :=
  (((List.range fs.sb.size.toNat).filter fun b => fs.bit b = false).take m).toFinset

/-- The slots in `V` whose block is logged: the data of a file always is, the indirect block only
when an entry is put into it. -/
def loggedSlots (V : Finset ℕ) (inum : ℕ) (D : ℕ → Dinode) (fs : Fs) : Finset ℕ :=
  V.filter fun n => n = MAXFILE → ∃ m ∈ emptySlots V inum D fs, NDIRECT ≤ m

/-- The blocks that are logged when the slots `V` of an inode are filled and written to: the blocks
that are there, those that are allocated, and the blocks of the bitmap that have their bits. -/
def loggedBlocks (V : Finset ℕ) (inum : ℕ) (D : ℕ → Dinode) (fs : Fs) : Finset ℕ :=
  ((loggedSlots V inum D fs).biUnion fun n => (slotPtr fs D (inum, n)).toFinset) ∪
    (nextBlocks fs (emptySlots V inum D fs).card ∪
      (nextBlocks fs (emptySlots V inum D fs).card).image (bitBlock fs.sb))

/-- The number of blocks in the header of the log when these blocks are in it. -/
def logLoad (V : Finset ℕ) (inum : ℕ) (D : ℕ → Dinode) (fs : Fs) (lh : List ℕ) : ℕ :=
  Budget.load (loggedBlocks V inum D fs) some lh

/-- Why a change of the slots `V` of an inode may panic: the log has no room for what is to be
logged, or there are fewer free blocks than empty slots. -/
def Stuck (V : Finset ℕ) (inum : ℕ) (D : ℕ → Dinode) (fs : Fs) (e : Stop) : Prop :=
  LogStuck fs (logLoad V inum D fs fs.log.log.lh) e ∨
    e = .panic "balloc: out of blocks" ∧ (freeBlocks fs).card < (emptySlots V inum D fs).card

theorem Stuck.freesOk {V : Finset ℕ} {e : Stop} (h : Stuck V inum D fs e) : FreesOk e := by
  rcases h with h | ⟨rfl, -⟩
  · exact h.freesOk
  · decide

/-- A block of the set is logged. -/
theorem load_logged {S : Finset ℕ} {b : ℕ} (hb : b ∈ S) (lh : List ℕ) :
    Budget.load S some (Budget.logged lh b) ≤ Budget.load S some lh :=
  Budget.load_logged_le hb rfl (.inr rfl) fun _ _ _ => rfl

section

variable {V : Finset ℕ} {r : ℕ}

theorem mem_emptySlots : n ∈ emptySlots V inum D fs ↔ n ∈ V ∧ slotPtr fs D (inum, n) = none :=
  Finset.mem_filter

theorem loggedBlocks_of_slot {b : ℕ} (hn : n ∈ loggedSlots V inum D fs)
    (hb : slotPtr fs D (inum, n) = some b) : b ∈ loggedBlocks V inum D fs := by
  refine Finset.mem_union_left _ (Finset.mem_biUnion.2 ⟨n, hn, ?_⟩)
  rw [hb]
  exact Option.mem_toFinset.2 rfl

theorem loggedBlocks_of_next {m : ℕ} (hr : r ∈ nextBlocks fs m)
    (hm : m = (emptySlots V inum D fs).card) :
    r ∈ loggedBlocks V inum D fs ∧ bitBlock fs.sb r ∈ loggedBlocks V inum D fs := by
  subst hm
  exact ⟨Finset.mem_union_right _ (Finset.mem_union_left _ hr),
    Finset.mem_union_right _ (Finset.mem_union_right _ (Finset.mem_image_of_mem _ hr))⟩

/-- The slots have the blocks they had, and the bitmap is the same. -/
theorem loggedBlocks_congr (hsb : fs'.sb = fs.sb)
    (hbits : ∀ x < fs.sb.size.toNat, fs'.bit x = fs.bit x)
    (hptr : ∀ m ∈ V, slotPtr fs' D' (inum, m) = slotPtr fs D (inum, m)) :
    loggedBlocks V inum D' fs' = loggedBlocks V inum D fs := by
  have hempty : emptySlots V inum D' fs' = emptySlots V inum D fs := Budget.missing_congr hptr
  have hnext (m : ℕ) : nextBlocks fs' m = nextBlocks fs m := by
    rw [nextBlocks, nextBlocks, hsb,
      List.filter_congr fun x hx => by rw [hbits x (List.mem_range.1 hx)]]
  have hslots : loggedSlots V inum D' fs' = loggedSlots V inum D fs := by
    rw [loggedSlots, loggedSlots, hempty]
  rw [loggedBlocks, loggedBlocks, hempty, hnext, hslots, hsb]
  congr 1
  exact Finset.biUnion_congr rfl fun m hm => by rw [hptr m (Finset.mem_filter.1 hm).1]

/-- The first element that passes a test, and what passes when it no longer does. -/
theorem filter_range_first {p q : ℕ → Bool} {k : ℕ} (hr : r < k) (hp : p r = true)
    (hfirst : ∀ x < r, p x = false) (hq : ∀ x < k, q x = if x = r then false else p x) :
    (List.range k).filter p = r :: (List.range k).filter q := by
  induction k with
  | zero => exact absurd hr (Nat.not_lt_zero r)
  | succ k ih =>
    rw [List.range_succ, List.filter_append, List.filter_append]
    rcases Nat.lt_succ_iff_lt_or_eq.1 hr with hlt | rfl
    · rw [ih hlt fun x hx => hq x (by omega), List.cons_append,
        List.filter_congr (l := [k]) (q := q)]
      intro x hx
      obtain rfl := List.mem_singleton.1 hx
      rw [hq x (by omega), if_neg (by omega)]
    · have hnone : (List.range r).filter p = [] := List.filter_eq_nil_iff.2 fun x hx => by
        rw [hfirst x (List.mem_range.1 hx)]
        decide
      have hnone' : (List.range r).filter q = [] := List.filter_eq_nil_iff.2 fun x hx => by
        have hlt := List.mem_range.1 hx
        rw [hq x (by omega), if_neg hlt.ne, hfirst x hlt]
        decide
      rw [hnone, hnone', List.filter_cons_of_pos hp, List.filter_cons_of_neg, List.filter_nil]
      · rfl
      · rw [hq r (by omega), if_pos rfl]
        decide

/-- The first free block, and the ones after it when it is taken. -/
theorem nextBlocks_succ (hr : r < fs.sb.size.toNat) (hfree : fs.bit r = false)
    (hfirst : ∀ x < r, fs.bit x = true) (hsb : fs'.sb = fs.sb)
    (hbits : ∀ x < fs.sb.size.toNat, fs'.bit x = if x = r then true else fs.bit x) (m : ℕ) :
    nextBlocks fs (m + 1) = insert r (nextBlocks fs' m) := by
  have hlist : (List.range fs.sb.size.toNat).filter (fun b => fs.bit b = false) =
      r :: (List.range fs.sb.size.toNat).filter (fun b => fs'.bit b = false) := by
    refine filter_range_first hr (by simp [hfree]) (fun x hx => by simp [hfirst x hx])
      fun x hx => ?_
    rw [hbits x hx]
    split_ifs <;> simp
  rw [nextBlocks, nextBlocks, hsb, hlist, List.take_succ_cons, List.toFinset_cons]

/-- `balloc` takes the first free block. -/
theorem mem_nextBlocks {m : ℕ} (hr : r < fs.sb.size.toNat) (hfree : fs.bit r = false)
    (hfirst : ∀ x < r, fs.bit x = true) (hm : 0 < m) : r ∈ nextBlocks fs m := by
  obtain ⟨m, rfl⟩ := Nat.exists_eq_add_of_lt hm
  have hlist := filter_range_first (q := fun b => b ≠ r ∧ fs.bit b = false) hr
    (p := fun b => fs.bit b = false) (by simp [hfree]) (fun x hx => by simp [hfirst x hx])
    fun x _ => by split_ifs <;> simp_all
  rw [nextBlocks, hlist, Nat.zero_add, List.take_succ_cons, List.toFinset_cons]
  exact Finset.mem_insert_self r _

/-- `balloc` for a slot that is empty. -/
theorem BallocStuck.stuck {e : Stop} (hn : n ∈ V) (hnone : slotPtr fs D (inum, n) = none)
    (h : BallocStuck fs e) : Stuck V inum D fs e := by
  have hpos : 0 < (emptySlots V inum D fs).card :=
    Finset.card_pos.2 ⟨n, mem_emptySlots.2 ⟨hn, hnone⟩⟩
  rcases h with ⟨he, hall⟩ | ⟨r, hr, hfree, hfirst, he⟩
  · refine .inr ⟨he, ?_⟩
    have hempty : freeBlocks fs = ∅ := by
      refine Finset.filter_eq_empty_iff.2 fun b hb => ?_
      rw [hall b (Finset.mem_range.1 hb)]
      decide
    rw [hempty, Finset.card_empty]
    exact hpos
  · have hbit := (loggedBlocks_of_next (mem_nextBlocks hr.2 hfree hfirst hpos) rfl).2
    exact .inl (he.mono (Budget.length_le_load.trans (load_logged hbit _)))

end

/-- What is to be logged and what is to be allocated becomes no more. -/
structure Spends (V : Finset ℕ) (inum : ℕ) (D : ℕ → Dinode) (fs : Fs) (D' : ℕ → Dinode) (fs' : Fs) :
    Prop where
  header : fs'.log.log = { fs.log.log with lh := fs'.log.log.lh }
  load : logLoad V inum D' fs' fs'.log.log.lh ≤ logLoad V inum D fs fs.log.log.lh
  short : (emptySlots V inum D' fs').card + (freeBlocks fs).card ≤
    (emptySlots V inum D fs).card + (freeBlocks fs').card

theorem Spends.refl (V : Finset ℕ) (inum : ℕ) (D : ℕ → Dinode) (fs : Fs) :
    Spends V inum D fs D fs :=
  ⟨rfl, le_rfl, le_rfl⟩

theorem Spends.trans {V : Finset ℕ} {D'' : ℕ → Dinode} {fs'' : Fs} (h : Spends V inum D fs D' fs')
    (h' : Spends V inum D' fs' D'' fs'') : Spends V inum D fs D'' fs'' :=
  ⟨by rw [h'.header, h.header], h'.load.trans h.load, by have := h.short; have := h'.short; omega⟩

theorem Spends.stuck {V : Finset ℕ} {e : Stop} (h : Spends V inum D fs D' fs')
    (he : Stuck V inum D' fs' e) : Stuck V inum D fs e := by
  refine he.imp (fun he => (he.of_lh h.header).mono h.load) fun ⟨he, hlt⟩ => ⟨he, ?_⟩
  have := h.short
  omega

/-- Inode `inum` may have got more blocks, and no data has changed. -/
structure Grew (V : Finset ℕ) (ip inum : ℕ) (D : ℕ → Dinode) (fs : Fs) (D' : ℕ → Dinode)
    (fs' : Fs) : Prop extends Grown ip inum D fs D' fs', Spends V inum D fs D' fs' where
  data : ∀ y ∈ slotsOf fs.sb, y.2 ≠ MAXFILE → slotData fs' D' y = slotData fs D y
  entries : ∀ jp, jp ≠ ip → fs'.itable jp = fs.itable jp

theorem Grew.refl (V : Finset ℕ) (ip inum : ℕ) (D : ℕ → Dinode) (fs : Fs) :
    Grew V ip inum D fs D fs :=
  ⟨.refl ip inum D fs, .refl V inum D fs, fun _ _ _ => rfl, fun _ _ => rfl⟩

theorem Grew.trans {V : Finset ℕ} {ip : ℕ} {D'' : ℕ → Dinode} {fs'' : Fs}
    (h : Grew V ip inum D fs D' fs') (h' : Grew V ip inum D' fs' D'' fs'') :
    Grew V ip inum D fs D'' fs'' :=
  ⟨h.toGrown.trans h'.toGrown, h.toSpends.trans h'.toSpends,
    fun y hy hm => (h'.data y (h.sb ▸ hy) hm).trans (h.data y hy hm),
    fun jp hj => (h'.entries jp hj).trans (h.entries jp hj)⟩

/-- Slot `n` of inode `inum` gets the zeroed block `r`; the other slots keep their blocks and their
data. -/
structure GetsBlock (inum n r : ℕ) (D : ℕ → Dinode) (fs : Fs) (D' : ℕ → Dinode)
    (fs' : Fs) : Prop where
  sb : fs'.sb = fs.sb
  inside : InData fs.sb r
  free : fs.bit r = false
  first : ∀ x < r, fs.bit x = true
  bits : ∀ x < fs.sb.size.toNat, fs'.bit x = if x = r then true else fs.bit x
  none : slotPtr fs D (inum, n) = none
  some : slotPtr fs' D' (inum, n) = some r
  others : ∀ y ∈ slotsOf fs.sb, y ≠ (inum, n) → slotPtr fs' D' y = slotPtr fs D y
  zero : fs'.log.buf r = fun _ => 0
  kept : ∀ y ∈ slotsOf fs.sb, y.2 ≠ MAXFILE → ∀ b, slotPtr fs D y = Option.some b →
    fs'.log.buf b = fs.log.buf b

namespace GetsBlock

variable {r : ℕ} {y : ℕ × ℕ}

theorem ptr (h : GetsBlock inum n r D fs D' fs') (hy : y ∈ slotsOf fs.sb) {b : ℕ}
    (hb : slotPtr fs D y = Option.some b) : slotPtr fs' D' y = Option.some b := by
  rw [h.others y hy fun he => ?_, hb]
  rw [he, h.none] at hb
  cases hb

theorem data (h : GetsBlock inum n r D fs D' fs') (hy : y ∈ slotsOf fs.sb) (hm : y.2 ≠ MAXFILE) :
    slotData fs' D' y = slotData fs D y := by
  by_cases he : y = (inum, n)
  · rw [he, slotData_some h.some, slotData_none h.none, h.zero]
  rcases hb : slotPtr fs D y with _ | b
  · rw [slotData_none hb, slotData_none ((h.others y hy he).trans hb)]
  · rw [slotData_some hb, slotData_some (h.ptr hy hb), h.kept y hy hm b hb]

theorem card_freeBlocks (h : GetsBlock inum n r D fs D' fs') :
    (freeBlocks fs').card + 1 = (freeBlocks fs).card := by
  have herase : freeBlocks fs' = (freeBlocks fs).erase r := by
    ext x
    simp only [freeBlocks, Finset.mem_filter, Finset.mem_range, Finset.mem_erase, h.sb]
    constructor
    · rintro ⟨hx, hf⟩
      rw [h.bits x hx] at hf
      split_ifs at hf with hxr
      exact ⟨hxr, hx, hf⟩
    · rintro ⟨hxr, hx, hf⟩
      rw [h.bits x hx, if_neg hxr]
      exact ⟨hx, hf⟩
  rw [herase]
  exact Finset.card_erase_add_one (Finset.mem_filter.2 ⟨Finset.mem_range.2 h.inside.2, h.free⟩)

section

variable {V : Finset ℕ} (h : GetsBlock inum n r D fs D' fs') (hn : n ∈ V)
  (hi : inum < fs.sb.ninodes.toNat) (hV : ∀ m ∈ V, m ≤ MAXFILE)

include h hn hi hV

theorem card_emptySlots :
    (emptySlots V inum D' fs').card + 1 = (emptySlots V inum D fs).card :=
  Budget.card_missing_link hn h.none h.some fun m hm hne =>
    h.others _ (mem_slotsOf hi (hV m hm)) fun he => hne (congrArg Prod.snd he)

theorem short_le : (emptySlots V inum D' fs').card + (freeBlocks fs).card ≤
    (emptySlots V inum D fs).card + (freeBlocks fs').card := by
  have hfree := h.card_freeBlocks
  have hslots := h.card_emptySlots hn hi hV
  omega

theorem nextBlocks_eq : nextBlocks fs (emptySlots V inum D fs).card =
    insert r (nextBlocks fs' (emptySlots V inum D' fs').card) := by
  rw [← h.card_emptySlots hn hi hV]
  exact nextBlocks_succ h.inside.2 h.free h.first h.sb h.bits _

/-- The new block and its bit are logged. -/
theorem mem_loggedBlocks :
    r ∈ loggedBlocks V inum D fs ∧ bitBlock fs.sb r ∈ loggedBlocks V inum D fs :=
  loggedBlocks_of_next (h.nextBlocks_eq hn hi hV ▸ Finset.mem_insert_self r _) rfl

omit hn in
theorem emptySlots_subset : emptySlots V inum D' fs' ⊆ emptySlots V inum D fs := by
  intro m hm
  obtain ⟨hmV, hmnone⟩ := mem_emptySlots.1 hm
  refine mem_emptySlots.2 ⟨hmV, ?_⟩
  rw [← h.others _ (mem_slotsOf hi (hV m hmV)) fun he => ?_, hmnone]
  rw [he, h.some] at hmnone
  cases hmnone

/-- Nothing else is logged after the new block has its slot. -/
theorem loggedBlocks_subset : loggedBlocks V inum D' fs' ⊆ loggedBlocks V inum D fs := by
  have hempty := h.emptySlots_subset hi hV
  have hnext : nextBlocks fs' (emptySlots V inum D' fs').card ⊆
      nextBlocks fs (emptySlots V inum D fs).card := by
    rw [h.nextBlocks_eq hn hi hV]
    exact Finset.subset_insert _ _
  refine Finset.union_subset (fun b hb => ?_) ?_
  · obtain ⟨m, hm, hb⟩ := Finset.mem_biUnion.1 hb
    have hb := Option.mem_toFinset.1 hb
    obtain ⟨hmV, hlog⟩ := Finset.mem_filter.1 hm
    by_cases he : m = n
    · subst he
      rw [h.some] at hb
      obtain rfl := Option.some.inj hb
      exact (h.mem_loggedBlocks hn hi hV).1
    · refine loggedBlocks_of_slot (Finset.mem_filter.2 ⟨hmV, fun hmax => ?_⟩)
        ((h.others _ (mem_slotsOf hi (hV m hmV)) fun hp => he (congrArg Prod.snd hp)).symm.trans hb)
      obtain ⟨k, hk, hge⟩ := hlog hmax
      exact ⟨k, hempty hk, hge⟩
  · rw [h.sb]
    exact (Finset.union_subset_union hnext (Finset.image_subset_image hnext)).trans
      Finset.subset_union_right

/-- The new block and its bit join the log. -/
theorem load_le (lh : List ℕ) :
    Budget.load (loggedBlocks V inum D fs) Option.some
      (Budget.logged (Budget.logged lh (bitBlock fs.sb r)) r) ≤ logLoad V inum D fs lh :=
  (load_logged (h.mem_loggedBlocks hn hi hV).1 _).trans
    (load_logged (h.mem_loggedBlocks hn hi hV).2 _)

end

end GetsBlock

theorem FsOk.inCore {ip : ℕ} (h : FsOk D x fs) (hip : InCore fs ip inum) :
    (fs.itable ip).dinode = D inum ∧ (D inum).type ≠ 0 ∧ inum < fs.sb.ninodes.toNat := by
  obtain ⟨hd, ht⟩ := h.mem ip hip.ref hip.valid
  rw [hip.inum] at hd
  refine ⟨hd, ?_, hip.inum ▸ (h.inum ip hip.ref).2.2⟩
  rw [← hd]
  exact ht

theorem FsOk.inCore_addrs {ip k : ℕ} (h : FsOk D x fs) (hip : InCore fs ip inum)
    (hk : k ≤ NDIRECT) : (D inum).addrs k = (fs.itable ip).addrs k := by
  rw [← (h.inCore hip).1]
  exact if_pos hk

/-- The slot of the address field `k`. -/
def fieldSlot (k : ℕ) : ℕ := if k = NDIRECT then MAXFILE else k

theorem slotEntry_fieldSlot {k : ℕ} (hk : k ≤ NDIRECT) :
    slotEntry fs d (fieldSlot k) = d.addrs k := by
  unfold fieldSlot
  split_ifs with h
  · rw [slotEntry_indirect, h]
  · exact slotEntry_direct (by omega)

/-- An address field that was 0 is set to a zeroed block. -/
theorem slotEntry_setAddr {k : ℕ} {r : U32} {d' : Dinode} (hk : k ≤ NDIRECT) (h0 : d.addrs k = 0)
    (hr : r ≠ 0) (hd' : ∀ m, d'.addrs m = if m = k then r else d.addrs m)
    (hzero : fs'.log.buf r.toNat = fun _ => 0)
    (hbuf : d.addrs NDIRECT ≠ 0 →
      fs'.log.buf (d.addrs NDIRECT).toNat = fs.log.buf (d.addrs NDIRECT).toNat) (n : ℕ) :
    slotEntry fs' d' n = if n = fieldSlot k then r else slotEntry fs d n := by
  have hmax : NDIRECT < MAXFILE := by decide
  unfold fieldSlot
  by_cases hn : n < NDIRECT
  · rw [slotEntry_direct hn, slotEntry_direct hn, hd']
    exact if_congr (by split_ifs <;> omega) rfl rfl
  have hd := hd' NDIRECT
  by_cases hkn : k = NDIRECT
  · -- the indirect block: its slots are empty, as they were before
    rw [if_pos hkn]
    rw [if_pos hkn.symm] at hd
    by_cases hnm : n = MAXFILE
    · rw [if_pos hnm, hnm, slotEntry_indirect, hd]
    · rw [if_neg hnm, slotEntry_entry (by omega) hnm (by rwa [hd]), hd, hzero,
        show (fun _ => (0 : Byte)) = fun _ => 0#8 from rfl, loadW_zero,
        slotEntry_entry_of_zero (by omega) hnm (hkn ▸ h0)]
  · rw [if_neg hkn, if_neg (by omega)]
    rw [if_neg (Ne.symm hkn)] at hd
    by_cases hnm : n = MAXFILE
    · rw [hnm, slotEntry_indirect, slotEntry_indirect, hd]
    by_cases hz : d.addrs NDIRECT = 0
    · rw [slotEntry_entry_of_zero (by omega) hnm (hd.trans hz),
        slotEntry_entry_of_zero (by omega) hnm hz]
    · rw [slotEntry_entry (by omega) hnm (by rwa [hd]), slotEntry_entry (by omega) hnm hz, hd,
        hbuf hz]

/-- `balloc` leaves the blocks in use alone. -/
theorem Owned.buf_of_balloc (h : Owned D fs) {r : ℕ} (hr : fs.bit r = false)
    (hbuf : ∀ y, ¬ InBitmap fs.sb y → y ≠ r → fs'.log.buf y = fs.log.buf y) {y : ℕ × ℕ}
    (hy : y ∈ slotsOf fs.sb) {b : ℕ} (hb : Xv6.slotPtr fs D y = some b) :
    fs'.log.buf b = fs.log.buf b := by
  refine hbuf b (fun hin => ?_) fun hbr => ?_
  · have := hin.2
    have := (h.marks.inside y hy b hb).1
    omega
  · have := h.marks.marked hy hb
    rw [hbr, hr] at this
    cases this

/-- `balloc` leaves indirect blocks alone. -/
theorem Owned.spares (h : Owned D fs) {r : ℕ} (hr : fs.bit r = false)
    (hbuf : ∀ y, ¬ InBitmap fs.sb y → y ≠ r → fs'.log.buf y = fs.log.buf y) : Spares D fs fs' :=
  fun _ hj _ hb => h.buf_of_balloc hr hbuf (mem_slotsOf hj le_rfl) hb

theorem dinode_setAddr {i : Inode} {k : ℕ} {r : U32} (hk : k ≤ NDIRECT) :
    ({ i with addrs := Function.update i.addrs k r } : Inode).dinode =
      { i.dinode with addrs := Function.update i.dinode.addrs k r } := by
  refine Dinode.ext rfl rfl (funext fun m => ?_)
  change (if m ≤ NDIRECT then Function.update i.addrs k r m else 0) =
    Function.update (fun n => if n ≤ NDIRECT then i.addrs n else 0) k r m
  rw [Function.update_apply, Function.update_apply]
  split_ifs <;> first | rfl | omega

/-- One inode changes, in memory and in the blocks that belong to it. -/
theorem FsOk.change {ip : ℕ} (h : FsOk D (some inum) fs) (hip : InCore fs ip inum)
    (hsb : fs'.sb = fs.sb) (hin : fs'.inLog = fs.inLog) (hlog : LogOk fs'.log)
    (howned : Owned D' fs') (hD : ∀ j, j ≠ inum → D' j = D j)
    (hbuf : ∀ y, fs.sb.inodestart.toNat ≤ y → y < fs.sb.bmapstart.toNat →
      fs'.log.buf y = fs.log.buf y)
    (hothers : ∀ jp, jp ≠ ip → fs'.itable jp = fs.itable jp)
    (hhead : SameHead (fs.itable ip) (fs'.itable ip)) (hself : (fs'.itable ip).dinode = D' inum)
    (ht : (D' inum).type ≠ 0) : FsOk D' (some inum) fs' := by
  have hheads (jp : ℕ) : SameHead (fs.itable jp) (fs'.itable jp) := by
    by_cases hj : jp = ip
    · exact hj ▸ hhead
    · rw [hothers jp hj]
      exact .refl _
  refine ⟨⟨?_, ?_, ?_⟩, hlog, howned, fun j hj hx => ?_, fun jp href hv => ?_, fun jp href => ?_,
    fun jp jp' href href' he => ?_⟩
  · rw [hin, hsb]
    exact h.layout.log
  · rw [hsb]
    exact h.layout.inodes
  · rw [hsb]
    exact h.layout.data
  · have hji : j ≠ inum := fun he => hx (he ▸ rfl)
    rw [hsb] at hj
    rw [dinode_congr h.layout hsb hbuf hj, hD j hji, h.disk j hj hx]
  · by_cases hj : jp = ip
    · rw [hj, hhead.inum, hip.inum]
      exact ⟨hself, by rw [← hself] at ht; exact ht⟩
    · rw [hothers jp hj] at href hv ⊢
      have hne : (fs.itable jp).inum.toNat ≠ inum := fun he =>
        hj (h.unique jp ip href hip.ref (BitVec.eq_of_toNat_eq (he.trans hip.inum.symm)))
      rw [hD _ hne]
      exact h.mem jp href hv
  · rw [(hheads jp).ref] at href
    rw [(hheads jp).dev, (hheads jp).inum, hsb]
    exact h.inum jp href
  · rw [(hheads _).ref] at href href'
    rw [(hheads _).inum, (hheads _).inum] at he
    exact h.unique jp jp' href href' he

/-- Blocks from the bitmap on are no blocks of inodes. -/
theorem buf_of_data {y b : ℕ} (hy : y < fs.sb.bmapstart.toNat) (hb : InData fs.sb b) : y ≠ b := by
  have := hb.1
  rw [dataStart, BPB_eq] at this
  omega

section

variable {V : Finset ℕ}

/-- An address field of an inode that is 0 gets a new block. -/
theorem allocAddr_total {ip k : ℕ} (h : FsOk D (some inum) fs) (hip : InCore fs ip inum)
    (hk : k ≤ NDIRECT) (h0 : (fs.itable ip).addrs k = 0) (hV : ∀ m ∈ V, m ≤ MAXFILE)
    (hkV : fieldSlot k ∈ V) :
    wp (do
      let addr ← balloc
      setInode ip fun i => { i with addrs := Function.update i.addrs k addr }
      return addr : F U32) (Stuck V inum D fs) (fun r fs' => r ≠ 0 ∧ ∃ D', FsOk D' (some inum) fs' ∧
        Grew V ip inum D fs D' fs' ∧ (D' inum).addrs k = r) fs := by
  obtain ⟨hd, ht, hi⟩ := h.inCore hip
  have hD0 : (D inum).addrs k = 0 := (h.inCore_addrs hip hk).trans h0
  have hnone : slotPtr fs D (inum, fieldSlot k) = none :=
    slotPtr_eq_none ((slotEntry_fieldSlot hk).trans hD0)
  rw [wp_bind]
  refine ((balloc_total h.layout h.log h.owned.low).weaken fun e he => he.stuck hkV hnone).mono
    fun r fs₁ ⟨hdata, hfree, hfirst, hset, hzero, hbuf, hlh⟩ => ?_
  have hs := hset.toSameTables
  have hspare := h.owned.spares hfree hbuf
  have hr : r ≠ 0 := by
    rintro rfl
    have := hdata.1
    simp [dataStart] at this
  set d' : Dinode := { D inum with addrs := Function.update (D inum).addrs k r } with hd'
  have haddrs (m : ℕ) : d'.addrs m = if m = k then r else (D inum).addrs m :=
    Function.update_apply ..
  have hother (j : ℕ) (hj : j ≠ inum) : Function.update D inum d' j = D j :=
    Function.update_of_ne hj ..
  have hself : Function.update D inum d' inum = d' := Function.update_self ..
  rw [wp_bind, wp_setInode, wp_pure]
  set fs₂ := fs₁.withInode ip _ with hfs₂
  have hmem :
      fs₂.itable ip = { fs.itable ip with addrs := Function.update (fs.itable ip).addrs k r } := by
    rw [hfs₂, withInode_self, hs.itable]
  have hmems (jp : ℕ) (hj : jp ≠ ip) : fs₂.itable jp = fs.itable jp := by
    rw [hfs₂, withInode_of_ne _ _ hj, hs.itable]
  have haddr (n : ℕ) :
      slotEntry fs₂ d' n = if n = fieldSlot k then r else slotEntry fs (D inum) n :=
    slotEntry_setAddr hk hD0 hr haddrs hzero (fun hz => hspare inum hi _ (slotPtr_indirect ht hz)) n
  have hgets : GetsBlock inum (fieldSlot k) r.toNat D fs (Function.update D inum d') fs₂ := by
    refine ⟨hs.sb, hdata, hfree, hfirst, hset.bit, hnone, ?_, fun y hy hne => ?_, hzero,
      fun y hy hm b hb => ?_⟩
    · rw [slotPtr_eq_some, hself, haddr, if_pos rfl]
      exact ⟨ht, hr, rfl⟩
    · obtain ⟨j, n⟩ := y
      by_cases hj : j = inum
      · subst hj
        refine slotPtr_congr (by rw [hself]) ?_
        rw [hself, haddr, if_neg fun hn : n = _ => hne (by rw [hn])]
      · rw [← hspare.slotPtr hy]
        exact slotPtr_congr (by rw [hother j hj]) (by rw [hother j hj]; rfl)
    · exact h.owned.buf_of_balloc hfree hbuf hy hb
  have hhead : SameHead (fs.itable ip) (fs₂.itable ip) := by
    rw [hmem]
    exact ⟨rfl, rfl, rfl, rfl, rfl⟩
  have htype (j : ℕ) : (Function.update D inum d' j).type = (D j).type ∧
      (Function.update D inum d' j).size = (D j).size := by
    by_cases hj : j = inum
    · rw [hj, hself]
      exact ⟨rfl, rfl⟩
    · rw [hother j hj]
      exact ⟨rfl, rfl⟩
  have howned : Owned (Function.update D inum d') fs₂ :=
    h.owned.link hi (hV _ hkV) hdata hfree hs.sb hset.bit hnone hgets.some hgets.others htype
  refine ⟨hr, Function.update D inum d', h.change hip hs.sb hs.inLog hset.logOk howned hother
    (fun y hy hy' => hbuf y (fun hb => ?_) (buf_of_data hy' hdata)) hmems hhead ?_ ?_,
    ⟨⟨hs.sb, hother, (htype inum).1, (htype inum).2, fun y hy b hb => hgets.ptr hy hb, hhead⟩,
      ⟨by rw [hfs₂]; exact hlh.trans (by rw [Fs.withInode, hlh]), ?_, hgets.short_le hkV hi hV⟩,
      fun y hy hm => hgets.data hy hm, hmems⟩, ?_⟩
  · have := hb.1
    omega
  · rw [hmem, dinode_setAddr hk, hd, hself]
  · rw [hself]
    exact ht
  · rw [show fs₂.log.log.lh = _ from congrArg Log.lh hlh]
    exact (Budget.load_mono (hgets.loggedBlocks_subset hkV hi hV)).trans (hgets.load_le hkV hi hV _)
  · rw [hself, haddrs, if_pos rfl]

/-- The address field `k` of an inode, allocated if it is 0. -/
theorem addrField_total {ip k : ℕ} (h : FsOk D (some inum) fs) (hip : InCore fs ip inum)
    (hk : k ≤ NDIRECT) (hV : ∀ m ∈ V, m ≤ MAXFILE) (hkV : fieldSlot k ∈ V) :
    wp (do
      if (fs.itable ip).addrs k ≠ 0 then return (fs.itable ip).addrs k
      let addr ← balloc
      setInode ip fun i => { i with addrs := Function.update i.addrs k addr }
      return addr : F U32) (Stuck V inum D fs) (fun r fs' => r ≠ 0 ∧ ∃ D', FsOk D' (some inum) fs' ∧
        Grew V ip inum D fs D' fs' ∧ (D' inum).addrs k = r) fs := by
  by_cases h0 : (fs.itable ip).addrs k = 0
  · rw [if_neg (not_not.2 h0)]
    exact allocAddr_total h hip hk h0 hV hkV
  · rw [if_pos h0]
    exact ⟨h0, D, h, .refl V ip inum D fs, h.inCore_addrs hip hk⟩

/-- An entry of the indirect block is set. -/
theorem slotEntry_setEntry {bn : ℕ} {r : U32} (hbn : NDIRECT ≤ bn) (hmax : bn < MAXFILE)
    (h0 : d.addrs NDIRECT ≠ 0)
    (hbuf : fs'.log.buf (d.addrs NDIRECT).toNat =
      storeW (fs.log.buf (d.addrs NDIRECT).toNat) (4 * (bn - NDIRECT)) r) (n : ℕ) :
    slotEntry fs' d n = if n = bn then r else slotEntry fs d n := by
  by_cases hn : n < NDIRECT
  · rw [slotEntry_direct hn, slotEntry_direct hn, if_neg (by omega)]
  by_cases hm : n = MAXFILE
  · rw [hm, slotEntry_indirect, slotEntry_indirect, if_neg (by omega)]
  rw [slotEntry_entry (by omega) hm h0, slotEntry_entry (by omega) hm h0, hbuf]
  split_ifs with he
  · rw [he, loadW_storeW (by decide)]
  · exact loadW_storeW_of_disjoint (by omega)

/-- An entry of the indirect block that is 0 gets a new block. -/
theorem allocEntry_total {ip bn : ℕ} {a : U32} (h : FsOk D (some inum) fs) (hip : InCore fs ip inum)
    (hbn : NDIRECT ≤ bn) (hmax : bn < MAXFILE) (ha : (D inum).addrs NDIRECT = a) (ha0 : a ≠ 0)
    (h0 : loadW 32 (fs.log.buf a.toNat) (4 * (bn - NDIRECT)) = (0 : U32))
    (hV : ∀ m ∈ V, m ≤ MAXFILE) (hbV : bn ∈ V) (hiV : MAXFILE ∈ V) :
    wp (do
      let b ← balloc
      let bp ← bread a
      fsLogWrite a (storeW bp (4 * (bn - NDIRECT)) b)
      return b : F U32) (Stuck V inum D fs) (fun r fs' => r ≠ 0 ∧ FsOk D (some inum) fs' ∧
        Grew V ip inum D fs D fs' ∧ slotPtr fs' D (inum, bn) = some r.toNat) fs := by
  obtain ⟨hd, ht, hi⟩ := h.inCore hip
  subst ha
  have hind : slotPtr fs D (inum, MAXFILE) = some ((D inum).addrs NDIRECT).toNat :=
    slotPtr_indirect ht ha0
  have hnone : slotPtr fs D (inum, bn) = none :=
    slotPtr_eq_none ((slotEntry_entry hbn (by omega) ha0).trans h0)
  obtain ⟨hadata, habit⟩ := h.owned.indirect hi hind
  rw [wp_bind]
  refine ((balloc_total h.layout h.log h.owned.low).weaken fun e he => he.stuck hbV hnone).mono ?_
  rintro r fs₁ ⟨hdata, hfree, hfirst, hset, hzero, hbuf, hlh⟩
  have hs := hset.toSameTables
  have hspare := h.owned.spares hfree hbuf
  have hr : r ≠ 0 := by
    rintro rfl
    have := hdata.1
    simp [dataStart] at this
  have hout : ¬ fs₁.inLog ((D inum).addrs NDIRECT).toNat := by
    rw [hs.inLog]
    exact h.layout.not_inLog (h.layout.inodestart_le.trans hadata.1)
  have hempty : bn ∈ emptySlots V inum D fs := mem_emptySlots.2 ⟨hbV, hnone⟩
  obtain ⟨hrS, hbitS⟩ := loggedBlocks_of_next
    (mem_nextBlocks hdata.2 hfree hfirst (Finset.card_pos.2 ⟨bn, hempty⟩)) rfl
  have hroom : fs₁.log.log.lh.length ≤ logLoad V inum D fs fs.log.log.lh := by
    rw [hlh]
    exact Budget.length_le_load.trans ((load_logged hrS _).trans (load_logged hbitS _))
  rw [wp_bind, wp_bread, wp_bind]
  refine ((fsLogWrite_total hset.logOk hout _).weaken fun e he =>
    .inl ((he.of_lh hlh).mono hroom)).mono ?_
  rintro _ fs₂ ⟨hs₂, hlog₂, hbuf₂, hlh₂⟩
  rw [wp_pure]
  have hs' := hs.trans hs₂
  have hself : fs₂.log.buf ((D inum).addrs NDIRECT).toNat =
      storeW (fs.log.buf ((D inum).addrs NDIRECT).toNat) (4 * (bn - NDIRECT)) r := by
    rw [hbuf₂, Function.update_self, hspare inum hi _ hind]
  have hother (y : ℕ) (hy : y ≠ ((D inum).addrs NDIRECT).toNat) :
      fs₂.log.buf y = fs₁.log.buf y := by
    rw [hbuf₂, Function.update_of_ne hy]
  have haddr := slotEntry_setEntry hbn hmax ha0 hself
  -- no other slot has the indirect block
  have hne_ind {y : ℕ × ℕ} (hy : y ∈ slotsOf fs.sb) {b : ℕ} (hb : slotPtr fs D y = some b)
      (hne : y ≠ (inum, MAXFILE)) : b ≠ ((D inum).addrs NDIRECT).toNat := by
    rintro rfl
    exact hne (h.owned.marks.unique hy (mem_slotsOf hi le_rfl) hb hind)
  have hgets : GetsBlock inum bn r.toNat D fs D fs₂ := by
    refine ⟨hs'.sb, hdata, hfree, hfirst, fun x hx => ?_, hnone, ?_, fun y hy hne => ?_, ?_,
      fun y hy hm b hb => ?_⟩
    · rw [← hset.bit x hx]
      refine bit_congr hs₂.sb (fun y hy => hother y fun he => ?_) (by rw [hs.sb]; exact hx)
      have := hadata.1
      have := hy.2
      rw [hs.sb] at this
      omega
    · rw [slotPtr_eq_some, haddr, if_pos rfl]
      exact ⟨ht, hr, rfl⟩
    · obtain ⟨j, n⟩ := y
      have hj := (mem_slotsOf_iff.1 hy).1
      by_cases hji : j = inum
      · subst hji
        refine slotPtr_congr rfl ?_
        rw [haddr, if_neg fun hn : n = bn => hne (by rw [hn])]
      · by_cases htj : (D j).type = 0
        · rw [slotPtr, slotPtr, if_pos (.inl htj), if_pos (.inl htj)]
        refine slotPtr_congr rfl (slotEntry_congr (fun hj0 => ?_) n)
        have hindj : slotPtr fs D (j, MAXFILE) = some _ := slotPtr_indirect htj hj0
        rw [hother _ (hne_ind (mem_slotsOf hj le_rfl) hindj fun he => hji (congrArg Prod.fst he)),
          hspare j hj _ hindj]
    · rw [hother _ fun he => ?_, hzero]
      rw [he, habit] at hfree
      cases hfree
    · rw [hother b (hne_ind hy hb fun he => hm (by rw [he])),
        h.owned.buf_of_balloc hfree hbuf hy hb]
  have howned : Owned D fs₂ :=
    h.owned.link hi hmax.le hdata hfree hs'.sb hgets.bits hnone hgets.some hgets.others
      fun _ => ⟨rfl, rfl⟩
  have hitable := hs'.itable
  refine ⟨hr, h.change hip hs'.sb hs'.inLog hlog₂ howned (fun _ _ => rfl) (fun y hy hy' => ?_)
    (fun jp _ => by rw [hitable]) (by rw [hitable]; exact .refl _) (by rw [hitable, hd]) ht,
    ⟨⟨hs'.sb, fun _ _ => rfl, rfl, rfl, fun y hy b hb => hgets.ptr hy hb, by
        rw [hitable]; exact .refl _⟩,
      ⟨by rw [hlh₂, hlh], ?_, hgets.short_le hbV hi hV⟩, fun y hy hm => hgets.data hy hm,
      fun jp _ => by rw [hitable]⟩,
    hgets.some⟩
  · rw [hother y (buf_of_data hy' hadata), hbuf y (fun hb => ?_) (buf_of_data hy' hdata)]
    have := hb.1
    omega
  · -- the entry is put into the indirect block, which is logged last
    have hindS := loggedBlocks_of_slot (Finset.mem_filter.2 ⟨hiV, fun _ => ⟨bn, hempty, hbn⟩⟩) hind
    rw [hlh₂, hlh]
    exact (Budget.load_mono (hgets.loggedBlocks_subset hbV hi hV)).trans
      ((load_logged hindS _).trans (hgets.load_le hbV hi hV _))

/-- `bmap` gives the address of a block, and allocates what is missing. -/
theorem bmap_total {ip bn : ℕ} (h : FsOk D (some inum) fs) (hip : InCore fs ip inum)
    (hmax : bn < MAXFILE) (hV : ∀ m ∈ V, m ≤ MAXFILE) (hbV : bn ∈ V)
    (hiV : NDIRECT ≤ bn → MAXFILE ∈ V) :
    wp (bmap ip bn) (Stuck V inum D fs) (fun r fs' => ∃ D', FsOk D' (some inum) fs' ∧
      Grew V ip inum D fs D' fs' ∧ slotPtr fs' D' (inum, bn) = some r.toNat) fs := by
  have hMAX : MAXFILE = NDIRECT + NINDIRECT := rfl
  unfold bmap
  rw [wp_bind, wp_getInode]
  by_cases hlt : bn < NDIRECT
  · rw [if_pos hlt]
    refine (addrField_total h hip hlt.le hV (by rwa [fieldSlot, if_neg hlt.ne])).mono
      fun r fs₁ ⟨hr, D₁, h₁, hg, ha⟩ => ⟨D₁, h₁, hg, ?_⟩
    rw [slotPtr_eq_some, slotEntry_direct hlt, ha]
    exact ⟨hg.type ▸ (h.inCore hip).2.1, hr, rfl⟩
  rw [if_neg hlt, wp_bind, wp_panicIf, if_neg (by omega), wp_bind]
  have hiV := hiV (by omega)
  refine (addrField_total h hip le_rfl hV (by rwa [fieldSlot, if_pos rfl])).mono
    fun a fs₁ ⟨ha0, D₁, h₁, hg, ha⟩ => ?_
  have hip₁ : InCore fs₁ ip inum := hip.same hg.head
  rw [wp_bind, wp_bread]
  by_cases h0 : loadW 32 (fs₁.log.buf a.toNat) (4 * (bn - NDIRECT)) = (0 : U32)
  · rw [if_neg (not_not.2 h0)]
    exact ((allocEntry_total h₁ hip₁ (by omega) hmax ha ha0 h0 hV hbV hiV).weaken
      fun _ => hg.toSpends.stuck).mono fun r fs₂ ⟨_, h₂, hg₂, hp⟩ => ⟨D₁, h₂, hg.trans hg₂, hp⟩
  · rw [if_pos h0]
    refine ⟨D₁, h₁, hg, ?_⟩
    rw [slotPtr_eq_some, slotEntry_entry (by omega) (by omega) (ha ▸ ha0), ha]
    exact ⟨(h₁.inCore hip₁).2.1, h0, rfl⟩

end

/-- `bmap` beyond the last block. -/
theorem bmap_big {ip bn : ℕ} (hbn : MAXFILE ≤ bn) (fs : Fs) :
    wp (bmap ip bn) FreesOk (fun _ _ => False) fs := by
  have hMAX : MAXFILE = NDIRECT + NINDIRECT := rfl
  unfold bmap
  rw [wp_bind, wp_getInode, if_neg (by omega), wp_bind, wp_panicIf, if_pos (by omega)]
  exact (by decide : FreesOk (.panic "bmap: out of range"))

/-- `bmap`, for any block number. -/
theorem bmap_spec {ip : ℕ} (h : FsOk D (some inum) fs) (hip : InCore fs ip inum) (bn : ℕ) :
    wp (bmap ip bn) FreesOk (fun r fs' => bn < MAXFILE ∧ ∃ D', FsOk D' (some inum) fs' ∧
      Grown ip inum D fs D' fs' ∧ slotPtr fs' D' (inum, bn) = some r.toNat) fs := by
  rcases Nat.lt_or_ge bn MAXFILE with hmax | hmax
  · refine ((bmap_total (V := {bn, MAXFILE}) h hip hmax ?_ (by simp) (by simp)).weaken
      fun _ => Stuck.freesOk).mono fun r fs' ⟨D', h', hg, hp⟩ => ⟨hmax, D', h', hg.toGrown, hp⟩
    intro m hm
    rcases Finset.mem_insert.1 hm with rfl | hm
    · exact hmax.le
    · exact (Finset.mem_singleton.1 hm).le
  · exact (bmap_big hmax fs).mono fun _ _ => False.elim

end

end Xv6
