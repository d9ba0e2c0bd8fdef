import Xv6.BlockOwner
import Xv6.Mkfs

/-!
# What `mkfs` builds

The image is looked at as the kernel will see it, through the slots of its inodes.  `Built N c blk
s` says that the inodes `N` have been given the contents `c` so far, in `blk` blocks each, and that
the blocks below `freeblock`, and only they, belong to one slot each.  It is stated for the inodes
as the program has them in memory: `iappend` writes an inode back only at its end.
-/

namespace Xv6.Mkfs

open Bytes Wp Tally

/-! ### Inodes in blocks -/

/-- The part of an inode that says which blocks belong to it. -/
def Din.dinode (d : Din) : Dinode := ⟨d.type, d.size, d.addrs⟩

/-- There is nothing behind the last address. -/
def Din.Normal (d : Din) : Prop := ∀ n, NDIRECT < n → d.addrs n = 0

theorem Din.Normal.update {d : Din} (h : d.Normal) {k : ℕ} (hk : k ≤ NDIRECT) (v : U32) :
    ({ d with addrs := Function.update d.addrs k v } : Din).Normal := fun n hn => by
  change Function.update d.addrs k v n = 0
  rw [Function.update_of_ne (by omega)]
  exact h n hn

theorem Din.store_of_not_mem {d : Din} {b : Block} {o x : ℕ} (h : x < o ∨ o + 64 ≤ x) :
    d.store b o x = b x :=
  putInode_of_not_mem
    (i := ⟨0, 0, 0, false, false, d.type, d.major, d.minor, d.nlink, d.size, d.addrs⟩) h

theorem Din.load_congr {b b' : Block} {o : ℕ} (h : ∀ x, o ≤ x → x < o + 64 → b' x = b x) :
    Din.load b' o = Din.load b o := by
  have hload (w k : ℕ) (hk : k + w / 8 ≤ 64) : loadW w b' (o + k) = loadW w b (o + k) :=
    loadW_congr fun x hx hx' => h x (by omega) (by omega)
  refine Din.ext (hload 16 0 (by decide)) (hload 16 2 (by decide)) (hload 16 4 (by decide))
    (hload 16 6 (by decide)) (hload 32 8 (by decide)) (funext fun n => ?_)
  change (if n ≤ NDIRECT then _ else _) = if n ≤ NDIRECT then _ else _
  split_ifs with hn
  · have hn : n ≤ 12 := hn
    rw [add_assoc]
    exact hload 32 _ (by omega)
  · rfl

/-- An inode is read as it was written. -/
theorem Din.load_store {d : Din} (hd : d.Normal) (b : Block) (o : ℕ) :
    Din.load (d.store b o) o = d := by
  have hn : NDIRECT + 1 = 13 := rfl
  have hskip (w a : ℕ) (ha : a + w / 8 ≤ o + 12) (b : Block) :
      loadW w (putAddrs d.addrs o (NDIRECT + 1) b) a = loadW w b a :=
    loadW_congr fun x _ _ => putAddrs_of_not_mem _ _ (by omega)
  refine Din.ext ?_ ?_ ?_ ?_ ?_ (funext fun n => ?_)
  · change loadW 16 _ o = d.type
    rw [Din.store, hskip _ _ (by omega), loadW_storeW_of_disjoint (by omega),
      loadW_storeW_of_disjoint (by omega), loadW_storeW_of_disjoint (by omega),
      loadW_storeW_of_disjoint (by omega), loadW_storeW (by decide)]
  · change loadW 16 _ (o + 2) = d.major
    rw [Din.store, hskip _ _ (by omega), loadW_storeW_of_disjoint (by omega),
      loadW_storeW_of_disjoint (by omega), loadW_storeW_of_disjoint (by omega),
      loadW_storeW (by decide)]
  · change loadW 16 _ (o + 4) = d.minor
    rw [Din.store, hskip _ _ (by omega), loadW_storeW_of_disjoint (by omega),
      loadW_storeW_of_disjoint (by omega), loadW_storeW (by decide)]
  · change loadW 16 _ (o + 6) = d.nlink
    rw [Din.store, hskip _ _ (by omega), loadW_storeW_of_disjoint (by omega),
      loadW_storeW (by decide)]
  · change loadW 32 _ (o + 8) = d.size
    rw [Din.store, hskip _ _ (by omega), loadW_storeW (by decide)]
  · change (if n ≤ NDIRECT then _ else _) = d.addrs n
    split_ifs with hle
    · exact loadW_putAddrs _ _ (by omega)
    · exact (hd n (by omega)).symm

/-! ### The image as the kernel sees it -/

/-- The superblock that `mkfs` writes. -/
def sb : Superblock :=
  ⟨BitVec.ofNat 32 FSSIZE, BitVec.ofNat 32 NINODES, BitVec.ofNat 32 inodestart,
    BitVec.ofNat 32 bmapstart⟩

/-- The image as a file system. -/
def State.fs (s : State) : Fs where
  log := boot 2 nlog s.sect
  sb := sb
  itable _ := ⟨0, 0, 0, false, false, 0, 0, 0, 0, 0, fun _ => 0⟩

/-- The image with sector `sec` overwritten. -/
def State.setSect (s : State) (sec : ℕ) (buf : Block) : State :=
  { s with sect := Function.update s.sect sec buf }

@[simp]
theorem State.setSect_self (s : State) (sec : ℕ) (buf : Block) :
    (s.setSect sec buf).sect sec = buf := by
  simp [State.setSect]

theorem State.setSect_of_ne {s : State} {sec sec' : ℕ} (h : sec' ≠ sec) (buf : Block) :
    (s.setSect sec buf).sect sec' = s.sect sec' := by
  simp [State.setSect, h]

/-- Inode `j` of the image. -/
def State.inode (s : State) (j : ℕ) : Din := Din.load (s.sect (IBLOCK j)) (j % IPB * 64)

/-- The inodes on the image are `N`, but for `x`. -/
def OnDisk (x : Option ℕ) (N : ℕ → Din) (s : State) : Prop :=
  ∀ j < NINODES, x ≠ some j → s.inode j = N j

/-- What is built so far. -/
structure Built (N : ℕ → Din) (c : ℕ → List Byte) (blk : ℕ → ℕ) (s : State) : Prop where
  len : s.len = FSSIZE
  low : nmeta ≤ s.freeblock
  room : s.freeblock ≤ FSSIZE
  marks : Marks (slotsOf sb) (slotPtr s.fs fun i => (N i).dinode)
    (fun b => decide (b < s.freeblock)) (InData sb)
  slots : ∀ i, (N i).type ≠ 0 → ∀ n < MAXFILE, slotEntry s.fs (N i).dinode n ≠ 0 ↔ n < blk i
  fits : ∀ i, (c i).length ≤ blk i * BSIZE
  bytes : ∀ i, (N i).type ≠ 0 → ∀ k < (c i).length,
    s.sect (slotEntry s.fs (N i).dinode (k / BSIZE)).toNat (k % BSIZE) = (c i).getD k 0
  zero : ∀ b, s.freeblock ≤ b → b < FSSIZE → s.sect b = fun _ => 0
  inodes : ∀ i, (N i).type ≠ 0 → i < NINODES
  blocks : ∀ i, (N i).type ≠ 0 → blk i ≤ MAXFILE

section

variable {N N' : ℕ → Din} {c : ℕ → List Byte} {blk : ℕ → ℕ} {s s' : State} {i n b : ℕ}

theorem inData_iff : InData sb b ↔ nmeta ≤ b ∧ b < FSSIZE := Iff.rfl

theorem IBLOCK_lt_bmapstart (hi : i < NINODES) : IBLOCK i < bmapstart := by
  have h1 : NINODES = 200 := rfl
  have h2 : bmapstart = 45 := rfl
  have h3 : inodestart = 32 := rfl
  rw [IBLOCK, IPB_eq]
  omega

theorem IBLOCK_lt (hi : i < NINODES) : IBLOCK i < nmeta :=
  (IBLOCK_lt_bmapstart hi).trans (by decide)

theorem sb_ninodes : sb.ninodes.toNat = NINODES := by decide

theorem mem_slots {y : ℕ × ℕ} : y ∈ slotsOf sb ↔ y.1 < NINODES ∧ y.2 ≤ MAXFILE := by
  rw [slotsOf, Finset.mem_product, Finset.mem_range, Finset.mem_range, sb_ninodes,
    Nat.lt_succ_iff]

attribute [local irreducible] slotsOf

theorem Built.inside (h : Built N c blk s) (hi : (N i).type ≠ 0) (hn : n ≤ MAXFILE)
    (h0 : slotEntry s.fs (N i).dinode n ≠ 0) :
    nmeta ≤ (slotEntry s.fs (N i).dinode n).toNat ∧
      (slotEntry s.fs (N i).dinode n).toNat < s.freeblock := by
  have hmem : (i, n) ∈ slotsOf sb := mem_slots.2 ⟨h.inodes i hi, hn⟩
  have hptr : slotPtr s.fs (fun i => (N i).dinode) (i, n)
      = some (slotEntry s.fs (N i).dinode n).toNat := slotPtr_eq_some.2 ⟨hi, h0, rfl⟩
  exact ⟨(h.marks.inside _ hmem _ hptr).1, of_decide_eq_true (h.marks.marked hmem hptr)⟩

/-- The slot of every byte is in use. -/
theorem Built.byte_slot (h : Built N c blk s) (hi : (N i).type ≠ 0) {k : ℕ}
    (hk : k < (c i).length) :
    k / BSIZE < MAXFILE ∧ slotEntry s.fs (N i).dinode (k / BSIZE) ≠ 0 := by
  have hfit := h.fits i
  have hblk : k / BSIZE < blk i := Nat.div_lt_of_lt_mul (by rw [mul_comm]; omega)
  have hmax := hblk.trans_le (h.blocks i hi)
  exact ⟨hmax, (h.slots i hi _ hmax).2 hblk⟩

/-- Two slots in use with the same block are the same slot. -/
theorem Built.slot_inj (h : Built N c blk s) {j m : ℕ} (hi : (N i).type ≠ 0) (hj : (N j).type ≠ 0)
    (hn : n ≤ MAXFILE) (hm : m ≤ MAXFILE) (h0 : slotEntry s.fs (N i).dinode n ≠ 0)
    (he : slotEntry s.fs (N j).dinode m = slotEntry s.fs (N i).dinode n) : (j, m) = (i, n) := by
  refine h.marks.unique (mem_slots.2 ⟨h.inodes j hj, hm⟩) (mem_slots.2 ⟨h.inodes i hi, hn⟩)
    (x := (slotEntry s.fs (N i).dinode n).toNat) ?_ ?_
  · exact slotPtr_eq_some.2 ⟨hj, he ▸ h0, by rw [he]⟩
  · exact slotPtr_eq_some.2 ⟨hi, h0, rfl⟩

/-- Inodes and the blocks below the data do not matter to what is built. -/
theorem Built.congr (h : Built N c blk s) (hlen : s'.len = s.len)
    (hfree : s'.freeblock = s.freeblock) (hsect : ∀ b, nmeta ≤ b → s'.sect b = s.sect b)
    (hN : ∀ i, (N' i).type = (N i).type ∧ (N' i).addrs = (N i).addrs) : Built N' c blk s' := by
  have hind (i : ℕ) (hi : (N i).type ≠ 0) (n : ℕ) :
      slotEntry s'.fs (N' i).dinode n = slotEntry s.fs (N i).dinode n := by
    have hd : slotEntry s'.fs (N' i).dinode n = slotEntry s'.fs (N i).dinode n := by
      unfold slotEntry Din.dinode
      rw [(hN i).2]
    rw [hd]
    refine slotEntry_congr (fun h0 => hsect _ ?_) n
    have := h.inside hi le_rfl (by rw [slotEntry_indirect]; exact h0)
    rw [slotEntry_indirect] at this
    exact this.1
  refine ⟨hlen.trans h.len, hfree ▸ h.low, hfree ▸ h.room, ?_, ?_, h.fits, ?_, ?_, ?_, ?_⟩
  · rw [hfree]
    refine h.marks.congr (fun y hy => ?_) fun _ _ => rfl
    by_cases ht : (N y.1).type = 0
    · exact (if_pos (.inl ((hN y.1).1.trans ht))).trans (if_pos (.inl ht)).symm
    · exact slotPtr_congr (hN y.1).1 (hind _ ht _)
  · intro i hi n hn
    rw [(hN i).1] at hi
    rw [hind i hi]
    exact h.slots i hi n hn
  · intro i hi k hk
    rw [(hN i).1] at hi
    obtain ⟨hmax, h0⟩ := h.byte_slot hi hk
    rw [hind i hi, hsect _ (h.inside hi hmax.le h0).1]
    exact h.bytes i hi k hk
  · intro b hb hlt
    rw [hfree] at hb
    rw [hsect b (h.low.trans hb)]
    exact h.zero b hb hlt
  · exact fun i hi => h.inodes i ((hN i).1 ▸ hi)
  · exact fun i hi => h.blocks i ((hN i).1 ▸ hi)

/-- The next free block is given to an empty slot of inode `i`; only its indirect block may
change. -/
theorem Built.alloc (h : Built N c blk s) (hi : (N i).type ≠ 0) (hn : n ≤ MAXFILE)
    (hroom : s.freeblock < FSSIZE) {d : Din} (ht : d.type = (N i).type) (hlen : s'.len = s.len)
    (hfree : s'.freeblock = s.freeblock + 1)
    (hsect : ∀ b, ((N i).addrs NDIRECT ≠ 0 → b ≠ ((N i).addrs NDIRECT).toNat) →
      s'.sect b = s.sect b)
    (hnone : slotEntry s.fs (N i).dinode n = 0)
    (hentry : ∀ m, slotEntry s'.fs d.dinode m =
      if m = n then BitVec.ofNat 32 s.freeblock else slotEntry s.fs (N i).dinode m) {k : ℕ}
    (hk : ∀ m < MAXFILE, m < k ↔ m = n ∨ m < blk i) (hbk : blk i ≤ k) (hkm : k ≤ MAXFILE) :
    Built (Function.update N i d) c (Function.update blk i k) s' := by
  have hsize : FSSIZE = 1000 := rfl
  have hmeta : nmeta = 46 := rfl
  have hlow := h.low
  have hr : (BitVec.ofNat 32 s.freeblock).toNat = s.freeblock := by
    rw [BitVec.toNat_ofNat]
    omega
  have hr0 : BitVec.ofNat 32 s.freeblock ≠ 0 := fun he => by
    rw [he] at hr
    change 0 = s.freeblock at hr
    omega
  -- blocks in use by other slots than that of the indirect block stay
  have hstay (j m : ℕ) (hj : (N j).type ≠ 0) (hm : m ≤ MAXFILE) (hne : (j, m) ≠ (i, MAXFILE))
      (h0 : slotEntry s.fs (N j).dinode m ≠ 0) :
      s'.sect (slotEntry s.fs (N j).dinode m).toNat =
        s.sect (slotEntry s.fs (N j).dinode m).toNat := by
    refine hsect _ fun hind he => hne ?_
    refine h.slot_inj hi hj le_rfl hm ?_ ?_
    · rw [slotEntry_indirect]
      exact hind
    · rw [slotEntry_indirect]
      exact BitVec.eq_of_toNat_eq he
  have hother (j : ℕ) (hj : (N j).type ≠ 0) (hji : j ≠ i) (m : ℕ) :
      slotEntry s'.fs (N j).dinode m = slotEntry s.fs (N j).dinode m := by
    refine slotEntry_congr (fun h0 => ?_) m
    have := hstay j MAXFILE hj le_rfl (fun he => hji (Prod.mk.inj he).1)
      (by rw [slotEntry_indirect]; exact h0)
    rwa [slotEntry_indirect] at this
  have htype (j : ℕ) : (Function.update N i d j).type = (N j).type := by
    rw [Function.update_apply]
    split_ifs with hji
    · rw [hji, ht]
    · rfl
  have hnew (j m : ℕ) (hj : (N j).type ≠ 0) : slotEntry s'.fs (Function.update N i d j).dinode m =
      if (j, m) = (i, n) then BitVec.ofNat 32 s.freeblock else slotEntry s.fs (N j).dinode m := by
    rw [Function.update_apply]
    by_cases hji : j = i
    · rw [if_pos hji, hentry m, hji]
      exact if_congr (by simp) rfl rfl
    · rw [if_neg hji, hother j hj hji, if_neg fun he => hji (Prod.mk.inj he).1]
  refine ⟨hlen.trans h.len, by omega, by omega, ?_, ?_, ?_, ?_, ?_, ?_, ?_⟩
  · rw [hfree]
    refine h.marks.link (x := s.freeblock) (mem_slots.2 ⟨h.inodes i hi, hn⟩)
      (inData_iff.2 ⟨hlow, hroom⟩) (decide_eq_false (lt_irrefl _)) (slotPtr_eq_none hnone) ?_ ?_ ?_
    · refine slotPtr_eq_some.2 ?_
      have := hnew i n hi
      rw [if_pos rfl] at this
      rw [this]
      exact ⟨(htype i).trans_ne hi, hr0, hr⟩
    · intro y hy hne
      by_cases hy0 : (N y.1).type = 0
      · exact (if_pos (.inl ((htype y.1).trans hy0))).trans (if_pos (.inl hy0)).symm
      · exact slotPtr_congr (htype y.1) ((hnew y.1 y.2 hy0).trans (if_neg hne))
    · intro y _
      split_ifs with hy
      · exact decide_eq_true (by omega)
      · exact decide_eq_decide.2 (by omega)
  · intro j hj m hm
    rw [htype j] at hj
    rw [hnew j m hj, Function.update_apply]
    by_cases hji : j = i
    · subst hji
      rw [if_pos rfl, hk m hm]
      split_ifs with he
      · exact ⟨fun _ => Or.inl (Prod.mk.inj he).2, fun _ => hr0⟩
      · rw [h.slots j hj m hm]
        exact ⟨Or.inr, fun h' => h'.resolve_left fun hmn => he (by rw [hmn])⟩
    · rw [if_neg hji, if_neg fun he => hji (Prod.mk.inj he).1]
      exact h.slots j hj m hm
  · intro j
    rw [Function.update_apply]
    split_ifs with hji
    · subst hji
      exact (h.fits j).trans (Nat.mul_le_mul_right _ hbk)
    · exact h.fits j
  · intro j hj m hm
    rw [htype j] at hj
    obtain ⟨hlt, h0⟩ := h.byte_slot hj hm
    have hne : (j, m / BSIZE) ≠ (i, n) := by
      rintro he
      obtain ⟨rfl, hmn⟩ := Prod.mk.inj he
      exact h0 (hmn ▸ hnone)
    rw [hnew j _ hj, if_neg hne, hstay j _ hj hlt.le (fun he => hlt.ne (Prod.mk.inj he).2) h0]
    exact h.bytes j hj m hm
  · intro b hb hlt
    rw [hsect b fun hind he => ?_]
    · exact h.zero b (by omega) hlt
    · have := h.inside hi le_rfl (by rw [slotEntry_indirect]; exact hind)
      rw [slotEntry_indirect] at this
      change _ ∧ ((N i).addrs NDIRECT).toNat < _ at this
      omega
  · exact fun j hj => h.inodes j (htype j ▸ hj)
  · intro j hj
    rw [Function.update_apply]
    split_ifs with hji
    · exact hkm
    · exact h.blocks j (htype j ▸ hj)

/-- Bytes are appended to a block that inode `i` has. -/
theorem Built.write (h : Built N c blk s) (hi : (N i).type ≠ 0) {q : List Byte}
    (hq : (c i).length % BSIZE + q.length ≤ BSIZE) (hblk : (c i).length / BSIZE < blk i) {x : ℕ}
    (hx : x = (slotEntry s.fs (N i).dinode ((c i).length / BSIZE)).toNat)
    (hs' : s' = s.setSect x (putBytes (s.sect x) ((c i).length % BSIZE) q)) :
    Built N (Function.update c i (c i ++ q)) blk s' := by
  have hB : BSIZE = 1024 := rfl
  have hmax := hblk.trans_le (h.blocks i hi)
  have h0 := (h.slots i hi _ hmax).2 hblk
  have hin := h.inside hi hmax.le h0
  rw [← hx] at hin
  have hsect (b : ℕ) (hb : b ≠ x) : s'.sect b = s.sect b := by
    rw [hs']
    exact Function.update_of_ne hb _ _
  have hat : s'.sect x = putBytes (s.sect x) ((c i).length % BSIZE) q := by
    rw [hs']
    exact Function.update_self ..
  -- the block is that of one slot only, and of no indirect block
  have hne (j m : ℕ) (hj : (N j).type ≠ 0) (hm : m ≤ MAXFILE)
      (hjm : (j, m) ≠ (i, (c i).length / BSIZE)) : (slotEntry s.fs (N j).dinode m).toNat ≠ x := by
    intro he
    rw [hx] at he
    exact hjm (h.slot_inj hi hj hmax.le hm h0 (BitVec.eq_of_toNat_eq he))
  have hentry (j : ℕ) (hj : (N j).type ≠ 0) (m : ℕ) :
      slotEntry s'.fs (N j).dinode m = slotEntry s.fs (N j).dinode m := by
    refine slotEntry_congr (fun hind => hsect _ ?_) m
    have := hne j MAXFILE hj le_rfl fun he => hmax.ne (Prod.mk.inj he).2.symm
    rwa [slotEntry_indirect] at this
  have hrest : s'.len = s.len ∧ s'.freeblock = s.freeblock := by
    rw [hs']
    exact ⟨rfl, rfl⟩
  refine ⟨hrest.1.trans h.len, hrest.2 ▸ h.low, hrest.2 ▸ h.room, ?_, ?_, ?_, ?_, ?_, h.inodes,
    h.blocks⟩
  · rw [hrest.2]
    refine h.marks.congr (fun y _ => ?_) fun _ _ => rfl
    by_cases hy : (N y.1).type = 0
    · exact (if_pos (.inl hy)).trans (if_pos (.inl hy)).symm
    · exact slotPtr_congr rfl (hentry y.1 hy y.2)
  · intro j hj m hm
    rw [hentry j hj]
    exact h.slots j hj m hm
  · intro j
    rw [Function.update_apply]
    split_ifs with hji
    · subst hji
      rw [List.length_append, hB]
      rw [hB] at hq hblk
      omega
    · exact h.fits j
  · intro j hj k hk
    rw [hentry j hj]
    rw [Function.update_apply] at hk ⊢
    by_cases hji : j = i
    · subst hji
      rw [if_pos rfl] at hk ⊢
      rw [List.length_append] at hk
      by_cases hkb : k / BSIZE = (c j).length / BSIZE
      · -- the block that is written
        rw [hkb, ← hx, hat, putBytes]
        have hlen := Nat.div_add_mod (c j).length BSIZE
        have hkk := Nat.div_add_mod k BSIZE
        rw [hkb] at hkk
        by_cases hlt : k < (c j).length
        · rw [if_neg (by omega), List.getD_append _ _ _ _ hlt, ← h.bytes j hj k hlt, hkb, ← hx]
        · rw [if_pos (by omega), List.getD_append_right _ _ _ _ (by omega),
            show k % BSIZE - (c j).length % BSIZE = k - (c j).length by omega,
            List.getD_eq_getElem _ _ (by omega), List.getD_eq_getElem _ _ (by omega)]
      · have hlt : k < (c j).length := by
          by_contra hge
          rw [hB] at hq hkb
          omega
        obtain ⟨hkm, -⟩ := h.byte_slot hj hlt
        rw [hsect _ (hne j _ hj hkm.le fun he => hkb (Prod.mk.inj he).2),
          List.getD_append _ _ _ _ hlt]
        exact h.bytes j hj k hlt
    · rw [if_neg hji] at hk ⊢
      obtain ⟨hkm, -⟩ := h.byte_slot hj hk
      rw [hsect _ (hne j _ hj hkm.le fun he => hji (Prod.mk.inj he).1)]
      exact h.bytes j hj k hk
  · intro b hb hlt
    rw [hrest.2] at hb
    rw [hsect b (by omega)]
    exact h.zero b hb hlt

end

/-! ### Sectors -/

section

variable {E : Exit → Prop} {s : State} {sec : ℕ}

theorem wp_rsect {Q : Block → State → Prop} :
    wp (rsect sec) E Q s ↔ if sec < s.len then Q (s.sect sec) s else E (.die readMsg) := by
  rw [rsect, wp_bind, wp_get, wp_ite]
  rfl

theorem wp_assert {p : Prop} [Decidable p] {Q : Unit → State → Prop} :
    wp (assert p) E Q s ↔ if p then Q () s else E .assert := by
  rw [assert, wp_ite]
  rfl

theorem wp_wsect (hlen : s.len = FSSIZE) (hsec : sec < FSSIZE) {buf : Block}
    {Q : Unit → State → Prop} :
    wp (wsect sec buf) E Q s ↔ Q () (s.setSect sec buf) := by
  have hmax : max s.len (sec + 1) = s.len := by omega
  rw [wsect, wp_modify, hmax]
  rfl

theorem wp_nextBlock {Q : ℕ → State → Prop} :
    wp nextBlock E Q s ↔ Q s.freeblock { s with freeblock := s.freeblock + 1 } := Iff.rfl

end

/-! ### `iappend` -/

/-- The inodes, the bitmap and the blocks before them are left alone. -/
structure SameLow (s s' : State) : Prop where
  freeinode : s'.freeinode = s.freeinode
  sect : ∀ b < nmeta, s'.sect b = s.sect b

theorem SameLow.refl (s : State) : SameLow s s := ⟨rfl, fun _ _ => rfl⟩

theorem SameLow.alloc (s : State) : SameLow s { s with freeblock := s.freeblock + 1 } :=
  ⟨rfl, fun _ _ => rfl⟩

theorem SameLow.trans {s s' s'' : State} (h : SameLow s s') (h' : SameLow s' s'') : SameLow s s'' :=
  ⟨h'.freeinode.trans h.freeinode, fun b hb => (h'.sect b hb).trans (h.sect b hb)⟩

theorem SameLow.setSect {s s' : State} (h : SameLow s s') {x : ℕ} (hx : nmeta ≤ x) (buf : Block) :
    SameLow s (s'.setSect x buf) :=
  ⟨h.freeinode, fun b hb => (Function.update_of_ne (by omega) _ _).trans (h.sect b hb)⟩

/-- Two inodes that differ in their addresses only. -/
structure SameHead (d d' : Din) : Prop where
  type : d'.type = d.type
  nlink : d'.nlink = d.nlink
  size : d'.size = d.size
  normal : d'.Normal

section

variable {N : ℕ → Din} {c : ℕ → List Byte} {blk : ℕ → ℕ} {s s' : State} {i n k : ℕ}

/-- The inode with the next free block in address field `k`. -/
def Din.setAddr (d : Din) (k b : ℕ) : Din :=
  { d with addrs := Function.update d.addrs k (BitVec.ofNat 32 b) }

theorem Din.addrs_setAddr (d : Din) (k b : ℕ) : (d.setAddr k b).addrs k = BitVec.ofNat 32 b := by
  simp [Din.setAddr]

theorem SameHead.setAddr {d d' : Din} (h : SameHead d d') (hk : k ≤ NDIRECT) (b : ℕ) :
    SameHead d (d'.setAddr k b) :=
  ⟨h.type, h.nlink, h.size, h.normal.update hk _⟩

theorem Built.toNat_freeblock (h : Built N c blk s) :
    (BitVec.ofNat 32 s.freeblock).toNat = s.freeblock ∧ BitVec.ofNat 32 s.freeblock ≠ 0 := by
  have hsize : FSSIZE = 1000 := rfl
  have hmeta : nmeta = 46 := rfl
  have hlow := h.low
  have hroom := h.room
  have hr : (BitVec.ofNat 32 s.freeblock).toNat = s.freeblock := by
    rw [BitVec.toNat_ofNat]
    omega
  refine ⟨hr, fun he => ?_⟩
  rw [he] at hr
  change 0 = s.freeblock at hr
  omega

/-- An empty address field gets the next free block. -/
theorem Built.allocField (h : Built N c blk s) (hi : (N i).type ≠ 0) (hk : k ≤ NDIRECT)
    (h0 : (N i).addrs k = 0) (hroom : s.freeblock < FSSIZE) {m : ℕ}
    (hm : ∀ n < MAXFILE, n < m ↔ n = fieldSlot k ∨ n < blk i) (hbm : blk i ≤ m)
    (hmm : m ≤ MAXFILE) :
    Built (Function.update N i ((N i).setAddr k s.freeblock)) c (Function.update blk i m)
      { s with freeblock := s.freeblock + 1 } := by
  have hslot : fieldSlot k ≤ MAXFILE := by
    have : NDIRECT < MAXFILE := by decide
    unfold fieldSlot
    split_ifs <;> omega
  refine h.alloc hi hslot hroom ?_ ?_ ?_ (fun _ _ => ?_) ?_ (fun n => ?_) hm hbm hmm
  · rfl
  · rfl
  · rfl
  · rfl
  · rw [slotEntry_fieldSlot hk]
    exact h0
  · refine slotEntry_setAddr hk h0 h.toNat_freeblock.2 (fun n => ?_) ?_ (fun _ => rfl) n
    · exact Function.update_apply _ _ _ _
    · rw [h.toNat_freeblock.1]
      exact h.zero _ le_rfl hroom

/-- An empty entry of the indirect block gets the next free block. -/
theorem Built.allocEntry (h : Built N c blk s) (hi : (N i).type ≠ 0) (hn : NDIRECT ≤ n)
    (hnm : n < MAXFILE) (hblk : n = blk i) (hind : (N i).addrs NDIRECT ≠ 0)
    (hroom : s.freeblock < FSSIZE)
    (hs' : s' = { s with freeblock := s.freeblock + 1 }.setSect ((N i).addrs NDIRECT).toNat
      (storeW (s.sect ((N i).addrs NDIRECT).toNat) (4 * (n - NDIRECT))
        (BitVec.ofNat 32 s.freeblock))) :
    Built N c (Function.update blk i (n + 1)) s' := by
  have hnone : slotEntry s.fs (N i).dinode n = 0 := by
    by_contra h0
    have := (h.slots i hi n hnm).1 h0
    omega
  rw [← Function.update_eq_self i N]
  refine h.alloc hi hnm.le hroom ?_ ?_ ?_ (fun b hb => ?_) hnone ?_ (fun m _ => by omega) (by omega)
    hnm
  · rfl
  · rw [hs']
    rfl
  · rw [hs']
    rfl
  · rw [hs']
    exact Function.update_of_ne (hb hind) _ _
  · refine slotEntry_setEntry hn hnm hind ?_
    rw [hs']
    exact Function.update_self ..

/-- The sector of block `fbn` has been found: the inode is now `d`, and it has `m` blocks. -/
structure Found (N : ℕ → Din) (c : ℕ → List Byte) (blk : ℕ → ℕ) (i fbn : ℕ) (s : State) (d : Din)
    (x : ℕ) (s' : State) : Prop where
  len : s'.len = FSSIZE
  low : SameLow s s'
  head : SameHead (N i) d
  cost : s'.freeblock ≤ s.freeblock + 2 * (max (blk i) (fbn + 1) - blk i)
  built : x < FSSIZE →
    Built (Function.update N i d) c (Function.update blk i (max (blk i) (fbn + 1))) s' ∧
      x = (slotEntry s'.fs d.dinode fbn).toNat
  full : FSSIZE ≤ x → blk i ≤ fbn ∧ FSSIZE < s.freeblock + 2

/-- A block that the inode has is found. -/
theorem Built.found (h : Built N c blk s) (hi : (N i).type ≠ 0) (hnorm : (N i).Normal) {fbn : ℕ}
    (hlt : fbn < blk i) :
    Found N c blk i fbn s (N i) (slotEntry s.fs (N i).dinode fbn).toNat s := by
  have hmax : max (blk i) (fbn + 1) = blk i := by omega
  have hfm := hlt.trans_le (h.blocks i hi)
  have hin := h.inside hi hfm.le ((h.slots i hi fbn hfm).2 hlt)
  have hroom := h.room
  refine ⟨h.len, SameLow.refl s, ⟨rfl, rfl, rfl, hnorm⟩, Nat.le_add_right _ _,
    fun _ => ⟨?_, rfl⟩, ?_⟩
  · rw [hmax, Function.update_eq_self, Function.update_eq_self]
    exact h
  · omega

/-- An indirect block is allocated. -/
theorem Built.withIndirect (h : Built N c blk s) (hi : (N i).type ≠ 0)
    (h0 : (N i).addrs NDIRECT = 0) (hroom : s.freeblock < FSSIZE) :
    Built (Function.update N i ((N i).setAddr NDIRECT s.freeblock)) c blk
      { s with freeblock := s.freeblock + 1 } := by
  have hslot : fieldSlot NDIRECT = MAXFILE := if_pos rfl
  rw [← Function.update_eq_self i blk]
  refine h.allocField hi le_rfl h0 hroom (fun n hn => ?_) le_rfl (h.blocks i hi)
  rw [hslot]
  exact ⟨Or.inr, fun h' => h'.resolve_left hn.ne⟩

/-- The entry of a block in the indirect block is there, or gets allocated. -/
theorem wp_entry {E : Exit → Prop} {fbn : ℕ} (h : Built N c blk s) (hi : (N i).type ≠ 0)
    (hnorm : (N i).Normal) (hge : NDIRECT ≤ fbn) (hfbn : fbn < MAXFILE) (hle : fbn ≤ blk i)
    (hind : (N i).addrs NDIRECT ≠ 0) :
    wp (entry ((N i).addrs NDIRECT).toNat (fbn - NDIRECT)) E
      (fun x s' => Found N c blk i fbn s (N i) x s' ∧ s'.freeblock ≤ s.freeblock + 1 ∧
        (FSSIZE ≤ x → FSSIZE ≤ s.freeblock)) s := by
  have hin := h.inside hi le_rfl (by rw [slotEntry_indirect]; exact hind)
  rw [slotEntry_indirect] at hin
  change _ ≤ ((N i).addrs NDIRECT).toNat ∧ ((N i).addrs NDIRECT).toNat < _ at hin
  have hroom := h.room
  have hlen := h.len
  have hentry : slotEntry s.fs (N i).dinode fbn
      = loadW 32 (s.sect ((N i).addrs NDIRECT).toNat) (4 * (fbn - NDIRECT)) :=
    slotEntry_entry hge hfbn.ne hind
  rw [entry, wp_bind, wp_rsect, if_pos (by omega), wp_ite, ← hentry]
  by_cases h0 : slotEntry s.fs (N i).dinode fbn = 0
  · have hnot : ¬ fbn < blk i := fun hlt => (h.slots i hi fbn hfbn).2 hlt h0
    have hmax : max (blk i) (fbn + 1) = fbn + 1 := by omega
    rw [if_pos h0, wp_bind, wp_nextBlock, wp_bind]
    refine (wp_wsect ?_ (hin.2.trans_le hroom)).2 ?_
    · exact hlen
    rw [wp_pure, loadW_storeW (by decide), h.toNat_freeblock.1]
    have hnew : slotEntry (({ s with freeblock := s.freeblock + 1 } : State).setSect
        ((N i).addrs NDIRECT).toNat (storeW (s.sect ((N i).addrs NDIRECT).toNat)
          (4 * (fbn - NDIRECT)) (BitVec.ofNat 32 s.freeblock))).fs (N i).dinode fbn
        = BitVec.ofNat 32 s.freeblock := by
      refine (slotEntry_entry hge hfbn.ne hind).trans ?_
      change loadW 32 ((State.setSect _ ((N i).addrs NDIRECT).toNat _).sect
        ((N i).addrs NDIRECT).toNat) _ = _
      rw [State.setSect_self]
      exact loadW_storeW (by decide) _ _
    refine ⟨⟨hlen, (SameLow.alloc s).setSect hin.1 _, ⟨rfl, rfl, rfl, hnorm⟩, ?_, ?_, ?_⟩,
      le_rfl, id⟩
    · rw [hmax]
      change s.freeblock + 1 ≤ _
      omega
    · intro hlt
      rw [hmax, Function.update_eq_self]
      refine ⟨h.allocEntry hi hge hfbn (by omega) hind hlt rfl, ?_⟩
      rw [hnew, h.toNat_freeblock.1]
    · omega
  · rw [if_neg h0, wp_pure]
    have hlt := (h.slots i hi fbn hfbn).1 h0
    have hx := (h.inside hi hfbn.le h0).2
    exact ⟨h.found hi hnorm hlt, Nat.le_succ _, by omega⟩

/-- The sector of the next block of an inode, or of one that it has. -/
theorem wp_sector {fbn : ℕ} (h : Built N c blk s) (hi : (N i).type ≠ 0) (hnorm : (N i).Normal)
    (hfbn : fbn < MAXFILE) (hle : fbn ≤ blk i) :
    wp (sector (N i) fbn) (fun _ => blk i ≤ fbn ∧ FSSIZE < s.freeblock + 2)
      (fun r s' => Found N c blk i fbn s r.1 r.2 s') s := by
  have hroom := h.room
  have hlen := h.len
  obtain ⟨hfree, hfree0⟩ := h.toNat_freeblock
  rw [sector, wp_ite]
  by_cases hdir : fbn < NDIRECT
  · have hentry : slotEntry s.fs (N i).dinode fbn = (N i).addrs fbn := slotEntry_direct hdir
    rw [if_pos hdir, wp_ite]
    by_cases h0 : (N i).addrs fbn = 0
    · -- a direct block is allocated
      have hnot : ¬ fbn < blk i := fun hlt => (h.slots i hi fbn hfbn).2 hlt (hentry.trans h0)
      have hmax : max (blk i) (fbn + 1) = fbn + 1 := by omega
      have hslot : fieldSlot fbn = fbn := if_neg hdir.ne
      rw [if_pos h0, wp_bind, wp_nextBlock, wp_pure]
      have hx : ((N i).setAddr fbn s.freeblock).addrs fbn = BitVec.ofNat 32 s.freeblock :=
        Din.addrs_setAddr ..
      change Found N c blk i fbn s ((N i).setAddr fbn s.freeblock)
        (((N i).setAddr fbn s.freeblock).addrs fbn).toNat _
      rw [hx, hfree]
      refine ⟨hlen, SameLow.alloc s, (SameHead.mk rfl rfl rfl hnorm).setAddr hdir.le _, ?_, ?_, ?_⟩
      · rw [hmax]
        change s.freeblock + 1 ≤ _
        omega
      · rw [hmax]
        intro hlt
        refine ⟨h.allocField hi hdir.le h0 hlt (fun n _ => by rw [hslot]; omega) (by omega)
          hfbn, ?_⟩
        rw [slotEntry_direct hdir]
        exact ((congrArg BitVec.toNat hx).trans hfree).symm
      · omega
    · rw [if_neg h0, wp_pure, ← hentry]
      exact h.found hi hnorm ((h.slots i hi fbn hfbn).1 (hentry.trans_ne h0))
  · have hge : NDIRECT ≤ fbn := by omega
    rw [if_neg hdir, wp_bind, withIndirect, wp_ite]
    by_cases h0 : (N i).addrs NDIRECT = 0
    · -- the indirect block is allocated first
      have hnot : ¬ fbn < blk i := fun hlt => (h.slots i hi fbn hfbn).2 hlt
        (slotEntry_entry_of_zero hge hfbn.ne h0)
      rw [if_pos h0, wp_bind, wp_nextBlock, wp_pure, wp_bind]
      set d := (N i).setAddr NDIRECT s.freeblock with hd
      change wp (entry (d.addrs NDIRECT).toNat (fbn - NDIRECT)) _ _ _
      have hdind : d.addrs NDIRECT = BitVec.ofNat 32 s.freeblock := Din.addrs_setAddr ..
      have hhead : SameHead (N i) d := (SameHead.mk rfl rfl rfl hnorm).setAddr le_rfl _
      by_cases hlt : s.freeblock < FSSIZE
      · have h' := h.withIndirect hi h0 hlt
        have hself : Function.update N i d i = d := Function.update_self ..
        have hen := wp_entry (E := fun _ => blk i ≤ fbn ∧ FSSIZE < s.freeblock + 2) (i := i) h'
          (by rw [hself]; exact hi) (by rw [hself]; exact hhead.normal) hge hfbn hle
          (by rw [hself, hdind]; exact hfree0)
        rw [hself] at hen
        refine hen.mono fun x s' ⟨hx, hcost, hfull⟩ => ?_
        refine ⟨hx.len, (SameLow.alloc s).trans hx.low, hhead, ?_, fun hxlt => ?_, fun hge => ?_⟩
        · change s'.freeblock ≤ s.freeblock + 1 + 1 at hcost
          omega
        · have hb := hx.built hxlt
          rw [Function.update_idem] at hb
          exact hb
        · have hf := hfull hge
          change FSSIZE ≤ s.freeblock + 1 at hf
          omega
      · rw [entry, wp_bind, wp_rsect, if_neg]
        · omega
        · rw [hdind, hfree,
            show ({ s with freeblock := s.freeblock + 1 } : State).len = s.len from rfl, hlen]
          exact hlt
    · rw [if_neg h0, wp_pure, wp_bind]
      refine (wp_entry h hi hnorm hge hfbn hle h0).mono fun x s' hx => ?_
      exact hx.1

/-- The number of blocks that hold `n` bytes. -/
def blocksOf (n : ℕ) : ℕ := (n + BSIZE - 1) / BSIZE

/-- The blocks that `m` more bytes may take, counting the indirect block. -/
def extra (n m : ℕ) : ℕ := 2 * (blocksOf (n + m) - blocksOf n)

/-- There is no room for `m` more bytes of a file with `n` bytes: the file or the image would become
too large. -/
def NoRoom (s : State) (n m : ℕ) : Prop :=
  MAXFILE * BSIZE < n + m ∨ FSSIZE < s.freeblock + extra n m

/-- `p` has been appended to inode `i`, which is now `d`. -/
structure Appended (N : ℕ → Din) (c : ℕ → List Byte) (blk : ℕ → ℕ) (i : ℕ) (p : List Byte)
    (s : State) (d : Din) (s' : State) : Prop where
  built : Built (Function.update N i d) (Function.update c i (c i ++ p))
    (Function.update blk i (blocksOf ((c i).length + p.length))) s'
  head : SameHead (N i) d
  low : SameLow s s'
  cost : s'.freeblock ≤ s.freeblock + extra (c i).length p.length

/-- One round of the loop fills up a block. -/
theorem round_blocks {off m : ℕ} (hm : 0 < m) :
    max (blocksOf off) (off / BSIZE + 1) = off / BSIZE + 1 ∧
    blocksOf (off + min m ((off / BSIZE + 1) * BSIZE - off)) = off / BSIZE + 1 ∧
    blocksOf off ≤ off / BSIZE + 1 ∧ off / BSIZE ≤ blocksOf off ∧
    off / BSIZE + 1 ≤ blocksOf (off + m) ∧ off - off / BSIZE * BSIZE = off % BSIZE ∧
    0 < min m ((off / BSIZE + 1) * BSIZE - off) := by
  unfold blocksOf BSIZE
  omega

theorem SameHead.trans {d d' d'' : Din} (h : SameHead d d') (h' : SameHead d' d'') :
    SameHead d d'' :=
  ⟨h'.type.trans h.type, h'.nlink.trans h.nlink, h'.size.trans h.size, h'.normal⟩

/-- `p` is appended after `q`, which has filled the block it went to. -/
theorem Appended.after {q p : List Byte} {d d' : Din} {s₁ s₂ : State} {m : ℕ}
    (h : Appended (Function.update N i d) (Function.update c i (c i ++ q))
      (Function.update blk i m) i p s₁ d' s₂) (hhead : SameHead (N i) d) (hlow : SameLow s s₁)
    (hcost : s₁.freeblock + extra ((c i).length + q.length) p.length
      ≤ s.freeblock + extra (c i).length (q ++ p).length) :
    Appended N c blk i (q ++ p) s d' s₂ := by
  obtain ⟨hb, hh, hl, hc⟩ := h
  simp only [Function.update_self, Function.update_idem, List.append_assoc, List.length_append]
    at hb hh hc
  refine ⟨?_, hhead.trans hh, hlow.trans hl, hc.trans hcost⟩
  rw [List.length_append, ← Nat.add_assoc]
  exact hb

theorem Built.appended_nil (h : Built N c blk s) (hnorm : (N i).Normal)
    (hblk : blk i = blocksOf (c i).length) : Appended N c blk i [] s (N i) s := by
  refine ⟨?_, ⟨rfl, rfl, rfl, hnorm⟩, SameLow.refl s, Nat.le_add_right _ _⟩
  rw [List.append_nil, List.length_nil, Nat.add_zero, ← hblk, Function.update_eq_self,
    Function.update_eq_self, Function.update_eq_self]
  exact h

/-- The loop of `iappend`. -/
theorem wp_iappendFrom {fuel : ℕ} {p : List Byte} (h : Built N c blk s) (hi : (N i).type ≠ 0)
    (hnorm : (N i).Normal) (hblk : blk i = blocksOf (c i).length) (hfuel : p.length ≤ fuel) :
    wp (iappendFrom fuel (N i) (c i).length p) (fun _ => NoRoom s (c i).length p.length)
      (fun r s' => r.2 = (c i).length + p.length ∧ Appended N c blk i p s r.1 s') s := by
  induction fuel generalizing N c blk s p with
  | zero =>
    obtain rfl := List.length_eq_zero_iff.1 (Nat.le_zero.1 hfuel)
    exact ⟨rfl, h.appended_nil hnorm hblk⟩
  | succ fuel ih =>
    rw [iappendFrom, wp_ite]
    by_cases hp : p = []
    · subst hp
      rw [if_pos rfl]
      exact ⟨rfl, h.appended_nil hnorm hblk⟩
    have hpos : 0 < p.length := List.length_pos_iff.2 hp
    obtain ⟨hmax, hround, hle, hge, hgrow, hmod, hn0⟩ := round_blocks hpos
    set n1 := min p.length (((c i).length / BSIZE + 1) * BSIZE - (c i).length) with hn1
    rw [if_neg hp, wp_bind, wp_assert]
    by_cases hfbn : (c i).length / BSIZE < MAXFILE
    · have hfull (hb : blk i ≤ (c i).length / BSIZE ∧ FSSIZE < s.freeblock + 2) :
          NoRoom s (c i).length p.length := by
        right
        unfold extra
        omega
      rw [if_pos hfbn, wp_bind]
      refine ((wp_sector h hi hnorm hfbn (hblk ▸ hge)).weaken fun _ => hfull).mono ?_
      rintro ⟨d, x⟩ s₁ hf
      rw [wp_bind, wp_rsect, hf.len]
      by_cases hx : x < FSSIZE
      · -- the bytes go to the block, and the loop goes on
        obtain ⟨hb, hxe⟩ := hf.built hx
        have hcost := hf.cost
        rw [hblk, hmax] at hb hcost
        have htake : (p.take n1).length = n1 := by
          rw [List.length_take]
          omega
        have hdrop : (p.drop n1).length = p.length - n1 := List.length_drop
        have hN : Function.update N i d i = d := Function.update_self ..
        have hB : Function.update blk i ((c i).length / BSIZE + 1) i = (c i).length / BSIZE + 1 :=
          Function.update_self ..
        have ht : (Function.update N i d i).type ≠ 0 := by
          rw [hN, hf.head.type]
          exact hi
        have hx0 := (hb.slots i ht _ hfbn).2 (by rw [hB]; exact Nat.lt_succ_self _)
        have hin := (hb.inside ht hfbn.le hx0).1
        rw [hN, ← hxe] at hin
        have hw := hb.write (q := p.take n1) ht (by rw [htake]; unfold BSIZE at *; omega)
          (by rw [hB]; omega) (x := x) (by rw [hN]; exact hxe) rfl
        rw [if_pos hx, wp_bind]
        refine (wp_wsect hf.len hx).2 ?_
        rw [hmod, ← hn1]
        have hrec := ih (p := p.drop n1) hw ht (by rw [hN]; exact hf.head.normal) (by
          rw [hB, Function.update_self, List.length_append, htake, hround]) (by omega)
        rw [hN, Function.update_self, List.length_append, htake, hdrop] at hrec
        have hsum : extra (c i).length p.length =
            2 * ((c i).length / BSIZE + 1 - blocksOf (c i).length) +
              extra ((c i).length + n1) (p.length - n1) := by
          have hlen : (c i).length + n1 + (p.length - n1) = (c i).length + p.length := by omega
          unfold extra
          rw [hlen, hround]
          omega
        refine (hrec.weaken fun _ hno => ?_).mono fun r s' ⟨hr, ha⟩ => ⟨by omega, ?_⟩
        · rcases hno with hno | hno
          · exact Or.inl (by omega)
          · right
            change FSSIZE < s₁.freeblock + _ at hno
            omega
        · rw [← List.take_append_drop n1 p]
          refine ha.after hf.head (hf.low.setSect hin _) ?_
          rw [List.take_append_drop, htake, hdrop]
          change s₁.freeblock + _ ≤ _
          omega
      · rw [if_neg hx]
        exact hfull (hf.full (not_lt.1 hx))
    · rw [if_neg hfbn]
      left
      have h1 := Nat.div_mul_le_self (c i).length BSIZE
      have h2 := Nat.mul_le_mul_right BSIZE (not_lt.1 hfbn)
      omega

end

/-! ### Writing inodes -/

/-- The image with inode `j` overwritten. -/
def State.setInode (s : State) (j : ℕ) (d : Din) : State :=
  s.setSect (IBLOCK j) (d.store (s.sect (IBLOCK j)) (j % IPB * 64))

section

variable {N : ℕ → Din} {c : ℕ → List Byte} {s s' : State} {E : Exit → Prop} {i j : ℕ} {d : Din}

theorem IBLOCK_lt_FSSIZE (hj : j < NINODES) : IBLOCK j < FSSIZE :=
  (IBLOCK_lt hj).trans (by decide)

theorem wp_winode (hlen : s.len = FSSIZE) (hj : j < NINODES) {Q : Unit → State → Prop} :
    wp (winode j d) E Q s ↔ Q () (s.setInode j d) := by
  have hlt := IBLOCK_lt_FSSIZE hj
  rw [winode, wp_bind, wp_rsect, if_pos (hlen ▸ hlt), wp_wsect hlen hlt]
  rfl

theorem wp_rinode (hlen : s.len = FSSIZE) (hj : j < NINODES) {Q : Din → State → Prop} :
    wp (rinode j) E Q s ↔ Q (s.inode j) s := by
  rw [rinode, wp_bind, wp_rsect, if_pos (hlen ▸ IBLOCK_lt_FSSIZE hj)]
  rfl

/-- An inode is read as it was written, and the others as before. -/
theorem State.inode_setInode (hd : d.Normal) :
    (s.setInode i d).inode j = if j = i then d else s.inode j := by
  unfold State.inode State.setInode
  by_cases hji : j = i
  · rw [if_pos hji, hji, State.setSect_self, Din.load_store hd]
  rw [if_neg hji]
  by_cases hblk : IBLOCK j = IBLOCK i
  · rw [hblk, State.setSect_self]
    refine Din.load_congr fun x h1 h2 => Din.store_of_not_mem ?_
    rw [IBLOCK, IBLOCK, IPB_eq] at hblk
    rw [IPB_eq] at h1 h2 ⊢
    omega
  · rw [State.setSect_of_ne hblk]

theorem State.sect_setInode (hi : i < NINODES) {b : ℕ} (hb : nmeta ≤ b ∨ b < inodestart) :
    (s.setInode i d).sect b = s.sect b := by
  have h1 := IBLOCK_lt hi
  have h2 : inodestart ≤ IBLOCK i := Nat.le_add_left _ _
  exact State.setSect_of_ne (by omega) _

theorem OnDisk.low {x : Option ℕ} (h : OnDisk x N s) (hl : SameLow s s') : OnDisk x N s' := by
  intro j hj hx
  rw [State.inode, hl.sect _ (IBLOCK_lt hj)]
  exact h j hj hx

theorem OnDisk.setInode {x : Option ℕ} (h : OnDisk x N s) (hd : d.Normal)
    (hx : ∀ j, x = some j → j = i) : OnDisk none (Function.update N i d) (s.setInode i d) := by
  intro j hj _
  rw [State.inode_setInode hd, Function.update_apply]
  split_ifs with hji
  · rfl
  · exact h j hj fun he => hji (hx j he)

/-! ### Between the calls -/

/-- The image between two calls: the inodes below `freeinode` are in use, with the contents `c`. -/
structure Ready (N : ℕ → Din) (c : ℕ → List Byte) (s : State) : Prop where
  built : Built N c (fun j => blocksOf (c j).length) s
  disk : OnDisk none N s
  size : ∀ j, (N j).type ≠ 0 → (N j).size.toNat = (c j).length
  nlink : ∀ j, (N j).type ≠ 0 → (N j).nlink = 1
  normal : ∀ j, (N j).Normal
  used : ∀ j, (N j).type ≠ 0 ↔ 0 < j ∧ j < s.freeinode
  empty : ∀ j, (N j).type = 0 → c j = []
  super : s.sect 1 = putWords 0 superblock fun _ => 0
  head : s.sect 2 = fun _ => 0

theorem Built.length_le {blk : ℕ → ℕ} (h : Built N c blk s) (hi : (N i).type ≠ 0) :
    (c i).length ≤ MAXFILE * BSIZE :=
  (h.fits i).trans (Nat.mul_le_mul_right _ (h.blocks i hi))

theorem toNat_size {n : ℕ} (hn : n ≤ MAXFILE * BSIZE) : (BitVec.ofNat 32 n).toNat = n := by
  have : MAXFILE * BSIZE = 274432 := rfl
  rw [BitVec.toNat_ofNat]
  omega

/-- `iappend`. -/
theorem wp_iappend (h : Ready N c s) (hi : (N i).type ≠ 0) (p : List Byte) :
    wp (iappend i p) (fun _ => NoRoom s (c i).length p.length) (fun _ s' => ∃ N',
      Ready N' (Function.update c i (c i ++ p)) s' ∧ (∀ j, (N' j).type = (N j).type) ∧
      s'.freeinode = s.freeinode ∧ s'.freeblock ≤ s.freeblock + extra (c i).length p.length) s := by
  have hlen := h.built.len
  have hiN := h.built.inodes i hi
  rw [iappend, wp_bind, wp_rinode hlen hiN, h.disk i hiN nofun, h.size i hi, wp_bind]
  refine (wp_iappendFrom h.built hi (h.normal i) rfl le_rfl).mono ?_
  rintro ⟨d, off⟩ s' ⟨hoff, hb, hhead, hlow, hcost⟩
  dsimp only at hoff hb hhead
  rw [wp_winode hb.len hiN]
  set d' : Din := { d with size := BitVec.ofNat 32 off } with hd'
  have hlong : ((c i) ++ p).length = off := by rw [List.length_append, hoff]
  have hblk :
      Function.update (fun j => blocksOf (c j).length) i (blocksOf ((c i).length + p.length)) =
        fun j => blocksOf (Function.update c i (c i ++ p) j).length := by
    funext j
    rw [Function.update_apply, Function.update_apply]
    split_ifs
    · rw [List.length_append]
    · rfl
  have hself (j : ℕ) (hji : j ≠ i) : Function.update N i d' j = N j := Function.update_of_ne hji ..
  have hat : Function.update N i d' i = d' := Function.update_self ..
  have htype (j : ℕ) : (Function.update N i d' j).type = (N j).type := by
    by_cases hji : j = i
    · rw [hji, hat]
      exact hhead.type
    · rw [hself j hji]
  rw [hblk] at hb
  have hoffle : off ≤ MAXFILE * BSIZE := by
    have := hb.length_le (i := i) (by rw [Function.update_self, hhead.type]; exact hi)
    rwa [Function.update_self, hlong] at this
  refine ⟨Function.update N i d', ⟨?_, ?_, ?_, ?_, ?_, ?_, ?_, ?_, ?_⟩, htype,
    hlow.freeinode, hcost⟩
  · refine hb.congr rfl rfl (fun b hb => State.sect_setInode hiN (.inl hb)) fun j => ?_
    rw [Function.update_apply, Function.update_apply]
    split_ifs <;> exact ⟨rfl, rfl⟩
  · exact (h.disk.low hlow).setInode hhead.normal nofun
  · intro j hj
    by_cases hji : j = i
    · rw [hji, hat, Function.update_self, hlong]
      exact toNat_size hoffle
    · rw [hself j hji, Function.update_of_ne hji]
      exact h.size j (htype j ▸ hj)
  · intro j hj
    by_cases hji : j = i
    · rw [hji, hat]
      exact hhead.nlink.trans (h.nlink i hi)
    · rw [hself j hji]
      exact h.nlink j (htype j ▸ hj)
  · intro j
    by_cases hji : j = i
    · rw [hji, hat]
      exact hhead.normal
    · rw [hself j hji]
      exact h.normal j
  · intro j
    rw [htype j, h.used j]
    change _ ↔ 0 < j ∧ j < s'.freeinode
    rw [hlow.freeinode]
  · intro j hj
    rw [htype j] at hj
    have hji : j ≠ i := fun he => hi (he ▸ hj)
    rw [Function.update_of_ne hji]
    exact h.empty j hj
  · rw [State.sect_setInode hiN (.inr (by decide)), hlow.sect _ (by decide)]
    exact h.super
  · rw [State.sect_setInode hiN (.inr (by decide)), hlow.sect _ (by decide)]
    exact h.head

/-- An inode without blocks comes into use. -/
theorem Built.create {blk : ℕ → ℕ} (h : Built N c blk s) (hi : i < NINODES) (ht : (N i).type = 0)
    (hd : d.addrs = fun _ => 0) (hblk : blk i = 0) (hlen : s'.len = s.len)
    (hfree : s'.freeblock = s.freeblock) (hsect : ∀ b, nmeta ≤ b → s'.sect b = s.sect b) :
    Built (Function.update N i d) c blk s' := by
  have hc : (c i).length = 0 := by
    have := h.fits i
    rw [hblk] at this
    omega
  have hother (j : ℕ) (hj : (Function.update N i d j).type ≠ 0) (hji : j ≠ i) :
      (N j).type ≠ 0 := by
    rwa [Function.update_of_ne hji] at hj
  have hzero (n : ℕ) : slotEntry s.fs d.dinode n = 0 := by
    unfold slotEntry Din.dinode
    rw [hd]
    simp
  have hb : Built (Function.update N i d) c blk s := by
    refine ⟨h.len, h.low, h.room, ?_, ?_, h.fits, ?_, h.zero, ?_, ?_⟩
    · refine h.marks.congr (fun y _ => ?_) fun _ _ => rfl
      by_cases hy : y.1 = i
      · refine (if_pos (.inr ?_)).trans (if_pos (.inl ?_)).symm
        · dsimp only
          rw [hy, Function.update_self]
          exact hzero _
        · dsimp only
          rw [hy]
          exact ht
      · refine slotPtr_congr ?_ ?_ <;> rw [Function.update_of_ne hy]
    · intro j hj n hn
      by_cases hji : j = i
      · rw [hji, Function.update_self, hzero, hblk]
        simp
      · rw [Function.update_of_ne hji]
        exact h.slots j (hother j hj hji) n hn
    · intro j hj k hk
      by_cases hji : j = i
      · rw [hji] at hk
        omega
      · rw [Function.update_of_ne hji]
        exact h.bytes j (hother j hj hji) k hk
    · intro j hj
      by_cases hji : j = i
      · rwa [hji]
      · exact h.inodes j (hother j hj hji)
    · intro j hj
      by_cases hji : j = i
      · rw [hji, hblk]
        exact Nat.zero_le _
      · exact h.blocks j (hother j hj hji)
  exact hb.congr hlen hfree hsect fun _ => ⟨rfl, rfl⟩

/-- A new inode, as `ialloc` writes it. -/
def Din.new (type : U16) : Din := ⟨type, 0, 0, 1, 0, fun _ => 0⟩

/-- `ialloc`. -/
theorem wp_ialloc (h : Ready N c s) (hpos : 0 < s.freeinode) (hfree : s.freeinode < NINODES)
    {ty : U16} (hty : ty ≠ 0) :
    wp (ialloc ty) E (fun r s' => r = s.freeinode ∧
      Ready (Function.update N r (Din.new ty)) c s' ∧ s'.freeinode = s.freeinode + 1 ∧
      s'.freeblock = s.freeblock) s := by
  have ht : (N s.freeinode).type = 0 := by
    by_contra h0
    have := (h.used s.freeinode).1 h0
    omega
  have hc := h.empty _ ht
  rw [ialloc, wp_bind, wp_get, wp_bind, wp_modify, wp_bind]
  refine (wp_winode ?_ hfree).2 ?_
  · exact h.built.len
  rw [wp_pure]
  have hnorm : (Din.new ty).Normal := fun _ _ => rfl
  have hself (j : ℕ) (hji : j ≠ s.freeinode) :
      Function.update N s.freeinode (Din.new ty) j = N j := Function.update_of_ne hji ..
  have hat : Function.update N s.freeinode (Din.new ty) s.freeinode = Din.new ty :=
    Function.update_self ..
  refine ⟨rfl, ⟨?_, ?_, ?_, ?_, ?_, ?_, ?_, ?_, ?_⟩, rfl, rfl⟩
  · refine h.built.create hfree ht rfl ?_ rfl rfl fun b hb => State.sect_setInode hfree (.inl hb)
    rw [hc]
    rfl
  · have hdisk : OnDisk none N { s with freeinode := s.freeinode + 1 } := h.disk
    exact hdisk.setInode hnorm nofun
  · intro j hj
    by_cases hji : j = s.freeinode
    · rw [hji, hat, hc]
      rfl
    · rw [hself j hji] at hj ⊢
      exact h.size j hj
  · intro j hj
    by_cases hji : j = s.freeinode
    · rw [hji, hat]
      rfl
    · rw [hself j hji] at hj ⊢
      exact h.nlink j hj
  · intro j
    by_cases hji : j = s.freeinode
    · rw [hji, hat]
      exact hnorm
    · rw [hself j hji]
      exact h.normal j
  · intro j
    change _ ↔ 0 < j ∧ j < s.freeinode + 1
    by_cases hji : j = s.freeinode
    · rw [hji, hat]
      exact ⟨fun _ => ⟨hpos, Nat.lt_succ_self _⟩, fun _ => hty⟩
    · rw [hself j hji, h.used j]
      omega
  · intro j hj
    by_cases hji : j = s.freeinode
    · rw [hji]
      exact hc
    · rw [hself j hji] at hj
      exact h.empty j hj
  · exact (State.sect_setInode hfree (.inr (by decide))).trans h.super
  · exact (State.sect_setInode hfree (.inr (by decide))).trans h.head

end

end Xv6.Mkfs
