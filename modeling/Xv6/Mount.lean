import Xv6.BlockOps
import Xv6.MkfsMain

/-!
# The kernel on an image of `mkfs`

`mkfs` and the kernel are two programs for one format.  After `fsinit` the kernel sees the inodes
and blocks that `mkfs` has written; what it finds there is the subject of this file:

* whether the file system is consistent, so that reading never allocates.  The size of the root
  directory is rounded up to the next block even where it is a whole number of blocks, and then its
  last block does not exist;
* that a path finds its file, with the bytes of the file of the host.
-/

namespace Xv6.Mkfs

open Bytes Wp Tally

/-! ### Mounting -/

theorem loadW_putWords_of_lt (ws : List U32) {o a : ℕ} (b : Block) (h : a + 4 ≤ o) :
    loadW 32 (putWords o ws b) a = loadW 32 b a := by
  induction ws generalizing o b with
  | nil => rfl
  | cons w ws ih =>
    rw [putWords, ih _ (by omega)]
    exact loadW_storeW_of_disjoint (.inl h)

/-- A word of the superblock is read as it was written. -/
theorem loadW_putWords {ws : List U32} {j : ℕ} {w : U32} (hj : ws[j]? = some w) (o : ℕ)
    (b : Block) : loadW 32 (putWords o ws b) (o + 4 * j) = w := by
  induction ws generalizing o j b with
  | nil => cases hj
  | cons v ws ih =>
    cases j with
    | zero =>
      obtain rfl : v = w := Option.some.inj hj
      rw [putWords, Nat.mul_zero, Nat.add_zero, loadW_putWords_of_lt _ _ (by omega)]
      exact loadW_storeW (by decide) _ _
    | succ j =>
      rw [putWords, show o + 4 * (j + 1) = o + 4 + 4 * j by omega]
      exact ih hj _ _

/-- The kernel after `fsinit` on the image: the log is empty. -/
structure Mounted (s : State) (fs : Fs) : Prop where
  sb : fs.sb = sb
  buf : ∀ b, b ≠ 2 → fs.log.buf b = s.sect b
  log : fs.log.log = ⟨2, nlog, 0, false, []⟩

/-- An entry of the inode table that is not in use. -/
def noInode : Inode := ⟨0, 0, 0, false, false, 0, 0, 0, 0, 0, fun _ => 0⟩

section

variable {files : List HostFile} {N : ℕ → Din} {c : ℕ → List Byte} {s : State} {fs : Fs}

theorem Mounted.withInode (h : Mounted s fs) (ip : ℕ) (i : Inode) : Mounted s (fs.withInode ip i) :=
  ⟨h.sb, h.buf, h.log⟩

/-- `fsinit` on an image. -/
theorem Image.mount (h : Image files N c s) :
    ∃ fs, fsinit s.sect = .ok fs ∧ Mounted s fs ∧ fs.itable = fun _ => noInode := by
  have hword (j : ℕ) (w : U32) (hj : superblock[j]? = some w) :
      loadW 32 (s.sect 1) (4 * j) = w := by
    rw [h.super, ← Nat.zero_add (4 * j)]
    exact loadW_putWords hj 0 _
  have hmagic : loadW 32 (s.sect 1) 0 = FSMAGIC := hword 0 _ rfl
  have hnlog : loadW 32 (s.sect 1) 16 = BitVec.ofNat 32 nlog := hword 4 _ rfl
  have hstart : loadW 32 (s.sect 1) 20 = (2 : U32) := hword 5 _ rfl
  have hsb : readsb (s.sect 1) = sb := by
    unfold readsb
    rw [hword 1 _ rfl, hword 3 _ rfl, hword 6 _ rfl, hword 7 _ rfl]
    rfl
  have hhead : getHeader (s.sect 2) = [] := by
    rw [h.head, getHeader, headerN, show (fun _ => (0 : Byte)) = fun _ => 0#8 from rfl, loadW_zero]
    rfl
  have hread : readHead (boot 2 nlog s.sect) = boot 2 nlog s.sect := by
    change { boot 2 nlog s.sect with
      log := { (boot 2 nlog s.sect).log with lh := getHeader (s.sect 2) } } = _
    rw [hhead]
    rfl
  rw [fsinit, if_neg (not_not.2 hmagic), hnlog, hstart, hsb]
  refine ⟨_, rfl, ⟨rfl, fun b hb => ?_, ?_⟩, rfl⟩
  · change (recoverFromLog (boot 2 nlog s.sect)).buf b = _
    rw [recoverFromLog, hread]
    exact Function.update_of_ne hb ..
  · change (recoverFromLog (boot 2 nlog s.sect)).log = _
    rw [recoverFromLog, hread]
    rfl

/-! ### What the kernel sees -/

attribute [local irreducible] slotsOf

theorem Image.lt_ninodes (h : Image files N c s) {j : ℕ} (hj : (N j).type ≠ 0) : j < NINODES :=
  h.built.inodes j hj

/-- The inodes. -/
theorem Image.dinode_eq (h : Image files N c s) (hm : Mounted s fs) {j : ℕ} (hj : j < NINODES) :
    fs.dinode j = (N j).dinode := by
  have hblk : inodeBlockOf fs.sb j = IBLOCK j := by
    rw [hm.sb]
    exact Nat.add_comm _ _
  have hne : IBLOCK j ≠ 2 := Nat.ne_of_gt (lt_of_lt_of_le (by decide) (Nat.le_add_left _ _))
  rw [← h.disk j hj nofun, Fs.dinode, hblk, hm.buf _ hne]
  rfl

/-- Where their blocks are. -/
theorem Image.slotEntry_eq (h : Image files N c s) (hm : Mounted s fs) {j : ℕ} (hj : (N j).type ≠ 0)
    (n : ℕ) : slotEntry fs (N j).dinode n = slotEntry s.fs (N j).dinode n := by
  refine slotEntry_congr (fun h0 => hm.buf _ ?_) n
  have := h.built.inside hj le_rfl (by rw [slotEntry_indirect]; exact h0)
  rw [slotEntry_indirect] at this
  exact Nat.ne_of_gt (lt_of_lt_of_le (by decide) this.1)

/-- The bitmap. -/
theorem Image.bit_eq (h : Image files N c s) (hm : Mounted s fs) {b : ℕ} (hb : b < BPB) :
    fs.bit b = decide (b < s.freeblock) := by
  have hblk : bitBlock fs.sb b = bmapstart := by
    rw [hm.sb, bitBlock, Nat.div_eq_of_lt hb]
    rfl
  rw [Xv6.bit_eq, hblk, hm.buf _ (by decide), h.bits, Nat.mod_eq_of_lt hb,
    getLsbD_bitmap _ _ (Nat.mod_lt _ (by decide)), Nat.div_add_mod' b 8]

theorem Image.slotPtr_eq (h : Image files N c s) (hm : Mounted s fs) {y : ℕ × ℕ}
    (hy : y ∈ slotsOf sb) : slotPtr fs fs.dinode y = slotPtr s.fs (fun i => (N i).dinode) y := by
  have hd := h.dinode_eq hm (mem_slots.1 hy).1
  by_cases ht : (N y.1).type = 0
  · rw [slotPtr, slotPtr, hd]
    exact (if_pos (.inl ht)).trans (if_pos (.inl ht)).symm
  · exact slotPtr_congr (by rw [hd]) (by rw [hd]; exact h.slotEntry_eq hm ht y.2)

theorem Image.marks (h : Image files N c s) (hm : Mounted s fs) :
    Marks (slotsOf fs.sb) (slotPtr fs fs.dinode) fs.bit (InData fs.sb) := by
  rw [hm.sb]
  refine h.built.marks.congr (fun y hy => h.slotPtr_eq hm hy) fun b hb => ?_
  have hlt : b < BPB := (inData_iff.1 hb).2.trans (by decide)
  exact h.bit_eq hm hlt

/-- A block of an inode exists if and only if `mkfs` has written to it. -/
theorem Image.slot_iff (h : Image files N c s) (hm : Mounted s fs) {j n : ℕ} (hj : (N j).type ≠ 0)
    (hn : n < MAXFILE) :
    slotPtr fs fs.dinode (j, n) ≠ none ↔ n < blocksOf (c j).length := by
  have hmem : (j, n) ∈ slotsOf sb := mem_slots.2 ⟨h.lt_ninodes hj, hn.le⟩
  rw [h.slotPtr_eq hm hmem, ← h.built.slots j hj n hn, slotPtr]
  constructor
  · intro hne h0
    exact hne (if_pos (.inr h0))
  · intro hne he
    exact Option.some_ne_none _ ((if_neg (not_or.2 ⟨hj, hne⟩)).symm.trans he)

theorem Mounted.layout (hm : Mounted s fs) : DiskLayout fs := by
  refine ⟨fun b hb => ?_, ?_, ?_⟩
  · have hlt : b < 2 + nlog := by
      rw [Fs.inLog, hm.log] at hb
      exact hb.2
    rw [hm.sb]
    exact hlt
  · rw [hm.sb]
    decide
  · rw [hm.sb]
    decide

/-- An inode, as `ilock` reads it. -/
theorem Image.loaded (h : Image files N c s) (hm : Mounted s fs) {ip j : ℕ} (hj : j < NINODES)
    (hinum : (fs.itable ip).inum.toNat = j) (hv : (fs.itable ip).valid = false) :
    (fs.loaded ip).dinode = (N j).dinode ∧ (fs.loaded ip).nlink = (N j).nlink ∧
      (fs.loaded ip).dev = (fs.itable ip).dev := by
  have hj' : j < fs.sb.ninodes.toNat := by
    rw [hm.sb, sb_ninodes]
    exact hj
  have hblk : (iblock fs.sb (fs.itable ip).inum).1.toNat = IBLOCK j := by
    have := toNat_iblock hm.layout hj'
    rw [← hinum, BitVec.ofNat_toNat, BitVec.setWidth_eq, hinum, hm.sb] at this
    rw [hm.sb, this]
    exact Nat.add_comm _ _
  have hne : IBLOCK j ≠ 2 := Nat.ne_of_gt (lt_of_lt_of_le (by decide) (Nat.le_add_left _ _))
  refine ⟨(loaded_dinode hm.layout hinum hj' hv).trans (h.dinode_eq hm hj), ?_, ?_⟩
  · rw [← h.disk j hj nofun, State.inode, ← hm.buf _ hne, ← hblk, ← hinum]
    unfold Fs.loaded
    simp only [hv, Bool.false_eq_true, if_false]
    rfl
  · unfold Fs.loaded
    simp only [hv, Bool.false_eq_true, if_false]

/-! ### Reading -/

section

variable {ip j : ℕ}

theorem Image.length_le_size (h : Image files N c s) (ht : (N j).type ≠ 0) :
    (c j).length ≤ (N j).size.toNat := by
  by_cases hj : j = 1
  · have hB : BSIZE = 1024 := rfl
    rw [hj, h.size_root, hB]
    omega
  · exact (h.size_file j hj ht).ge

/-- The blocks of the contents have addresses. -/
theorem Image.blockAt_ne (h : Image files N c s) (hm : Mounted s fs) (ht : (N j).type ≠ 0)
    {i : Inode} (hi : i.dinode = (N j).dinode) {bn : ℕ} (hbn : bn * BSIZE < (c j).length) :
    bn < MAXFILE ∧ fs.blockAt i bn ≠ 0 := by
  obtain ⟨hmax, hne⟩ := h.built.byte_slot ht hbn
  rw [Nat.mul_div_cancel _ (by decide : 0 < BSIZE)] at hmax hne
  refine ⟨hmax, ?_⟩
  rw [← slotEntry_eq_blockAt i hmax, hi, h.slotEntry_eq hm ht]
  exact hne

/-- The contents. -/
theorem Image.byteAt_eq (h : Image files N c s) (hm : Mounted s fs) (ht : (N j).type ≠ 0)
    {i : Inode} (hi : i.dinode = (N j).dinode) {k : ℕ} (hk : k < (c j).length) :
    fs.byteAt i k = (c j).getD k 0 := by
  obtain ⟨hmax, hne⟩ := h.built.byte_slot ht hk
  have hin := h.built.inside ht hmax.le hne
  rw [← h.built.bytes j ht k hk, Fs.byteAt, ← slotEntry_eq_blockAt i hmax, hi, h.slotEntry_eq hm ht,
    LogState.bread, hm.buf _ (Nat.ne_of_gt (lt_of_lt_of_le (by decide) hin.1))]

/-- `readi` of a part of the contents. -/
theorem Image.readi_contents {E : Stop → Prop} (h : Image files N c s) (hm : Mounted s fs)
    (ht : (N j).type ≠ 0) (hi : (fs.itable ip).dinode = (N j).dinode) {off n : U32}
    (hwrap : off.toNat + n.toNat < 2 ^ 32)
    (hin : min (off.toNat + n.toNat) (N j).size.toNat ≤ (c j).length) :
    wp (readi ip off n) E (fun bs fs' => fs' = fs ∧
      bs = ((c j).drop off.toNat).take n.toNat) fs := by
  have hle := h.length_le_size ht
  have hsize : (fs.itable ip).size = (N j).size := congrArg Dinode.size hi
  have hadd : (off + n).toNat = off.toNat + n.toNat := by
    rw [BitVec.toNat_add, Nat.mod_eq_of_lt hwrap]
  unfold readi
  rw [wp_bind, wp_getInode, hsize]
  by_cases hlt : (N j).size < off
  · rw [if_pos (.inl hlt), wp_pure]
    refine ⟨rfl, ?_⟩
    have hlen : (c j).length ≤ off.toNat := hle.trans (BitVec.lt_def.1 hlt).le
    rw [List.drop_eq_nil_of_le hlen, List.take_nil]
  have hnot : ¬ ((N j).size < off ∨ off + n < off) := by
    rw [not_or]
    refine ⟨hlt, fun hw => ?_⟩
    rw [BitVec.lt_def, hadd] at hw
    omega
  rw [if_neg hnot]
  rw [BitVec.lt_def] at hlt
  -- `m` bytes are read
  have hn : (if (N j).size < off + n then (N j).size - off else n).toNat =
      min n.toNat ((N j).size.toNat - off.toNat) := by
    have := (N j).size.isLt
    split_ifs with hc
    · rw [BitVec.lt_def, hadd] at hc
      rw [BitVec.toNat_sub]
      omega
    · rw [BitVec.lt_def, hadd] at hc
      omega
  set m := if (N j).size < off + n then (N j).size - off else n
  refine (readiFrom_mapped rfl (fun bn => h.blockAt_ne hm ht hi) le_rfl (by omega)).mono ?_
  rintro bs fs' ⟨rfl, rfl⟩
  refine ⟨rfl, List.ext_getElem ?_ fun k hk _ => ?_⟩
  · simp only [List.length_map, List.length_range, List.length_take, List.length_drop]
    omega
  · simp only [List.length_map, List.length_range] at hk
    rw [List.getElem_map, List.getElem_range, h.byteAt_eq hm ht hi (by omega), List.getElem_take,
      List.getElem_drop, List.getD_eq_getElem]

/-- The table entry of an inode of the image, after `iget` and `ilock`. -/
structure Locked (d : Din) (dev inum : U32) (i : Inode) : Prop where
  dinode : i.dinode = d.dinode
  nlink : i.nlink = d.nlink
  dev : i.dev = dev
  inum : i.inum = inum
  ref : i.ref = 1
  locked : i.locked = true
  valid : i.valid = true

variable (ip) in
/-- `iget` of an inode that is not in the table; `ip` is the first free entry. -/
theorem iget_new {E : Stop → Prop} {dev inum : U32} (hip : ip < NINODE)
    (hfree : (fs.itable ip).ref = 0) (hused : ∀ kp < ip, (fs.itable kp).ref ≠ 0)
    (hnew : ∀ kp, 0 < (fs.itable kp).ref → (fs.itable kp).inum ≠ inum) :
    wp (iget dev inum) E (fun r fs' => r = ip ∧ fs' = fs.withInode ip
      { fs.itable ip with dev := dev, inum := inum, ref := 1, valid := false }) fs := by
  have hknown : ((List.range NINODE).find? fun i => decide (0 < (fs.itable i).ref ∧
      (fs.itable i).dev = dev ∧ (fs.itable i).inum = inum)) = none := by
    refine List.find?_eq_none.2 fun kp _ => ?_
    rw [decide_eq_true_eq]
    exact fun hk => hnew kp hk.1 hk.2.2
  have hfirst : ((List.range NINODE).find? fun i => decide ((fs.itable i).ref = 0)) = some ip := by
    refine List.find?_range_eq_some.2 ⟨decide_eq_true hfree, List.mem_range.2 hip, fun kp hk => ?_⟩
    simpa using hused kp hk
  unfold iget
  rw [wp_bind, wp_get]
  dsimp only
  rw [hknown]
  dsimp only
  rw [hfirst]
  exact ⟨rfl, rfl⟩

/-- `ilock` of an entry that `iget` has just filled. -/
theorem Image.ilock_new {E : Stop → Prop} (h : Image files N c s) (hm : Mounted s fs)
    (ht : (N j).type ≠ 0) (hinum : (fs.itable ip).inum.toNat = j) (href : (fs.itable ip).ref = 1)
    (hlock : (fs.itable ip).locked = false) (hv : (fs.itable ip).valid = false) :
    wp (ilock ip) E (fun _ fs' => ∃ i, fs' = fs.withInode ip i ∧
      Locked (N j) (fs.itable ip).dev (fs.itable ip).inum i) fs := by
  obtain ⟨hd, hn, hdev⟩ := h.loaded hm (h.lt_ninodes ht) hinum hv
  have htype : (fs.loaded ip).type = (N j).type := congrArg Dinode.type hd
  rw [wp_ilock, if_neg (by omega), if_neg (by simp [hlock]), if_neg fun h0 =>
    ht (htype.symm.trans h0.2)]
  exact ⟨_, rfl, hd, hn, hdev, loaded_inum fs ip, (loaded_ref fs ip).trans href, rfl,
    loaded_valid fs ip⟩

/-- The first inode that is looked at after `fsinit`. -/
theorem Image.open_first {α : Type} {E : Stop → Prop} {Q : α → Fs → Prop} {m : ℕ → F α}
    (h : Image files N c s) (hm : Mounted s fs) (htab : fs.itable = fun _ => noInode) {inum : U32}
    (ht : (N inum.toNat).type ≠ 0)
    (hnext : ∀ i, Locked (N inum.toNat) ROOTDEV inum i → wp (m 0) E Q (fs.withInode 0 i)) :
    wp (do let ip ← iget ROOTDEV inum; ilock ip; m ip) E Q fs := by
  have h0 (ip : ℕ) : fs.itable ip = noInode := by rw [htab]
  rw [wp_bind]
  refine (iget_new 0 (by decide) (by rw [h0]; rfl) (fun _ hk => absurd hk (Nat.not_lt_zero _))
    fun kp hk => ?_).mono ?_
  · rw [h0] at hk
    exact absurd hk (lt_irrefl _)
  rintro ip fs₁ ⟨hip, rfl⟩
  subst hip
  rw [wp_bind]
  refine (h.ilock_new (hm.withInode _ _) ht ?_ ?_ ?_ ?_).mono ?_
  · rw [withInode_self]
  · rw [withInode_self]
  · rw [withInode_self, h0]
    rfl
  · rw [withInode_self]
  rintro - fs₂ ⟨i, rfl, hi⟩
  rw [withInode_self] at hi
  rw [withInode_withInode]
  exact hnext i hi

end

end

/-! ### Consistency -/

/-- The file system is consistent: every block of every inode exists and lies in the data area, no
block is referred to twice, the bitmap marks the blocks before the data and the blocks that are
referred to, and `readi` leaves the blocks of the disk alone. -/
structure Consistent (fs : Fs) : Prop where
  mapped : ∀ inum < fs.sb.ninodes.toNat, (fs.dinode inum).type ≠ 0 → ∀ bn,
    bn * BSIZE < (fs.dinode inum).size.toNat → ∃ b, slotPtr fs fs.dinode (inum, bn) = some b ∧
      InData fs.sb b
  unique : ∀ x ∈ slotsOf fs.sb, ∀ y ∈ slotsOf fs.sb, ∀ b, slotPtr fs fs.dinode x = some b →
    slotPtr fs fs.dinode y = some b → x = y
  marks : ∀ b < BPB, fs.bit b = true ↔
    b < dataStart fs.sb ∨ ∃ x ∈ slotsOf fs.sb, slotPtr fs fs.dinode x = some b
  reads : ∀ inum : U32, inum.toNat < fs.sb.ninodes.toNat → (fs.dinode inum.toNat).type ≠ 0 →
    ∀ off n : U32, wp (do let ip ← iget ROOTDEV inum; ilock ip; readi ip off n) (fun _ => False)
      (fun _ fs' => fs'.log = fs.log) fs

theorem length_entries (m : ℕ) (fs : List HostFile) : (entries m fs).length = 16 * fs.length := by
  induction fs generalizing m with
  | nil => rfl
  | cons f fs ih =>
    rw [entries, List.length_append, length_direntBytes, ih, List.length_cons]
    omega

theorem length_rootBytes (files : List HostFile) :
    (rootBytes files).length = 16 * (files.length + 2) := by
  rw [rootBytes, List.length_append, List.length_append, length_direntBytes, length_direntBytes,
    length_entries]
  omega

section

variable {files : List HostFile} {N : ℕ → Din} {c : ℕ → List Byte} {s : State} {fs : Fs}

/-- The blocks below the size of an inode exist, but for the last one of a root directory that fills
its blocks. -/
theorem Image.mapped_iff (h : Image files N c s) {j : ℕ} (hj : (N j).type ≠ 0) :
    (∀ bn, bn * BSIZE < (N j).size.toNat → bn < blocksOf (c j).length) ↔
      (j = 1 → (files.length + 2) % 64 ≠ 0) := by
  have hB : BSIZE = 1024 := rfl
  by_cases h1 : j = 1
  · have hlen : (c j).length = 16 * (files.length + 2) := by
      rw [h1, h.root, length_rootBytes]
    have hsize : (N j).size.toNat = (16 * (files.length + 2) / 1024 + 1) * 1024 := by
      rw [h1, h.size_root, ← h1, hlen]
      rfl
    rw [hlen, hsize, hB]
    unfold blocksOf
    rw [hB]
    constructor
    · intro hall _
      have := hall (16 * (files.length + 2) / 1024) (by omega)
      omega
    · intro hmod bn hbn
      have := hmod h1
      omega
  · refine ⟨fun _ he => absurd he h1, fun _ bn hbn => ?_⟩
    rw [h.size_file j h1 hj, hB] at hbn
    unfold blocksOf
    rw [hB]
    omega

/-- `readi` of an inode whose blocks exist changes nothing. -/
theorem readi_same {E : Stop → Prop} {ip : ℕ} (hmap : ∀ bn, bn * BSIZE < (fs.itable ip).size.toNat →
    bn < MAXFILE ∧ fs.blockAt (fs.itable ip) bn ≠ 0) (off n : U32) :
    wp (readi ip off n) E (fun _ fs' => fs' = fs) fs := by
  unfold readi
  rw [wp_bind, wp_getInode]
  by_cases hc : (fs.itable ip).size < off ∨ off + n < off
  · rw [if_pos hc]
    exact rfl
  · rw [if_neg hc]
    exact (readiFrom_mapped rfl hmap le_rfl (readi_range hc)).mono fun _ _ h' => h'.1

/-- Reading an inode whose blocks exist. -/
theorem Image.reads (h : Image files N c s) (hm : Mounted s fs)
    (htab : fs.itable = fun _ => noInode) {inum : U32} (ht : (N inum.toNat).type ≠ 0)
    (hall : ∀ bn, bn * BSIZE < (N inum.toNat).size.toNat → bn < blocksOf (c inum.toNat).length)
    (off n : U32) :
    wp (do let ip ← iget ROOTDEV inum; ilock ip; readi ip off n) (fun _ => False)
      (fun _ fs' => fs'.log = fs.log) fs := by
  refine h.open_first hm htab ht fun i hi => ?_
  refine (readi_same (fun bn hbn => ?_) off n).mono fun _ fs₃ h₃ => by rw [h₃]; rfl
  rw [withInode_self] at hbn ⊢
  have hsize : i.size = (N inum.toNat).size := congrArg Dinode.size hi.dinode
  have hlt := hall bn (hsize ▸ hbn)
  have hmax := hlt.trans_le (h.built.blocks _ ht)
  refine ⟨hmax, ?_⟩
  rw [← slotEntry_eq_blockAt i hmax, hi.dinode, h.slotEntry_eq (hm.withInode _ _) ht]
  exact (h.built.slots _ ht bn hmax).2 hlt

/-- The image is consistent unless the root directory fills its blocks. -/
theorem Image.consistent_iff (h : Image files N c s) (hm : Mounted s fs)
    (htab : fs.itable = fun _ => noInode) (hn : files.length ≤ NINODES - 2) :
    Consistent fs ↔ (files.length + 2) % 64 ≠ 0 := by
  have hnin : fs.sb.ninodes.toNat = NINODES := by rw [hm.sb, sb_ninodes]
  have hB : BSIZE = 1024 := rfl
  have hN : NINODES = 200 := rfl
  have hmarks := h.marks hm
  constructor
  · intro hc
    have h1 : (N 1).type ≠ 0 := by
      rw [h.type_root]
      decide
    refine (h.mapped_iff h1).1 (fun bn hbn => ?_) rfl
    have hmax : bn < MAXFILE := by
      have : MAXFILE = 268 := rfl
      rw [h.size_root, h.root, length_rootBytes, hB] at hbn
      omega
    have hd := h.dinode_eq hm (h.lt_ninodes h1)
    obtain ⟨b, hb, -⟩ := hc.mapped 1 (by rw [hnin]; decide) (by rw [hd]; exact h1) bn
      (by rw [hd]; exact hbn)
    rw [← h.slot_iff hm h1 hmax, hb]
    exact Option.some_ne_none b
  · intro hmod
    have hall {j : ℕ} (hj : (N j).type ≠ 0) := (h.mapped_iff hj).2 fun _ => hmod
    have htype {j : ℕ} (hj : j < fs.sb.ninodes.toNat) : fs.dinode j = (N j).dinode :=
      h.dinode_eq hm (hnin ▸ hj)
    refine ⟨fun j hj ht bn hbn => ?_, ?_, fun b hb => ?_, fun inum hj ht off n => ?_⟩
    · rw [htype hj] at ht hbn
      have hlt := hall ht bn hbn
      have hmax := hlt.trans_le (h.built.blocks j ht)
      obtain ⟨b, hb⟩ := Option.ne_none_iff_exists'.1 ((h.slot_iff hm ht hmax).2 hlt)
      exact ⟨b, hb, hmarks.inside _ (mem_slotsOf hj hmax.le) b hb⟩
    · intro x hx y hy b hbx hby
      exact hmarks.unique hx hy hbx hby
    · have hdata : dataStart fs.sb = nmeta := by
        rw [hm.sb]
        rfl
      have hlow := h.built.low
      have hroom := h.built.room
      rw [hdata]
      constructor
      · intro hbit
        by_cases hlt : b < nmeta
        · exact .inl hlt
        · have hfree := hbit
          rw [h.bit_eq hm hb, decide_eq_true_eq] at hfree
          refine .inr (hmarks.exists_ptr ?_ hbit)
          rw [hm.sb, inData_iff]
          omega
      · rintro (hlt | ⟨x, hx, hbx⟩)
        · rw [h.bit_eq hm hb, decide_eq_true_eq]
          omega
        · exact hmarks.marked hx hbx
    · rw [htype hj] at ht
      exact h.reads hm htab ht (hall ht) off n

/-- `balloc` outside of a transaction. -/
theorem balloc_panics (hlog : fs.log.log = ⟨2, nlog, 0, false, []⟩) :
    wp Xv6.balloc (fun e => ∃ msg, e = .panic msg) (fun _ _ => False) fs := by
  have hout (b : ℕ) (data : Block) : logWrite fs.log b data = none := by
    rw [logWrite, hlog]
    rfl
  unfold Xv6.balloc fsLogWrite
  rw [wp_bind, wp_get]
  dsimp only
  split
  · exact ⟨_, rfl⟩
  · rw [wp_bind, wp_bread, wp_bind, wp_bind, wp_get, wp_bind, wp_panicIf]
    split_ifs
    · exact ⟨_, rfl⟩
    · rw [hout]
      exact ⟨_, rfl⟩

/-- Reading the block that a root directory lacks. -/
theorem Image.reads_hole (h : Image files N c s) (hm : Mounted s fs)
    (htab : fs.itable = fun _ => noInode) {b : ℕ} (hbn : b < NDIRECT)
    (hhole : blocksOf (c 1).length ≤ b) (hsize : b * BSIZE < (N 1).size.toNat) :
    wp (do let ip ← iget ROOTDEV ROOTINO; ilock ip; readi ip (BitVec.ofNat 32 (b * BSIZE)) 16)
      (fun e => ∃ msg, e = .panic msg) (fun _ _ => False) fs := by
  have h1 : (N 1).type ≠ 0 := by
    rw [h.type_root]
    decide
  have hB : BSIZE = 1024 := rfl
  have hD : NDIRECT = 12 := rfl
  have hoff : (BitVec.ofNat 32 (b * BSIZE)).toNat = b * BSIZE := by
    rw [BitVec.toNat_ofNat]
    omega
  refine h.open_first hm htab h1 fun i (hi : Locked (N 1) ROOTDEV ROOTINO i) => ?_
  have hentry : i.addrs b = 0 := by
    have hlt : b < MAXFILE := hbn.trans (by decide)
    have hno : ¬ slotEntry s.fs (N 1).dinode b ≠ 0 := by
      rw [h.built.slots 1 h1 b hlt]
      omega
    rw [not_not, ← h.slotEntry_eq (hm.withInode 0 i) h1, ← hi.dinode, slotEntry_direct hbn] at hno
    exact (if_pos hbn.le).symm.trans hno
  have hisize : i.size = (N 1).size := congrArg Dinode.size hi.dinode
  unfold readi
  rw [wp_bind, wp_getInode, withInode_self, hisize]
  have hnot : ¬ ((N 1).size < BitVec.ofNat 32 (b * BSIZE) ∨
      BitVec.ofNat 32 (b * BSIZE) + 16 < BitVec.ofNat 32 (b * BSIZE)) := by
    rw [BitVec.lt_def, BitVec.lt_def, BitVec.toNat_add, hoff, show (16 : U32).toNat = 16 from rfl]
    rw [hB] at hsize ⊢
    omega
  rw [if_neg hnot]
  dsimp only
  set m := if (N 1).size < BitVec.ofNat 32 (b * BSIZE) + 16 then
    (N 1).size - BitVec.ofNat 32 (b * BSIZE) else 16 with hm'
  have hpos : 0 < m.toNat := by
    rw [hm']
    split_ifs
    · rw [BitVec.toNat_sub, hoff]
      have := (N 1).size.isLt
      omega
    · decide
  obtain ⟨k, hk⟩ := Nat.exists_eq_add_of_lt hpos
  rw [hk, Nat.zero_add, readiFrom, if_neg (by omega), hoff,
    Nat.mul_div_cancel _ (by decide : 0 < BSIZE), wp_bind]
  unfold bmap
  rw [wp_bind, wp_getInode, withInode_self, wp_ite, if_pos hbn, hentry, wp_ite, if_neg (by simp),
    wp_bind]
  exact (balloc_panics (hm.withInode 0 i).log).mono fun _ _ hf => hf.elim

-- so that nothing runs the program
attribute [local irreducible] mkfs

/-- What `mkfs` leaves when it exits with 0. -/
theorem image_of_ok (hn : files.length ≤ NINODES - 2) (hok : mkfs files start = .ok ((), s)) :
    ∃ N c, Image files N c s :=
  (wp_of_ok hok).1 (wp_mkfs hn)

/-- `mkfs` exits with 0 if there is room. -/
theorem mkfs_ok (hn : files.length ≤ NINODES - 2) (hfit : Fits 32 (nmeta + 2) files) :
    ∃ s N c, mkfs files start = .ok ((), s) ∧ Image files N c s := by
  obtain ⟨_, s, hok, N, c, h⟩ := ((wp_mkfs hn).weaken fun _ hno => hno hfit).exists_ok
  exact ⟨s, N, c, hok, h⟩

/-- The image that `mkfs` leaves is consistent if and only if the entries of the root directory do
not fill its blocks. -/
theorem mkfs_consistent_iff (hn : files.length ≤ NINODES - 2)
    (hok : mkfs files start = .ok ((), s)) :
    ∃ fs, fsinit s.sect = .ok fs ∧ (Consistent fs ↔ (files.length + 2) % 64 ≠ 0) := by
  obtain ⟨N, c, h⟩ := image_of_ok hn hok
  obtain ⟨fs, hfs, hm, htab⟩ := h.mount
  exact ⟨fs, hfs, h.consistent_iff hm htab hn⟩

end

/-- A host file `user/_cat` of three bytes, read in two chunks. -/
def catFile : HostFile := ⟨userDir ++ [95, 99, 97, 116], some [[1, 2], [3]], by decide⟩

theorem fits_catFile : Fits 32 (nmeta + 2) [catFile] :=
  ⟨by decide, rfl, by decide, by decide, by decide, trivial⟩

theorem mkfs_consistent_catFile : ∃ s, mkfs [catFile] start = .ok ((), s) ∧
    ∃ fs, fsinit s.sect = .ok fs ∧ Consistent fs := by
  obtain ⟨s, -, -, hok, -⟩ := mkfs_ok (by decide) fits_catFile
  obtain ⟨fs, hfs, hiff⟩ := mkfs_consistent_iff (by decide) hok
  exact ⟨s, hok, fs, hfs, hiff.2 (by decide)⟩

/-- Empty files take an entry in the root directory each, and no more. -/
theorem fits_empty {fs : List HostFile} (hfs : ∀ f ∈ fs, slash ∉ f.shortname ∧ f.reads = some [])
    {n b : ℕ} (hn : n + 16 * fs.length ≤ MAXFILE * BSIZE)
    (hb : b + extra n (16 * fs.length) ≤ FSSIZE) : Fits n b fs := by
  induction fs generalizing n b with
  | nil => trivial
  | cons f fs ih =>
    obtain ⟨hslash, hreads⟩ := hfs f List.mem_cons_self
    have hbytes : f.bytes.length = 0 := by
      rw [HostFile.bytes, hreads]
      rfl
    have h0 : extra 0 0 = 0 := by decide
    rw [List.length_cons, Nat.mul_succ, Nat.add_comm (16 * _)] at hn hb
    rw [extra_add] at hb
    refine ⟨hslash, by rw [hreads]; rfl, by omega, by omega, ?_, ?_⟩
    · rw [hbytes, h0]
      omega
    · rw [hbytes, h0]
      exact ih (fun g hg => hfs g (List.mem_cons_of_mem f hg)) (by omega) (by omega)

/-- An empty host file `x`. -/
def emptyFile : HostFile := ⟨[120], some [], by decide⟩

/-- With 62 files the root directory has one full block, but the size of two: a block of it does not
exist, and reading it stops the kernel. -/
theorem mkfs_hole_of_62_files : ∃ s fs, mkfs (List.replicate 62 emptyFile) start = .ok ((), s) ∧
    fsinit s.sect = .ok fs ∧ (fs.dinode 1).size.toNat = 2 * BSIZE ∧
    slotPtr fs fs.dinode (1, 1) = none ∧
    ∃ msg, (do let ip ← iget ROOTDEV ROOTINO; ilock ip; readi ip 1024 16 : F (List Byte)) fs =
      .error (.panic msg) := by
  have hfit : Fits 32 (nmeta + 2) (List.replicate 62 emptyFile) := by
    refine fits_empty (fun f hf => ?_) (by decide) (by decide)
    rw [List.eq_of_mem_replicate hf]
    exact ⟨by decide, rfl⟩
  obtain ⟨s, N, c, hok, h⟩ := mkfs_ok (by decide) hfit
  obtain ⟨fs, hfs, hm, htab⟩ := h.mount
  have hlen : (c 1).length = BSIZE := by
    rw [h.root, length_rootBytes, List.length_replicate]
    rfl
  have hblocks : blocksOf (c 1).length = 1 := by
    rw [hlen]
    decide
  have h1 : (N 1).type ≠ 0 := by
    rw [h.type_root]
    decide
  have hsize : (N 1).size.toNat = 2 * BSIZE := by
    rw [h.size_root, hlen]
    rfl
  refine ⟨s, fs, hok, hfs, ?_, ?_, ?_⟩
  · rw [h.dinode_eq hm (by decide)]
    exact hsize
  · have := (h.slot_iff hm h1 (n := 1) (by decide)).not.2 (by rw [hblocks]; decide)
    exact not_not.1 this
  · have hread := h.reads_hole hm htab (b := 1) (by decide) hblocks.le (by rw [hsize]; decide)
    obtain ⟨e, he, msg, rfl⟩ := hread.exists_error
    exact ⟨msg, he⟩

end Xv6.Mkfs
