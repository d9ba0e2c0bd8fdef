import Xv6.BlockRun

/-!
# Files are byte arrays

`Fs.fileOf fs j` is the contents of inode `j` as the blocks of its slots hold them.  While every
block has one owner, `writei` replaces the bytes from its offset on and leaves every other file
alone, and `readi` returns a part of the array.  What can stop `writei` is the log: a transaction
that does not fit into it, and the bitmap: fewer free blocks than the write has to fill.
-/

namespace Xv6

open Bytes Wp Tally

section

variable {D D' : ℕ → Dinode} {x : Option ℕ} {fs fs' : Fs} {ip inum : ℕ}

/-- The contents of inode `j`. -/
def Fs.fileOf (fs : Fs) (j : ℕ) : List Byte :=
  (List.range (fs.dinode j).size.toNat).map (fileByte fs fs.dinode j)

/-- The array `c` with `bs` written to it at `off`. -/
def splice (c : List Byte) (off : ℕ) (bs : List Byte) : List Byte :=
  c.take off ++ bs ++ c.drop (off + bs.length)

theorem fileByte_congr {j : ℕ} (h : D' j = D j) (k : ℕ) :
    fileByte fs D' j k = fileByte fs D j k := by
  unfold fileByte slotData slotPtr
  rw [h]

theorem FsOk.fileOf_eq (h : FsOk D none fs) {j : ℕ} (hj : j < fs.sb.ninodes.toNat) :
    fs.fileOf j = (List.range (D j).size.toNat).map (fileByte fs D j) := by
  have hd := h.disk j hj nofun
  rw [Fs.fileOf, hd, List.map_congr_left fun k _ => fileByte_congr hd k]

/-- A free inode has no bytes but zeros. -/
theorem fileByte_of_free {j : ℕ} (h : (D j).type = 0) (k : ℕ) : fileByte fs D j k = 0 := by
  rw [fileByte, slotData_none (if_pos (.inl h))]

/-- A patched array, as a list. -/
theorem map_putBytes (c : ℕ → Byte) {size off : ℕ} (bs : List Byte) (hoff : off ≤ size) :
    (List.range (max size (off + bs.length))).map (putBytes c off bs) =
      splice ((List.range size).map c) off bs := by
  refine List.ext_getElem ?_ fun k hk hk' => ?_
  · simp only [splice, List.length_map, List.length_range, List.length_append, List.length_take,
      List.length_drop]
    omega
  · simp only [List.length_map, List.length_range] at hk
    simp only [splice, putBytes, List.getElem_map, List.getElem_range]
    rcases Nat.lt_or_ge k off with hlt | hge
    · rw [if_neg (by omega), List.getElem_append_left (by simp; omega),
        List.getElem_append_left (by simp; omega)]
      simp
    rw [if_pos hge]
    rcases Nat.lt_or_ge k (off + bs.length) with hlt | hge'
    · rw [List.getElem_append_left (by simp; omega), List.getElem_append_right (by simp; omega),
        List.getD_eq_getElem _ _ (by omega)]
      simp [hoff]
    · rw [List.getElem_append_right (by simp; omega), List.getD_eq_default _ _ (by omega)]
      simp only [List.getElem_drop, List.getElem_map, List.getElem_range, List.length_append,
        List.length_take, List.length_map, List.length_range]
      congr 1
      omega

/-! ### `readi` -/

theorem FsOk.inCore_size (h : FsOk D x fs) (hip : InCore fs ip inum) :
    (fs.itable ip).size = (D inum).size := by
  rw [← (h.inCore hip).1]
  rfl

/-- The bytes that `readi` finds below the size are those of the array. -/
theorem FsOk.byteAt_eq (h : FsOk D x fs) (hip : InCore fs ip inum) {k : ℕ}
    (hk : k < (fs.itable ip).size.toNat) :
    fs.byteAt (fs.itable ip) k = fileByte fs D inum k := by
  obtain ⟨hd, ht, hi⟩ := h.inCore hip
  have hdiv := Nat.div_mul_le_self k BSIZE
  obtain ⟨hmax, hne⟩ := h.blockAt_ne hip (n := k / BSIZE) (by omega)
  have hptr :
      slotPtr fs D (inum, k / BSIZE) = some (fs.blockAt (fs.itable ip) (k / BSIZE)).toNat := by
    rw [slotPtr_eq_some, ← hd, slotEntry_eq_blockAt _ hmax]
    exact ⟨hd ▸ ht, hne, rfl⟩
  rw [fileByte, slotData_some hptr]
  rfl

/-- `readi` of a range that does not wrap returns the part of the array that is in the range. -/
theorem readi_array (h : FsOk D x fs) (hip : InCore fs ip inum) (off n : U32)
    (hwrap : off.toNat + n.toNat < 2 ^ 32) :
    wp (readi ip off n) (fun _ => False) (fun bs fs' => fs' = fs ∧
      bs = (((List.range (D inum).size.toNat).map (fileByte fs D inum)).drop off.toNat).take
        n.toNat) fs := by
  have hsize := (h.inCore_size hip).symm
  have hadd : (off + n).toNat = off.toNat + n.toNat := by
    rw [BitVec.toNat_add]
    omega
  unfold readi
  rw [wp_bind, wp_getInode]
  by_cases hc : (fs.itable ip).size < off ∨ off + n < off
  · rw [if_pos hc]
    refine ⟨rfl, ?_⟩
    rw [List.drop_eq_nil_of_le, List.take_nil]
    rw [BitVec.lt_def, BitVec.lt_def, hadd] at hc
    rw [List.length_map, List.length_range, hsize]
    omega
  rw [if_neg hc]
  have hle := readi_range hc
  generalize hm :
    (if (fs.itable ip).size < off + n then (fs.itable ip).size - off else n) = m at hle ⊢
  refine (readiFrom_mapped rfl (fun bn hbn => h.blockAt_ne hip hbn) le_rfl hle).mono ?_
  rintro bs fs₁ ⟨rfl, rfl⟩
  refine ⟨rfl, ?_⟩
  have hmin : m.toNat = min n.toNat ((D inum).size.toNat - off.toNat) := by
    rw [not_or, BitVec.not_lt, BitVec.le_def] at hc
    rw [← hm, hsize]
    split_ifs with hlt
    · rw [BitVec.lt_def, hadd] at hlt
      rw [BitVec.toNat_sub_of_le (BitVec.le_def.2 hc.1)]
      omega
    · rw [BitVec.lt_def, hadd] at hlt
      omega
  refine List.ext_getElem (by simp [hmin]) fun k hk hk' => ?_
  simp only [List.length_map, List.length_range] at hk
  simp only [List.getElem_map, List.getElem_range, List.getElem_take, List.getElem_drop]
  exact h.byteAt_eq hip (by omega)

/-! ### `writei` -/

/-- The array that a write leaves. -/
theorem Written.fileOf (h : FsOk D none fs) (h' : FsOk D' none fs') (hip : InCore fs ip inum)
    {off : ℕ} {bs : List Byte} (hw : Written ip inum off bs D fs D' fs')
    (hoff : off ≤ (fs.itable ip).size.toNat) :
    fs'.fileOf inum = splice (fs.fileOf inum) off bs := by
  obtain ⟨hd, -, hi⟩ := h.inCore hip
  have hip' := hip.same hw.head
  obtain ⟨-, ht', hi'⟩ := h'.inCore hip'
  have hoff' : off ≤ (D inum).size.toNat := by
    rw [← hd]
    exact hoff
  rw [h.fileOf_eq hi, h'.fileOf_eq hi', ← map_putBytes _ _ hoff', hw.size]
  refine List.map_congr_left fun k hk => hw.self k ?_
  have := h'.owned.size_le inum hi' ht'
  rw [hw.size] at this
  exact (List.mem_range.1 hk).trans_le this

theorem Written.fileOf_other (h : FsOk D none fs) (h' : FsOk D' none fs') {off : ℕ}
    {bs : List Byte} (hw : Written ip inum off bs D fs D' fs') {j : ℕ}
    (hj : j < fs.sb.ninodes.toNat) (hne : j ≠ inum) : fs'.fileOf j = fs.fileOf j := by
  rw [h.fileOf_eq hj, h'.fileOf_eq (hw.sb ▸ hj), hw.nodes j hne]
  refine List.map_congr_left fun k hk => ?_
  by_cases ht : (D j).type = 0
  · rw [fileByte_of_free ht, fileByte_of_free (by rw [hw.nodes j hne, ht])]
  · exact hw.other j hj hne k ((List.mem_range.1 hk).trans_le (h.owned.size_le j hj ht))

/-- There are enough free blocks for a write. -/
def EnoughFree (fs : Fs) (ip off len : ℕ) : Prop :=
  (emptySlots (touched off len) (fs.itable ip).inum.toNat fs.dinode fs).card ≤ (freeBlocks fs).card

instance (fs : Fs) (ip off len : ℕ) : Decidable (EnoughFree fs ip off len) :=
  inferInstanceAs (Decidable (_ ≤ _))

/-- There is a transaction with room for everything that a write logs.  `iupdate` logs the inode
last, and `log_write` wants a free entry in the header for it, whether it has been logged before or
not. -/
def FitsLog (fs : Fs) (ip off len : ℕ) : Prop :=
  0 < fs.log.log.outstanding ∧
    logLoad (touched off len) (fs.itable ip).inum.toNat fs.dinode fs fs.log.log.lh < fs.logCap

instance (fs : Fs) (ip off len : ℕ) : Decidable (FitsLog fs ip off len) :=
  inferInstanceAs (Decidable (_ ∧ _))

/-- `writei` refuses exactly the ranges that begin after the end of the file, wrap, or end after the
largest file, and then changes nothing; every other write patches the array, as a `readi` of a range
in `reads` sees, and no other file changes. -/
def PatchesArray (reads : U32 → U32 → Prop) (fs : Fs) (ip : ℕ) (off : U32) (bs : List Byte) :
    Prop :=
  ∃ w fs', writei ip off bs fs = .ok (w, fs') ∧
    (w = -1 ↔ OutOfFile fs ip off.toNat bs.length) ∧ (w = -1 → fs' = fs) ∧
    (w ≠ -1 → w = bs.length ∧
      (fs'.itable ip).size.toNat = max (fs.itable ip).size.toNat (off.toNat + bs.length) ∧
      (∀ off' n : U32, reads off' n → readi ip off' n fs' =
        .ok (((splice (fs.fileOf (fs.itable ip).inum.toNat) off.toNat bs).drop
          off'.toNat).take n.toNat, fs')) ∧
      ∀ j < fs.sb.ninodes.toNat, j ≠ (fs.itable ip).inum.toNat → fs'.fileOf j = fs.fileOf j)

/-- The range does not wrap. -/
def NoWrap (off n : U32) : Prop := off.toNat + n.toNat < 2 ^ 32

/-- **Files are byte arrays**, for writes that fit into the log and for reads that do not wrap. -/
theorem writei_patches_array (h : fs.BlocksOk) (hip : fs.Mine ip) (off : U32) (bs : List Byte)
    (hlen : bs.length < 2 ^ 32) (hroom : ¬ OutOfFile fs ip off.toNat bs.length →
      EnoughFree fs ip off.toNat bs.length ∧ FitsLog fs ip off.toNat bs.length) :
    PatchesArray NoWrap fs ip off bs := by
  have hcore := hip.inCore
  have hok : FsOk fs.dinode none fs := h
  have hno (e : Stop) (he : ¬ OutOfFile fs ip off.toNat bs.length ∧
      Stuck (touched off.toNat bs.length) (fs.itable ip).inum.toNat fs.dinode fs e) : False := by
    obtain ⟨hin, he⟩ := he
    obtain ⟨hfree, htrans, hfits⟩ := hroom hin
    unfold EnoughFree at hfree
    rcases he with (⟨-, he⟩ | ⟨-, he⟩) | ⟨-, he⟩ <;> omega
  obtain ⟨w, fs', hrun, hw⟩ := ((writei_total hok hcore off hlen).weaken hno).exists_ok
  refine ⟨w, fs', hrun, ?_⟩
  rcases hw with ⟨hout, rfl, rfl⟩ | ⟨hin, rfl, D', h', hw⟩
  · exact ⟨iff_of_true rfl hout, fun _ => rfl, fun hne => absurd rfl hne⟩
  have hoff : off.toNat ≤ (fs.itable ip).size.toNat := by
    unfold OutOfFile at hin
    omega
  have hcore' := hcore.same hw.head
  refine ⟨iff_of_false (by omega) hin, fun hneg => absurd hneg (by omega), fun _ => ⟨rfl, ?_,
    fun off' n hwrap => ?_, fun j hj hne => hw.fileOf_other hok h' hj hne⟩⟩
  · rw [h'.inCore_size hcore', hok.inCore_size hcore, hw.size]
  · obtain ⟨bs', fs₂, hread, rfl, hbs⟩ := (readi_array h' hcore' off' n hwrap).exists_ok
    rw [hread, hbs, ← h'.fileOf_eq (h'.inCore hcore').2.2, hw.fileOf hok h' hcore hoff]

end

/-! ### A write to a new file -/

section

attribute [local instance] imageLayout

theorem newFileState_blocksOk : newFileState.fs.BlocksOk := by
  have hnew : Run.Reach blockStep BlockEvent.Ok smallDisk newFileState :=
    Run.reach_of_runs (fun e he u => by fin_cases he <;> trivial)
    (Option.some_get newFile_runs).symm
  exact hnew.invariant smallDisk_blocksOk fun _ _ _ => blocksOk_step

theorem newFileState_mine : newFileState.fs.Mine 0 :=
  ⟨by decide +kernel, by decide +kernel, by decide +kernel⟩

/-- Two bytes are written to the new file, and more bytes than the largest file has are refused. -/
theorem writei_patches_array_newFile : PatchesArray NoWrap newFileState.fs 0 0 [7, 8] ∧
    PatchesArray NoWrap newFileState.fs 0 0 (List.replicate (MAXFILE * BSIZE + 1) 7) := by
  refine ⟨writei_patches_array newFileState_blocksOk newFileState_mine 0 [7, 8] (by decide) fun _ =>
    ⟨by decide +kernel, by decide +kernel⟩,
    writei_patches_array newFileState_blocksOk newFileState_mine 0 _ ?_ fun hin => absurd ?_ hin⟩
  · rw [List.length_replicate]
    decide
  · refine .inr (.inr ?_)
    rw [List.length_replicate]
    decide

/-- The same disk with a log of three blocks, the header and two more. -/
def smallLog : Fs :=
  { newFileState.fs with log := { newFileState.fs.log with
      log := { newFileState.fs.log.log with size := 3 } } }

theorem smallLog_blocksOk : smallLog.BlocksOk := by
  have h := newFileState_blocksOk
  have hstart : newFileState.fs.log.log.start = 2 := by decide +kernel
  have hino : newFileState.fs.sb.inodestart.toNat = 32 := by decide +kernel
  refine ⟨⟨fun b hb => ?_, h.layout.inodes, h.layout.data⟩,
    ⟨⟨h.log.le, by decide +kernel⟩, by decide +kernel⟩,
    h.owned.frame h.layout rfl (fun _ _ => rfl) fun _ _ _ _ => rfl, fun _ _ _ => rfl, h.mem, h.inum,
    h.unique⟩
  have hb' : b < newFileState.fs.log.log.start + 3 := hb.2
  change b < newFileState.fs.sb.inodestart.toNat
  omega

/-- **What is left out**: a `readi` whose range wraps returns nothing, whatever the file holds, and
a write that does not fit into the log panics. -/
theorem writei_not_array :
    (newFileState.fs.BlocksOk ∧ newFileState.fs.Mine 0 ∧ EnoughFree newFileState.fs 0 0 2 ∧
      ¬ PatchesArray (fun _ _ => True) newFileState.fs 0 0 [7, 8]) ∧
    smallLog.BlocksOk ∧ smallLog.Mine 0 ∧ EnoughFree smallLog 0 0 1 ∧
      ¬ PatchesArray NoWrap smallLog 0 0 [7] := by
  refine ⟨⟨newFileState_blocksOk, newFileState_mine, by decide +kernel, ?_⟩, smallLog_blocksOk,
    newFileState_mine, by decide +kernel, ?_⟩
  · rintro ⟨w, fs', hrun, hw, -, hpatch⟩
    have hin : ¬ OutOfFile newFileState.fs 0 0 2 := by
      unfold OutOfFile
      decide +kernel
    have hread := (hpatch fun hw1 => hin (hw.1 hw1)).2.2.1 1 0xFFFFFFFF trivial
    have hempty : (readi 0 1 0xFFFFFFFF fs').map Prod.fst = .ok [] := by
      have hmap : ((writei 0 0 [7, 8] newFileState.fs).bind fun r => readi 0 1 0xFFFFFFFF r.2).map
          Prod.fst = .ok [] := by decide +kernel
      rwa [hrun] at hmap
    rw [hread] at hempty
    have harray :
        ((splice (newFileState.fs.fileOf (newFileState.fs.itable 0).inum.toNat) 0 [7, 8]).drop
        1).take 0xFFFFFFFF ≠ [] := by decide +kernel
    exact harray (Except.ok.inj hempty)
  · rintro ⟨w, fs', hrun, -⟩
    have hpanic : (writei 0 0 [7] smallLog).isOk = false := by decide +kernel
    rw [hrun] at hpanic
    cases hpanic

end

end Xv6
