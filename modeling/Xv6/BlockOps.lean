import Xv6.BlockOwner

/-!
# Operations on inodes and the blocks they own

Each function of `kernel/fs.c` that works on an inode keeps the invariant of `Xv6.BlockOwner`:
`readi` finds all its blocks, `writei` fills the blocks up to the new size, `itrunc` gives every
block back, `iput` frees the inode, and `ialloc`, `iget` and `ilock` bring inodes in.
-/

namespace Xv6

open Bytes Wp Tally

section

variable {D D' : ℕ → Dinode} {x : Option ℕ} {fs fs' : Fs} {ip inum n : ℕ}

/-! ### Writing to blocks -/

theorem FsOk.opened (h : FsOk D none fs) (x : Option ℕ) : FsOk D x fs :=
  ⟨h.layout, h.log, h.owned, fun j hj _ => h.disk j hj nofun, h.mem, h.inum, h.unique⟩

/-- The bitmap and the indirect blocks are left alone. -/
theorem Owned.frame (h : Owned D fs) (hlay : DiskLayout fs) (hsb : fs'.sb = fs.sb)
    (hbits : ∀ y, InBitmap fs.sb y → fs'.log.buf y = fs.log.buf y) (hsp : Spares D fs fs') :
    Owned D fs' := by
  have hdata := hlay.data
  refine ⟨?_, fun b hb => ?_, fun j hj ht => ?_, fun j hj ht bn hbn => ?_⟩
  · rw [hsb]
    exact h.marks.congr (fun y hy => hsp.slotPtr hy) fun y hy => bit_congr hsb hbits hy.2
  · rw [hsb] at hb
    rw [bit_congr hsb hbits (by omega)]
    exact h.low b hb
  · exact h.size_le j (hsb ▸ hj) ht
  · rw [hsb] at hj
    rw [hsp.slotPtr (mem_slotsOf hj (h.block_lt hj ht hbn).le)]
    exact h.mapped j hj ht bn hbn

/-- Only blocks of the data area are written, and no indirect block. -/
theorem FsOk.frame (h : FsOk D x fs) (hs : SameTables fs fs') (hlog : LogOk fs'.log)
    (hbuf : ∀ y, fs.sb.inodestart.toNat ≤ y → y < dataStart fs.sb → fs'.log.buf y = fs.log.buf y)
    (hsp : Spares D fs fs') : FsOk D x fs' := by
  have hin := h.layout.inodes
  rw [IPB_eq] at hin
  have hbits (y : ℕ) (hy : InBitmap fs.sb y) : fs'.log.buf y = fs.log.buf y :=
    hbuf y (by have := hy.1; omega) hy.2
  have hnode (y : ℕ) (hy : fs.sb.inodestart.toNat ≤ y) (hy' : y < fs.sb.bmapstart.toNat) :
      fs'.log.buf y = fs.log.buf y := hbuf y hy (by rw [dataStart, BPB_eq]; omega)
  refine ⟨h.layout.same hs, hlog, h.owned.frame h.layout hs.sb hbits hsp, fun j hj hx => ?_,
    ?_, ?_, ?_⟩
  · rw [hs.sb] at hj
    rw [dinode_congr h.layout hs.sb hnode hj]
    exact h.disk j hj hx
  · rw [hs.itable]
    exact h.mem
  · rw [hs.itable, hs.sb]
    exact h.inum
  · rw [hs.itable]
    exact h.unique

/-- Blocks in use are not in the log. -/
theorem FsOk.data_out (h : FsOk D x fs) {b : ℕ} (hb : InData fs.sb b) : ¬ fs.inLog b :=
  h.layout.not_inLog (h.layout.inodestart_le.trans hb.1)

/-- The data of a file is written. -/
theorem FsOk.writeData (h : FsOk D x fs) (hi : inum < fs.sb.ninodes.toNat)
    (hn : n < MAXFILE) {b : ℕ} (hp : slotPtr fs D (inum, n) = some b) {data : Block}
    (hs : SameTables fs fs') (hlog : LogOk fs'.log)
    (hbuf : fs'.log.buf = Function.update fs.log.buf b data) : FsOk D x fs' ∧ Spares D fs fs' := by
  have hin := h.owned.marks.inside _ (mem_slotsOf hi hn.le) b hp
  have hsp : Spares D fs fs' := by
    intro j hj c hc
    rw [hbuf, Function.update_of_ne]
    rintro rfl
    have := congrArg Prod.snd
      (h.owned.marks.unique (mem_slotsOf hj le_rfl) (mem_slotsOf hi hn.le) hc hp)
    exact hn.ne this.symm
  refine ⟨h.frame hs hlog (fun y _ hy => ?_) hsp, hsp⟩
  rw [hbuf, Function.update_of_ne]
  have := hin.1
  omega

theorem Spares.grown (h : Spares D fs fs') (hsb : fs'.sb = fs.sb)
    (hip : fs'.itable ip = fs.itable ip) : Grown ip inum D fs D fs' :=
  ⟨hsb, fun _ _ => rfl, rfl, rfl,
    fun y hy b hb => by rw [h.slotPtr hy, hb], by rw [hip]; exact .refl _⟩

/-! ### `readi` -/

theorem slotEntry_eq_blockAt (i : Inode) (hn : n < MAXFILE) :
    slotEntry fs i.dinode n = fs.blockAt i n := by
  have hdir (m : ℕ) (hm : m ≤ NDIRECT) : i.dinode.addrs m = i.addrs m := if_pos hm
  unfold Fs.blockAt
  by_cases hlt : n < NDIRECT
  · rw [slotEntry_direct hlt, if_pos hlt, hdir n hlt.le]
  rw [if_neg hlt]
  by_cases h0 : i.addrs NDIRECT = 0
  · rw [if_pos h0, slotEntry_entry_of_zero (by omega) hn.ne ((hdir _ le_rfl).trans h0)]
  · rw [if_neg h0, slotEntry_entry (by omega) hn.ne (by rwa [hdir _ le_rfl]), hdir _ le_rfl]
    rfl

/-- A block below the size of a file has an address. -/
theorem FsOk.blockAt_ne (h : FsOk D x fs) (hip : InCore fs ip inum)
    (hn : n * BSIZE < (fs.itable ip).size.toNat) :
    n < MAXFILE ∧ fs.blockAt (fs.itable ip) n ≠ 0 := by
  obtain ⟨hd, ht, hi⟩ := h.inCore hip
  have hn : n * BSIZE < (D inum).size.toNat := by
    rw [← hd]
    exact hn
  have hlt := h.owned.block_lt hi ht hn
  refine ⟨hlt, fun h0 => h.owned.mapped inum hi ht n hn (slotPtr_eq_none ?_)⟩
  rw [← hd, slotEntry_eq_blockAt _ hlt, h0]

theorem readiFrom_ok (h : FsOk D x fs) (hip : InCore fs ip inum) {fuel off k : ℕ}
    (hk : off + k ≤ (fs.itable ip).size.toNat) :
    wp (readiFrom ip fuel off k) FreesOk (fun _ fs' => fs' = fs) fs := by
  induction fuel generalizing off k with
  | zero => exact rfl
  | succ fuel ih =>
    unfold readiFrom
    by_cases hk0 : k = 0
    · rw [if_pos hk0]
      exact rfl
    have hdiv := Nat.div_mul_le_self off BSIZE
    obtain ⟨hmax, hb⟩ := h.blockAt_ne hip (n := off / BSIZE) (by omega)
    rw [if_neg hk0, wp_bind]
    refine (bmap_mapped rfl hmax hb).mono ?_
    rintro b fs₁ ⟨rfl, rfl⟩
    rw [wp_bind, wp_bread, wp_bind]
    refine (ih (by omega)).mono fun _ fs₂ h₂ => ?_
    rw [wp_pure]
    exact h₂

/-- The range that `readi` reads is inside the file. -/
theorem readi_range {size off k : U32} (h : ¬ (size < off ∨ off + k < off)) :
    off.toNat + (if size < off + k then size - off else k).toNat ≤ size.toNat := by
  rw [not_or, BitVec.not_lt, BitVec.not_lt, BitVec.le_def, BitVec.le_def, BitVec.toNat_add] at h
  have := size.isLt
  have := off.isLt
  have := k.isLt
  by_cases hlt : size < off + k
  · rw [if_pos hlt, BitVec.toNat_sub]
    omega
  · rw [if_neg hlt]
    rw [BitVec.not_lt, BitVec.le_def, BitVec.toNat_add] at hlt
    omega

/-- `readi` never allocates. -/
theorem readi_ok (h : FsOk D x fs) (hip : InCore fs ip inum) (off k : U32) :
    wp (readi ip off k) FreesOk (fun _ fs' => fs' = fs) fs := by
  unfold readi
  rw [wp_bind, wp_getInode]
  by_cases hc : (fs.itable ip).size < off ∨ off + k < off
  · rw [if_pos hc]
    exact rfl
  · rw [if_neg hc]
    exact readiFrom_ok h hip (readi_range hc)

/-! ### `iupdate` -/

/-- `iupdate` writes and logs the inode that is in the table. -/
theorem iupdate_total (hlay : DiskLayout fs) (hlog : LogOk fs.log)
    (hinum : (fs.itable ip).inum.toNat = inum) (hi : inum < fs.sb.ninodes.toNat) :
    wp (iupdate ip) (LogStuck fs fs.log.log.lh.length) (fun _ fs' => SameTables fs fs' ∧
      LogOk fs'.log ∧ (∀ y, y ≠ inodeBlockOf fs.sb inum → fs'.log.buf y = fs.log.buf y) ∧
      (∀ j, fs'.dinode j = if j = inum then (fs.itable ip).dinode else fs.dinode j) ∧
      fs'.log.log = { fs.log.log with
        lh := Budget.logged fs.log.log.lh (inodeBlockOf fs.sb inum) }) fs := by
  have hblk : (iblock fs.sb (fs.itable ip).inum).1.toNat = inodeBlockOf fs.sb inum := by
    rw [← toNat_iblock hlay hi, ← hinum, BitVec.ofNat_toNat, BitVec.setWidth_eq]
  have hofs : (iblock fs.sb (fs.itable ip).inum).2 = inum % IPB * 64 := by rw [← hinum, iblock]
  have hout : ¬ fs.inLog (iblock fs.sb (fs.itable ip).inum).1.toNat := by
    rw [hblk]
    exact hlay.not_inLog (inodeBlockOf_lt hlay hi).1
  unfold iupdate
  rw [wp_bind, wp_get, wp_bind, wp_getInode]
  dsimp only
  rw [wp_bind, wp_bread]
  refine (fsLogWrite_total hlog hout _).mono ?_
  rintro _ fs₁ ⟨hs, hl, hbuf, hlh⟩
  refine ⟨hs, hl, fun y hy => ?_, fun j => ?_, by rw [hlh, hblk]⟩
  · rw [hbuf, hblk, Function.update_of_ne hy]
  · rw [hblk, hofs] at hbuf
    rw [dinode_setInode hs.sb hbuf fun y hy => putInode_of_not_mem hy]
    split_ifs
    · exact dinodeIn_putInode _ _ _
    · rfl

/-- `iupdate` writes the inode that is in the table. -/
theorem iupdate_writes (hlay : DiskLayout fs) (hlog : LogOk fs.log)
    (hinum : (fs.itable ip).inum.toNat = inum) (hi : inum < fs.sb.ninodes.toNat) :
    wp (iupdate ip) FreesOk (fun _ fs' => SameTables fs fs' ∧ LogOk fs'.log ∧
      (∀ y, y ≠ inodeBlockOf fs.sb inum → fs'.log.buf y = fs.log.buf y) ∧
      ∀ j, fs'.dinode j = if j = inum then (fs.itable ip).dinode else fs.dinode j) fs :=
  ((iupdate_total hlay hlog hinum hi).weaken fun _ => LogStuck.freesOk).mono
    fun _ _ ⟨hs, hl, hbuf, hnode, _⟩ => ⟨hs, hl, hbuf, hnode⟩

theorem Spares.of_inodeBlock (h : FsOk D x fs) (hi : inum < fs.sb.ninodes.toNat)
    (hbuf : ∀ y, y ≠ inodeBlockOf fs.sb inum → fs'.log.buf y = fs.log.buf y) : Spares D fs fs' := by
  intro j hj b hb
  refine hbuf b fun he => ?_
  have hdata := (h.owned.indirect hj hb).1.1
  have hlt := (inodeBlockOf_lt h.layout hi).2
  rw [dataStart, BPB_eq] at hdata
  omega

/-- The blocks of files are left alone. -/
theorem slotData_of_inodeBlock (h : FsOk D x fs) (hi : inum < fs.sb.ninodes.toNat)
    (hbuf : ∀ y, y ≠ inodeBlockOf fs.sb inum → fs'.log.buf y = fs.log.buf y) {y : ℕ × ℕ}
    (hy : y ∈ slotsOf fs.sb) : slotData fs' D y = slotData fs D y := by
  have hptr := (Spares.of_inodeBlock h hi hbuf).slotPtr hy
  rcases hb : slotPtr fs D y with _ | b
  · rw [slotData_none hb, slotData_none (hptr.trans hb)]
  · rw [slotData_some hb, slotData_some (hptr.trans hb), hbuf b fun he => ?_]
    have hdata := (h.owned.marks.inside y hy b hb).1
    have hlt := (inodeBlockOf_lt h.layout hi).2
    rw [dataStart, BPB_eq] at hdata
    omega

theorem bitmap_of_inodeBlock (hlay : DiskLayout fs) (hi : inum < fs.sb.ninodes.toNat)
    (hbuf : ∀ y, y ≠ inodeBlockOf fs.sb inum → fs'.log.buf y = fs.log.buf y) {y : ℕ}
    (hy : InBitmap fs.sb y) : fs'.log.buf y = fs.log.buf y := by
  refine hbuf y fun he => ?_
  have := hy.1
  have := (inodeBlockOf_lt hlay hi).2
  omega

/-- The disk after `iupdate`. -/
theorem FsOk.iupdate (h : FsOk D (some inum) fs) (hip : InCore fs ip inum) (hs : SameTables fs fs')
    (hl : LogOk fs'.log) (hbuf : ∀ y, y ≠ inodeBlockOf fs.sb inum → fs'.log.buf y = fs.log.buf y)
    (hnode : ∀ j, fs'.dinode j = if j = inum then (fs.itable ip).dinode else fs.dinode j) :
    FsOk D none fs' := by
  obtain ⟨hd, ht, hi⟩ := h.inCore hip
  refine ⟨h.layout.same hs, hl, h.owned.frame h.layout hs.sb
    (fun y => bitmap_of_inodeBlock h.layout hi hbuf) (.of_inodeBlock h hi hbuf),
    fun j hj _ => ?_, ?_, ?_, ?_⟩
  · rw [hnode]
    split_ifs with hj'
    · rw [hj', hd]
    · exact h.disk j (hs.sb ▸ hj) fun he => hj' (Option.some.inj he).symm
  · rw [hs.itable]
    exact h.mem
  · rw [hs.itable, hs.sb]
    exact h.inum
  · rw [hs.itable]
    exact h.unique

/-- `iupdate` brings the disk up to date. -/
theorem iupdate_ok (h : FsOk D (some inum) fs) (hip : InCore fs ip inum) :
    wp (iupdate ip) FreesOk (fun _ fs' => FsOk D none fs' ∧ SameTables fs fs') fs :=
  (iupdate_writes h.layout h.log hip.inum (h.inCore hip).2.2).mono
    fun _ _ ⟨hs, hl, hbuf, hnode⟩ => ⟨h.iupdate hip hs hl hbuf hnode, hs⟩

/-! ### `writei` -/

/-- Every block of an inode below `e` has an address. -/
def Filled (D : ℕ → Dinode) (fs : Fs) (inum e : ℕ) : Prop :=
  ∀ bn, bn * BSIZE < e → slotPtr fs D (inum, bn) ≠ none

theorem Filled.grown {e : ℕ} (h : Filled D fs inum e) (hi : inum < fs.sb.ninodes.toNat)
    (he : e ≤ MAXFILE * BSIZE) (hg : Grown ip inum D fs D' fs') : Filled D' fs' inum e := by
  intro bn hbn
  have hmax : bn < MAXFILE := Nat.lt_of_mul_lt_mul_right (hbn.trans_le he)
  obtain ⟨b, hb⟩ := Option.ne_none_iff_exists'.1 (h bn hbn)
  rw [hg.ptr _ (mem_slotsOf hi hmax.le) b hb]
  exact nofun

theorem Filled.add {off m : ℕ} (h : Filled D fs inum off)
    (hb : slotPtr fs D (inum, off / BSIZE) ≠ none) (hm : off % BSIZE + m ≤ BSIZE) :
    Filled D fs inum (off + m) := by
  intro bn hbn
  by_cases hlt : bn * BSIZE < off
  · exact h bn hlt
  have hmod := Nat.div_add_mod off BSIZE
  have hle : off / BSIZE * BSIZE ≤ bn * BSIZE := by rw [mul_comm]; omega
  have hle' : bn * BSIZE < (off / BSIZE + 1) * BSIZE := by
    rw [add_mul, mul_comm (off / BSIZE)]
    omega
  have : bn = off / BSIZE := by
    have h1 := Nat.le_of_mul_le_mul_right hle (by decide : 0 < BSIZE)
    have h2 := Nat.lt_of_mul_lt_mul_right hle'
    omega
  rw [this]
  exact hb

/-- Byte `k` of inode `j`: 0 where it has no block. -/
def fileByte (fs : Fs) (D : ℕ → Dinode) (j k : ℕ) : Byte := slotData fs D (j, k / BSIZE) (k % BSIZE)

/-- The bytes `bs` have been written to inode `inum` at `off`. -/
structure WroteBytes (V : Finset ℕ) (ip inum off : ℕ) (bs : List Byte) (D : ℕ → Dinode) (fs : Fs)
    (D' : ℕ → Dinode) (fs' : Fs) : Prop extends Grown ip inum D fs D' fs',
    Spends V inum D fs D' fs' where
  self : ∀ k < MAXFILE * BSIZE, fileByte fs' D' inum k = putBytes (fileByte fs D inum) off bs k
  other : ∀ j < fs.sb.ninodes.toNat, j ≠ inum → ∀ k < MAXFILE * BSIZE,
    fileByte fs' D' j k = fileByte fs D j k
  entries : ∀ jp, jp ≠ ip → fs'.itable jp = fs.itable jp

section

variable {V : Finset ℕ} {off : ℕ} {bs : List Byte}

theorem block_of_byte {k : ℕ} (hk : k < MAXFILE * BSIZE) : k / BSIZE < MAXFILE :=
  Nat.div_lt_of_lt_mul (by rwa [mul_comm])

theorem Grew.fileByte (h : Grew V ip inum D fs D' fs') {j k : ℕ} (hj : j < fs.sb.ninodes.toNat)
    (hk : k < MAXFILE * BSIZE) : fileByte fs' D' j k = fileByte fs D j k :=
  congrFun (h.data _ (mem_slotsOf hj (block_of_byte hk).le) (block_of_byte hk).ne) _

theorem Grew.wrote (h : Grew V ip inum D fs D' fs') (hi : inum < fs.sb.ninodes.toNat) (off : ℕ) :
    WroteBytes V ip inum off [] D fs D' fs' :=
  ⟨h.toGrown, h.toSpends, fun k hk => by rw [putBytes_nil, h.fileByte hi hk],
    fun j hj _ k hk => h.fileByte hj hk, h.entries⟩

theorem WroteBytes.trans {D'' : ℕ → Dinode} {fs'' : Fs} {cs : List Byte}
    (h : WroteBytes V ip inum off bs D fs D' fs')
    (h' : WroteBytes V ip inum (off + bs.length) cs D' fs' D'' fs'') :
    WroteBytes V ip inum off (bs ++ cs) D fs D'' fs'' := by
  refine ⟨h.toGrown.trans h'.toGrown, h.toSpends.trans h'.toSpends, fun k hk => ?_,
    fun j hj hne k hk => (h'.other j (h.sb ▸ hj) hne k hk).trans (h.other j hj hne k hk),
    fun jp hj => (h'.entries jp hj).trans (h.entries jp hj)⟩
  rw [h'.self k hk, ← putBytes_append]
  exact putBytes_congr (h.self k hk) _ _

/-- Part of a block of a file is written. -/
theorem FsOk.patchBuf (h : FsOk D x fs) (hi : inum < fs.sb.ninodes.toNat)
    (hn : off / BSIZE < MAXFILE) {b : ℕ} (hp : slotPtr fs D (inum, off / BSIZE) = some b)
    (hfit : off % BSIZE + bs.length ≤ BSIZE) (hs : SameTables fs fs') (hlog : LogOk fs'.log)
    (hbuf : fs'.log.buf = Function.update fs.log.buf b (putBytes (fs.log.buf b) (off % BSIZE) bs)) :
    FsOk D x fs' ∧ Spares D fs fs' ∧
      (∀ k < MAXFILE * BSIZE, fileByte fs' D inum k = putBytes (fileByte fs D inum) off bs k) ∧
      ∀ j < fs.sb.ninodes.toNat, j ≠ inum → ∀ k < MAXFILE * BSIZE,
        fileByte fs' D j k = fileByte fs D j k := by
  obtain ⟨h', hsp⟩ := h.writeData hi hn hp hs hlog hbuf
  have hother {y : ℕ × ℕ} (hy : y ∈ slotsOf fs.sb) (hne : y ≠ (inum, off / BSIZE)) :
      slotData fs' D y = slotData fs D y := by
    rcases hc : slotPtr fs D y with _ | c
    · rw [slotData_none hc, slotData_none ((hsp.slotPtr hy).trans hc)]
    · rw [slotData_some hc, slotData_some ((hsp.slotPtr hy).trans hc), hbuf, Function.update_of_ne]
      rintro rfl
      exact hne (h.owned.marks.unique hy (mem_slotsOf hi hn.le) hc hp)
  refine ⟨h', hsp, fun k hk => ?_, fun j hj hne k hk => ?_⟩
  · have hdm := Nat.div_add_mod k BSIZE
    have hdo := Nat.div_add_mod off BSIZE
    unfold fileByte
    by_cases he : k / BSIZE = off / BSIZE
    · rw [he, slotData_some ((hsp.slotPtr (mem_slotsOf hi hn.le)).trans hp), hbuf,
        Function.update_self]
      rw [he] at hdm
      exact putBytes_shift (d := BSIZE * (off / BSIZE)) (by rw [he, slotData_some hp]) (by omega)
    · rw [hother (mem_slotsOf hi (block_of_byte hk).le) fun h => he (congrArg Prod.snd h),
        putBytes_of_not_mem]
      rintro ⟨h1, h2⟩
      refine he (Nat.div_eq_of_lt_le ?_ ?_)
      · rw [mul_comm]
        omega
      · rw [mul_comm, Nat.mul_add]
        omega
  · exact congrFun (hother (mem_slotsOf hj (block_of_byte hk).le)
      fun h => hne (congrArg Prod.fst h)) _

/-- Part of a block of a file is written and logged. -/
theorem FsOk.patch (h : FsOk D x fs) (ip : ℕ) (hi : inum < fs.sb.ninodes.toNat)
    (hn : off / BSIZE < MAXFILE) (hV : ∀ m ∈ V, m ≤ MAXFILE) (hnV : off / BSIZE ∈ V) {b : ℕ}
    (hp : slotPtr fs D (inum, off / BSIZE) = some b) (hfit : off % BSIZE + bs.length ≤ BSIZE)
    (hs : SameTables fs fs') (hlog : LogOk fs'.log)
    (hbuf : fs'.log.buf = Function.update fs.log.buf b (putBytes (fs.log.buf b) (off % BSIZE) bs))
    (hlh : fs'.log.log = { fs.log.log with lh := Budget.logged fs.log.log.lh b }) :
    FsOk D x fs' ∧ WroteBytes V ip inum off bs D fs D fs' := by
  obtain ⟨h', hsp, hself, hother⟩ := h.patchBuf hi hn hp hfit hs hlog hbuf
  have hin := h.owned.marks.inside _ (mem_slotsOf hi hn.le) b hp
  have hbits {y : ℕ} (hy : y < fs.sb.size.toNat) : fs'.bit y = fs.bit y := by
    refine bit_congr hs.sb (fun z hz => ?_) hy
    rw [hbuf, Function.update_of_ne]
    have := hin.1
    have := hz.2
    omega
  have hptr (m : ℕ) (hm : m ∈ V) : slotPtr fs' D (inum, m) = slotPtr fs D (inum, m) :=
    hsp.slotPtr (mem_slotsOf hi (hV m hm))
  refine ⟨h', ⟨hsp.grown hs.sb (by rw [hs.itable]), ⟨by rw [hlh], ?_, ?_⟩, hself, hother,
    fun jp _ => by rw [hs.itable]⟩⟩
  · rw [hlh, logLoad, loggedBlocks_congr hs.sb (fun y => hbits) hptr]
    exact load_logged
      (loggedBlocks_of_slot (Finset.mem_filter.2 ⟨hnV, fun he => absurd he hn.ne⟩) hp) _
  · have hfree : freeBlocks fs' = freeBlocks fs := by
      unfold freeBlocks
      rw [hs.sb]
      exact Finset.filter_congr fun y hy => by rw [hbits (Finset.mem_range.1 hy)]
    rw [emptySlots, Budget.missing_congr hptr, hfree]
    rfl

/-- The loop of `writei`, for slots in `V`. -/
theorem writeiFrom_total (h : FsOk D (some inum) fs) (hip : InCore fs ip inum) {fuel : ℕ}
    (hfill : Filled D fs inum off) (hend : off + bs.length ≤ MAXFILE * BSIZE)
    (hfuel : bs.length ≤ fuel) (hV : ∀ m ∈ V, m ≤ MAXFILE)
    (hbV : 0 < bs.length → ∀ bn, off / BSIZE ≤ bn → bn * BSIZE < off + bs.length → bn ∈ V)
    (hiV : 0 < bs.length → NDIRECT * BSIZE < off + bs.length → MAXFILE ∈ V) :
    wp (writeiFrom ip fuel off bs) (Stuck V inum D fs) (fun _ fs' => ∃ D', FsOk D' (some inum) fs' ∧
      WroteBytes V ip inum off bs D fs D' fs' ∧ Filled D' fs' inum (off + bs.length)) fs := by
  have hi := (h.inCore hip).2.2
  induction fuel generalizing fs D off bs with
  | zero =>
    obtain rfl : bs = [] := List.length_eq_zero_iff.1 (Nat.le_zero.1 hfuel)
    exact ⟨D, h, (Grew.refl ..).wrote hi off, hfill⟩
  | succ fuel ih =>
    unfold writeiFrom
    by_cases hbs : bs = []
    · rw [if_pos hbs, hbs]
      exact ⟨D, h, (Grew.refl ..).wrote hi off, hfill⟩
    have hlen : 0 < bs.length := List.length_pos_iff.2 hbs
    have hmod : off % BSIZE < BSIZE := Nat.mod_lt _ (by decide)
    have hdiv := Nat.div_mul_le_self off BSIZE
    have hmax : off / BSIZE < MAXFILE := block_of_byte (by omega)
    have hnV : off / BSIZE ∈ V := hbV hlen _ le_rfl (by omega)
    rw [if_neg hbs, wp_bind]
    refine (bmap_total h hip hmax hV hnV fun hge => hiV hlen ?_).mono ?_
    · have := Nat.mul_le_mul_right BSIZE hge
      omega
    rintro b fs₁ ⟨D₁, h₁, hg₁, hp⟩
    have hip₁ := hip.same hg₁.head
    have hi₁ := (h₁.inCore hip₁).2.2
    have hin := h₁.owned.marks.inside _ (mem_slotsOf hi₁ hmax.le) _ hp
    rw [wp_bind, wp_bread, wp_bind]
    refine ((fsLogWrite_total h₁.log (h₁.data_out hin) _).weaken fun e he =>
      hg₁.toSpends.stuck (.inl (he.mono Budget.length_le_load))).mono ?_
    rintro _ fs₂ ⟨hs₂, hl₂, hbuf₂, hlh₂⟩
    generalize hm : min bs.length (BSIZE - off % BSIZE) = m at hbuf₂ ⊢
    have hmle : m ≤ bs.length := by omega
    have htake : (bs.take m).length = m := List.length_take_of_le hmle
    have hdrop : (bs.drop m).length = bs.length - m := List.length_drop
    rw [putBytes_take hmle] at hbuf₂
    obtain ⟨h₂, hw₂⟩ := h₁.patch ip hi₁ hmax hV hnV hp (by omega) hs₂ hl₂ hbuf₂ hlh₂
    have hw : WroteBytes V ip inum off (bs.take m) D fs D₁ fs₂ := (hg₁.wrote hi off).trans hw₂
    have hfill₁ : Filled D₁ fs₁ inum (off + m) :=
      (hfill.grown hi (by omega) hg₁.toGrown).add (by simp [hp]) (by omega)
    have hnext : off + m + (bs.drop m).length = off + bs.length := by omega
    refine ((ih h₂ (hip₁.same hw₂.head) (hfill₁.grown hi₁ (by omega) hw₂.toGrown) (by omega)
      (by omega) (fun _ bn hbn hlt => ?_) (fun _ => hnext ▸ hiV hlen) (hs₂.sb ▸ hi₁)).weaken
      fun _ => hw.toSpends.stuck).mono ?_
    · exact hbV hlen bn ((Nat.div_le_div_right (Nat.le_add_right off m)).trans hbn) (by omega)
    · rintro _ fs₃ ⟨D₃, h₃, hw₃, hfill₃⟩
      refine ⟨D₃, h₃, ?_, by rwa [hnext] at hfill₃⟩
      rw [← htake] at hw₃
      have := hw.trans hw₃
      rwa [htake, List.take_append_drop] at this

end

/-- The slots do not depend on the size. -/
theorem slotPtr_resize (fs : Fs) (i : Inode) (size : U32) (y : ℕ × ℕ) :
    slotPtr (fs.withInode ip i) (Function.update D inum { D inum with size := size }) y =
      slotPtr fs D y := by
  obtain ⟨j, n⟩ := y
  by_cases hj : j = inum
  · subst hj
    refine slotPtr_congr ?_ ?_ <;> simp only [Function.update_self]
    rfl
  · refine slotPtr_congr ?_ ?_ <;> simp only [Function.update_of_ne hj]
    rfl

/-- A size up to which all blocks have an address. -/
theorem Owned.resize (h : Owned D fs) {size : U32} (hle : size.toNat ≤ MAXFILE * BSIZE)
    (hfill : Filled D fs inum size.toNat) {i : Inode} :
    Owned (Function.update D inum { D inum with size := size }) (fs.withInode ip i) := by
  have hother (j : ℕ) (hj : j ≠ inum) :
      Function.update D inum { D inum with size := size } j = D j := Function.update_of_ne hj ..
  have hself : Function.update D inum { D inum with size := size } inum =
      { D inum with size := size } :=
    Function.update_self ..
  have htype (j : ℕ) : (Function.update D inum { D inum with size := size } j).type =
      (D j).type := by
    by_cases hj : j = inum
    · rw [hj, hself]
    · rw [hother j hj]
  refine ⟨h.marks.congr (fun y _ => slotPtr_resize fs i size y) fun _ _ => rfl, h.low,
    fun j hj ht => ?_, fun j hj ht bn hbn => ?_⟩
  · rw [htype] at ht
    by_cases hji : j = inum
    · rw [hji, hself]
      exact hle
    · rw [hother j hji]
      exact h.size_le j hj ht
  · rw [htype] at ht
    rw [slotPtr_resize]
    by_cases hji : j = inum
    · rw [hji, hself] at hbn
      exact hji ▸ hfill bn hbn
    · rw [hother j hji] at hbn
      exact h.mapped j hj ht bn hbn

/-- The end of `writei`: the size grows to `e`, and the inode is written back. -/
theorem setSize_total (h : FsOk D (some inum) fs) (hip : InCore fs ip inum) {e : U32}
    (hle : e.toNat ≤ MAXFILE * BSIZE) (hfill : Filled D fs inum e.toNat) :
    wp (do
      setInode ip fun i => { i with size := if i.size < e then e else i.size }
      iupdate ip : F Unit) (LogStuck fs fs.log.log.lh.length) (fun _ fs' => ∃ D', FsOk D' none fs' ∧
        fs'.sb = fs.sb ∧ (D' inum).type = (D inum).type ∧
        (D' inum).size.toNat = max (D inum).size.toNat e.toNat ∧
        (∀ j, j ≠ inum → D' j = D j) ∧ (∀ y ∈ slotsOf fs.sb, slotPtr fs' D' y = slotPtr fs D y ∧
          slotData fs' D' y = slotData fs D y) ∧
        SameHead (fs.itable ip) (fs'.itable ip) ∧
        ∀ jp, jp ≠ ip → fs'.itable jp = fs.itable jp) fs := by
  obtain ⟨hd, ht, hi⟩ := h.inCore hip
  rw [wp_bind, wp_setInode]
  generalize hsz : (if (fs.itable ip).size < e then e else (fs.itable ip).size) = size
  have hsame : (fs.itable ip).size = (D inum).size := by
    rw [← hd]
    rfl
  have hself := withInode_self fs ip { fs.itable ip with size := size }
  have hsize : size.toNat ≤ MAXFILE * BSIZE ∧ Filled D fs inum size.toNat := by
    rw [← hsz]
    split_ifs
    · exact ⟨hle, hfill⟩
    · rw [hsame]
      exact ⟨h.owned.size_le inum hi ht, h.owned.mapped inum hi ht⟩
  have hD (j : ℕ) (hj : j ≠ inum) : Function.update D inum { D inum with size := size } j = D j :=
    Function.update_of_ne hj ..
  have h₁ : FsOk (Function.update D inum { D inum with size := size }) (some inum)
      (fs.withInode ip { fs.itable ip with size := size }) := by
    refine h.change hip rfl rfl h.log (h.owned.resize hsize.1 hsize.2) hD (fun _ _ _ => rfl)
      (fun jp hj => withInode_of_ne _ _ hj) ?_ ?_ ?_
    · rw [hself]
      exact ⟨rfl, rfl, rfl, rfl, rfl⟩
    · rw [hself, Function.update_self, ← hd]
      rfl
    · rw [Function.update_self]
      exact ht
  have hip₁ : InCore (fs.withInode ip { fs.itable ip with size := size }) ip inum := hip.same <| by
    rw [hself]
    exact ⟨rfl, rfl, rfl, rfl, rfl⟩
  refine (iupdate_total h₁.layout h₁.log hip₁.inum hi).mono
    fun _ fs₂ ⟨hs, hl, hbuf, hnode, _⟩ =>
      ⟨_, h₁.iupdate hip₁ hs hl hbuf hnode, hs.sb, ?_, ?_, hD, fun y hy => ?_, ?_, fun jp hj => ?_⟩
  · rw [Function.update_self]
  · rw [Function.update_self, ← hsz, hsame]
    change (if (D inum).size < e then e else (D inum).size).toNat = _
    split_ifs with hlt <;> rw [BitVec.lt_def] at hlt <;> omega
  · rw [slotData_of_inodeBlock h₁ hi hbuf hy, (Spares.of_inodeBlock h₁ hi hbuf).slotPtr hy]
    unfold slotData
    rw [slotPtr_resize]
    exact ⟨rfl, rfl⟩
  · rw [hs.itable, hself]
    exact ⟨rfl, rfl, rfl, rfl, rfl⟩
  · rw [hs.itable, withInode_of_ne _ _ hj]

theorem setSize_ok (h : FsOk D (some inum) fs) (hip : InCore fs ip inum) {e : U32}
    (hle : e.toNat ≤ MAXFILE * BSIZE) (hfill : Filled D fs inum e.toNat) :
    wp (do
      setInode ip fun i => { i with size := if i.size < e then e else i.size }
      iupdate ip : F Unit) FreesOk (fun _ fs' => ∃ D', FsOk D' none fs') fs :=
  ((setSize_total h hip hle hfill).weaken fun _ => LogStuck.freesOk).mono
    fun _ _ ⟨D', h', _⟩ => ⟨D', h'⟩

/-- The slots that a write of `len` bytes at `off` uses: those of the blocks it meets, and that of
the indirect block if it gets there. -/
def touched (off len : ℕ) : Finset ℕ :=
  (Finset.range (MAXFILE + 1)).filter fun n => 0 < len ∧
    (n < MAXFILE ∧ off / BSIZE ≤ n ∧ n * BSIZE < off + len ∨ n = MAXFILE ∧
      NDIRECT * BSIZE < off + len)

/-- `writei` refuses the range. -/
def OutOfFile (fs : Fs) (ip off len : ℕ) : Prop :=
  (fs.itable ip).size.toNat < off ∨ 2 ^ 32 ≤ off + len ∨ MAXFILE * BSIZE < off + len

/-- What `writei` does to inode `inum`, in the table at `ip`. -/
structure Written (ip inum off : ℕ) (bs : List Byte) (D : ℕ → Dinode) (fs : Fs) (D' : ℕ → Dinode)
    (fs' : Fs) : Prop where
  sb : fs'.sb = fs.sb
  nodes : ∀ j, j ≠ inum → D' j = D j
  type : (D' inum).type = (D inum).type
  size : (D' inum).size.toNat = max (D inum).size.toNat (off + bs.length)
  self : ∀ k < MAXFILE * BSIZE, fileByte fs' D' inum k = putBytes (fileByte fs D inum) off bs k
  other : ∀ j < fs.sb.ninodes.toNat, j ≠ inum → ∀ k < MAXFILE * BSIZE,
    fileByte fs' D' j k = fileByte fs D j k
  head : SameHead (fs.itable ip) (fs'.itable ip)
  entries : ∀ jp, jp ≠ ip → fs'.itable jp = fs.itable jp

theorem writei_total (h : FsOk D none fs) (hip : InCore fs ip inum) (off : U32) {bs : List Byte}
    (hlen : bs.length < 2 ^ 32) :
    wp (writei ip off bs) (fun e => ¬ OutOfFile fs ip off.toNat bs.length ∧
      Stuck (touched off.toNat bs.length) inum D fs e) (fun w fs' =>
      OutOfFile fs ip off.toNat bs.length ∧ w = -1 ∧ fs' = fs ∨
      ¬ OutOfFile fs ip off.toNat bs.length ∧ w = bs.length ∧
        ∃ D', FsOk D' none fs' ∧ Written ip inum off.toNat bs D fs D' fs') fs := by
  obtain ⟨hd, ht, hi⟩ := h.inCore hip
  have hofs := off.isLt
  unfold writei
  rw [wp_bind, wp_getInode]
  dsimp only
  by_cases hc : (fs.itable ip).size < off ∨ off + BitVec.ofNat 32 bs.length < off
  · rw [if_pos hc]
    refine .inl ⟨?_, rfl, rfl⟩
    rw [BitVec.lt_def, BitVec.lt_def, BitVec.toNat_add, BitVec.toNat_ofNat] at hc
    exact hc.imp_right fun hwrap => .inl (by omega)
  rw [if_neg hc]
  have hsize : off.toNat ≤ (fs.itable ip).size.toNat := BitVec.not_lt.1 fun hlt => hc (.inl hlt)
  have hnowrap : off.toNat + bs.length < 2 ^ 32 := by
    rw [not_or, BitVec.not_lt, BitVec.not_lt, BitVec.le_def, BitVec.le_def, BitVec.toNat_add,
      BitVec.toNat_ofNat] at hc
    omega
  have hadd : (off + BitVec.ofNat 32 bs.length).toNat = off.toNat + bs.length := by
    rw [BitVec.toNat_add, BitVec.toNat_ofNat]
    omega
  by_cases hbig : MAXFILE * BSIZE < (off + BitVec.ofNat 32 bs.length).toNat
  · rw [if_pos hbig]
    exact .inl ⟨.inr (.inr (hadd ▸ hbig)), rfl, rfl⟩
  rw [if_neg hbig, wp_bind]
  have hin : ¬ OutOfFile fs ip off.toNat bs.length := by
    unfold OutOfFile
    omega
  have hfill : Filled D fs inum off.toNat := by
    intro bn hbn
    refine h.owned.mapped inum hi ht bn (hbn.trans_le ?_)
    rw [← hd]
    exact hsize
  have hV (m : ℕ) (hm : m ∈ touched off.toNat bs.length) : m ≤ MAXFILE :=
    Nat.lt_succ_iff.1 (Finset.mem_range.1 (Finset.mem_of_mem_filter m hm))
  refine ((writeiFrom_total (h.opened _) hip hfill (by omega) le_rfl hV (fun hpos bn hbn hlt => ?_)
    fun hpos hlt => ?_).weaken fun _ he => ⟨hin, he⟩).mono fun _ fs₁ ⟨D₁, h₁, hw, hfill₁⟩ => ?_
  · have hmax : bn < MAXFILE := Nat.lt_of_mul_lt_mul_right (hlt.trans_le (by omega))
    exact Finset.mem_filter.2 ⟨Finset.mem_range.2 (by omega), hpos, .inl ⟨hmax, hbn, hlt⟩⟩
  · exact Finset.mem_filter.2 ⟨Finset.self_mem_range_succ _, hpos, .inr ⟨rfl, hlt⟩⟩
  rw [← bind_assoc, wp_bind]
  refine ((setSize_total h₁ (hip.same hw.head) (by omega) (by rwa [hadd])).weaken fun e he =>
    ⟨hin, hw.toSpends.stuck (.inl (he.mono Budget.length_le_load))⟩).mono
    fun _ fs₂ ⟨D₂, h₂, hsb, htype, hsz, hD, hdata, hhead, hent⟩ => ?_
  rw [wp_pure]
  have hbytes {j k : ℕ} (hj : j < fs₁.sb.ninodes.toNat) (hk : k < MAXFILE * BSIZE) :
      fileByte fs₂ D₂ j k = fileByte fs₁ D₁ j k :=
    congrFun (hdata _ (mem_slotsOf hj (block_of_byte hk).le)).2 _
  have hsb₁ := hw.sb
  refine .inr ⟨hin, ?_, D₂, h₂, hsb.trans hsb₁, fun j hj => (hD j hj).trans (hw.others j hj),
    htype.trans hw.type, ?_,
    fun k hk => ?_, fun j hj hne k hk => ?_, hw.head.trans hhead,
    fun jp hj => (hent jp hj).trans (hw.entries jp hj)⟩
  · rw [BitVec.toInt_eq_toNat_of_lt] <;> rw [BitVec.toNat_ofNat, Nat.mod_eq_of_lt hlen]
    have : MAXFILE * BSIZE < 2 ^ 30 := by decide
    omega
  · rw [hsz, hw.size, hadd]
  · rw [hbytes (hsb₁ ▸ hi) hk, hw.self k hk]
  · rw [hbytes (hsb₁ ▸ hj) hk, hw.other j hj hne k hk]

theorem writei_ok (h : FsOk D none fs) (hip : InCore fs ip inum) (off : U32) {bs : List Byte}
    (hlen : bs.length < 2 ^ 32) :
    wp (writei ip off bs) FreesOk (fun _ fs' => ∃ D', FsOk D' none fs') fs := by
  refine ((writei_total h hip off hlen).weaken fun _ he => he.2.freesOk).mono fun w fs' hw => ?_
  rcases hw with ⟨-, -, rfl⟩ | ⟨-, -, D', h', -⟩
  · exact ⟨D, h⟩
  · exact ⟨D', h'⟩

/-! ### `itrunc` -/

/-- The blocks in the slots `S` of an inode have been given back. -/
structure Freed (D : ℕ → Dinode) (fs : Fs) (inum : ℕ) (S : ℕ → Prop) (fs' : Fs) : Prop where
  sb : fs'.sb = fs.sb
  inLog : fs'.inLog = fs.inLog
  log : LogOk fs'.log
  bit : ∀ b < fs.sb.size.toNat, fs'.bit b = true ↔
    fs.bit b = true ∧ ∀ n, S n → slotPtr fs D (inum, n) ≠ some b
  buf : ∀ b, ¬ InBitmap fs.sb b → fs'.log.buf b = fs.log.buf b

theorem Freed.none (hlog : LogOk fs.log) : Freed D fs inum (fun _ => False) fs :=
  ⟨rfl, rfl, hlog, fun _ _ => ⟨fun h => ⟨h, fun _ => False.elim⟩, fun h => h.1⟩, fun _ _ => rfl⟩

theorem Freed.withInode {S : ℕ → Prop} (h : Freed D fs inum S fs') (i : Inode) :
    Freed D fs inum S (fs'.withInode ip i) := ⟨h.sb, h.inLog, h.log, h.bit, h.buf⟩

/-- Empty slots do not count. -/
theorem Freed.congr {S S' : ℕ → Prop} (h : Freed D fs inum S fs') (hS : ∀ n, S n → S' n)
    (hS' : ∀ n, S' n → S n ∨ slotPtr fs D (inum, n) = Option.none) : Freed D fs inum S' fs' := by
  refine ⟨h.sb, h.inLog, h.log, fun b hb => (h.bit b hb).trans (and_congr_right fun _ =>
    ⟨fun hno n hn hp => ?_, fun hno n hn => hno n (hS n hn)⟩), h.buf⟩
  rcases hS' n hn with hs | hnone
  · exact hno n hs hp
  · rw [hnone] at hp
    cases hp

theorem Freed.layout {S : ℕ → Prop} (h : Freed D fs inum S fs') (hlay : DiskLayout fs) :
    DiskLayout fs' := by
  refine ⟨?_, ?_, ?_⟩
  · rw [h.inLog, h.sb]
    exact hlay.log
  · rw [h.sb]
    exact hlay.inodes
  · rw [h.sb]
    exact hlay.data

/-- A slot that has not been given back still has its block. -/
theorem Freed.marked {S : ℕ → Prop} (hf : Freed D fs inum S fs') (h : Owned D fs)
    (hi : inum < fs.sb.ninodes.toNat) (hn : n ≤ MAXFILE) (hS : ¬ S n)
    (hSle : ∀ m, S m → m ≤ MAXFILE) {b : ℕ} (hp : slotPtr fs D (inum, n) = some b) :
    InData fs'.sb b ∧ fs'.bit b = true := by
  have hin := h.marks.inside _ (mem_slotsOf hi hn) b hp
  refine ⟨hf.sb ▸ hin,
    (hf.bit b hin.2).2 ⟨h.marks.marked (mem_slotsOf hi hn) hp, fun m hm hpm => hS ?_⟩⟩
  have he : m = n :=
    congrArg Prod.snd (h.marks.unique (mem_slotsOf hi (hSle m hm)) (mem_slotsOf hi hn) hpm hp)
  exact he ▸ hm

/-- `bfree` of the blocks in a list of slots. -/
theorem bfreeAll_freed {S : ℕ → Prop} (h : FsOk D x fs) (hi : inum < fs.sb.ninodes.toNat)
    (ht : (D inum).type ≠ 0) (hf : Freed D fs inum S fs') (hSle : ∀ m, S m → m ≤ MAXFILE)
    {ns : List ℕ} (hns : ∀ n ∈ ns, n ≤ MAXFILE ∧ ¬ S n) (hnodup : ns.Nodup) :
    wp (bfreeAll (ns.map (slotEntry fs (D inum)))) FreesOk (fun _ fs'' => SameTables fs' fs'' ∧
      Freed D fs inum (fun n => S n ∨ n ∈ ns) fs'') fs' := by
  have hptr (n : ℕ) (h0 : slotEntry fs (D inum) n ≠ 0) :
      slotPtr fs D (inum, n) = some (slotEntry fs (D inum) n).toNat :=
    slotPtr_eq_some.2 ⟨ht, h0, rfl⟩
  refine (bfreeAll_spec (hf.layout h.layout) hf.log (fun b hb hb0 => ?_) ?_).mono
    fun _ fs₁ ⟨hs, hl, hbit, hbuf⟩ => ⟨hs, ⟨hs.sb.trans hf.sb, hs.inLog.trans hf.inLog, hl,
      fun b hb => ?_, fun b hb => ?_⟩⟩
  · obtain ⟨n, hn, rfl⟩ := List.mem_map.1 hb
    exact hf.marked h.owned hi (hns n hn).1 (hns n hn).2 hSle (hptr n hb0)
  · rw [List.filter_map]
    refine (hnodup.filter _).map_on fun n hn m hm he => ?_
    obtain ⟨hn, hn0⟩ := List.mem_filter.1 hn
    obtain ⟨hm, -⟩ := List.mem_filter.1 hm
    have hn0 : slotEntry fs (D inum) n ≠ 0 := by simpa using hn0
    exact congrArg Prod.snd (h.owned.marks.unique (mem_slotsOf hi (hns n hn).1)
      (mem_slotsOf hi (hns m hm).1) (hptr n hn0) (he ▸ hptr m (he ▸ hn0)))
  · rw [hbit b (hf.sb ▸ hb), hf.bit b hb, and_assoc]
    refine and_congr_right fun _ => ⟨fun ⟨hS, hno⟩ n hn hp => ?_, fun hno =>
      ⟨fun n hn => hno n (.inl hn), fun c hc hc0 he => ?_⟩⟩
    · rcases hn with hn | hn
      · exact hS n hn hp
      · obtain ⟨-, h0, he⟩ := slotPtr_eq_some.1 hp
        exact hno _ (List.mem_map_of_mem hn) h0 he
    · obtain ⟨n, hn, rfl⟩ := List.mem_map.1 hc
      exact hno n (.inr hn) (he ▸ hptr n hc0)
  · rw [hbuf b (hf.sb ▸ hb), hf.buf b hb]

/-- `bfree` of the block in one slot. -/
theorem bfree_freed {S : ℕ → Prop} (h : FsOk D x fs) (hi : inum < fs.sb.ninodes.toNat)
    (hf : Freed D fs inum S fs') (hSle : ∀ m, S m → m ≤ MAXFILE) (hn : n ≤ MAXFILE) (hS : ¬ S n)
    {b : U32} (hp : slotPtr fs D (inum, n) = some b.toNat) :
    wp (bfree b) FreesOk (fun _ fs'' => SameTables fs' fs'' ∧
      Freed D fs inum (fun m => S m ∨ m = n) fs'') fs' := by
  obtain ⟨hdata, hbit⟩ := hf.marked h.owned hi hn hS hSle hp
  refine (bfree_spec (hf.layout h.layout) hf.log hdata hbit).mono fun _ fs₁ ⟨hs, hbuf⟩ =>
    ⟨hs.toSameTables, ⟨hs.sb.trans hf.sb, hs.inLog.trans hf.inLog, hs.logOk, fun c hc => ?_,
      fun c hc => ?_⟩⟩
  · rw [hs.bit c (hf.sb ▸ hc)]
    by_cases hcb : c = b.toNat
    · rw [if_pos hcb]
      exact ⟨nofun, fun hno => absurd (hcb ▸ hp) (hno.2 n (.inr rfl))⟩
    · rw [if_neg hcb, hf.bit c hc]
      refine and_congr_right fun _ => ⟨fun hno m hm => ?_, fun hno m hm => hno m (.inl hm)⟩
      rcases hm with hm | rfl
      · exact hno m hm
      · rw [hp]
        exact fun he => hcb (Option.some.inj he).symm
  · rw [hbuf c (hf.sb ▸ hc), hf.buf c hc]

/-- An inode without blocks. -/
def Dinode.emptied (d : Dinode) : Dinode := { d with size := 0, addrs := fun _ => 0 }

theorem slotEntry_emptied (d : Dinode) (n : ℕ) : slotEntry fs d.emptied n = 0 := by
  unfold slotEntry
  split_ifs
  · rfl
  · rfl
  · rfl
  · exact absurd rfl ‹_›

/-- All blocks of an inode have been given back. -/
theorem Freed.owned (hf : Freed D fs inum (· ≤ MAXFILE) fs') (h : Owned D fs) (hlay : DiskLayout fs)
    (hi : inum < fs.sb.ninodes.toNat) {d : Dinode}
    (hd : d.type = 0 ∨ ∀ n, slotEntry fs' d n = 0) (hd0 : d.size = 0) :
    Owned (Function.update D inum d) fs' := by
  have hsb := hf.sb
  have hother (j : ℕ) (hj : j ≠ inum) : Function.update D inum d j = D j :=
    Function.update_of_ne hj ..
  have hself : Function.update D inum d inum = d := Function.update_self ..
  have hsp : Spares D fs fs' := fun j hj b hb => hf.buf b fun hin => by
    have := (h.indirect hj hb).1.1
    have := hin.2
    omega
  have hnone (y : ℕ × ℕ) (hy : y.1 = inum) :
      slotPtr fs' (Function.update D inum d) y = Option.none := by
    unfold slotPtr
    rw [hy, hself]
    exact if_pos (hd.imp_right fun h0 => h0 _)
  have hptr (y : ℕ × ℕ) (hys : y ∈ slotsOf fs.sb) (hy : ¬ y.1 = inum) :
      slotPtr fs' (Function.update D inum d) y = slotPtr fs D y := by
    rw [← hsp.slotPtr hys]
    exact slotPtr_congr (by rw [hother _ hy]) (by rw [hother _ hy])
  refine ⟨?_, fun b hb => ?_, fun j hj ht => ?_, fun j hj ht bn hbn => ?_⟩
  · rw [hsb]
    refine h.marks.unlink (fun y _ => hnone y) hptr fun b hb => (hf.bit b hb.2).trans ?_
    refine and_congr_right fun _ => ⟨fun hno y hy hyi => ?_, fun hno n hn => ?_⟩
    · rw [← hyi] at hno
      exact hno y.2 (mem_slotsOf_iff.1 hy).2
    · exact hno _ (mem_slotsOf hi hn) rfl
  · rw [hsb] at hb
    have hdata := hlay.data
    refine (hf.bit b (by omega)).2 ⟨h.low b hb, fun n hn hp => ?_⟩
    have := (h.marks.inside _ (mem_slotsOf hi hn) b hp).1
    omega
  · rw [hsb] at hj
    by_cases hji : j = inum
    · rw [hji, hself, hd0]
      exact Nat.zero_le _
    · rw [hother j hji] at ht ⊢
      exact h.size_le j hj ht
  · rw [hsb] at hj
    by_cases hji : j = inum
    · rw [hji, hself, hd0] at hbn
      exact absurd hbn (Nat.not_lt_zero _)
    · rw [hother j hji] at ht hbn
      rw [hptr _ (mem_slotsOf hj (h.block_lt hj ht hbn).le) hji]
      exact h.mapped j hj ht bn hbn

/-- An inode without blocks is replaced by another. -/
theorem Owned.replace (h : Owned D fs) (hlay : DiskLayout fs) (hlog : LogOk fs.log)
    (hi : inum < fs.sb.ninodes.toNat) (hnone : ∀ n, slotPtr fs D (inum, n) = none) {d : Dinode}
    (hd : d.type = 0 ∨ ∀ n, slotEntry fs d n = 0) (hd0 : d.size = 0) :
    Owned (Function.update D inum d) fs :=
  (Freed.congr (.none hlog) (fun _ => False.elim) fun n _ => .inr (hnone n)).owned h hlay hi hd hd0

/-- The end of `itrunc`, when the blocks have been given back. -/
theorem truncEnd_ok (h : FsOk D (some inum) fs) (hip : InCore fs ip inum)
    (hf : Freed D fs inum (· ≤ MAXFILE) fs')
    (hothers : ∀ jp, jp ≠ ip → fs'.itable jp = fs.itable jp)
    (hhead : SameHead (fs.itable ip) (fs'.itable ip))
    (htype : (fs'.itable ip).type = (fs.itable ip).type)
    (haddrs : ∀ n ≤ NDIRECT, (fs'.itable ip).addrs n = 0) :
    wp (do
      setInode ip fun i => { i with size := 0 }
      iupdate ip : F Unit) FreesOk (fun _ fs'' =>
        FsOk (Function.update D inum (D inum).emptied) none fs'' ∧
        SameHead (fs.itable ip) (fs''.itable ip) ∧
        ∀ jp, jp ≠ ip → fs''.itable jp = fs.itable jp) fs' := by
  obtain ⟨hd, ht, hi⟩ := h.inCore hip
  rw [wp_bind, wp_setInode]
  set fs₁ := fs'.withInode ip { fs'.itable ip with size := 0 } with hfs₁
  have hself : fs₁.itable ip = { fs'.itable ip with size := 0 } := withInode_self ..
  have hothers₁ (jp : ℕ) (hj : jp ≠ ip) : fs₁.itable jp = fs.itable jp :=
    (withInode_of_ne _ _ hj).trans (hothers jp hj)
  have hhead₁ : SameHead (fs.itable ip) (fs₁.itable ip) := by
    rw [hself]
    exact hhead.trans ⟨rfl, rfl, rfl, rfl, rfl⟩
  have h₁ : FsOk (Function.update D inum (D inum).emptied) (some inum) fs₁ := by
    have hf₁ : Freed D fs inum (· ≤ MAXFILE) fs₁ := hf.withInode _
    refine h.change hip hf.sb hf.inLog hf.log (hf₁.owned h.owned h.layout hi
      (.inr fun n => slotEntry_emptied _ n) rfl)
      (fun j hj => Function.update_of_ne hj ..) (fun y _ hy => hf.buf y fun hin => ?_) hothers₁
      hhead₁ ?_ ?_
    · have := hin.1
      omega
    · rw [hself, Function.update_self]
      refine Dinode.ext (htype.trans (congrArg Dinode.type hd)) rfl (funext fun n => ?_)
      change (if n ≤ NDIRECT then (fs'.itable ip).addrs n else 0) = 0
      split_ifs with hn
      · exact haddrs n hn
      · rfl
    · rw [Function.update_self]
      exact ht
  refine (iupdate_ok h₁ (hip.same hhead₁)).mono fun _ fs₂ ⟨h₂, hs₂⟩ => ⟨h₂, ?_, fun jp hj => ?_⟩
  · rw [hs₂.itable]
    exact hhead₁
  · rw [hs₂.itable, hothers₁ jp hj]

/-- `itrunc` gives all blocks of an inode back. -/
theorem itrunc_ok (h : FsOk D (some inum) fs) (hip : InCore fs ip inum) :
    wp (itrunc ip) FreesOk (fun _ fs' => FsOk (Function.update D inum (D inum).emptied) none fs' ∧
      SameHead (fs.itable ip) (fs'.itable ip) ∧
      ∀ jp, jp ≠ ip → fs'.itable jp = fs.itable jp) fs := by
  obtain ⟨hd, ht, hi⟩ := h.inCore hip
  have hMAX : MAXFILE = NDIRECT + NINDIRECT := rfl
  have hdirect : (List.range NDIRECT).map (fs.itable ip).addrs =
      (List.range NDIRECT).map (slotEntry fs (D inum)) := List.map_congr_left fun n hn => by
    have hn := List.mem_range.1 hn
    rw [slotEntry_direct hn, h.inCore_addrs hip hn.le]
  have hind : (D inum).addrs NDIRECT = (fs.itable ip).addrs NDIRECT := h.inCore_addrs hip le_rfl
  unfold itrunc
  rw [wp_bind, wp_getInode, wp_bind, hdirect]
  refine (bfreeAll_freed h hi ht (.none h.log) (fun _ => False.elim)
    (fun n hn => ⟨by have := List.mem_range.1 hn; omega, id⟩) List.nodup_range).mono
    fun _ fs₁ ⟨hs₁, hf₁⟩ => ?_
  have hf₁ : Freed D fs inum (· < NDIRECT) fs₁ :=
    hf₁.congr (by simp) fun n hn => .inl (by simpa using hn)
  rw [wp_bind, wp_setInode, hs₁.itable]
  generalize hi₁ : ({ fs.itable ip with
    addrs := fun n => if n < NDIRECT then 0 else (fs.itable ip).addrs n } : Inode) = i₁
  have hf₂ : Freed D fs inum (· < NDIRECT) (fs₁.withInode ip i₁) := hf₁.withInode _
  have hself : (fs₁.withInode ip i₁).itable ip = i₁ := withInode_self ..
  have hothers (jp : ℕ) (hj : jp ≠ ip) : (fs₁.withInode ip i₁).itable jp = fs.itable jp :=
    (withInode_of_ne _ _ hj).trans (by rw [hs₁.itable])
  by_cases h0 : (fs.itable ip).addrs NDIRECT = 0
  · -- there is no indirect block, so the other slots are empty
    rw [if_neg (not_not.2 h0)]
    have hf₃ : Freed D fs inum (· ≤ MAXFILE) (fs₁.withInode ip i₁) := by
      refine hf₂.congr (fun n hn => by omega) fun n hn => ?_
      by_cases hlt : n < NDIRECT
      · exact .inl hlt
      · refine .inr (slotPtr_eq_none ?_)
        by_cases hm : n = MAXFILE
        · rw [hm, slotEntry_indirect, hind, h0]
        · exact slotEntry_entry_of_zero (by omega) hm (hind.trans h0)
    refine truncEnd_ok h hip hf₃ hothers ?_ ?_ fun n hn => ?_ <;> rw [hself, ← hi₁]
    · exact ⟨rfl, rfl, rfl, rfl, rfl⟩
    · dsimp only
      split_ifs with hlt
      · rfl
      · rw [show n = NDIRECT by omega, h0]
  have hip0 : slotPtr fs D (inum, MAXFILE) = some ((fs.itable ip).addrs NDIRECT).toNat :=
    hind ▸ slotPtr_indirect ht (hind ▸ h0)
  have hbuf : (fs₁.withInode ip i₁).log.buf ((fs.itable ip).addrs NDIRECT).toNat =
      fs.log.buf ((fs.itable ip).addrs NDIRECT).toNat := hf₂.buf _ fun hin => by
    have := (h.owned.indirect hi hip0).1.1
    have := hin.2
    omega
  rw [if_pos h0, wp_bind, wp_bread, wp_bind, hbuf]
  have hentries : ((List.range NINDIRECT).map fun j => loadW 32 (fs.log.buf
      ((fs.itable ip).addrs NDIRECT).toNat) (4 * j)) =
      ((List.range NINDIRECT).map (NDIRECT + ·)).map (slotEntry fs (D inum)) := by
    rw [List.map_map]
    refine List.map_congr_left fun n hn => ?_
    have hn := List.mem_range.1 hn
    rw [Function.comp_apply, slotEntry_entry (by omega) (by omega) (hind ▸ h0), hind,
      Nat.add_sub_cancel_left]
  rw [hentries]
  refine (bfreeAll_freed h hi ht hf₂ (fun m hm => by omega) (fun n hn => ?_)
    (List.nodup_range.map (add_right_injective NDIRECT))).mono fun _ fs₃ ⟨hs₃, hf₃⟩ => ?_
  · obtain ⟨j, hj, rfl⟩ := List.mem_map.1 hn
    have := List.mem_range.1 hj
    omega
  have hf₃ : Freed D fs inum (· < MAXFILE) fs₃ := by
    refine hf₃.congr (fun n hn => ?_) fun n hn => .inl ?_
    · rcases hn with hn | hn
      · omega
      · obtain ⟨j, hj, rfl⟩ := List.mem_map.1 hn
        have := List.mem_range.1 hj
        omega
    · by_cases hlt : n < NDIRECT
      · exact .inl hlt
      · exact .inr (List.mem_map.2 ⟨n - NDIRECT, List.mem_range.2 (by omega), by omega⟩)
  rw [wp_bind]
  refine (bfree_freed h hi hf₃ (fun m hm => hm.le) le_rfl (lt_irrefl _) hip0).mono
    fun _ fs₄ ⟨hs₄, hf₄⟩ => ?_
  have hf₄ : Freed D fs inum (· ≤ MAXFILE) fs₄ :=
    hf₄.congr (fun n hn => by omega) fun n hn => .inl (by omega)
  have hitable : fs₄.itable = (fs₁.withInode ip i₁).itable := hs₄.itable.trans hs₃.itable
  rw [wp_bind, wp_setInode, hitable, hself]
  have hself₅ (i : Inode) : (fs₄.withInode ip i).itable ip = i := withInode_self ..
  refine truncEnd_ok h hip (hf₄.withInode _) (fun jp hj => ?_) ?_ ?_ fun n hn => ?_
  · rw [withInode_of_ne _ _ hj, hitable, hothers jp hj]
  all_goals rw [hself₅, ← hi₁]
  · exact ⟨rfl, rfl, rfl, rfl, rfl⟩
  · dsimp only
    rw [Function.update_apply]
    split_ifs with he hlt
    · rfl
    · rfl
    · omega

/-! ### Entries of the inode table -/

theorem Owned.withInode (h : Owned D fs) (i : Inode) : Owned D (fs.withInode ip i) :=
  ⟨h.marks, h.low, h.size_le, h.mapped⟩

/-- An entry of the table changes, but not the inode it is for. -/
theorem FsOk.setEntry (h : FsOk D x fs) {i : Inode} (href : 0 < i.ref → 0 < (fs.itable ip).ref)
    (hdev : i.dev = (fs.itable ip).dev) (hinum : i.inum = (fs.itable ip).inum)
    (hmem : 0 < i.ref → i.valid → i.dinode = D i.inum.toNat ∧ i.type ≠ 0) :
    FsOk D x (fs.withInode ip i) := by
  have hself := withInode_self fs ip i
  have hother (jp : ℕ) (hj : jp ≠ ip) := withInode_of_ne fs i hj
  have hrefs (jp : ℕ) (hr : 0 < ((fs.withInode ip i).itable jp).ref) : 0 < (fs.itable jp).ref := by
    by_cases hj : jp = ip
    · subst hj
      rw [hself] at hr
      exact href hr
    · rwa [hother jp hj] at hr
  have hinums (jp : ℕ) : ((fs.withInode ip i).itable jp).dev = (fs.itable jp).dev ∧
      ((fs.withInode ip i).itable jp).inum = (fs.itable jp).inum := by
    by_cases hj : jp = ip
    · subst hj
      rw [hself]
      exact ⟨hdev, hinum⟩
    · rw [hother jp hj]
      exact ⟨rfl, rfl⟩
  refine ⟨⟨h.layout.log, h.layout.inodes, h.layout.data⟩, h.log, h.owned.withInode i, h.disk,
    fun jp hr hv => ?_, fun jp hr => ?_, fun jp jp' hr hr' he => ?_⟩
  · by_cases hj : jp = ip
    · subst hj
      rw [hself] at hr hv ⊢
      exact hmem hr hv
    · rw [hother jp hj] at hr hv ⊢
      exact h.mem jp hr hv
  · rw [(hinums jp).1, (hinums jp).2]
    exact h.inum jp (hrefs jp hr)
  · rw [(hinums jp).2, (hinums jp').2] at he
    exact h.unique jp jp' (hrefs jp hr) (hrefs jp' hr') he

/-- An entry of the table changes, but not what it says about an inode. -/
theorem FsOk.withInode (h : FsOk D x fs) {i : Inode} (href : 0 < i.ref → 0 < (fs.itable ip).ref)
    (hdev : i.dev = (fs.itable ip).dev) (hinum : i.inum = (fs.itable ip).inum)
    (hvalid : i.valid → (fs.itable ip).valid ∧ i.dinode = (fs.itable ip).dinode) :
    FsOk D x (fs.withInode ip i) := by
  refine h.setEntry href hdev hinum fun hr hv => ?_
  obtain ⟨hv, hd⟩ := hvalid hv
  obtain ⟨hm, ht⟩ := h.mem ip (href hr) hv
  rw [hd, hinum]
  exact ⟨hm, fun h0 => ht ((congrArg Dinode.type hd).symm.trans h0)⟩

/-- `iget` of an inode of the disk. -/
theorem iget_ok (h : FsOk D x fs) {inum : U32} (hi : inum.toNat < fs.sb.ninodes.toNat) :
    wp (iget ROOTDEV inum) FreesOk (fun _ fs' => FsOk D x fs') fs := by
  unfold iget
  rw [wp_bind, wp_get]
  dsimp only
  split
  · rename_i jp hfind
    have hknown := List.find?_some hfind
    rw [decide_eq_true_eq] at hknown
    rw [wp_bind, wp_setInode, wp_pure]
    exact h.withInode (fun _ => hknown.1) rfl rfl fun hv => ⟨hv, rfl⟩
  rename_i hnone
  split
  · exact (by decide : FreesOk (.panic "iget: no inodes"))
  rename_i jp hfree
  have hjp : jp < NINODE := List.mem_range.1 (List.mem_of_find?_eq_some hfree)
  have hnew (kp : ℕ) (hr : 0 < (fs.itable kp).ref) : (fs.itable kp).inum ≠ inum := by
    obtain ⟨hkp, hdev, -⟩ := h.inum kp hr
    have := List.find?_eq_none.1 hnone kp (List.mem_range.2 hkp)
    rw [decide_eq_true_eq] at this
    exact fun he => this ⟨hr, hdev, he⟩
  rw [wp_bind, wp_setInode, wp_pure]
  set i : Inode := { fs.itable jp with dev := ROOTDEV, inum := inum, ref := 1, valid := false }
  have hself := withInode_self fs jp i
  have hother (kp : ℕ) (hk : kp ≠ jp) := withInode_of_ne fs i hk
  refine ⟨⟨h.layout.log, h.layout.inodes, h.layout.data⟩, h.log, h.owned.withInode i, h.disk,
    fun kp hr hv => ?_, fun kp hr => ?_, fun kp kp' hr hr' he => ?_⟩
  · by_cases hk : kp = jp
    · rw [hk, hself] at hv
      cases hv
    · rw [hother kp hk] at hr hv ⊢
      exact h.mem kp hr hv
  · by_cases hk : kp = jp
    · rw [hk, hself]
      exact ⟨hjp, rfl, hi⟩
    · rw [hother kp hk] at hr ⊢
      exact h.inum kp hr
  · by_cases hk : kp = jp <;> by_cases hk' : kp' = jp
    · rw [hk, hk']
    · rw [hk, hself, hother kp' hk'] at he
      rw [hother kp' hk'] at hr'
      exact absurd he.symm (hnew kp' hr')
    · rw [hk', hself, hother kp hk] at he
      rw [hother kp hk] at hr
      exact absurd he (hnew kp hr)
    · rw [hother kp hk] at hr he
      rw [hother kp' hk'] at hr' he
      exact h.unique kp kp' hr hr' he

/-- The inode on disk, as `ilock` reads it. -/
theorem loaded_dinode (hlay : DiskLayout fs) (hinum : (fs.itable ip).inum.toNat = inum)
    (hi : inum < fs.sb.ninodes.toNat) (hv : (fs.itable ip).valid = false) :
    (fs.loaded ip).dinode = fs.dinode inum := by
  have hblk : (iblock fs.sb (fs.itable ip).inum).1.toNat = inodeBlockOf fs.sb inum := by
    rw [← toNat_iblock hlay hi, ← hinum, BitVec.ofNat_toNat, BitVec.setWidth_eq]
  unfold Fs.loaded Fs.dinode
  rw [← hblk]
  simp only [hv, Bool.false_eq_true, if_false]
  rw [← hinum]
  rfl

/-- `ilock`: the inode is filled in and locked. -/
theorem wp_ilock {E : Stop → Prop} {Q : Unit → Fs → Prop} (fs : Fs) (ip : ℕ) :
    wp (ilock ip) E Q fs ↔
      if (fs.itable ip).ref < 1 then E (.panic "ilock")
      else if (fs.itable ip).locked = true then E .sleep
      else if (fs.itable ip).valid = false ∧ (fs.loaded ip).type = 0 then
        E (.panic "ilock: no type")
      else Q () (fs.withInode ip { fs.loaded ip with locked := true }) := by
  unfold ilock acquireInode
  rw [wp_bind, wp_getInode, wp_bind, wp_panicIf]
  by_cases href : (fs.itable ip).ref < 1
  · rw [if_pos href, if_pos href]
  rw [if_neg href, if_neg href, wp_bind, wp_bind, wp_getInode]
  by_cases hlock : (fs.itable ip).locked = true
  · rw [if_pos hlock, if_pos hlock]
    exact Iff.rfl
  rw [if_neg hlock, if_neg hlock, wp_setInode]
  by_cases hv : (fs.itable ip).valid = true
  · rw [if_neg (by simp [hv]), loaded_of_valid hv, if_neg (by simp [hv])]
    exact Iff.rfl
  have hload : fs.loaded ip = { fs.itable ip with
      type := loadW 16 (fs.log.buf (iblock fs.sb (fs.itable ip).inum).1.toNat)
        (iblock fs.sb (fs.itable ip).inum).2
      major := loadW 16 (fs.log.buf (iblock fs.sb (fs.itable ip).inum).1.toNat)
        ((iblock fs.sb (fs.itable ip).inum).2 + 2)
      minor := loadW 16 (fs.log.buf (iblock fs.sb (fs.itable ip).inum).1.toNat)
        ((iblock fs.sb (fs.itable ip).inum).2 + 4)
      nlink := loadW 16 (fs.log.buf (iblock fs.sb (fs.itable ip).inum).1.toNat)
        ((iblock fs.sb (fs.itable ip).inum).2 + 6)
      size := loadW 32 (fs.log.buf (iblock fs.sb (fs.itable ip).inum).1.toNat)
        ((iblock fs.sb (fs.itable ip).inum).2 + 8)
      addrs := fun n => loadW 32 (fs.log.buf (iblock fs.sb (fs.itable ip).inum).1.toNat)
        ((iblock fs.sb (fs.itable ip).inum).2 + 12 + 4 * n)
      valid := true } := by
    unfold Fs.loaded
    dsimp only
    rw [if_neg hv]
    rfl
  rw [if_pos (by simp [hv]), wp_bind, wp_get]
  dsimp only
  rw [wp_bind, wp_bread, wp_bind, wp_setInode, wp_panicIf, hload]
  by_cases h0 : loadW 16 (fs.log.buf (iblock fs.sb (fs.itable ip).inum).1.toNat)
      (iblock fs.sb (fs.itable ip).inum).2 = (0 : U16)
  · exact (iff_of_eq (if_pos h0)).trans (iff_of_eq (if_pos ⟨by simpa using hv, h0⟩)).symm
  · refine (iff_of_eq (if_neg h0)).trans (Iff.trans ?_ (iff_of_eq (if_neg fun h => h0 h.2)).symm)
    unfold Fs.withInode
    simp only [Function.update_self, Function.update_idem]

/-- What `ilock` found. -/
theorem ilock_spec (fs : Fs) (ip : ℕ) :
    wp (ilock ip) FreesOk (fun _ fs' => fs' = fs.withInode ip { fs.loaded ip with locked := true } ∧
      0 < (fs.itable ip).ref ∧ (fs.itable ip).locked = false ∧
      ((fs.itable ip).valid = false → (fs.loaded ip).type ≠ 0)) fs := by
  rw [wp_ilock]
  split_ifs with href hlock h0
  · exact (by decide : FreesOk (.panic "ilock"))
  · exact (by decide : FreesOk .sleep)
  · exact (by decide : FreesOk (.panic "ilock: no type"))
  · exact ⟨rfl, by omega, by simpa using hlock, fun hv ht => h0 ⟨hv, ht⟩⟩

/-- `ilock` of an inode that is not being changed. -/
theorem ilock_ok (h : FsOk D x fs)
    (hx : 0 < (fs.itable ip).ref → x = some (fs.itable ip).inum.toNat →
      (fs.itable ip).locked = true) :
    wp (ilock ip) FreesOk (fun _ fs' => FsOk D x fs' ∧ fs'.log = fs.log ∧ fs'.sb = fs.sb ∧
      InCore fs' ip (fs.itable ip).inum.toNat ∧ (fs.itable ip).locked = false ∧
      (fs'.itable ip).locked = true ∧ ∀ jp, jp ≠ ip → fs'.itable jp = fs.itable jp) fs := by
  refine (ilock_spec fs ip).mono ?_
  rintro _ _ ⟨rfl, href, hlock, htype⟩
  have hself := withInode_self fs ip { fs.loaded ip with locked := true }
  have hcore : InCore (fs.withInode ip { fs.loaded ip with locked := true }) ip
      (fs.itable ip).inum.toNat := by
    refine ⟨?_, ?_, ?_⟩ <;> rw [hself]
    · exact (loaded_ref fs ip).symm ▸ href
    · exact loaded_valid fs ip
    · exact congrArg BitVec.toNat (loaded_inum fs ip)
  refine ⟨?_, rfl, rfl, hcore, hlock, by rw [hself], fun jp hj => withInode_of_ne _ _ hj⟩
  by_cases hv : (fs.itable ip).valid = true
  · rw [loaded_of_valid hv]
    exact h.withInode (fun _ => href) rfl rfl fun _ => ⟨hv, rfl⟩
  have hv : (fs.itable ip).valid = false := by simpa using hv
  obtain ⟨hjp, hdev, hi⟩ := h.inum ip href
  have hd := loaded_dinode h.layout rfl hi hv
  have hdisk : fs.dinode (fs.itable ip).inum.toNat = D (fs.itable ip).inum.toNat :=
    h.disk _ hi fun he => by
      rw [hx href he] at hlock
      cases hlock
  refine h.setEntry (fun _ => href) ?_ (loaded_inum fs ip) fun _ _ => ⟨?_, htype hv⟩
  · unfold Fs.loaded
    dsimp only
    split_ifs
    rfl
  · rw [loaded_inum, ← hdisk, ← hd]
    rfl

theorem iunlock_ok (h : FsOk D x fs) (ip : ℕ) :
    wp (iunlock ip) FreesOk (fun _ fs' => FsOk D x fs' ∧
      fs' = fs.withInode ip { fs.itable ip with locked := false }) fs := by
  unfold iunlock
  rw [wp_bind, wp_getInode, wp_bind, wp_panicIf]
  split_ifs with hc
  · exact (by decide : FreesOk (.panic "iunlock"))
  · rw [wp_setInode]
    exact ⟨h.withInode id rfl rfl fun hv => ⟨hv, rfl⟩, rfl⟩

/-! ### Freeing and allocating inodes -/

/-- An entry of the table is given up, and its inode may have changed. -/
theorem FsOk.dropped (h : FsOk D none fs) (hip : 0 < (fs.itable ip).ref) (hsb : fs'.sb = fs.sb)
    (hlay : DiskLayout fs') (hlog : LogOk fs'.log) (howned : Owned D' fs')
    (hdisk : ∀ j < fs.sb.ninodes.toNat, fs'.dinode j = D' j)
    (hD : ∀ j, j ≠ (fs.itable ip).inum.toNat → D' j = D j)
    (hother : ∀ jp, jp ≠ ip → fs'.itable jp = fs.itable jp) (href : (fs'.itable ip).ref = 0) :
    FsOk D' none fs' := by
  have hne (jp : ℕ) (hr : 0 < (fs'.itable jp).ref) : jp ≠ ip := by
    rintro rfl
    omega
  refine ⟨hlay, hlog, howned, fun j hj _ => hdisk j (hsb ▸ hj), fun jp hr hv => ?_, fun jp hr => ?_,
    fun jp jp' hr hr' he => ?_⟩
  · have hj := hne jp hr
    rw [hother jp hj] at hr hv ⊢
    rw [hD _ fun he => hj (h.unique jp ip hr hip (BitVec.eq_of_toNat_eq he))]
    exact h.mem jp hr hv
  · have hj := hother jp (hne jp hr)
    rw [hj] at hr ⊢
    rw [hsb]
    exact h.inum jp hr
  · have hj := hother jp (hne jp hr)
    have hj' := hother jp' (hne jp' hr')
    rw [hj] at hr he
    rw [hj'] at hr' he
    exact h.unique jp jp' hr hr' he

/-- The end of `iput` for an inode without links: it has no blocks, and its type becomes 0. -/
theorem freeInode_ok (h : FsOk D none fs) (hip : InCore fs ip inum) (hone : (fs.itable ip).ref = 1)
    (hnone : ∀ n, slotPtr fs D (inum, n) = none) :
    wp (do
      setInode ip fun i => { i with type := 0 }
      iupdate ip
      setInode ip fun i => { i with valid := false, locked := false }
      setInode ip fun i => { i with ref := i.ref - 1 } : F Unit) FreesOk
      (fun _ fs' => ∃ D', FsOk D' none fs') fs := by
  obtain ⟨hd, ht, hi⟩ := h.inCore hip
  have hsize : (D inum).size = 0 := by
    by_contra hne
    refine h.owned.mapped inum hi ht 0 ?_ (hnone 0)
    rw [zero_mul]
    exact Nat.pos_of_ne_zero fun h0 => hne (BitVec.eq_of_toNat_eq h0)
  rw [wp_bind, wp_setInode]
  generalize hi₁ : ({ fs.itable ip with type := 0 } : Inode) = i₁
  have hself : (fs.withInode ip i₁).itable ip = i₁ := withInode_self ..
  have hlay : DiskLayout (fs.withInode ip i₁) := ⟨h.layout.log, h.layout.inodes, h.layout.data⟩
  have hinum : ((fs.withInode ip i₁).itable ip).inum.toNat = inum := by
    rw [hself, ← hi₁]
    exact hip.inum
  have hlog : LogOk (fs.withInode ip i₁).log := h.log
  rw [wp_bind]
  refine (iupdate_writes hlay hlog hinum hi).mono fun _ fs₂ ⟨hs, hl, hbuf, hnode⟩ => ?_
  rw [hself] at hnode
  have hsb : fs₂.sb = fs.sb := hs.sb
  have howned : Owned (Function.update D inum i₁.dinode) fs₂ := by
    have hsp : Spares D fs fs₂ := .of_inodeBlock h hi hbuf
    have hf : Owned D fs₂ := h.owned.frame h.layout hsb
      (fun y => bitmap_of_inodeBlock h.layout hi hbuf) hsp
    refine hf.replace (hlay.same hs) hl (hsb ▸ hi) (fun n => ?_) (.inl ?_) ?_
    · rw [slotPtr_congr rfl (hsp.slotEntry hi ht n), hnone n]
    · rw [← hi₁]
      rfl
    · rw [← hi₁]
      exact (congrArg Dinode.size hd).trans hsize
  rw [wp_bind, wp_setInode, wp_setInode, withInode_self]
  refine ⟨_, h.dropped hip.ref hsb ⟨?_, ?_, ?_⟩ hl ((howned.withInode _).withInode _)
    (fun j hj => (hnode j).trans ?_) (fun j hj => Function.update_of_ne (hip.inum ▸ hj) ..)
    (fun jp hj => ?_) ?_⟩
  · exact (hlay.same hs).log
  · exact (hlay.same hs).inodes
  · exact (hlay.same hs).data
  · rw [Function.update_apply]
    exact if_congr Iff.rfl rfl (h.disk j hj nofun)
  · rw [withInode_of_ne _ _ hj, withInode_of_ne _ _ hj, hs.itable, withInode_of_ne _ _ hj]
  · rw [withInode_self, hs.itable, hself, ← hi₁]
    exact sub_eq_zero.2 hone

/-- `iput`. -/
theorem iput_ok (h : FsOk D none fs) (href : 0 < (fs.itable ip).ref) :
    wp (iput ip) FreesOk (fun _ fs' => ∃ D', FsOk D' none fs') fs := by
  unfold iput
  rw [wp_bind, wp_getInode]
  by_cases hc : (fs.itable ip).ref = 1 ∧ (fs.itable ip).valid = true ∧ (fs.itable ip).nlink = 0
  · rw [if_pos hc, wp_bind, acquireInode, wp_bind, wp_getInode]
    by_cases hlock : (fs.itable ip).locked = true
    · rw [if_pos hlock]
      exact (by decide : FreesOk .sleep)
    rw [if_neg hlock, wp_setInode]
    have h₁ : FsOk D none (fs.withInode ip { fs.itable ip with locked := true }) :=
      h.withInode id rfl rfl fun hv => ⟨hv, rfl⟩
    have hip₁ : InCore (fs.withInode ip { fs.itable ip with locked := true }) ip
        (fs.itable ip).inum.toNat := by
      refine ⟨?_, ?_, ?_⟩ <;> rw [withInode_self]
      · exact href
      · exact hc.2.1
    rw [wp_bind]
    refine (itrunc_ok (h₁.opened _) hip₁).mono fun _ fs₂ ⟨h₂, hhead, _⟩ => ?_
    refine freeInode_ok h₂ (hip₁.same hhead) ?_ fun n => slotPtr_eq_none ?_
    · rw [hhead.ref, withInode_self]
      exact hc.1
    · rw [Function.update_self]
      exact slotEntry_emptied _ n
  · rw [if_neg hc, wp_setInode]
    exact ⟨D, h.withInode (fun _ => href) rfl rfl fun hv => ⟨hv, rfl⟩⟩

/-- A new inode on disk has no blocks. -/
theorem dinodeIn_new (bp : Block) (inum : ℕ) (type : U16) :
    dinodeIn (storeW (fun y => if inum % IPB * 64 ≤ y ∧ y < inum % IPB * 64 + 64 then 0 else bp y)
      (inum % IPB * 64) type) inum = ⟨type, 0, fun _ => 0⟩ := by
  generalize ho : inum % IPB * 64 = o
  have hzero (k : ℕ) (hk : 2 ≤ k) (hk' : k + 4 ≤ 64) : loadW 32 (storeW (fun y =>
      if o ≤ y ∧ y < o + 64 then 0 else bp y) o type) (o + k) = (0 : U32) := by
    rw [loadW_storeW_of_disjoint (by omega)]
    calc _ = loadW 32 (fun _ => 0#8) (o + k) := loadW_congr fun y hy hy' => if_pos (by omega)
      _ = 0 := loadW_zero _
  unfold dinodeIn
  rw [ho]
  refine Dinode.ext (loadW_storeW (by decide) ..) (hzero 8 (by decide) (by decide))
    (funext fun n => ?_)
  change (if n ≤ NDIRECT then _ else _) = (0 : U32)
  split_ifs with hn
  · have hn : n ≤ 12 := hn
    rw [add_assoc]
    exact hzero _ (by omega) (by omega)
  · rfl

/-- `ialloc` marks a free inode as allocated. -/
theorem ialloc_ok (h : FsOk D none fs) (type : U16) :
    wp (ialloc ROOTDEV type) FreesOk (fun _ fs' => ∃ D', FsOk D' none fs') fs := by
  unfold ialloc
  rw [wp_bind, wp_get]
  dsimp only
  split
  · exact (by decide : FreesOk (.panic "ialloc: no inodes"))
  rename_i inum hfind
  have hi : inum < fs.sb.ninodes.toNat :=
    List.mem_range.1 (List.mem_of_mem_drop (List.mem_of_find?_eq_some hfind))
  have hblk := toNat_iblock h.layout hi
  have hofs : (iblock fs.sb (BitVec.ofNat 32 inum)).2 = inum % IPB * 64 := by
    have := fs.sb.ninodes.isLt
    rw [iblock, BitVec.toNat_ofNat, Nat.mod_eq_of_lt (by omega)]
  have hfree : (D inum).type = 0 := by
    have hload := List.find?_some hfind
    rw [decide_eq_true_eq, hblk, hofs] at hload
    rw [← h.disk inum hi (Option.some_ne_none _).symm]
    exact hload
  have hout : ¬ fs.inLog (iblock fs.sb (BitVec.ofNat 32 inum)).1.toNat := by
    rw [hblk]
    exact h.layout.not_inLog (inodeBlockOf_lt h.layout hi).1
  rw [wp_bind, wp_bread, wp_bind]
  refine (fsLogWrite_freesOk h.log hout _).mono ?_
  rintro _ fs₁ ⟨hs, hl, hbuf⟩
  rw [hblk, hofs] at hbuf
  have hnode (j : ℕ) : fs₁.dinode j = if j = inum then ⟨type, 0, fun _ => 0⟩ else fs.dinode j := by
    rw [dinode_setInode hs.sb hbuf fun y hy => ?_, dinodeIn_new]
    rw [storeW_of_not_mem (by omega), if_neg (by omega)]
  have hbuf' (y : ℕ) (hy : y ≠ inodeBlockOf fs.sb inum) : fs₁.log.buf y = fs.log.buf y := by
    rw [hbuf, Function.update_of_ne hy]
  have hnone (fs₂ : Fs) (n : ℕ) : slotPtr fs₂ D (inum, n) = none := if_pos (.inl hfree)
  have hf : Owned D fs₁ := h.owned.frame h.layout hs.sb
    (fun y => bitmap_of_inodeBlock h.layout hi hbuf') (.of_inodeBlock h hi hbuf')
  have howned : Owned (Function.update D inum ⟨type, 0, fun _ => 0⟩) fs₁ :=
    hf.replace (h.layout.same hs) hl (hs.sb ▸ hi) (hnone fs₁)
      (.inr fun n => slotEntry_emptied ⟨type, 0, fun _ => 0⟩ n) rfl
  have h₁ : FsOk (Function.update D inum ⟨type, 0, fun _ => 0⟩) none fs₁ := by
    refine ⟨h.layout.same hs, hl, howned, fun j hj _ => ?_, fun jp hr hv => ?_, ?_, ?_⟩
    · rw [hnode, Function.update_apply]
      exact if_congr Iff.rfl rfl (h.disk j (hs.sb ▸ hj) (Option.some_ne_none _).symm)
    · -- a valid entry is for an inode that is in use
      rw [hs.itable] at hr hv ⊢
      obtain ⟨hd, ht⟩ := h.mem jp hr hv
      rw [Function.update_of_ne, hd]
      · exact ⟨rfl, ht⟩
      · intro he
        rw [he] at hd
        exact ht ((congrArg Dinode.type hd).trans hfree)
    · rw [hs.itable, hs.sb]
      exact h.inum
    · rw [hs.itable]
      exact h.unique
  have hi' : (BitVec.ofNat 32 inum).toNat < fs₁.sb.ninodes.toNat := by
    have := fs.sb.ninodes.isLt
    rw [BitVec.toNat_ofNat, Nat.mod_eq_of_lt (by omega), hs.sb]
    exact hi
  exact (iget_ok h₁ hi').mono fun _ fs₂ h₂ => ⟨_, h₂⟩

/-! ### Transactions -/

theorem FsOk.sameFiles (h : FsOk D x fs) (hs : SameFiles fs fs')
    (hitable : fs'.itable = fs.itable) : FsOk D x fs' := by
  obtain ⟨hlog, hbuf⟩ := hs.blocks h.log
  have hbuf (y : ℕ) (hy : fs.sb.inodestart.toNat ≤ y) : fs'.log.buf y = fs.log.buf y :=
    hbuf y (h.layout.not_inLog hy)
  refine h.frame ⟨hitable, hs.sb, hs.start, hs.size⟩ hlog (fun y hy _ => hbuf y hy)
    fun j hj b hb => ?_
  exact hbuf b (h.layout.inodestart_le.trans (h.owned.indirect hj hb).1.1)

theorem fsBeginOp_ok (h : FsOk D x fs) :
    wp fsBeginOp FreesOk (fun _ fs' => FsOk D x fs') fs := by
  refine ((fsBeginOp_sameFiles fs).stops ?_).mono fun _ fs₁ h₁ => h.sameFiles h₁.1 h₁.2
  unfold fsBeginOp
  rw [wp_bind, wp_get]
  split
  · trivial
  · exact (by decide : FreesOk .sleep)

theorem fsEndOp_ok (h : FsOk D x fs) :
    wp fsEndOp FreesOk (fun _ fs' => FsOk D x fs') fs := by
  refine ((fsEndOp_sameFiles fs).stops ?_).mono fun _ fs₁ h₁ => h.sameFiles h₁.1 h₁.2
  unfold fsEndOp
  rw [wp_bind, wp_get]
  split
  · trivial
  · exact (by decide : FreesOk (.panic "log.committing"))

end

end Xv6
