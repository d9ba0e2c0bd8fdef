import Xv6.Contents
import Xv6.Dir
import Xv6.Lib.Tally

/-!
# The blocks of the disk

The layout of the disk, and what the blocks of each of its areas say: the bits of the bitmap, the
inodes, and the addresses in indirect blocks.  `balloc` and `bfree` change one bit, `iupdate` writes
one inode, and each of them is seen in its own area only.
-/

namespace Xv6

open Bytes Wp

/-! ### The layout -/

theorem BPB_eq : BPB = 8192 := rfl

theorem IPB_eq : IPB = 16 := rfl

/-- The first block after the bitmap, where `mkfs` puts it. -/
def dataStart (sb : Superblock) : ℕ := sb.bmapstart.toNat + sb.size.toNat / BPB + 1

/-- The data area. -/
def InData (sb : Superblock) (b : ℕ) : Prop := dataStart sb ≤ b ∧ b < sb.size.toNat

/-- The areas of the disk come in the order of `mkfs`: the log, the inodes, the bitmap and the
data. -/
structure DiskLayout (fs : Fs) : Prop where
  log : ∀ b, fs.inLog b → b < fs.sb.inodestart.toNat
  inodes : fs.sb.inodestart.toNat + fs.sb.ninodes.toNat / IPB < fs.sb.bmapstart.toNat
  data : dataStart fs.sb ≤ fs.sb.size.toNat

/-- The block of the bitmap with the bit of block `b`. -/
def bitBlock (sb : Superblock) (b : ℕ) : ℕ := sb.bmapstart.toNat + b / BPB

/-- The block of inode `inum`. -/
def inodeBlockOf (sb : Superblock) (inum : ℕ) : ℕ := sb.inodestart.toNat + inum / IPB

section

variable {fs fs' : Fs} {b inum : ℕ}

theorem toNat_bitOf (h : DiskLayout fs) (hb : b < fs.sb.size.toNat) :
    (bitOf fs.sb b).1.toNat = bitBlock fs.sb b := by
  have hdata := h.data
  rw [dataStart, BPB_eq] at hdata
  rw [bitOf, bitBlock, BitVec.toNat_add, BitVec.toNat_ofNat, BPB_eq]
  omega

theorem toNat_iblock (h : DiskLayout fs) (hi : inum < fs.sb.ninodes.toNat) :
    (iblock fs.sb (BitVec.ofNat 32 inum)).1.toNat = inodeBlockOf fs.sb inum := by
  have hin := h.inodes
  rw [IPB_eq] at hin
  rw [iblock, inodeBlockOf, BitVec.toNat_add, BitVec.toNat_ofNat, BitVec.toNat_ofNat, IPB_eq]
  omega

theorem bitBlock_lt (hb : b < fs.sb.size.toNat) :
    fs.sb.bmapstart.toNat ≤ bitBlock fs.sb b ∧ bitBlock fs.sb b < dataStart fs.sb := by
  rw [bitBlock, dataStart, BPB_eq]
  omega

theorem inodeBlockOf_lt (h : DiskLayout fs) (hi : inum < fs.sb.ninodes.toNat) :
    fs.sb.inodestart.toNat ≤ inodeBlockOf fs.sb inum ∧
      inodeBlockOf fs.sb inum < fs.sb.bmapstart.toNat := by
  have := h.inodes
  rw [inodeBlockOf]
  rw [IPB_eq] at this ⊢
  omega

/-- Blocks from the inodes on are not in the log. -/
theorem DiskLayout.not_inLog (h : DiskLayout fs) (hb : fs.sb.inodestart.toNat ≤ b) :
    ¬ fs.inLog b := fun hlog => by
  have := h.log b hlog
  omega

theorem DiskLayout.inodestart_le (h : DiskLayout fs) :
    fs.sb.inodestart.toNat ≤ dataStart fs.sb := by
  have := h.inodes
  rw [dataStart, BPB_eq]
  rw [IPB_eq] at this
  omega

end

/-! ### Bits -/

/-- Block `b` is marked in the bitmap. -/
def Fs.bit (fs : Fs) (b : ℕ) : Bool :=
  fs.log.buf (bitBlock fs.sb b) (b % BPB / 8) &&& 1#8 <<< (b % 8) ≠ 0

section

variable {x : Byte} {j k : ℕ}

theorem and_bit_eq_zero (x : Byte) (hk : k < 8) : x &&& 1#8 <<< k = 0 ↔ x.getLsbD k = false := by
  rw [show (1#8 <<< k) = BitVec.twoPow 8 k from (BitVec.twoPow_eq 8 k).symm, BitVec.and_twoPow]
  cases h : x.getLsbD k with
  | false => simp
  | true =>
    simp only [if_true, Bool.true_eq_false, iff_false]
    intro h0
    have := congrArg (fun y : Byte => y.getLsbD k) h0
    simp [hk] at this

theorem getLsbD_or_bit (x : Byte) (hj : j < 8) (hk : k < 8) :
    (x ||| 1#8 <<< k).getLsbD j = if j = k then true else x.getLsbD j := by
  rw [show (1#8 <<< k) = BitVec.twoPow 8 k from (BitVec.twoPow_eq 8 k).symm, BitVec.getLsbD_or,
    BitVec.getLsbD_twoPow]
  split_ifs with h
  · subst h
    simp [hj]
  · simp [Ne.symm h]

theorem getLsbD_and_not_bit (x : Byte) (hj : j < 8) (hk : k < 8) :
    (x &&& ~~~(1#8 <<< k)).getLsbD j = if j = k then false else x.getLsbD j := by
  rw [show (1#8 <<< k) = BitVec.twoPow 8 k from (BitVec.twoPow_eq 8 k).symm, BitVec.getLsbD_and,
    BitVec.getLsbD_not, BitVec.getLsbD_twoPow]
  split_ifs with h
  · subst h
    simp [hj]
  · simp [hj, Ne.symm h]

end

section

variable {fs fs' : Fs} {b b' : ℕ}

theorem bit_eq (fs : Fs) (b : ℕ) :
    fs.bit b = (fs.log.buf (bitBlock fs.sb b) (b % BPB / 8)).getLsbD (b % 8) := by
  have h := and_bit_eq_zero (fs.log.buf (bitBlock fs.sb b) (b % BPB / 8))
    (Nat.mod_lt b (by decide : 0 < 8))
  rw [Fs.bit]
  cases hb : (fs.log.buf (bitBlock fs.sb b) (b % BPB / 8)).getLsbD (b % 8) with
  | false => simp [h.2 hb]
  | true => simpa using mt h.1 (by simp [hb])

/-- A block of the bitmap. -/
def InBitmap (sb : Superblock) (b : ℕ) : Prop := sb.bmapstart.toNat ≤ b ∧ b < dataStart sb

/-- Bits are seen in the bitmap only. -/
theorem bit_congr (hsb : fs'.sb = fs.sb)
    (hbuf : ∀ x, InBitmap fs.sb x → fs'.log.buf x = fs.log.buf x) (hb : b < fs.sb.size.toNat) :
    fs'.bit b = fs.bit b := by
  rw [bit_eq, bit_eq, hsb, hbuf _ (bitBlock_lt hb)]

/-- One bit of the bitmap is changed. -/
theorem bit_setByte {v : Byte} {c : Bool} (hsb : fs'.sb = fs.sb)
    (hself : fs'.log.buf (bitBlock fs.sb b) =
      Function.update (fs.log.buf (bitBlock fs.sb b)) (b % BPB / 8) v)
    (hother : ∀ x, InBitmap fs.sb x → x ≠ bitBlock fs.sb b → fs'.log.buf x = fs.log.buf x)
    (hv : ∀ j < 8, v.getLsbD j =
      if j = b % 8 then c else (fs.log.buf (bitBlock fs.sb b) (b % BPB / 8)).getLsbD j)
    (hb' : b' < fs.sb.size.toNat) : fs'.bit b' = if b' = b then c else fs.bit b' := by
  rw [bit_eq, bit_eq, hsb]
  by_cases hblk : bitBlock fs.sb b' = bitBlock fs.sb b
  · have hdiv : b' / BPB = b / BPB := by
      unfold bitBlock at hblk
      omega
    rw [hblk, hself]
    by_cases hbyte : b' % BPB / 8 = b % BPB / 8
    · rw [hbyte, Function.update_self, hv _ (Nat.mod_lt _ (by decide))]
      rw [BPB_eq] at hdiv hbyte
      exact if_congr (by omega) rfl rfl
    · rw [Function.update_of_ne hbyte, if_neg fun h => hbyte (by rw [h])]
  · rw [hother _ (bitBlock_lt hb') hblk, if_neg fun h => hblk (by rw [h])]

end

/-! ### `balloc` and `bfree` -/

/-- Not the panic of `bfree`. -/
def FreesOk (e : Stop) : Prop := e ≠ .panic "freeing free block"

instance (e : Stop) : Decidable (FreesOk e) := by
  unfold FreesOk
  infer_instance

theorem freesOk_fsLogWrite (b : U32) (data : Block) (fs : Fs) :
    wp (fsLogWrite b data) FreesOk (fun _ _ => True) fs := by
  unfold fsLogWrite
  rw [wp_bind, wp_get, wp_bind, wp_panicIf]
  split_ifs
  · decide
  · split
    · trivial
    · exact (by decide : FreesOk (.panic "log_write outside of trans"))

/-- `log_write` of a block outside the log. -/
theorem fsLogWrite_freesOk {fs : Fs} (hlog : LogOk fs.log) {b : U32} (hb : ¬ fs.inLog b.toNat)
    (data : Block) : wp (fsLogWrite b data) FreesOk
    (fun _ fs' => SameTables fs fs' ∧ LogOk fs'.log ∧
      fs'.log.buf = Function.update fs.log.buf b.toNat data) fs :=
  (fsLogWrite_spec hlog hb data).stops (freesOk_fsLogWrite b data fs)

/-- The bitmap is that of `fs`, with the bit of block `b` changed to `c`. -/
structure SetBit (fs : Fs) (b : ℕ) (c : Bool) (fs' : Fs) : Prop extends SameTables fs fs' where
  logOk : LogOk fs'.log
  bit : ∀ x < fs.sb.size.toNat, fs'.bit x = if x = b then c else fs.bit x

section

variable {fs : Fs}

theorem DiskLayout.same {fs' : Fs} (h : DiskLayout fs) (hs : SameTables fs fs') :
    DiskLayout fs' := by
  refine ⟨fun b => ?_, ?_, ?_⟩ <;> rw [hs.sb]
  · rw [hs.inLog]
    exact h.log b
  · exact h.inodes
  · exact h.data

/-- Why `balloc` panics: no block is free, or the log has no room for the bit and the block. -/
def BallocStuck (fs : Fs) (e : Stop) : Prop :=
  e = .panic "balloc: out of blocks" ∧ (∀ b < fs.sb.size.toNat, fs.bit b = true) ∨
    ∃ r, InData fs.sb r ∧ fs.bit r = false ∧ (∀ x < r, fs.bit x = true) ∧
      LogStuck fs (Budget.logged fs.log.log.lh (bitBlock fs.sb r)).length e

theorem LogStuck.freesOk {n : ℕ} {e : Stop} (h : LogStuck fs n e) : FreesOk e := by
  rcases h with ⟨rfl, -⟩ | ⟨rfl, -⟩ <;> decide

/-- `balloc` takes the first free block, which is in the data area, and zeroes it, and logs the bit
and the block. -/
theorem balloc_total (hlay : DiskLayout fs) (hlog : LogOk fs.log)
    (hmeta : ∀ b < dataStart fs.sb, fs.bit b = true) :
    wp balloc (BallocStuck fs) (fun r fs' => InData fs.sb r.toNat ∧ fs.bit r.toNat = false ∧
      (∀ x < r.toNat, fs.bit x = true) ∧ SetBit fs r.toNat true fs' ∧
      fs'.log.buf r.toNat = (fun _ => 0) ∧
      (∀ x, ¬ InBitmap fs.sb x → x ≠ r.toNat → fs'.log.buf x = fs.log.buf x) ∧
      fs'.log.log = { fs.log.log with
        lh := Budget.logged (Budget.logged fs.log.log.lh (bitBlock fs.sb r.toNat)) r.toNat })
        fs := by
  unfold balloc
  rw [wp_bind, wp_get]
  dsimp only
  split
  · rename_i hfind
    refine .inl ⟨rfl, fun b hb => ?_⟩
    have hnot := List.find?_eq_none.1 hfind b (List.mem_range.2 hb)
    rw [toNat_bitOf hlay hb, decide_eq_true_eq, LogState.bread] at hnot
    simpa [Fs.bit, bitOf] using hnot
  rename_i b hfind
  have hfirst (x : ℕ) (hx : x < b) : fs.bit x = true := by
    obtain ⟨-, hmem, hbefore⟩ := List.find?_range_eq_some.1 hfind
    have hnot := hbefore x hx
    rw [Bool.not_eq_true', decide_eq_false_iff_not,
      toNat_bitOf hlay (hx.trans (List.mem_range.1 hmem)), LogState.bread] at hnot
    simpa [Fs.bit, bitOf] using hnot
  have hb : b < fs.sb.size.toNat := List.mem_range.1 (List.mem_of_find?_eq_some hfind)
  have htoNat : (BitVec.ofNat 32 b).toNat = b := by
    rw [BitVec.toNat_ofNat]
    exact Nat.mod_eq_of_lt (by omega)
  have hblk := toNat_bitOf hlay hb
  have hfree : fs.bit b = false := by
    have := List.find?_some hfind
    rw [hblk, decide_eq_true_eq, LogState.bread] at this
    simpa [Fs.bit, bitOf] using this
  have hdata : InData fs.sb b := by
    refine ⟨?_, hb⟩
    by_contra hlt
    rw [hmeta b (by omega)] at hfree
    cases hfree
  have hin := bitBlock_lt hb
  have hstart := hlay.inodestart_le
  have hout : ¬ fs.inLog (bitOf fs.sb b).1.toNat := by
    rw [hblk]
    exact hlay.not_inLog (by have := hlay.inodes; rw [IPB_eq] at this; omega)
  rw [wp_bind, bread, wp_bind, wp_get, wp_pure, wp_bind]
  have hstuck {e : Stop} {n : ℕ} (he : LogStuck fs n e)
      (hn : n ≤ (Budget.logged fs.log.log.lh (bitBlock fs.sb b)).length) : BallocStuck fs e :=
    .inr ⟨b, hdata, hfree, hfirst, he.mono hn⟩
  refine ((fsLogWrite_total hlog hout _).weaken fun e he => hstuck he
    Budget.length_le_logged).mono ?_
  rintro _ fs₁ ⟨hs₁, hlog₁, hbuf₁, hlh₁⟩
  rw [hblk] at hbuf₁ hlh₁
  have hout₁ : ¬ fs₁.inLog (BitVec.ofNat 32 b).toNat := by
    rw [htoNat, hs₁.inLog]
    exact hlay.not_inLog (by have := hdata.1; omega)
  rw [wp_bind]
  refine ((fsLogWrite_total hlog₁ hout₁ _).weaken fun e he => hstuck (he.of_lh hlh₁)
    (by rw [hlh₁])).mono ?_
  rintro _ fs₂ ⟨hs₂, hlog₂, hbuf₂, hlh₂⟩
  rw [htoNat] at hbuf₂ hlh₂
  rw [wp_pure, htoNat]
  have hne : b ≠ bitBlock fs.sb b := by
    have := hdata.1
    omega
  have hbits : fs₂.log.buf (bitBlock fs.sb b) = Function.update (fs.log.buf (bitBlock fs.sb b))
      (b % BPB / 8) (fs.log.buf (bitBlock fs.sb b) (b % BPB / 8) ||| 1#8 <<< (b % 8)) := by
    rw [hbuf₂, Function.update_of_ne hne.symm, hbuf₁, Function.update_self]
    rfl
  have hother (x : ℕ) (hx : x ≠ bitBlock fs.sb b) (hxb : x ≠ b) : fs₂.log.buf x = fs.log.buf x := by
    rw [hbuf₂, Function.update_of_ne hxb, hbuf₁, Function.update_of_ne hx]
  refine ⟨hdata, hfree, hfirst, ⟨hs₁.trans hs₂, hlog₂, fun x hx => ?_⟩, ?_, fun x hx hxb => ?_, ?_⟩
  · refine bit_setByte (hs₁.trans hs₂).sb hbits (fun y hy hyb => hother y hyb ?_)
      (fun j hj => ?_) hx
    · have := hdata.1
      have := hy.2
      omega
    · exact getLsbD_or_bit _ hj (Nat.mod_lt _ (by decide))
  · rw [hbuf₂, Function.update_self]
  · exact hother x (fun h => hx (h ▸ hin)) hxb
  · rw [hlh₂, hlh₁]

/-- `bfree` of a block that is marked. -/
theorem bfree_spec (hlay : DiskLayout fs) (hlog : LogOk fs.log) {b : U32}
    (hb : InData fs.sb b.toNat) (hbit : fs.bit b.toNat = true) :
    wp (bfree b) FreesOk (fun _ fs' => SetBit fs b.toNat false fs' ∧
      ∀ x, ¬ InBitmap fs.sb x → fs'.log.buf x = fs.log.buf x) fs := by
  have hblk := toNat_bitOf hlay hb.2
  have hin := bitBlock_lt hb.2
  have hout : ¬ fs.inLog (bitOf fs.sb b.toNat).1.toNat := by
    rw [hblk]
    exact hlay.not_inLog (by have := hlay.inodes; rw [IPB_eq] at this; omega)
  have hmark : ¬ (fs.log.bread (bitOf fs.sb b.toNat).1.toNat (bitOf fs.sb b.toNat).2.1 &&&
      (bitOf fs.sb b.toNat).2.2 = 0) := by
    rw [hblk, LogState.bread]
    simpa [Fs.bit, bitOf] using hbit
  unfold bfree
  rw [wp_bind, wp_get]
  dsimp only
  rw [wp_bind, bread, wp_bind, wp_get, wp_pure, wp_bind, wp_panicIf, if_neg hmark]
  refine (fsLogWrite_freesOk hlog hout _).mono ?_
  rintro _ fs₁ ⟨hs₁, hlog₁, hbuf₁⟩
  rw [hblk] at hbuf₁
  refine ⟨⟨hs₁, hlog₁, fun x hx => ?_⟩, fun x hx => ?_⟩
  · refine bit_setByte hs₁.sb (by rw [hbuf₁, Function.update_self]; rfl)
      (fun y _ hyb => by rw [hbuf₁, Function.update_of_ne hyb]) (fun j hj => ?_) hx
    exact getLsbD_and_not_bit _ hj (Nat.mod_lt _ (by decide))
  · have hne : x ≠ bitBlock fs.sb b.toNat := fun h => hx (h ▸ hin)
    rw [hbuf₁, Function.update_of_ne hne]

/-- `bfree` of all addresses in a list but 0, if each of them is marked and stands in the list
once. -/
theorem bfreeAll_spec (hlay : DiskLayout fs) (hlog : LogOk fs.log) {bs : List U32}
    (hbs : ∀ b ∈ bs, b ≠ 0 → InData fs.sb b.toNat ∧ fs.bit b.toNat = true)
    (hnodup : (bs.filter (· ≠ 0)).Nodup) :
    wp (bfreeAll bs) FreesOk (fun _ fs' => SameTables fs fs' ∧ LogOk fs'.log ∧
      (∀ x < fs.sb.size.toNat, fs'.bit x = true ↔
        fs.bit x = true ∧ ∀ b ∈ bs, b ≠ 0 → b.toNat ≠ x) ∧
      ∀ x, ¬ InBitmap fs.sb x → fs'.log.buf x = fs.log.buf x) fs := by
  induction bs generalizing fs with
  | nil => exact ⟨.refl fs, hlog, fun x _ => by simp, fun _ _ => rfl⟩
  | cons b bs ih =>
    unfold bfreeAll
    by_cases hb : b = 0
    · -- the address is not used
      rw [if_neg (not_not.2 hb)]
      refine (ih hlay hlog (fun c hc => hbs c (List.mem_cons_of_mem _ hc)) ?_).mono
        fun _ fs' ⟨hs, hl, hbit, hbuf⟩ => ⟨hs, hl, fun x hx => ?_, hbuf⟩
      · simpa [hb] using hnodup
      · rw [hbit x hx]
        simp [hb]
    · have hpos : decide (b ≠ 0) = true := decide_eq_true hb
      have hcons : b ∉ bs.filter (· ≠ 0) ∧ (bs.filter (· ≠ 0)).Nodup := by
        rwa [List.filter_cons, if_pos hpos, List.nodup_cons] at hnodup
      obtain ⟨hdata, hmark⟩ := hbs b List.mem_cons_self hb
      rw [if_pos hb, wp_bind]
      refine (bfree_spec hlay hlog hdata hmark).mono fun _ fs₁ ⟨h₁, hbuf₁⟩ => ?_
      have hs₁ := h₁.toSameTables
      refine (ih (hlay.same hs₁) h₁.logOk (fun c hc hc0 => ?_) hcons.2).mono
        fun _ fs' ⟨hs, hl, hbit, hbuf⟩ => ⟨hs₁.trans hs, hl, fun x hx => ?_, fun x hx => ?_⟩
      · obtain ⟨hdc, hmc⟩ := hbs c (List.mem_cons_of_mem _ hc) hc0
        have hne : c.toNat ≠ b.toNat := fun h =>
          hcons.1 (List.mem_filter.2 ⟨BitVec.eq_of_toNat_eq h ▸ hc, hpos⟩)
        rw [hs₁.sb, h₁.bit _ hdc.2, if_neg hne]
        exact ⟨hdc, hmc⟩
      · rw [hbit x (by rw [hs₁.sb]; exact hx), h₁.bit x hx]
        by_cases hxb : x = b.toNat
        · rw [if_pos hxb]
          exact ⟨fun h => (nomatch h.1), fun h => absurd hxb.symm (h.2 b List.mem_cons_self hb)⟩
        · simp only [if_neg hxb, List.mem_cons, forall_eq_or_imp]
          exact and_congr_right fun _ => ⟨fun h => ⟨fun _ => Ne.symm hxb, h⟩, fun h => h.2⟩
      · rw [hbuf x (by rw [hs₁.sb]; exact hx), hbuf₁ x hx]

end

/-! ### Inodes on disk -/

/-- The part of a `struct dinode` that says which blocks belong to the inode. -/
@[ext]
structure Dinode where
  type : U16
  size : U32
  addrs : ℕ → U32

/-- The fields of an inode in memory. -/
def Inode.dinode (i : Inode) : Dinode :=
  ⟨i.type, i.size, fun n => if n ≤ NDIRECT then i.addrs n else 0⟩

/-- The inode in a block. -/
def dinodeIn (bp : Block) (inum : ℕ) : Dinode :=
  let o := inum % IPB * 64
  ⟨loadW 16 bp o, loadW 32 bp (o + 8),
    fun n => if n ≤ NDIRECT then loadW 32 bp (o + 12 + 4 * n) else 0⟩

/-- Inode `inum` on disk. -/
def Fs.dinode (fs : Fs) (inum : ℕ) : Dinode := dinodeIn (fs.log.buf (inodeBlockOf fs.sb inum)) inum

theorem dinodeIn_congr {bp bp' : Block} {inum : ℕ}
    (h : ∀ x, inum % IPB * 64 ≤ x → x < inum % IPB * 64 + 64 → bp' x = bp x) :
    dinodeIn bp' inum = dinodeIn bp inum := by
  have hload (w k : ℕ) (hk : k + w / 8 ≤ 64) :
      loadW w bp' (inum % IPB * 64 + k) = loadW w bp (inum % IPB * 64 + k) :=
    loadW_congr fun x hx hx' => h x (by omega) (by omega)
  refine Dinode.ext (hload 16 0 (by decide)) (hload 32 8 (by decide)) (funext fun n => ?_)
  change (if n ≤ NDIRECT then _ else _) = if n ≤ NDIRECT then _ else _
  split_ifs with hn
  · have hn : n ≤ 12 := hn
    rw [add_assoc]
    exact hload 32 _ (by omega)
  · rfl

section

variable {w : ℕ} {m : Block} {a x : ℕ} {v : BitVec w}

theorem storeW_of_not_mem (h : x < a ∨ a + w / 8 ≤ x) : storeW m a v x = m x := by
  rcases h with h | h
  · exact storeLE_of_lt h
  · exact storeLE_of_ge h

theorem putAddrs_of_not_mem {addrs : ℕ → U32} {o : ℕ} (n : ℕ) (b : Block)
    (h : x < o + 12 ∨ o + 12 + 4 * n ≤ x) : putAddrs addrs o n b x = b x := by
  induction n generalizing b with
  | zero => rfl
  | succ n ih => rw [putAddrs, ih _ (by omega), storeW_of_not_mem (by omega)]

theorem loadW_putAddrs {addrs : ℕ → U32} {o : ℕ} (n : ℕ) (b : Block) {k : ℕ} (hk : k < n) :
    loadW 32 (putAddrs addrs o n b) (o + 12 + 4 * k) = addrs k := by
  induction n generalizing b with
  | zero => omega
  | succ n ih =>
    rw [putAddrs]
    by_cases hkn : k = n
    · -- the entries below do not reach the last one
      subst hkn
      calc loadW 32 (putAddrs addrs o k (storeW b (o + 12 + 4 * k) (addrs k))) (o + 12 + 4 * k)
          = loadW 32 (storeW b (o + 12 + 4 * k) (addrs k)) (o + 12 + 4 * k) :=
            loadW_congr fun x hx _ => putAddrs_of_not_mem k _ (by omega)
        _ = addrs k := loadW_storeW (by decide) _ _
    · exact ih _ (by omega)

end

/-- The block of an inode with the fields of `i` in it, as `iupdate` stores them. -/
def putInode (i : Inode) (o : ℕ) (bp : Block) : Block :=
  putAddrs i.addrs o (NDIRECT + 1)
    (storeW (storeW (storeW (storeW (storeW bp o i.type) (o + 2) i.major)
    (o + 4) i.minor) (o + 6) i.nlink) (o + 8) i.size)

theorem putInode_of_not_mem {i : Inode} {o x : ℕ} {bp : Block} (h : x < o ∨ o + 64 ≤ x) :
    putInode i o bp x = bp x := by
  have hn : NDIRECT + 1 = 13 := rfl
  rw [putInode, putAddrs_of_not_mem _ _ (by omega), storeW_of_not_mem (by omega),
    storeW_of_not_mem (by omega), storeW_of_not_mem (by omega), storeW_of_not_mem (by omega),
    storeW_of_not_mem (by omega)]

theorem dinodeIn_putInode (i : Inode) (inum : ℕ) (bp : Block) :
    dinodeIn (putInode i (inum % IPB * 64) bp) inum = i.dinode := by
  generalize ho : inum % IPB * 64 = o
  have hn : NDIRECT + 1 = 13 := rfl
  have hskip (w a : ℕ) (ha : a + w / 8 ≤ o + 12) (b : Block) :
      loadW w (putAddrs i.addrs o (NDIRECT + 1) b) a = loadW w b a :=
    loadW_congr fun x _ _ => putAddrs_of_not_mem _ _ (by omega)
  unfold dinodeIn
  rw [ho]
  refine Dinode.ext ?_ ?_ (funext fun n => ?_)
  · change loadW 16 _ o = i.type
    rw [putInode, hskip _ _ (by omega), loadW_storeW_of_disjoint (by omega),
      loadW_storeW_of_disjoint (by omega), loadW_storeW_of_disjoint (by omega),
      loadW_storeW_of_disjoint (by omega), loadW_storeW (by decide)]
  · change loadW 32 _ (o + 8) = i.size
    rw [putInode, hskip _ _ (by omega), loadW_storeW (by decide)]
  · change (if n ≤ NDIRECT then _ else _) = if n ≤ NDIRECT then _ else _
    split_ifs with hle
    · exact loadW_putAddrs _ _ (by omega)
    · rfl

section

variable {fs fs' : Fs} {inum inum' : ℕ}

/-- Inodes are seen in their blocks only. -/
theorem dinode_congr (hlay : DiskLayout fs) (hsb : fs'.sb = fs.sb)
    (hbuf : ∀ x, fs.sb.inodestart.toNat ≤ x → x < fs.sb.bmapstart.toNat →
      fs'.log.buf x = fs.log.buf x) (hi : inum < fs.sb.ninodes.toNat) :
    fs'.dinode inum = fs.dinode inum := by
  have hin := inodeBlockOf_lt hlay hi
  rw [Fs.dinode, Fs.dinode, hsb, hbuf _ hin.1 hin.2]

/-- One inode on disk is changed. -/
theorem dinode_setInode {bp : Block} (hsb : fs'.sb = fs.sb)
    (hbuf : fs'.log.buf = Function.update fs.log.buf (inodeBlockOf fs.sb inum) bp)
    (hbp : ∀ x, x < inum % IPB * 64 ∨ inum % IPB * 64 + 64 ≤ x →
      bp x = fs.log.buf (inodeBlockOf fs.sb inum) x) :
    fs'.dinode inum' = if inum' = inum then dinodeIn bp inum else fs.dinode inum' := by
  rw [Fs.dinode, Fs.dinode, hsb, hbuf]
  by_cases hii : inum' = inum
  · rw [if_pos hii, hii, Function.update_self]
  rw [if_neg hii]
  by_cases hblk : inodeBlockOf fs.sb inum' = inodeBlockOf fs.sb inum
  · -- another inode of the same block
    rw [hblk, Function.update_self]
    refine dinodeIn_congr fun x hx hx' => hbp x ?_
    rw [inodeBlockOf, inodeBlockOf, IPB_eq] at hblk
    rw [IPB_eq] at hx hx' ⊢
    omega
  · rw [Function.update_of_ne hblk]

end

end Xv6
