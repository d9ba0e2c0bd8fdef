import Mathlib.Data.List.GetD
import Xv6.LogCrash
import Xv6.FsStop
import Xv6.Lib.Budget
import Xv6.Kalloc

/-!
# The contents of a file

A file is a byte array: `Holds fs i c` says that the blocks of the inode `i` are in order and hold
the bytes `c`.  A `writei` inside the file patches the array (`writei_holds`), and neither `iupdate`
nor the commit at the end of a transaction changes it.
-/

namespace Xv6

open Bytes Wp Redo

/-! ### The log below -/

/-- The header of the log fits it, and names only blocks outside of it. -/
structure LogOk (l : LogState) : Prop extends LhOk l where
  outside : ∀ b ∈ l.log.lh, ¬ InLog l.log.start l.log.size b

/-- A block of the log region. -/
def Fs.inLog (fs : Fs) (b : ℕ) : Prop := InLog fs.log.log.start fs.log.log.size b

theorem inLog_congr {fs fs' : Fs} (hstart : fs'.log.log.start = fs.log.log.start)
    (hsize : fs'.log.log.size = fs.log.log.size) : fs'.inLog = fs.inLog := by
  funext b
  rw [Fs.inLog, Fs.inLog, hstart, hsize]

/-- Nothing changes but blocks. -/
structure SameTables (fs fs' : Fs) : Prop where
  itable : fs'.itable = fs.itable
  sb : fs'.sb = fs.sb
  start : fs'.log.log.start = fs.log.log.start
  size : fs'.log.log.size = fs.log.log.size

namespace SameTables

theorem refl (fs : Fs) : SameTables fs fs := ⟨rfl, rfl, rfl, rfl⟩

theorem trans {fs fs' fs'' : Fs} (h : SameTables fs fs') (h' : SameTables fs' fs'') :
    SameTables fs fs'' :=
  ⟨h'.itable.trans h.itable, h'.sb.trans h.sb, h'.start.trans h.start, h'.size.trans h.size⟩

theorem inLog {fs fs' : Fs} (h : SameTables fs fs') : fs'.inLog = fs.inLog :=
  inLog_congr h.start h.size

end SameTables

/-- The number of blocks that a transaction can log. -/
def Fs.logCap (fs : Fs) : ℕ := min LOGSIZE (fs.log.log.size - 1)

/-- Why `log_write` panics, in a log that will hold up to `n` blocks. -/
def LogStuck (fs : Fs) (n : ℕ) (e : Stop) : Prop :=
  e = .panic "too big a transaction" ∧ fs.logCap ≤ n ∨
    e = .panic "log_write outside of trans" ∧ fs.log.log.outstanding < 1

section

variable {fs fs' : Fs} {n m : ℕ} {e : Stop}

theorem LogStuck.mono (h : LogStuck fs n e) (hle : n ≤ m) : LogStuck fs m e :=
  h.imp_left fun ⟨he, hcap⟩ => ⟨he, hcap.trans hle⟩

/-- Only the header has changed. -/
theorem LogStuck.of_lh {lh : List ℕ} (hl : fs'.log.log = { fs.log.log with lh := lh })
    (h : LogStuck fs' n e) : LogStuck fs n e := by
  unfold LogStuck Fs.logCap at *
  rwa [hl] at h

end

/-- Blocks of `S` have been logged, and the log will not hold more than before when all of `S` is in
it. -/
structure Logs (S : Finset ℕ) (fs fs' : Fs) : Prop where
  header : fs'.log.log = { fs.log.log with lh := fs'.log.log.lh }
  load : Budget.load S some fs'.log.log.lh ≤ Budget.load S some fs.log.log.lh

namespace Logs

variable {S : Finset ℕ} {fs fs' fs'' : Fs}

theorem refl (S : Finset ℕ) (fs : Fs) : Logs S fs fs := ⟨rfl, le_rfl⟩

theorem trans (h : Logs S fs fs') (h' : Logs S fs' fs'') : Logs S fs fs'' :=
  ⟨by rw [h'.header, h.header], h'.load.trans h.load⟩

theorem logged {b : ℕ} (hb : b ∈ S)
    (h : fs'.log.log = { fs.log.log with lh := Budget.logged fs.log.log.lh b }) :
    Logs S fs fs' := by
  refine ⟨by rw [h], ?_⟩
  rw [h]
  exact Budget.load_logged_le hb rfl (.inr rfl) fun _ _ _ => rfl

theorem stuck {e : Stop} (h : Logs S fs fs')
    (he : LogStuck fs' (Budget.load S some fs'.log.log.lh) e) :
    LogStuck fs (Budget.load S some fs.log.log.lh) e := (he.of_lh h.header).mono h.load

end Logs

/-- `log_write` of a block outside the log, and when it panics. -/
theorem fsLogWrite_total {fs : Fs} (hlog : LogOk fs.log) {b : U32} (hb : ¬ fs.inLog b.toNat)
    (data : Block) :
    wp (fsLogWrite b data) (LogStuck fs fs.log.log.lh.length) (fun _ fs' => SameTables fs fs' ∧
      LogOk fs'.log ∧ fs'.log.buf = Function.update fs.log.buf b.toNat data ∧
      fs'.log.log = { fs.log.log with lh := Budget.logged fs.log.log.lh b.toNat }) fs := by
  unfold fsLogWrite
  simp only [wp_bind, wp_get, wp_panicIf]
  by_cases hfull : LOGSIZE ≤ fs.log.log.lh.length ∨ fs.log.log.size ≤ fs.log.log.lh.length + 1
  · rw [if_pos hfull]
    refine .inl ⟨rfl, ?_⟩
    unfold Fs.logCap
    omega
  rw [if_neg hfull]
  cases hw : logWrite fs.log b.toNat data with
  | none =>
    refine .inr ⟨rfl, ?_⟩
    by_contra hout
    unfold logWrite at hw
    simp only [if_neg hfull, if_neg hout] at hw
    split_ifs at hw
  | some l =>
    obtain ⟨-, -, hbuf, hmem, hok, hl⟩ := logWrite_spec hw hlog.toLhOk
    have hstart : l.log.start = fs.log.log.start := by rw [hl]
    have hsize : l.log.size = fs.log.log.size := by rw [hl]
    refine ⟨⟨rfl, rfl, hstart, hsize⟩, ⟨hok, fun x hx => ?_⟩, hbuf, ?_⟩
    · rw [hstart, hsize]
      rcases (hmem x).1 hx with hx | rfl
      exacts [hlog.outside x hx, hb]
    · unfold logWrite at hw
      simp only at hw
      unfold Budget.logged
      split_ifs at hw with _ hin
      · rw [if_pos hin, ← Option.some.inj hw]
      · rw [if_neg hin, ← Option.some.inj hw]
        rfl

/-- `log_write` of a block outside the log. -/
theorem fsLogWrite_spec {fs : Fs} (hlog : LogOk fs.log) {b : U32} (hb : ¬ fs.inLog b.toNat)
    (data : Block) :
    wp (fsLogWrite b data) (fun _ => True) (fun _ fs' => SameTables fs fs' ∧ LogOk fs'.log ∧
      fs'.log.buf = Function.update fs.log.buf b.toNat data) fs :=
  ((fsLogWrite_total hlog hb data).weaken fun _ _ => trivial).mono
    fun _ _ ⟨hs, hl, hbuf, _⟩ => ⟨hs, hl, hbuf⟩

/-- A commit changes no block outside the log. -/
theorem commit_buf {l : LogState} (hlog : LogOk l) {b : ℕ}
    (hb : ¬ InLog l.log.start l.log.size b) : (commit l).buf b = l.buf b := by
  by_cases hne : l.log.lh = []
  · simp [commit, hne]
  have hlt := hlog.lt
  have hstart : b ≠ l.log.start := by
    rintro rfl
    exact hb (inLog_start (by omega))
  have hslots : b ∉ (slots l.buf l.log.start 0 l.log.lh).map Prod.fst := by
    intro hmem
    obtain ⟨w, hw, rfl⟩ := List.mem_map.1 hmem
    have hw := mem_slots hw
    exact hb ⟨by omega, by omega⟩
  rw [(wrote_commit hlog.outside hlog.toLhOk hne).buf, commitWrites, applyWrites_append,
    applyWrites_cons, applyWrites_append, applyWrites_cons, applyWrites_nil,
    Function.update_of_ne hstart, applyWrites_map, Function.update_of_ne hstart,
    applyWrites_of_notMem hslots, ite_self]

/-! ### The bytes of a file -/

/-- The inode as `ilock` leaves it: the copy in the table if it is valid, or the one on disk. -/
def Fs.loaded (fs : Fs) (ip : ℕ) : Inode :=
  let i := fs.itable ip
  if i.valid then i
  else
    let (blk, o) := iblock fs.sb i.inum
    let bp := fs.log.bread blk.toNat
    { i with
      type := loadW 16 bp o
      major := loadW 16 bp (o + 2)
      minor := loadW 16 bp (o + 4)
      nlink := loadW 16 bp (o + 6)
      size := loadW 32 bp (o + 8)
      addrs := fun n => loadW 32 bp (o + 12 + 4 * n)
      valid := true }

/-- The address of block `bn` of an inode, or 0. -/
def Fs.blockAt (fs : Fs) (i : Inode) (bn : ℕ) : U32 :=
  if bn < NDIRECT then i.addrs bn
  else if i.addrs NDIRECT = 0 then 0
  else loadW 32 (fs.log.bread (i.addrs NDIRECT).toNat) (4 * (bn - NDIRECT))

/-- Byte `k` of an inode. -/
def Fs.byteAt (fs : Fs) (i : Inode) (k : ℕ) : Byte :=
  fs.log.bread (fs.blockAt i (k / BSIZE)).toNat (k % BSIZE)

/-- The contents of a file. -/
def Fs.contents (fs : Fs) (ip : ℕ) : List Byte :=
  (List.range (fs.loaded ip).size.toNat).map (fs.byteAt (fs.loaded ip))

/-- The block that holds the inode on disk. -/
def Fs.inodeBlock (fs : Fs) (i : Inode) : ℕ := (iblock fs.sb i.inum).1.toNat

/-- The blocks of an inode are in order: every block below its size has an address of its own, and
none of them is a block of the log, the block of the inode or the indirect block. -/
structure FileOk (fs : Fs) (i : Inode) : Prop where
  log : LogOk fs.log
  size_le : i.size.toNat ≤ MAXFILE * BSIZE
  inode_out : ¬ fs.inLog (fs.inodeBlock i)
  indirect_out : NDIRECT * BSIZE < i.size.toNat →
    ¬ fs.inLog (i.addrs NDIRECT).toNat ∧ (i.addrs NDIRECT).toNat ≠ fs.inodeBlock i
  mapped : ∀ bn, bn * BSIZE < i.size.toNat → fs.blockAt i bn ≠ 0
  data_out : ∀ bn, bn * BSIZE < i.size.toNat → ¬ fs.inLog (fs.blockAt i bn).toNat ∧
    (fs.blockAt i bn).toNat ≠ fs.inodeBlock i ∧ fs.blockAt i bn ≠ i.addrs NDIRECT
  distinct : ∀ bn bn', bn * BSIZE < i.size.toNat → bn' * BSIZE < i.size.toNat →
    fs.blockAt i bn = fs.blockAt i bn' → bn = bn'

/-- A file of one block. -/
theorem FileOk.of_one {fs : Fs} {i : Inode} (hlog : LogOk fs.log) (hsize : i.size.toNat ≤ BSIZE)
    (hnode : ¬ fs.inLog (fs.inodeBlock i)) (hmapped : i.addrs 0 ≠ 0)
    (hdata : ¬ fs.inLog (i.addrs 0).toNat ∧ (i.addrs 0).toNat ≠ fs.inodeBlock i ∧
      i.addrs 0 ≠ i.addrs NDIRECT) : FileOk fs i := by
  have hB : BSIZE = 1024 := rfl
  have hzero : ∀ bn, bn * BSIZE < i.size.toNat → bn = 0 := by
    intro bn hbn
    rw [hB] at hbn hsize
    omega
  have hmax : BSIZE ≤ MAXFILE * BSIZE := by decide
  have hdir : BSIZE ≤ NDIRECT * BSIZE := by decide
  refine ⟨hlog, hsize.trans hmax, hnode, fun h => by omega, ?_, ?_, ?_⟩
  · intro bn hbn
    rw [hzero bn hbn]
    exact hmapped
  · intro bn hbn
    rw [hzero bn hbn]
    exact hdata
  · intro bn bn' hbn hbn' _
    rw [hzero bn hbn, hzero bn' hbn']

/-- The inode is in order and holds the bytes `c`. -/
structure Holds (fs : Fs) (i : Inode) (c : ℕ → Byte) : Prop extends FileOk fs i where
  bytes : ∀ k, k < i.size.toNat → fs.byteAt i k = c k

theorem putBytes_append (c : ℕ → Byte) (o : ℕ) (xs ys : List Byte) :
    putBytes (putBytes c o xs) (o + xs.length) ys = putBytes c o (xs ++ ys) := by
  funext k
  unfold putBytes
  by_cases h1 : o + xs.length ≤ k
  · rw [if_pos h1, if_pos (by omega), if_pos (by omega), List.getD_append_right _ _ _ _ (by omega),
      List.getD_eq_default xs _ (by omega), show k - (o + xs.length) = k - o - xs.length by omega]
  · rw [if_neg h1]
    split_ifs with h2
    · have hlt : k - o < xs.length := by omega
      rw [List.getD_append _ _ _ _ hlt, List.getD_eq_getElem _ _ hlt]
    · rfl

theorem putBytes_of_not_mem {c : ℕ → Byte} {o k : ℕ} {bs : List Byte}
    (h : ¬ (o ≤ k ∧ k < o + bs.length)) : putBytes c o bs k = c k := by
  unfold putBytes
  split_ifs with ho
  · exact List.getD_eq_default _ _ (by omega)
  · rfl

theorem putBytes_in {c : ℕ → Byte} {o k : ℕ} {bs : List Byte} (h : o ≤ k) {b : Byte}
    (hb : bs[k - o]? = some b) : putBytes c o bs k = b := by
  rw [putBytes, if_pos h, List.getD_eq_getElem?_getD, hb]
  rfl

theorem putBytes_congr {c c' : ℕ → Byte} {k : ℕ} (h : c' k = c k) (o : ℕ) (bs : List Byte) :
    putBytes c' o bs k = putBytes c o bs k := by
  unfold putBytes
  rw [h]

/-- The same bytes, seen from another origin. -/
theorem putBytes_shift {c c' : ℕ → Byte} {d k k' o o' : ℕ} {bs : List Byte} (h : c k = c' k')
    (hk : k' = d + k ∧ o' = d + o) : putBytes c o bs k = putBytes c' o' bs k' := by
  obtain ⟨rfl, rfl⟩ := hk
  unfold putBytes
  rw [h, Nat.add_sub_add_left]
  exact if_congr (by omega) rfl rfl

@[simp]
theorem putBytes_nil (c : ℕ → Byte) (o : ℕ) : putBytes c o [] = c :=
  funext fun k => putBytes_of_not_mem (by simp)

theorem putBytes_take {bs : List Byte} {m : ℕ} (hm : m ≤ bs.length) (c : ℕ → Byte) (o : ℕ) :
    (fun x => if o ≤ x ∧ x < o + m then bs.getD (x - o) 0 else c x) = putBytes c o (bs.take m) := by
  have htake : (bs.take m).length = m := by rwa [List.length_take, min_eq_left]
  funext x
  by_cases hx : o ≤ x ∧ x < o + m
  · rw [if_pos hx, putBytes, if_pos hx.1, List.getD_eq_getElem _ _ (by omega : x - o < bs.length),
      List.getD_eq_getElem _ _ (by omega : x - o < (bs.take m).length), List.getElem_take]
  · rw [if_neg hx, putBytes_of_not_mem (by rwa [htake])]

section

variable {fs fs' : Fs} {i : Inode} {c : ℕ → Byte}

/-- The addresses of an inode are seen in the indirect block only. -/
theorem blockAt_congr
    (h : i.addrs NDIRECT ≠ 0 → fs'.log.buf (i.addrs NDIRECT).toNat = fs.log.buf
      (i.addrs NDIRECT).toNat)
    (bn : ℕ) : fs'.blockAt i bn = fs.blockAt i bn := by
  unfold Fs.blockAt LogState.bread
  split_ifs with h1 h2
  · rfl
  · rfl
  · rw [h h2]

/-- A file is not changed by writes to other blocks. -/
theorem Holds.frame (h : Holds fs i c) (hsb : fs'.sb = fs.sb) (hin : fs'.inLog = fs.inLog)
    (hlog : LogOk fs'.log)
    (hbuf : ∀ b, ¬ fs.inLog b → b ≠ fs.inodeBlock i → fs'.log.buf b = fs.log.buf b) :
    Holds fs' i c := by
  have hblock : ∀ bn, bn * BSIZE < i.size.toNat → fs'.blockAt i bn = fs.blockAt i bn := by
    intro bn hbn
    by_cases hlt : bn < NDIRECT
    · rw [Fs.blockAt, Fs.blockAt, if_pos hlt, if_pos hlt]
    · have hind := h.indirect_out (by nlinarith)
      exact blockAt_congr (fun _ => hbuf _ hind.1 hind.2) bn
  have hinode : fs'.inodeBlock i = fs.inodeBlock i := by rw [Fs.inodeBlock, Fs.inodeBlock, hsb]
  constructor
  · refine ⟨hlog, h.size_le, ?_, ?_, fun bn hbn => ?_, fun bn hbn => ?_, fun bn bn' hbn hbn' => ?_⟩
    · rw [hin, hinode]
      exact h.inode_out
    · rw [hin, hinode]
      exact h.indirect_out
    · rw [hblock bn hbn]
      exact h.mapped bn hbn
    · rw [hblock bn hbn, hin, hinode]
      exact h.data_out bn hbn
    · rw [hblock bn hbn, hblock bn' hbn']
      exact h.distinct bn bn' hbn hbn'
  · intro k hk
    have hbn : k / BSIZE * BSIZE < i.size.toNat := (Nat.div_mul_le_self k BSIZE).trans_lt hk
    have hout := h.data_out _ hbn
    rw [← h.bytes k hk, Fs.byteAt, Fs.byteAt, hblock _ hbn, LogState.bread, LogState.bread,
      hbuf _ hout.1 hout.2.1]

/-- `bmap` of a block that has an address. -/
theorem bmap_mapped {E : Stop → Prop} {ip bn : ℕ} (hip : fs.itable ip = i) (hbn : bn < MAXFILE)
    (h : fs.blockAt i bn ≠ 0) :
    wp (bmap ip bn) E (fun b fs' => b = fs.blockAt i bn ∧ fs' = fs) fs := by
  have hrange : ¬ NINDIRECT ≤ bn - NDIRECT := by
    unfold MAXFILE NDIRECT NINDIRECT at *
    omega
  unfold Fs.blockAt at h ⊢
  unfold bmap getInode bread
  simp only [wp_bind, wp_get, wp_pure, wp_ite, wp_panicIf, hip]
  by_cases hlt : bn < NDIRECT
  · rw [if_pos hlt] at h ⊢
    rw [if_pos hlt, if_pos h]
    exact ⟨rfl, trivial⟩
  by_cases hz : i.addrs NDIRECT = 0
  · rw [if_neg hlt, if_pos hz] at h
    exact absurd rfl h
  rw [if_neg hlt, if_neg hz] at h ⊢
  rw [if_neg hlt, if_neg hrange, if_pos hz, if_pos h]
  exact ⟨rfl, trivial⟩

/-- The loop of `readi`, where the blocks below `e` have addresses. -/
theorem readiFrom_mapped {E : Stop → Prop} {ip e : ℕ} (hip : fs.itable ip = i)
    (hmap : ∀ bn, bn * BSIZE < e → bn < MAXFILE ∧ fs.blockAt i bn ≠ 0) {fuel off n : ℕ}
    (hn : n ≤ fuel) (hin : off + n ≤ e) :
    wp (readiFrom ip fuel off n) E (fun bs fs' => fs' = fs ∧
      bs = (List.range n).map fun k => fs.byteAt i (off + k)) fs := by
  induction fuel generalizing off n with
  | zero =>
    obtain rfl := Nat.le_zero.1 hn
    exact ⟨rfl, rfl⟩
  | succ fuel ih =>
    rw [readiFrom]
    by_cases h0 : n = 0
    · subst h0
      rw [if_pos rfl]
      exact ⟨rfl, rfl⟩
    have hmod : off % BSIZE < BSIZE := Nat.mod_lt _ (by decide)
    obtain ⟨hlt, hne⟩ := hmap (off / BSIZE) ((Nat.div_mul_le_self off BSIZE).trans_lt (by omega))
    rw [if_neg h0, wp_bind]
    refine (bmap_mapped hip hlt hne).mono fun b fs₁ hb => ?_
    obtain ⟨rfl, rfl⟩ := hb
    rw [bread, wp_bind, wp_bind, wp_get, wp_pure, wp_bind]
    -- this round copies `m` bytes of one block
    set m := min n (BSIZE - off % BSIZE) with hm
    refine (ih (by omega) (by omega)).mono fun rest fs₂ hrest => ?_
    obtain ⟨rfl, rfl⟩ := hrest
    refine ⟨rfl, ?_⟩
    have hsplit : n = m + (n - m) := by omega
    conv_rhs => rw [hsplit, List.range_add, List.map_append, List.map_map]
    congr 1
    · refine List.map_congr_left fun k hk => ?_
      have hk : k < m := List.mem_range.1 hk
      have hdiv : (off + k) / BSIZE = off / BSIZE := by
        unfold BSIZE at *
        omega
      have hmod : (off + k) % BSIZE = off % BSIZE + k := by
        unfold BSIZE at *
        omega
      rw [Fs.byteAt, hdiv, hmod]
    · refine List.map_congr_left fun k _ => ?_
      rw [Function.comp, Nat.add_assoc]

/-- A patch of one block of a file leaves the addresses alone. -/
theorem FileOk.blockAt_patch (h : FileOk fs i) {n : ℕ} (hn : n * BSIZE < i.size.toNat)
    {data : Block} (hbuf : fs'.log.buf = Function.update fs.log.buf (fs.blockAt i n).toNat data)
    (bn : ℕ) : fs'.blockAt i bn = fs.blockAt i bn := by
  refine blockAt_congr (fun _ => ?_) bn
  rw [hbuf, Function.update_of_ne]
  exact fun he => (h.data_out n hn).2.2 (BitVec.eq_of_toNat_eq he).symm

/-- A patch of one block of a file. -/
theorem Holds.patch (h : Holds fs i c) {off : ℕ} {bs : List Byte}
    (hblk : off % BSIZE + bs.length ≤ BSIZE) (hin : off + bs.length ≤ i.size.toNat)
    (hpos : 0 < bs.length) (hsame : SameTables fs fs') (hlog : LogOk fs'.log)
    (hbuf : fs'.log.buf = Function.update fs.log.buf (fs.blockAt i (off / BSIZE)).toNat
      (putBytes (fs.log.buf (fs.blockAt i (off / BSIZE)).toNat) (off % BSIZE) bs)) :
    Holds fs' i (putBytes c off bs) := by
  have hoff : off / BSIZE * BSIZE < i.size.toNat := by
    have := Nat.div_mul_le_self off BSIZE
    omega
  have hne : ∀ bn, bn * BSIZE < i.size.toNat → bn ≠ off / BSIZE →
      (fs.blockAt i bn).toNat ≠ (fs.blockAt i (off / BSIZE)).toNat := by
    intro bn hbn hbne he
    exact hbne (h.distinct _ _ hbn hoff (BitVec.eq_of_toNat_eq he))
  have hblock := h.toFileOk.blockAt_patch hoff hbuf
  have hinode : fs'.inodeBlock i = fs.inodeBlock i := by rw [Fs.inodeBlock, Fs.inodeBlock, hsame.sb]
  have hok : FileOk fs' i := by
    refine ⟨hlog, h.size_le, ?_, ?_, ?_, ?_, ?_⟩
    · rw [hsame.inLog, hinode]
      exact h.inode_out
    · rw [hsame.inLog, hinode]
      exact h.indirect_out
    all_goals simp only [hblock, hsame.inLog, hinode]
    exacts [h.mapped, h.data_out, h.distinct]
  refine ⟨hok, fun k hk => ?_⟩
  have hkb : k / BSIZE * BSIZE < i.size.toNat := (Nat.div_mul_le_self k BSIZE).trans_lt hk
  rw [Fs.byteAt, hblock, LogState.bread, hbuf]
  by_cases he : k / BSIZE = off / BSIZE
  · have hk' := Nat.div_add_mod k BSIZE
    have hoff' := Nat.div_add_mod off BSIZE
    rw [he] at hk' ⊢
    rw [Function.update_self]
    unfold putBytes
    have hc : fs.log.buf (fs.blockAt i (off / BSIZE)).toNat (k % BSIZE) = c k := by
      rw [← h.bytes k hk, Fs.byteAt, he]
      rfl
    by_cases hle : off ≤ k
    · rw [if_pos hle, if_pos (by omega), hc, show k % BSIZE - off % BSIZE = k - off by omega]
    · rw [if_neg hle, if_neg (by omega), hc]
  · rw [Function.update_of_ne (hne _ hkb he), putBytes_of_not_mem]
    · exact h.bytes k hk
    · rintro ⟨hle, hlt⟩
      have hk' := Nat.div_add_mod k BSIZE
      have hoff' := Nat.div_add_mod off BSIZE
      have : k / BSIZE < off / BSIZE + 1 := by
        rw [Nat.div_lt_iff_lt_mul (by decide), add_mul, mul_comm (off / BSIZE)]
        omega
      have := Nat.div_le_div_right (c := BSIZE) hle
      omega

/-- The blocks of `i` that hold the bytes of a range are in `S`. -/
def BlocksIn (fs : Fs) (i : Inode) (S : Finset ℕ) (off len : ℕ) : Prop :=
  ∀ bn, off / BSIZE ≤ bn → bn * BSIZE < off + len → (fs.blockAt i bn).toNat ∈ S

/-- The loop of `writei` inside the file logs the blocks of the range. -/
theorem writeiFrom_logs {ip : ℕ} {S : Finset ℕ} (hip : fs.itable ip = i) (h : Holds fs i c)
    {fuel off : ℕ} {bs : List Byte} (hfuel : bs.length ≤ fuel)
    (hin : off + bs.length ≤ i.size.toNat) (hS : BlocksIn fs i S off bs.length) :
    wp (writeiFrom ip fuel off bs) (LogStuck fs (Budget.load S some fs.log.log.lh))
      (fun _ fs' => SameTables fs fs' ∧ Holds fs' i (putBytes c off bs) ∧ Logs S fs fs' ∧
        ∀ bn, fs'.blockAt i bn = fs.blockAt i bn) fs := by
  induction fuel generalizing fs c off bs with
  | zero =>
    obtain rfl : bs = [] := List.length_eq_zero_iff.1 (Nat.le_zero.1 hfuel)
    exact ⟨.refl fs, by rwa [putBytes_nil], .refl S fs, fun _ => rfl⟩
  | succ fuel ih =>
    unfold writeiFrom
    by_cases hbs : bs = []
    · rw [if_pos hbs, hbs]
      exact ⟨.refl fs, by rwa [putBytes_nil], .refl S fs, fun _ => rfl⟩
    have hlen : 0 < bs.length := List.length_pos_iff.2 hbs
    have hmod : off % BSIZE < BSIZE := Nat.mod_lt _ (by decide)
    have hoff : off / BSIZE * BSIZE < i.size.toNat := by
      have := Nat.div_mul_le_self off BSIZE
      omega
    have hmax : off / BSIZE < MAXFILE := by
      have := h.size_le
      rw [Nat.div_lt_iff_lt_mul (by decide)]
      omega
    rw [if_neg hbs, wp_bind]
    refine (bmap_mapped hip hmax (h.mapped _ hoff)).mono fun b fs₁ hb => ?_
    obtain ⟨rfl, rfl⟩ := hb
    simp only [bread, wp_bind, wp_get, wp_pure]
    set m := min bs.length (BSIZE - off % BSIZE) with hm
    have hdata : (fun x => if off % BSIZE ≤ x ∧ x < off % BSIZE + m then bs.getD (x - off % BSIZE) 0
        else fs₁.log.bread (fs₁.blockAt i (off / BSIZE)).toNat x) =
        putBytes (fs₁.log.buf (fs₁.blockAt i (off / BSIZE)).toNat) (off % BSIZE) (bs.take m) :=
      putBytes_take (by omega) _ _
    rw [hdata]
    refine ((fsLogWrite_total h.log (h.data_out _ hoff).1 _).weaken
      fun e he => he.mono Budget.length_le_load).mono fun _ fs₂ hw => ?_
    obtain ⟨hsame, hlog, hbuf, hlh⟩ := hw
    have hlogs : Logs S fs₁ fs₂ :=
      .logged (hS _ le_rfl ((Nat.div_mul_le_self off BSIZE).trans_lt (by omega))) hlh
    have hblock := h.toFileOk.blockAt_patch hoff hbuf
    have htake : (bs.take m).length = m := by
      rw [List.length_take]
      omega
    have hstep : Holds fs₂ i (putBytes c off (bs.take m)) :=
      h.patch (by omega) (by omega) (by omega) hsame hlog hbuf
    have hdrop : (bs.drop m).length = bs.length - m := List.length_drop
    have hnext : BlocksIn fs₂ i S (off + m) (bs.drop m).length := fun bn hle hlt => by
      rw [hblock]
      exact hS bn ((Nat.div_le_div_right (Nat.le_add_right off m)).trans hle) (by omega)
    refine ((ih (hsame.itable ▸ hip) hstep (by omega) (by omega) hnext).weaken
      fun _ => hlogs.stuck).mono ?_
    rintro _ fs₃ ⟨hsame₃, hholds₃, hlogs₃, hblock₃⟩
    refine ⟨hsame.trans hsame₃, ?_, hlogs.trans hlogs₃, fun bn => (hblock₃ bn).trans (hblock bn)⟩
    have hcat := putBytes_append c off (bs.take m) (bs.drop m)
    rw [htake, List.take_append_drop] at hcat
    rwa [← hcat]

theorem iupdate_logs {ip : ℕ} {S : Finset ℕ} (hip : fs.itable ip = i) (h : Holds fs i c)
    (hS : fs.inodeBlock i ∈ S) :
    wp (iupdate ip) (LogStuck fs (Budget.load S some fs.log.log.lh))
      (fun _ fs' => SameTables fs fs' ∧ Holds fs' i c ∧ Logs S fs fs' ∧
        ∀ bn, bn * BSIZE < i.size.toNat → fs'.blockAt i bn = fs.blockAt i bn) fs := by
  unfold iupdate getInode bread
  simp only [wp_bind, wp_get, wp_pure, hip]
  refine ((fsLogWrite_total h.log h.inode_out _).weaken fun e he =>
    he.mono Budget.length_le_load).mono ?_
  rintro _ fs' ⟨hsame, hlog, hbuf, hlh⟩
  have hother {b : ℕ} (hb : b ≠ fs.inodeBlock i) : fs'.log.buf b = fs.log.buf b := by
    rw [hbuf]
    exact Function.update_of_ne hb ..
  refine ⟨hsame, h.frame hsame.sb hsame.inLog hlog fun b _ => hother, .logged hS hlh,
    fun bn hbn => ?_⟩
  rcases Nat.lt_or_ge bn NDIRECT with hlt | hge
  · rw [Fs.blockAt, Fs.blockAt, if_pos hlt, if_pos hlt]
  · refine blockAt_congr (fun _ => hother (h.indirect_out ?_).2) bn
    exact (Nat.mul_le_mul_right BSIZE hge).trans_lt hbn

/-- `writei` inside the file patches its bytes, and logs the blocks of the range and of the
inode. -/
theorem writei_logs {ip : ℕ} {S : Finset ℕ} (hip : fs.itable ip = i) (h : Holds fs i c) {off : U32}
    {bs : List Byte} (hin : off.toNat + bs.length ≤ i.size.toNat)
    (hS : BlocksIn fs i S off.toNat bs.length) (hnode : fs.inodeBlock i ∈ S) :
    wp (writei ip off bs) (LogStuck fs (Budget.load S some fs.log.log.lh))
      (fun w fs' => w = bs.length ∧ SameTables fs fs' ∧ Holds fs' i (putBytes c off.toNat bs) ∧
        Logs S fs fs' ∧
        ∀ bn, bn * BSIZE < i.size.toNat → fs'.blockAt i bn = fs.blockAt i bn) fs := by
  have hend : (off + BitVec.ofNat 32 bs.length).toNat = off.toNat + bs.length := by
    rw [BitVec.toNat_add, BitVec.toNat_ofNat]
    omega
  have hle := h.size_le
  unfold writei getInode
  simp only [wp_bind, wp_get, wp_pure, wp_ite, hip]
  rw [if_neg (by rw [BitVec.lt_def, BitVec.lt_def, hend]; omega), if_neg (by omega)]
  refine (writeiFrom_logs hip h le_rfl hin hS).mono ?_
  rintro _ fs₁ ⟨hsame, hholds, hlogs, hblock⟩
  have hip₁ : fs₁.itable ip = i := by rw [hsame.itable, hip]
  have hsz : ¬ (fs₁.itable ip).size < off + BitVec.ofNat 32 bs.length := by
    rw [hip₁, BitVec.lt_def, hend]
    omega
  unfold setInode
  rw [wp_modify]
  simp only [if_neg hsz, Function.update_eq_self]
  have hnode₁ : fs₁.inodeBlock i ∈ S := by rwa [Fs.inodeBlock, hsame.sb]
  refine ((iupdate_logs hip₁ hholds hnode₁).weaken fun _ => hlogs.stuck).mono ?_
  rintro _ fs₃ ⟨hsame₃, hholds₃, hlogs₃, hblock₃⟩
  refine ⟨?_, hsame.trans hsame₃, hholds₃, hlogs.trans hlogs₃,
    fun bn hbn => (hblock₃ bn hbn).trans (hblock bn)⟩
  have hmax : MAXFILE * BSIZE < 2 ^ 30 := by decide
  have hmod : (BitVec.ofNat 32 bs.length).toNat = bs.length := by
    rw [BitVec.toNat_ofNat]
    omega
  rw [BitVec.toInt_eq_toNat_of_lt (by omega), hmod]

/-- `writei` inside the file patches its bytes. -/
theorem writei_holds {ip : ℕ} (hip : fs.itable ip = i) (h : Holds fs i c) {off : U32}
    {bs : List Byte} (hin : off.toNat + bs.length ≤ i.size.toNat) :
    wp (writei ip off bs) (fun _ => True)
      (fun _ fs' => SameTables fs fs' ∧ Holds fs' i (putBytes c off.toNat bs)) fs := by
  -- the set of all blocks of the file will do
  have hS : BlocksIn fs i (insert (fs.inodeBlock i)
      ((Finset.range MAXFILE).image fun bn => (fs.blockAt i bn).toNat)) off.toNat bs.length := by
    intro bn _ hlt
    have hsize := h.size_le
    have hbn : bn < MAXFILE := Nat.lt_of_mul_lt_mul_right ((hlt.trans_le hin).trans_le hsize)
    exact Finset.mem_insert_of_mem (Finset.mem_image_of_mem _ (Finset.mem_range.2 hbn))
  exact ((writei_logs hip h hin hS (Finset.mem_insert_self _ _)).weaken fun _ _ => trivial).mono
    fun _ _ ⟨_, hsame, hholds, _⟩ => ⟨hsame, hholds⟩

end

/-! ### Code that leaves the files alone -/

/-- The same file behind two inodes. -/
structure SameInode (i i' : Inode) : Prop where
  inum : i'.inum = i.inum
  valid : i'.valid = i.valid
  nlink : i'.nlink = i.nlink
  size : i'.size = i.size
  addrs : i'.addrs = i.addrs

theorem SameInode.refl (i : Inode) : SameInode i i := ⟨rfl, rfl, rfl, rfl, rfl⟩

theorem SameInode.trans {i i' i'' : Inode} (h : SameInode i i') (h' : SameInode i' i'') :
    SameInode i i'' :=
  ⟨h'.inum.trans h.inum, h'.valid.trans h.valid, h'.nlink.trans h.nlink, h'.size.trans h.size,
    h'.addrs.trans h.addrs⟩

/-- The inodes and the blocks outside the log are the same. -/
structure SameFiles (fs fs' : Fs) : Prop where
  inode : ∀ x, SameInode (fs.itable x) (fs'.itable x)
  sb : fs'.sb = fs.sb
  start : fs'.log.log.start = fs.log.log.start
  size : fs'.log.log.size = fs.log.log.size
  blocks : LogOk fs.log → LogOk fs'.log ∧ ∀ b, ¬ fs.inLog b → fs'.log.buf b = fs.log.buf b

instance : Std.Refl SameFiles := ⟨fun _ =>
  ⟨fun _ => .refl _, rfl, rfl, rfl, fun h => ⟨h, fun _ _ => rfl⟩⟩⟩

instance : IsTrans Fs SameFiles := ⟨fun fs fs' fs'' h h' => by
  refine ⟨fun x => (h.inode x).trans (h'.inode x), h'.sb.trans h.sb, h'.start.trans h.start,
    h'.size.trans h.size, fun hlog => ?_⟩
  obtain ⟨hlog', hbuf⟩ := h.blocks hlog
  obtain ⟨hlog'', hbuf'⟩ := h'.blocks hlog'
  have hin := inLog_congr h.start h.size
  exact ⟨hlog'', fun b hb => (hbuf' b (by rwa [hin])).trans (hbuf b hb)⟩⟩

/-- Code that leaves the files alone. -/
abbrev KeepsFiles {α : Type} (m : F α) : Prop := Keeps (fun _ => True) SameFiles m

/-- `begin_op` and `end_op` do not touch the inodes; `end_op` changes no block outside the log. -/
theorem fsBeginOp_sameFiles (fs : Fs) :
    wp fsBeginOp (fun _ => True) (fun _ fs' => SameFiles fs fs' ∧ fs'.itable = fs.itable) fs := by
  unfold fsBeginOp beginOp
  rw [wp_bind, wp_get]
  split
  · next l hl =>
    split_ifs at hl
    cases hl
    exact ⟨⟨fun _ => .refl _, rfl, rfl, rfl, fun h => ⟨⟨⟨h.le, h.lt⟩, h.outside⟩, fun _ _ => rfl⟩⟩,
      rfl⟩
  · trivial

theorem fsEndOp_sameFiles (fs : Fs) :
    wp fsEndOp (fun _ => True) (fun _ fs' => SameFiles fs fs' ∧ fs'.itable = fs.itable) fs := by
  unfold fsEndOp endOp
  rw [wp_bind, wp_get]
  split
  · next l hl =>
    dsimp only at hl
    split_ifs at hl with hcom hzero
    · cases hl
      refine ⟨⟨fun _ => .refl _, rfl, by simp [commit_log], by simp [commit_log], fun h => ?_⟩, rfl⟩
      have hok : LogOk { fs.log with log := { fs.log.log with
          outstanding := fs.log.log.outstanding - 1, committing := true } } :=
        ⟨⟨h.le, h.lt⟩, h.outside⟩
      have hlt := h.lt
      refine ⟨⟨⟨?_, ?_⟩, ?_⟩, fun b hb => commit_buf hok hb⟩
      · simp [commit_log]
      · simp only [commit_log, List.length_nil]
        omega
      · simp [commit_log]
    · cases hl
      exact ⟨⟨fun _ => .refl _, rfl, rfl, rfl,
        fun h => ⟨⟨⟨h.le, h.lt⟩, h.outside⟩, fun _ _ => rfl⟩⟩, rfl⟩
  · trivial

theorem keepsFiles_setInode {ip : ℕ} {f : Inode → Inode} (h : ∀ i, SameInode i (f i)) :
    KeepsFiles (setInode ip f) := by
  refine .modify fun fs => ⟨fun x => ?_, rfl, rfl, rfl, fun h => ⟨h, fun _ _ => rfl⟩⟩
  by_cases hx : x = ip
  · subst hx
    simpa using h (fs.itable x)
  · simpa only [Function.update_of_ne hx] using .refl _

theorem iunlock_sameFiles (fs : Fs) (ip : ℕ) :
    wp (iunlock ip) (fun _ => True)
      (fun _ fs' => SameFiles fs fs' ∧ (fs'.itable ip).ref = (fs.itable ip).ref) fs := by
  have hkeep : KeepsFiles (iunlock ip) :=
    .bind (.bind .get fun _ => .pure _) fun _ => .bind (keeps_panicIf trivial) fun _ =>
      keepsFiles_setInode fun _ => ⟨rfl, rfl, rfl, rfl, rfl⟩
  refine (hkeep.start fs).and ?_
  unfold iunlock getInode setInode
  simp only [wp_bind, wp_get, wp_pure, wp_panicIf, wp_modify]
  split_ifs
  simp

/-- `iput` of a file that is not removed by it. -/
theorem iput_sameFiles {fs : Fs} {ip : ℕ}
    (h : ¬ ((fs.itable ip).ref = 1 ∧ (fs.itable ip).valid ∧ (fs.itable ip).nlink = 0)) :
    wp (iput ip) (fun _ => True) (fun _ fs' => SameFiles fs fs') fs := by
  unfold iput getInode
  simp only [wp_bind, wp_get, wp_pure, wp_ite]
  rw [if_neg h]
  refine (keepsFiles_setInode ?_).start fs
  exact fun _ => ⟨rfl, rfl, rfl, rfl, rfl⟩

section

variable {fs fs' : Fs} {i : Inode} {c : ℕ → Byte}

/-- The bytes of an inode depend on three of its fields. -/
theorem Holds.congr {i' : Inode} (h : Holds fs i c) (hinum : i'.inum = i.inum)
    (hsize : i'.size = i.size) (haddrs : i'.addrs = i.addrs) : Holds fs i' c := by
  obtain ⟨_, _, _, _, _, _, _, _, _, _, _⟩ := i
  obtain ⟨_, _, _, _, _, _, _, _, _, _, _⟩ := i'
  simp only at hinum hsize haddrs
  subst hinum hsize haddrs
  exact ⟨⟨h.log, h.size_le, h.inode_out, h.indirect_out, h.mapped, h.data_out, h.distinct⟩, h.bytes⟩

theorem Holds.contents {ip : ℕ} (h : Holds fs (fs.loaded ip) c) :
    fs.contents ip = (List.range (fs.loaded ip).size.toNat).map c :=
  List.map_congr_left fun k hk => h.bytes k (List.mem_range.1 hk)

/-- The inode on disk is seen through its block. -/
theorem SameFiles.loaded {ip : ℕ} (h : SameFiles fs fs') (hlog : LogOk fs.log)
    (hout : ¬ fs.inLog (fs.inodeBlock (fs.itable ip))) :
    SameInode (fs.loaded ip) (fs'.loaded ip) := by
  have hi := h.inode ip
  have hbuf := (h.blocks hlog).2 _ hout
  unfold Fs.inodeBlock at hbuf
  unfold Fs.loaded LogState.bread
  dsimp only
  rw [hi.valid, hi.inum, h.sb, hbuf]
  split_ifs with hv
  · exact hi
  · exact ⟨rfl, rfl, rfl, rfl, rfl⟩

theorem loaded_inum (fs : Fs) (ip : ℕ) : (fs.loaded ip).inum = (fs.itable ip).inum := by
  unfold Fs.loaded
  dsimp only
  split_ifs <;> rfl

theorem loaded_ref (fs : Fs) (ip : ℕ) : (fs.loaded ip).ref = (fs.itable ip).ref := by
  unfold Fs.loaded
  dsimp only
  split_ifs <;> rfl

theorem loaded_valid (fs : Fs) (ip : ℕ) : (fs.loaded ip).valid = true := by
  unfold Fs.loaded
  dsimp only
  split_ifs with h
  · exact h
  · rfl

theorem loaded_of_valid {fs : Fs} {ip : ℕ} (h : (fs.itable ip).valid = true) :
    fs.loaded ip = fs.itable ip := if_pos h

/-- `ilock` fills the inode in. -/
theorem ilock_loaded (fs : Fs) (ip : ℕ) :
    wp (ilock ip) (fun _ => True) (fun _ fs' => fs'.log = fs.log ∧ fs'.sb = fs.sb ∧
      fs'.itable ip = { fs.loaded ip with locked := true }) fs := by
  unfold ilock acquireInode getInode setInode bread Fs.loaded
  simp only [wp_bind, wp_get, wp_pure, wp_panicIf, wp_ite, wp_throw, wp_modify]
  cases hv : (fs.itable ip).valid <;> simp [hv]

/-- A file does not change if all files stay the same. -/
theorem SameFiles.holds {ip : ℕ} (h : SameFiles fs fs') (hc : Holds fs (fs.loaded ip) c) :
    Holds fs' (fs'.loaded ip) c := by
  have hout : ¬ fs.inLog (fs.inodeBlock (fs.itable ip)) := by
    have := hc.inode_out
    rwa [Fs.inodeBlock, loaded_inum] at this
  have hi := h.loaded hc.log hout
  obtain ⟨hlog, hbuf⟩ := h.blocks hc.log
  have hc' := hc.frame h.sb (inLog_congr h.start h.size) hlog fun b hb _ => hbuf b hb
  exact hc'.congr hi.inum hi.size hi.addrs

end

/-! ### The size of a file -/

/-- No size shrinks, and the inodes stay what they are. -/
def SizesGrow (fs fs' : Fs) : Prop :=
  ∀ x, (fs.itable x).size.toNat ≤ (fs'.itable x).size.toNat ∧
    (fs'.itable x).valid = (fs.itable x).valid ∧ (fs'.itable x).nlink = (fs.itable x).nlink ∧
      (fs'.itable x).ref = (fs.itable x).ref

theorem SizesGrow.refl (fs : Fs) : SizesGrow fs fs := fun _ => ⟨le_rfl, rfl, rfl, rfl⟩

theorem SizesGrow.trans {fs fs' fs'' : Fs} (h : SizesGrow fs fs') (h' : SizesGrow fs' fs'') :
    SizesGrow fs fs'' :=
  fun x => ⟨(h x).1.trans (h' x).1, (h' x).2.1.trans (h x).2.1, (h' x).2.2.1.trans (h x).2.2.1,
    (h' x).2.2.2.trans (h x).2.2.2⟩

instance : Std.Refl SizesGrow := ⟨.refl⟩

instance : IsTrans Fs SizesGrow := ⟨fun _ _ _ => .trans⟩

/-- Code that lets no file shrink. -/
abbrev KeepsSizes {α : Type} (m : F α) : Prop := Keeps (fun _ => True) SizesGrow m

theorem keepsSizes_fsLogWrite (b : U32) (data : Block) : KeepsSizes (fsLogWrite b data) := by
  refine .getBind fun fs => ?_
  rw [wp_bind, wp_panicIf]
  split_ifs
  split
  · exact fun x => SizesGrow.refl fs x
  · trivial

theorem keepsSizes_setInode {ip : ℕ} {f : Inode → Inode}
    (h : ∀ i, i.size.toNat ≤ (f i).size.toNat ∧ (f i).valid = i.valid ∧ (f i).nlink = i.nlink ∧
      (f i).ref = i.ref) : KeepsSizes (setInode ip f) := by
  refine .modify fun fs x => ?_
  by_cases hx : x = ip
  · subst hx
    simpa using h (fs.itable x)
  · simp [Function.update_of_ne hx]

theorem keepsSizes_bmap (ip bn : ℕ) : KeepsSizes (bmap ip bn) :=
  keeps_bmap keepsSizes_fsLogWrite (fun _ _ => keepsSizes_setInode fun _ => ⟨le_rfl, rfl, rfl, rfl⟩)
    trivial trivial bn

theorem keepsSizes_iupdate (ip : ℕ) : KeepsSizes (iupdate ip) :=
  keeps_iupdate keepsSizes_fsLogWrite ip

/-- A `writei` that succeeds makes the file reach the end of what is written. -/
theorem writei_grows (ip : ℕ) (off : U32) (bs : List Byte) (fs : Fs) :
    wp (writei ip off bs) (fun _ => True) (fun w fs' => SizesGrow fs fs' ∧
      (w = -1 ∨ off ≤ off + BitVec.ofNat 32 bs.length ∧
        off + BitVec.ofNat 32 bs.length ≤ (fs'.itable ip).size)) fs := by
  unfold writei
  simp only [getInode, wp_bind, wp_get, wp_pure, wp_ite]
  split_ifs with h1 h2
  · exact ⟨.refl fs, .inl trivial⟩
  · exact ⟨.refl fs, .inl trivial⟩
  rw [not_or, BitVec.not_lt, BitVec.not_lt] at h1
  have hloop := keeps_writeiFrom keepsSizes_fsLogWrite (keepsSizes_bmap ip)
  refine ((hloop _ _ bs).start fs).mono fun _ fs₁ h₁ => ?_
  have hset : KeepsSizes (setInode ip fun i => { i with
      size := if i.size < off + BitVec.ofNat 32 bs.length then off + BitVec.ofNat 32 bs.length
        else i.size }) := by
    refine keepsSizes_setInode fun i => ⟨?_, rfl, rfl, rfl⟩
    dsimp only
    split_ifs with h
    · exact (BitVec.lt_def.1 h).le
    · exact le_rfl
  have hreach : wp (setInode ip fun i => { i with
      size := if i.size < off + BitVec.ofNat 32 bs.length then off + BitVec.ofNat 32 bs.length
        else i.size }) (fun _ => True)
      (fun _ fs₂ => (off + BitVec.ofNat 32 bs.length).toNat ≤ (fs₂.itable ip).size.toNat) fs₁ := by
    unfold setInode
    rw [wp_modify]
    simp only [Function.update_self]
    split_ifs with h
    · exact le_rfl
    · exact BitVec.not_lt.1 h
  refine ((hset.start fs₁).and hreach).mono fun _ fs₂ h₂ => ?_
  refine ((keepsSizes_iupdate ip).start fs₂).mono fun _ fs₃ h₃ => ?_
  exact ⟨(h₁.trans h₂.1).trans h₃, .inr ⟨h1.2, h₂.2.trans (h₃ ip).1⟩⟩

end Xv6
