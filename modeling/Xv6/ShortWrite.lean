import Xv6.CopyView
import Xv6.FileArray

/-!
# Short writes

`writei` copies from user memory into the buffers of the file, block by block, and stops at the
first copy that fails.  What such a copy has done before it failed stays in the buffer: the bytes
from the last block boundary up to the page that cannot be read are in the cached block, though they
are not counted, and the block is not logged.  So a short write leaves the rest of the file alone
exactly if these bytes were there before, or lie beyond the end of the file.
-/

namespace Xv6

open Bytes Wp Tally

/-! ### What can be read -/

/-- The page that the process of `u` has at `va`, or 0. -/
def Kernel.userPage (s : Kernel) (u : UvmPtr) (va : U64) : U64 :=
  match pgtGetpa (s.uvms u).pagetable (pgRoundDown va) s.phys with
  | .ok (pa, _) => pa
  | .error _ => 0

/-- The byte of the process of `u` at `va`, if the page is there. -/
def Kernel.userByte (s : Kernel) (u : UvmPtr) (va : U64) : Option Byte :=
  if s.userPage u va = 0 then none
  else some (s.phys.mem (vpn (s.userPage u va)) (va.toNat % 4096))

/-- The bytes from `src` on, out of `n`, up to the first that is not there. -/
def Kernel.readable (s : Kernel) (u : UvmPtr) : U64 → ℕ → List Byte
  | _, 0 => []
  | src, n + 1 =>
    match s.userByte u src with
    | none => []
    | some b => b :: s.readable u (src + 1) n

section

variable {s : Kernel} {u : UvmPtr} {src : U64} {m n : ℕ}

theorem intOff_succ (src : U64) (n : ℕ) : src + 1 + intOff n = src + intOff (n + 1) := by
  rw [BitVec.add_assoc]
  congr 1
  rw [intOff, intOff, Nat.add_comm n, BitVec.ofNat_add]
  rfl

theorem length_readable_le (s : Kernel) (u : UvmPtr) (src : U64) (n : ℕ) :
    (s.readable u src n).length ≤ n := by
  induction n generalizing src with
  | zero => exact le_rfl
  | succ n ih =>
    rw [Kernel.readable]
    cases s.userByte u src with
    | none => exact Nat.zero_le _
    | some b => exact Nat.succ_le_succ (ih (src + 1))

/-- What can be read of two parts. -/
theorem readable_add (s : Kernel) (u : UvmPtr) (src : U64) (m n : ℕ) :
    s.readable u src (m + n) = if (s.readable u src m).length = m then
      s.readable u src m ++ s.readable u (src + intOff m) n else s.readable u src m := by
  induction m generalizing src with
  | zero =>
    have h0 : s.readable u src 0 = [] := rfl
    rw [Nat.zero_add, h0, if_pos List.length_nil,
      show src + intOff 0 = src from BitVec.add_zero src]
    rfl
  | succ m ih =>
    rw [Nat.succ_add, Kernel.readable, Kernel.readable]
    cases s.userByte u src with
    | none => rw [if_neg (by simp)]
    | some b =>
      dsimp only
      rw [ih, List.length_cons, intOff_succ]
      by_cases hm : (s.readable u (src + 1) m).length = m
      · rw [if_pos hm, if_pos (by rw [hm])]
        rfl
      · rw [if_neg hm, if_neg fun hc => hm (Nat.succ_inj.1 hc)]

/-- The bytes are there one by one. -/
theorem readable_all (h : ∀ k < n, (s.userByte u (src + intOff k)).isSome = true) :
    (s.readable u src n).map some = (List.range n).map fun k => s.userByte u (src + intOff k) := by
  induction n generalizing src with
  | zero => rfl
  | succ n ih =>
    have h0 := h 0 (Nat.succ_pos n)
    rw [show src + intOff 0 = src from BitVec.add_zero src] at h0
    obtain ⟨b, hb⟩ := Option.isSome_iff_exists.1 h0
    rw [Kernel.readable, hb, List.range_succ_eq_map]
    dsimp only
    rw [List.map_cons, List.map_cons, List.map_map, ih fun k hk => ?_]
    · rw [show src + intOff 0 = src from BitVec.add_zero src, hb]
      refine congrArg _ (List.map_congr_left fun k _ => ?_)
      rw [Function.comp_apply, intOff_succ]
    · rw [intOff_succ]
      exact h (k + 1) (by omega)

/-- An address on the page of `src`. -/
theorem same_page (src : U64) {k : ℕ} (hk : src.toNat % 4096 + k < 4096) :
    pgRoundDown (src + intOff k) = pgRoundDown src ∧
      (src + intOff k).toNat % 4096 = src.toNat % 4096 + k := by
  have hadd : (src + intOff k).toNat = src.toNat + k := by
    rw [intOff, BitVec.toNat_add, BitVec.toNat_ofNat]
    omega
  refine ⟨BitVec.eq_of_toNat_eq ?_, by omega⟩
  rw [toNat_pgRoundDown, toNat_pgRoundDown, hadd]
  omega

/-- A part of a page that is not there. -/
theorem readable_refused (h0 : s.userPage u src = 0) (hn : 0 < n) : s.readable u src n = [] := by
  obtain ⟨n, rfl⟩ := Nat.exists_eq_succ_of_ne_zero hn.ne'
  rw [Kernel.readable, Kernel.userByte, if_pos h0]

/-- A part of a page that is there. -/
theorem readable_page (h0 : s.userPage u src ≠ 0) (hn : src.toNat % 4096 + n ≤ 4096) :
    s.readable u src n =
      (List.range n).map fun k => s.phys.mem (vpn (s.userPage u src)) (src.toNat % 4096 + k) := by
  have hbyte (k : ℕ) (hk : k < n) : s.userByte u (src + intOff k) =
      some (s.phys.mem (vpn (s.userPage u src)) (src.toNat % 4096 + k)) := by
    obtain ⟨hpage, hmod⟩ := same_page src (k := k) (by omega)
    have hsame : s.userPage u (src + intOff k) = s.userPage u src := by
      rw [Kernel.userPage, hpage, Kernel.userPage]
    rw [Kernel.userByte, hsame, if_neg h0, hmod]
  refine List.map_injective_iff.2 (Option.some_injective _) ?_
  rw [readable_all fun k hk => by rw [hbyte k hk]; rfl, List.map_map]
  exact List.map_congr_left fun k hk => hbyte k (List.mem_range.1 hk)

/-! ### Copies -/

variable [Layout]

/-- No page of `[src, src + n)` is still to be brought in: `copyin` finds it, or is refused, and
changes nothing.  `sys_write` sees to that before it calls `filewrite`. -/
def Kernel.Checked (s : Kernel) (u : UvmPtr) (src : U64) (n : ℕ) : Prop :=
  ∀ k < n, src.toNat + k < 2 ^ 64 → ∀ fs, ∃ pa,
    Lookup (s.io s.phys fs) u (pgRoundDown (src + intOff k)) pa

theorem Kernel.Covered.checked (h : s.Covered u src n) : s.Checked u src n := by
  intro k hk hwrap fs
  have hadd : (src + intOff k).toNat = src.toNat + k := by
    rw [intOff, BitVec.toNat_add, BitVec.toNat_ofNat]
    omega
  have hdown := toNat_pgRoundDown (src + intOff k)
  by_cases hva : pgRoundDown (src + intOff k) < MAXVA
  · exact Kernel.Entered.lookup (s := s.io s.phys fs)
      (h _ (by omega) hva (by omega) (by omega) (by omega))
  · exact ⟨0, lookup_high _ u (BitVec.not_lt.1 hva)⟩

theorem Lookup.userPage {fs : Fs} {pa : U64} (h : Lookup (s.io s.phys fs) u (pgRoundDown src) pa) :
    s.userPage u src = pa := by
  have hget : pgtGetpa (s.uvms u).pagetable (pgRoundDown src) s.phys = .ok (pa, s.phys) := h.getpa
  rw [Kernel.userPage, hget]

omit [Layout] in
/-- A page that `pgt_getpa` finds begins at a page boundary. -/
theorem getpa_aligned {pt va pa : U64} {p p' : Phys} (h : pgtGetpa pt va p = .ok (pa, p')) :
    pa.toNat % 4096 = 0 := by
  have hw : wp (pgtGetpa pt va) (fun _ => True) (fun pa _ => pa.toNat % 4096 = 0) p := by
    unfold pgtGetpa
    split_ifs
    · rfl
    · rw [wp_bind]
      refine (wp_true _ _).mono fun r p₁ _ => ?_
      split
      · rfl
      · rw [wp_bind]
        refine (wp_true _ _).mono fun w p₂ _ => ?_
        rw [wp_ite]
        split_ifs
        · rfl
        · rw [wp_pure, toNat_pte2pa]
          omega
  exact hw.ok h

/-- A part of a page that `copyin` has found. -/
theorem Lookup.readBytes {fs : Fs} {pa : U64} (h : Lookup (s.io s.phys fs) u (pgRoundDown src) pa)
    (h0 : pa ≠ 0) (hn : src.toNat % 4096 + n ≤ 4096) :
    wp (readBytes (pa + (src - pgRoundDown src)) n) (fun _ => True)
      (fun bs p => p = s.phys ∧ bs = s.readable u src n) s.phys := by
  have hal := getpa_aligned h.getpa
  have hdown := toNat_pgRoundDown src
  have hoff : (src - pgRoundDown src).toNat = src.toNat % 4096 := by
    rw [BitVec.toNat_sub_of_le (by rw [BitVec.le_def]; omega)]
    omega
  have haddr : (pa + (src - pgRoundDown src)).toNat = pa.toNat + src.toNat % 4096 := by
    rw [BitVec.toNat_add, hoff]
    omega
  have hframe : (pa + (src - pgRoundDown src)).toNat / 4096 = vpn pa := by
    rw [haddr, vpn]
    omega
  have hmod : (pa + (src - pgRoundDown src)).toNat % 4096 = src.toNat % 4096 := by
    rw [haddr]
    omega
  have hpage := h.userPage
  rw [Xv6.readBytes, wp_bind, frame, wp_ite]
  split_ifs
  · rw [wp_pure, wp_bind, wp_get, wp_pure, hframe, hmod, readable_page (hpage.trans_ne h0) hn,
      hpage]
    exact ⟨rfl, rfl⟩
  · trivial

/-- The loop of `copyin` gets what can be read. -/
theorem Kernel.Checked.copyinFrom {len : U64} (h : s.Checked u src len.toNat) (fs : Fs) {fuel : ℕ}
    (hfuel : len.toNat ≤ fuel) (done : List Byte) :
    wp (copyinFrom u fuel done src len) (fun _ => True) (fun r t => t = s.io s.phys fs ∧
      r.2 = done ++ s.readable u src len.toNat ∧
      (r.1 = true ↔ (s.readable u src len.toNat).length = len.toNat)) (s.io s.phys fs) := by
  induction fuel generalizing done src len with
  | zero =>
    have h0 : len.toNat = 0 := Nat.le_zero.1 hfuel
    rw [h0]
    exact ⟨rfl, (List.append_nil _).symm, iff_of_true rfl rfl⟩
  | succ fuel ih =>
    rw [Xv6.copyinFrom, wp_ite]
    by_cases hlen : len = 0
    · rw [if_pos hlen, hlen]
      exact ⟨rfl, (List.append_nil _).symm, iff_of_true rfl rfl⟩
    have hpos := Nat.pos_of_ne_zero (pos_toNat hlen)
    rw [if_neg hlen]
    obtain ⟨pa, hl⟩ := h 0 hpos src.isLt fs
    rw [show src + intOff 0 = src from BitVec.add_zero src] at hl
    have hpage := hl.userPage
    rw [wp_bind, wp_of_ok hl.page, wp_ite]
    by_cases h0 : pa = 0
    · rw [if_pos h0, readable_refused (hpage.trans h0) hpos]
      exact ⟨rfl, (List.append_nil _).symm, iff_of_false Bool.false_ne_true hpos.ne⟩
    rw [if_neg h0, wp_bind, wp_liftP]
    have hn := toNat_pagePart src len
    have hrest := toNat_sub_pagePart src len
    have hlow : src.toNat < 2 ^ 38 := by
      by_contra hge
      have hM : MAXVA.toNat = 2 ^ 38 := by decide
      have hdown := toNat_pgRoundDown src
      have hhigh : Lookup (s.io s.phys fs) u (pgRoundDown src) 0 :=
        lookup_high _ u (by rw [BitVec.le_def]; omega)
      exact h0 (hpage.symm.trans hhigh.userPage)
    set n := umin (PGSIZE - (src - pgRoundDown src)) len with hnd
    have hread : wp (readBytes (pa + (src - pgRoundDown src)) n.toNat) (fun _ => True)
        (fun bs p => p = s.phys ∧ bs = s.readable u src n.toNat) s.phys :=
      hl.readBytes h0 (by omega)
    refine hread.mono ?_
    rintro bs p ⟨rfl, hbs⟩
    have hfull : (s.readable u src n.toNat).length = n.toNat := by
      rw [readable_page (hpage.trans_ne h0) (by omega), List.length_map, List.length_range]
    have hsplit : s.readable u src len.toNat =
        s.readable u src n.toNat ++ s.readable u (pgRoundDown src + PGSIZE) (len - n).toNat := by
      have hsum : len.toNat = n.toNat + (len - n).toNat := by omega
      rw [hsum, readable_add, if_pos hfull]
      by_cases hz : (len - n).toNat = 0
      · rw [hz, Kernel.readable, Kernel.readable]
      · have hrest : n.toNat = 4096 - src.toNat % 4096 := by omega
        have hnext := add_pagePart src 0
        rw [Nat.add_zero, ← hrest, show intOff 0 = 0#64 from rfl, BitVec.add_zero] at hnext
        rw [hnext]
    refine (ih ?_ (by omega) (done ++ bs)).mono ?_
    · intro k hk hwrap fs'
      have hdown := toNat_pgRoundDown src
      have hnext : (pgRoundDown src + PGSIZE).toNat = src.toNat / 4096 * 4096 + 4096 := by
        rw [BitVec.toNat_add, show PGSIZE.toNat = 4096 from rfl, hdown]
        omega
      have hfound := h (4096 - src.toNat % 4096 + k) (by omega) (by omega) fs'
      rwa [add_pagePart] at hfound
    · rintro r t ⟨ht, hr, hok⟩
      refine ⟨ht, ?_, ?_⟩
      · rw [hr, hbs, hsplit, List.append_assoc]
      · rw [hok, hsplit, List.length_append, hfull]
        omega

theorem Kernel.Checked.copyin (len : U64) (h : s.Checked u src len.toNat) (fs : Fs) :
    wp (copyin u src len) (fun _ => True) (fun r t => t = s.io s.phys fs ∧
      r.2 = s.readable u src len.toNat ∧
      (r.1 = true ↔ (s.readable u src len.toNat).length = len.toNat)) (s.io s.phys fs) :=
  h.copyinFrom fs le_rfl []

/-- The first part of a range. -/
theorem Kernel.Checked.take (h : s.Checked u src n) (hm : m ≤ n) : s.Checked u src m :=
  fun k hk => h k (hk.trans_le hm)

omit [Layout] in
/-- Bytes that can be read lie below `MAXVA`. -/
theorem lt_of_readable (h : (s.readable u src m).length = m) (hm : 0 < m) : src.toNat < 2 ^ 38 := by
  obtain ⟨m, rfl⟩ := Nat.exists_eq_succ_of_ne_zero hm.ne'
  by_contra hge
  have h0 : s.userPage u src = 0 := by
    have hM : MAXVA.toNat = 2 ^ 38 := by decide
    have hdown := toNat_pgRoundDown src
    have hle : MAXVA ≤ pgRoundDown src := by
      rw [BitVec.le_def]
      omega
    rw [Kernel.userPage, pgtGetpa, if_pos hle]
    rfl
  rw [readable_refused h0 hm] at h
  cases h

/-- The rest of a range, when the first part can be read. -/
theorem Kernel.Checked.drop (h : s.Checked u src n) (hm : m ≤ n) (hsmall : m < 2 ^ 38)
    (hread : (s.readable u src m).length = m) : s.Checked u (src + intOff m) (n - m) := by
  intro k hk hwrap fs
  rcases Nat.eq_zero_or_pos m with rfl | hpos
  · have hz : src + intOff 0 = src := BitVec.add_zero src
    rw [hz] at hwrap ⊢
    exact h k (by omega) hwrap fs
  · have hlt := lt_of_readable hread hpos
    have hadd : (src + intOff m).toNat = src.toNat + m := by
      rw [intOff, BitVec.toNat_add, BitVec.toNat_ofNat]
      omega
    have hsum : src + intOff m + intOff k = src + intOff (m + k) := by
      rw [BitVec.add_assoc, intOff, intOff, intOff, ← BitVec.ofNat_add]
    rw [hsum]
    exact h (m + k) (by omega) (by omega) fs

end

/-! ### What is logged -/

/-- Only blocks in `X` are changed without the log, and the disk is left alone. -/
structure LogsBut (X : Set ℕ) (fs fs' : Fs) : Prop where
  disk : fs'.log.disk = fs.log.disk
  lh : fs.log.log.lh ⊆ fs'.log.log.lh
  buf : ∀ b ∉ fs'.log.log.lh, b ∉ X → fs'.log.buf b = fs.log.buf b

section

variable {X Y : Set ℕ} {fs fs' fs'' : Fs}

theorem LogsBut.refl (X : Set ℕ) (fs : Fs) : LogsBut X fs fs :=
  ⟨rfl, List.Subset.refl _, fun _ _ _ => rfl⟩

theorem LogsBut.trans (h : LogsBut X fs fs') (h' : LogsBut X fs' fs'') : LogsBut X fs fs'' :=
  ⟨h'.disk.trans h.disk, List.Subset.trans h.lh h'.lh,
    fun b hb hX => (h'.buf b hb hX).trans (h.buf b (fun hb' => hb (h'.lh hb')) hX)⟩

theorem LogsBut.mono (h : LogsBut X fs fs') (hX : X ⊆ Y) : LogsBut Y fs fs' :=
  ⟨h.disk, h.lh, fun b hb hY => h.buf b hb fun hb' => hY (hX hb')⟩

instance : Std.Refl (LogsBut X) := ⟨LogsBut.refl X⟩

instance : IsTrans Fs (LogsBut X) := ⟨fun _ _ _ => LogsBut.trans⟩

theorem logWrite_logs {l l' : LogState} {b : ℕ} {data : Block} (h : logWrite l b data = some l') :
    l'.disk = l.disk ∧ l.log.lh ⊆ l'.log.lh ∧ b ∈ l'.log.lh ∧
      l'.buf = Function.update l.buf b data := by
  unfold logWrite at h
  dsimp only at h
  split_ifs at h with _ _ hb
  · cases h
    exact ⟨rfl, List.Subset.refl _, hb, rfl⟩
  · cases h
    exact ⟨rfl, List.subset_append_left _ _, List.mem_append_right _ (List.mem_singleton_self b),
      rfl⟩

/-- Code that changes blocks by way of the log only. -/
abbrev KeepsLogs {α : Type} (m : F α) : Prop := Keeps (fun _ => True) (LogsBut ∅) m

theorem keepsLogs_fsLogWrite (b : U32) (data : Block) : KeepsLogs (fsLogWrite b data) := by
  refine .getBind fun fs => ?_
  rw [wp_bind, wp_panicIf]
  split_ifs
  split
  next l hl =>
    obtain ⟨hdisk, hlh, hb, hbuf⟩ := logWrite_logs hl
    refine ⟨hdisk, hlh, fun c hc _ => ?_⟩
    rw [hbuf, Function.update_of_ne]
    rintro rfl
    exact hc hb
  next => trivial

theorem keepsLogs_setInode (ip : ℕ) (f : Inode → Inode) : KeepsLogs (setInode ip f) :=
  .modify fun _ => ⟨rfl, List.Subset.refl _, fun _ _ _ => rfl⟩

theorem keepsLogs_bmap (ip bn : ℕ) : KeepsLogs (bmap ip bn) :=
  keeps_bmap keepsLogs_fsLogWrite (fun _ _ => keepsLogs_setInode ip _) trivial trivial bn

theorem keepsLogs_iupdate (ip : ℕ) : KeepsLogs (iupdate ip) := keeps_iupdate keepsLogs_fsLogWrite ip

end

/-! ### The loop of `writei` -/

/-- The blocks with the data of an inode. -/
def dataBlocks (D : ℕ → Dinode) (fs : Fs) (inum : ℕ) : Set ℕ :=
  {b | ∃ n < MAXFILE, slotPtr fs D (inum, n) = some b}

/-- What `writei` counts of `n` bytes at `off` when `a` can be read: the part before the last block
boundary, unless it gets everything. -/
def counted (off n a : ℕ) : ℕ := if a = n then n else a - min a ((off + a) % BSIZE)

/-- The bytes `bs` are in the buffers of inode `inum`. -/
structure Buffered (ip inum off : ℕ) (bs : List Byte) (D : ℕ → Dinode) (fs : Fs) (D' : ℕ → Dinode)
    (fs' : Fs) : Prop extends Grown ip inum D fs D' fs' where
  self : ∀ k < MAXFILE * BSIZE, fileByte fs' D' inum k = putBytes (fileByte fs D inum) off bs k
  logs : LogsBut (dataBlocks D' fs' inum) fs fs'

section

variable {D D' D'' : ℕ → Dinode} {x : Option ℕ} {fs fs' fs'' : Fs} {ip inum off : ℕ}

/-- The copy into the first block fails. -/
theorem counted_short {off n a : ℕ} (ha : off % BSIZE + a < BSIZE) (hn : a < n) :
    counted off n a = 0 := by
  have hmod : (off + a) % BSIZE = off % BSIZE + a := by
    rw [Nat.add_mod, Nat.mod_eq_of_lt (a := a) (by omega), Nat.mod_eq_of_lt ha]
  rw [counted, if_neg hn.ne, hmod]
  omega

/-- The first block is written. -/
theorem counted_step {off n a m : ℕ} (hm : m = min n (BSIZE - off % BSIZE)) (ha : a ≤ n - m) :
    counted off n (m + a) = m + counted (off + m) (n - m) a := by
  rw [counted, counted]
  by_cases hall : a = n - m
  · rw [if_pos (by omega), if_pos hall]
    omega
  · have hB : BSIZE = 1024 := rfl
    rw [if_neg (by omega), if_neg hall, Nat.add_assoc off m a]
    rw [hB] at hm ⊢
    omega

theorem Grown.dataBlocks (h : Grown ip inum D fs D' fs') (hi : inum < fs.sb.ninodes.toNat) :
    dataBlocks D fs inum ⊆ dataBlocks D' fs' inum :=
  fun b ⟨n, hn, hb⟩ => ⟨n, hn, h.ptr _ (mem_slotsOf hi hn.le) b hb⟩

theorem Buffered.refl (ip inum off : ℕ) (D : ℕ → Dinode) (fs : Fs) :
    Buffered ip inum off [] D fs D fs :=
  ⟨.refl .., fun k _ => by rw [putBytes_nil], .refl ..⟩

theorem Buffered.trans {bs cs : List Byte} (h : Buffered ip inum off bs D fs D' fs')
    (h' : Buffered ip inum (off + bs.length) cs D' fs' D'' fs'') (hi : inum < fs.sb.ninodes.toNat) :
    Buffered ip inum off (bs ++ cs) D fs D'' fs'' := by
  refine ⟨h.toGrown.trans h'.toGrown, fun k hk => ?_,
    (h.logs.mono (h'.toGrown.dataBlocks (h.sb ▸ hi))).trans h'.logs⟩
  rw [h'.self k hk, ← putBytes_append]
  exact putBytes_congr (h.self k hk) _ _

/-- `bmap` leaves the bytes alone. -/
theorem bmap_buffered {bn : ℕ} (h : FsOk D (some inum) fs) (hip : InCore fs ip inum)
    (hmax : bn < MAXFILE) (off : ℕ) :
    wp (bmap ip bn) (fun _ => True) (fun b fs' => ∃ D', FsOk D' (some inum) fs' ∧
      Buffered ip inum off [] D fs D' fs' ∧ slotPtr fs' D' (inum, bn) = some b.toNat) fs := by
  have hi := (h.inCore hip).2.2
  have hV : ∀ m ∈ ({bn, MAXFILE} : Finset ℕ), m ≤ MAXFILE := by
    intro m hm
    rw [Finset.mem_insert, Finset.mem_singleton] at hm
    omega
  have hb := (bmap_total h hip hmax hV (Finset.mem_insert_self ..) fun _ =>
    Finset.mem_insert_of_mem (Finset.mem_singleton_self _)).orStop
  refine (hb.and ((keepsLogs_bmap ip bn).start fs)).mono fun b fs' ⟨⟨D', h', hg, hp⟩, hlogs⟩ =>
    ⟨D', h', ⟨hg.toGrown, fun k hk => ?_, hlogs.mono (Set.empty_subset _)⟩, hp⟩
  rw [putBytes_nil, hg.fileByte hi hk]

/-- The bytes that a copy got are put in a block. -/
theorem FsOk.buffer (h : FsOk D (some inum) fs) (ip : ℕ) (hi : inum < fs.sb.ninodes.toNat)
    (hmax : off / BSIZE < MAXFILE) {b : U32} {bs : List Byte}
    (hp : slotPtr fs D (inum, off / BSIZE) = some b.toNat) (hfit : off % BSIZE + bs.length ≤ BSIZE)
    (hs : SameTables fs fs') (hlog : LogOk fs'.log)
    (hbuf : fs'.log.buf =
      Function.update fs.log.buf b.toNat (putBytes (fs.log.buf b.toNat) (off % BSIZE) bs))
    (hdisk : fs'.log.disk = fs.log.disk) (hlh : fs.log.log.lh ⊆ fs'.log.log.lh) :
    FsOk D (some inum) fs' ∧ Buffered ip inum off bs D fs D fs' := by
  obtain ⟨h', hsp, hself, -⟩ := h.patchBuf hi hmax hp hfit hs hlog hbuf
  have hg : Grown ip inum D fs D fs' := hsp.grown hs.sb (by rw [hs.itable])
  refine ⟨h', hg, hself, hdisk, hlh, fun c _ hc => ?_⟩
  rw [hbuf, Function.update_of_ne]
  rintro rfl
  exact hc (hg.dataBlocks hi ⟨_, hmax, hp⟩)

theorem fsLogWrite_buffered (h : FsOk D (some inum) fs) (ip : ℕ) (hi : inum < fs.sb.ninodes.toNat)
    (hmax : off / BSIZE < MAXFILE) {b : U32} {bs : List Byte}
    (hp : slotPtr fs D (inum, off / BSIZE) = some b.toNat)
    (hfit : off % BSIZE + bs.length ≤ BSIZE) : wp
    (fsLogWrite b (putBytes (fs.log.buf b.toNat) (off % BSIZE) bs)) (fun _ => True)
      (fun _ fs' => FsOk D (some inum) fs' ∧ Buffered ip inum off bs D fs D fs') fs := by
  have hin := h.owned.marks.inside _ (mem_slotsOf hi hmax.le) _ hp
  have hlog := (fsLogWrite_total h.log (h.data_out hin)
    (putBytes (fs.log.buf b.toNat) (off % BSIZE) bs)).orStop
  exact (hlog.and ((keepsLogs_fsLogWrite b _).start fs)).mono
    fun _ fs' ⟨⟨hs, hl, hbuf, _⟩, hlogs⟩ =>
    h.buffer ip hi hmax hp hfit hs hl hbuf hlogs.disk hlogs.lh

theorem setBuf_buffered (h : FsOk D (some inum) fs) (ip : ℕ) (hi : inum < fs.sb.ninodes.toNat)
    (hmax : off / BSIZE < MAXFILE) {b : U32} {bs : List Byte}
    (hp : slotPtr fs D (inum, off / BSIZE) = some b.toNat)
    (hfit : off % BSIZE + bs.length ≤ BSIZE) : wp
    (setBuf b (putBytes (fs.log.buf b.toNat) (off % BSIZE) bs)) (fun _ => True)
      (fun _ fs' => FsOk D (some inum) fs' ∧ Buffered ip inum off bs D fs D fs') fs :=
  h.buffer ip hi hmax hp hfit ⟨rfl, rfl, rfl, rfl⟩ ⟨⟨h.log.le, h.log.lt⟩, h.log.outside⟩ rfl rfl
    (List.Subset.refl _)

variable [Layout] {s : Kernel} {u : UvmPtr} {src : U64} {n : ℕ}

/-- The loop of `writei` gets the bytes that can be read into the buffers, and counts those of whole
copies. -/
theorem Kernel.Checked.writeiUserFrom {fuel tot : ℕ} (hc : s.Checked u src n)
    (h : FsOk D (some inum) fs) (hip : InCore fs ip inum) (hfill : Filled D fs inum off)
    (hend : off + n ≤ MAXFILE * BSIZE) (hfuel : n ≤ fuel) :
    wp (writeiUserFrom u ip fuel src off n tot) (fun _ => True) (fun r t =>
      ∃ fs' D', t = s.io s.phys fs' ∧ FsOk D' (some inum) fs' ∧
        Buffered ip inum off (s.readable u src n) D fs D' fs' ∧
        r = (tot + counted off n (s.readable u src n).length,
          off + counted off n (s.readable u src n).length) ∧
        Filled D' fs' inum r.2) (s.io s.phys fs) := by
  have hi := (h.inCore hip).2.2
  induction fuel generalizing fs D src off n tot with
  | zero =>
    obtain rfl := Nat.le_zero.1 hfuel
    exact ⟨fs, D, rfl, h, .refl .., rfl, hfill⟩
  | succ fuel ih =>
    rw [Xv6.writeiUserFrom, wp_ite]
    by_cases hn : n = 0
    · obtain rfl := hn
      rw [if_pos rfl]
      exact ⟨fs, D, rfl, h, .refl .., rfl, hfill⟩
    have hB : BSIZE = 1024 := rfl
    have hmod : off % BSIZE < BSIZE := Nat.mod_lt _ (by decide)
    have hmax : off / BSIZE < MAXFILE := block_of_byte (by omega)
    rw [if_neg hn, wp_bind, wp_liftF]
    refine (bmap_buffered h hip hmax off).mono ?_
    rintro b fs₁ ⟨D₁, h₁, hb₁, hp⟩
    have hip₁ := hip.same hb₁.head
    have hi₁ := (h₁.inCore hip₁).2.2
    have hfill₁ : Filled D₁ fs₁ inum off := hfill.grown hi (by omega) hb₁.toGrown
    change wp _ _ _ (s.io s.phys fs₁)
    rw [wp_bind, wp_liftF, wp_bread, wp_bind]
    generalize hm : min n (BSIZE - off % BSIZE) = m
    have hlen : (intOff m).toNat = m := by
      rw [intOff, BitVec.toNat_ofNat]
      omega
    have hcopy := Kernel.Checked.copyin (intOff m) (by rw [hlen]; exact hc.take (by omega)) fs₁
    rw [hlen] at hcopy
    refine hcopy.mono ?_
    rintro ⟨ok, bs⟩ t ⟨ht, hr, hok⟩
    obtain rfl : bs = s.readable u src m := hr
    subst ht
    dsimp only at hok ⊢
    have hshort := length_readable_le s u src m
    have hdata : (fun x => if off % BSIZE ≤ x ∧ x < off % BSIZE + (s.readable u src m).length then
        (s.readable u src m).getD (x - off % BSIZE) 0 else (s.io s.phys fs₁).fs.log.buf b.toNat x) =
        putBytes (fs₁.log.buf b.toNat) (off % BSIZE) (s.readable u src m) := by
      rw [putBytes_take le_rfl, List.take_length]
      rfl
    have hsplit := readable_add s u src m (n - m)
    rw [show m + (n - m) = n by omega] at hsplit
    rw [hdata]
    by_cases hall : (s.readable u src m).length = m
    · rw [if_pos hall] at hsplit
      rw [if_neg (by simp [hok.2 hall]), wp_bind, wp_liftF]
      refine (fsLogWrite_buffered h₁ ip hi₁ hmax hp (by omega)).mono ?_
      rintro _ fs₂ ⟨h₂, hb₂⟩
      have hb : Buffered ip inum off (s.readable u src m) D fs D₁ fs₂ := hb₁.trans hb₂ hi
      have hfill₂ : Filled D₁ fs₂ inum (off + m) :=
        (hfill₁.add (by simp [hp]) (by omega)).grown hi₁ (by omega) hb₂.toGrown
      refine (ih (hc.drop (by omega) (by omega) hall) h₂ (hip₁.same hb₂.head) hfill₂ (by omega)
        (by omega) (hb₂.sb ▸ hi₁)).mono ?_
      rintro r t ⟨fs₃, D₃, ht, h₃, hb₃, hr, hfill₃⟩
      refine ⟨fs₃, D₃, ht, h₃, ?_, ?_, hfill₃⟩
      · rw [hsplit]
        exact hb.trans (by rwa [hall]) hi
      · rw [hr, hsplit, List.length_append, hall,
          counted_step hm.symm (length_readable_le s u (src + intOff m) (n - m)), Nat.add_assoc,
          Nat.add_assoc]
    · -- the copy fails, and what it has done is in the buffer
      rw [if_neg hall] at hsplit
      rw [if_pos (by simpa using fun h => hall (hok.1 h)), wp_bind, wp_liftF]
      refine (setBuf_buffered h₁ ip hi₁ hmax hp (by omega)).mono ?_
      rintro _ fs₂ ⟨h₂, hb₂⟩
      rw [hsplit, counted_short (by omega) (by omega)]
      exact ⟨fs₂, D₁, rfl, h₂, hb₁.trans hb₂ hi, rfl, hfill₁.grown hi₁ (by omega) hb₂.toGrown⟩

/-- The file after `writei` of `bs`, of which `w` are counted. -/
structure Stored (ip inum off w : ℕ) (bs : List Byte) (D : ℕ → Dinode) (fs : Fs) (D' : ℕ → Dinode)
    (fs' : Fs) : Prop where
  size : (D' inum).size.toNat = max (D inum).size.toNat (off + w)
  ptr : ∀ bn < MAXFILE, ∀ b, slotPtr fs D (inum, bn) = some b → slotPtr fs' D' (inum, bn) = some b
  self : ∀ k < MAXFILE * BSIZE, fileByte fs' D' inum k = putBytes (fileByte fs D inum) off bs k
  logs : LogsBut (dataBlocks D' fs' inum) fs fs'
  head : SameHead (fs.itable ip) (fs'.itable ip)

theorem Kernel.Checked.writeiUser (off : U32) {n : U32} (hc : s.Checked u src n.toNat)
    (h : FsOk D none s.fs) (hip : InCore s.fs ip inum) :
    wp (writeiUser u ip src off n) (fun _ => True) (fun r t =>
      OutOfFile s.fs ip off.toNat n.toNat ∧ r = -1 ∧ t = s ∨
      ¬ OutOfFile s.fs ip off.toNat n.toNat ∧
        r = counted off.toNat n.toNat (s.readable u src n.toNat).length ∧
        ∃ D', FsOk D' none t.fs ∧ Stored ip inum off.toNat
          (counted off.toNat n.toNat (s.readable u src n.toNat).length) (s.readable u src n.toNat)
          D s.fs D' t.fs) s := by
  obtain ⟨hd, ht, hi⟩ := h.inCore hip
  have hofs := off.isLt
  rw [Xv6.writeiUser, wp_bind, wp_liftF, wp_getInode]
  by_cases hout : (s.fs.itable ip).size < off ∨ off + n < off
  · rw [if_pos hout]
    refine .inl ⟨?_, rfl, rfl⟩
    rw [BitVec.lt_def, BitVec.lt_def, BitVec.toNat_add] at hout
    exact hout.imp_right fun hwrap => .inl (by omega)
  rw [if_neg hout]
  rw [not_or, BitVec.not_lt, BitVec.not_lt, BitVec.le_def, BitVec.le_def] at hout
  have hadd : (off + n).toNat = off.toNat + n.toNat := by
    have := hout.2
    rw [BitVec.toNat_add] at this ⊢
    omega
  by_cases hbig : MAXFILE * BSIZE < (off + n).toNat
  · rw [if_pos hbig]
    exact .inl ⟨.inr (.inr (hadd ▸ hbig)), rfl, rfl⟩
  rw [if_neg hbig, wp_bind]
  have hin : ¬ OutOfFile s.fs ip off.toNat n.toNat := by
    unfold OutOfFile
    omega
  have hfill : Filled D s.fs inum off.toNat := by
    intro bn hbn
    refine h.owned.mapped inum hi ht bn (hbn.trans_le ?_)
    rw [← hd]
    exact hout.1
  have hread := length_readable_le s u src n.toNat
  generalize hw : counted off.toNat n.toNat (s.readable u src n.toNat).length = w
  have hle : w ≤ n.toNat := by
    rw [← hw, counted]
    split_ifs <;> omega
  refine (hc.writeiUserFrom (h.opened _) hip hfill (by omega) le_rfl).mono ?_
  rintro r t ⟨fs₁, D₁, ht₁, h₁, hb₁, hr, hfill₁⟩
  rw [hw, Nat.zero_add] at hr
  subst hr ht₁
  have hmax : MAXFILE * BSIZE < 2 ^ 32 := by decide
  have he : (BitVec.ofNat 32 (off.toNat + w)).toNat = off.toNat + w := by
    rw [BitVec.toNat_ofNat]
    omega
  have hip₁ := hip.same hb₁.head
  have hend := (setSize_total h₁ hip₁ (by rw [he]; omega) (by rwa [he])).orStop
  have hlogs := ((keepsLogs_setInode ip fun i => { i with
    size := if i.size < BitVec.ofNat 32 (off.toNat + w) then BitVec.ofNat 32 (off.toNat + w)
      else i.size }).bind fun _ => keepsLogs_iupdate ip).start fs₁
  have hboth := hend.and hlogs
  rw [wp_bind] at hboth
  rw [wp_bind, wp_liftF]
  refine hboth.mono fun _ fs₂ h₂ => ?_
  rw [wp_bind, wp_liftF]
  refine h₂.mono ?_
  rintro _ fs₃ ⟨⟨D₃, h₃, hsb, htype, hsz, hD, hslot, hhead, hent⟩, hlogs₃⟩
  have hi₁ : inum < fs₁.sb.ninodes.toNat := (h₁.inCore hip₁).2.2
  have hptr {bn : ℕ} (hbn : bn < MAXFILE) : slotPtr fs₃ D₃ (inum, bn) = slotPtr fs₁ D₁ (inum, bn) :=
    (hslot _ (mem_slotsOf hi₁ hbn.le)).1
  have hX : dataBlocks D₃ fs₃ inum = dataBlocks D₁ fs₁ inum :=
    Set.ext fun b => exists_congr fun bn => and_congr_right fun hbn => by rw [hptr hbn]
  refine .inr ⟨hin, rfl, D₃, h₃, (?_ : Stored ip inum off.toNat w _ D s.fs D₃ fs₃)⟩
  refine ⟨?_, fun bn hbn b hb => ?_, fun k hk => ?_, ?_, hb₁.head.trans hhead⟩
  · rw [hsz, hb₁.size, he]
  · rw [hptr hbn]
    exact hb₁.ptr _ (mem_slotsOf hi hbn.le) b hb
  · rw [← hb₁.self k hk]
    exact congrFun (hslot _ (mem_slotsOf hi₁ (block_of_byte hk).le)).2 _
  · rw [hX]
    exact hb₁.logs.trans (hlogs₃.mono (Set.empty_subset _))

/-! ### Later reads -/

/-- The cached copies of the blocks in `E` are dropped: a later read gets them from the disk. -/
def Fs.evict (fs : Fs) (E : Finset ℕ) : Fs :=
  { fs with log := { fs.log with
      buf := fun b => if b ∈ E then fs.log.disk b else fs.log.buf b } }

/-- Reads of the file at `ip` from `off` on return in `fs'` what they return in `fs`, whatever has
been evicted: of the blocks that are not pinned by the log, and were clean in `fs`. -/
def ReadsSame (ip : ℕ) (fs fs' : Fs) (off : ℕ) : Prop :=
  ∀ E : Finset ℕ, (∀ b ∈ E, b ∉ fs'.log.log.lh ∧ fs.log.buf b = fs.log.disk b) →
    ∀ off' n : U32, off ≤ off'.toNat →
      resultOf (readi ip off' n (fs'.evict E)) = resultOf (readi ip off' n fs)

omit [Layout] in
theorem evict_clean {E : Finset ℕ} (h : ∀ b ∈ E, fs.log.disk b = fs.log.buf b) :
    fs.evict E = fs := by
  have hbuf : (fun b => if b ∈ E then fs.log.disk b else fs.log.buf b) = fs.log.buf :=
    funext fun b => ite_eq_right_iff.2 (h b)
  rw [Fs.evict, hbuf]

omit [Layout] in
theorem evict_empty (fs : Fs) : fs.evict ∅ = fs := evict_clean (by simp)

omit [Layout] in
/-- Eviction of blocks that are clean, but for data of a file. -/
theorem FsOk.evict {E : Finset ℕ} (h : FsOk D none fs) (hi : inum < fs.sb.ninodes.toNat)
    (hE : ∀ b ∈ E, b ∉ dataBlocks D fs inum → fs.log.disk b = fs.log.buf b) :
    FsOk D none (fs.evict E) ∧ Spares D fs (fs.evict E) := by
  have hsame {b : ℕ} (hb : b ∉ dataBlocks D fs inum) : (fs.evict E).log.buf b = fs.log.buf b := by
    change (if b ∈ E then fs.log.disk b else fs.log.buf b) = _
    split_ifs with hbE
    · exact hE b hbE hb
    · rfl
  have hsp : Spares D fs (fs.evict E) := by
    intro j hj b hb
    refine hsame fun ⟨bn, hbn, hp⟩ => hbn.ne ?_
    exact congrArg Prod.snd
      (h.owned.marks.unique (mem_slotsOf hi hbn.le) (mem_slotsOf hj le_rfl) hp hb)
  refine ⟨h.frame ⟨rfl, rfl, rfl, rfl⟩ ⟨⟨h.log.le, h.log.lt⟩, h.log.outside⟩ (fun y _ hy => ?_)
    hsp, hsp⟩
  refine hsame fun ⟨bn, hbn, hp⟩ => ?_
  have := (h.owned.marks.inside _ (mem_slotsOf hi hbn.le) y hp).1
  omega

omit [Layout] in
/-- A byte comes from the disk if its block is evicted. -/
theorem fileByte_evict {E : Finset ℕ} {k b : ℕ} (hsp : Spares D fs (fs.evict E))
    (hi : inum < fs.sb.ninodes.toNat) (hk : k < MAXFILE * BSIZE)
    (hp : slotPtr fs D (inum, k / BSIZE) = some b) :
    fileByte (fs.evict E) D inum k =
      if b ∈ E then fs.log.disk b (k % BSIZE) else fileByte fs D inum k := by
  have hp' := (hsp.slotPtr (mem_slotsOf hi (block_of_byte hk).le)).trans hp
  rw [fileByte, fileByte, slotData_some hp', slotData_some hp]
  change (if b ∈ E then fs.log.disk b else fs.log.buf b) (k % BSIZE) = _
  split_ifs <;> rfl

omit [Layout] in
/-- What `readi` returns. -/
theorem readi_result (h : FsOk D x fs) (hip : InCore fs ip inum) (off n : U32) :
    resultOf (readi ip off n fs) = some (if off.toNat + n.toNat < 2 ^ 32 then
      (List.range (min n.toNat ((D inum).size.toNat - off.toNat))).map fun k =>
        fileByte fs D inum (off.toNat + k) else []) := by
  by_cases hwrap : off.toNat + n.toNat < 2 ^ 32
  · obtain ⟨bs, fs', hrun, rfl, hbs⟩ := (readi_array h hip off n hwrap).exists_ok
    rw [hrun, if_pos hwrap]
    refine congrArg some (hbs.trans (List.ext_getElem (by simp) fun k hk hk' => ?_))
    simp only [List.getElem_take, List.getElem_drop, List.getElem_map, List.getElem_range]
  · have hlt : off + n < off := by
      rw [BitVec.lt_def, BitVec.toNat_add]
      have := off.isLt
      have := n.isLt
      omega
    rw [if_neg hwrap, readi, bind_of_ok (rfl : getInode ip fs = .ok (fs.itable ip, fs)),
      if_pos (.inr hlt)]
    rfl

omit [Layout] in
/-- Bytes that are not counted are in one block with the first that cannot be read. -/
theorem counted_le_iff (off : ℕ) {n a k : ℕ} (ha : a < n) (hk : k < a) :
    counted off n a ≤ k ↔ (off + k) / BSIZE = (off + a) / BSIZE := by
  have hB : BSIZE = 1024 := rfl
  rw [counted, if_neg ha.ne, hB]
  omega

/-- The bytes that `writei` can read of the block in which it fails are those that the file has. -/
def Kernel.TailThere (s : Kernel) (u : UvmPtr) (ip : ℕ) (src : U64) (off n : ℕ) : Prop :=
  ∀ k b, (s.readable u src n)[k]? = some b →
    (off + k) / BSIZE = (off + (s.readable u src n).length) / BSIZE →
    off + k < (s.fs.itable ip).size.toNat → s.fs.byteAt (s.fs.itable ip) (off + k) = b

omit [Layout] in
/-- A block that can be evicted after `writei` is as it was, or holds data of the file. -/
theorem Stored.evict {w : ℕ} {bs : List Byte} {E : Finset ℕ}
    (hs : Stored ip inum off w bs D fs D' fs') (h' : FsOk D' none fs') (hip : InCore fs ip inum)
    (hE : ∀ b ∈ E, b ∉ fs'.log.log.lh ∧ fs.log.buf b = fs.log.disk b) :
    FsOk D' none (fs'.evict E) ∧ Spares D' fs' (fs'.evict E) := by
  refine h'.evict (h'.inCore (hip.same hs.head)).2.2 fun b hb hX => ?_
  obtain ⟨hlh, hclean⟩ := hE b hb
  rw [hs.logs.disk, hs.logs.buf b hlh hX, hclean]

omit [Layout] in
/-- A byte of the file after the eviction: the one of before `writei`, or the one that `writei` has
left in the buffer. -/
theorem Stored.fileByte_evict {w k : ℕ} {bs : List Byte} {E : Finset ℕ}
    (hs : Stored ip inum off w bs D fs D' fs') (h : FsOk D none fs) (h' : FsOk D' none fs')
    (hip : InCore fs ip inum) (hE : ∀ b ∈ E, b ∉ fs'.log.log.lh ∧ fs.log.buf b = fs.log.disk b)
    (hk : k < (D inum).size.toNat) :
    fileByte (fs'.evict E) D' inum k = fileByte fs D inum k ∨
      fileByte (fs'.evict E) D' inum k = putBytes (fileByte fs D inum) off bs k := by
  obtain ⟨-, ht, hi⟩ := h.inCore hip
  have hmax : k < MAXFILE * BSIZE := hk.trans_le (h.owned.size_le inum hi ht)
  have hdiv := Nat.div_mul_le_self k BSIZE
  obtain ⟨b, hb⟩ := Option.ne_none_iff_exists'.1 (h.owned.mapped inum hi ht (k / BSIZE) (by omega))
  rw [Xv6.fileByte_evict (hs.evict h' hip hE).2 (h'.inCore (hip.same hs.head)).2.2 hmax
    (hs.ptr _ (block_of_byte hmax) b hb)]
  split_ifs with hbE
  · left
    rw [hs.logs.disk, ← (hE b hbE).2, fileByte, slotData_some hb]
  · exact .inr (hs.self k hmax)

omit [Layout] in
/-- Later reads tell the buffered bytes from the file. -/
theorem Stored.readsSame_iff {w : ℕ} {bs : List Byte} (hs : Stored ip inum off w bs D fs D' fs')
    (h : FsOk D none fs) (h' : FsOk D' none fs') (hip : InCore fs ip inum) :
    ReadsSame ip fs fs' (off + w) ↔ ∀ k, off + w ≤ k → k < (D inum).size.toNat →
      putBytes (fileByte fs D inum) off bs k = fileByte fs D inum k := by
  obtain ⟨-, ht, hi⟩ := h.inCore hip
  have hip' := hip.same hs.head
  have hsize := hs.size
  have hle := h.owned.size_le inum hi ht
  constructor
  · intro hsame k hk hlt
    have hmax : MAXFILE * BSIZE < 2 ^ 32 - 1 := by decide
    have hk' : (BitVec.ofNat 32 k).toNat = k := by
      rw [BitVec.toNat_ofNat]
      omega
    have hread := hsame ∅ (by simp) (BitVec.ofNat 32 k) 1 (by rwa [hk'])
    rw [evict_empty, readi_result h hip, readi_result h' hip', hk', hsize,
      if_pos (by rw [show (1 : U32).toNat = 1 from rfl]; omega),
      if_pos (by rw [show (1 : U32).toNat = 1 from rfl]; omega),
      min_eq_left (by rw [show (1 : U32).toNat = 1 from rfl]; omega),
      min_eq_left (by rw [show (1 : U32).toNat = 1 from rfl]; omega)] at hread
    have hbyte : fileByte fs' D' inum (k + 0) = fileByte fs D inum (k + 0) :=
      (List.cons.inj (Option.some.inj hread)).1
    rw [← hs.self k (by omega)]
    exact hbyte
  · intro hbytes E hE off' n hoff
    obtain ⟨hE', -⟩ := hs.evict h' hip hE
    have hipE : InCore (fs'.evict E) ip inum := hip'.same (.refl _)
    rw [readi_result h hip, readi_result hE' hipE, hsize,
      show max (D inum).size.toNat (off + w) - off'.toNat =
        (D inum).size.toNat - off'.toNat by omega]
    refine congrArg some (if_congr Iff.rfl (List.map_congr_left fun k hk => ?_) rfl)
    have hlt : off'.toNat + k < (D inum).size.toNat := by
      have := List.mem_range.1 hk
      omega
    exact (hs.fileByte_evict h h' hip hE hlt).elim id fun hput =>
      hput.trans (hbytes _ (by omega) hlt)

/-- A short write leaves the file as it was from the first byte on that it does not count if and
only if the bytes that it has copied into the block where it failed were there before. -/
theorem short_write_unchanged {off n : U32} {r : ℤ} {t : Kernel} (h : s.fs.BlocksOk)
    (hip : s.fs.Mine ip) (hc : s.Checked u src n.toNat)
    (hrun : writeiUser u ip src off n s = .ok (r, t)) :
    (r < n.toNat → ReadsSame ip s.fs t.fs (off.toNat + r.toNat)) ↔
      OutOfFile s.fs ip off.toNat n.toNat ∨ (s.readable u src n.toNat).length = n.toNat ∨
        s.TailThere u ip src off.toNat n.toNat := by
  have hcore := hip.inCore
  have hsize := h.inCore_size hcore
  have hpost := (hc.writeiUser off h hcore).ok hrun
  have hread := length_readable_le s u src n.toNat
  rcases hpost with ⟨hout, rfl, rfl⟩ | ⟨hin, rfl, D', h', hs⟩
  · refine iff_of_true (fun _ E hE off' n' _ => ?_) (.inl hout)
    rw [evict_clean fun b hb => (hE b hb).2.symm]
  rw [or_iff_right hin]
  by_cases hall : (s.readable u src n.toNat).length = n.toNat
  · refine iff_of_true (fun hlt => ?_) (.inl hall)
    rw [counted, if_pos hall] at hlt
    exact absurd hlt (lt_irrefl _)
  have hshort : (s.readable u src n.toNat).length < n.toNat := by omega
  have hcount : counted off.toNat n.toNat (s.readable u src n.toNat).length < n.toNat := by
    rw [counted, if_neg hall]
    omega
  rw [or_iff_right hall, imp_iff_right (by exact_mod_cast hcount), Int.toNat_natCast,
    hs.readsSame_iff h h' hcore, ← hsize]
  constructor
  · intro hbytes k b hb hblock hlt
    have hk := (List.getElem?_eq_some_iff.1 hb).1
    have hle := (counted_le_iff off.toNat hshort hk).2 hblock
    rw [h.byteAt_eq hcore hlt, ← hbytes _ (by omega) hlt]
    exact putBytes_in (by omega) (by rwa [Nat.add_sub_cancel_left])
  · intro htail k hk hlt
    by_cases hin : k < off.toNat + (s.readable u src n.toNat).length
    · obtain ⟨j, rfl⟩ := Nat.exists_eq_add_of_le (by omega : off.toNat ≤ k)
      have hj : j < (s.readable u src n.toNat).length := by omega
      have hb := List.getElem?_eq_getElem hj
      have hblock := (counted_le_iff off.toNat hshort hj).1 (by omega)
      rw [putBytes_in (by omega) (by rwa [Nat.add_sub_cancel_left]), ← h.byteAt_eq hcore hlt]
      exact (htail j _ hb hblock hlt).symm
    · exact putBytes_of_not_mem fun hmem => hin hmem.2

end

/-! ### A buffer that ends at a guard page -/

section

attribute [local instance] imageLayout

open Run

/-- A write of one byte to a new file, and the next transaction. -/
def byteRun (b : Byte) : List BlockEvent := [.call (.writei 0 0 [b]), .call .endOp, .call .beginOp]

theorem byteRun_runs :
    (runs blockStep (byteRun 1) newFileState).isSome = true ∧
      (runs blockStep (byteRun 7) newFileState).isSome = true := by
  decide +kernel

theorem byteRun_blocksOk {b : Byte} {t : Kernel}
    (h : runs blockStep (byteRun b) newFileState = some t) : t.fs.BlocksOk := by
  obtain ⟨s, hs, ht⟩ := Option.bind_eq_some_iff.1 h
  have hwrite : Reach blockStep BlockEvent.Ok newFileState s :=
    Reach.refl.tail (e := .call (.writei 0 0 [b])) ⟨newFileState_mine, Nat.one_lt_two_pow
    (by decide)⟩ hs
  exact (hwrite.runs (fun e he _ => by fin_cases he <;> trivial) ht).invariant newFileState_blocksOk
    fun _ _ _ => blocksOk_step

/-- The files of one byte, 1 and 7. -/
def byteOne : Kernel := (runs blockStep (byteRun 1) newFileState).get byteRun_runs.1

def byteSeven : Kernel := (runs blockStep (byteRun 7) newFileState).get byteRun_runs.2

/-- A process with two pages, and a byte 7 at the end of the first. -/
def pagesRun : List SpaceEvent :=
  [.frame, .new (.proc 0) 0x80030, .map (.proc 0) 0x1000 8192 6 MAP_PRIVATE none 0 0,
    .fault (.proc 0) 0x1000 PTE_R, .fault (.proc 0) 0x2000 PTE_R,
    .copyout (.proc 0) 0x1fff (fun _ => 7) 1]

/-- The second page is a guard page; the check of `sys_write` lets a buffer of two bytes pass that
ends there, and `writei` gets the first. -/
theorem guard_page : ∃ s k, Reach SpaceSys.step PlainMaps fileSpaces s ∧
    prefault (.proc 0) (pgRoundDown 0x1fff) (0x1fff + (2 : U32).signExtend 64) s.kernel =
      .ok (true, k) ∧ (∀ fs, (k.io k.phys fs).Checked (.proc 0) 0x1fff 2) ∧
    (∃ t, writeiUser (.proc 0) 0 0x1fff 0 2 (k.io k.phys byteOne.fs) = .ok (0, t) ∧
      resultOf (readi 0 0 1 t.fs) = some [7]) ∧
    (∃ t, writeiUser (.proc 0) 0 0x1fff 0 2 (k.io k.phys byteSeven.fs) = .ok (0, t)) ∧
    (k.io k.phys byteSeven.fs).readable (.proc 0) 0x1fff 2 = [7] := by
  have hrun : (runs SpaceSys.step pagesRun fileSpaces).map (fun s => decide (
      (uvmVa2vma s.kernel (.proc 0) 0x2000 = some 0 ∧ (s.kernel.vmas 0).perm = 6) ∧
      (SpaceSys.step (.guard (.proc 0) 0x2000) s).map (fun s => decide (s.live = [.proc 0] ∧
        (prefault (.proc 0) (pgRoundDown 0x1fff) (0x1fff + (2 : U32).signExtend 64)
          s.kernel).toOption.map (fun r => decide (r.1 = true ∧
            resultOf ((writeiUser (.proc 0) 0 0x1fff 0 2 >>= fun w => do
              let bs ← liftM (readi 0 0 1)
              return (w, bs) : K (ℤ × List Byte)) (r.2.io r.2.phys byteOne.fs)) = some (0, [7]) ∧
            resultOf (writeiUser (.proc 0) 0 0x1fff 0 2 (r.2.io r.2.phys byteSeven.fs)) = some 0 ∧
            (r.2.io r.2.phys byteSeven.fs).readable (.proc 0) 0x1fff 2 = [7])) = some true)) =
        some true)) = some true := by
    decide +kernel
  obtain ⟨s₁, hs₁, hfacts₁⟩ := Option.map_eq_some_iff.1 hrun
  obtain ⟨⟨hvma, hperm⟩, hguard⟩ := of_decide_eq_true hfacts₁
  obtain ⟨s, hs, hfacts⟩ := Option.map_eq_some_iff.1 hguard
  obtain ⟨hlive, hpre⟩ := of_decide_eq_true hfacts
  obtain ⟨⟨ok, k⟩, hk, hfacts'⟩ := Option.map_eq_some_iff.1 hpre
  obtain ⟨rfl, hone, hseven, hread⟩ := of_decide_eq_true hfacts'
  have hpages : Reach SpaceSys.step PlainMaps fileSpaces s₁ := by
    refine reach_of_runs (fun e he t => ?_) hs₁
    simp only [pagesRun, List.mem_cons, List.not_mem_nil, or_false] at he
    rcases he with rfl | rfl | rfl | rfl | rfl | rfl
    · trivial
    · trivial
    · exact ⟨by decide, by decide, by decide, by decide⟩
    · exact Or.inl rfl
    · exact Or.inl rfl
    · trivial
  have hreach : Reach SpaceSys.step PlainMaps fileSpaces s := by
    refine hpages.tail (e := .guard (.proc 0) 0x2000) ⟨0, hvma, ?_⟩ hs
    rw [hperm]
    decide
  obtain ⟨ext, own, a, hT, -⟩ := hreach.invariant fileSpaces_start.inv fun _ _ _ hI hok hs =>
    hI.step hok hs
  obtain ⟨hpt, hroot⟩ := hT.spaces.table (.proc 0) (by simp [hlive])
  have hprefault :
      prefault (.proc 0) (pgRoundDown 0x1fff) (0x1fff + (2 : U32).signExtend 64) s.kernel =
        .ok (true, k) := by
    cases hp : prefault (.proc 0) (pgRoundDown 0x1fff) (0x1fff + (2 : U32).signExtend 64)
      s.kernel with
    | ok x =>
      rw [hp] at hk
      rw [Option.some.inj hk]
    | error e =>
      rw [hp] at hk
      cases hk
  have hcovered := prefault_covers ⟨hT.rep, hpt, hroot, fun _ _ => rfl⟩ hprefault
  obtain ⟨w, t, hwrite, hreadi⟩ := exists_of_resultOf_bind hone
  obtain ⟨bs, t', hbs, hpair⟩ := exists_of_resultOf_bind hreadi
  obtain ⟨rfl, rfl⟩ : w = 0 ∧ bs = [7] := Prod.mk.inj (Option.some.inj hpair)
  have hseen : resultOf (readi 0 0 1 t.fs) = some [7] := by
    cases hr : readi 0 0 1 t.fs with
    | ok x =>
      rw [liftF_of_ok hr] at hbs
      exact congrArg some (Prod.mk.inj (Except.ok.inj hbs)).1
    | error e =>
      rw [liftF_of_error hr] at hbs
      cases hbs
  exact ⟨s, k, hreach, hprefault, fun fs => (hcovered.still fun _ _ hw _ => hw).checked,
    ⟨t, hwrite, hseen⟩, exists_ok_of_resultOf hseven, hread⟩

/-- **A short write changes the file**: nothing is counted of two bytes, the second of which is in a
guard page, but the first is read back from the file. -/
theorem short_write_changes : ∃ (s : SpaceSys) (k t : Kernel),
    Reach SpaceSys.step PlainMaps fileSpaces s ∧
    prefault (.proc 0) (pgRoundDown 0x1fff) (0x1fff + (2 : U32).signExtend 64) s.kernel =
      .ok (true, k) ∧ byteOne.fs.BlocksOk ∧ byteOne.fs.Mine 0 ∧
    (k.io k.phys byteOne.fs).Checked (.proc 0) 0x1fff 2 ∧
    writeiUser (.proc 0) 0 0x1fff 0 2 (k.io k.phys byteOne.fs) = .ok (0, t) ∧
    ¬ ReadsSame 0 byteOne.fs t.fs 0 := by
  obtain ⟨s, k, hreach, hpre, hchecked, ⟨t, hwrite, hseen⟩, -⟩ := guard_page
  refine ⟨s, k, t, hreach, hpre, byteRun_blocksOk (Option.some_get byteRun_runs.1).symm,
    ⟨by decide +kernel, by decide +kernel, by decide +kernel⟩, hchecked _, hwrite, fun hsame => ?_⟩
  have hread := hsame ∅ (by simp) 0 1 le_rfl
  have hold : resultOf (readi 0 0 1 byteOne.fs) = some [1] := by decide +kernel
  rw [evict_empty, hseen, hold] at hread
  exact absurd hread (by decide)

/-- The same write to a file that has the byte. -/
theorem short_write_unchanged_seven : ∃ (k t : Kernel),
    writeiUser (.proc 0) 0 0x1fff 0 2 (k.io k.phys byteSeven.fs) = .ok (0, t) ∧
      ReadsSame 0 byteSeven.fs t.fs 0 := by
  obtain ⟨s, k, -, -, hchecked, -, ⟨t, hwrite⟩, hread⟩ := guard_page
  have hok : byteSeven.fs.BlocksOk := byteRun_blocksOk (Option.some_get byteRun_runs.2).symm
  have hmine : byteSeven.fs.Mine 0 :=
    ⟨by decide +kernel, by decide +kernel, by decide +kernel⟩
  have hiff := short_write_unchanged (s := k.io k.phys byteSeven.fs) hok hmine (hchecked _) hwrite
  refine ⟨k, t, hwrite, hiff.2 (.inr (.inr ?_)) (by decide)⟩
  intro i b hb _ _
  change ((k.io k.phys byteSeven.fs).readable (.proc 0) 0x1fff 2)[i]? = some b at hb
  rw [hread] at hb
  cases i with
  | zero =>
    obtain rfl := Option.some.inj hb
    have hbyte : byteSeven.fs.byteAt (byteSeven.fs.itable 0) 0 = 7 := by decide +kernel
    exact hbyte
  | succ i => cases hb

end

end Xv6
