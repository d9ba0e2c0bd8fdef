import Xv6.BlockOps
import Xv6.FaultAgain
import Xv6.UserView
import Xv6.WriteBack

/-!
# The write-back of a shared mapping is exact

When nobody else uses the file system and the blocks fit into the log, `uvm_unmap` of a part of a
shared vma returns, and the file has exactly the bytes that were in memory: byte by byte, whatever
the alignment of the vma and of the part.
-/

namespace Xv6

open Bytes Wp Run

/-! ### A log that nobody else uses -/

/-- No transaction is going on. -/
structure Fs.LogIdle (fs : Fs) : Prop where
  outstanding : fs.log.log.outstanding = 0
  committing : fs.log.log.committing = false
  lh : fs.log.log.lh = []

/-- The only transaction is the caller's. -/
structure Fs.LogMine (fs : Fs) : Prop where
  outstanding : fs.log.log.outstanding = 1
  committing : fs.log.log.committing = false

section

variable {E : Stop → Prop} {fs : Fs} {ip : ℕ}

/-- `begin_op` does not sleep. -/
theorem fsBeginOp_idle (h : fs.LogIdle) :
    wp fsBeginOp E (fun _ fs' => fs'.LogMine ∧ fs' = { fs with log := fs'.log } ∧
      fs'.log.log = { fs.log.log with outstanding := 1 } ∧ fs'.log.buf = fs.log.buf) fs := by
  have hbegin : beginOp fs.log = some { fs.log with
      log := { fs.log.log with outstanding := fs.log.log.outstanding + 1 } } := by
    unfold beginOp
    rw [if_neg (by rw [h.committing]; decide), if_neg]
    rw [h.lh, h.outstanding]
    decide
  unfold fsBeginOp
  rw [wp_bind, wp_get, hbegin, h.outstanding]
  exact ⟨⟨rfl, h.committing⟩, rfl, rfl, rfl⟩

/-- `end_op` commits. -/
theorem fsEndOp_mine (h : fs.LogMine) :
    wp fsEndOp E (fun _ fs' => fs'.LogIdle ∧ fs'.itable = fs.itable) fs := by
  unfold fsEndOp
  rw [wp_bind, wp_get]
  unfold endOp
  rw [if_neg (by rw [h.committing]; decide), if_pos (by rw [h.outstanding]; rfl)]
  refine ⟨⟨?_, rfl, ?_⟩, rfl⟩
  · rw [commit_log, h.outstanding]
    rfl
  · rw [commit_log]

theorem iunlock_mine (h : fs.LogMine) (hlock : (fs.itable ip).locked = true)
    (href : 1 ≤ (fs.itable ip).ref) : wp (iunlock ip) E (fun _ fs' => fs'.LogMine) fs := by
  have hheld : ¬ ((!(fs.itable ip).locked) = true ∨ (fs.itable ip).ref < 1) := by
    rw [hlock]
    exact fun h => h.elim (by decide) (not_lt.2 href)
  rw [iunlock, wp_bind, wp_getInode, wp_bind, wp_panicIf, if_neg hheld, wp_setInode]
  exact ⟨h.outstanding, h.committing⟩

/-- `begin_op(); iput(ip); end_op();` for a file that is not removed. -/
theorem iputOp_idle (h : fs.LogIdle)
    (hkept : ¬ ((fs.itable ip).ref = 1 ∧ (fs.itable ip).valid ∧ (fs.itable ip).nlink = 0)) :
    wp (iputOp (some ip)) E (fun _ _ => True) fs := by
  unfold iputOp
  dsimp only
  rw [wp_bind]
  refine (fsBeginOp_idle h).mono fun _ fs₁ ⟨hmine, hfs₁, _, _⟩ => ?_
  have hit : fs₁.itable = fs.itable := by rw [hfs₁]
  rw [wp_bind, iput, wp_bind, wp_getInode, hit, if_neg hkept, wp_setInode]
  have hmine' (i : Inode) : (fs₁.withInode ip i).LogMine := ⟨hmine.outstanding, hmine.committing⟩
  exact (fsEndOp_mine (hmine' _)).mono fun _ _ _ => trivial

end

/-! ### The pages -/

-- otherwise the comparison of two addresses is evaluated
attribute [local irreducible] umin umax

/-- Inside a transaction that has room for the blocks `S`, the file of inode `ip` has been
patched. -/
structure Patched (s : Kernel) (ip : ℕ) (S : Finset ℕ) (fs : Fs) : Prop where
  tables : SameTables s.fs fs
  logs : Logs S s.fs fs
  blockAt : ∀ bn, bn * BSIZE < (s.fs.itable ip).size.toNat →
    fs.blockAt (s.fs.itable ip) bn = s.fs.blockAt (s.fs.itable ip) bn
  holds : ∃ c, Holds fs (s.fs.itable ip) c

/-- The page at `va` goes to bytes of the file whose blocks are in `S`. -/
def BackIn (p : Phys) (fs : Fs) (i : Inode) (pagetable : U64) (v : Vma) (S : Finset ℕ)
    (addr length va : U64) : Prop :=
  ∀ off bs, WritesBack p pagetable v addr length va off bs →
    off.toNat + bs.length ≤ i.size.toNat ∧ BlocksIn fs i S off.toNat bs.length

/-- The part of the page at `va` that is written back can be read. -/
def BackReads (p : Phys) (pagetable : U64) (v : Vma) (addr length va : U64) : Prop :=
  ∃ pa, pgtGetpa pagetable va p = .ok (pa, p) ∧ (pa ≠ 0 →
    umax va addr < v.backEnd addr length va → ∃ bs, readBytes (pa + (umax va addr - va))
      (v.backEnd addr length va - umax va addr).toNat p = .ok (bs, p))

section

variable {s : Kernel} {pagetable : U64} {v : Vma} {ip : ℕ} {S : Finset ℕ} {addr length va : U64}

/-- A page that can be read is written back. -/
theorem Patched.step {fs : Fs} (h : Patched s ip S fs)
    (hnode : s.fs.inodeBlock (s.fs.itable ip) ∈ S)
    (hroom : Budget.load S some s.fs.log.log.lh < s.fs.logCap) (hmine : s.fs.LogMine)
    (hreads : BackReads s.phys pagetable v addr length va)
    (hin : BackIn s.phys s.fs (s.fs.itable ip) pagetable v S addr length va) :
    wp (writeBackPage pagetable v ip addr length va) (fun _ => False)
      (fun _ t => t = s.io s.phys t.fs ∧ Patched s ip S t.fs) (s.io s.phys fs) := by
  obtain ⟨pa, hget, hread⟩ := hreads
  unfold writeBackPage
  rw [wp_bind, wp_liftP, Kernel.io_phys, wp_of_ok hget]
  rw [wp_ite]
  split_ifs with hz
  · exact ⟨rfl, h⟩
  change wp (if v.backEnd addr length va ≤ umax va addr then pure () else do
    let bs ← readBytes (pa + (umax va addr - va)) (v.backEnd addr length va - umax va addr).toNat
    let w ← writei ip (v.fileOff (umax va addr)) bs
    panicIf (BitVec.ofInt 64 w ≠ v.backEnd addr length va - umax va addr)
      "uvm_unmap: write error\n" : K Unit) _ _ _
  by_cases hle : v.backEnd addr length va ≤ umax va addr
  · rw [if_pos hle]
    exact ⟨rfl, h⟩
  obtain ⟨bs, hbs⟩ := hread hz (BitVec.not_le.1 hle)
  rw [if_neg hle, wp_bind, wp_liftP, Kernel.io_phys, wp_of_ok hbs, wp_bind, wp_liftF]
  have hb : WritesBack s.phys pagetable v addr length va (v.fileOff (umax va addr)) bs :=
    ⟨pa, hget, hz, BitVec.not_le.1 hle, rfl, hbs⟩
  obtain ⟨hend, hblocks⟩ := hin _ _ hb
  obtain ⟨c, hc⟩ := h.holds
  have hblocks' : BlocksIn fs (s.fs.itable ip) S (v.fileOff (umax va addr)).toNat bs.length := by
    intro bn hlo hhi
    rw [h.blockAt bn (by omega)]
    exact hblocks bn hlo hhi
  have hnode' : fs.inodeBlock (s.fs.itable ip) ∈ S := by
    unfold Fs.inodeBlock
    rw [h.tables.sb]
    exact hnode
  refine ((writei_logs (congrFun h.tables.itable ip) hc hend hblocks' hnode').weaken
    fun e he => ?_).mono fun w fs' hw => ?_
  · rcases h.logs.stuck he with ⟨_, hfull⟩ | ⟨_, hout⟩
    · exact absurd hfull (Nat.not_le.2 hroom)
    · rw [hmine.outstanding] at hout
      exact absurd hout (by decide)
  obtain ⟨rfl, hsame, hc', hlogs, hblock⟩ := hw
  have hret : BitVec.ofInt 64 (bs.length : ℤ) = v.backEnd addr length va - umax va addr := by
    rw [hb.length_eq, BitVec.ofInt_natCast, BitVec.ofNat_toNat, BitVec.setWidth_eq]
  rw [wp_panicIf, if_neg (not_not.2 hret)]
  exact ⟨rfl, h.tables.trans hsame, h.logs.trans hlogs,
    fun bn hbn => (hblock bn hbn).trans (h.blockAt bn hbn), _, hc'⟩

/-- Nobody else uses the file: `ilock` gets it at once. -/
structure Fs.Idle (fs : Fs) (ip : ℕ) : Prop where
  log : fs.LogIdle
  ref : 1 ≤ (fs.itable ip).ref
  unlocked : (fs.itable ip).locked = false
  type : (fs.loaded ip).type ≠ 0

theorem loaded_congr {fs fs' : Fs} (hit : fs'.itable = fs.itable) (hsb : fs'.sb = fs.sb)
    (hbuf : fs'.log.buf = fs.log.buf) : fs'.loaded ip = fs.loaded ip := by
  unfold Fs.loaded LogState.bread
  rw [hit, hsb, hbuf]

/-- After `begin_op(); ilock(ip);`. -/
structure Begun (fs : Fs) (ip : ℕ) (fs' : Fs) : Prop where
  log : fs'.log.log = { fs.log.log with outstanding := 1 }
  buf : fs'.log.buf = fs.log.buf
  sb : fs'.sb = fs.sb
  inode : fs'.itable ip = { fs.loaded ip with locked := true }

namespace Begun

variable {fs fs' : Fs} (h : Begun fs ip fs')
include h

theorem logCap : fs'.logCap = fs.logCap := by
  unfold Fs.logCap
  rw [h.log]

theorem blockAt (bn : ℕ) : fs'.blockAt (fs'.itable ip) bn = fs.blockAt (fs.loaded ip) bn := by
  rw [h.inode]
  exact blockAt_congr (fun _ => by rw [h.buf]) bn

theorem inodeBlock : fs'.inodeBlock (fs'.itable ip) = fs.inodeBlock (fs.loaded ip) := by
  unfold Fs.inodeBlock
  rw [h.sb, h.inode]

theorem holds {c : ℕ → Byte} (hc : Holds fs (fs.loaded ip) c) : Holds fs' (fs'.itable ip) c := by
  have hlog : LogOk fs'.log := by
    refine ⟨⟨?_, ?_⟩, ?_⟩ <;> rw [h.log]
    exacts [hc.log.le, hc.log.lt, hc.log.outside]
  have hin : fs'.inLog = fs.inLog := inLog_congr (by rw [h.log]) (by rw [h.log])
  exact (hc.frame h.sb hin hlog fun b _ _ => by rw [h.buf]).congr (by rw [h.inode])
    (by rw [h.inode]) (by rw [h.inode])

end Begun

/-- The write-back returns. -/
theorem writeBack_total (hip : v.inode = some ip) (hok : FileOk s.fs (s.fs.loaded ip))
    (hidle : s.fs.Idle ip) (hnode : s.fs.inodeBlock (s.fs.loaded ip) ∈ S)
    (hroom : S.card < s.fs.logCap)
    (hpages : ∀ k < pagesIn (pgRoundDown addr) (pgRoundUp (addr + length)),
      BackReads s.phys pagetable v addr length (pageNo (pgRoundDown addr) k) ∧
      BackIn s.phys s.fs (s.fs.loaded ip) pagetable v S addr length (pageNo (pgRoundDown addr) k)) :
    wp (writeBack pagetable v addr length) (fun _ => False) (fun _ t => t.fs.LogIdle) s := by
  unfold writeBack
  rw [wp_bind, wp_liftF]
  refine (fsBeginOp_idle hidle.log).mono fun _ fs₁ ⟨hmine, hfs₁, hlog₁, hbuf₁⟩ => ?_
  have hit₁ : fs₁.itable = s.fs.itable := by rw [hfs₁]
  have hsb₁ : fs₁.sb = s.fs.sb := by rw [hfs₁]
  have hload : fs₁.loaded ip = s.fs.loaded ip := loaded_congr hit₁ hsb₁ hbuf₁
  rw [hip]
  dsimp only
  rw [wp_bind, wp_liftF, Kernel.io_fs, wp_ilock, hit₁, if_neg (not_lt.2 hidle.ref),
    if_neg (by rw [hidle.unlocked]; decide), if_neg (by rw [hload]; exact fun h => hidle.type h.2),
    hload, Kernel.io_io, Kernel.io_phys]
  generalize hfs₂ : fs₁.withInode ip _ = fs₂
  have hb : Begun s.fs ip fs₂ := by
    subst hfs₂
    exact ⟨hlog₁, hbuf₁, hsb₁, withInode_self ..⟩
  have hmine₂ : fs₂.LogMine := by
    subst hfs₂
    exact ⟨hmine.outstanding, hmine.committing⟩
  have hroom₂ : Budget.load S some fs₂.log.log.lh < fs₂.logCap := by
    rw [hb.logCap, hb.log, hidle.log.lh]
    exact Budget.load_le_card.trans_lt (by rwa [List.length_nil, Nat.zero_add])
  have hc : Holds s.fs (s.fs.loaded ip) (s.fs.byteAt (s.fs.loaded ip)) := ⟨hok, fun _ _ => rfl⟩
  rw [wp_bind]
  refine wp_loop_of (fun _ t => t = s.io s.phys t.fs ∧ Patched (s.io s.phys fs₂) ip S t.fs)
    ⟨rfl, .refl _, .refl _ _, fun _ _ => rfl, _, hb.holds hc⟩ ?_ fun t ht => ?_
  · intro k t _ hk ht
    rw [Nat.zero_add] at hk
    obtain ⟨hreads, hin⟩ := hpages k hk
    rw [ht.1]
    refine ht.2.step (by rwa [← hb.inodeBlock] at hnode) hroom₂ hmine₂ hreads fun off bs hw => ?_
    obtain ⟨hend, hblocks⟩ := hin off bs hw
    refine ⟨?_, fun bn hlo hhi => ?_⟩
    · rwa [Kernel.io_fs, hb.inode]
    · rw [Kernel.io_fs, hb.blockAt]
      exact hblocks bn hlo hhi
  obtain ⟨hio, hp⟩ := ht
  have hit : t.fs.itable ip = { s.fs.loaded ip with locked := true } :=
    (congrFun hp.tables.itable ip).trans hb.inode
  have hmine₃ : t.fs.LogMine := by
    refine ⟨?_, ?_⟩ <;> rw [hp.logs.header]
    exacts [hmine₂.outstanding, hmine₂.committing]
  rw [hio, wp_bind, wp_liftF]
  refine (iunlock_mine hmine₃ (by rw [hit]) ?_).mono fun _ fs₄ hmine₄ => ?_
  · rw [hit]
    exact (loaded_ref s.fs ip).symm ▸ hidle.ref
  · rw [wp_liftF]
    exact (fsEndOp_mine hmine₄).mono fun _ _ h => h.1

end

/-! ### The bytes -/

/-- A byte of the range `[addr, addr + length)` that belongs to the file. -/
structure Vma.BackVa (v : Vma) (addr length va : U64) : Prop where
  le : addr.toNat ≤ va.toNat
  lt : va.toNat < addr.toNat + length.toNat
  lt_filesz : va.toNat < v.start.toNat + v.filesz.toNat

section

variable {v : Vma} {addr length : U64} {k : ℕ}

/-- The pages of the range, in numbers. -/
theorem Vma.End.page (he : v.End addr length) (hok : v.Ok)
    (hk : k < pagesIn (pgRoundDown addr) (pgRoundUp (addr + length))) :
    (pageNo (pgRoundDown addr) k).toNat = addr.toNat / 4096 * 4096 + 4096 * k ∧
      addr.toNat / 4096 * 4096 + 4096 * k < addr.toNat + length.toNat ∧
      ∀ y, y < (v.backEnd addr length (pageNo (pgRoundDown addr) k)).toNat ↔
        y < addr.toNat / 4096 * 4096 + 4096 * k + 4096 ∧ y < addr.toNat + length.toNat ∧
          y < v.start.toNat + v.filesz.toNat := by
  have hstop := he.stop_le
  have hmax := hok.stop_le
  have hadd := he.toNat_add hok
  have hdown := toNat_pgRoundDown addr
  have hup := toNat_pgRoundUp (addr + length)
  have hfile := v.filesz.isLt
  have hpg : PGSIZE.toNat = 4096 := by decide
  unfold pagesIn at hk
  have hlt : addr.toNat / 4096 * 4096 + 4096 * k < addr.toNat + length.toNat := by omega
  have hpage : (pageNo (pgRoundDown addr) k).toNat = addr.toNat / 4096 * 4096 + 4096 * k := by
    rw [toNat_pageNo_of_le (by omega), hdown]
  refine ⟨hpage, hlt, fun y => ?_⟩
  have hnext : (pageNo (pgRoundDown addr) k + PGSIZE).toNat =
      addr.toNat / 4096 * 4096 + 4096 * k + 4096 := by
    rw [BitVec.toNat_add, hpage, hpg]
    omega
  have hdata : (v.start + v.filesz.setWidth 64).toNat = v.start.toNat + v.filesz.toNat := by
    rw [BitVec.toNat_add, BitVec.toNat_setWidth]
    omega
  rw [Vma.backEnd, toNat_umin, toNat_umin, hadd, hnext, hdata, lt_min_iff, lt_min_iff, and_assoc]

variable [Layout] {L : UvmPtr → Prop} {ext : ℕ → ℕ∞} {own : ℕ → Owner} {s : Kernel} {a : Maps}
  {u : UvmPtr}

/-- The part of a page in memory that is written back. -/
theorem Good.back_read (h : Good L ext own s a) (he : v.End addr length) (hok : v.Ok)
    (hk : k < pagesIn (pgRoundDown addr) (pgRoundUp (addr + length)))
    (h0 : a.getpa (s.root u) (pageNo (pgRoundDown addr) k) ≠ 0)
    (hlt : umax (pageNo (pgRoundDown addr) k) addr <
      v.backEnd addr length (pageNo (pgRoundDown addr) k)) (n : ℕ) :
    readBytes (a.getpa (s.root u) (pageNo (pgRoundDown addr) k) +
        (umax (pageNo (pgRoundDown addr) k) addr - pageNo (pgRoundDown addr) k)) n s.phys =
      .ok ((List.range n).map fun x =>
        s.phys.mem (vpn (a.getpa (s.root u) (pageNo (pgRoundDown addr) k)))
          ((umax (pageNo (pgRoundDown addr) k) addr).toNat % 4096 + x), s.phys) := by
  obtain ⟨hpage, hin, hend⟩ := he.page hok hk
  have hstop := he.stop_le
  have hmax := hok.stop_le
  have hlo := toNat_umax (pageNo (pgRoundDown addr) k) addr
  rw [hpage] at hlo
  obtain ⟨hlt₁, -, -⟩ := (hend _).1 hlt
  have ho : (umax (pageNo (pgRoundDown addr) k) addr - pageNo (pgRoundDown addr) k).toNat =
      (umax (pageNo (pgRoundDown addr) k) addr).toNat % 4096 := by
    rw [BitVec.toNat_sub_of_le (BitVec.le_def.2 (by omega)), hpage]
    omega
  have hva : vpn (pageNo (pgRoundDown addr) k) < vTrapframe := by
    unfold vpn vTrapframe
    omega
  rw [h.readBytes_eq hva h0 (by omega), ho]

/-- The kernel can read what it writes back. -/
theorem Good.backReads (h : Good L ext own s a) (hu : L u) (he : v.End addr length) (hok : v.Ok)
    (hk : k < pagesIn (pgRoundDown addr) (pgRoundUp (addr + length))) :
    BackReads s.phys (s.uvms u).pagetable v addr length (pageNo (pgRoundDown addr) k) := by
  obtain ⟨htable, hroot⟩ := h.spaces.table u hu
  rw [htable]
  exact ⟨_, h.rep.pgtGetpa_eq hroot _, fun h0 hlt => ⟨_, h.back_read he hok hk h0 hlt _⟩⟩

omit [Layout] in
theorem Vma.toNat_fileOff (hfile : v.offset.toNat + v.filesz.toNat < 2 ^ 32) {va : U64}
    (hlo : v.start.toNat ≤ va.toNat) (hhi : va.toNat < v.start.toNat + v.filesz.toNat) :
    (v.fileOff va).toNat = v.offset.toNat + (va.toNat - v.start.toNat) := by
  rw [Vma.fileOff, BitVec.toNat_setWidth, BitVec.toNat_add, BitVec.toNat_setWidth,
    BitVec.toNat_sub_of_le (BitVec.le_def.2 hlo)]
  omega

/-- Every byte that is written is a byte in memory. -/
theorem Good.resident_of_writesBack (h : Good L ext own s a) (hu : L u) (he : v.End addr length)
    (hok : v.Ok) (hfile : v.offset.toNat + v.filesz.toNat < 2 ^ 32)
    (hk : k < pagesIn (pgRoundDown addr) (pgRoundUp (addr + length))) {off : U32} {bs : List Byte}
    (hb : WritesBack s.phys (s.uvms u).pagetable v addr length (pageNo (pgRoundDown addr) k) off bs)
    {x : ℕ} (hx : x < bs.length) :
    ∃ va, v.BackVa addr length va ∧ s.residentByte u va = some (bs.getD x 0) ∧
      off.toNat + x = v.offset.toNat + (va.toNat - v.start.toNat) := by
  obtain ⟨htable, hroot⟩ := h.spaces.table u hu
  obtain ⟨hpage, hin, hend⟩ := he.page hok hk
  have hstart := he.start_le
  have hstop := he.stop_le
  have hmax := hok.stop_le
  obtain ⟨pa, hget, h0, hlt, rfl, hread⟩ := hb
  have hrun := h.rep.pgtGetpa_eq hroot (pageNo (pgRoundDown addr) k)
  rw [← htable] at hrun
  obtain ⟨rfl, -⟩ := Prod.mk.inj (Except.ok.inj (hget.symm.trans hrun))
  rw [h.back_read he hok hk h0 hlt] at hread
  obtain ⟨rfl, -⟩ := Prod.mk.inj (Except.ok.inj hread)
  have hlo := toNat_umax (pageNo (pgRoundDown addr) k) addr
  rw [hpage] at hlo
  generalize umax (pageNo (pgRoundDown addr) k) addr = lo at *
  obtain ⟨hlo₁, hlo₂⟩ := max_le_iff.1 hlo.ge
  clear hlo
  have hlen := BitVec.toNat_sub_of_le (BitVec.le_of_lt hlt)
  rw [List.length_map, List.length_range, hlen] at hx
  obtain ⟨hx₁, hx₂, hx₃⟩ := (hend (lo.toNat + x)).1 (by omega)
  -- the byte is in the page, and the page is the one of its address
  have hva : (BitVec.ofNat 64 (lo.toNat + x)).toNat = lo.toNat + x := by
    rw [BitVec.toNat_ofNat]
    omega
  have hdown : pgRoundDown (BitVec.ofNat 64 (lo.toNat + x)) = pageNo (pgRoundDown addr) k := by
    apply BitVec.eq_of_toNat_eq
    rw [toNat_pgRoundDown, hva, hpage]
    omega
  refine ⟨BitVec.ofNat 64 (lo.toNat + x), ⟨?_, ?_, ?_⟩, ?_, ?_⟩
  · omega
  · omega
  · omega
  · rw [residentByte_of_getpa ((congrArg (pgtGetpa _ · _) hdown).trans hget) h0, hva,
      List.getD_eq_getElem, List.getElem_map, List.getElem_range]
    · congr 2
      omega
    · rwa [List.length_map, List.length_range, hlen]
  · rw [v.toNat_fileOff hfile (by omega) (by omega), hva]
    omega

/-- Every byte in memory that belongs to the file is written. -/
theorem Good.writesBack_of_resident (h : Good L ext own s a) (hu : L u) (he : v.End addr length)
    (hok : v.Ok) (hfile : v.offset.toNat + v.filesz.toNat < 2 ^ 32) {va : U64} {b : Byte}
    (hva : v.BackVa addr length va) (hb : s.residentByte u va = some b) :
    ∃ k < pagesIn (pgRoundDown addr) (pgRoundUp (addr + length)), ∃ off bs,
      WritesBack s.phys (s.uvms u).pagetable v addr length (pageNo (pgRoundDown addr) k) off bs ∧
      ∃ x < bs.length, off.toNat + x = v.offset.toNat + (va.toNat - v.start.toNat) ∧
        bs.getD x 0 = b := by
  obtain ⟨htable, hroot⟩ := h.spaces.table u hu
  obtain ⟨pa, q, hget, h0, rfl⟩ := residentByte_eq_some.1 hb
  have hstart := he.start_le
  have hstop := he.stop_le
  have hmax := hok.stop_le
  have hle := hva.le
  have hlt := hva.lt
  have hlt' := hva.lt_filesz
  have hk : va.toNat / 4096 - addr.toNat / 4096 <
      pagesIn (pgRoundDown addr) (pgRoundUp (addr + length)) := by
    unfold pagesIn
    rw [toNat_pgRoundDown, toNat_pgRoundUp, he.toNat_add hok]
    omega
  generalize hkdef : va.toNat / 4096 - addr.toNat / 4096 = k at hk
  obtain ⟨hpage, hin, hend⟩ := he.page hok hk
  have hdown : pgRoundDown va = pageNo (pgRoundDown addr) k := by
    apply BitVec.eq_of_toNat_eq
    rw [toNat_pgRoundDown, hpage]
    omega
  have hrun := h.rep.pgtGetpa_eq hroot (pageNo (pgRoundDown addr) k)
  rw [htable, hdown, hrun] at hget
  obtain ⟨rfl, -⟩ := Prod.mk.inj (Except.ok.inj hget)
  have hlo := toNat_umax (pageNo (pgRoundDown addr) k) addr
  rw [hpage] at hlo
  have hle₂ : (umax (pageNo (pgRoundDown addr) k) addr).toNat ≤ va.toNat := by
    rw [hlo]
    exact max_le (by omega) hle
  obtain ⟨hlo₁, hlo₂⟩ := max_le_iff.1 hlo.ge
  clear hlo
  have hva₂ : va.toNat < (v.backEnd addr length (pageNo (pgRoundDown addr) k)).toNat :=
    (hend _).2 ⟨by omega, hlt, hlt'⟩
  have hlt₂ : umax (pageNo (pgRoundDown addr) k) addr <
      v.backEnd addr length (pageNo (pgRoundDown addr) k) := BitVec.lt_def.2 (by omega)
  have hx : va.toNat - (umax (pageNo (pgRoundDown addr) k) addr).toNat <
      (v.backEnd addr length (pageNo (pgRoundDown addr) k) -
        umax (pageNo (pgRoundDown addr) k) addr).toNat := by
    rw [BitVec.toNat_sub_of_le (BitVec.le_of_lt hlt₂)]
    omega
  refine ⟨k, hk, _, _, ⟨_, htable ▸ hrun, h0, hlt₂, rfl, h.back_read he hok hk h0 hlt₂ _⟩,
    va.toNat - (umax (pageNo (pgRoundDown addr) k) addr).toNat, ?_, ?_, ?_⟩
  · rwa [List.length_map, List.length_range]
  · rw [v.toNat_fileOff hfile (by omega) (by omega)]
    omega
  · rw [List.getD_eq_getElem _ _ (by rwa [List.length_map, List.length_range]), List.getElem_map,
      List.getElem_range]
    congr 2
    omega

/-! ### The unmap -/

/-- The contents of the file before and after: the bytes of the range that are in memory have gone
to the file, and nothing else has changed. -/
structure ExactBack (s : Kernel) (u : UvmPtr) (v : Vma) (addr length : U64) (old new : List Byte) :
    Prop where
  length_eq : new.length = old.length
  written : ∀ va b, v.BackVa addr length va → s.residentByte u va = some b →
    new[v.offset.toNat + (va.toNat - v.start.toNat)]? = some b
  kept : ∀ y, (∀ va b, v.BackVa addr length va → s.residentByte u va = some b →
    y ≠ v.offset.toNat + (va.toNat - v.start.toNat)) → new[y]? = old[y]?

theorem Good.exactBack (h : Good L ext own s a) (hu : L u) (he : v.End addr length) (hok : v.Ok)
    {size : ℕ} (hfile : v.offset.toNat + v.filesz.toNat ≤ size) (hsize : size < 2 ^ 32)
    {c c' : ℕ → Byte} (hw : WroteBack s.phys (s.uvms u).pagetable v addr length size
      (pagesIn (pgRoundDown addr) (pgRoundUp (addr + length))) c c') :
    ExactBack s u v addr length ((List.range size).map c) ((List.range size).map c') where
  length_eq := by rw [List.length_map, List.length_map]
  written va b hva hb := by
    obtain ⟨k, hk, off, bs, hback, x, hx, hoff, rfl⟩ :=
      h.writesBack_of_resident hu he hok (by omega) hva hb
    obtain ⟨hin, hbytes⟩ := hw.written k hk off bs hback
    rw [← hoff, List.getElem?_map, List.getElem?_range (by omega), Option.map_some, hbytes x hx]
  kept y hy := by
    have hkept : c' y = c y := hw.kept y fun k hk off bs hback ⟨hlo, hhi⟩ => by
      obtain ⟨va, hva, hb, hoff⟩ := h.resident_of_writesBack hu he hok (by omega) hk hback
        (show y - off.toNat < bs.length by omega)
      exact hy va _ hva hb (by omega)
    rw [List.getElem?_map, List.getElem?_map]
    rcases lt_or_ge y size with hlt | hge
    · rw [List.getElem?_range hlt, Option.map_some, Option.map_some, hkept]
    · rw [List.getElem?_eq_none (by rwa [List.length_range])]
      rfl

variable {i j ip : ℕ} {S : Finset ℕ}

/-- The blocks of the bytes in memory are the blocks that are written. -/
theorem Good.backIn (h : Good L ext own s a) (hu : L u) (he : v.End addr length) (hok : v.Ok)
    (hsize : v.offset.toNat + v.filesz.toNat ≤ (s.fs.loaded ip).size.toNat)
    (hblocks : ∀ va b, v.BackVa addr length va → s.residentByte u va = some b →
      (s.fs.blockAt (s.fs.loaded ip)
        ((v.offset.toNat + (va.toNat - v.start.toNat)) / BSIZE)).toNat ∈ S)
    (hk : k < pagesIn (pgRoundDown addr) (pgRoundUp (addr + length))) :
    BackIn s.phys s.fs (s.fs.loaded ip) (s.uvms u).pagetable v S addr length
      (pageNo (pgRoundDown addr) k) := by
  intro off bs hback
  have hbyte {x : ℕ} (hx : x < bs.length) :=
    h.resident_of_writesBack hu he hok (by omega) hk hback hx
  obtain ⟨d, -, -, -, -, hpos⟩ := hback.bounds (BitVec.le_def.2 he.start_le)
  refine ⟨?_, fun bn hlo hhi => ?_⟩
  · obtain ⟨va, hva, -, hoff⟩ := hbyte (Nat.sub_lt hpos Nat.one_pos)
    have := he.start_le
    have := hva.le
    have := hva.lt_filesz
    omega
  · -- the first byte of the range that is in block `bn`
    have hB : BSIZE = 1024 := rfl
    rw [hB] at hlo hhi
    obtain ⟨va, hva, hb, hoff⟩ :=
      hbyte (show max off.toNat (bn * 1024) - off.toNat < bs.length by omega)
    have := hblocks va _ hva hb
    rwa [hB, ← hoff, show (off.toNat + (max off.toNat (bn * 1024) - off.toNat)) / 1024 =
      bn by omega] at this

/-- **The write-back of a shared mapping is exact.**  Nobody else uses the file system, the blocks
to be written fit into the log, and the file outlives the mapping: then `uvm_unmap` of a part of the
vma at one of its ends returns, the bytes of the range that are in memory are in the file, and
nothing else of the file has changed. -/
theorem unmap_shared_exact (h : Good L ext own s a) (hs : s.slot u i = some j)
    (he : (s.vmas j).End addr length) (hsh : (s.vmas j).flags = MAP_SHARED)
    (hip : (s.vmas j).inode = some ip) (hok : FileOk s.fs (s.fs.loaded ip))
    (hsize : (s.vmas j).offset.toNat + (s.vmas j).filesz.toNat ≤ (s.fs.loaded ip).size.toNat)
    (hidle : s.fs.Idle ip)
    (hkept : (s.vmas j).length = length →
      ¬ ((s.fs.itable ip).ref = 1 ∧ (s.fs.loaded ip).nlink = 0))
    (hnode : s.fs.inodeBlock (s.fs.loaded ip) ∈ S)
    (hblocks : ∀ va b, (s.vmas j).BackVa addr length va → s.residentByte u va = some b →
      (s.fs.blockAt (s.fs.loaded ip)
        (((s.vmas j).offset.toNat + (va.toNat - (s.vmas j).start.toNat)) / BSIZE)).toNat ∈ S)
    (hroom : S.card < s.fs.logCap) :
    ∃ t, uvmUnmap u addr length s = .ok ((), t) ∧
      ExactBack s u (s.vmas j) addr length (s.fs.contents ip) (t.fs.contents ip) := by
  have hu := h.spaces.live u i j hs
  have hvma := h.spaces.ok u i j hs
  have hj := h.spaces.va2vma hs (he.has hvma)
  have htable := (h.spaces.table u hu).1
  have hc : Holds s.fs (s.fs.loaded ip) (s.fs.byteAt (s.fs.loaded ip)) := ⟨hok, fun _ _ => rfl⟩
  have hlt := (s.fs.loaded ip).size.isLt
  have hback := writeBack_total hip hok hidle hnode hroom fun k hk =>
    ⟨h.backReads hu he hvma hk, h.backIn hu he hvma hsize hblocks hk⟩
  have hreturns : wp (uvmUnmap u addr length) (fun _ => False) (fun _ _ => True) s := by
    refine (uvmUnmap_end_wp (R := fun fs => fs.LogIdle ∧ ((s.vmas j).length = length →
      ¬ ((fs.itable ip).ref = 1 ∧ (fs.itable ip).valid ∧ (fs.itable ip).nlink = 0))) h hs he
      (fun _ => ?_) (fun hne => absurd hsh hne) fun hwhole fs hfs => ?_).mono fun _ _ _ => trivial
    · rw [← htable]
      refine hback.run.mono fun _ t ht => ?_
      obtain ⟨hio, hbacked⟩ := (writeBack_backed hip (BitVec.le_def.2 he.start_le) hc).ok ht.1
      refine ⟨t.fs, hio, ht.2, fun hwhole hlast => hkept hwhole ⟨?_, ?_⟩⟩
      · exact hbacked.1 ▸ hlast.1
      · exact hbacked.2.1 ▸ hlast.2.2
    · rw [hip]
      exact iputOp_idle hfs.1 (hfs.2 hwhole)
  obtain ⟨⟨⟩, t, hrun, -⟩ := hreturns.exists_ok
  refine ⟨t, hrun, ?_⟩
  obtain ⟨fs, hbacked, hsame⟩ := (uvmUnmap_backed hj hip hc hkept hsh).ok hrun
  obtain ⟨-, -, hvalid, hout⟩ := hbacked
  obtain ⟨hsz, c', hc', hwrote⟩ | ⟨-, k, hk, off, bs, hw, hafter⟩ := hout
  · have hsz' := (hsame.loaded hc'.log hc'.inode_out).size
    rw [← loaded_of_valid hvalid] at hc' hsz
    rw [hc.contents, (hsame.holds hc').contents, hsz', hsz]
    exact h.exactBack hu he hvma hsize hlt hwrote
  · have := (h.backIn hu he hvma hsize hblocks hk off bs hw).1
    omega

end

attribute [local instance] imageLayout

/-- `n` free pages, no address space, and a file of one byte, 0. -/
def filePages (n : ℕ) : SpaceSys :=
  { freePages n with kernel := { (freePages n).kernel with fs := shareKernel.fs } }

theorem filePages_start {n : ℕ} (hn : n ≤ 0x7fd0) : (filePages n).Start :=
  { freePages_start hn with slot := (freePages_start hn).slot }

/-- Eight free pages, no address space, and the file. -/
def fileSpaces : SpaceSys := filePages 8

theorem fileSpaces_start : fileSpaces.Start := filePages_start (by decide)

/-- The file `ip` has one byte, in block 70, its inode is in block 32, and no operation is going
on. -/
def Fs.OneByte (fs : Fs) (ip : ℕ) : Prop :=
  fs.log.log = ⟨2, 30, 0, false, []⟩ ∧ fs.inodeBlock (fs.loaded ip) = 32 ∧
    (fs.loaded ip).size = 1 ∧ (fs.loaded ip).addrs 0 = 70 ∧ (fs.loaded ip).addrs NDIRECT = 0

instance (fs : Fs) (ip : ℕ) : Decidable (fs.OneByte ip) :=
  inferInstanceAs (Decidable (fs.log.log = ⟨2, 30, 0, false, []⟩ ∧
    fs.inodeBlock (fs.loaded ip) = 32 ∧ (fs.loaded ip).size = 1 ∧
    (fs.loaded ip).addrs 0 = 70 ∧ (fs.loaded ip).addrs NDIRECT = 0))

theorem Fs.OneByte.fileOk {fs : Fs} {ip : ℕ} (h : fs.OneByte ip) : FileOk fs (fs.loaded ip) := by
  obtain ⟨hlog, hnode, hsize, haddr, hind⟩ := h
  have hout (b : ℕ) (hb : 32 ≤ b) : ¬ fs.inLog b := by
    unfold Fs.inLog InLog
    rw [hlog]
    dsimp only
    omega
  refine FileOk.of_one ⟨⟨?_, ?_⟩, ?_⟩ ?_ ?_ ?_ ?_
  · rw [hlog]
    decide
  · rw [hlog]
    decide
  · rw [hlog]
    exact fun b hb => nomatch hb
  · rw [hsize]
    decide
  · exact hout _ hnode.ge
  · rw [haddr]
    decide
  · rw [haddr, hind, hnode]
    exact ⟨hout _ (by decide), by decide, by decide⟩

/-- A process maps the file, shared, and stores to it. -/
def sharedStoreRun : List SpaceEvent :=
  [.frame, .new (.proc 0) 0x80030, .map (.proc 0) 0x1000 4096 6 MAP_SHARED (some 0) 0 1,
    .store (.proc 0) 0x1000 7]

theorem unmap_shared_exact_store : ∃ s t, Reach SpaceSys.step PlainMaps fileSpaces s ∧
    s.kernel.residentByte (.proc 0) 0x1000 = some 7 ∧ s.kernel.fs.contents 0 = [0] ∧
    uvmUnmap (.proc 0) 0x1000 4096 s.kernel = .ok ((), t) ∧ t.fs.contents 0 = [7] ∧
    ExactBack s.kernel (.proc 0) (s.kernel.vmas 0) 0x1000 4096 (s.kernel.fs.contents 0)
      (t.fs.contents 0) := by
  have hrun : (runs SpaceSys.step sharedStoreRun fileSpaces).map (fun s => decide (
      s.kernel.slot (.proc 0) 0 = some 0 ∧
      s.kernel.vmas 0 = ⟨true, some 0, 0, 1, 0x1000, 4096, 6, MAP_SHARED⟩ ∧
      s.kernel.residentByte (.proc 0) 0x1000 = some 7 ∧ s.kernel.fs.contents 0 = [0] ∧
      contentsAfter (uvmUnmap (.proc 0) 0x1000 4096) s.kernel = some [7] ∧
      s.kernel.fs.OneByte 0 ∧ ((s.kernel.fs.itable 0).ref = 2 ∧
      (s.kernel.fs.itable 0).locked = false) ∧ (s.kernel.fs.loaded 0).type = 2)) = some true := by
    decide +kernel
  obtain ⟨s, hs, hfacts⟩ := Option.map_eq_some_iff.1 hrun
  obtain ⟨hslot, hvma, hseven, hzero, hafter, hone, ⟨href, hlock⟩, htype⟩ :=
    of_decide_eq_true hfacts
  have ⟨hlog, hnode, hsize, haddr, _⟩ := hone
  have hreach : Reach SpaceSys.step PlainMaps fileSpaces s := by
    refine reach_of_runs (fun e he t => ?_) hs
    simp only [sharedStoreRun, List.mem_cons, List.not_mem_nil, or_false] at he
    rcases he with rfl | rfl | rfl | rfl
    · trivial
    · trivial
    · exact ⟨by decide, by decide, by decide, by decide⟩
    · trivial
  obtain ⟨ext, own, a, hT, -⟩ := hreach.invariant fileSpaces_start.inv fun _ _ _ hI hok hs =>
    hI.step hok hs
  have hpart : (s.kernel.vmas 0).End 0x1000 4096 := by
    rw [hvma]
    exact ⟨by decide, by decide, by decide, .inl rfl⟩
  have hidle : s.kernel.fs.Idle 0 :=
    ⟨⟨by rw [hlog], by rw [hlog], by rw [hlog]⟩, by rw [href]; decide, hlock, by rw [htype]; decide⟩
  have hroom : ({32, 70} : Finset ℕ).card < s.kernel.fs.logCap := by
    unfold Fs.logCap
    rw [hlog]
    decide
  have hblocks : ∀ va b, (s.kernel.vmas 0).BackVa 0x1000 4096 va →
      s.kernel.residentByte (.proc 0) va = some b → (s.kernel.fs.blockAt (s.kernel.fs.loaded 0)
        (((s.kernel.vmas 0).offset.toNat + (va.toNat - (s.kernel.vmas 0).start.toNat)) /
          BSIZE)).toNat ∈ ({32, 70} : Finset ℕ) := by
    -- the only byte is in block 0 of the file
    intro va b hva _
    have hlt : va.toNat < 0x1000 + 1 := by
      have := hva.lt_filesz
      rwa [hvma] at this
    rw [hvma, show ((0 : U32).toNat + (va.toNat - (0x1000 : U64).toNat)) / BSIZE = 0 by
      change (0 + (va.toNat - 0x1000)) / 1024 = 0
      omega]
    change ((s.kernel.fs.loaded 0).addrs 0).toNat ∈ _
    rw [haddr]
    decide
  obtain ⟨t, ht, hexact⟩ := unmap_shared_exact hT.toGood hslot hpart (by rw [hvma]) (by rw [hvma])
    (Fs.OneByte.fileOk hone) (by rw [hvma, hsize]; decide) hidle
    (fun _ h => absurd h.1 (by rw [href]; decide)) (by rw [hnode]; decide) hblocks hroom
  rw [contentsAfter, ht] at hafter
  exact ⟨s, t, hreach, hseven, hzero, ht, Option.some.inj hafter, hexact⟩

end Xv6
