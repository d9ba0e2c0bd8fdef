import Xv6.BlockOps
import Xv6.Boot
import Xv6.CopyFrame
import Xv6.File
import Xv6.Lib.Run

/-!
# Every block has one owner

`readi` and `writei` to and from user memory may read pages of other files on the way.  With them,
and the operations of `Xv6.BlockOps`, the invariant holds in every state of a run: a block of the
data area is marked if and only if one slot of one inode refers to it, no file has a hole, and
`bfree` does not find a block that is free already.
-/

namespace Xv6

open Bytes Wp Tally

/-! ### Stops without `bfree` -/

/-- Code that frees no block twice, whatever the state. -/
abbrev FreesNone {α : Type} (m : F α) : Prop := Keeps FreesOk (fun _ _ => True) m

theorem freesNone_fsLogWrite (b : U32) (data : Block) : FreesNone (fsLogWrite b data) :=
  ⟨freesOk_fsLogWrite b data⟩

theorem freesNone_setInode (ip : ℕ) (f : Inode → Inode) : FreesNone (setInode ip f) :=
  .modify fun _ => trivial

theorem freesNone_bmap (ip bn : ℕ) : FreesNone (bmap ip bn) :=
  keeps_bmap freesNone_fsLogWrite (fun _ _ => freesNone_setInode _ _) (by decide) (by decide) bn

theorem freesNone_readi (ip : ℕ) (off n : U32) : FreesNone (readi ip off n) :=
  keeps_readi (freesNone_bmap ip) off n

theorem freesNone_ilock (ip : ℕ) : FreesNone (ilock ip) :=
  ⟨fun fs => (ilock_spec fs ip).mono fun _ _ _ => trivial⟩

theorem freesNone_iunlock (ip : ℕ) : FreesNone (iunlock ip) :=
  .bind (keeps_getInode ip) fun _ => .bind (keeps_panicIf (by decide)) fun _ =>
    freesNone_setInode _ _

theorem freesNone_readPage (vma : Vma) (va : U64) : FreesNone (readPage vma va) := by
  unfold readPage
  split
  · exact .pure _
  · exact .ite (.pure _) (.bind (freesNone_ilock _) fun _ => .bind (freesNone_readi _ _ _) fun _ =>
      .bind (freesNone_iunlock _) fun _ => .bind (keeps_panicIf (by decide)) fun _ => .pure _)

theorem PhysStop.freesOk {e : Stop} (h : PhysStop e) : FreesOk e := by
  rintro rfl
  revert h
  simp [PhysStop]

/-! ### Page faults -/

/-- The invariant, with the inode that is being changed locked. -/
structure Settled (D : ℕ → Dinode) (x : Option ℕ) (fs : Fs) : Prop extends FsOk D x fs where
  locked : ∀ inum, x = some inum → ∃ ip, InCore fs ip inum ∧ (fs.itable ip).locked = true

/-- Inodes have been read, but none that is locked. -/
structure Peeked (fs fs' : Fs) : Prop where
  log : fs'.log = fs.log
  sb : fs'.sb = fs.sb
  locked : ∀ ip, (fs.itable ip).locked = true → fs'.itable ip = fs.itable ip

theorem Peeked.refl (fs : Fs) : Peeked fs fs := ⟨rfl, rfl, fun _ _ => rfl⟩

theorem Peeked.trans {fs fs' fs'' : Fs} (h : Peeked fs fs') (h' : Peeked fs' fs'') :
    Peeked fs fs'' :=
  ⟨h'.log.trans h.log, h'.sb.trans h.sb, fun ip hl =>
    (h'.locked ip (by rw [h.locked ip hl, hl])).trans (h.locked ip hl)⟩

/-- The invariant is kept, and at most inodes are read. -/
def KeepsSettled (D : ℕ → Dinode) (x : Option ℕ) (s t : Kernel) : Prop :=
  Settled D x s.fs → Settled D x t.fs ∧ Peeked s.fs t.fs

section

variable {D : ℕ → Dinode} {x : Option ℕ} {fs fs' : Fs} {ip inum : ℕ}

instance : Std.Refl (KeepsSettled D x) := ⟨fun _ h => ⟨h, .refl _⟩⟩

instance : IsTrans Kernel (KeepsSettled D x) := ⟨fun _ _ _ h h' hs =>
  ⟨(h' (h hs).1).1, (h hs).2.trans (h' (h hs).1).2⟩⟩

/-- A page fault reads a page of a file that is not locked. -/
theorem readPage_settled (h : Settled D x fs) (vma : Vma) (va : U64) :
    wp (readPage vma va) FreesOk (fun _ fs' => Settled D x fs' ∧ Peeked fs fs') fs := by
  unfold readPage
  split
  · exact ⟨h, .refl fs⟩
  rename_i ip _
  dsimp only
  by_cases heof : vma.start + vma.filesz.setWidth 64 ≤ va
  · rw [if_pos heof]
    exact ⟨h, .refl fs⟩
  rw [if_neg heof, wp_bind]
  refine (ilock_ok h.toFsOk fun href hx => ?_).mono
    fun _ fs₁ ⟨h₁, hlog, hsb, hcore, hun, hlock, hother⟩ => ?_
  · obtain ⟨jp, hjp, hl⟩ := h.locked _ hx
    rwa [h.unique ip jp href hjp.ref (BitVec.eq_of_toNat_eq hjp.inum.symm)]
  rw [wp_bind]
  refine (readi_ok h₁ hcore _ _).mono fun bs fs₂ hfs₂ => ?_
  rw [hfs₂, wp_bind]
  refine (iunlock_ok h₁ ip).mono ?_
  rintro _ _ ⟨h₂, rfl⟩
  rw [wp_bind, wp_panicIf]
  split_ifs
  · exact (by decide : FreesOk (.panic "uvm_completemap: readi"))
  have hsame (jp : ℕ) (hl : (fs.itable jp).locked = true) :
      (fs₁.withInode ip { fs₁.itable ip with locked := false }).itable jp = fs.itable jp := by
    have hj : jp ≠ ip := by
      rintro rfl
      rw [hun] at hl
      cases hl
    rw [withInode_of_ne _ _ hj, hother jp hj]
  refine ⟨⟨h₂, fun j hj => ?_⟩, hlog, hsb, hsame⟩
  obtain ⟨jp, hjp, hl⟩ := h.locked j hj
  refine ⟨jp, ?_, by rw [hsame jp hl, hl]⟩
  exact hjp.same (by rw [hsame jp hl]; exact .refl _)

theorem keepsSettled_copies : CopyFrame FreesOk (KeepsSettled D x) where
  phys hm := ⟨fun s => by
    rw [wp_liftP]
    exact ((hm.weaken fun _ => PhysStop.freesOk).start s.phys).mono fun _ p _ h => ⟨h, .refl _⟩⟩
  read vma va := ⟨fun s => by
    rw [wp_liftF]
    by_cases h : Settled D x s.fs
    · exact (readPage_settled h vma va).mono fun _ f hf _ => hf
    · exact ((freesNone_readPage vma va).start s.fs).mono fun _ f _ hs => absurd hs h⟩
  stop := by decide

/-- What holds after a copy, for an inode that is locked. -/
theorem Peeked.grown (h : Peeked fs fs') (hl : (fs.itable ip).locked = true) :
    Grown ip inum D fs D fs' :=
  Spares.grown (fun _ _ _ _ => by rw [h.log]) h.sb (h.locked ip hl)

theorem setBuf_ok {b : U32} {data : Block} {n : ℕ} (h : FsOk D x fs)
    (hi : inum < fs.sb.ninodes.toNat) (hn : n < MAXFILE)
    (hp : slotPtr fs D (inum, n) = some b.toNat) :
    wp (setBuf b data) FreesOk
      (fun _ fs' => FsOk D x fs' ∧ Spares D fs fs' ∧ SameTables fs fs') fs := by
  rw [setBuf, wp_modify]
  have hs : SameTables fs { fs with
      log := { fs.log with buf := Function.update fs.log.buf b.toNat data } } :=
    ⟨rfl, rfl, rfl, rfl⟩
  obtain ⟨h₁, hsp⟩ := h.writeData hi hn hp hs ⟨⟨h.log.le, h.log.lt⟩, h.log.outside⟩ rfl
  exact ⟨h₁, hsp, hs⟩

/-! ### `readi` and `writei` for user addresses -/

variable [Layout] {s : Kernel} {u : UvmPtr}

theorem copyout_settled (h : Settled D x s.fs) (u : UvmPtr) (dst : U64) (src : ℕ → Byte)
    (len : U64) :
    wp (copyout u dst src len) FreesOk (fun _ t => Settled D x t.fs ∧ Peeked s.fs t.fs) s :=
  ((keepsSettled_copies.copyout u dst src len).start s).mono fun _ _ ht => ht h

theorem copyin_settled (h : Settled D x s.fs) (u : UvmPtr) (src len : U64) :
    wp (copyin u src len) FreesOk (fun _ t => Settled D x t.fs ∧ Peeked s.fs t.fs) s :=
  ((keepsSettled_copies.copyin u src len).start s).mono fun _ _ ht => ht h

theorem readiUserFrom_ok (h : Settled D none s.fs) (hip : InCore s.fs ip inum)
    (hl : (s.fs.itable ip).locked = true) {fuel : ℕ} {dst : U64} {off k : ℕ} {tot : ℤ}
    (hk : off + k ≤ (s.fs.itable ip).size.toNat) :
    wp (readiUserFrom u ip fuel dst off k tot) FreesOk
      (fun _ t => Settled D none t.fs ∧ Peeked s.fs t.fs) s := by
  induction fuel generalizing s dst off k tot with
  | zero => exact ⟨h, .refl _⟩
  | succ fuel ih =>
    unfold readiUserFrom
    by_cases hk0 : k = 0
    · rw [if_pos hk0]
      exact ⟨h, .refl _⟩
    have hdiv := Nat.div_mul_le_self off BSIZE
    obtain ⟨hmax, hb⟩ := h.blockAt_ne hip (n := off / BSIZE) (by omega)
    rw [if_neg hk0, wp_bind, wp_liftF]
    refine (bmap_mapped rfl hmax hb).mono ?_
    rintro b _ ⟨rfl, rfl⟩
    rw [wp_bind, wp_liftF, wp_bread, wp_bind]
    refine (copyout_settled h u dst _ _).mono fun ok t₁ ⟨hr₁, hp₁⟩ => ?_
    have hsame := hp₁.locked ip hl
    by_cases hok : ok = true
    · rw [if_neg (by simp [hok])]
      refine (ih hr₁ (hip.same (by rw [hsame]; exact .refl _)) (by rw [hsame, hl])
        (by rw [hsame]; omega)).mono fun _ t₂ h₂ => ⟨h₂.1, hp₁.trans h₂.2⟩
    · rw [if_pos (by simpa using hok)]
      exact ⟨hr₁, hp₁⟩

/-- `readi` to a user address never allocates. -/
theorem readiUser_ok (h : FsOk D none s.fs) (hip : InCore s.fs ip inum)
    (hl : (s.fs.itable ip).locked = true) (dst : U64) (off k : U32) :
    wp (readiUser u ip dst off k) FreesOk (fun _ t => FsOk D none t.fs ∧ Peeked s.fs t.fs) s := by
  unfold readiUser
  rw [wp_bind, wp_liftF, wp_getInode]
  by_cases hc : (s.fs.itable ip).size < off ∨ off + k < off
  · rw [if_pos hc]
    exact ⟨h, .refl _⟩
  · rw [if_neg hc]
    exact (readiUserFrom_ok ⟨h, nofun⟩ hip hl (readi_range hc)).mono fun _ t ht =>
      ⟨ht.1.toFsOk, ht.2⟩

theorem writeiUserFrom_ok (h : FsOk D (some inum) s.fs) (hip : InCore s.fs ip inum)
    (hl : (s.fs.itable ip).locked = true) {fuel : ℕ} {src : U64} {off k tot : ℕ}
    (hfill : Filled D s.fs inum off) (hend : off + k ≤ MAXFILE * BSIZE) :
    wp (writeiUserFrom u ip fuel src off k tot) FreesOk (fun r t => ∃ D', FsOk D' (some inum) t.fs ∧
      InCore t.fs ip inum ∧ Filled D' t.fs inum r.2 ∧ r.2 ≤ MAXFILE * BSIZE) s := by
  induction fuel generalizing s D src off k tot with
  | zero => exact ⟨D, h, hip, hfill, by omega⟩
  | succ fuel ih =>
    unfold writeiUserFrom
    by_cases hk : k = 0
    · rw [if_pos hk]
      exact ⟨D, h, hip, hfill, by omega⟩
    have hmod : off % BSIZE < BSIZE := Nat.mod_lt _ (by decide)
    rw [if_neg hk, wp_bind, wp_liftF]
    refine (bmap_spec h hip _).mono fun b fs₁ ⟨hmax, D₁, h₁, hg₁, hp⟩ => ?_
    have hip₁ := hip.same hg₁.head
    have hl₁ : (fs₁.itable ip).locked = true := hg₁.head.locked.trans hl
    have hi₁ := (h₁.inCore hip₁).2.2
    rw [wp_bind, wp_liftF, wp_bread, wp_bind]
    have hr₁ : Settled D₁ (some inum) fs₁ :=
      ⟨h₁, fun j hj => ⟨ip, Option.some.inj hj ▸ hip₁, hl₁⟩⟩
    refine (copyin_settled (s := s.io s.phys fs₁) hr₁ u src _).mono fun r t₂ ⟨hr₂, hp₂⟩ => ?_
    have hg₂ : Grown ip inum D₁ fs₁ D₁ t₂.fs := hp₂.grown hl₁
    have hip₂ := hip₁.same hg₂.head
    have hp : slotPtr t₂.fs D₁ (inum, off / BSIZE) = some b.toNat :=
      hg₂.ptr _ (mem_slotsOf hi₁ hmax.le) _ hp
    have hi₂ := (hr₂.inCore hip₂).2.2
    have hfill₂ : Filled D₁ t₂.fs inum off :=
      (hfill.grown (h.inCore hip).2.2 (by omega) (hg₁.trans hg₂))
    obtain ⟨ok, bs⟩ := r
    dsimp only
    by_cases hok : ok = true
    · rw [if_neg (show ¬ (!ok) = true by simp [hok]), wp_bind, wp_liftF]
      have hin := hr₂.owned.marks.inside _ (mem_slotsOf hi₂ hmax.le) _ hp
      refine (fsLogWrite_freesOk hr₂.log (hr₂.data_out hin) _).mono
        fun _ fs₃ ⟨hs₃, hl₃, hbuf₃⟩ => ?_
      obtain ⟨h₃, hsp⟩ := hr₂.writeData hi₂ hmax hp hs₃ hl₃ hbuf₃
      have hg₃ : Grown ip inum D₁ t₂.fs D₁ fs₃ := hsp.grown hs₃.sb (by rw [hs₃.itable])
      generalize hm : min k (BSIZE - off % BSIZE) = m
      have hfill₃ : Filled D₁ fs₃ inum (off + m) :=
        (hfill₂.add (by rw [hp]; exact nofun) (by omega)).grown hi₂ (by omega) hg₃
      exact ih h₃ (hip₂.same hg₃.head) (((hg₂.head.trans hg₃.head).locked).trans hl₁) hfill₃
        (by omega)
    · -- the copy fails: the block has been allocated, but is not counted in the size
      rw [if_pos (show (!ok) = true by simpa using hok), wp_bind, wp_liftF]
      refine (setBuf_ok hr₂.toFsOk hi₂ hmax hp).mono fun _ fs₃ ⟨h₃, hsp, hs₃⟩ => ?_
      have hg₃ : Grown ip inum D₁ t₂.fs D₁ fs₃ := hsp.grown hs₃.sb (by rw [hs₃.itable])
      exact ⟨D₁, h₃, hip₂.same hg₃.head, hfill₂.grown hi₂ (by omega) hg₃, by omega⟩

theorem writeiUser_ok (h : FsOk D none s.fs) (hip : InCore s.fs ip inum)
    (hl : (s.fs.itable ip).locked = true) (src : U64) (off k : U32) :
    wp (writeiUser u ip src off k) FreesOk (fun _ t => ∃ D', FsOk D' none t.fs) s := by
  unfold writeiUser
  rw [wp_bind, wp_liftF, wp_getInode]
  by_cases hc : (s.fs.itable ip).size < off ∨ off + k < off
  · rw [if_pos hc]
    exact ⟨D, h⟩
  rw [if_neg hc]
  by_cases hbig : MAXFILE * BSIZE < (off + k).toNat
  · rw [if_pos hbig]
    exact ⟨D, h⟩
  rw [if_neg hbig, wp_bind]
  obtain ⟨hd, ht, hi⟩ := h.inCore hip
  have hadd : (off + k).toNat = off.toNat + k.toNat := by
    rw [not_or, BitVec.not_lt, BitVec.not_lt, BitVec.le_def, BitVec.le_def, BitVec.toNat_add] at hc
    rw [BitVec.toNat_add]
    have := off.isLt
    have := k.isLt
    omega
  have hfill : Filled D s.fs inum off.toNat := by
    intro bn hbn
    refine h.owned.mapped inum hi ht bn (hbn.trans_le ?_)
    rw [← hd]
    exact BitVec.not_lt.1 fun hlt => hc (.inl hlt)
  refine (writeiUserFrom_ok (h.opened _) hip hl hfill (by omega)).mono
    fun r t ⟨D₁, h₁, hip₁, hfill₁, hle⟩ => ?_
  have hmax : MAXFILE * BSIZE < 2 ^ 32 := by decide
  have he : (BitVec.ofNat 32 r.2).toNat = r.2 := by
    rw [BitVec.toNat_ofNat]
    omega
  have hsize := setSize_ok h₁ hip₁ (by rwa [he]) (by rwa [he])
  rw [wp_bind] at hsize
  rw [wp_bind, wp_liftF]
  refine hsize.mono fun _ fs₂ h₂ => ?_
  rw [wp_bind, wp_liftF]
  exact h₂.mono fun _ fs₃ h₃ => h₃

end

/-! ### Runs -/

/-- The operations on inodes, for kernel and for user addresses. -/
inductive BlockCall
  | beginOp
  | endOp
  | iget (inum : U32)
  | idup (ip : ℕ)
  | ilock (ip : ℕ)
  | iunlock (ip : ℕ)
  | iput (ip : ℕ)
  | ialloc (type : U16)
  | relink (ip : ℕ) (major minor nlink : U16)
  | iupdate (ip : ℕ)
  | itrunc (ip : ℕ)
  | readi (ip : ℕ) (off n : U32)
  | readiUser (u : UvmPtr) (ip : ℕ) (dst : U64) (off n : U32)
  | writei (ip : ℕ) (off : U32) (bs : List Byte)
  | writeiUser (u : UvmPtr) (ip : ℕ) (src : U64) (off n : U32)

/-- `relink` stands for what the system calls store in an inode before they call `iupdate`. -/
def BlockCall.run [Layout] : BlockCall → K Unit
  | .beginOp => fsBeginOp
  | .endOp => fsEndOp
  | .iget inum => do
    let _ ← Xv6.iget ROOTDEV inum
    return
  | .idup ip => Xv6.idup ip
  | .ilock ip => Xv6.ilock ip
  | .iunlock ip => Xv6.iunlock ip
  | .iput ip => Xv6.iput ip
  | .ialloc type => do
    let _ ← Xv6.ialloc ROOTDEV type
    return
  | .relink ip major minor nlink =>
    setInode ip fun i => { i with major := major, minor := minor, nlink := nlink }
  | .iupdate ip => Xv6.iupdate ip
  | .itrunc ip => Xv6.itrunc ip
  | .readi ip off n => do
    let _ ← Xv6.readi ip off n
    return
  | .readiUser u ip dst off n => do
    let _ ← Xv6.readiUser u ip dst off n
    return
  | .writei ip off bs => do
    let _ ← Xv6.writei ip off bs
    return
  | .writeiUser u ip src off n => do
    let _ ← Xv6.writeiUser u ip src off n
    return

/-- The caller has a reference to the inode and its lock. -/
def Fs.Mine (fs : Fs) (ip : ℕ) : Prop :=
  0 < (fs.itable ip).ref ∧ (fs.itable ip).valid = true ∧ (fs.itable ip).locked = true

/-- What a caller has to see to: it uses inodes that it has a reference to, and locks them before it
looks inside. -/
def BlockCall.Ok (fs : Fs) : BlockCall → Prop
  | .iget inum => inum.toNat < fs.sb.ninodes.toNat
  | .idup ip | .iput ip => 0 < (fs.itable ip).ref
  | .relink ip _ _ _ | .iupdate ip | .itrunc ip | .readi ip _ _ | .readiUser _ ip _ _ _
  | .writeiUser _ ip _ _ _ => fs.Mine ip
  | .writei ip _ bs => fs.Mine ip ∧ bs.length < 2 ^ 32
  | _ => True

/-- The calls that read. -/
def BlockCall.Reads : BlockCall → Prop
  | .readi .. | .readiUser .. => True
  | _ => False

/-- A call, or anything else that leads to the state `t`. -/
inductive BlockEvent
  | call (c : BlockCall)
  | other (t : Kernel)

def blockStep [Layout] : BlockEvent → Kernel → Option Kernel
  | .call c, s =>
    match c.run s with
    | .error _ => none
    | .ok (_, t) => some t
  | .other t, _ => some t

/-- Other code does not touch the file system. -/
def BlockEvent.Ok (s : Kernel) : BlockEvent → Prop
  | .call c => c.Ok s.fs
  | .other t => t.fs = s.fs

/-- The blocks of the disk are in order, for the inodes on the disk. -/
def Fs.BlocksOk (fs : Fs) : Prop := FsOk fs.dinode none fs

section

variable {D : ℕ → Dinode} {fs : Fs} {ip : ℕ}

theorem Fs.Mine.inCore (h : fs.Mine ip) : InCore fs ip (fs.itable ip).inum.toNat :=
  ⟨h.1, h.2.1, rfl⟩

/-- Between two calls, the inodes are those on disk. -/
theorem FsOk.blocksOk (h : FsOk D none fs) : fs.BlocksOk := by
  have hD (j : ℕ) (hj : j < fs.sb.ninodes.toNat) : fs.dinode j = D j := h.disk j hj nofun
  have hptr (y : ℕ × ℕ) (hy : y ∈ slotsOf fs.sb) : slotPtr fs fs.dinode y = slotPtr fs D y :=
    slotPtr_congr (by rw [hD _ (mem_slotsOf_iff.1 hy).1]) (by rw [hD _ (mem_slotsOf_iff.1 hy).1])
  refine ⟨h.layout, h.log, ⟨h.owned.marks.congr hptr fun _ _ => rfl, h.owned.low, fun j hj ht => ?_,
    fun j hj ht bn hbn => ?_⟩, fun _ _ _ => rfl, fun jp hr hv => ?_, h.inum, h.unique⟩
  · rw [hD j hj] at ht ⊢
    exact h.owned.size_le j hj ht
  · rw [hD j hj] at ht hbn
    rw [hptr _ (mem_slotsOf hj (h.owned.block_lt hj ht hbn).le)]
    exact h.owned.mapped j hj ht bn hbn
  · rw [hD _ (h.inum jp hr).2.2]
    exact h.mem jp hr hv

variable [Layout] {s : Kernel}

/-- Every call keeps the blocks in order. -/
theorem BlockCall.run_ok (c : BlockCall) (h : s.fs.BlocksOk) (hok : c.Ok s.fs) :
    wp c.run FreesOk (fun _ t => t.fs.BlocksOk ∧ (c.Reads → t.fs.log = s.fs.log)) s := by
  have hkeep {α : Type} {m : F α} (hm : wp m FreesOk (fun _ fs' => ∃ D', FsOk D' none fs') s.fs)
      (hr : ¬ c.Reads) : wp (liftM m : K α) FreesOk
        (fun _ t => t.fs.BlocksOk ∧ (c.Reads → t.fs.log = s.fs.log)) s := by
    rw [wp_liftF]
    exact hm.mono fun _ f ⟨_, hf⟩ => ⟨hf.blocksOk, fun hc => absurd hc hr⟩
  cases c with
  | beginOp => exact hkeep ((fsBeginOp_ok h).mono fun _ f hf => ⟨_, hf⟩) id
  | endOp => exact hkeep ((fsEndOp_ok h).mono fun _ f hf => ⟨_, hf⟩) id
  | iget inum =>
    rw [BlockCall.run, wp_bind]
    exact hkeep ((iget_ok h hok).mono fun _ f hf => ⟨_, hf⟩) id
  | idup ip =>
    refine hkeep (wp_setInode.2 ⟨s.fs.dinode, ?_⟩) id
    exact FsOk.withInode h (fun _ => hok) rfl rfl fun hv => ⟨hv, rfl⟩
  | ilock ip => exact hkeep ((ilock_ok h fun _ => nofun).mono fun _ f hf => ⟨_, hf.1⟩) id
  | iunlock ip => exact hkeep ((iunlock_ok h ip).mono fun _ f hf => ⟨_, hf.1⟩) id
  | iput ip => exact hkeep (iput_ok h hok) id
  | ialloc type =>
    rw [BlockCall.run, wp_bind]
    exact hkeep (ialloc_ok h type) id
  | relink ip major minor nlink =>
    refine hkeep (wp_setInode.2 ⟨s.fs.dinode, ?_⟩) id
    exact FsOk.withInode h (fun _ => hok.1) rfl rfl fun hv => ⟨hv, rfl⟩
  | iupdate ip =>
    exact hkeep ((iupdate_ok (FsOk.opened h _) hok.inCore).mono fun _ f hf => ⟨_, hf.1⟩) id
  | itrunc ip =>
    exact hkeep ((itrunc_ok (FsOk.opened h _) hok.inCore).mono fun _ f hf => ⟨_, hf.1⟩) id
  | readi ip off n =>
    rw [BlockCall.run, wp_bind, wp_liftF]
    refine (readi_ok h hok.inCore off n).mono fun _ f hf => ?_
    rw [hf]
    exact ⟨h, fun _ => rfl⟩
  | readiUser u ip dst off n =>
    rw [BlockCall.run, wp_bind]
    exact (readiUser_ok h hok.inCore hok.2.2 dst off n).mono fun _ t ht =>
      ⟨ht.1.blocksOk, fun _ => ht.2.log⟩
  | writei ip off bs =>
    rw [BlockCall.run, wp_bind]
    exact hkeep (writei_ok h hok.1.inCore off hok.2) id
  | writeiUser u ip src off n =>
    rw [BlockCall.run, wp_bind]
    exact (writeiUser_ok h hok.inCore hok.2.2 src off n).mono fun _ t ⟨_, ht⟩ =>
      ⟨ht.blocksOk, fun hc => hc.elim⟩

theorem blocksOk_step {t : Kernel} {e : BlockEvent} (h : s.fs.BlocksOk) (hok : e.Ok s)
    (hst : blockStep e s = some t) : t.fs.BlocksOk := by
  cases e with
  | call c =>
    simp only [blockStep] at hst
    rcases hc : c.run s with e | ⟨_, t'⟩
    · rw [hc] at hst
      cases hst
    · rw [hc] at hst
      cases hst
      exact ((c.run_ok h hok).ok hc).1
  | other t' =>
    cases hst
    have hfs : t.fs = s.fs := hok
    rwa [hfs]

/-- After any calls, a block of the data area is marked if and only if it is referred to, and then
by one slot of one inode; every block below the size of an inode has an address, and reading writes
nothing; and no call frees a block that is free. -/
theorem blocks_have_one_owner {s₀ : Kernel} (h0 : s₀.fs.BlocksOk)
    (h : Run.Reach blockStep BlockEvent.Ok s₀ s) :
    (∀ b, InData s.fs.sb b → tally (slotsOf s.fs.sb) (slotPtr s.fs s.fs.dinode) b ≤ 1 ∧
      (s.fs.bit b = true ↔ tally (slotsOf s.fs.sb) (slotPtr s.fs s.fs.dinode) b = 1)) ∧
    (∀ inum < s.fs.sb.ninodes.toNat, (s.fs.dinode inum).type ≠ 0 →
      ∀ bn, bn * BSIZE < (s.fs.dinode inum).size.toNat → slotEntry s.fs (s.fs.dinode inum) bn ≠ 0) ∧
    (∀ c : BlockCall, c.Reads → c.Ok s.fs → ∀ t, c.run s = .ok ((), t) → t.fs.log = s.fs.log) ∧
    ∀ c : BlockCall, c.Ok s.fs → c.run s ≠ .error (.panic "freeing free block") := by
  have hinv : s.fs.BlocksOk := h.invariant h0 fun _ _ _ => blocksOk_step
  refine ⟨fun b hb => ?_, fun inum hi ht bn hbn => ?_, fun c hr hok t ht => ?_, fun c hok he => ?_⟩
  · rw [hinv.owned.marks.count b hb]
    cases s.fs.bit b <;> simp
  · obtain ⟨b, hb⟩ := Option.ne_none_iff_exists'.1 (hinv.owned.mapped inum hi ht bn hbn)
    exact (slotPtr_eq_some.1 hb).2.1
  · exact ((c.run_ok hinv hok).ok ht).2 hr
  · exact (c.run_ok hinv hok).error he rfl

end

/-! ### A disk with one file -/

section

attribute [local instance] imageLayout

/-- A disk of 40 blocks without files: the log from block 2 on, inodes in block 32, the bitmap in
block 33. -/
def smallDisk : Kernel where
  __ := Kernel.zero
  fs :=
    { log := ⟨fun _ _ => 0,
        fun b i => if b = 33 then if i < 4 then 255 else if i = 4 then 3 else 0 else 0,
        fun _ => 0, [], ⟨2, 30, 0, false, []⟩⟩
      sb := ⟨40, 3, 32, 33⟩
      itable := fun _ => Inode.zero }

theorem smallDisk_blocksOk : smallDisk.fs.BlocksOk := by
  have hfree (inum : ℕ) (hi : inum < 3) : (smallDisk.fs.dinode inum).type = 0 := by
    have hblk : inodeBlockOf smallDisk.fs.sb inum = 32 := by
      rw [inodeBlockOf, IPB_eq]
      change 32 + inum / 16 = 32
      omega
    have hzero : smallDisk.fs.log.buf 32 = fun _ => 0#8 := rfl
    change loadW 16 (smallDisk.fs.log.buf (inodeBlockOf smallDisk.fs.sb inum)) _ = 0
    rw [hblk, hzero, loadW_zero]
  have hnone (y : ℕ × ℕ) (hy : y ∈ slotsOf smallDisk.fs.sb) :
      slotPtr smallDisk.fs smallDisk.fs.dinode y = none :=
    if_pos (.inl (hfree _ (mem_slotsOf_iff.1 hy).1))
  have hbits : ∀ b < 40, smallDisk.fs.bit b = decide (b < 34) := by decide +kernel
  have href (ip : ℕ) : ¬ 0 < (smallDisk.fs.itable ip).ref := lt_irrefl 0
  refine ⟨⟨fun b hb => hb.2, by decide, by decide⟩,
    ⟨⟨by decide, by decide⟩, fun b hb => absurd hb List.not_mem_nil⟩,
    ⟨⟨fun y hy b hb => ?_, fun b hb => ?_⟩, fun b hb => ?_, fun j hj ht => ?_, fun j hj ht => ?_⟩,
    fun _ _ _ => rfl, fun ip hr => absurd hr (href ip), fun ip hr => absurd hr (href ip),
    fun ip _ hr => absurd hr (href ip)⟩
  · rw [hnone y hy] at hb
    cases hb
  · have hlo : 34 ≤ b := hb.1
    have hhi : b < 40 := hb.2
    rw [tally_eq_zero fun y hy => by simp [hnone y hy], hbits b hhi]
    simp [hlo]
  · have hb : b < 34 := hb
    rw [hbits b (by omega)]
    simpa using hb
  · exact absurd (hfree j hj) ht
  · exact absurd (hfree j hj) ht

/-- A new file, locked. -/
def newFile : List BlockEvent := [.call .beginOp, .call (.ialloc 2), .call (.ilock 0)]

theorem newFile_runs : (Run.runs blockStep newFile smallDisk).isSome = true := by decide +kernel

def newFileState : Kernel := (Run.runs blockStep newFile smallDisk).get newFile_runs

theorem write_runs : (blockStep (.call (.writei 0 0 [7])) newFileState).isSome = true := by
  decide +kernel

/-- The first block of the file belongs to it after a write. -/
theorem blocks_have_one_owner_write :
    let t := (blockStep (.call (.writei 0 0 [7])) newFileState).get write_runs
    t.fs.bit 34 = true ∧ tally (slotsOf t.fs.sb) (slotPtr t.fs t.fs.dinode) 34 = 1 := by
  intro t
  have hnew : Run.Reach blockStep BlockEvent.Ok smallDisk newFileState :=
    Run.reach_of_runs (fun e he u => by fin_cases he <;> trivial)
      (Option.some_get newFile_runs).symm
  have hmine : newFileState.fs.Mine 0 := ⟨by decide +kernel, by decide +kernel, by decide +kernel⟩
  have hreach : Run.Reach blockStep BlockEvent.Ok smallDisk t :=
    hnew.tail (e := .call (.writei 0 0 [7])) ⟨hmine, by decide⟩ (Option.some_get write_runs).symm
  have hbit : t.fs.bit 34 = true := by decide +kernel
  have hdata : InData t.fs.sb 34 := ⟨by decide +kernel, by decide +kernel⟩
  exact ⟨hbit, ((blocks_have_one_owner smallDisk_blocksOk hreach).1 34 hdata).2.1 hbit⟩

end

end Xv6
