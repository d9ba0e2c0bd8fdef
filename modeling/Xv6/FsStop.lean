import Xv6.Fs

/-!
# How file-system code stops

The virtual-memory code calls the file system in the middle of its work.  What matters to it is
that such a call, if it does not return, stops in one of the ways listed in `FsStop`: none of them
is a panic of the allocator, of the page-table code or of `kernel/uvm.c`.
-/

namespace Xv6

open Wp

/-! ### What the code for blocks keeps -/

section

variable {E : Stop → Prop} {R : Fs → Fs → Prop} [Std.Refl R] [IsTrans Fs R]

theorem keeps_bread (b : U32) : Keeps E R (bread b) := .bind .get fun _ => .pure _

theorem keeps_getInode (ip : ℕ) : Keeps E R (getInode ip) := .bind .get fun _ => .pure _

theorem keeps_balloc (hlog : ∀ b data, Keeps E R (fsLogWrite b data))
    (hfull : E (.panic "balloc: out of blocks")) : Keeps E R balloc := by
  refine .bind .get fun s => ?_
  dsimp only
  split
  · exact .throw hfull
  · exact .bind (keeps_bread _) fun _ => .bind (hlog _ _) fun _ => .bind (hlog _ _) fun _ => .pure _

/-- `bmap` logs blocks and sets addresses. -/
theorem keeps_bmap {ip : ℕ} (hlog : ∀ b data, Keeps E R (fsLogWrite b data))
    (hset : ∀ n addr, Keeps E R
      (setInode ip fun i => { i with addrs := Function.update i.addrs n addr }))
    (hfull : E (.panic "balloc: out of blocks")) (hbig : E (.panic "bmap: out of range")) (bn : ℕ) :
    Keeps E R (bmap ip bn) := by
  have hballoc := keeps_balloc hlog hfull
  have halloc (n : ℕ) : Keeps E R (do
      let addr ← balloc
      setInode ip fun i => { i with addrs := Function.update i.addrs n addr }
      return addr : F U32) :=
    .bind hballoc fun _ => .bind (hset _ _) fun _ => .pure _
  refine .bind (keeps_getInode ip) fun i => .ite (.ite (.pure _) (halloc bn)) ?_
  refine .bind (keeps_panicIf hbig) fun _ => .bind (.ite (.pure _) (halloc NDIRECT)) fun _ => ?_
  exact .bind (keeps_bread _) fun _ => .ite (.pure _) (.bind hballoc fun _ =>
    .bind (keeps_bread _) fun _ => .bind (hlog _ _) fun _ => .pure _)

theorem keeps_readiFrom {ip : ℕ} (hbmap : ∀ bn, Keeps E R (bmap ip bn)) (fuel off n : ℕ) :
    Keeps E R (readiFrom ip fuel off n) := by
  induction fuel generalizing off n with
  | zero => exact .pure []
  | succ fuel ih =>
    exact .ite (.pure _) (.bind (hbmap _) fun _ => .bind (keeps_bread _) fun _ =>
      .bind (ih _ _) fun _ => .pure _)

theorem keeps_readi {ip : ℕ} (hbmap : ∀ bn, Keeps E R (bmap ip bn)) (off n : U32) :
    Keeps E R (readi ip off n) :=
  .bind (keeps_getInode ip) fun _ => .ite (.pure _) (keeps_readiFrom hbmap _ _ _)

theorem keeps_writeiFrom {ip : ℕ} (hlog : ∀ b data, Keeps E R (fsLogWrite b data))
    (hbmap : ∀ bn, Keeps E R (bmap ip bn)) (fuel off : ℕ) (bs : List Bytes.Byte) :
    Keeps E R (writeiFrom ip fuel off bs) := by
  induction fuel generalizing off bs with
  | zero => exact .pure ()
  | succ fuel ih =>
    exact .ite (.pure _) (.bind (hbmap _) fun _ => .bind (keeps_bread _) fun _ =>
      .bind (hlog _ _) fun _ => ih _ _)

theorem keeps_iupdate (hlog : ∀ b data, Keeps E R (fsLogWrite b data)) (ip : ℕ) :
    Keeps E R (iupdate ip) :=
  .bind .get fun _ => .bind (keeps_getInode ip) fun _ => .bind (keeps_bread _) fun _ => hlog _ _

end

/-! ### Stops -/

/-- The panics of `kernel/fs.c` and `kernel/log.c`. -/
def fsPanics : List String :=
  ["too big a transaction", "log_write outside of trans", "log.committing",
    "balloc: out of blocks", "freeing free block", "iget: no inodes", "ilock", "ilock: no type",
    "iunlock", "bmap: out of range", "dirlookup not DIR", "dirlookup read"]

/-- The ways in which file-system code stops. -/
def FsStop : Stop → Prop
  | .panic msg => msg ∈ fsPanics
  | .fault => True
  | .sleep => True
  | .diverge => False

/-- Code that stops only in these ways. -/
abbrev FsOnly {α : Type} (m : F α) : Prop := Keeps FsStop (fun _ _ => True) m

theorem FsOnly.panicIf {c : Prop} [Decidable c] {msg : String} (h : msg ∈ fsPanics) :
    FsOnly (Xv6.panicIf c msg : F Unit) := keeps_panicIf h

theorem fsOnly_fsLogWrite (b : U32) (data : Block) : FsOnly (fsLogWrite b data) := by
  refine .bind .get fun s => .bind (FsOnly.panicIf (by decide)) fun _ => ?_
  split
  · exact .set fun _ => trivial
  · exact .throw (by decide : _ ∈ fsPanics)

theorem fsOnly_fsBeginOp : FsOnly fsBeginOp := by
  refine .bind .get fun s => ?_
  split
  · exact .set fun _ => trivial
  · exact .throw trivial

theorem fsOnly_fsEndOp : FsOnly fsEndOp := by
  refine .bind .get fun s => ?_
  split
  · exact .set fun _ => trivial
  · exact .throw (by decide : _ ∈ fsPanics)

theorem fsOnly_bfree (b : U32) : FsOnly (bfree b) :=
  .bind .get fun _ => .bind (keeps_bread _) fun _ => .bind (FsOnly.panicIf (by decide)) fun _ =>
    fsOnly_fsLogWrite _ _

theorem fsOnly_setInode (ip : ℕ) (f : Inode → Inode) : FsOnly (setInode ip f) :=
  ⟨fun _ => (wp_modify _).2 trivial⟩

theorem fsOnly_iupdate (ip : ℕ) : FsOnly (iupdate ip) := keeps_iupdate fsOnly_fsLogWrite ip

theorem fsOnly_acquireInode (ip : ℕ) : FsOnly (acquireInode ip) :=
  .bind (keeps_getInode ip) fun _ => .ite (.bind (.throw trivial) fun _ => fsOnly_setInode _ _)
    (fsOnly_setInode _ _)

theorem fsOnly_ilock (ip : ℕ) : FsOnly (ilock ip) :=
  .bind (keeps_getInode ip) fun _ => .bind (FsOnly.panicIf (by decide)) fun _ =>
    .bind (fsOnly_acquireInode ip) fun _ => .ite
      (.bind .get fun _ => .bind (keeps_bread _) fun _ => .bind (fsOnly_setInode _ _) fun _ =>
        FsOnly.panicIf (by decide))
      (.pure _)

theorem fsOnly_iunlock (ip : ℕ) : FsOnly (iunlock ip) :=
  .bind (keeps_getInode ip) fun _ => .bind (FsOnly.panicIf (by decide)) fun _ => fsOnly_setInode _ _

theorem fsOnly_bfreeAll (bs : List U32) : FsOnly (bfreeAll bs) := by
  induction bs with
  | nil => exact .pure ()
  | cons b bs ih => exact .ite (.bind (fsOnly_bfree b) fun _ => ih) ih

theorem fsOnly_itrunc (ip : ℕ) : FsOnly (itrunc ip) := by
  have hend : FsOnly (do setInode ip (fun i => { i with size := 0 }); iupdate ip) :=
    .bind (fsOnly_setInode _ _) fun _ => fsOnly_iupdate ip
  refine .bind (keeps_getInode ip) fun i => .bind (fsOnly_bfreeAll _) fun _ =>
    .bind (fsOnly_setInode _ _) fun _ => .ite ?_ ?_
  · exact .bind (keeps_bread _) fun _ => .bind (fsOnly_bfreeAll _) fun _ =>
      .bind (fsOnly_bfree _) fun _ => .bind (fsOnly_setInode _ _) fun _ => hend
  · exact hend

theorem fsOnly_iput (ip : ℕ) : FsOnly (iput ip) := by
  refine .bind (keeps_getInode ip) fun i => .ite ?_ ?_
  · exact .bind (fsOnly_acquireInode ip) fun _ => .bind (fsOnly_itrunc ip) fun _ =>
      .bind (fsOnly_setInode _ _) fun _ => .bind (fsOnly_iupdate ip) fun _ =>
        .bind (fsOnly_setInode _ _) fun _ => fsOnly_setInode _ _
  · exact fsOnly_setInode _ _

theorem fsOnly_bmap (ip bn : ℕ) : FsOnly (bmap ip bn) :=
  keeps_bmap fsOnly_fsLogWrite (fun _ _ => fsOnly_setInode _ _) (by decide : _ ∈ fsPanics)
    (by decide : _ ∈ fsPanics) bn

theorem fsOnly_readi (ip : ℕ) (off n : U32) : FsOnly (readi ip off n) :=
  keeps_readi (fsOnly_bmap ip) off n

theorem fsOnly_writei (ip : ℕ) (off : U32) (bs : List Bytes.Byte) : FsOnly (writei ip off bs) :=
  .bind (keeps_getInode ip) fun _ => .ite (.pure _) (.ite (.pure _)
    (.bind (keeps_writeiFrom fsOnly_fsLogWrite (fsOnly_bmap ip) _ _ _) fun _ =>
      .bind (fsOnly_setInode _ _) fun _ =>
      .bind (fsOnly_iupdate ip) fun _ => .pure _))

/-- Code that calls the file system tolerates its stops. -/
theorem FsOnly.wp {α : Type} {m : F α} (h : FsOnly m) {E : Stop → Prop} (hE : ∀ e, FsStop e → E e)
    (s : Fs) : wp m E (fun _ _ => True) s := (h.weaken hE).start s

end Xv6
