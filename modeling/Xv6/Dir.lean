import Xv6.Fs

/-!
# Names (`kernel/fs.c`, `kernel/sysfile.c`)

Allocation of inodes, directory entries, and the file-system part of the system calls that make and
remove names: `create`, `link` and `unlink`.  A path is a byte string without zero bytes, given
with the current directory of the process that passes it.
-/

namespace Xv6

open Bytes Wp

def T_FILE : U16 := 2

/-- `ialloc`: the first inode that is free on disk, marked as allocated. -/
def ialloc (dev : U32) (type : U16) : F ℕ := do
  let s ← get
  let isFree (inum : ℕ) : Bool :=
    let (blk, o) := iblock s.sb (BitVec.ofNat 32 inum)
    loadW 16 (s.log.bread blk.toNat) o = (0 : U16)
  match ((List.range s.sb.ninodes.toNat).drop 1).find? isFree with
  | none => throw (.panic "ialloc: no inodes")
  | some inum =>
    let (blk, o) := iblock s.sb (BitVec.ofNat 32 inum)
    let bp ← bread blk
    let zeroed : Block := fun x => if o ≤ x ∧ x < o + 64 then 0 else bp x
    fsLogWrite blk (storeW zeroed o type)
    iget dev (BitVec.ofNat 32 inum)

/-! ### Directory entries -/

/-- The loop of `dirlookup` from offset `off` on, with the offset of the entry. -/
def dirlookupOffFrom (dp : ℕ) (name : List Byte) : ℕ → U32 → F (Option (ℕ × U32))
  | 0, _ => return none
  | fuel + 1, off => do
    let d ← getInode dp
    if d.size ≤ off then return none
    let de ← readi dp off 16
    panicIf (de.length ≠ 16) "dirlookup read"
    let inum : U16 := loadW 16 (fun i => de.getD i 0) 0
    if inum ≠ 0 ∧ namecmp name (de.drop 2) then
      return some (← iget d.dev (inum.setWidth 32), off)
    dirlookupOffFrom dp name fuel (off + 16)

/-- `dirlookup` with `poff`. -/
def dirlookupOff (dp : ℕ) (name : List Byte) : F (Option (ℕ × U32)) := do
  let d ← getInode dp
  panicIf (d.type ≠ T_DIR) "dirlookup not DIR"
  dirlookupOffFrom dp name (d.size.toNat / 16 + 1) 0

/-- The loop of `dirlink`: the offset of the first empty entry, or the end. -/
def dirlinkSlot (dp : ℕ) : ℕ → U32 → F U32
  | 0, off => return off
  | fuel + 1, off => do
    let d ← getInode dp
    if d.size ≤ off then return off
    let de ← readi dp off 16
    panicIf (de.length ≠ 16) "dirlink read"
    let inum : U16 := loadW 16 (fun i => de.getD i 0) 0
    if inum = 0 then return off
    dirlinkSlot dp fuel (off + 16)

/-- The bytes of a `struct dirent`. -/
def direntBytes (inum : U16) (name : List Byte) : List Byte :=
  inum.setWidth 8 :: (inum >>> 8).setWidth 8 ::
    (name.take DIRSIZ ++ List.replicate (DIRSIZ - name.length) 0)

/-- `strncpy`: the field of `n` bytes that it leaves. -/
def strncpy (t : List Byte) : ℕ → List Byte
  | 0 => []
  | n + 1 =>
    let c := t.headD 0
    c :: (if c ≠ 0 then strncpy t.tail n else List.replicate n 0)

/-- A name that is copied is cut, or padded with zeros. -/
theorem strncpy_eq {t : List Byte} (h : ∀ b ∈ t, b ≠ 0) (n : ℕ) :
    strncpy t n = t.take n ++ List.replicate (n - t.length) 0 := by
  induction n generalizing t with
  | zero => simp [strncpy]
  | succ n ih =>
    cases t with
    | nil => simp [strncpy, List.replicate_succ]
    | cons b t =>
      have hb : b ≠ 0 := h b (by simp)
      have ht := ih fun c hc => h c (List.mem_cons_of_mem _ hc)
      rw [strncpy, List.headD_cons, if_pos hb, List.tail_cons, ht, List.take_succ_cons,
        List.length_cons, Nat.succ_sub_succ, List.cons_append]

/-- The field is the same string. -/
theorem cstr_strncpy (t : List Byte) (n : ℕ) : cstr n (strncpy t n) = cstr n t := by
  induction n generalizing t with
  | zero => rfl
  | succ n ih =>
    rw [cstr_succ, cstr_succ, strncpy, List.headD_cons, List.tail_cons]
    by_cases hc : t.headD 0 = 0
    · rw [if_pos hc, if_pos hc]
    · rw [if_neg hc, if_neg hc, if_pos hc, ih]

/-- The name field of an entry is what `strncpy` leaves. -/
theorem direntBytes_drop (inum : U16) {name : List Byte} (h : ∀ b ∈ name, b ≠ 0) :
    (direntBytes inum name).drop 2 = strncpy name DIRSIZ :=
  (strncpy_eq h DIRSIZ).symm

/-- The name field of an entry holds the name, cut to `DIRSIZ` bytes. -/
theorem direntBytes_name (inum : U16) {name : List Byte} (h : ∀ b ∈ name, b ≠ 0) :
    cstr DIRSIZ ((direntBytes inum name).drop 2) = name.take DIRSIZ := by
  rw [direntBytes_drop inum h, cstr_strncpy, cstr_of_nonzero h]

theorem length_direntBytes (inum : U16) (name : List Byte) :
    (direntBytes inum name).length = 16 := by
  have : DIRSIZ = 14 := rfl
  simp only [direntBytes, List.length_cons, List.length_append, List.length_take,
    List.length_replicate]
  omega

theorem loadW_direntBytes (inum : U16) (name : List Byte) :
    loadW 16 (fun i => (direntBytes inum name).getD i 0) 0 = inum := by
  have hlt := inum.isLt
  refine BitVec.eq_of_toNat_eq ?_
  simp only [loadW, loadLE, direntBytes, List.getD_cons_zero, List.getD_cons_succ,
    BitVec.toNat_ofNat, BitVec.toNat_setWidth, BitVec.toNat_ushiftRight, Nat.shiftRight_eq_div_pow]
  omega

/-- `dirlink`: `false` is -1. -/
def dirlink (dp : ℕ) (name : List Byte) (inum : U32) : F Bool := do
  match ← dirlookup dp name with
  | some ip =>
    iput ip
    return false
  | none =>
    let d ← getInode dp
    let off ← dirlinkSlot dp (d.size.toNat / 16 + 1) 0
    let n ← writei dp off (direntBytes (inum.setWidth 16) name)
    panicIf (n ≠ 16) "dirlink"
    return true

/-! ### Parents -/

/-- The loop of `namex` with `nameiparent`: the directory, unlocked, and the last element. -/
def nameiparentFrom : ℕ → ℕ → List Byte → F (Option (ℕ × List Byte))
  | 0, ip, _ => do
    iput ip
    return none
  | fuel + 1, ip, path => do
    match skipelem path with
    | none =>
      iput ip
      return none
    | some (name, path) =>
      ilock ip
      let i ← getInode ip
      if i.type ≠ T_DIR then
        iunlockput ip
        return none
      if path = [] then
        iunlock ip
        return some (ip, name)
      match ← dirlookup ip name with
      | none =>
        iunlockput ip
        return none
      | some next =>
        iunlockput ip
        nameiparentFrom fuel next path

/-- `nameiparent`, for a process whose current directory is `cwd`. -/
def nameiparent (cwd : Option ℕ) (path : List Byte) : F (Option (ℕ × List Byte)) := do
  let ip ← nameiStart cwd path
  nameiparentFrom (path.length + 1) ip path

/-! ### New names -/

def dot : List Byte := [46]
def dotdot : List Byte := [46, 46]

end Xv6
