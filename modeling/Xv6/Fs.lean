import Xv6.Log
import Xv6.Riscv
import Mathlib.Data.List.TakeWhile

/-!
# Inodes, directories and paths (`kernel/fs.c`)

The file system over the log of `Xv6.Log`: the block bitmap, the inode table with its reference
counts, file contents through `bmap`, directories and path lookup.  A `struct inode *` is an index
into the inode table.  There is one device, so blocks are known by their number alone; every inode
is locked by the thread that uses it, and locking a locked inode means to sleep.

`readi` and `writei` are modelled for kernel addresses (`user_dst = 0`, `user_src = 0`): `readi`
returns the bytes it copies out, `writei` takes the bytes it copies in.
-/

namespace Xv6

open Bytes Wp

abbrev U16 := BitVec 16

def ROOTDEV : U32 := 1
def ROOTINO : U32 := 1
def NDIRECT : ℕ := 12
def NINDIRECT : ℕ := 256
def MAXFILE : ℕ := NDIRECT + NINDIRECT
def DIRSIZ : ℕ := 14
def T_DIR : U16 := 1

/-- Inodes per block. -/
def IPB : ℕ := 16

/-- Bitmap bits per block. -/
def BPB : ℕ := BSIZE * 8

/-- The part of `struct superblock` that `fs.c` reads. -/
structure Superblock where
  size : U32
  ninodes : U32
  inodestart : U32
  bmapstart : U32

/-- `struct inode`. -/
structure Inode where
  dev : U32
  inum : U32
  ref : ℤ
  locked : Bool
  valid : Bool
  type : U16
  major : U16
  minor : U16
  nlink : U16
  size : U32
  addrs : ℕ → U32

/-- The state of the file system. -/
structure Fs where
  log : LogState
  sb : Superblock
  itable : ℕ → Inode

/-- Code that works on the file system. -/
abbrev F := Prog Fs Stop

/-! ### Buffers and the log -/

def bread (b : U32) : F Block := do
  return (← get).log.bread b.toNat

/-- `log_write` of block `b`, whose buffer now holds `data`. -/
def fsLogWrite (b : U32) (data : Block) : F Unit := do
  let s ← get
  panicIf (LOGSIZE ≤ s.log.log.lh.length ∨ s.log.log.size ≤ s.log.log.lh.length + 1)
    "too big a transaction"
  match logWrite s.log b.toNat data with
  | some l => set { s with log := l }
  | none => throw (.panic "log_write outside of trans")

def fsBeginOp : F Unit := do
  let s ← get
  match beginOp s.log with
  | some l => set { s with log := l }
  | none => throw .sleep

def fsEndOp : F Unit := do
  let s ← get
  match endOp s.log with
  | some l => set { s with log := l }
  | none => throw (.panic "log.committing")

/-! ### Blocks -/

/-- The bitmap block, the byte in it and the mask of block `b`. -/
def bitOf (sb : Superblock) (b : ℕ) : U32 × ℕ × Byte :=
  (BitVec.ofNat 32 (b / BPB) + sb.bmapstart, b % BPB / 8, 1#8 <<< (b % 8))

def bzero (b : U32) : F Unit := do
  fsLogWrite b fun _ => 0

/-- `balloc`: the first block whose bit is clear, zeroed. -/
def balloc : F U32 := do
  let s ← get
  let isFree (b : ℕ) : Bool :=
    let (blk, i, m) := bitOf s.sb b
    s.log.bread blk.toNat i &&& m = 0
  match (List.range s.sb.size.toNat).find? isFree with
  | none => throw (.panic "balloc: out of blocks")
  | some b =>
    let (blk, i, m) := bitOf s.sb b
    let bp ← bread blk
    fsLogWrite blk (Function.update bp i (bp i ||| m))
    bzero (BitVec.ofNat 32 b)
    return BitVec.ofNat 32 b

def bfree (b : U32) : F Unit := do
  let s ← get
  let (blk, i, m) := bitOf s.sb b.toNat
  let bp ← bread blk
  panicIf (bp i &&& m = 0) "freeing free block"
  fsLogWrite blk (Function.update bp i (bp i &&& ~~~m))

/-! ### Inodes -/

def getInode (ip : ℕ) : F Inode := do
  return (← get).itable ip

def setInode (ip : ℕ) (f : Inode → Inode) : F Unit :=
  modify fun s => { s with itable := Function.update s.itable ip (f (s.itable ip)) }

/-- The block of an on-disk inode and its place in the block. -/
def iblock (sb : Superblock) (inum : U32) : U32 × ℕ :=
  (BitVec.ofNat 32 (inum.toNat / IPB) + sb.inodestart, inum.toNat % IPB * 64)

/-- Store the fields `addrs[i], …, addrs[NDIRECT]` of a `struct dinode`. -/
def putAddrs (addrs : ℕ → U32) (o : ℕ) : ℕ → Block → Block
  | 0, b => b
  | n + 1, b => putAddrs addrs o n (storeW b (o + 12 + 4 * n) (addrs n))

/-- `iupdate`: copy a modified in-memory inode to disk. -/
def iupdate (ip : ℕ) : F Unit := do
  let s ← get
  let i ← getInode ip
  let (blk, o) := iblock s.sb i.inum
  let bp ← bread blk
  let bp := storeW bp o i.type
  let bp := storeW bp (o + 2) i.major
  let bp := storeW bp (o + 4) i.minor
  let bp := storeW bp (o + 6) i.nlink
  let bp := storeW bp (o + 8) i.size
  fsLogWrite blk (putAddrs i.addrs o (NDIRECT + 1) bp)

/-- `iget`: the table entry of an inode, with one more reference. -/
def iget (dev inum : U32) : F ℕ := do
  let s ← get
  let known (i : ℕ) : Bool := 0 < (s.itable i).ref ∧ (s.itable i).dev = dev ∧
    (s.itable i).inum = inum
  match (List.range NINODE).find? known with
  | some ip =>
    setInode ip fun i => { i with ref := i.ref + 1 }
    return ip
  | none =>
    match (List.range NINODE).find? fun i => (s.itable i).ref = 0 with
    | none => throw (.panic "iget: no inodes")
    | some ip =>
      setInode ip fun i => { i with dev := dev, inum := inum, ref := 1, valid := false }
      return ip

def idup (ip : ℕ) : F Unit :=
  setInode ip fun i => { i with ref := i.ref + 1 }

/-- `acquiresleep(&ip->lock)`. -/
def acquireInode (ip : ℕ) : F Unit := do
  let i ← getInode ip
  if i.locked then throw .sleep
  setInode ip fun i => { i with locked := true }

/-- `ilock`: lock the inode, and read it from disk if necessary. -/
def ilock (ip : ℕ) : F Unit := do
  let i ← getInode ip
  panicIf (i.ref < 1) "ilock"
  acquireInode ip
  if !i.valid then
    let s ← get
    let (blk, o) := iblock s.sb i.inum
    let bp ← bread blk
    setInode ip fun i => { i with
      type := loadW 16 bp o
      major := loadW 16 bp (o + 2)
      minor := loadW 16 bp (o + 4)
      nlink := loadW 16 bp (o + 6)
      size := loadW 32 bp (o + 8)
      addrs := fun n => loadW 32 bp (o + 12 + 4 * n)
      valid := true }
    panicIf (loadW 16 bp o = 0) "ilock: no type"

def iunlock (ip : ℕ) : F Unit := do
  let i ← getInode ip
  panicIf (!i.locked ∨ i.ref < 1) "iunlock"
  setInode ip fun i => { i with locked := false }

/-- The loops of `itrunc` over block addresses. -/
def bfreeAll : List U32 → F Unit
  | [] => return
  | b :: bs => do
    if b ≠ 0 then bfree b
    bfreeAll bs

/-- `itrunc`: discard the contents of an inode. -/
def itrunc (ip : ℕ) : F Unit := do
  let i ← getInode ip
  bfreeAll ((List.range NDIRECT).map i.addrs)
  setInode ip fun i => { i with addrs := fun n => if n < NDIRECT then 0 else i.addrs n }
  if i.addrs NDIRECT ≠ 0 then
    let bp ← bread (i.addrs NDIRECT)
    bfreeAll ((List.range NINDIRECT).map fun j => loadW 32 bp (4 * j))
    bfree (i.addrs NDIRECT)
    setInode ip fun i => { i with addrs := Function.update i.addrs NDIRECT 0 }
  setInode ip fun i => { i with size := 0 }
  iupdate ip

/-- `iput`: drop a reference; the last one frees an inode without links. -/
def iput (ip : ℕ) : F Unit := do
  let i ← getInode ip
  if i.ref = 1 ∧ i.valid ∧ i.nlink = 0 then
    acquireInode ip
    itrunc ip
    setInode ip fun i => { i with type := 0 }
    iupdate ip
    setInode ip fun i => { i with valid := false, locked := false }
  setInode ip fun i => { i with ref := i.ref - 1 }

def iunlockput (ip : ℕ) : F Unit := do
  iunlock ip
  iput ip

/-! ### Contents -/

/-- `bmap`: the address of block `bn` of an inode, allocated if there is none. -/
def bmap (ip bn : ℕ) : F U32 := do
  let i ← getInode ip
  if bn < NDIRECT then
    if i.addrs bn ≠ 0 then return i.addrs bn
    let addr ← balloc
    setInode ip fun i => { i with addrs := Function.update i.addrs bn addr }
    return addr
  let bn := bn - NDIRECT
  panicIf (NINDIRECT ≤ bn) "bmap: out of range"
  let addr ← (do
    if i.addrs NDIRECT ≠ 0 then return i.addrs NDIRECT
    let addr ← balloc
    setInode ip fun i => { i with addrs := Function.update i.addrs NDIRECT addr }
    return addr : F U32)
  let bp ← bread addr
  if loadW 32 bp (4 * bn) ≠ 0 then return loadW 32 bp (4 * bn)
  let b ← balloc
  let bp ← bread addr
  fsLogWrite addr (storeW bp (4 * bn) b)
  return b

/-- The loop of `readi`, for `n` more bytes at `off`; every round copies at least one byte, so
`fuel ≥ n` rounds are enough. -/
def readiFrom (ip : ℕ) : ℕ → ℕ → ℕ → F (List Byte)
  | 0, _, _ => return []
  | fuel + 1, off, n => do
    if n = 0 then return []
    let bp ← bread (← bmap ip (off / BSIZE))
    let m := min n (BSIZE - off % BSIZE)
    let rest ← readiFrom ip fuel (off + m) (n - m)
    return (List.range m).map (fun i => bp (off % BSIZE + i)) ++ rest

/-- `readi` to a kernel address: the bytes read, as many as the return value says. -/
def readi (ip : ℕ) (off n : U32) : F (List Byte) := do
  let i ← getInode ip
  if i.size < off ∨ off + n < off then return []
  let n := if i.size < off + n then i.size - off else n
  readiFrom ip n.toNat off.toNat n.toNat

/-- The loop of `writei` for the bytes `bs` at `off`. -/
def writeiFrom (ip : ℕ) : ℕ → ℕ → List Byte → F Unit
  | 0, _, _ => return
  | fuel + 1, off, bs => do
    if bs = [] then return
    let b ← bmap ip (off / BSIZE)
    let bp ← bread b
    let m := min bs.length (BSIZE - off % BSIZE)
    fsLogWrite b fun x =>
      if off % BSIZE ≤ x ∧ x < off % BSIZE + m then bs.getD (x - off % BSIZE) 0 else bp x
    writeiFrom ip fuel (off + m) (bs.drop m)

/-- `writei` from a kernel address that holds the bytes `bs`: the number of bytes written, or
-1. -/
def writei (ip : ℕ) (off : U32) (bs : List Byte) : F ℤ := do
  let i ← getInode ip
  let n : U32 := BitVec.ofNat 32 bs.length
  if i.size < off ∨ off + n < off then return -1
  if MAXFILE * BSIZE < (off + n).toNat then return -1
  writeiFrom ip bs.length off.toNat bs
  setInode ip fun i => { i with size := if i.size < off + n then off + n else i.size }
  iupdate ip
  return n.toInt

/-! ### Directories and paths -/

/-- `strncmp` (`kernel/string.c`); a string that is given as the list of its bytes ends with a
zero. -/
def strncmp : List Byte → List Byte → ℕ → ℤ
  | _, _, 0 => 0
  | p, q, n + 1 =>
    if p.headD 0 ≠ 0 ∧ p.headD 0 = q.headD 0 then strncmp p.tail q.tail n
    else (p.headD 0).toNat - (q.headD 0).toNat

/-- `namecmp(name, field) == 0`, for a name and the name field of a directory entry. -/
def namecmp (name : List Byte) (field : List Byte) : Bool := strncmp name field DIRSIZ = 0

/-- The string in at most `n` bytes. -/
def cstr (n : ℕ) (p : List Byte) : List Byte := (p.take n).takeWhile (· ≠ 0)

theorem cstr_succ (n : ℕ) (p : List Byte) :
    cstr (n + 1) p = if p.headD 0 = 0 then [] else p.headD 0 :: cstr n p.tail := by
  cases p with
  | nil => rfl
  | cons b p =>
    rw [cstr, List.take_succ_cons, List.takeWhile_cons, List.headD_cons, List.tail_cons, cstr]
    by_cases hb : b = 0
    · rw [if_pos hb, if_neg (by simpa using hb)]
    · rw [if_neg hb, if_pos (by simpa using hb)]

/-- A string without zeros, cut to `n` bytes. -/
theorem cstr_of_nonzero {n : ℕ} {p : List Byte} (h : ∀ b ∈ p, b ≠ 0) : cstr n p = p.take n :=
  List.takeWhile_eq_self_iff.2 fun b hb => by simpa using h b (List.mem_of_mem_take hb)

theorem strncmp_eq_zero {p q : List Byte} {n : ℕ} : strncmp p q n = 0 ↔ cstr n p = cstr n q := by
  induction n generalizing p q with
  | zero => simp [strncmp, cstr]
  | succ n ih =>
    rw [strncmp, cstr_succ, cstr_succ]
    generalize p.headD 0 = a, q.headD 0 = b
    have hdiff : (a.toNat : ℤ) - b.toNat = 0 ↔ a = b := by
      rw [BitVec.toNat_eq]
      omega
    by_cases ha : a = 0
    · rw [if_neg fun h => h.1 ha, hdiff, if_pos ha, ha]
      split_ifs with hb
      · exact iff_of_true hb.symm rfl
      · exact iff_of_false (Ne.symm hb) (by simp)
    · rw [if_neg ha]
      by_cases hab : a = b
      · rw [if_pos ⟨ha, hab⟩, if_neg (hab ▸ ha), hab, ih, List.cons_inj_right]
      · rw [if_neg fun h => hab h.2, hdiff]
        refine iff_of_false hab ?_
        split_ifs with hb
        · simp
        · exact fun h => hab (List.cons.inj h).1

theorem namecmp_iff {name field : List Byte} :
    namecmp name field = true ↔ cstr DIRSIZ name = cstr DIRSIZ field := by
  rw [namecmp, decide_eq_true_iff, strncmp_eq_zero]

/-- The loop of `dirlookup` from offset `off` on. -/
def dirlookupFrom (dp : ℕ) (name : List Byte) : ℕ → U32 → F (Option ℕ)
  | 0, _ => return none
  | fuel + 1, off => do
    let d ← getInode dp
    if d.size ≤ off then return none
    let de ← readi dp off 16
    panicIf (de.length ≠ 16) "dirlookup read"
    let inum : U16 := loadW 16 (fun i => de.getD i 0) 0
    if inum ≠ 0 ∧ namecmp name (de.drop 2) then
      return some (← iget d.dev (inum.setWidth 32))
    dirlookupFrom dp name fuel (off + 16)

/-- `dirlookup`: the inode of an entry, if there is one. -/
def dirlookup (dp : ℕ) (name : List Byte) : F (Option ℕ) := do
  let d ← getInode dp
  panicIf (d.type ≠ T_DIR) "dirlookup not DIR"
  dirlookupFrom dp name (d.size.toNat / 16 + 1) 0

def slash : Byte := 47

/-- `skipelem`: the next path element, cut to `DIRSIZ`, and the path after it. -/
def skipelem (path : List Byte) : Option (List Byte × List Byte) :=
  match path.dropWhile (· = slash) with
  | [] => none
  | path =>
    some ((path.takeWhile (· ≠ slash)).take DIRSIZ,
      (path.dropWhile (· ≠ slash)).dropWhile (· = slash))

/-- The loop of `namex`, without `nameiparent`; every round makes the path shorter. -/
def namexFrom : ℕ → ℕ → List Byte → F (Option ℕ)
  | 0, ip, _ => return some ip
  | fuel + 1, ip, path => do
    match skipelem path with
    | none => return some ip
    | some (name, path) =>
      ilock ip
      let i ← getInode ip
      if i.type ≠ T_DIR then
        iunlockput ip
        return none
      match ← dirlookup ip name with
      | none =>
        iunlockput ip
        return none
      | some next =>
        iunlockput ip
        namexFrom fuel next path

/-- The directory a path starts in, for a process whose current directory is `cwd`. -/
def nameiStart (cwd : Option ℕ) (path : List Byte) : F ℕ := do
  if path.head? = some slash then iget ROOTDEV ROOTINO
  else
    match cwd with
    | none => throw .fault
    | some cwd =>
      idup cwd
      return cwd

/-- `namei`, for a process whose current directory is `cwd`. -/
def namei (cwd : Option ℕ) (path : List Byte) : F (Option ℕ) := do
  let ip ← nameiStart cwd path
  namexFrom (path.length + 1) ip path

end Xv6
