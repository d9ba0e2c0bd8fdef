import Xv6.Dir
import Xv6.Kalloc
import Xv6.LogCrash

/-!
# Making a file system (`mkfs/mkfs.c`), and mounting it

`mkfs` runs on the host and writes the image sector by sector; an image is its sectors and their
number.  The host's `int` and `uint` are numbers here: what is stored on disk is cut to its field,
and every counter stays below `MAXFILE * BSIZE`.  The program may stop by `die` (`exit(1)`) or at an
assertion; reading behind the end of the image is how it finds out that the disk is full.

A file of the host is what `open` and the calls of `read` deliver: chunks of bytes, of any size.

`fsinit` is the other side: the kernel at boot, which reads the superblock and recovers the log.
-/

namespace Xv6.Mkfs

open Bytes Wp

def NINODES : ℕ := 200
def FSSIZE : ℕ := 1000
def FSMAGIC : U32 := 0x10203040

def nbitmap : ℕ := FSSIZE / (BSIZE * 8) + 1
def ninodeblocks : ℕ := NINODES / IPB + 1
def nlog : ℕ := LOGSIZE

/-- Number of meta blocks: boot, superblock, log, inodes, bitmap. -/
def nmeta : ℕ := 2 + nlog + ninodeblocks + nbitmap

/-- Number of data blocks. -/
def nblocks : ℕ := FSSIZE - nmeta

/-- The image so far, and the counters of the program. -/
structure State where
  sect : ℕ → Block
  len : ℕ
  freeinode : ℕ
  freeblock : ℕ

/-- How `mkfs` stops without `exit(0)`. -/
inductive Exit
  | die (msg : List Byte)
  | assert
  deriving DecidableEq

abbrev M := Prog State Exit

/-- `assert(c)`. -/
def assert (c : Prop) [Decidable c] : M Unit := if c then pure () else throw .assert

/-- The text `read`. -/
def readMsg : List Byte := [114, 101, 97, 100]

def wsect (sec : ℕ) (buf : Block) : M Unit :=
  modify fun s => { s with sect := Function.update s.sect sec buf, len := max s.len (sec + 1) }

def rsect (sec : ℕ) : M Block := do
  let s ← get
  if sec < s.len then return s.sect sec
  throw (.die readMsg)

/-! ### Inodes -/

/-- `struct dinode`. -/
@[ext]
structure Din where
  type : U16
  major : U16
  minor : U16
  nlink : U16
  size : U32
  addrs : ℕ → U32

/-- The `struct dinode` at offset `o` of a block. -/
def Din.load (b : Block) (o : ℕ) : Din where
  type := loadW 16 b o
  major := loadW 16 b (o + 2)
  minor := loadW 16 b (o + 4)
  nlink := loadW 16 b (o + 6)
  size := loadW 32 b (o + 8)
  addrs n := if n ≤ NDIRECT then loadW 32 b (o + 12 + 4 * n) else 0

/-- The block with the `struct dinode` at offset `o`. -/
def Din.store (d : Din) (b : Block) (o : ℕ) : Block :=
  putAddrs d.addrs o (NDIRECT + 1)
    (storeW (storeW (storeW (storeW (storeW b o d.type) (o + 2) d.major)
    (o + 4) d.minor) (o + 6) d.nlink) (o + 8) d.size)

/-- `sb.inodestart` -/
def inodestart : ℕ := 2 + nlog

/-- `sb.bmapstart` -/
def bmapstart : ℕ := 2 + nlog + ninodeblocks

/-- `IBLOCK(inum, sb)` -/
def IBLOCK (inum : ℕ) : ℕ := inum / IPB + inodestart

def winode (inum : ℕ) (ip : Din) : M Unit := do
  let buf ← rsect (IBLOCK inum)
  wsect (IBLOCK inum) (ip.store buf (inum % IPB * 64))

def rinode (inum : ℕ) : M Din := do
  let buf ← rsect (IBLOCK inum)
  return Din.load buf (inum % IPB * 64)

def ialloc (type : U16) : M ℕ := do
  let inum := (← get).freeinode
  modify fun s => { s with freeinode := inum + 1 }
  winode inum ⟨type, 0, 0, 1, 0, fun _ => 0⟩
  return inum

/-! ### Contents -/

/-- `freeblock++` -/
def nextBlock : M ℕ := do
  let b := (← get).freeblock
  modify fun s => { s with freeblock := b + 1 }
  return b

/-- The part of `iappend` that makes sure there is an indirect block. -/
def withIndirect (din : Din) : M Din := do
  if din.addrs NDIRECT = 0 then
    let b ← nextBlock
    return { din with addrs := Function.update din.addrs NDIRECT (BitVec.ofNat 32 b) }
  return din

/-- The part of `iappend` that finds entry `n` of the indirect block in sector `ind`. -/
def entry (ind n : ℕ) : M ℕ := do
  let indirect ← rsect ind
  if loadW 32 indirect (4 * n) = (0 : U32) then
    let b ← nextBlock
    let indirect := storeW indirect (4 * n) (BitVec.ofNat 32 b)
    wsect ind indirect
    return (loadW 32 indirect (4 * n) : U32).toNat
  return (loadW 32 indirect (4 * n) : U32).toNat

/-- The part of `iappend` that finds the sector of block `fbn`, with the inode it leaves. -/
def sector (din : Din) (fbn : ℕ) : M (Din × ℕ) := do
  if fbn < NDIRECT then
    if din.addrs fbn = 0 then
      let b ← nextBlock
      let din := { din with addrs := Function.update din.addrs fbn (BitVec.ofNat 32 b) }
      return (din, (din.addrs fbn).toNat)
    return (din, (din.addrs fbn).toNat)
  else
    let din ← withIndirect din
    let x ← entry (din.addrs NDIRECT).toNat (fbn - NDIRECT)
    return (din, x)

/-- The loop of `iappend`, for the bytes `p` at `off`; every round writes at least one byte, so
`fuel ≥ p.length` rounds are enough. -/
def iappendFrom : ℕ → Din → ℕ → List Byte → M (Din × ℕ)
  | 0, din, off, _ => return (din, off)
  | fuel + 1, din, off, p => do
    if p = [] then return (din, off)
    let fbn := off / BSIZE
    assert (fbn < MAXFILE)
    let (din, x) ← sector din fbn
    let n1 := min p.length ((fbn + 1) * BSIZE - off)
    let buf ← rsect x
    wsect x (putBytes buf (off - fbn * BSIZE) (p.take n1))
    iappendFrom fuel din (off + n1) (p.drop n1)

def iappend (inum : ℕ) (p : List Byte) : M Unit := do
  let din ← rinode inum
  let (din, off) ← iappendFrom p.length din din.size.toNat p
  winode inum { din with size := BitVec.ofNat 32 off }

/-- `balloc(used)`: the bitmap with the first `used` blocks marked. -/
def balloc (used : ℕ) : M Unit := do
  assert (used < BSIZE * 8)
  wsect bmapstart ((List.range used).foldl
    (fun buf i => Function.update buf (i / 8) (buf (i / 8) ||| 1#8 <<< (i % 8))) fun _ => 0)

/-! ### `main` -/

/-- A file of the host: the path it is passed by, and what `open` and `read` deliver. -/
structure HostFile where
  path : List Byte
  reads : Option (List (List Byte))
  nonzero : ∀ b ∈ path, b ≠ 0

/-- The bytes of a file that can be opened. -/
def HostFile.bytes (f : HostFile) : List Byte := (f.reads.getD []).flatten

/-- The text `user/`. -/
def userDir : List Byte := [117, 115, 101, 114, 47]

/-- The path without `user/`. -/
def HostFile.shortname (f : HostFile) : List Byte :=
  if userDir.isPrefixOf f.path then f.path.drop 5 else f.path

/-- The name in the image: without a leading `_`. -/
def HostFile.name (f : HostFile) : List Byte :=
  if f.shortname.head? = some 95 then f.shortname.drop 1 else f.shortname

/-- The appends of one file's contents. -/
def appendAll (inum : ℕ) : List (List Byte) → M Unit
  | [] => return
  | p :: ps => do
    iappend inum p
    appendAll inum ps

/-- One round of the loop over the arguments. -/
def addFile (rootino : ℕ) (f : HostFile) : M Unit := do
  assert (slash ∉ f.shortname)
  match f.reads with
  | none => throw (.die f.path)
  | some chunks =>
    let inum ← ialloc T_FILE
    iappend rootino (direntBytes (BitVec.ofNat 16 inum) f.name)
    appendAll inum chunks

def addFiles (rootino : ℕ) : List HostFile → M Unit
  | [] => return
  | f :: fs => do
    addFile rootino f
    addFiles rootino fs

/-- The words of the superblock. -/
def superblock : List U32 :=
  [FSMAGIC, BitVec.ofNat 32 FSSIZE, BitVec.ofNat 32 nblocks, BitVec.ofNat 32 NINODES,
    BitVec.ofNat 32 nlog, 2, BitVec.ofNat 32 inodestart, BitVec.ofNat 32 bmapstart]

/-- The words `ws` at offset `o` of a block. -/
def putWords (o : ℕ) : List U32 → Block → Block
  | [], b => b
  | w :: ws, b => putWords (o + 4) ws (storeW b o w)

/-- The end of `main`: the size of the root directory is rounded up to the next block. -/
def fixRoot (rootino : ℕ) : M Unit := do
  let din ← rinode rootino
  let off := din.size.toNat
  winode rootino { din with size := BitVec.ofNat 32 ((off / BSIZE + 1) * BSIZE) }

/-- `mkfs fs.img files...` -/
def mkfs (files : List HostFile) : M Unit := do
  loop (fun i => wsect i fun _ => 0) 0 FSSIZE
  wsect 1 (putWords 0 superblock fun _ => 0)
  let rootino ← ialloc T_DIR
  assert (rootino = ROOTINO.toNat)
  iappend rootino (direntBytes (BitVec.ofNat 16 rootino) dot)
  iappend rootino (direntBytes (BitVec.ofNat 16 rootino) dotdot)
  addFiles rootino files
  fixRoot rootino
  balloc (← get).freeblock

/-- The image file, opened with `O_TRUNC`, and the initial counters. -/
def start : State := ⟨fun _ _ => 0, 0, 1, nmeta⟩

/-! ### Mounting -/

/-- `readsb`, from the block of the superblock. -/
def readsb (b : Block) : Superblock where
  size := loadW 32 b 4
  ninodes := loadW 32 b 12
  inodestart := loadW 32 b 24
  bmapstart := loadW 32 b 28

/-- `fsinit` on the disk `d`, with an empty inode table. -/
def fsinit (d : ℕ → Block) : Except Stop Fs :=
  if loadW 32 (d 1) 0 ≠ FSMAGIC then .error (.panic "invalid file system")
  else .ok {
    log := recoverFromLog (boot (loadW 32 (d 1) 20).toNat (loadW 32 (d 1) 16).toNat d)
    sb := readsb (d 1)
    itable := fun _ => ⟨0, 0, 0, false, false, 0, 0, 0, 0, 0, fun _ => 0⟩ }

end Xv6.Mkfs
