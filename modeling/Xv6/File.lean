import Xv6.Proc
import Xv6.Sched

/-!
# Files, and what their users pass in (`kernel/file.c`, `kernel/pipe.c`, `kernel/console.c`)

Reading and writing through a `struct file`, for a process that passes user addresses: the user
side of `readi` and `writei`, pipes, the console, `fstat`, and the pre-faulting of `sys_write`.  A
read or write that waits for the other side of a pipe or for input returns what it has done so far;
a sleep inside a copy to or from user memory stops the program.

The locks of pipes and of the console are held from the start of `piperead`, `pipewrite` and
`consoleread` to their end.  What a device does with its output is left out.
-/

namespace Xv6

open Bytes Wp

def PIPESIZE : ℕ := 512
def INPUT_BUF : ℕ := 128
def CONSOLE : U16 := 1
def MAXPATH : U64 := 128

/-- An `int` as an address offset. -/
def intOff (k : ℕ) : U64 := BitVec.ofNat 64 k

/-- Change `pipes[pi]`. -/
def Kernel.setPipe (s : Kernel) (pi : ℕ) (p : Pipe) : Kernel :=
  { s with pipes := Function.update s.pipes pi p }

/-- Change `*f`. -/
def Kernel.setFile (s : Kernel) (f : ℕ) (x : File) : Kernel :=
  { s with files := Function.update s.files f x }

/-- `&pi->nread` and `&pi->nwrite`. -/
def readChan (pi : ℕ) : Chan := .other (2 * pi)
def writeChan (pi : ℕ) : Chan := .other (2 * pi + 1)

variable [Layout]

/-! ### Pipes -/

/-- The loop of `pipewrite` after `k` bytes: the bytes written, and the result unless it sleeps. -/
def pipewriteFrom (i pi : ℕ) (addr : U64) (n : U32) : ℕ → ℕ → K (ℕ × Option ℤ)
  | 0, k => return (k, some k)
  | fuel + 1, k => do
    if n.toInt ≤ k then
      wakeup (some i) (some (readChan pi))
      return (k, some k)
    let s ← get
    let p := s.pipes pi
    if !p.readopen ∨ (s.procs i).killed then return (k, some (-1))
    if p.nwrite = p.nread + BitVec.ofNat 32 PIPESIZE then
      wakeup (some i) (some (readChan pi))
      return (k, none)
    let (ok, ch) ← copyin (.proc i) (addr + intOff k) 1
    if !ok then
      wakeup (some i) (some (readChan pi))
      return (k, some k)
    modify fun s =>
      let p := s.pipes pi
      s.setPipe pi { p with
        data := Function.update p.data (p.nwrite.toNat % PIPESIZE) (ch.headD 0)
        nwrite := p.nwrite + 1 }
    pipewriteFrom i pi addr n fuel (k + 1)

/-- `pipewrite` by the process `i`. -/
def pipewrite (i pi : ℕ) (addr : U64) (n : U32) : K (ℕ × Option ℤ) :=
  pipewriteFrom i pi addr n (n.toInt.toNat + 1) 0

/-- The copying loop of `piperead` after `k` bytes. -/
def pipereadFrom (i pi : ℕ) (addr : U64) (n : U32) : ℕ → ℕ → K ℤ
  | 0, k => return k
  | fuel + 1, k => do
    if n.toInt ≤ k then return k
    let s ← get
    let p := s.pipes pi
    if p.nread = p.nwrite then return k
    set (s.setPipe pi { p with nread := p.nread + 1 })
    if !(← copyout (.proc i) (addr + intOff k) (fun _ => p.data (p.nread.toNat % PIPESIZE)) 1) then
      return k
    pipereadFrom i pi addr n fuel (k + 1)

/-- `piperead` by the process `i`: the result, unless it sleeps. -/
def piperead (i pi : ℕ) (addr : U64) (n : U32) : K (Option ℤ) := do
  let s ← get
  let p := s.pipes pi
  if p.nread = p.nwrite ∧ p.writeopen then
    if (s.procs i).killed then return some (-1)
    return none
  let r ← pipereadFrom i pi addr n (n.toInt.toNat + 1) 0
  wakeup (some i) (some (writeChan pi))
  return some r

/-! ### The console -/

/-- The loop of `consoleread` with `n` of `target` bytes left: the bytes read, and the result unless
it sleeps. -/
def consolereadFrom (i : ℕ) (target : ℤ) : ℕ → U64 → ℤ → K (ℤ × Option ℤ)
  | 0, _, n => return (target - n, some (target - n))
  | fuel + 1, dst, n => do
    if n ≤ 0 then return (target - n, some (target - n))
    let s ← get
    if s.cons.r = s.cons.w then
      if (s.procs i).killed then return (target - n, some (-1))
      return (target - n, none)
    let c := s.cons.buf (s.cons.r.toNat % INPUT_BUF)
    -- `^D`: kept for the next call if something has been read
    if c = 4 then
      if n = target then set { s with cons := { s.cons with r := s.cons.r + 1 } }
      return (target - n, some (target - n))
    set { s with cons := { s.cons with r := s.cons.r + 1 } }
    if !(← copyout (.proc i) dst (fun _ => c) 1) then return (target - n, some (target - n))
    if c = 10 then return (target - (n - 1), some (target - (n - 1)))
    consolereadFrom i target fuel (dst + 1) (n - 1)

/-- `consoleread` by the process `i`. -/
def consoleread (i : ℕ) (dst : U64) (n : U32) : K (ℤ × Option ℤ) :=
  consolereadFrom i n.toInt (n.toInt.toNat + 1) dst n.toInt

/-- The loop of `consolewrite` after `k` bytes. -/
def consolewriteFrom (i : ℕ) (src : U64) (n : U32) : ℕ → ℕ → K ℤ
  | 0, k => return k
  | fuel + 1, k => do
    if n.toInt ≤ k then return k
    let (ok, _) ← copyin (.proc i) (src + intOff k) 1
    if !ok then return k
    consolewriteFrom i src n fuel (k + 1)

def consolewrite (i : ℕ) (src : U64) (n : U32) : K ℤ :=
  consolewriteFrom i src n (n.toInt.toNat + 1) 0

/-! ### Inodes -/

/-- The loop of `readi` to a user address, for `n` of `tot + n` bytes. -/
def readiUserFrom (u : UvmPtr) (ip : ℕ) : ℕ → U64 → ℕ → ℕ → ℤ → K ℤ
  | 0, _, _, _, tot => return tot
  | fuel + 1, dst, off, n, tot => do
    if n = 0 then return tot
    let b ← bmap ip (off / BSIZE)
    let bp ← bread b
    let m := min n (BSIZE - off % BSIZE)
    if !(← copyout u dst (fun k => bp (off % BSIZE + k)) (intOff m)) then return -1
    readiUserFrom u ip fuel (dst + intOff m) (off + m) (n - m) (tot + m)

/-- `readi` to the user address `dst`. -/
def readiUser (u : UvmPtr) (ip : ℕ) (dst : U64) (off n : U32) : K ℤ := do
  let i ← getInode ip
  if i.size < off ∨ off + n < off then return 0
  let n := if i.size < off + n then i.size - off else n
  readiUserFrom u ip n.toNat dst off.toNat n.toNat 0

/-- Change a buffer without `log_write`. -/
def setBuf (b : U32) (data : Block) : F Unit :=
  modify fun s => { s with log := { s.log with buf := Function.update s.log.buf b.toNat data } }

/-- The loop of `writei` from a user address: the bytes written, and where it stops.  What a copy
has done before it fails stays in the buffer. -/
def writeiUserFrom (u : UvmPtr) (ip : ℕ) : ℕ → U64 → ℕ → ℕ → ℕ → K (ℕ × ℕ)
  | 0, _, off, _, tot => return (tot, off)
  | fuel + 1, src, off, n, tot => do
    if n = 0 then return (tot, off)
    let b ← bmap ip (off / BSIZE)
    let bp ← bread b
    let m := min n (BSIZE - off % BSIZE)
    let (ok, bs) ← copyin u src (intOff m)
    let data : Block := fun x =>
      if off % BSIZE ≤ x ∧ x < off % BSIZE + bs.length then bs.getD (x - off % BSIZE) 0 else bp x
    if !ok then
      setBuf b data
      return (tot, off)
    fsLogWrite b data
    writeiUserFrom u ip fuel (src + intOff m) (off + m) (n - m) (tot + m)

/-- `writei` from the user address `src`. -/
def writeiUser (u : UvmPtr) (ip : ℕ) (src : U64) (off n : U32) : K ℤ := do
  let i ← getInode ip
  if i.size < off ∨ off + n < off then return -1
  if MAXFILE * BSIZE < (off + n).toNat then return -1
  let (tot, off) ← writeiUserFrom u ip n.toNat src off.toNat n.toNat 0
  setInode ip fun i => { i with
    size := if i.size < BitVec.ofNat 32 off then BitVec.ofNat 32 off else i.size }
  iupdate ip
  return tot

/-- The bytes of a `struct stat`; its padding is taken as zero. -/
def statBytes (i : Inode) : ℕ → Byte :=
  storeW (storeW (storeW (storeW (storeW (fun _ => 0) 0 i.dev) 4 i.inum) 8 i.type) 10 i.nlink) 16
    (i.size.setWidth 64)

/-! ### Files -/

/-- The inode of a file. -/
def fileIp (f : File) : K ℕ :=
  match f.ip with
  | none => throw .fault
  | some ip => return ip

/-- The pipe of a file. -/
def filePipe (f : File) : K ℕ :=
  match f.pipe with
  | none => throw .fault
  | some pi => return pi

/-- `filestat`. -/
def filestat (i f : ℕ) (addr : U64) : K ℤ := do
  let file := (← get).files f
  if file.type ≠ .inode ∧ file.type ≠ .device then return -1
  let ip ← fileIp file
  ilock ip
  let n ← getInode ip
  iunlock ip
  if !(← copyout (.proc i) addr (statBytes n) 24) then return -1
  return 0

/-- The branch of `fileread` for an inode. -/
def filereadInode (i f ip : ℕ) (addr : U64) (n : U32) : K ℤ := do
  ilock ip
  let off := ((← get).files f).off
  let r ← readiUser (.proc i) ip addr off n
  if 0 < r then modify fun s => s.setFile f { s.files f with
    off := (s.files f).off + BitVec.ofInt 32 r }
  iunlock ip
  return r

/-- `fileread`: the result, unless it sleeps. -/
def fileread (i f : ℕ) (addr : U64) (n : U32) : K (Option ℤ) := do
  let file := (← get).files f
  if !file.readable then return some (-1)
  match file.type with
  | .pipe => piperead i (← filePipe file) addr n
  | .device =>
    if file.major ≠ CONSOLE then return some (-1)
    return (← consoleread i addr n).2
  | .inode => return some (← filereadInode i f (← fileIp file) addr n)
  | .none => throw (.panic "fileread")

/-- The bytes `filewrite` writes in one transaction. -/
def maxWrite : ℕ := (MAXOPBLOCKS - 1 - 1 - 2) / 2 * BSIZE

/-- One transaction of `filewrite`. -/
def filewriteOp (i f ip : ℕ) (addr : U64) (n1 : ℕ) : K ℤ := do
  fsBeginOp
  ilock ip
  let off := ((← get).files f).off
  let r ← writeiUser (.proc i) ip addr off (BitVec.ofNat 32 n1)
  if 0 < r then modify fun s => s.setFile f { s.files f with
    off := (s.files f).off + BitVec.ofInt 32 r }
  iunlock ip
  fsEndOp
  return r

/-- The loop of `filewrite` for an inode after `k` of `n` bytes. -/
def filewriteFrom (i f ip : ℕ) (addr : U64) (n : ℕ) : ℕ → ℕ → K ℤ
  | 0, k => return if k = n then n else -1
  | fuel + 1, k => do
    if n ≤ k then return if k = n then n else -1
    let n1 := min (n - k) maxWrite
    let r ← filewriteOp i f ip (addr + intOff k) n1
    if r ≠ n1 then return -1
    filewriteFrom i f ip addr n fuel (k + n1)

/-- `filewrite`: the result, unless it sleeps. -/
def filewrite (i f : ℕ) (addr : U64) (n : U32) : K (Option ℤ) := do
  let file := (← get).files f
  if !file.writable then return some (-1)
  match file.type with
  | .pipe => return (← pipewrite i (← filePipe file) addr n).2
  | .device =>
    if file.major ≠ CONSOLE then return some (-1)
    return some (← consolewrite i addr n)
  | .inode =>
    if n.toInt < 0 then return some (-1)
    return some (← filewriteFrom i f (← fileIp file) addr n.toNat (n.toNat + 1) 0)
  | .none => throw (.panic "filewrite")

/-! ### System calls -/

/-- `sys_read`. -/
def sysRead (i : ℕ) (fd : U32) (p : U64) (n : U32) : K (Option ℤ) := do
  match argfd (← get) i fd with
  | none => return some (-1)
  | some f => fileread i f p n

/-- Complete the pages of `[a, e)`; `false` if one is refused. -/
def prefault (u : UvmPtr) (a e : U64) : K Bool := do
  match ← loopWhile (fun k => do
      let pa ← uvmGuaranteecomplete u (pageNo a k) PTE_R
      return pa ≠ 0) 0 (pagesIn a e) with
  | none => return true
  | some _ => return false

/-- `sys_write`. -/
def sysWrite (i : ℕ) (fd : U32) (p : U64) (n : U32) : K (Option ℤ) := do
  match argfd (← get) i fd with
  | none => return some (-1)
  | some f =>
    if !(← prefault (.proc i) (pgRoundDown p) (p + n.signExtend 64)) then return some (-1)
    filewrite i f p n

/-- `sys_fstat`. -/
def sysFstat (i : ℕ) (fd : U32) (st : U64) : K ℤ := do
  match argfd (← get) i fd with
  | none => return -1
  | some f => filestat i f st

/-- The copies `sys_pipe` makes of the two descriptors. -/
def pipeFds (i : ℕ) (fdarray : U64) (fd0 fd1 : ℤ) : K Bool := do
  if !(← copyout (.proc i) fdarray (intBytes fd0) 4) then return false
  copyout (.proc i) (fdarray + 4) (intBytes fd1) 4

/-- The fields of `struct pstat`. -/
def pstatField (p : Proc) : ℕ → U32
  | 0 => if p.state = .unused then 0 else 1
  | 1 => BitVec.ofInt 32 p.tickets
  | 2 => BitVec.ofInt 32 p.pid
  | _ => p.ticks

/-- The bytes of the `struct pstat` of the process table. -/
def pstatBytes (s : Kernel) : ℕ → Byte := fun k =>
  (pstatField (s.procs (k % 256 / 4)) (k / 256) >>> (8 * (k % 4))).setWidth 8

/-- `sys_getpinfo`. -/
def sysGetpinfo (i : ℕ) (useraddr : U64) : K ℤ := do
  if useraddr = 0 then return -1
  if !(← copyout (.proc i) useraddr (pstatBytes (← get)) 1024) then return -1
  return 0

/-- `fetchaddr`. -/
def fetchaddr (i : ℕ) (addr : U64) : K (Option U64) := do
  let (ok, bs) ← copyin (.proc i) addr 8
  return if ok then some (loadW 64 (fun k => bs.getD k 0) 0) else none

/-- `fetchstr`, and `argstr` with the address of its argument. -/
def fetchstr (i : ℕ) (addr max : U64) : K (Option (List Byte)) := copyinstr (.proc i) addr max

/-- The loop of `sys_exec` over `argv` from entry `k` on: the arguments, or `none` for `bad`, and
the pages allocated for them. -/
def execArgv (i : ℕ) (uargv : U64) :
    ℕ → ℕ → List (List Byte) → List U64 → K (Option (List (List Byte)) × List U64)
  | 0, _, _, pages => return (none, pages)
  | fuel + 1, k, argv, pages => do
    match ← fetchaddr i (uargv + 8 * intOff k) with
    | none => return (none, pages)
    | some uarg =>
      if uarg = 0 then return (some argv, pages)
      let page ← kalloc
      if page = 0 then return (none, pages)
      match ← fetchstr i uarg PGSIZE with
      | none => return (none, pages ++ [page])
      | some arg => execArgv i uargv fuel (k + 1) (argv ++ [arg]) (pages ++ [page])

/-- What `sys_exec` reads from user memory: the path and the arguments. -/
def execFetch (i : ℕ) (path uargv : U64) :
    K (Option (List Byte × List (List Byte)) × List U64) := do
  match ← fetchstr i path MAXPATH with
  | none => return (none, [])
  | some path =>
    match ← execArgv i uargv MAXARG 0 [] [] with
    | (none, pages) => return (none, pages)
    | (some argv, pages) => return (some (path, argv), pages)

end Xv6
