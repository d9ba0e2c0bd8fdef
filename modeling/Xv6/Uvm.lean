import Xv6.Kernel

/-!
# User virtual memory (`kernel/uvm.c`)

The virtual memory areas of a process and the lazy page table behind them.  A `struct vma *` is an
index into the pool `vmas[]`.  An `int` argument is a 32-bit word, sign-extended where C does so;
`uint` fields are cut to 32 bits where C does so.  Functions that only read the kernel state
(`uvm_va2vma`, `uvm_israngefree`, `vma_intersect`) are functions of it.
-/

namespace Xv6

open Bytes Wp

def MAP_PRIVATE : U32 := 0
def MAP_SHARED : U32 := 1

/-- `MIN(x, y)`. -/
def umin (x y : U64) : U64 := if y < x then y else x

/-- `MAX(x, y)`. -/
def umax (x y : U64) : U64 := if x < y then y else x

/-- `start + length`. -/
def Vma.stop (v : Vma) : U64 := v.start + v.length

/-! ### Vma primitives -/

/-- The first record of the pool that is not in use. -/
def freeVma (s : Kernel) : Option ℕ :=
  (List.range MAX_VMAS).find? fun j => !(s.vmas j).used

/-- The first free entry of the `vma` array. -/
def freeSlot (s : Kernel) (u : UvmPtr) : Option ℕ :=
  (List.range VMA_SIZE).find? fun i => ((s.uvms u).vma i).isNone

def vmaalloc (u : UvmPtr) : K (Option ℕ) := do
  let s ← get
  match freeSlot s u with
  | none => return none
  | some i =>
    match freeVma s with
    | none => return none
    | some j =>
      set ((s.setVma j { s.vmas j with used := true }).setSlot u i (some j))
      return some j

/-- `idup` of a pointer that may be null. -/
def idupOpt (inode : Option ℕ) : F Unit :=
  match inode with
  | none => return
  | some ip => idup ip

def vmaInit (j : ℕ) (start length : U64) (perm flags : U32) (inode : Option ℕ)
    (offset filesz : U32) : K Unit := do
  idupOpt inode
  modify fun s => s.setVma j { s.vmas j with
    start := start, length := length, perm := perm, flags := flags, inode := inode,
    offset := offset, filesz := filesz }

/-- `begin_op(); iput(ip); end_op();` unless `ip` is null. -/
def iputOp (inode : Option ℕ) : F Unit :=
  match inode with
  | none => return
  | some ip => do
    fsBeginOp
    iput ip
    fsEndOp

def vmafree (j : ℕ) : K Unit := do
  let s ← get
  iputOp (s.vmas j).inode
  modify fun s => s.setVma j { s.vmas j with used := false }

/-- `vmadup`: a new record with the same contents. -/
def vmadup (j : ℕ) : K (Option ℕ) := do
  let s ← get
  match freeVma s with
  | none => return none
  | some k =>
    idupOpt (s.vmas j).inode
    modify fun s => s.setVma k { s.vmas j with used := true }
    return some k

/-- `vma_intersect`. -/
def vmaIntersect (v w : Vma) : Bool :=
  umax (pgRoundDown v.start) (pgRoundDown w.start) < umin (pgRoundUp v.stop) (pgRoundUp w.stop)

/-! ### Lookup -/

/-- `start <= va && va < start + length`. -/
def Vma.has (v : Vma) (va : U64) : Bool := v.start ≤ va ∧ va < v.stop

/-- `uvm_va2vma`: the first vma with `va`. -/
def uvmVa2vma (s : Kernel) (u : UvmPtr) (va : U64) : Option ℕ :=
  (List.range VMA_SIZE).findSome? fun i =>
    ((s.uvms u).vma i).filter fun j => (s.vmas j).has va

/-- `uvm_israngefree`. -/
def uvmIsrangefree (s : Kernel) (u : UvmPtr) (vastart length : U64) : Bool :=
  (List.range VMA_SIZE).all fun i =>
    match (s.uvms u).vma i with
    | none => true
    | some j =>
      !decide (umax (pgRoundDown vastart) (pgRoundDown (s.vmas j).start) <
        umin (pgRoundUp (vastart + length)) (pgRoundUp (s.vmas j).stop))

/-- The inner loop of `getfreevrange`: the least end of a vma above `previous`, or `MAXVA`. -/
def nextEnd (s : Kernel) (u : UvmPtr) (previous : U64) : U64 :=
  (List.range VMA_SIZE).foldl (fun addr i =>
    match (s.uvms u).vma i with
    | none => addr
    | some j =>
      if previous < pgRoundUp (s.vmas j).stop then umin addr (pgRoundUp (s.vmas j).stop)
      else addr) MAXVA

/-- The loop of `getfreevrange`, with a bound on its rounds. -/
def getfreevrangeFrom (s : Kernel) (u : UvmPtr) (length : U32) : ℕ → U64 → K U64
  | 0, _ => throw .diverge
  | n + 1, addr =>
    if uvmIsrangefree s u addr (length.signExtend 64) then return addr
    else
      let addr := pgRoundUp (nextEnd s u addr)
      if MAXVA < addr + length.signExtend 64 then return 0
      else getfreevrangeFrom s u length n addr

/-- `getfreevrange`.  Every round but the first starts at the end of another vma or at `MAXVA`. -/
def getfreevrange (u : UvmPtr) (length : U32) : K U64 := do
  getfreevrangeFrom (← get) u length (VMA_SIZE + 3) START_VMAS_ADDR

/-! ### Mapping -/

/-- `uvm_map`: the address, or -1. -/
def uvmMap (u : UvmPtr) (addr length : U64) (perm flags : U32) (inode : Option ℕ)
    (offset filesz : U32) : K U64 := do
  if inode = none ∧ flags ≠ MAP_PRIVATE then return -1
  let s ← get
  if !uvmIsrangefree s u addr length then return -1
  match ← vmaalloc u with
  | none => return -1
  | some j =>
    vmaInit j addr length perm flags inode offset filesz
    return addr

section WriteBack

variable [Layout]

/-- One page of the write-back loop of `uvm_unmap`. -/
def writeBackPage (pagetable : U64) (vma : Vma) (ip : ℕ) (addr length va : U64) : K Unit := do
  let pa ← pgtGetpa pagetable va
  if pa = 0 then return
  let va0 := umax va addr
  let va1 := umin (umin (va + PGSIZE) (addr + length)) (vma.start + vma.filesz.setWidth 64)
  if va1 ≤ va0 then return
  let len := va1 - va0
  let bs ← readBytes (pa + (va0 - va)) len.toNat
  let w ← writei ip ((vma.offset.setWidth 64 + (va0 - vma.start)).setWidth 32) bs
  panicIf (BitVec.ofInt 64 w ≠ len) "uvm_unmap: write error\n"

/-- Write the pages of `[addr, addr + length)` back to the file of a shared vma. -/
def writeBack (pagetable : U64) (vma : Vma) (addr length : U64) : K Unit := do
  fsBeginOp
  match vma.inode with
  | none => throw (.panic "ilock")
  | some ip =>
    ilock ip
    loop (fun i => writeBackPage pagetable vma ip addr length (pageNo (pgRoundDown addr) i)) 0
      (pagesIn (pgRoundDown addr) (pgRoundUp (addr + length)))
    iunlock ip
    fsEndOp

end WriteBack

/-- A vma without its first `n` bytes.  `MAX(vma->filesz - n, 0)` is the unsigned difference. -/
def Vma.dropFront (v : Vma) (n : U64) : Vma :=
  { v with
    start := v.start + n
    offset := v.offset + n.setWidth 32
    length := v.length - n
    filesz := (v.filesz.setWidth 64 - n).setWidth 32 }

/-- A vma without its last `n` bytes. -/
def Vma.dropTail (v : Vma) (n : U64) : Vma :=
  { v with
    length := v.length - n
    filesz := (umin (v.filesz.setWidth 64) (v.length - n)).setWidth 32 }

/-- Clear the first entry of a `vma` array that is `j`. -/
def clearEntry (vma : ℕ → Option ℕ) (j : ℕ) : ℕ → Option ℕ :=
  match (List.range VMA_SIZE).find? fun i => vma i = some j with
  | none => vma
  | some i => Function.update vma i none

/-- Take `vmas[j]` out of the array of `u`. -/
def clearSlot (s : Kernel) (u : UvmPtr) (j : ℕ) : Kernel :=
  s.setUvm u { s.uvms u with vma := clearEntry (s.uvms u).vma j }

variable [Layout]

/-- The part of `uvm_unmap` after the write-back: the whole vma, its front or its tail. -/
def unmapVma (u : UvmPtr) (pagetable : U64) (j : ℕ) (vma : Vma) (addr length : U64) : K Unit := do
  if vma.length = length then
    pgtDeallocunmap pagetable (pgRoundDown addr) (pgRoundUp (addr + length))
    modify fun s => clearSlot s u j
    vmafree j
  else if addr = vma.start then
    pgtDeallocunmap pagetable (pgRoundDown addr) (pgRoundDown (addr + length))
    modify fun s => s.setVma j (vma.dropFront length)
  else
    pgtDeallocunmap pagetable (pgRoundUp addr) (pgRoundUp (addr + length))
    modify fun s => s.setVma j (vma.dropTail length)

/-- `uvm_unmap`. -/
def uvmUnmap (u : UvmPtr) (addr length : U64) : K Unit := do
  let s ← get
  let pagetable := (s.uvms u).pagetable
  match uvmVa2vma s u addr with
  | none => throw (.panic "uvm_unmap: not in vma!\n")
  | some j =>
    let vma := s.vmas j
    panicIf (addr ≠ vma.start ∧ addr + length ≠ vma.stop) "uvm_unmap: not a valid mode\n"
    if vma.flags = MAP_SHARED then writeBack pagetable vma addr length
    unmapVma u pagetable j vma addr length

/-- `uvm_new`: `true` on success. -/
def uvmNew (u : UvmPtr) (trapframe : U64) : K Bool := do
  modify fun s => s.setUvm u .zero
  let pagetable ← pgtNew
  if pagetable = 0 then return false
  let setPagetable (p : U64) : K Unit :=
    modify fun s => s.setUvm u { s.uvms u with pagetable := p }
  setPagetable pagetable
  if !(← pgtMap pagetable TRAMPOLINE Layout.trampoline (PTE_R ||| PTE_X)) then
    pgtFree pagetable
    setPagetable 0
    return false
  pgtClearubit pagetable TRAMPOLINE
  if !(← pgtMap pagetable TRAPFRAME trapframe (PTE_R ||| PTE_W)) then
    pgtDeallocunmap pagetable TRAMPOLINE (TRAMPOLINE + PGSIZE)
    pgtFree pagetable
    setPagetable 0
    return false
  pgtClearubit pagetable TRAPFRAME
  return true

/-- `uvm_free`. -/
def uvmFree (u : UvmPtr) : K Unit := do
  loop (fun i => do
    let s ← get
    match (s.uvms u).vma i with
    | none => return
    | some j => uvmUnmap u (s.vmas j).start (s.vmas j).length) 0 VMA_SIZE
  let s ← get
  let pagetable := (s.uvms u).pagetable
  panicIf (pagetable = 0) "uvm_free"
  pgtUnmap pagetable TRAMPOLINE (TRAMPOLINE + PGSIZE)
  pgtUnmap pagetable TRAPFRAME (TRAPFRAME + PGSIZE)
  pgtFree pagetable
  modify fun s => s.setUvm u { s.uvms u with pagetable := 0 }

/-! ### Page faults -/

/-- The file part of a new page of a vma, as `readi` copies it to the page. -/
def readPage (vma : Vma) (va : U64) : F (List Byte) := do
  match vma.inode with
  | none => return []
  | some ip =>
    let eof := vma.start + vma.filesz.setWidth 64
    if eof ≤ va then return []
    let readsz := umin (eof - va) PGSIZE
    ilock ip
    let bs ← readi ip ((vma.offset.setWidth 64 + (va - vma.start)).setWidth 32)
      (readsz.setWidth 32)
    iunlock ip
    panicIf (BitVec.ofNat 64 bs.length ≠ readsz) "uvm_completemap: readi"
    return bs

/-- A new zeroed page behind the entry at `a`, or 0. -/
def freshPage (vma : Vma) (a : U64) : P U64 := do
  let pa ← kalloc
  if pa = 0 then return 0
  storePte a (pa2pte pa ||| vma.perm.setWidth 64 ||| PTE_V ||| PTE_U)
  memset pa 0
  return pa

/-- The branch of `uvm_completemap` for an entry at `a` that is not valid. -/
def completeFresh (vma : Vma) (va a : U64) : K U64 := do
  let pa ← freshPage vma a
  if pa = 0 then return 0
  let bs ← readPage vma va
  writeBytes pa bs
  return pa

/-- The branch for a store to a page that is mapped: give write permission if the page is only
referenced once, or copy it to a new page. -/
def completeWrite (a pte : U64) : P U64 := do
  let pa := pte2pa pte
  if ← ksingleref pa then
    storePte a (pte ||| PTE_W)
    return pa
  let mem ← kalloc
  if mem = 0 then return 0
  memmove mem pa
  storePte a (pa2pte mem ||| pteFlags pte ||| PTE_W)
  kfree pa
  return mem

/-- `uvm_completemap` once the entry has been found at `a`. -/
def completeEntry (vma : Vma) (va missingPerm a : U64) : K U64 := do
  let pte ← loadPte a
  if pte &&& PTE_V = 0 then completeFresh vma va a
  else if pte &&& PTE_U = 0 then return 0
  else if missingPerm = PTE_W then completeWrite a pte
  else throw (.panic "invalid pagefault\n")

/-- `uvm_completemap`: the physical address of the page of `va`, or 0. -/
def uvmCompletemap (u : UvmPtr) (va missingPerm : U64) : K U64 := do
  if va % PGSIZE ≠ 0 ∨ MAXVA ≤ va then return 0
  let s ← get
  match uvmVa2vma s u va with
  | none => return 0
  | some j =>
    let vma := s.vmas j
    if vma.perm.setWidth 64 &&& missingPerm = 0 then return 0
    match ← pgtWalk (s.uvms u).pagetable va true with
    | none => return 0
    | some a => completeEntry vma va missingPerm a

/-- `uvm_guaranteecomplete`. -/
def uvmGuaranteecomplete (u : UvmPtr) (va minimumPerm : U64) : K U64 := do
  let s ← get
  match ← pgtWalk (s.uvms u).pagetable va false with
  | none => uvmCompletemap u va minimumPerm
  | some a =>
    let pte ← loadPte a
    if pte &&& PTE_V = 0 ∨ pte &&& minimumPerm = 0 then uvmCompletemap u va minimumPerm
    else return pte2pa pte

/-! ### The heap -/

/-- Whether `vmas[heap]` meets another vma of `u`. -/
def heapMeets (s : Kernel) (u : UvmPtr) (heap : ℕ) : Bool :=
  (List.range VMA_SIZE).any fun i =>
    match (s.uvms u).vma i with
    | none => false
    | some j => j ≠ heap ∧ vmaIntersect (s.vmas heap) (s.vmas j)

/-- `uvm_growheap`: `true` on success. -/
def uvmGrowheap (u : UvmPtr) (n : U32) : K Bool := do
  let s ← get
  if n = 0 then return true
  match (s.uvms u).heap with
  | none => throw .fault
  | some h =>
    let heap := s.vmas h
    let n64 := n.signExtend 64
    if 0 < n.toInt then
      if heap.stop + n64 < heap.stop ∨ TRAPFRAME < heap.stop + n64 then return false
      let grown := s.setVma h { heap with length := heap.length + n64 }
      if heapMeets grown u h then return false
      set grown
      return true
    else
      if heap.length - PGSIZE < (-n).signExtend 64 then return false
      uvmUnmap u (heap.stop + n64) ((-n).signExtend 64)
      return true

/-! ### Duplication -/

/-- One round of the loop of `uvm_dup`; `false` is `goto err`. -/
def uvmDupSlot (p c : UvmPtr) (i : ℕ) : K Bool := do
  let s ← get
  match (s.uvms p).vma i with
  | none => return true
  | some j =>
    let k ← vmadup j
    modify fun s => s.setSlot c i k
    match k with
    | none => return false
    | some k =>
      let s ← get
      let vma := s.vmas j
      if ← pgtClone (s.uvms p).pagetable (s.uvms c).pagetable (pgRoundDown vma.start)
          (pgRoundUp vma.stop) then
        if (s.uvms p).heap = some j then
          modify fun s => s.setUvm c { s.uvms c with heap := some k }
        return true
      else
        vmafree k
        modify fun s => s.setVma k { s.vmas k with used := false }
        return false

/-- `uvm_dup`: `true` on success. -/
def uvmDup (p c : UvmPtr) : K Bool := do
  match ← loopWhile (uvmDupSlot p c) 0 VMA_SIZE with
  | none => return true
  | some _ =>
    -- err:
    loop (fun i => do
      let s ← get
      match (s.uvms c).vma i with
      | none => return
      | some k => uvmUnmap c (s.vmas k).start (s.vmas k).stop) 0 VMA_SIZE
    return false

/-! ### Utilities -/

def code2uvm (u : UvmPtr) (src : List Byte) : K Unit := do
  panicIf (4096 ≤ src.length) "code2uvm: more than a page"
  match ← vmaalloc u with
  | none => throw .fault
  | some j =>
    vmaInit j 0 PGSIZE 14 MAP_PRIVATE none 0 0
    let mem ← kalloc
    memset mem 0
    let s ← get
    let _ ← pgtMap (s.uvms u).pagetable 0 mem (PTE_R ||| PTE_W ||| PTE_X)
    writeBytes mem src

/-- The physical page that `copyout` writes to for the page at `va0`, or 0. -/
def copyoutPage (u : UvmPtr) (va0 : U64) : K U64 := do
  let s ← get
  match ← pgtWalk (s.uvms u).pagetable va0 false with
  | none => uvmCompletemap u va0 PTE_W
  | some a =>
    let pte ← loadPte a
    if pte &&& PTE_V = 0 ∨ pte &&& PTE_W = 0 then uvmCompletemap u va0 PTE_W
    else return pte2pa pte

/-- The loop of `copyout`, for the bytes `src[k], …, src[k + len - 1]`; every round copies at least
one byte, so `len` rounds are enough. -/
def copyoutFrom (u : UvmPtr) (src : ℕ → Byte) : ℕ → U64 → ℕ → U64 → K Bool
  | 0, _, _, _ => return true
  | fuel + 1, dstva, k, len => do
    if len = 0 then return true
    let va0 := pgRoundDown dstva
    let pa0 ← copyoutPage u va0
    if pa0 = 0 then return false
    let n := umin (PGSIZE - (dstva - va0)) len
    writeBytes (pa0 + (dstva - va0)) ((List.range n.toNat).map fun i => src (k + i))
    copyoutFrom u src fuel (va0 + PGSIZE) (k + n.toNat) (len - n)

/-- `copyout`: `true` on success. -/
def copyout (u : UvmPtr) (dstva : U64) (src : ℕ → Byte) (len : U64) : K Bool := do
  if dstva + len < dstva ∨ MAXVA < dstva + len then return false
  copyoutFrom u src len.toNat dstva 0 len

/-- The physical page that `copyin` and `copyinstr` read for the page at `va0`, or 0. -/
def copyinPage (u : UvmPtr) (va0 : U64) : K U64 := do
  let s ← get
  let pa0 ← pgtGetpa (s.uvms u).pagetable va0
  if pa0 = 0 then uvmCompletemap u va0 PTE_R else return pa0

/-- The loop of `copyin`; `done` are the bytes copied so far. -/
def copyinFrom (u : UvmPtr) : ℕ → List Byte → U64 → U64 → K (Bool × List Byte)
  | 0, done, _, _ => return (true, done)
  | fuel + 1, done, srcva, len => do
    if len = 0 then return (true, done)
    let va0 := pgRoundDown srcva
    let pa0 ← copyinPage u va0
    if pa0 = 0 then return (false, done)
    let n := umin (PGSIZE - (srcva - va0)) len
    let bs ← readBytes (pa0 + (srcva - va0)) n.toNat
    copyinFrom u fuel (done ++ bs) (va0 + PGSIZE) (len - n)

/-- `copyin`: whether it succeeds, and the bytes it copies. -/
def copyin (u : UvmPtr) (srcva len : U64) : K (Bool × List Byte) :=
  copyinFrom u len.toNat [] srcva len

/-- The loop of `copyinstr`, without the final `'\0'`. -/
def copyinstrFrom (u : UvmPtr) : ℕ → List Byte → U64 → U64 → K (Option (List Byte))
  | 0, _, _, _ => return none
  | fuel + 1, done, srcva, max => do
    if max = 0 then return none
    let va0 := pgRoundDown srcva
    let pa0 ← copyinPage u va0
    if pa0 = 0 then return none
    let n := umin (PGSIZE - (srcva - va0)) max
    let bs ← readBytes (pa0 + (srcva - va0)) n.toNat
    let str := bs.takeWhile (· ≠ 0)
    if str.length < n.toNat then return some (done ++ str)
    copyinstrFrom u fuel (done ++ str) (va0 + PGSIZE) (max - n)

/-- `copyinstr`: the string without its `'\0'`, or an error. -/
def copyinstr (u : UvmPtr) (srcva max : U64) : K (Option (List Byte)) :=
  copyinstrFrom u max.toNat [] srcva max

end Xv6
