import Xv6.Param
import Xv6.Riscv
import Xv6.Lib.Bytes

/-!
# Physical memory and its allocator (`kernel/kalloc.c`)

Physical memory is kept by page number and offset in the page.  `kmem.freelist[0..numfree)` is a
stack; here it is a list with the top first, so `numfree` is its length.
-/

namespace Xv6

open Bytes Wp

/-- Physical memory and `kmem`. -/
structure Phys where
  mem : ℕ → ℕ → Byte
  freelist : List ℕ
  refs : ℕ → ℤ

/-- Code that works on physical memory. -/
abbrev P := Prog Phys Stop

/-! ### Access to memory -/

/-- The page of an address in RAM. -/
def frame (a : U64) : P ℕ :=
  if KERNBASE ≤ a ∧ a < PHYSTOP then return a.toNat / 4096 else throw .fault

/-- Replace the contents of a page. -/
def setPage (f : ℕ) (data : ℕ → Byte) : P Unit :=
  modify fun s => { s with mem := Function.update s.mem f data }

/-- `memset(pa, c, PGSIZE)` of a page. -/
def memset (pa : U64) (c : Byte) : P Unit := do
  let f ← frame pa
  setPage f fun _ => c

/-- `memmove(dst, src, PGSIZE)` of a page. -/
def memmove (dst src : U64) : P Unit := do
  let f ← frame dst
  let g ← frame src
  let s ← get
  setPage f (s.mem g)

/-- The page `m` with the bytes `bs` at offset `o`. -/
def putBytes (m : ℕ → Byte) (o : ℕ) (bs : List Byte) : ℕ → Byte := fun x =>
  if o ≤ x then bs.getD (x - o) (m x) else m x

/-- `memmove(a, bs, n)` from a kernel buffer that holds the `n` bytes `bs`, into one page. -/
def writeBytes (a : U64) (bs : List Byte) : P Unit := do
  let f ← frame a
  let s ← get
  setPage f (putBytes (s.mem f) (a.toNat % 4096) bs)

/-- The `n` bytes at `a`, in one page. -/
def readBytes (a : U64) (n : ℕ) : P (List Byte) := do
  let f ← frame a
  let s ← get
  return (List.range n).map fun i => s.mem f (a.toNat % 4096 + i)

/-- `*pte` for a `pte_t *`. -/
def loadPte (a : U64) : P U64 := do
  let f ← frame a
  let s ← get
  return loadW 64 (s.mem f) (a.toNat % 4096)

/-- `*pte = v`. -/
def storePte (a : U64) (v : U64) : P Unit := do
  let f ← frame a
  let s ← get
  setPage f (storeW (s.mem f) (a.toNat % 4096) v)

/-! ### `kalloc.c` -/

variable [Layout]

/-- Give a page back to the free list, filled with junk. -/
def krelease (pa : U64) : P Unit := do
  memset pa 1
  modify fun s => { s with freelist := (pa >>> 12).toNat :: s.freelist }

/-- The loop of `freerange`, `n` pages from `p` on. -/
def freerangeFrom (p : U64) (n : ℕ) : P Unit :=
  loop (fun i => krelease (p + PGSIZE * BitVec.ofNat 64 i)) 0 n

/-- `freerange`: release the whole pages of a range. -/
def freerange (paStart paEnd : U64) : P Unit :=
  freerangeFrom (pgRoundUp paStart) ((paEnd.toNat - (pgRoundUp paStart).toNat) / 4096)

def kinit : P Unit := freerange Layout.kend PHYSTOP

/-- A free page filled with junk, or 0. -/
def kalloc : P U64 := do
  let s ← get
  match s.freelist with
  | [] => return 0
  | index :: freelist =>
    set { s with freelist := freelist, refs := Function.update s.refs index 1 }
    let pa : U64 := BitVec.ofNat 64 index <<< 12
    memset pa 5
    return pa

/-- The check of `kincref`, `kfree` and `ksingleref`. -/
def badPage (pa : U64) : Prop := pa % PGSIZE ≠ 0 ∨ pa < Layout.kend ∨ PHYSTOP ≤ pa

instance (pa : U64) : Decidable (badPage pa) := by
  unfold badPage
  infer_instance

def kincref (pa : U64) : P Unit := do
  panicIf (badPage pa) "kincref"
  let index := (pa >>> 12).toNat
  modify fun s => { s with refs := Function.update s.refs index (s.refs index + 1) }

def kfree (pa : U64) : P Unit := do
  panicIf (badPage pa) "kfree"
  let index := (pa >>> 12).toNat
  modify fun s => { s with refs := Function.update s.refs index (s.refs index - 1) }
  let s ← get
  panicIf (s.refs index < 0) "kfree: refs below 0\n"
  if s.refs index = 0 then krelease pa

def ksingleref (pa : U64) : P Bool := do
  panicIf (badPage pa) "ksingleref"
  let s ← get
  return s.refs (pa >>> 12).toNat = 1

end Xv6
