import Xv6.Kalloc

/-!
# User page tables (`kernel/pagetable.c`)

A page table is known by the physical address of its root page; a `pte_t *` is the physical
address of the entry.  A loop `for(addr = a; addr < b; addr += PGSIZE)` runs `pagesIn a b` rounds;
its bounds are page aligned, so `addr` reaches `b` before it can wrap.
-/

namespace Xv6

open Wp

/-- The rounds of `for(addr = a; addr < b; addr += PGSIZE)`. -/
def pagesIn (a b : U64) : ℕ := (b.toNat - a.toNat + 4095) / 4096

/-- The value of `addr` in round `i`. -/
def pageNo (a : U64) (i : ℕ) : U64 := a + PGSIZE * BitVec.ofNat 64 i

variable [Layout]

/-- An empty page table, or 0. -/
def pgtNew : P U64 := do
  let pagetable ← kalloc
  if pagetable = 0 then return 0
  memset pagetable 0
  return pagetable

/-- `&pagetable[i]`. -/
def pteAddr (pagetable i : U64) : U64 := pagetable + 8 * i

/-- `pgt_free` with its recursion cut at depth `n`. -/
def pgtFreeDepth : ℕ → U64 → P Unit
  | 0, _ => throw .diverge
  | n + 1, pagetable => do
    let entry (i : ℕ) : P Unit := do
      let a := pteAddr pagetable (BitVec.ofNat 64 i)
      let pte ← loadPte a
      if pte &&& PTE_V ≠ 0 ∧ pte &&& (PTE_R ||| PTE_W ||| PTE_X) = 0 then
        pgtFreeDepth n (pte2pa pte)
        storePte a 0
      else panicIf (pte &&& PTE_V ≠ 0) "pgt_free: leaf"
    loop entry 0 512
    kfree pagetable

/-- `pgt_free`.  The kernel stack is one page, which bounds the depth of the recursion. -/
def pgtFree (pagetable : U64) : P Unit := pgtFreeDepth 4096 pagetable

/-- The loop of `pgt_walk` from `level` down to the leaf entry. -/
def pgtWalkFrom (va : U64) (alloc : Bool) : ℕ → U64 → P (Option U64)
  | 0, pagetable => return some (pteAddr pagetable (px 0 va))
  | level + 1, pagetable => do
    let a := pteAddr pagetable (px (level + 1) va)
    let pte ← loadPte a
    if pte &&& PTE_V ≠ 0 then pgtWalkFrom va alloc level (pte2pa pte)
    else if !alloc then return none
    else
      let child ← kalloc
      if child = 0 then return none
      memset child 0
      storePte a (pa2pte child ||| PTE_V)
      pgtWalkFrom va alloc level child

/-- `pgt_walk`: the address of the PTE for `va`, if there is one. -/
def pgtWalk (pagetable va : U64) (alloc : Bool) : P (Option U64) := do
  panicIf (MAXVA ≤ va) "walk"
  pgtWalkFrom va alloc 2 pagetable

/-- `pgt_getpa`: the physical address of a user page, or 0. -/
def pgtGetpa (pagetable va : U64) : P U64 := do
  if MAXVA ≤ va then return 0
  match ← pgtWalk pagetable va false with
  | none => return 0
  | some a =>
    let pte ← loadPte a
    if pte &&& PTE_V = 0 ∨ pte &&& PTE_U = 0 then return 0
    return pte2pa pte

/-- `pgt_map`: `true` on success. -/
def pgtMap (pagetable va pa flags : U64) : P Bool := do
  panicIf (MAXVA ≤ va ∨ va % PGSIZE ≠ 0 ∨ pa % PGSIZE ≠ 0) "pgt_map: Invalid addr\n"
  match ← pgtWalk pagetable va true with
  | none => return false
  | some a =>
    let pte ← loadPte a
    panicIf (pte &&& PTE_V ≠ 0) "pgt_map: remap"
    storePte a (pa2pte pa ||| flags ||| PTE_V ||| PTE_U)
    return true

def pgtClearubit (pagetable va : U64) : P Unit := do
  match ← pgtWalk pagetable va false with
  | none => throw (.panic "pgt_clearubit")
  | some a =>
    let pte ← loadPte a
    storePte a (pte &&& ~~~PTE_U)

/-- The range check of `pgt_unmap_impl` and `pgt_clone`. -/
def badRange (vastart vaend : U64) : Prop :=
  MAXVA < vaend ∨ vaend < vastart ∨ vastart % PGSIZE ≠ 0 ∨ vaend % PGSIZE ≠ 0

instance (vastart vaend : U64) : Decidable (badRange vastart vaend) := by
  unfold badRange
  infer_instance

/-- One round of `pgt_unmap_impl`. -/
def pgtUnmapPage (pagetable : U64) (dealloc : Bool) (addr : U64) : P Unit := do
  match ← pgtWalk pagetable addr false with
  | none => return
  | some a =>
    let pte ← loadPte a
    if pte &&& PTE_V = 0 then return
    panicIf (pteFlags pte = PTE_V) "uvmunmap: not a leaf"
    if dealloc then kfree (pte2pa pte)
    storePte a 0

def pgtUnmapImpl (pagetable vastart vaend : U64) (dealloc : Bool) : P Unit := do
  panicIf (badRange vastart vaend) "pgt_unmap_impl: Invalid range\n"
  loop (fun i => pgtUnmapPage pagetable dealloc (pageNo vastart i)) 0 (pagesIn vastart vaend)

def pgtUnmap (pagetable vastart vaend : U64) : P Unit :=
  pgtUnmapImpl pagetable vastart vaend false

def pgtDeallocunmap (pagetable vastart vaend : U64) : P Unit :=
  pgtUnmapImpl pagetable vastart vaend true

/-- One round of `pgt_clone`; `false` is `goto err`. -/
def pgtClonePage (src dst addr : U64) : P Bool := do
  match ← pgtWalk src addr false with
  | none => return true
  | some srcpte =>
    let pte ← loadPte srcpte
    if pte &&& PTE_V = 0 then return true
    let pa := pte2pa pte
    match ← pgtWalk dst addr true with
    | none => return false
    | some dstpte =>
      -- remove write bit
      let pte ← loadPte srcpte
      storePte srcpte (pte &&& ~~~PTE_W)
      let pte ← loadPte srcpte
      storePte dstpte pte
      kincref pa
      return true

/-- `pgt_clone`: `true` on success. -/
def pgtClone (src dst vastart vaend : U64) : P Bool := do
  panicIf (badRange vastart vaend) "pgt_clone: Invalid range\n"
  match ← loopWhile (fun i => pgtClonePage src dst (pageNo vastart i)) 0
      (pagesIn vastart vaend) with
  | none => return true
  | some i =>
    pgtDeallocunmap dst vastart (pageNo vastart i)
    return false

end Xv6
