import Xv6.Lib.Bytes
import Xv6.Lib.Cycle
import Xv6.Lib.Run
import Xv6.Lib.Wp

/-!
# The user heap

The allocator of `user/umalloc.c`: a circular list of free blocks threaded through their headers and
sorted by address, a roving pointer `freep` into it, and `sbrk` for more.  Memory is bytes and a
header is read and written in place: a 64-bit `ptr` and a 32-bit `size` that counts headers, so that
sums of sizes wrap.  Pointers are numbers; with user addresses below `2 ^ 38` and sizes below
`2 ^ 32` no pointer sum wraps.

Both loops of the source walk the list; they get a bound no list can exceed, and running out of it
is the only way to stop.
-/

namespace Xv6.Umalloc

open Wp Bytes

abbrev Mem := ℕ → Byte

/-- `p->s.ptr` -/
def ptr (m : Mem) (p : ℕ) : ℕ := (loadW 64 m p).toNat

/-- `p->s.size` -/
def size (m : Mem) (p : ℕ) : ℕ := (loadW 32 m (p + 8)).toNat

/-- `p->s.ptr = v` -/
def setPtr (m : Mem) (p v : ℕ) : Mem := storeW m p (BitVec.ofNat 64 v)

/-- `p->s.size = v`, cut to a `uint` -/
def setSize (m : Mem) (p v : ℕ) : Mem := storeW m (p + 8) (BitVec.ofNat 32 v)

/-- `p + n` for a `Header *p` -/
def plus (p n : ℕ) : ℕ := p + 16 * n

/-- The memory of the process, the static `freep`, and what `sbrk` has returned so far: addresses
with numbers of bytes. -/
structure Heap where
  mem : Mem
  freep : ℕ
  brk : List (ℕ × ℕ)

/-- A loop that did not end. -/
inductive Stop
  | diverge
  deriving DecidableEq, Repr

abbrev M := Prog Heap Stop

def Heap.setPtr (s : Heap) (p v : ℕ) : Heap := { s with mem := Umalloc.setPtr s.mem p v }

def Heap.setSize (s : Heap) (p v : ℕ) : Heap := { s with mem := Umalloc.setSize s.mem p v }

/-- The number of pointers: no list is longer. -/
@[irreducible]
def steps : ℕ := 2 ^ 64

/-- The search loop of `free`: the node of the list after which `bp` belongs. -/
def search (bp : ℕ) : ℕ → ℕ → M ℕ
  | 0, _ => throw .diverge
  | fuel + 1, p => do
    let n := ptr (← get).mem p
    if p < bp ∧ bp < n then return p
    if n ≤ p ∧ (p < bp ∨ bp < n) then return p
    search bp fuel n

/-- The first test of `free`: join the block with the node after it, or link it to that node. -/
def joinUpper (bp p : ℕ) : M Unit := do
  let m := (← get).mem
  if plus bp (size m bp) = ptr m p then
    modify fun s => s.setSize bp (size s.mem bp + size s.mem (ptr s.mem p))
    modify fun s => s.setPtr bp (ptr s.mem (ptr s.mem p))
  else
    modify fun s => s.setPtr bp (ptr s.mem p)

/-- The second test of `free`: join the block with the node before it, or link that node to it. -/
def joinLower (bp p : ℕ) : M Unit := do
  let m := (← get).mem
  if plus p (size m p) = bp then
    modify fun s => s.setSize p (size s.mem p + size s.mem bp)
    modify fun s => s.setPtr p (ptr s.mem bp)
  else
    modify fun s => s.setPtr p bp

def free (ap : ℕ) : M Unit := do
  let bp := ap - 16
  let p ← search bp (steps + 1) (← get).freep
  joinUpper bp p
  joinLower bp p
  modify fun s => { s with freep := p }

/-- What the system answers to `sbrk`, given the memory it has granted and its `int` argument:
`none` is `-1`, an address the end of the heap before the call. -/
abbrev Sbrk := List (ℕ × ℕ) → BitVec 32 → Option ℕ

/-- The memory granted once the end of the heap has moved by `n` from `hp`: what comes in is at
`hp`, and moving down takes back what lies above the new end. -/
def moveBrk (hp : ℕ) (n : ℤ) (brk : List (ℕ × ℕ)) : List (ℕ × ℕ) :=
  if 0 ≤ n then (hp, n.toNat) :: brk
  else brk.map fun r => (r.1, min r.2 (hp + n - r.1).toNat)

/-- The units `morecore` asks for. -/
def coreUnits (nu : ℕ) : ℕ := if nu < 4096 then 4096 else nu

/-- The argument of `sbrk`: the 64-bit product, cut to an `int`. -/
def coreBytes (nu : ℕ) : BitVec 32 := BitVec.ofNat 32 (16 * coreUnits nu)

def morecore (sbrk : Sbrk) (nu : ℕ) : M ℕ := do
  let n := coreBytes nu
  let nu := coreUnits nu
  match sbrk (← get).brk n with
  | none => return 0
  | some hp =>
    modify fun s => { s with brk := moveBrk hp n.toInt s.brk }
    modify fun s => s.setSize hp nu
    free (plus hp 1)
    return (← get).freep

/-- The headers taken by `nbytes` bytes, with the block's own. -/
def unitsOf (nbytes : BitVec 32) : ℕ := (nbytes.toNat + 16 - 1) / 16 + 1

/-- The body of the loop of `malloc` where the block at `p` is large enough: unlink it, or cut off
its tail. -/
def take (nunits prevp p : ℕ) : M ℕ := do
  let q ← if size (← get).mem p = nunits then do
      modify fun s => s.setPtr prevp (ptr s.mem p)
      pure p
    else do
      modify fun s => s.setSize p (size s.mem p - nunits)
      let q := plus p (size (← get).mem p)
      modify fun s => s.setSize q nunits
      pure q
  modify fun s => { s with freep := prevp }
  return plus q 1

/-- The loop of `malloc`. -/
def scan (sbrk : Sbrk) (nunits : ℕ) : ℕ → ℕ → ℕ → M ℕ
  | 0, _, _ => throw .diverge
  | fuel + 1, prevp, p => do
    let s ← get
    if nunits ≤ size s.mem p then take nunits prevp p
    else if p = s.freep then
      let p ← morecore sbrk nunits
      if p = 0 then return 0
      scan sbrk nunits fuel p (ptr (← get).mem p)
    else scan sbrk nunits fuel p (ptr s.mem p)

/-- `malloc`, with the static header `base` at the address `base`. -/
def malloc (base : ℕ) (sbrk : Sbrk) (nbytes : BitVec 32) : M ℕ := do
  if (← get).freep = 0 then
    modify fun s => { s.setPtr base base with freep := base }
    modify fun s => s.setSize base 0
  let prevp := (← get).freep
  scan sbrk (unitsOf nbytes) (2 * steps + 3) prevp (ptr (← get).mem prevp)

/-! ### Headers in memory -/

section Headers

variable {m : Mem} {p q v : ℕ}

theorem ptr_setPtr (hv : v < 2 ^ 64) : ptr (setPtr m p v) p = v := by
  rw [ptr, setPtr, loadW_storeW (by decide), BitVec.toNat_ofNat, Nat.mod_eq_of_lt hv]

theorem size_setSize (hv : v < 2 ^ 32) : size (setSize m p v) p = v := by
  rw [size, setSize, loadW_storeW (by decide), BitVec.toNat_ofNat, Nat.mod_eq_of_lt hv]

theorem ptr_setPtr_of_apart (h : p + 16 ≤ q ∨ q + 16 ≤ p) : ptr (setPtr m p v) q = ptr m q := by
  rw [ptr, ptr, setPtr, loadW_storeW_of_disjoint (by omega)]

theorem size_setSize_of_apart (h : p + 16 ≤ q ∨ q + 16 ≤ p) :
    size (setSize m p v) q = size m q := by
  rw [size, size, setSize, loadW_storeW_of_disjoint (by omega)]

theorem ptr_setSize_of_apart (h : p = q ∨ p + 16 ≤ q ∨ q + 16 ≤ p) :
    ptr (setSize m p v) q = ptr m q := by
  rw [ptr, ptr, setSize, loadW_storeW_of_disjoint (by omega)]

theorem size_setPtr_of_apart (h : p = q ∨ p + 16 ≤ q ∨ q + 16 ≤ p) :
    size (setPtr m p v) q = size m q := by
  rw [size, size, setPtr, loadW_storeW_of_disjoint (by omega)]

end Headers

/-! ### Blocks

The heap as sets: the free headers `F`, with `base` among them, the headers `A` of the blocks handed
out, and the bytes `got` obtained from `sbrk`.  `X` are the free blocks that may still touch the
next one; it is empty between calls. -/

structure Arena (base : ℕ) (F A X got : Finset ℕ) (next sz : ℕ → ℕ) : Prop where
  base_mem : base ∈ F
  cycle : Cycle.Sorted F next
  base_size : sz base = 0
  pos : ∀ a ∈ F ∪ A, a ≠ base → 0 < sz a
  low : ∀ a ∈ F ∪ A, a ≠ base → base + 16 ≤ a
  apart : ∀ a ∈ F ∪ A, ∀ b ∈ F ∪ A, a < b → plus a (sz a) ≤ b
  gap : ∀ a ∈ F, ∀ b ∈ F, a < b → plus a (sz a) = b → a ∈ X
  disj : Disjoint F A
  cover : ∀ x, x ∈ got ↔ ∃ a ∈ F ∪ A, a ≤ x ∧ x < plus a (sz a)

namespace Arena

variable {base : ℕ} {F A X got : Finset ℕ} {next sz : ℕ → ℕ} {a b p : ℕ}

theorem base_notMem (h : Arena base F A X got next sz) : base ∉ A := fun hb =>
  Finset.disjoint_left.1 h.disj h.base_mem hb

theorem ne_base (h : Arena base F A X got next sz) (ha : a ∈ A) : a ≠ base := fun he =>
  h.base_notMem (he ▸ ha)

/-- Headers do not overlap. -/
theorem headers (h : Arena base F A X got next sz) (ha : a ∈ F ∪ A) (hb : b ∈ F ∪ A)
    (hne : a ≠ b) : a + 16 ≤ b ∨ b + 16 ≤ a := by
  have key : ∀ {a b}, a ∈ F ∪ A → b ∈ F ∪ A → a < b → a + 16 ≤ b := by
    intro a b ha hb hlt
    by_cases hab : a = base
    · rw [hab]
      exact h.low b hb (by omega)
    · have h1 := h.apart a ha b hb hlt
      have h2 := h.pos a ha hab
      unfold plus at h1
      omega
  rcases lt_or_gt_of_ne hne with hlt | hlt
  · exact Or.inl (key ha hb hlt)
  · exact Or.inr (key hb ha hlt)

/-- Blocks are disjoint parts of the memory obtained. -/
theorem sum_le (h : Arena base F A X got next sz) {S : Finset ℕ} (hS : S ⊆ F ∪ A) :
    ∑ a ∈ S, 16 * sz a ≤ got.card := by
  have hsub : S.biUnion (fun a => Finset.Ico a (plus a (sz a))) ⊆ got := by
    intro x hx
    obtain ⟨a, ha, hxa⟩ := Finset.mem_biUnion.1 hx
    exact (h.cover x).2 ⟨a, hS ha, Finset.mem_Ico.1 hxa⟩
  have hdisj : ∀ a ∈ S, ∀ b ∈ S, a ≠ b →
      Disjoint (Finset.Ico a (plus a (sz a))) (Finset.Ico b (plus b (sz b))) := by
    intro a ha b hb hne
    rw [Finset.disjoint_left]
    intro x hxa hxb
    rw [Finset.mem_Ico] at hxa hxb
    rcases lt_or_gt_of_ne hne with hlt | hlt
    · have := h.apart a (hS ha) b (hS hb) hlt
      omega
    · have := h.apart b (hS hb) a (hS ha) hlt
      omega
  have hcard := Finset.card_le_card hsub
  rw [Finset.card_biUnion hdisj] at hcard
  refine le_trans (le_of_eq (Finset.sum_congr rfl fun a _ => ?_)) hcard
  rw [Nat.card_Ico, plus, Nat.add_sub_cancel_left]

theorem congr (h : Arena base F A X got next sz) {next' sz' : ℕ → ℕ}
    (hn : ∀ a ∈ F, next' a = next a) (hs : ∀ a ∈ F ∪ A, sz' a = sz a) :
    Arena base F A X got next' sz' := by
  have hF : ∀ a ∈ F, a ∈ F ∪ A := fun a ha => Finset.mem_union_left _ ha
  refine ⟨h.base_mem, h.cycle.congr hn, ?_, ?_, h.low, ?_, ?_, h.disj, ?_⟩
  · rw [hs base (hF _ h.base_mem)]
    exact h.base_size
  · intro a ha hne
    rw [hs a ha]
    exact h.pos a ha hne
  · intro a ha b hb hlt
    rw [hs a ha]
    exact h.apart a ha b hb hlt
  · intro a ha b hb hlt he
    rw [hs a (hF a ha)] at he
    exact h.gap a ha b hb hlt he
  · intro x
    rw [h.cover x]
    refine exists_congr fun a => and_congr_right fun ha => ?_
    rw [hs a ha]

/-- Where a block handed out fits, the node before it is below it. -/
theorem lt_of_between (h : Arena base F A X got next sz) (hp : p ∈ F) (hb : b ∈ A)
    (hf : Cycle.Between p b (next p)) : p < b := by
  have hlow := h.low b (Finset.mem_union_right _ hb) (h.ne_base hb)
  have hbase := h.cycle.empty p hp base h.base_mem
  unfold Cycle.Between at hf hbase
  omega

/-- A block handed out goes on the list, after the node below it. -/
theorem link (h : Arena base F A ∅ got next sz) (hp : p ∈ F) (hb : b ∈ A)
    (hf : Cycle.Between p b (next p)) :
    Arena base (insert b F) (A.erase b) {p, b} got
      (Function.update (Function.update next b (next p)) p b) sz := by
  have hbF : b ∉ F := Finset.disjoint_right.1 h.disj hb
  have hpb := h.lt_of_between hp hb hf
  have hU : insert b F ∪ A.erase b = F ∪ A := by
    ext x
    by_cases hx : x = b <;> simp [hx, hb]
  refine ⟨Finset.mem_insert_of_mem h.base_mem, h.cycle.insert hp hbF hf, h.base_size, ?_, ?_, ?_,
    ?_, ?_, ?_⟩
  · rw [hU]; exact h.pos
  · rw [hU]; exact h.low
  · rw [hU]; exact h.apart
  · intro x hx y hy hlt he
    rcases Finset.mem_insert.1 hx with rfl | hxF
    · simp
    rcases Finset.mem_insert.1 hy with rfl | hyF
    · -- only the node before the new one can reach up to it
      by_cases hxp : x = p
      · simp [hxp]
      · exfalso
        have hno := h.cycle.empty p hp x hxF
        have hle : x < p := by
          unfold Cycle.Between at hf hno
          omega
        have := h.apart x (Finset.mem_union_left _ hxF) p (Finset.mem_union_left _ hp) hle
        omega
    · exact absurd (h.gap x hxF y hyF hlt he) (Finset.notMem_empty x)
  · rw [Finset.disjoint_insert_left]
    exact ⟨Finset.notMem_erase _ _, h.disj.mono_right (Finset.erase_subset _ _)⟩
  · rw [hU]; exact h.cover

/-- A block that does not reach the next one. -/
theorem settle (h : Arena base F A X got next sz) (ha : a ∈ F)
    (hne : a < next a → plus a (sz a) ≠ next a) : Arena base F A (X.erase a) got next sz where
  __ := h
  gap x hx y hy hlt he := by
    refine Finset.mem_erase.2 ⟨?_, h.gap x hx y hy hlt he⟩
    rintro rfl
    obtain ⟨h1, h2⟩ := h.cycle.next_le ha hy hlt
    have := h.apart x (Finset.mem_union_left _ ha) _ (Finset.mem_union_left _ (h.cycle.mem x ha)) h1
    exact hne h1 (by omega)

/-- A block that reaches the next one swallows it. -/
theorem merge (h : Arena base F A X got next sz) (ha : a ∈ F) (hab : a ≠ base)
    (he : plus a (sz a) = next a) (hX : next a ∉ X) :
    Arena base (F.erase (next a)) A (X.erase a) got (Function.update next a (next (next a)))
      (Function.update sz a (sz a + sz (next a))) := by
  have haU : a ∈ F ∪ A := Finset.mem_union_left _ ha
  have hnF := h.cycle.mem a ha
  have hnU : next a ∈ F ∪ A := Finset.mem_union_left _ hnF
  have hpos := h.pos a haU hab
  have hlow := h.low a haU hab
  have hlt : a < next a := by
    unfold plus at he
    omega
  have hnA : next a ∉ A := Finset.disjoint_left.1 h.disj hnF
  have hsub : ∀ x ∈ F.erase (next a) ∪ A, x ∈ F ∪ A ∧ x ≠ next a := by
    intro x hx
    rcases Finset.mem_union.1 hx with hx | hx
    · exact ⟨Finset.mem_union_left _ (Finset.mem_of_mem_erase hx), Finset.ne_of_mem_erase hx⟩
    · exact ⟨Finset.mem_union_right _ hx, fun he => hnA (he ▸ hx)⟩
  have hsup : ∀ x ∈ F ∪ A, x ≠ next a → x ∈ F.erase (next a) ∪ A := by
    intro x hx hne
    rcases Finset.mem_union.1 hx with hx | hx
    · exact Finset.mem_union_left _ (Finset.mem_erase.2 ⟨hne, hx⟩)
    · exact Finset.mem_union_right _ hx
  -- the block now ends where the next one ended
  have hend : plus a (sz a + sz (next a)) = plus (next a) (sz (next a)) := by
    rw [← he]
    unfold plus
    omega
  refine ⟨Finset.mem_erase.2 ⟨by omega, h.base_mem⟩, h.cycle.erase ha hlt.ne', ?_, ?_, ?_, ?_, ?_,
    h.disj.mono_left (Finset.erase_subset _ _), ?_⟩
  · rw [Function.update_of_ne hab.symm]
    exact h.base_size
  · intro x hx hne
    by_cases hxa : x = a
    · rw [hxa, Function.update_self]
      omega
    · rw [Function.update_of_ne hxa]
      exact h.pos x (hsub x hx).1 hne
  · exact fun x hx => h.low x (hsub x hx).1
  · intro x hx y hy hxy
    by_cases hxa : x = a
    · subst hxa
      rw [Function.update_self, hend]
      have h1 := h.apart x haU y (hsub y hy).1 hxy
      exact h.apart _ hnU y (hsub y hy).1 (lt_of_le_of_ne (he ▸ h1) (hsub y hy).2.symm)
    · rw [Function.update_of_ne hxa]
      exact h.apart x (hsub x hx).1 y (hsub y hy).1 hxy
  · intro x hx y hy hxy hxe
    have hxF := Finset.mem_of_mem_erase hx
    have hyF := Finset.mem_of_mem_erase hy
    by_cases hxa : x = a
    · exfalso
      subst hxa
      rw [Function.update_self, hend] at hxe
      have h1 := h.apart x haU y (Finset.mem_union_left _ hyF) hxy
      have h2 : next x < y := lt_of_le_of_ne (he ▸ h1) (Finset.ne_of_mem_erase hy).symm
      exact hX (h.gap _ hnF y hyF h2 hxe)
    · rw [Function.update_of_ne hxa] at hxe
      exact Finset.mem_erase.2 ⟨hxa, h.gap x hxF y hyF hxy hxe⟩
  · intro x
    rw [h.cover x]
    constructor
    · rintro ⟨c, hc, h1, h2⟩
      by_cases hcn : c = next a
      · subst hcn
        refine ⟨a, hsup a haU hlt.ne, by omega, ?_⟩
        rw [Function.update_self, hend]
        exact h2
      · by_cases hca : c = a
        · subst hca
          refine ⟨c, hsup c haU hlt.ne, h1, ?_⟩
          rw [Function.update_self, hend]
          unfold plus at h2 he ⊢
          omega
        · exact ⟨c, hsup c hc hcn, h1, by rwa [Function.update_of_ne hca]⟩
    · rintro ⟨c, hc, h1, h2⟩
      by_cases hca : c = a
      · subst hca
        rw [Function.update_self, hend] at h2
        rcases lt_or_ge x (next c) with h3 | h3
        · exact ⟨c, haU, h1, he ▸ h3⟩
        · exact ⟨next c, hnU, h3, h2⟩
      · rw [Function.update_of_ne hca] at h2
        exact ⟨c, (hsub c hc).1, h1, h2⟩

/-- A whole free block is handed out. -/
theorem unlink (h : Arena base F A ∅ got next sz) (hp : p ∈ F) (hn : next p ≠ base) :
    Arena base (F.erase (next p)) (insert (next p) A) ∅ got
      (Function.update next p (next (next p))) sz := by
  have hnF := h.cycle.mem p hp
  have hnp : next p ≠ p := by
    intro he
    exact hn (he.trans (h.cycle.eq_of_next_self hp he h.base_mem).symm)
  have hU : F.erase (next p) ∪ insert (next p) A = F ∪ A := by
    ext x
    by_cases hx : x = next p <;> simp [hx, hnF]
  refine ⟨Finset.mem_erase.2 ⟨hn.symm, h.base_mem⟩, h.cycle.erase hp hnp, h.base_size, ?_, ?_, ?_,
    ?_, ?_, ?_⟩
  · rw [hU]; exact h.pos
  · rw [hU]; exact h.low
  · rw [hU]; exact h.apart
  · exact fun x hx y hy =>
      h.gap x (Finset.mem_of_mem_erase hx) y (Finset.mem_of_mem_erase hy)
  · rw [Finset.disjoint_insert_right]
    exact ⟨Finset.notMem_erase _ _, h.disj.mono_left (Finset.erase_subset _ _)⟩
  · rw [hU]; exact h.cover

/-- Memory that no block has any of comes in as a block handed out. -/
theorem add (h : Arena base F A ∅ got next sz) {q n : ℕ} (hq : base + 16 ≤ q) (hn : 0 < n)
    (hsep : ∀ x ∈ F ∪ A, plus x (sz x) ≤ q ∨ plus q n ≤ x) :
    q ∉ F ∪ A ∧
      Arena base F (insert q A) ∅ (Finset.Ico q (plus q n) ∪ got) next
      (Function.update sz q n) := by
  have hle : ∀ x k, x ≤ plus x k := fun x k => Nat.le_add_right x _
  have hne : ∀ x ∈ F ∪ A, x ≠ q := by
    intro x hx he
    have hpos := h.pos x hx (by omega)
    have := hsep x hx
    unfold plus at this
    omega
  have hUq : ∀ x, x ∈ F ∪ insert q A ↔ x = q ∨ x ∈ F ∪ A := by
    intro x
    simp only [Finset.mem_union, Finset.mem_insert]
    tauto
  have hso : ∀ x ∈ F ∪ A, Function.update sz q n x = sz x := fun x hx =>
    Function.update_of_ne (hne x hx) _ _
  have hsq : Function.update sz q n q = n := Function.update_self ..
  generalize Function.update sz q n = sz' at hso hsq ⊢
  refine ⟨fun hqU => hne q hqU rfl, h.base_mem, h.cycle, ?_, ?_, ?_, ?_, ?_, ?_, ?_⟩
  · rw [hso base (Finset.mem_union_left _ h.base_mem)]
    exact h.base_size
  · intro x hx hxb
    rcases (hUq x).1 hx with rfl | hxU
    · omega
    · rw [hso x hxU]
      exact h.pos x hxU hxb
  · intro x hx hxb
    rcases (hUq x).1 hx with rfl | hxU
    · exact hq
    · exact h.low x hxU hxb
  · intro x hx y hy hxy
    rcases (hUq x).1 hx with rfl | hxU
    · have hyU := ((hUq y).1 hy).resolve_left hxy.ne'
      have h1 := hsep y hyU
      have h2 := hle y (sz y)
      rw [hsq]
      omega
    · rw [hso x hxU]
      rcases (hUq y).1 hy with rfl | hyU
      · have h1 := hsep x hxU
        have h2 := hle y n
        omega
      · exact h.apart x hxU y hyU hxy
  · intro x hx y hy hxy he
    rw [hso x (Finset.mem_union_left _ hx)] at he
    exact h.gap x hx y hy hxy he
  · rw [Finset.disjoint_insert_right]
    exact ⟨fun hqF => hne q (Finset.mem_union_left _ hqF) rfl, h.disj⟩
  · intro x
    rw [Finset.mem_union, Finset.mem_Ico, h.cover x]
    constructor
    · rintro (⟨h1, h2⟩ | ⟨c, hc, h1, h2⟩)
      · exact ⟨q, (hUq q).2 (Or.inl rfl), h1, by rwa [hsq]⟩
      · exact ⟨c, (hUq c).2 (Or.inr hc), h1, by rwa [hso c hc]⟩
    · rintro ⟨c, hc, h1, h2⟩
      rcases (hUq c).1 hc with rfl | hcU
      · exact Or.inl ⟨h1, by rwa [hsq] at h2⟩
      · exact Or.inr ⟨c, hcU, h1, by rwa [hso c hcU] at h2⟩

/-- A free block gives up its tail. -/
theorem shrink (h : Arena base F A ∅ got next sz) (ha : a ∈ F) {n : ℕ} (hn : 0 < n)
    (hlt : n < sz a) :
    Arena base F A ∅ (got \ Finset.Ico (plus a (sz a - n)) (plus a (sz a))) next
      (Function.update sz a (sz a - n)) := by
  have haU : a ∈ F ∪ A := Finset.mem_union_left _ ha
  have hab : a ≠ base := by
    rintro rfl
    rw [h.base_size] at hlt
    omega
  have hq : a ≤ plus a (sz a - n) ∧ plus a (sz a - n) < plus a (sz a) := by
    unfold plus
    omega
  refine ⟨h.base_mem, h.cycle, ?_, ?_, h.low, ?_, ?_, h.disj, ?_⟩
  · rw [Function.update_of_ne hab.symm]
    exact h.base_size
  · intro x hx hxb
    by_cases hxa : x = a
    · rw [hxa, Function.update_self]
      omega
    · rw [Function.update_of_ne hxa]
      exact h.pos x hx hxb
  · intro x hx y hy hxy
    have h1 := h.apart x hx y hy hxy
    by_cases hxa : x = a
    · subst hxa
      rw [Function.update_self]
      omega
    · rwa [Function.update_of_ne hxa]
  · intro x hx y hy hxy he
    by_cases hxa : x = a
    · subst hxa
      rw [Function.update_self] at he
      have := h.apart x haU y (Finset.mem_union_left _ hy) hxy
      omega
    · rw [Function.update_of_ne hxa] at he
      exact h.gap x hx y hy hxy he
  · intro x
    rw [Finset.mem_sdiff, Finset.mem_Ico, h.cover x]
    constructor
    · rintro ⟨⟨c, hc, h1, h2⟩, h3⟩
      refine ⟨c, hc, h1, ?_⟩
      by_cases hca : c = a
      · subst hca
        rw [Function.update_self]
        omega
      · rwa [Function.update_of_ne hca]
    · rintro ⟨c, hc, h1, h2⟩
      by_cases hca : c = a
      · subst hca
        rw [Function.update_self] at h2
        exact ⟨⟨c, hc, h1, by omega⟩, by omega⟩
      · rw [Function.update_of_ne hca] at h2
        refine ⟨⟨c, hc, h1, h2⟩, ?_⟩
        rcases lt_or_gt_of_ne hca with h3 | h3
        · have := h.apart c hc a haU h3
          omega
        · have := h.apart a haU c hc h3
          omega

/-- The tail of a free block is handed out. -/
theorem split (h : Arena base F A ∅ got next sz) (ha : a ∈ F) {n : ℕ} (hn : 0 < n)
    (hlt : n < sz a) :
    plus a (sz a - n) ∉ F ∪ A ∧
      Arena base F (insert (plus a (sz a - n)) A) ∅ got next
        (Function.update (Function.update sz a (sz a - n)) (plus a (sz a - n)) n) := by
  have haU : a ∈ F ∪ A := Finset.mem_union_left _ ha
  have hab : a ≠ base := by
    rintro rfl
    rw [h.base_size] at hlt
    omega
  have hlow := h.low a haU hab
  have hend : plus (plus a (sz a - n)) n = plus a (sz a) := by
    unfold plus
    omega
  obtain ⟨hnew, hadd⟩ := (h.shrink ha hn hlt).add (q := plus a (sz a - n)) (n := n)
    (by unfold plus; omega) hn fun x hx => by
      by_cases hxa : x = a
      · left
        rw [hxa, Function.update_self]
      · rw [Function.update_of_ne hxa, hend]
        rcases lt_or_gt_of_ne hxa with h1 | h1
        · have := h.apart x hx a haU h1
          unfold plus at this ⊢
          omega
        · exact Or.inr (h.apart a haU x hx h1)
  have hgot : Finset.Ico (plus a (sz a - n)) (plus a (sz a)) ⊆ got := by
    intro x hx
    rw [Finset.mem_Ico] at hx
    refine (h.cover x).2 ⟨a, haU, ?_, hx.2⟩
    unfold plus at hx
    omega
  rw [hend, Finset.union_sdiff_of_subset hgot] at hadd
  exact ⟨hnew, hadd⟩

/-- Memory above everything obtained so far comes in as a block handed out. -/
theorem grow (h : Arena base F A ∅ got next sz) {r n : ℕ} (hr : base + 16 ≤ r)
    (habove : ∀ x ∈ got, x < r) (hn : 0 < n) :
    r ∉ F ∪ A ∧
      Arena base F (insert r A) ∅ (Finset.Ico r (plus r n) ∪ got) next
        (Function.update sz r n) := by
  refine h.add hr hn fun a ha => Or.inl ?_
  by_cases hab : a = base
  · rw [hab, h.base_size]
    unfold plus
    omega
  · -- the last byte of the block is below the new memory
    have hpos := h.pos a ha hab
    have hlast : plus a (sz a) - 1 ∈ got :=
      (h.cover _).2 ⟨a, ha, by unfold plus; omega, by unfold plus; omega⟩
    have := habove _ hlast
    omega

/-- The empty list. -/
theorem nil (hn : next base = base) (hs : sz base = 0) :
    Arena base {base} ∅ ∅ ∅ next sz := by
  refine ⟨by simp, Cycle.Sorted.singleton hn, hs, by simp, by simp, by simp, by simp, by simp, ?_⟩
  intro x
  simp only [Finset.notMem_empty, Finset.union_empty, Finset.mem_singleton, exists_eq_left, hs,
    plus, false_iff]
  omega

end Arena

/-! ### The headers as functions -/

/-- What the headers at `H` say. -/
def View (m : Mem) (H : Finset ℕ) (next sz : ℕ → ℕ) : Prop :=
  ∀ a ∈ H, ptr m a = next a ∧ size m a = sz a

/-- No two headers at `H` overlap. -/
def Apart (H : Finset ℕ) : Prop := ∀ a ∈ H, ∀ b ∈ H, a ≠ b → a + 16 ≤ b ∨ b + 16 ≤ a

namespace View

variable {m : Mem} {H : Finset ℕ} {next sz : ℕ → ℕ} {p v : ℕ}

theorem setPtr (h : View m H next sz) (hH : Apart H) (hp : p ∈ H) (hv : v < 2 ^ 64) :
    View (setPtr m p v) H (Function.update next p v) sz := by
  intro a ha
  by_cases hap : a = p
  · rw [hap, ptr_setPtr hv, size_setPtr_of_apart (Or.inl rfl), Function.update_self]
    exact ⟨rfl, (h p hp).2⟩
  · have hsep := hH p hp a ha (Ne.symm hap)
    rw [ptr_setPtr_of_apart hsep, size_setPtr_of_apart (Or.inr hsep), Function.update_of_ne hap]
    exact h a ha

theorem setSize (h : View m H next sz) (hH : Apart H) (hp : p ∈ H) (hv : v < 2 ^ 32) :
    View (setSize m p v) H next (Function.update sz p v) := by
  intro a ha
  by_cases hap : a = p
  · rw [hap, size_setSize hv, ptr_setSize_of_apart (Or.inl rfl), Function.update_self]
    exact ⟨(h p hp).1, rfl⟩
  · have hsep := hH p hp a ha (Ne.symm hap)
    rw [size_setSize_of_apart hsep, ptr_setSize_of_apart (Or.inr hsep), Function.update_of_ne hap]
    exact h a ha

end View

/-- The bytes obtained from `sbrk`. -/
def granted : List (ℕ × ℕ) → Finset ℕ
  | [] => ∅
  | r :: rs => Finset.Ico r.1 (r.1 + r.2) ∪ granted rs

theorem mem_granted {rs : List (ℕ × ℕ)} {x : ℕ} :
    x ∈ granted rs ↔ ∃ r ∈ rs, r.1 ≤ x ∧ x < r.1 + r.2 := by
  induction rs with
  | nil => simp [granted]
  | cons r rs ih => simp [granted, ih]

theorem card_granted_le (rs : List (ℕ × ℕ)) : (granted rs).card ≤ (rs.map Prod.snd).sum := by
  induction rs with
  | nil => simp [granted]
  | cons r rs ih =>
    have := Finset.card_union_le (Finset.Ico r.1 (r.1 + r.2)) (granted rs)
    rw [Nat.card_Ico] at this
    simp only [granted, List.map_cons, List.sum_cons]
    omega

/-- A list that `freep` points into and the blocks `A` handed out, whose headers lay claim to the
memory `got`. -/
structure Listed (base : ℕ) (F A got : Finset ℕ) (s : Heap) : Prop where
  arena : Arena base F A ∅ got (ptr s.mem) (size s.mem)
  freep_mem : s.freep ∈ F
  base_pos : 0 < base
  base_lt : base < 2 ^ 64
  below : ∀ x ∈ got, x < 2 ^ 64

namespace Listed

variable {base : ℕ} {F A got : Finset ℕ} {s : Heap} {a b p : ℕ}

theorem apart (h : Listed base F A got s) : Apart (F ∪ A) := fun _ ha _ hb hne =>
  h.arena.headers ha hb hne

theorem lt (h : Listed base F A got s) (ha : a ∈ F ∪ A) : a < 2 ^ 64 := by
  by_cases hab : a = base
  · rw [hab]
    exact h.base_lt
  · have hpos := h.arena.pos a ha hab
    exact h.below a ((h.arena.cover a).2 ⟨a, ha, le_rfl, by unfold plus; omega⟩)

theorem pos (h : Listed base F A got s) (ha : a ∈ F ∪ A) : 0 < a := by
  by_cases hab : a = base
  · rw [hab]
    exact h.base_pos
  · have := h.arena.low a ha hab
    omega

theorem card_le (h : Listed base F A got s) : F.card ≤ steps := by
  have hsub : F ⊆ Finset.range (2 ^ 64) := fun a ha =>
    Finset.mem_range.2 (h.lt (Finset.mem_union_left _ ha))
  rw [steps, ← Finset.card_range (2 ^ 64)]
  exact Finset.card_le_card hsub

theorem of_arena (h : Listed base F A got s) {F' A' : Finset ℕ} {t : Heap}
    (hA : Arena base F' A' ∅ got (ptr t.mem) (size t.mem)) (hf : t.freep ∈ F') :
    Listed base F' A' got t :=
  ⟨hA, hf, h.base_pos, h.base_lt, h.below⟩

/-- The nodes are those met on the way around the list. -/
theorem mem_iff (h : Listed base F A got s) : a ∈ F ↔ ∃ k, (ptr s.mem)^[k] s.freep = a := by
  constructor
  · intro ha
    obtain ⟨k, -, hk⟩ := h.arena.cycle.reach h.freep_mem ha
    exact ⟨k, hk⟩
  · rintro ⟨k, rfl⟩
    exact Function.Iterate.rec (· ∈ F) h.freep_mem h.arena.cycle.mem k

end Listed

/-- The block at `b` still has a size once it is joined with its neighbours. -/
structure Fits (F : Finset ℕ) (sz : ℕ → ℕ) (b : ℕ) : Prop where
  lower : ∀ p ∈ F, p < b → sz p + sz b < 2 ^ 32
  both : ∀ p ∈ F, ∀ n ∈ F, p < b → b < n → sz p + (sz b + sz n) < 2 ^ 32

/-- The heap between calls: the headers lay claim to the memory granted, which is less than
`2 ^ 32` headers. -/
structure Ready (base : ℕ) (F A : Finset ℕ) (s : Heap) : Prop where
  listed : Listed base F A (granted s.brk) s
  few : (s.brk.map Prod.snd).sum < 2 ^ 36

theorem Ready.fits {base : ℕ} {F A : Finset ℕ} {s : Heap} {b : ℕ} (h : Ready base F A s)
    (hb : b ∈ A) : Fits F (size s.mem) b := by
  have hcard : (granted s.brk).card < 2 ^ 36 := (card_granted_le s.brk).trans_lt h.few
  have hbU : b ∈ F ∪ A := Finset.mem_union_right _ hb
  constructor
  · intro p hp hpb
    have hS : ({p, b} : Finset ℕ) ⊆ F ∪ A := by
      simp [Finset.insert_subset_iff, hp, hbU]
    have hsum := h.listed.arena.sum_le hS
    rw [Finset.sum_pair hpb.ne] at hsum
    omega
  · intro p hp n hn hpb hbn
    have hS : ({p, b, n} : Finset ℕ) ⊆ F ∪ A := by
      simp [Finset.insert_subset_iff, hp, hbU, hn]
    have hsum := h.listed.arena.sum_le hS
    rw [Finset.sum_insert (by simp [hpb.ne, (hpb.trans hbn).ne]), Finset.sum_pair hbn.ne] at hsum
    omega

/-! ### `free` -/

section Free

variable {base : ℕ} {F A got : Finset ℕ} {s : Heap} {b p : ℕ}

theorem wp_search_succ {fuel : ℕ} {E : Stop → Prop} {Q : ℕ → Heap → Prop} :
    wp (search b (fuel + 1) p) E Q s ↔
      if Cycle.Between p b (ptr s.mem p) then Q p s else wp (search b fuel (ptr s.mem p)) E
        Q s := by
  rw [search, wp_bind, wp_get, wp_ite, wp_ite, wp_pure]
  by_cases h1 : p < b ∧ b < ptr s.mem p
  · rw [if_pos h1, if_pos (show Cycle.Between p b (ptr s.mem p) from Or.inl h1)]
  · rw [if_neg h1]
    by_cases h2 : ptr s.mem p ≤ p ∧ (p < b ∨ b < ptr s.mem p)
    · rw [if_pos h2, if_pos (show Cycle.Between p b (ptr s.mem p) from Or.inr h2)]
    · rw [if_neg h2, if_neg (show ¬ Cycle.Between p b (ptr s.mem p) from not_or.2 ⟨h1, h2⟩)]

/-- The search ends, at a node after which the block belongs. -/
theorem wp_search (hc : Cycle.Sorted F (ptr s.mem)) {q k fuel : ℕ} (hp : p ∈ F)
    (hq : Cycle.Between q b (ptr s.mem q)) (hk : (ptr s.mem)^[k] p = q) (hfuel : k < fuel) :
    wp (search b fuel p) (fun _ => False)
      (fun r t => t = s ∧ r ∈ F ∧ Cycle.Between r b (ptr s.mem r)) s := by
  -- by induction on the steps that are left to the node `q`
  induction k generalizing p fuel with
  | zero =>
    obtain ⟨fuel, rfl⟩ : ∃ f, fuel = f + 1 := ⟨fuel - 1, by omega⟩
    obtain rfl : p = q := hk
    rw [wp_search_succ, if_pos hq]
    exact ⟨rfl, hp, hq⟩
  | succ k ih =>
    obtain ⟨fuel, rfl⟩ : ∃ f, fuel = f + 1 := ⟨fuel - 1, by omega⟩
    rw [wp_search_succ]
    split_ifs with h
    · exact ⟨rfl, hp, h⟩
    · rw [Function.iterate_succ_apply] at hk
      exact ih (hc.mem p hp) hk (by omega)

/-- After the first test the block is on the list but for the link from the node before it. -/
theorem wp_joinUpper (h : Listed base F A got s) (hp : p ∈ F) (hb : b ∈ A)
    (hf : Cycle.Between p b (ptr s.mem p)) (hfit : Fits F (size s.mem) b) :
    wp (joinUpper b p) (fun _ => False) (fun _ t => t.brk = s.brk ∧ ∃ w F' sz,
      Arena base F' (A.erase b) {p} got
        (Function.update (Function.update (ptr s.mem) b w) p b) sz ∧
      View t.mem (F ∪ A) (Function.update (ptr s.mem) b w) sz ∧
      p ∈ F' ∧ b ∈ F' ∧ F' ⊆ insert b F ∧ w < 2 ^ 64 ∧
      (∀ a, a ≠ b → sz a = size s.mem a) ∧ size s.mem b ≤ sz b ∧
      size s.mem p + sz b < 2 ^ 32 ∧ ((∀ a ∈ F, a < b) → sz b = size s.mem b)) s := by
  have hlink := h.arena.link hp hb hf
  have hpb := h.arena.lt_of_between hp hb hf
  have hpU : p ∈ F ∪ A := Finset.mem_union_left _ hp
  have hbU : b ∈ F ∪ A := Finset.mem_union_right _ hb
  have hnF := h.arena.cycle.mem p hp
  have hnU : ptr s.mem p ∈ F ∪ A := Finset.mem_union_left _ hnF
  have hv : View s.mem (F ∪ A) (ptr s.mem) (size s.mem) := fun _ _ => ⟨rfl, rfl⟩
  have hX : ({p, b} : Finset ℕ).erase b = {p} := by
    rw [Finset.pair_comm, Finset.erase_insert (by simpa using hpb.ne')]
  -- what the links say once the node before the block leads to it
  have hlinks : ∀ w, Function.update (Function.update (Function.update (ptr s.mem) b (ptr s.mem p))
      p b) b w = Function.update (Function.update (ptr s.mem) b w) p b := by
    intro w
    rw [Function.update_comm hpb.ne, Function.update_idem]
  have hnb : Function.update (Function.update (ptr s.mem) b (ptr s.mem p)) p b b = ptr s.mem p := by
    rw [Function.update_of_ne hpb.ne', Function.update_self]
  rw [joinUpper, wp_bind, wp_get, wp_ite]
  split_ifs with hup
  · have hbn : b < ptr s.mem p := by
      have hpos := h.arena.pos b hbU (h.arena.ne_base hb)
      unfold plus at hup
      omega
    have hnn : Function.update (Function.update (ptr s.mem) b (ptr s.mem p)) p b (ptr s.mem p)
        = ptr s.mem (ptr s.mem p) := by
      rw [Function.update_of_ne (hpb.trans hbn).ne', Function.update_of_ne hbn.ne']
    have hmerge := hlink.merge (Finset.mem_insert_self _ _) (h.arena.ne_base hb)
      (hup.trans hnb.symm) (by
        rw [hnb]
        simpa using ⟨(hpb.trans hbn).ne', hbn.ne'⟩)
    rw [hnb, hnn, hX, hlinks] at hmerge
    have hbF' : b ∈ (insert b F).erase (ptr s.mem p) :=
      Finset.mem_erase.2 ⟨hbn.ne, Finset.mem_insert_self _ _⟩
    have hboth := hfit.both p hp _ hnF hpb hbn
    have hsz : size s.mem b + size s.mem (ptr s.mem p) < 2 ^ 32 := by omega
    have hw : ptr s.mem (ptr s.mem p) < 2 ^ 64 :=
      h.lt (Finset.mem_union_left _ (h.arena.cycle.mem _ hnF))
    have hv1 := hv.setSize h.apart hbU hsz
    have hv2 := hv1.setPtr h.apart hbU hw
    simp only [wp_bind, wp_modify]
    refine ⟨rfl, _, _, _, hmerge, ?_, ?_, hbF', Finset.erase_subset _ _, hw, ?_, ?_, ?_, ?_⟩
    · simp only [Heap.setSize, Heap.setPtr]
      rw [(hv1 p hpU).1, (hv1 _ hnU).1]
      exact hv2
    · exact Finset.mem_erase.2 ⟨(hpb.trans hbn).ne, Finset.mem_insert_of_mem hp⟩
    · exact fun a ha => Function.update_of_ne ha _ _
    · rw [Function.update_self]
      omega
    · rwa [Function.update_self]
    · exact fun hall => absurd (hall _ hnF) hbn.asymm
  · have hset := hlink.settle (Finset.mem_insert_self b F) (fun _ => by rwa [hnb])
    rw [hX] at hset
    exact ⟨rfl, _, _, _, hset, hv.setPtr h.apart hbU (h.lt hnU), Finset.mem_insert_of_mem hp,
      Finset.mem_insert_self _ _, subset_rfl, h.lt hnU, fun _ _ => rfl, le_rfl,
      hfit.lower p hp hpb, fun _ => rfl⟩

/-- After the second test the block is on the list, or part of the node before it. -/
theorem wp_joinLower (h : Listed base F A got s) (hp : p ∈ F) (hb : b ∈ A)
    (hpb : p < b) {w : ℕ} {F' : Finset ℕ} {sz : ℕ → ℕ} {t : Heap} (hbrk : t.brk = s.brk)
    (hA : Arena base F' (A.erase b) {p} got
      (Function.update (Function.update (ptr s.mem) b w) p b) sz)
    (hv : View t.mem (F ∪ A) (Function.update (ptr s.mem) b w) sz)
    (hpF : p ∈ F') (hbF : b ∈ F') (hF' : F' ⊆ insert b F) (hw : w < 2 ^ 64)
    (hsz : sz p + sz b < 2 ^ 32) :
    wp (joinLower b p) (fun _ => False) (fun _ u => u.brk = s.brk ∧ ∃ F₂ c,
      Arena base F₂ (A.erase b) ∅ got (ptr u.mem) (size u.mem) ∧ p ∈ F₂ ∧
      (∀ a ∈ A, a ≠ b → size u.mem a = sz a) ∧ (c = p ∨ c = ptr u.mem p) ∧
      sz b ≤ size u.mem c ∧ plus c (size u.mem c) = plus b (sz b) ∧
      ∀ a ∈ F₂, a ≠ c → a ∈ F ∧ a ≠ b ∧ size u.mem a = sz a) t := by
  have hpU : p ∈ F ∪ A := Finset.mem_union_left _ hp
  have hbU : b ∈ F ∪ A := Finset.mem_union_right _ hb
  have hpA : p ∉ A := Finset.disjoint_left.1 h.arena.disj hp
  have hX : ({p} : Finset ℕ).erase p = ∅ := by simp
  have hsub : ∀ a ∈ F' ∪ A.erase b, a ∈ F ∪ A := by
    intro a ha
    rcases Finset.mem_union.1 ha with ha | ha
    · rcases Finset.mem_insert.1 (hF' ha) with rfl | ha
      · exact hbU
      · exact Finset.mem_union_left _ ha
    · exact Finset.mem_union_right _ (Finset.mem_of_mem_erase ha)
  have hnp : Function.update (Function.update (ptr s.mem) b w) p b p = b := Function.update_self ..
  rw [joinLower, wp_bind, wp_get, wp_ite, (hv p hpU).2]
  split_ifs with hdown
  · have hpbase : p ≠ base := by
      rintro rfl
      rw [hA.base_size] at hdown
      unfold plus at hdown
      omega
    have hmerge := hA.merge hpF hpbase (hdown.trans hnp.symm) (by
      rw [hnp]
      simpa using hpb.ne')
    have hnb : Function.update (Function.update (ptr s.mem) b w) p b b = w := by
      rw [Function.update_of_ne hpb.ne', Function.update_self]
    rw [hnp, hnb, hX, Function.update_idem] at hmerge
    have hpF₂ : p ∈ F'.erase b := Finset.mem_erase.2 ⟨hpb.ne, hpF⟩
    have hv1 := hv.setSize h.apart hpU hsz
    have hv2 := hv1.setPtr h.apart hpU hw
    simp only [wp_bind, wp_modify, Heap.setSize, Heap.setPtr]
    rw [(hv p hpU).2, (hv b hbU).2, (hv1 b hbU).1, Function.update_self]
    have hpsz := (hv2 p hpU).2
    rw [Function.update_self] at hpsz
    refine ⟨hbrk, F'.erase b, p, hmerge.congr ?_ ?_, hpF₂, ?_, Or.inl rfl, ?_, ?_, ?_⟩
    · exact fun a ha => (hv2 a (hsub a (Finset.mem_union_left _ (Finset.mem_of_mem_erase ha)))).1
    · intro a ha
      refine (hv2 a (hsub a ?_)).2
      exact Finset.union_subset_union (Finset.erase_subset _ _) subset_rfl ha
    · intro a ha hab
      rw [(hv2 a (Finset.mem_union_right _ ha)).2]
      have hap : a ≠ p := fun he => hpA (he ▸ ha)
      exact Function.update_of_ne hap _ _
    · rw [hpsz]
      omega
    · rw [hpsz]
      unfold plus at hdown ⊢
      omega
    · intro a ha hap
      obtain ⟨hab, haF⟩ := Finset.mem_erase.1 ha
      have haF' := Finset.mem_of_mem_insert_of_ne (hF' haF) hab
      exact ⟨haF', hab, (hv2 a (Finset.mem_union_left _ haF')).2.trans
        (Function.update_of_ne hap _ _)⟩
  · have hset := hA.settle hpF fun _ => by rwa [hnp]
    rw [hX] at hset
    have hv1 := hv.setPtr h.apart hpU (h.lt hbU)
    have hbsz : size (setPtr t.mem p b) b = sz b := (hv1 b hbU).2
    refine ⟨hbrk, F', b, hset.congr ?_ ?_, hpF, ?_, Or.inr ?_, hbsz.ge, ?_, ?_⟩
    · exact fun a ha => (hv1 a (hsub a (Finset.mem_union_left _ ha))).1
    · exact fun a ha => (hv1 a (hsub a ha)).2
    · exact fun a ha _ => (hv1 a (Finset.mem_union_right _ ha)).2
    · exact ((hv1 p hpU).1.trans hnp).symm
    · exact congrArg (plus b) hbsz
    · intro a ha hab
      have haF := Finset.mem_of_mem_insert_of_ne (hF' ha) hab
      exact ⟨haF, hab, (hv1 a (Finset.mem_union_left _ haF)).2⟩

/-- `free` puts a block on the list: it comes to lie in the node `c`, which is the one that `freep`
points to or the next; the other nodes are as before. -/
theorem wp_free (h : Listed base F A got s) (hb : b ∈ A) (hfit : Fits F (size s.mem) b) :
    wp (free (plus b 1)) (fun _ => False) (fun _ t => t.brk = s.brk ∧ ∃ F' c,
      Listed base F' (A.erase b) got t ∧ (∀ a ∈ A, a ≠ b → size t.mem a = size s.mem a) ∧
      (c = t.freep ∨ c = ptr t.mem t.freep) ∧ size s.mem b ≤ size t.mem c ∧
      (∀ a ∈ F', a ≠ c → a ∈ F ∧ size t.mem a = size s.mem a) ∧
      ((∀ a ∈ F, a < b) → plus c (size t.mem c) = plus b (size s.mem b))) s := by
  have hbF : b ∉ F := Finset.disjoint_right.1 h.arena.disj hb
  obtain ⟨q, hqF, hq⟩ := h.arena.cycle.exists_between ⟨_, h.freep_mem⟩ hbF
  obtain ⟨k, hk, hkq⟩ := h.arena.cycle.reach h.freep_mem hqF
  have hsearch := wp_search h.arena.cycle h.freep_mem hq hkq
    (Nat.lt_succ_of_le (hk.trans h.card_le))
  rw [free, show plus b 1 - 16 = b from Nat.add_sub_cancel b 16]
  simp only [wp_bind, wp_get, wp_modify]
  refine hsearch.mono ?_
  rintro p _ ⟨rfl, hp, hf⟩
  have hpb := h.arena.lt_of_between hp hb hf
  refine (wp_joinUpper h hp hb hf hfit).mono ?_
  rintro - t ⟨hbrk, w, F', sz, hA, hv, hpF, hbF', hF', hw, hsz, hszb, hsum, hlast⟩
  refine (wp_joinLower h hp hb hpb hbrk hA hv hpF hbF' hF' hw (by rwa [hsz p hpb.ne])).mono ?_
  rintro - u ⟨hbrk', F₂, c, hA₂, hpF₂, hszA, hc, hbig, hend, hrest⟩
  refine ⟨hbrk', F₂, c, h.of_arena hA₂ hpF₂, ?_, hc, hszb.trans hbig, ?_, ?_⟩
  · intro a ha hab
    rw [← hsz a hab]
    exact hszA a ha hab
  · intro a ha hac
    obtain ⟨haF, hab, hsa⟩ := hrest a ha hac
    exact ⟨haF, hsa.trans (hsz a hab)⟩
  · exact fun hall => hend.trans (by rw [hlast hall])

end Free

/-! ### `malloc` -/

/-- An answer of `sbrk` to a request for `k` bytes: no memory, or memory above `base` and above all
granted before, within the address space. -/
def Fresh (base : ℕ) (brk : List (ℕ × ℕ)) (k : ℕ) (r : Option ℕ) : Prop :=
  ∀ a ∈ r, base + 16 ≤ a ∧ (∀ x ∈ brk, x.1 + x.2 ≤ a) ∧ a + k ≤ 2 ^ 64

/-- With the answer, less than `2 ^ 32` headers have been granted. -/
def Few (brk : List (ℕ × ℕ)) (k : ℕ) (r : Option ℕ) : Prop :=
  ∀ a ∈ r, (brk.map Prod.snd).sum + k < 2 ^ 36

section Malloc

variable {base : ℕ} {F A got : Finset ℕ} {s : Heap} {sbrk : Sbrk} {n p prevp : ℕ}

theorem le_coreUnits (n : ℕ) : n ≤ coreUnits n ∧ 0 < coreUnits n := by
  unfold coreUnits
  split_ifs <;> omega

theorem size_lt (m : Mem) (a : ℕ) : size m a < 2 ^ 32 := BitVec.isLt _

/-- What the headers lay claim to after `morecore` has got the memory at `hp`. -/
def claim (n hp : ℕ) (s : Heap) : Finset ℕ :=
  Finset.Ico hp (plus hp (coreUnits n)) ∪ granted s.brk

/-- The heap after `morecore`: the memory at `hp` came to lie at the end of the node `c`. -/
structure Grown (base : ℕ) (F A : Finset ℕ) (n hp c : ℕ) (s t : Heap) : Prop where
  listed : Listed base F A (claim n hp s) t
  brk : t.brk = moveBrk hp (coreBytes n).toInt s.brk
  keep : ∀ a ∈ A, size t.mem a = size s.mem a
  near : c = t.freep ∨ c = ptr t.mem t.freep
  big : n ≤ size t.mem c
  last : plus c (size t.mem c) = plus hp (coreUnits n)
  small : ∀ a ∈ F, a ≠ c → size t.mem a < n

/-- The heap after a block of `n` headers at `q` has been handed out. -/
structure Handed (base : ℕ) (A : Finset ℕ) (n q : ℕ) (got : Finset ℕ) (s t : Heap) : Prop where
  new : q ∉ A
  listed : ∃ F, Listed base F (insert q A) got t
  units : size t.mem q = n
  keep : ∀ a ∈ A, size t.mem a = size s.mem a

/-- The new memory counts as handed out until it is freed. -/
theorem Listed.grow (h : Listed base F A (granted s.brk) s) {hp : ℕ} (hn : 0 < n)
    (hn32 : n < 2 ^ 32) (hfresh : Fresh base s.brk (16 * n) (some hp)) (brk : List (ℕ × ℕ)) :
    hp ∉ A ∧ (∀ a ∈ F, a < hp) ∧
      Listed base F (insert hp A) (Finset.Ico hp (plus hp n) ∪ granted s.brk)
        ({ s with brk := brk }.setSize hp n) ∧
      (∀ a ∈ F ∪ A, size (setSize s.mem hp n) a = size s.mem a) ∧
      size (setSize s.mem hp n) hp = n := by
  obtain ⟨hlow, habove, hend⟩ := hfresh hp rfl
  have hgot : ∀ x ∈ granted s.brk, x < hp := fun x hx => by
    obtain ⟨r, hr, -, hlt⟩ := mem_granted.1 hx
    exact hlt.trans_le (habove r hr)
  obtain ⟨hnew, hA⟩ := h.arena.grow hlow hgot hn
  -- the header written touches no other
  have hv : View s.mem (F ∪ insert hp A) (ptr s.mem) (size s.mem) := fun _ _ => ⟨rfl, rfl⟩
  have hpU : hp ∈ F ∪ insert hp A := Finset.mem_union_right _ (Finset.mem_insert_self _ _)
  have hv1 := hv.setSize (fun _ ha _ hb hne => hA.headers ha hb hne) hpU hn32
  refine ⟨fun hA => hnew (Finset.mem_union_right _ hA), ?_,
    ⟨hA.congr ?_ ?_, h.freep_mem, h.base_pos, h.base_lt, ?_⟩, ?_, size_setSize hn32⟩
  · intro a ha
    by_cases hab : a = base
    · omega
    · have haU : a ∈ F ∪ A := Finset.mem_union_left _ ha
      have hpos := h.arena.pos a haU hab
      exact hgot a ((h.arena.cover a).2 ⟨a, haU, le_rfl, by unfold plus; omega⟩)
  · exact fun a ha => (hv1 a (Finset.mem_union_left _ ha)).1
  · exact fun a ha => (hv1 a ha).2
  · intro x hx
    rcases Finset.mem_union.1 hx with hx | hx
    · exact (Finset.mem_Ico.1 hx).2.trans_le hend
    · exact h.below x hx
  · intro a ha
    have hap : a ≠ hp := fun he => hnew (he ▸ ha)
    rw [(hv1 a (Finset.union_subset_union_right (Finset.subset_insert _ _) ha)).2]
    exact Function.update_of_ne hap _ _

/-- Where no node of the list has `n` headers, `morecore` returns 0 and does nothing, or the memory
`sbrk` answers with comes to lie at `freep` or next to it. -/
theorem wp_morecore (h : Listed base F A (granted s.brk) s) (hn : n ≤ 2 ^ 28 + 1)
    (hsmall : ∀ a ∈ F, size s.mem a < n)
    (hfresh : Fresh base s.brk (16 * coreUnits n) (sbrk s.brk (coreBytes n))) :
    wp (morecore sbrk n) (fun _ => False) (fun r t =>
      (sbrk s.brk (coreBytes n) = none ∧ r = 0 ∧ t = s) ∨
      (r ≠ 0 ∧ r = t.freep ∧ ∃ hp, sbrk s.brk (coreBytes n) = some hp ∧
        ∃ F' c, Grown base F' A n hp c s t)) s := by
  obtain ⟨hle, hpos⟩ := le_coreUnits n
  have hcore : coreUnits n ≤ 2 ^ 28 + 1 := by
    unfold coreUnits
    split_ifs <;> omega
  rw [morecore]
  simp only [wp_bind, wp_get]
  rcases hans : sbrk s.brk (coreBytes n) with - | hp
  · exact Or.inl ⟨rfl, rfl, rfl⟩
  · rw [hans] at hfresh
    obtain ⟨hpA, hlast, hlisted, hsz, hszp⟩ := h.grow hpos (by omega) hfresh
      (moveBrk hp (coreBytes n).toInt s.brk)
    have hszF : ∀ a ∈ F, size (setSize s.mem hp (coreUnits n)) a < n := fun a ha => by
      rw [hsz a (Finset.mem_union_left _ ha)]
      exact hsmall a ha
    -- no free block is as large as the request, so the sizes joined stay small
    have hfit : Fits F (size (setSize s.mem hp (coreUnits n))) hp := by
      constructor
      · intro p hp' _
        have := hszF p hp'
        rw [hszp]
        omega
      · intro p hp' n' hn' _ _
        have := hszF p hp'
        have := hszF n' hn'
        rw [hszp]
        omega
    simp only [wp_bind, wp_modify, wp_get, wp_pure]
    refine (wp_free hlisted (Finset.mem_insert_self hp A) hfit).mono ?_
    rintro - t ⟨hbrk, F', c, ht, hkeep, hc, hbig, hrest, hend⟩
    rw [Finset.erase_insert hpA] at ht
    have hszp' : size (({ s with brk := moveBrk hp (coreBytes n).toInt s.brk } : Heap).setSize hp
        (coreUnits n)).mem hp = coreUnits n := hszp
    rw [hszp'] at hbig hend
    refine Or.inr ⟨(ht.pos (Finset.mem_union_left _ ht.freep_mem)).ne', trivial, hp, rfl, F', c, ht,
      hbrk, ?_, hc, hle.trans hbig, hend hlast, ?_⟩
    · intro a ha
      have hap : a ≠ hp := fun he => hpA (he ▸ ha)
      exact (hkeep a (Finset.mem_insert_of_mem ha) hap).trans (hsz a (Finset.mem_union_right _ ha))
    · intro a ha hac
      obtain ⟨haF, hsa⟩ := hrest a ha hac
      rw [hsa]
      exact hszF a haF

/-- A large enough block is unlinked, or loses its tail. -/
theorem wp_take (h : Listed base F A got s) (hprev : prevp ∈ F) (hp : ptr s.mem prevp = p)
    (hn : 0 < n) (hle : n ≤ size s.mem p) :
    wp (take n prevp p) (fun _ => False) (fun r t => t.brk = s.brk ∧ ∃ q, r = plus q 1 ∧
      q = plus p (size s.mem p - n) ∧ Handed base A n q got s t) s := by
  have hpF : p ∈ F := hp ▸ h.arena.cycle.mem prevp hprev
  have hpb : p ≠ base := by
    rintro rfl
    rw [h.arena.base_size] at hle
    omega
  have hpA : p ∉ A := Finset.disjoint_left.1 h.arena.disj hpF
  have hprevU : prevp ∈ F ∪ A := Finset.mem_union_left _ hprev
  rw [take]
  simp only [wp_bind, wp_get, wp_ite, wp_modify, wp_pure]
  split_ifs with heq
  · -- the whole block
    have hA := h.arena.unlink hprev (hp.symm ▸ hpb)
    rw [hp] at hA
    have hne : prevp ≠ p := by
      rintro rfl
      exact hpb (h.arena.cycle.eq_of_next_self hprev hp h.arena.base_mem).symm
    have hv : View s.mem (F ∪ A) (ptr s.mem) (size s.mem) := fun _ _ => ⟨rfl, rfl⟩
    have hv1 := hv.setPtr h.apart hprevU
      (h.lt (Finset.mem_union_left _ (h.arena.cycle.mem p hpF)))
    have hU : ∀ a ∈ F.erase p ∪ insert p A, a ∈ F ∪ A := by
      intro a ha
      rcases Finset.mem_union.1 ha with ha | ha
      · exact Finset.mem_union_left _ (Finset.mem_of_mem_erase ha)
      · rcases Finset.mem_insert.1 ha with rfl | ha
        · exact Finset.mem_union_left _ hpF
        · exact Finset.mem_union_right _ ha
    refine ⟨rfl, p, rfl, ?_, hpA, ⟨F.erase p, h.of_arena (hA.congr ?_ ?_) ?_⟩, ?_, ?_⟩
    · rw [heq, Nat.sub_self]
      rfl
    · exact fun a ha => (hv1 a (hU a (Finset.mem_union_left _ ha))).1
    · exact fun a ha => (hv1 a (hU a ha)).2
    · exact Finset.mem_erase.2 ⟨hne, hprev⟩
    · exact (hv1 p (Finset.mem_union_left _ hpF)).2.trans heq
    · exact fun a ha => (hv1 a (Finset.mem_union_right _ ha)).2
  · -- the tail
    obtain ⟨hnew, hA⟩ := h.arena.split hpF hn (lt_of_le_of_ne hle (Ne.symm heq))
    have hp32 := size_lt s.mem p
    have hsz : size (setSize s.mem p (size s.mem p - n)) p = size s.mem p - n :=
      size_setSize (by omega)
    simp only [Heap.setSize, hsz]
    set q := plus p (size s.mem p - n)
    have hqU : q ∈ F ∪ insert q A := Finset.mem_union_right _ (Finset.mem_insert_self _ _)
    have hv : View s.mem (F ∪ insert q A) (ptr s.mem) (size s.mem) := fun _ _ => ⟨rfl, rfl⟩
    have hapart : Apart (F ∪ insert q A) := fun _ ha _ hb hne => hA.headers ha hb hne
    have hv1 := hv.setSize (v := size s.mem p - n) hapart (Finset.mem_union_left _ hpF) (by omega)
    have hv2 := hv1.setSize (v := n) hapart hqU (by omega)
    refine ⟨trivial, q, rfl, rfl, fun hqA => hnew (Finset.mem_union_right _ hqA),
      ⟨F, h.of_arena (hA.congr ?_ ?_) hprev⟩, ?_, ?_⟩
    · exact fun a ha => (hv2 a (Finset.mem_union_left _ ha)).1
    · exact fun a ha => (hv2 a ha).2
    · exact (hv2 q hqU).2.trans (Function.update_self ..)
    · intro a ha
      have haq : a ≠ q := fun he => hnew (Finset.mem_union_right _ (he ▸ ha))
      have hap : a ≠ p := fun he => hpA (he ▸ ha)
      rw [(hv2 a (Finset.mem_union_right _ (Finset.mem_insert_of_mem ha))).2,
        Function.update_of_ne haq, Function.update_of_ne hap]

theorem wp_scan_succ {fuel : ℕ} {E : Stop → Prop} {Q : ℕ → Heap → Prop} :
    wp (scan sbrk n (fuel + 1) prevp p) E Q s ↔
      if n ≤ size s.mem p then wp (take n prevp p) E Q s
      else if p = s.freep then
        wp (morecore sbrk n) E (fun r t =>
          if r = 0 then Q 0 t else wp (scan sbrk n fuel r (ptr t.mem r)) E Q t) s
      else wp (scan sbrk n fuel p (ptr s.mem p)) E Q s := by
  rw [scan]
  simp only [wp_bind, wp_get, wp_ite, wp_pure]

/-- Where the block at `freep` is large enough, the loop finds a block on its way there. -/
theorem wp_scan_found (h : Listed base F A got s) {k fuel : ℕ} (hprev : prevp ∈ F)
    (hp : ptr s.mem prevp = p) (hn : 0 < n) (hle : n ≤ size s.mem s.freep)
    (hk : (ptr s.mem)^[k] p = s.freep) (hfuel : k < fuel) :
    wp (scan sbrk n fuel prevp p) (fun _ => False) (fun r t => t.brk = s.brk ∧ ∃ q, r = plus q 1 ∧
      (∃ c ∈ F, n ≤ size s.mem c ∧ q = plus c (size s.mem c - n)) ∧
      Handed base A n q got s t) s := by
  have htake : ∀ {prevp p}, prevp ∈ F → ptr s.mem prevp = p → n ≤ size s.mem p →
      wp (take n prevp p) (fun _ => False) (fun r t => t.brk = s.brk ∧ ∃ q, r = plus q 1 ∧
        (∃ c ∈ F, n ≤ size s.mem c ∧ q = plus c (size s.mem c - n)) ∧
        Handed base A n q got s t) s := fun {prevp p} hprev hp hle =>
    (wp_take h hprev hp hn hle).mono fun _ _ ⟨hbrk, q, hr, hq, ht⟩ =>
      ⟨hbrk, q, hr, ⟨p, hp ▸ h.arena.cycle.mem prevp hprev, hle, hq⟩, ht⟩
  induction k generalizing prevp p fuel with
  | zero =>
    obtain ⟨fuel, rfl⟩ : ∃ f, fuel = f + 1 := ⟨fuel - 1, by omega⟩
    obtain rfl : p = s.freep := hk
    rw [wp_scan_succ, if_pos hle]
    exact htake hprev hp hle
  | succ k ih =>
    obtain ⟨fuel, rfl⟩ : ∃ f, fuel = f + 1 := ⟨fuel - 1, by omega⟩
    have hpF : p ∈ F := hp ▸ h.arena.cycle.mem prevp hprev
    rw [wp_scan_succ]
    split_ifs with h1 h2
    · exact htake hprev hp h1
    · exact absurd (h2 ▸ hle) h1
    · rw [Function.iterate_succ_apply] at hk
      exact ih hpF rfl hk (by omega)

/-- What `malloc` returns and leaves: a block of the list, or 0 where `sbrk` refuses, or the end of
the memory `sbrk` answers with. -/
inductive Served (base : ℕ) (F A : Finset ℕ) (sbrk : Sbrk) (n : ℕ) (s : Heap) (r : ℕ) (t : Heap) :
    Prop
  | found (hroom : ∃ a ∈ F, n ≤ size s.mem a) (q : ℕ) (hr : r = plus q 1) (hbrk : t.brk = s.brk)
      (ht : Handed base A n q (granted s.brk) s t)
  | refused (hroom : ∀ a ∈ F, size s.mem a < n) (hans : sbrk s.brk (coreBytes n) = none)
      (hr : r = 0) (ht : t = s)
  | grown (hroom : ∀ a ∈ F, size s.mem a < n) (hp : ℕ)
      (hans : sbrk s.brk (coreBytes n) = some hp) (q : ℕ) (hr : r = plus q 1)
      (hbrk : t.brk = moveBrk hp (coreBytes n).toInt s.brk)
      (hq : plus q n = plus hp (coreUnits n)) (ht : Handed base A n q (claim n hp s) s t)

/-- Once the heap has grown, the block that grew is the only one large enough. -/
theorem wp_scan_grown {F' : Finset ℕ} {hp c fuel : ℕ} {t : Heap} (ht : Grown base F' A n hp c s t)
    (hn : 0 < n) (hfuel : steps < fuel) :
    wp (scan sbrk n fuel t.freep (ptr t.mem t.freep)) (fun _ => False) (fun r u =>
      u.brk = t.brk ∧ ∃ q, r = plus q 1 ∧ plus q n = plus hp (coreUnits n) ∧
        Handed base A n q (claim n hp s) s u) t := by
  have hfound : wp (scan sbrk n fuel t.freep (ptr t.mem t.freep)) (fun _ => False) (fun r u =>
      u.brk = t.brk ∧ ∃ q, r = plus q 1 ∧
        (∃ c ∈ F', n ≤ size t.mem c ∧ q = plus c (size t.mem c - n)) ∧
        Handed base A n q (claim n hp s) t u) t := by
    have hnext := ht.listed.arena.cycle.mem _ ht.listed.freep_mem
    rcases ht.near with hc | hc
    · obtain ⟨j, hj, hjf⟩ := ht.listed.arena.cycle.reach hnext ht.listed.freep_mem
      have := ht.listed.card_le
      exact wp_scan_found ht.listed ht.listed.freep_mem rfl hn (hc ▸ ht.big) hjf (by omega)
    · obtain ⟨fuel, rfl⟩ : ∃ f, fuel = f + 1 := ⟨fuel - 1, by omega⟩
      have hbig : n ≤ size t.mem (ptr t.mem t.freep) := hc ▸ ht.big
      rw [wp_scan_succ, if_pos hbig]
      exact (wp_take ht.listed ht.listed.freep_mem rfl hn hbig).mono
        fun _ _ ⟨hbrk, q, hr, hq, hu⟩ =>
        ⟨hbrk, q, hr, ⟨_, hnext, hbig, hq⟩, hu⟩
  refine hfound.mono ?_
  rintro r u ⟨hbrk, q, hr, ⟨c', hc', hbig, hq⟩, hu⟩
  have hcc : c' = c := by
    by_contra hne
    have := ht.small c' hc' hne
    omega
  refine ⟨hbrk, q, hr, ?_, hu.new, hu.listed, hu.units,
    fun a ha => (hu.keep a ha).trans (ht.keep a ha)⟩
  rw [hq, hcc, ← ht.last]
  rw [hcc] at hbig
  unfold plus
  omega

/-- The loop is back at `freep`, `i + 1` steps after it, and has passed no node that is large
enough. -/
theorem wp_scan_freep (h : Listed base F A (granted s.brk) s) (hn : 0 < n) (hn28 : n ≤ 2 ^ 28 + 1)
    (hfresh : Fresh base s.brk (16 * coreUnits n) (sbrk s.brk (coreBytes n))) {i fuel : ℕ}
    (hprev : (ptr s.mem)^[i] s.freep = prevp) (hp : (ptr s.mem)^[i + 1] s.freep = s.freep)
    (hpassed : ∀ j, 0 < j → j ≤ i → size s.mem ((ptr s.mem)^[j] s.freep) < n)
    (hfuel : steps + 2 ≤ fuel) :
    wp (scan sbrk n fuel prevp s.freep) (fun _ => False) (Served base F A sbrk n s) s := by
  have hnext : ptr s.mem prevp = s.freep := by
    rw [← hprev, ← Function.iterate_succ_apply' (ptr s.mem), hp]
  obtain ⟨fuel, rfl⟩ : ∃ f, fuel = f + 1 := ⟨fuel - 1, by omega⟩
  rw [wp_scan_succ, if_pos rfl]
  split_ifs with h1
  · exact (wp_take h (h.mem_iff.2 ⟨i, hprev⟩) hnext hn h1).mono fun _ _ ⟨hbrk, q, hr, _, ht⟩ =>
      .found ⟨_, h.freep_mem, h1⟩ q hr hbrk ht
  -- the loop has been all the way around
  have hroom : ∀ a ∈ F, size s.mem a < n := by
    intro a ha
    obtain ⟨j, rfl⟩ := h.mem_iff.1 ha
    have hper : Function.IsPeriodicPt (ptr s.mem) (i + 1) s.freep := hp
    rw [← hper.iterate_mod_apply]
    have hj : j % (i + 1) < i + 1 := Nat.mod_lt _ (Nat.succ_pos i)
    rcases Nat.eq_zero_or_pos (j % (i + 1)) with h0 | h0
    · rw [h0]
      exact not_le.1 h1
    · exact hpassed _ h0 (by omega)
  refine (wp_morecore h hn28 hroom hfresh).mono ?_
  rintro r t (⟨hans, rfl, rfl⟩ | ⟨hr, rfl, hp, hans, F', c, ht⟩)
  · exact .refused hroom hans rfl rfl
  · rw [if_neg hr]
    refine (wp_scan_grown ht hn (by omega)).mono ?_
    rintro r u ⟨hbrk, q, hr, hq, hu⟩
    exact .grown hroom hp hans q hr (hbrk.trans ht.brk) hq hu

/-- The loop ends: it hands out a block, or there is no memory. -/
theorem wp_scan (h : Listed base F A (granted s.brk) s) (hn : 0 < n) (hn28 : n ≤ 2 ^ 28 + 1)
    (hfresh : Fresh base s.brk (16 * coreUnits n) (sbrk s.brk (coreBytes n))) {i k fuel : ℕ}
    (hprev : (ptr s.mem)^[i] s.freep = prevp) (hp : (ptr s.mem)^[i + 1] s.freep = p)
    (hpassed : ∀ j, 0 < j → j ≤ i → size s.mem ((ptr s.mem)^[j] s.freep) < n)
    (hk : (ptr s.mem)^[k] p = s.freep) (hfuel : k + (steps + 2) ≤ fuel) :
    wp (scan sbrk n fuel prevp p) (fun _ => False) (Served base F A sbrk n s) s := by
  -- by induction on the steps that are left to `freep`
  induction k generalizing i prevp p fuel with
  | zero =>
    obtain rfl : p = s.freep := hk
    exact wp_scan_freep h hn hn28 hfresh hprev hp hpassed (by omega)
  | succ k ih =>
    by_cases hfp : p = s.freep
    · subst hfp
      exact wp_scan_freep h hn hn28 hfresh hprev hp hpassed (by omega)
    obtain ⟨fuel, rfl⟩ : ∃ f, fuel = f + 1 := ⟨fuel - 1, by omega⟩
    have hnext : ptr s.mem prevp = p := by rw [← hprev, ← hp, Function.iterate_succ_apply']
    rw [wp_scan_succ, if_neg hfp]
    split_ifs with h1
    · exact (wp_take h (h.mem_iff.2 ⟨i, hprev⟩) hnext hn h1).mono fun _ _ ⟨hbrk, q, hr, _, ht⟩ =>
        .found ⟨p, h.mem_iff.2 ⟨i + 1, hp⟩, h1⟩ q hr hbrk ht
    · rw [Function.iterate_succ_apply] at hk
      refine ih hp (by rw [Function.iterate_succ_apply', hp]) ?_ hk (by omega)
      intro j h0 hj
      rcases Nat.lt_or_ge i j with hij | hij
      · obtain rfl : j = i + 1 := by omega
        rw [hp]
        exact not_le.1 h1
      · exact hpassed j h0 hij

theorem unitsOf_pos (nbytes : BitVec 32) : 0 < unitsOf nbytes := Nat.succ_pos _

theorem unitsOf_le (nbytes : BitVec 32) : unitsOf nbytes ≤ 2 ^ 28 + 1 := by
  have := nbytes.isLt
  unfold unitsOf
  omega

/-- The answer of `sbrk` to what `malloc` may ask for. -/
def answer (sbrk : Sbrk) (nbytes : BitVec 32) (s : Heap) : Option ℕ :=
  sbrk s.brk (coreBytes (unitsOf nbytes))

theorem wp_scan_start (h : Listed base F A (granted s.brk) s) {nbytes : BitVec 32}
    (hfresh : Fresh base s.brk (16 * coreUnits (unitsOf nbytes)) (answer sbrk nbytes s)) :
    wp (scan sbrk (unitsOf nbytes) (2 * steps + 3) s.freep (ptr s.mem s.freep)) (fun _ => False)
      (Served base F A sbrk (unitsOf nbytes) s) s := by
  obtain ⟨k, hk, hkf⟩ := h.arena.cycle.reach (h.arena.cycle.mem _ h.freep_mem) h.freep_mem
  have := h.card_le
  exact wp_scan h (unitsOf_pos _) (unitsOf_le _) hfresh (i := 0) rfl rfl (fun j h0 hj => by omega)
    hkf (by omega)

/-- `malloc` once the list exists. -/
theorem wp_malloc (h : Listed base F A (granted s.brk) s) {nbytes : BitVec 32}
    (hfresh : Fresh base s.brk (16 * coreUnits (unitsOf nbytes)) (answer sbrk nbytes s)) :
    wp (malloc base sbrk nbytes) (fun _ => False) (Served base F A sbrk (unitsOf nbytes) s) s := by
  rw [malloc]
  simp only [wp_bind, wp_get, wp_ite, wp_modify]
  rw [if_neg (h.pos (Finset.mem_union_left _ h.freep_mem)).ne']
  exact wp_scan_start h hfresh

/-- The empty list, which the first `malloc` makes. -/
def firstList (base : ℕ) (s : Heap) :
    Heap := { s.setPtr base base with freep := base }.setSize base 0

theorem firstList_listed (hbase : 0 < base) (hlt : base < 2 ^ 64) (hbrk : s.brk = []) :
    Listed base {base} ∅ (granted (firstList base s).brk) (firstList base s) := by
  have hptr : ptr (setSize (setPtr s.mem base base) base 0) base = base := by
    rw [ptr_setSize_of_apart (Or.inl rfl), ptr_setPtr hlt]
  have hsize : size (setSize (setPtr s.mem base base) base 0) base = 0 := size_setSize (by decide)
  have hgot : granted (firstList base s).brk = ∅ := by
    change granted s.brk = ∅
    rw [hbrk]
    rfl
  rw [hgot]
  exact ⟨Arena.nil hptr hsize, Finset.mem_singleton_self base, hbase, hlt, by simp⟩

/-- The first `malloc` makes the empty list. -/
theorem wp_malloc_first (hbase : 0 < base) (hlt : base < 2 ^ 64) (hf : s.freep = 0)
    (hbrk : s.brk = []) {nbytes : BitVec 32}
    (hfresh : Fresh base s.brk (16 * coreUnits (unitsOf nbytes)) (answer sbrk nbytes s)) :
    wp (malloc base sbrk nbytes) (fun _ => False)
      (Served base {base} ∅ sbrk (unitsOf nbytes) (firstList base s)) s := by
  rw [malloc]
  simp only [wp_bind, wp_get, wp_ite, wp_modify]
  rw [if_pos hf]
  exact wp_scan_start (firstList_listed hbase hlt hbrk) hfresh

/-- Where the byte count fits the `int`, the memory granted is what the headers lay claim to. -/
theorem granted_moveBrk (hp : ℕ) (hfit : 16 * coreUnits n < 2 ^ 31) (s : Heap) :
    moveBrk hp (coreBytes n).toInt s.brk = (hp, 16 * coreUnits n) :: s.brk ∧
      granted (moveBrk hp (coreBytes n).toInt s.brk) = claim n hp s := by
  have hint : (coreBytes n).toInt = (16 * coreUnits n : ℕ) := by
    rw [coreBytes, BitVec.toInt_ofNat', Int.bmod_eq_of_le] <;> omega
  rw [hint, moveBrk, if_pos (by omega), Int.toNat_natCast]
  exact ⟨rfl, rfl⟩

end Malloc

/-! ### A process and its heap -/

/-- The heap, and the pointers the program holds with the bytes it asked for. -/
structure Sys where
  heap : Heap
  live : List (ℕ × BitVec 32)

inductive Event
  /-- `malloc(nbytes)`, with what the system would answer to `sbrk` -/
  | malloc (nbytes : BitVec 32) (sbrk : Sbrk)
  /-- `free(ap)` of a pointer the program holds -/
  | free (ap : ℕ)
  /-- the program writes the byte `i` of what it asked for -/
  | store (ap i : ℕ) (v : Byte)

def Sys.step (base : ℕ) : Event → Sys → Option Sys
  | .malloc nbytes sbrk, s => (Umalloc.malloc base sbrk nbytes s.heap).toOption.map fun p =>
    ⟨p.2, if p.1 = 0 then s.live else (p.1, nbytes) :: s.live⟩
  | .free ap, s => (Umalloc.free ap s.heap).toOption.map fun p =>
    ⟨p.2, s.live.filter (·.1 ≠ ap)⟩
  | .store ap i v, s => some { s with heap.mem := Function.update s.heap.mem (ap + i) v }

/-- What the program and the system may do: the request fits the `int` of `sbrk`, memory granted is
fresh, and the program frees and writes only what it holds. -/
def Sys.Legal (base : ℕ) (s : Sys) : Event → Prop
  | .malloc nbytes sbrk =>
    16 * coreUnits (unitsOf nbytes) < 2 ^ 31 ∧
      Fresh base s.heap.brk (16 * coreUnits (unitsOf nbytes)) (answer sbrk nbytes s.heap)
  | .free ap => ap ∈ s.live.map Prod.fst
  | .store ap i _ => ∃ x ∈ s.live, x.1 = ap ∧ i < x.2.toNat

/-- The system grants less than `2 ^ 32` headers in all: 64 gigabytes. -/
def Sys.Under64G (s : Sys) : Event → Prop
  | .malloc nbytes sbrk =>
    Few s.heap.brk (16 * coreUnits (unitsOf nbytes)) (answer sbrk nbytes s.heap)
  | _ => True

/-- A process that has not allocated yet: `freep` is a static variable. -/
def Sys.start (m : Mem) : Sys := ⟨⟨m, 0, []⟩, []⟩

/-- The header of a pointer handed out. -/
def header (x : ℕ × BitVec 32) : ℕ := x.1 - 16

/-- The heap as the program and the system may rely on it, with the free nodes `F`. -/
structure Tiled (base : ℕ) (s : Sys) (F : Finset ℕ) : Prop where
  /-- the nodes are those met on the way around the list -/
  nodes : ∀ a, a ∈ F ↔ ∃ k, (ptr s.heap.mem)^[k] s.heap.freep = a
  base_mem : base ∈ F
  base_size : size s.heap.mem base = 0
  /-- the list goes around upwards -/
  sorted : Cycle.Sorted F (ptr s.heap.mem)
  /-- free blocks neither overlap nor touch, and `base` is below them -/
  gaps : ∀ a ∈ F, ∀ b ∈ F, a < b → plus a (size s.heap.mem a) < b
  base_low : ∀ a ∈ F, a ≠ base → base + 16 ≤ a
  /-- a live block has room for what was asked for -/
  room : ∀ x ∈ s.live, x.1 = plus (header x) 1 ∧
    x.1 + x.2.toNat ≤ plus (header x) (size s.heap.mem (header x))
  /-- live blocks overlap neither each other nor free ones -/
  live_apart : s.live.Pairwise fun x y =>
    plus (header x) (size s.heap.mem (header x)) ≤ header y ∨
      plus (header y) (size s.heap.mem (header y)) ≤ header x
  free_apart : ∀ x ∈ s.live, ∀ a ∈ F, a + 16 ≤ header x ∧ plus a (size s.heap.mem a) ≤ header x ∨
    plus (header x) (size s.heap.mem (header x)) ≤ a
  /-- free and live blocks are the memory granted, no more and no less -/
  cover : ∀ y, (∃ r ∈ s.heap.brk, r.1 ≤ y ∧ y < r.1 + r.2) ↔
    (∃ a ∈ F, a ≤ y ∧ y < plus a (size s.heap.mem a)) ∨
      ∃ x ∈ s.live, header x ≤ y ∧ y < plus (header x) (size s.heap.mem (header x))

/-- Before the first `malloc` there is nothing; from then on the heap is tiled. -/
def Sys.Sound (base : ℕ) (s : Sys) : Prop :=
  if s.heap.freep = 0 then s.live = [] ∧ s.heap.brk = [] else ∃ F, Tiled base s F

section Run

variable {base : ℕ} {F A : Finset ℕ} {s t : Sys} {e : Event}

/-- The pointers the program holds are those of the blocks handed out. -/
structure Holds (A : Finset ℕ) (s : Sys) : Prop where
  header_mem : ∀ x ∈ s.live, ∃ a ∈ A, x.1 = plus a 1 ∧ size s.heap.mem a = unitsOf x.2
  live_of_mem : ∀ a ∈ A, ∃ x ∈ s.live, x.1 = plus a 1
  nodup : (s.live.map Prod.fst).Nodup

def Sys.Inv (base : ℕ) (s : Sys) : Prop :=
  (s.heap.freep = 0 ∧ s.live = [] ∧ s.heap.brk = []) ∨ ∃ F A, Ready base F A s.heap ∧ Holds A s

theorem plus_one_inj {a b : ℕ} (h : plus a 1 = plus b 1) : a = b := by
  unfold plus at h
  omega

theorem le_units (n : BitVec 32) : n.toNat + 16 ≤ 16 * unitsOf n := by
  unfold unitsOf
  omega

theorem Ready.handed {h h' : Heap} {n q : ℕ} (ht : Handed base A n q (granted h'.brk) h h')
    (hfew : (h'.brk.map Prod.snd).sum < 2 ^ 36) : ∃ F, Ready base F (insert q A) h' := by
  obtain ⟨F, hF⟩ := ht.listed
  exact ⟨F, hF, hfew⟩

theorem Holds.handed {h h' : Heap} {live : List (ℕ × BitVec 32)} {nbytes : BitVec 32}
    {got : Finset ℕ} {q : ℕ} (hh : Holds A ⟨h, live⟩)
    (ht : Handed base A (unitsOf nbytes) q got h h') :
    Holds (insert q A) ⟨h', (plus q 1, nbytes) :: live⟩ := by
  refine ⟨?_, ?_, ?_⟩
  · intro x hx
    rcases List.mem_cons.1 hx with rfl | hx
    · exact ⟨q, Finset.mem_insert_self _ _, rfl, ht.units⟩
    · obtain ⟨a, ha, hxa, hs⟩ := hh.header_mem x hx
      exact ⟨a, Finset.mem_insert_of_mem ha, hxa, (ht.keep a ha).trans hs⟩
  · intro a ha
    rcases Finset.mem_insert.1 ha with rfl | ha
    · exact ⟨_, List.mem_cons_self, rfl⟩
    · obtain ⟨x, hx, hxa⟩ := hh.live_of_mem a ha
      exact ⟨x, List.mem_cons_of_mem _ hx, hxa⟩
  · refine List.nodup_cons.2 ⟨fun hmem => ?_, hh.nodup⟩
    obtain ⟨x, hx, hxq⟩ := List.mem_map.1 hmem
    obtain ⟨a, ha, hxa, -⟩ := hh.header_mem x hx
    have hqa : plus q 1 = plus a 1 := hxq.symm.trans hxa
    exact ht.new (plus_one_inj hqa ▸ ha)

theorem Sys.Inv.malloc {h h' : Heap} {live : List (ℕ × BitVec 32)} {nbytes : BitVec 32}
    {sbrk : Sbrk} {r : ℕ} (hF : Ready base F A h) (hh : Holds A ⟨h, live⟩)
    (hint : 16 * coreUnits (unitsOf nbytes) < 2 ^ 31)
    (hfew : Few h.brk (16 * coreUnits (unitsOf nbytes)) (answer sbrk nbytes h))
    (hr : Served base F A sbrk (unitsOf nbytes) h r h') :
    Sys.Inv base ⟨h', if r = 0 then live else (r, nbytes) :: live⟩ := by
  have hne : ∀ q, plus q 1 ≠ 0 := fun q => by
    unfold plus
    omega
  cases hr with
  | found _ q hr hbrk ht =>
    rw [hr, if_neg (hne q)]
    rw [← hbrk] at ht
    obtain ⟨F', hF'⟩ := Ready.handed ht (hbrk ▸ hF.few)
    exact Or.inr ⟨F', _, hF', hh.handed ht⟩
  | refused _ _ hr ht =>
    rw [hr, ht]
    exact Or.inr ⟨F, A, hF, hh⟩
  | grown _ hp hans q hr hbrk _ ht =>
    rw [hr, if_neg (hne q)]
    obtain ⟨hmove, hgot⟩ := granted_moveBrk hp hint h
    rw [← hgot, ← hbrk] at ht
    obtain ⟨F', hF'⟩ := Ready.handed ht (by
      rw [hbrk, hmove, List.map_cons, List.sum_cons, Nat.add_comm]
      exact hfew hp hans)
    exact Or.inr ⟨F', _, hF', hh.handed ht⟩

section Store

variable {b y : ℕ} {v : Byte}

/-- A byte outside a header is no part of it. -/
theorem header_update {m : Mem} {a : ℕ} (h : y < a ∨ a + 16 ≤ y) :
    ptr (Function.update m y v) a = ptr m a ∧ size (Function.update m y v) a = size m a := by
  have hne : ∀ x, a ≤ x → x < a + 16 → Function.update m y v x = m x := fun x h1 h2 =>
    Function.update_of_ne (by omega) _ _
  constructor
  · rw [ptr, ptr, loadW_congr fun x h1 h2 => hne x h1 (by omega)]
  · rw [size, size, loadW_congr fun x h1 h2 => hne x (by omega) (by omega)]

/-- A write inside a block handed out changes no header. -/
theorem Ready.view_update {s : Heap} (h : Ready base F A s) (hb : b ∈ A) (hlo : b + 16 ≤ y)
    (hhi : y < plus b (size s.mem b)) :
    View (Function.update s.mem y v) (F ∪ A) (ptr s.mem) (size s.mem) := by
  intro a ha
  have hbU : b ∈ F ∪ A := Finset.mem_union_right _ hb
  apply header_update
  rcases lt_trichotomy a b with hab | rfl | hab
  · have := h.listed.arena.headers ha hbU hab.ne
    omega
  · exact Or.inr hlo
  · have := h.listed.arena.apart b hbU a ha hab
    omega

end Store

/-- A step that may be taken is taken, and keeps the invariant. -/
theorem Sys.Inv.step (hbase : 0 < base) (hlt : base < 2 ^ 64) (hs : s.Inv base)
    (hl : s.Legal base e) (hu : s.Under64G e) : ∃ t, s.step base e = some t ∧ t.Inv base := by
  cases e with
  | malloc nbytes sbrk =>
    obtain ⟨F, A, h, hF, hh, hbrk, hw⟩ : ∃ F A h, Ready base F A h ∧ Holds A ⟨h, s.live⟩ ∧
        h.brk = s.heap.brk ∧ wp (Umalloc.malloc base sbrk nbytes) (fun _ => False)
          (Served base F A sbrk (unitsOf nbytes) h) s.heap := by
      rcases hs with ⟨hf, hlive, hbrk⟩ | ⟨F, A, hF, hA⟩
      · exact ⟨{base}, ∅, firstList base s.heap, ⟨firstList_listed hbase hlt hbrk, by
            simp [firstList, Heap.setSize, Heap.setPtr, hbrk]⟩,
          ⟨by simp [hlive], by simp, by simp [hlive]⟩, rfl,
          wp_malloc_first hbase hlt hf hbrk hl.2⟩
      · exact ⟨F, A, s.heap, hF, hA, rfl, wp_malloc hF.listed hl.2⟩
    obtain ⟨r, h', hrun, hr⟩ := hw.exists_ok
    have hstep : s.step base (.malloc nbytes sbrk)
        = some ⟨h', if r = 0 then s.live else (r, nbytes) :: s.live⟩ := by
      rw [Sys.step, hrun, Except.toOption, Option.map_some]
    have hfew : Few h.brk (16 * coreUnits (unitsOf nbytes)) (answer sbrk nbytes h) := by
      rw [answer, hbrk]
      exact hu
    exact ⟨_, hstep, Sys.Inv.malloc hF hh hl.1 hfew hr⟩
  | free ap =>
    obtain ⟨x, hx, rfl⟩ := List.mem_map.1 hl
    rcases hs with ⟨-, hlive, -⟩ | ⟨F, A, hF, hA⟩
    · rw [hlive] at hx
      cases hx
    obtain ⟨b, hb, hxb, -⟩ := hA.header_mem x hx
    obtain ⟨u, h, hrun, hbrk, F', c, hF', hk, -⟩ := (wp_free hF.listed hb (hF.fits hb)).exists_ok
    rw [← hxb] at hrun
    rw [← hbrk] at hF'
    have hstep : s.step base (.free x.1) = some ⟨h, s.live.filter (·.1 ≠ x.1)⟩ := by
      rw [Sys.step, hrun, Except.toOption, Option.map_some]
    refine ⟨_, hstep, Or.inr ⟨F', A.erase b, ⟨hF', hbrk ▸ hF.few⟩, ?_, ?_, ?_⟩⟩
    · intro y hy
      obtain ⟨hy, hne⟩ := List.mem_filter.1 hy
      obtain ⟨a, ha, hya, hsz⟩ := hA.header_mem y hy
      have hab : a ≠ b := by
        rintro rfl
        simp [hya, hxb] at hne
      exact ⟨a, Finset.mem_erase.2 ⟨hab, ha⟩, hya, (hk a ha hab).trans hsz⟩
    · intro a ha
      obtain ⟨hab, ha⟩ := Finset.mem_erase.1 ha
      obtain ⟨y, hy, hya⟩ := hA.live_of_mem a ha
      refine ⟨y, List.mem_filter.2 ⟨hy, ?_⟩, hya⟩
      simp only [decide_eq_true_eq, hya, hxb]
      exact fun he => hab (plus_one_inj he)
    · exact hA.nodup.sublist (List.filter_sublist.map _)
  | store ap i v =>
    obtain ⟨x, hx, rfl, hi⟩ := hl
    rcases hs with ⟨-, hlive, -⟩ | ⟨F, A, hF, hA⟩
    · rw [hlive] at hx
      cases hx
    obtain ⟨b, hb, hxb, hsz⟩ := hA.header_mem x hx
    have hin : b + 16 ≤ x.1 + i ∧ x.1 + i < plus b (size s.heap.mem b) := by
      have := le_units x.2
      rw [hxb, hsz]
      unfold plus
      omega
    have hv := hF.view_update (v := v) hb hin.1 hin.2
    refine ⟨_, rfl, Or.inr ⟨F, A, ⟨hF.listed.of_arena (hF.listed.arena.congr ?_ ?_)
      hF.listed.freep_mem, hF.few⟩, ?_, hA.live_of_mem, hA.nodup⟩⟩
    · exact fun a ha => (hv a (Finset.mem_union_left _ ha)).1
    · exact fun a ha => (hv a ha).2
    · intro y hy
      obtain ⟨a, ha, hya, hsz⟩ := hA.header_mem y hy
      exact ⟨a, ha, hya, (hv a (Finset.mem_union_right _ ha)).2.trans hsz⟩

/-- What the invariant says of the heap. -/
theorem Sys.Inv.sound (hs : s.Inv base) : s.Sound base := by
  unfold Sys.Sound
  rcases hs with ⟨hf, hlive⟩ | ⟨F, A, hF, hA⟩
  · rw [if_pos hf]
    exact hlive
  replace hF := hF.listed
  rw [if_neg (hF.pos (Finset.mem_union_left _ hF.freep_mem)).ne']
  have hhdr : ∀ x ∈ s.live, header x ∈ A ∧ x.1 = plus (header x) 1 ∧
      size s.heap.mem (header x) = unitsOf x.2 := by
    intro x hx
    obtain ⟨a, ha, hxa, hsz⟩ := hA.header_mem x hx
    have : header x = a := by
      rw [header, hxa]
      exact Nat.add_sub_cancel a 16
    rw [this]
    exact ⟨ha, hxa, hsz⟩
  have hFU : ∀ a ∈ F, a ∈ F ∪ A := fun a ha => Finset.mem_union_left _ ha
  have hAU : ∀ a ∈ A, a ∈ F ∪ A := fun a ha => Finset.mem_union_right _ ha
  refine ⟨F, ?_, hF.arena.base_mem, hF.arena.base_size, hF.arena.cycle, ?_, ?_, ?_, ?_, ?_, ?_⟩
  · exact fun a => hF.mem_iff
  · intro a ha b hb hab
    refine lt_of_le_of_ne (hF.arena.apart a (hFU a ha) b (hFU b hb) hab) fun he => ?_
    exact Finset.notMem_empty a (hF.arena.gap a ha b hb hab he)
  · exact fun a ha => hF.arena.low a (hFU a ha)
  · intro x hx
    obtain ⟨ha, hxa, hsz⟩ := hhdr x hx
    refine ⟨hxa, ?_⟩
    have := le_units x.2
    rw [hsz, hxa]
    unfold plus
    omega
  · refine (List.pairwise_map.1 hA.nodup).imp_of_mem fun {x y} hx hy hne => ?_
    obtain ⟨hxA, hx1, -⟩ := hhdr x hx
    obtain ⟨hyA, hy1, -⟩ := hhdr y hy
    have hxy : header x ≠ header y := fun he => hne (by rw [hx1, hy1, he])
    rcases lt_or_gt_of_ne hxy with hlt | hlt
    · exact Or.inl (hF.arena.apart _ (hAU _ hxA) _ (hAU _ hyA) hlt)
    · exact Or.inr (hF.arena.apart _ (hAU _ hyA) _ (hAU _ hxA) hlt)
  · intro x hx a ha
    have hxA := (hhdr x hx).1
    have hne : a ≠ header x := by
      rintro rfl
      exact Finset.disjoint_left.1 hF.arena.disj ha hxA
    have hsep := hF.arena.headers (hFU a ha) (hAU _ hxA) hne
    rcases lt_or_gt_of_ne hne with hlt | hlt
    · exact Or.inl ⟨by omega, hF.arena.apart a (hFU a ha) _ (hAU _ hxA) hlt⟩
    · exact Or.inr (hF.arena.apart _ (hAU _ hxA) a (hFU a ha) hlt)
  · intro y
    rw [← mem_granted, hF.arena.cover y]
    constructor
    · rintro ⟨a, ha, h1, h2⟩
      rcases Finset.mem_union.1 ha with ha | ha
      · exact Or.inl ⟨a, ha, h1, h2⟩
      · obtain ⟨x, hx, hxa⟩ := hA.live_of_mem a ha
        have he : header x = a := plus_one_inj ((hhdr x hx).2.1.symm.trans hxa)
        exact Or.inr ⟨x, hx, he.symm ▸ h1, he.symm ▸ h2⟩
    · rintro (⟨a, ha, h1, h2⟩ | ⟨x, hx, h1, h2⟩)
      · exact ⟨a, hFU a ha, h1, h2⟩
      · exact ⟨header x, hAU _ (hhdr x hx).1, h1, h2⟩

end Run

/-- The heap allocator keeps its heap tiled and ends every call, for any program that frees and
writes only what it holds, as long as the system grants less than 64 gigabytes. -/
theorem heap_tiled {base : ℕ} (hbase : 0 < base) (hlt : base < 2 ^ 64) (m : Mem) {s : Sys}
    (hr : Run.Reach (Sys.step base) (fun s e => s.Legal base e ∧ s.Under64G e) (Sys.start m) s) :
    s.Sound base ∧ ∀ e, s.Legal base e → s.Under64G e → (s.step base e).isSome := by
  have hI : s.Inv base := hr.invariant (Or.inl ⟨rfl, rfl, rfl⟩) fun t e u ht hok hs => by
    obtain ⟨u', hu', hI⟩ := ht.step hbase hlt hok.1 hok.2
    rw [hu'] at hs
    exact Option.some.inj hs ▸ hI
  refine ⟨hI.sound, fun e hl hu => ?_⟩
  obtain ⟨t, ht, -⟩ := hI.step hbase hlt hl hu
  rw [ht]
  rfl

instance (base : ℕ) (brk : List (ℕ × ℕ)) (k : ℕ) (r : Option ℕ) : Decidable (Fresh base brk k r) :=
  inferInstanceAs (Decidable (∀ a ∈ r, _))

instance (brk : List (ℕ × ℕ)) (k : ℕ) (r : Option ℕ) : Decidable (Few brk k r) :=
  inferInstanceAs (Decidable (∀ a ∈ r, _))

instance (base : ℕ) (s : Sys) : DecidablePred (s.Legal base)
  | .malloc _ _ => inferInstanceAs (Decidable (_ ∧ _))
  | .free _ => inferInstanceAs (Decidable (_ ∈ _))
  | .store _ _ _ => inferInstanceAs (Decidable (∃ x ∈ s.live, _))

instance (s : Sys) : DecidablePred s.Under64G
  | .malloc _ _ => inferInstanceAs (Decidable (Few _ _ _))
  | .free _ => inferInstanceAs (Decidable True)
  | .store _ _ _ => inferInstanceAs (Decidable True)

/-- The heap as the kernel grows it: every answer is the end of the heap. -/
def heapEnd : Sbrk := fun brk _ => some (0x3000 + (brk.map Prod.snd).sum)

/-- Two requests, of which the first is written to and then freed. -/
def twoRequests : List Event :=
  [.malloc 100 heapEnd, .malloc 5000 heapEnd, .store 0x12f90 99 7, .free 0x12f90]

theorem heap_tiled_twoRequests : ∃ s, Run.Reach (Sys.step 0x2000)
    (fun s e => s.Legal 0x2000 e ∧ s.Under64G e) (Sys.start fun _ => 0) s ∧
    s.live = [(0x11bf0, 5000)] ∧ s.Sound 0x2000 := by
  have hrun :
    ((Run.runsOk (Sys.step 0x2000) (fun s e => s.Legal 0x2000 e ∧ s.Under64G e) twoRequests
      (Sys.start fun _ => 0)).map (·.live)) = some [(0x11bf0, 5000)] := by decide +kernel
  obtain ⟨s, hs, hlive⟩ := Option.map_eq_some_iff.1 hrun
  have hr := Run.reach_of_runsOk hs
  exact ⟨s, hr, hlive, (heap_tiled (by decide) (by decide) _ hr).1⟩

/-- Thirty-three requests of nearly two gigabytes, all of them freed again. -/
def bigRequests : List Event :=
  List.replicate 33 (.malloc 0x7fffffe0 heapEnd) ++
    (List.range 33).map fun i => .free (0x3010 + i * 0x7ffffff0)

/-- The blocks become one of more than `2 ^ 32` headers, whose size wraps: most of the memory is in
no block any more. -/
theorem heap_size_wraps : ∃ s, Run.Reach (Sys.step 0x2000) (Sys.Legal 0x2000)
    (Sys.start fun _ => 0) s ∧ ¬ s.Sound 0x2000 := by
  have hrun : ((Run.runsOk (Sys.step 0x2000) (Sys.Legal 0x2000) bigRequests
      (Sys.start fun _ => 0)).map fun s => (s.live, s.heap.brk.head?,
        [s.heap.freep, ptr s.heap.mem 0x2000, size s.heap.mem 0x2000, ptr s.heap.mem 0x3000,
          size s.heap.mem 0x3000])) =
      some ([], some (0x1000002e00, 0x7ffffff0), [0x3000, 0x3000, 0, 0x2000, 0x7ffffdf]) := by
    decide +kernel
  obtain ⟨s, hs, hfin⟩ := Option.map_eq_some_iff.1 hrun
  simp only [Prod.mk.injEq, List.cons.injEq, and_true] at hfin
  obtain ⟨hlive, hbrk, hfreep, hpb, hsb, hpr, hsr⟩ := hfin
  refine ⟨s, Run.reach_of_runsOk hs, ?_⟩
  rw [Sys.Sound, hfreep, if_neg (by decide)]
  rintro ⟨F, hF⟩
  -- the only nodes are `base` and the block at the start of the heap
  have hnodes : ∀ a ∈ F, a = 0x3000 ∨ a = 0x2000 := by
    intro a ha
    obtain ⟨k, rfl⟩ := (hF.nodes a).1 ha
    refine Function.Iterate.rec (fun a => a = 0x3000 ∨ a = 0x2000) (Or.inl hfreep) ?_ k
    rintro a (rfl | rfl)
    · exact Or.inr hpr
    · exact Or.inl hpb
  have hin : ∃ r ∈ s.heap.brk, r.1 ≤ 0x1080002def ∧ 0x1080002def < r.1 + r.2 :=
    ⟨_, List.mem_of_mem_head? hbrk, by decide, by decide⟩
  rcases (hF.cover 0x1080002def).1 hin with ⟨a, ha, -, hlt⟩ | ⟨x, hx, -⟩
  · rcases hnodes a ha with rfl | rfl
    · rw [hsr] at hlt
      exact absurd hlt (by decide)
    · rw [hsb] at hlt
      exact absurd hlt (by decide)
  · rw [hlive] at hx
    cases hx

end Xv6.Umalloc
