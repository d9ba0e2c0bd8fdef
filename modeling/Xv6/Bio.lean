import Xv6.Log
import Xv6.Riscv
import Xv6.Lib.Links
import Xv6.Lib.Run

/-!
# The buffer cache (`kernel/bio.c`)

The buffers are on one circular list through `bcache.head`, the most recently used first.  `bget`
looks for a block from the front and recycles an unused buffer from the back; `brelse` puts a buffer
that nobody uses any more at the front.  What is done under `bcache.lock` is one function here.

`BioSys` is the cache with the disk under it and any number of processes in `bread`, `bwrite`,
`brelse`, `bpin` and `bunpin`.  A process waits for the lock of a buffer after `bget`, and others
may use the cache between its `releasesleep` and the rest of its `brelse`.
-/

namespace Xv6

open Bytes Links Run

def NBUF : ℕ := MAXOPBLOCKS * 3

instance : NeZero NBUF := ⟨by decide⟩

instance : NeZero NPROC := ⟨by decide⟩

/-- `struct buf` without its links; `lock` is the holder of the sleep lock. -/
structure Buf where
  valid : Bool
  dev : U32
  blockno : U32
  lock : Option (Fin NPROC)
  refcnt : U32
  data : Block

/-- The buffer of block `blockno` of `dev`. -/
def Buf.has (b : Buf) (dev blockno : U32) : Bool := b.dev = dev ∧ b.blockno = blockno

/-- The block of the buffer and its data. -/
def Buf.contents (b : Buf) : Bool × U32 × U32 × Block := (b.valid, b.dev, b.blockno, b.data)

/-- `&bcache.head`, or a buffer. -/
abbrev BufPtr := Option (Fin NBUF)

/-- `bcache`, without its lock. -/
structure Bcache where
  buf : Fin NBUF → Buf
  links : Links BufPtr

namespace Bcache

variable (c : Bcache) (b : Fin NBUF)

def setBuf (x : Buf) : Bcache := { c with buf := Function.update c.buf b x }

@[simp]
theorem setBuf_buf_self (x : Buf) : (c.setBuf b x).buf b = x := Function.update_self ..

variable {b} in
theorem setBuf_buf_of_ne {a : Fin NBUF} (h : a ≠ b) (x : Buf) : (c.setBuf b x).buf a = c.buf a :=
  Function.update_of_ne h ..

/-- What the new buffer has in common with the old one stays as it is. -/
theorem setBuf_same {β : Type*} (f : Buf → β) {x : Buf} (h : f x = f (c.buf b)) (a : Fin NBUF) :
    f ((c.setBuf b x).buf a) = f (c.buf a) := by
  by_cases ha : a = b
  · rw [ha, setBuf_buf_self, h]
  · rw [setBuf_buf_of_ne c ha]

/-- The buffers from `bcache.head` on, along `next`. -/
def order : List BufPtr := follow c.links.next NBUF none

/-- A test of the buffer at a pointer. -/
def test (p : Buf → Bool) : BufPtr → Bool
  | none => false
  | some b => p (c.buf b)

def binit : Bcache :=
  let L : Links BufPtr :=
    ⟨Function.update c.links.next none none, Function.update c.links.prev none none⟩
  { c with links := (List.finRange NBUF).foldl (fun L b => L.pushFront none (some b)) L }

/-- `bget` up to its `acquiresleep`; `none` is the panic. -/
def bget (dev blockno : U32) : Option (Fin NBUF × Bcache) :=
  match (find c.links.next none (c.test (·.has dev blockno)) NBUF (c.links.next none)).join with
  | some b => some (b, c.setBuf b { c.buf b with refcnt := (c.buf b).refcnt + 1 })
  | none =>
    match (find c.links.prev none (c.test (·.refcnt = 0)) NBUF (c.links.prev none)).join with
    | some b => some (b, c.setBuf b
        { c.buf b with dev := dev, blockno := blockno, valid := false, refcnt := 1 })
    | none => none

/-- The rest of `brelse` after `releasesleep`. -/
def brelse : Bcache :=
  let c := c.setBuf b { c.buf b with refcnt := (c.buf b).refcnt - 1 }
  if (c.buf b).refcnt = 0 then
    { c with links := (c.links.unlink (some b)).pushFront none (some b) }
  else c

theorem brelse_buf : (c.brelse b).buf =
    (c.setBuf b { c.buf b with refcnt := (c.buf b).refcnt - 1 }).buf := by
  rw [brelse]
  split_ifs <;> rfl

def bpin : Bcache := c.setBuf b { c.buf b with refcnt := (c.buf b).refcnt + 1 }

def bunpin : Bcache := c.setBuf b { c.buf b with refcnt := (c.buf b).refcnt - 1 }

end Bcache

/-- Where a process is: outside, in the `acquiresleep` of `bget`, in `bread` after it, or in
`brelse` after `releasesleep`. -/
inductive BioPc
  | out
  | locking (b : Fin NBUF)
  | reading (b : Fin NBUF)
  | releasing (b : Fin NBUF)
  deriving DecidableEq

structure BioSys where
  cache : Bcache
  disk : U32 → U32 → Block
  pc : Fin NPROC → BioPc

namespace BioSys

variable (s : BioSys)

def goto (p : Fin NPROC) (pc : BioPc) (c : Bcache) : BioSys :=
  { s with
    cache := c
    pc := Function.update s.pc p pc }

@[simp]
theorem goto_pc_self (p : Fin NPROC) (pc : BioPc) (c : Bcache) : (s.goto p pc c).pc p = pc :=
  Function.update_self ..

theorem goto_pc_of_ne {p q : Fin NPROC} (h : q ≠ p) (pc : BioPc) (c : Bcache) :
    (s.goto p pc c).pc q = s.pc q := Function.update_of_ne h ..

@[simp]
theorem goto_cache (p : Fin NPROC) (pc : BioPc) (c : Bcache) : (s.goto p pc c).cache = c := rfl

/-- `virtio_disk_rw(b, 1)`. -/
def write (b : Buf) : BioSys :=
  { s with disk := Function.update s.disk b.dev (Function.update (s.disk b.dev) b.blockno b.data) }

/-- `bread` after `bget`: `if(!b->valid) { virtio_disk_rw(b, 0); b->valid = 1; }`. -/
def fill (b : Buf) : Buf :=
  if b.valid then b else { b with data := s.disk b.dev b.blockno, valid := true }

end BioSys

inductive BioEvent
  | bread (p : Fin NPROC) (dev blockno : U32)
  /-- `acquiresleep` returns. -/
  | lock (p : Fin NPROC)
  /-- `bread` returns. -/
  | fill (p : Fin NPROC)
  /-- The holder of a buffer changes `b->data`. -/
  | store (p : Fin NPROC) (b : Fin NBUF) (data : Block)
  | bwrite (p : Fin NPROC) (b : Fin NBUF)
  | brelse (p : Fin NPROC) (b : Fin NBUF)
  /-- `brelse` goes on after `releasesleep`. -/
  | unref (p : Fin NPROC)
  | bpin (p : Fin NPROC) (b : Fin NBUF)
  | bunpin (p : Fin NPROC) (b : Fin NBUF)

/-- One step.  After a panic there is none. -/
def bioStep (e : BioEvent) (s : BioSys) : Option BioSys :=
  match e with
  | .bread p dev blockno =>
    if s.pc p = .out then (s.cache.bget dev blockno).map fun (b, c) => s.goto p (.locking b) c
    else none
  | .lock p =>
    match s.pc p with
    | .locking b =>
      if (s.cache.buf b).lock = none then
        some (s.goto p (.reading b) (s.cache.setBuf b { s.cache.buf b with lock := some p }))
      else none
    | _ => none
  | .fill p =>
    match s.pc p with
    | .reading b => some (s.goto p .out (s.cache.setBuf b (s.fill (s.cache.buf b))))
    | _ => none
  | .store p b data =>
    if s.pc p = .out ∧ (s.cache.buf b).lock = some p then
      some { s with cache := s.cache.setBuf b { s.cache.buf b with data := data } }
    else none
  | .bwrite p b =>
    if s.pc p = .out ∧ (s.cache.buf b).lock = some p then some (s.write (s.cache.buf b)) else none
  | .brelse p b =>
    if s.pc p = .out ∧ (s.cache.buf b).lock = some p then
      some (s.goto p (.releasing b) (s.cache.setBuf b { s.cache.buf b with lock := none }))
    else none
  | .unref p =>
    match s.pc p with
    | .releasing b => some (s.goto p .out (s.cache.brelse b))
    | _ => none
  | .bpin p b => if s.pc p = .out then some { s with cache := s.cache.bpin b } else none
  | .bunpin p b => if s.pc p = .out then some { s with cache := s.cache.bunpin b } else none

/-- The cache after `binit`, over any disk; the links had any value before. -/
def bioStart (links : Links BufPtr) (disk : U32 → U32 → Block) : BioSys where
  cache := Bcache.binit ⟨fun _ => ⟨false, 0, 0, none, 0, fun _ => 0⟩, links⟩
  disk := disk
  pc _ := .out

/-- All a step can do. -/
inductive BioTo (s : BioSys) : BioEvent → BioSys → Prop
  | bread {p : Fin NPROC} {dev blockno : U32} {b : Fin NBUF} {c : Bcache} : s.pc p = .out →
    s.cache.bget dev blockno = some (b, c) →
    BioTo s (.bread p dev blockno) (s.goto p (.locking b) c)
  | lock {p : Fin NPROC} {b : Fin NBUF} : s.pc p = .locking b → (s.cache.buf b).lock = none →
    BioTo s (.lock p)
      (s.goto p (.reading b) (s.cache.setBuf b { s.cache.buf b with lock := some p }))
  | fill {p : Fin NPROC} {b : Fin NBUF} : s.pc p = .reading b →
    BioTo s (.fill p) (s.goto p .out (s.cache.setBuf b (s.fill (s.cache.buf b))))
  | store {p : Fin NPROC} {b : Fin NBUF} {data : Block} : s.pc p = .out →
    (s.cache.buf b).lock = some p →
    BioTo s (.store p b data)
      { s with cache := s.cache.setBuf b { s.cache.buf b with data := data } }
  | bwrite {p : Fin NPROC} {b : Fin NBUF} : s.pc p = .out → (s.cache.buf b).lock = some p →
    BioTo s (.bwrite p b) (s.write (s.cache.buf b))
  | brelse {p : Fin NPROC} {b : Fin NBUF} : s.pc p = .out → (s.cache.buf b).lock = some p →
    BioTo s (.brelse p b)
      (s.goto p (.releasing b) (s.cache.setBuf b { s.cache.buf b with lock := none }))
  | unref {p : Fin NPROC} {b : Fin NBUF} : s.pc p = .releasing b →
    BioTo s (.unref p) (s.goto p .out (s.cache.brelse b))
  | bpin {p : Fin NPROC} {b : Fin NBUF} : s.pc p = .out →
    BioTo s (.bpin p b) { s with cache := s.cache.bpin b }
  | bunpin {p : Fin NPROC} {b : Fin NBUF} : s.pc p = .out →
    BioTo s (.bunpin p b) { s with cache := s.cache.bunpin b }

theorem bioStep_to {s t : BioSys} {e : BioEvent} (h : bioStep e s = some t) : BioTo s e t := by
  cases e with
  | bread p dev blockno =>
    simp only [bioStep] at h
    split_ifs at h with hp
    obtain ⟨⟨b, c⟩, hget, rfl⟩ := Option.map_eq_some_iff.1 h
    exact .bread hp hget
  | lock p =>
    simp only [bioStep] at h
    split at h
    · split_ifs at h with hl
      cases h
      exact .lock ‹_› hl
    · cases h
  | fill p =>
    simp only [bioStep] at h
    split at h
    · cases h
      exact .fill ‹_›
    · cases h
  | store p b data =>
    simp only [bioStep] at h
    split_ifs at h with hp
    cases h
    exact .store hp.1 hp.2
  | bwrite p b =>
    simp only [bioStep] at h
    split_ifs at h with hp
    cases h
    exact .bwrite hp.1 hp.2
  | brelse p b =>
    simp only [bioStep] at h
    split_ifs at h with hp
    cases h
    exact .brelse hp.1 hp.2
  | unref p =>
    simp only [bioStep] at h
    split at h
    · cases h
      exact .unref ‹_›
    · cases h
  | bpin p b =>
    simp only [bioStep] at h
    split_ifs at h with hp
    cases h
    exact .bpin hp
  | bunpin p b =>
    simp only [bioStep] at h
    split_ifs at h with hp
    cases h
    exact .bunpin hp

/-! ### The list -/

namespace Bcache

/-- All buffers are on the list, and no two of them have the same block. -/
structure Listed (c : Bcache) : Prop where
  linked : c.links.Linked none c.order
  perm : c.order.Perm ((List.finRange NBUF).map some)
  unique : ∀ a b, (c.buf a).dev ≠ 0 → (c.buf a).dev = (c.buf b).dev →
    (c.buf a).blockno = (c.buf b).blockno → a = b

variable {c : Bcache} {a b : Fin NBUF} {dev blockno : U32}

theorem order_eq {xs : List BufPtr} (h : c.links.Linked none xs)
    (hp : xs.Perm ((List.finRange NBUF).map some)) : c.order = xs := by
  rw [order, ← h.seg.follow, hp.length_eq, List.length_map, List.length_finRange]

namespace Listed

theorem mem (h : c.Listed) (b : Fin NBUF) : some b ∈ c.order := by
  rw [h.perm.mem_iff]
  exact List.mem_map_of_mem (List.mem_finRange b)

theorem length_order (h : c.Listed) : c.order.length = NBUF := by
  rw [h.perm.length_eq, List.length_map, List.length_finRange]

theorem find_next (h : c.Listed) (p : Buf → Bool) :
    find c.links.next none (c.test p) NBUF (c.links.next none) = c.order.find? (c.test p) := by
  rw [← h.linked.find_next, h.length_order]

theorem find_prev (h : c.Listed) (p : Buf → Bool) :
    find c.links.prev none (c.test p) NBUF (c.links.prev none) =
      c.order.reverse.find? (c.test p) := by
  rw [← h.linked.find_prev, h.length_order]

/-- A buffer changes and keeps its block. -/
theorem setBuf (h : c.Listed) {x : Buf} (hd : x.dev = (c.buf b).dev)
    (hb : x.blockno = (c.buf b).blockno) : (c.setBuf b x).Listed := by
  refine ⟨h.linked, h.perm, fun a a' h0 hdev hblk => ?_⟩
  rw [c.setBuf_same b Buf.dev hd] at h0 hdev
  rw [c.setBuf_same b Buf.dev hd] at hdev
  rw [c.setBuf_same b Buf.blockno hb, c.setBuf_same b Buf.blockno hb] at hblk
  exact h.unique a a' h0 hdev hblk

/-- An unused buffer gets a block that no buffer has. -/
theorem recycle (h : c.Listed) {x : Buf} (hx : x.has dev blockno)
    (hmiss : ∀ a, ¬ (c.buf a).has dev blockno) : (c.setBuf b x).Listed := by
  simp only [Buf.has, decide_eq_true_eq, not_and] at hx hmiss
  refine ⟨h.linked, h.perm, fun a a' h0 hdev hblk => ?_⟩
  simp only [Bcache.setBuf] at h0 hdev hblk
  by_cases ha : a = b <;> by_cases ha' : a' = b
  · rw [ha, ha']
  · subst ha
    rw [Function.update_self, Function.update_of_ne ha'] at hdev hblk
    exact absurd (hblk.symm.trans hx.2) (hmiss a' (hdev.symm.trans hx.1))
  · subst ha'
    rw [Function.update_self, Function.update_of_ne ha] at hdev hblk
    exact absurd (hblk.trans hx.2) (hmiss a (hdev.trans hx.1))
  · rw [Function.update_of_ne ha] at h0
    rw [Function.update_of_ne ha, Function.update_of_ne ha'] at hdev hblk
    exact h.unique a a' h0 hdev hblk

end Listed

/-- What `bget` does: the buffer of the block is used once more, or the last unused buffer of the
list is recycled. -/
inductive Gets (c : Bcache) (dev blockno : U32) : Fin NBUF → Bcache → Prop
  | hit {b : Fin NBUF} : (c.buf b).has dev blockno →
    Gets c dev blockno b (c.setBuf b { c.buf b with refcnt := (c.buf b).refcnt + 1 })
  | miss {b : Fin NBUF} {l r : List BufPtr} : (∀ a, ¬ (c.buf a).has dev blockno) →
    (c.buf b).refcnt = 0 → c.order = l ++ some b :: r → (∀ a, some a ∈ r → (c.buf a).refcnt ≠ 0) →
    Gets c dev blockno b (c.setBuf b
      { c.buf b with dev := dev, blockno := blockno, valid := false, refcnt := 1 })

/-- The buffer has the block. -/
theorem Gets.has {c' : Bcache} (h : Gets c dev blockno b c') : (c'.buf b).has dev blockno := by
  cases h with
  | hit hhit => simpa [Buf.has] using hhit
  | miss => simp [Buf.has]

/-- The other buffers stay as they are. -/
theorem Gets.other {c' : Bcache} (h : Gets c dev blockno b c') (ha : a ≠ b) :
    c'.buf a = c.buf a := by
  cases h with
  | hit | miss => exact c.setBuf_buf_of_ne ha _

theorem find_join {xs : List BufPtr} {p : Buf → Bool} (h : (xs.find? (c.test p)).join = some b) :
    xs.find? (c.test p) = some (some b) := by
  rcases hx : xs.find? (c.test p) with _ | x
  · rw [hx] at h
    cases h
  · rw [hx] at h
    exact congrArg some h

theorem Listed.find_join_none (h : c.Listed) {xs : List BufPtr} {p : Buf → Bool}
    (hxs : ∀ x, x ∈ xs ↔ x ∈ c.order) (hf : (xs.find? (c.test p)).join = none) (a : Fin NBUF) :
    ¬ p (c.buf a) := by
  intro ha
  rcases hx : xs.find? (c.test p) with _ | _ | x
  · exact List.find?_eq_none.1 hx (some a) ((hxs _).2 (h.mem a)) ha
  · exact absurd (List.find?_some hx) (by simp [test])
  · rw [hx] at hf
    cases hf

theorem Listed.bget (h : c.Listed) {c' : Bcache} (hget : c.bget dev blockno = some (b, c')) :
    Gets c dev blockno b c' := by
  rw [Bcache.bget, h.find_next, h.find_prev] at hget
  split at hget
  · next b' hfind =>
    cases hget
    have hp : c.test (·.has dev blockno) (some b) = true := List.find?_some (find_join hfind)
    exact .hit hp
  · next hnone =>
    split at hget
    · next b' hfind =>
      cases hget
      obtain ⟨hzero, l, r, hsplit, hr⟩ := List.find?_eq_some_iff_append.1 (find_join hfind)
      refine .miss (l := r.reverse) (r := l.reverse)
        (h.find_join_none (fun _ => Iff.rfl) hnone) (of_decide_eq_true hzero) ?_ fun a ha hz => ?_
      · rw [← List.reverse_reverse c.order, hsplit]
        simp
      · have := hr (some a) (List.mem_reverse.1 ha)
        simp [test, hz] at this
    · cases hget

theorem Listed.order_brelse (h : c.Listed) (b : Fin NBUF) : (c.brelse b).Listed ∧
    (c.brelse b).order =
      if (c.buf b).refcnt - 1 = 0 then some b :: c.order.erase (some b) else c.order := by
  have h' : (c.setBuf b { c.buf b with refcnt := (c.buf b).refcnt - 1 }).Listed :=
    h.setBuf rfl rfl
  have hcount : ((c.setBuf b { c.buf b with refcnt := (c.buf b).refcnt - 1 }).buf b).refcnt =
      (c.buf b).refcnt - 1 := by
    simp [Bcache.setBuf]
  simp only [Bcache.brelse, hcount]
  split_ifs with hz
  · obtain ⟨l, r, hsplit⟩ := List.append_of_mem (h.mem b)
    have hlinked := h.linked
    rw [hsplit] at hlinked
    have hnodup : (none :: l ++ some b :: r).Nodup := hlinked.nodup
    have hb : some b ∉ none :: (l ++ r) := by
      rw [List.nodup_middle, List.nodup_cons] at hnodup
      exact hnodup.1
    have hfront := hlinked.unlink.pushFront hb
    have hperm : (some b :: (l ++ r)).Perm ((List.finRange NBUF).map some) :=
      List.perm_middle.symm.trans (hsplit ▸ h.perm)
    have horder :=
      order_eq (c := { (c.setBuf b { c.buf b with refcnt := (c.buf b).refcnt - 1 }) with
        links := (c.links.unlink (some b)).pushFront none (some b) }) hfront hperm
    refine ⟨⟨horder ▸ hfront, horder ▸ hperm, h'.unique⟩, horder.trans ?_⟩
    have hnl : some b ∉ l := fun hm => hb (by simp [hm])
    rw [hsplit, List.erase_append_right _ hnl, List.erase_cons_head]
  · exact ⟨h', rfl⟩

/-- `binit` links every buffer in. -/
theorem listed_binit (links : Links BufPtr) (x : Buf) (hx : x.dev = 0) :
    (binit ⟨fun _ => x, links⟩).Listed := by
  have hfold : ∀ (bs : List (Fin NBUF)) (L : Links BufPtr) (xs : List BufPtr), L.Linked none xs →
      bs.Nodup → (∀ b ∈ bs, some b ∉ xs) →
      (bs.foldl (fun L b => L.pushFront none (some b)) L).Linked none
        ((bs.map some).reverse ++ xs) := by
    intro bs
    induction bs with
    | nil => exact fun L xs hL _ _ => hL
    | cons b bs ih =>
      intro L xs hL hnodup hfresh
      obtain ⟨hb, hbs⟩ := List.nodup_cons.1 hnodup
      have hpush := hL.pushFront (b := some b) (by simpa using hfresh b (by simp))
      have := ih _ _ hpush hbs fun b' hb' => by
        have hne : b' ≠ b := fun he => hb (he ▸ hb')
        simpa [hne] using hfresh b' (List.mem_cons_of_mem _ hb')
      simpa using this
  have hlinked := hfold (List.finRange NBUF)
    ⟨Function.update links.next none none, Function.update links.prev none none⟩ []
    ⟨by simp, by simp [Seg]⟩ (List.nodup_finRange _) (by simp)
  rw [List.append_nil] at hlinked
  have hperm : ((List.finRange NBUF).map some).reverse.Perm ((List.finRange NBUF).map some) :=
    List.reverse_perm _
  have horder := order_eq (c := binit ⟨fun _ => x, links⟩) hlinked hperm
  exact ⟨horder ▸ hlinked, horder ▸ hperm, fun a b h0 => absurd hx h0⟩

end Bcache

/-! ### Runs -/

namespace BioSys

variable {s t : BioSys} {e : BioEvent}

/-- The buffer that `e` releases for the last time. -/
def idle (s : BioSys) : BioEvent → BufPtr
  | .unref p =>
    match s.pc p with
    | .releasing b => if (s.cache.buf b).refcnt - 1 = 0 then some b else none
    | _ => none
  | _ => none

/-- The list is in order, and a step changes the order by moving a released buffer to the front. -/
theorem listed_step (h : s.cache.Listed) (hs : bioStep e s = some t) :
    t.cache.Listed ∧ t.cache.order = match s.idle e with
      | some b => some b :: s.cache.order.erase (some b)
      | none => s.cache.order := by
  cases bioStep_to hs with
  | bread _ hget =>
    cases h.bget hget with
    | hit => exact ⟨h.setBuf rfl rfl, rfl⟩
    | miss hmiss => exact ⟨h.recycle (by simp [Buf.has]) hmiss, rfl⟩
  | lock | store | brelse | bpin | bunpin => exact ⟨h.setBuf rfl rfl, rfl⟩
  | fill =>
    refine ⟨h.setBuf ?_ ?_, rfl⟩
    · rw [fill]
      split_ifs <;> rfl
    · rw [fill]
      split_ifs <;> rfl
  | bwrite => exact ⟨h, rfl⟩
  | @unref p b hp =>
    obtain ⟨hl, ho⟩ := h.order_brelse b
    refine ⟨hl, ho.trans ?_⟩
    simp only [idle, hp]
    split_ifs <;> rfl

/-- A step leaves the block of a buffer in use. -/
theorem keeps_block (h : s.cache.Listed) (hs : bioStep e s = some t) {b : Fin NBUF}
    (hb : (s.cache.buf b).refcnt ≠ 0) : (t.cache.buf b).dev = (s.cache.buf b).dev ∧
      (t.cache.buf b).blockno = (s.cache.buf b).blockno := by
  have hset : ∀ {a : Fin NBUF} {x : Buf}, x.dev = (s.cache.buf a).dev →
      x.blockno = (s.cache.buf a).blockno →
      ((s.cache.setBuf a x).buf b).dev = (s.cache.buf b).dev ∧
        ((s.cache.setBuf a x).buf b).blockno = (s.cache.buf b).blockno := fun hd hn =>
    ⟨s.cache.setBuf_same _ Buf.dev hd b, s.cache.setBuf_same _ Buf.blockno hn b⟩
  cases bioStep_to hs with
  | bread _ hget =>
    cases h.bget hget with
    | hit => exact hset rfl rfl
    | miss _ hzero =>
      have hne : b ≠ _ := fun he => hb (he ▸ hzero)
      simp [goto, Bcache.setBuf, Function.update_of_ne hne]
  | lock | store | brelse | bpin | bunpin => exact hset rfl rfl
  | fill =>
    refine hset ?_ ?_
    · rw [fill]
      split_ifs <;> rfl
    · rw [fill]
      split_ifs <;> rfl
  | bwrite => exact ⟨rfl, rfl⟩
  | @unref p a hp =>
    simp only [goto, Bcache.brelse]
    split_ifs <;> exact hset rfl rfl

end BioSys

end Xv6
