import Xv6.Lib.Run
import Xv6.Working

/-!
# Runs of the address spaces

`SpaceSys` is the kernel with its address spaces, and its events are what `exec`, `fork`, `exit`,
`mmap`, `munmap`, `sbrk`, page faults, the copies to and from user memory and `write` do to them, in
any order.  `SpaceTo` says all that one event can do; the invariants of runs are derived from it.
-/

namespace Xv6

open Bytes Wp Count Run

section

variable [Layout]

/-- The kernel with its address spaces and the pages that have been taken for trapframes. -/
structure SpaceSys where
  kernel : Kernel
  live : List UvmPtr
  frames : List ℕ

/-- What happens to address spaces. -/
inductive SpaceEvent
  /-- `kalloc` of a page for a trapframe -/
  | frame
  /-- `uvm_new` with the trapframe in page `f` -/
  | new (u : UvmPtr) (f : ℕ)
  /-- `uvm_map`, for `mmap` and for the segments, the stack and the heap of `exec` -/
  | map (u : UvmPtr) (addr length : U64) (perm flags : U32) (inode : Option ℕ) (offset filesz : U32)
  /-- a page fault of the hardware, handled by `usertrap` -/
  | fault (u : UvmPtr) (va perm : U64)
  /-- a store of the process -/
  | store (u : UvmPtr) (va : U64) (x : Byte)
  /-- `pgt_clearubit`, for the guard page of `exec` -/
  | guard (u : UvmPtr) (va : U64)
  /-- `uvm.heap = uvm_va2vma(&uvm, va)` of `exec` -/
  | heap (u : UvmPtr) (va : U64)
  /-- `uvm_dup`, for `fork` -/
  | dup (p c : UvmPtr)
  | copyout (u : UvmPtr) (dstva : U64) (src : ℕ → Byte) (len : U64)
  | copyin (u : UvmPtr) (srcva len : U64)
  | copyinstr (u : UvmPtr) (srcva max : U64)
  | write (i : ℕ) (fd : U32) (p : U64) (n : U32)
  | unmap (u : UvmPtr) (addr length : U64)
  /-- `uvm_growheap`, for `sbrk` -/
  | sbrk (u : UvmPtr) (n : U32)
  | free (u : UvmPtr)
  /-- the end of `exec`: `p->uvm = uvm` -/
  | commit (i : ℕ)
  /-- the rest of the kernel: the files, pipes and processes become those of `k` -/
  | other (k : Kernel)

/-- The address space that an event takes the vmas and the pages of `u` from. -/
def SpaceEvent.source : SpaceEvent → UvmPtr → UvmPtr
  | .dup p c, u => if u = c then p else u
  | .commit i, u => if u = .proc i then .exec i else u
  | _, u => u

namespace SpaceSys

/-- Run kernel code; `live` and `frames` say what exists after it. -/
def run {α : Type} (s : SpaceSys) (m : K α) (live : α → List UvmPtr) (frames : α → List ℕ) :
    Option SpaceSys :=
  match m s.kernel with
  | .ok (x, k) => some ⟨k, live x, frames x⟩
  | .error _ => none

/-- Run code that works in the address spaces in `us`. -/
def runIn {α : Type} (s : SpaceSys) (us : List UvmPtr) (m : K α) : Option SpaceSys :=
  if ∀ u ∈ us, u ∈ s.live then s.run m (fun _ => s.live) fun _ => s.frames else none

/-- One event.  A run ends with a panic. -/
def step : SpaceEvent → SpaceSys → Option SpaceSys
  | .frame, s => s.run (liftM kalloc : K U64) (fun _ => s.live)
      fun pa => if pa = 0 then s.frames else pa.toNat / 4096 :: s.frames
  | .new u f, s =>
    if u ∉ s.live ∧ f ∈ s.frames then
      s.run (uvmNew u (pageAddr f)) (fun ok => if ok then u :: s.live else s.live) fun _ => s.frames
    else none
  | .map u addr length perm flags inode offset filesz, s =>
    s.runIn [u] (uvmMap u addr length perm flags inode offset filesz)
  | .fault u va perm, s => s.runIn [u] (uvmCompletemap u (pgRoundDown va) perm)
  | .store u va x, s => s.runIn [u] (userStore u va x)
  | .guard u va, s =>
    s.runIn [u] (liftM (pgtClearubit (s.kernel.uvms u).pagetable va) : K Unit)
  | .heap u va, s => s.runIn [u]
      (modify fun k => k.setHeap u (uvmVa2vma k u va) : K Unit)
  | .dup p c, s =>
    if p ≠ c ∧ ∀ i < VMA_SIZE, s.kernel.slot c i = none then s.runIn [p, c] (uvmDup p c) else none
  | .copyout u dstva src len, s => s.runIn [u] (copyout u dstva src len)
  | .copyin u srcva len, s => s.runIn [u] (copyin u srcva len)
  | .copyinstr u srcva max, s => s.runIn [u] (copyinstr u srcva max)
  | .write i fd p n, s => s.runIn [.proc i] (sysWrite i fd p n)
  | .unmap u addr length, s => s.runIn [u] (uvmUnmap u addr length)
  | .sbrk u n, s => s.runIn [u] (uvmGrowheap u n)
  | .free u, s =>
    if u ∈ s.live then
      s.run (uvmFree u) (fun _ => s.live.filter (· ≠ u)) fun _ => s.frames
    else none
  | .commit i, s =>
    if .exec i ∈ s.live ∧ .proc i ∉ s.live then
      some ⟨(s.kernel.setUvm (.proc i) (s.kernel.uvms (.exec i))).setUvm (.exec i) .zero,
        .proc i :: s.live.filter (· ≠ .exec i), s.frames⟩
    else none
  | .other k, s =>
    some { s with kernel :=
      { k with uvms := s.kernel.uvms, vmas := s.kernel.vmas, phys := s.kernel.phys } }

end SpaceSys

/-- Maps are not empty, end below the trapframe, have no permissions above the flag bits and no
stores without loads; a `fork` does not run out of memory; the guard page is readable; only ends of
vmas are unmapped; and a heap that is resized is there and has at least one page. -/
def PlainMaps (s : SpaceSys) : SpaceEvent → Prop
  | .map _ addr length perm _ _ _ _ =>
    0 < length.toNat ∧ addr.toNat + length.toNat ≤ TRAPFRAME.toNat ∧ perm.toNat < 1024 ∧ Plain perm
  | .fault _ _ perm => IsAccess perm
  | .guard u va => ∃ j, uvmVa2vma s.kernel u va = some j ∧
    (s.kernel.vmas j).perm.setWidth 64 &&& PTE_R ≠ 0
  | .dup p c => ∀ k, uvmDup p c s.kernel ≠ .ok (false, k)
  | .unmap u addr length => ∃ j, uvmVa2vma s.kernel u addr = some j ∧
    (s.kernel.vmas j).End addr length
  | .sbrk u _ => ∀ j, (s.kernel.uvms u).heap = some j →
    (∃ i < VMA_SIZE, s.kernel.slot u i = some j) ∧ PGSIZE.toNat ≤ (s.kernel.vmas j).length.toNat
  | _ => True

instance (s : SpaceSys) : DecidablePred (PlainMaps s)
  | .map _ addr length perm _ _ _ _ => inferInstanceAs (Decidable (0 < length.toNat ∧
      addr.toNat + length.toNat ≤ TRAPFRAME.toNat ∧ perm.toNat < 1024 ∧ Plain perm))
  | .fault _ _ perm => inferInstanceAs (Decidable (IsAccess perm))
  | .guard u va => inferInstanceAs (Decidable (∃ j ∈ uvmVa2vma s.kernel u va,
      (s.kernel.vmas j).perm.setWidth 64 &&& PTE_R ≠ 0))
  | .dup p c => decidable_of_iff (resultOf (uvmDup p c s.kernel) ≠ some false) (by
      cases h : uvmDup p c s.kernel with
      | error e => simp [resultOf, PlainMaps, h]
      | ok x => obtain ⟨x, k⟩ := x; cases x <;> simp [resultOf, PlainMaps, h])
  | .unmap u addr length => inferInstanceAs (Decidable (∃ j ∈ uvmVa2vma s.kernel u addr,
      (s.kernel.vmas j).End addr length))
  | .sbrk u _ => inferInstanceAs (Decidable (∀ j ∈ (s.kernel.uvms u).heap,
      (∃ i < VMA_SIZE, s.kernel.slot u i = some j) ∧
        PGSIZE.toNat ≤ (s.kernel.vmas j).length.toNat))
  | .frame | .new .. | .store .. | .heap .. | .copyout .. | .copyin .. | .copyinstr .. | .write ..
  | .free .. | .commit .. | .other .. => inferInstanceAs (Decidable True)

/-- The kernel after `kinit`: pages are free, or the kernel has them; no address space exists. -/
structure SpaceSys.Start (s : SpaceSys) : Prop where
  live : s.live = []
  frames : s.frames = []
  slot : ∀ u i, s.kernel.slot u i = none
  nodup : s.kernel.phys.freelist.Nodup
  free : ∀ f ∈ s.kernel.phys.freelist, Allocatable f ∧ s.kernel.phys.refs f = 0
  taken : ∀ f, Allocatable f → f ∉ s.kernel.phys.freelist → 0 < s.kernel.phys.refs f

/-- `kinit` leaves such a kernel, from memory that is cleared. -/
theorem SpaceSys.kinit_start {s : SpaceSys} (hlive : s.live = []) (hframes : s.frames = [])
    (hslot : ∀ u i, s.kernel.slot u i = none) (hfree : s.kernel.phys.freelist = [])
    (hrefs : ∀ f, s.kernel.phys.refs f = 0) :
    wp (liftM kinit : K Unit) (fun _ => False) (fun _ t => Start { s with kernel := t })
      s.kernel := by
  rw [wp_liftP]
  refine (kinit_spec hfree).mono ?_
  rintro - p ⟨hp, hnodup, hmem⟩
  refine ⟨hlive, hframes, hslot, hnodup, fun f hf => ⟨(hmem f).1 hf, ?_⟩, fun f hA hf => ?_⟩
  · change p.refs f = 0
    rw [hp, hrefs]
  · exact absurd ((hmem f).2 hA) hf

/-- The pages that the kernel takes for its page table and its stacks. -/
theorem SpaceSys.Start.kalloc {s : SpaceSys} (h : s.Start) :
    wp (liftM kalloc : K U64) (fun _ => False) (fun _ t => Start { s with kernel := t })
      s.kernel := by
  rw [wp_liftP, Xv6.kalloc]
  simp only [wp_bind, wp_get]
  have hnodup := h.nodup
  have hfree := h.free
  have htaken := h.taken
  rcases hfl : s.kernel.phys.freelist with _ | ⟨g, free⟩
  · exact h
  rw [hfl] at hnodup hfree htaken
  obtain ⟨hg, hnodup⟩ := List.nodup_cons.1 hnodup
  have hA := (hfree g List.mem_cons_self).1
  rw [wp_bind, wp_set, ofNat_shiftLeft_eq_pageAddr (by have := hA.2; omega), wp_bind, wp_memset hA]
  refine ⟨h.live, h.frames, h.slot, hnodup, fun f hf => ?_, fun f hAf hf => ?_⟩
  · have hne : f ≠ g := fun he => hg (he ▸ hf)
    obtain ⟨hAf, hr⟩ := hfree f (List.mem_cons_of_mem _ hf)
    exact ⟨hAf, (Function.update_of_ne hne ..).trans hr⟩
  · change 0 < Function.update s.kernel.phys.refs g 1 f
    by_cases hne : f = g
    · rw [hne, Function.update_self]
      exact one_pos
    · rw [Function.update_of_ne hne]
      exact htaken f hAf fun hmem => (List.mem_cons.1 hmem).elim hne hf

/-! ### What an event does -/

/-- The events of code that works in one address space, the pages it may store to, and whether it
changes files. -/
inductive WorksIn : SpaceEvent → UvmPtr → (ℕ → Prop) → Prop → Prop
  | fault (u : UvmPtr) (va perm : U64) : WorksIn (.fault u va perm) u (fun _ => False) False
  | store (u : UvmPtr) (va : U64) (x : Byte) : WorksIn (.store u va x) u (· = vpn va) False
  | copyout (u : UvmPtr) (dstva : U64) (src : ℕ → Byte) (len : U64) :
      WorksIn (.copyout u dstva src len) u
        (fun v => ∃ va ∈ touchedPages dstva len.toNat, v = vpn va) False
  | copyin (u : UvmPtr) (srcva len : U64) : WorksIn (.copyin u srcva len) u (fun _ => False) False
  | copyinstr (u : UvmPtr) (srcva max : U64) :
      WorksIn (.copyinstr u srcva max) u (fun _ => False) False
  | write (i : ℕ) (fd : U32) (p : U64) (n : U32) :
      WorksIn (.write i fd p n) (.proc i) (fun _ => False) True

/-- **All that one event can do**, to the kernel, to the entries and to the pages that the kernel
keeps for itself. -/
inductive SpaceTo (s : SpaceSys) (ext : ℕ → ℕ∞) (a : Maps) :
    SpaceEvent → SpaceSys → (ℕ → ℕ∞) → Maps → Prop
  /-- a request that is refused -/
  | same {e : SpaceEvent} (he : ∀ u, e.source u = u) : SpaceTo s ext a e s ext a
  | frame {g : ℕ} {d : ℕ → Byte} {phys : Phys} (hg : a.page g = none) :
      SpaceTo s ext a .frame ⟨s.kernel.io phys s.kernel.fs, s.live, g :: s.frames⟩
        (fun f => ext f + hit (some g) f) (a.setPage g (some ⟨1, d⟩))
  | newFails {u : UvmPtr} {f : ℕ} {phys : Phys} (hu : u ∉ s.live) :
      SpaceTo s ext a (.new u f)
        ⟨(s.kernel.setUvm u .zero).io phys s.kernel.fs, s.live, s.frames⟩ ext a
  | new {u : UvmPtr} {f g : ℕ} {phys : Phys} (hu : u ∉ s.live) (hf : f ∈ s.frames)
      (hg : Allocatable g) (hroot : ¬ a.root g) (hleaf : ∀ v, a.leaf g v = 0) :
      SpaceTo s ext a (.new u f)
        ⟨(s.kernel.setUvm u { Uvm.zero with pagetable := pageAddr g }).io phys s.kernel.fs,
          u :: s.live, s.frames⟩ ext (a.newSpace g (pageAddr f))
  | map {u : UvmPtr} {addr length : U64} {perm flags : U32} {inode : Option ℕ} {offset filesz : U32}
      {i j : ℕ} (hu : u ∈ s.live) (hi : freeSlot s.kernel u = some i)
      (hj : freeVma s.kernel = some j) (hfree : uvmIsrangefree s.kernel u addr length = true) :
      SpaceTo s ext a (.map u addr length perm flags inode offset filesz)
        ⟨s.kernel.addVma u i j ⟨true, inode, offset, filesz, addr, length, perm, flags⟩, s.live,
          s.frames⟩ ext a
  | works {e : SpaceEvent} {u : UvmPtr} {D : ℕ → Prop} {q : Prop} {t : Kernel} {b : Maps}
      (he : WorksIn e u D q) (hu : u ∈ s.live) (hw : Works (· ∈ s.live) ext u D q s.kernel a t b) :
      SpaceTo s ext a e ⟨t, s.live, s.frames⟩ ext b
  | guard {u : UvmPtr} {va : U64} {j : ℕ} {phys : Phys} (hu : u ∈ s.live)
      (hj : uvmVa2vma s.kernel u va = some j) :
      SpaceTo s ext a (.guard u va) ⟨s.kernel.io phys s.kernel.fs, s.live, s.frames⟩ ext
        (a.setLeaf (s.kernel.root u) (vpn va) (a.leaf (s.kernel.root u) (vpn va) &&& ~~~PTE_U))
  | heap {u : UvmPtr} {va : U64} (hu : u ∈ s.live) :
      SpaceTo s ext a (.heap u va)
        ⟨s.kernel.setHeap u (uvmVa2vma s.kernel u va), s.live, s.frames⟩ ext a
  | dup {p c : UvmPtr} {own : ℕ → Owner} {t : Kernel} {b : Maps} (hp : p ∈ s.live) (hc : c ∈ s.live)
      (hne : p ≠ c) (hempty : ∀ i, s.kernel.slot c i = none)
      (hrun : uvmDup p c s.kernel = .ok (true, t))
      (hd : Dupping (· ∈ s.live) ext p c s.kernel a VMA_SIZE t own b) :
      SpaceTo s ext a (.dup p c) ⟨t, s.live, s.frames⟩ ext b
  /-- an end of a vma goes, for `munmap` or for the heap -/
  | unmap {e : SpaceEvent} {u : UvmPtr} {addr length : U64} {i j : ℕ} {phys : Phys} {fs : Fs}
      (he : e = .unmap u addr length ∨ (∃ n, e = .sbrk u n) ∧ addr ≠ (s.kernel.vmas j).start)
      (hs : s.kernel.slot u i = some j) (hend : (s.kernel.vmas j).End addr length)
      (hrun : e = .unmap u addr length → uvmUnmap u addr length s.kernel =
        .ok ((), (s.kernel.unmapped u j addr length).io phys fs)) :
      SpaceTo s ext a e
        ⟨(s.kernel.unmapped u j addr length).io phys fs, s.live, s.frames⟩ ext
        (a.unmapTo (s.kernel.root u) (unmapRange (s.kernel.vmas j) addr length))
  | grow {u : UvmPtr} {n : U32} {i j : ℕ} {length : U64} (hr : HeapRoom s.kernel u i j length) :
      SpaceTo s ext a (.sbrk u n)
        ⟨s.kernel.setVma j { s.kernel.vmas j with length := length }, s.live, s.frames⟩ ext a
  | free {u : UvmPtr} {t : Kernel} {b : Maps} (hu : u ∈ s.live)
      (he : Emptied u VMA_SIZE s.kernel t a b) :
      SpaceTo s ext a (.free u) ⟨t, s.live.filter (· ≠ u), s.frames⟩ ext b
  | commit {i : ℕ} (hl : .exec i ∈ s.live) (hd : .proc i ∉ s.live) :
      SpaceTo s ext a (.commit i)
        ⟨(s.kernel.setUvm (.proc i) (s.kernel.uvms (.exec i))).setUvm (.exec i) .zero,
          .proc i :: s.live.filter (· ≠ .exec i), s.frames⟩ ext a
  | other {k : Kernel} : SpaceTo s ext a (.other k) { s with kernel :=
      { k with uvms := s.kernel.uvms, vmas := s.kernel.vmas, phys := s.kernel.phys } } ext a

/-- The entries track the vmas, and the kernel has the pages of the trapframes. -/
structure SpaceSys.Tracked (s : SpaceSys) (ext : ℕ → ℕ∞) (own : ℕ → Owner) (a : Maps) : Prop where
  tracked : Xv6.Tracked (· ∈ s.live) ext own s.kernel a
  frames : ∀ f ∈ s.frames, 1 ≤ ext f ∧ f < 2 ^ 44

/-- There are entries that track the vmas. -/
def SpaceSys.Inv (s : SpaceSys) : Prop := ∃ ext own a, s.Tracked ext own a

theorem Tracked.congr {L L' : UvmPtr → Prop} {ext : ℕ → ℕ∞} {own : ℕ → Owner} {s : Kernel}
    {a : Maps} (h : Tracked L ext own s a) (hL : ∀ u, L u ↔ L' u) : Tracked L' ext own s a := by
  rwa [← show L = L' from funext fun u => propext (hL u)]

namespace SpaceSys

variable {s t : SpaceSys}

omit [Layout] in
theorem run_some {α : Type} {m : K α} {live : α → List UvmPtr} {frames : α → List ℕ}
    (h : s.run m live frames = some t) :
    ∃ x k, m s.kernel = .ok (x, k) ∧ t = ⟨k, live x, frames x⟩ := by
  unfold run at h
  split at h
  · rename_i x k hm
    exact ⟨x, k, hm, (Option.some.inj h).symm⟩
  · cases h

omit [Layout] in
theorem runIn_some {α : Type} {us : List UvmPtr} {m : K α} (h : s.runIn us m = some t) :
    (∀ u ∈ us, u ∈ s.live) ∧ ∃ x k, m s.kernel = .ok (x, k) ∧ t = ⟨k, s.live, s.frames⟩ := by
  unfold runIn at h
  split_ifs at h with hus
  exact ⟨hus, run_some h⟩

variable {ext : ℕ → ℕ∞} {own : ℕ → Owner} {a : Maps} {u : UvmPtr}

/-- The event `e` has led to `t`, where the entries track the vmas. -/
def Leads (s : SpaceSys) (ext : ℕ → ℕ∞) (a : Maps) (e : SpaceEvent) (t : SpaceSys) : Prop :=
  ∃ ext' own' b, t.Tracked ext' own' b ∧ SpaceTo s ext a e t ext' b

/-- Code that works in one address space. -/
theorem Tracked.works {α : Type} {m : K α} {e : SpaceEvent} {D : ℕ → Prop} {q : Prop}
    (h : s.Tracked ext own a) (he : WorksIn e u D q) (hs : s.runIn [u] m = some t)
    (hm : u ∈ s.live → KeepsWorking (· ∈ s.live) ext u D q s.kernel a m) : s.Leads ext a e t := by
  obtain ⟨hus, x, k, hrun, rfl⟩ := runIn_some hs
  have hu := hus u (by simp)
  obtain ⟨own', b, hT, hw⟩ := ((hm hu).start s.kernel (h.tracked.working u D q)).ok hrun
  exact ⟨ext, own', b, ⟨hT, h.frames⟩, .works he hu hw⟩

/-- The kernel takes a page for a trapframe. -/
theorem Tracked.frame (h : s.Tracked ext own a) (hs : step .frame s = some t) :
    s.Leads ext a .frame t := by
  obtain ⟨pa, k, hrun, rfl⟩ := run_some hs
  have hT := h.tracked
  have hw : wp (liftM kalloc : K U64) (fun _ => True) (fun pa k => s.Leads ext a .frame ⟨k, s.live,
      if pa = 0 then s.frames else pa.toNat / 4096 :: s.frames⟩) s.kernel := by
    rw [wp_liftP]
    refine (kalloc_spec hT.rep).mono fun pa q hq => ?_
    rcases hq with ⟨rfl, rfl, -⟩ | ⟨g, rfl, hfree, -, hg, -, hrep⟩
    · rw [if_pos rfl]
      exact ⟨ext, own, a, h, .same fun _ => rfl⟩
    have hnone : a.page g = none := by
      rw [hT.rep.alloc.page_eq, hfree]
      exact if_neg (by simp)
    rw [if_neg hg.pageAddr_ne_zero, toNat_pageAddr (by have := hg.lt; omega),
      Nat.mul_div_cancel _ (by norm_num)]
    refine ⟨_, _, _, ⟨hT.take hnone s.kernel.fs hrep, fun f hmem => ?_⟩, .frame hnone⟩
    rcases List.mem_cons.1 hmem with rfl | hmem
    · exact ⟨by rw [hit_some_self]; exact le_add_self, hg.lt⟩
    · exact ⟨(h.frames f hmem).1.trans le_self_add, (h.frames f hmem).2⟩
  exact hw.ok hrun

/-- A new address space. -/
theorem Tracked.new {f : ℕ} (h : s.Tracked ext own a) (hs : step (.new u f) s = some t) :
    s.Leads ext a (.new u f) t := by
  rw [step] at hs
  split_ifs at hs with hc
  obtain ⟨hu, hmem⟩ := hc
  obtain ⟨ok, k, hrun, rfl⟩ := run_some hs
  have hT := h.tracked
  obtain ⟨hext, hlt⟩ := h.frames f hmem
  have hspec := (uvmNew_spec (E := fun _ => True) (u := u) hT.rep
    (pageAddr_aligned (f := f) (by omega))).ok hrun
  obtain ⟨phys, own', hok⟩ := hspec
  cases ok with
  | true =>
    rw [if_pos rfl] at hok
    obtain ⟨g, -, hg, hroot, hleaf, hrep, -, rfl⟩ := hok
    refine ⟨ext, own', _,
      ⟨(hT.newSpace hu hg hroot hleaf hlt hext hrep s.kernel.fs).congr fun u' => ?_, h.frames⟩,
      .new hu hmem hg hroot hleaf⟩
    rw [if_pos rfl, List.mem_cons, or_comm]
  | false =>
    rw [if_neg Bool.false_ne_true] at hok
    obtain ⟨hrep, -, rfl⟩ := hok
    have hne : ∀ u', u' ∈ s.live → u' ≠ u := fun u' hu' he => hu (he ▸ hu')
    refine ⟨ext, own', a, ⟨hT.shrink ⟨hrep, (hT.spaces.setUvm_unused hu fun _ => rfl).frame rfl rfl,
      hT.counted⟩ (fun _ hu' => hu') (fun _ => le_rfl) (fun u' hu' => ?_) (fun _ _ _ _ => rfl)
      (fun _ _ _ _ => rfl) fun u' i j hj => ?_, h.frames⟩, .newFails hu⟩
    · rw [Kernel.root, Kernel.root, Kernel.io_uvms, Kernel.setUvm_of_ne (hne u' hu')]
    · by_cases hu' : u' = u
      · rw [hu', Kernel.slot, Kernel.io_uvms, Kernel.setUvm_self] at hj
        cases hj
      · rw [Kernel.slot, Kernel.io_uvms, Kernel.setUvm_of_ne hu'] at hj
        exact ⟨j, hj, rfl, fun _ hv => hv⟩

/-- A new vma. -/
theorem Tracked.map {addr length : U64} {perm flags : U32} {inode : Option ℕ} {offset filesz : U32}
    (h : s.Tracked ext own a)
    (hok : PlainMaps s (.map u addr length perm flags inode offset filesz))
    (hs : step (.map u addr length perm flags inode offset filesz) s = some t) :
    s.Leads ext a (.map u addr length perm flags inode offset filesz) t := by
  obtain ⟨hus, x, k, hrun, rfl⟩ := runIn_some hs
  have hu := hus u (by simp)
  obtain ⟨hpos, hend, hperm, hplain⟩ := hok
  refine (uvmMap_spec (E := fun _ => True) (Q := fun _ k => s.Leads ext a _ ⟨k, s.live, s.frames⟩)
    ⟨ext, own, a, h, .same fun _ => rfl⟩ fun i j hi hj hfree => ?_).ok hrun
  exact ⟨ext, own, a, ⟨h.tracked.addVma hu hi hj hfree rfl ⟨hpos, hend⟩ hperm hplain, h.frames⟩,
    .map hu hi hj hfree⟩

/-- A page fault of the hardware; it may be one for an access that the entry allows. -/
theorem Tracked.fault {va perm : U64} (h : s.Tracked ext own a)
    (hok : PlainMaps s (.fault u va perm)) (hs : step (.fault u va perm) s = some t) :
    s.Leads ext a (.fault u va perm) t := by
  obtain ⟨hus, x, k, hrun, rfl⟩ := runIn_some hs
  have hu := hus u (by simp)
  obtain ⟨own', b, hT, hf, -⟩ := (h.tracked.completemap (E := fun _ => True) hu hok
    (fun _ _ => trivial) fun _ _ _ _ => trivial).ok hrun
  exact ⟨ext, own', b, ⟨hT, h.frames⟩,
    .works (.fault u va perm) hu (Works.start.fault h.tracked hrun hf)⟩

/-- A guard page. -/
theorem Tracked.guard {va : U64} (h : s.Tracked ext own a) (hok : PlainMaps s (.guard u va))
    (hs : step (.guard u va) s = some t) : s.Leads ext a (.guard u va) t := by
  obtain ⟨hus, x, k, hrun, rfl⟩ := runIn_some hs
  have hu := hus u (by simp)
  have hT := h.tracked
  obtain ⟨j, hj, hR⟩ := hok
  obtain ⟨hpt, hr⟩ := hT.spaces.table u hu
  obtain ⟨i, hslot, hhas⟩ := uvmVa2vma_some hj
  have hlt : va < MAXVA := by
    have hmax : MAXVA.toNat = 2 ^ 38 := by decide
    have hstop := (hT.spaces.ok u i j hslot).stop_le
    have := ((hT.spaces.ok u i j hslot).has_iff va).1 hhas
    rw [BitVec.lt_def]
    omega
  have hw : wp (liftM (pgtClearubit (s.kernel.uvms u).pagetable va) : K Unit) (fun _ => True)
      (fun _ k => s.Leads ext a (.guard u va) ⟨k, s.live, s.frames⟩) s.kernel := by
    rw [wp_liftP, hpt]
    refine (pgtClearubit_spec hT.rep hr hlt fun _ => trivial).mono fun _ q hq => ?_
    exact ⟨ext, own, _, ⟨hT.guard hu hj hR s.kernel.fs hq, h.frames⟩, .guard hu hj⟩
  exact hw.ok hrun

/-- The heap of the new image of `exec`. -/
theorem Tracked.heap {va : U64} (h : s.Tracked ext own a) (hs : step (.heap u va) s = some t) :
    s.Leads ext a (.heap u va) t := by
  obtain ⟨hus, x, k, hrun, rfl⟩ := runIn_some hs
  obtain rfl := (Prod.mk.inj (Except.ok.inj hrun)).2
  exact ⟨ext, own, a, ⟨h.tracked.setHeap u _, h.frames⟩, .heap (hus u (by simp))⟩

/-- A `fork`. -/
theorem Tracked.dup {p c : UvmPtr} (h : s.Tracked ext own a) (hok : PlainMaps s (.dup p c))
    (hs : step (.dup p c) s = some t) : s.Leads ext a (.dup p c) t := by
  rw [step] at hs
  split_ifs at hs with hc
  obtain ⟨hus, x, k, hrun, rfl⟩ := runIn_some hs
  have hT := h.tracked
  have hp : p ∈ s.live := hus p (by simp)
  have hcl : c ∈ s.live := hus c (by simp)
  have hempty : ∀ i, s.kernel.slot c i = none := by
    intro i
    rcases hi : s.kernel.slot c i with _ | j
    · rfl
    · rw [hc.2 i (hT.spaces.bound c i j hi)] at hi
      cases hi
  obtain rfl : x = true := by
    cases x with
    | true => rfl
    | false => exact absurd hrun (hok k)
  obtain ⟨own', b, hd⟩ := (uvmDup_good hT.toGood hT.firm hp hcl hc.1 hempty).ok
    hrun rfl
  exact ⟨ext, own', b, ⟨hT.dup hp hcl hempty hd, h.frames⟩, .dup hp hcl hc.1 hempty hrun hd⟩

/-- An end of a vma is unmapped. -/
theorem Tracked.unmap {addr length : U64} (h : s.Tracked ext own a)
    (hok : PlainMaps s (.unmap u addr length)) (hs : step (.unmap u addr length) s = some t) :
    s.Leads ext a (.unmap u addr length) t := by
  obtain ⟨-, x, k, hrun, rfl⟩ := runIn_some hs
  obtain ⟨j, hj, he⟩ := hok
  obtain ⟨i, hslot, -⟩ := uvmVa2vma_some hj
  obtain ⟨phys, fs, own', rfl, -, -, hg⟩ :=
    (uvmUnmap_good (E := fun _ => True) h.tracked.toGood hslot he (fun _ _ => trivial)
      trivial).ok hrun
  exact ⟨ext, own', _, ⟨h.tracked.unmap hslot he hg, h.frames⟩,
    .unmap (.inl rfl) hslot he fun _ => hrun⟩

/-- The heap is resized. -/
theorem Tracked.sbrk {n : U32} (h : s.Tracked ext own a) (hok : PlainMaps s (.sbrk u n))
    (hs : step (.sbrk u n) s = some t) : s.Leads ext a (.sbrk u n) t := by
  obtain ⟨-, x, k, hrun, rfl⟩ := runIn_some hs
  have hT := h.tracked
  have hheap : ∀ j, (s.kernel.uvms u).heap = some j → (∃ i, s.kernel.slot u i = some j) ∧
      PGSIZE.toNat ≤ (s.kernel.vmas j).length.toNat := by
    intro j hj
    obtain ⟨⟨i, -, hi⟩, hlen⟩ := hok j hj
    exact ⟨⟨i, hi⟩, hlen⟩
  rcases (uvmGrowheap_good (E := fun _ => True) hT.toGood hheap n (fun _ _ => trivial)
    trivial trivial).ok hrun with rfl | ⟨i, j, length, hr, rfl⟩ | ⟨j, addr, length, hcut⟩
  · exact ⟨ext, own, a, h, .same fun _ => rfl⟩
  · exact ⟨ext, own, a, ⟨hT.grow hr, h.frames⟩, .grow hr⟩
  · obtain ⟨i, hslot⟩ := hcut.slot
    obtain ⟨phys, fs, own', rfl, -, hg⟩ := hcut.state
    exact ⟨ext, own', _, ⟨hT.unmap hslot hcut.end_ hg, h.frames⟩,
      .unmap (.inr ⟨⟨n, rfl⟩, hcut.ne_start⟩) hslot hcut.end_ nofun⟩

/-- An address space is freed. -/
theorem Tracked.free (h : s.Tracked ext own a) (hs : step (.free u) s = some t) :
    s.Leads ext a (.free u) t := by
  rw [step] at hs
  split_ifs at hs with hu
  obtain ⟨x, k, hrun, rfl⟩ := run_some hs
  obtain ⟨own', b, hg, -, -, -, he⟩ := (uvmFree_good (E := fun _ => True) h.tracked.toGood hu
    (fun _ _ => trivial) trivial).ok hrun
  refine ⟨ext, own', b, ⟨(h.tracked.free hg hu he).congr fun u' => ?_, h.frames⟩, .free hu he⟩
  simp

/-- The end of `exec`. -/
theorem Tracked.commit {i : ℕ} (h : s.Tracked ext own a) (hs : step (.commit i) s = some t) :
    s.Leads ext a (.commit i) t := by
  rw [step] at hs
  split_ifs at hs with hc
  obtain rfl := Option.some.inj hs
  refine ⟨ext, own, a, ⟨(h.tracked.moveTo hc.1 hc.2).congr fun u' => ?_, h.frames⟩,
    .commit hc.1 hc.2⟩
  simp

/-- **One event**: it does what `SpaceTo` says, and the entries still track the vmas. -/
theorem Tracked.step {e : SpaceEvent} (h : s.Tracked ext own a) (hok : PlainMaps s e)
    (hs : step e s = some t) : s.Leads ext a e t := by
  cases e with
  | frame => exact h.frame hs
  | new u f => exact h.new hs
  | map => exact h.map hok hs
  | fault u va perm => exact h.fault hok hs
  | store u va x => exact h.works (.store u va x) hs fun hu => keepsWorking_userStore hu va x
  | guard u va => exact h.guard hok hs
  | heap u va => exact h.heap hs
  | dup p c => exact h.dup hok hs
  | copyout u dstva src len =>
    exact h.works (.copyout u dstva src len) hs fun hu => keepsWorking_copyout hu dstva src len
  | copyin u srcva len =>
    exact h.works (.copyin u srcva len) hs fun hu => keepsWorking_copyin hu _ _
  | copyinstr u srcva max =>
    exact h.works (.copyinstr u srcva max) hs fun hu => keepsWorking_copyinstr hu _ _
  | write i fd p n => exact h.works (.write i fd p n) hs fun hu => keepsWorking_sysWrite hu fd p n
  | unmap u addr length => exact h.unmap hok hs
  | sbrk u n => exact h.sbrk hok hs
  | free u => exact h.free hs
  | commit i => exact h.commit hs
  | other k =>
    obtain rfl := Option.some.inj hs
    exact ⟨ext, own, a, ⟨h.tracked.frame rfl rfl rfl, h.frames⟩, .other⟩

theorem Inv.step {e : SpaceEvent} (h : s.Inv) (hok : PlainMaps s e) (hs : step e s = some t) :
    t.Inv := by
  obtain ⟨ext, own, a, h⟩ := h
  obtain ⟨ext', own', b, h', -⟩ := h.step hok hs
  exact ⟨ext', own', b, h'⟩

end SpaceSys

/-! ### What stays -/

namespace SpaceTo

variable {s t : SpaceSys} {ext ext' : ℕ → ℕ∞} {own own' : ℕ → Owner} {a b : Maps} {e : SpaceEvent}
  {u : UvmPtr}

end SpaceTo

/-- Where the vma at place `i` of an address space after an event comes from: its record, and what
the record says. -/
inductive SlotFrom (s : SpaceSys) : SpaceEvent → UvmPtr → ℕ → ℕ → Vma → Prop
  | new {u : UvmPtr} {addr length : U64} {perm flags : U32} {inode : Option ℕ} {offset filesz : U32}
      {i k : ℕ} (hk : (s.kernel.vmas k).used = false) :
      SlotFrom s (.map u addr length perm flags inode offset filesz) u i k
        ⟨true, inode, offset, filesz, addr, length, perm, flags⟩
  | same {e : SpaceEvent} {u : UvmPtr} {i k : ℕ} (he : e.source u = u)
      (hs : s.kernel.slot u i = some k) : SlotFrom s e u i k (s.kernel.vmas k)
  | front {u : UvmPtr} {addr length : U64} {i k : ℕ} (hs : s.kernel.slot u i = some k)
      (hend : (s.kernel.vmas k).End addr length) (hf : addr = (s.kernel.vmas k).start)
      (hne : (s.kernel.vmas k).length ≠ length) :
      SlotFrom s (.unmap u addr length) u i k ((s.kernel.vmas k).dropFront length)
  | tail {e : SpaceEvent} {u : UvmPtr} {addr length : U64} {i k : ℕ} (he : e.source u = u)
      (hs : s.kernel.slot u i = some k) (hend : (s.kernel.vmas k).End addr length)
      (hf : addr ≠ (s.kernel.vmas k).start) :
      SlotFrom s e u i k ((s.kernel.vmas k).dropTail length)
  | grow {u : UvmPtr} {n : U32} {i k : ℕ} {length : U64} (hr : HeapRoom s.kernel u i k length) :
      SlotFrom s (.sbrk u n) u i k { s.kernel.vmas k with length := length }
  | copy {p c : UvmPtr} {i j k : ℕ} (hs : s.kernel.slot p i = some j) :
      SlotFrom s (.dup p c) c i k (s.kernel.vmas j)
  | moved {n i k : ℕ} (hs : s.kernel.slot (.exec n) i = some k) :
      SlotFrom s (.commit n) (.proc n) i k (s.kernel.vmas k)

/-- **The vmas after an event.** -/
theorem SpaceTo.slotFrom {s t : SpaceSys} {ext ext' : ℕ → ℕ∞} {own : ℕ → Owner} {a b : Maps}
    {e : SpaceEvent} (h : SpaceTo s ext a e t ext' b) (hT : s.Tracked ext own a) {u : UvmPtr}
    {i k : ℕ} (hs : t.kernel.slot u i = some k) : SlotFrom s e u i k (t.kernel.vmas k) := by
  have hS := hT.tracked.spaces
  cases h with
  | same he => exact .same (he u) hs
  | frame => exact .same rfl hs
  | @newFails u' f phys hu' =>
    by_cases hu : u = u'
    · rw [hu, Kernel.slot, Kernel.io_uvms, Kernel.setUvm_self] at hs
      cases hs
    · rw [Kernel.slot, Kernel.io_uvms, Kernel.setUvm_of_ne hu] at hs
      exact .same rfl hs
  | @new u' f g phys hu' =>
    by_cases hu : u = u'
    · rw [hu, Kernel.slot, Kernel.io_uvms, Kernel.setUvm_self] at hs
      cases hs
    · rw [Kernel.slot, Kernel.io_uvms, Kernel.setUvm_of_ne hu] at hs
      exact .same rfl hs
  | @map u' addr length perm flags inode offset filesz i' j hu' hi hj hfree =>
    by_cases he : u = u' ∧ i = i'
    · obtain ⟨rfl, rfl⟩ := he
      obtain rfl : j = k := Option.some.inj (Kernel.setSlot_slot_self.symm.trans hs)
      rw [show (s.kernel.addVma u i j
        ⟨true, inode, offset, filesz, addr, length, perm, flags⟩).vmas j = _
          from Kernel.setVma_vmas_self]
      exact .new (freeVma_some hj)
    · have hs' : s.kernel.slot u i = some k := (Kernel.setSlot_slot_of_ne he).symm.trans hs
      have hkj : k ≠ j := fun hkj => hS.not_slot (freeVma_some hj) u i (hkj ▸ hs')
      rw [show (s.kernel.addVma u' i' j _).vmas k = s.kernel.vmas k from
        Kernel.setVma_vmas_of_ne hkj]
      exact .same rfl hs'
  | @works _ u' D q x b he' hu' hw =>
    rw [show x.slot u i = s.kernel.slot u i from by rw [Kernel.slot, hw.uvms, Kernel.slot]] at hs
    rw [hw.vmas]
    refine .same ?_ hs
    cases he' <;> rfl
  | guard => exact .same rfl hs
  | heap =>
    rw [Kernel.setHeap_slot] at hs
    exact .same rfl hs
  | @dup p c own x b hp hc hpc hempty hrun hd =>
    by_cases hu : u = c
    · obtain rfl := hu
      by_cases hi : VMA_SIZE ≤ i ∨ s.kernel.slot p i = none
      · cases (hd.dups.empty i hi).symm.trans hs
      rw [not_or, Nat.not_le] at hi
      obtain ⟨j, hj⟩ := Option.ne_none_iff_exists'.1 hi.2
      obtain ⟨k', hk', hv, -⟩ := hd.dups.copies i hi.1 j hj
      obtain rfl : k' = k := Option.some.inj (hk'.symm.trans hs)
      rw [hv]
      exact .copy hj
    · rw [hd.dups.slot hu] at hs
      rw [hd.dups.vmas u i k hs]
      exact .same (if_neg hu) hs
  | @unmap _ u' addr length i' j phys fs he' hs' hend hrun =>
    change (s.kernel.unmapped u' j addr length).slot u i = some k at hs
    change SlotFrom s e u i k ((s.kernel.unmapped u' j addr length).vmas k)
    have he : e.source u = u := by rcases he' with rfl | ⟨⟨n, rfl⟩, -⟩ <;> rfl
    obtain ⟨hk, ⟨-, hv⟩ | ⟨rfl, hw, ⟨hf, hv⟩ | ⟨hf, hv⟩⟩⟩ := hS.unmapped_slot hs' hs
    · rw [hv]
      exact .same he hk
    · obtain ⟨rfl, -⟩ := hS.inj _ _ _ _ _ hk hs'
      rw [hv]
      rcases he' with rfl | ⟨-, hne⟩
      · exact .front hk hend hf hw
      · exact absurd hf hne
    · obtain ⟨rfl, -⟩ := hS.inj _ _ _ _ _ hk hs'
      rw [hv]
      exact .tail he hk hend hf
  | @grow u' n i' j length hr =>
    by_cases hkj : k = j
    · obtain rfl := hkj
      obtain ⟨rfl, rfl⟩ := hS.inj _ _ _ _ _ (show s.kernel.slot u i = some k from hs) hr.slot
      rw [Kernel.setVma_vmas_self]
      exact .grow hr
    · rw [Kernel.setVma_vmas_of_ne hkj]
      exact .same rfl (show s.kernel.slot u i = some k from hs)
  | @free u' x b hu' hem =>
    by_cases hu : u = u'
    · obtain rfl := hu
      by_cases hi : i < VMA_SIZE
      · cases (hem.gone i hi).symm.trans hs
      · rw [hem.rest i (Nat.not_lt.1 hi)] at hs
        exact absurd (hS.bound u i k hs) hi
    · have hs' : s.kernel.slot u i = some k := by
        rw [Kernel.slot, hem.uvms u hu] at hs
        exact hs
      rw [hem.vmas k fun i' _ hc => hu (hS.inj u i u' i' k hs' hc).1]
      exact .same rfl hs'
  | @commit n hl hd =>
    by_cases hx : u = .exec n
    · rw [hx, Kernel.slot, Kernel.setUvm_self] at hs
      cases hs
    rw [Kernel.slot, Kernel.setUvm_of_ne hx] at hs
    by_cases hp : u = .proc n
    · rw [hp, Kernel.setUvm_self] at hs
      rw [hp]
      exact .moved hs
    · rw [Kernel.setUvm_of_ne hp] at hs
      exact .same (if_neg hp) hs
  | other => exact .same rfl hs

namespace SpaceSys

variable {s : SpaceSys}

theorem Start.inv (h : s.Start) : s.Inv := by
  obtain ⟨own, a, hrep, hroot, hleaf, -⟩ := exists_rep_of_pages h.nodup h.free h.taken
  have hlive : ∀ u, ¬ u ∈ s.live := by simp [h.live]
  have hslot : ∀ {u i j} {P : Prop}, s.kernel.slot u i = some j → P := by
    intro u i j P hs
    rw [h.slot] at hs
    cases hs
  refine ⟨a.refs, own, a, ⟨⟨hrep, ?_, ?_⟩, ?_, ?_, ?_, ?_, ?_⟩, by simp [h.frames]⟩
  · exact ⟨fun u hu => absurd hu (hlive u), fun u _ hu => absurd hu (hlive u), fun _ _ _ hs =>
      hslot hs, fun _ _ _ hs => hslot hs, fun _ _ _ hs => hslot hs, fun _ _ _ _ _ hs => hslot hs,
      fun _ _ _ hs => hslot hs, fun _ _ _ hs => hslot hs, fun _ _ _ _ _ hs => hslot hs,
      fun u _ hu => absurd hu (hlive u), fun u _ hu => absurd hu (hlive u)⟩
  · refine ⟨fun f p hp => hrep.alloc.refs_pos hp, fun f => ?_⟩
    rw [count_eq_zero fun x _ => ?_, zero_add]
    rw [Maps.ptr, hleaf, target_zero]
    exact (Option.some_ne_none _).symm
  · exact fun u _ hu => absurd hu (hlive u)
  · exact fun _ _ _ hs => hslot hs
  · exact fun _ _ _ _ hs => hslot hs
  · exact fun u hu => absurd hu (hlive u)
  · exact fun u hu => absurd hu (hlive u)

end SpaceSys

end

end Xv6
