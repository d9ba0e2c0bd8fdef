import Xv6.SharedBack

/-!
# Page faults over whole runs

Two conditions on the calls that map and unmap memory, and what they give for every page fault of
the runs that meet them.  If maps begin at page boundaries and are shortened at the front by whole
pages, every vma begins at a page boundary, and a legal access is not a segmentation fault.  If the
file part of a map lies inside the file, no map is shortened at the front by more than its file
part, and no mapped file becomes smaller, the file part of every vma lies inside its file, and a
page fault can read its page.
-/

namespace Xv6

open Bytes Wp Run

section

variable [Layout] {s₀ s t : SpaceSys} {u : UvmPtr}

/-! ### Legal accesses -/

/-- Maps begin at page boundaries, and what goes at the front of a vma are whole pages. -/
def PageMaps (s : SpaceSys) : SpaceEvent → Prop
  | .map _ addr .. => addr % PGSIZE = 0
  | .unmap u addr length => ∀ j, uvmVa2vma s.kernel u addr = some j →
    addr = (s.kernel.vmas j).start → length ≠ (s.kernel.vmas j).length → length % PGSIZE = 0
  | _ => True

instance (s : SpaceSys) : DecidablePred (PageMaps s)
  | .map _ addr .. => inferInstanceAs (Decidable (addr % PGSIZE = 0))
  | .unmap u addr length => inferInstanceAs (Decidable (∀ j ∈ uvmVa2vma s.kernel u addr,
      addr = (s.kernel.vmas j).start → length ≠ (s.kernel.vmas j).length → length % PGSIZE = 0))
  | .frame | .new .. | .fault .. | .store .. | .guard .. | .heap .. | .dup .. | .copyout ..
  | .copyin .. | .copyinstr .. | .write .. | .sbrk .. | .free .. | .commit .. | .other .. =>
    inferInstanceAs (Decidable True)

/-- The system with the entries that track its vmas, for invariants that say more. -/
theorem Reach.tracked {P : SpaceSys → SpaceEvent → Prop} {I : SpaceSys → Prop} (h0 : s₀.Start)
    (hI : I s₀) (h : Reach SpaceSys.step (fun s e => PlainMaps s e ∧ P s e) s₀ s)
    (hstep : ∀ {s t : SpaceSys} {ext ext' : ℕ → ℕ∞} {own : ℕ → Owner} {a b : Maps} {e : SpaceEvent},
      I s → s.Tracked ext own a → P s e → SpaceSys.step e s = some t → SpaceTo s ext a e t ext' b →
      I t) : s.Inv ∧ I s := by
  refine h.invariant (I := fun s => s.Inv ∧ I s) ⟨h0.inv, hI⟩ fun s e t hs hok hst => ?_
  obtain ⟨⟨ext, own, a, hT⟩, hs⟩ := hs
  obtain ⟨ext', own', b, hT', hto⟩ := hT.step hok.1 hst
  exact ⟨⟨ext', own', b, hT'⟩, hstep hs hT hok.2 hst hto⟩

/-! ### File parts -/

/-- The file part of a map lies inside the file, and what goes at the front of a map of a file is
not more than its file part. -/
def FileMaps (s : SpaceSys) : SpaceEvent → Prop
  | .map _ _ _ _ _ inode offset filesz => ∀ ip, inode = some ip →
    offset.toNat + filesz.toNat ≤ (s.kernel.fs.sizeOf ip).toNat
  | .unmap u addr length => ∀ j, uvmVa2vma s.kernel u addr = some j →
    addr = (s.kernel.vmas j).start → length ≠ (s.kernel.vmas j).length →
    (s.kernel.vmas j).inode.isSome → length.toNat ≤ (s.kernel.vmas j).filesz.toNat
  | _ => True

instance (s : SpaceSys) : DecidablePred (FileMaps s)
  | .map _ _ _ _ _ inode offset filesz => inferInstanceAs (Decidable (∀ ip ∈ inode,
      offset.toNat + filesz.toNat ≤ (s.kernel.fs.sizeOf ip).toNat))
  | .unmap u addr length => inferInstanceAs (Decidable (∀ j ∈ uvmVa2vma s.kernel u addr,
      addr = (s.kernel.vmas j).start → length ≠ (s.kernel.vmas j).length →
      (s.kernel.vmas j).inode.isSome → length.toNat ≤ (s.kernel.vmas j).filesz.toNat))
  | .frame | .new .. | .fault .. | .store .. | .guard .. | .heap .. | .dup .. | .copyout ..
  | .copyin .. | .copyinstr .. | .write .. | .sbrk .. | .free .. | .commit .. | .other .. =>
    inferInstanceAs (Decidable True)

/-- The event does not make a mapped file smaller. -/
def NoShrink (s : SpaceSys) (e : SpaceEvent) : Prop :=
  ∀ t ∈ SpaceSys.step e s, ∀ u ∈ s.live, ∀ i < VMA_SIZE, ∀ j ∈ s.kernel.slot u i,
    ∀ ip ∈ (s.kernel.vmas j).inode, s.kernel.fs.sizeOf ip ≤ t.kernel.fs.sizeOf ip

instance (s : SpaceSys) : DecidablePred (NoShrink s) := fun e =>
  inferInstanceAs (Decidable (∀ t ∈ SpaceSys.step e s, ∀ u ∈ s.live, ∀ i < VMA_SIZE,
    ∀ j ∈ s.kernel.slot u i, ∀ ip ∈ (s.kernel.vmas j).inode,
      s.kernel.fs.sizeOf ip ≤ t.kernel.fs.sizeOf ip))

omit [Layout] in
/-- `sys_mmap` maps the file from `offset` to its end, which is inside the file if `offset` is. -/
theorem fileMaps_mmap_iff {addr length : U64} {perm flags offset : U32} {ip : ℕ} :
    FileMaps s (.map u addr length perm flags (some ip) offset (s.kernel.fs.sizeOf ip - offset)) ↔
      offset ≤ s.kernel.fs.sizeOf ip := by
  have hsub := BitVec.toNat_sub (s.kernel.fs.sizeOf ip) offset
  have h1 := offset.isLt
  rw [BitVec.le_def]
  constructor
  · intro h
    have := h ip rfl
    omega
  · rintro h ip' ⟨⟩
    omega

omit [Layout] in
theorem sizeOf_addRef (fs : Fs) (inode : Option ℕ) (ip : ℕ) :
    (fs.addRef inode).sizeOf ip = fs.sizeOf ip := by
  cases inode with
  | none => rfl
  | some n =>
    by_cases h : ip = n
    · subst h
      simp [Fs.addRef, Fs.sizeOf]
    · simp [Fs.addRef, Fs.sizeOf, Function.update_of_ne h]

/-- A map leaves the files as they are. -/
theorem SpaceTo.map_sizeOf {ext ext' : ℕ → ℕ∞} {a b : Maps} {addr length : U64} {perm flags : U32}
    {inode : Option ℕ} {offset filesz : U32}
    (h : SpaceTo s ext a (.map u addr length perm flags inode offset filesz) t ext' b) (ip : ℕ) :
    t.kernel.fs.sizeOf ip = s.kernel.fs.sizeOf ip := by
  cases h with
  | same => rfl
  | map => exact sizeOf_addRef ..
  | works he => cases he
  | unmap he => simp at he

/-- The file part of every vma ends in its file at `n` at most. -/
def FilesBelow (n : ℕ → ℕ) (s : SpaceSys) : Prop :=
  ∀ u i j, s.kernel.slot u i = some j → ∀ ip, (s.kernel.vmas j).inode = some ip →
    (s.kernel.vmas j).offset.toNat + (s.kernel.vmas j).filesz.toNat ≤ n ip

theorem FilesBelow.step {n : ℕ → ℕ} {ext ext' : ℕ → ℕ∞} {own : ℕ → Owner} {a b : Maps}
    {e : SpaceEvent} (h : FilesBelow n s) (hlt : ∀ ip, n ip < 2 ^ 32) (hT : s.Tracked ext own a)
    (hok : FileMaps s e) (hn : ∀ {u addr length perm flags inode offset filesz},
      e = .map u addr length perm flags inode offset filesz →
      ∀ ip, (s.kernel.fs.sizeOf ip).toNat ≤ n ip)
    (hto : SpaceTo s ext a e t ext' b) : FilesBelow n t := by
  intro u i k hk ip hip
  have hS := hT.tracked.spaces
  have hfrom := hto.slotFrom hT hk
  generalize t.kernel.vmas k = v at hfrom hip ⊢
  cases hfrom with
  | new => exact (hok ip hip).trans (hn rfl ip)
  | same _ hs => exact h _ _ _ hs ip hip
  | front hs hend hf hne =>
    have hsum := h _ _ _ hs ip hip
    have hlen := hok k (hS.va2vma hs (hend.has (hS.ok _ _ _ hs))) hf hne.symm
      (Option.isSome_iff_exists.2 ⟨ip, hip⟩)
    have hlt := hlt ip
    simp only [Vma.dropFront, BitVec.toNat_add, BitVec.toNat_setWidth, BitVec.toNat_sub]
    omega
  | @tail _ _ _ length _ _ _ hs hend hf =>
    have hsum := h _ _ _ hs ip hip
    have hmin :
        ((s.kernel.vmas k).dropTail length).filesz.toNat ≤ (s.kernel.vmas k).filesz.toNat := by
      rw [Vma.dropTail, BitVec.toNat_setWidth, toNat_umin, BitVec.toNat_setWidth]
      omega
    exact (Nat.add_le_add_left hmin _).trans hsum
  | grow hr => exact h _ _ _ hr.slot ip hip
  | copy hs => exact h _ _ _ hs ip hip
  | moved hs => exact h _ _ _ hs ip hip

/-- The file part of every vma lies inside its file. -/
def FilesInside (s : SpaceSys) : Prop := FilesBelow (fun ip => (s.kernel.fs.sizeOf ip).toNat) s

theorem FilesInside.step {ext ext' : ℕ → ℕ∞} {own : ℕ → Owner} {a b : Maps} {e : SpaceEvent}
    (h : FilesInside s) (hT : s.Tracked ext own a) (hok : FileMaps s e) (hsize : NoShrink s e)
    (hst : SpaceSys.step e s = some t) (hto : SpaceTo s ext a e t ext' b) : FilesInside t := by
  have hS := hT.tracked.spaces
  -- a file that was mapped is at least as large as before
  refine FilesBelow.step (fun u i j hs ip hip => (h u i j hs ip hip).trans (BitVec.le_def.1 ?_))
    (fun ip => BitVec.isLt _) hT hok (fun he ip => ?_) hto
  · exact hsize t hst u (hS.live u i j hs) i (hS.bound u i j hs) j hs ip hip
  · subst he
    exact (congrArg BitVec.toNat (hto.map_sizeOf ip)).ge

end

attribute [local instance] imageLayout

end Xv6
