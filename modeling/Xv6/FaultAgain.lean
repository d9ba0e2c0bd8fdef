import Xv6.SpaceSteps

/-!
# A resolved fault does not recur

`uvm_completemap` panics when it is asked to resolve a fault on a page that is already there and
that is not a store.  In runs of any number of address spaces whose vmas have plain permissions the
entries stay in step with the vmas (`Tracked`), so that the panic is out of reach for the hardware,
for the copies to and from user memory and for `sys_write`, and a fault that has been resolved
leaves an entry that allows the access.
-/

namespace Xv6

open Bytes Wp Run

section

variable [Layout] {L : UvmPtr → Prop} {ext : ℕ → ℕ∞} {own : ℕ → Owner} {s : Kernel} {a : Maps}
  {u : UvmPtr}

/-! ### The hardware -/

/-- The hardware lets the process of `u` access `va`. -/
def Lets (s : Kernel) (u : UvmPtr) (va perm : U64) : Prop :=
  ∃ w p, entryAt (s.uvms u).pagetable va s.phys = .ok (w, p) ∧ Allows w perm

/-- The hardware goes by the entry. -/
theorem Tracked.lets_iff (h : Tracked L ext own s a) (hu : L u) {va perm : U64} (hva : va < MAXVA) :
    Lets s u va perm ↔ Allows (a.leaf (s.root u) (vpn va)) perm := by
  obtain ⟨hpt, hr⟩ := h.spaces.table u hu
  have hrun := h.rep.entryAt_eq hr hva
  rw [Lets, hpt]
  constructor
  · rintro ⟨w', p', hrun', hA⟩
    rw [hrun] at hrun'
    cases hrun'
    exact hA
  · exact fun hA => ⟨_, _, hrun, hA⟩

/-- **A resolved fault does not recur.**  In every state reached, a page fault that is resolved
leaves an entry that allows the access, and neither a fault of the hardware, nor a copy to or from
user memory, nor `sys_write` can reach the panic of `uvm_completemap`. -/
theorem resolved_fault_does_not_recur {s₀ s : SpaceSys} (h0 : s₀.Start)
    (h : Reach SpaceSys.step PlainMaps s₀ s) :
    (∀ u ∈ s.live, ∀ va perm pa t, IsAccess perm →
      uvmCompletemap u va perm s.kernel = .ok (pa, t) → pa ≠ 0 → Lets t u va perm) ∧
    (∀ u ∈ s.live, ∀ va perm, IsAccess perm → ¬ Lets s.kernel u va perm →
      uvmCompletemap u (pgRoundDown va) perm s.kernel ≠ .error (.panic "invalid pagefault\n")) ∧
    (∀ u ∈ s.live, ∀ srcva len,
      copyin u srcva len s.kernel ≠ .error (.panic "invalid pagefault\n")) ∧
    (∀ u ∈ s.live, ∀ srcva max,
      copyinstr u srcva max s.kernel ≠ .error (.panic "invalid pagefault\n")) ∧
    (∀ u ∈ s.live, ∀ dstva src len,
      copyout u dstva src len s.kernel ≠ .error (.panic "invalid pagefault\n")) ∧
    ∀ i fd p n, .proc i ∈ s.live →
      sysWrite i fd p n s.kernel ≠ .error (.panic "invalid pagefault\n") := by
  obtain ⟨ext, own, a, hT⟩ := h.invariant h0.inv fun _ _ _ hI hok hs => hI.step hok hs
  replace hT := hT.tracked
  have hkeeps : ∀ {α : Type} {m : K α} {u : UvmPtr},
      KeepsWorking (· ∈ s.live) ext u (fun _ => True) True s.kernel a m →
      m s.kernel ≠ .error (.panic "invalid pagefault\n") :=
    fun hm he => (hm.start s.kernel (hT.working _ _ _)).error he rfl
  refine ⟨fun u hu va perm pa t hm hrun hpa => ?_, fun u hu va perm hm hno he => ?_,
    fun u hu srcva len => hkeeps (keepsWorking_copyin hu srcva len),
    fun u hu srcva max => hkeeps (keepsWorking_copyinstr hu srcva max),
    fun u hu dstva src len he => ?_,
    fun i fd p n hu => hkeeps (keepsWorking_sysWrite hu fd p n)⟩
  · obtain ⟨own', a', h', hf, hret⟩ := (hT.completemap (E := fun _ => True) hu hm
      (fun _ _ => trivial) fun _ _ _ _ => trivial).ok hrun
    obtain ⟨hlt, hA, -⟩ := hret hpa
    rw [h'.lets_iff hu hlt, Kernel.root, hf.spaces.1]
    exact hA
  · refine ((Works.start (D := fun _ => True) (q := True)).resolves hT hu _ hm
      fun hlt _ _ hA => hno ?_).error he rfl
    rw [pgRoundDown_lt_MAXVA] at hlt
    rw [hT.lets_iff hu hlt]
    rwa [vpn_pgRoundDown] at hA
  · exact ((keepsWorking_copyout hu dstva src len).start s.kernel
      (hT.working u _ True)).error he rfl

end

attribute [local instance] imageLayout

/-- `n` free pages and no address space. -/
def freePages (n : ℕ) : SpaceSys where
  kernel := { Kernel.zero with
    phys := ⟨fun _ _ => 0, (List.range n).map (0x80030 + ·),
      fun f => if 0x80030 ≤ f ∧ f < 0x80030 + n then 0 else 1⟩ }
  live := []
  frames := []

theorem freePages_start {n : ℕ} (hn : n ≤ 0x7fd0) : (freePages n).Start := by
  have hmem : ∀ f, f ∈ (freePages n).kernel.phys.freelist ↔ 0x80030 ≤ f ∧ f < 0x80030 + n := by
    intro f
    change f ∈ (List.range n).map (0x80030 + ·) ↔ _
    rw [List.mem_map]
    constructor
    · rintro ⟨i, hi, rfl⟩
      have := List.mem_range.1 hi
      omega
    · exact fun hf => ⟨f - 0x80030, List.mem_range.2 (by omega), by omega⟩
  have hkend : Layout.kend.toNat = 0x80026000 := rfl
  refine ⟨rfl, rfl, fun _ _ => rfl, ?_, fun f hf => ?_, fun f _ hf => ?_⟩
  · exact List.nodup_range.map (add_right_injective _)
  · rw [hmem] at hf
    exact ⟨⟨by omega, by omega⟩, if_pos hf⟩
  · rw [hmem] at hf
    change 0 < if 0x80030 ≤ f ∧ f < 0x80030 + n then (0 : ℤ) else 1
    rw [if_neg hf]
    exact one_pos

/-- Eight free pages and no address space. -/
def freshSpaces : SpaceSys := freePages 8

theorem freshSpaces_start : freshSpaces.Start := freePages_start (by decide)

/-- A new process maps a page that it may read and write, and stores to it. -/
def storeRun : List SpaceEvent :=
  [.frame, .new (.proc 0) 0x80030, .map (.proc 0) 0x1000 4096 6 MAP_PRIVATE none 0 0,
    .fault (.proc 0) 0x1008 PTE_W]

theorem resolved_fault_does_not_recur_store : freshSpaces.Start ∧
    ∃ s, Reach SpaceSys.step PlainMaps freshSpaces s ∧ .proc 0 ∈ s.live ∧
      copyin (.proc 0) 0x1000 8 s.kernel ≠ .error (.panic "invalid pagefault\n") := by
  have hrun : (runs SpaceSys.step storeRun freshSpaces).map SpaceSys.live = some [.proc 0] := by
    decide +kernel
  obtain ⟨s, hs, hlive⟩ := Option.map_eq_some_iff.1 hrun
  have hreach : Reach SpaceSys.step PlainMaps freshSpaces s := by
    refine reach_of_runs (fun e he t => ?_) hs
    simp only [storeRun, List.mem_cons, List.not_mem_nil, or_false] at he
    rcases he with rfl | rfl | rfl | rfl
    · trivial
    · trivial
    · exact ⟨by decide, by decide, by decide, by decide⟩
    · exact Or.inr (Or.inl rfl)
  have hmem : .proc 0 ∈ s.live := by simp [hlive]
  exact ⟨freshSpaces_start, s, hreach, hmem,
    (resolved_fault_does_not_recur freshSpaces_start hreach).2.2.1 _ hmem _ _⟩

/-- `p = mmap(0x1000, 4096, PROT_WRITE | PROT_EXEC, MAP_PRIVATE, fd, 0)` and a jump to `p`: the page
that is returned, and the entry. -/
def jumpToMap : K (U64 × U64) := do
  let va ← sysMmap 0 0x1000 4096 0xC MAP_PRIVATE 0 0
  let pa ← uvmCompletemap (.proc 0) va PTE_X
  let s ← get
  return (pa, ← entryAt (s.uvms (.proc 0)).pagetable va)

/-- **A page that may be written and executed, but not read, faults again**: `mmap` accepts
`PROT_WRITE | PROT_EXEC`, the entry with W and without R is reserved, so the jump faults once more,
and then `usertrap` reaches the panic. -/
theorem mmap_write_exec_panics :
    resultOf (jumpToMap (openKernel 1)) = some (0x80033000, 0x2000cc1d) ∧
      ¬ Allows 0x2000cc1d PTE_X ∧
      stopOf ((do
        let _ ← jumpToMap
        uvmCompletemap (.proc 0) 0x1000 PTE_X) (openKernel 1)) =
          some (.panic "invalid pagefault\n") := by
  decide +kernel

end Xv6
