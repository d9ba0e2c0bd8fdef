import Xv6.CopySleep
import Xv6.SharedBack
import Xv6.TwinMemory

/-!
# Copies by the pages of the address space

`copyout` makes the pages of its range ready for stores, one after the other, and stores to each.
The stores do not matter to the pages that follow (`StorePages.twinRuns`), so that what becomes of
the copy can be told by the pages: it comes to the lock of a file exactly if some page faults on the
file when the pages before it are ready (`StorePages.copyoutReads_iff`).
-/

namespace Xv6

open Bytes Wp Run

section

variable [Layout] {L : UvmPtr → Prop} {ext : ℕ → ℕ∞} {own : ℕ → Owner} {s t : Kernel} {a : Maps}
  {u : UvmPtr} {q : Phys} {va dstva len : U64} {ip k fuel : ℕ} {src : ℕ → Byte} {A : ℕ → Prop}

/-! ### A page of a file -/

/-- A file system in which `ip` alone is locked. -/
def Fs.onlyHeld (fs : Fs) (ip : ℕ) : Fs :=
  { fs with itable := fun n => { fs.itable n with ref := 1, locked := n = ip } }

omit [Layout] in
theorem Fs.onlyHeld_iff (fs : Fs) (n : ℕ) : Held (fs.onlyHeld ip) n ↔ n = ip := by
  unfold Held Fs.onlyHeld
  simp

/-- A fault for a store comes to the file `ip` exactly if it sleeps when the file is locked. -/
theorem faultReads_iff_sleep : (∃ j, FaultReads s u va PTE_W j ip) ↔
    copyoutPage u va (s.io s.phys (s.fs.onlyHeld ip)) = .error .sleep := by
  constructor
  · rintro ⟨j, h⟩
    obtain ⟨pa, p, hrun⟩ := h.run
    rw [h.copyoutPage_eq, hrun]
    exact fillPage_held (s := s.io p (s.fs.onlyHeld ip)) h.2.2.2.2.1 h.2.2.2.2.2.1
      ((s.fs.onlyHeld_iff ip).2 rfl)
  · intro h
    obtain ⟨j, n, hread, hheld⟩ := (copyoutPage_locks _ u va).error h rfl
    obtain rfl := (s.fs.onlyHeld_iff n).1 hheld
    exact ⟨j, hread⟩

/-- Twins fault on the same file. -/
theorem StorePages.faultReads_iff (h : StorePages L ext own s a u) (ht : Twin own s.phys q) :
    (∃ j, FaultReads s u va PTE_W j ip) ↔ ∃ j, FaultReads (s.io q s.fs) u va PTE_W j ip := by
  have hruns := (h.walked h.rep (s.fs.onlyHeld ip)).twinRuns ht va
  rw [faultReads_iff_sleep, faultReads_iff_sleep]
  exact ⟨Alike.error_left hruns, Alike.error_right hruns⟩

/-! ### The pages of a copy -/

/-- A round of `copyout` that returns gets a page and stores to it, or gets no page. -/
theorem copyoutPart_cases {ok : Bool} (h : copyoutPart u src dstva k len s = .ok (ok, t)) :
    ∃ pa s', copyoutPage u (pgRoundDown dstva) s = .ok (pa, s') ∧
      (pa = 0 ∧ ok = false ∧ t = s' ∨
        pa ≠ 0 ∧ ok = true ∧ (liftM (writeBytes (pa + (dstva - pgRoundDown dstva))
          ((List.range (inPage dstva len).toNat).map fun i => src (k + i))) : K Unit) s' =
            .ok ((), t)) := by
  unfold copyoutPart at h
  cases hm : copyoutPage u (pgRoundDown dstva) s with
  | error e => cases (bind_of_error hm).symm.trans h
  | ok y =>
    obtain ⟨pa, s'⟩ := y
    rw [bind_of_ok hm] at h
    refine ⟨pa, s', rfl, ?_⟩
    by_cases hpa : pa = 0
    · rw [if_pos hpa] at h
      cases h
      exact .inl ⟨hpa, rfl, rfl⟩
    rw [if_neg hpa] at h
    cases hw : (liftM (writeBytes (pa + (dstva - pgRoundDown dstva))
        ((List.range (inPage dstva len).toNat).map fun i => src (k + i))) : K Unit) s' with
    | error e => cases (bind_of_error hw).symm.trans h
    | ok y =>
      obtain ⟨⟨⟩, t'⟩ := y
      rw [bind_of_ok hw] at h
      cases h
      exact .inr ⟨hpa, rfl, rfl⟩

theorem copyoutPart_true_iff : copyoutPart u src dstva k len s = .ok (true, t) ↔
    ∃ pa s', copyoutPage u (pgRoundDown dstva) s = .ok (pa, s') ∧ pa ≠ 0 ∧
      (liftM (writeBytes (pa + (dstva - pgRoundDown dstva))
        ((List.range (inPage dstva len).toNat).map fun i => src (k + i))) : K Unit) s' =
          .ok ((), t) := by
  constructor
  · intro h
    obtain ⟨pa, s', hm, ⟨-, hf, -⟩ | ⟨hpa, -, hw⟩⟩ := copyoutPart_cases h
    · cases hf
    · exact ⟨pa, s', hm, hpa, hw⟩
  · rintro ⟨pa, s', hm, hpa, hw⟩
    unfold copyoutPart
    rw [bind_of_ok hm, if_neg hpa, bind_of_ok hw]
    rfl

theorem copyoutPart_false_iff : copyoutPart u src dstva k len s = .ok (false, t) ↔
    copyoutPage u (pgRoundDown dstva) s = .ok (0, t) := by
  constructor
  · intro h
    obtain ⟨pa, s', hm, ⟨rfl, -, rfl⟩ | ⟨-, hf, -⟩⟩ := copyoutPart_cases h
    · exact hm
    · cases hf
  · intro hm
    unfold copyoutPart
    rw [bind_of_ok hm, if_pos rfl]
    rfl

/-- A round of `copyout` and a page that is made ready, in twins. -/
theorem StorePages.copyoutPart_ready (h : StorePages L ext own s a u) (ht : Twin own s.phys q)
    {t₁ : Kernel} (hready : PageReady u PTE_W (pgRoundDown dstva) (s.io q s.fs) t₁) :
    ∃ t own' b q', copyoutPart u src dstva k len s = .ok (true, t) ∧
      StorePages L ext own' t b u ∧ Twin own' t.phys q' ∧ t₁ = t.io q' t.fs := by
  obtain ⟨pa, hrun, hpa⟩ := pageReady_iff.1 hready
  obtain ⟨s₁, hs₁, q₁, rfl, p, fs, own₁, b, rfl, h₁, ht₁, -, hpage⟩ :=
    Alike.ok_right (h.twinRuns ht _) hrun
  obtain ⟨rfl, pg, hp⟩ := hpage hpa
  have hoff : (dstva - pgRoundDown dstva).toNat < 4096 := by
    rw [toNat_sub_pgRoundDown]
    exact Nat.mod_lt _ (by norm_num)
  obtain ⟨p₂, b₂, hw, h₂, ht₂⟩ := h₁.stored ht₁ hp hoff
    ((List.range (inPage dstva len).toNat).map fun i => src (k + i))
  exact ⟨_, own₁, b₂, q₁, copyoutPart_true_iff.2 ⟨_, _, hs₁, hpa, hw⟩, h₂, ht₂, rfl⟩

theorem StorePages.ready_of_copyoutPart (h : StorePages L ext own s a u) (ht : Twin own s.phys q)
    (hpart : copyoutPart u src dstva k len s = .ok (true, t)) :
    ∃ t₁, PageReady u PTE_W (pgRoundDown dstva) (s.io q s.fs) t₁ := by
  obtain ⟨pa, s', hrun, hpa, -⟩ := copyoutPart_true_iff.1 hpart
  obtain ⟨t₁, ht₁, -⟩ := Alike.ok_left (h.twinRuns ht _) hrun
  exact ⟨t₁, pageReady_iff.2 ⟨pa, ht₁, hpa⟩⟩

theorem StorePages.copyoutPart_refused (h : StorePages L ext own s a u) (ht : Twin own s.phys q) :
    (∃ t, copyoutPart u src dstva k len s = .ok (false, t)) ↔
      Refused u PTE_W (pgRoundDown dstva) (s.io q s.fs) := by
  simp only [copyoutPart_false_iff, refused_iff]
  constructor
  · rintro ⟨t, hrun⟩
    obtain ⟨t₁, ht₁, -⟩ := Alike.ok_left (h.twinRuns ht _) hrun
    exact ⟨t₁, ht₁⟩
  · rintro ⟨t₁, hrun⟩
    obtain ⟨t, ht, -⟩ := Alike.ok_right (h.twinRuns ht _) hrun
    exact ⟨t, ht⟩

/-- Some page of `vas` has `Q`, when the pages before it are ready for a store. -/
def Meets (Q : U64 → Kernel → Prop) (u : UvmPtr) (vas : List U64) (s : Kernel) : Prop :=
  ∃ before va after t, vas = before ++ va :: after ∧ PagesReady u PTE_W before s t ∧ Q va t

section

variable {Q : U64 → Kernel → Prop}

theorem meets_nil : ¬ Meets Q u [] s := by
  rintro ⟨before, va, after, t, h, -⟩
  cases before <;> cases h

/-- The first page has `Q`, or it is ready and one of the others has `Q`. -/
theorem meets_cons {vas : List U64} : Meets Q u (va :: vas) s ↔
    Q va s ∨ ∃ t, PageReady u PTE_W va s t ∧ Meets Q u vas t := by
  constructor
  · rintro ⟨before, va', after, t, hsplit, hready, hQ⟩
    cases hready with
    | nil =>
      obtain ⟨rfl, rfl⟩ := List.cons.inj hsplit
      exact .inl hQ
    | cons h hs =>
      obtain ⟨rfl, hvas⟩ := List.cons.inj hsplit
      exact .inr ⟨_, h, _, va', after, t, hvas, hs, hQ⟩
  · rintro (hQ | ⟨t, h, before, va', after, t', rfl, hs, hQ⟩)
    · exact ⟨[], va, vas, s, rfl, .nil s, hQ⟩
    · exact ⟨va :: before, va', after, t', rfl, .cons h hs, hQ⟩

end

/-- Some page of `vas` faults on a file in `A` for a store, when the pages before it are ready. -/
def FaultsOnFile (A : ℕ → Prop) (u : UvmPtr) (vas : List U64) (s : Kernel) : Prop :=
  Meets (fun va t => ∃ j ip, FaultReads t u va PTE_W j ip ∧ A ip) u vas s

/-- **Whether a copy comes to a file can be told by the pages of its range.** -/
theorem StorePages.copyoutReads_iff (h : StorePages L ext own s a u) (ht : Twin own s.phys q)
    (hfuel : len.toNat ≤ fuel) : CopyoutReads A u src fuel dstva k len s ↔
      FaultsOnFile A u (touchedPages dstva len.toNat) (s.io q s.fs) := by
  induction fuel generalizing s own a q dstva k len with
  | zero =>
    have h0 : len.toNat = 0 := by omega
    rw [h0, show touchedPages dstva 0 = [] from rfl]
    exact iff_of_false id meets_nil
  | succ fuel ih =>
    rw [CopyoutReads]
    by_cases hlen : len = 0
    · subst hlen
      exact iff_of_false (fun h => h.1 rfl) meets_nil
    have hpos := pos_toNat hlen
    have hrest := toNat_sub_pagePart dstva len
    have hless : (len - inPage dstva len).toNat ≤ fuel := by
      rw [inPage, hrest]
      omega
    rw [touchedPages_cons hpos rfl, FaultsOnFile, meets_cons, ← hrest]
    refine (and_iff_right hlen).trans (or_congr ?_ ⟨?_, ?_⟩)
    · constructor
      · rintro ⟨j, ip, hread, hA⟩
        obtain ⟨j', hread'⟩ := (h.faultReads_iff ht).1 ⟨j, hread⟩
        exact ⟨j', ip, hread', hA⟩
      · rintro ⟨j, ip, hread, hA⟩
        obtain ⟨j', hread'⟩ := (h.faultReads_iff ht).2 ⟨j, hread⟩
        exact ⟨j', ip, hread', hA⟩
    · rintro ⟨t, hpart, hreads⟩
      obtain ⟨t₁, hready⟩ := h.ready_of_copyoutPart ht hpart
      obtain ⟨t', own', b, q', hpart', h', ht', rfl⟩ := h.copyoutPart_ready ht hready
      obtain rfl := (Prod.mk.inj (Except.ok.inj (hpart.symm.trans hpart'))).2
      exact ⟨_, hready, (ih h' ht' hless).1 hreads⟩
    · rintro ⟨t₁, hready, hfault⟩
      obtain ⟨t', own', b, q', hpart, h', ht', rfl⟩ := h.copyoutPart_ready ht hready
      exact ⟨t', hpart, (ih h' ht' hless).2 hfault⟩

/-! ### Pages that are absent -/

theorem Tracked.storePages (h : Tracked L ext own s a) (hu : L u) : StorePages L ext own s a u :=
  ⟨h.toGood, hu, fun _ => h.trapframe u hu, h.trampoline u hu⟩

/-! ### Copies under a spinlock -/

/-- **A copy under a spinlock comes to `ilock` exactly if a page of its range faults on a file**:
the byte that `pipewrite` copies in, the byte that `piperead` and `consoleread` copy out, and the
exit status that `wait` copies out, which may lie on two pages.  In an address space that is in
order, the copy of the exit status can be told by these pages. -/
theorem copy_under_spinlock (s : Kernel) (i : ℕ) (addr : U64) (c : Byte) (xstate : ℤ) :
    (¬ MaySleep (copyin (.proc i) addr 1) s ↔
      ∀ j ip, ¬ FaultReads s (.proc i) (pgRoundDown addr) PTE_R j ip) ∧
    (¬ MaySleep (copyout (.proc i) addr (fun _ => c) 1) s ↔
      ∀ j ip, ¬ FaultReads s (.proc i) (pgRoundDown addr) PTE_W j ip) ∧
    (¬ MaySleep (copyout (.proc i) addr (intBytes xstate) 4) s ↔
      (InRange addr 4 →
        ¬ CopyoutReads (fun _ => True) (.proc i) (intBytes xstate) 4 addr 0 4 s)) ∧
    ∀ L ext own a, Tracked L ext own s a → L (.proc i) →
      (¬ MaySleep (copyout (.proc i) addr (intBytes xstate) 4) s ↔
        (InRange addr 4 →
          ¬ FaultsOnFile (fun _ => True) (.proc i) (touchedPages addr 4) s)) := by
  refine ⟨?_, ?_, ?_, fun L ext own a h hi => ?_⟩
  · rw [copyin_one_maySleep_iff]
    push Not
    rfl
  · rw [copyout_one_maySleep_iff]
    push Not
    rfl
  · rw [copyout_maySleep_iff, not_and]
    rfl
  · have hiff : CopyoutReads (fun _ => True) (.proc i) (intBytes xstate) 4 addr 0 4 s ↔
        FaultsOnFile (fun _ => True) (.proc i) (touchedPages addr 4) s :=
      (h.storePages hi).copyoutReads_iff (.refl own _) le_rfl
    rw [copyout_maySleep_iff, not_and]
    exact imp_congr_right fun _ => not_congr hiff

/-! ### Copies under the lock of a file -/

/-- The same state, with `ip` locked by the process and no lock of another process in the way. -/
def Kernel.locking (s : Kernel) (ip : ℕ) : Kernel :=
  s.io s.phys { s.fs with itable := fun n => { s.fs.itable n with locked := n = ip } }

end

attribute [local instance] imageLayout

/-- `openKernel` with a byte in a pipe. -/
def pipeKernel : Kernel :=
  { openKernel 1 with pipes := fun _ => ⟨fun _ => 7, 0, 1, true, true⟩ }

/-- A process maps its file, another process locks the file, and the first reads a byte from a pipe
to its mapping. -/
def readPipeMapped : K (Option ℤ) := do
  let va ← sysMmap 0 0x1000 4096 6 MAP_PRIVATE 0 0
  ilock 0
  piperead 0 0 va 1

/-- **`piperead` sleeps in `ilock`, with the lock of the pipe held.** -/
theorem piperead_sleeps : readPipeMapped pipeKernel = .error .sleep :=
  eq_error_of_stopOf (by decide +kernel)

end Xv6
