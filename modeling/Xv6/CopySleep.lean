import Xv6.PagesReady

/-!
# Copies that sleep

`copyin` and `copyout` complete the page tables of the process as they go, and to complete a page of
a file is to lock its inode and to read it.  A copy therefore comes to `ilock` exactly if one of its
pages faults on a file (`CopyoutReads`): there it sleeps if the inode is locked by another process,
which a caller with a spinlock must not do, and it sleeps for ever if the inode is locked by the
process itself.
-/

namespace Xv6

open Bytes Wp

/-! ### Locks of inodes -/

/-- The locks of the inodes, and their reference counts. -/
def Fs.locks (fs : Fs) : ℕ → Bool × ℤ := fun ip => ((fs.itable ip).locked, (fs.itable ip).ref)

/-- `ilock(ip)` sleeps. -/
def Held (fs : Fs) (ip : ℕ) : Prop := 1 ≤ (fs.itable ip).ref ∧ (fs.itable ip).locked = true

/-- A file system whose inodes are all locked. -/
def Fs.busy (fs : Fs) : Fs :=
  { fs with itable := fun ip => { fs.itable ip with ref := 1, locked := true } }

theorem Fs.busy_held (fs : Fs) (ip : ℕ) : Held fs.busy ip := ⟨le_rfl, rfl⟩

def SameLocks (fs fs' : Fs) : Prop := fs'.locks = fs.locks

instance : Std.Refl SameLocks := ⟨fun _ => rfl⟩

instance : IsTrans Fs SameLocks := ⟨fun _ _ _ h h' => h'.trans h⟩

theorem SameLocks.held {fs fs' : Fs} (h : SameLocks fs fs') (ip : ℕ) :
    Held fs' ip ↔ Held fs ip := by
  obtain ⟨h1, h2⟩ := Prod.mk.inj (congrFun h ip)
  rw [Held, Held, h1, h2]

/-- Code that does not sleep and keeps all locks. -/
abbrev KeepsLocks {α : Type} (m : F α) : Prop := Keeps (· ≠ .sleep) SameLocks m

theorem keepsLocks_fsLogWrite (b : U32) (data : Block) : KeepsLocks (fsLogWrite b data) := by
  refine .getBind fun s => ?_
  rw [wp_bind, wp_panicIf]
  split_ifs
  · simp
  · split
    · exact (wp_set _).2 rfl
    · exact (wp_throw _).2 (by simp)

theorem keepsLocks_setInode (ip : ℕ) {f : Inode → Inode}
    (h : ∀ i, (f i).locked = i.locked ∧ (f i).ref = i.ref) : KeepsLocks (setInode ip f) := by
  refine ⟨fun s => (wp_modify _).2 (funext fun n => ?_)⟩
  unfold Fs.locks
  by_cases hn : n = ip
  · subst hn
    simp [h]
  · simp [Function.update_of_ne hn]

theorem keepsLocks_bmap (ip bn : ℕ) : KeepsLocks (bmap ip bn) :=
  keeps_bmap keepsLocks_fsLogWrite (fun _ _ => keepsLocks_setInode ip fun _ => ⟨rfl, rfl⟩) (by simp)
    (by simp) bn

theorem keepsLocks_readi (ip : ℕ) (off n : U32) : KeepsLocks (readi ip off n) :=
  keeps_readi (keepsLocks_bmap ip) off n

/-! ### A file is read under its lock -/

theorem ilock_held {fs : Fs} {ip : ℕ} (h : Held fs ip) : ilock ip fs = .error .sleep := by
  have hget : getInode ip fs = .ok (fs.itable ip, fs) := rfl
  have hacq : acquireInode ip fs = .error .sleep := by
    unfold acquireInode
    rw [bind_of_ok hget, if_pos h.2]
    rfl
  unfold ilock
  rw [bind_of_ok hget, panicIf, if_neg (by have := h.1; omega), pure_bind, bind_of_error hacq]

theorem locks_update (fs : Fs) (ip : ℕ) (i : Inode) :
    Fs.locks { fs with itable := Function.update fs.itable ip i } =
      Function.update fs.locks ip (i.locked, i.ref) := by
  funext n
  unfold Fs.locks
  by_cases hn : n = ip
  · subst hn
    simp
  · simp [Function.update_of_ne hn]

/-- `ilock` sleeps only on an inode that is held, and else takes its lock alone. -/
theorem ilock_locks (fs : Fs) (ip : ℕ) :
    wp (ilock ip) (fun e => e = .sleep → Held fs ip)
      (fun _ fs' => fs'.locks = Function.update fs.locks ip (true, (fs.itable ip).ref) ∧
        (fs.itable ip).locked = false) fs := by
  unfold ilock acquireInode getInode setInode bread
  simp only [wp_bind, wp_get, wp_pure, wp_panicIf, wp_ite, wp_throw, wp_modify]
  split_ifs with href hlocked
  · simp
  · exact fun _ => ⟨not_lt.1 href, hlocked⟩
  all_goals
    have hfree : (fs.itable ip).locked = false := by simpa using hlocked
    try simp only [locks_update, Function.update_self, Function.update_idem, hfree, and_self]
  all_goals simp

/-- `iunlock` gives the lock back. -/
theorem iunlock_locks (fs : Fs) (ip : ℕ) :
    wp (iunlock ip) (· ≠ .sleep)
      (fun _ fs' => fs'.locks = Function.update fs.locks ip (false, (fs.itable ip).ref)) fs := by
  unfold iunlock getInode setInode
  simp only [wp_bind, wp_get, wp_pure, wp_panicIf, wp_modify]
  split_ifs
  · simp
  · rw [locks_update]

/-- Reading a file sleeps only if its inode is held, and leaves the locks as they were. -/
theorem fileRead_locks (fs : Fs) (ip : ℕ) (off n : U32) :
    wp (fileRead ip off n) (fun e => e = .sleep → Held fs ip) (fun _ fs' => SameLocks fs fs')
      fs := by
  unfold fileRead
  rw [wp_bind]
  refine (ilock_locks fs ip).mono fun _ fs₁ h₁ => ?_
  obtain ⟨h₁, hfree⟩ := h₁
  rw [wp_bind]
  refine (((keepsLocks_readi ip off n).start fs₁).weaken fun e he h => absurd h he).mono
    fun bs fs₂ h₂ => ?_
  rw [wp_bind]
  refine ((iunlock_locks fs₂ ip).weaken fun e he h => absurd h he).mono fun _ fs₃ h₃ => ?_
  have hlocks : fs₂.locks = Function.update fs.locks ip (true, (fs.itable ip).ref) := h₂.trans h₁
  have href : (fs₂.itable ip).ref = (fs.itable ip).ref := by
    have h := congrArg Prod.snd (congrFun hlocks ip)
    rwa [Function.update_self] at h
  rw [wp_pure, SameLocks, h₃, hlocks, Function.update_idem, href, ← hfree]
  exact Function.update_eq_self ip fs.locks

/-! ### A page of a file -/

section

variable {s : Kernel} {va pa : U64} {ip : ℕ} {vma : Vma} (hip : vma.inode = some ip)
  (heof : va < vma.start + vma.filesz.setWidth 64)

include hip heof

theorem fillPage_held (h : Held s.fs ip) : fillPage vma va pa s = .error .sleep := by
  have hread : readPage vma va s.fs = .error .sleep := by
    rw [readPage_eq hip heof, fileRead, bind_assoc, bind_of_error (ilock_held h)]
  rw [fillPage, bind_of_error (liftF_of_error hread)]

theorem fillPage_locks :
    wp (fillPage vma va pa) (fun e => e = .sleep → Held s.fs ip)
      (fun _ t => SameLocks s.fs t.fs) s := by
  unfold fillPage
  rw [wp_bind, wp_liftF, readPage_eq hip heof, wp_bind]
  refine (fileRead_locks s.fs ip _ _).mono fun bs fs₁ h₁ => ?_
  rw [wp_bind, wp_panicIf]
  split_ifs with hc
  · simp
  rw [wp_pure]
  refine ((fillRest_stop pa bs (s.io s.phys fs₁)).weaken fun e he h => ?_).mono ?_
  · rw [h] at he
    exact he.elim
  · intro _ t ht
    rw [ht]
    exact h₁

end

/-! ### Walks -/

/-- A walk that allocates comes to the entry that a walk without allocation finds, if it finds
one. -/
theorem pgtWalkFrom_lookup {va a : U64} {p p' : Phys} {level : ℕ} {pagetable : U64}
    (h : pgtWalkFrom va true level pagetable p = .ok (some a, p')) :
    pgtWalkFrom va false level pagetable p = .ok (none, p) ∨
      pgtWalkFrom va false level pagetable p = .ok (some a, p) ∧ p' = p := by
  induction level generalizing pagetable with
  | zero =>
    obtain ⟨ha, hp⟩ := Prod.mk.inj (Except.ok.inj h)
    exact .inr ⟨by rw [← ha]; rfl, hp.symm⟩
  | succ level ih =>
    unfold pgtWalkFrom at h ⊢
    dsimp only at h ⊢
    cases hload : loadPte (pteAddr pagetable (px (level + 1) va)) p with
    | error e => cases (bind_of_error hload).symm.trans h
    | ok x =>
      obtain ⟨pte, q⟩ := x
      obtain rfl := loadPte_ok hload
      rw [bind_of_ok hload] at h ⊢
      by_cases hv : pte &&& PTE_V ≠ 0
      · rw [if_pos hv] at h ⊢
        exact ih h
      · rw [if_neg hv, if_pos (by rfl)]
        exact .inl rfl

theorem quiet_noSleep (e : Stop) (h : QuietStop e) : e ≠ .sleep := by
  rintro rfl
  rcases h with h | h
  · exact h
  · cases h

section

variable {s : Kernel} {u : UvmPtr} {va perm : U64} {j ip : ℕ}

/-- The lookup before a fault that reads a file finds no entry, or one that is not valid. -/
theorem FaultReads.lookup (h : FaultReads s u va perm j ip) :
    pgtWalk (s.uvms u).pagetable va false s.phys = .ok (none, s.phys) ∨
      ∃ a pte, pgtWalk (s.uvms u).pagetable va false s.phys = .ok (some a, s.phys) ∧
        loadPte a s.phys = .ok (pte, s.phys) ∧ pte &&& PTE_V = 0 := by
  obtain ⟨-, hlt, -, -, -, -, a, p, pte, -, -, hwalk, hload, hinv, -⟩ := h
  have hpanic : ∀ alloc, pgtWalk (s.uvms u).pagetable va alloc s.phys =
      pgtWalkFrom va alloc 2 (s.uvms u).pagetable s.phys := by
    intro alloc
    rw [pgtWalk, panicIf, if_neg (BitVec.not_le.2 hlt), pure_bind]
  rw [hpanic] at hwalk ⊢
  rcases pgtWalkFrom_lookup hwalk with h | ⟨h, rfl⟩
  · exact .inl h
  · exact .inr ⟨a, pte, h, hload, hinv⟩

variable [Layout]

theorem FaultReads.copyoutPage_eq (h : FaultReads s u va PTE_W j ip) (fs : Fs) :
    copyoutPage u va (s.io s.phys fs) = uvmCompletemap u va PTE_W (s.io s.phys fs) := by
  unfold copyoutPage
  rw [bind_of_ok (a := s.io s.phys fs) (t := s.io s.phys fs) rfl]
  rcases h.lookup with hw | ⟨a, pte, hw, hload, hinv⟩
  · exact bind_of_ok (liftP_of_ok (s := s.io s.phys fs) hw)
  · refine (bind_of_ok (liftP_of_ok (s := s.io s.phys fs) hw)).trans ?_
    refine (bind_of_ok (liftP_of_ok (s := s.io s.phys fs) hload)).trans ?_
    rw [if_pos (.inl hinv)]
    rfl

theorem FaultReads.copyinPage_eq (h : FaultReads s u va PTE_R j ip) (fs : Fs) :
    copyinPage u va (s.io s.phys fs) = uvmCompletemap u va PTE_R (s.io s.phys fs) := by
  have hzero : pgtGetpa (s.uvms u).pagetable va s.phys = .ok (0, s.phys) := by
    unfold pgtGetpa
    rw [if_neg (BitVec.not_le.2 h.2.1)]
    rcases h.lookup with hw | ⟨a, pte, hw, hload, hinv⟩
    · rw [bind_of_ok hw]
      rfl
    · rw [bind_of_ok hw]
      dsimp only
      rw [bind_of_ok hload, if_pos (.inl hinv)]
      rfl
  unfold copyinPage
  rw [bind_of_ok (a := s.io s.phys fs) (t := s.io s.phys fs) rfl]
  refine (bind_of_ok (liftP_of_ok (s := s.io s.phys fs) hzero)).trans ?_
  rw [if_pos rfl]
  rfl

theorem copyoutPage_blind (h : ∀ j ip, ¬ FaultReads s u va PTE_W j ip) :
    Blind (· ≠ .sleep) (copyoutPage u va) s := by
  have hcomplete : Blind (· ≠ .sleep) (uvmCompletemap u va PTE_W) s :=
    (uvmCompletemap_blind h).weaken quiet_noSleep
  refine .getBind (fun _ => rfl) (.bind (.liftP (readsPhys_pgtWalk _ _).noSleep) fun r p hw => ?_)
  obtain rfl : p = s.phys := ((readsPhys_pgtWalk _ _).start _).ok (ok_of_liftP hw)
  cases r with
  | none => exact hcomplete
  | some a =>
    refine .bind (.liftP (readsPhys_loadPte a).noSleep) fun pte p hload => ?_
    obtain rfl : p = s.phys := loadPte_ok (ok_of_liftP hload)
    exact .ite (fun _ => hcomplete) fun _ => .pure _

theorem copyinPage_blind (h : ∀ j ip, ¬ FaultReads s u va PTE_R j ip) :
    Blind (· ≠ .sleep) (copyinPage u va) s := by
  refine .getBind (fun _ => rfl) (.bind (.liftP (readsPhys_pgtGetpa _ _).noSleep) fun r p hw => ?_)
  obtain rfl : p = s.phys := ((readsPhys_pgtGetpa _ _).start _).ok (ok_of_liftP hw)
  exact .ite (fun _ => (uvmCompletemap_blind h).weaken quiet_noSleep) fun _ => .pure _

/-- A copy to a page sleeps only on a file that is held, and keeps all locks. -/
theorem copyoutPage_locks (s : Kernel) (u : UvmPtr) (va : U64) :
    wp (copyoutPage u va)
      (fun e => e = .sleep → ∃ j ip, FaultReads s u va PTE_W j ip ∧ Held s.fs ip)
      (fun _ t => SameLocks s.fs t.fs) s := by
  by_cases hread : ∃ j ip, FaultReads s u va PTE_W j ip
  · obtain ⟨j, ip, h⟩ := hread
    obtain ⟨pa, p, hrun⟩ := h.run
    have heq : copyoutPage u va s = fillPage (s.vmas j) va pa (s.io p s.fs) :=
      (h.copyoutPage_eq s.fs).trans (hrun s.fs)
    rw [wp, heq]
    exact (fillPage_locks (s := s.io p s.fs) h.2.2.2.2.1 h.2.2.2.2.2.1).weaken fun e he hs =>
      ⟨j, ip, h, he hs⟩
  · push Not at hread
    have hblind := copyoutPage_blind hread
    rw [wp]
    cases hm : copyoutPage u va s with
    | ok x => exact congrArg Fs.locks (hblind.run_ok hm s.fs).2
    | error e => exact fun hs => absurd hs (hblind.stop hm)

end

/-! ### `copyout` -/

/-- `copyout` of a range that lies below `MAXVA`. -/
def InRange (dstva len : U64) : Prop := dstva ≤ dstva + len ∧ dstva + len ≤ MAXVA

/-- The range of a byte in a page below `MAXVA`. -/
theorem inRange_one {dstva : U64} (h : pgRoundDown dstva < MAXVA) : InRange dstva 1 := by
  have hmax : MAXVA.toNat = 2 ^ 38 := by decide
  rw [BitVec.lt_def, toNat_pgRoundDown, hmax] at h
  have hone : (dstva + 1).toNat = dstva.toNat + 1 := by
    rw [BitVec.toNat_add, show (1 : U64).toNat = 1 from rfl, Nat.mod_eq_of_lt (by omega)]
  constructor
  · rw [BitVec.le_def, hone]
    exact Nat.le_succ _
  · rw [BitVec.le_def, hone, hmax]
    omega

section

variable [Layout]

/-- The bytes that `copyout` writes to the page of `dstva`, out of `len`. -/
def inPage (dstva len : U64) : U64 := umin (PGSIZE - (dstva - pgRoundDown dstva)) len

/-- One round of the loop of `copyout`: `false` if the page is refused. -/
def copyoutPart (u : UvmPtr) (src : ℕ → Byte) (dstva : U64) (k : ℕ) (len : U64) : K Bool := do
  let pa0 ← copyoutPage u (pgRoundDown dstva)
  if pa0 = 0 then return false
  writeBytes (pa0 + (dstva - pgRoundDown dstva))
    ((List.range (inPage dstva len).toNat).map fun i => src (k + i))
  return true

variable {s : Kernel} {u : UvmPtr} {src : ℕ → Byte} {dstva len : U64} {k fuel : ℕ}

theorem copyoutFrom_succ (hlen : len ≠ 0) :
    copyoutFrom u src (fuel + 1) dstva k len =
      (copyoutPart u src dstva k len >>= fun ok =>
        if !ok then return false
        else copyoutFrom u src fuel (pgRoundDown dstva + PGSIZE) (k + (inPage dstva len).toNat)
          (len - inPage dstva len)) := by
  rw [copyoutFrom, if_neg hlen]
  unfold copyoutPart
  rw [bind_assoc]
  refine bind_congr fun pa0 => ?_
  by_cases hpa : pa0 = 0
  · rw [if_pos hpa, if_pos hpa]
    rfl
  · rw [if_neg hpa, if_neg hpa, bind_assoc]
    rfl

theorem FaultReads.copyoutPart_held {j ip : ℕ}
    (h : FaultReads s u (pgRoundDown dstva) PTE_W j ip) (hheld : Held s.fs ip) :
    copyoutPart u src dstva k len s = .error .sleep := by
  obtain ⟨pa, p, hrun⟩ := h.run
  have hpage : copyoutPage u (pgRoundDown dstva) s = .error .sleep :=
    ((h.copyoutPage_eq s.fs).trans (hrun s.fs)).trans
      (fillPage_held (s := s.io p s.fs) h.2.2.2.2.1 h.2.2.2.2.2.1 hheld)
  rw [copyoutPart, bind_of_error hpage]

theorem copyoutPart_locks (s : Kernel) (u : UvmPtr) (src : ℕ → Byte) (dstva : U64) (k : ℕ)
    (len : U64) : wp (copyoutPart u src dstva k len)
      (fun e => e = .sleep → ∃ j ip, FaultReads s u (pgRoundDown dstva) PTE_W j ip ∧ Held s.fs ip)
      (fun _ t => SameLocks s.fs t.fs) s := by
  unfold copyoutPart
  rw [wp_bind]
  refine (copyoutPage_locks s u _).mono fun pa t ht => ?_
  rw [wp_ite]
  split_ifs
  · exact ht
  · rw [wp_bind, wp_liftP]
    refine (((physOnly_writeBytes _ _).start t.phys).weaken fun e he hs => ?_).mono fun _ _ _ => ht
    rw [hs] at he
    exact he.elim

theorem copyoutPart_blind (h : ∀ j ip, ¬ FaultReads s u (pgRoundDown dstva) PTE_W j ip) :
    Blind (· ≠ .sleep) (copyoutPart u src dstva k len) s :=
  .bind (copyoutPage_blind h) fun _ _ _ => .ite (fun _ => .pure _) fun _ =>
    .bind ((Blind.liftP (physOnly_writeBytes _ _)).weaken fun _ he => quiet_noSleep _ (.inl he))
      fun _ _ _ => .pure _

/-- A copy of `len` bytes to `dstva` comes to a page whose fault reads a file in `A`. -/
def CopyoutReads (A : ℕ → Prop) (u : UvmPtr) (src : ℕ → Byte) : ℕ → U64 → ℕ → U64 → Kernel → Prop
  | 0, _, _, _, _ => False
  | fuel + 1, dstva, k, len, s => len ≠ 0 ∧
    ((∃ j ip, FaultReads s u (pgRoundDown dstva) PTE_W j ip ∧ A ip) ∨
      ∃ t, copyoutPart u src dstva k len s = .ok (true, t) ∧
        CopyoutReads A u src fuel (pgRoundDown dstva + PGSIZE) (k + (inPage dstva len).toNat)
          (len - inPage dstva len) t)

variable {A : ℕ → Prop}

/-- A copy sleeps exactly if it comes to a page of a file that is held. -/
theorem copyoutFrom_sleep_iff (hA : ∀ ip, Held s.fs ip ↔ A ip) :
    copyoutFrom u src fuel dstva k len s = .error .sleep ↔
      CopyoutReads A u src fuel dstva k len s := by
  induction fuel generalizing dstva k len s with
  | zero => exact ⟨fun h => (by cases h), False.elim⟩
  | succ fuel ih =>
    by_cases hlen : len = 0
    · subst hlen
      exact ⟨fun h => (by cases h), fun h => absurd rfl h.1⟩
    rw [copyoutFrom_succ hlen, CopyoutReads]
    simp only [hlen, ne_eq, not_false_eq_true, true_and]
    have hlocks := copyoutPart_locks s u src dstva k len
    cases hm : copyoutPart u src dstva k len s with
    | error e =>
      rw [bind_of_error hm]
      constructor
      · intro h
        obtain ⟨j, ip, hread, hheld⟩ := hlocks.error hm (Except.error.inj h)
        exact .inl ⟨j, ip, hread, (hA ip).1 hheld⟩
      · rintro (⟨j, ip, hread, ha⟩ | ⟨t, ht, -⟩)
        · rw [← hm]
          exact hread.copyoutPart_held ((hA ip).2 ha)
        · cases ht
    | ok x =>
      obtain ⟨ok, t⟩ := x
      have hnot : ¬ ∃ j ip, FaultReads s u (pgRoundDown dstva) PTE_W j ip ∧ A ip := by
        rintro ⟨j, ip, hread, ha⟩
        cases hm.symm.trans (hread.copyoutPart_held ((hA ip).2 ha))
      rw [bind_of_ok hm]
      cases ok with
      | false =>
        refine ⟨fun h => (by cases h), ?_⟩
        rintro (h | ⟨t', ht, -⟩)
        · exact absurd h hnot
        · cases ht
      | true =>
        have hA' : ∀ ip, Held t.fs ip ↔ A ip := fun ip => ((hlocks.ok hm).held ip).trans (hA ip)
        refine (ih hA').trans ⟨fun h => .inr ⟨t, rfl, h⟩, ?_⟩
        rintro (h | ⟨t', ht, h⟩)
        · exact absurd h hnot
        · cases ht
          exact h

theorem CopyoutReads.mono {B : ℕ → Prop} (hAB : ∀ ip, A ip → B ip)
    (h : CopyoutReads A u src fuel dstva k len s) : CopyoutReads B u src fuel dstva k len s := by
  induction fuel generalizing dstva k len s with
  | zero => exact h
  | succ fuel ih =>
    obtain ⟨hlen, ⟨j, ip, hread, ha⟩ | ⟨t, ht, h⟩⟩ := h
    · exact ⟨hlen, .inl ⟨j, ip, hread, hAB ip ha⟩⟩
    · exact ⟨hlen, .inr ⟨t, ht, ih h⟩⟩

/-- Whether a copy comes to a file at all does not depend on the state of the file system. -/
theorem CopyoutReads.io (fs : Fs) (h : CopyoutReads (fun _ => True) u src fuel dstva k len s) :
    CopyoutReads (fun _ => True) u src fuel dstva k len (s.io s.phys fs) := by
  induction fuel generalizing dstva k len s with
  | zero => exact h
  | succ fuel ih =>
    obtain ⟨hlen, h⟩ := h
    refine ⟨hlen, ?_⟩
    by_cases hread : ∃ j ip, FaultReads s u (pgRoundDown dstva) PTE_W j ip
    · obtain ⟨j, ip, hread⟩ := hread
      exact .inl ⟨j, ip, hread.io fs, trivial⟩
    · push Not at hread
      obtain ⟨j, ip, h, -⟩ | ⟨t, ht, h⟩ := h
      · exact absurd h (hread j ip)
      · exact .inr ⟨t.io t.phys fs, ((copyoutPart_blind hread).run_ok ht fs).1, ih h⟩

/-- In some state of the file system, `m` sleeps: it comes to `ilock`. -/
def MaySleep {α : Type} (m : K α) (s : Kernel) : Prop := ∃ fs, m (s.io s.phys fs) = .error .sleep

theorem copyoutFrom_maySleep_iff :
    MaySleep (copyoutFrom u src fuel dstva k len) s ↔
      CopyoutReads (fun _ => True) u src fuel dstva k len s := by
  constructor
  · rintro ⟨fs, h⟩
    rw [copyoutFrom_sleep_iff (A := Held fs) fun _ => Iff.rfl] at h
    exact (h.mono fun _ _ => trivial).io s.fs
  · intro h
    refine ⟨s.fs.busy, ?_⟩
    rw [copyoutFrom_sleep_iff (A := fun _ => True) fun ip => iff_true_intro (s.fs.busy_held ip)]
    exact h.io s.fs.busy

theorem copyout_eq (h : InRange dstva len) :
    copyout u dstva src len = copyoutFrom u src len.toNat dstva 0 len := by
  rw [copyout, if_neg]
  rintro (h' | h')
  · exact absurd h' (BitVec.not_lt.2 h.1)
  · exact absurd h' (BitVec.not_lt.2 h.2)

theorem copyout_eq_false (h : ¬ InRange dstva len) : copyout u dstva src len = return false := by
  rw [copyout, if_pos]
  rw [InRange, not_and_or, BitVec.not_le, BitVec.not_le] at h
  exact h

theorem copyout_maySleep_iff :
    MaySleep (copyout u dstva src len) s ↔
      InRange dstva len ∧ CopyoutReads (fun _ => True) u src len.toNat dstva 0 len s := by
  by_cases h : InRange dstva len
  · rw [copyout_eq h, copyoutFrom_maySleep_iff]
    exact ⟨fun h' => ⟨h, h'⟩, fun h' => h'.2⟩
  · rw [copyout_eq_false h]
    refine ⟨?_, fun h' => absurd h'.1 h⟩
    rintro ⟨fs, h'⟩
    cases h'

/-! ### Copies under a spinlock -/

/-- `copyout` of one byte. -/
theorem copyout_one_maySleep_iff :
    MaySleep (copyout u dstva src 1) s ↔
      ∃ j ip, FaultReads s u (pgRoundDown dstva) PTE_W j ip := by
  rw [copyout_maySleep_iff]
  constructor
  · rintro ⟨-, -, ⟨j, ip, h, -⟩ | ⟨t, -, h⟩⟩
    · exact ⟨j, ip, h⟩
    · exact h.elim
  · rintro ⟨j, ip, h⟩
    exact ⟨inRange_one h.2.1, by decide, .inl ⟨j, ip, h, trivial⟩⟩

/-- `copyin` of one byte. -/
theorem copyin_one_maySleep_iff :
    MaySleep (copyin u dstva 1) s ↔ ∃ j ip, FaultReads s u (pgRoundDown dstva) PTE_R j ip := by
  have hone : copyin u dstva 1 = copyinFrom u 1 [] dstva 1 := rfl
  rw [hone, copyinFrom, if_neg (by decide)]
  constructor
  · rintro ⟨fs, h⟩
    by_contra hread
    push Not at hread
    exact Blind.stop (s := s.io s.phys fs) (.bind (copyinPage_blind hread) fun _ _ _ =>
      .ite (fun _ => .pure _) fun _ =>
        .bind (.liftP (readsPhys_readBytes _ _).noSleep) fun _ _ _ => .pure _) h rfl
  · rintro ⟨j, ip, h⟩
    obtain ⟨pa, p, hrun⟩ := h.run
    refine ⟨s.fs.busy, bind_of_error (((h.copyinPage_eq _).trans (hrun _)).trans ?_)⟩
    exact fillPage_held (s := s.io p s.fs.busy) h.2.2.2.2.1 h.2.2.2.2.2.1 (s.fs.busy_held ip)

end

end Xv6
