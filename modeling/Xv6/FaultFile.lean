import Xv6.Boot
import Xv6.PageFault
import Xv6.PhysStop
import Xv6.File

/-!
# Page faults that read a file

`FaultReads` says which page faults read a page of a file.  Such a fault is the reading followed by
the filling of the page (`FaultReads.run`); every other fault does the same whatever the file system
holds (`Blind`, `uvmCompletemap_blind`).
-/

namespace Xv6

open Bytes Wp

section

variable {α : Type} {s : Kernel}

theorem liftP_of_ok {m : P α} {r : α} {p : Phys} (h : m s.phys = .ok (r, p)) :
    (liftM m : K α) s = .ok (r, s.io p s.fs) := by
  change zoom Kernel.phys (fun p s => { s with phys := p }) m s = _
  rw [zoom, h]
  rfl

theorem liftP_of_error {m : P α} {e : Stop} (h : m s.phys = .error e) :
    (liftM m : K α) s = .error e := by
  change zoom Kernel.phys (fun p s => { s with phys := p }) m s = _
  rw [zoom, h]

theorem ok_of_liftP {m : P α} {r : α} {p : Phys} (h : (liftM m : K α) s = .ok (r, s.io p s.fs)) :
    m s.phys = .ok (r, p) := by
  cases hm : m s.phys with
  | error e => cases (liftP_of_error hm).symm.trans h
  | ok x =>
    obtain ⟨hr, ht⟩ := Prod.mk.inj (Except.ok.inj ((liftP_of_ok hm).symm.trans h))
    have hp : x.2 = p := congrArg Kernel.phys ht
    rw [← hr, ← hp]

theorem liftF_of_ok {m : F α} {r : α} {f : Fs} (h : m s.fs = .ok (r, f)) :
    (liftM m : K α) s = .ok (r, s.io s.phys f) := by
  change zoom Kernel.fs (fun f s => { s with fs := f }) m s = _
  rw [zoom, h]
  rfl

theorem liftF_of_error {m : F α} {e : Stop} (h : m s.fs = .error e) :
    (liftM m : K α) s = .error e := by
  change zoom Kernel.fs (fun f s => { s with fs := f }) m s = _
  rw [zoom, h]

end

/-! ### The fault -/

/-- The part of the file that a new page at `va` of a vma holds: its offset and its length. -/
def Vma.fileOff (v : Vma) (va : U64) : U32 := (v.offset.setWidth 64 + (va - v.start)).setWidth 32
def Vma.fileLen (v : Vma) (va : U64) : U64 := umin (v.start + v.filesz.setWidth 64 - va) PGSIZE

/-- A fault at `va` for `perm` gets to the file `ip` of `vmas[j]`: the address lies in the file part
of the vma, the access is allowed, the page is not resident, and there is memory for the page table
and for the page. -/
def FaultReads (s : Kernel) (u : UvmPtr) (va perm : U64) (j ip : ℕ) : Prop :=
  va % PGSIZE = 0 ∧ va < MAXVA ∧ uvmVa2vma s u va = some j ∧
    (s.vmas j).perm.setWidth 64 &&& perm ≠ 0 ∧ (s.vmas j).inode = some ip ∧
    va < (s.vmas j).start + (s.vmas j).filesz.setWidth 64 ∧
    ∃ a p pte pa p', pgtWalk (s.uvms u).pagetable va true s.phys = .ok (some a, p) ∧
      loadPte a p = .ok (pte, p) ∧ pte &&& PTE_V = 0 ∧
      freshPage (s.vmas j) a p = .ok (pa, p') ∧ pa ≠ 0

section

variable {s : Kernel} {u : UvmPtr} {va perm : U64} {j ip : ℕ}

/-- The fault does not depend on the state of the file system. -/
theorem FaultReads.io (fs : Fs) (h : FaultReads s u va perm j ip) :
    FaultReads (s.io s.phys fs) u va perm j ip := h

theorem FaultReads.unique {j' ip' : ℕ} (h : FaultReads s u va perm j ip)
    (h' : FaultReads s u va perm j' ip') : j' = j ∧ ip' = ip := by
  obtain ⟨-, -, hj, -, hip, -⟩ := h
  obtain ⟨-, -, hj', -, hip', -⟩ := h'
  obtain rfl : j' = j := Option.some.inj (hj'.symm.trans hj)
  exact ⟨rfl, Option.some.inj (hip'.symm.trans hip)⟩

theorem loadPte_ok {a pte : U64} {p p' : Phys} (h : loadPte a p = .ok (pte, p')) : p' = p := by
  have hw : wp (loadPte a) (fun _ => True) (fun _ t => t = p) p := by
    unfold loadPte frame
    simp only [wp_bind, wp_ite, wp_pure, wp_throw, wp_get]
    split_ifs
  exact hw.ok h

/-- A page without a file part is not read from the file. -/
theorem readPage_of_eof {vma : Vma} {fs : Fs}
    (h : ∀ ip, vma.inode = some ip → vma.start + vma.filesz.setWidth 64 ≤ va) :
    readPage vma va fs = .ok ([], fs) := by
  unfold readPage
  cases hip : vma.inode with
  | none => rfl
  | some ip =>
    dsimp only
    rw [if_pos (h ip hip)]
    rfl

end

/-- What a fault does once it has its page: read the file part and copy it in. -/
def fillPage (vma : Vma) (va pa : U64) : K U64 := do
  let bs ← readPage vma va
  writeBytes pa bs
  return pa

/-- How a page fault stops if it does not read a file. -/
def QuietStop (e : Stop) : Prop := PhysStop e ∨ e = .panic "invalid pagefault\n"

/-! ### Runs that are blind to the file system -/

/-- From `s`, with any state of the file system, `m` does the same to memory and leaves the file
system as it is, or it stops in one way. -/
def Blind {α : Type} (E : Stop → Prop) (m : K α) (s : Kernel) : Prop :=
  (∃ r p, ∀ fs, m (s.io s.phys fs) = .ok (r, s.io p fs)) ∨
    ∃ e, E e ∧ ∀ fs, m (s.io s.phys fs) = .error e

namespace Blind

variable {α β : Type} {E E' : Stop → Prop} {s : Kernel}

theorem pure (r : α) : Blind E (Pure.pure r : K α) s := .inl ⟨r, s.phys, fun _ => rfl⟩

theorem throw {e : Stop} (he : E e) : Blind E (MonadExcept.throw e : K α) s :=
  .inr ⟨e, he, fun _ => rfl⟩

theorem weaken {m : K α} (h : Blind E m s) (hE : ∀ e, E e → E' e) : Blind E' m s :=
  h.imp_right fun ⟨e, he, hrun⟩ => ⟨e, hE e he, hrun⟩

/-- Code on memory alone is blind. -/
theorem liftP {m : P α} (h : Keeps E (fun _ _ => True) m) : Blind E (liftM m : K α) s := by
  cases hm : m s.phys with
  | ok x => exact .inl ⟨x.1, x.2, fun fs => liftP_of_ok (s := s.io s.phys fs) hm⟩
  | error e =>
    exact .inr ⟨e, (h.start s.phys).error hm, fun fs => liftP_of_error (s := s.io s.phys fs) hm⟩

theorem bind {m : K α} {f : α → K β} (hm : Blind E m s)
    (hf : ∀ r p, m s = .ok (r, s.io p s.fs) → Blind E (f r) (s.io p s.fs)) :
    Blind E (m >>= f) s := by
  rcases hm with ⟨r, p, hm⟩ | ⟨e, he, hm⟩
  · refine (hf r p (hm s.fs)).imp ?_ ?_
    · rintro ⟨r', p', h⟩
      exact ⟨r', p', fun fs => (bind_of_ok (hm fs)).trans (h fs)⟩
    · rintro ⟨e, he, h⟩
      exact ⟨e, he, fun fs => (bind_of_ok (hm fs)).trans (h fs)⟩
  · exact .inr ⟨e, he, fun fs => bind_of_error (hm fs)⟩

/-- Reading the state, for a continuation that does not look at the file system in it. -/
theorem getBind {f : Kernel → K β} (hblind : ∀ fs, f (s.io s.phys fs) = f s)
    (hf : Blind E (f s) s) : Blind E (MonadState.get >>= f) s := by
  have hrun : ∀ fs, (MonadState.get >>= f : K β) (s.io s.phys fs) = f s (s.io s.phys fs) := by
    intro fs
    rw [← hblind fs]
    rfl
  unfold Blind
  simp only [hrun]
  exact hf

theorem ite {c : Prop} [Decidable c] {m m' : K α} (hm : c → Blind E m s)
    (hm' : ¬ c → Blind E m' s) : Blind E (if c then m else m') s := by
  split_ifs with hc
  · exact hm hc
  · exact hm' hc

/-- A blind run in another state of the file system. -/
theorem run_ok {m : K α} {r : α} {t : Kernel} (h : Blind E m s) (hm : m s = .ok (r, t)) (fs : Fs) :
    m (s.io s.phys fs) = .ok (r, t.io t.phys fs) ∧ t.fs = s.fs := by
  rcases h with ⟨r', p, h⟩ | ⟨e, -, h⟩
  · obtain ⟨hr, ht⟩ := Prod.mk.inj (Except.ok.inj (hm.symm.trans (h s.fs)))
    rw [hr, ht]
    exact ⟨h fs, rfl⟩
  · cases hm.symm.trans (h s.fs)

theorem stop {m : K α} {e : Stop} (h : Blind E m s) (hm : m s = .error e) : E e := by
  rcases h with ⟨r', p, h⟩ | ⟨e', he, h⟩
  · cases hm.symm.trans (h s.fs)
  · rwa [Except.error.inj (hm.symm.trans (h s.fs))]

end Blind

section

variable [Layout] {s : Kernel} {u : UvmPtr} {va perm : U64} {j ip : ℕ}

/-- A fault that reads a file comes to `fillPage`, with the same memory whatever the state of the
file system. -/
theorem FaultReads.run (h : FaultReads s u va perm j ip) :
    ∃ pa p, ∀ fs, uvmCompletemap u va perm (s.io s.phys fs) =
      fillPage (s.vmas j) va pa (s.io p fs) := by
  obtain ⟨hal, hlt, hj, hperm, hip, heof, a, p, pte, pa, p', hwalk, hload, hinv, hfresh, hpa⟩ := h
  refine ⟨pa, p', fun fs => ?_⟩
  have hrange : ¬ (va % PGSIZE ≠ 0 ∨ MAXVA ≤ va) := by
    rintro (h | h)
    · exact h hal
    · exact absurd h (BitVec.not_le.2 hlt)
  unfold uvmCompletemap
  rw [if_neg hrange, bind_of_ok (a := s.io s.phys fs) (t := s.io s.phys fs) rfl]
  have hj' : uvmVa2vma (s.io s.phys fs) u va = some j := hj
  rw [hj']
  dsimp only
  rw [if_neg (show ¬ ((s.io s.phys fs).vmas j).perm.setWidth 64 &&& perm = 0 from hperm)]
  refine (bind_of_ok (liftP_of_ok (s := s.io s.phys fs) hwalk)).trans ?_
  refine (bind_of_ok (liftP_of_ok (s := s.io p fs) hload)).trans ?_
  rw [if_pos hinv]
  refine (bind_of_ok (liftP_of_ok (s := s.io p fs) hfresh)).trans ?_
  rw [if_neg hpa]
  rfl

/-- A fault that does not read a file is blind to the file system. -/
theorem uvmCompletemap_blind (h : ∀ j ip, ¬ FaultReads s u va perm j ip) :
    Blind QuietStop (uvmCompletemap u va perm) s := by
  have hphys : ∀ {α : Type} {m : P α} {t : Kernel}, PhysOnly m →
      Blind QuietStop (liftM m : K α) t := fun hm => (Blind.liftP hm).weaken fun _ he => .inl he
  unfold uvmCompletemap
  refine .ite (fun _ => .pure _) fun hrange => ?_
  push Not at hrange
  obtain ⟨hal, hlt⟩ := hrange
  rw [BitVec.not_le] at hlt
  refine .getBind (fun _ => rfl) ?_
  cases hj : uvmVa2vma s u va with
  | none => exact .pure _
  | some j =>
    refine .ite (fun _ => .pure _) fun hperm => .bind (hphys (physOnly_pgtWalk hlt))
      fun r p hwalk => ?_
    cases r with
    | none => exact .pure _
    | some a =>
      unfold completeEntry
      refine .bind (hphys (physOnly_loadPte a)) fun pte p₁ hload => ?_
      refine .ite (fun hinv => ?_) fun _ => .ite (fun _ => .pure _) fun _ =>
        .ite (fun _ => hphys (physOnly_completeWrite a pte)) fun _ => .throw (.inr rfl)
      -- the page is not resident: no file part, or no memory
      refine .bind (hphys (physOnly_freshPage _ _)) fun pa p₂ hfresh => ?_
      refine .ite (fun _ => .pure _) fun hpa => ?_
      have heof : ∀ ip, (s.vmas j).inode = some ip →
          (s.vmas j).start + (s.vmas j).filesz.setWidth 64 ≤ va := by
        intro ip hip
        by_contra hlt'
        obtain rfl : p₁ = p := loadPte_ok (ok_of_liftP hload)
        exact h j ip ⟨hal, hlt, hj, hperm, hip, BitVec.not_le.1 hlt', a, p₁, pte, pa, p₂,
          ok_of_liftP hwalk, ok_of_liftP hload, hinv, ok_of_liftP hfresh, hpa⟩
      refine .bind (.inl ⟨[], p₂, fun fs => ?_⟩) fun bs p₃ _ =>
        .bind (hphys (physOnly_writeBytes pa bs)) fun _ _ _ => .pure _
      exact liftF_of_ok (s := s.io p₂ fs) (readPage_of_eof heof)

end

/-! ### Reading a page -/

/-- `ilock(ip); readi(ip, 0, .., off, n); iunlock(ip)`. -/
def fileRead (ip : ℕ) (off n : U32) : F (List Byte) := do
  ilock ip
  let bs ← readi ip off n
  iunlock ip
  return bs

/-- The size of a file, as its inode says once it has been locked. -/
def Fs.sizeOf (fs : Fs) (ip : ℕ) : U32 :=
  if (fs.itable ip).valid then (fs.itable ip).size
  else
    let (blk, o) := iblock fs.sb (fs.itable ip).inum
    loadW 32 (fs.log.bread blk.toNat) (o + 8)

/-- The `n` bytes at `off` lie in the file. -/
def InFile (fs : Fs) (ip : ℕ) (off n : U32) : Prop :=
  off ≤ fs.sizeOf ip ∧ off ≤ off + n ∧ off + n ≤ fs.sizeOf ip

theorem ilock_size (ip : ℕ) (fs : Fs) :
    wp (ilock ip) (fun _ => True) (fun _ fs' => (fs'.itable ip).size = fs.sizeOf ip) fs := by
  unfold ilock acquireInode getInode setInode bread Fs.sizeOf
  simp only [wp_bind, wp_get, wp_pure, wp_panicIf, wp_ite, wp_throw, wp_modify]
  cases hv : (fs.itable ip).valid <;> simp

theorem readiFrom_length (ip : ℕ) {fuel n : ℕ} (off : ℕ) (h : n ≤ fuel) (fs : Fs) :
    wp (readiFrom ip fuel off n) (fun _ => True) (fun bs _ => bs.length = n) fs := by
  induction fuel generalizing off n fs with
  | zero => exact (Nat.le_zero.1 h).symm
  | succ fuel ih =>
    unfold readiFrom
    by_cases hn : n = 0
    · rw [if_pos hn]
      exact hn.symm
    rw [if_neg hn, wp_bind]
    refine (wp_true _ _).mono fun b fs₁ _ => ?_
    rw [wp_bind]
    refine (wp_true _ _).mono fun bp fs₂ _ => ?_
    have hm : 0 < min n (BSIZE - off % BSIZE) := by
      have : off % BSIZE < BSIZE := Nat.mod_lt _ (by decide)
      omega
    rw [wp_bind]
    refine (ih _ (by omega) fs₂).mono fun rest fs₃ hrest => ?_
    rw [wp_pure, List.length_append, List.length_map, List.length_range, hrest]
    omega

/-- How much `readi` returns. -/
theorem fileRead_length (ip : ℕ) (off n : U32) (hn : n ≠ 0) (fs : Fs) :
    wp (fileRead ip off n) (fun _ => True)
      (fun bs _ => bs.length ≤ n.toNat ∧ (bs.length = n.toNat ↔ InFile fs ip off n)) fs := by
  have hpos : 0 < n.toNat := Nat.pos_of_ne_zero fun h0 => hn (BitVec.eq_of_toNat_eq h0)
  unfold fileRead readi getInode
  rw [wp_bind]
  refine (ilock_size ip fs).mono fun _ fs₁ hsize => ?_
  simp only [wp_bind, wp_get, wp_pure, wp_ite, hsize]
  have hend : ∀ (bs : List Byte) (fs₂ : Fs),
      (bs.length ≤ n.toNat ∧ (bs.length = n.toNat ↔ InFile fs ip off n)) →
      wp (iunlock ip) (fun _ => True)
        (fun _ _ => bs.length ≤ n.toNat ∧ (bs.length = n.toNat ↔ InFile fs ip off n)) fs₂ :=
    fun bs fs₂ h => (wp_true _ _).mono fun _ _ _ => h
  split_ifs with hout hclip
  · refine hend [] fs₁ ⟨by simp, fun h => ?_, fun h => ?_⟩
    · simp only [List.length_nil] at h
      omega
    · rcases hout with hout | hout
      · exact absurd hout (BitVec.not_lt.2 h.1)
      · exact absurd hout (BitVec.not_lt.2 h.2.1)
  all_goals
    rw [not_or, BitVec.not_lt, BitVec.not_lt] at hout
    refine (readiFrom_length ip _ le_rfl fs₁).mono fun bs fs₂ hbs => hend bs fs₂ ?_
    rw [hbs]
  · -- the end is cut off
    have hsub : (fs.sizeOf ip - off).toNat < n.toNat := by
      obtain ⟨h1, h2⟩ := hout
      rw [BitVec.le_def] at h1 h2
      rw [BitVec.lt_def] at hclip
      rw [BitVec.toNat_add] at h2 hclip
      rw [BitVec.toNat_sub]
      omega
    exact ⟨hsub.le, fun h => absurd h hsub.ne, fun h => absurd h.2.2 (BitVec.not_le.2 hclip)⟩
  · exact ⟨le_rfl, fun _ => ⟨hout.1, hout.2, BitVec.not_lt.1 hclip⟩, fun _ => rfl⟩

theorem fsOnly_fileRead (ip : ℕ) (off n : U32) : FsOnly (fileRead ip off n) :=
  .bind (fsOnly_ilock ip) fun _ => .bind (fsOnly_readi ip off n) fun _ =>
    .bind (fsOnly_iunlock ip) fun _ => .pure _

section

variable {va : U64} {ip : ℕ} {vma : Vma} (hip : vma.inode = some ip)
  (heof : va < vma.start + vma.filesz.setWidth 64)

include hip heof

theorem readPage_eq : readPage vma va =
    (fileRead ip (vma.fileOff va) ((vma.fileLen va).setWidth 32) >>= fun bs => do
      panicIf (BitVec.ofNat 64 bs.length ≠ vma.fileLen va) "uvm_completemap: readi"
      return bs) := by
  unfold readPage fileRead
  rw [hip]
  dsimp only
  rw [if_neg (BitVec.not_le.2 heof)]
  simp only [bind_assoc, pure_bind]
  rfl

omit hip in
theorem fileLen_bounds : 0 < (vma.fileLen va).toNat ∧ (vma.fileLen va).toNat ≤ 4096 := by
  have hpg : PGSIZE.toNat = 4096 := by decide
  have hpos : 0 < (vma.start + vma.filesz.setWidth 64 - va).toNat := by
    rw [BitVec.lt_def] at heof
    rw [BitVec.toNat_sub]
    omega
  unfold Vma.fileLen umin
  split_ifs with h
  · omega
  · rw [BitVec.not_lt, BitVec.le_def] at h
    omega

/-- A page is not read if and only if its part of the file is not all there. -/
theorem readPage_panics_iff (fs : Fs) :
    readPage vma va fs = .error (.panic "uvm_completemap: readi") ↔
      (∃ bs fs', fileRead ip (vma.fileOff va) ((vma.fileLen va).setWidth 32) fs = .ok (bs, fs')) ∧
        ¬ InFile fs ip (vma.fileOff va) ((vma.fileLen va).setWidth 32) := by
  obtain ⟨hpos, hle⟩ := fileLen_bounds heof
  have hwidth : ((vma.fileLen va).setWidth 32).toNat = (vma.fileLen va).toNat := by
    rw [BitVec.toNat_setWidth]
    omega
  have hne : (vma.fileLen va).setWidth 32 ≠ (0 : U32) := by
    intro h0
    rw [h0] at hwidth
    exact hpos.ne hwidth
  rw [readPage_eq hip heof]
  cases hrun : fileRead ip (vma.fileOff va) ((vma.fileLen va).setWidth 32) fs with
  | error e =>
    rw [bind_of_error hrun]
    have hstop := ((fsOnly_fileRead ip _ _).start fs).error hrun
    constructor
    · intro h
      rw [Except.error.inj h] at hstop
      simp [FsStop, fsPanics] at hstop
    · rintro ⟨⟨bs, fs', h⟩, -⟩
      cases h
  | ok x =>
    obtain ⟨bs, fs'⟩ := x
    obtain ⟨hlen, hiff⟩ := (fileRead_length ip _ _ hne fs).ok hrun
    rw [hwidth] at hlen hiff
    have heq : BitVec.ofNat 64 bs.length = vma.fileLen va ↔ bs.length = (vma.fileLen va).toNat := by
      rw [← BitVec.toNat_inj, BitVec.toNat_ofNat, Nat.mod_eq_of_lt (by omega)]
    rw [bind_of_ok hrun, ← hiff, ← heq]
    by_cases hc : BitVec.ofNat 64 bs.length = vma.fileLen va
    · simp only [hc, ne_eq, not_true_eq_false, and_false, iff_false, panicIf, if_false]
      rintro ⟨⟩
    · simp only [hc, ne_eq, not_false_eq_true, and_true]
      refine ⟨fun _ => ⟨bs, fs', rfl⟩, fun _ => ?_⟩
      rw [panicIf, if_pos hc]
      rfl

end

/-- Copying the file part in stops only like memory code. -/
theorem fillRest_stop (pa : U64) (bs : List Byte) (s : Kernel) :
    wp (do
      writeBytes pa bs
      return pa : K U64) PhysStop (fun _ t => t.fs = s.fs) s := by
  rw [wp_bind, wp_liftP]
  exact ((physOnly_writeBytes pa bs).start s.phys).mono fun _ _ _ => rfl

section

variable [Layout]

end

attribute [local instance] imageLayout

end Xv6
