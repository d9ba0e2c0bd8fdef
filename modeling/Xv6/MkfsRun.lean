import Xv6.BlockRun
import Xv6.Mount
import Xv6.SharedBack

/-!
# Runs on an image of `mkfs`

What `fsinit` finds on an image of `mkfs` satisfies the invariant of the kernel's file-system code.
-/

namespace Xv6.Mkfs

open Bytes Run Wp

section

variable {files : List HostFile} {N : ℕ → Din} {c : ℕ → List Byte} {s : State} {fs : Fs}

theorem Image.size_le (h : Image files N c s) (hn : files.length ≤ NINODES - 2) {j : ℕ}
    (hj : (N j).type ≠ 0) : (N j).size.toNat ≤ MAXFILE * BSIZE := by
  by_cases h1 : j = 1
  · subst h1
    have hN : NINODES = 200 := rfl
    have hM : MAXFILE = 268 := rfl
    rw [h.size_root, h.root, length_rootBytes, show BSIZE = 1024 from rfl]
    omega
  · rw [h.size_file j h1 hj]
    exact (h.built.fits j).trans (Nat.mul_le_mul_right _ (h.built.blocks j hj))

/-- The invariant holds when the image is mounted. -/
theorem Image.blocksOk (h : Image files N c s) (hm : Mounted s fs)
    (htab : fs.itable = fun _ => noInode) (hn : files.length ≤ NINODES - 2)
    (hmod : (files.length + 2) % 64 ≠ 0) : fs.BlocksOk := by
  have hc := (h.consistent_iff hm htab hn).2 hmod
  have href : ∀ ip, ¬ 0 < (fs.itable ip).ref := by simp [htab, noInode]
  refine ⟨hm.layout, ⟨by constructor <;> rw [hm.log] <;> decide, by simp [hm.log]⟩,
    ⟨h.marks hm, fun b hb => ?_, fun j hj ht => ?_, fun j hj ht bn hbn => ?_⟩, fun _ _ _ => rfl,
    fun ip hip => absurd hip (href ip), fun ip hip => absurd hip (href ip),
    fun ip _ hip => absurd hip (href ip)⟩
  · refine (hc.marks b (hb.trans ?_)).2 (Or.inl hb)
    rw [hm.sb]
    decide
  · have hd := h.dinode_eq hm (j := j) (by rwa [hm.sb] at hj)
    rw [hd] at ht ⊢
    exact h.size_le hn ht
  · obtain ⟨b, hb, -⟩ := hc.mapped j hj ht bn hbn
    rw [hb]
    exact Option.some_ne_none b

variable [Layout]

/-- **The file system is in order, from `mkfs` on.**  If the entries of the files do not fill the
blocks of the root directory, then after any calls on the image the invariant holds, and no call
frees a free block. -/
theorem mkfs_runs_keep_blocks (hn : files.length ≤ NINODES - 2) (hmod : (files.length + 2) % 64 ≠ 0)
    (hok : mkfs files start = .ok ((), s)) :
    ∃ fs, fsinit s.sect = .ok fs ∧ ∀ k₀ k : Kernel, k₀.fs = fs →
      Reach blockStep BlockEvent.Ok k₀ k → k.fs.BlocksOk ∧
      ∀ call : BlockCall, call.Ok k.fs → call.run k ≠ .error (.panic "freeing free block") := by
  obtain ⟨N, c, h⟩ := image_of_ok hn hok
  obtain ⟨fs, hfs, hm, htab⟩ := h.mount
  refine ⟨fs, hfs, fun k₀ k hk hr => ?_⟩
  have hI : k.fs.BlocksOk :=
    hr.invariant (hk ▸ h.blocksOk hm htab hn hmod) fun _ _ _ => blocksOk_step
  exact ⟨hI, fun call hcall he => (call.run_ok hI hcall).error he rfl⟩

end

/-! ### A write on an image -/

section

variable [Layout] {files : List HostFile} {N : ℕ → Din} {c : ℕ → List Byte} {s : State}
  {k t : Kernel}

theorem blockStep_of_ok {call : BlockCall} (h : call.run k = .ok ((), t)) :
    blockStep (.call call) k = some t := by
  simp only [blockStep, h]

/-- An inode is looked up by its number, locked, and a transaction begins. -/
def openRun (inum : U32) : List BlockEvent :=
  [.call (.iget inum), .call (.ilock 0), .call .beginOp]

theorem Image.openRun (h : Image files N c s) (hm : Mounted s k.fs)
    (htab : k.fs.itable = fun _ => noInode) {inum : U32} (ht : (N inum.toNat).type ≠ 0) :
    ∃ t, runs blockStep (openRun inum) k = some t ∧ Reach blockStep BlockEvent.Ok k t ∧
      Locked (N inum.toNat) ROOTDEV inum (t.fs.itable 0) ∧
      t.fs.log.log = { k.fs.log.log with outstanding := 1 } := by
  have h0 (ip : ℕ) : k.fs.itable ip = noInode := by rw [htab]
  have hget : wp (iget ROOTDEV inum) (fun _ => False) (fun r fs => r = 0 ∧ fs = k.fs.withInode 0
      { k.fs.itable 0 with dev := ROOTDEV, inum := inum, ref := 1, valid := false }) k.fs :=
    iget_new 0 (by decide) (by rw [h0]; rfl) (fun _ hk => absurd hk (Nat.not_lt_zero _))
      fun kp hk => absurd hk (by rw [h0]; exact lt_irrefl _)
  obtain ⟨_, fs₁, hrun₁, rfl, hfs₁⟩ := hget.exists_ok
  have hlock : wp (ilock 0) (fun _ => False) (fun _ fs => ∃ i, fs = fs₁.withInode 0 i ∧
      Locked (N inum.toNat) ROOTDEV inum i) fs₁ := by
    have hself : fs₁.itable 0 =
        { k.fs.itable 0 with dev := ROOTDEV, inum := inum, ref := 1, valid := false } := by
      rw [hfs₁, withInode_self]
    have hnew := h.ilock_new (E := fun _ => False) (hfs₁ ▸ hm.withInode _ _ : Mounted s fs₁) ht
      (by rw [hself]) (by rw [hself]) (by rw [hself, h0]; rfl) (by rw [hself])
    rwa [hself] at hnew
  obtain ⟨_, fs₂, hrun₂, i, hfs₂, hi⟩ := hlock.exists_ok
  have hlog₂ : fs₂.log.log = k.fs.log.log := by
    rw [hfs₂, hfs₁]
    rfl
  have hidle : fs₂.LogIdle := by
    rw [hm.log] at hlog₂
    constructor <;> rw [hlog₂]
  obtain ⟨_, fs₃, hrun₃, -, hfs₃, hlog₃, -⟩ :=
    (fsBeginOp_idle (E := fun _ => False) hidle).exists_ok
  have hs₁ : blockStep (.call (.iget inum)) k = some (k.io k.phys fs₁) :=
    blockStep_of_ok (bind_of_ok (liftF_of_ok hrun₁))
  have hs₂ : blockStep (.call (.ilock 0)) (k.io k.phys fs₁) = some (k.io k.phys fs₂) :=
    blockStep_of_ok (liftF_of_ok hrun₂)
  have hs₃ : blockStep (.call .beginOp) (k.io k.phys fs₂) = some (k.io k.phys fs₃) :=
    blockStep_of_ok (liftF_of_ok hrun₃)
  have hnum : BlockEvent.Ok k (.call (.iget inum)) := by
    change inum.toNat < k.fs.sb.ninodes.toNat
    rw [hm.sb, sb_ninodes]
    exact h.lt_ninodes ht
  have hreach : Reach blockStep BlockEvent.Ok k (k.io k.phys fs₃) :=
    ((Reach.refl.tail hnum hs₁).tail
      (show BlockEvent.Ok _ (.call (.ilock 0)) from trivial) hs₂).tail
      (show BlockEvent.Ok _ (.call .beginOp) from trivial) hs₃
  refine ⟨k.io k.phys fs₃, ?_, hreach, ?_, hlog₃.trans (by rw [hlog₂])⟩
  · simp only [Mkfs.openRun, runs, hs₁, hs₂, hs₃, Option.bind_some]
  · have hentry : (k.io k.phys fs₃).fs.itable 0 = i := by
      rw [Kernel.io_fs, hfs₃, hfs₂]
      exact withInode_self fs₁ 0 i
    rwa [hentry]

end

section

variable {fs : Fs} {ip : ℕ}

/-- In a transaction of its own, a write of the first byte of a file that is not empty does not
stop. -/
theorem writei_first (h : fs.BlocksOk) (hip : fs.Mine ip) (hsize : 0 < (fs.itable ip).size.toNat)
    (hlog : fs.log.log.outstanding = 1) (hlh : fs.log.log.lh = []) (hcap : 2 ≤ fs.logCap)
    (x : Byte) : ∃ w fs', writei ip 0 [x] fs = .ok (w, fs') := by
  have hok : FsOk fs.dinode none fs := h
  obtain ⟨hd, ht, hi⟩ := hok.inCore hip.inCore
  have htouched : touched (0 : U32).toNat [x].length = {0} := by
    change touched 0 1 = {0}
    decide +kernel
  have hslot : slotPtr fs fs.dinode ((fs.itable ip).inum.toNat, 0) ≠ none := by
    refine hok.owned.mapped _ hi ht 0 ?_
    rw [← hd, Nat.zero_mul]
    exact hsize
  have hempty : emptySlots {0} (fs.itable ip).inum.toNat fs.dinode fs = ∅ :=
    Finset.filter_eq_empty_iff.2 fun n hn h0 => by
      rw [Finset.mem_singleton] at hn
      exact hslot (hn ▸ h0)
  have hload : logLoad {0} (fs.itable ip).inum.toNat fs.dinode fs [] ≤ 1 := by
    have hnext : nextBlocks fs 0 = ∅ := by simp [nextBlocks]
    refine Budget.load_le_card.trans ?_
    rw [List.length_nil, Nat.zero_add, loggedBlocks, hempty, Finset.card_empty, hnext,
      Finset.image_empty, Finset.union_empty, Finset.union_empty]
    refine (Finset.card_biUnion_le_card_mul _ _ 1 fun n _ => ?_).trans ?_
    · cases slotPtr fs fs.dinode ((fs.itable ip).inum.toNat, n) <;> simp
    · rw [Nat.mul_one]
      exact Finset.card_filter_le _ _
  have hno (e : Stop) (he : ¬ OutOfFile fs ip (0 : U32).toNat [x].length ∧
      Stuck (touched (0 : U32).toNat [x].length) (fs.itable ip).inum.toNat fs.dinode fs e) :
      False := by
    obtain ⟨-, he⟩ := he
    rw [htouched] at he
    unfold Stuck LogStuck at he
    rw [hlh, hempty, hlog, Finset.card_empty] at he
    omega
  obtain ⟨w, fs', hrun, -⟩ := ((writei_total hok hip.inCore 0 (by simp)).weaken hno).exists_ok
  exact ⟨w, fs', hrun⟩

end

attribute [local instance] imageLayout

/-- The first byte of the file is written. -/
theorem mkfs_runs_keep_blocks_catFile : ∃ s fs k t, mkfs [catFile] start = .ok ((), s) ∧
    fsinit s.sect = .ok fs ∧ runs blockStep (openRun 2) { Kernel.zero with fs := fs } = some k ∧
    blockStep (.call (.writei 0 0 [7])) k = some t ∧ t.fs.BlocksOk := by
  obtain ⟨s, N, c, hok, h⟩ := mkfs_ok (by decide) fits_catFile
  obtain ⟨fs, hfs, hm, htab⟩ := h.mount
  obtain ⟨fs', hfs', hruns⟩ := mkfs_runs_keep_blocks (by decide) (by decide) hok
  obtain rfl : fs' = fs := Except.ok.inj (hfs'.symm.trans hfs)
  have ht : (N 2).type ≠ 0 := by
    rw [h.type_file 2 le_rfl (by decide)]
    decide
  obtain ⟨k, hrun, hreach, hi, hlog⟩ :=
    @Image.openRun _ _ N c s { Kernel.zero with fs := fs' } h hm htab 2 ht
  have hmine : k.fs.Mine 0 := ⟨by rw [hi.ref]; exact one_pos, hi.valid, hi.locked⟩
  have hsize : 0 < (k.fs.itable 0).size.toNat := by
    have hd : (k.fs.itable 0).size = (N 2).size := congrArg Dinode.size hi.dinode
    rw [hd, h.size_file 2 (by decide) ht, h.bytes 0 catFile rfl]
    decide
  rw [show ({ Kernel.zero with fs := fs' } : Kernel).fs = fs' from rfl, hm.log] at hlog
  obtain ⟨w, fs₁, hwrite⟩ := writei_first (hruns _ k rfl hreach).1 hmine hsize (by rw [hlog])
    (by rw [hlog]) (by unfold Fs.logCap; rw [hlog]; decide) 7
  have hstep : blockStep (.call (.writei 0 0 [7])) k = some (k.io k.phys fs₁) :=
    blockStep_of_ok (bind_of_ok (liftF_of_ok hwrite))
  exact ⟨s, fs', k, _, hok, hfs, hrun, hstep,
    (hruns _ _ rfl (hreach.tail (e := .call (.writei 0 0 [7])) ⟨hmine, by decide⟩ hstep)).1⟩

end Xv6.Mkfs
