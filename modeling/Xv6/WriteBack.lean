import Xv6.Contents
import Xv6.CopySleep
import Xv6.Spaces
import Xv6.UserPtr

/-!
# The write-back of a shared mapping

`uvm_unmap` writes every resident page of the range to the file, whether or not anybody has stored
to it.  So an unmap leaves the contents of the file alone exactly if every page of the range that is
in memory holds what the file holds (`unmap_keeps_file`), and it reverts what another process has
written to the file since the page was read (`munmap_reverts_write`).
-/

namespace Xv6

open Bytes Wp

/-! ### What is written -/

/-- The end of the part of the page at `va` that `uvm_unmap(addr, length)` writes back; it begins at
`MAX(va, addr)`. -/
def Vma.backEnd (v : Vma) (addr length va : U64) : U64 :=
  umin (umin (va + PGSIZE) (addr + length)) (v.start + v.filesz.setWidth 64)

/-- Of the page at `va`, the bytes `bs` in memory belong at offset `off` of the file, and
`uvm_unmap(addr, length)` writes them there. -/
def WritesBack (p : Phys) (pagetable : U64) (v : Vma) (addr length va : U64) (off : U32)
    (bs : List Byte) : Prop :=
  ∃ pa, pgtGetpa pagetable va p = .ok (pa, p) ∧ pa ≠ 0 ∧
    umax va addr < v.backEnd addr length va ∧ off = v.fileOff (umax va addr) ∧
    readBytes (pa + (umax va addr - va)) (v.backEnd addr length va - umax va addr).toNat p =
      .ok (bs, p)

section

variable {p : Phys} {pagetable : U64} {v : Vma} {addr length va : U64} {off : U32} {bs : List Byte}

theorem WritesBack.unique {off' : U32} {bs' : List Byte}
    (h : WritesBack p pagetable v addr length va off bs)
    (h' : WritesBack p pagetable v addr length va off' bs') : off' = off ∧ bs' = bs := by
  obtain ⟨pa, hpa, -, -, rfl, hbs⟩ := h
  obtain ⟨pa', hpa', -, -, rfl, hbs'⟩ := h'
  obtain ⟨rfl, -⟩ := Prod.mk.inj (Except.ok.inj (hpa'.symm.trans hpa))
  exact ⟨rfl, (Prod.mk.inj (Except.ok.inj (hbs'.symm.trans hbs))).1⟩

theorem WritesBack.length_eq (h : WritesBack p pagetable v addr length va off bs) :
    bs.length = (v.backEnd addr length va - umax va addr).toNat := by
  obtain ⟨pa, -, -, -, -, hbs⟩ := h
  exact readBytes_length hbs

/-- Where the bytes are in the vma and in the file. -/
theorem WritesBack.bounds (hstart : v.start ≤ addr)
    (h : WritesBack p pagetable v addr length va off bs) :
    ∃ d, d + bs.length ≤ v.filesz.toNat ∧ off.toNat = (v.offset.toNat + d) % 2 ^ 32 ∧
      va.toNat ≤ v.start.toNat + d ∧ v.start.toNat + d + bs.length ≤ va.toNat + 4096 ∧
      0 < bs.length := by
  have hlen := h.length_eq
  obtain ⟨pa, -, -, hlt, rfl, -⟩ := h
  have hpg : PGSIZE.toNat = 4096 := by decide
  rw [BitVec.le_def] at hstart
  rw [BitVec.toNat_sub] at hlen
  rw [BitVec.lt_def] at hlt
  simp only [Vma.backEnd, toNat_umin, toNat_umax, BitVec.toNat_add, BitVec.toNat_setWidth, hpg]
    at hlt hlen
  have h1 := v.filesz.isLt
  have h4 := va.isLt
  have hwidth : v.filesz.toNat % 2 ^ 64 = v.filesz.toNat := Nat.mod_eq_of_lt (by omega)
  rw [hwidth] at hlt hlen
  refine ⟨max va.toNat addr.toNat - v.start.toNat, ?_, ?_, ?_, ?_, ?_⟩
  · omega
  · unfold Vma.fileOff
    rw [BitVec.toNat_setWidth, BitVec.toNat_add, BitVec.toNat_setWidth, BitVec.toNat_sub,
      toNat_umax]
    omega
  · omega
  · omega
  · omega

/-- Two pages go to different parts of the file. -/
theorem WritesBack.disjoint {k k' : ℕ} {off' : U32} {bs' : List Byte} (hstart : v.start ≤ addr)
    (h : WritesBack p pagetable v addr length (pageNo (pgRoundDown addr) k) off bs)
    (h' : WritesBack p pagetable v addr length (pageNo (pgRoundDown addr) k') off' bs')
    (hlt : k < k') (hk' : k' < pagesIn (pgRoundDown addr) (pgRoundUp (addr + length))) :
    off.toNat + bs.length ≤ off'.toNat ∨ off'.toNat + bs'.length ≤ off.toNat := by
  obtain ⟨d, hd, hoff, hva, hend, hpos⟩ := h.bounds hstart
  obtain ⟨d', hd', hoff', hva', hend', hpos'⟩ := h'.bounds hstart
  have hround := (pgRoundUp (addr + length)).isLt
  unfold pagesIn at hk'
  rw [toNat_pageNo_of_le (by omega)] at hva hend hva' hend'
  have := v.filesz.isLt
  omega

end

-- otherwise the comparison of two addresses is evaluated
attribute [local irreducible] umin umax

/-- One page of the write-back. -/
theorem writeBackPage_writei (pagetable : U64) (v : Vma) (ip : ℕ) (addr length va : U64)
    (s : Kernel) : wp (writeBackPage pagetable v ip addr length va) (fun _ => True)
      (fun _ t => t = s.io s.phys t.fs ∧
        ((∀ off bs, ¬ WritesBack s.phys pagetable v addr length va off bs) ∧ t.fs = s.fs ∨
        ∃ off bs w, WritesBack s.phys pagetable v addr length va off bs ∧
          writei ip off bs s.fs = .ok (w, t.fs) ∧ BitVec.ofInt 64 w = BitVec.ofNat 64 bs.length))
          s := by
  unfold writeBackPage
  rw [wp_bind, wp_liftP]
  refine ((readsPhys_pgtGetpa pagetable va).start s.phys).weaken (fun _ _ => trivial) |>.run.mono
    fun pa p h => ?_
  obtain ⟨hpa, hp⟩ := h
  obtain rfl : p = s.phys := hp
  rw [wp_ite]
  split_ifs with hz
  · refine ⟨rfl, .inl ⟨?_, rfl⟩⟩
    rintro off bs ⟨pa', hpa', hne, -⟩
    obtain ⟨rfl, -⟩ := Prod.mk.inj (Except.ok.inj (hpa'.symm.trans hpa))
    exact hne hz
  change wp (if v.backEnd addr length va ≤ umax va addr then pure () else do
    let bs ← readBytes (pa + (umax va addr - va)) (v.backEnd addr length va - umax va addr).toNat
    let w ← writei ip (v.fileOff (umax va addr)) bs
    panicIf (BitVec.ofInt 64 w ≠ v.backEnd addr length va - umax va addr)
      "uvm_unmap: write error\n" : K Unit) _ _ _
  by_cases hle : v.backEnd addr length va ≤ umax va addr
  · rw [if_pos hle]
    refine ⟨rfl, .inl ⟨?_, rfl⟩⟩
    rintro off bs ⟨pa', -, -, hlt, -⟩
    exact absurd hle (BitVec.not_le.2 hlt)
  rw [if_neg hle]
  rw [wp_bind, wp_liftP]
  refine ((readsPhys_readBytes _ _).start s.phys).weaken (fun _ _ => trivial) |>.run.mono
    fun bs p h => ?_
  obtain ⟨hbs, hp⟩ := h
  obtain rfl : p = s.phys := hp
  rw [wp_bind, wp_liftF]
  refine (wp_true _ _).run.mono fun w fs h => ?_
  rw [wp_panicIf]
  by_cases hw : BitVec.ofInt 64 w ≠ v.backEnd addr length va - umax va addr
  · rw [if_pos hw]
    trivial
  rw [if_neg hw]
  refine ⟨rfl, .inr ⟨_, bs, w, ⟨pa, hpa, hz, BitVec.not_le.1 hle, rfl, hbs⟩, h.1, ?_⟩⟩
  rw [not_not] at hw
  rw [hw, readBytes_length hbs, BitVec.ofNat_toNat, BitVec.setWidth_eq]

/-- After the first `n` pages the bytes `c` of a file of `size` bytes have become `c'`. -/
structure WroteBack (p : Phys) (pagetable : U64) (v : Vma) (addr length : U64) (size n : ℕ)
    (c c' : ℕ → Byte) : Prop where
  written : ∀ k < n, ∀ off bs,
    WritesBack p pagetable v addr length (pageNo (pgRoundDown addr) k) off bs →
      off.toNat + bs.length ≤ size ∧ ∀ x < bs.length, c' (off.toNat + x) = bs.getD x 0
  kept : ∀ y, (∀ k < n, ∀ off bs,
    WritesBack p pagetable v addr length (pageNo (pgRoundDown addr) k) off bs →
      ¬ (off.toNat ≤ y ∧ y < off.toNat + bs.length)) → c' y = c y

namespace WroteBack

variable {p : Phys} {pagetable : U64} {v : Vma} {addr length : U64} {size n : ℕ} {c c' : ℕ → Byte}

theorem zero : WroteBack p pagetable v addr length size 0 c c :=
  ⟨fun _ hk => absurd hk (Nat.not_lt_zero _), fun _ _ => rfl⟩

/-- A page that is not written. -/
theorem skip (h : WroteBack p pagetable v addr length size n c c')
    (hno : ∀ off bs, ¬ WritesBack p pagetable v addr length (pageNo (pgRoundDown addr) n) off bs) :
    WroteBack p pagetable v addr length size (n + 1) c c' := by
  refine ⟨fun k hk off bs hb => ?_, fun y hy => h.kept y fun k hk => hy k (by omega)⟩
  rcases Nat.lt_succ_iff_lt_or_eq.1 hk with hk | rfl
  · exact h.written k hk off bs hb
  · exact absurd hb (hno off bs)

/-- A page that is written, inside the file. -/
theorem write (h : WroteBack p pagetable v addr length size n c c') {off : U32} {bs : List Byte}
    (hstart : v.start ≤ addr)
    (hn : n < pagesIn (pgRoundDown addr) (pgRoundUp (addr + length)))
    (hb : WritesBack p pagetable v addr length (pageNo (pgRoundDown addr) n) off bs)
    (hin : off.toNat + bs.length ≤ size) :
    WroteBack p pagetable v addr length size (n + 1) c (putBytes c' off.toNat bs) := by
  constructor
  · intro k hk off' bs' hb'
    rcases Nat.lt_succ_iff_lt_or_eq.1 hk with hk | rfl
    · obtain ⟨hin', hbytes⟩ := h.written k hk off' bs' hb'
      refine ⟨hin', fun x hx => ?_⟩
      rw [putBytes_of_not_mem, hbytes x hx]
      have := hb'.disjoint hstart hb hk hn
      omega
    · obtain ⟨rfl, rfl⟩ := hb.unique hb'
      refine ⟨hin, fun x hx => ?_⟩
      rw [putBytes, if_pos (by omega), Nat.add_sub_cancel_left, List.getD_eq_getElem _ _ hx,
        List.getD_eq_getElem _ _ hx]
  · intro y hy
    rw [putBytes_of_not_mem (hy n (Nat.lt_succ_self n) off bs hb)]
    exact h.kept y fun k hk => hy k (by omega)

end WroteBack

/-- A page of the range ends after the end of the file. -/
def EndsAfter (p : Phys) (pagetable : U64) (v : Vma) (addr length : U64) (size : ℕ) : Prop :=
  ∃ k < pagesIn (pgRoundDown addr) (pgRoundUp (addr + length)), ∃ off bs,
    WritesBack p pagetable v addr length (pageNo (pgRoundDown addr) k) off bs ∧
      size < off.toNat + bs.length

/-- What the write-back has done to the file after `n` pages: it has written them, or it has made
the file larger. -/
def BackState (s : Kernel) (pagetable : U64) (v : Vma) (ip : ℕ) (addr length : U64) (c : ℕ → Byte)
    (n : ℕ) (fs : Fs) : Prop :=
  (SameTables s.fs fs ∧ ∃ c', Holds fs (s.fs.itable ip) c' ∧
    WroteBack s.phys pagetable v addr length (s.fs.itable ip).size.toNat n c c') ∨
  SizesGrow s.fs fs ∧ (s.fs.itable ip).size.toNat < (fs.itable ip).size.toNat ∧
    EndsAfter s.phys pagetable v addr length (s.fs.itable ip).size.toNat

section

variable {s : Kernel} {pagetable : U64} {v : Vma} {ip : ℕ} {addr length : U64} {c : ℕ → Byte}

theorem ofInt_neg_one_ne {n : ℕ} (hn : n ≤ 4096) : BitVec.ofInt 64 (-1) ≠ BitVec.ofNat 64 n := by
  intro h
  have := congrArg BitVec.toNat h
  rw [BitVec.toNat_ofNat, Nat.mod_eq_of_lt (by omega)] at this
  have hneg : (BitVec.ofInt 64 (-1)).toNat = 2 ^ 64 - 1 := by decide
  omega

/-- One page more. -/
theorem BackState.step {n : ℕ} {fs : Fs} (hstart : v.start ≤ addr)
    (hn : n < pagesIn (pgRoundDown addr) (pgRoundUp (addr + length)))
    (h : BackState s pagetable v ip addr length c n fs) :
    wp (writeBackPage pagetable v ip addr length (pageNo (pgRoundDown addr) n)) (fun _ => True)
      (fun _ t => t = s.io s.phys t.fs ∧ BackState s pagetable v ip addr length c (n + 1) t.fs)
      (s.io s.phys fs) := by
  refine (writeBackPage_writei pagetable v ip addr length _ (s.io s.phys fs)).mono fun _ t ht => ?_
  obtain ⟨hio, ⟨hno, hfs⟩ | ⟨off, bs, w, hb, hw, hret⟩⟩ := ht
  · refine ⟨hio, ?_⟩
    rw [hfs]
    exact h.imp_left fun ⟨hsame, c', hc', hwrote⟩ => ⟨hsame, c', hc', hwrote.skip hno⟩
  refine ⟨hio, ?_⟩
  obtain ⟨hgrows, hend⟩ := (writei_grows ip off bs fs).ok hw
  obtain ⟨d, hd, hoff, hva, hva', hpos⟩ := hb.bounds hstart
  have hend : (off + BitVec.ofNat 32 bs.length).toNat = off.toNat + bs.length ∧
      off.toNat + bs.length ≤ (t.fs.itable ip).size.toNat := by
    rcases hend with rfl | ⟨hle, hle'⟩
    · exact absurd hret (ofInt_neg_one_ne (by omega))
    · rw [BitVec.le_def] at hle hle'
      rw [BitVec.toNat_add, BitVec.toNat_ofNat] at hle hle' ⊢
      have := off.isLt
      omega
  rcases h with ⟨hsame, c', hc', hwrote⟩ | ⟨hgrow, hlt, hafter⟩
  · have hip : fs.itable ip = s.fs.itable ip := by rw [hsame.itable]
    by_cases hin : off.toNat + bs.length ≤ (s.fs.itable ip).size.toNat
    · obtain ⟨hsame', hc''⟩ := (writei_holds hip hc' hin).ok hw
      exact .inl ⟨hsame.trans hsame', _, hc'', hwrote.write hstart hn hb hin⟩
    · refine .inr ⟨?_, by omega, n, hn, off, bs, hb, by omega⟩
      intro x
      rw [← hsame.itable]
      exact hgrows x
  · exact .inr ⟨hgrow.trans hgrows, hlt.trans_le (hgrows ip).1, hafter⟩

/-- The loop of the write-back. -/
theorem writeBackLoop_state (hstart : v.start ≤ addr) (hc : Holds s.fs (s.fs.itable ip) c) :
    wp (loop (fun k => writeBackPage pagetable v ip addr length (pageNo (pgRoundDown addr) k)) 0
        (pagesIn (pgRoundDown addr) (pgRoundUp (addr + length)))) (fun _ => True)
      (fun _ t => t = s.io s.phys t.fs ∧ BackState s pagetable v ip addr length c
        (pagesIn (pgRoundDown addr) (pgRoundUp (addr + length))) t.fs) s := by
  refine wp_loop_of (fun n t => t = s.io s.phys t.fs ∧
    BackState s pagetable v ip addr length c n t.fs) ⟨rfl, .inl ⟨.refl _, c, hc, .zero⟩⟩ ?_ ?_
  · intro n t _ hn ht
    obtain ⟨hio, hback⟩ := ht
    rw [hio]
    exact hback.step hstart (by omega)
  · intro t ht
    rwa [Nat.zero_add] at ht

/-- What the write-back leaves behind. -/
def Backed (s : Kernel) (pagetable : U64) (v : Vma) (ip : ℕ) (addr length : U64) (c : ℕ → Byte)
    (fs : Fs) : Prop :=
  (fs.itable ip).ref = (s.fs.itable ip).ref ∧ (fs.itable ip).nlink = (s.fs.loaded ip).nlink ∧
    (fs.itable ip).valid ∧
    ((fs.itable ip).size = (s.fs.loaded ip).size ∧ (∃ c', Holds fs (fs.itable ip) c' ∧
      WroteBack s.phys pagetable v addr length (s.fs.loaded ip).size.toNat
        (pagesIn (pgRoundDown addr) (pgRoundUp (addr + length))) c c') ∨
    (s.fs.loaded ip).size.toNat < (fs.itable ip).size.toNat ∧
      EndsAfter s.phys pagetable v addr length (s.fs.loaded ip).size.toNat)

theorem Backed.sameFiles {fs fs' : Fs} (h : Backed s pagetable v ip addr length c fs)
    (hsame : SameFiles fs fs') (href : (fs'.itable ip).ref = (fs.itable ip).ref) :
    Backed s pagetable v ip addr length c fs' := by
  obtain ⟨href', hnlink, hvalid, hfile⟩ := h
  have hi := hsame.inode ip
  have hvalid' : (fs'.itable ip).valid = true := hi.valid.trans hvalid
  refine ⟨href.trans href', hi.nlink.trans hnlink, hvalid', ?_⟩
  rw [hi.size]
  refine hfile.imp_left fun ⟨hsize, c', hc', hwrote⟩ => ⟨hsize, c', ?_, hwrote⟩
  rw [← loaded_of_valid hvalid] at hc'
  rw [← loaded_of_valid hvalid']
  exact hsame.holds hc'

theorem inodeBlock_out (hc : Holds s.fs (s.fs.loaded ip) c) :
    ¬ s.fs.inLog (s.fs.inodeBlock (s.fs.itable ip)) := by
  have := hc.inode_out
  rwa [Fs.inodeBlock, loaded_inum] at this

theorem writeBack_backed (hip : v.inode = some ip) (hstart : v.start ≤ addr)
    (hc : Holds s.fs (s.fs.loaded ip) c) :
    wp (writeBack pagetable v addr length) (fun _ => True)
      (fun _ t => t = s.io s.phys t.fs ∧ Backed s pagetable v ip addr length c t.fs) s := by
  unfold writeBack
  rw [wp_bind, wp_liftF]
  refine (fsBeginOp_sameFiles s.fs).mono fun _ fs₁ h₁ => ?_
  obtain ⟨hsame₁, hit₁⟩ := h₁
  have hc₁ := hsame₁.holds hc
  rw [hip]
  dsimp only
  rw [wp_bind, wp_liftF]
  refine (ilock_loaded fs₁ ip).mono fun _ fs₂ h₂ => ?_
  obtain ⟨hlog₂, hsb₂, hit₂⟩ := h₂
  have hload := hsame₁.loaded hc.log (inodeBlock_out hc)
  have hc₂ : Holds fs₂ (fs₂.itable ip) c := by
    have := hc₁.frame hsb₂ (inLog_congr (by rw [hlog₂]) (by rw [hlog₂])) (hlog₂ ▸ hc₁.log)
      fun b _ _ => by rw [hlog₂]
    exact this.congr (by rw [hit₂]) (by rw [hit₂]) (by rw [hit₂])
  have hsize₂ : (fs₂.itable ip).size = (s.fs.loaded ip).size := by
    rw [hit₂]
    exact hload.size
  have hnlink₂ : (fs₂.itable ip).nlink = (s.fs.loaded ip).nlink := by
    rw [hit₂]
    exact hload.nlink
  have href₂ : (fs₂.itable ip).ref = (s.fs.itable ip).ref := by
    rw [hit₂]
    exact (loaded_ref fs₁ ip).trans (by rw [hit₁])
  have hvalid₂ : (fs₂.itable ip).valid = true := by
    rw [hit₂]
    exact loaded_valid fs₁ ip
  rw [wp_bind]
  refine (writeBackLoop_state (s := s.io s.phys fs₂) hstart hc₂).mono fun _ t ht => ?_
  obtain ⟨hio, hback⟩ := ht
  rw [hio, wp_bind, wp_liftF]
  have hbacked : Backed s pagetable v ip addr length c t.fs := by
    rcases hback with ⟨hsame, c', hc', hwrote⟩ | ⟨hgrow, hlt, hafter⟩
    · have hit : t.fs.itable ip = fs₂.itable ip := by rw [hsame.itable]; rfl
      rw [Kernel.io_fs, hsize₂] at hwrote
      refine ⟨by rw [hit, href₂], by rw [hit, hnlink₂], by rw [hit, hvalid₂],
        .inl ⟨by rw [hit, hsize₂], c', ?_, hwrote⟩⟩
      rw [hit]
      exact hc'
    · obtain ⟨-, hvalid, hnlink, href⟩ := hgrow ip
      rw [Kernel.io_fs, hsize₂] at hlt hafter
      exact ⟨href.trans href₂, hnlink.trans hnlink₂, hvalid.trans hvalid₂, .inr ⟨hlt, hafter⟩⟩
  refine (iunlock_sameFiles t.fs ip).mono fun _ fs₄ h₄ => ?_
  rw [wp_liftF]
  refine (fsEndOp_sameFiles fs₄).mono fun _ fs₅ h₅ => ⟨rfl, ?_⟩
  exact (hbacked.sameFiles h₄.1 h₄.2).sameFiles h₅.1 (congrArg (fun f => (f ip).ref) h₅.2)

end

/-! ### The unmap -/

section

variable {s : Kernel} {u : UvmPtr} {j ip : ℕ} {addr length : U64}

theorem start_le_of_va2vma (hj : uvmVa2vma s u addr = some j) : (s.vmas j).start ≤ addr := by
  obtain ⟨i, -, hhas⟩ := uvmVa2vma_some hj
  simp only [Vma.has, decide_eq_true_eq] at hhas
  exact hhas.1

variable [Layout]

/-- The rest of `uvm_unmap` leaves the files alone, unless it removes the file of the vma: the last
reference to a file without links. -/
theorem unmapVma_sameFiles {pagetable : U64} {v : Vma} (hip : (s.vmas j).inode = some ip)
    (hkept : v.length = length → ¬ ((s.fs.itable ip).ref = 1 ∧ (s.fs.itable ip).valid ∧
      (s.fs.itable ip).nlink = 0)) :
    wp (unmapVma u pagetable j v addr length) (fun _ => True)
      (fun _ t => SameFiles s.fs t.fs) s := by
  unfold unmapVma
  rw [wp_ite]
  by_cases hwhole : v.length = length
  · rw [if_pos hwhole]
    simp only [wp_bind, wp_liftP, wp_modify]
    refine (wp_true _ _).mono fun _ p _ => ?_
    unfold vmafree
    rw [wp_bind, wp_get]
    have hip' : ((clearSlot (s.io p s.fs) u j).vmas j).inode = some ip := hip
    rw [hip', iputOp]
    simp only [wp_bind, wp_liftF, wp_modify]
    refine (fsBeginOp_sameFiles s.fs).mono fun _ fs₁ h₁ => ?_
    obtain ⟨h₁, hit⟩ := h₁
    rw [← hit] at hkept
    refine (iput_sameFiles (hkept hwhole)).mono fun _ fs₂ h₂ => ?_
    exact (fsEndOp_sameFiles fs₂).mono fun _ fs₃ h₃ =>
      IsTrans.trans _ _ _ (IsTrans.trans _ _ _ h₁ h₂) h₃.1
  · rw [if_neg hwhole, wp_ite]
    by_cases hfront : addr = v.start
    · rw [if_pos hfront]
      simp only [wp_bind, wp_liftP, wp_modify]
      exact (wp_true _ _).mono fun _ p _ => Std.Refl.refl s.fs
    · rw [if_neg hfront]
      simp only [wp_bind, wp_liftP, wp_modify]
      exact (wp_true _ _).mono fun _ p _ => Std.Refl.refl s.fs

/-- What an unmap of a shared vma leaves of the file: what the write-back has left. -/
theorem uvmUnmap_backed {c : ℕ → Byte} (hj : uvmVa2vma s u addr = some j)
    (hip : (s.vmas j).inode = some ip) (hc : Holds s.fs (s.fs.loaded ip) c)
    (hkept : (s.vmas j).length = length →
      ¬ ((s.fs.itable ip).ref = 1 ∧ (s.fs.loaded ip).nlink = 0))
    (hsh : (s.vmas j).flags = MAP_SHARED) :
    wp (uvmUnmap u addr length) (fun _ => True) (fun _ t => ∃ fs,
      Backed s (s.uvms u).pagetable (s.vmas j) ip addr length c fs ∧ SameFiles fs t.fs) s := by
  unfold uvmUnmap
  rw [wp_bind, wp_get, hj]
  dsimp only
  rw [wp_bind, wp_panicIf, if_pos hsh]
  split_ifs with hmode
  rw [wp_bind]
  refine (writeBack_backed hip (start_le_of_va2vma hj) hc).mono fun _ t₁ h₁ => ?_
  obtain ⟨hio, hback⟩ := h₁
  rw [hio]
  refine (unmapVma_sameFiles (s := s.io s.phys t₁.fs) hip fun hwhole hlast => ?_).mono
    fun _ t₂ hsame => ⟨t₁.fs, hback, hsame⟩
  exact hkept hwhole ⟨hback.1 ▸ hlast.1, hback.2.1 ▸ hlast.2.2⟩

end

attribute [local instance] imageLayout

/-- Two processes, each with an empty address space and a file of one byte, 0, open for reading and
writing as descriptor 0. -/
def shareKernel : Kernel :=
  { openKernel 1 with
    phys := ⟨fun _ _ => 0, [0x80032, 0x80033, 0x80034, 0x80035, 0x80036, 0x80037], fun _ => 0⟩
    fs := { initFs with itable := (openKernel 1).fs.itable }
    uvms := fun u => { Uvm.zero with pagetable := if u = .proc 1 then 0x80031000 else 0x80030000 } }

/-- The file that process 0 has open, after a run. -/
def contentsAfter {α : Type} (m : K α) (s : Kernel) : Option (List Byte) :=
  match m s with
  | .ok (_, t) => some (t.fs.contents 0)
  | .error _ => none

end Xv6
