import Xv6.BlockOps
import Xv6.LegalAccess
import Xv6.UvmSpec

/-!
# What a first touch shows

A page fault on a page that is not resident reads the page from the file of the vma and fills the
rest with zeros.  The new entry is made of the address of the page and of the permissions of the
vma, which nobody masks: the page is the one that the entry maps if and only if the permissions do
not reach into the frame number.
-/

namespace Xv6

open Bytes Wp

/-! ### Reading a file without holes -/

/-- Every block below the size of the inode has an address. -/
structure Fs.Full (fs : Fs) (i : Inode) : Prop where
  size_le : i.size.toNat ≤ MAXFILE * BSIZE
  mapped : ∀ bn, bn * BSIZE < i.size.toNat → fs.blockAt i bn ≠ 0

section

variable {E : Stop → Prop} {fs : Fs} {i : Inode} {ip : ℕ}

/-- `readi` returns the bytes of the file. -/
theorem readiFrom_bytes (hip : fs.itable ip = i) (hfull : fs.Full i) {fuel off n : ℕ}
    (hn : n ≤ fuel) (hin : off + n ≤ i.size.toNat) :
    wp (readiFrom ip fuel off n) E (fun bs fs' => fs' = fs ∧
      bs = (List.range n).map fun k => fs.byteAt i (off + k)) fs := by
  refine readiFrom_mapped hip (fun bn hbn => ?_) hn hin
  exact ⟨Nat.lt_of_mul_lt_mul_right (hbn.trans_le hfull.size_le), hfull.mapped bn hbn⟩

/-- `ilock(ip)` returns at once. -/
structure Fs.Lockable (fs : Fs) (ip : ℕ) : Prop where
  ref : 1 ≤ (fs.itable ip).ref
  free : (fs.itable ip).locked = false
  type : (fs.loaded ip).type ≠ 0

/-- The inodes, as `ilock` leaves them, and the blocks are the same. -/
structure SameLoaded (fs fs' : Fs) : Prop where
  log : fs'.log = fs.log
  sb : fs'.sb = fs.sb
  loaded : ∀ ip, fs'.loaded ip = fs.loaded ip

theorem SameLoaded.refl (fs : Fs) : SameLoaded fs fs := ⟨rfl, rfl, fun _ => rfl⟩

theorem SameLoaded.byteAt {fs' : Fs} (h : SameLoaded fs fs') (ip k : ℕ) :
    fs'.byteAt (fs'.loaded ip) k = fs.byteAt (fs.loaded ip) k := by
  rw [h.loaded, Fs.byteAt, Fs.byteAt, Fs.blockAt, Fs.blockAt, h.log]

theorem SameLoaded.full {fs' : Fs} (hs : SameLoaded fs fs') (h : fs.Full (fs.loaded ip)) :
    fs'.Full (fs'.loaded ip) := by
  rw [hs.loaded]
  refine ⟨h.size_le, fun bn hbn => ?_⟩
  rw [Fs.blockAt, hs.log]
  exact h.mapped bn hbn

theorem loaded_locked (fs : Fs) (ip : ℕ) : (fs.loaded ip).locked = (fs.itable ip).locked := by
  unfold Fs.loaded
  dsimp only
  split_ifs <;> rfl

/-- Reading a part of a file gives its bytes and changes no file. -/
theorem fileRead_bytes (hE : fs.Lockable ip ∨ ∀ e, E e) (hfull : fs.Full (fs.loaded ip))
    {off n : U32} (hin : off.toNat + n.toNat ≤ (fs.loaded ip).size.toNat) :
    wp (fileRead ip off n) E (fun bs fs' => SameLoaded fs fs' ∧
      bs = (List.range n.toNat).map fun k => fs.byteAt (fs.loaded ip) (off.toNat + k)) fs := by
  rw [fileRead, wp_bind, wp_ilock]
  refine ite_prop_iff_and.2 ⟨fun hc => hE.elim (fun h => absurd hc (not_lt.2 h.ref)) (· _),
    fun href => ?_⟩
  refine ite_prop_iff_and.2 ⟨fun hc => hE.elim (fun h => by simp [h.free] at hc) (· _),
    fun hfree => ?_⟩
  refine ite_prop_iff_and.2 ⟨fun hc => hE.elim (fun h => absurd hc.2 h.type) (· _), fun _ => ?_⟩
  set fs₁ := fs.withInode ip { fs.loaded ip with locked := true } with hfs₁
  have hnode : fs₁.itable ip = { fs.loaded ip with locked := true } := withInode_self _ _ _
  have hadd : (off + n).toNat = off.toNat + n.toNat := by
    have := (fs.loaded ip).size.isLt
    rw [BitVec.toNat_add, Nat.mod_eq_of_lt (by omega)]
  have hsize : (fs₁.itable ip).size = (fs.loaded ip).size := by rw [hnode]
  have hfull₁ : fs₁.Full (fs₁.itable ip) := by
    rw [hnode]
    exact ⟨hfull.size_le, hfull.mapped⟩
  have hrange : ¬ ((fs₁.itable ip).size < off ∨ off + n < off) := by
    rw [BitVec.lt_def, BitVec.lt_def, hadd, hsize]
    omega
  have hclip : ¬ (fs₁.itable ip).size < off + n := by
    rw [BitVec.lt_def, hadd, hsize]
    omega
  rw [wp_bind, readi, wp_bind, wp_getInode, wp_ite, if_neg hrange]
  dsimp only
  rw [if_neg hclip]
  refine (readiFrom_bytes rfl hfull₁ le_rfl (by rw [hsize]; exact hin)).mono fun bs fs₂ hbs => ?_
  obtain ⟨rfl, rfl⟩ := hbs
  have hheld : ¬ ((!(fs₁.itable ip).locked) = true ∨ (fs₁.itable ip).ref < 1) := by
    rw [hnode]
    exact fun hc => hc.elim (by simp) (by rw [loaded_ref]; exact href)
  rw [wp_bind, iunlock, wp_bind, wp_getInode, wp_bind, wp_panicIf, if_neg hheld, wp_setInode]
  refine ⟨⟨rfl, rfl, fun x => ?_⟩, List.map_congr_left fun k _ => ?_⟩
  · by_cases hx : x = ip
    · subst hx
      rw [loaded_of_valid]
      · rw [withInode_self, hnode]
        have hlocked := loaded_locked fs x
        rw [Bool.eq_false_iff.2 hfree] at hlocked
        rw [← hlocked]
      · rw [withInode_self, hnode]
        exact loaded_valid fs x
    · unfold Fs.loaded
      rw [withInode_of_ne _ _ hx, hfs₁, withInode_of_ne _ _ hx]
      rfl
  · rw [hnode]
    rfl

theorem sizeOf_eq_loaded (fs : Fs) (ip : ℕ) : fs.sizeOf ip = (fs.loaded ip).size := by
  unfold Fs.sizeOf Fs.loaded
  dsimp only
  split_ifs <;> rfl

/-- The file part of a page that has been read was all in the file. -/
theorem readPage_bytes {v : Vma} {va : U64} (hip : v.inode = some ip)
    (heof : va < v.start + v.filesz.setWidth 64) (hfull : fs.Full (fs.loaded ip)) {bs : List Byte}
    {fs' : Fs} (hread : readPage v va fs = .ok (bs, fs')) :
    InFile fs ip (v.fileOff va) ((v.fileLen va).setWidth 32) ∧ SameLoaded fs fs' ∧
      bs = (List.range ((v.fileLen va).setWidth 32).toNat).map fun k =>
        fs.byteAt (fs.loaded ip) ((v.fileOff va).toNat + k) := by
  have hin : InFile fs ip (v.fileOff va) ((v.fileLen va).setWidth 32) := by
    by_contra hno
    refine absurd (hread.symm.trans ((readPage_panics_iff hip heof fs).2 ⟨?_, hno⟩)) (by simp)
    rw [readPage_eq hip heof] at hread
    cases hfile : fileRead ip (v.fileOff va) ((v.fileLen va).setWidth 32) fs with
    | error e => cases (bind_of_error hfile).symm.trans hread
    | ok x => exact ⟨x.1, x.2, rfl⟩
  refine ⟨hin, ?_⟩
  have hsum : (v.fileOff va).toNat + ((v.fileLen va).setWidth 32).toNat ≤
      (fs.loaded ip).size.toNat := by
    obtain ⟨-, h2, h3⟩ := hin
    rw [sizeOf_eq_loaded] at h3
    rw [BitVec.le_def, BitVec.toNat_add] at h2 h3
    omega
  have hw : wp (readPage v va) (fun _ => True) (fun bs fs' => SameLoaded fs fs' ∧
      bs = (List.range ((v.fileLen va).setWidth 32).toNat).map fun k =>
        fs.byteAt (fs.loaded ip) ((v.fileOff va).toNat + k)) fs := by
    rw [readPage_eq hip heof, wp_bind]
    refine (fileRead_bytes (.inr fun _ => trivial) hfull hsum).mono fun bs fs₁ hbs => ?_
    rw [wp_bind, wp_panicIf]
    split_ifs
    exact hbs
  exact hw.ok hread

end

/-- The byte that the page at `va` of a vma should show at offset `k`. -/
def Vma.shownByte (v : Vma) (fs : Fs) (va : U64) (k : ℕ) : Byte :=
  match v.inode with
  | none => 0
  | some ip =>
    if va.toNat - v.start.toNat + k < v.filesz.toNat then
      fs.byteAt (fs.loaded ip) (v.offset.toNat + (va.toNat - v.start.toNat) + k)
    else 0

/-- The file part of the vma is inside its file. -/
def Vma.InsideFile (v : Vma) (fs : Fs) : Prop :=
  ∀ ip, v.inode = some ip →
    fs.Full (fs.loaded ip) ∧ v.offset.toNat + v.filesz.toNat ≤ (fs.loaded ip).size.toNat

/-- The new page of a first touch holds the file part and zeros. -/
theorem fills_shownByte {fs : Fs} {v : Vma} {va : U64} {d : ℕ → Byte} (hstart : v.start ≤ va)
    (hlt : va < MAXVA) (hfile : v.InsideFile fs) (hd : Fills fs v va d) {k : ℕ} (hk : k < 4096) :
    d k = v.shownByte fs va k := by
  obtain ⟨bs, fs', hread, rfl⟩ := hd
  have hmax : MAXVA.toNat = 2 ^ 38 := by decide
  rw [BitVec.le_def] at hstart
  rw [BitVec.lt_def, hmax] at hlt
  have hfsz := v.filesz.isLt
  have heof : (v.start + v.filesz.setWidth 64).toNat = v.start.toNat + v.filesz.toNat := by
    rw [BitVec.toNat_add, BitVec.toNat_setWidth]
    omega
  unfold Vma.shownByte
  cases hip : v.inode with
  | none =>
    rw [readPage_of_eof (by simp [hip])] at hread
    rw [← (Prod.mk.inj (Except.ok.inj hread)).1, putBytes_nil]
  | some ip =>
    obtain ⟨hfull, hin⟩ := hfile ip hip
    dsimp only
    by_cases hlow : v.start.toNat + v.filesz.toNat ≤ va.toNat
    · -- the page lies after the file part
      rw [readPage_of_eof (fun _ _ => by rwa [BitVec.le_def, heof])] at hread
      rw [← (Prod.mk.inj (Except.ok.inj hread)).1, putBytes_nil, if_neg (by omega)]
    · have hpart : va < v.start + v.filesz.setWidth 64 := by
        rw [BitVec.lt_def, heof]
        omega
      have hsub : (va - v.start).toNat = va.toNat - v.start.toNat := by
        rw [BitVec.toNat_sub]
        omega
      have hoff : (v.fileOff va).toNat = v.offset.toNat + (va.toNat - v.start.toNat) := by
        have := (fs.loaded ip).size.isLt
        rw [Vma.fileOff, BitVec.toNat_setWidth, BitVec.toNat_add, BitVec.toNat_setWidth, hsub]
        omega
      have hlen : ((v.fileLen va).setWidth 32).toNat =
          min (v.start.toNat + v.filesz.toNat - va.toNat) 4096 := by
        rw [Vma.fileLen, BitVec.toNat_setWidth, toNat_umin, BitVec.toNat_sub, heof,
          show PGSIZE.toNat = 4096 by decide]
        omega
      rw [(readPage_bytes hip hpart hfull hread).2.2, putBytes, if_pos (Nat.zero_le _),
        Nat.sub_zero, hlen, hoff]
      by_cases hin' : va.toNat - v.start.toNat + k < v.filesz.toNat
      · rw [if_pos hin', List.getD_eq_getElem _ _ (by simp; omega), List.getElem_map,
          List.getElem_range]
      · rw [if_neg hin', List.getD_eq_default _ _ (by simp; omega)]

/-! ### The entry of the new page -/

section

variable [Layout]

/-- The permissions of a vma stay out of the frame number of every page. -/
def KeepsFrame (perm : U32) : Prop :=
  ∀ g, Allocatable g →
    pte2pa (pa2pte (pageAddr g) ||| perm.setWidth 64 ||| PTE_V ||| PTE_U) = pageAddr g

/-- Flag bits are not in the frame number. -/
theorem KeepsFrame.of_lt {perm : U32} (h : perm.toNat < 1024) : KeepsFrame perm := by
  intro g hg
  rw [BitVec.or_assoc, BitVec.or_assoc]
  exact pte2pa_pa2pte_or (by have := hg.2; omega) ((isFlags_setWidth h).or (by decide))

/-- The page `pa` shows the bytes of the vma at `va`, the other pages and entries are as before, and
the entry of `va` maps `pa`. -/
structure Shows (s : Kernel) (a : Maps) (u : UvmPtr) (v : Vma) (va pa : U64) (t : Kernel)
    (b : Maps) : Prop where
  bytes : ∀ k < 4096, t.phys.mem (vpn pa) k = v.shownByte s.fs va k
  roots : b.root = a.root
  pages : ∀ g p, a.page g = some p → g ≠ vpn pa ∧ b.page g = some p
  entries : ∀ r n, ¬ (r = s.root u ∧ n = vpn va) → b.leaf r n = a.leaf r n
  entry : b.getpa (s.root u) va = pa

/-- Every first touch of a vma with the permissions `p` shows the right bytes. -/
def FirstTouch (p : U32) : Prop :=
  ∀ (own : ℕ → Owner) (s : Kernel) (a : Maps) (u : UvmPtr) (va perm pa : U64) (j : ℕ) (t : Kernel),
    Rep own s.phys a → (s.uvms u).pagetable = pageAddr (s.root u) → a.root (s.root u) →
    uvmVa2vma s u va = some j → (s.vmas j).perm = p → (s.vmas j).InsideFile s.fs →
    ¬ Valid (a.leaf (s.root u) (vpn va)) → uvmCompletemap u va perm s = .ok (pa, t) → pa ≠ 0 →
    ∃ own' b, Rep own' t.phys b ∧ Shows s a u (s.vmas j) va pa t b

theorem FirstTouch.of_keepsFrame {p : U32} (hp : KeepsFrame p) : FirstTouch p := by
  intro own s a u va perm pa j t hrep hpt hr hj hperm hfile hinv hrun hpa
  have hspec : wp (uvmCompletemap u va perm) (fun _ => True) _ s := uvmCompletemap_spec hrep hpt hr
    (fun _ _ _ hv => absurd hv hinv) (fun _ _ => trivial) trivial fun _ _ _ _ _ _ _ => trivial
  rcases hspec.ok hrun with ⟨h0, -⟩ | ⟨j', phys, fs, own', b, hal, hlt, hj', -, rfl,
    hrep', -, hc, -⟩
  · exact absurd h0 hpa
  obtain rfl : j' = j := Option.some.inj (hj'.symm.trans hj)
  obtain ⟨i, -, hhas⟩ := uvmVa2vma_some hj
  have hstart : (s.vmas j').start ≤ va := by
    rw [Vma.has, decide_eq_true_iff] at hhas
    exact hhas.1
  refine ⟨own', b, hrep', ?_⟩
  cases hc with
  | refused => exact absurd rfl hpa
  | single hv => exact absurd hv hinv
  | copied hv => exact absurd hv hinv
  | @fresh g d hinv hg hpage hd =>
    have hvpn : vpn (pageAddr g) = g := by
      rw [vpn, toNat_pageAddr (by have := hg.2; omega), Nat.mul_div_cancel _ (by norm_num)]
    have hself := (hrep'.alloc.page_iff.1 (Maps.setPage_page_self a g (some ⟨1, d⟩))).2.2
    refine ⟨fun k hk => ?_, rfl, fun f p hf => ?_, fun r n hne => ?_, ?_⟩
    · rw [hvpn]
      exact (congrFun hself k).trans (fills_shownByte hstart hlt hfile hd hk)
    · have hne : f ≠ g := by
        rintro rfl
        rw [hpage] at hf
        cases hf
      rw [hvpn]
      exact ⟨hne, (Maps.setPage_page_of_ne a _ hne).trans hf⟩
    · rw [Maps.setLeaf_leaf_of_ne _ _ hne, Maps.setPage_leaf]
    · rw [Maps.getpa, if_neg (BitVec.not_le.2 hlt), Maps.setLeaf_leaf_self, if_neg, hperm, hp g hg]
      rw [not_or]
      exact ⟨or_and_ne_left (or_and_ne_right _ (by decide)) _, or_and_ne_right _ (by decide)⟩

/-! ### Permissions that reach into the frame number -/

section

variable {E : Stop → Prop} {own : ℕ → Owner} {p : Phys} {a : Maps} {r f₀ : ℕ}

/-- The walk finds a leaf table that is there. -/
theorem pgtWalkFrom_node (h : Rep own p a) {va : U64} (hn : own f₀ = .node r 0 (vpn va / 512))
    {l f : ℕ} (hf : own f = .node r l (vpn va / 512 ^ (l + 1))) (alloc : Bool) :
    wp (pgtWalkFrom va alloc l (pageAddr f)) E (fun res t =>
      t = p ∧ ∃ x, res = some x ∧ Slot own r (vpn va) x) p := by
  induction l generalizing f with
  | zero =>
    rw [pgtWalkFrom, wp_pure, px_eq, pteAddr_pageAddr]
    exact ⟨rfl, _, rfl, f, by simpa using hf, by simp⟩
  | succ l ih =>
    have hv : Valid (pteAt p.mem f (vpn va / 512 ^ (l + 1) % 512)) :=
      Classical.byContradiction fun hv => h.linked.not_leaf_node hf hv f₀ hn
    obtain ⟨g, hg, hwp⟩ : ∃ g, own g = .node r l (vpn va / 512 ^ (l + 1)) ∧
        ∀ Q, wp (pgtWalkFrom va alloc (l + 1) (pageAddr f)) E Q p ↔
          wp (pgtWalkFrom va alloc l (pageAddr g)) E Q p := pgtWalkFrom_down h.linked hf hv
    exact (hwp _).2 (ih hg)

theorem pgtWalk_node (h : Rep own p a) (hr : a.root r) {va : U64} (hva : va < MAXVA)
    (hn : own f₀ = .node r 0 (vpn va / 512)) (alloc : Bool) :
    wp (pgtWalk (pageAddr r) va alloc) E (fun res t =>
      t = p ∧ ∃ x, res = some x ∧ Slot own r (vpn va) x) p := by
  rw [pgtWalk, wp_bind, wp_panicIf, if_neg (by bv_omega)]
  refine pgtWalkFrom_node h hn (l := 2) ?_ alloc
  rw [(h.tree.root r).1 hr, vpn_div_root hva]

end

/-- Memory with one free page, `g`, and a table for the first pages. -/
theorem exists_rep_oneFree {g r n₁ n₂ : ℕ} (hg : Allocatable g) (hr : Allocatable r)
    (h₁ : Allocatable n₁) (h₂ : Allocatable n₂) (hd : [g, r, n₁, n₂].Nodup) :
    ∃ own p a, Rep own p a ∧ a.root r ∧ (∀ v, a.leaf r v = 0) ∧ p.freelist = [g] ∧
      own n₂ = .node r 0 0 := by
  simp only [List.nodup_cons, List.mem_cons, List.not_mem_nil, or_false, not_or, not_false_eq_true,
    List.nodup_nil, and_true] at hd
  obtain ⟨⟨hgr, hg1, hg2⟩, ⟨hr1, hr2⟩, h12⟩ := hd
  -- at first all pages are handed out
  obtain ⟨own₀, a₀, hrep₀, -, hleaf, hall⟩ :=
    exists_rep_of_pages (s := ⟨fun _ _ => 0, [], fun _ => 1⟩) List.nodup_nil
      (fun f hf => by cases hf) fun _ _ _ => one_pos
  have hpage : ∀ f, Allocatable f → a₀.page f = some ⟨1, fun _ => 0⟩ :=
    fun f hf => (hall f hf (by simp)).2
  -- then three of them become a table, and `g` is given back
  have hrep₁ := hrep₀.newRoot (hpage r hr)
  have hrep₂ := hrep₁.link (f := r) (g := n₁) (r := r) (l := 1) (k := 0) (i := 0)
    (Function.update_self ..) (by norm_num) (by rw [pteAt_of_zero rfl]; decide)
    ((Maps.setPage_page_of_ne _ _ (Ne.symm hr1)).trans (hpage n₁ h₁))
  have hrep₃ := hrep₂.link (f := n₁) (g := n₂) (r := r) (l := 0) (k := 0) (i := 0)
    (Function.update_self ..) (by norm_num)
    (by
      rw [pteAt_putPte_of_ne _ _ (by tauto), pteAt_of_zero rfl]
      decide)
    ((Maps.setPage_page_of_ne _ _ (Ne.symm h12)).trans
      ((Maps.setPage_page_of_ne _ _ (Ne.symm hr2)).trans (hpage n₂ h₂)))
  have hgo : own₀ g = .page := (hall g hg (by simp)).1
  have hrep₄ := hrep₃.giveBack (g := g) (by simp [Function.update_of_ne, hgr, hg1, hg2, hgo])
    (fun _ => 1)
  refine ⟨_, _, _, hrep₄, Or.inl rfl, hleaf r, rfl, ?_⟩
  simp [Function.update_of_ne, Ne.symm hg2]

/-- Four pages are enough to have a page fault on any of them. -/
theorem exists_others (hroom : Layout.kend.toNat + 4 * 4096 ≤ PHYSTOP.toNat) (g : ℕ) :
    ∃ r n₁ n₂, Allocatable r ∧ Allocatable n₁ ∧ Allocatable n₂ ∧ [g, r, n₁, n₂].Nodup := by
  have hstop : PHYSTOP.toNat = 0x88000000 := by decide
  have hA : ∀ f, 0x87FFC ≤ f → f < 0x88000 → Allocatable f := fun f h1 h2 => ⟨by omega, h2⟩
  have hpick : ∀ x : ℕ, 0x87FFD ≤ x → x < 0x88000 →
      Allocatable (if g = x then 0x87FFC else x) := by
    intro x h1 h2
    apply hA <;> split_ifs <;> omega
  refine ⟨if g = 0x87FFF then 0x87FFC else 0x87FFF, if g = 0x87FFE then 0x87FFC else 0x87FFE,
    if g = 0x87FFD then 0x87FFC else 0x87FFD, hpick _ (by norm_num) (by norm_num),
    hpick _ (by norm_num) (by norm_num), hpick _ (by norm_num) (by norm_num), ?_⟩
  simp only [List.nodup_cons, List.mem_cons, List.not_mem_nil, or_false, not_or, not_false_eq_true,
    List.nodup_nil, and_true]
  split_ifs <;> omega

/-- A process with a vma for its first page. -/
def onePage (p : Phys) (r : ℕ) (perm : U32) : Kernel :=
  { Kernel.zero with
    phys := p
    vmas := fun _ => ⟨true, none, 0, 0, 0, 4096, perm, MAP_PRIVATE⟩
    uvms := fun _ => ⟨pageAddr r, fun i => if i = 0 then some 0 else none, none⟩ }

omit [Layout] in
theorem onePage_va2vma (p : Phys) (r : ℕ) (perm : U32) :
    uvmVa2vma (onePage p r perm) (.proc 0) 0 = some 0 := by
  rw [uvmVa2vma_eq_some_iff]
  exact ⟨0, by decide, rfl, by simp [onePage, Vma.has, Vma.stop], fun i hi => absurd hi (by omega)⟩

theorem onePage_root (p : Phys) {r : ℕ} (hr : Allocatable r) (perm : U32) :
    (onePage p r perm).root (.proc 0) = r := by
  have hlt := hr.2
  rw [Kernel.root, onePage, toNat_pageAddr (by omega), Nat.mul_div_cancel _ (by norm_num)]

section

variable {own own' : ℕ → Owner} {p q : Phys} {a b : Maps} {r g : ℕ}

/-- With a table for `va` and a free page, a first touch of `va` finds its memory. -/
theorem Rep.fetchable (h : Rep own p a) (hr : a.root r) {va : U64} (hva : va < MAXVA) {n : ℕ}
    (hn : own n = .node r 0 (vpn va / 512)) (hinv : ¬ Valid (a.leaf r (vpn va)))
    (hfree : p.freelist ≠ []) : ∃ q, Xv6.fetchable (pageAddr r) va p = .ok (true, q) := by
  suffices hw : wp (Xv6.fetchable (pageAddr r) va) (fun _ => False) (fun b _ => b = true) p by
    obtain ⟨b, q, hrun, rfl⟩ := hw.exists_ok
    exact ⟨q, hrun⟩
  rw [Xv6.fetchable, wp_bind]
  refine (pgtWalk_node h hr hva hn true).mono fun res q hq => ?_
  obtain ⟨rfl, x, rfl, hx⟩ := hq
  dsimp only
  rw [wp_bind, loadPte_slot h hx, wp_ite, if_neg hinv, wp_bind]
  refine (kalloc_spec h).mono fun pa q hq => ?_
  rcases hq with ⟨-, -, hnil⟩ | ⟨g, rfl, -, -, hg, -⟩
  · exact absurd hnil hfree
  · rw [wp_pure, decide_eq_true_iff]
    exact hg.pageAddr_ne_zero

/-- A page that is new was free before. -/
theorem Rep.free_of_new (h : Rep own p a) (h' : Rep own' q b) (hgr : Grows r own own')
    (hg : Allocatable g) (hnone : a.page g = none) {x : Page} (hnew : b.page g = some x) :
    g ∈ p.freelist := by
  have hpage := (h'.alloc.page_iff.1 hnew).1
  rw [← h.alloc.free g]
  cases ho : own g with
  | free => rfl
  | outside => exact absurd hg ((h.alloc.outside g).1 ho)
  | page => exact absurd ho (h.alloc.page_none_iff.1 hnone)
  | node r' l k =>
    have hnode := hgr.node ho
    rw [hpage] at hnode
    cases hnode

/-- What an entry maps is seen in memory. -/
theorem Rep.getpa_unique (h : Rep own p a) (h' : Rep own' p b) (hr : a.root r) (hr' : b.root r)
    (va : U64) : a.getpa r va = b.getpa r va := by
  have h1 : wp (pgtGetpa (pageAddr r) va) (fun _ => False) (fun x _ => x = a.getpa r va) p :=
    pgtGetpa_spec h hr va rfl
  have h2 : wp (pgtGetpa (pageAddr r) va) (fun _ => False) (fun x _ => x = b.getpa r va) p :=
    pgtGetpa_spec h' hr' va rfl
  obtain ⟨x, q, -, hx1, hx2⟩ := (h1.and h2).exists_ok
  exact hx1.symm.trans hx2

end

/-- Where `g` is the only free page, a first touch maps `g`. -/
theorem FirstTouch.entry {perm : U32} (h : FirstTouch perm) {own : ℕ → Owner} {s : Kernel}
    {a : Maps} {u : UvmPtr} {va : U64} {j n g : ℕ} (hrep : Rep own s.phys a)
    (hpt : (s.uvms u).pagetable = pageAddr (s.root u)) (hr : a.root (s.root u))
    (hal : va % PGSIZE = 0) (hlt : va < MAXVA) (hj : uvmVa2vma s u va = some j)
    (hperm : (s.vmas j).perm = perm) (hne : perm.setWidth 64 ≠ (0 : U64))
    (hip : (s.vmas j).inode = none) (hn : own n = .node (s.root u) 0 (vpn va / 512))
    (hinv : ¬ Valid (a.leaf (s.root u) (vpn va))) (hfree : s.phys.freelist = [g]) :
    pte2pa (pa2pte (pageAddr g) ||| perm.setWidth 64 ||| PTE_V ||| PTE_U) = pageAddr g := by
  have hmem : Fetchable s u va := by
    rw [Fetchable, hpt]
    exact hrep.fetchable hr hlt hn hinv (by simp [hfree])
  have hgiven : (s.vmas j).perm.setWidth 64 &&& perm.setWidth 64 ≠ (0 : U64) := by
    rwa [hperm, BitVec.and_self]
  obtain ⟨pa, t, hrun, hpa⟩ := completemap_fetches hal hlt hj hgiven hmem
    ⟨[], s.fs, readPage_of_eof (by simp [hip])⟩
  obtain ⟨own₁, b₁, hrep₁, hshows⟩ := h own s a u va _ pa j t hrep hpt hr hj hperm
    (fun ip h => by simp [hip] at h) hinv hrun hpa
  have hspec : wp (uvmCompletemap u va (perm.setWidth 64)) (fun _ => True) _ s :=
    uvmCompletemap_spec hrep hpt hr (fun _ _ _ hv => absurd hv hinv) (fun _ _ => trivial) trivial
      fun _ _ _ _ _ _ _ => trivial
  rcases hspec.ok hrun with ⟨h0, -⟩ | ⟨j', phys, fs, own', b', -, -, hj', -, rfl, hrep', hgr, hc, -⟩
  · exact absurd h0 hpa
  obtain rfl : j' = j := Option.some.inj (hj'.symm.trans hj)
  cases hc with
  | refused => exact absurd rfl hpa
  | single hv => exact absurd hv hinv
  | copied hv => exact absurd hv hinv
  | @fresh g' d _ hg' hpage hd =>
    have hin : g' ∈ s.phys.freelist :=
      hrep.free_of_new hrep' hgr hg' hpage (Maps.setPage_page_self a g' (some ⟨1, d⟩))
    rw [hfree, List.mem_singleton] at hin
    subst hin
    have hentry := hshows.entry
    rw [hrep₁.getpa_unique hrep' (hshows.roots ▸ hr) hr, Maps.getpa, if_neg (BitVec.not_le.2 hlt),
      Maps.setLeaf_leaf_self, if_neg, hperm] at hentry
    · exact hentry
    · rw [not_or]
      exact ⟨or_and_ne_left (or_and_ne_right _ (by decide)) _, or_and_ne_right _ (by decide)⟩

theorem KeepsFrame.of_firstTouch (hroom : Layout.kend.toNat + 4 * 4096 ≤ PHYSTOP.toNat) {perm : U32}
    (h : FirstTouch perm) : KeepsFrame perm := by
  intro g hg
  by_cases hperm : perm.setWidth 64 = (0 : U64)
  · have h0 := congrArg BitVec.toNat hperm
    rw [BitVec.toNat_setWidth] at h0
    exact KeepsFrame.of_lt (by have := perm.isLt; simp at h0; omega) g hg
  obtain ⟨r, n₁, n₂, hr, h₁, h₂, hd⟩ := exists_others hroom g
  obtain ⟨own, p, a, hrep, hroot, hleaf, hfree, hn⟩ := exists_rep_oneFree hg hr h₁ h₂ hd
  have hsr := onePage_root p hr perm
  refine h.entry (s := onePage p r perm) (u := .proc 0) (n := n₂) hrep ?_ ?_
    (show (0 : U64) % PGSIZE = 0 by decide) (by decide) (onePage_va2vma p r perm) rfl hperm rfl
    ?_ ?_ hfree
  · rw [hsr]
    rfl
  · rwa [hsr]
  · rw [hsr, hn]
    congr 1
  · rw [hsr, hleaf]
    decide

/-- **A first touch shows the right bytes** exactly for the permissions that stay out of the frame
number. -/
theorem first_touch_shows_iff (hroom : Layout.kend.toNat + 4 * 4096 ≤ PHYSTOP.toNat) (perm : U32) :
    FirstTouch perm ↔ KeepsFrame perm :=
  ⟨KeepsFrame.of_firstTouch hroom, FirstTouch.of_keepsFrame⟩

end

attribute [local instance] imageLayout

theorem first_touch_shows_read : Layout.kend.toNat + 4 * 4096 ≤ PHYSTOP.toNat ∧ FirstTouch 2 :=
  ⟨by decide, (first_touch_shows_iff (by decide) 2).2 (KeepsFrame.of_lt (by decide))⟩

/-- `p = mmap(0x1000, 4096, perm, MAP_PRIVATE, fd, 0)` of an open file and a first load from `p`:
the page that is filled, and the page that the entry maps. -/
def loadWith (perm : U32) : K (U64 × U64) := do
  let va ← sysMmap 0 0x1000 4096 perm MAP_PRIVATE 0 0
  let pa ← uvmCompletemap (.proc 0) va PTE_R
  let s ← get
  return (pa, ← pgtGetpa (s.uvms (.proc 0)).pagetable va)

/-- **A permission above the flag bits maps another page**: `mmap` accepts `PROT_READ | 0x1000`, and
the page that is read from the file is not the page that the process sees. -/
theorem mmap_perm_maps_other :
    resultOf (loadWith 2 (openKernel 1)) = some (0x80033000, 0x80033000) ∧
      resultOf (loadWith 0x1002 (openKernel 1)) = some (0x80033000, 0x80037000) := by
  decide +kernel

end Xv6
