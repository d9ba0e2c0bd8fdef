import Xv6.Directory

/-!
# Path lookup

`skipelem` takes a path apart into the non-empty parts between slashes, each cut to `DIRSIZ` bytes
(`components`).  `namex` looks them up one after another (`Fs.walk`), from the root or from the
current directory, with one reference to the inode it has got to; it gives back every reference but
the one it returns.
-/

namespace Xv6

open Bytes Wp SlotMap

/-! ### Components -/

/-- The non-empty parts of a path between slashes, each cut to `DIRSIZ` bytes. -/
def components (path : List Byte) : List (List Byte) :=
  ((path.splitOnP (· = slash)).filter (· ≠ [])).map (List.take DIRSIZ)

/-- The names that `skipelem` finds, one after another. -/
def elems : ℕ → List Byte → List (List Byte)
  | 0, _ => []
  | fuel + 1, path =>
    match skipelem path with
    | none => []
    | some (name, path) => name :: elems fuel path

section

variable {path rest name : List Byte}

theorem components_nil : components [] = [] := by simp [components]

theorem components_slash (path : List Byte) : components (slash :: path) = components path := by
  rw [components, List.splitOnP_cons_eq_if_modifyHead, if_pos (decide_eq_true rfl)]
  rfl

theorem components_dropWhile (path : List Byte) :
    components (path.dropWhile (· = slash)) = components path := by
  induction path with
  | nil => rfl
  | cons b path ih =>
    rw [List.dropWhile_cons]
    split_ifs with hb
    · rw [ih, of_decide_eq_true hb, components_slash]
    · rfl

/-- The first component of a path without a slash before it. -/
theorem components_cons {b : Byte} (hb : b ≠ slash) (p : List Byte) :
    components (b :: p) = ((b :: p).takeWhile (· ≠ slash)).take DIRSIZ ::
      components ((b :: p).dropWhile (· ≠ slash)) := by
  set w := (b :: p).takeWhile (· ≠ slash) with hw
  set rest := (b :: p).dropWhile (· ≠ slash) with hrest
  have happ : b :: p = w ++ rest := List.takeWhile_append_dropWhile.symm
  have hword : ∀ c ∈ w, decide (c = slash) = false := by
    intro c hc
    have := List.mem_takeWhile_imp hc
    simpa using this
  have hne : w ≠ [] := by
    rw [hw, List.takeWhile_cons_of_pos (by simpa using hb)]
    exact List.cons_ne_nil _ _
  rw [happ]
  rcases hr : rest with _ | ⟨c, r⟩
  · rw [List.append_nil, components_nil, components, List.splitOnP_eq_singleton hword]
    simp [hne]
  · -- the part ends at a slash
    have hc : c = slash := by
      have := List.head?_dropWhile_not (fun c : Byte => decide (c ≠ slash)) (b :: p)
      rw [← hrest, hr] at this
      simpa using this
    rw [hc, components_slash, components, List.splitOnP_append_cons_of_forall_mem hword slash
      (decide_eq_true rfl), List.filter_cons_of_pos (by simpa using hne), List.map_cons]
    rfl

theorem skipelem_none (h : skipelem path = none) : components path = [] := by
  rw [← components_dropWhile]
  unfold skipelem at h
  split at h
  · rename_i heq
    rw [heq, components_nil]
  · cases h

/-- `skipelem` finds the first component and leaves the others, without a slash before them. -/
theorem skipelem_some (h : skipelem path = some (name, rest)) :
    components path = name :: components rest ∧ rest.length < path.length ∧
      (rest = [] ↔ components rest = []) := by
  have hhead := List.head?_dropWhile_not (fun c : Byte => decide (c = slash))
  unfold skipelem at h
  rcases hd : path.dropWhile (· = slash) with _ | ⟨b, p⟩
  · rw [hd] at h
    cases h
  · rw [hd] at h
    cases h
    have hb : b ≠ slash := by
      have := hhead path
      rw [hd] at this
      simpa using this
    have hlen : (b :: p).length ≤ path.length := hd ▸ (List.dropWhile_suffix _).length_le
    have hskip : ((b :: p).dropWhile (· ≠ slash)).length ≤ p.length := by
      rw [List.dropWhile_cons_of_pos (by simpa using hb)]
      exact (List.dropWhile_suffix _).length_le
    have hrest := (List.dropWhile_suffix (l := (b :: p).dropWhile (· ≠ slash))
      (fun c : Byte => decide (c = slash))).length_le
    refine ⟨?_, ?_, ?_⟩
    · rw [← components_dropWhile path, hd, components_cons hb, components_dropWhile]
    · rw [List.length_cons] at hlen
      omega
    · rcases hr : ((b :: p).dropWhile (· ≠ slash)).dropWhile (· = slash) with _ | ⟨c, r⟩
      · exact iff_of_true rfl components_nil
      · have hc : c ≠ slash := by
          have := hhead ((b :: p).dropWhile (· ≠ slash))
          rw [hr] at this
          simpa using this
        rw [components_cons hc]
        exact iff_of_false (List.cons_ne_nil _ _) (List.cons_ne_nil _ _)

/-- Iterating `skipelem` gives the components. -/
theorem elems_eq {fuel : ℕ} (h : path.length < fuel) : elems fuel path = components path := by
  induction fuel generalizing path with
  | zero => omega
  | succ fuel ih =>
    rw [elems]
    rcases hs : skipelem path with _ | ⟨name, rest⟩
    · exact (skipelem_none hs).symm
    · obtain ⟨hc, hlt, -⟩ := skipelem_some hs
      rw [hc]
      exact congrArg _ (ih (by omega))

end

/-! ### The tree -/

section

variable {fs s s' : Fs} {held : Multiset ℕ} {lk : Option ℕ} {ip j : ℕ} {name : List Byte}

/-- The inode number that directory `j` has for a name. -/
def Fs.entry (fs : Fs) (j : ℕ) (name : List Byte) : Option U16 :=
  (find Dirent.live Dirent.key (direntsOf (fs.fileOf j)) (cstr DIRSIZ name)).bind fun i =>
    (direntsOf (fs.fileOf j))[i]?.map Dirent.inum

/-- The inode that a name leads to, from a directory. -/
def Fs.child (fs : Fs) (j : ℕ) (name : List Byte) : Option ℕ :=
  if (fs.dinode j).type = T_DIR then (fs.entry j name).map BitVec.toNat else none

/-- The inode that names lead to, one after another. -/
def Fs.walk (fs : Fs) (j : ℕ) (names : List (List Byte)) : Option ℕ := names.foldlM fs.child j

/-- The directory that all names but the last lead to, and the last name. -/
def Fs.parent (fs : Fs) (j : ℕ) (names : List (List Byte)) : Option (ℕ × List Byte) :=
  names.getLast?.bind fun last => (fs.walk j names.dropLast).bind fun d =>
    if (fs.dinode d).type = T_DIR then some (d, last) else none

/-- `nlink` of inode `j` on disk. -/
def Fs.links (fs : Fs) (j : ℕ) : U16 :=
  loadW 16 (fs.log.buf (inodeBlockOf fs.sb j)) (j % IPB * 64 + 6)

/-- An inode that is allocated and will not be freed by giving up a reference to it. -/
structure Fs.Sound (fs : Fs) (j : ℕ) : Prop where
  lt : j < fs.sb.ninodes.toNat
  type : (fs.dinode j).type ≠ 0
  kept : fs.links j ≠ 0 ∨ ∃ ip, 0 < (fs.itable ip).ref ∧ (fs.itable ip).inum.toNat = j
  whole : (fs.dinode j).type = T_DIR → 16 ∣ (fs.dinode j).size.toNat

/-- The names below `root` lead to inodes, and no inode is locked. -/
structure Fs.Tree (fs : Fs) (root : ℕ) : Prop where
  blocks : fs.BlocksOk
  unlocked : ∀ ip < NINODE, (fs.itable ip).locked = false
  sound : ∀ names j, fs.walk root names = some j → fs.Sound j

/-! ### References and locks -/

/-- `s` is `fs` but for the references in `held` and the lock of `lk`. -/
structure Apart (fs : Fs) (held : Multiset ℕ) (lk : Option ℕ) (s : Fs) : Prop where
  log : s.log = fs.log
  sb : s.sb = fs.sb
  ok : FsOk fs.dinode none s
  refs : ∀ jp, (s.itable jp).ref = (fs.itable jp).ref + held.count jp
  nonneg : ∀ jp ∈ held, 0 ≤ (fs.itable jp).ref
  ids : ∀ jp, 0 < (fs.itable jp).ref → (s.itable jp).inum = (fs.itable jp).inum
  locks : ∀ jp < NINODE, (s.itable jp).locked = decide (lk = some jp)
  links : ∀ jp, (fs.itable jp).ref ≤ 0 → 0 < (s.itable jp).ref → (s.itable jp).valid = true →
    (s.itable jp).nlink = fs.links (s.itable jp).inum.toNat

theorem Fs.Tree.apart {root : ℕ} (h : fs.Tree root) : Apart fs 0 none fs :=
  ⟨rfl, rfl, h.blocks, fun _ => by simp, fun _ hj => absurd hj (Multiset.notMem_zero _),
    fun _ _ => rfl, fun jp hj => by simpa using h.unlocked jp hj,
    fun jp hle hlt => absurd hlt hle.not_gt⟩

namespace Apart

theorem ref_pos (h : Apart fs held lk s) (hip : ip ∈ held) : 0 < (s.itable ip).ref := by
  have hcount := Multiset.count_pos.2 hip
  have hnn := h.nonneg ip hip
  rw [h.refs]
  omega

/-- Others' references are still there. -/
theorem used (h : Apart fs held lk s) (hip : 0 < (fs.itable ip).ref) : 0 < (s.itable ip).ref := by
  rw [h.refs]
  omega

/-- A reference more. -/
theorem iget (h : Apart fs held lk s) (inum : U32) (hi : inum.toNat < fs.sb.ninodes.toNat) :
    wp (iget ROOTDEV inum)
      (fun e => e = .panic "iget: no inodes" ∧ ∀ jp < NINODE, (s.itable jp).ref ≠ 0)
      (fun ip s' => Apart fs (ip ::ₘ held) lk s' ∧ (s'.itable ip).inum = inum ∧
        ∀ jp, 0 < (s.itable jp).ref →
          s'.itable jp = { s.itable jp with ref := (s'.itable jp).ref }) s := by
  have hspec := iget_spec s ROOTDEV inum
  rcases hrun : Xv6.iget ROOTDEV inum s with e | ⟨ip, s'⟩
  · exact (wp_of_error hrun).2 (hspec.error hrun)
  have hgot := hspec.ok hrun
  have hok := (iget_ok h.ok (h.sb.symm ▸ hi)).ok hrun
  have hused (jp : ℕ) (hj : 0 < (s.itable jp).ref) := (hgot.used hj).1
  obtain ⟨hlog, hsb⟩ := hgot.same_log
  have hnn : 0 ≤ (s.itable ip).ref := by
    obtain ⟨hr, -⟩ | ⟨h0, -⟩ := hgot
    · exact hr.le
    · exact h0.ge
  have hself : (s'.itable ip).inum = inum ∧ (s'.itable ip).ref = (s.itable ip).ref + 1 ∧
      (s'.itable ip).locked = (s.itable ip).locked ∧
      ((s.itable ip).ref ≤ 0 → (s'.itable ip).valid = false) := by
    obtain ⟨hr, -, hn, rfl⟩ | ⟨h0, rfl⟩ := hgot <;> rw [withInode_self]
    · exact ⟨hn, rfl, rfl, fun hle => absurd hr hle.not_gt⟩
    · exact ⟨rfl, by rw [h0]; rfl, rfl, fun _ => rfl⟩
  have hother (jp : ℕ) (hj : jp ≠ ip) : s'.itable jp = s.itable jp := by
    obtain ⟨-, -, -, rfl⟩ | ⟨-, rfl⟩ := hgot <;> exact withInode_of_ne _ _ hj
  refine (wp_of_ok hrun).2 ⟨⟨hlog.trans h.log, hsb.trans h.sb, hok, fun jp => ?_, fun jp hj => ?_,
    fun jp hj => ?_, fun jp hlt => ?_, fun jp hle hlt hv => ?_⟩, hself.1, hused⟩
  · rw [Multiset.count_cons]
    by_cases hj : jp = ip
    · rw [hj, if_pos rfl, hself.2.1, h.refs]
      push_cast
      ring
    · rw [if_neg hj, hother jp hj, h.refs]
      rfl
  · obtain rfl | hj := Multiset.mem_cons.1 hj
    · by_cases hm : jp ∈ held
      · exact h.nonneg jp hm
      · have := h.refs jp
        rw [Multiset.count_eq_zero.2 hm] at this
        omega
    · exact h.nonneg jp hj
  · rw [hused jp (h.used hj)]
    exact h.ids jp hj
  · by_cases hj : jp = ip
    · rw [hj, hself.2.2.1, h.locks ip (hj ▸ hlt)]
    · rw [hother jp hj, h.locks jp hlt]
  · by_cases hj : jp = ip
    · subst hj
      by_cases hpos : 0 < (s.itable jp).ref
      · have hsame := hused jp hpos
        rw [hsame] at hv ⊢
        exact h.links jp hle hpos hv
      · rw [hself.2.2.2 (not_lt.1 hpos)] at hv
        cases hv
    · rw [hother jp hj] at hlt hv ⊢
      exact h.links jp hle hlt hv

/-- An entry is replaced by one for the same inode; `d` references are added to it. -/
theorem replace (h : Apart fs held lk s) {held' : Multiset ℕ} {lk' : Option ℕ} {i : Inode}
    (hok : FsOk fs.dinode none (s.withInode ip i)) (hinum : i.inum = (s.itable ip).inum)
    (href : i.ref = (fs.itable ip).ref + held'.count ip)
    (hheld : ∀ jp, jp ≠ ip → held'.count jp = held.count jp)
    (hnn : ∀ jp ∈ held', 0 ≤ (fs.itable jp).ref)
    (hlock : ip < NINODE → i.locked = decide (lk' = some ip))
    (hlk : ∀ jp, jp ≠ ip → (lk' = some jp ↔ lk = some jp))
    (hlinks : (fs.itable ip).ref ≤ 0 → 0 < i.ref → i.valid = true →
      i.nlink = fs.links i.inum.toNat) : Apart fs held' lk' (s.withInode ip i) := by
  have hself := withInode_self s ip i
  have hother (jp : ℕ) (hj : jp ≠ ip) := withInode_of_ne s i hj
  refine ⟨h.log, h.sb, hok, fun jp => ?_, hnn, fun jp hj => ?_, fun jp hlt => ?_,
    fun jp hle hlt hv => ?_⟩
  · by_cases hj : jp = ip
    · rw [hj, hself, href]
    · rw [hother jp hj, h.refs, hheld jp hj]
  · by_cases hjp : jp = ip
    · rw [hjp, hself, hinum, h.ids ip (hjp ▸ hj)]
    · rw [hother jp hjp, h.ids jp hj]
  · by_cases hj : jp = ip
    · rw [hj, hself, hlock (hj ▸ hlt)]
    · rw [hother jp hj, h.locks jp hlt]
      exact decide_eq_decide.2 (hlk jp hj).symm
  · by_cases hj : jp = ip
    · rw [hj, hself] at hlt hv ⊢
      exact hlinks (hj ▸ hle) hlt hv
    · rw [hother jp hj] at hlt hv ⊢
      exact h.links jp hle hlt hv

theorem idup (h : Apart fs held lk s) (hip : 0 < (fs.itable ip).ref) :
    wp (idup ip) (fun _ => False) (fun _ s' => Apart fs (ip ::ₘ held) lk s' ∧
      (s'.itable ip).inum = (fs.itable ip).inum) s := by
  rw [Xv6.idup, wp_setInode]
  have hok := h.ok.withInode (i := { s.itable ip with ref := (s.itable ip).ref + 1 })
    (fun _ => h.used hip) rfl rfl fun hv => ⟨hv, rfl⟩
  refine ⟨h.replace hok rfl ?_ (fun jp hj => Multiset.count_cons_of_ne hj _) (fun jp hj => ?_)
    (h.locks ip) (fun _ _ => Iff.rfl) fun hle => absurd hip hle.not_gt, ?_⟩
  · rw [Multiset.count_cons_self, h.refs]
    push_cast
    ring
  · obtain rfl | hj := Multiset.mem_cons.1 hj
    · exact hip.le
    · exact h.nonneg jp hj
  · rw [withInode_self]
    exact h.ids ip hip

/-- `nlink`, as `ilock` reads it. -/
theorem loaded_nlink (h : Apart fs held lk s) (hip : 0 < (s.itable ip).ref)
    (hle : (fs.itable ip).ref ≤ 0) : (s.loaded ip).nlink = fs.links (s.itable ip).inum.toNat := by
  cases hv : (s.itable ip).valid with
  | true =>
    rw [loaded_of_valid hv]
    exact h.links ip hle hip hv
  | false =>
    obtain ⟨-, -, hi⟩ := h.ok.inum ip hip
    have hblk : (iblock s.sb (s.itable ip).inum).1.toNat =
        inodeBlockOf s.sb (s.itable ip).inum.toNat := by
      rw [← toNat_iblock h.ok.layout hi, BitVec.ofNat_toNat, BitVec.setWidth_eq]
    rw [Fs.links, ← h.log, ← h.sb, ← hblk]
    simp only [Fs.loaded, hv, Bool.false_eq_true, if_false]
    rfl

theorem ilock (h : Apart fs held none s) (hip : ip ∈ held)
    (hs : fs.Sound (s.itable ip).inum.toNat) :
    wp (ilock ip) (fun _ => False) (fun _ s' => Apart fs held (some ip) s' ∧ s'.Mine ip ∧
      (s'.itable ip).inum = (s.itable ip).inum) s := by
  have hpos := h.ref_pos hip
  have hlock : (s.itable ip).locked = false := by
    rw [h.locks ip (h.ok.inum ip hpos).1]
    rfl
  have htype : ¬ ((s.itable ip).valid = false ∧ (s.loaded ip).type = 0) := by
    rintro ⟨hv, h0⟩
    obtain ⟨-, -, hi⟩ := h.ok.inum ip hpos
    have hd := congrArg Dinode.type (loaded_dinode h.ok.layout rfl hi hv)
    have hdisk := h.ok.disk _ hi nofun
    rw [hdisk] at hd
    exact hs.type (hd.symm.trans h0)
  have hwp : wp (Xv6.ilock ip) (fun _ => False)
      (fun _ s' => s' = s.withInode ip { s.loaded ip with locked := true }) s := by
    rw [wp_ilock, if_neg (by omega), if_neg (by rw [hlock]; exact nofun), if_neg htype]
  obtain ⟨⟨⟩, s', hrun, rfl⟩ := hwp.exists_ok
  obtain ⟨hok, -, -, hcore, -, -, -⟩ := (ilock_ok h.ok nofun).ok hrun
  refine (wp_of_ok hrun).2 ⟨h.replace hok (loaded_inum s ip) ?_ (fun _ _ => rfl) h.nonneg
    (fun _ => (decide_eq_true rfl).symm) (fun jp hj => ?_) fun hle hlt hv => ?_, ?_, ?_⟩
  · exact (loaded_ref s ip).trans (h.refs ip)
  · exact iff_of_false (fun he => hj (Option.some.inj he).symm) nofun
  · change (s.loaded ip).nlink = fs.links (s.loaded ip).inum.toNat
    rw [loaded_inum]
    exact h.loaded_nlink hpos hle
  · exact ⟨hcore.ref, hcore.valid, by rw [withInode_self]⟩
  · rw [withInode_self]
    exact loaded_inum s ip

theorem iunlock (h : Apart fs held (some ip) s) (hip : ip ∈ held) :
    wp (iunlock ip) (fun _ => False) (fun _ s' => Apart fs held none s' ∧
      ∀ jp, (s'.itable jp).inum = (s.itable jp).inum) s := by
  have hpos := h.ref_pos hip
  have hlock : (s.itable ip).locked = true := by
    rw [h.locks ip (h.ok.inum ip hpos).1]
    exact decide_eq_true rfl
  rw [Xv6.iunlock, wp_bind, wp_getInode, wp_bind, wp_panicIf, if_neg (by rw [hlock]; simp; omega),
    wp_setInode]
  have hok :=
    h.ok.withInode (i := { s.itable ip with locked := false }) id rfl rfl fun hv => ⟨hv, rfl⟩
  refine ⟨h.replace hok rfl (h.refs ip) (fun _ _ => rfl) h.nonneg (fun _ => rfl) (fun jp hj => ?_)
    (h.links ip), ?_⟩
  · exact iff_of_false nofun fun he => hj (Option.some.inj he).symm
  · intro jp
    by_cases hj : jp = ip
    · rw [hj, withInode_self]
    · rw [withInode_of_ne _ _ hj]

/-- A reference is given up, and the inode is not freed. -/
theorem iput (h : Apart fs held none s) (hip : ip ∈ held) (hs : fs.Sound (s.itable ip).inum.toNat) :
    wp (iput ip) (fun _ => False) (fun _ s' => Apart fs (held.erase ip) none s' ∧
      ∀ jp, (s'.itable jp).inum = (s.itable jp).inum) s := by
  have hpos := h.ref_pos hip
  have hcount := Multiset.count_pos.2 hip
  have hnn := h.nonneg ip hip
  have hrefs := h.refs ip
  have hkeep :
      ¬ ((s.itable ip).ref = 1 ∧ (s.itable ip).valid = true ∧ (s.itable ip).nlink = 0) := by
    rintro ⟨h1, hv, h0⟩
    have hle : (fs.itable ip).ref ≤ 0 := by omega
    obtain hl | ⟨kp, hk, hinum⟩ := hs.kept
    · exact hl ((h.links ip hle hpos hv).symm.trans h0)
    · have hkp : kp = ip :=
        h.ok.unique kp ip (h.used hk) hpos (BitVec.eq_of_toNat_eq (by rw [h.ids kp hk, hinum]))
      rw [hkp] at hk
      omega
  rw [Xv6.iput, wp_bind, wp_getInode, if_neg hkeep, wp_setInode]
  have hok := h.ok.withInode (i := { s.itable ip with ref := (s.itable ip).ref - 1 })
    (fun _ => hpos) rfl rfl fun hv => ⟨hv, rfl⟩
  refine ⟨h.replace hok rfl ?_ (fun jp hj => Multiset.count_erase_of_ne hj _)
    (fun jp hj => h.nonneg jp (Multiset.mem_of_mem_erase hj)) (h.locks ip) (fun _ _ => Iff.rfl)
    (fun hle _ => h.links ip hle hpos), ?_⟩
  · rw [Multiset.count_erase_self]
    change (s.itable ip).ref - 1 = _
    omega
  · intro jp
    by_cases hj : jp = ip
    · rw [hj, withInode_self]
    · rw [withInode_of_ne _ _ hj]

theorem iunlockput (h : Apart fs held (some ip) s) (hip : ip ∈ held)
    (hs : fs.Sound (s.itable ip).inum.toNat) :
    wp (iunlockput ip) (fun _ => False) (fun _ s' => Apart fs (held.erase ip) none s' ∧
      ∀ jp, (s'.itable jp).inum = (s.itable jp).inum) s := by
  rw [Xv6.iunlockput, wp_bind]
  refine (h.iunlock hip).mono fun _ s₁ ⟨h₁, hn₁⟩ => ?_
  refine (h₁.iput hip (by rwa [hn₁])).mono fun _ s₂ ⟨h₂, hn₂⟩ => ?_
  exact ⟨h₂, fun jp => (hn₂ jp).trans (hn₁ jp)⟩

/-- The type of an inode that is locked. -/
theorem type_eq (h : Apart fs held lk s) (hm : s.Mine ip) :
    (s.itable ip).dinode = fs.dinode (s.itable ip).inum.toNat :=
  (h.ok.mem ip hm.1 hm.2.1).1

/-- The map of a locked directory is that of the disk. -/
theorem names_eq (h : Apart fs held lk s) (ip : ℕ) (name : List Byte) :
    (s.names ip name).map Prod.fst = fs.entry (s.itable ip).inum.toNat name := by
  have hdir : s.dirOf ip = direntsOf (fs.fileOf (s.itable ip).inum.toNat) :=
    congrArg direntsOf (fileOf_congr h.log h.sb _)
  rw [Fs.names, Fs.entry, hdir, Option.map_bind]
  refine Option.bind_congr fun i _ => ?_
  rw [Function.comp_apply, Option.map_map]
  rfl

/-- `dirlookup` in a locked directory. -/
theorem dirlookup (h : Apart fs held (some ip) s) (hm : s.Mine ip)
    (hj : (s.itable ip).inum.toNat = j) (hdir : (fs.dinode j).type = T_DIR) (hs : fs.Sound j)
    (hlt : ∀ n, fs.child j name = some n → n < fs.sb.ninodes.toNat) :
    wp (dirlookup ip name)
      (fun e => e = .panic "iget: no inodes" ∧ ∀ jp < NINODE, (s.itable jp).ref ≠ 0)
      (fun r s' => match fs.child j name with
        | none => r = none ∧ s' = s
        | some n => ∃ next, r = some next ∧ Apart fs (next ::ₘ held) (some ip) s' ∧
          (s'.itable next).inum.toNat = n ∧ (s'.itable ip).inum = (s.itable ip).inum) s := by
  have hd := h.type_eq hm
  have hholds : s.HoldsDir ip := by
    refine ⟨h.ok.blocksOk, hm, ?_, ?_⟩
    · exact (congrArg Dinode.type hd).trans (hj.symm ▸ hdir)
    · have hsize : (s.itable ip).size = (fs.dinode j).size :=
        (congrArg Dinode.size hd).trans (by rw [hj])
      rw [hsize]
      exact hs.whole hdir
  have hnames := h.names_eq ip name
  rw [hj] at hnames
  have hchild : fs.child j name = (fs.entry j name).map BitVec.toNat := if_pos hdir
  rw [← hnames] at hchild
  rcases hn : s.names ip name with _ | ⟨n, off⟩
  · have hnone : fs.child j name = none := by
      rw [hchild, hn]
      rfl
    rw [wp_of_ok (hholds.dirlookup_of_missing hn), hnone]
    exact ⟨rfl, rfl⟩
  · have hsome : fs.child j name = some n.toNat := by
      rw [hchild, hn]
      rfl
    have hdev := (h.ok.inum ip hm.1).2.1
    have hget := h.iget (n.setWidth 32) (by rw [toNat_wide]; exact hlt _ hsome)
    have hrun := hholds.dirlookup_of_names hn
    rw [hdev, map_eq_pure_bind] at hrun
    rw [wp, hrun, hsome]
    change wp (Xv6.iget ROOTDEV (n.setWidth 32) >>= fun a => pure (some a)) _ _ s
    rw [wp_bind]
    refine hget.mono ?_
    rintro next s' ⟨h', hinum, hused⟩
    refine ⟨next, rfl, h', ?_, ?_⟩
    · rw [hinum, toNat_wide]
    · rw [hused ip hm.1]

end Apart

/-! ### `namex` -/

/-- Two entries of the inode table are free. -/
def Fs.Spare (fs : Fs) : Prop :=
  ∃ i < NINODE, ∃ j < NINODE, i ≠ j ∧ (fs.itable i).ref = 0 ∧ (fs.itable j).ref = 0

/-- The inode table is full, or nearly so. -/
def Fs.TableFull (fs : Fs) (e : Stop) : Prop := e = .panic "iget: no inodes" ∧ ¬ fs.Spare

theorem Apart.full (h : Apart fs {ip} lk s) {e : Stop}
    (he : e = .panic "iget: no inodes" ∧ ∀ jp < NINODE, (s.itable jp).ref ≠ 0) :
    fs.TableFull e := by
  refine ⟨he.1, fun ⟨i, hi, k, hk, hne, hi0, hk0⟩ => ?_⟩
  have hfree (jp : ℕ) (hlt : jp < NINODE) (hj : jp ≠ ip) (h0 : (fs.itable jp).ref = 0) : False := by
    refine he.2 jp hlt ?_
    rw [h.refs, h0, Multiset.count_singleton, if_neg hj]
    rfl
  by_cases hip : i = ip
  · exact hfree k hk (fun hk => hne (hip.trans hk.symm)) hk0
  · exact hfree i hi hip hi0

section

variable {α : Type} {Q : Option α → Fs → Prop}

/-- The next directory is locked. -/
theorem wp_enter (h : Apart fs {ip} none s) (hj : (s.itable ip).inum.toNat = j) (hs : fs.Sound j)
    {m : F (Option α)} (hnot : (fs.dinode j).type ≠ T_DIR → ∀ s', Apart fs 0 none s' → Q none s')
    (hin : (fs.dinode j).type = T_DIR → ∀ s', Apart fs {ip} (some ip) s' → s'.Mine ip →
      (s'.itable ip).inum.toNat = j → wp m fs.TableFull Q s') :
    wp (do
      ilock ip
      let i ← getInode ip
      if i.type ≠ T_DIR then
        iunlockput ip
        return none
      m) fs.TableFull Q s := by
  have hip : ip ∈ ({ip} : Multiset ℕ) := Multiset.mem_singleton_self ip
  rw [wp_bind]
  refine ((h.ilock hip (hj.symm ▸ hs)).weaken fun _ => False.elim).mono fun _ s₁ ⟨h₁, hm, hn⟩ => ?_
  have hj₁ : (s₁.itable ip).inum.toNat = j := by rw [hn, hj]
  have htype : (s₁.itable ip).type = (fs.dinode j).type :=
    (congrArg Dinode.type (h₁.type_eq hm)).trans (by rw [hj₁])
  rw [wp_bind, wp_getInode, wp_ite, htype]
  split_ifs with hc
  · rw [wp_bind]
    refine ((h₁.iunlockput hip (hj₁.symm ▸ hs)).weaken fun _ => False.elim).mono
      fun _ s₂ ⟨h₂, _⟩ => ?_
    rw [wp_pure]
    refine hnot hc s₂ ?_
    rwa [Multiset.erase_singleton] at h₂
  · exact hin (not_not.1 hc) s₁ h₁ hm hj₁

/-- The next name is looked up. -/
theorem wp_descend (h : Apart fs {ip} (some ip) s) (hm : s.Mine ip)
    (hj : (s.itable ip).inum.toNat = j) (hs : fs.Sound j) (hdir : (fs.dinode j).type = T_DIR)
    (hchild : ∀ n, fs.child j name = some n → fs.Sound n) {k : ℕ → F (Option α)}
    (hnone : fs.child j name = none → ∀ s', Apart fs 0 none s' → Q none s')
    (hsome : ∀ n, fs.child j name = some n → ∀ next s', Apart fs {next} none s' →
      (s'.itable next).inum.toNat = n → wp (k next) fs.TableFull Q s') :
    wp (do
      match ← dirlookup ip name with
      | none =>
        iunlockput ip
        return none
      | some next =>
        iunlockput ip
        k next) fs.TableFull Q s := by
  have hip : ip ∈ ({ip} : Multiset ℕ) := Multiset.mem_singleton_self ip
  rw [wp_bind]
  refine ((h.dirlookup hm hj hdir hs fun n hn => (hchild n hn).lt).weaken fun _ => h.full).mono
    fun r s₁ hr => ?_
  rcases hc : fs.child j name with _ | n
  · rw [hc] at hr
    obtain ⟨rfl, rfl⟩ := hr
    dsimp only
    rw [wp_bind]
    refine ((h.iunlockput hip (hj.symm ▸ hs)).weaken fun _ => False.elim).mono
      fun _ s₂ ⟨h₂, _⟩ => ?_
    rw [wp_pure]
    refine hnone hc s₂ ?_
    rwa [Multiset.erase_singleton] at h₂
  · rw [hc] at hr
    obtain ⟨next, rfl, h₁, hn, hsame⟩ := hr
    dsimp only
    rw [wp_bind]
    have hput := h₁.iunlockput (Multiset.mem_cons_of_mem hip) (by rwa [hsame, hj])
    refine (hput.weaken fun _ => False.elim).mono fun _ s₂ ⟨h₂, hn₂⟩ => ?_
    have hheld : (next ::ₘ ({ip} : Multiset ℕ)).erase ip = {next} := calc
      _ = (ip ::ₘ ({next} : Multiset ℕ)).erase ip :=
        congrArg (·.erase ip) (Multiset.cons_swap next ip 0)
      _ = {next} := Multiset.erase_cons_head ip _
    rw [hheld] at h₂
    exact hsome n hc next s₂ h₂ (by rw [hn₂, hn])

end

/-! ### Walks -/

theorem walk_cons (fs : Fs) (j : ℕ) (name : List Byte) (names : List (List Byte)) :
    fs.walk j (name :: names) = (fs.child j name).bind fun n => fs.walk n names := by
  rw [Fs.walk, List.foldlM_cons]
  rfl

theorem parent_singleton (fs : Fs) (j : ℕ) (name : List Byte) :
    fs.parent j [name] = if (fs.dinode j).type = T_DIR then some (j, name) else none := rfl

theorem parent_cons (fs : Fs) (j : ℕ) (name : List Byte) {names : List (List Byte)}
    (hne : names ≠ []) :
    fs.parent j (name :: names) = (fs.child j name).bind fun n => fs.parent n names := by
  obtain ⟨a, as, rfl⟩ := List.exists_cons_of_ne_nil hne
  rw [Fs.parent, List.getLast?_cons_cons, List.dropLast_cons_of_ne_nil hne, walk_cons]
  cases fs.child j name with
  | none => cases (a :: as).getLast? <;> rfl
  | some n => rfl

/-- A walk fails where it meets an inode that is not a directory, or a directory without the
name. -/
theorem walk_eq_none {names : List (List Byte)} : fs.walk j names = none ↔
    ∃ pre name post d, names = pre ++ name :: post ∧ fs.walk j pre = some d ∧
      ((fs.dinode d).type ≠ T_DIR ∨ fs.entry d name = none) := by
  have hchild (d : ℕ) (name : List Byte) : fs.child d name = none ↔
      (fs.dinode d).type ≠ T_DIR ∨ fs.entry d name = none := by
    rw [Fs.child]
    split_ifs with hd
    · simp [hd]
    · simp [hd]
  induction names generalizing j with
  | nil =>
    refine iff_of_false nofun ?_
    rintro ⟨pre, name, post, d, hnames, -⟩
    simp at hnames
  | cons name names ih =>
    rw [walk_cons]
    constructor
    · intro hnone
      rcases hc : fs.child j name with _ | n
      · exact ⟨[], name, names, j, rfl, rfl, (hchild j name).1 hc⟩
      · rw [hc] at hnone
        obtain ⟨pre, x, post, d, rfl, hpre, hd⟩ := ih.1 hnone
        exact ⟨name :: pre, x, post, d, rfl, by rw [walk_cons, hc]; exact hpre, hd⟩
    · rintro ⟨_ | ⟨a, pre⟩, x, post, d, hnames, hpre, hd⟩
      · cases hpre
        cases hnames
        rw [(hchild j name).2 hd]
        rfl
      · cases hnames
        rw [walk_cons] at hpre
        obtain ⟨n, hn, hpre⟩ := Option.bind_eq_some_iff.1 hpre
        rw [hn]
        exact ih.2 ⟨pre, x, post, d, rfl, hpre, hd⟩

theorem parent_eq_none {names : List (List Byte)} : fs.parent j names = none ↔
    names = [] ∨ fs.walk j names.dropLast = none ∨
      ∃ d, fs.walk j names.dropLast = some d ∧ (fs.dinode d).type ≠ T_DIR := by
  rw [Fs.parent]
  rcases hl : names.getLast? with _ | last
  · exact iff_of_true rfl (.inl (List.getLast?_eq_none_iff.1 hl))
  · have hne : names ≠ [] := by
      rintro rfl
      cases hl
    rcases fs.walk j names.dropLast with _ | d
    · simp
    · by_cases hd : (fs.dinode d).type = T_DIR <;> simp [hd, hne]

theorem parent_of_not_dir (hnot : (fs.dinode j).type ≠ T_DIR) (names : List (List Byte)) :
    fs.parent j (name :: names) = none := by
  rcases names with _ | ⟨a, as⟩
  · rw [parent_singleton, if_neg hnot]
  · rw [parent_cons fs j name (List.cons_ne_nil a as), show fs.child j name = none from if_neg hnot]
    rfl

/-- What `namex` has got: the inode `goal`, with a reference to it, or nothing. -/
def Reached (fs : Fs) (goal : Option ℕ) (r : Option ℕ) (s : Fs) : Prop :=
  match goal with
  | none => r = none ∧ Apart fs 0 none s
  | some j => ∃ ip, r = some ip ∧ (s.itable ip).inum.toNat = j ∧ Apart fs {ip} none s

/-- What `namex` has got with `nameiparent`. -/
def ReachedParent (fs : Fs) (goal : Option (ℕ × List Byte)) (r : Option (ℕ × List Byte)) (s : Fs) :
    Prop :=
  match goal with
  | none => r = none ∧ Apart fs 0 none s
  | some (j, name) =>
    ∃ ip, r = some (ip, name) ∧ (s.itable ip).inum.toNat = j ∧ Apart fs {ip} none s

/-- All inodes that names lead to from `j` are sound. -/
def Fs.SoundFrom (fs : Fs) (j : ℕ) : Prop := ∀ names n, fs.walk j names = some n → fs.Sound n

theorem Fs.SoundFrom.self (h : fs.SoundFrom j) : fs.Sound j := h [] j rfl

theorem Fs.SoundFrom.child (h : fs.SoundFrom j) {n : ℕ} (hn : fs.child j name = some n) :
    fs.SoundFrom n := fun names m hm => h (name :: names) m (by rw [walk_cons, hn]; exact hm)

theorem namexFrom_wp {fuel : ℕ} {path : List Byte} (h : Apart fs {ip} none s)
    (hj : (s.itable ip).inum.toNat = j) (hs : fs.SoundFrom j) (hfuel : path.length < fuel) :
    wp (namexFrom fuel ip path) fs.TableFull (Reached fs (fs.walk j (components path))) s := by
  induction fuel generalizing ip j path s with
  | zero => omega
  | succ fuel ih =>
    rw [namexFrom]
    rcases hskip : skipelem path with _ | ⟨name, rest⟩
    · rw [skipelem_none hskip]
      exact ⟨ip, rfl, hj, h⟩
    obtain ⟨hcomp, hlt, -⟩ := skipelem_some hskip
    rw [hcomp, walk_cons]
    refine wp_enter h hj hs.self (fun hnot s' h' => ?_) fun hdir s' h' hm hj' => ?_
    · rw [show fs.child j name = none from if_neg hnot]
      exact ⟨rfl, h'⟩
    · refine wp_descend h' hm hj' hs.self hdir (fun n hn => (hs.child hn).self)
        (fun hnone s₂ h₂ => ?_) fun n hn next s₂ h₂ hn₂ => ?_
      · rw [hnone]
        exact ⟨rfl, h₂⟩
      · rw [hn]
        exact ih h₂ hn₂ (hs.child hn) (by omega)

theorem nameiparentFrom_wp {fuel : ℕ} {path : List Byte} (h : Apart fs {ip} none s)
    (hj : (s.itable ip).inum.toNat = j) (hs : fs.SoundFrom j) (hfuel : path.length < fuel) :
    wp (nameiparentFrom fuel ip path) fs.TableFull
    (ReachedParent fs (fs.parent j (components path))) s := by
  induction fuel generalizing ip j path s with
  | zero => omega
  | succ fuel ih =>
    have hip : ip ∈ ({ip} : Multiset ℕ) := Multiset.mem_singleton_self ip
    rw [nameiparentFrom]
    rcases hskip : skipelem path with _ | ⟨name, rest⟩
    · rw [skipelem_none hskip]
      dsimp only
      rw [wp_bind]
      refine ((h.iput hip (hj.symm ▸ hs.self)).weaken fun _ => False.elim).mono
        fun _ s₁ ⟨h₁, _⟩ => ?_
      rw [wp_pure]
      rw [Multiset.erase_singleton] at h₁
      exact ⟨rfl, h₁⟩
    obtain ⟨hcomp, hlt, hlast⟩ := skipelem_some hskip
    rw [hcomp]
    refine wp_enter h hj hs.self (fun hnot s' h' => ?_) fun hdir s' h' hm hj' => ?_
    · rw [parent_of_not_dir hnot]
      exact ⟨rfl, h'⟩
    · by_cases hr : rest = []
      · rw [if_pos hr, hlast.1 hr, parent_singleton, if_pos hdir, wp_bind]
        refine ((h'.iunlock hip).weaken fun _ => False.elim).mono fun _ s₁ ⟨h₁, hn₁⟩ => ?_
        rw [wp_pure]
        exact ⟨ip, rfl, (by rw [hn₁, hj']), h₁⟩
      · rw [if_neg hr, parent_cons fs j name fun hc => hr (hlast.2 hc)]
        refine wp_descend h' hm hj' hs.self hdir (fun n hn => (hs.child hn).self)
          (fun hnone s₂ h₂ => ?_) fun n hn next s₂ h₂ hn₂ => ?_
        · rw [hnone]
          exact ⟨rfl, h₂⟩
        · rw [hn]
          exact ih h₂ hn₂ (hs.child hn) (by omega)

/-- The inode that a path starts from. -/
def Fs.startOf (fs : Fs) (cwd : ℕ) (path : List Byte) : ℕ :=
  if path.head? = some slash then ROOTINO.toNat else (fs.itable cwd).inum.toNat

theorem nameiStart_wp {cwd : ℕ} {path : List Byte} (h : fs.Tree (fs.startOf cwd path))
    (hcwd : 0 < (fs.itable cwd).ref) :
    wp (nameiStart (some cwd) path) fs.TableFull (fun ip s => Apart fs {ip} none s ∧
      (s.itable ip).inum.toNat = fs.startOf cwd path) fs := by
  have hs : fs.SoundFrom (fs.startOf cwd path) := h.sound
  rw [nameiStart]
  unfold Fs.startOf at hs ⊢
  split_ifs with hroot
  · rw [if_pos hroot] at hs
    refine ((h.apart.iget ROOTINO hs.self.lt).weaken fun e he => ⟨he.1, ?_⟩).mono
      fun ip s ⟨hs, hn, _⟩ => ⟨hs, congrArg BitVec.toNat hn⟩
    rintro ⟨i, hi, -, -, -, hi0, -⟩
    exact he.2 i hi hi0
  · rw [wp_bind]
    refine ((h.apart.idup hcwd).weaken fun _ => False.elim).mono fun _ s ⟨hs, hn⟩ => ?_
    rw [wp_pure]
    exact ⟨hs, congrArg BitVec.toNat hn⟩

/-- Path lookup is a fold over the components of the path, and leaks no reference: the counts change
by one for the inode that is returned, and for no other.  It stops only when the inode table has no
entry for the two inodes that it refers to at a time. -/
theorem path_lookup_folds (cwd : ℕ) (path : List Byte) (h : fs.Tree (fs.startOf cwd path))
    (hcwd : 0 < (fs.itable cwd).ref) :
    elems (path.length + 1) path = components path ∧
      (wp (namei (some cwd) path) fs.TableFull
          (Reached fs (fs.walk (fs.startOf cwd path) (components path))) fs ∧
        (fs.walk (fs.startOf cwd path) (components path) = none ↔
          ∃ pre name post d, components path = pre ++ name :: post ∧
            fs.walk (fs.startOf cwd path) pre = some d ∧
            ((fs.dinode d).type ≠ T_DIR ∨ fs.entry d name = none))) ∧
      wp (nameiparent (some cwd) path) fs.TableFull
          (ReachedParent fs (fs.parent (fs.startOf cwd path) (components path))) fs ∧
        (fs.parent (fs.startOf cwd path) (components path) = none ↔ components path = [] ∨
          fs.walk (fs.startOf cwd path) (components path).dropLast = none ∨
          ∃ d, fs.walk (fs.startOf cwd path) (components path).dropLast = some d ∧
            (fs.dinode d).type ≠ T_DIR) := by
  have hlen := Nat.lt_succ_self path.length
  refine ⟨elems_eq hlen, ⟨?_, walk_eq_none⟩, ?_, parent_eq_none⟩
  · rw [namei, wp_bind]
    exact (nameiStart_wp h hcwd).mono fun ip s ⟨hs, hn⟩ => namexFrom_wp hs hn h.sound hlen
  · rw [nameiparent, wp_bind]
    exact (nameiStart_wp h hcwd).mono fun ip s ⟨hs, hn⟩ => nameiparentFrom_wp hs hn h.sound hlen

end

/-! ### A path through two directories -/

section

attribute [local instance] imageLayout

/-- The name `a` gets a directory, which is locked. -/
def nameDir : List BlockEvent :=
  [.call (.iunlock 0), .call (.ialloc T_DIR), .call (.ilock 1)]

theorem nameDir_runs : (Run.runs blockStep nameDir oneName).isSome = true := by decide +kernel

def nameDirState : Kernel := (Run.runs blockStep nameDir oneName).get nameDir_runs

/-- The directory gets the name `..`, for the root directory, and is unlocked. -/
def linkUp : List BlockEvent := [.call (.writei 1 0 (direntBytes 1 [46, 46])), .call (.iunlock 1)]

theorem linkUp_runs : (Run.runs blockStep linkUp nameDirState).isSome = true := by decide +kernel

/-- A root directory with the directory `a`, which has the name `..`. -/
def twoDirs : Fs := ((Run.runs blockStep linkUp nameDirState).get linkUp_runs).fs

theorem twoDirs_blocksOk : twoDirs.BlocksOk := by
  have hdir : Run.Reach blockStep BlockEvent.Ok smallDisk nameDirState :=
    oneName_reach.runs (fun e he u => by fin_cases he <;> trivial)
    (Option.some_get nameDir_runs).symm
  have hmine : nameDirState.fs.Mine 1 := ⟨by decide +kernel, by decide +kernel, by decide +kernel⟩
  obtain ⟨t, hwrite, hrest⟩ := Option.bind_eq_some_iff.1 (Option.some_get linkUp_runs).symm
  have hok : BlockEvent.Ok nameDirState (.call (.writei 1 0 (direntBytes 1 [46, 46]))) :=
    ⟨hmine, by decide⟩
  have hreach := (hdir.tail hok hwrite).runs (fun e he u => by fin_cases he; trivial) hrest
  exact hreach.invariant smallDisk_blocksOk fun _ _ _ => blocksOk_step

/-- An entry leads from one of the directories to the other. -/
theorem twoDirs_child {j n : ℕ} {name : List Byte} (hj : j = 1 ∨ j = 2)
    (h : twoDirs.child j name = some n) : n = 1 ∨ n = 2 := by
  have hentries : ∀ j ∈ [1, 2], (direntsOf (twoDirs.fileOf j)).all
      (fun e => e.inum = 1 ∨ e.inum = 2) = true := by decide +kernel
  have hmem : j ∈ [1, 2] := by
    rcases hj with rfl | rfl
    · exact List.mem_cons_self
    · exact List.mem_cons_of_mem _ List.mem_cons_self
  rw [Fs.child] at h
  split_ifs at h
  obtain ⟨m, hm, rfl⟩ := Option.map_eq_some_iff.1 h
  obtain ⟨i, -, hi⟩ := Option.bind_eq_some_iff.1 hm
  obtain ⟨e, he, rfl⟩ := Option.map_eq_some_iff.1 hi
  rcases of_decide_eq_true
    (List.all_eq_true.1 (hentries j hmem) e (List.mem_of_getElem? he)) with h1 | h2
  · rw [h1]
    exact .inl rfl
  · rw [h2]
    exact .inr rfl

theorem twoDirs_walk {names : List (List Byte)} {i j : ℕ} (hi : i = 1 ∨ i = 2)
    (h : twoDirs.walk i names = some j) : j = 1 ∨ j = 2 := by
  induction names generalizing i with
  | nil =>
    obtain rfl : i = j := Option.some.inj h
    exact hi
  | cons name names ih =>
    rw [walk_cons] at h
    obtain ⟨n, hn, h⟩ := Option.bind_eq_some_iff.1 h
    exact ih (twoDirs_child hi hn) h

theorem twoDirs_tree : twoDirs.Tree 1 := by
  refine ⟨twoDirs_blocksOk, by decide +kernel, fun names j hj => ?_⟩
  obtain rfl | rfl := twoDirs_walk (.inl rfl) hj
  · exact ⟨by decide +kernel, by decide +kernel, .inr ⟨0, by decide +kernel, by decide +kernel⟩,
      fun _ => by decide +kernel⟩
  · exact ⟨by decide +kernel, by decide +kernel, .inr ⟨1, by decide +kernel, by decide +kernel⟩,
      fun _ => by decide +kernel⟩

/-- `"/a/../a"`. -/
def pathUp : List Byte := [47, 97, 47, 46, 46, 47, 97]

/-- The lookup of `/a/../a`, and of its parent. -/
theorem path_lookup_folds_up :
    (∃ r s, namei (some 0) pathUp twoDirs = .ok (r, s) ∧ Reached twoDirs (some 2) r s) ∧
    ∃ r s, nameiparent (some 0) pathUp twoDirs = .ok (r, s) ∧
      ReachedParent twoDirs (some (1, [97])) r s := by
  have hroot : twoDirs.startOf 0 pathUp = 1 := rfl
  have hspare : twoDirs.Spare :=
    ⟨2, by decide, 3, by decide, by decide, by decide +kernel, by decide +kernel⟩
  have hwalk : twoDirs.walk 1 (components pathUp) = some 2 := by decide +kernel
  have hparent : twoDirs.parent 1 (components pathUp) = some (1, [97]) := by decide +kernel
  obtain ⟨-, ⟨hname, -⟩, hup, -⟩ :=
    path_lookup_folds 0 pathUp (hroot.symm ▸ twoDirs_tree) (by decide +kernel)
  rw [hroot, hwalk] at hname
  rw [hroot, hparent] at hup
  exact ⟨(hname.weaken fun e he => he.2 hspare).exists_ok,
    (hup.weaken fun e he => he.2 hspare).exists_ok⟩

end

end Xv6
