import Xv6.Mount

/-!
# Paths of an image

The kernel looks up `/name` in the image: `namei` scans the root directory for the entry of the
file, and `readi` returns the bytes of the file of the host.  Both programs cut names to `DIRSIZ`
bytes, so the names must differ there.  The scan stops at the entry and never comes to the end of
the directory, where a block may be missing.
-/

namespace Xv6.Mkfs

open Bytes Wp

/-! ### The root directory -/

/-- The entries of files, from inode `m` on. -/
def fileEntries : ℕ → List HostFile → List (U16 × List Byte)
  | _, [] => []
  | m, f :: fs => (BitVec.ofNat 16 m, f.name) :: fileEntries (m + 1) fs

/-- The entries of the root directory. -/
def dirents (files : List HostFile) : List (U16 × List Byte) :=
  (1, dot) :: (1, dotdot) :: fileEntries 2 files

theorem entries_eq (m : ℕ) (fs : List HostFile) :
    entries m fs = (fileEntries m fs).flatMap fun e => direntBytes e.1 e.2 := by
  induction fs generalizing m with
  | nil => rfl
  | cons f fs ih => rw [entries, fileEntries, List.flatMap_cons, ih]

theorem rootBytes_eq (files : List HostFile) :
    rootBytes files = (dirents files).flatMap fun e => direntBytes e.1 e.2 := by
  rw [rootBytes, dirents, List.flatMap_cons, List.flatMap_cons, entries_eq, List.append_assoc]

/-- Record `k` of a list of records of `w` bytes. -/
theorem take_drop_flatMap {α : Type} (enc : α → List Byte) {w : ℕ} (hw : ∀ e, (enc e).length = w)
    {es : List α} {k : ℕ} {e : α} (hk : es[k]? = some e) :
    ((es.flatMap enc).drop (w * k)).take w = enc e := by
  induction es generalizing k with
  | nil => cases hk
  | cons a es ih =>
    rw [List.flatMap_cons]
    cases k with
    | zero =>
      obtain rfl : a = e := Option.some.inj hk
      rw [Nat.mul_zero, List.drop_zero, List.take_append_of_le_length (hw a).ge, ← hw a,
        List.take_length]
    | succ k =>
      have hlen : w * (k + 1) = (enc a).length + w * k := by
        rw [hw, Nat.mul_succ, Nat.add_comm]
      rw [hlen, List.drop_length_add_append]
      exact ih hk

theorem fileEntries_getElem? {m k : ℕ} {fs : List HostFile} {f : HostFile} (hk : fs[k]? = some f) :
    (fileEntries m fs)[k]? = some (BitVec.ofNat 16 (m + k), f.name) := by
  induction fs generalizing m k with
  | nil => cases hk
  | cons g fs ih =>
    cases k with
    | zero =>
      obtain rfl : g = f := Option.some.inj hk
      rfl
    | succ k =>
      rw [fileEntries, List.getElem?_cons_succ, ih hk, show m + 1 + k = m + (k + 1) by omega]

theorem fileEntries_names (m : ℕ) (fs : List HostFile) :
    (fileEntries m fs).map Prod.snd = fs.map HostFile.name := by
  induction fs generalizing m with
  | nil => rfl
  | cons f fs ih => rw [fileEntries, List.map_cons, List.map_cons, ih]

theorem HostFile.name_nonzero (f : HostFile) : ∀ b ∈ f.name, b ≠ 0 := by
  have hshort : ∀ b ∈ f.shortname, b ≠ 0 := by
    intro b hb
    unfold HostFile.shortname at hb
    split_ifs at hb
    · exact f.nonzero b (List.mem_of_mem_drop hb)
    · exact f.nonzero b hb
  intro b hb
  unfold HostFile.name at hb
  split_ifs at hb
  · exact hshort b (List.mem_of_mem_drop hb)
  · exact hshort b hb

theorem dirents_nonzero (files : List HostFile) {e : U16 × List Byte} (he : e ∈ dirents files) :
    ∀ b ∈ e.2, b ≠ 0 := by
  have hname : e.2 ∈ dot :: dotdot :: files.map HostFile.name := by
    have := List.mem_map_of_mem (f := Prod.snd) he
    rwa [dirents, List.map_cons, List.map_cons, fileEntries_names] at this
  rcases List.mem_cons.1 hname with hn | hn
  · rw [hn]
    decide
  rcases List.mem_cons.1 hn with hn | hn
  · rw [hn]
    decide
  obtain ⟨f, -, hf⟩ := List.mem_map.1 hn
  rw [← hf]
  exact f.name_nonzero

/-! ### Directory entries -/

/-- An entry has the name that was stored in it, cut to `DIRSIZ` bytes. -/
theorem namecmp_direntBytes (inum : U16) {name : List Byte} (h : ∀ b ∈ name, b ≠ 0)
    (x : List Byte) :
    namecmp x ((direntBytes inum name).drop 2) = decide (cstr DIRSIZ x = name.take DIRSIZ) := by
  rw [Bool.eq_iff_iff, namecmp_iff, decide_eq_true_iff, direntBytes_name inum h]

/-! ### Lookup -/

section

variable {files : List HostFile} {N : ℕ → Din} {c : ℕ → List Byte} {s : State} {fs : Fs}
  {E : Stop → Prop} {dp : ℕ}

theorem Image.root_type_ne (h : Image files N c s) : (N 1).type ≠ 0 := by
  rw [h.type_root]
  decide

theorem length_fileEntries (m : ℕ) (fs : List HostFile) :
    (fileEntries m fs).length = fs.length := by
  induction fs generalizing m with
  | nil => rfl
  | cons f fs ih => rw [fileEntries, List.length_cons, List.length_cons, ih]

/-- An entry of the root directory lies inside its contents. -/
theorem Image.entry_le (h : Image files N c s) {k : ℕ} {e : U16 × List Byte}
    (hk : (dirents files)[k]? = some e) : 16 * k + 16 ≤ (c 1).length := by
  have hlt := (List.getElem?_eq_some_iff.1 hk).1
  rw [dirents, List.length_cons, List.length_cons, length_fileEntries] at hlt
  rw [h.root, length_rootBytes]
  omega

/-- Reading an entry of the root directory. -/
theorem Image.readi_entry (h : Image files N c s) (hm : Mounted s fs)
    (hi : Locked (N 1) ROOTDEV ROOTINO (fs.itable dp)) {k : ℕ} {e : U16 × List Byte}
    (hk : (dirents files)[k]? = some e) :
    wp (readi dp (BitVec.ofNat 32 (16 * k)) 16) E
      (fun bs fs' => fs' = fs ∧ bs = direntBytes e.1 e.2) fs := by
  have hle := h.entry_le hk
  have hmax := h.built.length_le h.root_type_ne
  have hnum : MAXFILE * BSIZE = 274432 := rfl
  have hoff : (BitVec.ofNat 32 (16 * k)).toNat = 16 * k := by
    rw [BitVec.toNat_ofNat]
    omega
  have h16 : (16 : U32).toNat = 16 := rfl
  have hwrap : (BitVec.ofNat 32 (16 * k)).toNat + (16 : U32).toNat < 2 ^ 32 := by
    rw [hoff, h16]
    omega
  have hin : min ((BitVec.ofNat 32 (16 * k)).toNat + (16 : U32).toNat) (N 1).size.toNat ≤
      (c 1).length := by
    rw [hoff, h16]
    omega
  have hbytes : ((c 1).drop (16 * k)).take 16 = direntBytes e.1 e.2 := by
    have hw (e : U16 × List Byte) : (direntBytes e.1 e.2).length = 16 := length_direntBytes e.1 e.2
    have hrec := take_drop_flatMap (fun e : U16 × List Byte => direntBytes e.1 e.2) hw hk
    rw [h.root, rootBytes_eq, hrec]
  refine (h.readi_contents hm h.root_type_ne hi.dinode hwrap hin).mono fun bs fs' hbs => ?_
  rw [hoff, h16, hbytes] at hbs
  exact hbs

/-- The loop of `dirlookup` finds entry `t`, if it is the first of its name. -/
theorem Image.dirlookupFrom_finds {Q : Option ℕ → Fs → Prop} (h : Image files N c s)
    (hm : Mounted s fs) (hi : Locked (N 1) ROOTDEV ROOTINO (fs.itable dp)) {t : ℕ} {inum : U16}
    {name : List Byte} (ht : (dirents files)[t]? = some (inum, name)) (h0 : inum ≠ 0)
    (hfirst : ∀ k < t, ∀ e, (dirents files)[k]? = some e → e.2.take DIRSIZ ≠ name.take DIRSIZ)
    (hget : wp (iget ROOTDEV (inum.setWidth 32)) E (fun ip fs' => Q (some ip) fs') fs) {fuel k : ℕ}
    (hk : k ≤ t) (hfuel : t < fuel + k) :
    wp (dirlookupFrom dp (name.take DIRSIZ) fuel (BitVec.ofNat 32 (16 * k))) E Q fs := by
  induction fuel generalizing k with
  | zero => omega
  | succ fuel ih =>
    obtain ⟨e, he⟩ : ∃ e, (dirents files)[k]? = some e := by
      have hlt := (List.getElem?_eq_some_iff.1 ht).1
      exact ⟨_, List.getElem?_eq_getElem (lt_of_le_of_lt hk hlt)⟩
    have hle := h.entry_le he
    have hsize := h.length_le_size h.root_type_ne
    have hisize : (fs.itable dp).size = (N 1).size := congrArg Dinode.size hi.dinode
    have hnot : ¬ (fs.itable dp).size ≤ BitVec.ofNat 32 (16 * k) := by
      rw [hisize, BitVec.le_def, BitVec.toNat_ofNat]
      omega
    rw [dirlookupFrom, wp_bind, wp_getInode, wp_ite, if_neg hnot, wp_bind]
    refine (h.readi_entry hm hi he).mono ?_
    rintro bs fs' ⟨rfl, rfl⟩
    have hnames := namecmp_direntBytes e.1
      (dirents_nonzero files (List.mem_of_getElem? he)) (name.take DIRSIZ)
    rw [cstr_of_nonzero (fun b hb => dirents_nonzero files (List.mem_of_getElem? ht) b
      (List.mem_of_mem_take hb)), List.take_take, min_self] at hnames
    rw [wp_bind, wp_panicIf, if_neg (not_not.2 (length_direntBytes e.1 e.2)),
      loadW_direntBytes, wp_ite, hnames]
    by_cases hkt : k = t
    · -- the entry itself
      obtain rfl : (inum, name) = e := by
        rw [hkt, ht] at he
        exact Option.some.inj he
      rw [if_pos ⟨h0, by simp⟩, wp_bind, hi.dev]
      exact hget
    · have hne := hfirst k (by omega) e he
      rw [if_neg fun hc => hne (of_decide_eq_true hc.2).symm]
      have hoff : BitVec.ofNat 32 (16 * k) + 16 = BitVec.ofNat 32 (16 * (k + 1)) := by
        rw [Nat.mul_succ, BitVec.ofNat_add]
        rfl
      rw [hoff]
      exact ih (by omega) (by omega)

/-- `dirlookup` in the root directory. -/
theorem Image.dirlookup_finds {Q : Option ℕ → Fs → Prop} (h : Image files N c s)
    (hm : Mounted s fs) (hi : Locked (N 1) ROOTDEV ROOTINO (fs.itable dp)) {t : ℕ} {inum : U16}
    {name : List Byte} (ht : (dirents files)[t]? = some (inum, name)) (h0 : inum ≠ 0)
    (hfirst : ∀ k < t, ∀ e, (dirents files)[k]? = some e → e.2.take DIRSIZ ≠ name.take DIRSIZ)
    (hget : wp (iget ROOTDEV (inum.setWidth 32)) E (fun ip fs' => Q (some ip) fs') fs) :
    wp (dirlookup dp (name.take DIRSIZ)) E Q fs := by
  have htype : (fs.itable dp).type = T_DIR := (congrArg Dinode.type hi.dinode).trans h.type_root
  have hisize : (fs.itable dp).size = (N 1).size := congrArg Dinode.size hi.dinode
  have hle := h.entry_le ht
  have hsize := h.length_le_size h.root_type_ne
  rw [dirlookup, wp_bind, wp_getInode, wp_bind, wp_panicIf, if_neg (not_not.2 htype), hisize]
  exact h.dirlookupFrom_finds hm hi ht h0 hfirst hget (Nat.zero_le t) (by omega)

/-- `iunlockput` of an inode that has links. -/
theorem iunlockput_linked {d : Din} {x y : U32} (hi : Locked d x y (fs.itable dp))
    (hn : d.nlink ≠ 0) :
    wp (iunlockput dp) E (fun _ fs' => ∃ i, fs' = fs.withInode dp i ∧ i.ref = 0) fs := by
  have hnot : ¬ ((!(fs.itable dp).locked) = true ∨ (fs.itable dp).ref < 1) := by
    rw [hi.locked, hi.ref]
    simp
  rw [iunlockput, wp_bind, iunlock, wp_bind, wp_getInode, wp_bind, wp_panicIf, if_neg hnot,
    wp_setInode, iput, wp_bind, wp_getInode, withInode_self]
  dsimp only
  rw [if_neg fun hc => hn (hi.nlink.symm.trans hc.2.2),
    wp_setInode, withInode_self, withInode_withInode]
  exact ⟨_, rfl, by rw [hi.ref]; rfl⟩

/-- The only element of a path. -/
theorem skipelem_root {name : List Byte} (hne : name ≠ []) (hslash : slash ∉ name) :
    skipelem (slash :: name) = some (name.take DIRSIZ, []) := by
  have hno : ∀ b ∈ name, b ≠ slash := fun b hb he => hslash (he ▸ hb)
  have hdrop : (slash :: name).dropWhile (· = slash) = name := by
    rw [List.dropWhile_cons_of_pos (by simp)]
    cases name with
    | nil => rfl
    | cons b bs => rw [List.dropWhile_cons_of_neg (by simpa using hno b List.mem_cons_self)]
  have htake : name.takeWhile (· ≠ slash) = name :=
    List.takeWhile_eq_self_iff.2 fun b hb => by simpa using hno b hb
  have hrest : name.dropWhile (· ≠ slash) = [] :=
    List.dropWhile_eq_nil_iff.2 fun b hb => by simpa using hno b hb
  unfold skipelem
  rw [hdrop]
  cases name with
  | nil => exact absurd rfl hne
  | cons b bs =>
    dsimp only
    rw [htake, hrest]
    rfl

/-- `namei` of `/name`, for an entry of the root directory. -/
theorem Image.namei_finds (h : Image files N c s) (hm : Mounted s fs)
    (htab : fs.itable = fun _ => noInode) (cwd : Option ℕ) {t : ℕ} {inum : U16} {name : List Byte}
    (ht : (dirents files)[t]? = some (inum, name)) (h1 : 1 < inum.toNat)
    (hfirst : ∀ k < t, ∀ e, (dirents files)[k]? = some e → e.2.take DIRSIZ ≠ name.take DIRSIZ)
    (hne : name ≠ []) (hslash : slash ∉ name) :
    wp (namei cwd (slash :: name)) E (fun r fs' => r = some 1 ∧ Mounted s fs' ∧
      (fs'.itable 1).inum.toNat = inum.toNat ∧ (fs'.itable 1).ref = 1 ∧
      (fs'.itable 1).locked = false ∧ (fs'.itable 1).valid = false ∧ (fs'.itable 1).dev = ROOTDEV)
      fs := by
  have h0 (ip : ℕ) : fs.itable ip = noInode := by rw [htab]
  have hroot : (N ROOTINO.toNat).type ≠ 0 := h.root_type_ne
  unfold namei nameiStart
  rw [List.head?_cons, if_pos rfl]
  simp only [namexFrom, skipelem_root hne hslash]
  refine h.open_first hm htab hroot fun i (hi : Locked (N 1) ROOTDEV ROOTINO i) => ?_
  have hm₁ := hm.withInode 0 i
  have hself := withInode_self fs 0 i
  have htype : i.type = T_DIR := (congrArg Dinode.type hi.dinode).trans h.type_root
  rw [wp_bind, wp_getInode, hself, wp_ite, if_neg (not_not.2 htype), wp_bind]
  have hinum : (inum.setWidth 32).toNat = inum.toNat := by
    rw [BitVec.toNat_setWidth]
    omega
  have hi0 : Locked (N 1) ROOTDEV ROOTINO ((fs.withInode 0 i).itable 0) := hself.symm ▸ hi
  have hother (kp : ℕ) (hk : kp ≠ 0) : (fs.withInode 0 i).itable kp = noInode := by
    rw [withInode_of_ne fs i hk, h0]
  refine h.dirlookup_finds hm₁ hi0 ht (fun he => ?_) hfirst ?_
  · rw [he] at h1
    exact absurd h1 (by decide)
  -- the file gets the second entry of the table
  refine (iget_new 1 (by decide) ?_ (fun kp hk => ?_) fun kp hk => ?_).mono ?_
  · rw [hother 1 (by decide)]
    rfl
  · obtain rfl : kp = 0 := by omega
    rw [hself, hi.ref]
    decide
  · by_cases hk0 : kp = 0
    · rw [hk0, hself, hi.inum]
      intro he
      rw [← hinum, ← he] at h1
      exact absurd h1 (by decide)
    · rw [hother kp hk0] at hk
      exact absurd hk (lt_irrefl _)
  rintro ip fs₂ ⟨hip, rfl⟩
  subst hip
  dsimp only
  rw [wp_bind]
  refine (iunlockput_linked (d := N 1) (x := ROOTDEV) (y := ROOTINO) ?_ ?_).mono ?_
  · rw [withInode_of_ne _ _ (by decide)]
    exact hi0
  · rw [h.nlink 1 h.root_type_ne]
    decide
  rintro - fs₃ ⟨i', rfl, -⟩
  have hend : namexFrom (slash :: name).length 1 [] = pure (some 1) := rfl
  have hit : (((fs.withInode 0 i).withInode 1 { (fs.withInode 0 i).itable 1 with
        dev := ROOTDEV, inum := inum.setWidth 32, ref := 1, valid := false }).withInode
        0 i').itable 1 =
      { noInode with dev := ROOTDEV, inum := inum.setWidth 32, ref := 1, valid := false } := by
    rw [withInode_of_ne _ _ (by decide), withInode_self, hother 1 (by decide)]
  rw [hend, wp_pure, hit]
  exact ⟨rfl, (hm₁.withInode _ _).withInode _ _, hinum, rfl, rfl, rfl, rfl⟩

/-- The names that tell the files apart: not empty, without `/`, and different in the bytes that are
stored, also from `.` and `..`. -/
structure GoodNames (files : List HostFile) : Prop where
  nonempty : ∀ f ∈ files, f.name ≠ []
  noSlash : ∀ f ∈ files, slash ∉ f.name
  distinct : (dot :: dotdot :: files.map fun f => f.name.take DIRSIZ).Nodup

/-- The entry of a file is the first of its name. -/
theorem GoodNames.first (hg : GoodNames files) {k : ℕ} {f : HostFile}
    (hk : files[k]? = some f) {j : ℕ} (hj : j < k + 2) {e : U16 × List Byte}
    (he : (dirents files)[j]? = some e) : e.2.take DIRSIZ ≠ f.name.take DIRSIZ := by
  have hlist : (dirents files).map (fun e => e.2.take DIRSIZ) =
      dot :: dotdot :: files.map fun f => f.name.take DIRSIZ := by
    have hfile : (fileEntries 2 files).map (fun e => e.2.take DIRSIZ) =
        files.map fun f => f.name.take DIRSIZ := by
      rw [← Function.comp_def (List.take DIRSIZ) Prod.snd, ← List.map_map, fileEntries_names,
        List.map_map]
      rfl
    rw [dirents, List.map_cons, List.map_cons, hfile]
    rfl
  have hk2 : ((dirents files).map fun e => e.2.take DIRSIZ)[k + 2]? =
      some (f.name.take DIRSIZ) := by
    rw [hlist, List.getElem?_cons_succ, List.getElem?_cons_succ, List.getElem?_map, hk,
      Option.map_some]
  have hj2 : ((dirents files).map fun e => e.2.take DIRSIZ)[j]? = some (e.2.take DIRSIZ) := by
    rw [List.getElem?_map, he, Option.map_some]
  have hnodup := hg.distinct
  rw [← hlist] at hnodup
  intro hsame
  rw [hsame] at hj2
  have hinj := (List.getElem?_inj (List.getElem?_eq_some_iff.1 hj2).1 hnodup).1 (hj2.trans hk2.symm)
  omega

/-- `mkfs` and the kernel agree on the format: if `mkfs` exits with 0, the kernel finds every file
under its name, as a `T_FILE` with the bytes of the file of the host. -/
theorem mkfs_readable (hn : files.length ≤ NINODES - 2) (hg : GoodNames files)
    (hok : mkfs files start = .ok ((), s)) :
    ∃ fs, fsinit s.sect = .ok fs ∧ ∀ f ∈ files, ∀ cwd, ∃ ip fs₁ fs₂,
      namei cwd (slash :: f.name) fs = .ok (some ip, fs₁) ∧ ilock ip fs₁ = .ok ((), fs₂) ∧
      (fs₂.itable ip).type = T_FILE ∧ (fs₂.itable ip).size.toNat = f.bytes.length ∧
      ∀ off n : U32, off.toNat + n.toNat < 2 ^ 32 →
        readi ip off n fs₂ = .ok ((f.bytes.drop off.toNat).take n.toNat, fs₂) := by
  obtain ⟨N, c, h⟩ := image_of_ok hn hok
  obtain ⟨fs, hfs, hm, htab⟩ := h.mount
  refine ⟨fs, hfs, fun f hf cwd => ?_⟩
  obtain ⟨k, hk⟩ := List.mem_iff_getElem?.1 hf
  have hklt := (List.getElem?_eq_some_iff.1 hk).1
  have hN : NINODES = 200 := rfl
  have hinum : (BitVec.ofNat 16 (2 + k)).toNat = 2 + k := by
    rw [BitVec.toNat_ofNat]
    omega
  have hent : (dirents files)[k + 2]? = some (BitVec.ofNat 16 (2 + k), f.name) := by
    rw [dirents, List.getElem?_cons_succ, List.getElem?_cons_succ, fileEntries_getElem? hk]
  have htype := h.type_file (2 + k) (by omega) (by omega)
  have ht : (N (2 + k)).type ≠ 0 := by
    rw [htype]
    decide
  have hbytes := h.bytes k f hk
  have hsize : (N (2 + k)).size.toNat = (c (2 + k)).length := h.size_file _ (by omega) ht
  -- the path
  have hname := h.namei_finds (E := fun _ => False) hm htab cwd hent (by omega)
    (fun j hj e he => hg.first hk hj he) (hg.nonempty f hf) (hg.noSlash f hf)
  obtain ⟨r, fs₁, hrun₁, rfl, hm₁, hin₁, href₁, hlock₁, hv₁, -⟩ := hname.exists_ok
  -- the inode
  have hlocked := h.ilock_new (E := fun _ => False) hm₁ ht (hin₁.trans hinum) href₁ hlock₁ hv₁
  obtain ⟨_, fs₂, hrun₂, i, rfl, hi⟩ := hlocked.exists_ok
  have hself := withInode_self fs₁ 1 i
  have hd : ((fs₁.withInode 1 i).itable 1).dinode = (N (2 + k)).dinode := by
    rw [hself]
    exact hi.dinode
  refine ⟨1, fs₁, _, hrun₁, hrun₂, ?_, ?_, fun off n hwrap => ?_⟩
  · exact (congrArg Dinode.type hd).trans htype
  · rw [← hbytes, ← hsize]
    exact congrArg (fun d => d.size.toNat) hd
  · -- the bytes
    have hread := h.readi_contents (E := fun _ => False) (hm₁.withInode 1 i) ht hd hwrap
      (hsize ▸ Nat.min_le_right _ _)
    obtain ⟨bs, fs₃, hrun₃, rfl, rfl⟩ := hread.exists_ok
    rw [hrun₃, hbytes]

end

/-- The file `user/_cat` is found as `/cat`. -/
theorem mkfs_readable_catFile : ∃ s, mkfs [catFile] start = .ok ((), s) ∧
    ∃ fs, fsinit s.sect = .ok fs ∧ ∃ ip fs₁ fs₂,
      namei none [slash, 99, 97, 116] fs = .ok (some ip, fs₁) ∧ ilock ip fs₁ = .ok ((), fs₂) ∧
      readi ip 0 10 fs₂ = .ok ([1, 2, 3], fs₂) := by
  obtain ⟨s, -, -, hok, -⟩ := mkfs_ok (by decide) fits_catFile
  have hg : GoodNames [catFile] := ⟨by decide, by decide, by decide⟩
  obtain ⟨fs, hfs, hall⟩ := mkfs_readable (by decide) hg hok
  obtain ⟨ip, fs₁, fs₂, h1, h2, -, -, h3⟩ := hall catFile List.mem_cons_self none
  exact ⟨s, hok, fs, hfs, ip, fs₁, fs₂, h1, h2, h3 0 10 (by decide)⟩

end Xv6.Mkfs
