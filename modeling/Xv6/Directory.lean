import Xv6.FileArray
import Xv6.Lib.SlotMap

/-!
# A directory is a finite map

The contents of a directory are 16-byte entries, an inode number and a name of at most `DIRSIZ`
bytes that need not end with a zero; entries whose number is 0 are free.  While the names of the
other entries are distinct the directory is a finite map from names, cut to `DIRSIZ` bytes, to inode
numbers (`Fs.names`).  `dirlookup` looks a name up in it, `dirlink` adds a name, and storing zeros
over the entry that `dirlookup` has found removes one (`directory_is_map`).
-/

namespace Xv6

open Bytes Wp SlotMap

/-- `struct dirent`. -/
structure Dirent where
  inum : U16
  name : List Byte

namespace Dirent

/-- The entry is in use. -/
def live (e : Dirent) : Bool := e.inum ≠ 0

/-- The name, as `namecmp` sees it. -/
def key (e : Dirent) : List Byte := cstr DIRSIZ e.name

/-- An entry, as it is read. -/
def ofBytes (de : List Byte) : Dirent := ⟨loadW 16 (fun i => de.getD i 0) 0, de.drop 2⟩

end Dirent

/-- Bytes `16 * k` to `16 * k + 15`. -/
def chunk (c : List Byte) (k : ℕ) : List Byte := (c.drop (16 * k)).take 16

/-- The entries of a directory with contents `c`. -/
def direntsOf (c : List Byte) : List Dirent :=
  (List.range (c.length / 16)).map fun k => .ofBytes (chunk c k)

theorem getElem?_direntsOf (c : List Byte) (k : ℕ) :
    (direntsOf c)[k]? = if k < c.length / 16 then some (.ofBytes (chunk c k)) else none := by
  rw [direntsOf, List.getElem?_map]
  split_ifs with hk
  · rw [List.getElem?_range hk, Option.map_some]
  · rw [List.getElem?_eq_none (by simpa using hk), Option.map_none]

theorem length_chunk {c : List Byte} {k : ℕ} (hk : k < c.length / 16) :
    (chunk c k).length = 16 := by
  rw [chunk, List.length_take, List.length_drop]
  omega

/-- An entry is written, over another one or at the end. -/
theorem chunk_splice {c bs : List Byte} {i : ℕ} (hi : 16 * i ≤ c.length) (hbs : bs.length = 16)
    (k : ℕ) : chunk (splice c (16 * i) bs) k = if k = i then bs else chunk c k := by
  have htake : (c.take (16 * i)).length = 16 * i := by
    rw [List.length_take]
    omega
  rw [chunk, splice, hbs, List.append_assoc]
  rcases Nat.lt_trichotomy k i with hk | rfl | hk
  · rw [if_neg hk.ne, List.drop_append_of_le_length (by omega), List.take_append_of_le_length
      (by rw [List.length_drop]; omega), chunk, List.drop_take, List.take_take,
      min_eq_left (by omega)]
  · rw [if_pos rfl, List.drop_left' htake, List.take_left' hbs]
  · obtain ⟨m, rfl⟩ : ∃ m, k = i + 1 + m := ⟨k - (i + 1), by omega⟩
    have hpast : (c.take (16 * i) ++ bs).length = 16 * (i + 1) := by
      rw [List.length_append, htake, hbs]
      omega
    have hdrop : 16 * i + 16 + (16 * (i + 1 + m) - 16 * (i + 1)) = 16 * (i + 1 + m) := by omega
    rw [if_neg (by omega), ← List.append_assoc, List.drop_append, hpast,
      List.drop_eq_nil_of_le (by omega), List.nil_append, List.drop_drop, hdrop, chunk]

/-- The entries after one has been written. -/
theorem direntsOf_splice {c bs : List Byte} {i : ℕ} (hi : 16 * i ≤ c.length) (hc : 16 ∣ c.length)
    (hbs : bs.length = 16) : (direntsOf (splice c (16 * i) bs))[i]? = some (.ofBytes bs) ∧
      ∀ j, j ≠ i → (direntsOf (splice c (16 * i) bs))[j]? = (direntsOf c)[j]? := by
  obtain ⟨n, hn⟩ := hc
  have hlen : (splice c (16 * i) bs).length = max c.length (16 * i + 16) := by
    rw [splice, List.length_append, List.length_append, List.length_take, List.length_drop, hbs]
    omega
  refine ⟨?_, fun j hj => ?_⟩
  · rw [getElem?_direntsOf, if_pos (by omega), chunk_splice hi hbs, if_pos rfl]
  · rw [getElem?_direntsOf, getElem?_direntsOf, chunk_splice hi hbs, if_neg hj]
    have hiff : j < (splice c (16 * i) bs).length / 16 ↔ j < c.length / 16 := by omega
    rw [if_congr hiff rfl rfl]

theorem toNat_wide (n : U16) : (n.setWidth 32).toNat = n.toNat := by
  have := n.isLt
  rw [BitVec.toNat_setWidth, Nat.mod_eq_of_lt (by omega)]

/-! ### Reading -/

section

variable {fs : Fs} {dp : ℕ} {name : List Byte}

/-- The contents of files do not depend on the inode table. -/
theorem fileOf_congr {fs' : Fs} (hlog : fs'.log = fs.log) (hsb : fs'.sb = fs.sb) (j : ℕ) :
    fs'.fileOf j = fs.fileOf j := by
  obtain ⟨log, sb, t⟩ := fs
  obtain ⟨log', sb', t'⟩ := fs'
  cases hlog
  cases hsb
  rfl

/-- The entries of the directory `dp`. -/
def Fs.dirOf (fs : Fs) (dp : ℕ) : List Dirent := direntsOf (fs.fileOf (fs.itable dp).inum.toNat)

/-- The map of the directory `dp`: the inode number of a name, and the offset of its entry. -/
def Fs.names (fs : Fs) (dp : ℕ) (name : List Byte) : Option (U16 × U32) :=
  (find Dirent.live Dirent.key (fs.dirOf dp) (cstr DIRSIZ name)).bind fun i =>
    (fs.dirOf dp)[i]?.map fun e => (e.inum, BitVec.ofNat 32 (16 * i))

/-- What `dirlookup` does with the entry it finds. -/
def foundEntry (fs : Fs) (dp : ℕ) : Option (U16 × U32) → Except Stop (Option (ℕ × U32) × Fs)
  | none => .ok (none, fs)
  | some (inum, off) =>
    (do return some (← iget (fs.itable dp).dev (inum.setWidth 32), off) : F (Option (ℕ × U32))) fs

/-- The caller holds the inode of a directory. -/
structure Fs.HoldsDir (fs : Fs) (dp : ℕ) : Prop where
  blocks : fs.BlocksOk
  mine : fs.Mine dp
  type : (fs.itable dp).type = T_DIR
  whole : 16 ∣ (fs.itable dp).size.toNat

/-- The caller holds the inode of a directory with distinct names. -/
structure Fs.Directory (fs : Fs) (dp : ℕ) : Prop extends fs.HoldsDir dp where
  distinct : Distinct Dirent.live Dirent.key (fs.dirOf dp)

namespace Fs.HoldsDir

variable {fs' : Fs}

theorem length_file (h : fs.HoldsDir dp) :
    (fs.fileOf (fs.itable dp).inum.toNat).length = (fs.itable dp).size.toNat := by
  have hok : FsOk fs.dinode none fs := h.blocks
  rw [Fs.fileOf, List.length_map, List.length_range, hok.inCore_size h.mine.inCore]

theorem size_le (h : fs.HoldsDir dp) : (fs.itable dp).size.toNat ≤ 274432 := by
  have hok : FsOk fs.dinode none fs := h.blocks
  obtain ⟨-, ht, hi⟩ := hok.inCore h.mine.inCore
  rw [hok.inCore_size h.mine.inCore]
  exact hok.owned.size_le _ hi ht

/-- The offset of an entry. -/
theorem toNat_off (h : fs.HoldsDir dp) {k : ℕ} (hk : 16 * k ≤ (fs.itable dp).size.toNat) :
    (BitVec.ofNat 32 (16 * k)).toNat = 16 * k := by
  have := h.size_le
  rw [BitVec.toNat_ofNat]
  omega

/-- Reading an entry. -/
theorem readi_chunk (h : fs.HoldsDir dp) {k : ℕ} (hk : 16 * k < (fs.itable dp).size.toNat) :
    readi dp (BitVec.ofNat 32 (16 * k)) 16 fs =
      .ok (chunk (fs.fileOf (fs.itable dp).inum.toNat) k, fs) := by
  have hok : FsOk fs.dinode none fs := h.blocks
  have hoff := h.toNat_off hk.le
  have hsize := h.size_le
  have hspec := readi_array hok h.mine.inCore (BitVec.ofNat 32 (16 * k)) 16 (by
    rw [hoff, show (16 : U32).toNat = 16 from rfl]
    omega)
  obtain ⟨bs, fs', hrun, rfl, rfl⟩ := hspec.exists_ok
  rw [hrun, hoff]
  rfl

theorem length_dirOf (h : fs.HoldsDir dp) :
    16 * (fs.dirOf dp).length = (fs.itable dp).size.toNat := by
  obtain ⟨n, hn⟩ := h.whole
  rw [dirOf, direntsOf, List.length_map, List.length_range, h.length_file]
  omega

/-- Entry `k`, as the loops read it. -/
theorem getElem?_dirOf (h : fs.HoldsDir dp) {k : ℕ} (hk : k < (fs.dirOf dp).length) :
    (fs.dirOf dp)[k]? = some (.ofBytes (chunk (fs.fileOf (fs.itable dp).inum.toNat) k)) := by
  have hlen := h.length_dirOf
  rw [dirOf, getElem?_direntsOf, if_pos (by rw [h.length_file]; omega)]

theorem drop_dirOf (h : fs.HoldsDir dp) {k : ℕ} (hk : k < (fs.dirOf dp).length) :
    (fs.dirOf dp).drop k =
      .ofBytes (chunk (fs.fileOf (fs.itable dp).inum.toNat) k) :: (fs.dirOf dp).drop (k + 1) := by
  have hget := (List.getElem?_eq_getElem hk).symm.trans (h.getElem?_dirOf hk)
  rw [List.drop_eq_getElem_cons hk, Option.some.inj hget]

/-- One round of a loop over the entries. -/
theorem round {α : Type} (h : fs.HoldsDir dp) {k : ℕ} (hk : k ≤ (fs.dirOf dp).length) (msg : String)
    (done : F α) (f : Inode → List Byte → F α) :
    (do
      let d ← getInode dp
      if d.size ≤ BitVec.ofNat 32 (16 * k) then done
      else do
        let de ← readi dp (BitVec.ofNat 32 (16 * k)) 16
        panicIf (de.length ≠ 16) msg
        f d de) fs =
      if k < (fs.dirOf dp).length then
        f (fs.itable dp) (chunk (fs.fileOf (fs.itable dp).inum.toNat) k) fs
      else done fs := by
  have hlen := h.length_dirOf
  have hoff := h.toNat_off (k := k) (by omega)
  have hget : getInode dp fs = .ok (fs.itable dp, fs) := rfl
  rw [bind_of_ok hget]
  by_cases hlt : k < (fs.dirOf dp).length
  · have hchunk : (chunk (fs.fileOf (fs.itable dp).inum.toNat) k).length = 16 :=
      length_chunk (by rw [h.length_file]; omega)
    have hno : panicIf ((chunk (fs.fileOf (fs.itable dp).inum.toNat) k).length ≠ 16) msg fs =
        .ok ((), fs) := by
      rw [panicIf, if_neg (not_not.2 hchunk)]
      rfl
    rw [if_pos hlt, if_neg (by rw [BitVec.le_def, hoff]; omega),
      bind_of_ok (h.readi_chunk (by omega)), bind_of_ok hno]
  · rw [if_neg hlt, if_pos (by rw [BitVec.le_def, hoff]; omega)]

/-- The next offset. -/
theorem off_succ (k : ℕ) : BitVec.ofNat 32 (16 * k) + 16 = BitVec.ofNat 32 (16 * (k + 1)) := by
  rw [Nat.mul_succ, BitVec.ofNat_add]
  rfl

theorem dirlookupOffFrom_eq (h : fs.HoldsDir dp) (name : List Byte) (fuel : ℕ) {k : ℕ}
    (hk : k ≤ (fs.dirOf dp).length) (hfuel : (fs.dirOf dp).length < fuel + k) :
    dirlookupOffFrom dp name fuel (BitVec.ofNat 32 (16 * k)) fs =
      foundEntry fs dp ((find Dirent.live Dirent.key ((fs.dirOf dp).drop k) (cstr DIRSIZ name)).bind
        fun i => (fs.dirOf dp)[k + i]?.map fun e => (e.inum, BitVec.ofNat 32 (16 * (k + i)))) := by
  induction fuel generalizing k with
  | zero => omega
  | succ fuel ih =>
    rw [dirlookupOffFrom]
    refine (h.round hk "dirlookup read" (pure none) _).trans ?_
    by_cases hlt : k < (fs.dirOf dp).length
    · have hget := h.getElem?_dirOf hlt
      have hdrop := h.drop_dirOf hlt
      set de := chunk (fs.fileOf (fs.itable dp).inum.toNat) k with hde
      have hmatch :
          ((Dirent.ofBytes de).live && decide ((Dirent.ofBytes de).key = cstr DIRSIZ name)) = true ↔
            (loadW 16 (fun i => de.getD i 0) 0 : U16) ≠ 0 ∧ namecmp name (de.drop 2) = true := by
        rw [Bool.and_eq_true, decide_eq_true_iff, Dirent.live, decide_eq_true_iff, namecmp_iff]
        exact and_congr_right fun _ => eq_comm
      rw [if_pos hlt, hdrop, find, List.findIdx?_cons]
      by_cases hc : (loadW 16 (fun i => de.getD i 0) 0 : U16) ≠ 0 ∧ namecmp name (de.drop 2) = true
      · rw [if_pos (hmatch.2 hc), Option.bind_some, Nat.add_zero, hget]
        rw [if_pos hc]
        rfl
      · rw [if_neg (fun hm => hc (hmatch.1 hm))]
        rw [if_neg hc, off_succ, ih (by omega) (by omega), Option.bind_map]
        simp only [find, Function.comp_def, Nat.add_right_comm k 1, Nat.add_assoc]
    · rw [if_neg hlt, List.drop_eq_nil_of_le (not_lt.1 hlt)]
      rfl

/-- `dirlookup` looks the name up in the map. -/
theorem dirlookupOff_eq (h : fs.HoldsDir dp) (name : List Byte) :
    dirlookupOff dp name fs = foundEntry fs dp (fs.names dp name) := by
  have hlen := h.length_dirOf
  have hget : getInode dp fs = .ok (fs.itable dp, fs) := rfl
  have hno : panicIf ((fs.itable dp).type ≠ T_DIR) "dirlookup not DIR" fs = .ok ((), fs) := by
    rw [panicIf, if_neg (not_not.2 h.type)]
    rfl
  rw [dirlookupOff, bind_of_ok hget, bind_of_ok hno]
  have hloop := h.dirlookupOffFrom_eq name ((fs.itable dp).size.toNat / 16 + 1)
    (Nat.zero_le _) (by omega)
  simp only [List.drop_zero, Nat.zero_add] at hloop
  exact hloop

/-- What `dirlookup` returns: nothing, or the inode of the entry it finds. -/
theorem lookup_cases (h : fs.HoldsDir dp) {r : Option (ℕ × U32)}
    (hrun : dirlookupOff dp name fs = .ok (r, fs')) :
    (r = none ∧ fs.names dp name = none ∧ fs' = fs) ∨
      ∃ ip inum off, r = some (ip, off) ∧ fs.names dp name = some (inum, off) ∧
        iget (fs.itable dp).dev (inum.setWidth 32) fs = .ok (ip, fs') := by
  rw [h.dirlookupOff_eq] at hrun
  rcases hn : fs.names dp name with _ | ⟨inum, off⟩
  · rw [hn] at hrun
    cases hrun
    exact .inl ⟨rfl, rfl, rfl⟩
  · rw [hn, foundEntry] at hrun
    rcases hget : iget (fs.itable dp).dev (inum.setWidth 32) fs with e | ⟨ip, fs₁⟩
    · rw [bind_of_error hget] at hrun
      cases hrun
    · rw [bind_of_ok hget] at hrun
      cases hrun
      exact .inr ⟨ip, inum, off, rfl, rfl, hget⟩

theorem dirlinkSlot_eq (h : fs.HoldsDir dp) (fuel : ℕ) {k : ℕ} (hk : k ≤ (fs.dirOf dp).length)
    (hfuel : (fs.dirOf dp).length < fuel + k) :
    dirlinkSlot dp fuel (BitVec.ofNat 32 (16 * k)) fs =
      .ok (BitVec.ofNat 32 (16 * (k + ((fs.dirOf dp).drop k).findIdx fun e => !e.live)), fs) := by
  induction fuel generalizing k with
  | zero => omega
  | succ fuel ih =>
    rw [dirlinkSlot]
    refine (h.round hk "dirlink read" (pure _) _).trans ?_
    by_cases hlt : k < (fs.dirOf dp).length
    · rw [if_pos hlt, h.drop_dirOf hlt, List.findIdx_cons]
      set de := chunk (fs.fileOf (fs.itable dp).inum.toNat) k
      by_cases hc : (loadW 16 (fun i => de.getD i 0) 0 : U16) = 0
      · have hdead : (Dirent.ofBytes de).live = false := decide_eq_false (not_not.2 hc)
        rw [hdead, if_pos hc]
        rfl
      · have hlive : (Dirent.ofBytes de).live = true := decide_eq_true hc
        rw [hlive, if_neg hc, off_succ, ih (by omega) (by omega)]
        simp only [Bool.not_true, cond_false, Nat.add_right_comm k 1, Nat.add_assoc]
    · rw [if_neg hlt, List.drop_eq_nil_of_le (not_lt.1 hlt), List.findIdx_nil]
      rfl

end Fs.HoldsDir

/-- `dirlookup` without `poff`. -/
theorem dirlookupFrom_map (dp : ℕ) (name : List Byte) (fuel : ℕ) (off : U32) :
    dirlookupFrom dp name fuel off = Option.map Prod.fst <$> dirlookupOffFrom dp name fuel off := by
  induction fuel generalizing off with
  | zero => rfl
  | succ fuel ih =>
    rw [dirlookupFrom, dirlookupOffFrom]
    simp only [map_bind, ih]
    refine bind_congr fun d => ?_
    split_ifs
    · rfl
    · simp only [map_bind]
      refine bind_congr fun de => bind_congr fun _ => ?_
      split_ifs
      · simp only [map_bind, map_pure, Option.map_some]
      · rfl

theorem dirlookup_map (dp : ℕ) (name : List Byte) :
    dirlookup dp name = Option.map Prod.fst <$> dirlookupOff dp name := by
  rw [dirlookup, dirlookupOff]
  simp only [map_bind, dirlookupFrom_map]

theorem dirlookup_ok {r : Option ℕ} {fs' : Fs} (hrun : dirlookup dp name fs = .ok (r, fs')) :
    ∃ r', dirlookupOff dp name fs = .ok (r', fs') ∧ r = r'.map Prod.fst := by
  rw [dirlookup_map, map_eq_pure_bind] at hrun
  rcases hoff : dirlookupOff dp name fs with e | ⟨r', fs₁⟩
  · rw [bind_of_error hoff] at hrun
    cases hrun
  · rw [bind_of_ok hoff] at hrun
    cases hrun
    exact ⟨r', rfl, rfl⟩

namespace Fs.HoldsDir

theorem dirlookup_of_names (h : fs.HoldsDir dp) {inum : U16} {off : U32}
    (hn : fs.names dp name = some (inum, off)) :
    dirlookup dp name fs = (some <$> iget (fs.itable dp).dev (inum.setWidth 32)) fs := by
  have hoff := h.dirlookupOff_eq name
  rw [hn, foundEntry] at hoff
  rw [dirlookup_map, map_eq_pure_bind, map_eq_pure_bind]
  rcases hget : iget (fs.itable dp).dev (inum.setWidth 32) fs with e | ⟨ip, fs₁⟩
  · rw [bind_of_error hget] at hoff ⊢
    rw [bind_of_error hoff]
  · rw [bind_of_ok hget] at hoff ⊢
    exact bind_of_ok hoff

theorem dirlookup_of_missing (h : fs.HoldsDir dp) (hn : fs.names dp name = none) :
    dirlookup dp name fs = .ok (none, fs) := by
  have hoff := h.dirlookupOff_eq name
  rw [hn, foundEntry] at hoff
  rw [dirlookup_map, map_eq_pure_bind]
  exact bind_of_ok hoff

end Fs.HoldsDir

/-! ### References -/

/-- Nothing has changed but entries of the inode table that are not in use. -/
structure SameUsed (fs fs' : Fs) : Prop where
  log : fs'.log = fs.log
  sb : fs'.sb = fs.sb
  refs : ∀ jp, (fs'.itable jp).ref = (fs.itable jp).ref
  used : ∀ jp, 0 < (fs.itable jp).ref → fs'.itable jp = fs.itable jp

/-- What `iget` does: it counts a reference to the entry of the inode, or fills a free one. -/
def Got (fs : Fs) (dev inum : U32) (ip : ℕ) (fs' : Fs) : Prop :=
  (0 < (fs.itable ip).ref ∧ (fs.itable ip).dev = dev ∧ (fs.itable ip).inum = inum ∧
    fs' = fs.withInode ip { fs.itable ip with ref := (fs.itable ip).ref + 1 }) ∨
  ((fs.itable ip).ref = 0 ∧
    fs' = fs.withInode ip { fs.itable ip with dev := dev, inum := inum, ref := 1, valid := false })

theorem iget_spec (fs : Fs) (dev inum : U32) :
    wp (iget dev inum) (fun e => e = .panic "iget: no inodes" ∧ ∀ jp < NINODE,
      (fs.itable jp).ref ≠ 0) (Got fs dev inum) fs := by
  unfold iget
  rw [wp_bind, wp_get]
  dsimp only
  split
  · rename_i ip hfind
    have hknown := List.find?_some hfind
    rw [decide_eq_true_eq] at hknown
    rw [wp_bind, wp_setInode, wp_pure]
    exact .inl ⟨hknown.1, hknown.2.1, hknown.2.2, rfl⟩
  split
  · rename_i hnone
    refine ⟨rfl, fun jp hj => ?_⟩
    simpa using List.find?_eq_none.1 hnone jp (List.mem_range.2 hj)
  rename_i ip hfree
  rw [wp_bind, wp_setInode, wp_pure]
  exact .inr ⟨by simpa using List.find?_some hfree, rfl⟩

namespace Got

variable {dev inum : U32} {ip : ℕ} {fs' : Fs}

theorem same_log (h : Got fs dev inum ip fs') : fs'.log = fs.log ∧ fs'.sb = fs.sb := by
  obtain ⟨-, -, -, rfl⟩ | ⟨-, rfl⟩ := h <;> exact ⟨rfl, rfl⟩

/-- An entry in use keeps all but its count. -/
theorem used (h : Got fs dev inum ip fs') {jp : ℕ} (hj : 0 < (fs.itable jp).ref) :
    fs'.itable jp = { fs.itable jp with ref := (fs'.itable jp).ref } ∧ 0 < (fs'.itable jp).ref := by
  obtain ⟨-, -, -, rfl⟩ | ⟨h0, rfl⟩ := h
  · by_cases hjp : jp = ip
    · subst hjp
      rw [withInode_self]
      exact ⟨rfl, Int.lt_add_one_of_le hj.le⟩
    · rw [withInode_of_ne _ _ hjp]
      exact ⟨rfl, hj⟩
  · have hjp : jp ≠ ip := by
      rintro rfl
      omega
    rw [withInode_of_ne _ _ hjp]
    exact ⟨rfl, hj⟩

/-- The reference is given back. -/
theorem iput (h : Got fs dev inum ip fs') :
    ∃ fs'', iput ip fs' = .ok ((), fs'') ∧ SameUsed fs fs'' := by
  have hspec : wp (Xv6.iput ip) (fun _ => False) (fun _ fs'' => SameUsed fs fs'') fs' := by
    obtain ⟨hr, -, -, rfl⟩ | ⟨h0, rfl⟩ := h
    · rw [Xv6.iput, wp_bind, wp_getInode, withInode_self]
      dsimp only
      rw [if_neg (by omega), wp_setInode, withInode_self, withInode_withInode, add_sub_cancel_right]
      have hback : fs.withInode ip (fs.itable ip) = fs := by
        rw [Fs.withInode, Function.update_eq_self]
      rw [hback]
      exact ⟨rfl, rfl, fun _ => rfl, fun _ _ => rfl⟩
    · rw [Xv6.iput, wp_bind, wp_getInode, withInode_self]
      dsimp only
      rw [if_neg fun hc => Bool.false_ne_true hc.2.1,
        wp_setInode, withInode_self, withInode_withInode]
      refine ⟨rfl, rfl, fun jp => ?_, fun jp hj => ?_⟩
      · by_cases hjp : jp = ip
        · rw [hjp, withInode_self, h0]
          rfl
        · rw [withInode_of_ne _ _ hjp]
      · have hjp : jp ≠ ip := by
          rintro rfl
          omega
        rw [withInode_of_ne _ _ hjp]
  obtain ⟨⟨⟩, fs'', hrun, hs⟩ := hspec.exists_ok
  exact ⟨fs'', hrun, hs⟩

end Got

/-- The entry of the table that `iget` returns. -/
def Fs.slotFor (fs : Fs) (dev inum : U32) : Option ℕ :=
  ((List.range NINODE).find? fun i =>
    0 < (fs.itable i).ref ∧ (fs.itable i).dev = dev ∧ (fs.itable i).inum = inum).or
    ((List.range NINODE).find? fun i => (fs.itable i).ref = 0)

theorem iget_map_fst (fs : Fs) (dev inum : U32) : (iget dev inum fs).map Prod.fst =
    match fs.slotFor dev inum with
    | some ip => .ok ip
    | none => .error (.panic "iget: no inodes") := by
  have hget : (get : F Fs) fs = .ok (fs, fs) := rfl
  rw [iget, bind_of_ok hget, Fs.slotFor]
  cases (List.range NINODE).find? fun i =>
      decide (0 < (fs.itable i).ref ∧ (fs.itable i).dev = dev ∧ (fs.itable i).inum = inum) with
  | some ip => rfl
  | none =>
    cases (List.range NINODE).find? fun i => decide ((fs.itable i).ref = 0) with
    | some ip => rfl
    | none => rfl

/-- The same entry is returned when the table lists the same inodes. -/
theorem iget_map_fst_congr {fs' : Fs} (h : ∀ jp, SameHead (fs.itable jp) (fs'.itable jp))
    (dev inum : U32) : (iget dev inum fs').map Prod.fst = (iget dev inum fs).map Prod.fst := by
  rw [iget_map_fst, iget_map_fst]
  simp only [Fs.slotFor, (h _).ref, (h _).dev, (h _).inum]

/-! ### Linking and clearing -/

/-- The entry that `dirlink` takes: the first that is free, or one after the last. -/
def Fs.freeSlot (fs : Fs) (dp : ℕ) : ℕ := (fs.dirOf dp).findIdx fun e => !e.live

/-- Entry `i` of the directory `dp` has been written. -/
structure EntryWritten (fs : Fs) (dp i : ℕ) (bs : List Byte) (fs' : Fs) : Prop where
  blocks : fs'.BlocksOk
  heads : ∀ jp, SameHead (fs.itable jp) (fs'.itable jp)
  type : (fs'.itable dp).type = (fs.itable dp).type
  size : (fs'.itable dp).size.toNat = max (fs.itable dp).size.toNat (16 * (i + 1))
  entry : (fs'.dirOf dp)[i]? = some (.ofBytes bs)
  others : ∀ j, j ≠ i → (fs'.dirOf dp)[j]? = (fs.dirOf dp)[j]?

namespace Fs.Directory

variable {fs' : Fs}

/-- An entry is written, over another one or at the end. -/
theorem written (h : fs.Directory dp) {i : ℕ} (hi : i ≤ (fs.dirOf dp).length) {bs : List Byte}
    (hbs : bs.length = 16) (hw : writei dp (BitVec.ofNat 32 (16 * i)) bs fs = .ok (16, fs')) :
    EntryWritten fs dp i bs fs' := by
  have hok : FsOk fs.dinode none fs := h.blocks
  have hcore := h.mine.inCore
  have hlen := h.length_dirOf
  have hoff := h.toNat_off (k := i) (by omega)
  have hspec := (writei_total hok hcore (BitVec.ofNat 32 (16 * i)) (by omega)).ok hw
  rw [hoff] at hspec
  obtain ⟨-, hw, -⟩ | ⟨-, -, D', hok', hwr⟩ := hspec
  · cases hw
  have hcore' := hcore.same hwr.head
  have hdi := (hok.inCore hcore).1
  have hdi' := (hok'.inCore hcore').1
  have hfile := hwr.fileOf hok hok' hcore (by omega)
  have hents := direntsOf_splice (i := i) (c := fs.fileOf (fs.itable dp).inum.toNat)
    (by rw [h.length_file]; omega) (by rw [h.length_file]; exact h.whole) hbs
  refine ⟨hok'.blocksOk, fun jp => ?_, ?_, ?_, ?_, ?_⟩
  · by_cases hjp : jp = dp
    · exact hjp ▸ hwr.head
    · rw [hwr.entries jp hjp]
      exact .refl _
  · exact (congrArg Dinode.type hdi').trans (hwr.type.trans (congrArg Dinode.type hdi).symm)
  · rw [hok'.inCore_size hcore', hok.inCore_size hcore, hwr.size, hbs]
    rfl
  · rw [Fs.dirOf, hwr.head.inum, hfile]
    exact hents.1
  · rw [Fs.dirOf, hwr.head.inum, hfile]
    exact hents.2

theorem dirOf_congr {fs' : Fs} (hlog : fs'.log = fs.log) (hsb : fs'.sb = fs.sb)
    (hinum : (fs'.itable dp).inum = (fs.itable dp).inum) : fs'.dirOf dp = fs.dirOf dp := by
  rw [Fs.dirOf, hinum, fileOf_congr hlog hsb, Fs.dirOf]

/-- The directory survives when only free entries of the table change. -/
theorem same_used (h : fs.Directory dp) (hs : SameUsed fs fs') :
    fs'.Directory dp ∧ fs'.dirOf dp = fs.dirOf dp := by
  have hdp := hs.used dp h.mine.1
  have hdir : fs'.dirOf dp = fs.dirOf dp := dirOf_congr hs.log hs.sb (by rw [hdp])
  have hpos (jp : ℕ) (hr : 0 < (fs'.itable jp).ref) : 0 < (fs.itable jp).ref := hs.refs jp ▸ hr
  refine ⟨⟨⟨?_, ?_, ?_, ?_⟩, hdir ▸ h.distinct⟩, hdir⟩
  · obtain ⟨log, sb, t⟩ := fs
    obtain ⟨log', sb', t'⟩ := fs'
    cases hs.log
    cases hs.sb
    have hok : FsOk (Fs.dinode ⟨log, sb, t⟩) none ⟨log, sb, t⟩ := h.blocks
    refine ⟨⟨hok.layout.log, hok.layout.inodes, hok.layout.data⟩, hok.log,
      ⟨hok.owned.marks, hok.owned.low, hok.owned.size_le, hok.owned.mapped⟩, hok.disk,
      fun jp hr hv => ?_, fun jp hr => ?_, fun jp jp' hr hr' he => ?_⟩
    · rw [hs.used jp (hpos jp hr)] at hv ⊢
      exact hok.mem jp (hpos jp hr) hv
    · rw [hs.used jp (hpos jp hr)]
      exact hok.inum jp (hpos jp hr)
    · rw [hs.used jp (hpos jp hr), hs.used jp' (hpos jp' hr')] at he
      exact hok.unique jp jp' (hpos jp hr) (hpos jp' hr') he
  · rw [Fs.Mine, hdp]
    exact h.mine
  · rw [hdp, h.type]
  · rw [hdp]
    exact h.whole

/-- The directory is one again when its names are distinct. -/
theorem of_written (h : fs.Directory dp) {i : ℕ} {bs : List Byte} (hw : EntryWritten fs dp i bs fs')
    (hd : Distinct Dirent.live Dirent.key (fs'.dirOf dp)) : fs'.Directory dp where
  blocks := hw.blocks
  mine := by
    obtain ⟨hr, hv, hl⟩ := h.mine
    have hh := hw.heads dp
    exact ⟨hh.ref ▸ hr, hh.valid ▸ hv, hh.locked ▸ hl⟩
  type := hw.type.trans h.type
  whole := by
    obtain ⟨n, hn⟩ := h.whole
    rw [hw.size]
    omega
  distinct := hd

/-- The map, by the entries. -/
theorem names_eq_none : fs.names dp name = none ↔
    find Dirent.live Dirent.key (fs.dirOf dp) (cstr DIRSIZ name) = none := by
  rw [Fs.names]
  cases hf : find Dirent.live Dirent.key (fs.dirOf dp) (cstr DIRSIZ name) with
  | none => exact iff_of_true rfl rfl
  | some i =>
    obtain ⟨e, he, -⟩ := find_some hf
    rw [Option.bind_some, he]
    exact iff_of_false nofun nofun

theorem names_of_find {i : ℕ} {e : Dirent}
    (hf : find Dirent.live Dirent.key (fs.dirOf dp) (cstr DIRSIZ name) = some i)
    (he : (fs.dirOf dp)[i]? = some e) :
    fs.names dp name = some (e.inum, BitVec.ofNat 32 (16 * i)) := by
  rw [Fs.names, hf, Option.bind_some, he]
  rfl

theorem names_eq_some {inum : U16} {off : U32} (hn : fs.names dp name = some (inum, off)) :
    ∃ i, find Dirent.live Dirent.key (fs.dirOf dp) (cstr DIRSIZ name) = some i ∧
      off = BitVec.ofNat 32 (16 * i) := by
  obtain ⟨i, hf, he⟩ := Option.bind_eq_some_iff.1 hn
  obtain ⟨e, -, he⟩ := Option.map_eq_some_iff.1 he
  exact ⟨i, hf, (congrArg Prod.snd he).symm⟩

/-- A name that has nothing to do with the entry that is written. -/
theorem names_other {i : ℕ} {bs : List Byte} (hw : EntryWritten fs dp i bs fs')
    (hf : find Dirent.live Dirent.key (fs'.dirOf dp) (cstr DIRSIZ name) =
      find Dirent.live Dirent.key (fs.dirOf dp) (cstr DIRSIZ name))
    (hi : (Dirent.ofBytes bs).live = true → (Dirent.ofBytes bs).key ≠ cstr DIRSIZ name) :
    fs'.names dp name = fs.names dp name := by
  rw [Fs.names, Fs.names, hf]
  refine Option.bind_congr fun j hj => ?_
  obtain ⟨e, he, hl, hk⟩ := find_some (hf.trans hj)
  have hne : j ≠ i := by
    rintro rfl
    rw [hw.entry] at he
    cases he
    exact hi hl hk
  rw [hw.others j hne]

theorem found_map_fst (fs : Fs) (dp : ℕ) (inum : U16) (off : U32) :
    (foundEntry fs dp (some (inum, off))).map Prod.fst =
      ((iget (fs.itable dp).dev (inum.setWidth 32) fs).map Prod.fst).map fun ip =>
        some (ip, off) := by
  rw [foundEntry]
  rcases hrun : iget (fs.itable dp).dev (inum.setWidth 32) fs with e | ⟨ip, fs₁⟩
  · rw [bind_of_error hrun]
    rfl
  · rw [bind_of_ok hrun]
    rfl

/-- The same lookups in a directory with the same names. -/
theorem lookup_congr (h : fs.Directory dp) (h' : fs'.Directory dp)
    (hs : ∀ jp, SameHead (fs.itable jp) (fs'.itable jp))
    (hn : fs'.names dp name = fs.names dp name) :
    (dirlookupOff dp name fs').map Prod.fst = (dirlookupOff dp name fs).map Prod.fst := by
  rw [h.dirlookupOff_eq, h'.dirlookupOff_eq, hn]
  rcases fs.names dp name with _ | ⟨inum, off⟩
  · rfl
  · rw [found_map_fst, found_map_fst, (hs dp).dev, iget_map_fst_congr hs]

/-- The lookups of `dirlookup` without `poff`. -/
theorem dirlookup_congr {x : List Byte}
    (hoff : (dirlookupOff dp x fs').map Prod.fst = (dirlookupOff dp x fs).map Prod.fst) :
    (dirlookup dp x fs').map Prod.fst = (dirlookup dp x fs).map Prod.fst := by
  have hmap (t : Fs) : (dirlookup dp x t).map Prod.fst =
      ((dirlookupOff dp x t).map Prod.fst).map (Option.map Prod.fst) := by
    rw [dirlookup_map, map_eq_pure_bind]
    rcases hrun : dirlookupOff dp x t with e | ⟨r, t'⟩
    · rw [bind_of_error hrun]
      rfl
    · rw [bind_of_ok hrun]
      rfl
  rw [hmap, hmap, hoff]

/-- `iget` of an entry of the directory. -/
theorem got (h : fs.Directory dp) {inum : U16} {ip : ℕ}
    (hget : iget (fs.itable dp).dev (inum.setWidth 32) fs = .ok (ip, fs')) :
    fs'.dirOf dp = fs.dirOf dp ∧ (inum.toNat < fs.sb.ninodes.toNat → fs'.Directory dp) := by
  have hgot := (iget_spec fs _ _).ok hget
  obtain ⟨hlog, hsb⟩ := hgot.same_log
  obtain ⟨hdp, hpos⟩ := hgot.used h.mine.1
  have hdir : fs'.dirOf dp = fs.dirOf dp := dirOf_congr hlog hsb (by rw [hdp])
  refine ⟨hdir, fun hlt => ?_⟩
  have hok : FsOk fs.dinode none fs := h.blocks
  rw [(hok.inum dp h.mine.1).2.1] at hget
  have hok' := (iget_ok hok (by rwa [toNat_wide])).ok hget
  refine ⟨⟨hok'.blocksOk, ⟨hpos, ?_, ?_⟩, ?_, ?_⟩, hdir ▸ h.distinct⟩
  · rw [hdp]
    exact h.mine.2.1
  · rw [hdp]
    exact h.mine.2.2
  · rw [hdp]
    exact h.type
  · rw [hdp]
    exact h.whole

/-- `dirlink` of a name that is there. -/
theorem dirlink_found (h : fs.Directory dp) {ip : ℕ} (inum : U32)
    (hrun : dirlookup dp name fs = .ok (some ip, fs')) :
    ∃ fs'', dirlink dp name inum fs = .ok (false, fs'') ∧ SameUsed fs fs'' := by
  obtain ⟨r, hoff, hr⟩ := dirlookup_ok hrun
  obtain ⟨rfl, -, -⟩ | ⟨ip', n, off, rfl, -, hget⟩ := h.lookup_cases hoff
  · cases hr
  cases hr
  obtain ⟨fs'', hput, hsame⟩ := ((iget_spec fs _ _).ok hget).iput
  refine ⟨fs'', ?_, hsame⟩
  rw [dirlink, bind_of_ok hrun]
  exact (bind_of_ok hput).trans rfl

/-- `dirlink` of a name that is not there. -/
theorem dirlink_missing (h : fs.Directory dp) (inum : U32)
    (hrun : dirlookup dp name fs = .ok (none, fs')) :
    dirlink dp name inum fs = (do
      let n ← writei dp (BitVec.ofNat 32 (16 * fs.freeSlot dp))
        (direntBytes (inum.setWidth 16) name)
      panicIf (n ≠ 16) "dirlink"
      return true : F Bool) fs := by
  obtain ⟨r, hoff, hr⟩ := dirlookup_ok hrun
  obtain ⟨-, -, rfl⟩ | ⟨ip', n, off, rfl, -⟩ := h.lookup_cases hoff
  · have hlen := h.length_dirOf
    have hget : getInode dp fs' = .ok (fs'.itable dp, fs') := rfl
    have hslot := h.dirlinkSlot_eq ((fs'.itable dp).size.toNat / 16 + 1) (Nat.zero_le _)
      (by omega)
    rw [dirlink, bind_of_ok hrun]
    refine (bind_of_ok hget).trans ((bind_of_ok hslot).trans ?_)
    rw [Nat.zero_add, List.drop_zero]
    rfl
  · cases hr

/-- A new name. -/
theorem linked (h : fs.Directory dp) (hz : ∀ b ∈ name, b ≠ 0) {inum : U16} (hinum : inum ≠ 0)
    (hnone : fs.names dp name = none)
    (hw : writei dp (BitVec.ofNat 32 (16 * fs.freeSlot dp)) (direntBytes inum name) fs =
      .ok (16, fs')) :
    fs'.Directory dp ∧
      fs'.names dp name = some (inum, BitVec.ofNat 32 (16 * fs.freeSlot dp)) ∧
      (∀ x, cstr DIRSIZ x ≠ cstr DIRSIZ name → fs'.names dp x = fs.names dp x) ∧
      EntryWritten fs dp (fs.freeSlot dp) (direntBytes inum name) fs' := by
  have hwr : EntryWritten fs dp (fs.freeSlot dp) (direntBytes inum name) fs' :=
    h.written List.findIdx_le_length (length_direntBytes inum name) hw
  have hin : (Dirent.ofBytes (direntBytes inum name)).inum = inum := loadW_direntBytes inum name
  have hlive : (Dirent.ofBytes (direntBytes inum name)).live = true :=
    decide_eq_true (hin.symm ▸ hinum)
  have hkey : (Dirent.ofBytes (direntBytes inum name)).key = cstr DIRSIZ name := by
    rw [Dirent.key, cstr_of_nonzero hz]
    exact direntBytes_name inum hz
  obtain ⟨hd, hself, hother⟩ := h.distinct.link (names_eq_none.1 hnone) hwr.others hwr.entry
    hlive hkey fun b hb => by
      obtain ⟨hlt, rfl⟩ := List.getElem?_eq_some_iff.1 hb
      have hp : (!(fs.dirOf dp)[fs.freeSlot dp].live) = true := List.findIdx_getElem (w := hlt)
      simpa using hp
  refine ⟨h.of_written hwr hd, ?_, fun x hx => names_other hwr (hother _ hx) fun _ hk => ?_, hwr⟩
  · rw [names_of_find hself hwr.entry, hin]
  · exact hx (hk.symm.trans hkey)

/-- An entry is cleared. -/
theorem cleared (h : fs.Directory dp) {inum : U16} {off : U32}
    (hname : fs.names dp name = some (inum, off))
    (hw : writei dp off (direntBytes 0 []) fs = .ok (16, fs')) :
    fs'.Directory dp ∧ fs'.names dp name = none ∧
      (∀ x, cstr DIRSIZ x ≠ cstr DIRSIZ name → fs'.names dp x = fs.names dp x) ∧
      ∀ jp, SameHead (fs.itable jp) (fs'.itable jp) := by
  obtain ⟨i, hf, rfl⟩ := names_eq_some hname
  obtain ⟨e, he, -⟩ := find_some hf
  have hi := (List.getElem?_eq_some_iff.1 he).1
  have hwr := h.written hi.le (length_direntBytes 0 []) hw
  have hin : (Dirent.ofBytes (direntBytes 0 [])).inum = 0 := loadW_direntBytes 0 []
  have hdead : (Dirent.ofBytes (direntBytes 0 [])).live = false := decide_eq_false (not_not.2 hin)
  obtain ⟨hd, hself, hother⟩ := h.distinct.clear hf hwr.others fun b hb => by
    rw [hwr.entry] at hb
    cases hb
    exact hdead
  refine ⟨h.of_written hwr hd, names_eq_none.2 hself, fun x hx => ?_, hwr.heads⟩
  exact names_other hwr (hother _ hx) fun hl => absurd (hl.symm.trans hdead) nofun

end Fs.Directory

/-- In `fs'` the directory `dp` has the name besides those it has in `fs`, and not more entries
unless all are in use in `fs`. -/
structure NameLinked (fs : Fs) (dp : ℕ) (name : List Byte) (inum : U32) (fs' : Fs) : Prop where
  directory : fs'.Directory dp
  self : dirlookup dp name fs' = (some <$> iget (fs.itable dp).dev inum) fs'
  others : ∀ x, cstr DIRSIZ x ≠ cstr DIRSIZ name → fs'.names dp x = fs.names dp x ∧
    (dirlookup dp x fs').map Prod.fst = (dirlookup dp x fs).map Prod.fst
  grows : (fs'.itable dp).size ≠ (fs.itable dp).size → ∀ e ∈ fs.dirOf dp, e.inum ≠ 0

/-- In `fs'` the directory `dp` has the names it has in `fs` but one. -/
structure NameCleared (fs : Fs) (dp : ℕ) (name : List Byte) (fs' : Fs) : Prop where
  directory : fs'.Directory dp
  self : dirlookup dp name fs' = .ok (none, fs')
  others : ∀ x, cstr DIRSIZ x ≠ cstr DIRSIZ name → fs'.names dp x = fs.names dp x ∧
    (dirlookup dp x fs').map Prod.fst = (dirlookup dp x fs).map Prod.fst

/-- A directory is a finite map from names, cut to `DIRSIZ` bytes, to inode numbers.  `dirlink`
refuses a name that `dirlookup` finds and leaves the directory as it is; it adds every other name,
unless `writei` fails.  Storing zeros over the entry that `dirlookup` reports removes its name. -/
theorem directory_is_map (h : fs.Directory dp) (hz : ∀ b ∈ name, b ≠ 0) (inum : U32)
    (h1 : 1 ≤ inum.toNat) (h2 : inum.toNat ≤ 65535) :
    ((∃ fs', dirlink dp name inum fs = .ok (false, fs') ∧ SameUsed fs fs' ∧ fs'.Directory dp ∧
        fs'.dirOf dp = fs.dirOf dp) ↔ ∃ ip fs', dirlookup dp name fs = .ok (some ip, fs')) ∧
      (∀ fs', dirlookup dp name fs = .ok (none, fs') → fs' = fs ∧
        ∀ fs'', writei dp (BitVec.ofNat 32 (16 * fs.freeSlot dp))
            (direntBytes (inum.setWidth 16) name) fs = .ok (16, fs'') →
          dirlink dp name inum fs = .ok (true, fs'') ∧ NameLinked fs dp name inum fs'') ∧
      ∀ x ip off fs', dirlookupOff dp x fs = .ok (some (ip, off), fs') →
        (fs'.dirOf dp = fs.dirOf dp ∧ ∀ n, fs.names dp x = some (n, off) →
          n.toNat < fs.sb.ninodes.toNat → fs'.Directory dp) ∧
        ∀ t t', t.Directory dp → t.dirOf dp = fs.dirOf dp →
          writei dp off (direntBytes 0 []) t = .ok (16, t') → NameCleared t dp x t' := by
  refine ⟨⟨fun ⟨fs', hrun, _⟩ => ?_, fun ⟨ip, fs', hrun⟩ => ?_⟩, fun fs' hrun => ?_, ?_⟩
  · -- `dirlink` returns -1 only after `dirlookup` has found the name
    rcases hl : dirlookup dp name fs with e | ⟨_ | ip, fs₁⟩
    · rw [dirlink, bind_of_error hl] at hrun
      cases hrun
    · rw [h.dirlink_missing inum hl] at hrun
      rcases hw : writei dp (BitVec.ofNat 32 (16 * fs.freeSlot dp))
        (direntBytes (inum.setWidth 16) name) fs with e | ⟨w, fs₂⟩
      · rw [bind_of_error hw] at hrun
        cases hrun
      · rw [bind_of_ok hw] at hrun
        by_cases hc : w = 16
        · subst hc
          cases hrun
        · have hpanic : panicIf (w ≠ 16) "dirlink" fs₂ = .error (.panic "dirlink") := by
            rw [panicIf, if_pos hc]
            rfl
          rw [bind_of_error hpanic] at hrun
          cases hrun
    · exact ⟨ip, fs₁, rfl⟩
  · obtain ⟨fs₁, hlink, hsame⟩ := h.dirlink_found inum hrun
    exact ⟨fs₁, hlink, hsame, h.same_used hsame⟩
  · obtain ⟨r, hoff, hr⟩ := dirlookup_ok hrun
    obtain ⟨-, hnone, rfl⟩ | ⟨ip, n, off, rfl, -⟩ := h.lookup_cases hoff
    swap
    · cases hr
    refine ⟨rfl, fun fs'' hw => ⟨?_, ?_⟩⟩
    · rw [h.dirlink_missing inum hrun, bind_of_ok hw]
      rfl
    · have hwide : (inum.setWidth 16).setWidth 32 = inum := by
        refine BitVec.eq_of_toNat_eq ?_
        rw [toNat_wide, BitVec.toNat_setWidth, Nat.mod_eq_of_lt (by omega)]
      have hne : inum.setWidth 16 ≠ 0 := by
        intro h0
        rw [h0] at hwide
        rw [← hwide] at h1
        cases h1
      obtain ⟨hdir, hself, hother, hwr⟩ := h.linked hz hne hnone hw
      refine ⟨hdir, ?_, fun x hx => ⟨hother x hx, ?_⟩, fun hsize e he h0 => ?_⟩
      · rw [hdir.dirlookup_of_names hself, hwide, (hwr.heads dp).dev]
      · exact Fs.Directory.dirlookup_congr (h.lookup_congr hdir hwr.heads (hother x hx))
      · -- a free entry is inside the directory
        have hlt : fs'.freeSlot dp < (fs'.dirOf dp).length :=
          List.findIdx_lt_length_of_exists ⟨e, he, by simp [Dirent.live, h0]⟩
        have hlen := h.length_dirOf
        refine hsize (BitVec.eq_of_toNat_eq ?_)
        rw [hwr.size]
        omega
  · intro x ip off fs' hrun
    obtain ⟨hr, -⟩ | ⟨ip', n, off', hr, hn, hget⟩ := h.lookup_cases hrun
    · cases hr
    cases hr
    obtain ⟨hdir, hvalid⟩ := h.got hget
    refine ⟨⟨hdir, fun m hm hlt => hvalid ?_⟩, fun t t' ht hdirs hw => ?_⟩
    · rw [hn] at hm
      cases hm
      exact hlt
    · have hn' : t.names dp x = some (n, off) := by
        rw [← hn, Fs.names, Fs.names, hdirs]
      obtain ⟨hdir', hself, hother, hheads⟩ := ht.cleared hn' hw
      refine ⟨hdir', hdir'.dirlookup_of_missing hself, fun y hy => ⟨hother y hy, ?_⟩⟩
      exact Fs.Directory.dirlookup_congr (ht.lookup_congr hdir' hheads (hother y hy))

end

/-! ### A directory with one name -/

section

attribute [local instance] imageLayout

/-- A new directory, locked. -/
def newDir : List BlockEvent := [.call .beginOp, .call (.ialloc T_DIR), .call (.ilock 0)]

theorem newDir_runs : (Run.runs blockStep newDir smallDisk).isSome = true := by decide +kernel

def newDirState : Kernel := (Run.runs blockStep newDir smallDisk).get newDir_runs

theorem newName_runs :
    (blockStep (.call (.writei 0 0 (direntBytes 2 [97]))) newDirState).isSome = true := by
  decide +kernel

/-- The directory has the name `a`, for inode 2. -/
def oneName : Kernel :=
  (blockStep (.call (.writei 0 0 (direntBytes 2 [97]))) newDirState).get newName_runs

theorem oneName_reach : Run.Reach blockStep BlockEvent.Ok smallDisk oneName := by
  have hnew : Run.Reach blockStep BlockEvent.Ok smallDisk newDirState :=
    Run.reach_of_runs (fun e he u => by fin_cases he <;> trivial) (Option.some_get newDir_runs).symm
  have hmine : newDirState.fs.Mine 0 := ⟨by decide +kernel, by decide +kernel, by decide +kernel⟩
  exact hnew.tail (e := .call (.writei 0 0 (direntBytes 2 [97]))) ⟨hmine, by decide⟩
    (Option.some_get newName_runs).symm

theorem oneName_directory : oneName.fs.Directory 0 := by
  refine ⟨⟨oneName_reach.invariant smallDisk_blocksOk fun _ _ _ => blocksOk_step,
    ⟨by decide +kernel, by decide +kernel, by decide +kernel⟩, by decide +kernel,
    by decide +kernel⟩, ?_⟩
  have hlen : (oneName.fs.dirOf 0).length = 1 := by decide +kernel
  intro i j a b hi hj _ _ _
  have hi' := (List.getElem?_eq_some_iff.1 hi).1
  have hj' := (List.getElem?_eq_some_iff.1 hj).1
  omega

/-- The name `a` is refused, and the name `b` is added. -/
theorem directory_is_map_oneName :
    (∃ fs', dirlink 0 [97] 2 oneName.fs = .ok (false, fs')) ∧
      ∃ fs', dirlink 0 [98] 2 oneName.fs = .ok (true, fs') ∧
        NameLinked oneName.fs 0 [98] 2 fs' := by
  have hza : ∀ b ∈ ([97] : List Byte), b ≠ 0 := by decide
  have hzb : ∀ b ∈ ([98] : List Byte), b ≠ 0 := by decide
  have ha := directory_is_map oneName_directory hza 2 (by decide) (by decide)
  have hb := directory_is_map oneName_directory hzb 2 (by decide) (by decide)
  have hfound : resultOf (dirlookup 0 [97] oneName.fs) = some (some 1) := by decide +kernel
  have hmissing : resultOf (dirlookup 0 [98] oneName.fs) = some none := by decide +kernel
  have hwrite : resultOf (writei 0 (BitVec.ofNat 32 (16 * oneName.fs.freeSlot 0))
      (direntBytes (BitVec.setWidth 16 2#32) [98]) oneName.fs) = some 16 := by decide +kernel
  obtain ⟨fs₁, hfound⟩ := exists_ok_of_resultOf hfound
  obtain ⟨fs₂, hmissing⟩ := exists_ok_of_resultOf hmissing
  obtain ⟨fs₃, hwrite⟩ := exists_ok_of_resultOf hwrite
  obtain ⟨fs₄, hlink, -⟩ := ha.1.2 ⟨_, fs₁, hfound⟩
  exact ⟨⟨fs₄, hlink⟩, fs₃, (hb.2.1 fs₂ hmissing).2 fs₃ hwrite⟩

end

end Xv6
