import Xv6.MkfsSpec

/-!
# The image that `mkfs` leaves

`main` of `mkfs/mkfs.c`, file by file.  The image holds the root directory, with `.`, `..` and an
entry for each file, and the files; `Fits` says which lists of files there is room for.
-/

namespace Xv6.Mkfs

open Bytes Wp Tally

section

variable {N : ℕ → Din} {c : ℕ → List Byte} {s : State} {i : ℕ}

theorem blocksOf_mono {m n : ℕ} (h : m ≤ n) : blocksOf m ≤ blocksOf n :=
  Nat.div_le_div_right (by omega)

theorem extra_add (n a b : ℕ) : extra n (a + b) = extra n a + extra (n + a) b := by
  have h1 := blocksOf_mono (show n ≤ n + a by omega)
  have h2 := blocksOf_mono (show n + a ≤ n + a + b by omega)
  unfold extra
  rw [← Nat.add_assoc]
  omega

/-- The contents of a file, chunk by chunk. -/
theorem wp_appendAll (h : Ready N c s) (hi : (N i).type ≠ 0) (ps : List (List Byte)) :
    wp (appendAll i ps) (fun _ => NoRoom s (c i).length ps.flatten.length) (fun _ s' => ∃ N',
      Ready N' (Function.update c i (c i ++ ps.flatten)) s' ∧ (∀ j, (N' j).type = (N j).type) ∧
      s'.freeinode = s.freeinode ∧
      s'.freeblock ≤ s.freeblock + extra (c i).length ps.flatten.length) s := by
  induction ps generalizing N c s with
  | nil =>
    refine ⟨N, ?_, fun _ => rfl, rfl, Nat.le_add_right _ _⟩
    rw [List.flatten_nil, List.append_nil, Function.update_eq_self]
    exact h
  | cons p ps ih =>
    have hlen : (p :: ps).flatten.length = p.length + ps.flatten.length := by
      rw [List.flatten_cons, List.length_append]
    rw [appendAll, wp_bind, hlen]
    have hsum := extra_add (c i).length p.length ps.flatten.length
    refine ((wp_iappend h hi p).weaken fun _ hno => ?_).mono ?_
    · rcases hno with hno | hno
      · exact Or.inl (by omega)
      · exact Or.inr (by omega)
    rintro - s₁ ⟨N₁, h₁, ht₁, hf₁, hb₁⟩
    have hc₁ : (Function.update c i (c i ++ p) i).length = (c i).length + p.length := by
      rw [Function.update_self, List.length_append]
    refine ((ih h₁ (by rw [ht₁]; exact hi)).weaken fun _ hno => ?_).mono ?_
    · rw [hc₁] at hno
      rcases hno with hno | hno
      · exact Or.inl (by omega)
      · exact Or.inr (by omega)
    rintro - s₂ ⟨N₂, h₂, ht₂, hf₂, hb₂⟩
    rw [hc₁] at hb₂
    refine ⟨N₂, ?_, fun j => (ht₂ j).trans (ht₁ j), hf₂.trans hf₁, by omega⟩
    rw [Function.update_self, Function.update_idem, List.append_assoc] at h₂
    rw [List.flatten_cons]
    exact h₂

end

/-! ### Files -/

/-- The bytes of the directory entries of files, from inode `m` on. -/
def entries : ℕ → List HostFile → List Byte
  | _, [] => []
  | m, f :: fs => direntBytes (BitVec.ofNat 16 m) f.name ++ entries (m + 1) fs

/-- There is room for the files, with `n` bytes in the root directory and `b` blocks in use. -/
def Fits : ℕ → ℕ → List HostFile → Prop
  | _, _, [] => True
  | n, b, f :: fs => slash ∉ f.shortname ∧ f.reads.isSome ∧ n + 16 ≤ MAXFILE * BSIZE ∧
      f.bytes.length ≤ MAXFILE * BSIZE ∧ b + extra n 16 + extra 0 f.bytes.length ≤ FSSIZE ∧
      Fits (n + 16) (b + extra n 16 + extra 0 f.bytes.length) fs

theorem Fits.mono {n b b' : ℕ} {fs : List HostFile} (h : Fits n b fs) (hb : b' ≤ b) :
    Fits n b' fs := by
  induction fs generalizing n b b' with
  | nil => trivial
  | cons f fs ih =>
    obtain ⟨h1, h2, h3, h4, h5, h6⟩ := h
    exact ⟨h1, h2, h3, h4, by omega, ih h6 (by omega)⟩

/-- What the image holds after the files `fs` have been added, the first as inode `m`. -/
structure Added (N : ℕ → Din) (c : ℕ → List Byte) (m : ℕ) (fs : List HostFile)
    (N' : ℕ → Din) (c' : ℕ → List Byte) (s' : State) : Prop where
  ready : Ready N' c' s'
  freeinode : s'.freeinode = m + fs.length
  root : c' 1 = c 1 ++ entries m fs
  bytes : ∀ k f, fs[k]? = some f → c' (m + k) = f.bytes
  old : ∀ j, j ≠ 1 → j < m → c' j = c j
  type_old : ∀ j < m, (N' j).type = (N j).type
  type_new : ∀ j, m ≤ j → j < m + fs.length → (N' j).type = T_FILE

section

variable {N : ℕ → Din} {c : ℕ → List Byte} {s : State} {f : HostFile}

/-- One file. -/
theorem wp_addFile (h : Ready N c s) (hroot : 1 < s.freeinode) (hfree : s.freeinode < NINODES) :
    wp (addFile 1 f) (fun _ => ¬ Fits (c 1).length s.freeblock [f]) (fun _ s' => ∃ N' c',
      Added N c s.freeinode [f] N' c' s' ∧
      s'.freeblock ≤ s.freeblock + extra (c 1).length 16 + extra 0 f.bytes.length) s := by
  rw [addFile, wp_bind, wp_assert]
  by_cases hslash : slash ∈ f.shortname
  · rw [if_neg (not_not.2 hslash)]
    intro (hfit : Fits _ _ _)
    exact hfit.1 hslash
  rw [if_pos hslash]
  rcases hr : f.reads with - | chunks
  · intro (hfit : Fits _ _ _)
    have := hfit.2.1
    rw [hr] at this
    cases this
  have hbytes : chunks.flatten = f.bytes := by
    rw [HostFile.bytes, hr]
    rfl
  rw [wp_bind]
  refine (wp_ialloc h (by omega) hfree (by decide)).mono ?_
  rintro m s₁ ⟨hm, h₁, hf₁, hb₁⟩
  have hne : (1 : ℕ) ≠ m := by omega
  have hcm : c m = [] := h.empty m (by
    by_contra h0
    have := (h.used m).1 h0
    omega)
  have hdir : (N 1).type ≠ 0 := (h.used 1).2 ⟨by decide, hroot⟩
  have hdir₁ : (Function.update N m (Din.new T_FILE) 1).type ≠ 0 := by
    rwa [Function.update_of_ne hne]
  -- the entry in the root directory
  rw [wp_bind]
  refine ((wp_iappend h₁ hdir₁ _).weaken fun _ hno => ?_).mono ?_
  · intro (hfit : Fits _ _ _)
    obtain ⟨-, -, h3, -, h5, -⟩ := hfit
    rw [length_direntBytes] at hno
    rcases hno with hno | hno <;> omega
  rintro - s₂ ⟨N₂, h₂, ht₂, hf₂, hb₂⟩
  rw [length_direntBytes] at hb₂
  have hcm₂ : Function.update c 1 (c 1 ++ direntBytes (BitVec.ofNat 16 m) f.name) m = [] := by
    rwa [Function.update_of_ne hne.symm]
  -- the contents
  have hfile : (N₂ m).type = T_FILE := by
    rw [ht₂, Function.update_self]
    rfl
  refine ((wp_appendAll h₂ (by rw [hfile]; decide) chunks).weaken fun _ hno => ?_).mono ?_
  · intro (hfit : Fits _ _ _)
    obtain ⟨-, -, -, h4, h5, -⟩ := hfit
    rw [hcm₂, hbytes, List.length_nil] at hno
    rcases hno with hno | hno <;> omega
  rintro - s₃ ⟨N₃, h₃, ht₃, hf₃, hb₃⟩
  rw [hcm₂, hbytes, List.length_nil] at hb₃
  rw [hcm₂, List.nil_append, hbytes] at h₃
  refine ⟨N₃, _, ⟨h₃, by rw [hf₃, hf₂, hf₁]; rfl, ?_, ?_, ?_, ?_, ?_⟩, by omega⟩
  · rw [Function.update_of_ne hne, Function.update_self, ← hm, entries, entries, List.append_nil]
  · intro k g hg
    obtain ⟨rfl, rfl⟩ : k = 0 ∧ f = g := by
      cases k with
      | zero => exact ⟨rfl, Option.some.inj hg⟩
      | succ k => cases hg
    rw [Nat.add_zero, ← hm, Function.update_self]
  · intro j hj1 hjm
    rw [Function.update_of_ne (by omega), Function.update_of_ne hj1]
  · intro j hjm
    rw [ht₃, ht₂, Function.update_of_ne (by omega)]
  · intro j hj1 hj2
    rw [List.length_singleton] at hj2
    obtain rfl : j = m := by omega
    rw [ht₃, hfile]

/-- All files. -/
theorem wp_addFiles {fs : List HostFile} (h : Ready N c s) (hroot : 1 < s.freeinode)
    (hfree : s.freeinode + fs.length ≤ NINODES) :
    wp (addFiles 1 fs) (fun _ => ¬ Fits (c 1).length s.freeblock fs) (fun _ s' => ∃ N' c',
      Added N c s.freeinode fs N' c' s') s := by
  induction fs generalizing N c s with
  | nil =>
    refine ⟨N, c, h, rfl, ?_, fun k f hf => (nomatch hf), fun _ _ _ => rfl, fun _ _ => rfl, ?_⟩
    · rw [entries, List.append_nil]
    · intro j hj1 hj2
      rw [List.length_nil] at hj2
      omega
  | cons f fs ih =>
    rw [List.length_cons] at hfree
    rw [addFiles, wp_bind]
    refine ((wp_addFile h hroot (by omega)).weaken fun _ hno => ?_).mono ?_
    · intro (hfit : Fits _ _ _)
      obtain ⟨h1, h2, h3, h4, h5, -⟩ := hfit
      exact hno ⟨h1, h2, h3, h4, h5, trivial⟩
    rintro - s₁ ⟨N₁, c₁, ha, hb⟩
    have hm : s₁.freeinode = s.freeinode + 1 := ha.freeinode
    have hc₁ : (c₁ 1).length = (c 1).length + 16 := by
      rw [ha.root, entries, entries, List.append_nil, List.length_append, length_direntBytes]
    refine ((ih ha.ready (by omega) (by omega)).weaken fun _ hno => ?_).mono ?_
    · intro (hfit : Fits _ _ _)
      rw [hc₁] at hno
      exact hno (hfit.2.2.2.2.2.mono hb)
    rintro - s₂ ⟨N₂, c₂, ha₂⟩
    rw [hm] at ha₂
    refine ⟨N₂, c₂, ha₂.ready, ?_, ?_, ?_, ?_, ?_, ?_⟩
    · rw [ha₂.freeinode, List.length_cons]
      omega
    · rw [ha₂.root, ha.root, entries, entries, entries, List.append_nil, List.append_assoc]
    · intro k g hg
      cases k with
      | zero =>
        rw [Nat.add_zero, ha₂.old _ (by omega) (by omega)]
        exact ha.bytes 0 g hg
      | succ k =>
        rw [show s.freeinode + (k + 1) = s.freeinode + 1 + k by omega]
        exact ha₂.bytes k g hg
    · intro j hj1 hj2
      rw [ha₂.old j hj1 (by omega), ha.old j hj1 hj2]
    · intro j hj
      rw [ha₂.type_old j (by omega), ha.type_old j hj]
    · intro j hj1 hj2
      rw [List.length_cons] at hj2
      by_cases hj : j = s.freeinode
      · rw [ha₂.type_old j (by omega)]
        exact ha.type_new j hj1 (by rw [List.length_singleton]; omega)
      · exact ha₂.type_new j (by omega) (by omega)

end

/-! ### `main` -/

/-- The bytes of the root directory. -/
def rootBytes (files : List HostFile) : List Byte :=
  direntBytes 1 dot ++ direntBytes 1 dotdot ++ entries 2 files

/-- The bitmap with the first `used` blocks marked. -/
def bitmap (used : ℕ) : Block := (List.range used).foldl
  (fun buf i => Function.update buf (i / 8) (buf (i / 8) ||| 1#8 <<< (i % 8))) fun _ => 0

theorem getLsbD_bitmap (used x : ℕ) {k : ℕ} (hk : k < 8) :
    (bitmap used x).getLsbD k = decide (x * 8 + k < used) := by
  induction used with
  | zero =>
    rw [decide_eq_false (Nat.not_lt_zero _)]
    exact BitVec.getLsbD_zero
  | succ u ih =>
    have hstep : bitmap (u + 1) =
        Function.update (bitmap u) (u / 8) (bitmap u (u / 8) ||| 1#8 <<< (u % 8)) := by
      rw [bitmap, List.range_succ, List.foldl_append]
      rfl
    rw [hstep, Function.update_apply]
    by_cases hx : x = u / 8
    · rw [if_pos hx, getLsbD_or_bit _ hk (Nat.mod_lt _ (by decide)), ← hx, ih]
      split_ifs with hku
      · exact (decide_eq_true (by omega)).symm
      · exact decide_eq_decide.2 (by omega)
    · rw [if_neg hx, ih]
      exact decide_eq_decide.2 (by omega)

/-- The image of the files, with the inodes `N` and the contents `c`. -/
structure Image (files : List HostFile) (N : ℕ → Din) (c : ℕ → List Byte) (s : State) : Prop where
  built : Built N c (fun j => blocksOf (c j).length) s
  disk : OnDisk none N s
  type_root : (N 1).type = T_DIR
  type_file : ∀ j, 2 ≤ j → j < 2 + files.length → (N j).type = T_FILE
  type_none : ∀ j, j = 0 ∨ 2 + files.length ≤ j → (N j).type = 0
  size_root : (N 1).size.toNat = ((c 1).length / BSIZE + 1) * BSIZE
  size_file : ∀ j, j ≠ 1 → (N j).type ≠ 0 → (N j).size.toNat = (c j).length
  nlink : ∀ j, (N j).type ≠ 0 → (N j).nlink = 1
  root : c 1 = rootBytes files
  bytes : ∀ k f, files[k]? = some f → c (2 + k) = f.bytes
  super : s.sect 1 = putWords 0 superblock fun _ => 0
  head : s.sect 2 = fun _ => 0
  bits : s.sect bmapstart = bitmap s.freeblock

/-- An empty image. -/
theorem ready_blank {s : State} (hlen : s.len = FSSIZE) (hnode : s.freeinode = 1)
    (hblock : s.freeblock = nmeta) (hsuper : s.sect 1 = putWords 0 superblock fun _ => 0)
    (hsect : ∀ b, b ≠ 1 → s.sect b = fun _ => 0) :
    Ready (fun _ => ⟨0, 0, 0, 0, 0, fun _ => 0⟩) (fun _ => []) s := by
  refine ⟨⟨hlen, hblock.ge, hblock ▸ (by decide), ?_, fun i hi => (hi rfl).elim, ?_,
    fun i hi => (hi rfl).elim, ?_, fun i hi => (hi rfl).elim, fun i hi => (hi rfl).elim⟩, ?_,
    fun i hi => (hi rfl).elim, fun i hi => (hi rfl).elim, fun i n hn => rfl, ?_,
    fun _ _ => rfl, hsuper, hsect 2 (by decide)⟩
  · have hnone (y : ℕ × ℕ) :
        slotPtr s.fs (fun _ => Din.dinode ⟨0, 0, 0, 0, 0, fun _ => 0⟩) y = none :=
      if_pos (.inl rfl)
    refine ⟨fun y _ x hx => ?_, fun x hx => ?_⟩
    · rw [hnone] at hx
      cases hx
    · have hge : nmeta ≤ x := (inData_iff.1 hx).1
      have hfree : ¬ decide (x < s.freeblock) = true := by
        rw [decide_eq_true_eq, hblock]
        omega
      rw [if_neg hfree]
      refine tally_eq_zero fun y _ hy => ?_
      rw [hnone] at hy
      cases hy
  · intro i
    exact Nat.zero_le _
  · intro b hb _
    have h46 : nmeta = 46 := rfl
    exact hsect b (by omega)
  · intro j hj _
    have hne : IBLOCK j ≠ 1 := Nat.ne_of_gt (Nat.lt_of_lt_of_le (by decide) (Nat.le_add_left _ _))
    rw [State.inode, hsect _ hne]
    unfold Din.load
    simp only [show (fun _ => (0 : Byte)) = fun _ => 0#8 from rfl, loadW_zero, ite_self]
  · intro j
    refine ⟨fun hj => (hj rfl).elim, fun hj => ?_⟩
    omega

/-- The start of `main`: `n` sectors are cleared. -/
theorem wp_blank (n : ℕ) {E : Exit → Prop} :
    wp (loop (fun i => wsect i fun _ => 0) 0 n) E (fun _ s => s.len = n ∧ s.freeinode = 1 ∧
      s.freeblock = nmeta ∧ ∀ b, s.sect b = fun _ => 0) start := by
  refine wp_loop_of (fun j t => t.len = j ∧ t.freeinode = 1 ∧ t.freeblock = nmeta ∧
    ∀ b, t.sect b = fun _ => 0) ⟨rfl, rfl, rfl, fun _ => rfl⟩ ?_ ?_
  · rintro j t - - ⟨hlen, hnode, hblock, hsect⟩
    rw [wsect, wp_modify]
    refine ⟨?_, hnode, hblock, fun b => ?_⟩
    · change max t.len (j + 1) = j + 1
      omega
    · change Function.update t.sect j _ b = _
      rw [Function.update_apply]
      split_ifs
      · rfl
      · exact hsect b
  · rintro t ⟨hlen, h⟩
    exact ⟨by rw [hlen, Nat.zero_add], h⟩

/-- The end of `main`, from an image with all files. -/
theorem wp_finish {N : ℕ → Din} {c : ℕ → List Byte} {s : State} {files : List HostFile}
    {E : Exit → Prop} (h : Ready N c s) (hfree : s.freeinode = 2 + files.length)
    (hdir : (N 1).type = T_DIR) (hfile : ∀ j, 2 ≤ j → j < 2 + files.length → (N j).type = T_FILE)
    (hroot : c 1 = rootBytes files) (hbytes : ∀ k f, files[k]? = some f → c (2 + k) = f.bytes) :
    wp (do fixRoot 1; balloc (← get).freeblock) E (fun _ s' => ∃ N', Image files N' c s') s := by
  have hlen := h.built.len
  have hdir0 : (N 1).type ≠ 0 := by
    rw [hdir]
    decide
  have h1 := h.built.inodes 1 hdir0
  rw [wp_bind, fixRoot, wp_bind, wp_rinode hlen h1, h.disk 1 h1 nofun, wp_winode hlen h1,
    h.size 1 hdir0]
  set d : Din := { N 1 with size := BitVec.ofNat 32 (((c 1).length / BSIZE + 1) * BSIZE) } with hd
  have hlen' : (s.setInode 1 d).len = FSSIZE := hlen
  have hroom : (s.setInode 1 d).freeblock < BSIZE * 8 := lt_of_le_of_lt h.built.room (by decide)
  rw [wp_bind, wp_get, balloc, wp_bind, wp_assert, if_pos hroom, wp_wsect hlen' (by decide)]
  have hself (j : ℕ) (hj : j ≠ 1) : Function.update N 1 d j = N j := Function.update_of_ne hj ..
  have hat : Function.update N 1 d 1 = d := Function.update_self ..
  have htype (j : ℕ) : (Function.update N 1 d j).type = (N j).type := by
    by_cases hj : j = 1
    · rw [hj, hat]
    · rw [hself j hj]
  have hnorm : d.Normal := h.normal 1
  have hdisk : OnDisk none (Function.update N 1 d) (s.setInode 1 d) := h.disk.setInode hnorm nofun
  have hmap (b : ℕ) (hb : b ≠ bmapstart) (buf : Block) :
      ((s.setInode 1 d).setSect bmapstart buf).sect b = (s.setInode 1 d).sect b :=
    State.setSect_of_ne hb buf
  refine ⟨Function.update N 1 d, ?_, ?_, ?_, ?_, ?_, ?_, ?_, ?_, hroot, hbytes, ?_, ?_, ?_⟩
  · refine h.built.congr rfl rfl (fun b hb => ?_) fun j => ⟨htype j, ?_⟩
    · rw [hmap b (Nat.ne_of_gt (lt_of_lt_of_le (by decide) hb))]
      exact State.sect_setInode h1 (.inl hb)
    · by_cases hj : j = 1
      · rw [hj, hat]
      · rw [hself j hj]
  · intro j hj _
    have hne : IBLOCK j ≠ bmapstart := Nat.ne_of_lt (IBLOCK_lt_bmapstart hj)
    have hold : (s.setInode 1 d).inode j = Function.update N 1 d j := hdisk j hj nofun
    rw [State.inode, hmap _ hne]
    exact hold
  · rw [htype]
    exact hdir
  · intro j hj1 hj2
    rw [htype]
    exact hfile j hj1 hj2
  · intro j hj
    rw [htype]
    by_contra h0
    have := (h.used j).1 h0
    omega
  · rw [hat]
    have := h.built.length_le hdir0
    have : MAXFILE * BSIZE = 274432 := rfl
    have hB : BSIZE = 1024 := rfl
    change (BitVec.ofNat 32 _).toNat = _
    rw [BitVec.toNat_ofNat, hB]
    omega
  · intro j hj hjt
    rw [htype] at hjt
    rw [hself j hj]
    exact h.size j hjt
  · intro j hjt
    rw [htype] at hjt
    by_cases hj : j = 1
    · rw [hj, hat]
      exact h.nlink 1 hdir0
    · rw [hself j hj]
      exact h.nlink j hjt
  · rw [hmap 1 (by decide), State.sect_setInode h1 (.inr (by decide))]
    exact h.super
  · rw [hmap 2 (by decide), State.sect_setInode h1 (.inr (by decide))]
    exact h.head
  · rw [State.setSect_self]
    rfl

/-- `main`: the image of the files, unless there is no room for them. -/
theorem wp_mkfs {files : List HostFile} (hn : files.length ≤ NINODES - 2) :
    wp (mkfs files) (fun _ => ¬ Fits 32 (nmeta + 2) files)
      (fun _ s => ∃ N c, Image files N c s) start := by
  have hN : NINODES = 200 := rfl
  -- the number of sectors is a variable, so that nothing runs the loop
  rw [mkfs, wp_bind]
  generalize hm : FSSIZE = m
  refine (wp_blank m).mono ?_
  rintro - s₀ ⟨hlen, hnode, hblock, hsect⟩
  rw [← hm] at hlen
  rw [wp_bind, wp_wsect hlen (by decide)]
  have h₀ : Ready (fun _ => ⟨0, 0, 0, 0, 0, fun _ => 0⟩) (fun _ => [])
      (s₀.setSect 1 (putWords 0 superblock fun _ => 0)) := by
    refine ready_blank hlen hnode hblock (State.setSect_self _ _ _) fun b hb => ?_
    rw [State.setSect_of_ne hb]
    exact hsect b
  have hnode₀ : (s₀.setSect 1 (putWords 0 superblock fun _ => 0)).freeinode = 1 := hnode
  have hblock₀ : (s₀.setSect 1 (putWords 0 superblock fun _ => 0)).freeblock = nmeta := hblock
  generalize s₀.setSect 1 (putWords 0 superblock fun _ => 0) = s at h₀ hnode₀ hblock₀
  -- the root directory, with its first two entries
  rw [wp_bind]
  refine (wp_ialloc h₀ (by omega) (by omega) (by decide)).mono ?_
  rintro r s₁ ⟨rfl, h₁, hnode₁, hblock₁⟩
  rw [hnode₀] at h₁ hnode₁
  rw [hnode₀, wp_bind, wp_assert, if_pos (by decide), wp_bind]
  have hdir₁ :
      (Function.update (fun _ => (⟨0, 0, 0, 0, 0, fun _ => 0⟩ : Din)) 1 (Din.new T_DIR) 1).type =
        T_DIR := by
    rw [Function.update_self]
    rfl
  have hextra₁ : extra 0 16 = 2 := by decide
  have hextra₂ : extra 16 16 = 0 := by decide
  have hmeta : nmeta = 46 := rfl
  have hmax : MAXFILE * BSIZE = 274432 := rfl
  have hsize : FSSIZE = 1000 := rfl
  refine ((wp_iappend h₁ (by rw [hdir₁]; decide) _).weaken fun _ hno => ?_).mono ?_
  · rw [length_direntBytes, List.length_nil] at hno
    rcases hno with hno | hno <;> omega
  rintro - s₂ ⟨N₂, h₂, ht₂, hnode₂, hblock₂⟩
  rw [length_direntBytes, List.length_nil] at hblock₂
  rw [List.nil_append] at h₂
  have hc₂ : (Function.update (fun _ => []) 1 (direntBytes (BitVec.ofNat 16 1) dot) 1).length =
      16 := by
    rw [Function.update_self, length_direntBytes]
  rw [wp_bind]
  refine ((wp_iappend h₂ (by rw [ht₂, hdir₁]; decide) _).weaken fun _ hno => ?_).mono ?_
  · rw [length_direntBytes, hc₂] at hno
    rcases hno with hno | hno <;> omega
  rintro - s₃ ⟨N₃, h₃, ht₃, hnode₃, hblock₃⟩
  rw [length_direntBytes, hc₂] at hblock₃
  rw [Function.update_self, Function.update_idem] at h₃
  -- the files
  have hc₃ : (Function.update (fun _ => []) 1 (direntBytes (BitVec.ofNat 16 1) dot ++
      direntBytes (BitVec.ofNat 16 1) dotdot) 1).length = 32 := by
    rw [Function.update_self, List.length_append, length_direntBytes, length_direntBytes]
  rw [wp_bind]
  refine ((wp_addFiles h₃ (by omega) (by omega)).weaken fun _ hno hfit => hno ?_).mono ?_
  · rw [hc₃]
    exact hfit.mono (by omega)
  rintro - s₄ ⟨N₄, c₄, ha⟩
  rw [hnode₃, hnode₂, hnode₁] at ha
  refine (wp_finish ha.ready ha.freeinode ?_ ha.type_new ?_ ha.bytes).mono
    fun _ s' ⟨N', h'⟩ => ⟨N', c₄, h'⟩
  · rw [ha.type_old 1 (by decide), ht₃, ht₂, hdir₁]
  · rw [ha.root, Function.update_self]
    rfl

end Xv6.Mkfs
