import Xv6.Bio
import Xv6.Lib.Tally

/-!
# The buffer cache is transparent

`BioHist` is a run of the buffer cache with its history: the bytes last stored in a block through
any buffer, the buffers that were changed since they were written, the buffers pinned by
`log_write`, and the block each process has asked for.  Processes are `Careful`: they read devices
other than 0, pin a buffer they hold at most once, release a changed buffer only when it is written
or pinned, and unpin it only after it was written.  Then `bread` returns the bytes last stored,
whatever was recycled in between (`buffer_cache_transparent`).
-/

namespace Xv6

open Bytes Links Run Tally

/-- The buffer cache, and its history. -/
structure BioHist where
  sys : BioSys
  stored : U32 → U32 → Block
  dirty : Fin NBUF → Bool
  pinned : Fin NBUF → Bool
  asked : Fin NPROC → U32 × U32

namespace BioHist

/-- What the event `e`, which leads to `t`, adds to the history. -/
def note (r : BioHist) (e : BioEvent) (t : BioSys) : BioHist :=
  match e with
  | .bread p dev blockno => { r with sys := t, asked := Function.update r.asked p (dev, blockno) }
  | .store _ b data =>
    let x := r.sys.cache.buf b
    { r with
      sys := t
      stored := Function.update r.stored x.dev (Function.update (r.stored x.dev) x.blockno data)
      dirty := Function.update r.dirty b true }
  | .bwrite _ b => { r with sys := t, dirty := Function.update r.dirty b false }
  | .bpin _ b => { r with sys := t, pinned := Function.update r.pinned b true }
  | .bunpin _ b => { r with sys := t, pinned := Function.update r.pinned b false }
  | _ => { r with sys := t }

@[simp]
theorem note_sys (r : BioHist) (e : BioEvent) (t : BioSys) : (r.note e t).sys = t := by
  cases e <;> rfl

/-- How processes use the cache. -/
def Careful (r : BioHist) : BioEvent → Prop
  | .bread _ dev _ => dev ≠ 0
  | .brelse _ b => r.dirty b → r.pinned b
  | .bpin p b => (r.sys.cache.buf b).lock = some p ∧ r.pinned b = false
  | .bunpin _ b => r.pinned b ∧ r.dirty b = false
  | _ => True

instance (r : BioHist) : DecidablePred r.Careful
  | .bread _ dev _ => inferInstanceAs (Decidable (dev ≠ 0))
  | .brelse _ b => inferInstanceAs (Decidable (r.dirty b → r.pinned b))
  | .bpin p b =>
    inferInstanceAs (Decidable ((r.sys.cache.buf b).lock = some p ∧ r.pinned b = false))
  | .bunpin _ b => inferInstanceAs (Decidable (r.pinned b ∧ r.dirty b = false))
  | .lock _ | .fill _ | .store .. | .bwrite .. | .unref _ => inferInstanceAs (Decidable True)

end BioHist

def histStep (e : BioEvent) (r : BioHist) : Option BioHist := (bioStep e r.sys).map (r.note e)

/-- The history begins with the bytes of the disk. -/
def histStart (links : Links BufPtr) (disk : U32 → U32 → Block) : BioHist where
  sys := bioStart links disk
  stored := disk
  dirty _ := false
  pinned _ := false
  asked _ := (0, 0)

/-- The buffer a process has a reference to and does not hold. -/
def BioPc.waits : BioPc → BufPtr
  | .locking b | .releasing b => some b
  | _ => none

/-! ### References -/

namespace BioHist

/-- What processes wait for. -/
def waiting (r : BioHist) (p : Fin NPROC) : BufPtr := (r.sys.pc p).waits

/-- The references to a buffer: its holder, the processes before and after holding it, and the
pin. -/
def load (r : BioHist) (b : Fin NBUF) : ℤ :=
  (r.sys.cache.buf b).lock.isSome.toInt + tally Finset.univ r.waiting b + (r.pinned b).toInt

/-- Reference counts are exact, and a process waits for the buffer of the block it asked for. -/
structure Referenced (r : BioHist) : Prop where
  listed : r.sys.cache.Listed
  refs : ∀ b, ((r.sys.cache.buf b).refcnt.toNat : ℤ) = r.load b
  reading : ∀ p b, r.sys.pc p = .reading b → (r.sys.cache.buf b).lock = some p
  asked : ∀ p b, r.sys.pc p = .locking b ∨ r.sys.pc p = .reading b →
    (r.sys.cache.buf b).has (r.asked p).1 (r.asked p).2
  used : ∀ b, (r.sys.cache.buf b).refcnt ≠ 0 → (r.sys.cache.buf b).dev ≠ 0

variable {r t : BioHist} {e : BioEvent} {b : Fin NBUF} {p : Fin NPROC}

theorem toInt_bounds (x : Bool) : 0 ≤ x.toInt ∧ x.toInt ≤ 1 := by cases x <;> decide

theorem load_le (r : BioHist) (b : Fin NBUF) : r.load b ≤ NPROC + 2 := by
  have htally : tally Finset.univ r.waiting b ≤ NPROC := by
    have := Finset.card_filter_le (Finset.univ : Finset (Fin NPROC)) (fun p => r.waiting p = some b)
    rw [Finset.card_univ, Fintype.card_fin] at this
    rw [tally]
    exact_mod_cast this
  have hl := toInt_bounds (r.sys.cache.buf b).lock.isSome
  have hp := toInt_bounds (r.pinned b)
  rw [load]
  omega

/-- A buffer without references is not held, waited for or pinned. -/
theorem Referenced.free (h : r.Referenced) (hz : (r.sys.cache.buf b).refcnt = 0) :
    (r.sys.cache.buf b).lock = none ∧ (∀ p, r.waiting p ≠ some b) ∧ r.pinned b = false := by
  have hload : (0 : ℤ) = r.load b := by
    rw [← h.refs b, hz]
    rfl
  have htally := tally_nonneg Finset.univ r.waiting b
  have hl := toInt_bounds (r.sys.cache.buf b).lock.isSome
  have hp := toInt_bounds (r.pinned b)
  rw [load] at hload
  refine ⟨?_, fun p hp => ?_, ?_⟩
  · rw [← Option.not_isSome_iff_eq_none]
    intro hl
    rw [hl, Bool.toInt_true] at hload
    omega
  · have := one_le_tally (Finset.mem_univ p) hp
    omega
  · rw [← Bool.not_eq_true]
    intro hp
    rw [hp, Bool.toInt_true] at hload
    omega

theorem Referenced.one_le_of_lock (h : r.Referenced) (hl : (r.sys.cache.buf b).lock = some p) :
    (r.sys.cache.buf b).refcnt ≠ 0 := fun hz => by
  rw [(h.free hz).1] at hl
  cases hl

theorem Referenced.one_le_of_pin (h : r.Referenced) (hp : r.pinned b = true) :
    (r.sys.cache.buf b).refcnt ≠ 0 := fun hz => by
  rw [(h.free hz).2.2] at hp
  cases hp

theorem Referenced.one_le_of_waiting (h : r.Referenced) (hw : r.waiting p = some b) :
    (r.sys.cache.buf b).refcnt ≠ 0 := fun hz => (h.free hz).2.1 p hw

/-- A step is about one process `p`, which goes to `pc`, and one buffer `b`. -/
structure Touches (r t : BioHist) (p : Fin NPROC) (pc : BioPc) (b : Fin NBUF) : Prop where
  pc : t.sys.pc = Function.update r.sys.pc p pc
  buf : ∀ a, a ≠ b → t.sys.cache.buf a = r.sys.cache.buf a
  pinned : ∀ a, a ≠ b → t.pinned a = r.pinned a

variable {pc : BioPc}

theorem Touches.load_eq (ht : Touches r t p pc b) (a : Fin NBUF) : t.load a =
    (t.sys.cache.buf a).lock.isSome.toInt +
      (tally Finset.univ r.waiting a - hit (r.waiting p) a + hit pc.waits a) +
      (t.pinned a).toInt := by
  have htally : tally Finset.univ t.waiting a =
      tally Finset.univ r.waiting a - hit (r.waiting p) a + hit (t.waiting p) a :=
    tally_redirect (Finset.mem_univ p) (fun q _ hq => by
      rw [waiting, ht.pc, Function.update_of_ne hq, waiting]) a
  rw [load, htally, waiting, waiting, ht.pc, Function.update_self]

theorem Referenced.refs_touches (h : r.Referenced) (ht : Touches r t p pc b)
    (hwait : r.waiting p = none ∨ r.waiting p = some b)
    (hwait' : pc.waits = none ∨ pc.waits = some b)
    (hself : ((t.sys.cache.buf b).refcnt.toNat : ℤ) =
      (t.sys.cache.buf b).lock.isSome.toInt +
      (tally Finset.univ r.waiting b - hit (r.waiting p) b + hit pc.waits b) +
      (t.pinned b).toInt) (a : Fin NBUF) :
    ((t.sys.cache.buf a).refcnt.toNat : ℤ) = t.load a := by
  rw [ht.load_eq]
  by_cases ha : a = b
  · subst ha
    exact hself
  · have hmiss : ∀ y : BufPtr, y = none ∨ y = some b → hit y a = 0 := by
      rintro y (rfl | rfl)
      · exact hit_none a
      · exact hit_of_ne (Ne.symm ha)
    rw [ht.buf a ha, h.refs a, load, ht.pinned a ha, hmiss _ hwait, hmiss _ hwait',
      sub_zero, add_zero]

theorem Referenced.toNat_succ (h : r.Referenced) (b : Fin NBUF) :
    (((r.sys.cache.buf b).refcnt + 1).toNat : ℤ) = r.load b + 1 := by
  have hrefs := h.refs b
  have hle := r.load_le b
  have hN : NPROC = 64 := rfl
  rw [BitVec.toNat_add, show (1 : U32).toNat = 1 from rfl]
  omega

theorem Referenced.toNat_pred (h : r.Referenced) (hne : (r.sys.cache.buf b).refcnt ≠ 0) :
    (((r.sys.cache.buf b).refcnt - 1).toNat : ℤ) = r.load b - 1 := by
  have hrefs := h.refs b
  have hpos : (r.sys.cache.buf b).refcnt.toNat ≠ 0 := fun hz => hne (BitVec.eq_of_toNat_eq hz)
  rw [BitVec.toNat_sub, show (1 : U32).toNat = 1 from rfl]
  omega

/-- A step of the reference counts. -/
theorem Referenced.refs_step (h : r.Referenced) (hok : r.Careful e) (hs : histStep e r = some t)
    (a : Fin NBUF) : ((t.sys.cache.buf a).refcnt.toNat : ℤ) = t.load a := by
  obtain ⟨s, hs', rfl⟩ := Option.map_eq_some_iff.1 hs
  have hwait : ∀ {p pc}, r.sys.pc p = pc → r.waiting p = pc.waits := fun hp => by rw [waiting, hp]
  cases bioStep_to hs' with
  | @bread p dev blockno b c hp hget =>
    cases h.listed.bget hget with
    | hit hhit =>
      refine h.refs_touches (?_ : Touches _ _ p (.locking b) b) (Or.inl (hwait hp))
        (Or.inr rfl) ?_ a
      · exact ⟨rfl, fun a ha => Function.update_of_ne ha .., fun _ _ => rfl⟩
      simp only [note, BioSys.goto_cache, Bcache.setBuf_buf_self, hwait hp, BioPc.waits, hit_none,
        hit_self]
      rw [h.toNat_succ, load]
      ring
    | miss hmiss hz =>
      obtain ⟨hlock, -, hpin⟩ := h.free hz
      refine h.refs_touches (?_ : Touches _ _ p (.locking b) b) (Or.inl (hwait hp))
        (Or.inr rfl) ?_ a
      · exact ⟨rfl, fun a ha => Function.update_of_ne ha .., fun _ _ => rfl⟩
      have hrefs := h.refs b
      rw [hz, load] at hrefs
      simp only [note, BioSys.goto_cache, Bcache.setBuf_buf_self, hwait hp, BioPc.waits, hit_none,
        hit_self]
      change (1 : ℤ) = _
      change (0 : ℤ) = _ at hrefs
      linarith
  | @lock p b hp hl =>
    refine h.refs_touches (?_ : Touches _ _ p (.reading b) b) (Or.inr (hwait hp))
      (Or.inl rfl) ?_ a
    · exact ⟨rfl, fun a ha => Function.update_of_ne ha .., fun _ _ => rfl⟩
    have hrefs := h.refs b
    rw [load, hl] at hrefs
    simp only [note, BioSys.goto_cache, Bcache.setBuf_buf_self, hwait hp, BioPc.waits, hit_none,
      hit_self, hrefs, Option.isSome_none, Option.isSome_some, Bool.toInt_true, Bool.toInt_false]
    ring
  | @fill p b hp =>
    refine h.refs_touches (?_ : Touches _ _ p .out b) (Or.inl (hwait hp)) (Or.inl rfl) ?_ a
    · exact ⟨rfl, fun a ha => Function.update_of_ne ha .., fun _ _ => rfl⟩
    have hrefs := h.refs b
    rw [load] at hrefs
    have hkeep : (r.sys.fill (r.sys.cache.buf b)).refcnt = (r.sys.cache.buf b).refcnt ∧
        (r.sys.fill (r.sys.cache.buf b)).lock = (r.sys.cache.buf b).lock := by
      rw [BioSys.fill]
      split_ifs <;> exact ⟨rfl, rfl⟩
    simp only [note, BioSys.goto_cache, Bcache.setBuf_buf_self, hwait hp, BioPc.waits, hit_none,
      hkeep, hrefs]
    ring
  | @store p b data hp hl =>
    refine h.refs_touches (?_ : Touches _ _ p .out b) (Or.inl (hwait hp)) (Or.inl rfl) ?_ a
    · exact ⟨by rw [← hp, Function.update_eq_self]; rfl, fun a ha => Function.update_of_ne ha ..,
        fun _ _ => rfl⟩
    have hrefs := h.refs b
    rw [load] at hrefs
    simp only [note, Bcache.setBuf_buf_self, hwait hp, BioPc.waits, hit_none, hrefs]
    ring
  | bwrite hp hl => exact h.refs a
  | @brelse p b hp hl =>
    refine h.refs_touches (?_ : Touches _ _ p (.releasing b) b) (Or.inl (hwait hp))
      (Or.inr rfl) ?_ a
    · exact ⟨rfl, fun a ha => Function.update_of_ne ha .., fun _ _ => rfl⟩
    have hrefs := h.refs b
    rw [load, hl] at hrefs
    simp only [note, BioSys.goto_cache, Bcache.setBuf_buf_self, hwait hp, BioPc.waits, hit_none,
      hit_self, hrefs, Option.isSome_none, Option.isSome_some, Bool.toInt_true, Bool.toInt_false]
    ring
  | @unref p b hp =>
    have hne := h.one_le_of_waiting (hwait hp)
    refine h.refs_touches (?_ : Touches _ _ p .out b) (Or.inr (hwait hp)) (Or.inl rfl) ?_ a
    · exact ⟨rfl, fun a ha => (congrFun (Bcache.brelse_buf _ _) a).trans
        (Function.update_of_ne ha ..), fun _ _ => rfl⟩
    simp only [note, BioSys.goto_cache, Bcache.brelse_buf, Bcache.setBuf_buf_self, hwait hp,
      BioPc.waits, hit_none, hit_self]
    rw [h.toNat_pred hne, load]
    ring
  | @bpin p b hp =>
    refine h.refs_touches (?_ : Touches _ _ p .out b) (Or.inl (hwait hp)) (Or.inl rfl) ?_ a
    · exact ⟨by rw [← hp, Function.update_eq_self]; rfl, fun a ha => Function.update_of_ne ha ..,
        fun a ha => Function.update_of_ne ha ..⟩
    have hpin : r.pinned b = false := hok.2
    simp only [note, Bcache.bpin, Bcache.setBuf_buf_self, hwait hp, BioPc.waits, hit_none,
      Function.update_self]
    rw [h.toNat_succ, load, hpin, Bool.toInt_false, Bool.toInt_true]
    ring
  | @bunpin p b hp =>
    have hpin : r.pinned b = true := hok.1
    have hne := h.one_le_of_pin hpin
    refine h.refs_touches (?_ : Touches _ _ p .out b) (Or.inl (hwait hp)) (Or.inl rfl) ?_ a
    · exact ⟨by rw [← hp, Function.update_eq_self]; rfl, fun a ha => Function.update_of_ne ha ..,
        fun a ha => Function.update_of_ne ha ..⟩
    simp only [note, Bcache.bunpin, Bcache.setBuf_buf_self, hwait hp, BioPc.waits, hit_none,
      Function.update_self]
    rw [h.toNat_pred hne, load, hpin, Bool.toInt_false, Bool.toInt_true]
    ring

theorem Referenced.reading_step (h : r.Referenced) (hs : histStep e r = some t) {q : Fin NPROC}
    (hq : t.sys.pc q = .reading b) : (t.sys.cache.buf b).lock = some q := by
  obtain ⟨s, hs', rfl⟩ := Option.map_eq_some_iff.1 hs
  -- a process other than the one that moves was reading before
  have hother : ∀ {p pc c}, (r.sys.goto p pc c).pc q = .reading b → pc ≠ .reading b →
      r.sys.pc q = .reading b := by
    intro p pc c hq hne
    by_cases hqp : q = p
    · subst hqp
      rw [BioSys.goto_pc_self] at hq
      exact absurd hq hne
    · rwa [r.sys.goto_pc_of_ne hqp] at hq
  cases bioStep_to hs' with
  | bread _ hget =>
    have hold := h.reading q b (hother hq (by simp))
    cases h.listed.bget hget with
    | hit | miss => exact (r.sys.cache.setBuf_same _ Buf.lock (by rfl) b).trans hold
  | @lock p b' hp hl =>
    by_cases hqp : q = p
    · subst hqp
      obtain rfl : b' = b := by simpa [note] using hq
      simp [note]
    · have hold := h.reading q b (by simpa [note, r.sys.goto_pc_of_ne hqp] using hq)
      have hne : b ≠ b' := fun he => by simp [← he, hold] at hl
      exact (congrArg Buf.lock (r.sys.cache.setBuf_buf_of_ne hne _)).trans hold
  | fill =>
    refine (r.sys.cache.setBuf_same _ Buf.lock ?_ b).trans (h.reading q b (hother hq (by simp)))
    rw [BioSys.fill]
    split_ifs <;> rfl
  | store => exact (r.sys.cache.setBuf_same _ Buf.lock (by rfl) b).trans (h.reading q b hq)
  | bwrite => exact h.reading q b hq
  | @brelse p b' hp hl =>
    have hqp : q ≠ p := by
      rintro rfl
      simp [note] at hq
    have hold := h.reading q b (hother hq (by simp))
    have hne : b ≠ b' := fun he => hqp (by simpa [← he, hold] using hl)
    exact (congrArg Buf.lock (r.sys.cache.setBuf_buf_of_ne hne _)).trans hold
  | unref =>
    refine (congrArg Buf.lock (congrFun (Bcache.brelse_buf _ _) b)).trans ?_
    exact (r.sys.cache.setBuf_same _ Buf.lock (by rfl) b).trans
      (h.reading q b (hother hq (by simp)))
  | bpin | bunpin => exact (r.sys.cache.setBuf_same _ Buf.lock (by rfl) b).trans (h.reading q b hq)

/-- A process that waits for a buffer or reads it has waited for it or read it before, or calls
`bread` now. -/
theorem before_asked (hs : histStep e r = some t) {q : Fin NPROC}
    (hq : t.sys.pc q = .locking b ∨ t.sys.pc q = .reading b) :
    (∃ dev blockno c, e = .bread q dev blockno ∧ r.sys.cache.bget dev blockno = some (b, c) ∧
        t.sys.cache = c ∧ t.asked q = (dev, blockno)) ∨
      ((r.sys.pc q = .locking b ∨ r.sys.pc q = .reading b) ∧ t.asked q = r.asked q) := by
  obtain ⟨s, hs', rfl⟩ := Option.map_eq_some_iff.1 hs
  have hother : ∀ {p pc c}, (r.sys.goto p pc c).pc q = .locking b ∨
      (r.sys.goto p pc c).pc q = .reading b → pc ≠ .locking b → pc ≠ .reading b →
      r.sys.pc q = .locking b ∨ r.sys.pc q = .reading b := by
    intro p pc c hq hl hr
    by_cases hqp : q = p
    · subst hqp
      rw [BioSys.goto_pc_self] at hq
      exact absurd hq (not_or.2 ⟨hl, hr⟩)
    · rwa [r.sys.goto_pc_of_ne hqp] at hq
  cases bioStep_to hs' with
  | @bread p dev blockno b' c hp hget =>
    by_cases hqp : q = p
    · subst hqp
      obtain rfl : b' = b := by simpa [note] using hq
      exact Or.inl ⟨dev, blockno, c, rfl, hget, rfl, Function.update_self ..⟩
    · refine Or.inr ⟨?_, Function.update_of_ne hqp ..⟩
      simpa [note, r.sys.goto_pc_of_ne hqp] using hq
  | @lock p b' hp hl =>
    refine Or.inr ⟨?_, rfl⟩
    by_cases hqp : q = p
    · subst hqp
      obtain rfl : b' = b := by simpa [note] using hq
      exact Or.inl hp
    · simpa [note, r.sys.goto_pc_of_ne hqp] using hq
  | fill | brelse | unref => exact Or.inr ⟨hother hq (by simp) (by simp), rfl⟩
  | store | bwrite | bpin | bunpin => exact Or.inr ⟨hq, rfl⟩

theorem Referenced.used_by (h : r.Referenced) {q : Fin NPROC}
    (hq : r.sys.pc q = .locking b ∨ r.sys.pc q = .reading b) : (r.sys.cache.buf b).refcnt ≠ 0 := by
  rcases hq with hq | hq
  · exact h.one_le_of_waiting (by rw [waiting, hq]; rfl)
  · exact h.one_le_of_lock (h.reading q b hq)

theorem Referenced.asked_step (h : r.Referenced) (hs : histStep e r = some t) {q : Fin NPROC}
    (hq : t.sys.pc q = .locking b ∨ t.sys.pc q = .reading b) :
    (t.sys.cache.buf b).has (t.asked q).1 (t.asked q).2 := by
  rcases before_asked hs hq with ⟨dev, blockno, c, rfl, hget, hc, hasked⟩ | ⟨hold, hasked⟩
  · rw [hasked, hc]
    exact (h.listed.bget hget).has
  · obtain ⟨s, hs', rfl⟩ := Option.map_eq_some_iff.1 hs
    have hkeep := BioSys.keeps_block h.listed hs' (h.used_by hold)
    have hbefore := h.asked q b hold
    rw [hasked]
    rw [Buf.has, decide_eq_true_eq] at hbefore ⊢
    rw [note_sys, hkeep.1, hkeep.2]
    exact hbefore

theorem Referenced.used_step (h : r.Referenced) (hok : r.Careful e) (hs : histStep e r = some t)
    (hb : (t.sys.cache.buf b).refcnt ≠ 0) : (t.sys.cache.buf b).dev ≠ 0 := by
  obtain ⟨s, hs', rfl⟩ := Option.map_eq_some_iff.1 hs
  rw [note_sys] at hb ⊢
  by_cases hz : (r.sys.cache.buf b).refcnt = 0
  · -- only `bget` gives a reference to a buffer that had none
    have hother : ∀ {b' : Fin NBUF} {x : Buf}, (r.sys.cache.buf b').refcnt ≠ 0 →
        ((r.sys.cache.setBuf b' x).buf b).refcnt ≠ 0 → False := by
      intro b' x hb' hx
      have hne : b ≠ b' := fun he => hb' (he ▸ hz)
      rw [r.sys.cache.setBuf_buf_of_ne hne] at hx
      exact hx hz
    cases bioStep_to hs' with
    | @bread p dev blockno b' c hp hget =>
      by_cases hbb : b = b'
      · subst hbb
        have hhas := (h.listed.bget hget).has
        rw [Buf.has, decide_eq_true_eq] at hhas
        rw [BioSys.goto_cache, hhas.1]
        exact hok
      · have hkeep := (h.listed.bget hget).other hbb
        rw [BioSys.goto_cache, hkeep] at hb
        exact absurd hz hb
    | lock hp => exact (hother (h.used_by (Or.inl hp)) hb).elim
    | fill hp => exact (hother (h.used_by (Or.inr hp)) hb).elim
    | store _ hl | brelse _ hl => exact (hother (h.one_le_of_lock hl) hb).elim
    | bwrite => exact absurd hz hb
    | unref hp =>
      rw [BioSys.goto_cache, Bcache.brelse_buf] at hb
      exact (hother (h.one_le_of_waiting (by rw [waiting, hp]; rfl)) hb).elim
    | bpin => exact (hother (h.one_le_of_lock hok.1) hb).elim
    | bunpin => exact (hother (h.one_le_of_pin hok.1) hb).elim
  · rw [(BioSys.keeps_block h.listed hs' hz).1]
    exact h.used b hz

theorem Referenced.step (h : r.Referenced) (hok : r.Careful e) (hs : histStep e r = some t) :
    t.Referenced where
  listed := by
    obtain ⟨s, hs', rfl⟩ := Option.map_eq_some_iff.1 hs
    rw [note_sys]
    exact (BioSys.listed_step h.listed hs').1
  refs := h.refs_step hok hs
  reading _ _ := h.reading_step hs
  asked _ _ := h.asked_step hs
  used _ := h.used_step hok hs

theorem referenced_start (links : Links BufPtr) (disk : U32 → U32 → Block) :
    (histStart links disk).Referenced where
  listed := Bcache.listed_binit links _ rfl
  refs b := by
    have htally : tally Finset.univ (histStart links disk).waiting b = 0 :=
      tally_eq_zero fun p _ => by simp [waiting, histStart, bioStart, BioPc.waits]
    rw [load, htally]
    rfl
  reading _ _ hp := by cases hp
  asked _ _ hp := by rcases hp with hp | hp <;> cases hp
  used _ hb := absurd rfl hb

/-! ### Contents -/

/-- Buffers hold what was stored last, and the disk too, except for a block whose buffer was changed
and is still referred to. -/
structure Viewed (r : BioHist) : Prop where
  holder : ∀ p b, (r.sys.cache.buf b).lock = some p →
    r.sys.pc p = .reading b ∨ (r.sys.cache.buf b).valid
  data : ∀ b, (r.sys.cache.buf b).valid → (r.sys.cache.buf b).dev ≠ 0 →
    (r.sys.cache.buf b).data = r.stored (r.sys.cache.buf b).dev (r.sys.cache.buf b).blockno
  invalid : ∀ b, (r.sys.cache.buf b).valid = false → r.dirty b = false
  safe : ∀ b, r.dirty b → r.pinned b ∨ (r.sys.cache.buf b).lock.isSome
  behind : ∀ dev blockno, dev ≠ 0 → r.sys.disk dev blockno = r.stored dev blockno ∨
    ∃ b, (r.sys.cache.buf b).has dev blockno ∧ r.dirty b

namespace Viewed

/-- A buffer that was not changed is on the disk. -/
theorem clean (hv : r.Viewed) (h : r.Referenced) (hd : r.dirty b = false)
    (h0 : (r.sys.cache.buf b).dev ≠ 0) :
    r.sys.disk (r.sys.cache.buf b).dev (r.sys.cache.buf b).blockno =
      r.stored (r.sys.cache.buf b).dev (r.sys.cache.buf b).blockno := by
  rcases hv.behind _ _ h0 with heq | ⟨a, ha, hdirty⟩
  · exact heq
  · rw [Buf.has, decide_eq_true_eq] at ha
    obtain rfl := h.listed.unique b a h0 ha.1.symm ha.2.symm
    rw [hd] at hdirty
    cases hdirty

/-- A buffer without references is on the disk. -/
theorem clean_of_free (hv : r.Viewed) (h : r.Referenced) (hz : (r.sys.cache.buf b).refcnt = 0) :
    r.dirty b = false := by
  obtain ⟨hlock, -, hpin⟩ := h.free hz
  rw [← Bool.not_eq_true]
  intro hd
  have := hv.safe b hd
  simp [hlock, hpin] at this

/-- The contents of the buffers, the disk and the history stay as they are. -/
theorem frame (hv : r.Viewed)
    (hbuf : ∀ b, (t.sys.cache.buf b).contents = (r.sys.cache.buf b).contents)
    (hdisk : t.sys.disk = r.sys.disk) (hstored : t.stored = r.stored) (hdirty : t.dirty = r.dirty)
    (holder : ∀ p b, (t.sys.cache.buf b).lock = some p →
      t.sys.pc p = .reading b ∨ (r.sys.cache.buf b).valid)
    (safe : ∀ b, r.dirty b → t.pinned b ∨ (t.sys.cache.buf b).lock.isSome) : t.Viewed := by
  simp only [Buf.contents, Prod.mk.injEq] at hbuf
  constructor
  · intro p b hl
    rw [(hbuf b).1]
    exact holder p b hl
  · intro b hval h0
    obtain ⟨h1, h2, h3, h4⟩ := hbuf b
    rw [h1] at hval
    rw [h2] at h0
    rw [h4, hstored, h2, h3]
    exact hv.data b hval h0
  · intro b hval
    rw [(hbuf b).1] at hval
    rw [hdirty]
    exact hv.invalid b hval
  · rw [hdirty]
    exact safe
  · intro dev blockno h0
    simp only [hdisk, hstored, hdirty, Buf.has, (hbuf _).2.1, (hbuf _).2.2.1]
    exact hv.behind dev blockno h0

/-- A process that holds a buffer and is not in `bread` has its contents. -/
theorem valid_of_lock (hv : r.Viewed) (hp : r.sys.pc p = .out)
    (hl : (r.sys.cache.buf b).lock = some p) : (r.sys.cache.buf b).valid = true := by
  rcases hv.holder p b hl with hr | hval
  · rw [hp] at hr
    cases hr
  · exact hval

/-- The holder of a buffer, after a process has moved that was not reading it. -/
theorem holder_goto (hv : r.Viewed) {q : Fin NPROC} {c : Bcache} (hpc : r.sys.pc p ≠ .reading b)
    (hl : (r.sys.cache.buf b).lock = some q) :
    (r.sys.goto p pc c).pc q = .reading b ∨ (r.sys.cache.buf b).valid := by
  by_cases hq : q = p
  · subst hq
    exact Or.inr ((hv.holder q b hl).resolve_left hpc)
  · rw [r.sys.goto_pc_of_ne hq]
    exact hv.holder q b hl

/-- Only reference counts change. -/
theorem frame_lock (hv : r.Viewed)
    (hbuf : ∀ b, (t.sys.cache.buf b).contents = (r.sys.cache.buf b).contents)
    (hlock : ∀ b, (t.sys.cache.buf b).lock = (r.sys.cache.buf b).lock)
    (hdisk : t.sys.disk = r.sys.disk) (hstored : t.stored = r.stored) (hdirty : t.dirty = r.dirty)
    (hpc : ∀ p b, r.sys.pc p = .reading b → t.sys.pc p = .reading b)
    (hpin : ∀ b, r.dirty b → r.pinned b → t.pinned b) : t.Viewed := by
  refine hv.frame hbuf hdisk hstored hdirty (fun p b hl => ?_) fun b hd => ?_
  · rw [hlock] at hl
    exact (hv.holder p b hl).imp_left (hpc p b)
  · rw [hlock]
    exact (hv.safe b hd).imp_left (hpin b hd)

/-- An unused buffer gets another block. -/
theorem recycle (hv : r.Viewed) (h : r.Referenced) {dev blockno : U32}
    (hz : (r.sys.cache.buf b).refcnt = 0) (hp : r.sys.pc p = .out) :
    (r.note (.bread p dev blockno) (r.sys.goto p (.locking b) (r.sys.cache.setBuf b
      { r.sys.cache.buf b with
        dev := dev, blockno := blockno, valid := false, refcnt := 1 }))).Viewed := by
  have hclean := hv.clean_of_free h hz
  have hlock := (h.free hz).1
  set x : Buf :=
    { r.sys.cache.buf b with dev := dev, blockno := blockno, valid := false, refcnt := 1 } with hx
  have hself : (r.sys.cache.setBuf b x).buf b = x := r.sys.cache.setBuf_buf_self b x
  have hother : ∀ {a}, a ≠ b → (r.sys.cache.setBuf b x).buf a = r.sys.cache.buf a :=
    fun ha => r.sys.cache.setBuf_buf_of_ne ha x
  constructor
  · intro q a hl
    rw [note_sys, BioSys.goto_cache] at hl ⊢
    by_cases ha : a = b
    · subst ha
      rw [hself, hx, hlock] at hl
      cases hl
    · rw [hother ha] at hl ⊢
      exact hv.holder_goto (by rw [hp]; simp) hl
  · intro a hval h0
    rw [note_sys, BioSys.goto_cache] at hval h0 ⊢
    by_cases ha : a = b
    · subst ha
      rw [hself] at hval
      cases hval
    · rw [hother ha] at hval h0 ⊢
      exact hv.data a hval h0
  · intro a hval
    rw [note_sys, BioSys.goto_cache] at hval
    by_cases ha : a = b
    · subst ha
      exact hclean
    · rw [hother ha] at hval
      exact hv.invalid a hval
  · intro a hd
    rw [note_sys, BioSys.goto_cache]
    by_cases ha : a = b
    · subst ha
      exact absurd hd (by rw [show (r.note _ _).dirty a = r.dirty a from rfl, hclean]; simp)
    · rw [hother ha]
      exact hv.safe a hd
  · intro dev' blockno' h0
    rcases hv.behind dev' blockno' h0 with heq | ⟨a, ha, hd⟩
    · exact Or.inl heq
    · refine Or.inr ⟨a, ?_, hd⟩
      have hne : a ≠ b := by
        rintro rfl
        rw [hclean] at hd
        cases hd
      rw [note_sys, BioSys.goto_cache, hother hne]
      exact ha

/-- `bread` reads the block if the buffer does not hold it. -/
theorem fill (hv : r.Viewed) (h : r.Referenced) (hp : r.sys.pc p = .reading b) :
    (r.note (.fill p) (r.sys.goto p .out
      (r.sys.cache.setBuf b (r.sys.fill (r.sys.cache.buf b))))).Viewed := by
  have h0 : (r.sys.cache.buf b).dev ≠ 0 := h.used b (h.used_by (Or.inr hp))
  by_cases hval : (r.sys.cache.buf b).valid = true
  · -- nothing is read
    have hsame : r.sys.cache.setBuf b (r.sys.fill (r.sys.cache.buf b)) = r.sys.cache := by
      rw [BioSys.fill, if_pos hval, Bcache.setBuf, Function.update_eq_self]
    rw [hsame]
    refine hv.frame (fun _ => rfl) rfl rfl rfl (fun q a hl => ?_) hv.safe
    by_cases ha : a = b
    · exact Or.inr (ha ▸ hval)
    · exact hv.holder_goto (by rw [hp]; simpa using Ne.symm ha) hl
  · rw [Bool.not_eq_true] at hval
    have hclean := hv.clean h (hv.invalid b hval) h0
    rw [BioSys.fill, if_neg (by simp [hval])]
    set x : Buf := { r.sys.cache.buf b with
      data := r.sys.disk (r.sys.cache.buf b).dev (r.sys.cache.buf b).blockno,
      valid := true } with hx
    have hself : (r.sys.cache.setBuf b x).buf b = x := r.sys.cache.setBuf_buf_self b x
    have hother : ∀ {a}, a ≠ b → (r.sys.cache.setBuf b x).buf a = r.sys.cache.buf a :=
      fun ha => r.sys.cache.setBuf_buf_of_ne ha x
    constructor
    · intro q a hl
      rw [note_sys, BioSys.goto_cache] at hl ⊢
      by_cases ha : a = b
      · subst ha
        exact Or.inr (by rw [hself])
      · rw [hother ha] at hl ⊢
        exact hv.holder_goto (by rw [hp]; simpa using Ne.symm ha) hl
    · intro a hval h0
      rw [note_sys, BioSys.goto_cache] at hval h0 ⊢
      by_cases ha : a = b
      · subst ha
        rw [hself]
        exact hclean
      · rw [hother ha] at hval h0 ⊢
        exact hv.data a hval h0
    · intro a hval
      rw [note_sys, BioSys.goto_cache] at hval
      by_cases ha : a = b
      · subst ha
        rw [hself] at hval
        cases hval
      · rw [hother ha] at hval
        exact hv.invalid a hval
    · intro a hd
      have hl : (((r.sys.cache.setBuf b x)).buf a).lock = (r.sys.cache.buf a).lock :=
        r.sys.cache.setBuf_same _ Buf.lock (by rfl) a
      rw [note_sys, BioSys.goto_cache, hl]
      exact hv.safe a hd
    · intro dev blockno h0
      refine (hv.behind dev blockno h0).imp_right ?_
      rintro ⟨a, ha, hd⟩
      refine ⟨a, ?_, hd⟩
      have hk : (((r.sys.cache.setBuf b x)).buf a).has dev blockno =
          (r.sys.cache.buf a).has dev blockno :=
        r.sys.cache.setBuf_same _ (Buf.has · dev blockno) (by rfl) a
      rw [note_sys, BioSys.goto_cache, hk]
      exact ha

end Viewed

/-- One block of a device changes. -/
theorem update_block (f : U32 → U32 → Block) (d n : U32) (x : Block) (d' n' : U32) :
    Function.update f d (Function.update (f d) n x) d' n' =
      if d' = d ∧ n' = n then x else f d' n' := by
  by_cases hd : d' = d
  · subst hd
    by_cases hn : n' = n
    · subst hn
      simp
    · simp [hn]
  · simp [hd]

namespace Viewed

/-- The holder of a buffer changes its data. -/
theorem store (hv : r.Viewed) (h : r.Referenced) (hp : r.sys.pc p = .out)
    (hl : (r.sys.cache.buf b).lock = some p) (data : Block) :
    (r.note (.store p b data) { r.sys with
      cache := r.sys.cache.setBuf b { r.sys.cache.buf b with data := data } }).Viewed := by
  have hval := hv.valid_of_lock hp hl
  have h0 : (r.sys.cache.buf b).dev ≠ 0 := h.used b (h.one_le_of_lock hl)
  set x : Buf := { r.sys.cache.buf b with data := data } with hx
  have hself : (r.sys.cache.setBuf b x).buf b = x := r.sys.cache.setBuf_buf_self b x
  have hother : ∀ {a}, a ≠ b → (r.sys.cache.setBuf b x).buf a = r.sys.cache.buf a :=
    fun ha => r.sys.cache.setBuf_buf_of_ne ha x
  have hlock : ∀ a, ((r.sys.cache.setBuf b x).buf a).lock = (r.sys.cache.buf a).lock :=
    r.sys.cache.setBuf_same _ Buf.lock (by rfl)
  have hvalid : ∀ a, ((r.sys.cache.setBuf b x).buf a).valid = (r.sys.cache.buf a).valid :=
    r.sys.cache.setBuf_same _ Buf.valid (by rfl)
  constructor
  · intro q a hq
    rw [note_sys] at hq ⊢
    simp only [hlock, hvalid] at hq ⊢
    exact hv.holder q a hq
  · intro a hva ha0
    rw [note_sys] at hva ha0 ⊢
    simp only [note, update_block]
    by_cases ha : a = b
    · subst ha
      rw [hself]
      simp [hx]
    · simp only [hother ha] at hva ha0 ⊢
      have hne : ¬ ((r.sys.cache.buf a).dev = (r.sys.cache.buf b).dev ∧
          (r.sys.cache.buf a).blockno = (r.sys.cache.buf b).blockno) := fun hk =>
        ha (h.listed.unique a b ha0 hk.1 hk.2)
      rw [if_neg hne]
      exact hv.data a hva ha0
  · intro a hva
    rw [note_sys] at hva
    simp only [hvalid] at hva
    have ha : a ≠ b := by
      rintro rfl
      rw [hval] at hva
      cases hva
    exact (Function.update_of_ne ha ..).trans (hv.invalid a hva)
  · intro a hd
    rw [note_sys]
    simp only [hlock]
    by_cases ha : a = b
    · subst ha
      exact Or.inr (by rw [hl]; rfl)
    · exact hv.safe a ((Function.update_of_ne ha ..).symm.trans hd)
  · intro dev blockno hd0
    have hk : ∀ a, ((r.sys.cache.setBuf b x).buf a).has dev blockno =
        (r.sys.cache.buf a).has dev blockno :=
      r.sys.cache.setBuf_same _ (Buf.has · dev blockno) (by rfl)
    rw [note_sys]
    simp only [hk, note, update_block]
    by_cases hkey : dev = (r.sys.cache.buf b).dev ∧ blockno = (r.sys.cache.buf b).blockno
    · refine Or.inr ⟨b, ?_, Function.update_self ..⟩
      rw [Buf.has, decide_eq_true_eq]
      exact ⟨hkey.1.symm, hkey.2.symm⟩
    · rw [if_neg hkey]
      refine (hv.behind dev blockno hd0).imp_right ?_
      rintro ⟨a, ha, hd⟩
      refine ⟨a, ha, ?_⟩
      by_cases hab : a = b
      · rw [hab, Function.update_self]
      · rw [Function.update_of_ne hab]
        exact hd

/-- The holder of a buffer writes it. -/
theorem bwrite (hv : r.Viewed) (h : r.Referenced) (hp : r.sys.pc p = .out)
    (hl : (r.sys.cache.buf b).lock = some p) :
    (r.note (.bwrite p b) (r.sys.write (r.sys.cache.buf b))).Viewed := by
  have hval := hv.valid_of_lock hp hl
  have h0 : (r.sys.cache.buf b).dev ≠ 0 := h.used b (h.one_le_of_lock hl)
  have hdirty : ∀ a, Function.update r.dirty b false a = true → a ≠ b ∧ r.dirty a = true := by
    intro a ha
    by_cases hab : a = b
    · rw [hab, Function.update_self] at ha
      cases ha
    · rw [Function.update_of_ne hab] at ha
      exact ⟨hab, ha⟩
  refine ⟨hv.holder, hv.data, fun a hva => ?_, fun a hd => hv.safe a (hdirty a hd).2, ?_⟩
  · by_cases hab : a = b
    · rw [hab]
      exact Function.update_self ..
    · exact (Function.update_of_ne hab ..).trans (hv.invalid a hva)
  · intro dev blockno hd0
    simp only [note, BioSys.write, update_block]
    by_cases hkey : dev = (r.sys.cache.buf b).dev ∧ blockno = (r.sys.cache.buf b).blockno
    · rw [if_pos hkey, hkey.1, hkey.2]
      exact Or.inl (hv.data b hval h0)
    · rw [if_neg hkey]
      refine (hv.behind dev blockno hd0).imp_right ?_
      rintro ⟨a, ha, hd⟩
      refine ⟨a, ha, ?_⟩
      have hab : a ≠ b := by
        rintro rfl
        rw [Buf.has, decide_eq_true_eq] at ha
        exact hkey ⟨ha.1.symm, ha.2.symm⟩
      rw [Function.update_of_ne hab]
      exact hd

theorem step (hv : r.Viewed) (h : r.Referenced) (hok : r.Careful e) (hs : histStep e r = some t) :
    t.Viewed := by
  obtain ⟨s, hs', rfl⟩ := Option.map_eq_some_iff.1 hs
  have hgoto : ∀ {p pc c}, (∀ b, r.sys.pc p ≠ .reading b) → ∀ q b, r.sys.pc q = .reading b →
      (r.sys.goto p pc c).pc q = .reading b := by
    intro p pc c hp q b hq
    have hne : q ≠ p := by
      rintro rfl
      exact hp b hq
    rwa [r.sys.goto_pc_of_ne hne]
  cases bioStep_to hs' with
  | bread hp hget =>
    cases h.listed.bget hget with
    | hit =>
      exact hv.frame_lock (r.sys.cache.setBuf_same _ Buf.contents (by rfl))
        (r.sys.cache.setBuf_same _ Buf.lock (by rfl)) rfl rfl rfl
        (hgoto fun b => by rw [hp]; simp) fun _ _ hb => hb
    | miss hmiss hz => exact hv.recycle h hz hp
  | @lock p b hp hl =>
    refine hv.frame (r.sys.cache.setBuf_same _ Buf.contents (by rfl)) rfl rfl rfl
      (fun q a hq => ?_) fun a hd => ?_
    · rw [note_sys, BioSys.goto_cache] at hq
      by_cases ha : a = b
      · subst ha
        rw [Bcache.setBuf_buf_self] at hq
        cases hq
        exact Or.inl (by simp)
      · rw [r.sys.cache.setBuf_buf_of_ne ha] at hq
        exact hv.holder_goto (by rw [hp]; simp) hq
    · rw [note_sys, BioSys.goto_cache]
      by_cases ha : a = b
      · subst ha
        exact Or.inr (by simp)
      · rw [r.sys.cache.setBuf_buf_of_ne ha]
        exact hv.safe a hd
  | fill hp => exact hv.fill h hp
  | store hp hl => exact hv.store h hp hl _
  | bwrite hp hl => exact hv.bwrite h hp hl
  | @brelse p b hp hl =>
    refine hv.frame (r.sys.cache.setBuf_same _ Buf.contents (by rfl)) rfl rfl rfl
      (fun q a hq => ?_) fun a hd => ?_
    · rw [note_sys, BioSys.goto_cache] at hq
      by_cases ha : a = b
      · subst ha
        rw [Bcache.setBuf_buf_self] at hq
        cases hq
      · rw [r.sys.cache.setBuf_buf_of_ne ha] at hq
        exact hv.holder_goto (by rw [hp]; simp) hq
    · rw [note_sys, BioSys.goto_cache]
      by_cases ha : a = b
      · subst ha
        exact Or.inl (hok hd)
      · rw [r.sys.cache.setBuf_buf_of_ne ha]
        exact hv.safe a hd
  | @unref p b hp =>
    refine hv.frame_lock (fun a => ?_) (fun a => ?_) rfl rfl rfl
      (hgoto fun b => by rw [hp]; simp) fun _ _ hb => hb
    · rw [note_sys, BioSys.goto_cache, Bcache.brelse_buf]
      exact r.sys.cache.setBuf_same _ Buf.contents (by rfl) a
    · rw [note_sys, BioSys.goto_cache, Bcache.brelse_buf]
      exact r.sys.cache.setBuf_same _ Buf.lock (by rfl) a
  | @bpin p b hp =>
    refine hv.frame_lock (r.sys.cache.setBuf_same _ Buf.contents (by rfl))
      (r.sys.cache.setBuf_same _ Buf.lock (by rfl)) rfl rfl rfl (fun _ _ hq => hq)
      fun a _ hpin => ?_
    by_cases ha : a = b
    · rw [ha]
      exact Function.update_self ..
    · exact (Function.update_of_ne ha ..).trans hpin
  | @bunpin p b hp =>
    refine hv.frame_lock (r.sys.cache.setBuf_same _ Buf.contents (by rfl))
      (r.sys.cache.setBuf_same _ Buf.lock (by rfl)) rfl rfl rfl (fun _ _ hq => hq)
      fun a hd hpin => ?_
    have ha : a ≠ b := by
      rintro rfl
      rw [hok.2] at hd
      cases hd
    exact (Function.update_of_ne ha ..).trans hpin

theorem start (links : Links BufPtr) (disk : U32 → U32 → Block) :
    (histStart links disk).Viewed where
  holder _ _ hl := by cases hl
  data _ hval := by cases hval
  invalid _ _ := rfl
  safe _ hd := by cases hd
  behind _ _ _ := Or.inl rfl

end Viewed

end BioHist

/-- **The buffer cache is transparent.**  In every run of careful processes, `bread` returns the
buffer of the block that was asked for, with the bytes last stored in the block or else those the
disk had; and a block that no buffer has is on the disk with these bytes. -/
theorem buffer_cache_transparent {links : Links BufPtr} {disk : U32 → U32 → Block} {r : BioHist}
    (h : Reach histStep BioHist.Careful (histStart links disk) r) :
    (∀ p b, r.sys.pc p = .reading b → ∃ t, histStep (.fill p) r = some t ∧
      (t.sys.cache.buf b).has (r.asked p).1 (r.asked p).2 ∧
      (t.sys.cache.buf b).data = r.stored (r.asked p).1 (r.asked p).2) ∧
    ∀ dev blockno, dev ≠ 0 → (∀ b, ¬ (r.sys.cache.buf b).has dev blockno) →
      r.sys.disk dev blockno = r.stored dev blockno := by
  obtain ⟨href, hview⟩ := h.invariant (I := fun r => r.Referenced ∧ r.Viewed)
    ⟨BioHist.referenced_start links disk, .start links disk⟩
    fun _ _ _ hI hok hs => ⟨hI.1.step hok hs, hI.2.step hI.1 hok hs⟩
  refine ⟨fun p b hp => ?_, fun dev blockno h0 hno => ?_⟩
  · have hs : histStep (.fill p) r = some (r.note (.fill p) (r.sys.goto p .out
        (r.sys.cache.setBuf b (r.sys.fill (r.sys.cache.buf b))))) := by
      rw [histStep, bioStep, hp]
      rfl
    refine ⟨_, hs, ?_⟩
    have hok : r.Careful (.fill p) := trivial
    have hview' := hview.step href hok hs
    have hhas := href.asked p b (Or.inr hp)
    have h0 := href.used b (href.used_by (Or.inr hp))
    rw [Buf.has, decide_eq_true_eq] at hhas
    have hdata := hview'.data b
    simp only [BioHist.note_sys, BioSys.goto_cache, Bcache.setBuf_buf_self] at hdata ⊢
    have hfill : (r.sys.fill (r.sys.cache.buf b)).valid = true ∧
        (r.sys.fill (r.sys.cache.buf b)).dev = (r.sys.cache.buf b).dev ∧
        (r.sys.fill (r.sys.cache.buf b)).blockno = (r.sys.cache.buf b).blockno := by
      rw [BioSys.fill]
      split_ifs with hval
      · exact ⟨hval, rfl, rfl⟩
      · exact ⟨rfl, rfl, rfl⟩
    rw [hfill.2.1, hfill.2.2, hhas.1, hhas.2] at hdata
    rw [hhas.1] at h0
    refine ⟨?_, hdata hfill.1 h0⟩
    rw [Buf.has, decide_eq_true_eq, hfill.2.1, hfill.2.2]
    exact hhas
  · refine (hview.behind dev blockno h0).resolve_right ?_
    rintro ⟨b, hb, -⟩
    exact hno b hb

/-- Process 0 changes a block, writes and releases it; process 1 reads it. -/
def writeRead : List BioEvent :=
  [.bread 0 1 5, .lock 0, .fill 0, .store 0 0 (fun _ => 7), .bwrite 0 0, .brelse 0 0, .unref 0,
    .bread 1 1 5, .lock 1]

theorem buffer_cache_transparent_writeRead : ∃ r t,
    Reach histStep BioHist.Careful (histStart ⟨id, id⟩ fun _ _ _ => 0) r ∧
      histStep (.fill 1) r = some t ∧ (t.sys.cache.buf 0).data = r.stored 1 5 := by
  have hrun : (runsOk histStep BioHist.Careful writeRead (histStart ⟨id, id⟩ fun _ _ _ => 0)).map
      (fun r => decide (r.sys.pc 1 = .reading 0 ∧ r.asked 1 = (1, 5))) = some true := by
    decide +kernel
  obtain ⟨r, hr, hfacts⟩ := Option.map_eq_some_iff.1 hrun
  obtain ⟨hpc, hasked⟩ := of_decide_eq_true hfacts
  have hreach := reach_of_runsOk hr
  obtain ⟨t, hfill, -, hdata⟩ := (buffer_cache_transparent hreach).1 1 0 hpc
  rw [hasked] at hdata
  exact ⟨r, t, hreach, hfill, hdata⟩

end Xv6
