import Mathlib.Data.List.GetD
import Xv6.Grep

/-!
# The lines of grep

The loop of `grep` in `user/grep.c`.  It reads into a buffer behind the part of a line that is left
from the read before, looks for lines, each cut off by a NUL while the matcher looks at it, and
moves what is left to the front of the buffer.

`grep_lines`: whatever pieces `read` returns, the lines that are written are those that the matcher
accepts.
-/

namespace Xv6.Grep

open Bytes Shell

/-! ### The code -/

/-- `sizeof(buf)`. -/
def BUFSZ : ℕ := 1024

def newline : Byte := ascii '\n'

/-- What `read(fd, p, n)` returns and what is left, if the file comes in the given pieces: a piece,
or as much of it as there is room for. -/
def read (n : ℕ) : List (List Byte) → List Byte × List (List Byte)
  | [] => ([], [])
  | x :: xs => if x.length ≤ n then (x, xs) else (x.take n, x.drop n :: xs)

/-- The buffer after the bytes `bs` have been stored at `m`. -/
def fill (buf : ℕ → Byte) (m : ℕ) (bs : List Byte) : ℕ → Byte := fun x =>
  if m ≤ x ∧ x < m + bs.length then bs.getD (x - m) 0 else buf x

/-- `strchr(s, c)` in a buffer of which `k` bytes are left. -/
def strchr (buf : ℕ → Byte) (c : Byte) : ℕ → ℕ → Option ℕ
  | 0, _ => none
  | k + 1, s => if buf s = 0 then none else if buf s = c then some s else strchr buf c k (s + 1)

/-- The string at `p` in a buffer of which `k` bytes are left. -/
def text (buf : ℕ → Byte) : ℕ → ℕ → Ptr
  | 0, _ => []
  | k + 1, p => if h : buf p = 0 then [] else ⟨buf p, h⟩ :: text buf k (p + 1)

/-- `while(n-- > 0) *dst++ = *src++;` -/
def copyUp (buf : ℕ → Byte) (dst src : ℕ) : ℕ → ℕ → Byte
  | 0 => buf
  | n + 1 => copyUp (Function.update buf dst (buf src)) (dst + 1) (src + 1) n

/-- `while(n-- > 0) *--dst = *--src;` from the ends. -/
def copyDown (buf : ℕ → Byte) (dst src : ℕ) : ℕ → ℕ → Byte
  | 0 => buf
  | n + 1 => copyDown (Function.update buf (dst + n) (buf (src + n))) dst src n

/-- `memmove(dst, src, n)` inside the buffer. -/
def memmove (buf : ℕ → Byte) (dst src n : ℕ) : ℕ → Byte :=
  if dst < src then copyUp buf dst src n else copyDown buf dst src n

/-- The state of the inner loop: the buffer, `p` and what has been written. -/
structure Scan where
  buf : ℕ → Byte
  p : ℕ
  out : List (List Byte)

/-- One line, from `p` to the newline at `q`. -/
def cutLine (pattern : Ptr) (s : Scan) (q : ℕ) : Scan :=
  let cut := Function.update s.buf q 0
  if grepMatch pattern (text cut (BUFSZ - s.p) s.p) then
    let whole := Function.update cut q newline
    ⟨whole, q + 1, s.out ++ [(List.range (q + 1 - s.p)).map fun i => whole (s.p + i)]⟩
  else ⟨cut, q + 1, s.out⟩

/-- The inner loop, with a bound on its rounds. -/
def cutLines (pattern : Ptr) : ℕ → Scan → Scan
  | 0, s => s
  | k + 1, s =>
    match strchr s.buf newline (BUFSZ - s.p) s.p with
    | none => s
    | some q => cutLines pattern k (cutLine pattern s q)

/-- The bytes that come. -/
def total (pieces : List (List Byte)) : ℕ := pieces.flatten.length

theorem read_total (n : ℕ) (pieces : List (List Byte)) :
    total (read n pieces).2 + (read n pieces).1.length = total pieces := by
  cases pieces with
  | nil => rfl
  | cons x xs =>
    rw [read]
    split_ifs with h
    · simp [total, Nat.add_comm]
    · simp only [total, List.flatten_cons, List.length_append, List.length_drop, List.length_take]
      omega

/-- `grep(pattern, fd)` from the head of its loop, with `m` bytes in the buffer: the lines that are
written. -/
def grepFrom (pattern : Ptr) (buf : ℕ → Byte) (m : ℕ) (pieces : List (List Byte)) :
    List (List Byte) :=
  let r := read (BUFSZ - m - 1) pieces
  if r.1 = [] then []
  else
    let m₁ := m + r.1.length
    let s := cutLines pattern BUFSZ ⟨Function.update (fill buf m r.1) m₁ 0, 0, []⟩
    if 0 < m₁ then s.out ++ grepFrom pattern (memmove s.buf 0 s.p (m₁ - s.p)) (m₁ - s.p) r.2
    else s.out ++ grepFrom pattern s.buf m₁ r.2
termination_by total pieces
decreasing_by
  all_goals
    have htotal := read_total (BUFSZ - m - 1) pieces
    have hpos : 0 < (read (BUFSZ - m - 1) pieces).1.length := List.length_pos_of_ne_nil ‹¬ _›
    change total (read (BUFSZ - m - 1) pieces).2 < total pieces
    omega

/-- `grep(pattern, fd)`; the buffer holds whatever was there before. -/
def grep (pattern : Ptr) (buf : ℕ → Byte) (pieces : List (List Byte)) : List (List Byte) :=
  grepFrom pattern buf 0 pieces

/-! ### The buffer -/

theorem copyUp_apply {dst src : ℕ} (h : dst < src) (buf : ℕ → Byte) (n x : ℕ) :
    copyUp buf dst src n x = if dst ≤ x ∧ x < dst + n then buf (src + (x - dst)) else buf x := by
  induction n generalizing buf dst src with
  | zero => rw [copyUp, if_neg (by omega)]
  | succ n ih =>
    rw [copyUp, ih (by omega)]
    by_cases hx : x = dst
    · rw [if_neg (by omega), if_pos (by omega), hx, Function.update_self, Nat.sub_self,
        Nat.add_zero]
    by_cases hin : dst ≤ x ∧ x < dst + (n + 1)
    · rw [if_pos (by omega), if_pos hin, Function.update_of_ne (by omega)]
      congr 1
      omega
    · rw [if_neg (by omega), if_neg hin, Function.update_of_ne hx]

theorem copyDown_apply {dst src : ℕ} (h : src ≤ dst) (buf : ℕ → Byte) (n x : ℕ) :
    copyDown buf dst src n x = if dst ≤ x ∧ x < dst + n then buf (src + (x - dst)) else buf x := by
  induction n generalizing buf with
  | zero => rw [copyDown, if_neg (by omega)]
  | succ n ih =>
    rw [copyDown, ih]
    by_cases hx : x = dst + n
    · rw [if_neg (by omega), if_pos (by omega), hx, Function.update_self, Nat.add_sub_cancel_left]
    by_cases hin : dst ≤ x ∧ x < dst + (n + 1)
    · rw [if_pos (by omega), if_pos hin, Function.update_of_ne (by omega)]
    · rw [if_neg (by omega), if_neg hin, Function.update_of_ne hx]

/-- `memmove` moves, also where the ranges overlap. -/
theorem memmove_apply (buf : ℕ → Byte) (dst src n x : ℕ) :
    memmove buf dst src n x =
      if dst ≤ x ∧ x < dst + n then buf (src + (x - dst)) else buf x := by
  unfold memmove
  split_ifs with h hx hx
  · rw [copyUp_apply h, if_pos hx]
  · rw [copyUp_apply h, if_neg hx]
  · rw [copyDown_apply (by omega), if_pos hx]
  · rw [copyDown_apply (by omega), if_neg hx]

/-- The bytes `bs` are in the buffer at `p`. -/
def Lies (buf : ℕ → Byte) (p : ℕ) (bs : List Byte) : Prop :=
  ∀ i < bs.length, buf (p + i) = bs.getD i 0

section

variable {buf buf' : ℕ → Byte} {p : ℕ}

theorem Lies.congr {bs : List Byte} (h : Lies buf p bs)
    (he : ∀ x, p ≤ x → x < p + bs.length → buf' x = buf x) : Lies buf' p bs :=
  fun i hi => (he (p + i) (by omega) (by omega)).trans (h i hi)

theorem lies_append {xs ys : List Byte} :
    Lies buf p (xs ++ ys) ↔ Lies buf p xs ∧ Lies buf (p + xs.length) ys := by
  constructor
  · intro h
    refine ⟨fun i hi => ?_, fun i hi => ?_⟩
    · rw [h i (by rw [List.length_append]; omega), List.getD_append _ _ _ _ hi]
    · rw [Nat.add_assoc, h (xs.length + i) (by rw [List.length_append]; omega),
        List.getD_append_right _ _ _ _ (by omega), Nat.add_sub_cancel_left]
  · rintro ⟨h1, h2⟩ i hi
    rw [List.length_append] at hi
    by_cases hx : i < xs.length
    · rw [h1 i hx, List.getD_append _ _ _ _ hx]
    · have := h2 (i - xs.length) (by omega)
      rw [show p + xs.length + (i - xs.length) = p + i by omega] at this
      rw [this, List.getD_append_right _ _ _ _ (by omega)]

theorem lies_cons {b : Byte} {bs : List Byte} :
    Lies buf p (b :: bs) ↔ buf p = b ∧ Lies buf (p + 1) bs := by
  rw [← List.singleton_append, lies_append]
  refine and_congr ⟨fun h => h 0 Nat.one_pos, fun h i hi => ?_⟩ Iff.rfl
  obtain rfl : i = 0 := by
    rw [List.length_singleton] at hi
    omega
  exact h

/-- The bytes of a string. -/
def bytes (l : Ptr) : List Byte := l.map Subtype.val

/-- A line with its newline. -/
def whole (l : Ptr) : List Byte := bytes l ++ [newline]

theorem length_bytes (l : Ptr) : (bytes l).length = l.length := List.length_map _

theorem length_whole (l : Ptr) : (whole l).length = l.length + 1 := by
  rw [whole, List.length_append, length_bytes]
  rfl

/-- `strchr` finds the end of a line. -/
theorem strchr_line {l : Ptr} (hl : newline ∉ bytes l) {k : ℕ} (hk : l.length < k)
    (h : Lies buf p (whole l)) : strchr buf newline k p = some (p + l.length) := by
  induction l generalizing p k with
  | nil =>
    obtain ⟨k, rfl⟩ : ∃ k', k = k' + 1 := ⟨k - 1, by omega⟩
    have hp : buf p = newline := (lies_cons.1 h).1
    rw [strchr, hp, if_neg (by decide), if_pos rfl]
    rfl
  | cons c l ih =>
    obtain ⟨k, rfl⟩ : ∃ k', k = k' + 1 := ⟨k - 1, by omega⟩
    obtain ⟨hp, hrest⟩ := lies_cons.1 (show Lies buf p (c.val :: whole l) from h)
    have hc : c.val ≠ newline ∧ newline ∉ bytes l := by
      rw [bytes, List.map_cons, List.mem_cons, not_or] at hl
      exact ⟨Ne.symm hl.1, hl.2⟩
    rw [List.length_cons] at hk
    rw [strchr, hp, if_neg c.2, if_neg hc.1, ih hc.2 (by omega) hrest, List.length_cons,
      Nat.add_assoc, Nat.add_comm 1]

/-- `strchr` finds nothing in a part of a line. -/
theorem strchr_part {l : Ptr} (hl : newline ∉ bytes l) (k : ℕ) (h : Lies buf p (bytes l ++ [0])) :
    strchr buf newline k p = none := by
  induction l generalizing p k with
  | nil =>
    cases k with
    | zero => rfl
    | succ k =>
      have hp : buf p = 0 := (lies_cons.1 h).1
      rw [strchr, if_pos hp]
  | cons c l ih =>
    cases k with
    | zero => rfl
    | succ k =>
      obtain ⟨hp, hrest⟩ := lies_cons.1 (show Lies buf p (c.val :: (bytes l ++ [0])) from h)
      rw [bytes, List.map_cons, List.mem_cons, not_or] at hl
      rw [strchr, hp, if_neg c.2, if_neg (Ne.symm hl.1), ih hl.2 k hrest]

/-- The string at `p`. -/
theorem text_eq {l : Ptr} {k : ℕ} (hk : l.length < k) (h : Lies buf p (bytes l ++ [0])) :
    text buf k p = l := by
  induction l generalizing p k with
  | nil =>
    obtain ⟨k, rfl⟩ : ∃ k', k = k' + 1 := ⟨k - 1, by omega⟩
    rw [text, dif_pos (lies_cons.1 h).1]
  | cons c l ih =>
    obtain ⟨k, rfl⟩ : ∃ k', k = k' + 1 := ⟨k - 1, by omega⟩
    obtain ⟨hp, hrest⟩ := lies_cons.1 (show Lies buf p (c.val :: (bytes l ++ [0])) from h)
    rw [List.length_cons] at hk
    rw [text, dif_neg (hp ▸ c.2), ih (by omega) hrest]
    exact congrArg (· :: l) (Subtype.ext hp)

end

/-! ### Lines -/

/-- What is written of a list of lines. -/
def accepted (pattern : Ptr) (ls : List Ptr) : List (List Byte) :=
  (ls.filter fun l => grepMatch pattern l).map whole

theorem accepted_cons (pattern l : Ptr) (ls : List Ptr) :
    accepted pattern (l :: ls) =
      (if grepMatch pattern l then [whole l] else []) ++ accepted pattern ls := by
  unfold accepted
  rw [List.filter_cons]
  split_ifs <;> rfl

/-- A line in the buffer is cut off, looked at, and written whole if it is accepted. -/
theorem cutLine_spec (pattern : Ptr) {s : Scan} {l : Ptr} (hroom : s.p + l.length < BUFSZ)
    (h : Lies s.buf s.p (whole l)) :
    ∃ buf, cutLine pattern s (s.p + l.length) = ⟨buf, s.p + l.length + 1,
        s.out ++ if grepMatch pattern l then [whole l] else []⟩ ∧
      ∀ x, s.p + l.length < x → buf x = s.buf x := by
  have hline := (lies_append.1 h).1
  have hcut : Lies (Function.update s.buf (s.p + l.length) 0) s.p (bytes l ++ [0]) := by
    refine lies_append.2 ⟨hline.congr fun x _ hx => ?_, lies_cons.2 ⟨?_, fun i hi => nomatch hi⟩⟩
    · rw [length_bytes] at hx
      exact Function.update_of_ne (by omega) ..
    · rw [length_bytes, Function.update_self]
  rw [cutLine, text_eq (by omega) hcut]
  by_cases hm : grepMatch pattern l
  · rw [if_pos hm, if_pos hm]
    -- the NUL is a newline again when the line is written
    have hbuf : Function.update (Function.update s.buf (s.p + l.length) 0) (s.p + l.length)
        newline = s.buf := by
      have hq : s.buf (s.p + l.length) = newline := by
        have := (lies_cons.1 (lies_append.1 h).2).1
        rwa [length_bytes] at this
      rw [Function.update_idem, ← hq, Function.update_eq_self]
    have hout : (List.range (s.p + l.length + 1 - s.p)).map (fun i => s.buf (s.p + i)) =
        whole l := by
      refine List.ext_getElem (by simp [length_whole]; omega) fun i h1 h2 => ?_
      rw [List.getElem_map, List.getElem_range, h i h2]
      exact List.getD_eq_getElem _ _ h2
    refine ⟨s.buf, ?_, fun _ _ => rfl⟩
    dsimp only
    rw [hbuf, hout]
  · rw [if_neg hm, if_neg hm, List.append_nil]
    exact ⟨_, rfl, fun x hx => Function.update_of_ne (by omega) ..⟩

/-- The inner loop goes through the lines of the buffer and stops at the part of a line at the
end. -/
theorem cutLines_spec (pattern : Ptr) {ls : List Ptr} (hls : ∀ l ∈ ls, newline ∉ bytes l)
    {rest : Ptr} (hrest : newline ∉ bytes rest) {k : ℕ} {s : Scan} (hk : ls.length < k)
    (hroom : s.p + ((ls.map whole).flatten ++ bytes rest).length < BUFSZ)
    (h : Lies s.buf s.p ((ls.map whole).flatten ++ (bytes rest ++ [0]))) :
    ∃ buf, cutLines pattern k s =
        ⟨buf, s.p + (ls.map whole).flatten.length, s.out ++ accepted pattern ls⟩ ∧
      Lies buf (s.p + (ls.map whole).flatten.length) (bytes rest) := by
  induction ls generalizing k s with
  | nil =>
    obtain ⟨k, rfl⟩ : ∃ k', k = k' + 1 := ⟨k - 1, by omega⟩
    rw [cutLines, strchr_part hrest _ h]
    exact ⟨s.buf, by simp [accepted],
      (lies_append.1 (show Lies s.buf s.p (bytes rest ++ [0]) from h)).1⟩
  | cons l ls ih =>
    obtain ⟨k, rfl⟩ : ∃ k', k = k' + 1 := ⟨k - 1, by omega⟩
    rw [List.length_cons] at hk
    rw [List.map_cons, List.flatten_cons, List.append_assoc] at h
    rw [List.map_cons, List.flatten_cons, List.append_assoc, List.length_append,
      length_whole] at hroom
    obtain ⟨hl, hrests⟩ := lies_append.1 h
    rw [length_whole] at hrests
    obtain ⟨buf, hcut, hsame⟩ := cutLine_spec pattern (by omega) hl
    rw [cutLines, strchr_line (hls l List.mem_cons_self) (by omega) hl]
    dsimp only
    rw [hcut]
    obtain ⟨buf', hloop, hlies⟩ := ih (fun l' hl' => hls l' (List.mem_cons_of_mem l hl')) (k := k)
      (s := ⟨buf, s.p + l.length + 1, s.out ++ if grepMatch pattern l then [whole l] else []⟩)
      (by omega) (by dsimp only; omega) (hrests.congr fun x hx _ => hsame x (by omega))
    refine ⟨buf', ?_, ?_⟩
    · rw [hloop, accepted_cons, List.append_assoc, List.map_cons, List.flatten_cons,
        List.length_append, length_whole]
      congr 1
      dsimp only
      omega
    · rw [List.map_cons, List.flatten_cons, List.length_append, length_whole]
      have hp : s.p + (l.length + 1 + (ls.map whole).flatten.length) =
          s.p + l.length + 1 + (ls.map whole).flatten.length := by omega
      rwa [hp]

/-- The first bytes of some lines are whole lines and a part of the next one. -/
theorem split_lines {ls : List Ptr} (hls : ∀ l ∈ ls, newline ∉ bytes l) {xs ys : List Byte}
    (h : xs ++ ys = (ls.map whole).flatten) :
    ∃ ls₁ ls₂ rest, ls = ls₁ ++ ls₂ ∧ xs = (ls₁.map whole).flatten ++ bytes rest ∧
      newline ∉ bytes rest ∧ bytes rest ++ ys = (ls₂.map whole).flatten ∧
      (ls₂ = [] → rest = []) ∧ ∀ l ∈ ls₂.head?, rest.length ≤ l.length := by
  induction ls generalizing xs with
  | nil =>
    obtain ⟨rfl, rfl⟩ := List.append_eq_nil_iff.1 (show xs ++ ys = [] from h)
    exact ⟨[], [], [], rfl, rfl, List.not_mem_nil, rfl, fun _ => rfl, fun l hl => nomatch hl⟩
  | cons l ls ih =>
    rw [List.map_cons, List.flatten_cons, whole, List.append_assoc] at h
    by_cases hle : xs.length ≤ l.length
    · -- the bytes are all in the first line
      have hxs : xs = bytes (l.take xs.length) := by
        rw [bytes, List.map_take, ← bytes]
        have := congrArg (List.take xs.length) h
        rw [List.take_left, List.take_append_of_le_length (by rwa [length_bytes])] at this
        exact this
      refine ⟨[], l :: ls, l.take xs.length, rfl, hxs, fun hmem => ?_, ?_, nofun, ?_⟩
      · refine hls l List.mem_cons_self ?_
        rw [bytes, List.map_take] at hmem
        exact List.mem_of_mem_take hmem
      · rw [← hxs, h, List.map_cons, List.flatten_cons, whole, List.append_assoc]
      · intro l' hl'
        obtain rfl : l = l' := Option.some.inj hl'
        rw [List.length_take]
        omega
    · -- the first line is whole
      have hlen : (whole l).length ≤ xs.length := by
        rw [length_whole]
        omega
      rw [← List.append_assoc] at h
      have hxs : xs = whole l ++ xs.drop (whole l).length := by
        have := congrArg (List.take (whole l).length) h
        rw [List.take_append_of_le_length hlen] at this
        rw [show bytes l ++ [newline] = whole l from rfl, List.take_left] at this
        calc xs = xs.take (whole l).length ++ xs.drop (whole l).length :=
              (List.take_append_drop ..).symm
          _ = _ := by rw [this]
      have htail : xs.drop (whole l).length ++ ys = (ls.map whole).flatten := by
        have := congrArg (List.drop (whole l).length) h
        rwa [List.drop_append_of_le_length hlen, show bytes l ++ [newline] = whole l from rfl,
          List.drop_left] at this
      obtain ⟨ls₁, ls₂, rest, rfl, hsplit, hno, hrest, hnil, hhead⟩ :=
        ih (fun l' hl' => hls l' (List.mem_cons_of_mem l hl')) htail
      refine ⟨l :: ls₁, ls₂, rest, rfl, ?_, hno, hrest, hnil, hhead⟩
      rw [List.map_cons, List.flatten_cons, List.append_assoc, ← hsplit]
      exact hxs

theorem length_le_flatten (ls : List Ptr) : ls.length ≤ (ls.map whole).flatten.length := by
  induction ls with
  | nil => exact le_rfl
  | cons l ls ih =>
    rw [List.map_cons, List.flatten_cons, List.length_append, length_whole, List.length_cons]
    omega

/-! ### The pieces -/

theorem read_flatten (n : ℕ) (pieces : List (List Byte)) :
    (read n pieces).1 ++ (read n pieces).2.flatten = pieces.flatten := by
  cases pieces with
  | nil => rfl
  | cons x xs =>
    rw [read]
    split_ifs
    · rfl
    · rw [List.flatten_cons, List.flatten_cons, ← List.append_assoc, List.take_append_drop]

theorem read_length (n : ℕ) (pieces : List (List Byte)) : (read n pieces).1.length ≤ n := by
  cases pieces with
  | nil => exact Nat.zero_le n
  | cons x xs =>
    rw [read]
    split_ifs with h
    · exact h
    · exact List.length_take_le n x

/-- What is left comes in pieces that are not empty. -/
theorem read_pieces {n : ℕ} {pieces : List (List Byte)} (h : ∀ x ∈ pieces, x ≠ []) :
    ∀ x ∈ (read n pieces).2, x ≠ [] := by
  cases pieces with
  | nil => exact h
  | cons x xs =>
    rw [read]
    split_ifs with hx
    · exact fun y hy => h y (List.mem_cons_of_mem x hy)
    · intro y hy
      rcases List.mem_cons.1 hy with rfl | hy
      · rw [ne_eq, List.drop_eq_nil_iff]
        omega
      · exact h y (List.mem_cons_of_mem x hy)

/-- `read` returns 0 only at the end. -/
theorem read_eq_nil {n : ℕ} (hn : 0 < n) {pieces : List (List Byte)} (h : ∀ x ∈ pieces, x ≠ [])
    (hr : (read n pieces).1 = []) : pieces = [] := by
  cases pieces with
  | nil => rfl
  | cons x xs =>
    have hx := List.length_pos_of_ne_nil (h x List.mem_cons_self)
    rw [read] at hr
    split_ifs at hr
    · rw [show x = [] from hr] at hx
      exact absurd hx (lt_irrefl 0)
    · have := congrArg List.length hr
      rw [List.length_take, List.length_nil] at this
      omega

/-- A line that fits into the buffer. -/
def Fits (l : Ptr) : Prop := newline ∉ bytes l ∧ l.length + 1 ≤ 1023

instance (l : Ptr) : Decidable (Fits l) := inferInstanceAs (Decidable (_ ∧ _))

/-- The loop of `grep`, with a part of a line in the buffer. -/
theorem grepFrom_lines (pattern : Ptr) {ls : List Ptr} (hls : ∀ l ∈ ls, Fits l)
    {pieces : List (List Byte)} (hne : ∀ x ∈ pieces, x ≠ []) {buf : ℕ → Byte} (part : Ptr)
    (hpart : newline ∉ bytes part) (hbuf : Lies buf 0 (bytes part))
    (hend : ls = [] → part = []) (hhead : ∀ l ∈ ls.head?, part.length ≤ l.length)
    (h : bytes part ++ pieces.flatten = (ls.map whole).flatten) :
    grepFrom pattern buf part.length pieces = accepted pattern ls := by
  induction hn : total pieces using Nat.strong_induction_on generalizing ls pieces buf part with
  | _ n ih =>
    have hB : BUFSZ = 1024 := rfl
    have hsmall : part.length ≤ 1022 := by
      cases ls with
      | nil => simp [hend rfl]
      | cons l ls =>
        have h1 := hhead l rfl
        have h2 := (hls l List.mem_cons_self).2
        omega
    rw [grepFrom]
    by_cases hr : (read (BUFSZ - part.length - 1) pieces).1 = []
    · -- nothing comes any more: the part is empty
      obtain rfl := read_eq_nil (by omega) hne hr
      rw [if_pos hr]
      rw [List.flatten_nil, List.append_nil] at h
      cases ls with
      | nil => rfl
      | cons l ls =>
        refine absurd ?_ hpart
        rw [h, List.map_cons, List.flatten_cons, whole]
        simp
    rw [if_neg hr]
    have hpos := List.length_pos_of_ne_nil hr
    have hroom := read_length (BUFSZ - part.length - 1) pieces
    have htotal := read_total (BUFSZ - part.length - 1) pieces
    have hflat := read_flatten (BUFSZ - part.length - 1) pieces
    have hne' := read_pieces (n := BUFSZ - part.length - 1) hne
    generalize read (BUFSZ - part.length - 1) pieces = r at hr hpos hroom htotal hflat hne'
    dsimp only
    rw [if_pos (by omega)]
    rw [← hflat, ← List.append_assoc] at h
    obtain ⟨ls₁, ls₂, rest, rfl, hsplit, hrest, hafter, hnil, hhead'⟩ :=
      split_lines (fun l hl => (hls l hl).1) h
    have hlen := congrArg List.length hsplit
    rw [List.length_append, List.length_append, length_bytes, length_bytes] at hlen
    -- the part and the piece are in the buffer, and a NUL behind them
    have hlies : Lies (Function.update (fill buf part.length r.1) (part.length + r.1.length) 0) 0
        ((ls₁.map whole).flatten ++ (bytes rest ++ [0])) := by
      rw [← List.append_assoc, ← hsplit, List.append_assoc]
      refine lies_append.2 ⟨hbuf.congr fun x _ hx => ?_, lies_append.2 ⟨fun i hi => ?_, ?_⟩⟩
      · rw [length_bytes] at hx
        rw [Function.update_of_ne (by omega), fill, if_neg (by omega)]
      · rw [length_bytes, Function.update_of_ne (by omega), fill, if_pos (by omega)]
        congr 1
        omega
      · refine lies_cons.2 ⟨?_, fun i hi => nomatch hi⟩
        rw [length_bytes, Nat.zero_add, Function.update_self]
    have hcount := length_le_flatten ls₁
    obtain ⟨buf', hcut, hleft⟩ := cutLines_spec pattern
      (s := ⟨Function.update (fill buf part.length r.1) (part.length + r.1.length) 0, 0, []⟩)
      (fun l hl => (hls l (List.mem_append_left ls₂ hl)).1) hrest (k := BUFSZ) (by omega)
      (by rw [List.length_append, length_bytes]; dsimp only; omega) hlies
    rw [hcut]
    dsimp only at hleft ⊢
    rw [Nat.zero_add] at hleft ⊢
    have hm : part.length + r.1.length - (ls₁.map whole).flatten.length = rest.length := by omega
    rw [hm, List.nil_append]
    rw [ih (total r.2) (by omega) (fun l hl => hls l (List.mem_append_right ls₁ hl)) hne' rest hrest
      (fun i hi => ?_) hnil hhead' hafter rfl]
    · unfold accepted
      rw [List.filter_append, List.map_append]
    · rw [length_bytes] at hi
      rw [memmove_apply, if_pos (by omega), Nat.zero_add, Nat.sub_zero,
        hleft i (by rwa [length_bytes])]

/-- **The output of grep does not depend on the pieces.**  For lines that fit into the buffer, in
whatever pieces they come, `grep` writes the lines that the matcher accepts, whole, in order and
each once. -/
theorem grep_lines (pattern : Ptr) (buf : ℕ → Byte) (ls : List Ptr) (hls : ∀ l ∈ ls, Fits l)
    (pieces : List (List Byte)) (hne : ∀ x ∈ pieces, x ≠ [])
    (h : pieces.flatten = (ls.map whole).flatten) :
    grep pattern buf pieces = (ls.filter fun l => grepMatch pattern l).map whole :=
  grepFrom_lines pattern hls hne [] List.not_mem_nil (fun _ hi => nomatch hi)
    (fun _ => rfl) (fun _ _ => Nat.zero_le _) h

/-- The lines `a` and `b` come in three pieces, and the pattern is `a`. -/
theorem grep_lines_pieces :
    grep [⟨97, by decide⟩] (fun _ => 0) [[97], [10, 98], [10]] = [[97, 10]] :=
  (grep_lines [⟨97, by decide⟩] (fun _ => 0) [[⟨97, by decide⟩], [⟨98, by decide⟩]] (by decide) _
    (by decide) (by decide)).trans (by decide)

end Xv6.Grep
