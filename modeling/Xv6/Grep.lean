import Mathlib.Computability.Language
import Xv6.Shell

/-!
# The matcher of grep

`match`, `matchhere` and `matchstar` of `user/grep.c`, and the language of patterns that they
decide.  A pointer into a string is what is left of the string from there, as in the shell; the NUL
at its end is the empty rest.

A pattern is read as a list of items, with an anchor at either end (`Pattern.read`), and an item
stands for a language over the characters.  `match` finds a substring of the text that is in the
language of the pattern, if there is one (`grepMatch_iff`).
-/

namespace Xv6.Grep

open Shell

/-! ### The code -/

/-- `*text != '\0' && (c == '.' || c == *text)`, then go on behind the character. -/
def matchone (c : Ch) (next : Ptr → Bool) : Ptr → Bool
  | [] => false
  | t :: text => (c.val = ascii '.' ∨ c = t) && next text

/-- `matchstar(c, re, text)`; `here` is `matchhere(re, ·)`. -/
def matchstar (here : Ptr → Bool) (c : Ch) : Ptr → Bool
  | [] => here []
  | t :: text => here (t :: text) || ((t = c ∨ c.val = ascii '.') && matchstar here c text)

/-- `matchhere(re, text)`. -/
def matchhere : Ptr → Ptr → Bool
  | [], _ => true
  | [c], text => if c.val = ascii '$' then text.isEmpty else matchone c (matchhere []) text
  | c :: d :: re, text =>
    if d.val = ascii '*' then matchstar (matchhere re) c text
    else matchone c (matchhere (d :: re)) text

/-- The loop of `match`: `matchhere` at every place of the text, the end included. -/
def matchanywhere (re : Ptr) : Ptr → Bool
  | [] => matchhere re []
  | t :: text => matchhere re (t :: text) || matchanywhere re text

/-- `match(re, text)`. -/
def grepMatch (re text : Ptr) : Bool :=
  match re with
  | c :: re' => if c.val = ascii '^' then matchhere re' text else matchanywhere re text
  | [] => matchanywhere re text

/-! ### The language of a pattern -/

/-- What a single character of a pattern stands for. -/
inductive Atom
  /-- any character -/
  | any
  | char (c : Ch)
  deriving DecidableEq

/-- A character of a pattern, and whether it may be repeated. -/
structure Item where
  atom : Atom
  star : Bool
  deriving DecidableEq

/-- A pattern: its items, and whether it is tied to the start and to the end of the text. -/
structure Pattern where
  atStart : Bool
  items : List Item
  atEnd : Bool
  deriving DecidableEq

/-- `.` is any character; every other character stands for itself. -/
def Atom.of (c : Ch) : Atom := if c.val = ascii '.' then .any else .char c

/-- Read the items of a pattern from left to right: a character and the `*` behind it are one item,
and a `$` is an anchor if it is the last character. -/
def readItems : Ptr → List Item × Bool
  | [] => ([], false)
  | [c] => if c.val = ascii '$' then ([], true) else ([⟨Atom.of c, false⟩], false)
  | c :: d :: re =>
    if d.val = ascii '*' then (⟨Atom.of c, true⟩ :: (readItems re).1, (readItems re).2)
    else (⟨Atom.of c, false⟩ :: (readItems (d :: re)).1, (readItems (d :: re)).2)

/-- Read a pattern; a `^` is an anchor if it is the first character. -/
def Pattern.read (re : Ptr) : Pattern :=
  match re with
  | c :: re' =>
    if c.val = ascii '^' then ⟨true, (readItems re').1, (readItems re').2⟩
    else ⟨false, (readItems re).1, (readItems re).2⟩
  | [] => ⟨false, [], false⟩

/-- The characters an atom stands for. -/
def Atom.Accepts : Atom → Ch → Prop
  | .any, _ => True
  | .char c, t => t = c

/-- The words of one character. -/
def Atom.lang (x : Atom) : Language Ch := {w | ∃ t, x.Accepts t ∧ w = [t]}

open Computability in
def Item.lang (x : Item) : Language Ch := if x.star then x.atom.lang∗ else x.atom.lang

/-- The language of a sequence of items. -/
def itemsLang (items : List Item) : Language Ch := (items.map Item.lang).prod

/-- Some substring of the text is in the language of the pattern, at the ends that it is tied to. -/
def Pattern.Finds (p : Pattern) (text : Ptr) : Prop :=
  ∃ before found after, text = before ++ found ++ after ∧ found ∈ itemsLang p.items ∧
    (p.atStart → before = []) ∧ (p.atEnd → after = [])

/-! ### The matcher decides it -/

theorem accepts_of (c t : Ch) : (Atom.of c).Accepts t ↔ c.val = ascii '.' ∨ t = c := by
  unfold Atom.of
  split_ifs with h
  · simp [Atom.Accepts, h]
  · simp [Atom.Accepts, h]

open Computability in
/-- A repeated atom stands for all words over its characters. -/
theorem mem_kstar_atom (x : Atom) (w : Ptr) : w ∈ x.lang∗ ↔ ∀ t ∈ w, x.Accepts t := by
  constructor
  · rintro ⟨ws, rfl, hws⟩ t ht
    obtain ⟨v, hv, htv⟩ := List.mem_flatten.1 ht
    obtain ⟨t', hacc, rfl⟩ := hws v hv
    rwa [List.mem_singleton.1 htv]
  · intro h
    refine ⟨w.map fun t => [t], ?_, ?_⟩
    · induction w with
      | nil => rfl
      | cons t w ih =>
        rw [List.map_cons, List.flatten_cons, ← ih fun t' ht' => h t' (List.mem_cons_of_mem t ht')]
        rfl
    · intro v hv
      obtain ⟨t, ht, rfl⟩ := List.mem_map.1 hv
      exact ⟨t, h t ht, rfl⟩

theorem mem_itemsLang_cons (x : Item) (items : List Item) (w : Ptr) :
    w ∈ itemsLang (x :: items) ↔ ∃ w₁ ∈ x.lang, ∃ w₂ ∈ itemsLang items, w₁ ++ w₂ = w := by
  rw [itemsLang, List.map_cons, List.prod_cons, Language.mem_mul]
  rfl

theorem mem_itemsLang_nil (w : Ptr) : w ∈ itemsLang [] ↔ w = [] := Language.mem_one w

/-- A character, and then something that starts behind it. -/
theorem matchone_iff (c : Ch) (next : Ptr → Bool) (text : Ptr) :
    matchone c next text = true ↔
      ∃ w ∈ (Atom.of c).lang, ∃ rest, text = w ++ rest ∧ next rest = true := by
  cases text with
  | nil =>
    refine ⟨fun h => absurd h Bool.false_ne_true, ?_⟩
    rintro ⟨w, ⟨t, -, rfl⟩, rest, h, -⟩
    cases h
  | cons t text =>
    rw [matchone, Bool.and_eq_true, decide_eq_true_eq]
    constructor
    · rintro ⟨hc, hnext⟩
      exact ⟨[t], ⟨t, (accepts_of c t).2 (hc.imp_right Eq.symm), rfl⟩, text, rfl, hnext⟩
    · rintro ⟨w, ⟨t', hacc, rfl⟩, rest, h, hnext⟩
      obtain ⟨rfl, rfl⟩ := List.cons.inj h
      exact ⟨((accepts_of c t).1 hacc).imp_right Eq.symm, hnext⟩

open Computability in
/-- Some characters that the atom stands for, and then something that starts behind them. -/
theorem matchstar_iff (here : Ptr → Bool) (c : Ch) (text : Ptr) :
    matchstar here c text = true ↔
      ∃ w ∈ (Atom.of c).lang∗, ∃ rest, text = w ++ rest ∧ here rest = true := by
  induction text with
  | nil =>
    rw [matchstar]
    constructor
    · exact fun h => ⟨[], Language.nil_mem_kstar _, [], rfl, h⟩
    · rintro ⟨w, -, rest, h, hrest⟩
      obtain ⟨-, rfl⟩ := List.append_eq_nil_iff.1 h.symm
      exact hrest
  | cons t text ih =>
    rw [matchstar, Bool.or_eq_true, Bool.and_eq_true, decide_eq_true_eq, ih]
    constructor
    · rintro (h | ⟨hc, w, hw, rest, rfl, hrest⟩)
      · exact ⟨[], Language.nil_mem_kstar _, t :: text, rfl, h⟩
      · refine ⟨t :: w, (mem_kstar_atom _ _).2 fun t' ht' => ?_, rest, rfl, hrest⟩
        rcases List.mem_cons.1 ht' with rfl | ht'
        · exact (accepts_of c t').2 hc.symm
        · exact (mem_kstar_atom _ _).1 hw t' ht'
    · rintro ⟨w, hw, rest, h, hrest⟩
      cases w with
      | nil =>
        rw [List.nil_append] at h
        exact Or.inl (h ▸ hrest)
      | cons t' w =>
        obtain ⟨rfl, rfl⟩ := List.cons.inj h
        rw [mem_kstar_atom] at hw
        refine Or.inr ⟨((accepts_of c t).1 (hw t List.mem_cons_self)).symm, w, ?_, rest, rfl, hrest⟩
        exact (mem_kstar_atom _ _).2 fun t' ht' => hw t' (List.mem_cons_of_mem t ht')

/-- The text begins with a word of the items; if they are tied to the end, it is all of the text. -/
def Begins (items : List Item × Bool) (text : Ptr) : Prop :=
  ∃ found ∈ itemsLang items.1, ∃ after, text = found ++ after ∧ (items.2 → after = [])

theorem begins_cons (x : Item) (items : List Item × Bool) (text : Ptr) :
    Begins (x :: items.1, items.2) text ↔
      ∃ w ∈ x.lang, ∃ rest, text = w ++ rest ∧ Begins items rest := by
  constructor
  · rintro ⟨found, hf, after, rfl, hend⟩
    obtain ⟨w₁, h₁, w₂, h₂, rfl⟩ := (mem_itemsLang_cons _ _ _).1 hf
    exact ⟨w₁, h₁, w₂ ++ after, List.append_assoc .., w₂, h₂, after, rfl, hend⟩
  · rintro ⟨w, hw, -, rfl, found, hf, after, rfl, hend⟩
    exact ⟨w ++ found, (mem_itemsLang_cons _ _ _).2 ⟨w, hw, found, hf, rfl⟩, after,
      (List.append_assoc ..).symm, hend⟩

/-- `matchhere` finds a word of the items at the start of the text. -/
theorem matchhere_iff (re text : Ptr) : matchhere re text = true ↔ Begins (readItems re) text := by
  induction re using readItems.induct generalizing text with
  | case1 => exact ⟨fun _ => ⟨[], rfl, text, rfl, by simp [readItems]⟩, fun _ => rfl⟩
  | case2 c hend =>
    rw [readItems, if_pos hend, matchhere, if_pos hend, List.isEmpty_iff]
    constructor
    · rintro rfl
      exact ⟨[], rfl, [], rfl, fun _ => rfl⟩
    · rintro ⟨found, hf, after, rfl, hafter⟩
      rw [(mem_itemsLang_nil found).1 hf, hafter rfl]
      rfl
  | case3 c hend =>
    rw [readItems, if_neg hend, matchhere, if_neg hend, matchone_iff]
    refine Iff.trans ?_ (begins_cons ⟨Atom.of c, false⟩ ([], false) text).symm
    have hnil : ∀ rest : Ptr, Begins ([], false) rest := fun rest => ⟨[], rfl, rest, rfl, nofun⟩
    simp only [matchhere, Item.lang, Bool.false_eq_true, if_false, hnil]
  | case4 c d re hstar ih =>
    rw [readItems, if_pos hstar, matchhere, if_pos hstar, begins_cons, matchstar_iff]
    simp only [ih, Item.lang, if_true]
  | case5 c d re hstar ih =>
    rw [readItems, if_neg hstar, matchhere, if_neg hstar, begins_cons, matchone_iff]
    simp only [ih, Item.lang, Bool.false_eq_true, if_false]

/-- The loop of `match` finds one anywhere. -/
theorem matchanywhere_iff (re text : Ptr) :
    matchanywhere re text = true ↔ ∃ before rest, text = before ++ rest ∧
      Begins (readItems re) rest := by
  induction text with
  | nil =>
    rw [matchanywhere, matchhere_iff]
    constructor
    · exact fun h => ⟨[], [], rfl, h⟩
    · rintro ⟨before, rest, h, hrest⟩
      obtain ⟨-, rfl⟩ := List.append_eq_nil_iff.1 h.symm
      exact hrest
  | cons t text ih =>
    rw [matchanywhere, Bool.or_eq_true, matchhere_iff, ih]
    constructor
    · rintro (h | ⟨before, rest, rfl, hrest⟩)
      · exact ⟨[], t :: text, rfl, h⟩
      · exact ⟨t :: before, rest, rfl, hrest⟩
    · rintro ⟨before, rest, h, hrest⟩
      cases before with
      | nil => exact Or.inl (h ▸ hrest)
      | cons t' before =>
        obtain ⟨rfl, rfl⟩ := List.cons.inj h
        exact Or.inr ⟨before, rest, rfl, hrest⟩

theorem finds_free (items : List Item × Bool) (text : Ptr) :
    (⟨false, items.1, items.2⟩ : Pattern).Finds text ↔
      ∃ before rest, text = before ++ rest ∧ Begins items rest := by
  constructor
  · rintro ⟨before, found, after, rfl, hf, -, hend⟩
    exact ⟨before, found ++ after, List.append_assoc .., found, hf, after, rfl, hend⟩
  · rintro ⟨before, -, rfl, found, hf, after, rfl, hend⟩
    exact ⟨before, found, after, (List.append_assoc ..).symm, hf, nofun, hend⟩

theorem finds_atStart (items : List Item × Bool) (text : Ptr) :
    (⟨true, items.1, items.2⟩ : Pattern).Finds text ↔ Begins items text := by
  constructor
  · rintro ⟨before, found, after, rfl, hf, hstart, hend⟩
    exact ⟨found, hf, after, by rw [hstart rfl, List.nil_append], hend⟩
  · rintro ⟨found, hf, after, rfl, hend⟩
    exact ⟨[], found, after, rfl, hf, fun _ => rfl, hend⟩

/-- **The matcher decides its language**: `match(re, text)` is 1 exactly if some substring of the
text is in the language of the pattern. -/
theorem grepMatch_iff (re text : Ptr) :
    grepMatch re text = true ↔ (Pattern.read re).Finds text := by
  cases re with
  | nil => exact (matchanywhere_iff [] text).trans (finds_free ([], false) text).symm
  | cons c re =>
    rw [grepMatch, Pattern.read]
    split_ifs with hc
    · exact (matchhere_iff re text).trans (finds_atStart (readItems re) text).symm
    · exact (matchanywhere_iff (c :: re) text).trans (finds_free (readItems (c :: re)) text).symm

end Xv6.Grep
