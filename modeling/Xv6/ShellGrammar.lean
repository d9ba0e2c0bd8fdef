import Mathlib.Data.List.TakeWhile
import Xv6.Shell

/-!
# The grammar of the shell

`tokens` cuts a line into tokens and `Derives` is the grammar of token sequences, with the tree of
each derivation:

```
line  = pipe '&'* [';' line]
pipe  = cmd ['|' pipe]
cmd   = '(' line ')' redir* | redir* (word redir*)*    (at most MAXARGS - 1 words)
redir = ('<' | '>' | '>>') word
```

`parsecmd_accepts` says that `parsecmd` always comes back, that it returns a tree exactly for the
lines of the grammar, and that the tree is the one of the derivation.  The proof follows the parser
token by token: `wp_peek` and `wp_gettoken` say what the lexer does to the tokens that are left, so
that no later proof looks at characters.  `parsecmd_keeps_tokens` is about `nulterminate`: the NULs
it writes into the line cut no token.
-/

namespace Xv6.Shell

open Bytes Wp

/-! ### Tokens -/

inductive Token
  | word (w : List Ch)
  | lt
  | gt
  | gtgt
  | bar
  | amp
  | semi
  | lparen
  | rparen
  deriving DecidableEq

/-- The symbols that are tokens on their own. -/
def single (c : Byte) : Option Token :=
  if c = ascii '<' then some .lt
  else if c = ascii '|' then some .bar
  else if c = ascii '&' then some .amp
  else if c = ascii ';' then some .semi
  else if c = ascii '(' then some .lparen
  else if c = ascii ')' then some .rparen
  else none

/-- The tokens of a line: words are maximal runs of characters that are neither white space nor
symbols, and `>>` is one token. -/
def tokens : List Ch → List Token
  | [] => []
  | c :: s =>
    if c.val ∈ whitespace then tokens s
    else if c.val = ascii '>' then
      if deref s = ascii '>' then .gtgt :: tokens s.tail else .gt :: tokens s
    else
      match single c.val with
      | some t => t :: tokens s
      | none => .word (c :: s.takeWhile isWord) :: tokens (s.dropWhile isWord)
  termination_by s => s.length
  decreasing_by
    · simp
    · simp only [List.length_tail, List.length_cons]
      omega
    · simp
    · simp
    · have := (List.dropWhile_suffix (p := isWord) (l := s)).length_le
      simp only [List.length_cons]
      omega

/-- What `gettoken` returns for a token. -/
def Token.code : Token → Byte
  | .word _ => ascii 'a'
  | .lt => ascii '<'
  | .gt => ascii '>'
  | .gtgt => ascii '+'
  | .bar => ascii '|'
  | .amp => ascii '&'
  | .semi => ascii ';'
  | .lparen => ascii '('
  | .rparen => ascii ')'

/-- The symbol a token begins with. -/
def Token.lead : Token → Option Byte
  | .word _ => none
  | .gtgt => some (ascii '>')
  | t => some t.code

/-- What is left of the line from `s` on has the tokens `ts`. -/
structure At (line : List Ch) (s : Ptr) (ts : List Token) : Prop where
  suffix : s <:+ line
  tokens : tokens s = ts

/-- A counted string in the line is the word `w`, which goes as far as it can. -/
structure Wordy (line : List Ch) (x : Str) (w : List Ch) : Prop where
  suffix : x.q <:+ line
  text : x.q = w ++ x.eq
  word : ∀ c ∈ w, isWord c = true
  stop : ∀ c s, x.eq = c :: s → isWord c = false

/-! ### The lexer -/

theorem skip_suffix (s : Ptr) : skip s <:+ s := List.dropWhile_suffix _

theorem skip_head {s s' : Ptr} {c : Ch} (h : skip s = c :: s') : c.val ∉ whitespace := by
  have := List.head?_dropWhile_not (fun c : Ch => decide (c.val ∈ whitespace)) s
  rw [show s.dropWhile (fun c : Ch => decide (c.val ∈ whitespace)) = c :: s' from h] at this
  simpa using this

@[simp]
theorem tokens_nil : tokens [] = [] := by rw [tokens]

theorem tokens_skip (s : Ptr) : tokens (skip s) = tokens s := by
  induction s with
  | nil => rfl
  | cons c s ih =>
    by_cases hc : c.val ∈ whitespace
    · rw [tokens, if_pos hc, ← ih, skip, List.dropWhile_cons_of_pos (by simpa using hc)]
      rfl
    · rw [skip, List.dropWhile_cons_of_neg (by simpa using hc)]

theorem deref_cons (c : Ch) (s : Ptr) : deref (c :: s) = c.val := rfl

theorem At.skip {line : List Ch} {s : Ptr} {ts : List Token} (h : At line s ts) :
    At line (skip s) ts :=
  ⟨(skip_suffix s).trans h.suffix, (tokens_skip s).trans h.tokens⟩

/-- The symbols, and the tokens they are. -/
theorem single_eq_some {c : Byte} {t : Token} (h : single c = some t) :
    c ∈ ['|', '(', ')', ';', '&', '<'].map ascii ∧ t.code = c ∧ t.lead = some c ∧
      ∀ w, t ≠ .word w := by
  unfold single at h
  split_ifs at h with h1 h2 h3 h4 h5 h6 <;> obtain rfl := Option.some.inj h
  · exact ⟨by rw [h1]; decide, h1.symm, by rw [h1]; rfl, fun w => by simp⟩
  · exact ⟨by rw [h2]; decide, h2.symm, by rw [h2]; rfl, fun w => by simp⟩
  · exact ⟨by rw [h3]; decide, h3.symm, by rw [h3]; rfl, fun w => by simp⟩
  · exact ⟨by rw [h4]; decide, h4.symm, by rw [h4]; rfl, fun w => by simp⟩
  · exact ⟨by rw [h5]; decide, h5.symm, by rw [h5]; rfl, fun w => by simp⟩
  · exact ⟨by rw [h6]; decide, h6.symm, by rw [h6]; rfl, fun w => by simp⟩

theorem single_eq_none {c : Byte} (h : single c = none) :
    c ∉ ['|', '(', ')', ';', '&', '<'].map ascii := by
  unfold single at h
  split_ifs at h with h1 h2 h3 h4 h5 h6
  simp only [List.map_cons, List.map_nil, List.mem_cons, List.not_mem_nil, or_false]
  tauto

/-- A character that is not white space, not `>` and not a symbol on its own begins a word. -/
theorem isWord_of_single {c : Ch} (hw : c.val ∉ whitespace) (hgt : c.val ≠ ascii '>')
    (h : single c.val = none) : isWord c = true := by
  have hs := single_eq_none h
  rw [isWord, decide_eq_true_iff]
  refine ⟨hw, fun hc => ?_⟩
  simp only [symbols, List.map_cons, List.map_nil, List.mem_cons, List.not_mem_nil, or_false]
    at hc hs
  tauto

/-- **One token**: what the `switch` of `gettoken` finds at a character that is not white space. -/
theorem scan_cons {c : Ch} {s : Ptr} (hc : c.val ∉ whitespace) :
    ∃ t eq, scan (c :: s) = (t.code, eq) ∧ tokens (c :: s) = t :: tokens eq ∧ eq <:+ c :: s ∧
      (t.lead = some c.val ∨ t.lead = none ∧ isWord c = true) ∧
      ∀ w, t = .word w → c :: s = w ++ eq ∧ (∀ d ∈ w, isWord d = true) ∧
        ∀ d s', eq = d :: s' → isWord d = false := by
  have hd : deref (c :: s) = c.val := rfl
  rw [tokens, if_neg hc, scan, hd, if_neg c.2]
  by_cases hgt : c.val = ascii '>'
  · rw [if_neg (by rw [hgt]; decide), if_pos hgt, if_pos hgt, List.tail_cons]
    by_cases h2 : deref s = ascii '>'
    · rw [if_pos h2, if_pos h2]
      refine ⟨.gtgt, s.tail, rfl, rfl, (List.tail_suffix s).trans (List.suffix_cons c s), Or.inl ?_,
        fun w hw => nomatch hw⟩
      rw [hgt]
      rfl
    · rw [if_neg h2, if_neg h2]
      refine ⟨.gt, s, by rw [hgt]; rfl, rfl, List.suffix_cons c s, Or.inl ?_,
        fun w hw => nomatch hw⟩
      rw [hgt]
      rfl
  rw [if_neg hgt, if_neg hgt]
  cases hsingle : single c.val with
  | some t =>
    obtain ⟨hmem, hcode, hlead, hno⟩ := single_eq_some hsingle
    rw [if_pos hmem]
    exact ⟨t, s, by rw [hcode, List.tail_cons], rfl, List.suffix_cons c s, Or.inl hlead,
      fun w hw => absurd hw (hno w)⟩
  | none =>
    have hword := isWord_of_single hc hgt hsingle
    rw [if_neg (single_eq_none hsingle), List.dropWhile_cons_of_pos hword]
    refine ⟨.word (c :: s.takeWhile isWord), s.dropWhile isWord, rfl, rfl,
      (List.dropWhile_suffix _).trans (List.suffix_cons c s), Or.inr ⟨rfl, hword⟩, fun w hw => ?_⟩
    obtain rfl := Token.word.inj hw
    refine ⟨by rw [List.cons_append, List.takeWhile_append_dropWhile], fun d hd' => ?_,
      fun d s' he => ?_⟩
    · rcases List.mem_cons.1 hd' with rfl | hd'
      · exact hword
      · exact List.mem_takeWhile_imp hd'
    · have := List.head?_dropWhile_not isWord s
      rw [he] at this
      simpa using this

variable {line : List Ch} {s : Ptr} {ts : List Token} {E : Halt → Prop}

/-- `gettoken` takes the next token. -/
theorem wp_gettoken {Q : Byte × Str → Ptr → Prop} (h : At line s ts)
    (hnil : ts = [] → ∀ x s', At line s' [] → Q (0, x) s')
    (hcons : ∀ t ts', ts = t :: ts' → ∀ x s', At line s' ts' → (∀ w, t = .word w → Wordy line x w) →
      Q (t.code, x) s') : wp gettoken E Q s := by
  change Q ((scan (skip s)).1, ⟨skip s, (scan (skip s)).2⟩) (skip (scan (skip s)).2)
  have hs := h.skip
  rcases hq : skip s with _ | ⟨c, s'⟩
  · rw [hq] at hs
    exact hnil (by rw [← hs.tokens, tokens_nil]) _ _ ⟨List.nil_suffix, tokens_nil⟩
  · rw [hq] at hs
    obtain ⟨t, eq, hscan, htok, hsuf, -, hword⟩ := scan_cons (s := s') (skip_head hq)
    rw [hscan]
    refine hcons t (tokens eq) (hs.tokens.symm.trans htok) _ _
      (At.skip ⟨hsuf.trans hs.suffix, rfl⟩) fun w hw => ?_
    obtain ⟨htext, hall, hstop⟩ := hword w hw
    exact ⟨hs.suffix, htext, hall, hstop⟩

/-- The next token begins with one of the symbols in `cs`. -/
def starts (cs : List Byte) : List Token → Bool
  | [] => false
  | t :: _ => match t.lead with
    | none => false
    | some c => c ∈ cs

/-- `peek` tells what the next token is. -/
theorem wp_peek {Q : Bool → Ptr → Prop} {cs : List Byte} (h : At line s ts)
    (hcs : ∀ c ∈ cs, c ∈ symbols) (hQ : ∀ s', At line s' ts → Q (starts cs ts) s') :
    wp (peek cs) E Q s := by
  change Q (decide (deref (skip s) ≠ 0 ∧ deref (skip s) ∈ cs)) (skip s)
  have hs := h.skip
  have hb : decide (deref (skip s) ≠ 0 ∧ deref (skip s) ∈ cs) = starts cs ts := by
    rcases hq : skip s with _ | ⟨c, s'⟩
    · rw [hq] at hs
      rw [← hs.tokens, tokens_nil]
      rfl
    · rw [hq] at hs
      obtain ⟨t, eq, -, htok, -, hlead, -⟩ := scan_cons (s := s') (skip_head hq)
      rw [← hs.tokens, htok, deref_cons]
      rcases hlead with hlead | ⟨hlead, hw⟩
      · simpa [starts, hlead] using fun _ => c.2
      · -- no symbol is part of a word
        have hns : c.val ∉ cs := fun hc => by
          rw [isWord, decide_eq_true_iff] at hw
          exact hw.2 (hcs _ hc)
        simp [starts, hlead, hns]
  rw [hb]
  exact hQ _ hs

/-! ### The grammar -/

/-- A redirection: the file, and the mode and the descriptor it is opened with. -/
structure Redir where
  file : List Ch
  mode : ℕ
  fd : ℕ

/-- Redirections wrap a command one after another. -/
def Cmd.wrap (c : Cmd (List Ch)) (rs : List Redir) : Cmd (List Ch) :=
  rs.foldl (fun c r => .redir c r.file r.mode r.fd) c

/-- `redir*` -/
inductive Redirs : List Token → List Redir → Prop
  | nil : Redirs [] []
  | lt {w : List Ch} {u : List Token} {rs : List Redir} : Redirs u rs →
      Redirs (.lt :: .word w :: u) (⟨w, O_RDONLY, 0⟩ :: rs)
  | gt {w : List Ch} {u : List Token} {rs : List Redir} : Redirs u rs →
      Redirs (.gt :: .word w :: u) (⟨w, O_WRONLY ||| O_CREATE ||| O_TRUNC, 1⟩ :: rs)
  | gtgt {w : List Ch} {u : List Token} {rs : List Redir} : Redirs u rs →
      Redirs (.gtgt :: .word w :: u) (⟨w, O_WRONLY ||| O_CREATE, 1⟩ :: rs)

/-- `(word redir*)*`, with the words and the redirections in their order -/
inductive Args : List Token → List (List Ch) → List Redir → Prop
  | nil : Args [] [] []
  | cons {w : List Ch} {u v : List Token} {ws : List (List Ch)} {rs rs' : List Redir} :
      Redirs u rs → Args v ws rs' → Args (.word w :: (u ++ v)) (w :: ws) (rs ++ rs')

inductive Nonterminal
  | line
  | pipe
  | cmd

/-- The token sequences of the grammar and their trees. -/
inductive Derives : Nonterminal → List Token → Cmd (List Ch) → Prop
  | line {u : List Token} {c : Cmd (List Ch)} (n : ℕ) : Derives .pipe u c →
      Derives .line (u ++ List.replicate n .amp) (Cmd.back^[n] c)
  | list {u v : List Token} {c d : Cmd (List Ch)} (n : ℕ) : Derives .pipe u c → Derives .line v d →
      Derives .line (u ++ List.replicate n .amp ++ .semi :: v) (.list (Cmd.back^[n] c) d)
  | cmd {u : List Token} {c : Cmd (List Ch)} : Derives .cmd u c → Derives .pipe u c
  | pipe {u v : List Token} {c d : Cmd (List Ch)} : Derives .cmd u c → Derives .pipe v d →
      Derives .pipe (u ++ .bar :: v) (.pipe c d)
  | block {u v : List Token} {c : Cmd (List Ch)} {rs : List Redir} : Derives .line u c →
      Redirs v rs → Derives .cmd (.lparen :: (u ++ .rparen :: v)) (c.wrap rs)
  | exec {u v : List Token} {ws : List (List Ch)} {rs rs' : List Redir} : Redirs u rs →
      Args v ws rs' → ws.length ≤ MAXARGS - 1 →
      Derives .cmd (u ++ v) (Cmd.wrap (.exec ws) (rs ++ rs'))

/-! ### Trees with pointers -/

/-- The same tree, with strings that `R` relates. -/
inductive Cmd.Rel {α β : Type} (R : α → β → Prop) : Cmd α → Cmd β → Prop
  | exec {a : List α} {b : List β} : List.Forall₂ R a b → Rel R (.exec a) (.exec b)
  | redir {c : Cmd α} {d : Cmd β} {x : α} {y : β} {mode fd : ℕ} : Rel R c d → R x y →
      Rel R (.redir c x mode fd) (.redir d y mode fd)
  | pipe {c c' : Cmd α} {d d' : Cmd β} : Rel R c d → Rel R c' d' → Rel R (.pipe c c') (.pipe d d')
  | list {c c' : Cmd α} {d d' : Cmd β} : Rel R c d → Rel R c' d' → Rel R (.list c c') (.list d d')
  | back {c : Cmd α} {d : Cmd β} : Rel R c d → Rel R (.back c) (.back d)

theorem Cmd.wrap_append (c : Cmd (List Ch)) (rs rs' : List Redir) :
    c.wrap (rs ++ rs') = (c.wrap rs).wrap rs' := List.foldl_append

theorem Cmd.wrap_cons (c : Cmd (List Ch)) (r : Redir) (rs : List Redir) :
    c.wrap (r :: rs) = Cmd.wrap (.redir c r.file r.mode r.fd) rs := rfl

/-- A word goes to the `execcmd` below the redirections. -/
theorem Cmd.Rel.pushArg {R : Str → List Ch → Prop} {c : Cmd Str} {ws : List (List Ch)}
    {rs : List Redir} (h : Cmd.Rel R c (Cmd.wrap (.exec ws) rs)) {x : Str} {w : List Ch}
    (hx : R x w) : Cmd.Rel R (c.pushArg x) (Cmd.wrap (.exec (ws ++ [w])) rs) := by
  induction rs using List.reverseRecOn generalizing c with
  | nil =>
    cases h with
    | exec ha => exact .exec (List.rel_append ha (.cons hx .nil))
  | append_singleton rs r ih =>
    rw [wrap_append] at h ⊢
    cases h with
    | redir hc hf => exact .redir (ih hc) hf

/-! ### Soundness and termination

A parser that is run where the tokens `ts` are left comes back, if it has fuel for them, and if it
returns then what it has read is a sequence of the grammar, with the tree of its derivation. -/

/-- `m` reads what `G` describes; it does not run out of fuel where the tokens that are left
satisfy `enough`. -/
def Reads (line : List Ch) (enough : List Token → Prop) (G : List Token → Cmd (List Ch) → Prop)
    (m : Parse (Cmd Str)) : Prop :=
  ∀ s ts, At line s ts → wp m (fun e => enough ts → e ≠ .diverge)
    (fun c s' => ∃ u rest d, ts = u ++ rest ∧ At line s' rest ∧ G u d ∧ Cmd.Rel (Wordy line) c d) s

theorem code_eq_word {t : Token} (h : t.code = ascii 'a') : ∃ w, t = .word w := by
  cases t with
  | word w => exact ⟨w, rfl⟩
  | lt => exact absurd h (by decide)
  | gt => exact absurd h (by decide)
  | gtgt => exact absurd h (by decide)
  | bar => exact absurd h (by decide)
  | amp => exact absurd h (by decide)
  | semi => exact absurd h (by decide)
  | lparen => exact absurd h (by decide)
  | rparen => exact absurd h (by decide)

theorem code_ne_zero (t : Token) : t.code ≠ 0 := by
  cases t <;> exact ne_of_beq_false rfl

/-- The operators of redirections. -/
def Token.IsRedir (t : Token) : Prop := t = .lt ∨ t = .gt ∨ t = .gtgt

theorem starts_redir {ts : List Token} (h : starts (['<', '>'].map ascii) ts = true) :
    ∃ t ts', ts = t :: ts' ∧ t.IsRedir := by
  cases ts with
  | nil => cases h
  | cons t ts =>
    refine ⟨t, ts, rfl, ?_⟩
    unfold Token.IsRedir
    cases t with
    | lt => simp
    | gt => simp
    | gtgt => simp
    | _ => cases h

/-- A single symbol. -/
theorem starts_code (t₀ : Token) (h₀ : t₀ ∈ [Token.bar, .amp, .semi, .lparen, .rparen])
    {ts : List Token} (h : starts [t₀.code] ts = true) : ∃ ts', ts = t₀ :: ts' := by
  cases ts with
  | nil => cases h
  | cons t ts =>
    refine ⟨ts, ?_⟩
    simp only [List.mem_cons, List.not_mem_nil, or_false] at h₀
    rcases h₀ with rfl | rfl | rfl | rfl | rfl <;> cases t <;> first | rfl | cases h

/-- One round of `parseredirs` wraps the command once. -/
theorem redirect_eq {t : Token} (ht : t.IsRedir) (c : Cmd Str) (x : Str) :
    ∃ mode fd, redirect t.code c x = .redir c x mode fd ∧
      ∀ w u rs, Redirs u rs → Redirs (t :: .word w :: u) (⟨w, mode, fd⟩ :: rs) := by
  rcases ht with rfl | rfl | rfl
  · exact ⟨_, _, rfl, fun _ _ _ => .lt⟩
  · exact ⟨_, _, rfl, fun _ _ _ => .gt⟩
  · exact ⟨_, _, rfl, fun _ _ _ => .gtgt⟩

theorem parseredirsFrom_reads (fuel : ℕ) {c : Cmd Str} {d : Cmd (List Ch)}
    (hcd : Cmd.Rel (Wordy line) c d) :
    Reads line (fun ts => ts.length < fuel) (fun u d' => ∃ rs, Redirs u rs ∧ d' = d.wrap rs)
      (parseredirsFrom fuel c) := by
  induction fuel generalizing c d with
  | zero => exact fun s ts _ h => absurd h (Nat.not_lt_zero _)
  | succ fuel ih =>
    intro s ts hs
    rw [parseredirsFrom, wp_bind]
    refine wp_peek hs (by decide) fun s₁ hs₁ => ?_
    rw [wp_ite]
    cases hst : starts (['<', '>'].map ascii) ts with
    | false => exact ⟨[], ts, d, rfl, hs₁, ⟨[], .nil, rfl⟩, hcd⟩
    | true =>
      obtain ⟨t, ts', rfl, ht⟩ := starts_redir hst
      rw [if_neg (by simp), wp_bind]
      refine wp_gettoken hs₁ (fun h0 => nomatch h0) fun t₁ ts₁ he x₁ s₂ hs₂ _ => ?_
      obtain ⟨rfl, rfl⟩ := List.cons.inj he
      dsimp only
      rw [wp_bind]
      refine wp_gettoken hs₂ (fun _ x₂ s₃ _ => ?_) fun t₂ ts₂ he₂ x₂ s₃ hs₃ hw => ?_
      · dsimp only
        rw [wp_ite, if_pos (by decide)]
        exact fun _ => by simp
      dsimp only
      rw [wp_ite]
      split_ifs with hword
      · exact fun _ => by simp
      obtain ⟨w, rfl⟩ := code_eq_word (not_not.1 hword)
      subst he₂
      obtain ⟨mode, fd, hr, hrs⟩ := redirect_eq ht c x₂
      rw [hr]
      refine ((ih (.redir hcd (hw w rfl)) s₃ ts₂ hs₃).weaken fun e he hlen => he ?_).mono
        fun c' s' hc' => ?_
      · simp only [List.length_cons] at hlen
        omega
      · obtain ⟨u, rest, d', rfl, hs', ⟨rs, hu, rfl⟩, hrel⟩ := hc'
        exact ⟨t :: .word w :: u, rest, _, rfl, hs', ⟨_, hrs w u rs hu, rfl⟩, hrel⟩

theorem tokens_length_le (s : Ptr) : (tokens s).length ≤ s.length := by
  induction s using tokens.induct with
  | case1 => simp
  | case2 c s hc ih =>
    rw [tokens, if_pos hc, List.length_cons]
    omega
  | case3 c s hc hgt h2 ih =>
    have := List.length_tail (l := s)
    rw [tokens, if_neg hc, if_pos hgt, if_pos h2, List.length_cons, List.length_cons]
    omega
  | case4 c s hc hgt h2 ih =>
    rw [tokens, if_neg hc, if_pos hgt, if_neg h2, List.length_cons, List.length_cons]
    omega
  | case5 c s hc hgt t ht ih =>
    rw [tokens, if_neg hc, if_neg hgt, ht, List.length_cons, List.length_cons]
    omega
  | case6 c s hc hgt ht ih =>
    have := (List.dropWhile_suffix (p := isWord) (l := s)).length_le
    rw [tokens, if_neg hc, if_neg hgt, ht, List.length_cons, List.length_cons]
    omega

/-- A loop that gets its fuel from the cursor. -/
theorem Reads.withFuel {G : List Token → Cmd (List Ch) → Prop} {m : ℕ → Parse (Cmd Str)}
    (h : ∀ fuel, Reads line (fun ts => ts.length < fuel) G (m fuel)) :
    Reads line (fun _ => True) G (do m ((← get).length + 1)) := by
  intro s ts hs
  rw [wp_bind, wp_get]
  refine (h _ s ts hs).weaken fun e he _ => he ?_
  have := tokens_length_le s
  rw [hs.tokens] at this
  omega

theorem parseredirs_reads {c : Cmd Str} {d : Cmd (List Ch)} (hcd : Cmd.Rel (Wordy line) c d) :
    Reads line (fun _ => True) (fun u d' => ∃ rs, Redirs u rs ∧ d' = d.wrap rs) (parseredirs c) :=
  Reads.withFuel fun fuel => parseredirsFrom_reads fuel hcd

theorem parsebackFrom_reads (fuel : ℕ) {c : Cmd Str} {d : Cmd (List Ch)}
    (hcd : Cmd.Rel (Wordy line) c d) :
    Reads line (fun ts => ts.length < fuel)
      (fun u d' => ∃ n, u = List.replicate n .amp ∧ d' = Cmd.back^[n] d)
      (parsebackFrom fuel c) := by
  induction fuel generalizing c d with
  | zero => exact fun s ts _ h => absurd h (Nat.not_lt_zero _)
  | succ fuel ih =>
    intro s ts hs
    rw [parsebackFrom, wp_bind]
    refine wp_peek hs (by decide) fun s₁ hs₁ => ?_
    rw [wp_ite]
    cases hst : starts (['&'].map ascii) ts with
    | false => exact ⟨[], ts, d, rfl, hs₁, ⟨0, rfl, rfl⟩, hcd⟩
    | true =>
      obtain ⟨ts', rfl⟩ := starts_code .amp (by simp) hst
      rw [if_neg (by simp), wp_bind]
      refine wp_gettoken hs₁ (fun h0 => nomatch h0) fun t₁ ts₁ he x₁ s₂ hs₂ _ => ?_
      obtain ⟨rfl, rfl⟩ := List.cons.inj he
      refine ((ih (.back hcd) s₂ ts' hs₂).weaken fun e he hlen => he ?_).mono fun c' s' hc' => ?_
      · simp only [List.length_cons] at hlen
        omega
      · obtain ⟨u, rest, d', rfl, hs', ⟨n, rfl, rfl⟩, hrel⟩ := hc'
        exact ⟨.amp :: List.replicate n .amp, rest, _, rfl, hs', ⟨n + 1, rfl, rfl⟩, hrel⟩

theorem parseargsFrom_reads (fuel : ℕ) {argc : ℕ} {c : Cmd Str} {ws : List (List Ch)}
    {rs : List Redir} (hc : Cmd.Rel (Wordy line) c (Cmd.wrap (.exec ws) rs))
    (hargc : ws.length = argc) (hle : argc ≤ MAXARGS - 1) :
    Reads line (fun ts => ts.length < fuel)
      (fun u d' => ∃ ws' rs', Args u ws' rs' ∧ (ws ++ ws').length ≤ MAXARGS - 1 ∧
        d' = Cmd.wrap (.exec (ws ++ ws')) (rs ++ rs')) (parseargsFrom fuel argc c) := by
  induction fuel generalizing argc c ws rs with
  | zero => exact fun s ts _ h => absurd h (Nat.not_lt_zero _)
  | succ fuel ih =>
    intro s ts hs
    -- no more words
    have hdone : ∀ s', At line s' ts → ∃ u rest d, ts = u ++ rest ∧ At line s' rest ∧
        (∃ ws' rs', Args u ws' rs' ∧ (ws ++ ws').length ≤ MAXARGS - 1 ∧
          d = Cmd.wrap (.exec (ws ++ ws')) (rs ++ rs')) ∧ Cmd.Rel (Wordy line) c d := by
      intro s' hs'
      refine ⟨[], ts, _, rfl, hs', ⟨[], [], .nil, ?_, rfl⟩, ?_⟩
      · rw [List.append_nil, hargc]
        exact hle
      · rwa [List.append_nil, List.append_nil]
    rw [parseargsFrom, wp_bind]
    refine wp_peek hs (by decide) fun s₁ hs₁ => ?_
    rw [wp_ite]
    cases starts (['|', ')', '&', ';'].map ascii) ts with
    | true => exact hdone s₁ hs₁
    | false =>
    rw [if_neg (by simp), wp_bind]
    refine wp_gettoken hs₁ (fun h0 x s₂ hs₂ => ?_) fun t ts' he x s₂ hs₂ hw => ?_
    · dsimp only
      rw [wp_ite, if_pos rfl]
      exact hdone s₂ (h0 ▸ hs₂)
    dsimp only
    rw [wp_ite, if_neg (code_ne_zero t), wp_ite]
    by_cases hword : t.code ≠ ascii 'a'
    · rw [if_pos hword]
      exact fun _ => by simp
    rw [if_neg hword, wp_ite]
    by_cases hmany : MAXARGS ≤ argc + 1
    · rw [if_pos hmany]
      exact fun _ => by simp
    rw [if_neg hmany, wp_bind]
    obtain ⟨w, rfl⟩ := code_eq_word (not_not.1 hword)
    subst he
    refine ((parseredirs_reads (hc.pushArg (hw w rfl)) s₂ ts' hs₂).weaken fun e he _ =>
      he trivial).mono fun c₂ s₃ hc₂ => ?_
    obtain ⟨u, rest, d, rfl, hs₃, ⟨rs₁, hu, rfl⟩, hrel⟩ := hc₂
    rw [← Cmd.wrap_append] at hrel
    refine ((ih hrel (by simp [hargc]) (by omega) s₃ rest hs₃).weaken fun e he hlen => he ?_).mono
      fun c₃ s₄ hc₃ => ?_
    · simp only [List.length_cons, List.length_append] at hlen
      omega
    · obtain ⟨v, rest', d', rfl, hs₄, ⟨ws', rs', hargs, hlen, rfl⟩, hrel'⟩ := hc₃
      refine ⟨.word w :: (u ++ v), rest',
        _, by simp, hs₄, ⟨w :: ws', rs₁ ++ rs', .cons hu hargs, ?_, rfl⟩, ?_⟩
      · rwa [List.append_assoc] at hlen
      · rwa [List.append_assoc, List.append_assoc] at hrel'

/-- A symbol that has been seen is taken. -/
theorem wp_gettoken_cons {t : Token} {ts : List Token} {Q : Byte × Str → Ptr → Prop}
    (h : At line s (t :: ts)) (hQ : ∀ x s', At line s' ts → (∀ w, t = .word w → Wordy line x w) →
      Q (t.code, x) s') : wp gettoken E Q s := by
  refine wp_gettoken h (fun h0 => nomatch h0) fun t₁ ts₁ he x s' hs' hw => ?_
  obtain ⟨rfl, rfl⟩ := List.cons.inj he
  exact hQ x s' hs' hw

variable {fuel : ℕ}

theorem parseline_reads
    (hpipe : Reads line (fun ts => 4 * ts.length + 3 ≤ fuel) (Derives .pipe) (parsepipe fuel))
    (hline : Reads line (fun ts => 4 * ts.length + 4 ≤ fuel) (Derives .line) (parseline fuel)) :
    Reads line (fun ts => 4 * ts.length + 4 ≤ fuel + 1) (Derives .line) (parseline (fuel + 1)) := by
  intro s ts hs
  rw [parseline, wp_bind]
  refine ((hpipe s ts hs).weaken fun e he hlen => he (by omega)).mono fun c s₁ hc => ?_
  obtain ⟨u, rest, d, rfl, hs₁, hu, hcd⟩ := hc
  rw [← bind_assoc, wp_bind]
  refine ((Reads.withFuel (fun n => parsebackFrom_reads n hcd) s₁ rest hs₁).weaken fun e he _ =>
    he trivial).mono fun c₁ s₂ hc₁ => ?_
  obtain ⟨-, rest, -, rfl, hs₂, ⟨n, rfl, rfl⟩, hcd₁⟩ := hc₁
  rw [wp_bind]
  refine wp_peek hs₂ (by decide) fun s₃ hs₃ => ?_
  rw [wp_ite]
  cases hst : starts ([';'].map ascii) rest with
  | false => exact ⟨_, rest, _, (List.append_assoc ..).symm, hs₃, .line n hu, hcd₁⟩
  | true =>
    obtain ⟨ts', rfl⟩ := starts_code .semi (by simp) hst
    rw [if_neg (by simp), wp_bind]
    refine wp_gettoken_cons hs₃ fun x s₄ hs₄ _ => ?_
    rw [wp_bind]
    refine ((hline s₄ ts' hs₄).weaken fun e he hlen => he ?_).mono fun c₂ s₅ hc₂ => ?_
    · simp only [List.length_append, List.length_cons] at hlen
      omega
    · obtain ⟨v, rest, d₂, rfl, hs₅, hv, hcd₂⟩ := hc₂
      exact ⟨_, rest, _, by simp, hs₅, .list n hu hv, .list hcd₁ hcd₂⟩

theorem parsepipe_reads
    (hcmd : Reads line (fun ts => 4 * ts.length + 2 ≤ fuel) (Derives .cmd) (parseexec fuel))
    (hpipe : Reads line (fun ts => 4 * ts.length + 3 ≤ fuel) (Derives .pipe) (parsepipe fuel)) :
    Reads line (fun ts => 4 * ts.length + 3 ≤ fuel + 1) (Derives .pipe) (parsepipe (fuel + 1)) := by
  intro s ts hs
  rw [parsepipe, wp_bind]
  refine ((hcmd s ts hs).weaken fun e he hlen => he (by omega)).mono fun c s₁ hc => ?_
  obtain ⟨u, rest, d, rfl, hs₁, hu, hcd⟩ := hc
  rw [wp_bind]
  refine wp_peek hs₁ (by decide) fun s₂ hs₂ => ?_
  rw [wp_ite]
  cases hst : starts (['|'].map ascii) rest with
  | false => exact ⟨u, rest, d, rfl, hs₂, .cmd hu, hcd⟩
  | true =>
    obtain ⟨ts', rfl⟩ := starts_code .bar (by simp) hst
    rw [if_neg (by simp), wp_bind]
    refine wp_gettoken_cons hs₂ fun x s₃ hs₃ _ => ?_
    rw [wp_bind]
    refine ((hpipe s₃ ts' hs₃).weaken fun e he hlen => he ?_).mono fun c₂ s₄ hc₂ => ?_
    · simp only [List.length_append, List.length_cons] at hlen
      omega
    · obtain ⟨v, rest, d₂, rfl, hs₄, hv, hcd₂⟩ := hc₂
      exact ⟨_, rest, _, by simp, hs₄, .pipe hu hv, .pipe hcd hcd₂⟩

theorem parseblock_reads
    (hline : Reads line (fun ts => 4 * ts.length + 4 ≤ fuel) (Derives .line) (parseline fuel)) :
    Reads line (fun ts => 4 * ts.length + 1 ≤ fuel + 1) (Derives .cmd) (parseblock (fuel + 1)) := by
  intro s ts hs
  rw [parseblock, wp_bind]
  refine wp_peek hs (by decide) fun s₁ hs₁ => ?_
  rw [wp_ite]
  cases hst : starts (['('].map ascii) ts with
  | false => exact fun _ => by simp
  | true =>
    obtain ⟨ts', rfl⟩ := starts_code .lparen (by simp) hst
    rw [if_neg (by simp), wp_bind]
    refine wp_gettoken_cons hs₁ fun x s₂ hs₂ _ => ?_
    rw [wp_bind]
    refine ((hline s₂ ts' hs₂).weaken fun e he hlen => he ?_).mono fun c s₃ hc => ?_
    · simp only [List.length_cons] at hlen
      omega
    obtain ⟨u, rest, d, rfl, hs₃, hu, hcd⟩ := hc
    rw [wp_bind]
    refine wp_peek hs₃ (by decide) fun s₄ hs₄ => ?_
    rw [wp_ite]
    cases hst' : starts ([')'].map ascii) rest with
    | false => exact fun _ => by simp
    | true =>
      obtain ⟨ts', rfl⟩ := starts_code .rparen (by simp) hst'
      rw [if_neg (by simp), wp_bind]
      refine wp_gettoken_cons hs₄ fun x s₅ hs₅ _ => ?_
      refine ((parseredirs_reads hcd s₅ ts' hs₅).weaken fun e he _ => he trivial).mono
        fun c₂ s₆ hc₂ => ?_
      obtain ⟨v, rest, -, rfl, hs₆, ⟨rs, hv, rfl⟩, hcd₂⟩ := hc₂
      exact ⟨_, rest, _, by simp, hs₆, .block hu hv, hcd₂⟩

theorem parseexec_reads
    (hblock : Reads line (fun ts => 4 * ts.length + 1 ≤ fuel) (Derives .cmd) (parseblock fuel)) :
    Reads line (fun ts => 4 * ts.length + 2 ≤ fuel + 1) (Derives .cmd) (parseexec (fuel + 1)) := by
  intro s ts hs
  rw [parseexec, wp_bind]
  refine wp_peek hs (by decide) fun s₁ hs₁ => ?_
  rw [wp_ite]
  cases starts (['('].map ascii) ts with
  | true => exact (hblock s₁ ts hs₁).weaken fun e he hlen => he (by omega)
  | false =>
    rw [if_neg (by simp), wp_bind]
    refine ((parseredirs_reads (.exec .nil) s₁ ts hs₁).weaken fun e he _ => he trivial).mono
      fun c s₂ hc => ?_
    obtain ⟨u, rest, -, rfl, hs₂, ⟨rs, hu, rfl⟩, hcd⟩ := hc
    refine ((Reads.withFuel (fun n => parseargsFrom_reads n hcd rfl (by simp)) s₂ rest hs₂).weaken
      fun e he _ => he trivial).mono fun c₂ s₃ hc₂ => ?_
    obtain ⟨v, rest, -, rfl, hs₃, ⟨ws, rs', hv, hlen, rfl⟩, hcd₂⟩ := hc₂
    exact ⟨_, rest, _, by simp, hs₃, .exec hu hv hlen, hcd₂⟩

/-- **Soundness and termination.**  With fuel for the tokens that are left, the parsers come back;
if they return, they have read a sequence of the grammar and built the tree of its derivation. -/
theorem parse_reads (line : List Ch) (fuel : ℕ) :
    Reads line (fun ts => 4 * ts.length + 4 ≤ fuel) (Derives .line) (parseline fuel) ∧
    Reads line (fun ts => 4 * ts.length + 3 ≤ fuel) (Derives .pipe) (parsepipe fuel) ∧
    Reads line (fun ts => 4 * ts.length + 2 ≤ fuel) (Derives .cmd) (parseexec fuel) ∧
    Reads line (fun ts => 4 * ts.length + 1 ≤ fuel) (Derives .cmd) (parseblock fuel) := by
  induction fuel with
  | zero =>
    exact ⟨fun s ts _ h => absurd h (by omega), fun s ts _ h => absurd h (by omega),
      fun s ts _ h => absurd h (by omega), fun s ts _ h => absurd h (by omega)⟩
  | succ fuel ih =>
    obtain ⟨hline, hpipe, hcmd, hblock⟩ := ih
    exact ⟨parseline_reads hpipe hline, parsepipe_reads hcmd hpipe, parseexec_reads hblock,
      parseblock_reads hline⟩

/-! ### Completeness

A parser that is run on a sequence of the grammar, with something after it that cannot continue it,
reads this sequence and builds the tree of the derivation. -/

/-- What may come after a sequence of the grammar. -/
def Nonterminal.Follow (n : Nonterminal) (rest : List Token) : Prop :=
  rest = [] ∨ ∃ t ts, rest = t :: ts ∧ match n with
    | .line => t = .rparen
    | .pipe => t = .rparen ∨ t = .amp ∨ t = .semi
    | .cmd => t = .rparen ∨ t = .amp ∨ t = .semi ∨ t = .bar

def parser : Nonterminal → ℕ → Parse (Cmd Str)
  | .line => parseline
  | .pipe => parsepipe
  | .cmd => parseexec

/-- Run where `ts` is left, `m` builds the tree `d` and leaves `rest`, unless it runs out of
fuel. -/
def Builds (line : List Ch) (ts rest : List Token) (d : Cmd (List Ch)) (m : Parse (Cmd Str)) :
    Prop :=
  ∀ s, At line s ts → wp m (· = .diverge)
    (fun c s' => At line s' rest ∧ Cmd.Rel (Wordy line) c d) s

theorem parseredirsFrom_builds (fuel : ℕ) {c : Cmd Str} {d : Cmd (List Ch)} {u rest : List Token}
    {rs : List Redir} (hcd : Cmd.Rel (Wordy line) c d) (hu : Redirs u rs)
    (hrest : starts (['<', '>'].map ascii) rest = false) :
    Builds line (u ++ rest) rest (d.wrap rs) (parseredirsFrom fuel c) := by
  induction fuel generalizing c d u rs with
  | zero => exact fun s _ => rfl
  | succ fuel ih =>
    intro s hs
    rw [parseredirsFrom, wp_bind]
    refine wp_peek hs (by decide) fun s₁ hs₁ => ?_
    rw [wp_ite]
    -- one redirection, whatever its operator is
    have hone : ∀ {t w u' rs'} {mode fd : ℕ}, Redirs u' rs' →
        redirect t.code c = (fun x => Cmd.redir c x mode fd) → ∀ s₁,
        At line s₁ (t :: .word w :: (u' ++ rest)) → wp (do
          let op ← gettoken
          let file ← gettoken
          if file.1 ≠ ascii 'a' then throw (.panic "missing file for redirection")
          parseredirsFrom fuel (redirect op.1 c file.2)) (· = .diverge)
          (fun c s' => At line s' rest ∧ Cmd.Rel (Wordy line) c (d.wrap (⟨w, mode, fd⟩ :: rs')))
            s₁ := by
      intro t w u' rs' mode fd hu' hr s₁ hs₁
      rw [wp_bind]
      refine wp_gettoken_cons hs₁ fun x s₂ hs₂ _ => ?_
      dsimp only
      rw [wp_bind]
      refine wp_gettoken_cons hs₂ fun x s₃ hs₃ hw => ?_
      dsimp only
      rw [wp_ite, if_neg (by simp [Token.code]), hr]
      exact ih (.redir hcd (hw w rfl)) hu' s₃ hs₃
    cases hu with
    | nil =>
      rw [List.nil_append, hrest, if_pos (by simp)]
      exact ⟨hs₁, hcd⟩
    | lt hu' => exact hone hu' rfl s₁ hs₁
    | gt hu' => exact hone hu' rfl s₁ hs₁
    | gtgt hu' => exact hone hu' rfl s₁ hs₁

/-- A loop that gets its fuel from the cursor. -/
theorem Builds.withFuel {ts rest : List Token} {d : Cmd (List Ch)} {m : ℕ → Parse (Cmd Str)}
    (h : ∀ fuel, Builds line ts rest d (m fuel)) :
    Builds line ts rest d (do m ((← get).length + 1)) := by
  intro s hs
  rw [wp_bind, wp_get]
  exact h _ s hs

theorem parsebackFrom_builds (fuel : ℕ) {c : Cmd Str} {d : Cmd (List Ch)}
    {rest : List Token} (n : ℕ) (hcd : Cmd.Rel (Wordy line) c d)
    (hrest : starts (['&'].map ascii) rest = false) :
    Builds line (List.replicate n .amp ++ rest) rest (Cmd.back^[n] d) (parsebackFrom fuel c) := by
  induction fuel generalizing c d n with
  | zero => exact fun s _ => rfl
  | succ fuel ih =>
    intro s hs
    rw [parsebackFrom, wp_bind]
    refine wp_peek hs (by decide) fun s₁ hs₁ => ?_
    rw [wp_ite]
    cases n with
    | zero =>
      rw [List.replicate_zero, List.nil_append, hrest, if_pos (by simp)]
      exact ⟨hs₁, hcd⟩
    | succ n =>
      rw [if_neg (by simp [List.replicate_succ, starts, Token.lead, Token.code]), wp_bind]
      refine wp_gettoken_cons hs₁ fun x s₂ hs₂ _ => ?_
      exact ih n (.back hcd) s₂ hs₂

theorem starts_redir_of_end {rest : List Token} (h : Nonterminal.Follow .cmd rest) :
    starts (['<', '>'].map ascii) rest = false := by
  rcases h with rfl | ⟨t, ts, rfl, rfl | rfl | rfl | rfl⟩ <;> rfl

theorem parseargsFrom_builds (fuel : ℕ) {argc : ℕ} {c : Cmd Str} {ws ws' : List (List Ch)}
    {rs rs' : List Redir} {u rest : List Token}
    (hc : Cmd.Rel (Wordy line) c (Cmd.wrap (.exec ws) rs)) (hargc : ws.length = argc)
    (hu : Args u ws' rs') (hle : (ws ++ ws').length ≤ MAXARGS - 1)
    (hrest : Nonterminal.Follow .cmd rest) : Builds line (u ++ rest) rest
    (Cmd.wrap (.exec (ws ++ ws')) (rs ++ rs'))
      (parseargsFrom fuel argc c) := by
  induction fuel generalizing argc c ws ws' rs rs' u with
  | zero => exact fun s _ => rfl
  | succ fuel ih =>
    intro s hs
    rw [parseargsFrom, wp_bind]
    refine wp_peek hs (by decide) fun s₁ hs₁ => ?_
    rw [wp_ite]
    cases hu with
    | nil =>
      rw [List.append_nil, List.append_nil]
      rw [List.nil_append] at hs₁ ⊢
      rcases hrest with rfl | ⟨t, ts, rfl, rfl | rfl | rfl | rfl⟩
      · rw [if_neg (by simp [starts]), wp_bind]
        refine wp_gettoken hs₁ (fun _ x s₂ hs₂ => ?_) fun _ _ h0 => nomatch h0
        dsimp only
        rw [wp_ite, if_pos rfl]
        exact ⟨hs₂, hc⟩
      all_goals exact ⟨hs₁, hc⟩
    | @cons w v₁ v₂ ws' rs₁ rs₂ hv₁ hv₂ =>
      rw [List.cons_append] at hs₁ ⊢
      rw [if_neg (by simp [starts, Token.lead]), wp_bind]
      refine wp_gettoken_cons hs₁ fun x s₂ hs₂ hw => ?_
      have hfew : ¬ MAXARGS ≤ argc + 1 := by
        simp only [List.length_append, List.length_cons] at hle
        omega
      dsimp only
      rw [wp_ite, if_neg (code_ne_zero _), wp_ite, if_neg (by simp [Token.code]), wp_ite,
        if_neg hfew, wp_bind]
      -- after the redirections comes a word or the end
      have hnext : starts (['<', '>'].map ascii) (v₂ ++ rest) = false := by
        cases hv₂ with
        | nil => exact starts_redir_of_end hrest
        | cons => rfl
      rw [List.append_assoc] at hs₂
      refine (Builds.withFuel (fun n => parseredirsFrom_builds n (hc.pushArg (hw w rfl)) hv₁ hnext)
        s₂ hs₂).mono fun c₂ s₃ hc₂ => ?_
      obtain ⟨hs₃, hrel⟩ := hc₂
      rw [← Cmd.wrap_append] at hrel
      have := ih hrel (show (ws ++ [w]).length = argc + 1 by simp [hargc]) hv₂
        (by simpa using hle) s₃ hs₃
      rwa [List.append_assoc, List.append_assoc] at this

theorem Nonterminal.Follow.line_pipe {rest : List Token} (h : Nonterminal.Follow .line rest) :
    Nonterminal.Follow .pipe rest := by
  rcases h with rfl | ⟨t, ts, rfl, rfl⟩
  · exact Or.inl rfl
  · exact Or.inr ⟨_, ts, rfl, Or.inl rfl⟩

theorem Nonterminal.Follow.pipe_cmd {rest : List Token} (h : Nonterminal.Follow .pipe rest) :
    Nonterminal.Follow .cmd rest := by
  rcases h with rfl | ⟨t, ts, rfl, h⟩
  · exact Or.inl rfl
  · exact Or.inr ⟨t, ts, rfl, by tauto⟩

theorem Nonterminal.Follow.amps {rest : List Token} (h : Nonterminal.Follow .pipe rest) (n : ℕ) :
    Nonterminal.Follow .pipe (List.replicate n .amp ++ rest) := by
  cases n with
  | zero => exact h
  | succ n => exact Or.inr ⟨.amp, _, rfl, Or.inr (Or.inl rfl)⟩

/-- The first half of `parseline`: a pipe and the `&` after it. -/
theorem wp_parseline_backs {u rest : List Token} {d : Cmd (List Ch)} {fuel : ℕ} (n : ℕ)
    (hu : Builds line (u ++ (List.replicate n .amp ++ rest)) (List.replicate n .amp ++ rest) d
      (parsepipe fuel)) (hrest : starts (['&'].map ascii) rest = false)
    (hs : At line s (u ++ List.replicate n .amp ++ rest)) {k : Cmd Str → Parse (Cmd Str)}
    {Q : Cmd Str → Ptr → Prop} (hk : ∀ c s', At line s' rest →
      Cmd.Rel (Wordy line) c (Cmd.back^[n] d) → wp (k c) (· = .diverge) Q s') :
    wp (do
      let cmd ← parsepipe fuel
      let cmd ← parsebackFrom ((← get).length + 1) cmd
      k cmd) (· = .diverge) Q s := by
  rw [List.append_assoc] at hs
  rw [wp_bind]
  refine (hu s hs).mono fun c s₁ hc => ?_
  rw [wp_bind, wp_get, wp_bind]
  exact (parsebackFrom_builds _ n hc.2 hrest s₁ hc.1).mono fun c' s' hc' => hk c' s' hc'.1 hc'.2

/-- **Completeness.** -/
theorem Derives.builds {n : Nonterminal} {u : List Token} {d : Cmd (List Ch)} (h : Derives n u d)
    (fuel : ℕ) {rest : List Token} (hrest : n.Follow rest) :
    Builds line (u ++ rest) rest d (parser n fuel) := by
  induction h generalizing fuel rest with
  | @line u c n hu ih =>
    cases fuel with
    | zero => exact fun s _ => rfl
    | succ fuel =>
      intro s hs
      have hamp : starts (['&'].map ascii) rest = false := by
        rcases hrest with rfl | ⟨t, ts, rfl, rfl⟩ <;> rfl
      have hsemi : starts ([';'].map ascii) rest = false := by
        rcases hrest with rfl | ⟨t, ts, rfl, rfl⟩ <;> rfl
      rw [parser, parseline]
      refine wp_parseline_backs n (ih fuel (hrest.line_pipe.amps n)) hamp hs fun c₁ s₁ hs₁ hc₁ => ?_
      rw [wp_bind]
      refine wp_peek hs₁ (by decide) fun s₂ hs₂ => ?_
      rw [hsemi, wp_ite, if_pos (by simp)]
      exact ⟨hs₂, hc₁⟩
  | @list u v c d n hu hv ihu ihv =>
    cases fuel with
    | zero => exact fun s _ => rfl
    | succ fuel =>
      intro s hs
      rw [List.append_assoc, List.cons_append] at hs
      have hfollow : Nonterminal.Follow .pipe (.semi :: (v ++ rest)) :=
        Or.inr ⟨_, _, rfl, Or.inr (Or.inr rfl)⟩
      rw [parser, parseline]
      refine wp_parseline_backs n (ihu fuel (hfollow.amps n)) rfl hs fun c₁ s₁ hs₁ hc₁ => ?_
      rw [wp_bind]
      refine wp_peek hs₁ (by decide) fun s₂ hs₂ => ?_
      rw [wp_ite, if_neg (by simp [starts, Token.lead, Token.code]), wp_bind]
      refine wp_gettoken_cons hs₂ fun x s₃ hs₃ _ => ?_
      rw [wp_bind]
      exact (ihv fuel hrest s₃ hs₃).mono fun c₂ s₄ hc₂ => ⟨hc₂.1, .list hc₁ hc₂.2⟩
  | @cmd u c hu ih =>
    cases fuel with
    | zero => exact fun s _ => rfl
    | succ fuel =>
      intro s hs
      rw [parser, parsepipe, wp_bind]
      refine (ih fuel hrest.pipe_cmd s hs).mono fun c₁ s₁ hc₁ => ?_
      rw [wp_bind]
      refine wp_peek hc₁.1 (by decide) fun s₂ hs₂ => ?_
      have hbar : starts (['|'].map ascii) rest = false := by
        rcases hrest with rfl | ⟨t, ts, rfl, rfl | rfl | rfl⟩ <;> rfl
      rw [hbar, wp_ite, if_pos (by simp)]
      exact ⟨hs₂, hc₁.2⟩
  | @pipe u v c d hu hv ihu ihv =>
    cases fuel with
    | zero => exact fun s _ => rfl
    | succ fuel =>
      intro s hs
      rw [List.append_assoc, List.cons_append] at hs
      rw [parser, parsepipe, wp_bind]
      refine (ihu fuel (Or.inr ⟨_, _, rfl, by simp⟩) s hs).mono fun c₁ s₁ hc₁ => ?_
      rw [wp_bind]
      refine wp_peek hc₁.1 (by decide) fun s₂ hs₂ => ?_
      rw [wp_ite, if_neg (by simp [starts, Token.lead, Token.code]), wp_bind]
      refine wp_gettoken_cons hs₂ fun x s₃ hs₃ _ => ?_
      rw [wp_bind]
      exact (ihv fuel hrest s₃ hs₃).mono fun c₂ s₄ hc₂ => ⟨hc₂.1, .pipe hc₁.2 hc₂.2⟩
  | @block u v c rs hu hv ih =>
    cases fuel with
    | zero => exact fun s _ => rfl
    | succ fuel =>
      intro s hs
      rw [List.cons_append, List.append_assoc, List.cons_append] at hs
      rw [parser, parseexec, wp_bind]
      refine wp_peek hs (by decide) fun s₁ hs₁ => ?_
      rw [wp_ite, if_pos (by simp [starts, Token.lead, Token.code])]
      cases fuel with
      | zero => exact rfl
      | succ fuel =>
        rw [parseblock, wp_bind]
        refine wp_peek hs₁ (by decide) fun s₂ hs₂ => ?_
        rw [wp_ite, if_neg (by simp [starts, Token.lead, Token.code]), wp_bind]
        refine wp_gettoken_cons hs₂ fun x s₃ hs₃ _ => ?_
        rw [wp_bind]
        refine (ih fuel (Or.inr ⟨_, _, rfl, rfl⟩) s₃ hs₃).mono fun c₁ s₄ hc₁ => ?_
        rw [wp_bind]
        refine wp_peek hc₁.1 (by decide) fun s₅ hs₅ => ?_
        rw [wp_ite, if_neg (by simp [starts, Token.lead, Token.code]), wp_bind]
        refine wp_gettoken_cons hs₅ fun x s₆ hs₆ _ => ?_
        exact Builds.withFuel
          (fun k => parseredirsFrom_builds k hc₁.2 hv (starts_redir_of_end hrest)) s₆ hs₆
  | @exec u v ws rs rs' hu hv hlen =>
    cases fuel with
    | zero => exact fun s _ => rfl
    | succ fuel =>
      intro s hs
      rw [List.append_assoc] at hs
      rw [parser, parseexec, wp_bind]
      refine wp_peek hs (by decide) fun s₁ hs₁ => ?_
      have hparen : starts (['('].map ascii) (u ++ (v ++ rest)) = false := by
        cases hu with
        | nil =>
          cases hv with
          | nil => rcases hrest with rfl | ⟨t, ts, rfl, rfl | rfl | rfl | rfl⟩ <;> rfl
          | cons => rfl
        | lt => rfl
        | gt => rfl
        | gtgt => rfl
      have hnext : starts (['<', '>'].map ascii) (v ++ rest) = false := by
        cases hv with
        | nil => exact starts_redir_of_end hrest
        | cons => rfl
      rw [hparen, wp_ite, if_neg (by simp), wp_bind]
      refine (Builds.withFuel (fun k => parseredirsFrom_builds k (.exec .nil) hu hnext) s₁ hs₁).mono
        fun c₁ s₂ hc₁ => ?_
      exact Builds.withFuel (fun k => parseargsFrom_builds k hc₁.2 rfl hv hlen hrest) s₂ hc₁.1

/-! ### The strings of the tree -/

/-- The strings of a tree, in the order in which `nulterminate` ends them. -/
def Cmd.strings {α : Type} : Cmd α → List α
  | .exec argv => argv
  | .redir cmd file _ _ => cmd.strings ++ [file]
  | .pipe left right => left.strings ++ right.strings
  | .list left right => left.strings ++ right.strings
  | .back cmd => cmd.strings

theorem nulterminate_eq (n : ℕ) (c : Cmd Str) (m : ℕ → Byte) :
    nulterminate n c m =
      c.strings.foldl (fun m x => Function.update m (n - x.eq.length) 0) m := by
  induction c generalizing m with
  | exec argv => rfl
  | redir c file mode fd ih => rw [nulterminate, Cmd.strings, List.foldl_append, ← ih]; rfl
  | pipe left right ihl ihr => rw [nulterminate, Cmd.strings, List.foldl_append, ihl, ihr]
  | list left right ihl ihr => rw [nulterminate, Cmd.strings, List.foldl_append, ihl, ihr]
  | back c ih => rw [nulterminate, Cmd.strings, ih]

/-- `nulterminate` writes a NUL after every string, and nothing else. -/
theorem foldl_update_zero (f : Str → ℕ) (xs : List Str) (m : ℕ → Byte) (p : ℕ) :
    xs.foldl (fun m x => Function.update m (f x) 0) m p =
      if ∃ x ∈ xs, f x = p then 0 else m p := by
  induction xs generalizing m with
  | nil => simp
  | cons x xs ih =>
    rw [List.foldl_cons, ih]
    by_cases hxs : ∃ y ∈ xs, f y = p
    · obtain ⟨y, hy, hyp⟩ := hxs
      rw [if_pos ⟨y, hy, hyp⟩, if_pos ⟨y, List.mem_cons_of_mem _ hy, hyp⟩]
    · rw [if_neg hxs]
      by_cases hx : f x = p
      · rw [if_pos ⟨x, List.mem_cons_self, hx⟩, hx, Function.update_self]
      · rw [Function.update_of_ne (Ne.symm hx), if_neg]
        rintro ⟨y, hy, hyp⟩
        rcases List.mem_cons.1 hy with rfl | hy
        · exact hx hyp
        · exact hxs ⟨y, hy, hyp⟩

theorem Cmd.Rel.map_eq {α β γ : Type} {R : α → β → Prop} {c : Cmd α} {d : Cmd β}
    (h : Cmd.Rel R c d) {f : α → γ} {g : β → γ} (hfg : ∀ x ∈ c.strings, ∀ y, R x y → f x = g y) :
    c.map f = d.map g := by
  induction h with
  | @exec a b hab =>
    rw [Cmd.map, Cmd.map]
    congr 1
    induction hab with
    | nil => rfl
    | cons hxy hab ih =>
      rw [List.map_cons, List.map_cons, hfg _ List.mem_cons_self _ hxy,
        ih fun x hx => hfg x (List.mem_cons_of_mem _ hx)]
  | redir hc hxy ih =>
    rw [Cmd.map, Cmd.map, ih fun x hx => hfg x (List.mem_append_left _ hx),
      hfg _ (List.mem_append_right _ (List.mem_singleton.2 rfl)) _ hxy]
  | pipe h1 h2 ih1 ih2 =>
    rw [Cmd.map, Cmd.map, ih1 fun x hx => hfg x (List.mem_append_left _ hx),
      ih2 fun x hx => hfg x (List.mem_append_right _ hx)]
  | list h1 h2 ih1 ih2 =>
    rw [Cmd.map, Cmd.map, ih1 fun x hx => hfg x (List.mem_append_left _ hx),
      ih2 fun x hx => hfg x (List.mem_append_right _ hx)]
  | back hc ih => rw [Cmd.map, Cmd.map, ih hfg]

theorem Cmd.Rel.exists_of_mem {α β : Type} {R : α → β → Prop} {c : Cmd α} {d : Cmd β}
    (h : Cmd.Rel R c d) {x : α} (hx : x ∈ c.strings) : ∃ y, R x y := by
  induction h with
  | exec hab =>
    change x ∈ _ at hx
    induction hab with
    | nil => cases hx
    | cons hxy _ ih =>
      rcases List.mem_cons.1 hx with rfl | hx
      · exact ⟨_, hxy⟩
      · exact ih hx
  | redir hc hxy ih =>
    rcases List.mem_append.1 hx with hx | hx
    · exact ih hx
    · rw [List.mem_singleton.1 hx]
      exact ⟨_, hxy⟩
  | pipe h1 h2 ih1 ih2 => exact (List.mem_append.1 hx).elim ih1 ih2
  | list h1 h2 ih1 ih2 => exact (List.mem_append.1 hx).elim ih1 ih2
  | back hc ih => exact ih hx

/-- The characters of a word in memory, up to the NUL after it. -/
theorem cstring_eq {m : ℕ → Byte} {w : List Ch} {p k : ℕ}
    (hw : ∀ u c v, w = u ++ c :: v → m (p + u.length) = c.val) (hstop : m (p + w.length) = 0)
    (hk : w.length ≤ k) : cstring m p k = w.map Subtype.val := by
  induction w generalizing p k with
  | nil =>
    cases k with
    | zero => rfl
    | succ k => rw [cstring, if_pos (by simpa using hstop)]; rfl
  | cons c w ih =>
    cases k with
    | zero => simp at hk
    | succ k =>
      have hc : m p = c.val := hw [] c w rfl
      rw [cstring, hc, if_neg c.2, List.map_cons]
      congr 1
      refine ih (fun u d v he => ?_) ?_ (by simpa using hk)
      · rw [show p + 1 + u.length = p + (c :: u).length by simp; omega]
        exact hw (c :: u) d v (by rw [he]; rfl)
      · rw [show p + 1 + w.length = p + (c :: w).length by simp; omega]
        exact hstop

theorem bytesOf_append (u : List Ch) (c : Ch) (v : List Ch) :
    bytesOf (u ++ c :: v) u.length = c.val := by
  rw [bytesOf, List.drop_left]
  rfl

/-- The line after the strings `xs` have been ended, one after the other. -/
def terminate (n : ℕ) (xs : List Str) (m : ℕ → Byte) : ℕ → Byte :=
  xs.foldl (fun m x => Function.update m (n - x.eq.length) 0) m

/-- No NUL falls into a word and one falls right after it, whatever the order they are written
in. -/
theorem Cmd.Rel.read_terminate {c : Cmd Str} {d : Cmd (List Ch)} (h : Cmd.Rel (Wordy line) c d)
    {xs : List Str} (hxs : xs.Perm c.strings) {x : Str} (hx : x ∈ c.strings) {w : List Ch}
    (hw : Wordy line x w) :
    x.read line.length (terminate line.length xs (bytesOf line)) = w.map Subtype.val := by
  obtain ⟨pre, hpre⟩ := hw.suffix
  have hlen : line.length = pre.length + x.q.length := by rw [← hpre, List.length_append]
  have hq : x.q.length = w.length + x.eq.length := by rw [hw.text, List.length_append]
  refine cstring_eq (fun u ch v he => ?_) ?_ (by omega)
  · -- a cut inside the word would be the end of another word
    have hline : line = (pre ++ u) ++ ch :: (v ++ x.eq) := by
      rw [← hpre, hw.text, he]
      simp
    rw [show line.length - x.q.length + u.length = (pre ++ u).length by
      rw [List.length_append]; omega, terminate, foldl_update_zero, if_neg]
    · conv_lhs => rw [hline]
      exact bytesOf_append _ _ _
    rintro ⟨y, hy, hyp⟩
    obtain ⟨w', hw'⟩ := h.exists_of_mem (hxs.subset hy)
    obtain ⟨pre', hpre'⟩ := (show y.eq <:+ line from
      (hw'.text ▸ List.suffix_append w' y.eq).trans hw'.suffix)
    have heq : pre' = pre ++ u ∧ y.eq = ch :: (v ++ x.eq) := by
      refine List.append_inj (hpre'.trans hline) ?_
      rw [← hpre', List.length_append] at hyp
      omega
    exact absurd (hw.word ch (by rw [he]; simp)) (by rw [hw'.stop _ _ heq.2]; simp)
  · rw [terminate, foldl_update_zero, if_pos ⟨x, hxs.symm.subset hx, by omega⟩]

/-- **The strings that the tree points to** are the words, once they have been terminated. -/
theorem Cmd.Rel.read {c : Cmd Str} {d : Cmd (List Ch)} (h : Cmd.Rel (Wordy line) c d) :
    c.map (Str.read line.length (nulterminate line.length c (bytesOf line))) =
      d.map (List.map Subtype.val) := by
  refine h.map_eq fun x hx w hw => ?_
  rw [nulterminate_eq]
  exact h.read_terminate (.refl _) hx hw

theorem Cmd.map_injective {α β : Type} {f : α → β} (hf : Function.Injective f) :
    Function.Injective (Cmd.map f) := by
  intro c d h
  induction c generalizing d with
  | exec argv =>
    cases d with
    | exec argv' => rw [List.map_injective_iff.2 hf (Cmd.exec.inj h)]
    | _ => cases h
  | redir c file mode fd ih =>
    cases d with
    | redir d file' mode' fd' =>
      obtain ⟨hc, hfile, rfl, rfl⟩ := Cmd.redir.inj h
      rw [ih hc, hf hfile]
    | _ => cases h
  | pipe left right ihl ihr =>
    cases d with
    | pipe left' right' =>
      obtain ⟨hl, hr⟩ := Cmd.pipe.inj h
      rw [ihl hl, ihr hr]
    | _ => cases h
  | list left right ihl ihr =>
    cases d with
    | list left' right' =>
      obtain ⟨hl, hr⟩ := Cmd.list.inj h
      rw [ihl hl, ihr hr]
    | _ => cases h
  | back c ih =>
    cases d with
    | back d => rw [ih (Cmd.back.inj h)]
    | _ => cases h

/-! ### `parsecmd` -/

theorem skip_eq_nil {s : Ptr} (h : tokens s = []) : skip s = [] := by
  rw [← tokens_skip] at h
  rcases hq : skip s with _ | ⟨c, s'⟩
  · rfl
  · obtain ⟨t, eq, -, htok, -⟩ := scan_cons (s := s') (skip_head hq)
    rw [hq, htok] at h
    cases h

theorem parseall_sound (line : List Ch) :
    wp (parseall (4 * line.length + 4)) (· ≠ .diverge)
      (fun c _ => ∃ d, Derives .line (tokens line) d ∧ Cmd.Rel (Wordy line) c d) line := by
  have hlen := tokens_length_le line
  rw [parseall, wp_bind]
  refine (((parse_reads line _).1 line _ ⟨List.suffix_rfl, rfl⟩).weaken fun e he =>
    he (by omega)).mono fun c s hc => ?_
  obtain ⟨u, rest, d, hts, hs, hu, hcd⟩ := hc
  rw [wp_bind]
  refine wp_peek hs (by simp) fun s' hs' => ?_
  rw [wp_bind, wp_get, wp_ite]
  split_ifs with hend
  · simp
  · rw [← hs'.tokens, not_not.1 hend, tokens_nil, List.append_nil] at hts
    exact ⟨d, hts ▸ hu, hcd⟩

theorem parseall_complete {line : List Ch} {d : Cmd (List Ch)} (h : Derives .line (tokens line) d)
    (fuel : ℕ) :
    wp (parseall fuel) (· = .diverge) (fun c _ => Cmd.Rel (Wordy line) c d) line := by
  rw [parseall, wp_bind]
  refine (h.builds fuel (Or.inl rfl) line ⟨List.suffix_rfl, (List.append_nil _).symm⟩).mono
    fun c s hc => ?_
  rw [wp_bind]
  change wp _ _ _ (skip s)
  rw [skip_eq_nil hc.1.tokens, wp_bind, wp_get, wp_ite, if_neg (by simp)]
  exact hc.2

/-- **The shell accepts exactly its grammar.**  `parsecmd` comes back; it returns a tree if and only
if the tokens of the line are derivable; and then the tree, with the strings it points to, is the
tree of every derivation. -/
theorem parsecmd_accepts (line : List Ch) :
    parsecmd line ≠ .error .diverge ∧
      ((∃ r, parsecmd line = .ok r) ↔ ∃ d, Derives .line (tokens line) d) ∧
      ∀ c m, parsecmd line = .ok (c, m) → ∀ d,
        Derives .line (tokens line) d ↔
          c.map (Str.read line.length m) = d.map (List.map Subtype.val) := by
  have hsound := parseall_sound line
  have hcomplete := fun d (h : Derives .line (tokens line) d) =>
    parseall_complete h (4 * line.length + 4)
  unfold parsecmd
  rcases hrun : parseall (4 * line.length + 4) line with e | ⟨c, s⟩
  · have hne := hsound.error hrun
    have hnot : ∀ d, ¬ Derives .line (tokens line) d :=
      fun d h => hne ((hcomplete d h).error hrun)
    refine ⟨fun he => hne (Except.error.inj he), ⟨fun ⟨r, hr⟩ => (nomatch hr), fun ⟨d, h⟩ =>
      absurd h (hnot d)⟩, fun c m he => nomatch he⟩
  · obtain ⟨d₀, hd₀, hrel₀⟩ := hsound.ok hrun
    refine ⟨fun he => (nomatch he), ⟨fun _ => ⟨d₀, hd₀⟩, fun _ => ⟨_, rfl⟩⟩, fun c' m he d => ?_⟩
    obtain ⟨rfl, rfl⟩ := Prod.mk.inj (Except.ok.inj he)
    constructor
    · exact fun h => ((hcomplete d h).ok hrun).read
    · intro h
      have hmap := hrel₀.read.symm.trans h
      rwa [Cmd.map_injective (List.map_injective_iff.2 Subtype.val_injective) hmap] at hd₀

/-! ### The strings are the words of the line -/

/-- The text between the two pointers of a counted string. -/
def Str.text (x : Str) : List Ch := x.q.take (x.q.length - x.eq.length)

theorem Wordy.text_eq {x : Str} {w : List Ch} (h : Wordy line x w) : x.text = w := by
  rw [Str.text, h.text, List.length_append, Nat.add_sub_cancel, List.take_left]

def words (ts : List Token) : List (List Ch) :=
  ts.filterMap fun
    | .word w => some w
    | _ => none

@[simp]
theorem words_append (u v : List Token) : words (u ++ v) = words u ++ words v :=
  List.filterMap_append

@[simp]
theorem words_replicate_amp (n : ℕ) : words (List.replicate n .amp) = [] := by
  simp [words]

theorem Cmd.strings_backs {α : Type} (n : ℕ) (c : Cmd α) :
    (Cmd.back^[n] c).strings = c.strings := by
  induction n with
  | zero => rfl
  | succ n ih => rw [Function.iterate_succ_apply', Cmd.strings, ih]

theorem Cmd.strings_wrap (c : Cmd (List Ch)) (rs : List Redir) :
    (c.wrap rs).strings = c.strings ++ rs.map Redir.file := by
  induction rs generalizing c with
  | nil => exact (List.append_nil _).symm
  | cons r rs ih => rw [wrap_cons, ih, Cmd.strings, List.append_assoc]; rfl

theorem Redirs.words_eq {u : List Token} {rs : List Redir} (h : Redirs u rs) :
    words u = rs.map Redir.file := by
  induction h with
  | nil => rfl
  | lt _ ih => exact congrArg (_ :: ·) ih
  | gt _ ih => exact congrArg (_ :: ·) ih
  | gtgt _ ih => exact congrArg (_ :: ·) ih

theorem Args.words_perm {v : List Token} {ws : List (List Ch)} {rs : List Redir}
    (h : Args v ws rs) : (words v).Perm (ws ++ rs.map Redir.file) := by
  induction h with
  | nil => exact .refl _
  | @cons w u v ws rs rs' hu _ ih =>
    -- the files of the redirections after the word move behind the words that follow
    change (w :: words (u ++ v)).Perm (w :: (ws ++ (rs ++ rs').map Redir.file))
    rw [words_append, hu.words_eq, List.map_append, ← List.append_assoc]
    refine .cons _ ((ih.append_left _).trans ?_)
    rw [← List.append_assoc]
    exact List.perm_append_comm.append_right _

/-- A derivation puts every word of the line into the tree, once. -/
theorem Derives.strings_perm {n : Nonterminal} {ts : List Token} {d : Cmd (List Ch)}
    (h : Derives n ts d) : d.strings.Perm (words ts) := by
  induction h with
  | line n _ ih =>
    rw [Cmd.strings_backs, words_append, words_replicate_amp, List.append_nil]
    exact ih
  | list n _ _ ih₁ ih₂ =>
    rw [Cmd.strings, Cmd.strings_backs, words_append, words_append, words_replicate_amp,
      List.append_nil]
    exact ih₁.append ih₂
  | cmd _ ih => exact ih
  | pipe _ _ ih₁ ih₂ =>
    rw [Cmd.strings, words_append]
    exact ih₁.append ih₂
  | @block u v c rs _ hv ih =>
    change (c.wrap rs).strings.Perm (words (u ++ .rparen :: v))
    rw [Cmd.strings_wrap, words_append, ← hv.words_eq]
    exact ih.append_right _
  | @exec u v ws rs rs' hu hv _ =>
    rw [Cmd.strings_wrap, Cmd.strings, words_append, hu.words_eq, List.map_append,
      ← List.append_assoc]
    refine .trans ?_ ((hv.words_perm.append_left _).symm)
    rw [← List.append_assoc]
    exact List.perm_append_comm.append_right _

theorem Cmd.Rel.texts {c : Cmd Str} {d : Cmd (List Ch)} (h : Cmd.Rel (Wordy line) c d) :
    c.strings.map Str.text = d.strings := by
  induction h with
  | exec hab =>
    rw [Cmd.strings, Cmd.strings]
    induction hab with
    | nil => rfl
    | cons hxy _ ih => rw [List.map_cons, ih, hxy.text_eq]
  | redir _ hxy ih => rw [Cmd.strings, Cmd.strings, List.map_append, ih, ← hxy.text_eq]; rfl
  | pipe _ _ ih₁ ih₂ => rw [Cmd.strings, Cmd.strings, List.map_append, ih₁, ih₂]
  | list _ _ ih₁ ih₂ => rw [Cmd.strings, Cmd.strings, List.map_append, ih₁, ih₂]
  | back _ ih => rw [Cmd.strings, Cmd.strings, ih]

/-- **Ending the words in place keeps them.**  When `parsecmd` accepts a line, the strings of the
tree are the words among the tokens of the line; the memory it returns has a NUL written after each
of them; and whatever the order in which these NULs are written, every string of the tree, read up
to its NUL, is the text of its token. -/
theorem parsecmd_keeps_tokens (line : List Ch) (c : Cmd Str) (m : ℕ → Byte)
    (h : parsecmd line = .ok (c, m)) :
    (c.strings.map Str.text).Perm (words (tokens line)) ∧
      m = terminate line.length c.strings (bytesOf line) ∧
      ∀ xs, xs.Perm c.strings → ∀ x ∈ c.strings,
        x.read line.length (terminate line.length xs (bytesOf line)) =
          x.text.map Subtype.val := by
  have hsound := parseall_sound line
  unfold parsecmd at h
  rcases hrun : parseall (4 * line.length + 4) line with e | ⟨c', s⟩
  · rw [hrun] at h
    cases h
  · rw [hrun] at h
    obtain ⟨rfl, rfl⟩ := Prod.mk.inj (Except.ok.inj h)
    obtain ⟨d, hd, hrel⟩ := hsound.ok hrun
    refine ⟨hrel.texts ▸ hd.strings_perm, nulterminate_eq _ _ _, fun xs hxs x hx => ?_⟩
    obtain ⟨w, hw⟩ := hrel.exists_of_mem hx
    rw [hrel.read_terminate hxs hx hw, hw.text_eq]

/-- The line `a>b|c`. -/
def packed : List Ch :=
  [⟨ascii 'a', by decide⟩, ⟨ascii '>', by decide⟩, ⟨ascii 'b', by decide⟩, ⟨ascii '|', by decide⟩,
    ⟨ascii 'c', by decide⟩]

theorem parsecmd_keeps_tokens_packed :
    ∃ c m, parsecmd packed = .ok (c, m) ∧
      c.strings.map (Str.read packed.length m) = [[ascii 'a'], [ascii 'b'], [ascii 'c']] ∧
      c.strings.map (Str.read packed.length
        (terminate packed.length c.strings.reverse (bytesOf packed))) =
          [[ascii 'a'], [ascii 'b'], [ascii 'c']] := by
  have hrun : (parsecmd packed).map (fun r => r.1.strings.map fun x => x.text.map Subtype.val) =
      .ok [[ascii 'a'], [ascii 'b'], [ascii 'c']] := by decide
  rcases h : parsecmd packed with e | ⟨c, m⟩
  · rw [h] at hrun
    cases hrun
  · rw [h] at hrun
    obtain ⟨-, hm, hread⟩ := parsecmd_keeps_tokens packed c m h
    have hall : ∀ xs : List Str, xs.Perm c.strings →
        c.strings.map (Str.read packed.length (terminate packed.length xs (bytesOf packed))) =
          [[ascii 'a'], [ascii 'b'], [ascii 'c']] := fun xs hxs => by
      rw [List.map_congr_left (hread xs hxs)]
      exact Except.ok.inj hrun
    exact ⟨c, m, rfl, hm ▸ hall _ (.refl _), hall _ (List.reverse_perm _)⟩

end Xv6.Shell
