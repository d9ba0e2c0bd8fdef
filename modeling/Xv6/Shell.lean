import Xv6.Lib.Bytes
import Xv6.Lib.Wp

/-!
# The parser of the shell

The lexer and the recursive-descent parser of `user/sh.c`.  The parser moves a cursor `*ps` through
a NUL-terminated line; here a pointer into the line is given by the rest of the line from it on, so
that `es` is the empty rest.  Calls into the parser and rounds of its loops use up fuel, which
`parsecmd` provides.  Tree nodes are allocated; memory for them is taken to be there.
-/

namespace Xv6.Shell

open Bytes Wp

/-- A character of a line: a byte that does not end it. -/
abbrev Ch := {b : Byte // b ≠ 0}

/-- A pointer into the line, as what is left of the line from there. -/
abbrev Ptr := List Ch

/-- `*s`; the line ends with a NUL. -/
def deref : Ptr → Byte
  | [] => 0
  | c :: _ => c.val

/-- The code of an ASCII character. -/
def ascii (c : Char) : Byte := BitVec.ofNat 8 c.toNat

def whitespace : List Byte := [' ', '\t', '\r', '\n', '\x0b'].map ascii

def symbols : List Byte := ['<', '|', '>', '&', ';', '(', ')'].map ascii

/-- A character that may be part of a word. -/
def isWord (c : Ch) : Bool := c.val ∉ whitespace ∧ c.val ∉ symbols

/-- `while(s < es && strchr(whitespace, *s)) s++;` -/
def skip (s : Ptr) : Ptr := s.dropWhile fun c => c.val ∈ whitespace

/-- The ways in which the parser does not return. -/
inductive Halt
  | panic (msg : String)
  /-- no fuel is left -/
  | diverge
  deriving DecidableEq

/-- Code of the parser, with the cursor `*ps` as its state. -/
abbrev Parse := Prog Ptr Halt

/-- A counted string: pointers to its first character and past its last one. -/
structure Str where
  q : Ptr
  eq : Ptr
  deriving DecidableEq

/-- The `switch` of `gettoken` at `q`: the token and the pointer past it. -/
def scan (q : Ptr) : Byte × Ptr :=
  if deref q = 0 then (0, q)
  else if deref q ∈ ['|', '(', ')', ';', '&', '<'].map ascii then (deref q, q.tail)
  else if deref q = ascii '>' then
    if deref q.tail = ascii '>' then (ascii '+', q.tail.tail) else (deref q, q.tail)
  else (ascii 'a', q.dropWhile isWord)

/-- `gettoken`, with `*q` and `*eq`. -/
def gettoken : Parse (Byte × Str) := do
  let q := skip (← get)
  let (ret, eq) := scan q
  set (skip eq)
  return (ret, ⟨q, eq⟩)

/-- `peek`. -/
def peek (toks : List Byte) : Parse Bool := do
  let s := skip (← get)
  set s
  return deref s ≠ 0 ∧ deref s ∈ toks

/-! ### Commands -/

/-- `struct cmd`, with strings of type `α`. -/
inductive Cmd (α : Type)
  | exec (argv : List α)
  | redir (cmd : Cmd α) (file : α) (mode fd : ℕ)
  | pipe (left right : Cmd α)
  | list (left right : Cmd α)
  | back (cmd : Cmd α)
  deriving DecidableEq

/-- `cmd->argv[argc] = q; cmd->eargv[argc] = eq;` for the `execcmd` below the redirections that have
been read so far. -/
def Cmd.pushArg {α : Type} (x : α) : Cmd α → Cmd α
  | .exec argv => .exec (argv ++ [x])
  | .redir cmd file mode fd => .redir (cmd.pushArg x) file mode fd
  | cmd => cmd

abbrev O_RDONLY : ℕ := 0x000
abbrev O_WRONLY : ℕ := 0x001
abbrev O_CREATE : ℕ := 0x200
abbrev O_TRUNC : ℕ := 0x400

abbrev MAXARGS : ℕ := 10

/-! ### The parser -/

/-- The `switch` of `parseredirs`. -/
def redirect (tok : Byte) (cmd : Cmd Str) (file : Str) : Cmd Str :=
  if tok = ascii '<' then .redir cmd file O_RDONLY 0
  else if tok = ascii '>' then .redir cmd file (O_WRONLY ||| O_CREATE ||| O_TRUNC) 1
  else if tok = ascii '+' then .redir cmd file (O_WRONLY ||| O_CREATE) 1
  else cmd

/-- The loop of `parseredirs`. -/
def parseredirsFrom : ℕ → Cmd Str → Parse (Cmd Str)
  | 0, _ => throw .diverge
  | fuel + 1, cmd => do
    if !(← peek (['<', '>'].map ascii)) then return cmd
    let (tok, _) ← gettoken
    let (ret, file) ← gettoken
    if ret ≠ ascii 'a' then throw (.panic "missing file for redirection")
    parseredirsFrom fuel (redirect tok cmd file)

/-- `parseredirs`. -/
def parseredirs (cmd : Cmd Str) : Parse (Cmd Str) := do
  parseredirsFrom ((← get).length + 1) cmd

/-- The loop of `parseexec`. -/
def parseargsFrom : ℕ → ℕ → Cmd Str → Parse (Cmd Str)
  | 0, _, _ => throw .diverge
  | fuel + 1, argc, ret => do
    if ← peek (['|', ')', '&', ';'].map ascii) then return ret
    let (tok, arg) ← gettoken
    if tok = 0 then return ret
    if tok ≠ ascii 'a' then throw (.panic "syntax")
    let ret := ret.pushArg arg
    if MAXARGS ≤ argc + 1 then throw (.panic "too many args")
    let ret ← parseredirs ret
    parseargsFrom fuel (argc + 1) ret

/-- `while(peek(ps, es, "&"))` in `parseline`. -/
def parsebackFrom : ℕ → Cmd Str → Parse (Cmd Str)
  | 0, _ => throw .diverge
  | fuel + 1, cmd => do
    if !(← peek (['&'].map ascii)) then return cmd
    let _ ← gettoken
    parsebackFrom fuel (.back cmd)

mutual

/-- `parseline`. -/
def parseline : ℕ → Parse (Cmd Str)
  | 0 => throw .diverge
  | fuel + 1 => do
    let cmd ← parsepipe fuel
    let cmd ← parsebackFrom ((← get).length + 1) cmd
    if !(← peek ([';'].map ascii)) then return cmd
    let _ ← gettoken
    return .list cmd (← parseline fuel)

/-- `parsepipe`. -/
def parsepipe : ℕ → Parse (Cmd Str)
  | 0 => throw .diverge
  | fuel + 1 => do
    let cmd ← parseexec fuel
    if !(← peek (['|'].map ascii)) then return cmd
    let _ ← gettoken
    return .pipe cmd (← parsepipe fuel)

/-- `parseexec`. -/
def parseexec : ℕ → Parse (Cmd Str)
  | 0 => throw .diverge
  | fuel + 1 => do
    if ← peek (['('].map ascii) then parseblock fuel
    else
      let ret ← parseredirs (.exec [])
      parseargsFrom ((← get).length + 1) 0 ret

/-- `parseblock`. -/
def parseblock : ℕ → Parse (Cmd Str)
  | 0 => throw .diverge
  | fuel + 1 => do
    if !(← peek (['('].map ascii)) then throw (.panic "parseblock")
    let _ ← gettoken
    let cmd ← parseline fuel
    if !(← peek ([')'].map ascii)) then throw (.panic "syntax - missing )")
    let _ ← gettoken
    parseredirs cmd

end

/-- `nulterminate`: the memory of a line of `n` characters after it. -/
def nulterminate (n : ℕ) : Cmd Str → (ℕ → Byte) → ℕ → Byte
  | .exec argv, m => argv.foldl (fun m arg => Function.update m (n - arg.eq.length) 0) m
  | .redir cmd file _ _, m => Function.update (nulterminate n cmd m) (n - file.eq.length) 0
  | .pipe left right, m => nulterminate n right (nulterminate n left m)
  | .list left right, m => nulterminate n right (nulterminate n left m)
  | .back cmd, m => nulterminate n cmd m

/-- The bytes of a line in memory. -/
def bytesOf (line : List Ch) : ℕ → Byte := fun i => deref (line.drop i)

/-- `parsecmd` after `es` has been set. -/
def parseall (fuel : ℕ) : Parse (Cmd Str) := do
  let cmd ← parseline fuel
  let _ ← peek []
  if (← get) ≠ [] then throw (.panic "syntax")
  return cmd

/-- `parsecmd`: the tree, and the line in memory after `nulterminate`. -/
def parsecmd (line : List Ch) : Except Halt (Cmd Str × (ℕ → Byte)) :=
  match parseall (4 * line.length + 4) line with
  | .ok (cmd, _) => .ok (cmd, nulterminate line.length cmd (bytesOf line))
  | .error e => .error e

/-- The C string at `p`, of at most `k` characters. -/
def cstring (m : ℕ → Byte) : ℕ → ℕ → List Byte
  | _, 0 => []
  | p, k + 1 => if m p = 0 then [] else m p :: cstring m (p + 1) k

/-- The C string that `argv[i]` or `file` points to, in the memory of a line of `n` characters. -/
def Str.read (n : ℕ) (m : ℕ → Byte) (x : Str) : List Byte := cstring m (n - x.q.length) x.q.length

/-- A tree with other strings. -/
def Cmd.map {α β : Type} (f : α → β) : Cmd α → Cmd β
  | .exec argv => .exec (argv.map f)
  | .redir cmd file mode fd => .redir (cmd.map f) (f file) mode fd
  | .pipe left right => .pipe (left.map f) (right.map f)
  | .list left right => .list (left.map f) (right.map f)
  | .back cmd => .back (cmd.map f)

end Xv6.Shell
