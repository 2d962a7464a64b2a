/-
  The parser of the shell (`sh.c`).

  A text is the bytes of a string before its terminating NUL, and a `char*`
  into it is a position.  The functions that move `*ps` return its new value.
  `panic` ends the program and is an error here; the other error is that the
  loops and the recursion have used up the rounds that they were given.

  A command is kept as in the source, with the positions of its words;
  `nulterminate` writes into the text, and `Cmd.tree` reads the words back as
  the C strings that then stand there.
-/
import Mathlib.Data.List.Basic

namespace Xv6

namespace Sh

/-- The code of a character. -/
def chr (c : Char) : UInt8 := .ofNat c.toNat

abbrev Text := List UInt8

/-- `*s`; the terminating NUL follows the text. -/
def Text.at (t : Text) (s : ℕ) : UInt8 := t.getD s 0

def whitespace : List UInt8 := [chr ' ', chr '\t', chr '\r', chr '\n', 11]

def symbols : List UInt8 := [chr '<', chr '|', chr '>', chr '&', chr ';', chr '(', chr ')']

/-- `strchr` finds a character other than NUL. -/
def strchr (s : List UInt8) (c : UInt8) : Bool := s.contains c

/-- `while(s < es && p(*s)) s++`, where `n` is `es - s`. -/
def skip (p : UInt8 → Bool) (t : Text) : ℕ → ℕ → ℕ
  | 0, s => s
  | n + 1, s => if p (t.at s) then skip p t n (s + 1) else s

def skipws (t : Text) (s : ℕ) : ℕ := skip (strchr whitespace) t (t.length - s) s

/-- The characters of a word. -/
def isWord (c : UInt8) : Bool := !strchr whitespace c && !strchr symbols c

/-- What `gettoken` returns: its result, and what it stores in `*q`, `*eq` and `*ps`. -/
structure Token where
  ret : UInt8
  q : ℕ
  eq : ℕ
  ps : ℕ

/-- The token at `s`, and where it ends. -/
def scan (t : Text) (s : ℕ) : UInt8 × ℕ :=
  let c := t.at s
  if c = 0 then (0, s)
  else if c = chr '|' ∨ c = chr '(' ∨ c = chr ')' ∨ c = chr ';' ∨ c = chr '&' ∨ c = chr '<' then
    (c, s + 1)
  else if c = chr '>' then
    if t.at (s + 1) = chr '>' then (chr '+', s + 2) else (c, s + 1)
  else (chr 'a', skip isWord t (t.length - s) s)

def gettoken (t : Text) (ps : ℕ) : Token :=
  let s := skipws t ps
  let (ret, e) := scan t s
  ⟨ret, s, e, skipws t e⟩

/-- `peek` moves `*ps` to the next token, and tells if it starts with one of `toks`. -/
def peek (t : Text) (ps : ℕ) (toks : List UInt8) : ℕ × Bool :=
  let s := skipws t ps
  (s, t.at s ≠ 0 && strchr toks (t.at s))

/-! ## Commands -/

/-- The open modes of redirections. -/
inductive Mode where
  /-- `O_RDONLY` -/
  | rdonly
  /-- `O_WRONLY|O_CREATE` -/
  | wronlyCreate
  deriving DecidableEq

/-- `struct cmd`, over the words `W`. -/
inductive Cmd (W : Type) where
  | exec (argv : List W)
  | redir (cmd : Cmd W) (file : W) (mode : Mode) (fd : ℕ)
  | pipe (left right : Cmd W)
  | list (left right : Cmd W)
  | back (cmd : Cmd W)
  deriving DecidableEq

/-- A word: where it starts and where it ends. -/
abbrev Span := ℕ × ℕ

/-- `parseexec` adds an argument to the command that it has allocated first, which stands below the
    redirections added since. -/
def Cmd.pushArg {W : Type} (w : W) : Cmd W → Cmd W
  | exec argv => exec (argv ++ [w])
  | redir c file mode fd => redir (c.pushArg w) file mode fd
  | c => c

abbrev MAXARGS : ℕ := 10

/-- Why a call does not return a command. -/
inductive Stop where
  | panic (msg : String)
  /-- more rounds are needed -/
  | fuel
  deriving DecidableEq

/-! ## Parsing -/

section
variable (t : Text)

/-- The `switch` of `parseredirs`. -/
def redircmd (tok : UInt8) (cmd : Cmd Span) (q eq : ℕ) : Cmd Span :=
  if tok = chr '<' then .redir cmd (q, eq) .rdonly 0
  else if tok = chr '>' then .redir cmd (q, eq) .wronlyCreate 1
  else if tok = chr '+' then .redir cmd (q, eq) .wronlyCreate 1
  else cmd

def parseredirs : ℕ → Cmd Span → ℕ → Except Stop (Cmd Span × ℕ)
  | 0, _, _ => .error .fuel
  | n + 1, cmd, ps =>
    let (ps, b) := peek t ps [chr '<', chr '>']
    if b then
      let tok := gettoken t ps
      let file := gettoken t tok.ps
      if file.ret ≠ chr 'a' then .error (.panic "missing file for redirection")
      else parseredirs n (redircmd tok.ret cmd file.q file.eq) file.ps
    else .ok (cmd, ps)

/-- The loop of `parseexec`. -/
def parseargs : ℕ → ℕ → Cmd Span → ℕ → Except Stop (Cmd Span × ℕ)
  | 0, _, _, _ => .error .fuel
  | n + 1, argc, ret, ps =>
    let (ps, b) := peek t ps [chr '|', chr ')', chr '&', chr ';']
    if b then .ok (ret, ps)
    else
      let tok := gettoken t ps
      if tok.ret = 0 then .ok (ret, tok.ps)
      else if tok.ret ≠ chr 'a' then .error (.panic "syntax")
      else if argc + 1 ≥ MAXARGS then .error (.panic "too many args")
      else do
        let (ret, ps) ← parseredirs t n (ret.pushArg (tok.q, tok.eq)) tok.ps
        parseargs n (argc + 1) ret ps

/-- The `while` loop of `parseline`. -/
def parseback : ℕ → Cmd Span → ℕ → Except Stop (Cmd Span × ℕ)
  | 0, _, _ => .error .fuel
  | n + 1, cmd, ps =>
    let (ps, b) := peek t ps [chr '&']
    if b then parseback n (.back cmd) (gettoken t ps).ps else .ok (cmd, ps)

mutual

def parseline : ℕ → ℕ → Except Stop (Cmd Span × ℕ)
  | 0, _ => .error .fuel
  | n + 1, ps => do
    let (cmd, ps) ← parsepipe n ps
    let (cmd, ps) ← parseback t n cmd ps
    let (ps, b) := peek t ps [chr ';']
    if b then
      let (right, ps) ← parseline n (gettoken t ps).ps
      return (.list cmd right, ps)
    else return (cmd, ps)

def parsepipe : ℕ → ℕ → Except Stop (Cmd Span × ℕ)
  | 0, _ => .error .fuel
  | n + 1, ps => do
    let (cmd, ps) ← parseexec n ps
    let (ps, b) := peek t ps [chr '|']
    if b then
      let (right, ps) ← parsepipe n (gettoken t ps).ps
      return (.pipe cmd right, ps)
    else return (cmd, ps)

def parseexec : ℕ → ℕ → Except Stop (Cmd Span × ℕ)
  | 0, _ => .error .fuel
  | n + 1, ps => do
    let (ps, b) := peek t ps [chr '(']
    if b then parseblock n ps
    else
      let (ret, ps) ← parseredirs t n (.exec []) ps
      parseargs t n 0 ret ps

def parseblock : ℕ → ℕ → Except Stop (Cmd Span × ℕ)
  | 0, _ => .error .fuel
  | n + 1, ps => do
    let (ps, b) := peek t ps [chr '(']
    if !b then throw (.panic "parseblock")
    let (cmd, ps) ← parseline n (gettoken t ps).ps
    let (ps, b) := peek t ps [chr ')']
    if !b then throw (.panic "syntax - missing )")
    parseredirs t n cmd (gettoken t ps).ps

end

end

/-- `*s = 0` -/
def Text.clear (t : Text) (s : ℕ) : Text := t.set s 0

/-- `nulterminate` ends all the counted strings. -/
def nulterminate : Cmd Span → Text → Text
  | .exec argv, t => argv.foldl (fun t w => t.clear w.2) t
  | .redir c file _ _, t => (nulterminate c t).clear file.2
  | .pipe l r, t => nulterminate r (nulterminate l t)
  | .list l r, t => nulterminate r (nulterminate l t)
  | .back c, t => nulterminate c t

/-- The command, and the text with its words terminated. -/
def parsecmd (fuel : ℕ) (s : Text) : Except Stop (Cmd Span × Text) := do
  let (cmd, ps) ← parseline s fuel 0
  let (ps, _) := peek s ps []
  if ps ≠ s.length then throw (.panic "syntax")
  return (cmd, nulterminate cmd s)

end Sh

end Xv6
