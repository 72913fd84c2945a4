/-
# The shell's parser

`sh.c` from `gettoken` to `nulterminate`. A pointer into the line is an offset, and the
string at `*ps` is what the functions read and move on; the line itself is written only
by `nulterminate`. The nodes of a command hold offsets of words, from their first
character to the one behind their last. A line may have any length, also one that the
buffer of 100 bytes, into which the shell reads its lines, does not hold.
-/
import Oslab.Fs

namespace Oslab

open Lib Lib.Prog

namespace Shell

abbrev MAXARGS : ℕ := 10
abbrev O_RDONLY : ℕ := 0x000

/-- " \t\r\n\v" -/
abbrev whitespace : List UInt8 := [32, 9, 13, 10, 11]
/-- "<|>&;()" -/
abbrev symbols : List UInt8 := [60, 124, 62, 38, 59, 40, 41]

/-- `'<'` -/
abbrev LESS : UInt8 := 60
/-- `'|'` -/
abbrev BAR : UInt8 := 124
/-- `'>'` -/
abbrev GREATER : UInt8 := 62
/-- `'&'` -/
abbrev AMP : UInt8 := 38
/-- `';'` -/
abbrev SEMI : UInt8 := 59
/-- `'('` -/
abbrev LPAREN : UInt8 := 40
/-- `')'` -/
abbrev RPAREN : UInt8 := 41
/-- `'+'`, the token `>>` -/
abbrev APPEND : UInt8 := 43
/-- `'a'`, the token of a word -/
abbrev WORD : UInt8 := 97

/-- `struct cmd` and those that begin with it. A word is two offsets. -/
inductive Cmd
  | exec (argv : List (ℕ × ℕ))
  | redir (cmd : Cmd) (file efile mode fd whence : ℕ)
  | pipe (left right : Cmd)
  | list (left right : Cmd)
  | back (cmd : Cmd)

/-- The line: `es` characters, none of them zero, and a zero behind them. -/
structure Text where
  buf : Mem
  es : ℕ
  nonzero : ∀ s < es, buf s ≠ 0
  ends : buf es = 0

/-- Why the shell stops: the message of `panic`, or a loop that does not end. -/
inductive Stop
  | missingFile
  | noBlock
  | missingParen
  | badWord
  | tooManyArgs
  | leftovers
  | hang
  deriving DecidableEq

/-- Programs that read the line and move `*ps`. -/
abbrev ShellM := Prog Stop ℕ

/-- Whether `strchr` finds the character; it finds the zero that ends the string. -/
def strchr (str : List UInt8) (c : UInt8) : Bool := c = 0 ∨ c ∈ str

/-- The condition of the loop over a word. -/
def isWord (c : UInt8) : Bool := !strchr whitespace c && !strchr symbols c

/-- `while (s < es && p(*s)) s++`, for the `n` characters that are left. -/
def scanLoop (t : Text) (p : UInt8 → Bool) : ℕ → ℕ → ℕ
  | 0, s => s
  | n + 1, s => if p (t.buf s) then scanLoop t p n (s + 1) else s

def scan (t : Text) (p : UInt8 → Bool) (s : ℕ) : ℕ := scanLoop t p (t.es - s) s

def getPos : ShellM ℕ := read id

def setPos (s : ℕ) : ShellM Unit := update fun _ => s

/-- The token, `*q` and `*eq`. -/
def gettoken (t : Text) : ShellM (UInt8 × ℕ × ℕ) := do
  let s ← getPos
  let q := scan t (strchr whitespace) s
  let c := t.buf q
  let (ret, eq) :=
    if c = 0 then (c, q)
    else if c ∈ [BAR, LPAREN, RPAREN, SEMI, AMP, LESS] then (c, q + 1)
    else if c = GREATER then if t.buf (q + 1) = GREATER then (APPEND, q + 2) else (c, q + 1)
    else (WORD, scan t isWord q)
  setPos (scan t (strchr whitespace) eq)
  pure (ret, q, eq)

def peek (t : Text) (toks : List UInt8) : ShellM Bool := do
  let s ← getPos
  let s := scan t (strchr whitespace) s
  setPos s
  pure (t.buf s ≠ 0 ∧ strchr toks (t.buf s) = true)

/-- More than the rounds of any loop. -/
def Text.fuel (t : Text) : ℕ := t.es + 1

/-- The `redircmd` for a token. -/
def redirOf (cmd : Cmd) (tok : UInt8) (q eq : ℕ) : Cmd :=
  if tok = LESS then .redir cmd q eq O_RDONLY 0 SEEK_SET
  else if tok = GREATER then .redir cmd q eq (O_WRONLY ||| O_CREATE ||| O_TRUNC) 1 SEEK_SET
  else if tok = APPEND then .redir cmd q eq (O_WRONLY ||| O_CREATE) 1 SEEK_END
  else cmd

def parseredirs (t : Text) : ℕ → Cmd → ShellM Cmd
  | 0, _ => abort .hang
  | fuel + 1, cmd => do
    if ← peek t [LESS, GREATER] then
      let (tok, _, _) ← gettoken t
      let (word, q, eq) ← gettoken t
      assert (word = WORD) .missingFile
      parseredirs t fuel (redirOf cmd tok q eq)
    else pure cmd

/-- `cmd->argv[argc] = q`, where `cmd` is the `execcmd` under the redirections `ret`. -/
def Cmd.addArg : Cmd → ℕ → ℕ → Cmd
  | .exec argv, q, eq => .exec (argv ++ [(q, eq)])
  | .redir cmd file efile mode fd whence, q, eq =>
    .redir (cmd.addArg q eq) file efile mode fd whence
  | cmd, _, _ => cmd

/-- The loop of `parseexec`. -/
def parseargs (t : Text) : ℕ → ℕ → Cmd → ShellM Cmd
  | 0, _, _ => abort .hang
  | fuel + 1, argc, ret => do
    if ← peek t [BAR, RPAREN, AMP, SEMI] then pure ret
    else
      let (tok, q, eq) ← gettoken t
      if tok = 0 then pure ret
      else
        assert (tok = WORD) .badWord
        assert (argc + 1 < MAXARGS) .tooManyArgs
        let ret ← parseredirs t t.fuel (ret.addArg q eq)
        parseargs t fuel (argc + 1) ret

def parseblock (t : Text) (parseline : ShellM Cmd) : ShellM Cmd := do
  let opened ← peek t [LPAREN]
  assert (opened = true) .noBlock
  let _ ← gettoken t
  let cmd ← parseline
  let closed ← peek t [RPAREN]
  assert (closed = true) .missingParen
  let _ ← gettoken t
  parseredirs t t.fuel cmd

def parseexec (t : Text) (parseline : ShellM Cmd) : ShellM Cmd := do
  if ← peek t [LPAREN] then parseblock t parseline
  else
    let ret ← parseredirs t t.fuel (.exec [])
    parseargs t t.fuel 0 ret

def parsepipe (t : Text) (parseline : ShellM Cmd) : ℕ → ShellM Cmd
  | 0 => abort .hang
  | fuel + 1 => do
    let cmd ← parseexec t parseline
    if ← peek t [BAR] then
      let _ ← gettoken t
      let right ← parsepipe t parseline fuel
      pure (.pipe cmd right)
    else pure cmd

/-- The loop of `parseline`. -/
def parseback (t : Text) : ℕ → Cmd → ShellM Cmd
  | 0, _ => abort .hang
  | fuel + 1, cmd => do
    if ← peek t [AMP] then
      let _ ← gettoken t
      parseback t fuel (.back cmd)
    else pure cmd

def parseline (t : Text) : ℕ → ShellM Cmd
  | 0 => abort .hang
  | fuel + 1 => do
    let cmd ← parsepipe t (parseline t fuel) t.fuel
    let cmd ← parseback t t.fuel cmd
    if ← peek t [SEMI] then
      let _ ← gettoken t
      let right ← parseline t fuel
      pure (.list cmd right)
    else pure cmd

/-- The line with a zero behind every word of the command. -/
def nulterminate : Cmd → Mem → Mem
  | .exec argv, buf => argv.foldl (fun buf word => Function.update buf word.2 0) buf
  | .redir cmd _ efile _ _ _, buf => Function.update (nulterminate cmd buf) efile 0
  | .pipe left right, buf => nulterminate right (nulterminate left buf)
  | .list left right, buf => nulterminate right (nulterminate left buf)
  | .back cmd, buf => nulterminate cmd buf

/-- The command, and the line in which its words end. -/
def parsecmd (t : Text) : ShellM (Cmd × Mem) := do
  setPos 0
  let cmd ← parseline t t.fuel
  let _ ← peek t []
  let s ← getPos
  assert (s = t.es) .leftovers
  pure (cmd, nulterminate cmd t.buf)

/-- The line with these characters. -/
def Text.ofList (line : CString) : Text where
  buf := Mem.ofList line.1
  es := line.1.length
  nonzero s hs hzero := by
    have hmem := List.getElem_mem hs
    rw [Mem.ofList, List.getD_eq_getElem _ _ hs] at hzero
    rw [hzero] at hmem
    exact line.2 hmem
  ends := by simp [Mem.ofList]

/-! ### Commands with their words -/

/-- A command whose words are strings. -/
inductive Tree
  | exec (argv : List (List UInt8))
  | redir (tree : Tree) (file : List UInt8) (mode fd whence : ℕ)
  | pipe (left right : Tree)
  | list (left right : Tree)
  | back (tree : Tree)
  deriving DecidableEq

/-- The string that starts at `q`, in a line of `n` characters. -/
def stringAt (buf : Mem) (n q : ℕ) : List UInt8 := cstr (buf.slice q (n + 1 - q))

/-- The command as `runcmd` sees it: the words are the strings that their offsets point to. -/
def Cmd.tree (buf : Mem) (n : ℕ) : Cmd → Tree
  | .exec argv => .exec (argv.map fun word => stringAt buf n word.1)
  | .redir cmd file _ mode fd whence => .redir (cmd.tree buf n) (stringAt buf n file) mode fd whence
  | .pipe left right => .pipe (left.tree buf n) (right.tree buf n)
  | .list left right => .list (left.tree buf n) (right.tree buf n)
  | .back cmd => .back (cmd.tree buf n)

/-- What the shell makes of a line. -/
def parse (line : CString) : Except Stop Tree :=
  (parsecmd (Text.ofList line) 0).map fun r => r.1.1.tree r.1.2 line.1.length

end Shell

end Oslab
