/-
# `xargs`

`strtok` splits a string in place and remembers where it stopped. `xargs` uses it for
lines and, between two lines, for the words of one. A pointer into the buffer is an
offset; the input is shorter than the buffer, so one read gets all of it.
-/
import Oslab.Lib.Fields
import Oslab.Fs

namespace Oslab

open Lib Lib.Prog

namespace Xargs

abbrev MAXARG : ℕ := 31
abbrev SBUFSIZE : ℕ := 4096

abbrev SPACE : UInt8 := 32
abbrev TAB : UInt8 := 9

/-- An entry of `new_argv`: one of the arguments of `xargs`, or a pointer into the buffer. -/
inductive Arg
  | given (arg : CString)
  | ptr (p : ℕ)

/-- Why `xargs` stops early: it exits, with the vectors passed to `exec` so far, or a loop does
not end. -/
inductive Stop
  | exit (execs : List (List (List UInt8)))
  | hang

/-- The buffer, the `lasts` of `strtok`, `new_argv`, and the vectors passed to `exec`. -/
structure State where
  mem : Mem
  lasts : Option ℕ
  new_argv : ℕ → Option Arg
  execs : List (List (List UInt8))

abbrev XargsM := Prog Stop State

/-- More than any string in the buffer is long. -/
abbrev FUEL : ℕ := SBUFSIZE + 1

def exit {α : Type} : XargsM α := do
  let execs ← read State.execs
  abort (.exit execs)

def stop {α : Type} : Option α → XargsM α
  | some a => pure a
  | none => abort .hang

/-! ### `strtok` -/

/-- From `s` on, the first character that is not in `delim`. -/
def skipDelim (mem : Mem) (delim : List UInt8) : ℕ → ℕ → Option ℕ
  | 0, _ => none
  | fuel + 1, s => if mem s ∈ delim then skipDelim mem delim fuel (s + 1) else some s

/-- From `s` on, the first character that is in `delim` or is zero. -/
def findDelim (mem : Mem) (delim : List UInt8) : ℕ → ℕ → Option ℕ
  | 0, _ => none
  | fuel + 1, s => if mem s ∈ delim ∨ mem s = 0 then some s else findDelim mem delim fuel (s + 1)

/-- The next token, from `s` on or from where the last one ended. -/
def strtok (s : Option ℕ) (delim : List UInt8) : XargsM (Option ℕ) := do
  let lasts ← read State.lasts
  match s <|> lasts with
  | none => pure none
  | some s =>
    let mem ← read State.mem
    let tok ← stop (skipDelim mem delim FUEL s)
    if mem tok = 0 then
      update fun st => { st with lasts := none }
      pure none
    else
      let e ← stop (findDelim mem delim FUEL (tok + 1))
      if mem e = 0 then update fun st => { st with lasts := none }
      else update fun st => { st with mem := Function.update mem e 0, lasts := some (e + 1) }
      pure (some tok)

/-- The address of the zero that ends the string at `p`. -/
def strend (p : ℕ) : XargsM ℕ := do
  let mem ← read State.mem
  stop (findDelim mem [] FUEL p)

/-! ### `xargs` -/

/-- The string that `exec` finds at an entry. -/
def content (mem : Mem) : Arg → List UInt8
  | .given arg => arg.1
  | .ptr p => cstr (mem.slice p FUEL)

/-- The entries up to the first null one, of at most `fuel`. -/
def entries (argv : ℕ → Option Arg) : ℕ → ℕ → List Arg
  | 0, _ => []
  | fuel + 1, i =>
    match argv i with
    | none => []
    | some a => a :: entries argv fuel (i + 1)

def setArg (i : ℕ) (a : Option Arg) : XargsM Unit :=
  update fun st => { st with new_argv := Function.update st.new_argv i a }

/-- The loop of `parse_arg`: the number of entries after it. -/
def parseLoop : ℕ → ℕ → ℕ → XargsM ℕ
  | 0, _, _ => abort .hang
  | fuel + 1, args, argc => do
    setArg argc (some (.ptr args))
    let argc := argc + 1
    if MAXARG < argc then exit
    match ← strtok none [SPACE, TAB] with
    | some args => parseLoop fuel args argc
    | none => pure argc

def parse_arg (args argc : ℕ) : XargsM Unit := do
  let mem ← read State.mem
  if mem args = 0 then pure ()
  else
    let _ ← strtok (some args) [SPACE, TAB]
    let argc ← parseLoop FUEL args argc
    setArg argc none

/-- The child passes the vector to `exec`; the parent waits for it. -/
def exec_another : XargsM Unit := update fun st =>
  { st with execs := st.execs ++ [(entries st.new_argv (MAXARG + 1) 0).map (content st.mem)] }

/-- `next_line`, which is null behind the end of the buffer's string. -/
def nextLine (this_line ed : ℕ) : XargsM (Option ℕ) := do
  let e ← strend this_line
  pure (if ed < e + 1 then none else some (e + 1))

/-- The loop over the lines, from `this_line` on. -/
def linesLoop (argc ed : ℕ) : ℕ → ℕ → Option ℕ → XargsM Unit
  | 0, _, _ => abort .hang
  | fuel + 1, this_line, next_line => do
    parse_arg this_line argc
    exec_another
    match ← strtok next_line [NEWLINE] with
    | none => pure ()
    | some this_line =>
      let next_line ← nextLine this_line ed
      linesLoop argc ed fuel this_line next_line

def exec_by_args (args argc : ℕ) : XargsM Unit := do
  let ed ← strend args
  match ← strtok (some args) [NEWLINE] with
  | none => pure ()
  | some this_line =>
    let next_line ← nextLine this_line ed
    linesLoop argc ed FUEL this_line next_line

/-- `main` with the arguments after the program's name, on an input that one read delivers. -/
def main (args : List CString) (input : List UInt8) : XargsM Unit := do
  if args = [] then exit
  update fun st => { st with new_argv := fun i => (args[i]?).map .given }
  update fun st => { st with mem := st.mem.splice 0 input }
  exec_by_args 0 args.length

/-- The vectors that `xargs` passes to `exec`. All its variables are zero at first. -/
def execs (args : List CString) (input : List UInt8) : Option (List (List (List UInt8))) :=
  match main args input ⟨fun _ => 0, none, fun _ => none, []⟩ with
  | .ok (_, st) => some st.execs
  | .error (.exit execs) => some execs
  | .error .hang => none

end Xargs

end Oslab
