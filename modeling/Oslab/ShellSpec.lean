/-
# What the shell accepts

The parser accepts exactly the lines whose tokens the grammar derives, and gives the
tree of the derivation; so a line has one meaning at most, and what is printed from a
tree is parsed to it again. On any other line the parser panics, and it never loops.
-/
import Mathlib.Data.List.TakeWhile
import Oslab.Shell

namespace Oslab

open Lib Lib.Prog

namespace Shell

/-! ### Tokens -/

inductive Token
  | sym (c : UInt8)
  | append
  | word (w : List UInt8)
  deriving DecidableEq

/-- One more character of a word. -/
def glue (c : UInt8) : List Token → List Token
  | .word w :: ts => .word (c :: w) :: ts
  | ts => .word [c] :: ts

/-- The tokens of a line. -/
def lex : List UInt8 → List Token
  | [] => []
  | c :: cs =>
    if c ∈ whitespace then lex cs
    else if c = GREATER then
      -- two of them are one token
      match cs with
      | [] => [.sym c]
      | d :: cs' => if d = GREATER then .append :: lex cs' else .sym c :: lex (d :: cs')
    else if c ∈ symbols then .sym c :: lex cs
    else if (cs.head?.any isWord) = true then glue c (lex cs)
    else .word [c] :: lex cs

/-- Whether the token begins with one of the symbols. -/
def Token.begins (cs : List UInt8) : Token → Bool
  | .sym c => c ∈ cs
  | .append => GREATER ∈ cs
  | .word _ => false

section Lex

variable {c : UInt8} {cs : List UInt8}

theorem isWord_iff (hc : c ≠ 0) : isWord c = true ↔ c ∉ whitespace ∧ c ∉ symbols := by
  simp [isWord, strchr, hc]

theorem lex_space (h : c ∈ whitespace) : lex (c :: cs) = lex cs := by
  rw [lex.eq_def]
  simp only [if_pos h]

theorem lex_dropWhile (cs : List UInt8) : lex (cs.dropWhile (· ∈ whitespace)) = lex cs := by
  induction cs with
  | nil => rfl
  | cons c cs ih =>
    by_cases hc : c ∈ whitespace
    · rw [List.dropWhile_cons_of_pos (by simpa using hc), ih, lex_space hc]
    · rw [List.dropWhile_cons_of_neg (by simpa using hc)]

/-- Before the end of the line `strchr` finds what is in the string. -/
theorem dropWhile_strchr {str : List UInt8} (h0 : (0 : UInt8) ∉ cs) :
    cs.dropWhile (strchr str) = cs.dropWhile (· ∈ str) := by
  induction cs with
  | nil => rfl
  | cons c cs ih =>
    have hc : c ≠ 0 := fun heq => h0 (heq ▸ List.mem_cons_self ..)
    have hsame : strchr str c = decide (c ∈ str) := by simp [strchr, hc]
    rw [List.dropWhile_cons, List.dropWhile_cons, hsame,
      ih fun hmem => h0 (List.mem_cons_of_mem _ hmem)]

theorem lex_symbol (hne : c ≠ GREATER) (h : c ∈ symbols) : lex (c :: cs) = .sym c :: lex cs := by
  have hspace : c ∉ whitespace := by
    rintro hmem
    revert h hmem
    simp only [List.mem_cons, List.not_mem_nil, or_false]
    rintro (rfl | rfl | rfl | rfl | rfl | rfl | rfl) <;> decide
  rw [lex.eq_def]
  simp only [if_neg hspace, if_neg hne, if_pos h]

theorem lex_append : lex (GREATER :: GREATER :: cs) = .append :: lex cs := by
  rw [lex.eq_def]
  rfl

theorem lex_greater (h : cs.head? ≠ some GREATER) : lex (GREATER :: cs) = .sym GREATER :: lex cs := by
  rw [lex.eq_def]
  cases cs with
  | nil => rfl
  | cons d cs =>
    have hd : d ≠ GREATER := by simpa using h
    simp only [if_neg hd]
    rfl

/-- A word is read up to its end, by induction on what follows. -/
theorem lex_word (hc : c ≠ 0) (h0 : (0 : UInt8) ∉ cs) (h : isWord c = true) :
    lex (c :: cs) = .word (c :: cs.takeWhile isWord) :: lex (cs.dropWhile isWord) := by
  induction cs generalizing c with
  | nil =>
    obtain ⟨hspace, hsym⟩ := (isWord_iff hc).mp h
    have hne : c ≠ GREATER := by
      rintro rfl
      exact hsym (by decide)
    rw [lex.eq_def]
    simp only [if_neg hspace, if_neg hne, if_neg hsym]
    rfl
  | cons d cs ih =>
    obtain ⟨hspace, hsym⟩ := (isWord_iff hc).mp h
    have hne : c ≠ GREATER := by
      rintro rfl
      exact hsym (by decide)
    have hd : d ≠ 0 := fun heq => h0 (heq ▸ List.mem_cons_self ..)
    rw [lex.eq_def]
    simp only [if_neg hspace, if_neg hne, if_neg hsym, List.head?_cons, Option.any_some]
    -- the word goes on as long as the next character does
    by_cases hword : isWord d = true
    · rw [List.takeWhile_cons_of_pos hword, List.dropWhile_cons_of_pos hword,
        ih hd (fun hmem => h0 (List.mem_cons_of_mem _ hmem)) hword]
      simp only [hword, if_true, glue]
    · rw [List.takeWhile_cons_of_neg hword, List.dropWhile_cons_of_neg hword]
      simp only [hword, Bool.false_eq_true, if_false]

end Lex

/-! ### The line from a position on -/

namespace Text

variable {t : Text} {s : ℕ} {p : UInt8 → Bool}

/-- What is left of the line. -/
def rest (t : Text) (s : ℕ) : List UInt8 := t.buf.slice s (t.es - s)

/-- The tokens that are left. -/
def toks (t : Text) (s : ℕ) : List Token := lex (t.rest s)

theorem rest_cons (h : s < t.es) : t.rest s = t.buf s :: t.rest (s + 1) := by
  rw [rest, rest, show t.es - s = 1 + (t.es - (s + 1)) by omega, Mem.slice_add]
  rfl

theorem rest_nil (h : t.es ≤ s) : t.rest s = [] := by
  rw [rest, Nat.sub_eq_zero_of_le h]
  rfl

theorem zero_rest (t : Text) (s : ℕ) : (0 : UInt8) ∉ t.rest s := by
  intro hmem
  rw [rest, Mem.slice, List.mem_map] at hmem
  obtain ⟨k, hk, hzero⟩ := hmem
  rw [List.mem_range] at hk
  exact t.nonzero (s + k) (by omega) hzero

/-- A scan stops at the first character that does not meet the condition. -/
theorem scanLoop_spec (n : ℕ) (hn : n = t.es - s) (hs : s ≤ t.es) :
    s ≤ scanLoop t p n s ∧ scanLoop t p n s ≤ t.es ∧
      t.rest (scanLoop t p n s) = (t.rest s).dropWhile p ∧
      t.buf.slice s (scanLoop t p n s - s) = (t.rest s).takeWhile p := by
  induction n generalizing s with
  | zero =>
    have hnil := rest_nil (t := t) (s := s) (by omega)
    simp [scanLoop, hs, hnil, Mem.slice]
  | succ n ih =>
    have hcons := rest_cons (t := t) (s := s) (by omega)
    rw [scanLoop]
    by_cases hp : p (t.buf s) = true
    · rw [if_pos hp, hcons, List.dropWhile_cons_of_pos hp, List.takeWhile_cons_of_pos hp]
      obtain ⟨hle, hes, hrest, hslice⟩ := ih (s := s + 1) (by omega) (by omega)
      refine ⟨by omega, hes, hrest, ?_⟩
      rw [← hslice, show scanLoop t p n (s + 1) - s = 1 + (scanLoop t p n (s + 1) - (s + 1)) by omega,
        Mem.slice_add]
      rfl
    · rw [if_neg hp, hcons, List.dropWhile_cons_of_neg hp, List.takeWhile_cons_of_neg hp]
      simp [hs, Mem.slice]

theorem scan_spec (p : UInt8 → Bool) (hs : s ≤ t.es) : s ≤ scan t p s ∧ scan t p s ≤ t.es ∧
    t.rest (scan t p s) = (t.rest s).dropWhile p ∧
    t.buf.slice s (scan t p s - s) = (t.rest s).takeWhile p :=
  scanLoop_spec _ rfl hs

theorem lt_of_buf (hs : s ≤ t.es) (h : t.buf s ≠ 0) : s < t.es := by
  rcases Nat.lt_or_eq_of_le hs with hlt | rfl
  · exact hlt
  · exact (h t.ends).elim

/-- Spaces are skipped, and no token with them. -/
theorem toks_skip (hs : s ≤ t.es) : t.toks (scan t (strchr whitespace) s) = t.toks s := by
  obtain ⟨-, -, hrest, -⟩ := scan_spec (strchr whitespace) hs
  rw [toks, toks, hrest, dropWhile_strchr (t.zero_rest s), lex_dropWhile]

/-- Behind the spaces is the end of the line, or a character that is no space. -/
theorem skip_head (hs : s ≤ t.es) {q : ℕ} (hq : q = scan t (strchr whitespace) s) :
    q ≤ t.es ∧ (q < t.es → t.buf q ∉ whitespace) := by
  obtain ⟨-, hle, hrest, -⟩ := scan_spec (strchr whitespace) hs
  rw [← hq] at hle hrest
  refine ⟨hle, fun hlt hmem => ?_⟩
  -- the scan would have gone on over one more space
  rw [rest_cons hlt] at hrest
  have hhead := List.head?_dropWhile_not (strchr whitespace) (t.rest s)
  rw [← hrest] at hhead
  simp [strchr, hmem] at hhead

end Text

/-! ### One token -/

/-- The offsets of a word. -/
structure Text.Spot (t : Text) (q eq : ℕ) (w : List UInt8) : Prop where
  length : q + w.length = eq
  slice : t.buf.slice q w.length = w
  word : ∀ c ∈ w, isWord c = true
  le : eq ≤ t.es
  stop : isWord (t.buf eq) = false

/-- What `gettoken` returns, from the tokens that are left and up to position `s'`. -/
inductive Got (t : Text) (s' : ℕ) : List Token → UInt8 × ℕ × ℕ → Prop
  | none {q eq : ℕ} : t.toks s' = [] → Got t s' [] (0, q, eq)
  | sym {c : UInt8} {q eq : ℕ} : c ∈ symbols → Got t s' (.sym c :: t.toks s') (c, q, eq)
  | append {q eq : ℕ} : Got t s' (.append :: t.toks s') (APPEND, q, eq)
  | word {w : List UInt8} {q eq : ℕ} : t.Spot q eq w → Got t s' (.word w :: t.toks s') (WORD, q, eq)

/-- What stands at a position that is no space, and the tokens from there on. -/
inductive Text.Head (t : Text) (q : ℕ) : List Token → Prop
  | none : q = t.es → t.Head q []
  | sym : q < t.es → t.buf q ∈ symbols → t.buf q ≠ GREATER →
      t.Head q (.sym (t.buf q) :: t.toks (q + 1))
  | greater : q < t.es → t.buf q = GREATER → t.buf (q + 1) ≠ GREATER →
      t.Head q (.sym GREATER :: t.toks (q + 1))
  | append : q + 1 < t.es → t.buf q = GREATER → t.buf (q + 1) = GREATER →
      t.Head q (.append :: t.toks (q + 2))
  | word {w : List UInt8} : q < t.es → isWord (t.buf q) = true →
      t.Spot q (scan t isWord q) w → t.Head q (.word w :: t.toks (scan t isWord q))

section OneToken

variable {t : Text} {s q : ℕ} {fail : Stop → Prop} {cs : List UInt8}

/-- The word at a position, up to where the scan stops. -/
theorem Text.spot (hlt : q < t.es) (hword : isWord (t.buf q) = true) :
    t.Spot q (scan t isWord q) (t.buf q :: (t.rest (q + 1)).takeWhile isWord) ∧
      t.toks q = .word (t.buf q :: (t.rest (q + 1)).takeWhile isWord) :: t.toks (scan t isWord q) := by
  obtain ⟨hle, hes, hrest, hslice⟩ := Text.scan_spec (t := t) isWord hlt.le
  have htake := hslice
  rw [rest_cons hlt, List.takeWhile_cons_of_pos hword] at htake
  have hlen := congrArg List.length htake
  rw [Mem.length_slice] at hlen
  refine ⟨⟨by omega, ?_, ?_, hes, ?_⟩, ?_⟩
  · rw [← hlen]
    exact htake
  · intro c hc
    rw [← List.takeWhile_cons_of_pos hword, ← rest_cons hlt] at hc
    exact List.mem_takeWhile_imp hc
  -- the scan stops at a character that is in no word, or at the zero of the line
  · rcases Nat.lt_or_eq_of_le hes with hlt' | heq
    · have hhead := List.head?_dropWhile_not isWord (t.rest q)
      rw [← hrest, rest_cons hlt'] at hhead
      simpa using hhead
    · rw [heq, t.ends]
      decide
  · rw [toks, rest_cons hlt, lex_word (t.nonzero q hlt) (t.zero_rest _) hword, toks, hrest,
      rest_cons hlt, List.dropWhile_cons_of_pos hword]

/-- Every position that is no space is of one kind. -/
theorem Text.head (hle : q ≤ t.es) (hspace : q < t.es → t.buf q ∉ whitespace) :
    t.Head q (t.toks q) := by
  rcases Nat.lt_or_eq_of_le hle with hlt | heq
  · have hne := t.nonzero q hlt
    by_cases hsym : t.buf q ∈ symbols
    · by_cases hgreater : t.buf q = GREATER
      -- the second `>` is no zero, so it is in the line
      · by_cases hnext : t.buf (q + 1) = GREATER
        · have hlt' : q + 1 < t.es := Text.lt_of_buf hlt (by rw [hnext]; decide)
          have htoks : t.toks q = .append :: t.toks (q + 2) := by
            rw [toks, rest_cons hlt, rest_cons hlt', hgreater, hnext, lex_append]
            rfl
          rw [htoks]
          exact .append hlt' hgreater hnext
        · have htoks : t.toks q = .sym GREATER :: t.toks (q + 1) := by
            rw [toks, rest_cons hlt, hgreater, lex_greater]
            · rfl
            · by_cases hlt' : q + 1 < t.es
              · rw [rest_cons hlt']
                simpa using hnext
              · rw [rest_nil (by omega)]
                simp
          rw [htoks]
          exact .greater hlt hgreater hnext
      · have htoks : t.toks q = .sym (t.buf q) :: t.toks (q + 1) := by
          rw [toks, rest_cons hlt, lex_symbol hgreater hsym]
          rfl
        rw [htoks]
        exact .sym hlt hsym hgreater
    · have hword := (isWord_iff hne).mpr ⟨hspace hlt, hsym⟩
      obtain ⟨hspot, htoks⟩ := Text.spot hlt hword
      rw [htoks]
      exact .word hlt hword hspot
  · rw [toks, rest_nil heq.ge]
    exact .none heq

theorem peek_spec (hs : s ≤ t.es) (hcs : cs ⊆ symbols) :
    wp (peek t cs) (fun b s' => s' ≤ t.es ∧ t.toks s' = t.toks s ∧
      (b = (t.toks s).head?.any (·.begins cs)) ∧ (s' = t.es ↔ t.toks s = [])) fail s := by
  rw [peek, wp_bind, getPos, wp_read, wp_bind, setPos, wp_update, wp_pure]
  obtain ⟨q, hq⟩ : ∃ q, q = scan t (strchr whitespace) s := ⟨_, rfl⟩
  obtain ⟨hle, hspace⟩ := Text.skip_head hs hq
  have htoks : t.toks q = t.toks s := by rw [hq, Text.toks_skip hs]
  simp only [id, ← hq]
  rw [← htoks]
  have hhead := Text.head hle hspace
  refine ⟨hle, rfl, ?_, ?_⟩
  · generalize hts : t.toks q = ts at hhead
    cases hhead with
    | none heq => simp [heq, t.ends]
    | sym hlt => simp [t.nonzero q hlt, strchr, Token.begins]
    | greater hlt hc | append hlt hc =>
      have hzero : GREATER ≠ 0 := by decide
      simp [hc, hzero, strchr, Token.begins]
    | word hlt hword =>
      have hnot : t.buf q ∉ cs := fun hmem =>
        ((isWord_iff (t.nonzero q hlt)).mp hword).2 (hcs hmem)
      simp [t.nonzero q hlt, strchr, Token.begins, hnot]
  · generalize hts : t.toks q = ts at hhead
    cases hhead with
    | none heq => simp [heq]
    | sym hlt | greater hlt | word hlt => simp [hlt.ne]
    | append hlt => simp [(Nat.lt_of_succ_lt hlt).ne]

theorem gettoken_spec (hs : s ≤ t.es) :
    wp (gettoken t) (fun r s' => s' ≤ t.es ∧ Got t s' (t.toks s) r) fail s := by
  rw [gettoken, wp_bind, getPos, wp_read]
  obtain ⟨q, hq⟩ : ∃ q, q = scan t (strchr whitespace) s := ⟨_, rfl⟩
  obtain ⟨hle, hspace⟩ := Text.skip_head hs hq
  have htoks : t.toks q = t.toks s := by rw [hq, Text.toks_skip hs]
  simp only [id, ← hq]
  rw [← htoks]
  have hhead := Text.head hle hspace
  -- the spaces behind the token are skipped too
  have hend (eq : ℕ) (heq : eq ≤ t.es) : scan t (strchr whitespace) eq ≤ t.es ∧
      t.toks (scan t (strchr whitespace) eq) = t.toks eq :=
    ⟨(Text.scan_spec _ heq).2.1, Text.toks_skip heq⟩
  generalize hts : t.toks q = ts at hhead
  cases hhead with
  | none heq =>
    have hzero : t.buf q = 0 := by rw [heq, t.ends]
    obtain ⟨hle', hsame⟩ := hend q hle
    simp only [hzero, if_true, setPos, wp_bind, wp_update, wp_pure]
    exact ⟨hle', .none (hsame.trans hts)⟩
  | sym hlt hsym hne =>
    obtain ⟨hle', hsame⟩ := hend (q + 1) hlt
    have hmem : t.buf q ∈ [BAR, LPAREN, RPAREN, SEMI, AMP, LESS] := by
      simp only [List.mem_cons, List.not_mem_nil, or_false] at hsym ⊢
      tauto
    simp only [t.nonzero q hlt, if_false, hmem, if_true, setPos, wp_bind, wp_update, wp_pure]
    refine ⟨hle', ?_⟩
    rw [← hsame]
    exact .sym hsym
  | greater hlt hc hnext =>
    obtain ⟨hle', hsame⟩ := hend (q + 1) hlt
    have hzero : GREATER ≠ 0 := by decide
    have hmem : GREATER ∉ [BAR, LPAREN, RPAREN, SEMI, AMP, LESS] := by decide
    simp only [hc, hzero, hmem, hnext, if_false, if_true, setPos, wp_bind, wp_update, wp_pure]
    refine ⟨hle', ?_⟩
    rw [← hsame]
    exact .sym (by decide)
  | append hlt hc hnext =>
    obtain ⟨hle', hsame⟩ := hend (q + 2) hlt
    have hzero : GREATER ≠ 0 := by decide
    have hmem : GREATER ∉ [BAR, LPAREN, RPAREN, SEMI, AMP, LESS] := by decide
    simp only [hc, hzero, hmem, hnext, if_false, if_true, setPos, wp_bind, wp_update, wp_pure]
    refine ⟨hle', ?_⟩
    rw [← hsame]
    exact .append
  | word hlt hword hspot =>
    obtain ⟨hle', hsame⟩ := hend _ hspot.le
    have hsym := ((isWord_iff (t.nonzero q hlt)).mp hword).2
    have hgreater : t.buf q ≠ GREATER := by
      intro heq
      exact hsym (by rw [heq]; decide)
    have hmem : t.buf q ∉ [BAR, LPAREN, RPAREN, SEMI, AMP, LESS] := by
      intro hmem
      simp only [List.mem_cons, List.not_mem_nil, or_false] at hsym hmem
      tauto
    simp only [t.nonzero q hlt, hmem, hgreater, if_false, setPos, wp_bind, wp_update, wp_pure]
    refine ⟨hle', ?_⟩
    rw [← hsame]
    exact .word hspot

end OneToken

/-! ### The grammar -/

inductive RedirKind
  | less
  | greater
  | append

def RedirKind.token : RedirKind → Token
  | .less => .sym LESS
  | .greater => .sym GREATER
  | .append => .append

/-- The redirection with a file, around a tree. -/
def RedirKind.around : RedirKind → Tree → List UInt8 → Tree
  | .less, c, w => .redir c w O_RDONLY 0 SEEK_SET
  | .greater, c, w => .redir c w (O_WRONLY ||| O_CREATE ||| O_TRUNC) 1 SEEK_SET
  | .append, c, w => .redir c w (O_WRONLY ||| O_CREATE) 1 SEEK_END

/-- One more argument for the program under the redirections. -/
def Tree.addArg : Tree → List UInt8 → Tree
  | .exec argv, w => .exec (argv ++ [w])
  | .redir c file mode fd whence, w => .redir (c.addArg w) file mode fd whence
  | c, _ => c

/-- What a simple command is made of: arguments and redirections in any order. -/
inductive Item
  | arg (w : List UInt8)
  | redir (k : RedirKind) (w : List UInt8)

def Item.tokens : Item → List Token
  | .arg w => [.word w]
  | .redir k w => [k.token, .word w]

def Item.put (c : Tree) : Item → Tree
  | .arg w => c.addArg w
  | .redir k w => k.around c w

def Item.isArg : Item → Bool
  | .arg _ => true
  | .redir _ _ => false

/-- The tokens of a list of items. -/
def tokensOf (items : List Item) : List Token := items.flatMap Item.tokens

/-- The tree with the items put in. -/
def Tree.with (c : Tree) (items : List Item) : Tree := items.foldl Item.put c

/-- The nonterminals. -/
inductive Nt
  | line
  | pipe
  | exec

/-- **The grammar of the shell**: a line is pipes, each perhaps in the background, with `;`
between them; a pipe is commands with `|` between them; a command is simple, or a line in
parentheses with redirections. -/
inductive Derives : Nt → List Token → Tree → Prop
  | simple (items : List Item) : items.countP Item.isArg < MAXARGS →
      Derives .exec (tokensOf items) ((Tree.exec []).with items)
  | block {ts : List Token} {c : Tree} (items : List Item) : Derives .line ts c →
      (∀ i ∈ items, i.isArg = false) →
      Derives .exec (.sym LPAREN :: ts ++ .sym RPAREN :: tokensOf items) (c.with items)
  | one {ts : List Token} {c : Tree} : Derives .exec ts c → Derives .pipe ts c
  | pipe {ts us : List Token} {c d : Tree} : Derives .exec ts c → Derives .pipe us d →
      Derives .pipe (ts ++ .sym BAR :: us) (.pipe c d)
  | last {ts : List Token} {c : Tree} (n : ℕ) : Derives .pipe ts c →
      Derives .line (ts ++ List.replicate n (.sym AMP)) (Tree.back^[n] c)
  | list {ts us : List Token} {c d : Tree} (n : ℕ) : Derives .pipe ts c → Derives .line us d →
      Derives .line (ts ++ List.replicate n (.sym AMP) ++ .sym SEMI :: us)
        (.list (Tree.back^[n] c) d)

/-- The words of a command stand in the line. -/
inductive Text.Shows (t : Text) : Cmd → Tree → Prop
  | exec {argv : List (ℕ × ℕ)} {ws : List (List UInt8)} :
      List.Forall₂ (fun word w => t.Spot word.1 word.2 w) argv ws → t.Shows (.exec argv) (.exec ws)
  | redir {cmd : Cmd} {c : Tree} {q eq : ℕ} {w : List UInt8} {mode fd whence : ℕ} :
      t.Shows cmd c → t.Spot q eq w →
      t.Shows (.redir cmd q eq mode fd whence) (.redir c w mode fd whence)
  | pipe {cmd cmd' : Cmd} {c c' : Tree} : t.Shows cmd c → t.Shows cmd' c' →
      t.Shows (.pipe cmd cmd') (.pipe c c')
  | list {cmd cmd' : Cmd} {c c' : Tree} : t.Shows cmd c → t.Shows cmd' c' →
      t.Shows (.list cmd cmd') (.list c c')
  | back {cmd : Cmd} {c : Tree} : t.Shows cmd c → t.Shows (.back cmd) (.back c)

section Trees

variable {t : Text} {cmd : Cmd} {c : Tree} {q eq : ℕ} {w : List UInt8}

theorem Text.Shows.addArg (h : t.Shows cmd c) (hw : t.Spot q eq w) :
    t.Shows (cmd.addArg q eq) (c.addArg w) := by
  induction h with
  | exec hargv => exact .exec (List.rel_append hargv (.cons hw .nil))
  | redir _ hfile ih => exact .redir ih hfile
  | pipe h h' => exact .pipe h h'
  | list h h' => exact .list h h'
  | back h => exact .back h

theorem Text.Shows.around {k : RedirKind} {tok : UInt8} (h : t.Shows cmd c) (hw : t.Spot q eq w)
    (hk : (k = .less ∧ tok = LESS) ∨ (k = .greater ∧ tok = GREATER) ∨ (k = .append ∧ tok = APPEND)) :
    t.Shows (redirOf cmd tok q eq) (k.around c w) := by
  rcases hk with ⟨rfl, rfl⟩ | ⟨rfl, rfl⟩ | ⟨rfl, rfl⟩ <;> exact .redir h hw

theorem Text.Shows.back_iterate (n : ℕ) (h : t.Shows cmd c) :
    t.Shows (Cmd.back^[n] cmd) (Tree.back^[n] c) := by
  induction n generalizing cmd c with
  | zero => exact h
  | succ n ih => exact ih (.back h)

end Trees

/-! ### What is accepted is derived -/

section Sound

variable {t : Text} {s : ℕ} {cmd : Cmd} {c : Tree}

theorem length_glue (c : UInt8) (ts : List Token) : (glue c ts).length ≤ ts.length + 1 := by
  cases ts with
  | nil => rfl
  | cons k ts =>
    cases k with
    | word w => simp [glue]
    | sym _ | append => rfl

theorem length_lex (cs : List UInt8) : (lex cs).length ≤ cs.length := by
  fun_induction lex cs with
  | case1 => rfl
  | case2 c cs _ ih => exact ih.trans (Nat.le_succ _)
  | case3 => simp
  | case4 _ _ ih | case5 _ _ _ _ ih =>
    simp only [List.length_cons] at ih ⊢
    omega
  | case6 c cs _ _ _ ih => simpa using ih
  | case7 c cs _ _ _ _ ih =>
    have := length_glue c (lex cs)
    simp only [List.length_cons]
    omega
  | case8 c cs _ _ _ _ ih => simpa using ih

theorem Text.length_toks (t : Text) (s : ℕ) : (t.toks s).length < t.fuel := by
  have hle := length_lex (t.rest s)
  have hlen : (t.rest s).length = t.es - s := Mem.length_slice
  rw [toks, fuel]
  omega

/-- From a position, the parser takes the tokens of items, and what it returns is the tree with
them. -/
def Text.Takes (t : Text) (s : ℕ) (c : Tree) (good : List Item → Prop) (cmd : Cmd) (s' : ℕ) : Prop :=
  s' ≤ t.es ∧ ∃ items, good items ∧ t.toks s = tokensOf items ++ t.toks s' ∧
    t.Shows cmd (c.with items)

theorem countP_redirs {items : List Item} (h : ∀ i ∈ items, i.isArg = false) :
    items.countP Item.isArg = 0 := by
  rw [List.countP_eq_zero]
  simpa using h

/-- The token after a successful look ahead for a redirection. -/
theorem Got.redir {ts : List Token} {tok : UInt8} {q eq : ℕ} (h : Got t s ts (tok, q, eq))
    (hb : ts.head?.any (·.begins [LESS, GREATER]) = true) :
    ∃ k : RedirKind, ts = k.token :: t.toks s ∧ ((k = .less ∧ tok = LESS) ∨
      (k = .greater ∧ tok = GREATER) ∨ (k = .append ∧ tok = APPEND)) := by
  cases h with
  | none => cases hb
  | sym _ =>
    simp only [List.head?_cons, Option.any_some, Token.begins, List.mem_cons, List.not_mem_nil,
      or_false, decide_eq_true_eq] at hb
    rcases hb with rfl | rfl
    · exact ⟨.less, rfl, .inl ⟨rfl, rfl⟩⟩
    · exact ⟨.greater, rfl, .inr (.inl ⟨rfl, rfl⟩)⟩
  | append => exact ⟨.append, rfl, .inr (.inr ⟨rfl, rfl⟩)⟩
  | word _ => cases hb

theorem Got.of_word {ts : List Token} {q eq : ℕ} (h : Got t s ts (WORD, q, eq)) :
    ∃ w, ts = .word w :: t.toks s ∧ t.Spot q eq w := by
  generalize hr : (WORD, q, eq) = r at h
  cases h with
  | none => cases hr
  | sym hsym =>
    cases hr
    exact absurd hsym (by decide)
  | append => cases hr
  | word hspot =>
    cases hr
    exact ⟨_, rfl, hspot⟩

theorem Got.of_zero {ts : List Token} {q eq : ℕ} (h : Got t s ts (0, q, eq)) :
    ts = [] ∧ t.toks s = [] := by
  generalize hr : ((0 : UInt8), q, eq) = r at h
  cases h with
  | none hnil => exact ⟨rfl, hnil⟩
  | sym hsym =>
    cases hr
    exact absurd hsym (by decide)
  | append | word => cases hr

/-- The token after a successful look ahead for one symbol. -/
theorem Got.of_begins {ts : List Token} {r : UInt8 × ℕ × ℕ} {b : UInt8} (h : Got t s ts r)
    (hne : b ≠ GREATER) (hb : ts.head?.any (·.begins [b]) = true) : ts = .sym b :: t.toks s := by
  cases h with
  | none => cases hb
  | sym _ =>
    have hc := by simpa [Token.begins] using hb
    rw [hc]
  | append =>
    have hc := by simpa [Token.begins] using hb
    exact (hne hc.symm).elim
  | word _ => cases hb

theorem parseredirs_sound (fuel : ℕ) (hs : s ≤ t.es) (hfuel : (t.toks s).length < fuel)
    (h : t.Shows cmd c) : wp (parseredirs t fuel cmd)
      (t.Takes s c (∀ i ∈ ·, i.isArg = false)) (· ≠ .hang) s := by
  induction fuel generalizing s cmd c with
  | zero => omega
  | succ fuel ih =>
    rw [parseredirs, wp_bind]
    refine (peek_spec hs (by decide)).imp ?_
    intro b s₁ hs₁
    obtain ⟨hle₁, htoks₁, hb, -⟩ := hs₁
    cases b with
    | false => exact ⟨hle₁, [], by simp, htoks₁.symm, h⟩
    | true =>
      simp only [if_true]
      rw [wp_bind]
      refine (gettoken_spec hle₁).imp ?_
      intro r s₂ hs₂
      obtain ⟨hle₂, hgot⟩ := hs₂
      obtain ⟨tok, q, eq⟩ := r
      rw [wp_bind]
      refine (gettoken_spec hle₂).imp ?_
      intro r' s₃ hs₃
      obtain ⟨hle₃, hgot'⟩ := hs₃
      obtain ⟨word, q', eq'⟩ := r'
      simp only
      rw [wp_bind, wp_assert]
      refine ⟨fun hword => ?_, fun _ => by decide⟩
      subst hword
      rw [htoks₁] at hgot
      -- two tokens are gone, so the fuel lasts for the redirections behind them
      obtain ⟨k, hts, hk⟩ := hgot.redir hb.symm
      obtain ⟨w, hts', hspot⟩ := hgot'.of_word
      rw [hts'] at hts
      rw [hts] at hfuel
      simp only [List.length_cons] at hfuel
      refine (ih hle₃ (by omega) (h.around hspot hk)).imp ?_
      rintro cmd' s' ⟨hle', items, hitems, htoks, hshows⟩
      refine ⟨hle', .redir k w :: items, ?_, ?_, hshows⟩
      · intro i hi
        rcases List.mem_cons.mp hi with rfl | hi
        · rfl
        · exact hitems i hi
      · rw [hts, htoks]
        rfl

/-- A loop over arguments, from the number of them that are there. -/
theorem parseargs_sound (fuel argc : ℕ) (hs : s ≤ t.es) (hfuel : (t.toks s).length < fuel)
    (hargc : argc < MAXARGS) (h : t.Shows cmd c) : wp (parseargs t fuel argc cmd)
      (t.Takes s c (argc + ·.countP Item.isArg < MAXARGS)) (· ≠ .hang) s := by
  induction fuel generalizing s argc cmd c with
  | zero => omega
  | succ fuel ih =>
    rw [parseargs, wp_bind]
    refine (peek_spec hs (by decide)).imp ?_
    intro b s₁ hs₁
    obtain ⟨hle₁, htoks₁, -, -⟩ := hs₁
    cases b with
    | true => exact ⟨hle₁, [], hargc, htoks₁.symm, h⟩
    | false =>
      simp only [Bool.false_eq_true, if_false]
      rw [wp_bind]
      refine (gettoken_spec hle₁).imp ?_
      intro r s₂ hs₂
      obtain ⟨hle₂, hgot⟩ := hs₂
      obtain ⟨tok, q, eq⟩ := r
      rw [htoks₁] at hgot
      by_cases htok : tok = 0
      · subst htok
        obtain ⟨hnil, hnil'⟩ := hgot.of_zero
        simp only [if_true, wp_pure]
        exact ⟨hle₂, [], hargc, by rw [hnil, hnil']; rfl, h⟩
      · simp only [if_neg htok]
        rw [wp_bind, wp_assert]
        refine ⟨fun hword => ?_, fun _ => by decide⟩
        rw [wp_bind, wp_assert]
        refine ⟨fun hroom => ?_, fun _ => by decide⟩
        subst hword
        obtain ⟨w, hts, hspot⟩ := hgot.of_word
        rw [hts, List.length_cons] at hfuel
        -- the redirections behind this argument, and then the other arguments
        rw [wp_bind]
        refine (parseredirs_sound _ hle₂ (t.length_toks s₂) (h.addArg hspot)).imp ?_
        rintro cmd₃ s₃ ⟨hle₃, items, hitems, htoks₃, hshows⟩
        have hlen : (t.toks s₃).length ≤ (t.toks s₂).length := by
          rw [htoks₃, List.length_append]
          omega
        refine (ih (argc + 1) hle₃ (by omega) hroom hshows).imp ?_
        rintro cmd' s' ⟨hle', items', hcount, htoks', hshows'⟩
        refine ⟨hle', .arg w :: items ++ items', ?_, ?_, ?_⟩
        · change argc + List.countP Item.isArg (.arg w :: (items ++ items')) < MAXARGS
          rw [List.countP_cons, List.countP_append, countP_redirs hitems]
          simp only [Item.isArg, if_true]
          omega
        · rw [hts, htoks₃, htoks']
          simp [tokensOf, Item.tokens]
        · rw [Tree.with, List.cons_append, List.foldl_cons, List.foldl_append]
          exact hshows'

/-- A parse that stops at a tree of the nonterminal, or panics. -/
def Text.Parses (t : Text) (nt : Nt) (s : ℕ) (cmd : Cmd) (s' : ℕ) : Prop :=
  s' ≤ t.es ∧ ∃ ts c, Derives nt ts c ∧ t.toks s = ts ++ t.toks s' ∧ t.Shows cmd c

section Line

variable {line : ShellM Cmd} {n : ℕ}

theorem parseexec_sound (hs : s ≤ t.es) (hn : (t.toks s).length ≤ n)
    (hline : ∀ s ≤ t.es, (t.toks s).length < n → wp line (t.Parses .line s) (· ≠ .hang) s) :
    wp (parseexec t line) (t.Parses .exec s) (· ≠ .hang) s := by
  rw [parseexec, wp_bind]
  refine (peek_spec hs (by decide)).imp ?_
  intro b s₁ hs₁
  obtain ⟨hle₁, htoks₁, hb, -⟩ := hs₁
  cases b with
  | true =>
    simp only [if_true]
    rw [parseblock, wp_bind]
    refine (peek_spec hle₁ (by decide)).imp ?_
    intro b s₂ hs₂
    obtain ⟨hle₂, htoks₂, -, -⟩ := hs₂
    rw [wp_bind, wp_assert]
    refine ⟨fun _ => ?_, fun _ => by decide⟩
    rw [wp_bind]
    refine (gettoken_spec hle₂).imp ?_
    intro _ s₃ hs₃
    obtain ⟨hle₃, hgot⟩ := hs₃
    rw [htoks₂, htoks₁] at hgot
    have hopen := hgot.of_begins (by decide) hb.symm
    rw [hopen, List.length_cons] at hn
    -- the line in the parentheses has a token less
    rw [wp_bind]
    refine (hline s₃ hle₃ (by omega)).imp ?_
    rintro cmd s₄ ⟨hle₄, ts, c, hderives, htoks₄, hshows⟩
    rw [wp_bind]
    refine (peek_spec hle₄ (by decide)).imp ?_
    intro b' s₅ hs₅
    obtain ⟨hle₅, htoks₅, hb', -⟩ := hs₅
    rw [wp_bind, wp_assert]
    refine ⟨fun hclosed => ?_, fun _ => by decide⟩
    rw [wp_bind]
    refine (gettoken_spec hle₅).imp ?_
    intro _ s₆ hs₆
    obtain ⟨hle₆, hgot'⟩ := hs₆
    rw [htoks₅] at hgot'
    have hclose := hgot'.of_begins (by decide) (hb'.symm.trans hclosed)
    refine (parseredirs_sound _ hle₆ (t.length_toks s₆) hshows).imp ?_
    rintro cmd' s' ⟨hle', items, hitems, htoks', hshows'⟩
    refine ⟨hle', _, _, .block items hderives hitems, ?_, hshows'⟩
    rw [hopen, htoks₄, hclose, htoks']
    simp
  | false =>
    simp only [Bool.false_eq_true, if_false]
    rw [wp_bind]
    refine (parseredirs_sound _ hle₁ (t.length_toks s₁) (.exec .nil)).imp ?_
    rintro cmd s₂ ⟨hle₂, items, hitems, htoks₂, hshows⟩
    refine (parseargs_sound _ 0 hle₂ (t.length_toks s₂) (by decide) hshows).imp ?_
    rintro cmd' s' ⟨hle', items', hcount, htoks', hshows'⟩
    refine ⟨hle', _, _, .simple (items ++ items') ?_, ?_, ?_⟩
    · rw [List.countP_append, countP_redirs hitems]
      exact hcount
    · rw [← htoks₁, htoks₂, htoks']
      simp [tokensOf]
    · rw [Tree.with, List.foldl_append]
      exact hshows'

theorem Text.Parses.length {nt : Nt} {s' : ℕ} (h : t.Parses nt s cmd s') :
    (t.toks s').length ≤ (t.toks s).length := by
  obtain ⟨-, ts, c, -, htoks, -⟩ := h
  rw [htoks, List.length_append]
  omega

theorem parsepipe_sound (fuel : ℕ) (hs : s ≤ t.es) (hfuel : (t.toks s).length < fuel)
    (hn : (t.toks s).length ≤ n)
    (hline : ∀ s ≤ t.es, (t.toks s).length < n → wp line (t.Parses .line s) (· ≠ .hang) s) :
    wp (parsepipe t line fuel) (t.Parses .pipe s) (· ≠ .hang) s := by
  induction fuel generalizing s with
  | zero => omega
  | succ fuel ih =>
    rw [parsepipe, wp_bind]
    refine (parseexec_sound hs hn hline).imp ?_
    intro cmd s₁ hparses
    have hlen := hparses.length
    obtain ⟨hle₁, ts, c, hderives, htoks₁, hshows⟩ := hparses
    rw [wp_bind]
    refine (peek_spec hle₁ (by decide)).imp ?_
    intro b s₂ hs₂
    obtain ⟨hle₂, htoks₂, hb, -⟩ := hs₂
    cases b with
    | false => exact ⟨hle₂, ts, c, .one hderives, by rw [htoks₁, htoks₂], hshows⟩
    | true =>
      simp only [if_true]
      rw [wp_bind]
      refine (gettoken_spec hle₂).imp ?_
      intro _ s₃ hs₃
      obtain ⟨hle₃, hgot⟩ := hs₃
      rw [htoks₂] at hgot
      have hbar := hgot.of_begins (by decide) hb.symm
      rw [hbar, List.length_cons] at hlen
      rw [wp_bind]
      refine (ih hle₃ (by omega) (by omega)).imp ?_
      rintro right s' ⟨hle', us, d, hderives', htoks', hshows'⟩
      refine ⟨hle', _, _, .pipe hderives hderives', ?_, .pipe hshows hshows'⟩
      rw [htoks₁, hbar, htoks']
      simp

theorem parseback_sound (fuel : ℕ) (hs : s ≤ t.es) (hfuel : (t.toks s).length < fuel)
    (h : t.Shows cmd c) : wp (parseback t fuel cmd)
      (fun cmd' s' => s' ≤ t.es ∧ ∃ n, t.toks s = List.replicate n (.sym AMP) ++ t.toks s' ∧
        t.Shows cmd' (Tree.back^[n] c)) (· ≠ .hang) s := by
  induction fuel generalizing s cmd c with
  | zero => omega
  | succ fuel ih =>
    rw [parseback, wp_bind]
    refine (peek_spec hs (by decide)).imp ?_
    intro b s₁ hs₁
    obtain ⟨hle₁, htoks₁, hb, -⟩ := hs₁
    cases b with
    | false => exact ⟨hle₁, 0, htoks₁.symm, h⟩
    | true =>
      simp only [if_true]
      rw [wp_bind]
      refine (gettoken_spec hle₁).imp ?_
      intro _ s₂ hs₂
      obtain ⟨hle₂, hgot⟩ := hs₂
      rw [htoks₁] at hgot
      have hamp := hgot.of_begins (by decide) hb.symm
      rw [hamp, List.length_cons] at hfuel
      refine (ih hle₂ (by omega) (.back h)).imp ?_
      rintro cmd' s' ⟨hle', n, htoks', hshows⟩
      refine ⟨hle', n + 1, ?_, hshows⟩
      rw [hamp, htoks', List.replicate_succ]
      rfl

end Line

/-- Every line is parsed, by induction on the depth of the calls: it is no more than the number
of tokens. -/
theorem parseline_sound (fuel : ℕ) (hs : s ≤ t.es) (hfuel : (t.toks s).length < fuel) :
    wp (parseline t fuel) (t.Parses .line s) (· ≠ .hang) s := by
  induction fuel generalizing s with
  | zero => omega
  | succ fuel ih =>
    rw [parseline, wp_bind]
    refine (parsepipe_sound _ hs (t.length_toks s) (by omega : (t.toks s).length ≤ fuel)
      (fun s hs hlt => ih hs hlt)).imp ?_
    intro cmd s₁ hparses
    have hlen := hparses.length
    obtain ⟨hle₁, ts, c, hderives, htoks₁, hshows⟩ := hparses
    rw [wp_bind]
    refine (parseback_sound _ hle₁ (t.length_toks s₁) hshows).imp ?_
    rintro cmd₂ s₂ ⟨hle₂, n, htoks₂, hshows₂⟩
    rw [wp_bind]
    refine (peek_spec hle₂ (by decide)).imp ?_
    intro b s₃ hs₃
    obtain ⟨hle₃, htoks₃, hb, -⟩ := hs₃
    cases b with
    | false =>
      refine ⟨hle₃, _, _, .last n hderives, ?_, hshows₂⟩
      rw [htoks₁, htoks₂, htoks₃, List.append_assoc]
    | true =>
      simp only [if_true]
      rw [wp_bind]
      refine (gettoken_spec hle₃).imp ?_
      intro _ s₄ hs₄
      obtain ⟨hle₄, hgot⟩ := hs₄
      rw [htoks₃] at hgot
      have hsemi := hgot.of_begins (by decide) hb.symm
      have hlen₂ := congrArg List.length htoks₂
      rw [List.length_append, hsemi, List.length_cons] at hlen₂
      rw [wp_bind]
      refine (ih hle₄ (by omega)).imp ?_
      rintro right s' ⟨hle', us, d, hderives', htoks', hshows'⟩
      refine ⟨hle', _, _, .list n hderives hderives', ?_, .list hshows₂ hshows'⟩
      rw [htoks₁, htoks₂, hsemi, htoks']
      simp

end Sound

/-! ### What is derived is accepted -/

section Complete

variable {t : Text} {s : ℕ} {cmd : Cmd} {c : Tree} {rest : List Token} {cs ds : List UInt8}
  {fail : Stop → Prop}

/-- What is left is nothing, or begins with one of the symbols. -/
def Stops (cs : List UInt8) (rest : List Token) : Prop := ∀ k ∈ rest.head?, ∃ c ∈ cs, k = .sym c

theorem Stops.not_begins (h : Stops cs rest) (hdisjoint : (cs.all fun c => c ∉ ds) = true) :
    rest.head?.any (·.begins ds) = false := by
  cases rest with
  | nil => rfl
  | cons k rest =>
    obtain ⟨c, hc, rfl⟩ := h k rfl
    simpa [Token.begins] using List.all_eq_true.mp hdisjoint c hc

theorem Stops.mono (h : Stops cs rest) (hsub : cs ⊆ ds) : Stops ds rest := fun k hk =>
  let ⟨c, hc, heq⟩ := h k hk
  ⟨c, hsub hc, heq⟩

theorem Stops.cons {b : UInt8} (hb : b ∈ cs) : Stops cs (.sym b :: rest) := fun k hk =>
  ⟨b, hb, by simpa using hk.symm⟩

theorem Stops.amps (n : ℕ) (h : Stops cs rest) (hamp : AMP ∈ cs) :
    Stops cs (List.replicate n (.sym AMP) ++ rest) := by
  cases n with
  | zero => exact h
  | succ n => exact .cons hamp

/-- The arguments and redirections of a command begin with no other symbol. -/
theorem tokensOf_not_begins {items : List Item} (hrest : rest.head?.any (·.begins ds) = false)
    (hless : LESS ∉ ds) (hgreater : GREATER ∉ ds) :
    (tokensOf items ++ rest).head?.any (·.begins ds) = false := by
  cases items with
  | nil => exact hrest
  | cons i items =>
    cases i with
    | arg w => rfl
    | redir k w => cases k <;> simpa [tokensOf, Item.tokens, RedirKind.token, Token.begins]

theorem length_tokensOf (items : List Item) : items.length ≤ (tokensOf items).length := by
  induction items with
  | nil => exact Nat.le_refl _
  | cons i items ih =>
    rw [tokensOf, List.flatMap_cons, List.length_append, List.length_cons]
    have hone : 1 ≤ i.tokens.length := by cases i <;> simp [Item.tokens]
    rw [tokensOf] at ih
    omega

/-- A loop over items has rounds enough. -/
theorem Text.items_lt {items : List Item} (h : t.toks s = tokensOf items ++ rest) :
    items.length < t.fuel := by
  refine lt_of_le_of_lt ?_ (t.length_toks s)
  rw [h, List.length_append]
  exact (length_tokensOf items).trans (Nat.le_add_right ..)

theorem Text.amps_lt {k : ℕ} (h : t.toks s = List.replicate k (.sym AMP) ++ rest) : k < t.fuel := by
  refine lt_of_le_of_lt ?_ (t.length_toks s)
  rw [h, List.length_append, List.length_replicate]
  exact Nat.le_add_right ..

/-- A look ahead, from what it looks at. -/
theorem peek_complete {ts : List Token} {b : Bool} (hs : s ≤ t.es) (hcs : cs ⊆ symbols)
    (hts : t.toks s = ts) (hb : ts.head?.any (·.begins cs) = b) :
    wp (peek t cs) (fun b' s' => b' = b ∧ s' ≤ t.es ∧ t.toks s' = ts) fail s := by
  refine (peek_spec hs hcs).imp ?_
  rintro b' s' ⟨hle, htoks, hb', -⟩
  exact ⟨by rw [hb', hts, hb], hle, htoks.trans hts⟩

theorem gettoken_complete {k : Token} (hs : s ≤ t.es) (hts : t.toks s = k :: rest) :
    wp (gettoken t) (fun r s' => s' ≤ t.es ∧ t.toks s' = rest ∧ Got t s' (k :: t.toks s') r) fail s := by
  refine (gettoken_spec hs).imp ?_
  rintro r s' ⟨hle, hgot⟩
  rw [hts] at hgot
  have hrest : t.toks s' = rest := by cases hgot <;> rfl
  rw [hrest]
  exact ⟨hle, rfl, hgot⟩

theorem Got.kind {ts : List Token} {r : UInt8 × ℕ × ℕ} {k : RedirKind}
    (h : Got t s (k.token :: ts) r) : (k = .less ∧ r.1 = LESS) ∨
      (k = .greater ∧ r.1 = GREATER) ∨ (k = .append ∧ r.1 = APPEND) := by
  cases k with
  | less =>
    cases h
    exact .inl ⟨rfl, rfl⟩
  | greater =>
    cases h
    exact .inr (.inl ⟨rfl, rfl⟩)
  | append =>
    cases h
    exact .inr (.inr ⟨rfl, rfl⟩)

/-- A run that takes exactly the tokens before `rest`. -/
def Text.Done (t : Text) (rest : List Token) (c : Tree) (cmd : Cmd) (s' : ℕ) : Prop :=
  s' ≤ t.es ∧ t.toks s' = rest ∧ t.Shows cmd c

theorem parseredirs_complete {items : List Item} (fuel : ℕ) (hs : s ≤ t.es)
    (hitems : ∀ i ∈ items, i.isArg = false) (hts : t.toks s = tokensOf items ++ rest)
    (hrest : rest.head?.any (·.begins [LESS, GREATER]) = false) (hfuel : items.length < fuel)
    (h : t.Shows cmd c) :
    wp (parseredirs t fuel cmd) (t.Done rest (c.with items)) fail s := by
  induction items generalizing s cmd c fuel with
  | nil =>
    obtain ⟨fuel, rfl⟩ := Nat.exists_eq_succ_of_ne_zero (Nat.ne_of_gt hfuel)
    rw [parseredirs, wp_bind]
    refine (peek_complete hs (by decide) hts hrest).imp ?_
    rintro b s₁ ⟨rfl, hle₁, htoks₁⟩
    exact ⟨hle₁, htoks₁, h⟩
  | cons i items ih =>
    obtain ⟨fuel, rfl⟩ := Nat.exists_eq_succ_of_ne_zero (Nat.ne_of_gt (Nat.zero_lt_of_lt hfuel))
    cases i with
    | arg w => cases hitems _ List.mem_cons_self
    | redir k w =>
      rw [parseredirs, wp_bind]
      have hbegins : (k.token :: .word w :: (tokensOf items ++ rest)).head?.any
          (·.begins [LESS, GREATER]) = true := by cases k <;> rfl
      refine (peek_complete hs (by decide) hts hbegins).imp ?_
      rintro b s₁ ⟨rfl, hle₁, htoks₁⟩
      simp only [if_true]
      rw [wp_bind]
      refine (gettoken_complete hle₁ htoks₁).imp ?_
      rintro ⟨tok, q, eq⟩ s₂ ⟨hle₂, htoks₂, hgot⟩
      rw [wp_bind]
      refine (gettoken_complete hle₂ htoks₂).imp ?_
      rintro r s₃ ⟨hle₃, htoks₃, hgot'⟩
      cases hgot' with
      | word hspot =>
        simp only
        rw [wp_bind, wp_assert]
        refine ⟨fun _ => ?_, fun hno => (hno rfl).elim⟩
        have hfuel' : items.length < fuel := by
          rw [List.length_cons] at hfuel
          omega
        exact ih fuel hle₃ (fun i hi => hitems i (List.mem_cons_of_mem _ hi)) htoks₃ hfuel'
          (h.around hspot hgot.kind)

/-- Items are redirections, and others that begin with an argument. -/
theorem exists_redirs (items : List Item) : ∃ redirs others, items = redirs ++ others ∧
    (∀ i ∈ redirs, i.isArg = false) ∧ ∀ i ∈ others.head?, i.isArg = true := by
  refine ⟨items.takeWhile fun i => !i.isArg, items.dropWhile fun i => !i.isArg,
    (List.takeWhile_append_dropWhile ..).symm, ?_, ?_⟩
  · intro i hi
    simpa using List.mem_takeWhile_imp hi
  · intro i hi
    have hnot := List.head?_dropWhile_not (fun i : Item => !i.isArg) items
    rw [Option.mem_def.mp hi] at hnot
    simpa using hnot

theorem others_not_begins {others : List Item} (hnext : ∀ i ∈ others.head?, i.isArg = true)
    (hrest : rest.head?.any (·.begins ds) = false) :
    (tokensOf others ++ rest).head?.any (·.begins ds) = false := by
  cases others with
  | nil => exact hrest
  | cons i others =>
    cases i with
    | arg w => rfl
    | redir k w => cases hnext _ rfl

/-- Arguments, each with the redirections behind it. -/
theorem parseargs_complete {items : List Item} (fuel argc : ℕ) (hs : s ≤ t.es)
    (hhead : ∀ i ∈ items.head?, i.isArg = true) (hts : t.toks s = tokensOf items ++ rest)
    (hrest : Stops [BAR, RPAREN, AMP, SEMI] rest) (hfuel : items.length < fuel)
    (hargc : argc + items.countP Item.isArg < MAXARGS) (h : t.Shows cmd c) :
    wp (parseargs t fuel argc cmd) (t.Done rest (c.with items)) fail s := by
  induction fuel generalizing s items argc cmd c with
  | zero => omega
  | succ fuel ih =>
    rw [parseargs, wp_bind]
    cases items with
    | nil =>
      cases rest with
      | nil =>
        refine (peek_complete (b := false) hs (by decide) hts rfl).imp ?_
        rintro b s₁ ⟨rfl, hle₁, htoks₁⟩
        simp only [Bool.false_eq_true, if_false]
        rw [wp_bind]
        refine (gettoken_spec hle₁).imp ?_
        rintro ⟨tok, q, eq⟩ s₂ ⟨hle₂, hgot⟩
        rw [htoks₁] at hgot
        cases hgot with
        | none hnil =>
          simp only [if_true, wp_pure]
          exact ⟨hle₂, hnil, h⟩
      | cons k rest =>
        obtain ⟨b, hb, rfl⟩ := hrest k rfl
        have hbegins : (Token.sym b :: rest).head?.any (·.begins [BAR, RPAREN, AMP, SEMI]) = true :=
          by simpa [Token.begins] using hb
        refine (peek_complete hs (by decide) hts hbegins).imp ?_
        rintro b s₁ ⟨rfl, hle₁, htoks₁⟩
        exact ⟨hle₁, htoks₁, h⟩
    | cons i items =>
      cases i with
      | redir k w => cases hhead _ rfl
      | arg w =>
        refine (peek_complete (b := false) hs (by decide) hts rfl).imp ?_
        rintro b s₁ ⟨rfl, hle₁, htoks₁⟩
        simp only [Bool.false_eq_true, if_false]
        rw [wp_bind]
        refine (gettoken_complete hle₁ htoks₁).imp ?_
        rintro r s₂ ⟨hle₂, htoks₂, hgot⟩
        cases hgot with
        | word hspot =>
          have hcount : argc + 1 + items.countP Item.isArg < MAXARGS := by
            rw [List.countP_cons] at hargc
            simp only [Item.isArg, if_true] at hargc
            omega
          have hword : WORD ≠ 0 := by decide
          simp only [hword, if_false]
          rw [wp_bind, wp_assert]
          refine ⟨fun _ => ?_, fun hno => (hno rfl).elim⟩
          rw [wp_bind, wp_assert]
          refine ⟨fun _ => ?_, fun hno => (hno (by omega)).elim⟩
          -- The redirections up to the next argument.
          obtain ⟨redirs, others, hsplit, hnone, hnext⟩ := exists_redirs items
          have hredir : rest.head?.any (·.begins [LESS, GREATER]) = false :=
            hrest.not_begins (by decide)
          have hbegins := others_not_begins hnext hredir
          have htoks : t.toks s₂ = tokensOf redirs ++ (tokensOf others ++ rest) := by
            rw [htoks₂]
            change tokensOf items ++ rest = _
            rw [hsplit, tokensOf, List.flatMap_append, List.append_assoc]
            rfl
          rw [wp_bind]
          refine (parseredirs_complete _ hle₂ hnone htoks hbegins (Text.items_lt htoks)
            (h.addArg hspot)).imp ?_
          rintro cmd₃ s₃ ⟨hle₃, htoks₃, hshows⟩
          rw [hsplit, List.countP_append] at hcount
          rw [hsplit, List.length_cons, List.length_append] at hfuel
          have hdone := ih (argc + 1) hle₃ hnext htoks₃ (by omega) (by omega) hshows
          rw [Tree.with, List.foldl_cons, hsplit, List.foldl_append]
          exact hdone

/-- What stands behind a phrase. -/
def Nt.follow : Nt → List UInt8
  | .exec => [BAR, RPAREN, AMP, SEMI]
  | .pipe => [RPAREN, AMP, SEMI]
  | .line => [RPAREN]

/-- The function for a nonterminal. -/
def Text.parser (t : Text) (n fuel : ℕ) : Nt → ShellM Cmd
  | .exec => parseexec t (parseline t n)
  | .pipe => parsepipe t (parseline t n) fuel
  | .line => parseline t (n + 1)

theorem parseback_complete (fuel n : ℕ) (hs : s ≤ t.es)
    (hts : t.toks s = List.replicate n (.sym AMP) ++ rest)
    (hrest : rest.head?.any (·.begins [AMP]) = false) (hfuel : n < fuel) (h : t.Shows cmd c) :
    wp (parseback t fuel cmd) (t.Done rest (Tree.back^[n] c)) fail s := by
  induction n generalizing s cmd c fuel with
  | zero =>
    obtain ⟨fuel, rfl⟩ := Nat.exists_eq_succ_of_ne_zero hfuel.ne'
    rw [parseback, wp_bind]
    refine (peek_complete hs (by decide) hts hrest).imp ?_
    rintro b s₁ ⟨rfl, hle₁, htoks₁⟩
    exact ⟨hle₁, htoks₁, h⟩
  | succ n ih =>
    obtain ⟨fuel, rfl⟩ := Nat.exists_eq_succ_of_ne_zero (Nat.zero_lt_of_lt hfuel).ne'
    rw [parseback, wp_bind]
    refine (peek_complete (b := true) hs (by decide) hts rfl).imp ?_
    rintro b s₁ ⟨rfl, hle₁, htoks₁⟩
    simp only [if_true]
    rw [wp_bind]
    refine (gettoken_complete hle₁ htoks₁).imp ?_
    rintro r s₂ ⟨hle₂, htoks₂, -⟩
    exact ih fuel hle₂ htoks₂ (Nat.lt_of_succ_lt_succ hfuel) (.back h)

/-- Every phrase is parsed to its tree, where something stands behind it that may. -/
theorem parser_complete {nt : Nt} {ts : List Token} (hderives : Derives nt ts c) (n fuel : ℕ)
    (hs : s ≤ t.es) (hts : t.toks s = ts ++ rest) (hrest : Stops nt.follow rest)
    (hn : (t.toks s).length ≤ n) (hfuel : (t.toks s).length < fuel) :
    wp (t.parser n fuel nt) (t.Done rest c) fail s := by
  induction hderives generalizing s rest n fuel with
  | simple items hcount =>
    -- the first redirections, and then the loop over the arguments
    rw [Text.parser, parseexec, wp_bind]
    have hopen : (tokensOf items ++ rest).head?.any (·.begins [LPAREN]) = false :=
      tokensOf_not_begins (hrest.not_begins (by decide)) (by decide) (by decide)
    refine (peek_complete hs (by decide) hts hopen).imp ?_
    rintro b s₁ ⟨rfl, hle₁, htoks₁⟩
    simp only [Bool.false_eq_true, if_false]
    obtain ⟨redirs, others, hsplit, hnone, hnext⟩ := exists_redirs items
    rw [hsplit, tokensOf, List.flatMap_append, List.append_assoc] at htoks₁
    have hredir : rest.head?.any (·.begins [LESS, GREATER]) = false := hrest.not_begins (by decide)
    have hbegins := others_not_begins hnext hredir
    rw [wp_bind]
    refine (parseredirs_complete _ hle₁ hnone htoks₁ hbegins (Text.items_lt htoks₁)
      (.exec .nil)).imp ?_
    rintro cmd₂ s₂ ⟨hle₂, htoks₂, hshows⟩
    rw [hsplit, List.countP_append] at hcount
    rw [hsplit, Tree.with, List.foldl_append]
    exact parseargs_complete _ 0 hle₂ hnext htoks₂ hrest (Text.items_lt htoks₂) (by omega) hshows
  | @block ts c items hderives hitems ih =>
    rw [Text.parser, parseexec, wp_bind]
    rw [List.append_assoc, List.cons_append, List.cons_append] at hts
    refine (peek_complete (b := true) hs (by decide) hts rfl).imp ?_
    rintro b s₁ ⟨rfl, hle₁, htoks₁⟩
    simp only [if_true]
    rw [parseblock, wp_bind]
    refine (peek_complete (b := true) hle₁ (by decide) htoks₁ rfl).imp ?_
    rintro b s₂ ⟨rfl, hle₂, htoks₂⟩
    rw [wp_bind, wp_assert]
    refine ⟨fun _ => ?_, fun hno => (hno rfl).elim⟩
    rw [wp_bind]
    refine (gettoken_complete hle₂ htoks₂).imp ?_
    rintro r s₃ ⟨hle₃, htoks₃, -⟩
    -- the parenthesis is gone, and the calls may nest one deeper
    have hlen : (t.toks s₃).length + 1 = (t.toks s).length := by
      rw [htoks₃, hts, List.length_cons]
    obtain ⟨n, rfl⟩ := Nat.exists_eq_succ_of_ne_zero (show n ≠ 0 by omega)
    rw [wp_bind]
    refine (ih n (n + 1) hle₃ htoks₃ (.cons (by decide)) (by omega) (by omega)).imp ?_
    rintro cmd s₄ ⟨hle₄, htoks₄, hshows⟩
    rw [wp_bind]
    refine (peek_complete (b := true) hle₄ (by decide) htoks₄ rfl).imp ?_
    rintro b s₅ ⟨rfl, hle₅, htoks₅⟩
    rw [wp_bind, wp_assert]
    refine ⟨fun _ => ?_, fun hno => (hno rfl).elim⟩
    rw [wp_bind]
    refine (gettoken_complete hle₅ htoks₅).imp ?_
    rintro r' s₆ ⟨hle₆, htoks₆, -⟩
    exact parseredirs_complete _ hle₆ hitems htoks₆ (hrest.not_begins (by decide))
      (Text.items_lt htoks₆) hshows
  | one _ ih =>
    -- what stands behind a pipe is no `|`
    obtain ⟨fuel, rfl⟩ := Nat.exists_eq_succ_of_ne_zero (Nat.zero_lt_of_lt hfuel).ne'
    rw [Text.parser, parsepipe, wp_bind]
    refine (ih n (fuel + 1) hs hts (hrest.mono (by decide)) hn hfuel).imp ?_
    rintro cmd s₁ ⟨hle₁, htoks₁, hshows⟩
    rw [wp_bind]
    refine (peek_complete hle₁ (by decide) htoks₁ (hrest.not_begins (by decide))).imp ?_
    rintro b s₂ ⟨rfl, hle₂, htoks₂⟩
    exact ⟨hle₂, htoks₂, hshows⟩
  | @pipe ts us c d _ _ ih ih' =>
    obtain ⟨fuel, rfl⟩ := Nat.exists_eq_succ_of_ne_zero (Nat.zero_lt_of_lt hfuel).ne'
    rw [Text.parser, parsepipe, wp_bind]
    rw [List.append_assoc] at hts
    refine (ih n (fuel + 1) hs hts (.cons (by decide)) hn hfuel).imp ?_
    rintro cmd s₁ ⟨hle₁, htoks₁, hshows⟩
    rw [wp_bind]
    refine (peek_complete (b := true) hle₁ (by decide) htoks₁ rfl).imp ?_
    rintro b s₂ ⟨rfl, hle₂, htoks₂⟩
    simp only [if_true]
    rw [wp_bind]
    refine (gettoken_complete hle₂ htoks₂).imp ?_
    rintro r s₃ ⟨hle₃, htoks₃, -⟩
    change t.toks s₃ = us ++ rest at htoks₃
    have hlen : (t.toks s₃).length < (t.toks s).length := by
      rw [htoks₃, hts, List.length_append, List.length_append, List.cons_append, List.length_cons,
        List.length_append]
      omega
    rw [wp_bind]
    refine (ih' n fuel hle₃ htoks₃ hrest (by omega) (by omega)).imp ?_
    rintro right s' ⟨hle', htoks', hshows'⟩
    exact ⟨hle', htoks', .pipe hshows hshows'⟩
  | @last ts c k _ ih =>
    -- behind the pipe are the `&`, and behind them no `;`
    rw [Text.parser, parseline, wp_bind]
    rw [List.append_assoc] at hts
    refine (ih n t.fuel hs hts ((hrest.mono (by decide)).amps k (by decide)) hn
      (t.length_toks s)).imp ?_
    rintro cmd s₁ ⟨hle₁, htoks₁, hshows⟩
    rw [wp_bind]
    refine (parseback_complete _ k hle₁ htoks₁ (hrest.not_begins (by decide))
      (Text.amps_lt htoks₁) hshows).imp ?_
    rintro cmd₂ s₂ ⟨hle₂, htoks₂, hshows₂⟩
    rw [wp_bind]
    refine (peek_complete hle₂ (by decide) htoks₂ (hrest.not_begins (by decide))).imp ?_
    rintro b s₃ ⟨rfl, hle₃, htoks₃⟩
    exact ⟨hle₃, htoks₃, hshows₂⟩
  | @list ts us c d k _ _ ih ih' =>
    rw [Text.parser, parseline, wp_bind]
    rw [List.append_assoc, List.append_assoc] at hts
    refine (ih n t.fuel hs hts (Stops.amps k (.cons (by decide)) (by decide)) hn
      (t.length_toks s)).imp ?_
    rintro cmd s₁ ⟨hle₁, htoks₁, hshows⟩
    rw [wp_bind]
    refine (parseback_complete _ k hle₁ htoks₁ rfl (Text.amps_lt htoks₁) hshows).imp ?_
    rintro cmd₂ s₂ ⟨hle₂, htoks₂, hshows₂⟩
    rw [wp_bind]
    refine (peek_complete (b := true) hle₂ (by decide) htoks₂ rfl).imp ?_
    rintro b s₃ ⟨rfl, hle₃, htoks₃⟩
    simp only [if_true]
    rw [wp_bind]
    refine (gettoken_complete hle₃ htoks₃).imp ?_
    rintro r s₄ ⟨hle₄, htoks₄, -⟩
    change t.toks s₄ = us ++ rest at htoks₄
    have hlen' : (t.toks s₄).length < (t.toks s).length := by
      rw [htoks₄, hts]
      simp only [List.length_append, List.length_cons, List.cons_append]
      omega
    obtain ⟨n, rfl⟩ := Nat.exists_eq_succ_of_ne_zero (show n ≠ 0 by omega)
    rw [wp_bind]
    refine (ih' n (n + 1) hle₄ htoks₄ hrest (by omega) (by omega)).imp ?_
    rintro right s' ⟨hle', htoks', hshows'⟩
    exact ⟨hle', htoks', .list hshows₂ hshows'⟩

end Complete

/-! ### The words behind their zeros -/

/-- The offsets at which words end. -/
def Cmd.stops : Cmd → List ℕ
  | .exec argv => argv.map Prod.snd
  | .redir cmd _ efile _ _ _ => efile :: cmd.stops
  | .pipe left right => left.stops ++ right.stops
  | .list left right => left.stops ++ right.stops
  | .back cmd => cmd.stops

section Words

variable {t : Text} {cmd : Cmd} {c : Tree} {q eq : ℕ} {w : List UInt8} {buf : Mem}

theorem foldl_update_zero (argv : List (ℕ × ℕ)) (buf : Mem) (i : ℕ) :
    argv.foldl (fun buf word => Function.update buf word.2 0) buf i =
      if i ∈ argv.map Prod.snd then 0 else buf i := by
  induction argv generalizing buf with
  | nil => simp
  | cons word argv ih =>
    rw [List.foldl_cons, ih, List.map_cons]
    by_cases hmem : i ∈ argv.map Prod.snd
    · rw [if_pos hmem, if_pos (List.mem_cons_of_mem _ hmem)]
    · rw [if_neg hmem, Function.update_apply]
      simp only [List.mem_cons, hmem, or_false]

/-- Only the ends of words are written. -/
theorem nulterminate_apply (cmd : Cmd) (buf : Mem) (i : ℕ) :
    nulterminate cmd buf i = if i ∈ cmd.stops then 0 else buf i := by
  induction cmd generalizing buf with
  | exec argv => exact foldl_update_zero argv buf i
  | redir cmd file efile mode fd whence ih =>
    rw [nulterminate, Function.update_apply, ih]
    by_cases heq : i = efile
    · simp [heq, Cmd.stops]
    · simp [heq, Cmd.stops]
  | pipe left right ihl ihr | list left right ihl ihr =>
    rw [nulterminate, ihr, ihl]
    by_cases hr : i ∈ right.stops
    · simp [hr, Cmd.stops]
    · simp [hr, Cmd.stops]
  | back cmd ih => exact ih buf

/-- No word goes on where another ends. -/
theorem Text.Shows.stop (h : t.Shows cmd c) : ∀ e ∈ cmd.stops, isWord (t.buf e) = false := by
  induction h with
  | exec hargv =>
    induction hargv with
    | nil => simp [Cmd.stops]
    | cons hw _ ih =>
      intro e he
      rcases List.mem_cons.mp he with rfl | he
      · exact hw.stop
      · exact ih e he
  | redir _ hw ih =>
    intro e he
    rcases List.mem_cons.mp he with rfl | he
    · exact hw.stop
    · exact ih e he
  | pipe _ _ ihl ihr | list _ _ ihl ihr =>
    intro e he
    rcases List.mem_append.mp he with he | he
    · exact ihl e he
    · exact ihr e he
  | back _ ih => exact ih

theorem ne_zero_of_isWord {b : UInt8} (h : isWord b = true) : b ≠ 0 := by
  rintro rfl
  revert h
  decide

/-- A word is a string once a zero is behind it. -/
theorem Text.Spot.stringAt (h : t.Spot q eq w) (hkeep : ∀ i, isWord (t.buf i) = true → buf i = t.buf i)
    (hzero : buf eq = 0) : stringAt buf t.es q = w := by
  have hslice : buf.slice q w.length = w := by
    refine Eq.trans ?_ h.slice
    refine Mem.slice_congr fun k hk => hkeep _ ?_
    have hmem : t.buf (q + k) ∈ t.buf.slice q w.length :=
      List.mem_map.mpr ⟨k, List.mem_range.mpr hk, rfl⟩
    rw [h.slice] at hmem
    exact h.word _ hmem
  have hlen := h.length
  have hle := h.le
  rw [Shell.stringAt, show t.es + 1 - q = w.length + (1 + (t.es - eq)) by omega, Mem.slice_add,
    hslice, Mem.slice_add, hlen]
  change cstr (w ++ (buf eq :: _)) = w
  rw [hzero, cstr, List.takeWhile_append_of_pos]
  · simp
  · intro b hb
    simpa using ne_zero_of_isWord (h.word b hb)

theorem Text.Shows.tree (h : t.Shows cmd c)
    (hkeep : ∀ i, isWord (t.buf i) = true → buf i = t.buf i)
    (hzero : ∀ e ∈ cmd.stops, buf e = 0) : cmd.tree buf t.es = c := by
  induction h with
  | exec hargv =>
    rw [Cmd.tree]
    congr 1
    induction hargv with
    | nil => rfl
    | cons hw _ ih =>
      rw [List.map_cons, hw.stringAt hkeep (hzero _ List.mem_cons_self),
        ih fun e he => hzero e (List.mem_cons_of_mem _ he)]
  | redir _ hw ih =>
    rw [Cmd.tree, hw.stringAt hkeep (hzero _ List.mem_cons_self),
      ih fun e he => hzero e (List.mem_cons_of_mem _ he)]
  | pipe _ _ ihl ihr | list _ _ ihl ihr =>
    rw [Cmd.tree, ihl fun e he => hzero e (List.mem_append_left _ he),
      ihr fun e he => hzero e (List.mem_append_right _ he)]
  | back _ ih => rw [Cmd.tree, ih hzero]

/-- `nulterminate` makes the words of the line strings. -/
theorem Text.Shows.terminated (h : t.Shows cmd c) : cmd.tree (nulterminate cmd t.buf) t.es = c := by
  refine h.tree ?_ ?_
  · intro i hi
    -- the end of a word is in no word
    rw [nulterminate_apply, if_neg]
    intro hmem
    have hstop := h.stop i hmem
    rw [hi] at hstop
    cases hstop
  · intro e he
    rw [nulterminate_apply, if_pos he]

end Words

/-! ### The whole line -/

section Parse

variable {line : CString} {c : Tree} {fail : Stop → Prop}

theorem toks_ofList (line : CString) : (Text.ofList line).toks 0 = lex line.1 := by
  rw [Text.toks, Text.rest, Nat.sub_zero]
  exact congrArg lex (Mem.slice_ofList line.1)

theorem parsecmd_sound (line : CString) : wp (parsecmd (Text.ofList line))
    (fun r _ => Derives .line (lex line.1) (r.1.tree r.2 line.1.length)) (· ≠ .hang) 0 := by
  obtain ⟨t, ht⟩ : ∃ t, t = Text.ofList line := ⟨_, rfl⟩
  have htoks := toks_ofList line
  have hes : t.es = line.1.length := by rw [ht]; rfl
  rw [← ht] at htoks ⊢
  rw [parsecmd, wp_bind, setPos, wp_update, wp_bind]
  refine (parseline_sound t.fuel (Nat.zero_le _) (t.length_toks 0)).imp ?_
  rintro cmd s₁ ⟨hle₁, ts, c, hderives, htoks₁, hshows⟩
  rw [wp_bind]
  refine (peek_spec hle₁ (by simp)).imp ?_
  rintro b s₂ ⟨hle₂, htoks₂, -, hend⟩
  rw [wp_bind, getPos, wp_read, wp_bind, wp_assert]
  refine ⟨fun heq => ?_, fun _ => by decide⟩
  -- nothing is left over, so the tokens of the phrase are those of the line
  have hnil := hend.mp heq
  rw [hnil, List.append_nil, htoks] at htoks₁
  rw [wp_pure, ← hes, htoks₁, hshows.terminated]
  exact hderives

theorem parsecmd_complete (h : Derives .line (lex line.1) c) : wp (parsecmd (Text.ofList line))
    (fun r _ => r.1.tree r.2 line.1.length = c) fail 0 := by
  obtain ⟨t, ht⟩ : ∃ t, t = Text.ofList line := ⟨_, rfl⟩
  have htoks := toks_ofList line
  have hes : t.es = line.1.length := by rw [ht]; rfl
  rw [← ht] at htoks ⊢
  rw [parsecmd, wp_bind, setPos, wp_update, wp_bind]
  have hlen := t.length_toks 0
  have hlast : Stops Nt.line.follow [] := fun k hk => by cases hk
  have hall : t.toks 0 = lex line.1 ++ [] := by rw [htoks, List.append_nil]
  refine (parser_complete h t.es t.fuel (Nat.zero_le _) hall hlast
    (by rw [Text.fuel] at hlen; omega) hlen).imp ?_
  rintro cmd s₁ ⟨hle₁, htoks₁, hshows⟩
  rw [wp_bind]
  refine (peek_spec hle₁ (by simp)).imp ?_
  rintro b s₂ ⟨hle₂, -, -, hend⟩
  rw [wp_bind, getPos, wp_read, wp_bind, wp_assert]
  refine ⟨fun _ => ?_, fun hno => (hno (hend.mpr htoks₁)).elim⟩
  rw [wp_pure, ← hes]
  exact hshows.terminated

/-- **What the shell accepts.** A line parses to the tree that the grammar derives it with, and
to no other; it panics where there is none, and it always ends. -/
theorem parse_iff (line : CString) :
    (∀ c, parse line = .ok c ↔ Derives .line (lex line.1) c) ∧ parse line ≠ .error .hang := by
  have hsound := parsecmd_sound line
  rw [wp_iff] at hsound
  obtain ⟨hok, herror⟩ := hsound
  constructor
  · intro c
    constructor
    · intro hparse
      rw [parse] at hparse
      cases hrun : parsecmd (Text.ofList line) 0 with
      | error e =>
        rw [hrun] at hparse
        cases hparse
      | ok r =>
        rw [hrun] at hparse
        cases hparse
        exact hok r.1 r.2 hrun
    · intro hderives
      obtain ⟨r, s', hrun, htree⟩ := (parsecmd_complete hderives).returns
      rw [parse, hrun]
      exact congrArg Except.ok htree
  · intro hparse
    rw [parse] at hparse
    cases hrun : parsecmd (Text.ofList line) 0 with
    | error e =>
      rw [hrun] at hparse
      cases hparse
      exact herror _ hrun rfl
    | ok r =>
      rw [hrun] at hparse
      cases hparse

end Parse

/-! ### The trees that a line gives -/

/-- A word of a line. -/
def IsWord (w : List UInt8) : Prop := w ≠ [] ∧ ∀ c ∈ w, isWord c = true

/-- The commands that can be typed: not too many arguments, words without special characters,
and redirections of the three kinds. -/
def Tree.Sayable : Tree → Prop
  | .exec argv => argv.length < MAXARGS ∧ ∀ w ∈ argv, IsWord w
  | .redir c file mode fd whence =>
    c.Sayable ∧ IsWord file ∧ ∃ k : RedirKind, k.around c file = .redir c file mode fd whence
  | .pipe left right => left.Sayable ∧ right.Sayable
  | .list left right => left.Sayable ∧ right.Sayable
  | .back c => c.Sayable

/-- The number of arguments under the redirections. -/
def Tree.args : Tree → ℕ
  | .exec argv => argv.length
  | .redir c _ _ _ _ => c.args
  | _ => 0

/-- The tokens of which lines are made. -/
def Token.Good : Token → Prop
  | .sym c => c ∈ symbols
  | .append => True
  | .word w => IsWord w

section Sayable

variable {c : Tree} {w : List UInt8} {ts : List Token}

theorem good_glue {b : UInt8} (hb : isWord b = true) (h : ∀ k ∈ ts, k.Good) :
    ∀ k ∈ glue b ts, k.Good := by
  have hone : IsWord [b] := ⟨by simp, by simpa using hb⟩
  cases ts with
  | nil => simpa [glue, Token.Good] using hone
  | cons k ts =>
    cases k with
    | word w =>
      have hw : IsWord w := h _ List.mem_cons_self
      have hcons : IsWord (b :: w) := by
        refine ⟨by simp, fun c hc => ?_⟩
        rcases List.mem_cons.mp hc with rfl | hc
        · exact hb
        · exact hw.2 c hc
      intro k hk
      rcases List.mem_cons.mp hk with rfl | hk
      · exact hcons
      · exact h k (List.mem_cons_of_mem _ hk)
    | sym _ | append =>
      intro k hk
      rcases List.mem_cons.mp hk with rfl | hk
      · exact hone
      · exact h k hk

theorem good_cons {k : Token} (hk : k.Good) (h : ∀ k ∈ ts, k.Good) : ∀ j ∈ k :: ts, j.Good := by
  intro j hj
  rcases List.mem_cons.mp hj with rfl | hj
  · exact hk
  · exact h j hj

/-- A line has good tokens only. -/
theorem good_lex (cs : List UInt8) (h0 : (0 : UInt8) ∉ cs) : ∀ k ∈ lex cs, k.Good := by
  have hword {b : UInt8} (hb : b ≠ 0) (hspace : b ∉ whitespace) (hsym : b ∉ symbols) :
      isWord b = true := (isWord_iff hb).mpr ⟨hspace, hsym⟩
  fun_induction lex cs with
  | case1 => simp
  | case2 c cs _ ih => exact ih fun hmem => h0 (List.mem_cons_of_mem _ hmem)
  | case3 => simp [Token.Good, symbols]
  | case4 _ _ ih =>
    refine good_cons trivial (ih fun hmem => h0 ?_)
    exact List.mem_cons_of_mem _ (List.mem_cons_of_mem _ hmem)
  | case5 _ _ _ _ ih =>
    exact good_cons (by simp [Token.Good, symbols]) (ih fun hmem => h0 (List.mem_cons_of_mem _ hmem))
  | case6 c cs _ _ hsym ih =>
    exact good_cons hsym (ih fun hmem => h0 (List.mem_cons_of_mem _ hmem))
  | case7 c cs hspace _ hsym _ ih =>
    have hc : c ≠ 0 := fun heq => h0 (heq ▸ List.mem_cons_self)
    exact good_glue (hword hc hspace hsym) (ih fun hmem => h0 (List.mem_cons_of_mem _ hmem))
  | case8 c cs hspace _ hsym _ ih =>
    have hc : c ≠ 0 := fun heq => h0 (heq ▸ List.mem_cons_self)
    refine good_cons ⟨by simp, ?_⟩ (ih fun hmem => h0 (List.mem_cons_of_mem _ hmem))
    simpa using hword hc hspace hsym

theorem Tree.Sayable.args_lt (h : c.Sayable) : c.args < MAXARGS := by
  induction c with
  | exec argv => exact h.1
  | redir c _ _ _ _ ih => exact ih h.1
  | pipe | list | back => exact Nat.succ_pos _

/-- One argument more is said, while there is room. -/
theorem Tree.Sayable.addArg (h : c.Sayable) (hroom : c.args + 1 < MAXARGS) (hw : IsWord w) :
    (c.addArg w).Sayable ∧ (c.addArg w).args ≤ c.args + 1 := by
  induction c with
  | exec argv =>
    refine ⟨⟨by simpa [Tree.args] using hroom, fun v hv => ?_⟩, by simp [Tree.addArg, Tree.args]⟩
    rcases List.mem_append.mp hv with hv | hv
    · exact h.2 v hv
    · exact List.mem_singleton.mp hv ▸ hw
  | redir c file mode fd whence ih =>
    obtain ⟨hc, hfile, k, hk⟩ := h
    obtain ⟨hsay, hargs⟩ := ih hc hroom
    refine ⟨⟨hsay, hfile, k, ?_⟩, hargs⟩
    cases k <;> simpa [RedirKind.around] using hk
  | pipe | list | back => exact ⟨h, Nat.le_succ _⟩

theorem Tree.Sayable.around (k : RedirKind) (h : c.Sayable) (hw : IsWord w) :
    (k.around c w).Sayable := by
  cases k with
  | less => exact ⟨h, hw, .less, rfl⟩
  | greater => exact ⟨h, hw, .greater, rfl⟩
  | append => exact ⟨h, hw, .append, rfl⟩

theorem Tree.args_around (k : RedirKind) (c : Tree) (w : List UInt8) :
    (k.around c w).args = c.args := by
  cases k <;> rfl

/-- Items are put in one by one. -/
theorem Tree.Sayable.with {items : List Item} (h : c.Sayable)
    (hroom : c.args + items.countP Item.isArg < MAXARGS) (hgood : ∀ k ∈ tokensOf items, k.Good) :
    (c.with items).Sayable := by
  induction items generalizing c with
  | nil => exact h
  | cons i items ih =>
    rw [tokensOf, List.flatMap_cons] at hgood
    have hrest : ∀ k ∈ tokensOf items, k.Good := fun k hk => hgood k (List.mem_append_right _ hk)
    cases i with
    | arg w =>
      have hw : IsWord w := hgood _ (List.mem_append_left _ List.mem_cons_self)
      rw [List.countP_cons_of_pos (by rfl)] at hroom
      obtain ⟨hsay, hargs⟩ := h.addArg (by omega) hw
      have hroom' : (c.addArg w).args + items.countP Item.isArg < MAXARGS := by omega
      exact ih hsay hroom' hrest
    | redir k w =>
      have hw : IsWord w :=
        hgood (.word w) (List.mem_append_left _ (List.mem_cons_of_mem _ List.mem_cons_self))
      rw [List.countP_cons_of_neg (by simp [Item.isArg])] at hroom
      rw [← Tree.args_around k c w] at hroom
      exact ih (h.around k hw) hroom hrest

theorem Tree.Sayable.back_iterate (n : ℕ) (h : c.Sayable) : (Tree.back^[n] c).Sayable := by
  induction n generalizing c with
  | zero => exact h
  | succ n ih => exact ih h

/-- What is derived can be said. -/
theorem Derives.sayable {nt : Nt} (h : Derives nt ts c) (hgood : ∀ k ∈ ts, k.Good) :
    c.Sayable := by
  induction h with
  | simple items hcount =>
    exact Tree.Sayable.with ⟨by decide, by simp⟩ (by simpa [Tree.args] using hcount) hgood
  | @block ts c items _ hitems ih =>
    simp only [List.mem_append, List.mem_cons] at hgood
    have hsay := ih fun k hk => hgood k (.inl (.inr hk))
    -- nothing but redirections stands behind the parenthesis
    have hroom : c.args + items.countP Item.isArg < MAXARGS := by
      rw [countP_redirs hitems]
      exact hsay.args_lt
    exact hsay.with hroom fun k hk => hgood k (.inr (.inr hk))
  | one _ ih => exact ih hgood
  | pipe _ _ ih ih' =>
    simp only [List.mem_append, List.mem_cons] at hgood
    exact ⟨ih fun k hk => hgood k (.inl hk), ih' fun k hk => hgood k (.inr (.inr hk))⟩
  | last n _ ih =>
    simp only [List.mem_append] at hgood
    exact (ih fun k hk => hgood k (.inl hk)).back_iterate n
  | list n _ _ ih ih' =>
    simp only [List.mem_append, List.mem_cons] at hgood
    exact ⟨(ih fun k hk => hgood k (.inl (.inl hk))).back_iterate n,
      ih' fun k hk => hgood k (.inr (.inr hk))⟩

/-- A redirection behind a command goes around it. -/
theorem Derives.redir (k : RedirKind) (w : List UInt8) (h : Derives .exec ts c) :
    Derives .exec (ts ++ [k.token, .word w]) (k.around c w) := by
  have htokens (items : List Item) : tokensOf items ++ [k.token, .word w] =
      tokensOf (items ++ [.redir k w]) := by
    simp [tokensOf, Item.tokens]
  have htree (c : Tree) (items : List Item) : k.around (c.with items) w =
      c.with (items ++ [.redir k w]) := by
    simp [Tree.with, Item.put]
  generalize hnt : Nt.exec = nt at h
  cases h with
  -- a redirection behind a simple command is one more of its items
  | simple items hcount =>
    rw [htokens, htree]
    refine .simple _ ?_
    simpa [Item.isArg] using hcount
  | block items hline hitems =>
    have hderives := Derives.block (items ++ [.redir k w]) hline ?_
    · rw [← htokens, ← htree] at hderives
      simpa using hderives
    intro i hi
    rcases List.mem_append.mp hi with hi | hi
    · exact hitems i hi
    · rw [List.mem_singleton.mp hi]
      rfl
  | _ => cases hnt

/-- A line in parentheses is a command. -/
theorem Derives.paren (h : Derives .line ts c) :
    Derives .exec (.sym LPAREN :: ts ++ [.sym RPAREN]) c :=
  .block [] h (by simp)

theorem Derives.toLine (h : Derives .exec ts c) : Derives .line ts c := by
  have hlast := Derives.last 0 (.one h)
  rwa [List.replicate_zero, List.append_nil] at hlast

/-- What can be said is derived, with every part of a command in parentheses. -/
theorem Tree.Sayable.derives (h : c.Sayable) : ∃ ts, Derives .exec ts c ∧ ∀ k ∈ ts, k.Good := by
  have hbar : Token.Good (.sym BAR) := by simp [Token.Good]
  have hsemi : Token.Good (.sym SEMI) := by simp [Token.Good]
  have hamp : Token.Good (.sym AMP) := by simp [Token.Good]
  have hparen {ts : List Token} (hts : ∀ k ∈ ts, k.Good) :
      ∀ k ∈ Token.sym LPAREN :: ts ++ [.sym RPAREN], k.Good := by
    refine good_cons (by simp [Token.Good]) fun k hk => ?_
    rcases List.mem_append.mp hk with hk | hk
    · exact hts k hk
    · rw [List.mem_singleton.mp hk]
      simp [Token.Good]
  have hboth {ts us : List Token} {b : Token} (hb : b.Good) (hts : ∀ k ∈ ts, k.Good)
      (hus : ∀ k ∈ us, k.Good) : ∀ k ∈ ts ++ b :: us, k.Good := by
    intro k hk
    rcases List.mem_append.mp hk with hk | hk
    · exact hts k hk
    · exact good_cons hb hus k hk
  -- on the command; each part is derived and put in parentheses
  induction c with
  | exec argv =>
    obtain ⟨hlen, hwords⟩ := h
    have htree (c : List (List UInt8)) : (Tree.exec c).with (argv.map Item.arg) =
        .exec (c ++ argv) := by
      clear hlen hwords
      induction argv generalizing c with
      | nil => simp [Tree.with]
      | cons w argv ih => simpa [Tree.with, Item.put, Tree.addArg] using ih (c ++ [w])
    have hcount : (argv.map Item.arg).countP Item.isArg = argv.length := by
      rw [List.countP_map]
      exact List.countP_eq_length.mpr fun _ _ => rfl
    have hderives := Derives.simple (argv.map Item.arg) (hcount ▸ hlen)
    rw [htree, List.nil_append] at hderives
    refine ⟨_, hderives, fun k hk => ?_⟩
    obtain ⟨i, hi, hk⟩ := List.mem_flatMap.mp hk
    obtain ⟨w, hw, rfl⟩ := List.mem_map.mp hi
    rw [List.mem_singleton.mp hk]
    exact hwords w hw
  | redir c file mode fd whence ih =>
    obtain ⟨hc, hfile, k, hk⟩ := h
    obtain ⟨ts, hderives, hts⟩ := ih hc
    rw [← hk]
    refine ⟨_, hderives.redir k file, fun j hj => ?_⟩
    rcases List.mem_append.mp hj with hj | hj
    · exact hts j hj
    · have hword : Token.Good (.word file) := hfile
      have hkind : k.token.Good := by cases k <;> simp [RedirKind.token, Token.Good]
      exact good_cons hkind (good_cons hword (by simp)) j hj
  | pipe left right ihl ihr =>
    obtain ⟨ts, hl, hts⟩ := ihl h.1
    obtain ⟨us, hr, hus⟩ := ihr h.2
    have hline := Derives.last 0 (.pipe hl (.one hr))
    rw [List.replicate_zero, List.append_nil] at hline
    exact ⟨_, hline.paren, hparen (hboth hbar hts hus)⟩
  | list left right ihl ihr =>
    obtain ⟨ts, hl, hts⟩ := ihl h.1
    obtain ⟨us, hr, hus⟩ := ihr h.2
    have hline := Derives.list 0 (.one hl) hr.toLine
    rw [List.replicate_zero, List.append_nil] at hline
    exact ⟨_, hline.paren, hparen (hboth hsemi hts hus)⟩
  | back c ih =>
    obtain ⟨ts, hderives, hts⟩ := ih h
    have hline := Derives.last 1 (.one hderives)
    exact ⟨_, hline.paren, hparen (hboth hamp hts (by simp))⟩

/-- `' '` -/
abbrev SPACE : UInt8 := 32

/-- A token with a space behind it. -/
def Token.spell : Token → List UInt8
  | .sym c => [c, SPACE]
  | .append => [GREATER, GREATER, SPACE]
  | .word w => w ++ [SPACE]

theorem Token.Good.zero_spell {k : Token} (h : k.Good) : (0 : UInt8) ∉ k.spell := by
  have hsymbols : (0 : UInt8) ∉ symbols := by simp
  have hspace : (0 : UInt8) ∉ [SPACE] := by decide
  cases k with
  | sym c =>
    intro hmem
    rcases List.mem_cons.mp hmem with hc | hmem
    · exact hsymbols (hc ▸ h)
    · exact hspace hmem
  | append => decide
  | word w =>
    intro hmem
    rcases List.mem_append.mp hmem with hmem | hmem
    · exact ne_zero_of_isWord (h.2 0 hmem) rfl
    · exact hspace hmem

/-- Spelt tokens are read again. -/
theorem lex_spell {k : Token} (h : k.Good) {cs : List UInt8} (h0 : (0 : UInt8) ∉ cs) :
    lex (k.spell ++ cs) = k :: lex cs := by
  have hspace : lex (SPACE :: cs) = lex cs := lex_space (by simp)
  cases k with
  | sym c =>
    by_cases hc : c = GREATER
    · subst hc
      have hnext : (SPACE :: cs).head? ≠ some GREATER := by simp only [List.head?_cons]; decide
      exact (lex_greater hnext).trans (congrArg _ hspace)
    · exact (lex_symbol hc h).trans (congrArg _ hspace)
  | append => exact lex_append.trans (congrArg _ hspace)
  | word w =>
    obtain ⟨hne, hw⟩ := h
    cases w with
    | nil => exact (hne rfl).elim
    | cons c w =>
      have hc := ne_zero_of_isWord (hw c List.mem_cons_self)
      have htail : ∀ b ∈ w, isWord b = true := fun b hb => hw b (List.mem_cons_of_mem _ hb)
      have hstop : isWord SPACE = false := by decide
      have h0' : (0 : UInt8) ∉ w ++ SPACE :: cs := by
        intro hmem
        rcases List.mem_append.mp hmem with hmem | hmem
        · exact ne_zero_of_isWord (htail 0 hmem) rfl
        · rcases List.mem_cons.mp hmem with hzero | hmem
          · cases hzero
          · exact h0 hmem
      have hlex := lex_word hc h0' (hw c List.mem_cons_self)
      rw [List.takeWhile_append_of_pos htail, List.dropWhile_append_of_pos htail,
        List.takeWhile_cons_of_neg (by simp [hstop]), List.dropWhile_cons_of_neg (by simp [hstop]),
        List.append_nil, hspace] at hlex
      rw [Token.spell, List.append_assoc]
      exact hlex

theorem exists_line (h : ∀ k ∈ ts, k.Good) : ∃ line : CString, lex line.1 = ts := by
  induction ts with
  | nil => exact ⟨⟨[], by simp⟩, rfl⟩
  | cons k ts ih =>
    obtain ⟨line, hline⟩ := ih fun k hk => h k (List.mem_cons_of_mem _ hk)
    have hk := h k List.mem_cons_self
    refine ⟨⟨k.spell ++ line.1, ?_⟩, ?_⟩
    · intro hmem
      rcases List.mem_append.mp hmem with hmem | hmem
      · exact hk.zero_spell hmem
      · exact line.2 hmem
    · rw [lex_spell hk line.2, hline]

/-- **What the shell can be told.** A command comes from a line exactly when it has not too many
arguments, its words hold no special character, and its redirections are of the three kinds. -/
theorem parse_sayable (c : Tree) : (∃ line, parse line = .ok c) ↔ c.Sayable := by
  constructor
  · intro hparse
    obtain ⟨line, hparse⟩ := hparse
    exact (((parse_iff line).1 c).mp hparse).sayable (good_lex line.1 line.2)
  · intro hsay
    obtain ⟨ts, hderives, hts⟩ := hsay.derives
    obtain ⟨line, rfl⟩ := exists_line hts
    exact ⟨line, ((parse_iff line).1 c).mpr hderives.toLine⟩

end Sayable

end Shell

end Oslab
