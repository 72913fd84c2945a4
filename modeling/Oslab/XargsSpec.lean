/-
# What `xargs` runs

`strtok` finds the fields of a string one by one, and the zeros it writes end them.
The first entry that `parse_arg` adds is the line itself, not what `strtok` returns
for it, so blanks at the start of a line stay in front of its first word.
-/
import Oslab.Xargs

namespace Oslab.Xargs

open Lib Lib.Prog

/-- A string in memory. -/
structure Str (m : Mem) (p : ℕ) (bs : List UInt8) : Prop where
  bytes : ∀ k (hk : k < bs.length), m (p + k) = bs[k]
  ends : m (p + bs.length) = 0
  zero : (0 : UInt8) ∉ bs

section Strings

variable {m m' : Mem} {p fuel : ℕ} {b : UInt8} {bs xs ys delim : List UInt8}

theorem Str.drop (h : Str m p (xs ++ ys)) : Str m (p + xs.length) ys := by
  refine ⟨fun k hk => ?_, ?_, fun hmem => h.zero (List.mem_append_right _ hmem)⟩
  · have hbyte := h.bytes (xs.length + k) (by simp only [List.length_append]; omega)
    rw [Nat.add_assoc, hbyte, List.getElem_append_right (by omega)]
    congr 1
    omega
  · have hend := h.ends
    rwa [List.length_append, ← Nat.add_assoc] at hend

theorem Str.head (h : Str m p (b :: bs)) : m p = b ∧ b ≠ 0 := by
  refine ⟨h.bytes 0 (Nat.succ_pos _), fun heq => h.zero ?_⟩
  rw [heq]
  exact List.mem_cons_self

theorem Str.tail (h : Str m p (b :: bs)) : Str m (p + 1) bs := @Str.drop m p [b] bs h

theorem Str.congr (h : Str m p bs) (hsame : ∀ a, p ≤ a → a ≤ p + bs.length → m' a = m a) :
    Str m' p bs := by
  refine ⟨fun k hk => ?_, ?_, h.zero⟩
  · rw [hsame _ (by omega) (by omega), h.bytes k hk]
  · rw [hsame _ (by omega) le_rfl, h.ends]

/-- A string is cut where a zero is written. -/
theorem Str.take (h : Str m p (xs ++ ys)) (hend : m' (p + xs.length) = 0)
    (hsame : ∀ a, p ≤ a → a < p + xs.length → m' a = m a) : Str m' p xs := by
  refine ⟨fun k hk => ?_, hend, fun hmem => h.zero (List.mem_append_left _ hmem)⟩
  have hbyte := h.bytes k (by simp only [List.length_append]; omega)
  rw [hsame _ (by omega) (by omega), hbyte, List.getElem_append_left hk]

/-- Bytes right before a string. -/
theorem Str.prepend (h : Str m (p + xs.length) ys) (hbytes : ∀ k (hk : k < xs.length), m (p + k) = xs[k])
    (hzero : (0 : UInt8) ∉ xs) : Str m p (xs ++ ys) := by
  refine ⟨fun k hk => ?_, ?_, fun hmem => ?_⟩
  · by_cases hlt : k < xs.length
    · rw [hbytes k hlt, List.getElem_append_left hlt]
    · rw [List.length_append] at hk
      have hbyte := h.bytes (k - xs.length) (by omega)
      rw [show p + xs.length + (k - xs.length) = p + k by omega] at hbyte
      rw [hbyte, List.getElem_append_right (by omega)]
  · rw [List.length_append, ← Nat.add_assoc]
    exact h.ends
  · rcases List.mem_append.mp hmem with hmem | hmem
    · exact hzero hmem
    · exact h.zero hmem

/-- The string that is read back. -/
theorem Str.content (h : Str m p bs) (hlen : bs.length < FUEL) : content m (.ptr p) = bs := by
  have hslice : m.slice p FUEL = bs ++ 0 :: m.slice (p + bs.length + 1) (FUEL - bs.length - 1) := by
    have hsplit : FUEL = bs.length + (1 + (FUEL - bs.length - 1)) := by omega
    conv_lhs => rw [hsplit]
    rw [Mem.slice_add, Mem.slice_add]
    congr 1
    · refine List.ext_getElem (by simp) fun k hk hk' => ?_
      rw [Mem.getElem_slice, h.bytes k hk']
    · have hone : m.slice (p + bs.length) 1 = [0] := by
        change [m (p + bs.length + 0)] = [0]
        rw [Nat.add_zero, h.ends]
      rw [hone]
      rfl
  rw [Xargs.content, hslice, cstr, List.takeWhile_append_of_pos]
  · simp
  · intro b hb
    simpa using fun heq : b = 0 => h.zero (heq ▸ hb)

theorem skipDelim_eq (h : Str m p bs) (h0 : (0 : UInt8) ∉ delim) (hfuel : bs.length < fuel) :
    skipDelim m delim fuel p = some (p + (bs.takeWhile (· ∈ delim)).length) := by
  induction bs generalizing p fuel with
  | nil =>
    obtain ⟨fuel, rfl⟩ : ∃ f, fuel = f + 1 := ⟨fuel - 1, by omega⟩
    have hend : m p = 0 := h.ends
    rw [skipDelim, hend, if_neg h0]
    rfl
  | cons b bs ih =>
    obtain ⟨fuel, rfl⟩ : ∃ f, fuel = f + 1 := ⟨fuel - 1, by omega⟩
    rw [skipDelim, h.head.1]
    by_cases hb : b ∈ delim
    · rw [if_pos hb, ih h.tail (by simpa using hfuel), List.takeWhile_cons_of_pos (by simpa using hb),
        List.length_cons]
      congr 1
      omega
    · rw [if_neg hb, List.takeWhile_cons_of_neg (by simpa using hb)]
      rfl

theorem findDelim_eq (h : Str m p bs) (hfuel : bs.length < fuel) :
    findDelim m delim fuel p = some (p + (bs.takeWhile fun b => !decide (b ∈ delim)).length) := by
  induction bs generalizing p fuel with
  | nil =>
    obtain ⟨fuel, rfl⟩ : ∃ f, fuel = f + 1 := ⟨fuel - 1, by omega⟩
    have hend : m p = 0 := h.ends
    rw [findDelim, hend, if_pos (Or.inr rfl)]
    rfl
  | cons b bs ih =>
    obtain ⟨fuel, rfl⟩ : ∃ f, fuel = f + 1 := ⟨fuel - 1, by omega⟩
    rw [findDelim, h.head.1]
    by_cases hb : b ∈ delim
    · rw [if_pos (Or.inl hb), List.takeWhile_cons_of_neg (by simpa using hb)]
      rfl
    · rw [if_neg (by simpa [hb] using h.head.2), ih h.tail (by simpa using hfuel),
        List.takeWhile_cons_of_pos (by simpa using hb), List.length_cons]
      congr 1
      omega

end Strings

/-! ### One token -/

/-- The fields that `delim` separates. -/
abbrev tokens (delim bs : List UInt8) : List (List UInt8) := fields (· ∈ delim) bs

/-- What `strtok` remembers: where the rest of the string begins, if a separator ended the token
before it. The string ends at `ed`. -/
def Rest (st : State) (delim : List UInt8) (q ed : ℕ) (toks : List (List UInt8)) : Prop :=
  (st.lasts = none ∧ toks = [] ∧ q = ed + 1) ∨
    ∃ rest, st.lasts = some q ∧ Str st.mem q rest ∧ tokens delim rest = toks ∧ q + rest.length = ed

section Tokens

variable {st st' : State} {o : Option ℕ} {s p q ed argc : ℕ} {bs w delim : List UInt8}
  {toks ws : List (List UInt8)} {F : Stop → Prop}

theorem strtok_none (h : st.lasts = none) (delim : List UInt8) :
    wp (strtok none delim) (fun r st' => r = none ∧ st' = st) F st := by
  simp only [strtok, wp_bind, wp_read, h]
  exact ⟨rfl, rfl⟩

/-- The next token of the string at `s`. -/
theorem strtok_spec (h : Str st.mem s bs) (hlen : bs.length < FUEL) (h0 : (0 : UInt8) ∉ delim)
    (ho : (o <|> st.lasts) = some s) :
    wp (strtok o delim) (fun r st' => st'.new_argv = st.new_argv ∧ st'.execs = st.execs ∧
      ((tokens delim bs = [] ∧ r = none ∧ st'.mem = st.mem ∧ st'.lasts = none) ∨
        ∃ tok toks p, tokens delim bs = tok :: toks ∧ r = some p ∧
          p = s + (bs.takeWhile (· ∈ delim)).length ∧ Str st'.mem p tok ∧
          (∀ a, a < p ∨ s + bs.length ≤ a → st'.mem a = st.mem a) ∧
          p + tok.length ≤ s + bs.length ∧
          Rest st' delim (p + tok.length + 1) (s + bs.length) toks)) F st := by
  have hskip : bs.takeWhile (· ∈ delim) ++ bs.dropWhile (· ∈ delim) = bs :=
    List.takeWhile_append_dropWhile
  have hs : Str st.mem s (bs.takeWhile (· ∈ delim) ++ bs.dropWhile (· ∈ delim)) := by rwa [hskip]
  have hys := hs.drop
  have hlen' := congrArg List.length hskip
  rw [List.length_append] at hlen'
  set k := (bs.takeWhile (· ∈ delim)).length with hk
  set ys := bs.dropWhile (· ∈ delim) with hdrop
  simp only [strtok, wp_bind, wp_read, ho, skipDelim_eq h h0 hlen, ← hk, stop, wp_pure]
  -- nothing but separators, or a token
  cases hcases : ys with
  | nil =>
    rw [hcases] at hys
    have hend : st.mem (s + k) = 0 := hys.ends
    rw [if_pos hend, wp_bind, wp_update, wp_pure]
    exact ⟨rfl, rfl, Or.inl ⟨fields_eq_nil hcases, rfl, rfl, rfl⟩⟩
  | cons b tail =>
    rw [hcases] at hys
    have hhead := head_dropWhile (hdrop ▸ hcases)
    have hb : b ∉ delim := of_decide_eq_false hhead
    have htoks : tokens delim bs = (b :: tail.takeWhile fun c => !decide (c ∈ delim)) ::
        tokens delim (tail.dropWhile fun c => !decide (c ∈ delim)) := by
      have hne : bs.dropWhile (· ∈ delim) ≠ [] := by
        rw [← hdrop, hcases]
        simp
      rw [tokens, fields_eq_cons hne, ← hdrop, hcases,
        List.takeWhile_cons_of_pos (by simpa using hb), List.dropWhile_cons_of_pos (by simpa using hb)]
    have htail : tail.takeWhile (fun c => !decide (c ∈ delim)) ++
        tail.dropWhile (fun c => !decide (c ∈ delim)) = tail := List.takeWhile_append_dropWhile
    have hlast := List.head?_dropWhile_not (fun c => !decide (c ∈ delim)) tail
    set word := tail.takeWhile fun c => !decide (c ∈ delim) with hword
    set r := tail.dropWhile fun c => !decide (c ∈ delim) with hr
    have hcut : Str st.mem (s + k) ((b :: word) ++ r) := by
      rw [List.cons_append, htail]
      exact hys
    have hlen₂ : ys.length = 1 + word.length + r.length := by
      have hlength := congrArg List.length htail
      rw [List.length_append] at hlength
      rw [hcases, List.length_cons]
      omega
    rw [if_neg (by rw [hys.head.1]; exact hys.head.2)]
    simp only [wp_bind, findDelim_eq hys.tail (show tail.length < FUEL by
      rw [hcases, List.length_cons] at hlen'; omega), ← hword, wp_pure]
    rw [show s + k + 1 + word.length = s + k + (b :: word).length by rw [List.length_cons]; omega]
    -- the token ends with the string, or a separator is overwritten with zero
    cases hcr : r with
    | nil =>
      rw [hcr, List.append_nil] at hcut
      rw [if_pos hcut.ends, wp_bind, wp_update, wp_pure]
      refine ⟨rfl, rfl, Or.inr ⟨b :: word, [], s + k, ?_, rfl, rfl, hcut, fun _ _ => rfl, ?_, ?_⟩⟩
      · rw [htoks, hcr]
        rfl
      · rw [List.length_cons]
        omega
      · refine Or.inl ⟨rfl, rfl, ?_⟩
        rw [hcr, List.length_nil] at hlen₂
        rw [List.length_cons]
        omega
    | cons d rest =>
      rw [hcr] at hcut hlen₂ hlast
      rw [List.length_cons] at hlen₂
      have hd : d ∈ delim := by simpa using hlast
      have hrest := hcut.drop
      rw [if_neg (by rw [hrest.head.1]; exact hrest.head.2), wp_bind, wp_update, wp_pure]
      refine ⟨rfl, rfl, Or.inr ⟨b :: word, tokens delim rest, s + k, ?_, rfl, rfl, ?_, ?_, ?_, ?_⟩⟩
      · rw [htoks, hcr, tokens, fields_sep (by simpa using hd)]
      · refine hcut.take (Function.update_self ..) fun a _ ha => ?_
        exact Function.update_of_ne (by omega) _ _
      · intro a ha
        apply Function.update_of_ne
        rw [List.length_cons]
        omega
      · rw [List.length_cons]
        omega
      · refine Or.inr ⟨rest, rfl, ?_, rfl, ?_⟩
        · refine hrest.tail.congr fun a ha _ => ?_
          exact Function.update_of_ne (by omega) _ _
        · rw [List.length_cons]
          omega

/-- A call on the string that `strtok` remembers, from the tokens that are left. -/
def Next (st : State) (delim : List UInt8) (q ed : ℕ) (r : Option ℕ) (st' : State) :
    List (List UInt8) → Prop
  | [] => r = none ∧ st'.mem = st.mem ∧ st'.lasts = none
  | tok :: toks => ∃ p, r = some p ∧ q ≤ p ∧ Str st'.mem p tok ∧
    (∀ a, a < p ∨ ed ≤ a → st'.mem a = st.mem a) ∧ p + tok.length ≤ ed ∧
    Rest st' delim (p + tok.length + 1) ed toks

theorem strtok_rest (hrest : Rest st delim q ed toks) (hed : ed < q + FUEL)
    (h0 : (0 : UInt8) ∉ delim) :
    wp (strtok none delim) (fun r st' => st'.new_argv = st.new_argv ∧ st'.execs = st.execs ∧
      Next st delim q ed r st' toks) F st := by
  rcases hrest with ⟨hnone, rfl, rfl⟩ | ⟨rest, hsome, hstr, htoks, rfl⟩
  · refine (strtok_none hnone delim).imp ?_
    rintro _ _ ⟨rfl, rfl⟩
    exact ⟨rfl, rfl, rfl, rfl, hnone⟩
  · refine (strtok_spec (o := none) hstr (by omega) h0 (by rw [hsome]; rfl)).imp ?_
    intro r st' hpost
    obtain ⟨hargv, hexecs, hcases⟩ := hpost
    refine ⟨hargv, hexecs, ?_⟩
    rw [← htoks]
    rcases hcases with ⟨hnil, hr, hmem, hlasts⟩ | ⟨tok, toks, p, hcons, hr, hp, hstr', hframe, hle, hrest⟩
    · rw [hnil]
      exact ⟨hr, hmem, hlasts⟩
    · rw [hcons]
      exact ⟨p, hr, by omega, hstr', hframe, hle, hrest⟩

/-! ### One line -/

abbrev blanks : List UInt8 := [SPACE, TAB]

/-- One round of the loop: entry `args` is added, and the next word is looked for. -/
theorem parseLoop_round {fuel args : ℕ} {Q : ℕ → State → Prop} (hroom : argc + 1 ≤ MAXARG)
    (hed : ed < q + FUEL) (hrest : Rest st blanks q ed ws)
    (hnext : ∀ r st', st'.new_argv = Function.update st.new_argv argc (some (.ptr args)) →
      st'.execs = st.execs → Next st blanks q ed r st' ws →
      wp (match r with
        | some args => parseLoop fuel args (argc + 1)
        | none => pure (argc + 1)) Q F st') : wp (parseLoop (fuel + 1) args argc) Q F st := by
  simp only [parseLoop, setArg, wp_bind, wp_update]
  rw [if_neg (by omega), wp_bind]
  have hrest₁ : Rest { st with new_argv := Function.update st.new_argv argc (some (.ptr args)) }
      blanks q ed ws := hrest
  refine (strtok_rest hrest₁ hed (by decide)).imp ?_
  intro r st' hpost
  obtain ⟨hargv, hexecs, h⟩ := hpost
  refine hnext r st' hargv hexecs ?_
  cases ws <;> exact h

/-- Entry `args` and those for the words that are left. -/
theorem parseLoop_spec (ws : List (List UInt8)) {st : State} {fuel args argc q ed : ℕ}
    {w : List UInt8} (hfuel : ws.length < fuel) (hroom : argc + 1 + ws.length ≤ MAXARG)
    (hw : Str st.mem args w) (hq : args + w.length < q) (hed : ed < q + FUEL)
    (hrest : Rest st blanks q ed ws) :
    wp (parseLoop fuel args argc) (fun n st' => n = argc + 1 + ws.length ∧
      st'.execs = st.execs ∧ st'.lasts = none ∧
      (∀ a, a ≤ args + w.length ∨ ed ≤ a → st'.mem a = st.mem a) ∧
      (∀ i < argc, st'.new_argv i = st.new_argv i) ∧
      ∃ ptrs, List.Forall₂ (Str st'.mem) ptrs (w :: ws) ∧
        ∀ i (hi : i < ptrs.length), st'.new_argv (argc + i) = some (.ptr ptrs[i])) F st := by
  obtain ⟨fuel, rfl⟩ : ∃ f, fuel = f + 1 := ⟨fuel - 1, by omega⟩
  induction ws generalizing st fuel args argc q w with
  | nil =>
    apply parseLoop_round (by omega) hed hrest
    rintro _ st₁ hargv hexecs ⟨rfl, hmem, hlasts⟩
    refine ⟨rfl, hexecs, hlasts, fun a _ => congrFun hmem a, fun i hi => ?_, [args], ?_, ?_⟩
    · rw [hargv]
      exact Function.update_of_ne (by omega) _ _
    · rw [hmem]
      exact .cons hw .nil
    · intro i hi
      obtain rfl : i = 0 := by simpa using hi
      rw [hargv]
      exact Function.update_self ..
  | cons w' ws ih =>
    rw [List.length_cons] at hfuel hroom
    apply parseLoop_round (by omega) hed hrest
    rintro _ st₁ hargv hexecs ⟨p, rfl, hqp, hw', hframe, hle, hrest'⟩
    obtain ⟨fuel, rfl⟩ : ∃ f, fuel = f + 1 := ⟨fuel - 1, by omega⟩
    have hroom' : argc + 1 + 1 + ws.length ≤ MAXARG := by omega
    refine (ih hroom' hw' (Nat.lt_succ_self _) (by omega) hrest' fuel (by omega)).imp ?_
    rintro n st₂ ⟨rfl, hexecs₂, hlasts₂, hframe₂, hargv₂, ptrs, hptrs, hnew⟩
    have hmem (a : ℕ) (ha : a ≤ args + w.length ∨ ed ≤ a) : st₂.mem a = st.mem a := by
      rw [hframe₂ a (by omega), hframe a (by omega)]
    refine ⟨by rw [List.length_cons]; omega, hexecs₂.trans hexecs, hlasts₂, hmem, fun i hi => ?_,
      args :: ptrs, .cons ?_ hptrs, fun i hi => ?_⟩
    · rw [hargv₂ i (by omega), hargv, Function.update_of_ne (by omega)]
    · exact hw.congr fun a _ ha => hmem a (Or.inl ha)
    · cases i with
      | zero =>
        rw [Nat.add_zero, hargv₂ argc (by omega), hargv, Function.update_self]
        rfl
      | succ i =>
        rw [show argc + (i + 1) = argc + 1 + i by omega]
        exact hnew i (Nat.lt_of_succ_lt_succ hi)

/-- The entries that `parse_arg` adds for a line: its words, the first one with the blanks at the
start of the line before it; or the line itself when it has no words. -/
def argsOf (line : List UInt8) : List (List UInt8) :=
  match tokens blanks line with
  | [] => [line]
  | word :: words => (line.takeWhile (· ∈ blanks) ++ word) :: words

theorem parse_arg_spec (h : Str st.mem p w) (hne : w ≠ []) (hlen : w.length < FUEL)
    (hroom : argc + (argsOf w).length ≤ MAXARG) :
    wp (parse_arg p argc) (fun _ st' => st'.execs = st.execs ∧ st'.lasts = none ∧
      (∀ a, a < p ∨ p + w.length ≤ a → st'.mem a = st.mem a) ∧
      (∀ i < argc, st'.new_argv i = st.new_argv i) ∧
      ∃ ptrs, List.Forall₂ (Str st'.mem) ptrs (argsOf w) ∧
        (∀ i (hi : i < ptrs.length), st'.new_argv (argc + i) = some (.ptr ptrs[i])) ∧
        st'.new_argv (argc + ptrs.length) = none) F st := by
  obtain ⟨b, tail, rfl⟩ := List.exists_cons_of_ne_nil hne
  simp only [parse_arg, wp_bind, wp_read]
  rw [if_neg (by rw [h.head.1]; exact h.head.2), wp_bind]
  refine (strtok_spec (o := some p) h hlen (by decide) rfl).imp ?_
  intro r st₁ hpost
  obtain ⟨hargv₁, hexecs₁, hcases⟩ := hpost
  -- what the loop and the last null entry do to the state after the first `strtok`
  have hloop (ws : List (List UInt8)) (first : List UInt8) (q : ℕ) (hw : Str st₁.mem p first)
      (hfits : argc + 1 + ws.length ≤ MAXARG) (hq : p + first.length < q)
      (hed : p + (b :: tail).length < q + FUEL)
      (hrest : Rest st₁ blanks q (p + (b :: tail).length) ws)
      (hsame : ∀ a, a < p ∨ p + (b :: tail).length ≤ a → st₁.mem a = st.mem a) :
      wp (do let argc ← parseLoop FUEL p argc
             setArg argc none) (fun _ st' => st'.execs = st.execs ∧ st'.lasts = none ∧
        (∀ a, a < p ∨ p + (b :: tail).length ≤ a → st'.mem a = st.mem a) ∧
        (∀ i < argc, st'.new_argv i = st.new_argv i) ∧
        ∃ ptrs, List.Forall₂ (Str st'.mem) ptrs (first :: ws) ∧
          (∀ i (hi : i < ptrs.length), st'.new_argv (argc + i) = some (.ptr ptrs[i])) ∧
          st'.new_argv (argc + ptrs.length) = none) F st₁ := by
    have hfuel : ws.length < FUEL := by
      change argc + 1 + ws.length ≤ 31 at hfits
      change ws.length < 4097
      omega
    rw [wp_bind]
    refine (parseLoop_spec ws hfuel hfits hw hq hed hrest).imp ?_
    rintro n st₂ ⟨rfl, hexecs₂, hlasts₂, hframe₂, hold₂, ptrs, hptrs, hnew₂⟩
    rw [setArg, wp_update]
    have hcount : ptrs.length = ws.length + 1 := hptrs.length_eq
    refine ⟨hexecs₂.trans hexecs₁, hlasts₂, fun a ha => ?_, fun i hi => ?_, ptrs, hptrs,
      fun i hi => ?_, ?_⟩
    · exact (hframe₂ a (by omega)).trans (hsame a ha)
    · change Function.update st₂.new_argv _ none i = _
      rw [Function.update_of_ne (by omega), hold₂ i hi, hargv₁]
    · change Function.update st₂.new_argv _ none (argc + i) = _
      rw [Function.update_of_ne (by omega), hnew₂ i hi]
    · change Function.update st₂.new_argv _ none (argc + ptrs.length) = _
      rw [hcount, show argc + (ws.length + 1) = argc + 1 + ws.length by omega, Function.update_self]
  rcases hcases with ⟨hnil, -, hmem, hlasts⟩ | ⟨tok, toks, q, htoks, -, hq, hstr, hframe, hle, hrest⟩
  · have hargs : argsOf (b :: tail) = [b :: tail] := by rw [argsOf, hnil]
    rw [hargs] at hroom ⊢
    refine hloop [] (b :: tail) (p + (b :: tail).length + 1) (by rwa [hmem]) hroom
      (Nat.lt_succ_self _) (by omega) (Or.inl ⟨hlasts, rfl, rfl⟩) fun a _ => by rw [hmem]
  · have hargs : argsOf (b :: tail) = ((b :: tail).takeWhile (· ∈ blanks) ++ tok) :: toks := by
      rw [argsOf, htoks]
    rw [hargs, List.length_cons] at hroom
    rw [hargs]
    have hq : q = p + ((b :: tail).takeWhile (· ∈ blanks)).length := hq
    have hpre := List.takeWhile_prefix (· ∈ blanks) (l := b :: tail)
    have hfirst : Str st₁.mem p ((b :: tail).takeWhile (· ∈ blanks) ++ tok) := by
      rw [hq] at hstr
      refine hstr.prepend (fun k hk => ?_) fun hmem => h.zero (hpre.subset hmem)
      have hlt := Nat.lt_of_lt_of_le hk hpre.length_le
      rw [hframe _ (Or.inl (by omega)), h.bytes k hlt]
      exact (hpre.getElem hk).symm
    refine hloop toks _ (q + tok.length + 1) hfirst (by omega) ?_ (by omega) hrest fun a ha =>
      hframe a (by omega)
    rw [List.length_append]
    omega

/-- No entry is longer than the line. -/
theorem length_argsOf {line arg : List UInt8} (h : arg ∈ argsOf line) : arg.length ≤ line.length := by
  unfold argsOf at h
  split at h
  case h_1 =>
    rw [List.mem_singleton] at h
    rw [h]
  case h_2 word words hcons =>
    have hmem {run : List UInt8} (hrun : run ∈ word :: words) : run.length ≤ line.length :=
      (of_mem_fields (hcons ▸ hrun)).2.2.length_le
    obtain rfl | h := List.mem_cons.mp h
    · -- the blanks and the first word are at the start of the line
      have hne : line.dropWhile (· ∈ blanks) ≠ [] := fun hnil => by
        rw [tokens, fields_eq_nil hnil] at hcons
        cases hcons
      rw [tokens, fields_eq_cons hne, List.cons.injEq] at hcons
      have hlen := congrArg List.length
        (List.takeWhile_append_dropWhile (p := (· ∈ blanks)) (l := line))
      have hword := (List.takeWhile_prefix (l := line.dropWhile (· ∈ blanks))
        (fun b => !decide (b ∈ blanks))).length_le
      rw [hcons.1] at hword
      rw [List.length_append] at hlen ⊢
      omega
    · exact hmem (List.mem_cons_of_mem _ h)

/-! ### All lines -/

theorem entries_eq {argv : ℕ → Option Arg} (xs : List Arg) {fuel i : ℕ} (hfuel : xs.length < fuel)
    (hsome : ∀ j (hj : j < xs.length), argv (i + j) = some xs[j])
    (hnone : argv (i + xs.length) = none) : entries argv fuel i = xs := by
  induction xs generalizing fuel i with
  | nil =>
    obtain ⟨fuel, rfl⟩ : ∃ f, fuel = f + 1 := ⟨fuel - 1, by omega⟩
    have hi : argv i = none := hnone
    rw [entries, hi]
  | cons x xs ih =>
    obtain ⟨fuel, rfl⟩ : ∃ f, fuel = f + 1 := ⟨fuel - 1, by omega⟩
    have hi : argv i = some x := hsome 0 (Nat.succ_pos _)
    rw [entries, hi]
    simp only
    rw [ih (Nat.lt_of_succ_lt_succ hfuel)]
    · intro j hj
      have hnext := hsome (j + 1) (Nat.succ_lt_succ hj)
      rwa [show i + (j + 1) = i + 1 + j by omega] at hnext
    · rw [← hnone, List.length_cons]
      congr 1
      omega

/-- The vector that is passed for a line. -/
def vectorOf (args : List CString) (line : List UInt8) : List (List UInt8) :=
  args.map Subtype.val ++ argsOf line

/-- The arguments of `xargs` are the first entries. -/
def Given (st : State) (args : List CString) : Prop :=
  ∀ i (hi : i < args.length), st.new_argv i = some (.given args[i])

theorem exec_another_spec {args : List CString} {ptrs : List ℕ} (hgiven : Given st args)
    (hptrs : List.Forall₂ (Str st.mem) ptrs (argsOf w)) (hlen : w.length < FUEL)
    (hroom : args.length + (argsOf w).length ≤ MAXARG)
    (hsome : ∀ i (hi : i < ptrs.length), st.new_argv (args.length + i) = some (.ptr ptrs[i]))
    (hnone : st.new_argv (args.length + ptrs.length) = none) :
    wp exec_another (fun _ st' => st' = { st with execs := st.execs ++ [vectorOf args w] }) F st := by
  have hentries : entries st.new_argv (MAXARG + 1) 0 = args.map .given ++ ptrs.map .ptr := by
    apply entries_eq
    · rw [List.length_append, List.length_map, List.length_map, hptrs.length_eq]
      omega
    · intro j hj
      rw [Nat.zero_add]
      by_cases hlt : j < args.length
      · rw [hgiven j hlt, List.getElem_append_left (by simpa using hlt), List.getElem_map]
      · simp only [List.length_append, List.length_map] at hj
        have hptr := hsome (j - args.length) (by omega)
        rw [show args.length + (j - args.length) = j by omega] at hptr
        rw [hptr, List.getElem_append_right (by simpa using hlt)]
        simp
    · rw [Nat.zero_add, List.length_append, List.length_map, List.length_map]
      exact hnone
  have hargs : (args.map Arg.given).map (content st.mem) = args.map Subtype.val := by
    rw [List.map_map]
    rfl
  have hwords : (ptrs.map Arg.ptr).map (content st.mem) = argsOf w := by
    apply List.ext_getElem
    · rw [List.length_map, List.length_map, hptrs.length_eq]
    · intro i hi hi'
      rw [List.getElem_map, List.getElem_map]
      refine (hptrs.get (by simpa using hi) hi').content ?_
      exact Nat.lt_of_le_of_lt (length_argsOf (List.getElem_mem hi')) hlen
  rw [exec_another, wp_update, hentries, List.map_append, hargs, hwords, vectorOf]

/-- What `nextLine` gives after a line that ends before `q`. -/
def NextLine (st : State) (next : Option ℕ) (q ed : ℕ) (lines : List (List UInt8)) : Prop :=
  (next = none ∧ lines = []) ∨
    ∃ rest, next = some q ∧ Str st.mem q rest ∧ tokens [NEWLINE] rest = lines ∧ q + rest.length = ed

theorem nextLine_spec (hline : Str st.mem p w) (hlen : w.length < FUEL)
    (hrest : Rest st [NEWLINE] (p + w.length + 1) ed toks) :
    wp (nextLine p ed) (fun next st' => st' = st ∧ NextLine st next (p + w.length + 1) ed toks)
      F st := by
  have hend : findDelim st.mem [] FUEL p = some (p + w.length) := by
    rw [findDelim_eq hline hlen, List.takeWhile_eq_self_iff.mpr (by simp)]
  simp only [nextLine, strend, wp_bind, wp_read, hend, stop, wp_pure]
  refine ⟨trivial, ?_⟩
  rcases hrest with ⟨-, htoks, hq⟩ | ⟨rest, -, hstr, htoks, hq⟩
  · rw [if_pos (by omega)]
    exact Or.inl ⟨rfl, htoks⟩
  · rw [if_neg (by omega)]
    exact Or.inr ⟨rest, rfl, hstr, htoks, hq⟩

/-- The lines from `p` on. -/
theorem linesLoop_spec {args : List CString} (lines : List (List UInt8)) {st : State}
    {fuel p q ed : ℕ} {next : Option ℕ} {w : List UInt8} (hfuel : ed < p + fuel)
    (hw : Str st.mem p w) (hne : w ≠ []) (hq : p + w.length < q) (hed : p + w.length ≤ ed)
    (hshort : ed < FUEL) (hnext : NextLine st next q ed lines) (hgiven : Given st args)
    (hroom : ∀ l ∈ w :: lines, args.length + (argsOf l).length ≤ MAXARG) :
    wp (linesLoop args.length ed fuel p next) (fun _ st' =>
      st'.execs = st.execs ++ (w :: lines).map (vectorOf args)) F st := by
  induction fuel generalizing st p q next w lines with
  | zero => omega
  | succ fuel ih =>
    rw [linesLoop, wp_bind]
    have hfits := hroom w List.mem_cons_self
    refine (parse_arg_spec hw hne (by omega) hfits).imp ?_
    intro _ st₁ hpost
    obtain ⟨hexecs₁, hlasts₁, hframe₁, hold₁, ptrs, hptrs, hsome, hnone⟩ := hpost
    have hgiven₁ : Given st₁ args := fun i hi => (hold₁ i hi).trans (hgiven i hi)
    rw [wp_bind]
    refine (exec_another_spec hgiven₁ hptrs (by omega) hfits hsome hnone).imp ?_
    intro _ st₂ hst₂
    have hexecs₂ : st₂.execs = st.execs ++ [vectorOf args w] := by rw [hst₂, ← hexecs₁]
    have hlasts₂ : st₂.lasts = none := by rw [hst₂]; exact hlasts₁
    have hargv₂ : st₂.new_argv = st₁.new_argv := by rw [hst₂]
    have hmem₂ : st₂.mem = st₁.mem := by rw [hst₂]
    rw [wp_bind]
    rcases hnext with ⟨rfl, rfl⟩ | ⟨rest, rfl, hrest, rfl, hrest_end⟩
    · -- the words of the last line used up what `strtok` remembers
      refine (strtok_none hlasts₂ [NEWLINE]).imp ?_
      rintro _ _ ⟨rfl, rfl⟩
      rw [wp_pure, hexecs₂]
      rfl
    · have hrest₂ : Str st₂.mem q rest := hrest.congr fun a ha _ => by
        rw [hmem₂, hframe₁ a (by omega)]
      refine (strtok_spec (o := some q) hrest₂ (by omega) (by decide) rfl).imp ?_
      intro r st₃ hpost
      obtain ⟨hargv₃, hexecs₃, hcases⟩ := hpost
      rcases hcases with ⟨hnil, rfl, -, -⟩ | ⟨l, ls, p', hcons, rfl, hp', hl, -, hle, hrest₃⟩
      · rw [wp_pure, hexecs₃, hexecs₂, hnil]
        rfl
      · rw [hrest_end] at hrest₃ hle
        have hgiven₃ : Given st₃ args := fun i hi => by rw [hargv₃, hargv₂]; exact hgiven₁ i hi
        have hl_ne : l ≠ [] := (of_mem_fields (hcons ▸ List.mem_cons_self)).1
        rw [hcons] at hroom ⊢
        simp only [wp_bind]
        refine (nextLine_spec hl (by omega) hrest₃).imp ?_
        rintro next' _ ⟨rfl, hnext'⟩
        refine (ih ls (by omega) hl hl_ne (Nat.lt_succ_self _) hle hnext' hgiven₃ fun l' hl' =>
          hroom l' (List.mem_cons_of_mem _ hl')).imp ?_
        intro _ st₄ hexecs₄
        rw [hexecs₄, hexecs₃, hexecs₂, List.append_assoc]
        rfl

theorem exec_by_args_spec {args : List CString} (hinput : Str st.mem 0 bs) (hshort : bs.length < FUEL)
    (hgiven : Given st args)
    (hroom : ∀ l ∈ tokens [NEWLINE] bs, args.length + (argsOf l).length ≤ MAXARG) :
    wp (exec_by_args 0 args.length) (fun _ st' =>
      st'.execs = st.execs ++ (tokens [NEWLINE] bs).map (vectorOf args)) F st := by
  have hend : findDelim st.mem [] FUEL 0 = some bs.length := by
    rw [findDelim_eq hinput hshort, List.takeWhile_eq_self_iff.mpr (by simp), Nat.zero_add]
  simp only [exec_by_args, strend, wp_bind, wp_read, hend, stop, wp_pure]
  refine (strtok_spec (o := some 0) hinput hshort (by decide) rfl).imp ?_
  intro r st₁ hpost
  obtain ⟨hargv₁, hexecs₁, hcases⟩ := hpost
  rcases hcases with ⟨hnil, rfl, -, -⟩ | ⟨l, ls, p, hcons, rfl, hp, hl, -, hle, hrest⟩
  · rw [wp_pure, hexecs₁, hnil, List.map_nil, List.append_nil]
  · rw [Nat.zero_add] at hle hrest
    rw [hcons] at hroom ⊢
    have hl_ne : l ≠ [] := (of_mem_fields (hcons ▸ List.mem_cons_self)).1
    have hgiven₁ : Given st₁ args := fun i hi => by rw [hargv₁]; exact hgiven i hi
    simp only [wp_bind]
    refine (nextLine_spec hl (by omega) hrest).imp ?_
    rintro next _ ⟨rfl, hnext⟩
    refine (linesLoop_spec ls (by omega) hl hl_ne (Nat.lt_succ_self _) hle hshort hnext hgiven₁
      hroom).imp ?_
    intro _ st₂ hexecs₂
    rw [hexecs₂, hexecs₁]

end Tokens

/-! ### The vectors -/

/-- The lines of a text that are not empty, and the words of a line. -/
def lines (input : List UInt8) : List (List UInt8) := tokens [NEWLINE] input

def words (line : List UInt8) : List (List UInt8) := tokens blanks line

/-- What `xargs` is for: the arguments and the words of each line that has some. -/
def commands (args : List CString) (input : List UInt8) : List (List (List UInt8)) :=
  ((lines input).filter fun line => words line ≠ []).map fun line =>
    args.map Subtype.val ++ words line

/-- What `xargs` does. -/
theorem execs_eq {args : List CString} {input : CString} (hne : args ≠ [])
    (hshort : input.1.length < SBUFSIZE)
    (hroom : ∀ l ∈ lines input.1, args.length + (argsOf l).length ≤ MAXARG) :
    execs args input.1 = some ((lines input.1).map (vectorOf args)) := by
  have hinput : Str (Mem.splice (fun _ => 0) 0 input.1) 0 input.1 :=
    ⟨fun k hk => Mem.splice_in hk, Mem.splice_out (Or.inr le_rfl), input.2⟩
  have hgiven : Given ⟨Mem.splice (fun _ => 0) 0 input.1, none,
      fun i => (args[i]?).map .given, []⟩ args := by
    intro i hi
    simp [hi]
  have hspec : wp (main args input.1) (fun _ st' => st'.execs = (lines input.1).map (vectorOf args))
      (fun _ => False) ⟨fun _ => 0, none, fun _ => none, []⟩ := by
    simp only [main]
    rw [if_neg hne, wp_bind, wp_update, wp_bind, wp_update]
    exact exec_by_args_spec hinput (Nat.lt_succ_of_lt hshort) hgiven hroom
  obtain ⟨u, st', hrun, hexecs⟩ := hspec.returns
  rw [execs, hrun]
  exact congrArg some hexecs

/-- The entries of a line are its words unless it begins with a blank. -/
theorem argsOf_eq_words {line : List UInt8} (hne : line ≠ []) :
    argsOf line = words line ↔ ∀ c ∈ line.head?, c ∉ blanks := by
  obtain ⟨c, rest, rfl⟩ := List.exists_cons_of_ne_nil hne
  have hhead : (∀ c' ∈ (c :: rest).head?, c' ∉ blanks) ↔ c ∉ blanks := by simp
  rw [hhead]
  constructor
  · intro heq hc
    cases hwords : words (c :: rest) with
    | nil =>
      rw [hwords, argsOf, show tokens blanks (c :: rest) = [] from hwords] at heq
      cases heq
    | cons word ws =>
      rw [hwords, argsOf, show tokens blanks (c :: rest) = word :: ws from hwords, List.cons.injEq,
        List.append_left_eq_self, List.takeWhile_cons_of_pos (by simpa using hc)] at heq
      cases heq.1
  · intro hc
    have hdrop : (c :: rest).dropWhile (· ∈ blanks) = c :: rest :=
      List.dropWhile_cons_of_neg (by simpa using hc)
    unfold argsOf words
    cases hwords : tokens blanks (c :: rest) with
    | nil =>
      rw [tokens, fields_eq_nil_iff, hdrop] at hwords
      cases hwords
    | cons word ws =>
      simp only
      rw [List.takeWhile_cons_of_neg (by simpa using hc), List.nil_append]

theorem length_argsOf_le {args : List CString} {line : List UInt8} (hargs : args.length < MAXARG)
    (hfit : words line ≠ [] → args.length + (words line).length ≤ MAXARG) :
    args.length + (argsOf line).length ≤ MAXARG := by
  unfold argsOf
  cases hwords : tokens blanks line with
  | nil => exact hargs
  | cons word ws =>
    have hle := hfit (by rw [words, hwords]; simp)
    rwa [words, hwords] at hle

/-- **When `xargs` runs one command per line with the words of the line**: exactly when no line
begins with a blank. Without a command it runs nothing, which is right when there are no words.
The program itself and its arguments are at most `MAXARG` strings. -/
theorem xargs_runs (args : List CString) (input : CString) (hargs : args.length < MAXARG)
    (hshort : input.1.length < SBUFSIZE)
    (hfit : ∀ line ∈ lines input.1, words line ≠ [] → args.length + (words line).length ≤ MAXARG) :
    execs args input.1 = some (commands args input.1) ↔
      if args = [] then ∀ line ∈ lines input.1, words line = []
      else ∀ line ∈ lines input.1, ∀ c ∈ line.head?, c ∉ blanks := by
  by_cases hnil : args = []
  · subst hnil
    have hnone : execs [] input.1 = some [] := rfl
    rw [if_pos rfl, hnone, Option.some_inj, eq_comm, commands, List.map_eq_nil_iff,
      List.filter_eq_nil_iff]
    simp
  · rw [if_neg hnil, execs_eq hnil hshort fun line hline => length_argsOf_le hargs (hfit line hline),
      Option.some_inj]
    have hline_ne (line : List UInt8) (hline : line ∈ lines input.1) : line ≠ [] :=
      (of_mem_fields hline).1
    constructor
    · intro heq line hline
      -- as many vectors as lines, so every line has words
      have hall : (lines input.1).filter (fun line => words line ≠ []) = lines input.1 := by
        have hlen := congrArg List.length heq
        rw [commands, List.length_map, List.length_map] at hlen
        exact List.filter_eq_self.mpr (List.length_filter_eq_length_iff.mp hlen.symm)
      rw [commands, hall] at heq
      have hvector := List.map_inj_left.mp heq line hline
      exact (argsOf_eq_words (hline_ne line hline)).mp (List.append_cancel_left hvector)
    · intro hheads
      have hargsOf (line : List UInt8) (hline : line ∈ lines input.1) : argsOf line = words line :=
        (argsOf_eq_words (hline_ne line hline)).mpr (hheads line hline)
      have hall : (lines input.1).filter (fun line => words line ≠ []) = lines input.1 := by
        rw [List.filter_eq_self]
        intro line hline
        rw [← hargsOf line hline]
        unfold argsOf
        split <;> simp
      rw [commands, hall]
      apply List.map_congr_left
      intro line hline
      rw [vectorOf, hargsOf line hline]

/-- The command `A` on two lines. -/
theorem xargs_runs_two :
    execs [⟨[65], by decide⟩] [97, 32, 98, 10, 99, 10] =
        some (commands [⟨[65], by decide⟩] [97, 32, 98, 10, 99, 10]) ↔
      if [(⟨[65], by decide⟩ : CString)] = [] then
        ∀ line ∈ lines [97, 32, 98, 10, 99, 10], words line = []
      else ∀ line ∈ lines [97, 32, 98, 10, 99, 10], ∀ c ∈ line.head?, c ∉ blanks :=
  xargs_runs [⟨[65], by decide⟩] ⟨[97, 32, 98, 10, 99, 10], by decide⟩ (by decide) (by decide)
    (by decide)

/-- A line that begins with a space: the space is part of the first word. -/
theorem xargs_keeps_blank : ¬ ∀ (args : List CString) (input : CString), args.length < MAXARG →
    input.1.length < SBUFSIZE →
    (∀ line ∈ lines input.1, words line ≠ [] → args.length + (words line).length ≤ MAXARG) →
    execs args input.1 = some (commands args input.1) := by
  intro h
  have hruns := h [⟨[65], by decide⟩] ⟨[32, 97], by decide⟩ (by decide) (by decide) (by decide)
  rw [xargs_runs _ _ (by decide) (by decide) (by decide), if_neg (by decide)] at hruns
  exact absurd hruns (by decide)

end Oslab.Xargs
