/-
# Reading lines

However a stream is split into chunks, calls of `getline` cut it into pieces, and no
byte of it is lost between them.
-/
import Oslab.Scanf

namespace Oslab.Scanf

open Lib Lib.Prog

/-- What one read of descriptor 0 can deliver. -/
abbrev Chunk := { bs : List UInt8 // bs ≠ [] ∧ bs.length ≤ BUF_SIZE }

/-- The bytes of a stream that is delivered in chunks. -/
def stream (chunks : List Chunk) : List UInt8 := (chunks.map Subtype.val).flatten

/-- The reads that deliver the chunks and then return 0. -/
def feed (chunks : List Chunk) (k : ℕ) : ReadResult :=
  match chunks[k]? with
  | some c => .chunk c
  | none => .eof

/-- One call of `getline` for each size. -/
def getlines : List UInt32 → StdinM (List (List UInt8))
  | [] => pure []
  | size :: sizes => do
    let line ← getline size
    let lines ← getlines sizes
    pure (line :: lines)

/-- What a call may return when `rest` is left after it. -/
structure Line (size : ℕ) (str rest : List UInt8) : Prop where
  newline : ∀ i (hi : i < str.length), str[i] = NEWLINE → i + 1 = str.length
  length : str.length ≤ size - 1
  ends : str.getLast? = some NEWLINE ∨ str.length = size - 1 ∨ rest = []

/-- The bytes still to be returned: those in the buffer and those of the reads to come. -/
def Stdin.Left (s : Stdin) (bytes : List UInt8) : Prop :=
  ∃ bs chunks, s.Holds bs ∧ s.input = feed chunks ∧ bytes = bs ++ stream chunks

section

variable {s s' : Stdin} {b : UInt8} {bs bs' bytes : List UInt8} {chunks : List Chunk}
  {F : Empty → Prop}

theorem feed_ne_error (chunks : List Chunk) (k : ℕ) : feed chunks k ≠ .error := by
  unfold feed
  split <;> simp

theorem feed_tail (chunks : List Chunk) : (fun k => feed chunks (k + 1)) = feed chunks.tail := by
  funext k
  cases chunks <;> rfl

theorem stream_eq (chunks : List Chunk) :
    stream chunks = (feed chunks 0).bytes ++ stream chunks.tail := by
  cases chunks <;> rfl

/-- A call finds the next bytes, wherever the chunks end. -/
theorem Stdin.Finds.left (h : s.Finds bs s' bs') (hinput : s.input = feed chunks) :
    ∃ chunks', s'.input = feed chunks' ∧ bs ++ stream chunks = bs' ++ stream chunks' ∧
      (bs' = [] → bs ++ stream chunks = []) := by
  rcases h with ⟨hne, rfl, rfl⟩ | ⟨rfl, rfl, hinput'⟩
  · exact ⟨chunks, hinput, rfl, fun hnil => (hne hnil).elim⟩
  · refine ⟨chunks.tail, ?_, ?_, ?_⟩
    · rw [hinput', hinput, feed_tail]
    · rw [hinput, List.nil_append, ← stream_eq]
    · intro hnil
      rw [hinput] at hnil
      cases chunks with
      | nil => rfl
      | cons c chunks => exact (c.2.1 hnil).elim

theorem Stdin.Left.peekchar (h : s.Left bytes) :
    wp Scanf.peekchar (fun ch s' => ch = bytes.headD 0 ∧ s'.Left bytes) F s := by
  obtain ⟨bs, chunks, hholds, hinput, rfl⟩ := h
  refine (Stdin.peekchar_spec hholds fun _ => hinput ▸ feed_ne_error chunks 0).imp ?_
  rintro _ s' ⟨bs', hholds', hfinds, rfl⟩
  obtain ⟨chunks', hinput', heq, hnil⟩ := hfinds.left hinput
  refine ⟨?_, bs', chunks', hholds', hinput', heq⟩
  cases bs' with
  | nil => rw [hnil rfl]
  | cons b rest => rw [heq, List.cons_append, List.headD_cons, List.headD_cons]

theorem Stdin.Left.getchar (h : s.Left (b :: bytes)) :
    wp Scanf.getchar (fun ch s' => ch = b ∧ s'.Left bytes) F s := by
  obtain ⟨bs, chunks, hholds, hinput, hbytes⟩ := h
  refine (Stdin.getchar_spec hholds fun _ => hinput ▸ feed_ne_error chunks 0).imp ?_
  rintro _ s' ⟨s₁, bs', hfinds, hholds', hsame, rfl⟩
  obtain ⟨chunks', hinput', heq, hnil⟩ := hfinds.left hinput
  rw [← hbytes] at heq hnil
  cases bs' with
  | nil => cases hnil rfl
  | cons b' rest =>
    rw [List.cons_append, List.cons.injEq] at heq
    exact ⟨heq.1.symm, rest, chunks', hholds', hsame.trans hinput', heq.2⟩

/-- The loop of `getline` with room for `n` characters. -/
theorem getsLoop_spec (n : ℕ) (h : s.Left bytes) (hzero : (0 : UInt8) ∉ bytes) :
    wp (getsLoop [NEWLINE] true n) (fun r s' => ∃ rest, bytes = r.1 ++ rest ∧ s'.Left rest ∧
      Line (n + 1) r.1 rest) F s := by
  induction n generalizing s bytes with
  | zero => exact ⟨bytes, rfl, h, by simp, by simp, Or.inr (Or.inl rfl)⟩
  | succ n ih =>
    simp only [getsLoop, wp_bind]
    refine h.peekchar.imp ?_
    rintro _ s₁ ⟨rfl, h₁⟩
    cases bytes with
    | nil => exact ⟨[], rfl, h₁, by simp, by simp, Or.inr (Or.inr rfl)⟩
    | cons b bytes =>
      have hb : b ≠ 0 := fun heq => hzero (heq ▸ List.mem_cons_self)
      rw [List.headD_cons, if_neg hb]
      by_cases hnl : b = NEWLINE
      · -- a newline is the last character
        rw [if_pos (by simpa using hnl), if_pos trivial, wp_bind]
        refine h₁.getchar.imp ?_
        rintro _ s₂ ⟨rfl, h₂⟩
        refine ⟨bytes, rfl, h₂, ?_, by simp, Or.inl (by simp [hnl])⟩
        intro i hi _
        simp only [List.length_singleton] at hi ⊢
        omega
      · rw [if_neg (by simpa using hnl), wp_bind]
        refine h₁.getchar.imp ?_
        intro ch s₂ hpost
        obtain ⟨hch, h₂⟩ := hpost
        obtain rfl := hch.symm
        rw [wp_bind]
        refine (ih h₂ fun hmem => hzero (List.mem_cons_of_mem _ hmem)).imp ?_
        rintro ⟨chs, fin⟩ s₃ ⟨rest, rfl, h₃, hline⟩
        have hline : Line (n + 1) chs rest := hline
        have hnewline : ∀ i (hi : i < (b :: chs).length), (b :: chs)[i] = NEWLINE →
            i + 1 = (b :: chs).length := by
          intro i hi heq
          cases i with
          | zero => exact (hnl heq).elim
          | succ i =>
            have hlast := hline.newline i (Nat.lt_of_succ_lt_succ hi) heq
            rw [List.length_cons, hlast]
        have hlen := hline.length
        refine ⟨rest, rfl, h₃, hnewline, ?_, ?_⟩
        · change (b :: chs).length ≤ _
          rw [List.length_cons]
          omega
        · change (b :: chs).getLast? = _ ∨ (b :: chs).length = _ ∨ _
          rw [List.length_cons]
          rcases hline.ends with hlast | hfull | hend
          · cases chs with
            | nil => cases hlast
            | cons => exact Or.inl (by simpa using hlast)
          · exact Or.inr (Or.inl (by omega))
          · exact Or.inr (Or.inr hend)

theorem getline_spec {size : UInt32} (hsize : size ≠ 0) (h : s.Left bytes)
    (hzero : (0 : UInt8) ∉ bytes) :
    wp (getline size) (fun line s' => ∃ chs rest, line = chs ++ [0] ∧ bytes = chs ++ rest ∧
      s'.Left rest ∧ Line size.toNat chs rest) F s := by
  have hpred : (size - 1).toNat + 1 = size.toNat := by
    have hpos : 0 < size.toNat := by
      rw [Nat.pos_iff_ne_zero, ← UInt32.toNat_zero]
      exact fun heq => hsize (UInt32.toNat_inj.mp heq)
    rw [UInt32.toNat_sub_of_le _ _ (by rw [UInt32.le_iff_toNat_le]; exact hpos)]
    exact Nat.sub_add_cancel hpos
  rw [getline, gets, wp_bind]
  refine (getsLoop_spec (size - 1).toNat h hzero).imp ?_
  rintro ⟨chs, fin⟩ s' ⟨rest, rfl, h', hline⟩
  rw [hpred] at hline
  exact ⟨chs, rest, rfl, rfl, h', hline⟩

theorem getlines_spec (sizes : List UInt32) (hsizes : ∀ size ∈ sizes, size ≠ 0) (h : s.Left bytes)
    (hzero : (0 : UInt8) ∉ bytes) :
    wp (getlines sizes) (fun strs _ => ∃ (lines : List (List UInt8)) (rest : List UInt8),
      strs = lines.map (· ++ [0]) ∧
      bytes = lines.flatten ++ rest ∧ lines.length = sizes.length ∧
      ∀ k (hk : k < lines.length) (hk' : k < sizes.length),
        Line sizes[k].toNat lines[k] ((lines.drop (k + 1)).flatten ++ rest)) F s := by
  induction sizes generalizing s bytes with
  | nil => exact ⟨[], bytes, rfl, rfl, rfl, by simp⟩
  | cons size sizes ih =>
    simp only [getlines, wp_bind, wp_pure]
    refine (getline_spec (hsizes size List.mem_cons_self) h hzero).imp ?_
    rintro _ s₁ ⟨chs, rest, rfl, rfl, h₁, hline⟩
    refine (ih (fun size' hmem => hsizes size' (List.mem_cons_of_mem _ hmem)) h₁ fun hmem =>
      hzero (List.mem_append_right _ hmem)).imp ?_
    rintro _ s₂ ⟨lines, rest', rfl, rfl, hlen, hlines⟩
    refine ⟨chs :: lines, rest', rfl, by simp, by simp [hlen], fun k hk hk' => ?_⟩
    cases k with
    | zero => exact hline
    | succ k => exact hlines k (Nat.lt_of_succ_lt_succ hk) (Nat.lt_of_succ_lt_succ hk')

end

/-- **Lines partition the input.** However the stream is split into chunks, the strings that calls
of `getline` return are pieces of it, one after the other. A newline is at most the last
character of a string, and a string without one is as long as its size allows or the last. -/
theorem getline_partitions (chunks : List Chunk) (hzero : (0 : UInt8) ∉ stream chunks)
    (sizes : List UInt32) (hsizes : ∀ size ∈ sizes, size ≠ 0) (buf : Mem) :
    ∃ (lines : List (List UInt8)) (rest : List UInt8) (s' : Stdin),
      getlines sizes ⟨buf, 0, 0, feed chunks⟩ = .ok (lines.map (· ++ [0]), s') ∧
      stream chunks = lines.flatten ++ rest ∧ lines.length = sizes.length ∧
      ∀ k (hk : k < lines.length) (hk' : k < sizes.length),
        Line sizes[k].toNat lines[k] ((lines.drop (k + 1)).flatten ++ rest) := by
  have hleft : Stdin.Left ⟨buf, 0, 0, feed chunks⟩ (stream chunks) :=
    ⟨[], chunks, ⟨⟨le_rfl, le_rfl, by norm_num⟩, rfl⟩, rfl, rfl⟩
  obtain ⟨strs, s', hrun, lines, rest, rfl, hbytes, hlen, hlines⟩ :=
    (getlines_spec sizes hsizes hleft hzero).returns
  exact ⟨lines, rest, s', hrun, hbytes, hlen, hlines⟩

/-- The stream `ab`, newline, `c` in two chunks, and sizes that cut the first line. -/
theorem getline_partitions_three :
    ∃ (lines : List (List UInt8)) (rest : List UInt8) (s' : Stdin), getlines [2, 5, 5]
        ⟨fun _ => 0, 0, 0, feed [⟨[97], by decide⟩, ⟨[98, 10, 99], by decide⟩]⟩ =
          .ok (lines.map (· ++ [0]), s') ∧
      stream [⟨[97], by decide⟩, ⟨[98, 10, 99], by decide⟩] = lines.flatten ++ rest ∧
      lines.length = 3 ∧ ∀ k (hk : k < lines.length) (hk' : k < [2, 5, 5].length),
        Line ([2, 5, 5] : List UInt32)[k].toNat lines[k] ((lines.drop (k + 1)).flatten ++ rest) :=
  getline_partitions [⟨[97], by decide⟩, ⟨[98, 10, 99], by decide⟩] (by decide) [2, 5, 5]
    (by simp) fun _ => 0

end Oslab.Scanf
