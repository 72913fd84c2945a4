/-
# The input buffer of user programs

`scanf.c` reads descriptor 0 into a buffer with two indices. Every byte that a read
delivers is returned once, as long as no read fails: the result of the read is the
new `tail`, and -1 is stored like any other. `getline` cuts what it is given into
lines.
-/
import Oslab.Lib.Transition
import Oslab.Base

namespace Oslab.Scanf

open Lib Lib.Prog

abbrev BUF_SIZE : ℕ := 256

/-- What `read(0, buf, BUF_SIZE)` does: deliver a chunk, or return 0 or -1. -/
inductive ReadResult
  | chunk (bs : { bs : List UInt8 // bs ≠ [] ∧ bs.length ≤ BUF_SIZE })
  | eof
  | error

namespace ReadResult

def bytes : ReadResult → List UInt8
  | .chunk bs => bs.1
  | .eof | .error => []

def value : ReadResult → ℤ
  | .chunk bs => bs.1.length
  | .eof => 0
  | .error => -1

end ReadResult

/-- The static variables of `scanf.c`, and the results of the reads still to come. The bytes
from `BUF_SIZE` on are those that lie behind `buf`. -/
structure Stdin where
  buf : Mem
  head : ℤ
  tail : ℤ
  input : ℕ → ReadResult

abbrev StdinM := Prog Empty Stdin

/-- `read(0, buf, BUF_SIZE)` -/
def readInput : StdinM ℤ := do
  let r ← read fun s => s.input 0
  update fun s => { s with buf := s.buf.splice 0 r.bytes, input := fun k => s.input (k + 1) }
  pure r.value

def refill : StdinM ℤ := do
  update fun s => { s with head := 0 }
  let n ← readInput
  update fun s => { s with tail := n }
  pure n

/-- `head == tail && refill() == 0` -/
def drained : StdinM Bool := do
  let empty ← read fun s => decide (s.head = s.tail)
  if empty then (fun n => decide (n = 0)) <$> refill
  else pure false

/-- `head` starts at 0 and only grows until it is set to 0 again. -/
def getchar : StdinM UInt8 := do
  if ← drained then pure 0
  else
    let ch ← read fun s => s.buf s.head.toNat
    update fun s => { s with head := s.head + 1 }
    pure ch

def peekchar : StdinM UInt8 := do
  if ← drained then pure 0
  else read fun s => s.buf s.head.toNat

/-- The first loop of `gets`: the characters it stores, and whether it goes to `fin`. -/
def getsLoop (delim : List UInt8) (contain : Bool) : ℕ → StdinM (List UInt8 × Bool)
  | 0 => pure ([], false)
  | n + 1 => do
    let ch ← peekchar
    if ch = 0 then pure ([], true)
    else if ch ∈ delim then
      if contain then
        let ch ← getchar
        pure ([ch], true)
      else pure ([], true)
    else
      let ch ← getchar
      let (chs, fin) ← getsLoop delim contain n
      pure (ch :: chs, fin)

/-- The second loop of `gets`, for `fuel` rounds. -/
def throwLoop (delim : List UInt8) : ℕ → StdinM Unit
  | 0 => pure ()
  | fuel + 1 => do
    let ch ← peekchar
    if ch = 0 ∨ ch ∈ delim then pure ()
    else
      let _ ← getchar
      throwLoop delim fuel

/-- The bytes stored from `*buf` on. `fuel` bounds what is thrown away, if anything is. -/
def gets (fuel : ℕ) (size : UInt32) (delim : List UInt8) (throw contain : Bool) :
    StdinM (List UInt8) := do
  let (chs, fin) ← getsLoop delim contain (size - 1).toNat
  if throw = true ∧ fin = false then throwLoop delim fuel
  pure (chs ++ [0])

def getline (size : UInt32) : StdinM (List UInt8) := gets 0 size [NEWLINE] false true

/-! ### The bytes in the buffer -/

namespace Stdin

variable {s s' : Stdin} {bs : List UInt8} {F : Empty → Prop}

structure InBounds (s : Stdin) : Prop where
  head : 0 ≤ s.head
  tail : s.head ≤ s.tail
  size : s.tail ≤ 256

/-- The bytes that were delivered and not returned are those between the indices. -/
structure Holds (s : Stdin) (bs : List UInt8) : Prop where
  bounds : s.InBounds
  bytes : s.buf.slice s.head.toNat (s.tail - s.head).toNat = bs

theorem Holds.length (h : s.Holds bs) : (bs.length : ℤ) = s.tail - s.head := by
  have hle := h.bounds.tail
  have hlen := congrArg List.length h.bytes
  rw [Mem.length_slice] at hlen
  omega

theorem Holds.empty_iff (h : s.Holds bs) : s.head = s.tail ↔ bs = [] := by
  have hlen := h.length
  rw [← List.length_eq_zero_iff]
  omega

/-- The indices are equal when nothing is left, and the read that follows does not fail. -/
theorem refill_spec (s : Stdin) (hread : s.input 0 ≠ .error) :
    wp refill (fun n s' => s'.Holds (s.input 0).bytes ∧ (n = 0 ↔ (s.input 0).bytes = []) ∧
      s'.input = fun k => s.input (k + 1)) F s := by
  simp only [refill, readInput, wp_bind, wp_update, wp_read, wp_pure]
  cases hr : s.input 0 with
  | chunk bs =>
    obtain ⟨hne, hle⟩ := bs.2
    have hlen : bs.1.length ≤ 256 := hle
    refine ⟨⟨⟨le_rfl, ?_, ?_⟩, ?_⟩, ?_, trivial⟩
    · simp [ReadResult.value]
    · simp only [ReadResult.value]
      omega
    · simp [ReadResult.value, ReadResult.bytes, Mem.slice_splice_self]
    · simp [ReadResult.value, ReadResult.bytes]
  | eof =>
    refine ⟨⟨⟨le_rfl, le_rfl, ?_⟩, ?_⟩, ?_, trivial⟩
    · simp [ReadResult.value]
    · simp [ReadResult.value, ReadResult.bytes]
    · simp [ReadResult.value, ReadResult.bytes]
  | error => exact (hread hr).elim

/-- The byte at `head`. -/
theorem Holds.head_byte {b : UInt8} (h : s.Holds (b :: bs)) : s.buf s.head.toNat = b := by
  have hlen := h.length
  rw [List.length_cons] at hlen
  have hget := congrArg (fun l => l.getD 0 0) h.bytes
  simp only [List.getD_cons_zero] at hget
  rwa [Mem.getD_slice (by omega)] at hget

theorem Holds.next {b : UInt8} (h : s.Holds (b :: bs)) :
    Stdin.Holds { s with head := s.head + 1 } bs := by
  obtain ⟨⟨hhead, htail, hsize⟩, hbytes⟩ := h
  have hlen := Holds.length ⟨⟨hhead, htail, hsize⟩, hbytes⟩
  rw [List.length_cons] at hlen
  refine ⟨⟨by change 0 ≤ s.head + 1; omega, by change s.head + 1 ≤ s.tail; omega, hsize⟩, ?_⟩
  change s.buf.slice (s.head + 1).toNat (s.tail - (s.head + 1)).toNat = bs
  have htl := congrArg (List.drop 1) hbytes
  rw [Mem.slice_drop] at htl
  rw [show (s.head + 1).toNat = s.head.toNat + 1 by omega,
    show (s.tail - (s.head + 1)).toNat = (s.tail - s.head).toNat - 1 by omega]
  exact htl

/-- The bytes that a call finds: those in the buffer, or those of the read it makes. -/
def Finds (s : Stdin) (bs : List UInt8) (s' : Stdin) (bs' : List UInt8) : Prop :=
  (bs ≠ [] ∧ bs' = bs ∧ s' = s) ∨
    (bs = [] ∧ bs' = (s.input 0).bytes ∧ s'.input = fun k => s.input (k + 1))

theorem drained_spec (h : s.Holds bs) (hread : bs = [] → s.input 0 ≠ .error) :
    wp drained (fun empty s' => ∃ bs', s'.Holds bs' ∧ s.Finds bs s' bs' ∧
      (empty = true ↔ bs' = [])) F s := by
  rw [drained, wp_bind, wp_read]
  by_cases hempty : s.head = s.tail
  · have hnil := h.empty_iff.mp hempty
    rw [decide_eq_true hempty, if_pos rfl, wp_map]
    refine (refill_spec s (hread hnil)).imp ?_
    intro n s' hpost
    obtain ⟨hholds, hn, hinput⟩ := hpost
    exact ⟨_, hholds, Or.inr ⟨hnil, rfl, hinput⟩, by rw [decide_eq_true_iff, hn]⟩
  · rw [decide_eq_false hempty]
    simp only [Bool.false_eq_true, if_false, wp_pure]
    have hne : bs ≠ [] := fun hnil => hempty (h.empty_iff.mpr hnil)
    exact ⟨bs, h, Or.inl ⟨hne, rfl, rfl⟩, by simpa using hne⟩

/-- `peekchar` returns the first byte it finds, and leaves it there. -/
theorem peekchar_spec (h : s.Holds bs) (hread : bs = [] → s.input 0 ≠ .error) :
    wp peekchar (fun ch s' => ∃ bs', s'.Holds bs' ∧ s.Finds bs s' bs' ∧ ch = bs'.headD 0) F s := by
  rw [peekchar, wp_bind]
  refine (drained_spec h hread).imp ?_
  intro empty s' hpost
  obtain ⟨bs', hholds, hfinds, hempty⟩ := hpost
  cases bs' with
  | nil =>
    rw [hempty.mpr rfl]
    exact ⟨[], hholds, hfinds, rfl⟩
  | cons b rest =>
    have hfull : empty = false := by simpa using hempty
    rw [hfull]
    exact ⟨_, hholds, hfinds, hholds.head_byte⟩

/-- `getchar` returns it and takes it out. -/
theorem getchar_spec (h : s.Holds bs) (hread : bs = [] → s.input 0 ≠ .error) :
    wp getchar (fun ch s' => ∃ s₁ bs', s.Finds bs s₁ bs' ∧ s'.Holds bs'.tail ∧
      s'.input = s₁.input ∧ ch = bs'.headD 0) F s := by
  rw [getchar, wp_bind]
  refine (drained_spec h hread).imp ?_
  intro empty s' hpost
  obtain ⟨bs', hholds, hfinds, hempty⟩ := hpost
  cases bs' with
  | nil =>
    rw [hempty.mpr rfl]
    exact ⟨s', [], hfinds, hholds, rfl, rfl⟩
  | cons b rest =>
    have hfull : empty = false := by simpa using hempty
    rw [hfull]
    exact ⟨s', _, hfinds, hholds.next, rfl, hholds.head_byte⟩

/-- A call that finds nothing in the buffer when the read fails leaves indices that are none. -/
theorem refill_error (s : Stdin) (hread : s.input 0 = .error) :
    wp refill (fun n s' => n = -1 ∧ s'.head = 0 ∧ s'.tail = -1) F s := by
  simp only [refill, readInput, wp_bind, wp_update, wp_read, wp_pure, hread]
  exact ⟨rfl, trivial, rfl⟩

end Stdin

/-! ### Runs of calls -/

inductive InputCall
  | getchar
  | peekchar
  deriving DecidableEq

def InputCall.run : InputCall → StdinM UInt8
  | .getchar => Scanf.getchar
  | .peekchar => Scanf.peekchar

/-- A call, the result of the read it makes if it makes one, and the character it returns. -/
structure InputEvent where
  call : InputCall
  read : Option ReadResult
  char : UInt8

/-- Calls on the buffer. It is empty at first. -/
def stdin : Lts Stdin InputEvent where
  init s := s.head = 0 ∧ s.tail = 0
  step s ev s' := ev.call.run s = .ok (ev.char, s') ∧
    ev.read = if s.head = s.tail then some (s.input 0) else none

/-- What calls are for: `bs` are the bytes that reads delivered and that were not returned. A call
reads when there are none, and returns the first one; `getchar` takes it out. -/
inductive Delivers : List UInt8 → InputEvent → List UInt8 → Prop
  | get {b : UInt8} {bs : List UInt8} : Delivers (b :: bs) ⟨.getchar, none, b⟩ bs
  | peek {b : UInt8} {bs : List UInt8} : Delivers (b :: bs) ⟨.peekchar, none, b⟩ (b :: bs)
  | readGet {r : ReadResult} {b : UInt8} {bs : List UInt8} :
      r.bytes = b :: bs → Delivers [] ⟨.getchar, some r, b⟩ bs
  | readPeek {r : ReadResult} {b : UInt8} {bs : List UInt8} :
      r.bytes = b :: bs → Delivers [] ⟨.peekchar, some r, b⟩ (b :: bs)
  | readNothing {r : ReadResult} {call : InputCall} :
      r.bytes = [] → Delivers [] ⟨call, some r, 0⟩ []

def delivery : Lts (List UInt8) InputEvent where
  init bs := bs = []
  step := Delivers

/-- The indices stay in the buffer, and every character is a byte that was delivered and not
returned before, or 0 after a read that delivered none. -/
structure Survives (s : Stdin) (evs : List InputEvent) : Prop where
  bounds : ∀ evs' s', evs' <+: evs → stdin.Run s evs' s' → s'.InBounds
  delivered : ∃ bs, delivery.Run [] evs bs

section Runs

variable {s s' : Stdin} {bs : List UInt8} {ev : InputEvent} {evs : List InputEvent}

/-- One call whose read does not fail. -/
theorem Stdin.Holds.step (h : s.Holds bs) (hstep : stdin.step s ev s')
    (hread : ev.read ≠ some .error) : ∃ bs', s'.Holds bs' ∧ Delivers bs ev bs' := by
  obtain ⟨call, r, ch⟩ := ev
  obtain ⟨hrun, hr⟩ := hstep
  simp only at hrun hr hread
  have hne : bs = [] → s.input 0 ≠ .error := by
    intro hnil herror
    rw [hr, if_pos (h.empty_iff.mpr hnil), herror] at hread
    exact hread rfl
  have hheld (b : UInt8) (rest : List UInt8) (hcons : bs = b :: rest) : r = none := by
    rw [hr, if_neg]
    intro hempty
    rw [h.empty_iff.mp hempty] at hcons
    cases hcons
  have hfresh (hnil : bs = []) : r = some (s.input 0) := by
    rw [hr, if_pos (h.empty_iff.mpr hnil)]
  cases call with
  | getchar =>
    obtain ⟨s₁, bs', hfinds, hholds, -, rfl⟩ :=
      (Stdin.getchar_spec (F := fun _ => False) h hne).of_ok hrun
    refine ⟨bs'.tail, hholds, ?_⟩
    rcases hfinds with ⟨hfull, rfl, rfl⟩ | ⟨hnil, hbytes, -⟩
    · obtain ⟨b, rest, rfl⟩ := List.exists_cons_of_ne_nil hfull
      rw [hheld b rest rfl]
      exact .get
    · rw [hfresh hnil, hnil]
      cases bs' with
      | nil => exact .readNothing hbytes.symm
      | cons b rest => exact .readGet hbytes.symm
  | peekchar =>
    obtain ⟨bs', hholds, hfinds, rfl⟩ :=
      (Stdin.peekchar_spec (F := fun _ => False) h hne).of_ok hrun
    refine ⟨bs', hholds, ?_⟩
    rcases hfinds with ⟨hfull, rfl, rfl⟩ | ⟨hnil, hbytes, -⟩
    · obtain ⟨b, rest, rfl⟩ := List.exists_cons_of_ne_nil hfull
      rw [hheld b rest rfl]
      exact .peek
    · rw [hfresh hnil, hnil]
      cases bs' with
      | nil => exact .readNothing hbytes.symm
      | cons b rest => exact .readPeek hbytes.symm

/-- A run without a failing read delivers what it reads. -/
theorem holds_run (hs : stdin.init s) (h : stdin.Run s evs s')
    (hread : ∀ ev ∈ evs, ev.read ≠ some .error) :
    ∃ bs, s'.Holds bs ∧ delivery.Run [] evs bs := by
  induction h with
  | refl =>
    obtain ⟨hhead, htail⟩ := hs
    refine ⟨[], ⟨⟨by omega, by omega, by omega⟩, ?_⟩, .refl []⟩
    rw [hhead, htail]
    rfl
  | tail hrun hstep ih =>
    obtain ⟨bs, hholds, hdelivery⟩ := ih fun ev hev => hread ev (List.mem_append_left _ hev)
    obtain ⟨bs', hholds', hstep'⟩ := hholds.step hstep (hread _ (by simp))
    exact ⟨bs', hholds', hdelivery.tail hstep'⟩

/-- A failing read leaves `tail` below `head`. -/
theorem not_inBounds (hstep : stdin.step s ev s') (hread : ev.read = some .error) :
    ¬ s'.InBounds := by
  obtain ⟨call, r, ch⟩ := ev
  obtain ⟨hrun, hr⟩ := hstep
  simp only at hrun hr hread
  have hempty : s.head = s.tail ∧ s.input 0 = .error := by
    rw [hread] at hr
    split at hr
    case isTrue heq => exact ⟨heq, (Option.some.inj hr).symm⟩
    case isFalse => cases hr
  have hdrained : wp drained (fun empty s' => empty = false ∧ s'.head = 0 ∧ s'.tail = -1)
      (fun _ => False) s := by
    rw [drained, wp_bind, wp_read, decide_eq_true hempty.1, if_pos rfl, wp_map]
    refine (Stdin.refill_error s hempty.2).imp ?_
    rintro n s' ⟨rfl, hhead, htail⟩
    exact ⟨rfl, hhead, htail⟩
  intro hbounds
  have hle := hbounds.tail
  cases call with
  | getchar =>
    have hspec : wp getchar (fun _ s' => s'.head = 1 ∧ s'.tail = -1) (fun _ => False) s := by
      rw [getchar, wp_bind]
      refine hdrained.imp ?_
      rintro _ s₁ ⟨rfl, hhead, htail⟩
      simp [hhead, htail]
    obtain ⟨hhead, htail⟩ := hspec.of_ok hrun
    omega
  | peekchar =>
    have hspec : wp peekchar (fun _ s' => s'.head = 0 ∧ s'.tail = -1) (fun _ => False) s := by
      rw [peekchar, wp_bind]
      refine hdrained.imp ?_
      rintro _ s₁ ⟨rfl, hhead, htail⟩
      simp [hhead, htail]
    obtain ⟨hhead, htail⟩ := hspec.of_ok hrun
    omega

end Runs

/-- **Buffered input survives exactly the runs in which no read fails.** -/
theorem input_survives {s s' : Stdin} {evs : List InputEvent} (hs : stdin.init s)
    (h : stdin.Run s evs s') : Survives s evs ↔ ∀ ev ∈ evs, ev.read ≠ some .error := by
  constructor
  · intro hsurvives ev hev hread
    obtain ⟨evs₁, evs₂, rfl⟩ := List.append_of_mem hev
    obtain ⟨t, hrun, hrest⟩ := h.of_append
    obtain ⟨t', hstep, -⟩ := hrest.of_cons
    refine not_inBounds hstep hread (hsurvives.bounds (evs₁ ++ [ev]) t' ?_ (hrun.tail hstep))
    exact ⟨evs₂, by simp⟩
  · intro hread
    constructor
    · intro evs' t hpre hrun
      obtain ⟨bs, hholds, -⟩ := holds_run hs hrun fun ev hev => hread ev (hpre.subset hev)
      exact hholds.bounds
    · obtain ⟨bs, -, hdelivery⟩ := holds_run hs h hread
      exact ⟨bs, hdelivery⟩

/-- "ab", the end of the input, and then "c". -/
def someInput : ℕ → ReadResult
  | 0 => .chunk ⟨[97, 98], by decide⟩
  | 1 => .eof
  | _ => .chunk ⟨[99], by decide⟩

/-- The calls that return it. -/
def someCalls : List InputEvent :=
  [⟨.peekchar, some (.chunk ⟨[97, 98], by decide⟩), 97⟩, ⟨.getchar, none, 97⟩,
    ⟨.getchar, none, 98⟩, ⟨.getchar, some .eof, 0⟩,
    ⟨.getchar, some (.chunk ⟨[99], by decide⟩), 99⟩]

/-- What is typed before and after the end of the input is returned byte by byte. -/
theorem input_survives_some :
    (∃ s', stdin.Run ⟨fun _ => 0, 0, 0, someInput⟩ someCalls s') ∧
      (Survives ⟨fun _ => 0, 0, 0, someInput⟩ someCalls ↔
        ∀ ev ∈ someCalls, ev.read ≠ some .error) ∧
      Survives ⟨fun _ => 0, 0, 0, someInput⟩ someCalls := by
  obtain ⟨s', hrun⟩ : ∃ s', stdin.Run ⟨fun _ => 0, 0, 0, someInput⟩ someCalls s' :=
    ⟨_, .head ⟨rfl, rfl⟩ <| .head ⟨rfl, rfl⟩ <| .head ⟨rfl, rfl⟩ <| .head ⟨rfl, rfl⟩ <|
      .single ⟨rfl, rfl⟩⟩
  have hiff := input_survives ⟨rfl, rfl⟩ hrun
  refine ⟨⟨s', hrun⟩, hiff, hiff.mpr ?_⟩
  simp [someCalls]

/-- "a" and the end of its line, after which no read succeeds. -/
def lostInput : ℕ → ReadResult
  | 0 => .chunk ⟨[97, NEWLINE], by decide⟩
  | _ => .error

/-- A line is read, and then descriptor 0 is closed: `getchar` returns the line again. -/
theorem input_lost : ¬ ∀ s evs s', stdin.init s → stdin.Run s evs s' → Survives s evs := by
  intro h
  obtain ⟨s', hrun⟩ : ∃ s', stdin.Run ⟨fun _ => 0, 0, 0, lostInput⟩
      [⟨.getchar, some (.chunk ⟨[97, NEWLINE], by decide⟩), 97⟩, ⟨.getchar, none, NEWLINE⟩,
        ⟨.getchar, some .error, 97⟩] s' :=
    ⟨_, .head ⟨rfl, rfl⟩ <| .head ⟨rfl, rfl⟩ <| .single ⟨rfl, rfl⟩⟩
  obtain ⟨bs, hdelivers⟩ := (h _ _ _ ⟨rfl, rfl⟩ hrun).delivered
  obtain ⟨_, -, hrest⟩ := hdelivers.of_cons
  obtain ⟨_, -, hlast⟩ := hrest.of_cons
  cases hlast.of_single with
  | readGet hbytes => cases hbytes

end Oslab.Scanf
