/-
# The terminal

What is typed goes into a ring of 256 characters and is read from there. As long
as a character is typed only while there is room in the ring, readers are given
the lines that have been typed, after editing, from their beginning. Nothing
checks that there is room: the next character overwrites one that nobody has
read yet. And a credit is not a character: a reader that is woken takes the first
one there is when it runs, which is a later one if another reader ran before it.
-/
import Oslab.Semaphores

namespace Oslab

open Lib Lib.Prog

variable {s s' : Kernel} {b b' : Serial} {ch : UInt8} {bs : List UInt8} {F : Abort → Prop}

/-- `getchar`, as far as it runs at once: the rest is `getcharEnd`, when the caller has been
blocked. -/
def getchar : KernelM (Option UInt8) := do
  if ← sem_p .serial then pure none
  else
    let ch ← getcharEnd
    pure (some ch)

/-- `serial_read` reads one character with `getchar` after the other. -/
theorem serial_read_getchar (n : ℕ) (got : List UInt8) : serial_read (n + 1) got = getchar >>= fun
    | none => pure (.wait (.getchar n got))
    | some ch => if ch = NEWLINE then pure (.done (.bytes (got ++ [ch])))
      else serial_read n (got ++ [ch]) := by
  rw [serial_read, getchar, bind_assoc]
  congr 1
  funext blocked
  cases blocked with
  | true => rfl
  | false =>
    simp only [Bool.false_eq_true, if_false, bind_assoc, pure_bind]

/-! ### What is typed -/

/-- What a received character does to the line. -/
inductive Stroke
  | char (ch : UInt8)
  | erase
  deriving DecidableEq

/-- The characters that are received, up to an escape sequence. -/
def strokes : List UInt8 → List Stroke
  | [] => []
  | ch :: rest =>
    if ch = 0 then strokes rest
    else if ch = 0x1b then []
    else if ch = 8 ∨ ch = 0x7f then .erase :: strokes rest
    else if ch = 13 then .char NEWLINE :: strokes rest
    else if ch = NEWLINE ∨ 32 ≤ ch ∧ ch < 127 then .char ch :: strokes rest
    else strokes rest

/-- The lines that have been typed, and the line that is being typed. -/
structure Typed where
  committed : List UInt8
  line : List UInt8

/-- Type a character, or erase the last one of the line. -/
def Typed.stroke (t : Typed) : Stroke → Typed
  | .char ch => if ch = NEWLINE then ⟨t.committed ++ t.line ++ [ch], []⟩
    else ⟨t.committed, t.line ++ [ch]⟩
  | .erase => ⟨t.committed, t.line.dropLast⟩

/-! ### What the driver does -/

/-- `sem_v` on the semaphore alone. -/
def Sem.give (sem : Sem) : Sem :=
  match sem.wait_list with
  | _ :: rest => { sem with wait_list := rest }
  | [] => { sem with value := sem.value + 1 }

/-- What a stroke does to the buffer of the driver. -/
def Serial.stroke (b : Serial) : Stroke → Serial
  | .char ch =>
    { buffer := Function.update b.buffer (b.tail % BUFFER_SIZE) ch
      head := b.head
      tail := b.tail + 1
      clapboard := if ch = NEWLINE then b.tail + 1 else b.clapboard
      serial_sem := if ch = NEWLINE then Sem.give^[b.tail + 1 - b.clapboard] b.serial_sem
        else b.serial_sem }
  | .erase => if b.tail > b.clapboard then { b with tail := b.tail - 1 } else b

theorem sem_v_serial : wp (sem_v .serial) (fun _ s' => s'.curr = s.curr ∧
    s'.serial = { s.serial with serial_sem := s.serial.serial_sem.give }) F s := by
  rw [sem_v, wp_bind, wp_read]
  have hsem : s.sem .serial = s.serial.serial_sem := rfl
  unfold Sem.give
  rw [hsem]
  cases s.serial.serial_sem.wait_list with
  | nil =>
    rw [setSem, wp_update]
    exact ⟨rfl, rfl⟩
  | cons q rest =>
    simp only
    rw [wp_bind, setSem, wp_update, proc_addready, modProc, wp_update]
    exact ⟨rfl, rfl⟩

theorem sem_vs_serial (as : List ℕ) : wp (loop (fun _ _ => sem_v .serial) as ()) (fun _ s' =>
    s'.curr = s.curr ∧ s'.serial =
      { s.serial with serial_sem := Sem.give^[as.length] s.serial.serial_sem }) F s := by
  induction as generalizing s with
  | nil => exact ⟨rfl, rfl⟩
  | cons a as ih =>
    rw [loop, wp_bind]
    refine sem_v_serial.imp ?_
    rintro - s₁ ⟨hcurr₁, hs₁⟩
    refine ih.imp ?_
    rintro - s' ⟨hcurr, hs'⟩
    refine ⟨hcurr.trans hcurr₁, ?_⟩
    rw [hs', hs₁]
    rfl

theorem push_back_stroke (ch : UInt8) : wp (push_back ch) (fun _ s' =>
    s'.curr = s.curr ∧ s'.serial = s.serial.stroke (.char ch)) F s := by
  rw [push_back, wp_bind, modSerial, wp_update, wp_ite]
  refine ⟨fun hch => ?_, fun hch => ?_⟩
  · rw [wp_bind, wp_read, wp_bind]
    refine (sem_vs_serial _).imp ?_
    rintro - s₁ ⟨hcurr, hs₁⟩
    rw [modSerial, wp_update]
    refine ⟨hcurr, ?_⟩
    simp only [hs₁, Serial.stroke, if_pos hch, List.length_range]
  · refine ⟨rfl, ?_⟩
    simp only [Serial.stroke, if_neg hch]

theorem pop_back_stroke : wp pop_back (fun _ s' =>
    s'.curr = s.curr ∧ s'.serial = s.serial.stroke .erase) F s := ⟨rfl, rfl⟩

/-- The driver handles the strokes one after the other. -/
theorem serial_handle_strokes (bs : List UInt8) : wp (serial_handle bs) (fun _ s' =>
    s'.curr = s.curr ∧ s'.serial = (strokes bs).foldl Serial.stroke s.serial) F s := by
  induction bs generalizing s with
  | nil => exact ⟨rfl, rfl⟩
  | cons ch rest ih =>
    have hthen {m : KernelM Unit} (k : Stroke) (hm : wp m (fun _ s' =>
        s'.curr = s.curr ∧ s'.serial = s.serial.stroke k) F s) :
        wp (m >>= fun _ => serial_handle rest) (fun _ s' => s'.curr = s.curr ∧
          s'.serial = (k :: strokes rest).foldl Serial.stroke s.serial) F s := by
      rw [wp_bind]
      refine hm.imp ?_
      rintro - s₁ ⟨hcurr₁, hs₁⟩
      refine ih.imp ?_
      rintro - s' ⟨hcurr, hs'⟩
      refine ⟨hcurr.trans hcurr₁, ?_⟩
      rw [hs', hs₁]
      rfl
    rw [serial_handle, strokes]
    by_cases hzero : ch = 0
    · rw [if_pos hzero, if_pos hzero]
      exact ih
    rw [if_neg hzero, if_neg hzero]
    by_cases hesc : ch = 0x1b
    · rw [if_pos hesc, if_pos hesc]
      exact ⟨rfl, rfl⟩
    rw [if_neg hesc, if_neg hesc]
    by_cases hback : ch = 8 ∨ ch = 0x7f
    · rw [if_pos hback, if_pos hback]
      exact hthen _ pop_back_stroke
    rw [if_neg hback, if_neg hback]
    by_cases hcr : ch = 13
    · simp only [if_pos hcr, true_or, if_true]
      exact hthen _ (push_back_stroke NEWLINE)
    · simp only [if_neg hcr]
      by_cases hprint : ch = NEWLINE ∨ 32 ≤ ch ∧ ch < 127
      · simp only [if_pos hprint]
        exact hthen _ (push_back_stroke ch)
      · simp only [if_neg hprint]
        exact ih

/-! ### What the buffer holds -/

/-- The buffer holds what has been typed and not been read. -/
structure Serial.Holds (b : Serial) (t : Typed) (out : List UInt8) : Prop where
  out : out = t.committed.take b.head
  head : b.head ≤ b.clapboard
  clapboard : b.clapboard = t.committed.length
  tail : b.tail = (t.committed ++ t.line).length
  room : b.tail ≤ b.head + BUFFER_SIZE
  buffer : ∀ k, b.head ≤ k → k < b.tail →
    (t.committed ++ t.line)[k]? = some (b.buffer (k % BUFFER_SIZE))

/-- There is room for one more character, and the counters of the driver can count it. -/
def Serial.Free (b : Serial) : Prop := b.tail - b.head < BUFFER_SIZE ∧ b.tail < INT_MAX

variable {t t' : Typed} {out : List UInt8}

/-- Nothing is overwritten when there is room. -/
theorem Serial.Holds.char (h : b.Holds t out) (hfree : b.Free) (ch : UInt8) :
    (b.stroke (.char ch)).Holds (t.stroke (.char ch)) out := by
  obtain ⟨hroom, -⟩ := hfree
  have htext : (t.stroke (.char ch)).committed ++ (t.stroke (.char ch)).line =
      t.committed ++ t.line ++ [ch] := by
    rw [Typed.stroke]
    split <;> simp
  have htail := h.tail
  constructor
  · rw [h.out, Typed.stroke]
    split
    · change _ = List.take b.head _
      have hle : b.head ≤ t.committed.length := h.clapboard ▸ h.head
      rw [List.append_assoc, List.take_append_of_le_length hle]
    · rfl
  · have hhead := h.head
    have hclap := h.clapboard
    simp only [Serial.stroke]
    split
    · rw [htail, List.length_append]
      omega
    · exact hhead
  · rw [Serial.stroke, Typed.stroke]
    simp only
    split
    · rw [htail]
      simp only [List.length_append, List.length_singleton]
    · exact h.clapboard
  · rw [htext, List.length_append, ← htail]
    rfl
  · have hle := h.room
    change b.tail + 1 ≤ b.head + BUFFER_SIZE
    omega
  · intro k hlo hhi
    change b.head ≤ k at hlo
    change k < b.tail + 1 at hhi
    change _ = some (Function.update b.buffer (b.tail % BUFFER_SIZE) ch (k % BUFFER_SIZE))
    rw [htext]
    by_cases hk : k = b.tail
    · rw [hk, Function.update_self, htail, List.getElem?_concat_length]
    · have hne : k % BUFFER_SIZE ≠ b.tail % BUFFER_SIZE := by
        unfold BUFFER_SIZE at hroom ⊢
        omega
      have hlt : k < (t.committed ++ t.line).length := by omega
      rw [Function.update_of_ne hne, List.getElem?_append_left hlt]
      exact h.buffer k hlo (by omega)

theorem Serial.Holds.erase (h : b.Holds t out) : (b.stroke .erase).Holds (t.stroke .erase) out := by
  have htail := h.tail
  have hclap := h.clapboard
  have hhead := h.head
  rw [List.length_append] at htail
  rw [Serial.stroke, Typed.stroke]
  split
  case isTrue hlt =>
    have hlen : (t.committed ++ t.line.dropLast).length = b.tail - 1 := by
      rw [List.length_append, List.length_dropLast]
      omega
    refine ⟨h.out, hhead, hclap, hlen.symm, ?_, fun k hlo hhi => ?_⟩
    · have hroom := h.room
      change b.tail - 1 ≤ b.head + BUFFER_SIZE
      omega
    · change k < b.tail - 1 at hhi
      have hne : t.line ≠ [] := by
        rintro hnil
        rw [hnil] at htail
        simp only [List.length_nil] at htail
        omega
      have hold := h.buffer k hlo (by omega)
      rw [← List.dropLast_append_getLast hne, ← List.append_assoc,
        List.getElem?_append_left (by omega)] at hold
      exact hold
  case isFalse hge =>
    have hnil : t.line = [] := by
      rw [← List.length_eq_zero_iff]
      omega
    have hsame : (⟨t.committed, t.line.dropLast⟩ : Typed) = t := by
      cases t
      simp only at hnil
      rw [hnil]
      rfl
    rw [hsame]
    exact h

/-- There is room for every character that the strokes put into the buffer. -/
def Serial.Room : List Stroke → Serial → Prop
  | [], _ => True
  | .char ch :: ks, b => b.Free ∧ Serial.Room ks (b.stroke (.char ch))
  | .erase :: ks, b => Serial.Room ks (b.stroke .erase)

theorem Serial.Holds.strokes {ks : List Stroke} (h : b.Holds t out) (hroom : Serial.Room ks b) :
    (ks.foldl Serial.stroke b).Holds (ks.foldl Typed.stroke t) out := by
  induction ks generalizing b t with
  | nil => exact h
  | cons k ks ih =>
    cases k with
    | char ch =>
      obtain ⟨hfree, hrest⟩ := hroom
      exact ih (h.char hfree ch) hrest
    | erase => exact ih h.erase hroom

/-- `getchar` delivers the next character. -/
theorem getcharEnd_pops : wp getcharEnd (fun ch s' => s.serial.head < s.serial.clapboard ∧
    ch = s.serial.buffer (s.serial.head % BUFFER_SIZE) ∧
    s'.serial = { s.serial with head := s.serial.head + 1 })
    (fun _ => s.serial.clapboard ≤ s.serial.head ∨
      s.serial.buffer (s.serial.head % BUFFER_SIZE) = 0) s := by
  rw [getcharEnd, wp_bind, pop_front, wp_bind, wp_read, wp_ite]
  refine ⟨fun hlt => ?_, fun hge => ?_⟩
  · rw [wp_bind, modSerial, wp_update, wp_pure, wp_bind, wp_assert]
    refine ⟨fun _ => ⟨hlt, rfl, rfl⟩, fun hzero => Or.inr ?_⟩
    simpa using hzero
  · rw [wp_pure, wp_bind, wp_assert]
    exact ⟨fun hne => (hne rfl).elim, fun _ => Or.inl (by omega)⟩

theorem Serial.Holds.pop (h : b.Holds t out) (hlt : b.head < b.clapboard) :
    Serial.Holds { b with head := b.head + 1 } t (out ++ [b.buffer (b.head % BUFFER_SIZE)]) := by
  have hclap := h.clapboard
  have htail := h.tail
  rw [List.length_append] at htail
  have hget := h.buffer b.head le_rfl (by omega)
  rw [List.getElem?_append_left (by omega)] at hget
  refine ⟨?_, hlt, hclap, h.tail, ?_, fun k hlo hhi => h.buffer k ?_ hhi⟩
  · change _ = List.take (b.head + 1) t.committed
    rw [List.take_add_one, hget, h.out]
    rfl
  · have hroom := h.room
    change b.tail ≤ b.head + 1 + BUFFER_SIZE
    omega
  · change b.head + 1 ≤ k at hlo
    omega

/-! ### Runs -/

/-- The kernel, what has been typed, the characters that readers have been given, and the calls of
`getchar` that have their credit, in the order in which they got it, with their characters. -/
structure Terminal where
  kernel : Kernel
  typed : Typed
  out : List UInt8
  grants : List (ProcPtr × Option UInt8)

/-- What happens at the terminal. -/
inductive TermEvent
  /-- characters come in -/
  | input (bs : List UInt8)
  /-- a process calls `getchar`, and is given a character or blocked -/
  | getchar (proc : ProcPtr) (r : Option UInt8)
  /-- a process that has been dequeued is given its character -/
  | back (proc : ProcPtr) (ch : UInt8)
  /-- something else -/
  | other

/-- The first call of the process without a character gets this one. -/
def fillGrant (proc : ProcPtr) (ch : UInt8) :
    List (ProcPtr × Option UInt8) → List (ProcPtr × Option UInt8)
  | [] => []
  | (q, none) :: rest =>
    if q = proc then (q, some ch) :: rest else (q, none) :: fillGrant proc ch rest
  | g :: rest => g :: fillGrant proc ch rest

/-- One event at the terminal. -/
def Terminal.Step (x : Terminal) : TermEvent → Terminal → Prop
  | .input bs, x' => serial_handle bs x.kernel = .ok ((), x'.kernel) ∧
      x'.typed = (strokes bs).foldl Typed.stroke x.typed ∧ x'.out = x.out ∧
      ∃ woken, (x.kernel.sem .serial).wait_list = woken ++ (x'.kernel.sem .serial).wait_list ∧
        x'.grants = x.grants ++ woken.map fun q => (q, none)
  | .getchar proc r, x' => x.kernel.curr = proc ∧ Oslab.getchar x.kernel = .ok (r, x'.kernel) ∧
      x'.typed = x.typed ∧ x'.out = x.out ++ r.toList ∧
      x'.grants = x.grants ++ r.toList.map fun ch => (proc, some ch)
  | .back proc ch, x' => (proc, none) ∈ x.grants ∧ x.kernel.curr = proc ∧
      getcharEnd x.kernel = .ok (ch, x'.kernel) ∧ x'.typed = x.typed ∧ x'.out = x.out ++ [ch] ∧
      x'.grants = fillGrant proc ch x.grants
  | .other, x' => x'.kernel.serial = x.kernel.serial ∧ x'.typed = x.typed ∧ x'.out = x.out ∧
      x'.grants = x.grants

/-- The terminal from `init_serial` on. -/
def terminal : Lts Terminal TermEvent where
  init x := x.kernel.serial = ⟨x.kernel.serial.buffer, 0, 0, 0, sem_init 0⟩ ∧ x.typed = ⟨[], []⟩ ∧
    x.out = [] ∧ x.grants = []
  step := Terminal.Step

/-- There is room for what comes in. -/
def HasRoom (x : Terminal) : TermEvent → Prop
  | .input bs => Serial.Room (strokes bs) x.kernel.serial
  | _ => True

/-- Credits are used in the order in which they are given: a reader that finds one has no woken
reader before it, and a woken reader goes on after those that were woken before it. -/
def InOrder (x : Terminal) : TermEvent → Prop
  | .getchar _ _ => x.kernel.serial.serial_sem.value = 0 ∨ ∀ g ∈ x.grants, g.2 ≠ none
  | .back proc _ => ∃ served rest, x.grants = served ++ (proc, none) :: rest ∧
      ∀ g ∈ served, g.2 ≠ none
  | _ => True

variable {x x' : Terminal} {ev : TermEvent} {proc : ProcPtr}

theorem terminal_init (h : terminal.init x) : x.kernel.serial.Holds x.typed x.out := by
  obtain ⟨hserial, htyped, hout, -⟩ := h
  rw [hserial, htyped, hout]
  exact ⟨rfl, le_rfl, rfl, rfl, Nat.zero_le _, fun _ _ hhi => (Nat.not_lt_zero _ hhi).elim⟩

/-- The semaphore does not matter for what the buffer holds. -/
theorem Serial.Holds.congr (h : b.Holds t out) (hbuffer : b'.buffer = b.buffer)
    (hhead : b'.head = b.head) (htail : b'.tail = b.tail) (hclap : b'.clapboard = b.clapboard) :
    b'.Holds t out := by
  constructor
  · rw [hhead]
    exact h.out
  · rw [hhead, hclap]
    exact h.head
  · rw [hclap]
    exact h.clapboard
  · rw [htail]
    exact h.tail
  · rw [htail, hhead]
    exact h.room
  · rw [hhead, htail, hbuffer]
    exact h.buffer

theorem sem_p_serial : wp (sem_p .serial) (fun _ s' => s'.serial.buffer = s.serial.buffer ∧
    s'.serial.head = s.serial.head ∧ s'.serial.tail = s.serial.tail ∧
    s'.serial.clapboard = s.serial.clapboard) F s := by
  rw [sem_p, wp_bind, wp_read, wp_ite]
  refine ⟨fun _ => ?_, fun _ => ?_⟩
  · rw [wp_bind, proc_curr, wp_read, wp_bind, setSem, wp_update, wp_bind, modProc, wp_update, wp_pure]
    exact ⟨rfl, rfl, rfl, rfl⟩
  · rw [wp_bind, setSem, wp_update, wp_pure]
    exact ⟨rfl, rfl, rfl, rfl⟩

theorem getchar_holds (h : s.serial.Holds t out) : wp getchar (fun r s' =>
    s'.serial.Holds t (out ++ r.toList)) (fun _ => True) s := by
  rw [getchar, wp_bind]
  refine sem_p_serial.imp ?_
  rintro blocked s₁ ⟨hbuffer, hhead, htail, hclap⟩
  have h₁ := h.congr hbuffer hhead htail hclap
  rw [wp_ite]
  refine ⟨fun _ => ?_, fun _ => ?_⟩
  · rw [wp_pure, Option.toList_none, List.append_nil]
    exact h₁
  · rw [wp_bind]
    refine getcharEnd_pops.mono ?_ fun _ _ => trivial
    rintro ch s' ⟨hlt, rfl, hs'⟩
    rw [wp_pure, hs']
    exact h₁.pop hlt

/-- What the buffer holds is kept by every event that finds room. -/
theorem terminal_step (h : x.kernel.serial.Holds x.typed x.out) (hroom : HasRoom x ev)
    (hstep : terminal.step x ev x') : x'.kernel.serial.Holds x'.typed x'.out := by
  cases ev with
  | input bs =>
    obtain ⟨hok, htyped, hout, -⟩ := hstep
    have hserial := ((serial_handle_strokes (F := fun _ => True) bs).of_ok hok).2
    rw [hserial, htyped, hout]
    exact h.strokes hroom
  | getchar proc r =>
    obtain ⟨-, hok, htyped, hout, -⟩ := hstep
    rw [htyped, hout]
    exact (getchar_holds h).of_ok hok
  | back proc ch =>
    obtain ⟨-, -, hok, htyped, hout, -⟩ := hstep
    obtain ⟨hlt, rfl, hserial⟩ := getcharEnd_pops.of_ok hok
    rw [htyped, hout, hserial]
    exact h.pop hlt
  | other =>
    obtain ⟨hserial, htyped, hout, -⟩ := hstep
    rw [hserial, htyped, hout]
    exact h

/-- Who is given a character at once has found a credit. -/
theorem getchar_value : wp getchar (fun r _ => r ≠ none → s.serial.serial_sem.value ≠ 0)
    (fun _ => True) s := by
  rw [getchar, wp_bind, sem_p, wp_bind, wp_read, wp_ite]
  refine ⟨fun _ => ?_, fun hne => ?_⟩
  · rw [wp_bind, proc_curr, wp_read, wp_bind, setSem, wp_update, wp_bind, modProc, wp_update, wp_pure]
    intro hnone
    exact (hnone rfl).elim
  · rw [wp_bind, setSem, wp_update, wp_pure, if_neg Bool.false_ne_true, wp_bind]
    refine getcharEnd_pops.mono ?_ fun _ _ => trivial
    rintro ch s' -
    exact fun _ => hne

/-- The calls that have their character, in the order of their credits, have them in this order. -/
def Served (x : Terminal) : Prop :=
  ∃ served rest, x.grants = served ++ rest ∧ (∀ g ∈ served, g.2 ≠ none) ∧
    (∀ g ∈ rest, g.2 = none) ∧ served.filterMap Prod.snd = x.out

theorem fillGrant_served {ch : UInt8} {served rest : List (ProcPtr × Option UInt8)}
    (hserved : ∀ g ∈ served, g.2 ≠ none) :
    fillGrant proc ch (served ++ (proc, none) :: rest) = served ++ (proc, some ch) :: rest := by
  induction served with
  | nil =>
    rw [List.nil_append, fillGrant, if_pos rfl]
    rfl
  | cons g served ih =>
    have htail := ih fun g' hg' => hserved g' (List.mem_cons_of_mem _ hg')
    obtain ⟨q, r⟩ := g
    cases r with
    | none => exact (hserved _ List.mem_cons_self rfl).elim
    | some c =>
      rw [List.cons_append, fillGrant, htail, List.cons_append]
      rintro q' heq
      cases heq

theorem filterMap_none {rest : List (ProcPtr × Option UInt8)} (h : ∀ g ∈ rest, g.2 = none) :
    rest.filterMap Prod.snd = [] := List.filterMap_eq_nil_iff.mpr h

/-- The calls that have their character come first. -/
theorem split_served {served rest served' rest' : List (ProcPtr × Option UInt8)}
    (heq : served ++ rest = served' ++ (proc, none) :: rest') (h : ∀ g ∈ served, g.2 ≠ none)
    (hrest : ∀ g ∈ rest, g.2 = none) (h' : ∀ g ∈ served', g.2 ≠ none) :
    served = served' ∧ rest = (proc, none) :: rest' := by
  rcases List.append_eq_append_iff.mp heq with ⟨as, has, hbs⟩ | ⟨bs, hbs, hcs⟩
  · cases as with
    | nil => exact ⟨by simpa using has.symm, by simpa using hbs⟩
    | cons g as =>
      have hmem : g ∈ rest := by
        rw [hbs]
        exact List.mem_append_left _ List.mem_cons_self
      refine (h' g ?_ (hrest g hmem)).elim
      rw [has]
      exact List.mem_append_right _ List.mem_cons_self
  · cases bs with
    | nil => exact ⟨by simpa using hbs, by simpa using hcs.symm⟩
    | cons g bs =>
      rw [List.cons_append, List.cons.injEq] at hcs
      obtain ⟨rfl, -⟩ := hcs
      refine (h (proc, none) ?_ rfl).elim
      rw [hbs]
      exact List.mem_append_right _ List.mem_cons_self

theorem served_step (h : Served x) (horder : InOrder x ev) (hstep : terminal.step x ev x') :
    Served x' := by
  obtain ⟨served, rest, hgrants, hserved, hrest, hout⟩ := h
  cases ev with
  -- those that are woken are owed their characters, behind all others
  | input bs =>
    obtain ⟨-, -, hout', woken, -, hgrants'⟩ := hstep
    refine ⟨served, rest ++ woken.map fun q => (q, none), ?_, hserved, fun g hg => ?_, ?_⟩
    · rw [hgrants', hgrants, List.append_assoc]
    · rcases List.mem_append.mp hg with hg | hg
      · exact hrest g hg
      · obtain ⟨q, -, rfl⟩ := List.mem_map.mp hg
        rfl
    · rw [hout', hout]
  | getchar proc r =>
    obtain ⟨-, hok, -, hout', hgrants'⟩ := hstep
    have hvalue := getchar_value.of_ok hok
    cases r with
    | none =>
      refine ⟨served, rest, ?_, hserved, hrest, ?_⟩
      · rw [hgrants', hgrants]
        exact List.append_nil _
      · rw [hout', hout]
        exact (List.append_nil _).symm
    -- a call that returns at once found a credit, so nobody is owed a character
    | some ch =>
      have hnil : rest = [] := by
        cases rest with
        | nil => rfl
        | cons g rest =>
          have hall := horder.resolve_left (hvalue (Option.some_ne_none ch))
          refine (hall g ?_ (hrest g List.mem_cons_self)).elim
          rw [hgrants]
          exact List.mem_append_right _ List.mem_cons_self
      subst hnil
      refine ⟨served ++ [(proc, some ch)], [], ?_, fun g hg => ?_, hrest, ?_⟩
      · rw [hgrants', hgrants, List.append_nil, List.append_nil]
        rfl
      · rcases List.mem_append.mp hg with hg | hg
        · exact hserved g hg
        · rw [List.mem_singleton.mp hg]
          exact Option.some_ne_none _
      · rw [hout', List.filterMap_append, hout]
        rfl
  -- the one that goes on is the first of those that are owed one
  | back proc ch =>
    obtain ⟨-, -, -, -, hout', hgrants'⟩ := hstep
    obtain ⟨served', rest', hgrants'', hserved'⟩ := horder
    obtain ⟨rfl, rfl⟩ := split_served (hgrants.symm.trans hgrants'') hserved hrest hserved'
    refine ⟨served ++ [(proc, some ch)], rest', ?_, fun g hg => ?_, fun g hg => ?_, ?_⟩
    · rw [hgrants', hgrants'', fillGrant_served hserved, List.append_assoc]
      rfl
    · rcases List.mem_append.mp hg with hg | hg
      · exact hserved g hg
      · rw [List.mem_singleton.mp hg]
        exact Option.some_ne_none _
    · exact hrest g (List.mem_cons_of_mem _ hg)
    · rw [hout', List.filterMap_append, hout]
      rfl
  | other =>
    obtain ⟨-, -, hout', hgrants'⟩ := hstep
    refine ⟨served, rest, ?_, hserved, hrest, ?_⟩
    · rw [hgrants', hgrants]
    · rw [hout', hout]

/-- **What is typed is delivered** as long as there is room for it: readers are given the committed
lines from their beginning; and as long as credits are used in order too, the calls are given them
in the order of their credits. -/
theorem terminal_delivers (x : Terminal) :
    ((terminal.restrict HasRoom).Reachable x → x.out <+: x.typed.committed) ∧
      ((terminal.restrict fun x ev => HasRoom x ev ∧ InOrder x ev).Reachable x →
        x.grants.filterMap Prod.snd <+: x.typed.committed) := by
  have hprefix (h : x.kernel.serial.Holds x.typed x.out) : x.out <+: x.typed.committed := by
    rw [h.out]
    exact List.take_prefix _ _
  refine ⟨fun h => hprefix ?_, fun h => ?_⟩
  · refine h.invariant (fun x => x.kernel.serial.Holds x.typed x.out)
      (fun _ => terminal_init) ?_
    rintro x ev x' hx ⟨hroom, hstep⟩
    exact terminal_step hx hroom hstep
  · have hinv : x.kernel.serial.Holds x.typed x.out ∧ Served x := by
      refine h.invariant (fun x => x.kernel.serial.Holds x.typed x.out ∧ Served x) ?_ ?_
      · rintro x hinit
        have hinit' : terminal.init x := hinit
        refine ⟨terminal_init hinit', [], [], hinit'.2.2.2, ?_, ?_, hinit'.2.2.1.symm⟩
        · intro g hg
          cases hg
        · intro g hg
          cases hg
      · rintro x ev x' ⟨hholds, hserved⟩ ⟨⟨hroom, horder⟩, hstep⟩
        exact ⟨terminal_step hholds hroom hstep, served_step hserved horder hstep⟩
    obtain ⟨hholds, served, rest, hgrants, -, hrest, hout⟩ := hinv
    rw [hgrants, List.filterMap_append, filterMap_none hrest, List.append_nil, hout]
    exact hprefix hholds

/-! ### Two runs -/

/-- Characters come in and wake the first in line. -/
theorem terminal_input (bs : List UInt8) (woken rest : List ProcPtr)
    (hwait : (x.kernel.sem .serial).wait_list = woken ++ rest)
    (hrest : ((strokes bs).foldl Serial.stroke x.kernel.serial).serial_sem.wait_list = rest) :
    ∃ s', s'.serial = (strokes bs).foldl Serial.stroke x.kernel.serial ∧
      terminal.step x (.input bs) ⟨s', (strokes bs).foldl Typed.stroke x.typed, x.out,
        x.grants ++ woken.map fun q => (q, none)⟩ := by
  obtain ⟨⟨⟩, s', hok, -, hs'⟩ :=
    (serial_handle_strokes (s := x.kernel) (F := fun _ => False) bs).returns
  refine ⟨s', hs', hok, rfl, rfl, woken, ?_, rfl⟩
  change _ = woken ++ s'.serial.serial_sem.wait_list
  rw [hwait, hs', hrest]

/-- A process waits. -/
theorem terminal_blocks (hvalue : x.kernel.serial.serial_sem.value = 0) :
    ∃ s', s'.serial = { x.kernel.serial with
        serial_sem := ⟨0, x.kernel.serial.serial_sem.wait_list ++ [x.kernel.curr]⟩ } ∧
      terminal.step x (.getchar x.kernel.curr none) ⟨s', x.typed, x.out, x.grants⟩ := by
  have hwp : wp getchar (fun r s' => r = none ∧ s'.serial = { x.kernel.serial with
      serial_sem := ⟨0, x.kernel.serial.serial_sem.wait_list ++ [x.kernel.curr]⟩ })
      (fun _ => False) x.kernel := by
    rw [getchar, wp_bind, sem_p, wp_bind, wp_read, wp_ite]
    refine ⟨fun _ => ?_, fun hne => (hne hvalue).elim⟩
    rw [wp_bind, proc_curr, wp_read, wp_bind, setSem, wp_update, wp_bind, modProc, wp_update, wp_pure]
    refine ⟨rfl, ?_⟩
    change ({ x.kernel.serial with serial_sem := ⟨x.kernel.serial.serial_sem.value, _⟩ } : Serial) = _
    rw [hvalue]
    rfl
  obtain ⟨r, s', hok, rfl, hs'⟩ := hwp.returns
  exact ⟨s', hs', rfl, hok, rfl, (List.append_nil _).symm, (List.append_nil _).symm⟩

/-- A process is given a character at once. -/
theorem terminal_getchar {c : UInt8} (hvalue : x.kernel.serial.serial_sem.value ≠ 0)
    (hlt : x.kernel.serial.head < x.kernel.serial.clapboard)
    (hch : c = x.kernel.serial.buffer (x.kernel.serial.head % BUFFER_SIZE)) (hne : c ≠ 0) :
    ∃ s', s'.serial.buffer = x.kernel.serial.buffer ∧
      s'.serial.head = x.kernel.serial.head + 1 ∧
      s'.serial.clapboard = x.kernel.serial.clapboard ∧
      terminal.step x (.getchar x.kernel.curr (some c))
        ⟨s', x.typed, x.out ++ [c], x.grants ++ [(x.kernel.curr, some c)]⟩ := by
  have hwp : wp getchar (fun r s' => r = some c ∧ s'.serial.buffer = x.kernel.serial.buffer ∧
      s'.serial.head = x.kernel.serial.head + 1 ∧
      s'.serial.clapboard = x.kernel.serial.clapboard) (fun _ => False) x.kernel := by
    rw [getchar, wp_bind, sem_p, wp_bind, wp_read, wp_ite]
    refine ⟨fun hzero => (hvalue hzero).elim, fun _ => ?_⟩
    rw [wp_bind, setSem, wp_update, wp_pure]
    simp only [Bool.false_eq_true, if_false]
    rw [wp_bind]
    refine getcharEnd_pops.mono ?_ ?_
    · rintro c s' ⟨-, hc, hs'⟩
      rw [wp_pure, hch, hc, hs']
      exact ⟨rfl, rfl, rfl, rfl⟩
    · rintro - (hle | hzero)
      · exact absurd hlt (not_lt.mpr hle)
      · rw [hch] at hne
        exact hne hzero
  obtain ⟨r, s', hok, rfl, hbuffer, hhead, hclap⟩ := hwp.returns
  exact ⟨s', hbuffer, hhead, hclap, rfl, hok, rfl, rfl, rfl⟩

/-- A woken process is given its character. -/
theorem terminal_back {c : UInt8} (hmem : (x.kernel.curr, none) ∈ x.grants)
    (hlt : x.kernel.serial.head < x.kernel.serial.clapboard)
    (hch : c = x.kernel.serial.buffer (x.kernel.serial.head % BUFFER_SIZE)) (hne : c ≠ 0) :
    ∃ s', terminal.step x (.back x.kernel.curr c)
      ⟨s', x.typed, x.out ++ [c], fillGrant x.kernel.curr c x.grants⟩ := by
  have hwp : wp getcharEnd (fun r _ => r = c) (fun _ => False) x.kernel := by
    refine getcharEnd_pops.mono ?_ ?_
    · rintro r - ⟨-, hr, -⟩
      rw [hr, hch]
    · rintro - (hle | hzero)
      · exact absurd hlt (not_lt.mpr hle)
      · rw [hch] at hne
        exact hne hzero
  obtain ⟨r, s', hok, rfl⟩ := hwp.returns
  exact ⟨s', hmem, rfl, hok, rfl, rfl, rfl⟩

/-- Another process runs. -/
theorem terminal_other (x : Terminal) (q : ProcPtr) :
    terminal.step x .other ⟨{ x.kernel with curr := q }, x.typed, x.out, x.grants⟩ :=
  ⟨rfl, rfl, rfl, rfl⟩

/-- The terminal before anything is typed. -/
def Terminal.quiet : Terminal := ⟨Kernel.zero (fun _ => 0) fun _ => 0, ⟨[], []⟩, [], []⟩

theorem quiet_init : terminal.init .quiet := ⟨rfl, rfl, rfl, rfl⟩

/-- A line of 257 characters: 256 times "a" and then "b". -/
@[irreducible] def longLine : List UInt8 := List.replicate 256 97 ++ [98, 13]

/-- A line that is too long for the buffer is typed, and a reader is given its end. -/
theorem long_line_run :
    ∃ x, terminal.Run .quiet [.input longLine, .other, .getchar 1 (some 98)] x ∧
      ¬ x.grants.filterMap Prod.snd <+: x.typed.committed := by
  obtain ⟨s₁, hs₁, hinput⟩ :=
    terminal_input (x := .quiet) longLine [] [] rfl (by decide +kernel)
  have hother := terminal_other ⟨s₁, (strokes longLine).foldl Typed.stroke ⟨[], []⟩, [], []⟩ 1
  obtain ⟨s₂, -, -, -, hgetchar⟩ := terminal_getchar (c := 98)
    (x := ⟨{ s₁ with curr := 1 }, (strokes longLine).foldl Typed.stroke ⟨[], []⟩, [], []⟩)
    (by simp only [hs₁]; decide +kernel) (by simp only [hs₁]; decide +kernel)
    (by simp only [hs₁]; decide +kernel) (by decide)
  refine ⟨_, ((Lts.Run.single hinput).tail hother).tail hgetchar, ?_⟩
  have hnot : ¬ [98] <+: ((strokes longLine).foldl Typed.stroke ⟨[], []⟩).committed := by
    decide +kernel
  exact hnot

/-- A reader that waits is woken by a line, and another one takes the first character of the line
before it runs. -/
theorem overtaken_run : ∃ x, (terminal.restrict HasRoom).Run .quiet [.other, .getchar 1 none,
    .input [97, 98, 13], .other, .getchar 2 (some 97), .other, .back 1 98] x ∧
      ¬ x.grants.filterMap Prod.snd <+: x.typed.committed := by
  have hother₁ := terminal_other .quiet 1
  obtain ⟨s₁, hs₁, hblocks⟩ := terminal_blocks
    (x := ⟨{ Terminal.quiet.kernel with curr := 1 }, ⟨[], []⟩, [], []⟩) rfl
  -- the line wakes it, and has room
  obtain ⟨s₂, hs₂, hinput⟩ := terminal_input (x := ⟨s₁, ⟨[], []⟩, [], []⟩) [97, 98, 13]
    [1] [] (by simp only [Kernel.sem, hs₁]; rfl)
    (by simp only [hs₁]; decide +kernel)
  have hroom : HasRoom ⟨s₁, ⟨[], []⟩, [], []⟩ (.input [97, 98, 13]) := by
    have hstrokes : strokes [97, 98, 13] = [.char 97, .char 98, .char NEWLINE] := by decide
    rw [HasRoom, hstrokes, hs₁]
    exact ⟨⟨by decide, by decide⟩, ⟨by decide, by decide⟩, ⟨by decide, by decide⟩, trivial⟩
  -- the second one finds a credit
  have hother₂ := terminal_other
    ⟨s₂, (strokes [97, 98, 13]).foldl Typed.stroke ⟨[], []⟩, [], [(1, none)]⟩ 2
  obtain ⟨s₃, hbuffer, hhead, hclap, hgetchar⟩ := terminal_getchar (c := 97)
    (x := ⟨{ s₂ with curr := 2 }, (strokes [97, 98, 13]).foldl Typed.stroke ⟨[], []⟩, [],
      [(1, none)]⟩)
    (by simp only [hs₂, hs₁]; decide +kernel) (by simp only [hs₂, hs₁]; decide +kernel)
    (by simp only [hs₂, hs₁]; decide +kernel) (by decide)
  simp only [hs₂, hs₁] at hbuffer hhead hclap
  have hother₃ := terminal_other
    ⟨s₃, (strokes [97, 98, 13]).foldl Typed.stroke ⟨[], []⟩, [97], [(1, none), (2, some 97)]⟩ 1
  obtain ⟨s₄, hback⟩ := terminal_back (c := 98)
    (x := ⟨{ s₃ with curr := 1 }, (strokes [97, 98, 13]).foldl Typed.stroke ⟨[], []⟩, [97],
      [(1, none), (2, some 97)]⟩) List.mem_cons_self
    (by simp only [hhead, hclap]; decide +kernel)
    (by simp only [hhead, hbuffer]; decide +kernel) (by decide)
  have h₁ : (terminal.restrict HasRoom).step _ .other _ := ⟨trivial, hother₁⟩
  have h₂ : (terminal.restrict HasRoom).step _ (.getchar 1 none) _ := ⟨trivial, hblocks⟩
  have h₃ : (terminal.restrict HasRoom).step _ (.input [97, 98, 13]) _ := ⟨hroom, hinput⟩
  have h₄ : (terminal.restrict HasRoom).step _ .other _ := ⟨trivial, hother₂⟩
  have h₅ : (terminal.restrict HasRoom).step _ (.getchar 2 (some 97)) _ := ⟨trivial, hgetchar⟩
  have h₆ : (terminal.restrict HasRoom).step _ .other _ := ⟨trivial, hother₃⟩
  have h₇ : (terminal.restrict HasRoom).step _ (.back 1 98) _ := ⟨trivial, hback⟩
  refine ⟨_, ((((((Lts.Run.single h₁).tail h₂).tail h₃).tail h₄).tail h₅).tail h₆).tail h₇, ?_⟩
  have hnot : ¬ [98, 97] <+: ((strokes [97, 98, 13]).foldl Typed.stroke ⟨[], []⟩).committed := by
    decide +kernel
  exact hnot

/-- Readers are not given what is typed: not when a line is too long for the buffer, and not when a
woken reader is overtaken. -/
theorem terminal_overruns :
    (∃ x₀ x, terminal.init x₀ ∧ terminal.Run x₀ [.input longLine, .other, .getchar 1 (some 98)] x ∧
      ¬ x.grants.filterMap Prod.snd <+: x.typed.committed) ∧
    ∃ x₀ x, terminal.init x₀ ∧ (terminal.restrict HasRoom).Run x₀ [.other, .getchar 1 none,
        .input [97, 98, 13], .other, .getchar 2 (some 97), .other, .back 1 98] x ∧
      ¬ x.grants.filterMap Prod.snd <+: x.typed.committed := by
  obtain ⟨x, hrun, hnot⟩ := long_line_run
  obtain ⟨x', hrun', hnot'⟩ := overtaken_run
  exact ⟨⟨.quiet, x, quiet_init, hrun, hnot⟩, .quiet, x', quiet_init, hrun', hnot'⟩

end Oslab
