/-
# Readers of the terminal

The semaphore of the serial port counts the characters that readers may take. A
reader who is dequeued takes its credit with it, and spends it when it runs
again; until then its character stays in the buffer. So whoever gets past the
semaphore finds a character, whatever is typed or erased meanwhile, and also when
more has been typed than the buffer has room for.
-/
import Oslab.Terminal

namespace Oslab

open Lib Lib.Prog

/-- The calls of `getchar` that have their credit and no character yet. -/
def Terminal.owed (x : Terminal) : ℕ := x.grants.countP fun g => g.2.isNone

/-- The number of characters that come in. -/
def TermEvent.received : TermEvent → ℕ
  | .input bs => bs.length
  | _ => 0

/-- The terminal, with the number of characters that have been received. -/
def counted : Lts (Terminal × ℕ) TermEvent where
  init x := terminal.init x.1 ∧ x.2 = 0
  step x ev x' := terminal.step x.1 ev x'.1 ∧ x'.2 = x.2 + ev.received ∧ x'.2 < 2 ^ 31

variable {s s' : Kernel} {b b' : Serial} {sem : Sem} {x x' : Terminal} {n n' : ℕ} {ev : TermEvent}
  {proc : ProcPtr} {ch : UInt8} {gs : List (ProcPtr × Option UInt8)}

/-! ### The semaphore -/

/-- The value, less the readers that wait. -/
def Sem.credit (sem : Sem) : ℤ := sem.value - sem.wait_list.length

theorem credit_give (sem : Sem) : sem.give.credit = sem.credit + 1 := by
  obtain ⟨value, wait_list⟩ := sem
  cases wait_list with
  | nil =>
    change (value + 1 : ℤ) - (0 : ℕ) = value - (0 : ℕ) + 1
    omega
  | cons q rest =>
    change value - (rest.length : ℤ) = value - (rest.length + 1 : ℕ) + 1
    omega

theorem credit_gives (sem : Sem) (n : ℕ) : (Sem.give^[n] sem).credit = sem.credit + n := by
  induction n with
  | zero => exact (add_zero _).symm
  | succ n ih =>
    rw [Function.iterate_succ_apply', credit_give, ih]
    omega

theorem value_give (h : 0 ≤ sem.value) : 0 ≤ sem.give.value := by
  obtain ⟨value, wait_list⟩ := sem
  change 0 ≤ value at h
  cases wait_list with
  | nil =>
    change 0 ≤ value + 1
    omega
  | cons q rest => exact h

theorem value_gives (h : 0 ≤ sem.value) (n : ℕ) : 0 ≤ (Sem.give^[n] sem).value := by
  induction n with
  | zero => exact h
  | succ n ih =>
    rw [Function.iterate_succ_apply']
    exact value_give ih

/-! ### The buffer -/

/-- The indices are in order, and there is a character below each of them. -/
structure Serial.Ordered (b : Serial) : Prop where
  head : b.head ≤ b.clapboard
  clapboard : b.clapboard ≤ b.tail
  value : 0 ≤ b.serial_sem.value
  typed : ∀ k < b.tail, b.buffer (k % BUFFER_SIZE) ≠ 0

/-- Only characters that can be printed, or a newline, get into the buffer. -/
def Stroke.Printable : Stroke → Prop
  | .char ch => ch ≠ 0
  | .erase => True

theorem strokes_printable (bs : List UInt8) : ∀ k ∈ strokes bs, k.Printable := by
  induction bs with
  | nil =>
    intro k hk
    exact absurd hk List.not_mem_nil
  | cons ch rest ih =>
    have hcons {k₀ : Stroke} (hk₀ : k₀.Printable) : ∀ k ∈ k₀ :: strokes rest, k.Printable := by
      intro k hk
      rcases List.mem_cons.mp hk with rfl | hk
      · exact hk₀
      · exact ih k hk
    rw [strokes]
    split_ifs with hzero hesc hback hcr hprint
    · exact ih
    · intro k hk
      exact absurd hk List.not_mem_nil
    · exact hcons trivial
    · have hnewline : NEWLINE ≠ 0 := by decide
      exact hcons hnewline
    · exact hcons hzero
    · exact ih

theorem length_strokes (bs : List UInt8) : (strokes bs).length ≤ bs.length := by
  induction bs with
  | nil => exact le_rfl
  | cons ch rest ih =>
    have hlater : (strokes rest).length ≤ rest.length + 1 := by omega
    have hnext : (strokes rest).length + 1 ≤ rest.length + 1 := by omega
    rw [strokes, List.length_cons]
    split_ifs
    · exact hlater
    · exact Nat.zero_le _
    · exact hnext
    · exact hnext
    · exact hnext
    · exact hlater

/-- A stroke gives as many credits as it commits characters. -/
theorem Serial.Ordered.stroke (h : b.Ordered) {k : Stroke} (hk : k.Printable) :
    (b.stroke k).Ordered ∧ (b.stroke k).head = b.head ∧ (b.stroke k).tail ≤ b.tail + 1 ∧
      (b.stroke k).serial_sem.credit - (b.stroke k).clapboard = b.serial_sem.credit - b.clapboard := by
  have hhead := h.head
  have hclap := h.clapboard
  cases k with
  | char ch =>
    refine ⟨⟨?_, ?_, ?_, ?_⟩, rfl, le_rfl, ?_⟩
    · simp only [Serial.stroke]
      split <;> omega
    · simp only [Serial.stroke]
      split <;> omega
    · simp only [Serial.stroke]
      split
      · exact value_gives h.value _
      · exact h.value
    · intro j hj
      change j < b.tail + 1 at hj
      change Function.update b.buffer (b.tail % BUFFER_SIZE) ch (j % BUFFER_SIZE) ≠ 0
      by_cases hslot : j % BUFFER_SIZE = b.tail % BUFFER_SIZE
      · rw [hslot, Function.update_self]
        exact hk
      · rw [Function.update_of_ne hslot]
        apply h.typed
        by_contra hge
        have hjt : j = b.tail := by omega
        exact hslot (by rw [hjt])
    · simp only [Serial.stroke]
      split
      · rw [credit_gives]
        omega
      · rfl
  | erase =>
    rw [Serial.stroke]
    split
    case isTrue hlt =>
      refine ⟨⟨hhead, ?_, h.value, ?_⟩, rfl, ?_, rfl⟩
      · change b.clapboard ≤ b.tail - 1
        omega
      · intro j hj
        change j < b.tail - 1 at hj
        exact h.typed j (by omega)
      · change b.tail - 1 ≤ b.tail + 1
        omega
    case isFalse => exact ⟨h, rfl, by omega, rfl⟩

/-- The strokes one after the other. -/
theorem Serial.Ordered.strokes (h : b.Ordered) {ks : List Stroke} (hks : ∀ k ∈ ks, k.Printable) :
    (ks.foldl Serial.stroke b).Ordered ∧ (ks.foldl Serial.stroke b).head = b.head ∧
      (ks.foldl Serial.stroke b).tail ≤ b.tail + ks.length ∧
      (ks.foldl Serial.stroke b).serial_sem.credit - (ks.foldl Serial.stroke b).clapboard =
        b.serial_sem.credit - b.clapboard := by
  induction ks generalizing b with
  | nil => exact ⟨h, rfl, le_rfl, rfl⟩
  | cons k ks ih =>
    obtain ⟨h₁, hhead₁, htail₁, hcredit₁⟩ := h.stroke (hks k List.mem_cons_self)
    obtain ⟨h₂, hhead₂, htail₂, hcredit₂⟩ := ih h₁ fun j hj => hks j (List.mem_cons_of_mem _ hj)
    refine ⟨h₂, hhead₂.trans hhead₁, ?_, hcredit₂.trans hcredit₁⟩
    rw [List.length_cons]
    change (List.foldl Serial.stroke (b.stroke k) ks).tail ≤ _
    omega

/-! ### The calls that have their credit -/

/-- The indices are in order, and every character between `head` and `clapboard` has its credit. -/
structure Terminal.Balanced (x : Terminal) (n : ℕ) : Prop where
  ordered : x.kernel.serial.Ordered
  received : x.kernel.serial.tail ≤ n
  balance : x.kernel.serial.serial_sem.value + x.owed =
    (x.kernel.serial.clapboard : ℤ) - x.kernel.serial.head

theorem countP_fillGrant (h : (proc, none) ∈ gs) :
    (fillGrant proc ch gs).countP (fun g => g.2.isNone) + 1 = gs.countP fun g => g.2.isNone := by
  induction gs with
  | nil => exact absurd h List.not_mem_nil
  | cons g rest ih =>
    obtain ⟨q, r⟩ := g
    cases r with
    | some c =>
      have hrest : (proc, none) ∈ rest := by
        rcases List.mem_cons.mp h with heq | hrest
        · cases heq
        · exact hrest
      have hfill : fillGrant proc ch ((q, some c) :: rest) = (q, some c) :: fillGrant proc ch rest := by
        rw [fillGrant]
        intro q' heq
        cases heq
      rw [hfill, List.countP_cons_of_neg (by simp), List.countP_cons_of_neg (by simp), ih hrest]
    | none =>
      rw [fillGrant]
      split
      case isTrue =>
        rw [List.countP_cons_of_neg (by simp), List.countP_cons_of_pos (by simp)]
      case isFalse hne =>
        have hrest : (proc, none) ∈ rest := by
          rcases List.mem_cons.mp h with heq | hrest
          · cases heq
            exact (hne rfl).elim
          · exact hrest
        rw [List.countP_cons_of_pos (by simp), List.countP_cons_of_pos (by simp), ih hrest]

/-- There is a character for every call that has its credit. -/
theorem Terminal.Balanced.owed_lt (h : x.Balanced n) (hg : (proc, none) ∈ x.grants) :
    x.kernel.serial.head < x.kernel.serial.clapboard := by
  have hpos : 0 < x.owed := List.countP_pos_iff.mpr ⟨_, hg, rfl⟩
  have hvalue := h.ordered.value
  have hbalance := h.balance
  omega

theorem pop_front_pops {F : Abort → Prop} (hlt : s.serial.head < s.serial.clapboard) :
    wp pop_front (fun ch s' => ch = s.serial.buffer (s.serial.head % BUFFER_SIZE) ∧
      s'.serial = { s.serial with head := s.serial.head + 1 }) F s := by
  rw [pop_front, wp_bind, wp_read, wp_ite]
  refine ⟨fun _ => ?_, fun hge => (hge hlt).elim⟩
  rw [wp_bind, modSerial, wp_update, wp_pure]
  exact ⟨rfl, rfl⟩

theorem Serial.Ordered.front (h : b.Ordered) (hlt : b.head < b.clapboard) :
    b.buffer (b.head % BUFFER_SIZE) ≠ 0 := by
  have hclap := h.clapboard
  exact h.typed b.head (by omega)

/-- Whoever has a credit is given a character. -/
theorem Serial.Ordered.getcharEnd (h : s.serial.Ordered)
    (hlt : s.serial.head < s.serial.clapboard) :
    wp getcharEnd (fun ch _ => ch ≠ 0) (fun _ => False) s := by
  refine getcharEnd_pops.mono ?_ ?_
  · intro ch s' hpop
    obtain ⟨-, hch, -⟩ := hpop
    rw [hch]
    exact h.front hlt
  · intro e hnone
    rcases hnone with hle | hzero
    · omega
    · exact h.front hlt hzero

/-- A reader that finds the semaphore positive is given a character. -/
theorem Terminal.Balanced.getchar (h : x.Balanced n) : wp getchar (fun r s' => r ≠ some 0 ∧
    s'.serial.buffer = x.kernel.serial.buffer ∧ s'.serial.tail = x.kernel.serial.tail ∧
    s'.serial.clapboard = x.kernel.serial.clapboard ∧ 0 ≤ s'.serial.serial_sem.value ∧
    s'.serial.serial_sem.value + s'.serial.head =
      x.kernel.serial.serial_sem.value + x.kernel.serial.head ∧
    s'.serial.head ≤ s'.serial.clapboard) (fun _ => False) x.kernel := by
  have hvalue := h.ordered.value
  have hbalance := h.balance
  have hhead := h.ordered.head
  rw [Oslab.getchar, wp_bind, sem_p, wp_bind, wp_read, wp_ite]
  refine ⟨fun hzero => ?_, fun hpos => ?_⟩
  · rw [wp_bind, proc_curr, wp_read, wp_bind, setSem, wp_update, wp_bind, modProc, wp_update, wp_pure]
    simp only [if_true]
    rw [wp_pure]
    refine ⟨by simp, rfl, rfl, rfl, hvalue, rfl, hhead⟩
  · rw [wp_bind, setSem, wp_update, wp_pure]
    simp only [Bool.false_eq_true, if_false]
    rw [wp_bind]
    change ¬ x.kernel.serial.serial_sem.value = 0 at hpos
    have hlt : x.kernel.serial.head < x.kernel.serial.clapboard := by omega
    have hfront := h.ordered.front hlt
    refine getcharEnd_pops.mono ?_ ?_
    · intro c s' hpop
      obtain ⟨-, hc, hs'⟩ := hpop
      rw [wp_pure, hs']
      refine ⟨?_, rfl, rfl, rfl, ?_, ?_, hlt⟩
      · intro heq
        rw [Option.some.inj heq] at hc
        exact hfront hc.symm
      · change 0 ≤ x.kernel.serial.serial_sem.value - 1
        omega
      · change x.kernel.serial.serial_sem.value - 1 + (x.kernel.serial.head + 1 : ℕ) = _
        omega
    · intro e hnone
      rcases hnone with hle | hzero
      · exact absurd hlt (not_lt.mpr hle)
      · exact hfront hzero

/-! ### Runs -/

theorem counted_init (h : counted.init (x, n)) : x.Balanced n := by
  obtain ⟨⟨hserial, -, -, hgrants⟩, hn⟩ := h
  have howed : x.owed = 0 := by
    rw [Terminal.owed, hgrants]
    rfl
  constructor
  · rw [hserial]
    exact ⟨le_rfl, le_rfl, le_rfl, fun k hk => absurd hk (Nat.not_lt_zero k)⟩
  · rw [hserial]
    exact Nat.zero_le _
  · rw [howed, hserial]
    rfl

theorem counted_step (h : x.Balanced n) (hstep : counted.step (x, n) ev (x', n')) :
    x'.Balanced n' := by
  obtain ⟨hterm, hn, -⟩ := hstep
  change n' = n + ev.received at hn
  change terminal.step x ev x' at hterm
  have hreceived := h.received
  have hbalance := h.balance
  cases ev with
  | input bs =>
    obtain ⟨hok, -, -, woken, hwoken, hgrants⟩ := hterm
    have hserial := ((serial_handle_strokes (F := fun _ => True) bs).of_ok hok).2
    obtain ⟨hordered, hhead, htail, hcredit⟩ := h.ordered.strokes (strokes_printable bs)
    rw [← hserial] at hordered hhead htail hcredit
    have hlen := length_strokes bs
    -- those that are woken are owed a character each
    have howed : x'.owed = x.owed + woken.length := by
      rw [Terminal.owed, hgrants, List.countP_append, List.countP_map]
      congr 1
      exact List.countP_eq_length.mpr fun q _ => rfl
    have hlist := congrArg List.length hwoken
    rw [List.length_append] at hlist
    change x.kernel.serial.serial_sem.wait_list.length = woken.length +
      x'.kernel.serial.serial_sem.wait_list.length at hlist
    refine ⟨hordered, ?_, ?_⟩
    · change n' = n + bs.length at hn
      omega
    · unfold Sem.credit at hcredit
      omega
  | getchar proc r =>
    obtain ⟨-, hok, -, -, hgrants⟩ := hterm
    obtain ⟨-, hbuffer, htail, hclap, hvalue, hsum, hle⟩ := h.getchar.of_ok hok
    have howed : x'.owed = x.owed := by
      rw [Terminal.owed, hgrants, List.countP_append, List.countP_map]
      have hnone : List.countP ((fun g : ProcPtr × Option UInt8 => g.2.isNone) ∘
          fun ch => (proc, some ch)) r.toList = 0 := List.countP_eq_zero.mpr fun c _ => by simp
      rw [hnone]
      rfl
    refine ⟨⟨hle, ?_, hvalue, ?_⟩, ?_, ?_⟩
    · rw [hclap, htail]
      exact h.ordered.clapboard
    · rw [htail, hbuffer]
      exact h.ordered.typed
    · rw [htail, hn]
      exact h.received
    · rw [howed, hclap]
      omega
  | back proc ch =>
    obtain ⟨hgrant, -, hok, -, -, hgrants⟩ := hterm
    obtain ⟨hlt, -, hserial⟩ := getcharEnd_pops.of_ok hok
    have howed : x'.owed + 1 = x.owed := by
      rw [Terminal.owed, hgrants]
      exact countP_fillGrant hgrant
    refine ⟨?_, ?_, ?_⟩
    · rw [hserial]
      exact ⟨hlt, h.ordered.clapboard, h.ordered.value, h.ordered.typed⟩
    · rw [hserial, hn]
      exact hreceived
    · rw [hserial]
      change x.kernel.serial.serial_sem.value + x'.owed =
        (x.kernel.serial.clapboard : ℤ) - (x.kernel.serial.head + 1 : ℕ)
      omega
  | other =>
    obtain ⟨hserial, -, -, hgrants⟩ := hterm
    have howed : x'.owed = x.owed := by
      rw [Terminal.owed, hgrants, Terminal.owed]
    refine ⟨?_, ?_, ?_⟩
    · rw [hserial]
      exact h.ordered
    · rw [hserial, hn]
      exact hreceived
    · rw [howed, hserial]
      exact hbalance

theorem counted_balanced (h : counted.Reachable (x, n)) : x.Balanced n := by
  refine h.invariant (fun y => y.1.Balanced y.2) ?_ ?_
  · intro y hinit
    exact counted_init hinit
  · intro y ev y' hy hstep
    exact counted_step hy hstep

/-- **Readers never find the buffer empty.** The indices of the buffer are in order and the credits
are balanced by characters; so whoever gets past the semaphore is given a character. -/
theorem readers_find_characters (h : counted.Reachable (x, n)) :
    (x.kernel.serial.head ≤ x.kernel.serial.clapboard ∧
      x.kernel.serial.clapboard ≤ x.kernel.serial.tail ∧ x.kernel.serial.tail ≤ n) ∧
    x.kernel.serial.serial_sem.value + x.owed =
      (x.kernel.serial.clapboard : ℤ) - x.kernel.serial.head ∧
    (∀ proc, (proc, none) ∈ x.grants →
      wp pop_front (fun ch _ => ch ≠ 0) (fun _ => False) x.kernel ∧
      wp getcharEnd (fun ch _ => ch ≠ 0) (fun _ => False) x.kernel) ∧
    wp getchar (fun r _ => r ≠ some 0) (fun _ => False) x.kernel := by
  have hx := counted_balanced h
  refine ⟨⟨hx.ordered.head, hx.ordered.clapboard, hx.received⟩, hx.balance, ?_, ?_⟩
  · intro proc hg
    have hlt := hx.owed_lt hg
    refine ⟨?_, hx.ordered.getcharEnd hlt⟩
    refine (pop_front_pops hlt).imp ?_
    intro ch s' hpop
    rw [hpop.1]
    exact hx.ordered.front hlt
  · refine hx.getchar.imp ?_
    intro r s' hr
    exact hr.1

/-- A line of one character is typed. -/
theorem readers_find_characters_typed : ∃ x n, counted.Reachable (x, n) ∧
    x.kernel.serial.serial_sem.value = 2 ∧
    wp getchar (fun r _ => r ≠ some 0) (fun _ => False) x.kernel := by
  have hinit : counted.init (.quiet, 0) := ⟨quiet_init, rfl⟩
  obtain ⟨s₁, hs₁, hinput⟩ :=
    terminal_input (x := .quiet) [97, 13] [] [] rfl (by decide +kernel)
  have hfew : 2 < 2 ^ 31 := by decide
  have hstep : counted.step (.quiet, 0) (.input [97, 13]) (_, 2) := ⟨hinput, rfl, hfew⟩
  have hreach := (Lts.Reachable.init hinit).step hstep
  refine ⟨_, 2, hreach, ?_, (readers_find_characters hreach).2.2.2⟩
  rw [hs₁]
  decide +kernel

end Oslab
