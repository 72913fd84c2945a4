/-
# Credits of a semaphore

Whatever else the kernel does, the value of a semaphore counts the credits that
have been given and not yet taken. A process that finds none waits in line, and
a new credit goes straight to the first in line. That needs a value that is not
negative at the start.
-/
import Oslab.CoreSpec
import Oslab.Machine

namespace Oslab

open Lib Lib.Prog

variable {s s' : Kernel} {sp : SemPtr} {value : ℤ} {proc q : ProcPtr} {u : UsemPtr}

/-! ### Runs -/

/-- What happens at a semaphore. -/
inductive SemEvent
  /-- the process calls `sem_p`, and is blocked or not -/
  | p (proc : ProcPtr) (blocked : Bool)
  /-- somebody calls `sem_v`, and a process is dequeued or not -/
  | v (woken : Option ProcPtr)
  /-- a process that has been dequeued returns from its `sem_p` -/
  | back (proc : ProcPtr)
  /-- something else -/
  | other

/-- The kernel and the processes that have been dequeued and have not run yet. -/
structure SemState where
  kernel : Kernel
  woken : List ProcPtr

/-- Nobody touches the semaphore, and who waits for it stays blocked. -/
def SemState.Frame (sp : SemPtr) (x x' : SemState) : Prop :=
  x'.kernel.sem sp = x.kernel.sem sp ∧
    ∀ q ∈ (x.kernel.sem sp).wait_list, (x.kernel.pcb q).status = .blocked →
      (x'.kernel.pcb q).status = .blocked

/-- One event at a semaphore, with what the two operations on it do. -/
def SemState.Step (sp : SemPtr) (opP : Kernel → Bool → Kernel → Prop) (opV : Kernel → Kernel → Prop)
    (x : SemState) : SemEvent → SemState → Prop
  | .p proc blocked, x' => x.kernel.curr = proc ∧ (x.kernel.pcb proc).status = .running ∧
      opP x.kernel blocked x'.kernel ∧ x'.woken = x.woken
  | .v woken, x' => opV x.kernel x'.kernel ∧
      (∀ q, woken = some q ↔
        q ∈ (x.kernel.sem sp).wait_list ∧ q ∉ (x'.kernel.sem sp).wait_list) ∧
      x'.woken = x.woken ++ woken.toList
  | .back proc, x' => proc ∈ x.woken ∧ x.Frame sp x' ∧ x'.woken = x.woken.erase proc
  | .other, x' => x.Frame sp x' ∧ x'.woken = x.woken

/-- The operations on a semaphore, from its `sem_init`, by any processes in any order. -/
def semaphore (sp : SemPtr) (value : ℤ) : Lts SemState SemEvent where
  init x := x.kernel.sem sp = sem_init value ∧ x.woken = []
  step := SemState.Step sp (fun s blocked s' => sem_p sp s = .ok (blocked, s'))
    fun s s' => sem_v sp s = .ok ((), s')

/-- The number of calls of `sem_v`. -/
def vs (evs : List SemEvent) : ℕ := evs.countP fun
  | .v _ => true
  | _ => false

/-- The number of calls of `sem_p` that return at once. -/
def taken (evs : List SemEvent) : ℕ := evs.countP fun
  | .p _ blocked => !blocked
  | _ => false

/-- The processes that are blocked, in order. -/
def blockedBy (evs : List SemEvent) : List ProcPtr := evs.filterMap fun
  | .p proc blocked => if blocked then some proc else none
  | _ => none

/-- The processes that are dequeued, in order. -/
def wokenBy (evs : List SemEvent) : List ProcPtr := evs.filterMap fun
  | .v woken => woken
  | _ => none

/-- The number of processes that go on after they have been dequeued. -/
def backs (evs : List SemEvent) : ℕ := evs.countP fun
  | .back _ => true
  | _ => false

/-- The number of calls of `sem_p` that have their credit. -/
def granted (evs : List SemEvent) : ℕ := taken evs + (wokenBy evs).length

/-- The number of calls of `sem_p` that have returned. -/
def returned (evs : List SemEvent) : ℕ := taken evs + backs evs

/-! ### One operation -/

theorem sem_p_taken (h : sem_p sp s = .ok (false, s')) :
    (s.sem sp).value ≠ 0 ∧
      s'.sem sp = ⟨(s.sem sp).value - 1, (s.sem sp).wait_list⟩ ∧
      ∀ q, (s'.pcb q).status = (s.pcb q).status := by
  rcases (sem_p_spec (F := fun _ => True) sp).of_ok h with ⟨-, hv, hcore⟩ | ⟨hb, -⟩
  · refine ⟨hv, ?_, fun q => ?_⟩
    · change s'.core.sem sp = _
      rw [hcore, Core.take, Core.setSem]
      exact Function.update_self _ _ _
    · change (s'.core.thread q).status = _
      rw [hcore]
      rfl
  · cases hb

theorem sem_p_blocked (h : sem_p sp s = .ok (true, s')) :
    (s.sem sp).value = 0 ∧
      s'.sem sp = ⟨(s.sem sp).value, (s.sem sp).wait_list ++ [s.curr]⟩ ∧
      (s'.pcb s.curr).status = .blocked ∧
      ∀ q, q ≠ s.curr → (s'.pcb q).status = (s.pcb q).status := by
  rcases (sem_p_spec (F := fun _ => True) sp).of_ok h with ⟨hb, -⟩ | ⟨-, hv, hcore⟩
  · cases hb
  · -- where the process goes on is of no interest here
    have hgoto := hcore .user
    have hstatus (q : ProcPtr) :
        (s'.pcb q).status = ((s.core.block sp .user).thread q).status := by
      rw [← hgoto]
      by_cases hq : q = s'.core.curr
      · subst hq
        simp only [Core.goto, Core.mod, Function.update_self]
        rfl
      · simp only [Core.goto, Core.mod, Function.update_of_ne hq]
        rfl
    refine ⟨hv, ?_, ?_, fun q hq => ?_⟩
    · have hsem : (s'.core.goto .user).sem sp = (s.core.block sp .user).sem sp := by rw [hgoto]
      refine hsem.trans ?_
      simp only [Core.block, Core.mod, Core.setSem, Function.update_self]
      rfl
    · rw [hstatus]
      have hcurr : s.core.curr = s.curr := rfl
      simp only [Core.block, Core.mod, Core.setSem, hcurr, Function.update_self]
    · rw [hstatus]
      have hq' : q ≠ s.core.curr := hq
      simp only [Core.block, Core.mod, Core.setSem, Function.update_of_ne hq']
      rfl

theorem sem_v_nil (h : sem_v sp s = .ok ((), s')) (hnil : (s.sem sp).wait_list = []) :
    s'.sem sp = ⟨(s.sem sp).value + 1, []⟩ ∧ ∀ q, (s'.pcb q).status = (s.pcb q).status := by
  have hcore := (sem_v_spec (F := fun _ => True) sp).of_ok h
  have hnil' : (s.core.sem sp).wait_list = [] := hnil
  simp only [Core.give, hnil'] at hcore
  refine ⟨?_, fun q => ?_⟩
  · change s'.core.sem sp = _
    rw [hcore, Core.setSem]
    simp only [Function.update_self]
    rfl
  · change (s'.core.thread q).status = _
    rw [hcore]
    rfl

theorem sem_v_cons {l : List ProcPtr} (h : sem_v sp s = .ok ((), s'))
    (hcons : (s.sem sp).wait_list = q :: l) :
    s'.sem sp = ⟨(s.sem sp).value, l⟩ ∧ (s'.pcb q).status = .ready ∧
      ∀ r, r ≠ q → (s'.pcb r).status = (s.pcb r).status := by
  have hcore := (sem_v_spec (F := fun _ => True) sp).of_ok h
  have hcons' : (s.core.sem sp).wait_list = q :: l := hcons
  simp only [Core.give, hcons'] at hcore
  refine ⟨?_, ?_, fun r hr => ?_⟩
  · change s'.core.sem sp = _
    rw [hcore]
    simp only [Core.mod, Core.setSem, Function.update_self]
    rfl
  · change (s'.core.thread q).status = _
    rw [hcore]
    simp only [Core.mod, Core.setSem, Function.update_self]
  · change (s'.core.thread r).status = _
    rw [hcore]
    simp only [Core.mod, Core.setSem, Function.update_of_ne hr]
    rfl

/-! ### The books of a semaphore -/

/-- What the value and the wait list of a semaphore say of what has happened to it. -/
structure Balanced (sp : SemPtr) (value : ℤ) (evs : List SemEvent) (x : SemState) : Prop where
  value : (x.kernel.sem sp).value = value + vs evs - granted evs
  order : blockedBy evs = wokenBy evs ++ (x.kernel.sem sp).wait_list
  woken : (wokenBy evs).length = backs evs + x.woken.length
  nodup : (x.kernel.sem sp).wait_list.Nodup
  blocked : ∀ q ∈ (x.kernel.sem sp).wait_list, (x.kernel.pcb q).status = .blocked

variable {x x' x₀ : SemState} {ev : SemEvent} {evs : List SemEvent}

theorem balanced_init (h : (semaphore sp value).init x) : Balanced sp value [] x := by
  obtain ⟨hsem, hwoken⟩ := h
  constructor
  · rw [hsem]
    simp [sem_init, vs, granted, taken, wokenBy]
  · rw [hsem]
    rfl
  · rw [hwoken]
    rfl
  · rw [hsem]
    exact List.nodup_nil
  · intro q hq
    rw [hsem] at hq
    cases hq

/-- The semaphore and who waits for it are left alone, and the event counts for nothing but
a process that goes on. -/
theorem Balanced.frame (h : Balanced sp value evs x) (hframe : x.Frame sp x')
    (hvs : vs (evs ++ [ev]) = vs evs) (hgranted : granted (evs ++ [ev]) = granted evs)
    (hby : blockedBy (evs ++ [ev]) = blockedBy evs) (hwoken : wokenBy (evs ++ [ev]) = wokenBy evs)
    (hbacks : backs (evs ++ [ev]) + x'.woken.length = backs evs + x.woken.length) :
    Balanced sp value (evs ++ [ev]) x' := by
  obtain ⟨hsem, hstay⟩ := hframe
  constructor
  · rw [hsem, hvs, hgranted]
    exact h.value
  · rw [hsem, hby, hwoken]
    exact h.order
  · rw [hwoken, hbacks]
    exact h.woken
  · rw [hsem]
    exact h.nodup
  · intro q hq
    rw [hsem] at hq
    exact hstay q hq (h.blocked q hq)

/-- The books are kept by every event. -/
theorem Balanced.step (h : Balanced sp value evs x) (hstep : (semaphore sp value).step x ev x') :
    Balanced sp value (evs ++ [ev]) x' := by
  cases ev with
  | p proc blocked =>
    obtain ⟨rfl, hrun, hp, hwoken⟩ := hstep
    have hfree : x.kernel.curr ∉ (x.kernel.sem sp).wait_list := by
      intro hmem
      rw [h.blocked _ hmem] at hrun
      cases hrun
    cases blocked with
    | false =>
      obtain ⟨-, hsem, hstatus⟩ := sem_p_taken hp
      constructor
      · have hvalue := h.value
        rw [hsem]
        simp [vs, granted, taken, wokenBy, List.countP_append] at hvalue ⊢
        omega
      · rw [hsem]
        simpa [blockedBy, wokenBy] using h.order
      · rw [hwoken]
        simpa [wokenBy, backs, List.countP_append] using h.woken
      · rw [hsem]
        exact h.nodup
      · intro q hq
        rw [hsem] at hq
        rw [hstatus]
        exact h.blocked q hq
    | true =>
      obtain ⟨-, hsem, hcurr, hstatus⟩ := sem_p_blocked hp
      constructor
      · rw [hsem]
        simpa [vs, granted, taken, wokenBy, List.countP_append] using h.value
      · have horder := h.order
        rw [hsem]
        simp [blockedBy, wokenBy] at horder ⊢
        rw [horder, List.append_assoc]
      · rw [hwoken]
        simpa [wokenBy, backs, List.countP_append] using h.woken
      · rw [hsem]
        exact List.Nodup.append h.nodup (List.nodup_singleton _) (by simpa using hfree)
      · intro q hq
        rw [hsem] at hq
        by_cases hqc : q = x.kernel.curr
        · subst hqc
          exact hcurr
        · rw [hstatus q hqc]
          refine h.blocked q ?_
          simpa [hqc] using hq
  | v woken =>
    obtain ⟨hv, hwho, hwoken⟩ := hstep
    cases hl : (x.kernel.sem sp).wait_list with
    | nil =>
      -- nobody waits, so the credit is kept
      obtain ⟨hsem, hstatus⟩ := sem_v_nil hv hl
      obtain rfl : woken = none := by
        cases woken with
        | none => rfl
        | some q =>
          have hmem := ((hwho q).mp rfl).1
          rw [hl] at hmem
          cases hmem
      constructor
      · have hvalue := h.value
        rw [hsem]
        simp [vs, granted, taken, wokenBy, List.countP_append] at hvalue ⊢
        omega
      · have horder := h.order
        rw [hl] at horder
        rw [hsem]
        simpa [blockedBy, wokenBy] using horder
      · rw [hwoken]
        simpa [wokenBy, backs, List.countP_append] using h.woken
      · rw [hsem]
        exact List.nodup_nil
      · intro q hq
        rw [hsem] at hq
        cases hq
    | cons q rest =>
      -- the first in line has the credit
      obtain ⟨hsem, hready, hstatus⟩ := sem_v_cons hv hl
      have hnd := h.nodup
      rw [hl, List.nodup_cons] at hnd
      obtain rfl : woken = some q := by
        refine (hwho q).mpr ⟨?_, ?_⟩
        · rw [hl]
          exact List.mem_cons_self
        · rw [hsem]
          exact hnd.1
      constructor
      · have hvalue := h.value
        rw [hsem]
        simp [vs, granted, taken, wokenBy, List.countP_append] at hvalue ⊢
        omega
      · have horder := h.order
        rw [hl] at horder
        rw [hsem]
        simp [blockedBy, wokenBy] at horder ⊢
        exact horder
      · have hlen := h.woken
        rw [hwoken]
        simp [wokenBy, backs, List.countP_append] at hlen ⊢
        omega
      · rw [hsem]
        exact hnd.2
      · intro r hr
        rw [hsem] at hr
        have hrq : r ≠ q := by
          rintro rfl
          exact hnd.1 hr
        rw [hstatus r hrq]
        refine h.blocked r ?_
        rw [hl]
        exact List.mem_cons_of_mem _ hr
  | back proc =>
    obtain ⟨hmem, hframe, hwoken⟩ := hstep
    have hpos := List.length_pos_of_mem hmem
    refine h.frame hframe ?_ ?_ ?_ ?_ ?_
    · simp [vs, List.countP_append]
    · simp [granted, taken, wokenBy, List.countP_append]
    · simp [blockedBy]
    · simp [wokenBy]
    · rw [hwoken, List.length_erase_of_mem hmem]
      simp only [backs, List.countP_append, List.countP_singleton, if_true]
      omega
  | other =>
    obtain ⟨hframe, hwoken⟩ := hstep
    refine h.frame hframe ?_ ?_ ?_ ?_ ?_
    · simp [vs, List.countP_append]
    · simp [granted, taken, wokenBy, List.countP_append]
    · simp [blockedBy]
    · simp [wokenBy]
    · rw [hwoken]
      simp [backs, List.countP_append]

/-- **The books are right** in every run. -/
theorem run_balanced (hinit : (semaphore sp value).init x₀)
    (h : (semaphore sp value).Run x₀ evs x) : Balanced sp value evs x := by
  induction h with
  | refl => exact balanced_init hinit
  | tail _ hstep ih => exact ih.step hstep

/-- A semaphore that somebody waits for has no credits, and none has less than none. -/
structure Full (sp : SemPtr) (x : SemState) : Prop where
  nonneg : 0 ≤ (x.kernel.sem sp).value
  zero : (x.kernel.sem sp).wait_list ≠ [] → (x.kernel.sem sp).value = 0

theorem Full.step (h : Full sp x) (hstep : (semaphore sp value).step x ev x') : Full sp x' := by
  obtain ⟨hnonneg, hzero⟩ := h
  cases ev with
  | p proc blocked =>
    obtain ⟨-, -, hp, -⟩ := hstep
    cases blocked with
    | false =>
      obtain ⟨hne, hsem, -⟩ := sem_p_taken hp
      constructor
      · rw [hsem]
        change 0 ≤ (x.kernel.sem sp).value - 1
        omega
      · intro hlist
        rw [hsem] at hlist
        exact (hne (hzero hlist)).elim
    | true =>
      obtain ⟨hv, hsem, -⟩ := sem_p_blocked hp
      rw [hv] at hsem
      constructor
      · rw [hsem]
      · intro _
        rw [hsem]
  | v woken =>
    obtain ⟨hv, -, -⟩ := hstep
    -- without a waiter the value grows, and with one it stays zero
    cases hl : (x.kernel.sem sp).wait_list with
    | nil =>
      obtain ⟨hsem, -⟩ := sem_v_nil hv hl
      constructor
      · rw [hsem]
        change 0 ≤ (x.kernel.sem sp).value + 1
        omega
      · intro hne
        rw [hsem] at hne
        exact (hne rfl).elim
    | cons q rest =>
      obtain ⟨hsem, -⟩ := sem_v_cons hv hl
      have hv₀ := hzero (by simp [hl])
      rw [hv₀] at hsem
      constructor
      · rw [hsem]
      · intro _
        rw [hsem]
  | back proc =>
    obtain ⟨-, ⟨hsem, -⟩, -⟩ := hstep
    constructor
    · rwa [hsem]
    · rwa [hsem]
  | other =>
    obtain ⟨⟨hsem, -⟩, -⟩ := hstep
    constructor
    · rwa [hsem]
    · rwa [hsem]

theorem run_full (hvalue : 0 ≤ value) (hinit : (semaphore sp value).init x₀)
    (h : (semaphore sp value).Run x₀ evs x) : Full sp x := by
  refine h.invariant (Full sp) (fun _ _ _ => Full.step) ?_
  constructor
  · rw [hinit.1]
    exact hvalue
  · intro hne
    rw [hinit.1] at hne
    exact (hne rfl).elim

/-- `sem_v` hands the credit to the first in line, or keeps it when nobody waits. -/
def Hands (sp : SemPtr) (x : SemState) (woken : Option ProcPtr) (x' : SemState) : Prop :=
  (∃ q rest, woken = some q ∧ (x.kernel.sem sp).wait_list = q :: rest ∧
      x'.kernel.sem sp = ⟨(x.kernel.sem sp).value, rest⟩ ∧ (x'.kernel.pcb q).status = .ready) ∨
    (woken = none ∧ (x.kernel.sem sp).wait_list = [] ∧
      x'.kernel.sem sp = ⟨(x.kernel.sem sp).value + 1, []⟩)

theorem hands (h : (x.kernel.sem sp).wait_list.Nodup) {woken : Option ProcPtr}
    (hstep : (semaphore sp value).step x (.v woken) x') : Hands sp x woken x' := by
  obtain ⟨hv, hwho, -⟩ := hstep
  cases hl : (x.kernel.sem sp).wait_list with
  | nil =>
    refine Or.inr ⟨?_, hl, (sem_v_nil hv hl).1⟩
    cases woken with
    | none => rfl
    | some q =>
      have hmem := ((hwho q).mp rfl).1
      rw [hl] at hmem
      cases hmem
  | cons q rest =>
    obtain ⟨hsem, hready, -⟩ := sem_v_cons hv hl
    rw [hl, List.nodup_cons] at h
    refine Or.inl ⟨q, rest, (hwho q).mpr ⟨?_, ?_⟩, hl, hsem, hready⟩
    · rw [hl]
      exact List.mem_cons_self
    · rw [hsem]
      exact h.1

/-- **No credit is lost and none is counted twice**, no process waits while there is a credit, and
the processes that wait are served in the order in which they came. -/
theorem semaphore_accounts (hvalue : 0 ≤ value) (hinit : (semaphore sp value).init x₀)
    (h : (semaphore sp value).Run x₀ evs x) :
    (x.kernel.sem sp).value = value + vs evs - granted evs ∧
      0 ≤ (x.kernel.sem sp).value ∧
      (vs evs < 2 ^ 31 - value → (x.kernel.sem sp).value ≤ INT_MAX) ∧
      ((x.kernel.sem sp).wait_list ≠ [] → (x.kernel.sem sp).value = 0) ∧
      blockedBy evs = wokenBy evs ++ (x.kernel.sem sp).wait_list ∧
      ∀ woken x', (semaphore sp value).step x (.v woken) x' → Hands sp x woken x' := by
  have hb := run_balanced hinit h
  have hf := run_full hvalue hinit h
  refine ⟨hb.value, hf.nonneg, fun hfew => ?_, hf.zero, hb.order, fun _ _ hstep =>
    hands hb.nodup hstep⟩
  have hcount := hb.value
  have hmax : INT_MAX = 2 ^ 31 - 1 := by decide
  omega

/-! ### A run -/

/-- At zero the process is blocked and goes to the end of the line. -/
theorem p_blocks (value : ℤ) {l : List ProcPtr} (hrun : (x.kernel.pcb x.kernel.curr).status = .running)
    (hsem : x.kernel.sem sp = ⟨0, l⟩) : ∃ x', (semaphore sp value).step x (.p x.kernel.curr true) x' ∧
      x'.kernel.sem sp = ⟨0, l ++ [x.kernel.curr]⟩ ∧ x'.woken = x.woken := by
  obtain ⟨blocked, s', hok, -⟩ := (sem_p_spec (F := fun _ => False) sp).returns (s := x.kernel)
  cases blocked with
  | false =>
    refine ((sem_p_taken hok).1 ?_).elim
    rw [hsem]
  | true =>
    obtain ⟨-, hsem', -⟩ := sem_p_blocked hok
    rw [hsem] at hsem'
    exact ⟨⟨s', x.woken⟩, ⟨rfl, hrun, hok, rfl⟩, hsem', rfl⟩

/-- With a credit left the process goes on. -/
theorem p_takes (value : ℤ) {v : ℤ} {l : List ProcPtr} (hrun : (x.kernel.pcb x.kernel.curr).status = .running)
    (hsem : x.kernel.sem sp = ⟨v, l⟩) (hv : v ≠ 0) :
    ∃ x', (semaphore sp value).step x (.p x.kernel.curr false) x' ∧
      x'.kernel.sem sp = ⟨v - 1, l⟩ ∧ x'.woken = x.woken := by
  obtain ⟨blocked, s', hok, -⟩ := (sem_p_spec (F := fun _ => False) sp).returns (s := x.kernel)
  cases blocked with
  | false =>
    obtain ⟨-, hsem', -⟩ := sem_p_taken hok
    rw [hsem] at hsem'
    exact ⟨⟨s', x.woken⟩, ⟨rfl, hrun, hok, rfl⟩, hsem', rfl⟩
  | true =>
    have hzero := (sem_p_blocked hok).1
    rw [hsem] at hzero
    exact (hv hzero).elim

/-- The first in line is woken. -/
theorem v_wakes (value : ℤ) {v : ℤ} {l : List ProcPtr} (hsem : x.kernel.sem sp = ⟨v, q :: l⟩)
    (hnodup : (q :: l).Nodup) : ∃ x', (semaphore sp value).step x (.v (some q)) x' ∧
      x'.kernel.sem sp = ⟨v, l⟩ ∧ x'.woken = x.woken ++ [q] := by
  obtain ⟨⟨⟩, s', hok, -⟩ := (sem_v_spec (F := fun _ => False) sp).returns (s := x.kernel)
  have hlist : (x.kernel.sem sp).wait_list = q :: l := by rw [hsem]
  have hsem' := (sem_v_cons hok hlist).1
  rw [hsem] at hsem'
  refine ⟨⟨s', x.woken ++ [q]⟩, ⟨hok, ?_, rfl⟩, hsem', rfl⟩
  intro r
  rw [hsem, hsem']
  have hq := (List.nodup_cons.mp hnodup).1
  constructor
  · rintro ⟨⟩
    exact ⟨List.mem_cons_self, hq⟩
  · rintro ⟨hmem, hnot⟩
    rw [(List.mem_cons.mp hmem).resolve_right hnot]

/-- Nobody waits, and the credit is kept. -/
theorem v_keeps (value : ℤ) {v : ℤ} (hsem : x.kernel.sem sp = ⟨v, []⟩) :
    ∃ x', (semaphore sp value).step x (.v none) x' ∧ x'.kernel.sem sp = ⟨v + 1, []⟩ ∧
      x'.woken = x.woken := by
  obtain ⟨⟨⟩, s', hok, -⟩ := (sem_v_spec (F := fun _ => False) sp).returns (s := x.kernel)
  have hlist : (x.kernel.sem sp).wait_list = [] := by rw [hsem]
  have hsem' := (sem_v_nil hok hlist).1
  rw [hsem] at hsem'
  refine ⟨⟨s', x.woken⟩, ⟨hok, ?_, (List.append_nil _).symm⟩, hsem', rfl⟩
  intro r
  rw [hsem]
  constructor
  · rintro ⟨⟩
  · rintro ⟨hmem, -⟩
    cases hmem

/-- Somebody who does not wait is let run. -/
theorem other_runs (value : ℤ) (hq : q ∉ (x.kernel.sem sp).wait_list) :
    ∃ x', (semaphore sp value).step x .other x' ∧ x'.kernel.curr = q ∧
      (x'.kernel.pcb x'.kernel.curr).status = .running ∧ x'.kernel.sem sp = x.kernel.sem sp ∧
      x'.woken = x.woken := by
  have hsem : Kernel.sem { x.kernel with
      curr := q
      pcb := Function.update x.kernel.pcb q { x.kernel.pcb q with status := .running } } sp =
        x.kernel.sem sp := by
    cases sp with
    | user u => rfl
    | serial => rfl
    | zombie r =>
      by_cases hr : r = q
      · subst hr
        simp only [Kernel.sem, Function.update_self]
      · simp only [Kernel.sem, Function.update_of_ne hr]
  refine ⟨⟨_, x.woken⟩, ⟨⟨hsem, ?_⟩, rfl⟩, rfl, ?_, hsem, rfl⟩
  · intro r hr hblocked
    have hrq : r ≠ q := by
      rintro rfl
      exact hq hr
    simp only [Function.update_of_ne hrq]
    exact hblocked
  · simp only [Function.update_self]

/-- Two processes wait and are woken in turn, and a third one takes the credit that is left. -/
theorem semaphore_accounts_hand_over : ∃ x₀ x x', (semaphore .serial 0).init x₀ ∧
    (semaphore .serial 0).Run x₀ [.other, .p 1 true, .other, .p 2 true] x ∧
    x.kernel.sem .serial = ⟨0, [1, 2]⟩ ∧
    (semaphore .serial 0).step x (.v (some 1)) x' ∧ Hands .serial x (some 1) x' ∧
    ∃ x'', (semaphore .serial 0).Run x'
        [.v (some 2), .v none, .other, .p 3 false, .back 1] x'' ∧
      x''.kernel.sem .serial = ⟨0, []⟩ ∧ x''.woken = [2] := by
  set x₀ : SemState := ⟨Kernel.zero (fun _ => 0) fun _ => 0, []⟩ with hx₀
  have hinit : (semaphore .serial 0).init x₀ := ⟨rfl, rfl⟩
  -- both find nothing
  have hq₀ : 1 ∉ (x₀.kernel.sem .serial).wait_list := List.not_mem_nil
  obtain ⟨x₁, h₁, hcurr₁, hrun₁, hsem₁, hwoken₁⟩ := other_runs 0 hq₀
  obtain ⟨x₂, h₂, hsem₂, hwoken₂⟩ := p_blocks 0 hrun₁ hsem₁
  rw [hcurr₁] at h₂ hsem₂
  have hq₂ : 2 ∉ (x₂.kernel.sem .serial).wait_list := by
    rw [hsem₂]
    decide
  obtain ⟨x₃, h₃, hcurr₃, hrun₃, hsem₃, hwoken₃⟩ := other_runs 0 hq₂
  rw [hsem₂] at hsem₃
  obtain ⟨x₄, h₄, hsem₄, hwoken₄⟩ := p_blocks 0 hrun₃ hsem₃
  rw [hcurr₃] at h₄ hsem₄
  have hrun : (semaphore .serial 0).Run x₀ [.other, .p 1 true, .other, .p 2 true] x₄ :=
    (((Lts.Run.single h₁).tail h₂).tail h₃).tail h₄
  -- each is handed a credit
  obtain ⟨x₅, h₅, hsem₅, hwoken₅⟩ := v_wakes 0 hsem₄ (by decide)
  obtain ⟨x₆, h₆, hsem₆, hwoken₆⟩ := v_wakes 0 hsem₅ (by decide)
  obtain ⟨x₇, h₇, hsem₇, hwoken₇⟩ := v_keeps 0 hsem₆
  have hq₇ : 3 ∉ (x₇.kernel.sem .serial).wait_list := by
    rw [hsem₇]
    decide
  obtain ⟨x₈, h₈, hcurr₈, hrun₈, hsem₈, hwoken₈⟩ := other_runs 0 hq₇
  rw [hsem₇] at hsem₈
  obtain ⟨x₉, h₉, hsem₉, hwoken₉⟩ := p_takes 0 hrun₈ hsem₈ (by decide)
  rw [hcurr₈] at h₉
  have hwoken : x₉.woken = [1, 2] := by
    rw [hwoken₉, hwoken₈, hwoken₇, hwoken₆, hwoken₅, hwoken₄, hwoken₃, hwoken₂, hwoken₁]
    rfl
  have hback : (semaphore .serial 0).step x₉ (.back 1) ⟨x₉.kernel, [2]⟩ := by
    refine ⟨?_, ⟨rfl, fun _ _ hblocked => hblocked⟩, ?_⟩
    · rw [hwoken]
      exact List.mem_cons_self
    · rw [hwoken]
      rfl
  obtain ⟨-, -, -, -, -, hhands⟩ := semaphore_accounts le_rfl hinit hrun
  have hrun' := ((((Lts.Run.single h₆).tail h₇).tail h₈).tail h₉).tail hback
  -- the books say what is left
  obtain ⟨hvalue, -, -, -, horder, -⟩ :=
    semaphore_accounts le_rfl hinit ((hrun.tail h₅).trans hrun')
  refine ⟨x₀, x₄, x₅, hinit, hrun, hsem₄, h₅, hhands _ _ h₅, ⟨x₉.kernel, [2]⟩, hrun', ?_, rfl⟩
  have hlist : [1, 2] = [1, 2] ++ (x₉.kernel.sem .serial).wait_list := horder
  have hnil := List.append_cancel_left ((List.append_nil _).trans hlist)
  have hzero : (x₉.kernel.sem .serial).value = 0 := hvalue
  exact congrArg₂ Sem.mk hzero hnil.symm

end Oslab
