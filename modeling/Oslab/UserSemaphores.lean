/-
# Semaphores that a process opens

A program names a semaphore by the number that `sys_sem_open` gives it, and the
system calls on it do what the operations do. `sem_p` blocks at zero only, so a
semaphore opened with a negative value lets processes through that nobody gave a
credit.
-/
import Oslab.Booting
import Oslab.Semaphores

namespace Oslab

open Lib Lib.Prog

variable {s s' : Kernel} {value v : ℤ} {u : UsemPtr} {x₀ x x' : SemState} {ev : SemEvent}
  {evs : List SemEvent}

/-- The number names the semaphore for the current process. -/
def Kernel.Names (s : Kernel) (sem_id : ℤ) (u : UsemPtr) : Prop :=
  ∃ i, entry (s.pcb s.curr).usems sem_id = some (i, u)

/-- The system calls on a semaphore, from the `sys_sem_open` that opens it. -/
def usemaphore (u : UsemPtr) (value : ℤ) : Lts SemState SemEvent where
  init x := x.woken = [] ∧
    ∃ s sem_id, sys_sem_open value s = .ok (.done (.int sem_id), x.kernel) ∧ x.kernel.Names sem_id u
  step := SemState.Step (.user u)
    (fun s blocked s' => ∃ sem_id, s.Names sem_id u ∧ sys_sem_p sem_id s =
      .ok (if blocked then .wait (.ret 0) else .done (.int 0), s'))
    fun s s' => ∃ sem_id, s.Names sem_id u ∧ sys_sem_v sem_id s = .ok (.done (.int 0), s')

theorem sys_sem_p_named {sem_id : ℤ} {blocked : Bool} (hname : s.Names sem_id u)
    (h : sys_sem_p sem_id s = .ok (if blocked then .wait (.ret 0) else .done (.int 0), s')) :
    sem_p (.user u) s = .ok (blocked, s') := by
  obtain ⟨i, hi⟩ := hname
  have hwp : wp (sys_sem_p sem_id) (fun o t => ∃ b, sem_p (.user u) s = .ok (b, t) ∧
      o = if b then .wait (.ret 0) else .done (.int 0)) (fun _ => True) s := by
    rw [sys_sem_p, wp_bind, proc_curr, wp_read, wp_bind, proc_getusem, wp_read, hi]
    simp only [wp_bind]
    refine wp_iff.mpr ⟨fun b t hok => ?_, fun _ _ => trivial⟩
    cases b with
    | false => exact ⟨false, hok, rfl⟩
    | true => exact ⟨true, hok, rfl⟩
  obtain ⟨b, hok, ho⟩ := hwp.of_ok h
  cases b <;> cases blocked
  · exact hok
  · cases ho
  · cases ho
  · exact hok

theorem sys_sem_v_named {sem_id : ℤ} (hname : s.Names sem_id u)
    (h : sys_sem_v sem_id s = .ok (.done (.int 0), s')) :
    sem_v (.user u) s = .ok ((), s') := by
  obtain ⟨i, hi⟩ := hname
  have hwp : wp (sys_sem_v sem_id) (fun _ t => sem_v (.user u) s = .ok ((), t))
      (fun _ => True) s := by
    rw [sys_sem_v, wp_bind, proc_curr, wp_read, wp_bind, proc_getusem, wp_read, hi]
    simp only [wp_bind]
    exact wp_iff.mpr ⟨fun _ t hok => hok, fun _ _ => trivial⟩
  exact hwp.of_ok h

/-- A semaphore that is opened has the value it is opened with. -/
theorem sys_sem_open_named {sem_id : ℤ} (h : sys_sem_open value s = .ok (.done (.int sem_id), s'))
    (hname : s'.Names sem_id u) : s'.sem (.user u) = sem_init value := by
  obtain ⟨i, hi⟩ := hname
  have hminus {n : ℕ} {α : Type} (table : Fin n → Option α) : entry table (-1) = none := by
    rw [entry, dif_neg (by omega)]
  have hwp : wp (sys_sem_open value) (fun o t => ∀ n, o = .done (.int n) →
      ∀ i, entry (t.pcb t.curr).usems n = some (i, u) → t.sem (.user u) = sem_init value)
      (fun _ => True) s := by
    have hfail (t : Kernel) : ∀ n, Outcome.done (.int (-1)) = .done (.int n) →
        ∀ i, entry (t.pcb t.curr).usems n = some (i, u) → t.sem (.user u) = sem_init value := by
      rintro n hn i hi
      cases hn
      rw [hminus] at hi
      cases hi
    rw [sys_sem_open, wp_bind, proc_curr, wp_read, wp_bind, proc_allocusem, wp_read]
    cases (List.finRange MAX_USEM).find? fun i => (s.pcb s.curr).usems i = none with
    | none => exact hfail s
    | some id =>
      simp only
      rw [wp_bind, usem_alloc, wp_bind, wp_read]
      cases (List.finRange USER_SEM_NUM).find? fun i => (s.user_sem i).ref = 0 with
      | none => exact hfail s
      | some v =>
        simp only [wp_bind, wp_update, wp_pure]
        rw [setUsem, modProc, wp_update]
        rintro n hn i hi
        cases hn
        rw [entry, dif_pos ⟨by omega, by omega⟩] at hi
        simp only [Int.toNat_natCast, Fin.eta, Function.update_self, Option.map_some,
          Option.some.injEq, Prod.mk.injEq] at hi
        obtain ⟨-, rfl⟩ := hi
        simp only [Kernel.sem, Function.update_self]
  exact hwp.of_ok h sem_id rfl i hi

theorem usemaphore_init (h : (usemaphore u value).init x) : (semaphore (.user u) value).init x := by
  obtain ⟨hwoken, s, sem_id, hopen, hname⟩ := h
  exact ⟨sys_sem_open_named hopen hname, hwoken⟩

theorem usemaphore_step (h : (usemaphore u value).step x ev x') :
    (semaphore (.user u) value).step x ev x' := by
  cases ev with
  | p proc blocked =>
    obtain ⟨hcurr, hrun, ⟨sem_id, hname, hp⟩, hwoken⟩ := h
    exact ⟨hcurr, hrun, sys_sem_p_named hname hp, hwoken⟩
  | v woken =>
    obtain ⟨⟨sem_id, hname, hv⟩, hwho, hwoken⟩ := h
    exact ⟨sys_sem_v_named hname hv, hwho, hwoken⟩
  | back proc => exact h
  | other => exact h

/-- The system calls do what the operations do. -/
theorem usemaphore_run (h : (usemaphore u value).Run x₀ evs x) :
    (semaphore (.user u) value).Run x₀ evs x := by
  induction h with
  | refl => exact .refl _
  | tail _ hstep ih => exact ih.tail (usemaphore_step hstep)

/-- With a negative value at the start, a process is let through at once. -/
theorem open_negative (id : Fin MAX_USEM) (hvalue : v < 0) (hrun : (s.pcb s.curr).status = .running)
    (hid : (List.finRange MAX_USEM).find? (fun i => (s.pcb s.curr).usems i = none) = some id)
    (hu : (List.finRange USER_SEM_NUM).find? (fun i => (s.user_sem i).ref = 0) = some u) :
    ∃ x₀ x, sys_sem_open v s = .ok (.done (.int id.val), x₀.kernel) ∧ x₀.kernel.Names id.val u ∧
      x₀.woken = [] ∧ (usemaphore u v).Run x₀ [.p s.curr false] x := by
  have hopen : wp (sys_sem_open v) (fun o s₁ => o = .done (.int id.val) ∧ s₁.Names id.val u ∧
      s₁.curr = s.curr ∧ (s₁.pcb s.curr).status = .running) (fun _ => False) s := by
    rw [sys_sem_open, wp_bind, proc_curr, wp_read, wp_bind, proc_allocusem, wp_read, hid]
    simp only
    rw [wp_bind, usem_alloc, wp_bind, wp_read, hu]
    simp only [wp_bind, wp_update, wp_pure]
    rw [setUsem, modProc, wp_update]
    refine ⟨rfl, ⟨id, ?_⟩, rfl, ?_⟩
    · rw [entry, dif_pos ⟨by omega, by omega⟩]
      simp
    · simp only [Function.update_self]
      exact hrun
  obtain ⟨o, s₁, hok, rfl, hname, hcurr, hrun₁⟩ := hopen.returns
  have hvalue₁ := sys_sem_open_named hok hname
  have hp : wp (sys_sem_p id.val) (fun o _ => o = .done (.int 0)) (fun _ => False) s₁ := by
    obtain ⟨i, hi⟩ := hname
    rw [sys_sem_p, wp_bind, proc_curr, wp_read, wp_bind, proc_getusem, wp_read, hi]
    simp only
    have hne : ¬ (sem_init v).value = 0 := hvalue.ne
    rw [wp_bind, sem_p, wp_bind, wp_read, hvalue₁, if_neg hne, wp_bind, setSem, wp_update, wp_pure]
    rfl
  obtain ⟨o, s₂, hok₂, rfl⟩ := hp.returns
  refine ⟨⟨s₁, []⟩, ⟨s₂, []⟩, hok, hname, rfl, .single ⟨hcurr, hrun₁, ⟨_, hname, hok₂⟩, rfl⟩⟩

/-- The first program can open a semaphore. -/
theorem Kernel.Fresh.open_negative (hs : s.Fresh) (hvalue : v < 0) :
    ∃ x₀ x, sys_sem_open v s = .ok (.done (.int 0), x₀.kernel) ∧ x₀.kernel.Names 0 0 ∧
      x₀.woken = [] ∧ (usemaphore 0 v).Run x₀ [.p s.curr false] x := by
  refine Oslab.open_negative 0 hvalue (reachable_sound hs.calling.reach).runs ?_ ?_
  · rw [hs.usems]
    rfl
  · simp only [hs.refs]
    rfl

/-- **Processes are let through with credits only**, exactly when the value at the start is not
negative. -/
theorem sem_open_credits (value : ℤ) : 0 ≤ value ↔ ∀ u x₀ evs x, (usemaphore u value).init x₀ →
    (usemaphore u value).Run x₀ evs x → (returned evs : ℤ) ≤ max value 0 + vs evs := by
  constructor
  · intro hvalue u x₀ evs x hinit h
    have hb := run_balanced (usemaphore_init hinit) (usemaphore_run h)
    have hf := run_full hvalue (usemaphore_init hinit) (usemaphore_run h)
    have hcount := hb.value
    have hnonneg := hf.nonneg
    have hwoken := hb.woken
    have hmax : max value 0 = value := max_eq_left hvalue
    rw [hmax, returned]
    rw [hcount, granted] at hnonneg
    omega
  · intro h
    by_contra hneg
    obtain ⟨-, -, s, -, -, hs⟩ := exists_fresh
    obtain ⟨x₀, x, hopen, hname, hwoken, hrun⟩ := hs.open_negative (not_le.mp hneg)
    have hle := h 0 x₀ _ x ⟨hwoken, s, _, hopen, hname⟩ hrun
    rw [max_eq_right (not_le.mp hneg).le] at hle
    simp [returned, taken, backs, vs] at hle

/-- When the shell opens a semaphore with -1, it is let through without any `sem_v`. -/
theorem sem_open_minus_one : ¬ ∀ (s : RunningApart) sem_id u x₀ evs x,
    sys_sem_open (-1) s.1 = .ok (.done (.int sem_id), x₀.kernel) → x₀.kernel.Names sem_id u →
    x₀.woken = [] → (usemaphore u (-1)).Run x₀ evs x →
    (returned evs : ℤ) ≤ max (-1) 0 + vs evs := by
  intro h
  obtain ⟨-, -, s, -, -, hs⟩ := exists_fresh
  obtain ⟨x₀, x, hopen, hname, hwoken, hrun⟩ := hs.open_negative (v := -1) (by decide)
  have hle := h ⟨s, hs.calling.reach⟩ _ _ x₀ _ x hopen hname hwoken hrun
  simp [returned, taken, backs, vs] at hle

end Oslab
