/-
# The scheduler

`schedule` goes round the table of processes from the one after the current one.
The first process can always run, so the search ends; and each time a process is
passed over the distance to it gets smaller, so nobody is dispatched twice while
another process stays ready.
-/
import Oslab.Processes

namespace Oslab

open Lib Lib.Prog

variable {s s' t : Kernel} {c c' : Core} {p q : ProcPtr} {l : Label} {image : Mem → Prop}

/-! ### The order of the search -/

/-- The process found is the first one after the current process. -/
theorem nextProcs_find {ready : ProcPtr → Bool} {curr : ProcPtr}
    (h : (nextProcs curr).find? ready = some p) :
    ∃ k : ProcPtr, p = curr + 1 + k ∧ ready p = true ∧ ∀ j < k, ready (curr + 1 + j) = false := by
  obtain ⟨hp, i, hi, hget, hbefore⟩ := List.find?_eq_some_iff_getElem.mp h
  have hlen : (nextProcs curr).length = PROC_NUM := by simp [nextProcs]
  have hread (j : ℕ) (hj : j < PROC_NUM) (hj' : j < (nextProcs curr).length) :
      (nextProcs curr).get ⟨j, hj'⟩ = curr + 1 + ⟨j, hj⟩ := by
    simp [nextProcs]
  refine ⟨⟨i, hlen ▸ hi⟩, ?_, hp, fun j hj => ?_⟩
  · rw [← hget]
    exact hread i (hlen ▸ hi) hi
  · have hnot := hbefore j hj
    have hget := hread j j.isLt (hlen.symm ▸ j.isLt)
    rw [List.get_eq_getElem] at hget
    rw [hget] at hnot
    simpa using hnot

theorem mem_nextProcs (curr q : ProcPtr) : q ∈ nextProcs curr := by
  refine List.mem_map.mpr ⟨q - (curr + 1), List.mem_finRange _, ?_⟩
  abel

/-- How far it is from one process to another. -/
def lag (p q : ProcPtr) : ℕ := (q - p).val

/-- A process that is passed over is nearer than before. -/
theorem lag_lt {ready : ProcPtr → Bool} {curr : ProcPtr}
    (h : (nextProcs curr).find? ready = some p) (hq : ready q = true) (hne : q ≠ p)
    (hcurr : q ≠ curr) : lag p q < lag curr q := by
  obtain ⟨k, rfl, -, hbefore⟩ := nextProcs_find h
  set j : ProcPtr := q - (curr + 1) with hj
  have hqj : q = curr + 1 + j := by
    rw [hj]
    abel
  have hkj : k ≤ j := by
    by_contra hlt
    have hnot := hbefore j (not_le.mp hlt)
    rw [← hqj, hq] at hnot
    cases hnot
  have hkne : k ≠ j := by
    rintro rfl
    exact hne hqj
  have hpass : q - (curr + 1 + k) = j - k := by
    rw [hqj]
    abel
  have hfrom : q - curr = j + 1 := by
    rw [hqj]
    abel
  have hlast : j ≠ Fin.last 63 := by
    rintro heq
    refine hcurr (sub_eq_zero.mp ?_)
    rw [hfrom, heq]
    rfl
  have hjlt : j < Fin.last 63 := lt_of_le_of_ne (Fin.le_last j) hlast
  unfold lag
  rw [hpass, hfrom, Fin.sub_val_of_le hkj, Fin.val_add_one_of_lt hjlt]
  omega

/-! ### Who is ready -/

/-- Another process runs after the event. -/
def CoreEvent.dispatches : CoreEvent → Bool
  | .dispatch _ => true
  | _ => false

namespace Core

theorem Step.curr {ev : CoreEvent} (hstep : Step c ev c') (hev : ev.dispatches = false) :
    c'.curr = c.curr := by
  cases hstep with
  | give => exact give_curr
  | exit => exact tell_curr
  | dispatch => cases hev
  | _ => rfl

/-- A process that is ready stays so until it is dispatched. -/
theorem Step.ready {ev : CoreEvent} (hw : c.Waiting) (hstep : Step c ev c')
    (hev : ev.dispatches = false) (hq : (c.thread q).status = .ready) (hne : q ≠ c.curr) :
    (c'.thread q).status = .ready := by
  have hb : (c.thread q).status ≠ .blocked := by
    rw [hq]
    decide
  -- an event blocks only the current process, and reaps only a zombie
  cases hstep with
  | take => exact hq
  | takeZombie => exact (goto_status q).trans hq
  | block | openUsem | closeUsem =>
    simp only [Core.block, Core.mod, Core.setSem, Function.update_of_ne hne]
    exact hq
  | give =>
    rw [hw.give_thread hb]
    exact hq
  | @fork p _ _ hunused _ =>
    have hqp : q ≠ p := by
      rintro rfl
      rw [hunused] at hq
      cases hq
    simp only [Core.fork, Function.update_of_ne hqp, Function.update_of_ne hne]
    exact hq
  | @exit code hcalls =>
    have horph : ((c.orphan code).thread q).status = .ready := by
      rw [orphan_thread]
      exact (if_neg hne).trans hq
    have hb' : ((c.orphan code).thread q).status ≠ .blocked := by
      rw [horph]
      decide
    have hne' : q ≠ (c.orphan code).tell.curr := by
      rw [tell_curr]
      exact hne
    rw [Core.exit, goto_status, Core.release]
    simp only [Core.mod, Function.update_of_ne hne']
    rw [(hw.orphan hcalls.running code).tell_thread hb', horph]
  | @reap p _ _ _ hz =>
    have hqp : q ≠ p := by
      rintro rfl
      rw [hz] at hq
      cases hq
    rw [Core.reap, goto_status]
    simp only [Core.mod, Function.update_of_ne hqp, Function.update_of_ne hne]
    exact hq
  | yield =>
    rw [goto_status]
    simp only [Core.mod, Function.update_of_ne hne]
    exact hq
  | back => exact (goto_status q).trans hq
  | dispatch => cases hev

theorem Answers.dispatches {call : Call} {o : Outcome} {evs : List CoreEvent}
    (h : c.Answers call o evs) : ∀ ev ∈ evs, ev.dispatches = false := by
  intro ev hev
  cases h with
  | read =>
    rw [List.eq_of_mem_replicate hev]
    rfl
  | readBlock =>
    rcases List.mem_append.mp hev with hev | hev
    · rw [List.eq_of_mem_replicate hev]
      rfl
    · rw [List.mem_singleton.mp hev]
      rfl
  | quiet | forkNone | waitNone | semNone | openNone => cases hev
  | waitReap | waitYield => rcases List.mem_pair.mp hev with rfl | rfl <;> rfl
  | _ =>
    rw [List.mem_singleton.mp hev]
    rfl

theorem Resumes.dispatches {k : Kont} {o : Outcome} {evs : List CoreEvent}
    (h : c.Resumes k o evs) : ∀ ev ∈ evs, ev.dispatches = false := by
  intro ev hev
  cases h with
  | read | readBlock =>
    rcases List.mem_append.mp hev with hev | hev
    · rw [List.eq_of_mem_replicate hev]
      rfl
    · rw [List.mem_singleton.mp hev]
      rfl
  | _ =>
    rw [List.mem_singleton.mp hev]
    rfl

theorem Acts.dispatches {e : Event} {o : Outcome} {evs : List CoreEvent} (h : c.Acts e o evs) :
    ∀ ev ∈ evs, ev.dispatches = false := by
  cases h with
  | call ha => exact ha.dispatches
  | resume ha => exact ha.dispatches
  | timer =>
    intro ev hev
    rw [List.mem_singleton.mp hev]
    rfl

end Core

/-- Along events that are no dispatch the current process stays, and who is ready. -/
theorem CoreRun.ready {evs : List CoreEvent} (h : CoreRun c evs c') (hc : c.Sound)
    (hevs : ∀ ev ∈ evs, ev.dispatches = false) : c'.curr = c.curr ∧
      ∀ q, q ≠ c.curr → (c.thread q).status = .ready → (c'.thread q).status = .ready := by
  induction h with
  | refl => exact ⟨rfl, fun _ _ hq => hq⟩
  | tail hrun hstep ih =>
    obtain ⟨hcurr, hready⟩ := ih fun ev hev => hevs ev (by simp [hev])
    have hlast := hevs _ (List.mem_append_right _ (List.mem_singleton_self _))
    have hsound := CoreRun.sound hrun hc
    refine ⟨(Core.Step.curr hstep hlast).trans hcurr, fun q hne hq => ?_⟩
    exact Core.Step.ready hsound.waiting hstep hlast (hready q hne hq) (hcurr ▸ hne)

/-- When the current process has stopped, the first process is ready. -/
theorem Core.Turns.zero_ready (h : c.Turns) (hstop : (c.thread c.curr).status ≠ .running) :
    (c.thread 0).status = .ready := by
  rcases h.zero with hrun | hready
  · have heq := h.runs 0 hrun
    rw [heq] at hrun
    exact (hstop hrun).elim
  · exact hready

/-! ### When `schedule` is called -/

/-- On event `e` the kernel calls `schedule`, in state `t`. -/
def Kernel.Enters (s : Kernel) (e : Event) (t : Kernel) : Prop :=
  s.Enabled e ∧ ∃ k s₁, enter e s = .ok (some (.wait k), s₁) ∧
    modProc s₁.curr (fun pr => { pr with kont := k }) s₁ = .ok ((), t)

/-- The rest of the step is `schedule`. -/
theorem Kernel.Enters.handle {e : Event} (h : s.Enters e t) :
    handle e s = (do schedule; pure none) t := by
  obtain ⟨-, k, s₁, henter, hmod⟩ := h
  have hseq {α β : Type} {m : KernelM α} {f : α → KernelM β} {a : α} {s s₁ : Kernel}
      (hok : m s = .ok (a, s₁)) : (m >>= f) s = f a s₁ := by
    change seq m f s = _
    rw [seq, hok]
  rw [handle_eq, hseq henter]
  simp only [finish, switch, bind_assoc, proc_curr]
  rw [hseq (rfl : Prog.read Kernel.curr s₁ = .ok (s₁.curr, s₁)), hseq hmod]

/-- The step calls `schedule`: it gives no reply, and is no input from the serial port. -/
def Label.schedules : Label → Bool
  | ⟨_, .serial _, _⟩ => false
  | ⟨_, _, reply⟩ => reply.isNone

/-- Processes and semaphores when `schedule` is called: who called it does not run. -/
theorem Kernel.Enters.sound {e : Event} (hs : s.Sound) (h : s.Enters e t) :
    ∃ evs, (∀ ev ∈ evs, ev.dispatches = false) ∧ CoreRun s.core evs t.core ∧
      (t.core.thread t.core.curr).status ≠ .running := by
  obtain ⟨he, k, s₁, henter, hmod⟩ := h
  obtain ⟨evs, hacts, hrun⟩ := (enter_spec hs.core hs.runs he).of_ok henter
  have hcore : t.core = s₁.core.goto k :=
    (modProc_spec (F := fun _ => True) (fun pr => { pr with kont := k })
      (fun t => { t with kont := k }) (fun _ => rfl) fun _ => rfl).of_ok hmod
  obtain ⟨evs', ev, heq, hev⟩ := hacts.stops
  refine ⟨evs, hacts.dispatches, hcore ▸ hrun, ?_⟩
  rw [hcore]
  rw [heq] at hrun
  exact hrun.stopped hs.core hev

/-- `schedule` runs the process it finds. -/
theorem schedule_eq_of_find {p : ProcPtr}
    (hfind : (nextProcs t.curr).find? (fun p => (t.pcb p).status = .ready) = some p) :
    schedule t = .ok ((), { t with
      pcb := Function.update t.pcb p { t.pcb p with status := .running }, curr := p }) := by
  have hspec : wp schedule (fun _ u => u = { t with
      pcb := Function.update t.pcb p { t.pcb p with status := .running }, curr := p })
      (fun _ => False) t := by
    rw [schedule, wp_bind, wp_read]
    simp only [id, hfind]
    rw [wp_bind, modProc, wp_update, wp_update]
  obtain ⟨u, t', hrun, rfl⟩ := hspec.returns
  exact hrun

/-- **`schedule` finds a process**, the first one that is ready, and it alone runs. -/
theorem Kernel.Enters.schedule {e : Event} (hs : s.Sound) (h : s.Enters e t) :
    ∃ k u, schedule t = .ok ((), u) ∧ u.curr = t.curr + 1 + k ∧
      (t.pcb u.curr).status = .ready ∧ (∀ j < k, (t.pcb (t.curr + 1 + j)).status ≠ .ready) ∧
      ∀ q, (u.pcb q).status = .running ↔ q = u.curr := by
  obtain ⟨evs, -, hrun, hstop⟩ := h.sound hs
  have hsound := hrun.sound hs.core
  have hzero : (t.pcb 0).status = .ready := hsound.turns.zero_ready hstop
  cases hfind : (nextProcs t.curr).find? fun p => (t.pcb p).status = .ready with
  | none =>
    have hnot := List.find?_eq_none.mp hfind 0 (mem_nextProcs _ _)
    rw [hzero] at hnot
    simp at hnot
  | some p =>
    obtain ⟨k, rfl, hp, hbefore⟩ := nextProcs_find hfind
    set p := t.curr + 1 + k with hpk
    refine ⟨k, { t with
      pcb := Function.update t.pcb p { t.pcb p with status := .running }, curr := p }, ?_, rfl,
      by simpa using hp, fun j hj => by simpa using hbefore j hj, fun q => ?_⟩
    · exact schedule_eq_of_find hfind
    · by_cases hq : q = p
      · subst hq
        simp only [Function.update_self]
      · simp only [Function.update_of_ne hq]
        refine ⟨fun hq' => ?_, fun heq => (hq heq).elim⟩
        have heq := hsound.turns.runs q hq'
        rw [heq] at hq'
        exact (hstop hq').elim

/-! ### Nobody is overtaken twice -/

theorem Core.Moves.dispatches {evs : List CoreEvent} (h : c.Moves l evs) :
    (l.schedules = false ∧ ∀ ev ∈ evs, ev.dispatches = false) ∨
      (l.schedules = true ∧
        ∃ evs' p, evs = evs' ++ [.dispatch p] ∧ ∀ ev ∈ evs', ev.dispatches = false) := by
  cases h with
  | @reply pid e r evs ha =>
    refine Or.inl ⟨?_, ha.dispatches⟩
    cases e <;> rfl
  | wait ha =>
    refine Or.inr ⟨?_, _, _, rfl, ha.dispatches⟩
    cases ha <;> rfl
  | serial =>
    refine Or.inl ⟨rfl, fun ev hev => ?_⟩
    rw [List.eq_of_mem_replicate hev]
    rfl

/-- A step either leaves the processor to the current process, or gives it to the next one that
is ready. -/
theorem Kernel.step.turn (hs : s.Sound) (hstep : s.step l s') :
    (l.schedules = false ∧ s'.curr = s.curr) ∨
      (l.schedules = true ∧ ∃ ready, (nextProcs s.curr).find? ready = some s'.curr ∧
        ∀ q, q ≠ s.curr → (s.pcb q).status = .ready → ready q = true) := by
  obtain ⟨evs, hmoves, hrun, -⟩ := s.step_core hs.core hs.runs hstep
  rcases hmoves.dispatches with ⟨hl, hevs⟩ | ⟨hl, evs', p, rfl, hevs⟩
  · exact Or.inl ⟨hl, (hrun.ready hs.core hevs).1⟩
  · obtain ⟨c₁, hfirst, hlast⟩ := hrun.of_concat
    obtain ⟨hcurr, hready⟩ := CoreRun.ready hfirst hs.core hevs
    generalize hs' : s'.core = c' at hlast
    cases hlast with
    | dispatch _ hfind =>
      have hp : s'.curr = p := congrArg Core.curr hs'
      rw [hcurr] at hfind
      refine Or.inr ⟨hl, _, hp ▸ hfind, fun q hne hq => ?_⟩
      exact decide_eq_true (hready q hne hq)

/-- A run throughout which process `q` stays ready, with the processes dispatched in it. -/
inductive ReadyRun (q : ProcPtr) : Kernel → List ProcPtr → Kernel → Prop
  | refl {s : Kernel} : (s.pcb q).status = .ready → ReadyRun q s [] s
  | stay {s t u : Kernel} {ds : List ProcPtr} {l : Label} : ReadyRun q s ds t → t.step l u →
      l.schedules = false → (u.pcb q).status = .ready → ReadyRun q s ds u
  | dispatch {s t u : Kernel} {ds : List ProcPtr} {l : Label} : ReadyRun q s ds t → t.step l u →
      l.schedules = true → (u.pcb q).status = .ready → ReadyRun q s (ds ++ [u.curr]) u

theorem ReadyRun.sound {ds : List ProcPtr} (h : ReadyRun q s ds t) (hs : s.Sound) : t.Sound := by
  induction h with
  | refl => exact hs
  | stay _ hstep _ _ ih => exact hstep.sound ih
  | dispatch _ hstep _ _ ih => exact hstep.sound ih

theorem ReadyRun.status {ds : List ProcPtr} (h : ReadyRun q s ds t) :
    (t.pcb q).status = .ready := by
  cases h with
  | refl hq => exact hq
  | stay _ _ _ hq => exact hq
  | dispatch _ _ _ hq => exact hq

/-- Every dispatch brings the processor nearer to the process that stays ready. -/
theorem ReadyRun.lag {ds : List ProcPtr} (h : ReadyRun q s ds t) (hs : s.Sound) :
    (s.curr :: ds).Pairwise (fun d d' => lag d' q < lag d q) ∧
      ∀ d ∈ s.curr :: ds, lag t.curr q ≤ lag d q := by
  induction h with
  | refl => simp
  | @stay t u ds l hrun hstep hl hq ih =>
    obtain ⟨hpair, hle⟩ := ih
    rcases hstep.turn (hrun.sound hs) with ⟨-, hcurr⟩ | ⟨hl', -⟩
    · exact ⟨hpair, hcurr ▸ hle⟩
    · rw [hl] at hl'
      cases hl'
  | @dispatch t u ds l hrun hstep hl hq ih =>
    obtain ⟨hpair, hle⟩ := ih
    have ht := hrun.sound hs
    have hu := hstep.sound ht
    rcases hstep.turn ht with ⟨hl', -⟩ | ⟨-, ready, hfind, hready⟩
    · rw [hl] at hl'
      cases hl'
    · have hne (r : Kernel) (hr : r.Sound) (hqr : (r.pcb q).status = .ready) : q ≠ r.curr := by
        rintro rfl
        have hruns : (r.pcb r.curr).status = .running := hr.runs
        rw [hruns] at hqr
        cases hqr
      have hqt := hrun.status
      have hlt := lag_lt hfind (hready q (hne t ht hqt) hqt) (hne u hu hq) (hne t ht hqt)
      have hlast (d : ProcPtr) (hd : d ∈ s.curr :: ds) : Oslab.lag u.curr q < Oslab.lag d q :=
        lt_of_lt_of_le hlt (hle d hd)
      rw [← List.cons_append]
      refine ⟨List.pairwise_append.mpr ⟨hpair, List.pairwise_singleton _ _, ?_⟩, ?_⟩
      · intro d hd d' hd'
        rw [List.mem_singleton.mp hd']
        exact hlast d hd
      · intro d hd
        rcases List.mem_append.mp hd with hd | hd
        · exact (hlast d hd).le
        · rw [List.mem_singleton.mp hd]

/-- **The scheduler always finds a process and is round-robin.** -/
theorem scheduler_round_robin (x : (machine image).Reached) :
    (x.1.pcb 0).status ∉ [Status.blocked, .zombie, .unused] ∧
      (∀ e t, x.1.Enters e t → (t.pcb 0).status ∉ [Status.blocked, .zombie, .unused] ∧
        (∃ p, (t.pcb p).status = .ready) ∧
        ∃ (k : Fin 64) (u : Kernel), schedule t = .ok ((), u) ∧ u.curr = t.curr + 1 + k ∧
          (t.pcb u.curr).status = .ready ∧ (∀ j < k, (t.pcb (t.curr + 1 + j)).status ≠ .ready) ∧
          ∀ q, (u.pcb q).status = .running ↔ q = u.curr) ∧
      ∀ q ds t, ReadyRun q x.1 ds t → (x.1.curr :: ds).Nodup := by
  obtain ⟨s, h⟩ := x
  have hs := reachable_sound h
  have hzero : ∀ t : Kernel, t.core.Turns → (t.pcb 0).status ∉ [Status.blocked, .zombie, .unused] := by
    intro t ht
    rcases ht.zero with hrun | hready
    · have hstatus : (t.pcb 0).status = .running := hrun
      rw [hstatus]
      decide
    · have hstatus : (t.pcb 0).status = .ready := hready
      rw [hstatus]
      decide
  refine ⟨hzero s hs.core.turns, fun e t henters => ?_, fun q ds t hrun => ?_⟩
  · obtain ⟨evs, -, hevs, hstop⟩ := henters.sound hs
    have ht := hevs.sound hs.core
    exact ⟨hzero t ht.turns, ⟨0, ht.turns.zero_ready hstop⟩, henters.schedule hs⟩
  · refine (hrun.lag hs).1.imp ?_
    rintro d d' hlt rfl
    exact lt_irrefl _ hlt

end Oslab
