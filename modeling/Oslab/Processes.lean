/-
# Processes and semaphores in every run

The kernel starts with the first process running and a shell that is ready. What
holds of processes and semaphores then is kept by every step of the machine, on
any disk.
-/
import Oslab.CoreRefine

namespace Oslab

open Lib Lib.Prog

variable {s s' : Kernel} {p q : ProcPtr} {image : Mem → Prop}

/-! ### Starting -/

/-- A process before `main`. -/
def Thread.zero : Thread := Proc.zero.thread

/-- Processes and semaphores before `main`. -/
def Core.zero : Core := ⟨fun _ => .zero, fun _ => sem_init 0, fun _ => 0, 0, 1⟩

theorem Kernel.zero_core (disk junk : Mem) : (Kernel.zero disk junk).core = Core.zero := by
  ext1
  · rfl
  · funext sp
    cases sp <;> rfl
  all_goals rfl

/-- Processes and semaphores when the kernel has started, with the shell in slot `p`. -/
def Core.started (p : ProcPtr) : Core where
  thread q := if q = 0 then { Thread.zero with status := .running }
    else if q = p then { Thread.zero with pid := 1, status := .ready } else .zero
  sem _ := sem_init 0
  usemRef _ := 0
  curr := 0
  next_pid := 2

theorem init_proc_spec (hzero : s.core.sem (.zombie 0) = sem_init 0) :
    wp init_proc (fun _ s' => s'.core = s.core.mod 0 ({ · with status := .running }))
      (fun _ => True) s := by
  rw [init_proc, wp_bind, modProc, wp_update]
  set s₁ : Kernel := { s with pcb := _ } with hs₁
  have hcore : s₁.core = s.core.mod 0 ({ · with status := .running }) := by
    ext1
    · funext q
      by_cases hq : q = 0
      · subst hq
        simp only [hs₁, Kernel.core, Core.mod, Function.update_self]
        rfl
      · simp only [hs₁, Kernel.core, Core.mod, Function.update_of_ne hq]
    · funext sp
      cases sp with
      | zombie q =>
        by_cases hq : q = 0
        · subst hq
          simp only [hs₁, Kernel.core, Core.mod, Kernel.sem, Function.update_self]
          exact hzero.symm
        · simp only [hs₁, Kernel.core, Core.mod, Kernel.sem, Function.update_of_ne hq]
      | user u => rfl
      | serial => rfl
    all_goals rfl
  have hrest : Keeps Kernel.core (do
      let cwd ← inFs (iopen none [SLASH] TYPE_NONE)
      let curr ← proc_curr
      modProc curr fun pr => { pr with cwd := cwd }) :=
    (keeps_inFs _).bind fun _ => Keeps.read.bind fun _ => keeps_setCwd _ _
  exact (hrest.wp s₁).imp fun _ s' hs' => hs'.trans hcore

theorem keeps_init_dev : Keeps Kernel.core init_dev :=
  (keeps_kopen _ _).bind fun _ => (keeps_deref _).bind fun _ => (keeps_inFs _).bind fun _ =>
    Keeps.read.bind fun _ => Keeps.read.bind fun _ => (keeps_inFs _).bind fun _ =>
      Keeps.read.bind fun _ => keeps_inFs _

/-- **The kernel starts** with the first process running and the shell ready. -/
theorem main_core (hs : s.core = Core.zero) :
    wp main (fun _ s => ∃ p, p ≠ 0 ∧ s.core = Core.started p) (fun _ => True) s := by
  rw [main, wp_bind]
  refine ((keeps_inFs init_fs).wp s).imp ?_
  rintro - s₁ hs₁
  rw [hs] at hs₁
  rw [wp_bind]
  refine (init_proc_spec (by rw [hs₁]; rfl)).imp ?_
  rintro - s₂ hs₂
  rw [wp_bind]
  refine (keeps_init_dev.wp s₂).imp ?_
  rintro - s₃ hs₃
  rw [init_user_and_go, wp_bind]
  refine proc_alloc_spec.imp ?_
  rintro r s₄ (⟨rfl, -⟩ | ⟨p, rfl, hp, -, -, hs₄⟩)
  · exact trivial
  -- loading the shell and opening its directory leave the processes alone
  · have hrest : wp (do
        let loaded ← load_user SH
        assert (loaded = true) .noShell
        let cwd ← kopen [SLASH] TYPE_NONE
        modProc p fun pr => { pr with cwd := cwd }
        proc_addready p)
        (fun _ s' => s'.core = s₄.core.mod p ({ · with status := .ready })) (fun _ => True) s₄ := by
      have hkeep : Keeps Kernel.core (do
          let loaded ← load_user SH
          assert (loaded = true) .noShell
          let cwd ← kopen [SLASH] TYPE_NONE
          modProc p fun pr => { pr with cwd := cwd }) :=
        ((keeps_load_elf SH).bind fun _ => Keeps.pure _).bind fun _ => (Keeps.assert _ _).bind
          fun _ => (keeps_kopen _ _).bind fun _ => keeps_setCwd _ _
      have hseq := (hkeep.wp s₄)
      simp only [wp_bind] at hseq ⊢
      refine hseq.imp fun loaded t h₁ => ?_
      refine h₁.imp fun _ t h₂ => h₂.imp fun cwd t h₃ => h₃.imp fun _ t ht => ?_
      exact ht ▸ proc_addready_spec p
    refine hrest.imp ?_
    rintro - s' hs'
    refine ⟨p, hp, ?_⟩
    rw [hs', hs₄, hs₃, hs₂, hs₁]
    ext1
    · funext q
      by_cases hqp : q = p
      · subst hqp
        simp only [Core.mod, Function.update_self, Core.started, if_neg hp, if_true,
          Function.update_of_ne hp]
        rfl
      · by_cases hq : q = 0
        · subst hq
          simp only [Core.mod, Function.update_of_ne hqp, Function.update_self, Core.started]
          rfl
        · simp only [Core.mod, Function.update_of_ne hqp, Function.update_of_ne hq, Core.started,
            if_neg hq, if_neg hqp]
          rfl
    · funext sp
      by_cases hsp : sp = .zombie p
      · subst hsp
        simp only [Core.mod, Function.update_self, Core.started]
      · simp only [Core.mod, Function.update_of_ne hsp, Core.started]
        cases sp <;> rfl
    all_goals rfl

/-! ### What holds at the start -/

theorem started_thread (hp : p ≠ 0) (q : ProcPtr) : (Core.started p).thread q =
    { Thread.zero with
      pid := if q = p then 1 else 0
      status := if q = 0 then .running else if q = p then .ready else .unused } := by
  by_cases hq : q = 0
  · subst hq
    simp [Core.started, hp.symm, Thread.zero, Proc.thread, Proc.zero]
  · by_cases hqp : q = p
    · simp [Core.started, hqp, hp, Thread.zero, Proc.thread, Proc.zero]
    · simp [Core.started, hq, hqp, Thread.zero, Proc.thread, Proc.zero]

/-- Processes and semaphores are sound at the start. -/
theorem started_sound (hp : p ≠ 0) : (Core.started p).Sound := by
  have hstatus (q : ProcPtr) : ((Core.started p).thread q).status =
      if q = 0 then .running else if q = p then .ready else .unused := by
    rw [started_thread hp]
  have hparent (q : ProcPtr) : ((Core.started p).thread q).parent = none := by
    rw [started_thread hp]
    rfl
  have husems (q : ProcPtr) : ((Core.started p).thread q).usems = fun _ => none := by
    rw [started_thread hp]
    rfl
  have hkont (q : ProcPtr) : ((Core.started p).thread q).kont = .user := by
    rw [started_thread hp]
    rfl
  have hkin : (Core.started p).kin = fun _ => none := by
    funext q
    unfold Core.kin
    rw [hparent]
    exact ite_self _
  have hzombies : (Core.started p).zombies = fun _ => none := by
    funext q
    unfold Core.zombies
    rw [hparent]
    exact ite_self _
  refine ⟨⟨Or.inl ?_, hkont 0, fun q => ?_, fun q hq => ?_⟩, ⟨fun sp => ?_, fun sp _ q hq => ?_,
    fun sp q hq => ?_, fun q hq => ?_, fun sp hne => ?_⟩, ⟨fun u => ?_, fun q _ => husems q,
    fun q _ => husems q⟩, ⟨fun q r hq => ?_, fun q _ => ?_, fun q _ => le_refl _, fun q _ => ?_⟩⟩
  · rw [hstatus, if_pos rfl]
  · rw [hstatus]
    split
    · simp
    · split <;> simp
  · rw [hstatus] at hq
    split at hq
    case isTrue h => exact h
    case isFalse => split at hq <;> cases hq
  · exact List.nodup_nil
  · cases hq
  · cases hq
  · rw [hstatus] at hq
    split at hq
    · cases hq
    · split at hq <;> cases hq
  · exact (hne rfl).elim
  · have htable : (Core.started p).usemTable = fun _ => none := by
      funext x
      unfold Core.usemTable
      rw [husems]
    rw [htable, refs_none]
    rfl
  · rw [hkin] at hq
    cases hq
  · rw [hkin, refs_none, started_thread hp]
    rfl
  · have hnot : ¬ (Core.started p).Pending q := by
      rintro ⟨hk, -⟩
      rw [hkont] at hk
      cases hk
    rw [hzombies, refs_none, Core.credit, if_neg hnot]
    rfl

/-! ### Every run -/

/-- What holds of processes and semaphores between two steps. -/
structure Kernel.Sound (s : Kernel) : Prop where
  core : s.core.Sound
  runs : (s.core.thread s.core.curr).status = .running

theorem boots_core {disk : Mem} (h : Boots disk s) :
    ∃ p, p ≠ 0 ∧ s.core = Core.started p := by
  obtain ⟨junk, hok⟩ := h
  generalize hs₀ : Kernel.zero disk junk = s₀ at hok
  have hcore : s₀.core = Core.zero := by
    rw [← hs₀]
    exact Kernel.zero_core disk junk
  exact (main_core hcore).of_ok hok

theorem Boots.sound {disk : Mem} (h : Boots disk s) : s.Sound := by
  obtain ⟨p, hp, hcore⟩ := boots_core h
  refine ⟨hcore ▸ started_sound hp, ?_⟩
  rw [hcore, started_thread hp]
  rfl

theorem Kernel.step.sound {l : Label} (h : s.Sound) (hstep : s.step l s') : s'.Sound := by
  obtain ⟨evs, -, hrun, hruns⟩ := s.step_core h.core h.runs hstep
  exact ⟨hrun.sound h.core, hruns⟩

/-- **Processes and semaphores are sound** in every state that can be reached. -/
theorem reachable_sound (h : (machine image).Reachable s) : s.Sound := by
  refine h.invariant Kernel.Sound ?_ ?_
  · rintro s ⟨disk, -, hboots⟩
    exact hboots.sound
  · intro s l t hs hstep
    exact Kernel.step.sound hs hstep

theorem run_sound {ls : List Label} (hinit : (machine image).init s)
    (h : (machine image).Run s ls s') : s'.Sound :=
  reachable_sound (h.reachable (.init hinit))

end Oslab
