/-
# Waiting for children

`wait` finds every child that has exited, once: what the counters of a process
say, what the table of processes holds and what the run tells are the same.
-/
import Oslab.Ledger

namespace Oslab

open Lib Lib.Prog

variable {s s' s₀ : Kernel} {p q : ProcPtr} {l : Label} {ls : List Label} {m n code : ℤ}
  {image : Mem → Prop}

namespace Kernel

/-- The process can still do something. -/
def Live (s : Kernel) (p : ProcPtr) : Prop :=
  (s.pcb p).status ≠ .unused ∧ (s.pcb p).status ≠ .zombie

/-- The children of a process, alive or not. -/
def children (s : Kernel) (p : ProcPtr) : Finset ProcPtr :=
  Finset.univ.filter fun q => (s.pcb q).status ≠ .unused ∧ (s.pcb q).parent = some p

/-- The children of a process that have exited and have not been reaped. -/
def zombies (s : Kernel) (p : ProcPtr) : Finset ProcPtr :=
  Finset.univ.filter fun q => (s.pcb q).status = .zombie ∧ (s.pcb q).parent = some p

/-- The process has taken a credit of its `zombie_sem` but has not finished `sys_wait`. -/
def Pending (s : Kernel) (p : ProcPtr) : Prop :=
  (s.pcb p).kont = .wait ∧ p ∉ (s.pcb p).zombie_sem.wait_list

instance (s : Kernel) (p : ProcPtr) : Decidable (s.Pending p) := inferInstanceAs (Decidable (_ ∧ _))

theorem card_children (s : Kernel) (p : ProcPtr) : ((s.children p).card : ℤ) = refs s.core.kin p := by
  unfold refs children
  congr 2
  ext q
  rw [Finset.mem_filter, Finset.mem_filter, Core.kin]
  split
  case isTrue h =>
    have hu : (s.pcb q).status = .unused := h
    simp [hu]
  case isFalse h =>
    have hu : (s.pcb q).status ≠ .unused := h
    simp only [hu, ne_eq, not_false_eq_true, true_and]
    rfl

theorem card_zombies (s : Kernel) (p : ProcPtr) :
    ((s.zombies p).card : ℤ) = refs s.core.zombies p := by
  unfold refs zombies
  congr 2
  ext q
  rw [Finset.mem_filter, Finset.mem_filter, Core.zombies]
  split
  case isTrue h =>
    have hz : (s.pcb q).status = .zombie := h
    simp only [hz, true_and]
    rfl
  case isFalse h =>
    have hz : (s.pcb q).status ≠ .zombie := h
    simp [hz]

end Kernel

/-- The counters of a process and its children. -/
structure Accounts (ls : List Label) (s : Kernel) (p : ProcPtr) : Prop where
  children : (s.pcb p).child_num = (s.children p).card
  forked : ∀ q ∈ s.children p, Forked ls (s.pcb p).pid (s.pcb q).pid
  zombies : (s.pcb p).zombie_sem.value + (if s.Pending p then 1 else 0) = (s.zombies p).card
  waits : p ∈ (s.pcb p).zombie_sem.wait_list → s.zombies p = ∅

theorem children_record (hq : q ∈ s.children p) :
    ∃ r, s.core.record q = some r ∧ r.pid = (s.pcb q).pid ∧ r.parent = some p := by
  obtain ⟨hu, hpar⟩ := (Finset.mem_filter.mp hq).2
  exact ⟨_, if_neg hu, rfl, hpar⟩

theorem accounts (hs : s.Sound) (hl : Ledger ls s.core) (hp : s.Live p) : Accounts ls s p := by
  have hlive : s.core.Live p := hp
  have hchild := hs.core.family.children p hlive
  have hcred := hs.core.family.credits p hlive
  rw [← s.card_children] at hchild
  rw [← s.card_zombies] at hcred
  refine ⟨hchild, fun q hq => ?_, hcred, fun hmem => ?_⟩
  · obtain ⟨r, hr, hpid, hpar⟩ := children_record hq
    obtain ⟨r', hr', -, hfork⟩ := hl.forked q p r hr hpar
    have hpid' : r'.pid = (s.pcb p).pid := Core.record_pid hr'
    rw [← hpid, ← hpid']
    exact hfork
  · -- who is in the wait list has no credit, neither in the semaphore nor taken
    have hfull := hs.core.waiting.full (.zombie p) (List.ne_nil_of_mem hmem)
    have hnot : ¬ s.core.Pending p := fun hpend => hpend.2 hmem
    rw [Core.credit, hfull, if_neg hnot, add_zero] at hcred
    exact Finset.card_eq_zero.mp (by exact_mod_cast hcred.symm)

/-- What `wait` does: a child is found at once if there is one, and when a process goes on after
its `sem_p` there is one. -/
structure Waits (ls : List Label) (s : Kernel) (l : Label) (s' : Kernel) : Prop where
  resumes : (s.pcb s.curr).kont = .wait → ∃ n code, l.Reaps n code
  finds : (∃ junk, l.event = .call .wait junk) → (s.zombies s.curr).Nonempty →
    ∃ n code, l.Reaps n code
  blocks : (∃ junk, l.event = .call .wait junk) → l.reply = none →
    (s'.pcb s.curr).status = .blocked ∧ s.curr ∈ (s'.pcb s.curr).zombie_sem.wait_list
  none : (∃ junk, l.event = .call .wait junk) →
    (l.reply = some (.int (-1)) ↔ ∀ n, Forked ls l.pid n → ∃ code, Reaped ls l.pid n code)

/-- Who runs can still do something. -/
theorem current_live (hs : s.Sound) : s.Live s.curr := by
  have hrun : (s.pcb s.curr).status = .running := hs.runs
  rw [Kernel.Live, hrun]
  decide

/-- A process without children has reaped all it has forked. -/
theorem no_children_iff (hs : s.Sound) (hl : Ledger ls s.core) :
    (s.pcb s.curr).child_num = 0 ↔
      ∀ n, Forked ls (s.pcb s.curr).pid n → ∃ code, Reaped ls (s.pcb s.curr).pid n code := by
  have hacc := accounts hs hl (current_live hs)
  have hcurr := running_record hs
  rw [hacc.children, Nat.cast_eq_zero, Finset.card_eq_zero]
  constructor
  · intro hempty n hfork
    rcases hl.kept _ n hfork with hreap | ⟨q, r, hr, hn, ⟨q', r', hq', hr', hm⟩ | ⟨-, code, hex⟩⟩
    · exact hreap
    · have heq : q' = s.curr := hl.distinct q' s.curr r' _ hr' hcurr hm
      subst heq
      have hmem : q ∈ s.children s.curr := by
        refine Finset.mem_filter.mpr ⟨Finset.mem_univ q, fun hu => ?_, ?_⟩
        · have hnone : s.core.record q = none := if_pos hu
          rw [hnone] at hr
          cases hr
        · unfold Core.record Thread.record at hr
          split at hr
          · cases hr
          · cases hr
            exact hq'
      rw [hempty] at hmem
      exact (Finset.notMem_empty q hmem).elim
    · exact (hl.alive s.curr _ code hcurr rfl hex).elim
  · intro hall
    refine Finset.eq_empty_iff_forall_notMem.mpr fun q hq => ?_
    obtain ⟨code, hreap⟩ := hall _ (hacc.forked q hq)
    obtain ⟨r, hr, hpid, -⟩ := children_record hq
    exact (hl.reaped _ _ code hreap).2.2 q r hr hpid

theorem zombies_nonempty (h : 0 < refs s.core.zombies p) :
    ∃ q, (s.core.thread q).parent = some p ∧ (s.core.thread q).status = .zombie := by
  obtain ⟨q, hq⟩ := refs_pos.mp h
  unfold Core.zombies at hq
  split at hq
  case isTrue hz => exact ⟨q, hq, hz⟩
  case isFalse => cases hq

theorem zombies_pos (h : (s.zombies p).Nonempty) : 0 < refs s.core.zombies p := by
  rw [← s.card_zombies]
  exact_mod_cast h.card_pos

/-- Who runs does not wait for its children. -/
theorem current_awake (hs : s.Sound) : s.core.curr ∉ (s.core.sem (.zombie s.core.curr)).wait_list := by
  intro hmem
  have hb := (hs.core.waiting.waits _ _ hmem).1
  rw [hs.runs] at hb
  cases hb

/-- Who goes on after its `sem_p` has a child to reap. -/
theorem resumed_zombie (hs : s.Sound) (hk : (s.core.thread s.core.curr).kont = .wait) :
    ∃ q, (s.core.thread q).parent = some s.core.curr ∧ (s.core.thread q).status = .zombie := by
  have hcred := hs.core.family.credits s.core.curr (current_live hs)
  have hval := hs.core.family.value s.core.curr (current_live hs)
  refine zombies_nonempty ?_
  rw [← hcred, Core.credit, if_pos ⟨hk, current_awake hs⟩]
  omega

/-- Who calls `wait` finds a credit for every child to reap. -/
theorem called_value (hs : s.Sound) (hk : (s.core.thread s.core.curr).kont = .user) :
    (s.core.sem (.zombie s.core.curr)).value = refs s.core.zombies s.core.curr := by
  rw [← hs.core.family.credits s.core.curr (current_live hs), Core.credit, if_neg, add_zero]
  rintro ⟨hk', -⟩
  rw [hk] at hk'
  cases hk'

/-- Who blocks for a child is in the wait list when another process has been found. -/
theorem block_waits {c c' : Core} (h : Core.Step (c.block (.zombie c.curr) .wait) (.dispatch p) c') :
    (c'.thread c.curr).status = .blocked ∧ c.curr ∈ (c'.sem (.zombie c.curr)).wait_list := by
  have hblock : ((c.block (.zombie c.curr) .wait).thread c.curr).status = .blocked := by
    simp only [Core.block, Core.mod, Core.setSem, Function.update_self]
  cases h with
  | dispatch _ hfind =>
    have hready := List.find?_some hfind
    have hne : c.curr ≠ p := by
      rintro rfl
      simp [hblock] at hready
    constructor
    · simp only [Core.mod, Function.update_of_ne hne]
      exact hblock
    · simp only [Core.mod, Core.block, Core.setSem, Function.update_self]
      exact List.mem_append_right _ (List.mem_singleton_self _)

/-- A call of `wait` fails without children, blocks when none has exited, and reaps otherwise. -/
theorem wait_cases {pid : ℤ} {reply : Option Reply} {junk : Mem} (hs : s.Sound)
    (hstep : s.step ⟨pid, .call .wait junk, reply⟩ s') :
    ((s.pcb s.curr).child_num = 0 ∧ reply = some (.int (-1))) ∨
      ((s.pcb s.curr).child_num ≠ 0 ∧ reply = none ∧ ¬ (s.zombies s.curr).Nonempty ∧
        (s'.pcb s.curr).status = .blocked ∧ s.curr ∈ (s'.pcb s.curr).zombie_sem.wait_list) ∨
      ((s.pcb s.curr).child_num ≠ 0 ∧ ∃ n code, reply = some (.child n code)) := by
  obtain ⟨evs, hmoves, hevs, -⟩ := s.step_core hs.core hs.runs hstep
  have hv := called_value hs hstep.2.1.1
  cases hmoves with
  | @reply _ _ r evs ha =>
    cases ha with
    | call ha =>
      cases ha with
      | quiet hq => cases hq
      | waitNone hzero => exact Or.inl ⟨hzero, rfl⟩
      | @waitReap p =>
        obtain ⟨c₁, hfirst, -⟩ := hevs.of_cons
        cases hfirst with
        | takeZombie _ hne _ => exact Or.inr (Or.inr ⟨hne, _, _, rfl⟩)
      | semNone _ hor => rcases hor with hor | hor | hor <;> cases hor
  | @wait _ _ k evs p ha =>
    cases ha with
    | call ha =>
      cases ha with
      | waitBlock =>
        obtain ⟨c₁, hfirst, hlast⟩ := hevs.of_cons
        cases hfirst with
        | block hcalls hzero hwaits =>
          have hnone : ¬ (s.zombies s.curr).Nonempty := by
            intro hne
            have hv' : (s.core.sem (.zombie s.core.curr)).value = 0 := hzero
            rw [hv] at hv'
            exact (zombies_pos hne).ne' hv'
          exact Or.inr (Or.inl ⟨hwaits.2.2, rfl, hnone, block_waits hlast.of_single⟩)
      -- a credit is there for a child that has exited
      | waitYield hall =>
        obtain ⟨c₁, hfirst, -⟩ := hevs.of_cons
        cases hfirst with
        | takeZombie _ _ hne =>
          rw [hv] at hne
          have hpos := lt_of_le_of_ne (refs_nonneg s.core.zombies s.core.curr) (Ne.symm hne)
          obtain ⟨q, hq⟩ := zombies_nonempty hpos
          exact (hall q hq).elim

/-- Who goes on after its `sem_p` reaps a child. -/
theorem resume_reaps (hs : s.Sound) (hk : (s.pcb s.curr).kont = .wait) (hstep : s.step l s') :
    ∃ n code, l.Reaps n code := by
  obtain ⟨evs, hmoves, -⟩ := s.step_core hs.core hs.runs hstep
  have hk' : (s.core.thread s.core.curr).kont = .wait := hk
  obtain ⟨q, hq⟩ := resumed_zombie hs hk'
  obtain ⟨pid, e, reply⟩ := l
  have henabled := hstep.2.1
  have hnotUser : (s.pcb s.curr).kont ≠ .user := by
    rw [hk]
    decide
  cases hmoves with
  | @reply _ _ r evs ha =>
    cases ha with
    | call ha => exact (hnotUser henabled.1).elim
    | resume ha =>
      rw [hk'] at ha
      cases ha with
      | reap => exact ⟨_, _, rfl⟩
  | @wait _ _ k evs p ha =>
    cases ha with
    | call ha => exact (hnotUser henabled.1).elim
    | resume ha =>
      rw [hk'] at ha
      cases ha with
      | again hall => exact (hall q hq).elim
    | timer => exact (hnotUser henabled).elim
  | serial => exact (hnotUser henabled).elim

/-- A child that has exited is a child. -/
theorem zombies_children (hs : s.Sound) (hl : Ledger ls s.core) (hne : (s.zombies s.curr).Nonempty) :
    (s.pcb s.curr).child_num ≠ 0 := by
  intro hzero
  obtain ⟨q, hq⟩ := hne
  obtain ⟨hz, hpar⟩ := (Finset.mem_filter.mp hq).2
  have hmem : q ∈ s.children s.curr := by
    refine Finset.mem_filter.mpr ⟨Finset.mem_univ q, ?_, hpar⟩
    rw [hz]
    decide
  have hpos := Finset.card_pos.mpr ⟨q, hmem⟩
  have hnum := (accounts hs hl (current_live hs)).children
  rw [hzero] at hnum
  have hcard : (s.children s.curr).card = 0 := by exact_mod_cast hnum.symm
  omega

/-- **`wait` answers for the children** of the process. -/
theorem waits (hs : s.Sound) (hl : Ledger ls s.core) (hstep : s.step l s') : Waits ls s l s' := by
  have hpid : l.pid = (s.pcb s.curr).pid := hstep.1
  refine ⟨fun hk => resume_reaps hs hk hstep, ?_, ?_, ?_⟩
  · rintro ⟨junk, he⟩ hne
    obtain ⟨pid, e, reply⟩ := l
    subst he
    rcases wait_cases hs hstep with ⟨hzero, -⟩ | ⟨-, -, hnone, -⟩ | ⟨-, n, code, hr⟩
    · exact (zombies_children hs hl hne hzero).elim
    · exact (hnone hne).elim
    · exact ⟨n, code, hr⟩
  · rintro ⟨junk, he⟩ hr
    obtain ⟨pid, e, reply⟩ := l
    subst he
    have hr : reply = none := hr
    rcases wait_cases hs hstep with ⟨-, hr'⟩ | ⟨-, -, -, hb, hmem⟩ | ⟨-, n, code, hr'⟩
    · rw [hr'] at hr
      cases hr
    · exact ⟨hb, hmem⟩
    · rw [hr'] at hr
      cases hr
  · rintro ⟨junk, he⟩
    obtain ⟨pid, e, reply⟩ := l
    subst he
    rw [hpid, ← no_children_iff hs hl]
    change reply = _ ↔ _
    rcases wait_cases hs hstep with ⟨hzero, hr⟩ | ⟨hne, hr, -⟩ | ⟨hne, n, code, hr⟩
    · rw [hr]
      simp [hzero]
    · rw [hr]
      simp [hne]
    · rw [hr]
      simp [hne]

/-- A child that has exited and was not reaped waits for its parent, with its number and its exit
code. -/
def Waiting (s : Kernel) (m n code : ℤ) : Prop :=
  ∃ p q, (s.pcb p).status = .zombie ∧ (s.pcb p).pid = n ∧ (s.pcb p).exit_code = code ∧
    (s.pcb p).parent = some q ∧ s.Live q ∧ (s.pcb q).pid = m

theorem Ledger.waiting (h : Ledger ls s.core) (hfork : Forked ls m n) (hexit : Exited ls n code)
    (hlive : ∀ code, ¬ Exited ls m code) (hreap : ∀ code, ¬ Reaped ls m n code) :
    Waiting s m n code := by
  rcases h.kept m n hfork with ⟨code', hr⟩ | ⟨p, r, hp, hn, ⟨q, r', hq, hr', hm⟩ | ⟨-, code', hm⟩⟩
  · exact (hreap code' hr).elim
  · have hpid := Core.record_pid hp
    have hpid' := Core.record_pid hr'
    obtain ⟨r'', hr'', hcode'', -⟩ := h.forked p q r hp hq
    rw [hr'] at hr''
    cases hr''
    cases hcode : r.code with
    | none => exact (h.alive p r code hp hcode (hn ▸ hexit)).elim
    | some code' =>
      obtain ⟨hz, hc⟩ := Core.record_code hp hcode
      have heq := h.code n code code' hexit (hn ▸ h.exited p r code' hp hcode)
      refine ⟨p, q, hz, hpid.symm.trans hn, hc.trans heq.symm, ?_, ?_, hpid'.symm.trans hm⟩
      · unfold Core.record Thread.record at hp
        split at hp
        · cases hp
        · cases hp
          exact hq
      · unfold Core.record Thread.record at hr'
        split at hr'
        · cases hr'
        case isFalse hu =>
          refine ⟨hu, fun hz' => ?_⟩
          have hz'' : (s.core.thread q).status = .zombie := hz'
          rw [if_pos hz''] at hr'
          cases hr'
          cases hcode''
  · exact (hlive code' hm).elim

/-- **No zombie is lost or reaped twice.** Between two steps the counters of every live process
count its children and its zombies; every `wait` answers as they say; who is reaped was forked by
the process that reaps it and has exited with the code that is returned, once; and who was not
reaped is still there for its parent. -/
theorem fork_exit_wait (h : (machine image).History) :
    (∀ p, h.last.Live p → Accounts h.labels h.last p) ∧
      (∀ l s', h.last.step l s' → Waits h.labels h.last l s') ∧
      (∀ m n code, Reaped h.labels m n code → Forked h.labels m n ∧ Exited h.labels n code) ∧
      (h.labels.Pairwise fun l l' => ∀ n code code', l.Reaps n code → ¬ l'.Reaps n code') ∧
      ∀ m n code, Forked h.labels m n → Exited h.labels n code →
        (∀ code, ¬ Exited h.labels m code) → (∀ code, ¬ Reaped h.labels m n code) →
          Waiting h.last m n code := by
  have hs := run_sound h.init h.run
  have hl := run_ledger h.init h.run
  refine ⟨fun p hp => accounts hs hl hp, fun l s' hstep => waits hs hl hstep,
    fun m n code hreap => ?_, hl.once, fun m n code hfork hexit hlive hreap => ?_⟩
  · obtain ⟨hfork, hexit, -⟩ := hl.reaped m n code hreap
    exact ⟨hfork, hexit⟩
  · exact hl.waiting hfork hexit hlive hreap

/-! ### Orphans -/

/-- What is recorded of a zombie without a parent stays. -/
theorem Changed.orphan {c c' : Core} {code : ℤ} (h : Changed c l c')
    (hp : c.record p = some ⟨n, none, some code⟩) (hne : p ≠ c.curr) :
    c'.record p = some ⟨n, none, some code⟩ := by
  cases h with
  | @fork p' _ _ _ hnone _ _ hrec =>
    have hpp : p ≠ p' := by
      rintro rfl
      rw [hp] at hnone
      cases hnone
    rw [hrec, Function.update_of_ne hpp, hp]
  | exit _ _ _ _ hrec =>
    rw [hrec, hp, Option.map_some, if_neg hne]
    simp
  | @reap p' _ _ _ _ _ _ hp' _ hrec =>
    have hpp : p ≠ p' := by
      rintro rfl
      rw [hp] at hp'
      cases hp'
    rw [hrec, Function.update_of_ne hpp, hp]
  | plain _ _ _ _ hrec => rw [hrec, hp]

theorem record_orphan {c : Core} {code : ℤ} (h : c.record p = some ⟨n, none, some code⟩) :
    (c.thread p).status = .zombie ∧ (c.thread p).pid = n ∧ (c.thread p).parent = none := by
  obtain ⟨hz, -⟩ := Core.record_code h rfl
  refine ⟨hz, (Core.record_pid h).symm, ?_⟩
  unfold Core.record Thread.record at h
  split at h
  · cases h
  · exact congrArg Record.parent (Option.some.inj h)

/-- Nobody can reap a process without a parent: it stays a zombie. -/
theorem orphan_stays {ls' : List Label} (hs : s.Sound) (hl : Ledger ls s.core)
    (h : (machine image).Run s ls' s') (hz : (s.pcb p).status = .zombie)
    (hpar : (s.pcb p).parent = none) :
    (s'.pcb p).status = .zombie ∧ (s'.pcb p).pid = (s.pcb p).pid ∧ (s'.pcb p).parent = none := by
  have hp : s.core.record p = some ⟨(s.pcb p).pid, none, some (s.pcb p).exit_code⟩ := by
    have hz' : (s.core.thread p).status = .zombie := hz
    have hpar' : (s.core.thread p).parent = none := hpar
    unfold Core.record Thread.record
    rw [hz', hpar']
    rfl
  suffices hstays : s'.Sound ∧ Ledger (ls ++ ls') s'.core ∧
      s'.core.record p = some ⟨(s.pcb p).pid, none, some (s.pcb p).exit_code⟩ from
    record_orphan hstays.2.2
  induction h with
  | refl => exact ⟨hs, by simpa using hl, hp⟩
  | @tail t u ls' l hrun hstep ih =>
    obtain ⟨ht, hlt, hpt⟩ := ih
    have hne : p ≠ t.core.curr := by
      rintro rfl
      have hrun := ht.runs
      rw [(record_orphan hpt).1] at hrun
      cases hrun
    refine ⟨Kernel.step.sound ht hstep, ?_, (Kernel.step.changed ht hlt hstep).orphan hpt hne⟩
    rw [← List.append_assoc]
    exact Kernel.step.ledger ht hlt hstep

/-- **Who can be reaped.** A zombie has a live parent, which has forked it, or none. It has none
exactly when whoever has forked it has exited, and then it stays a zombie for ever. -/
theorem zombie_parent (h : (machine image).History)
    (z : {p // (h.last.pcb p).status = .zombie}) :
    ((∃ q, (h.last.pcb z).parent = some q ∧ h.last.Live q ∧
          Forked h.labels (h.last.pcb q).pid (h.last.pcb z).pid) ∨
        (h.last.pcb z).parent = none) ∧
      ((h.last.pcb z).parent = none ↔
        ∀ m, Forked h.labels m (h.last.pcb z).pid → ∃ code, Exited h.labels m code) ∧
      ((h.last.pcb z).parent = none → ∀ ls' s', (machine image).Run h.last ls' s' →
        (s'.pcb z).status = .zombie ∧ (s'.pcb z).pid = (h.last.pcb z).pid ∧
          (s'.pcb z).parent = none) := by
  obtain ⟨s₀, ls, s, hinit, hrun⟩ := h
  obtain ⟨p, hz⟩ := z
  simp only at hz ⊢
  have hs := run_sound hinit hrun
  have hl := run_ledger hinit hrun
  -- the table remembers who forked it, as long as that one has not exited
  have hp : s.core.record p =
      some ⟨(s.pcb p).pid, (s.pcb p).parent, some (s.pcb p).exit_code⟩ := by
    have hz' : (s.core.thread p).status = .zombie := hz
    unfold Core.record Thread.record
    rw [hz']
    rfl
  have hlive (q : ProcPtr) (hq : (s.pcb p).parent = some q) :
      s.Live q ∧ ∃ r, s.core.record q = some r ∧ r.code = none ∧ r.pid = (s.pcb q).pid ∧
        Forked ls (s.pcb q).pid (s.pcb p).pid := by
    obtain ⟨r, hr, hcode, hfork⟩ := hl.forked p q _ hp hq
    have hpid : r.pid = (s.pcb q).pid := Core.record_pid hr
    rw [hpid] at hfork
    refine ⟨hs.core.family.parent p q ?_, r, hr, hcode, hpid, hfork⟩
    have hz' : (s.core.thread p).status = .zombie := hz
    rw [Core.kin, hz', if_neg (by decide)]
    exact hq
  refine ⟨?_, ⟨fun hnone m hfork => ?_, fun hall => ?_⟩, fun hnone ls' s' hrun => ?_⟩
  · cases hpar : (s.pcb p).parent with
    | none => exact Or.inr rfl
    | some q =>
      obtain ⟨hq, -, -, -, -, hfork⟩ := hlive q hpar
      exact Or.inl ⟨q, rfl, hq, hfork⟩
  · rcases hl.kept m _ hfork with ⟨code, hreap⟩ | ⟨q, r, hq, hn, hpar⟩
    · exact ((hl.reaped _ _ _ hreap).2.2 p _ hp rfl).elim
    · obtain rfl := hl.distinct q p r _ hq hp hn
      rw [hp] at hq
      cases hq
      rcases hpar with ⟨q', -, hq', -⟩ | ⟨-, code, hexit⟩
      · rw [hnone] at hq'
        cases hq'
      · exact ⟨code, hexit⟩
  · by_contra hne
    obtain ⟨q, hq⟩ := Option.ne_none_iff_exists'.mp hne
    obtain ⟨-, r, hr, hcode, hpid, hfork⟩ := hlive q hq
    obtain ⟨code, hexit⟩ := hall _ hfork
    exact hl.alive q r code hr hcode (hpid ▸ hexit)
  · exact orphan_stays hs hl hrun hz hnone

end Oslab
