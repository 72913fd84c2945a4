/-
# Who forked, exited and was reaped

The labels of a run remember every `fork`, `exit` and `wait`. A process number is
given once, so they tell of every process in the table who made it, and of every
process that is gone who reaped it.
-/
import Oslab.Processes

namespace Oslab

open Lib Lib.Prog

variable {s s' s₀ : Kernel} {c c' : Core} {p q : ProcPtr} {l : Label} {ls : List Label}
  {image : Mem → Prop}

/-! ### What is kept about a process -/

/-- What `fork`, `exit` and `wait` deal with: the number of a process, its parent, and the code
it has exited with. -/
@[ext] structure Record where
  pid : ℤ
  parent : Option ProcPtr
  code : Option ℤ

def Thread.record (t : Thread) : Option Record :=
  if t.status = .unused then none
  else some ⟨t.pid, t.parent, if t.status = .zombie then some t.exit_code else none⟩

/-- The event is no `fork`, `exit` or `wait`. -/
def CoreEvent.plain : CoreEvent → Bool
  | .fork _ | .exit _ | .reap _ => false
  | _ => true

namespace Core

def record (c : Core) (p : ProcPtr) : Option Record := (c.thread p).record

theorem record_mod {f : Thread → Thread} (hf : (f (c.thread p)).record = (c.thread p).record) :
    (c.mod p f).record = c.record := by
  funext q
  unfold record Core.mod
  by_cases hq : q = p
  · subst hq
    simp only [Function.update_self]
    exact hf
  · simp only [Function.update_of_ne hq]

theorem record_goto {k : Kont} : (c.goto k).record = c.record := record_mod rfl

/-- A change of the status between two that are neither `unused` nor `zombie`. -/
theorem record_status {t : Thread} {st : Status} (h : t.status ≠ .unused) (h' : t.status ≠ .zombie)
    (hst : st ≠ .unused) (hst' : st ≠ .zombie) : Thread.record { t with status := st } = t.record := by
  simp only [Thread.record, if_neg h, if_neg h', if_neg hst, if_neg hst']

theorem record_give {sp : SemPtr} (hw : c.Waiting) : (c.give sp).record = c.record := by
  unfold Core.give
  cases hl : (c.sem sp).wait_list with
  | nil => rfl
  | cons q rest =>
    have hb := (hw.waits sp q (by rw [hl]; exact List.mem_cons_self)).1
    have hb' : ((c.setSem sp { c.sem sp with wait_list := rest }).thread q).status = .blocked := hb
    exact record_mod (record_status (by rw [hb']; decide) (by rw [hb']; decide) (by decide)
      (by decide))

theorem record_tell (hw : c.Waiting) : c.tell.record = c.record := by
  unfold Core.tell
  split
  · exact record_give hw
  · rfl

/-- The table of processes after an event. -/
inductive Recorded (c : Core) (c' : Core) : CoreEvent → Prop
  | fork {p : ProcPtr} : c.record p = none → p ≠ c.curr → c'.next_pid = c.next_pid + 1 →
      c'.record = Function.update c.record p (some ⟨c.next_pid, some c.curr, none⟩) →
      Recorded c c' (.fork p)
  | exit {code : ℤ} : c'.next_pid = c.next_pid →
      (∀ q, c'.record q = (c.record q).map fun r => { r with
        parent := if r.parent = some c.curr then none else r.parent
        code := if q = c.curr then some code else r.code }) → Recorded c c' (.exit code)
  | reap {p : ProcPtr} : c'.next_pid = c.next_pid → p ≠ c.curr →
      c.record p = some ⟨(c.thread p).pid, some c.curr, some (c.thread p).exit_code⟩ →
      c'.record = Function.update c.record p none → Recorded c c' (.reap p)
  | plain {ev : CoreEvent} : ev.plain = true → c'.next_pid = c.next_pid → c'.record = c.record →
      Recorded c c' ev

theorem Step.recorded {ev : CoreEvent} (hw : c.Waiting) (hstep : Step c ev c') :
    Recorded c c' ev := by
  cases hstep with
  | take => exact .plain rfl rfl rfl
  | takeZombie => exact .plain rfl rfl record_goto
  | block hcalls =>
    refine .plain rfl rfl (record_mod ?_)
    exact record_status (t := c.thread c.curr) (by rw [hcalls.running]; decide)
      (by rw [hcalls.running]; decide) (by decide) (by decide)
  | give =>
    refine .plain rfl ?_ (record_give hw)
    unfold Core.give
    split <;> rfl
  | @openUsem id u value =>
    have hmod := record_mod (c := c.setSem (.user u) (sem_init value)) (p := c.curr)
      (f := fun t => { t with usems := Function.update t.usems id (some u) }) rfl
    exact .plain rfl rfl hmod
  | @closeUsem id u =>
    have hmod := record_mod (c := c) (p := c.curr)
      (f := fun t => { t with usems := Function.update t.usems id none }) rfl
    exact .plain rfl rfl hmod
  | @fork p hcalls hp hunused _ =>
    have hne : p ≠ c.curr := by
      rintro rfl
      rw [hcalls.running] at hunused
      cases hunused
    refine .fork ?_ hne rfl ?_
    · rw [record, Thread.record, if_pos hunused]
    · funext q
      by_cases hq : q = p
      · subst hq
        rw [Function.update_self]
        simp only [record, Core.fork, Function.update_self]
        rfl
      · rw [Function.update_of_ne hq]
        by_cases hqc : q = c.curr
        · subst hqc
          simp only [record, Core.fork, Function.update_of_ne hq, Function.update_self]
          rfl
        · simp only [record, Core.fork, Function.update_of_ne hq, Function.update_of_ne hqc]
  | @exit code hcalls =>
    have horph := hw.orphan hcalls.running code
    refine .exit ?_ fun q => ?_
    · have htell : (c.orphan code).tell.next_pid = c.next_pid := by
        unfold Core.tell Core.give
        split
        · split <;> rfl
        · rfl
      exact htell
    · have hrec : (c.exit code).record = (c.orphan code).record := by
        rw [Core.exit, record_goto]
        have hmod := record_mod (c := (c.orphan code).tell) (p := (c.orphan code).tell.curr)
          (f := ({ · with usems := fun _ => none })) rfl
        exact hmod.trans (record_tell horph)
      rw [hrec, record, orphan_thread, record]
      by_cases hq : q = c.curr
      · subst hq
        simp [Thread.record, hcalls.running]
      · simp only [if_neg hq, Thread.record]
        by_cases hu : (c.thread q).status = .unused
        · simp [hu]
        · simp [hu]
  | @reap p hrun _ hpar hz =>
    have hne : p ≠ c.curr := by
      rintro rfl
      rw [hrun] at hz
      cases hz
    refine .reap rfl hne ?_ ?_
    · rw [record, Thread.record, hz, hpar]
      rfl
    · rw [Core.reap, record_goto]
      funext q
      by_cases hq : q = p
      · subst hq
        simp only [record, Core.mod, Function.update_self]
        rfl
      · rw [Function.update_of_ne hq]
        by_cases hqc : q = c.curr
        · subst hqc
          simp only [record, Core.mod, Function.update_of_ne hq, Function.update_self]
          rfl
        · simp only [record, Core.mod, Function.update_of_ne hq, Function.update_of_ne hqc]
  | yield hrun =>
    refine .plain rfl rfl ?_
    rw [record_goto]
    exact record_mod (record_status (by rw [hrun]; decide) (by rw [hrun]; decide) (by decide)
      (by decide))
  | back => exact .plain rfl rfl record_goto
  | @dispatch p _ hfind =>
    have hready : (c.thread p).status = .ready := by simpa using List.find?_some hfind
    refine .plain rfl rfl ?_
    have hmod := record_mod (c := c) (p := p) (f := ({ · with status := .running }))
      (record_status (by rw [hready]; decide) (by rw [hready]; decide) (by decide) (by decide))
    exact hmod

theorem record_pid {r : Record} (h : c.record p = some r) : r.pid = (c.thread p).pid := by
  unfold record Thread.record at h
  split at h
  · cases h
  · cases h
    rfl

theorem record_code {r : Record} {code : ℤ} (h : c.record p = some r) (hcode : r.code = some code) :
    (c.thread p).status = .zombie ∧ (c.thread p).exit_code = code := by
  unfold record Thread.record at h
  split at h
  · cases h
  · cases h
    simp only at hcode
    split at hcode
    case isTrue hz =>
      cases hcode
      exact ⟨hz, rfl⟩
    case isFalse => cases hcode

end Core

/-- Along events that are no `fork`, `exit` or `wait` nothing is recorded. -/
theorem CoreRun.recorded {evs : List CoreEvent} (h : CoreRun c evs c') (hc : c.Sound)
    (hevs : ∀ ev ∈ evs, ev.plain = true) : c'.next_pid = c.next_pid ∧ c'.record = c.record := by
  induction h with
  | refl => exact ⟨rfl, rfl⟩
  | tail hrun hstep ih =>
    obtain ⟨hnext, hrec⟩ := ih fun ev hev => hevs ev (by simp [hev])
    have hlast := hevs _ (List.mem_append_right _ (List.mem_singleton_self _))
    have hsound := CoreRun.sound hrun hc
    cases Core.Step.recorded hsound.waiting hstep with
    | fork | exit | reap => cases hlast
    | plain _ hnext' hrec' => exact ⟨hnext'.trans hnext, hrec'.trans hrec⟩

/-! ### What a label tells -/

/-- The process forks a child with number `n`. -/
def Label.Forks (l : Label) (n : ℤ) : Prop :=
  (∃ junk, l.event = .call .fork junk) ∧ l.reply = some (.int n) ∧ n ≠ -1

/-- The process exits. -/
def Label.Exits (l : Label) (code : ℤ) : Prop := ∃ junk, l.event = .call (.exit code) junk

/-- The process reaps a child. -/
def Label.Reaps (l : Label) (n code : ℤ) : Prop := l.reply = some (.child n code)

/-- The table of processes after a step, and what the label of the step tells of it. -/
inductive Changed (c : Core) (l : Label) (c' : Core) : Prop
  | fork {p : ProcPtr} : (∀ n, l.Forks n ↔ n = c.next_pid) → (∀ code, ¬ l.Exits code) →
      (∀ n code, ¬ l.Reaps n code) → c.record p = none → p ≠ c.curr →
      c'.next_pid = c.next_pid + 1 →
      c'.record = Function.update c.record p (some ⟨c.next_pid, some c.curr, none⟩) →
      Changed c l c'
  | exit {code : ℤ} : (∀ n, ¬ l.Forks n) → l.Exits code → (∀ n code, ¬ l.Reaps n code) →
      c'.next_pid = c.next_pid →
      (∀ q, c'.record q = (c.record q).map fun r => { r with
        parent := if r.parent = some c.curr then none else r.parent
        code := if q = c.curr then some code else r.code }) → Changed c l c'
  | reap {p : ProcPtr} {n code : ℤ} : (∀ n, ¬ l.Forks n) → (∀ code, ¬ l.Exits code) →
      (∀ n' code', l.Reaps n' code' ↔ n' = n ∧ code' = code) → p ≠ c.curr →
      c.record p = some ⟨n, some c.curr, some code⟩ → c'.next_pid = c.next_pid →
      c'.record = Function.update c.record p none → Changed c l c'
  | plain : (∀ n, ¬ l.Forks n) → (∀ code, ¬ l.Exits code) → (∀ n code, ¬ l.Reaps n code) →
      c'.next_pid = c.next_pid → c'.record = c.record → Changed c l c'

theorem plain_takes {n : ℕ} : ∀ ev ∈ Core.takes n, ev.plain = true := by
  intro ev hev
  rw [List.eq_of_mem_replicate hev]
  rfl

/-- The child found by `proc_findzombie` is reaped. -/
theorem Core.Recorded.reaped {n code : ℤ} (h : Core.Recorded c c' (.reap p))
    (hn : n = (c.thread p).pid) (hcode : code = (c.thread p).exit_code) :
    p ≠ c.curr ∧ c.record p = some ⟨n, some c.curr, some code⟩ ∧ c'.next_pid = c.next_pid ∧
      c'.record = Function.update c.record p none := by
  cases h with
  | reap hnext hne hp hrec =>
    subst hn hcode
    exact ⟨hne, hp, hnext, hrec⟩
  | plain hplain => cases hplain

/-- **The labels tell what happens** to the table of processes. -/
theorem Core.Moves.changed {evs : List CoreEvent} (hc : c.Sound) (hpid : c.next_pid ≠ -1)
    (h : c.Moves l evs) (hrun : CoreRun c evs c') : Changed c l c' := by
  -- steps whose events are all plain
  have hplain (hevs : ∀ ev ∈ evs, ev.plain = true) (hf : ∀ n, ¬ l.Forks n)
      (he : ∀ code, ¬ l.Exits code) (hr : ∀ n code, ¬ l.Reaps n code) : Changed c l c' := by
    obtain ⟨hnext, hrec⟩ := hrun.recorded hc hevs
    exact .plain hf he hr hnext hrec
  cases h with
  | @reply pid e r evs ha =>
    cases ha with
    | @call call junk _ _ ha =>
      cases ha with
      | quiet hq hr =>
        refine hplain (by simp) ?_ ?_ ?_
        · rintro n ⟨⟨junk, hcall⟩, -⟩
          cases hcall
          cases hq
        · rintro code ⟨junk, hcall⟩
          cases hcall
          cases hq
        · rintro n code hr'
          cases hr'
          cases hr
      | read =>
        exact hplain plain_takes (by simp [Label.Forks]) (by simp [Label.Exits])
          (by simp [Label.Reaps])
      | @fork p =>
        cases Core.Step.recorded hc.waiting hrun.of_single with
        | fork hnone hne hnext hrec =>
          refine .fork (fun n => ?_) (by simp [Label.Exits]) (by simp [Label.Reaps]) hnone hne
            hnext hrec
          simp only [Label.Forks, exists_apply_eq_apply', true_and]
          constructor
          · rintro ⟨⟨_⟩, -⟩
            rfl
          · rintro rfl
            exact ⟨rfl, hpid⟩
        | plain hplain => cases hplain
      | @waitReap p =>
        obtain ⟨c₁, hfirst, hlast⟩ := hrun.of_cons
        cases Core.Step.recorded hc.waiting hfirst with
        | plain _ hnext₁ hrec₁ =>
          have hc₁ := Core.Step.sound hc hfirst
          have hcurr : c₁.curr = c.curr := by
            cases hfirst
            rfl
          obtain ⟨hne, hp, hnext, hrec⟩ :=
            (Core.Step.recorded hc₁.waiting hlast.of_single).reaped rfl rfl
          rw [hrec₁] at hp hrec
          rw [hcurr] at hp hne
          have hnum : (c₁.thread p).pid = (c.thread p).pid := Core.record_pid hp
          obtain ⟨-, hcode⟩ := Core.record_code hp rfl
          refine .reap (by simp [Label.Forks]) (by simp [Label.Exits]) (fun n code => ?_) hne hp
            (hnext.trans hnext₁) hrec
          rw [hnum, ← hcode]
          simp only [Label.Reaps, Option.some.injEq, Reply.child.injEq]
          exact ⟨fun h => ⟨h.1.symm, h.2.symm⟩, fun h => ⟨h.1.symm, h.2.symm⟩⟩
      | semNone hentry hcall =>
        rcases hcall with rfl | rfl | rfl <;>
          exact hplain (by simp) (by simp [Label.Forks]) (by simp [Label.Exits])
            (by simp [Label.Reaps])
      | forkNone | waitNone | openNone | «open» | close | semTake | semGive =>
        exact hplain (by simp [CoreEvent.plain]) (by simp [Label.Forks]) (by simp [Label.Exits])
          (by simp [Label.Reaps])
    | resume ha =>
      generalize (c.thread c.curr).kont = k at ha
      cases ha with
      | @reap p =>
        obtain ⟨hne, hp, hnext, hrec⟩ :=
          (Core.Step.recorded hc.waiting hrun.of_single).reaped rfl rfl
        refine .reap (by simp [Label.Forks]) (by simp [Label.Exits]) (fun n code => ?_) hne hp
          hnext hrec
        simp only [Label.Reaps, Option.some.injEq, Reply.child.injEq]
        exact ⟨fun h => ⟨h.1.symm, h.2.symm⟩, fun h => ⟨h.1.symm, h.2.symm⟩⟩
      | read =>
        refine hplain ?_ (by simp [Label.Forks]) (by simp [Label.Exits]) (by simp [Label.Reaps])
        intro ev hev
        rcases List.mem_append.mp hev with hev | hev
        · exact plain_takes ev hev
        · rw [List.mem_singleton.mp hev]
          rfl
      | ret | wake =>
        exact hplain (by simp [CoreEvent.plain]) (by simp [Label.Forks]) (by simp [Label.Exits])
          (by simp [Label.Reaps])
  | @wait pid e k evs p ha =>
    cases ha with
    | @call call junk _ _ ha =>
      cases ha with
      | @exit code =>
        obtain ⟨c₁, hfirst, hlast⟩ := hrun.of_cons
        have hc₁ := Core.Step.sound hc hfirst
        cases Core.Step.recorded hc.waiting hfirst with
        | exit hnext₁ hrec₁ =>
          obtain ⟨hnext, hrec⟩ := CoreRun.recorded hlast hc₁ (by simp [CoreEvent.plain])
          refine .exit (by simp [Label.Forks]) ⟨junk, rfl⟩ (by simp [Label.Reaps])
            (hnext.trans hnext₁) fun q => ?_
          rw [hrec]
          exact hrec₁ q
        | plain hplain => cases hplain
      | readBlock =>
        refine hplain ?_ (by simp [Label.Forks]) (by simp [Label.Exits]) (by simp [Label.Reaps])
        intro ev hev
        simp only [List.append_assoc, List.mem_append, List.mem_cons, List.not_mem_nil,
          or_false] at hev
        rcases hev with hev | rfl | rfl
        · exact plain_takes ev hev
        · rfl
        · rfl
      | sleep | yield | waitBlock | waitYield | semBlock =>
        exact hplain (by simp [CoreEvent.plain]) (by simp [Label.Forks]) (by simp [Label.Exits])
          (by simp [Label.Reaps])
    | resume ha =>
      generalize (c.thread c.curr).kont = k at ha
      cases ha with
      | readBlock =>
        refine hplain ?_ (by simp [Label.Forks]) (by simp [Label.Exits]) (by simp [Label.Reaps])
        intro ev hev
        simp only [List.append_assoc, List.mem_append, List.mem_cons, List.not_mem_nil,
          or_false] at hev
        rcases hev with hev | rfl | rfl
        · exact plain_takes ev hev
        · rfl
        · rfl
      | again | sleep =>
        exact hplain (by simp [CoreEvent.plain]) (by simp [Label.Forks]) (by simp [Label.Exits])
          (by simp [Label.Reaps])
    | timer =>
      exact hplain (by simp [CoreEvent.plain]) (by simp [Label.Forks]) (by simp [Label.Exits])
        (by simp [Label.Reaps])
  | serial =>
    refine hplain ?_ ?_ ?_ ?_
    · intro ev hev
      rw [List.eq_of_mem_replicate hev]
      rfl
    · rintro n ⟨⟨junk, hcall⟩, -⟩
      cases hcall
    · rintro code ⟨junk, hcall⟩
      cases hcall
    · rintro n code hr
      cases hr

/-! ### What a run tells -/

/-- Process `m` has forked process `n`. -/
def Forked (ls : List Label) (m n : ℤ) : Prop := ∃ l ∈ ls, l.pid = m ∧ l.Forks n

/-- Process `n` has exited. -/
def Exited (ls : List Label) (n code : ℤ) : Prop := ∃ l ∈ ls, l.pid = n ∧ l.Exits code

/-- Process `m` has reaped process `n`. -/
def Reaped (ls : List Label) (m n code : ℤ) : Prop := ∃ l ∈ ls, l.pid = m ∧ l.Reaps n code

variable {m n code : ℤ}

theorem exists_mem_concat {P : Label → Prop} :
    (∃ l' ∈ ls ++ [l], P l') ↔ (∃ l' ∈ ls, P l') ∨ P l := by
  constructor
  · rintro ⟨l', hl', hp⟩
    rcases List.mem_append.mp hl' with hl' | hl'
    · exact Or.inl ⟨l', hl', hp⟩
    · exact Or.inr (List.mem_singleton.mp hl' ▸ hp)
  · rintro (⟨l', hl', hp⟩ | hp)
    · exact ⟨l', List.mem_append_left _ hl', hp⟩
    · exact ⟨l, by simp, hp⟩

theorem forked_concat : Forked (ls ++ [l]) m n ↔ Forked ls m n ∨ (l.pid = m ∧ l.Forks n) :=
  exists_mem_concat

theorem exited_concat : Exited (ls ++ [l]) n code ↔ Exited ls n code ∨ (l.pid = n ∧ l.Exits code) :=
  exists_mem_concat

theorem reaped_concat :
    Reaped (ls ++ [l]) m n code ↔ Reaped ls m n code ∨ (l.pid = m ∧ l.Reaps n code) :=
  exists_mem_concat

/-- The table of processes agrees with what the run tells. -/
structure Ledger (ls : List Label) (c : Core) : Prop where
  fresh : ∀ p r, c.record p = some r → 0 ≤ r.pid ∧ r.pid < c.next_pid
  distinct : ∀ p q r r', c.record p = some r → c.record q = some r' → r.pid = r'.pid → p = q
  pids : ∀ l ∈ ls, l.pid < c.next_pid
  forks : ∀ m n, Forked ls m n → n < c.next_pid
  forked : ∀ p q r, c.record p = some r → r.parent = some q →
    ∃ r', c.record q = some r' ∧ r'.code = none ∧ Forked ls r'.pid r.pid
  exited : ∀ p r code, c.record p = some r → r.code = some code → Exited ls r.pid code
  alive : ∀ p r code, c.record p = some r → r.code = none → ¬ Exited ls r.pid code
  kept : ∀ m n, Forked ls m n → (∃ code, Reaped ls m n code) ∨
    ∃ p r, c.record p = some r ∧ r.pid = n ∧
      ((∃ q r', r.parent = some q ∧ c.record q = some r' ∧ r'.pid = m) ∨
        r.parent = none ∧ ∃ code, Exited ls m code)
  reaped : ∀ m n code, Reaped ls m n code → Forked ls m n ∧ Exited ls n code ∧
    ∀ p r, c.record p = some r → r.pid ≠ n
  once : ls.Pairwise fun l l' => ∀ n code code', l.Reaps n code → ¬ l'.Reaps n code'
  code : ∀ n code code', Exited ls n code → Exited ls n code' → code = code'

section Step

variable {r : Record} (h : Ledger ls c) (hcurr : c.record c.curr = some r) (hpid : l.pid = r.pid)
  (hcode : r.code = none)

include h hcurr hpid

theorem Ledger.pids_concat (hnext : c.next_pid ≤ c'.next_pid) :
    ∀ l' ∈ ls ++ [l], l'.pid < c'.next_pid := by
  intro l' hl'
  rcases List.mem_append.mp hl' with hl' | hl'
  · exact (h.pids l' hl').trans_le hnext
  · rw [List.mem_singleton.mp hl', hpid]
    exact (h.fresh _ _ hcurr).2.trans_le hnext

theorem Ledger.plain (hf : ∀ n, ¬ l.Forks n) (he : ∀ code, ¬ l.Exits code)
    (hr : ∀ n code, ¬ l.Reaps n code) (hnext : c'.next_pid = c.next_pid)
    (hrec : c'.record = c.record) : Ledger (ls ++ [l]) c' := by
  have hforked {m n : ℤ} : Forked (ls ++ [l]) m n ↔ Forked ls m n := by
    simp only [forked_concat, hf, and_false, or_false]
  have hexited {n code : ℤ} : Exited (ls ++ [l]) n code ↔ Exited ls n code := by
    simp only [exited_concat, he, and_false, or_false]
  have hreaped {m n code : ℤ} : Reaped (ls ++ [l]) m n code ↔ Reaped ls m n code := by
    simp only [reaped_concat, hr, and_false, or_false]
  refine ⟨?_, ?_, h.pids_concat hcurr hpid hnext.ge, ?_, ?_, ?_, ?_, ?_, ?_, ?_, ?_⟩
  · rw [hrec, hnext]
    exact h.fresh
  · rw [hrec]
    exact h.distinct
  · simp only [hforked, hnext]
    exact h.forks
  · simp only [hforked, hrec]
    exact h.forked
  · simp only [hexited, hrec]
    exact h.exited
  · simp only [hexited, hrec]
    exact h.alive
  · simp only [hforked, hreaped, hexited, hrec]
    exact h.kept
  · simp only [hforked, hreaped, hexited, hrec]
    exact h.reaped
  · refine List.pairwise_append.mpr ⟨h.once, List.pairwise_singleton _ _, fun l₁ _ l₂ hl₂ => ?_⟩
    intro n code code' _ hl
    exact hr n code' (List.mem_singleton.mp hl₂ ▸ hl)
  · simp only [hexited]
    exact h.code

include hcode

theorem Ledger.fork (hf : ∀ n, l.Forks n ↔ n = c.next_pid) (he : ∀ code, ¬ l.Exits code)
    (hr : ∀ n code, ¬ l.Reaps n code) (hnone : c.record p = none) (hne : p ≠ c.curr)
    (hnext : c'.next_pid = c.next_pid + 1)
    (hrec : c'.record = Function.update c.record p (some ⟨c.next_pid, some c.curr, none⟩)) :
    Ledger (ls ++ [l]) c' := by
  have hforked {m n : ℤ} : Forked (ls ++ [l]) m n ↔
      Forked ls m n ∨ (r.pid = m ∧ n = c.next_pid) := by
    rw [forked_concat, hf, hpid]
  have hexited {n code : ℤ} : Exited (ls ++ [l]) n code ↔ Exited ls n code := by
    simp only [exited_concat, he, and_false, or_false]
  have hreaped {m n code : ℤ} : Reaped (ls ++ [l]) m n code ↔ Reaped ls m n code := by
    simp only [reaped_concat, hr, and_false, or_false]
  -- the table has one record more, that of the child
  have hself : c'.record p = some ⟨c.next_pid, some c.curr, none⟩ := by
    rw [hrec, Function.update_self]
  have hold (q : ProcPtr) (hq : q ≠ p) : c'.record q = c.record q := by
    rw [hrec, Function.update_of_ne hq]
  have hkeep {q : ProcPtr} {r' : Record} (hq : c.record q = some r') : c'.record q = some r' := by
    rw [hold q, hq]
    rintro rfl
    rw [hnone] at hq
    cases hq
  have hpos := h.fresh _ _ hcurr
  -- the child is the only record that is new, and its number is fresh
  refine ⟨fun q r' hq => ?_, fun q q' r₁ r₂ hq hq' heq => ?_,
    h.pids_concat hcurr hpid (by omega), fun m n hmn => ?_, fun q q' r' hq hq' => ?_,
    fun q r' code hq hq' => ?_, fun q r' code hq hq' => ?_, fun m n hmn => ?_,
    fun m n code hmn => ?_, ?_, ?_⟩
  · by_cases hqp : q = p
    · rw [hqp, hself] at hq
      cases hq
      exact ⟨by simp only; omega, by simp only; omega⟩
    · rw [hold q hqp] at hq
      have := h.fresh q r' hq
      omega
  · by_cases hqp : q = p <;> by_cases hqp' : q' = p
    · rw [hqp, hqp']
    · rw [hqp, hself] at hq
      rw [hold q' hqp'] at hq'
      cases hq
      have := (h.fresh q' r₂ hq').2
      simp only at heq
      omega
    · rw [hqp', hself] at hq'
      rw [hold q hqp] at hq
      cases hq'
      have := (h.fresh q r₁ hq).2
      simp only at heq
      omega
    · rw [hold q hqp] at hq
      rw [hold q' hqp'] at hq'
      exact h.distinct q q' r₁ r₂ hq hq' heq
  · rcases hforked.mp hmn with hmn | ⟨-, rfl⟩
    · have := h.forks m n hmn
      omega
    · omega
  · by_cases hqp : q = p
    · rw [hqp, hself] at hq
      cases hq
      cases hq'
      exact ⟨r, hkeep hcurr, hcode, hforked.mpr (Or.inr ⟨rfl, rfl⟩)⟩
    · rw [hold q hqp] at hq
      obtain ⟨r'', hr'', hcode'', hfork⟩ := h.forked q q' r' hq hq'
      exact ⟨r'', hkeep hr'', hcode'', hforked.mpr (Or.inl hfork)⟩
  · by_cases hqp : q = p
    · rw [hqp, hself] at hq
      cases hq
      cases hq'
    · rw [hold q hqp] at hq
      exact hexited.mpr (h.exited q r' code hq hq')
  · by_cases hqp : q = p
    · rw [hqp, hself] at hq
      cases hq
      rw [hexited]
      rintro ⟨l', hl', hl'pid, -⟩
      have := h.pids l' hl'
      simp only at hl'pid
      omega
    · rw [hold q hqp] at hq
      rw [hexited]
      exact h.alive q r' code hq hq'
  · rcases hforked.mp hmn with hmn | ⟨rfl, rfl⟩
    · rcases h.kept m n hmn with ⟨code, hreap⟩ | ⟨q, r', hq, hn, ⟨q', r'', hq', hr'', hm⟩ | ⟨hnil, code, hex⟩⟩
      · exact Or.inl ⟨code, hreaped.mpr hreap⟩
      · exact Or.inr ⟨q, r', hkeep hq, hn, Or.inl ⟨q', r'', hq', hkeep hr'', hm⟩⟩
      · exact Or.inr ⟨q, r', hkeep hq, hn, Or.inr ⟨hnil, code, hexited.mpr hex⟩⟩
    · exact Or.inr ⟨p, _, hself, rfl, Or.inl ⟨c.curr, r, rfl, hkeep hcurr, rfl⟩⟩
  · obtain ⟨hfork, hex, hgone⟩ := h.reaped m n code (hreaped.mp hmn)
    refine ⟨hforked.mpr (Or.inl hfork), hexited.mpr hex, fun q r' hq hn => ?_⟩
    by_cases hqp : q = p
    · rw [hqp, hself] at hq
      cases hq
      have := h.forks m n hfork
      simp only at hn
      omega
    · rw [hold q hqp] at hq
      exact hgone q r' hq hn
  · refine List.pairwise_append.mpr ⟨h.once, List.pairwise_singleton _ _, fun l₁ _ l₂ hl₂ => ?_⟩
    intro n code code' _ hl
    exact hr n code' (List.mem_singleton.mp hl₂ ▸ hl)
  · simp only [hexited]
    exact h.code

theorem Ledger.exit {code : ℤ} (hf : ∀ n, ¬ l.Forks n) (he : l.Exits code)
    (hr : ∀ n code, ¬ l.Reaps n code) (hnext : c'.next_pid = c.next_pid)
    (hrec : ∀ q, c'.record q = (c.record q).map fun r => { r with
      parent := if r.parent = some c.curr then none else r.parent
      code := if q = c.curr then some code else r.code }) : Ledger (ls ++ [l]) c' := by
  have hforked {m n : ℤ} : Forked (ls ++ [l]) m n ↔ Forked ls m n := by
    simp only [forked_concat, hf, and_false, or_false]
  have hreaped {m n code : ℤ} : Reaped (ls ++ [l]) m n code ↔ Reaped ls m n code := by
    simp only [reaped_concat, hr, and_false, or_false]
  have hexited {n : ℤ} {code' : ℤ} : Exited (ls ++ [l]) n code' ↔
      Exited ls n code' ∨ (r.pid = n ∧ code' = code) := by
    obtain ⟨junk, hl⟩ := he
    rw [exited_concat, hpid, Label.Exits, hl]
    simp only [Event.call.injEq, Call.exit.injEq]
    rw [eq_comm (a := code)]
    simp
  have hinv {q : ProcPtr} {r' : Record} (hq : c'.record q = some r') :
      ∃ r₀, c.record q = some r₀ ∧ r'.pid = r₀.pid ∧
        r'.parent = (if r₀.parent = some c.curr then none else r₀.parent) ∧
        r'.code = if q = c.curr then some code else r₀.code := by
    rw [hrec, Option.map_eq_some_iff] at hq
    obtain ⟨r₀, hr₀, rfl⟩ := hq
    exact ⟨r₀, hr₀, rfl, rfl, rfl⟩
  have hmap {q : ProcPtr} {r₀ : Record} (hq : c.record q = some r₀) :
      c'.record q = some { r₀ with
        parent := if r₀.parent = some c.curr then none else r₀.parent
        code := if q = c.curr then some code else r₀.code } := by
    rw [hrec, hq, Option.map_some]
  refine ⟨fun q r' hq => ?_, fun q q' r₁ r₂ hq hq' heq => ?_,
    h.pids_concat hcurr hpid hnext.ge, fun m n hmn => ?_, fun q q' r' hq hq' => ?_,
    fun q r' code' hq hq' => ?_, fun q r' code' hq hq' => ?_, fun m n hmn => ?_,
    fun m n code' hmn => ?_, ?_, ?_⟩
  · obtain ⟨r₀, hr₀, hp, -, -⟩ := hinv hq
    rw [hp, hnext]
    exact h.fresh q r₀ hr₀
  · obtain ⟨r₁', hr₁, hp₁, -, -⟩ := hinv hq
    obtain ⟨r₂', hr₂, hp₂, -, -⟩ := hinv hq'
    exact h.distinct q q' r₁' r₂' hr₁ hr₂ (by rw [← hp₁, ← hp₂, heq])
  · rw [hnext]
    exact h.forks m n (hforked.mp hmn)
  · -- a parent that is left is another process than the one that exits
    obtain ⟨r₀, hr₀, hp, hpar, -⟩ := hinv hq
    rw [hq'] at hpar
    split at hpar
    case isTrue => cases hpar
    case isFalse hne =>
      obtain ⟨r'', hr'', hcode'', hfork⟩ := h.forked q q' r₀ hr₀ hpar.symm
      have hqc : q' ≠ c.curr := by
        rintro rfl
        exact hne hpar.symm
      refine ⟨_, hmap hr'', ?_, ?_⟩
      · simp only [if_neg hqc]
        exact hcode''
      · rw [hp]
        exact hforked.mpr hfork
  · obtain ⟨r₀, hr₀, hp, -, hc⟩ := hinv hq
    rw [hp, hexited]
    rw [hq'] at hc
    split at hc
    case isTrue hqc =>
      subst hqc
      rw [hcurr] at hr₀
      cases hr₀
      cases hc
      exact Or.inr ⟨rfl, rfl⟩
    case isFalse => exact Or.inl (h.exited q r₀ code' hr₀ hc.symm)
  · obtain ⟨r₀, hr₀, hp, -, hc⟩ := hinv hq
    rw [hp, hexited]
    rw [hq'] at hc
    split at hc
    case isTrue => cases hc
    case isFalse hqc =>
      rintro (hex | ⟨heq, -⟩)
      · exact h.alive q r₀ code' hr₀ hc.symm hex
      · exact hqc (h.distinct q c.curr r₀ r hr₀ hcurr heq.symm)
  · rcases h.kept m n (hforked.mp hmn) with ⟨code', hreap⟩ | ⟨q, r₀, hq, hn, hpar⟩
    · exact Or.inl ⟨code', hreaped.mpr hreap⟩
    · refine Or.inr ⟨q, _, hmap hq, hn, ?_⟩
      rcases hpar with ⟨q', r'', hq', hr'', hm⟩ | ⟨hnil, code', hex⟩
      · by_cases hqc : q' = c.curr
        · subst hqc
          rw [hcurr] at hr''
          cases hr''
          refine Or.inr ⟨?_, code, hexited.mpr (Or.inr ⟨hm, rfl⟩)⟩
          simp only [hq', if_true]
        · refine Or.inl ⟨q', _, ?_, hmap hr'', hm⟩
          have hne : ¬ (some q' = some c.curr) := by simpa using hqc
          simp only [hq', if_neg hne]
      · refine Or.inr ⟨?_, code', hexited.mpr (Or.inl hex)⟩
        simp only [hnil, reduceCtorEq, if_false]
  · obtain ⟨hfork, hex, hgone⟩ := h.reaped m n code' (hreaped.mp hmn)
    refine ⟨hforked.mpr hfork, hexited.mpr (Or.inl hex), fun q r' hq => ?_⟩
    obtain ⟨r₀, hr₀, hp, -, -⟩ := hinv hq
    rw [hp]
    exact hgone q r₀ hr₀
  · refine List.pairwise_append.mpr ⟨h.once, List.pairwise_singleton _ _, fun l₁ _ l₂ hl₂ => ?_⟩
    intro n code code' _ hl
    exact hr n code' (List.mem_singleton.mp hl₂ ▸ hl)
  · intro n code₁ code₂ h₁ h₂
    rcases hexited.mp h₁ with h₁ | ⟨hn, rfl⟩ <;> rcases hexited.mp h₂ with h₂ | ⟨hn', rfl⟩
    · exact h.code n code₁ code₂ h₁ h₂
    · exact (h.alive _ r code₁ hcurr hcode (hn' ▸ h₁)).elim
    · exact (h.alive _ r code₂ hcurr hcode (hn ▸ h₂)).elim
    · rfl

omit hcode in
theorem Ledger.reap {n code : ℤ} (hf : ∀ n, ¬ l.Forks n) (he : ∀ code, ¬ l.Exits code)
    (hr : ∀ n' code', l.Reaps n' code' ↔ n' = n ∧ code' = code) (hne : p ≠ c.curr)
    (hp : c.record p = some ⟨n, some c.curr, some code⟩) (hnext : c'.next_pid = c.next_pid)
    (hrec : c'.record = Function.update c.record p none) : Ledger (ls ++ [l]) c' := by
  have hforked {m n : ℤ} : Forked (ls ++ [l]) m n ↔ Forked ls m n := by
    simp only [forked_concat, hf, and_false, or_false]
  have hexited {n code : ℤ} : Exited (ls ++ [l]) n code ↔ Exited ls n code := by
    simp only [exited_concat, he, and_false, or_false]
  have hreaped {m n' code' : ℤ} : Reaped (ls ++ [l]) m n' code' ↔
      Reaped ls m n' code' ∨ (r.pid = m ∧ n' = n ∧ code' = code) := by
    rw [reaped_concat, hr, hpid]
  have hinv {q : ProcPtr} {r' : Record} (hq : c'.record q = some r') :
      q ≠ p ∧ c.record q = some r' := by
    rw [hrec] at hq
    by_cases hqp : q = p
    · rw [hqp, Function.update_self] at hq
      cases hq
    · rw [Function.update_of_ne hqp] at hq
      exact ⟨hqp, hq⟩
  have hkeep {q : ProcPtr} {r' : Record} (hqp : q ≠ p) (hq : c.record q = some r') :
      c'.record q = some r' := by
    rw [hrec, Function.update_of_ne hqp, hq]
  obtain ⟨r₀, hr₀, -, hfork⟩ := h.forked p c.curr _ hp rfl
  rw [hcurr] at hr₀
  cases hr₀
  have hex : Exited ls n code := h.exited p _ code hp rfl
  -- the process reaped is no parent: it has exited
  have hparent {q q' : ProcPtr} {r' r'' : Record} (hq : c.record q = some r')
      (hq' : r'.parent = some q') (hr'' : c.record q' = some r'') : q' ≠ p := by
    rintro rfl
    obtain ⟨r₃, hr₃, hcode₃, -⟩ := h.forked q q' r' hq hq'
    rw [hp] at hr₃
    cases hr₃
    cases hcode₃
  refine ⟨fun q r' hq => ?_, fun q q' r₁ r₂ hq hq' heq => ?_,
    h.pids_concat hcurr hpid hnext.ge, fun m n hmn => ?_, fun q q' r' hq hq' => ?_,
    fun q r' code' hq hq' => ?_, fun q r' code' hq hq' => ?_, fun m n' hmn => ?_,
    fun m n' code' hmn => ?_, ?_, ?_⟩
  · rw [hnext]
    exact h.fresh q r' (hinv hq).2
  · exact h.distinct q q' r₁ r₂ (hinv hq).2 (hinv hq').2 heq
  · rw [hnext]
    exact h.forks m n (hforked.mp hmn)
  · obtain ⟨r'', hr'', hcode'', hfork'⟩ := h.forked q q' r' (hinv hq).2 hq'
    exact ⟨r'', hkeep (hparent (hinv hq).2 hq' hr'') hr'', hcode'', hforked.mpr hfork'⟩
  · exact hexited.mpr (h.exited q r' code' (hinv hq).2 hq')
  · rw [hexited]
    exact h.alive q r' code' (hinv hq).2 hq'
  · rcases h.kept m n' (hforked.mp hmn) with ⟨code', hreap⟩ | ⟨q, r', hq, hn, hpar⟩
    · exact Or.inl ⟨code', hreaped.mpr (Or.inl hreap)⟩
    · by_cases hqp : q = p
      · subst hqp
        rw [hp] at hq
        cases hq
        subst hn
        rcases hpar with ⟨q', r'', hq', hr'', hm⟩ | ⟨hnil, -⟩
        · cases hq'
          rw [hcurr] at hr''
          cases hr''
          exact Or.inl ⟨code, hreaped.mpr (Or.inr ⟨hm, rfl, rfl⟩)⟩
        · cases hnil
      · refine Or.inr ⟨q, r', hkeep hqp hq, hn, ?_⟩
        rcases hpar with ⟨q', r'', hq', hr'', hm⟩ | ⟨hnil, code', hex'⟩
        · exact Or.inl ⟨q', r'', hq', hkeep (hparent hq hq' hr'') hr'', hm⟩
        · exact Or.inr ⟨hnil, code', hexited.mpr hex'⟩
  · rcases hreaped.mp hmn with hmn | ⟨rfl, rfl, rfl⟩
    · obtain ⟨hfork', hex', hgone⟩ := h.reaped m n' code' hmn
      exact ⟨hforked.mpr hfork', hexited.mpr hex', fun q r' hq => hgone q r' (hinv hq).2⟩
    · refine ⟨hforked.mpr hfork, hexited.mpr hex, fun q r' hq heq => ?_⟩
      exact (hinv hq).1 (h.distinct q p r' _ (hinv hq).2 hp heq)
  · refine List.pairwise_append.mpr ⟨h.once, List.pairwise_singleton _ _, fun l₁ hl₁ l₂ hl₂ => ?_⟩
    intro n' code₁ code₂ h₁ h₂
    rw [List.mem_singleton.mp hl₂] at h₂
    obtain ⟨rfl, rfl⟩ := (hr n' code₂).mp h₂
    exact (h.reaped l₁.pid n' code₁ ⟨l₁, hl₁, rfl, h₁⟩).2.2 p _ hp rfl
  · simp only [hexited]
    exact h.code

end Step

/-- **The table agrees with the run** after every step. -/
theorem Ledger.changed {r : Record} (h : Ledger ls c) (hcurr : c.record c.curr = some r)
    (hpid : l.pid = r.pid) (hcode : r.code = none) (hc : Changed c l c') :
    Ledger (ls ++ [l]) c' := by
  cases hc with
  | fork hf he hr hnone hne hnext hrec => exact h.fork hcurr hpid hcode hf he hr hnone hne hnext hrec
  | exit hf he hr hnext hrec => exact h.exit hcurr hpid hcode hf he hr hnext hrec
  | reap hf he hr hne hp hnext hrec => exact h.reap hcurr hpid hf he hr hne hp hnext hrec
  | plain hf he hr hnext hrec => exact h.plain hcurr hpid hf he hr hnext hrec

theorem running_record (hs : s.Sound) : s.core.record s.core.curr =
    some ⟨(s.pcb s.curr).pid, (s.pcb s.curr).parent, none⟩ := by
  have hrun := hs.runs
  unfold Core.record Thread.record
  rw [hrun]
  rfl

theorem started_ledger (hp : p ≠ 0) : Ledger [] (Core.started p) := by
  have hrec (q : ProcPtr) (r : Record) (hq : (Core.started p).record q = some r) :
      (q = 0 ∧ r = ⟨0, none, none⟩) ∨ (q = p ∧ r = ⟨1, none, none⟩) := by
    unfold Core.record Thread.record at hq
    rw [started_thread hp] at hq
    by_cases h0 : q = 0
    · subst h0
      simp only [if_true, if_neg hp.symm] at hq
      exact Or.inl ⟨rfl, (Option.some.inj hq).symm⟩
    · by_cases hqp : q = p
      · subst hqp
        simp only [if_true, if_neg h0] at hq
        exact Or.inr ⟨rfl, (Option.some.inj hq).symm⟩
      · simp [h0, hqp] at hq
  have hnext : (Core.started p).next_pid = 2 := rfl
  refine ⟨fun q r hq => ?_, fun q q' r r' hq hq' heq => ?_, by simp, by simp [Forked],
    fun q q' r hq hq' => ?_, fun q r code hq hq' => ?_, fun q r code hq _ => by simp [Exited],
    by simp [Forked], by simp [Reaped], List.Pairwise.nil, by simp [Exited]⟩
  · rw [hnext]
    rcases hrec q r hq with ⟨-, rfl⟩ | ⟨-, rfl⟩ <;> simp
  · rcases hrec q r hq with ⟨rfl, rfl⟩ | ⟨rfl, rfl⟩ <;>
      rcases hrec q' r' hq' with ⟨rfl, rfl⟩ | ⟨rfl, rfl⟩ <;> simp_all
  · rcases hrec q r hq with ⟨-, rfl⟩ | ⟨-, rfl⟩ <;> cases hq'
  · rcases hrec q r hq with ⟨-, rfl⟩ | ⟨-, rfl⟩ <;> cases hq'

theorem Kernel.step.changed (hs : s.Sound) (hl : Ledger ls s.core) (hstep : s.step l s') :
    Changed s.core l s'.core := by
  obtain ⟨evs, hmoves, hevs, -⟩ := s.step_core hs.core hs.runs hstep
  have hfresh := hl.fresh _ _ (running_record hs)
  exact hmoves.changed hs.core (by omega) hevs

theorem Kernel.step.ledger (hs : s.Sound) (hl : Ledger ls s.core) (hstep : s.step l s') :
    Ledger (ls ++ [l]) s'.core :=
  hl.changed (running_record hs) hstep.1 rfl (hstep.changed hs hl)

/-- **The table of processes agrees with every run.** -/
theorem run_ledger (hinit : (machine image).init s₀) (h : (machine image).Run s₀ ls s) :
    Ledger ls s.core := by
  induction h with
  | refl =>
    obtain ⟨disk, -, hboots⟩ := hinit
    obtain ⟨p, hp, hcore⟩ := boots_core hboots
    rw [hcore]
    exact started_ledger hp
  | tail hrun hstep ih => exact Kernel.step.ledger (run_sound hinit hrun) ih hstep

end Oslab
