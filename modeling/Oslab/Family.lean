/-
# Parents and children

A live process counts its children, and the credits of its `zombie_sem`, with the
one it has taken but not used yet, count those of them that are zombies. Who runs
is the current process, and the first process never blocks.
-/
import Oslab.Core

namespace Oslab

open Lib

namespace Core

variable {c c' : Core} {sp : SemPtr} {p q : ProcPtr} {k : Kont} {ev : CoreEvent}

/-! ### Who runs -/

/-- Only the current process runs, and the first one always can. -/
structure Turns (c : Core) : Prop where
  zero : (c.thread 0).status = .running ∨ (c.thread 0).status = .ready
  zeroUser : (c.thread 0).kont = .user
  uninit : ∀ p, (c.thread p).status ≠ .uninit
  runs : ∀ p, (c.thread p).status = .running → p = c.curr

theorem Turns.mod (h : c.Turns) {f : Thread → Thread} (hp : p ≠ 0)
    (hu : (f (c.thread p)).status ≠ .uninit)
    (hr : (f (c.thread p)).status = .running → p = c.curr) : (c.mod p f).Turns := by
  refine ⟨?_, ?_, fun q => ?_, fun q hq => ?_⟩
  · simp only [Core.mod, Function.update_of_ne hp.symm]
    exact h.zero
  · simp only [Core.mod, Function.update_of_ne hp.symm]
    exact h.zeroUser
  · by_cases hqp : q = p
    · subst hqp
      simp only [Core.mod, Function.update_self]
      exact hu
    · simp only [Core.mod, Function.update_of_ne hqp]
      exact h.uninit q
  · by_cases hqp : q = p
    · subst hqp
      simp only [Core.mod, Function.update_self] at hq ⊢
      exact hr hq
    · simp only [Core.mod, Function.update_of_ne hqp] at hq ⊢
      exact h.runs q hq

theorem Turns.setSem (h : c.Turns) {sem : Sem} : (c.setSem sp sem).Turns :=
  ⟨h.zero, h.zeroUser, h.uninit, h.runs⟩

theorem Turns.give (h : c.Turns) (hw : c.Waiting) : (c.give sp).Turns := by
  unfold Core.give
  cases hl : (c.sem sp).wait_list with
  | nil => exact h.setSem
  | cons p rest =>
    have hb := (hw.waits sp p (by rw [hl]; exact List.mem_cons_self)).1
    refine h.setSem.mod ?_ (by simp) (by simp)
    rintro rfl
    have hzero := h.zero
    rw [hb] at hzero
    simp at hzero

theorem Turns.goto (h : c.Turns) (hc : c.curr ≠ 0) : (c.goto k).Turns :=
  h.mod hc (h.uninit c.curr) fun _ => rfl

theorem Turns.orphan (h : c.Turns) (hne : c.curr ≠ 0) (code : ℤ) : (c.orphan code).Turns := by
  refine ⟨?_, ?_, fun q => ?_, fun q hq => ?_⟩
  · simp only [orphan_thread, if_neg hne.symm]
    exact h.zero
  · simp only [orphan_thread]
    exact h.zeroUser
  · simp only [orphan_thread]
    split
    · simp
    · exact h.uninit q
  · simp only [orphan_thread] at hq
    split at hq
    · cases hq
    · exact h.runs q hq

theorem goto_same (h : (c.thread c.curr).kont = k) : c.goto k = c := by
  have hself : (⟨(c.thread c.curr).pid, (c.thread c.curr).status, k, (c.thread c.curr).parent,
      (c.thread c.curr).child_num, (c.thread c.curr).exit_code, (c.thread c.curr).usems⟩ : Thread) =
      c.thread c.curr := by rw [← h]
  ext1
  · simp only [Core.goto, Core.mod]
    rw [hself]
    exact Function.update_eq_self c.curr c.thread
  all_goals rfl

/-- **Only the current process runs** after every event. -/
theorem Step.turns (h : c.Turns) (hw : c.Waiting) (hstep : Step c ev c') : c'.Turns := by
  cases hstep with
  | take => exact h.setSem
  | takeZombie hcalls _ _ =>
    exact Turns.goto h.setSem hcalls.ne_zero
  | block hcalls _ _ => exact h.setSem.mod hcalls.ne_zero (by simp) (by simp)
  | give => exact h.give hw
  | @openUsem id u value hcalls _ _ =>
    have hset : (c.setSem (.user u) (sem_init value)).Turns := h.setSem
    have hmod := hset.mod (p := c.curr)
      (f := fun t => { t with usems := Function.update t.usems id (some u) })
      hcalls.ne_zero (hset.uninit _) fun _ => rfl
    exact ⟨hmod.zero, hmod.zeroUser, hmod.uninit, hmod.runs⟩
  | @closeUsem id u hcalls _ =>
    have hmod := h.mod (p := c.curr)
      (f := fun t => { t with usems := Function.update t.usems id none })
      hcalls.ne_zero (h.uninit _) fun _ => rfl
    exact ⟨hmod.zero, hmod.zeroUser, hmod.uninit, hmod.runs⟩
  | @fork p hcalls hp _ _ =>
    have hfirst := h.mod (f := ({ · with child_num := (c.thread c.curr).child_num + 1 }))
      hcalls.ne_zero (h.uninit _) fun _ => rfl
    have hsecond := hfirst.mod (p := p) (f := fun _ => { c.thread p with
      pid := c.next_pid
      status := .ready
      kont := .user
      parent := some c.curr
      child_num := 0
      usems := (c.thread c.curr).usems }) hp (by simp) (by simp)
    exact ⟨hsecond.zero, hsecond.zeroUser, hsecond.uninit, hsecond.runs⟩
  | @exit code hcalls =>
    have horph := h.orphan hcalls.ne_zero code
    have htell : (c.orphan code).tell.Turns := by
      unfold Core.tell
      split
      · exact horph.give (hw.orphan hcalls.running code)
      · exact horph
    have hne : (c.orphan code).tell.curr ≠ 0 := by
      rw [tell_curr]
      exact hcalls.ne_zero
    have hmod := htell.mod (f := ({ · with usems := fun _ => none })) hne (htell.uninit _)
      fun _ => rfl
    have hrel : (c.orphan code).tell.release.Turns :=
      ⟨hmod.zero, hmod.zeroUser, hmod.uninit, hmod.runs⟩
    exact hrel.goto hne
  | @reap p hrun hk hpar hz =>
    have hc : c.curr ≠ 0 := by
      intro heq
      rw [heq, h.zeroUser] at hk
      cases hk
    have hp : p ≠ 0 := by
      rintro rfl
      have hzero := h.zero
      rw [hz] at hzero
      simp at hzero
    have hfirst := h.mod (f := ({ · with child_num := (c.thread c.curr).child_num - 1 })) hc
      (h.uninit _) fun _ => rfl
    have hsecond := hfirst.mod (p := p) (f := ({ · with status := .unused })) hp (by simp) (by simp)
    exact hsecond.goto hc
  | @yield k hrun hk =>
    by_cases hc : c.curr = 0
    · -- the first process is only interrupted by the timer
      have huser : k = .user := by
        rcases hk with ⟨hk, -⟩ | ⟨hcalls, -⟩ | ⟨-, hk⟩
        · exact hk
        · exact (hcalls.ne_zero hc).elim
        · rw [hc, h.zeroUser] at hk
          cases hk
      subst huser
      refine ⟨?_, ?_, fun q => ?_, fun q hq => ?_⟩
      · simp [Core.goto, Core.mod, hc]
      · simp [Core.goto, Core.mod, hc]
      · by_cases hq : q = c.curr
        · simp [Core.goto, Core.mod, hq]
        · simp only [Core.goto, Core.mod, Function.update_of_ne hq]
          exact h.uninit q
      · by_cases hqc : q = c.curr
        · exact hqc
        · simp only [Core.goto, Core.mod, Function.update_of_ne hqc] at hq
          exact h.runs q hq
    · have hfirst := h.mod (f := ({ · with status := .ready })) hc (by simp) (by simp)
      exact hfirst.goto hc
  | back hrun hk =>
    by_cases hc : c.curr = 0
    · have huser : (c.thread c.curr).kont = .user := by
        rw [hc]
        exact h.zeroUser
      rw [goto_same huser]
      exact h
    · exact h.goto hc
  | @dispatch p hcurr hfind =>
    have hready : (c.thread p).status = .ready := by simpa using List.find?_some hfind
    refine ⟨?_, ?_, fun q => ?_, fun q hq => ?_⟩
    · by_cases hp : p = 0
      · subst hp
        simp [Core.mod]
      · simp only [Core.mod, Function.update_of_ne (Ne.symm hp)]
        exact h.zero
    · by_cases hp : p = 0
      · subst hp
        simp only [Core.mod, Function.update_self]
        exact h.zeroUser
      · simp only [Core.mod, Function.update_of_ne (Ne.symm hp)]
        exact h.zeroUser
    · by_cases hqp : q = p
      · simp [Core.mod, hqp]
      · simp only [Core.mod, Function.update_of_ne hqp]
        exact h.uninit q
    · by_cases hqp : q = p
      · exact hqp
      · simp only [Core.mod, Function.update_of_ne hqp] at hq
        have hqc := h.runs q hq
        rw [hqc] at hq
        exact (hcurr hq).elim

/-! ### Counting children -/

/-- The parent of every process in use. -/
def kin (c : Core) (p : ProcPtr) : Option ProcPtr :=
  if (c.thread p).status = .unused then none else (c.thread p).parent

/-- The parent of every zombie. -/
def zombies (c : Core) (p : ProcPtr) : Option ProcPtr :=
  if (c.thread p).status = .zombie then (c.thread p).parent else none

/-- The process can still do something. -/
def Live (c : Core) (q : ProcPtr) : Prop :=
  (c.thread q).status ≠ .unused ∧ (c.thread q).status ≠ .zombie

/-- The process has a credit of its `zombie_sem` that it has not used yet. -/
def Pending (c : Core) (q : ProcPtr) : Prop :=
  (c.thread q).kont = .wait ∧ q ∉ (c.sem (.zombie q)).wait_list

instance (c : Core) (q : ProcPtr) : Decidable (c.Pending q) :=
  inferInstanceAs (Decidable (_ ∧ _))

/-- The credits of a `zombie_sem`, with the one taken. -/
def credit (c : Core) (q : ProcPtr) : ℤ :=
  (c.sem (.zombie q)).value + if c.Pending q then 1 else 0

theorem credit_congr (hs : c'.sem (.zombie q) = c.sem (.zombie q))
    (hk : (c'.thread q).kont = .wait ↔ (c.thread q).kont = .wait) : c'.credit q = c.credit q := by
  have hiff : c'.Pending q ↔ c.Pending q := by
    unfold Pending
    rw [hs, hk]
  unfold credit
  rw [if_congr hiff rfl rfl, hs]

/-- Live processes count their children and those that are zombies. -/
structure Family (c : Core) : Prop where
  parent : ∀ p q, c.kin p = some q → c.Live q
  children : ∀ q, c.Live q → (c.thread q).child_num = refs c.kin q
  value : ∀ q, c.Live q → 0 ≤ (c.sem (.zombie q)).value
  credits : ∀ q, c.Live q → c.credit q = refs c.zombies q

/-- Nothing changes that a parent counts. -/
theorem Family.frame (h : c.Family) (hkin : c'.kin = c.kin) (hzom : c'.zombies = c.zombies)
    (hlive : ∀ q, c'.Live q ↔ c.Live q)
    (hnum : ∀ q, c.Live q → (c'.thread q).child_num = (c.thread q).child_num)
    (hval : ∀ q, c.Live q → 0 ≤ (c'.sem (.zombie q)).value)
    (hcred : ∀ q, c.Live q → c'.credit q = c.credit q) : c'.Family := by
  refine ⟨fun p q hp => ?_, fun q hq => ?_, fun q hq => ?_, fun q hq => ?_⟩
  · rw [hkin] at hp
    exact (hlive q).mpr (h.parent p q hp)
  · rw [hlive] at hq
    rw [hnum q hq, hkin]
    exact h.children q hq
  · rw [hlive] at hq
    exact hval q hq
  · rw [hlive] at hq
    rw [hcred q hq, hzom]
    exact h.credits q hq

theorem refs_zombies_le (h : c.Family) (hq : ¬ c.Live q) : refs c.zombies q = 0 := by
  refine refs_eq_zero.mpr fun p hp => hq (h.parent p q ?_)
  unfold zombies at hp
  unfold kin
  split at hp
  case isTrue hz =>
    rw [hz, if_neg (by decide)]
    exact hp
  case isFalse => cases hp

theorem refs_kin_dead (h : c.Family) (hq : ¬ c.Live q) : refs c.kin q = 0 :=
  refs_eq_zero.mpr fun p hp => hq (h.parent p q hp)

section Mod

variable {f : Thread → Thread}

theorem kin_mod (hu : (f (c.thread p)).status = .unused ↔ (c.thread p).status = .unused)
    (hp : (f (c.thread p)).parent = (c.thread p).parent) : (c.mod p f).kin = c.kin := by
  funext q
  unfold kin Core.mod
  by_cases hq : q = p
  · simp only [hq, Function.update_self, hu, hp]
  · simp only [Function.update_of_ne hq]

theorem zombies_mod (hz : (f (c.thread p)).status = .zombie ↔ (c.thread p).status = .zombie)
    (hp : (f (c.thread p)).parent = (c.thread p).parent) : (c.mod p f).zombies = c.zombies := by
  funext q
  unfold zombies Core.mod
  by_cases hq : q = p
  · simp only [hq, Function.update_self, hz, hp]
  · simp only [Function.update_of_ne hq]

theorem live_mod (hu : (f (c.thread p)).status = .unused ↔ (c.thread p).status = .unused)
    (hz : (f (c.thread p)).status = .zombie ↔ (c.thread p).status = .zombie) (q : ProcPtr) :
    (c.mod p f).Live q ↔ c.Live q := by
  unfold Live Core.mod
  by_cases hq : q = p
  · simp only [hq, Function.update_self, ne_eq, hu, hz]
  · simp only [Function.update_of_ne hq]

theorem credit_mod (hk : (f (c.thread p)).kont = .wait ↔ (c.thread p).kont = .wait) (q : ProcPtr) :
    (c.mod p f).credit q = c.credit q := by
  refine credit_congr rfl ?_
  unfold Core.mod
  by_cases hq : q = p
  · simp only [hq, Function.update_self, hk]
  · simp only [Function.update_of_ne hq]

/-- One process changes, but nothing its parent or itself counts. -/
theorem Family.mod (h : c.Family)
    (hu : (f (c.thread p)).status = .unused ↔ (c.thread p).status = .unused)
    (hz : (f (c.thread p)).status = .zombie ↔ (c.thread p).status = .zombie)
    (hp : (f (c.thread p)).parent = (c.thread p).parent)
    (hn : (f (c.thread p)).child_num = (c.thread p).child_num)
    (hk : (f (c.thread p)).kont = .wait ↔ (c.thread p).kont = .wait) : (c.mod p f).Family := by
  refine h.frame (kin_mod hu hp) (zombies_mod hz hp) (live_mod hu hz) (fun q _ => ?_)
    (fun q hq => h.value q hq) fun q _ => credit_mod hk q
  by_cases hq : q = p
  · subst hq
    simp only [Core.mod, Function.update_self, hn]
  · simp only [Core.mod, Function.update_of_ne hq]

end Mod

theorem Family.setSem (h : c.Family) {sem : Sem} (hsp : ∀ q, sp ≠ .zombie q) :
    (c.setSem sp sem).Family := by
  have hsame (q : ProcPtr) : (c.setSem sp sem).sem (.zombie q) = c.sem (.zombie q) := by
    simp only [Core.setSem, Function.update_of_ne (Ne.symm (hsp q))]
  refine h.frame rfl rfl (fun _ => Iff.rfl) (fun _ _ => rfl) (fun q hq => ?_) fun q _ => ?_
  · rw [hsame]
    exact h.value q hq
  · exact credit_congr (hsame q) Iff.rfl

/-- A credit given to a `zombie_sem` is there or has been taken. -/
theorem Waiting.credit_give (hw : c.Waiting) (q : ProcPtr) :
    (c.give sp).credit q = c.credit q + if sp = .zombie q then 1 else 0 := by
  unfold Core.give
  cases hl : (c.sem sp).wait_list with
  | nil =>
    by_cases hsp : sp = .zombie q
    · subst hsp
      have hiff : (c.setSem (.zombie q) { c.sem (.zombie q) with
          value := (c.sem (.zombie q)).value + 1 }).Pending q ↔ c.Pending q := by
        unfold Pending Core.setSem
        simp only [Function.update_self]
      unfold credit
      rw [if_congr hiff rfl rfl, if_pos rfl]
      simp only [Core.setSem, Function.update_self]
      ring
    · have hsame : (c.setSem sp { c.sem sp with value := (c.sem sp).value + 1 }).sem (.zombie q) =
          c.sem (.zombie q) := by
        simp only [Core.setSem, Function.update_of_ne (Ne.symm hsp)]
      rw [if_neg hsp, add_zero]
      exact credit_congr hsame Iff.rfl
  | cons p rest =>
    obtain ⟨hb, hr⟩ := hw.waits sp p (by rw [hl]; exact List.mem_cons_self)
    rw [credit_mod Iff.rfl]
    by_cases hsp : sp = .zombie q
    · subst hsp
      obtain ⟨rfl, hkont⟩ := hr
      have hnd := hw.nodup (.zombie p)
      rw [hl, List.nodup_cons] at hnd
      have hnot : ¬ c.Pending p := fun hc => hc.2 (by rw [hl]; exact List.mem_cons_self)
      have hnow : (c.setSem (.zombie p) { c.sem (.zombie p) with wait_list := rest }).Pending p := by
        unfold Pending Core.setSem
        simp only [Function.update_self]
        exact ⟨hkont, hnd.1⟩
      unfold credit
      rw [if_neg hnot, if_pos hnow, if_pos rfl]
      simp only [Core.setSem, Function.update_self]
      ring
    · have hsame : (c.setSem sp { c.sem sp with wait_list := rest }).sem (.zombie q) =
          c.sem (.zombie q) := by
        simp only [Core.setSem, Function.update_of_ne (Ne.symm hsp)]
      rw [if_neg hsp, add_zero]
      exact credit_congr hsame Iff.rfl

theorem Family.give (h : c.Family) (hw : c.Waiting) (hsp : ∀ q, sp ≠ .zombie q) :
    (c.give sp).Family := by
  unfold Core.give
  cases hl : (c.sem sp).wait_list with
  | nil => exact h.setSem hsp
  | cons p rest =>
    have hb := (hw.waits sp p (by rw [hl]; exact List.mem_cons_self)).1
    refine (h.setSem hsp).mod ?_ ?_ rfl rfl Iff.rfl
    · simp [Core.setSem, hb]
    · simp [Core.setSem, hb]

/-! ### Fork, exit and wait -/

theorem Family.fork (h : c.Family) (hcalls : c.Calls) (hunused : (c.thread p).status = .unused) :
    (c.fork p).Family := by
  have hpc : p ≠ c.curr := by
    rintro rfl
    rw [hcalls.running] at hunused
    cases hunused
  have hdead : ¬ c.Live p := fun hl => hl.1 hunused
  have hself : (c.fork p).thread p = { c.thread p with
      pid := c.next_pid
      status := .ready
      kont := .user
      parent := some c.curr
      child_num := 0
      usems := (c.thread c.curr).usems } := by
    simp only [Core.fork, Function.update_self]
  have hcurr : (c.fork p).thread c.curr =
      { c.thread c.curr with child_num := (c.thread c.curr).child_num + 1 } := by
    simp only [Core.fork, Function.update_of_ne hpc.symm, Function.update_self]
  have hother (q : ProcPtr) (hq : q ≠ p) (hqc : q ≠ c.curr) :
      (c.fork p).thread q = c.thread q := by
    simp only [Core.fork, Function.update_of_ne hq, Function.update_of_ne hqc]
  have hstatus (q : ProcPtr) (hq : q ≠ p) :
      ((c.fork p).thread q).status = (c.thread q).status ∧
      ((c.fork p).thread q).parent = (c.thread q).parent ∧
      ((c.fork p).thread q).kont = (c.thread q).kont := by
    by_cases hqc : q = c.curr
    · subst hqc
      rw [hcurr]
      exact ⟨rfl, rfl, rfl⟩
    · rw [hother q hq hqc]
      exact ⟨rfl, rfl, rfl⟩
  -- the child is one more, and no zombie
  have hkin : (c.fork p).kin = Function.update c.kin p (some c.curr) := by
    funext q
    by_cases hq : q = p
    · subst hq
      simp only [kin, hself, Function.update_self, reduceCtorEq, if_false]
    · obtain ⟨hs, hpar, -⟩ := hstatus q hq
      simp only [kin, hs, hpar, Function.update_of_ne hq]
  have hzom : (c.fork p).zombies = c.zombies := by
    funext q
    by_cases hq : q = p
    · subst hq
      simp only [zombies, hself, hunused, reduceCtorEq, if_false]
    · obtain ⟨hs, hpar, -⟩ := hstatus q hq
      simp only [zombies, hs, hpar]
  have hkold : c.kin p = none := by rw [kin, if_pos hunused]
  have hlive (q : ProcPtr) : (c.fork p).Live q ↔ q = p ∨ c.Live q := by
    by_cases hq : q = p
    · subst hq
      simp [Live, hself]
    · obtain ⟨hs, -, -⟩ := hstatus q hq
      simp only [Live, hs, hq, false_or]
  have hsem (q : ProcPtr) (hq : q ≠ p) : (c.fork p).sem (.zombie q) = c.sem (.zombie q) := by
    have hne : SemPtr.zombie q ≠ SemPtr.zombie p := fun heq => hq (SemPtr.zombie.inj heq)
    simp only [Core.fork, Function.update_of_ne hne]
  have hnew : (c.fork p).sem (.zombie p) = sem_init 0 := by
    simp only [Core.fork, Function.update_self]
  -- parents, numbers of children, values and credits
  refine ⟨fun r q hr => ?_, fun q hq => ?_, fun q hq => ?_, fun q hq => ?_⟩
  · rw [hkin] at hr
    rw [hlive]
    by_cases hrp : r = p
    · subst hrp
      simp only [Function.update_self, Option.some.injEq] at hr
      subst hr
      right
      rw [Live, hcalls.running]
      decide
    · rw [Function.update_of_ne hrp] at hr
      exact Or.inr (h.parent r q hr)
  · rw [hkin, refs_update, hkold]
    rw [hlive] at hq
    simp only [reduceCtorEq, if_false, sub_zero, Option.some.injEq]
    rcases hq with rfl | hq
    · rw [hself, if_neg (Ne.symm hpc), refs_kin_dead h hdead]
      rfl
    · have hqp : q ≠ p := by
        rintro rfl
        exact hdead hq
      by_cases hqc : q = c.curr
      · subst hqc
        rw [hcurr, if_pos rfl, ← h.children _ hq]
      · rw [hother q hqp hqc, if_neg (Ne.symm hqc), add_zero]
        exact h.children q hq
  · rw [hlive] at hq
    by_cases hqp : q = p
    · rw [hqp, hnew]
      exact le_rfl
    · rw [hsem q hqp]
      exact h.value q (hq.resolve_left hqp)
  · rw [hlive] at hq
    rw [hzom]
    by_cases hqp : q = p
    · subst hqp
      have hnot : ¬ (c.fork q).Pending q := by
        rintro ⟨hk, -⟩
        rw [hself] at hk
        cases hk
      rw [credit, if_neg hnot, hnew, refs_zombies_le h hdead]
      rfl
    · rw [← h.credits q (hq.resolve_left hqp)]
      exact credit_congr (hsem q hqp) (by rw [(hstatus q hqp).2.2])

theorem Family.reap (h : c.Family) (hw : c.Waiting) (hrun : (c.thread c.curr).status = .running)
    (hk : (c.thread c.curr).kont = .wait) (hpar : (c.thread p).parent = some c.curr)
    (hz : (c.thread p).status = .zombie) : (c.reap p).Family := by
  have hpc : p ≠ c.curr := by
    rintro rfl
    rw [hrun] at hz
    cases hz
  have hself : (c.reap p).thread p = { c.thread p with status := .unused } := by
    simp only [Core.reap, Core.goto, Core.mod, Function.update_self, Function.update_of_ne hpc]
  have hcurr : (c.reap p).thread c.curr = { c.thread c.curr with
      child_num := (c.thread c.curr).child_num - 1, kont := .user } := by
    simp only [Core.reap, Core.goto, Core.mod, Function.update_self, Function.update_of_ne hpc.symm]
  have hother (q : ProcPtr) (hq : q ≠ p) (hqc : q ≠ c.curr) :
      (c.reap p).thread q = c.thread q := by
    simp only [Core.reap, Core.goto, Core.mod, Function.update_of_ne hq, Function.update_of_ne hqc]
  have hstatus (q : ProcPtr) (hq : q ≠ p) :
      ((c.reap p).thread q).status = (c.thread q).status ∧
      ((c.reap p).thread q).parent = (c.thread q).parent := by
    by_cases hqc : q = c.curr
    · subst hqc
      rw [hcurr]
      exact ⟨rfl, rfl⟩
    · rw [hother q hq hqc]
      exact ⟨rfl, rfl⟩
  -- one child less, and one zombie less
  have hkin : (c.reap p).kin = Function.update c.kin p none := by
    funext q
    by_cases hq : q = p
    · subst hq
      simp only [kin, hself, Function.update_self, if_true]
    · obtain ⟨hs, hpar'⟩ := hstatus q hq
      simp only [kin, hs, hpar', Function.update_of_ne hq]
  have hzom : (c.reap p).zombies = Function.update c.zombies p none := by
    funext q
    by_cases hq : q = p
    · subst hq
      simp only [zombies, hself, Function.update_self, reduceCtorEq, if_false]
    · obtain ⟨hs, hpar'⟩ := hstatus q hq
      simp only [zombies, hs, hpar', Function.update_of_ne hq]
  have hkold : c.kin p = some c.curr := by rw [kin, hz, if_neg (by decide), hpar]
  have hzold : c.zombies p = some c.curr := by rw [zombies, if_pos hz, hpar]
  have hlive (q : ProcPtr) : (c.reap p).Live q ↔ c.Live q := by
    by_cases hq : q = p
    · subst hq
      simp [Live, hself, hz]
    · obtain ⟨hs, -⟩ := hstatus q hq
      simp only [Live, hs]
  refine ⟨fun r q hr => ?_, fun q hq => ?_, fun q hq => ?_, fun q hq => ?_⟩
  · rw [hkin] at hr
    rw [hlive]
    by_cases hrp : r = p
    · subst hrp
      simp at hr
    · rw [Function.update_of_ne hrp] at hr
      exact h.parent r q hr
  · rw [hlive] at hq
    rw [hkin, refs_update, hkold]
    simp only [reduceCtorEq, if_false, add_zero, Option.some.injEq]
    by_cases hqc : q = c.curr
    · subst hqc
      rw [hcurr, if_pos rfl, ← h.children _ hq]
    · have hqp : q ≠ p := by
        rintro rfl
        exact hq.2 hz
      rw [hother q hqp hqc, if_neg (Ne.symm hqc), sub_zero]
      exact h.children q hq
  · rw [hlive] at hq
    exact h.value q hq
  · rw [hlive] at hq
    have hqp : q ≠ p := by
      rintro rfl
      exact hq.2 hz
    rw [hzom, refs_update, hzold]
    simp only [reduceCtorEq, if_false, add_zero, Option.some.injEq]
    rw [← h.credits q hq]
    have hsem : (c.reap p).sem = c.sem := rfl
    -- the credit of the zombie was pending, and is used up
    by_cases hqc : q = c.curr
    · subst hqc
      have hbefore : c.Pending c.curr := by
        refine ⟨hk, fun hmem => ?_⟩
        have := (hw.waits _ _ hmem).1
        rw [hrun] at this
        cases this
      have hafter : ¬ (c.reap p).Pending c.curr := by
        rintro ⟨hkont, -⟩
        rw [hcurr] at hkont
        cases hkont
      unfold credit
      rw [if_pos hbefore, if_neg hafter, if_pos rfl, hsem]
      ring
    · rw [if_neg (Ne.symm hqc), sub_zero]
      exact credit_congr rfl (by rw [hother q hqp hqc])

/-- Who is whose child is not touched by a credit. -/
theorem Waiting.give_kin (hw : c.Waiting) : (c.give sp).kin = c.kin ∧
    (c.give sp).zombies = c.zombies ∧ (∀ q, (c.give sp).Live q ↔ c.Live q) ∧
    ∀ q, ((c.give sp).thread q).child_num = (c.thread q).child_num := by
  unfold Core.give
  cases hl : (c.sem sp).wait_list with
  | nil => exact ⟨rfl, rfl, fun _ => Iff.rfl, fun _ => rfl⟩
  | cons p rest =>
    have hb := (hw.waits sp p (by rw [hl]; exact List.mem_cons_self)).1
    have hb' : ((c.setSem sp { c.sem sp with wait_list := rest }).thread p).status = .blocked := hb
    refine ⟨kin_mod (by simp [hb']) rfl, zombies_mod (by simp [hb']) rfl,
      live_mod (by simp [hb']) (by simp [hb']), fun q => ?_⟩
    by_cases hq : q = p
    · subst hq
      simp only [Core.mod, Core.setSem, Function.update_self]
    · simp only [Core.mod, Core.setSem, Function.update_of_ne hq]

/-- The credit of an exit goes to the parent. -/
theorem Waiting.credit_tell (hw : c.Waiting) (q : ProcPtr) :
    c.tell.credit q = c.credit q + if (c.thread c.curr).parent = some q then 1 else 0 := by
  unfold Core.tell
  cases hpar : (c.thread c.curr).parent with
  | none => simp
  | some r =>
    rw [hw.credit_give]
    simp only [SemPtr.zombie.injEq, Option.some.injEq]

theorem Waiting.tell_kin (hw : c.Waiting) : c.tell.kin = c.kin ∧ c.tell.zombies = c.zombies ∧
    (∀ q, c.tell.Live q ↔ c.Live q) ∧
    ∀ q, (c.tell.thread q).child_num = (c.thread q).child_num := by
  unfold Core.tell
  split
  · exact hw.give_kin
  · exact ⟨rfl, rfl, fun _ => Iff.rfl, fun _ => rfl⟩

theorem sem_give_value (q : ProcPtr) (h : 0 ≤ (c.sem (.zombie q)).value) :
    0 ≤ ((c.give sp).sem (.zombie q)).value := by
  unfold Core.give
  split
  · by_cases hsp : .zombie q = sp
    · subst hsp
      simp only [Core.mod, Core.setSem, Function.update_self]
      exact h
    · simp only [Core.mod, Core.setSem, Function.update_of_ne hsp]
      exact h
  · by_cases hsp : .zombie q = sp
    · subst hsp
      simp only [Core.setSem, Function.update_self]
      omega
    · simp only [Core.setSem, Function.update_of_ne hsp]
      exact h

section Leaving

/-- Closing its semaphores and leaving for good changes nothing that is counted. -/
theorem leave_kin : (c.release.goto k).kin = c.kin := by
  have hrel : c.release.kin = c.kin :=
    kin_mod (p := c.curr) (f := fun t => { t with usems := fun _ => none }) Iff.rfl rfl
  rw [← hrel]
  exact kin_mod Iff.rfl rfl

theorem leave_zombies : (c.release.goto k).zombies = c.zombies := by
  have hrel : c.release.zombies = c.zombies :=
    zombies_mod (p := c.curr) (f := fun t => { t with usems := fun _ => none }) Iff.rfl rfl
  rw [← hrel]
  exact zombies_mod Iff.rfl rfl

theorem leave_live : (c.release.goto k).Live q ↔ c.Live q := by
  have hrel : c.release.Live q ↔ c.Live q :=
    live_mod (p := c.curr) (f := fun t => { t with usems := fun _ => none }) Iff.rfl Iff.rfl q
  rw [← hrel]
  exact live_mod Iff.rfl Iff.rfl q

theorem leave_child_num : ((c.release.goto k).thread q).child_num = (c.thread q).child_num := by
  by_cases hq : q = c.curr
  · subst hq
    simp only [Core.release, Core.goto, Core.mod, Function.update_self]
  · simp only [Core.release, Core.goto, Core.mod, Function.update_of_ne hq]

end Leaving

theorem Family.exit (h : c.Family) (hw : c.Waiting) (hcalls : c.Calls) (code : ℤ) :
    (c.exit code).Family := by
  have hrun := hcalls.running
  have hworph := hw.orphan hrun code
  set c₁ := c.orphan code with hc₁
  have hth (q : ProcPtr) := orphan_thread (c := c) code q
  rw [← hc₁] at hth
  obtain ⟨hkin₂, hzom₂, hlive₂, hnum₂⟩ := hworph.tell_kin
  have hcurr₂ : c₁.tell.curr = c.curr := tell_curr
  -- the children lose their parent
  have hkin : (c.exit code).kin = fun r => if c.kin r = some c.curr then none else c.kin r := by
    rw [Core.exit, leave_kin, hkin₂]
    funext r
    simp only [kin, hth]
    by_cases hrc : r = c.curr
    · subst hrc
      simp [hrun]
    · simp only [if_neg hrc]
      by_cases hu : (c.thread r).status = .unused
      · simp [hu]
      · simp only [if_neg hu]
  -- and so do the zombies among them, while the one that exits is a zombie of its own parent
  have hzom : (c.exit code).zombies = fun r =>
      if Function.update c.zombies c.curr (c.thread c.curr).parent r = some c.curr then none
      else Function.update c.zombies c.curr (c.thread c.curr).parent r := by
    rw [Core.exit, leave_zombies, hzom₂]
    funext r
    simp only [zombies, hth]
    by_cases hrc : r = c.curr
    · subst hrc
      simp
    · simp only [if_neg hrc, Function.update_of_ne hrc]
      have hold : c.zombies r = if (c.thread r).status = .zombie then (c.thread r).parent
          else none := rfl
      rw [hold]
      by_cases hz : (c.thread r).status = .zombie
      · simp only [hz, if_true]
      · simp only [if_neg hz, reduceCtorEq, if_false]
  have hlive (q : ProcPtr) : (c.exit code).Live q ↔ c.Live q ∧ q ≠ c.curr := by
    rw [Core.exit, leave_live, hlive₂]
    simp only [Live, hth]
    by_cases hqc : q = c.curr
    · subst hqc
      simp
    · simp [hqc]
  -- which gets a credit for it
  have hcred (q : ProcPtr) (hq : q ≠ c.curr) : (c.exit code).credit q =
      c.credit q + if (c.thread c.curr).parent = some q then 1 else 0 := by
    have h₁ : c₁.credit q = c.credit q := credit_congr rfl (by rw [hth])
    have h₂ := hworph.credit_tell q
    have h₃ : (c.exit code).credit q = c₁.tell.credit q := by
      refine credit_congr rfl ?_
      rw [← hcurr₂] at hq
      simp only [Core.exit, Core.release, Core.goto, Core.mod, ← hc₁, Function.update_of_ne hq]
    have hpar : (c₁.thread c₁.curr).parent = some q ↔ (c.thread c.curr).parent = some q := by
      rw [show c₁.curr = c.curr from rfl, hth]
      simp only
      split
      case isTrue heq =>
        rw [heq]
        simp [Ne.symm hq]
      case isFalse => rfl
    rw [h₃, h₂, h₁, if_congr hpar rfl rfl]
  refine ⟨fun r q hr => ?_, fun q hq => ?_, fun q hq => ?_, fun q hq => ?_⟩
  · rw [hkin] at hr
    simp only at hr
    split at hr
    · cases hr
    case isFalse hne =>
      refine (hlive q).mpr ⟨h.parent r q hr, ?_⟩
      rintro rfl
      exact hne hr
  · obtain ⟨hl, hqc⟩ := (hlive q).mp hq
    rw [hkin, refs_clear _ hqc, Core.exit, leave_child_num, hnum₂, hth]
    exact h.children q hl
  · obtain ⟨hl, hqc⟩ := (hlive q).mp hq
    have hv := h.value q hl
    change 0 ≤ (c₁.tell.sem (.zombie q)).value
    unfold Core.tell
    split
    · exact sem_give_value q hv
    · exact hv
  · obtain ⟨hl, hqc⟩ := (hlive q).mp hq
    have hold : c.zombies c.curr = none := by
      rw [zombies, hrun, if_neg (by decide)]
    rw [hzom, refs_clear _ hqc, hcred q hqc, refs_update, hold, h.credits q hl]
    simp only [reduceCtorEq, if_false, sub_zero]

/-- **Parents count their children** after every event. -/
theorem Step.family (h : c.Family) (hw : c.Waiting) (hstep : Step c ev c') : c'.Family := by
  cases hstep with
  | take _ hsp _ => exact h.setSem hsp
  | takeZombie hcalls _ hv =>
    have hnone : (c.sem (.zombie c.curr)).wait_list = [] := by
      by_contra hne
      exact hv (hw.full _ hne)
    have hsem (q : ProcPtr) (hq : q ≠ c.curr) :
        ((c.take (.zombie c.curr)).goto .wait).sem (.zombie q) = c.sem (.zombie q) := by
      have hne : SemPtr.zombie q ≠ SemPtr.zombie c.curr := fun heq => hq (SemPtr.zombie.inj heq)
      simp only [Core.goto, Core.mod, Core.take, Core.setSem, Function.update_of_ne hne]
    have hself : ((c.take (.zombie c.curr)).goto .wait).sem (.zombie c.curr) =
        { c.sem (.zombie c.curr) with value := (c.sem (.zombie c.curr)).value - 1 } := by
      simp only [Core.goto, Core.mod, Core.take, Core.setSem, Function.update_self]
    refine h.frame (kin_mod Iff.rfl rfl) (zombies_mod Iff.rfl rfl) (live_mod Iff.rfl Iff.rfl)
      (fun q _ => ?_) (fun q hq => ?_) fun q hq => ?_
    · by_cases hqc : q = c.curr
      · subst hqc
        simp only [Core.goto, Core.mod, Core.take, Core.setSem, Function.update_self]
      · simp only [Core.goto, Core.mod, Core.take, Core.setSem, Function.update_of_ne hqc]
    · have hval := h.value q hq
      by_cases hqc : q = c.curr
      · subst hqc
        rw [hself]
        simp only
        omega
      · rw [hsem q hqc]
        exact hval
    · by_cases hqc : q = c.curr
      · subst hqc
        have hbefore : ¬ c.Pending c.curr := by
          rintro ⟨hk, -⟩
          exact hcalls.idle hk
        have hafter : ((c.take (.zombie c.curr)).goto .wait).Pending c.curr := by
          unfold Pending
          rw [hself, hnone]
          refine ⟨?_, List.not_mem_nil⟩
          simp only [Core.goto, Core.mod, Core.take, Core.setSem, Function.update_self]
        unfold credit
        rw [if_neg hbefore, if_pos hafter, hself]
        ring
      · refine credit_congr (hsem q hqc) ?_
        simp only [Core.goto, Core.mod, Core.take, Core.setSem, Function.update_of_ne hqc]
  | @block sp k hcalls hv hwaits =>
    have hrun := hcalls.running
    have hval (q : ProcPtr) : ((c.block sp k).sem (.zombie q)).value =
        (c.sem (.zombie q)).value := by
      by_cases hsp : .zombie q = sp
      · subst hsp
        simp only [Core.block, Core.mod, Core.setSem, Function.update_self]
      · simp only [Core.block, Core.mod, Core.setSem, Function.update_of_ne hsp]
    refine h.frame (kin_mod (by simp [Core.setSem, hrun]) rfl)
      (zombies_mod (by simp [Core.setSem, hrun]) rfl)
      (live_mod (by simp [Core.setSem, hrun]) (by simp [Core.setSem, hrun]))
      (fun q _ => ?_) (fun q hq => ?_) fun q hq => ?_
    · by_cases hqc : q = c.curr
      · subst hqc
        simp only [Core.block, Core.mod, Core.setSem, Function.update_self]
      · simp only [Core.block, Core.mod, Core.setSem, Function.update_of_ne hqc]
    · rw [hval]
      exact h.value q hq
    · by_cases hqc : q = c.curr
      · subst hqc
        -- a process that waits for a child has not taken its credit
        have hbefore : ¬ c.Pending c.curr := by
          rintro ⟨hk, -⟩
          exact hcalls.idle hk
        have hafter : ¬ (c.block sp k).Pending c.curr := by
          rintro ⟨hk, hmem⟩
          simp only [Core.block, Core.mod, Core.setSem, Function.update_self] at hk
          subst hk
          cases sp with
          | zombie q =>
            obtain ⟨rfl, -, -⟩ := hwaits
            refine hmem ?_
            simp only [Core.block, Core.mod, Core.setSem, Function.update_self]
            exact List.mem_append_right _ (List.mem_singleton_self _)
          | user u => exact Kont.noConfusion hwaits.1
          | serial =>
            obtain ⟨n, got, hk⟩ := hwaits
            cases hk
        unfold credit
        rw [if_neg hbefore, if_neg hafter, hval]
      · have hsem : (c.block sp k).sem (.zombie q) = c.sem (.zombie q) := by
          have hne : SemPtr.zombie q ≠ sp := by
            rintro rfl
            exact hqc hwaits.1
          simp only [Core.block, Core.mod, Core.setSem, Function.update_of_ne hne]
        refine credit_congr hsem ?_
        simp only [Core.block, Core.mod, Core.setSem, Function.update_of_ne hqc]
  | give hsp _ => exact h.give hw hsp
  | @openUsem id u value hcalls _ _ =>
    have hset : (c.setSem (.user u) (sem_init value)).Family := h.setSem (by simp)
    have hmod := hset.mod (p := c.curr)
      (f := fun t => { t with usems := Function.update t.usems id (some u) })
      Iff.rfl Iff.rfl rfl rfl Iff.rfl
    exact ⟨hmod.parent, hmod.children, hmod.value, hmod.credits⟩
  | @closeUsem id u hcalls _ =>
    have hmod := h.mod (p := c.curr)
      (f := fun t => { t with usems := Function.update t.usems id none })
      Iff.rfl Iff.rfl rfl rfl Iff.rfl
    exact ⟨hmod.parent, hmod.children, hmod.value, hmod.credits⟩
  | fork hcalls _ hunused _ => exact h.fork hcalls hunused
  | exit hcalls => exact h.exit hw hcalls _
  | reap hrun hk hpar hz => exact h.reap hw hrun hk hpar hz
  | @yield k hrun hk =>
    have hfirst := h.mod (p := c.curr) (f := ({ · with status := .ready }))
      (by simp [hrun]) (by simp [hrun]) rfl rfl Iff.rfl
    refine hfirst.mod Iff.rfl Iff.rfl rfl rfl ?_
    simp only [Core.mod, Function.update_self]
    rcases hk with ⟨rfl, hk⟩ | ⟨hcalls, hk, -⟩ | ⟨rfl, hk⟩
    · simp [hk]
    · simp [hcalls.idle, hk]
    · simp [hk]
  | back hrun hk => exact h.mod Iff.rfl Iff.rfl rfl rfl (by simp [hk])
  | @dispatch p hcurr hfind =>
    have hready : (c.thread p).status = .ready := by simpa using List.find?_some hfind
    have hmod := h.mod (p := p) (f := ({ · with status := .running }))
      (by simp [hready]) (by simp [hready]) rfl rfl Iff.rfl
    exact ⟨hmod.parent, hmod.children, hmod.value, hmod.credits⟩

end Core

end Oslab
