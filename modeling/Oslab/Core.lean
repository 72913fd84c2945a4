/-
# Processes and semaphores

What is left of the kernel when files are forgotten: the processes with their
parents and children, the semaphores, and who runs. Every step of the kernel is
a short run of the events below on it, and each event is one thing that can
happen to a process: it takes a credit or blocks, it forks, exits, reaps a child,
gives up the processor or gets it.
-/
import Oslab.Lib.Transition
import Oslab.Lib.Refs
import Oslab.Kernel

namespace Oslab

open Lib

/-- A process without its files. -/
@[ext] structure Thread where
  pid : ℤ
  status : Status
  kont : Kont
  parent : Option ProcPtr
  child_num : ℤ
  exit_code : ℤ
  usems : Fin MAX_USEM → Option UsemPtr

/-- The kernel without its files. -/
@[ext] structure Core where
  thread : ProcPtr → Thread
  sem : SemPtr → Sem
  usemRef : UsemPtr → ℤ
  curr : ProcPtr
  next_pid : ℤ

def Proc.thread (pr : Proc) : Thread :=
  ⟨pr.pid, pr.status, pr.kont, pr.parent, pr.child_num, pr.exit_code, pr.usems⟩

def Kernel.core (s : Kernel) : Core where
  thread p := (s.pcb p).thread
  sem := s.sem
  usemRef u := (s.user_sem u).ref
  curr := s.curr
  next_pid := s.next_pid

/-- What happens to processes and semaphores. -/
inductive CoreEvent
  /-- the current process takes a credit -/
  | take (sp : SemPtr)
  /-- the current process takes a credit of its own `zombie_sem` -/
  | takeZombie
  /-- the current process blocks, to go on at `k` -/
  | block (sp : SemPtr) (k : Kont)
  /-- a credit is given -/
  | give (sp : SemPtr)
  /-- the current process opens a semaphore -/
  | openUsem (id : Fin MAX_USEM) (u : UsemPtr) (value : ℤ)
  /-- the current process closes a semaphore -/
  | closeUsem (id : Fin MAX_USEM) (u : UsemPtr)
  /-- the current process makes process `p` -/
  | fork (p : ProcPtr)
  /-- the current process exits -/
  | exit (code : ℤ)
  /-- the current process reaps process `p` -/
  | reap (p : ProcPtr)
  /-- the current process gives up the processor, to go on at `k` -/
  | yield (k : Kont)
  /-- the current process goes back to user mode -/
  | back
  /-- process `p` runs -/
  | dispatch (p : ProcPtr)

namespace Core

/-- Change one process. -/
def mod (c : Core) (p : ProcPtr) (f : Thread → Thread) : Core :=
  { c with thread := Function.update c.thread p (f (c.thread p)) }

/-- Set one semaphore. -/
def setSem (c : Core) (sp : SemPtr) (sem : Sem) : Core :=
  { c with sem := Function.update c.sem sp sem }

/-- `sem_v` -/
def give (c : Core) (sp : SemPtr) : Core :=
  match (c.sem sp).wait_list with
  | p :: rest => (c.setSem sp { c.sem sp with wait_list := rest }).mod p ({ · with status := .ready })
  | [] => c.setSem sp { c.sem sp with value := (c.sem sp).value + 1 }

/-- The current process takes a credit. -/
def take (c : Core) (sp : SemPtr) : Core :=
  c.setSem sp { c.sem sp with value := (c.sem sp).value - 1 }

/-- The current process goes to the end of the wait list. -/
def block (c : Core) (sp : SemPtr) (k : Kont) : Core :=
  (c.setSem sp { c.sem sp with wait_list := (c.sem sp).wait_list ++ [c.curr] }).mod c.curr
    ({ · with status := .blocked, kont := k })

/-- The current process goes on at `k`. -/
def goto (c : Core) (k : Kont) : Core := c.mod c.curr ({ · with kont := k })

/-- Process `p` is a child of the current process. -/
def fork (c : Core) (p : ProcPtr) : Core where
  thread := Function.update (Function.update c.thread c.curr
      { c.thread c.curr with child_num := (c.thread c.curr).child_num + 1 }) p
    { c.thread p with
      pid := c.next_pid
      status := .ready
      kont := .user
      parent := some c.curr
      child_num := 0
      usems := (c.thread c.curr).usems }
  sem := Function.update c.sem (.zombie p) (sem_init 0)
  usemRef u := c.usemRef u + refs (c.thread c.curr).usems u
  curr := c.curr
  next_pid := c.next_pid + 1

/-- The children of the current process lose it, and it is a zombie. -/
def orphan (c : Core) (code : ℤ) : Core :=
  { c with thread := fun i =>
      let t := if i = c.curr then { c.thread i with status := .zombie, exit_code := code }
        else c.thread i
      if t.parent = some c.curr then { t with parent := none } else t }

/-- The parent gets a credit. -/
def tell (c : Core) : Core :=
  match (c.thread c.curr).parent with
  | some parent => c.give (.zombie parent)
  | none => c

/-- The current process closes its semaphores. -/
def release (c : Core) : Core :=
  { c.mod c.curr ({ · with usems := fun _ => none }) with
    usemRef := fun u => c.usemRef u - refs (c.thread c.curr).usems u }

/-- The current process is over. -/
def exit (c : Core) (code : ℤ) : Core := ((c.orphan code).tell.release).goto .exited

/-- Process `p` is reaped. -/
def reap (c : Core) (p : ProcPtr) : Core :=
  ((c.mod c.curr ({ · with child_num := (c.thread c.curr).child_num - 1 })).mod p
    ({ · with status := .unused })).goto .user

/-- The semaphore for which a process may block, and where it goes on. -/
def Waits (c : Core) : SemPtr → Kont → Prop
  | .zombie q, k => q = c.curr ∧ k = .wait ∧ (c.thread q).child_num ≠ 0
  | .user u, k => k = .ret 0 ∧ ∃ id, (c.thread c.curr).usems id = some u
  | .serial, k => ∃ n got, k = .getchar n got

/-- The process runs, has no credit left to use, and is not the first one. -/
structure Calls (c : Core) : Prop where
  running : (c.thread c.curr).status = .running
  idle : (c.thread c.curr).kont ≠ .wait
  ne_zero : c.curr ≠ 0

/-- One event. -/
inductive Step : Core → CoreEvent → Core → Prop
  | take {c : Core} {sp : SemPtr} : c.Calls → (∀ p, sp ≠ .zombie p) → (c.sem sp).value ≠ 0 →
      Step c (.take sp) (c.take sp)
  | takeZombie {c : Core} : c.Calls → (c.thread c.curr).child_num ≠ 0 →
      (c.sem (.zombie c.curr)).value ≠ 0 →
      Step c .takeZombie ((c.take (.zombie c.curr)).goto .wait)
  | block {c : Core} {sp : SemPtr} {k : Kont} : c.Calls → (c.sem sp).value = 0 → c.Waits sp k →
      Step c (.block sp k) (c.block sp k)
  | give {c : Core} {sp : SemPtr} : (∀ p, sp ≠ .zombie p) →
      (∀ u, sp = .user u → ∃ id, (c.thread c.curr).usems id = some u) →
      Step c (.give sp) (c.give sp)
  | openUsem {c : Core} {id : Fin MAX_USEM} {u : UsemPtr} {value : ℤ} : c.Calls →
      (c.thread c.curr).usems id = none → c.usemRef u = 0 →
      Step c (.openUsem id u value)
        { (c.setSem (.user u) (sem_init value)).mod c.curr
            (fun t => { t with usems := Function.update t.usems id (some u) }) with
          usemRef := Function.update c.usemRef u 1 }
  | closeUsem {c : Core} {id : Fin MAX_USEM} {u : UsemPtr} : c.Calls →
      (c.thread c.curr).usems id = some u →
      Step c (.closeUsem id u)
        { c.mod c.curr (fun t => { t with usems := Function.update t.usems id none }) with
          usemRef := Function.update c.usemRef u (c.usemRef u - 1) }
  | fork {c : Core} {p : ProcPtr} : c.Calls → p ≠ 0 → (c.thread p).status = .unused →
      c.next_pid < INT_MAX → Step c (.fork p) (c.fork p)
  | exit {c : Core} {code : ℤ} : c.Calls → Step c (.exit code) (c.exit code)
  | reap {c : Core} {p : ProcPtr} : (c.thread c.curr).status = .running →
      (c.thread c.curr).kont = .wait → (c.thread p).parent = some c.curr →
      (c.thread p).status = .zombie → Step c (.reap p) (c.reap p)
  | yield {c : Core} {k : Kont} : (c.thread c.curr).status = .running →
      (k = .user ∧ (c.thread c.curr).kont = .user ∨ c.Calls ∧ k ≠ .wait ∧ k ≠ .exited ∨
        k = .wait ∧ (c.thread c.curr).kont = .wait) →
      Step c (.yield k) ((c.mod c.curr ({ · with status := .ready })).goto k)
  | back {c : Core} : (c.thread c.curr).status = .running → (c.thread c.curr).kont ≠ .wait →
      Step c .back (c.goto .user)
  | dispatch {c : Core} {p : ProcPtr} : (c.thread c.curr).status ≠ .running →
      (nextProcs c.curr).find? (fun p => (c.thread p).status = .ready) = some p →
      Step c (.dispatch p) { c.mod p ({ · with status := .running }) with curr := p }

end Core

/-- Processes and semaphores under events. -/
def coreLts : Lts Core CoreEvent where
  init _ := True
  step := Core.Step

/-- What the kernel has done to processes and semaphores. -/
abbrev CoreRun : Core → List CoreEvent → Core → Prop := coreLts.Run

/-! ### Wait lists -/

namespace Core

variable {c c' : Core} {sp : SemPtr} {p q : ProcPtr} {u : UsemPtr} {k : Kont} {ev : CoreEvent}

/-- Why a process is in a wait list. -/
def Reason (c : Core) (p : ProcPtr) : SemPtr → Prop
  | .zombie q => p = q ∧ (c.thread p).kont = .wait
  | .user u => (c.thread p).kont = .ret 0 ∧ ∃ id, (c.thread p).usems id = some u
  | .serial => ∃ n got, (c.thread p).kont = .getchar n got

/-- Wait lists and blocked processes match, and nobody waits for a credit that is there. -/
structure Waiting (c : Core) : Prop where
  nodup : ∀ sp, (c.sem sp).wait_list.Nodup
  once : ∀ sp sp' p, p ∈ (c.sem sp).wait_list → p ∈ (c.sem sp').wait_list → sp = sp'
  waits : ∀ sp p, p ∈ (c.sem sp).wait_list → (c.thread p).status = .blocked ∧ c.Reason p sp
  blocked : ∀ p, (c.thread p).status = .blocked → ∃ sp, p ∈ (c.sem sp).wait_list
  full : ∀ sp, (c.sem sp).wait_list ≠ [] → (c.sem sp).value = 0

/-- No process enters or leaves a wait list. -/
theorem Waiting.frame (h : c.Waiting)
    (hlist : ∀ sp, (c'.sem sp).wait_list = (c.sem sp).wait_list)
    (hfull : ∀ sp, (c.sem sp).wait_list ≠ [] → (c'.sem sp).value = (c.sem sp).value)
    (hold : ∀ p, (c.thread p).status = .blocked → (c'.thread p).status = .blocked ∧
      (c'.thread p).kont = (c.thread p).kont ∧ (c'.thread p).usems = (c.thread p).usems)
    (hnew : ∀ p, (c'.thread p).status = .blocked → (c.thread p).status = .blocked) :
    c'.Waiting := by
  refine ⟨fun sp => ?_, fun sp sp' p hp hp' => ?_, fun sp p hp => ?_, fun p hp => ?_,
    fun sp hne => ?_⟩
  · rw [hlist]
    exact h.nodup sp
  · rw [hlist] at hp hp'
    exact h.once sp sp' p hp hp'
  · rw [hlist] at hp
    obtain ⟨hb, hr⟩ := h.waits sp p hp
    obtain ⟨hb', hk, hu⟩ := hold p hb
    refine ⟨hb', ?_⟩
    cases sp with
    | zombie q =>
      simp only [Reason, hk] at hr ⊢
      exact hr
    | user u =>
      simp only [Reason, hk, hu] at hr ⊢
      exact hr
    | serial =>
      simp only [Reason, hk] at hr ⊢
      exact hr
  · obtain ⟨sp, hsp⟩ := h.blocked p (hnew p hp)
    exact ⟨sp, by rw [hlist]; exact hsp⟩
  · rw [hlist] at hne
    rw [hfull sp hne]
    exact h.full sp hne

/-- One process changes that is not blocked, before or after. -/
theorem Waiting.mod (h : c.Waiting) {f : Thread → Thread} (hp : (c.thread p).status ≠ .blocked)
    (hf : (f (c.thread p)).status ≠ .blocked) : (c.mod p f).Waiting := by
  refine h.frame (fun _ => rfl) (fun _ _ => rfl) (fun q hq => ?_) fun q hq => ?_
  · have hne : q ≠ p := by
      rintro rfl
      exact hp hq
    simp only [Core.mod, Function.update_of_ne hne]
    exact ⟨hq, trivial, trivial⟩
  · by_cases hne : q = p
    · subst hne
      simp only [Core.mod, Function.update_self] at hq
      exact (hf hq).elim
    · simp only [Core.mod, Function.update_of_ne hne] at hq
      exact hq

/-- The value of a semaphore nobody waits for changes. -/
theorem Waiting.setValue (h : c.Waiting) (sem : Sem) (hsem : sem.wait_list = [])
    (hnone : (c.sem sp).wait_list = []) : (c.setSem sp sem).Waiting := by
  have hlist (sp' : SemPtr) : ((c.setSem sp sem).sem sp').wait_list = (c.sem sp').wait_list := by
    by_cases hne : sp' = sp
    · rw [hne, hnone]
      simp only [setSem, Function.update_self, hsem]
    · simp only [setSem, Function.update_of_ne hne]
  refine h.frame hlist (fun sp' hne => ?_) (fun q hq => ⟨hq, rfl, rfl⟩) fun q hq => hq
  have hsp : sp' ≠ sp := by
    rintro rfl
    exact hne hnone
  simp only [setSem, Function.update_of_ne hsp]

theorem Waiting.take (h : c.Waiting) (hv : (c.sem sp).value ≠ 0) : (c.take sp).Waiting := by
  have hnone : (c.sem sp).wait_list = [] := by
    by_contra hne
    exact hv (h.full sp hne)
  exact h.setValue _ hnone hnone

theorem Waiting.give (h : c.Waiting) (sp : SemPtr) : (c.give sp).Waiting := by
  unfold Core.give
  cases hl : (c.sem sp).wait_list with
  | nil => exact h.setValue _ hl hl
  | cons p rest =>
    have hp : p ∈ (c.sem sp).wait_list := by
      rw [hl]
      exact List.mem_cons_self
    have hnd : (p :: rest).Nodup := hl ▸ h.nodup sp
    obtain ⟨hprest, hrest⟩ := List.nodup_cons.mp hnd
    -- the lists afterwards: the first process has left its one
    have hmem (sp' : SemPtr) (q : ProcPtr) :
        q ∈ (Function.update c.sem sp { c.sem sp with wait_list := rest } sp').wait_list ↔
          q ∈ (c.sem sp').wait_list ∧ q ≠ p := by
      by_cases hsp : sp' = sp
      · subst hsp
        simp only [Function.update_self, hl, List.mem_cons]
        constructor
        · intro hq
          exact ⟨Or.inr hq, fun heq => hprest (heq ▸ hq)⟩
        · rintro ⟨heq | hq, hne⟩
          · exact (hne heq).elim
          · exact hq
      · rw [Function.update_of_ne hsp]
        refine ⟨fun hq => ⟨hq, ?_⟩, And.left⟩
        rintro rfl
        exact hsp (h.once sp' sp q hq hp)
    refine ⟨fun sp' => ?_, fun sp₁ sp₂ q h₁ h₂ => ?_, fun sp' q hq => ?_, fun q hq => ?_,
      fun sp' hne => ?_⟩
    · by_cases hsp : sp' = sp
      · subst hsp
        simp only [Core.mod, setSem, Function.update_self]
        exact hrest
      · simp only [Core.mod, setSem, Function.update_of_ne hsp]
        exact h.nodup sp'
    · simp only [Core.mod, setSem, hmem] at h₁ h₂
      exact h.once sp₁ sp₂ q h₁.1 h₂.1
    · simp only [Core.mod, setSem, hmem] at hq
      obtain ⟨hb, hr⟩ := h.waits sp' q hq.1
      have hthread : (Core.mod (c.setSem sp { c.sem sp with wait_list := rest }) p
          ({ · with status := .ready })).thread q = c.thread q := by
        simp only [Core.mod, setSem, Function.update_of_ne hq.2]
      rw [Reason.eq_def] at hr ⊢
      simp only [hthread]
      exact ⟨hb, hr⟩
    · by_cases hqp : q = p
      · subst hqp
        simp only [Core.mod, setSem, Function.update_self] at hq
        cases hq
      · simp only [Core.mod, setSem, Function.update_of_ne hqp] at hq
        obtain ⟨sp', hsp'⟩ := h.blocked q hq
        refine ⟨sp', ?_⟩
        simp only [Core.mod, setSem, hmem]
        exact ⟨hsp', hqp⟩
    · by_cases hsp : sp' = sp
      · subst hsp
        simp only [Core.mod, setSem, Function.update_self]
        exact h.full sp' (by rw [hl]; exact List.cons_ne_nil _ _)
      · simp only [Core.mod, setSem, Function.update_of_ne hsp] at hne ⊢
        exact h.full sp' hne

theorem Waiting.block (h : c.Waiting) (hrun : (c.thread c.curr).status = .running)
    (hv : (c.sem sp).value = 0) (hw : c.Waits sp k) : (c.block sp k).Waiting := by
  -- a running process stands in no list, so it is in one after it has blocked
  have hnot (sp' : SemPtr) : c.curr ∉ (c.sem sp').wait_list := by
    intro hmem
    have := (h.waits sp' _ hmem).1
    rw [hrun] at this
    cases this
  have hmem (sp' : SemPtr) (q : ProcPtr) :
      q ∈ (Function.update c.sem sp { c.sem sp with
        wait_list := (c.sem sp).wait_list ++ [c.curr] } sp').wait_list ↔
        q ∈ (c.sem sp').wait_list ∨ (sp' = sp ∧ q = c.curr) := by
    by_cases hsp : sp' = sp
    · subst hsp
      simp only [Function.update_self, List.mem_append, List.mem_singleton, true_and]
    · simp only [Function.update_of_ne hsp, hsp, false_and, or_false]
  have hthread (q : ProcPtr) (hq : q ≠ c.curr) : (c.block sp k).thread q = c.thread q := by
    simp only [Core.block, Core.mod, setSem, Function.update_of_ne hq]
  have hcurr : (c.block sp k).thread c.curr =
      { c.thread c.curr with status := .blocked, kont := k } := by
    simp only [Core.block, Core.mod, setSem, Function.update_self]
  refine ⟨fun sp' => ?_, fun sp₁ sp₂ q h₁ h₂ => ?_, fun sp' q hq => ?_, fun q hq => ?_,
    fun sp' hne => ?_⟩
  · by_cases hsp : sp' = sp
    · subst hsp
      simp only [Core.block, Core.mod, setSem, Function.update_self]
      exact (h.nodup sp').append (List.nodup_singleton _) (by simpa using hnot sp')
    · simp only [Core.block, Core.mod, setSem, Function.update_of_ne hsp]
      exact h.nodup sp'
  · simp only [Core.block, Core.mod, setSem, hmem] at h₁ h₂
    rcases h₁ with h₁ | ⟨rfl, rfl⟩ <;> rcases h₂ with h₂ | ⟨rfl, heq⟩
    · exact h.once sp₁ sp₂ q h₁ h₂
    · exact (hnot sp₁ (heq ▸ h₁)).elim
    · exact (hnot sp₂ h₂).elim
    · rfl
  · simp only [Core.block, Core.mod, setSem, hmem] at hq
    rcases hq with hq | ⟨rfl, rfl⟩
    · have hne : q ≠ c.curr := fun heq => hnot sp' (heq ▸ hq)
      rw [Reason.eq_def, hthread q hne]
      have := h.waits sp' q hq
      rw [Reason.eq_def] at this
      exact this
    · rw [Reason.eq_def, hcurr]
      refine ⟨rfl, ?_⟩
      cases sp' with
      | zombie q => exact ⟨hw.1.symm, hw.2.1⟩
      | user u => exact hw
      | serial => exact hw
  · by_cases hqc : q = c.curr
    · refine ⟨sp, ?_⟩
      simp only [Core.block, Core.mod, setSem, hmem]
      exact Or.inr ⟨trivial, hqc⟩
    · rw [hthread q hqc] at hq
      obtain ⟨sp', hsp'⟩ := h.blocked q hq
      refine ⟨sp', ?_⟩
      simp only [Core.block, Core.mod, setSem, hmem]
      exact Or.inl hsp'
  · by_cases hsp : sp' = sp
    · subst hsp
      simp only [Core.block, Core.mod, setSem, Function.update_self]
      exact hv
    · simp only [Core.block, Core.mod, setSem, Function.update_of_ne hsp] at hne ⊢
      exact h.full sp' hne

theorem Waiting.no_waiter_zombie (h : c.Waiting) (hq : (c.thread q).status ≠ .blocked) :
    (c.sem (.zombie q)).wait_list = [] := by
  refine List.eq_nil_iff_forall_not_mem.mpr fun p hp => ?_
  obtain ⟨hb, rfl, -⟩ := h.waits _ _ hp
  exact hq hb

theorem Waiting.orphan (h : c.Waiting) (hrun : (c.thread c.curr).status = .running) (code : ℤ) :
    (c.orphan code).Waiting := by
  refine h.frame (fun _ => rfl) (fun _ _ => rfl) (fun q hq => ?_) fun q hq => ?_
  · have hne : q ≠ c.curr := by
      rintro rfl
      rw [hrun] at hq
      cases hq
    simp only [Core.orphan, if_neg hne]
    split <;> exact ⟨hq, rfl, rfl⟩
  · by_cases hne : q = c.curr
    · subst hne
      simp only [Core.orphan, if_true] at hq
      split at hq <;> cases hq
    · simp only [Core.orphan, if_neg hne] at hq
      split at hq <;> exact hq

theorem Waiting.release (h : c.Waiting) (hz : (c.thread c.curr).status = .zombie) :
    c.release.Waiting := by
  have hmod : (c.mod c.curr ({ · with usems := fun _ => none })).Waiting :=
    h.mod (by rw [hz]; decide) (by simp only [hz]; decide)
  exact ⟨hmod.nodup, hmod.once, hmod.waits, hmod.blocked, hmod.full⟩

theorem Waiting.goto (h : c.Waiting) (hc : (c.thread c.curr).status ≠ .blocked) (k : Kont) :
    (c.goto k).Waiting := h.mod hc hc

theorem Waiting.tell (h : c.Waiting) : c.tell.Waiting := by
  unfold Core.tell
  split
  · exact h.give _
  · exact h

@[simp] theorem give_curr : (c.give sp).curr = c.curr := by
  unfold Core.give
  split <;> rfl

@[simp] theorem tell_curr : c.tell.curr = c.curr := by
  unfold Core.tell
  split
  · exact give_curr
  · rfl

/-- A process that is not blocked is left alone by `sem_v`. -/
theorem Waiting.give_thread (h : c.Waiting) (hp : (c.thread p).status ≠ .blocked) :
    (c.give sp).thread p = c.thread p := by
  unfold Core.give
  cases hl : (c.sem sp).wait_list with
  | nil => rfl
  | cons q rest =>
    have hne : p ≠ q := by
      rintro rfl
      exact hp (h.waits sp p (by rw [hl]; exact List.mem_cons_self)).1
    simp only [Core.mod, setSem, Function.update_of_ne hne]

theorem Waiting.tell_thread (h : c.Waiting) (hp : (c.thread p).status ≠ .blocked) :
    c.tell.thread p = c.thread p := by
  unfold Core.tell
  split
  · exact h.give_thread hp
  · rfl

theorem orphan_curr_status (c : Core) (code : ℤ) :
    ((c.orphan code).thread (c.orphan code).curr).status = .zombie := by
  simp only [Core.orphan, if_true]
  split <;> rfl

/-- The process that exits is a zombie when it has told its parent. -/
theorem Waiting.tell_status (h : c.Waiting) (hrun : (c.thread c.curr).status = .running)
    (code : ℤ) : ((c.orphan code).tell.thread (c.orphan code).tell.curr).status = .zombie := by
  have hz := orphan_curr_status c code
  rw [tell_curr, (h.orphan hrun code).tell_thread (by rw [hz]; decide), hz]

/-- The semaphore every identifier of every process refers to. -/
def usemTable (c : Core) (x : ProcPtr × Fin MAX_USEM) : Option UsemPtr := (c.thread x.1).usems x.2

/-- The counts of user semaphores are right, and who is dead refers to none. -/
structure Usems (c : Core) : Prop where
  count : ∀ u, c.usemRef u = refs c.usemTable u
  unused : ∀ p, (c.thread p).status = .unused → (c.thread p).usems = fun _ => none
  zombie : ∀ p, (c.thread p).status = .zombie → (c.thread p).usems = fun _ => none

/-- Nobody waits for a semaphore that is not in use. -/
theorem Waiting.no_waiter_user (h : c.Waiting) (hu : c.Usems) (hzero : c.usemRef u = 0) :
    (c.sem (.user u)).wait_list = [] := by
  refine List.eq_nil_iff_forall_not_mem.mpr fun p hp => ?_
  obtain ⟨-, -, id, hid⟩ := h.waits _ _ hp
  rw [hu.count, refs_eq_zero] at hzero
  exact hzero (p, id) hid

/-- **Wait lists match statuses** after every event. -/
theorem Step.waiting (h : c.Waiting) (hu : c.Usems) (hstep : Step c ev c') : c'.Waiting := by
  cases hstep with
  | take hcalls _ hv => exact h.take hv
  | takeZombie hcalls _ hv =>
    refine (h.take hv).goto ?_ _
    change (c.thread c.curr).status ≠ _
    rw [hcalls.running]
    decide
  | block hcalls hv hw => exact h.block hcalls.running hv hw
  | give => exact h.give _
  -- nobody waits for a semaphore that was not in use
  | @openUsem id u value hcalls hid hzero =>
    have hset := h.setValue (sem_init value) rfl (h.no_waiter_user hu hzero)
    have hrun : ((c.setSem (.user u) (sem_init value)).thread c.curr).status ≠ .blocked := by
      rw [show ((c.setSem (.user u) (sem_init value)).thread c.curr).status = _ from hcalls.running]
      decide
    have hmod := hset.mod
      (f := fun t => { t with usems := Function.update t.usems id (some u) }) hrun hrun
    exact ⟨hmod.nodup, hmod.once, hmod.waits, hmod.blocked, hmod.full⟩
  | @closeUsem id u hcalls hid =>
    have hrun : (c.thread c.curr).status ≠ .blocked := by
      rw [hcalls.running]
      decide
    have hmod := h.mod
      (f := fun t => { t with usems := Function.update t.usems id none }) hrun hrun
    exact ⟨hmod.nodup, hmod.once, hmod.waits, hmod.blocked, hmod.full⟩
  -- nor for the children of a process that was not there
  | @fork p hcalls hp hunused _ =>
    have hnone := h.no_waiter_zombie (q := p) (by rw [hunused]; decide)
    have hset := h.setValue (sem_init 0) rfl hnone
    refine hset.frame (fun _ => rfl) (fun _ _ => rfl) (fun q hq => ?_) fun q hq => ?_
    · change (c.thread q).status = _ at hq
      have hqp : q ≠ p := by
        rintro rfl
        rw [hunused] at hq
        cases hq
      have hqc : q ≠ c.curr := by
        rintro rfl
        rw [hcalls.running] at hq
        cases hq
      simp only [Core.fork, setSem, Function.update_of_ne hqp, Function.update_of_ne hqc]
      exact ⟨hq, trivial, trivial⟩
    · by_cases hqp : q = p
      · subst hqp
        simp only [Core.fork, Function.update_self] at hq
        cases hq
      · by_cases hqc : q = c.curr
        · subst hqc
          simp only [Core.fork, Function.update_of_ne hqp, Function.update_self] at hq
          exact hq
        · simp only [Core.fork, Function.update_of_ne hqp, Function.update_of_ne hqc] at hq
          exact hq
  -- the one that exits wakes its parent and waits for nothing itself
  | @exit code hcalls =>
    have hz := h.tell_status hcalls.running code
    have hrel := ((h.orphan hcalls.running code).tell).release hz
    refine hrel.goto ?_ _
    simp only [Core.release, Core.mod, Function.update_self]
    rw [hz]
    decide
  | @reap p hrun hk hpar hz =>
    have hcurr : (c.thread c.curr).status ≠ .blocked := by
      rw [hrun]
      decide
    have hp : (c.thread p).status ≠ .blocked := by
      rw [hz]
      decide
    have hne : p ≠ c.curr := by
      rintro rfl
      rw [hrun] at hz
      cases hz
    have hfirst := h.mod
      (f := ({ · with child_num := (c.thread c.curr).child_num - 1 })) hcurr hcurr
    have hsecond := hfirst.mod (p := p) (f := ({ · with status := .unused }))
      (by simp only [Core.mod, Function.update_of_ne hne]; exact hp) (by simp)
    refine hsecond.goto ?_ _
    simp only [Core.mod, Function.update_of_ne hne.symm, Function.update_self]
    exact hcurr
  | @yield k hrun _ =>
    have hcurr : (c.thread c.curr).status ≠ .blocked := by
      rw [hrun]
      decide
    refine (h.mod (f := ({ · with status := .ready })) hcurr (by simp)).goto ?_ _
    simp only [Core.mod, Function.update_self]
    decide
  | @back hrun _ => exact h.goto (by rw [hrun]; decide) _
  | @dispatch p _ hfind =>
    have hready : (c.thread p).status = .ready := by simpa using List.find?_some hfind
    have hmod := h.mod (p := p) (f := ({ · with status := .running })) (by rw [hready]; decide)
      (by simp)
    exact ⟨hmod.nodup, hmod.once, hmod.waits, hmod.blocked, hmod.full⟩

/-! ### References to semaphores -/

theorem usemTable_mod {f : Thread → Thread} (hf : (f (c.thread p)).usems = (c.thread p).usems) :
    (c.mod p f).usemTable = c.usemTable := by
  funext x
  unfold usemTable Core.mod
  by_cases hx : x.1 = p
  · simp only [hx, Function.update_self, hf]
  · simp only [Function.update_of_ne hx]

/-- A process changes, but not the semaphores it refers to. -/
theorem Usems.mod (h : c.Usems) {f : Thread → Thread}
    (hf : (f (c.thread p)).usems = (c.thread p).usems)
    (hdead : (f (c.thread p)).status = .unused ∨ (f (c.thread p)).status = .zombie →
      (c.thread p).status = .unused ∨ (c.thread p).status = .zombie) : (c.mod p f).Usems := by
  have hnone (hd : (c.thread p).status = .unused ∨ (c.thread p).status = .zombie) :
      (c.thread p).usems = fun _ => none := hd.elim (h.unused p) (h.zombie p)
  refine ⟨fun u => ?_, fun q hq => ?_, fun q hq => ?_⟩
  · rw [usemTable_mod hf]
    exact h.count u
  · by_cases hqp : q = p
    · subst hqp
      simp only [Core.mod, Function.update_self] at hq ⊢
      rw [hf, hnone (hdead (Or.inl hq))]
    · simp only [Core.mod, Function.update_of_ne hqp] at hq ⊢
      exact h.unused q hq
  · by_cases hqp : q = p
    · subst hqp
      simp only [Core.mod, Function.update_self] at hq ⊢
      rw [hf, hnone (hdead (Or.inr hq))]
    · simp only [Core.mod, Function.update_of_ne hqp] at hq ⊢
      exact h.zombie q hq

theorem Usems.setSem (h : c.Usems) {sem : Sem} : (c.setSem sp sem).Usems :=
  ⟨h.count, h.unused, h.zombie⟩

theorem Usems.goto (h : c.Usems) : (c.goto k).Usems := h.mod rfl id

theorem Usems.give (h : c.Usems) : (c.give sp).Usems := by
  unfold Core.give
  split
  · exact h.setSem.mod rfl (by simp)
  · exact h.setSem

/-- An identifier of the current process is set, and the count is right again. -/
theorem Usems.setId (h : c.Usems) {id : Fin MAX_USEM} {v : Option UsemPtr} {ref : UsemPtr → ℤ}
    (hrun : (c.thread c.curr).status = .running)
    (href : ∀ u, ref u = c.usemRef u - (if (c.thread c.curr).usems id = some u then 1 else 0) +
      if v = some u then 1 else 0) :
    Usems { c.mod c.curr (fun t => { t with usems := Function.update t.usems id v }) with
      usemRef := ref } := by
  have htable : usemTable { c.mod c.curr (fun t =>
      { t with usems := Function.update t.usems id v }) with usemRef := ref } =
      Function.update c.usemTable (c.curr, id) v := by
    funext ⟨q, i⟩
    unfold usemTable Core.mod
    by_cases hq : q = c.curr
    · subst hq
      simp only [Function.update_self]
      by_cases hi : i = id
      · rw [hi, Function.update_self, Function.update_self]
      · rw [Function.update_of_ne hi, Function.update_of_ne fun heq => hi (Prod.ext_iff.mp heq).2]
    · simp only [Function.update_of_ne hq]
      rw [Function.update_of_ne fun heq => hq (Prod.ext_iff.mp heq).1]
  refine ⟨fun u => ?_, fun q hq => ?_, fun q hq => ?_⟩
  · have hold : c.usemTable (c.curr, id) = (c.thread c.curr).usems id := rfl
    rw [htable, refs_update, hold, ← h.count u]
    exact href u
  · by_cases hqc : q = c.curr
    · subst hqc
      simp only [Core.mod, Function.update_self, hrun] at hq
      cases hq
    · simp only [Core.mod, Function.update_of_ne hqc] at hq ⊢
      exact h.unused q hq
  · by_cases hqc : q = c.curr
    · subst hqc
      simp only [Core.mod, Function.update_self, hrun] at hq
      cases hq
    · simp only [Core.mod, Function.update_of_ne hqc] at hq ⊢
      exact h.zombie q hq

theorem Usems.fork (h : c.Usems) (hne : p ≠ c.curr) (hunused : (c.thread p).status = .unused) :
    (c.fork p).Usems := by
  have hnone := h.unused p hunused
  have htable : (c.fork p).usemTable =
      fun x => if x.1 = p then (c.thread c.curr).usems x.2 else c.usemTable x := by
    funext ⟨q, id⟩
    unfold usemTable Core.fork
    by_cases hq : q = p
    · subst hq
      simp only [Function.update_self, if_true]
    · by_cases hqc : q = c.curr
      · subst hqc
        simp only [Function.update_of_ne hq, Function.update_self, if_neg hq]
      · simp only [Function.update_of_ne hq, Function.update_of_ne hqc, if_neg hq]
  have hother (q : ProcPtr) (hq : q ≠ p) : ((c.fork p).thread q).status = (c.thread q).status ∧
      ((c.fork p).thread q).usems = (c.thread q).usems := by
    by_cases hqc : q = c.curr
    · subst hqc
      simp only [Core.fork, Function.update_of_ne hq, Function.update_self, and_self]
    · simp only [Core.fork, Function.update_of_ne hq, Function.update_of_ne hqc, and_self]
  have hself : ((c.fork p).thread p).status = .ready := by
    simp only [Core.fork, Function.update_self]
  refine ⟨fun u => ?_, fun q hq => ?_, fun q hq => ?_⟩
  · rw [htable, refs_row]
    have hrow : refs (fun j => c.usemTable (p, j)) u = 0 := by
      unfold usemTable
      simp only [hnone]
      exact refs_none
    rw [hrow, sub_zero, ← h.count u]
    rfl
  · by_cases hqp : q = p
    · rw [hqp, hself] at hq
      cases hq
    · obtain ⟨hs, hu⟩ := hother q hqp
      rw [hs] at hq
      rw [hu]
      exact h.unused q hq
  · by_cases hqp : q = p
    · rw [hqp, hself] at hq
      cases hq
    · obtain ⟨hs, hu⟩ := hother q hqp
      rw [hs] at hq
      rw [hu]
      exact h.zombie q hq

/-- The current process, a zombie already, closes its semaphores. -/
theorem Usems.release (hcount : ∀ u, c.usemRef u = refs c.usemTable u)
    (hunused : ∀ p, (c.thread p).status = .unused → (c.thread p).usems = fun _ => none)
    (hzombie : ∀ p, p ≠ c.curr → (c.thread p).status = .zombie →
      (c.thread p).usems = fun _ => none) : c.release.Usems := by
  have htable : c.release.usemTable =
      fun x => if x.1 = c.curr then none else c.usemTable x := by
    funext ⟨q, id⟩
    unfold usemTable Core.release Core.mod
    by_cases hq : q = c.curr
    · subst hq
      simp only [Function.update_self, if_true]
    · simp only [Function.update_of_ne hq, if_neg hq]
  refine ⟨fun u => ?_, fun q hq => ?_, fun q hq => ?_⟩
  · rw [htable, refs_row c.usemTable c.curr (fun _ => none), refs_none, add_zero, ← hcount u]
    rfl
  · by_cases hqc : q = c.curr
    · subst hqc
      simp only [Core.release, Core.mod, Function.update_self]
    · simp only [Core.release, Core.mod, Function.update_of_ne hqc] at hq ⊢
      exact hunused q hq
  · by_cases hqc : q = c.curr
    · subst hqc
      simp only [Core.release, Core.mod, Function.update_self]
    · simp only [Core.release, Core.mod, Function.update_of_ne hqc] at hq ⊢
      exact hzombie q hqc hq

/-- What a process is after the children of the current one have lost it. -/
theorem orphan_thread (code : ℤ) (q : ProcPtr) : (c.orphan code).thread q =
    { c.thread q with
      status := if q = c.curr then .zombie else (c.thread q).status
      exit_code := if q = c.curr then code else (c.thread q).exit_code
      parent := if (c.thread q).parent = some c.curr then none else (c.thread q).parent } := by
  by_cases hq : q = c.curr
  · subst hq
    simp only [Core.orphan, if_true]
    split
    · simp
    · simp
  · simp only [Core.orphan, if_neg hq]
    split
    · simp
    · simp

/-- **The counts of semaphores are right** after every event. -/
theorem Step.usems (h : c.Usems) (hw : c.Waiting) (hstep : Step c ev c') : c'.Usems := by
  cases hstep with
  | take => exact h.setSem
  | takeZombie => exact h.setSem.goto
  | block hcalls _ _ => exact h.setSem.mod rfl (by simp)
  | give => exact h.give
  | @openUsem id u value hcalls hid hzero =>
    refine h.setSem.setId hcalls.running fun u' => ?_
    have hid' : ((c.setSem (.user u) (sem_init value)).thread c.curr).usems id = none := hid
    have hzero' : (c.setSem (.user u) (sem_init value)).usemRef u = 0 := hzero
    have hcurr : (c.setSem (.user u) (sem_init value)).curr = c.curr := rfl
    simp only [hcurr, hid', reduceCtorEq, if_false, sub_zero, Option.some.injEq]
    by_cases hu : u' = u
    · subst hu
      rw [Function.update_self, if_pos rfl, hzero', zero_add]
    · rw [Function.update_of_ne hu, if_neg (Ne.symm hu), add_zero]
      rfl
  | @closeUsem id u hcalls hid =>
    refine h.setId hcalls.running fun u' => ?_
    rw [hid]
    by_cases hu : u' = u
    · subst hu
      simp
    · simp [Function.update_of_ne hu, Ne.symm hu]
  | @fork p hcalls hp hunused _ =>
    refine h.fork ?_ hunused
    rintro rfl
    rw [hcalls.running] at hunused
    cases hunused
  | @exit code hcalls =>
    have hrun := hcalls.running
    have hworph := hw.orphan hrun code
    -- the current process is a zombie now, but has not closed its semaphores yet
    have horph (q : ProcPtr) : ((c.orphan code).thread q).usems = (c.thread q).usems := by
      rw [orphan_thread]
    have htell (q : ProcPtr) : ((c.orphan code).tell.thread q).usems = (c.thread q).usems ∧
        (((c.orphan code).tell.thread q).status = .unused → (c.thread q).status = .unused) ∧
        (q ≠ c.curr → ((c.orphan code).tell.thread q).status = .zombie →
          (c.thread q).status = .zombie) := by
      by_cases hb : ((c.orphan code).thread q).status = .blocked
      · -- this process may be the parent, and ready now
        have hcases : (c.orphan code).tell.thread q = (c.orphan code).thread q ∨
            (c.orphan code).tell.thread q =
              { (c.orphan code).thread q with status := .ready } := by
          unfold Core.tell
          split
          · unfold Core.give
            split
            · rename_i r _ _
              by_cases hqr : q = r
              · right
                subst hqr
                simp only [Core.mod, Core.setSem, Function.update_self]
              · left
                simp only [Core.mod, Core.setSem, Function.update_of_ne hqr]
            · exact Or.inl rfl
          · exact Or.inl rfl
        rcases hcases with heq | heq
        · rw [heq, hb]
          exact ⟨horph q, by simp, by simp⟩
        · rw [heq]
          exact ⟨horph q, by simp, by simp⟩
      · rw [hworph.tell_thread hb, orphan_thread]
        refine ⟨rfl, fun hq => ?_, fun hne hq => ?_⟩
        · by_cases hqc : q = c.curr
          · simp only [hqc, if_true] at hq
            cases hq
          · simpa only [if_neg hqc] using hq
        · simpa only [if_neg hne] using hq
    have htable : (c.orphan code).tell.usemTable = c.usemTable :=
      funext fun x => congrFun (htell x.1).1 x.2
    have href : (c.orphan code).tell.usemRef = c.usemRef := by
      unfold Core.tell Core.give
      split
      · split <;> rfl
      · rfl
    refine (Usems.release (fun u => ?_) (fun q hq => ?_) fun q hne hq => ?_).goto
    · rw [htable, href]
      exact h.count u
    · rw [(htell q).1]
      exact h.unused q ((htell q).2.1 hq)
    · rw [tell_curr] at hne
      rw [(htell q).1]
      exact h.zombie q ((htell q).2.2 hne hq)
  | @reap p hrun hk hpar hz =>
    refine ((h.mod rfl (by simp [hrun])).mod rfl fun _ => Or.inr ?_).goto
    have hne : p ≠ c.curr := by
      rintro rfl
      rw [hrun] at hz
      cases hz
    simp only [Core.mod, Function.update_of_ne hne]
    exact hz
  | yield => exact (h.mod rfl (by simp)).goto
  | back => exact h.goto
  | @dispatch p _ _ =>
    have hmod := h.mod (p := p) (f := ({ · with status := .running })) rfl (by simp)
    exact ⟨hmod.count, hmod.unused, hmod.zombie⟩

end Core

end Oslab
