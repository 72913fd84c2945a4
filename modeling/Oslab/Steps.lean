/-
# Steps of the kernel and the tables

Between two steps the tables fit together, a process that is in use has a working
directory, and one that is not refers to nothing. A step does not change what other
processes refer to, except that a child gets what its parent has. In the file system
a step makes an object only if it opens a path, and takes an entry away only if it
unlinks one.
-/
import Oslab.ProcCalls
import Oslab.Processes

namespace Oslab

open Lib Lib.Prog

/-! ### Processes that come and go -/

namespace Core

variable {c c' : Core} {ev : CoreEvent} {p q : ProcPtr}

theorem orphan_live (code : ℤ) :
    (c.orphan code).Live q ↔ c.Live q ∧ q ≠ c.curr := by
  rw [Live, orphan_thread]
  by_cases hq : q = c.curr
  · rw [if_pos hq]
    simp only [hq, ne_eq, reduceCtorEq, not_false_eq_true, not_true_eq_false, and_false]
  · rw [if_neg hq]
    simp only [hq, ne_eq, not_false_eq_true, and_true]
    exact Iff.rfl

/-- A process that is changed stays in use or stays out of use. -/
theorem live_update {t : Thread} (h : c'.thread = Function.update c.thread p t)
    (ht : (t.status ≠ .unused ∧ t.status ≠ .zombie) ↔ c.Live p) : c'.Live q ↔ c.Live q := by
  rw [Live, h]
  by_cases hq : q = p
  · rw [hq, Function.update_self]
    exact ht
  · rw [Function.update_of_ne hq]
    exact Iff.rfl

theorem goto_live (k : Kont) : (c.goto k).Live q ↔ c.Live q := live_mod Iff.rfl Iff.rfl q

theorem Step.live (h : c.Sound) (hstep : Step c ev c') (q : ProcPtr) :
    c'.Live q ↔ (c.Live q ∨ ev = .fork q) ∧ ¬ (q = c.curr ∧ ∃ code, ev = .exit code) := by
  have hsame (hlive : c'.Live q ↔ c.Live q) (hfork : ∀ p, ev ≠ .fork p)
      (hexit : ∀ code, ev ≠ .exit code) :
      c'.Live q ↔ (c.Live q ∨ ev = .fork q) ∧ ¬ (q = c.curr ∧ ∃ code, ev = .exit code) := by
    rw [hlive]
    constructor
    · intro hq
      exact ⟨Or.inl hq, fun hx => hx.2.elim hexit⟩
    · intro hq
      exact hq.1.resolve_right (hfork q)
  cases hstep with
  | take => exact hsame Iff.rfl (by simp) (by simp)
  | takeZombie => exact hsame (goto_live _) (by simp) (by simp)
  | block hcalls =>
    refine hsame (live_update rfl ?_) (by simp) (by simp)
    have hrun := hcalls.running
    simp [Live, hrun]
  | give => exact hsame (h.waiting.give_kin.2.2.1 q) (by simp) (by simp)
  | openUsem => exact hsame (live_update rfl Iff.rfl) (by simp) (by simp)
  | closeUsem => exact hsame (live_update rfl Iff.rfl) (by simp) (by simp)
  | @fork p hcalls hp hunused =>
    have hne : c.curr ≠ p := by
      intro heq
      have hrun := hcalls.running
      rw [heq, hunused] at hrun
      cases hrun
    have hlive : (c.fork p).Live q ↔ c.Live q ∨ q = p := by
      unfold Live
      by_cases hqp : q = p
      · simp [Core.fork, hqp]
      · by_cases hqc : q = c.curr
        · simp [Core.fork, hqc, hne]
        · simp [Core.fork, hqp, hqc]
    rw [hlive]
    simp only [CoreEvent.fork.injEq, reduceCtorEq, exists_false, and_false, not_false_eq_true,
      and_true, eq_comm]
  | @exit code hcalls =>
    have hw := h.waiting.orphan hcalls.running code
    have hlive : (c.exit code).Live q ↔ c.Live q ∧ q ≠ c.curr := by
      rw [Core.exit, leave_live, hw.tell_kin.2.2.1, orphan_live]
    rw [hlive]
    simp only [reduceCtorEq, or_false, CoreEvent.exit.injEq, exists_eq', and_true, ne_eq]
  | @reap p _ _ _ hz =>
    -- a zombie is not in use, and an unused process is not either
    refine hsame ((goto_live _).trans ((live_update rfl ?_).trans (live_mod Iff.rfl Iff.rfl q)))
      (by simp) (by simp)
    have hold : ¬ (c.mod c.curr ({ · with
        child_num := (c.thread c.curr).child_num - 1 })).Live p := by
      intro hp
      exact ((live_mod Iff.rfl Iff.rfl p).mp hp).2 hz
    simp [hold]
  | yield hrun =>
    refine hsame ((goto_live _).trans (live_update rfl ?_)) (by simp) (by simp)
    simp [Live, hrun]
  | @dispatch p _ hfind =>
    have hready : (c.thread p).status = .ready := by simpa using List.find?_some hfind
    refine hsame (live_update rfl ?_) (by simp) (by simp)
    simp [Live, hready]
  | back => exact hsame (goto_live _) (by simp) (by simp)

end Core

/-- What a system call does to who is in use. -/
inductive Core.Lives (c c' : Core) : Call → Prop
  | same {call : Call} : (∀ status, call ≠ .exit status) → (∀ q, c'.Live q ↔ c.Live q) →
      Lives c c' call
  | fork {p : ProcPtr} : ¬ c.Live p → (∀ q, c'.Live q ↔ c.Live q ∨ q = p) → Lives c c' .fork
  | exit {status : ℤ} : (∀ q, c'.Live q ↔ c.Live q ∧ q ≠ c.curr) → Lives c c' (.exit status)

theorem Core.Lives.congr {c c₁ c' : Core} {call : Call} (h : c.Lives c₁ call)
    (hlive : ∀ q, c'.Live q ↔ c₁.Live q) : c.Lives c' call := by
  cases h with
  | same hcall hsame => exact .same hcall fun q => (hlive q).trans (hsame q)
  | fork hp hsame => exact .fork hp fun q => (hlive q).trans (hsame q)
  | exit hsame => exact .exit fun q => (hlive q).trans (hsame q)

/-- Whether processes come or go. -/
def CoreEvent.vital : CoreEvent → Bool
  | .fork _ | .exit _ => true
  | _ => false

theorem CoreRun.live {c c' : Core} {evs : List CoreEvent} (h : CoreRun c evs c') (hc : c.Sound)
    (hevs : ∀ ev ∈ evs, ev.vital = false) (q : ProcPtr) : c'.Live q ↔ c.Live q := by
  induction h with
  | refl => exact Iff.rfl
  | @tail _ _ evs ev hfirst hstep ih =>
    have hlast := hevs ev (by simp)
    rw [hstep.live (CoreRun.sound hfirst hc) q, ih fun ev hev => hevs ev (by simp [hev])]
    constructor
    · intro hq
      refine hq.1.resolve_right ?_
      intro heq
      rw [heq] at hlast
      cases hlast
    · intro hq
      refine ⟨Or.inl hq, ?_⟩
      intro hx
      obtain ⟨code, heq⟩ := hx.2
      rw [heq] at hlast
      cases hlast

theorem Core.Answers.lives {c c' : Core} {call : Call} {o : Outcome} {evs : List CoreEvent}
    (h : c.Answers call o evs) (hc : c.Sound) (hrun : CoreRun c evs c') : c.Lives c' call := by
  have hsame (hcall : ∀ status, call ≠ .exit status) (hevs : ∀ ev ∈ evs, ev.vital = false) :
      c.Lives c' call := .same hcall (hrun.live hc hevs)
  have htakes (n : ℕ) : ∀ ev ∈ takes n, ev.vital = false := by
    intro ev hev
    rw [List.eq_of_mem_replicate hev]
    rfl
  cases h with
  | quiet hquiet =>
    refine hsame ?_ (by simp)
    intro status heq
    rw [heq] at hquiet
    cases hquiet
  | read => exact hsame (by simp) (htakes _)
  | readBlock =>
    refine hsame (by simp) ?_
    intro ev hev
    rcases List.mem_append.mp hev with hev | hev
    · exact htakes _ ev hev
    · rw [List.mem_singleton.mp hev]
      rfl
  | fork =>
    have hstep := hrun.of_single
    have hlive := hstep.live hc
    cases hstep with
    | @fork p _ _ hunused =>
      refine .fork (fun hp => hp.1 hunused) fun q => ?_
      rw [hlive q]
      simp only [CoreEvent.fork.injEq, reduceCtorEq, exists_false, and_false, not_false_eq_true,
        and_true, eq_comm]
  | exit =>
    refine .exit fun q => ?_
    rw [hrun.of_single.live hc q]
    simp only [reduceCtorEq, or_false, CoreEvent.exit.injEq, exists_eq', and_true, ne_eq]
  | semNone _ hcall =>
    refine hsame ?_ (by simp)
    intro status heq
    rw [heq] at hcall
    simp at hcall
  | sleep | yield | forkNone | waitNone | waitBlock | waitReap | waitYield | openNone | «open» |
    close | semTake | semBlock | semGive => exact hsame (by simp) (by simp [CoreEvent.vital])

theorem Core.Resumes.vital {c : Core} {k : Kont} {o : Outcome} {evs : List CoreEvent}
    (h : c.Resumes k o evs) : ∀ ev ∈ evs, ev.vital = false := by
  intro ev hev
  cases h with
  | ret | reap | again | wake | sleep =>
    rw [List.mem_singleton.mp hev]
    rfl
  | read | readBlock =>
    rcases List.mem_append.mp hev with hev | hev
    · rw [List.eq_of_mem_replicate hev]
      rfl
    · rw [List.mem_singleton.mp hev]
      rfl

/-! ### System calls and the tables -/

/-- Nothing is made, and no entry is taken away. -/
def FsEvent.plain : FsEvent → Bool
  | .created .. | .unlinked .. => false
  | _ => true

/-- What `fopen` does to the object it has opened: nothing, or it closes or truncates it. -/
def Ending (j : InodePtr) (no : ℕ) (evs : List FsEvent) : Prop :=
  evs = [] ∨ evs = [.closed j no] ∨ evs = [.wrote no]

theorem Ending.plain {j : InodePtr} {no : ℕ} {evs : List FsEvent} (h : Ending j no evs) :
    ∀ ev ∈ evs, ev.plain = true := by
  rcases h with rfl | rfl | rfl <;> simp [FsEvent.plain]

/-- What a system call does to the file system. -/
inductive Kernel.Does (s : Kernel) : Call → List FsEvent → Prop
  | plain {call : Call} {evs : List FsEvent} : (∀ ev ∈ evs, ev.plain = true) → s.Does call evs
  | create {path : CString} {mode : ℕ} {c j : InodePtr} {d no : ℕ} {name : List UInt8}
      {evs : List FsEvent} : (s.pcb s.curr).cwd = some c → (∃ fd, (s.pcb s.curr).files fd = none) →
      (∃ k, (s.files k).ref = 0) → openType mode ≠ TYPE_NONE →
      resolve (objs s.fs.disk.bytes) (s.fs.inodes c).no path.1 = none →
      resolveParent (objs s.fs.disk.bytes) (s.fs.inodes c).no path.1 = some (d, name) →
      Ending j no evs → s.Does (.open path mode) (.created d name (openType mode) j no :: evs)
  | unlink {path : CString} {c j k : InodePtr} {d e t : ℕ} {name : List UInt8} :
      (s.pcb s.curr).cwd = some c →
      resolveParent (objs s.fs.disk.bytes) (s.fs.inodes c).no path.1 = some (d, name) →
      (obj s.fs.disk.bytes d).find name = some e →
      s.fs.state.ns.Named d e t → (s.fs.state.ns.Dir t → s.fs.state.ns.Empty t) →
      s.Does (.unlink path)
        [.opened j d, .opened k t, .grow, .unlinked d e t k, .closed j d, .closed k t]

/-- The calls that neither make a process nor end one. -/
def Call.steady : Call → Bool
  | .fork | .exit _ => false
  | _ => true

/-- What is on the stack does not matter. -/
theorem Kernel.Does.junk {s : Kernel} {call : Call} {evs : List FsEvent} {junk : Mem}
    (h : { s with fs := { s.fs with junk := junk } }.Does call evs) : s.Does call evs := by
  cases h with
  | plain hevs => exact .plain hevs
  | create hc hfd hk htype hres hparent hevs => exact .create hc hfd hk htype hres hparent hevs
  | unlink hc hparent hfind hnamed hempty => exact .unlink hc hparent hfind hnamed hempty

theorem Fs.Ok.junk {fs : Fs} (h : fs.Ok) (junk : Mem) : { fs with junk := junk }.Ok :=
  ⟨⟨⟨h.holds.1.coherent, rfl, h.holds.1.sb, rfl⟩, h.holds.2⟩, h.inv⟩

/-- What processes refer to after a system call. -/
inductive Kernel.Shares (s : Kernel) : Call → Kernel → Prop
  | own {call : Call} {s' : Kernel} {c : InodePtr} : call.steady = true →
      (∀ q ≠ s.curr, (s'.pcb q).held = (s.pcb q).held) → (s'.pcb s.curr).cwd = some c →
      s.Shares call s'
  | full : s.Shares .fork s
  | fork {s' : Kernel} {p : ProcPtr} : p ≠ s.curr → (s.pcb p).status = .unused →
      (∀ q ≠ p, (s'.pcb q).held = (s.pcb q).held) → (s'.pcb p).held = (s.pcb s.curr).held →
      (s'.pcb p).status = .ready → s.Shares .fork s'
  | exit {s' : Kernel} {status : ℤ} : (∀ q ≠ s.curr, (s'.pcb q).held = (s.pcb q).held) →
      (s'.pcb s.curr).held = .nothing → s.Shares (.exit status) s'

/-- What a system call does to the tables. -/
structure Kernel.Calls (s : Kernel) (call : Call) (s' : Kernel) : Prop where
  tables : s'.Tables
  shares : s.Shares call s'
  effects : ∃ evs, Effects s.fs.state evs s'.fs.state ∧ s.Does call evs


namespace Kernel.Calls

variable {s s' : Kernel} {call : Call} {c : InodePtr} {path : CString} {mode : ℕ}

/-- The process table stays as it is. -/
theorem of_pcb {evs : List FsEvent} (htables : s'.Tables) (hcall : call.steady = true)
    (hc : (s.pcb s.curr).cwd = some c) (hpcb : s'.pcb = s.pcb)
    (heff : Effects s.fs.state evs s'.fs.state) (hdoes : s.Does call evs) : s.Calls call s' := by
  refine ⟨htables, .own hcall (fun q _ => ?_) (c := c) ?_, evs, heff, hdoes⟩
  · rw [hpcb]
  · rw [hpcb]
    exact hc

/-- No link changes. -/
theorem of_links (h : s.Tables) (hcall : call.steady = true)
    (hc : (s.pcb s.curr).cwd = some c) (hlinks : s'.links = s.links) : s.Calls call s' := by
  have hheld (q : ProcPtr) : (s'.pcb q).held = (s.pcb q).held :=
    congrFun (congrArg Links.held hlinks) q
  have hfs : s'.fs = s.fs := congrArg Links.fs hlinks
  refine ⟨h.congr hlinks, .own hcall (fun q _ => hheld q) (c := c) ?_, [], ?_, .plain (by simp)⟩
  · exact (congrArg Held.cwd (hheld s.curr)).trans hc
  · rw [hfs]
    exact Lts.Run.refl _

/-- The semaphores of the process change. -/
theorem of_usems (htables : s'.Tables) (hcall : call.steady = true)
    (hc : (s.pcb s.curr).cwd = some c) (hfs : s'.fs = s.fs) (honly : Only s s.curr s')
    (hcwd : (s'.pcb s.curr).cwd = (s.pcb s.curr).cwd) : s.Calls call s' := by
  refine ⟨htables, .own hcall honly.held (hcwd.trans hc), [], ?_, .plain (by simp)⟩
  rw [hfs]
  exact Lts.Run.refl _

theorem read {o : Outcome} {fd : ℤ} {size : ℕ} (h : s.Tables) (hc : (s.pcb s.curr).cwd = some c)
    (htables : s'.Tables) (hread : SysRead s fd size o s') : s.Calls (.read fd size) s' := by
  cases hread with
  | closed => exact of_links h rfl hc rfl
  | barred => exact of_links h rfl hc rfl
  | file _ _ _ _ heff =>
    exact of_pcb htables rfl hc rfl heff (.plain (by simp [FsEvent.plain]))
  | device _ _ _ hlinks => exact of_links h rfl hc hlinks

theorem write {o : Outcome} {fd : ℤ} {buf : List UInt8} (h : s.Tables)
    (hc : (s.pcb s.curr).cwd = some c) (htables : s'.Tables) (hwrite : SysWrite s fd buf o s') :
    s.Calls (.write fd buf) s' := by
  cases hwrite with
  | closed => exact of_links h rfl hc rfl
  | barred => exact of_links h rfl hc rfl
  | beyond _ _ _ _ _ hsame =>
    have hdoes : s.Does (.write fd buf) [] := .plain (by simp)
    refine of_pcb htables rfl hc rfl ?_ hdoes
    rw [hsame]
    exact Lts.Run.refl _
  | file _ _ _ _ _ heff =>
    exact of_pcb htables rfl hc rfl heff (.plain (by simp [FsEvent.plain]))
  | device => exact of_links h rfl hc rfl

theorem lseek {o : Outcome} {fd : ℤ} {off : UInt32} {whence : ℕ} (h : s.Tables)
    (hc : (s.pcb s.curr).cwd = some c) (htables : s'.Tables) (hseek : SysSeek s fd off whence o s') :
    s.Calls (.lseek fd off whence) s' := by
  cases hseek with
  | closed => exact of_links h rfl hc rfl
  | file =>
    have hdoes : s.Does (.lseek fd off whence) [] := .plain (by simp)
    exact of_pcb htables rfl hc rfl (Lts.Run.refl _) hdoes
  | device => exact of_links h rfl hc rfl

theorem chdir {o : Outcome} {evs : List FsEvent} (hc : (s.pcb s.curr).cwd = some c)
    (htables : s'.Tables)
    (heff : Effects s.fs.state evs s'.fs.state) (hchdir : SysChdir s c path.1 o evs s') :
    s.Calls (.chdir path) s' := by
  cases hchdir with
  | absent => exact of_pcb htables rfl hc rfl heff (.plain (by simp [FsEvent.plain]))
  | noDir => exact of_pcb htables rfl hc rfl heff (.plain (by simp [FsEvent.plain]))
  | @dir _ j no =>
    refine ⟨htables, .own rfl (fun q hq => ?_) (c := j) ?_, _, heff,
      .plain (by simp [FsEvent.plain])⟩
    · simp only [Function.update_of_ne hq]
    · simp only [Function.update_self]

theorem unlink {r : ℤ} {evs : List FsEvent} {fs : Fs} (hc : (s.pcb s.curr).cwd = some c)
    (htables : { s with fs := fs }.Tables) (heff : Effects s.fs.state evs fs.state)
    (hrem : Removing s.fs fs (s.fs.inodes c).no path.1 r evs) :
    s.Calls (.unlink path) { s with fs := fs } := by
  refine of_pcb htables rfl hc rfl heff ?_
  cases hrem with
  | failed => exact .plain (by simp [FsEvent.plain])
  | removed hu => exact .unlink hc hu.resolve hu.find hu.named hu.empty

/-- What `fopen` does first it does to the path; then it only truncates or closes. -/
theorem does_open {j : InodePtr} {no : ℕ} {evs rest : List FsEvent}
    (hc : (s.pcb s.curr).cwd = some c) (hfd : ∃ fd, (s.pcb s.curr).files fd = none)
    (hk : ∃ k, (s.files k).ref = 0)
    (h : Opening s.fs (s.fs.inodes c).no path.1 (openType mode) (some (j, no)) evs)
    (hrest : Ending j no rest) : s.Does (.open path mode) (evs ++ rest) := by
  cases h with
  | found =>
    refine .plain ?_
    intro ev hev
    rcases List.mem_append.mp hev with hev | hev
    · rw [List.mem_singleton.mp hev]
      rfl
    · exact hrest.plain ev hev
  | created htype hres hparent => exact .create hc hfd hk htype hres hparent hrest

theorem does_fopen {r : Option FilePtr} {evs : List FsEvent} {s₁ : Kernel}
    (hc : (s.pcb s.curr).cwd = some c) (hfd : ∃ fd, (s.pcb s.curr).files fd = none)
    (h : Fopened s (s.fs.inodes c).no path.1 mode r evs s₁) : s.Does (.open path mode) evs := by
  cases h with
  | full => exact .plain (by simp)
  | absent _ hopen =>
    cases hopen with
    | absent => exact .plain (by simp [FsEvent.plain])
  | refused hk hopen => exact does_open hc hfd ⟨_, hk⟩ hopen (Or.inr (Or.inl rfl))
  | file hk hopen =>
    refine does_open hc hfd ⟨_, hk⟩ hopen ?_
    split
    · exact Or.inr (Or.inr rfl)
    · exact Or.inl rfl
  | device hk hopen => exact does_open hc hfd ⟨_, hk⟩ hopen (Or.inr (Or.inl rfl))

theorem Fopened.pcb_eq {r : Option FilePtr} {evs : List FsEvent} {s₁ : Kernel} {cwd : ℕ}
    (h : Fopened s cwd path.1 mode r evs s₁) : s₁.pcb = s.pcb ∧ s₁.curr = s.curr := by
  cases h with
  | full | absent | refused | file | device => exact ⟨rfl, rfl⟩

theorem «open» {o : Outcome} {evs : List FsEvent} (h : s.Tables)
    (hc : (s.pcb s.curr).cwd = some c) (htables : s'.Tables)
    (heff : Effects s.fs.state evs s'.fs.state)
    (hopen : (o = .done (.int (-1)) ∧ ((∀ fd, (s.pcb s.curr).files fd ≠ none) ∧ s' = s ∧ evs = [] ∨
          (∃ fd, (s.pcb s.curr).files fd = none) ∧
            Fopened s (s.fs.inodes c).no path.1 mode none evs s')) ∨
        ∃ fd k s₁, (s.pcb s.curr).files fd = none ∧ o = .done (.int fd.val) ∧
          Fopened s (s.fs.inodes c).no path.1 mode (some k) evs s₁ ∧
          s' = { s₁ with pcb := Function.update s₁.pcb s₁.curr { s₁.pcb s₁.curr with
            files := Function.update (s₁.pcb s₁.curr).files fd (some k) } }) :
    s.Calls (.open path mode) s' := by
  rcases hopen with ⟨-, ⟨-, rfl, rfl⟩ | ⟨hfd, hf⟩⟩ | ⟨fd, k, s₁, hfd, -, hf, rfl⟩
  · exact of_links h rfl hc rfl
  · exact of_pcb htables rfl hc (Fopened.pcb_eq hf).1 heff (does_fopen hc hfd hf)
  · obtain ⟨hpcb, hcurr⟩ := Fopened.pcb_eq hf
    refine ⟨htables, .own rfl (fun q hq => ?_) (c := c) ?_, _, heff, does_fopen hc ⟨fd, hfd⟩ hf⟩
    · simp only [hcurr, Function.update_of_ne hq, hpcb]
    · simp only [hcurr, Function.update_self, hpcb]
      exact hc

theorem close {fs : Fs} {fd : ℤ} {i : Fin MAX_UFILE} {k : FilePtr}
    (hc : (s.pcb s.curr).cwd = some c) (htables : (s.dropFd fs s.curr i k).Tables)
    (heff : Effects s.fs.state (closings (s.files k) s.fs) fs.state) :
    s.Calls (.close fd) (s.dropFd fs s.curr i k) := by
  refine ⟨htables, .own rfl (fun q hq => ?_) (c := c) ?_, _, heff, .plain ?_⟩
  · simp only [Kernel.dropFd, Function.update_of_ne hq]
  · simp only [Kernel.dropFd, Function.update_self]
    exact hc
  · intro ev hev
    obtain ⟨j, no, rfl⟩ := closings_closes _ _ ev hev
    rfl

theorem dup {files : FilePtr → File} {pr : Proc} {fd : ℤ} (hc : (s.pcb s.curr).cwd = some c)
    (hpr : pr.cwd = (s.pcb s.curr).cwd)
    (htables : { s with files := files, pcb := Function.update s.pcb s.curr pr }.Tables) :
    s.Calls (.dup fd) { s with files := files, pcb := Function.update s.pcb s.curr pr } := by
  refine ⟨htables, .own rfl (fun q hq => ?_) (c := c) ?_, [], Lts.Run.refl _, .plain (by simp)⟩
  · simp only [Function.update_of_ne hq]
  · simp only [Function.update_self]
    exact hpr.trans hc

theorem exec {fs : Fs} {evs : List FsEvent} (hc : (s.pcb s.curr).cwd = some c)
    (htables : { s with fs := fs }.Tables) (heff : Effects s.fs.state evs fs.state)
    (hload : Loading evs) : s.Calls (.exec path) { s with fs := fs } := by
  refine of_pcb htables rfl hc rfl heff (.plain ?_)
  rcases hload with rfl | ⟨j, no, n, rfl⟩
  · simp [FsEvent.plain]
  · intro ev hev
    rw [List.cons_append, List.mem_cons, List.mem_append] at hev
    rcases hev with rfl | hev | hev
    · rfl
    · rw [List.eq_of_mem_replicate hev]
      rfl
    · rw [List.mem_singleton.mp hev]
      rfl

theorem fork {o : Outcome} (h : s.Tables) (htables : s'.Tables)
    (hfork : SysFork s c o s') : s.Calls .fork s' := by
  rcases hfork with ⟨-, rfl⟩ | ⟨p, hne, hunused, honly, hheld, hready, heff⟩
  · exact ⟨h, .full, [], Lts.Run.refl _, .plain (by simp)⟩
  · exact ⟨htables, .fork hne hunused honly.held hheld hready, _, heff,
      .plain (by simp [FsEvent.plain])⟩

theorem exit {status : ℤ} {evs : List FsEvent} (htables : s'.Tables) (honly : Only s s.curr s')
    (hheld : (s'.pcb s.curr).held = .nothing) (heff : Effects s.fs.state evs s'.fs.state)
    (hevs : Closes evs) : s.Calls (.exit status) s' := by
  refine ⟨htables, .exit honly.held hheld, evs, heff, .plain ?_⟩
  intro ev hev
  obtain ⟨j, no, rfl⟩ := hevs ev hev
  rfl

end Kernel.Calls

/-- **System calls keep the tables.** -/
theorem do_syscall_calls {s : Kernel} {c : InodePtr} (h : s.Tables) (hidle : s.Idle)
    (hrun : (s.pcb s.curr).status = .running) (hc : (s.pcb s.curr).cwd = some c) (call : Call) :
    wp (do_syscall call) (fun _ s' => s.Calls call s') (fun _ => True) s := by
  -- most calls move no reference
  have hkeeps {m : KernelM Outcome} (hm : Keeps Kernel.links m) (hcall : call.steady = true) :
      wp m (fun _ s' => s.Calls call s') (fun _ => True) s :=
    (hm.wp s).imp fun _ _ hlinks => .of_links h hcall hc hlinks
  cases call with
  | write fd buf =>
    exact (sys_write_tables h fd buf).imp fun _ _ hs => .write h hc hs.1 hs.2
  | read fd count =>
    exact (sys_read_tables h fd count).imp fun _ _ hs => .read h hc hs.1 hs.2
  | sleep ticks => exact hkeeps (Keeps.read.bind fun _ => linked_sleepLoop _ _) rfl
  | exec path =>
    rw [do_syscall, sys_exec, wp_bind]
    refine (sys_exec_tables h hc path.2).imp ?_
    intro loaded s' hs'
    obtain ⟨htables, fs, evs, rfl, heff, hload⟩ := hs'
    have hcalls : s.Calls (.exec path) { s with fs := fs } :=
      .exec hc htables heff hload
    split
    · exact hcalls
    · exact hcalls
  | getpid => exact hkeeps linked_sys_getpid rfl
  | yield => exact hkeeps (linked_proc_yield _) rfl
  | fork =>
    exact (sys_fork_tables h hidle hrun hc).mono (fun _ _ hs => .fork h hs.1 hs.2)
      fun _ _ => trivial
  | exit status =>
    refine (sys_exit_tables h hc status).imp ?_
    intro _ s' hs'
    obtain ⟨htables, honly, hheld, evs, heff, hevs⟩ := hs'
    exact .exit htables honly hheld heff hevs
  | wait => exact hkeeps linked_sys_wait rfl
  | sem_open value =>
    exact (sys_sem_open_tables h value).imp fun _ _ hs =>
      .of_usems hs.1 rfl hc hs.2.1 hs.2.2.1 hs.2.2.2.1
  | sem_p sem_id => exact hkeeps (linked_sys_sem_p _) rfl
  | sem_v sem_id => exact hkeeps (linked_sys_sem_v _) rfl
  | sem_close sem_id =>
    exact (sys_sem_close_tables h sem_id).imp fun _ _ hs =>
      .of_usems hs.1 rfl hc hs.2.1 hs.2.2.1 hs.2.2.2.1
  | «open» path mode =>
    refine (sys_open_spec h hc path.2).mono ?_ fun _ _ => trivial
    intro o s' hs'
    obtain ⟨htables, evs, heff, hopen⟩ := hs'
    exact .open h hc htables heff hopen
  | close fd =>
    refine (sys_close_spec h fd).imp ?_
    intro o s' hs'
    rcases hs' with ⟨-, -, rfl⟩ | ⟨i, k, fs, -, -, heff, rfl, htables⟩
    · exact .of_links h rfl hc rfl
    · exact .close hc htables heff
  | dup fd =>
    refine (sys_dup_spec h fd).imp ?_
    intro o s' hs'
    rcases hs' with ⟨-, -, rfl⟩ | ⟨i, k, new, -, -, -, rfl, htables⟩
    · exact .of_links h rfl hc rfl
    · exact .dup hc rfl htables
  | lseek fd off whence =>
    exact (sys_lseek_tables h fd off whence).imp fun _ _ hs => .lseek h hc hs.1 hs.2
  | fstat fd =>
    refine (sys_fstat_tables h fd).imp ?_
    intro _ s' hs'
    obtain ⟨-, rfl⟩ := hs'
    exact .of_links h rfl hc rfl
  | chdir path =>
    refine (sys_chdir_tables h hc path.2).mono ?_ fun _ _ => trivial
    intro o s' hs'
    obtain ⟨htables, evs, heff, hchdir⟩ := hs'
    exact .chdir hc htables heff hchdir
  | unlink path =>
    refine (sys_unlink_tables h hc path.2).mono ?_ fun _ _ => trivial
    intro o s' hs'
    obtain ⟨htables, fs, r, evs, rfl, -, heff, hrem⟩ := hs'
    exact .unlink hc htables heff hrem

/-! ### Between two steps -/

/-- The tables fit together, and the processes in use, and only they, have something. -/
structure Kernel.InOrder (s : Kernel) : Prop where
  tables : s.Tables
  cwd : ∀ p, s.core.Live p → ∃ c, (s.pcb p).cwd = some c
  idle : ∀ p, ¬ s.core.Live p → (s.pcb p).held = .nothing

section InOrder

variable {s s' : Kernel} {call : Call} {p : ProcPtr}

theorem Kernel.InOrder.not_used (h : s.InOrder) : s.Idle := by
  intro p hp
  refine h.idle p fun hlive => ?_
  rcases hp with hp | hp
  · exact hlive.1 hp
  · exact hlive.2 hp

/-- Processes in use are the same ones, and refer to what they did. -/
theorem Kernel.InOrder.congr (h : s.InOrder) (hlinks : s'.links = s.links)
    (hlive : ∀ q, s'.core.Live q ↔ s.core.Live q) : s'.InOrder := by
  have hheld (q : ProcPtr) : (s'.pcb q).held = (s.pcb q).held :=
    congrFun (congrArg Links.held hlinks) q
  refine ⟨h.tables.congr hlinks, fun q hq => ?_, fun q hq => ?_⟩
  · obtain ⟨c, hc⟩ := h.cwd q ((hlive q).mp hq)
    exact ⟨c, (congrArg Held.cwd (hheld q)).trans hc⟩
  · rw [hheld]
    exact h.idle q fun hq' => hq ((hlive q).mpr hq')

theorem Kernel.Calls.inOrder (h : s.InOrder) (hrun : (s.pcb s.curr).status = .running)
    (hcalls : s.Calls call s') (hlives : s.core.Lives s'.core call) : s'.InOrder := by
  have hcurr : s.core.Live s.curr := by
    have hstatus : (s.core.thread s.curr).status = .running := hrun
    simp [Core.Live, hstatus]
  -- who is in use and has not changed has a directory, who is not has nothing
  have hold {q : ProcPtr} (hheld : (s'.pcb q).held = (s.pcb q).held) :
      (s.core.Live q → ∃ c, (s'.pcb q).cwd = some c) ∧
        (¬ s.core.Live q → (s'.pcb q).held = .nothing) := by
    constructor
    · intro hq
      obtain ⟨c, hc⟩ := h.cwd q hq
      exact ⟨c, (congrArg Held.cwd hheld).trans hc⟩
    · intro hq
      rw [hheld]
      exact h.idle q hq
  obtain ⟨htables, hshares, -⟩ := hcalls
  cases hshares with
  | @own _ _ c hsteady hheld hcwd =>
    cases hlives with
    | same _ hlive =>
      refine ⟨htables, fun q hq => ?_, fun q hq => ?_⟩
      · by_cases hqc : q = s.curr
        · exact ⟨c, hqc ▸ hcwd⟩
        · exact (hold (hheld q hqc)).1 ((hlive q).mp hq)
      · rw [hlive q] at hq
        exact (hold (hheld q fun hqc => hq (hqc ▸ hcurr))).2 hq
    | fork | exit => cases hsteady
  | full => exact h
  | @fork _ p hne hunused hheld hchild hready =>
    have hp : ¬ s.core.Live p := fun hp => hp.1 hunused
    have hp' : s'.core.Live p := by
      have hstatus : (s'.core.thread p).status = .ready := hready
      simp [Core.Live, hstatus]
    cases hlives with
    | same _ hlive => exact (hp ((hlive p).mp hp')).elim
    | @fork q hq hlive =>
      have hpq : p = q := ((hlive p).mp hp').resolve_left hp
      subst hpq
      refine ⟨htables, fun q hq => ?_, fun q hq => ?_⟩
      · by_cases hqp : q = p
        · rw [hqp]
          obtain ⟨c, hc⟩ := h.cwd s.curr hcurr
          exact ⟨c, (congrArg Held.cwd hchild).trans hc⟩
        · exact (hold (hheld q hqp)).1 (((hlive q).mp hq).resolve_right hqp)
      · rw [hlive q, not_or] at hq
        exact (hold (hheld q hq.2)).2 hq.1
  | exit hheld hnothing =>
    cases hlives with
    | same hcall => exact (hcall _ rfl).elim
    | exit hlive =>
      refine ⟨htables, fun q hq => ?_, fun q hq => ?_⟩
      · obtain ⟨hq, hqc⟩ := (hlive q).mp hq
        exact (hold (hheld q hqc)).1 hq
      · by_cases hqc : q = s.curr
        · rw [hqc]
          exact hnothing
        · exact (hold (hheld q hqc)).2 fun hq' => hq ((hlive q).mpr ⟨hq', hqc⟩)

/-! ### One step -/

/-- Who is in use. -/
def Kernel.lives (s : Kernel) : ProcPtr → Prop := s.core.Live

theorem lives_modKont (p : ProcPtr) (k : Kont) :
    Keeps Kernel.lives (modProc p fun pr => { pr with kont := k }) := by
  apply Keeps.update
  intro s
  funext q
  refine propext (Core.live_update (p := p) (t := { s.core.thread p with kont := k }) ?_ Iff.rfl)
  funext r
  simp only [Kernel.core]
  by_cases hr : r = p
  · rw [hr, Function.update_self, Function.update_self]
    rfl
  · rw [Function.update_of_ne hr, Function.update_of_ne hr]

theorem lives_schedule : Keeps Kernel.lives schedule := by
  apply Keeps.of_wp
  intro s
  rw [schedule, wp_bind, wp_read, id]
  cases hfind : (nextProcs s.curr).find? fun p => (s.pcb p).status = .ready with
  | none => exact trivial
  | some p =>
    have hready : (s.pcb p).status = .ready := by simpa using List.find?_some hfind
    have hready' : (s.core.thread p).status = .ready := hready
    simp only
    rw [wp_bind, modProc, wp_update, wp_update]
    funext q
    refine propext (Core.live_update (p := p) (t := { s.core.thread p with status := .running }) ?_ ?_)
    · funext r
      simp only [Kernel.core]
      by_cases hr : r = p
      · rw [hr, Function.update_self, Function.update_self]
        rfl
      · rw [Function.update_of_ne hr, Function.update_of_ne hr]
    · simp [Core.Live, hready']

theorem lives_finish (o : Outcome) : Keeps Kernel.lives (finish o) := by
  cases o with
  | done r => exact Keeps.read.bind fun _ => (lives_modKont _ _).bind fun _ => Keeps.pure _
  | wait k =>
    refine Keeps.bind (Keeps.read.bind fun _ => ?_) fun _ => Keeps.pure _
    exact (lives_modKont _ _).bind fun _ => lives_schedule

/-- What a step does to the file system. -/
def Kernel.Makes (s : Kernel) : Event → List FsEvent → Prop
  | .call call _, evs => s.Does call evs
  | _, evs => evs = []

/-- A step that changes no link and nobody's use. -/
theorem Kernel.InOrder.still {e : Event} (h : s.InOrder) (hlinks : s'.links = s.links)
    (hlive : ∀ q, s'.core.Live q ↔ s.core.Live q) (he : s.Makes e []) :
    s'.InOrder ∧ ∃ evs, Effects s.fs.state evs s'.fs.state ∧ s.Makes e evs := by
  refine ⟨h.congr hlinks hlive, [], ?_, he⟩
  rw [show s'.fs = s.fs from congrArg Links.fs hlinks]
  exact Lts.Run.refl _

/-- What is on the stack is no part of the tables. -/
theorem Kernel.InOrder.junk (h : s.InOrder) (junk : Mem) :
    { s with fs := { s.fs with junk := junk } }.InOrder := by
  refine ⟨?_, h.cwd, h.idle⟩
  exact h.tables.onlyFs (h.tables.fs.junk junk) (Kernel.Tables.Effects.idle s.fs)
    Kernel.Tables.Tidy.nil fun _ => rfl

theorem enter_inOrder {e : Event} (hs : s.Sound) (h : s.InOrder) (he : s.Enabled e) :
    wp (enter e) (fun _ s' => s'.InOrder ∧
      ∃ evs, Effects s.fs.state evs s'.fs.state ∧ s.Makes e evs) (fun _ => True) s := by
  have hrun : (s.pcb s.curr).status = .running := hs.runs
  have hlive : s.core.Live s.curr := by
    have hstatus : (s.core.thread s.curr).status = .running := hrun
    simp [Core.Live, hstatus]
  obtain ⟨c, hc⟩ := h.cwd s.curr hlive
  have hzero (hk : (s.pcb s.curr).kont ≠ .user) : s.core.curr ≠ 0 := by
    intro heq
    have hcurr : s.curr = 0 := heq
    rw [hcurr] at hk
    exact hk hs.core.turns.zeroUser
  -- only a call can move references; the other events change statuses
  cases e with
  | call call junk =>
    obtain ⟨huser, hne⟩ := he
    have hkont : (s.core.thread s.core.curr).kont = .user := huser
    rw [enter, wp_bind, wp_update, wp_bind]
    obtain ⟨s₀, hs₀⟩ : ∃ s₀ : Kernel, s₀ = { s with fs := { s.fs with junk := junk } } := ⟨_, rfl⟩
    have hstate : s₀.fs.state = s.fs.state := by rw [hs₀]; rfl
    have hcore₀ : s₀.core = s.core := by rw [hs₀]; rfl
    have hpcb₀ : s₀.pcb = s.pcb := by rw [hs₀]
    have hcurr₀ : s₀.curr = s.curr := by rw [hs₀]
    have h₀ : s₀.InOrder := hs₀ ▸ h.junk junk
    have hrun₀ : (s₀.pcb s₀.curr).status = .running := by
      rw [hpcb₀, hcurr₀]
      exact hrun
    have hc₀ : (s₀.pcb s₀.curr).cwd = some c := by
      rw [hpcb₀, hcurr₀]
      exact hc
    have hcalls₀ : s₀.core.Calls := by
      rw [hcore₀]
      exact ⟨hs.runs, hkont ▸ by simp, hne⟩
    have hkont₀ : (s₀.core.thread s₀.core.curr).kont = .user := by
      rw [hcore₀]
      exact hkont
    rw [← hs₀]
    refine ((do_syscall_calls h₀.tables h₀.not_used hrun₀ hc₀ call).and
      (do_syscall_spec hcalls₀ hkont₀ call)).mono ?_ fun _ _ => trivial
    intro o s' hs'
    obtain ⟨hcalls, cevs, hans, hcore⟩ := hs'
    have hlives := (hans.lives (hcore₀ ▸ hs.core) hcore).congr fun q =>
      (Core.goto_live (q := q) o.kont).symm
    rw [wp_pure]
    refine ⟨hcalls.inOrder h₀ hrun₀ hlives, ?_⟩
    obtain ⟨evs, heff, hdoes⟩ := hcalls.effects
    refine ⟨evs, hstate ▸ heff, ?_⟩
    rw [hs₀] at hdoes
    exact hdoes.junk
  | resume =>
    rw [enter, wp_bind, proc_curr, wp_read, wp_bind, wp_getProc, wp_bind]
    refine (((linked_goOn _).wp s).and (goOn_spec hs.runs (hzero he))).mono ?_ fun _ _ => trivial
    intro o s' hs'
    obtain ⟨hlinks, evs, hres, hcore⟩ := hs'
    rw [wp_pure]
    refine h.still hlinks (fun q => ?_) rfl
    rw [← Core.goto_live o.kont]
    exact hcore.live hs.core hres.vital q
  | timer =>
    rw [enter, wp_bind, wp_update, wp_bind]
    refine (((linked_proc_yield .user).wp _).and (proc_yield_spec (F := fun _ => True) .user)).mono ?_
      fun _ _ => trivial
    intro o s' hs'
    obtain ⟨hlinks, -, hcore⟩ := hs'
    rw [wp_pure]
    refine h.still hlinks (fun q => ?_) rfl
    have hready : (Status.ready ≠ .unused ∧ Status.ready ≠ .zombie) ↔ s.core.Live s.core.curr :=
      ⟨fun _ => hlive, fun _ => by simp⟩
    rw [← Core.goto_live .user, hcore, Core.goto_live]
    exact Core.live_update (c := s.core) rfl hready
  | serial bs =>
    rw [enter, wp_bind]
    have hspec : wp (serial_handle bs) (fun _ s' => Given s.core s'.core) (fun _ => True) s :=
      serial_handle_spec bs
    refine (((linked_serial_handle bs).wp s).and hspec).mono ?_ fun _ _ => trivial
    intro _ s' hs'
    obtain ⟨hlinks, n, hcore⟩ := hs'
    rw [wp_pure]
    refine h.still hlinks (fun q => hcore.live hs.core ?_ q) rfl
    intro ev hev
    rw [List.eq_of_mem_replicate hev]
    rfl

/-- **A step keeps the tables in order.** -/
theorem Kernel.step.inOrder {l : Label} (hs : s.Sound) (h : s.InOrder) (hstep : s.step l s') :
    s'.InOrder ∧ ∃ evs, Effects s.fs.state evs s'.fs.state ∧ s.Makes l.event evs := by
  obtain ⟨-, henabled, hok⟩ := hstep
  have hspec : wp (handle l.event)
      (fun _ s' => s'.InOrder ∧ ∃ evs, Effects s.fs.state evs s'.fs.state ∧ s.Makes l.event evs)
      (fun _ => True) s := by
    rw [handle_eq, wp_bind]
    refine (enter_inOrder hs h henabled).imp ?_
    intro r s₁ hs₁
    obtain ⟨horder, evs, heff, hmakes⟩ := hs₁
    cases r with
    | none => exact ⟨horder, evs, heff, hmakes⟩
    | some o =>
      refine (((linked_finish o).wp s₁).and ((lives_finish o).wp s₁)).mono ?_ fun _ _ => trivial
      intro _ s' hs'
      obtain ⟨hlinks, hlives⟩ := hs'
      refine ⟨horder.congr hlinks fun q => iff_of_eq (congrFun hlives q), evs, ?_, hmakes⟩
      rw [show s'.fs = s₁.fs from congrArg Links.fs hlinks]
      exact heff
  exact hspec.of_ok hok

end InOrder

end Oslab
