/-
# Every step is a run of events

What a system call does to processes and semaphores, with what it replies, and
the same for a process that goes on inside the kernel. Together with `schedule`
they make every step of the machine a run of events.
-/
import Oslab.CoreSpec

namespace Oslab

open Lib Lib.Prog

variable {s s' : Kernel} {p : ProcPtr} {k : Kont} {c : Core}

/-- Where the process goes on after a system call. -/
def Outcome.kont : Outcome → Kont
  | .done _ => .user
  | .wait k => k

/-- The calls that deal with files only. -/
def Call.quiet : Call → Bool
  | .write .. | .read .. | .exec _ | .getpid | .open .. | .close _ | .dup _ | .lseek .. | .fstat _
  | .chdir _ | .unlink _ | .sleep _ => true
  | _ => false

/-- The replies that are not about a child. -/
def Reply.plain : Reply → Bool
  | .child _ _ => false
  | _ => true

namespace Core

/-- Credits of the serial port taken one after the other. -/
def takes (n : ℕ) : List CoreEvent := List.replicate n (.take .serial)

/-- What a system call does to processes and semaphores, and how it ends. -/
inductive Answers (c : Core) : Call → Outcome → List CoreEvent → Prop
  | quiet {call : Call} {r : Reply} : call.quiet = true → r.plain = true →
      Answers c call (.done r) []
  | read {fd : ℤ} {count n : ℕ} {bs : List UInt8} :
      Answers c (.read fd count) (.done (.bytes bs)) (takes n)
  | readBlock {fd : ℤ} {count n m : ℕ} {got : List UInt8} :
      Answers c (.read fd count) (.wait (.getchar m got))
        (takes n ++ [.block .serial (.getchar m got)])
  | sleep {start ticks : UInt32} :
      Answers c (.sleep ticks) (.wait (.sleep start ticks)) [.yield (.sleep start ticks)]
  | yield : Answers c .yield (.wait (.ret 0)) [.yield (.ret 0)]
  | forkNone : Answers c .fork (.done (.int (-1))) []
  | fork {p : ProcPtr} : Answers c .fork (.done (.int c.next_pid)) [.fork p]
  | exit {status : ℤ} : Answers c (.exit status) (.wait .exited) [.exit status]
  | waitNone : (c.thread c.curr).child_num = 0 → Answers c .wait (.done (.int (-1))) []
  | waitBlock : Answers c .wait (.wait .wait) [.block (.zombie c.curr) .wait]
  | waitReap {p : ProcPtr} :
      Answers c .wait (.done (.child (c.thread p).pid (c.thread p).exit_code)) [.takeZombie, .reap p]
  | waitYield : (∀ p, ¬ ((c.thread p).parent = some c.curr ∧ (c.thread p).status = .zombie)) →
      Answers c .wait (.wait .wait) [.takeZombie, .yield .wait]
  | semNone {call : Call} {sem_id : ℤ} : entry (c.thread c.curr).usems sem_id = none →
      call = .sem_p sem_id ∨ call = .sem_v sem_id ∨ call = .sem_close sem_id →
      Answers c call (.done (.int (-1))) []
  | openNone {value : ℤ} : Answers c (.sem_open value) (.done (.int (-1))) []
  | open {value : ℤ} {id : Fin MAX_USEM} {u : UsemPtr} :
      Answers c (.sem_open value) (.done (.int id.val)) [.openUsem id u value]
  | close {sem_id : ℤ} {id : Fin MAX_USEM} {u : UsemPtr} :
      entry (c.thread c.curr).usems sem_id = some (id, u) →
      Answers c (.sem_close sem_id) (.done (.int 0)) [.closeUsem id u]
  | semTake {sem_id : ℤ} {id : Fin MAX_USEM} {u : UsemPtr} :
      entry (c.thread c.curr).usems sem_id = some (id, u) →
      Answers c (.sem_p sem_id) (.done (.int 0)) [.take (.user u)]
  | semBlock {sem_id : ℤ} {id : Fin MAX_USEM} {u : UsemPtr} :
      entry (c.thread c.curr).usems sem_id = some (id, u) →
      Answers c (.sem_p sem_id) (.wait (.ret 0)) [.block (.user u) (.ret 0)]
  | semGive {sem_id : ℤ} {id : Fin MAX_USEM} {u : UsemPtr} :
      entry (c.thread c.curr).usems sem_id = some (id, u) →
      Answers c (.sem_v sem_id) (.done (.int 0)) [.give (.user u)]

/-- The same for a process that goes on inside the kernel. -/
inductive Resumes (c : Core) : Kont → Outcome → List CoreEvent → Prop
  | ret {r : ℤ} : Resumes c (.ret r) (.done (.int r)) [.back]
  | reap {p : ProcPtr} :
      Resumes c .wait (.done (.child (c.thread p).pid (c.thread p).exit_code)) [.reap p]
  | again : (∀ p, ¬ ((c.thread p).parent = some c.curr ∧ (c.thread p).status = .zombie)) →
      Resumes c .wait (.wait .wait) [.yield .wait]
  | wake {start ticks : UInt32} : Resumes c (.sleep start ticks) (.done (.int 0)) [.back]
  | sleep {start ticks : UInt32} :
      Resumes c (.sleep start ticks) (.wait (.sleep start ticks)) [.yield (.sleep start ticks)]
  | read {m n : ℕ} {got bs : List UInt8} :
      Resumes c (.getchar m got) (.done (.bytes bs)) (takes n ++ [.back])
  | readBlock {m n m' : ℕ} {got got' : List UInt8} :
      Resumes c (.getchar m got) (.wait (.getchar m' got'))
        (takes n ++ [.block .serial (.getchar m' got')])

/-- What happens on an event before the reply or the next process. -/
inductive Acts (c : Core) : Event → Outcome → List CoreEvent → Prop
  | call {call : Call} {junk : Mem} {o : Outcome} {evs : List CoreEvent} :
      c.Answers call o evs → Acts c (.call call junk) o evs
  | resume {o : Outcome} {evs : List CoreEvent} :
      c.Resumes (c.thread c.curr).kont o evs → Acts c .resume o evs
  | timer : Acts c .timer (.wait .user) [.yield .user]

/-- What a step of the machine does to processes and semaphores. -/
inductive Moves (c : Core) : Label → List CoreEvent → Prop
  | reply {pid : ℤ} {e : Event} {r : Reply} {evs : List CoreEvent} :
      c.Acts e (.done r) evs → Moves c ⟨pid, e, some r⟩ evs
  | wait {pid : ℤ} {e : Event} {k : Kont} {evs : List CoreEvent} {p : ProcPtr} :
      c.Acts e (.wait k) evs → Moves c ⟨pid, e, none⟩ (evs ++ [.dispatch p])
  | serial {pid : ℤ} {bs : List UInt8} {n : ℕ} :
      Moves c ⟨pid, .serial bs, none⟩ (List.replicate n (.give .serial))

end Core

theorem entry_eq {α : Type} {n : ℕ} {table : Fin n → Option α} {i : ℤ} {id : Fin n} {a : α}
    (h : entry table i = some (id, a)) : table id = some a := by
  unfold entry at h
  split at h
  · rw [Option.map_eq_some_iff] at h
    obtain ⟨b, hb, heq⟩ := h
    cases heq
    exact hb
  · cases h

theorem Core.give_kont {sp : SemPtr} (p : ProcPtr) :
    ((c.give sp).thread p).kont = (c.thread p).kont := by
  unfold Core.give
  split
  case h_1 q _ _ =>
    by_cases hp : p = q
    · subst hp
      simp only [Core.mod, Core.setSem, Function.update_self]
    · simp only [Core.mod, Core.setSem, Function.update_of_ne hp]
  case h_2 => rfl

/-! ### Where a process goes on -/

namespace Core

theorem goto_kont : ((c.goto k).thread (c.goto k).curr).kont = k := by
  change ((c.goto k).thread c.curr).kont = k
  simp only [goto, mod, Function.update_self]

theorem goto_thread (q : ProcPtr) :
    ((c.goto k).thread q) = { c.thread q with kont := ((c.goto k).thread q).kont } := by
  by_cases hq : q = c.curr
  · subst hq
    simp only [goto, mod, Function.update_self]
  · simp only [goto, mod, Function.update_of_ne hq]

theorem goto_status (q : ProcPtr) : ((c.goto k).thread q).status = (c.thread q).status := by
  rw [goto_thread]

theorem goto_parent (q : ProcPtr) : ((c.goto k).thread q).parent = (c.thread q).parent := by
  rw [goto_thread]

/-- A process that reaps another one goes back to user mode from wherever it was. -/
theorem goto_reap (k : Kont) (hp : p ≠ c.curr) : (c.goto k).reap p = c.reap p := by
  have hthread : ((c.goto k).reap p).thread = (c.reap p).thread := by
    funext q
    by_cases hq : q = c.curr
    · subst hq
      simp only [reap, goto, mod, Function.update_self, Function.update_of_ne hp.symm]
    · by_cases hqp : q = p
      · subst hqp
        simp only [reap, goto, mod, Function.update_of_ne hq, Function.update_self]
      · simp only [reap, goto, mod, Function.update_of_ne hq, Function.update_of_ne hqp]
  exact Core.ext hthread rfl rfl rfl rfl

/-- The same for one that gives up the processor. -/
theorem goto_ready (c : Core) (k k' : Kont) :
    ((c.goto k).mod (c.goto k).curr ({ · with status := .ready })).goto k' =
      (c.mod c.curr ({ · with status := .ready })).goto k' := by
  have hthread : (((c.goto k).mod c.curr ({ · with status := .ready })).goto k').thread =
      ((c.mod c.curr ({ · with status := .ready })).goto k').thread := by
    funext q
    by_cases hq : q = c.curr
    · subst hq
      simp only [goto, mod, Function.update_self]
    · simp only [goto, mod, Function.update_of_ne hq]
  exact Core.ext hthread rfl rfl rfl rfl

end Core

/-! ### System calls -/

/-- A system call that replies and leaves processes and semaphores alone. -/
def Silent (m : KernelM Outcome) : Prop :=
  ∀ s o s', m s = .ok (o, s') → s'.core = s.core ∧ ∃ r, o = .done r ∧ r.plain = true

namespace Silent

variable {m m' : KernelM Outcome} {α : Type}

theorem done (r : Reply) (hr : r.plain = true) : Silent (pure (.done r)) := by
  intro s o s' hok
  cases hok
  exact ⟨rfl, r, rfl, hr⟩

theorem bind {m : KernelM α} {f : α → KernelM Outcome} (h : Keeps Kernel.core m)
    (hf : ∀ a, Silent (f a)) : Silent (m >>= f) := by
  intro s o s' hok
  have hwp : wp (m >>= f) (fun o s' => s'.core = s.core ∧ ∃ r, o = .done r ∧ r.plain = true)
      (fun _ => True) s := by
    rw [wp_bind]
    refine (h.wp s).imp fun a s₁ hs₁ => ?_
    rw [← hs₁]
    exact wp_iff.mpr ⟨fun o s' hok => hf a s₁ o s' hok, fun _ _ => trivial⟩
  exact hwp.of_ok hok

theorem ite {p : Prop} [Decidable p] (h : Silent m) (h' : Silent m') :
    Silent (if p then m else m') := by
  split
  · exact h
  · exact h'

/-- It is no event. -/
theorem answers (h : Silent m) {call : Call} (hq : call.quiet = true)
    (huser : (s.core.thread s.core.curr).kont = .user) :
    wp m (fun o s' => ∃ evs, s.core.Answers call o evs ∧
      CoreRun s.core evs (s'.core.goto o.kont)) (fun _ => True) s := by
  refine wp_iff.mpr ⟨fun o s' hok => ?_, fun _ _ => trivial⟩
  obtain ⟨hs', r, rfl, hr⟩ := h s o s' hok
  refine ⟨[], .quiet hq hr, ?_⟩
  rw [hs', Outcome.kont, Core.goto_same huser]
  exact Lts.Run.refl _

end Silent

theorem silent_write (fd : ℤ) (buf : List UInt8) : Silent (sys_write fd buf) := by
  refine Silent.bind Keeps.read fun curr => Silent.bind Keeps.read fun found => ?_
  cases found with
  | none => exact Silent.done _ rfl
  | some f =>
    refine Silent.bind Keeps.read fun file => Silent.ite (Silent.done _ rfl) (Silent.ite ?_
      (Silent.ite ?_ (Silent.done _ rfl)))
    · refine Silent.bind (keeps_deref _) fun inode => Silent.bind (keeps_inFs _) fun n =>
        Silent.ite ?_ (Silent.done _ rfl)
      exact Silent.bind (keeps_modFile _ _) fun _ => Silent.done _ rfl
    · exact Silent.bind (keeps_deref _) fun _ => Silent.done _ rfl

theorem silent_exec (path : List UInt8) : Silent (sys_exec path) := by
  refine Silent.bind ((keeps_load_elf path).bind fun _ => Keeps.pure _) fun loaded => ?_
  exact Silent.ite (Silent.done _ rfl) (Silent.done _ rfl)

theorem silent_open (path : List UInt8) (mode : ℕ) : Silent (sys_open path mode) := by
  refine Silent.bind Keeps.read fun curr => Silent.bind Keeps.read fun free => ?_
  cases free with
  | none => exact Silent.done _ rfl
  | some fd =>
    refine Silent.bind (keeps_fopen _ _) fun opened => ?_
    cases opened with
    | none => exact Silent.done _ rfl
    | some file => exact Silent.bind (keeps_setFd _ _ _) fun _ => Silent.done _ rfl

theorem silent_close (fd : ℤ) : Silent (sys_close fd) := by
  refine Silent.bind Keeps.read fun curr => Silent.bind Keeps.read fun found => ?_
  cases found with
  | none => exact Silent.done _ rfl
  | some f =>
    exact Silent.bind (keeps_fclose _) fun _ => Silent.bind (keeps_setFd _ _ _) fun _ =>
      Silent.done _ rfl

theorem silent_dup (fd : ℤ) : Silent (sys_dup fd) := by
  refine Silent.bind Keeps.read fun curr => Silent.bind Keeps.read fun found => ?_
  cases found with
  | none => exact Silent.done _ rfl
  | some f =>
    refine Silent.bind Keeps.read fun free => ?_
    cases free with
    | none => exact Silent.done _ rfl
    | some new_fd =>
      exact Silent.bind (keeps_fdup _) fun _ => Silent.bind (keeps_setFd _ _ _) fun _ =>
        Silent.done _ rfl

theorem silent_lseek (fd : ℤ) (off : UInt32) (whence : ℕ) : Silent (sys_lseek fd off whence) := by
  refine Silent.bind Keeps.read fun curr => Silent.bind Keeps.read fun found => ?_
  cases found with
  | none => exact Silent.done _ rfl
  | some f => exact Silent.bind (keeps_fseek _ _ _) fun _ => Silent.done _ rfl

theorem silent_fstat (fd : ℤ) : Silent (sys_fstat fd) := by
  refine Silent.bind Keeps.read fun curr => Silent.bind Keeps.read fun found => ?_
  cases found with
  | none => exact Silent.done _ rfl
  | some f =>
    refine Silent.bind Keeps.read fun file => Silent.ite ?_ (Silent.ite (Silent.done _ rfl)
      (Silent.done _ rfl))
    exact Silent.bind (keeps_deref _) fun _ => Silent.bind (keeps_inFs _) fun _ => Silent.done _ rfl

theorem silent_chdir (path : List UInt8) : Silent (sys_chdir path) := by
  refine Silent.bind Keeps.read fun curr => Silent.bind (keeps_kopen _ _) fun opened => ?_
  cases opened with
  | none => exact Silent.done _ rfl
  | some inode =>
    refine Silent.bind (keeps_inFs _) fun type => Silent.ite ?_ ?_
    · exact Silent.bind (keeps_inFs _) fun _ => Silent.done _ rfl
    · exact Silent.bind Keeps.read fun _ => Silent.bind (keeps_deref _) fun _ =>
        Silent.bind (keeps_inFs _) fun _ => Silent.bind (keeps_setCwd _ _) fun _ => Silent.done _ rfl

theorem silent_unlink (path : List UInt8) : Silent (sys_unlink path) :=
  Silent.bind Keeps.read fun _ => Silent.bind Keeps.read fun _ =>
    Silent.bind (keeps_inFs _) fun _ => Silent.done _ rfl

/-! ### The serial port -/

theorem keeps_modSerial (f : Serial → Serial) (hf : ∀ b, (f b).serial_sem = b.serial_sem) :
    Keeps Kernel.core (modSerial f) := by
  refine Keeps.update fun s => ?_
  ext1
  · rfl
  · funext sp
    cases sp with
    | zombie q => rfl
    | user u => rfl
    | serial => exact hf s.serial
  all_goals rfl

theorem keeps_pop_front : Keeps Kernel.core pop_front := by
  refine Keeps.read.bind fun b => Keeps.ite ?_ (Keeps.pure _)
  exact (keeps_modSerial (fun b => { b with head := b.head + 1 }) fun _ => rfl).bind fun _ =>
    Keeps.pure _

theorem keeps_getcharEnd : Keeps Kernel.core getcharEnd :=
  keeps_pop_front.bind fun _ => (Keeps.assert _ _).bind fun _ => Keeps.pure _

/-- What is left of a line, or of a wait for one. -/
def SerialEnd (o : Outcome) (n : ℕ) (evs : List CoreEvent) : Prop :=
  (∃ bs, o = .done (.bytes bs) ∧ evs = Core.takes n) ∨
    ∃ m got, o = .wait (.getchar m got) ∧
      evs = Core.takes n ++ [.block .serial (.getchar m got)]

theorem SerialEnd.succ {o : Outcome} {n : ℕ} {evs : List CoreEvent} (h : SerialEnd o n evs) :
    SerialEnd o (n + 1) (.take .serial :: evs) := by
  rcases h with ⟨bs, rfl, rfl⟩ | ⟨m, got, rfl, rfl⟩
  · exact Or.inl ⟨bs, rfl, List.replicate_succ.symm⟩
  · exact Or.inr ⟨m, got, rfl, rfl⟩

/-- Reading from the serial port takes credits until the line is over or there are none. -/
theorem serial_read_spec (count : ℕ) (got : List UInt8) (hcalls : s.core.Calls) :
    wp (serial_read count got) (fun o s' => ∃ n evs c', SerialEnd o n evs ∧ CoreRun s.core evs c' ∧
      (∀ bs, o = .done (.bytes bs) → c' = s'.core ∧ c'.Calls ∧
        (c'.thread c'.curr).kont = (s.core.thread s.core.curr).kont) ∧
      ∀ k, o = .wait k → c' = s'.core.goto k) (fun _ => True) s := by
  induction count generalizing s got with
  | zero =>
    exact ⟨0, [], s.core, Or.inl ⟨got, rfl, rfl⟩, Lts.Run.refl _, 
      fun _ _ => ⟨rfl, hcalls, rfl⟩, fun k hk => by cases hk⟩
  | succ count ih =>
    rw [serial_read, wp_bind]
    refine (sem_p_spec .serial).imp ?_
    rintro blocked s₁ (⟨rfl, hv, hs₁⟩ | ⟨rfl, hv, hs₁⟩)
    · have htake : CoreRun s.core [.take .serial] s₁.core :=
        Lts.Run.single (hs₁ ▸ .take hcalls (by simp) hv)
      simp only [Bool.false_eq_true, if_false]
      rw [wp_bind]
      refine (keeps_getcharEnd.wp s₁).imp ?_
      rintro ch s₂ hs₂
      have hcalls₂ : s₂.core.Calls := by
        rw [hs₂, hs₁]
        exact ⟨hcalls.running, hcalls.idle, hcalls.ne_zero⟩
      have hkont : (s₂.core.thread s₂.core.curr).kont = (s.core.thread s.core.curr).kont := by
        rw [hs₂, hs₁]
        rfl
      rw [wp_ite]
      refine ⟨fun _ => ?_, fun _ => ?_⟩
      · refine ⟨1, [.take .serial], s₂.core, Or.inl ⟨_, rfl, rfl⟩, hs₂ ▸ htake,
          fun _ _ => ⟨rfl, hcalls₂, hkont⟩, fun k hk => by cases hk⟩
      · refine (ih (got ++ [ch]) hcalls₂).imp ?_
        rintro o s' ⟨n, evs, c', hend, hrun, hdone, hwait⟩
        refine ⟨n + 1, _, c', hend.succ, htake.trans (hs₂ ▸ hrun), fun bs hbs => ?_, hwait⟩
        obtain ⟨heq, hc, hk⟩ := hdone bs hbs
        exact ⟨heq, hc, hk.trans hkont⟩
    · simp only [if_true]
      refine ⟨0, _, _, Or.inr ⟨count, got, rfl, rfl⟩, Lts.Run.single (.block hcalls hv ?_), ?_, ?_⟩
      · exact ⟨count, got, rfl⟩
      · rintro bs hbs
        cases hbs
      · rintro k ⟨⟩
        exact (hs₁ _).symm

theorem sys_read_spec (fd : ℤ) (count : ℕ) (hcalls : s.core.Calls)
    (huser : (s.core.thread s.core.curr).kont = .user) :
    wp (sys_read fd count) (fun o s' => ∃ evs, s.core.Answers (.read fd count) o evs ∧
      CoreRun s.core evs (s'.core.goto o.kont)) (fun _ => True) s := by
  have hquiet {m : KernelM Outcome} (h : Silent m) := 
    @Silent.answers _ _ h (.read fd count) rfl huser
  rw [sys_read, wp_bind, proc_curr, wp_read, wp_bind, proc_getfile, wp_read]
  split
  · exact hquiet (Silent.done _ rfl)
  case h_2 _ k _ =>
    rw [fread, wp_bind, getFile, wp_read]
    split
    · exact hquiet (Silent.done _ rfl)
    · split
      · exact hquiet (Silent.bind (keeps_deref _) fun _ => Silent.bind (keeps_inFs _) fun _ =>
          Silent.bind (keeps_modFile _ _) fun _ => Silent.done _ rfl)
      · split
        · cases hop : (s.files k).dev_op with
          | none => exact trivial
          | some op =>
            cases op with
            | null =>
              rw [deref, wp_bind, wp_pure]
              exact hquiet (Silent.done _ rfl)
            | serial =>
              rw [deref, wp_bind, wp_pure]
              refine (serial_read_spec count [] hcalls).imp ?_
              rintro o s' ⟨n, evs, c', ⟨bs, rfl, rfl⟩ | ⟨m, got, rfl, rfl⟩, hrun, hdone, hwait⟩
              · obtain ⟨rfl, -, hk⟩ := hdone bs rfl
                refine ⟨Core.takes n, .read, ?_⟩
                rw [Outcome.kont, Core.goto_same (hk.trans huser)]
                exact hrun
              · have := hwait _ rfl
                subst this
                exact ⟨_, .readBlock, hrun⟩
        · exact hquiet (Silent.done _ rfl)

/-! ### Semaphores of the user -/

section Calls

variable (hcalls : s.core.Calls) (huser : (s.core.thread s.core.curr).kont = .user)

include hcalls huser

omit hcalls in
/-- A reply after one event that leaves the process in user mode. -/
theorem CoreRun.reply {r : Reply} {ev : CoreEvent} {call : Call} {c' : Core}
    (hstep : Core.Step s.core ev c') (heq : s'.core = c')
    (hkont : (c'.thread c'.curr).kont = (s.core.thread s.core.curr).kont)
    (ha : s.core.Answers call (.done r) [ev]) :
    ∃ evs, s.core.Answers call (.done r) evs ∧
      CoreRun s.core evs (s'.core.goto (Outcome.done r).kont) := by
  refine ⟨[ev], ha, ?_⟩
  rw [heq, Outcome.kont, Core.goto_same (hkont.trans huser)]
  exact Lts.Run.single hstep

theorem sys_sem_open_spec (value : ℤ) :
    wp (sys_sem_open value) (fun o s' => ∃ evs, s.core.Answers (.sem_open value) o evs ∧
      CoreRun s.core evs (s'.core.goto o.kont)) (fun _ => True) s := by
  rw [sys_sem_open, wp_bind, proc_curr, wp_read, wp_bind, proc_allocusem, wp_read]
  cases hfind : (List.finRange MAX_USEM).find? fun i => (s.pcb s.curr).usems i = none with
  | none =>
    refine ⟨[], .openNone, ?_⟩
    rw [Outcome.kont, Core.goto_same huser]
    exact Lts.Run.refl _
  | some id =>
    have hid : (s.pcb s.curr).usems id = none := by simpa using List.find?_some hfind
    simp only
    rw [wp_bind]
    refine (usem_alloc_spec value).imp ?_
    rintro r s₁ (⟨rfl, hs₁⟩ | ⟨u, rfl, hzero, hs₁⟩)
    · refine ⟨[], .openNone, ?_⟩
      rw [hs₁, Outcome.kont, Core.goto_same huser]
      exact Lts.Run.refl _
    · simp only
      rw [wp_bind]
      refine (setUsem_spec s.curr id (some u)).imp ?_
      rintro - s' hs'
      refine CoreRun.reply huser (@Core.Step.openUsem s.core id _ value hcalls hid hzero)
        ?_ ?_ .open
      · rw [hs', hs₁]
        rfl
      · change (Function.update (s.core.setSem (.user u) (sem_init value)).thread s.core.curr _
          s.core.curr).kont = _
        rw [Function.update_self]
        rfl

theorem sys_sem_p_spec (sem_id : ℤ) :
    wp (sys_sem_p sem_id) (fun o s' => ∃ evs, s.core.Answers (.sem_p sem_id) o evs ∧
      CoreRun s.core evs (s'.core.goto o.kont)) (fun _ => True) s := by
  rw [sys_sem_p, wp_bind, proc_curr, wp_read, wp_bind, proc_getusem, wp_read]
  cases hentry : entry (s.pcb s.curr).usems sem_id with
  | none =>
    refine ⟨[], .semNone hentry (Or.inl rfl), ?_⟩
    rw [Outcome.kont, Core.goto_same huser]
    exact Lts.Run.refl _
  | some q =>
    obtain ⟨id, u⟩ := q
    simp only
    rw [wp_bind]
    refine (sem_p_spec (.user u)).imp ?_
    rintro blocked s₁ (⟨rfl, hv, hs₁⟩ | ⟨rfl, hv, hs₁⟩)
    · exact CoreRun.reply huser (.take hcalls (by simp) hv) hs₁ rfl (.semTake hentry)
    · refine ⟨_, .semBlock hentry, ?_⟩
      rw [Outcome.kont, hs₁]
      exact Lts.Run.single (.block hcalls hv ⟨rfl, id, entry_eq hentry⟩)

omit hcalls in
theorem sys_sem_v_spec (sem_id : ℤ) :
    wp (sys_sem_v sem_id) (fun o s' => ∃ evs, s.core.Answers (.sem_v sem_id) o evs ∧
      CoreRun s.core evs (s'.core.goto o.kont)) (fun _ => True) s := by
  rw [sys_sem_v, wp_bind, proc_curr, wp_read, wp_bind, proc_getusem, wp_read]
  cases hentry : entry (s.pcb s.curr).usems sem_id with
  | none =>
    refine ⟨[], .semNone hentry (Or.inr (Or.inl rfl)), ?_⟩
    rw [Outcome.kont, Core.goto_same huser]
    exact Lts.Run.refl _
  | some q =>
    obtain ⟨id, u⟩ := q
    simp only
    rw [wp_bind]
    refine (sem_v_spec (.user u)).imp ?_
    rintro - s₁ hs₁
    refine CoreRun.reply huser (.give (by simp) ?_) hs₁ ?_ (.semGive hentry)
    · rintro v ⟨⟩
      exact ⟨id, entry_eq hentry⟩
    rw [Core.give_curr]
    exact Core.give_kont _

theorem sys_sem_close_spec (sem_id : ℤ) :
    wp (sys_sem_close sem_id) (fun o s' => ∃ evs, s.core.Answers (.sem_close sem_id) o evs ∧
      CoreRun s.core evs (s'.core.goto o.kont)) (fun _ => True) s := by
  rw [sys_sem_close, wp_bind, proc_curr, wp_read, wp_bind, proc_getusem, wp_read]
  cases hentry : entry (s.pcb s.curr).usems sem_id with
  | none =>
    refine ⟨[], .semNone hentry (Or.inr (Or.inr rfl)), ?_⟩
    rw [Outcome.kont, Core.goto_same huser]
    exact Lts.Run.refl _
  | some q =>
    obtain ⟨id, u⟩ := q
    simp only
    rw [wp_bind]
    refine (modUsemRef_spec u (· - 1)).imp ?_
    rintro - s₁ hs₁
    rw [wp_bind]
    refine (setUsem_spec s.curr id none).imp ?_
    rintro - s' hs'
    refine CoreRun.reply huser (.closeUsem hcalls (entry_eq hentry)) ?_ ?_ (.close hentry)
    · rw [hs', hs₁]
      rfl
    · simp only [Core.mod, Function.update_self]

/-- **System calls are runs of events.** -/
theorem do_syscall_spec (call : Call) :
    wp (do_syscall call) (fun o s' => ∃ evs, s.core.Answers call o evs ∧
      CoreRun s.core evs (s'.core.goto o.kont)) (fun _ => True) s := by
  have hrun := hcalls.running
  cases call with
  | write fd buf => exact (silent_write fd buf).answers rfl huser
  | read fd count => exact sys_read_spec fd count hcalls huser
  | sleep ticks =>
    rw [do_syscall, sys_sleep, wp_bind, wp_read, sleepLoop, wp_bind, wp_read]
    split
    · refine (proc_yield_spec (.sleep s.tick ticks)).imp ?_
      rintro o s' ⟨rfl, hs'⟩
      refine ⟨_, @Core.Answers.sleep _ s.tick _, ?_⟩
      rw [Outcome.kont, hs']
      exact Lts.Run.single (.yield hrun (Or.inr (Or.inl ⟨hcalls, by simp, by simp⟩)))
    · exact (Silent.done _ rfl).answers rfl huser
  | exec path => exact (silent_exec path).answers rfl huser
  | getpid =>
    exact (Silent.bind Keeps.read fun _ => Silent.bind Keeps.read fun _ =>
      Silent.done _ rfl).answers rfl huser
  | yield =>
    refine (proc_yield_spec (.ret 0)).imp ?_
    rintro o s' ⟨rfl, hs'⟩
    refine ⟨_, .yield, ?_⟩
    rw [Outcome.kont, hs']
    exact Lts.Run.single (.yield hrun (Or.inr (Or.inl ⟨hcalls, by simp, by simp⟩)))
  | fork =>
    refine (sys_fork_spec hcalls).imp ?_
    rintro o s' (⟨rfl, hs'⟩ | ⟨p, rfl, hp, hunused, hlt, hs'⟩)
    · exact ⟨[], .forkNone, by rw [hs', Outcome.kont, Core.goto_same huser]; exact Lts.Run.refl _⟩
    · refine CoreRun.reply huser (.fork hcalls hp hunused hlt) hs' ?_ .fork
      have hne : s.core.curr ≠ p := by
        rintro rfl
        rw [hrun] at hunused
        cases hunused
      change ((s.core.fork p).thread s.core.curr).kont = _
      simp only [Core.fork, Function.update_of_ne hne, Function.update_self]
  | exit status =>
    refine (sys_exit_spec status).imp ?_
    rintro o s' ⟨rfl, hs'⟩
    refine ⟨_, .exit, ?_⟩
    rw [Outcome.kont, hs']
    exact Lts.Run.single (.exit hcalls)
  -- no child; no credit; a child is reaped; or none is found and the process yields
  | wait =>
    refine (sys_wait_spec hcalls).imp ?_
    rintro o s' (⟨hzero, rfl, hs'⟩ | ⟨hne, rfl, hv, hs'⟩ | ⟨hne, hv, ⟨p, hpar, hz, rfl, hs'⟩ |
      ⟨hall, rfl, hs'⟩⟩)
    · refine ⟨[], .waitNone hzero, ?_⟩
      rw [hs', Outcome.kont, Core.goto_same huser]
      exact Lts.Run.refl _
    · refine ⟨_, .waitBlock, ?_⟩
      rw [Outcome.kont, hs']
      exact Lts.Run.single (.block hcalls hv ⟨rfl, rfl, hne⟩)
    · refine ⟨_, .waitReap (p := p), ?_⟩
      have hp : p ≠ s.core.curr := by
        rintro rfl
        rw [hrun] at hz
        cases hz
      have hreap : ((s.core.take (.zombie s.core.curr)).goto .wait).reap p = _ :=
        Core.goto_reap .wait hp
      rw [Outcome.kont, hs', ← hreap]
      have htake : CoreRun s.core [.takeZombie] _ :=
        Lts.Run.single (Core.Step.takeZombie hcalls hne hv)
      refine htake.tail (Core.Step.reap ?_ ?_ ?_ ?_)
      · rw [Core.goto_status]
        exact hrun
      · exact Core.goto_kont
      · rw [Core.goto_parent]
        exact hpar
      · rw [Core.goto_status]
        exact hz
    · refine ⟨_, .waitYield hall, ?_⟩
      have hready := Core.goto_ready (s.core.take (.zombie s.core.curr)) .wait .wait
      have htake : CoreRun s.core [.takeZombie] _ :=
        Lts.Run.single (Core.Step.takeZombie hcalls hne hv)
      rw [Outcome.kont, hs']
      refine hready ▸ htake.tail (Core.Step.yield ?_ (Or.inr (Or.inr ⟨rfl, ?_⟩)))
      · rw [Core.goto_status]
        exact hrun
      · exact Core.goto_kont
  | sem_open value => exact sys_sem_open_spec hcalls huser value
  | sem_p sem_id => exact sys_sem_p_spec hcalls huser sem_id
  | sem_v sem_id => exact sys_sem_v_spec huser sem_id
  | sem_close sem_id => exact sys_sem_close_spec hcalls huser sem_id
  | «open» path mode => exact (silent_open path mode).answers rfl huser
  | close fd => exact (silent_close fd).answers rfl huser
  | dup fd => exact (silent_dup fd).answers rfl huser
  | lseek fd off whence => exact (silent_lseek fd off whence).answers rfl huser
  | fstat fd => exact (silent_fstat fd).answers rfl huser
  | chdir path => exact (silent_chdir path).answers rfl huser
  | unlink path => exact (silent_unlink path).answers rfl huser

end Calls

/-! ### Going on inside the kernel -/

/-- **A process that goes on inside the kernel** does a run of events. -/
theorem goOn_spec (hrun : (s.core.thread s.core.curr).status = .running)
    (hzero : s.core.curr ≠ 0) :
    wp (goOn (s.core.thread s.core.curr).kont) (fun o s' => ∃ evs,
      s.core.Resumes (s.core.thread s.core.curr).kont o evs ∧
        CoreRun s.core evs (s'.core.goto o.kont)) (fun _ => True) s := by
  have hcalls (hk : (s.core.thread s.core.curr).kont ≠ .wait) : s.core.Calls := ⟨hrun, hk, hzero⟩
  cases hkont : (s.core.thread s.core.curr).kont with
  | user => exact trivial
  | exited => exact trivial
  | ret r =>
    exact ⟨_, .ret, Lts.Run.single (Core.Step.back hrun (by rw [hkont]; simp))⟩
  | wait =>
    refine (waitLoop_spec hrun).imp ?_
    rintro o s' (⟨p, hpar, hz, rfl, hs'⟩ | ⟨hall, rfl, hs'⟩)
    · refine ⟨_, .reap, ?_⟩
      rw [Outcome.kont, hs']
      exact Lts.Run.single (Core.Step.reap hrun hkont hpar hz)
    · refine ⟨_, .again hall, ?_⟩
      rw [Outcome.kont, hs']
      exact Lts.Run.single (Core.Step.yield hrun (Or.inr (Or.inr ⟨rfl, hkont⟩)))
  | sleep start ticks =>
    have hne : (s.core.thread s.core.curr).kont ≠ .wait := by
      rw [hkont]
      simp
    rw [goOn, sleepLoop, wp_bind, wp_read, wp_ite]
    refine ⟨fun _ => ?_, fun _ => ?_⟩
    · refine (proc_yield_spec _).imp ?_
      rintro o s' ⟨rfl, hs'⟩
      refine ⟨_, .sleep, ?_⟩
      rw [Outcome.kont, hs']
      exact Lts.Run.single (Core.Step.yield hrun (Or.inr (Or.inl ⟨hcalls hne, by simp, by simp⟩)))
    · exact ⟨_, .wake, Lts.Run.single (Core.Step.back hrun hne)⟩
  | getchar m got =>
    have hne : (s.core.thread s.core.curr).kont ≠ .wait := by
      rw [hkont]
      simp
    rw [goOn, wp_bind]
    refine (keeps_getcharEnd.wp s).imp ?_
    rintro ch s₁ hs₁
    rw [wp_ite]
    refine ⟨fun _ => ?_, fun _ => ?_⟩
    · refine ⟨_, .read (n := 0), ?_⟩
      rw [hs₁]
      exact Lts.Run.single (Core.Step.back hrun hne)
    · refine (serial_read_spec m (got ++ [ch]) (hs₁ ▸ hcalls hne)).imp ?_
      rintro o s' ⟨n, evs, c', ⟨bs, rfl, rfl⟩ | ⟨m', got', rfl, rfl⟩, htakes, hdone, hwait⟩
      · obtain ⟨rfl, hc, -⟩ := hdone bs rfl
        exact ⟨_, .read, (hs₁ ▸ htakes).tail (Core.Step.back hc.running hc.idle)⟩
      · have heq := hwait _ rfl
        subst heq
        exact ⟨_, .readBlock, hs₁ ▸ htakes⟩

/-! ### Input from the serial port -/

/-- Credits given one after the other. -/
theorem sem_v_loop_spec {fail : Abort → Prop} {α : Type} (as : List α) :
    wp (loop (fun _ _ => sem_v .serial) as ())
      (fun _ s' => CoreRun s.core (List.replicate as.length (.give .serial)) s'.core) fail s := by
  induction as generalizing s with
  | nil => exact Lts.Run.refl _
  | cons a as ih =>
    rw [loop, wp_bind]
    refine (sem_v_spec .serial).imp ?_
    rintro - s₁ hs₁
    refine (ih (s := s₁)).imp ?_
    rintro - s' hrun
    have hfirst : CoreRun s.core [.give .serial] s₁.core := by
      rw [hs₁]
      exact Lts.Run.single (Core.Step.give (by simp) (by simp))
    rw [List.length_cons, List.replicate_succ]
    exact hfirst.trans hrun

/-- Some credits of the serial port are given. -/
def Given (c c' : Core) : Prop := ∃ n, CoreRun c (List.replicate n (.give .serial)) c'

theorem Given.trans {c c₁ c₂ : Core} (h : Given c c₁) (h' : Given c₁ c₂) : Given c c₂ := by
  obtain ⟨n, hn⟩ := h
  obtain ⟨m, hm⟩ := h'
  refine ⟨n + m, ?_⟩
  rw [List.replicate_add]
  exact hn.trans hm

theorem modSerial_spec {fail : Abort → Prop} {f : Serial → Serial}
    (hf : ∀ b, (f b).serial_sem = b.serial_sem) :
    wp (modSerial f) (fun _ s' => s'.core = s.core) fail s :=
  keeps_modSerial f hf s () _ rfl

theorem push_back_spec {fail : Abort → Prop} (ch : UInt8) :
    wp (push_back ch) (fun _ s' => Given s.core s'.core) fail s := by
  rw [push_back, wp_bind]
  refine wp.imp (modSerial_spec ?_) ?_
  · exact fun _ => rfl
  rintro - s₁ hs₁
  rw [wp_ite]
  refine ⟨fun _ => ?_, fun _ => ⟨0, hs₁ ▸ Lts.Run.refl _⟩⟩
  rw [wp_bind, wp_read, wp_bind]
  refine (sem_v_loop_spec _).imp ?_
  rintro - s₂ hrun
  refine wp.imp (modSerial_spec ?_) ?_
  · exact fun _ => rfl
  rintro - s' hs'
  rw [hs₁] at hrun
  exact ⟨_, hs' ▸ hrun⟩

theorem pop_back_spec {fail : Abort → Prop} :
    wp pop_back (fun _ s' => s'.core = s.core) fail s :=
  modSerial_spec fun b => by split <;> rfl

/-- **Characters that come in give credits** of the serial port and do nothing else. -/
theorem serial_handle_spec {fail : Abort → Prop} (bs : List UInt8) :
    wp (serial_handle bs) (fun _ s' => Given s.core s'.core) fail s := by
  induction bs generalizing s with
  | nil => exact ⟨0, Lts.Run.refl _⟩
  | cons ch rest ih =>
    rw [serial_handle, wp_ite]
    refine ⟨fun _ => ih, fun _ => ?_⟩
    rw [wp_ite]
    refine ⟨fun _ => ⟨0, Lts.Run.refl _⟩, fun _ => ?_⟩
    rw [wp_ite]
    refine ⟨fun _ => ?_, fun _ => ?_⟩
    · rw [wp_bind]
      refine pop_back_spec.imp ?_
      rintro - s₁ hs₁
      rw [← hs₁]
      exact ih
    · -- a character is put into the buffer, or is none that can be
      have hrest (s₁ : Kernel) (hs₁ : Given s.core s₁.core) :
          wp (serial_handle rest) (fun _ s' => Given s.core s'.core) fail s₁ :=
        (ih (s := s₁)).imp fun _ _ h => hs₁.trans h
      generalize (if ch = 13 then NEWLINE else ch) = ch'
      dsimp only
      rw [wp_ite]
      refine ⟨fun _ => ?_, fun _ => ih⟩
      rw [wp_bind]
      exact (push_back_spec _).imp fun _ => hrest

/-! ### Scheduling -/

/-- After these events the current process does not run. -/
def CoreEvent.stops : CoreEvent → Bool
  | .block .. | .yield _ | .exit _ => true
  | _ => false

namespace Core

theorem Answers.running {call : Call} {r : Reply} {evs : List CoreEvent}
    (h : c.Answers call (.done r) evs) : ∀ ev ∈ evs, ev.stops = false := by
  intro ev hev
  cases h with
  | read =>
    rw [List.eq_of_mem_replicate hev]
    rfl
  | quiet | forkNone | waitNone | semNone | openNone => cases hev
  | fork | «open» | close | semTake | semGive =>
    rw [List.mem_singleton.mp hev]
    rfl
  | waitReap =>
    rcases List.mem_pair.mp hev with rfl | rfl <;> rfl

theorem Answers.stops {call : Call} {evs : List CoreEvent} (h : c.Answers call (.wait k) evs) :
    ∃ evs' ev, evs = evs' ++ [ev] ∧ ev.stops = true := by
  cases h with
  | readBlock => exact ⟨_, _, rfl, rfl⟩
  | waitYield => exact ⟨[_], _, rfl, rfl⟩
  | sleep | yield | exit | waitBlock | semBlock => exact ⟨[], _, rfl, rfl⟩

theorem Resumes.running {r : Reply} {evs : List CoreEvent} (h : c.Resumes k (.done r) evs) :
    ∀ ev ∈ evs, ev.stops = false := by
  intro ev hev
  cases h with
  | read =>
    rcases List.mem_append.mp hev with hev | hev
    · rw [List.eq_of_mem_replicate hev]
      rfl
    · rw [List.mem_singleton.mp hev]
      rfl
  | ret | reap | wake =>
    rw [List.mem_singleton.mp hev]
    rfl

theorem Resumes.stops {k' : Kont} {evs : List CoreEvent} (h : c.Resumes k (.wait k') evs) :
    ∃ evs' ev, evs = evs' ++ [ev] ∧ ev.stops = true := by
  cases h with
  | readBlock => exact ⟨_, _, rfl, rfl⟩
  | again | sleep => exact ⟨[], _, rfl, rfl⟩

/-- What holds of processes and semaphores between two events. -/
structure Sound (c : Core) : Prop where
  turns : c.Turns
  waiting : c.Waiting
  usems : c.Usems
  family : c.Family

theorem Step.sound {c' : Core} {ev : CoreEvent} (h : c.Sound) (hstep : Step c ev c') : c'.Sound :=
  ⟨hstep.turns h.turns h.waiting, hstep.waiting h.waiting h.usems,
    hstep.usems h.usems h.waiting, hstep.family h.family h.waiting⟩

/-- The current process runs on. -/
theorem Step.still {c' : Core} {ev : CoreEvent} (hw : c.Waiting) (hstep : Step c ev c')
    (hev : ev.stops = false) (hrun : (c.thread c.curr).status = .running) :
    (c'.thread c'.curr).status = .running := by
  cases hstep with
  | take => exact hrun
  | takeZombie => exact (goto_status _).trans hrun
  | block | exit | yield => cases hev
  | give =>
    rw [give_curr, hw.give_thread (by rw [hrun]; decide)]
    exact hrun
  | openUsem | closeUsem =>
    simp only [Core.mod, Core.setSem, Function.update_self]
    exact hrun
  | @fork p _ _ hunused _ =>
    have hne : c.curr ≠ p := by
      rintro rfl
      rw [hrun] at hunused
      cases hunused
    change ((c.fork p).thread c.curr).status = _
    simp only [Core.fork, Function.update_of_ne hne, Function.update_self]
    exact hrun
  | @reap p _ _ _ hz =>
    have hne : c.curr ≠ p := by
      rintro rfl
      rw [hrun] at hz
      cases hz
    change ((c.reap p).thread c.curr).status = _
    simp only [Core.reap, Core.goto, Core.mod, Function.update_self, Function.update_of_ne hne]
    exact hrun
  | back => exact (goto_status _).trans hrun
  | dispatch => simp only [Core.mod, Function.update_self]

/-- The current process runs no more. -/
theorem Step.stopped {c' : Core} {ev : CoreEvent} (hw : c.Waiting) (hstep : Step c ev c')
    (hev : ev.stops = true) : (c'.thread c'.curr).status ≠ .running := by
  cases hstep with
  | block =>
    change ((c.block _ _).thread c.curr).status ≠ _
    simp only [Core.block, Core.mod, Core.setSem, Function.update_self]
    decide
  | @exit code hcalls =>
    have hz := hw.tell_status hcalls.running code
    have hexit : ((c.exit code).thread (c.exit code).curr).status = .zombie := by
      rw [Core.exit, goto_status]
      change ((c.orphan code).tell.release.thread (c.orphan code).tell.curr).status = _
      simp only [Core.release, Core.mod, Function.update_self]
      exact hz
    rw [hexit]
    decide
  | yield =>
    rw [goto_status]
    simp only [Core.goto, Core.mod, Function.update_self]
    decide
  | take | takeZombie | give | openUsem | closeUsem | fork | reap | back | dispatch => cases hev

end Core

/-- **Processes and semaphores stay sound** along every run of events. -/
theorem CoreRun.sound {c' : Core} {evs : List CoreEvent} (h : CoreRun c evs c') (hc : c.Sound) :
    c'.Sound :=
  h.invariant Core.Sound (fun _ _ _ hs hstep => Core.Step.sound hs hstep) hc

/-- The current process runs on along a run. -/
theorem CoreRun.still {c' : Core} {evs : List CoreEvent} (h : CoreRun c evs c') (hc : c.Sound)
    (hevs : ∀ ev ∈ evs, ev.stops = false) (hrun : (c.thread c.curr).status = .running) :
    (c'.thread c'.curr).status = .running := by
  induction h with
  | refl => exact hrun
  | tail hlast hstep ih =>
    have hsound := CoreRun.sound hlast hc
    exact Core.Step.still hsound.waiting hstep (hevs _ (by simp))
      (ih fun ev hev => hevs ev (by simp [hev]))

/-- The current process has stopped at the end of a run. -/
theorem CoreRun.stopped {c' : Core} {evs : List CoreEvent} {ev : CoreEvent}
    (h : CoreRun c (evs ++ [ev]) c') (hc : c.Sound) (hev : ev.stops = true) :
    (c'.thread c'.curr).status ≠ .running := by
  obtain ⟨c₁, hfirst, hstep⟩ := h.of_concat
  have hsound := CoreRun.sound hfirst hc
  exact Core.Step.stopped hsound.waiting hstep hev

/-! ### One step of the machine -/

/-- The next process that is ready runs. -/
theorem switch_spec (k : Kont) (hstop : (s.core.thread s.core.curr).status ≠ .running) :
    wp (switch k) (fun _ s' => ∃ p, CoreRun (s.core.goto k) [.dispatch p] s'.core ∧
      (s'.core.thread s'.core.curr).status = .running) (fun _ => True) s := by
  rw [switch, wp_bind, proc_curr, wp_read, wp_bind]
  refine (modProc_spec (fun pr => { pr with kont := k }) (fun t => { t with kont := k })
    (fun _ => rfl) fun _ => rfl).imp ?_
  rintro - s₁ hs₁
  have hgoto : s₁.core = s.core.goto k := hs₁
  rw [schedule, wp_bind, wp_read]
  cases hfind : (nextProcs s₁.curr).find? fun p => (s₁.pcb p).status = .ready with
  | none =>
    rw [id, hfind]
    exact trivial
  | some p =>
    rw [id, hfind]
    dsimp only
    rw [wp_bind]
    refine (setStatus_spec p .running).imp ?_
    rintro - s₂ hs₂
    rw [wp_update]
    have hcore : Kernel.core { s₂ with curr := p } = { s₂.core with curr := p } := rfl
    rw [hcore, hs₂]
    refine ⟨p, ?_, ?_⟩
    · rw [← hgoto]
      refine Lts.Run.single (Core.Step.dispatch ?_ hfind)
      rw [hgoto, Core.goto_status]
      exact hstop
    · simp only [Core.mod, Function.update_self]

/-- What the kernel does after a call or a process that goes on inside it. -/
theorem finish_spec (o : Outcome) (hstop : ∀ k, o = .wait k →
      ((s.core.goto k).thread (s.core.goto k).curr).status ≠ .running) :
    wp (finish o) (fun r s' => (∃ reply, o = .done reply ∧ r = some reply ∧
        s'.core = s.core.goto .user) ∨
      ∃ k p, o = .wait k ∧ r = none ∧ CoreRun (s.core.goto k) [.dispatch p] s'.core ∧
        (s'.core.thread s'.core.curr).status = .running) (fun _ => True) s := by
  cases o with
  | done reply =>
    rw [finish, wp_bind, proc_curr, wp_read, wp_bind]
    refine (modProc_spec (fun pr => { pr with kont := .user }) (fun t => { t with kont := .user })
      (fun _ => rfl) fun _ => rfl).imp ?_
    rintro - s' hs'
    exact Or.inl ⟨reply, rfl, rfl, hs'⟩
  | wait k =>
    rw [finish, wp_bind]
    have hstop' : (s.core.thread s.core.curr).status ≠ .running :=
      (Core.goto_status (c := s.core) (k := k) s.core.curr) ▸ hstop k rfl
    refine (switch_spec k hstop').imp ?_
    rintro - s' ⟨p, hdisp, hrun⟩
    exact Or.inr ⟨k, p, rfl, rfl, hdisp, hrun⟩

/-- A run of events, and then the reply or the next process. -/
theorem finish_run {o : Outcome} {evs : List CoreEvent} (hs : c.Sound)
    (hrun : (c.thread c.curr).status = .running)
    (hevs : CoreRun c evs (s.core.goto o.kont))
    (hdone : ∀ r, o = .done r → ∀ ev ∈ evs, ev.stops = false)
    (hwait : ∀ k, o = .wait k → ∃ evs' ev, evs = evs' ++ [ev] ∧ ev.stops = true) :
    wp (finish o) (fun r s' => (s'.core.thread s'.core.curr).status = .running ∧
      ((∃ reply, o = .done reply ∧ r = some reply ∧ CoreRun c evs s'.core) ∨
        ∃ k p, o = .wait k ∧ r = none ∧ CoreRun c (evs ++ [.dispatch p]) s'.core))
      (fun _ => True) s := by
  refine (finish_spec o ?_).imp ?_
  · rintro k rfl
    obtain ⟨evs', ev, rfl, hev⟩ := hwait k rfl
    exact hevs.stopped hs hev
  · rintro r s' (⟨reply, rfl, rfl, hs'⟩ | ⟨k, p, rfl, rfl, hdisp, hrun'⟩)
    · have hend : CoreRun c evs s'.core := hs' ▸ hevs
      exact ⟨hend.still hs (hdone _ rfl) hrun, Or.inl ⟨reply, rfl, rfl, hend⟩⟩
    · exact ⟨hrun', Or.inr ⟨k, p, rfl, rfl, hevs.trans hdisp⟩⟩

/-- What the kernel does on an event before it replies or calls `schedule`; input from the
serial port does neither. -/
def enter : Event → KernelM (Option Outcome)
  | .call c junk => do
    update fun s => { s with fs := { s.fs with junk := junk } }
    let o ← do_syscall c
    pure (some o)
  | .resume => do
    let curr ← proc_curr
    let proc ← getProc curr
    let o ← goOn proc.kont
    pure (some o)
  | .timer => do
    update fun s => { s with tick := s.tick + 1 }
    let o ← proc_yield .user
    pure (some o)
  | .serial bs => do
    serial_handle bs
    pure none

theorem handle_eq (e : Event) : handle e = (enter e >>= fun
    | some o => finish o
    | none => pure none) := by
  cases e with
  | call | resume | timer | serial => simp only [handle, enter, bind_assoc, pure_bind]

theorem Core.Acts.running {e : Event} {r : Reply} {evs : List CoreEvent}
    (h : c.Acts e (.done r) evs) : ∀ ev ∈ evs, ev.stops = false := by
  cases h with
  | call ha => exact ha.running
  | resume ha => exact ha.running

theorem Core.Acts.stops {e : Event} {evs : List CoreEvent} (h : c.Acts e (.wait k) evs) :
    ∃ evs' ev, evs = evs' ++ [ev] ∧ ev.stops = true := by
  cases h with
  | call ha => exact ha.stops
  | resume ha => exact ha.stops
  | timer => exact ⟨[], _, rfl, rfl⟩

/-- On an event the kernel does a run of events, and goes on as it says. -/
theorem enter_spec (hs : s.core.Sound) (hrun : (s.core.thread s.core.curr).status = .running)
    {e : Event} (he : s.Enabled e) :
    wp (enter e) (fun o s' => match o with
      | some o => ∃ evs, s.core.Acts e o evs ∧ CoreRun s.core evs (s'.core.goto o.kont)
      | none => (∃ bs, e = .serial bs) ∧ Given s.core s'.core) (fun _ => True) s := by
  cases e with
  | call call junk =>
    obtain ⟨huser, hzero⟩ := he
    have hk : (s.core.thread s.core.curr).kont = .user := huser
    rw [enter, wp_bind, wp_update, wp_bind]
    refine (do_syscall_spec (s := { s with fs := { s.fs with junk := junk } })
      ⟨hrun, hk ▸ by simp, hzero⟩ hk call).imp ?_
    rintro o s₁ ⟨evs, ha, hevs⟩
    exact ⟨evs, .call ha, hevs⟩
  | resume =>
    have huser : (s.core.thread s.core.curr).kont ≠ .user := he
    have hzero : s.core.curr ≠ 0 := by
      intro heq
      exact huser (heq ▸ hs.turns.zeroUser)
    rw [enter, wp_bind, proc_curr, wp_read, wp_bind, wp_getProc, wp_bind]
    refine (goOn_spec hrun hzero).imp ?_
    rintro o s₁ ⟨evs, ha, hevs⟩
    exact ⟨evs, .resume ha, hevs⟩
  | timer =>
    have huser : (s.core.thread s.core.curr).kont = .user := he
    rw [enter, wp_bind, wp_update, wp_bind]
    refine (proc_yield_spec .user).imp ?_
    rintro o s₁ ⟨rfl, hs₁⟩
    refine ⟨_, .timer, ?_⟩
    rw [Outcome.kont, hs₁]
    exact Lts.Run.single (Core.Step.yield hrun (Or.inl ⟨rfl, huser⟩))
  | serial bs =>
    rw [enter, wp_bind]
    refine (serial_handle_spec bs).imp ?_
    rintro - s' hgives
    exact ⟨⟨bs, rfl⟩, hgives⟩

/-- **Every step of the machine is a run of events.** -/
theorem Kernel.step_core {l : Label} (hs : s.core.Sound)
    (hrun : (s.core.thread s.core.curr).status = .running) (hstep : s.step l s') :
    ∃ evs, s.core.Moves l evs ∧ CoreRun s.core evs s'.core ∧
      (s'.core.thread s'.core.curr).status = .running := by
  obtain ⟨pid, event, reply⟩ := l
  obtain ⟨-, henabled, hok⟩ := hstep
  have hspec : wp (handle event) (fun r s' => ∃ evs, s.core.Moves ⟨pid, event, r⟩ evs ∧
      CoreRun s.core evs s'.core ∧ (s'.core.thread s'.core.curr).status = .running)
      (fun _ => True) s := by
    rw [handle_eq, wp_bind]
    refine (enter_spec hs hrun henabled).imp ?_
    rintro (_ | o) s₁ henter
    · obtain ⟨⟨bs, rfl⟩, n, hgives⟩ := henter
      refine ⟨_, .serial, hgives, hgives.still hs (fun ev hev => ?_) hrun⟩
      rw [List.eq_of_mem_replicate hev]
      rfl
    · obtain ⟨evs, hacts, hevs⟩ := henter
      refine (finish_run hs hrun hevs ?_ ?_).imp ?_
      · rintro r rfl
        exact hacts.running
      · rintro k rfl
        exact hacts.stops
      · rintro r s' ⟨hrun', ⟨reply, rfl, rfl, hend⟩ | ⟨k, p, rfl, rfl, hend⟩⟩
        · exact ⟨evs, .reply hacts, hend, hrun'⟩
        · exact ⟨_, .wait hacts, hend, hrun'⟩
  exact hspec.of_ok hok

end Oslab
