/-
# Calls that leave the tables alone

The links of the kernel are what the tables are about: the file system, the open
files, the counts of the semaphores and what every process refers to. Waiting,
waking and scheduling change none of them.
-/
import Oslab.Tables
import Oslab.CoreRefine

namespace Oslab

open Lib Lib.Prog

/-- What a process refers to. -/
@[ext] structure Held where
  usems : Fin MAX_USEM → Option UsemPtr
  files : Fin MAX_UFILE → Option FilePtr
  cwd : Option InodePtr

def Proc.held (pr : Proc) : Held := ⟨pr.usems, pr.files, pr.cwd⟩

/-- It refers to nothing. -/
def Held.nothing : Held := ⟨fun _ => none, fun _ => none, none⟩

/-- Everything the tables are about. -/
@[ext] structure Links where
  fs : Fs
  files : FilePtr → File
  usemRef : UsemPtr → ℤ
  held : ProcPtr → Held

def Kernel.links (s : Kernel) : Links :=
  ⟨s.fs, s.files, fun u => (s.user_sem u).ref, fun p => (s.pcb p).held⟩

variable {s s' : Kernel} {α : Type}

theorem Kernel.Tables.congr (h : s.Tables) (hl : s'.links = s.links) : s'.Tables := by
  have hfs : s'.fs = s.fs := congrArg Links.fs hl
  have hfiles : s'.files = s.files := congrArg Links.files hl
  have husems (u : UsemPtr) : (s'.user_sem u).ref = (s.user_sem u).ref :=
    congrFun (congrArg Links.usemRef hl) u
  have hheld (p : ProcPtr) : (s'.pcb p).held = (s.pcb p).held :=
    congrFun (congrArg Links.held hl) p
  have hfd : fdTable s'.pcb = fdTable s.pcb :=
    funext fun x => congrFun (congrArg Held.files (hheld x.1)) x.2
  have husem : usemTable s'.pcb = usemTable s.pcb :=
    funext fun x => congrFun (congrArg Held.usems (hheld x.1)) x.2
  have hcwd : cwdTable s'.pcb = cwdTable s.pcb := funext fun p => congrArg Held.cwd (hheld p)
  refine ⟨hfs ▸ h.fs, ?_, ?_, ?_, ?_, ?_⟩
  · rw [hfd, hfiles]
    exact h.fileRef
  · intro u
    rw [husem, husems u]
    exact h.usemRef u
  · rw [hfs, hfiles, hcwd]
    exact h.inodeRef
  · rw [hfs, hfiles]
    exact h.file
  · intro p j hp
    rw [hfs]
    exact h.cwd p j ((congrFun hcwd p).symm.trans hp)

/-! ### Changes of no link -/

theorem linked_modProc (p : ProcPtr) (f : Proc → Proc) (hf : ∀ pr, (f pr).held = pr.held) :
    Keeps Kernel.links (modProc p f) := by
  apply Keeps.update
  intro s
  ext1
  · rfl
  · rfl
  · rfl
  · funext q
    simp only [Kernel.links]
    by_cases hq : q = p
    · rw [hq, Function.update_self, hf]
    · rw [Function.update_of_ne hq]

theorem linked_setSem (sp : SemPtr) (sem : Sem) : Keeps Kernel.links (setSem sp sem) := by
  cases sp with
  | zombie p => exact linked_modProc p (fun pr => { pr with zombie_sem := sem }) fun _ => rfl
  | user u =>
    apply Keeps.update
    intro s
    ext1
    · rfl
    · rfl
    · funext v
      simp only [Kernel.links]
      by_cases hv : v = u
      · rw [hv, Function.update_self]
      · rw [Function.update_of_ne hv]
    · rfl
  | serial => exact Keeps.update fun _ => rfl

theorem linked_proc_addready (p : ProcPtr) : Keeps Kernel.links (proc_addready p) :=
  linked_modProc p _ fun _ => rfl

theorem linked_sem_p (sp : SemPtr) : Keeps Kernel.links (sem_p sp) := by
  refine Keeps.read.bind fun sem => Keeps.ite ?_ ?_
  · exact Keeps.read.bind fun curr => (linked_setSem _ _).bind fun _ =>
      (linked_modProc _ _ (by intro _; rfl)).bind fun _ => Keeps.pure _
  · exact (linked_setSem _ _).bind fun _ => Keeps.pure _

theorem linked_sem_v (sp : SemPtr) : Keeps Kernel.links (sem_v sp) := by
  refine Keeps.read.bind fun sem => ?_
  split
  · exact (linked_setSem _ _).bind fun _ => linked_proc_addready _
  · exact linked_setSem _ _

theorem linked_proc_yield (k : Kont) : Keeps Kernel.links (proc_yield k) :=
  Keeps.read.bind fun _ => (linked_proc_addready _).bind fun _ => Keeps.pure _

theorem linked_schedule : Keeps Kernel.links schedule := by
  refine Keeps.read.bind fun s => ?_
  split
  · exact (linked_modProc _ _ (by intro _; rfl)).bind fun _ => Keeps.update fun _ => rfl
  · exact Keeps.abort _

theorem linked_finish (o : Outcome) : Keeps Kernel.links (finish o) := by
  cases o with
  | done r =>
    exact Keeps.read.bind fun _ => (linked_modProc _ _ (by intro _; rfl)).bind fun _ => Keeps.pure _
  | wait k =>
    refine Keeps.bind (Keeps.read.bind fun _ => ?_) fun _ => Keeps.pure _
    exact (linked_modProc _ _ (by intro _; rfl)).bind fun _ => linked_schedule

/-! ### Processes -/

theorem linked_sleepLoop (start ticks : UInt32) : Keeps Kernel.links (sleepLoop start ticks) :=
  Keeps.read.bind fun _ => Keeps.ite (linked_proc_yield _) (Keeps.pure _)

theorem linked_waitLoop : Keeps Kernel.links waitLoop := by
  refine Keeps.read.bind fun curr => Keeps.read.bind fun child => ?_
  cases child with
  | none => exact linked_proc_yield _
  | some child =>
    refine (linked_modProc _ _ (by intro _; rfl)).bind fun _ => Keeps.read.bind fun _ => Keeps.bind ?_
      fun _ => Keeps.pure _
    exact Keeps.read.bind fun proc => Keeps.ite (linked_modProc _ _ (by intro _; rfl)) (Keeps.pure _)

theorem linked_sys_wait : Keeps Kernel.links sys_wait := by
  refine Keeps.read.bind fun curr => Keeps.read.bind fun proc => Keeps.ite (Keeps.pure _) ?_
  exact (linked_sem_p _).bind fun _ => Keeps.ite (Keeps.pure _) linked_waitLoop

theorem linked_sys_getpid : Keeps Kernel.links sys_getpid :=
  Keeps.read.bind fun _ => Keeps.read.bind fun _ => Keeps.pure _

theorem linked_sys_sem_p (sem_id : ℤ) : Keeps Kernel.links (sys_sem_p sem_id) := by
  refine Keeps.read.bind fun curr => Keeps.read.bind fun usem => ?_
  cases usem with
  | none => exact Keeps.pure _
  | some usem => exact (linked_sem_p _).bind fun _ => Keeps.ite (Keeps.pure _) (Keeps.pure _)

theorem linked_sys_sem_v (sem_id : ℤ) : Keeps Kernel.links (sys_sem_v sem_id) := by
  refine Keeps.read.bind fun curr => Keeps.read.bind fun usem => ?_
  cases usem with
  | none => exact Keeps.pure _
  | some usem => exact (linked_sem_v _).bind fun _ => Keeps.pure _

/-! ### The serial port -/

theorem linked_modSerial (f : Serial → Serial) : Keeps Kernel.links (modSerial f) :=
  Keeps.update fun _ => rfl

theorem linked_push_back (ch : UInt8) : Keeps Kernel.links (push_back ch) := by
  refine (linked_modSerial _).bind fun _ => Keeps.ite ?_ (Keeps.pure _)
  exact Keeps.read.bind fun b => (Keeps.loop (fun _ _ => linked_sem_v _) _ _).bind fun _ =>
    linked_modSerial _

theorem linked_serial_handle (bs : List UInt8) : Keeps Kernel.links (serial_handle bs) := by
  induction bs with
  | nil => exact Keeps.pure _
  | cons ch rest ih =>
    rw [serial_handle]
    refine Keeps.ite ih (Keeps.ite (Keeps.pure _) (Keeps.ite ?_ ?_))
    · exact (linked_modSerial _).bind fun _ => ih
    · exact Keeps.ite ((linked_push_back _).bind fun _ => ih) ih

theorem linked_getcharEnd : Keeps Kernel.links getcharEnd := by
  refine Keeps.bind (Keeps.read.bind fun b => Keeps.ite ?_ (Keeps.pure _)) fun ch =>
    (Keeps.assert _ _).bind fun _ => Keeps.pure _
  exact (linked_modSerial _).bind fun _ => Keeps.pure _

theorem linked_serial_read (n : ℕ) (got : List UInt8) : Keeps Kernel.links (serial_read n got) := by
  induction n generalizing got with
  | zero => exact Keeps.pure _
  | succ n ih =>
    rw [serial_read]
    refine (linked_sem_p _).bind fun blocked => Keeps.ite (Keeps.pure _) ?_
    exact linked_getcharEnd.bind fun ch => Keeps.ite (Keeps.pure _) (ih _)

theorem linked_goOn (k : Kont) : Keeps Kernel.links (goOn k) := by
  cases k with
  | user => exact Keeps.abort _
  | exited => exact Keeps.abort _
  | ret r => exact Keeps.pure _
  | wait => exact linked_waitLoop
  | sleep start ticks => exact linked_sleepLoop _ _
  | getchar n got =>
    exact linked_getcharEnd.bind fun ch => Keeps.ite (Keeps.pure _) (linked_serial_read _ _)

end Oslab
