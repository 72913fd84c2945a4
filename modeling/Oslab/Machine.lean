/-
# The machine

One processor runs the current process. In user mode it may make a system call,
or the timer or the serial port interrupts it; inside the kernel it goes on where
it gave up the processor. A process that gives it up is followed by the next one
that is ready. Runs that abort have no next state.
-/
import Oslab.Lib.Transition
import Oslab.Syscall

namespace Oslab

open Lib Lib.Prog

/-- What happens next. -/
inductive Event
  /-- the current process makes a system call; `junk` is what is on the kernel stack -/
  | call (c : Call) (junk : Mem)
  /-- the current process goes on inside the kernel -/
  | resume
  /-- the timer interrupts the current process -/
  | timer
  /-- characters come in at the serial port -/
  | serial (bs : List UInt8)

/-- The process goes on at `k` when it runs again, and the next one that is ready runs now. -/
def switch (k : Kont) : KernelM Unit := do
  let curr ← proc_curr
  modProc curr fun pr => { pr with kont := k }
  schedule

/-- Finish a system call or leave the processor to another process. -/
def finish : Outcome → KernelM (Option Reply)
  | .done r => do
    let curr ← proc_curr
    modProc curr fun pr => { pr with kont := .user }
    pure (some r)
  | .wait k => do
    switch k
    pure none

/-- The kernel on one event, with the reply to the current process if there is one. -/
def handle : Event → KernelM (Option Reply)
  | .call c junk => do
    update fun s => { s with fs := { s.fs with junk := junk } }
    let o ← do_syscall c
    finish o
  | .resume => do
    let curr ← proc_curr
    let proc ← getProc curr
    let o ← goOn proc.kont
    finish o
  | .timer => do
    update fun s => { s with tick := s.tick + 1 }
    let o ← proc_yield .user
    finish o
  | .serial bs => do
    serial_handle bs
    pure none

/-- Whether an event can happen: only in user mode is there a call or an interrupt, and the
first process makes no calls. -/
def Kernel.Enabled (s : Kernel) : Event → Prop
  | .call _ _ => (s.pcb s.curr).kont = .user ∧ s.curr ≠ 0
  | .resume => (s.pcb s.curr).kont ≠ .user
  | .timer | .serial _ => (s.pcb s.curr).kont = .user

/-- A step as it is seen from outside: which process, what happens, and the reply. -/
structure Label where
  pid : ℤ
  event : Event
  reply : Option Reply

/-- One step of the kernel. -/
def Kernel.step (s : Kernel) (l : Label) (s' : Kernel) : Prop :=
  l.pid = (s.pcb s.curr).pid ∧ s.Enabled l.event ∧ handle l.event s = .ok (l.reply, s')

/-- The tables before `main`: everything is zero. -/
def Proc.zero : Proc := ⟨0, .unused, .user, none, 0, 0, sem_init 0, fun _ => none, fun _ => none, none⟩

def File.zero : File := ⟨0, 0, false, false, none, 0, none⟩

/-- The kernel before `main`, with a disk and something on its stack. -/
def Kernel.zero (disk junk : Mem) : Kernel where
  fs := ⟨⟨disk, fun _ => ⟨false, 0, fun _ => 0⟩⟩, ⟨0, 0, 0, 0⟩, fun _ => ⟨0, 0, false, .zero⟩, junk⟩
  files _ := .zero
  user_sem _ := ⟨sem_init 0, 0⟩
  pcb _ := .zero
  curr := 0
  next_pid := 1
  serial := ⟨fun _ => 0, 0, 0, 0, sem_init 0⟩
  tick := 0

/-- The kernel has started from the disk. -/
def Boots (disk : Mem) (s : Kernel) : Prop := ∃ junk, main (Kernel.zero disk junk) = .ok ((), s)

/-- The machine, started from a disk that meets `image`. -/
def machine (image : Mem → Prop) : Lts Kernel Label where
  init s := ∃ disk, image disk ∧ Boots disk s
  step := Kernel.step

end Oslab
