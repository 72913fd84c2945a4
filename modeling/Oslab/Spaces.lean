/-
# Processes and their address spaces

What `sys_brk`, `sys_exec` and `sys_fork` do to memory. Of a process control
block there is the address space, the kernel stack and the break. Between system
calls processes are switched, and they write to their pages as they like; what the
kernel keeps on its stacks, the contexts among it, is written by steps of its own.
-/
import Oslab.Isolation
import Oslab.LoaderSpec

namespace Oslab

open Lib Lib.Prog

/-- The memory of a process; `used` is whether its status is not `UNUSED`. -/
structure Space where
  used : Bool
  pgdir : ℕ
  kstack : ℕ
  brk : ℕ

/-- Memory and the process table. -/
structure Spaces where
  vm : Vm
  pcb : ProcPtr → Space
  curr : ProcPtr

abbrev SpacesM := Prog Abort Spaces

namespace Spaces

def inVm {α : Type} (m : VmM α) : SpacesM α := zoom vm (fun vm x => { x with vm := vm }) m

def getSpace (p : ProcPtr) : SpacesM Space := read fun x => x.pcb p

def setSpace (p : ProcPtr) (space : Space) : SpacesM Unit :=
  update fun x => { x with pcb := Function.update x.pcb p space }

def proc_curr : SpacesM ProcPtr := read curr

def init_proc : SpacesM Unit := do
  let pgdir ← inVm vm_curr
  let space ← getSpace 0
  setSpace 0 { space with used := true, pgdir := pgdir }

def proc_alloc (L : Statics) : SpacesM (Option ProcPtr) := do
  let pcb ← read pcb
  match (List.finRange PROC_NUM).find? fun i => i ≠ 0 ∧ (pcb i).used = false with
  | none => pure none
  | some p => do
    let pgdir ← inVm (vm_alloc L)
    let kstack ← inVm kalloc
    setSpace p ⟨true, pgdir, kstack, 0⟩
    pure (some p)

/-- A process that does not run is taken out of the table. -/
def proc_free (p : ProcPtr) : SpacesM Unit := do
  let space ← getSpace p
  setSpace p { space with used := false }

def proc_run (p : ProcPtr) : SpacesM Unit := do
  let space ← getSpace p
  update fun x => { x with curr := p }
  inVm (set_cr3 space.pgdir)

def proc_copycurr (p : ProcPtr) : SpacesM Unit := do
  let space ← getSpace p
  inVm (vm_copycurr space.pgdir)
  let curr ← proc_curr
  let parent ← getSpace curr
  setSpace p { space with brk := parent.brk }

def sys_brk (addr : ℕ) : SpacesM Unit := do
  let curr ← proc_curr
  let space ← getSpace curr
  let new_brk := PAGE_UP addr
  if space.brk = 0 then setSpace curr { space with brk := new_brk }
  else if space.brk < new_brk then
    let pgdir ← inVm vm_curr
    inVm (vm_map pgdir space.brk (new_brk - space.brk) 7)
    setSpace curr { space with brk := new_brk }
  else pure ()

/-- Whether the program is loaded; if it is, it runs now. -/
def sys_exec (L : Statics) (image : Image) : SpacesM Bool := do
  let new_pgdir ← inVm (vm_alloc L)
  match ← inVm (Vm.load_user new_pgdir image.file image.junk image.argv) with
  | none => pure false
  | some _ => do
    let curr ← proc_curr
    let space ← getSpace curr
    setSpace curr { space with pgdir := new_pgdir }
    inVm (set_cr3 new_pgdir)
    pure true

/-- The new process. -/
def sys_fork (L : Statics) : SpacesM (Option ProcPtr) := do
  match ← proc_alloc L with
  | none => pure none
  | some p => do
    proc_copycurr p
    pure (some p)

/-- From `init_page` to the first program. -/
def main (L : Statics) (sh : Image) : SpacesM Unit := do
  inVm (init_page L)
  init_proc
  match ← proc_alloc L with
  | none => abort .null
  | some p => do
    let space ← getSpace p
    let ctx ← inVm (Vm.load_user space.pgdir sh.file sh.junk sh.argv)
    assert (ctx.isSome = true) .noShell

end Spaces

/-- What happens to the address spaces. -/
inductive SpaceEvent
  | brk (addr : ℕ)
  | exec (image : Image) (loaded : Bool)
  | fork (child : Option ProcPtr)
  | free (p : ProcPtr)
  /-- `schedule` lets `p` run -/
  | run (p : ProcPtr)
  /-- the current process writes to its pages -/
  | write (va : ℕ) (bs : List UInt8)
  /-- the kernel writes to the kernel stack of `p` -/
  | kwrite (p : ProcPtr) (k : ℕ) (bs : List UInt8)

open Spaces in
/-- One step that does not abort. -/
def Spaces.Step (L : Statics) (x : Spaces) : SpaceEvent → Spaces → Prop
  | .brk addr, x' => addr < ADDR_END ∧ sys_brk addr x = .ok ((), x')
  | .exec image loaded, x' => sys_exec L image x = .ok (loaded, x')
  | .fork child, x' => sys_fork L x = .ok (child, x')
  | .free p, x' => p ≠ x.curr ∧ proc_free p x = .ok ((), x')
  | .run p, x' => (x.pcb p).used = true ∧ proc_run p x = .ok ((), x')
  | .write va bs, x' => User va ∧ va + bs.length ≤ ADDR_END ∧ inVm (putBytes va bs) x = .ok ((), x')
  | .kwrite p k bs, x' => p ≠ 0 ∧ (x.pcb p).used = true ∧ k + bs.length ≤ PGSIZE ∧
      x' = { x with vm := { x.vm with mem := x.vm.mem.splice ((x.pcb p).kstack + k) bs } }

/-- The processes, from the first program on. -/
def spaces (L : Statics) : Lts Spaces SpaceEvent where
  init x := ∃ x₀ sh, sh.Tame ∧ ZeroPage x₀.vm.mem L.kpd ∧ (∀ p, x₀.pcb p = ⟨false, 0, 0, 0⟩) ∧
    x₀.curr = 0 ∧ Spaces.main L sh x₀ = .ok ((), x)
  step := Spaces.Step L

/-- No program that is loaded makes the loader write inside the kernel. -/
def SpaceEvent.Tame : SpaceEvent → Prop
  | .exec image _ => image.Tame
  | _ => True

end Oslab
