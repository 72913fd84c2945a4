/-
# The tables of the kernel

The state of the kernel, with `sem.c`, `file.c` and `proc.c` in the order of the
source. A pointer to a file, a semaphore or a process is the number of its slot.
A process that has given up the processor inside the kernel goes on, when it is
scheduled again, at the place its `kont` names. Page directories and kernel
stacks are left out, and so are the nodes of wait lists: there are more of them
than processes, and a process waits in one list at most.
-/
import Oslab.Fs

namespace Oslab

open Lib Lib.Prog

abbrev TOTAL_FILE : ℕ := 128
abbrev USER_SEM_NUM : ℕ := 128
abbrev PROC_NUM : ℕ := 64
abbrev MAX_USEM : ℕ := 32
abbrev MAX_UFILE : ℕ := 32
abbrev BUFFER_SIZE : ℕ := 256
abbrev INT_MAX : ℤ := 2147483647

abbrev FilePtr := Fin TOTAL_FILE
abbrev UsemPtr := Fin USER_SEM_NUM
abbrev ProcPtr := Fin PROC_NUM

/-- There is a first process. -/
instance : NeZero PROC_NUM := ⟨by decide⟩

/-- The entries of `dev_table`. -/
inductive Dev
  | serial
  | null
  deriving DecidableEq, Repr

/-- `file_t` -/
structure File where
  type : UInt32
  ref : ℤ
  readable : Bool
  writable : Bool
  inode : Option InodePtr
  offset : UInt32
  dev_op : Option Dev

/-- `sem_t`; the process that waits longest is the head of the list -/
structure Sem where
  value : ℤ
  wait_list : List ProcPtr

/-- `usem_t` -/
structure Usem where
  sem : Sem
  ref : ℤ

inductive Status
  | unused
  | uninit
  | running
  | ready
  | zombie
  | blocked
  deriving DecidableEq, Repr

/-- Where a process goes on when it runs again. -/
inductive Kont
  /-- in user mode -/
  | user
  /-- at the end of a system call that returns `r` -/
  | ret (r : ℤ)
  /-- in the loop of `sys_wait` -/
  | wait
  /-- in the loop of `sys_sleep` -/
  | sleep (start ticks : UInt32)
  /-- in `getchar`, with `n` more characters wanted after this one, and `got` read before -/
  | getchar (n : ℕ) (got : List UInt8)
  /-- nowhere: the process has exited -/
  | exited
  deriving DecidableEq

/-- `proc_t` -/
structure Proc where
  pid : ℤ
  status : Status
  kont : Kont
  parent : Option ProcPtr
  child_num : ℤ
  exit_code : ℤ
  zombie_sem : Sem
  usems : Fin MAX_USEM → Option UsemPtr
  files : Fin MAX_UFILE → Option FilePtr
  cwd : Option InodePtr

/-- The line buffer of the serial port and its semaphore. -/
structure Serial where
  buffer : ℕ → UInt8
  head : ℕ
  tail : ℕ
  clapboard : ℕ
  serial_sem : Sem

/-- The state of the kernel. -/
structure Kernel where
  fs : Fs
  files : FilePtr → File
  user_sem : UsemPtr → Usem
  pcb : ProcPtr → Proc
  curr : ProcPtr
  next_pid : ℤ
  serial : Serial
  tick : UInt32

abbrev KernelM := Prog Abort Kernel

/-! ### Access to the tables -/

/-- Run an operation of the file system. -/
def inFs {α : Type} (m : FsM α) : KernelM α := zoom Kernel.fs (fun fs s => { s with fs := fs }) m

def getFile (k : FilePtr) : KernelM File := read fun s => s.files k

def modFile (k : FilePtr) (f : File → File) : KernelM Unit := update fun s =>
  { s with files := Function.update s.files k (f (s.files k)) }

def getProc (p : ProcPtr) : KernelM Proc := read fun s => s.pcb p

def modProc (p : ProcPtr) (f : Proc → Proc) : KernelM Unit := update fun s =>
  { s with pcb := Function.update s.pcb p (f (s.pcb p)) }

def setFd (p : ProcPtr) (fd : Fin MAX_UFILE) (k : Option FilePtr) : KernelM Unit :=
  modProc p fun pr => { pr with files := Function.update pr.files fd k }

def setUsem (p : ProcPtr) (id : Fin MAX_USEM) (u : Option UsemPtr) : KernelM Unit :=
  modProc p fun pr => { pr with usems := Function.update pr.usems id u }

def proc_curr : KernelM ProcPtr := read Kernel.curr

/-- A pointer that must not be null. -/
def deref {α : Type} : Option α → KernelM α
  | some a => pure a
  | none => abort .null

/-! ### Semaphores -/

/-- A pointer to a semaphore. -/
inductive SemPtr
  | zombie (p : ProcPtr)
  | user (u : UsemPtr)
  | serial
  deriving DecidableEq

def Kernel.sem (s : Kernel) : SemPtr → Sem
  | .zombie p => (s.pcb p).zombie_sem
  | .user u => (s.user_sem u).sem
  | .serial => s.serial.serial_sem

def setSem (sp : SemPtr) (sem : Sem) : KernelM Unit := update fun s =>
  match sp with
  | .zombie p => { s with pcb := Function.update s.pcb p { s.pcb p with zombie_sem := sem } }
  | .user u => { s with user_sem := Function.update s.user_sem u { s.user_sem u with sem := sem } }
  | .serial => { s with serial := { s.serial with serial_sem := sem } }

def sem_init (value : ℤ) : Sem := ⟨value, []⟩

def proc_addready (p : ProcPtr) : KernelM Unit := modProc p fun pr => { pr with status := .ready }

/-- Whether the caller has been blocked. -/
def sem_p (sp : SemPtr) : KernelM Bool := do
  let sem ← read fun s => s.sem sp
  if sem.value = 0 then
    let cur_proc ← proc_curr
    setSem sp { sem with wait_list := sem.wait_list ++ [cur_proc] }
    modProc cur_proc fun pr => { pr with status := .blocked }
    pure true
  else
    setSem sp { sem with value := sem.value - 1 }
    pure false

/-- The value is an integer here: that it may overflow as an `int` is not modelled. -/
def sem_v (sp : SemPtr) : KernelM Unit := do
  let sem ← read fun s => s.sem sp
  match sem.wait_list with
  | proc :: rest => do
    setSem sp { sem with wait_list := rest }
    proc_addready proc
  | [] => setSem sp { sem with value := sem.value + 1 }

def usem_alloc (value : ℤ) : KernelM (Option UsemPtr) := do
  let user_sem ← read Kernel.user_sem
  match (List.finRange USER_SEM_NUM).find? fun i => (user_sem i).ref = 0 with
  | some i => do
    update fun s => { s with user_sem := Function.update s.user_sem i ⟨sem_init value, 1⟩ }
    pure (some i)
  | none => pure none

def modUsemRef (u : UsemPtr) (f : ℤ → ℤ) : KernelM Unit := update fun s =>
  { s with user_sem :=
      Function.update s.user_sem u { s.user_sem u with ref := f (s.user_sem u).ref } }

def usem_dup (u : UsemPtr) : KernelM Unit := modUsemRef u (· + 1)

def usem_close (u : UsemPtr) : KernelM Unit := modUsemRef u (· - 1)

/-! ### Open files -/

def falloc : KernelM (Option FilePtr) := do
  let files ← read Kernel.files
  match (List.finRange TOTAL_FILE).find? fun i => (files i).ref = 0 with
  | some i => do
    modFile i fun f => { f with ref := f.ref + 1, type := TYPE_NONE }
    pure (some i)
  | none => pure none

/-- The current process opens a path. -/
def kopen (path : List UInt8) (type : UInt32) : KernelM (Option InodePtr) := do
  let curr ← proc_curr
  let proc ← getProc curr
  inFs (iopen proc.cwd path type)

def dev_get (id : ℤ) : Option Dev :=
  if id = 0 then some .serial else if id = 1 then some .null else none

def fclose (k : FilePtr) : KernelM Unit := do
  modFile k fun f => { f with ref := f.ref - 1 }
  let file ← getFile k
  if file.ref = 0 ∧ (file.type = TYPE_FILE ∨ file.type = TYPE_DIR) then
    let inode ← deref file.inode
    inFs (iclose inode)

def fopen (path : List UInt8) (mode : ℕ) : KernelM (Option FilePtr) := do
  match ← falloc with
  | none => pure none
  | some fp =>
    let open_type :=
      if mode &&& O_CREATE ≠ 0 then if mode &&& O_DIR ≠ 0 then TYPE_DIR else TYPE_FILE
      else TYPE_NONE
    match ← kopen path open_type with
    | none => do
      fclose fp
      pure none
    | some ip => do
      let type ← inFs (itype ip)
      if type = TYPE_FILE ∨ type = TYPE_DIR then
        if type ≠ TYPE_DIR ∧ mode &&& O_DIR ≠ 0 ∨ type = TYPE_DIR ∧
            (mode &&& O_WRONLY ≠ 0 ∨ mode &&& O_RDWR ≠ 0 ∨ mode &&& O_TRUNC ≠ 0) then
          fclose fp
          inFs (iclose ip)
          pure none
        else
          if mode &&& O_TRUNC ≠ 0 then inFs (itrunc ip)
          modFile fp fun f => { f with type := TYPE_FILE, inode := some ip, offset := 0 }
          modFile fp fun f => { f with
            readable := mode &&& O_WRONLY = 0
            writable := mode &&& O_WRONLY ≠ 0 ∨ mode &&& O_RDWR ≠ 0 }
          pure (some fp)
      else if type = TYPE_DEV then
        let id ← inFs (idevid ip)
        modFile fp fun f => { f with type := TYPE_DEV, dev_op := dev_get id }
        inFs (iclose ip)
        modFile fp fun f => { f with
          readable := mode &&& O_WRONLY = 0
          writable := mode &&& O_WRONLY ≠ 0 ∨ mode &&& O_RDWR ≠ 0 }
        pure (some fp)
      else abort .badType

def fdup (k : FilePtr) : KernelM FilePtr := do
  modFile k fun f => { f with ref := f.ref + 1 }
  pure k

/-- The new offset, or `-1` as an unsigned number. -/
def fseek (k : FilePtr) (off : UInt32) (whence : ℕ) : KernelM UInt32 := do
  let file ← getFile k
  if file.type = TYPE_FILE ∨ file.type = TYPE_DIR then
    if whence = SEEK_SET then modFile k fun f => { f with offset := off }
    else if whence = SEEK_CUR then modFile k fun f => { f with offset := f.offset + off }
    else if whence = SEEK_END then
      let inode ← deref file.inode
      let size ← inFs (isize inode)
      modFile k fun f => { f with offset := UInt32.ofNat size + off }
    let file ← getFile k
    pure file.offset
  else pure (-1)

/-! ### Processes -/

/-- `proc_alloc`; the number of a process that does not fit an `int` has no meaning in C -/
def proc_alloc : KernelM (Option ProcPtr) := do
  let pcb ← read Kernel.pcb
  match (List.finRange PROC_NUM).find? fun i => i ≠ 0 ∧ (pcb i).status = .unused with
  | none => pure none
  | some i => do
    let pid ← read Kernel.next_pid
    assert (pid < INT_MAX) .overflow
    update fun s => { s with next_pid := pid + 1 }
    modProc i fun pr => { pr with
      pid := pid
      status := .uninit
      kont := .user
      cwd := none
      parent := none
      child_num := 0
      zombie_sem := sem_init 0
      usems := fun _ => none
      files := fun _ => none }
    pure (some i)

def proc_free (p : ProcPtr) : KernelM Unit := do
  let proc ← getProc p
  if proc.status ≠ .running then
    modProc p fun pr => { pr with status := .unused }

def proc_copycurr (p : ProcPtr) : KernelM Unit := do
  let curr ← proc_curr
  modProc curr fun pr => { pr with child_num := pr.child_num + 1 }
  modProc p fun pr => { pr with parent := some curr }
  let parent ← getProc curr
  let cwd ← deref parent.cwd
  let cwd ← inFs (idup cwd)
  modProc p fun pr => { pr with cwd := some cwd }
  loop (fun i _ => do
    let parent ← getProc curr
    match parent.usems i with
    | some u => do
      setUsem p i (some u)
      usem_dup u
    | none => pure ()) (List.finRange MAX_USEM) ()
  loop (fun i _ => do
    let parent ← getProc curr
    match parent.files i with
    | some k => do
      setFd p i (some k)
      let _ ← fdup k
    | none => pure ()) (List.finRange MAX_UFILE) ()

def proc_makezombie (p : ProcPtr) (exitcode : ℤ) : KernelM Unit := do
  modProc p fun pr => { pr with status := .zombie, exit_code := exitcode }
  update fun s => { s with pcb := fun i =>
    if (s.pcb i).parent = some p then { s.pcb i with parent := none } else s.pcb i }
  let proc ← getProc p
  match proc.parent with
  | some parent => sem_v (.zombie parent)
  | none => pure ()
  loop (fun i _ => do
    let proc ← getProc p
    match proc.usems i with
    | some u => do
      usem_close u
      setUsem p i none
    | none => pure ()) (List.finRange MAX_USEM) ()
  loop (fun i _ => do
    let proc ← getProc p
    match proc.files i with
    | some k => do
      fclose k
      setFd p i none
    | none => pure ()) (List.finRange MAX_UFILE) ()
  let proc ← getProc p
  let cwd ← deref proc.cwd
  inFs (iclose cwd)
  modProc p fun pr => { pr with cwd := none }

def proc_findzombie (p : ProcPtr) : KernelM (Option ProcPtr) := read fun s =>
  (List.finRange PROC_NUM).find? fun i =>
    (s.pcb i).parent = some p ∧ (s.pcb i).status = .zombie

def proc_allocusem (p : ProcPtr) : KernelM (Option (Fin MAX_USEM)) := read fun s =>
  (List.finRange MAX_USEM).find? fun i => (s.pcb p).usems i = none

/-- An entry of a table, if the number is in its range. -/
def entry {α : Type} {n : ℕ} (table : Fin n → Option α) (i : ℤ) : Option (Fin n × α) :=
  if h : 0 ≤ i ∧ i < n then
    (table ⟨i.toNat, by omega⟩).map fun a => (⟨i.toNat, by omega⟩, a)
  else none

def proc_getusem (p : ProcPtr) (sem_id : ℤ) : KernelM (Option (Fin MAX_USEM × UsemPtr)) :=
  read fun s => entry (s.pcb p).usems sem_id

def proc_allocfile (p : ProcPtr) : KernelM (Option (Fin MAX_UFILE)) := read fun s =>
  (List.finRange MAX_UFILE).find? fun i => (s.pcb p).files i = none

def proc_getfile (p : ProcPtr) (fd : ℤ) : KernelM (Option (Fin MAX_UFILE × FilePtr)) :=
  read fun s => entry (s.pcb p).files fd

/-- The processes in the order in which `schedule` looks at them. -/
def nextProcs (curr : ProcPtr) : List ProcPtr :=
  (List.finRange PROC_NUM).map fun k => curr + 1 + k

/-- The next process that is ready runs. -/
def schedule : KernelM Unit := do
  let s ← read id
  match (nextProcs s.curr).find? fun p => (s.pcb p).status = .ready with
  | some p => do
    modProc p fun pr => { pr with status := .running }
    update fun s => { s with curr := p }
  | none => abort .hang

end Oslab
