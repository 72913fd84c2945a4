/-
# System calls

`serial.c`, `loader.c`, `syscall.c` and `main.c` as far as the tables of the
kernel go. A system call either replies or has given up the processor, and then
says where it goes on. Strings from user memory have no zero byte in them; what
is loaded into user memory and what is put on the screen is left out.
-/
import Oslab.Kernel

namespace Oslab

open Lib Lib.Prog

/-- What a system call returns, with the bytes it has delivered. -/
inductive Reply
  /-- a number -/
  | int (r : ℤ)
  /-- the bytes read -/
  | bytes (bs : List UInt8)
  /-- type, size and inode number -/
  | stat (type : UInt32) (size node : ℕ)
  /-- the child reaped and its exit code -/
  | child (pid code : ℤ)
  /-- a new program runs -/
  | loaded

/-- Whether a system call is over. -/
inductive Outcome
  | done (r : Reply)
  | wait (k : Kont)

/-- A system call and its arguments. -/
inductive Call
  | write (fd : ℤ) (buf : List UInt8)
  | read (fd : ℤ) (count : ℕ)
  | sleep (ticks : UInt32)
  | exec (path : CString)
  | getpid
  | yield
  | fork
  | exit (status : ℤ)
  | wait
  | sem_open (value : ℤ)
  | sem_p (sem_id : ℤ)
  | sem_v (sem_id : ℤ)
  | sem_close (sem_id : ℤ)
  | open (path : CString) (mode : ℕ)
  | close (fd : ℤ)
  | dup (fd : ℤ)
  | lseek (fd : ℤ) (off : UInt32) (whence : ℕ)
  | fstat (fd : ℤ)
  | chdir (path : CString)
  | unlink (path : CString)

/-- The reply of a call that returns a number; one that returns nothing replies with `0`. -/
def ret (r : ℤ) : KernelM Outcome := pure (.done (.int r))

/-! ### The serial port -/

def modSerial (f : Serial → Serial) : KernelM Unit := update fun s => { s with serial := f s.serial }

def push_back (ch : UInt8) : KernelM Unit := do
  modSerial fun b => { b with
    buffer := Function.update b.buffer (b.tail % BUFFER_SIZE) ch
    tail := b.tail + 1 }
  if ch = NEWLINE then
    let b ← read Kernel.serial
    loop (fun _ _ => sem_v .serial) (List.range (b.tail - b.clapboard)) ()
    modSerial fun b => { b with clapboard := b.tail }

def pop_back : KernelM Unit := modSerial fun b =>
  if b.tail > b.clapboard then { b with tail := b.tail - 1 } else b

def pop_front : KernelM UInt8 := do
  let b ← read Kernel.serial
  if b.clapboard > b.head then
    modSerial fun b => { b with head := b.head + 1 }
    pure (b.buffer (b.head % BUFFER_SIZE))
  else pure 0

/-- `serial_handle`, on the characters that have come in. -/
def serial_handle : List UInt8 → KernelM Unit
  | [] => pure ()
  | ch :: rest =>
    if ch = 0 then serial_handle rest
    else if ch = 0x1b then pure ()
    else if ch = 8 ∨ ch = 0x7f then do
      pop_back
      serial_handle rest
    else do
      let ch := if ch = 13 then NEWLINE else ch
      if ch = NEWLINE ∨ 32 ≤ ch ∧ ch < 127 then push_back ch
      serial_handle rest

/-- The end of `getchar`, after its `sem_p`. -/
def getcharEnd : KernelM UInt8 := do
  let ch ← pop_front
  assert (ch ≠ 0) .noChar
  pure ch

/-- `serial_read`: `n` more characters, with `got` read before. -/
def serial_read : ℕ → List UInt8 → KernelM Outcome
  | 0, got => pure (.done (.bytes got))
  | n + 1, got => do
    if ← sem_p .serial then pure (.wait (.getchar n got))
    else
      let ch ← getcharEnd
      if ch = NEWLINE then pure (.done (.bytes (got ++ [ch])))
      else serial_read n (got ++ [ch])

/-! ### Loading a program -/

/-- The bytes of a structure in memory. -/
def half (bs : List UInt8) (i : ℕ) : ℕ := (bs.getD i 0).toNat + 256 * (bs.getD (i + 1) 0).toNat

def wordOf (bs : List UInt8) (i : ℕ) : UInt32 := (Mem.ofList bs).word i

abbrev ELF_MAGIC : UInt32 := 0x464c457f
abbrev PT_LOAD : UInt32 := 1
abbrev EHDR_SIZE : ℕ := 52
abbrev PHDR_SIZE : ℕ := 32

/-- A structure after its first bytes have been read into it. -/
def fill (old bs : List UInt8) : List UInt8 := bs ++ old.drop bs.length

/-- The entry point, or `-1` as an unsigned number. -/
def load_elf (name : List UInt8) : KernelM UInt32 := do
  match ← kopen name TYPE_NONE with
  | none => pure (-1)
  | some inode => do
    let junk ← read fun s => s.fs.junk
    let bs ← inFs (iread inode 0 EHDR_SIZE)
    let elf := fill (junk.slice 0 EHDR_SIZE) bs
    if wordOf elf 0 ≠ ELF_MAGIC then
      inFs (iclose inode)
      pure (-1)
    else
      let _ ← loop (fun i ph => do
        let bs ← inFs (iread inode (wordOf elf 28 + UInt32.ofNat (i * PHDR_SIZE)).toNat PHDR_SIZE)
        let ph := fill ph bs
        if wordOf ph 0 = PT_LOAD then
          let _ ← inFs (iread inode (wordOf ph 4).toNat (wordOf ph 16).toNat)
          pure ph
        else pure ph) (List.range (half elf 44)) (junk.slice EHDR_SIZE PHDR_SIZE)
      inFs (iclose inode)
      pure (wordOf elf 24)

/-- Whether a program is loaded. -/
def load_user (name : List UInt8) : KernelM Bool := do
  let eip ← load_elf name
  pure (eip ≠ -1)

/-! ### The system calls -/

def fread (k : FilePtr) (size : ℕ) : KernelM Outcome := do
  let file ← getFile k
  if file.readable = false then ret (-1)
  else if file.type = TYPE_FILE ∨ file.type = TYPE_DIR then
    let inode ← deref file.inode
    let bs ← inFs (iread inode file.offset.toNat size)
    modFile k fun f => { f with offset := f.offset + UInt32.ofNat bs.length }
    pure (.done (.bytes bs))
  else if file.type = TYPE_DEV then
    match ← deref file.dev_op with
    | .serial => serial_read size []
    | .null => ret (-1)
  else ret (-1)

def fwrite (k : FilePtr) (buf : List UInt8) : KernelM Outcome := do
  let file ← getFile k
  if file.writable = false then ret (-1)
  else if file.type = TYPE_FILE ∨ file.type = TYPE_DIR then
    let inode ← deref file.inode
    let write_size ← inFs (iwrite inode file.offset.toNat buf)
    if write_size ≠ -1 then
      modFile k fun f => { f with offset := f.offset + UInt32.ofNat write_size.toNat }
    ret write_size
  else if file.type = TYPE_DEV then
    let _ ← deref file.dev_op
    ret buf.length
  else ret (-1)

def sys_write (fd : ℤ) (buf : List UInt8) : KernelM Outcome := do
  let curr ← proc_curr
  match ← proc_getfile curr fd with
  | none => ret (-1)
  | some (_, file) => fwrite file buf

def sys_read (fd : ℤ) (count : ℕ) : KernelM Outcome := do
  let curr ← proc_curr
  match ← proc_getfile curr fd with
  | none => ret (-1)
  | some (_, file) => fread file count

/-- The current process gives up the processor and goes on at `k`. -/
def proc_yield (k : Kont) : KernelM Outcome := do
  let curr ← proc_curr
  proc_addready curr
  pure (.wait k)

/-- The loop of `sys_sleep`. -/
def sleepLoop (start ticks : UInt32) : KernelM Outcome := do
  let tick ← read Kernel.tick
  if start + ticks > tick then proc_yield (.sleep start ticks)
  else ret 0

def sys_sleep (ticks : UInt32) : KernelM Outcome := do
  let start ← read Kernel.tick
  sleepLoop start ticks

def sys_exec (path : List UInt8) : KernelM Outcome := do
  if ← load_user path then pure (.done .loaded)
  else ret (-1)

def sys_getpid : KernelM Outcome := do
  let curr ← proc_curr
  let proc ← getProc curr
  ret proc.pid

def sys_fork : KernelM Outcome := do
  match ← proc_alloc with
  | none => ret (-1)
  | some p => do
    proc_copycurr p
    proc_addready p
    let proc ← getProc p
    ret proc.pid

def sys_exit (status : ℤ) : KernelM Outcome := do
  let curr ← proc_curr
  proc_makezombie curr status
  pure (.wait .exited)

/-- The loop of `sys_wait`, after its `sem_p`. -/
def waitLoop : KernelM Outcome := do
  let curr ← proc_curr
  match ← proc_findzombie curr with
  | none => proc_yield .wait
  | some child => do
    modProc curr fun pr => { pr with child_num := pr.child_num - 1 }
    let zombie_child ← getProc child
    proc_free child
    pure (.done (.child zombie_child.pid zombie_child.exit_code))

def sys_wait : KernelM Outcome := do
  let curr ← proc_curr
  let proc ← getProc curr
  if proc.child_num = 0 then ret (-1)
  else if ← sem_p (.zombie curr) then pure (.wait .wait)
  else waitLoop

def sys_sem_open (value : ℤ) : KernelM Outcome := do
  let curr ← proc_curr
  match ← proc_allocusem curr with
  | none => ret (-1)
  | some sem_id => do
    match ← usem_alloc value with
    | none => ret (-1)
    | some usem => do
      setUsem curr sem_id (some usem)
      ret sem_id.val

def sys_sem_p (sem_id : ℤ) : KernelM Outcome := do
  let curr ← proc_curr
  match ← proc_getusem curr sem_id with
  | none => ret (-1)
  | some (_, usem) => do
    if ← sem_p (.user usem) then pure (.wait (.ret 0))
    else ret 0

def sys_sem_v (sem_id : ℤ) : KernelM Outcome := do
  let curr ← proc_curr
  match ← proc_getusem curr sem_id with
  | none => ret (-1)
  | some (_, usem) => do
    sem_v (.user usem)
    ret 0

def sys_sem_close (sem_id : ℤ) : KernelM Outcome := do
  let curr ← proc_curr
  match ← proc_getusem curr sem_id with
  | none => ret (-1)
  | some (id, usem) => do
    usem_close usem
    setUsem curr id none
    ret 0

def sys_open (path : List UInt8) (mode : ℕ) : KernelM Outcome := do
  let curr ← proc_curr
  match ← proc_allocfile curr with
  | none => ret (-1)
  | some fd => do
    match ← fopen path mode with
    | none => ret (-1)
    | some file => do
      setFd curr fd (some file)
      ret fd.val

def sys_close (fd : ℤ) : KernelM Outcome := do
  let curr ← proc_curr
  match ← proc_getfile curr fd with
  | none => ret (-1)
  | some (fd, file) => do
    fclose file
    setFd curr fd none
    ret 0

def sys_dup (fd : ℤ) : KernelM Outcome := do
  let curr ← proc_curr
  match ← proc_getfile curr fd with
  | none => ret (-1)
  | some (_, file) => do
    match ← proc_allocfile curr with
    | none => ret (-1)
    | some new_fd => do
      let file ← fdup file
      setFd curr new_fd (some file)
      ret new_fd.val

def sys_lseek (fd : ℤ) (off : UInt32) (whence : ℕ) : KernelM Outcome := do
  let curr ← proc_curr
  match ← proc_getfile curr fd with
  | none => ret (-1)
  | some (_, file) => do
    let off ← fseek file off whence
    ret off.toBitVec.toInt

def sys_fstat (fd : ℤ) : KernelM Outcome := do
  let curr ← proc_curr
  match ← proc_getfile curr fd with
  | none => ret (-1)
  | some (_, k) => do
    let file ← getFile k
    if file.type = TYPE_FILE ∨ file.type = TYPE_DIR then
      let inode ← deref file.inode
      let ip ← inFs (getInode inode)
      pure (.done (.stat ip.dinode.type ip.dinode.size.toNat ip.no))
    else if file.type = TYPE_DEV then pure (.done (.stat TYPE_DEV 0 0))
    else ret 0

def sys_chdir (path : List UInt8) : KernelM Outcome := do
  let curr ← proc_curr
  match ← kopen path TYPE_NONE with
  | none => ret (-1)
  | some inode => do
    let type ← inFs (itype inode)
    if type ≠ TYPE_DIR then
      inFs (iclose inode)
      ret (-1)
    else
      let proc ← getProc curr
      let cwd ← deref proc.cwd
      inFs (iclose cwd)
      modProc curr fun pr => { pr with cwd := some inode }
      ret 0

def sys_unlink (path : List UInt8) : KernelM Outcome := do
  let curr ← proc_curr
  let proc ← getProc curr
  let r ← inFs (iremove proc.cwd path)
  ret r

/-- `do_syscall` -/
def do_syscall : Call → KernelM Outcome
  | .write fd buf => sys_write fd buf
  | .read fd count => sys_read fd count
  | .sleep ticks => sys_sleep ticks
  | .exec path => sys_exec path
  | .getpid => sys_getpid
  | .yield => proc_yield (.ret 0)
  | .fork => sys_fork
  | .exit status => sys_exit status
  | .wait => sys_wait
  | .sem_open value => sys_sem_open value
  | .sem_p sem_id => sys_sem_p sem_id
  | .sem_v sem_id => sys_sem_v sem_id
  | .sem_close sem_id => sys_sem_close sem_id
  | .open path mode => sys_open path mode
  | .close fd => sys_close fd
  | .dup fd => sys_dup fd
  | .lseek fd off whence => sys_lseek fd off whence
  | .fstat fd => sys_fstat fd
  | .chdir path => sys_chdir path
  | .unlink path => sys_unlink path

/-- What a process does when it runs again inside the kernel. -/
def goOn : Kont → KernelM Outcome
  | .user | .exited => abort .hang
  | .ret r => ret r
  | .wait => waitLoop
  | .sleep start ticks => sleepLoop start ticks
  | .getchar n got => do
    let ch ← getcharEnd
    if ch = NEWLINE then pure (.done (.bytes (got ++ [ch])))
    else serial_read n (got ++ [ch])

/-! ### Starting -/

def init_proc : KernelM Unit := do
  modProc 0 fun pr => { pr with status := .running, zombie_sem := sem_init 0 }
  let cwd ← inFs (iopen none [SLASH] TYPE_NONE)
  let curr ← proc_curr
  modProc curr fun pr => { pr with cwd := cwd }

/-- "/dev" -/
abbrev DEV : List UInt8 := [47, 100, 101, 118]
/-- "/dev/serial" -/
abbrev DEV_SERIAL : List UInt8 := DEV ++ [47, 115, 101, 114, 105, 97, 108]
/-- "/dev/null" -/
abbrev DEV_NULL : List UInt8 := DEV ++ [47, 110, 117, 108, 108]
/-- "sh" -/
abbrev SH : List UInt8 := [115, 104]

def init_dev : KernelM Unit := do
  let dev ← kopen DEV TYPE_DIR
  let dev ← deref dev
  inFs (iclose dev)
  let curr ← proc_curr
  let proc ← getProc curr
  inFs (iadddev proc.cwd DEV_SERIAL 0)
  let proc ← getProc curr
  inFs (iadddev proc.cwd DEV_NULL 1)

def init_user_and_go : KernelM Unit := do
  match ← proc_alloc with
  | none => abort .null
  | some proc => do
    let loaded ← load_user SH
    assert (loaded = true) .noShell
    let cwd ← kopen [SLASH] TYPE_NONE
    modProc proc fun pr => { pr with cwd := cwd }
    proc_addready proc

def main : KernelM Unit := do
  inFs init_fs
  init_proc
  init_dev
  init_user_and_go

end Oslab
