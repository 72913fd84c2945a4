/-
# The program loader

`loader.c` on the memory of a new address space. The kernel writes at virtual
addresses, which the page tables of the current directory translate, so a program
header can make it write anywhere, and arguments that are too long for the stack
page run into what lies below its frame.
-/
import Oslab.Syscall
import Oslab.VmeSpec

namespace Oslab

open Lib Lib.Prog

abbrev MAX_ARGS_NUM : ℕ := 31

/-- The page of the stack of a new program. -/
abbrev STACK_PAGE : ℕ := USR_MEM - PGSIZE

/-- The kernel writes a byte at a virtual address. -/
def putByte (va : ℕ) (b : UInt8) : VmM Unit := do
  let s ← read id
  match s.walk (s.cr3 / PGSIZE) (va / PGSIZE) with
  | none => abort .pgfault
  | some frame =>
    update fun s => { s with mem := s.mem.splice (frame * PGSIZE + ADDR2OFF va) [b] }

/-- The kernel writes bytes from a virtual address on. -/
def putBytes : ℕ → List UInt8 → VmM Unit
  | _, [] => pure ()
  | va, b :: bs => do
    putByte va b
    putBytes ((va + 1) % ADDR_END) bs

/-- What `iread` reads from a file. -/
def readFile (file : List UInt8) (off len : ℕ) : List UInt8 := (file.drop off).take len

/-- The ELF header of the file, over what was in memory before. -/
def ehdrOf (file : List UInt8) (junk : Mem) : List UInt8 :=
  fill (junk.slice 0 EHDR_SIZE) (readFile file 0 EHDR_SIZE)

/-- Program header `i`, over the one before. -/
def nextPhdr (file elf ph : List UInt8) (i : ℕ) : List UInt8 :=
  fill ph (readFile file (wordOf elf 28 + UInt32.ofNat (i * PHDR_SIZE)).toNat PHDR_SIZE)

/-- One segment and the stack. -/
def loadSegment (pgdir : ℕ) (file ph : List UInt8) : VmM Unit := do
  let p_offset := (wordOf ph 4).toNat
  let p_vaddr := (wordOf ph 8).toNat
  let p_filesz := (wordOf ph 16).toNat
  let p_memsz := (wordOf ph 20).toNat
  vm_map pgdir p_vaddr p_memsz 7
  putBytes p_vaddr (readFile file p_offset p_filesz)
  putBytes ((p_vaddr + p_filesz) % ADDR_END)
    (List.replicate ((p_memsz + ADDR_END - p_filesz) % ADDR_END) 0)
  vm_map pgdir STACK_PAGE PGSIZE 7

namespace Vm

/-- `load_elf` on a file, if there is one of the name. -/
def load_elf (pgdir : ℕ) (file : Option (List UInt8)) (junk : Mem) : VmM UInt32 := do
  match file with
  | none => pure (-1)
  | some file => do
    let elf := ehdrOf file junk
    if wordOf elf 0 ≠ ELF_MAGIC then pure (-1)
    else
      let curr_pgdir ← vm_curr
      set_cr3 pgdir
      let _ ← loop (fun i ph => do
        let ph := nextPhdr file elf ph i
        if wordOf ph 0 = PT_LOAD then
          loadSegment pgdir file ph
          pure ph
        else pure ph) (List.range (half elf 44)) (junk.slice EHDR_SIZE PHDR_SIZE)
      set_cr3 curr_pgdir
      pure (wordOf elf 24)

/-- A pointer that is moved down. -/
def down (ptr n : ℕ) : ℕ := (ptr + ADDR_END - n) % ADDR_END

/-- The address in the new address space of what a pointer into the stack page points at. -/
def stackAddr (ptr : ℕ) : ℕ := STACK_PAGE + ADDR2OFF ptr

/-- Push the strings; the addresses of those that are there so far are in reverse order. -/
def pushArgs : List CString → ℕ → List ℕ → VmM (ℕ × List ℕ)
  | [], stack_top, argv_va => pure (stack_top, argv_va)
  | arg :: args, stack_top, argv_va => do
    assert (argv_va.length < MAX_ARGS_NUM) .tooManyArgs
    let stack_top := down stack_top (arg.1.length + 1)
    putBytes stack_top (arg.1 ++ [0])
    pushArgs args stack_top (stackAddr stack_top :: argv_va)

/-- Push words, one below the other. -/
def pushWords : List ℕ → ℕ → VmM ℕ
  | [], stack_top => pure stack_top
  | w :: ws, stack_top => do
    let stack_top := down stack_top 4
    putBytes stack_top (Mem.wordBytes (UInt32.ofNat w))
    pushWords ws stack_top

/-- Push everything the new program finds on its stack below `stack_top`. -/
def pushBlock (argv : List CString) (stack_top : ℕ) : VmM ℕ := do
  let (stack_top, argv_va) ← pushArgs argv stack_top []
  let stack_top := down stack_top (ADDR2OFF stack_top % 4)
  let stack_top ← pushWords (0 :: argv_va) stack_top
  let stack_top ← pushWords [stackAddr stack_top, argv.length] stack_top
  pure (stackAddr (down stack_top 4))

/-- The stack pointer of the new program. -/
def load_arg (pgdir : ℕ) (argv : List CString) : VmM ℕ := do
  let page ← vm_walk pgdir STACK_PAGE 7
  pushBlock argv (page.getD 0 + PGSIZE)

/-- The entry point and the stack pointer of the new program. -/
def load_user (pgdir : ℕ) (file : Option (List UInt8)) (junk : Mem) (argv : List CString) :
    VmM (Option (UInt32 × ℕ)) := do
  let eip ← load_elf pgdir file junk
  if eip = -1 then pure none
  else
    let esp ← load_arg pgdir argv
    pure (some (eip, esp))

end Vm

end Oslab
