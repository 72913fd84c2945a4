/-
# Virtual memory

`vme.c` with the macros of `x86/memory.h`. Physical memory is a byte at every
address. The kernel sees it at the same addresses below `PHY_MEM`, so a pointer
of the kernel is a physical address; the heap is a list of free pages that goes
through the pages themselves.
-/
import Oslab.Base

namespace Oslab

open Lib Lib.Prog

abbrev KER_MEM : ℕ := 0x00200000
abbrev PHY_MEM : ℕ := 0x08000000
abbrev USR_MEM : ℕ := 0xc0000000
abbrev PGSIZE : ℕ := 4096
abbrev NR_PTE : ℕ := 1024
abbrev PT_SIZE : ℕ := NR_PTE * PGSIZE
abbrev PTE_P : ℕ := 1

/-- Arithmetic on addresses is modulo this. -/
abbrev ADDR_END : ℕ := 2 ^ 32

def PAGE_DOWN (addr : ℕ) : ℕ := addr / PGSIZE * PGSIZE

def PAGE_UP (addr : ℕ) : ℕ := PAGE_DOWN ((addr + (PGSIZE - 1)) % ADDR_END)

def ADDR2DIR (addr : ℕ) : ℕ := addr / PT_SIZE

def ADDR2TBL (addr : ℕ) : ℕ := addr / PGSIZE % NR_PTE

def ADDR2OFF (addr : ℕ) : ℕ := addr % PGSIZE

/-- `MAKE_PTE` and `MAKE_PDE` -/
def MAKE_PTE (addr prot : ℕ) : UInt32 := UInt32.ofNat (PAGE_DOWN addr ||| prot ||| PTE_P)

/-- `PTE2PG` and `PDE2PT` -/
def PTE2PG (pte : UInt32) : ℕ := PAGE_DOWN pte.toNat

/-- The present bit of an entry. -/
def present (pte : UInt32) : Prop := pte &&& 1 ≠ 0

instance (pte : UInt32) : Decidable (present pte) := inferInstanceAs (Decidable (_ ≠ _))

/-- The page tables of the kernel: the pages of `kpd` and of `kpt`, which are static. -/
structure Statics where
  kpd : ℕ
  kpt : ℕ
  kpd_pos : 0 < kpd
  kpt_pos : 0 < kpt
  kpd_lt : kpd < KER_MEM / PGSIZE
  kpt_lt : kpt + PHY_MEM / PT_SIZE ≤ KER_MEM / PGSIZE
  apart : kpd < kpt ∨ kpt + PHY_MEM / PT_SIZE ≤ kpd

/-- Physical memory, the heap of the kernel and the current page directory. -/
structure Vm where
  mem : Mem
  free_page_list : ℕ
  cr3 : ℕ

abbrev VmM := Prog Abort Vm

def load (addr : ℕ) : VmM UInt32 := read fun s => s.mem.word addr

def store (addr : ℕ) (w : UInt32) : VmM Unit :=
  update fun s => { s with mem := s.mem.splice addr (Mem.wordBytes w) }

def memset (addr : ℕ) (v : UInt8) (n : ℕ) : VmM Unit :=
  update fun s => { s with mem := s.mem.fill addr n v }

def memcpy (dst src n : ℕ) : VmM Unit :=
  update fun s => { s with mem := s.mem.splice dst (s.mem.slice src n) }

def set_cr3 (pgdir : ℕ) : VmM Unit := update fun s => { s with cr3 := pgdir }

/-- The addresses of `n` pages from `addr` on. -/
@[irreducible] def pages (addr n : ℕ) : List ℕ := (List.range n).map fun k => addr + k * PGSIZE

/-- The number of pages of the heap. -/
abbrev HEAP_PAGES : ℕ := (PHY_MEM - KER_MEM) / PGSIZE

/-- The identity mapping of `init_page`. -/
@[irreducible] def initTables (L : Statics) : VmM Unit :=
  loop (fun i _ => do
    store (L.kpd * PGSIZE + 4 * i) (MAKE_PTE ((L.kpt + i) * PGSIZE) 3)
    loop (fun j _ =>
      store ((L.kpt + i) * PGSIZE + 4 * j) (MAKE_PTE (i <<< 22 ||| j <<< 12) 3))
      (List.range NR_PTE) ()) (List.range (PHY_MEM / PT_SIZE)) ()

/-- The free list of `init_page`. -/
@[irreducible] def initHeap : VmM Unit := do
  update fun s => { s with free_page_list := KER_MEM }
  loop (fun addr _ => store addr (UInt32.ofNat (addr + PGSIZE))) (pages KER_MEM HEAP_PAGES) ()
  store (PHY_MEM - PGSIZE) 0

def init_page (L : Statics) : VmM Unit := do
  initTables L
  store (L.kpt * PGSIZE) 0
  set_cr3 (L.kpd * PGSIZE)
  initHeap

def kalloc : VmM ℕ := do
  let free_page_list ← read Vm.free_page_list
  assert (free_page_list ≠ 0) .noPage
  let next ← load free_page_list
  update fun s => { s with free_page_list := next.toNat }
  pure free_page_list

/-- The loops of `vm_alloc`. -/
@[irreducible] def fillDir (L : Statics) (pd : ℕ) : VmM Unit := do
  loop (fun i _ => store (pd + 4 * i) (MAKE_PTE ((L.kpt + i) * PGSIZE) 3)) (List.range 32) ()
  loop (fun i _ => store (pd + 4 * i) 0) (List.range' 32 (NR_PTE - 32)) ()

def vm_alloc (L : Statics) : VmM ℕ := do
  let pd ← kalloc
  fillDir L pd
  pure pd

def vm_curr : VmM ℕ := read fun s => PAGE_DOWN s.cr3

/-- The address of the entry for `va`, if there is a page table for it or one may be made. -/
def vm_walkpte (pgdir va prot : ℕ) : VmM (Option ℕ) := do
  assert (prot ≤ 7) .badMap
  let pde ← load (pgdir + 4 * ADDR2DIR va)
  if present pde then pure (some (PTE2PG pde + 4 * ADDR2TBL va))
  else if prot = 0 then pure none
  else
    let pt ← kalloc
    memset pt 0 PGSIZE
    store (pgdir + 4 * ADDR2DIR va) (MAKE_PTE pt prot)
    let pde ← load (pgdir + 4 * ADDR2DIR va)
    pure (some (PTE2PG pde + 4 * ADDR2TBL va))

def vm_walk (pgdir va prot : ℕ) : VmM (Option ℕ) := do
  match ← vm_walkpte pgdir va prot with
  | none => pure none
  | some ptr => do
    let pte ← load ptr
    if present pte then pure (some (PTE2PG pte)) else pure none

/-- One round of the loop of `vm_map`. -/
def mapPage (pgdir prot va : ℕ) : VmM Unit := do
  match ← vm_walkpte pgdir va prot with
  | none => abort .badMap
  | some ptr => do
    let pte ← load ptr
    if ¬ present pte then
      let page ← kalloc
      memset page 0 PGSIZE
      store ptr (MAKE_PTE page prot)

def vm_map (pgdir va len prot : ℕ) : VmM Unit := do
  assert (prot % 2 = 1) .badMap
  assert (prot ≤ 7) .badMap
  let start := PAGE_DOWN va
  let end_ := PAGE_UP ((va + len) % ADDR_END)
  assert (PHY_MEM ≤ start) .badMap
  assert (start ≤ end_) .badMap
  loop (fun cur_va _ => mapPage pgdir prot cur_va) (pages start ((end_ - start) / PGSIZE)) ()

/-- A pointer that the kernel follows: the page at address 0 is not mapped. -/
def follow : Option ℕ → VmM ℕ
  | some addr => pure addr
  | none => abort .pgfault

/-- One round of the loop of `vm_copycurr`. -/
def copyPage (pgdir va : ℕ) : VmM Unit := do
  let pd ← vm_curr
  match ← vm_walkpte pd va 0 with
  | none => pure ()
  | some ptr => do
    let pte ← load ptr
    if present pte then
      vm_map pgdir va PGSIZE 7
      let dst ← vm_walk pgdir va 0
      let dst ← follow dst
      let src ← vm_walk pd va 0
      let src ← follow src
      memcpy dst src PGSIZE

def vm_copycurr (pgdir : ℕ) : VmM Unit :=
  loop (fun va _ => copyPage pgdir va) (pages PHY_MEM ((USR_MEM - PHY_MEM) / PGSIZE)) ()

end Oslab
