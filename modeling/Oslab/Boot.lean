/-
# The boot loader

`load_kernel` reads the sectors after the first into a staging area and copies the
file part of every segment to its address. Nothing clears the part of a segment
that is not in the file: it holds what memory held before.
-/
import Oslab.Base

namespace Oslab

open Lib

namespace Boot

/-- The loader runs without paging: addresses are physical, and arithmetic on them wraps. -/
abbrev ADDR_END : ℕ := 2 ^ 32

abbrev PT_LOAD : UInt32 := 1

/-- `(void *)0x8000` -/
abbrev STAGING : ℕ := 0x8000

/-- What is read: `255 * SECTSIZE` bytes. -/
abbrev STAGING_SIZE : ℕ := 255 * SECTSIZE

def read_disk (disk mem : Mem) (buf sect : ℕ) : Mem :=
  mem.splice buf (disk.slice (sect * SECTSIZE) SECTSIZE)

/-- The loop of `copy_from_disk`, for as many sectors as fit between `cur` and `ed`. -/
def copySectors (disk : Mem) : ℕ → Mem → ℕ → ℕ → Mem
  | 0, mem, _, _ => mem
  | n + 1, mem, cur, sect => copySectors disk n (read_disk disk mem cur sect) (cur + SECTSIZE) (sect + 1)

def copy_from_disk (disk mem : Mem) (buf nbytes disk_offset : ℕ) : Mem :=
  copySectors disk ((nbytes + SECTSIZE - 1) / SECTSIZE) mem buf (disk_offset / SECTSIZE)

/-- The loop of `memcpy`, for `n` bytes. -/
def copyBytes : ℕ → Mem → ℕ → ℕ → Mem
  | 0, mem, _, _ => mem
  | n + 1, mem, dst, src =>
    copyBytes n (Function.update mem dst (mem src)) (dst + 1) ((src + 1) % ADDR_END)

/-- `while (_dst < fi)`; no byte is copied when `dst + size` wraps. -/
def memcpy (mem : Mem) (dst src size : ℕ) : Mem :=
  copyBytes ((dst + size) % ADDR_END - dst) mem dst src

/-- `Elf32_Phdr` -/
structure Phdr where
  p_type : UInt32
  p_offset : ℕ
  p_vaddr : ℕ
  p_filesz : ℕ
  p_memsz : ℕ

def Phdr.ofMem (m : Mem) (a : ℕ) : Phdr where
  p_type := m.word a
  p_offset := (m.word (a + 4)).toNat
  p_vaddr := (m.word (a + 8)).toNat
  p_filesz := (m.word (a + 16)).toNat
  p_memsz := (m.word (a + 20)).toNat

abbrev PHDR_SIZE : ℕ := 32

/-- `e_entry`, `e_phoff` and `e_phnum` of the header at `a`. -/
def e_entry (m : Mem) (a : ℕ) : ℕ := (m.word (a + 24)).toNat

def e_phoff (m : Mem) (a : ℕ) : ℕ := (m.word (a + 28)).toNat

def e_phnum (m : Mem) (a : ℕ) : ℕ := (m (a + 44)).toNat + 256 * (m (a + 45)).toNat

/-- One round of the loop over the program headers. -/
def loadPhdr (mem : Mem) (ph : ℕ) : Mem :=
  let hdr := Phdr.ofMem mem ph
  if hdr.p_type = PT_LOAD then
    memcpy mem hdr.p_vaddr ((STAGING + hdr.p_offset) % ADDR_END) hdr.p_filesz
  else mem

/-- The loop over `n` program headers from `ph` on. -/
def loadPhdrs : ℕ → Mem → ℕ → Mem
  | 0, mem, _ => mem
  | n + 1, mem, ph => loadPhdrs n (loadPhdr mem ph) (ph + PHDR_SIZE)

/-- The address that `load_kernel` jumps to, and memory when it does. The loop is left at once
when `eph` wraps. -/
def load_kernel (disk mem : Mem) : ℕ × Mem :=
  let mem := copy_from_disk disk mem STAGING STAGING_SIZE SECTSIZE
  let ph := (STAGING + e_phoff mem STAGING) % ADDR_END
  let eph := (ph + e_phnum mem STAGING * PHDR_SIZE) % ADDR_END
  let mem := if ph < eph then loadPhdrs (e_phnum mem STAGING) mem ph else mem
  (e_entry mem STAGING, mem)

/-! ### Kernel images -/

/-- The kernel file on the disk: it starts at the second sector. -/
def kernelFile (disk : Mem) : Mem := fun k => disk (SECTSIZE + k)

/-- The program headers of a file. -/
def phdr (file : Mem) (i : ℕ) : Phdr := Phdr.ofMem file (e_phoff file 0 + i * PHDR_SIZE)

/-- The addresses of a segment. -/
def Phdr.Spans (ph : Phdr) (a : ℕ) : Prop := ph.p_vaddr ≤ a ∧ a < ph.p_vaddr + ph.p_memsz

/-- Header `i` is one of those that are loaded. -/
def Loads (file : Mem) (i : ℕ) : Prop := i < e_phnum file 0 ∧ (phdr file i).p_type = PT_LOAD

/-- A kernel file within the staging area. Memory is all data here: that the segments are also apart
from the code of the loader, at `0x7c00`, and from its stack, below `0x1ffffc`, is left to whoever
links the kernel. -/
structure KernelElf (file : Mem) : Prop where
  headers : e_phoff file 0 + e_phnum file 0 * PHDR_SIZE ≤ STAGING_SIZE
  inFile : ∀ i, Loads file i → (phdr file i).p_offset + (phdr file i).p_filesz ≤ STAGING_SIZE
  size : ∀ i, Loads file i → (phdr file i).p_filesz ≤ (phdr file i).p_memsz
  high : ∀ i, Loads file i → (phdr file i).p_vaddr + (phdr file i).p_memsz < ADDR_END
  apart : ∀ i j, i ≠ j → Loads file i → Loads file j → ∀ a, (phdr file i).Spans a →
    ¬ (phdr file j).Spans a
  staging : ∀ i, Loads file i → ∀ a, (phdr file i).Spans a →
    a < STAGING ∨ STAGING + STAGING_SIZE ≤ a

/-- The segment is in memory: its bytes of the file, and zeros after them. -/
def Phdr.Occupies (ph : Phdr) (file mem : Mem) : Prop := ∀ k < ph.p_memsz,
  mem (ph.p_vaddr + k) = if k < ph.p_filesz then file (ph.p_offset + k) else 0

/-- What the kernel relies on when it is entered. -/
structure Built (file : Mem) (entry : ℕ) (mem : Mem) : Prop where
  entry : entry = e_entry file 0
  segments : ∀ i, Loads file i → (phdr file i).Occupies file mem

/-! ### What is copied -/

section

variable {disk mem m : Mem} {file : Mem} {n i a dst src : ℕ}

/-- The sectors are put one after the other. -/
theorem copySectors_eq (disk : Mem) (n : ℕ) (mem : Mem) (cur sect : ℕ) :
    copySectors disk n mem cur sect = mem.splice cur (disk.slice (sect * SECTSIZE) (n * SECTSIZE)) := by
  induction n generalizing mem cur sect with
  | zero => simp [copySectors]
  | succ n ih =>
    have hsize : (n + 1) * SECTSIZE = SECTSIZE + n * SECTSIZE := by
      rw [Nat.succ_mul, Nat.add_comm]
    rw [copySectors, ih, read_disk, hsize, Mem.slice_add, Mem.splice_append, Mem.length_slice,
      Nat.succ_mul]

/-- Bytes are copied from where they are not copied to. -/
theorem copyBytes_eq (n : ℕ) (mem : Mem) (hsrc : src + n ≤ ADDR_END)
    (hapart : dst + n ≤ src ∨ src + n ≤ dst) :
    copyBytes n mem dst src = mem.splice dst (mem.slice src n) := by
  induction n generalizing mem dst src with
  | zero => simp [copyBytes]
  | succ n ih =>
    have hone : Function.update mem dst (mem src) = mem.splice dst [mem src] := by
      funext x
      rw [Mem.splice_apply, List.length_singleton]
      by_cases hx : x = dst
      · subst hx
        simp
      · rw [Function.update_of_ne hx, if_neg (by omega)]
    have hnext : mem.slice src (n + 1) = [mem src] ++ mem.slice (src + 1) n := by
      rw [Nat.add_comm, Mem.slice_add]
      rfl
    have hcopy : copyBytes n (Function.update mem dst (mem src)) (dst + 1) ((src + 1) % ADDR_END) =
        (mem.splice dst [mem src]).splice (dst + 1) (mem.slice (src + 1) n) := by
      rw [hone]
      cases n with
      | zero => simp [copyBytes]
      | succ n =>
        rw [Nat.mod_eq_of_lt (by omega), ih _ (by omega) (by omega),
          Mem.slice_splice_out (by simp; omega)]
    rw [copyBytes, hcopy, hnext, Mem.splice_append, List.length_singleton]

theorem memcpy_eq (mem : Mem) (hdst : dst + n < ADDR_END) (hsrc : src + n ≤ ADDR_END)
    (hapart : dst + n ≤ src ∨ src + n ≤ dst) :
    memcpy mem dst src n = mem.splice dst (mem.slice src n) := by
  rw [memcpy, Nat.mod_eq_of_lt hdst, Nat.add_sub_cancel_left, copyBytes_eq n mem hsrc hapart]

/-! ### The loop over the program headers -/

/-- After `n` headers: the file is in the staging area, the segments so far have their bytes of
the file, and what no segment of the file has a byte for is as it was. -/
structure Progress (file mem : Mem) (n : ℕ) (m : Mem) : Prop where
  staged : ∀ k < STAGING_SIZE, m (STAGING + k) = file k
  copied : ∀ i < n, Loads file i → ∀ k < (phdr file i).p_filesz,
    m ((phdr file i).p_vaddr + k) = file ((phdr file i).p_offset + k)
  kept : ∀ a, (a < STAGING ∨ STAGING + STAGING_SIZE ≤ a) →
    (∀ i < n, Loads file i → ∀ k < (phdr file i).p_filesz, a ≠ (phdr file i).p_vaddr + k) →
    m a = mem a

/-- A word in the staging area is a word of the file. -/
theorem Progress.word (h : Progress file mem n m) (ha : a + 4 ≤ STAGING_SIZE) :
    m.word (STAGING + a) = file.word a := by
  apply Mem.word_congr
  intro j hj
  rw [Nat.add_assoc, h.staged _ (by omega)]

theorem Progress.entry_eq (h : Progress file mem n m) : e_entry m STAGING = e_entry file 0 := by
  unfold e_entry
  rw [h.word (by norm_num)]

theorem Progress.phoff_eq (h : Progress file mem n m) : e_phoff m STAGING = e_phoff file 0 := by
  unfold e_phoff
  rw [h.word (by norm_num)]

theorem Progress.phnum_eq (h : Progress file mem n m) : e_phnum m STAGING = e_phnum file 0 := by
  unfold e_phnum
  rw [h.staged 44 (by norm_num), h.staged 45 (by norm_num)]

/-- A header in the staging area is the header of the file. -/
theorem Progress.header (h : Progress file mem n m) (ha : a + PHDR_SIZE ≤ STAGING_SIZE) :
    Phdr.ofMem m (STAGING + a) = Phdr.ofMem file a := by
  have hword (k : ℕ) (hk : k + 4 ≤ PHDR_SIZE) : m.word (STAGING + a + k) = file.word (a + k) := by
    rw [Nat.add_assoc, h.word (by omega)]
  unfold Phdr.ofMem
  rw [hword 4 (by norm_num), hword 8 (by norm_num), hword 16 (by norm_num), hword 20 (by norm_num),
    show m.word (STAGING + a) = file.word a from hword 0 (by norm_num)]

/-- One header. -/
theorem Progress.step (hfile : KernelElf file) (h : Progress file mem n m)
    (hn : n < e_phnum file 0) :
    Progress file mem (n + 1) (loadPhdr m (STAGING + (e_phoff file 0 + n * PHDR_SIZE))) := by
  have hheaders := hfile.headers
  have hroom : e_phoff file 0 + n * PHDR_SIZE + PHDR_SIZE ≤ STAGING_SIZE := by
    have hle : (n + 1) * PHDR_SIZE ≤ e_phnum file 0 * PHDR_SIZE := Nat.mul_le_mul_right _ hn
    rw [Nat.succ_mul] at hle
    omega
  unfold loadPhdr
  rw [h.header hroom]
  change Progress file mem (n + 1) (if (phdr file n).p_type = PT_LOAD then
    memcpy m (phdr file n).p_vaddr ((STAGING + (phdr file n).p_offset) % ADDR_END)
      (phdr file n).p_filesz else m)
  split
  case isFalse hskip =>
    have hlast (i : ℕ) (hi : i < n + 1) (hload : Loads file i) : i < n := by
      rcases Nat.lt_succ_iff_lt_or_eq.mp hi with hlt | rfl
      · exact hlt
      · exact (hskip hload.2).elim
    exact ⟨h.staged, fun i hi hload => h.copied i (hlast i hi hload) hload, fun a ha hout =>
      h.kept a ha fun i hi => hout i (Nat.lt_succ_of_lt hi)⟩
  case isTrue htype =>
    have hload : Loads file n := ⟨hn, htype⟩
    have hin : (phdr file n).p_offset + (phdr file n).p_filesz ≤ STAGING_SIZE := hfile.inFile n hload
    have hsize := hfile.size n hload
    have hhigh := hfile.high n hload
    have hend : STAGING + STAGING_SIZE < ADDR_END := by norm_num
    -- the segment is not in the staging area
    have hout (k : ℕ) (hk : k < STAGING_SIZE) :
        STAGING + k < (phdr file n).p_vaddr ∨
          (phdr file n).p_vaddr + (phdr file n).p_filesz ≤ STAGING + k := by
      by_contra hspan
      have hno := hfile.staging n hload (STAGING + k) ⟨by omega, by omega⟩
      omega
    have hcopy : memcpy m (phdr file n).p_vaddr ((STAGING + (phdr file n).p_offset) % ADDR_END)
        (phdr file n).p_filesz = m.splice (phdr file n).p_vaddr
          (m.slice (STAGING + (phdr file n).p_offset) (phdr file n).p_filesz) := by
      rw [Nat.mod_eq_of_lt (by omega)]
      apply memcpy_eq m (by omega) (by omega)
      by_cases hzero : (phdr file n).p_filesz = 0
      · omega
      · have hfirst := hout (phdr file n).p_offset (by omega)
        by_contra hmeet
        have hmid := hout ((phdr file n).p_vaddr - STAGING) (by omega)
        omega
    rw [hcopy]
    refine ⟨fun k hk => ?_, fun i hi hloadi k hk => ?_, fun a ha hkept => ?_⟩
    · rw [Mem.splice_out (by rw [Mem.length_slice]; exact hout k hk), h.staged k hk]
    · rcases Nat.lt_succ_iff_lt_or_eq.mp hi with hlt | rfl
      · have hspan : (phdr file i).Spans ((phdr file i).p_vaddr + k) :=
          ⟨by omega, by have := hfile.size i hloadi; omega⟩
        have hapart := hfile.apart i n (by omega) hloadi hload _ hspan
        rw [Mem.splice_out, h.copied i hlt hloadi k hk]
        rw [Mem.length_slice]
        by_contra hmeet
        exact hapart ⟨by omega, by omega⟩
      · rw [Mem.splice_in (by rwa [Mem.length_slice]), Mem.getElem_slice, Nat.add_assoc,
          h.staged _ (by omega)]
    · rw [Mem.splice_out, h.kept a ha fun i hi => hkept i (Nat.lt_succ_of_lt hi)]
      rw [Mem.length_slice]
      by_contra hmeet
      exact hkept n n.lt_succ_self hload (a - (phdr file n).p_vaddr) (by omega) (by omega)

/-- The headers from `n` on. -/
theorem Progress.run (hfile : KernelElf file) (k : ℕ) (h : Progress file mem n m)
    (hk : n + k = e_phnum file 0) :
    Progress file mem (e_phnum file 0)
      (loadPhdrs k m (STAGING + (e_phoff file 0 + n * PHDR_SIZE))) := by
  induction k generalizing n m with
  | zero =>
    rw [← hk]
    exact h
  | succ k ih =>
    have hnext := ih (h.step hfile (by omega)) (by omega)
    rw [loadPhdrs]
    rw [show STAGING + (e_phoff file 0 + (n + 1) * PHDR_SIZE) =
      STAGING + (e_phoff file 0 + n * PHDR_SIZE) + PHDR_SIZE by ring] at hnext
    exact hnext

/-- The entry point, and all headers. -/
theorem load_kernel_progress (hfile : KernelElf (kernelFile disk)) (mem : Mem) :
    (load_kernel disk mem).1 = e_entry (kernelFile disk) 0 ∧
      Progress (kernelFile disk) mem (e_phnum (kernelFile disk) 0) (load_kernel disk mem).2 := by
  set file := kernelFile disk with hdef
  have hcopy : copy_from_disk disk mem STAGING STAGING_SIZE SECTSIZE =
      mem.splice STAGING (disk.slice SECTSIZE STAGING_SIZE) := by
    rw [copy_from_disk, copySectors_eq]
    rfl
  have hstart : Progress file mem 0 (mem.splice STAGING (disk.slice SECTSIZE STAGING_SIZE)) := by
    refine ⟨fun k hk => ?_, by omega, fun a ha _ => ?_⟩
    · rw [Mem.splice_in (by rwa [Mem.length_slice]), Mem.getElem_slice]
      rfl
    · exact Mem.splice_out (by rw [Mem.length_slice]; exact ha)
  generalize mem.splice STAGING (disk.slice SECTSIZE STAGING_SIZE) = m at hcopy hstart
  have hheaders := hfile.headers
  have hend : STAGING + STAGING_SIZE < ADDR_END := by norm_num
  have hphdrs : Progress file mem (e_phnum file 0)
      (if STAGING + e_phoff file 0 <
          STAGING + e_phoff file 0 + e_phnum file 0 * PHDR_SIZE then
        loadPhdrs (e_phnum file 0) m (STAGING + e_phoff file 0) else m) := by
    split
    case isTrue =>
      have hrun := hstart.run hfile (e_phnum file 0) (Nat.zero_add _)
      rwa [Nat.zero_mul, Nat.add_zero] at hrun
    case isFalse hnone =>
      have hzero : e_phnum file 0 = 0 := by
        change ¬ STAGING + e_phoff file 0 < STAGING + e_phoff file 0 + e_phnum file 0 * 32 at hnone
        omega
      rw [hzero]
      exact hstart
  simp only [load_kernel, hcopy, hstart.phoff_eq, hstart.phnum_eq]
  rw [Nat.mod_eq_of_lt (show STAGING + e_phoff file 0 < ADDR_END by omega),
    Nat.mod_eq_of_lt (show STAGING + e_phoff file 0 + e_phnum file 0 * PHDR_SIZE <
      ADDR_END by omega)]
  exact ⟨hphdrs.entry_eq, hphdrs⟩

/-- The part of each segment that is not in the file was zero before the kernel was loaded. -/
def Cleared (file mem : Mem) : Prop := ∀ i, Loads file i → ∀ k, (phdr file i).p_filesz ≤ k →
  k < (phdr file i).p_memsz → mem ((phdr file i).p_vaddr + k) = 0

/-- The part of a segment that is not in the file stays as it was. -/
theorem Progress.tail (hfile : KernelElf file) (h : Progress file mem (e_phnum file 0) m)
    (hload : Loads file i) {k : ℕ} (hk : (phdr file i).p_filesz ≤ k)
    (hk' : k < (phdr file i).p_memsz) : m ((phdr file i).p_vaddr + k) = mem ((phdr file i).p_vaddr + k) := by
  have hspan : (phdr file i).Spans ((phdr file i).p_vaddr + k) := ⟨by omega, by omega⟩
  apply h.kept _ (hfile.staging i hload _ hspan)
  intro j _ hloadj k' hk₂ heq
  by_cases hij : i = j
  · subst hij
    omega
  · have hsize := hfile.size j hloadj
    exact hfile.apart i j hij hload hloadj _ hspan ⟨by omega, by omega⟩

end

/-- **The kernel is built when memory was clear where its segments are not in the file.** -/
theorem load_kernel_builds (disk mem : Mem) (hfile : KernelElf (kernelFile disk)) :
    Built (kernelFile disk) (load_kernel disk mem).1 (load_kernel disk mem).2 ↔
      Cleared (kernelFile disk) mem := by
  obtain ⟨hentry, hprogress⟩ := load_kernel_progress hfile mem
  constructor
  · intro hbuilt i hload k hk hk'
    have hocc := hbuilt.segments i hload k hk'
    rwa [if_neg (by omega), hprogress.tail hfile hload hk hk'] at hocc
  · intro hclear
    refine ⟨hentry, fun i hload k hk => ?_⟩
    split
    case isTrue hin => exact hprogress.copied i hload.1 hload k hin
    case isFalse hout =>
      have hle : (phdr (kernelFile disk) i).p_filesz ≤ k := Nat.le_of_not_lt hout
      rw [hprogress.tail hfile hload hle hk]
      exact hclear i hload k hle hk

/-- A kernel file with one segment of four bytes at `0x100000`, two of them in the file. -/
def smallKernel : List UInt8 :=
  [0x7f, 0x45, 0x4c, 0x46] ++ List.replicate 20 0 ++ [0, 0, 0x10, 0, 52, 0, 0, 0] ++
    List.replicate 12 0 ++ [1, 0] ++ List.replicate 6 0 ++
    [1, 0, 0, 0, 84, 0, 0, 0, 0, 0, 0x10, 0, 0, 0, 0x10, 0, 2, 0, 0, 0, 4, 0, 0, 0, 7, 0, 0, 0] ++
    [0, 0x10, 0, 0, 0xeb, 0xfe]

def smallDisk : Mem := Mem.splice (fun _ => 0) SECTSIZE smallKernel

theorem phdr_smallDisk : phdr (kernelFile smallDisk) 0 = ⟨1, 84, 0x100000, 2, 4⟩ := by
  have htype : (phdr (kernelFile smallDisk) 0).p_type = 1 := by decide
  have hoffset : (phdr (kernelFile smallDisk) 0).p_offset = 84 := by decide
  have hvaddr : (phdr (kernelFile smallDisk) 0).p_vaddr = 0x100000 := by decide +kernel
  have hfilesz : (phdr (kernelFile smallDisk) 0).p_filesz = 2 := by decide
  have hmemsz : (phdr (kernelFile smallDisk) 0).p_memsz = 4 := by decide
  cases hphdr : phdr (kernelFile smallDisk) 0
  simp_all

theorem loads_smallDisk {i : ℕ} (h : Loads (kernelFile smallDisk) i) : i = 0 := by
  have hphnum : e_phnum (kernelFile smallDisk) 0 = 1 := by decide
  have hlt := h.1
  omega

theorem kernelElf_smallDisk : KernelElf (kernelFile smallDisk) := by
  refine ⟨by decide, fun i hi => ?_, fun i hi => ?_, fun i hi => ?_, fun i j hij hi hj => ?_,
    fun i hi a ha => ?_⟩
  · rw [loads_smallDisk hi, phdr_smallDisk]
    norm_num
  · rw [loads_smallDisk hi, phdr_smallDisk]
    norm_num
  · rw [loads_smallDisk hi, phdr_smallDisk]
    norm_num
  · exact (hij ((loads_smallDisk hi).trans (loads_smallDisk hj).symm)).elim
  · rw [loads_smallDisk hi, phdr_smallDisk] at ha
    have hle : 0x100000 ≤ a := ha.1
    exact Or.inr (le_trans (by norm_num) hle)

/-- Memory that was zero. -/
theorem load_kernel_builds_zero :
    Built (kernelFile smallDisk) (load_kernel smallDisk fun _ => 0).1
        (load_kernel smallDisk fun _ => 0).2 ↔ Cleared (kernelFile smallDisk) fun _ => 0 :=
  load_kernel_builds smallDisk _ kernelElf_smallDisk

/-- Memory that was not: the last byte of the segment is what was there. -/
theorem load_kernel_leaves : ¬ ∀ disk mem, KernelElf (kernelFile disk) →
    Built (kernelFile disk) (load_kernel disk mem).1 (load_kernel disk mem).2 := by
  intro h
  have hbuilt := h smallDisk (fun _ => 0xff) kernelElf_smallDisk
  have hload : Loads (kernelFile smallDisk) 0 := ⟨by decide, by rw [phdr_smallDisk]⟩
  obtain ⟨-, hprogress⟩ := load_kernel_progress kernelElf_smallDisk fun _ => 0xff
  have htail := hprogress.tail kernelElf_smallDisk hload (k := 3) (by rw [phdr_smallDisk]; norm_num)
    (by rw [phdr_smallDisk]; norm_num)
  have hbyte := hbuilt.segments 0 hload 3 (by rw [phdr_smallDisk]; norm_num)
  rw [htail, phdr_smallDisk] at hbyte
  exact absurd hbyte (by decide)

end Boot

end Oslab
