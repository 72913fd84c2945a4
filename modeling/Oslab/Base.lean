/-
# Constants and aborts

The constants of `lib.h`, `disk.h` and `fs.h`, and the ways in which the kernel
or the image builder stops.
-/
import Oslab.Lib.Prog
import Oslab.Lib.Bytes

namespace Oslab

open Lib

/-- Why the kernel or `mkfs` stops. -/
inductive Abort
  /-- `bread`, `bwrite`: `assert(size + off <= BLK_SIZE)` -/
  | range
  /-- `balloc`: no free block -/
  | noBlock
  /-- `bfree`: `assert(blkno >= 64)` -/
  | lowBlock
  /-- `dialloc`: no free inode on disk -/
  | noInode
  /-- `iget`: no free slot in `inodes` -/
  | noSlot
  /-- `iwalk`: file too big -/
  | tooBig
  /-- an inode that must be a directory is none, or a new one is not empty -/
  | notDir
  /-- `fopen`: an inode of no known type -/
  | badType
  /-- a null pointer is used or asserted not to be one -/
  | null
  /-- `mkfs`: a name does not fit its array -/
  | longName
  /-- `init_user_and_go`: the first program cannot be loaded -/
  | noShell
  /-- `getchar`: `assert(ch != 0)` -/
  | noChar
  /-- `list_remove_prev`: `assert(!list_empty(list))` -/
  | noNode
  /-- `kalloc`: no free page -/
  | noPage
  /-- `vm_walkpte`, `vm_map`: an `assert` on the arguments -/
  | badMap
  /-- `vm_pgfault` -/
  | pgfault
  /-- `load_arg`: `assert(argc < MAX_ARGS_NUM)` -/
  | tooManyArgs
  /-- a process number does not fit an `int` -/
  | overflow
  /-- `schedule`: no process is ready, and it looks for one forever -/
  | hang
  /-- `mkfs`: `panic` -/
  | panic
  deriving DecidableEq, Repr

abbrev NEWLINE : UInt8 := 10

@[simp] abbrev SECTSIZE : ℕ := 512
@[simp] abbrev BLK_SIZE : ℕ := SECTSIZE * 8
@[simp] abbrev DISK_SIZE : ℕ := 128 * 1024 * 1024
@[simp] abbrev BLK_NUM : ℕ := DISK_SIZE / BLK_SIZE

abbrev TYPE_NONE : UInt32 := 0
abbrev TYPE_FILE : UInt32 := 1
abbrev TYPE_DIR : UInt32 := 2
abbrev TYPE_DEV : UInt32 := 3

abbrev O_RDONLY : ℕ := 0x000
abbrev O_WRONLY : ℕ := 0x001
abbrev O_RDWR : ℕ := 0x002
abbrev O_CREATE : ℕ := 0x200
abbrev O_TRUNC : ℕ := 0x400
abbrev O_DIR : ℕ := 0x800

abbrev SEEK_SET : ℕ := 0
abbrev SEEK_CUR : ℕ := 1
abbrev SEEK_END : ℕ := 2

@[simp] abbrev MAX_NAME : ℕ := 27

end Oslab
