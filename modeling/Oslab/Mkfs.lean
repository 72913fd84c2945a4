/-
# The image builder

`mkfs.c` in the order of the source. The mapped image is in its place on the
disk, behind the boot block and the kernel, so that its pointers are addresses on
the disk. The static counters of the source are part of the state. An input file
is a path and the bytes read from it. Where a local variable is uninitialised,
its bytes are those of `junk`, which may be others for every file.
-/
import Oslab.Fs

namespace Oslab

open Lib Lib.Prog

/-- The state of the builder. -/
structure Mkfs where
  mem : Mem
  next_blk : ℕ
  next_inode : ℕ
  root : ℕ
  junk : ℕ → Mem

abbrev MkfsM := Prog Abort Mkfs

namespace Mkfs

abbrev BLK_OFF : ℕ := 32
abbrev SUPER_BLK : ℕ := BLK_OFF
abbrev BITMAP_BLK : ℕ := BLK_OFF + 1
abbrev INODE_START : ℕ := BLK_OFF + 2
abbrev DATA_START : ℕ := BLK_OFF + 32
/-- `INODE_NUM` of `mkfs.c` -/
abbrev INUM : ℕ := (DATA_START - INODE_START) * IPERBLK

/-! ### Access to the image -/

/-- The address of a block. -/
def bget (no : ℕ) : MkfsM ℕ := do
  assert (no ≥ BLK_OFF) .panic
  pure (no * BLK_SIZE)

/-- The address of an inode. -/
def iget (no : ℕ) : MkfsM ℕ := do
  let block ← bget (no / IPERBLK + INODE_START)
  pure (block + no % IPERBLK * Dinode.sizeof)

def getWord (a : ℕ) : MkfsM ℕ := read fun s => (s.mem.word a).toNat

def setBytes (a : ℕ) (bs : List UInt8) : MkfsM Unit := update fun s =>
  { s with mem := s.mem.splice a bs }

def setWord (a w : ℕ) : MkfsM Unit := setBytes a (Mem.wordBytes (UInt32.ofNat w))

/-! ### Blocks and inodes -/

def balloc : MkfsM ℕ := do
  let next_blk ← read next_blk
  assert (next_blk < BLK_NUM) .panic
  let bitmap ← bget BITMAP_BLK
  let byte ← read fun s => (s.mem (bitmap + next_blk / 8)).toNat
  setBytes (bitmap + next_blk / 8) [UInt8.ofNat (byte ||| (1 <<< (next_blk % 8)))]
  update fun s => { s with next_blk := next_blk + 1 }
  pure next_blk

def ialloc (type : UInt32) : MkfsM ℕ := do
  let next_inode ← read next_inode
  assert (next_inode < INUM) .panic
  let inode ← iget next_inode
  setWord inode type.toNat
  update fun s => { s with next_inode := next_inode + 1 }
  pure next_inode

/-- The block number in the word at `a`, allocated if there is none. -/
def ensure (a : ℕ) : MkfsM ℕ := do
  let w ← getWord a
  if w = 0 then
    let b ← balloc
    setWord a b
  getWord a

def iwalk (file blk_no : ℕ) : MkfsM ℕ := do
  if blk_no < NDIRECT then
    let b ← ensure (file + 12 + 4 * blk_no)
    bget b
  else if blk_no - NDIRECT < NINDIRECT then
    let ib ← ensure (file + 12 + 4 * NDIRECT)
    let indirect ← bget ib
    let b ← ensure (indirect + 4 * (blk_no - NDIRECT))
    bget b
  else abort .panic

/-- The loop of `iappend` at file position `pos`, with `buf` still to be written. -/
def iappendLoop (file : ℕ) : ℕ → ℕ → List UInt8 → MkfsM ℕ
  | 0, pos, _ => pure pos
  | fuel + 1, pos, buf =>
    if 0 < buf.length then do
      let block ← iwalk file (pos / BLK_SIZE)
      let bytes := min (BLK_SIZE - pos % BLK_SIZE) buf.length
      setBytes (block + pos % BLK_SIZE) (buf.take bytes)
      iappendLoop file fuel (pos + bytes) (buf.drop bytes)
    else pure pos

/-- Every round writes a byte, so as many rounds as there are bytes are enough. -/
def iappend (file : ℕ) (buf : List UInt8) : MkfsM Unit := do
  let size ← getWord (file + 8)
  let pos ← iappendLoop file buf.length size buf
  setWord (file + 8) pos

/-! ### The files -/

/-- A `dirent_t` on the stack while the next inode number is `no`. -/
def stackDirent (no : ℕ) : MkfsM Dirent := read fun s => Dirent.ofMem (s.junk no) 0

def init_disk : MkfsM Unit := do
  let sb ← bget SUPER_BLK
  setWord sb BITMAP_BLK
  setWord (sb + 4) INODE_START
  setWord (sb + 8) INUM
  let bitmap ← bget BITMAP_BLK
  setWord (bitmap + 4) 0xffffffff
  setWord bitmap 0xffffffff
  let no ← ialloc TYPE_DIR
  setWord (sb + 12) no
  let root ← iget no
  update fun s => { s with root := root }
  let dirent ← stackDirent no
  let dirent := { dirent with inode := UInt32.ofNat no, name := strcpy dirent.name DOT }
  iappend root dirent.bytes
  let dirent := { dirent with name := strcpy dirent.name DOTDOT }
  iappend root dirent.bytes

/-- `basename` -/
def basename (path : List UInt8) : List UInt8 :=
  if path = [] then DOT
  else
    let rev := path.reverse.dropWhile (· = SLASH)
    if rev = [] then [SLASH] else (rev.takeWhile (· ≠ SLASH)).reverse

/-- The loop of `add_file`, with `data` still to be read. -/
def appendFile (inode : ℕ) : ℕ → List UInt8 → MkfsM Unit
  | 0, _ => pure ()
  | fuel + 1, data =>
    if 0 < data.length then do
      iappend inode (data.take BLK_SIZE)
      appendFile inode fuel (data.drop BLK_SIZE)
    else pure ()

def add_file (path : CString) (data : List UInt8) : MkfsM Unit := do
  let no ← ialloc TYPE_FILE
  let inode ← iget no
  let dirent ← stackDirent no
  assert ((basename path.1).length ≤ MAX_NAME) .longName
  let dirent := { dirent with
    inode := UInt32.ofNat no
    name := strcpy dirent.name (basename path.1) }
  let root ← read root
  iappend root dirent.bytes
  appendFile inode data.length data

def main (files : List (CString × List UInt8)) : MkfsM Unit := do
  assert (files ≠ []) .panic
  init_disk
  loop (fun file _ => add_file file.1 file.2) files ()

/-- A disk with nothing on it behind the boot block and the kernel. -/
def zero (boot : Mem) (junk : ℕ → Mem) : Mkfs where
  mem a := if a < BLK_OFF * BLK_SIZE then boot a else 0
  next_blk := 64
  next_inode := 1
  root := 0
  junk := junk

/-- The disk with the image that is made of the files. -/
def ImageOf (files : List (CString × List UInt8)) (D : Mem) : Prop :=
  ∃ boot junk s, main files (zero boot junk) = .ok ((), s) ∧ s.mem = D

/-- The disk with an image. -/
def Image (D : Mem) : Prop := ∃ files, ImageOf files D

end Mkfs

end Oslab
