/-
# The file system

`fs.c` in the order of the source. A pointer to an in-memory inode is the number
of its slot in `inodes`; a null one is `none`. Paths and names are the bytes
before the terminating zero. Where the source leaves a local variable
uninitialised, its bytes are those of `junk`.
-/
import Oslab.Disk

namespace Oslab

open Lib Lib.Prog

abbrev NDIRECT : ℕ := 12
abbrev NINDIRECT : ℕ := BLK_SIZE / 4
abbrev INODE_NUM : ℕ := 128
abbrev SUPER_BLOCK : ℕ := 32

/-- `sb_t` -/
structure SuperBlock where
  bitmap : ℕ
  istart : ℕ
  inum : ℕ
  root : ℕ
  deriving DecidableEq

/-- `dinode_t` -/
@[ext] structure Dinode where
  type : UInt32
  device : UInt32
  size : UInt32
  addrs : Fin (NDIRECT + 1) → UInt32

/-- `inode_t` -/
structure Inode where
  no : ℕ
  ref : ℤ
  del : Bool
  dinode : Dinode

/-- `dirent_t`; the name is an array of `MAX_NAME + 1` bytes -/
structure Dirent where
  inode : UInt32
  name : List UInt8

/-- A pointer into `inodes`. -/
abbrev InodePtr := Fin INODE_NUM

/-- The state of the file system: the disk, the super block and the inode table. -/
structure Fs where
  disk : Disk
  sb : SuperBlock
  inodes : InodePtr → Inode
  junk : Mem

abbrev FsM := Prog Abort Fs

/-! ### The layout of the structures in memory -/

namespace Dinode

abbrev sizeof : ℕ := 64

def zero : Dinode := ⟨0, 0, 0, fun _ => 0⟩

def words (d : Dinode) : List UInt32 := d.type :: d.device :: d.size :: List.ofFn d.addrs

def bytes (d : Dinode) : List UInt8 := Mem.wordsBytes d.words

def ofMem (m : Mem) (a : ℕ) : Dinode where
  type := m.word a
  device := m.word (a + 4)
  size := m.word (a + 8)
  addrs i := m.word (a + 12 + 4 * i)

end Dinode

namespace Dirent

abbrev sizeof : ℕ := 32

def zero : Dirent := ⟨0, List.replicate (MAX_NAME + 1) 0⟩

def bytes (d : Dirent) : List UInt8 := Mem.wordBytes d.inode ++ d.name

def ofMem (m : Mem) (a : ℕ) : Dirent := ⟨m.word a, m.slice (a + 4) (MAX_NAME + 1)⟩

/-- Overwrite the first bytes of the structure with `bs`. -/
def overlay (d : Dirent) (bs : List UInt8) : Dirent := ofMem ((Mem.ofList d.bytes).splice 0 bs) 0

end Dirent

/-- The string an array of bytes holds. -/
def cstr (bs : List UInt8) : List UInt8 := bs.takeWhile (· ≠ 0)

/-- A string, without the zero byte that ends it. -/
abbrev CString := { bs : List UInt8 // (0 : UInt8) ∉ bs }

/-- The array `dst` after the string `src` is copied into it. -/
def strcpy (dst src : List UInt8) : List UInt8 := src ++ 0 :: dst.drop (src.length + 1)

/-! ### Blocks and on-disk inodes -/

/-- Run a disk operation. -/
def onDisk {α : Type} (m : DiskM α) : FsM α := zoom Fs.disk (fun d s => { s with disk := d }) m

abbrev IPERBLK : ℕ := BLK_SIZE / Dinode.sizeof

def readWord (no off : ℕ) : FsM ℕ := do
  let bs ← onDisk (bread 4 no off)
  pure ((Mem.ofList bs).word 0).toNat

def writeWord (w no off : ℕ) : FsM Unit := onDisk (bwrite (Mem.wordBytes (UInt32.ofNat w)) no off)

def init_fs : FsM Unit := do
  let bs ← onDisk (bread 16 SUPER_BLOCK 0)
  let w (i : ℕ) := ((Mem.ofList bs).word (4 * i)).toNat
  update fun s => { s with sb := ⟨w 0, w 1, w 2, w 3⟩ }

def diread (no : ℕ) : FsM Dinode := do
  let sb ← read Fs.sb
  let bs ← onDisk (bread Dinode.sizeof (sb.istart + no / IPERBLK) (no % IPERBLK * Dinode.sizeof))
  pure (Dinode.ofMem (Mem.ofList bs) 0)

def diwrite (di : Dinode) (no : ℕ) : FsM Unit := do
  let sb ← read Fs.sb
  onDisk (bwrite di.bytes (sb.istart + no / IPERBLK) (no % IPERBLK * Dinode.sizeof))

def dialloc (type : UInt32) : FsM ℕ := do
  let sb ← read Fs.sb
  let found ← scan (fun i => do
    let dinode ← diread i
    if dinode.type = TYPE_NONE then
      diwrite { dinode with type := type } i
      pure (some i)
    else pure none) 1 (sb.inum - 1) 1
  match found with
  | some i => pure i
  | none => abort .noInode

def difree (no : ℕ) : FsM Unit := diwrite Dinode.zero no

/-- The first `j < 32` whose bit is clear in `byte`. -/
def clearBit? (byte : ℕ) : Option ℕ := (List.range 32).find? fun j => byte &&& (1 <<< j) = 0

def balloc : FsM ℕ := do
  let sb ← read Fs.sb
  let found ← scan (fun i => do
    let byte ← readWord sb.bitmap (i * 4)
    if byte ≠ 0xffffffff then
      match clearBit? byte with
      | some j => do
        writeWord (byte ||| (1 <<< j)) sb.bitmap (i * 4)
        onDisk (bzero (i * 32 + j))
        pure (some (i * 32 + j))
      | none => pure none
    else pure none) 1 (BLK_NUM / 32) 0
  match found with
  | some b => pure b
  | none => abort .noBlock

def bfree (blkno : ℕ) : FsM Unit := do
  assert (blkno ≥ 64) .lowBlock
  let sb ← read Fs.sb
  let byte ← readWord sb.bitmap (blkno / 32 * 4)
  writeWord (byte &&& (0xffffffff ^^^ (1 <<< (blkno % 32)))) sb.bitmap (4 * (blkno / 32))

/-! ### In-memory inodes -/

def getInode (i : InodePtr) : FsM Inode := read fun s => s.inodes i

def modInode (i : InodePtr) (f : Inode → Inode) : FsM Unit := update fun s =>
  { s with inodes := Function.update s.inodes i (f (s.inodes i)) }

def modDinode (i : InodePtr) (f : Dinode → Dinode) : FsM Unit :=
  modInode i fun ip => { ip with dinode := f ip.dinode }

def iget (no : ℕ) : FsM InodePtr := do
  let inodes ← read Fs.inodes
  match (List.finRange INODE_NUM).find? fun i => 1 ≤ (inodes i).ref ∧ (inodes i).no = no with
  | some i => do
    modInode i fun ip => { ip with ref := ip.ref + 1 }
    pure i
  | none =>
    match (List.finRange INODE_NUM).find? fun i => (inodes i).ref = 0 with
    | some i => do
      modInode i fun ip => { ip with ref := ip.ref + 1, no := no, del := false }
      let dinode ← diread no
      modDinode i fun _ => dinode
      pure i
    | none => abort .noSlot

def iupdate (i : InodePtr) : FsM Unit := do
  let ip ← getInode i
  diwrite ip.dinode ip.no

def isize (i : InodePtr) : FsM ℕ := read fun s => (s.inodes i).dinode.size.toNat

def itype (i : InodePtr) : FsM UInt32 := read fun s => (s.inodes i).dinode.type

def idup (i : InodePtr) : FsM InodePtr := do
  modInode i fun ip => { ip with ref := ip.ref + 1 }
  pure i

/-! ### File data -/

/-- The address in `addrs[k]`, allocated if there is none. -/
def iwalkAddr (i : InodePtr) (k : Fin (NDIRECT + 1)) : FsM ℕ := do
  let ip ← getInode i
  if ip.dinode.addrs k = 0 then
    let b ← balloc
    modDinode i fun d => { d with addrs := Function.update d.addrs k (UInt32.ofNat b) }
    iupdate i
  read fun s => ((s.inodes i).dinode.addrs k).toNat

def iwalk (i : InodePtr) (no : ℕ) : FsM ℕ :=
  if h : no < NDIRECT then
    iwalkAddr i ⟨no, by omega⟩
  else if no - NDIRECT < NINDIRECT then do
    let blk ← iwalkAddr i (Fin.last NDIRECT)
    let indirect ← readWord blk ((no - NDIRECT) * 4)
    if indirect = 0 then
      let b ← balloc
      writeWord b blk ((no - NDIRECT) * 4)
      pure b
    else pure indirect
  else abort .tooBig

/-- The loop of `iread` at file position `pos`, with `blkno` the block of `pos`. -/
def ireadLoop (i : InodePtr) : ℕ → ℕ → ℕ → ℕ → FsM (List UInt8)
  | 0, _, _, _ => pure []
  | fuel + 1, pos, remaining, blkno => do
    let size ← isize i
    if 0 < remaining ∧ pos < size then
      let bytesToRead := min (min remaining (BLK_SIZE - pos % BLK_SIZE)) (size - pos)
      let bs ← onDisk (bread bytesToRead blkno (pos % BLK_SIZE))
      let blkno ← iwalk i ((pos + bytesToRead) / BLK_SIZE)
      let rest ← ireadLoop i fuel (pos + bytesToRead) (remaining - bytesToRead) blkno
      pure (bs ++ rest)
    else pure []

/-- The bytes read; their number is what the source returns. Every round reads a byte,
so `len` rounds are enough. -/
def iread (i : InodePtr) (off len : ℕ) : FsM (List UInt8) := do
  let blkno ← iwalk i (off / BLK_SIZE)
  ireadLoop i len off len blkno

/-- The loop of `iwrite` at file position `pos`, with `buf` still to be written. -/
def iwriteLoop (i : InodePtr) : ℕ → ℕ → List UInt8 → FsM ℕ
  | 0, pos, _ => pure pos
  | fuel + 1, pos, buf =>
    if 0 < buf.length then do
      let block ← iwalk i (pos / BLK_SIZE)
      let bytes := min (BLK_SIZE - pos % BLK_SIZE) buf.length
      onDisk (bwrite (buf.take bytes) block (pos % BLK_SIZE))
      iwriteLoop i fuel (pos + bytes) (buf.drop bytes)
    else pure pos

/-- `-1` past the end of the file, else the number of bytes written. -/
def iwrite (i : InodePtr) (off : ℕ) (buf : List UInt8) : FsM ℤ := do
  let size ← isize i
  if off > size then pure (-1)
  else
    let pos ← iwriteLoop i buf.length off buf
    let size ← isize i
    if pos > size then
      modDinode i fun d => { d with size := UInt32.ofNat pos }
      iupdate i
    pure ((pos : ℤ) - off)

def itrunc (i : InodePtr) : FsM Unit := do
  loop (fun k _ => do
    let ip ← getInode i
    if ip.dinode.addrs k ≠ 0 then
      bfree (ip.dinode.addrs k).toNat
      modDinode i fun d => { d with addrs := Function.update d.addrs k 0 })
    ((List.finRange NDIRECT).map Fin.castSucc) ()
  let ip ← getInode i
  let indirect := (ip.dinode.addrs (Fin.last NDIRECT)).toNat
  if indirect ≠ 0 then
    loop (fun k _ => do
      let block ← readWord indirect (k * 4)
      if block ≠ 0 then bfree block) (List.range NINDIRECT) ()
    bfree indirect
    modDinode i fun d => { d with addrs := Function.update d.addrs (Fin.last NDIRECT) 0 }
  modDinode i fun d => { d with size := 0 }
  iupdate i

def iclose (i : InodePtr) : FsM Unit := do
  let ip ← getInode i
  if ip.ref = 1 ∧ ip.del = true then
    itrunc i
    difree ip.no
  modInode i fun ip => { ip with ref := ip.ref - 1 }

/-! ### Directories and paths -/

abbrev SLASH : UInt8 := 47
abbrev DOT : List UInt8 := [46]
abbrev DOTDOT : List UInt8 := [46, 46]

/-- The rest of the path after its first element, and that element cut to `MAX_NAME`. -/
def skipelem (path : List UInt8) : Option (List UInt8 × List UInt8) :=
  let path := path.dropWhile (· = SLASH)
  if path = [] then none
  else
    let name := (path.takeWhile (· ≠ SLASH)).take MAX_NAME
    some ((path.dropWhile (· ≠ SLASH)).dropWhile (· = SLASH), name)

def idirinit (i parent : InodePtr) : FsM Unit := do
  let ip ← getInode i
  let pp ← getInode parent
  assert (ip.dinode.type = TYPE_DIR) .notDir
  assert (pp.dinode.type = TYPE_DIR) .notDir
  assert (ip.dinode.size = 0) .notDir
  let junk ← read Fs.junk
  let dirent := Dirent.ofMem junk 0
  let dirent := { dirent with inode := UInt32.ofNat ip.no, name := strcpy dirent.name DOT }
  let _ ← iwrite i 0 dirent.bytes
  let dirent := { dirent with inode := UInt32.ofNat pp.no, name := strcpy dirent.name DOTDOT }
  let _ ← iwrite i Dirent.sizeof dirent.bytes

/-- The loop of `ilookup` from offset `off`: the offset and inode number of the entry
named `name`, or the entry read last and the offset of the first invalid one. -/
def ilookupLoop (parent : InodePtr) (name : List UInt8) (size : ℕ) :
    ℕ → ℕ → Dirent → ℕ → FsM ((ℕ × ℕ) ⊕ (Dirent × ℕ))
  | 0, _, dirent, empty => pure (.inr (dirent, empty))
  | fuel + 1, off, dirent, empty =>
    if off < size then do
      let bs ← iread parent off Dirent.sizeof
      let dirent := dirent.overlay bs
      if dirent.inode = 0 then
        ilookupLoop parent name size fuel (off + Dirent.sizeof) dirent
          (if empty = size then off else empty)
      else if cstr dirent.name = name then pure (.inl (off, dirent.inode.toNat))
      else ilookupLoop parent name size fuel (off + Dirent.sizeof) dirent empty
    else pure (.inr (dirent, empty))

/-- The inode of `name` in `parent`, with the offset of its entry if there was one. -/
def ilookup (parent : InodePtr) (name : List UInt8) (type : UInt32) :
    FsM (Option (InodePtr × Option ℕ)) := do
  let pp ← getInode parent
  assert (pp.dinode.type = TYPE_DIR) .notDir
  let junk ← read Fs.junk
  let size := pp.dinode.size.toNat
  let found ← ilookupLoop parent name size (size / Dirent.sizeof + 1) 0 (Dirent.ofMem junk 0) size
  match found with
  | .inl (off, no) => do
    let i ← iget no
    pure (some (i, some off))
  | .inr (dirent, empty) =>
    if type = TYPE_NONE then pure none
    else do
      let no ← dialloc type
      let i ← iget no
      if type = TYPE_DIR then idirinit i parent
      let dirent := { dirent with inode := UInt32.ofNat no, name := strcpy dirent.name name }
      let _ ← iwrite parent empty dirent.bytes
      pure (some (i, none))

/-- The loop of `iopen_parent`: walk from `i` to the directory of the last element. -/
def iopenParentLoop : ℕ → InodePtr → List UInt8 → FsM (Option (InodePtr × List UInt8))
  | 0, i, _ => do
    iclose i
    pure none
  | fuel + 1, i, path =>
    match skipelem path with
    | none => do
      iclose i
      pure none
    | some (rest, name) => do
      let type ← itype i
      if type ≠ TYPE_DIR then
        iclose i
        pure none
      else if rest = [] then pure (some (i, name))
      else
        match ← ilookup i name TYPE_NONE with
        | none => do
          iclose i
          pure none
        | some (next, _) => do
          iclose i
          iopenParentLoop fuel next rest

/-- The directory of the last element of the path, and that element. Every round drops
an element, so as many rounds as the path has bytes are enough. -/
def iopen_parent (cwd : Option InodePtr) (path : List UInt8) :
    FsM (Option (InodePtr × List UInt8)) := do
  let sb ← read Fs.sb
  let i ← if path.head? = some SLASH then iget sb.root
    else match cwd with
      | some i => idup i
      | none => abort .null
  iopenParentLoop (path.length + 1) i path

def iopen (cwd : Option InodePtr) (path : List UInt8) (type : UInt32) :
    FsM (Option InodePtr) := do
  if skipelem path = none then
    if path.head? = some SLASH then
      let sb ← read Fs.sb
      some <$> iget sb.root
    else pure none
  else
    match ← iopen_parent cwd path with
    | none => pure none
    | some (parent, name) => do
      let found ← ilookup parent name type
      iclose parent
      pure (found.map Prod.fst)

/-- The device number of a device, `-1` of anything else. -/
def idevid (i : InodePtr) : FsM ℤ := do
  let ip ← getInode i
  pure (if ip.dinode.type = TYPE_DEV then ip.dinode.device.toNat else -1)

def iadddev (cwd : Option InodePtr) (name : List UInt8) (id : ℕ) : FsM Unit := do
  match ← iopen cwd name TYPE_DEV with
  | none => abort .null
  | some i => do
    modDinode i fun d => { d with device := UInt32.ofNat id }
    iupdate i
    iclose i

/-- The loop of `idirempty` from offset `off`. -/
def idiremptyLoop (i : InodePtr) : ℕ → ℕ → Dirent → FsM Bool
  | 0, _, _ => pure true
  | fuel + 1, off, dirent => do
    let size ← isize i
    if off < size then
      let bs ← iread i off Dirent.sizeof
      let dirent := dirent.overlay bs
      if dirent.inode ≠ 0 then pure false
      else idiremptyLoop i fuel (off + Dirent.sizeof) dirent
    else pure true

def idirempty (i : InodePtr) : FsM Bool := do
  let ip ← getInode i
  assert (ip.dinode.type = TYPE_DIR) .notDir
  let junk ← read Fs.junk
  idiremptyLoop i (ip.dinode.size.toNat / Dirent.sizeof + 1) (2 * Dirent.sizeof)
    (Dirent.ofMem junk 0)

def iremove (cwd : Option InodePtr) (path : List UInt8) : FsM ℤ := do
  match ← iopen_parent cwd path with
  | none => pure (-1)
  | some (parent, name) =>
    if name = DOT ∨ name = DOTDOT then do
      iclose parent
      pure (-1)
    else do
      match ← ilookup parent name TYPE_NONE with
      | none => do
        iclose parent
        pure (-1)
      | some (i, off) => do
        let type ← itype i
        let full ← if type = TYPE_DIR then not <$> idirempty i else pure false
        if full then
          iclose parent
          iclose i
          pure (-1)
        else
          let _ ← iwrite parent (off.getD 0) Dirent.zero.bytes
          modInode i fun ip => { ip with del := true }
          iclose parent
          iclose i
          pure 0

end Oslab
