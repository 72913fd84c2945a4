/-
# The disk and the block cache

The disk is an array of bytes read and written one 512-byte sector at a time.
`bread`, `bwrite` and `bzero` work on blocks of eight sectors through a cache of
sixteen slots that writes through. When every valid slot agrees with the disk,
the cache cannot be seen: the three operations read and write the array.
-/
import Oslab.Base

namespace Oslab

open Lib Lib.Prog

abbrev BCACHE_NUM : ℕ := 16

/-- One slot of `blk_cache`. -/
structure BCache where
  valid : Bool
  no : ℕ
  buf : Mem

/-- The bytes on the disk, and the cache in memory. -/
structure Disk where
  bytes : Mem
  blk_cache : ℕ → BCache

abbrev DiskM := Prog Abort Disk

def read_disk (sect : ℕ) : DiskM (List UInt8) :=
  read fun d => d.bytes.slice (sect * SECTSIZE) SECTSIZE

def write_disk (buf : List UInt8) (sect : ℕ) : DiskM Unit :=
  update fun d => { d with bytes := d.bytes.splice (sect * SECTSIZE) buf }

/-- The sectors a copy of `nbytes` bytes goes through, counted from the first. -/
def sectors (nbytes : ℕ) : List ℕ := List.range' 0 ((nbytes + SECTSIZE - 1) / SECTSIZE)

def copy_from_disk (buf : Mem) (nbytes disk_offset : ℕ) : DiskM Mem :=
  loop (fun i buf => do
    let sect ← read_disk (disk_offset / SECTSIZE + i)
    pure (buf.splice (i * SECTSIZE) sect)) (sectors nbytes) buf

def copy_to_disk (buf : Mem) (nbytes disk_offset : ℕ) : DiskM Unit :=
  loop (fun i _ => write_disk (buf.slice (i * SECTSIZE) SECTSIZE) (disk_offset / SECTSIZE + i))
    (sectors nbytes) ()

/-- The slot of block `no`, loaded with the block. -/
def bgetcache (no : ℕ) : DiskM ℕ := do
  let bc ← read fun d => d.blk_cache (no % BCACHE_NUM)
  if bc.valid = false ∨ bc.no ≠ no then
    let buf ← copy_from_disk bc.buf BLK_SIZE (no * BLK_SIZE)
    update fun d =>
      { d with blk_cache := Function.update d.blk_cache (no % BCACHE_NUM) ⟨true, no, buf⟩ }
  pure (no % BCACHE_NUM)

/-- Replace the bytes of a slot. -/
def setBuf (i : ℕ) (f : Mem → Mem) : DiskM Unit := update fun d =>
  let bc := d.blk_cache i
  { d with blk_cache := Function.update d.blk_cache i { bc with buf := f bc.buf } }

def bread (size no off : ℕ) : DiskM (List UInt8) := do
  assert (size + off ≤ BLK_SIZE) .range
  let i ← bgetcache no
  read fun d => (d.blk_cache i).buf.slice off size

def bwrite (src : List UInt8) (no off : ℕ) : DiskM Unit := do
  assert (src.length + off ≤ BLK_SIZE) .range
  let i ← bgetcache no
  setBuf i fun buf => buf.splice off src
  let buf ← read fun d => (d.blk_cache i).buf
  copy_to_disk buf BLK_SIZE (no * BLK_SIZE)

def bzero (no : ℕ) : DiskM Unit := do
  let i ← bgetcache no
  setBuf i fun buf => buf.fill 0 BLK_SIZE 0
  let buf ← read fun d => (d.blk_cache i).buf
  copy_to_disk buf BLK_SIZE (no * BLK_SIZE)

namespace Disk

variable {d : Disk} {fail : Abort → Prop}

/-- Every valid slot holds the block it names, and that block belongs in the slot. -/
def Coherent (d : Disk) : Prop :=
  ∀ i < 16, (d.blk_cache i).valid = true → (d.blk_cache i).no % 16 = i ∧
    ∀ k < 4096, (d.blk_cache i).buf k = d.bytes (4096 * (d.blk_cache i).no + k)

theorem mem_sectors {a : ℕ} {as : List ℕ} {i n : ℕ} (h : a :: as = List.range' i (n - i)) :
    a = i ∧ as = List.range' (i + 1) (n - (i + 1)) ∧ i < n := by
  obtain ⟨k, hk⟩ : ∃ k, n - i = k + 1 := by
    cases hn : n - i with
    | zero => simp [hn] at h
    | succ k => exact ⟨k, rfl⟩
  rw [hk, List.range'_succ, List.cons.injEq] at h
  rw [show n - (i + 1) = k by omega]
  exact ⟨h.1, h.2, by omega⟩

theorem copy_from_disk_spec (buf : Mem) (no : ℕ) :
    wp (copy_from_disk buf 4096 (no * 4096)) (fun buf' d' => d' = d ∧
      ∀ k < 4096, buf' k = d.bytes (4096 * no + k)) fail d := by
  refine wp_loop (fun as buf' d' => d' = d ∧ ∃ i ≤ 8, as = List.range' i (8 - i) ∧
    ∀ k < 512 * i, buf' k = d.bytes (4096 * no + k)) _ _ ?_ ?_ ?_
  · exact ⟨rfl, 0, by omega, rfl, by omega⟩
  · rintro a as buf' _ ⟨rfl, i, hi, has, hbuf⟩
    obtain ⟨rfl, rfl, hlt⟩ := mem_sectors has
    simp only [read_disk, wp_bind, wp_read, wp_pure, SECTSIZE]
    refine ⟨trivial, a + 1, hlt, rfl, fun k hk => ?_⟩
    rw [Mem.splice_apply, Mem.length_slice]
    split
    case isTrue h =>
      rw [Mem.getD_slice (by omega),
        show (no * 4096 / 512 + a) * 512 + (k - a * 512) = 4096 * no + k by omega]
    case isFalse h => exact hbuf k (by omega)
  · rintro buf' _ ⟨rfl, i, hi, has, hbuf⟩
    have h8 : 8 - i = 0 := by simpa using congrArg List.length has.symm
    exact ⟨rfl, fun k hk => hbuf k (by omega)⟩

theorem copy_to_disk_spec (buf : Mem) (no : ℕ) :
    wp (copy_to_disk buf 4096 (no * 4096)) (fun _ d' => d' =
      { d with bytes := d.bytes.splice (4096 * no) (buf.slice 0 4096) }) fail d := by
  refine wp_loop (fun as _ d' => ∃ i ≤ 8, as = List.range' i (8 - i) ∧ d' =
    { d with bytes := d.bytes.splice (4096 * no) (buf.slice 0 (i * 512)) }) _ _ ?_ ?_ ?_
  · exact ⟨0, by omega, rfl, by simp⟩
  · rintro a as _ _ ⟨i, hi, has, rfl⟩
    obtain ⟨rfl, rfl, hlt⟩ := mem_sectors has
    simp only [write_disk, wp_update, SECTSIZE]
    refine ⟨a + 1, hlt, rfl, ?_⟩
    rw [show (a + 1) * 512 = a * 512 + 512 by omega, Mem.slice_add, Mem.splice_append,
      Mem.length_slice, Nat.zero_add,
      show (no * 4096 / 512 + a) * 512 = 4096 * no + a * 512 by omega]
  · rintro _ d' ⟨i, hi, has, rfl⟩
    have h8 : 8 - i = 0 := by simpa using congrArg List.length has.symm
    obtain rfl : i = 8 := by omega
    rfl

theorem bgetcache_spec (hd : d.Coherent) (no : ℕ) :
    wp (bgetcache no) (fun i d' => i = no % 16 ∧ d'.Coherent ∧ d'.bytes = d.bytes ∧
      (d'.blk_cache i).valid = true ∧ (d'.blk_cache i).no = no) fail d := by
  simp only [bgetcache, BCACHE_NUM, BLK_SIZE, SECTSIZE, wp_bind, wp_read, Nat.reduceMul]
  split
  case isTrue h =>
    simp only [wp_bind, wp_update, wp_pure]
    refine (copy_from_disk_spec _ no).imp ?_
    rintro buf _ ⟨rfl, hbuf⟩
    refine ⟨trivial, fun i hi hv => ?_, rfl, by simp, by simp⟩
    by_cases hslot : i = no % 16
    · subst hslot
      simp only [Function.update_self]
      exact ⟨trivial, hbuf⟩
    · simp only [Function.update_of_ne hslot] at hv ⊢
      exact hd i hi hv
  case isFalse h =>
    simp only [not_or, Bool.not_eq_false, not_not] at h
    exact ⟨rfl, hd, rfl, h.1, h.2⟩

/-- `bread` reads the array. -/
theorem bread_spec (hd : d.Coherent) {size no off : ℕ} (hoff : size + off ≤ 4096) :
    wp (bread size no off) (fun bs d' => d'.Coherent ∧ d'.bytes = d.bytes ∧
      bs = d.bytes.slice (4096 * no + off) size) fail d := by
  rw [bread, wp_bind, wp_assert]
  refine ⟨fun _ => ?_, fun h => (h (by simpa using hoff)).elim⟩
  simp only [wp_bind, wp_read]
  refine (bgetcache_spec hd no).imp ?_
  rintro i d' ⟨rfl, hd', hbytes, hv, hno⟩
  refine ⟨hd', hbytes, Mem.slice_congr fun k hk => ?_⟩
  have hbuf := (hd' _ (Nat.mod_lt _ (by norm_num)) hv).2 (off + k) (by omega)
  rw [hbuf, hno, hbytes, Nat.add_assoc]

/-- A slot changed by `f` and then written through. -/
theorem writeThrough_spec (hd : d.Coherent) (no : ℕ) (f : Mem → Mem) (bytes : Mem)
    (hin : ∀ buf : Mem, (∀ k < 4096, buf k = d.bytes (4096 * no + k)) →
      ∀ k < 4096, f buf k = bytes (4096 * no + k))
    (hout : ∀ a, a < 4096 * no ∨ 4096 * no + 4096 ≤ a → bytes a = d.bytes a) :
    wp (do let i ← bgetcache no
           setBuf i f
           let buf ← read fun d => (d.blk_cache i).buf
           copy_to_disk buf BLK_SIZE (no * BLK_SIZE))
      (fun _ d' => d'.Coherent ∧ d'.bytes = bytes) fail d := by
  simp only [wp_bind]
  refine (bgetcache_spec hd no).imp ?_
  rintro i d' ⟨hi, hd', hbytes, hv, hno⟩
  simp only [setBuf, wp_update, wp_read, Function.update_self, BLK_SIZE, SECTSIZE, Nat.reduceMul]
  have hslot := hd' i (by rw [hi]; exact Nat.mod_lt _ (by norm_num)) hv
  have hnew := hin (d'.blk_cache i).buf fun k hk => by rw [hslot.2 k hk, hno, hbytes]
  refine (copy_to_disk_spec _ no).imp ?_
  rintro _ _ rfl
  have hwhole : d'.bytes.splice (4096 * no) ((f (d'.blk_cache i).buf).slice 0 4096) = bytes := by
    funext a
    by_cases ha : a < 4096 * no ∨ 4096 * no + 4096 ≤ a
    · rw [Mem.splice_out (by simpa using ha), hbytes, hout a ha]
    · obtain ⟨k, rfl⟩ := Nat.exists_eq_add_of_le (show 4096 * no ≤ a by omega)
      rw [Mem.splice_in (by simp; omega), Mem.getElem_slice, Nat.zero_add, hnew k (by omega)]
  refine ⟨fun j hj hvj => ?_, hwhole⟩
  by_cases hji : j = i
  · subst hji
    simp only [Function.update_self, hno, hwhole]
    exact ⟨hi.symm, hnew⟩
  · simp only [Function.update_of_ne hji, hwhole] at hvj ⊢
    obtain ⟨hmod, hbuf⟩ := hd' j hj hvj
    refine ⟨hmod, fun k hk => ?_⟩
    -- another slot holds another block, so the write does not reach it
    have hne : (d'.blk_cache j).no ≠ no := fun h => hji (by rw [← hmod, h, ← hi])
    rw [hbuf k hk, hbytes, hout _ (by omega)]

/-- `bwrite` writes the array. -/
theorem bwrite_spec (hd : d.Coherent) {src : List UInt8} {no off : ℕ}
    (hoff : src.length + off ≤ 4096) :
    wp (bwrite src no off) (fun _ d' => d'.Coherent ∧
      d'.bytes = d.bytes.splice (4096 * no + off) src) fail d := by
  rw [bwrite, wp_bind, wp_assert]
  refine ⟨fun _ => writeThrough_spec hd no _ _ (fun buf hbuf k hk => ?_) (fun a ha => ?_),
    fun h => (h (by simpa using hoff)).elim⟩
  · simp only [Mem.splice_apply]
    split_ifs with h₁ h₂ h₂ <;> try omega
    · rw [show 4096 * no + k - (4096 * no + off) = k - off by omega]
    · exact hbuf k hk
  · exact Mem.splice_out (by omega)

/-- `bzero` clears a block of the array. -/
theorem bzero_spec (hd : d.Coherent) (no : ℕ) :
    wp (bzero no) (fun _ d' => d'.Coherent ∧
      d'.bytes = d.bytes.fill (4096 * no) 4096 0) fail d :=
  writeThrough_spec hd no _ _
    (fun buf _ k hk => by rw [Mem.fill_in (by simp; omega), Mem.fill_in (by omega)])
    fun a ha => Mem.fill_out ha

end Disk

end Oslab
