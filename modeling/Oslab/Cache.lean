/-
# The block cache cannot be seen

Callers of `bread`, `bwrite` and `bzero` see a plain array of blocks, and so does
whoever reads the disk sector by sector after any of their calls: the cache keeps
no byte to itself.
-/
import Oslab.Disk

namespace Oslab

open Lib Lib.Prog

/-! ### A plain array of blocks -/

/-- A byte at every offset of every block. -/
abbrev Blocks := ℕ → ℕ → UInt8

namespace Blocks

def bread (a : Blocks) (size no off : ℕ) : List UInt8 := (List.range size).map fun k => a no (off + k)

def bwrite (a : Blocks) (src : List UInt8) (no off : ℕ) : Blocks := fun n k =>
  if n = no ∧ off ≤ k ∧ k < off + src.length then src.getD (k - off) 0 else a n k

def bzero (a : Blocks) (no : ℕ) : Blocks := fun n k => if n = no then 0 else a n k

/-- The array as sectors, eight to a block. -/
def sector (a : Blocks) (sect : ℕ) : List UInt8 :=
  (List.range SECTSIZE).map fun k => a (sect / 8) (sect % 8 * SECTSIZE + k)

end Blocks

/-! ### Calls -/

inductive BlockCall
  | bread (size no off : ℕ)
  | bwrite (src : List UInt8) (no off : ℕ)
  | bzero (no : ℕ)

namespace BlockCall

/-- The block is on the disk and the bytes are in the block. -/
def Fits : BlockCall → Prop
  | .bread size no off => no < BLK_NUM ∧ off + size ≤ BLK_SIZE
  | .bwrite src no off => no < BLK_NUM ∧ off + src.length ≤ BLK_SIZE
  | .bzero no => no < BLK_NUM

/-- The call on the disk, with the bytes it gives its caller. -/
def onDisk : BlockCall → DiskM (List UInt8)
  | .bread size no off => Oslab.bread size no off
  | .bwrite src no off => do
    Oslab.bwrite src no off
    pure []
  | .bzero no => do
    Oslab.bzero no
    pure []

/-- The call on the array. -/
def onBlocks : BlockCall → Blocks → List UInt8 × Blocks
  | .bread size no off, a => (a.bread size no off, a)
  | .bwrite src no off, a => ([], a.bwrite src no off)
  | .bzero no, a => ([], a.bzero no)

end BlockCall

/-- What there is to see of a call: the bytes it gives, and every sector after it. -/
structure Seen where
  given : List UInt8
  sectors : ℕ → List UInt8

/-- A sequence of calls on the disk, with what there is to see of each. -/
def seenOnDisk : List BlockCall → DiskM (List Seen)
  | [] => pure []
  | c :: calls => do
    let given ← c.onDisk
    let sectors ← read fun d sect => d.bytes.slice (sect * SECTSIZE) SECTSIZE
    let rest ← seenOnDisk calls
    pure (⟨given, sectors⟩ :: rest)

/-- The same sequence on the array. -/
def seenOnBlocks : List BlockCall → Blocks → List Seen
  | [], _ => []
  | c :: calls, a =>
    let (given, a') := c.onBlocks a
    ⟨given, a'.sector⟩ :: seenOnBlocks calls a'

/-! ### Calls through the cache refine calls on the array -/

/-- The blocks that the bytes on a disk are. -/
def blocksOf (m : Mem) : Blocks := fun no k => m (BLK_SIZE * no + k)

/-- The disk holds the array. -/
def Blocks.On (a : Blocks) (m : Mem) : Prop := ∀ no, ∀ k < BLK_SIZE, m (BLK_SIZE * no + k) = a no k

section Refinement

variable {a : Blocks} {m : Mem} {d : Disk}

theorem on_blocksOf (m : Mem) : (blocksOf m).On m := fun _ _ _ => rfl

/-- A sector read off the disk is the sector of the array. -/
theorem Blocks.On.sector (h : a.On m) (sect : ℕ) :
    m.slice (sect * SECTSIZE) SECTSIZE = a.sector sect := by
  unfold Blocks.sector Mem.slice
  apply List.map_congr_left
  intro k hk
  simp only [SECTSIZE, List.mem_range] at hk ⊢
  have hbyte := h (sect / 8) (sect % 8 * 512 + k) (by simp only [BLK_SIZE, SECTSIZE]; omega)
  rw [← hbyte]
  congr 1
  simp only [BLK_SIZE, SECTSIZE]
  omega

theorem Blocks.On.bread (h : a.On m) {size no off : ℕ} (hroom : off + size ≤ 4096) :
    m.slice (4096 * no + off) size = a.bread size no off := by
  unfold Blocks.bread Mem.slice
  apply List.map_congr_left
  intro k hk
  rw [List.mem_range] at hk
  have hbyte := h no (off + k) (by simp only [BLK_SIZE, SECTSIZE]; omega)
  simp only [BLK_SIZE, SECTSIZE, Nat.reduceMul] at hbyte
  rw [Nat.add_assoc, hbyte]

theorem Blocks.On.bwrite (h : a.On m) {src : List UInt8} {no off : ℕ}
    (hroom : off + src.length ≤ 4096) :
    (a.bwrite src no off).On (m.splice (4096 * no + off) src) := by
  intro n k hk
  have hbyte := h n k hk
  simp only [BLK_SIZE, SECTSIZE, Nat.reduceMul] at hk hbyte ⊢
  rw [Mem.splice_apply, Blocks.bwrite]
  by_cases hin : n = no ∧ off ≤ k ∧ k < off + src.length
  · obtain ⟨rfl, hle, hlt⟩ := hin
    rw [if_pos ⟨by omega, by omega⟩, if_pos ⟨rfl, hle, hlt⟩]
    congr 1
    omega
  · -- a byte of another block, or outside the range in this one
    rw [if_neg (by omega), if_neg hin, hbyte]

theorem Blocks.On.bzero (h : a.On m) (no : ℕ) : (a.bzero no).On (m.fill (4096 * no) 4096 0) := by
  intro n k hk
  have hbyte := h n k hk
  simp only [BLK_SIZE, SECTSIZE, Nat.reduceMul] at hk hbyte ⊢
  rw [Blocks.bzero]
  by_cases hin : n = no
  · subst hin
    rw [if_pos rfl, Mem.fill_in (by omega)]
  · rw [if_neg hin, Mem.fill_out (by omega), hbyte]

/-- `no * BLK_SIZE` is passed as an `int` and divided as one. For a block on the disk it is
not negative, and the quotient is the first of the block's eight sectors. -/
theorem int_offset {no : ℕ} (h : no < BLK_NUM) :
    (BitVec.ofNat 32 (no * BLK_SIZE)).toInt.tdiv SECTSIZE = 8 * no := by
  have hno : no < 32768 := h
  have hpos : (BitVec.ofNat 32 (no * 4096)).toInt = (no * 4096 : ℕ) := by
    rw [BitVec.toInt_ofNat', Int.bmod_eq_of_le] <;> omega
  simp only [BLK_SIZE, SECTSIZE, Nat.reduceMul]
  rw [hpos, Int.tdiv_eq_ediv_of_nonneg (by omega)]
  omega

/-- One call: the caller is given what the array gives, and the disk goes on holding the array. -/
theorem onDisk_refines (hd : d.Coherent) (ha : a.On d.bytes) {c : BlockCall} (hc : c.Fits) :
    wp c.onDisk (fun given d' => d'.Coherent ∧ given = (c.onBlocks a).1 ∧ (c.onBlocks a).2.On d'.bytes)
      (fun _ => False) d := by
  cases c with
  | bread size no off =>
    have hroom : off + size ≤ 4096 := hc.2
    refine (Disk.bread_spec hd (by omega)).imp ?_
    intro bs d' hpost
    obtain ⟨hd', hbytes, hbs⟩ := hpost
    exact ⟨hd', by rw [hbs, ha.bread hroom]; rfl, by rw [hbytes]; exact ha⟩
  | bwrite src no off =>
    have hroom : off + src.length ≤ 4096 := hc.2
    simp only [BlockCall.onDisk, wp_bind, wp_pure]
    refine (Disk.bwrite_spec hd (by omega)).imp ?_
    intro _ d' hpost
    obtain ⟨hd', hbytes⟩ := hpost
    exact ⟨hd', rfl, by rw [hbytes]; exact ha.bwrite hroom⟩
  | bzero no =>
    simp only [BlockCall.onDisk, wp_bind, wp_pure]
    refine (Disk.bzero_spec hd no).imp ?_
    intro _ d' hpost
    obtain ⟨hd', hbytes⟩ := hpost
    exact ⟨hd', rfl, by rw [hbytes]; exact ha.bzero no⟩

/-- A sequence of calls, from any state of the cache that agrees with the disk. -/
theorem seenOnDisk_refines {calls : List BlockCall} (hd : d.Coherent) (ha : a.On d.bytes)
    (hfits : ∀ c ∈ calls, c.Fits) :
    wp (seenOnDisk calls) (fun seen d' => d'.Coherent ∧ seen = seenOnBlocks calls a)
      (fun _ => False) d := by
  induction calls generalizing d a with
  | nil => exact ⟨hd, rfl⟩
  | cons c calls ih =>
    simp only [seenOnDisk, wp_bind, wp_read, wp_pure]
    refine (onDisk_refines hd ha (hfits c (List.mem_cons_self ..))).imp ?_
    intro given d₁ hpost
    obtain ⟨hd₁, hgiven, ha₁⟩ := hpost
    refine (ih hd₁ ha₁ fun c' hc' => hfits c' (List.mem_cons_of_mem _ hc')).imp ?_
    intro rest d₂ hpost
    obtain ⟨hd₂, hrest⟩ := hpost
    have hsectors : (fun sect => d₁.bytes.slice (sect * SECTSIZE) SECTSIZE) = (c.onBlocks a).2.sector :=
      funext ha₁.sector
    exact ⟨hd₂, by rw [seenOnBlocks, hgiven, hrest, hsectors]⟩

end Refinement

/-- The kernel starts with no valid slot. -/
def Disk.Cold (d : Disk) : Prop := ∀ i, (d.blk_cache i).valid = false

theorem Disk.Cold.coherent {d : Disk} (h : d.Cold) : d.Coherent := by
  intro i _ hvalid
  rw [h i] at hvalid
  cases hvalid

/-- **The cache is transparent.** From a cold cache over any disk, a sequence of calls returns,
gives its caller what a plain array gives, and leaves the array on the disk after each call. -/
theorem cache_transparent (d : Disk) (hcold : d.Cold) (calls : List BlockCall)
    (hfits : ∀ c ∈ calls, c.Fits) :
    ∃ d', seenOnDisk calls d = .ok (seenOnBlocks calls (blocksOf d.bytes), d') := by
  obtain ⟨seen, d', hok, -, hseen⟩ :=
    (seenOnDisk_refines hcold.coherent (on_blocksOf d.bytes) hfits).returns
  exact ⟨d', by rw [hok, hseen]⟩

/-- Two blocks that share a slot of the cache, one written between two reads of the other. -/
theorem cache_transparent_shared :
    ∃ d', seenOnDisk [.bread 4 1 0, .bwrite [1, 2, 3] 17 4093, .bread 4 1 0, .bread 2 17 4094]
        ⟨fun a => UInt8.ofNat a, fun _ => ⟨false, 0, fun _ => 0⟩⟩ =
      .ok (seenOnBlocks [.bread 4 1 0, .bwrite [1, 2, 3] 17 4093, .bread 4 1 0, .bread 2 17 4094]
        (blocksOf fun a => UInt8.ofNat a), d') := by
  apply cache_transparent
  · intro i
    rfl
  · intro c hc
    simp only [List.mem_cons, List.not_mem_nil, or_false] at hc
    obtain rfl | rfl | rfl | rfl := hc <;> simp [BlockCall.Fits]

end Oslab
