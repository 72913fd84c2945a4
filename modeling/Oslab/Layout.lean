/-
# The layout of the disk

The kernel and `mkfs` keep the bitmap in block 33, the inodes in blocks 34 to 63
and data from block 64 on. This file reads a disk, given as one array of bytes,
through that layout: the bit of a block, the inode with a number, the blocks an
inode refers to, and the file they make up. The four updates of the layout are
an inode written, a bit set or cleared, a word written and a block cleared; each
comes with what it changes and what it leaves.
-/
import Oslab.Fs

namespace Oslab

open Lib

/-! ### Inodes as bytes -/

namespace Dinode

@[simp] theorem length_words (d : Dinode) : d.words.length = 16 := by simp [words]

@[simp] theorem length_bytes (d : Dinode) : d.bytes.length = 64 := by simp [bytes]

theorem ofMem_congr {m m' : Mem} {a b : ℕ} (h : ∀ k < 64, m (a + k) = m' (b + k)) :
    ofMem m a = ofMem m' b := by
  have hword (o : ℕ) (ho : o + 4 ≤ 64) : m.word (a + o) = m'.word (b + o) :=
    Mem.word_congr fun k hk => by simpa [Nat.add_assoc] using h (o + k) (by omega)
  ext1
  · exact hword 0 (by omega)
  · exact hword 4 (by omega)
  · exact hword 8 (by omega)
  · funext i
    have h13 : (i : ℕ) < 13 := i.isLt
    have hi := hword (12 + 4 * i) (by omega)
    rw [← Nat.add_assoc, ← Nat.add_assoc] at hi
    exact hi

theorem ofMem_ofList {m : Mem} {a : ℕ} : ofMem (Mem.ofList (m.slice a 64)) 0 = ofMem m a :=
  ofMem_congr fun k hk => by rw [Nat.zero_add, Mem.ofList_slice hk]

theorem ofMem_splice (m : Mem) (a : ℕ) (d : Dinode) : ofMem (m.splice a d.bytes) a = d := by
  have hword (i : ℕ) (hi : i < 16) :
      (m.splice a d.bytes).word (a + 4 * i) = d.words.getD i 0 := by
    have hlen : i < d.words.length := by rwa [length_words]
    rw [List.getD_eq_getElem _ _ hlen]
    exact Mem.word_splice_words d.words hlen
  ext1
  · exact hword 0 (by omega)
  · exact hword 1 (by omega)
  · exact hword 2 (by omega)
  · funext i
    have h13 : (i : ℕ) < 13 := i.isLt
    have hi := hword (i + 3) (by omega)
    rw [show a + 4 * ((i : ℕ) + 3) = a + 12 + 4 * i by omega] at hi
    refine hi.trans ?_
    simp only [words, List.getD_cons_succ]
    rw [List.getD_eq_getElem _ _ (by simp), List.getElem_ofFn]

theorem ofMem_zero {m : Mem} {a : ℕ} (h : ∀ k < 64, m (a + k) = 0) : ofMem m a = zero := by
  have hword (o : ℕ) (ho : o + 4 ≤ 64) : m.word (a + o) = 0 :=
    Mem.word_eq_of_zero fun k hk => by rw [Nat.add_assoc]; exact h (o + k) (by omega)
  ext1
  · exact hword 0 (by omega)
  · exact hword 4 (by omega)
  · exact hword 8 (by omega)
  · funext i
    have h13 : (i : ℕ) < 13 := i.isLt
    have hi := hword (12 + 4 * i) (by omega)
    rw [← Nat.add_assoc] at hi
    exact hi

end Dinode

/-! ### Reading a disk -/

/-- The first block of inodes and the number of inodes, as `mkfs` sets them. -/
def layout : SuperBlock := ⟨33, 34, 1920, 1⟩

/-- The bit of block `b`. -/
def bitAt (D : Mem) (b : ℕ) : Bool := (D.word (135168 + 4 * (b / 32))).toNat.testBit (b % 32)

/-- The inode with number `no`. -/
def dinodeAt (D : Mem) (no : ℕ) : Dinode := Dinode.ofMem D (139264 + 64 * no)

/-- The block in place `k` of inode `no`, 0 for none: places 0 to 11 are the direct
addresses, place 12 is the indirect block, and the places after it are its words. -/
def place (D : Mem) (no k : ℕ) : ℕ :=
  if h : k < 13 then ((dinodeAt D no).addrs ⟨k, h⟩).toNat
  else if k < 1037 ∧ (dinodeAt D no).addrs 12 ≠ 0 then
    (D.word (4096 * ((dinodeAt D no).addrs 12).toNat + 4 * (k - 13))).toNat
  else 0

/-- The place of block `j` of a file. -/
def slotOf (j : ℕ) : ℕ := if j < 12 then j else j + 1

/-- The bytes of file `no` by position; a block that is not there reads as zeros. -/
def fileByte (D : Mem) (no : ℕ) : Mem := fun x =>
  if place D no (slotOf (x / 4096)) = 0 then 0
  else D (4096 * place D no (slotOf (x / 4096)) + x % 4096)

/-- What an inode is for its users: type, device, size, and the bytes of the file. -/
@[ext] structure Obj where
  type : UInt32
  device : UInt32
  size : ℕ
  bytes : Mem

/-- The object with inode number `no`. -/
def obj (D : Mem) (no : ℕ) : Obj where
  type := (dinodeAt D no).type
  device := (dinodeAt D no).device
  size := (dinodeAt D no).size.toNat
  bytes := fileByte D no

/-- The contents of an object. -/
def Obj.content (o : Obj) : List UInt8 := o.bytes.slice 0 o.size

section Congr

variable {D D' : Mem} {b no k x : ℕ}

theorem bitAt_congr (h : ∀ a, 135168 ≤ a → a < 139264 → D a = D' a) (hb : b < 32768) :
    bitAt D b = bitAt D' b := by
  rw [bitAt, bitAt, Mem.word_congr fun i hi => h _ (by omega) (by omega)]

theorem dinodeAt_congr (h : ∀ i < 64, D (139264 + 64 * no + i) = D' (139264 + 64 * no + i)) :
    dinodeAt D no = dinodeAt D' no := Dinode.ofMem_congr h

theorem place_congr (hd : dinodeAt D' no = dinodeAt D no)
    (hi : place D no 12 ≠ 0 → ∀ a < 4096,
      D' (4096 * place D no 12 + a) = D (4096 * place D no 12 + a)) :
    place D' no k = place D no k := by
  unfold place
  rw [hd]
  split
  · rfl
  · split
    case isTrue h hk =>
      have h12 : place D no 12 = ((dinodeAt D no).addrs 12).toNat := rfl
      rw [← h12]
      rw [Mem.word_congr fun i hi' => ?_]
      simpa only [Nat.add_assoc] using hi (by rw [h12]; simpa [← UInt32.toNat_inj] using hk.2) _
        (by omega)
    case isFalse => rfl

theorem fileByte_congr (hp : place D' no (slotOf (x / 4096)) = place D no (slotOf (x / 4096)))
    (h : place D no (slotOf (x / 4096)) ≠ 0 → ∀ a < 4096,
      D' (4096 * place D no (slotOf (x / 4096)) + a) =
        D (4096 * place D no (slotOf (x / 4096)) + a)) :
    fileByte D' no x = fileByte D no x := by
  unfold fileByte
  rw [hp]
  split
  · rfl
  case isFalse hne => exact h hne _ (Nat.mod_lt _ (by norm_num))

end Congr

theorem slotOf_ne (j : ℕ) : slotOf j ≠ 12 := by unfold slotOf; split <;> omega

theorem slotOf_inj {i j : ℕ} (h : slotOf i = slotOf j) : i = j := by
  unfold slotOf at h; split at h <;> split at h <;> omega

theorem place_of_lt (D : Mem) (no : ℕ) {k : ℕ} (h : k < 13) :
    place D no k = ((dinodeAt D no).addrs ⟨k, h⟩).toNat := dif_pos h

theorem place_of_le (D : Mem) (no : ℕ) {k : ℕ} (h : 13 ≤ k) (hk : k < 1037) :
    place D no k = if place D no 12 = 0 then 0
      else (D.word (4096 * place D no 12 + 4 * (k - 13))).toNat := by
  have h12 : place D no 12 = ((dinodeAt D no).addrs 12).toNat := rfl
  rw [place, dif_neg (by omega), h12]
  by_cases h0 : (dinodeAt D no).addrs 12 = 0
  · simp [h0]
  · have : ((dinodeAt D no).addrs 12).toNat ≠ 0 := by simpa [← UInt32.toNat_inj] using h0
    simp [h0, hk, this]

theorem place_eq_zero_of_le (D : Mem) (no : ℕ) {k : ℕ} (hk : 1037 ≤ k) : place D no k = 0 := by
  rw [place, dif_neg (by omega), if_neg (by omega)]

/-! ### Writing a disk -/

/-- Write inode `no`. -/
def setDinode (D : Mem) (no : ℕ) (d : Dinode) : Mem := D.splice (139264 + 64 * no) d.bytes

/-- Set the bit of block `b`. -/
def setBit (D : Mem) (b : ℕ) : Mem :=
  D.splice (135168 + 4 * (b / 32)) (Mem.wordBytes
    (UInt32.ofNat ((D.word (135168 + 4 * (b / 32))).toNat ||| (1 <<< (b % 32)))))

/-- Clear the bit of block `b`. -/
def clearBit (D : Mem) (b : ℕ) : Mem :=
  D.splice (135168 + 4 * (b / 32)) (Mem.wordBytes (UInt32.ofNat
    ((D.word (135168 + 4 * (b / 32))).toNat &&& (0xffffffff ^^^ (1 <<< (b % 32))))))

/-- Clear block `b`. -/
def zeroBlk (D : Mem) (b : ℕ) : Mem := D.fill (4096 * b) 4096 0

section Update

variable {D : Mem} {a b no no' : ℕ} {d : Dinode}

theorem setDinode_out (h : a < 139264 ∨ 262144 ≤ a) (hno : no < 1920) :
    setDinode D no d a = D a := Mem.splice_out (by simp; omega)

theorem dinodeAt_setDinode : dinodeAt (setDinode D no d) no = d := Dinode.ofMem_splice _ _ _

theorem dinodeAt_setDinode_of_ne (h : no' ≠ no) :
    dinodeAt (setDinode D no d) no' = dinodeAt D no' :=
  dinodeAt_congr fun i hi => Mem.splice_out (by simp; omega)

/-- The words of an inode are those of the structure. -/
theorem Dinode.getD_words {m : Mem} {j : ℕ} (hj : j < 16) :
    m.word (a + 4 * j) = (Dinode.ofMem m a).words.getD j 0 := by
  match j, hj with
  | 0, _ | 1, _ | 2, _ => rfl
  | j + 3, hj =>
    have hlt : j < 13 := by omega
    simp only [Dinode.words, List.getD_cons_succ]
    rw [List.getD_eq_getElem _ _ (by simpa using hlt), List.getElem_ofFn]
    exact congrArg m.word (show a + 4 * (j + 3) = a + 12 + 4 * j by omega)

/-- Writing one word of an inode writes the inode with that word. -/
theorem setDinode_word {j : ℕ} {w : UInt32} (hj : j < 16)
    (hd : d.words = (dinodeAt D no).words.set j w) :
    D.splice (139264 + 64 * no + 4 * j) (Mem.wordBytes w) = setDinode D no d := by
  have hlen : (dinodeAt D no).words.length = 16 := Dinode.length_words _
  rw [setDinode, Dinode.bytes, hd]
  apply Mem.splice_set_word
  · intro i hi
    exact Dinode.getD_words (hlen ▸ hi)
  · rwa [hlen]

theorem Dinode.words_addr (i : Fin 13) (w : UInt32) :
    Dinode.words { d with addrs := Function.update d.addrs i w } = d.words.set (i + 3) w := by
  simp only [Dinode.words, List.set_cons_succ]
  congr 3
  apply List.ext_getElem
  · simp
  · intro k hk _
    rw [List.getElem_ofFn, List.getElem_set, List.getElem_ofFn]
    by_cases hki : (i : ℕ) = k
    · subst hki
      simp
    · rw [if_neg hki, Function.update_of_ne]
      intro heq
      exact hki (congrArg Fin.val heq).symm

theorem setBit_out (h : a < 135168 ∨ 139264 ≤ a) (hb : b < 32768) : setBit D b a = D a :=
  Mem.splice_out (by simp; omega)

theorem clearBit_out (h : a < 135168 ∨ 139264 ≤ a) (hb : b < 32768) : clearBit D b a = D a :=
  Mem.splice_out (by simp; omega)

theorem zeroBlk_out (h : a < 4096 * b ∨ 4096 * b + 4096 ≤ a) : zeroBlk D b a = D a :=
  Mem.fill_out h

theorem zeroBlk_in (h : 4096 * b ≤ a ∧ a < 4096 * b + 4096) : zeroBlk D b a = 0 := Mem.fill_in h

/-- The bits of a bitmap one of whose words is replaced. -/
theorem bitAt_putWord {i n : ℕ} (hn : n < 2 ^ 32) :
    bitAt (D.splice (135168 + 4 * i) (Mem.wordBytes (UInt32.ofNat n))) b =
      if b / 32 = i then n.testBit (b % 32) else bitAt D b := by
  unfold bitAt
  split
  case isTrue h =>
    rw [← h, Mem.word_splice_self, UInt32.toNat_ofNat_of_lt' (by simpa [UInt32.size] using hn)]
  case isFalse h => rw [Mem.word_splice_out (by simp; omega)]

theorem bitAt_setBit {b' : ℕ} :
    bitAt (setBit D b) b' = (decide (b' = b) || bitAt D b') := by
  have hlt : (D.word (135168 + 4 * (b / 32))).toNat ||| (1 <<< (b % 32)) < 2 ^ 32 := by
    refine Nat.or_lt_two_pow (UInt32.toNat_lt _) ?_
    rw [Nat.one_shiftLeft]
    exact Nat.pow_lt_pow_right (by norm_num) (Nat.mod_lt _ (by norm_num))
  rw [setBit, bitAt_putWord hlt]
  split
  case isTrue h =>
    rw [Nat.testBit_or, Nat.one_shiftLeft, Nat.testBit_two_pow, ← h, Bool.or_comm]
    congr 1
    rw [decide_eq_decide]
    omega
  case isFalse h =>
    have : b' ≠ b := fun hb => h (by rw [hb])
    simp [this]

theorem bitAt_clearBit {b' : ℕ} :
    bitAt (clearBit D b) b' = (!decide (b' = b) && bitAt D b') := by
  have hlt : (D.word (135168 + 4 * (b / 32))).toNat &&& (0xffffffff ^^^ (1 <<< (b % 32))) <
      2 ^ 32 := Nat.lt_of_le_of_lt Nat.and_le_left (UInt32.toNat_lt _)
  rw [clearBit, bitAt_putWord hlt]
  split
  case isTrue h =>
    rw [Nat.testBit_and, Nat.testBit_xor, Nat.one_shiftLeft, Nat.testBit_two_pow, ← h,
      show (0xffffffff : ℕ) = 2 ^ 32 - 1 by norm_num, Nat.testBit_two_pow_sub_one]
    have h32 : decide (b' % 32 < 32) = true := by simp; omega
    have hb : decide (b % 32 = b' % 32) = decide (b' = b) := by rw [decide_eq_decide]; omega
    rw [h32, hb, Bool.true_xor, Bool.and_comm]
    rfl
  case isFalse h =>
    have : b' ≠ b := fun hb => h (by rw [hb])
    simp [this]

end Update

end Oslab
