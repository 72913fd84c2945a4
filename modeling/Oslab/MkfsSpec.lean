/-
# What the image builder builds

The builder takes blocks and inodes in order and never gives one back. What is
behind the counters is still empty, and the rest of the image is in order as the
kernel needs it; the lemmas about a fresh block are those of the kernel.
-/
import Oslab.Mkfs
import Oslab.Effect

namespace Oslab

open Lib Lib.Prog

namespace Mkfs

variable {s s' s'' : Mkfs} {D D' : Mem} {b no k pos fuel : ℕ} {buf : List UInt8}

/-- The image is in order, and empty from the counters on. -/
structure Built (s : Mkfs) : Prop where
  blkLo : 64 ≤ s.next_blk
  blkHi : s.next_blk ≤ 32768
  inoLo : 1 ≤ s.next_inode
  inoHi : s.next_inode ≤ 1920
  owned : Owned s.mem
  bits : ∀ b, s.next_blk ≤ b → b < 32768 → bitAt s.mem b = false
  blank : ∀ a, 4096 * s.next_blk ≤ a → s.mem a = 0
  size : ∀ no < 1920, (obj s.mem no).size ≤ 1036 * 4096
  fresh : ∀ no < 1920, no = 0 ∨ s.next_inode ≤ no → dinodeAt s.mem no = .zero

/-- Nothing but inode `no` and its blocks has changed. -/
structure Frame (s : Mkfs) (no : ℕ) (s' : Mkfs) : Prop where
  other : ∀ no' < 1920, no' ≠ no → Kept s.mem s'.mem no'
  dinode : ∀ no' < 1920, no' ≠ no → dinodeAt s'.mem no' = dinodeAt s.mem no'
  super : ∀ a < 135168, s'.mem a = s.mem a
  next_inode : s'.next_inode = s.next_inode
  root : s'.root = s.root
  junk : s'.junk = s.junk

theorem Frame.refl (s : Mkfs) (no : ℕ) : Frame s no s :=
  ⟨fun no' _ _ => .refl _ no', fun _ _ _ => rfl, fun _ _ => rfl, rfl, rfl, rfl⟩

theorem Frame.trans (h : Frame s no s') (h' : Frame s' no s'') : Frame s no s'' where
  other no' hno' hne := (h.other no' hno' hne).trans (h'.other no' hno' hne)
  dinode no' hno' hne := (h'.dinode no' hno' hne).trans (h.dinode no' hno' hne)
  super a ha := (h'.super a ha).trans (h.super a ha)
  next_inode := h'.next_inode.trans h.next_inode
  root := h'.root.trans h.root
  junk := h'.junk.trans h.junk

/-! ### Access to the image -/

theorem bget_spec {post : ℕ → Mkfs → Prop} {fail : Abort → Prop} (hb : 32 ≤ b)
    (hpost : post (4096 * b) s) : wp (bget b) post fail s := by
  rw [bget, wp_bind, wp_assert]
  refine ⟨fun _ => ?_, fun hlt => (hlt hb).elim⟩
  rw [wp_pure, Nat.mul_comm]
  exact hpost

theorem iget_spec {post : ℕ → Mkfs → Prop} {fail : Abort → Prop}
    (h : post (139264 + 64 * no) s) : wp (iget no) post fail s := by
  rw [iget, wp_bind]
  apply bget_spec (show 32 ≤ no / 64 + 34 by omega)
  rw [wp_pure]
  have haddr : 4096 * (no / 64 + 34) + no % 64 * 64 = 139264 + 64 * no := by omega
  change post (4096 * (no / 64 + 34) + no % 64 * 64) s
  rw [haddr]
  exact h

/-! ### A fresh block -/

/-- The bit of a block is a bit of a byte. -/
theorem bitAt_byte (D : Mem) (b : ℕ) :
    bitAt D b = (D (135168 + b / 8)).toNat.testBit (b % 8) := by
  rw [bitAt, Mem.testBit_word (Nat.mod_lt b (by norm_num))]
  have haddr : 135168 + 4 * (b / 32) + b % 32 / 8 = 135168 + b / 8 := by omega
  have hbit : b % 32 % 8 = b % 8 := by omega
  rw [haddr, hbit]

/-- The bitmap with the bit of block `b` set in its byte. -/
def mark (D : Mem) (b : ℕ) : Mem :=
  D.splice (135168 + b / 8) [UInt8.ofNat ((D (135168 + b / 8)).toNat ||| (1 <<< (b % 8)))]

theorem mark_out {a : ℕ} (h : a ≠ 135168 + b / 8) : mark D b a = D a :=
  Mem.splice_out (by simp only [List.length_singleton]; omega)

theorem bitAt_mark {b' : ℕ} : bitAt (mark D b) b' = (decide (b' = b) || bitAt D b') := by
  rw [bitAt_byte, bitAt_byte]
  by_cases hbyte : b' / 8 = b / 8
  · have hlt : (D (135168 + b / 8)).toNat ||| (1 <<< (b % 8)) < 2 ^ 8 := by
      apply Nat.or_lt_two_pow (UInt8.toNat_lt _)
      rw [Nat.one_shiftLeft]
      exact Nat.pow_lt_pow_right (by norm_num) (Nat.mod_lt _ (by norm_num))
    have hself : mark D b (135168 + b / 8 + 0) =
        UInt8.ofNat ((D (135168 + b / 8)).toNat ||| (1 <<< (b % 8))) := Mem.splice_in (by simp)
    rw [Nat.add_zero] at hself
    rw [hbyte, hself, UInt8.toNat_ofNat_of_lt' hlt, Nat.testBit_or, Nat.one_shiftLeft,
      Nat.testBit_two_pow, Bool.or_comm]
    congr 1
    rw [decide_eq_decide]
    omega
  · have hne : b' ≠ b := by
      intro heq
      exact hbyte (by rw [heq])
    rw [mark_out (by omega), decide_eq_false hne, Bool.false_or]

theorem Built.fresh_mark (h : s.Built) (hlt : s.next_blk < 32768) :
    Fresh s.mem s.next_blk (mark s.mem s.next_blk) where
  lt := hlt
  free := h.bits _ le_rfl hlt
  bit _ _ := bitAt_mark
  dinode no hno := dinodeAt_congr fun i hi => mark_out (by omega)
  same p hp _ a ha := mark_out (by omega)
  zero a ha := by
    have hlo := h.blkLo
    rw [mark_out (by omega)]
    exact h.blank _ (by omega)

theorem balloc_spec :
    wp balloc (fun b s' => b = s.next_blk ∧ b < 32768 ∧
      s' = { s with mem := mark s.mem b, next_blk := b + 1 }) (· = .panic) s := by
  rw [balloc, wp_bind, wp_read, wp_bind, wp_assert]
  refine ⟨fun hlt => ?_, fun _ => rfl⟩
  rw [wp_bind]
  apply bget_spec (by norm_num)
  rw [wp_bind, wp_read, wp_bind, setBytes, wp_update, wp_bind, wp_update, wp_pure]
  exact ⟨rfl, hlt, rfl⟩

/-- The image after a fresh block has been put into a place of inode `no`. -/
theorem Built.put (h : s.Built) (hlt : s.next_blk < 32768) (hno : 0 < no ∧ no < s.next_inode)
    (howned : Owned D') (hkept : ∀ no' < 1920, Kept s.mem D' no')
    (hbit : ∀ b' < 32768, bitAt D' b' = bitAt (mark s.mem s.next_blk) b')
    (hdinode : ∀ no' < 1920, no' ≠ no → dinodeAt D' no' = dinodeAt s.mem no')
    (hblank : ∀ a, 4096 * (s.next_blk + 1) ≤ a → D' a = s.mem a) :
    Built { s with mem := D', next_blk := s.next_blk + 1 } where
  blkLo := Nat.le_succ_of_le h.blkLo
  blkHi := hlt
  inoLo := h.inoLo
  inoHi := h.inoHi
  owned := howned
  bits b' hlo hhi := by
    have hlo' : s.next_blk + 1 ≤ b' := hlo
    change bitAt D' b' = false
    rw [hbit b' hhi, bitAt_mark, h.bits b' (by omega) hhi, decide_eq_false (by omega)]
    rfl
  blank a ha := by
    have ha' : 4096 * (s.next_blk + 1) ≤ a := ha
    exact (hblank a ha').trans (h.blank a (by omega))
  size no' hno' := by
    change (obj D' no').size ≤ _
    rw [(hkept no' hno').obj]
    exact h.size no' hno'
  fresh no' hno' hfree := by
    have hne : no' ≠ no := by
      rintro rfl
      have hfree' : no' = 0 ∨ s.next_inode ≤ no' := hfree
      omega
    exact (hdinode no' hno' hne).trans (h.fresh no' hno' hfree)

/-- Inode `no` may have got blocks, and the object is the same. -/
structure More (s : Mkfs) (no : ℕ) (s' : Mkfs) : Prop where
  built : s'.Built
  kept : ∀ no' < 1920, Kept s.mem s'.mem no'
  frame : Frame s no s'

theorem More.trans (h : More s no s') (h' : More s' no s'') : More s no s'' :=
  ⟨h'.built, fun no' hno' => (h.kept no' hno').trans (h'.kept no' hno'), h.frame.trans h'.frame⟩

/-! ### Walking to a block -/

section Walk

variable (h : s.Built)

include h

/-- What `ensure` does at the word of place `k`, given that a fresh block can be put there. -/
theorem ensure_spec {a : ℕ} (hword : (s.mem.word a).toNat = place s.mem no k)
    (hput : place s.mem no k = 0 → s.next_blk < 32768 →
      ∀ D', D' = (mark s.mem s.next_blk).splice a (Mem.wordBytes (UInt32.ofNat s.next_blk)) →
        More s no { s with mem := D', next_blk := s.next_blk + 1 } ∧
          place D' no k = s.next_blk) :
    wp (ensure a) (fun b s' => More s no s' ∧ b ≠ 0 ∧ b = place s'.mem no k) (· = .panic) s := by
  simp only [ensure, getWord, wp_bind, wp_read]
  split
  case isTrue hzero =>
    rw [wp_bind]
    refine balloc_spec.imp ?_
    rintro b s₁ ⟨rfl, hlt, rfl⟩
    rw [hword] at hzero
    obtain ⟨hmore, hplace⟩ := hput hzero hlt _ rfl
    have hlo := h.blkLo
    have hnat : (UInt32.ofNat s.next_blk).toNat = s.next_blk :=
      UInt32.toNat_ofNat_of_lt' (lt_trans hlt (by norm_num [UInt32.size]))
    rw [wp_bind, setWord, setBytes, wp_update, wp_read, Mem.word_splice_self, hnat]
    exact ⟨hmore, by omega, hplace.symm⟩
  case isFalse hne =>
    rw [wp_read]
    exact ⟨⟨h, fun no' _ => .refl _ no', .refl s no⟩, hne, hword⟩

variable (hno : 0 < no ∧ no < s.next_inode)

include hno

/-- The block in place `i` of the inode, which is one of its addresses. -/
theorem ensureAddr_spec (i : Fin 13) :
    wp (ensure (139264 + 64 * no + 12 + 4 * i)) (fun b s' => More s no s' ∧ b ≠ 0 ∧
      b = place s'.mem no i) (· = .panic) s := by
  have hlt : no < 1920 := lt_of_lt_of_le hno.2 h.inoHi
  apply ensure_spec h
  · exact (place_of_lt s.mem no i.isLt).symm
  · intro hzero hblk D' hD'
    obtain ⟨d, hd⟩ : ∃ d : Dinode, d = { dinodeAt s.mem no with
        addrs := Function.update (dinodeAt s.mem no).addrs i (UInt32.ofNat s.next_blk) } := ⟨_, rfl⟩
    have hfresh := h.fresh_mark hblk
    have hset : D' = setDinode (mark s.mem s.next_blk) no d := by
      have haddr : 139264 + 64 * no + 12 + 4 * (i : ℕ) = 139264 + 64 * no + 4 * (i + 3) := by omega
      rw [hD', haddr]
      apply setDinode_word
      · have := i.isLt
        omega
      · rw [hfresh.dinode no hlt, hd, Dinode.words_addr]
    obtain ⟨hplace, howned, hkept⟩ := hfresh.putAddr h.owned h.blkLo hlt i hzero hd
    rw [← hset] at hplace howned hkept
    have hdinode (no' : ℕ) (hno' : no' < 1920) (hne : no' ≠ no) :
        dinodeAt D' no' = dinodeAt s.mem no' := by
      rw [hset, dinodeAt_setDinode_of_ne hne, hfresh.dinode no' hno']
    have hlo := h.blkLo
    refine ⟨⟨?_, hkept, fun no' hno' _ => hkept no' hno', hdinode, ?_, rfl, rfl, rfl⟩, ?_⟩
    · apply h.put hblk hno howned hkept ?_ hdinode ?_
      · intro b' hb'
        rw [hset]
        exact bitAt_congr (fun a _ _ => setDinode_out (by omega) hlt) hb'
      · intro a ha
        rw [hset, setDinode_out (by omega) hlt, mark_out (by omega)]
    · intro a ha
      change D' a = s.mem a
      rw [hset, setDinode_out (by omega) hlt, mark_out (by omega)]
    · rw [hplace no hlt, if_pos ⟨rfl, rfl⟩]

/-- The block in a place of the inode that is a word of its indirect block. -/
theorem ensureWord_spec (hk : 13 ≤ k) (hk' : k < 1037) (h12 : place s.mem no 12 ≠ 0) :
    wp (ensure (4096 * place s.mem no 12 + 4 * (k - 13))) (fun b s' => More s no s' ∧ b ≠ 0 ∧
      b = place s'.mem no k) (· = .panic) s := by
  have hlt : no < 1920 := lt_of_lt_of_le hno.2 h.inoHi
  obtain ⟨hib, hib', hbit⟩ := h.owned.range no hlt 12 h12
  have hin : place s.mem no 12 < s.next_blk := by
    by_contra hge
    rw [h.bits _ (not_lt.mp hge) hib'] at hbit
    cases hbit
  apply ensure_spec h
  · rw [place_of_le _ _ hk hk', if_neg h12]
  · intro hzero hblk D' hD'
    have hfresh := h.fresh_mark hblk
    obtain ⟨hplace, howned, hkept⟩ := hfresh.putWord h.owned h.blkLo hlt hk hk' h12 hzero hD'
    have hout (a : ℕ) (ha : a < 4096 * place s.mem no 12 ∨ 4096 * place s.mem no 12 + 4096 ≤ a) :
        D' a = mark s.mem s.next_blk a := by
      rw [hD']
      exact Mem.splice_out (by rw [Mem.length_wordBytes]; omega)
    have hdinode (no' : ℕ) (hno' : no' < 1920) : dinodeAt D' no' = dinodeAt s.mem no' := by
      rw [← hfresh.dinode no' hno']
      exact dinodeAt_congr fun i hi => hout _ (by omega)
    refine ⟨⟨?_, hkept, fun no' hno' _ => hkept no' hno', fun no' hno' _ => hdinode no' hno', ?_,
      rfl, rfl, rfl⟩, ?_⟩
    · apply h.put hblk hno howned hkept ?_ (fun no' hno' _ => hdinode no' hno') ?_
      · intro b' hb'
        exact bitAt_congr (fun a _ _ => hout a (by omega)) hb'
      · intro a ha
        rw [hout a (by omega), mark_out (by omega)]
    · intro a ha
      change D' a = s.mem a
      rw [hout a (by omega), mark_out (by omega)]
    · rw [hplace no hlt, if_pos ⟨rfl, rfl⟩]

/-- `iwalk` returns the address of block `n` of the file. -/
theorem iwalk_spec (n : ℕ) :
    wp (iwalk (139264 + 64 * no) n) (fun a s' => More s no s' ∧ n < 1036 ∧
      place s'.mem no (slotOf n) ≠ 0 ∧ a = 4096 * place s'.mem no (slotOf n)) (· = .panic) s := by
  have hlt : no < 1920 := lt_of_lt_of_le hno.2 h.inoHi
  have hrange {s₁ : Mkfs} {m : ℕ} (hmore : More s no s₁) (hne : place s₁.mem no m ≠ 0) :
      32 ≤ place s₁.mem no m :=
    le_trans (by norm_num) (hmore.built.owned.range no hlt m hne).1
  unfold iwalk
  split
  case isTrue hn =>
    have hn12 : n < 12 := hn
    have hslot : slotOf n = n := if_pos hn12
    rw [wp_bind, hslot]
    refine (ensureAddr_spec h hno ⟨n, by omega⟩).imp ?_
    rintro b s₁ ⟨hmore, hb, rfl⟩
    exact bget_spec (hrange hmore hb) ⟨hmore, by omega, hb, rfl⟩
  case isFalse hn =>
    have hn12 : 12 ≤ n := Nat.le_of_not_lt hn
    have hslot : slotOf n = n + 1 := if_neg (by omega)
    split
    case isTrue hind =>
      have hn' : n < 1036 := by
        change n - 12 < 1024 at hind
        omega
      rw [wp_bind, hslot]
      refine (ensureAddr_spec h hno (Fin.last 12)).imp ?_
      rintro ib s₁ ⟨hmore₁, hib, rfl⟩
      rw [wp_bind]
      apply bget_spec (hrange hmore₁ hib)
      rw [wp_bind]
      have hword := ensureWord_spec hmore₁.built
        ⟨hno.1, hmore₁.frame.next_inode ▸ hno.2⟩ (show 13 ≤ n + 1 by omega) (by omega) hib
      have haddr : n + 1 - 13 = n - 12 := by omega
      rw [haddr] at hword
      refine hword.imp ?_
      rintro b s₂ ⟨hmore₂, hb, rfl⟩
      have hmore := hmore₁.trans hmore₂
      exact bget_spec (hrange hmore hb) ⟨hmore, hn', hb, rfl⟩
    case isFalse => rfl

end Walk

/-! ### Appending -/

/-- A block in use is below the counter. -/
theorem Built.place_lt (h : s.Built) (hno : no < 1920) (hne : place s.mem no k ≠ 0) :
    place s.mem no k < s.next_blk := by
  obtain ⟨-, hlt, hbit⟩ := h.owned.range no hno k hne
  by_contra hge
  rw [h.bits _ (not_lt.mp hge) hlt] at hbit
  cases hbit

/-- Bytes are written into a block of the file. -/
theorem Built.write (h : s.Built) (hno : 0 < no ∧ no < s.next_inode)
    (hp : place s.mem no (slotOf (pos / 4096)) ≠ 0) (hfit : pos % 4096 + buf.length ≤ 4096)
    (hD : D = s.mem.splice (4096 * place s.mem no (slotOf (pos / 4096)) + pos % 4096) buf) :
    Built { s with mem := D } ∧ Frame s no { s with mem := D } ∧
      obj D no = { obj s.mem no with bytes := (fileByte s.mem no).splice pos buf } := by
  have hlt : no < 1920 := lt_of_lt_of_le hno.2 h.inoHi
  have hblk := h.place_lt hlt hp
  obtain ⟨hlo, -, -⟩ := h.owned.range no hlt _ hp
  have hwrite := h.owned.dataWrite (pos / 4096) (pos % 4096) buf hlt hp hfit
  rw [← hD] at hwrite
  have hpos : 4096 * (pos / 4096) + pos % 4096 = pos := Nat.div_add_mod pos 4096
  have hself : obj D no = { obj s.mem no with bytes := (fileByte s.mem no).splice pos buf } := by
    rw [obj, hwrite.dinode no hlt, hwrite.self, hpos]
    rfl
  have hout (a : ℕ) (ha : a < 4096 * place s.mem no (slotOf (pos / 4096)) ∨
      4096 * place s.mem no (slotOf (pos / 4096)) + 4096 ≤ a) : D a = s.mem a := by
    rw [hD]
    exact Mem.splice_out (by omega)
  refine ⟨⟨h.blkLo, h.blkHi, h.inoLo, h.inoHi, ?_, fun b hge hb => ?_, fun a ha => ?_,
    fun no' hno' => ?_, fun no' hno' hfree => ?_⟩, ?_, hself⟩
  · exact h.owned.congr hwrite.bit hwrite.place
  · exact (hwrite.bit b hb).trans (h.bits b hge hb)
  · have ha' : 4096 * s.next_blk ≤ a := ha
    exact (hout a (by omega)).trans (h.blank a ha')
  · by_cases hne : no' = no
    · rw [hne]
      change (obj D no).size ≤ _
      rw [hself]
      exact h.size no hlt
    · change (obj D no').size ≤ _
      rw [(hwrite.other no' hno' hne).obj]
      exact h.size no' hno'
  · exact (hwrite.dinode no' hno').trans (h.fresh no' hno' hfree)
  · refine ⟨hwrite.other, fun no' hno' _ => hwrite.dinode no' hno', fun a ha => ?_, rfl, rfl, rfl⟩
    exact hout a (by omega)

theorem iappendLoop_spec (fuel : ℕ) (h : s.Built) (hno : 0 < no ∧ no < s.next_inode)
    (hfuel : buf.length ≤ fuel) (hpos : pos ≤ 1036 * 4096) :
    wp (iappendLoop (139264 + 64 * no) fuel pos buf) (fun pos' s' => s'.Built ∧ Frame s no s' ∧
      pos' = pos + buf.length ∧ pos' ≤ 1036 * 4096 ∧
      obj s'.mem no = { obj s.mem no with bytes := (fileByte s.mem no).splice pos buf })
      (· = .panic) s := by
  induction fuel generalizing s pos buf with
  | zero =>
    have hnil : buf = [] := List.length_eq_zero_iff.mp (by omega)
    subst hnil
    refine ⟨h, .refl s no, rfl, hpos, ?_⟩
    rw [Mem.splice_nil]
    rfl
  | succ fuel ih =>
    rw [iappendLoop, wp_ite]
    refine ⟨fun hne => ?_, fun hempty => ?_⟩
    · rw [wp_bind]
      refine (iwalk_spec h hno (pos / BLK_SIZE)).imp ?_
      rintro a s₁ ⟨hmore, hn, hp, rfl⟩
      have hno₁ : 0 < no ∧ no < s₁.next_inode := ⟨hno.1, hmore.frame.next_inode ▸ hno.2⟩
      have hlt : no < 1920 := lt_of_lt_of_le hno.2 h.inoHi
      obtain ⟨n, hn'⟩ : ∃ n, n = min (4096 - pos % 4096) buf.length := ⟨_, rfl⟩
      have hlen : (buf.take n).length = n := by
        rw [List.length_take]
        omega
      have hblk : pos / 4096 < 1036 := hn
      rw [wp_bind]
      change wp (setBytes _ (buf.take (min (4096 - pos % 4096) buf.length))) _ _ s₁
      rw [← hn', setBytes, wp_update]
      obtain ⟨hbuilt, hframe, hobj⟩ := hmore.built.write hno₁ hp
        (show pos % 4096 + (buf.take n).length ≤ 4096 by omega) rfl
      have hrest := ih hbuilt hno₁ (show (buf.drop n).length ≤ fuel by
        rw [List.length_drop]
        omega) (show pos + n ≤ 1036 * 4096 by omega)
      change wp (iappendLoop _ fuel (pos + min (4096 - pos % 4096) buf.length)
        (buf.drop (min (4096 - pos % 4096) buf.length))) _ _ _
      rw [← hn']
      refine hrest.imp ?_
      rintro pos' s' ⟨hbuilt', hframe', rfl, hpos', hobj'⟩
      refine ⟨hbuilt', hmore.frame.trans (hframe.trans hframe'), ?_, hpos', ?_⟩
      · rw [List.length_drop]
        omega
      · -- the two writes are one
        have hbytes := congrArg Obj.bytes hobj
        change fileByte _ no = _ at hbytes
        rw [hobj', hobj, hbytes, (hmore.kept no hlt).obj, (hmore.kept no hlt).bytes_eq]
        have hsplit := Mem.splice_append (m := fileByte s.mem no) (a := pos) (buf.take n) (buf.drop n)
        rw [List.take_append_drop, hlen] at hsplit
        rw [hsplit]
    · have hnil : buf = [] := List.length_eq_zero_iff.mp (by omega)
      subst hnil
      rw [wp_pure]
      refine ⟨h, .refl s no, rfl, hpos, ?_⟩
      rw [Mem.splice_nil]
      rfl

/-- Bytes at the end of an object. -/
def append (o : Obj) (buf : List UInt8) : Obj :=
  { o with size := o.size + buf.length, bytes := o.bytes.splice o.size buf }

theorem iappend_spec (h : s.Built) (hno : 0 < no ∧ no < s.next_inode) :
    wp (iappend (139264 + 64 * no) buf) (fun _ s' => s'.Built ∧ Frame s no s' ∧
      obj s'.mem no = append (obj s.mem no) buf) (· = .panic) s := by
  have hlt : no < 1920 := lt_of_lt_of_le hno.2 h.inoHi
  have hsize : (s.mem.word (139264 + 64 * no + 8)).toNat = (obj s.mem no).size := rfl
  rw [iappend, wp_bind, getWord, wp_read, hsize, wp_bind]
  refine (iappendLoop_spec buf.length h hno le_rfl (h.size no hlt)).imp ?_
  rintro pos s₁ ⟨hbuilt, hframe, rfl, hpos, hobj⟩
  rw [setWord, setBytes, wp_update]
  obtain ⟨d, hd⟩ : ∃ d : Dinode, d = { dinodeAt s₁.mem no with
      size := UInt32.ofNat ((obj s.mem no).size + buf.length) } := ⟨_, rfl⟩
  -- the new size is a word of the inode
  have hset : s₁.mem.splice (139264 + 64 * no + 8) (Mem.wordBytes
      (UInt32.ofNat ((obj s.mem no).size + buf.length))) = setDinode s₁.mem no d := by
    apply setDinode_word (show 2 < 16 by norm_num)
    rw [hd]
    rfl
  have hwrite := hbuilt.owned.metaWrite hlt (show d.addrs = (dinodeAt s₁.mem no).addrs by rw [hd])
  rw [hset]
  have hnat : (UInt32.ofNat ((obj s.mem no).size + buf.length)).toNat =
      (obj s.mem no).size + buf.length :=
    UInt32.toNat_ofNat_of_lt' (lt_of_le_of_lt hpos (by norm_num [UInt32.size]))
  have hself : obj (setDinode s₁.mem no d) no = append (obj s.mem no) buf := by
    have htype := congrArg Obj.type hobj
    have hdevice := congrArg Obj.device hobj
    have hbytes := congrArg Obj.bytes hobj
    rw [hwrite.self, hd]
    ext1
    · exact htype
    · exact hdevice
    · exact hnat
    · exact hbytes
  have hlo := hbuilt.blkLo
  refine ⟨⟨hbuilt.blkLo, hbuilt.blkHi, hbuilt.inoLo, hbuilt.inoHi,
    hbuilt.owned.congr hwrite.bit hwrite.place, fun b hge hb => ?_, fun a ha => ?_,
    fun no' hno' => ?_, fun no' hno' hfree => ?_⟩, hframe.trans ?_, hself⟩
  · exact (hwrite.bit b hb).trans (hbuilt.bits b hge hb)
  · have ha' : 4096 * s₁.next_blk ≤ a := ha
    exact (setDinode_out (by omega) hlt).trans (hbuilt.blank a ha')
  · by_cases hne : no' = no
    · rw [hne]
      change (obj (setDinode s₁.mem no d) no).size ≤ _
      rw [hself]
      exact hpos
    · change (obj (setDinode s₁.mem no d) no').size ≤ _
      rw [(hwrite.other no' hno' hne).obj]
      exact hbuilt.size no' hno'
  · have hne : no' ≠ no := by
      rintro rfl
      have hfree' : no' = 0 ∨ s₁.next_inode ≤ no' := hfree
      have hnext := hframe.next_inode
      omega
    exact (hwrite.dinodes no' hne).trans (hbuilt.fresh no' hno' hfree)
  · exact ⟨hwrite.other, fun no' _ hne => hwrite.dinodes no' hne,
      fun a ha => setDinode_out (by omega) hlt, rfl, rfl, rfl⟩

/-! ### One file -/

theorem append_append (o : Obj) (xs ys : List UInt8) :
    append (append o xs) ys = append o (xs ++ ys) := by
  ext1
  · rfl
  · rfl
  · simp only [append, List.length_append, Nat.add_assoc]
  · exact (Mem.splice_append xs ys).symm

theorem append_nil (o : Obj) : append o [] = o := by
  ext1
  · rfl
  · rfl
  · rfl
  · exact Mem.splice_nil

/-- An inode that has not been taken is free. -/
theorem obj_zero (h : dinodeAt D no = .zero) : obj D no = Obj.free := by
  have hplace (k : ℕ) : place D no k = 0 := by
    rw [place, h]
    split
    · rfl
    · exact if_neg fun hc => hc.2 rfl
  ext1
  · rw [obj, h]
    rfl
  · rw [obj, h]
    rfl
  · rw [obj, h]
    rfl
  · funext x
    exact if_pos (hplace _)

theorem ialloc_spec (h : s.Built) (type : UInt32) :
    wp (ialloc type) (fun no s' => no = s.next_inode ∧ no < 1920 ∧ s'.Built ∧
      Frame s no { s' with next_inode := s.next_inode } ∧ s'.next_inode = no + 1 ∧
      obj s'.mem no = { Obj.free with type := type }) (· = .panic) s := by
  rw [ialloc, wp_bind, wp_read, wp_bind, wp_assert]
  refine ⟨fun hlt => ?_, fun _ => rfl⟩
  have hlt' : s.next_inode < 1920 := hlt
  rw [wp_bind]
  apply iget_spec
  have hword : UInt32.ofNat type.toNat = type := UInt32.ofNat_toNat
  rw [wp_bind, setWord, setBytes, wp_update, hword, wp_bind, wp_update, wp_pure]
  obtain ⟨d, hd⟩ : ∃ d : Dinode, d = { dinodeAt s.mem s.next_inode with type := type } := ⟨_, rfl⟩
  -- the type is a word of the inode, which was blank
  have hset : s.mem.splice (139264 + 64 * s.next_inode) (Mem.wordBytes type) =
      setDinode s.mem s.next_inode d := by
    apply setDinode_word (show 0 < 16 by norm_num)
    rw [hd]
    rfl
  have hwrite := h.owned.metaWrite hlt'
    (show d.addrs = (dinodeAt s.mem s.next_inode).addrs by rw [hd])
  have hself : obj (setDinode s.mem s.next_inode d) s.next_inode = { Obj.free with type := type } := by
    have hzero := h.fresh s.next_inode hlt' (Or.inr le_rfl)
    rw [hwrite.self, hd, hzero]
    ext1
    · rfl
    · rfl
    · rfl
    · exact (congrArg Obj.bytes (obj_zero hzero) :)
  have hlo := h.blkLo
  rw [hset]
  refine ⟨rfl, hlt', ⟨h.blkLo, h.blkHi, Nat.le_add_left _ _, hlt',
    h.owned.congr hwrite.bit hwrite.place, fun b hge hb => ?_, fun a ha => ?_,
    fun no' hno' => ?_, fun no' hno' hfree => ?_⟩, ?_, rfl, hself⟩
  · exact (hwrite.bit b hb).trans (h.bits b hge hb)
  · have ha' : 4096 * s.next_blk ≤ a := ha
    exact (setDinode_out (by omega) hlt').trans (h.blank a ha')
  · by_cases hne : no' = s.next_inode
    · rw [hne]
      change (obj (setDinode s.mem s.next_inode d) s.next_inode).size ≤ _
      rw [hself]
      exact Nat.zero_le _
    · change (obj (setDinode s.mem s.next_inode d) no').size ≤ _
      rw [(hwrite.other no' hno' hne).obj]
      exact h.size no' hno'
  · have hinoLo := h.inoLo
    have hfree' : no' = 0 ∨ s.next_inode + 1 ≤ no' := hfree
    have hne : no' ≠ s.next_inode := by omega
    exact (hwrite.dinodes no' hne).trans (h.fresh no' hno' (by omega))
  · exact ⟨hwrite.other, fun no' _ hne => hwrite.dinodes no' hne,
      fun a ha => setDinode_out (by omega) hlt', rfl, rfl, rfl⟩

theorem appendFile_spec (fuel : ℕ) (h : s.Built) (hno : 0 < no ∧ no < s.next_inode)
    (hfuel : buf.length ≤ fuel) :
    wp (appendFile (139264 + 64 * no) fuel buf) (fun _ s' => s'.Built ∧ Frame s no s' ∧
      obj s'.mem no = append (obj s.mem no) buf) (· = .panic) s := by
  induction fuel generalizing s buf with
  | zero =>
    have hnil : buf = [] := List.length_eq_zero_iff.mp (by omega)
    subst hnil
    exact ⟨h, .refl s no, (append_nil _).symm⟩
  | succ fuel ih =>
    rw [appendFile, wp_ite]
    refine ⟨fun hne => ?_, fun hempty => ?_⟩
    · rw [wp_bind]
      refine (iappend_spec h hno).imp ?_
      rintro - s₁ ⟨hbuilt, hframe, hobj⟩
      have hlen : (buf.drop BLK_SIZE).length ≤ fuel := by
        rw [List.length_drop]
        change buf.length - 4096 ≤ fuel
        omega
      refine (ih hbuilt ⟨hno.1, hframe.next_inode ▸ hno.2⟩ hlen).imp ?_
      rintro - s' ⟨hbuilt', hframe', hobj'⟩
      refine ⟨hbuilt', hframe.trans hframe', ?_⟩
      rw [hobj', hobj, append_append, List.take_append_drop]
    · have hnil : buf = [] := List.length_eq_zero_iff.mp (by omega)
      subst hnil
      rw [wp_pure]
      exact ⟨h, .refl s no, (append_nil _).symm⟩

/-! ### All files -/

/-- The disk holds the files and nothing else. -/
structure Formatted (files : List (CString × List UInt8)) (D : Mem) : Prop where
  owned : Owned D
  size : ∀ no < 1920, (obj D no).size ≤ 1036 * 4096
  super : D.word 131072 = 33 ∧ D.word 131076 = 34 ∧ D.word 131080 = 1920 ∧ D.word 131084 = 1
  many : files.length + 2 ≤ 1920
  type : (obj D 1).type = TYPE_DIR
  count : (obj D 1).size = 32 * (files.length + 2)
  dot : ((obj D 1).entry 0).Names 1 DOT
  dotdot : ((obj D 1).entry 1).Names 1 DOTDOT
  entry : ∀ i, (hi : i < files.length) →
    ((obj D 1).entry (i + 2)).Names (i + 2) (basename (files.get ⟨i, hi⟩).1.1)
  file : ∀ i, (hi : i < files.length) → obj D (i + 2) =
    ⟨TYPE_FILE, 0, (files.get ⟨i, hi⟩).2.length, Mem.ofList (files.get ⟨i, hi⟩).2⟩
  free : ∀ no < 1920, no = 0 ∨ files.length + 2 ≤ no → obj D no = Obj.free

/-- The builder after the files. -/
structure Filled (files : List (CString × List UInt8)) (s : Mkfs) : Prop where
  built : s.Built
  next : s.next_inode = files.length + 2
  root : s.root = 139264 + 64 * 1
  formatted : Formatted files s.mem

/-- An entry at the end of a directory. -/
theorem append_entry {o : Obj} {dirent : Dirent} {n : ℕ} (hsize : o.size = 32 * n)
    (hlen : dirent.name.length = 28) : append o dirent.bytes = o.put n dirent := by
  have hbytes : dirent.bytes.length = 32 := Dirent.length_bytes hlen
  ext1
  · rfl
  · rfl
  · simp only [append, Obj.put, hbytes, hsize]
    omega
  · simp only [append, Obj.put, hsize]

theorem not_mem_basename (path : CString) : (0 : UInt8) ∉ basename path.1 := by
  have hrev : (0 : UInt8) ∉ path.1.reverse.dropWhile (· = SLASH) := by
    intro hmem
    exact path.2 (List.mem_reverse.mp ((List.dropWhile_suffix _).subset hmem))
  unfold basename
  split
  · decide
  · simp only
    split
    · decide
    · intro hmem
      exact hrev ((List.takeWhile_sublist _).subset (List.mem_reverse.mp hmem))

theorem add_file_spec {files : List (CString × List UInt8)} (h : Filled files s) (path : CString)
    (data : List UInt8) :
    wp (add_file path data) (fun _ s' => Filled (files ++ [(path, data)]) s')
      (fun e => e = .panic ∨ e = .longName) s := by
  obtain ⟨hbuilt, hnext, hroot, hform⟩ := h
  rw [add_file, wp_bind]
  refine (ialloc_spec hbuilt TYPE_FILE).mono ?_ fun e he => Or.inl he
  rintro no s₁ ⟨hno, hlt, hbuilt₁, hframe₁, hnext₁, hobj₁⟩
  rw [hnext] at hno
  rw [wp_bind]
  apply iget_spec
  rw [wp_bind, stackDirent, wp_read, wp_bind, wp_assert]
  refine ⟨fun hshort => ?_, fun _ => Or.inr rfl⟩
  have hshort' : (basename path.1).length ≤ 27 := hshort
  obtain ⟨dirent, hdirent⟩ : ∃ dirent : Dirent, dirent = { Dirent.ofMem (s₁.junk no) 0 with
      inode := UInt32.ofNat no
      name := strcpy (Dirent.ofMem (s₁.junk no) 0).name (basename path.1) } := ⟨_, rfl⟩
  have hnames : dirent.Names no (basename path.1) := by
    rw [hdirent]
    exact Dirent.names_mk _ _ (Dirent.length_ofMem _ _) hlt hshort' (not_mem_basename path)
  have hroot₁ : s₁.root = 139264 + 64 * 1 := hframe₁.root.trans hroot
  rw [wp_bind, wp_read, hroot₁, wp_bind, ← hdirent]
  refine (iappend_spec hbuilt₁ ⟨Nat.one_pos, by omega⟩).mono ?_ fun e he => Or.inl he
  rintro - s₂ ⟨hbuilt₂, hframe₂, hobj₂⟩
  have hnext₂ : s₂.next_inode = no + 1 := hframe₂.next_inode.trans hnext₁
  refine (appendFile_spec data.length hbuilt₂ ⟨by omega, by omega⟩ le_rfl).mono ?_
    fun e he => Or.inl he
  rintro - s' ⟨hbuilt', hframe', hobj'⟩
  -- the objects at the end
  have hone : obj s'.mem 1 = (obj s.mem 1).put no dirent := by
    rw [(hframe'.other 1 (by norm_num) (by omega)).obj, hobj₂,
      (hframe₁.other 1 (by norm_num) (by omega)).obj]
    exact append_entry (by rw [hform.count, hno]) hnames.length
  have hnew : obj s'.mem no = ⟨TYPE_FILE, 0, data.length, Mem.ofList data⟩ := by
    rw [hobj', (hframe₂.other no hlt (by omega)).obj, hobj₁]
    ext1
    · rfl
    · rfl
    · exact Nat.zero_add _
    · funext x
      simp only [append, Obj.free, Mem.splice, Nat.zero_le, if_true, Nat.sub_zero]
      rfl
  have hother (x : ℕ) (hx : x < 1920) (hx1 : x ≠ 1) (hxno : x ≠ no) : obj s'.mem x = obj s.mem x := by
    rw [(hframe'.other x hx hxno).obj, (hframe₂.other x hx hx1).obj, (hframe₁.other x hx hxno).obj]
  have hsuper (a : ℕ) (ha : a + 4 ≤ 135168) : s'.mem.word a = s.mem.word a := by
    apply Mem.word_congr
    intro k hk
    rw [hframe'.super _ (by omega), hframe₂.super _ (by omega)]
    exact hframe₁.super _ (by omega)
  have hdvd : 32 ∣ (obj s.mem 1).size := by
    rw [hform.count]
    exact Dvd.intro _ rfl
  have hlen : (files ++ [(path, data)]).length = files.length + 1 := List.length_append
  refine ⟨hbuilt', ?_, ?_, hbuilt'.owned, hbuilt'.size, ?_, ?_, ?_, ?_, ?_, ?_, fun i hi => ?_,
    fun i hi => ?_, fun x hx hfree => ?_⟩
  · rw [hframe'.next_inode, hnext₂, hlen]
    omega
  · rw [hframe'.root, hframe₂.root, hroot₁]
  · rw [hsuper _ (by norm_num), hsuper _ (by norm_num), hsuper _ (by norm_num),
      hsuper _ (by norm_num)]
    exact hform.super
  · rw [hlen]
    omega
  · rw [hone]
    exact hform.type
  · rw [hone, hlen]
    simp only [Obj.put, hform.count]
    omega
  · rw [hone, Obj.entry_put_of_ne hnames.length (by omega)]
    exact hform.dot
  · rw [hone, Obj.entry_put_of_ne hnames.length (by omega)]
    exact hform.dotdot
  · rw [hlen] at hi
    rw [hone]
    by_cases hlast : i = files.length
    · subst hlast
      rw [← hno, Obj.entry_put_self hnames.length]
      simpa using hnames
    · rw [Obj.entry_put_of_ne hnames.length (by omega)]
      have hold := hform.entry i (by omega)
      simpa [List.getElem_append_left (show i < files.length by omega)] using hold
  · rw [hlen] at hi
    by_cases hlast : i = files.length
    · subst hlast
      rw [← hno, hnew]
      simp
    · rw [hother (i + 2) (by omega) (by omega) (by omega), hform.file i (by omega)]
      simp [List.getElem_append_left (show i < files.length by omega)]
  · rw [hlen] at hfree
    rw [hother x hx (by omega) (by omega)]
    exact hform.free x hx (by omega)

/-! ### The root directory -/

/-- What is below the bitmap does not matter. -/
theorem Built.below (h : s.Built) (hsame : ∀ a, 135168 ≤ a → D a = s.mem a) :
    Built { s with mem := D } ∧ ∀ no < 1920, obj D no = obj s.mem no := by
  have hbit (b : ℕ) (hb : b < 32768) : bitAt D b = bitAt s.mem b :=
    bitAt_congr (fun a ha _ => hsame a ha) hb
  have hdinode (no : ℕ) : dinodeAt D no = dinodeAt s.mem no :=
    dinodeAt_congr fun i _ => hsame _ (by omega)
  have hrange {no k : ℕ} (hno : no < 1920) (hne : place s.mem no k ≠ 0) :
      64 ≤ place s.mem no k := (h.owned.range no hno k hne).1
  have hplace (no : ℕ) (hno : no < 1920) (k : ℕ) : place D no k = place s.mem no k :=
    place_congr (hdinode no) fun hne a _ => hsame _ (by have := hrange hno hne; omega)
  have hobj (no : ℕ) (hno : no < 1920) : obj D no = obj s.mem no := by
    have hbytes : fileByte D no = fileByte s.mem no := by
      funext x
      apply fileByte_congr (hplace no hno _)
      intro hne a _
      exact hsame _ (by have := hrange hno hne; omega)
    rw [obj, obj, hdinode, hbytes]
  have hlo := h.blkLo
  refine ⟨⟨h.blkLo, h.blkHi, h.inoLo, h.inoHi, h.owned.congr hbit hplace, fun b hge hb => ?_,
    fun a ha => ?_, fun no hno => ?_, fun no hno hfree => ?_⟩, hobj⟩
  · exact (hbit b hb).trans (h.bits b hge hb)
  · have ha' : 4096 * s.next_blk ≤ a := ha
    exact (hsame a (by omega)).trans (h.blank a ha')
  · change (obj D no).size ≤ _
    rw [hobj no hno]
    exact h.size no hno
  · exact (hdinode no).trans (h.fresh no hno hfree)

/-- The image whose first 64 blocks are taken. -/
theorem built_start {root : ℕ} {junk : ℕ → Mem}
    (hmem : ∀ a, 135168 ≤ a → D a = if a < 135176 then 255 else 0) : Built ⟨D, 64, 1, root, junk⟩ := by
  have hbit (b : ℕ) : bitAt D b = decide (b < 64) := by
    rw [bitAt_byte, hmem _ (by omega)]
    by_cases hb : b < 64
    · have hones : ∀ i < 8, Nat.testBit 255 i = true := by decide
      rw [if_pos (by omega), decide_eq_true hb]
      exact hones _ (Nat.mod_lt _ (by norm_num))
    · rw [if_neg (by omega), decide_eq_false hb]
      exact Nat.zero_testBit _
  have hzero (a : ℕ) (ha : 135176 ≤ a) : D a = 0 := by rw [hmem a (by omega), if_neg (by omega)]
  have hdinode (no : ℕ) : dinodeAt D no = .zero :=
    Dinode.ofMem_zero fun k _ => hzero _ (by omega)
  have hplace (no k : ℕ) : place D no k = 0 := by
    rw [place, hdinode]
    split
    · rfl
    · exact if_neg fun hc => hc.2 rfl
  refine ⟨le_rfl, by norm_num, le_rfl, by norm_num, ⟨fun b hb => ?_, fun no _ k hne => ?_,
    fun no _ no' _ k k' hne => ?_, fun b hlo _ hb => ?_⟩, fun b hge _ => ?_, fun a ha => ?_,
    fun no _ => ?_, fun no _ _ => hdinode no⟩
  · exact (hbit b).trans (decide_eq_true hb)
  · exact (hne (hplace no k)).elim
  · exact (hne (hplace no k)).elim
  · have hset : bitAt D b = true := hb
    rw [hbit, decide_eq_true_eq] at hset
    omega
  · have hge' : 64 ≤ b := hge
    exact (hbit b).trans (decide_eq_false (by omega))
  · have ha' : 4096 * 64 ≤ a := ha
    exact hzero a (by omega)
  · change (obj D no).size ≤ _
    rw [obj_zero (hdinode no)]
    exact Nat.zero_le _

/-- The two entries of the new root directory. -/
theorem root_entries_spec (h : s.Built) (hnext : s.next_inode = 2)
    (hobj : obj s.mem 1 = { Obj.free with type := TYPE_DIR }) {first : Dirent}
    (hfirst : first.Names 1 DOT) :
    wp (do
      iappend (139264 + 64 * 1) first.bytes
      iappend (139264 + 64 * 1) { first with name := strcpy first.name DOTDOT }.bytes)
      (fun _ s' => s'.Built ∧ Frame s 1 s' ∧ ∃ second : Dirent, second.Names 1 DOTDOT ∧
        obj s'.mem 1 = (({ Obj.free with type := TYPE_DIR } : Obj).put 0 first).put 1 second)
      (· = .panic) s := by
  obtain ⟨second, hsecond⟩ : ∃ second : Dirent,
      second = { first with name := strcpy first.name DOTDOT } := ⟨_, rfl⟩
  have hone : first.inode = UInt32.ofNat 1 := UInt32.toNat_inj.mp hfirst.inode
  have hinode : first = { first with inode := UInt32.ofNat 1 } := by rw [← hone]
  have hnames : second.Names 1 DOTDOT := by
    rw [hsecond, hinode]
    exact Dirent.names_mk _ _ hfirst.length (by norm_num) (by decide) (by decide)
  rw [wp_bind, ← hsecond]
  refine (iappend_spec h ⟨Nat.one_pos, by omega⟩).imp ?_
  rintro - s₁ ⟨hbuilt₁, hframe₁, hobj₁⟩
  refine (iappend_spec hbuilt₁ ⟨Nat.one_pos, by rw [hframe₁.next_inode]; omega⟩).imp ?_
  rintro - s' ⟨hbuilt', hframe', hobj'⟩
  refine ⟨hbuilt', hframe₁.trans hframe', second, hnames, ?_⟩
  have hempty : ({ Obj.free with type := TYPE_DIR } : Obj).size = 32 * 0 := rfl
  have hput : (({ Obj.free with type := TYPE_DIR } : Obj).put 0 first).size = 32 * 1 := rfl
  rw [hobj', hobj₁, hobj, append_entry hempty hfirst.length, append_entry hput hnames.length]

/-- An image with an empty root directory. -/
theorem filled_nil (h : s.Built) (hnext : s.next_inode = 2) (hroot : s.root = 139264 + 64 * 1)
    (hsuper : s.mem.word 131072 = 33 ∧ s.mem.word 131076 = 34 ∧ s.mem.word 131080 = 1920 ∧
      s.mem.word 131084 = 1) {first second : Dirent} (hfirst : first.Names 1 DOT)
    (hsecond : second.Names 1 DOTDOT)
    (hobj : obj s.mem 1 = (({ Obj.free with type := TYPE_DIR } : Obj).put 0 first).put 1 second) :
    Filled [] s where
  built := h
  next := hnext
  root := hroot
  formatted := by
    refine ⟨h.owned, h.size, hsuper, by norm_num, ?_, ?_, ?_, ?_, ?_, ?_, ?_⟩
    · rw [hobj]
      rfl
    · rw [hobj]
      rfl
    · rw [hobj, Obj.entry_put_of_ne hsecond.length (by norm_num),
        Obj.entry_put_self hfirst.length]
      exact hfirst
    · rw [hobj, Obj.entry_put_self hsecond.length]
      exact hsecond
    · intro i hi
      cases hi
    · intro i hi
      cases hi
    · intro no hno hfree
      apply obj_zero (h.fresh no hno _)
      rw [hnext]
      exact hfree

theorem init_disk_spec (boot : Mem) (junk : ℕ → Mem) :
    wp init_disk (fun _ s' => Filled [] s') (· = .panic) (zero boot junk) := by
  obtain ⟨D₀, hD₀⟩ : ∃ D₀, D₀ = (zero boot junk).mem := ⟨_, rfl⟩
  obtain ⟨D₁, hD₁⟩ : ∃ D₁, D₁ = ((((D₀.splice 131072 (Mem.wordBytes (UInt32.ofNat 33))).splice 131076
    (Mem.wordBytes (UInt32.ofNat 34))).splice 131080 (Mem.wordBytes (UInt32.ofNat 1920))).splice
    135172 (Mem.wordBytes (UInt32.ofNat 0xffffffff))).splice 135168
    (Mem.wordBytes (UInt32.ofNat 0xffffffff)) := ⟨_, rfl⟩
  have hones : Mem.wordBytes (UInt32.ofNat 0xffffffff) = List.replicate 4 255 := by decide
  -- the super block and the bits of the boot area are written, and the rest is zero
  have hmem (a : ℕ) (ha : 135168 ≤ a) : D₁ a = if a < 135176 then 255 else 0 := by
    have hzero : D₀ a = 0 := by
      rw [hD₀]
      exact if_neg (by change ¬ a < 32 * 4096; omega)
    rw [hD₁, hones, ← Mem.fill_eq_splice, ← Mem.fill_eq_splice]
    unfold Mem.fill
    split_ifs with h₁ h₂ h₃ h₃
    · rfl
    · omega
    · rfl
    · omega
    · omega
    · rw [Mem.splice_out (by simp; omega), Mem.splice_out (by simp; omega),
        Mem.splice_out (by simp; omega), hzero]
  have hsuper : D₁.word 131072 = 33 ∧ D₁.word 131076 = 34 ∧ D₁.word 131080 = 1920 := by
    have hword (a : ℕ) (ha : a + 4 ≤ 135168) : D₁.word a = (((D₀.splice 131072
        (Mem.wordBytes (UInt32.ofNat 33))).splice 131076 (Mem.wordBytes (UInt32.ofNat 34))).splice
        131080 (Mem.wordBytes (UInt32.ofNat 1920))).word a := by
      rw [hD₁, Mem.word_splice_out (by simp; omega), Mem.word_splice_out (by simp; omega)]
    refine ⟨?_, ?_, ?_⟩
    · rw [hword _ (by norm_num), Mem.word_splice_out (by simp), Mem.word_splice_out (by simp),
        Mem.word_splice_self]
      rfl
    · rw [hword _ (by norm_num), Mem.word_splice_out (by simp), Mem.word_splice_self]
      rfl
    · rw [hword _ (by norm_num), Mem.word_splice_self]
      rfl
  have hstart : Built ⟨D₁, 64, 1, 0, junk⟩ := built_start hmem
  rw [init_disk, wp_bind]
  apply bget_spec (by norm_num)
  rw [wp_bind, setWord, setBytes, wp_update, wp_bind, setWord, setBytes, wp_update, wp_bind, setWord,
    setBytes, wp_update, wp_bind]
  apply bget_spec (by norm_num)
  rw [wp_bind, setWord, setBytes, wp_update, wp_bind, setWord, setBytes, wp_update, wp_bind]
  change wp (ialloc TYPE_DIR) _ _ ⟨((((((zero boot junk).mem.splice 131072
    (Mem.wordBytes (UInt32.ofNat 33))).splice 131076
    (Mem.wordBytes (UInt32.ofNat 34))).splice 131080 (Mem.wordBytes (UInt32.ofNat 1920))).splice
    135172 (Mem.wordBytes (UInt32.ofNat 0xffffffff))).splice 135168
    (Mem.wordBytes (UInt32.ofNat 0xffffffff))), 64, 1, 0, junk⟩
  rw [← hD₀, ← hD₁]
  refine (ialloc_spec hstart TYPE_DIR).imp ?_
  rintro no s₁ ⟨rfl, -, hbuilt₁, hframe₁, hnext₁, hobj₁⟩
  rw [wp_bind, setWord, setBytes, wp_update]
  obtain ⟨D₂, hD₂⟩ : ∃ D₂, D₂ = s₁.mem.splice 131084 (Mem.wordBytes (UInt32.ofNat 1)) := ⟨_, rfl⟩
  change wp _ _ _ { s₁ with mem := s₁.mem.splice 131084 (Mem.wordBytes (UInt32.ofNat 1)) }
  rw [← hD₂]
  have hsame₂ (a : ℕ) (ha : a < 131084 ∨ 131088 ≤ a) : D₂ a = s₁.mem a := by
    rw [hD₂]
    exact Mem.splice_out (by simp; omega)
  obtain ⟨hbuilt₂, hobj₂⟩ := hbuilt₁.below fun a ha => hsame₂ a (by omega)
  rw [wp_bind]
  apply iget_spec
  rw [wp_bind, wp_update, wp_bind, stackDirent, wp_read]
  obtain ⟨first, hfirst⟩ : ∃ first : Dirent, first = { Dirent.ofMem (s₁.junk 1) 0 with
      inode := UInt32.ofNat 1, name := strcpy (Dirent.ofMem (s₁.junk 1) 0).name DOT } := ⟨_, rfl⟩
  have hnames : first.Names 1 DOT := by
    rw [hfirst]
    exact Dirent.names_mk _ _ (Dirent.length_ofMem _ _) (by norm_num) (by decide) (by decide)
  -- the directory entry is on the stack and holds what was there before
  have hroot : Built { s₁ with mem := D₂, root := 139264 + 64 * 1 } :=
    ⟨hbuilt₂.blkLo, hbuilt₂.blkHi, hbuilt₂.inoLo, hbuilt₂.inoHi, hbuilt₂.owned, hbuilt₂.bits,
      hbuilt₂.blank, hbuilt₂.size, hbuilt₂.fresh⟩
  have hentries := root_entries_spec hroot hnext₁
    ((hobj₂ 1 (by norm_num)).trans hobj₁) hnames
  rw [hfirst] at hentries
  refine hentries.imp ?_
  rintro - s' ⟨hbuilt', hframe', second, hsecond, hobj'⟩
  rw [← hfirst] at hobj'
  apply filled_nil hbuilt' (hframe'.next_inode.trans hnext₁) hframe'.root ?_ hnames hsecond hobj'
  -- what follows leaves the super block as it is
  have hkeep (a : ℕ) (ha : a + 4 ≤ 131084) : s'.mem.word a = D₁.word a := by
    apply Mem.word_congr
    intro k hk
    rw [hframe'.super _ (by omega)]
    exact (hsame₂ _ (by omega)).trans (hframe₁.super _ (by omega))
  rw [hkeep _ (by norm_num), hkeep _ (by norm_num), hkeep _ (by norm_num)]
  refine ⟨hsuper.1, hsuper.2.1, hsuper.2.2, ?_⟩
  have hword : s'.mem.word 131084 = D₂.word 131084 :=
    Mem.word_congr fun k hk => hframe'.super _ (by omega)
  rw [hword, hD₂, Mem.word_splice_self]
  rfl

/-- **What the builder writes** is the disk with the files. -/
theorem main_spec (files : List (CString × List UInt8)) (boot : Mem) (junk : ℕ → Mem) :
    wp (main files) (fun _ s' => Filled files s') (fun e => e = .panic ∨ e = .longName)
      (zero boot junk) := by
  rw [main, wp_bind, wp_assert]
  refine ⟨fun _ => ?_, fun _ => Or.inl rfl⟩
  rw [wp_bind]
  refine (init_disk_spec boot junk).mono ?_ fun e he => Or.inl he
  intro _ s₁ h₁
  apply wp_loop (fun todo _ s => ∃ done, files = done ++ todo ∧ Filled done s) files () ⟨[], rfl, h₁⟩
  · intro file todo _ s hs
    obtain ⟨done, rfl, hfilled⟩ := hs
    refine (add_file_spec hfilled file.1 file.2).imp ?_
    intro _ s' hs'
    exact ⟨done ++ [file], by rw [List.append_assoc, List.singleton_append], hs'⟩
  · intro _ s hs
    obtain ⟨done, rfl, hfilled⟩ := hs
    rwa [List.append_nil]

/-- An image holds the files it is made of. -/
theorem ImageOf.formatted {files : List (CString × List UInt8)} (h : ImageOf files D) :
    Formatted files D := by
  obtain ⟨boot, junk, s, hrun, rfl⟩ := h
  have hspec := main_spec files boot junk
  rw [wp, hrun] at hspec
  exact hspec.formatted

end Mkfs

end Oslab
