/-
# The invariant of the file system

Between two operations the cache agrees with the disk, blocks are owned, every
live slot of the inode table has its own inode number and a copy of that inode,
and a free inode is empty. The specifications here are those of the operations
on words, on-disk inodes, free blocks and slots of the table.
-/
import Oslab.Ownership

namespace Oslab

open Lib Lib.Prog

/-- The state holds the disk `D` behind its cache and the inode table `I`. -/
structure Fs.At (s : Fs) (D : Mem) (I : InodePtr → Inode) : Prop where
  coherent : s.disk.Coherent
  bytes : s.disk.bytes = D
  sb : s.sb = layout
  inodes : s.inodes = I

/-- The largest file: the direct blocks and the words of an indirect block. -/
abbrev MAXFILE : ℕ := 1036 * 4096

/-- The invariant of the disk and the inode table. -/
structure FsInv (D : Mem) (I : InodePtr → Inode) : Prop where
  owned : Owned D
  size : ∀ no < 1920, (obj D no).size ≤ 1036 * 4096
  free : ∀ no < 1920, (obj D no).type = TYPE_NONE → (obj D no).size = 0
  ref : ∀ j, 0 ≤ (I j).ref
  live : ∀ j, 0 < (I j).ref → (I j).no < 1920 ∧ (I j).dinode = dinodeAt D (I j).no
  uniq : ∀ i j, 0 < (I i).ref → 0 < (I j).ref → (I i).no = (I j).no → i = j

/-- The state holds `D` and `I`, and they meet the invariant. -/
def Fs.Holds (s : Fs) (D : Mem) (I : InodePtr → Inode) : Prop := s.At D I ∧ FsInv D I

/-- The two tables count the same references to the same inodes. -/
def SameSlots (I I' : InodePtr → Inode) : Prop :=
  ∀ j, (I' j).ref = (I j).ref ∧
    (0 < (I j).ref → (I' j).no = (I j).no ∧ (I' j).del = (I j).del)

/-- Slot `j` has one reference more, to inode `no`. -/
structure Opened (I I' : InodePtr → Inode) (j : InodePtr) (no : ℕ) : Prop where
  ref : (I' j).ref = (I j).ref + 1
  ino : (I' j).no = no
  old : 0 < (I j).ref → (I j).no = no ∧ (I' j).del = (I j).del
  new : (I j).ref = 0 → (I' j).del = false ∧ ∀ i, 0 < (I i).ref → (I i).no ≠ no
  others : ∀ i ≠ j, (I' i).ref = (I i).ref ∧
    (0 < (I i).ref → (I' i).no = (I i).no ∧ (I' i).del = (I i).del)

/-- Slot `j` has one reference less. -/
structure Closed (I I' : InodePtr → Inode) (j : InodePtr) : Prop where
  ref : (I' j).ref = (I j).ref - 1
  self : 1 < (I j).ref → (I' j).no = (I j).no ∧ (I' j).del = (I j).del
  others : ∀ i ≠ j, (I' i).ref = (I i).ref ∧
    (0 < (I i).ref → (I' i).no = (I i).no ∧ (I' i).del = (I i).del)

section Slots

variable {I I' I'' : InodePtr → Inode} {j : InodePtr} {no : ℕ}

theorem SameSlots.refl (I : InodePtr → Inode) : SameSlots I I := fun _ => ⟨rfl, fun _ => ⟨rfl, rfl⟩⟩

theorem SameSlots.trans (h : SameSlots I I') (h' : SameSlots I' I'') : SameSlots I I'' := by
  intro j
  obtain ⟨hr, hs⟩ := h j
  obtain ⟨hr', hs'⟩ := h' j
  refine ⟨hr'.trans hr, fun hpos => ?_⟩
  obtain ⟨hno, hdel⟩ := hs hpos
  obtain ⟨hno', hdel'⟩ := hs' (by rw [hr]; exact hpos)
  exact ⟨hno'.trans hno, hdel'.trans hdel⟩

theorem SameSlots.symm (h : SameSlots I I') : SameSlots I' I := by
  intro j
  obtain ⟨hr, hs⟩ := h j
  refine ⟨hr.symm, fun hpos => ?_⟩
  obtain ⟨hno, hdel⟩ := hs (by rw [← hr]; exact hpos)
  exact ⟨hno.symm, hdel.symm⟩

theorem Opened.trans_same (h : Opened I I' j no) (h' : SameSlots I' I'') (href : 0 ≤ (I j).ref) :
    Opened I I'' j no where
  ref := (h' j).1.trans h.ref
  ino := ((h' j).2 (by rw [h.ref]; omega)).1.trans h.ino
  old hpos := ⟨(h.old hpos).1, ((h' j).2 (by rw [h.ref]; omega)).2.trans (h.old hpos).2⟩
  new hz := ⟨((h' j).2 (by rw [h.ref]; omega)).2.trans (h.new hz).1, (h.new hz).2⟩
  others i hi := by
    obtain ⟨hr, hs⟩ := h.others i hi
    refine ⟨(h' i).1.trans hr, fun hpos => ?_⟩
    obtain ⟨hno, hdel⟩ := (h' i).2 (by rw [hr]; exact hpos)
    exact ⟨hno.trans (hs hpos).1, hdel.trans (hs hpos).2⟩

theorem Opened.of_same (h : SameSlots I I') (h' : Opened I' I'' j no) : Opened I I'' j no where
  ref := by rw [h'.ref, (h j).1]
  ino := h'.ino
  old hpos := by
    obtain ⟨hno, hdel⟩ := (h j).2 hpos
    obtain ⟨hno', hdel'⟩ := h'.old (by rw [(h j).1]; exact hpos)
    exact ⟨hno.symm.trans hno', hdel'.trans hdel⟩
  new hz := by
    obtain ⟨hdel, hnone⟩ := h'.new (by rw [(h j).1]; exact hz)
    refine ⟨hdel, fun i hpos => ?_⟩
    rw [← ((h i).2 hpos).1]
    exact hnone i (by rw [(h i).1]; exact hpos)
  others i hi := by
    obtain ⟨hr, hs⟩ := h'.others i hi
    refine ⟨hr.trans (h i).1, fun hpos => ?_⟩
    obtain ⟨hno, hdel⟩ := hs (by rw [(h i).1]; exact hpos)
    exact ⟨hno.trans ((h i).2 hpos).1, hdel.trans ((h i).2 hpos).2⟩

/-- Slot `j` is opened, then slot `k`, and slot `j` is closed. -/
theorem Opened.next {k : InodePtr} {no' : ℕ} {I₃ : InodePtr → Inode} (h : Opened I I' j no)
    (h' : Opened I' I'' k no') (hc : Closed I'' I₃ j) (href : 0 ≤ (I j).ref) (hrefk : 0 ≤ (I k).ref) :
    Opened I I₃ k no' := by
  have hj := h.ref
  -- the slot is opened twice and closed once, or there are two slots
  by_cases hkj : k = j
  · subst hkj
    have hk := h'.ref
    obtain ⟨hno', hdel'⟩ := h'.old (by omega)
    obtain ⟨hno₃, hdel₃⟩ := hc.self (by omega)
    have hsame : no = no' := h.ino.symm.trans hno'
    refine ⟨by rw [hc.ref, h'.ref, h.ref]; omega, hno₃.trans h'.ino, fun hpos => ?_, fun hz => ?_,
      fun i hi => ?_⟩
    · obtain ⟨hno, hdel⟩ := h.old hpos
      exact ⟨hno.trans hsame, hdel₃.trans (hdel'.trans hdel)⟩
    · obtain ⟨hdel, hnone⟩ := h.new hz
      exact ⟨hdel₃.trans (hdel'.trans hdel), hsame ▸ hnone⟩
    · obtain ⟨hr, hs⟩ := h.others i hi
      obtain ⟨hr', hs'⟩ := h'.others i hi
      obtain ⟨hr₃, hs₃⟩ := hc.others i hi
      refine ⟨hr₃.trans (hr'.trans hr), fun hpos => ?_⟩
      obtain ⟨hno, hdel⟩ := hs hpos
      obtain ⟨hno', hdel'⟩ := hs' (by rw [hr]; exact hpos)
      obtain ⟨hno₃, hdel₃⟩ := hs₃ (by rw [hr', hr]; exact hpos)
      exact ⟨hno₃.trans (hno'.trans hno), hdel₃.trans (hdel'.trans hdel)⟩
  · obtain ⟨hrk, hsk⟩ := h.others k hkj
    obtain ⟨hrj', hsj'⟩ := h'.others j (Ne.symm hkj)
    obtain ⟨hrk₃, hsk₃⟩ := hc.others k hkj
    have hk' := h'.ref
    obtain ⟨hnok₃, hdelk₃⟩ := hsk₃ (by omega)
    refine ⟨by rw [hrk₃, h'.ref, hrk], hnok₃.trans h'.ino, fun hpos => ?_, fun hz => ?_,
      fun i hi => ?_⟩
    · obtain ⟨hno, hdel⟩ := hsk hpos
      obtain ⟨hno', hdel'⟩ := h'.old (by rw [hrk]; exact hpos)
      exact ⟨hno.symm.trans hno', hdelk₃.trans (hdel'.trans hdel)⟩
    · obtain ⟨hdel', hnone⟩ := h'.new (by rw [hrk]; exact hz)
      refine ⟨hdelk₃.trans hdel', fun i hpos => ?_⟩
      by_cases hij : i = j
      · subst hij
        rw [(h.old hpos).1, ← h.ino]
        exact hnone i (by omega)
      · obtain ⟨hri, hsi⟩ := h.others i hij
        rw [← (hsi hpos).1]
        exact hnone i (by rw [hri]; exact hpos)
    · by_cases hij : i = j
      · subst hij
        refine ⟨by rw [hc.ref, hrj', h.ref]; omega, fun hpos => ?_⟩
        obtain ⟨hno, hdel⟩ := h.old hpos
        obtain ⟨hno', hdel'⟩ := hsj' (by omega)
        obtain ⟨hno₃, hdel₃⟩ := hc.self (by omega)
        exact ⟨hno₃.trans (hno'.trans (h.ino.trans hno.symm)), hdel₃.trans (hdel'.trans hdel)⟩
      · obtain ⟨hr, hs⟩ := h.others i hij
        obtain ⟨hr', hs'⟩ := h'.others i hi
        obtain ⟨hr₃, hs₃⟩ := hc.others i hij
        refine ⟨hr₃.trans (hr'.trans hr), fun hpos => ?_⟩
        obtain ⟨hno, hdel⟩ := hs hpos
        obtain ⟨hno', hdel'⟩ := hs' (by rw [hr]; exact hpos)
        obtain ⟨hno₃, hdel₃⟩ := hs₃ (by rw [hr', hr]; exact hpos)
        exact ⟨hno₃.trans (hno'.trans hno), hdel₃.trans (hdel'.trans hdel)⟩

/-- A slot just opened is not freed when it is closed: it is not marked, or held before. -/
theorem Opened.not_last (h : Opened I I' j no) : ¬ ((I' j).ref = 1 ∧ (I' j).del = true) := by
  rintro ⟨hone, hdel⟩
  have hr := h.ref
  have hz : (I j).ref = 0 := by omega
  rw [(h.new hz).1] at hdel
  cases hdel

/-- A slot opened and closed again. -/
theorem Opened.close (h : Opened I I' j no) (h' : Closed I' I'' j) : SameSlots I I'' := by
  intro i
  by_cases hi : i = j
  · subst hi
    refine ⟨by rw [h'.ref, h.ref]; omega, fun hpos => ?_⟩
    obtain ⟨hno, hdel⟩ := h'.self (by rw [h.ref]; omega)
    exact ⟨hno.trans (h.ino.trans (h.old hpos).1.symm), hdel.trans (h.old hpos).2⟩
  · obtain ⟨hr, hs⟩ := h.others i hi
    obtain ⟨hr', hs'⟩ := h'.others i hi
    refine ⟨hr'.trans hr, fun hpos => ?_⟩
    obtain ⟨hno, hdel⟩ := hs' (by rw [hr]; exact hpos)
    exact ⟨hno.trans (hs hpos).1, hdel.trans (hs hpos).2⟩

end Slots

/-! ### Words and on-disk inodes -/

section Primitive

variable {s : Fs} {D : Mem} {I : InodePtr → Inode} {fail : Abort → Prop}

theorem onDisk_spec {α : Type} {m : DiskM α} {post : α → Disk → Prop}
    {Q : α → Fs → Prop} (hm : wp m post fail s.disk)
    (hQ : ∀ a d, post a d → Q a { s with disk := d }) : wp (onDisk m) Q fail s := by
  rw [onDisk, wp_zoom]
  exact hm.imp hQ

theorem readWord_spec (h : s.At D I) {no off : ℕ} (hoff : off + 4 ≤ 4096) :
    wp (readWord no off) (fun w s' => s'.At D I ∧ w = (D.word (4096 * no + off)).toNat) fail s := by
  rw [readWord, wp_bind]
  refine onDisk_spec (Disk.bread_spec h.coherent (by omega)) ?_
  rintro bs d ⟨hc, hbytes, rfl⟩
  refine ⟨⟨hc, hbytes.trans h.bytes, h.sb, h.inodes⟩, ?_⟩
  rw [h.bytes, Mem.word_ofList_slice (by omega), Nat.add_zero]

theorem writeWord_spec (h : s.At D I) {w no off : ℕ} (hoff : off + 4 ≤ 4096) :
    wp (writeWord w no off) (fun _ s' =>
      s'.At (D.splice (4096 * no + off) (Mem.wordBytes (UInt32.ofNat w))) I) fail s := by
  refine onDisk_spec (Disk.bwrite_spec h.coherent (by rw [Mem.length_wordBytes]; omega)) ?_
  rintro _ d ⟨hc, hbytes⟩
  exact ⟨hc, by rw [hbytes, h.bytes], h.sb, h.inodes⟩

theorem dinode_offset (no : ℕ) : Dinode.sizeof + no % IPERBLK * Dinode.sizeof ≤ 4096 ∧
    4096 * (34 + no / IPERBLK) + no % IPERBLK * Dinode.sizeof = 139264 + 64 * no := by
  change 64 + no % 64 * 64 ≤ 4096 ∧ 4096 * (34 + no / 64) + no % 64 * 64 = 139264 + 64 * no
  omega

theorem diread_spec (h : s.At D I) (no : ℕ) :
    wp (diread no) (fun di s' => s'.At D I ∧ di = dinodeAt D no) fail s := by
  simp only [diread, wp_bind, wp_read, h.sb, layout]
  obtain ⟨hroom, haddr⟩ := dinode_offset no
  refine onDisk_spec (Disk.bread_spec h.coherent hroom) ?_
  rintro bs d ⟨hc, hbytes, rfl⟩
  refine ⟨⟨hc, hbytes.trans h.bytes, h.sb.trans rfl, h.inodes⟩, ?_⟩
  rw [Dinode.ofMem_ofList, h.bytes, haddr, dinodeAt]

theorem diwrite_spec (h : s.At D I) (di : Dinode) (no : ℕ) :
    wp (diwrite di no) (fun _ s' => s'.At (setDinode D no di) I) fail s := by
  simp only [diwrite, wp_bind, wp_read, h.sb, layout]
  obtain ⟨hroom, haddr⟩ := dinode_offset no
  refine onDisk_spec (Disk.bwrite_spec h.coherent (by rwa [Dinode.length_bytes])) ?_
  rintro _ d ⟨hc, hbytes⟩
  refine ⟨hc, ?_, h.sb.trans rfl, h.inodes⟩
  rw [hbytes, h.bytes, setDinode, haddr]

theorem modInode_spec (h : s.At D I) (i : InodePtr) (f : Inode → Inode) :
    wp (modInode i f) (fun _ s' => s'.At D (Function.update I i (f (I i)))) fail s :=
  ⟨h.coherent, h.bytes, h.sb, by rw [← h.inodes]⟩

theorem getInode_spec (h : s.At D I) (i : InodePtr) :
    wp (getInode i) (fun ip s' => s'.At D I ∧ ip = I i) fail s := ⟨h, by rw [← h.inodes]⟩

/-! ### Free blocks -/

theorem testBit_iff {w j : ℕ} : w &&& (1 <<< j) = 0 ↔ w.testBit j = false := by
  rw [Nat.one_shiftLeft]
  constructor
  · intro h
    have := congrArg (fun n => n.testBit j) h
    simpa [Nat.testBit_and, Nat.testBit_two_pow] using this
  · intro h
    refine Nat.eq_of_testBit_eq fun i => ?_
    rw [Nat.testBit_and, Nat.testBit_two_pow, Nat.zero_testBit]
    by_cases hij : j = i
    · subst hij; simp [h]
    · simp [hij]

theorem clearBit?_eq_some {w j : ℕ} (h : clearBit? w = some j) : j < 32 ∧ w.testBit j = false := by
  have hmem := List.mem_of_find?_eq_some h
  have hp := List.find?_some h
  simp only [decide_eq_true_eq] at hp
  exact ⟨by simpa using hmem, testBit_iff.mp hp⟩

theorem clearBit?_eq_none {w : ℕ} (h : clearBit? w = none) {j : ℕ} (hj : j < 32) :
    w.testBit j = true := by
  have := List.find?_eq_none.mp h j (by simpa using hj)
  rw [decide_eq_true_eq, testBit_iff] at this
  simpa using this

/-- `balloc` takes a free block, or none is left. -/
theorem balloc_spec (h : s.At D I) : wp balloc (fun b s' => b < 32768 ∧ bitAt D b = false ∧
      s'.At (zeroBlk (setBit D b) b) I)
    (fun e => e = .noBlock ∧ ∀ b < 32768, bitAt D b = true) s := by
  simp only [balloc, wp_bind, wp_read, h.sb, layout]
  refine wp_scan (fun i s => s.At D I ∧ ∀ b < 32 * i, bitAt D b = true) _ _ ⟨h, by omega⟩ ?_ ?_
  · rintro r hr s ⟨hs, hbits⟩
    have hr' : r < 1024 := by simpa using hr
    simp only [Nat.zero_add, Nat.mul_one, wp_bind] at hbits ⊢
    refine (readWord_spec hs (by omega)).imp ?_
    rintro w s' ⟨hs', rfl⟩
    have haddr : 4096 * 33 + r * 4 = 135168 + 4 * r := by omega
    have hbit (j : ℕ) (hj : j < 32) :
        bitAt D (r * 32 + j) = (D.word (135168 + 4 * r)).toNat.testBit j := by
      rw [bitAt, show (r * 32 + j) / 32 = r by omega, show (r * 32 + j) % 32 = j by omega]
    rw [haddr]
    split
    case isTrue hne =>
      split
      case h_1 j hj =>
        obtain ⟨hj32, hclear⟩ := clearBit?_eq_some hj
        simp only [wp_bind]
        refine (writeWord_spec hs' (by omega)).imp ?_
        intro _ s₁ hs₁
        refine onDisk_spec (Disk.bzero_spec hs₁.coherent _) ?_
        rintro _ d ⟨hc, hbytes⟩
        refine ⟨by omega, by rw [hbit j hj32, hclear], hc, ?_, hs₁.sb, hs₁.inodes⟩
        rw [hbytes, hs₁.bytes, zeroBlk, setBit, show (r * 32 + j) / 32 = r by omega,
          show (r * 32 + j) % 32 = j by omega, haddr]
      case h_2 hnone =>
        refine ⟨hs', fun b hb => ?_⟩
        by_cases hlt : b < 32 * r
        · exact hbits b hlt
        · rw [show b = r * 32 + (b - r * 32) by omega, hbit _ (by omega)]
          exact clearBit?_eq_none hnone (by omega)
    case isFalse heq =>
      rw [not_not] at heq
      refine ⟨hs', fun b hb => ?_⟩
      by_cases hlt : b < 32 * r
      · exact hbits b hlt
      · rw [show b = r * 32 + (b - r * 32) by omega, hbit _ (by omega), heq,
          show (0xffffffff : ℕ) = 2 ^ 32 - 1 by norm_num, Nat.testBit_two_pow_sub_one]
        simp; omega
  · rintro s ⟨-, hbits⟩
    exact ⟨rfl, fun b hb => hbits b (by simp; omega)⟩

theorem bfree_spec (h : s.At D I) {b : ℕ} (hb : 64 ≤ b) (hlt : b < 32768) :
    wp (bfree b) (fun _ s' => s'.At (clearBit D b) I) fail s := by
  rw [bfree, wp_bind, wp_assert]
  refine ⟨fun _ => ?_, fun hn => (hn hb).elim⟩
  simp only [wp_bind, wp_read, h.sb, layout]
  refine (readWord_spec h (by omega)).imp ?_
  rintro w s' ⟨hs', rfl⟩
  refine (writeWord_spec hs' (by omega)).imp ?_
  intro _ s₁ hs₁
  rw [clearBit]
  rwa [show 4096 * 33 + b / 32 * 4 = 135168 + 4 * (b / 32) by omega,
    show 4096 * 33 + 4 * (b / 32) = 135168 + 4 * (b / 32) by omega] at hs₁

end Primitive

end Oslab
