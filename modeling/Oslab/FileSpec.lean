/-
# Reading, writing and truncating files

`iwalk` finds the block of a file position and allocates it when it is missing;
`iread` and `iwrite` go through a file block by block; `itrunc` gives all blocks
back. Each keeps the invariant and every object but the one it changes. An abort
of `iwalk` and `iread` is a full disk or the size limit, and neither happens, nor
does the disk change, when the blocks they pass are there.
-/
import Oslab.FsSpec

namespace Oslab

open Lib Lib.Prog

variable {s : Fs} {D D' D'' : Mem} {I I' I'' : InodePtr → Inode} {i : InodePtr} {no : ℕ}

/-- Blocks may have been allocated, and nothing else has happened. -/
structure Grow (D : Mem) (I : InodePtr → Inode) (D' : Mem) (I' : InodePtr → Inode) : Prop where
  slots : SameSlots I I'
  kept : ∀ no < 1920, Kept D D' no

theorem Grow.refl (D : Mem) (I : InodePtr → Inode) : Grow D I D I :=
  ⟨.refl I, fun no _ => .refl D no⟩

theorem Grow.trans (h : Grow D I D' I') (h' : Grow D' I' D'' I'') : Grow D I D'' I'' :=
  ⟨h.slots.trans h'.slots, fun no hno => (h.kept no hno).trans (h'.kept no hno)⟩

theorem Kept.size_eq (h : Kept D D' no) : (Oslab.obj D' no).size = (Oslab.obj D no).size := by
  rw [h.obj]

theorem Kept.bytes_eq (h : Kept D D' no) : fileByte D' no = fileByte D no :=
  congrArg Obj.bytes h.obj

theorem SameSlots.live (h : SameSlots I I') : 0 < (I' i).ref ↔ 0 < (I i).ref := by rw [(h i).1]

theorem SameSlots.no_eq (h : SameSlots I I') (hi : 0 < (I i).ref) : (I' i).no = (I i).no :=
  ((h i).2 hi).1

/-- The invariant after a change that keeps the counts of the slots. -/
theorem FsInv.next (h : FsInv D I) (hs : SameSlots I I') (howned : Owned D')
    (hobj : ∀ no < 1920, (obj D' no).size ≤ 1036 * 4096 ∧
      ((obj D' no).type = TYPE_NONE → (obj D' no).size = 0))
    (hlive : ∀ j, 0 < (I j).ref → (I' j).dinode = dinodeAt D' (I j).no) : FsInv D' I' where
  owned := howned
  size no hno := (hobj no hno).1
  free no hno := (hobj no hno).2
  ref j := by rw [(hs j).1]; exact h.ref j
  live j hj := by
    rw [hs.live] at hj
    rw [hs.no_eq hj]
    exact ⟨(h.live j hj).1, hlive j hj⟩
  uniq i j hi hj heq := by
    rw [hs.live] at hi hj
    rw [hs.no_eq hi, hs.no_eq hj] at heq
    exact h.uniq i j hi hj heq

theorem FsInv.grow (h : FsInv D I) (hg : Grow D I D' I') (howned : Owned D')
    (hlive : ∀ j, 0 < (I j).ref → (I' j).dinode = dinodeAt D' (I j).no) : FsInv D' I' :=
  h.next hg.slots howned (fun no hno => by
    rw [(hg.kept no hno).obj]
    exact ⟨h.size no hno, h.free no hno⟩) hlive

/-- A table one of whose slots changed only its copy of the inode. -/
theorem sameSlots_update (I : InodePtr → Inode) (i : InodePtr) (d : Dinode) :
    SameSlots I (Function.update I i { I i with dinode := d }) := by
  intro j
  by_cases hj : j = i
  · subst hj; simp
  · simp [Function.update_of_ne hj]

/-- Only inode `no` has new blocks, in places up to `k`. -/
def NewPlaces (D D' : Mem) (no k : ℕ) : Prop :=
  ∀ no' < 1920, ∀ k', Oslab.place D no' k' = 0 → Oslab.place D' no' k' ≠ 0 → no' = no ∧ k' ≤ k

theorem NewPlaces.refl (D : Mem) (no k : ℕ) : NewPlaces D D no k := fun _ _ _ h h' => (h' h).elim

theorem NewPlaces.trans {k k' : ℕ} (h : NewPlaces D D' no k) (h' : NewPlaces D' D'' no k')
    (hk : k ≤ k') : NewPlaces D D'' no k' := by
  intro no₁ hno₁ k₁ hzero hne
  by_cases hmid : Oslab.place D' no₁ k₁ = 0
  · exact h' no₁ hno₁ k₁ hmid hne
  · obtain ⟨hno, hle⟩ := h no₁ hno₁ k₁ hzero hmid
    exact ⟨hno, hle.trans hk⟩

theorem NewPlaces.of_put {b k : ℕ} (h : ∀ no' < 1920, ∀ k', Oslab.place D' no' k' =
    if no' = no ∧ k' = k then b else Oslab.place D no' k') : NewPlaces D D' no k := by
  intro no' hno' k' hzero hne
  rw [h no' hno' k'] at hne
  split at hne
  case isTrue hc => exact ⟨hc.1, hc.2.le⟩
  case isFalse => exact (hne hzero).elim

theorem slotOf_mono {m n : ℕ} (h : m ≤ n) : slotOf m ≤ slotOf n := by
  unfold slotOf
  split <;> split <;> omega

/-! ### Free blocks -/

/-- How many blocks are free. -/
def freeBlocks (D : Mem) : ℕ := ((Finset.range 32768).filter fun b => bitAt D b = false).card

/-- How many of the places `K` of inode `no` have no block. -/
def missing (D : Mem) (no : ℕ) (K : Finset ℕ) : ℕ := (K.filter fun k => place D no k = 0).card

/-- The places that a walk to block `n` of a file needs. -/
def walkPlaces (n : ℕ) : Finset ℕ := if n < 12 then {n} else {12, n + 1}

/-- The places of the blocks from `lo` on, up to `hi`. -/
def blockPlaces (lo hi : ℕ) : Finset ℕ := (Finset.Ico lo hi).biUnion walkPlaces

/-- Why walking to the blocks from `lo` up to `hi` of an inode stops: more blocks are missing than
are free, or a file has no such block. -/
def walkStop (D : Mem) (no lo hi : ℕ) : Option Abort :=
  if freeBlocks D < missing D no (blockPlaces lo (min hi 1036)) then some .noBlock
  else if 1036 < hi then some .tooBig
  else none

/-- The places `K` of inode `no` have got their blocks, which were free. -/
structure Fills (D : Mem) (no : ℕ) (K : Finset ℕ) (D' : Mem) : Prop where
  place : ∀ k, Oslab.place D' no k = 0 ↔ Oslab.place D no k = 0 ∧ k ∉ K
  free : freeBlocks D' + missing D no K = freeBlocks D

section Fills

variable {K K' : Finset ℕ} {n lo hi m : ℕ}

theorem freeBlocks_congr (h : ∀ b < 32768, bitAt D' b = bitAt D b) :
    freeBlocks D' = freeBlocks D := by
  have hsame : ∀ b ∈ Finset.range 32768, (bitAt D' b = false ↔ bitAt D b = false) := by
    intro b hb
    rw [h b (Finset.mem_range.mp hb)]
  rw [freeBlocks, freeBlocks, Finset.filter_congr hsame]

/-- One free block is taken. -/
theorem freeBlocks_take {b : ℕ} (hb : b < 32768) (hfree : bitAt D b = false)
    (hbit : ∀ b' < 32768, bitAt D' b' = (decide (b' = b) || bitAt D b')) :
    freeBlocks D' + 1 = freeBlocks D := by
  have hmem : b ∈ (Finset.range 32768).filter fun b => bitAt D b = false :=
    Finset.mem_filter.mpr ⟨Finset.mem_range.mpr hb, hfree⟩
  have herase : ((Finset.range 32768).filter fun b => bitAt D' b = false) =
      ((Finset.range 32768).filter fun b => bitAt D b = false).erase b := by
    ext b'
    simp only [Finset.mem_filter, Finset.mem_erase, Finset.mem_range]
    constructor
    · rintro ⟨hlt, hclear⟩
      rw [hbit b' hlt, Bool.or_eq_false_iff, decide_eq_false_iff_not] at hclear
      exact ⟨hclear.1, hlt, hclear.2⟩
    · rintro ⟨hne, hlt, hclear⟩
      refine ⟨hlt, ?_⟩
      rw [hbit b' hlt, Bool.or_eq_false_iff, decide_eq_false_iff_not]
      exact ⟨hne, hclear⟩
  rw [freeBlocks, herase]
  exact Finset.card_erase_add_one hmem

theorem freeBlocks_eq_zero : freeBlocks D = 0 ↔ ∀ b < 32768, bitAt D b = true := by
  simp [freeBlocks, Finset.filter_eq_empty_iff]

theorem missing_eq_zero : missing D no K = 0 ↔ ∀ k ∈ K, place D no k ≠ 0 := by
  simp [missing, Finset.filter_eq_empty_iff]

@[simp] theorem missing_empty : missing D no ∅ = 0 := rfl

theorem Fills.refl (h : ∀ k ∈ K, Oslab.place D no k ≠ 0) : Fills D no K D where
  place k := ⟨fun hzero => ⟨hzero, fun hk => h k hk hzero⟩, And.left⟩
  free := by rw [missing_eq_zero.mpr h, Nat.add_zero]

/-- What is missing of two sets of places, the first of which has been filled. -/
theorem Fills.missing_union (h : Fills D no K D') :
    missing D no (K ∪ K') = missing D no K + missing D' no K' := by
  have hcut : (K ∪ K').filter (fun k => Oslab.place D no k = 0) =
      K.filter (fun k => Oslab.place D no k = 0) ∪ K'.filter fun k => Oslab.place D' no k = 0 := by
    ext k
    simp only [Finset.mem_filter, Finset.mem_union, h.place]
    tauto
  have hdisj : Disjoint (K.filter fun k => Oslab.place D no k = 0)
      (K'.filter fun k => Oslab.place D' no k = 0) := by
    rw [Finset.disjoint_left]
    intro k hk hk'
    rw [Finset.mem_filter] at hk hk'
    exact ((h.place k).mp hk'.2).2 hk.1
  rw [missing, hcut, Finset.card_union_of_disjoint hdisj]
  rfl

theorem Fills.trans (h : Fills D no K D') (h' : Fills D' no K' D'') : Fills D no (K ∪ K') D'' where
  place k := by
    rw [h'.place, h.place, Finset.mem_union, not_or, and_assoc]
  free := by
    have hfree := h.free
    have hfree' := h'.free
    rw [h.missing_union]
    omega

/-- Neither blocks nor places change. -/
theorem Fills.congr (h : Fills D no K D') (hbit : ∀ b < 32768, bitAt D'' b = bitAt D' b)
    (hplace : ∀ k, Oslab.place D'' no k = Oslab.place D' no k) : Fills D no K D'' where
  place k := by rw [hplace, h.place]
  free := by rw [freeBlocks_congr hbit, h.free]

/-- A place has got a free block. -/
theorem Fills.of_take {b k : ℕ} (hb : b < 32768) (hfree : bitAt D b = false)
    (hbit : ∀ b' < 32768, bitAt D' b' = (decide (b' = b) || bitAt D b')) (hne : b ≠ 0)
    (hempty : Oslab.place D no k = 0)
    (hplace : ∀ k', Oslab.place D' no k' = if k' = k then b else Oslab.place D no k') :
    Fills D no {k} D' where
  place k' := by
    rw [hplace, Finset.mem_singleton]
    split_ifs with hk
    · exact ⟨fun hzero => (hne hzero).elim, fun hand => (hand.2 hk).elim⟩
    · exact ⟨fun hzero => ⟨hzero, hk⟩, And.left⟩
  free := by
    rw [missing, Finset.filter_singleton, if_pos hempty, Finset.card_singleton]
    exact freeBlocks_take hb hfree hbit

/-- The place of a block that is there comes with the indirect block. -/
theorem place_walk_ne (h : place D no (slotOf n) ≠ 0) : ∀ k ∈ walkPlaces n, place D no k ≠ 0 := by
  intro k hk
  unfold walkPlaces at hk
  unfold slotOf at h
  split_ifs at hk h with hn
  · rw [Finset.mem_singleton] at hk
    rwa [hk]
  · rw [Finset.mem_insert, Finset.mem_singleton] at hk
    obtain rfl | rfl := hk
    · by_cases hle : n + 1 < 1037
      · rw [place_of_le _ _ (by omega) hle] at h
        exact fun h12 => h (if_pos h12)
      · exact (h (place_eq_zero_of_le _ _ (by omega))).elim
    · exact h

theorem blockPlaces_self : blockPlaces lo lo = ∅ := by simp [blockPlaces]

theorem blockPlaces_of_lt (h : lo < hi) :
    blockPlaces lo hi = walkPlaces lo ∪ blockPlaces (lo + 1) hi := by
  rw [blockPlaces, ← Finset.insert_Ico_add_one_left_eq_Ico h, Finset.biUnion_insert, blockPlaces]

/-- Walking on from the block that was reached, or from the next one, stops for the same reason. -/
theorem Fills.walkStop (h : Fills D no (walkPlaces lo) D') (hlo : lo < 1036) (hlt : lo < hi)
    (hm : m = lo ∨ m = lo + 1) : Oslab.walkStop D no lo hi = Oslab.walkStop D' no m hi := by
  have hcut : blockPlaces lo (min hi 1036) = walkPlaces lo ∪ blockPlaces m (min hi 1036) := by
    have hmin : lo < min hi 1036 := lt_min hlt hlo
    rcases hm with rfl | rfl
    · rw [blockPlaces_of_lt hmin, ← Finset.union_assoc, Finset.union_self]
    · exact blockPlaces_of_lt hmin
  have hshort : freeBlocks D < missing D no (blockPlaces lo (min hi 1036)) ↔
      freeBlocks D' < missing D' no (blockPlaces m (min hi 1036)) := by
    have hfree := h.free
    rw [hcut, h.missing_union]
    omega
  simp only [Oslab.walkStop, hshort]

theorem Fills.walkStop_self (h : Fills D no (walkPlaces n) D') (hn : n < 1036) :
    Oslab.walkStop D no n (n + 1) = none := by
  rw [h.walkStop hn (Nat.lt_succ_self n) (Or.inr rfl), Oslab.walkStop,
    min_eq_left (show n + 1 ≤ 1036 from hn), blockPlaces_self, missing_empty,
    if_neg (Nat.not_lt_zero _), if_neg (Nat.not_lt.mpr hn)]

/-- No block is free and one is missing. -/
theorem short_of_full {k : ℕ} (hfull : ∀ b < 32768, bitAt D b = true) (hk : k ∈ K)
    (hempty : Oslab.place D no k = 0) : freeBlocks D < missing D no K := by
  rw [freeBlocks_eq_zero.mpr hfull, missing, Finset.card_pos]
  exact ⟨k, Finset.mem_filter.mpr ⟨hk, hempty⟩⟩

/-- The first block that is walked to cannot be taken. -/
theorem walkStop_of_short (hshort : freeBlocks D < missing D no (walkPlaces n)) (hn : n < 1036)
    (hlt : n < hi) : Oslab.walkStop D no n hi = some .noBlock := by
  have hle : missing D no (walkPlaces n) ≤ missing D no (blockPlaces n (min hi 1036)) := by
    rw [blockPlaces_of_lt (lt_min hlt hn)]
    exact Finset.card_le_card (Finset.filter_subset_filter _ Finset.subset_union_left)
  rw [Oslab.walkStop, if_pos (hshort.trans_le hle)]

/-- No file has the first block that is walked to. -/
theorem walkStop_of_big (hn : 1036 ≤ n) (hlt : n < hi) :
    Oslab.walkStop D no n hi = some .tooBig := by
  have hnone : blockPlaces n (min hi 1036) = ∅ := by
    rw [blockPlaces, Finset.Ico_eq_empty_of_le (min_le_of_right_le hn), Finset.biUnion_empty]
  rw [Oslab.walkStop, hnone, missing_empty, if_neg (Nat.not_lt_zero _), if_pos (by omega)]

end Fills

/-! ### Walking to a block -/

theorem FsInv.place_addr (h : FsInv D I) (hi : 0 < (I i).ref) (k : Fin 13) :
    ((I i).dinode.addrs k).toNat = place D (I i).no k := by
  rw [(h.live i hi).2, place_of_lt _ _ k.isLt]

theorem iwalkAddr_spec (h : s.Holds D I) (hi : 0 < (I i).ref) (k : Fin 13) :
    wp (iwalkAddr i k) (fun b s' => ∃ D' I', s'.Holds D' I' ∧ Grow D I D' I' ∧
        NewPlaces D D' (I i).no k ∧ b ≠ 0 ∧ b = place D' (I i).no k ∧
        (place D (I i).no k ≠ 0 → D' = D ∧ I' = I) ∧ Fills D (I i).no {↑k} D')
      (fun e => e = .noBlock ∧ place D (I i).no k = 0 ∧ ∀ b < 32768, bitAt D b = true) s := by
  obtain ⟨hat, hinv⟩ := h
  obtain ⟨hno, hd⟩ := hinv.live i hi
  have haddr := hinv.place_addr hi k
  simp only [iwalkAddr, wp_bind]
  refine (getInode_spec hat i).imp ?_
  rintro ip s₁ ⟨hat₁, rfl⟩
  split
  -- a block is allocated, cleared and entered in the inode, which is written back
  case isTrue h0 =>
    have hempty : place D (I i).no k = 0 := by rw [← haddr, h0]; rfl
    simp only [wp_bind]
    refine (balloc_spec hat₁).mono ?_ fun e he => ⟨he.1, hempty, he.2⟩
    rintro b s₂ ⟨hlt, hfree, hat₂⟩
    have hlo : 64 ≤ b := by
      by_contra hb
      rw [hinv.owned.low b (by omega)] at hfree
      cases hfree
    have hf := fresh_zeroBlk_setBit hlo hlt hfree
    simp only [modDinode]
    refine (modInode_spec hat₂ i _).imp ?_
    intro _ s₃ hat₃
    simp only [iupdate, wp_bind]
    refine (getInode_spec hat₃ i).imp ?_
    rintro ip s₄ ⟨hat₄, rfl⟩
    simp only [Function.update_self] at hat₄ ⊢
    refine (diwrite_spec hat₄ _ _).imp ?_
    intro _ s₅ hat₅
    rw [wp_read, hat₅.inodes]
    obtain ⟨hplace, howned, hkept⟩ := hf.putAddr hinv.owned hlo hno k hempty
      (d := { (I i).dinode with
        addrs := Function.update (I i).dinode.addrs k (UInt32.ofNat b) }) (by rw [hd])
    have hgrow : Grow D I _ (Function.update I i { I i with dinode := { (I i).dinode with
        addrs := Function.update (I i).dinode.addrs k (UInt32.ofNat b) } }) :=
      ⟨sameSlots_update I i _, hkept⟩
    refine ⟨_, _, ⟨hat₅, hinv.grow hgrow howned fun j hj => ?_⟩, hgrow, .of_put hplace, ?_, ?_, ?_, ?_⟩
    · by_cases hji : j = i
      · subst hji
        rw [Function.update_self, dinodeAt_setDinode]
      · have hne : (I j).no ≠ (I i).no := fun heq => hji (hinv.uniq j i hj hi heq)
        obtain ⟨hjno, hjd⟩ := hinv.live j hj
        rw [Function.update_of_ne hji, dinodeAt_setDinode_of_ne hne, hf.dinode _ hjno, hjd]
    · have hb : (UInt32.ofNat b).toNat = b :=
        UInt32.toNat_ofNat_of_lt' (lt_trans hlt (by norm_num [UInt32.size]))
      simp only [Function.update_self, hb]
      omega
    · have hb : (UInt32.ofNat b).toNat = b :=
        UInt32.toNat_ofNat_of_lt' (lt_trans hlt (by norm_num [UInt32.size]))
      simp only [Function.update_self, hb]
      rw [hplace _ hno, if_pos ⟨rfl, rfl⟩]
    · exact fun hne => (hne hempty).elim
    · refine .of_take hlt hfree (fun b' hb' => ?_) (by omega) hempty fun k' => ?_
      · rw [← hf.bit b' hb']
        exact bitAt_congr (fun a _ _ => setDinode_out (by omega) hno) hb'
      · rw [hplace _ hno]
        simp only [true_and]
  case isFalse h0 =>
    rw [wp_read, hat₁.inodes]
    have hne : ((I i).dinode.addrs k).toNat ≠ 0 := by simpa [← UInt32.toNat_inj] using h0
    refine ⟨D, I, ⟨hat₁, hinv⟩, .refl D I, .refl D _ _, hne, haddr, fun _ => ⟨rfl, rfl⟩, .refl ?_⟩
    intro k' hk'
    rwa [Finset.mem_singleton.mp hk', ← haddr]

/-- `iwalk` returns the block of the file position, and leaves everything as it is when
the block is there. -/
theorem iwalk_spec (h : s.Holds D I) (hi : 0 < (I i).ref) (n : ℕ) :
    wp (iwalk i n) (fun b s' => ∃ D' I', s'.Holds D' I' ∧ Grow D I D' I' ∧
        NewPlaces D D' (I i).no (slotOf n) ∧ n < 1036 ∧ b ≠ 0 ∧
        b = place D' (I i).no (slotOf n) ∧ (place D (I i).no (slotOf n) ≠ 0 → D' = D ∧ I' = I) ∧
        Fills D (I i).no (walkPlaces n) D')
      (fun e => ∀ last > n, walkStop D (I i).no n last = some e) s := by
  unfold iwalk
  split
  case isTrue hn =>
    have hn12 : n < 12 := hn
    have hslot : slotOf n = n := if_pos hn12
    have hwalk : walkPlaces n = {n} := if_pos hn12
    rw [hslot, hwalk]
    refine (iwalkAddr_spec h hi _).mono ?_ ?_
    · rintro b s' ⟨D', I', hh, hg, hnew, hb, hbp, hsame, hfills⟩
      exact ⟨D', I', hh, hg, hnew, by omega, hb, hbp, hsame, hfills⟩
    · rintro e ⟨rfl, hempty, hfull⟩ last hlast
      refine walkStop_of_short (short_of_full hfull ?_ hempty) (by omega) hlast
      rw [hwalk]
      exact Finset.mem_singleton_self n
  case isFalse hn =>
    have hn12 : 12 ≤ n := Nat.le_of_not_lt hn
    have hslot : slotOf n = n + 1 := if_neg (by omega)
    have hwalk : walkPlaces n = {12} ∪ {n + 1} := if_neg (by omega)
    rw [hslot]
    split
    case isTrue hlt =>
      change n - 12 < 1024 at hlt
      have hn' : n < 1036 := by omega
      have hof : place D (I i).no 12 = 0 → place D (I i).no (n + 1) = 0 := fun h12 => by
        rw [place_of_le _ _ (by omega) (by omega), if_pos h12]
      rw [wp_bind]
      refine (iwalkAddr_spec h hi (Fin.last 12)).mono ?_ ?_
      rotate_left
      · rintro e ⟨rfl, hempty, hfull⟩ last hlast
        refine walkStop_of_short (short_of_full hfull ?_ hempty) hn' hlast
        rw [hwalk]
        exact Finset.mem_union_left _ (Finset.mem_singleton_self 12)
      rintro blk s₁ ⟨D₁, I₁, ⟨hat₁, hinv₁⟩, hg₁, hnew₁, hblk, hblkp, hsame₁, hfills₁⟩
      have hfills₁ : Fills D (I i).no {12} D₁ := hfills₁
      have hblk12 : blk = place D₁ (I i).no 12 := hblkp
      have hi₁ : 0 < (I₁ i).ref := hg₁.slots.live.mpr hi
      have hno₁ : (I₁ i).no = (I i).no := hg₁.slots.no_eq hi
      obtain ⟨hno, -⟩ := hinv₁.live i hi₁
      rw [hno₁] at hno
      have hplace : place D₁ (I i).no (n + 1) =
          (D₁.word (4096 * blk + (n - 12) * 4)).toNat := by
        rw [place_of_le _ _ (by omega) (by omega), if_neg (by omega), ← hblk12,
          show 4 * (n + 1 - 13) = (n - 12) * 4 by omega]
      -- a word that is not zero was there before, and so was the indirect block
      have hback : place D (I i).no (n + 1) ≠ 0 → D₁ = D ∧ I₁ = I :=
        fun hne => hsame₁ fun h12 => hne (hof h12)
      simp only [NDIRECT]
      rw [wp_bind]
      refine (readWord_spec hat₁ (by omega)).imp ?_
      rintro w s₂ ⟨hat₂, rfl⟩
      rw [← hplace]
      split
      case isTrue h0 =>
        rw [wp_bind]
        have hempty : place D (I i).no (n + 1) = 0 := by
          by_contra hne
          rw [(hback hne).1] at h0
          exact hne h0
        refine (balloc_spec hat₂).mono ?_ ?_
        rotate_left
        · rintro e ⟨rfl, hfull⟩ last hlast
          refine walkStop_of_short ?_ hn' hlast
          have hone := short_of_full hfull (Finset.mem_singleton_self (n + 1)) h0
          have hfree := hfills₁.free
          rw [hwalk, hfills₁.missing_union]
          omega
        rintro b s₃ ⟨hlt', hfree, hat₃⟩
        have hlo : 64 ≤ b := by
          by_contra hb
          rw [hinv₁.owned.low b (by omega)] at hfree
          cases hfree
        have hf := fresh_zeroBlk_setBit hlo hlt' hfree
        rw [wp_bind]
        refine (writeWord_spec hat₃ (by omega)).imp ?_
        intro _ s₄ hat₄
        rw [wp_pure]
        obtain ⟨hput, howned, hkept⟩ := hf.putWord hinv₁.owned hlo hno (k := n + 1) (by omega)
          (by omega) (by omega) h0
          (by rw [← hblk12, show 4 * (n + 1 - 13) = (n - 12) * 4 by omega])
        have hgrow : Grow D₁ I₁ _ I₁ := ⟨.refl I₁, hkept⟩
        refine ⟨_, I₁, ⟨hat₄, hinv₁.grow hgrow howned fun j hj => ?_⟩, hg₁.trans hgrow,
          hnew₁.trans (.of_put hput) (by simp; omega), hn', by omega,
          by rw [hput _ hno, if_pos ⟨rfl, rfl⟩], fun hne => (hne hempty).elim, ?_⟩
        · obtain ⟨hjno, hjd⟩ := hinv₁.live j hj
          have hib := hinv₁.owned.range _ hno 12 (by omega)
          rw [hjd, ← hf.dinode _ hjno]
          exact (dinodeAt_congr fun a ha => Mem.splice_out (by simp; omega)).symm
        · have hib := hinv₁.owned.range _ hno 12 (by omega)
          rw [hwalk]
          refine hfills₁.trans (.of_take hlt' hfree (fun b' hb' => ?_) (by omega) h0 fun k' => ?_)
          · rw [← hf.bit b' hb']
            exact bitAt_congr (fun a _ _ => Mem.splice_out (by simp; omega)) hb'
          · rw [hput _ hno]
            simp only [true_and]
      case isFalse h0 =>
        rw [wp_pure]
        refine ⟨D₁, I₁, ⟨hat₂, hinv₁⟩, hg₁, hnew₁.trans (.refl D₁ _ _) (by simp; omega), hn', h0,
          rfl, hback, ?_⟩
        rw [hwalk]
        refine hfills₁.trans (.refl fun k hk => ?_)
        rwa [Finset.mem_singleton.mp hk]
    case isFalse hge =>
      change ¬ n - 12 < 1024 at hge
      exact fun last hlast => walkStop_of_big (by omega) hlast

/-! ### Reading -/

/-- The block of every position in `[lo, hi]` is there. -/
def Mapped (D : Mem) (no lo hi : ℕ) : Prop :=
  ∀ n, lo / 4096 ≤ n → n ≤ hi / 4096 → place D no (slotOf n) ≠ 0

/-- A piece of a file inside one block is a piece of that block. -/
theorem slice_fileByte {pos n : ℕ} (hp : place D no (slotOf (pos / 4096)) ≠ 0)
    (hn : pos % 4096 + n ≤ 4096) :
    D.slice (4096 * place D no (slotOf (pos / 4096)) + pos % 4096) n =
      (fileByte D no).slice pos n := by
  refine Mem.slice_congr fun k hk => ?_
  have hdiv : (pos + k) / 4096 = pos / 4096 := by omega
  have hmod : (pos + k) % 4096 = pos % 4096 + k := by omega
  rw [fileByte, hdiv, if_neg hp, hmod, Nat.add_assoc]

/-- When a read or a walk stops. -/
def ReadAbort (D : Mem) (no lo hi : ℕ) (e : Abort) : Prop :=
  (e = .noBlock ∧ ¬ Mapped D no lo hi) ∨ (e = .tooBig ∧ 1036 ≤ hi / 4096)

theorem Mapped.missing {lo hi : ℕ} (h : Mapped D no lo hi) (last : ℕ) :
    Oslab.missing D no (blockPlaces (lo / 4096) (min (hi / 4096 + 1) last)) = 0 := by
  rw [missing_eq_zero]
  intro k hk
  obtain ⟨n, hn, hk⟩ := Finset.mem_biUnion.mp hk
  rw [Finset.mem_Ico] at hn
  exact place_walk_ne (h n hn.1 (by omega)) k hk

/-- A block is missing where the disk is too full to walk, and a file has no more than 1036. -/
theorem ReadAbort.of_stop {lo hi : ℕ} {e : Abort}
    (h : walkStop D no (lo / 4096) (hi / 4096 + 1) = some e) : ReadAbort D no lo hi e := by
  rw [walkStop] at h
  split_ifs at h with hshort hbig
  · cases h
    refine Or.inl ⟨rfl, fun hm => ?_⟩
    rw [hm.missing] at hshort
    exact Nat.not_lt_zero _ hshort
  · cases h
    exact Or.inr ⟨rfl, Nat.lt_succ_iff.mp hbig⟩

theorem Kept.mapped {lo hi : ℕ} (h : Kept D D' no) (hm : Mapped D no lo hi) :
    Mapped D' no lo hi := fun n hlo hhi => by
  rw [h.place _ (hm n hlo hhi)]
  exact hm n hlo hhi

theorem ireadLoop_spec (fuel pos remaining : ℕ) (h : s.Holds D I) (hi : 0 < (I i).ref)
    (hno : (I i).no = no) (hfuel : remaining ≤ fuel)
    (hpos : place D no (slotOf (pos / 4096)) ≠ 0) :
    wp (ireadLoop i fuel pos remaining (place D no (slotOf (pos / 4096))))
      (fun bs s' => ∃ D' I', s'.Holds D' I' ∧ Grow D I D' I' ∧
        bs = (fileByte D no).slice pos (min remaining ((obj D no).size - pos)) ∧
        (Mapped D no pos (pos + min remaining ((obj D no).size - pos)) → D' = D ∧ I' = I) ∧
        walkStop D no (pos / 4096) ((pos + min remaining ((obj D no).size - pos)) / 4096 + 1) = none)
      (fun e => walkStop D no (pos / 4096)
        ((pos + min remaining ((obj D no).size - pos)) / 4096 + 1) = some e) s := by
  have hlo : pos / 4096 < 1036 := by
    by_contra hge
    refine hpos (place_eq_zero_of_le _ _ ?_)
    rw [slotOf, if_neg (by omega)]
    omega
  have hfirst : Fills D no (walkPlaces (pos / 4096)) D := .refl (place_walk_ne hpos)
  -- on the fuel, with the block of the current position already walked to
  induction fuel generalizing s D I pos remaining with
  | zero =>
    obtain rfl : remaining = 0 := by omega
    refine ⟨D, I, h, .refl D I, by simp, fun _ => ⟨rfl, rfl⟩, ?_⟩
    rw [Nat.zero_min, Nat.add_zero]
    exact hfirst.walkStop_self hlo
  | succ fuel ih =>
    obtain ⟨hat, hinv⟩ := h
    have hsize : (s.inodes i).dinode.size.toNat = (obj D no).size := by
      rw [hat.inodes, (hinv.live i hi).2, hno]
      rfl
    simp only [ireadLoop, isize, wp_bind, wp_read, hsize, BLK_SIZE, SECTSIZE, Nat.reduceMul]
    split
    case isTrue hc =>
      set n := min (min remaining (4096 - pos % 4096)) ((obj D no).size - pos) with hn
      have hn0 : 0 < n := by omega
      simp only [wp_bind]
      refine onDisk_spec (Disk.bread_spec hat.coherent (by omega)) ?_
      rintro bs d ⟨hcoh, hbytes, rfl⟩
      have hat₁ : Fs.At { s with disk := d } D I :=
        ⟨hcoh, hbytes.trans hat.bytes, hat.sb, hat.inodes⟩
      rw [hat.bytes, slice_fileByte hpos (by omega)]
      -- the bytes are those of this block and those the rest of the loop reads
      have htotal : min remaining ((obj D no).size - pos) =
          n + min (remaining - n) ((obj D no).size - (pos + n)) := by omega
      have hend : pos + min remaining ((obj D no).size - pos) =
          pos + n + min (remaining - n) ((obj D no).size - (pos + n)) := by omega
      have hnext : (pos + n) / 4096 = pos / 4096 ∨ (pos + n) / 4096 = pos / 4096 + 1 := by omega
      refine (iwalk_spec ⟨hat₁, hinv⟩ hi ((pos + n) / 4096)).mono ?_ ?_
      · rintro blkno s₂ ⟨D₂, I₂, hh₂, hg₂, -, hlt, hblk, rfl, hsame, hfills⟩
        rw [hno] at hblk hsame hfills ⊢
        have hkept := hg₂.kept no (hno ▸ (hinv.live i hi).1)
        have hloop := @ih s₂ D₂ I₂ (pos + n) (remaining - n) hh₂
          (hg₂.slots.live.mpr hi) ((hg₂.slots.no_eq hi).trans hno) (by omega) hblk hlt
          (.refl (place_walk_ne hblk))
        rw [hkept.size_eq, ← hend] at hloop
        -- the loop stops where the whole range does, because this block is there
        have hstop : walkStop D no (pos / 4096)
            ((pos + min remaining ((obj D no).size - pos)) / 4096 + 1) =
            walkStop D₂ no ((pos + n) / 4096)
              ((pos + min remaining ((obj D no).size - pos)) / 4096 + 1) := by
          rw [hfirst.walkStop hlo (by omega) hnext,
            hfills.walkStop hlt (by omega) (Or.inl rfl)]
        rw [hstop]
        refine hloop.imp ?_
        · rintro rest s₃ ⟨D₃, I₃, hh₃, hg₃, rfl, hsame₃, hnone⟩
          refine ⟨D₃, I₃, hh₃, hg₂.trans hg₃, ?_, fun hm => ?_, hnone⟩
          · rw [htotal, Mem.slice_add, hkept.bytes_eq]
          · rw [hend] at hm
            have hm' : Mapped D no (pos + n)
                (pos + n + min (remaining - n) ((obj D no).size - (pos + n))) :=
              fun j hlo hhi => hm j (le_trans (Nat.div_le_div_right (by omega)) hlo) hhi
            obtain ⟨rfl, rfl⟩ := hsame (hm' _ le_rfl (Nat.div_le_div_right (by omega)))
            exact hsame₃ (hend ▸ hm')
      · rw [hno]
        intro e he
        rw [hfirst.walkStop hlo (by omega) hnext]
        exact he _ (by omega)
    case isFalse hc =>
      have h0 : min remaining ((obj D no).size - pos) = 0 := by omega
      rw [wp_pure, h0, Nat.add_zero]
      exact ⟨D, I, ⟨hat, hinv⟩, .refl D I, by simp, fun _ => ⟨rfl, rfl⟩, hfirst.walkStop_self hlo⟩

/-- `iread` returns the bytes of the file from `off` on, as many as there are. -/
theorem iread_spec (h : s.Holds D I) (hi : 0 < (I i).ref) (hno : (I i).no = no) (off len : ℕ) :
    wp (iread i off len) (fun bs s' => ∃ D' I', s'.Holds D' I' ∧ Grow D I D' I' ∧
        bs = (fileByte D no).slice off (min len ((obj D no).size - off)) ∧
        (Mapped D no off (off + min len ((obj D no).size - off)) → D' = D ∧ I' = I) ∧
        walkStop D no (off / 4096) ((off + min len ((obj D no).size - off)) / 4096 + 1) = none)
      (fun e => walkStop D no (off / 4096)
        ((off + min len ((obj D no).size - off)) / 4096 + 1) = some e) s := by
  simp only [iread, wp_bind, BLK_SIZE, SECTSIZE, Nat.reduceMul]
  refine (iwalk_spec h hi (off / 4096)).mono ?_ ?_
  · rintro blkno s₁ ⟨D₁, I₁, hh₁, hg₁, -, hlt, hblk, rfl, hsame, hfills⟩
    rw [hno] at hblk hsame hfills ⊢
    have hkept := hg₁.kept no (hno ▸ (h.2.live i hi).1)
    have hloop := ireadLoop_spec len off len hh₁
      (hg₁.slots.live.mpr hi) ((hg₁.slots.no_eq hi).trans hno) le_rfl hblk
    rw [hkept.size_eq, hkept.bytes_eq] at hloop
    rw [hfills.walkStop hlt (by omega) (Or.inl rfl)]
    refine hloop.imp ?_
    rintro bs s₂ ⟨D₂, I₂, hh₂, hg₂, rfl, hsame₂, hnone⟩
    refine ⟨D₂, I₂, hh₂, hg₁.trans hg₂, rfl, fun hm => ?_, hnone⟩
    obtain ⟨rfl, rfl⟩ := hsame (hm _ le_rfl (Nat.div_le_div_right (by omega)))
    exact hsame₂ hm
  · rw [hno]
    exact fun e he => he _ (by omega)

/-! ### Writing -/

/-- Objects other than `no` are as before, and inode `no` keeps its blocks. -/
structure Touch (D : Mem) (I : InodePtr → Inode) (no : ℕ) (D' : Mem) (I' : InodePtr → Inode) :
    Prop where
  slots : SameSlots I I'
  other : ∀ no' < 1920, no' ≠ no → Kept D D' no'
  place : ∀ k, place D no k ≠ 0 → Oslab.place D' no k = Oslab.place D no k

theorem Grow.touch (h : Grow D I D' I') (hno : no < 1920) : Touch D I no D' I' :=
  ⟨h.slots, fun no' hno' _ => h.kept no' hno', (h.kept no hno).place⟩

theorem Touch.trans (h : Touch D I no D' I') (h' : Touch D' I' no D'' I'') :
    Touch D I no D'' I'' where
  slots := h.slots.trans h'.slots
  other no' hno' hne := (h.other no' hno' hne).trans (h'.other no' hno' hne)
  place k hk := by
    have := h.place k hk
    rw [h'.place k (by rw [this]; exact hk), this]

/-- Why writing `len` bytes stops. -/
def writeStop (D : Mem) (no pos len : ℕ) : Option Abort :=
  if len = 0 then none else walkStop D no (pos / 4096) ((pos + (len - 1)) / 4096 + 1)

/-- The block at `pos` is there, and the write goes on behind it. -/
theorem Fills.writeStop {pos len n : ℕ} (h : Fills D no (walkPlaces (pos / 4096)) D')
    (hlt : pos / 4096 < 1036) (hlen : 0 < len) (hn : n = min (4096 - pos % 4096) len) :
    Oslab.writeStop D no pos len = Oslab.writeStop D' no (pos + n) (len - n) := by
  rw [Oslab.writeStop, Oslab.writeStop, if_neg hlen.ne']
  split_ifs with hdone
  · have hsame : (pos + (len - 1)) / 4096 = pos / 4096 := by omega
    rw [hsame, h.walkStop_self hlt]
  · have hnext : (pos + n) / 4096 = pos / 4096 + 1 := by omega
    have hlast : pos + n + (len - n - 1) = pos + (len - 1) := by omega
    rw [h.walkStop hlt (by omega) (Or.inr rfl), hnext, hlast]

/-- When a write stops. -/
theorem write_abort {pos len : ℕ} {e : Abort} (h : writeStop D no pos len = some e) : 0 < len ∧
    ((e = .noBlock ∧ ¬ Mapped D no pos (pos + (len - 1)) ∧
      (pos % 4096 + len ≤ 4096 → pos / 4096 < 12 → ∀ b < 32768, bitAt D b = true)) ∨
    (e = .tooBig ∧ 1036 * 4096 < pos + len)) := by
  rw [writeStop] at h
  split_ifs at h with hlen
  refine ⟨Nat.pos_of_ne_zero hlen, ?_⟩
  have habort := ReadAbort.of_stop h
  rcases habort with ⟨rfl, hm⟩ | ⟨rfl, hbig⟩
  · refine Or.inl ⟨rfl, hm, fun hone hlt => ?_⟩
    have hsame : (pos + (len - 1)) / 4096 = pos / 4096 := by omega
    have hwalk : blockPlaces (pos / 4096) (min (pos / 4096 + 1) 1036) = {pos / 4096} := by
      rw [min_eq_left (by omega), blockPlaces_of_lt (Nat.lt_succ_self _), blockPlaces_self,
        Finset.union_empty, walkPlaces, if_pos hlt]
    rw [walkStop, hsame, hwalk] at h
    split_ifs at h with hshort hbig
    · have hle : missing D no {pos / 4096} ≤ 1 := by
        rw [← Finset.card_singleton (pos / 4096)]
        exact Finset.card_filter_le _ _
      exact freeBlocks_eq_zero.mp (by omega)
    · cases h
  · exact Or.inr ⟨rfl, by omega⟩

theorem iwriteLoop_spec (fuel : ℕ) {pos : ℕ} {buf : List UInt8} (h : s.Holds D I)
    (hi : 0 < (I i).ref) (hno : (I i).no = no) (hfuel : buf.length ≤ fuel)
    (hstart : pos ≤ 1036 * 4096) :
    wp (iwriteLoop i fuel pos buf)
      (fun pos' s' => ∃ D' I', s'.Holds D' I' ∧ Touch D I no D' I' ∧
        NewPlaces D D' no (slotOf ((pos + buf.length) / 4096)) ∧
        (0 < buf.length → Mapped D' no pos (pos + (buf.length - 1))) ∧ pos' = pos + buf.length ∧
        pos' ≤ 1036 * 4096 ∧ obj D' no = { obj D no with bytes := (fileByte D no).splice pos buf } ∧
        writeStop D no pos buf.length = none)
      (fun e => writeStop D no pos buf.length = some e) s := by
  induction fuel generalizing s D I pos buf with
  | zero =>
    obtain rfl : buf = [] := List.length_eq_zero_iff.mp (by omega)
    refine ⟨D, I, h, (Grow.refl D I).touch (hno ▸ (h.2.live i hi).1), .refl D _ _, by simp, rfl,
      hstart, ?_, rfl⟩
    rw [Mem.splice_nil]
    rfl
  | succ fuel ih =>
    have hlt : no < 1920 := hno ▸ (h.2.live i hi).1
    simp only [iwriteLoop, BLK_SIZE, SECTSIZE, Nat.reduceMul]
    split
    case isTrue hc =>
      set n := min (4096 - pos % 4096) buf.length with hn
      have hn0 : 0 < n := by omega
      have hlen : (buf.take n).length = n := by rw [List.length_take]; omega
      have hlen' : (buf.drop n).length = buf.length - n := List.length_drop
      rw [wp_bind]
      refine (iwalk_spec h hi (pos / 4096)).mono ?_ ?_
      · rintro blk s₁ ⟨D₁, I₁, ⟨hat₁, hinv₁⟩, hg₁, hnew₁, hlt₁, hblk, rfl, -, hfills₁⟩
        rw [hno] at hnew₁ hblk hfills₁ ⊢
        have hkept := hg₁.kept no hlt
        rw [wp_bind]
        refine onDisk_spec (Disk.bwrite_spec hat₁.coherent (by omega)) ?_
        rintro _ d ⟨hcoh, hbytes⟩
        have hw := hinv₁.owned.dataWrite (pos / 4096) (pos % 4096) (buf.take n) hlt hblk (by omega)
        set D₂ := D₁.splice (4096 * place D₁ no (slotOf (pos / 4096)) + pos % 4096) (buf.take n)
          with hD₂
        have hat₂ : Fs.At { s₁ with disk := d } D₂ I₁ :=
          ⟨hcoh, by rw [hbytes, hat₁.bytes], hat₁.sb, hat₁.inodes⟩
        have hobj₂ (no' : ℕ) (hno' : no' < 1920) : (obj D₂ no').type = (obj D₁ no').type ∧
            (obj D₂ no').device = (obj D₁ no').device ∧ (obj D₂ no').size = (obj D₁ no').size := by
          simp only [obj, hw.dinode no' hno', and_self]
        -- the write is inside one block of the file and touches nothing else
        have hinv₂ : FsInv D₂ I₁ := hinv₁.next (.refl I₁)
          (hinv₁.owned.congr hw.bit hw.place)
          (fun no' hno' => by
            rw [(hobj₂ no' hno').1, (hobj₂ no' hno').2.2]
            exact ⟨hinv₁.size no' hno', hinv₁.free no' hno'⟩)
          (fun j hj => by rw [hw.dinode _ (hinv₁.live j hj).1, (hinv₁.live j hj).2])
        have ht₂ : Touch D₁ I₁ no D₂ I₁ :=
          ⟨.refl I₁, hw.other, fun k _ => hw.place no hlt k⟩
        have hfills : Fills D no (walkPlaces (pos / 4096)) D₂ := hfills₁.congr hw.bit (hw.place no hlt)
        rw [hfills.writeStop hlt₁ hc hn, ← hlen']
        have hself : fileByte D₂ no = (fileByte D no).splice pos (buf.take n) := by
          rw [hw.self, hkept.bytes_eq, show 4096 * (pos / 4096) + pos % 4096 = pos by omega]
        refine (@ih _ D₂ I₁ (pos + n) (buf.drop n) ⟨hat₂, hinv₂⟩
          (hg₁.slots.live.mpr hi) ((hg₁.slots.no_eq hi).trans hno) (by omega) (by omega)).imp ?_
        · rintro pos' s₃ ⟨D₃, I₃, hh₃, ht₃, hnew₃, hmap₃, rfl, hle, hobj₃, hnone⟩
          have hnew₂ : NewPlaces D D₂ no (slotOf (pos / 4096)) := fun no' hno' k hzero hne =>
            hnew₁ no' hno' k hzero (by rwa [hw.place no' hno'] at hne)
          have hend : pos + n + (buf.drop n).length = pos + buf.length := by omega
          rw [hend] at hnew₃ hle
          refine ⟨D₃, I₃, hh₃, ((hg₁.touch hlt).trans ht₂).trans ht₃, hnew₂.trans hnew₃
            (slotOf_mono (Nat.div_le_div_right (by omega))), fun _ j hlo hhi => ?_, hend,
            hend ▸ hle, ?_, hnone⟩
          · by_cases hj : j = pos / 4096
            · have hmid : place D₂ no (slotOf (pos / 4096)) ≠ 0 := by rwa [hw.place no hlt]
              rw [hj, ht₃.place _ hmid]
              exact hmid
            · exact hmap₃ (by omega) j (by omega) (by omega)
          rw [hobj₃, hself]
          -- the two writes are one
          have hcat : ((fileByte D no).splice pos (buf.take n)).splice (pos + n) (buf.drop n) =
              (fileByte D no).splice pos buf := by
            conv_rhs => rw [← List.take_append_drop n buf, Mem.splice_append, hlen]
          obtain ⟨h₁, h₂, h₃⟩ := hobj₂ no hlt
          ext1
          · exact h₁.trans (by rw [hkept.obj])
          · exact h₂.trans (by rw [hkept.obj])
          · exact h₃.trans (by rw [hkept.obj])
          · exact hcat
      · rw [hno]
        intro e he
        rw [writeStop, if_neg hc.ne']
        exact he _ (by omega)
    case isFalse hc =>
      obtain rfl : buf = [] := List.length_eq_zero_iff.mp (by omega)
      refine ⟨D, I, h, (Grow.refl D I).touch hlt, .refl D _ _, by simp, rfl, hstart, ?_, rfl⟩
      rw [Mem.splice_nil]
      rfl

/-- A change of the record of an inode that keeps its addresses, written back to the disk. -/
theorem writeBack_spec (h : s.Holds D I) (hi : 0 < (I i).ref) (hno : (I i).no = no)
    (f : Dinode → Dinode) (haddrs : (f (dinodeAt D no)).addrs = (dinodeAt D no).addrs)
    (hsize : (f (dinodeAt D no)).size.toNat ≤ 1036 * 4096)
    (hfree : (f (dinodeAt D no)).type = TYPE_NONE → (f (dinodeAt D no)).size.toNat = 0)
    {fail : Abort → Prop} :
    wp (do modDinode i f
           iupdate i)
      (fun _ s' => ∃ D' I', s'.Holds D' I' ∧ Touch D I no D' I' ∧
        (∀ no' < 1920, ∀ k, place D' no' k = place D no' k) ∧
        obj D' no = ⟨(f (dinodeAt D no)).type, (f (dinodeAt D no)).device,
          (f (dinodeAt D no)).size.toNat, fileByte D no⟩) fail s := by
  subst hno
  obtain ⟨hat, hinv⟩ := h
  obtain ⟨hlt, hd⟩ := hinv.live i hi
  simp only [modDinode, wp_bind]
  refine (modInode_spec hat i _).imp ?_
  intro _ s₁ hat₁
  simp only [iupdate, wp_bind]
  refine (getInode_spec hat₁ i).imp ?_
  rintro ip s₂ ⟨hat₂, rfl⟩
  refine (diwrite_spec hat₂ _ _).imp ?_
  intro _ s₃ hat₃
  simp only [Function.update_self, hd] at hat₃
  have hw := hinv.owned.metaWrite hlt haddrs
  have hslots := sameSlots_update I i (f (dinodeAt D (I i).no))
  refine ⟨_, _, ⟨hat₃, ?_⟩, ⟨hslots, hw.other, fun k _ => hw.place _ hlt k⟩, hw.place, hw.self⟩
  refine hinv.next hslots (hinv.owned.congr hw.bit hw.place) (fun no' hno' => ?_) fun j hj => ?_
  · by_cases hne : no' = (I i).no
    · rw [hne, hw.self]
      exact ⟨hsize, hfree⟩
    · rw [(hw.other no' hno' hne).obj]
      exact ⟨hinv.size no' hno', hinv.free no' hno'⟩
  · by_cases hji : j = i
    · rw [hji, Function.update_self, hw.dinode]
    · have hne : (I j).no ≠ (I i).no := fun heq => hji (hinv.uniq j i hj hi heq)
      rw [Function.update_of_ne hji, hw.dinodes _ hne, (hinv.live j hj).2]

/-- `iwrite` past the end does nothing; up to the end it puts the bytes in place. -/
theorem iwrite_spec (h : s.Holds D I) (hi : 0 < (I i).ref) (hno : (I i).no = no)
    (htype : (obj D no).type ≠ TYPE_NONE) (off : ℕ) (buf : List UInt8) :
    wp (iwrite i off buf)
      (fun r s' => (r = -1 ∧ (obj D no).size < off ∧ s'.Holds D I) ∨
        (r = buf.length ∧ off ≤ (obj D no).size ∧ ∃ D' I', s'.Holds D' I' ∧ Touch D I no D' I' ∧
          NewPlaces D D' no (slotOf ((off + buf.length) / 4096)) ∧
          (0 < buf.length → Mapped D' no off (off + (buf.length - 1))) ∧
          obj D' no = { obj D no with
            size := max (obj D no).size (off + buf.length)
            bytes := (fileByte D no).splice off buf } ∧
          writeStop D no off buf.length = none))
      (fun e => off ≤ (obj D no).size ∧ writeStop D no off buf.length = some e) s := by
  have hlt : no < 1920 := hno ▸ (h.2.live i hi).1
  have hsize : (s.inodes i).dinode.size.toNat = (obj D no).size := by
    rw [h.1.inodes, (h.2.live i hi).2, hno]
    rfl
  simp only [iwrite, isize, wp_bind, wp_read, hsize]
  split
  case isTrue hoff =>
    rw [wp_pure]
    exact Or.inl ⟨rfl, hoff, h⟩
  case isFalse hoff =>
    have hle : off ≤ (obj D no).size := Nat.le_of_not_lt hoff
    have hmax := h.2.size no hlt
    refine wp_bind _ |>.mpr ((iwriteLoop_spec buf.length h hi hno le_rfl (hle.trans hmax)).mono ?_
      fun e he => ⟨hle, he⟩)
    rintro pos s₁ ⟨D₁, I₁, ⟨hat₁, hinv₁⟩, ht₁, hnew₁, hmap₁, rfl, hpos, hobj₁, hnone⟩
    have hi₁ : 0 < (I₁ i).ref := ht₁.slots.live.mpr hi
    have hno₁ : (I₁ i).no = no := (ht₁.slots.no_eq hi).trans hno
    obtain ⟨-, hd₁⟩ := hinv₁.live i hi₁
    rw [hno₁] at hd₁
    have hsize₁ : (s₁.inodes i).dinode.size.toNat = (obj D no).size := by
      rw [hat₁.inodes, hd₁]
      exact congrArg Obj.size hobj₁
    have hlen : ((off + buf.length : ℕ) : ℤ) - off = buf.length := by omega
    simp only [wp_bind, wp_read, hsize₁]
    split
    -- the file has grown, and its inode is written back
    case isTrue hgrow =>
      have hnat : (UInt32.ofNat (off + buf.length)).toNat = off + buf.length :=
        UInt32.toNat_ofNat_of_lt' (by norm_num [UInt32.size]; omega)
      have htype₁ : (dinodeAt D₁ no).type = (obj D no).type := congrArg Obj.type hobj₁
      rw [← bind_assoc, wp_bind]
      refine (writeBack_spec ⟨hat₁, hinv₁⟩ hi₁ hno₁ (fun d => { d with
        size := UInt32.ofNat (off + buf.length) }) rfl (by simp only [hnat]; exact hpos)
        (fun h0 => (htype (htype₁.symm.trans h0)).elim)).imp ?_
      rintro _ s₂ ⟨D₂, I₂, hh₂, ht₂, hplace₂, hobj₂⟩
      rw [wp_pure, hlen]
      refine Or.inr ⟨rfl, hle, D₂, I₂, hh₂, ht₁.trans ht₂, ?_, fun h0 j hlo hhi => ?_, ?_, hnone⟩
      · exact fun no' hno' k hzero hne => hnew₁ no' hno' k hzero (by rwa [hplace₂ no' hno'] at hne)
      · rw [hplace₂ no hlt]
        exact hmap₁ h0 j hlo hhi
      · have hb : fileByte D₁ no = (fileByte D no).splice off buf := congrArg Obj.bytes hobj₁
        have hdev : (dinodeAt D₁ no).device = (obj D no).device := congrArg Obj.device hobj₁
        rw [hobj₂, max_eq_right (by omega)]
        simp only [hnat, hb, htype₁, hdev]
    case isFalse hgrow =>
      rw [wp_pure, hlen]
      refine Or.inr ⟨rfl, hle, D₁, I₁, ⟨hat₁, hinv₁⟩, ht₁, hnew₁, hmap₁, ?_, hnone⟩
      rw [hobj₁, max_eq_left (Nat.le_of_not_lt hgrow)]

end Oslab
