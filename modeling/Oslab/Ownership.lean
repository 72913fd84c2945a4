/-
# Block ownership

Every block from 64 on whose bit is set is in exactly one place of one inode,
and every place holds such a block or nothing. The two changes the file system
makes to the map from places to blocks keep this: a fresh block put into an
empty place, and all blocks of one inode given back.
-/
import Oslab.Layout

namespace Oslab

open Lib

/-- The bitmap and the places of the inodes agree. -/
structure Owned (D : Mem) : Prop where
  low : ∀ b < 64, bitAt D b = true
  range : ∀ no < 1920, ∀ k, place D no k ≠ 0 →
    64 ≤ place D no k ∧ place D no k < 32768 ∧ bitAt D (place D no k) = true
  inj : ∀ no < 1920, ∀ no' < 1920, ∀ k k', place D no k ≠ 0 → place D no k = place D no' k' →
    no = no' ∧ k = k'
  owner : ∀ b, 64 ≤ b → b < 32768 → bitAt D b = true → ∃ no < 1920, ∃ k, place D no k = b

/-- The two disks agree on block `b`. -/
def SameBlk (D D' : Mem) (b : ℕ) : Prop := ∀ a < 4096, D' (4096 * b + a) = D (4096 * b + a)

/-- Object `no` is the same on both disks, and the blocks it had it still has. -/
structure Kept (D D' : Mem) (no : ℕ) : Prop where
  obj : obj D' no = obj D no
  place : ∀ k, place D no k ≠ 0 → place D' no k = place D no k

theorem Kept.refl (D : Mem) (no : ℕ) : Kept D D no := ⟨rfl, fun _ _ => rfl⟩

theorem Kept.trans {D D' D'' : Mem} {no : ℕ} (h : Kept D D' no) (h' : Kept D' D'' no) :
    Kept D D'' no :=
  ⟨h'.obj.trans h.obj, fun k hk => by
    have := h.place k hk
    rw [h'.place k (by rw [this]; exact hk), this]⟩

section Maps

variable {D D' : Mem} {b no k : ℕ}

/-- A block whose bit is clear is in no place. -/
theorem Owned.place_ne (h : Owned D) (hb : bitAt D b = false) {no' k' : ℕ} (hno : no' < 1920)
    (hne : place D no' k' ≠ 0) : place D no' k' ≠ b := by
  intro heq
  have := (h.range no' hno k' hne).2.2
  rw [heq, hb] at this
  cases this

/-- A fresh block is put into an empty place. -/
theorem Owned.alloc (h : Owned D) (hno : no < 1920) (hfree : bitAt D b = false)
    (hlo : 64 ≤ b) (hhi : b < 32768) (hempty : place D no k = 0)
    (hbit : ∀ b' < 32768, bitAt D' b' = (decide (b' = b) || bitAt D b'))
    (hplace : ∀ no' < 1920, ∀ k', place D' no' k' =
      if no' = no ∧ k' = k then b else place D no' k') : Owned D' where
  low b' hb' := by rw [hbit b' (by omega), h.low b' hb', Bool.or_true]
  range no' hno' k' hne := by
    rw [hplace no' hno' k'] at hne ⊢
    split at hne <;> rename_i hc
    · rw [if_pos hc, hbit b hhi]
      exact ⟨hlo, hhi, by simp⟩
    · rw [if_neg hc]
      obtain ⟨h₁, h₂, h₃⟩ := h.range no' hno' k' hne
      exact ⟨h₁, h₂, by rw [hbit _ h₂, h₃, Bool.or_true]⟩
  inj no₁ h₁ no₂ h₂ k₁ k₂ hne heq := by
    rw [hplace no₁ h₁ k₁] at hne heq
    rw [hplace no₂ h₂ k₂] at heq
    by_cases hc₁ : no₁ = no ∧ k₁ = k <;> by_cases hc₂ : no₂ = no ∧ k₂ = k
    · exact ⟨hc₁.1.trans hc₂.1.symm, hc₁.2.trans hc₂.2.symm⟩
    · rw [if_pos hc₁, if_neg hc₂] at heq
      exact (h.place_ne hfree h₂ (by rw [← heq]; omega) heq.symm).elim
    · rw [if_neg hc₁] at hne
      rw [if_neg hc₁, if_pos hc₂] at heq
      exact (h.place_ne hfree h₁ hne heq).elim
    · rw [if_neg hc₁] at hne
      rw [if_neg hc₁, if_neg hc₂] at heq
      exact h.inj no₁ h₁ no₂ h₂ k₁ k₂ hne heq
  owner b' hlo' hhi' hb' := by
    rw [hbit b' hhi'] at hb'
    by_cases hbb : b' = b
    · exact ⟨no, hno, k, by rw [hplace no hno k, if_pos ⟨rfl, rfl⟩, hbb]⟩
    · simp only [hbb, decide_false, Bool.false_or] at hb'
      obtain ⟨no', hno', k', hk'⟩ := h.owner b' hlo' hhi' hb'
      refine ⟨no', hno', k', ?_⟩
      rw [hplace no' hno' k', if_neg, hk']
      rintro ⟨rfl, rfl⟩
      omega

/-- All blocks of one inode are given back. -/
theorem Owned.trunc (h : Owned D) (hno : no < 1920)
    (hbit : ∀ b < 32768, bitAt D' b = true ↔ bitAt D b = true ∧ ∀ k, place D no k ≠ 0 →
      place D no k ≠ b)
    (hplace : ∀ no' < 1920, ∀ k, place D' no' k = if no' = no then 0 else place D no' k) :
    Owned D' where
  low b hb := (hbit b (by omega)).mpr ⟨h.low b hb, fun k hk => by
    have := h.range no hno k hk; omega⟩
  range no' hno' k hne := by
    rw [hplace no' hno' k] at hne ⊢
    split at hne <;> rename_i hc
    · exact (hne rfl).elim
    · rw [if_neg hc]
      obtain ⟨h₁, h₂, h₃⟩ := h.range no' hno' k hne
      refine ⟨h₁, h₂, (hbit _ h₂).mpr ⟨h₃, fun k' hk' heq => hc ?_⟩⟩
      exact (h.inj no hno no' hno' k' k hk' heq).1.symm
  inj no₁ h₁ no₂ h₂ k₁ k₂ hne heq := by
    rw [hplace no₁ h₁ k₁] at hne heq
    rw [hplace no₂ h₂ k₂] at heq
    split at hne
    · exact (hne rfl).elim
    · rename_i hc
      rw [if_neg hc] at heq
      split at heq
      · exact (hne heq).elim
      · exact h.inj no₁ h₁ no₂ h₂ k₁ k₂ hne heq
  owner b hlo hhi hb := by
    obtain ⟨hb', hnone⟩ := (hbit b hhi).mp hb
    obtain ⟨no', hno', k, hk⟩ := h.owner b hlo hhi hb'
    refine ⟨no', hno', k, ?_⟩
    rw [hplace no' hno' k, if_neg, hk]
    rintro rfl
    exact hnone k (by omega) hk

end Maps

/-! ### A fresh block

Taking a free block sets its bit and clears it; then it is put either into an
address of an inode or into a word of an indirect block. -/

/-- `D'` is `D` with the free block `b` taken and cleared. -/
structure Fresh (D : Mem) (b : ℕ) (D' : Mem) : Prop where
  lt : b < 32768
  free : bitAt D b = false
  bit : ∀ b' < 32768, bitAt D' b' = (decide (b' = b) || bitAt D b')
  dinode : ∀ no < 1920, dinodeAt D' no = dinodeAt D no
  same : ∀ p, 64 ≤ p → p ≠ b → SameBlk D D' p
  zero : ∀ a < 4096, D' (4096 * b + a) = 0

section Fresh

variable {D D' D'' : Mem} {b no k : ℕ}

theorem fresh_zeroBlk_setBit (hlo : 64 ≤ b) (hhi : b < 32768) (hfree : bitAt D b = false) :
    Fresh D b (zeroBlk (setBit D b) b) where
  lt := hhi
  free := hfree
  bit b' hb' := by
    rw [@bitAt_congr _ (setBit D b) _ (fun a _ _ => zeroBlk_out (by omega)) hb', bitAt_setBit]
  dinode no hno := dinodeAt_congr fun i hi => by
    rw [zeroBlk_out (by omega), setBit_out (by omega) hhi]
  same p hp hne a ha := by
    rw [zeroBlk_out (by omega), setBit_out (by omega) hhi]
  zero a ha := zeroBlk_in (by omega)

/-- What follows once the places are known: ownership, and every object as before. -/
theorem Fresh.put (hf : Fresh D b D') (h : Owned D) (hlo : 64 ≤ b) (hno : no < 1920)
    (hempty : place D no k = 0) (hmeta : ∀ no' < 1920,
      (dinodeAt D'' no').type = (dinodeAt D no').type ∧
      (dinodeAt D'' no').device = (dinodeAt D no').device ∧
      (dinodeAt D'' no').size = (dinodeAt D no').size)
    (hbit : ∀ b' < 32768, bitAt D'' b' = bitAt D' b')
    (hplace : ∀ no' < 1920, ∀ k', place D'' no' k' =
      if no' = no ∧ k' = k then b else place D no' k')
    (hdata : ∀ p, 64 ≤ p → (∀ no' < 1920, place D no' 12 ≠ p) → SameBlk D' D'' p) :
    Owned D'' ∧ ∀ no' < 1920, Kept D D'' no' := by
  refine ⟨h.alloc hno hf.free hlo hf.lt hempty (fun b' hb' => by rw [hbit b' hb', hf.bit b' hb'])
    hplace, fun no' hno' => ⟨?_, fun k' hk' => ?_⟩⟩
  · have hb (x : ℕ) : fileByte D'' no' x = fileByte D no' x := by
      unfold fileByte
      rw [hplace no' hno' _]
      by_cases hc : no' = no ∧ slotOf (x / 4096) = k
      · -- the new block reads as zeros, as the missing one did
        rw [if_pos hc, hc.1, hc.2, hempty, if_neg (by omega), if_pos rfl,
          hdata b hlo (fun no₁ h₁ h12 => h.place_ne hf.free h₁ (by omega) h12) _
            (Nat.mod_lt _ (by norm_num)), hf.zero _ (Nat.mod_lt _ (by norm_num))]
      · rw [if_neg hc]
        split
        · rfl
        case isFalse h0 =>
          obtain ⟨hp, -, hpb⟩ := h.range no' hno' _ h0
          have hne : ∀ no₁ < 1920, place D no₁ 12 ≠ place D no' (slotOf (x / 4096)) :=
            fun no₁ h₁ heq => slotOf_ne _ (h.inj no' hno' no₁ h₁ _ _ h0 heq.symm).2
          rw [hdata _ hp hne _ (Nat.mod_lt _ (by norm_num)),
            hf.same _ hp (h.place_ne hf.free hno' h0) _ (Nat.mod_lt _ (by norm_num))]
    obtain ⟨h₁, h₂, h₃⟩ := hmeta no' hno'
    ext1
    · exact h₁
    · exact h₂
    · exact congrArg UInt32.toNat h₃
    · exact funext hb
  · rw [hplace no' hno' k', if_neg]
    rintro ⟨rfl, rfl⟩
    exact hk' hempty

/-- Places of an inode whose record and indirect block are the same. -/
theorem Fresh.place_eq (hf : Fresh D b D') (h : Owned D) (hno : no < 1920)
    (hd : dinodeAt D'' no = dinodeAt D no)
    (hsame : place D no 12 ≠ 0 → SameBlk D' D'' (place D no 12)) (k' : ℕ) :
    place D'' no k' = place D no k' :=
  place_congr hd fun h12 a ha => by
    rw [hsame h12 a ha, hf.same _ (h.range no hno 12 h12).1 (h.place_ne hf.free hno h12) a ha]

/-- The fresh block becomes an address of the inode. -/
theorem Fresh.putAddr (hf : Fresh D b D') (h : Owned D) (hlo : 64 ≤ b) (hno : no < 1920)
    (i : Fin 13) (hempty : place D no i = 0) {d : Dinode}
    (hd : d = { dinodeAt D no with
      addrs := Function.update (dinodeAt D no).addrs i (UInt32.ofNat b) }) :
    (∀ no' < 1920, ∀ k', place (setDinode D' no d) no' k' =
      if no' = no ∧ k' = i then b else place D no' k') ∧
    Owned (setDinode D' no d) ∧ ∀ no' < 1920, Kept D (setDinode D' no d) no' := by
  have hbnat : (UInt32.ofNat b).toNat = b :=
    UInt32.toNat_ofNat_of_lt' (lt_trans hf.lt (by norm_num [UInt32.size]))
  have hself : dinodeAt (setDinode D' no d) no = d := dinodeAt_setDinode
  have hother (no' : ℕ) (hno' : no' < 1920) (hne : no' ≠ no) :
      dinodeAt (setDinode D' no d) no' = dinodeAt D no' := by
    rw [dinodeAt_setDinode_of_ne hne, hf.dinode no' hno']
  have hout (p : ℕ) (hp : 64 ≤ p) : SameBlk D' (setDinode D' no d) p := fun a ha =>
    setDinode_out (by omega) hno
  have hnew : place (setDinode D' no d) no i = b := by
    rw [place_of_lt _ _ i.isLt, hself, hd]
    simp [hbnat]
  have hplace : ∀ no' < 1920, ∀ k', place (setDinode D' no d) no' k' =
      if no' = no ∧ k' = i then b else place D no' k' := by
    intro no' hno' k'
    split_ifs with hc
    · rw [hc.1, hc.2, hnew]
    · by_cases hne : no' = no
      · subst hne
        have hki : k' ≠ i := fun hk => hc ⟨rfl, hk⟩
        by_cases hk : k' < 13
        · rw [place_of_lt _ _ hk, place_of_lt _ _ hk, hself, hd]
          have : (⟨k', hk⟩ : Fin 13) ≠ i := fun hi => hki (congrArg Fin.val hi)
          simp [Function.update_of_ne this]
        · by_cases hk' : k' < 1037
          · rw [place_of_le _ _ (by omega) hk', place_of_le _ _ (by omega) hk']
            by_cases h12 : (i : ℕ) = 12
            · -- the new block is an indirect block, all of whose words are zero
              rw [h12] at hnew hempty
              rw [hnew, hempty, if_pos rfl, if_neg (by omega), Mem.word_eq_of_zero fun j hj => ?_]
              · rfl
              · rw [Nat.add_assoc, hout b hlo _ (by omega), hf.zero _ (by omega)]
            · have h12' : place (setDinode D' no' d) no' 12 = place D no' 12 := by
                rw [place_of_lt _ _ (by norm_num), place_of_lt _ _ (by norm_num), hself, hd]
                have : (⟨12, by norm_num⟩ : Fin 13) ≠ i := fun hi => h12 (congrArg Fin.val hi).symm
                simp only [Function.update_of_ne this]
              rw [h12']
              split
              · rfl
              case isFalse h0 =>
                obtain ⟨hp, -, -⟩ := h.range no' hno 12 h0
                rw [Mem.word_congr fun j hj => ?_]
                rw [Nat.add_assoc, hout _ hp _ (by omega),
                  hf.same _ hp (h.place_ne hf.free hno h0) _ (by omega)]
          · rw [place_eq_zero_of_le _ _ (by omega), place_eq_zero_of_le _ _ (by omega)]
      · exact hf.place_eq h hno' (hother no' hno' hne)
          (fun h12 => hout _ (h.range no' hno' 12 h12).1) k'
  refine ⟨hplace, hf.put h hlo hno hempty (fun no' hno' => ?_)
    (fun b' hb' => bitAt_congr (fun a _ _ => setDinode_out (by omega) hno) hb') hplace
    fun p hp _ => hout p hp⟩
  by_cases hne : no' = no
  · subst hne
    rw [hself, hd]
    exact ⟨rfl, rfl, rfl⟩
  · rw [hother no' hno' hne]
    exact ⟨rfl, rfl, rfl⟩

/-- The fresh block becomes a word of the inode's indirect block. -/
theorem Fresh.putWord (hf : Fresh D b D') (h : Owned D) (hlo : 64 ≤ b) (hno : no < 1920)
    (hk : 13 ≤ k) (hk' : k < 1037) (h12 : place D no 12 ≠ 0) (hempty : place D no k = 0)
    (hD : D'' = D'.splice (4096 * place D no 12 + 4 * (k - 13))
      (Mem.wordBytes (UInt32.ofNat b))) :
    (∀ no' < 1920, ∀ k', place D'' no' k' =
      if no' = no ∧ k' = k then b else place D no' k') ∧
    Owned D'' ∧ ∀ no' < 1920, Kept D D'' no' := by
  have hbnat : (UInt32.ofNat b).toNat = b :=
    UInt32.toNat_ofNat_of_lt' (lt_trans hf.lt (by norm_num [UInt32.size]))
  obtain ⟨hib, -, -⟩ := h.range no hno 12 h12
  -- only the word in the indirect block is different
  have hout (a : ℕ) (ha : a < 4096 * place D no 12 ∨ 4096 * place D no 12 + 4096 ≤ a) :
      D'' a = D' a := by rw [hD]; exact Mem.splice_out (by simp; omega)
  have hd (no' : ℕ) (hno' : no' < 1920) : dinodeAt D'' no' = dinodeAt D no' := by
    rw [← hf.dinode no' hno']
    exact dinodeAt_congr fun i hi => hout _ (by omega)
  have hsame (p : ℕ) (hp : p ≠ place D no 12) : SameBlk D' D'' p := fun a ha => hout _ (by omega)
  have hword (k' : ℕ) : D''.word (4096 * place D no 12 + 4 * (k' - 13)) =
      if k' - 13 = k - 13 then UInt32.ofNat b
      else D'.word (4096 * place D no 12 + 4 * (k' - 13)) := by
    rw [hD]
    split_ifs with hc
    · rw [hc, Mem.word_splice_self]
    · rw [Mem.word_splice_out (by simp; omega)]
  have h12' : place D'' no 12 = place D no 12 := by
    rw [place_of_lt _ _ (by norm_num), place_of_lt _ _ (by norm_num), hd no hno]
  have hplace : ∀ no' < 1920, ∀ k', place D'' no' k' =
      if no' = no ∧ k' = k then b else place D no' k' := by
    intro no' hno' k'
    by_cases hne : no' = no
    · subst hne
      by_cases hlt : k' < 13
      · rw [if_neg (by omega), place_of_lt _ _ hlt, place_of_lt _ _ hlt, hd no' hno]
      · by_cases hle : k' < 1037
        · rw [place_of_le _ _ (by omega) hle, place_of_le D _ (by omega) hle, h12', if_neg h12,
            if_neg h12, hword]
          split_ifs with h₁ h₂ h₂
          · exact hbnat
          · omega
          · omega
          · rw [Mem.word_congr fun j hj => ?_]
            rw [Nat.add_assoc, hf.same _ hib (h.place_ne hf.free hno h12) _ (by omega)]
        · rw [if_neg (by omega), place_eq_zero_of_le _ _ (by omega),
            place_eq_zero_of_le _ _ (by omega)]
    · rw [if_neg (fun hc => hne hc.1)]
      refine hf.place_eq h hno' (hd no' hno') (fun h0 => hsame _ fun heq => hne ?_) k'
      exact (h.inj no' hno' no hno 12 12 h0 heq).1
  refine ⟨hplace, hf.put h hlo hno hempty
    (fun no' hno' => by rw [hd no' hno']; exact ⟨rfl, rfl, rfl⟩)
    (fun b' hb' => bitAt_congr (fun a _ _ => hout a (by omega)) hb') hplace
    fun p _ hp => hsame p fun heq => hp no hno heq.symm⟩

end Fresh

/-! ### Writing data and records

Neither a write into a data block nor one into the record of an inode that keeps its
addresses moves a block. -/

section Write

variable {D D' : Mem} {no n off : ℕ} {bs : List UInt8} {d : Dinode}

theorem Owned.congr (h : Owned D) (hbit : ∀ b < 32768, bitAt D' b = bitAt D b)
    (hplace : ∀ no < 1920, ∀ k, place D' no k = place D no k) : Owned D' where
  low b hb := by rw [hbit b (by omega), h.low b hb]
  range no hno k hne := by
    rw [hplace no hno k] at hne ⊢
    obtain ⟨h₁, h₂, h₃⟩ := h.range no hno k hne
    exact ⟨h₁, h₂, by rw [hbit _ h₂, h₃]⟩
  inj no₁ h₁ no₂ h₂ k₁ k₂ hne heq := by
    rw [hplace no₁ h₁] at hne heq
    rw [hplace no₂ h₂] at heq
    exact h.inj no₁ h₁ no₂ h₂ k₁ k₂ hne heq
  owner b hlo hhi hb := by
    rw [hbit b hhi] at hb
    obtain ⟨no, hno, k, hk⟩ := h.owner b hlo hhi hb
    exact ⟨no, hno, k, by rw [hplace no hno k, hk]⟩

/-- What a write into block `n` of file `no` does. -/
structure DataWrite (D : Mem) (no n off : ℕ) (bs : List UInt8) (D' : Mem) : Prop where
  bit : ∀ b < 32768, bitAt D' b = bitAt D b
  dinode : ∀ no' < 1920, dinodeAt D' no' = dinodeAt D no'
  place : ∀ no' < 1920, ∀ k, Oslab.place D' no' k = Oslab.place D no' k
  self : fileByte D' no = (fileByte D no).splice (4096 * n + off) bs
  other : ∀ no' < 1920, no' ≠ no → Kept D D' no'

theorem Owned.dataWrite (h : Owned D) (n off : ℕ) (bs : List UInt8) (hno : no < 1920)
    (hp : place D no (slotOf n) ≠ 0) (hoff : off + bs.length ≤ 4096) :
    DataWrite D no n off bs (D.splice (4096 * place D no (slotOf n) + off) bs) := by
  obtain ⟨hlo, hhi, -⟩ := h.range no hno _ hp
  set p := place D no (slotOf n) with hpdef
  have hout (a : ℕ) (ha : a < 4096 * p ∨ 4096 * p + 4096 ≤ a) :
      D.splice (4096 * p + off) bs a = D a := Mem.splice_out (by omega)
  have hsame (q : ℕ) (hq : q ≠ p) : SameBlk D (D.splice (4096 * p + off) bs) q :=
    fun a ha => hout _ (by omega)
  have hd (no' : ℕ) (hno' : no' < 1920) :
      dinodeAt (D.splice (4096 * p + off) bs) no' = dinodeAt D no' :=
    dinodeAt_congr fun i hi => hout _ (by omega)
  have hplace (no' : ℕ) (hno' : no' < 1920) (k : ℕ) :
      place (D.splice (4096 * p + off) bs) no' k = place D no' k :=
    place_congr (hd no' hno') fun h12 =>
      hsame _ fun heq => slotOf_ne n (h.inj no' hno' no hno 12 _ h12 heq).2.symm
  -- a file byte lies in block `p` only if it is a byte of block `n` of file `no`
  have hbyte (no' : ℕ) (hno' : no' < 1920) (x : ℕ) (hx : no' = no → x / 4096 ≠ n) :
      fileByte (D.splice (4096 * p + off) bs) no' x = fileByte D no' x :=
    fileByte_congr (hplace no' hno' _) fun hne => hsame _ fun heq => by
      obtain ⟨hn, hs⟩ := h.inj no' hno' no hno _ _ hne heq
      exact hx hn (slotOf_inj hs)
  refine ⟨fun b hb => bitAt_congr (fun a _ _ => hout a (by omega)) hb, hd, hplace, ?_, ?_⟩
  · funext x
    by_cases hx : x / 4096 = n
    · have hpx : fileByte D no x = D (4096 * p + x % 4096) := by
        rw [fileByte, hx, if_neg hp]
      rw [fileByte, hplace no hno, hx, if_neg hp, Mem.splice_apply, Mem.splice_apply, ← hpdef, hpx]
      by_cases hin : off ≤ x % 4096 ∧ x % 4096 < off + bs.length
      · rw [if_pos (by omega), if_pos (by omega),
          show 4096 * p + x % 4096 - (4096 * p + off) = x - (4096 * n + off) by omega]
      · rw [if_neg (by omega), if_neg (by omega)]
    · rw [hbyte no hno x fun _ => hx, Mem.splice_out]
      omega
  · intro no' hno' hne
    refine ⟨?_, fun k _ => hplace no' hno' k⟩
    have hb : fileByte (D.splice (4096 * p + off) bs) no' = fileByte D no' :=
      funext fun x => hbyte no' hno' x fun heq => (hne heq).elim
    simp only [obj, hd no' hno', hb]

/-- What a write of the record of inode `no` does when it keeps the addresses. -/
structure MetaWrite (D : Mem) (no : ℕ) (d : Dinode) (D' : Mem) : Prop where
  bit : ∀ b < 32768, bitAt D' b = bitAt D b
  dinode : dinodeAt D' no = d
  dinodes : ∀ no' ≠ no, dinodeAt D' no' = dinodeAt D no'
  place : ∀ no' < 1920, ∀ k, Oslab.place D' no' k = Oslab.place D no' k
  self : obj D' no = ⟨d.type, d.device, d.size.toNat, fileByte D no⟩
  other : ∀ no' < 1920, no' ≠ no → Kept D D' no'

theorem Owned.metaWrite (h : Owned D) (hno : no < 1920) (hd : d.addrs = (dinodeAt D no).addrs) :
    MetaWrite D no d (setDinode D no d) := by
  have hout (a : ℕ) (ha : a < 139264 ∨ 262144 ≤ a) : setDinode D no d a = D a :=
    setDinode_out ha hno
  have hplace (no' : ℕ) (hno' : no' < 1920) (k : ℕ) :
      place (setDinode D no d) no' k = place D no' k := by
    have haddrs : (dinodeAt (setDinode D no d) no').addrs = (dinodeAt D no').addrs := by
      by_cases hne : no' = no
      · rw [hne, dinodeAt_setDinode, hd]
      · rw [dinodeAt_setDinode_of_ne hne]
    by_cases hk : k < 13
    · rw [place_of_lt _ _ hk, place_of_lt _ _ hk, haddrs]
    · by_cases hk' : k < 1037
      · have h12 : place (setDinode D no d) no' 12 = place D no' 12 := by
          rw [place_of_lt _ _ (by norm_num), place_of_lt _ _ (by norm_num), haddrs]
        rw [place_of_le _ _ (by omega) hk', place_of_le _ _ (by omega) hk', h12]
        split
        · rfl
        case isFalse h0 =>
          have := (h.range no' hno' 12 h0).1
          rw [Mem.word_congr fun i hi => hout _ (by omega)]
      · rw [place_eq_zero_of_le _ _ (by omega), place_eq_zero_of_le _ _ (by omega)]
  have hbytes (no' : ℕ) (hno' : no' < 1920) :
      fileByte (setDinode D no d) no' = fileByte D no' :=
    funext fun x => fileByte_congr (hplace no' hno' _) fun hne a ha => hout _ (by
      have := (h.range no' hno' _ hne).1
      omega)
  refine ⟨fun b hb => bitAt_congr (fun a _ _ => hout a (by omega)) hb, dinodeAt_setDinode,
    fun no' hne => dinodeAt_setDinode_of_ne hne, hplace, ?_, fun no' hno' hne => ⟨?_, ?_⟩⟩
  · simp only [obj, dinodeAt_setDinode, hbytes no hno]
  · simp only [obj, dinodeAt_setDinode_of_ne hne, hbytes no' hno']
  · exact fun k _ => hplace no' hno' k

end Write

end Oslab
