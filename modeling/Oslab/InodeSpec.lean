/-
# Opening, closing and freeing inodes

`itrunc` gives the blocks of a file back; `iget`, `idup` and `iclose` count the
references of the slots, and the last `iclose` of a removed inode frees it;
`dialloc` takes a free inode.
-/
import Oslab.FileSpec

namespace Oslab

open Lib Lib.Prog

variable {s : Fs} {D D' D'' : Mem} {I I' I'' : InodePtr → Inode} {i : InodePtr} {no : ℕ}

/-! ### Truncating -/

/-- The bits of the blocks in `S` are cleared, and nothing else has changed. -/
structure Freed (D D' : Mem) (S : ℕ → Prop) : Prop where
  bit : ∀ b < 32768, bitAt D' b = true ↔ bitAt D b = true ∧ ¬ S b
  same : ∀ a, a < 135168 ∨ 139264 ≤ a → D' a = D a

theorem Freed.none (D : Mem) : Freed D D fun _ => False := ⟨by simp, fun _ _ => rfl⟩

theorem Freed.congr {S S' : ℕ → Prop} (h : Freed D D' S) (hS : ∀ b, S b ↔ S' b) :
    Freed D D' S' := ⟨fun b hb => by rw [h.bit b hb, hS b], h.same⟩

theorem Freed.clearBit {S : ℕ → Prop} {b : ℕ} (h : Freed D D' S) (hb : b < 32768) :
    Freed D (clearBit D' b) fun x => S x ∨ x = b where
  bit x hx := by
    rw [bitAt_clearBit, Bool.and_eq_true, h.bit x hx]
    simp
    tauto
  same a ha := by rw [clearBit_out ha hb, h.same a ha]

theorem Freed.dinode_eq {S : ℕ → Prop} (h : Freed D D' S) (no : ℕ) :
    dinodeAt D' no = dinodeAt D no := dinodeAt_congr fun i hi => h.same _ (by omega)

/-- What `itrunc` does to the disk: all blocks of inode `no` are given back. -/
structure Trunc (D D' : Mem) (no : ℕ) : Prop where
  bit : ∀ b < 32768, bitAt D' b = true ↔ bitAt D b = true ∧ ∀ k, Oslab.place D no k ≠ 0 →
    Oslab.place D no k ≠ b
  place : ∀ no' < 1920, ∀ k, Oslab.place D' no' k = if no' = no then 0 else Oslab.place D no' k
  other : ∀ no' < 1920, no' ≠ no → obj D' no' = obj D no'

namespace Dinode

variable {d : Dinode}

/-- The record of an inode without blocks and bytes. -/
def cleared (d : Dinode) : Dinode := { d with size := 0, addrs := fun _ => 0 }

/-- The record of an inode without its first `k` addresses. -/
def dropAddrs (d : Dinode) (k : ℕ) : Dinode :=
  { d with addrs := fun a => if (a : ℕ) < k then 0 else d.addrs a }

theorem dropAddrs_zero : d.dropAddrs 0 = d := rfl

theorem dropAddrs_self (a : Fin 13) : (d.dropAddrs a).addrs a = d.addrs a :=
  if_neg (lt_irrefl _)

theorem dropAddrs_succ (a : Fin 13) : { d.dropAddrs a with
    addrs := Function.update (d.dropAddrs a).addrs a 0 } = d.dropAddrs (a + 1) := by
  ext1 <;> try rfl
  funext x
  by_cases hx : x = a
  · subst hx
    exact (Function.update_self ..).trans (if_pos (Nat.lt_succ_self _)).symm
  · have hne : (x : ℕ) ≠ a := fun h => hx (Fin.ext h)
    exact (Function.update_of_ne hx ..).trans (if_congr (by omega) rfl rfl)

theorem dropAddrs_succ_of_zero {a : Fin 13} (h : d.addrs a = 0) :
    d.dropAddrs (a + 1) = d.dropAddrs a := by
  rw [← dropAddrs_succ, (Function.update_eq_self_iff (f := (d.dropAddrs a).addrs)).mpr]
  rw [dropAddrs_self, h]

theorem dropAddrs_all : { d.dropAddrs 13 with size := 0 } = d.cleared := by
  ext1 <;> try rfl
  funext x
  exact if_pos x.isLt

end Dinode

theorem Freed.trunc (h : Owned D) (hno : no < 1920) {d : Dinode} (hd : d.addrs = fun _ => 0)
    (hf : Freed D D' fun b => b ≠ 0 ∧ ∃ k, place D no k = b) :
    Trunc D (setDinode D' no d) no := by
  have hself : ∀ k, place (setDinode D' no d) no k = 0 := by
    intro k
    by_cases hk : k < 13
    · rw [place_of_lt _ _ hk, dinodeAt_setDinode, hd]
      rfl
    · by_cases hk' : k < 1037
      · rw [place_of_le _ _ (by omega) hk', if_pos]
        rw [place_of_lt _ _ (by norm_num), dinodeAt_setDinode, hd]
        rfl
      · exact place_eq_zero_of_le _ _ (by omega)
  have hout (p : ℕ) (hp : 64 ≤ p) : SameBlk D (setDinode D' no d) p := fun a ha => by
    rw [setDinode_out (by omega) hno, hf.same _ (by omega)]
  have hdin (no' : ℕ) (hne : no' ≠ no) : dinodeAt (setDinode D' no d) no' = dinodeAt D no' := by
    rw [dinodeAt_setDinode_of_ne hne, hf.dinode_eq]
  have hother (no' : ℕ) (hno' : no' < 1920) (hne : no' ≠ no) (k : ℕ) :
      place (setDinode D' no d) no' k = place D no' k :=
    place_congr (hdin no' hne) fun h12 => hout _ (h.range no' hno' 12 h12).1
  refine ⟨fun b hb => ?_, fun no' hno' k => ?_, fun no' hno' hne => ?_⟩
  · rw [@bitAt_congr _ D' _ (fun a _ _ => setDinode_out (by omega) hno) hb, hf.bit b hb]
    refine and_congr_right fun _ => ⟨fun hn k hk heq => hn ⟨by omega, k, heq⟩, ?_⟩
    rintro hn ⟨hb0, k, rfl⟩
    exact hn k hb0 rfl
  · split
    case isTrue heq => rw [heq, hself]
    case isFalse hne => exact hother no' hno' hne k
  · have hb : fileByte (setDinode D' no d) no' = fileByte D no' := funext fun x =>
      fileByte_congr (hother no' hno' hne _) fun h0 => hout _ (h.range no' hno' _ h0).1
    simp only [obj, hdin no' hne, hb]

theorem Trunc.fileByte (h : Trunc D D' no) (hno : no < 1920) : fileByte D' no = fun _ => 0 :=
  funext fun x => if_pos (by rw [h.place no hno, if_pos rfl])

/-- The loop of `itrunc` over the words of the indirect block. -/
theorem freeWords_spec {fail : Abort → Prop} (n : ℕ) (hn : n ≤ 1024) (h : Owned D) (hlt : no < 1920)
    (h12 : place D no 12 ≠ 0) (hat : s.At D' I)
    (hf : Freed D D' fun b => b ≠ 0 ∧ ∃ a < 12, place D no a = b) :
    wp (loop (fun k _ => do
        let block ← readWord (place D no 12) (k * 4)
        if block ≠ 0 then bfree block) (List.range n) ())
      (fun _ s' => ∃ D₁, s'.At D₁ I ∧
        Freed D D₁ fun b => b ≠ 0 ∧ ∃ a < 13 + n, a ≠ 12 ∧ place D no a = b) fail s := by
  refine wp_loop_index (fun k _ s => ∃ D₁, s.At D₁ I ∧
    Freed D D₁ fun b => b ≠ 0 ∧ ∃ a < 13 + k, a ≠ 12 ∧ place D no a = b) _ _ ?_ ?_ ?_
  · refine ⟨D', hat, hf.congr fun b => and_congr_right fun _ => ⟨?_, ?_⟩⟩
    · rintro ⟨a, ha, rfl⟩
      exact ⟨a, by omega, by omega, rfl⟩
    · rintro ⟨a, ha, hne, rfl⟩
      exact ⟨a, by omega, rfl⟩
  · rintro k a ha - s ⟨D₁, hat₁, hf₁⟩
    obtain ⟨hk, rfl⟩ : k < n ∧ k = a := by
      obtain ⟨hk, rfl⟩ := List.getElem?_eq_some_iff.mp ha
      exact ⟨by simpa using hk, by simp⟩
    have hlo := (h.range no hlt 12 h12).1
    rw [wp_bind]
    refine (readWord_spec hat₁ (by omega)).imp ?_
    rintro w s₁ ⟨hat₂, rfl⟩
    -- the bitmap is the only thing that has changed, so the word is still that of the file
    have hword : (D₁.word (4096 * place D no 12 + k * 4)).toNat = place D no (13 + k) := by
      rw [place_of_le D no (show 13 ≤ 13 + k by omega) (by omega), if_neg h12,
        show 4 * (13 + k - 13) = k * 4 by omega,
        Mem.word_congr fun j hj => hf₁.same _ (by omega)]
    rw [hword]
    split
    case isTrue hp =>
      obtain ⟨hlo', hhi', -⟩ := h.range no hlt _ hp
      refine (bfree_spec hat₂ hlo' hhi').imp ?_
      intro _ s₂ hat₃
      refine ⟨_, hat₃, (hf₁.clearBit hhi').congr fun b => ⟨?_, ?_⟩⟩
      · rintro (⟨hb, x, hx, hne, rfl⟩ | rfl)
        · exact ⟨hb, x, by omega, hne, rfl⟩
        · exact ⟨hp, 13 + k, by omega, by omega, rfl⟩
      · rintro ⟨hb, x, hx, hne, rfl⟩
        by_cases hxk : x = 13 + k
        · exact Or.inr (by rw [hxk])
        · exact Or.inl ⟨hb, x, by omega, hne, rfl⟩
    case isFalse hp =>
      rw [not_not] at hp
      refine ⟨D₁, hat₂, hf₁.congr fun b => ⟨?_, ?_⟩⟩
      · rintro ⟨hb, x, hx, hne, rfl⟩
        exact ⟨hb, x, by omega, hne, rfl⟩
      · rintro ⟨hb, x, hx, hne, rfl⟩
        exact ⟨hb, x, lt_of_le_of_ne (by omega) fun hxk => hb (by rw [hxk, hp]), hne, rfl⟩
  · rw [List.length_range]
    exact fun _ s => id

/-- `itrunc` clears the record of the inode and gives its blocks back. -/
theorem itrunc_at {fail : Abort → Prop} (hat : s.At D I) (h : Owned D) (hno : (I i).no = no)
    (hlt : no < 1920) (hd : (I i).dinode = dinodeAt D no) :
    wp (itrunc i) (fun _ s' => ∃ D', s'.At (setDinode D' no (dinodeAt D no).cleared)
        (Function.update I i { I i with dinode := (dinodeAt D no).cleared }) ∧
      Freed D D' fun b => b ≠ 0 ∧ ∃ k, place D no k = b) fail s := by
  subst hno
  set d := dinodeAt D (I i).no with hdd
  have haddr (k : Fin 13) : (d.addrs k).toNat = place D (I i).no k := by
    rw [place_of_lt _ _ k.isLt]
  have hzero (k : Fin 13) : d.addrs k = 0 ↔ place D (I i).no k = 0 := by
    rw [← haddr, ← UInt32.toNat_inj]
    rfl
  rw [itrunc, wp_bind]
  refine wp_loop_index (fun k _ s => ∃ D₁, s.At D₁ (Function.update I i
      { I i with dinode := d.dropAddrs k }) ∧
    Freed D D₁ fun b => b ≠ 0 ∧ ∃ a < k, place D (I i).no a = b) _ _ ?_ ?_ ?_
  · refine ⟨D, ?_, (Freed.none D).congr fun b => by simp⟩
    have hsame : { I i with dinode := d.dropAddrs 0 } = I i := by
      rw [Dinode.dropAddrs_zero, ← hd]
    rwa [hsame, Function.update_eq_self]
  · rintro k a ha - s ⟨D₁, hat₁, hf₁⟩
    obtain ⟨hk12, rfl⟩ : k < 12 ∧ k = (a : ℕ) := by
      obtain ⟨hk, rfl⟩ := List.getElem?_eq_some_iff.mp ha
      exact ⟨by simpa using hk, by simp⟩
    rw [wp_bind]
    refine (getInode_spec hat₁ i).imp ?_
    rintro ip s₁ ⟨hat₂, rfl⟩
    simp only [Function.update_self, Dinode.dropAddrs_self]
    split
    case isTrue hne =>
      have hp : place D (I i).no a ≠ 0 := fun h0 => hne ((hzero a).mpr h0)
      obtain ⟨hlo, hhi, -⟩ := h.range _ hlt a hp
      rw [wp_bind, haddr a]
      refine (bfree_spec hat₂ hlo hhi).imp ?_
      intro _ s₂ hat₃
      refine (modInode_spec hat₃ i _).imp ?_
      intro _ s₃ hat₄
      refine ⟨_, ?_, (hf₁.clearBit hhi).congr fun b => ?_⟩
      · simp only [Function.update_self, Function.update_idem, Dinode.dropAddrs_succ] at hat₄
        exact hat₄
      · constructor
        · rintro (⟨hb, x, hx, rfl⟩ | rfl)
          · exact ⟨hb, x, by omega, rfl⟩
          · exact ⟨hp, a, by omega, rfl⟩
        · rintro ⟨hb, x, hx, rfl⟩
          by_cases hxa : x = a
          · exact Or.inr (by rw [hxa])
          · exact Or.inl ⟨hb, x, by omega, rfl⟩
    case isFalse hne =>
      have hz : place D (I i).no a = 0 := (hzero a).mp (not_not.mp hne)
      refine ⟨D₁, by rwa [Dinode.dropAddrs_succ_of_zero ((hzero a).mpr hz)],
        hf₁.congr fun b => ⟨?_, ?_⟩⟩
      · rintro ⟨hb, x, hx, rfl⟩
        exact ⟨hb, x, by omega, rfl⟩
      · rintro ⟨hb, x, hx, rfl⟩
        exact ⟨hb, x, lt_of_le_of_ne (by omega) fun hxa => hb (by rw [hxa, hz]), rfl⟩
  · simp only [List.length_map, List.length_finRange]
    rintro - s ⟨D₁, hat₁, hf₁⟩
    have h12 : place D (I i).no 12 = (d.addrs (Fin.last 12)).toNat := (haddr (Fin.last 12)).symm
    have hself : (d.dropAddrs 12).addrs (Fin.last 12) = d.addrs (Fin.last 12) :=
      Dinode.dropAddrs_self (Fin.last 12)
    have hall : { d.dropAddrs 12 with
        addrs := Function.update (d.dropAddrs 12).addrs (Fin.last 12) 0 } = d.dropAddrs 13 :=
      Dinode.dropAddrs_succ (Fin.last 12)
    -- the end of `itrunc`, once every block has been given back
    have hfinish (s : Fs) (D₂ : Mem) (hat : s.At D₂ (Function.update I i
        { I i with dinode := d.dropAddrs 13 }))
        (hf : Freed D D₂ fun b => b ≠ 0 ∧ ∃ k, place D (I i).no k = b) :
        wp (do modDinode i fun d => { d with size := 0 }
               iupdate i) (fun _ s' => ∃ D', s'.At (setDinode D' (I i).no d.cleared)
          (Function.update I i { I i with dinode := d.cleared }) ∧
          Freed D D' fun b => b ≠ 0 ∧ ∃ k, place D (I i).no k = b) fail s := by
      rw [wp_bind]
      refine (modInode_spec hat i _).imp ?_
      intro _ s₁ hat₁
      simp only [Function.update_self, Function.update_idem, Dinode.dropAddrs_all] at hat₁
      rw [iupdate, wp_bind]
      refine (getInode_spec hat₁ i).imp ?_
      rintro ip s₂ ⟨hat₂, rfl⟩
      refine (diwrite_spec hat₂ _ _).imp ?_
      intro _ s₃ hat₃
      simp only [Function.update_self] at hat₃
      exact ⟨D₂, hat₃, hf⟩
    rw [wp_bind]
    refine (getInode_spec hat₁ i).imp ?_
    rintro ip s₁ ⟨hat₂, rfl⟩
    simp only [Function.update_self, hself, ← h12]
    split
    case isTrue hne =>
      have hrange := h.range _ hlt 12 hne
      have hlo := hrange.1
      have hhi := hrange.2.1
      rw [wp_bind]
      generalize hN : NINDIRECT = N
      have hN' : N = 1024 := hN ▸ by norm_num [NINDIRECT]
      refine (freeWords_spec N hN'.le h hlt hne hat₂ hf₁).imp ?_
      rintro - s₂ ⟨D₂, hat₃, hf₂⟩
      rw [wp_bind]
      refine (bfree_spec hat₃ hlo hhi).imp ?_
      intro _ s₃ hat₄
      rw [wp_bind]
      refine (modInode_spec hat₄ i _).imp ?_
      intro _ s₄ hat₅
      simp only [Function.update_self, Function.update_idem] at hat₅
      rw [hall] at hat₅
      refine hfinish s₄ _ hat₅ ((hf₂.clearBit hhi).congr fun b => ⟨?_, ?_⟩)
      · rintro (⟨hb, x, hx, -, rfl⟩ | rfl)
        · exact ⟨hb, x, rfl⟩
        · exact ⟨hne, 12, rfl⟩
      · rintro ⟨hb, x, rfl⟩
        by_cases hx : x = 12
        · exact Or.inr (by rw [hx])
        · refine Or.inl ⟨hb, x, ?_, hx, rfl⟩
          by_contra hge
          exact hb (place_eq_zero_of_le _ _ (by omega))
    case isFalse hne =>
      rw [not_not] at hne
      have hlast : d.dropAddrs 13 = d.dropAddrs 12 :=
        Dinode.dropAddrs_succ_of_zero (a := Fin.last 12) ((hzero (Fin.last 12)).mpr hne)
      refine hfinish s₁ D₁ (by rwa [hlast]) (hf₁.congr fun b => ⟨?_, ?_⟩)
      · rintro ⟨hb, x, -, rfl⟩
        exact ⟨hb, x, rfl⟩
      · rintro ⟨hb, x, rfl⟩
        refine ⟨hb, x, ?_, rfl⟩
        change x < 12
        by_contra hge
        by_cases hx : x < 1037
        · refine hb ?_
          by_cases hx12 : x = 12
          · rw [hx12, hne]
          · rw [place_of_le _ _ (by omega) hx, if_pos hne]
        · exact hb (place_eq_zero_of_le _ _ (by omega))

/-- The same slots, with another record in slot `i`, after the disk has changed. -/
theorem Trunc.fsInv (h : FsInv D I) (ht : Trunc D D' no) (hi : 0 < (I i).ref)
    (hno : (I i).no = no) {d : Dinode} (hd : dinodeAt D' no = d) (hsize : d.size = 0)
    (hother : ∀ no' < 1920, no' ≠ no → dinodeAt D' no' = dinodeAt D no') :
    FsInv D' (Function.update I i { I i with dinode := d }) := by
  have hlt : no < 1920 := hno ▸ (h.live i hi).1
  refine h.next (sameSlots_update I i d) (h.owned.trunc hlt ht.bit ht.place) (fun no' hno' => ?_)
    fun j hj => ?_
  · by_cases hne : no' = no
    · have h0 : (obj D' no').size = 0 := by
        rw [hne]
        change (dinodeAt D' no).size.toNat = 0
        rw [hd, hsize]
        rfl
      rw [h0]
      exact ⟨Nat.zero_le _, fun _ => rfl⟩
    · rw [ht.other no' hno' hne]
      exact ⟨h.size no' hno', h.free no' hno'⟩
  · by_cases hji : j = i
    · rw [hji, Function.update_self, hno, hd]
    · have hne : (I j).no ≠ no := fun heq => hji (h.uniq j i hj hi (heq.trans hno.symm))
      rw [Function.update_of_ne hji, hother _ (h.live j hj).1 hne, (h.live j hj).2]

/-- `itrunc` empties the file and gives its blocks back. -/
theorem itrunc_spec {fail : Abort → Prop} (h : s.Holds D I) (hi : 0 < (I i).ref)
    (hno : (I i).no = no) :
    wp (itrunc i) (fun _ s' => ∃ D' I', s'.Holds D' I' ∧ SameSlots I I' ∧ Trunc D D' no ∧
      obj D' no = { obj D no with size := 0, bytes := fun _ => 0 }) fail s := by
  obtain ⟨hat, hinv⟩ := h
  obtain ⟨hlt, hd⟩ := hinv.live i hi
  rw [hno] at hlt hd
  refine (itrunc_at hat hinv.owned hno hlt hd).imp ?_
  rintro - s' ⟨D', hat', hf⟩
  have ht := hf.trunc hinv.owned hlt (d := (dinodeAt D no).cleared) rfl
  refine ⟨_, _, ⟨hat', ht.fsInv hinv hi hno dinodeAt_setDinode rfl fun no' _ hne => ?_⟩,
    sameSlots_update I i _, ht, ?_⟩
  · rw [dinodeAt_setDinode_of_ne hne, hf.dinode_eq]
  · have hbytes := ht.fileByte hlt
    unfold obj
    rw [hbytes, dinodeAt_setDinode]
    rfl

/-! ### References -/

/-- An object that is not there. -/
def Obj.free : Obj := ⟨TYPE_NONE, 0, 0, fun _ => 0⟩

/-- The invariant after one slot has changed. -/
theorem FsInv.update (h : FsInv D I) (j : InodePtr) (ip : Inode) (href : 0 ≤ ip.ref)
    (hlive : 0 < ip.ref → ip.no < 1920 ∧ ip.dinode = dinodeAt D ip.no)
    (huniq : 0 < ip.ref → ∀ k ≠ j, 0 < (I k).ref → (I k).no ≠ ip.no) :
    FsInv D (Function.update I j ip) where
  owned := h.owned
  size := h.size
  free := h.free
  ref k := by
    by_cases hk : k = j
    · rw [hk, Function.update_self]
      exact href
    · rw [Function.update_of_ne hk]
      exact h.ref k
  live k hpos := by
    by_cases hk : k = j
    · rw [hk, Function.update_self] at hpos ⊢
      exact hlive hpos
    · rw [Function.update_of_ne hk] at hpos ⊢
      exact h.live k hpos
  uniq k l hpos hpos' heq := by
    by_cases hk : k = j <;> by_cases hl : l = j
    · rw [hk, hl]
    · rw [hk, Function.update_self] at hpos heq
      rw [Function.update_of_ne hl] at hpos' heq
      exact (huniq hpos l hl hpos' heq.symm).elim
    · rw [hl, Function.update_self] at hpos' heq
      rw [Function.update_of_ne hk] at hpos heq
      exact (huniq hpos' k hk hpos heq).elim
    · rw [Function.update_of_ne hk] at hpos heq
      rw [Function.update_of_ne hl] at hpos' heq
      exact h.uniq k l hpos hpos' heq

/-- A slot in use gets one reference more. -/
theorem FsInv.dup (h : FsInv D I) {j : InodePtr} (hj : 0 < (I j).ref) :
    FsInv D (Function.update I j { I j with ref := (I j).ref + 1 }) ∧
      Opened I (Function.update I j { I j with ref := (I j).ref + 1 }) j (I j).no := by
  refine ⟨h.update j _ (Int.le_add_one hj.le) (fun _ => h.live j hj)
    (fun _ k hk hpos heq => hk (h.uniq k j hpos hj heq)), by simp, by simp,
    fun _ => ⟨rfl, by simp⟩, fun h0 => by omega, fun k hk => ?_⟩
  simp [Function.update_of_ne hk]

/-- `iget` finds the slot of the inode or loads the inode into a free one. -/
theorem iget_spec (h : s.Holds D I) (hno : no < 1920) :
    wp (iget no) (fun j s' => ∃ I', s'.Holds D I' ∧ Opened I I' j no)
      (fun e => e = .noSlot ∧ ∀ j, 0 < (I j).ref) s := by
  obtain ⟨hat, hinv⟩ := h
  simp only [iget, wp_bind, wp_read, hat.inodes]
  split
  case h_1 j hj =>
    have hlive := List.find?_some hj
    simp only [decide_eq_true_eq] at hlive
    obtain ⟨href, rfl⟩ := hlive
    rw [wp_bind]
    refine (modInode_spec hat j _).imp ?_
    intro _ s₁ hat₁
    obtain ⟨hinv₁, hopen⟩ := hinv.dup (j := j) (by omega)
    exact ⟨_, ⟨hat₁, hinv₁⟩, hopen⟩
  case h_2 hnone =>
    have hfresh (k : InodePtr) (hk : 0 < (I k).ref) : (I k).no ≠ no := fun heq => by
      have := List.find?_eq_none.mp hnone k (List.mem_finRange k)
      simp only [decide_eq_true_eq] at this
      exact this ⟨by omega, heq⟩
    split
    case h_1 j hj =>
      have hzero := List.find?_some hj
      simp only [decide_eq_true_eq] at hzero
      rw [wp_bind]
      refine (modInode_spec hat j _).imp ?_
      intro _ s₁ hat₁
      rw [wp_bind]
      refine (diread_spec hat₁ no).imp ?_
      rintro d s₂ ⟨hat₂, rfl⟩
      rw [wp_bind]
      refine (modInode_spec hat₂ j _).imp ?_
      intro _ s₃ hat₃
      simp only [Function.update_self, Function.update_idem] at hat₃
      rw [wp_pure]
      refine ⟨_, ⟨hat₃, hinv.update j _ ?_ (fun _ => ⟨hno, rfl⟩) fun _ k _ hk => hfresh k hk⟩,
        by simp, by simp, fun hpos => by omega, fun _ => ⟨by simp, hfresh⟩, fun k hk => ?_⟩
      · simp [hzero]
      · simp [Function.update_of_ne hk]
    case h_2 hfull =>
      refine ⟨rfl, fun j => ?_⟩
      have hne := List.find?_eq_none.mp hfull j (List.mem_finRange j)
      simp only [decide_eq_true_eq] at hne
      exact lt_of_le_of_ne (hinv.ref j) (Ne.symm hne)

theorem idup_spec {fail : Abort → Prop} (h : s.Holds D I) (hi : 0 < (I i).ref) :
    wp (idup i) (fun j s' => j = i ∧ ∃ I', s'.Holds D I' ∧ Opened I I' i (I i).no) fail s := by
  obtain ⟨hat, hinv⟩ := h
  rw [idup, wp_bind]
  refine (modInode_spec hat i _).imp ?_
  intro _ s₁ hat₁
  obtain ⟨hinv₁, hopen⟩ := hinv.dup hi
  exact ⟨rfl, _, ⟨hat₁, hinv₁⟩, hopen⟩

/-- What `iclose` does to the disk when it frees inode `no`. -/
structure Removed (D D' : Mem) (no : ℕ) : Prop extends Trunc D D' no where
  gone : dinodeAt D' no = Dinode.zero

theorem Removed.obj_eq (h : Removed D D' no) (hno : no < 1920) : obj D' no = Obj.free := by
  unfold obj
  rw [h.toTrunc.fileByte hno, h.gone]
  rfl

/-- `iclose` drops a reference; the last reference of a removed inode frees it. -/
theorem iclose_spec {fail : Abort → Prop} (h : s.Holds D I) (hi : 0 < (I i).ref)
    (hno : (I i).no = no) :
    wp (iclose i) (fun _ s' => ∃ D' I', s'.Holds D' I' ∧ Closed I I' i ∧
      if (I i).ref = 1 ∧ (I i).del = true then Removed D D' no else D' = D) fail s := by
  subst hno
  obtain ⟨hat, hinv⟩ := h
  obtain ⟨hlt, hd⟩ := hinv.live i hi
  -- the slot at the end, whatever its record
  have hclosed (d : Dinode) :
      Closed I (Function.update I i { I i with ref := (I i).ref - 1, dinode := d }) i :=
    ⟨by simp, fun _ => by simp, fun k hk => by simp [Function.update_of_ne hk]⟩
  rw [iclose, wp_bind]
  refine (getInode_spec hat i).imp ?_
  rintro ip s₁ ⟨hat₁, rfl⟩
  split
  case isTrue hlast =>
    simp only [wp_bind]
    refine (itrunc_at hat₁ hinv.owned rfl hlt hd).imp ?_
    rintro - s₂ ⟨D₂, hat₂, hf⟩
    refine (diwrite_spec hat₂ _ _).imp ?_
    intro _ s₃ hat₃
    refine (modInode_spec hat₃ i _).imp ?_
    intro _ s₄ hat₄
    simp only [Function.update_self, Function.update_idem] at hat₄
    -- the record written last is the one that counts
    have htwice : setDinode (setDinode D₂ (I i).no (dinodeAt D (I i).no).cleared) (I i).no
        Dinode.zero = setDinode D₂ (I i).no Dinode.zero := Mem.splice_splice (by simp)
    rw [htwice] at hat₄
    have ht := hf.trunc hinv.owned hlt (d := Dinode.zero) rfl
    have hinv₄ := ht.fsInv hinv hi rfl dinodeAt_setDinode rfl fun no' _ hne => by
      rw [dinodeAt_setDinode_of_ne hne, hf.dinode_eq]
    have hzero : (I i).ref - 1 = 0 := by rw [hlast.1]; rfl
    have hdead : ¬ 0 < (I i).ref - 1 := by rw [hzero]; exact lt_irrefl 0
    refine ⟨_, _, ⟨hat₄, ?_⟩, hclosed _, ⟨ht, dinodeAt_setDinode⟩⟩
    have := hinv₄.update i { I i with ref := (I i).ref - 1, dinode := (dinodeAt D (I i).no).cleared }
      (by rw [hzero]) (fun hpos => (hdead hpos).elim) (fun hpos => (hdead hpos).elim)
    rwa [Function.update_idem] at this
  case isFalse hlast =>
    refine (modInode_spec hat₁ i _).imp ?_
    intro _ s₂ hat₂
    refine ⟨D, _, ⟨hat₂, hinv.update i _ (Int.sub_nonneg_of_le hi) (fun _ => ⟨hlt, hd⟩)
      fun _ k hk hpos heq => hk (hinv.uniq k i hpos hi heq)⟩, hclosed _, rfl⟩

/-! ### Allocating -/

/-- `dialloc` takes the first free inode. -/
theorem dialloc_spec (h : s.Holds D I) {type : UInt32} (htype : type ≠ TYPE_NONE)
    (hlive : ∀ j, 0 < (I j).ref → (obj D (I j).no).type ≠ TYPE_NONE) :
    wp (dialloc type) (fun no s' => ∃ D', s'.Holds D' I ∧ 1 ≤ no ∧ no < 1920 ∧
        (obj D no).type = TYPE_NONE ∧ (∀ m, 1 ≤ m → m < no → (obj D m).type ≠ TYPE_NONE) ∧
        (∀ no' < 1920, ∀ k, place D' no' k = place D no' k) ∧
        obj D' no = { obj D no with type := type } ∧
        ∀ no' < 1920, no' ≠ no → obj D' no' = obj D no')
      (fun e => e = .noInode ∧ ∀ m, 1 ≤ m → m < 1920 → (obj D m).type ≠ TYPE_NONE) s := by
  obtain ⟨hat, hinv⟩ := h
  simp only [dialloc, wp_bind, wp_read, hat.sb, layout]
  refine wp_scan (fun i s => s.At D I ∧ ∀ m, 1 ≤ m → m < i → (obj D m).type ≠ TYPE_NONE) _ _
    ⟨hat, by omega⟩ ?_ ?_
  · rintro r hr s ⟨hs, hbefore⟩
    rw [Nat.mul_one] at hbefore ⊢
    have hlt : 1 + r < 1920 := by omega
    rw [wp_bind]
    refine (diread_spec hs _).imp ?_
    rintro di s₁ ⟨hat₁, rfl⟩
    split
    case isTrue hfree =>
      rw [wp_bind]
      refine (diwrite_spec hat₁ _ _).imp ?_
      intro _ s₂ hat₂
      have hw := hinv.owned.metaWrite (d := { dinodeAt D (1 + r) with type := type }) hlt rfl
      rw [wp_pure]
      refine ⟨_, ⟨hat₂, hinv.owned.congr hw.bit hw.place, fun no' hno' => ?_, fun no' hno' h0 => ?_,
        hinv.ref, fun j hj => ?_, hinv.uniq⟩, by omega, hlt, hfree, hbefore, hw.place, hw.self,
        fun no' hno' hne => (hw.other no' hno' hne).obj⟩
      · by_cases hne : no' = 1 + r
        · rw [hne, hw.self]
          exact hinv.size _ hlt
        · rw [(hw.other no' hno' hne).obj]
          exact hinv.size no' hno'
      · by_cases hne : no' = 1 + r
        · rw [hne, hw.self] at h0
          exact (htype h0).elim
        · rw [(hw.other no' hno' hne).obj] at h0 ⊢
          exact hinv.free no' hno' h0
      · obtain ⟨hjno, hjd⟩ := hinv.live j hj
        have hne : (I j).no ≠ 1 + r := fun heq => hlive j hj (by rw [heq]; exact hfree)
        exact ⟨hjno, by rw [hw.dinodes _ hne, hjd]⟩
    case isFalse hused =>
      rw [wp_pure]
      refine ⟨hat₁, fun m hm hlt' => ?_⟩
      by_cases hmr : m = 1 + r
      · rw [hmr]
        exact hused
      · exact hbefore m hm (by omega)
  · rintro s ⟨-, hall⟩
    exact ⟨rfl, fun m hm hlt => hall m hm (by omega)⟩

end Oslab
