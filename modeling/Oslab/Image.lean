/-
# The image as the kernel finds it

The disk that the image builder writes meets the invariants of the file system
before anything is open: the only directory is the root, which names the files in
the order they were given, and no name leads anywhere else.
-/
import Oslab.MkfsSpec
import Oslab.FsOps
import Oslab.Tree

namespace Oslab

open Lib Lib.Prog

variable {files : List (CString × List UInt8)} {D : Mem} {I : InodePtr → Inode} {no d e t : ℕ}

theorem ns_objs : (ns D I).objs = objs D := rfl

theorem objs_root : objs D 1 = obj D 1 := objs_of_lt (by norm_num)

/-- No inode is open. -/
def Shut (I : InodePtr → Inode) : Prop := ∀ j, (I j).ref = 0

theorem Shut.not_live (h : Shut I) (j : InodePtr) : ¬ 0 < (I j).ref := by
  rw [h j]
  exact lt_irrefl 0

theorem Shut.live_eq (h : Shut I) : (ns D I).live = ∅ := by
  ext no
  constructor
  · intro hno
    obtain ⟨j, hj, -⟩ := hno
    exact h.not_live j hj
  · intro hno
    cases hno

theorem Shut.removed_eq (h : Shut I) : (ns D I).removed = ∅ := by
  ext no
  constructor
  · intro hno
    obtain ⟨j, hj, -⟩ := hno
    exact h.not_live j hj
  · intro hno
    cases hno

theorem Shut.vacant (h : Shut I) : (ns D I).Vacant := by
  intro d hd
  rw [h.removed_eq] at hd
  cases hd

/-- The files have names of their own, and none is named as a directory is. -/
structure Mkfs.Apart (files : List (CString × List UInt8)) : Prop where
  nodup : (files.map fun f => basename f.1.1).Nodup
  ne : ∀ f ∈ files, basename f.1.1 ≠ DOT ∧ basename f.1.1 ≠ DOTDOT ∧ basename f.1.1 ≠ [SLASH]

/-- The last part of a path is an element, unless the path is nothing but slashes. -/
theorem Mkfs.basename_elem (path : CString) (hlen : (basename path.1).length ≤ 27)
    (hne : basename path.1 ≠ [SLASH]) : Elem (basename path.1) := by
  refine ⟨?_, ?_, hlen, not_mem_basename path⟩
  · unfold basename
    split
    · decide
    · simp only
      split
      · decide
      · rename_i hrev
        have hhead := List.head?_dropWhile_not (· = SLASH) path.1.reverse
        cases hq : path.1.reverse.dropWhile (· = SLASH) with
        | nil => exact (hrev hq).elim
        | cons b q =>
          rw [hq] at hhead
          rw [List.takeWhile_cons_of_pos (by simpa using hhead)]
          simp
  · intro hmem
    unfold basename at hmem hne
    split at hmem
    · revert hmem
      decide
    · rename_i hpath
      rw [if_neg hpath] at hne
      simp only at hmem hne
      split at hmem
      · rename_i hrev
        rw [if_pos hrev] at hne
        exact hne rfl
      · rw [List.mem_reverse] at hmem
        simpa using List.mem_takeWhile_imp hmem

namespace Mkfs.Formatted

variable (h : Formatted files D)

include h

/-- An inode is the root, one of the files, or free. -/
theorem cases_inode (no : ℕ) : no = 1 ∨
    (∃ i, ∃ hi : i < files.length, no = i + 2 ∧ objs D no =
      ⟨TYPE_FILE, 0, (files.get ⟨i, hi⟩).2.length, Mem.ofList (files.get ⟨i, hi⟩).2⟩) ∨
    objs D no = Obj.free := by
  by_cases hlt : no < 1920
  · rw [objs_of_lt hlt]
    by_cases hone : no = 1
    · exact Or.inl hone
    · by_cases hfree : no = 0 ∨ files.length + 2 ≤ no
      · exact Or.inr (Or.inr (h.free no hlt hfree))
      · obtain ⟨i, rfl⟩ : ∃ i, no = i + 2 := ⟨no - 2, by omega⟩
        have hi : i < files.length := by omega
        exact Or.inr (Or.inl ⟨i, hi, rfl, h.file i hi⟩)
  · refine Or.inr (Or.inr ?_)
    rw [objs, if_neg hlt]

/-- The root is the only directory. -/
theorem dir_iff : (ns D I).Dir d ↔ d = 1 := by
  constructor
  · intro hd
    rcases h.cases_inode d with hone | ⟨i, hi, -, hobj⟩ | hfree
    · exact hone
    · rw [Ns.Dir, ns_objs, hobj] at hd
      cases hd
    · rw [Ns.Dir, ns_objs, hfree] at hd
      cases hd
  · rintro rfl
    rw [Ns.Dir, ns_objs, objs_root]
    exact h.type

theorem count_root : (obj D 1).count = files.length + 2 := by
  rw [Obj.count, h.count]
  omega

/-- The entries of the root name the files. -/
theorem named_iff : (ns D I).Named d e t ↔
    d = 1 ∧ t = e ∧ 2 ≤ e ∧ e < files.length + 2 := by
  have htarget (he : 2 ≤ e) (hlt : e < files.length + 2) : (obj D 1).target e = e := by
    obtain ⟨i, rfl⟩ : ∃ i, e = i + 2 := ⟨e - 2, by omega⟩
    exact (h.entry i (by omega)).inode
  constructor
  · intro hn
    obtain rfl := h.dir_iff.mp hn.dir
    have hlt := hn.lt
    have htar := hn.target
    rw [ns_objs, objs_root] at hlt htar
    rw [h.count_root] at hlt
    rw [htarget hn.two hlt] at htar
    exact ⟨rfl, htar.symm, hn.two, hlt⟩
  · rintro ⟨rfl, rfl, htwo, hlt⟩
    refine ⟨h.dir_iff.mpr rfl, htwo, ?_, ?_, by omega⟩
    · rw [ns_objs, objs_root, h.count_root]
      exact hlt
    · rw [ns_objs, objs_root]
      exact htarget htwo hlt

/-- **The image is in order** for the blocks and the inodes. -/
theorem fsInv (hI : Shut I) : FsInv D I where
  owned := h.owned
  size := h.size
  free no hno htype := by
    rcases h.cases_inode no with rfl | ⟨i, hi, -, hobj⟩ | hfree
    · rw [h.type] at htype
      cases htype
    · rw [objs_of_lt hno] at hobj
      rw [hobj] at htype
      cases htype
    · rw [objs_of_lt hno] at hfree
      rw [hfree]
      rfl
  ref j := (hI j).ge
  live j hj := (hI.not_live j hj).elim
  uniq i _ hi := (hI.not_live i hi).elim

theorem shape_root : Ns.Shape (obj D 1) 1 where
  dvd := ⟨files.length + 2, h.count⟩
  two := by
    rw [h.count_root]
    omega
  dot := h.dot.inode
  dotName := h.dot.label
  dotdotName := h.dotdot.label
  ends e he _ := by
    rw [h.count_root] at he
    match e, he with
    | 0, _ => exact h.dot.ends
    | 1, _ => exact h.dotdot.ends
    | i + 2, he => exact (h.entry i (by omega)).ends

theorem type_named (hn : (ns D I).Named d e t) : (objs D t).type = TYPE_FILE := by
  obtain ⟨-, rfl, htwo, hlt⟩ := h.named_iff.mp hn
  have hmany := h.many
  obtain ⟨i, rfl⟩ : ∃ i, t = i + 2 := ⟨t - 2, by omega⟩
  rw [objs_of_lt (by omega), h.file i (by omega)]

/-- **The image is in order** for the directories. -/
theorem inv (hI : Shut I) : (ns D I).Inv where
  root := h.dir_iff.mpr rfl
  zero := by
    rw [ns_objs, objs_of_lt (by norm_num), h.free 0 (by norm_num) (Or.inl rfl)]
    rfl
  out no hno := by
    rw [ns_objs, objs, if_neg (by omega)]
    rfl
  shape d hd := by
    obtain rfl := h.dir_iff.mp hd
    rw [ns_objs, objs_root]
    exact h.shape_root
  upRange d hd := by
    obtain rfl := h.dir_iff.mp hd
    have hup : (obj D 1).target 1 = 1 := h.dotdot.inode
    rw [Ns.up, ns_objs, objs_root, hup]
    norm_num
  upRoot := by
    have hup : (obj D 1).target 1 = 1 := h.dotdot.inode
    rw [Ns.up, ns_objs, objs_root, hup]
  named d e t hn := by
    obtain ⟨-, hte, htwo, -⟩ := h.named_iff.mp hn
    refine ⟨by omega, ?_, ?_⟩
    · rw [ns_objs, h.type_named hn]
      decide
    · rw [hI.removed_eq]
      simp
  uniq d e d' e' t hn hn' := by
    obtain ⟨rfl, rfl, -⟩ := h.named_iff.mp hn
    obtain ⟨rfl, rfl, -⟩ := h.named_iff.mp hn'
    exact ⟨rfl, rfl⟩
  parent d e t hn ht := by
    rw [Ns.Dir, ns_objs, h.type_named hn] at ht
    cases ht
  range no hno := by
    rw [hI.live_eq] at hno
    cases hno
  sub := by
    rw [hI.removed_eq]
    exact Set.empty_subset _
  kept no hno := by
    rw [hI.removed_eq] at hno
    cases hno

/-! ### More about the image -/

theorem linked : (ns D I).Linked := by
  intro no hno
  rcases h.cases_inode no with rfl | ⟨i, hi, rfl, -⟩ | hfree
  · exact Or.inl rfl
  · exact Or.inr (Or.inr ⟨1, i + 2, h.named_iff.mpr ⟨rfl, rfl, by omega, by omega⟩⟩)
  · rw [ns_objs, hfree] at hno
    exact (hno rfl).elim

theorem rooted : (ns D I).Rooted := by
  intro no hno
  rcases h.cases_inode no with rfl | ⟨i, hi, rfl, -⟩ | hfree
  · exact Or.inl rfl
  · exact Or.inr (Or.inr ⟨1, i + 2, [], .root, h.named_iff.mpr ⟨rfl, rfl, by omega, by omega⟩⟩)
  · rw [ns_objs, hfree] at hno
    exact (hno rfl).elim

theorem upright (hI : Shut I) : (ns D I).Upright := by
  have hup : (ns D I).up 1 = 1 := (h.inv hI).upRoot
  have hnone (d : ℕ) : d ∉ (ns D I).removed := by
    rw [hI.removed_eq]
    exact Set.notMem_empty d
  refine ⟨fun d hd => Or.inl (h.dir_iff.mp hd), fun d hd => (hnone d hd).elim, fun d hd => ?_,
    fun d _ => hnone _⟩
  obtain rfl := h.dir_iff.mp hd
  rw [hup]
  exact h.dir_iff.mpr rfl

/-- The names in the root. -/
theorem label_eq (i : ℕ) (hi : i < files.length) :
    (obj D 1).label (i + 2) = basename (files.get ⟨i, hi⟩).1.1 := (h.entry i hi).label

theorem distinct (hapart : Apart files) : (ns D I).Distinct := by
  intro d hd e he e' he' _ _ heq
  obtain rfl := h.dir_iff.mp hd
  rw [ns_objs, objs_root, h.count_root] at he he'
  rw [ns_objs, objs_root] at heq
  have hne (i : ℕ) (hi : i < files.length) := hapart.ne _ (List.get_mem files ⟨i, hi⟩)
  have hdot : (obj D 1).label 0 = DOT := h.dot.label
  have hdotdot : (obj D 1).label 1 = DOTDOT := h.dotdot.label
  -- the first two entries carry names no file has
  have hfirst {a b : ℕ} (ha : a < 2) (hb : b < files.length + 2)
      (hab : (obj D 1).label a = (obj D 1).label b) : a = b := by
    match a, b, ha, hb, hab with
    | 0, 0, _, _, _ => rfl
    | 1, 1, _, _, _ => rfl
    | 0, 1, _, _, hab =>
      rw [hdot, hdotdot] at hab
      cases hab
    | 1, 0, _, _, hab =>
      rw [hdot, hdotdot] at hab
      cases hab
    | 0, i + 2, _, hb, hab =>
      rw [hdot, h.label_eq i (by omega)] at hab
      exact ((hne i (by omega)).1 hab.symm).elim
    | 1, i + 2, _, hb, hab =>
      rw [hdotdot, h.label_eq i (by omega)] at hab
      exact ((hne i (by omega)).2.1 hab.symm).elim
  by_cases hlt : e < 2
  · exact hfirst hlt he' heq
  by_cases hlt' : e' < 2
  · exact (hfirst hlt' he heq.symm).symm
  obtain ⟨i, rfl⟩ : ∃ i, e = i + 2 := ⟨e - 2, by omega⟩
  obtain ⟨i', rfl⟩ : ∃ i', e' = i' + 2 := ⟨e' - 2, by omega⟩
  have hi : i < files.length := by omega
  have hi' : i' < files.length := by omega
  rw [h.label_eq i hi, h.label_eq i' hi'] at heq
  have hinj := (List.nodup_iff_injective_get.mp hapart.nodup)
  have hmap (k : ℕ) (hk : k < files.length) :
      (files.map fun f => basename f.1.1).get ⟨k, by simpa using hk⟩ =
        basename (files.get ⟨k, hk⟩).1.1 := by simp
  have hsame := hinj ((hmap i hi).trans (heq.trans (hmap i' hi').symm))
  rw [Fin.mk.injEq] at hsame
  rw [hsame]

theorem spelled (hapart : Apart files) : (ns D I).Spelled := by
  intro d e t hn
  obtain ⟨rfl, rfl, htwo, hlt⟩ := h.named_iff.mp hn
  obtain ⟨i, rfl⟩ : ∃ i, t = i + 2 := ⟨t - 2, by omega⟩
  have hi : i < files.length := by omega
  rw [ns_objs, objs_root, h.label_eq i hi]
  refine basename_elem _ ?_ (hapart.ne _ (List.get_mem files ⟨i, hi⟩)).2.2
  have hlen := cstr_length_lt (h.entry i hi).ends
  rw [(h.entry i hi).label, (h.entry i hi).length] at hlen
  omega

end Mkfs.Formatted

end Oslab
