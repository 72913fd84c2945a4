/-
# Paths

`iopen_parent`, `iopen` and `iremove` walk through the directories as `walk`
does on their objects, with one slot in hand at a time. What each of them does
in the end is a short run of effects.
-/
import Oslab.Effect

namespace Oslab

open Lib Lib.Prog

variable {s : Fs} {D D' D'' : Mem} {I₀ I I' I'' I₃ : InodePtr → Inode} {c i j k : InodePtr}
  {no d cwd : ℕ} {name path : List UInt8} {type : UInt32}

/-! ### What a walk needs -/

/-- Directories consist of entries, and these name inodes on the disk. -/
def Dirs (objs : ℕ → Obj) : Prop := ∀ d, (objs d).type = TYPE_DIR →
  32 ∣ (objs d).size ∧ ∀ e < (objs d).count, (objs d).target e < 1920

theorem Ns.Inv.dirs {s : Ns} (h : s.Inv) : Dirs s.objs := by
  intro d hd
  refine ⟨(h.shape d hd).dvd, fun e he => ?_⟩
  rcases (show e = 0 ∨ e = 1 ∨ 2 ≤ e by omega) with rfl | rfl | htwo
  · rw [(h.shape d hd).dot]
    exact (h.lt (by rw [hd]; decide)).2
  · exact (h.upRange d hd).2
  · by_cases hz : (s.objs d).target e = 0
    · omega
    · exact (h.lt (h.named d e _ ⟨hd, htwo, he, rfl, hz⟩).2.1).2

theorem DirAbort.of_kept (D' : Mem) {n : ℕ} {e : Abort} (h : DirAbort D' I n e)
    (hobj : ∀ no < 1920, obj D' no = obj D no) (hs : Small D → D' = D) : DirAbort D I n e := by
  rcases h with ⟨rfl, hsmall⟩ | ⟨rfl, d, hd, hbig⟩ | ⟨rfl, hall⟩ | hslot
  · refine Or.inl ⟨rfl, fun h => hsmall ?_⟩
    rw [hs h]
    exact h
  · exact Or.inr (Or.inl ⟨rfl, d, hd, by rw [← hobj d hd]; exact hbig⟩)
  · exact Or.inr (Or.inr (Or.inl ⟨rfl, fun m hm hm' => by rw [← hobj m hm']; exact hall m hm hm'⟩))
  · exact Or.inr (Or.inr (Or.inr hslot))

theorem DirAbort.opened {n : ℕ} {e : Abort} (h : DirAbort D I n e) (ho : Opened I₀ I j no) :
    DirAbort D I₀ (n + 1) e := by
  have := ho.liveCount_le
  rcases h with h | h | h | ⟨rfl, hfull⟩
  · exact Or.inl h
  · exact Or.inr (Or.inl h)
  · exact Or.inr (Or.inr (Or.inl h))
  · exact Or.inr (Or.inr (Or.inr ⟨rfl, by omega⟩))

theorem DirAbort.le {n m : ℕ} {e : Abort} (h : DirAbort D I n e) (hle : n ≤ m) :
    DirAbort D I m e := by
  rcases h with h | h | h | ⟨rfl, hfull⟩
  · exact Or.inl h
  · exact Or.inr (Or.inl h)
  · exact Or.inr (Or.inr (Or.inl h))
  · exact Or.inr (Or.inr (Or.inr ⟨rfl, by omega⟩))

theorem Opened.pos (h : Opened I I' j no) (href : 0 ≤ (I j).ref) : 0 < (I' j).ref := by
  rw [h.ref]
  omega

/-- Of two slots opened the first can be closed. -/
theorem Opened.not_last_next (h : Opened I I' j no) (h' : Opened I' I'' k d)
    (href : 0 ≤ (I j).ref) : ¬ ((I'' j).ref = 1 ∧ (I'' j).del = true) := by
  by_cases hjk : j = k
  · subst hjk
    have := h.ref
    have := h'.ref
    omega
  · obtain ⟨hr, hs⟩ := h'.others j hjk
    rw [hr, (hs (h.pos href)).2]
    exact h.not_last

/-- Two slots were opened; the second was free before if nobody held its inode. -/
theorem Opened.ref_one_iff (h : Opened I I' j no) (h' : Opened I' I'' k d) (hne : no ≠ d)
    (hj : 0 < (I' j).ref) (href : 0 ≤ (I k).ref) : (I'' k).ref = 1 ↔ d ∉ (ns D I).live := by
  have hkj : k ≠ j := by
    rintro rfl
    exact hne (h.ino.symm.trans (h'.old hj).1)
  obtain ⟨hrk, hsk⟩ := h.others k hkj
  rw [h'.ref, hrk]
  constructor
  · rintro hone ⟨p, hp, hpd⟩
    have hnew := (h'.new (by omega)).2
    by_cases hpj : p = j
    · subst hpj
      exact hne ((h.old hp).1.symm.trans hpd)
    · obtain ⟨hr, hs⟩ := h.others p hpj
      exact hnew p (by rw [hr]; exact hp) ((hs hp).1.trans hpd)
  · intro hlive
    by_contra hmany
    have hpos : 0 < (I k).ref := by omega
    exact hlive ⟨k, hpos, (hsk hpos).1.symm.trans (h'.old (by rw [hrk]; exact hpos)).1⟩

/-- Closing a slot whose inode stays. -/
theorem iclose_kept_spec {fail : Abort → Prop} (h : s.Holds D I) (hi : 0 < (I i).ref)
    (hlast : ¬ ((I i).ref = 1 ∧ (I i).del = true)) :
    wp (iclose i) (fun _ s' => ∃ I', s'.Holds D I' ∧ Closed I I' i) fail s := by
  refine (iclose_spec h hi rfl).imp ?_
  rintro - s' ⟨D', I', hh, hc, heq⟩
  rw [if_neg hlast] at heq
  subst heq
  exact ⟨I', hh, hc⟩

/-! ### The directory of the last element -/

/-- Where a walk ends: nowhere, or at a directory, held, and a name. -/
def Walked (I₀ I' : InodePtr → Inode) (r : Option (InodePtr × List UInt8)) :
    Option (ℕ × List UInt8) → Prop
  | none => r = none ∧ SameSlots I₀ I'
  | some (d, name) => ∃ j, r = some (j, name) ∧ Opened I₀ I' j d

theorem iopenParentLoop_spec (fuel : ℕ) (h : s.Holds D I) (hdirs : Dirs (objs D))
    (ho : Opened I₀ I i no) (href : ∀ j, 0 ≤ (I₀ j).ref) (h0 : (0 : UInt8) ∉ path) :
    wp (iopenParentLoop fuel i path) (fun r s' => ∃ D' I', s'.Holds D' I' ∧
        (∀ no < 1920, Kept D D' no) ∧ (Small D → D' = D) ∧
        Walked I₀ I' r (walk (objs D) fuel no path)) (DirAbort D I₀ 1) s := by
  -- the walk ends here, and the slot in hand is given back
  have hend {s : Fs} {D' : Mem} {I' : InodePtr → Inode} {i : InodePtr} {no : ℕ}
      (h : s.Holds D' I') (ho : Opened I₀ I' i no) (D : Mem) (hk : ∀ no < 1920, Kept D D' no)
      (hs : Small D → D' = D) :
      wp (do iclose i; pure (none : Option (InodePtr × List UInt8))) (fun r s' => ∃ D' I',
        s'.Holds D' I' ∧ (∀ no < 1920, Kept D D' no) ∧ (Small D → D' = D) ∧
        Walked I₀ I' r none) (DirAbort D I₀ 1) s := by
    rw [wp_bind]
    refine (iclose_kept_spec h (ho.pos (href i)) ho.not_last).imp ?_
    rintro - s' ⟨I'', hh, hc⟩
    rw [wp_pure]
    exact ⟨D', I'', hh, hk, hs, rfl, ho.close hc⟩
  induction fuel generalizing s D I i no path with
  | zero => exact hend h ho D (fun no _ => .refl D no) fun _ => rfl
  | succ fuel ih =>
    rw [iopenParentLoop, walk]
    cases hskip : skipelem path with
    | none => exact hend h ho D (fun no _ => .refl D no) fun _ => rfl
    | some q =>
      obtain ⟨rest, name⟩ := q
      have hpos := ho.pos (href i)
      have hlt : no < 1920 := ho.ino ▸ (h.2.live i hpos).1
      obtain ⟨helem, hrest0, -⟩ := skipelem_some hskip h0
      have htype : (s.inodes i).dinode.type = (objs D no).type := by
        rw [h.1.inodes, (h.2.live i hpos).2, ho.ino, objs_of_lt hlt]
        rfl
      simp only [wp_bind, itype, wp_read, htype]
      by_cases hdir : (objs D no).type = TYPE_DIR
      case neg =>
        simp only [hdir, ne_eq, not_false_eq_true, if_true]
        exact hend h ho D (fun no _ => .refl D no) fun _ => rfl
      simp only [hdir, ne_eq, not_true_eq_false, if_false]
      by_cases hrest : rest = []
      · simp only [hrest, if_true]
        rw [wp_pure]
        exact ⟨D, I, h, fun no _ => .refl D no, fun _ => rfl, i, rfl, ho⟩
      simp only [hrest, if_false, wp_bind]
      obtain ⟨hdvd, htarget⟩ := hdirs no hdir
      rw [objs_of_lt hlt] at hdir hdvd htarget ⊢
      refine (ilookup_spec h hpos ho.ino hdir hdvd helem.length helem.zero htarget
        (fun hne => (hne rfl).elim)).mono ?_ fun e he => he.opened ho
      rintro r s₁ ⟨D₁, I₁, hh₁, hr⟩
      unfold Looked at hr
      cases hfind : (obj D no).find name with
      | none =>
        rw [hfind] at hr
        obtain ⟨rfl, hg, hs⟩ := hr
        exact hend hh₁ (ho.trans_same hg.slots (href i)) D hg.kept hs
      | some e =>
        rw [hfind] at hr
        obtain ⟨k, rfl, hok, hk, hs⟩ := hr
        have hpos₁ : 0 < (I₁ i).ref := by
          by_cases hik : i = k
          · rw [hik] at hpos ⊢
            have := hok.ref
            omega
          · rw [(hok.others i hik).1]
            exact hpos
        simp only [wp_bind]
        refine (iclose_kept_spec hh₁ hpos₁ (ho.not_last_next hok (href i))).imp ?_
        rintro - s₂ ⟨I₂, hh₂, hc⟩
        have hobjs : objs D₁ = objs D := objs_congr fun no hno => (hk no hno).obj
        refine (ih hh₂ (by rw [hobjs]; exact hdirs) (ho.next hok hc (href i) (href k))
          hrest0).mono ?_ ?_
        · rintro r s₃ ⟨D₃, I₃, hh₃, hk₃, hs₃, hw⟩
          rw [hobjs] at hw
          exact ⟨D₃, I₃, hh₃, fun no hno => (hk no hno).trans (hk₃ no hno), fun h => by
            have := hs h
            subst this
            exact hs₃ h, hw⟩
        · exact fun e he => he.of_kept _ (fun no hno => (hk no hno).obj) hs

/-- A walk ends at a directory, with an element of the path. -/
theorem walk_some {objs : ℕ → Obj} {fuel : ℕ} (h : walk objs fuel no path = some (d, name))
    (h0 : (0 : UInt8) ∉ path) : (objs d).type = TYPE_DIR ∧ Elem name := by
  induction fuel generalizing no path with
  | zero => cases h
  | succ fuel ih =>
    rw [walk] at h
    split at h
    case h_1 => cases h
    case h_2 rest name' hskip =>
      obtain ⟨helem, hrest0, -⟩ := skipelem_some hskip h0
      split at h
      case isTrue => cases h
      case isFalse hdir =>
        split at h
        case isTrue =>
          cases h
          exact ⟨not_not.mp hdir, helem⟩
        case isFalse =>
          split at h
          case h_1 => cases h
          case h_2 => exact ih h hrest0

theorem resolveParent_some {objs : ℕ → Obj} (h : resolveParent objs cwd path = some (d, name))
    (h0 : (0 : UInt8) ∉ path) : (objs d).type = TYPE_DIR ∧ Elem name := walk_some h h0

theorem iopen_parent_spec (h : s.Holds D I) (hdirs : Dirs (objs D)) (hc : 0 < (I c).ref)
    (hcwd : (I c).no = cwd) (h0 : (0 : UInt8) ∉ path) :
    wp (iopen_parent (some c) path) (fun r s' => ∃ D' I', s'.Holds D' I' ∧
        (∀ no < 1920, Kept D D' no) ∧ (Small D → D' = D) ∧
        Walked I I' r (resolveParent (objs D) cwd path)) (DirAbort D I 1) s := by
  simp only [iopen_parent, wp_bind, wp_read, h.1.sb, layout, resolveParent]
  by_cases hroot : path.head? = some SLASH
  · simp only [hroot, if_true, wp_bind]
    refine (iget_spec h (by norm_num)).mono ?_ ?_
    · rintro i s₁ ⟨I₁, hh₁, ho⟩
      exact iopenParentLoop_spec _ hh₁ hdirs ho h.2.ref h0
    · rintro e ⟨rfl, hfull⟩
      exact Or.inr (Or.inr (Or.inr ⟨rfl, by rw [liveCount_of_full hfull]; omega⟩))
  · simp only [hroot, if_false, wp_bind]
    refine (idup_spec h hc).imp ?_
    rintro i s₁ ⟨rfl, I₁, hh₁, ho⟩
    rw [hcwd] at ho
    exact iopenParentLoop_spec _ hh₁ hdirs ho h.2.ref h0

/-! ### Opening -/

/-- What is made in a directory opened and closed for it. -/
theorem Created.of_opened (h : Created D' I' D'' I'' d name type k no) (ho : Opened I I' j d)
    (hc : Closed I'' I₃ j) (hk : ∀ no < 1920, Kept D D' no) (hs : Small D → D' = D)
    (href : ∀ j, 0 ≤ (I j).ref) (hd : d < 1920) : Created D I D'' I₃ d name type k no := by
  have hobj (no : ℕ) (hno : no < 1920) : obj D' no = obj D no := (hk no hno).obj
  have hkj : k ≠ j := by
    rintro rfl
    have := h.fresh
    have := ho.pos (href k)
    omega
  refine ⟨ho.next h.opened hc (href j) (href k), ?_, h.pos, h.lt, ?_, fun m hm hm' => ?_, ?_, ?_,
    fun no' hno' hne hne' => ?_, fun no' hno' k' hne => ?_, fun hsmall hroom => ?_⟩
  · rw [← (ho.others k hkj).1]
    exact h.fresh
  · rw [← hobj no h.lt]
    exact h.free
  · have hlt := h.lt
    rw [← hobj m (by omega)]
    exact h.first m hm hm'
  · rw [← hobj d hd]
    exact h.parent
  · rw [← hobj no h.lt]
    exact h.child
  · rw [h.other no' hno' hne hne', hobj no' hno']
  · have hsame := (hk no' hno').place k' hne
    rw [h.place no' hno' k' (by rw [hsame]; exact hne), hsame]
  · obtain rfl := hs hsmall
    exact h.small hsmall hroom

/-- What `iopen` returns and does. -/
def Iopened (D : Mem) (I : InodePtr → Inode) (D' : Mem) (I' : InodePtr → Inode) (cwd : ℕ)
    (path : List UInt8) (type : UInt32) (r : Option InodePtr) : Prop :=
  match resolve (objs D) cwd path with
  | some no => ∃ j, r = some j ∧ 1 ≤ no ∧ no < 1920 ∧ Opened I I' j no ∧
      (∀ no < 1920, Kept D D' no) ∧ (Small D → D' = D)
  | none =>
    match resolveParent (objs D) cwd path with
    | some (d, name) =>
      if type = TYPE_NONE then r = none ∧ Grow D I D' I' ∧ (Small D → D' = D)
      else ∃ j no, r = some j ∧ d < 1920 ∧ (obj D d).type = TYPE_DIR ∧ Elem name ∧
        (obj D d).find name = none ∧ Created D I D' I' d name type j no
    | none => r = none ∧ Grow D I D' I' ∧ (Small D → D' = D)

theorem iopen_spec (h : s.Holds D I) (hns : (ns D I).Inv) (hc : 0 < (I c).ref)
    (hcwd : (I c).no = cwd) (h0 : (0 : UInt8) ∉ path)
    (hlive : type ≠ TYPE_NONE → ∀ j, 0 < (I j).ref → (obj D (I j).no).type ≠ TYPE_NONE) :
    wp (iopen (some c) path type) (fun r s' => ∃ D' I', s'.Holds D' I' ∧
      Iopened D I D' I' cwd path type r) (DirAbort D I 1) s := by
  have hdirs : Dirs (objs D) := hns.dirs
  unfold Iopened
  rw [iopen]
  -- a path without names is the root or nothing
  by_cases hskip : skipelem path = none
  · have hparent : resolveParent (objs D) cwd path = none := by rw [resolveParent, walk, hskip]
    simp only [hskip, if_true, hparent, resolve]
    by_cases hroot : path.head? = some SLASH
    · simp only [hroot, if_true, wp_bind, wp_read, wp_map, h.1.sb, layout]
      refine (iget_spec h (by norm_num)).mono ?_ ?_
      · rintro i s₁ ⟨I₁, hh₁, ho⟩
        exact ⟨D, I₁, hh₁, i, rfl, le_rfl, by norm_num, ho, fun no _ => .refl D no, fun _ => rfl⟩
      · rintro e ⟨rfl, hfull⟩
        exact Or.inr (Or.inr (Or.inr ⟨rfl, by rw [liveCount_of_full hfull]; omega⟩))
    · simp only [hroot, if_false]
      rw [wp_pure]
      exact ⟨D, I, h, rfl, .refl D I, fun _ => rfl⟩
  have hres : resolve (objs D) cwd path = match resolveParent (objs D) cwd path with
      | none => none
      | some (d, name) => ((objs D d).find name).map (objs D d).target := by
    unfold resolve
    exact if_neg hskip
  simp only [hskip, if_false, wp_bind]
  refine (iopen_parent_spec h hdirs hc hcwd h0).imp ?_
  rintro r s₁ ⟨D₁, I₁, hh₁, hk₁, hs₁, hw⟩
  cases hparent : resolveParent (objs D) cwd path with
  | none =>
    rw [hparent] at hw
    obtain ⟨rfl, hslots⟩ := hw
    rw [hparent] at hres
    simp only [hres, wp_pure, true_and]
    exact ⟨D₁, I₁, hh₁, ⟨hslots, hk₁⟩, hs₁⟩
  | some q =>
    obtain ⟨d, name⟩ := q
    rw [hparent] at hw
    obtain ⟨j, rfl, ho⟩ := hw
    obtain ⟨hdir, helem⟩ := resolveParent_some hparent h0
    have hpos := ho.pos (h.2.ref j)
    have hlt : d < 1920 := ho.ino ▸ (hh₁.2.live j hpos).1
    have hobj (no : ℕ) (hno : no < 1920) : obj D₁ no = obj D no := (hk₁ no hno).obj
    obtain ⟨hdvd, htarget⟩ := hdirs d hdir
    rw [hparent] at hres
    simp only [objs_of_lt hlt] at hdir hdvd htarget hres
    simp only [hres, wp_bind]
    -- opening the directory leaves every slot in use with an object
    have hlive₁ (hne : type ≠ TYPE_NONE) (p : InodePtr) (hp : 0 < (I₁ p).ref) :
        (obj D₁ (I₁ p).no).type ≠ TYPE_NONE := by
      rw [hobj _ (hh₁.2.live p hp).1]
      by_cases hpj : p = j
      · rw [hpj, ho.ino, hdir]
        decide
      · obtain ⟨hr, hs⟩ := ho.others p hpj
        rw [hr] at hp
        rw [(hs hp).1]
        exact hlive hne p hp
    refine (ilookup_spec hh₁ hpos ho.ino (by rw [hobj d hlt, hdir]) (by rw [hobj d hlt]; exact hdvd)
      helem.length helem.zero (by rw [hobj d hlt]; exact htarget) hlive₁).mono ?_
      fun e he => (he.of_kept _ hobj hs₁).opened ho
    rintro r s₂ ⟨D₂, I₂, hh₂, hr⟩
    unfold Looked at hr
    rw [hobj d hlt] at hr
    -- the name is found, or it is not and may be made
    cases hfind : (obj D d).find name with
    | some e =>
      rw [hfind] at hr
      obtain ⟨k, rfl, hok, hk₂, hs₂⟩ := hr
      have hpos₂ : 0 < (I₂ j).ref := by
        have := ho.not_last_next hok (h.2.ref j)
        by_cases hjk : j = k
        · rw [hjk] at hpos ⊢
          have := hok.ref
          omega
        · rw [(hok.others j hjk).1]
          exact hpos
      refine (iclose_kept_spec hh₂ hpos₂ (ho.not_last_next hok (h.2.ref j))).imp ?_
      rintro - s₃ ⟨I₃, hh₃, hc₃⟩
      rw [wp_pure]
      obtain ⟨he, hz, -⟩ := Obj.find_eq_some hfind
      exact ⟨D₂, I₃, hh₃, k, rfl, by omega, htarget e he, ho.next hok hc₃ (h.2.ref j) (h.2.ref k),
        fun no hno => (hk₁ no hno).trans (hk₂ no hno), fun hsmall => by
          have := hs₁ hsmall
          subst this
          exact hs₂ hsmall⟩
    | none =>
      rw [hfind] at hr
      simp only [Option.map_none]
      by_cases hnone : type = TYPE_NONE
      · rw [if_pos hnone] at hr
        simp only [if_pos hnone]
        obtain ⟨rfl, hg₂, hs₂⟩ := hr
        have ho₂ := ho.trans_same hg₂.slots (h.2.ref j)
        refine (iclose_kept_spec hh₂ (ho₂.pos (h.2.ref j)) ho₂.not_last).imp ?_
        rintro - s₃ ⟨I₃, hh₃, hc₃⟩
        rw [wp_pure]
        exact ⟨D₂, I₃, hh₃, rfl, ⟨ho₂.close hc₃, fun no hno => (hk₁ no hno).trans
          (hg₂.kept no hno)⟩, fun hsmall => by
            have := hs₁ hsmall
            subst this
            exact hs₂ hsmall⟩
      · rw [if_neg hnone] at hr
        simp only [if_neg hnone, true_and]
        obtain ⟨k, no, rfl, hcr⟩ := hr
        have hjk : j ≠ k := by
          rintro rfl
          have := hcr.fresh
          omega
        have hpos₂ : 0 < (I₂ j).ref := by
          rw [(hcr.opened.others j hjk).1]
          exact hpos
        refine (iclose_kept_spec hh₂ hpos₂ (ho.not_last_next hcr.opened (h.2.ref j))).imp ?_
        rintro - s₃ ⟨I₃, hh₃, hc₃⟩
        rw [wp_pure]
        exact ⟨D₂, I₃, hh₃, k, no, rfl, hlt, hdir, helem,
          hcr.of_opened ho hc₃ hk₁ hs₁ h.2.ref hlt⟩

/-! ### Removing -/

theorem Ns.Named.congr {s s' : Ns} {e t : ℕ} (h : s.Named d e t) (hobjs : s'.objs = s.objs) :
    s'.Named d e t := by
  obtain ⟨hdir, htwo, hlt, htarget, hne⟩ := h
  refine ⟨?_, htwo, ?_, ?_, hne⟩
  · rw [Ns.Dir, hobjs]
    exact hdir
  · rw [hobjs]
    exact hlt
  · rw [hobjs]
    exact htarget

theorem Ns.Empty.congr {s s' : Ns} (h : s.Empty d) (hobjs : s'.objs = s.objs) : s'.Empty d := by
  unfold Ns.Empty
  rw [hobjs]
  exact h

/-- A name other than `.` and `..` is found after the first two entries. -/
theorem Ns.Inv.named_of_find {s : Ns} (h : s.Inv) (hd : s.Dir d) {e : ℕ}
    (hfind : (s.objs d).find name = some e) (hdot : name ≠ DOT) (hdotdot : name ≠ DOTDOT) :
    s.Named d e ((s.objs d).target e) := by
  obtain ⟨hlt, hz, hlabel, -⟩ := Obj.find_eq_some hfind
  refine ⟨hd, ?_, hlt, rfl, hz⟩
  by_contra hlow
  have hcases : e = 0 ∨ e = 1 := by omega
  rcases hcases with rfl | rfl
  · exact hdot (hlabel.symm.trans (h.shape d hd).dotName)
  · exact hdotdot (hlabel.symm.trans (h.shape d hd).dotdotName)

/-- `idirempty` finds out whether a directory is empty. -/
theorem idirempty_spec (h : s.Holds D I) (hns : (ns D I).Inv) (hi : 0 < (I i).ref)
    (hno : (I i).no = no) (hdir : (obj D no).type = TYPE_DIR) :
    wp (idirempty i) (fun b s' => ∃ D' I', s'.Holds D' I' ∧ Grow D I D' I' ∧
      (Small D → D' = D) ∧ (b = true ↔ (ns D I).Empty no)) (DirAbort D I 0) s := by
  have hlt : no < 1920 := hno ▸ (h.2.live i hi).1
  have hdi : (I i).dinode = dinodeAt D no := hno ▸ (h.2.live i hi).2
  have hshape := hns.shape no ((dir_ns hlt).mpr hdir)
  rw [objs_ns hlt] at hshape
  obtain ⟨m, hm⟩ := hshape.dvd
  have htwo := hshape.two
  have hcount : (obj D no).count = m := by
    rw [Obj.count, hm]
    omega
  have hsize : (obj D no).size = 32 * (2 + (m - 2)) := by omega
  have hsz : (I i).dinode.size.toNat = (obj D no).size := by
    rw [hdi]
    rfl
  have htype : (I i).dinode.type = TYPE_DIR := by
    rw [hdi]
    exact hdir
  rw [idirempty, wp_bind]
  refine (getInode_spec h.1 i).imp ?_
  rintro ip s₁ ⟨hat₁, rfl⟩
  simp only [wp_bind, wp_assert, htype, wp_read, forall_const, not_true_eq_false, false_imp_iff,
    and_true, hsz]
  refine (idiremptyLoop_spec (m - 2) ⟨hat₁, h.2⟩ hi hno hsize (e := 2) ?_).mono ?_ ?_
  · change m - 2 < (obj D no).size / 32 + 1
    omega
  · rintro b s₂ ⟨D₂, I₂, hh₂, hg₂, hsame₂, hb⟩
    refine ⟨D₂, I₂, hh₂, hg₂, small_same (hsize ▸ hsame₂) hlt hdir, hb.trans ?_⟩
    unfold Ns.Empty
    rw [objs_ns hlt, hcount, show 2 + (m - 2) = m by omega]
  · exact fun e he => he.dir hlt hdir hsize.ge

/-- An entry is cleared, what it named is marked, and both slots are given back. -/
theorem clearEntry_spec {e t : ℕ} (h : s.Holds D I) (hns : (ns D I).Inv) (hj : 0 < (I j).ref)
    (hd : (I j).no = d) (hk : 0 < (I k).ref) (ht : (I k).no = t) (hn : (ns D I).Named d e t)
    (hempty : (ns D I).Dir t → (ns D I).Empty t) (hlast : ¬ ((I j).ref = 1 ∧ (I j).del = true)) :
    wp (do
        let _ ← iwrite j (32 * e) Dirent.zero.bytes
        modInode k fun ip => { ip with del := true }
        iclose j
        iclose k
        pure (0 : ℤ))
      (fun r s' => r = 0 ∧ ∃ D' I', s'.Holds D' I' ∧
        Effects (D, I) [.unlinked d e t k, .closed j d, .closed k t] (D', I') ∧
        obj D' d = (obj D d).put e .zero ∧
        (∀ no < 1920, no ≠ d → no ≠ t → obj D' no = obj D no) ∧
        (if (I k).ref = 1 then obj D' t = Obj.free else obj D' t = obj D t))
      (DirAbort D I 0) s := by
  have hlt : d < 1920 := hd ▸ (h.2.live j hj).1
  have hltt : t < 1920 := ht ▸ (h.2.live k hk).1
  have hdt : d ≠ t := by
    rintro rfl
    exact Ns.not_empty hn (hempty hn.dir)
  have hjk : j ≠ k := by
    rintro rfl
    exact hdt (hd.symm.trans ht)
  have hdir : (obj D d).type = TYPE_DIR := (dir_ns hlt).mp hn.dir
  have hdvd := (hns.shape d hn.dir).dvd
  have he := hn.lt
  rw [objs_ns hlt] at hdvd he
  have hroom : 32 * e + 32 ≤ (obj D d).size := by
    rw [Obj.count] at he
    omega
  have hlen : Dirent.zero.bytes.length = 32 := Dirent.length_bytes (by simp [Dirent.zero])
  rw [wp_bind]
  refine (iwrite_spec h hj hd (by rw [hdir]; decide) (32 * e) Dirent.zero.bytes).mono ?_ ?_
  · rintro r s₁ (⟨-, hbig, -⟩ | ⟨-, -, D₁, I₁, hh₁, ht₁, -, -, hobj₁, -⟩)
    · omega
    have hput : obj D₁ d = (obj D d).put e .zero := by
      rw [hobj₁, hlen]
      rfl
    -- the mark
    rw [wp_bind]
    refine (modInode_spec hh₁.1 k _).imp ?_
    rintro - s₂ hat₂
    have hk₁ : 0 < (I₁ k).ref := ht₁.slots.live.mpr hk
    have hinv₂ : FsInv D₁ (Function.update I₁ k { I₁ k with del := true }) :=
      hh₁.2.update k _ (hh₁.2.ref k) (fun _ => hh₁.2.live k hk₁)
        fun _ p hp hpos heq => hp (hh₁.2.uniq p k hpos hk₁ heq)
    have hmark : Marked I (Function.update I₁ k { I₁ k with del := true }) k := by
      intro p
      obtain ⟨hr, hs⟩ := ht₁.slots p
      by_cases hpk : p = k
      · rw [hpk, Function.update_self]
        rw [hpk] at hr hs
        exact ⟨hr, fun hpos => ⟨(hs hpos).1, by simp⟩⟩
      · rw [Function.update_of_ne hpk]
        exact ⟨hr, fun hpos => ⟨(hs hpos).1, by simp [hpk, (hs hpos).2]⟩⟩
    set I₂ := Function.update I₁ k { I₁ k with del := true }
    have heff₁ : Effects (D, I) [.unlinked d e t k] (D₁, I₂) :=
      Effects.single (.unlinked hlt hn hempty hk ht hmark ht₁.other hput ht₁.place) hinv₂
    -- the directory
    obtain ⟨hrj, hsj⟩ := hmark j
    obtain ⟨hnoj, hdelj⟩ := hsj hj
    have hj₂ : 0 < (I₂ j).ref := by
      rw [hrj]
      exact hj
    have hlast₂ : ¬ ((I₂ j).ref = 1 ∧ (I₂ j).del = true) := by
      rw [hrj, hdelj, decide_eq_false hjk, Bool.false_or]
      exact hlast
    rw [wp_bind]
    refine (iclose_kept_spec ⟨hat₂, hinv₂⟩ hj₂ hlast₂).imp ?_
    rintro - s₃ ⟨I₃, hh₃, hc₃⟩
    have heff₂ : Effects (D, I) ([.unlinked d e t k] ++ [.closed j d]) (D₁, I₃) :=
      Lts.Run.trans heff₁ (Effects.single (.closed hj₂ (hnoj.trans hd) hlast₂ hc₃) hh₃.2)
    -- what was named
    obtain ⟨hrk, hsk⟩ := hmark k
    obtain ⟨hnok, hdelk⟩ := hsk hk
    obtain ⟨hrk₃, hsk₃⟩ := hc₃.others k (Ne.symm hjk)
    have hk₂ : 0 < (I₂ k).ref := by
      rw [hrk]
      exact hk
    obtain ⟨hnok₃, hdelk₃⟩ := hsk₃ hk₂
    have hk₃ : 0 < (I₃ k).ref := by
      rw [hrk₃]
      exact hk₂
    have hno₃ : (I₃ k).no = t := hnok₃.trans (hnok.trans ht)
    have hdel₃ : (I₃ k).del = true := by
      rw [hdelk₃, hdelk]
      simp
    have hone : (I₃ k).ref = (I k).ref := hrk₃.trans hrk
    rw [wp_bind]
    refine (iclose_spec hh₃ hk₃ hno₃).imp ?_
    rintro - s₄ ⟨D₄, I₄, hh₄, hc₄, heq₄⟩
    rw [wp_pure]
    refine ⟨rfl, D₄, I₄, hh₄, ?_, ?_, ?_, ?_⟩
    · have heff₃ : Effects (D₁, I₃) [.closed k t] (D₄, I₄) := by
        split at heq₄
        case isTrue hfree =>
          exact Effects.single (.freed hfree.1 hno₃ hfree.2 hc₄ heq₄) hh₄.2
        case isFalse hkeep =>
          subst heq₄
          exact Effects.single (.closed hk₃ hno₃ hkeep hc₄) hh₄.2
      exact Lts.Run.trans heff₂ heff₃
    · split at heq₄
      case isTrue => rw [heq₄.other d hlt hdt, hput]
      case isFalse => rw [heq₄, hput]
    · intro no hno hne hne'
      have hkept := (ht₁.other no hno hne).obj
      split at heq₄
      case isTrue => rw [heq₄.other no hno hne', hkept]
      case isFalse => rw [heq₄, hkept]
    · have hkept := (ht₁.other t hltt (Ne.symm hdt)).obj
      split at heq₄
      case isTrue hfree =>
        rw [if_pos (hone.symm.trans hfree.1)]
        exact heq₄.obj_eq hltt
      case isFalse hkeep =>
        rw [if_neg fun h => hkeep ⟨hone.trans h, hdel₃⟩, heq₄, hkept]
  · rintro e' ⟨-, hstop⟩
    obtain ⟨-, ⟨rfl, hm, -⟩ | ⟨rfl, hbig⟩⟩ := write_abort hstop
    · refine Or.inl ⟨rfl, fun hs => hm ?_⟩
      have := (hs.dirs d hlt hdir).2
      exact (@Small.mapped _ _ hs hlt hdir 4095 (by norm_num)).sub (Nat.zero_le _) (by omega)
    · exact Or.inr (Or.inl ⟨rfl, d, hlt, by omega⟩)

/-- What is left to do once the entry is found: unless it names a directory with entries, it is
cleared. -/
theorem iremoveFound_spec (I₀ : InodePtr → Inode) (e : ℕ) {t : ℕ} (h : s.Holds D I)
    (hns : (ns D I).Inv) (hj : 0 < (I j).ref)
    (hd : (I j).no = d) (hk : 0 < (I k).ref) (ht : (I k).no = t) (hn : (ns D I).Named d e t)
    (hlast : ¬ ((I j).ref = 1 ∧ (I j).del = true))
    (hclose : ∀ I₁ I₂ I₃, SameSlots I I₁ → Closed I₁ I₂ j → Closed I₂ I₃ k → SameSlots I₀ I₃)
    (hlast' : ∀ I₁ I₂, SameSlots I I₁ → Closed I₁ I₂ j →
      0 < (I₂ k).ref ∧ ¬ ((I₂ k).ref = 1 ∧ (I₂ k).del = true)) :
    wp (do
        let type ← itype k
        let full ← if type = TYPE_DIR then not <$> idirempty k else pure false
        if full then
          iclose j
          iclose k
          pure (-1)
        else
          let _ ← iwrite j (32 * e) Dirent.zero.bytes
          modInode k fun ip => { ip with del := true }
          iclose j
          iclose k
          pure 0)
      (fun r s' => ∃ D' I', s'.Holds D' I' ∧
        ((r = (-1 : ℤ) ∧ (∀ no < 1920, Kept D D' no) ∧ SameSlots I₀ I' ∧ (Small D → D' = D) ∧
            (ns D I).Dir t ∧ ¬ (ns D I).Empty t) ∨
          (r = 0 ∧ ((ns D I).Dir t → (ns D I).Empty t) ∧
            Effects (D, I) [.grow, .unlinked d e t k, .closed j d, .closed k t] (D', I') ∧
            obj D' d = (obj D d).put e .zero ∧
            (∀ no < 1920, no ≠ d → no ≠ t → obj D' no = obj D no) ∧
            (if (I k).ref = 1 then obj D' t = Obj.free else obj D' t = obj D t))))
      (DirAbort D I 0) s := by
  have hlt : d < 1920 := hd ▸ (h.2.live j hj).1
  have hltt : t < 1920 := ht ▸ (h.2.live k hk).1
  -- the entry is cleared, perhaps after the directory has been read
  have hgo (s₁ : Fs) (D₁ : Mem) (I₁ : InodePtr → Inode) (hh₁ : s₁.Holds D₁ I₁)
      (hg : Grow D I D₁ I₁) (hs : Small D → D₁ = D)
      (hempty : (ns D I).Dir t → (ns D I).Empty t) :
      wp (do
          let _ ← iwrite j (32 * e) Dirent.zero.bytes
          modInode k fun ip => { ip with del := true }
          iclose j
          iclose k
          pure (0 : ℤ)) (fun r s' => ∃ D' I', s'.Holds D' I' ∧
        ((r = (-1 : ℤ) ∧ (∀ no < 1920, Kept D D' no) ∧ SameSlots I₀ I' ∧ (Small D → D' = D) ∧
            (ns D I).Dir t ∧ ¬ (ns D I).Empty t) ∨
          (r = 0 ∧ ((ns D I).Dir t → (ns D I).Empty t) ∧
            Effects (D, I) [.grow, .unlinked d e t k, .closed j d, .closed k t] (D', I') ∧
            obj D' d = (obj D d).put e .zero ∧
            (∀ no < 1920, no ≠ d → no ≠ t → obj D' no = obj D no) ∧
            (if (I k).ref = 1 then obj D' t = Obj.free else obj D' t = obj D t))))
        (DirAbort D I 0) s₁ := by
    have hobj (no : ℕ) (hno : no < 1920) : obj D₁ no = obj D no := (hg.kept no hno).obj
    have hsame : ns D₁ I₁ = ns D I := hg.slots.ns_eq hobj
    obtain ⟨hrj, hsj⟩ := hg.slots j
    refine (clearEntry_spec (e := e) hh₁ (hsame ▸ hns) (hg.slots.live.mpr hj)
      ((hg.slots.no_eq hj).trans hd) (hg.slots.live.mpr hk) ((hg.slots.no_eq hk).trans ht)
      (hsame ▸ hn) (hsame ▸ hempty) (by rw [hrj, (hsj hj).2]; exact hlast)).mono ?_ ?_
    · rintro r s₂ ⟨rfl, D₂, I₂, hh₂, heff, hput, hother, hfree⟩
      refine ⟨D₂, I₂, hh₂, Or.inr ⟨rfl, hempty, ?_, ?_, fun no hno hne hne' => ?_, ?_⟩⟩
      · exact Lts.Run.head ⟨.grow hg, hh₁.2⟩ heff
      · rw [hput, hobj d hlt]
      · rw [hother no hno hne hne', hobj no hno]
      · rw [(hg.slots k).1, hobj t hltt] at hfree
        exact hfree
    · intro err herr
      have hcount := hg.slots.liveCount_eq
      refine DirAbort.of_kept D₁ ?_ hobj hs
      rcases herr with herr | herr | herr | ⟨rfl, hfull⟩
      · exact Or.inl herr
      · exact Or.inr (Or.inl herr)
      · exact Or.inr (Or.inr (Or.inl herr))
      · exact Or.inr (Or.inr (Or.inr ⟨rfl, by omega⟩))
  have htype : (s.inodes k).dinode.type = (obj D t).type := by
    rw [h.1.inodes, (h.2.live k hk).2, ht]
    rfl
  simp only [wp_bind, itype, wp_read, htype]
  by_cases hdir : (obj D t).type = TYPE_DIR
  · simp only [hdir, if_true, wp_bind, wp_map]
    refine (idirempty_spec h hns hk ht hdir).imp ?_
    rintro b s₁ ⟨D₁, I₁, hh₁, hg₁, hs₁, hb⟩
    cases b with
    | true =>
      exact hgo s₁ D₁ I₁ hh₁ hg₁ hs₁ fun _ => hb.mp rfl
    | false =>
      simp only [Bool.not_false, if_true]
      rw [wp_bind]
      obtain ⟨hrj, hsj⟩ := hg₁.slots j
      refine (iclose_kept_spec hh₁ (hg₁.slots.live.mpr hj)
        (by rw [hrj, (hsj hj).2]; exact hlast)).imp ?_
      rintro - s₂ ⟨I₂, hh₂, hc₂⟩
      obtain ⟨hk₂, hlast₂⟩ := hlast' I₁ I₂ hg₁.slots hc₂
      rw [wp_bind]
      refine (iclose_kept_spec hh₂ hk₂ hlast₂).imp ?_
      rintro - s₃ ⟨I₃, hh₃, hc₃⟩
      rw [wp_pure]
      exact ⟨D₁, I₃, hh₃, Or.inl ⟨rfl, hg₁.kept, hclose I₁ I₂ I₃ hg₁.slots hc₂ hc₃, hs₁,
        (dir_ns hltt).mpr hdir, fun hempty => by cases hb.mpr hempty⟩⟩
  · simp only [hdir, if_false]
    exact hgo s D I h (.refl D I) (fun _ => rfl) fun hd => (hdir ((dir_ns hltt).mp hd)).elim

/-- What a successful `iremove` does: entry `e` of directory `d`, found under the name, is
cleared, and what it named is freed unless it is held. -/
structure Unlinked (D : Mem) (I : InodePtr → Inode) (D' : Mem) (I' : InodePtr → Inode) (cwd : ℕ)
    (path : List UInt8) (d e t : ℕ) (name : List UInt8) (j k : InodePtr) : Prop where
  resolve : resolveParent (objs D) cwd path = some (d, name)
  find : (obj D d).find name = some e
  named : (ns D I).Named d e t
  empty : (ns D I).Dir t → (ns D I).Empty t
  effects : Effects (D, I)
    [.opened j d, .opened k t, .grow, .unlinked d e t k, .closed j d, .closed k t] (D', I')
  parent : obj D' d = (obj D d).put e .zero
  other : ∀ no < 1920, no ≠ d → no ≠ t → obj D' no = obj D no
  held : t ∈ (ns D I).live → obj D' t = obj D t
  freed : t ∉ (ns D I).live → obj D' t = Obj.free

/-- The path leads to an entry that can be cleared: not `.` or `..`, and not that of a directory
with entries. -/
def Ns.Removable (s : Ns) (cwd : ℕ) (path : List UInt8) : Prop :=
  ∃ d name e, resolveParent s.objs cwd path = some (d, name) ∧ name ≠ DOT ∧ name ≠ DOTDOT ∧
    (s.objs d).find name = some e ∧
    (s.Dir ((s.objs d).target e) → s.Empty ((s.objs d).target e))

/-- What `iremove` does: nothing, when there is nothing to remove, or it unlinks. -/
def Iremoved (D : Mem) (I : InodePtr → Inode) (cwd : ℕ) (path : List UInt8) (r : ℤ) (D' : Mem)
    (I' : InodePtr → Inode) : Prop :=
  (r = -1 ∧ Grow D I D' I' ∧ (Small D → D' = D) ∧ ¬ (ns D I).Removable cwd path) ∨
    (r = 0 ∧ ∃ d e t name j k, Unlinked D I D' I' cwd path d e t name j k)

/-- There is one entry to look at. -/
theorem Ns.Removable.found {s : Ns} {name : List UInt8} (h : s.Removable cwd path)
    (hparent : resolveParent s.objs cwd path = some (d, name)) : name ≠ DOT ∧ name ≠ DOTDOT ∧
      ∃ e, (s.objs d).find name = some e ∧
        (s.Dir ((s.objs d).target e) → s.Empty ((s.objs d).target e)) := by
  obtain ⟨d', name', e, hsome, hdot, hdotdot, hfind, hempty⟩ := h
  rw [hparent] at hsome
  cases hsome
  exact ⟨hdot, hdotdot, e, hfind, hempty⟩

/-- The directory of the path is open in slot `j`, and no object has changed. -/
structure InParent (D : Mem) (I : InodePtr → Inode) (D' : Mem) (I' : InodePtr → Inode) (cwd : ℕ)
    (path : List UInt8) (d : ℕ) (name : List UInt8) (j : InodePtr) : Prop where
  parent : resolveParent (objs D) cwd path = some (d, name)
  opened : Opened I I' j d
  kept : ∀ no < 1920, Kept D D' no
  small : Small D → D' = D

section InParent

variable {D₁ D₂ : Mem} {I₁ I₂ : InodePtr → Inode} {name : List UInt8} {e : ℕ}

/-- Nothing is removed, and the directory is given back. -/
theorem InParent.fail_spec (hinv : FsInv D I) (hs : s.Holds D₁ I₁)
    (h : InParent D I D₁ I₁ cwd path d name j) (hnot : ¬ (ns D I).Removable cwd path) :
    wp (do iclose j; pure (-1 : ℤ)) (fun r s' => ∃ D' I', s'.Holds D' I' ∧
      Iremoved D I cwd path r D' I') (DirAbort D I 2) s := by
  rw [wp_bind]
  refine (iclose_kept_spec hs (h.opened.pos (hinv.ref j)) h.opened.not_last).imp ?_
  rintro - s₂ ⟨I₂, hh₂, hc₂⟩
  rw [wp_pure]
  exact ⟨D₁, I₂, hh₂, Or.inl ⟨rfl, ⟨h.opened.close hc₂, h.kept⟩, h.small, hnot⟩⟩

/-- The entry has been found, and what it names is open in slot `k`. -/
theorem InParent.found_spec (hinv : FsInv D I) (hns : (ns D I).Inv) {s₁ : Fs}
    (hh₁ : s₁.Holds D₁ I₁) (h : InParent D I D₁ I₁ cwd path d name j)
    (hdir : (ns D I).Dir d) (hdots : name ≠ DOT ∧ name ≠ DOTDOT) (hfind : (obj D d).find name = some e)
    (hh₂ : s.Holds D₂ I₂) (hok : Opened I₁ I₂ k ((obj D d).target e)) (hk₂ : ∀ no < 1920, Kept D₁ D₂ no)
    (hs₂ : Small D₁ → D₂ = D₁) :
    wp (do
        let type ← itype k
        let full ← if type = TYPE_DIR then not <$> idirempty k else pure false
        if full then
          iclose j
          iclose k
          pure (-1)
        else
          let _ ← iwrite j (32 * e) Dirent.zero.bytes
          modInode k fun ip => { ip with del := true }
          iclose j
          iclose k
          pure 0)
      (fun r s' => ∃ D' I', s'.Holds D' I' ∧ Iremoved D I cwd path r D' I') (DirAbort D I 2) s := by
  have ho := h.opened
  have hrefj := hinv.ref j
  have hj := ho.pos hrefj
  have hlt : d < 1920 := ho.ino ▸ (hh₁.2.live j hj).1
  have hobj (no : ℕ) (hno : no < 1920) : obj D₁ no = obj D no := (h.kept no hno).obj
  have hn : (ns D I).Named d e ((obj D d).target e) := by
    have hn := hns.named_of_find (d := d) hdir (e := e) (by rw [objs_ns hlt]; exact hfind)
      hdots.1 hdots.2
    rwa [objs_ns hlt] at hn
  set t := (obj D d).target e with htdef
  have hrefk : 0 ≤ (I₁ k).ref := hh₁.2.ref k
  have hk := hok.pos hrefk
  have hltt : t < 1920 := hok.ino ▸ (hh₂.2.live k hk).1
  have hpost : 1 ≤ t := Nat.one_le_iff_ne_zero.mpr hn.ne
  have hposd : 1 ≤ d := by
    refine (hns.lt ?_).1
    rw [show ((ns D I).objs d).type = TYPE_DIR from hdir]
    decide
  have hobj₂ (no : ℕ) (hno : no < 1920) : obj D₂ no = obj D no :=
    (hk₂ no hno).obj.trans (hobj no hno)
  have hobjs : (ns D₂ I₂).objs = (ns D I).objs := objs_congr hobj₂
  have hsmall₂ (hsmall : Small D) : D₂ = D := by
    obtain rfl := h.small hsmall
    exact hs₂ hsmall
  have heff : Effects (D, I) ([.opened j d] ++ [.opened k t]) (D₂, I₂) :=
    Lts.Run.trans (Effects.single (.opened hposd hlt ho h.kept) hh₁.2)
      (Effects.single (.opened hpost hltt hok hk₂) hh₂.2)
  have hj₂ : 0 < (I₂ j).ref := by
    by_cases hjk : j = k
    · rw [hjk]
      exact hk
    · rw [(hok.others j hjk).1]
      exact hj
  refine (iremoveFound_spec I e hh₂ (Effects.invariant heff hinv hns).2 hj₂ ?_ hk
    hok.ino (hn.congr hobjs) (ho.not_last_next hok hrefj) ?_ ?_).mono ?_ ?_
  · by_cases hjk : j = k
    · rw [hjk] at ho hj ⊢
      rw [hok.ino, ← (hok.old hj).1, ho.ino]
    · rw [((hok.others j hjk).2 hj).1, ho.ino]
  · intro I₃ I₄ I₅ hslots hc₄ hc₅
    exact (ho.next (hok.trans_same hslots hrefk) hc₄ hrefj (hinv.ref k)).close hc₅
  · intro I₃ I₄ hslots hc₄
    have ho₄ := ho.next (hok.trans_same hslots hrefk) hc₄ hrefj (hinv.ref k)
    exact ⟨ho₄.pos (hinv.ref k), ho₄.not_last⟩
  · rintro r s₃ ⟨D₃, I₃, hh₃, ⟨rfl, hk₃, hslots, hs₃, hdir₃, hfull⟩ |
      ⟨rfl, hempty, heff₃, hput, hother, hfree⟩⟩
    -- a directory with entries stays
    · refine ⟨D₃, I₃, hh₃, Or.inl ⟨rfl, ⟨hslots, fun no hno => ?_⟩, fun hsmall => ?_, fun hrem => ?_⟩⟩
      · exact ((h.kept no hno).trans (hk₂ no hno)).trans (hk₃ no hno)
      · obtain rfl := hsmall₂ hsmall
        exact hs₃ hsmall
      · obtain ⟨-, -, e', hfound, hempty⟩ := hrem.found h.parent
        rw [objs_ns hlt, hfind] at hfound
        obtain rfl := Option.some.inj hfound
        rw [objs_ns hlt] at hempty
        have hdir' : (ns D I).Dir t := by
          rw [Ns.Dir, ← hobjs]
          exact hdir₃
        exact hfull ((hempty hdir').congr hobjs)
    · have hlive : (I₂ k).ref = 1 ↔ t ∉ (ns D I).live := by
        refine ho.ref_one_iff hok ?_ hj (hinv.ref k)
        intro hdt
        rw [← hdt] at hn hempty
        exact Ns.not_empty (hn.congr hobjs) (hempty (hn.congr hobjs).dir)
      refine ⟨D₃, I₃, hh₃, Or.inr ⟨rfl, d, e, t, name, j, k, h.parent, hfind, hn, ?_, ?_, ?_, ?_,
        ?_, ?_⟩⟩
      · intro hd
        exact (hempty ((show Ns.Dir _ t ↔ Ns.Dir _ t by rw [Ns.Dir, Ns.Dir, hobjs]).mpr
          hd)).congr hobjs.symm
      · exact Lts.Run.trans heff heff₃
      · rw [hput, hobj₂ d hlt]
      · intro no hno hne hne'
        rw [hother no hno hne hne', hobj₂ no hno]
      · intro hmem
        rw [if_neg fun hlast => hlive.mp hlast hmem, hobj₂ t hltt] at hfree
        exact hfree
      · intro hmem
        rw [if_pos (hlive.mpr hmem)] at hfree
        exact hfree
  · intro err herr
    exact ((herr.opened hok).of_kept _ hobj₂ hsmall₂).opened ho

end InParent

theorem iremove_spec (h : s.Holds D I) (hns : (ns D I).Inv) (hc : 0 < (I c).ref)
    (hcwd : (I c).no = cwd) (h0 : (0 : UInt8) ∉ path) :
    wp (iremove (some c) path) (fun r s' => ∃ D' I', s'.Holds D' I' ∧ Iremoved D I cwd path r D' I')
      (DirAbort D I 2) s := by
  rw [iremove, wp_bind]
  refine (iopen_parent_spec h hns.dirs hc hcwd h0).mono ?_ fun e he => he.le (by norm_num)
  rintro r s₁ ⟨D₁, I₁, hh₁, hk₁, hs₁, hw⟩
  cases hparent : resolveParent (objs D) cwd path with
  | none =>
    rw [hparent] at hw
    obtain ⟨rfl, hslots⟩ := hw
    refine ⟨D₁, I₁, hh₁, Or.inl ⟨rfl, ⟨hslots, hk₁⟩, hs₁, ?_⟩⟩
    rintro ⟨d, name, e, hsome, -⟩
    have hnone : resolveParent (objs D) cwd path = some (d, name) := hsome
    rw [hparent] at hnone
    cases hnone
  | some q =>
    obtain ⟨d, name⟩ := q
    rw [hparent] at hw
    obtain ⟨j, rfl, ho⟩ := hw
    obtain ⟨hdir, helem⟩ := resolveParent_some hparent h0
    have hin : InParent D I D₁ I₁ cwd path d name j := ⟨hparent, ho, hk₁, hs₁⟩
    have hrefj := h.2.ref j
    have hj := ho.pos hrefj
    have hlt : d < 1920 := ho.ino ▸ (hh₁.2.live j hj).1
    have hobj (no : ℕ) (hno : no < 1920) : obj D₁ no = obj D no := (hk₁ no hno).obj
    obtain ⟨hdvd, htarget⟩ := hns.dirs d hdir
    have hdir₁ : (obj D₁ d).type = TYPE_DIR := by
      rw [hobj d hlt, ← objs_of_lt hlt]
      exact hdir
    -- `.` and `..` cannot be removed, nor can what is not there
    by_cases hdots : name = DOT ∨ name = DOTDOT
    · simp only [hdots, if_true]
      refine hin.fail_spec h.2 hh₁ fun hrem => ?_
      obtain ⟨hdot, hdotdot, -⟩ := hrem.found hparent
      exact hdots.elim hdot hdotdot
    simp only [hdots, if_false, wp_bind]
    rw [not_or] at hdots
    refine (ilookup_spec hh₁ hj ho.ino hdir₁ (by rw [hobj d hlt, ← objs_of_lt hlt]; exact hdvd)
      helem.length helem.zero (by rw [hobj d hlt, ← objs_of_lt hlt]; exact htarget)
      fun hne => (hne rfl).elim).mono ?_ fun e he => ((he.of_kept _ hobj hs₁).opened ho).le
        (by norm_num)
    rintro r s₂ ⟨D₂, I₂, hh₂, hr⟩
    unfold Looked at hr
    rw [hobj d hlt] at hr
    cases hfind : (obj D d).find name with
    | none =>
      rw [hfind] at hr
      obtain ⟨rfl, hg₂, hs₂⟩ := hr
      have hin₂ : InParent D I D₂ I₂ cwd path d name j :=
        ⟨hparent, ho.trans_same hg₂.slots hrefj, fun no hno => (hk₁ no hno).trans (hg₂.kept no hno),
          fun hsmall => by
            obtain rfl := hs₁ hsmall
            exact hs₂ hsmall⟩
      refine hin₂.fail_spec h.2 hh₂ fun hrem => ?_
      obtain ⟨-, -, e, hfound, -⟩ := hrem.found hparent
      rw [objs_ns hlt, hfind] at hfound
      cases hfound
    | some e =>
      rw [hfind] at hr
      obtain ⟨k, rfl, hok, hk₂, hs₂⟩ := hr
      exact hin.found_spec h.2 hns hh₁ hdir hdots hfind hh₂ hok hk₂ hs₂

end Oslab
