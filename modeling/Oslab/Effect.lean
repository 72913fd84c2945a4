/-
# The effects of the file system

The disk and the inode table hold a namespace. What an operation of the file
system does to them is a run of effects: blocks are added, a slot gets or loses
a reference, a file changes, a file is made or an entry is cleared. Each effect
is at most one event of the namespace.
-/
import Oslab.Lib.Transition
import Oslab.Namespace

namespace Oslab

open Lib Lib.Prog

variable {s : Fs} {D D' D'' : Mem} {I I' I'' : InodePtr → Inode} {i j : InodePtr} {no d : ℕ}
  {name path : List UInt8}

/-! ### The namespace of a disk and an inode table -/

/-- The objects on a disk. -/
def objs (D : Mem) (no : ℕ) : Obj := if no < 1920 then obj D no else Obj.free

/-- The namespace of a disk and an inode table. -/
def ns (D : Mem) (I : InodePtr → Inode) : Ns where
  objs := objs D
  live := {no | ∃ j, 0 < (I j).ref ∧ (I j).no = no}
  removed := {no | ∃ j, 0 < (I j).ref ∧ (I j).no = no ∧ (I j).del = true}

theorem objs_of_lt (h : no < 1920) : objs D no = obj D no := if_pos h

theorem objs_congr (h : ∀ no < 1920, obj D' no = obj D no) : objs D' = objs D := by
  funext no
  unfold objs
  split
  case isTrue hlt => exact h no hlt
  case isFalse => rfl

theorem objs_update {o : Obj} (hno : no < 1920) (hself : obj D' no = o)
    (h : ∀ no' < 1920, no' ≠ no → obj D' no' = obj D no') :
    objs D' = Function.update (objs D) no o := by
  funext x
  by_cases hx : x = no
  · rw [hx, Function.update_self, objs_of_lt hno, hself]
  · rw [Function.update_of_ne hx]
    unfold objs
    split
    case isTrue hlt => exact h x hlt hx
    case isFalse => rfl

theorem SameSlots.ns_eq (h : SameSlots I I') (hobj : ∀ no < 1920, obj D' no = obj D no) :
    ns D' I' = ns D I := by
  ext1
  · exact objs_congr hobj
  · ext no
    exact exists_congr fun j => by
      rw [h.live]
      exact and_congr_right fun hj => by rw [h.no_eq hj]
  · ext no
    exact exists_congr fun j => by
      rw [h.live]
      exact and_congr_right fun hj => by rw [h.no_eq hj, ((h j).2 hj).2]

/-- Opening holds the inode. -/
theorem Opened.ns_eq (h : Opened I I' j no) (href : 0 ≤ (I j).ref) :
    ns D I' = { ns D I with live := insert no (ns D I).live } := by
  have hj' : 0 < (I' j).ref := by rw [h.ref]; omega
  ext1
  · rfl
  · ext x
    constructor
    · rintro ⟨k, hk, rfl⟩
      by_cases hkj : k = j
      · rw [hkj, h.ino]
        exact Set.mem_insert _ _
      · obtain ⟨hr, hs⟩ := h.others k hkj
        rw [hr] at hk
        exact Set.mem_insert_of_mem _ ⟨k, hk, ((hs hk).1).symm⟩
    · rintro (rfl | ⟨k, hk, rfl⟩)
      · exact ⟨j, hj', h.ino⟩
      · by_cases hkj : k = j
        · subst hkj
          exact ⟨k, hj', h.ino.trans (h.old hk).1.symm⟩
        · obtain ⟨hr, hs⟩ := h.others k hkj
          exact ⟨k, by rw [hr]; exact hk, (hs hk).1⟩
  · ext x
    constructor
    · rintro ⟨k, hk, rfl, hdel⟩
      by_cases hkj : k = j
      · subst hkj
        by_cases hpos : 0 < (I k).ref
        · obtain ⟨hno, hd⟩ := h.old hpos
          exact ⟨k, hpos, hno.trans h.ino.symm, hd ▸ hdel⟩
        · rw [(h.new (by omega)).1] at hdel
          cases hdel
      · obtain ⟨hr, hs⟩ := h.others k hkj
        rw [hr] at hk
        obtain ⟨hno, hd⟩ := hs hk
        exact ⟨k, hk, hno.symm, hd ▸ hdel⟩
    · rintro ⟨k, hk, rfl, hdel⟩
      by_cases hkj : k = j
      · subst hkj
        obtain ⟨hno, hd⟩ := h.old hk
        exact ⟨k, hj', h.ino.trans hno.symm, hd.trans hdel⟩
      · obtain ⟨hr, hs⟩ := h.others k hkj
        obtain ⟨hno, hd⟩ := hs hk
        exact ⟨k, by rw [hr]; exact hk, hno, hd.trans hdel⟩

/-- Closing a slot that is held elsewhere changes nothing. -/
theorem Closed.ns_eq (h : Closed I I' j) (hj : 1 < (I j).ref) : ns D I' = ns D I := by
  obtain ⟨hno, hdel⟩ := h.self hj
  have hsame (k : InodePtr) : (0 < (I' k).ref ↔ 0 < (I k).ref) ∧
      (0 < (I k).ref → (I' k).no = (I k).no ∧ (I' k).del = (I k).del) := by
    by_cases hkj : k = j
    · subst hkj
      exact ⟨by rw [h.ref]; omega, fun _ => ⟨hno, hdel⟩⟩
    · obtain ⟨hr, hs⟩ := h.others k hkj
      exact ⟨by rw [hr], hs⟩
  ext1
  · rfl
  · ext x
    exact exists_congr fun k => by
      rw [(hsame k).1]
      exact and_congr_right fun hk => by rw [((hsame k).2 hk).1]
  · ext x
    exact exists_congr fun k => by
      rw [(hsame k).1]
      exact and_congr_right fun hk => by rw [((hsame k).2 hk).1, ((hsame k).2 hk).2]

/-- Closing the last reference drops the inode. -/
theorem Closed.ns_last (h : Closed I I' j) (D' : Mem) (hinv : FsInv D I) (hj : (I j).ref = 1)
    (hno : (I j).no = no) : ns D' I' = ⟨objs D', (ns D I).live \ {no}, (ns D I).removed \ {no}⟩ := by
  have hdead : ¬ 0 < (I' j).ref := by rw [h.ref, hj]; norm_num
  have hother (k : InodePtr) (hk : 0 < (I k).ref) : k ≠ j ↔ (I k).no ≠ no := by
    constructor
    · intro hkj heq
      exact hkj (hinv.uniq k j hk (by omega) (heq.trans hno.symm))
    · rintro hne rfl
      exact hne hno
  ext1
  · rfl
  · ext x
    constructor
    · rintro ⟨k, hk, rfl⟩
      have hkj : k ≠ j := by
        rintro rfl
        exact hdead hk
      obtain ⟨hr, hs⟩ := h.others k hkj
      rw [hr] at hk
      rw [(hs hk).1]
      exact ⟨⟨k, hk, rfl⟩, (hother k hk).mp hkj⟩
    · rintro ⟨⟨k, hk, rfl⟩, hne⟩
      have hkj := (hother k hk).mpr hne
      obtain ⟨hr, hs⟩ := h.others k hkj
      exact ⟨k, by rw [hr]; exact hk, (hs hk).1⟩
  · ext x
    constructor
    · rintro ⟨k, hk, rfl, hdel⟩
      have hkj : k ≠ j := by
        rintro rfl
        exact hdead hk
      obtain ⟨hr, hs⟩ := h.others k hkj
      rw [hr] at hk
      rw [(hs hk).1]
      exact ⟨⟨k, hk, rfl, (hs hk).2.symm.trans hdel⟩, (hother k hk).mp hkj⟩
    · rintro ⟨⟨k, hk, rfl, hdel⟩, hne⟩
      have hkj := (hother k hk).mpr hne
      obtain ⟨hr, hs⟩ := h.others k hkj
      exact ⟨k, by rw [hr]; exact hk, (hs hk).1, (hs hk).2.trans hdel⟩

/-! ### Effects -/

/-- What an operation does to the disk and the inode table. -/
inductive FsEvent
  /-- blocks are added to inodes -/
  | grow
  /-- slot `j` gets a reference to inode `no` -/
  | opened (j : InodePtr) (no : ℕ)
  /-- slot `j` loses a reference to inode `no` -/
  | closed (j : InodePtr) (no : ℕ)
  /-- inode `no` is changed -/
  | wrote (no : ℕ)
  /-- inode `no` is made, held by slot `j`, and entered in directory `d` -/
  | created (d : ℕ) (name : List UInt8) (type : UInt32) (j : InodePtr) (no : ℕ)
  /-- entry `e` of directory `d` is cleared, and slot `k`, which holds what it names, marked -/
  | unlinked (d e t : ℕ) (k : InodePtr)

/-- The disk and the inode table. -/
abbrev FsState := Mem × (InodePtr → Inode)

/-- The namespace of a state. -/
def FsState.ns (s : FsState) : Ns := Oslab.ns s.1 s.2

/-- Slot `k` is marked, nothing else changes in the table but copies of inodes. -/
def Marked (I I' : InodePtr → Inode) (k : InodePtr) : Prop :=
  ∀ j, (I' j).ref = (I j).ref ∧
    (0 < (I j).ref → (I' j).no = (I j).no ∧ (I' j).del = (decide (j = k) || (I j).del))

/-- One effect. -/
inductive Effect : FsState → FsEvent → FsState → Prop
  | grow {D D' : Mem} {I I' : InodePtr → Inode} : Grow D I D' I' → Effect (D, I) .grow (D', I')
  | opened {D D' : Mem} {I I' : InodePtr → Inode} {j : InodePtr} {no : ℕ} :
      1 ≤ no → no < 1920 → Opened I I' j no → (∀ no < 1920, Kept D D' no) →
      Effect (D, I) (.opened j no) (D', I')
  | closed {D : Mem} {I I' : InodePtr → Inode} {j : InodePtr} {no : ℕ} :
      0 < (I j).ref → (I j).no = no → ¬ ((I j).ref = 1 ∧ (I j).del = true) → Closed I I' j →
      Effect (D, I) (.closed j no) (D, I')
  | freed {D D' : Mem} {I I' : InodePtr → Inode} {j : InodePtr} {no : ℕ} :
      (I j).ref = 1 → (I j).no = no → (I j).del = true → Closed I I' j → Removed D D' no →
      Effect (D, I) (.closed j no) (D', I')
  | wrote {D D' : Mem} {I I' : InodePtr → Inode} {j : InodePtr} {no : ℕ} :
      0 < (I j).ref → (I j).no = no → (obj D no).type ≠ TYPE_DIR → Touch D I no D' I' →
      (obj D' no).type = (obj D no).type → Effect (D, I) (.wrote no) (D', I')
  | truncated {D D' : Mem} {I I' : InodePtr → Inode} {j : InodePtr} {no : ℕ} :
      0 < (I j).ref → (I j).no = no → (obj D no).type ≠ TYPE_DIR → SameSlots I I' →
      Trunc D D' no → (obj D' no).type = (obj D no).type → Effect (D, I) (.wrote no) (D', I')
  | created {D D' : Mem} {I I' : InodePtr → Inode} {d : ℕ} {name : List UInt8} {type : UInt32}
      {j : InodePtr} {no : ℕ} :
      d < 1920 → (obj D d).type = TYPE_DIR → type ≠ TYPE_NONE → Elem name →
      (obj D d).find name = none → Created D I D' I' d name type j no →
      Effect (D, I) (.created d name type j no) (D', I')
  | unlinked {D D' : Mem} {I I' : InodePtr → Inode} {d e t : ℕ} {k : InodePtr} :
      d < 1920 → (Oslab.ns D I).Named d e t → ((Oslab.ns D I).Dir t → (Oslab.ns D I).Empty t) →
      0 < (I k).ref → (I k).no = t → Marked I I' k →
      (∀ no < 1920, no ≠ d → Kept D D' no) → obj D' d = (obj D d).put e .zero →
      (∀ k, place D d k ≠ 0 → place D' d k = place D d k) →
      Effect (D, I) (.unlinked d e t k) (D', I')

/-- The event of the namespace an effect is, if it is one. -/
def FsEvent.toNs : FsEvent → Option NsEvent
  | .grow => none
  | .opened _ no => some (.hold no)
  | .closed _ no => some (.drop no)
  | .wrote no => some (.write no)
  | .created d name type _ no => some (.create d name type no)
  | .unlinked d e t _ => some (.unlink d e t)

@[simp] theorem objs_ns (h : no < 1920) : (ns D I).objs no = obj D no := objs_of_lt h

theorem dir_ns (h : no < 1920) : (ns D I).Dir no ↔ (obj D no).type = TYPE_DIR := by
  rw [Ns.Dir, objs_ns h]

theorem ns_congr (h : ∀ no < 1920, obj D' no = obj D no) : ns D' I = ns D I := by
  unfold ns
  rw [objs_congr h]

theorem Created.ns_eq {type : UInt32} (h : Created D I D' I' d name type j no) (hinv : FsInv D I)
    (hd : d < 1920) : ∃ dirent : Dirent, dirent.Names no name ∧ ns D' I' = (ns D I).made d dirent no (obj D' no) := by
  obtain ⟨dirent, hnames, hput⟩ := h.parent
  refine ⟨dirent, hnames, ?_⟩
  have hopen := h.opened.ns_eq (D := D) (hinv.ref j)
  have hobjs : objs D' = Function.update (Function.update (objs D) d
      ((objs D d).put (objs D d).hole dirent)) no (obj D' no) := by
    funext x
    by_cases hxn : x = no
    · rw [hxn, Function.update_self, objs_of_lt h.lt]
    · rw [Function.update_of_ne hxn]
      by_cases hxd : x = d
      · rw [hxd, Function.update_self, objs_of_lt hd, hput, objs_of_lt hd]
      · rw [Function.update_of_ne hxd]
        unfold objs
        split
        case isTrue hlt => exact h.other x hlt hxd hxn
        case isFalse => rfl
  ext1
  · exact hobjs
  · exact (congrArg Ns.live hopen :)
  · exact (congrArg Ns.removed hopen :)

/-- Marking a slot removes the inode it holds. -/
theorem Marked.ns_eq (h : Marked I I' j) (hj : 0 < (I j).ref) (hno : (I j).no = no) :
    ns D I' = { ns D I with removed := insert no (ns D I).removed } := by
  have hlive (k : InodePtr) : 0 < (I' k).ref ↔ 0 < (I k).ref := by rw [(h k).1]
  ext1
  · rfl
  · ext x
    refine exists_congr fun k => ?_
    rw [hlive]
    exact and_congr_right fun hk => by rw [((h k).2 hk).1]
  · ext x
    constructor
    · rintro ⟨k, hk, rfl, hdel⟩
      rw [hlive] at hk
      obtain ⟨hsame, hmark⟩ := (h k).2 hk
      rw [hsame]
      rw [hmark, Bool.or_eq_true, decide_eq_true_eq] at hdel
      rcases hdel with rfl | hdel
      · exact Or.inl hno
      · exact Or.inr ⟨k, hk, rfl, hdel⟩
    · rintro (rfl | ⟨k, hk, rfl, hdel⟩)
      · obtain ⟨hsame, hmark⟩ := (h j).2 hj
        exact ⟨j, (hlive j).mpr hj, hsame.trans hno, by rw [hmark]; simp⟩
      · obtain ⟨hsame, hmark⟩ := (h k).2 hk
        exact ⟨k, (hlive k).mpr hk, hsame, by rw [hmark, hdel, Bool.or_true]⟩

theorem mem_live (hj : 0 < (I j).ref) : (I j).no ∈ (ns D I).live := ⟨j, hj, rfl⟩

theorem step_write (hs : SameSlots I I') (hno : no < 1920)
    (hother : ∀ no' < 1920, no' ≠ no → obj D' no' = obj D no')
    (hdir : (obj D no).type ≠ TYPE_DIR) (htype : (obj D' no).type = (obj D no).type) :
    Ns.Step (ns D I) (.write no) (ns D' I') := by
  have hobjs : objs D' = Function.update (objs D) no (obj D' no) := objs_update hno rfl hother
  have hslots := @SameSlots.ns_eq D D I I' hs fun _ _ => rfl
  have hsame : ns D' I' = { ns D I with objs := Function.update (objs D) no (obj D' no) } := by
    rw [← hslots, ← hobjs]
    rfl
  rw [hsame]
  refine .write ?_ ?_
  · rwa [dir_ns hno]
  · rw [htype, objs_ns hno]

/-- **Effects are events.** An effect leaves the namespace or is one event of it. -/
theorem Effect.ns {s s' : FsState} {ev : FsEvent} (h : Effect s ev s') (hinv : FsInv s.1 s.2) :
    s'.ns = s.ns ∨ ∃ e, ev.toNs = some e ∧ Ns.Step s.ns e s'.ns := by
  cases h with
  | grow hg => exact Or.inl (hg.slots.ns_eq fun no hno => (hg.kept no hno).obj)
  | @opened D D' I I' j no hpos hlt ho hk =>
    have heq : Oslab.ns D' I' = { Oslab.ns D I with live := insert no (Oslab.ns D I).live } := by
      rw [ns_congr fun no hno => (hk no hno).obj]
      exact ho.ns_eq (hinv.ref j)
    refine Or.inr ⟨_, rfl, ?_⟩
    simp only [FsState.ns, heq]
    exact .hold hpos hlt
  | @closed D I I' j no hj hno hlast hc =>
    -- the last reference is dropped, or there are others
    have hle : (I j).ref = 1 ∨ 1 < (I j).ref := by omega
    rcases hle with hone | hmany
    · refine Or.inr ⟨_, rfl, ?_⟩
      simp only [FsState.ns, hc.ns_last D hinv hone hno]
      have hrem : no ∉ (Oslab.ns D I).removed := by
        rintro ⟨k, hk, heq, hdel⟩
        obtain rfl := hinv.uniq k j hk hj (heq.trans hno.symm)
        exact hlast ⟨hone, hdel⟩
      have hsame : (Oslab.ns D I).removed \ {no} = (Oslab.ns D I).removed :=
        Set.sdiff_singleton_eq_self hrem
      rw [hsame]
      exact .drop (hno ▸ mem_live hj) hrem
    · exact Or.inl (hc.ns_eq hmany)
  | @freed D D' I I' j no hone hno hdel hc hr =>
    have hj : 0 < (I j).ref := by omega
    have hlt : no < 1920 := hno ▸ (hinv.live j hj).1
    refine Or.inr ⟨_, rfl, ?_⟩
    have hobjs : objs D' = Function.update (objs D) no Obj.free :=
      objs_update hlt (hr.obj_eq hlt) fun no' hno' hne => hr.other no' hno' hne
    simp only [FsState.ns, hc.ns_last D' hinv hone hno, hobjs]
    exact .free ⟨j, hj, hno, hdel⟩
  | wrote hj hno hdir ht htype =>
    exact Or.inr ⟨_, rfl, step_write ht.slots (hno ▸ (hinv.live _ hj).1)
      (fun no' hno' hne => (ht.other no' hno' hne).obj) hdir htype⟩
  | truncated hj hno hdir hs ht htype =>
    exact Or.inr ⟨_, rfl, step_write hs (hno ▸ (hinv.live _ hj).1) ht.other hdir htype⟩
  | @created D D' I I' d name type j no hd hdir htype helem hfind hc =>
    obtain ⟨dirent, hnames, heq⟩ := hc.ns_eq hinv hd
    refine Or.inr ⟨_, rfl, ?_⟩
    simp only [FsState.ns, heq]
    have hobjd : (Oslab.ns D I).objs d = obj D d := objs_of_lt hd
    have hobjno : (Oslab.ns D I).objs no = obj D no := objs_of_lt hc.lt
    refine .create ?_ hc.pos hc.lt ?_ ?_ htype helem ?_ hnames ?_
    · rw [Ns.Dir, hobjd, hdir]
    · rw [hobjno, hc.free]
    · rw [hobjno, hinv.free no hc.lt hc.free]
    · rw [hobjd, hfind]
    · rw [hobjno]
      exact hc.child
  | @unlinked D D' I I' d e t k hd hn hempty hk hkt hm hother hput hplace =>
    refine Or.inr ⟨_, rfl, ?_⟩
    have hobjs : objs D' = Function.update (objs D) d ((objs D d).put e .zero) :=
      objs_update hd (by rw [hput, objs_of_lt hd]) fun no' hno' hne => (hother no' hno' hne).obj
    have hsame : Oslab.ns D' I' = ⟨objs D', (Oslab.ns D I).live,
        insert t (Oslab.ns D I).removed⟩ := by
      have := hm.ns_eq (D := D) hk hkt
      ext1
      · rfl
      · exact (congrArg Ns.live this :)
      · exact (congrArg Ns.removed this :)
    simp only [FsState.ns, hsame, hobjs]
    exact .remove hn hempty ⟨k, hk, hkt⟩

/-! ### Runs of effects -/

/-- The disk and the inode table under effects. -/
def fsLts : Lts FsState FsEvent where
  init s := FsInv s.1 s.2 ∧ s.ns.Inv
  step s ev s' := Effect s ev s' ∧ FsInv s'.1 s'.2

/-- What an operation that returns has done. -/
abbrev Effects : FsState → List FsEvent → FsState → Prop := fsLts.Run

variable {st st' : FsState} {ev : FsEvent} {evs : List FsEvent} {p : InodePtr}

theorem Effects.single (h : Effect st ev st') (hinv : FsInv st'.1 st'.2) : Effects st [ev] st' :=
  Lts.Run.single ⟨h, hinv⟩

/-- Every state of a run of effects meets both invariants. -/
theorem Effects.invariant (h : Effects st evs st') (hinv : FsInv st.1 st.2) (hns : st.ns.Inv) :
    FsInv st'.1 st'.2 ∧ st'.ns.Inv := by
  refine Lts.Run.invariant (fun s => FsInv s.1 s.2 ∧ s.ns.Inv) ?_ h ⟨hinv, hns⟩
  rintro s ev s' ⟨hinv, hns⟩ ⟨heff, hinv'⟩
  refine ⟨hinv', ?_⟩
  rcases heff.ns hinv with heq | ⟨e, -, hstep⟩
  · rw [heq]
    exact hns
  · exact hstep.inv hns

/-- What the events of a run of effects keep, the run keeps. -/
theorem Effects.keep (P : Ns → Prop) (h : Effects st evs st') (hinv : FsInv st.1 st.2)
    (hns : st.ns.Inv) (hP : P st.ns)
    (hstep : ∀ ev ∈ evs, ∀ s e s', ev.toNs = some e → s.Inv → P s → Ns.Step s e s' → P s') :
    P st'.ns := by
  induction h with
  | refl => exact hP
  | @tail t u evs ev hrun hlast ih =>
    have hmid := ih fun e he => hstep e (List.mem_append_left _ he)
    obtain ⟨hinv', hns'⟩ := Effects.invariant hrun hinv hns
    rcases hlast.1.ns hinv' with heq | ⟨e, he, hone⟩
    · rw [heq]
      exact hmid
    · exact hstep ev (by simp) _ e _ he hns' hmid hone

/-- The references slot `p` gets. -/
def FsEvent.refs (p : InodePtr) : FsEvent → ℤ
  | .opened j _ => if j = p then 1 else 0
  | .closed j _ => if j = p then -1 else 0
  | .created _ _ _ j _ => if j = p then 1 else 0
  | _ => 0

theorem Effect.ref_eq (h : Effect st ev st') (p : InodePtr) :
    (st'.2 p).ref = (st.2 p).ref + ev.refs p := by
  have hup {I I' : InodePtr → Inode} {j : InodePtr} {no : ℕ} (ho : Opened I I' j no) :
      (I' p).ref = (I p).ref + if j = p then 1 else 0 := by
    split
    case isTrue hjp => exact hjp ▸ ho.ref
    case isFalse hjp => rw [(ho.others p (Ne.symm hjp)).1, add_zero]
  have hdown {I I' : InodePtr → Inode} {j : InodePtr} (hc : Closed I I' j) :
      (I' p).ref = (I p).ref + if j = p then -1 else 0 := by
    split
    case isTrue hjp => exact hjp ▸ hc.ref
    case isFalse hjp => rw [(hc.others p (Ne.symm hjp)).1, add_zero]
  cases h with
  | grow hg => exact (hg.slots p).1.trans (add_zero _).symm
  | opened _ _ ho _ => exact hup ho
  | closed _ _ _ hc => exact hdown hc
  | freed _ _ _ hc _ => exact hdown hc
  | wrote _ _ _ ht _ => exact (ht.slots p).1.trans (add_zero _).symm
  | truncated _ _ _ hs _ _ => exact (hs p).1.trans (add_zero _).symm
  | created _ _ _ _ _ hc => exact hup hc.opened
  | unlinked _ _ _ _ _ hm _ _ _ => exact ((hm p).1).trans (add_zero _).symm

/-- A slot in use before and after an effect holds the same inode, of the same type. -/
theorem Effect.slot_eq (h : Effect st ev st') (hinv : FsInv st.1 st.2) (hp : 0 < (st.2 p).ref)
    (hp' : 0 < (st'.2 p).ref) : (st'.2 p).no = (st.2 p).no ∧
      ((obj st.1 (st.2 p).no).type ≠ TYPE_NONE →
        (obj st'.1 (st.2 p).no).type = (obj st.1 (st.2 p).no).type) := by
  have hlt := (hinv.live p hp).1
  cases h with
  | grow hg =>
    exact ⟨hg.slots.no_eq hp, fun _ => by rw [(hg.kept _ hlt).obj]⟩
  | @opened D D' I I' j no _ _ ho hk =>
    refine ⟨?_, fun _ => by rw [(hk _ hlt).obj]⟩
    by_cases hpj : p = j
    · rw [hpj] at hp ⊢
      exact ho.ino.trans (ho.old hp).1.symm
    · exact ((ho.others p hpj).2 hp).1
  | @closed D I I' j no _ _ _ hc =>
    refine ⟨?_, fun _ => rfl⟩
    by_cases hpj : p = j
    · rw [hpj] at hp hp' ⊢
      have := hc.ref
      exact (hc.self (by simp only at *; omega)).1
    · exact ((hc.others p hpj).2 hp).1
  | @freed D D' I I' j no hone hno _ hc hr =>
    -- a slot that is freed is not in use any more
    have hpj : p ≠ j := by
      rintro rfl
      have := hc.ref
      simp only at *
      omega
    obtain ⟨hsame, -⟩ := (hc.others p hpj).2 hp
    refine ⟨hsame, fun _ => ?_⟩
    have hne : (I p).no ≠ no := fun heq =>
      hpj (hinv.uniq p j hp (by simp only; omega) (heq.trans hno.symm))
    exact congrArg Obj.type (hr.other _ hlt hne)
  | @wrote D D' I I' j no _ _ _ ht htype =>
    refine ⟨ht.slots.no_eq hp, fun _ => ?_⟩
    by_cases hne : (I p).no = no
    · simp only [hne]
      exact htype
    · exact congrArg Obj.type (ht.other _ hlt hne).obj
  | @truncated D D' I I' j no _ _ _ hs ht htype =>
    refine ⟨hs.no_eq hp, fun _ => ?_⟩
    by_cases hne : (I p).no = no
    · simp only [hne]
      exact htype
    · exact congrArg Obj.type (ht.other _ hlt hne)
  | @created D D' I I' d name type j no hd _ _ _ _ hc =>
    constructor
    · by_cases hpj : p = j
      · rw [hpj] at hp ⊢
        exact hc.opened.ino.trans (hc.opened.old hp).1.symm
      · exact ((hc.opened.others p hpj).2 hp).1
    · intro htype
      have hne : (I p).no ≠ no := fun heq => htype (by simp only [heq]; exact hc.free)
      by_cases hpd : (I p).no = d
      · obtain ⟨dirent, -, hput⟩ := hc.parent
        simp only [hpd, hput]
        rfl
      · exact congrArg Obj.type (hc.other _ hlt hpd hne)
  | @unlinked D D' I I' d e t k _ _ _ _ _ hm hother hput _ =>
    refine ⟨((hm p).2 hp).1, fun _ => ?_⟩
    by_cases hpd : (I p).no = d
    · simp only [hpd, hput]
      rfl
    · exact congrArg Obj.type (hother _ hlt hpd).obj

/-- The effect gives a slot a reference. -/
def FsEvent.opens : FsEvent → Bool
  | .opened .. | .created .. => true
  | _ => false

/-- The effect takes a reference from a slot. -/
def FsEvent.closes : FsEvent → Bool
  | .closed .. => true
  | _ => false

/-- References are given before any is taken. -/
def Tidy (evs : List FsEvent) : Prop :=
  ∃ as bs, evs = as ++ bs ∧ (∀ ev ∈ as, ev.closes = false) ∧ ∀ ev ∈ bs, ev.opens = false

theorem FsEvent.refs_nonneg (h : ev.closes = false) (p : InodePtr) : 0 ≤ ev.refs p := by
  cases ev with
  | closed => cases h
  | grow | wrote | unlinked => exact le_rfl
  | opened | created =>
    simp only [refs]
    split <;> norm_num

theorem FsEvent.refs_nonpos (h : ev.opens = false) (p : InodePtr) : ev.refs p ≤ 0 := by
  cases ev with
  | opened | created => cases h
  | grow | wrote | unlinked => exact le_rfl
  | closed =>
    simp only [refs]
    split <;> norm_num

theorem Effects.ref_eq (h : Effects st evs st') (p : InodePtr) :
    (st'.2 p).ref = (st.2 p).ref + (evs.map (FsEvent.refs p)).sum := by
  induction h with
  | refl => simp
  | @tail st₁ st₂ evs ev hrun hstep ih =>
    rw [hstep.1.ref_eq, ih, List.map_append, List.sum_append, List.map_singleton,
      List.sum_singleton, add_assoc]

theorem Effects.fsInv (h : Effects st evs st') (hinv : FsInv st.1 st.2) : FsInv st'.1 st'.2 :=
  Lts.Run.invariant (S := fsLts) (fun s => FsInv s.1 s.2) (fun _ _ _ _ hstep => hstep.2) h hinv

/-- The slot holds the same inode, of the same type. -/
def SameSlot (st st' : FsState) (p : InodePtr) : Prop := (st'.2 p).no = (st.2 p).no ∧
  ((obj st.1 (st.2 p).no).type ≠ TYPE_NONE →
    (obj st'.1 (st.2 p).no).type = (obj st.1 (st.2 p).no).type)

theorem SameSlot.refl (st : FsState) (p : InodePtr) : SameSlot st st p := ⟨rfl, fun _ => rfl⟩

theorem SameSlot.trans {st'' : FsState} (h : SameSlot st st' p) (h' : SameSlot st' st'' p) :
    SameSlot st st'' p := by
  obtain ⟨hno, htype⟩ := h
  obtain ⟨hno', htype'⟩ := h'
  rw [hno] at htype' hno'
  refine ⟨hno', fun hne => ?_⟩
  have heq := htype hne
  rw [htype' (by rw [heq]; exact hne), heq]

section Between

variable {R : FsState → FsState → Prop}

theorem Effects.between_opens (hrefl : ∀ s, R s s) (htrans : ∀ s t u, R s t → R t u → R s u)
    (h : Effects st evs st') (hinv : FsInv st.1 st.2)
    (hone : ∀ ev ∈ evs, ∀ s s', Effect s ev s' → FsInv s.1 s.2 → 0 < (s.2 p).ref →
      0 < (s'.2 p).ref → R s s')
    (hevs : ∀ ev ∈ evs, ev.closes = false) (hp : 0 < (st.2 p).ref) :
    0 < (st'.2 p).ref ∧ R st st' := by
  induction h with
  | refl => exact ⟨hp, hrefl _⟩
  | @tail st₁ st₂ evs ev hrun hstep ih =>
    obtain ⟨hp₁, hsame⟩ := ih (fun ev hev => hone ev (List.mem_append_left _ hev))
      fun ev hev => hevs ev (List.mem_append_left _ hev)
    have href := hstep.1.ref_eq p
    have hle := FsEvent.refs_nonneg (hevs ev (by simp)) p
    have hp₂ : 0 < (st₂.2 p).ref := by omega
    exact ⟨hp₂, htrans _ _ _ hsame
      (hone ev (by simp) _ _ hstep.1 (Effects.fsInv hrun hinv) hp₁ hp₂)⟩

theorem Effects.between_closes (hrefl : ∀ s, R s s) (htrans : ∀ s t u, R s t → R t u → R s u)
    (h : Effects st evs st') (hinv : FsInv st.1 st.2)
    (hone : ∀ ev ∈ evs, ∀ s s', Effect s ev s' → FsInv s.1 s.2 → 0 < (s.2 p).ref →
      0 < (s'.2 p).ref → R s s')
    (hevs : ∀ ev ∈ evs, ev.opens = false) (hp : 0 < (st'.2 p).ref) :
    0 < (st.2 p).ref ∧ R st st' := by
  induction h with
  | refl => exact ⟨hp, hrefl _⟩
  | @tail st₁ st₂ evs ev hrun hstep ih =>
    have href := hstep.1.ref_eq p
    have hle := FsEvent.refs_nonpos (hevs ev (by simp)) p
    have hp₁ : 0 < (st₁.2 p).ref := by omega
    obtain ⟨hp₀, hsame⟩ := ih (fun ev hev => hone ev (List.mem_append_left _ hev))
      (fun ev hev => hevs ev (List.mem_append_left _ hev)) hp₁
    exact ⟨hp₀, htrans _ _ _ hsame
      (hone ev (by simp) _ _ hstep.1 (Effects.fsInv hrun hinv) hp₁ hp)⟩

/-- A slot in use before and after an operation is in use all the time: what its effects keep
while it is, the operation keeps. -/
theorem Effects.between (hrefl : ∀ s, R s s) (htrans : ∀ s t u, R s t → R t u → R s u)
    (h : Effects st evs st') (ht : Tidy evs) (hinv : FsInv st.1 st.2)
    (hone : ∀ ev ∈ evs, ∀ s s', Effect s ev s' → FsInv s.1 s.2 → 0 < (s.2 p).ref →
      0 < (s'.2 p).ref → R s s')
    (hp : 0 < (st.2 p).ref) (hp' : 0 < (st'.2 p).ref) : R st st' := by
  obtain ⟨as, bs, rfl, has, hbs⟩ := ht
  obtain ⟨st₁, h₁, h₂⟩ := Lts.Run.of_append h
  have hleft := (Effects.between_opens hrefl htrans h₁ hinv
    (fun ev hev => hone ev (List.mem_append_left _ hev)) has hp).2
  have hright := (Effects.between_closes hrefl htrans h₂ (Effects.fsInv h₁ hinv)
    (fun ev hev => hone ev (List.mem_append_right _ hev)) hbs hp').2
  exact htrans _ _ _ hleft hright

end Between

/-- A slot in use before and after an operation holds the same inode, of the same type. -/
theorem Effects.slot_eq (h : Effects st evs st') (ht : Tidy evs) (hinv : FsInv st.1 st.2)
    (hp : 0 < (st.2 p).ref) (hp' : 0 < (st'.2 p).ref) : SameSlot st st' p :=
  Effects.between (R := (SameSlot · · p)) (SameSlot.refl · p) (fun _ _ _ => SameSlot.trans) h ht hinv
    (fun _ _ _ _ heff hinv hp hp' => heff.slot_eq hinv hp hp') hp hp'

/-- An effect that does not write a file in use leaves it as it is. -/
theorem Effect.file_eq (h : Effect st ev st') (hinv : FsInv st.1 st.2) (hp : 0 < (st.2 p).ref)
    (hp' : 0 < (st'.2 p).ref) (htype : (obj st.1 (st.2 p).no).type = TYPE_FILE)
    (hev : ev ≠ .wrote (st.2 p).no) : obj st'.1 (st.2 p).no = obj st.1 (st.2 p).no := by
  have hlt := (hinv.live p hp).1
  cases h with
  | grow hg => exact (hg.kept _ hlt).obj
  | opened _ _ _ hk => exact (hk _ hlt).obj
  | closed => rfl
  | @freed D D' I I' j no hone hno _ hc hr =>
    -- the slot that is freed is another one
    have hpj : p ≠ j := by
      rintro rfl
      have href := hc.ref
      simp only at *
      omega
    exact hr.other _ hlt fun heq => hpj (hinv.uniq p j hp (by simp only; omega) (heq.trans hno.symm))
  | wrote _ _ _ ht _ => exact (ht.other _ hlt fun heq => hev (by rw [heq])).obj
  | truncated _ _ _ _ ht _ => exact ht.other _ hlt fun heq => hev (by rw [heq])
  | @created D D' I I' d name type j no _ hdir _ _ _ hc =>
    have hfile : (obj D (I p).no).type = TYPE_FILE := htype
    refine hc.other _ hlt (fun heq => ?_) fun heq => ?_
    · rw [heq, hdir] at hfile
      cases hfile
    · rw [heq, hc.free] at hfile
      cases hfile
  | @unlinked D D' I I' d e t k hd hn _ _ _ _ hother _ _ =>
    have hfile : (obj D (I p).no).type = TYPE_FILE := htype
    refine (hother _ hlt fun heq => ?_).obj
    rw [heq, (dir_ns hd).mp hn.dir] at hfile
    cases hfile

/-- The slot holds the same inode, and if this is a file, it is the same file. -/
def SameFile (st st' : FsState) (p : InodePtr) : Prop := SameSlot st st' p ∧
  ((obj st.1 (st.2 p).no).type = TYPE_FILE → obj st'.1 (st.2 p).no = obj st.1 (st.2 p).no)

theorem SameFile.trans {st'' : FsState} (h : SameFile st st' p) (h' : SameFile st' st'' p) :
    SameFile st st'' p := by
  refine ⟨h.1.trans h'.1, fun htype => ?_⟩
  have hfile := h.2 htype
  have hfile' := h'.2
  rw [h.1.1, hfile] at hfile'
  exact hfile' htype

/-- A file in use before and after an operation that does not write it is the same. -/
theorem Effects.file_eq (h : Effects st evs st') (ht : Tidy evs) (hinv : FsInv st.1 st.2)
    (hp : 0 < (st.2 p).ref) (hp' : 0 < (st'.2 p).ref)
    (hevs : ∀ ev ∈ evs, ev ≠ .wrote (st.2 p).no) : SameFile st st' p := by
  have hall := Effects.between (p := p)
    (R := fun s s' => (s.2 p).no = (st.2 p).no → (s'.2 p).no = (st.2 p).no ∧ SameFile s s' p)
    (fun s hs => ⟨hs, SameSlot.refl s p, fun _ => rfl⟩)
    (fun s t u hst htu hs => ⟨(htu (hst hs).1).1, (hst hs).2.trans (htu (hst hs).1).2⟩)
    h ht hinv (fun ev hev s s' heff hs hsp hsp' hsame => ?_) hp hp'
  · exact (hall rfl).2
  · have hslot := heff.slot_eq hs hsp hsp'
    refine ⟨hslot.1.trans hsame, hslot, fun htype => heff.file_eq hs hsp hsp' htype ?_⟩
    rw [hsame]
    exact hevs ev hev

end Oslab
