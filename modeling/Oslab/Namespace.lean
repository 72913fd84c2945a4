/-
# The namespace

What the file system is for, without disk and slots: a map from inode numbers to
objects, the numbers that are held open, and those of them that have been
removed. Six events change it. The invariant says how directories hang together;
it holds whatever the order of the events. Three further properties hold when
the events keep to a discipline: names are distinct, every object is named or
removed, and no directory lies below a removed one.
-/
import Oslab.DirSpec

namespace Oslab

open Lib

/-- Objects, the inode numbers in use, and those removed while in use. -/
@[ext] structure Ns where
  objs : ℕ → Obj
  live : Set ℕ
  removed : Set ℕ

/-- What happens to a namespace. -/
inductive NsEvent
  /-- an inode is held -/
  | hold (no : ℕ)
  /-- the last reference to an inode is dropped -/
  | drop (no : ℕ)
  /-- a file or a device changes -/
  | write (no : ℕ)
  /-- inode `no` is made and entered in directory `d` -/
  | create (d : ℕ) (name : List UInt8) (type : UInt32) (no : ℕ)
  /-- entry `e` of directory `d`, which names `t`, is cleared -/
  | unlink (d e t : ℕ)

namespace Ns

variable {s s' : Ns} {d d' e e' t no : ℕ} {name : List UInt8}

/-- `d` is a directory. -/
def Dir (s : Ns) (d : ℕ) : Prop := (s.objs d).type = TYPE_DIR

/-- Entry `e` of directory `d`, not `.` or `..`, names `t`. -/
structure Named (s : Ns) (d e t : ℕ) : Prop where
  dir : s.Dir d
  two : 2 ≤ e
  lt : e < (s.objs d).count
  target : (s.objs d).target e = t
  ne : t ≠ 0

/-- A directory has no entries but `.` and `..`. -/
def Empty (s : Ns) (d : ℕ) : Prop := ∀ e, 2 ≤ e → e < (s.objs d).count → (s.objs d).target e = 0

/-- The directory an entry `..` names. -/
def up (s : Ns) (d : ℕ) : ℕ := (s.objs d).target 1

/-- The entries every directory has, and how the others are stored. -/
structure Shape (o : Obj) (d : ℕ) : Prop where
  dvd : 32 ∣ o.size
  two : 2 ≤ o.count
  dot : o.target 0 = d
  dotName : o.label 0 = DOT
  dotdotName : o.label 1 = DOTDOT
  ends : ∀ e < o.count, o.target e ≠ 0 → (0 : UInt8) ∈ (o.entry e).name

/-- How directories hang together. -/
structure Inv (s : Ns) : Prop where
  root : s.Dir 1
  zero : (s.objs 0).type = TYPE_NONE
  out : ∀ no, 1920 ≤ no → (s.objs no).type = TYPE_NONE
  shape : ∀ d, s.Dir d → Shape (s.objs d) d
  upRange : ∀ d, s.Dir d → 1 ≤ s.up d ∧ s.up d < 1920
  upRoot : s.up 1 = 1
  named : ∀ d e t, s.Named d e t → t ≠ 1 ∧ (s.objs t).type ≠ TYPE_NONE ∧ t ∉ s.removed
  uniq : ∀ d e d' e' t, s.Named d e t → s.Named d' e' t → d = d' ∧ e = e'
  parent : ∀ d e t, s.Named d e t → s.Dir t → s.up t = d
  range : ∀ no ∈ s.live, 1 ≤ no ∧ no < 1920
  sub : s.removed ⊆ s.live
  kept : ∀ no ∈ s.removed, (s.objs no).type ≠ TYPE_NONE ∧ no ≠ 1

/-- The namespace after inode `no` has been entered in directory `d`. -/
def made (s : Ns) (d : ℕ) (dirent : Dirent) (no : ℕ) (o : Obj) : Ns :=
  ⟨Function.update (Function.update s.objs d ((s.objs d).put (s.objs d).hole dirent)) no o,
    insert no s.live, s.removed⟩

/-- One event. -/
inductive Step : Ns → NsEvent → Ns → Prop
  | hold {s : Ns} {no : ℕ} : 1 ≤ no → no < 1920 →
      Step s (.hold no) { s with live := insert no s.live }
  | drop {s : Ns} {no : ℕ} : no ∈ s.live → no ∉ s.removed →
      Step s (.drop no) { s with live := s.live \ {no} }
  | free {s : Ns} {no : ℕ} : no ∈ s.removed →
      Step s (.drop no) ⟨Function.update s.objs no .free, s.live \ {no}, s.removed \ {no}⟩
  | write {s : Ns} {no : ℕ} {o : Obj} : ¬ s.Dir no → o.type = (s.objs no).type →
      Step s (.write no) { s with objs := Function.update s.objs no o }
  | create {s : Ns} {d no : ℕ} {name : List UInt8} {type : UInt32} {dirent : Dirent} {o : Obj} :
      s.Dir d → 1 ≤ no → no < 1920 → (s.objs no).type = TYPE_NONE → (s.objs no).size = 0 →
      type ≠ TYPE_NONE → Elem name → (s.objs d).find name = none → dirent.Names no name →
      NewObj (s.objs no) type no d o →
      Step s (.create d name type no) (s.made d dirent no o)
  | remove {s : Ns} {d e t : ℕ} : s.Named d e t → (s.Dir t → s.Empty t) → t ∈ s.live →
      Step s (.unlink d e t)
        ⟨Function.update s.objs d ((s.objs d).put e .zero), s.live, insert t s.removed⟩

/-! ### The invariant -/

theorem Inv.hole_ge (h : s.Inv) (hd : s.Dir d) : 2 ≤ (s.objs d).hole := by
  have hshape := h.shape d hd
  by_contra hlt
  have htwo := hshape.two
  have hzero := Obj.target_hole (o := s.objs d) (by omega)
  have hd0 : d ≠ 0 := by
    rintro rfl
    rw [Dir, h.zero] at hd
    cases hd
  rcases (show (s.objs d).hole = 0 ∨ (s.objs d).hole = 1 by omega) with h0 | h1
  · rw [h0, hshape.dot] at hzero
    exact hd0 hzero
  · rw [h1] at hzero
    have := (h.upRange d hd).1
    rw [up, hzero] at this
    omega

/-- Replacing an object that is no directory, by one that is none, leaves the entries. -/
theorem named_update {o : Obj} {live removed : Set ℕ} (ho : o.type ≠ TYPE_DIR)
    (h : Named ⟨Function.update s.objs no o, live, removed⟩ d e t) : d ≠ no ∧ s.Named d e t := by
  have hne : d ≠ no := by
    rintro rfl
    have := h.dir
    simp only [Dir, Function.update_self] at this
    exact ho this
  obtain ⟨hdir, htwo, hlt, htarget, hz⟩ := h
  simp only [Dir, Function.update_of_ne hne] at hdir hlt htarget
  exact ⟨hne, hdir, htwo, hlt, htarget, hz⟩

theorem Inv.free (h : s.Inv) (hno : no ∈ s.removed) :
    Inv ⟨Function.update s.objs no .free, s.live \ {no}, s.removed \ {no}⟩ := by
  have hone : no ≠ 1 := (h.kept no hno).2
  have hdir {d : ℕ} (hd : Dir ⟨Function.update s.objs no .free, s.live \ {no},
      s.removed \ {no}⟩ d) : d ≠ no ∧ s.Dir d := by
    have hne : d ≠ no := by
      rintro rfl
      simp only [Dir, Function.update_self] at hd
      cases hd
    simp only [Dir, Function.update_of_ne hne] at hd
    exact ⟨hne, hd⟩
  have hother {d : ℕ} (hne : d ≠ no) : Function.update s.objs no .free d = s.objs d :=
    Function.update_of_ne hne _ _
  have htype (x : ℕ) (hx : (s.objs x).type = TYPE_NONE) :
      (Function.update s.objs no .free x).type = TYPE_NONE := by
    by_cases hne : x = no
    · rw [hne, Function.update_self]
      rfl
    · rw [hother hne, hx]
  refine ⟨?_, htype 0 h.zero, fun x hx => htype x (h.out x hx), fun d hd => ?_, fun d hd => ?_, ?_,
    fun d e t ht => ?_, fun d e d' e' t ht ht' => ?_, fun d e t ht htd => ?_, ?_, ?_, ?_⟩
  · simp only [Dir, hother (Ne.symm hone)]
    exact h.root
  · obtain ⟨hne, hd⟩ := hdir hd
    simp only [hother hne]
    exact h.shape d hd
  · obtain ⟨hne, hd⟩ := hdir hd
    simp only [up, hother hne]
    exact h.upRange d hd
  · simp only [up, hother (Ne.symm hone)]
    exact h.upRoot
  · obtain ⟨-, ht⟩ := named_update (by decide) ht
    obtain ⟨h₁, h₂, h₃⟩ := h.named d e t ht
    have hne : t ≠ no := fun heq => h₃ (heq ▸ hno)
    simp only [hother hne]
    exact ⟨h₁, h₂, fun hmem => h₃ hmem.1⟩
  · exact h.uniq d e d' e' t (named_update (by decide) ht).2 (named_update (by decide) ht').2
  · obtain ⟨hne, htd⟩ := hdir htd
    simp only [up, hother hne]
    exact h.parent d e t (named_update (by decide) ht).2 htd
  · exact fun x hx => h.range x hx.1
  · exact fun x hx => ⟨h.sub hx.1, hx.2⟩
  · intro x hx
    have hne : x ≠ no := fun heq => hx.2 heq
    simp only [hother hne]
    exact h.kept x hx.1

theorem Inv.write (h : s.Inv) {o : Obj} (hno : ¬ s.Dir no) (ho : o.type = (s.objs no).type) :
    Inv { s with objs := Function.update s.objs no o } := by
  have htype (x : ℕ) : (Function.update s.objs no o x).type = (s.objs x).type := by
    by_cases hne : x = no
    · rw [hne, Function.update_self, ho]
    · rw [Function.update_of_ne hne]
  have hdir (d : ℕ) : Dir { s with objs := Function.update s.objs no o } d ↔ s.Dir d := by
    rw [Dir, Dir, htype]
  have hother {d : ℕ} (hd : s.Dir d) : Function.update s.objs no o d = s.objs d :=
    Function.update_of_ne (fun heq : d = no => hno (heq ▸ hd)) _ _
  have hnd : o.type ≠ TYPE_DIR := by
    rw [ho]
    exact hno
  refine ⟨(hdir 1).mpr h.root, (htype 0).trans h.zero, fun x hx => (htype x).trans (h.out x hx),
    fun d hd => ?_, fun d hd => ?_, ?_, fun d e t ht => ?_, fun d e d' e' t ht ht' => ?_,
    fun d e t ht htd => ?_, h.range, h.sub, fun x hx => ?_⟩
  · rw [hdir] at hd
    simp only [hother hd]
    exact h.shape d hd
  · rw [hdir] at hd
    simp only [up, hother hd]
    exact h.upRange d hd
  · simp only [up, hother h.root]
    exact h.upRoot
  · simp only [htype]
    exact h.named d e t (named_update hnd ht).2
  · exact h.uniq d e d' e' t (named_update hnd ht).2 (named_update hnd ht').2
  · rw [hdir] at htd
    simp only [up, hother htd]
    exact h.parent d e t (named_update hnd ht).2 htd
  · simp only [htype]
    exact h.kept x hx

/-- The entries after one of them has been cleared. -/
theorem named_clear {live removed : Set ℕ} (hshape : Shape (s.objs d) d) (he : e < (s.objs d).count)
    (h : Named ⟨Function.update s.objs d ((s.objs d).put e .zero), live, removed⟩ d' e' t) :
    s.Named d' e' t ∧ ¬ (d' = d ∧ e' = e) := by
  obtain ⟨hdir, htwo, hlt, htarget, hz⟩ := h
  by_cases hd : d' = d
  · subst hd
    simp only [Dir, Function.update_self] at hdir hlt htarget
    have hcount : ((s.objs d').put e .zero).count = (s.objs d').count := by
      rw [Obj.count_put hshape.dvd]
      omega
    have hne : e' ≠ e := by
      rintro rfl
      rw [Obj.target_put_self (by simp [Dirent.zero])] at htarget
      exact hz (htarget.symm.trans rfl)
    rw [hcount] at hlt
    rw [Obj.target_put_of_ne (by simp [Dirent.zero]) hne] at htarget
    exact ⟨⟨hdir, htwo, hlt, htarget, hz⟩, fun hc => hne hc.2⟩
  · simp only [Dir, Function.update_of_ne hd] at hdir hlt htarget
    exact ⟨⟨hdir, htwo, hlt, htarget, hz⟩, fun hc => hd hc.1⟩

theorem Shape.clear {o : Obj} (h : Shape o d) (htwo : 2 ≤ e) (he : e < o.count) :
    Shape (o.put e .zero) d := by
  have hlen : Dirent.zero.name.length = 28 := by simp [Dirent.zero]
  have hcount : (o.put e .zero).count = o.count := by
    rw [Obj.count_put h.dvd]
    omega
  refine ⟨Obj.size_put_dvd h.dvd, by rw [hcount]; exact h.two, ?_, ?_, ?_, fun e' he' hz => ?_⟩
  · rw [Obj.target_put_of_ne hlen (by omega), h.dot]
  · rw [Obj.label_put_of_ne hlen (by omega), h.dotName]
  · rw [Obj.label_put_of_ne hlen (by omega), h.dotdotName]
  · have hne : e' ≠ e := by
      rintro rfl
      rw [Obj.target_put_self hlen] at hz
      exact hz rfl
    rw [hcount] at he'
    rw [Obj.target_put_of_ne hlen hne] at hz
    rw [Obj.entry_put_of_ne hlen hne]
    exact h.ends e' he' hz

/-- An entry cleared: what it named is held and marked, or nobody holds it. -/
theorem Inv.clear (h : s.Inv) (ht : s.Named d e t) (htl : t ∈ s.live) :
    Inv ⟨Function.update s.objs d ((s.objs d).put e .zero), s.live, insert t s.removed⟩ := by
  have hlen : Dirent.zero.name.length = 28 := by simp [Dirent.zero]
  have hshape := h.shape d ht.dir
  have htype (x : ℕ) : (Function.update s.objs d ((s.objs d).put e .zero) x).type =
      (s.objs x).type := by
    by_cases hne : x = d
    · rw [hne, Function.update_self]
      rfl
    · rw [Function.update_of_ne hne]
  have hdir (x : ℕ) : Dir ⟨Function.update s.objs d ((s.objs d).put e .zero), s.live,
      insert t s.removed⟩ x ↔ s.Dir x := by rw [Dir, Dir, htype]
  have hup (x : ℕ) : up ⟨Function.update s.objs d ((s.objs d).put e .zero), s.live,
      insert t s.removed⟩ x = s.up x := by
    by_cases hne : x = d
    · have htwo := ht.two
      simp only [up, hne, Function.update_self]
      exact Obj.target_put_of_ne hlen (by omega)
    · simp only [up, Function.update_of_ne hne]
  have hnamed {x y z : ℕ} (hn : Named ⟨Function.update s.objs d ((s.objs d).put e .zero), s.live,
      insert t s.removed⟩ x y z) := named_clear hshape ht.lt hn
  -- types and parents stay, and an entry of the new state is another one of the old
  refine ⟨(hdir 1).mpr h.root, (htype 0).trans h.zero, fun x hx => (htype x).trans (h.out x hx),
    fun x hx => ?_, fun x hx => ?_, (hup 1).trans h.upRoot, fun x y z hn => ?_,
    fun x y x' y' z hn hn' => ?_, fun x y z hn hz => ?_, h.range, ?_, fun x hx => ?_⟩
  · rw [hdir] at hx
    by_cases hne : x = d
    · simp only [hne, Function.update_self]
      exact hshape.clear ht.two ht.lt
    · simp only [Function.update_of_ne hne]
      exact h.shape x hx
  · rw [hdir] at hx
    rw [hup]
    exact h.upRange x hx
  · obtain ⟨hold, hne⟩ := hnamed hn
    obtain ⟨h₁, h₂, h₃⟩ := h.named x y z hold
    refine ⟨h₁, by simp only [htype]; exact h₂, ?_⟩
    rintro (hz | hz)
    · exact hne (h.uniq x y d e z hold (hz ▸ ht))
    · exact h₃ hz
  · exact h.uniq x y x' y' z (hnamed hn).1 (hnamed hn').1
  · rw [hdir] at hz
    rw [hup]
    exact h.parent x y z (hnamed hn).1 hz
  · exact Set.insert_subset htl h.sub
  · simp only [htype]
    obtain ⟨h₁, h₂, -⟩ := h.named d e t ht
    rcases hx with rfl | hx
    · exact ⟨h₂, h₁⟩
    · exact h.kept x hx

theorem Inv.hold (h : s.Inv) (hpos : 1 ≤ no) (hlt : no < 1920) :
    Inv { s with live := insert no s.live } :=
  ⟨h.root, h.zero, h.out, h.shape, h.upRange, h.upRoot,
    fun d e t ht => h.named d e t ⟨ht.1, ht.2, ht.3, ht.4, ht.5⟩,
    fun d e d' e' t ht ht' => h.uniq d e d' e' t ⟨ht.1, ht.2, ht.3, ht.4, ht.5⟩
      ⟨ht'.1, ht'.2, ht'.3, ht'.4, ht'.5⟩,
    fun d e t ht htd => h.parent d e t ⟨ht.1, ht.2, ht.3, ht.4, ht.5⟩ htd,
    fun x hx => by
      rcases hx with rfl | hx
      · exact ⟨hpos, hlt⟩
      · exact h.range x hx,
    h.sub.trans (Set.subset_insert _ _), h.kept⟩

theorem Inv.drop (h : s.Inv) (hno : no ∉ s.removed) : Inv { s with live := s.live \ {no} } :=
  ⟨h.root, h.zero, h.out, h.shape, h.upRange, h.upRoot,
    fun d e t ht => h.named d e t ⟨ht.1, ht.2, ht.3, ht.4, ht.5⟩,
    fun d e d' e' t ht ht' => h.uniq d e d' e' t ⟨ht.1, ht.2, ht.3, ht.4, ht.5⟩
      ⟨ht'.1, ht'.2, ht'.3, ht'.4, ht'.5⟩,
    fun d e t ht htd => h.parent d e t ⟨ht.1, ht.2, ht.3, ht.4, ht.5⟩ htd,
    fun x hx => h.range x hx.1,
    fun _ hx => ⟨h.sub hx, fun heq => hno (heq ▸ hx)⟩, h.kept⟩

theorem Inv.lt (h : s.Inv) (hno : (s.objs no).type ≠ TYPE_NONE) : 1 ≤ no ∧ no < 1920 := by
  constructor
  · by_contra hlt
    obtain rfl : no = 0 := by omega
    exact hno h.zero
  · by_contra hge
    exact hno (h.out no (by omega))

section Create

variable {type : UInt32} {dirent : Dirent} {o : Obj} {live removed : Set ℕ}

@[simp] theorem objs_made_new : (s.made d dirent no o).objs no = o := Function.update_self ..

theorem objs_made_dir (s : Ns) (dirent : Dirent) (o : Obj) (hne : d ≠ no) :
    (s.made d dirent no o).objs d = (s.objs d).put (s.objs d).hole dirent := by
  simp only [made, Function.update_of_ne hne, Function.update_self]

theorem objs_made_other {x : ℕ} (hd : x ≠ d) (hno : x ≠ no) :
    (s.made d dirent no o).objs x = s.objs x := by
  simp only [made, Function.update_of_ne hno, Function.update_of_ne hd]

/-- A new directory holds `.` and `..`. -/
theorem newObj_entries {o₀ : Obj} (h : NewObj o₀ TYPE_DIR no d o) (hsize : o₀.size = 0) :
    (o.entry 0).Names no DOT ∧ (o.entry 1).Names d DOTDOT ∧ o.count = 2 ∧ 32 ∣ o.size := by
  unfold NewObj at h
  rw [if_pos rfl] at h
  obtain ⟨dot, dotdot, hdot, hdotdot, rfl⟩ := h
  set p := ({ o₀ with type := TYPE_DIR } : Obj).put 0 dot with hp
  have hpsize : p.size = 32 := by simp [hp, Obj.put, hsize]
  have hdvd : 32 ∣ p.size := by rw [hpsize]
  refine ⟨?_, ?_, ?_, Obj.size_put_dvd hdvd⟩
  · rw [Obj.entry_put_of_ne hdotdot.length (by norm_num), hp, Obj.entry_put_self hdot.length]
    exact hdot
  · rw [Obj.entry_put_self hdotdot.length]
    exact hdotdot
  · rw [Obj.count_put hdvd, Obj.count, hpsize]
    rfl

theorem Shape.of_new {o₀ : Obj} (h : NewObj o₀ TYPE_DIR no d o) (hsize : o₀.size = 0) :
    Shape o no ∧ o.target 1 = d ∧ o.count = 2 := by
  obtain ⟨hdot, hdotdot, hcount, hdvd⟩ := newObj_entries h hsize
  refine ⟨⟨hdvd, hcount.ge, hdot.inode, hdot.label, hdotdot.label, fun e he _ => ?_⟩,
    hdotdot.inode, hcount⟩
  rcases (show e = 0 ∨ e = 1 by omega) with rfl | rfl
  · exact hdot.ends
  · exact hdotdot.ends

/-- A directory after an entry has been put in its first hole. -/
theorem Shape.put {o₀ : Obj} (h : Shape o₀ d) (hhole : 2 ≤ o₀.hole) (hdirent : dirent.Names no name) :
    Shape (o₀.put o₀.hole dirent) d := by
  have hlen := hdirent.length
  have hcount : (o₀.put o₀.hole dirent).count = max o₀.count (o₀.hole + 1) := Obj.count_put h.dvd
  refine ⟨Obj.size_put_dvd h.dvd, ?_, ?_, ?_, ?_, fun e he hz => ?_⟩
  · have := h.two
    omega
  · rw [Obj.target_put_of_ne hlen (by omega), h.dot]
  · rw [Obj.label_put_of_ne hlen (by omega), h.dotName]
  · rw [Obj.label_put_of_ne hlen (by omega), h.dotdotName]
  · by_cases hne : e = o₀.hole
    · rw [hne, Obj.entry_put_self hlen]
      exact hdirent.ends
    · have hle := o₀.hole_le
      rw [Obj.target_put_of_ne hlen hne] at hz
      rw [Obj.entry_put_of_ne hlen hne]
      exact h.ends e (by omega) hz

/-- The entries after a new one has been made. -/
theorem named_made (h : s.Inv) (hd : s.Dir d) (hfree : (s.objs no).type = TYPE_NONE)
    (hsize : (s.objs no).size = 0) (hdirent : dirent.Names no name)
    (ho : NewObj (s.objs no) type no d o) {x y z : ℕ} (hn : (s.made d dirent no o).Named x y z) :
    s.Named x y z ∨ (x = d ∧ y = (s.objs d).hole ∧ z = no) := by
  obtain ⟨hdir, htwo, hlt, htarget, hz⟩ := hn
  by_cases hxn : x = no
  · -- a new directory has no third entry
    subst hxn
    simp only [made, Dir, Function.update_self] at hdir hlt
    have htype := ho.type_eq
    rw [hdir] at htype
    subst htype
    have := (Shape.of_new ho hsize).2.2
    omega
  · by_cases hxd : x = d
    · subst hxd
      simp only [made, Dir, Function.update_of_ne hxn, Function.update_self] at hdir hlt htarget
      by_cases hy : y = (s.objs x).hole
      · subst hy
        rw [Obj.target_put_self hdirent.length, hdirent.inode] at htarget
        exact Or.inr ⟨rfl, rfl, htarget.symm⟩
      · rw [Obj.target_put_of_ne hdirent.length hy] at htarget
        rw [Obj.count_put (h.shape x hd).dvd] at hlt
        have hle := (s.objs x).hole_le
        exact Or.inl ⟨hdir, htwo, by omega, htarget, hz⟩
    · simp only [made, Dir, Function.update_of_ne hxn, Function.update_of_ne hxd] at hdir hlt htarget
      exact Or.inl ⟨hdir, htwo, hlt, htarget, hz⟩

theorem Inv.create (h : s.Inv) (hd : s.Dir d) (hpos : 1 ≤ no) (hlt : no < 1920)
    (hfree : (s.objs no).type = TYPE_NONE) (hsize : (s.objs no).size = 0)
    (htype : type ≠ TYPE_NONE) (hdirent : dirent.Names no name)
    (ho : NewObj (s.objs no) type no d o) : (s.made d dirent no o).Inv := by
  have hne : d ≠ no := by
    rintro rfl
    rw [Dir, hfree] at hd
    cases hd
  have hhole := h.hole_ge hd
  have hobjno : (s.made d dirent no o).objs no = o := objs_made_new
  have hobjd := objs_made_dir s dirent o hne
  have hobj (x : ℕ) (hxd : x ≠ d) (hxn : x ≠ no) : (s.made d dirent no o).objs x = s.objs x :=
    objs_made_other hxd hxn
  -- nothing but the new object changes its type or its parent
  have htypes (x : ℕ) (hxn : x ≠ no) : ((s.made d dirent no o).objs x).type = (s.objs x).type := by
    by_cases hxd : x = d
    · rw [hxd, hobjd]
      rfl
    · rw [hobj x hxd hxn]
  have hdir (x : ℕ) (hxn : x ≠ no) : (s.made d dirent no o).Dir x ↔ s.Dir x := by
    rw [Dir, Dir, htypes x hxn]
  have hup (x : ℕ) (hxn : x ≠ no) : (s.made d dirent no o).up x = s.up x := by
    by_cases hxd : x = d
    · rw [up, up, hxd, hobjd, Obj.target_put_of_ne hdirent.length (by omega)]
    · rw [up, up, hobj x hxd hxn]
  have hnew (hx : (s.made d dirent no o).Dir no) : NewObj (s.objs no) TYPE_DIR no d o := by
    rw [Dir, hobjno] at hx
    have := ho.type_eq
    rw [hx] at this
    rw [this]
    exact ho
  have hne1 : no ≠ 1 := by
    rintro rfl
    have := h.root
    rw [Dir, hfree] at this
    cases this
  have hnone (x y : ℕ) : ¬ s.Named x y no := fun hn => (h.named x y no hn).2.1 hfree
  have hnamed {x y z : ℕ} (hn : (s.made d dirent no o).Named x y z) :=
    named_made h hd hfree hsize hdirent ho hn
  -- an entry of the new state is an old one, or the one that names the new object
  refine ⟨(hdir 1 (Ne.symm hne1)).mpr h.root, ?_, fun x hx => ?_, fun x hx => ?_, fun x hx => ?_, ?_,
    fun x y z hn => ?_, fun x y x' y' z hn hn' => ?_, fun x y z hn hz => ?_, fun x hx => ?_, ?_,
    fun x hx => ?_⟩
  · rw [htypes 0 (by omega), h.zero]
  · rw [htypes x (by omega), h.out x hx]
  · by_cases hxn : x = no
    · rw [hxn] at hx ⊢
      rw [hobjno]
      exact (Shape.of_new (hnew hx) hsize).1
    · rw [hdir x hxn] at hx
      by_cases hxd : x = d
      · rw [hxd, hobjd]
        exact (h.shape d hd).put hhole hdirent
      · rw [hobj x hxd hxn]
        exact h.shape x hx
  · by_cases hxn : x = no
    · rw [hxn] at hx ⊢
      rw [up, hobjno, (Shape.of_new (hnew hx) hsize).2.1]
      exact h.lt (by rw [hd]; decide)
    · rw [hdir x hxn] at hx
      rw [hup x hxn]
      exact h.upRange x hx
  · rw [hup 1 (Ne.symm hne1), h.upRoot]
  · rcases hnamed hn with hn | ⟨rfl, rfl, rfl⟩
    · obtain ⟨h₁, h₂, h₃⟩ := h.named x y z hn
      have hzn : z ≠ no := fun heq => hnone x y (heq ▸ hn)
      exact ⟨h₁, by rw [htypes z hzn]; exact h₂, h₃⟩
    · refine ⟨hne1, ?_, fun hmem => (h.kept _ hmem).1 hfree⟩
      rw [hobjno, ho.type_eq]
      exact htype
  · rcases hnamed hn with hold | ⟨hx, hy, hz⟩ <;> rcases hnamed hn' with hold' | ⟨hx', hy', hz'⟩
    · exact h.uniq x y x' y' z hold hold'
    · exact (hnone x y (hz' ▸ hold)).elim
    · exact (hnone x' y' (hz ▸ hold')).elim
    · exact ⟨hx.trans hx'.symm, hy.trans hy'.symm⟩
  · rcases hnamed hn with hn | ⟨rfl, rfl, rfl⟩
    · have hzn : z ≠ no := fun heq => hnone x y (heq ▸ hn)
      rw [hdir z hzn] at hz
      rw [hup z hzn]
      exact h.parent x y z hn hz
    · rw [up, hobjno, (Shape.of_new (hnew hz) hsize).2.1]
  · rcases hx with rfl | hx
    · exact ⟨hpos, hlt⟩
    · exact h.range x hx
  · exact h.sub.trans (Set.subset_insert _ _)
  · have hxn : x ≠ no := by
      rintro rfl
      exact (h.kept x hx).1 hfree
    rw [htypes x hxn]
    exact h.kept x hx

end Create

/-- Every event keeps the invariant. -/
theorem Step.inv {ev : NsEvent} (h : s.Inv) (hstep : Step s ev s') : s'.Inv := by
  cases hstep with
  | hold hpos hlt => exact h.hold hpos hlt
  | drop _ hno => exact h.drop hno
  | free hno => exact h.free hno
  | write hno ho => exact h.write hno ho
  | create hd hpos hlt hfree hsize htype _ _ hdirent ho =>
    exact h.create hd hpos hlt hfree hsize htype hdirent ho
  | remove ht _ hl => exact h.clear ht hl

/-! ### What an event does

The entries, directories and objects after an event in terms of those before it, and the
other way round. -/

theorem not_empty (h : s.Named d e t) : ¬ s.Empty d := fun hempty =>
  h.ne (h.target.symm.trans (hempty e h.two h.lt))

theorem named_clear_of {live removed : Set ℕ} (hshape : Shape (s.objs d) d)
    (he : e < (s.objs d).count) (h : s.Named d' e' t) (hne : ¬ (d' = d ∧ e' = e)) :
    Named ⟨Function.update s.objs d ((s.objs d).put e .zero), live, removed⟩ d' e' t := by
  obtain ⟨hdir, htwo, hlt, htarget, hz⟩ := h
  by_cases hd : d' = d
  · subst hd
    have hcount : ((s.objs d').put e .zero).count = (s.objs d').count := by
      rw [Obj.count_put hshape.dvd]
      omega
    refine ⟨?_, htwo, ?_, ?_, hz⟩
    · simp only [Dir, Function.update_self]
      exact hdir
    · simp only [Function.update_self, hcount]
      exact hlt
    · simp only [Function.update_self]
      rw [Obj.target_put_of_ne (by simp [Dirent.zero]) fun heq => hne ⟨rfl, heq⟩]
      exact htarget
  · refine ⟨?_, htwo, ?_, ?_, hz⟩ <;> simp only [Dir, Function.update_of_ne hd]
    · exact hdir
    · exact hlt
    · exact htarget

theorem named_update_of {o : Obj} {live removed : Set ℕ} (h : s.Named d e t) (hne : d ≠ no) :
    Named ⟨Function.update s.objs no o, live, removed⟩ d e t := by
  obtain ⟨hdir, htwo, hlt, htarget, hz⟩ := h
  refine ⟨?_, htwo, ?_, ?_, hz⟩ <;> simp only [Dir, Function.update_of_ne hne]
  · exact hdir
  · exact hlt
  · exact htarget

theorem type_clear (x : ℕ) :
    (Function.update s.objs d ((s.objs d).put e .zero) x).type = (s.objs x).type := by
  by_cases hne : x = d
  · rw [hne, Function.update_self]
    rfl
  · rw [Function.update_of_ne hne]

theorem up_clear {live removed : Set ℕ} (htwo : 2 ≤ e) (x : ℕ) :
    up ⟨Function.update s.objs d ((s.objs d).put e .zero), live, removed⟩ x = s.up x := by
  by_cases hne : x = d
  · simp only [up, hne, Function.update_self]
    exact Obj.target_put_of_ne (by simp [Dirent.zero]) (by omega)
  · simp only [up, Function.update_of_ne hne]

variable {ev : NsEvent}

/-- An entry after an event was there before, has just been made, or belongs to a new
directory. -/
theorem Step.of_entry (h : s.Inv) (hstep : Step s ev s') (hd : s'.Dir d)
    (he : e < (s'.objs d).count) (hz : (s'.objs d).target e ≠ 0) :
    (s.Dir d ∧ e < (s.objs d).count ∧ (s'.objs d).entry e = (s.objs d).entry e) ∨
      (∃ name type no, ev = .create d name type no ∧ s.Dir d ∧ e = (s.objs d).hole ∧
        Elem name ∧ (s.objs d).find name = none ∧ ((s'.objs d).entry e).Names no name) ∨
      ∃ x name, ev = .create x name TYPE_DIR d ∧ s.Dir x ∧ ¬ s.Dir d ∧
        (e = 0 ∧ ((s'.objs d).entry e).Names d DOT ∨
          e = 1 ∧ ((s'.objs d).entry e).Names x DOTDOT) := by
  have hlen : Dirent.zero.name.length = 28 := by simp [Dirent.zero]
  -- the entries of a directory one of whose entries is cleared
  have hclear {y : ℕ} {o : Obj} (hdvd : 32 ∣ o.size) (hy : y < o.count)
      (he : e < (o.put y .zero).count) (hz : (o.put y .zero).target e ≠ 0) :
      e < o.count ∧ (o.put y .zero).entry e = o.entry e := by
    have hne : e ≠ y := by
      rintro rfl
      rw [Obj.target_put_self hlen] at hz
      exact hz rfl
    rw [Obj.count_put hdvd] at he
    exact ⟨by omega, Obj.entry_put_of_ne hlen hne⟩
  cases hstep with
  | hold | drop => exact Or.inl ⟨hd, he, rfl⟩
  | @free x _ =>
    have hne : d ≠ x := by
      rintro rfl
      simp only [Dir, Function.update_self] at hd
      cases hd
    simp only [Dir, Function.update_of_ne hne] at hd he ⊢
    exact Or.inl ⟨hd, he, trivial⟩
  | @write x o hx ho =>
    have hne : d ≠ x := by
      rintro rfl
      simp only [Dir, Function.update_self, ho] at hd
      exact hx hd
    simp only [Dir, Function.update_of_ne hne] at hd he ⊢
    exact Or.inl ⟨hd, he, trivial⟩
  | @create x no name type dirent o hx _ _ hfree hsize _ helem hfind hdirent ho =>
    by_cases hne : d = no
    · subst hne
      rw [Dir, objs_made_new, ho.type_eq] at hd
      subst hd
      obtain ⟨hdot, hdotdot, hcount, -⟩ := newObj_entries ho hsize
      rw [objs_made_new, hcount] at he
      refine Or.inr (Or.inr ⟨x, name, rfl, hx, by rw [Dir, hfree]; decide, ?_⟩)
      rw [objs_made_new]
      rcases (show e = 0 ∨ e = 1 by omega) with rfl | rfl
      · exact Or.inl ⟨rfl, hdot⟩
      · exact Or.inr ⟨rfl, hdotdot⟩
    · by_cases hdx : d = x
      · subst hdx
        rw [objs_made_dir s _ _ hne] at he hz ⊢
        by_cases hhole : e = (s.objs d).hole
        · subst hhole
          refine Or.inr (Or.inl ⟨name, type, no, rfl, hx, rfl, helem, hfind, ?_⟩)
          rw [Obj.entry_put_self hdirent.length]
          exact hdirent
        · rw [Obj.count_put (h.shape d hx).dvd] at he
          have hle := (s.objs d).hole_le
          exact Or.inl ⟨hx, by omega, Obj.entry_put_of_ne hdirent.length hhole⟩
      · rw [Dir, objs_made_other hdx hne] at hd
        rw [objs_made_other hdx hne] at he ⊢
        exact Or.inl ⟨hd, he, rfl⟩
  | @remove x y z ht _ _ =>
    rw [Dir] at hd
    simp only [type_clear] at hd
    by_cases hdx : d = x
    · subst hdx
      simp only [Function.update_self] at he hz ⊢
      exact Or.inl ⟨hd, hclear (h.shape d hd).dvd ht.lt he hz⟩
    · simp only [Function.update_of_ne hdx] at he ⊢
      exact Or.inl ⟨hd, he, trivial⟩

theorem Step.of_named (h : s.Inv) (hstep : Step s ev s') (hn : s'.Named d e t) :
    s.Named d e t ∨ ∃ name type, ev = .create d name type t := by
  obtain ⟨hdir, htwo, hlt, rfl, hz⟩ := hn
  rcases hstep.of_entry h hdir hlt hz with ⟨hold, hlt', hsame⟩ | ⟨name, type, no, rfl, -, -, -, -, hn⟩
      | ⟨x, name, rfl, -, -, ⟨rfl, -⟩ | ⟨rfl, -⟩⟩
  · refine Or.inl ⟨hold, htwo, hlt', ?_, hz⟩
    rw [Obj.target, Obj.target, hsame]
  · refine Or.inr ⟨name, type, ?_⟩
    rw [Obj.target, hn.inode]
  · omega
  · omega

theorem Step.named (h : s.Inv) (hstep : Step s ev s') (hn : s.Named d e t) :
    s'.Named d e t ∨ (ev = .drop d ∧ d ∈ s.removed) ∨ ev = .unlink d e t := by
  cases hstep with
  | hold | drop => exact Or.inl ⟨hn.1, hn.2, hn.3, hn.4, hn.5⟩
  | @free no hno =>
    by_cases hne : d = no
    · exact Or.inr (Or.inl ⟨by rw [hne], hne ▸ hno⟩)
    · exact Or.inl (named_update_of hn hne)
  | write hno _ => exact Or.inl (named_update_of hn fun heq => hno (heq ▸ hn.dir))
  | @create x no _ _ dirent o hd _ _ hfree _ _ _ _ hdirent _ =>
    have hne : d ≠ no := by
      rintro rfl
      have := hn.dir
      rw [Dir, hfree] at this
      cases this
    obtain ⟨hdir, htwo, hlt, htarget, hz⟩ := hn
    by_cases hdx : d = x
    · subst hdx
      have hy : e ≠ (s.objs d).hole := by
        rintro rfl
        exact hz (htarget.symm.trans (Obj.target_hole hlt))
      refine Or.inl ⟨?_, htwo, ?_, ?_, hz⟩
      · rw [Dir, objs_made_dir s _ _ hne]
        exact hdir
      · rw [objs_made_dir s _ _ hne, Obj.count_put (h.shape d hdir).dvd]
        omega
      · rw [objs_made_dir s _ _ hne, Obj.target_put_of_ne hdirent.length hy]
        exact htarget
    · refine Or.inl ⟨?_, htwo, ?_, ?_, hz⟩ <;>
        simp only [Dir, objs_made_other hdx hne]
      · exact hdir
      · exact hlt
      · exact htarget
  | @remove x y z ht _ _ =>
    by_cases hxy : d = x ∧ e = y
    · obtain ⟨rfl, rfl⟩ := hxy
      rw [← hn.target, ht.target]
      exact Or.inr (Or.inr rfl)
    · exact Or.inl (named_clear_of (h.shape _ ht.dir) ht.lt hn hxy)

/-- What is on the disk after an event was there before or has just been made. -/
theorem Step.of_type (hstep : Step s ev s') (hno : (s'.objs no).type ≠ TYPE_NONE) :
    (s'.objs no).type = (s.objs no).type ∨
      ∃ d name, ev = .create d name (s'.objs no).type no ∧ s.Dir d ∧
        (s.objs no).type = TYPE_NONE := by
  cases hstep with
  | hold | drop => exact Or.inl rfl
  | @free x _ =>
    by_cases hne : no = x
    · subst hne
      simp only [Function.update_self] at hno
      exact (hno rfl).elim
    · simp only [Function.update_of_ne hne, true_or]
  | @write x o _ ho =>
    by_cases hne : no = x
    · subst hne
      simp only [Function.update_self, ho, true_or]
    · simp only [Function.update_of_ne hne, true_or]
  | @create d x name type dirent o hd _ _ hfree _ _ _ _ _ ho =>
    by_cases hne : no = x
    · subst hne
      rw [objs_made_new, ho.type_eq]
      exact Or.inr ⟨d, name, rfl, hd, hfree⟩
    · by_cases hnd : no = d
      · subst hnd
        rw [objs_made_dir s _ _ hne]
        exact Or.inl rfl
      · rw [objs_made_other hnd hne]
        exact Or.inl rfl
  | remove => exact Or.inl (type_clear no)

/-- Where `..` of a directory leads after an event. -/
theorem Step.of_up (h : s.Inv) (hstep : Step s ev s') (hd : s'.Dir d) :
    (s.Dir d ∧ s'.up d = s.up d) ∨
      ∃ x name, ev = .create x name TYPE_DIR d ∧ s.Dir x ∧ s'.up d = x := by
  cases hstep with
  | hold | drop => exact Or.inl ⟨hd, rfl⟩
  | @free x _ =>
    have hne : d ≠ x := by
      rintro rfl
      simp only [Dir, Function.update_self] at hd
      cases hd
    simp only [Dir, Function.update_of_ne hne] at hd
    simp only [up, Function.update_of_ne hne]
    exact Or.inl ⟨hd, trivial⟩
  | @write x o hx ho =>
    have hne : d ≠ x := by
      rintro rfl
      simp only [Dir, Function.update_self, ho] at hd
      exact hx hd
    simp only [Dir, Function.update_of_ne hne] at hd
    simp only [up, Function.update_of_ne hne]
    exact Or.inl ⟨hd, trivial⟩
  | @create x no name type dirent o hx _ _ hfree hsize _ _ _ hdirent ho =>
    by_cases hne : d = no
    · subst hne
      rw [Dir, objs_made_new, ho.type_eq] at hd
      subst hd
      refine Or.inr ⟨x, name, rfl, hx, ?_⟩
      rw [up, objs_made_new, (Shape.of_new ho hsize).2.1]
    · left
      by_cases hdx : d = x
      · subst hdx
        rw [up, objs_made_dir s _ _ hne, Obj.target_put_of_ne hdirent.length]
        · exact ⟨hx, rfl⟩
        · have := h.hole_ge hx
          omega
      · rw [Dir, objs_made_other hdx hne] at hd
        rw [up, objs_made_other hdx hne]
        exact ⟨hd, rfl⟩
  | @remove x y z ht _ _ =>
    rw [Dir] at hd
    simp only [type_clear] at hd
    exact Or.inl ⟨hd, up_clear ht.two d⟩

/-- A directory is one after an event, or the event has freed it. -/
theorem Step.dir (hstep : Step s ev s') (hd : s.Dir d) :
    s'.Dir d ∨ (ev = .drop d ∧ d ∈ s.removed) := by
  cases hstep with
  | hold | drop => exact Or.inl hd
  | @free x hx =>
    by_cases hne : d = x
    · exact Or.inr ⟨by rw [hne], hne ▸ hx⟩
    · simp only [Dir, Function.update_of_ne hne]
      exact Or.inl hd
  | @write x o hx _ =>
    have hne : d ≠ x := fun heq => hx (heq ▸ hd)
    simp only [Dir, Function.update_of_ne hne]
    exact Or.inl hd
  | @create x no _ _ dirent o _ _ _ hfree _ _ _ _ _ _ =>
    have hne : d ≠ no := by
      rintro rfl
      rw [Dir, hfree] at hd
      cases hd
    left
    by_cases hdx : d = x
    · subst hdx
      rw [Dir, objs_made_dir s _ _ hne]
      exact hd
    · rw [Dir, objs_made_other hdx hne]
      exact hd
  | remove =>
    left
    rw [Dir]
    simp only [type_clear]
    exact hd

theorem Step.unlinked (hstep : Step s (.unlink d e t) s') : t ∈ s'.removed := by
  cases hstep with
  | remove => exact Set.mem_insert _ _

theorem Step.created {type : UInt32} (h : s.Inv) (hstep : Step s (.create d name type no) s') :
    s'.Named d (s.objs d).hole no := by
  cases hstep with
  | create hd hpos _ hfree _ _ _ _ hdirent _ =>
    have hne : d ≠ no := by
      rintro rfl
      rw [Dir, hfree] at hd
      cases hd
    refine ⟨?_, h.hole_ge hd, ?_, ?_, by omega⟩
    · rw [Dir, objs_made_dir s _ _ hne]
      exact hd
    · rw [objs_made_dir s _ _ hne, Obj.count_put (h.shape d hd).dvd]
      exact lt_max_of_lt_right (Nat.lt_succ_self _)
    · rw [objs_made_dir s _ _ hne, Obj.target_put_self hdirent.length, hdirent.inode]

theorem Step.of_removed (hstep : Step s ev s') (hno : no ∈ s'.removed) :
    no ∈ s.removed ∨ ∃ d e, ev = .unlink d e no ∧ s.Named d e no ∧ (s.Dir no → s.Empty no) := by
  cases hstep with
  | hold | drop | write | create => exact Or.inl hno
  | free => exact Or.inl hno.1
  | remove ht hempty _ =>
    rcases hno with rfl | hno
    · exact Or.inr ⟨_, _, rfl, ht, hempty⟩
    · exact Or.inl hno

theorem Step.removed (hstep : Step s ev s') (hno : no ∈ s.removed) :
    no ∈ s'.removed ∨ (ev = .drop no ∧ (s'.objs no).type = TYPE_NONE) := by
  cases hstep with
  | hold | drop | write | create => exact Or.inl hno
  | @free x _ =>
    by_cases hne : no = x
    · subst hne
      exact Or.inr ⟨rfl, by simp only [Function.update_self]; rfl⟩
    · exact Or.inl ⟨hno, hne⟩
  | remove => exact Or.inl (Set.mem_insert_of_mem _ hno)

/-! ### Distinct names -/

/-- No two entries of a directory carry one name. -/
def Distinct (s : Ns) : Prop := ∀ d, s.Dir d → ∀ e < (s.objs d).count, ∀ e' < (s.objs d).count,
  (s.objs d).target e ≠ 0 → (s.objs d).target e' ≠ 0 →
    (s.objs d).label e = (s.objs d).label e' → e = e'

theorem Step.distinct (h : s.Inv) (hs : s.Distinct) (hstep : Step s ev s') : s'.Distinct := by
  intro d hd e he e' he' hz hz' heq
  -- a name that was looked up in vain is not there
  have hfresh {name : List UInt8} (hfind : (s.objs d).find name = none) {x : ℕ}
      (hx : x < (s.objs d).count) (hsame : (s'.objs d).entry x = (s.objs d).entry x)
      (hzx : (s'.objs d).target x ≠ 0) : (s'.objs d).label x ≠ name := by
    rw [Obj.target, hsame] at hzx
    rw [Obj.label, hsame]
    exact Obj.find_eq_none.mp hfind x hx hzx
  by_cases hold : s.Dir d
  · rcases hstep.of_entry h hd he hz with ⟨-, hlt, hsame⟩ | ⟨name, type, no, hev, -, hhole, -, hfind, hn⟩
        | ⟨_, _, -, -, hnew, -⟩ <;>
      rcases hstep.of_entry h hd he' hz' with ⟨-, hlt', hsame'⟩ |
        ⟨name', type', no', hev', -, hhole', -, hfind', hn'⟩ | ⟨_, _, -, -, hnew', -⟩
    · rw [Obj.target, hsame] at hz
      rw [Obj.target, hsame'] at hz'
      rw [Obj.label, Obj.label, hsame, hsame'] at heq
      exact hs d hold e hlt e' hlt' hz hz' heq
    · exact (hfresh hfind' hlt hsame hz (heq.trans hn'.label)).elim
    · exact (hnew' hold).elim
    · exact (hfresh hfind hlt' hsame' hz' (heq.symm.trans hn.label)).elim
    · rw [hhole, hhole']
    · exact (hnew' hold).elim
    · exact (hnew hold).elim
    · exact (hnew hold).elim
    · exact (hnew hold).elim
  · have hdots (x : ℕ) (hx : x < (s'.objs d).count) (hzx : (s'.objs d).target x ≠ 0) :
        x = 0 ∧ (s'.objs d).label x = DOT ∨ x = 1 ∧ (s'.objs d).label x = DOTDOT := by
      rcases hstep.of_entry h hd hx hzx with ⟨hdir, -⟩ | ⟨_, _, _, -, hdir, -⟩ | ⟨_, _, -, -, -, hn⟩
      · exact (hold hdir).elim
      · exact (hold hdir).elim
      · exact hn.imp (fun hn => ⟨hn.1, hn.2.label⟩) fun hn => ⟨hn.1, hn.2.label⟩
    rcases hdots e he hz with ⟨h₀, hl⟩ | ⟨h₀, hl⟩ <;>
      rcases hdots e' he' hz' with ⟨h₀', hl'⟩ | ⟨h₀', hl'⟩
    · rw [h₀, h₀']
    · rw [hl, hl'] at heq
      cases heq
    · rw [hl, hl'] at heq
      cases heq
    · rw [h₀, h₀']

/-- The names of entries can be elements of paths. -/
def Spelled (s : Ns) : Prop := ∀ d e t, s.Named d e t → Elem ((s.objs d).label e)

theorem Step.spelled (h : s.Inv) (hs : s.Spelled) (hstep : Step s ev s') : s'.Spelled := by
  rintro d e t ⟨hdir, htwo, hlt, rfl, hz⟩
  rcases hstep.of_entry h hdir hlt hz with ⟨hold, hlt', hsame⟩ | ⟨name, _, _, -, -, -, helem, -, hn⟩
      | ⟨_, _, -, -, -, ⟨rfl, -⟩ | ⟨rfl, -⟩⟩
  · rw [Obj.target, hsame] at hz
    rw [Obj.label, hsame]
    exact hs d e _ ⟨hold, htwo, hlt', rfl, hz⟩
  · rw [Obj.label, hn.label]
    exact helem
  · omega
  · omega

/-! ### Nothing is orphaned -/

/-- Everything is the root, has a name, or has been removed and is held. -/
def Linked (s : Ns) : Prop :=
  ∀ no, (s.objs no).type ≠ TYPE_NONE → no = 1 ∨ no ∈ s.removed ∨ ∃ d e, s.Named d e no

/-- Removed directories are empty. -/
def Vacant (s : Ns) : Prop := ∀ d ∈ s.removed, s.Dir d → s.Empty d

/-- The event makes nothing in a removed directory. -/
def Outside (s : Ns) (ev : NsEvent) : Prop :=
  ∀ d name type no, ev = .create d name type no → d ∉ s.removed

/-- An event outside removed directories orphans nothing. -/
theorem Step.linked (h : s.Inv) (hl : s.Linked) (hv : s.Vacant) (hstep : Step s ev s')
    (hout : s.Outside ev) : s'.Linked ∧ s'.Vacant := by
  have hempty {d : ℕ} (hd : s.Dir d) (he : s.Empty d) (hnew : ∀ name type no,
      ev ≠ .create d name type no) (hd' : s'.Dir d) : s'.Empty d := by
    intro e htwo hlt
    by_contra hz
    rcases hstep.of_named h ⟨hd', htwo, hlt, rfl, hz⟩ with hn | ⟨name, type, hev⟩
    · exact not_empty hn he
    · exact hnew name type _ hev
  constructor
  · intro no hno
    rcases hstep.of_type hno with htype | ⟨d, name, rfl, hd, hfree⟩
    · rcases hl no (by rwa [htype] at hno) with hroot | hrem | ⟨d, e, hn⟩
      · exact Or.inl hroot
      · rcases hstep.removed hrem with hrem' | ⟨-, hfree⟩
        · exact Or.inr (Or.inl hrem')
        · exact (hno hfree).elim
      · rcases hstep.named h hn with hn' | ⟨rfl, hrem⟩ | hev
        · exact Or.inr (Or.inr ⟨d, e, hn'⟩)
        · exact (not_empty hn (hv d hrem hn.dir)).elim
        · exact Or.inr (Or.inl (hev ▸ hstep).unlinked)
    · exact Or.inr (Or.inr ⟨d, _, hstep.created h⟩)
  · intro d hd hdir
    rcases hstep.of_removed hd with hrem | ⟨x, e, rfl, hn, hemp⟩
    · have hold := (h.kept d hrem).1
      rcases hstep.of_up h hdir with ⟨hdir', -⟩ | ⟨x, name, rfl, hx, -⟩
      · exact hempty hdir' (hv d hrem hdir') (fun name type no hev => hout d name type no hev hrem)
          hdir
      · cases hstep with
        | create _ _ _ hfree => exact (hold hfree).elim
    · rcases hstep.of_up h hdir with ⟨hdir', -⟩ | ⟨_, _, hev, -⟩
      · exact hempty hdir' (hemp hdir') (fun _ _ _ hev => by cases hev) hdir
      · cases hev

/-! ### Directories below removed ones -/

/-- Every directory lies in a directory, which has not been removed; what keeps this so is
that every directory has a name or is held, and that no directory is named in a removed one. -/
structure Upright (s : Ns) : Prop where
  linked : ∀ d, s.Dir d → d = 1 ∨ d ∈ s.removed ∨ ∃ x e, s.Named x e d
  vacant : ∀ x ∈ s.removed, ∀ e d, s.Named x e d → ¬ s.Dir d
  dir : ∀ d, s.Dir d → s.Dir (s.up d)
  kept : ∀ d, s.Dir d → s.up d ∉ s.removed

/-- The event makes no directory in a removed one, and removes no directory in which a
removed one lies. -/
def Calm (s : Ns) (ev : NsEvent) : Prop :=
  (∀ d name no, ev = .create d name TYPE_DIR no → d ∉ s.removed) ∧
    ∀ d e t, ev = .unlink d e t → ∀ c ∈ s.removed, s.Dir c → s.up c ≠ t

/-- Nothing lies in a directory that may be unlinked. -/
theorem Upright.up_ne (h : s.Inv) (hu : s.Upright) (hn : s.Named d e t)
    (hempty : s.Dir t → s.Empty t) (hcalm : ∀ c ∈ s.removed, s.Dir c → s.up c ≠ t) {c : ℕ}
    (hc : s.Dir c) : s.up c ≠ t := by
  intro heq
  rcases hu.linked c hc with rfl | hrem | ⟨x, y, hnamed⟩
  · rw [h.upRoot] at heq
    exact (h.named d e t hn).1 heq.symm
  · exact hcalm c hrem hc heq
  · rw [h.parent x y c hnamed hc] at heq
    subst heq
    exact not_empty hnamed (hempty hnamed.dir)

/-- A calm event keeps directories in directories. -/
theorem Step.upright (h : s.Inv) (hu : s.Upright) (hstep : Step s ev s') (hcalm : s.Calm ev) :
    s'.Upright := by
  have hsub {no : ℕ} (hno : no ∈ s'.removed) : no ∈ s.removed ∨ ∃ d e, ev = .unlink d e no ∧
      s.Named d e no ∧ (s.Dir no → s.Empty no) := hstep.of_removed hno
  -- no event frees a directory in which one lies
  have hstay {c : ℕ} (hc : s.Dir c) : s'.Dir (s.up c) := by
    rcases hstep.dir (hu.dir c hc) with hd | ⟨-, hrem⟩
    · exact hd
    · exact (hu.kept c hc hrem).elim
  refine ⟨fun d hd => ?_, fun x hx e d hn hd => ?_, fun d hd => ?_, fun d hd => ?_⟩
  · rcases hstep.of_up h hd with ⟨hold, -⟩ | ⟨x, name, rfl, -, -⟩
    · rcases hu.linked d hold with hroot | hrem | ⟨x, e, hn⟩
      · exact Or.inl hroot
      · rcases hstep.removed hrem with hrem' | ⟨-, hfree⟩
        · exact Or.inr (Or.inl hrem')
        · rw [Dir, hfree] at hd
          cases hd
      · rcases hstep.named h hn with hn' | ⟨rfl, hrem⟩ | hev
        · exact Or.inr (Or.inr ⟨x, e, hn'⟩)
        · exact (hu.vacant x hrem e d hn hold).elim
        · exact Or.inr (Or.inl (hev ▸ hstep).unlinked)
    · exact Or.inr (Or.inr ⟨x, _, hstep.created h⟩)
  · rcases hstep.of_up h hd with ⟨hold, -⟩ | ⟨y, name, rfl, -, -⟩
    · have hnew : s.Named x e d := by
        rcases hstep.of_named h hn with hn | ⟨name, type, rfl⟩
        · exact hn
        · cases hstep with
          | create _ _ _ hfree =>
            rw [Dir, hfree] at hold
            cases hold
      rcases hsub hx with hrem | ⟨y, e', -, hny, hempty⟩
      · exact hu.vacant x hrem e d hnew hold
      · exact not_empty hnew (hempty hnew.dir)
    · rcases hstep.of_named h hn with hn | ⟨name', type, hev⟩
      · exact (h.named x e d hn).2.1 (by cases hstep with | create _ _ _ hfree => exact hfree)
      · cases hev
        rcases hsub hx with hrem | ⟨_, _, hev, -⟩
        · exact hcalm.1 x name d rfl hrem
        · cases hev
  · rcases hstep.of_up h hd with ⟨hold, heq⟩ | ⟨x, name, rfl, hx, heq⟩
    · rw [heq]
      exact hstay hold
    · rw [heq]
      rcases hstep.dir hx with hx' | ⟨hev, -⟩
      · exact hx'
      · cases hev
  · intro hrem
    rcases hstep.of_up h hd with ⟨hold, heq⟩ | ⟨x, name, rfl, hx, heq⟩
    · rw [heq] at hrem
      rcases hsub hrem with hrem' | ⟨x, e, rfl, hn, hempty⟩
      · exact hu.kept d hold hrem'
      · exact hu.up_ne h hn hempty (hcalm.2 x e _ rfl) hold rfl
    · rw [heq] at hrem
      rcases hsub hrem with hrem' | ⟨_, _, hev, -⟩
      · exact hcalm.1 x name d rfl hrem'
      · cases hev

end Ns

end Oslab
