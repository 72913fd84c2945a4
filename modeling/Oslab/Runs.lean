/-
# Every run on an image of mkfs

The tables are in order in every state that is reached, and with them the disk: a
block is marked exactly when one place refers to it, and a slot holds what the disk
says. What every event of the namespace keeps holds in every run; what only the
events of a discipline keep holds in the runs that keep to it.
-/
import Oslab.Startup

namespace Oslab

open Lib Lib.Prog

variable {s s' : Kernel} {l : Label} {d no t : ℕ}

/-! ### Order -/

/-- **The rule for runs.** What holds of the namespace when the kernel has started, and is kept
by the effects of every step allowed, holds in every state. -/
theorem reachable_keeps {image : Mem → Prop} {cond : Kernel → Label → Prop} (P : Ns → Prop)
    (hstart : ∀ D s, image D → Boots D s → s.InOrder ∧ P s.fs.state.ns)
    (hstep : ∀ (s : Kernel) (l : Label) (s' : Kernel) (evs : List FsEvent), cond s l →
      s.InOrder → P s.fs.state.ns → Effects s.fs.state evs s'.fs.state → s.Makes l.event evs →
      P s'.fs.state.ns)
    (h : ((machine image).restrict cond).Reachable s) : s.InOrder ∧ P s.fs.state.ns := by
  have hall : s.Sound ∧ s.InOrder ∧ P s.fs.state.ns := by
    refine h.invariant (fun s => s.Sound ∧ s.InOrder ∧ P s.fs.state.ns) ?_ ?_
    · intro s hs
      obtain ⟨D, himage, hboots⟩ := hs
      exact ⟨hboots.sound, hstart D s himage hboots⟩
    · intro s l t hs hone
      obtain ⟨hsound, horder, hP⟩ := hs
      obtain ⟨hc, hone⟩ := hone
      obtain ⟨horder', evs, heff, hmakes⟩ := Kernel.step.inOrder hsound horder hone
      exact ⟨Kernel.step.sound hsound hone, horder', hstep s l t evs hc horder hP heff hmakes⟩
  exact hall.2

/-- All steps are allowed. -/
theorem reachable_all {image : Mem → Prop} (h : (machine image).Reachable s) :
    ((machine image).restrict fun _ _ => True).Reachable s :=
  Lts.Reachable.mono (S := machine image) (fun _ hs => hs) (fun _ _ _ hone => ⟨trivial, hone⟩) h

theorem reachable_inOrder (h : (machine Mkfs.Image).Reachable s) : s.InOrder := by
  refine (reachable_keeps (fun _ => True) (fun D s himage hboots => ?_)
    (fun _ _ _ _ _ _ _ _ _ => trivial) (reachable_all h)).1
  obtain ⟨files, hfiles⟩ := himage
  exact ⟨(hboots.inOrder hfiles.formatted).1, trivial⟩

/-- The states that are reached from images of `mkfs`. -/
abbrev Running : Type := (machine Mkfs.Image).Reached

/-- **Counts are exact.** In every state a slot of one of the three tables counts the entries
that refer to it, and a process that is not in use refers to nothing. -/
theorem reference_counts (s : Running) :
    (∀ k, (s.1.files k).ref = (Finset.univ.filter fun x : ProcPtr × Fin MAX_UFILE =>
        (s.1.pcb x.1).files x.2 = some k).card) ∧
      (∀ u, (s.1.user_sem u).ref = (Finset.univ.filter fun x : ProcPtr × Fin MAX_USEM =>
        (s.1.pcb x.1).usems x.2 = some u).card) ∧
      (∀ j, (s.1.fs.inodes j).ref =
        (Finset.univ.filter fun k => 0 < (s.1.files k).ref ∧ (s.1.files k).type = TYPE_FILE ∧
          (s.1.files k).inode = some j).card +
        (Finset.univ.filter fun p => (s.1.pcb p).cwd = some j).card) ∧
      ∀ p, (s.1.pcb p).status = .unused ∨ (s.1.pcb p).status = .zombie →
        (∀ fd, (s.1.pcb p).files fd = none) ∧ (∀ id, (s.1.pcb p).usems id = none) ∧
          (s.1.pcb p).cwd = none := by
  have h := reachable_inOrder s.2
  refine ⟨h.tables.fileRef, h.tables.usemRef, fun j => ?_, fun p hp => ?_⟩
  · rw [h.tables.inodeRef j]
    refine congrArg₂ (· + ·) (congrArg _ (congrArg _ (Finset.filter_congr fun k _ => ?_))) rfl
    rw [openTable, File.holds]
    constructor
    · intro hk
      split at hk
      case isTrue hopen => exact ⟨hopen.1, hopen.2, hk⟩
      case isFalse => cases hk
    · intro hk
      rw [if_pos ⟨hk.1, hk.2.1⟩]
      exact hk.2.2
  · have hnothing := h.not_used p hp
    exact ⟨fun fd => congrFun (congrArg Held.files hnothing) fd,
      fun id => congrFun (congrArg Held.usems hnothing) id, congrArg Held.cwd hnothing⟩

/-- **Blocks have one owner.** In every state the first blocks are marked, and a block after
them is marked exactly when it is in one place of one inode. -/
theorem block_owners (s : Running) :
    (∀ b < 64, bitAt s.1.fs.disk.bytes b = true) ∧
      (∀ b, 64 ≤ b → b < 32768 → (bitAt s.1.fs.disk.bytes b = true ↔
        ∃! x : ℕ × ℕ, x.1 < 1920 ∧ place s.1.fs.disk.bytes x.1 x.2 = b)) ∧
      (∀ b, 64 ≤ b → b < 32768 → bitAt s.1.fs.disk.bytes b = false →
        ∀ no < 1920, ∀ k, place s.1.fs.disk.bytes no k ≠ b) ∧
      ∀ no < 1920, ∀ k, place s.1.fs.disk.bytes no k ≠ 0 →
        64 ≤ place s.1.fs.disk.bytes no k ∧ place s.1.fs.disk.bytes no k < 32768 := by
  have h := (reachable_inOrder s.2).tables.fs.holds.2.owned
  -- a place in use is marked
  have hmarked {b no k : ℕ} (hb : 64 ≤ b) (hno : no < 1920)
      (hplace : place s.1.fs.disk.bytes no k = b) : bitAt s.1.fs.disk.bytes b = true := by
    rw [← hplace]
    exact (h.range no hno k (by omega)).2.2
  refine ⟨h.low, fun b hb hlt => ⟨fun hbit => ?_, ?_⟩, fun b hb _ hbit no hno k hplace => ?_,
    fun no hno k hk => ?_⟩
  · obtain ⟨no, hno, k, hplace⟩ := h.owner b hb hlt hbit
    refine ⟨(no, k), ⟨hno, hplace⟩, fun x hx => ?_⟩
    obtain ⟨hno', hk'⟩ := h.inj no hno x.1 hx.1 k x.2 (by omega) (hplace.trans hx.2.symm)
    exact Prod.ext hno'.symm hk'.symm
  · intro hone
    obtain ⟨x, hx, -⟩ := hone
    exact hmarked hb hx.1 hx.2
  · rw [hmarked hb hno hplace] at hbit
    cases hbit
  · obtain ⟨hlow, hhigh, -⟩ := h.range no hno k hk
    exact ⟨hlow, hhigh⟩

/-- **Inodes in memory are coherent.** In every state a slot in use holds the inode that is on
the disk under its number, which belongs to a file or a directory, no two slots in use hold the same,
and the number that `dialloc` finds for a new inode is held by no slot. -/
theorem inodes_coherent (s : Running) :
    (∀ i j, 0 < (s.1.fs.inodes i).ref → 0 < (s.1.fs.inodes j).ref →
      (s.1.fs.inodes i).no = (s.1.fs.inodes j).no → i = j) ∧
      (∀ j, 0 < (s.1.fs.inodes j).ref → (s.1.fs.inodes j).no < 1920 ∧
        (s.1.fs.inodes j).dinode = dinodeAt s.1.fs.disk.bytes (s.1.fs.inodes j).no ∧
        ((s.1.fs.inodes j).dinode.type = TYPE_FILE ∨ (s.1.fs.inodes j).dinode.type = TYPE_DIR)) ∧
      ∀ type, type ≠ TYPE_NONE → wp (dialloc type)
        (fun no fs => (∀ j, 0 < (s.1.fs.inodes j).ref → (s.1.fs.inodes j).no ≠ no) ∧
          fs.inodes = s.1.fs.inodes ∧ 1 ≤ no ∧ no < 1920 ∧
          (dinodeAt s.1.fs.disk.bytes no).type = TYPE_NONE ∧ (dinodeAt fs.disk.bytes no).type = type)
        (fun e => e = .noInode ∧
          ∀ no, 1 ≤ no → no < 1920 → (dinodeAt s.1.fs.disk.bytes no).type ≠ TYPE_NONE) s.1.fs := by
  have h := (reachable_inOrder s.2).tables
  have hlive (j : InodePtr) (hj : 0 < (s.1.fs.inodes j).ref) := h.type_ne_none hj
  refine ⟨h.fs.holds.2.uniq, fun j hj => ?_, fun type htype => ?_⟩
  · obtain ⟨hlt, hd⟩ := h.fs.holds.2.live j hj
    have htype := h.type_of_ref hj
    rw [Fs.objOf, obj, ← hd] at htype
    exact ⟨hlt, hd, htype⟩
  · refine (dialloc_spec h.fs.holds htype hlive).imp ?_
    rintro no fs ⟨D', hholds, hpos, hlt, hfree, -, -, hobj, -⟩
    refine ⟨?_, hholds.1.inodes, hpos, hlt, hfree, ?_⟩
    · rintro j hj rfl
      exact hlive j hj hfree
    · have htype' := congrArg Obj.type hobj
      rw [hholds.1.bytes]
      exact htype'

/-! ### What a run of effects keeps -/

section Effects

variable {st st' : FsState} {evs : List FsEvent}

/-- The event of a plain effect makes no entry and clears none. -/
theorem FsEvent.plain_toNs {ev : FsEvent} {e : NsEvent} (h : ev.plain = true)
    (he : ev.toNs = some e) :
    (∀ d name type no, e ≠ .create d name type no) ∧ ∀ d k t, e ≠ .unlink d k t := by
  cases ev with
  | created | unlinked => cases h
  | grow => cases he
  | opened | closed | wrote =>
    cases he
    simp

/-- Opening and growing neither remove anything nor change an object. -/
theorem Effects.opens_ns (h : Effects st evs st') (hinv : FsInv st.1 st.2) (hns : st.ns.Inv)
    (hevs : ∀ ev ∈ evs, ev = .grow ∨ ∃ j no, ev = .opened j no) :
    st'.ns.objs = st.ns.objs ∧ st'.ns.removed = st.ns.removed := by
  refine h.keep (fun s => s.objs = st.ns.objs ∧ s.removed = st.ns.removed) hinv hns ⟨rfl, rfl⟩ ?_
  intro ev hev s e s' he _ hs hstep
  rcases hevs ev hev with rfl | ⟨j, no, rfl⟩
  · cases he
  · cases he
    cases hstep with
    | hold => exact hs

theorem Effects.distinct (h : Effects st evs st') (hinv : FsInv st.1 st.2) (hns : st.ns.Inv)
    (hd : st.ns.Distinct ∧ st.ns.Spelled) : st'.ns.Distinct ∧ st'.ns.Spelled :=
  h.keep (fun s => s.Distinct ∧ s.Spelled) hinv hns hd fun _ _ _ _ _ _ hs hd hstep =>
    ⟨hstep.distinct hs hd.1, hstep.spelled hs hd.2⟩

/-- Nothing is orphaned: everything has a name below the root or has been removed, and what has
been removed is empty. -/
structure Ns.Tidy (s : Ns) : Prop where
  linked : s.Linked
  vacant : s.Vacant
  rooted : s.Rooted

theorem Ns.Step.tidy {s s' : Ns} {ev : NsEvent} (h : s.Inv) (ht : s.Tidy) (hstep : Ns.Step s ev s')
    (hout : s.Outside ev) : s'.Tidy := by
  obtain ⟨hl, hv⟩ := hstep.linked h ht.linked ht.vacant hout
  exact ⟨hl, hv, hstep.rooted h ht.rooted hout⟩

/-- Effects that make nothing orphan nothing. -/
theorem Effects.tidy (h : Effects st evs st') (hinv : FsInv st.1 st.2) (hns : st.ns.Inv)
    (hl : st.ns.Tidy) (hevs : ∀ ev ∈ evs, ∀ d name type j no, ev ≠ .created d name type j no) :
    st'.ns.Tidy := by
  refine h.keep Ns.Tidy hinv hns hl ?_
  intro ev hev s e s' he hs hl hstep
  refine hstep.tidy hs hl fun d name type no hcreate => ?_
  subst hcreate
  cases ev with
  | created d' name' type' j no' => exact (hevs _ hev _ _ _ _ _ rfl).elim
  | grow | opened | closed | wrote | unlinked => cases he

/-- Plain effects keep directories in directories. -/
theorem Effects.upright (h : Effects st evs st') (hinv : FsInv st.1 st.2) (hns : st.ns.Inv)
    (hu : st.ns.Upright) (hevs : ∀ ev ∈ evs, ev.plain = true) : st'.ns.Upright := by
  refine h.keep Ns.Upright hinv hns hu ?_
  intro ev hev s e s' he hs hu hstep
  obtain ⟨hcreate, hunlink⟩ := FsEvent.plain_toNs (hevs ev hev) he
  exact hstep.upright hs hu ⟨fun d name no heq => (hcreate _ _ _ _ heq).elim,
    fun d k t heq => (hunlink _ _ _ heq).elim⟩

/-- While the kernel starts, nothing is removed, orphaned or left without its directory. -/
theorem Effects.starts (h : Effects st evs st') (hinv : FsInv st.1 st.2) (hns : st.ns.Inv)
    (hevs : ∀ ev ∈ evs, ev.Starts) (hl : st.ns.Tidy) (hu : st.ns.Upright)
    (hrem : st.ns.removed = ∅) : st'.ns.Tidy ∧ st'.ns.Upright := by
  have hall := h.keep (fun s => s.removed = ∅ ∧ s.Tidy ∧ s.Upright) hinv hns ⟨hrem, hl, hu⟩ (by
    intro ev hev s e s' he hs hall hstep
    obtain ⟨hrem, hl, hu⟩ := hall
    have hnone : s'.removed = ∅ := by
      refine Set.eq_empty_of_forall_notMem fun no hno => ?_
      rcases hstep.of_removed hno with hold | ⟨d, k, rfl, -⟩
      · rw [hrem] at hold
        exact hold
      · cases ev with
        | unlinked d' e' t' j => exact (hevs _ hev).1 _ _ _ _ rfl
        | grow | opened | closed | wrote | created => cases he
    have hl' := hstep.tidy hs hl fun d _ _ _ _ => by simp [hrem]
    refine ⟨hnone, hl', hstep.upright hs hu ⟨fun d _ _ _ => by simp [hrem], ?_⟩⟩
    intro d k t _ c hc
    rw [hrem] at hc
    cases hc)
  exact hall.2

end Effects

/-! ### Names -/

/-- The images `mkfs` makes of files whose names differ. -/
def Mkfs.ApartImage (D : Mem) : Prop := ∃ files, Apart files ∧ ImageOf files D

theorem apart_image (h : (machine Mkfs.ApartImage).init s) : (machine Mkfs.Image).init s := by
  obtain ⟨D, ⟨files, -, hfiles⟩, hboots⟩ := h
  exact ⟨D, ⟨files, hfiles⟩, hboots⟩

theorem reachable_apart (h : (machine Mkfs.ApartImage).Reachable s) :
    (machine Mkfs.Image).Reachable s :=
  h.mono (fun _ => apart_image) fun _ _ _ hstep => hstep

theorem reachable_distinct (h : (machine Mkfs.ApartImage).Reachable s) :
    s.fs.state.ns.Distinct ∧ s.fs.state.ns.Spelled := by
  refine (reachable_keeps (fun n => n.Distinct ∧ n.Spelled) (fun D s himage hboots => ?_)
    (fun s l s' evs _ horder hd heff _ => ?_) (reachable_all h)).2
  · obtain ⟨files, hapart, hfiles⟩ := himage
    have hD := hfiles.formatted
    obtain ⟨horder, st, evs, rfl, hshut, heff, -⟩ := hboots.inOrder hD
    exact ⟨horder, Effects.distinct heff (hD.fsInv hshut) (hD.inv hshut)
      ⟨hD.distinct hapart, hD.spelled hapart⟩⟩
  · exact Effects.distinct heff horder.tables.fs.holds.2 horder.tables.fs.inv hd

/-! ### Disciplines -/

/-- The call makes an object of a type in directory `d`: a descriptor and a file are free, the mode
asks for an object and only the last name of the path is missing. -/
def Kernel.MakesIn (s : Kernel) (call : Call) (type : UInt32) (d : ℕ) : Prop :=
  ∃ path mode c name, call = .open path mode ∧ (s.pcb s.curr).cwd = some c ∧
    (∃ fd, (s.pcb s.curr).files fd = none) ∧ (∃ k, (s.files k).ref = 0) ∧
    openType mode = type ∧ type ≠ TYPE_NONE ∧
    resolve (objs s.fs.disk.bytes) (s.fs.inodes c).no path.1 = none ∧
    resolveParent (objs s.fs.disk.bytes) (s.fs.inodes c).no path.1 = some (d, name)

/-- The call clears an entry that names `t`, which is no directory with entries. -/
def Kernel.Unlinks (s : Kernel) (call : Call) (t : ℕ) : Prop :=
  ∃ path c d name e, call = .unlink path ∧ (s.pcb s.curr).cwd = some c ∧
    resolveParent (objs s.fs.disk.bytes) (s.fs.inodes c).no path.1 = some (d, name) ∧
    (obj s.fs.disk.bytes d).find name = some e ∧ s.fs.state.ns.Named d e t ∧
    (s.fs.state.ns.Dir t → s.fs.state.ns.Empty t)

/-- No call makes an object in a directory that has been removed. -/
def Tidily (s : Kernel) (l : Label) : Prop := ∀ call junk type d, l.event = .call call junk →
  s.MakesIn call type d → d ∉ s.fs.state.ns.removed

/-- No call makes a directory in one that has been removed, or unlinks a directory in which a
removed one lies. -/
def Calmly (s : Kernel) (l : Label) : Prop := ∀ call junk, l.event = .call call junk →
  (∀ d, s.MakesIn call TYPE_DIR d → d ∉ s.fs.state.ns.removed) ∧
    ∀ t, s.Unlinks call t → ∀ c ∈ s.fs.state.ns.removed, s.fs.state.ns.Dir c →
      s.fs.state.ns.up c ≠ t

/-- Only a call has effects. -/
theorem Kernel.Makes.does {e : Event} {evs : List FsEvent} (h : s.Makes e evs) :
    evs = [] ∨ ∃ call junk, e = .call call junk ∧ s.Does call evs := by
  cases e with
  | call call junk => exact Or.inr ⟨call, junk, rfl, h⟩
  | resume => exact Or.inl h
  | timer => exact Or.inl h
  | serial bs => exact Or.inl h

theorem Mkfs.Formatted.tidy {files : List (CString × List UInt8)} {D : Mem} {I : InodePtr → Inode}
    (h : Mkfs.Formatted files D) (hI : Shut I) : (ns D I).Tidy :=
  ⟨h.linked, hI.vacant, h.rooted⟩

/-- When the kernel has started, nothing is orphaned or left without its directory. -/
theorem Boots.starts {D : Mem} (himage : Mkfs.Image D) (h : Boots D s) :
    s.InOrder ∧ s.fs.state.ns.Tidy ∧ s.fs.state.ns.Upright := by
  obtain ⟨files, hfiles⟩ := himage
  have hD := hfiles.formatted
  obtain ⟨horder, st, evs, rfl, hshut, heff, hevs⟩ := h.inOrder hD
  exact ⟨horder, Effects.starts heff (hD.fsInv hshut) (hD.inv hshut) hevs (hD.tidy hshut)
    (hD.upright hshut) hshut.removed_eq⟩

theorem reachable_tidy {cond : Kernel → Label → Prop} (hcond : ∀ s l, cond s l → Tidily s l)
    (h : ((machine Mkfs.Image).restrict cond).Reachable s) :
    s.fs.state.ns.Tidy := by
  refine (reachable_keeps Ns.Tidy (fun D s himage hboots => ?_)
    (fun s l s' evs hc horder hl heff hmakes => ?_) h).2
  · obtain ⟨horder, hl, -⟩ := hboots.starts himage
    exact ⟨horder, hl⟩
  have hinv := horder.tables.fs.holds.2
  have hns := horder.tables.fs.inv
  have hplain (hevs : ∀ ev ∈ evs, ev.plain = true) :
      ∀ ev ∈ evs, ∀ d name type j no, ev ≠ .created d name type j no := by
    intro ev hev d name type j no heq
    subst heq
    cases hevs _ hev
  rcases hmakes.does with rfl | ⟨call, junk, hevent, hdoes⟩
  · exact Effects.tidy heff hinv hns hl (by simp)
  · cases hdoes with
    | plain hevs => exact Effects.tidy heff hinv hns hl (hplain hevs)
    | @create path mode c j d no name evs hcwd hfd hk htype hres hparent hevs =>
      obtain ⟨u, hfirst, hrest⟩ := Lts.Run.of_cons heff
      obtain ⟨hinv', hns'⟩ := Effects.invariant (Lts.Run.single hfirst) hinv hns
      have hout : d ∉ s.fs.state.ns.removed := hcond s l hc _ junk _ d hevent
        ⟨path, mode, c, name, rfl, hcwd, hfd, hk, rfl, htype, hres, hparent⟩
      have hu : u.ns.Tidy := by
        rcases hfirst.1.ns hinv with heq | ⟨e, he, hone⟩
        · rw [heq]
          exact hl
        · cases he
          refine hone.tidy hns hl fun d' _ _ _ heq => ?_
          cases heq
          exact hout
      refine Effects.tidy hrest hinv' hns' hu ?_
      intro ev hev d name type j no heq
      subst heq
      cases hevs.plain _ hev
    | unlink => exact Effects.tidy heff hinv hns hl (by simp)

theorem reachable_upright {cond : Kernel → Label → Prop} (hcond : ∀ s l, cond s l → Calmly s l)
    (h : ((machine Mkfs.Image).restrict cond).Reachable s) : s.fs.state.ns.Upright := by
  refine (reachable_keeps Ns.Upright (fun D s himage hboots => ?_)
    (fun s l s' evs hc horder hu heff hmakes => ?_) h).2
  · obtain ⟨horder, -, hu⟩ := hboots.starts himage
    exact ⟨horder, hu⟩
  have hinv := horder.tables.fs.holds.2
  have hns := horder.tables.fs.inv
  rcases hmakes.does with rfl | ⟨call, junk, hevent, hdoes⟩
  · exact Effects.upright heff hinv hns hu (by simp)
  · cases hdoes with
    | plain hevs => exact Effects.upright heff hinv hns hu hevs
    | @create path mode c j d no name evs hcwd hfd hk htype hres hparent hevs =>
      obtain ⟨u, hfirst, hrest⟩ := Lts.Run.of_cons heff
      obtain ⟨hinv', hns'⟩ := Effects.invariant (Lts.Run.single hfirst) hinv hns
      have hu' : u.ns.Upright := by
        rcases hfirst.1.ns hinv with heq | ⟨e, he, hone⟩
        · rw [heq]
          exact hu
        · cases he
          refine hone.upright hns hu ⟨fun d' _ _ heq => ?_, fun _ _ _ heq => (by cases heq)⟩
          rw [NsEvent.create.injEq] at heq
          obtain ⟨rfl, -, hdir, -⟩ := heq
          exact (hcond s l hc _ junk hevent).1 d
            ⟨path, mode, c, name, rfl, hcwd, hfd, hk, hdir, by decide, hres, hparent⟩
      exact Effects.upright hrest hinv' hns' hu' hevs.plain
    | @unlink path c j k d e no name hcwd hparent hfind hnamed hempty =>
      -- the entry is cleared in the namespace the call has found
      have hsplit : Effects s.fs.state ([.opened j d, .opened k no, .grow] ++
        [.unlinked d e no k, .closed j d, .closed k no]) s'.fs.state := heff
      obtain ⟨u, hopens, hrest⟩ := hsplit.of_append
      obtain ⟨v, hclear, hcloses⟩ := Lts.Run.of_cons hrest
      obtain ⟨hinvu, hnsu⟩ := Effects.invariant hopens hinv hns
      obtain ⟨hobjs, hremoved⟩ := Effects.opens_ns hopens hinv hns (by simp)
      have huu := Effects.upright hopens hinv hns hu (by simp [FsEvent.plain])
      obtain ⟨hinvv, hnsv⟩ := Effects.invariant (Lts.Run.single hclear) hinvu hnsu
      have huv : v.ns.Upright := by
        rcases hclear.1.ns hinvu with heq | ⟨e', he, hone⟩
        · rw [heq]
          exact huu
        · cases he
          refine hone.upright hnsu huu ⟨fun _ _ _ heq => (by cases heq), fun _ _ _ heq => ?_⟩
          cases heq
          intro x hx hdir
          rw [hremoved] at hx
          rw [Ns.Dir, hobjs] at hdir
          rw [Ns.up, hobjs]
          exact (hcond s l hc _ junk hevent).2 no
            ⟨path, c, d, name, e, rfl, hcwd, hparent, hfind, hnamed, hempty⟩ x hx hdir
      exact Effects.upright hcloses hinvv hnsv huv (by simp [FsEvent.plain])

end Oslab
