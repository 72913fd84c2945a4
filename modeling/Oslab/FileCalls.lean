/-
# The calls on files

What each call on files returns and what it changes, written out: the file system
goes through effects, a slot of the table of files changes and an entry of the
descriptor table. The tables fit together again afterwards.
-/
import Oslab.Links

namespace Oslab

open Lib Lib.Prog

variable {s : Kernel} {k : FilePtr} {j : InodePtr} {mode no : ℕ} {path : List UInt8}

/-! ### Closing -/

/-- The effects of closing a file: the last descriptor gives its inode back. -/
def closings (f : File) (fs : Fs) : List FsEvent :=
  if f.ref = 1 then (f.holds.map fun j => FsEvent.closed j (fs.inodes j).no).toList else []

theorem closes_closings {f : File} {fs : Fs} : ∀ ev ∈ closings f fs, ev.opens = false := by
  intro ev hev
  unfold closings at hev
  split at hev
  · rw [Option.mem_toList, Option.map_eq_some_iff] at hev
    obtain ⟨j, -, rfl⟩ := hev
    rfl
  · cases hev

theorem refs_closings {f : File} {fs : Fs} (j : InodePtr) :
    ((closings f fs).map (FsEvent.refs j)).sum =
      if f.ref = 1 ∧ f.type = TYPE_FILE ∧ f.inode = some j then -1 else 0 := by
  unfold closings
  by_cases hone : f.ref = 1
  · rw [if_pos hone]
    have hiff : f.holds = some j ↔ f.type = TYPE_FILE ∧ f.inode = some j :=
      File.holds_iff (by omega)
    cases hholds : f.holds with
    | none =>
      rw [if_neg]
      · rfl
      · intro hc
        rw [hiff.mpr hc.2] at hholds
        cases hholds
    | some i =>
      rw [hholds, Option.some.injEq] at hiff
      simp only [Option.map_some, Option.toList_some, List.map_singleton, List.sum_singleton,
        FsEvent.refs, hone, true_and, hiff]
  · rw [if_neg hone, if_neg fun hc => hone hc.1]
    rfl

/-- `fclose` takes a reference, and the last one closes the inode. -/
theorem fclose_spec {fail : Abort → Prop} (hok : s.fs.Ok) (hdir : (s.files k).type ≠ TYPE_DIR)
    (hlive : (s.files k).ref = 1 → (s.files k).type = TYPE_FILE →
      ∃ j, (s.files k).inode = some j ∧ 0 < (s.fs.inodes j).ref) :
    wp (fclose k) (fun _ s' => ∃ fs, fs.Ok ∧
      Effects s.fs.state (closings (s.files k) s.fs) fs.state ∧
      s' = { s with
        fs := fs
        files := Function.update s.files k { s.files k with ref := (s.files k).ref - 1 } })
      fail s := by
  rw [fclose, wp_bind, modFile, wp_update, wp_bind, getFile, wp_read]
  simp only [Function.update_self]
  rw [wp_ite]
  constructor
  · intro hlast
    have hone : (s.files k).ref = 1 := by omega
    have htype : (s.files k).type = TYPE_FILE := hlast.2.resolve_right hdir
    obtain ⟨j, hj, href⟩ := hlive hone htype
    have hevs : closings (s.files k) s.fs = [.closed j (s.fs.inodes j).no] := by
      rw [closings, if_pos hone, (File.holds_iff (by omega)).mpr ⟨htype, hj⟩]
      rfl
    rw [hj, hevs, wp_bind, deref, wp_pure, wp_inFs]
    refine (iclose_effects hok href rfl).imp ?_
    intro _ fs hfs
    exact ⟨fs, hfs.1, hfs.2, rfl⟩
  · intro hmore
    have hevs : closings (s.files k) s.fs = [] := by
      unfold closings
      split
      case isTrue hone =>
        have htype : (s.files k).type ≠ TYPE_FILE := fun htype => hmore ⟨by omega, Or.inl htype⟩
        rw [File.holds, if_neg fun hc => htype hc.2]
        rfl
      case isFalse => rfl
    rw [wp_pure, hevs]
    exact ⟨s.fs, hok, Lts.Run.refl _, rfl⟩

/-- What the tables say about an open file. -/
theorem Kernel.Tables.file_type (h : s.Tables) (hk : 0 < (s.files k).ref) :
    (s.files k).type ≠ TYPE_DIR ∧ ((s.files k).type = TYPE_FILE →
      ∃ j, (s.files k).inode = some j ∧ 0 < (s.fs.inodes j).ref) := by
  rcases h.file k hk with ⟨htype, j, hj, -⟩ | hdev
  · rw [htype]
    exact ⟨by decide, fun _ => ⟨j, hj, h.ref_of_holds (Kernel.Tables.holds_of_file hk htype hj)⟩⟩
  · rw [hdev]
    exact ⟨by decide, fun hc => by cases hc⟩

theorem Kernel.Tables.ref_of_fd {p : ProcPtr} {fd : Fin MAX_UFILE} (h : s.Tables)
    (hfd : (s.pcb p).files fd = some k) : 0 < (s.files k).ref := by
  rw [h.fileRef]
  exact refs_pos.mpr ⟨(p, fd), hfd⟩

/-- The state after the descriptor `fd` of process `p` has been cleared. -/
def Kernel.dropFd (s : Kernel) (fs : Fs) (p : ProcPtr) (fd : Fin MAX_UFILE) (k : FilePtr) :
    Kernel :=
  { s with
    fs := fs
    files := Function.update s.files k { s.files k with ref := (s.files k).ref - 1 }
    pcb := Function.update s.pcb p
      { s.pcb p with files := Function.update (s.pcb p).files fd none } }

theorem sys_close_spec {fail : Abort → Prop} (h : s.Tables) (fd : ℤ) :
    wp (sys_close fd) (fun o s' =>
      (entry (s.pcb s.curr).files fd = none ∧ o = .done (.int (-1)) ∧ s' = s) ∨
      ∃ i k fs, entry (s.pcb s.curr).files fd = some (i, k) ∧ o = .done (.int 0) ∧
        Effects s.fs.state (closings (s.files k) s.fs) fs.state ∧
        s' = s.dropFd fs s.curr i k ∧ s'.Tables) fail s := by
  rw [sys_close, wp_bind, proc_curr, wp_read, wp_bind, proc_getfile, wp_read]
  cases hentry : entry (s.pcb s.curr).files fd with
  | none => exact Or.inl ⟨rfl, rfl, rfl⟩
  | some ik =>
    obtain ⟨i, k⟩ := ik
    have hfd := entry_eq hentry
    obtain ⟨hdir, hlive⟩ := h.file_type (h.ref_of_fd hfd)
    simp only
    rw [wp_bind]
    refine (fclose_spec h.fs hdir fun _ => hlive).imp ?_
    intro _ s₁ hs₁
    obtain ⟨fs, hok, heff, rfl⟩ := hs₁
    rw [wp_bind, setFd, modProc, wp_update, ret, wp_pure]
    refine Or.inr ⟨i, k, fs, rfl, rfl, heff, rfl, ?_⟩
    exact h.dropFd hfd hok heff closes_closings refs_closings rfl rfl

/-! ### Opening -/

/-- The type of the object `fopen` makes when the path leads to none. -/
def openType (mode : ℕ) : UInt32 :=
  if mode &&& O_CREATE ≠ 0 then if mode &&& O_DIR ≠ 0 then TYPE_DIR else TYPE_FILE else TYPE_NONE

/-- The mode does not fit a file or a directory. -/
def Refused (type : UInt32) (mode : ℕ) : Prop :=
  type ≠ TYPE_DIR ∧ mode &&& O_DIR ≠ 0 ∨
    type = TYPE_DIR ∧ (mode &&& O_WRONLY ≠ 0 ∨ mode &&& O_RDWR ≠ 0 ∨ mode &&& O_TRUNC ≠ 0)

/-- The type of the object that is opened. -/
def targetType (fs : Fs) (cwd : ℕ) (path : List UInt8) (mode : ℕ) : UInt32 :=
  match resolve (objs fs.disk.bytes) cwd path with
  | some no => (objs fs.disk.bytes no).type
  | none => openType mode

/-- A slot after a failed `fopen`. -/
def File.shut (f : File) : File := { f with ref := 0, type := TYPE_NONE }

/-- A slot that is opened in some mode. -/
def File.moded (f : File) (mode : ℕ) : File :=
  { f with
    ref := 1
    readable := mode &&& O_WRONLY = 0
    writable := mode &&& O_WRONLY ≠ 0 ∨ mode &&& O_RDWR ≠ 0 }

def File.ofInode (f : File) (mode : ℕ) (j : InodePtr) : File :=
  { f.moded mode with type := TYPE_FILE, inode := some j, offset := 0 }

def File.ofDev (f : File) (mode : ℕ) (id : ℤ) : File :=
  { f.moded mode with type := TYPE_DEV, dev_op := dev_get id }

/-- What `fopen` returns and does, from a working directory with number `cwd`. -/
inductive Fopened (s : Kernel) (cwd : ℕ) (path : List UInt8) (mode : ℕ) :
    Option FilePtr → List FsEvent → Kernel → Prop
  | full : (∀ k, (s.files k).ref ≠ 0) → Fopened s cwd path mode none [] s
  | absent {k : FilePtr} {fs : Fs} {evs : List FsEvent} : (s.files k).ref = 0 →
      Opening s.fs cwd path (openType mode) none evs →
      Fopened s cwd path mode none evs
        { s with fs := fs, files := Function.update s.files k (s.files k).shut }
  | refused {k : FilePtr} {fs : Fs} {evs : List FsEvent} {j : InodePtr} {no : ℕ} :
      (s.files k).ref = 0 → Opening s.fs cwd path (openType mode) (some (j, no)) evs →
      targetType s.fs cwd path mode = TYPE_FILE ∨ targetType s.fs cwd path mode = TYPE_DIR →
      Refused (targetType s.fs cwd path mode) mode →
      Fopened s cwd path mode none (evs ++ [.closed j no])
        { s with fs := fs, files := Function.update s.files k (s.files k).shut }
  | file {k : FilePtr} {fs : Fs} {evs : List FsEvent} {j : InodePtr} {no : ℕ} :
      (s.files k).ref = 0 → Opening s.fs cwd path (openType mode) (some (j, no)) evs →
      targetType s.fs cwd path mode = TYPE_FILE ∨ targetType s.fs cwd path mode = TYPE_DIR →
      ¬ Refused (targetType s.fs cwd path mode) mode →
      (fs.inodes j).no = no → (fs.objOf j).type = targetType s.fs cwd path mode →
      (mode &&& O_TRUNC ≠ 0 → (fs.objOf j).size = 0) →
      Fopened s cwd path mode (some k)
        (evs ++ if mode &&& O_TRUNC ≠ 0 then [.wrote no] else [])
        { s with fs := fs, files := Function.update s.files k ((s.files k).ofInode mode j) }
  | device {k : FilePtr} {fs : Fs} {evs : List FsEvent} {j : InodePtr} {no : ℕ} {id : ℤ} :
      (s.files k).ref = 0 → Opening s.fs cwd path (openType mode) (some (j, no)) evs →
      targetType s.fs cwd path mode = TYPE_DEV →
      Fopened s cwd path mode (some k) (evs ++ [.closed j no])
        { s with fs := fs, files := Function.update s.files k ((s.files k).ofDev mode id) }

/-- The slot that `iopen` returns holds the object the path leads to. -/
theorem Opening.type_eq {fs fs' : Fs} {cwd : ℕ} {evs : List FsEvent}
    (h : Opening fs cwd path (openType mode) (some (j, no)) evs)
    (heff : Effects fs.state evs fs'.state) (hno : (fs'.inodes j).no = no) :
    (fs'.objOf j).type = targetType fs cwd path mode := by
  rw [Fs.objOf, hno, targetType]
  cases h with
  | found hres =>
    rw [hres]
    obtain ⟨heff, -⟩ := Lts.Run.of_single heff
    have hkept : Kept fs.disk.bytes fs'.disk.bytes no ∧ no < 1920 := by
      cases heff with
      | opened _ hlt _ hk => exact ⟨hk no hlt, hlt⟩
    simp only [objs_of_lt hkept.2, hkept.1.obj]
  | created htype hres hparent =>
    rw [hres]
    obtain ⟨heff, -⟩ := Lts.Run.of_single heff
    cases heff with
    | created _ _ _ _ _ hc => exact hc.child.type_eq

/-- A slot that `falloc` has found. -/
def File.taken (f : File) : File := { f with ref := 1, type := TYPE_NONE }

theorem falloc_spec {fail : Abort → Prop} :
    wp falloc (fun r s' => (r = none ∧ s' = s ∧ ∀ k, (s.files k).ref ≠ 0) ∨
      ∃ k, r = some k ∧ (s.files k).ref = 0 ∧
        s' = { s with files := Function.update s.files k (s.files k).taken }) fail s := by
  rw [falloc, wp_bind, wp_read]
  cases hfind : (List.finRange TOTAL_FILE).find? fun i => (s.files i).ref = 0 with
  | none =>
    rw [wp_pure]
    refine Or.inl ⟨rfl, rfl, fun k => ?_⟩
    simpa using List.find?_eq_none.mp hfind k (List.mem_finRange k)
  | some k =>
    have hzero : (s.files k).ref = 0 := by simpa using List.find?_some hfind
    rw [wp_bind, modFile, wp_update, wp_pure]
    refine Or.inr ⟨k, rfl, hzero, ?_⟩
    rw [hzero]
    rfl

/-- Why `sys_open` aborts: the disk is full, or the object has no type it knows. -/
def OpenAbort (s : Kernel) (cwd : ℕ) (path : List UInt8) (mode : ℕ) (e : Abort) : Prop :=
  DirAbort s.fs.disk.bytes s.fs.inodes 1 e ∨ e = .badType ∧
    targetType s.fs cwd path mode ≠ TYPE_FILE ∧ targetType s.fs cwd path mode ≠ TYPE_DIR ∧
    targetType s.fs cwd path mode ≠ TYPE_DEV

/-- The slot that `falloc` has found is given back. -/
theorem fclose_taken {fail : Abort → Prop} {f : File} (hk : s.files k = f.taken) :
    wp (fclose k) (fun _ s' => s' = { s with files := Function.update s.files k f.shut }) fail s := by
  rw [fclose, wp_bind, modFile, wp_update, wp_bind, getFile, wp_read, hk]
  simp only [Function.update_self]
  rw [wp_ite]
  constructor
  · intro hc
    rcases hc.2 with htype | htype <;> cases htype
  · intro _
    rfl

/-- The end of `fopen`, when the path has been opened. -/
theorem fopen_opened {fs : Fs} {cwd : ℕ} {evs : List FsEvent} (hzero : (s.files k).ref = 0)
    (hok : fs.Ok) (heff : Effects s.fs.state evs fs.state)
    (hopen : Opening s.fs cwd path (openType mode) (some (j, no)) evs)
    (href : 0 < (fs.inodes j).ref) (hno : (fs.inodes j).no = no) :
    wp (do
        let type ← inFs (itype j)
        if type = TYPE_FILE ∨ type = TYPE_DIR then
          if type ≠ TYPE_DIR ∧ mode &&& O_DIR ≠ 0 ∨ type = TYPE_DIR ∧
              (mode &&& O_WRONLY ≠ 0 ∨ mode &&& O_RDWR ≠ 0 ∨ mode &&& O_TRUNC ≠ 0) then
            fclose k
            inFs (iclose j)
            pure none
          else
            if mode &&& O_TRUNC ≠ 0 then inFs (itrunc j)
            modFile k fun f => { f with type := TYPE_FILE, inode := some j, offset := 0 }
            modFile k fun f => { f with
              readable := mode &&& O_WRONLY = 0
              writable := mode &&& O_WRONLY ≠ 0 ∨ mode &&& O_RDWR ≠ 0 }
            pure (some k)
        else if type = TYPE_DEV then
          let id ← inFs (idevid j)
          modFile k fun f => { f with type := TYPE_DEV, dev_op := dev_get id }
          inFs (iclose j)
          modFile k fun f => { f with
            readable := mode &&& O_WRONLY = 0
            writable := mode &&& O_WRONLY ≠ 0 ∨ mode &&& O_RDWR ≠ 0 }
          pure (some k)
        else abort .badType)
      (fun r s' => s'.fs.Ok ∧ ∃ evs, Effects s.fs.state evs s'.fs.state ∧
        Fopened s cwd path mode r evs s')
      (OpenAbort s cwd path mode)
      { s with fs := fs, files := Function.update s.files k (s.files k).taken } := by
  have htype := hopen.type_eq heff hno
  rw [wp_bind, wp_inFs]
  refine (itype_spec hok href).imp ?_
  intro t fs₁ ht
  obtain ⟨rfl, rfl⟩ := ht
  rw [htype, wp_ite]
  constructor
  · intro hknown
    rw [wp_ite]
    constructor
    -- a directory asked for that is none, or one opened for writing: both are closed again
    · intro hrefused
      rw [wp_bind]
      refine (fclose_taken (f := s.files k) (Function.update_self ..)).imp ?_
      intro _ s₂ hs₂
      subst hs₂
      rw [wp_bind, wp_inFs]
      refine (iclose_effects hok href hno).imp ?_
      intro _ fs' hfs'
      rw [wp_pure]
      refine ⟨hfs'.1, _, heff.trans hfs'.2, ?_⟩
      simp only [Function.update_idem]
      exact .refused hzero hopen hknown hrefused
    · intro hfits
      have htrunc (hset : mode &&& O_TRUNC ≠ 0) : targetType s.fs cwd path mode ≠ TYPE_DIR :=
        fun hdir => hfits (Or.inr ⟨hdir, Or.inr (Or.inr hset)⟩)
      rw [wp_ite]
      constructor
      · intro hset
        rw [wp_bind, wp_inFs]
        refine (itrunc_effects hok href hno (by rw [htype]; exact htrunc hset)).imp ?_
        intro _ fs' hfs'
        obtain ⟨hok', heff', hempty⟩ := hfs'
        rw [wp_bind, modFile, wp_update, wp_bind, modFile, wp_update, wp_pure]
        have hinv := hok.holds.2
        have href' : 0 < (fs'.inodes j).ref := by
          have hsum := Effects.ref_eq heff' j
          simp only [List.map_singleton, List.sum_singleton, FsEvent.refs, add_zero] at hsum
          exact hsum.ge.trans_lt' href
        obtain ⟨hsame, hkeep⟩ := Effects.slot_eq heff'
          (Kernel.Tables.Tidy.opens (by simp [FsEvent.closes])) hinv href href'
        refine ⟨hok', _, heff.trans heff', ?_⟩
        have hknown' : (fs₁.objOf j).type ≠ TYPE_NONE := by
          rw [htype]
          rcases hknown with hfile | hdir
          · rw [hfile]
            decide
          · rw [hdir]
            decide
        have htype' : (fs'.objOf j).type = targetType s.fs cwd path mode := by
          rw [Fs.objOf, show (fs'.inodes j).no = (fs₁.inodes j).no from hsame, ← htype]
          exact hkeep hknown'
        have hno' : (fs'.inodes j).no = no := hsame.trans hno
        have hempty' : (fs'.objOf j).size = 0 := by
          rw [Fs.objOf, hno']
          exact hempty
        have hfile := Fopened.file (k := k) hzero hopen hknown hfits hno' htype' fun _ => hempty'
        rw [if_pos hset] at hfile
        simp only [Function.update_idem, Function.update_self]
        exact hfile
      · intro hclear
        rw [wp_bind, modFile, wp_update, wp_bind, modFile, wp_update, wp_pure]
        refine ⟨hok, evs, heff, ?_⟩
        have hfile := Fopened.file (k := k) hzero hopen hknown hfits hno htype fun hset => (hclear hset).elim
        rw [if_neg hclear, List.append_nil] at hfile
        simp only [Function.update_idem, Function.update_self]
        exact hfile
  · intro hother
    rw [wp_ite]
    constructor
    -- a device keeps no slot
    · intro hdev
      rw [wp_bind, wp_inFs, idevid, wp_bind, getInode, wp_read, wp_pure, wp_bind, modFile,
        wp_update, wp_bind, wp_inFs]
      refine (iclose_effects hok href hno).imp ?_
      intro _ fs' hfs'
      rw [wp_bind, modFile, wp_update, wp_pure]
      refine ⟨hfs'.1, _, heff.trans hfs'.2, ?_⟩
      simp only [Function.update_idem, Function.update_self]
      exact Fopened.device hzero hopen hdev
    · intro hbad
      rw [wp_abort]
      rw [not_or] at hother
      exact Or.inr ⟨rfl, hother.1, hother.2, hbad⟩

theorem fopen_spec {c : InodePtr} (h : s.Tables) (hc : (s.pcb s.curr).cwd = some c)
    (h0 : (0 : UInt8) ∉ path) :
    wp (fopen path mode) (fun r s' => s'.fs.Ok ∧ ∃ evs, Effects s.fs.state evs s'.fs.state ∧
      Fopened s (s.fs.inodes c).no path mode r evs s')
      (OpenAbort s (s.fs.inodes c).no path mode) s := by
  rw [fopen, wp_bind]
  refine falloc_spec.imp ?_
  intro r s₁ hs₁
  rcases hs₁ with ⟨rfl, rfl, hfull⟩ | ⟨k, rfl, hzero, rfl⟩
  · exact ⟨h.fs, [], Lts.Run.refl _, .full hfull⟩
  · simp only
    rw [wp_bind, kopen, wp_bind, proc_curr, wp_read, wp_bind, wp_getProc, wp_inFs]
    simp only [hc]
    refine (iopen_effects h.fs (h.ref_of_cwd hc) rfl h0 fun _ _ hj => h.type_ne_none hj).mono ?_
      fun e he => Or.inl he
    intro r fs hr
    obtain ⟨hok, q, evs, rfl, heff, hopen, hslot⟩ := hr
    cases q with
    | none =>
      simp only [Option.map_none]
      rw [wp_bind]
      refine (fclose_taken (f := s.files k) (Function.update_self ..)).imp ?_
      intro _ s₂ hs₂
      subst hs₂
      rw [wp_pure]
      refine ⟨hok, evs, heff, ?_⟩
      simp only [Function.update_idem]
      exact .absent hzero hopen
    | some q =>
      obtain ⟨j, no⟩ := q
      obtain ⟨href, hno⟩ := hslot j no rfl
      exact fopen_opened hzero hok heff hopen href hno

theorem Opening.refs_eq {fs : Fs} {cwd : ℕ} {type : UInt32} {evs : List FsEvent}
    (h : Opening fs cwd path type (some (j, no)) evs) (i : InodePtr) :
    (evs.map (FsEvent.refs i)).sum = if j = i then 1 else 0 := by
  cases h <;> exact add_zero _

theorem Opening.opens {fs : Fs} {cwd : ℕ} {type : UInt32} {q : Option (InodePtr × ℕ)}
    {evs : List FsEvent} (h : Opening fs cwd path type q evs) : ∀ ev ∈ evs, ev.closes = false := by
  intro ev hev
  cases h <;> (rw [List.mem_singleton.mp hev]; rfl)

theorem Opening.tidy {fs : Fs} {cwd : ℕ} {type : UInt32} {q : Option (InodePtr × ℕ)}
    {evs evs' : List FsEvent} (h : Opening fs cwd path type q evs)
    (hevs' : ∀ ev ∈ evs', ev.opens = false) : Tidy (evs ++ evs') := ⟨evs, evs', rfl, h.opens, hevs'⟩

/-- A failed `fopen` leaves the tables as they were. -/
theorem Fopened.tables_none {s' : Kernel} {cwd : ℕ} {evs : List FsEvent} (h : s.Tables)
    (hopen : Fopened s cwd path mode none evs s') (hok : s'.fs.Ok)
    (heff : Effects s.fs.state evs s'.fs.state) : s'.Tables := by
  have hend {k : FilePtr} {fs : Fs} {evs : List FsEvent} (hzero : (s.files k).ref = 0) (hok : fs.Ok)
      (heff : Effects s.fs.state evs fs.state) (ht : Tidy evs)
      (hrefs : ∀ j, (evs.map (FsEvent.refs j)).sum = 0) :
      { s with fs := fs, files := Function.update s.files k (s.files k).shut }.Tables := by
    have hfs := h.onlyFs hok heff ht hrefs
    exact hfs.onlyFile (k := k) (f := (s.files k).shut) hzero.symm fun hpos =>
      absurd hpos (by simp [File.shut])
  cases hopen with
  | full => exact h
  | absent hzero hopen =>
    refine hend hzero hok heff (Kernel.Tables.Tidy.opens hopen.opens) fun j => ?_
    cases hopen
    rfl
  | @refused k fs evs j no hzero hopen _ _ =>
    refine hend hzero hok heff (hopen.tidy (by simp [FsEvent.opens])) fun i => ?_
    rw [List.map_append, List.sum_append, hopen.refs_eq, List.map_singleton, List.sum_singleton,
      FsEvent.refs]
    split <;> rfl

/-- After a successful one a free descriptor can be set. -/
theorem Fopened.tables_some {s' : Kernel} {cwd : ℕ} {evs : List FsEvent} {k : FilePtr}
    {fd : Fin MAX_UFILE} (h : s.Tables) (hopen : Fopened s cwd path mode (some k) evs s')
    (hok : s'.fs.Ok) (heff : Effects s.fs.state evs s'.fs.state)
    (hfd : (s.pcb s.curr).files fd = none) :
    { s' with pcb := Function.update s'.pcb s'.curr { s'.pcb s'.curr with
      files := Function.update (s'.pcb s'.curr).files fd (some k) } }.Tables := by
  cases hopen with
  | @file k fs evs j no hzero hopen hknown hfits hno htype _ =>
    have htidy : Tidy (evs ++ if mode &&& O_TRUNC ≠ 0 then [.wrote no] else []) := by
      apply hopen.tidy
      intro ev hev
      split at hev
      · rw [List.mem_singleton.mp hev]
        rfl
      · cases hev
    refine h.openFd hfd hzero hok heff htidy rfl (Or.inl ⟨rfl, j, rfl, ?_⟩) (fun i => ?_) rfl
    · rw [htype]
      refine hknown.imp id fun hdir => ⟨hdir, ?_⟩
      have hread : ¬ (mode &&& O_WRONLY ≠ 0 ∨ mode &&& O_RDWR ≠ 0) := fun hw =>
        hfits (Or.inr ⟨hdir, hw.imp_right Or.inl⟩)
      exact decide_eq_false hread
    · have hholds : ((s.files k).ofInode mode j).holds = some j :=
        (File.holds_iff Int.one_pos).mpr ⟨rfl, rfl⟩
      rw [List.map_append, List.sum_append, hopen.refs_eq, hholds]
      simp only [Option.some.injEq]
      split <;> split <;> rfl
  | @device k fs evs j no id hzero hopen hdev =>
    refine h.openFd hfd hzero hok heff (hopen.tidy (by simp [FsEvent.opens])) rfl (Or.inr rfl)
      (fun i => ?_) rfl
    have hholds : ((s.files k).ofDev mode id).holds = none := by
      rw [File.holds, if_neg]
      exact fun hc => absurd hc.2 (show TYPE_DEV ≠ TYPE_FILE by decide)
    rw [List.map_append, List.sum_append, hopen.refs_eq, hholds, List.map_singleton,
      List.sum_singleton, FsEvent.refs]
    simp only [reduceCtorEq, if_false]
    split <;> rfl

theorem sys_open_spec {c : InodePtr} (h : s.Tables) (hc : (s.pcb s.curr).cwd = some c)
    (h0 : (0 : UInt8) ∉ path) :
    wp (sys_open path mode) (fun o s' => s'.Tables ∧ ∃ evs, Effects s.fs.state evs s'.fs.state ∧
      ((o = .done (.int (-1)) ∧ ((∀ fd, (s.pcb s.curr).files fd ≠ none) ∧ s' = s ∧ evs = [] ∨
          (∃ fd, (s.pcb s.curr).files fd = none) ∧
            Fopened s (s.fs.inodes c).no path mode none evs s')) ∨
        ∃ fd k s₁, (s.pcb s.curr).files fd = none ∧ o = .done (.int fd.val) ∧
          Fopened s (s.fs.inodes c).no path mode (some k) evs s₁ ∧
          s' = { s₁ with pcb := Function.update s₁.pcb s₁.curr { s₁.pcb s₁.curr with
            files := Function.update (s₁.pcb s₁.curr).files fd (some k) } }))
      (OpenAbort s (s.fs.inodes c).no path mode) s := by
  rw [sys_open, wp_bind, proc_curr, wp_read, wp_bind, proc_allocfile, wp_read]
  cases hfind : (List.finRange MAX_UFILE).find? fun i => (s.pcb s.curr).files i = none with
  | none =>
    refine ⟨h, [], Lts.Run.refl _, Or.inl ⟨rfl, Or.inl ⟨fun fd => ?_, rfl, rfl⟩⟩⟩
    simpa using List.find?_eq_none.mp hfind fd (List.mem_finRange fd)
  | some fd =>
    have hfd : (s.pcb s.curr).files fd = none := by simpa using List.find?_some hfind
    simp only
    rw [wp_bind]
    refine (fopen_spec h hc h0).imp ?_
    intro r s₁ hr
    obtain ⟨hok, evs, heff, hopen⟩ := hr
    cases r with
    | none =>
      exact ⟨hopen.tables_none h hok heff, evs, heff, Or.inl ⟨rfl, Or.inr ⟨⟨fd, hfd⟩, hopen⟩⟩⟩
    | some k =>
      simp only
      have hcurr : s₁.curr = s.curr := by cases hopen <;> rfl
      rw [wp_bind, setFd, modProc, wp_update, ret, wp_pure, ← hcurr]
      exact ⟨hopen.tables_some h hok heff hfd, evs, heff, Or.inr ⟨fd, k, s₁, hcurr ▸ hfd, rfl, hopen, rfl⟩⟩

/-! ### Duplicating -/

theorem sys_dup_spec {fail : Abort → Prop} (h : s.Tables) (fd : ℤ) :
    wp (sys_dup fd) (fun o s' =>
      ((entry (s.pcb s.curr).files fd = none ∨ ∀ new, (s.pcb s.curr).files new ≠ none) ∧
        o = .done (.int (-1)) ∧ s' = s) ∨
      ∃ i k new, entry (s.pcb s.curr).files fd = some (i, k) ∧
        (s.pcb s.curr).files new = none ∧ o = .done (.int new.val) ∧
        s' = { s with
          files := Function.update s.files k { s.files k with ref := (s.files k).ref + 1 }
          pcb := Function.update s.pcb s.curr { s.pcb s.curr with
            files := Function.update (s.pcb s.curr).files new (some k) } } ∧ s'.Tables) fail s := by
  rw [sys_dup, wp_bind, proc_curr, wp_read, wp_bind, proc_getfile, wp_read]
  cases hentry : entry (s.pcb s.curr).files fd with
  | none => exact Or.inl ⟨Or.inl rfl, rfl, rfl⟩
  | some ik =>
    obtain ⟨i, k⟩ := ik
    simp only
    rw [wp_bind, proc_allocfile, wp_read]
    cases hfind : (List.finRange MAX_UFILE).find? fun i => (s.pcb s.curr).files i = none with
    | none =>
      refine Or.inl ⟨Or.inr fun new => ?_, rfl, rfl⟩
      simpa using List.find?_eq_none.mp hfind new (List.mem_finRange new)
    | some new =>
      have hnew : (s.pcb s.curr).files new = none := by simpa using List.find?_some hfind
      simp only
      rw [wp_bind, fdup, wp_bind, modFile, wp_update, wp_pure, wp_bind, setFd, modProc, wp_update, ret,
        wp_pure]
      refine Or.inr ⟨i, k, new, rfl, hnew, rfl, rfl, ?_⟩
      exact h.dupFd hnew (h.ref_of_fd (entry_eq hentry)) rfl rfl

/-! ### Reading, writing and seeking -/

/-- The file system changes and a file is at another offset. -/
def Kernel.setOffset (s : Kernel) (fs : Fs) (k : FilePtr) (off : UInt32) : Kernel :=
  { s with fs := fs, files := Function.update s.files k { s.files k with offset := off } }

theorem Kernel.Tables.setOffset {fs : Fs} {off : UInt32} {evs : List FsEvent} (h : s.Tables)
    (hok : fs.Ok) (heff : Effects s.fs.state evs fs.state) (ht : Tidy evs)
    (hrefs : ∀ j, (evs.map (FsEvent.refs j)).sum = 0) : (s.setOffset fs k off).Tables :=
  (h.onlyFs hok heff ht hrefs).onlyFile rfl fun _ => ⟨rfl, rfl, rfl⟩

/-- What `sys_read` returns and does. -/
inductive SysRead (s : Kernel) (fd : ℤ) (size : ℕ) : Outcome → Kernel → Prop
  | closed : entry (s.pcb s.curr).files fd = none → SysRead s fd size (.done (.int (-1))) s
  | barred {i : Fin MAX_UFILE} {k : FilePtr} : entry (s.pcb s.curr).files fd = some (i, k) →
      (s.files k).readable = false → SysRead s fd size (.done (.int (-1))) s
  | file {i : Fin MAX_UFILE} {k : FilePtr} {j : InodePtr} {fs : Fs} {bs : List UInt8} :
      entry (s.pcb s.curr).files fd = some (i, k) → (s.files k).readable = true →
      (s.files k).type = TYPE_FILE → (s.files k).inode = some j →
      Effects s.fs.state [.grow] fs.state →
      bs = (s.fs.objOf j).bytes.slice (s.files k).offset.toNat
        (min size ((s.fs.objOf j).size - (s.files k).offset.toNat)) →
      SysRead s fd size (.done (.bytes bs))
        (s.setOffset fs k ((s.files k).offset + UInt32.ofNat bs.length))
  | device {i : Fin MAX_UFILE} {k : FilePtr} {o : Outcome} {s' : Kernel} :
      entry (s.pcb s.curr).files fd = some (i, k) → (s.files k).readable = true →
      (s.files k).type = TYPE_DEV → s'.links = s.links → SysRead s fd size o s'

theorem sys_read_tables (h : s.Tables) (fd : ℤ) (size : ℕ) :
    wp (sys_read fd size) (fun o s' => s'.Tables ∧ SysRead s fd size o s') (fun _ => True) s := by
  rw [sys_read, wp_bind, proc_curr, wp_read, wp_bind, proc_getfile, wp_read]
  cases hentry : entry (s.pcb s.curr).files fd with
  | none => exact ⟨h, .closed hentry⟩
  | some ik =>
    obtain ⟨i, k⟩ := ik
    have hk := h.ref_of_fd (entry_eq hentry)
    obtain ⟨hdir, hlive⟩ := h.file_type hk
    simp only
    rw [fread, wp_bind, getFile, wp_read, wp_ite]
    constructor
    · intro hbarred
      exact ⟨h, .barred hentry hbarred⟩
    · intro hreadable
      rw [Bool.not_eq_false] at hreadable
      rw [wp_ite]
      constructor
      · intro htype
        have hfile := htype.resolve_right hdir
        obtain ⟨j, hj, href⟩ := hlive hfile
        rw [hj, wp_bind, deref, wp_pure, wp_bind, wp_inFs]
        refine (iread_effects h.fs href _ size).mono ?_ fun _ _ => trivial
        intro bs fs hfs
        obtain ⟨hok, heff, hbs⟩ := hfs
        rw [wp_bind, modFile, wp_update, wp_pure]
        exact ⟨h.setOffset hok heff (Kernel.Tables.Tidy.opens (by simp [FsEvent.closes]))
          fun _ => rfl, .file hentry hreadable hfile hj heff hbs⟩
      · intro hother
        rcases h.file k hk with ⟨htype, -⟩ | hdev
        · exact (hother (Or.inl htype)).elim
        · rw [if_pos hdev, wp_bind]
          cases (s.files k).dev_op with
          | none => trivial
          | some dev =>
            rw [deref, wp_pure]
            cases dev with
            | serial =>
              refine ((linked_serial_read size []).wp s).imp ?_
              intro o s' hs'
              exact ⟨h.congr hs', .device hentry hreadable hdev hs'⟩
            | null => exact ⟨h, .device hentry hreadable hdev rfl⟩

/-- What `sys_write` returns and does. -/
inductive SysWrite (s : Kernel) (fd : ℤ) (buf : List UInt8) : Outcome → Kernel → Prop
  | closed : entry (s.pcb s.curr).files fd = none → SysWrite s fd buf (.done (.int (-1))) s
  | barred {i : Fin MAX_UFILE} {k : FilePtr} : entry (s.pcb s.curr).files fd = some (i, k) →
      (s.files k).writable = false → SysWrite s fd buf (.done (.int (-1))) s
  | beyond {i : Fin MAX_UFILE} {k : FilePtr} {j : InodePtr} {fs : Fs} :
      entry (s.pcb s.curr).files fd = some (i, k) → (s.files k).writable = true →
      (s.files k).type = TYPE_FILE → (s.files k).inode = some j →
      (s.fs.objOf j).size < (s.files k).offset.toNat → fs.state = s.fs.state →
      SysWrite s fd buf (.done (.int (-1))) { s with fs := fs }
  | file {i : Fin MAX_UFILE} {k : FilePtr} {j : InodePtr} {fs : Fs} :
      entry (s.pcb s.curr).files fd = some (i, k) → (s.files k).writable = true →
      (s.files k).type = TYPE_FILE → (s.files k).inode = some j →
      (s.files k).offset.toNat ≤ (s.fs.objOf j).size →
      Effects s.fs.state [.wrote (s.fs.inodes j).no] fs.state →
      obj fs.disk.bytes (s.fs.inodes j).no = (s.fs.objOf j).write (s.files k).offset.toNat buf →
      SysWrite s fd buf (.done (.int buf.length))
        (s.setOffset fs k ((s.files k).offset + UInt32.ofNat buf.length))
  | device {i : Fin MAX_UFILE} {k : FilePtr} : entry (s.pcb s.curr).files fd = some (i, k) →
      (s.files k).writable = true → (s.files k).type = TYPE_DEV →
      SysWrite s fd buf (.done (.int buf.length)) s

theorem sys_write_tables (h : s.Tables) (fd : ℤ) (buf : List UInt8) :
    wp (sys_write fd buf) (fun o s' => s'.Tables ∧ SysWrite s fd buf o s') (fun _ => True) s := by
  rw [sys_write, wp_bind, proc_curr, wp_read, wp_bind, proc_getfile, wp_read]
  cases hentry : entry (s.pcb s.curr).files fd with
  | none => exact ⟨h, .closed hentry⟩
  | some ik =>
    obtain ⟨i, k⟩ := ik
    have hk := h.ref_of_fd (entry_eq hentry)
    simp only
    rw [fwrite, wp_bind, getFile, wp_read, wp_ite]
    constructor
    · intro hbarred
      exact ⟨h, .barred hentry hbarred⟩
    · intro hwritable
      rw [Bool.not_eq_false] at hwritable
      rcases h.file k hk with ⟨hfile, j, hj, htypes⟩ | hdev
      · have href := h.ref_of_holds (Kernel.Tables.holds_of_file hk hfile hj)
        have htype : (s.fs.objOf j).type = TYPE_FILE := by
          refine htypes.resolve_right fun hdir => ?_
          rw [hdir.2] at hwritable
          cases hwritable
        rw [if_pos (Or.inl hfile), hj, wp_bind, deref, wp_pure, wp_bind, wp_inFs]
        refine (iwrite_effects h.fs href rfl htype _ buf).mono ?_ fun _ _ => trivial
        intro r fs hfs
        obtain ⟨hok, ⟨rfl, hbig, hstate⟩ | ⟨rfl, hle, heff, hobj⟩⟩ := hfs
        · rw [if_neg (by simp), ret, wp_pure]
          refine ⟨h.onlyFs hok (hstate ▸ Lts.Run.refl _) Kernel.Tables.Tidy.nil fun _ => rfl, ?_⟩
          exact .beyond hentry hwritable hfile hj hbig hstate
        · rw [if_pos (by omega), wp_bind, modFile, wp_update, ret, wp_pure]
          exact ⟨h.setOffset hok heff (Kernel.Tables.Tidy.opens (by simp [FsEvent.closes]))
            fun _ => rfl, .file hentry hwritable hfile hj hle heff hobj⟩
      · have hnot : ¬ ((s.files k).type = TYPE_FILE ∨ (s.files k).type = TYPE_DIR) := by
          rw [hdev]
          decide
        rw [if_neg hnot, if_pos hdev, wp_bind]
        cases (s.files k).dev_op with
        | none => exact trivial
        | some dev => exact ⟨h, .device hentry hwritable hdev⟩

/-- The offset `fseek` sets in a file whose object has `size` bytes. -/
def seekTo (f : File) (size : ℕ) (off : UInt32) (whence : ℕ) : UInt32 :=
  if whence = SEEK_SET then off
  else if whence = SEEK_CUR then f.offset + off
  else if whence = SEEK_END then UInt32.ofNat size + off
  else f.offset

/-- What `sys_lseek` returns and does. -/
inductive SysSeek (s : Kernel) (fd : ℤ) (off : UInt32) (whence : ℕ) : Outcome → Kernel → Prop
  | closed : entry (s.pcb s.curr).files fd = none → SysSeek s fd off whence (.done (.int (-1))) s
  | file {i : Fin MAX_UFILE} {k : FilePtr} {j : InodePtr} {pos : UInt32} :
      entry (s.pcb s.curr).files fd = some (i, k) → (s.files k).type = TYPE_FILE →
      (s.files k).inode = some j → pos = seekTo (s.files k) (s.fs.objOf j).size off whence →
      SysSeek s fd off whence (.done (.int pos.toBitVec.toInt)) (s.setOffset s.fs k pos)
  | device {i : Fin MAX_UFILE} {k : FilePtr} : entry (s.pcb s.curr).files fd = some (i, k) →
      (s.files k).type = TYPE_DEV → SysSeek s fd off whence (.done (.int (-1))) s

theorem sys_lseek_tables {fail : Abort → Prop} (h : s.Tables) (fd : ℤ) (off : UInt32)
    (whence : ℕ) :
    wp (sys_lseek fd off whence) (fun o s' => s'.Tables ∧ SysSeek s fd off whence o s') fail s := by
  rw [sys_lseek, wp_bind, proc_curr, wp_read, wp_bind, proc_getfile, wp_read]
  cases hentry : entry (s.pcb s.curr).files fd with
  | none => exact ⟨h, .closed hentry⟩
  | some ik =>
    obtain ⟨i, k⟩ := ik
    have hk := h.ref_of_fd (entry_eq hentry)
    obtain ⟨hdir, hlive⟩ := h.file_type hk
    simp only
    rw [wp_bind, fseek, wp_bind, getFile, wp_read]
    rcases h.file k hk with ⟨hfile, -⟩ | hdev
    · obtain ⟨j, hj, href⟩ := hlive hfile
      rw [if_pos (Or.inl hfile)]
      -- whatever the offset is
      have hend (pos : UInt32) (hpos : pos = seekTo (s.files k) (s.fs.objOf j).size off whence) :
          (s.setOffset s.fs k pos).Tables ∧
            SysSeek s fd off whence (.done (.int pos.toBitVec.toInt)) (s.setOffset s.fs k pos) :=
        ⟨h.setOffset h.fs (Lts.Run.refl _) Kernel.Tables.Tidy.nil fun _ => rfl,
          .file hentry hfile hj hpos⟩
      by_cases hset : whence = SEEK_SET
      · simp only [if_pos hset, wp_bind, modFile, wp_update, wp_read, wp_pure, ret,
          Function.update_self]
        exact hend off (by rw [seekTo, if_pos hset])
      rw [if_neg hset]
      by_cases hcur : whence = SEEK_CUR
      · simp only [if_pos hcur, wp_bind, modFile, wp_update, wp_read, wp_pure, ret,
          Function.update_self]
        exact hend ((s.files k).offset + off) (by rw [seekTo, if_neg hset, if_pos hcur])
      rw [if_neg hcur]
      by_cases hfin : whence = SEEK_END
      · rw [if_pos hfin, hj, wp_bind, deref, wp_pure, wp_bind, wp_inFs]
        refine (isize_spec h.fs href).imp ?_
        intro n fs hn
        obtain ⟨rfl, rfl⟩ := hn
        simp only [wp_bind, modFile, wp_update, wp_read, wp_pure, ret, Function.update_self]
        exact hend (UInt32.ofNat (s.fs.objOf j).size + off)
          (by rw [seekTo, if_neg hset, if_neg hcur, if_pos hfin])
      · simp only [if_neg hfin, wp_bind, wp_read, wp_pure, ret]
        have hpos := hend (s.files k).offset (by rw [seekTo, if_neg hset, if_neg hcur, if_neg hfin])
        have hsame : s.setOffset s.fs k (s.files k).offset = s := by
          rw [Kernel.setOffset, Function.update_eq_self]
        rwa [hsame] at hpos
    · have hnot : ¬ ((s.files k).type = TYPE_FILE ∨ (s.files k).type = TYPE_DIR) := by
        rw [hdev]
        decide
      rw [if_neg hnot, wp_pure]
      exact ⟨h, .device hentry hdev⟩

theorem sys_fstat_tables (h : s.Tables) (fd : ℤ) :
    wp (sys_fstat fd) (fun _ s' => s'.Tables ∧ s' = s) (fun _ => True) s := by
  have hkeeps : Keeps id (sys_fstat fd) := by
    refine Keeps.read.bind fun curr => Keeps.read.bind fun file => ?_
    cases file with
    | none => exact Keeps.pure _
    | some ik =>
      refine Keeps.read.bind fun file => Keeps.ite ?_ (Keeps.ite (Keeps.pure _) (Keeps.pure _))
      refine Keeps.bind ?_ fun j => Keeps.bind ?_ fun _ => Keeps.pure _
      · cases file.inode with
        | none => exact Keeps.abort _
        | some j => exact Keeps.pure _
      · apply Keeps.of_wp
        intro s
        rw [wp_inFs]
        rfl
  refine (hkeeps.wp s).imp ?_
  intro _ s' hs'
  obtain rfl : s' = s := hs'
  exact ⟨h, rfl⟩

/-! ### Working directories and names -/

/-- What `sys_chdir` returns and does, from the working directory `c`. -/
inductive SysChdir (s : Kernel) (c : InodePtr) (path : List UInt8) :
    Outcome → List FsEvent → Kernel → Prop
  | absent {fs : Fs} : resolve (objs s.fs.disk.bytes) (s.fs.inodes c).no path = none →
      SysChdir s c path (.done (.int (-1))) [.grow] { s with fs := fs }
  | noDir {fs : Fs} {j : InodePtr} {no : ℕ} :
      resolve (objs s.fs.disk.bytes) (s.fs.inodes c).no path = some no →
      (objs s.fs.disk.bytes no).type ≠ TYPE_DIR →
      SysChdir s c path (.done (.int (-1))) [.opened j no, .closed j no] { s with fs := fs }
  | dir {fs : Fs} {j : InodePtr} {no : ℕ} :
      resolve (objs s.fs.disk.bytes) (s.fs.inodes c).no path = some no →
      (objs s.fs.disk.bytes no).type = TYPE_DIR → 0 < (fs.inodes j).ref → (fs.inodes j).no = no →
      SysChdir s c path (.done (.int 0)) [.opened j no, .closed c (s.fs.inodes c).no]
        { s with fs := fs, pcb := Function.update s.pcb s.curr { s.pcb s.curr with cwd := some j } }

theorem kopen_spec {c : InodePtr} (h : s.Tables) (hc : (s.pcb s.curr).cwd = some c)
    (h0 : (0 : UInt8) ∉ path) :
    wp (kopen path TYPE_NONE) (fun r s' => ∃ fs q evs, s' = { s with fs := fs } ∧ fs.Ok ∧
      r = q.map Prod.fst ∧ Effects s.fs.state evs fs.state ∧
      Opening s.fs (s.fs.inodes c).no path TYPE_NONE q evs ∧
      ∀ j no, q = some (j, no) → 0 < (fs.inodes j).ref ∧ (fs.inodes j).no = no)
      (DirAbort s.fs.disk.bytes s.fs.inodes 1) s := by
  rw [kopen, wp_bind, proc_curr, wp_read, wp_bind, wp_getProc, wp_inFs, hc]
  refine (iopen_effects h.fs (h.ref_of_cwd hc) rfl h0 fun hne => (hne rfl).elim).imp ?_
  intro r fs hr
  obtain ⟨hok, q, evs, hq, heff, hopen, hslot⟩ := hr
  exact ⟨fs, q, evs, rfl, hok, hq, heff, hopen, hslot⟩

/-- An object opened without being made is one the path leads to. -/
theorem Opening.of_none {fs : Fs} {cwd : ℕ} {q : Option (InodePtr × ℕ)} {evs : List FsEvent}
    (h : Opening fs cwd path TYPE_NONE q evs) :
    (q = none ∧ evs = [.grow] ∧ resolve (objs fs.disk.bytes) cwd path = none) ∨
      ∃ j no, q = some (j, no) ∧ evs = [.opened j no] ∧
        resolve (objs fs.disk.bytes) cwd path = some no := by
  cases h with
  | absent hres _ => exact Or.inl ⟨rfl, rfl, hres⟩
  | found hres => exact Or.inr ⟨_, _, rfl, rfl, hres⟩
  | created hne => exact (hne rfl).elim

/-- Opening keeps the objects. -/
theorem Effects.opened_obj {st st' : FsState} (h : Effects st [.opened j no] st') :
    no < 1920 ∧ ∀ no < 1920, Kept st.1 st'.1 no := by
  obtain ⟨heff, -⟩ := Lts.Run.of_single h
  cases heff with
  | opened _ hlt _ hk => exact ⟨hlt, hk⟩

theorem sys_chdir_tables {c : InodePtr} (h : s.Tables) (hc : (s.pcb s.curr).cwd = some c)
    (h0 : (0 : UInt8) ∉ path) :
    wp (sys_chdir path) (fun o s' => s'.Tables ∧ ∃ evs, Effects s.fs.state evs s'.fs.state ∧
      SysChdir s c path o evs s') (DirAbort s.fs.disk.bytes s.fs.inodes 1) s := by
  rw [sys_chdir, wp_bind, proc_curr, wp_read, wp_bind]
  refine (kopen_spec h hc h0).imp ?_
  intro r s₁ hs₁
  obtain ⟨fs, q, evs, rfl, hok, rfl, heff, hopen, hslot⟩ := hs₁
  rcases hopen.of_none with ⟨rfl, rfl, hres⟩ | ⟨j, no, rfl, rfl, hres⟩
  · exact ⟨h.onlyFs hok heff (Kernel.Tables.Tidy.opens hopen.opens) fun _ => rfl, _, heff,
      .absent hres⟩
  · obtain ⟨href, hno⟩ := hslot j no rfl
    obtain ⟨hlt, hkept⟩ := Effects.opened_obj heff
    have hobj : fs.objOf j = objs s.fs.disk.bytes no := by
      rw [Fs.objOf, hno, objs_of_lt hlt]
      exact (hkept no hlt).obj
    simp only [Option.map_some]
    rw [wp_bind, wp_inFs]
    refine (itype_spec hok href).imp ?_
    intro t fs₁ ht
    obtain ⟨rfl, rfl⟩ := ht
    rw [hobj, wp_ite]
    constructor
    · intro hdir
      rw [wp_bind, wp_inFs]
      refine (iclose_effects hok href hno).imp ?_
      intro _ fs₂ hfs₂
      obtain ⟨hok₂, heff₂⟩ := hfs₂
      have heffs := heff.trans heff₂
      refine ⟨h.onlyFs hok₂ heffs (hopen.tidy (by simp [FsEvent.opens])) fun i => ?_, _, heffs,
        .noDir hres hdir⟩
      simp only [List.singleton_append, List.map_cons, List.map_nil, List.sum_cons, List.sum_nil,
        FsEvent.refs]
      split <;> rfl
    · intro hdir
      rw [not_not] at hdir
      rw [wp_bind, wp_getProc]
      simp only [hc]
      rw [wp_bind, deref, wp_pure, wp_bind, wp_inFs]
      -- the old directory is still held
      have href_c : 0 < (fs₁.inodes c).ref := by
        have hsum := Effects.ref_eq heff c
        simp only [List.map_singleton, List.sum_singleton, FsEvent.refs] at hsum
        have hpos := h.ref_of_cwd hc
        change (fs₁.inodes c).ref = (s.fs.inodes c).ref + _ at hsum
        split at hsum <;> omega
      have hno_c : (fs₁.inodes c).no = (s.fs.inodes c).no :=
        (Effects.slot_eq heff (Kernel.Tables.Tidy.opens hopen.opens) h.fs.holds.2 (h.ref_of_cwd hc)
          href_c).1
      refine (iclose_effects hok href_c hno_c).imp ?_
      intro _ fs₂ hfs₂
      obtain ⟨hok₂, heff₂⟩ := hfs₂
      have heffs := heff.trans heff₂
      rw [wp_bind, modProc, wp_update, ret, wp_pure]
      have href_j : 0 < (fs₂.inodes j).ref := by
        have hsum := Effects.ref_eq heffs j
        simp only [List.singleton_append, List.map_cons, List.map_nil, List.sum_cons, List.sum_nil,
          FsEvent.refs, if_true] at hsum
        have hpos := h.ref_of_cwd hc
        have hnonneg := h.fs.holds.2.ref j
        change (fs₂.inodes j).ref = (s.fs.inodes j).ref + _ at hsum
        by_cases hcj : c = j
        · subst hcj
          rw [if_pos rfl] at hsum
          omega
        · rw [if_neg hcj] at hsum
          omega
      obtain ⟨hsame, htype⟩ := Effects.slot_eq heff₂ (Kernel.Tables.Tidy.closes (by simp [FsEvent.opens]))
        hok.holds.2 href href_j
      have hno₂ : (fs₂.inodes j).no = no := hsame.trans hno
      have hdir₂ : (fs₂.objOf j).type = TYPE_DIR := by
        have hold : (fs₁.objOf j).type = TYPE_DIR := by rw [hobj, hdir]
        rw [Fs.objOf, show (fs₂.inodes j).no = (fs₁.inodes j).no from hsame, ← hold]
        exact htype (by
          change (fs₁.objOf j).type ≠ TYPE_NONE
          rw [hold]
          decide)
      refine ⟨h.setCwd (v := some j) hok₂ heffs (hopen.tidy (by simp [FsEvent.opens])) (fun i => ?_)
        (fun i hi => ?_) rfl, _, heffs, .dir hres hdir href_j hno₂⟩
      · rw [hc]
        simp only [List.singleton_append, List.map_cons, List.map_nil, List.sum_cons, List.sum_nil,
          FsEvent.refs, Option.some.injEq]
        split <;> split <;> rfl
      · cases hi
        exact hdir₂

theorem sys_unlink_tables {c : InodePtr} (h : s.Tables) (hc : (s.pcb s.curr).cwd = some c)
    (h0 : (0 : UInt8) ∉ path) :
    wp (sys_unlink path) (fun o s' => s'.Tables ∧ ∃ fs r evs, s' = { s with fs := fs } ∧
      o = .done (.int r) ∧ Effects s.fs.state evs fs.state ∧
      Removing s.fs fs (s.fs.inodes c).no path r evs)
      (DirAbort s.fs.disk.bytes s.fs.inodes 2) s := by
  rw [sys_unlink, wp_bind, proc_curr, wp_read, wp_bind, wp_getProc, wp_bind, wp_inFs, hc]
  refine (iremove_effects h.fs (h.ref_of_cwd hc) rfl h0).imp ?_
  intro r fs hfs
  obtain ⟨hok, evs, heff, hrem⟩ := hfs
  rw [ret, wp_pure]
  refine ⟨h.onlyFs hok heff ?_ ?_, fs, r, evs, rfl, rfl, heff, hrem⟩
  · cases hrem with
    | failed => exact Kernel.Tables.Tidy.opens (by simp [FsEvent.closes])
    | @removed d e t name j k _ =>
      refine ⟨[.opened j d, .opened k t, .grow, .unlinked d e t k], [.closed j d, .closed k t], rfl,
        ?_, ?_⟩
      · simp [FsEvent.closes]
      · simp [FsEvent.opens]
  · intro i
    cases hrem with
    | failed => rfl
    | removed =>
      simp only [List.map_cons, List.map_nil, List.sum_cons, List.sum_nil, FsEvent.refs]
      split <;> split <;> rfl

/-! ### Loading -/

/-- Reading from a slot keeps it in use. -/
theorem iread_keeps {fs : Fs} (hok : fs.Ok) (href : 0 < (fs.inodes j).ref) (hno : (fs.inodes j).no = no)
    (off len : ℕ) :
    wp (iread j off len) (fun _ fs' => fs'.Ok ∧ Effects fs.state [.grow] fs'.state ∧
      0 < (fs'.inodes j).ref ∧ (fs'.inodes j).no = no) (fun _ => True) fs := by
  refine (iread_effects hok href off len).mono ?_ fun _ _ => trivial
  intro _ fs' hfs'
  obtain ⟨hok', heff, -⟩ := hfs'
  have href' : 0 < (fs'.inodes j).ref := by
    have hsum := Effects.ref_eq heff j
    simp only [List.map_singleton, List.sum_singleton, FsEvent.refs, add_zero] at hsum
    exact hsum.ge.trans_lt' href
  have hsame := (Effects.slot_eq heff (Kernel.Tables.Tidy.opens (by simp [FsEvent.closes]))
    hok.holds.2 href href').1
  exact ⟨hok', heff, href', hsame.trans hno⟩

/-- What `load_elf` does to the file system: the file is opened, read and closed. -/
def Loading (evs : List FsEvent) : Prop :=
  evs = [.grow] ∨ ∃ j no n, evs = .opened j no :: List.replicate n .grow ++ [.closed j no]

theorem sys_exec_tables {c : InodePtr} (h : s.Tables) (hc : (s.pcb s.curr).cwd = some c)
    (h0 : (0 : UInt8) ∉ path) :
    wp (load_user path) (fun _ s' => s'.Tables ∧ ∃ fs evs, s' = { s with fs := fs } ∧
      Effects s.fs.state evs fs.state ∧ Loading evs) (fun _ => True) s := by
  rw [load_user, wp_bind, load_elf, wp_bind]
  refine (kopen_spec h hc h0).mono ?_ fun _ _ => trivial
  intro r s₁ hs₁
  obtain ⟨fs, q, evs, rfl, hok, rfl, heff, hopen, hslot⟩ := hs₁
  rcases hopen.of_none with ⟨rfl, rfl, hres⟩ | ⟨j, no, rfl, rfl, hres⟩
  · exact ⟨h.onlyFs hok heff (Kernel.Tables.Tidy.opens hopen.opens) fun _ => rfl, fs, _, rfl, heff,
      Or.inl rfl⟩
  · obtain ⟨href, hno⟩ := hslot j no rfl
    simp only [Option.map_some]
    -- the state while the file is open, and how it ends
    obtain ⟨Open, hOpen⟩ : ∃ Open : Kernel → Prop, Open = fun s' => ∃ fs' n, s' = { s with fs := fs' } ∧
      fs'.Ok ∧ Effects s.fs.state (.opened j no :: List.replicate n .grow) fs'.state ∧
      0 < (fs'.inodes j).ref ∧ (fs'.inodes j).no = no := ⟨_, rfl⟩
    have hread {s' : Kernel} (hs' : Open s') (off len : ℕ) :
        wp (inFs (iread j off len)) (fun _ s'' => Open s'') (fun _ => True) s' := by
      subst hOpen
      obtain ⟨fs', n, rfl, hok', heff', href', hno'⟩ := hs'
      rw [wp_inFs]
      refine (iread_keeps hok' href' hno' off len).imp ?_
      intro _ fs'' hfs''
      obtain ⟨hok'', heff'', href'', hno''⟩ := hfs''
      refine ⟨fs'', n + 1, rfl, hok'', ?_, href'', hno''⟩
      have heffs := heff'.trans heff''
      rwa [List.cons_append, ← List.replicate_succ'] at heffs
    have hclose {s' : Kernel} (hs' : Open s') (eip : UInt32) :
        wp (do
            inFs (iclose j)
            pure eip) (fun _ s'' => s''.Tables ∧ ∃ fs evs, s'' = { s with fs := fs } ∧
          Effects s.fs.state evs fs.state ∧ Loading evs) (fun _ => True) s' := by
      subst hOpen
      obtain ⟨fs', n, rfl, hok', heff', href', hno'⟩ := hs'
      rw [wp_bind, wp_inFs]
      refine (iclose_effects hok' href' hno').imp ?_
      intro _ fs'' hfs''
      obtain ⟨hok'', heff''⟩ := hfs''
      have heffs := heff'.trans heff''
      rw [wp_pure]
      refine ⟨h.onlyFs hok'' heffs ?_ fun i => ?_, fs'', _, rfl, heffs, Or.inr ⟨j, no, n, rfl⟩⟩
      · refine ⟨.opened j no :: List.replicate n .grow, [.closed j no], rfl, ?_, by simp [FsEvent.opens]⟩
        intro ev hev
        rcases List.mem_cons.mp hev with rfl | hev
        · rfl
        · rw [List.eq_of_mem_replicate hev]
          rfl
      · have hgrow : (List.replicate n (FsEvent.refs i .grow)).sum = 0 := by
          rw [List.sum_replicate]
          exact nsmul_zero n
        simp only [List.map_append, List.map_cons, List.map_nil, List.map_replicate, List.sum_append,
          List.sum_cons, List.sum_nil, hgrow]
        simp only [FsEvent.refs]
        split <;> rfl
    have hstart : Open { s with fs := fs } := by
      subst hOpen
      exact ⟨fs, 0, rfl, hok, heff, href, hno⟩
    rw [wp_bind, wp_read, wp_bind]
    refine (hread hstart 0 EHDR_SIZE).imp ?_
    intro bs s₂ hs₂
    rw [wp_ite]
    constructor
    · intro _
      exact hclose hs₂ (-1)
    · intro _
      rw [wp_bind]
      refine wp_loop (fun _ _ s' => Open s') _ _ hs₂ ?_ fun ph s₃ hs₃ => hclose hs₃ _
      intro i is ph s₃ hs₃
      rw [wp_bind]
      refine (hread hs₃ _ _).imp ?_
      intro bs s₄ hs₄
      rw [wp_ite]
      constructor
      · intro _
        rw [wp_bind]
        refine (hread hs₄ _ _).imp ?_
        intro _ s₅ hs₅
        exact hs₅
      · intro _
        exact hs₄

end Oslab
