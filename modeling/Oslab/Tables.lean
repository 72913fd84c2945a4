/-
# The tables between system calls

Every count is the number of references to its slot, an open file is a device or
has an inode that is a file, or a directory it cannot write, and a working
directory is a directory. Each change to the tables keeps this when the inodes
the slots hold stay what they are.
-/
import Oslab.Lib.Refs
import Oslab.FsOps
import Oslab.Kernel

namespace Oslab

open Lib Lib.Prog

/-! ### References -/

/-- The file every descriptor of every process refers to. -/
def fdTable (pcb : ProcPtr → Proc) (x : ProcPtr × Fin MAX_UFILE) : Option FilePtr :=
  (pcb x.1).files x.2

/-- The semaphore every identifier of every process refers to. -/
def usemTable (pcb : ProcPtr → Proc) (x : ProcPtr × Fin MAX_USEM) : Option UsemPtr :=
  (pcb x.1).usems x.2

/-- The inode a file refers to. -/
def File.holds (f : File) : Option InodePtr := if 0 < f.ref ∧ f.type = TYPE_FILE then f.inode else none

/-- The inode every open file refers to. -/
def openTable (files : FilePtr → File) (k : FilePtr) : Option InodePtr := (files k).holds

/-- The working directory of every process. -/
def cwdTable (pcb : ProcPtr → Proc) (p : ProcPtr) : Option InodePtr := (pcb p).cwd

theorem File.holds_iff {f : File} {j : InodePtr} (h : 0 < f.ref) :
    f.holds = some j ↔ f.type = TYPE_FILE ∧ f.inode = some j := by
  unfold holds
  by_cases htype : f.type = TYPE_FILE
  · simp [h, htype]
  · simp [htype]

/-- An open file is what `fopen` makes. -/
def File.Sound (f : File) (fs : Fs) : Prop :=
  (f.type = TYPE_FILE ∧ ∃ j, f.inode = some j ∧
    ((fs.objOf j).type = TYPE_FILE ∨ (fs.objOf j).type = TYPE_DIR ∧ f.writable = false)) ∨
  f.type = TYPE_DEV

/-- The tables of the kernel fit together. -/
structure Kernel.Tables (s : Kernel) : Prop where
  fs : s.fs.Ok
  fileRef : ∀ k, (s.files k).ref = refs (fdTable s.pcb) k
  usemRef : ∀ u, (s.user_sem u).ref = refs (usemTable s.pcb) u
  inodeRef : ∀ j, (s.fs.inodes j).ref = refs (openTable s.files) j + refs (cwdTable s.pcb) j
  file : ∀ k, 0 < (s.files k).ref → (s.files k).Sound s.fs
  cwd : ∀ p j, (s.pcb p).cwd = some j → (s.fs.objOf j).type = TYPE_DIR

section Update

variable {pcb : ProcPtr → Proc} {files : FilePtr → File} {p : ProcPtr} {pr : Proc} {k : FilePtr}
  {f : File}

theorem fdTable_update {fd : Fin MAX_UFILE} {v : Option FilePtr}
    (h : pr.files = Function.update (pcb p).files fd v) :
    fdTable (Function.update pcb p pr) = Function.update (fdTable pcb) (p, fd) v := by
  funext ⟨q, fd'⟩
  unfold fdTable
  by_cases hq : q = p
  · subst hq
    simp only [Function.update_self, h]
    by_cases hfd : fd' = fd
    · rw [hfd, Function.update_self, Function.update_self]
    · rw [Function.update_of_ne hfd, Function.update_of_ne fun heq => hfd (Prod.ext_iff.mp heq).2]
  · simp only [Function.update_of_ne hq]
    rw [Function.update_of_ne fun heq => hq (Prod.ext_iff.mp heq).1]

theorem fdTable_same (h : pr.files = (pcb p).files) :
    fdTable (Function.update pcb p pr) = fdTable pcb := by
  funext ⟨q, fd⟩
  unfold fdTable
  by_cases hq : q = p
  · rw [hq, Function.update_self, h]
  · simp only [Function.update_of_ne hq]

theorem usemTable_update {id : Fin MAX_USEM} {v : Option UsemPtr}
    (h : pr.usems = Function.update (pcb p).usems id v) :
    usemTable (Function.update pcb p pr) = Function.update (usemTable pcb) (p, id) v := by
  funext ⟨q, id'⟩
  unfold usemTable
  by_cases hq : q = p
  · subst hq
    simp only [Function.update_self, h]
    by_cases hid : id' = id
    · rw [hid, Function.update_self, Function.update_self]
    · rw [Function.update_of_ne hid, Function.update_of_ne fun heq => hid (Prod.ext_iff.mp heq).2]
  · simp only [Function.update_of_ne hq]
    rw [Function.update_of_ne fun heq => hq (Prod.ext_iff.mp heq).1]

theorem usemTable_same (h : pr.usems = (pcb p).usems) :
    usemTable (Function.update pcb p pr) = usemTable pcb := by
  funext ⟨q, id⟩
  unfold usemTable
  by_cases hq : q = p
  · rw [hq, Function.update_self, h]
  · simp only [Function.update_of_ne hq]

theorem cwdTable_update :
    cwdTable (Function.update pcb p pr) = Function.update (cwdTable pcb) p pr.cwd := by
  funext q
  unfold cwdTable
  by_cases hq : q = p
  · rw [hq, Function.update_self, Function.update_self]
  · rw [Function.update_of_ne hq, Function.update_of_ne hq]

theorem cwdTable_same (h : pr.cwd = (pcb p).cwd) :
    cwdTable (Function.update pcb p pr) = cwdTable pcb := by
  rw [cwdTable_update, h]
  exact Function.update_eq_self p _

theorem openTable_update :
    openTable (Function.update files k f) = Function.update (openTable files) k f.holds := by
  funext q
  unfold openTable
  by_cases hq : q = k
  · rw [hq, Function.update_self, Function.update_self]
  · rw [Function.update_of_ne hq, Function.update_of_ne hq]

theorem openTable_same (h : f.holds = (files k).holds) :
    openTable (Function.update files k f) = openTable files := by
  rw [openTable_update, h]
  exact Function.update_eq_self k _

end Update

/-! ### What the tables say -/

namespace Kernel.Tables

variable {s s' : Kernel} {k : FilePtr} {j : InodePtr} {p : ProcPtr}

/-- A file that refers to an inode keeps its slot in use. -/
theorem ref_of_holds (h : s.Tables) (hk : openTable s.files k = some j) : 0 < (s.fs.inodes j).ref := by
  have hpos := refs_pos.mpr ⟨k, hk⟩
  have hnonneg := refs_nonneg (cwdTable s.pcb) j
  rw [h.inodeRef]
  omega

theorem ref_of_cwd (h : s.Tables) (hp : (s.pcb p).cwd = some j) : 0 < (s.fs.inodes j).ref := by
  have hpos := refs_pos.mpr (⟨p, hp⟩ : ∃ p, cwdTable s.pcb p = some j)
  have hnonneg := refs_nonneg (openTable s.files) j
  rw [h.inodeRef]
  omega

theorem holds_eq_some (h : openTable s.files k = some j) :
    0 < (s.files k).ref ∧ (s.files k).type = TYPE_FILE ∧ (s.files k).inode = some j := by
  unfold openTable File.holds at h
  split at h
  case isTrue hc => exact ⟨hc.1, hc.2, h⟩
  case isFalse => cases h

/-- Every inode in use is a file or a directory. -/
theorem type_of_ref (h : s.Tables) (hj : 0 < (s.fs.inodes j).ref) :
    (s.fs.objOf j).type = TYPE_FILE ∨ (s.fs.objOf j).type = TYPE_DIR := by
  have hsum := h.inodeRef j
  have hcases : 0 < refs (openTable s.files) j ∨ 0 < refs (cwdTable s.pcb) j := by
    by_contra hnone
    omega
  rcases hcases with hopen | hcwd
  · obtain ⟨k, hk⟩ := refs_pos.mp hopen
    obtain ⟨href, htype, hinode⟩ := holds_eq_some hk
    rcases h.file k href with ⟨-, j', hj', htypes⟩ | hdev
    · rw [hinode] at hj'
      cases hj'
      exact htypes.imp id And.left
    · rw [htype] at hdev
      cases hdev
  · obtain ⟨p, hp⟩ := refs_pos.mp hcwd
    exact Or.inr (h.cwd p j hp)

theorem type_ne_none (h : s.Tables) (hj : 0 < (s.fs.inodes j).ref) :
    (s.fs.objOf j).type ≠ TYPE_NONE := by
  rcases h.type_of_ref hj with htype | htype <;> rw [htype] <;> decide

/-- A file in use that refers to an inode. -/
theorem holds_of_file (hk : 0 < (s.files k).ref) (htype : (s.files k).type = TYPE_FILE)
    (hinode : (s.files k).inode = some j) : openTable s.files k = some j := by
  unfold openTable File.holds
  rw [if_pos ⟨hk, htype⟩]
  exact hinode

/-- A slot in use before and after effects holds an object of the same type. -/
theorem objOf_type {evs : List FsEvent} (h : s.Tables)
    (heff : Effects s.fs.state evs s'.fs.state) (ht : Tidy evs) (hj : 0 < (s.fs.inodes j).ref)
    (hj' : 0 < (s'.fs.inodes j).ref) : (s'.fs.objOf j).type = (s.fs.objOf j).type := by
  obtain ⟨hno, htype⟩ := Effects.slot_eq heff ht h.fs.holds.2 hj hj'
  unfold Fs.objOf
  rw [show (s'.fs.inodes j).no = (s.fs.inodes j).no from hno]
  exact htype (h.type_ne_none hj)

/-- The tables after effects: the counts are right again, and every file in use was in use
with the same inode or is sound. -/
theorem next {evs : List FsEvent} (h : s.Tables) (hok : s'.fs.Ok)
    (heff : Effects s.fs.state evs s'.fs.state) (ht : Tidy evs)
    (hfileRef : ∀ k, (s'.files k).ref = refs (fdTable s'.pcb) k)
    (husemRef : ∀ u, (s'.user_sem u).ref = refs (usemTable s'.pcb) u)
    (hinodeRef : ∀ j, (s.fs.inodes j).ref + (evs.map (FsEvent.refs j)).sum =
      refs (openTable s'.files) j + refs (cwdTable s'.pcb) j)
    (hfile : ∀ k, 0 < (s'.files k).ref → (s'.files k).Sound s'.fs ∨ 0 < (s.files k).ref ∧
      (s'.files k).type = (s.files k).type ∧ (s'.files k).inode = (s.files k).inode ∧
      (s'.files k).writable = (s.files k).writable)
    (hcwd : ∀ p j, (s'.pcb p).cwd = some j → (∃ q, (s.pcb q).cwd = some j) ∨
      (s'.fs.objOf j).type = TYPE_DIR) : s'.Tables := by
  have hinodeRef' (j : InodePtr) :
      (s'.fs.inodes j).ref = refs (openTable s'.files) j + refs (cwdTable s'.pcb) j := by
    rw [← hinodeRef j]
    exact Effects.ref_eq heff j
  refine ⟨hok, hfileRef, husemRef, hinodeRef', fun k hk => ?_, fun p j hp => ?_⟩
  · rcases hfile k hk with hsound | ⟨hold, htype, hinode, hwr⟩
    · exact hsound
    · rcases h.file k hold with ⟨htf, j, hj, htypes⟩ | hdev
      · refine Or.inl ⟨htype.trans htf, j, hinode.trans hj, ?_⟩
        have hj₀ := h.ref_of_holds (holds_of_file hold htf hj)
        have hopen : openTable s'.files k = some j :=
          holds_of_file hk (htype.trans htf) (hinode.trans hj)
        have hpos := refs_pos.mpr ⟨k, hopen⟩
        have hnonneg := refs_nonneg (cwdTable s'.pcb) j
        have hj₁ : 0 < (s'.fs.inodes j).ref := by
          rw [hinodeRef']
          omega
        rw [h.objOf_type heff ht hj₀ hj₁, hwr]
        exact htypes
      · exact Or.inr (htype.trans hdev)
  · rcases hcwd p j hp with ⟨q, hq⟩ | hdir
    · have hpos := refs_pos.mpr (⟨p, hp⟩ : ∃ p, cwdTable s'.pcb p = some j)
      have hnonneg := refs_nonneg (openTable s'.files) j
      have hj₁ : 0 < (s'.fs.inodes j).ref := by
        rw [hinodeRef']
        omega
      rw [h.objOf_type heff ht (h.ref_of_cwd hq) hj₁]
      exact h.cwd q j hq
    · exact hdir

/-! ### One change at a time -/

/-- Nothing changes in the file system. -/
theorem Effects.idle (fs : Fs) : Effects fs.state [] fs.state := Lts.Run.refl _

theorem Tidy.nil : Tidy [] := ⟨[], [], rfl, by simp, by simp⟩

theorem Tidy.opens {evs : List FsEvent} (h : ∀ ev ∈ evs, ev.closes = false) : Tidy evs :=
  ⟨evs, [], by simp, h, by simp⟩

theorem Tidy.closes {evs : List FsEvent} (h : ∀ ev ∈ evs, ev.opens = false) : Tidy evs :=
  ⟨[], evs, by simp, by simp, h⟩

/-- The process table changes, but no reference in it. -/
theorem core {pcb : ProcPtr → Proc} (h : s.Tables) (hfiles : ∀ q, (pcb q).files = (s.pcb q).files)
    (husems : ∀ q, (pcb q).usems = (s.pcb q).usems) (hcwd : ∀ q, (pcb q).cwd = (s.pcb q).cwd) :
    { s with pcb := pcb }.Tables := by
  have hfd : fdTable pcb = fdTable s.pcb := funext fun x => congrFun (hfiles x.1) x.2
  have hus : usemTable pcb = usemTable s.pcb := funext fun x => congrFun (husems x.1) x.2
  have hcw : cwdTable pcb = cwdTable s.pcb := funext hcwd
  refine ⟨h.fs, ?_, ?_, ?_, h.file, fun p j hp => h.cwd p j ((hcwd p).symm.trans hp)⟩
  · simp only [hfd]
    exact h.fileRef
  · simp only [hus]
    exact h.usemRef
  · simp only [hcw]
    exact h.inodeRef

/-- The file system changes, but no reference to it. -/
theorem onlyFs {fs : Fs} {evs : List FsEvent} (h : s.Tables) (hok : fs.Ok)
    (heff : Effects s.fs.state evs fs.state) (ht : Tidy evs)
    (hrefs : ∀ j, (evs.map (FsEvent.refs j)).sum = 0) : { s with fs := fs }.Tables := by
  refine h.next hok heff ht h.fileRef h.usemRef (fun j => ?_) (fun k hk => ?_) fun p j hp => ?_
  · rw [hrefs j, add_zero, h.inodeRef]
  · exact Or.inr ⟨hk, rfl, rfl, rfl⟩
  · exact Or.inl ⟨p, hp⟩

/-- A file changes, but not what it refers to. -/
theorem onlyFile {f : File} (h : s.Tables) (href : f.ref = (s.files k).ref)
    (hsame : 0 < f.ref → f.type = (s.files k).type ∧ f.inode = (s.files k).inode ∧
      f.writable = (s.files k).writable) :
    { s with files := Function.update s.files k f }.Tables := by
  have hholds : f.holds = (s.files k).holds := by
    rw [File.holds, File.holds, href]
    by_cases hpos : 0 < (s.files k).ref
    · obtain ⟨htype, hinode, -⟩ := hsame (by omega)
      rw [htype, hinode]
    · rw [if_neg fun hc => hpos hc.1, if_neg fun hc => hpos hc.1]
  refine h.next h.fs (Effects.idle s.fs) Tidy.nil (fun q => ?_) h.usemRef (fun j => ?_)
    (fun q hq => ?_) fun p j hp => Or.inl ⟨p, hp⟩
  · simp only
    rw [← h.fileRef q]
    by_cases hqk : q = k
    · rw [hqk, Function.update_self, href]
    · rw [Function.update_of_ne hqk]
  · simp only [openTable_same hholds, List.map_nil, List.sum_nil, add_zero]
    exact h.inodeRef j
  · by_cases hqk : q = k
    · subst hqk
      simp only [Function.update_self] at hq ⊢
      exact Or.inr ⟨by omega, hsame hq⟩
    · simp only [Function.update_of_ne hqk] at hq ⊢
      exact Or.inr ⟨hq, trivial, trivial, trivial⟩

/-- A free descriptor is set to a new file. -/
theorem openFd {fd : Fin MAX_UFILE} {fs : Fs} {evs : List FsEvent} {f : File} {pr : Proc}
    (h : s.Tables) (hfd : (s.pcb p).files fd = none) (hk : (s.files k).ref = 0)
    (hok : fs.Ok) (heff : Effects s.fs.state evs fs.state) (ht : Tidy evs) (hf : f.ref = 1)
    (hsound : f.Sound fs)
    (hevs : ∀ j, (evs.map (FsEvent.refs j)).sum = if f.holds = some j then 1 else 0)
    (hpr : pr = { s.pcb p with files := Function.update (s.pcb p).files fd (some k) }) :
    { s with fs := fs, files := Function.update s.files k f,
             pcb := Function.update s.pcb p pr }.Tables := by
  have hfds : fdTable (Function.update s.pcb p pr) =
      Function.update (fdTable s.pcb) (p, fd) (some k) := fdTable_update (by rw [hpr])
  have husems : usemTable (Function.update s.pcb p pr) = usemTable s.pcb :=
    usemTable_same (by rw [hpr])
  have hcwds : cwdTable (Function.update s.pcb p pr) = cwdTable s.pcb := cwdTable_same (by rw [hpr])
  have hold : fdTable s.pcb (p, fd) = none := hfd
  refine h.next hok heff ht (fun q => ?_) (fun u => ?_) (fun j => ?_) (fun q hq => ?_)
    fun q j hq => ?_
  · simp only [hfds, refs_update, hold, reduceCtorEq, if_false, sub_zero, Option.some.injEq]
    by_cases hqk : q = k
    · subst hqk
      rw [Function.update_self, hf, if_pos rfl, ← h.fileRef, hk, zero_add]
    · rw [Function.update_of_ne hqk, if_neg (Ne.symm hqk), add_zero, h.fileRef]
  · simp only [husems]
    exact h.usemRef u
  · have hnone : openTable s.files k = none := by
      unfold openTable File.holds
      rw [if_neg fun hc => by omega]
    simp only [openTable_update, hcwds, refs_update, hevs j, h.inodeRef j, hnone, reduceCtorEq,
      if_false]
    omega
  · by_cases hqk : q = k
    · subst hqk
      simp only [Function.update_self]
      exact Or.inl hsound
    · simp only [Function.update_of_ne hqk] at hq ⊢
      exact Or.inr ⟨hq, trivial, trivial, trivial⟩
  · exact Or.inl ⟨q, (congrFun hcwds q).symm.trans hq⟩

/-- A semaphore identifier is set or cleared. -/
theorem setUsem {id : Fin MAX_USEM} {v : Option UsemPtr} {us : UsemPtr → Usem} {pr : Proc}
    (h : s.Tables) (hus : ∀ u, (us u).ref = (s.user_sem u).ref -
      (if (s.pcb p).usems id = some u then 1 else 0) + if v = some u then 1 else 0)
    (hpr : pr = { s.pcb p with usems := Function.update (s.pcb p).usems id v }) :
    { s with user_sem := us, pcb := Function.update s.pcb p pr }.Tables := by
  have hfds : fdTable (Function.update s.pcb p pr) = fdTable s.pcb := fdTable_same (by rw [hpr])
  have husems : usemTable (Function.update s.pcb p pr) =
      Function.update (usemTable s.pcb) (p, id) v := usemTable_update (by rw [hpr])
  have hcwds : cwdTable (Function.update s.pcb p pr) = cwdTable s.pcb := cwdTable_same (by rw [hpr])
  refine h.next h.fs (Effects.idle s.fs) Tidy.nil (fun q => ?_) (fun u => ?_) (fun j => ?_)
    (fun q hq => Or.inr ⟨hq, rfl, rfl, rfl⟩) fun q j hq => ?_
  · simp only [hfds]
    exact h.fileRef q
  · simp only [husems, refs_update, hus u, h.usemRef u]
    rfl
  · simp only [hcwds, List.map_nil, List.sum_nil, add_zero]
    exact h.inodeRef j
  · exact Or.inl ⟨q, (congrFun hcwds q).symm.trans hq⟩

/-- A working directory is set or cleared. -/
theorem setCwd {v : Option InodePtr} {fs : Fs} {evs : List FsEvent} {pr : Proc}
    (h : s.Tables) (hok : fs.Ok) (heff : Effects s.fs.state evs fs.state) (ht : Tidy evs)
    (hevs : ∀ j, (evs.map (FsEvent.refs j)).sum =
      (if v = some j then 1 else 0) - if (s.pcb p).cwd = some j then 1 else 0)
    (hv : ∀ j, v = some j → (fs.objOf j).type = TYPE_DIR)
    (hpr : pr = { s.pcb p with cwd := v }) :
    { s with fs := fs, pcb := Function.update s.pcb p pr }.Tables := by
  have hfds : fdTable (Function.update s.pcb p pr) = fdTable s.pcb := fdTable_same (by rw [hpr])
  have husems : usemTable (Function.update s.pcb p pr) = usemTable s.pcb :=
    usemTable_same (by rw [hpr])
  refine h.next hok heff ht (fun q => ?_) (fun u => ?_) (fun j => ?_)
    (fun q hq => Or.inr ⟨hq, rfl, rfl, rfl⟩) fun q j hq => ?_
  · simp only [hfds]
    exact h.fileRef q
  · simp only [husems]
    exact h.usemRef u
  · have hpr' : pr.cwd = v := by rw [hpr]
    have hold : cwdTable s.pcb p = (s.pcb p).cwd := rfl
    simp only [cwdTable_update, refs_update, hevs j, h.inodeRef j, hpr', hold]
    omega
  · by_cases hqp : q = p
    · simp only [hqp, Function.update_self, hpr] at hq
      exact Or.inr (hv j hq)
    · simp only [Function.update_of_ne hqp] at hq
      exact Or.inl ⟨q, hq⟩

/-- A free descriptor is set to a file in use. -/
theorem dupFd {fd : Fin MAX_UFILE} {f : File} {pr : Proc} (h : s.Tables)
    (hfd : (s.pcb p).files fd = none) (hk : 0 < (s.files k).ref)
    (hf : f = { s.files k with ref := (s.files k).ref + 1 })
    (hpr : pr = { s.pcb p with files := Function.update (s.pcb p).files fd (some k) }) :
    { s with files := Function.update s.files k f, pcb := Function.update s.pcb p pr }.Tables := by
  have hfds : fdTable (Function.update s.pcb p pr) =
      Function.update (fdTable s.pcb) (p, fd) (some k) := fdTable_update (by rw [hpr])
  have husems : usemTable (Function.update s.pcb p pr) = usemTable s.pcb :=
    usemTable_same (by rw [hpr])
  have hcwds : cwdTable (Function.update s.pcb p pr) = cwdTable s.pcb := cwdTable_same (by rw [hpr])
  have hholds : f.holds = (s.files k).holds := by
    rw [File.holds, File.holds, hf]
    simp only [hk, show 0 < (s.files k).ref + 1 by omega]
  have hold : fdTable s.pcb (p, fd) = none := hfd
  refine h.next h.fs (Effects.idle s.fs) Tidy.nil (fun q => ?_) (fun u => ?_) (fun j => ?_)
    (fun q hq => ?_) fun q j hq => ?_
  · simp only [hfds, refs_update, hold, reduceCtorEq, if_false, sub_zero, Option.some.injEq]
    by_cases hqk : q = k
    · subst hqk
      rw [Function.update_self, hf, if_pos rfl, ← h.fileRef]
    · rw [Function.update_of_ne hqk, if_neg (Ne.symm hqk), add_zero, h.fileRef]
  · simp only [husems]
    exact h.usemRef u
  · simp only [openTable_same hholds, hcwds, List.map_nil, List.sum_nil, add_zero]
    exact h.inodeRef j
  · by_cases hqk : q = k
    · subst hqk
      simp only [Function.update_self, hf]
      exact Or.inr ⟨hk, trivial, trivial, trivial⟩
    · simp only [Function.update_of_ne hqk] at hq ⊢
      exact Or.inr ⟨hq, trivial, trivial, trivial⟩
  · exact Or.inl ⟨q, (congrFun hcwds q).symm.trans hq⟩

/-- A descriptor is cleared; the last one of a file closes its inode. -/
theorem dropFd {fd : Fin MAX_UFILE} {fs : Fs} {evs : List FsEvent} {f : File} {pr : Proc}
    (h : s.Tables) (hfd : (s.pcb p).files fd = some k) (hok : fs.Ok)
    (heff : Effects s.fs.state evs fs.state) (hcloses : ∀ ev ∈ evs, ev.opens = false)
    (hevs : ∀ j, (evs.map (FsEvent.refs j)).sum =
      if (s.files k).ref = 1 ∧ (s.files k).type = TYPE_FILE ∧ (s.files k).inode = some j then -1
      else 0)
    (hf : f = { s.files k with ref := (s.files k).ref - 1 })
    (hpr : pr = { s.pcb p with files := Function.update (s.pcb p).files fd none }) :
    { s with fs := fs, files := Function.update s.files k f,
             pcb := Function.update s.pcb p pr }.Tables := by
  have hfds : fdTable (Function.update s.pcb p pr) =
      Function.update (fdTable s.pcb) (p, fd) none := fdTable_update (by rw [hpr])
  have husems : usemTable (Function.update s.pcb p pr) = usemTable s.pcb :=
    usemTable_same (by rw [hpr])
  have hcwds : cwdTable (Function.update s.pcb p pr) = cwdTable s.pcb := cwdTable_same (by rw [hpr])
  have hold : fdTable s.pcb (p, fd) = some k := hfd
  have hk : 0 < (s.files k).ref := by
    rw [h.fileRef]
    exact refs_pos.mpr ⟨(p, fd), hfd⟩
  refine h.next hok heff (Tidy.closes hcloses) (fun q => ?_) (fun u => ?_) (fun j => ?_)
    (fun q hq => ?_) fun q j hq => ?_
  · simp only [hfds, refs_update, hold, reduceCtorEq, if_false, add_zero, Option.some.injEq]
    by_cases hqk : q = k
    · subst hqk
      rw [Function.update_self, hf, if_pos rfl, ← h.fileRef]
    · rw [Function.update_of_ne hqk, if_neg (Ne.symm hqk), sub_zero, h.fileRef]
  · simp only [husems]
    exact h.usemRef u
  · simp only [openTable_update, hcwds, refs_update]
    rw [hevs j, h.inodeRef j]
    have hlast : f.holds = if (s.files k).ref = 1 then none else (s.files k).holds := by
      simp only [File.holds, hf, hk, true_and]
      by_cases hone : (s.files k).ref = 1
      · simp [hone]
      · simp only [show 0 < (s.files k).ref - 1 by omega, hone, true_and, if_false]
    have hiff : openTable s.files k = some j ↔
        (s.files k).type = TYPE_FILE ∧ (s.files k).inode = some j := File.holds_iff hk
    simp only [hlast, hiff]
    by_cases hone : (s.files k).ref = 1
    · simp only [hone, true_and, if_true, reduceCtorEq, if_false]
      split <;> omega
    · have hiff' : (s.files k).holds = some j ↔
          (s.files k).type = TYPE_FILE ∧ (s.files k).inode = some j := File.holds_iff hk
      simp only [hone, false_and, if_false, hiff']
      omega
  · by_cases hqk : q = k
    · subst hqk
      simp only [Function.update_self, hf]
      exact Or.inr ⟨hk, trivial, trivial, trivial⟩
    · simp only [Function.update_of_ne hqk] at hq ⊢
      exact Or.inr ⟨hq, trivial, trivial, trivial⟩
  · exact Or.inl ⟨q, (congrFun hcwds q).symm.trans hq⟩

end Kernel.Tables

end Oslab