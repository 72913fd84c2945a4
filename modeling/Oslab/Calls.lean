/-
# The calls of one process

A process makes one call after the other, and no other process runs in between. What it sees
is its descriptors, its working directory and the objects on the disk. Opening a
directory, reading and closing it, and going to another one are described by what they do to these.
-/
import Oslab.Bindings

namespace Oslab

open Lib Lib.Prog

/-! ### A process alone -/

/-- A call of the current process, with something on its kernel stack. When another process goes
on before there is a reply, the rest is not followed. -/
def syscall (junk : Kernel → Mem) (c : Call) : KernelM Reply := do
  let stack ← read junk
  match ← handle (.call c stack) with
  | some r => pure r
  | none => abort .hang

/-- The current process gets from one state to another by calls alone. -/
def Kernel.Alone : Kernel → Kernel → Prop := Relation.ReflTransGen fun s s' =>
  ∃ call junk r, s.step ⟨(s.pcb s.curr).pid, .call call junk, some r⟩ s'

/-- A state of a run in which the current process may make a call. -/
structure Kernel.Calling (s : Kernel) : Prop where
  reach : (machine Mkfs.ApartImage).Reachable s
  user : (s.pcb s.curr).kont = .user
  loaded : s.curr ≠ 0

/-- The descriptors of the current process. -/
def Kernel.fds (s : Kernel) : Fin MAX_UFILE → Option FilePtr := (s.pcb s.curr).files

/-- The counts of the files. -/
def Kernel.fileRefs (s : Kernel) (k : FilePtr) : ℤ := (s.files k).ref

/-- The current process sees the same in both states. -/
structure Kernel.Agrees (s s' : Kernel) : Prop where
  fs : s'.fs = s.fs
  files : s'.files = s.files
  fds : s'.fds = s.fds
  cwd : (s'.pcb s'.curr).cwd = (s.pcb s.curr).cwd

section Rule

variable {s s' t : Kernel} {c : Call} {junk : Kernel → Mem} {fail : Abort → Prop}

theorem Kernel.Calling.inOrder (h : s.Calling) : s.InOrder := RunningApart.inOrder ⟨s, h.reach⟩

theorem Kernel.Agrees.of_links (hcurr : s'.curr = s.curr) (hlinks : s'.links = s.links) :
    s.Agrees s' := by
  have hheld : (s'.pcb s.curr).held = (s.pcb s.curr).held :=
    congrFun (congrArg Links.held hlinks) s.curr
  refine ⟨congrArg Links.fs hlinks, congrArg Links.files hlinks, ?_, ?_⟩
  · rw [Kernel.fds, Kernel.fds, hcurr]
    exact congrArg Held.files hheld
  · rw [hcurr]
    exact congrArg Held.cwd hheld

/-- **The rule for calls.** A call that is over has been one step of the machine, after which the
same process goes on. -/
theorem wp_syscall {post : Reply → Kernel → Prop} (hs : s.Calling)
    (h : wp (do_syscall c) (fun o s' => s'.curr = s.curr ∧ ∃ r, o = .done r ∧
        ∀ t : Kernel, s.Alone t → t.Calling → s'.Agrees t → post r t) fail
      { s with fs := { s.fs with junk := junk s } }) :
    wp (syscall junk c) post fail s := by
  have hspec : wp (handle (.call c (junk s))) (fun ro t => ∃ r, ∃ s' : Kernel, ro = some r ∧
      s'.curr = s.curr ∧ t.curr = s'.curr ∧ (t.pcb t.curr).kont = .user ∧ s'.Agrees t ∧
      ∀ t : Kernel, s.Alone t → t.Calling → s'.Agrees t → post r t) fail s := by
    rw [handle, wp_bind, wp_update, wp_bind]
    refine h.imp ?_
    intro o s' hs'
    obtain ⟨hcurr, r, rfl, hpost⟩ := hs'
    have hlinks := (linked_finish (.done r)).wp s'
    rw [finish, wp_bind, proc_curr, wp_read, wp_bind, modProc, wp_update, wp_pure] at hlinks ⊢
    refine ⟨r, s', rfl, hcurr, rfl, ?_, .of_links rfl hlinks, hpost⟩
    simp only [Function.update_self]
  rw [syscall, wp_bind, wp_read, wp_bind]
  refine ((wp_self _ s).and hspec).mono ?_ fun _ he => he.2
  rintro ro t ⟨hok, r, s', rfl, hcurr, hcurr', huser, hagrees, hpost⟩
  have hstep : s.step ⟨(s.pcb s.curr).pid, .call c (junk s), some r⟩ t :=
    ⟨rfl, ⟨hs.user, hs.loaded⟩, hok⟩
  have hready : t.Calling := ⟨hs.reach.step hstep, huser, by rw [hcurr', hcurr]; exact hs.loaded⟩
  exact hpost t (.single ⟨c, _, r, hstep⟩) hready hagrees

end Rule

/-! ### What a process sees -/

/-- Descriptor `fd` of the current process reads inode `no` from `off` on, and nothing else refers
to its file. -/
structure Kernel.Reads (s : Kernel) (fd : Fin MAX_UFILE) (k : FilePtr) (no off : ℕ) : Prop where
  fd : s.fds fd = some k
  once : s.fileRefs k = 1
  readable : (s.files k).readable = true
  type : (s.files k).type = TYPE_FILE
  inode : ∃ j, (s.files k).inode = some j ∧ (s.fs.inodes j).no = no
  offset : (s.files k).offset.toNat = off

/-- Calls that change no object lead from one state to the other. -/
structure Kernel.Stays (s s' : Kernel) : Prop where
  alone : s.Alone s'
  calling : s'.Calling
  objs : s'.fs.state.ns.objs = s.fs.state.ns.objs

/-- Nor do they change the working directory or open and close anything. -/
structure Kernel.Rests (s s' : Kernel) : Prop extends s.Stays s' where
  cwdNo : s'.cwdNo = s.cwdNo
  fds : s'.fds = s.fds
  fileRefs : s'.fileRefs = s.fileRefs

section Frame

variable {s s' t : Kernel} {evs : List FsEvent} {fd : Fin MAX_UFILE} {k : FilePtr} {j : InodePtr}
  {no off : ℕ}

theorem Kernel.Stays.trans (h : s.Stays s') (h' : s'.Stays t) : s.Stays t :=
  ⟨h.alone.trans h'.alone, h'.calling, h'.objs.trans h.objs⟩

theorem Kernel.Rests.trans (h : s.Rests s') (h' : s'.Rests t) : s.Rests t :=
  ⟨h.toStays.trans h'.toStays, h'.cwdNo.trans h.cwdNo, h'.fds.trans h.fds,
    h'.fileRefs.trans h.fileRefs⟩

theorem Kernel.Reads.ref (hs : s.Calling) (h : s.Reads fd k no off)
    (hj : (s.files k).inode = some j) : 0 < (s.fs.inodes j).ref := by
  have hpos : 0 < (s.files k).ref := Int.one_pos.trans_eq h.once.symm
  exact hs.inOrder.tables.ref_of_holds (Kernel.Tables.holds_of_file hpos h.type hj)

/-- A descriptor goes on reading when neither it nor its file changes. -/
theorem Kernel.Reads.keep (hs : s.Calling) (hs' : s'.Calling)
    (heff : Effects s.fs.state evs s'.fs.state) (ht : Tidy evs) (h : s.Reads fd k no off)
    (hfd : s'.fds fd = s.fds fd) (hfile : s'.files k = s.files k) : s'.Reads fd k no off := by
  obtain ⟨j, hj, hno⟩ := h.inode
  have hpos : 0 < (s'.files k).ref := by
    rw [hfile]
    exact Int.one_pos.trans_eq h.once.symm
  have href' : 0 < (s'.fs.inodes j).ref := hs'.inOrder.tables.ref_of_holds
    (Kernel.Tables.holds_of_file hpos (by rw [hfile, h.type]) (by rw [hfile, hj]))
  have hsame := (Effects.slot_eq heff ht hs.inOrder.tables.fs.holds.2 (h.ref hs hj) href').1
  refine ⟨hfd.trans h.fd, ?_, ?_, ?_, ⟨j, ?_, hsame.trans hno⟩, ?_⟩
  · rw [Kernel.fileRefs, hfile]
    exact h.once
  · rw [hfile, h.readable]
  · rw [hfile, h.type]
  · rw [hfile, hj]
  · rw [hfile, h.offset]

theorem Kernel.Calling.cwdNo_eq (hs : s.Calling) (hs' : s'.Calling)
    (heff : Effects s.fs.state evs s'.fs.state) (ht : Tidy evs)
    (hcwd : (s'.pcb s'.curr).cwd = (s.pcb s.curr).cwd) : s'.cwdNo = s.cwdNo := by
  obtain ⟨c, hc, hno⟩ := cwd_curr (reachable_sound hs.reach) hs.inOrder
  obtain ⟨c', hc', hno'⟩ := cwd_curr (reachable_sound hs'.reach) hs'.inOrder
  rw [hcwd, hc] at hc'
  cases hc'
  rw [hno, hno']
  exact (Effects.slot_eq heff ht hs.inOrder.tables.fs.holds.2 (hs.inOrder.tables.ref_of_cwd hc)
    (hs'.inOrder.tables.ref_of_cwd (hcwd.trans hc))).1

/-- Closing a slot changes no object, unless it has been removed. -/
theorem Effects.closed_objs {st st' : FsState} (h : Effects st [.closed j no] st')
    (hno : no ∉ st.ns.removed) : st'.ns.objs = st.ns.objs := by
  obtain ⟨heff, -⟩ := Lts.Run.of_single h
  cases heff with
  | closed => rfl
  | freed href hj hdel => exact (hno ⟨j, href.symm ▸ Int.one_pos, hj, hdel⟩).elim

end Frame

/-! ### Opening a directory -/

section Specs

variable {s : Kernel} {junk : Kernel → Mem} {fd : Fin MAX_UFILE} {k : FilePtr} {no off : ℕ}
  {path : CString}

/-- `fopen` on a directory that is opened for reading fails only when all files are in use. -/
theorem Fopened.dir {s s' : Kernel} {cwd : ℕ} {path : List UInt8} {r : Option FilePtr}
    {evs : List FsEvent} (h : Fopened s cwd path O_RDONLY r evs s')
    (hres : resolve (objs s.fs.disk.bytes) cwd path = some no)
    (hdir : (objs s.fs.disk.bytes no).type = TYPE_DIR) :
    (r = none ∧ (∀ k, s.fileRefs k ≠ 0) ∧ evs = [] ∧ s' = s) ∨
      ∃ k fs j, r = some k ∧ s.fileRefs k = 0 ∧ evs = [.opened j no] ∧ (fs.inodes j).no = no ∧
        s' = { s with fs := fs, files := Function.update s.files k ((s.files k).ofInode O_RDONLY j) } := by
  have htarget : targetType s.fs cwd path O_RDONLY = TYPE_DIR := by
    rw [targetType, hres]
    exact hdir
  cases h with
  | full hfull => exact Or.inl ⟨rfl, hfull, rfl, rfl⟩
  | absent hzero hopen =>
    rcases hopen.of_none with ⟨-, -, hnone⟩ | ⟨j, no, hsome, -, -⟩
    · rw [hres] at hnone
      cases hnone
    · cases hsome
  | refused hzero hopen _ hrefused =>
    rw [htarget] at hrefused
    rcases hrefused with ⟨hne, -⟩ | ⟨-, hw | hrw | htr⟩
    · exact (hne rfl).elim
    · exact (hw rfl).elim
    · exact (hrw rfl).elim
    · exact (htr rfl).elim
  | @file k fs evs j no' hzero hopen _ _ hnum _ _ =>
    rcases hopen.of_none with ⟨hnone, -, -⟩ | ⟨j', no'', hsome, rfl, hres'⟩
    · cases hnone
    · cases hsome
      rw [hres] at hres'
      cases hres'
      exact Or.inr ⟨_, _, j, rfl, hzero, rfl, hnum, rfl⟩
  | device hzero hopen hdev =>
    rw [htarget] at hdev
    cases hdev

/-- Opening slots changes no object, and what is in use goes on reading. -/
theorem Kernel.Calling.stays_opens {s t : Kernel} {evs : List FsEvent} (hs : s.Calling)
    (halone : s.Alone t) (ht : t.Calling) (heff : Effects s.fs.state evs t.fs.state)
    (hevs : ∀ ev ∈ evs, ev = .grow ∨ ∃ j no, ev = .opened j no)
    (hcwd : (t.pcb t.curr).cwd = (s.pcb s.curr).cwd)
    (hfds : ∀ fd k, s.fds fd = some k → s.fileRefs k = 1 →
      t.fds fd = s.fds fd ∧ t.files k = s.files k) :
    s.Stays t ∧ t.cwdNo = s.cwdNo ∧ ∀ fd k n off, s.Reads fd k n off → t.Reads fd k n off := by
  have hfs := hs.inOrder.tables.fs
  have htidy : Tidy evs := by
    refine Kernel.Tables.Tidy.opens fun ev hev => ?_
    rcases hevs ev hev with rfl | ⟨j, no, rfl⟩ <;> rfl
  refine ⟨⟨halone, ht, ?_⟩, hs.cwdNo_eq ht heff htidy hcwd, fun fd k n off hr => ?_⟩
  · exact (Effects.opens_ns heff hfs.holds.2 hfs.inv hevs).1
  · obtain ⟨hfd, hfile⟩ := hfds fd k hr.fd hr.once
    exact hr.keep hs ht heff htidy hfd hfile

/-- Nor does what opens nothing. -/
theorem Kernel.Calling.stays_same {s t : Kernel} {junk : Mem} (hs : s.Calling) (halone : s.Alone t)
    (ht : t.Calling) (hagrees : { s with fs := { s.fs with junk := junk } }.Agrees t) :
    s.Stays t ∧ t.cwdNo = s.cwdNo ∧ ∀ fd k n off, s.Reads fd k n off → t.Reads fd k n off := by
  have hstate : t.fs.state = s.fs.state := by
    rw [hagrees.fs]
    rfl
  have heff : Effects s.fs.state [] t.fs.state := by
    rw [hstate]
    exact Lts.Run.refl _
  exact hs.stays_opens halone ht heff (by simp) hagrees.cwd fun fd k _ _ =>
    ⟨congrFun hagrees.fds fd, congrFun hagrees.files k⟩

/-- A free descriptor and a free file are not those of a descriptor that reads. -/
theorem Kernel.update_unused {s t : Kernel} {f : File} (hfd : s.fds fd = none)
    (hzero : s.fileRefs k = 0) (hfds : t.fds = Function.update s.fds fd (some k))
    (hfiles : t.files = Function.update s.files k f) (fd' : Fin MAX_UFILE) (k' : FilePtr)
    (hfd' : s.fds fd' = some k') (hk' : s.fileRefs k' = 1) :
    t.fds fd' = s.fds fd' ∧ t.files k' = s.files k' := by
  have hne : fd' ≠ fd := by
    rintro rfl
    rw [hfd] at hfd'
    cases hfd'
  have hne' : k' ≠ k := by
    rintro rfl
    rw [hzero] at hk'
    cases hk'
  rw [hfds, hfiles, Function.update_of_ne hne, Function.update_of_ne hne']
  exact ⟨rfl, rfl⟩

theorem Kernel.fileRefs_update {s t : Kernel} {f : File}
    (hfiles : t.files = Function.update s.files k f) :
    t.fileRefs = Function.update s.fileRefs k f.ref := by
  funext k'
  rw [Kernel.fileRefs, hfiles]
  by_cases hk : k' = k
  · rw [hk, Function.update_self, Function.update_self]
  · rw [Function.update_of_ne hk, Function.update_of_ne hk]
    rfl

/-- A descriptor that has just been opened reads from the start. -/
theorem Kernel.Reads.of_open {t : Kernel} {j : InodePtr} {f : File} (hfd : t.fds fd = some k)
    (hfile : t.files k = f.ofInode O_RDONLY j) (hno : (t.fs.inodes j).no = no) :
    t.Reads fd k no 0 := by
  refine ⟨hfd, ?_, ?_, ?_, ⟨j, ?_, hno⟩, ?_⟩
  · rw [Kernel.fileRefs, hfile]
    rfl
  · rw [hfile]
    rfl
  · rw [hfile]
    rfl
  · rw [hfile]
    rfl
  · rw [hfile]
    rfl

/-- Opening a directory for reading takes a free descriptor and a free file, and fails when there
is none. -/
theorem open_dir_spec (hs : s.Calling)
    (hlook : lookup s.fs.state.ns.objs s.cwdNo path.1 = some no) (hdir : s.fs.state.ns.Dir no) :
    wp (syscall junk (.open path O_RDONLY)) (fun r s' => s.Stays s' ∧ s'.cwdNo = s.cwdNo ∧
        (∀ fd k n off, s.Reads fd k n off → s'.Reads fd k n off) ∧
        ((r = .int (-1) ∧ ((∀ fd, s.fds fd ≠ none) ∨ ∀ k, s.fileRefs k ≠ 0)) ∨
          ∃ fd k, r = .int fd.val ∧ s.fds fd = none ∧ s.fileRefs k = 0 ∧
            s'.fds = Function.update s.fds fd (some k) ∧
            s'.fileRefs = Function.update s.fileRefs k 1 ∧ s'.Reads fd k no 0))
      (DirAbort s.fs.disk.bytes s.fs.inodes 1) s := by
  have horder := hs.inOrder
  obtain ⟨c, hc, hno⟩ := cwd_curr (reachable_sound hs.reach) horder
  have hres : resolve (objs s.fs.disk.bytes) (s.fs.inodes c).no path.1 = some no := by
    rw [resolve_lookup, ← hno]
    exact hlook
  apply wp_syscall hs
  refine (sys_open_spec (horder.junk (junk s)).tables hc path.2).mono ?_ ?_
  · intro o s₁ hs₁
    obtain ⟨-, evs, heff, hcases⟩ := hs₁
    rcases hcases with ⟨rfl, ⟨hfull, rfl, rfl⟩ | ⟨-, hopen⟩⟩ | ⟨fd, k, s₂, hfd, rfl, hopen, rfl⟩
    · refine ⟨rfl, _, rfl, fun t halone ht hagrees => ?_⟩
      obtain ⟨hstays, hcwd, hreads⟩ := hs.stays_same halone ht hagrees
      exact ⟨hstays, hcwd, hreads, Or.inl ⟨rfl, Or.inl hfull⟩⟩
    -- with a descriptor but no file, `fopen` fails before it looks the path up
    · obtain ⟨-, hfull, rfl, rfl⟩ | ⟨k, fs, j, hsome, -⟩ := hopen.dir hres hdir
      · refine ⟨rfl, _, rfl, fun t halone ht hagrees => ?_⟩
        obtain ⟨hstays, hcwd, hreads⟩ := hs.stays_same halone ht hagrees
        exact ⟨hstays, hcwd, hreads, Or.inl ⟨rfl, Or.inr hfull⟩⟩
      · cases hsome
    · obtain ⟨hnone, -⟩ | ⟨k', fs, j, hsome, hzero, rfl, hnum, rfl⟩ := hopen.dir hres hdir
      · cases hnone
      cases hsome
      refine ⟨rfl, _, rfl, fun t halone ht hagrees => ?_⟩
      have hfd : s.fds fd = none := hfd
      have hzero : s.fileRefs k = 0 := hzero
      have hfds : t.fds = Function.update s.fds fd (some k) := by
        rw [hagrees.fds, Kernel.fds]
        simp only [Function.update_self]
        rfl
      have hfiles : t.files = Function.update s.files k ((s.files k).ofInode O_RDONLY j) :=
        hagrees.files
      have hcwd : (t.pcb t.curr).cwd = (s.pcb s.curr).cwd := by
        rw [hagrees.cwd]
        simp only [Function.update_self]
      have hefft : Effects s.fs.state [.opened j no] t.fs.state := by
        rw [hagrees.fs]
        exact heff
      obtain ⟨hstays, hcwd, hreads⟩ := hs.stays_opens halone ht hefft (by simp) hcwd
        (Kernel.update_unused hfd hzero hfds hfiles)
      refine ⟨hstays, hcwd, hreads, Or.inr ⟨fd, k, rfl, hfd, hzero, hfds,
        Kernel.fileRefs_update hfiles, .of_open (f := s.files k) (j := j) ?_ ?_ ?_⟩⟩
      · rw [hfds, Function.update_self]
      · rw [hfiles, Function.update_self]
      · rw [hagrees.fs]
        exact hnum
  · intro e he
    rcases he with he | ⟨-, -, hnot, -⟩
    · exact he
    · refine (hnot ?_).elim
      change targetType s.fs (s.fs.inodes c).no path.1 O_RDONLY = TYPE_DIR
      rw [targetType, hres]
      exact hdir

/-! ### Descriptors of a directory -/

theorem Kernel.Reads.entry (hr : s.Reads fd k no off) :
    Oslab.entry (s.pcb s.curr).files fd.val = some (fd, k) := by
  have hfd : (s.pcb s.curr).files fd = some k := hr.fd
  rw [Oslab.entry, dif_pos ⟨Int.natCast_nonneg _, by exact_mod_cast fd.isLt⟩]
  simp only [Int.toNat_natCast, Fin.eta, hfd, Option.map_some]

/-- `fstat` tells the number of the inode. -/
theorem fstat_spec {fail : Abort → Prop} (hs : s.Calling) (hr : s.Reads fd k no off) :
    wp (syscall junk (.fstat fd.val)) (fun r s' => s.Rests s' ∧
      (∀ fd k n off, s.Reads fd k n off → s'.Reads fd k n off) ∧
      ∃ type size, r = .stat type size no) fail s := by
  obtain ⟨j, hj, hno⟩ := hr.inode
  apply wp_syscall hs
  change wp (sys_fstat fd.val) _ _ _
  rw [sys_fstat, wp_bind, proc_curr, wp_read, wp_bind, proc_getfile, wp_read]
  simp only [hr.entry]
  rw [wp_bind, getFile, wp_read]
  simp only [hr.type, true_or, if_true, hj]
  rw [wp_bind, deref, wp_pure, wp_bind, wp_inFs, getInode, wp_read, wp_pure]
  refine ⟨rfl, _, rfl, fun t halone ht hagrees => ?_⟩
  have heff : Effects s.fs.state [] t.fs.state := by
    rw [hagrees.fs]
    exact Lts.Run.refl _
  have hfiles : t.files = s.files := hagrees.files
  refine ⟨⟨⟨halone, ht, ?_⟩, hs.cwdNo_eq ht heff Kernel.Tables.Tidy.nil hagrees.cwd, hagrees.fds,
    ?_⟩, fun fd' k' n o hr' => ?_, ?_⟩
  · rw [hagrees.fs]
    rfl
  · funext k'
    rw [Kernel.fileRefs, hfiles]
    rfl
  · exact hr'.keep hs ht heff Kernel.Tables.Tidy.nil (congrFun hagrees.fds fd') (congrFun hfiles k')
  · exact ⟨_, _, by rw [hno]⟩

/-- Reading inside a directory returns its bytes and goes on behind them. -/
theorem read_dir_spec {len : ℕ} (hs : s.Calling) (hr : s.Reads fd k no off)
    (hdir : s.fs.state.ns.Dir no) (hle : off + len ≤ (s.fs.state.ns.objs no).size) :
    wp (syscall junk (.read fd.val len)) (fun r s' => s.Rests s' ∧
        (∀ fd' k' n o, k' ≠ k → s.Reads fd' k' n o → s'.Reads fd' k' n o) ∧
        s'.Reads fd k no (off + len) ∧ r = .bytes ((s.fs.state.ns.objs no).bytes.slice off len))
      (DirAbort s.fs.disk.bytes s.fs.inodes 1) s := by
  have horder := hs.inOrder
  obtain ⟨j, hj, hno⟩ := hr.inode
  have href := hr.ref hs hj
  have hlt : no < 1920 := hno ▸ (horder.tables.fs.holds.2.live j href).1
  have hobj : s.fs.state.ns.objs no = s.fs.objOf j := by
    rw [Fs.objOf, hno, FsState.ns, objs_ns hlt]
    rfl
  have hfull : min len ((s.fs.objOf j).size - off) = len := by
    rw [hobj] at hle
    omega
  apply wp_syscall hs
  change wp (sys_read fd.val len) _ _ _
  rw [sys_read, wp_bind, proc_curr, wp_read, wp_bind, proc_getfile, wp_read]
  simp only [hr.entry]
  rw [fread, wp_bind, getFile, wp_read]
  simp only [hr.readable, hr.type, hj, hr.offset, reduceCtorEq, if_false, true_or, if_true]
  rw [wp_bind, deref, wp_pure, wp_bind, wp_inFs]
  have hok := (horder.junk (junk s)).tables.fs
  refine ((iread_effects hok href off len).and (iread_spec hok.holds href hno off len)).mono ?_ ?_
  · intro bs fs hread
    obtain ⟨⟨-, heff, hbs⟩, -⟩ := hread
    rw [wp_bind, modFile, wp_update, wp_pure]
    have hbs : bs = (s.fs.objOf j).bytes.slice off len := by
      rw [← hfull]
      exact hbs
    have hlen : bs.length = len := by rw [hbs, Mem.length_slice]
    refine ⟨rfl, _, rfl, fun t halone ht hagrees => ?_⟩
    have heff : Effects s.fs.state [.grow] t.fs.state := by
      rw [hagrees.fs]
      exact heff
    have htidy : Tidy [FsEvent.grow] := Kernel.Tables.Tidy.opens (by simp [FsEvent.closes])
    obtain ⟨f, hf⟩ : ∃ f : File, f = { s.files k with
      offset := (s.files k).offset + UInt32.ofNat bs.length } := ⟨_, rfl⟩
    have hfiles : t.files = Function.update s.files k f := by
      rw [hagrees.files, hf]
    have hsame : f.ref = s.fileRefs k := by
      rw [hf]
      rfl
    have hrefs : t.fileRefs = s.fileRefs := by
      rw [Kernel.fileRefs_update hfiles, hsame, Function.update_eq_self]
    refine ⟨⟨⟨halone, ht, ?_⟩, hs.cwdNo_eq ht heff htidy hagrees.cwd, hagrees.fds, hrefs⟩,
      fun fd' k' n o hk hr' => ?_, ?_, by rw [hbs, hobj]⟩
    · exact (Effects.opens_ns heff horder.tables.fs.holds.2 horder.tables.fs.inv (by simp)).1
    · refine hr'.keep hs ht heff htidy (congrFun hagrees.fds fd') ?_
      rw [hfiles, Function.update_of_ne hk]
    -- the offset, which does not wrap inside a directory
    · have href' : 0 < (t.fs.inodes j).ref := by
        have hsum := Effects.ref_eq heff j
        simp only [List.map_singleton, List.sum_singleton, FsEvent.refs, add_zero] at hsum
        exact hsum.ge.trans_lt' href
      have hsame := (Effects.slot_eq heff htidy horder.tables.fs.holds.2 href href').1
      have hsize : (s.fs.objOf j).size < 2 ^ 32 := UInt32.toNat_lt _
      refine ⟨(congrFun hagrees.fds fd).trans hr.fd, ?_, ?_, ?_, ⟨j, ?_, hsame.trans hno⟩, ?_⟩
      · rw [hrefs]
        exact hr.once
      · rw [hfiles, Function.update_self, hf]
        exact hr.readable
      · rw [hfiles, Function.update_self, hf]
        exact hr.type
      · rw [hfiles, Function.update_self, hf]
        exact hj
      · rw [hobj] at hle
        rw [hfiles, Function.update_self, hf, hlen]
        simp only [UInt32.toNat_add, hr.offset]
        rw [UInt32.toNat_ofNat_of_lt' (by simp only [UInt32.size]; omega), Nat.mod_eq_of_lt (by omega)]
  -- the kernel stops as when it looks a name up in the directory
  · intro e he
    have habort := ReadAbort.of_stop he.2
    have hdir' : (obj s.fs.disk.bytes no).type = TYPE_DIR := (dir_ns hlt).mp hdir
    rw [FsState.ns, objs_ns hlt] at hle
    have hle' : off + min len ((obj s.fs.disk.bytes no).size - off) ≤ (obj s.fs.disk.bytes no).size :=
      (Nat.add_le_add_left (min_le_left _ _) off).trans hle
    exact (habort.mono (Nat.zero_le _) le_rfl).dir hlt hdir' hle'

/-- Closing the only descriptor of a file gives both back. -/
theorem close_dir_spec {fail : Abort → Prop} (hs : s.Calling) (hr : s.Reads fd k no off)
    (hno : no ∉ s.fs.state.ns.removed) :
    wp (syscall junk (.close fd.val)) (fun _ s' => s.Stays s' ∧ s'.cwdNo = s.cwdNo ∧
      s'.fds = Function.update s.fds fd none ∧ s'.fileRefs = Function.update s.fileRefs k 0 ∧
      ∀ fd' k' n o, k' ≠ k → s.Reads fd' k' n o → s'.Reads fd' k' n o) fail s := by
  obtain ⟨j, hj, hnum⟩ := hr.inode
  have hone : (s.files k).ref = 1 := hr.once
  -- it is the last descriptor of its file, so the slot is closed
  have hevs : closings (s.files k) s.fs = [.closed j no] := by
    rw [closings, if_pos hone, (File.holds_iff (by omega)).mpr ⟨hr.type, hj⟩, Option.map_some, hnum]
    rfl
  apply wp_syscall hs
  refine (sys_close_spec (hs.inOrder.junk (junk s)).tables fd.val).imp ?_
  intro o s₁ hs₁
  rcases hs₁ with ⟨hnone, -, -⟩ | ⟨i, k', fs, hentry, rfl, heff, rfl, -⟩
  · have hnone : entry (s.pcb s.curr).files fd.val = none := hnone
    rw [hr.entry] at hnone
    cases hnone
  have hentry : entry (s.pcb s.curr).files fd.val = some (i, k') := hentry
  rw [hr.entry] at hentry
  cases hentry
  refine ⟨rfl, _, rfl, fun t halone ht hagrees => ?_⟩
  have heff : Effects s.fs.state [.closed j no] t.fs.state := by
    rw [hagrees.fs, ← hevs]
    exact heff
  have htidy : Tidy [FsEvent.closed j no] := Kernel.Tables.Tidy.closes (by simp [FsEvent.opens])
  have hfds : t.fds = Function.update s.fds fd none := by
    rw [hagrees.fds, Kernel.fds, Kernel.dropFd]
    simp only [Function.update_self]
    rfl
  have hfiles : t.files = Function.update s.files k { s.files k with ref := (s.files k).ref - 1 } :=
    hagrees.files
  have hcwd : (t.pcb t.curr).cwd = (s.pcb s.curr).cwd := by
    rw [hagrees.cwd, Kernel.dropFd]
    simp only [Function.update_self]
  refine ⟨⟨halone, ht, Effects.closed_objs heff hno⟩, hs.cwdNo_eq ht heff htidy hcwd, hfds, ?_,
    fun fd' k' n o hk hr' => ?_⟩
  · rw [Kernel.fileRefs_update hfiles, hone]
    rfl
  · have hne : fd' ≠ fd := by
      rintro rfl
      have hboth := hr'.fd.symm.trans hr.fd
      exact hk (Option.some.inj hboth)
    refine hr'.keep hs ht heff htidy ?_ ?_
    · rw [hfds, Function.update_of_ne hne]
    · rw [hfiles, Function.update_of_ne hk]

/-- Going to another directory leaves the old one. -/
theorem chdir_dir_spec (hs : s.Calling)
    (hlook : lookup s.fs.state.ns.objs s.cwdNo path.1 = some no) (hdir : s.fs.state.ns.Dir no)
    (hcwd : s.cwdNo ∉ s.fs.state.ns.removed) :
    wp (syscall junk (.chdir path)) (fun _ s' => s.Stays s' ∧ s'.cwdNo = no ∧ s'.fds = s.fds ∧
      s'.fileRefs = s.fileRefs) (DirAbort s.fs.disk.bytes s.fs.inodes 1) s := by
  have horder := hs.inOrder
  obtain ⟨c, hc, hno⟩ := cwd_curr (reachable_sound hs.reach) horder
  have hres : resolve (objs s.fs.disk.bytes) (s.fs.inodes c).no path.1 = some no := by
    rw [resolve_lookup, ← hno]
    exact hlook
  apply wp_syscall hs
  refine (sys_chdir_tables (horder.junk (junk s)).tables hc path.2).imp ?_
  intro o s₁ hs₁
  obtain ⟨-, evs, heff, hchdir⟩ := hs₁
  cases hchdir with
  | absent hnone =>
    have hnone : resolve (objs s.fs.disk.bytes) (s.fs.inodes c).no path.1 = none := hnone
    rw [hres] at hnone
    cases hnone
  | @noDir fs j no' hres' hnot =>
    have hres' : resolve (objs s.fs.disk.bytes) (s.fs.inodes c).no path.1 = some no' := hres'
    rw [hres] at hres'
    cases hres'
    exact (hnot hdir).elim
  | @dir fs j no' hres' _ _ hnum =>
    have hres' : resolve (objs s.fs.disk.bytes) (s.fs.inodes c).no path.1 = some no' := hres'
    rw [hres] at hres'
    cases hres'
    refine ⟨rfl, _, rfl, fun t halone ht hagrees => ?_⟩
    have heff : Effects s.fs.state [.opened j no, .closed c s.cwdNo] t.fs.state := by
      rw [hagrees.fs, hno]
      exact heff
    obtain ⟨u, hopen, hclose⟩ := Lts.Run.of_cons heff
    obtain ⟨hobjs, hremoved⟩ := Effects.opens_ns (Lts.Run.single hopen) horder.tables.fs.holds.2
      horder.tables.fs.inv (by simp)
    refine ⟨⟨halone, ht, ?_⟩, ?_, ?_, ?_⟩
    · rw [← hremoved] at hcwd
      exact (Effects.closed_objs hclose hcwd).trans hobjs
    · rw [Kernel.cwdNo, hagrees.cwd, hagrees.fs]
      simp only [Function.update_self, Option.map_some, Option.getD_some]
      exact hnum
    · rw [hagrees.fds, Kernel.fds]
      simp only [Function.update_self]
      rfl
    · funext k'
      rw [Kernel.fileRefs, hagrees.files]
      rfl

end Specs

end Oslab
