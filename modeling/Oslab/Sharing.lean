/-
# Descriptors on shared offsets

What processes can see of open files: which descriptors refer to one object, where each
object stands, and the bytes of the files. Every step of the kernel is a step of this
small model, so descriptors from `dup` and `fork` share an offset, separate opens share
the bytes only, and neither unlinking nor anything done to other files is seen.
-/
import Oslab.Lib.OpenFiles
import Oslab.Contents

namespace Oslab

open Lib Lib.Prog

/-! ### The model -/

/-- Descriptors of processes, slots of the table of files and inode numbers. -/
abbrev FileDesk : Type := Desk ProcPtr (Fin MAX_UFILE) FilePtr ℕ

/-- The offset `fseek` sets in an object on a file of `size` bytes. -/
def Lib.Handle.seek (h : Handle ℕ) (size : ℕ) (off : UInt32) (whence : ℕ) : UInt32 :=
  if whence = SEEK_SET then off
  else if whence = SEEK_CUR then h.pos + off
  else if whence = SEEK_END then UInt32.ofNat size + off
  else h.pos

/-- The descriptor a call works on. -/
def Call.onFd : Call → Option ℤ
  | .read fd _ | .write fd _ | .lseek fd _ _ | .close fd | .dup fd => some fd
  | _ => none

/-- The descriptor whose object a call reads, writes or moves. -/
def Call.onOffset : Call → Option ℤ
  | .read fd _ | .write fd _ | .lseek fd _ _ => some fd
  | _ => none

/-- The calls that touch no descriptor and no open file. -/
def Call.aloof : Call → Bool
  | .read .. | .write .. | .lseek .. | .close _ | .dup _ | .open .. | .fork | .exit _ => false
  | _ => true

/-- A system call of process `p`, as its descriptors show it. -/
inductive DeskCall (v : FileDesk) (p : ProcPtr) : Call → Outcome → FileDesk → Prop
  | bad {call : Call} {fd : ℤ} : call.onFd = some fd → entry (v.fds p) fd = none →
      DeskCall v p call (.done (.int (-1))) v
  | readBarred {fd : ℤ} {size : ℕ} {i : Fin MAX_UFILE} {k : FilePtr} {h : Handle ℕ} :
      entry (v.fds p) fd = some (i, k) → v.object k = some (.file h) → h.readable = false →
      DeskCall v p (.read fd size) (.done (.int (-1))) v
  | read {fd : ℤ} {size : ℕ} {i : Fin MAX_UFILE} {k : FilePtr} {h : Handle ℕ} {c bs : List UInt8} :
      entry (v.fds p) fd = some (i, k) → v.object k = some (.file h) → h.readable = true →
      v.file h.node = some c → bs = (c.drop h.pos.toNat).take size →
      DeskCall v p (.read fd size) (.done (.bytes bs)) (v.move k h (h.pos + UInt32.ofNat bs.length))
  | writeBarred {fd : ℤ} {buf : List UInt8} {i : Fin MAX_UFILE} {k : FilePtr} {h : Handle ℕ} :
      entry (v.fds p) fd = some (i, k) → v.object k = some (.file h) → h.writable = false →
      DeskCall v p (.write fd buf) (.done (.int (-1))) v
  | writeBeyond {fd : ℤ} {buf : List UInt8} {i : Fin MAX_UFILE} {k : FilePtr} {h : Handle ℕ}
      {c : List UInt8} : entry (v.fds p) fd = some (i, k) → v.object k = some (.file h) →
      h.writable = true → v.file h.node = some c → c.length < h.pos.toNat →
      DeskCall v p (.write fd buf) (.done (.int (-1))) v
  | write {fd : ℤ} {buf : List UInt8} {i : Fin MAX_UFILE} {k : FilePtr} {h : Handle ℕ}
      {c : List UInt8} : entry (v.fds p) fd = some (i, k) → v.object k = some (.file h) →
      h.writable = true → v.file h.node = some c → h.pos.toNat ≤ c.length →
      DeskCall v p (.write fd buf) (.done (.int buf.length))
        ((v.put h.node (c.take h.pos.toNat ++ buf ++ c.drop (h.pos.toNat + buf.length))).move k h
          (h.pos + UInt32.ofNat buf.length))
  | lseek {fd : ℤ} {off : UInt32} {whence : ℕ} {i : Fin MAX_UFILE} {k : FilePtr} {h : Handle ℕ}
      {c : List UInt8} : entry (v.fds p) fd = some (i, k) → v.object k = some (.file h) →
      v.file h.node = some c →
      DeskCall v p (.lseek fd off whence)
        (.done (.int (h.seek c.length off whence).toBitVec.toInt))
        (v.move k h (h.seek c.length off whence))
  /-- devices and directories -/
  | other {call : Call} {o : Outcome} {fd : ℤ} {i : Fin MAX_UFILE} {k : FilePtr} :
      call.onOffset = some fd → entry (v.fds p) fd = some (i, k) → v.object k = some .other →
      DeskCall v p call o v
  | dupFull {fd : ℤ} : (∀ new, v.fds p new ≠ none) →
      DeskCall v p (.dup fd) (.done (.int (-1))) v
  | dup {fd : ℤ} {i new : Fin MAX_UFILE} {k : FilePtr} : entry (v.fds p) fd = some (i, k) →
      v.fds p new = none → DeskCall v p (.dup fd) (.done (.int new.val)) (v.point p new (some k))
  | close {fd : ℤ} {i : Fin MAX_UFILE} {k : FilePtr} : entry (v.fds p) fd = some (i, k) →
      DeskCall v p (.close fd) (.done (.int 0)) (v.point p i none).sweep
  | openFails {path : CString} {mode : ℕ} : DeskCall v p (.open path mode) (.done (.int (-1))) v
  | openFile {path : CString} {mode : ℕ} {fd : Fin MAX_UFILE} {k : FilePtr} {n : ℕ}
      {c : List UInt8} : v.fds p fd = none → ¬ v.Used k →
      (mode &&& O_TRUNC ≠ 0 → c = []) →
      (mode &&& O_TRUNC = 0 → ∀ c', v.file n = some c' → c = c') →
      DeskCall v p (.open path mode) (.done (.int fd.val))
        (((v.point p fd (some k)).place k (.file ⟨n, 0, mode &&& O_WRONLY = 0,
          mode &&& O_WRONLY ≠ 0 ∨ mode &&& O_RDWR ≠ 0⟩)).put n c)
  | openOther {path : CString} {mode : ℕ} {fd : Fin MAX_UFILE} {k : FilePtr} :
      v.fds p fd = none → ¬ v.Used k →
      DeskCall v p (.open path mode) (.done (.int fd.val)) ((v.point p fd (some k)).place k .other)
  | forkFails : DeskCall v p .fork (.done (.int (-1))) v
  | fork {q : ProcPtr} {o : Outcome} : q ≠ p → (∀ fd, v.fds q fd = none) →
      DeskCall v p .fork o (v.give q (v.fds p))
  | exit {status : ℤ} {o : Outcome} : DeskCall v p (.exit status) o (v.give p fun _ => none).sweep
  | aloof {call : Call} {o : Outcome} : call.aloof = true → DeskCall v p call o v

/-- What a process is told when its call is over. -/
def Outcome.reply : Outcome → Option Reply
  | .done r => some r
  | .wait _ => none

/-- An event while process `p` runs: only calls change anything. -/
inductive DeskStep (v : FileDesk) (p : ProcPtr) : Event → Option Reply → FileDesk → Prop
  | call {c : Call} {junk : Mem} {o : Outcome} {v' : FileDesk} : DeskCall v p c o v' →
      DeskStep v p (.call c junk) o.reply v'
  | other {e : Event} {r : Option Reply} : (∀ c junk, e ≠ .call c junk) → DeskStep v p e r v

/-! ### The kernel as a desk -/

/-- What a slot of the table of files is open on. -/
def Kernel.opened (s : Kernel) (k : FilePtr) : OpenObject ℕ :=
  match (s.files k).holds with
  | some j =>
    if (s.fs.objOf j).type = TYPE_FILE then
      .file ⟨(s.fs.inodes j).no, (s.files k).offset, (s.files k).readable, (s.files k).writable⟩
    else .other
  | none => .other

/-- All slots and inodes, those not in use included. -/
def Kernel.allFiles (s : Kernel) : FileDesk where
  fds p := (s.pcb p).files
  object k := some (s.opened k)
  file n := some (objs s.fs.disk.bytes n).content

/-- What the descriptors of all processes lead to. -/
noncomputable def Kernel.desk (s : Kernel) : FileDesk := s.allFiles.sweep

section Desks

variable {s s' : Kernel} {k : FilePtr} {j : InodePtr} {evs : List FsEvent} {h : Handle ℕ} {n : ℕ}

theorem Kernel.Tables.used_iff (hs : s.Tables) : s.allFiles.Used k ↔ 0 < (s.files k).ref := by
  rw [hs.fileRef, refs_pos]
  constructor
  · intro hk
    obtain ⟨p, fd, hfd⟩ := hk
    exact ⟨(p, fd), hfd⟩
  · intro hk
    obtain ⟨⟨p, fd⟩, hfd⟩ := hk
    exact ⟨p, fd, hfd⟩

/-- An object on a file. -/
theorem opened_file (hk : s.opened k = .file h) : ∃ j, openTable s.files k = some j ∧
    (s.fs.objOf j).type = TYPE_FILE ∧ h = ⟨(s.fs.inodes j).no, (s.files k).offset,
      (s.files k).readable, (s.files k).writable⟩ := by
  rw [Kernel.opened] at hk
  split at hk
  case h_1 j hj =>
    split at hk
    case isTrue htype =>
      rw [OpenObject.file.injEq] at hk
      exact ⟨j, hj, htype, hk.symm⟩
    case isFalse => cases hk
  case h_2 => cases hk

theorem opened_of_file (hj : openTable s.files k = some j) (htype : (s.fs.objOf j).type = TYPE_FILE) :
    s.opened k = .file ⟨(s.fs.inodes j).no, (s.files k).offset, (s.files k).readable,
      (s.files k).writable⟩ := by
  have hholds : (s.files k).holds = some j := hj
  rw [Kernel.opened]
  simp only [hholds, if_pos htype]

theorem opened_of_other (hj : ∀ j, openTable s.files k = some j → (s.fs.objOf j).type ≠ TYPE_FILE) :
    s.opened k = .other := by
  rw [Kernel.opened]
  split
  case h_1 j hholds => rw [if_neg (hj j hholds)]
  case h_2 => rfl

/-- The same object somewhere else. -/
def Lib.OpenObject.standing (o : OpenObject ℕ) (pos : UInt32) : OpenObject ℕ :=
  match o with
  | .file h => .file { h with pos := pos }
  | .other => .other

theorem standing_opened (s : Kernel) (k : FilePtr) :
    (s.opened k).standing (s.files k).offset = s.opened k := by
  cases hk : s.opened k with
  | file h =>
    obtain ⟨j, -, -, rfl⟩ := opened_file hk
    rfl
  | other => rfl

/-- The same file, open for the same. -/
structure File.Like (f f' : File) : Prop where
  type : f'.type = f.type
  inode : f'.inode = f.inode
  readable : f'.readable = f.readable
  writable : f'.writable = f.writable

/-- A slot in use before and after an operation is open on the same file. -/
theorem Kernel.Tables.opened_eq (hs : s.Tables) (hs' : s'.Tables)
    (heff : Effects s.fs.state evs s'.fs.state) (ht : Tidy evs) (hk : 0 < (s.files k).ref)
    (hk' : 0 < (s'.files k).ref) (hlike : (s.files k).Like (s'.files k)) :
    s'.opened k = (s.opened k).standing (s'.files k).offset := by
  have htable (j : InodePtr) : openTable s'.files k = some j ↔ openTable s.files k = some j := by
    rw [openTable, openTable, File.holds_iff hk, File.holds_iff hk', hlike.type, hlike.inode]
  have hslot (j : InodePtr) (hj : openTable s.files k = some j) :
      (s'.fs.inodes j).no = (s.fs.inodes j).no ∧
        (s'.fs.objOf j).type = (s.fs.objOf j).type := by
    have hj₀ := hs.ref_of_holds hj
    have hj₁ := hs'.ref_of_holds ((htable j).mpr hj)
    exact ⟨(Effects.slot_eq heff ht hs.fs.holds.2 hj₀ hj₁).1, hs.objOf_type heff ht hj₀ hj₁⟩
  cases hopen : s.opened k with
  | file h =>
    obtain ⟨j, hj, hfile, rfl⟩ := opened_file hopen
    obtain ⟨hno, htypes⟩ := hslot j hj
    rw [opened_of_file ((htable j).mpr hj) (htypes.trans hfile), hno, hlike.readable, hlike.writable]
    rfl
  | other =>
    refine opened_of_other fun j hj hfile => ?_
    have hj' := (htable j).mp hj
    rw [opened_of_file hj' ((hslot j hj').2.symm.trans hfile)] at hopen
    cases hopen

/-- A file that is open before and after an operation that does not write it is the same. -/
theorem Kernel.Tables.content_eq (hs : s.Tables) (hs' : s'.Tables)
    (heff : Effects s.fs.state evs s'.fs.state) (ht : Tidy evs) (hopen : s.opened k = .file h)
    (hopen' : s'.opened k ≠ .other) (hsame : (s'.files k).inode = (s.files k).inode)
    (hevs : ∀ ev ∈ evs, ev ≠ .wrote h.node) :
    objs s'.fs.disk.bytes h.node = objs s.fs.disk.bytes h.node := by
  obtain ⟨j, hj, hfile, rfl⟩ := opened_file hopen
  have hj₀ := hs.ref_of_holds hj
  have hj₁ : 0 < (s'.fs.inodes j).ref := by
    cases hopen₁ : s'.opened k with
    | file h' =>
      obtain ⟨j', hj', -, -⟩ := opened_file hopen₁
      have heq : j' = j := by
        have hi := (Kernel.Tables.holds_eq_some hj').2.2
        rw [hsame, (Kernel.Tables.holds_eq_some hj).2.2, Option.some.injEq] at hi
        exact hi.symm
      exact heq ▸ hs'.ref_of_holds hj'
    | other => exact (hopen' hopen₁).elim
  have hlt := (hs.fs.holds.2.live j hj₀).1
  have hobj := (Effects.file_eq heff ht hs.fs.holds.2 hj₀ hj₁ hevs).2 hfile
  simp only [objs_of_lt hlt]
  exact hobj

/-- The desk of a kernel is any clean one that agrees with it. -/
theorem desk_eq {v : FileDesk} (hv : v.Clean) (hfds : ∀ p, (s.pcb p).files = v.fds p)
    (hobject : ∀ k, v.Used k → v.object k = some (s.opened k))
    (hfile : ∀ n, v.Holds n → v.file n = some (objs s.fs.disk.bytes n).content) : s.desk = v :=
  hv.eq_sweep (funext hfds) (fun k hk => (hobject k hk).symm) fun n hn => (hfile n hn).symm

theorem desk_of_links (hlinks : s'.links = s.links) : s'.desk = s.desk := by
  have hfs : s'.fs = s.fs := congrArg Links.fs hlinks
  have hfiles : s'.files = s.files := congrArg Links.files hlinks
  have hheld (p : ProcPtr) : (s'.pcb p).files = (s.pcb p).files :=
    congrArg Held.files (congrFun (congrArg Links.held hlinks) p)
  have hall : s'.allFiles = s.allFiles := by
    ext1
    · exact funext hheld
    · funext k
      simp only [Kernel.allFiles, Kernel.opened, hfs, hfiles]
    · simp only [Kernel.allFiles, hfs]
  rw [Kernel.desk, Kernel.desk, hall]

theorem desk_fds (p : ProcPtr) : s.desk.fds p = (s.pcb p).files := rfl

theorem desk_used (hs : s.Tables) : s.desk.Used k ↔ 0 < (s.files k).ref := hs.used_iff

theorem desk_object (hs : s.Tables) (hk : 0 < (s.files k).ref) :
    s.desk.object k = some (s.opened k) := Desk.sweep_object (hs.used_iff.mpr hk)

/-- A file that is held is open somewhere. -/
theorem desk_holds (hs : s.Tables) : s.desk.Holds n ↔
    ∃ k h, 0 < (s.files k).ref ∧ s.opened k = .file h ∧ h.node = n := by
  refine exists_congr fun k => exists_congr fun h => ?_
  rw [desk_used hs]
  refine and_congr_right fun hk => ?_
  rw [desk_object hs hk, Option.some.injEq]

theorem desk_file (hs : s.Tables) (hk : 0 < (s.files k).ref) (hopen : s.opened k = .file h) :
    s.desk.file h.node = some (objs s.fs.disk.bytes h.node).content := by
  refine Desk.sweep_file ⟨k, h, hs.used_iff.mpr hk, ?_, rfl⟩
  simp only [Kernel.allFiles, hopen]

theorem Lib.OpenObject.standing_ne {o : OpenObject ℕ} {pos : UInt32} (ho : o = .file h) :
    o.standing pos ≠ .other := by
  rw [ho]
  intro heq
  cases heq

/-- A file that stays in use and is not written is open on the same bytes. -/
theorem Kernel.Tables.bytes_eq (hs : s.Tables) (hs' : s'.Tables)
    (heff : Effects s.fs.state evs s'.fs.state) (ht : Tidy evs) (hk : 0 < (s.files k).ref)
    (hk' : 0 < (s'.files k).ref) (hlike : (s.files k).Like (s'.files k))
    (hopen : s.opened k = .file h) (hevs : ∀ ev ∈ evs, ev ≠ .wrote h.node) :
    objs s'.fs.disk.bytes h.node = objs s.fs.disk.bytes h.node := by
  refine hs.content_eq hs' heff ht hopen ?_ hlike.inode hevs
  rw [hs.opened_eq hs' heff ht hk hk' hlike]
  exact Lib.OpenObject.standing_ne hopen

/-- Calls that write nothing and open nothing: what the descriptors still lead to is as it was. -/
theorem desk_of_closes (hs : s.Tables) (hs' : s'.Tables)
    (heff : Effects s.fs.state evs s'.fs.state) (ht : Tidy evs)
    (hevs : ∀ ev ∈ evs, ∀ no, ev ≠ .wrote no)
    (hfiles : ∀ k, 0 < (s'.files k).ref → 0 < (s.files k).ref ∧ (s.files k).Like (s'.files k) ∧
      (s'.files k).offset = (s.files k).offset) :
    s'.desk = ({ s.desk with fds := fun p => (s'.pcb p).files } : FileDesk).sweep := by
  have hopened (k : FilePtr) (hk : 0 < (s'.files k).ref) : s'.opened k = s.opened k := by
    obtain ⟨hold, hlike, hoff⟩ := hfiles k hk
    rw [hs.opened_eq hs' heff ht hold hk hlike, hoff, standing_opened]
  refine Desk.sweep_congr rfl (fun k hk => ?_) fun n hn => ?_
  · have hk' : 0 < (s'.files k).ref := hs'.used_iff.mp hk
    simp only [Kernel.allFiles, hopened k hk', desk_object hs (hfiles k hk').1]
  · obtain ⟨k, h, hk, hobject, rfl⟩ := hn
    have hk' : 0 < (s'.files k).ref := hs'.used_iff.mp hk
    obtain ⟨hold, hlike, -⟩ := hfiles k hk'
    simp only [desk_object hs hold, Option.some.injEq] at hobject
    simp only [Kernel.allFiles, desk_file hs hold hobject]
    rw [hs.bytes_eq hs' heff ht hold hk' hlike hobject fun ev hev => hevs ev hev _]

/-- Descriptors come and go, and refer to what was referred to. -/
theorem desk_of_only (hs : s.Tables) (hs' : s'.Tables)
    (heff : Effects s.fs.state evs s'.fs.state) (ht : Tidy evs)
    (hevs : ∀ ev ∈ evs, ∀ no, ev ≠ .wrote no) (hfiles : SameFiles s s')
    (hsub : ∀ p fd k, (s'.pcb p).files fd = some k → ∃ q fd', (s.pcb q).files fd' = some k) :
    s'.desk = ({ s.desk with fds := fun p => (s'.pcb p).files } : FileDesk).sweep := by
  refine desk_of_closes hs hs' heff ht hevs fun k hk => ?_
  obtain ⟨p, fd, hfd⟩ := hs'.used_iff.mpr hk
  obtain ⟨q, fd', hfd'⟩ := hsub p fd k hfd
  refine ⟨hs.ref_of_fd hfd', ?_, ?_⟩
  · rw [hfiles k]
    exact ⟨rfl, rfl, rfl, rfl⟩
  · rw [hfiles k]

/-- Nobody's descriptors change, and nothing is written. -/
theorem desk_of_same (hs : s.Tables) (hs' : s'.Tables)
    (heff : Effects s.fs.state evs s'.fs.state) (ht : Tidy evs)
    (hevs : ∀ ev ∈ evs, ∀ no, ev ≠ .wrote no) (hfiles : SameFiles s s')
    (hfds : ∀ p, (s'.pcb p).files = (s.pcb p).files) : s'.desk = s.desk := by
  have hall : (fun p => (s'.pcb p).files) = s.desk.fds := funext hfds
  rw [desk_of_only hs hs' heff ht hevs hfiles fun p fd k hfd => ⟨p, fd, by rw [← hfds p]; exact hfd⟩,
    hall]
  exact (Desk.clean_sweep s.allFiles).sweep_eq

variable {fs : Fs} {pos : UInt32}

theorem files_setOffset (k' : FilePtr) : ((s.setOffset fs k pos).files k').ref = (s.files k').ref ∧
    (s.files k').Like ((s.setOffset fs k pos).files k') ∧
    ((s.setOffset fs k pos).files k').offset = if k' = k then pos else (s.files k').offset := by
  by_cases hk : k' = k
  · subst hk
    simp only [Kernel.setOffset, Function.update_self, if_true]
    exact ⟨trivial, ⟨rfl, rfl, rfl, rfl⟩, trivial⟩
  · simp only [Kernel.setOffset, Function.update_of_ne hk, if_neg hk]
    exact ⟨trivial, ⟨rfl, rfl, rfl, rfl⟩, trivial⟩

/-- One object moves. -/
theorem opened_setOffset (hs : s.Tables) (hs' : (s.setOffset fs k pos).Tables)
    (heff : Effects s.fs.state evs fs.state) (ht : Tidy evs) {k' : FilePtr}
    (hk' : 0 < (s.files k').ref) : (s.setOffset fs k pos).opened k' =
      if k' = k then (s.opened k').standing pos else s.opened k' := by
  obtain ⟨href, hlike, hoff⟩ := @files_setOffset s k fs pos k'
  rw [hs.opened_eq hs' heff ht hk' (href ▸ hk') hlike, hoff]
  split
  case isTrue => rfl
  case isFalse => exact standing_opened s k'

/-- A call on an object that is no file is not seen. -/
theorem desk_still (hs : s.Tables) (hs' : (s.setOffset fs k pos).Tables)
    (heff : Effects s.fs.state evs fs.state) (ht : Tidy evs) (hopen : s.opened k = .other)
    (hevs : ∀ ev ∈ evs, ∀ no, ev ≠ .wrote no) : (s.setOffset fs k pos).desk = s.desk := by
  refine desk_eq (Desk.clean_sweep s.allFiles) (fun _ => rfl) (fun k' hk' => ?_) fun n hn => ?_
  · have href := (desk_used hs).mp hk'
    rw [desk_object hs href, opened_setOffset hs hs' heff ht href]
    by_cases hk : k' = k
    · rw [if_pos hk, hk, hopen]
      rfl
    · rw [if_neg hk]
  · obtain ⟨k', h', href, hopen', rfl⟩ := (desk_holds hs).mp hn
    obtain ⟨hsame, hlike, -⟩ := @files_setOffset s k fs pos k'
    rw [desk_file hs href hopen', hs.bytes_eq hs' heff ht href (hsame ▸ href) hlike hopen' fun ev hev =>
      hevs ev hev _]

/-- A call on a file moves its object and changes no other file. -/
theorem desk_moved (hs : s.Tables) (hs' : (s.setOffset fs k pos).Tables)
    (heff : Effects s.fs.state evs fs.state) (ht : Tidy evs) (hk : 0 < (s.files k).ref)
    (hopen : s.opened k = .file h) (hevs : ∀ ev ∈ evs, ∀ no, no ≠ h.node → ev ≠ .wrote no) :
    (s.setOffset fs k pos).desk =
      (s.desk.put h.node (objs fs.disk.bytes h.node).content).move k h pos := by
  have hclean := Desk.clean_sweep s.allFiles
  have hused : s.desk.Used k := (desk_used hs).mpr hk
  have hobject : s.desk.object k = some (.file h) := by rw [desk_object hs hk, hopen]
  have hnode : s.desk.Holds h.node := ⟨k, h, hused, hobject, rfl⟩
  refine desk_eq ((hclean.put hnode).move hused hobject) (fun _ => rfl) (fun k' hk' => ?_)
    fun n hn => ?_
  · have href := (desk_used hs).mp hk'
    rw [opened_setOffset hs hs' heff ht href]
    by_cases hkk : k' = k
    · subst hkk
      simp only [Desk.move, Function.update_self, if_true, hopen]
      rfl
    · simp only [Desk.move, Desk.put, Function.update_of_ne hkk, if_neg hkk]
      exact desk_object hs href
  · by_cases hnode' : n = h.node
    · subst hnode'
      simp only [Desk.move, Desk.put, Function.update_self]
      rfl
    · have hn' : s.desk.Holds n := (Desk.holds_move (v := s.desk.put h.node _) hobject).mp hn
      obtain ⟨k', h', href, hopen', rfl⟩ := (desk_holds hs).mp hn'
      obtain ⟨hsame, hlike, -⟩ := @files_setOffset s k fs pos k'
      simp only [Desk.move, Desk.put, Function.update_of_ne hnode']
      rw [desk_file hs href hopen', hs.bytes_eq hs' heff ht href (hsame ▸ href) hlike hopen'
        fun ev hev => hevs ev hev _ hnode']

/-- The same bytes again. -/
theorem put_same {c : List UInt8} (hc : s.desk.file n = some c) : s.desk.put n c = s.desk := by
  rw [Desk.put, ← hc, Function.update_eq_self]

end Desks

/-! ### The calls -/

section Calls

variable {s s' : Kernel} {fd : ℤ} {i : Fin MAX_UFILE} {k : FilePtr} {h : Handle ℕ} {o : Outcome}

theorem desk_entry (hs : s.Tables) (hentry : entry (s.pcb s.curr).files fd = some (i, k)) :
    s.desk.object k = some (s.opened k) := desk_object hs (hs.ref_of_fd (entry_eq hentry))

/-- The object an open regular file is on. -/
theorem opened_inode {j : InodePtr} (hopen : s.opened k = .file h)
    (hinode : (s.files k).inode = some j) :
    h = ⟨(s.fs.inodes j).no, (s.files k).offset, (s.files k).readable, (s.files k).writable⟩ ∧
      (s.fs.objOf j).type = TYPE_FILE := by
  obtain ⟨j', hj', hfile, rfl⟩ := opened_file hopen
  have heq := (Kernel.Tables.holds_eq_some hj').2.2
  rw [hinode, Option.some.injEq] at heq
  subst heq
  exact ⟨rfl, hfile⟩

theorem objs_of_open (hs : s.Tables) (hopen : s.opened k = .file h) {j : InodePtr}
    (hinode : (s.files k).inode = some j) : objs s.fs.disk.bytes h.node = s.fs.objOf j := by
  obtain ⟨j', hj', -, rfl⟩ := opened_file hopen
  have heq := (Kernel.Tables.holds_eq_some hj').2.2
  rw [hinode, Option.some.injEq] at heq
  subst heq
  rw [Fs.objOf, objs_of_lt (hs.fs.holds.2.live j (hs.ref_of_holds hj')).1]

theorem opened_of_device (htype : (s.files k).type = TYPE_DEV) : s.opened k = .other := by
  refine opened_of_other fun j hj => ?_
  have hfile := (Kernel.Tables.holds_eq_some hj).2.1
  rw [htype] at hfile
  cases hfile

theorem read_desk {size : ℕ} (hs : s.Tables) (hs' : s'.Tables) (hread : SysRead s fd size o s') :
    DeskCall s.desk s.curr (.read fd size) o s'.desk := by
  cases hread with
  | closed hentry => exact .bad rfl hentry
  | @barred i k hentry hbarred =>
    have hobject := desk_entry hs hentry
    cases hopen : s.opened k with
    | file h =>
      obtain ⟨j, -, -, rfl⟩ := opened_file hopen
      rw [hopen] at hobject
      exact .readBarred hentry hobject hbarred
    | other =>
      rw [hopen] at hobject
      exact .other rfl hentry hobject
  | @file i k j fs bs hentry hreadable _ hinode heff hbs =>
    have hobject := desk_entry hs hentry
    have hk := hs.ref_of_fd (entry_eq hentry)
    have htidy : Tidy [.grow] := Kernel.Tables.Tidy.opens (by simp [FsEvent.closes])
    cases hopen : s.opened k with
    | file h =>
      rw [hopen] at hobject
      have hobj := objs_of_open hs hopen hinode
      have hfile := desk_file hs hk hopen
      have hkept : objs fs.disk.bytes h.node = objs s.fs.disk.bytes h.node := by
        obtain ⟨hsame, hlike, -⟩ := @files_setOffset s k fs ((s.files k).offset + UInt32.ofNat bs.length) k
        exact hs.bytes_eq hs' heff htidy hk (hsame ▸ hk) hlike hopen (by simp)
      rw [desk_moved hs hs' heff htidy hk hopen (by simp), hkept, put_same hfile]
      obtain ⟨rfl, -⟩ := opened_inode hopen hinode
      refine .read hentry hobject hreadable hfile ?_
      rw [hbs, hobj, Obj.read_content]
    | other =>
      rw [hopen] at hobject
      rw [desk_still hs hs' heff htidy hopen (by simp)]
      exact .other rfl hentry hobject
  | @device i k _ _ hentry _ htype hlinks =>
    have hobject := desk_entry hs hentry
    rw [opened_of_device htype] at hobject
    rw [desk_of_links hlinks]
    exact .other rfl hentry hobject

theorem write_desk {buf : List UInt8} (hs : s.Tables) (hs' : s'.Tables)
    (hwrite : SysWrite s fd buf o s') : DeskCall s.desk s.curr (.write fd buf) o s'.desk := by
  cases hwrite with
  | closed hentry => exact .bad rfl hentry
  | @barred i k hentry hbarred =>
    have hobject := desk_entry hs hentry
    cases hopen : s.opened k with
    | file h =>
      obtain ⟨j, -, -, rfl⟩ := opened_file hopen
      rw [hopen] at hobject
      exact .writeBarred hentry hobject hbarred
    | other =>
      rw [hopen] at hobject
      exact .other rfl hentry hobject
  | @beyond i k j fs hentry hwritable _ hinode hbeyond hsame =>
    have hobject := desk_entry hs hentry
    have hk := hs.ref_of_fd (entry_eq hentry)
    have heff : Effects s.fs.state [] fs.state := hsame ▸ Lts.Run.refl _
    rw [desk_of_same hs hs' heff Kernel.Tables.Tidy.nil (by simp) (fun _ => rfl) fun _ => rfl]
    cases hopen : s.opened k with
    | file h =>
      rw [hopen] at hobject
      have hfile := desk_file hs hk hopen
      rw [objs_of_open hs hopen hinode] at hfile
      obtain ⟨rfl, -⟩ := opened_inode hopen hinode
      exact .writeBeyond hentry hobject hwritable hfile (by rwa [Obj.length_content])
    | other =>
      rw [hopen] at hobject
      exact .other rfl hentry hobject
  | @file i k j fs hentry hwritable htype hinode hle heff hput =>
    have hobject := desk_entry hs hentry
    have hk := hs.ref_of_fd (entry_eq hentry)
    have htidy : Tidy [.wrote (s.fs.inodes j).no] :=
      Kernel.Tables.Tidy.opens (by simp [FsEvent.closes])
    cases hopen : s.opened k with
    | file h =>
      rw [hopen] at hobject
      have hfile := desk_file hs hk hopen
      rw [objs_of_open hs hopen hinode] at hfile
      have hlt : h.node < 1920 := by
        obtain ⟨j', hj', -, rfl⟩ := opened_file hopen
        exact (hs.fs.holds.2.live j' (hs.ref_of_holds hj')).1
      obtain ⟨rfl, -⟩ := opened_inode hopen hinode
      have hevs : ∀ ev ∈ [FsEvent.wrote (s.fs.inodes j).no], ∀ no, no ≠ (s.fs.inodes j).no →
          ev ≠ .wrote no := by
        intro ev hev no hne heq
        rw [List.mem_singleton.mp hev] at heq
        cases heq
        exact hne rfl
      rw [desk_moved hs hs' heff htidy hk hopen hevs, objs_of_lt hlt]
      simp only [hput, Obj.write_content hle]
      exact .write hentry hobject hwritable hfile (by rwa [Obj.length_content])
    | other =>
      -- a directory is not opened for writing
      rcases hs.file k hk with ⟨-, j', hj', htypes⟩ | hdev
      · rw [hinode, Option.some.injEq] at hj'
        subst hj'
        rcases htypes with hfile | ⟨-, hbarred⟩
        · rw [opened_of_file (Kernel.Tables.holds_of_file hk htype hinode) hfile] at hopen
          cases hopen
        · rw [hwritable] at hbarred
          cases hbarred
      · rw [htype] at hdev
        cases hdev
  | @device i k hentry _ htype =>
    have hobject := desk_entry hs hentry
    rw [opened_of_device htype] at hobject
    exact .other rfl hentry hobject

theorem lseek_desk {off : UInt32} {whence : ℕ} (hs : s.Tables) (hs' : s'.Tables)
    (hseek : SysSeek s fd off whence o s') :
    DeskCall s.desk s.curr (.lseek fd off whence) o s'.desk := by
  cases hseek with
  | closed hentry => exact .bad rfl hentry
  | @file i k j pos hentry _ hinode hpos =>
    have hobject := desk_entry hs hentry
    have hk := hs.ref_of_fd (entry_eq hentry)
    have heff : Effects s.fs.state [] s.fs.state := Lts.Run.refl _
    cases hopen : s.opened k with
    | file h =>
      rw [hopen] at hobject
      have hfile := desk_file hs hk hopen
      rw [desk_moved hs hs' heff Kernel.Tables.Tidy.nil hk hopen (by simp), put_same hfile]
      rw [objs_of_open hs hopen hinode] at hfile
      obtain ⟨rfl, -⟩ := opened_inode hopen hinode
      have hto : pos = Lib.Handle.seek ⟨(s.fs.inodes j).no, (s.files k).offset,
          (s.files k).readable, (s.files k).writable⟩ (s.fs.objOf j).content.length off whence := by
        rw [hpos, Obj.length_content]
        rfl
      rw [hto]
      exact .lseek hentry hobject hfile
    | other =>
      rw [hopen] at hobject
      rw [desk_still hs hs' heff Kernel.Tables.Tidy.nil hopen (by simp)]
      exact .other rfl hentry hobject
  | @device i k hentry htype =>
    have hobject := desk_entry hs hentry
    rw [opened_of_device htype] at hobject
    exact .other rfl hentry hobject

theorem close_desk {fs : Fs} (hs : s.Tables) (hs' : (s.dropFd fs s.curr i k).Tables)
    (hentry : entry (s.pcb s.curr).files fd = some (i, k))
    (heff : Effects s.fs.state (closings (s.files k) s.fs) fs.state) :
    DeskCall s.desk s.curr (.close fd) (.done (.int 0)) (s.dropFd fs s.curr i k).desk := by
  have hfiles : SameFiles s (s.dropFd fs s.curr i k) := by
    intro k'
    by_cases hk : k' = k
    · subst hk
      simp only [Kernel.dropFd, Function.update_self]
    · simp only [Kernel.dropFd, Function.update_of_ne hk]
  have hfds : (fun p => ((s.dropFd fs s.curr i k).pcb p).files) =
      (s.desk.point s.curr i none).fds := by
    funext p
    by_cases hp : p = s.curr
    · subst hp
      simp only [Kernel.dropFd, Desk.point, Function.update_self, desk_fds]
    · simp only [Kernel.dropFd, Desk.point, Function.update_of_ne hp, desk_fds]
  have hsub (p : ProcPtr) (fd' : Fin MAX_UFILE) (k' : FilePtr)
      (hfd : ((s.dropFd fs s.curr i k).pcb p).files fd' = some k') :
      ∃ q fd', (s.pcb q).files fd' = some k' := by
    have hused : (s.desk.point s.curr i none).Used k' := ⟨p, fd', by rw [← hfds]; exact hfd⟩
    exact (Desk.used_of_point hused).resolve_right (by simp)
  have htidy : Tidy (closings (s.files k) s.fs) := Kernel.Tables.Tidy.closes closes_closings
  rw [desk_of_only hs hs' heff htidy ?_ hfiles hsub, hfds]
  · exact .close hentry
  · intro ev hev no heq
    obtain ⟨j, no', rfl⟩ := closings_closes _ _ ev hev
    cases heq

theorem dup_desk {new : Fin MAX_UFILE} (hs : s.Tables)
    (hentry : entry (s.pcb s.curr).files fd = some (i, k))
    (hnew : (s.pcb s.curr).files new = none)
    (hs' : s' = { s with
      files := Function.update s.files k { s.files k with ref := (s.files k).ref + 1 }
      pcb := Function.update s.pcb s.curr { s.pcb s.curr with
        files := Function.update (s.pcb s.curr).files new (some k) } }) (htables : s'.Tables) :
    DeskCall s.desk s.curr (.dup fd) (.done (.int new.val)) s'.desk := by
  have hfiles : SameFiles s s' := by
    intro k'
    rw [hs']
    by_cases hk : k' = k
    · subst hk
      simp only [Function.update_self]
    · simp only [Function.update_of_ne hk]
  have hfds : (fun p => (s'.pcb p).files) = (s.desk.point s.curr new (some k)).fds := by
    funext p
    rw [hs']
    by_cases hp : p = s.curr
    · subst hp
      simp only [Desk.point, Function.update_self, desk_fds]
    · simp only [Desk.point, Function.update_of_ne hp, desk_fds]
  have hsub (p : ProcPtr) (fd' : Fin MAX_UFILE) (k' : FilePtr) (hfd : (s'.pcb p).files fd' = some k') :
      ∃ q fd', (s.pcb q).files fd' = some k' := by
    have hused : (s.desk.point s.curr new (some k)).Used k' := ⟨p, fd', by rw [← hfds]; exact hfd⟩
    rcases Desk.used_of_point hused with hold | heq
    · exact hold
    · cases heq
      exact ⟨s.curr, i, entry_eq hentry⟩
  have heff : Effects s.fs.state [] s'.fs.state := by
    rw [hs']
    exact Lts.Run.refl _
  have hclean := (Desk.clean_sweep s.allFiles).point (p := s.curr) (d := new) (k := k) hnew
  rw [desk_of_only hs htables heff Kernel.Tables.Tidy.nil (by simp) hfiles hsub, hfds]
  have hsweep : (s.desk.point s.curr new (some k)).sweep = s.desk.point s.curr new (some k) :=
    hclean.sweep_eq
  have hpoint : ({ s.desk with fds := (s.desk.point s.curr new (some k)).fds } : FileDesk) =
    s.desk.point s.curr new (some k) := rfl
  rw [hpoint, hsweep]
  exact .dup hentry hnew

theorem fork_desk {p : ProcPtr} {evs : List FsEvent} (hs : s.Tables) (hs' : s'.Tables)
    (hne : p ≠ s.curr) (hidle : (s.pcb p).held = .nothing) (honly : Only s p s')
    (hheld : (s'.pcb p).held = (s.pcb s.curr).held)
    (heff : Effects s.fs.state evs s'.fs.state) (ht : Tidy evs)
    (hevs : ∀ ev ∈ evs, ∀ no, ev ≠ .wrote no) : DeskCall s.desk s.curr .fork o s'.desk := by
  have hnone (fd : Fin MAX_UFILE) : s.desk.fds p fd = none := congrFun (congrArg Held.files hidle) fd
  have hfds : (fun q => (s'.pcb q).files) = (s.desk.give p (s.desk.fds s.curr)).fds := by
    funext q
    by_cases hq : q = p
    · subst hq
      simp only [Desk.give, Function.update_self]
      exact congrArg Held.files hheld
    · simp only [Desk.give, Function.update_of_ne hq]
      exact congrArg Held.files (honly.held q hq)
  have hsub (q : ProcPtr) (fd' : Fin MAX_UFILE) (k' : FilePtr) (hfd : (s'.pcb q).files fd' = some k') :
      ∃ q fd', (s.pcb q).files fd' = some k' := by
    have hused : (s.desk.give p (s.desk.fds s.curr)).Used k' := ⟨q, fd', by rw [← hfds]; exact hfd⟩
    exact (Desk.used_give hnone).mp hused
  have hclean := (Desk.clean_sweep s.allFiles).give (p := s.curr) hnone
  have hsweep : (s.desk.give p (s.desk.fds s.curr)).sweep = s.desk.give p (s.desk.fds s.curr) :=
    hclean.sweep_eq
  have hgive : ({ s.desk with fds := (s.desk.give p (s.desk.fds s.curr)).fds } : FileDesk) =
    s.desk.give p (s.desk.fds s.curr) := rfl
  rw [desk_of_only hs hs' heff ht hevs honly.files hsub, hfds, hgive, hsweep]
  exact .fork hne hnone

theorem exit_desk {status : ℤ} {evs : List FsEvent} (hs : s.Tables) (hs' : s'.Tables)
    (honly : Only s s.curr s') (hheld : (s'.pcb s.curr).held = .nothing)
    (heff : Effects s.fs.state evs s'.fs.state) (hevs : Closes evs) :
    DeskCall s.desk s.curr (.exit status) o s'.desk := by
  have hfds : (fun q => (s'.pcb q).files) = (s.desk.give s.curr fun _ => none).fds := by
    funext q
    by_cases hq : q = s.curr
    · subst hq
      simp only [Desk.give, Function.update_self]
      exact congrArg Held.files hheld
    · simp only [Desk.give, Function.update_of_ne hq]
      exact congrArg Held.files (honly.held q hq)
  have hsub (q : ProcPtr) (fd' : Fin MAX_UFILE) (k' : FilePtr) (hfd : (s'.pcb q).files fd' = some k') :
      ∃ q fd', (s.pcb q).files fd' = some k' := by
    by_cases hq : q = s.curr
    · subst hq
      rw [show (s'.pcb s.curr).files = fun _ => none from congrArg Held.files hheld] at hfd
      cases hfd
    · rw [show (s'.pcb q).files = (s.pcb q).files from congrArg Held.files (honly.held q hq)] at hfd
      exact ⟨q, fd', hfd⟩
  have htidy : Tidy evs := Kernel.Tables.Tidy.closes fun ev hev => by
    obtain ⟨j, no, rfl⟩ := hevs ev hev
    rfl
  rw [desk_of_only hs hs' heff htidy ?_ honly.files hsub, hfds]
  · exact .exit
  · intro ev hev no heq
    obtain ⟨j, no', rfl⟩ := hevs ev hev
    cases heq

/-! ### Opening -/

/-- Slots that nobody uses may change, and nothing is written. -/
theorem desk_of_unused {evs : List FsEvent} (hs : s.Tables) (hs' : s'.Tables)
    (heff : Effects s.fs.state evs s'.fs.state) (ht : Tidy evs)
    (hevs : ∀ ev ∈ evs, ∀ no, ev ≠ .wrote no) (hpcb : s'.pcb = s.pcb)
    (hfiles : ∀ k, 0 < (s.files k).ref → s'.files k = s.files k) : s'.desk = s.desk := by
  have hclean : s.desk.sweep = s.desk := (Desk.clean_sweep s.allFiles).sweep_eq
  have hused (k : FilePtr) (hk : 0 < (s'.files k).ref) : 0 < (s.files k).ref := by
    obtain ⟨p, fd, hfd⟩ := hs'.used_iff.mpr hk
    have hfd' : (s'.pcb p).files fd = some k := hfd
    rw [hpcb] at hfd'
    exact hs.ref_of_fd hfd'
  rw [desk_of_closes hs hs' heff ht hevs, hpcb]
  · exact hclean
  · intro k hk
    have hold := hused k hk
    rw [hfiles k hold]
    exact ⟨hold, ⟨rfl, rfl, rfl, rfl⟩, rfl⟩

theorem Opening.wrote {fs : Fs} {cwd : ℕ} {path : List UInt8} {type : UInt32}
    {q : Option (InodePtr × ℕ)} {evs : List FsEvent} (hopen : Opening fs cwd path type q evs) :
    ∀ ev ∈ evs, ∀ no, ev ≠ .wrote no := by
  intro ev hev no heq
  subst heq
  cases hopen <;> simp at hev

/-- A failed `fopen` is not seen. -/
theorem Fopened.desk_none {cwd : ℕ} {path : List UInt8} {mode : ℕ} {evs : List FsEvent}
    (hs : s.Tables) (hs' : s'.Tables) (hopen : Fopened s cwd path mode none evs s')
    (heff : Effects s.fs.state evs s'.fs.state) : s'.desk = s.desk := by
  have hshut {k : FilePtr} (hk : (s.files k).ref = 0) (k' : FilePtr) (hk' : 0 < (s.files k').ref) :
      Function.update s.files k (s.files k).shut k' = s.files k' := by
    refine Function.update_of_ne ?_ _ _
    rintro rfl
    omega
  cases hopen with
  | full => rfl
  | absent hk hopen =>
    exact desk_of_unused hs hs' heff (Kernel.Tables.Tidy.opens hopen.opens) hopen.wrote rfl (hshut hk)
  | @refused k fs evs j no hk hopen _ _ =>
    refine desk_of_unused hs hs' heff (hopen.tidy (by simp [FsEvent.opens])) ?_ rfl (hshut hk)
    intro ev hev no heq
    rcases List.mem_append.mp hev with hev | hev
    · exact hopen.wrote ev hev no heq
    · rw [List.mem_singleton.mp hev] at heq
      cases heq

section Placed

variable {evs : List FsEvent} {fd : Fin MAX_UFILE} {n : ℕ}

/-- The other slots stay open on what they were open on. -/
theorem opened_others (hs : s.Tables) (hs' : s'.Tables)
    (heff : Effects s.fs.state evs s'.fs.state) (ht : Tidy evs)
    (hothers : ∀ k' ≠ k, s'.files k' = s.files k') {k' : FilePtr} (hne : k' ≠ k)
    (href : 0 < (s.files k').ref) : s'.opened k' = s.opened k' := by
  have hsame := hothers k' hne
  rw [hs.opened_eq hs' heff ht href (hsame ▸ href) (hsame ▸ ⟨rfl, rfl, rfl, rfl⟩), hsame,
    standing_opened]

theorem bytes_others (hs : s.Tables) (hs' : s'.Tables)
    (heff : Effects s.fs.state evs s'.fs.state) (ht : Tidy evs)
    (hothers : ∀ k' ≠ k, s'.files k' = s.files k') {k' : FilePtr} (hne : k' ≠ k)
    (href : 0 < (s.files k').ref) (hopen : s.opened k' = .file h)
    (hevs : ∀ ev ∈ evs, ev ≠ .wrote h.node) :
    objs s'.fs.disk.bytes h.node = objs s.fs.disk.bytes h.node := by
  have hsame := hothers k' hne
  exact hs.bytes_eq hs' heff ht href (hsame ▸ href) (hsame ▸ ⟨rfl, rfl, rfl, rfl⟩) hopen hevs

variable (hs : s.Tables) (hs' : s'.Tables) (heff : Effects s.fs.state evs s'.fs.state)
  (ht : Tidy evs) (hothers : ∀ k' ≠ k, s'.files k' = s.files k')
  (hfds : ∀ p, (s'.pcb p).files = (s.desk.point s.curr fd (some k)).fds p)
  (hfd : (s.pcb s.curr).files fd = none) (hk : (s.files k).ref = 0)

include hs hk in
theorem desk_unused : ¬ s.desk.Used k := by
  rw [desk_used hs]
  omega

include hs hs' heff ht hothers hfds hfd hk in
/-- A slot is opened on a device or a directory. -/
theorem desk_placed (hopen : s'.opened k = .other) (hevs : ∀ ev ∈ evs, ∀ no, ev ≠ .wrote no) :
    s'.desk = (s.desk.point s.curr fd (some k)).place k .other := by
  have hunused := desk_unused hs hk
  refine desk_eq ((Desk.clean_sweep s.allFiles).place hfd hunused) hfds (fun k' hk' => ?_)
    fun n hn => ?_
  · by_cases hkk : k' = k
    · subst hkk
      simp only [Desk.place, Function.update_self, hopen]
    · have hold := (Desk.used_of_point hk').resolve_right fun heq => hkk (Option.some.inj heq).symm
      have href := (desk_used hs).mp hold
      simp only [Desk.place, Function.update_of_ne hkk]
      rw [opened_others hs hs' heff ht hothers hkk href]
      exact desk_object hs href
  · obtain ⟨k', h', hk', hobject, rfl⟩ := hn
    have hkk : k' ≠ k := by
      rintro rfl
      simp only [Desk.place, Function.update_self] at hobject
      cases hobject
    have hold := (Desk.used_of_point hk').resolve_right fun heq => hkk (Option.some.inj heq).symm
    have href := (desk_used hs).mp hold
    simp only [Desk.place, Function.update_of_ne hkk] at hobject
    have hopen' : s.opened k' = .file h' := by
      rw [← Option.some.injEq, ← desk_object hs href]
      exact hobject
    rw [bytes_others hs hs' heff ht hothers hkk href hopen' fun ev hev => hevs ev hev _]
    exact desk_file hs href hopen'

include hs hs' heff ht hothers hfds hfd hk in
/-- A slot is opened on a file, which may be emptied. -/
theorem desk_placed_file (hopen : s'.opened k = .file h)
    (hevs : ∀ ev ∈ evs, ∀ no, no ≠ h.node → ev ≠ .wrote no) :
    s'.desk = ((s.desk.point s.curr fd (some k)).place k (.file h)).put h.node
      (objs s'.fs.disk.bytes h.node).content := by
  have hunused := desk_unused hs hk
  have hnode : ((s.desk.point s.curr fd (some k)).place k (.file h)).Holds h.node :=
    ⟨k, h, Desk.used_point, by simp only [Desk.place, Function.update_self], rfl⟩
  refine desk_eq (((Desk.clean_sweep s.allFiles).place hfd hunused).put hnode) hfds (fun k' hk' => ?_)
    fun n hn => ?_
  · by_cases hkk : k' = k
    · subst hkk
      simp only [Desk.put, Desk.place, Function.update_self, hopen]
    · have hold := (Desk.used_of_point hk').resolve_right fun heq => hkk (Option.some.inj heq).symm
      have href := (desk_used hs).mp hold
      simp only [Desk.put, Desk.place, Function.update_of_ne hkk]
      rw [opened_others hs hs' heff ht hothers hkk href]
      exact desk_object hs href
  · by_cases hnn : n = h.node
    · subst hnn
      simp only [Desk.put, Function.update_self]
    · obtain ⟨k', h', hk', hobject, rfl⟩ := hn
      have hkk : k' ≠ k := by
        rintro rfl
        simp only [Desk.put, Desk.place, Function.update_self, Option.some.injEq,
          OpenObject.file.injEq] at hobject
        exact hnn (hobject ▸ rfl)
      have hold := (Desk.used_of_point hk').resolve_right fun heq => hkk (Option.some.inj heq).symm
      have href := (desk_used hs).mp hold
      simp only [Desk.put, Desk.place, Function.update_of_ne hkk] at hobject
      have hopen' : s.opened k' = .file h' := by
        rw [← Option.some.injEq, ← desk_object hs href]
        exact hobject
      simp only [Desk.put, Function.update_of_ne hnn]
      rw [bytes_others hs hs' heff ht hothers hkk href hopen' fun ev hev => hevs ev hev _ hnn]
      exact desk_file hs href hopen'

end Placed

/-- A successful open puts a new object on the desk. -/
theorem Fopened.desk_some {s₁ : Kernel} {cwd mode : ℕ} {path : CString} {evs : List FsEvent}
    {fd : Fin MAX_UFILE} (hs : s.Tables) (hfd : (s.pcb s.curr).files fd = none)
    (hopen : Fopened s cwd path.1 mode (some k) evs s₁)
    (hs' : s' = { s₁ with pcb := Function.update s₁.pcb s₁.curr { s₁.pcb s₁.curr with
      files := Function.update (s₁.pcb s₁.curr).files fd (some k) } })
    (htables : s'.Tables) (heff : Effects s.fs.state evs s'.fs.state) :
    DeskCall s.desk s.curr (.open path mode) (.done (.int fd.val)) s'.desk := by
  have hfds : ∀ p, (s'.pcb p).files = (s.desk.point s.curr fd (some k)).fds p := by
    obtain ⟨hpcb, hcurr⟩ := Kernel.Calls.Fopened.pcb_eq hopen
    intro p
    rw [hs', hcurr, hpcb]
    by_cases hp : p = s.curr
    · subst hp
      simp only [Desk.point, Function.update_self, desk_fds]
    · simp only [Desk.point, Function.update_of_ne hp, desk_fds]
  cases hopen with
  | @file k fs evs j no hk hopen hknown hfits hno htype hempty =>
    have hothers : ∀ k' ≠ k, s'.files k' = s.files k' := by
      intro k' hne
      rw [hs']
      exact Function.update_of_ne hne _ _
    have hself : s'.files k = (s.files k).ofInode mode j := by
      rw [hs']
      exact Function.update_self ..
    have hfs : s'.fs = fs := by rw [hs']
    have hunused := desk_unused hs hk
    have htidy : Tidy (evs ++ if mode &&& O_TRUNC ≠ 0 then [.wrote no] else []) := by
      refine hopen.tidy fun ev hev => ?_
      split at hev
      · rw [List.mem_singleton.mp hev]
        rfl
      · cases hev
    have hevs : ∀ ev ∈ evs ++ if mode &&& O_TRUNC ≠ 0 then [.wrote no] else [],
        ∀ n, (mode &&& O_TRUNC ≠ 0 → n ≠ no) → ev ≠ .wrote n := by
      intro ev hev n hn heq
      rcases List.mem_append.mp hev with hev | hev
      · exact hopen.wrote ev hev n heq
      · split at hev
        case isTrue htrunc =>
          rw [List.mem_singleton.mp hev, FsEvent.wrote.injEq] at heq
          exact hn htrunc heq.symm
        case isFalse => cases hev
    have htable : openTable s'.files k = some j := by
      rw [openTable, hself]
      exact (File.holds_iff Int.one_pos).mpr ⟨rfl, rfl⟩
    have hlt : no < 1920 := by
      rw [← hno, ← hfs]
      exact (htables.fs.holds.2.live j (htables.ref_of_holds htable)).1
    rw [← hfs] at htype hno hempty
    rw [← htype] at hknown hfits
    rcases hknown with hfile | hdir
    · have hopened := opened_of_file htable hfile
      rw [hself, hno] at hopened
      rw [desk_placed_file hs htables heff htidy hothers hfds hfd hk hopened
        fun ev hev n hne => hevs ev hev n fun _ => hne]
      refine .openFile hfd hunused (fun htrunc => ?_) fun hclear c' hc' => ?_
      · rw [objs_of_lt hlt, ← List.length_eq_zero_iff, Obj.length_content, ← hno]
        exact hempty htrunc
      · -- the file is open already
        have hholds : s.desk.Holds no := by
          by_contra hnone
          have hgone : s.desk.file no = none := (Desk.clean_sweep s.allFiles).file no hnone
          rw [hgone] at hc'
          cases hc'
        obtain ⟨k', h', href, hopen', rfl⟩ := (desk_holds hs).mp hholds
        have hkk : k' ≠ k := by
          rintro rfl
          omega
        rw [bytes_others hs htables heff htidy hothers hkk href hopen' fun ev hev =>
          hevs ev hev _ fun htrunc => (htrunc hclear).elim]
        rw [desk_file hs href hopen'] at hc'
        exact Option.some.inj hc'
    · -- a directory is not emptied
      have hopened : s'.opened k = .other := by
        refine opened_of_other fun j' hj' hfile => ?_
        rw [htable, Option.some.injEq] at hj'
        subst hj'
        rw [hdir] at hfile
        cases hfile
      have hclear : ¬ mode &&& O_TRUNC ≠ 0 := fun htrunc =>
        hfits (Or.inr ⟨hdir, Or.inr (Or.inr htrunc)⟩)
      rw [desk_placed hs htables heff htidy hothers hfds hfd hk hopened fun ev hev n =>
        hevs ev hev n fun htrunc => (hclear htrunc).elim]
      exact .openOther hfd hunused
  | @device k fs evs j no id hk hopen _ =>
    have hothers : ∀ k' ≠ k, s'.files k' = s.files k' := by
      intro k' hne
      rw [hs']
      exact Function.update_of_ne hne _ _
    have hself : s'.files k = (s.files k).ofDev mode id := by
      rw [hs']
      exact Function.update_self ..
    have hopened : s'.opened k = .other := opened_of_device (by rw [hself]; rfl)
    rw [desk_placed hs htables heff (hopen.tidy (by simp [FsEvent.opens])) hothers hfds hfd hk hopened]
    · exact .openOther hfd (desk_unused hs hk)
    · intro ev hev n heq
      rcases List.mem_append.mp hev with hev | hev
      · exact hopen.wrote ev hev n heq
      · rw [List.mem_singleton.mp hev] at heq
        cases heq

end Calls

/-! ### Every step -/

section Steps

variable {s s' : Kernel} {o : Outcome} {c : InodePtr} {path : List UInt8} {evs : List FsEvent}

theorem Loading.tidy (h : Loading evs) : Tidy evs := by
  rcases h with rfl | ⟨j, no, n, rfl⟩
  · exact Kernel.Tables.Tidy.opens (by simp [FsEvent.closes])
  · refine ⟨.opened j no :: List.replicate n .grow, [.closed j no], rfl, ?_, ?_⟩
    · intro ev hev
      rcases List.mem_cons.mp hev with rfl | hev
      · rfl
      · rw [List.eq_of_mem_replicate hev]
        rfl
    · simp [FsEvent.opens]

theorem Loading.wrote (h : Loading evs) : ∀ ev ∈ evs, ∀ no, ev ≠ .wrote no := by
  rcases h with rfl | ⟨j, no, n, rfl⟩
  · simp
  · intro ev hev no' heq
    subst heq
    simp [List.mem_replicate] at hev

theorem SysChdir.tidy (h : SysChdir s c path o evs s') : Tidy evs := by
  cases h with
  | absent => exact Kernel.Tables.Tidy.opens (by simp [FsEvent.closes])
  | noDir => exact ⟨[_], [_], rfl, by simp [FsEvent.closes], by simp [FsEvent.opens]⟩
  | dir => exact ⟨[_], [_], rfl, by simp [FsEvent.closes], by simp [FsEvent.opens]⟩

theorem SysChdir.wrote (h : SysChdir s c path o evs s') : ∀ ev ∈ evs, ∀ no, ev ≠ .wrote no := by
  cases h with
  | absent | noDir | dir => simp

theorem Removing.tidy {fs fs' : Fs} {cwd : ℕ} {r : ℤ} (h : Removing fs fs' cwd path r evs) :
    Tidy evs := by
  cases h with
  | failed => exact Kernel.Tables.Tidy.opens (by simp [FsEvent.closes])
  | removed =>
    exact ⟨[_, _, _, _], [_, _], rfl, by simp [FsEvent.closes], by simp [FsEvent.opens]⟩

theorem Removing.wrote {fs fs' : Fs} {cwd : ℕ} {r : ℤ} (h : Removing fs fs' cwd path r evs) :
    ∀ ev ∈ evs, ∀ no, ev ≠ .wrote no := by
  cases h with
  | failed | removed => simp

/-- **Every call is a call on the desk.** -/
theorem do_syscall_desk (hs : s.Tables) (hidle : s.Idle)
    (hrun : (s.pcb s.curr).status = .running) (hc : (s.pcb s.curr).cwd = some c) (call : Call) :
    wp (do_syscall call) (fun o s' => DeskCall s.desk s.curr call o s'.desk) (fun _ => True) s := by
  -- what leaves the tables alone leaves the desk alone
  have hkeeps {m : KernelM Outcome} (hm : Keeps Kernel.links m) (hcall : call.aloof = true) :
      wp m (fun o s' => DeskCall s.desk s.curr call o s'.desk) (fun _ => True) s := by
    refine (hm.wp s).imp fun o s' hlinks => ?_
    rw [desk_of_links hlinks]
    exact .aloof hcall
  -- and so does what changes semaphores only
  have husems {s' : Kernel} (htables : s'.Tables) (hfs : s'.fs = s.fs) (honly : Only s s.curr s')
      (hfiles : (s'.pcb s.curr).files = (s.pcb s.curr).files) : s'.desk = s.desk := by
    have heff : Effects s.fs.state [] s'.fs.state := hfs ▸ Lts.Run.refl _
    refine desk_of_same hs htables heff Kernel.Tables.Tidy.nil (by simp) honly.files fun p => ?_
    by_cases hp : p = s.curr
    · rw [hp, hfiles]
    · exact congrArg Held.files (honly.held p hp)
  cases call with
  | write fd buf =>
    exact (sys_write_tables hs fd buf).imp fun _ _ h => write_desk hs h.1 h.2
  | read fd count =>
    exact (sys_read_tables hs fd count).imp fun _ _ h => read_desk hs h.1 h.2
  | sleep ticks => exact hkeeps (Keeps.read.bind fun _ => linked_sleepLoop _ _) rfl
  | exec path =>
    rw [do_syscall, sys_exec, wp_bind]
    refine (sys_exec_tables hs hc path.2).imp ?_
    intro loaded s' hs'
    obtain ⟨htables, fs, evs, rfl, heff, hload⟩ := hs'
    have hsame : { s with fs := fs }.desk = s.desk :=
      desk_of_same hs htables heff hload.tidy hload.wrote (fun _ => rfl) fun _ => rfl
    have haloof (o : Outcome) : DeskCall s.desk s.curr (.exec path) o { s with fs := fs }.desk := by
      rw [hsame]
      exact .aloof rfl
    split
    · exact haloof _
    · exact haloof _
  | getpid => exact hkeeps linked_sys_getpid rfl
  | yield => exact hkeeps (linked_proc_yield _) rfl
  | fork =>
    refine (sys_fork_tables hs hidle hrun hc).mono ?_ fun _ _ => trivial
    intro o s' hs'
    obtain ⟨htables, ⟨rfl, rfl⟩ | ⟨p, hne, hunused, honly, hheld, -, heff⟩⟩ := hs'
    · exact .forkFails
    · exact fork_desk hs htables hne (hidle p (Or.inl hunused)) honly hheld heff
        (Kernel.Tables.Tidy.opens (by simp [FsEvent.closes])) (by simp)
  | exit status =>
    refine (sys_exit_tables hs hc status).imp ?_
    intro _ s' hs'
    obtain ⟨htables, honly, hheld, evs, heff, hevs⟩ := hs'
    exact exit_desk hs htables honly hheld heff hevs
  | wait => exact hkeeps linked_sys_wait rfl
  | sem_open value =>
    refine (sys_sem_open_tables hs value).imp ?_
    intro o s' hs'
    obtain ⟨htables, hfs, honly, -, hfiles⟩ := hs'
    rw [husems htables hfs honly hfiles]
    exact .aloof rfl
  | sem_p sem_id => exact hkeeps (linked_sys_sem_p _) rfl
  | sem_v sem_id => exact hkeeps (linked_sys_sem_v _) rfl
  | sem_close sem_id =>
    refine (sys_sem_close_tables hs sem_id).imp ?_
    intro o s' hs'
    obtain ⟨htables, hfs, honly, -, hfiles⟩ := hs'
    rw [husems htables hfs honly hfiles]
    exact .aloof rfl
  | «open» path mode =>
    refine (sys_open_spec hs hc path.2).mono ?_ fun _ _ => trivial
    intro o s' hs'
    obtain ⟨htables, evs, heff, ⟨rfl, ⟨-, rfl, -⟩ | ⟨-, hopen⟩⟩ | ⟨fd, k, s₁, hfd, rfl, hopen, heq⟩⟩ := hs'
    · exact .openFails
    · rw [hopen.desk_none hs htables heff]
      exact .openFails
    · exact hopen.desk_some hs hfd heq htables heff
  | close fd =>
    refine (sys_close_spec hs fd).imp ?_
    intro o s' hs'
    rcases hs' with ⟨hentry, rfl, rfl⟩ | ⟨i, k, fs, hentry, rfl, heff, rfl, htables⟩
    · exact .bad rfl hentry
    · exact close_desk hs htables hentry heff
  | dup fd =>
    refine (sys_dup_spec hs fd).imp ?_
    intro o s' hs'
    rcases hs' with ⟨hentry | hfull, rfl, rfl⟩ | ⟨i, k, new, hentry, hnew, rfl, heq, htables⟩
    · exact .bad rfl hentry
    · exact .dupFull hfull
    · exact dup_desk hs hentry hnew heq htables
  | lseek fd off whence =>
    exact (sys_lseek_tables hs fd off whence).imp fun _ _ h => lseek_desk hs h.1 h.2
  | fstat fd =>
    refine (sys_fstat_tables hs fd).imp ?_
    intro _ s' hs'
    obtain ⟨-, rfl⟩ := hs'
    exact .aloof rfl
  | chdir path =>
    refine (sys_chdir_tables hs hc path.2).mono ?_ fun _ _ => trivial
    intro o s' hs'
    obtain ⟨htables, evs, heff, hchdir⟩ := hs'
    have hsame : s'.desk = s.desk := by
      refine desk_of_same hs htables heff hchdir.tidy hchdir.wrote ?_ ?_
      · intro k
        cases hchdir with
        | absent | noDir | dir => rfl
      · intro p
        cases hchdir with
        | absent | noDir => rfl
        | dir =>
          by_cases hp : p = s.curr
          · rw [hp]
            simp only [Function.update_self]
          · simp only [Function.update_of_ne hp]
    rw [hsame]
    exact .aloof rfl
  | unlink path =>
    refine (sys_unlink_tables hs hc path.2).mono ?_ fun _ _ => trivial
    intro o s' hs'
    obtain ⟨htables, fs, r, evs, rfl, -, heff, hrem⟩ := hs'
    have hsame : { s with fs := fs }.desk = s.desk :=
      desk_of_same hs htables heff hrem.tidy hrem.wrote (fun _ => rfl) fun _ => rfl
    rw [hsame]
    exact .aloof rfl

theorem finish_reply (o : Outcome) :
    wp (finish o) (fun r s' => r = o.reply ∧ s'.links = s.links) (fun _ => True) s := by
  have hlinks := (linked_finish o).wp s
  cases o with
  | done r =>
    rw [finish, wp_bind, proc_curr, wp_read, wp_bind, modProc, wp_update, wp_pure] at hlinks ⊢
    exact ⟨rfl, hlinks⟩
  | wait k =>
    rw [finish, wp_bind] at hlinks ⊢
    exact hlinks.imp fun _ _ h => ⟨rfl, h⟩

/-- Only calls change what the tables are about. -/
theorem linked_enter {e : Event} (he : ∀ c junk, e ≠ .call c junk) : Keeps Kernel.links (enter e) := by
  cases e with
  | call c junk => exact (he c junk rfl).elim
  | resume =>
    exact Keeps.read.bind fun _ => Keeps.read.bind fun _ => (linked_goOn _).bind fun _ => Keeps.pure _
  | timer =>
    refine Keeps.bind (Keeps.update ?_) fun _ => (linked_proc_yield _).bind fun _ => Keeps.pure _
    intro s
    rfl
  | serial bs => exact (linked_serial_handle bs).bind fun _ => Keeps.pure _

theorem linked_handle {e : Event} (he : ∀ c junk, e ≠ .call c junk) :
    Keeps Kernel.links (handle e) := by
  rw [handle_eq]
  refine (linked_enter he).bind fun r => ?_
  cases r with
  | none => exact Keeps.pure _
  | some o => exact linked_finish o

/-- **A step of the kernel is a step of the desk.** -/
theorem Kernel.step.desk {l : Label} (hsound : s.Sound) (h : s.InOrder) (hstep : s.step l s') :
    DeskStep s.desk s.curr l.event l.reply s'.desk := by
  obtain ⟨-, henabled, hok⟩ := hstep
  by_cases hcall : ∃ c junk, l.event = .call c junk
  · obtain ⟨call, junk, hevent⟩ := hcall
    rw [hevent] at hok ⊢
    have hrun : (s.pcb s.curr).status = .running := hsound.runs
    obtain ⟨c, hc⟩ := h.cwd s.curr (by
      have hstatus : (s.core.thread s.curr).status = .running := hrun
      simp [Core.Live, hstatus])
    obtain ⟨s₀, hs₀⟩ : ∃ s₀ : Kernel, s₀ = { s with fs := { s.fs with junk := junk } } := ⟨_, rfl⟩
    have h₀ : s₀.InOrder := hs₀ ▸ h.junk junk
    have hdesk₀ : s₀.desk = s.desk := by rw [hs₀]; rfl
    have hcurr₀ : s₀.curr = s.curr := by rw [hs₀]
    have hpcb₀ : s₀.pcb = s.pcb := by rw [hs₀]
    have hspec : wp (handle (.call call junk))
        (fun r s' => DeskStep s.desk s.curr (.call call junk) r s'.desk) (fun _ => True) s := by
      rw [handle, wp_bind, wp_update, wp_bind, ← hs₀, ← hdesk₀, ← hcurr₀]
      refine (do_syscall_desk h₀.tables h₀.not_used (by rw [hpcb₀, hcurr₀]; exact hrun)
        (by rw [hpcb₀, hcurr₀]; exact hc) call).imp ?_
      intro o s₁ hs₁
      refine (finish_reply o).imp ?_
      intro r s₂ hs₂
      obtain ⟨rfl, hlinks⟩ := hs₂
      rw [desk_of_links hlinks]
      exact .call hs₁
    exact hspec.of_ok hok
  · have hother : ∀ c junk, l.event ≠ .call c junk := fun c junk heq => hcall ⟨c, junk, heq⟩
    have hlinks := ((linked_handle hother).wp s).of_ok hok
    rw [desk_of_links hlinks]
    exact .other hother

end Steps

/-! ### Every run -/

/-- The machine, with the slot of the process that runs in place of its number. -/
def observed (image : Mem → Prop) : Lts Kernel (ProcPtr × Event × Option Reply) where
  init := (machine image).init
  step s l s' := l.1 = s.curr ∧ s.step ⟨(s.pcb s.curr).pid, l.2.1, l.2.2⟩ s'

/-- The model as a transition system: at first nothing is open. -/
def desks : Lts FileDesk (ProcPtr × Event × Option Reply) where
  init v := v = ⟨fun _ _ => none, fun _ => none, fun _ => none⟩
  step v l v' := DeskStep v l.1 l.2.1 l.2.2 v'

/-- **Descriptors share offsets as in the model.** Every run of the kernel is a run of the desk,
with the same processes, calls and replies. -/
theorem runs_share (h : (observed Mkfs.Image).History) :
    desks.init h.first.desk ∧ desks.Run h.first.desk h.labels h.last.desk := by
  obtain ⟨s, ls, s', hinit, hrun⟩ := h
  obtain ⟨D, ⟨files, hfiles⟩, hboots⟩ := hinit
  have hD := hfiles.formatted
  constructor
  · have hnone (p : ProcPtr) (fd : Fin MAX_UFILE) (k : FilePtr) : s.desk.fds p fd ≠ some k := by
      rw [desk_fds, hboots.noFiles hD p]
      exact fun heq => by cases heq
    have hunused (k : FilePtr) : ¬ s.desk.Used k := by
      intro hk
      obtain ⟨p, fd, hfd⟩ := hk
      exact hnone p fd k hfd
    have hclean := Desk.clean_sweep s.allFiles
    change s.desk = _
    ext1
    · funext p
      exact hboots.noFiles hD p
    · funext k
      exact hclean.object k (hunused k)
    · funext n
      refine hclean.file n fun hn => ?_
      obtain ⟨k, -, hk, -⟩ := hn
      exact hunused k hk
  · refine Lts.Run.map Kernel.desk (fun s => s.Sound ∧ s.InOrder) (fun s l t hs hone => ?_)
      (fun s l t hs hone => ?_) hrun ⟨hboots.sound, (hboots.inOrder hD).1⟩
    · exact ⟨Kernel.step.sound hs.1 hone.2, (Kernel.step.inOrder hs.1 hs.2 hone.2).1⟩
    · obtain ⟨p, e, r⟩ := l
      obtain ⟨rfl, hstep⟩ := hone
      exact hstep.desk hs.1 hs.2

end Oslab
