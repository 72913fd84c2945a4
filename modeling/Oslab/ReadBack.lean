/-
# Reading the image back

The kernel finds on an image of `mkfs` the files that went into it: a path leads to a
file when its last name is the name of one and all names before are `.` or `..`, and
the bytes read are the bytes of that file. No other path leads to a file.
-/
import Oslab.Bindings
import Oslab.Contents

namespace Oslab

open Lib Lib.Prog

/-- Find the file system, open the root as `init_proc` does, then open the path and read all there
is of it. A directory is opened but not read. -/
def readBack (path : List UInt8) : FsM (Option (Option (List UInt8))) := do
  init_fs
  let cwd ← iopen none [SLASH] TYPE_NONE
  match ← iopen cwd path TYPE_NONE with
  | none => pure none
  | some i => do
    let type ← itype i
    if type = TYPE_FILE then
      let size ← isize i
      let bs ← iread i 0 size
      pure (some (some bs))
    else pure (some none)

/-- The bytes of a file; a directory has none. -/
def seenOf (D : Mem) (no : ℕ) : Option (List UInt8) :=
  if (objs D no).type = TYPE_FILE then some (objs D no).content else none

namespace Mkfs

/-- The number of the file with a name. -/
def numberOf (files : List (CString × List UInt8)) (name : List UInt8) : Option ℕ :=
  (files.findIdx? fun f => basename f.1.1 = name).map (· + 2)

/-- What the names lead to: nothing, the root, or a file with its bytes. -/
def filesAt (files : List (CString × List UInt8)) :
    List (List UInt8) → Option (Option (List UInt8))
  | [] => some none
  | name :: names =>
    if name = DOT ∨ name = DOTDOT then filesAt files names
    else if names = [] then (files.find? fun f => basename f.1.1 = name).map fun f => some f.2
    else none

/-- An image, and the files it is made of. -/
structure Packed where
  files : List (CString × List UInt8)
  disk : Mem
  image : ImageOf files disk
  apart : Apart files

end Mkfs

section Names

variable {files : List (CString × List UInt8)} {D : Mem} {I : InodePtr → Inode} {no : ℕ}
  {name : List UInt8}

namespace Mkfs.Formatted

variable (h : Formatted files D)

include h

/-- Every entry of the root, with its name and number. -/
theorem entry_cases {e : ℕ} (he : e < files.length + 2) :
    (((obj D 1).label e = DOT ∨ (obj D 1).label e = DOTDOT) ∧ (obj D 1).target e = 1) ∨
      ∃ i, ∃ hi : i < files.length, e = i + 2 ∧ (obj D 1).target e = i + 2 ∧
        (obj D 1).label e = basename (files.get ⟨i, hi⟩).1.1 := by
  match e, he with
  | 0, _ => exact Or.inl ⟨Or.inl h.dot.label, h.dot.inode⟩
  | 1, _ => exact Or.inl ⟨Or.inr h.dotdot.label, h.dotdot.inode⟩
  | i + 2, he =>
    have hi : i < files.length := by omega
    exact Or.inr ⟨i, hi, rfl, (h.entry i hi).inode, (h.entry i hi).label⟩

/-- The root binds the names of the files, and the names of directories to itself. -/
theorem binding_root (hapart : Apart files) : binding (objs D) 1 name =
    if name = DOT ∨ name = DOTDOT then some 1 else numberOf files name := by
  have hdir : (ns D fun _ => ⟨0, 0, false, .zero⟩).Dir 1 := h.dir_iff.mpr rfl
  have hiff (t : ℕ) : binding (objs D) 1 name = some t ↔
      ∃ e < (objs D 1).count,
        (objs D 1).target e = t ∧ t ≠ 0 ∧ (objs D 1).label e = name :=
    (h.distinct hapart).binding_iff hdir
  simp only [objs_root, h.count_root] at hiff
  split
  case isTrue hdots =>
    rw [hiff]
    rcases hdots with rfl | rfl
    · exact ⟨0, by omega, h.dot.inode, by norm_num, h.dot.label⟩
    · exact ⟨1, by omega, h.dotdot.inode, by norm_num, h.dotdot.label⟩
  case isFalse hdots =>
    refine Option.ext fun t => ?_
    rw [hiff, numberOf, Option.map_eq_some_iff]
    constructor
    · intro hentry
      obtain ⟨e, he, rfl, -, rfl⟩ := hentry
      rcases h.entry_cases he with ⟨hdot, -⟩ | ⟨i, hi, rfl, htarget, hlabel⟩
      · exact (hdots hdot).elim
      · refine ⟨i, ?_, htarget.symm⟩
        rw [List.findIdx?_eq_some_iff_getElem]
        refine ⟨hi, by simpa using hlabel.symm, fun j hj => ?_⟩
        -- an earlier file has another name
        simp only [decide_eq_true_eq]
        intro heq
        have hi' : i < (files.map fun f => basename f.1.1).length := by simpa using hi
        have hj' : j < (files.map fun f => basename f.1.1).length := hj.trans hi'
        have hsame : (files.map fun f => basename f.1.1)[j] =
            (files.map fun f => basename f.1.1)[i] := by
          rw [List.getElem_map, List.getElem_map]
          exact heq.trans hlabel
        exact hj.ne (hapart.nodup.getElem_inj_iff.mp hsame)
    · intro hfile
      obtain ⟨i, hfind, rfl⟩ := hfile
      rw [List.findIdx?_eq_some_iff_getElem] at hfind
      obtain ⟨hi, hname, -⟩ := hfind
      refine ⟨i + 2, by omega, (h.entry i hi).inode, by omega, ?_⟩
      exact (h.entry i hi).label.trans (by simpa using hname)

/-- A file binds nothing. -/
theorem binding_file {names : List (List UInt8)} (hno : no ≠ 1) (hnames : names ≠ []) :
    along (objs D) no names = none := by
  cases names with
  | nil => exact (hnames rfl).elim
  | cons n ns =>
    have hdir : (objs D no).type ≠ TYPE_DIR := fun hdir => hno
      ((h.dir_iff (I := fun _ => ⟨0, 0, false, .zero⟩)).mp hdir)
    rw [along_cons, binding_other hdir, Option.bind_none]

/-- Every file is in the inode with its number. -/
theorem content_file {i : ℕ} (hi : i < files.length) : objs D (i + 2) =
    ⟨TYPE_FILE, 0, (files.get ⟨i, hi⟩).2.length, Mem.ofList (files.get ⟨i, hi⟩).2⟩ := by
  have hmany := h.many
  rw [objs_of_lt (by omega), h.file i hi]

/-- The names lead to what the files say, by induction on the names. -/
theorem along_root (hapart : Apart files) (ns : List (List UInt8)) :
    (along (objs D) 1 ns).map (seenOf D) = filesAt files ns := by
  induction ns with
  | nil =>
    rw [along_nil, Option.map_some, seenOf, if_neg (by rw [objs_root, h.type]; decide)]
    rfl
  | cons n ns ih =>
    rw [along_cons, h.binding_root hapart, filesAt]
    split
    case isTrue => exact ih
    case isFalse =>
      rw [List.find?_eq_bind_findIdx?_getElem?, numberOf]
      cases hfind : files.findIdx? fun f => basename f.1.1 = n with
      | none => simp
      | some i =>
        rw [List.findIdx?_eq_some_iff_getElem] at hfind
        obtain ⟨hi, -⟩ := hfind
        simp only [Option.map_some, Option.bind_some, List.getElem?_eq_getElem hi]
        split
        case isTrue hnil =>
          rw [hnil, along_nil, Option.map_some, seenOf, h.content_file hi, if_pos rfl]
          rw [Obj.content, Mem.slice_ofList, List.get_eq_getElem]
        case isFalse hne => rw [h.binding_file (by omega) hne, Option.map_none]

/-- The abort of a directory operation on the image with at most one slot in use. -/
theorem abort_cases {D' : Mem} {J : InodePtr → Inode} {n : ℕ} {e : Abort}
    (hobj : ∀ no < 1920, obj D' no = obj D no) (he : DirAbort D' J n e)
    (hroom : liveCount J + n < 128) : e = .noBlock ∨
      (e = .tooBig ∧ ∃ f ∈ files, MAXFILE ≤ f.2.length) ∨
      (e = .noInode ∧ files.length = 1918) := by
  rcases he with ⟨rfl, -⟩ | ⟨rfl, no, hno, hbig⟩ | ⟨rfl, hall⟩ | ⟨-, hslots⟩
  · exact Or.inl rfl
  · refine Or.inr (Or.inl ⟨rfl, ?_⟩)
    rw [hobj no hno] at hbig
    rcases h.cases_inode no with rfl | ⟨i, hi, rfl, hfile⟩ | hfree
    · have hcount := h.count
      have hmany := h.many
      omega
    · rw [objs_of_lt hno] at hfile
      rw [hfile] at hbig
      exact ⟨_, List.get_mem files ⟨i, hi⟩, hbig⟩
    · rw [objs_of_lt hno] at hfree
      rw [hfree] at hbig
      simp [Obj.free] at hbig
  · refine Or.inr (Or.inr ⟨rfl, ?_⟩)
    have hmany := h.many
    by_contra hne
    exact hall (files.length + 2) (by omega) (by omega)
      (by rw [hobj _ (by omega), h.free _ (by omega) (Or.inr le_rfl)]; rfl)
  · omega

end Mkfs.Formatted

end Names

/-! ### Reading back -/

/-- Why reading back can stop: the disk is full, a file is as long as a file can be, or no inode
is free. -/
def ReadBackAbort (files : List (CString × List UInt8)) (e : Abort) : Prop :=
  e = .noBlock ∨ (e = .tooBig ∧ ∃ f ∈ files, MAXFILE ≤ f.2.length) ∨
    (e = .noInode ∧ files.length = 1918)

section ReadBack

variable {files : List (CString × List UInt8)} {D : Mem} {s : Fs} {no : ℕ} {i : InodePtr}

/-- What is read of an inode that has been opened. -/
theorem readOpened_spec (h : Mkfs.Formatted files D) (hok : s.Ok)
    (hkept : ∀ no < 1920, obj s.disk.bytes no = obj D no) (hi : 0 < (s.inodes i).ref)
    (hno : (s.inodes i).no = no) :
    wp (do
        let type ← itype i
        if type = TYPE_FILE then
          let size ← isize i
          let bs ← iread i 0 size
          pure (some (some bs))
        else pure (some none))
      (fun r _ => r = some (seenOf D no)) (ReadBackAbort files) s := by
  have hlt : no < 1920 := hno ▸ (hok.holds.2.live i hi).1
  have hobj : s.objOf i = objs D no := by rw [Fs.objOf, hno, hkept no hlt, objs_of_lt hlt]
  rw [wp_bind]
  refine (itype_spec hok hi).imp ?_
  intro type s₁ hs₁
  obtain ⟨rfl, rfl⟩ := hs₁
  rw [hobj, seenOf]
  split
  -- a directory is not read
  case isFalse => exact rfl
  case isTrue htype =>
    rw [wp_bind]
    refine (isize_spec hok hi).imp ?_
    intro size s₂ hs₂
    obtain ⟨rfl, rfl⟩ := hs₂
    rw [hobj, wp_bind]
    have hsame : obj s₂.disk.bytes no = objs D no := by rw [hkept no hlt, objs_of_lt hlt]
    refine (iread_spec hok.holds hi hno 0 (objs D no).size).mono ?_ ?_
    · intro bs s₃ hs₃
      obtain ⟨-, -, -, -, rfl, -⟩ := hs₃
      have hfile : fileByte s₂.disk.bytes no = (objs D no).bytes := congrArg Obj.bytes hsame
      rw [wp_pure, hsame, hfile, Nat.sub_zero, min_self, Obj.content]
    · intro e he
      rcases ReadAbort.of_stop he with ⟨rfl, -⟩ | ⟨rfl, hbig⟩
      · exact Or.inl rfl
      -- only a packed file has as many blocks as the read ran out of
      · refine Or.inr (Or.inl ⟨rfl, ?_⟩)
        rcases h.cases_inode no with rfl | ⟨k, hk, rfl, hfile⟩ | hfree
        · rw [objs_root, h.type] at htype
          cases htype
        · rw [hsame, hfile, Nat.sub_zero, min_self, Nat.zero_add] at hbig
          refine ⟨_, List.get_mem files ⟨k, hk⟩, ?_⟩
          have hle : 1036 ≤ (files.get ⟨k, hk⟩).2.length / 4096 := hbig
          rw [MAXFILE]
          omega
        · rw [hfree] at htype
          cases htype

/-- Reading back a path from a disk with the files, when nothing is open. -/
theorem readBack_spec (h : Mkfs.Formatted files s.disk.bytes) (hapart : Mkfs.Apart files)
    (hcache : s.disk.Coherent) (hshut : Shut s.inodes) (path : CString) :
    wp (readBack path.1)
      (fun r _ => r = if path.1 = [] then none else Mkfs.filesAt files (names path.1))
      (ReadBackAbort files) s := by
  rw [readBack, wp_bind]
  refine (init_fs_spec h hcache hshut).imp ?_
  intro _ s₁ hs₁
  obtain ⟨hok₁, hstate₁⟩ := hs₁
  have hbytes₁ : s₁.disk.bytes = s.disk.bytes := congrArg Prod.fst hstate₁
  have hinodes₁ : s₁.inodes = s.inodes := congrArg Prod.snd hstate₁
  -- the root
  rw [wp_bind]
  refine (iopen_root_effects hok₁ none TYPE_NONE).mono ?_ ?_
  · intro c s₂ hs₂
    obtain ⟨j, rfl, hok₂, heff₂, hj, hno, -⟩ := hs₂
    obtain ⟨hopened, -⟩ := Lts.Run.of_single heff₂
    have hkept₂ (no : ℕ) (hlt : no < 1920) : obj s₂.disk.bytes no = obj s.disk.bytes no := by
      rw [← hbytes₁]
      exact ((Effects.opened_obj heff₂).2 no hlt).obj
    have hobjs₂ : objs s₂.disk.bytes = objs s.disk.bytes := objs_congr hkept₂
    -- the root is the only inode that is open, so a slot is left for the path
    have hlive : liveCount s₂.inodes ≤ 1 := by
      cases hopened with
      | opened _ _ ho _ =>
        have hle := ho.liveCount_le
        have hnone : liveCount s₁.state.2 = 0 := by
          rw [liveCount, Finset.card_eq_zero, Finset.filter_eq_empty_iff]
          intro k _
          change ¬ 0 < (s₁.inodes k).ref
          rw [hinodes₁]
          exact hshut.not_live k
        change liveCount s₂.inodes ≤ liveCount s₁.state.2 + 1 at hle
        omega
    -- the path
    rw [wp_bind]
    refine (iopen_effects hok₂ hj hno path.2 fun hne => (hne rfl).elim).mono ?_ ?_
    · intro r s₃ hs₃
      obtain ⟨hok₃, q, evs, rfl, heff₃, hopen, hslot⟩ := hs₃
      have hlookup : lookup (objs s.disk.bytes) 1 path.1 =
          if path.1 = [] then none else along (objs s.disk.bytes) 1 (names path.1) := by
        rw [lookup, start, ite_self]
      have hfiles := h.along_root hapart (names path.1)
      rcases hopen.of_none with ⟨rfl, -, hres⟩ | ⟨k, no, rfl, rfl, hres⟩
      -- the path leads nowhere
      · rw [resolve_lookup, hobjs₂, hlookup] at hres
        simp only [Option.map_none]
        rw [wp_pure]
        split at hres
        case isTrue hnil => rw [if_pos hnil]
        case isFalse hne => rw [if_neg hne, ← hfiles, hres, Option.map_none]
      -- it leads to an inode, and the objects are still those of the image
      · rw [resolve_lookup, hobjs₂, hlookup] at hres
        split at hres
        case isTrue => cases hres
        case isFalse hne =>
          rw [if_neg hne, ← hfiles, hres, Option.map_some]
          obtain ⟨hk, hkno⟩ := hslot k no rfl
          refine readOpened_spec h hok₃ (fun no' hlt => ?_) hk hkno
          rw [← hkept₂ no' hlt]
          exact ((Effects.opened_obj heff₃).2 no' hlt).obj
    · intro e he
      exact h.abort_cases hkept₂ he (by omega)
  · intro e he
    -- all slots would be in use before anything is open
    obtain ⟨-, hfull⟩ := he
    have hpos := hfull 0
    rw [hinodes₁, hshut 0] at hpos
    exact (lt_irrefl _ hpos).elim

end ReadBack

end Oslab
