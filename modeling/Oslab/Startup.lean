/-
# Starting the kernel

`main` finds the image in order, opens the root as the directory of the first two
processes, makes `/dev` with its two devices and loads the shell. Then the tables
are in order, and they stay in order in every run.
-/
import Oslab.Image
import Oslab.Steps

namespace Oslab

open Lib Lib.Prog

variable {s s' : Kernel} {files : List (CString × List UInt8)} {D : Mem} {image : Mem → Prop}

/-! ### The file system -/

theorem init_fs_spec {fs : Fs} {fail : Abort → Prop} (h : Mkfs.Formatted files fs.disk.bytes)
    (hcache : fs.disk.Coherent) (hI : Shut fs.inodes) :
    wp init_fs (fun _ fs' => fs'.Ok ∧ fs'.state = fs.state) fail fs := by
  have hword (i : ℕ) (hi : i < 4) : (Mem.ofList (fs.disk.bytes.slice (4096 * SUPER_BLOCK + 0) 16)).word
      (4 * i) = fs.disk.bytes.word (131072 + 4 * i) := Mem.word_ofList_slice (by omega)
  obtain ⟨h0, h1, h2, h3⟩ := h.super
  rw [init_fs, wp_bind]
  refine onDisk_spec (Disk.bread_spec hcache (by norm_num)) ?_
  intro bs d hd
  obtain ⟨hcache', hbytes, rfl⟩ := hd
  rw [wp_update]
  have hsame : (d.bytes, fs.inodes) = fs.state := by rw [hbytes, Fs.state]
  refine ⟨⟨⟨⟨hcache', rfl, ?_, rfl⟩, ?_⟩, ?_⟩, hsame⟩
  · simp only [hword _ (show 0 < 4 by norm_num), hword _ (show 1 < 4 by norm_num),
      hword _ (show 2 < 4 by norm_num), hword _ (show 3 < 4 by norm_num)]
    rw [h0, h1, h2, h3]
    rfl
  · rw [hbytes]
    exact h.fsInv hI
  · rw [hbytes]
    exact h.inv hI

/-- The tables when nothing is open. -/
theorem tables_zero {fs : Fs} (hfs : fs.Ok) (hI : Shut fs.inodes) (hs : s.fs = fs)
    (hfiles : ∀ k, (s.files k).ref = 0) (husems : ∀ u, (s.user_sem u).ref = 0)
    (hheld : ∀ p, (s.pcb p).held = .nothing) : s.Tables := by
  have hfd (x : ProcPtr × Fin MAX_UFILE) : fdTable s.pcb x = none :=
    congrFun (congrArg Held.files (hheld x.1)) x.2
  have husem (x : ProcPtr × Fin MAX_USEM) : usemTable s.pcb x = none :=
    congrFun (congrArg Held.usems (hheld x.1)) x.2
  have hcwd (p : ProcPtr) : cwdTable s.pcb p = none := congrArg Held.cwd (hheld p)
  have hopen (k : FilePtr) : openTable s.files k = none := by
    rw [openTable, File.holds, hfiles k, if_neg (by simp)]
  refine ⟨hs ▸ hfs, fun k => ?_, fun u => ?_, fun j => ?_, fun k hk => ?_, fun p j hp => ?_⟩
  · rw [hfiles k, funext hfd, refs_none]
  · rw [husems u, funext husem, refs_none]
  · rw [hs, hI j, funext hopen, funext hcwd, refs_none, refs_none]
    rfl
  · rw [hfiles k] at hk
    exact (lt_irrefl _ hk).elim
  · rw [show (s.pcb p).cwd = none from hcwd p] at hp
    cases hp

/-- The root is opened. -/
theorem iopen_root_effects {fs : Fs} (h : fs.Ok) (cwd : Option InodePtr) (type : UInt32) :
    wp (iopen cwd [SLASH] type) (fun r fs' => ∃ j, r = some j ∧ fs'.Ok ∧
      Effects fs.state [.opened j 1] fs'.state ∧ 0 < (fs'.inodes j).ref ∧
      (fs'.inodes j).no = 1 ∧ fs'.disk.bytes = fs.disk.bytes)
      (fun e => e = .noSlot ∧ ∀ j, 0 < (fs.inodes j).ref) fs := by
  have hskip : skipelem [SLASH] = none := by decide
  have hhead : [SLASH].head? = some SLASH := rfl
  have hsb : fs.sb.root = 1 := by
    rw [h.holds.1.sb]
    rfl
  rw [iopen, if_pos hskip, if_pos hhead, wp_bind, wp_read, wp_map, hsb]
  refine (iget_spec h.holds (by norm_num)).imp ?_
  intro j fs' hj
  obtain ⟨I', hh, ho⟩ := hj
  obtain ⟨hok, heff⟩ := h.effects hh (Effects.single
    (.opened le_rfl (by norm_num) ho fun no _ => .refl _ no) hh.2)
  refine ⟨j, rfl, hok, heff, ?_⟩
  rw [hh.1.inodes]
  exact ⟨ho.pos (h.holds.2.ref j), ho.ino, hh.1.bytes⟩

theorem Fs.Ok.type_root {fs : Fs} {j : InodePtr} (h : fs.Ok) (hno : (fs.inodes j).no = 1) :
    (fs.objOf j).type = TYPE_DIR := by
  rw [Fs.objOf, hno, ← objs_root]
  exact h.inv.root

/-! ### Only the root names directories -/

/-- Directories are named in the root only. -/
def Ns.Flat (s : Ns) : Prop := ∀ x e t, s.Named x e t → s.Dir t → x = 1

theorem Ns.Step.flat {s s' : Ns} {ev : NsEvent} (h : s.Inv) (hf : s.Flat) (hstep : Ns.Step s ev s')
    (hroot : ∀ d name no, ev = .create d name TYPE_DIR no → d = 1) : s'.Flat := by
  intro x e t hn hd
  rcases hstep.of_up h hd with ⟨hold, -⟩ | ⟨y, name, rfl, -, -⟩
  · rcases hstep.of_named h hn with hnamed | ⟨name, type, rfl⟩
    · exact hf x e t hnamed hold
    · cases hstep with
      | create _ _ _ hfree =>
        rw [Ns.Dir, hfree] at hold
        cases hold
  · rcases hstep.of_named h hn with hnamed | ⟨name', type, hev⟩
    · have hused := (h.named x e t hnamed).2.1
      cases hstep with
      | create _ _ _ hfree => exact (hused hfree).elim
    · cases hev
      exact hroot x name t rfl

/-- A path of two names does not lead to a directory. -/
theorem Ns.Flat.leaf {s : Ns} {path rest dir name : List UInt8} {cwd no : ℕ} (h : s.Inv) (hf : s.Flat)
    (hhead : path.head? = some SLASH) (hskip : skipelem path = some (rest, dir)) (hrest : rest ≠ [])
    (hlast : skipelem rest = some ([], name)) (hdir : dir ≠ DOT ∧ dir ≠ DOTDOT)
    (hname : name ≠ DOT ∧ name ≠ DOTDOT) (hres : resolve s.objs cwd path = some no) :
    ¬ s.Dir no := by
  obtain ⟨n, hn⟩ : ∃ n, path.length = n + 1 := by
    cases path with
    | nil => cases hhead
    | cons c path => exact ⟨path.length, rfl⟩
  have hroot : (s.objs 1).type = TYPE_DIR := h.root
  intro hd
  rw [resolve, if_neg (by rw [hskip]; simp), resolveParent, if_pos hhead, hn, walk, hskip] at hres
  simp only [hroot, ne_eq, not_true_eq_false, if_false, hrest] at hres
  cases hfind : (s.objs 1).find dir with
  | none =>
    rw [hfind] at hres
    cases hres
  | some e =>
    have hsub := h.named_of_find h.root hfind hdir.1 hdir.2
    rw [hfind] at hres
    simp only [walk, hlast] at hres
    by_cases hx : (s.objs ((s.objs 1).target e)).type = TYPE_DIR
    · simp only [hx, ne_eq, not_true_eq_false, if_false, if_true] at hres
      rw [Option.map_eq_some_iff] at hres
      obtain ⟨e', hfind', rfl⟩ := hres
      have hleaf := h.named_of_find hx hfind' hname.1 hname.2
      -- the directory on the way is not the root
      exact (h.named 1 e _ hsub).1 (hf _ e' _ hleaf hd)
    · simp only [hx, ne_eq, not_false_eq_true, if_true] at hres
      cases hres

/-- What happens while the kernel starts: nothing is unlinked, and directories are made in
the root only. -/
def FsEvent.Starts (ev : FsEvent) : Prop :=
  (∀ d e t k, ev ≠ .unlinked d e t k) ∧ ∀ d name j no, ev = .created d name TYPE_DIR j no → d = 1

theorem Effects.flat {st st' : FsState} {evs : List FsEvent} (h : Effects st evs st')
    (hevs : ∀ ev ∈ evs, ev.Starts) (hinv : FsInv st.1 st.2) (hns : st.ns.Inv) (hf : st.ns.Flat) :
    st'.ns.Flat := by
  refine h.keep Ns.Flat hinv hns hf fun ev hev s e s' he hs hf hstep => ?_
  refine hstep.flat hs hf fun d name no hcreate => ?_
  subst hcreate
  cases ev with
  | created d' name' type j no' =>
    rw [FsEvent.toNs, Option.some.injEq, NsEvent.create.injEq] at he
    obtain ⟨rfl, -, rfl, -⟩ := he
    exact (hevs _ hev).2 _ _ _ _ rfl
  | grow | opened | closed | wrote | unlinked => cases he

/-! ### Devices -/

/-- A device is made, or its number is written again. -/
theorem iadddev_effects {fs : Fs} {c : InodePtr} {cwd : ℕ} {path : List UInt8} (h : fs.Ok)
    (hc : 0 < (fs.inodes c).ref) (hcwd : (fs.inodes c).no = cwd) (h0 : (0 : UInt8) ∉ path)
    (hlive : ∀ j, 0 < (fs.inodes j).ref → (fs.objOf j).type ≠ TYPE_NONE)
    (hleaf : ∀ no, resolve (objs fs.disk.bytes) cwd path = some no →
      (objs fs.disk.bytes no).type ≠ TYPE_DIR) (id : ℕ) :
    wp (iadddev (some c) path id) (fun _ fs' => fs'.Ok ∧ ∃ j no ev,
      Effects fs.state [ev, .wrote no, .closed j no] fs'.state ∧
      (ev = .opened j no ∨ ∃ d name, ev = .created d name TYPE_DEV j no)) (fun _ => True) fs := by
  rw [iadddev, wp_bind]
  refine (iopen_effects h hc hcwd h0 fun _ => hlive).mono ?_ fun _ _ => trivial
  intro r fs₁ hr
  obtain ⟨hok₁, q, evs, rfl, heff, hopen, hslot⟩ := hr
  cases q with
  | none => exact trivial
  | some jn =>
    obtain ⟨j, no⟩ := jn
    obtain ⟨href, hno⟩ := hslot j no rfl
    -- what was opened is no directory
    obtain ⟨ev, hev, hkind, htype⟩ : ∃ ev, evs = [ev] ∧
        (ev = .opened j no ∨ ∃ d name, ev = .created d name TYPE_DEV j no) ∧
        (obj fs₁.disk.bytes no).type ≠ TYPE_DIR := by
      cases hopen with
      | found hres =>
        refine ⟨_, rfl, Or.inl rfl, ?_⟩
        obtain ⟨hlt, hkept⟩ := Effects.opened_obj heff
        have hsame : obj fs₁.disk.bytes no = obj fs.disk.bytes no := (hkept no hlt).obj
        rw [hsame, ← objs_of_lt hlt]
        exact hleaf no hres
      | created =>
        refine ⟨_, rfl, Or.inr ⟨_, _, rfl⟩, ?_⟩
        obtain ⟨heff, -⟩ := Lts.Run.of_single heff
        cases heff with
        | created _ _ _ _ _ hcr =>
          rw [hcr.child.type_eq]
          decide
    subst hev
    have hlt : no < 1920 := hno ▸ (hok₁.holds.2.live j href).1
    have hfree := hok₁.holds.2.free no hlt
    have hsize := hok₁.holds.2.size no hlt
    simp only [Option.map_some]
    rw [← bind_assoc, wp_bind]
    refine (writeBack_spec hok₁.holds href hno (fun d => { d with device := UInt32.ofNat id }) rfl
      hsize hfree).imp ?_
    intro _ fs₂ hfs₂
    obtain ⟨D', I', hh, ht, -, hobj⟩ := hfs₂
    obtain ⟨hok₂, heff₂⟩ := hok₁.effects hh (Effects.single (.wrote href hno htype ht
      (by rw [hobj]; rfl)) hh.2)
    have href₂ : 0 < (fs₂.inodes j).ref := by
      rw [hh.1.inodes]
      exact ht.slots.live.mpr href
    have hno₂ : (fs₂.inodes j).no = no := by
      rw [hh.1.inodes]
      exact (ht.slots.no_eq href).trans hno
    refine (iclose_effects hok₂ href₂ hno₂).imp ?_
    intro _ fs₃ hfs₃
    obtain ⟨hok₃, heff₃⟩ := hfs₃
    exact ⟨hok₃, j, no, ev, (heff.trans heff₂).trans heff₃, hkind⟩

/-! ### The first process -/

/-- While the kernel starts, only the first process refers to anything, and what has happened
since `st` makes no directory but in the root. -/
structure Kernel.Starting (st : FsState) (s : Kernel) : Prop where
  tables : s.Tables
  curr : s.curr = 0
  cwd : ∃ c, (s.pcb 0).cwd = some c
  run : (s.pcb 0).status = .running
  others : ∀ p ≠ 0, (s.pcb p).held = .nothing
  files : ∀ p, (s.pcb p).files = fun _ => none
  effects : ∃ evs, Effects st evs s.fs.state ∧ ∀ ev ∈ evs, ev.Starts

section Starting

variable {st : FsState}

/-- A plain effect is one of starting. -/
theorem FsEvent.Starts.of_plain {ev : FsEvent} (h : ev.plain = true) : ev.Starts := by
  constructor
  · intro d e t k hev
    rw [hev] at h
    cases h
  · intro d name j no hev
    rw [hev] at h
    cases h

/-- The tables before `main`, with the file system found. -/
theorem init_proc_starting {fs : Fs} {disk junk : Mem} (hfs : fs.Ok) (hI : Shut fs.inodes)
    (hs : s = Kernel.zero disk junk) :
    wp init_proc (fun _ s' => s'.Starting fs.state) (fun _ => True) { s with fs := fs } := by
  obtain ⟨s₀, hs₀⟩ : ∃ s₀ : Kernel, s₀ = { s with fs := fs } := ⟨_, rfl⟩
  have hheld (p : ProcPtr) : (s₀.pcb p).held = .nothing := by
    rw [hs₀, hs]
    rfl
  have htables : s₀.Tables := tables_zero hfs hI (by rw [hs₀]) (by intro k; rw [hs₀, hs]; rfl)
    (by intro u; rw [hs₀, hs]; rfl) hheld
  rw [← hs₀, init_proc, wp_bind]
  refine modProc_links 0 _ (fun _ => rfl) fun s₁ hlinks hcurr hpcb => ?_
  have htables₁ := htables.congr hlinks
  have hfs₁ : s₁.fs = fs := (congrArg Links.fs hlinks).trans (congrArg Kernel.fs hs₀)
  have hheld₁ (p : ProcPtr) : (s₁.pcb p).held = .nothing :=
    (congrFun (congrArg Links.held hlinks) p).trans (hheld p)
  have hrun₁ : (s₁.pcb 0).status = .running := by rw [hpcb, Function.update_self]
  have hcurr₁ : s₁.curr = 0 := hcurr.trans (by rw [hs₀, hs]; rfl)
  rw [wp_bind, wp_inFs]
  refine (iopen_root_effects htables₁.fs none TYPE_NONE).mono ?_ fun _ _ => trivial
  intro r fs₂ hr
  obtain ⟨j, rfl, hok, heff, -, hno, -⟩ := hr
  rw [wp_bind, proc_curr, wp_read, modProc, wp_update]
  have hcwd : (s₁.pcb s₁.curr).cwd = none := congrArg Held.cwd (hheld₁ s₁.curr)
  have hnext := htables₁.setCwd (v := some j) (p := s₁.curr) hok heff
    (Kernel.Tables.Tidy.opens (by simp [FsEvent.closes])) (fun i => ?_) (fun i hi => ?_) rfl
  · refine ⟨hnext, hcurr₁, ⟨j, ?_⟩, ?_, fun p hp => ?_, fun p => ?_, _, hfs₁ ▸ heff, ?_⟩
    · simp only [hcurr₁, Function.update_self]
    · simp only [hcurr₁, Function.update_self]
      exact hrun₁
    · simp only [hcurr₁, Function.update_of_ne hp]
      exact hheld₁ p
    · have hnone (q : ProcPtr) : (s₁.pcb q).files = fun _ => none := congrArg Held.files (hheld₁ q)
      by_cases hp : p = s₁.curr
      · subst hp
        simp only [Function.update_self]
        exact hnone s₁.curr
      · simp only [Function.update_of_ne hp]
        exact hnone p
    · simpa using FsEvent.Starts.of_plain rfl
  · rw [hcwd]
    simp [FsEvent.refs]
  · cases hi
    exact hok.type_root hno

/-- Only the file system changes, and no reference to it. -/
theorem Kernel.Starting.onlyFs {fs : Fs} {evs : List FsEvent} (h : s.Starting st) (hok : fs.Ok)
    (heff : Effects s.fs.state evs fs.state) (htidy : Tidy evs)
    (hrefs : ∀ j, (evs.map (FsEvent.refs j)).sum = 0) (hevs : ∀ ev ∈ evs, ev.Starts) :
    { s with fs := fs }.Starting st := by
  obtain ⟨evs₀, heff₀, hevs₀⟩ := h.effects
  refine ⟨h.tables.onlyFs hok heff htidy hrefs, h.curr, h.cwd, h.run, h.others, h.files, _,
    heff₀.trans heff, fun ev hev => ?_⟩
  rcases List.mem_append.mp hev with hold | hnew
  · exact hevs₀ ev hold
  · exact hevs ev hnew

/-- A slot opened once and closed once. -/
theorem refs_pair (j : InodePtr) (no no' : ℕ) (i : InodePtr) :
    FsEvent.refs i (.opened j no) + FsEvent.refs i (.closed j no') = 0 := by
  simp only [FsEvent.refs]
  split <;> rfl

/-- One device. -/
theorem iadddev_starting {path rest dir name : List UInt8} (h : s.Starting st)
    (hst : FsInv st.1 st.2) (hns : st.ns.Inv) (hf : st.ns.Flat) (h0 : (0 : UInt8) ∉ path)
    (hhead : path.head? = some SLASH) (hskip : skipelem path = some (rest, dir)) (hrest : rest ≠ [])
    (hlast : skipelem rest = some ([], name)) (hdir : dir ≠ DOT ∧ dir ≠ DOTDOT)
    (hname : name ≠ DOT ∧ name ≠ DOTDOT) (id : ℕ) :
    wp (inFs (iadddev (s.pcb s.curr).cwd path id))
      (fun _ s' => s'.Starting st ∧ s'.pcb = s.pcb ∧ s'.curr = s.curr) (fun _ => True) s := by
  obtain ⟨c, hc⟩ := h.cwd
  obtain ⟨evs, heffs, hevs⟩ := h.effects
  have hflat : s.fs.state.ns.Flat := Effects.flat heffs hevs hst hns hf
  rw [h.curr, hc, wp_inFs]
  refine (iadddev_effects h.tables.fs (h.tables.ref_of_cwd hc) rfl h0
    (fun j hj => h.tables.type_ne_none hj) (fun no hno => ?_) id).imp ?_
  · exact hflat.leaf h.tables.fs.inv hhead hskip hrest hlast hdir hname hno
  · intro _ fs hfs
    obtain ⟨hok, j, no, ev, heff, hev⟩ := hfs
    refine ⟨h.onlyFs hok heff ?_ (fun i => ?_) fun ev' hev' => ?_, rfl, h.curr.symm ▸ rfl⟩
    · refine ⟨[ev, .wrote no], [.closed j no], rfl, ?_, by simp [FsEvent.opens]⟩
      rcases hev with rfl | ⟨d, name, rfl⟩ <;> simp [FsEvent.closes]
    · rcases hev with rfl | ⟨d, name, rfl⟩ <;>
        simpa [FsEvent.refs] using refs_pair j no no i
    · simp only [List.mem_cons, List.not_mem_nil, or_false] at hev'
      rcases hev' with rfl | rfl | rfl
      · rcases hev with rfl | ⟨d, name, rfl⟩
        · exact .of_plain rfl
        · refine ⟨by simp, fun d' name' j' no' heq => ?_⟩
          rw [FsEvent.created.injEq] at heq
          exact absurd heq.2.2.1 (by decide)
      · exact .of_plain rfl
      · exact .of_plain rfl

/-- The directory `/dev` is made in the root. -/
theorem parent_dev {objs : ℕ → Obj} {cwd d : ℕ} {name : List UInt8}
    (h : resolveParent objs cwd DEV = some (d, name)) : d = 1 := by
  have hskip : skipelem DEV = some ([], [100, 101, 118]) := by decide
  have hhead : DEV.head? = some SLASH := rfl
  rw [resolveParent, if_pos hhead, walk, hskip] at h
  by_cases hdir : (objs 1).type = TYPE_DIR
  · simp only [hdir, ne_eq, not_true_eq_false, if_false, if_true] at h
    cases h
    rfl
  · simp only [hdir, ne_eq, not_false_eq_true, if_true] at h
    cases h

theorem init_dev_starting (h : s.Starting st) (hst : FsInv st.1 st.2) (hns : st.ns.Inv)
    (hf : st.ns.Flat) : wp init_dev (fun _ s' => s'.Starting st) (fun _ => True) s := by
  obtain ⟨c, hc⟩ := h.cwd
  rw [← h.curr] at hc
  rw [init_dev, wp_bind, kopen, wp_bind, proc_curr, wp_read, wp_bind, wp_getProc, wp_inFs, hc]
  refine (iopen_effects h.tables.fs (h.tables.ref_of_cwd hc) rfl (by decide) fun _ j hj =>
    h.tables.type_ne_none hj).mono ?_ fun _ _ => trivial
  intro r fs hr
  obtain ⟨hok, q, evs, rfl, heff, hopen, hslot⟩ := hr
  rw [wp_bind]
  cases q with
  | none => exact trivial
  | some jn =>
    obtain ⟨j, no⟩ := jn
    obtain ⟨href, hno⟩ := hslot j no rfl
    simp only [Option.map_some, deref]
    rw [wp_pure, wp_bind, wp_inFs]
    refine (iclose_effects hok href hno).imp ?_
    intro _ fs₁ hfs₁
    obtain ⟨hok₁, heff₁⟩ := hfs₁
    have hs₁ : { s with fs := fs₁ }.Starting st := by
      refine h.onlyFs hok₁ (heff.trans heff₁) (hopen.tidy (by simp [FsEvent.opens])) (fun i => ?_)
        fun ev hev => ?_
      · cases hopen with
        | found => simpa using refs_pair j no no i
        | created => simpa [FsEvent.refs] using refs_pair j no no i
      · cases hopen with
        | found =>
          simp only [List.cons_append, List.nil_append, List.mem_cons, List.not_mem_nil,
            or_false] at hev
          rcases hev with rfl | rfl <;> exact .of_plain rfl
        | @created _ _ d name _ _ hparent =>
          simp only [List.cons_append, List.nil_append, List.mem_cons, List.not_mem_nil,
            or_false] at hev
          rcases hev with rfl | rfl
          · refine ⟨by simp, fun d' name' j' no' heq => ?_⟩
            rw [FsEvent.created.injEq] at heq
            exact heq.1 ▸ parent_dev hparent
          · exact .of_plain rfl
    rw [wp_bind, wp_read, wp_bind, wp_getProc, wp_bind]
    refine (iadddev_starting hs₁ hst hns hf (by decide) rfl
      (show skipelem DEV_SERIAL = some ([115, 101, 114, 105, 97, 108], [100, 101, 118]) by decide)
      (by decide) (show skipelem _ = some ([], [115, 101, 114, 105, 97, 108]) by decide) (by decide)
      (by decide) 0).imp ?_
    intro _ s₂ hs₂
    obtain ⟨hs₂, hpcb, hcurr⟩ := hs₂
    have hcurr₂ : s₂.curr = s.curr := hcurr
    rw [wp_bind, wp_getProc]
    change wp (inFs (iadddev (s₂.pcb s.curr).cwd DEV_NULL 1)) _ _ s₂
    rw [← hcurr₂]
    refine (iadddev_starting hs₂ hst hns hf (by decide) rfl
      (show skipelem DEV_NULL = some ([110, 117, 108, 108], [100, 101, 118]) by decide)
      (by decide) (show skipelem _ = some ([], [110, 117, 108, 108]) by decide) (by decide)
      (by decide) 1).imp ?_
    intro _ s₃ hs₃
    exact hs₃.1

/-! ### The shell -/

/-- Loading makes nothing. -/
theorem Loading.starts {evs : List FsEvent} (h : Loading evs) : ∀ ev ∈ evs, ev.Starts := by
  intro ev hev
  rcases h with rfl | ⟨j, no, n, rfl⟩
  · rw [List.mem_singleton] at hev
    exact hev ▸ .of_plain rfl
  · simp only [List.cons_append, List.mem_cons, List.mem_append, List.mem_replicate,
      List.not_mem_nil, or_false] at hev
    rcases hev with rfl | ⟨-, rfl⟩ | rfl <;> exact .of_plain rfl

/-- The second process is ready in its slot, and has the root as its directory. -/
structure Kernel.Ready (st : FsState) (p : ProcPtr) (s : Kernel) : Prop where
  tables : s.Tables
  ready : (s.pcb p).status = .ready
  cwd : ∀ q, q = 0 ∨ q = p → ∃ c, (s.pcb q).cwd = some c
  others : ∀ q, q ≠ 0 → q ≠ p → (s.pcb q).held = .nothing
  files : ∀ q, (s.pcb q).files = fun _ => none
  effects : ∃ evs, Effects st evs s.fs.state ∧ ∀ ev ∈ evs, ev.Starts

theorem init_user_and_go_ready (h : s.Starting st) (hidle : s.Idle) :
    wp init_user_and_go (fun _ s' => ∃ p, s'.Ready st p) (fun _ => True) s := by
  rw [init_user_and_go, wp_bind]
  refine (proc_alloc_links hidle).mono ?_ fun _ _ => trivial
  intro r s₁ hs₁
  obtain ⟨hlinks, hcurr, -, hr⟩ := hs₁
  cases r with
  | none => exact trivial
  | some p =>
    obtain ⟨hunused, hnothing⟩ := hr p rfl
    have hp : p ≠ 0 := by
      rintro rfl
      rw [h.run] at hunused
      cases hunused
    have hheld (q : ProcPtr) : (s₁.pcb q).held = (s.pcb q).held :=
      congrFun (congrArg Links.held hlinks) q
    have hfs : s₁.fs = s.fs := congrArg Links.fs hlinks
    have htables₁ := h.tables.congr hlinks
    have hcurr₁ : s₁.curr = 0 := hcurr.trans h.curr
    obtain ⟨c, hc⟩ := h.cwd
    have hc₁ : (s₁.pcb s₁.curr).cwd = some c := by
      rw [hcurr₁]
      exact (congrArg Held.cwd (hheld 0)).trans hc
    simp only
    rw [wp_bind]
    refine (sys_exec_tables htables₁ hc₁ (by decide)).imp ?_
    intro loaded s₂ hs₂
    obtain ⟨htables₂, fs₂, evs, rfl, heff, hload⟩ := hs₂
    rw [wp_bind, wp_assert]
    refine ⟨fun _ => ?_, fun _ => trivial⟩
    rw [wp_bind, kopen, wp_bind, proc_curr, wp_read, wp_bind, wp_getProc, wp_inFs]
    refine (iopen_root_effects htables₂.fs _ TYPE_NONE).mono ?_ fun _ _ => trivial
    intro r fs₃ hr
    obtain ⟨j, rfl, hok, heff₃, -, hno, -⟩ := hr
    rw [wp_bind, modProc, wp_update, proc_addready]
    have hnone : (s₁.pcb p).cwd = none := congrArg Held.cwd hnothing
    -- the slot that is opened is the directory of the new process
    have hnext := htables₂.setCwd (v := some j) (p := p) hok heff₃
      (Kernel.Tables.Tidy.opens (by simp [FsEvent.closes])) (fun i => by
        simp only [hnone]
        simp [FsEvent.refs]) (fun i hi => by
        cases hi
        exact hok.type_root hno) rfl
    refine modProc_links p _ (fun _ => rfl) fun s₄ hlinks₄ _ hpcb₄ => ?_
    have hheld₄ (q : ProcPtr) : (s₄.pcb q).held =
        (Function.update s₁.pcb p { s₁.pcb p with cwd := some j } q).held :=
      congrFun (congrArg Links.held hlinks₄) q
    have hfs₄ : s₄.fs = fs₃ := congrArg Links.fs hlinks₄
    obtain ⟨evs₀, heff₀, hevs₀⟩ := h.effects
    refine ⟨p, hnext.congr hlinks₄, ?_, fun q hq => ?_, fun q hq hqp => ?_, fun q => ?_, _,
      (heff₀.trans (hfs ▸ heff)).trans (hfs₄ ▸ heff₃), fun ev hev => ?_⟩
    · rw [hpcb₄, Function.update_self]
    · by_cases hqp : q = p
      · rw [hqp]
        refine ⟨j, (congrArg Held.cwd (hheld₄ p)).trans ?_⟩
        rw [Function.update_self]
        rfl
      · obtain rfl := hq.resolve_right hqp
        refine ⟨c, (congrArg Held.cwd (hheld₄ 0)).trans ?_⟩
        rw [Function.update_of_ne hqp, ← hcurr₁]
        exact hc₁
    · rw [hheld₄, Function.update_of_ne hqp, hheld]
      exact h.others q hq
    · have hfiles (q : ProcPtr) : (s₁.pcb q).files = fun _ => none :=
        (congrArg Held.files (hheld q)).trans (h.files q)
      refine (congrArg Held.files (hheld₄ q)).trans ?_
      by_cases hqp : q = p
      · subst hqp
        rw [Function.update_self]
        exact hfiles q
      · rw [Function.update_of_ne hqp]
        exact hfiles q
    · simp only [List.mem_append, List.mem_singleton] at hev
      rcases hev with (hev | hev) | rfl
      · exact hevs₀ ev hev
      · exact hload.starts ev hev
      · exact .of_plain rfl

end Starting

/-! ### The whole start -/

/-- What the kernel does to the image until the shell is ready. -/
theorem main_ready {junk : Mem} (hD : Mkfs.Formatted files D) (hs : s = Kernel.zero D junk) :
    wp main (fun _ s' => ∃ p, s'.Ready s.fs.state p) (fun _ => True) s := by
  have hbytes : s.fs.disk.bytes = D := by rw [hs]; rfl
  have hcache : s.fs.disk.Coherent := by
    intro i _ hvalid
    rw [hs] at hvalid
    cases hvalid
  have hshut : Shut s.fs.inodes := by
    intro j
    rw [hs]
    rfl
  rw [main, wp_bind, wp_inFs]
  refine (init_fs_spec (hbytes ▸ hD) hcache hshut).imp ?_
  intro _ fs hfs
  obtain ⟨hok, hstate⟩ := hfs
  have hI : fs.inodes = s.fs.inodes := congrArg Prod.snd hstate
  have hflat : fs.state.ns.Flat := by
    intro x e t hn _
    rw [hstate] at hn
    have hn' : (ns s.fs.disk.bytes s.fs.inodes).Named x e t := hn
    rw [hbytes] at hn'
    exact (hD.named_iff.mp hn').1
  rw [wp_bind, ← hstate]
  refine (init_proc_starting hok (hI ▸ hshut) hs).imp ?_
  intro _ s₁ hs₁
  rw [wp_bind]
  refine (init_dev_starting hs₁ hok.holds.2 hok.inv hflat).imp ?_
  intro _ s₂ hs₂
  refine init_user_and_go_ready hs₂ fun p hp => hs₂.others p ?_
  rintro rfl
  rw [hs₂.run] at hp
  rcases hp with hp | hp <;> cases hp

/-- **The kernel starts in order** on an image of `mkfs`. -/
theorem Boots.inOrder (hD : Mkfs.Formatted files D) (h : Boots D s) : s.InOrder ∧ ∃ st evs,
    st.1 = D ∧ Shut st.2 ∧ Effects st evs s.fs.state ∧ ∀ ev ∈ evs, ev.Starts := by
  obtain ⟨p₀, hp₀, hcore⟩ := boots_core h
  obtain ⟨junk, hok⟩ := h
  generalize hs₀ : Kernel.zero D junk = s₀ at hok
  have hshut : Shut s₀.fs.inodes := by
    intro j
    rw [← hs₀]
    rfl
  have hbytes : s₀.fs.disk.bytes = D := by rw [← hs₀]; rfl
  obtain ⟨p, hready⟩ := (main_ready hD hs₀.symm).of_ok hok
  have hstatus (q : ProcPtr) : (s.core.thread q).status =
      if q = 0 then .running else if q = p₀ then .ready else .unused := by
    rw [hcore, started_thread hp₀]
  have hlive (q : ProcPtr) : s.core.Live q ↔ q = 0 ∨ q = p₀ := by
    rw [Core.Live, hstatus]
    by_cases hq : q = 0
    · simp [hq]
    · by_cases hqp : q = p₀
      · simp [hqp, hp₀]
      · simp [hq, hqp]
  obtain rfl : p = p₀ := by
    have hp : (s.core.thread p).status = .ready := hready.ready
    rw [hstatus] at hp
    by_cases h0 : p = 0
    · rw [if_pos h0] at hp
      cases hp
    · by_contra hne
      rw [if_neg h0, if_neg hne] at hp
      cases hp
  refine ⟨⟨hready.tables, fun q hq => hready.cwd q ((hlive q).mp hq), fun q hq => ?_⟩, ?_⟩
  · rw [hlive, not_or] at hq
    exact hready.others q hq.1 hq.2
  · obtain ⟨evs, heff, hevs⟩ := hready.effects
    exact ⟨_, evs, hbytes, hshut, heff, hevs⟩

/-- No file is open when the kernel has started. -/
theorem Boots.noFiles (hD : Mkfs.Formatted files D) (h : Boots D s) (p : ProcPtr) :
    (s.pcb p).files = fun _ => none := by
  obtain ⟨junk, hok⟩ := h
  generalize hs₀ : Kernel.zero D junk = s₀ at hok
  obtain ⟨q, hready⟩ := (main_ready hD hs₀.symm).of_ok hok
  exact hready.files p

end Oslab
