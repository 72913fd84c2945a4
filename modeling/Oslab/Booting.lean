/-
# An image that boots

While there is room on the disk for what the kernel makes when it starts, and the shell is a
program without segments, nothing stops the kernel from starting. There is an image like that,
so there are states that the machine reaches, steps between them, and processes that make calls.
-/
import Oslab.Pwd
import Oslab.ReadBack
import Oslab.Scheduler
import Oslab.Sharing

namespace Oslab

open Lib Lib.Prog

/-! ### Room -/

/-- There is room for `k` more objects and their entries. -/
structure Roomy (D : Mem) (k : ℕ) : Prop where
  few : k ≤ 64
  small : Small D
  size : ∀ no < 1920, (obj D no).size ≤ 4096
  dirs : ∀ no < 1920, (obj D no).type = TYPE_DIR → (obj D no).size + 32 * k + 32 ≤ 4096
  free : k ≤ ((Finset.Ico 1 1920).filter fun no => (obj D no).type = TYPE_NONE).card

section Room

variable {D D' : Mem} {I I' : InodePtr → Inode} {k n d no : ℕ} {name : List UInt8} {type : UInt32}
  {j : InodePtr}

/-- Nothing stops an operation while there is room. -/
theorem Roomy.no_abort (h : Roomy D (k + 1)) (hI : liveCount I + n < 128) (e : Abort) :
    ¬ DirAbort D I n e := by
  intro he
  rcases he with ⟨-, hsmall⟩ | ⟨-, no, hno, hbig⟩ | ⟨-, hfull⟩ | ⟨-, hslots⟩
  · exact hsmall h.small
  · have := h.size no hno
    omega
  · have hnone : (Finset.Ico 1 1920).filter (fun no => (obj D no).type = TYPE_NONE) = ∅ := by
      refine Finset.filter_eq_empty_iff.mpr fun no hno => ?_
      obtain ⟨hlo, hhi⟩ := Finset.mem_Ico.mp hno
      exact hfull no hlo hhi
    have := h.free
    rw [hnone, Finset.card_empty] at this
    omega
  · omega

theorem Roomy.created (h : Roomy D (k + 1)) (hc : Created D I D' I' d name type j no)
    (hd : d < 1920) (hdir : (obj D d).type = TYPE_DIR) (hsize : (obj D no).size = 0) : Roomy D' k := by
  have hfew := h.few
  have hdirs := h.dirs d hd hdir
  obtain ⟨dirent, -, hparent⟩ := hc.parent
  have hsized : (obj D' d).size ≤ (obj D d).size + 32 := by
    have hhole := (obj D d).hole_le
    rw [Obj.count] at hhole
    rw [hparent]
    simp only [Obj.put]
    omega
  have hsizen : (obj D' no).size ≤ 64 := by
    have hchild := hc.child
    unfold NewObj at hchild
    split at hchild
    · obtain ⟨dot, dotdot, -, -, hobj⟩ := hchild
      rw [hobj]
      simp only [Obj.put, hsize]
      omega
    · rw [hchild]
      simp only [hsize]
      omega
  have hne : d ≠ no := by
    rintro rfl
    rw [hc.free] at hdir
    cases hdir
  -- an entry more in the directory, two at most in the new object, and nothing else grows
  constructor
  · omega
  · exact hc.small h.small (by omega)
  · intro x hx
    by_cases hxd : x = d
    · subst hxd
      omega
    by_cases hxn : x = no
    · subst hxn
      omega
    · rw [hc.other x hx hxd hxn]
      exact h.size x hx
  · intro x hx htype
    by_cases hxd : x = d
    · subst hxd
      omega
    by_cases hxn : x = no
    · subst hxn
      omega
    · rw [hc.other x hx hxd hxn] at htype ⊢
      have := h.dirs x hx htype
      omega
  -- one inode less is free
  · have hsub : ((Finset.Ico 1 1920).filter fun x => (obj D x).type = TYPE_NONE).erase no ⊆
        (Finset.Ico 1 1920).filter fun x => (obj D' x).type = TYPE_NONE := by
      intro x hx
      obtain ⟨hxn, hx⟩ := Finset.mem_erase.mp hx
      obtain ⟨hmem, htype⟩ := Finset.mem_filter.mp hx
      have hxd : x ≠ d := by
        rintro rfl
        rw [hdir] at htype
        cases htype
      rw [Finset.mem_filter, hc.other x (Finset.mem_Ico.mp hmem).2 hxd hxn]
      exact ⟨hmem, htype⟩
    have hcard := (Finset.pred_card_le_card_erase).trans (Finset.card_le_card hsub)
    have := h.free
    omega

/-- A change that moves no block and keeps types and sizes. -/
theorem Roomy.congr (h : Roomy D k) (hplace : ∀ no < 1920, ∀ k, place D' no k = place D no k)
    (htype : ∀ no < 1920, (obj D' no).type = (obj D no).type)
    (hsize : ∀ no < 1920, (obj D' no).size = (obj D no).size) : Roomy D' k := by
  constructor
  · exact h.few
  · constructor
    · intro no hno k hk
      rw [hplace no hno] at hk
      exact h.small.one no hno k hk
    · intro no hno hdir
      rw [htype no hno] at hdir
      rw [hplace no hno, hsize no hno]
      exact h.small.dirs no hno hdir
  · intro no hno
    rw [hsize no hno]
    exact h.size no hno
  · intro no hno hdir
    rw [htype no hno] at hdir
    rw [hsize no hno]
    exact h.dirs no hno hdir
  · have hsame : (Finset.Ico 1 1920).filter (fun no => (obj D' no).type = TYPE_NONE) =
        (Finset.Ico 1 1920).filter fun no => (obj D no).type = TYPE_NONE := by
      refine Finset.filter_congr fun no hno => ?_
      rw [htype no (Finset.mem_Ico.mp hno).2]
    rw [hsame]
    exact h.free

end Room

/-! ### The file system while the kernel starts -/

/-- There is room on the disk, nothing has been removed, and the root binds the name of the shell
to inode 2, which is as it was packed. -/
structure Fs.Booting (fs : Fs) (k : ℕ) (o : Obj) : Prop where
  ok : fs.Ok
  roomy : Roomy fs.disk.bytes k
  distinct : fs.state.ns.Distinct
  spelled : fs.state.ns.Spelled
  removed : fs.state.ns.removed = ∅
  shell : binding fs.state.ns.objs 1 SH = some 2
  file : obj fs.disk.bytes 2 = o
  mapped : place fs.disk.bytes 2 0 ≠ 0

section Booting

variable {fs : Fs} {k : ℕ} {o : Obj} {c j : InodePtr} {cwd d no : ℕ} {path name : List UInt8}
  {type : UInt32} {st st' : FsState} {evs : List FsEvent}

/-- Only unlinking removes anything. -/
theorem Effects.none_removed (h : Effects st evs st') (hinv : FsInv st.1 st.2) (hns : st.ns.Inv)
    (hevs : ∀ ev ∈ evs, ∀ d e t k, ev ≠ .unlinked d e t k) (hrem : st.ns.removed = ∅) :
    st'.ns.removed = ∅ := by
  refine h.keep (fun n => n.removed = ∅) hinv hns hrem fun ev hev s e s' he _ hrem hstep => ?_
  refine Set.eq_empty_of_forall_notMem fun no hno => ?_
  rcases hstep.of_removed hno with hold | ⟨d, k, rfl, -⟩
  · rw [hrem] at hold
    exact hold
  · cases ev with
    | unlinked d' e' t' j => exact hevs _ hev _ _ _ _ rfl
    | grow | opened | closed | wrote | created => cases he

/-- Making an object that is not there. -/
theorem Fs.Booting.open_new (h : fs.Booting (k + 1) o) (ho : o.type = TYPE_FILE)
    (hc : 0 < (fs.inodes c).ref) (hcwd : (fs.inodes c).no = cwd) (h0 : (0 : UInt8) ∉ path)
    (hlive : ∀ j, 0 < (fs.inodes j).ref → (fs.objOf j).type ≠ TYPE_NONE)
    (hcount : liveCount fs.inodes + 1 < 128) (htype : type ≠ TYPE_NONE)
    (hlook : lookup fs.state.ns.objs cwd path = none)
    (hparent : resolveParent fs.state.ns.objs cwd path = some (d, name)) :
    wp (iopen (some c) path type) (fun r fs' => ∃ j no, r = some j ∧ fs'.Booting k o ∧
      Effects fs.state [.created d name type j no] fs'.state ∧
      fs.state.ns.Adds fs'.state.ns d name type no ∧ 0 < (fs'.inodes j).ref ∧
      (fs'.inodes j).no = no) (fun _ => False) fs := by
  have hres : resolve (objs fs.disk.bytes) cwd path = none := (resolve_lookup _ _ _).trans hlook
  have hparent : resolveParent (objs fs.disk.bytes) cwd path = some (d, name) := hparent
  refine (iopen_spec h.ok.holds h.ok.inv hc hcwd h0 fun _ => hlive).mono ?_
    fun e he => h.roomy.no_abort hcount e he
  intro r fs' hfs'
  obtain ⟨D', I', hh, hr⟩ := hfs'
  obtain rfl : fs'.disk.bytes = D' := hh.1.bytes
  obtain rfl : fs'.inodes = I' := hh.1.inodes
  unfold Iopened at hr
  rw [hres, hparent] at hr
  simp only [if_neg htype] at hr
  obtain ⟨j, no, rfl, hd, hdir, helem, hfind, hcr⟩ := hr
  obtain ⟨hok, heff⟩ := h.ok.effects hh
    (Effects.single (.created hd hdir htype helem hfind hcr) hh.2)
  have hinv := h.ok.holds.2
  have hadds := Effects.adds heff (Or.inl rfl) hinv h.ok.inv h.distinct
  have hsize := hinv.free no hcr.lt hcr.free
  obtain ⟨hdist, hspell⟩ := Effects.distinct heff hinv h.ok.inv ⟨h.distinct, h.spelled⟩
  -- neither the root nor the shell is where the object is made
  have hone : 1 ≠ no := by
    rintro rfl
    have hroot : (objs fs.disk.bytes 1).type = TYPE_DIR := h.ok.inv.root
    rw [objs_root, hcr.free] at hroot
    cases hroot
  have hbound : (1, SH) ≠ (d, name) := by
    rintro heq
    cases heq
    have hboth := h.shell.symm.trans hadds.before
    cases hboth
  have htwo : 2 ≠ d := by
    rintro rfl
    rw [h.file, ho] at hdir
    cases hdir
  have htwo' : 2 ≠ no := by
    rintro rfl
    have hfree := hcr.free
    rw [h.file, ho] at hfree
    cases hfree
  refine ⟨j, no, rfl, ⟨hok, h.roomy.created hcr hd hdir hsize, hdist, hspell, ?_, ?_, ?_, ?_⟩, heff,
    hadds, hcr.opened.pos (hinv.ref j), hcr.opened.ino⟩
  · exact Effects.none_removed heff hinv h.ok.inv (by simp) h.removed
  · rw [hadds.others 1 SH hone hbound]
    exact h.shell
  · rw [hcr.other 2 (by norm_num) htwo htwo']
    exact h.file
  · rw [hcr.place 2 (by norm_num) 0 h.mapped]
    exact h.mapped

/-- Nothing on the disk changes. -/
theorem Fs.Booting.same {fs' : Fs} (h : fs.Booting k o) (hok : fs'.Ok)
    (heff : Effects fs.state evs fs'.state) (hevs : ∀ ev ∈ evs, ∀ d e t k, ev ≠ .unlinked d e t k)
    (hbytes : fs'.disk.bytes = fs.disk.bytes) : fs'.Booting k o := by
  have hinv := h.ok.holds.2
  have hobjs : fs'.state.ns.objs = fs.state.ns.objs := congrArg objs hbytes
  obtain ⟨hdist, hspell⟩ := Effects.distinct heff hinv h.ok.inv ⟨h.distinct, h.spelled⟩
  refine ⟨hok, ?_, hdist, hspell, ?_, ?_, ?_, ?_⟩
  · rw [hbytes]
    exact h.roomy
  · exact Effects.none_removed heff hinv h.ok.inv hevs h.removed
  · rw [hobjs]
    exact h.shell
  · rw [hbytes]
    exact h.file
  · rw [hbytes]
    exact h.mapped

/-- Closing changes no object. -/
theorem Fs.Booting.close {fail : Abort → Prop} (h : fs.Booting k o) (hj : 0 < (fs.inodes j).ref)
    (hno : (fs.inodes j).no = no) :
    wp (iclose j) (fun _ fs' => fs'.Booting k o ∧ Effects fs.state [.closed j no] fs'.state ∧
      fs'.state.ns.objs = fs.state.ns.objs) fail fs := by
  have hlast : ¬ ((fs.inodes j).ref = 1 ∧ (fs.inodes j).del = true) := by
    intro hlast
    have hmem : no ∈ fs.state.ns.removed := ⟨j, hj, hno, hlast.2⟩
    rw [h.removed] at hmem
    exact hmem
  refine (iclose_spec h.ok.holds hj hno).imp ?_
  intro _ fs' hfs'
  obtain ⟨D', I', hh, hc, heq⟩ := hfs'
  rw [if_neg hlast] at heq
  subst heq
  obtain ⟨hok, heff⟩ := h.ok.effects hh (Effects.single (.closed hj hno hlast hc) hh.2)
  exact ⟨h.same hok heff (by simp) hh.1.bytes, heff, congrArg objs hh.1.bytes⟩

/-- Writing the number of a device changes neither the shell nor a directory. -/
theorem Fs.Booting.write_device {fail : Abort → Prop} (h : fs.Booting k o) (hj : 0 < (fs.inodes j).ref)
    (hno : (fs.inodes j).no = no) (htwo : no ≠ 2) (hdir : (obj fs.disk.bytes no).type ≠ TYPE_DIR)
    (id : ℕ) :
    wp (do
        modDinode j fun d => { d with device := UInt32.ofNat id }
        iupdate j)
      (fun _ fs' => fs'.Booting k o ∧ Effects fs.state [.wrote no] fs'.state ∧
        0 < (fs'.inodes j).ref ∧ (fs'.inodes j).no = no ∧
        ∀ x n, binding fs'.state.ns.objs x n = binding fs.state.ns.objs x n) fail fs := by
  have hinv := h.ok.holds.2
  have hlt : no < 1920 := hno ▸ (hinv.live j hj).1
  refine (writeBack_spec h.ok.holds hj hno (fun d => { d with device := UInt32.ofNat id }) rfl
    (hinv.size no hlt) (hinv.free no hlt)).imp ?_
  intro _ fs' hfs'
  obtain ⟨D', I', hh, ht, hplace, hobj⟩ := hfs'
  obtain rfl : fs'.disk.bytes = D' := hh.1.bytes
  obtain rfl : fs'.inodes = I' := hh.1.inodes
  have htype : (obj fs'.disk.bytes no).type = (obj fs.disk.bytes no).type := by rw [hobj]; rfl
  obtain ⟨hok, heff⟩ := h.ok.effects hh (Effects.single (.wrote hj hno hdir ht htype) hh.2)
  obtain ⟨hdist, hspell⟩ := Effects.distinct heff hinv h.ok.inv ⟨h.distinct, h.spelled⟩
  have hother (x : ℕ) (hx : x < 1920) (hne : x ≠ no) : obj fs'.disk.bytes x = obj fs.disk.bytes x :=
    (ht.other x hx hne).obj
  have hbind (x : ℕ) (n : List UInt8) :
      binding fs'.state.ns.objs x n = binding fs.state.ns.objs x n := by
    by_cases hne : x = no
    -- what is written is no directory, before and after
    · subst hne
      have hnot (D : Mem) (hD : (obj D x).type ≠ TYPE_DIR) : binding (objs D) x n = none :=
        if_neg (by rwa [objs_of_lt hlt])
      exact (hnot fs'.disk.bytes (by rwa [htype])).trans (hnot _ hdir).symm
    · have hobjs : objs fs'.disk.bytes x = objs fs.disk.bytes x := by
        by_cases hx : x < 1920
        · rw [objs_of_lt hx, objs_of_lt hx, hother x hx hne]
        · rw [objs, objs, if_neg hx, if_neg hx]
      change binding (objs fs'.disk.bytes) x n = binding (objs fs.disk.bytes) x n
      rw [binding, binding, hobjs]
  refine ⟨⟨hok, h.roomy.congr hplace (fun x hx => ?_) (fun x hx => ?_), hdist, hspell, ?_, ?_, ?_, ?_⟩,
    heff, ht.slots.live.mpr hj, (ht.slots.no_eq hj).trans hno, hbind⟩
  · by_cases hne : x = no
    · rw [hne, htype]
    · rw [hother x hx hne]
  · by_cases hne : x = no
    · rw [hne, hobj]
      rfl
    · rw [hother x hx hne]
  · exact Effects.none_removed heff hinv h.ok.inv (by simp) h.removed
  · rw [hbind]
    exact h.shell
  · rw [hother 2 (by norm_num) htwo.symm]
    exact h.file
  · rw [hplace 2 (by norm_num)]
    exact h.mapped

/-- One device is made. -/
theorem Fs.Booting.add_device (h : fs.Booting (k + 1) o) (ho : o.type = TYPE_FILE)
    (hc : 0 < (fs.inodes c).ref) (hcwd : (fs.inodes c).no = cwd) (h0 : (0 : UInt8) ∉ path)
    (hlive : ∀ j, 0 < (fs.inodes j).ref → (fs.objOf j).type ≠ TYPE_NONE)
    (hcount : liveCount fs.inodes + 1 < 128) (hlook : lookup fs.state.ns.objs cwd path = none)
    (hparent : resolveParent fs.state.ns.objs cwd path = some (d, name)) (id : ℕ) :
    wp (iadddev (some c) path id) (fun _ fs' => fs'.Booting k o ∧
      (∃ j no, Effects fs.state [.created d name TYPE_DEV j no, .wrote no, .closed j no] fs'.state) ∧
      ∀ x n, (fs.state.ns.objs x).type ≠ TYPE_NONE → (x, n) ≠ (d, name) →
        binding fs'.state.ns.objs x n = binding fs.state.ns.objs x n) (fun _ => False) fs := by
  rw [iadddev, wp_bind]
  refine (h.open_new ho hc hcwd h0 hlive hcount (by decide) hlook hparent).imp ?_
  intro r fs₁ hfs₁
  obtain ⟨j, no, rfl, h₁, heff, hadds, hj, hno⟩ := hfs₁
  have hlt : no < 1920 := hno ▸ (h₁.ok.holds.2.live j hj).1
  have hkind : (obj fs₁.disk.bytes no).type = TYPE_DEV := by
    have hkind := hadds.kind
    rwa [FsState.ns, objs_ns hlt] at hkind
  have htwo : no ≠ 2 := by
    rintro rfl
    rw [h₁.file, ho] at hkind
    cases hkind
  simp only
  rw [← bind_assoc, wp_bind]
  refine (h₁.write_device hj hno htwo (by rw [hkind]; decide) id).imp ?_
  intro _ fs₂ hfs₂
  obtain ⟨h₂, heff₂, hj₂, hno₂, hbind⟩ := hfs₂
  refine (h₂.close hj₂ hno₂).imp ?_
  intro _ fs₃ hfs₃
  obtain ⟨h₃, heff₃, hobjs⟩ := hfs₃
  refine ⟨h₃, ⟨j, no, (heff.trans heff₂).trans heff₃⟩, fun x n hx hxn => ?_⟩
  have hne : x ≠ no := by
    rintro rfl
    exact hx hadds.free
  rw [hobjs, hbind, hadds.others x n hne hxn]

end Booting

/-! ### The shell -/

/-- The file is a program without segments. -/
structure Obj.Bare (o : Obj) : Prop where
  type : o.type = TYPE_FILE
  size : EHDR_SIZE ≤ o.size
  magic : wordOf (o.bytes.slice 0 EHDR_SIZE) 0 = ELF_MAGIC
  segments : half (o.bytes.slice 0 EHDR_SIZE) 44 = 0
  entry : wordOf (o.bytes.slice 0 EHDR_SIZE) 24 ≠ -1

section Kernel

variable {s : Kernel} {k : ℕ} {o : Obj} {c : InodePtr} {st : FsState}

/-- A file whose first block is there is read from. -/
theorem read_shell {fs : Fs} {j : InodePtr} (h : fs.Ok) (hfile : obj fs.disk.bytes 2 = o)
    (hmapped : place fs.disk.bytes 2 0 ≠ 0) (ho : o.Bare) (hj : 0 < (fs.inodes j).ref)
    (hno : (fs.inodes j).no = 2) :
    wp (iread j 0 EHDR_SIZE) (fun bs fs' => bs = o.bytes.slice 0 EHDR_SIZE ∧ fs'.Ok ∧
      0 < (fs'.inodes j).ref ∧ (fs'.inodes j).no = 2) (fun _ => False) fs := by
  have hfull : min EHDR_SIZE ((obj fs.disk.bytes 2).size - 0) = EHDR_SIZE := by
    rw [hfile, Nat.sub_zero]
    exact min_eq_left ho.size
  refine ((iread_keeps h hj hno 0 EHDR_SIZE).and (iread_spec h.holds hj hno 0 EHDR_SIZE)).mono
    ?_ ?_
  · intro bs fs' hfs'
    obtain ⟨⟨hok, -, hj', hno'⟩, -, -, -, -, rfl, -⟩ := hfs'
    refine ⟨?_, hok, hj', hno'⟩
    rw [hfull, ← hfile]
    rfl
  · intro e he
    obtain ⟨-, he⟩ := he
    rcases ReadAbort.of_stop he with ⟨-, hm⟩ | ⟨-, hbig⟩
    -- the header lies in the first block, so none is missing
    · refine hm fun n _ hn => ?_
      rw [hfull] at hn
      obtain rfl : n = 0 := by
        change n ≤ (0 + 52) / 4096 at hn
        omega
      exact hmapped
    · rw [hfull] at hbig
      revert hbig
      decide

/-- The shell is loaded. -/
theorem load_shell (h : s.Tables) (hb : s.fs.Booting (k + 1) o) (ho : o.Bare)
    (hc : (s.pcb s.curr).cwd = some c) (hroot : (s.fs.inodes c).no = 1)
    (hcount : liveCount s.fs.inodes + 1 < 128) :
    wp (load_user SH) (fun r _ => r = true) (fun _ => False) s := by
  have hdir : s.fs.state.ns.Dir 1 := h.fs.inv.root
  have hlook : resolve (objs s.fs.disk.bytes) (s.fs.inodes c).no SH = some 2 := by
    rw [resolve_lookup, hroot, lookup_elem ⟨by decide, by decide, by decide, by decide⟩]
    exact hb.shell
  rw [load_user, wp_bind, load_elf, wp_bind]
  refine (kopen_spec h hc (by decide)).mono ?_ fun e he => hb.roomy.no_abort hcount e he
  intro r s₁ hs₁
  obtain ⟨fs, q, evs, rfl, hok, rfl, heff, hopen, hslot⟩ := hs₁
  rcases hopen.of_none with ⟨-, -, hnone⟩ | ⟨j, no, rfl, rfl, hres⟩
  · rw [hlook] at hnone
    cases hnone
  rw [hlook] at hres
  cases hres
  obtain ⟨hj, hno⟩ := hslot j 2 rfl
  have hkept := (Effects.opened_obj heff).2 2 (by norm_num)
  have hmapped : place fs.disk.bytes 2 0 ≠ 0 := by
    have hsame : place fs.disk.bytes 2 0 = place s.fs.disk.bytes 2 0 := hkept.place 0 hb.mapped
    rw [hsame]
    exact hb.mapped
  simp only [Option.map_some]
  rw [wp_bind, wp_read, wp_bind, wp_inFs]
  refine (read_shell hok (hkept.obj.trans hb.file) hmapped ho hj hno).imp ?_
  intro bs fs' hfs'
  obtain ⟨rfl, hok', hj', hno'⟩ := hfs'
  -- all of the header is read, and there is no segment to load
  have hfill : fill (fs.junk.slice 0 EHDR_SIZE) (o.bytes.slice 0 EHDR_SIZE) =
      o.bytes.slice 0 EHDR_SIZE := by
    rw [fill, List.drop_eq_nil_of_le (by simp), List.append_nil]
  simp only [hfill, ho.magic, ho.segments, ne_eq, not_true_eq_false, if_false, List.range_zero]
  rw [wp_bind]
  change wp (do
    inFs (iclose j)
    pure (wordOf (o.bytes.slice 0 EHDR_SIZE) 24)) _ _ _
  rw [wp_bind, wp_inFs]
  refine (iclose_effects hok' hj' hno').imp ?_
  intro _ fs'' _
  rw [wp_pure, wp_pure]
  exact decide_eq_true ho.entry

/-! ### The devices -/

/-- The kernel is starting, there is room for `k` more objects, and the first process is in the
root. -/
structure Kernel.Booting (st : FsState) (k : ℕ) (o : Obj) (s : Kernel) : Prop where
  starting : s.Starting st
  fs : s.fs.Booting k o
  root : ∀ c, (s.pcb 0).cwd = some c → (s.fs.inodes c).no = 1
  next : s.next_pid = 1
  unused : ∀ p ≠ 0, (s.pcb p).status = .unused

/-- When no file is open and only the first process has a directory, one slot is in use. -/
theorem Kernel.Tables.liveCount_le (h : s.Tables) (hfiles : ∀ p, (s.pcb p).files = fun _ => none)
    (hothers : ∀ p ≠ 0, (s.pcb p).cwd = none) : liveCount s.fs.inodes ≤ 1 := by
  have hopen (k : FilePtr) : openTable s.files k = none := by
    have hnone : fdTable s.pcb = fun _ => none := funext fun x => congrFun (hfiles x.1) x.2
    have href : (s.files k).ref = 0 := by rw [h.fileRef k, hnone, refs_none]
    rw [openTable, File.holds, href, if_neg (by simp)]
  -- the slots in use are those the first process refers to
  have hcwd (j : InodePtr) (hj : 0 < (s.fs.inodes j).ref) : (s.pcb 0).cwd = some j := by
    rw [h.inodeRef j, funext hopen, refs_none, zero_add] at hj
    obtain ⟨p, hp⟩ := refs_pos.mp hj
    have hp : (s.pcb p).cwd = some j := hp
    by_cases hp0 : p = 0
    · rwa [hp0] at hp
    · rw [hothers p hp0] at hp
      cases hp
  refine Finset.card_le_one.mpr fun i hi j hj => ?_
  have hsame := (hcwd i (Finset.mem_filter.mp hi).2).symm.trans (hcwd j (Finset.mem_filter.mp hj).2)
  exact Option.some.inj hsame

theorem Kernel.Starting.liveCount_le (h : s.Starting st) : liveCount s.fs.inodes ≤ 1 :=
  h.tables.liveCount_le h.files fun p hp => congrArg Held.cwd (h.others p hp)

theorem Kernel.Booting.onlyFs {fs : Fs} {k' : ℕ} {evs : List FsEvent} (h : s.Booting st k o)
    (hfs : fs.Booting k' o) (heff : Effects s.fs.state evs fs.state) (htidy : Tidy evs)
    (hrefs : ∀ j, (evs.map (FsEvent.refs j)).sum = 0) (hevs : ∀ ev ∈ evs, ev.Starts) :
    { s with fs := fs }.Booting st k' o := by
  have hstart := h.starting.onlyFs hfs.ok heff htidy hrefs hevs
  refine ⟨hstart, hfs, fun c hc => ?_, h.next, h.unused⟩
  have hold := h.starting.tables.ref_of_cwd (p := 0) hc
  have hnew : 0 < (fs.inodes c).ref := hstart.tables.ref_of_cwd (p := 0) hc
  exact (Effects.slot_eq heff htidy h.starting.tables.fs.holds.2 hold hnew).1.trans (h.root c hc)

/-- "dev" -/
abbrev DEV_NAME : List UInt8 := [100, 101, 118]

/-- A device is made in `/dev`. -/
theorem Kernel.Booting.device {no : ℕ} {path name : List UInt8} (h : s.Booting st (k + 1) o)
    (ho : o.Bare) (hdev : binding s.fs.state.ns.objs 1 DEV_NAME = some no)
    (hno : s.fs.state.ns.Dir no) (hfree : binding s.fs.state.ns.objs no name = none)
    (h0 : (0 : UInt8) ∉ path) (hhead : path.head? = some SLASH)
    (hnames : names path = [DEV_NAME, name]) (id : ℕ) :
    wp (inFs (iadddev (s.pcb s.curr).cwd path id)) (fun _ s' => s'.Booting st k o ∧
      s'.pcb = s.pcb ∧ s'.curr = s.curr ∧
      ∀ x n, (s.fs.state.ns.objs x).type ≠ TYPE_NONE → (x, n) ≠ (no, name) →
        binding s'.fs.state.ns.objs x n = binding s.fs.state.ns.objs x n) (fun _ => False) s := by
  obtain ⟨c, hc⟩ := h.starting.cwd
  have hlive := h.starting.liveCount_le
  have hne : path ≠ [] := by
    rintro rfl
    cases hhead
  have halong : along s.fs.state.ns.objs (start 1 path) [DEV_NAME] = some no := by
    rw [start, if_pos hhead, along_cons, hdev]
    rfl
  have hlook : lookup s.fs.state.ns.objs 1 path = none := by
    rw [lookup, if_neg hne, hnames, ← List.singleton_append, along_concat, halong]
    exact hfree
  have hparent : resolveParent s.fs.state.ns.objs 1 path = some (no, name) :=
    resolveParent_some_iff.mpr ⟨hno, [DEV_NAME], hnames, halong⟩
  rw [h.starting.curr, hc, wp_inFs]
  refine (h.fs.add_device ho.type (h.starting.tables.ref_of_cwd hc) (h.root c hc) h0
    (fun j hj => h.starting.tables.type_ne_none hj) (by omega) hlook hparent id).imp ?_
  intro _ fs hfs
  obtain ⟨hfs, ⟨j, no', heff⟩, hbind⟩ := hfs
  refine ⟨h.onlyFs hfs heff ?_ (fun i => ?_) fun ev hev => ?_, rfl, h.starting.curr, hbind⟩
  · exact ⟨[.created no name TYPE_DEV j no', .wrote no'], [.closed j no'], rfl,
      by simp [FsEvent.closes], by simp [FsEvent.opens]⟩
  · simpa [FsEvent.refs] using refs_pair j no' no' i
  · simp only [List.mem_cons, List.not_mem_nil, or_false] at hev
    rcases hev with rfl | rfl | rfl
    · refine ⟨by simp, fun d' name' j' no'' heq => ?_⟩
      rw [FsEvent.created.injEq] at heq
      exact absurd heq.2.2.1 (by decide)
    · exact .of_plain rfl
    · exact .of_plain rfl

/-! ### The start -/

/-- The first process runs in the root. -/
theorem init_proc_booting {fs : Fs} {disk junk : Mem} (h : fs.Booting k o) (hI : Shut fs.inodes)
    (hs : s = Kernel.zero disk junk) :
    wp init_proc (fun _ s' => s'.Booting fs.state k o ∧ s'.fs.disk.bytes = fs.disk.bytes)
      (fun _ => False) { s with fs := fs } := by
  -- what `init_proc_starting` does not tell of the same run
  have hroot : wp init_proc (fun _ s' => s'.fs.Booting k o ∧
      (∀ c, (s'.pcb 0).cwd = some c → (s'.fs.inodes c).no = 1) ∧ s'.next_pid = 1 ∧
      (∀ p ≠ 0, (s'.pcb p).status = .unused) ∧ s'.fs.disk.bytes = fs.disk.bytes)
      (fun _ => False) { s with fs := fs } := by
    subst hs
    rw [init_proc, wp_bind, modProc, wp_update, wp_bind, wp_inFs]
    refine (iopen_root_effects h.ok none TYPE_NONE).mono ?_ ?_
    · intro r fs' hr
      obtain ⟨j, rfl, hok, heff, -, hno, hbytes⟩ := hr
      rw [wp_bind, proc_curr, wp_read, modProc, wp_update]
      refine ⟨h.same hok heff (by simp) hbytes, fun c hc => ?_, rfl, fun p hp => ?_, hbytes⟩
      · simp only [Kernel.zero, Function.update_self] at hc
        cases hc
        exact hno
      · simp only [Kernel.zero, Function.update_of_ne hp]
        rfl
    · intro e he
      obtain ⟨-, hfull⟩ := he
      exact hI.not_live 0 (hfull 0)
  refine ((init_proc_starting h.ok hI hs).and hroot).mono ?_ fun e he => he.2
  intro _ s' hs'
  obtain ⟨hstart, hfs, hcwd, hnext, hunused, hbytes⟩ := hs'
  exact ⟨⟨hstart, hfs, hcwd, hnext, hunused⟩, hbytes⟩

/-- The directory of the devices is made, and nothing is in it. -/
theorem dev_dir_booting (h : s.Booting st (k + 1) o) (ho : o.Bare) (hc : (s.pcb 0).cwd = some c)
    (hfree : binding s.fs.state.ns.objs 1 DEV_NAME = none) :
    wp (iopen (some c) DEV TYPE_DIR) (fun r fs₁ => ∃ j no, r = some j ∧
      wp (iclose j) (fun _ fs₂ => { s with fs := fs₂ }.Booting st k o ∧
        fs₂.state.ns.Dir no ∧ no ≠ 1 ∧ binding fs₂.state.ns.objs 1 DEV_NAME = some no ∧
        binding fs₂.state.ns.objs no DOT = some no ∧
        ∀ name, name ≠ DOT → name ≠ DOTDOT → binding fs₂.state.ns.objs no name = none)
        (fun _ => False) fs₁) (fun _ => False) s.fs := by
  have hroot := h.root c hc
  have hlive := h.starting.liveCount_le
  have hdir : s.fs.state.ns.Dir 1 := h.fs.ok.inv.root
  have hnames : names DEV = [DEV_NAME] := by decide
  have hlook : lookup s.fs.state.ns.objs 1 DEV = none := by
    rw [lookup, if_neg (by decide), hnames, start, ite_self, along_cons, hfree]
    rfl
  have hparent : resolveParent s.fs.state.ns.objs 1 DEV = some (1, DEV_NAME) :=
    resolveParent_some_iff.mpr ⟨hdir, [], hnames, rfl⟩
  refine (h.fs.open_new ho.type (h.starting.tables.ref_of_cwd hc) hroot (by decide)
    (fun j hj => h.starting.tables.type_ne_none hj) (by omega) (by decide) hlook hparent).imp ?_
  intro r fs₁ hfs₁
  obtain ⟨j, no, rfl, hb₁, heff₁, hadds, hj, hno⟩ := hfs₁
  refine ⟨j, no, rfl, (hb₁.close hj hno).imp ?_⟩
  intro _ fs₂ hfs₂
  obtain ⟨hb₂, heff₂, hobjs⟩ := hfs₂
  refine ⟨h.onlyFs hb₂ (heff₁.trans heff₂) ?_ (fun i => ?_) fun ev hev => ?_, ?_, ?_, ?_, ?_,
    fun name hdot hdotdot => ?_⟩
  -- a slot is opened and closed, and the object is made in the root
  · exact ⟨[.created 1 DEV_NAME TYPE_DIR j no], [.closed j no], rfl, by simp [FsEvent.closes],
      by simp [FsEvent.opens]⟩
  · simpa [FsEvent.refs] using refs_pair j no no i
  · simp only [List.cons_append, List.nil_append, List.mem_cons, List.not_mem_nil, or_false] at hev
    rcases hev with rfl | rfl
    · refine ⟨by simp, fun d' name' j' no' heq => ?_⟩
      rw [FsEvent.created.injEq] at heq
      exact heq.1.symm
    · exact .of_plain rfl
  · rw [Ns.Dir, hobjs]
    exact hadds.kind
  · rintro rfl
    have hboth := hadds.free
    rw [hdir] at hboth
    cases hboth
  · rw [hobjs, hadds.after]
  · rw [hobjs, hadds.fresh, if_pos rfl, if_pos rfl]
  · rw [hobjs, hadds.fresh, if_pos rfl, if_neg hdot, if_neg hdotdot]

/-- The directory of the devices is made, and the devices in it. -/
theorem init_dev_booting (h : s.Booting st (k + 3) o) (ho : o.Bare)
    (hfree : binding s.fs.state.ns.objs 1 DEV_NAME = none) :
    wp init_dev (fun _ s' => s'.Booting st k o) (fun _ => False) s := by
  obtain ⟨c, hc⟩ := h.starting.cwd
  have hdevdir := dev_dir_booting h ho hc hfree
  rw [← h.starting.curr] at hc
  rw [init_dev, wp_bind, kopen, wp_bind, proc_curr, wp_read, wp_bind, wp_getProc, wp_inFs, hc]
  refine hdevdir.imp ?_
  intro r fs₁ hfs₁
  obtain ⟨j, no, rfl, hclose⟩ := hfs₁
  rw [wp_bind, deref, wp_pure, wp_bind, wp_inFs]
  refine hclose.imp ?_
  intro _ fs₂ hfs₂
  obtain ⟨hk, hdev, hone, hbound, hdot, hempty⟩ := hfs₂
  have hused : (fs₂.state.ns.objs no).type ≠ TYPE_NONE := by
    rw [hdev]
    decide
  have hroot : (fs₂.state.ns.objs 1).type ≠ TYPE_NONE := by
    rw [show (fs₂.state.ns.objs 1).type = TYPE_DIR from hk.fs.ok.inv.root]
    decide
  rw [wp_bind, wp_read, wp_bind, wp_getProc, wp_bind]
  refine (hk.device ho hbound hdev (hempty [115, 101, 114, 105, 97, 108] (by decide) (by decide))
    (show (0 : UInt8) ∉ DEV_SERIAL by decide) rfl
    (show names DEV_SERIAL = [DEV_NAME, [115, 101, 114, 105, 97, 108]] by decide) 0).imp ?_
  intro _ s₃ hs₃
  obtain ⟨hk₃, -, hcurr, hbind⟩ := hs₃
  have hcurr₃ : s₃.curr = s.curr := hcurr
  -- the first device leaves the name of the second free
  have hdot₃ : binding s₃.fs.state.ns.objs no DOT = some no := by
    rw [hbind no DOT hused (by simp)]
    exact hdot
  have hdev₃ : s₃.fs.state.ns.Dir no := by
    by_contra hnot
    rw [binding_other hnot] at hdot₃
    cases hdot₃
  have hbound₃ : binding s₃.fs.state.ns.objs 1 DEV_NAME = some no :=
    (hbind 1 DEV_NAME hroot fun heq => hone (congrArg Prod.fst heq).symm).trans hbound
  rw [wp_bind, wp_getProc]
  change wp (inFs (iadddev (s₃.pcb s.curr).cwd DEV_NULL 1)) _ _ s₃
  rw [← hcurr₃]
  refine (hk₃.device ho hbound₃ hdev₃ ((hbind no [110, 117, 108, 108] hused (by simp)).trans
    (hempty [110, 117, 108, 108] (by decide) (by decide))) (by decide) rfl (by decide) 1).imp ?_
  exact fun _ _ hs => hs.1

/-- A process is found when one is not in use. -/
theorem proc_alloc_found {p : ProcPtr} (hp : p ≠ 0) (hunused : (s.pcb p).status = .unused) :
    wp proc_alloc (fun r _ => r ≠ none) (fun _ => True) s := by
  rw [proc_alloc, wp_bind, wp_read]
  cases hfind : (List.finRange PROC_NUM).find? fun i => i ≠ 0 ∧ (s.pcb i).status = .unused with
  | none =>
    have hall := List.find?_eq_none.mp hfind p (List.mem_finRange p)
    simp [hp, hunused] at hall
  | some i =>
    simp only
    rw [wp_bind, wp_read, wp_bind, wp_assert]
    refine ⟨fun _ => ?_, fun _ => trivial⟩
    rw [wp_bind, wp_update, wp_bind, modProc, wp_update, wp_pure]
    simp

/-- Only the first process has a directory. -/
theorem Kernel.Booting.cwd_root (h : s.Booting st k o) {q : ProcPtr} (hq : (s.pcb q).cwd = some c) :
    (s.fs.inodes c).no = 1 := by
  by_cases hq0 : q = 0
  · rw [hq0] at hq
    exact h.root c hq
  · rw [show (s.pcb q).cwd = none from congrArg Held.cwd (h.starting.others q hq0)] at hq
    cases hq

/-- The shell gets the root as its directory, and the first process keeps it. -/
theorem init_user_and_go_root (h : s.Booting st (k + 1) o) (ho : o.Bare) (hidle : s.Idle) :
    wp init_user_and_go (fun _ s' => ∀ q c, (s'.pcb q).cwd = some c → 0 < (s'.fs.inodes c).ref →
      (s'.fs.inodes c).no = 1) (fun _ => False) s := by
  have hstart := h.starting
  have hlive := hstart.liveCount_le
  obtain ⟨c, hc⟩ := hstart.cwd
  rw [init_user_and_go, wp_bind]
  refine ((proc_alloc_links hidle).and (proc_alloc_found (p := 1) (by decide)
    (h.unused 1 (by decide)))).mono ?_ ?_
  · intro r s₁ hs₁
    obtain ⟨⟨hlinks, hcurr, -, -⟩, hfound⟩ := hs₁
    cases r with
    | none => exact (hfound rfl).elim
    | some p =>
      have hheld (q : ProcPtr) : (s₁.pcb q).held = (s.pcb q).held :=
        congrFun (congrArg Links.held hlinks) q
      have hfs : s₁.fs = s.fs := congrArg Links.fs hlinks
      have hcurr₁ : s₁.curr = 0 := hcurr.trans hstart.curr
      have hcwd (q : ProcPtr) : (s₁.pcb q).cwd = (s.pcb q).cwd := congrArg Held.cwd (hheld q)
      have hc₁ : (s₁.pcb s₁.curr).cwd = some c := by rw [hcurr₁, hcwd, hc]
      have htables₁ := hstart.tables.congr hlinks
      simp only
      rw [wp_bind]
      refine ((sys_exec_tables htables₁ hc₁ (by decide)).and
        (load_shell htables₁ (hfs ▸ h.fs) ho hc₁ (hfs ▸ h.root c hc) (by rw [hfs]; omega))).mono
        ?_ fun e he => he.2
      intro loaded s₂ hs₂
      obtain ⟨⟨htables₂, fs₂, evs, rfl, heff₂, hload⟩, hloaded⟩ := hs₂
      rw [wp_bind, wp_assert]
      refine ⟨fun _ => ?_, fun hnot => hnot hloaded⟩
      rw [wp_bind, kopen, wp_bind, proc_curr, wp_read, wp_bind, wp_getProc, wp_inFs]
      refine (iopen_root_effects htables₂.fs _ TYPE_NONE).mono ?_ ?_
      · intro r fs₃ hr
        obtain ⟨j, rfl, -, heff₃, -, hno, -⟩ := hr
        rw [wp_bind, modProc, wp_update, proc_addready, modProc, wp_update]
        intro q c' hq href
        by_cases hqp : q = p
        · subst hqp
          simp only [Function.update_self] at hq
          cases hq
          exact hno
        -- a slot in use keeps its inode while the shell is loaded and the root is opened
        · simp only [Function.update_of_ne hqp] at hq
          have hold := htables₁.ref_of_cwd hq
          have hnew := htables₂.ref_of_cwd (p := q) hq
          have hsame₃ : (fs₃.inodes c').no = (fs₂.inodes c').no :=
            (Effects.slot_eq heff₃ (Kernel.Tables.Tidy.opens (by simp [FsEvent.closes]))
              htables₂.fs.holds.2 hnew href).1
          have hsame₂ : (fs₂.inodes c').no = (s₁.fs.inodes c').no :=
            (Effects.slot_eq heff₂ hload.tidy htables₁.fs.holds.2 hold hnew).1
          rw [hcwd] at hq
          change (fs₃.inodes c').no = 1
          rw [hsame₃, hsame₂, hfs]
          exact h.cwd_root hq
      -- one slot is in use, that of the first process, so there is one for the root
      · intro e he
        obtain ⟨-, hfull⟩ := he
        have hle : liveCount fs₂.inodes ≤ 1 := htables₂.liveCount_le
          (fun q => (congrArg Held.files (hheld q)).trans (hstart.files q))
          (fun q hq => (hcwd q).trans (congrArg Held.cwd (hstart.others q hq)))
        have hall : liveCount fs₂.inodes = 128 := by
          rw [liveCount, Finset.filter_true_of_mem fun j _ => hfull j, Finset.card_univ]
          rfl
        omega
  · intro e he
    obtain ⟨⟨-, hbig⟩, -⟩ := he
    rw [h.next] at hbig
    revert hbig
    decide

/-- The shell is loaded and ready, in the root as the first process is. -/
theorem init_user_and_go_booting (h : s.Booting st (k + 1) o) (ho : o.Bare) :
    wp init_user_and_go (fun _ s' => s'.Tables ∧
      ∀ q c, (s'.pcb q).cwd = some c → (s'.fs.inodes c).no = 1) (fun _ => False) s := by
  have hstart := h.starting
  have hidle : s.Idle := by
    intro p hp
    refine hstart.others p ?_
    rintro rfl
    rw [hstart.run] at hp
    rcases hp with hp | hp <;> cases hp
  refine ((init_user_and_go_ready hstart hidle).and (init_user_and_go_root h ho hidle)).mono ?_
    fun e he => he.2
  intro _ s' hs'
  obtain ⟨⟨p, hready⟩, hno⟩ := hs'
  exact ⟨hready.tables, fun q c hq => hno q c hq (hready.tables.ref_of_cwd hq)⟩

end Kernel

/-! ### An image that boots -/

/-- An image with the shell in front and room for the devices. -/
structure Mkfs.Bootable (files : List (CString × List UInt8)) (D : Mem) : Prop where
  formatted : Formatted files D
  apart : Apart files
  shell : numberOf files SH = some 2
  dev : numberOf files DEV_NAME = none
  bare : (obj D 2).Bare
  mapped : place D 2 0 ≠ 0
  roomy : Roomy D 4

/-- The kernel starts, with every process that has a directory in the root. -/
theorem Mkfs.Bootable.boots {files : List (CString × List UInt8)} {D : Mem} (h : Bootable files D) :
    ∃ s, Boots D s ∧ ∀ q c, (s.pcb q).cwd = some c → (s.fs.inodes c).no = 1 := by
  obtain ⟨s₀, hs₀⟩ : ∃ s₀, s₀ = Kernel.zero D fun _ => 0 := ⟨_, rfl⟩
  have hbytes : s₀.fs.disk.bytes = D := by rw [hs₀]; rfl
  have hcache : s₀.fs.disk.Coherent := by
    intro i _ hvalid
    rw [hs₀] at hvalid
    cases hvalid
  have hshut : Shut s₀.fs.inodes := by
    intro j
    rw [hs₀]
    rfl
  have hmain : wp Oslab.main (fun _ s' => ∀ q c, (s'.pcb q).cwd = some c → (s'.fs.inodes c).no = 1)
      (fun _ => False) s₀ := by
    rw [Oslab.main, wp_bind, wp_inFs]
    refine (init_fs_spec (hbytes ▸ h.formatted) hcache hshut).imp ?_
    intro _ fs hfs
    obtain ⟨hok, hstate⟩ := hfs
    have hD : fs.disk.bytes = D := (congrArg Prod.fst hstate).trans hbytes
    have hinodes : fs.inodes = s₀.fs.inodes := congrArg Prod.snd hstate
    have hI : Shut fs.inodes := hinodes ▸ hshut
    have hobjs : fs.state.ns.objs = objs D := congrArg objs hD
    have hform : Mkfs.Formatted files fs.disk.bytes := hD ▸ h.formatted
    have hfsb : fs.Booting 4 (obj D 2) := by
      refine ⟨hok, hD ▸ h.roomy, hform.distinct h.apart, hform.spelled h.apart, hI.removed_eq, ?_,
        by rw [hD], hD ▸ h.mapped⟩
      rw [hobjs, h.formatted.binding_root h.apart, if_neg (by decide), h.shell]
    rw [wp_bind]
    refine (init_proc_booting hfsb hI hs₀).imp ?_
    intro _ s₁ hs₁
    obtain ⟨hs₁, hbytes₁⟩ := hs₁
    have hdev : binding s₁.fs.state.ns.objs 1 DEV_NAME = none := by
      rw [show s₁.fs.state.ns.objs = objs D from congrArg objs (hbytes₁.trans hD),
        h.formatted.binding_root h.apart, if_neg (by decide), h.dev]
    rw [wp_bind]
    refine (init_dev_booting hs₁ h.bare hdev).imp ?_
    intro _ s₂ hs₂
    exact (init_user_and_go_booting hs₂ h.bare).imp fun _ _ hs => hs.2
  obtain ⟨_, s, hrun, hs⟩ := hmain.returns
  exact ⟨s, ⟨_, hs₀ ▸ hrun⟩, hs⟩

/-- A program without segments. -/
def bareShell : List UInt8 := [0x7f, 0x45, 0x4c, 0x46] ++ List.replicate 48 0

namespace Mkfs

/-- Nothing but the shell. -/
def onlyShell : List (CString × List UInt8) := [(⟨SH, by decide⟩, bareShell)]

/-- The builder gives the root the first block and the shell the second. -/
theorem main_onlyShell : ((main onlyShell (zero (fun _ => 0) fun _ _ => 0)).toOption.map fun x =>
    (x.2.next_blk, place x.2.mem 1 0, place x.2.mem 2 0)) = some (66, 64, 65) := by
  decide +kernel

/-- With two blocks given out, to the root and to a program of a block at most, there is room for
the devices. -/
theorem Filled.roomy {files : List (CString × List UInt8)} {s : Mkfs} (h : Filled files s)
    (hnext : s.next_blk = 66) (hroot : place s.mem 1 0 = 64) (hfile : place s.mem 2 0 = 65)
    (hlen : files.length = 1) (hsmall : ∀ f ∈ files, f.2.length ≤ 4096) : Roomy s.mem 4 := by
  have hform := h.formatted
  have htype (no : ℕ) (hno : no < 1920) (hdir : (obj s.mem no).type = TYPE_DIR) : no = 1 := by
    rw [← objs_of_lt hno] at hdir
    exact (hform.dir_iff (I := fun _ => ⟨0, 0, false, .zero⟩)).mp hdir
  have hcount := hform.count
  rw [hlen] at hcount
  have hfree (no : ℕ) (hno : no < 1920) (hthree : 3 ≤ no) : obj s.mem no = Obj.free :=
    hform.free no hno (Or.inr (by omega))
  constructor
  · norm_num
  · constructor
    -- the two blocks are those of the root and of the program
    · intro no hno k hk
      obtain ⟨hlo, hhi, hbit⟩ := h.built.owned.range no hno k hk
      have hlt : place s.mem no k < 66 := by
        by_contra hge
        rw [h.built.bits _ (by omega) hhi] at hbit
        cases hbit
      rcases (show place s.mem no k = 64 ∨ place s.mem no k = 65 by omega) with hb | hb
      · exact (h.built.owned.inj no hno 1 (by norm_num) k 0 hk (hb.trans hroot.symm)).2
      · exact (h.built.owned.inj no hno 2 (by norm_num) k 0 hk (hb.trans hfile.symm)).2
    · intro no hno hdir
      obtain rfl := htype no hno hdir
      omega
  · intro no hno
    rcases hform.cases_inode no with rfl | ⟨i, hi, rfl, hobj⟩ | hobj
    · omega
    · rw [← objs_of_lt hno, hobj]
      exact hsmall _ (List.get_mem files ⟨i, hi⟩)
    · rw [← objs_of_lt hno, hobj]
      exact Nat.zero_le _
  · intro no hno hdir
    obtain rfl := htype no hno hdir
    omega
  · have hsub : ({3, 4, 5, 6} : Finset ℕ) ⊆
        (Finset.Ico 1 1920).filter fun no => (obj s.mem no).type = TYPE_NONE := by
      intro no hno
      simp only [Finset.mem_insert, Finset.mem_singleton] at hno
      refine Finset.mem_filter.mpr ⟨Finset.mem_Ico.mpr ⟨by omega, by omega⟩, ?_⟩
      rw [hfree no (by omega) (by omega)]
      rfl
    exact (Finset.card_le_card hsub).trans_eq' (by rfl)

/-- There is an image that boots. -/
theorem exists_bootable : ∃ D, ImageOf onlyShell D ∧ Bootable onlyShell D := by
  have hmain := main_onlyShell
  rw [Option.map_eq_some_iff] at hmain
  obtain ⟨⟨u, s⟩, hrun, hs⟩ := hmain
  simp only [Prod.mk.injEq] at hs
  obtain ⟨hnext, hroot, hfile⟩ := hs
  have hok : main onlyShell (zero (fun _ => 0) fun _ _ => 0) = .ok ((), s) := by
    cases hres : main onlyShell (zero (fun _ => 0) fun _ _ => 0) with
    | ok x =>
      rw [hres] at hrun
      cases hrun
      rfl
    | error e =>
      rw [hres] at hrun
      cases hrun
  have himage : ImageOf onlyShell s.mem := ⟨_, _, s, hok, rfl⟩
  have hfilled : Filled onlyShell s := (main_spec onlyShell _ _).of_ok hok
  have hobj : obj s.mem 2 = ⟨TYPE_FILE, 0, bareShell.length, Mem.ofList bareShell⟩ :=
    himage.formatted.file 0 (by decide)
  refine ⟨s.mem, himage, himage.formatted, ⟨by decide, by decide⟩, by decide, by decide, ?_, ?_, ?_⟩
  · rw [hobj]
    exact ⟨rfl, by decide, by decide, by decide, by decide⟩
  · rw [hfile]
    norm_num
  · exact hfilled.roomy hnext hroot hfile rfl (by decide)

end Mkfs

/-! ### The first steps -/

section Steps

variable {s : Kernel} {p : ProcPtr}

/-- The timer can interrupt every process in user mode; another one runs then, and nobody loses
anything. -/
theorem Kernel.Sound.timer (h : s.Sound) (huser : (s.pcb s.curr).kont = .user) :
    ∃ u, s.step ⟨(s.pcb s.curr).pid, .timer, none⟩ u ∧ u.fs = s.fs ∧ u.user_sem = s.user_sem ∧
      ∀ q, (u.pcb q).held = (s.pcb q).held ∧ (u.pcb q).kont = (s.pcb q).kont := by
  obtain ⟨t, henters, hfs, husem, hpcb⟩ : ∃ t, s.Enters .timer t ∧ t.fs = s.fs ∧
      t.user_sem = s.user_sem ∧
      ∀ q, (t.pcb q).held = (s.pcb q).held ∧ (t.pcb q).kont = (s.pcb q).kont := by
    refine ⟨_, ⟨huser, .user, _, rfl, rfl⟩, rfl, rfl, fun q => ?_⟩
    by_cases hq : q = s.curr
    · subst hq
      simp only [Function.update_self]
      exact ⟨rfl, huser.symm⟩
    · simp only [Function.update_of_ne hq, and_self]
  obtain ⟨-, u, hsched, -⟩ := henters.schedule h
  have hkeep : wp schedule (fun _ u => u.fs = t.fs ∧ u.user_sem = t.user_sem ∧
      ∀ q, (u.pcb q).held = (t.pcb q).held ∧ (u.pcb q).kont = (t.pcb q).kont) (fun _ => True) t := by
    rw [schedule, wp_bind, wp_read]
    cases hfind : (nextProcs t.curr).find? fun p => (t.pcb p).status = .ready with
    | none =>
      simp only [id, hfind]
      exact trivial
    | some p =>
      simp only [id, hfind]
      rw [wp_bind, modProc, wp_update, wp_update]
      refine ⟨rfl, rfl, fun q => ?_⟩
      by_cases hq : q = p
      · subst hq
        simp only [Function.update_self, and_true]
        rfl
      · simp only [Function.update_of_ne hq, and_self]
  obtain ⟨hfs', husem', hpcb'⟩ := hkeep.of_ok hsched
  refine ⟨u, ⟨rfl, huser, ?_⟩, hfs'.trans hfs, husem'.trans husem, fun q => ?_⟩
  · rw [henters.handle]
    change seq schedule (fun _ => pure none) t = _
    rw [seq, hsched]
    rfl
  · exact ⟨(hpcb' q).1.trans (hpcb q).1, (hpcb' q).2.trans (hpcb q).2⟩

/-- The first program runs in the root and has nothing open. -/
structure Kernel.Fresh (s : Kernel) : Prop where
  calling : s.Calling
  root : s.cwdNo = 1
  files : (s.pcb s.curr).files = fun _ => none
  usems : (s.pcb s.curr).usems = fun _ => none
  refs : ∀ u, (s.user_sem u).ref = 0

/-- When the timer interrupts the first process, the shell runs. -/
theorem Boots.timer {D : Mem} (h : Boots D s) : ∃ u, s.step ⟨(s.pcb s.curr).pid, .timer, none⟩ u ∧
    u.curr ≠ 0 ∧ (u.pcb u.curr).kont = .user ∧ u.fs = s.fs ∧ (∀ k, (u.user_sem k).ref = 0) ∧
    ∀ q, (u.pcb q).held = (s.pcb q).held ∧ (u.pcb q).usems = fun _ => none := by
  obtain ⟨p, hp, hcore⟩ := boots_core h
  have hcurr : s.curr = 0 := congrArg Core.curr hcore
  have hthread (q : ProcPtr) : (s.pcb q).thread = (Core.started p).thread q :=
    congrFun (congrArg Core.thread hcore) q
  have hrefs (k : UsemPtr) : (s.user_sem k).ref = 0 := congrFun (congrArg Core.usemRef hcore) k
  have huser (q : ProcPtr) : (s.pcb q).kont = .user := by
    have hkont := congrArg Thread.kont (hthread q)
    rw [started_thread hp] at hkont
    exact hkont
  have husems (q : ProcPtr) : (s.pcb q).usems = fun _ => none := by
    have husems := congrArg Thread.usems (hthread q)
    rw [started_thread hp] at husems
    exact husems
  obtain ⟨u, hstep, hfs, husem, hpcb⟩ := h.sound.timer (huser s.curr)
  refine ⟨u, hstep, ?_, (hpcb _).2.trans (huser _), hfs, fun k => husem ▸ hrefs k,
    fun q => ⟨(hpcb q).1, (congrArg Held.usems (hpcb q).1).trans (husems q)⟩⟩
  rcases hstep.turn h.sound with ⟨hl, -⟩ | ⟨-, ready, hfind, hready⟩
  · cases hl
  -- the shell is ready and comes before the first process
  · intro hzero
    have hstatus : (s.pcb p).status = .ready := by
      have hsame : (s.pcb p).status = ((Core.started p).thread p).status :=
        congrArg Thread.status (hthread p)
      rw [hsame, started_thread hp]
      simp [hp]
    have hne : p ≠ s.curr := by
      rw [hcurr]
      exact hp
    have hlt := lag_lt hfind (hready p hne hstatus) (by rw [hzero]; exact hp) hne
    rw [hzero, hcurr] at hlt
    exact lt_irrefl _ hlt

/-- **The kernel starts** from an image, and after one tick the shell runs. -/
theorem exists_fresh : ∃ s l u, (machine Mkfs.ApartImage).init s ∧ s.step l u ∧ u.Fresh := by
  obtain ⟨D, himage, hboot⟩ := Mkfs.exists_bootable
  obtain ⟨s, hs, hroot⟩ := hboot.boots
  obtain ⟨u, hstep, hcurr, huser, hfs, hrefs, hpcb⟩ := hs.timer
  have hinit : (machine Mkfs.ApartImage).init s := ⟨D, ⟨_, hboot.apart, himage⟩, hs⟩
  have hreach : (machine Mkfs.ApartImage).Reachable u := .step (.init hinit) hstep
  have hheld : (u.pcb u.curr).held = (s.pcb u.curr).held := (hpcb u.curr).1
  refine ⟨s, _, u, hinit, hstep, ⟨hreach, huser, hcurr⟩, ?_, ?_, (hpcb u.curr).2, hrefs⟩
  · have hruns : (u.core.thread u.curr).status = .running := (reachable_sound hreach).runs
    have hlive : u.core.Live u.curr := by
      rw [Core.Live, hruns]
      decide
    obtain ⟨c, hc⟩ := (reachable_inOrder (reachable_apart hreach)).cwd u.curr hlive
    have hold : (s.pcb u.curr).cwd = some c := (congrArg Held.cwd hheld).symm.trans hc
    rw [Kernel.cwdNo, hc, hfs]
    exact hroot u.curr c hold
  · exact (congrArg Held.files hheld).trans (hs.noFiles hboot.formatted u.curr)

instance : Nonempty Running := by
  obtain ⟨s, -, -, hinit, -⟩ := exists_fresh
  exact ⟨s, .init (apart_image hinit)⟩

instance : Nonempty RunningApart := by
  obtain ⟨s, -, -, hinit, -⟩ := exists_fresh
  exact ⟨s, .init hinit⟩

instance : Nonempty RunningTidily := by
  obtain ⟨s, -, -, hinit, -⟩ := exists_fresh
  exact ⟨s, .init hinit⟩

instance : Nonempty RunningCalmly := by
  obtain ⟨s, -, -, hinit, -⟩ := exists_fresh
  exact ⟨s, .init (apart_image hinit)⟩

instance : Nonempty Taken := by
  obtain ⟨s, l, u, hinit, hstep, -⟩ := exists_fresh
  exact ⟨(s, l, u), .init hinit, hstep⟩

instance : Nonempty (machine Mkfs.Image).History := by
  obtain ⟨s, l, u, hinit, hstep, -⟩ := exists_fresh
  exact ⟨s, [l], u, apart_image hinit, .single hstep⟩

instance : Nonempty Mkfs.Packed := by
  obtain ⟨D, himage, hboot⟩ := Mkfs.exists_bootable
  exact ⟨_, D, himage, hboot.apart⟩

instance : Nonempty Walker := by
  obtain ⟨-, -, u, -, -, hu⟩ := exists_fresh
  exact ⟨u, hu.calling, ⟨1, [], .root⟩, hu.root⟩

end Steps

end Oslab
