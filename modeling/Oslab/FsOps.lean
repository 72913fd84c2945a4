/-
# The operations of the file system

Each operation the rest of the kernel calls, as a run of effects. A file system
is in order when cache, disk, blocks and slots agree and the namespace on it meets
its invariant; every operation that returns leaves it in order.
-/
import Oslab.PathSpec

namespace Oslab

open Lib Lib.Prog

variable {s : Fs} {c i j : InodePtr} {cwd no : ℕ} {path : List UInt8} {type : UInt32}

/-- The disk and the inode table. -/
def Fs.state (s : Fs) : FsState := (s.disk.bytes, s.inodes)

/-- The file system is in order. -/
structure Fs.Ok (s : Fs) : Prop where
  holds : s.Holds s.disk.bytes s.inodes
  inv : (ns s.disk.bytes s.inodes).Inv

theorem Fs.Holds.state_eq {D : Mem} {I : InodePtr → Inode} (h : s.Holds D I) : s.state = (D, I) := by
  rw [Fs.state, h.1.bytes, h.1.inodes]

/-- The object a slot holds. -/
def Fs.objOf (s : Fs) (j : InodePtr) : Obj := obj s.disk.bytes (s.inodes j).no

/-- A file system that has gone through effects is in order. -/
theorem Fs.Ok.effects {s' : Fs} {D' : Mem} {I' : InodePtr → Inode} {evs : List FsEvent} (h : s.Ok)
    (hh : s'.Holds D' I') (heff : Effects s.state evs (D', I')) :
    s'.Ok ∧ Effects s.state evs s'.state := by
  have hns : (ns D' I').Inv := (Effects.invariant heff h.holds.2 h.inv).2
  rw [hh.state_eq]
  refine ⟨⟨?_, ?_⟩, heff⟩
  · rw [hh.1.bytes, hh.1.inodes]
    exact hh
  · rw [hh.1.bytes, hh.1.inodes]
    exact hns

/-! ### Opening and closing -/

/-- What `iopen` returns, and its effect. -/
inductive Opening (s : Fs) (cwd : ℕ) (path : List UInt8) (type : UInt32) :
    Option (InodePtr × ℕ) → List FsEvent → Prop
  | absent : resolve (objs s.disk.bytes) cwd path = none →
      (type = TYPE_NONE ∨ resolveParent (objs s.disk.bytes) cwd path = none) →
      Opening s cwd path type none [.grow]
  | found {j : InodePtr} {no : ℕ} : resolve (objs s.disk.bytes) cwd path = some no →
      Opening s cwd path type (some (j, no)) [.opened j no]
  | created {j : InodePtr} {no d : ℕ} {name : List UInt8} : type ≠ TYPE_NONE →
      resolve (objs s.disk.bytes) cwd path = none →
      resolveParent (objs s.disk.bytes) cwd path = some (d, name) →
      Opening s cwd path type (some (j, no)) [.created d name type j no]

theorem iopen_effects (h : s.Ok) (hc : 0 < (s.inodes c).ref) (hcwd : (s.inodes c).no = cwd)
    (h0 : (0 : UInt8) ∉ path)
    (hlive : type ≠ TYPE_NONE → ∀ j, 0 < (s.inodes j).ref → (s.objOf j).type ≠ TYPE_NONE) :
    wp (iopen (some c) path type) (fun r s' => s'.Ok ∧ ∃ q evs, r = q.map Prod.fst ∧
      Effects s.state evs s'.state ∧ Opening s cwd path type q evs ∧
      ∀ j no, q = some (j, no) → 0 < (s'.inodes j).ref ∧ (s'.inodes j).no = no)
      (DirAbort s.disk.bytes s.inodes 1) s := by
  refine (iopen_spec h.holds h.inv hc hcwd h0 hlive).imp ?_
  rintro r s' ⟨D', I', hh, hr⟩
  have hend {q : Option (InodePtr × ℕ)} {ev : FsEvent} (hq : r = q.map Prod.fst)
      (heff : Effect s.state ev (D', I')) (hopen : Opening s cwd path type q [ev])
      (hslot : ∀ j no, q = some (j, no) → 0 < (I' j).ref ∧ (I' j).no = no) :
      s'.Ok ∧ ∃ q evs, r = q.map Prod.fst ∧ Effects s.state evs s'.state ∧
        Opening s cwd path type q evs ∧
        ∀ j no, q = some (j, no) → 0 < (s'.inodes j).ref ∧ (s'.inodes j).no = no := by
    obtain ⟨hok, heffs⟩ := h.effects hh (Effects.single heff hh.2)
    rw [hh.1.inodes]
    exact ⟨hok, q, [ev], hq, heffs, hopen, hslot⟩
  unfold Iopened at hr
  cases hres : resolve (objs s.disk.bytes) cwd path with
  | some no =>
    rw [hres] at hr
    obtain ⟨j, rfl, hpos, hlt, ho, hk, -⟩ := hr
    refine hend (q := some (j, no)) rfl (.opened hpos hlt ho hk) (.found hres) ?_
    rintro _ _ ⟨⟩
    exact ⟨ho.pos (h.holds.2.ref j), ho.ino⟩
  | none =>
    rw [hres] at hr
    cases hparent : resolveParent (objs s.disk.bytes) cwd path with
    | none =>
      rw [hparent] at hr
      obtain ⟨rfl, hg, -⟩ := hr
      exact hend (q := none) rfl (.grow hg) (.absent hres (Or.inr hparent)) (by simp)
    | some q =>
      obtain ⟨d, name⟩ := q
      rw [hparent] at hr
      simp only at hr
      by_cases hnone : type = TYPE_NONE
      · rw [if_pos hnone] at hr
        obtain ⟨rfl, hg, -⟩ := hr
        exact hend (q := none) rfl (.grow hg) (.absent hres (Or.inl hnone)) (by simp)
      · rw [if_neg hnone] at hr
        obtain ⟨j, no, rfl, hd, hdir, helem, hfind, hcr⟩ := hr
        refine hend (q := some (j, no)) rfl (.created hd hdir hnone helem hfind hcr)
          (.created hnone hres hparent) ?_
        rintro _ _ ⟨⟩
        exact ⟨hcr.opened.pos (h.holds.2.ref j), hcr.opened.ino⟩

theorem iclose_effects {fail : Abort → Prop} (h : s.Ok) (hi : 0 < (s.inodes i).ref)
    (hno : (s.inodes i).no = no) :
    wp (iclose i) (fun _ s' => s'.Ok ∧ Effects s.state [.closed i no] s'.state) fail s := by
  refine (iclose_spec h.holds hi hno).imp ?_
  rintro - s' ⟨D', I', hh, hc, heq⟩
  split at heq
  case isTrue hlast =>
    exact h.effects hh (Effects.single (.freed hlast.1 hno hlast.2 hc heq) hh.2)
  case isFalse hlast =>
    subst heq
    exact h.effects hh (Effects.single (.closed hi hno hlast hc) hh.2)

theorem idup_effects {fail : Abort → Prop} (h : s.Ok) (hi : 0 < (s.inodes i).ref)
    (hno : (s.inodes i).no = no) :
    wp (idup i) (fun j s' => j = i ∧ s'.Ok ∧ Effects s.state [.opened i no] s'.state) fail s := by
  refine (idup_spec h.holds hi).imp ?_
  rintro j s' ⟨rfl, I', hh, ho⟩
  have hlive : no ∈ (ns s.disk.bytes s.inodes).live := hno ▸ mem_live hi
  obtain ⟨hpos, hlt⟩ := h.inv.range no hlive
  rw [hno] at ho
  exact ⟨rfl, h.effects hh (Effects.single (.opened hpos hlt ho fun no _ => .refl _ no) hh.2)⟩

theorem Fs.Ok.dinode_eq (h : s.Ok) (hi : 0 < (s.inodes i).ref) :
    (s.inodes i).dinode = dinodeAt s.disk.bytes (s.inodes i).no := (h.holds.2.live i hi).2

theorem itype_spec {fail : Abort → Prop} (h : s.Ok) (hi : 0 < (s.inodes i).ref) :
    wp (itype i) (fun t s' => s' = s ∧ t = (s.objOf i).type) fail s := by
  rw [itype, wp_read, h.dinode_eq hi]
  exact ⟨rfl, rfl⟩

theorem isize_spec {fail : Abort → Prop} (h : s.Ok) (hi : 0 < (s.inodes i).ref) :
    wp (isize i) (fun n s' => s' = s ∧ n = (s.objOf i).size) fail s := by
  rw [isize, wp_read, h.dinode_eq hi]
  exact ⟨rfl, rfl⟩

/-! ### Reading and writing -/

theorem iread_effects (h : s.Ok) (hi : 0 < (s.inodes i).ref) (off len : ℕ) :
    wp (iread i off len) (fun bs s' => s'.Ok ∧ Effects s.state [.grow] s'.state ∧
      bs = (s.objOf i).bytes.slice off (min len ((s.objOf i).size - off)))
      (fun e => e ≠ .badType) s := by
  refine (iread_spec h.holds hi rfl off len).mono ?_ ?_
  · rintro bs s' ⟨D', I', hh, hg, rfl, -⟩
    obtain ⟨hok, heff⟩ := h.effects hh (Effects.single (.grow hg) hh.2)
    exact ⟨hok, heff, rfl⟩
  · intro e he
    rcases ReadAbort.of_stop he with ⟨rfl, -⟩ | ⟨rfl, -⟩ <;> simp

/-- What `iwrite` does to the object. -/
def Obj.write (o : Obj) (off : ℕ) (buf : List UInt8) : Obj :=
  { o with size := max o.size (off + buf.length), bytes := o.bytes.splice off buf }

theorem iwrite_effects (h : s.Ok) (hi : 0 < (s.inodes i).ref) (hno : (s.inodes i).no = no)
    (htype : (s.objOf i).type = TYPE_FILE) (off : ℕ) (buf : List UInt8) :
    wp (iwrite i off buf) (fun r s' => s'.Ok ∧
      ((r = -1 ∧ (s.objOf i).size < off ∧ s'.state = s.state) ∨
        (r = buf.length ∧ off ≤ (s.objOf i).size ∧ Effects s.state [.wrote no] s'.state ∧
          obj s'.disk.bytes no = (s.objOf i).write off buf))) (fun e => e ≠ .badType) s := by
  have hobj : s.objOf i = obj s.disk.bytes no := by rw [Fs.objOf, hno]
  rw [hobj] at htype ⊢
  refine (iwrite_spec h.holds hi hno (by rw [htype]; decide) off buf).mono ?_ ?_
  · rintro r s' (⟨rfl, hbig, hh⟩ | ⟨rfl, hle, D', I', hh, ht, -, -, hput, -⟩)
    · have hstate : s'.state = s.state := hh.state_eq
      obtain ⟨hok, -⟩ := h.effects hh (Lts.Run.refl s.state)
      exact ⟨hok, Or.inl ⟨rfl, hbig, hstate⟩⟩
    · obtain ⟨hok, heff⟩ := h.effects hh (Effects.single (.wrote hi hno
        (by rw [htype]; decide) ht (by simp only [hput])) hh.2)
      refine ⟨hok, Or.inr ⟨rfl, hle, heff, ?_⟩⟩
      rw [hh.1.bytes]
      exact hput
  · rintro e ⟨-, hstop⟩
    obtain ⟨-, ⟨rfl, -⟩ | ⟨rfl, -⟩⟩ := write_abort hstop <;> simp

theorem itrunc_effects {fail : Abort → Prop} (h : s.Ok) (hi : 0 < (s.inodes i).ref)
    (hno : (s.inodes i).no = no) (htype : (s.objOf i).type ≠ TYPE_DIR) :
    wp (itrunc i) (fun _ s' => s'.Ok ∧ Effects s.state [.wrote no] s'.state ∧
      (obj s'.disk.bytes no).size = 0) fail s := by
  rw [Fs.objOf, hno] at htype
  refine (itrunc_spec h.holds hi hno).imp ?_
  rintro - s' ⟨D', I', hh, hs, ht, hobj⟩
  obtain ⟨hok, heff⟩ := h.effects hh
    (Effects.single (.truncated hi hno htype hs ht (by simp only [hobj])) hh.2)
  refine ⟨hok, heff, ?_⟩
  rw [hh.1.bytes, hobj]

/-! ### Removing -/

/-- What `iremove` returns, and its effects. -/
inductive Removing (s s' : Fs) (cwd : ℕ) (path : List UInt8) : ℤ → List FsEvent → Prop
  | failed : ¬ (ns s.disk.bytes s.inodes).Removable cwd path → Removing s s' cwd path (-1) [.grow]
  | removed {d e t : ℕ} {name : List UInt8} {j k : InodePtr} :
      Unlinked s.disk.bytes s.inodes s'.disk.bytes s'.inodes cwd path d e t name j k →
      Removing s s' cwd path 0
        [.opened j d, .opened k t, .grow, .unlinked d e t k, .closed j d, .closed k t]

theorem iremove_effects (h : s.Ok) (hc : 0 < (s.inodes c).ref) (hcwd : (s.inodes c).no = cwd)
    (h0 : (0 : UInt8) ∉ path) :
    wp (iremove (some c) path) (fun r s' => s'.Ok ∧ ∃ evs, Effects s.state evs s'.state ∧
      Removing s s' cwd path r evs) (DirAbort s.disk.bytes s.inodes 2) s := by
  refine (iremove_spec h.holds h.inv hc hcwd h0).imp ?_
  rintro r s' ⟨D', I', hh, ⟨rfl, hg, -, hnot⟩ | ⟨rfl, d, e, t, name, j, k, hu⟩⟩
  · obtain ⟨hok, heff⟩ := h.effects hh (Effects.single (.grow hg) hh.2)
    exact ⟨hok, _, heff, .failed hnot⟩
  · obtain ⟨hok, heff⟩ := h.effects hh hu.effects
    refine ⟨hok, _, heff, @Removing.removed _ _ _ _ d e _ name _ _ ?_⟩
    rw [hh.1.bytes, hh.1.inodes]
    exact hu

end Oslab
