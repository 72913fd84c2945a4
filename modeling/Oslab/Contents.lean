/-
# Contents

What there is to see of an inode is a string of bytes. Reading, writing and cutting
open inodes, in any order, does to these strings what it says: blocks, indirect
blocks, the cache and the copies of inodes in memory are not seen.
-/
import Oslab.Runs

namespace Oslab

open Lib Lib.Prog

/-! ### Strings of bytes -/

section Content

variable {o : Obj} {off size : ℕ} {buf : List UInt8}

@[simp] theorem Obj.length_content : o.content.length = o.size := Mem.length_slice

theorem Obj.read_content :
    (o.content.drop off).take size = o.bytes.slice off (min size (o.size - off)) := by
  rw [Obj.content, Mem.slice_drop, Nat.zero_add]
  by_cases hle : size ≤ o.size - off
  · rw [Mem.slice_take hle, min_eq_left hle]
  · rw [List.take_of_length_le (by rw [Mem.length_slice]; omega), min_eq_right (by omega)]

theorem Obj.write_content (hoff : off ≤ o.size) : (o.write off buf).content =
    o.content.take off ++ buf ++ o.content.drop (off + buf.length) := by
  have hmax : max o.size (off + buf.length) = off + (buf.length + (o.size - (off + buf.length))) := by
    omega
  have hleft : (o.bytes.splice off buf).slice 0 off = o.content.take off := by
    rw [Obj.content, Mem.slice_take hoff]
    exact Mem.slice_splice_out (Or.inl (by omega))
  have hright : (o.bytes.splice off buf).slice (off + buf.length) (o.size - (off + buf.length)) =
      o.content.drop (off + buf.length) := by
    rw [Obj.content, Mem.slice_drop, Nat.zero_add]
    exact Mem.slice_splice_out (Or.inr le_rfl)
  rw [Obj.content, Obj.write]
  simp only [hmax]
  rw [Mem.slice_add, Mem.slice_add, Nat.zero_add, hleft, Mem.slice_splice_self, hright,
    List.append_assoc]

end Content

/-! ### Calls -/

/-- A call on the data of an inode. -/
inductive DataCall (ι : Type)
  | iread (i : ι) (off len : ℕ)
  | iwrite (i : ι) (off : ℕ) (buf : List UInt8)
  | itrunc (i : ι)

/-- What a call gives its caller. -/
inductive DataReply
  | bytes (bs : List UInt8)
  | int (r : ℤ)
  | done

namespace DataCall

variable {ι : Type}

def run (slot : ι → InodePtr) : DataCall ι → FsM DataReply
  | .iread i off len => do
    let bs ← Oslab.iread (slot i) off len
    pure (.bytes bs)
  | .iwrite i off buf => do
    let r ← Oslab.iwrite (slot i) off buf
    pure (.int r)
  | .itrunc i => do
    Oslab.itrunc (slot i)
    pure .done

def runAll (slot : ι → InodePtr) : List (DataCall ι) → FsM (List DataReply)
  | [] => pure []
  | c :: calls => do
    let r ← c.run slot
    let rs ← runAll slot calls
    pure (r :: rs)

/-- Why a call stops: a read walks to the block behind the bytes it gets, and a write to those it
puts. -/
def stop (slot : ι → InodePtr) (s : Fs) : DataCall ι → Option Abort
  | .iread i off len =>
    let no := (s.inodes (slot i)).no
    walkStop s.disk.bytes no (off / BLK_SIZE)
      ((off + min len ((obj s.disk.bytes no).size - off)) / BLK_SIZE + 1)
  | .iwrite i off buf =>
    let no := (s.inodes (slot i)).no
    if (obj s.disk.bytes no).size < off then none else writeStop s.disk.bytes no off buf.length
  | .itrunc _ => none

/-- The calls stop at one of them, for a reason it has in the state it is made in. -/
inductive Stops (slot : ι → InodePtr) : List (DataCall ι) → Fs → Abort → Prop
  | here {c : DataCall ι} {calls : List (DataCall ι)} {s : Fs} {e : Abort} :
      c.stop slot s = some e → Stops slot (c :: calls) s e
  | later {c : DataCall ι} {calls : List (DataCall ι)} {s s' : Fs} {r : DataReply} {e : Abort} :
      c.run slot s = .ok (r, s') → Stops slot calls s' e → Stops slot (c :: calls) s e

/-- The call on strings, with what it gives. -/
def onStrings (key : ι → ℕ) : DataCall ι → (ℕ → List UInt8) → DataReply × (ℕ → List UInt8)
  | .iread i off len, c => (.bytes (((c (key i)).drop off).take len), c)
  | .iwrite i off buf, c =>
    if (c (key i)).length < off then (.int (-1), c)
    else (.int buf.length, Function.update c (key i)
      ((c (key i)).take off ++ buf ++ (c (key i)).drop (off + buf.length)))
  | .itrunc i, c => (.done, Function.update c (key i) [])

def onStringsAll (key : ι → ℕ) :
    List (DataCall ι) → (ℕ → List UInt8) → List DataReply × (ℕ → List UInt8)
  | [], c => ([], c)
  | call :: calls, c =>
    let (r, c) := call.onStrings key c
    let (rs, c) := onStringsAll key calls c
    (r :: rs, c)

end DataCall

/-- The strings on the disk, by inode number. -/
def Fs.contents (s : Fs) : ℕ → List UInt8 := fun no => (objs s.disk.bytes no).content

/-- The slots of open inodes. -/
abbrev OpenSlot (s : Fs) : Type := {i : InodePtr // 0 < (s.inodes i).ref}

/-! ### Calls refine calls on strings -/

section Refinement

variable {s s' : Fs} {ι : Type} {slot : ι → InodePtr} {key : ι → ℕ}

/-- The file system is sound for blocks and inodes, and the slots are open. -/
structure Fs.Serves (s : Fs) (slot : ι → InodePtr) (key : ι → ℕ) : Prop where
  holds : s.Holds s.disk.bytes s.inodes
  live : ∀ i, 0 < (s.inodes (slot i)).ref
  no : ∀ i, (s.inodes (slot i)).no = key i
  type : ∀ i, (obj s.disk.bytes (key i)).type ≠ TYPE_NONE

/-- What a call leaves alone. -/
structure Fs.Leaves (s s' : Fs) : Prop where
  slots : SameSlots s.inodes s'.inodes
  type : ∀ no, (objs s'.disk.bytes no).type = (objs s.disk.bytes no).type
  device : ∀ no, (objs s'.disk.bytes no).device = (objs s.disk.bytes no).device

theorem Fs.Leaves.refl (s : Fs) : s.Leaves s := ⟨.refl _, fun _ => rfl, fun _ => rfl⟩

theorem Fs.Leaves.trans {s'' : Fs} (h : s.Leaves s') (h' : s'.Leaves s'') : s.Leaves s'' where
  slots := h.slots.trans h'.slots
  type no := (h'.type no).trans (h.type no)
  device no := (h'.device no).trans (h.device no)

theorem Fs.Serves.lt (h : s.Serves slot key) (i : ι) : key i < 1920 :=
  h.no i ▸ (h.holds.2.live _ (h.live i)).1

/-- The slots are still open after a call. -/
theorem Fs.Serves.next (h : s.Serves slot key) (hholds : s'.Holds s'.disk.bytes s'.inodes)
    (hleaves : s.Leaves s') : s'.Serves slot key where
  holds := hholds
  live i := hleaves.slots.live.mpr (h.live i)
  no i := (hleaves.slots.no_eq (h.live i)).trans (h.no i)
  type i := by
    have htype := hleaves.type (key i)
    rw [objs_of_lt (h.lt i), objs_of_lt (h.lt i)] at htype
    rw [htype]
    exact h.type i

/-- Nothing is seen of a call that changes no object. -/
theorem leaves_of_objs (hslots : SameSlots s.inodes s'.inodes)
    (hobjs : objs s'.disk.bytes = objs s.disk.bytes) : s.Leaves s' ∧ s'.contents = s.contents := by
  refine ⟨⟨hslots, fun no => by rw [hobjs], fun no => by rw [hobjs]⟩, ?_⟩
  unfold Fs.contents
  rw [hobjs]

/-- One string changes. -/
theorem leaves_of_update {no : ℕ} {o : Obj} (hno : no < 1920)
    (hslots : SameSlots s.inodes s'.inodes) (htype : o.type = (obj s.disk.bytes no).type)
    (hdevice : o.device = (obj s.disk.bytes no).device) (hself : obj s'.disk.bytes no = o)
    (hother : ∀ no' < 1920, no' ≠ no → obj s'.disk.bytes no' = obj s.disk.bytes no') :
    s.Leaves s' ∧ s'.contents = Function.update s.contents no o.content := by
  have hobjs (no' : ℕ) : objs s'.disk.bytes no' = Function.update (objs s.disk.bytes) no o no' := by
    by_cases hne : no' = no
    · rw [hne, Function.update_self, objs_of_lt hno, hself]
    · rw [Function.update_of_ne hne]
      by_cases hlt : no' < 1920
      · rw [objs_of_lt hlt, objs_of_lt hlt, hother no' hlt hne]
      · rw [objs, if_neg hlt, objs, if_neg hlt]
  have hsame (f : Obj → UInt32) (hf : f o = f (obj s.disk.bytes no)) (no' : ℕ) :
      f (objs s'.disk.bytes no') = f (objs s.disk.bytes no') := by
    rw [hobjs]
    by_cases hne : no' = no
    · rw [hne, Function.update_self, objs_of_lt hno, hf]
    · rw [Function.update_of_ne hne]
  refine ⟨⟨hslots, hsame Obj.type htype, hsame Obj.device hdevice⟩, ?_⟩
  funext no'
  change (objs s'.disk.bytes no').content = _
  rw [hobjs]
  by_cases hne : no' = no
  · rw [hne, Function.update_self, Function.update_self]
  · rw [Function.update_of_ne hne, Function.update_of_ne hne]
    rfl

/-- One call. -/
theorem run_onStrings (h : s.Serves slot key) (c : DataCall ι) :
    wp (c.run slot) (fun r s' => s'.Serves slot key ∧ s.Leaves s' ∧
      (r, s'.contents) = c.onStrings key s.contents ∧ c.stop slot s = none)
      (fun e => c.stop slot s = some e) s := by
  have hcontent (i : ι) : s.contents (key i) = (obj s.disk.bytes (key i)).content := by
    rw [Fs.contents, objs_of_lt (h.lt i)]
  cases c with
  | iread i off len =>
    rw [DataCall.run, wp_bind]
    refine (iread_spec h.holds (h.live i) (h.no i) off len).mono ?_ ?_
    · intro bs s' hs'
      obtain ⟨D', I', hh, hg, hbs, -, hnone⟩ := hs'
      obtain rfl : s'.disk.bytes = D' := hh.1.bytes
      obtain rfl : s'.inodes = I' := hh.1.inodes
      -- a read may fill holes with new blocks, which no string shows
      obtain ⟨hleaves, hsame⟩ := leaves_of_objs hg.slots
        (objs_congr fun no hno => (hg.kept no hno).obj)
      rw [wp_pure]
      refine ⟨h.next hh hleaves, hleaves, ?_, ?_⟩
      · rw [DataCall.onStrings, hsame, hcontent, Obj.read_content, hbs]
        rfl
      · rw [DataCall.stop, h.no]
        exact hnone
    · intro e he
      rw [DataCall.stop, h.no]
      exact he
  | iwrite i off buf =>
    rw [DataCall.run, wp_bind]
    refine (iwrite_spec h.holds (h.live i) (h.no i) (h.type i) off buf).mono ?_ ?_
    · intro r s' hs'
      rw [wp_pure, DataCall.onStrings, hcontent, Obj.length_content, DataCall.stop, h.no]
      rcases hs' with ⟨rfl, hbig, hh⟩ | ⟨rfl, hle, D', I', hh, ht, -, -, hobj, hnone⟩
      -- an offset behind the end is refused, and nothing is written
      · rw [if_pos hbig]
        have hstate := hh.state_eq
        rw [Fs.state, Prod.mk.injEq] at hstate
        obtain ⟨hbytes, hinodes⟩ := hstate
        obtain ⟨hleaves, hsame⟩ := leaves_of_objs (hinodes ▸ SameSlots.refl _) (congrArg objs hbytes)
        refine ⟨h.next ?_ hleaves, hleaves, by rw [hsame], if_pos hbig⟩
        rw [hbytes, hinodes]
        exact hh
      · rw [if_neg (Nat.not_lt.mpr hle)]
        obtain rfl : s'.disk.bytes = D' := hh.1.bytes
        obtain rfl : s'.inodes = I' := hh.1.inodes
        obtain ⟨hleaves, hnext⟩ := leaves_of_update
          (o := (obj s.disk.bytes (key i)).write off buf) (h.lt i) ht.slots rfl rfl hobj
          fun no' hno' hne => (ht.other no' hno' hne).obj
        refine ⟨h.next hh hleaves, hleaves, ?_, ?_⟩
        · rw [hnext, Obj.write_content hle]
        · exact (if_neg (Nat.not_lt.mpr hle)).trans hnone
    · intro e he
      obtain ⟨hle, hstop⟩ := he
      rw [DataCall.stop, h.no]
      exact (if_neg (Nat.not_lt.mpr hle)).trans hstop
  | itrunc i =>
    rw [DataCall.run, wp_bind]
    refine (itrunc_spec h.holds (h.live i) (h.no i)).imp ?_
    intro _ s' hs'
    obtain ⟨D', I', hh, hslots, ht, hobj⟩ := hs'
    obtain rfl : s'.disk.bytes = D' := hh.1.bytes
    obtain rfl : s'.inodes = I' := hh.1.inodes
    obtain ⟨hleaves, hnext⟩ := leaves_of_update
      (o := { obj s.disk.bytes (key i) with size := 0, bytes := fun _ => 0 }) (h.lt i) hslots rfl rfl
      hobj ht.other
    rw [wp_pure]
    refine ⟨h.next hh hleaves, hleaves, ?_, rfl⟩
    rw [hnext]
    rfl

/-- A sequence of calls, by induction on it. -/
theorem runAll_onStrings (h : s.Serves slot key) (calls : List (DataCall ι)) :
    wp (DataCall.runAll slot calls) (fun rs s' => s'.Serves slot key ∧ s.Leaves s' ∧
      (rs, s'.contents) = DataCall.onStringsAll key calls s.contents ∧
      ∀ e, ¬ DataCall.Stops slot calls s e) (DataCall.Stops slot calls s) s := by
  induction calls generalizing s with
  | nil =>
    refine ⟨h, .refl s, rfl, ?_⟩
    rintro e ⟨⟩
  | cons c calls ih =>
    rw [DataCall.runAll, wp_bind]
    refine ((run_onStrings h c).and (wp_self _ s)).mono ?_ ?_
    · intro r s₁ hs₁
      obtain ⟨⟨h₁, hleaves₁, heq₁, hnone⟩, hok⟩ := hs₁
      rw [wp_bind]
      refine (ih h₁).mono ?_ ?_
      · intro rs s₂ hs₂
        obtain ⟨h₂, hleaves₂, heq₂, hruns⟩ := hs₂
        rw [wp_pure]
        refine ⟨h₂, hleaves₁.trans hleaves₂, ?_, ?_⟩
        · simp only [DataCall.onStringsAll, ← heq₁, ← heq₂]
        · intro e hstops
          cases hstops with
          | here hstop =>
            rw [hnone] at hstop
            cases hstop
          | later hok' hlater =>
            rw [hok] at hok'
            cases hok'
            exact hruns e hlater
      · intro e hstops
        exact .later hok hstops
    · intro e hstop
      exact .here hstop.1

end Refinement

/-- **Files are strings of bytes.** From every state, a sequence of reads, writes and truncations
of open inodes returns what it returns on the strings, and leaves the strings it leaves there;
no inode changes its type, its device or its slot. It stops exactly at a call that walks to more
missing blocks than are free, or to a block that no file has. -/
theorem contents_refine (s : Running) (calls : List (DataCall (OpenSlot s.1.fs))) :
    wp (DataCall.runAll Subtype.val calls)
      (fun rs fs' => s.1.fs.Leaves fs' ∧ (rs, fs'.contents) =
          DataCall.onStringsAll (fun i => (s.1.fs.inodes i.1).no) calls s.1.fs.contents ∧
        ∀ e, ¬ DataCall.Stops Subtype.val calls s.1.fs e)
      (DataCall.Stops Subtype.val calls s.1.fs) s.1.fs := by
  have h := (reachable_inOrder s.2).tables
  have hserves : s.1.fs.Serves (Subtype.val : OpenSlot s.1.fs → InodePtr)
      fun i => (s.1.fs.inodes i.1).no :=
    ⟨h.fs.holds, fun i => i.2, fun _ => rfl, fun i => h.type_ne_none i.2⟩
  exact (runAll_onStrings hserves calls).imp fun rs fs' hfs' => hfs'.2

end Oslab
