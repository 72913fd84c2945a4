/-
# Directories as lists of entries

A directory is a file of 32-byte entries. This file reads an object as such a
list, without the disk: the entry with a number, the first entry with a name,
the first one that is not in use, and an entry written. Paths are then resolved
in a map from inode numbers to objects, element by element.
-/
import Mathlib.Data.List.TakeWhile
import Oslab.InodeSpec

namespace Oslab

open Lib

/-! ### Names -/

theorem cstr_length_lt {bs : List UInt8} (h : (0 : UInt8) ∈ bs) : (cstr bs).length < bs.length := by
  induction bs with
  | nil => cases h
  | cons b bs ih =>
    by_cases hb : b = 0
    · simp [cstr, hb]
    · have hmem : (0 : UInt8) ∈ bs := by
        rcases List.mem_cons.mp h with h | h
        · exact (hb h.symm).elim
        · exact h
      simpa [cstr, hb] using ih hmem

/-- The string copied is the string the array holds. -/
theorem cstr_strcpy {src : List UInt8} (dst : List UInt8) (h : (0 : UInt8) ∉ src) :
    cstr (strcpy dst src) = src := by
  unfold cstr strcpy
  rw [List.takeWhile_append_of_pos fun b hb => ?_]
  · simp
  · simpa using fun h0 : b = 0 => h (h0 ▸ hb)

theorem length_strcpy {dst src : List UInt8} (h : src.length < dst.length) :
    (strcpy dst src).length = dst.length := by
  simp only [strcpy, List.length_append, List.length_cons, List.length_drop]
  omega

theorem mem_strcpy (dst src : List UInt8) : (0 : UInt8) ∈ strcpy dst src := by simp [strcpy]

/-! ### Entries -/

namespace Dirent

@[simp] theorem length_bytes {d : Dirent} (h : d.name.length = 28) : d.bytes.length = 32 := by
  simp [bytes, h]

@[simp] theorem length_ofMem (m : Mem) (a : ℕ) : (ofMem m a).name.length = 28 := by
  simp [ofMem]

theorem ofMem_congr {m m' : Mem} {a b : ℕ} (h : ∀ k < 32, m (a + k) = m' (b + k)) :
    ofMem m a = ofMem m' b := by
  have hword : m.word a = m'.word b := Mem.word_congr fun k hk => h k (by omega)
  have hname : m.slice (a + 4) 28 = m'.slice (b + 4) 28 := Mem.slice_congr fun k hk => by
    rw [Nat.add_assoc, Nat.add_assoc, h (4 + k) (by omega)]
  simp only [ofMem, hword]
  exact congrArg _ hname

theorem ofMem_splice {d : Dirent} (h : d.name.length = 28) (m : Mem) (a : ℕ) :
    ofMem (m.splice a d.bytes) a = d := by
  have hname : (m.splice a d.bytes).slice (a + 4) 28 = d.name := by
    rw [bytes, Mem.splice_append, Mem.length_wordBytes, ← h]
    exact Mem.slice_splice_self
  have hword : (m.splice a d.bytes).word a = d.inode := by
    rw [bytes, Mem.splice_append, Mem.word_splice_out (by simp)]
    exact Mem.word_splice_self _
  unfold ofMem
  rw [hword]
  exact congrArg (Dirent.mk d.inode) hname

/-- An entry read from a file replaces the whole local variable. -/
theorem overlay_slice (d : Dirent) (m : Mem) (a : ℕ) : d.overlay (m.slice a 32) = ofMem m a :=
  ofMem_congr fun k hk => by
    have hlen : k < (m.slice a 32).length := by simpa using hk
    rw [Mem.splice_in hlen, Mem.getElem_slice]

end Dirent

namespace Obj

variable {o : Obj} {e e' n no : ℕ} {d : Dirent} {name : List UInt8}

/-- Entry `e` of a directory. -/
def entry (o : Obj) (e : ℕ) : Dirent := Dirent.ofMem o.bytes (32 * e)

/-- The number of entries of a directory, those not in use included. -/
def count (o : Obj) : ℕ := o.size / 32

/-- The inode entry `e` names. -/
def target (o : Obj) (e : ℕ) : ℕ := (o.entry e).inode.toNat

/-- The name in entry `e`. -/
def label (o : Obj) (e : ℕ) : List UInt8 := cstr (o.entry e).name

/-- Entry `e` is in use and carries the name. -/
def hits (o : Obj) (name : List UInt8) (e : ℕ) : Bool := o.target e ≠ 0 ∧ o.label e = name

/-- The first entry with the name among the `n` from entry `e` on. -/
def findFrom (o : Obj) (name : List UInt8) (e n : ℕ) : Option ℕ :=
  (List.range' e n).find? (o.hits name)

/-- The first entry not in use among the `n` from entry `e` on, or the one after them. -/
def holeFrom (o : Obj) (e n : ℕ) : ℕ :=
  ((List.range' e n).find? fun e => o.target e = 0).getD (e + n)

/-- The first entry with the name. -/
def find (o : Obj) (name : List UInt8) : Option ℕ := o.findFrom name 0 o.count

/-- The entry a new name is written to. -/
def hole (o : Obj) : ℕ := o.holeFrom 0 o.count

/-- Write entry `e`. -/
def put (o : Obj) (e : ℕ) (d : Dirent) : Obj :=
  { o with size := max o.size (32 * e + 32), bytes := o.bytes.splice (32 * e) d.bytes }

theorem entry_put_self (h : d.name.length = 28) : (o.put e d).entry e = d :=
  Dirent.ofMem_splice h _ _

theorem entry_put_of_ne (h : d.name.length = 28) (hne : e' ≠ e) :
    (o.put e d).entry e' = o.entry e' :=
  Dirent.ofMem_congr fun k hk => Mem.splice_out (by rw [Dirent.length_bytes h]; omega)

theorem target_put_of_ne (h : d.name.length = 28) (hne : e' ≠ e) :
    (o.put e d).target e' = o.target e' := by rw [target, entry_put_of_ne h hne, target]

theorem label_put_of_ne (h : d.name.length = 28) (hne : e' ≠ e) :
    (o.put e d).label e' = o.label e' := by rw [label, entry_put_of_ne h hne, label]

theorem target_put_self (h : d.name.length = 28) : (o.put e d).target e = d.inode.toNat := by
  rw [target, entry_put_self h]

theorem label_put_self (h : d.name.length = 28) : (o.put e d).label e = cstr d.name := by
  rw [label, entry_put_self h]

theorem count_put (h : 32 ∣ o.size) : (o.put e d).count = max o.count (e + 1) := by
  obtain ⟨n, hn⟩ := h
  simp only [count, put, hn]
  omega

theorem size_put_dvd (h : 32 ∣ o.size) : 32 ∣ (o.put e d).size := by
  obtain ⟨n, hn⟩ := h
  simp only [put, hn]
  exact ⟨max n (e + 1), by omega⟩

theorem findFrom_succ : o.findFrom name e (n + 1) =
    if o.hits name e then some e else o.findFrom name (e + 1) n := by
  rw [findFrom, List.range'_succ, List.find?_cons]
  cases o.hits name e <;> rfl

theorem holeFrom_succ : o.holeFrom e (n + 1) =
    if o.target e = 0 then e else o.holeFrom (e + 1) n := by
  rw [holeFrom, List.range'_succ, List.find?_cons]
  by_cases h : o.target e = 0
  · simp [h]
  · simp [h, holeFrom, show e + (n + 1) = e + 1 + n by omega]

theorem find_eq_some (h : o.find name = some e) :
    e < o.count ∧ o.target e ≠ 0 ∧ o.label e = name ∧
      ∀ e' < e, o.target e' ≠ 0 → o.label e' ≠ name := by
  obtain ⟨hm, hmem, hbefore⟩ := List.find?_range'_eq_some.mp h
  simp only [hits, decide_eq_true_eq] at hm
  refine ⟨by simpa using hmem, hm.1, hm.2, fun e' he' ht hl => ?_⟩
  have := hbefore e' (Nat.zero_le _) he'
  simp [hits, ht, hl] at this

theorem find_eq_none : o.find name = none ↔ ∀ e < o.count, o.target e ≠ 0 → o.label e ≠ name := by
  simp only [find, findFrom, List.find?_eq_none, List.mem_range'_1, hits, decide_eq_true_eq,
    not_and]
  exact forall_congr' fun e => ⟨fun h he => h ⟨Nat.zero_le _, by omega⟩, fun h he => h (by omega)⟩

theorem hole_le : o.hole ≤ o.count := by
  unfold hole holeFrom
  cases h : (List.range' 0 o.count).find? fun e => o.target e = 0 with
  | none => simp
  | some e =>
    have := List.mem_of_find?_eq_some h
    simp at this ⊢
    omega

theorem target_hole (h : o.hole < o.count) : o.target o.hole = 0 := by
  unfold hole holeFrom at h ⊢
  cases hf : (List.range' 0 o.count).find? fun e => o.target e = 0 with
  | none => simp [hf] at h
  | some e => simpa using List.find?_some hf

end Obj

/-! ### Resolving paths -/

/-- Walk from directory `no` to the directory of the last element of the path: its inode
number and that element. -/
def walk (objs : ℕ → Obj) : ℕ → ℕ → List UInt8 → Option (ℕ × List UInt8)
  | 0, _, _ => none
  | fuel + 1, no, path =>
    match skipelem path with
    | none => none
    | some (rest, name) =>
      if (objs no).type ≠ TYPE_DIR then none
      else if rest = [] then some (no, name)
      else
        match (objs no).find name with
        | none => none
        | some e => walk objs fuel ((objs no).target e) rest

/-- The directory of the last element of a path, and that element. -/
def resolveParent (objs : ℕ → Obj) (cwd : ℕ) (path : List UInt8) : Option (ℕ × List UInt8) :=
  walk objs (path.length + 1) (if path.head? = some SLASH then 1 else cwd) path

/-- The inode number of a path. -/
def resolve (objs : ℕ → Obj) (cwd : ℕ) (path : List UInt8) : Option ℕ :=
  if skipelem path = none then
    if path.head? = some SLASH then some 1 else none
  else
    match resolveParent objs cwd path with
    | none => none
    | some (d, name) => ((objs d).find name).map (objs d).target

/-- A name that can be an element of a path: neither empty nor with a slash, and not cut. -/
structure Elem (name : List UInt8) : Prop where
  ne : name ≠ []
  slash : SLASH ∉ name
  length : name.length ≤ 27
  zero : (0 : UInt8) ∉ name

/-- An element is at most 27 bytes of the path, and the rest of the path is shorter. -/
theorem skipelem_some {path rest name : List UInt8} (h : skipelem path = some (rest, name))
    (h0 : (0 : UInt8) ∉ path) :
    Elem name ∧ (0 : UInt8) ∉ rest ∧ rest.length < path.length := by
  unfold skipelem at h
  simp only at h
  split at h
  case isTrue => cases h
  case isFalse hne =>
    simp only [Option.some.injEq, Prod.mk.injEq] at h
    obtain ⟨rfl, rfl⟩ := h
    have hp := List.dropWhile_suffix (l := path) (· = SLASH)
    have hhead := List.head?_dropWhile_not (· = SLASH) path
    cases hq : path.dropWhile (· = SLASH) with
    | nil => exact (hne hq).elim
    | cons b q =>
      rw [hq] at hp hhead
      -- the first byte after the slashes belongs to the element, not to the rest
      have hb : (b :: q).dropWhile (· ≠ SLASH) = q.dropWhile (· ≠ SLASH) := by
        rw [List.dropWhile_cons_of_pos]
        simpa using hhead
      have hrest : ((b :: q).dropWhile (· ≠ SLASH)).dropWhile (· = SLASH) <:+ q := by
        rw [hb]
        exact (List.dropWhile_suffix _).trans (List.dropWhile_suffix _)
      have hsub : ((b :: q).takeWhile (· ≠ SLASH)).take MAX_NAME ⊆
          (b :: q).takeWhile (· ≠ SLASH) := fun x hx => List.take_subset _ _ hx
      refine ⟨⟨?_, ?_, List.length_take_le _ _, ?_⟩, ?_, ?_⟩
      · rw [List.takeWhile_cons_of_pos (by simpa using hhead)]
        simp
      · intro hx
        simpa using List.mem_takeWhile_imp (hsub hx)
      · exact fun hx => h0 (hp.subset ((List.takeWhile_sublist _).subset (hsub hx)))
      · exact fun hx => h0 (hp.subset (List.mem_cons_of_mem b (hrest.subset hx)))
      · exact Nat.lt_of_le_of_lt hrest.length_le (Nat.lt_of_lt_of_le (Nat.lt_succ_self _)
          hp.length_le)

end Oslab
