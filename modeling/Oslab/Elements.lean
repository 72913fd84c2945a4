/-
# Splitting paths

`skipelem` with the array it writes the name to, called on its own result until it
returns null: the names are the components of the path, and the remainder is empty
on the last one.
-/
import Oslab.Lib.Fields
import Oslab.Directory

namespace Oslab

open Lib

/-- The components of a path: what is between its slashes, unless there is nothing. -/
def components (path : List UInt8) : List (List UInt8) := fields (· = SLASH) path

/-- `memcpy(name, s, len); name[len] = 0;` -/
def copyName (name s : List UInt8) (len : ℕ) : List UInt8 := s.take len ++ 0 :: name.drop (len + 1)

/-- `skipelem` with the array of its second argument: the returned pointer and the array. -/
def skipelemInto (path name : List UInt8) : Option (List UInt8) × List UInt8 :=
  let path := path.dropWhile (· = SLASH)
  if path = [] then (none, name)
  else
    let s := path
    let path := path.dropWhile (· ≠ SLASH)
    let len := s.length - path.length
    let name := if MAX_NAME ≤ len then copyName name s MAX_NAME else copyName name s len
    (some (path.dropWhile (· = SLASH)), name)

/-- What a call leaves: the remainder it returns and the array with the name. -/
structure Skipped where
  rest : List UInt8
  name : List UInt8

/-- The calls `path = skipelem(path, name)` up to the one that returns null, if it is among
the first `fuel`. -/
def skipelems : ℕ → List UInt8 → List UInt8 → Option (List Skipped)
  | 0, _, _ => none
  | fuel + 1, path, name =>
    match skipelemInto path name with
    | (none, _) => some []
    | (some rest, name) => (skipelems fuel rest name).map (⟨rest, name⟩ :: ·)

/-- The array holds the string, cut to `MAX_NAME` bytes, and a zero after it. -/
structure Skipped.Holds (call : Skipped) (elem : List UInt8) : Prop where
  length : call.name.length = MAX_NAME + 1
  name : elem.take MAX_NAME ++ [0] <+: call.name

section Skip

variable {path name rest elem : List UInt8} {elems : List (List UInt8)}

/-- The two branches of `skipelem` copy the first `MAX_NAME` bytes of the element. -/
theorem copyName_eq {s : List UInt8} (hs : s.take elem.length = elem) (name : List UInt8) :
    (if MAX_NAME ≤ elem.length then copyName name s MAX_NAME
      else copyName name s elem.length) = strcpy name (elem.take MAX_NAME) := by
  unfold copyName strcpy
  split
  case isTrue hlong =>
    rw [List.length_take_of_le hlong, ← hs, List.take_take, min_eq_left hlong]
  case isFalse hshort => rw [hs, List.take_of_length_le (show elem.length ≤ MAX_NAME by omega)]

/-- A path that does not end after its leading slashes. -/
theorem skipelemInto_eq (hne : path.dropWhile (· = SLASH) ≠ []) (name : List UInt8) :
    skipelemInto path name =
      (some (((path.dropWhile (· = SLASH)).dropWhile (· ≠ SLASH)).dropWhile (· = SLASH)),
        strcpy name (((path.dropWhile (· = SLASH)).takeWhile (· ≠ SLASH)).take MAX_NAME)) := by
  set q := path.dropWhile (· = SLASH) with hq
  have hsplit : q.takeWhile (· ≠ SLASH) ++ q.dropWhile (· ≠ SLASH) = q :=
    List.takeWhile_append_dropWhile
  have hlen : q.length - (q.dropWhile (· ≠ SLASH)).length = (q.takeWhile (· ≠ SLASH)).length := by
    have hlength := congrArg List.length hsplit
    rw [List.length_append] at hlength
    omega
  have htake : q.take (q.takeWhile (· ≠ SLASH)).length = q.takeWhile (· ≠ SLASH) :=
    List.prefix_iff_eq_take.mp (List.takeWhile_prefix _) |>.symm
  simp only [skipelemInto]
  rw [← hq, if_neg hne, hlen, copyName_eq htake]

theorem strcpy_holds (hname : name.length = MAX_NAME + 1) :
    Skipped.Holds ⟨rest, strcpy name (elem.take MAX_NAME)⟩ elem := by
  constructor
  · have hmin : (elem.take MAX_NAME).length ≤ MAX_NAME := List.length_take_le _ _
    simp only [strcpy, List.length_append, List.length_cons, List.length_drop]
    omega
  · exact ⟨name.drop ((elem.take MAX_NAME).length + 1), by simp [strcpy]⟩

/-- The walk along a path uses the string in the array. -/
theorem skipelem_eq_into (h0 : (0 : UInt8) ∉ path) (name : List UInt8) : skipelem path =
    (skipelemInto path name).1.map fun rest => (rest, cstr (skipelemInto path name).2) := by
  unfold skipelem
  by_cases hnil : path.dropWhile (· = SLASH) = []
  · simp [skipelemInto, hnil]
  · rw [skipelemInto_eq hnil]
    simp only
    rw [if_neg hnil, cstr_strcpy]
    · rfl
    · intro h
      exact h0 ((List.dropWhile_suffix _).subset
        ((List.takeWhile_sublist _).subset (List.take_subset _ _ h)))

/-- No component is left: null is returned, and the array stays as it is. -/
theorem skipelemInto_none (h : components path = []) (name : List UInt8) :
    skipelemInto path name = (none, name) := by
  have hnil := fields_eq_nil_iff.mp h
  unfold skipelemInto
  rw [if_pos hnil]

/-- The first component is written, and the remainder holds the others. -/
theorem skipelemInto_some (h : components path = elem :: elems) (hname : name.length = MAX_NAME + 1) :
    ∃ call : Skipped, skipelemInto path name = (some call.rest, call.name) ∧ call.Holds elem ∧
      components call.rest = elems ∧ (call.rest = [] ↔ elems = []) := by
  have hne : path.dropWhile (· = SLASH) ≠ [] := fun hnil => by
    rw [components, fields_eq_nil hnil] at h
    cases h
  rw [components, fields_eq_cons hne, List.cons.injEq] at h
  simp only [← decide_not] at h
  obtain ⟨helem, helems⟩ := h
  refine ⟨⟨_, _⟩, skipelemInto_eq hne name, ?_, ?_, ?_⟩
  · rw [← helem]
    exact strcpy_holds hname
  · rw [← helems, components, fields_dropWhile]
  · -- the remainder does not begin with a slash
    rw [← helems, fields_eq_nil_iff]

/-- A path with as many components as there are successful calls. -/
theorem skipelems_spec (elems : List (List UInt8)) {path name : List UInt8}
    (h : components path = elems) (hname : name.length = MAX_NAME + 1) :
    ∃ calls, (∀ fuel > calls.length, skipelems fuel path name = some calls) ∧
      List.Forall₂ Skipped.Holds calls elems ∧
      ∀ k (hk : k < calls.length), calls[k].rest = [] ↔ k + 1 = calls.length := by
  induction elems generalizing path name with
  | nil =>
    refine ⟨[], fun fuel hfuel => ?_, .nil, fun k hk => (Nat.not_lt_zero k hk).elim⟩
    obtain ⟨fuel, rfl⟩ := Nat.exists_eq_add_of_lt hfuel
    rw [skipelems, skipelemInto_none h]
  | cons elem elems ih =>
    obtain ⟨call, hcall, hholds, hrest, hlast⟩ := skipelemInto_some h hname
    obtain ⟨calls, hcalls, hall, hempty⟩ := ih hrest hholds.length
    refine ⟨call :: calls, fun fuel hfuel => ?_, .cons hholds hall, fun k hk => ?_⟩
    · cases fuel with
      | zero => cases hfuel
      | succ fuel =>
        rw [skipelems, hcall]
        simp only
        rw [hcalls fuel (Nat.lt_of_succ_lt_succ hfuel)]
        rfl
    · cases k with
      | zero =>
        have hlength := hall.length_eq
        rw [List.getElem_cons_zero, hlast, ← List.length_eq_zero_iff, ← hlength, List.length_cons]
        omega
      | succ k =>
        rw [List.getElem_cons_succ, hempty k (Nat.lt_of_succ_lt_succ hk), List.length_cons]
        omega

end Skip

/-- **Paths are split exactly.** The successful calls before the one that returns null are as
many as the path has components. They write the components in order, and return an empty
remainder on the last one only. -/
theorem skipelem_exact (path : CString) (name : List UInt8) (hname : name.length = MAX_NAME + 1) :
    ∃ calls, (∀ fuel > calls.length, skipelems fuel path name = some calls) ∧
      List.Forall₂ Skipped.Holds calls (components path) ∧
      ∀ k (hk : k < calls.length), calls[k].rest = [] ↔ k + 1 = calls.length :=
  skipelems_spec _ rfl hname

/-- The path `//a/bb/` and an array of zeros. -/
theorem skipelem_exact_slashes :
    ∃ calls, (∀ fuel > calls.length,
        skipelems fuel [47, 47, 97, 47, 98, 98, 47] (List.replicate 28 0) = some calls) ∧
      List.Forall₂ Skipped.Holds calls (components [47, 47, 97, 47, 98, 98, 47]) ∧
      ∀ k (hk : k < calls.length), calls[k].rest = [] ↔ k + 1 = calls.length :=
  skipelem_exact ⟨[47, 47, 97, 47, 98, 98, 47], by decide⟩ _ (by decide)

end Oslab
