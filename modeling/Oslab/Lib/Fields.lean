/-
# Splitting a list into its fields

The fields of a list are its longest runs of elements that are no separators.
A scanner that skips separators and then takes a run reads them one by one.
-/
import Mathlib.Data.List.TakeWhile
import Mathlib.Tactic

namespace Oslab.Lib

variable {α : Type} {sep : α → Bool} {x : α} {xs run rest : List α}

/-- The longest runs without a separator that are not empty, in order. -/
def fields (sep : α → Bool) (xs : List α) : List (List α) := (xs.splitOnP sep).filter (!·.isEmpty)

@[simp] theorem fields_nil : fields sep [] = [] := by simp [fields, List.splitOnP_nil]

theorem fields_sep (hx : sep x = true) (xs : List α) : fields sep (x :: xs) = fields sep xs := by
  have h := List.splitOnP_append_cons [] xs hx
  rw [List.nil_append, List.splitOnP_nil] at h
  unfold fields
  rw [h]
  simp

theorem fields_run_only (hrun : ∀ y ∈ run, sep y = false) (hne : run ≠ []) :
    fields sep run = [run] := by
  unfold fields
  rw [List.splitOnP_eq_singleton hrun]
  simp [hne]

/-- A run that a separator follows is one field. -/
theorem fields_run_sep (hrun : ∀ y ∈ run, sep y = false) (hne : run ≠ []) (hx : sep x = true)
    (xs : List α) : fields sep (run ++ x :: xs) = run :: fields sep xs := by
  unfold fields
  rw [List.splitOnP_append_cons_of_forall_mem hrun x hx]
  simp [hne]

/-- A run up to a separator or to the end is one field. -/
theorem fields_run (hrun : ∀ y ∈ run, sep y = false) (hne : run ≠ [])
    (hrest : ∀ y, rest.head? = some y → sep y = true) :
    fields sep (run ++ rest) = run :: fields sep rest := by
  cases rest with
  | nil => rw [List.append_nil, fields_run_only hrun hne, fields_nil]
  | cons y rest =>
    have hy := hrest y rfl
    rw [fields_run_sep hrun hne hy, fields_sep hy]

theorem fields_dropWhile (xs : List α) : fields sep (xs.dropWhile sep) = fields sep xs := by
  induction xs with
  | nil => rfl
  | cons x xs ih =>
    by_cases hx : sep x = true
    · rw [List.dropWhile_cons_of_pos hx, ih, fields_sep hx]
    · rw [List.dropWhile_cons_of_neg hx]

/-- Skip separators: there are no fields when nothing is left. -/
theorem fields_eq_nil (h : xs.dropWhile sep = []) : fields sep xs = [] := by
  rw [← fields_dropWhile, h, fields_nil]

theorem head_dropWhile (h : xs.dropWhile sep = x :: rest) : sep x = false := by
  have hhead := List.head?_dropWhile_not sep xs
  rw [h] at hhead
  simpa using hhead

/-- Skip separators, take a run: the run is the first field and the rest holds the others. -/
theorem fields_eq_cons (h : xs.dropWhile sep ≠ []) :
    fields sep xs = (xs.dropWhile sep).takeWhile (!sep ·) ::
      fields sep ((xs.dropWhile sep).dropWhile (!sep ·)) := by
  rw [← fields_dropWhile]
  cases hys : xs.dropWhile sep with
  | nil => exact (h hys).elim
  | cons y ys =>
    have hy := head_dropWhile hys
    conv_lhs => rw [← List.takeWhile_append_dropWhile (p := (!sep ·)) (l := y :: ys)]
    apply fields_run
    · intro z hz
      simpa using List.mem_takeWhile_imp hz
    · rw [List.takeWhile_cons_of_pos (by simpa using hy)]
      simp
    · intro z hz
      have hhead := List.head?_dropWhile_not (!sep ·) (y :: ys)
      rw [hz] at hhead
      simpa using hhead

theorem fields_eq_nil_iff : fields sep xs = [] ↔ xs.dropWhile sep = [] := by
  constructor
  · intro h
    by_contra hne
    rw [fields_eq_cons hne] at h
    cases h
  · exact fields_eq_nil

/-- A field is not empty, holds no separator, and is a part of the list. -/
theorem of_mem_fields (h : run ∈ fields sep xs) :
    run ≠ [] ∧ (∀ y ∈ run, sep y = false) ∧ run <:+: xs := by
  generalize hn : xs.length = n
  induction n using Nat.strong_induction_on generalizing xs with
  | _ n ih =>
    by_cases hys : xs.dropWhile sep = []
    · rw [fields_eq_nil hys] at h
      cases h
    · rw [fields_eq_cons hys] at h
      obtain ⟨y, ys, hcons⟩ := List.exists_cons_of_ne_nil hys
      have hy := head_dropWhile hcons
      have hsuf : y :: ys <:+ xs := hcons ▸ List.dropWhile_suffix sep
      rw [hcons] at h
      obtain rfl | htail := List.mem_cons.mp h
      · refine ⟨?_, fun z hz => by simpa using List.mem_takeWhile_imp hz,
          (List.takeWhile_prefix _).isInfix.trans hsuf.isInfix⟩
        rw [List.takeWhile_cons_of_pos (by simpa using hy)]
        simp
      · -- the run that was taken is not empty
        rw [List.dropWhile_cons_of_pos (by simpa using hy)] at htail
        have hle := hsuf.length_le
        have hle' := (List.dropWhile_suffix (l := ys) (!sep ·)).length_le
        rw [List.length_cons] at hle
        obtain ⟨hne, hall, hinfix⟩ := ih _ (by omega) htail rfl
        have hrest : ys.dropWhile (!sep ·) <:+ xs :=
          (List.dropWhile_suffix _).trans ((List.suffix_cons y ys).trans hsuf)
        exact ⟨hne, hall, hinfix.trans hrest.isInfix⟩

end Oslab.Lib
