/-
# Counting references

A table of optional pointers refers to each of its targets a number of times.
One entry set changes the counts of what it held and of what it holds now.
-/
import Mathlib.Tactic

namespace Oslab.Lib

variable {ι κ α : Type} [Fintype ι] [DecidableEq α]

/-- The number of entries that refer to `a`. -/
def refs (f : ι → Option α) (a : α) : ℤ := (Finset.univ.filter fun i => f i = some a).card

variable {f g : ι → Option α} {a : α} {i : ι}

theorem refs_nonneg (f : ι → Option α) (a : α) : 0 ≤ refs f a := Int.natCast_nonneg _

theorem refs_pos : 0 < refs f a ↔ ∃ i, f i = some a := by
  rw [refs, Nat.cast_pos, Finset.card_pos]
  constructor
  · rintro ⟨i, hi⟩
    exact ⟨i, (Finset.mem_filter.mp hi).2⟩
  · rintro ⟨i, hi⟩
    exact ⟨i, Finset.mem_filter.mpr ⟨Finset.mem_univ i, hi⟩⟩

theorem refs_eq_zero : refs f a = 0 ↔ ∀ i, f i ≠ some a := by
  have hnonneg := refs_nonneg f a
  have hpos := refs_pos (f := f) (a := a)
  constructor
  · intro hz i hi
    have := hpos.mpr ⟨i, hi⟩
    omega
  · intro hnone
    by_contra hne
    obtain ⟨i, hi⟩ := hpos.mp (by omega)
    exact hnone i hi

theorem refs_none : refs (fun _ : ι => (none : Option α)) a = 0 :=
  refs_eq_zero.mpr fun _ h => by cases h

/-- One entry set. -/
theorem refs_update [DecidableEq ι] (f : ι → Option α) (i : ι) (v : Option α) (a : α) :
    refs (Function.update f i v) a =
      refs f a - (if f i = some a then 1 else 0) + if v = some a then 1 else 0 := by
  have hsplit (g : ι → Option α) : refs g a =
      (((Finset.univ.erase i).filter fun x => g x = some a).card : ℤ) +
        if g i = some a then 1 else 0 := by
    unfold refs
    rw [← Finset.insert_erase (Finset.mem_univ i), Finset.filter_insert]
    simp only [Finset.erase_insert_eq_erase, Finset.erase_idem]
    by_cases h : g i = some a
    · rw [if_pos h, if_pos h, Finset.card_insert_of_notMem (by simp)]
      push_cast
      rfl
    · rw [if_neg h, if_neg h, add_zero]
  have hsame : ((Finset.univ.erase i).filter fun x => Function.update f i v x = some a) =
      (Finset.univ.erase i).filter fun x => f x = some a := by
    refine Finset.filter_congr fun x hx => ?_
    rw [Function.update_of_ne (Finset.ne_of_mem_erase hx)]
  rw [hsplit (Function.update f i v), hsplit f, hsame, Function.update_self]
  ring

/-- A reference is one or none, whatever it is counted by. -/
theorem refs_eq_sum (f : ι → Option α) (a : α) :
    refs f a = ∑ i, if f i = some a then 1 else 0 := by
  rw [refs, Finset.card_filter]
  push_cast
  rfl

section Rows

variable {ι' : Type} [Fintype ι']

/-- The references from a table of tables, row by row. -/
theorem refs_eq_sum_rows (f : ι × ι' → Option α) (a : α) :
    refs f a = ∑ i, refs (fun j => f (i, j)) a := by
  simp only [refs_eq_sum, Fintype.sum_prod_type]

/-- One row replaced. -/
theorem refs_row [DecidableEq ι] (f : ι × ι' → Option α) (i : ι) (g : ι' → Option α) (a : α) :
    refs (fun x => if x.1 = i then g x.2 else f x) a =
      refs f a - refs (fun j => f (i, j)) a + refs g a := by
  rw [refs_eq_sum_rows, refs_eq_sum_rows f, ← Finset.add_sum_erase _ _ (Finset.mem_univ i),
    ← Finset.add_sum_erase Finset.univ (fun k => refs (fun j => f (k, j)) a) (Finset.mem_univ i)]
  have hrest : (∑ k ∈ Finset.univ.erase i, refs (fun j => if k = i then g j else f (k, j)) a) =
      ∑ k ∈ Finset.univ.erase i, refs (fun j => f (k, j)) a := by
    refine Finset.sum_congr rfl fun k hk => ?_
    simp only [if_neg (Finset.ne_of_mem_erase hk)]
  simp only [if_true, hrest]
  ring

end Rows

/-- All references to one target cleared: the others are as they were. -/
theorem refs_clear {b : α} (f : ι → Option α) (hne : a ≠ b) :
    refs (fun i => if f i = some b then none else f i) a = refs f a := by
  simp only [refs_eq_sum]
  refine Finset.sum_congr rfl fun i _ => ?_
  by_cases hi : f i = some b
  · simp [hi, hne.symm]
  · rw [if_neg hi]

/-! ### Tables copied entry by entry -/

variable [DecidableEq ι]

/-- The entries of a table that are not in a list, and those that are. -/
def without (f : ι → Option α) (as : List ι) (i : ι) : Option α := if i ∈ as then none else f i

def within (f : ι → Option α) (as : List ι) (i : ι) : Option α := if i ∈ as then f i else none

omit [Fintype ι] [DecidableEq α] in
theorem without_nil (f : ι → Option α) : without f [] = f := by
  funext i
  simp [without]

omit [Fintype ι] [DecidableEq α] in
theorem without_all (f : ι → Option α) {as : List ι} (h : ∀ i, i ∈ as) :
    without f as = fun _ => none := by
  funext i
  simp [without, h i]

omit [Fintype ι] [DecidableEq α] in
theorem within_nil (f : ι → Option α) : within f [] = fun _ => none := by
  funext i
  simp [within]

omit [Fintype ι] [DecidableEq α] in
theorem within_all (f : ι → Option α) {as : List ι} (h : ∀ i, i ∈ as) : within f as = f := by
  funext i
  simp [within, h i]

omit [Fintype ι] [DecidableEq α] in
/-- One more entry is copied. -/
theorem without_cons (f : ι → Option α) {as : List ι} (hi : i ∉ as) :
    without f as = Function.update (without f (i :: as)) i (f i) := by
  funext j
  by_cases hj : j = i
  · subst hj
    simp [without, hi]
  · simp [without, hj]

omit [Fintype ι] [DecidableEq α] in
theorem within_cons (f : ι → Option α) {as : List ι} (hi : i ∉ as) :
    within f as = Function.update (within f (i :: as)) i none := by
  funext j
  by_cases hj : j = i
  · subst hj
    simp [within, hi]
  · simp [within, hj]

theorem refs_without_cons (f : ι → Option α) {as : List ι} (hi : i ∉ as) (a : α) :
    refs (without f as) a = refs (without f (i :: as)) a + if f i = some a then 1 else 0 := by
  rw [without_cons f hi, refs_update]
  simp [without]

end Oslab.Lib
