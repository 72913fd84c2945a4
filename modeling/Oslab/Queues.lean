/-
# Lists are queues

Callers of `list.c` that initialise a list before they use it, and never have more
elements in all lists than there are nodes, find a queue in each list: what they
put in comes out in that order, and what is done to one list does nothing to the
others. The state is the memory of `list.c` next to what callers have put in.
-/
import Oslab.Lib.Transition
import Oslab.Pool

namespace Oslab

open Lib Lib.Prog

variable {ι π : Type}

/-- What is in the lists that have been initialised: the elements, oldest first, each
with the entry `list_enqueue` returned for it. -/
abbrev Queues (ι π : Type) := ι → Option (List (Cell ι × π))

inductive ListCall (ι π : Type)
  | init (list : ι)
  | enqueue (list : ι) (ptr : π)
  | dequeue (list : ι)
  | remove (list : ι) (entry : Cell ι)

inductive Answer (ι π : Type)
  | done
  | entry (entry : Cell ι)
  | element (ptr : Option π)

namespace ListCall

def list : ListCall ι π → ι
  | .init list | .enqueue list _ | .dequeue list | .remove list _ => list

variable [DecidableEq ι]

def run : ListCall ι π → PoolM ι π (Answer ι π)
  | .init list => do
    list_init (.head (some list))
    pure .done
  | .enqueue list ptr => .entry <$> list_enqueue (.head (some list)) ptr
  | .dequeue list => .element <$> list_dequeue (.head (some list))
  | .remove list entry => do
    list_remove (.head (some list)) entry
    pure .done

end ListCall

namespace Queues

/-- The elements of a list; one that has not been initialised has none. -/
def elements (q : Queues ι π) (list : ι) : List (Cell ι × π) := (q list).getD []

/-- What a caller keeps to: a list is initialised while nobody uses it, and before it is used;
there are never more elements than nodes; and an entry is removed from the list it is in. -/
def Permits (q : Queues ι π) : ListCall ι π → Prop
  | .init list => q.elements list = []
  | .enqueue list _ => (q list).isSome ∧
    ∀ lists : Finset ι, ∑ l ∈ lists, (q.elements l).length < LIST_NUM
  | .dequeue list => (q list).isSome
  | .remove list entry => ∃ ptr, (entry, ptr) ∈ q.elements list

/-- What callers have put in after one more call. -/
def after [DecidableEq ι] (q : Queues ι π) : ListCall ι π → Answer ι π → Queues ι π
  | .init list, _ => Function.update q list (some [])
  | .enqueue list ptr, .entry entry =>
    Function.update q list (some (q.elements list ++ [(entry, ptr)]))
  | .dequeue list, _ => Function.update q list (some (q.elements list).tail)
  | .remove list entry, _ =>
    Function.update q list (some ((q.elements list).filter (·.1 ≠ entry)))
  | _, _ => q

/-- The answer a queue gives. A new entry is a node that no element has. -/
def Answers (q : Queues ι π) : ListCall ι π → Answer ι π → Prop
  | .init _, .done => True
  | .enqueue .., .entry entry => (∃ i, entry = .node i) ∧ ∀ list ptr, (entry, ptr) ∉ q.elements list
  | .dequeue list, .element ptr => ptr = (q.elements list).head?.map Prod.snd
  | .remove .., .done => True
  | _, _ => False

/-- The lists in memory hold the elements: they and the free list are rings, every node is in
exactly one of them, and the nodes of a list hold its elements, the oldest at the end. -/
def In (q : Queues ι π) (m : Pool ι π) : Prop :=
  ∃ lists, m.Holds (fun list => (q list).isSome) lists ∧ ∀ list,
    q.elements list = (lists (some list)).reverse.map fun i => (.node i, m.ptr (.node i))

end Queues

/-- `list.c` and what its callers have put in, under calls that its callers keep to. -/
def queues (ι π : Type) [DecidableEq ι] : Lts (Pool ι π × Queues ι π) (ListCall ι π × Answer ι π) where
  init s := s.1.inited = false ∧ ∀ list, s.2 list = none
  step s l s' := s.2.Permits l.1 ∧ l.1.run s.1 = .ok (l.2, s'.1) ∧ s'.2 = s.2.after l.1 l.2

section

variable [DecidableEq ι] {m : Pool ι π} {q : Queues ι π} {list : ι}
  {lists : Option ι → List (Fin LIST_NUM)} {F : Abort → Prop}

namespace Queues

theorem elements_update (q : Queues ι π) (list l : ι) (xs : List (Cell ι × π)) :
    elements (Function.update q list (some xs)) l = if l = list then xs else q.elements l := by
  unfold elements
  by_cases h : l = list
  · subst h
    simp
  · simp [h]

theorem isSome_update (q : Queues ι π) (list l : ι) (xs : List (Cell ι × π)) :
    (Function.update q list (some xs) l).isSome = true ↔ (q l).isSome = true ∨ l = list := by
  by_cases h : l = list
  · subst h
    simp
  · simp [h]

/-- A list that already has elements goes on being initialised. -/
theorem isSome_update_of (h : (q list).isSome = true) (xs : List (Cell ι × π)) (l : ι) :
    (Function.update q list (some xs) l).isSome = true ↔ (q l).isSome = true := by
  rw [isSome_update]
  exact or_iff_left_of_imp fun heq => heq ▸ h

theorem holds_update (h : (q list).isSome = true) (hm : m.Holds (fun l => (q l).isSome) lists)
    (xs : List (Cell ι × π)) :
    m.Holds (fun l => (Function.update q list (some xs) l).isSome) lists := by
  simpa only [isSome_update_of h] using hm

/-- Fewer elements than nodes leave a node free. -/
theorem exists_free (h : m.Holds (fun l => (q l).isSome) lists)
    (helems : ∀ l, q.elements l = (lists (some l)).reverse.map fun i => (.node i, m.ptr (.node i)))
    (hroom : ∀ S : Finset ι, ∑ l ∈ S, (q.elements l).length < LIST_NUM) :
    ∃ xs i, lists none = xs ++ [i] := by
  rcases List.eq_nil_or_concat (lists none) with hnil | ⟨xs, i, hxs⟩
  · exfalso
    -- every node is in a list of elements, and there are too many nodes for that
    have hin (i : Fin LIST_NUM) : ∃ l, i ∈ lists (some l) := by
      obtain ⟨pl, hi⟩ := h.cover i
      cases pl with
      | none =>
        rw [hnil] at hi
        cases hi
      | some l => exact ⟨l, hi⟩
    choose l hl using hin
    have hsub : Finset.univ ⊆ (Finset.univ.image l).biUnion fun l => (lists (some l)).toFinset := by
      intro i _
      rw [Finset.mem_biUnion]
      exact ⟨l i, Finset.mem_image_of_mem l (Finset.mem_univ i), List.mem_toFinset.mpr (hl i)⟩
    have hcard := calc
      LIST_NUM = (Finset.univ : Finset (Fin LIST_NUM)).card := (Finset.card_fin _).symm
      _ ≤ _ := Finset.card_le_card hsub
      _ ≤ ∑ l ∈ Finset.univ.image l, (lists (some l)).toFinset.card := Finset.card_biUnion_le
      _ ≤ ∑ l ∈ Finset.univ.image l, (q.elements l).length := by
        apply Finset.sum_le_sum
        intro l _
        rw [helems, List.length_map, List.length_reverse]
        exact List.toFinset_card_le _
    exact absurd (hroom (Finset.univ.image l)) (Nat.not_lt_of_le hcard)
  · rw [List.concat_eq_append] at hxs
    exact ⟨xs, i, hxs⟩

/-- The first list is initialised. -/
theorem init_first (hinit : m.inited = false) (hq : ∀ l, q l = none) :
    wp (ListCall.init list).run (fun ans m' => q.Answers (.init list) ans ∧
      (q.after (.init list) ans).In m') F m := by
  rw [ListCall.run, wp_bind]
  refine (list_init_first hinit).imp ?_
  intro _ m' hholds
  refine ⟨trivial, freeLists, hholds.mono (fun l hl => ?_) fun _ _ => rfl, fun l => ?_⟩
  · rw [after, isSome_update, hq l] at hl
    simpa using hl
  · rw [after, elements_update]
    split
    · rfl
    · rw [elements, hq l]
      rfl

theorem In.init (h : q.In m) (hpermits : q.Permits (.init list)) :
    wp (ListCall.init list).run (fun ans m' => q.Answers (.init list) ans ∧
      (q.after (.init list) ans).In m') F m := by
  obtain ⟨lists, hholds, helems⟩ := h
  have hnil : lists (some list) = [] := by
    have heq := helems list
    rw [show q.elements list = [] from hpermits] at heq
    simpa using heq.symm
  rw [ListCall.run, wp_bind]
  refine (list_init_spec hholds hnil).imp ?_
  intro _ m' ⟨hholds', hptr⟩
  refine ⟨trivial, lists, ?_, fun l => ?_⟩
  · simpa only [after, isSome_update] using hholds'
  · rw [after, elements_update, hptr]
    split
    case isTrue heq => rw [heq, hnil]; rfl
    case isFalse => exact helems l

theorem In.enqueue (h : q.In m) {ptr : π} (hpermits : q.Permits (.enqueue list ptr)) :
    wp (ListCall.enqueue list ptr).run (fun ans m' => q.Answers (.enqueue list ptr) ans ∧
      (q.after (.enqueue list ptr) ans).In m') F m := by
  obtain ⟨lists, hholds, helems⟩ := h
  obtain ⟨hsome, hroom⟩ := hpermits
  obtain ⟨xs, i, hxs⟩ := exists_free hholds helems hroom
  have hfree : i ∈ lists none := by
    rw [hxs]
    simp
  rw [ListCall.run, wp_map]
  refine (list_enqueue_spec hholds hsome hxs ptr).imp ?_
  rintro _ m' ⟨rfl, hholds', hptr⟩
  refine ⟨⟨⟨i, rfl⟩, fun l p hmem => ?_⟩, _, holds_update hsome hholds' _, fun l => ?_⟩
  · -- the node was free
    rw [helems] at hmem
    simp only [List.map_reverse, List.mem_reverse, List.mem_map, Prod.mk.injEq] at hmem
    obtain ⟨j, hj, heq, -⟩ := hmem
    cases heq
    cases hholds.once i none (some l) hfree hj
  · have hold (l : ι) (j : Fin LIST_NUM) (hj : j ∈ lists (some l)) :
        m'.ptr (.node j) = m.ptr (.node j) := by
      have hne : j ≠ i := by
        rintro rfl
        cases hholds.once j none (some l) hfree hj
      rw [hptr, Function.update_of_ne (by simpa using hne)]
    have hnew : m'.ptr (.node i) = ptr := by rw [hptr, Function.update_self]
    have hsame (l : ι) : q.elements l =
        (lists (some l)).reverse.map fun i => (.node i, m'.ptr (.node i)) := by
      rw [helems]
      apply List.map_congr_left
      intro j hj
      rw [hold l j (List.mem_reverse.mp hj)]
    rw [after, elements_update]
    split
    case isTrue heq =>
      subst heq
      rw [Function.update_self, List.reverse_cons, List.map_append, List.map_singleton, hnew, hsame]
    case isFalse hne =>
      rw [Function.update_of_ne (by simpa using hne), Function.update_of_ne (by simp)]
      exact hsame l

theorem In.dequeue (h : q.In m) (hpermits : q.Permits (.dequeue list)) :
    wp (ListCall.dequeue list).run (fun ans m' => q.Answers (.dequeue list) ans ∧
      (q.after (.dequeue list) ans).In m') F m := by
  obtain ⟨lists, hholds, helems⟩ := h
  have hsome : (q list).isSome = true := hpermits
  rw [ListCall.run, wp_map]
  refine (list_dequeue_spec hholds hsome).imp ?_
  rintro ans m' (⟨hnil, rfl, rfl⟩ | ⟨xs, i, hxs, rfl, hholds', hptr⟩)
  · have hempty : q.elements list = [] := by rw [helems, hnil]; rfl
    refine ⟨by rw [Answers, hempty]; rfl, lists, holds_update hsome hholds _, fun l => ?_⟩
    rw [after, elements_update]
    split
    case isTrue heq => rw [heq, hempty, hnil]; rfl
    case isFalse => exact helems l
  · have hcons : q.elements list = (.node i, m.ptr (.node i)) ::
        xs.reverse.map fun i => (.node i, m.ptr (.node i)) := by
      rw [helems, hxs, List.reverse_append]
      rfl
    refine ⟨by rw [Answers, hcons]; rfl, _, holds_update hsome hholds' _, fun l => ?_⟩
    rw [after, elements_update, hptr, Function.update_of_ne (by simp)]
    split
    case isTrue heq => rw [heq, Function.update_self, hcons, List.tail_cons]
    case isFalse hne => rw [Function.update_of_ne (by simpa using hne), helems]

theorem In.remove (h : q.In m) {entry : Cell ι} (hpermits : q.Permits (.remove list entry)) :
    wp (ListCall.remove list entry).run (fun ans m' => q.Answers (.remove list entry) ans ∧
      (q.after (.remove list entry) ans).In m') F m := by
  obtain ⟨lists, hholds, helems⟩ := h
  obtain ⟨ptr, hmem⟩ := hpermits
  have hsome : (q list).isSome = true := by
    by_contra hnone
    rw [elements, Option.not_isSome_iff_eq_none.mp hnone] at hmem
    cases hmem
  rw [helems] at hmem
  simp only [List.map_reverse, List.mem_reverse, List.mem_map, Prod.mk.injEq] at hmem
  obtain ⟨i, hi, rfl, -⟩ := hmem
  obtain ⟨xs, ys, hxs⟩ := List.append_of_mem hi
  have hnd := ((List.nodup_cons.mp (hholds.ring (some list) (by rintro _ ⟨⟩; exact hsome)).nodup).2.of_map _).perm
    (hxs ▸ (List.perm_middle : List.Perm (xs ++ i :: ys) (i :: (xs ++ ys))))
  have hi' : i ∉ xs ++ ys := (List.nodup_cons.mp hnd).1
  rw [ListCall.run, wp_bind]
  refine (list_remove_spec hholds hsome hxs _).imp ?_
  intro _ m' ⟨hholds', hptr⟩
  refine ⟨trivial, _, holds_update hsome hholds' _, fun l => ?_⟩
  rw [after, elements_update, hptr, Function.update_of_ne (by simp)]
  split
  case isTrue heq =>
    subst heq
    rw [Function.update_self, helems, hxs, List.filter_map]
    congr 1
    rw [List.filter_reverse, List.filter_append, List.filter_cons_of_neg (by simp), ← List.filter_append,
      List.filter_eq_self.mpr]
    intro j hj
    have hne : j ≠ i := fun heq => hi' (heq ▸ hj)
    simpa using hne
  case isFalse hne => rw [Function.update_of_ne (by simpa using hne), helems]

end Queues

/-- Memory before the first list is initialised, or lists that hold their elements. -/
def Queues.Stands (q : Queues ι π) (m : Pool ι π) : Prop :=
  (m.inited = false ∧ ∀ list, q list = none) ∨ q.In m

/-- Every call that is permitted returns what a queue answers, and the lists hold the elements
that callers have put in then. -/
theorem Queues.Stands.run (h : q.Stands m) {call : ListCall ι π} (hpermits : q.Permits call) :
    wp call.run (fun ans m' => q.Answers call ans ∧ (q.after call ans).In m') F m := by
  rcases h with ⟨hinit, hq⟩ | h
  · cases call with
    | init list => exact Queues.init_first hinit hq
    | enqueue list ptr => exact absurd hpermits.1 (by simp [hq])
    | dequeue list => exact absurd hpermits (by simp [Queues.Permits, hq])
    | remove list entry =>
      obtain ⟨ptr, hmem⟩ := hpermits
      rw [Queues.elements, hq] at hmem
      cases hmem
  · cases call with
    | init list => exact h.init hpermits
    | enqueue list ptr => exact h.enqueue hpermits
    | dequeue list => exact h.dequeue hpermits
    | remove list entry => exact h.remove hpermits

theorem stands_reachable {s : Pool ι π × Queues ι π} (h : (queues ι π).Reachable s) :
    s.2.Stands s.1 := by
  refine h.invariant (fun s => s.2.Stands s.1) (fun s hs => Or.inl hs) ?_
  rintro ⟨m, q⟩ ⟨call, ans⟩ ⟨m', q'⟩ hstands ⟨hpermits, hrun, rfl⟩
  have hspec := hstands.run (F := fun _ => False) hpermits
  exact Or.inr (hspec.of_ok hrun).2

/-- A call changes the elements of no other list. -/
theorem after_other (q : Queues ι π) (call : ListCall ι π) (ans : Answer ι π) {list : ι}
    (hne : list ≠ call.list) : q.after call ans list = q list := by
  cases call with
  | enqueue list' ptr =>
    cases ans with
    | entry entry => exact Function.update_of_ne hne _ _
    | done => rfl
    | element ptr => rfl
  | init list' => exact Function.update_of_ne hne _ _
  | dequeue list' => exact Function.update_of_ne hne _ _
  | remove list' entry => exact Function.update_of_ne hne _ _

end

/-- **The lists are queues.** In every state that calls can lead to, the lists in memory hold the
elements of the lists. Each call that is permitted then returns what a queue answers, and does
nothing to the elements of the other lists. -/
theorem lists_are_queues {ι π : Type} [DecidableEq ι] {m : Pool ι π} {q : Queues ι π}
    (h : (queues ι π).Reachable (m, q)) :
    q.Stands m ∧ ∀ call, q.Permits call → ∃ ans m', call.run m = .ok (ans, m') ∧
      q.Answers call ans ∧ (q.after call ans).In m' ∧
      ∀ list ≠ call.list, q.after call ans list = q list := by
  have hstands : q.Stands m := stands_reachable h
  refine ⟨hstands, fun call hpermits => ?_⟩
  obtain ⟨ans, m', hrun, hans, hin⟩ := (hstands.run hpermits).returns
  exact ⟨ans, m', hrun, hans, hin, fun list hne => after_other _ _ _ hne⟩

/-! ### Two lists -/

/-- A call that is permitted can be made. -/
theorem queues_step [DecidableEq ι] {m : Pool ι π} {q : Queues ι π}
    (h : (queues ι π).Reachable (m, q)) (call : ListCall ι π) (hpermits : q.Permits call) :
    ∃ ans m', q.Answers call ans ∧ (queues ι π).Reachable (m', q.after call ans) := by
  obtain ⟨ans, m', hrun, hans, -⟩ := ((stands_reachable h).run hpermits).returns
  have hstep : (queues ι π).step (m, q) (call, ans) (m', q.after call ans) := ⟨hpermits, hrun, rfl⟩
  exact ⟨ans, m', hans, h.step hstep⟩

/-- Lists 0 and 1 are in use, with these elements. -/
def twoLists (xs ys : List (Cell ℕ × ℕ)) : Queues ℕ ℕ :=
  Function.update (Function.update (fun _ => none) 0 (some xs)) 1 (some ys)

section TwoLists

variable {m : Pool ℕ ℕ} {xs ys zs : List (Cell ℕ × ℕ)}

theorem twoLists_zero : Function.update (twoLists xs ys) 0 (some zs) = twoLists zs ys := by
  rw [twoLists, Function.update_comm (by decide), Function.update_idem, twoLists]

theorem twoLists_one : Function.update (twoLists xs ys) 1 (some zs) = twoLists xs zs := by
  rw [twoLists, Function.update_idem, twoLists]

/-- There is a node left. -/
theorem twoLists_room (hlen : xs.length + ys.length < LIST_NUM) (lists : Finset ℕ) :
    ∑ l ∈ lists, ((twoLists xs ys).elements l).length < LIST_NUM := by
  have hle : ∑ l ∈ lists, ((twoLists xs ys).elements l).length ≤
      ∑ l ∈ {0, 1}, ((twoLists xs ys).elements l).length := by
    apply Finset.sum_le_sum_of_ne_zero
    intro l _ hne
    by_contra hnot
    simp only [Finset.mem_insert, Finset.mem_singleton, not_or] at hnot
    apply hne
    rw [twoLists, Queues.elements, Function.update_of_ne hnot.2, Function.update_of_ne hnot.1]
    rfl
  rw [Finset.sum_pair (by decide)] at hle
  exact lt_of_le_of_lt hle hlen

/-- One more element for list 0, in a node of its own. -/
theorem enqueue_zero (h : (queues ℕ ℕ).Reachable (m, twoLists xs ys))
    (hlen : xs.length + ys.length < LIST_NUM) (ptr : ℕ) :
    ∃ e m', (queues ℕ ℕ).Reachable (m', twoLists (xs ++ [(e, ptr)]) ys) ∧ ∀ p, (e, p) ∉ xs := by
  obtain ⟨ans, m', hans, h'⟩ := queues_step h (.enqueue 0 ptr) ⟨rfl, twoLists_room hlen⟩
  cases ans with
  | entry e =>
    have h' : (queues ℕ ℕ).Reachable (m', Function.update (twoLists xs ys) 0 (some _)) := h'
    rw [twoLists_zero] at h'
    exact ⟨e, m', h', fun p => hans.2 0 p⟩
  | done => exact hans.elim
  | element ptr => exact hans.elim

/-- One more element for list 1, in a node of its own. -/
theorem enqueue_one (h : (queues ℕ ℕ).Reachable (m, twoLists xs ys))
    (hlen : xs.length + ys.length < LIST_NUM) (ptr : ℕ) :
    ∃ e m', (queues ℕ ℕ).Reachable (m', twoLists xs (ys ++ [(e, ptr)])) ∧ ∀ p, (e, p) ∉ ys := by
  obtain ⟨ans, m', hans, h'⟩ := queues_step h (.enqueue 1 ptr) ⟨rfl, twoLists_room hlen⟩
  cases ans with
  | entry e =>
    have h' : (queues ℕ ℕ).Reachable (m', Function.update (twoLists xs ys) 1 (some _)) := h'
    rw [twoLists_one] at h'
    exact ⟨e, m', h', fun p => hans.2 1 p⟩
  | done => exact hans.elim
  | element ptr => exact hans.elim

end TwoLists

/-- Two lists have been given three and two elements, the oldest of the first has been taken and the
older one of the second removed. Both go on as queues. -/
theorem lists_are_queues_two : ∃ m e e' f, (queues ℕ ℕ).Reachable
      (m, twoLists [(e, 11), (e', 12)] [(f, 21)]) ∧
    (∃ m', (ListCall.dequeue 0).run m = .ok (.element (some 11), m') ∧
      (twoLists [(e', 12)] [(f, 21)]).In m') ∧
    (∃ m', (ListCall.remove 0 e').run m = .ok (.done, m') ∧ (twoLists [(e, 11)] [(f, 21)]).In m') ∧
    ∃ g m', (ListCall.enqueue 1 22).run m = .ok (.entry g, m') ∧
      (twoLists [(e, 11), (e', 12)] [(f, 21), (g, 22)]).In m' := by
  have h₀ : (queues ℕ ℕ).Reachable (⟨⟨id, id⟩, fun _ => 0, false⟩, fun _ => none) :=
    .init ⟨rfl, fun _ => rfl⟩
  obtain ⟨_, m₁, -, h₁⟩ := queues_step h₀ (.init 0) rfl
  obtain ⟨_, m₂, -, h₂⟩ := queues_step h₁ (.init 1) rfl
  have h₂ : (queues ℕ ℕ).Reachable (m₂, twoLists [] []) := h₂
  -- the elements
  obtain ⟨e₀, m₃, h₃, -⟩ := enqueue_zero h₂ (by decide) 10
  obtain ⟨f₀, m₄, h₄, -⟩ := enqueue_one h₃ (by simp [LIST_NUM]) 20
  obtain ⟨e, m₅, h₅, -⟩ := enqueue_zero h₄ (by simp [LIST_NUM]) 11
  obtain ⟨f, m₆, h₆, hf⟩ := enqueue_one h₅ (by simp [LIST_NUM]) 21
  obtain ⟨e', m₇, h₇, he'⟩ := enqueue_zero h₆ (by simp [LIST_NUM]) 12
  have hff : f ≠ f₀ := fun heq => hf 20 (by rw [heq]; exact List.mem_cons_self)
  have hee : e ≠ e' := fun heq => he' 11 (by rw [heq]; exact List.mem_cons_of_mem _ List.mem_cons_self)
  -- one is taken and one is removed
  obtain ⟨_, m₈, -, h₈⟩ := queues_step h₇ (.dequeue 0) rfl
  have h₈ : (queues ℕ ℕ).Reachable (m₈, Function.update _ 0 (some [(e, 11), (e', 12)])) := h₈
  rw [twoLists_zero] at h₈
  obtain ⟨_, m, -, h⟩ := queues_step h₈ (.remove 1 f₀) ⟨20, List.mem_cons_self⟩
  have hfilter : [(f₀, 20), (f, 21)].filter (·.1 ≠ f₀) = [(f, 21)] := by simp [hff]
  have h : (queues ℕ ℕ).Reachable (m, Function.update _ 1 (some (List.filter (·.1 ≠ f₀)
    [(f₀, 20), (f, 21)]))) := h
  rw [hfilter, twoLists_one] at h
  refine ⟨m, e, e', f, h, ?_, ?_, ?_⟩
  · obtain ⟨ans, m', hrun, hans, hin, -⟩ := (lists_are_queues h).2 (.dequeue 0) rfl
    cases ans with
    | element ptr =>
      have hptr : ptr = some 11 := hans
      have hin : Queues.In (Function.update _ 0 (some [(e', 12)])) m' := hin
      rw [twoLists_zero] at hin
      exact ⟨m', hptr ▸ hrun, hin⟩
    | done => exact hans.elim
    | entry g => exact hans.elim
  · obtain ⟨ans, m', hrun, hans, hin, -⟩ :=
      (lists_are_queues h).2 (.remove 0 e') ⟨12, List.mem_cons_of_mem _ List.mem_cons_self⟩
    cases ans with
    | done =>
      have hfilter' : [(e, 11), (e', 12)].filter (·.1 ≠ e') = [(e, 11)] := by simp [hee]
      have hin : Queues.In (Function.update _ 0 (some (List.filter (·.1 ≠ e')
        [(e, 11), (e', 12)]))) m' := hin
      rw [hfilter', twoLists_zero] at hin
      exact ⟨m', hrun, hin⟩
    | entry g => exact hans.elim
    | element ptr => exact hans.elim
  · obtain ⟨ans, m', hrun, hans, hin, -⟩ :=
      (lists_are_queues h).2 (.enqueue 1 22) ⟨rfl, twoLists_room (by simp [LIST_NUM])⟩
    cases ans with
    | entry g =>
      have hin : Queues.In (Function.update _ 1 (some [(f, 21), (g, 22)])) m' := hin
      rw [twoLists_one] at hin
      exact ⟨g, m', hrun, hin⟩
    | done => exact hans.elim
    | element ptr => exact hans.elim

end Oslab
