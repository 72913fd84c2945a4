/-
# Lists of one node pool

`list.c`. Every list is a ring of nodes around its head, and so is the free list.
The nodes are those of one pool, and each is in one list. An operation moves a
node from one list to another, and the lists it does not name stay as they are.
-/
import Oslab.Lib.Ring
import Oslab.Base

namespace Oslab

open Lib Lib.Prog

abbrev LIST_NUM : ℕ := 256

/-- A `list_t`: the head of the free list or of a list, or a node of `list_buf`. -/
inductive Cell (ι : Type)
  | head (list : Option ι)
  | node (i : Fin LIST_NUM)
  deriving DecidableEq

/-- What `list.c` keeps in memory, for lists `ι` of pointers `π` that are not null. -/
structure Pool (ι π : Type) where
  links : Links (Cell ι)
  ptr : Cell ι → π
  inited : Bool

abbrev PoolM (ι π : Type) := Prog Abort (Pool ι π)

section Operations

variable {ι π : Type} [DecidableEq ι]

abbrev free_list : Cell ι := .head none

def modLinks (f : Links (Cell ι) → Links (Cell ι)) : PoolM ι π Unit := update fun m =>
  { m with links := f m.links }

def list_add_next (list ptr : Cell ι) : PoolM ι π Unit := modLinks fun l => l.addNext list ptr

def list_empty (list : Cell ι) : PoolM ι π Bool := read fun m => list = m.links.next list

def list_remove_prev (list : Cell ι) : PoolM ι π (Cell ι) := do
  let empty ← list_empty list
  assert (empty = false) .noNode
  let ptr ← read fun m => m.links.prev list
  modLinks fun l => l.removePrev list
  pure ptr

@[irreducible] def init_list : PoolM ι π Unit := do
  modLinks fun l => l.alone free_list
  loop (fun i _ => list_add_next free_list (.node i)) (List.finRange LIST_NUM) ()

def list_init (list : Cell ι) : PoolM ι π Unit := do
  let inited ← read Pool.inited
  if inited = false then
    update fun m => { m with inited := true }
    init_list
  modLinks fun l => l.alone list

def list_enqueue (list : Cell ι) (ptr : π) : PoolM ι π (Cell ι) := do
  let l ← list_remove_prev free_list
  update fun m => { m with ptr := Function.update m.ptr l ptr }
  list_add_next list l
  pure l

/-- The oldest element of the list, if it is not empty. -/
def list_dequeue (list : Cell ι) : PoolM ι π (Option π) := do
  if ← list_empty list then pure none
  else
    let l ← list_remove_prev list
    let ptr ← read fun m => m.ptr l
    list_add_next free_list l
    pure (some ptr)

def list_remove (_list entry : Cell ι) : PoolM ι π Unit := do
  modLinks fun l => l.remove entry
  list_add_next free_list entry

/-! ### The nodes in their lists -/

/-- Every node is in one of the lists, and those in use are rings. -/
structure Pool.Holds (m : Pool ι π) (ready : ι → Prop)
    (lists : Option ι → List (Fin LIST_NUM)) : Prop where
  inited : m.inited = true
  ring : ∀ pl, (∀ k, pl = some k → ready k) →
    m.links.Ring (.head pl) ((lists pl).map .node)
  rest : ∀ k, ¬ ready k → lists (some k) = []
  cover : ∀ i, ∃ pl, i ∈ lists pl
  once : ∀ i pl pl', i ∈ lists pl → i ∈ lists pl' → pl = pl'

end Operations

section Holds

variable {ι π : Type} {m m' : Pool ι π} {ready ready' : ι → Prop}
  {lists : Option ι → List (Fin LIST_NUM)} {k : ι} {F : Abort → Prop}

theorem node_injective : Function.Injective (Cell.node : Fin LIST_NUM → Cell ι) := fun _ _ h => by cases h; rfl

namespace Pool.Holds

/-- The cells of different lists are different. -/
theorem disjoint (h : m.Holds ready lists) {pl pl' : Option ι} (hne : pl ≠ pl') :
    ∀ y ∈ Cell.head pl :: (lists pl).map .node, y ∉ Cell.head pl' :: (lists pl').map .node := by
  intro y hy hy'
  rcases List.mem_cons.mp hy with rfl | hy <;> rcases List.mem_cons.mp hy' with heq | hy'
  · cases heq
    exact hne rfl
  · obtain ⟨i, -, heq⟩ := List.mem_map.mp hy'
    cases heq
  · subst heq
    obtain ⟨i, -, heq⟩ := List.mem_map.mp hy
    cases heq
  · obtain ⟨i, hi, rfl⟩ := List.mem_map.mp hy
    rw [List.mem_map_of_injective node_injective] at hy'
    exact hne (h.once i pl pl' hi hy')

/-- Fewer lists are in use, and those that are not any more are empty. -/
theorem mono (h : m.Holds ready lists) (hready : ∀ k, ready' k → ready k)
    (hrest : ∀ k, ¬ ready' k → lists (some k) = []) : m.Holds ready' lists :=
  ⟨h.inited, fun pl hpl => h.ring pl fun k hk => hready k (hpl k hk), hrest, h.cover, h.once⟩

theorem setPtr (h : m.Holds ready lists) (ptr : Cell ι → π) :
    Pool.Holds { m with ptr := ptr } ready lists := ⟨h.inited, h.ring, h.rest, h.cover, h.once⟩

end Pool.Holds

variable [DecidableEq ι]

namespace Pool.Holds

/-- A list that nobody is in is made empty. -/
theorem alone (h : m.Holds ready lists) (hnil : lists (some k) = []) :
    Pool.Holds { m with links := m.links.alone (.head (some k)) }
      (fun k' => ready k' ∨ k' = k) lists := by
  refine ⟨h.inited, fun pl hpl => ?_, fun k' hk' => h.rest k' fun hr => hk' (Or.inl hr), h.cover,
    h.once⟩
  by_cases heq : pl = some k
  · subst heq
    rw [hnil]
    exact Links.ring_alone
  · refine Links.Ring.alone_other (h.ring pl fun k' hk' => ?_) ?_
    · rcases hpl k' hk' with hr | rfl
      · exact hr
      · exact (heq hk').elim
    · intro hmem
      rcases List.mem_cons.mp hmem with hcell | hmem
      · cases hcell
        exact heq rfl
      · obtain ⟨i, -, hcell⟩ := List.mem_map.mp hmem
        cases hcell

/-- A node of one list is moved to another one. -/
theorem move (h : m.Holds ready lists) {a b : Option ι} {xs ys : List (Fin LIST_NUM)}
    {i : Fin LIST_NUM} (ha : ∀ k, a = some k → ready k) (hb : ∀ k, b = some k → ready k)
    (hne : a ≠ b) (hxs : lists a = xs ++ i :: ys) :
    Pool.Holds { m with links := (m.links.remove (.node i)).addNext (.head b) (.node i) } ready
      (Function.update (Function.update lists a (xs ++ ys)) b (i :: lists b)) := by
  set lists' := Function.update (Function.update lists a (xs ++ ys)) b (i :: lists b) with hlists'
  have hra : m.links.Ring (.head a) (xs.map .node ++ .node i :: ys.map .node) := by
    have hring := h.ring a ha
    rwa [hxs, List.map_append, List.map_cons] at hring
  have hia : i ∈ lists a := by
    rw [hxs]
    simp
  have hixs : i ∉ xs ++ ys := by
    intro hmem
    have hring := h.ring a ha
    have hnd := ((List.nodup_cons.mp hring.nodup).2.of_map _).perm
      (hxs ▸ (List.perm_middle : List.Perm (xs ++ i :: ys) (i :: (xs ++ ys))))
    exact (List.nodup_cons.mp hnd).1 hmem
  -- a node is where it was, but for the one that is moved
  have hmem (j : Fin LIST_NUM) (pl : Option ι) :
      j ∈ lists' pl ↔ (j ≠ i ∧ j ∈ lists pl) ∨ (j = i ∧ pl = b) := by
    by_cases hplb : pl = b
    · subst hplb
      rw [hlists', Function.update_self, List.mem_cons]
      by_cases hj : j = i
      · simp [hj]
      · simp [hj]
    · rw [hlists', Function.update_of_ne hplb]
      by_cases hpla : pl = a
      · subst hpla
        rw [Function.update_self, hxs, List.perm_middle.mem_iff, List.mem_cons]
        by_cases hj : j = i
        · simp only [hj, hixs, hplb, ne_eq, not_true_eq_false, false_and, and_false, or_self]
        · simp only [hj, ne_eq, not_false_eq_true, false_or, true_and, false_and, or_false]
      · rw [Function.update_of_ne hpla]
        by_cases hj : j = i
        · subst hj
          simp only [ne_eq, not_true_eq_false, false_and, hplb, and_false, or_self, iff_false]
          exact fun hj' => hpla (h.once j pl a hj' hia)
        · simp [hj]
  have hnode (pl : Option ι) (hpl : pl ≠ a) :
      Cell.node i ∉ Cell.head pl :: (lists pl).map .node := by
    refine h.disjoint (Ne.symm hpl) _ (List.mem_cons_of_mem _ ?_)
    exact List.mem_map.mpr ⟨i, hia, rfl⟩
  have hcells (pl : Option ι) (hpl : pl ≠ a) : ∀ y ∈ Cell.head pl :: (lists pl).map .node,
      y ∉ Cell.head a :: (xs.map Cell.node ++ Cell.node i :: ys.map Cell.node) := by
    have hdisj := h.disjoint hpl
    rw [hxs, List.map_append, List.map_cons] at hdisj
    exact hdisj
  have hrb : (m.links.remove (.node i)).Ring (.head b) ((lists b).map .node) :=
    (h.ring b hb).remove_other hra (hcells b hne.symm)
  refine ⟨h.inited, fun pl hpl => ?_, fun k hk => ?_, fun j => ?_, fun j pl pl' hj hj' => ?_⟩
  · by_cases hplb : pl = b
    · subst hplb
      rw [hlists', Function.update_self]
      exact hrb.addNext (hnode pl hne.symm)
    · rw [hlists', Function.update_of_ne hplb]
      by_cases hpla : pl = a
      · subst hpla
        rw [Function.update_self, List.map_append]
        have hrest (y : Cell ι) (hy : y ∈ Cell.head pl :: (xs.map .node ++ ys.map .node)) :
            y ∈ Cell.head pl :: (lists pl).map .node := by
          rw [hxs, List.map_append, List.map_cons]
          simp only [List.mem_cons, List.mem_append] at hy ⊢
          tauto
        refine hra.remove.addNext_other hrb ?_ (hnode b hne.symm) fun y hy =>
          h.disjoint hplb y (hrest y hy)
        intro hmem'
        rw [← List.map_append] at hmem'
        rcases List.mem_cons.mp hmem' with hcell | hmem'
        · cases hcell
        · exact hixs ((List.mem_map_of_injective node_injective).mp hmem')
      · rw [Function.update_of_ne hpla]
        exact ((h.ring pl hpl).remove_other hra (hcells pl hpla)).addNext_other hrb
          (hnode pl hpla) (hnode b hne.symm) (h.disjoint hplb)
  · have hne' : some k ≠ a := fun heq => hk (ha k heq.symm)
    have hne'' : some k ≠ b := fun heq => hk (hb k heq.symm)
    rw [hlists', Function.update_of_ne hne'', Function.update_of_ne hne']
    exact h.rest k hk
  · by_cases hj : j = i
    · exact ⟨b, (hmem j b).mpr (Or.inr ⟨hj, rfl⟩)⟩
    · obtain ⟨pl, hpl⟩ := h.cover j
      exact ⟨pl, (hmem j pl).mpr (Or.inl ⟨hj, hpl⟩)⟩
  · rcases (hmem j pl).mp hj with ⟨hji, hj⟩ | ⟨hji, rfl⟩ <;>
      rcases (hmem j pl').mp hj' with ⟨hji', hj'⟩ | ⟨hji', rfl⟩
    · exact h.once j pl pl' hj hj'
    · exact (hji hji').elim
    · exact (hji' hji).elim
    · rfl

/-- The oldest node of one list is moved to another one. -/
theorem moveLast (h : m.Holds ready lists) {a b : Option ι} {xs : List (Fin LIST_NUM)}
    {i : Fin LIST_NUM} (ha : ∀ k, a = some k → ready k) (hb : ∀ k, b = some k → ready k)
    (hne : a ≠ b) (hxs : lists a = xs ++ [i]) :
    Pool.Holds { m with links := (m.links.removePrev (.head a)).addNext (.head b) (.node i) } ready
      (Function.update (Function.update lists a xs) b (i :: lists b)) := by
  have hring := h.ring a ha
  rw [hxs, List.map_append] at hring
  have hmove := h.move ha hb hne hxs
  rw [List.append_nil] at hmove
  rwa [hring.removePrev_eq]

end Pool.Holds

/-! ### The operations -/

theorem list_empty_spec (h : m.Holds ready lists) {pl : Option ι}
    (hpl : ∀ k, pl = some k → ready k) :
    wp (list_empty (.head pl)) (fun b m' => m' = m ∧ (b = true ↔ lists pl = [])) F m := by
  rw [list_empty, wp_read]
  refine ⟨rfl, ?_⟩
  rw [decide_eq_true_iff, eq_comm, (h.ring pl hpl).nil_iff, List.map_eq_nil_iff]

theorem list_remove_prev_spec (h : m.Holds ready lists) {pl : Option ι}
    (hpl : ∀ k, pl = some k → ready k) {xs : List (Fin LIST_NUM)} {i : Fin LIST_NUM}
    (hxs : lists pl = xs ++ [i]) :
    wp (list_remove_prev (.head pl)) (fun l m' => l = .node i ∧
      m' = { m with links := m.links.removePrev (.head pl) }) F m := by
  rw [list_remove_prev, wp_bind]
  refine (list_empty_spec h hpl).imp ?_
  rintro b _ ⟨rfl, hb⟩
  have hne : b = false := by
    rw [← Bool.not_eq_true, hb, hxs]
    simp
  rw [wp_bind, wp_assert]
  refine ⟨fun _ => ?_, fun hb' => (hb' hne).elim⟩
  rw [wp_bind, wp_read, wp_bind, modLinks, wp_update, wp_pure]
  have hring := h.ring pl hpl
  rw [hxs, List.map_append] at hring
  exact ⟨hring.prev_eq, rfl⟩

/-- The oldest free node goes into the list, with the element. -/
theorem list_enqueue_spec (h : m.Holds ready lists) (hk : ready k) {xs : List (Fin LIST_NUM)}
    {i : Fin LIST_NUM} (hxs : lists none = xs ++ [i]) (p : π) :
    wp (list_enqueue (.head (some k)) p) (fun l m' => l = .node i ∧ m'.Holds ready
        (Function.update (Function.update lists none xs) (some k) (i :: lists (some k))) ∧
      m'.ptr = Function.update m.ptr (.node i) p) F m := by
  rw [list_enqueue, wp_bind]
  refine (list_remove_prev_spec h (by simp) hxs).imp ?_
  rintro _ m₁ ⟨rfl, rfl⟩
  rw [wp_bind, wp_update, wp_bind, list_add_next, modLinks, wp_update, wp_pure]
  have hmove := h.moveLast (a := none) (b := some k) (by simp) (by rintro _ ⟨⟩; exact hk) (by simp) hxs
  exact ⟨rfl, hmove.setPtr _, rfl⟩

/-- The oldest node of the list goes to the free list; who is in it is returned. -/
theorem list_dequeue_spec (h : m.Holds ready lists) (hk : ready k) :
    wp (list_dequeue (.head (some k))) (fun r m' =>
      (lists (some k) = [] ∧ r = none ∧ m' = m) ∨
      ∃ xs i, lists (some k) = xs ++ [i] ∧ r = some (m.ptr (.node i)) ∧ m'.Holds ready
        (Function.update (Function.update lists (some k) xs) none (i :: lists none)) ∧
        m'.ptr = m.ptr) F m := by
  have hready : ∀ k', some k = some k' → ready k' := by
    rintro _ ⟨⟩
    exact hk
  rw [list_dequeue, wp_bind]
  refine (list_empty_spec h hready).imp ?_
  rintro b _ ⟨rfl, hb⟩
  rcases List.eq_nil_or_concat (lists (some k)) with hnil | ⟨xs, i, hxs⟩
  · rw [hb.mpr hnil]
    exact Or.inl ⟨hnil, rfl, rfl⟩
  · have hne : b = false := by
      rw [← Bool.not_eq_true, hb, hxs]
      simp
    rw [hne]
    simp only [Bool.false_eq_true, if_false]
    rw [List.concat_eq_append] at hxs
    rw [wp_bind]
    refine (list_remove_prev_spec h hready hxs).imp ?_
    rintro _ m₁ ⟨rfl, rfl⟩
    rw [wp_bind, wp_read, wp_bind, list_add_next, modLinks, wp_update, wp_pure]
    exact Or.inr ⟨xs, i, hxs, rfl, h.moveLast hready (by simp) (by simp) hxs, rfl⟩

/-- A node of the list goes to the free list. -/
theorem list_remove_spec (h : m.Holds ready lists) (hk : ready k) {xs ys : List (Fin LIST_NUM)}
    {i : Fin LIST_NUM} (hxs : lists (some k) = xs ++ i :: ys) (list : Cell ι) :
    wp (list_remove list (.node i)) (fun _ m' => m'.Holds ready
        (Function.update (Function.update lists (some k) (xs ++ ys)) none (i :: lists none)) ∧
      m'.ptr = m.ptr) F m := by
  rw [list_remove, wp_bind, modLinks, wp_update, list_add_next, modLinks, wp_update]
  exact ⟨h.move (by rintro _ ⟨⟩; exact hk) (by simp) (by simp) hxs, rfl⟩

theorem list_init_spec (h : m.Holds ready lists) (hnil : lists (some k) = []) :
    wp (list_init (.head (some k))) (fun _ m' =>
      m'.Holds (fun k' => ready k' ∨ k' = k) lists ∧ m'.ptr = m.ptr) F m := by
  rw [list_init, wp_bind, wp_read, h.inited]
  simp only [Bool.true_eq_false, if_false]
  rw [modLinks, wp_update]
  exact ⟨h.alone hnil, rfl⟩

/-- Where the nodes are after the first `list_init`. -/
def freeLists : Option ι → List (Fin LIST_NUM)
  | none => (List.finRange LIST_NUM).reverse
  | some _ => []

/-- Nodes are put into the free list one after the other. -/
theorem addAll_spec (ns : List (Fin LIST_NUM)) (hnd : ns.Nodup) (hring : m.links.Ring free_list []) :
    wp (loop (fun i _ => list_add_next free_list (.node i)) ns ()) (fun _ m' =>
      m'.inited = m.inited ∧ m'.links.Ring free_list (ns.reverse.map .node)) F m := by
  refine wp_loop (fun as _ m' => m'.inited = m.inited ∧ ∃ done, ns = done ++ as ∧
    m'.links.Ring free_list (done.reverse.map .node)) _ _ ⟨rfl, [], rfl, hring⟩ ?_ ?_
  · rintro i as - m₁ ⟨hm₁, done, hdone, hring⟩
    rw [list_add_next, modLinks, wp_update]
    refine ⟨hm₁, done ++ [i], by rw [hdone, List.append_assoc]; rfl, ?_⟩
    rw [List.reverse_append, List.reverse_singleton, List.singleton_append, List.map_cons]
    refine hring.addNext fun hmem => ?_
    rcases List.mem_cons.mp hmem with hcell | hmem
    · cases hcell
    · rw [List.mem_map_of_injective node_injective, List.mem_reverse] at hmem
      rw [hdone] at hnd
      exact (List.nodup_append.mp hnd).2.2 i hmem i (by simp) rfl
  · rintro - m₁ ⟨hm₁, done, hdone, hring⟩
    rw [List.append_nil] at hdone
    rw [hdone]
    exact ⟨hm₁, hring⟩

theorem init_list_spec :
    wp (init_list : PoolM ι π Unit) (fun _ m' => m'.inited = m.inited ∧
      m'.links.Ring free_list ((freeLists (none : Option ι)).map .node)) F m := by
  have hnd := List.nodup_finRange LIST_NUM
  unfold init_list freeLists
  -- the list is kept folded: the whole program would be run otherwise
  generalize List.finRange LIST_NUM = ns at hnd ⊢
  rw [wp_bind, modLinks, wp_update]
  exact addAll_spec ns hnd Links.ring_alone

/-- The first `list_init` puts all nodes into the free list. -/
theorem list_init_first (hinit : m.inited = false) :
    wp (list_init (.head (some k))) (fun _ m' => m'.Holds (· = k) freeLists) F m := by
  rw [list_init, wp_bind, wp_read, hinit, if_pos rfl]
  simp only [wp_bind, wp_update]
  refine init_list_spec.imp ?_
  rintro - m₁ ⟨hm₁, hring⟩
  rw [modLinks, wp_update]
  have hholds : m₁.Holds (fun _ => False) freeLists := by
    refine ⟨hm₁, fun pl hpl => ?_, fun _ _ => rfl,
      fun i => ⟨none, List.mem_reverse.mpr (List.mem_finRange i)⟩, fun i pl pl' hi hi' => ?_⟩
    · cases pl with
      | none => exact hring
      | some k' => exact (hpl k' rfl).elim
    · cases pl with
      | some _ => cases hi
      | none =>
        cases pl' with
        | some _ => cases hi'
        | none => rfl
  exact (hholds.alone rfl).mono (fun k' hk' => Or.inr hk') fun _ _ => rfl

end Holds

end Oslab
