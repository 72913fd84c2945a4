/-
# Rings of linked cells

Cells linked both ways in a ring that starts and ends at a head. A cell is put in
right after the head and taken out right before it, so a ring is a queue; and a
ring is left alone by what is done to another one.
-/
import Mathlib.Tactic

namespace Oslab.Lib

/-- The links of cells. -/
structure Links (α : Type) where
  prev : α → α
  next : α → α

namespace Links

variable {α : Type} {l l' : Links α} {a b h x : α} {xs ys zs : List α}

/-- The cells from `a` to `b`, linked both ways. -/
def Path (l : Links α) : α → List α → α → Prop
  | a, [], b => l.next a = b ∧ l.prev b = a
  | a, x :: xs, b => (l.next a = x ∧ l.prev x = a) ∧ Path l x xs b

theorem path_append : l.Path a (xs ++ x :: ys) b ↔ l.Path a xs x ∧ l.Path x ys b := by
  induction xs generalizing a with
  | nil => rfl
  | cons y xs ih =>
    simp only [List.cons_append, Path, ih]
    exact and_assoc.symm

/-- A path depends only on the links inside it. -/
theorem Path.congr (h : l.Path a xs b) (hnext : ∀ y ∈ a :: xs, l'.next y = l.next y)
    (hprev : ∀ y ∈ xs ++ [b], l'.prev y = l.prev y) : l'.Path a xs b := by
  induction xs generalizing a with
  | nil =>
    obtain ⟨hn, hp⟩ := h
    exact ⟨(hnext a (by simp)).trans hn, (hprev b (by simp)).trans hp⟩
  | cons x xs ih =>
    obtain ⟨⟨hn, hp⟩, hrest⟩ := h
    refine ⟨⟨(hnext a (by simp)).trans hn, (hprev x (by simp)).trans hp⟩, ?_⟩
    exact ih hrest (fun y hy => hnext y (List.mem_cons_of_mem a hy))
      fun y hy => hprev y (List.mem_cons_of_mem x hy)

/-- The ring from `h` through `xs` back to `h`, without a cell twice. -/
structure Ring (l : Links α) (h : α) (xs : List α) : Prop where
  path : l.Path h xs h
  nodup : (h :: xs).Nodup

/-- A ring is empty when its head is linked to itself. -/
theorem Ring.nil_iff (hr : l.Ring h xs) : l.next h = h ↔ xs = [] := by
  cases xs with
  | nil => exact ⟨fun _ => rfl, fun _ => hr.path.1⟩
  | cons x xs =>
    have hne : h ≠ x := by
      rintro rfl
      exact (List.nodup_cons.mp hr.nodup).1 List.mem_cons_self
    constructor
    · intro heq
      exact (hne (heq.symm.trans hr.path.1.1)).elim
    · rintro ⟨⟩

/-- A ring can start at any of its cells. -/
theorem Ring.rotate (hr : l.Ring h (xs ++ x :: ys)) : l.Ring x (ys ++ h :: xs) := by
  obtain ⟨hfront, hback⟩ := path_append.mp hr.path
  refine ⟨path_append.mpr ⟨hback, hfront⟩, ?_⟩
  have hperm : List.Perm ((h :: xs) ++ (x :: ys)) ((x :: ys) ++ (h :: xs)) :=
    List.perm_append_comm
  exact hperm.nodup_iff.mp hr.nodup

/-- The cell before the head is the last one. -/
theorem Ring.prev_eq (hr : l.Ring h (xs ++ [x])) : l.prev h = x :=
  (path_append.mp hr.path).2.2

/-- The next cell of the head is in its ring. -/
theorem Ring.next_mem (hr : l.Ring h xs) : l.next h ∈ h :: xs := by
  cases xs with
  | nil =>
    have heq : l.next h = h := hr.path.1
    rw [heq]
    exact List.mem_cons_self
  | cons y ys =>
    rw [hr.path.1.1]
    simp

/-- A ring is left alone when its cells keep their links. -/
theorem Ring.congr (hr : l.Ring h xs) (hnext : ∀ y ∈ h :: xs, l'.next y = l.next y)
    (hprev : ∀ y ∈ h :: xs, l'.prev y = l.prev y) : l'.Ring h xs := by
  refine ⟨hr.path.congr hnext fun y hy => hprev y ?_, hr.nodup⟩
  rcases List.mem_append.mp hy with hy | hy
  · exact List.mem_cons_of_mem h hy
  · exact List.mem_singleton.mp hy ▸ List.mem_cons_self

/-! ### What is done to a ring -/

variable [DecidableEq α]

/-- Link a cell to itself. -/
def alone (l : Links α) (h : α) : Links α :=
  ⟨Function.update l.prev h h, Function.update l.next h h⟩

/-- Put `x` in after `h`. -/
def addNext (l : Links α) (h x : α) : Links α :=
  let prev := Function.update l.prev x h
  let next := Function.update l.next x (l.next h)
  let next := Function.update next (prev x) x
  ⟨Function.update prev (next x) x, next⟩

/-- Take the cell before `h` out. -/
def removePrev (l : Links α) (h : α) : Links α :=
  let x := l.prev h
  let next := Function.update l.next (l.prev x) (l.next x)
  ⟨Function.update l.prev (next x) (l.prev x), next⟩

/-- Take `x` out, wherever it is. -/
def remove (l : Links α) (x : α) : Links α :=
  let prev := Function.update l.prev (l.next x) (l.prev x)
  ⟨prev, Function.update l.next (prev x) (l.next x)⟩

theorem ring_alone : (l.alone h).Ring h [] :=
  ⟨⟨Function.update_self .., Function.update_self ..⟩, List.nodup_singleton h⟩

theorem Ring.addNext (hr : l.Ring h xs) (hx : x ∉ h :: xs) : (l.addNext h x).Ring h (x :: xs) := by
  have hxh : x ≠ h := fun heq => hx (heq ▸ List.mem_cons_self)
  have hxs : x ∉ xs := fun hmem => hx (List.mem_cons_of_mem h hmem)
  have hnd : (h :: x :: xs).Nodup := by
    obtain ⟨hh, hxsnd⟩ := List.nodup_cons.mp hr.nodup
    refine List.nodup_cons.mpr ⟨?_, List.nodup_cons.mpr ⟨hxs, hxsnd⟩⟩
    simp [Ne.symm hxh, hh]
  -- where the links are now
  have hnextx : (l.addNext h x).next x = l.next h := by
    simp [Links.addNext, Function.update_of_ne hxh]
  have hnexth : (l.addNext h x).next h = x := by
    simp [Links.addNext]
  have hnext (y : α) (hyx : y ≠ x) (hyh : y ≠ h) : (l.addNext h x).next y = l.next y := by
    simp [Links.addNext, Function.update_of_ne hyx, Function.update_of_ne hyh]
  have hprev (y : α) (hyx : y ≠ x) (hyn : y ≠ l.next h) : (l.addNext h x).prev y = l.prev y := by
    simp [Links.addNext, Function.update_of_ne hyx, Function.update_of_ne hyn,
      Function.update_of_ne hxh]
  have hprevn : (l.addNext h x).prev (l.next h) = x := by
    simp [Links.addNext, Function.update_of_ne hxh]
  have hprevx (hne : x ≠ l.next h) : (l.addNext h x).prev x = h := by
    simp [Links.addNext, Function.update_of_ne hne, Function.update_of_ne hxh]
  refine ⟨⟨⟨hnexth, hprevx ?_⟩, ?_⟩, hnd⟩
  · cases xs with
    | nil =>
      have heq : l.next h = h := hr.path.1
      rw [heq]
      exact hxh
    | cons y ys =>
      rw [hr.path.1.1]
      exact fun heq => hxs (heq ▸ List.mem_cons_self)
  · cases xs with
    | nil =>
      have heq : l.next h = h := hr.path.1
      rw [heq] at hnextx hprevn
      exact ⟨hnextx, hprevn⟩
    | cons y ys =>
      have heq : l.next h = y := hr.path.1.1
      rw [heq] at hnextx hprevn hprev
      refine ⟨⟨hnextx, hprevn⟩, ?_⟩
      obtain ⟨hhy, hynd⟩ := List.nodup_cons.mp hr.nodup
      obtain ⟨hyys, -⟩ := List.nodup_cons.mp hynd
      refine Path.congr (Path.congr hr.path.2 (fun z hz => rfl) fun z hz => rfl)
        (fun z hz => hnext z ?_ ?_) fun z hz => hprev z ?_ ?_
      · rintro rfl
        exact hxs hz
      · rintro rfl
        exact hhy hz
      · rintro rfl
        rcases List.mem_append.mp hz with hz | hz
        · exact hxs (List.mem_cons_of_mem y hz)
        · exact hxh (List.mem_singleton.mp hz)
      · rintro rfl
        rcases List.mem_append.mp hz with hz | hz
        · exact hyys hz
        · exact hhy (List.mem_singleton.mp hz ▸ List.mem_cons_self)

theorem Ring.removePrev (hr : l.Ring h (xs ++ [x])) : (l.removePrev h).Ring h xs := by
  have hx : l.prev h = x := hr.prev_eq
  obtain ⟨hpath, hlast⟩ := path_append.mp hr.path
  have hnd : ((h :: xs) ++ [x]).Nodup := hr.nodup
  obtain ⟨hxs, -, hdisj⟩ := List.nodup_append.mp hnd
  have hne (y : α) (hy : y ∈ h :: xs) : y ≠ x := fun heq => hdisj y hy x (by simp) heq
  refine ⟨?_, hxs⟩
  -- the cell before the one taken out
  have hnextx : l.next x = h := hlast.1
  rcases List.eq_nil_or_concat xs with rfl | ⟨ys, y, rfl⟩
  · have hprevx : l.prev x = h := hpath.2
    have hxh : x ≠ h := (hne h (by simp)).symm
    constructor <;>
      simp [Links.removePrev, hx, hprevx, hnextx, Function.update_of_ne hxh]
  · rw [List.concat_eq_append] at *
    obtain ⟨hys, hy⟩ := path_append.mp hpath
    have hprevx : l.prev x = y := hy.2
    have hxy : x ≠ y := (hne y (by simp)).symm
    have hhy : h ≠ y := by
      rintro rfl
      exact (List.nodup_cons.mp hxs).1 (by simp)
    have hnext (z : α) (hz : z ≠ y) : (l.removePrev h).next z = l.next z := by
      simp [Links.removePrev, hx, hprevx, Function.update_of_ne hz]
    have hprev (z : α) (hz : z ≠ h) : (l.removePrev h).prev z = l.prev z := by
      simp [Links.removePrev, hx, hprevx, hnextx, Function.update_of_ne hxy, Function.update_of_ne hz]
    refine path_append.mpr ⟨hys.congr (fun z hz => hnext z ?_) fun z hz => hprev z ?_, ?_, ?_⟩
    · rintro rfl
      have hnd' : ((h :: ys) ++ [z]).Nodup := hxs
      exact (List.nodup_append.mp hnd').2.2 z hz z (by simp) rfl
    · rintro rfl
      exact (List.nodup_cons.mp hxs).1 hz
    · simp [Links.removePrev, hx, hprevx, hnextx]
    · simp [Links.removePrev, hx, hprevx, hnextx, Function.update_of_ne hxy]

/-- The cell before a head is taken out as any other cell is. -/
theorem Ring.removePrev_eq (hr : l.Ring h (xs ++ [x])) : l.removePrev h = l.remove x := by
  have hx : l.prev h = x := hr.prev_eq
  have hnext : l.next x = h := (path_append.mp hr.path).2.1
  have hnd : ((h :: xs) ++ [x]).Nodup := hr.nodup
  have hdisj := (List.nodup_append.mp hnd).2.2
  have hne : x ≠ h := fun heq => hdisj h List.mem_cons_self x (by simp) heq.symm
  have hprev : l.prev x ≠ x := by
    rcases List.eq_nil_or_concat xs with rfl | ⟨ys, y, rfl⟩
    · have hp : l.prev x = h := (path_append.mp hr.path).1.2
      rw [hp]
      exact hne.symm
    · rw [List.concat_eq_append] at hr hdisj
      have hp : l.prev x = y := (path_append.mp (path_append.mp hr.path).1).2.2
      rw [hp]
      exact hdisj y (by simp) x (by simp)
  simp only [Links.removePrev, Links.remove, hx, hnext]
  rw [Function.update_of_ne hprev.symm, Function.update_of_ne hne, hnext]

theorem Ring.remove (hr : l.Ring h (xs ++ x :: ys)) : (l.remove x).Ring h (xs ++ ys) := by
  cases ys with
  | nil =>
    rw [← hr.removePrev_eq, List.append_nil]
    exact hr.removePrev
  | cons y ys =>
    -- the ring starts at the cell after the one that is taken out
    have hrot : l.Ring y (ys ++ (h :: xs) ++ [x]) := by
      have hr' : l.Ring h ((xs ++ [x]) ++ y :: ys) := by simpa using hr
      simpa using hr'.rotate
    rw [← hrot.removePrev_eq]
    exact hrot.removePrev.rotate

/-! ### Other rings -/

theorem Ring.alone_other (hr : l.Ring h xs) (ha : a ∉ h :: xs) : (l.alone a).Ring h xs := by
  have hne (y : α) (hy : y ∈ h :: xs) : y ≠ a := by
    rintro rfl
    exact ha hy
  exact hr.congr (fun y hy => Function.update_of_ne (hne y hy) _ _)
    fun y hy => Function.update_of_ne (hne y hy) _ _

theorem Ring.addNext_other (hr : l.Ring h xs) (hb : l.Ring b ys) (hx : x ∉ h :: xs)
    (hxb : x ∉ b :: ys) (hdisj : ∀ y ∈ h :: xs, y ∉ b :: ys) : (l.addNext b x).Ring h xs := by
  have hxb' : x ≠ b := fun heq => hxb (heq ▸ List.mem_cons_self)
  refine hr.congr (fun y hy => ?_) fun y hy => ?_
  · have hyx : y ≠ x := fun heq => hx (heq ▸ hy)
    have hyb : y ≠ b := fun heq => hdisj y hy (heq ▸ List.mem_cons_self)
    simp [Links.addNext, Function.update_of_ne hyx, Function.update_of_ne hyb]
  · have hyx : y ≠ x := fun heq => hx (heq ▸ hy)
    have hyn : y ≠ l.next b := fun heq => hdisj y hy (heq ▸ hb.next_mem)
    simp [Links.addNext, Function.update_of_ne hyx, Function.update_of_ne hyn,
      Function.update_of_ne hxb']

theorem Ring.removePrev_other (hr : l.Ring h xs) (hb : l.Ring b (ys ++ [x]))
    (hdisj : ∀ y ∈ h :: xs, y ∉ b :: (ys ++ [x])) : (l.removePrev b).Ring h xs := by
  have hx : l.prev b = x := hb.prev_eq
  have hnextx : l.next x = b := (path_append.mp hb.path).2.1
  have hprevx : l.prev x ∈ b :: ys := by
    rcases List.eq_nil_or_concat ys with rfl | ⟨zs, z, rfl⟩
    · have hp : l.prev x = b := (path_append.mp hb.path).1.2
      simp [hp]
    · rw [List.concat_eq_append] at hb
      have hp : l.prev x = z := (path_append.mp (path_append.mp hb.path).1).2.2
      simp [hp]
  have hmem (y : α) (hy : y ∈ b :: ys) : y ∈ b :: (ys ++ [x]) := by
    rcases List.mem_cons.mp hy with rfl | hy
    · exact List.mem_cons_self
    · exact List.mem_cons_of_mem b (List.mem_append_left _ hy)
  have hxb : x ≠ l.prev x := by
    intro heq
    have hnd : ((b :: ys) ++ [x]).Nodup := hb.nodup
    exact (List.nodup_append.mp hnd).2.2 x (heq ▸ hprevx) x (by simp) rfl
  refine hr.congr (fun y hy => ?_) fun y hy => ?_
  · have hyp : y ≠ l.prev x := fun heq => hdisj y hy (hmem y (heq ▸ hprevx))
    simp [Links.removePrev, hx, Function.update_of_ne hyp]
  · have hyb : y ≠ b := fun heq => hdisj y hy (heq ▸ List.mem_cons_self)
    simp [Links.removePrev, hx, hnextx, Function.update_of_ne hxb, Function.update_of_ne hyb]

theorem Ring.remove_other (hr : l.Ring h xs) (hb : l.Ring b (ys ++ x :: zs))
    (hdisj : ∀ y ∈ h :: xs, y ∉ b :: (ys ++ x :: zs)) : (l.remove x).Ring h xs := by
  cases zs with
  | nil =>
    rw [← hb.removePrev_eq]
    exact hr.removePrev_other hb hdisj
  | cons z zs =>
    have hb' : l.Ring b ((ys ++ [x]) ++ z :: zs) := by simpa using hb
    have hrot : l.Ring z (zs ++ (b :: ys) ++ [x]) := by simpa using hb'.rotate
    rw [← hrot.removePrev_eq]
    refine hr.removePrev_other hrot fun y hy hmem => hdisj y hy ?_
    simp only [List.mem_cons, List.mem_append, List.not_mem_nil, or_false] at hmem ⊢
    tauto

end Links

end Oslab.Lib
