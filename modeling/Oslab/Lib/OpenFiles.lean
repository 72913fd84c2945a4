/-
# Descriptors that share offsets

Descriptors of processes refer to open objects, open objects to files. Descriptors of
one object share its offset; objects on one file share its bytes. What no descriptor
leads to is swept away.
-/
import Mathlib.Tactic

namespace Oslab.Lib

/-- An open object on a file: where it stands and what may be done through it. -/
@[ext] structure Handle (ν : Type) where
  node : ν
  pos : UInt32
  readable : Bool
  writable : Bool

/-- An open object. -/
inductive OpenObject (ν : Type)
  | file (h : Handle ν)
  /-- a device or a directory; where one stands is not tracked -/
  | other

/-- Descriptors `δ` of processes `π`, open objects `κ` and files `ν`. -/
@[ext] structure Desk (π δ κ ν : Type) where
  fds : π → δ → Option κ
  object : κ → Option (OpenObject ν)
  file : ν → Option (List UInt8)

namespace Desk

variable {π δ κ ν : Type} {v w : Desk π δ κ ν} {k : κ} {n : ν} {h : Handle ν}

/-- Some descriptor refers to the object. -/
def Used (v : Desk π δ κ ν) (k : κ) : Prop := ∃ p d, v.fds p d = some k

/-- Some descriptor leads to the file. -/
def Holds (v : Desk π δ κ ν) (n : ν) : Prop :=
  ∃ k h, v.Used k ∧ v.object k = some (.file h) ∧ h.node = n

open Classical in
/-- What no descriptor leads to is forgotten. -/
noncomputable def sweep (v : Desk π δ κ ν) : Desk π δ κ ν where
  fds := v.fds
  object k := if v.Used k then v.object k else none
  file n := if v.Holds n then v.file n else none

theorem sweep_object (hk : v.Used k) : v.sweep.object k = v.object k := if_pos hk

theorem sweep_unused (hk : ¬ v.Used k) : v.sweep.object k = none := if_neg hk

theorem sweep_file (hn : v.Holds n) : v.sweep.file n = v.file n := if_pos hn

theorem sweep_free (hn : ¬ v.Holds n) : v.sweep.file n = none := if_neg hn

/-- What the descriptors lead to decides what is left. -/
theorem sweep_congr (hfds : w.fds = v.fds) (hobject : ∀ k, v.Used k → w.object k = v.object k)
    (hfile : ∀ n, v.Holds n → w.file n = v.file n) : w.sweep = v.sweep := by
  have hused (k : κ) : w.Used k ↔ v.Used k := by rw [Used, Used, hfds]
  have hholds (n : ν) : w.Holds n ↔ v.Holds n := by
    refine exists_congr fun k => exists_congr fun h => ?_
    rw [hused]
    refine and_congr_right fun hk => ?_
    rw [hobject k hk]
  ext1
  · exact hfds
  · funext k
    by_cases hk : v.Used k
    · rw [sweep_object hk, sweep_object ((hused k).mpr hk), hobject k hk]
    · rw [sweep_unused hk, sweep_unused fun hw => hk ((hused k).mp hw)]
  · funext n
    by_cases hn : v.Holds n
    · rw [sweep_file hn, sweep_file ((hholds n).mpr hn), hfile n hn]
    · rw [sweep_free hn, sweep_free fun hw => hn ((hholds n).mp hw)]

/-- Nothing is there but what the descriptors lead to. -/
structure Clean (v : Desk π δ κ ν) : Prop where
  object : ∀ k, ¬ v.Used k → v.object k = none
  file : ∀ n, ¬ v.Holds n → v.file n = none

theorem holds_sweep : v.sweep.Holds n ↔ v.Holds n := by
  refine exists_congr fun k => exists_congr fun h => and_congr_right fun hk => ?_
  rw [sweep_object (v := v) hk]

theorem clean_sweep (v : Desk π δ κ ν) : v.sweep.Clean :=
  ⟨fun _ hk => sweep_unused hk, fun _ hn => sweep_free fun hv => hn (holds_sweep.mpr hv)⟩

theorem Clean.sweep_eq (hv : v.Clean) : v.sweep = v := by
  ext1
  · rfl
  · funext k
    by_cases hk : v.Used k
    · exact sweep_object hk
    · rw [sweep_unused hk, hv.object k hk]
  · funext n
    by_cases hn : v.Holds n
    · exact sweep_file hn
    · rw [sweep_free hn, hv.file n hn]

/-- A clean desk is what is left of any that agrees on what the descriptors lead to. -/
theorem Clean.eq_sweep (hv : v.Clean) (hfds : w.fds = v.fds)
    (hobject : ∀ k, v.Used k → w.object k = v.object k)
    (hfile : ∀ n, v.Holds n → w.file n = v.file n) : w.sweep = v :=
  (sweep_congr hfds hobject hfile).trans hv.sweep_eq

/-! ### Changes -/

variable {p q : π} {d : δ} {pos : UInt32} {bytes : List UInt8} {o : OpenObject ν}

/-- The object stands elsewhere. -/
def move [DecidableEq κ] (v : Desk π δ κ ν) (k : κ) (h : Handle ν) (pos : UInt32) : Desk π δ κ ν :=
  { v with object := Function.update v.object k (some (.file { h with pos := pos })) }

/-- The file has other bytes. -/
def put [DecidableEq ν] (v : Desk π δ κ ν) (n : ν) (bytes : List UInt8) : Desk π δ κ ν :=
  { v with file := Function.update v.file n (some bytes) }

/-- A descriptor refers to something else. -/
def point [DecidableEq π] [DecidableEq δ] (v : Desk π δ κ ν) (p : π) (d : δ) (k : Option κ) :
    Desk π δ κ ν :=
  { v with fds := Function.update v.fds p (Function.update (v.fds p) d k) }

/-- The descriptors of a process are replaced. -/
def give [DecidableEq π] (v : Desk π δ κ ν) (p : π) (fds : δ → Option κ) : Desk π δ κ ν :=
  { v with fds := Function.update v.fds p fds }

/-- A new object is open. -/
def place [DecidableEq κ] (v : Desk π δ κ ν) (k : κ) (o : OpenObject ν) : Desk π δ κ ν :=
  { v with object := Function.update v.object k (some o) }

section Object

variable [DecidableEq κ]

theorem holds_move (hk : v.object k = some (.file h)) : (v.move k h pos).Holds n ↔ v.Holds n := by
  constructor
  · intro hn
    obtain ⟨k', h', hk', hobject, rfl⟩ := hn
    by_cases heq : k' = k
    · subst heq
      simp only [move, Function.update_self, Option.some.injEq, OpenObject.file.injEq] at hobject
      subst hobject
      exact ⟨k', h, hk', hk, rfl⟩
    · simp only [move, Function.update_of_ne heq] at hobject
      exact ⟨k', h', hk', hobject, rfl⟩
  · intro hn
    obtain ⟨k', h', hk', hobject, rfl⟩ := hn
    by_cases heq : k' = k
    · subst heq
      rw [hk, Option.some.injEq, OpenObject.file.injEq] at hobject
      subst hobject
      exact ⟨k', { h with pos := pos }, hk', by simp only [move, Function.update_self], rfl⟩
    · exact ⟨k', h', hk', by simpa only [move, Function.update_of_ne heq] using hobject, rfl⟩

theorem Clean.move (hv : v.Clean) (hused : v.Used k) (hk : v.object k = some (.file h)) :
    (v.move k h pos).Clean := by
  refine ⟨fun k' hk' => ?_, fun n hn => hv.file n fun hold => hn ((holds_move hk).mpr hold)⟩
  have hne : k' ≠ k := by
    rintro rfl
    exact hk' hused
  simp only [Desk.move, Function.update_of_ne hne]
  exact hv.object k' hk'

end Object

theorem Clean.put [DecidableEq ν] (hv : v.Clean) (hn : v.Holds n) : (v.put n bytes).Clean := by
  refine ⟨hv.object, fun n' hn' => ?_⟩
  have hne : n' ≠ n := by
    rintro rfl
    exact hn' hn
  simp only [Desk.put, Function.update_of_ne hne]
  exact hv.file n' hn'

section Descriptors

variable [DecidableEq π]

section Point

variable [DecidableEq δ]

theorem used_point : (v.point p d (some k)).Used k := ⟨p, d, by simp [point]⟩

/-- Nothing else is used. -/
theorem used_of_point {k' : κ} {t : Option κ} (h : (v.point p d t).Used k') :
    v.Used k' ∨ t = some k' := by
  obtain ⟨p', d', hd'⟩ := h
  by_cases hp : p' = p
  · subst hp
    by_cases hd : d' = d
    · subst hd
      simp only [point, Function.update_self] at hd'
      exact Or.inr hd'
    · simp only [point, Function.update_self, Function.update_of_ne hd] at hd'
      exact Or.inl ⟨p', d', hd'⟩
  · simp only [point, Function.update_of_ne hp] at hd'
    exact Or.inl ⟨p', d', hd'⟩

/-- A free descriptor is pointed, and what was used stays so. -/
theorem Used.point {k' : κ} {t : Option κ} (hd : v.fds p d = none) (h : v.Used k') :
    (v.point p d t).Used k' := by
  obtain ⟨p', d', hd'⟩ := h
  refine ⟨p', d', ?_⟩
  by_cases hp : p' = p
  · subst hp
    have hne : d' ≠ d := by
      rintro rfl
      rw [hd] at hd'
      cases hd'
    simp only [Desk.point, Function.update_self, Function.update_of_ne hne]
    exact hd'
  · simp only [Desk.point, Function.update_of_ne hp]
    exact hd'

theorem Clean.point (hv : v.Clean) (hd : v.fds p d = none) :
    (v.point p d (some k)).Clean := by
  refine ⟨fun k' hk' => hv.object k' fun hold => hk' (hold.point hd), fun n hn => ?_⟩
  refine hv.file n fun hold => hn ?_
  obtain ⟨k', h', hk', hobject⟩ := hold
  exact ⟨k', h', hk'.point hd, hobject⟩

end Point

/-- A process that had no descriptors gets some that are used already. -/
theorem used_give {k' : κ} (hq : ∀ d, v.fds q d = none) : (v.give q (v.fds p)).Used k' ↔ v.Used k' := by
  constructor
  · intro hk
    obtain ⟨p', d', hd'⟩ := hk
    by_cases hp : p' = q
    · subst hp
      simp only [give, Function.update_self] at hd'
      exact ⟨p, d', hd'⟩
    · simp only [give, Function.update_of_ne hp] at hd'
      exact ⟨p', d', hd'⟩
  · intro hk
    obtain ⟨p', d', hd'⟩ := hk
    have hp : p' ≠ q := by
      rintro rfl
      rw [hq] at hd'
      cases hd'
    exact ⟨p', d', by simpa only [give, Function.update_of_ne hp] using hd'⟩

theorem Clean.give (hv : v.Clean) (hq : ∀ d, v.fds q d = none) : (v.give q (v.fds p)).Clean := by
  refine ⟨fun k' hk' => hv.object k' fun hold => hk' ((used_give hq).mpr hold), fun n hn => ?_⟩
  refine hv.file n fun hold => hn ?_
  obtain ⟨k', h', hk', hobject⟩ := hold
  exact ⟨k', h', (used_give hq).mpr hk', hobject⟩

end Descriptors

/-- A new object replaces nothing. -/
theorem Clean.place [DecidableEq π] [DecidableEq δ] [DecidableEq κ] (hv : v.Clean) (hd : v.fds p d = none) (hk : ¬ v.Used k) :
    ((v.point p d (some k)).place k o).Clean := by
  have hpoint := hv.point (k := k) hd
  refine ⟨fun k' hk' => ?_, fun n hn => hpoint.file n fun hold => hn ?_⟩
  · have hne : k' ≠ k := by
      rintro rfl
      exact hk' used_point
    simp only [Desk.place, Function.update_of_ne hne]
    exact hpoint.object k' hk'
  · obtain ⟨k', h', hk', hobject, rfl⟩ := hold
    have hne : k' ≠ k := by
      rintro rfl
      have hnone : v.object k' = none := hv.object k' hk
      have hsome : v.object k' = some (.file h') := hobject
      rw [hnone] at hsome
      cases hsome
    exact ⟨k', h', hk', by simpa only [Desk.place, Function.update_of_ne hne] using hobject, rfl⟩

end Desk

end Oslab.Lib
