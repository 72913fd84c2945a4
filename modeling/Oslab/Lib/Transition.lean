/-
# Labelled transition systems

States, labelled steps and initial states; runs as lists of labels; and the
invariant rule, which turns a fact about single steps into one about all runs.
A system restricted by a condition on its steps has fewer runs, so what holds
of the whole system holds of it too.
-/
import Mathlib.Tactic

namespace Oslab.Lib

/-- A labelled transition system with initial states. -/
structure Lts (σ κ : Type) where
  init : σ → Prop
  step : σ → κ → σ → Prop

namespace Lts

variable {σ κ : Type} {S : Lts σ κ} {s t u : σ} {l : κ} {ls ls' : List κ}

/-- A run along a list of labels. -/
inductive Run (S : Lts σ κ) : σ → List κ → σ → Prop
  | refl (s : σ) : Run S s [] s
  | tail {s t u : σ} {ls : List κ} {l : κ} : Run S s ls t → S.step t l u → Run S s (ls ++ [l]) u

/-- A state some run from an initial state ends in. -/
inductive Reachable (S : Lts σ κ) : σ → Prop
  | init {s : σ} : S.init s → Reachable S s
  | step {s t : σ} {l : κ} : Reachable S s → S.step s l t → Reachable S t

/-- The reachable states. -/
abbrev Reached (S : Lts σ κ) : Type := {s : σ // S.Reachable s}

/-- A run from an initial state. -/
structure History (S : Lts σ κ) where
  first : σ
  labels : List κ
  last : σ
  init : S.init first
  run : S.Run first labels last

/-- The same system, allowed only the steps that meet a condition. -/
def restrict (S : Lts σ κ) (cond : σ → κ → Prop) : Lts σ κ where
  init := S.init
  step s l t := cond s l ∧ S.step s l t

theorem Run.single (h : S.step s l t) : S.Run s [l] t := .tail (.refl s) h

theorem Run.trans (h : S.Run s ls t) (h' : S.Run t ls' u) : S.Run s (ls ++ ls') u := by
  induction h' with
  | refl => simpa using h
  | tail _ hstep ih => rw [← List.append_assoc]; exact ih.tail hstep

theorem Run.head (h : S.step s l t) (h' : S.Run t ls u) : S.Run s (l :: ls) u :=
  (Run.single h).trans h'

theorem Run.of_nil (h : S.Run s [] t) : t = s := by
  generalize hnil : [] = ls at h
  cases h with
  | refl => rfl
  | tail => simp at hnil

/-- The last step of a run. -/
theorem Run.of_concat (h : S.Run s (ls ++ [l]) u) : ∃ t, S.Run s ls t ∧ S.step t l u := by
  generalize hall : ls ++ [l] = all at h
  cases h with
  | refl => simp at hall
  | tail hrun hstep =>
    obtain ⟨rfl, hl⟩ := List.append_inj' hall rfl
    cases hl
    exact ⟨_, hrun, hstep⟩

/-- A run along one label. -/
theorem Run.of_single (h : S.Run s [l] t) : S.step s l t := by
  obtain ⟨u, hnil, hstep⟩ := @Run.of_concat _ _ _ _ _ _ [] h
  cases Run.of_nil hnil
  exact hstep

/-- A run along two lists one after the other passes through a state between them. -/
theorem Run.of_append (h : S.Run s (ls ++ ls') u) : ∃ t, S.Run s ls t ∧ S.Run t ls' u := by
  induction ls' using List.reverseRecOn generalizing u with
  | nil => exact ⟨u, by simpa using h, .refl u⟩
  | append_singleton ls' l ih =>
    rw [← List.append_assoc] at h
    obtain ⟨v, hrun, hstep⟩ := h.of_concat
    obtain ⟨t, h₁, h₂⟩ := ih hrun
    exact ⟨t, h₁, h₂.tail hstep⟩

/-- The first step of a run. -/
theorem Run.of_cons (h : S.Run s (l :: ls) u) : ∃ t, S.step s l t ∧ S.Run t ls u := by
  obtain ⟨t, hone, hrun⟩ := @Run.of_append _ _ _ _ _ [l] _ h
  exact ⟨t, hone.of_single, hrun⟩

/-- **The invariant rule.** -/
theorem Run.invariant (inv : σ → Prop) (hstep : ∀ s l t, inv s → S.step s l t → inv t)
    (h : S.Run s ls t) (hs : inv s) : inv t := by
  induction h with
  | refl => exact hs
  | tail _ hlast ih => exact hstep _ _ _ ih hlast

theorem Run.reachable (h : S.Run s ls t) (hs : S.Reachable s) : S.Reachable t :=
  h.invariant S.Reachable (fun _ _ _ hr hstep => hr.step hstep) hs

/-- **The invariant rule for reachable states.** -/
theorem Reachable.invariant (inv : σ → Prop) (hinit : ∀ s, S.init s → inv s)
    (hstep : ∀ s l t, inv s → S.step s l t → inv t) (h : S.Reachable s) : inv s := by
  induction h with
  | init hs => exact hinit _ hs
  | step _ hlast ih => exact hstep _ _ _ ih hlast

theorem Reachable.of_restrict {cond : σ → κ → Prop} (h : (S.restrict cond).Reachable s) :
    S.Reachable s := by
  induction h with
  | init hs => exact .init hs
  | step _ hlast ih => exact ih.step hlast.2

/-- What a system with fewer initial states and fewer steps reaches. -/
theorem Reachable.mono {T : Lts σ κ} (hinit : ∀ s, S.init s → T.init s)
    (hstep : ∀ s l t, S.step s l t → T.step s l t) (h : S.Reachable s) : T.Reachable s := by
  induction h with
  | init hs => exact .init (hinit _ hs)
  | step _ hlast ih => exact ih.step (hstep _ _ _ hlast)

/-- A step-by-step map of states carries runs over, from states of an invariant. -/
theorem Run.map {τ : Type} {T : Lts τ κ} (f : σ → τ) (inv : σ → Prop)
    (hinv : ∀ s l t, inv s → S.step s l t → inv t)
    (hstep : ∀ s l t, inv s → S.step s l t → T.step (f s) l (f t)) (h : S.Run s ls t)
    (hs : inv s) : T.Run (f s) ls (f t) := by
  induction h with
  | refl => exact .refl _
  | tail hrun hlast ih => exact ih.tail (hstep _ _ _ (hrun.invariant inv hinv hs) hlast)

theorem Run.of_restrict {cond : σ → κ → Prop} (h : (S.restrict cond).Run s ls t) :
    S.Run s ls t := by
  induction h with
  | refl => exact .refl _
  | tail _ hlast ih => exact ih.tail hlast.2

end Lts

end Oslab.Lib
