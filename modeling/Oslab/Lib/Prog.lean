/-
# Programs over a state that may abort

A program reads and updates a state and either returns a value or aborts with a
reason. Its weakest precondition has two postconditions: one for the value and
final state of a run that returns, one for the reasons with which a run may
abort. Sequencing, branching, loops and running a program on one part of a
larger state each have one rule; `wp_mono` is the rule of consequence through
which the specification of a procedure is used where the procedure is called.
-/
import Mathlib.Tactic

namespace Oslab.Lib

/-- A program: from a state, a value and a final state, or a reason to abort. -/
def Prog (ε σ α : Type) : Type := σ → Except ε (α × σ)

namespace Prog

variable {ε σ τ α β γ : Type}

/-- Return a value, leaving the state alone. -/
def ret (a : α) : Prog ε σ α := fun s => .ok (a, s)

/-- Run one program, then the next on its value and final state. -/
def seq (m : Prog ε σ α) (f : α → Prog ε σ β) : Prog ε σ β := fun s =>
  match m s with
  | .ok (a, s') => f a s'
  | .error e => .error e

instance : Monad (Prog ε σ) where
  pure := ret
  bind := seq

theorem seq_ret (m : Prog ε σ α) : seq m (fun a => ret a) = m := by
  funext s
  unfold seq
  cases m s <;> rfl

theorem seq_assoc (m : Prog ε σ α) (f : α → Prog ε σ β) (g : β → Prog ε σ γ) :
    seq (seq m f) g = seq m fun a => seq (f a) g := by
  funext s
  unfold seq
  cases m s <;> rfl

instance : LawfulMonad (Prog ε σ) := .mk' _ seq_ret (fun _ _ => rfl) seq_assoc

/-- Read a part of the state. -/
def read (f : σ → α) : Prog ε σ α := fun s => .ok (f s, s)

/-- Update the state. -/
def update (f : σ → σ) : Prog ε σ Unit := fun s => .ok ((), f s)

/-- Stop with a reason. -/
def abort (e : ε) : Prog ε σ α := fun _ => .error e

/-- Stop with a reason unless the condition holds. -/
def assert (p : Prop) [Decidable p] (e : ε) : Prog ε σ Unit :=
  if p then ret () else abort e

/-- Run a program on the part of a larger state given by a getter and a setter. -/
def zoom (get : τ → σ) (set : σ → τ → τ) (m : Prog ε σ α) : Prog ε τ α := fun t =>
  match m (get t) with
  | .ok (a, s) => .ok (a, set s t)
  | .error e => .error e

/-- `for (i = lo; n more times; i += step)`, left early when the body yields a value. -/
def scan (body : ℕ → Prog ε σ (Option α)) (step : ℕ) : ℕ → ℕ → Prog ε σ (Option α)
  | 0, _ => ret none
  | n + 1, i => do
    match ← body i with
    | some a => ret (some a)
    | none => scan body step n (i + step)

/-- `for` over the elements of a list, with an accumulator. -/
def loop (body : α → β → Prog ε σ β) : List α → β → Prog ε σ β
  | [], b => ret b
  | a :: as, b => do
    let b ← body a b
    loop body as b

/-! ### Weakest preconditions -/

/-- Every run from `s` that returns meets `post`; every run that aborts meets `fail`. -/
def wp (m : Prog ε σ α) (post : α → σ → Prop) (fail : ε → Prop) (s : σ) : Prop :=
  match m s with
  | .ok (a, s') => post a s'
  | .error e => fail e

variable {m : Prog ε σ α} {post post' : α → σ → Prop} {fail fail' : ε → Prop} {s : σ}

theorem wp_iff : wp m post fail s ↔
    (∀ a s', m s = .ok (a, s') → post a s') ∧ ∀ e, m s = .error e → fail e := by
  unfold wp
  cases h : m s with
  | ok r => exact ⟨fun hr => ⟨fun a s' heq => by cases heq; exact hr, by simp⟩,
      fun hr => hr.1 r.1 r.2 rfl⟩
  | error e => simp

theorem wp.of_ok {a : α} {s' : σ} (h : wp m post fail s) (hok : m s = .ok (a, s')) :
    post a s' := (wp_iff.mp h).1 a s' hok

theorem wp.of_error {e : ε} (h : wp m post fail s) (herr : m s = .error e) : fail e :=
  (wp_iff.mp h).2 e herr

/-- The rule of consequence. -/
theorem wp.mono (h : wp m post fail s) (hpost : ∀ a s', post a s' → post' a s')
    (hfail : ∀ e, fail e → fail' e) : wp m post' fail' s :=
  wp_iff.mpr ⟨fun a s' hok => hpost a s' (h.of_ok hok), fun e herr => hfail e (h.of_error herr)⟩

/-- Consequence on the returning runs only. -/
theorem wp.imp (h : wp m post fail s) (hpost : ∀ a s', post a s' → post' a s') :
    wp m post' fail s := h.mono hpost fun _ => id

/-- Two specifications of one program hold together. -/
theorem wp.and (h : wp m post fail s) (h' : wp m post' fail' s) :
    wp m (fun a s' => post a s' ∧ post' a s') (fun e => fail e ∧ fail' e) s :=
  wp_iff.mpr ⟨fun _ _ hok => ⟨h.of_ok hok, h'.of_ok hok⟩,
    fun _ herr => ⟨h.of_error herr, h'.of_error herr⟩⟩

/-- A program does what it does. -/
theorem wp_self (m : Prog ε σ α) (s : σ) :
    wp m (fun a s' => m s = .ok (a, s')) (fun e => m s = .error e) s :=
  wp_iff.mpr ⟨fun _ _ hok => hok, fun _ herr => herr⟩

/-- A program that may not abort returns. -/
theorem wp.returns (h : wp m post (fun _ => False) s) :
    ∃ a s', m s = .ok (a, s') ∧ post a s' := by
  cases hm : m s with
  | ok r => exact ⟨r.1, r.2, rfl, h.of_ok hm⟩
  | error e => exact (h.of_error hm).elim

theorem wp.returns_of (h : wp m post fail s) (hno : ∀ e, ¬ fail e) :
    ∃ a s', m s = .ok (a, s') ∧ post a s' :=
  (h.mono (fun _ _ hpost => hpost) hno).returns

@[simp] theorem wp_pure (a : α) : wp (pure a : Prog ε σ α) post fail s ↔ post a s := Iff.rfl

@[simp] theorem wp_ret (a : α) : wp (ret a : Prog ε σ α) post fail s ↔ post a s := Iff.rfl

@[simp] theorem wp_bind (f : α → Prog ε σ β) {post : β → σ → Prop} :
    wp (m >>= f) post fail s ↔ wp m (fun a s' => wp (f a) post fail s') fail s := by
  change wp (seq m f) post fail s ↔ _
  unfold wp seq
  cases m s <;> rfl

@[simp] theorem wp_map (f : α → β) {post : β → σ → Prop} :
    wp (f <$> m) post fail s ↔ wp m (fun a s' => post (f a) s') fail s :=
  wp_bind (m := m) (fun a => pure (f a))

@[simp] theorem wp_read (f : σ → α) : wp (read f : Prog ε σ α) post fail s ↔ post (f s) s :=
  Iff.rfl

@[simp] theorem wp_update (f : σ → σ) {post : Unit → σ → Prop} :
    wp (update f : Prog ε σ Unit) post fail s ↔ post () (f s) := Iff.rfl

@[simp] theorem wp_abort (e : ε) : wp (abort e : Prog ε σ α) post fail s ↔ fail e := Iff.rfl

@[simp] theorem wp_assert (p : Prop) [Decidable p] (e : ε) {post : Unit → σ → Prop} :
    wp (assert p e : Prog ε σ Unit) post fail s ↔ (p → post () s) ∧ (¬ p → fail e) := by
  by_cases h : p <;> simp [assert, h]

theorem wp_ite (p : Prop) [Decidable p] (m' : Prog ε σ α) :
    wp (if p then m else m') post fail s ↔
      (p → wp m post fail s) ∧ (¬ p → wp m' post fail s) := by
  by_cases h : p <;> simp [h]

@[simp] theorem wp_zoom (get : τ → σ) (set : σ → τ → τ) {post : α → τ → Prop} {t : τ} :
    wp (zoom get set m) post fail t ↔ wp m (fun a s => post a (set s t)) fail (get t) := by
  unfold wp zoom
  cases m (get t) <;> rfl

/-- The loop rule for `scan`: an invariant that every round without a value carries
from one index to the next. -/
theorem wp_scan {body : ℕ → Prog ε σ (Option α)} {step : ℕ} {post : Option α → σ → Prop}
    (inv : ℕ → σ → Prop) (n i : ℕ) {s : σ} (hinit : inv i s)
    (hbody : ∀ r < n, ∀ s, inv (i + r * step) s →
      wp (body (i + r * step)) (fun o s' => match o with
        | some a => post (some a) s'
        | none => inv (i + (r + 1) * step) s') fail s)
    (hexit : ∀ s, inv (i + n * step) s → post none s) :
    wp (scan body step n i) post fail s := by
  induction n generalizing i s with
  | zero => exact hexit s (by simpa using hinit)
  | succ n ih =>
    rw [scan, wp_bind]
    have hfirst := hbody 0 n.succ_pos s (by simpa using hinit)
    simp only [Nat.zero_mul, Nat.add_zero, Nat.zero_add, Nat.one_mul] at hfirst
    refine hfirst.imp fun o s' ho => ?_
    cases o with
    | some a => exact ho
    | none =>
      refine ih (i + step) ho (fun r hr s hs => ?_) fun s hs => hexit s ?_
      · have hnext := hbody (r + 1) (by omega) s
        simp only [Nat.succ_mul, ← Nat.add_assoc, Nat.add_right_comm i _ step] at hnext hs ⊢
        exact hnext hs
      · simpa only [Nat.succ_mul, ← Nat.add_assoc, Nat.add_right_comm i _ step] using hs

/-- The loop rule for `loop`: an invariant over the elements still to come. -/
theorem wp_loop {body : α → β → Prog ε σ β} {post : β → σ → Prop}
    (inv : List α → β → σ → Prop) (as : List α) (b : β) {s : σ} (hinit : inv as b s)
    (hbody : ∀ a as b s, inv (a :: as) b s → wp (body a b) (fun b s' => inv as b s') fail s)
    (hexit : ∀ b s, inv [] b s → post b s) : wp (loop body as b) post fail s := by
  induction as generalizing b s with
  | nil => exact hexit b s hinit
  | cons a as ih =>
    rw [loop, wp_bind]
    exact (hbody a as b s hinit).imp fun b s' hb => ih b hb

/-- The loop rule for `loop`, with an invariant over the number of elements done. -/
theorem wp_loop_index {body : α → β → Prog ε σ β} {post : β → σ → Prop}
    (inv : ℕ → β → σ → Prop) (as : List α) (b : β) {s : σ} (hinit : inv 0 b s)
    (hbody : ∀ k a, as[k]? = some a → ∀ b s, inv k b s →
      wp (body a b) (fun b s' => inv (k + 1) b s') fail s)
    (hexit : ∀ b s, inv as.length b s → post b s) : wp (loop body as b) post fail s := by
  refine wp_loop (fun l b s => ∃ k ≤ as.length, l = as.drop k ∧ inv k b s) as b
    ⟨0, Nat.zero_le _, rfl, hinit⟩ ?_ ?_
  · rintro a l b s ⟨k, -, hl, hinv⟩
    have hk : k < as.length := by
      by_contra hge
      rw [List.drop_of_length_le (Nat.le_of_not_lt hge)] at hl
      cases hl
    rw [List.drop_eq_getElem_cons hk, List.cons.injEq] at hl
    obtain ⟨rfl, rfl⟩ := hl
    exact (hbody k _ (List.getElem?_eq_getElem hk) b s hinv).imp fun b s' hb => ⟨k + 1, hk, rfl, hb⟩
  · rintro b s ⟨k, hk, hl, hinv⟩
    obtain rfl : k = as.length := le_antisymm hk (List.drop_eq_nil_iff.mp hl.symm)
    exact hexit b s hinv

/-! ### What a program leaves alone -/

/-- Runs that return leave the part `f` of the state as it is. -/
def Keeps {ρ : Type} (f : σ → ρ) (m : Prog ε σ α) : Prop :=
  ∀ s a s', m s = .ok (a, s') → f s' = f s

namespace Keeps

variable {ρ : Type} {f : σ → ρ} {m' : Prog ε σ α}

theorem wp (h : Keeps f m) (s : σ) : wp m (fun _ s' => f s' = f s) (fun _ => True) s :=
  wp_iff.mpr ⟨fun a s' hok => h s a s' hok, fun _ _ => trivial⟩

theorem of_wp (h : ∀ s, Prog.wp m (fun _ s' => f s' = f s) (fun _ => True) s) : Keeps f m :=
  fun s _ _ hok => (h s).of_ok hok

theorem pure (a : α) : Keeps f (Pure.pure a : Prog ε σ α) := by
  intro s _ s' hok
  cases hok
  rfl

theorem bind {g : α → Prog ε σ β} (h : Keeps f m) (h' : ∀ a, Keeps f (g a)) :
    Keeps f (m >>= g) := by
  refine of_wp fun s => ?_
  rw [wp_bind]
  refine (h.wp s).imp fun a s₁ heq => ?_
  exact ((h' a).wp s₁).imp fun b s₂ heq' => heq'.trans heq

theorem read {g : σ → α} : Keeps f (Prog.read g : Prog ε σ α) := by
  intro s _ s' hok
  cases hok
  rfl

theorem update {g : σ → σ} (h : ∀ s, f (g s) = f s) : Keeps f (Prog.update g : Prog ε σ Unit) := by
  intro s _ s' hok
  cases hok
  exact h s

theorem abort (e : ε) : Keeps f (Prog.abort e : Prog ε σ α) := by
  intro s _ s' hok
  cases hok

theorem assert (p : Prop) [Decidable p] (e : ε) : Keeps f (Prog.assert p e : Prog ε σ Unit) := by
  unfold Prog.assert
  split
  · exact pure ()
  · exact abort e

theorem ite {p : Prop} [Decidable p] (h : Keeps f m) (h' : Keeps f m') :
    Keeps f (if p then m else m') := by
  split
  · exact h
  · exact h'

theorem zoom {get : σ → τ} {set : τ → σ → σ} {m : Prog ε τ α} (h : ∀ t s, f (set t s) = f s) :
    Keeps f (Prog.zoom get set m) := by
  refine of_wp fun s => ?_
  rw [wp_zoom]
  exact wp_iff.mpr ⟨fun _ t _ => h t s, fun _ _ => trivial⟩

theorem loop {body : α → β → Prog ε σ β} (h : ∀ a b, Keeps f (body a b)) (as : List α) (b : β) :
    Keeps f (Prog.loop body as b) := by
  induction as generalizing b with
  | nil => exact pure b
  | cons a as ih => exact (h a b).bind fun b => ih b

end Keeps

end Prog

end Oslab.Lib
