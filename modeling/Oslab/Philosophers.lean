/-
# The dining philosophers

Five processes share five semaphores, one for each chopstick. Two neighbours
never eat at once. But all of them take the chopstick on the same side first, so
when each has taken one, each waits for its neighbour for ever. That is the only
way to get stuck: as long as the last philosopher does not take a first chopstick
while all others hold theirs, somebody can go on.
-/
import Oslab.Semaphores

namespace Oslab

open Lib Lib.Prog

abbrev Seat := Fin 5

/-- What a philosopher does next. -/
inductive Pc
  /-- `sem_p(sem_id[(id + 1) % 5])` -/
  | first
  /-- `sem_p(sem_id[id])` -/
  | second
  /-- `eat(id)` and `sem_v(sem_id[id])` -/
  | eat
  /-- `sem_v(sem_id[(id + 1) % 5])` and `think(id)` -/
  | left
  deriving DecidableEq

/-- The processes of the philosophers and the semaphores that `init` opens. -/
structure Table where
  proc : Seat → ProcPtr
  sem_id : Seat → UsemPtr
  proc_injective : Function.Injective proc
  sem_injective : Function.Injective sem_id

/-- The kernel, and what each philosopher does next. -/
structure Dinner where
  kernel : Kernel
  pc : Seat → Pc

/-- The kernel while a process runs. -/
def Kernel.running (s : Kernel) (p : ProcPtr) : Kernel := { s with curr := p }

theorem Kernel.running_sem (s : Kernel) (p : ProcPtr) (sp : SemPtr) :
    (s.running p).sem sp = s.sem sp := by
  cases sp <;> rfl

/-- One operation of `philosopher`, and the one that follows. -/
def philosopher (T : Table) (id : Seat) : Pc → KernelM Pc
  | .first => do
    let _ ← sem_p (.user (T.sem_id (id + 1)))
    pure .second
  | .second => do
    let _ ← sem_p (.user (T.sem_id id))
    pure .eat
  | .eat => do
    sem_v (.user (T.sem_id id))
    pure .left
  | .left => do
    sem_v (.user (T.sem_id (id + 1)))
    pure .first

namespace Table

variable (T : Table)

/-- The philosopher is blocked in `sem_p`. -/
def Blocked (x : Dinner) (i : Seat) : Prop := (x.kernel.pcb (T.proc i)).status = .blocked

/-- The philosopher is between its second `sem_p` and its first `sem_v`. -/
def Eating (x : Dinner) (i : Seat) : Prop := x.pc i = .eat ∧ ¬ T.Blocked x i

/-- The philosopher has its first chopstick and not yet its second. -/
def Holding (x : Dinner) (i : Seat) : Prop :=
  x.pc i = .second ∧ ¬ T.Blocked x i ∨ x.pc i = .eat ∧ T.Blocked x i

/-- The philosophers from `init` on, in any order. -/
def dinner : Lts Dinner Seat where
  init x := ∀ i, x.kernel.sem (.user (T.sem_id i)) = sem_init 1 ∧ x.pc i = .first ∧ ¬ T.Blocked x i
  step x i x' := ¬ T.Blocked x i ∧ ∃ pc,
    philosopher T i (x.pc i) (x.kernel.running (T.proc i)) = .ok (pc, x'.kernel) ∧
      x'.pc = Function.update x.pc i pc

/-- Nobody takes a first chopstick while all others hold theirs. -/
def Careful (x : Dinner) (i : Seat) : Prop := x.pc i = .first → ∃ j, j ≠ i ∧ ¬ T.Holding x j

end Table

/-! ### Who claims which chopstick -/

/-- What a philosopher has of a chopstick. -/
inductive Claim
  | none
  | waits
  | holds
  deriving DecidableEq

/-- Where a philosopher is. -/
inductive Phase
  | think
  | wait1
  | has1
  | wait2
  | eats
  | left
  deriving DecidableEq

namespace Phase

def pc : Phase → Pc
  | .think => .first
  | .wait1 | .has1 => .second
  | .wait2 | .eats => .eat
  | .left => .left

/-- What it has of the chopstick that it takes first. -/
def fst : Phase → Claim
  | .think => .none
  | .wait1 => .waits
  | .has1 | .wait2 | .eats | .left => .holds

/-- What it has of the chopstick that it takes second. -/
def snd : Phase → Claim
  | .wait2 => .waits
  | .eats => .holds
  | .think | .wait1 | .has1 | .left => .none

/-- The philosopher is blocked. -/
def waits (p : Phase) : Bool := p = .wait1 ∨ p = .wait2

end Phase

/-- The claims of two neighbours on the chopstick between them: one holds it at most, and who waits
for it waits for the other. -/
def Claim.Ok : Claim → Claim → Prop
  | .holds, c => c ≠ .holds
  | .waits, c => c = .holds
  | .none, c => c ≠ .waits

instance (c d : Claim) : Decidable (c.Ok d) :=
  match c with
  | .holds => inferInstanceAs (Decidable (d ≠ .holds))
  | .waits => inferInstanceAs (Decidable (d = .holds))
  | .none => inferInstanceAs (Decidable (d ≠ .waits))

def Claim.count (c : Claim) : ℤ := if c = .holds then 1 else 0

def Claim.queue (c : Claim) (p : ProcPtr) : List ProcPtr := if c = .waits then [p] else []

/-- The semaphore of a chopstick: the neighbour on one side takes it first, the other second. -/
def Table.semOf (T : Table) (j : Seat) (c d : Claim) : Sem :=
  ⟨1 - c.count - d.count, c.queue (T.proc (j - 1)) ++ d.queue (T.proc j)⟩

/-- The philosophers are in these phases. -/
structure Seats (T : Table) (x : Dinner) (ph : Seat → Phase) : Prop where
  pc : ∀ i, x.pc i = (ph i).pc
  blocked : ∀ i, T.Blocked x i ↔ (ph i).waits = true
  sem : ∀ j, x.kernel.sem (.user (T.sem_id j)) = T.semOf j (ph (j - 1)).fst (ph j).snd
  ok : ∀ j, (ph (j - 1)).fst.Ok (ph j).snd

variable {T : Table} {x x' y : Dinner} {ph ph' : Seat → Phase} {i j : Seat} {s s' : Kernel}
  {sp sp' : SemPtr}

theorem sem_p_other {blocked : Bool} (h : sem_p sp s = .ok (blocked, s')) (hne : sp' ≠ sp) :
    s'.sem sp' = s.sem sp' := by
  rcases (sem_p_spec (F := fun _ => True) sp).of_ok h with ⟨-, -, hcore⟩ | ⟨-, -, hcore⟩
  · change s'.core.sem sp' = _
    rw [hcore, Core.take, Core.setSem]
    exact Function.update_of_ne hne _ _
  · have hsem : (s'.core.goto .user).sem sp' = (s.core.block sp .user).sem sp' := by
      rw [hcore .user]
    refine hsem.trans ?_
    simp only [Core.block, Core.mod, Core.setSem, Function.update_of_ne hne]
    rfl

theorem sem_v_other (h : sem_v sp s = .ok ((), s')) (hne : sp' ≠ sp) :
    s'.sem sp' = s.sem sp' := by
  have hcore := (sem_v_spec (F := fun _ => True) sp).of_ok h
  change s'.core.sem sp' = _
  rw [hcore, Core.give]
  cases (s.core.sem sp).wait_list with
  | nil =>
    simp only [Core.setSem, Function.update_of_ne hne]
    rfl
  | cons q rest =>
    simp only [Core.mod, Core.setSem, Function.update_of_ne hne]
    rfl

/-- One chopstick changes hands. -/
theorem Seats.change (h : Seats T x ph) (j : Seat)
    (hfst : ∀ k, k ≠ j - 1 → (ph' k).fst = (ph k).fst)
    (hsnd : ∀ k, k ≠ j → (ph' k).snd = (ph k).snd) (hpc : ∀ k, x'.pc k = (ph' k).pc)
    (hblocked : ∀ k, T.Blocked x' k ↔ (ph' k).waits = true)
    (hother : ∀ sp, sp ≠ .user (T.sem_id j) → x'.kernel.sem sp = x.kernel.sem sp)
    (hsem : x'.kernel.sem (.user (T.sem_id j)) = T.semOf j (ph' (j - 1)).fst (ph' j).snd)
    (hok : (ph' (j - 1)).fst.Ok (ph' j).snd) : Seats T x' ph' := by
  refine ⟨hpc, hblocked, fun k => ?_, fun k => ?_⟩
  · by_cases hk : k = j
    · subst hk
      exact hsem
    · have hne : SemPtr.user (T.sem_id k) ≠ .user (T.sem_id j) := by
        intro heq
        exact hk (T.sem_injective (by simpa using heq))
      have hk' : k - 1 ≠ j - 1 := fun heq => hk (by simpa using heq)
      rw [hother _ hne, h.sem, hfst _ hk', hsnd _ hk]
  · by_cases hk : k = j
    · subst hk
      exact hok
    · have hk' : k - 1 ≠ j - 1 := fun heq => hk (by simpa using heq)
      rw [hfst _ hk', hsnd _ hk]
      exact h.ok k

/-- The phases after one operation. -/
def nextPhases (ph : Seat → Phase) (i : Seat) : Seat → Phase :=
  match ph i with
  | .think => Function.update ph i (if (ph (i + 1)).snd = .holds then .wait1 else .has1)
  | .has1 => Function.update ph i (if (ph (i - 1)).fst = .holds then .wait2 else .eats)
  | .eats => Function.update (Function.update ph i .left) (i - 1)
      (if ph (i - 1) = .wait1 then .has1 else ph (i - 1))
  | .left => Function.update (Function.update ph i .think) (i + 1)
      (if ph (i + 1) = .wait2 then .eats else ph (i + 1))
  | .wait1 | .wait2 => ph

/-! ### The operations -/

/-- What a philosopher has of a chopstick after `sem_p`, if the other one has `c` of it. -/
def Claim.after (c : Claim) : Claim := if c = .holds then .waits else .holds

theorem claim_fst {b : Bool} {d : Claim} (hsem : s.sem (.user (T.sem_id j)) = T.semOf j .none d)
    (hok : Claim.none.Ok d) (hcurr : s.curr = T.proc (j - 1))
    (hp : sem_p (.user (T.sem_id j)) s = .ok (b, s')) :
    b = decide (d.after = .waits) ∧ s'.sem (.user (T.sem_id j)) = T.semOf j d.after d ∧
      d.after.Ok d := by
  cases b with
  | true =>
    obtain ⟨hv, hsem', -⟩ := sem_p_blocked hp
    rw [hsem] at hv hsem'
    cases d with
    | waits => exact (hok rfl).elim
    | none => cases hv
    | holds =>
      refine ⟨rfl, ?_, rfl⟩
      rw [hsem', hcurr]
      rfl
  | false =>
    obtain ⟨hv, hsem', -⟩ := sem_p_taken hp
    rw [hsem] at hv hsem'
    cases d with
    | waits => exact (hok rfl).elim
    | none =>
      refine ⟨rfl, ?_, by decide⟩
      rw [hsem']
      rfl
    | holds => exact (hv rfl).elim

theorem claim_snd {b : Bool} {c : Claim} (hsem : s.sem (.user (T.sem_id j)) = T.semOf j c .none)
    (hok : c.Ok .none) (hcurr : s.curr = T.proc j)
    (hp : sem_p (.user (T.sem_id j)) s = .ok (b, s')) :
    b = decide (c.after = .waits) ∧ s'.sem (.user (T.sem_id j)) = T.semOf j c c.after ∧
      c.Ok c.after := by
  cases b with
  | true =>
    obtain ⟨hv, hsem', -⟩ := sem_p_blocked hp
    rw [hsem] at hv hsem'
    cases c with
    | waits => cases hok
    | none => cases hv
    | holds =>
      refine ⟨rfl, ?_, by decide⟩
      rw [hsem', hcurr]
      rfl
  | false =>
    obtain ⟨hv, hsem', -⟩ := sem_p_taken hp
    rw [hsem] at hv hsem'
    cases c with
    | waits => cases hok
    | none =>
      refine ⟨rfl, ?_, by decide⟩
      rw [hsem']
      rfl
    | holds => exact (hv rfl).elim

/-- A philosopher calls `sem_p`. -/
theorem Seats.p (h : Seats T x ph) {p : Phase} (hfst : i ≠ j - 1 → p.fst = (ph i).fst)
    (hsnd : i ≠ j → p.snd = (ph i).snd) (hpc : x'.pc = Function.update x.pc i p.pc)
    (hp : sem_p (.user (T.sem_id j)) (x.kernel.running (T.proc i)) = .ok (p.waits, x'.kernel))
    (hi : (ph i).waits = false)
    (hsem : x'.kernel.sem (.user (T.sem_id j)) =
      T.semOf j (Function.update ph i p (j - 1)).fst (Function.update ph i p j).snd)
    (hok : (Function.update ph i p (j - 1)).fst.Ok (Function.update ph i p j).snd) :
    Seats T x' (Function.update ph i p) := by
  refine h.change j (fun k hk => ?_) (fun k hk => ?_) (fun k => ?_) (fun k => ?_)
    (fun sp hsp => ?_) hsem hok
  · by_cases hki : k = i
    · subst hki
      rw [Function.update_self]
      exact hfst hk
    · rw [Function.update_of_ne hki]
  · by_cases hki : k = i
    · subst hki
      rw [Function.update_self]
      exact hsnd hk
    · rw [Function.update_of_ne hki]
  · rw [hpc]
    by_cases hki : k = i
    · subst hki
      rw [Function.update_self, Function.update_self]
    · rw [Function.update_of_ne hki, Function.update_of_ne hki]
      exact h.pc k
  -- it blocks exactly when its new phase waits
  · have hold := h.blocked k
    unfold Table.Blocked at hold ⊢
    by_cases hki : k = i
    · subst hki
      rw [Function.update_self]
      cases hw : p.waits with
      | true =>
        rw [hw] at hp
        exact ⟨fun _ => rfl, fun _ => (sem_p_blocked hp).2.2.1⟩
      | false =>
        rw [hw] at hp
        rw [(sem_p_taken hp).2.2]
        exact hold.trans (by rw [hi])
    · rw [Function.update_of_ne hki, ← hold]
      have hne : T.proc k ≠ T.proc i := fun heq => hki (T.proc_injective heq)
      cases hw : p.waits with
      | true =>
        rw [hw] at hp
        rw [(sem_p_blocked hp).2.2.2 _ hne]
        rfl
      | false =>
        rw [hw] at hp
        rw [(sem_p_taken hp).2.2]
        rfl
  · rw [sem_p_other hp hsp]
    exact x.kernel.running_sem _ sp

/-- The first `sem_p`. -/
theorem Seats.first (h : Seats T x ph) (hi : ph i = .think) {b : Bool}
    (hp : sem_p (.user (T.sem_id (i + 1))) (x.kernel.running (T.proc i)) = .ok (b, x'.kernel))
    (hpc : x'.pc = Function.update x.pc i .second) : Seats T x' (nextPhases ph i) := by
  have hprev : i + 1 - 1 = i := add_sub_cancel_right i 1
  have hne : i + 1 ≠ i := by simp
  have hok := h.ok (i + 1)
  have hsem := (x.kernel.running_sem (T.proc i) _).trans (h.sem (i + 1))
  rw [hprev, hi] at hok hsem
  have hcurr : (x.kernel.running (T.proc i)).curr = T.proc (i + 1 - 1) := by
    rw [hprev]
    rfl
  obtain ⟨hb, hsem', hok'⟩ := claim_fst hsem hok hcurr hp
  rw [nextPhases, hi]
  set p : Phase := if (ph (i + 1)).snd = .holds then .wait1 else .has1 with hpdef
  have hfst : p.fst = (ph (i + 1)).snd.after := by
    rw [hpdef, Claim.after]
    split <;> rfl
  have hwaits : b = p.waits := by
    rw [hb, ← hfst, hpdef]
    split <;> rfl
  refine h.p (j := i + 1) (fun hij => (hij hprev.symm).elim) (fun _ => ?_) ?_ (hwaits ▸ hp) ?_ ?_ ?_
  · rw [hi, hpdef]
    split <;> rfl
  · rw [hpc, hpdef]
    split <;> rfl
  · rw [hi]
    rfl
  · rw [hprev, Function.update_self, Function.update_of_ne hne, hfst]
    exact hsem'
  · rw [hprev, Function.update_self, Function.update_of_ne hne, hfst]
    exact hok'

/-- The second `sem_p`. -/
theorem Seats.second (h : Seats T x ph) (hi : ph i = .has1) {b : Bool}
    (hp : sem_p (.user (T.sem_id i)) (x.kernel.running (T.proc i)) = .ok (b, x'.kernel))
    (hpc : x'.pc = Function.update x.pc i .eat) : Seats T x' (nextPhases ph i) := by
  have hne : i - 1 ≠ i := by simp
  have hok := h.ok i
  have hsem := (x.kernel.running_sem (T.proc i) _).trans (h.sem i)
  rw [hi] at hok hsem
  obtain ⟨hb, hsem', hok'⟩ := claim_snd hsem hok rfl hp
  rw [nextPhases, hi]
  set p : Phase := if (ph (i - 1)).fst = .holds then .wait2 else .eats with hpdef
  have hsnd : p.snd = (ph (i - 1)).fst.after := by
    rw [hpdef, Claim.after]
    split <;> rfl
  have hwaits : b = p.waits := by
    rw [hb, ← hsnd, hpdef]
    split <;> rfl
  refine h.p (j := i) (fun _ => ?_) (fun hij => (hij rfl).elim) ?_ (hwaits ▸ hp) ?_ ?_ ?_
  · rw [hi, hpdef]
    split <;> rfl
  · rw [hpc, hpdef]
    split <;> rfl
  · rw [hi]
    rfl
  · rw [Function.update_self, Function.update_of_ne hne, hsnd]
    exact hsem'
  · rw [Function.update_self, Function.update_of_ne hne, hsnd]
    exact hok'

/-- A philosopher calls `sem_v`, and its neighbour `k` goes on if it waits for the chopstick. -/
theorem Seats.v (h : Seats T x ph) {k : Seat} {p q : Phase} {w : Bool} (hki : k ≠ i)
    (hpc : x'.pc = Function.update x.pc i p.pc) (hqc : q.pc = (ph k).pc)
    (hv : sem_v (.user (T.sem_id j)) (x.kernel.running (T.proc i)) = .ok ((), x'.kernel))
    (hi : (ph i).waits = false) (hp : p.waits = false) (hq : q.waits = (!w && (ph k).waits))
    (hwaits : (x.kernel.sem (.user (T.sem_id j))).wait_list = if w = true then [T.proc k] else [])
    (hfst : ∀ m, m ≠ j - 1 →
      (Function.update (Function.update ph i p) k q m).fst = (ph m).fst)
    (hsnd : ∀ m, m ≠ j → (Function.update (Function.update ph i p) k q m).snd = (ph m).snd)
    (hsem : x'.kernel.sem (.user (T.sem_id j)) =
      T.semOf j (Function.update (Function.update ph i p) k q (j - 1)).fst
        (Function.update (Function.update ph i p) k q j).snd)
    (hok : (Function.update (Function.update ph i p) k q (j - 1)).fst.Ok
      (Function.update (Function.update ph i p) k q j).snd) :
    Seats T x' (Function.update (Function.update ph i p) k q) := by
  refine h.change j hfst hsnd (fun m => ?_) (fun m => ?_) (fun sp hsp => ?_) hsem hok
  · rw [hpc]
    by_cases hmk : m = k
    · subst hmk
      rw [Function.update_self, Function.update_of_ne hki, hqc]
      exact h.pc m
    · rw [Function.update_of_ne hmk]
      by_cases hmi : m = i
      · subst hmi
        rw [Function.update_self, Function.update_self]
      · rw [Function.update_of_ne hmi, Function.update_of_ne hmi]
        exact h.pc m
  · have hold (m : Seat) : ((x.kernel.running (T.proc i)).pcb (T.proc m)).status = .blocked ↔
        (ph m).waits = true := h.blocked m
    unfold Table.Blocked
    -- the neighbour was waiting and is woken, or nobody was
    cases w with
    | true =>
      rw [if_pos rfl] at hwaits
      obtain ⟨-, hready, hstatus⟩ := sem_v_cons hv hwaits
      by_cases hmk : m = k
      · subst hmk
        rw [Function.update_self, hready, hq]
        simp
      · have hne : T.proc m ≠ T.proc k := fun heq => hmk (T.proc_injective heq)
        rw [Function.update_of_ne hmk, hstatus _ hne, hold]
        by_cases hmi : m = i
        · subst hmi
          rw [Function.update_self, hi, hp]
        · rw [Function.update_of_ne hmi]
    | false =>
      rw [if_neg (by decide)] at hwaits
      obtain ⟨-, hstatus⟩ := sem_v_nil hv hwaits
      rw [hstatus, hold]
      by_cases hmk : m = k
      · subst hmk
        rw [Function.update_self, hq, Bool.not_false, Bool.true_and]
      · rw [Function.update_of_ne hmk]
        by_cases hmi : m = i
        · subst hmi
          rw [Function.update_self, hi, hp]
        · rw [Function.update_of_ne hmi]
  · rw [sem_v_other hv hsp]
    exact x.kernel.running_sem _ sp

/-- What a philosopher has of a chopstick after the other one has put it down. -/
def Claim.served (c : Claim) : Claim := if c = .waits then .holds else c

theorem claim_put_snd {c : Claim} (hsem : s.sem (.user (T.sem_id j)) = T.semOf j c .holds)
    (hok : c.Ok .holds) (hv : sem_v (.user (T.sem_id j)) s = .ok ((), s')) :
    s'.sem (.user (T.sem_id j)) = T.semOf j c.served .none ∧ c.served.Ok .none := by
  cases c with
  | holds => exact (hok rfl).elim
  | none =>
    obtain ⟨hsem', -⟩ := sem_v_nil hv (by rw [hsem]; rfl)
    refine ⟨?_, by decide⟩
    rw [hsem', hsem]
    rfl
  | waits =>
    obtain ⟨hsem', -⟩ := sem_v_cons (q := T.proc (j - 1)) (l := []) hv (by rw [hsem]; rfl)
    refine ⟨?_, by decide⟩
    rw [hsem', hsem]
    rfl

theorem claim_put_fst {d : Claim} (hsem : s.sem (.user (T.sem_id j)) = T.semOf j .holds d)
    (hok : Claim.holds.Ok d) (hv : sem_v (.user (T.sem_id j)) s = .ok ((), s')) :
    s'.sem (.user (T.sem_id j)) = T.semOf j .none d.served ∧ Claim.none.Ok d.served := by
  cases d with
  | holds => exact (hok rfl).elim
  | none =>
    obtain ⟨hsem', -⟩ := sem_v_nil hv (by rw [hsem]; rfl)
    refine ⟨?_, by decide⟩
    rw [hsem', hsem]
    rfl
  | waits =>
    obtain ⟨hsem', -⟩ := sem_v_cons (q := T.proc j) (l := []) hv (by rw [hsem]; rfl)
    refine ⟨?_, by decide⟩
    rw [hsem', hsem]
    rfl

/-- The first `sem_v`. -/
theorem Seats.eat (h : Seats T x ph) (hi : ph i = .eats)
    (hv : sem_v (.user (T.sem_id i)) (x.kernel.running (T.proc i)) = .ok ((), x'.kernel))
    (hpc : x'.pc = Function.update x.pc i .left) : Seats T x' (nextPhases ph i) := by
  have hne : i - 1 ≠ i := by simp
  have hok := h.ok i
  have hsem := h.sem i
  rw [hi] at hok hsem
  obtain ⟨hsem', hok'⟩ := claim_put_snd ((x.kernel.running_sem _ _).trans hsem) hok hv
  rw [nextPhases, hi]
  set q : Phase := if ph (i - 1) = .wait1 then .has1 else ph (i - 1) with hqdef
  have hq : q.fst = (ph (i - 1)).fst.served ∧ q.snd = (ph (i - 1)).snd ∧
      q.pc = (ph (i - 1)).pc := by
    rw [hqdef, Claim.served]
    cases hph : ph (i - 1) <;> exact ⟨rfl, rfl, rfl⟩
  refine h.v (j := i) (w := (ph (i - 1)).fst = .waits) hne hpc hq.2.2 hv ?_ rfl ?_ ?_
    (fun m hm => ?_) (fun m hm => ?_) ?_ ?_
  · rw [hi]
    rfl
  · rw [hqdef]
    cases hph : ph (i - 1) <;> rfl
  · rw [hsem]
    cases hph : ph (i - 1) <;> rfl
  · rw [Function.update_of_ne hm]
    by_cases hmi : m = i
    · subst hmi
      rw [Function.update_self, hi]
      rfl
    · rw [Function.update_of_ne hmi]
  · by_cases hmk : m = i - 1
    · subst hmk
      rw [Function.update_self, hq.2.1]
    · rw [Function.update_of_ne hmk, Function.update_of_ne hm]
  · rw [Function.update_self, Function.update_of_ne hne.symm, Function.update_self, hq.1]
    exact hsem'
  · rw [Function.update_self, Function.update_of_ne hne.symm, Function.update_self, hq.1]
    exact hok'

/-- The second `sem_v`. -/
theorem Seats.left (h : Seats T x ph) (hi : ph i = .left)
    (hv : sem_v (.user (T.sem_id (i + 1))) (x.kernel.running (T.proc i)) = .ok ((), x'.kernel))
    (hpc : x'.pc = Function.update x.pc i .first) : Seats T x' (nextPhases ph i) := by
  have hprev : i + 1 - 1 = i := add_sub_cancel_right i 1
  have hne : i + 1 ≠ i := by simp
  have hok := h.ok (i + 1)
  have hsem := h.sem (i + 1)
  rw [hprev, hi] at hok hsem
  obtain ⟨hsem', hok'⟩ := claim_put_fst ((x.kernel.running_sem _ _).trans hsem) hok hv
  rw [nextPhases, hi]
  set q : Phase := if ph (i + 1) = .wait2 then .eats else ph (i + 1) with hqdef
  have hq : q.snd = (ph (i + 1)).snd.served ∧ q.fst = (ph (i + 1)).fst ∧
      q.pc = (ph (i + 1)).pc := by
    rw [hqdef, Claim.served]
    cases hph : ph (i + 1) <;> exact ⟨rfl, rfl, rfl⟩
  refine h.v (j := i + 1) (w := (ph (i + 1)).snd = .waits) hne hpc hq.2.2 hv ?_ rfl ?_ ?_
    (fun m hm => ?_) (fun m hm => ?_) ?_ ?_
  · rw [hi]
    rfl
  · rw [hqdef]
    cases hph : ph (i + 1) <;> rfl
  · rw [hsem]
    cases hph : ph (i + 1) <;> rfl
  · rw [hprev] at hm
    by_cases hmk : m = i + 1
    · subst hmk
      rw [Function.update_self, hq.2.1]
    · rw [Function.update_of_ne hmk, Function.update_of_ne hm]
  · rw [Function.update_of_ne hm]
    by_cases hmi : m = i
    · subst hmi
      rw [Function.update_self, hi]
      rfl
    · rw [Function.update_of_ne hmi]
  · rw [hprev, Function.update_of_ne hne.symm, Function.update_self, Function.update_self, hq.1]
    exact hsem'
  · rw [hprev, Function.update_of_ne hne.symm, Function.update_self, Function.update_self, hq.1]
    exact hok'

/-! ### Every run -/

theorem dinner_init (h : T.dinner.init x) : Seats T x fun _ => .think := by
  constructor
  · intro i
    exact (h i).2.1
  · intro i
    refine iff_of_false (h i).2.2 (by decide)
  · intro j
    exact (h j).1
  · intro j
    decide

theorem sem_p_pc {pc pc' : Pc}
    (h : (do let _ ← sem_p sp; pure pc : KernelM Pc) s = .ok (pc', s')) :
    pc' = pc ∧ ∃ b, sem_p sp s = .ok (b, s') := by
  have hwp : wp (do let _ ← sem_p sp; pure pc : KernelM Pc)
      (fun r t => r = pc ∧ ∃ b, sem_p sp s = .ok (b, t)) (fun _ => True) s := by
    rw [wp_bind]
    exact wp_iff.mpr ⟨fun b t hok => ⟨rfl, b, hok⟩, fun _ _ => trivial⟩
  exact hwp.of_ok h

theorem sem_v_pc {pc pc' : Pc} (h : (do sem_v sp; pure pc : KernelM Pc) s = .ok (pc', s')) :
    pc' = pc ∧ sem_v sp s = .ok ((), s') := by
  have hwp : wp (do sem_v sp; pure pc : KernelM Pc)
      (fun r t => r = pc ∧ sem_v sp s = .ok ((), t)) (fun _ => True) s := by
    rw [wp_bind]
    exact wp_iff.mpr ⟨fun _ t hok => ⟨rfl, hok⟩, fun _ _ => trivial⟩
  exact hwp.of_ok h

/-- The phases follow every step. -/
theorem Seats.step (h : Seats T x ph) (hstep : T.dinner.step x i x') :
    Seats T x' (nextPhases ph i) ∧ (ph i).waits = false := by
  obtain ⟨hfree, pc, hpc, hnext⟩ := hstep
  have hi : (ph i).waits = false := by
    rw [h.blocked, Bool.not_eq_true] at hfree
    exact hfree
  refine ⟨?_, hi⟩
  rw [h.pc] at hpc
  cases hph : ph i with
  | wait1 | wait2 =>
    rw [hph] at hi
    cases hi
  | think =>
    rw [hph] at hpc
    obtain ⟨rfl, b, hp⟩ := sem_p_pc hpc
    exact h.first hph hp hnext
  | has1 =>
    rw [hph] at hpc
    obtain ⟨rfl, b, hp⟩ := sem_p_pc hpc
    exact h.second hph hp hnext
  | eats =>
    rw [hph] at hpc
    obtain ⟨rfl, hv⟩ := sem_v_pc hpc
    exact h.eat hph hv hnext
  | left =>
    rw [hph] at hpc
    obtain ⟨rfl, hv⟩ := sem_v_pc hpc
    exact h.left hph hv hnext

theorem dinner_seats (h : T.dinner.Reachable x) : ∃ ph, Seats T x ph := by
  refine h.invariant (fun x => ∃ ph, Seats T x ph) (fun x hinit => ⟨_, dinner_init hinit⟩) ?_
  rintro x i x' ⟨ph, hph⟩ hstep
  exact ⟨_, (hph.step hstep).1⟩

/-- Neighbours do not eat at the same time. -/
theorem Seats.safe (h : Seats T x ph) (i : Seat) : ¬ (T.Eating x i ∧ T.Eating x (i + 1)) := by
  have heats {k : Seat} (hk : T.Eating x k) : ph k = .eats := by
    obtain ⟨hpc, hblocked⟩ := hk
    rw [h.pc] at hpc
    rw [h.blocked] at hblocked
    cases hph : ph k <;> rw [hph] at hpc hblocked <;> first | rfl | cases hpc
    exact (hblocked rfl).elim
  rintro ⟨hi, hnext⟩
  have hok := h.ok (i + 1)
  rw [add_sub_cancel_right, heats hi, heats hnext] at hok
  exact hok rfl

theorem Seats.holding (h : Seats T x ph) :
    T.Holding x i ↔ ph i = .has1 ∨ ph i = .wait2 := by
  unfold Table.Holding
  rw [h.pc, h.blocked]
  cases ph i <;> decide

/-- When all are blocked, all have their first chopstick and wait for the second. -/
theorem Seats.stuck (h : Seats T x ph) (hall : ∀ i, T.Blocked x i) (i : Seat) : ph i = .wait2 := by
  have hi := (h.blocked i).mp (hall i)
  have hnext := (h.blocked (i + 1)).mp (hall (i + 1))
  have hok := h.ok (i + 1)
  rw [add_sub_cancel_right] at hok
  cases hph : ph i with
  | wait2 => rfl
  | wait1 =>
    rw [hph] at hok
    have hholds : (ph (i + 1)).snd = .holds := hok
    cases hph' : ph (i + 1) <;> rw [hph'] at hnext hholds <;> cases hholds
    cases hnext
  | think | has1 | eats | left =>
    rw [hph] at hi
    cases hi

/-- A philosopher that is not blocked can go on. -/
theorem dinner_moves (hfree : ¬ T.Blocked x i) : ∃ x', T.dinner.step x i x' := by
  have htotal (pc : Pc) (s : Kernel) : wp (philosopher T i pc) (fun _ _ => True) (fun _ => False) s := by
    have hp (sp : SemPtr) (t : Kernel) (pc : Pc) :
        wp (do let _ ← sem_p sp; pure pc : KernelM Pc) (fun _ _ => True) (fun _ => False) t := by
      rw [wp_bind]
      exact (sem_p_spec sp).imp fun _ _ _ => trivial
    have hv (sp : SemPtr) (t : Kernel) (pc : Pc) :
        wp (do sem_v sp; pure pc : KernelM Pc) (fun _ _ => True) (fun _ => False) t := by
      rw [wp_bind]
      exact (sem_v_spec sp).imp fun _ _ _ => trivial
    cases pc with
    | first => exact hp _ s _
    | second => exact hp _ s _
    | eat => exact hv _ s _
    | left => exact hv _ s _
  obtain ⟨pc, s', hok, -⟩ := (htotal (x.pc i) (x.kernel.running (T.proc i))).returns
  exact ⟨⟨s', Function.update x.pc i pc⟩, hfree, pc, hok, rfl⟩

/-- How many operations a philosopher is from being stuck, when nobody has two chopsticks. -/
def Phase.distance : Phase → ℕ
  | .think => 2
  | .has1 => 1
  | .wait2 => 0
  | _ => 0

/-- Nobody has two chopsticks, and nobody waits for the first. -/
def Tight (ph : Seat → Phase) : Prop := ∀ i, ph i = .think ∨ ph i = .has1 ∨ ph i = .wait2

/-- A philosopher thinks, or the one on its side has its first chopstick. -/
theorem Tight.next (h : Tight ph) (hall : ∀ k, ph k = .think → ph i = .think)
    (hi : ph i ≠ .wait2) : ∃ p, nextPhases ph i = Function.update ph i p ∧
      (p = .has1 ∨ p = .wait2) ∧ p.distance < (ph i).distance := by
  rcases h i with hph | hph | hph
  · have hholds : (ph (i + 1)).snd ≠ .holds := by
      rcases h (i + 1) with hn | hn | hn <;> rw [hn] <;> decide
    refine ⟨.has1, ?_, Or.inl rfl, ?_⟩
    · rw [nextPhases, hph]
      simp only [if_neg hholds]
    · rw [hph]
      decide
  · have hholds : (ph (i - 1)).fst = .holds := by
      rcases h (i - 1) with hn | hn | hn
      · have hthink := hall _ hn
        rw [hph] at hthink
        cases hthink
      · rw [hn]
        rfl
      · rw [hn]
        rfl
    refine ⟨.wait2, ?_, Or.inr rfl, ?_⟩
    · rw [nextPhases, hph]
      simp only [if_pos hholds]
    · rw [hph]
      decide
  · exact (hi hph).elim

/-- Those who think take their first chopsticks, then all try to take their second. -/
theorem Seats.deadlock (h : Seats T x ph) (htight : Tight ph) :
    ∃ is y, T.dinner.Run x is y ∧ ∀ i, T.Blocked y i := by
  generalize hn : ∑ i, (ph i).distance = n
  induction n using Nat.strong_induction_on generalizing x ph with
  | _ n ih =>
    by_cases hdone : ∀ i, ph i = .wait2
    · refine ⟨[], x, .refl x, fun i => ?_⟩
      rw [h.blocked, hdone]
      rfl
    · -- somebody who thinks goes first, if there is one
      obtain ⟨i, hi, hall⟩ : ∃ i, ph i ≠ .wait2 ∧ ∀ k, ph k = .think → ph i = .think := by
        by_cases hthink : ∃ i, ph i = .think
        · obtain ⟨i, hi⟩ := hthink
          exact ⟨i, by rw [hi]; decide, fun _ _ => hi⟩
        · push Not at hdone hthink
          obtain ⟨i, hi⟩ := hdone
          exact ⟨i, hi, fun k hk => (hthink k hk).elim⟩
      obtain ⟨p, hnext, hp, hlt⟩ := htight.next hall hi
      have hfree : ¬ T.Blocked x i := by
        rw [h.blocked]
        rcases htight i with hph | hph | hph
        · rw [hph]
          decide
        · rw [hph]
          decide
        · exact (hi hph).elim
      obtain ⟨x', hstep⟩ := dinner_moves hfree
      have hseats := (h.step hstep).1
      rw [hnext] at hseats
      have htight' : Tight (Function.update ph i p) := by
        intro k
        by_cases hk : k = i
        · subst hk
          rw [Function.update_self]
          exact Or.inr hp
        · rw [Function.update_of_ne hk]
          exact htight k
      have hsum : ∑ k, (Function.update ph i p k).distance < n := by
        rw [← hn]
        refine Finset.sum_lt_sum (fun k _ => ?_) ⟨i, Finset.mem_univ i, ?_⟩
        · by_cases hk : k = i
          · subst hk
            rw [Function.update_self]
            exact hlt.le
          · rw [Function.update_of_ne hk]
        · rwa [Function.update_self]
      obtain ⟨is, y, hrun, hblocked⟩ := ih _ hsum hseats htight' rfl
      exact ⟨i :: is, y, hrun.head hstep, hblocked⟩

/-- Somebody is not in the way of the others. -/
theorem careful_step (h : Seats T x ph) (hcareful : T.Careful x i)
    (hstep : T.dinner.step x i x') (hsome : ∃ k, ¬ T.Holding x k) : ∃ k, ¬ T.Holding x' k := by
  obtain ⟨hseats, hi⟩ := h.step hstep
  -- who is not in the way before is not afterwards either, unless it is the one that moves
  have hother (k : Seat) (hk : k ≠ i) (hnot : ¬ T.Holding x k)
      (hnext : nextPhases ph i k = ph k) : ¬ T.Holding x' k := by
    rw [hseats.holding, hnext, ← h.holding]
    exact hnot
  cases hph : ph i with
  | wait1 | wait2 =>
    rw [hph] at hi
    cases hi
  | think =>
    have hpc : x.pc i = .first := by
      rw [h.pc, hph]
      rfl
    obtain ⟨k, hk, hnot⟩ := hcareful hpc
    refine ⟨k, hother k hk hnot ?_⟩
    rw [nextPhases, hph]
    exact Function.update_of_ne hk _ _
  | has1 =>
    obtain ⟨k, hnot⟩ := hsome
    have hk : k ≠ i := by
      rintro rfl
      exact hnot (h.holding.mpr (Or.inl hph))
    refine ⟨k, hother k hk hnot ?_⟩
    rw [nextPhases, hph]
    exact Function.update_of_ne hk _ _
  | eats =>
    have hne : i ≠ i - 1 := Ne.symm (by simp)
    refine ⟨i, ?_⟩
    rw [hseats.holding, nextPhases, hph]
    simp only [Function.update_of_ne hne, Function.update_self]
    decide
  | left =>
    have hne : i ≠ i + 1 := by simp
    refine ⟨i, ?_⟩
    rw [hseats.holding, nextPhases, hph]
    simp only [Function.update_of_ne hne, Function.update_self]
    decide

/-- **Neighbours never eat at once. The philosophers do not get stuck** as long as nobody takes a
first chopstick while all others hold theirs, and when somebody does they can. -/
theorem dinner_safe (T : Table) :
    (∀ x i, T.dinner.Reachable x → ¬ (T.Eating x i ∧ T.Eating x (i + 1))) ∧
      (∀ x, (T.dinner.restrict T.Careful).Reachable x → ¬ ∀ i, T.Blocked x i) ∧
      ∀ x i x', T.dinner.Reachable x → ¬ T.Careful x i → T.dinner.step x i x' →
        ∃ is y, T.dinner.Run x' is y ∧ ∀ k, T.Blocked y k := by
  refine ⟨fun x i h => ?_, fun x h hall => ?_, fun x i x' h hcareless hstep => ?_⟩
  · obtain ⟨ph, hph⟩ := dinner_seats h
    exact hph.safe i
  · have hinv := h.invariant (fun x => (∃ ph, Seats T x ph) ∧ ∃ k, ¬ T.Holding x k)
      (fun x hinit => ?_) fun x i x' hx hstep => ?_
    · obtain ⟨⟨ph, hph⟩, k, hk⟩ := hinv
      exact hk (hph.holding.mpr (Or.inr (hph.stuck hall k)))
    · have hph := dinner_init hinit
      refine ⟨⟨_, hph⟩, 0, ?_⟩
      rw [hph.holding]
      decide
    · obtain ⟨⟨ph, hph⟩, hsome⟩ := hx
      exact ⟨⟨_, (hph.step hstep.2).1⟩, careful_step hph hstep.1 hstep.2 hsome⟩
  · obtain ⟨ph, hph⟩ := dinner_seats h
    obtain ⟨hseats, hi⟩ := hph.step hstep
    unfold Table.Careful at hcareless
    push Not at hcareless
    obtain ⟨hpc, hholding⟩ := hcareless
    have hthink : ph i = .think := by
      rw [hph.pc] at hpc
      cases hphi : ph i <;> rw [hphi] at hpc <;> first | rfl | cases hpc
    have htight : Tight ph := by
      intro k
      by_cases hk : k = i
      · subst hk
        exact Or.inl hthink
      · exact Or.inr (hph.holding.mp (hholding k hk))
    have hi' : ph i ≠ .wait2 := by
      rw [hthink]
      decide
    obtain ⟨p, hnext, hp, -⟩ := htight.next (fun _ _ => hthink) hi'
    rw [hnext] at hseats
    refine hseats.deadlock fun k => ?_
    by_cases hk : k = i
    · subst hk
      rw [Function.update_self]
      exact Or.inr hp
    · rw [Function.update_of_ne hk]
      exact htight k

/-- Five processes and five semaphores. -/
def Table.five : Table where
  proc i := i.succ.castLE (by decide)
  sem_id i := i.castLE (by decide)
  proc_injective i j h := by simpa [Fin.ext_iff] using h
  sem_injective i j h := by simpa [Fin.ext_iff] using h

/-- Five philosophers that sit down can all be blocked. -/
theorem dinner_stuck : ¬ ∀ x, Table.five.dinner.Reachable x → ¬ ∀ i, Table.five.Blocked x i := by
  let s : Kernel := Kernel.zero (fun _ => 0) fun _ => 0
  let x : Dinner := ⟨{ s with
    user_sem := fun _ => ⟨sem_init 1, 1⟩
    pcb := fun _ => { Proc.zero with status := .ready } }, fun _ => .first⟩
  have hinit : Table.five.dinner.init x := by
    intro i
    exact ⟨rfl, rfl, by simp [Table.Blocked, x]⟩
  obtain ⟨is, y, hrun, hblocked⟩ := (dinner_init hinit).deadlock fun _ => Or.inl rfl
  intro h
  exact h y (hrun.reachable (.init hinit)) hblocked

end Oslab
