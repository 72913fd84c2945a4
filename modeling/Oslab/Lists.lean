/-
# The nodes of wait lists

A node is in the free list or in one wait list, and no more nodes are in use than
processes are blocked, so there is always a free one.
-/
import Oslab.Pool
import Oslab.Processes

namespace Oslab

open Lib Lib.Prog

/-! ### The nodes and the processes that wait -/

/-- The event does nothing to the nodes. -/
def CoreEvent.offLists : CoreEvent → Bool
  | .block .. | .give _ | .openUsem .. | .fork _ | .exit _ => false
  | _ => true

namespace Core

variable {c c' : Core} {m : Pool SemPtr ProcPtr} {lists : Option SemPtr → List (Fin LIST_NUM)} {sp : SemPtr}
  {p : ProcPtr} {ev : CoreEvent} {F : Abort → Prop}

/-- The semaphores that have been initialised: those in use. -/
def Ready (c : Core) : SemPtr → Prop
  | .zombie p => (c.thread p).status ≠ .unused
  | .user u => c.usemRef u ≠ 0
  | .serial => True

theorem Usems.ready (h : c.Usems) {id : Fin MAX_USEM} {u : UsemPtr}
    (hid : (c.thread p).usems id = some u) : c.Ready (.user u) := by
  intro hzero
  rw [h.count, refs_eq_zero] at hzero
  exact hzero (p, id) hid

/-- The nodes hold the processes that wait. -/
structure Listed (c : Core) (m : Pool SemPtr ProcPtr) (lists : Option SemPtr → List (Fin LIST_NUM)) : Prop where
  holds : m.Holds c.Ready lists
  queue : ∀ sp, ((lists (some sp)).map fun i => m.ptr (.node i)).reverse = (c.sem sp).wait_list

/-- What the event does to the nodes. -/
def listOps (c : Core) : CoreEvent → PoolM SemPtr ProcPtr Unit
  | .block sp _ => do
    let _ ← list_enqueue (.head (some sp)) c.curr
  | .give sp => do
    let _ ← list_dequeue (.head (some sp))
  | .exit code =>
    match ((c.orphan code).thread c.curr).parent with
    | some parent => do
      let _ ← list_dequeue (.head (some (.zombie parent)))
    | none => pure ()
  | .openUsem _ u _ => list_init (.head (some (.user u)))
  | .fork p => list_init (.head (some (.zombie p)))
  | _ => pure ()

/-- Nobody waits for a semaphore that is not in use. -/
theorem Sound.not_ready (hc : c.Sound) (h : ¬ c.Ready sp) : (c.sem sp).wait_list = [] := by
  cases sp with
  | zombie p =>
    refine hc.waiting.no_waiter_zombie ?_
    have hu : (c.thread p).status = .unused := by simpa [Ready] using h
    rw [hu]
    decide
  | user u =>
    have hu : c.usemRef u = 0 := by simpa [Ready] using h
    exact hc.waiting.no_waiter_user hc.usems hu
  | serial => exact (h trivial).elim

theorem Listed.nil (h : c.Listed m lists) (hnil : (c.sem sp).wait_list = []) :
    lists (some sp) = [] := by
  have hqueue := h.queue sp
  rw [hnil, List.reverse_eq_nil_iff, List.map_eq_nil_iff] at hqueue
  exact hqueue

/-- No process enters or leaves a wait list, and no semaphore comes into use. -/
theorem Listed.frame (h : c.Listed m lists) (hc' : c'.Sound)
    (hlist : ∀ sp, (c'.sem sp).wait_list = (c.sem sp).wait_list)
    (hready : ∀ sp, c'.Ready sp → c.Ready sp) : c'.Listed m lists := by
  refine ⟨h.holds.mono hready fun sp hsp => h.nil ?_, fun sp => ?_⟩
  · rw [← hlist]
    exact hc'.not_ready hsp
  · rw [hlist]
    exact h.queue sp

/-- Who is in a node that is in use waits. -/
theorem Listed.mem (h : c.Listed m lists) {i : Fin LIST_NUM} (hi : i ∈ lists (some sp)) :
    m.ptr (.node i) ∈ (c.sem sp).wait_list := by
  rw [← h.queue, List.mem_reverse]
  exact List.mem_map.mpr ⟨i, hi, rfl⟩

/-- Different nodes in use hold different processes. -/
theorem Listed.injective (h : c.Listed m lists) (hc : c.Sound) {i j : Fin LIST_NUM} {sp' : SemPtr}
    (hi : i ∈ lists (some sp)) (hj : j ∈ lists (some sp'))
    (heq : m.ptr (.node i) = m.ptr (.node j)) : i = j := by
  obtain rfl : sp = sp' := by
    refine hc.waiting.once sp sp' _ (h.mem hi) ?_
    rw [heq]
    exact h.mem hj
  have hnd := hc.waiting.nodup sp
  rw [← h.queue, List.nodup_reverse] at hnd
  exact List.inj_on_of_nodup_map hnd hi hj heq

/-- The first process never waits, so at most 63 nodes are in use. -/
theorem Listed.card (h : c.Listed m lists) (hc : c.Sound) :
    (Finset.univ.filter fun i => i ∉ lists none).card ≤ 63 := by
  have hplace (i : Fin LIST_NUM) (hi : i ∉ lists none) : ∃ sp, i ∈ lists (some sp) := by
    obtain ⟨pl, hpl⟩ := h.holds.cover i
    cases pl with
    | none => exact (hi hpl).elim
    | some sp => exact ⟨sp, hpl⟩
  have hmaps : ∀ i ∈ Finset.univ.filter (fun i => i ∉ lists none),
      m.ptr (.node i) ∈ (Finset.univ : Finset ProcPtr).erase 0 := by
    intro i hi
    obtain ⟨sp, hsp⟩ := hplace i (Finset.mem_filter.mp hi).2
    refine Finset.mem_erase.mpr ⟨fun hzero => ?_, Finset.mem_univ _⟩
    have hb := (hc.waiting.waits sp _ (h.mem hsp)).1
    rw [hzero] at hb
    have hturn := hc.turns.zero
    rw [hb] at hturn
    simp at hturn
  have hinj : Set.InjOn (fun i => m.ptr (.node i)) (Finset.univ.filter fun i => i ∉ lists none) := by
    intro i hi j hj heq
    obtain ⟨sp, hsp⟩ := hplace i (Finset.mem_filter.mp (Finset.mem_coe.mp hi)).2
    obtain ⟨sp', hsp'⟩ := hplace j (Finset.mem_filter.mp (Finset.mem_coe.mp hj)).2
    exact h.injective hc hsp hsp' heq
  have hcard := Finset.card_le_card_of_injOn _ hmaps hinj
  rw [Finset.card_erase_of_mem (Finset.mem_univ _), Finset.card_univ, Fintype.card_fin] at hcard
  exact hcard

/-- Some node is free. -/
theorem Listed.free (h : c.Listed m lists) (hc : c.Sound) : ∃ xs i, lists none = xs ++ [i] := by
  rcases List.eq_nil_or_concat (lists none) with hnil | ⟨xs, i, hxs⟩
  · have hcard := h.card hc
    rw [hnil] at hcard
    simp only [List.not_mem_nil, not_false_eq_true, Finset.filter_true, Finset.card_univ,
      Fintype.card_fin] at hcard
    exact absurd hcard (by decide)
  · exact ⟨xs, i, by rw [hxs, List.concat_eq_append]⟩

/-- The wait lists and the semaphores in use are the same. -/
theorem Listed.congr (h : c.Listed m lists)
    (hlist : ∀ sp, (c'.sem sp).wait_list = (c.sem sp).wait_list)
    (hready : ∀ sp, c'.Ready sp ↔ c.Ready sp) : c'.Listed m lists := by
  refine ⟨h.holds.mono (fun sp => (hready sp).mp) fun sp hsp => ?_, fun sp => ?_⟩
  · exact h.holds.rest sp fun hr => hsp ((hready sp).mpr hr)
  · rw [hlist]
    exact h.queue sp

theorem ready_give (hw : c.Waiting) (sp sp' : SemPtr) : (c.give sp).Ready sp' ↔ c.Ready sp' := by
  unfold Core.give
  cases hl : (c.sem sp).wait_list with
  | nil => rfl
  | cons q rest =>
    have hb := (hw.waits sp q (by rw [hl]; exact List.mem_cons_self)).1
    cases sp' with
    | zombie p =>
      by_cases hp : p = q
      · subst hp
        simp [Ready, Core.mod, Core.setSem, hb]
      · simp only [Ready, Core.mod, Core.setSem, Function.update_of_ne hp]
    | user u => rfl
    | serial => rfl

/-- `sem_v` takes the process out that waits longest. -/
theorem Listed.give (h : c.Listed m lists) (hw : c.Waiting) (hsp : c.Ready sp) :
    wp (list_dequeue (.head (some sp))) (fun r m' => r = (c.sem sp).wait_list.head? ∧
      ∃ lists', (c.give sp).Listed m' lists') F m := by
  refine (list_dequeue_spec h.holds hsp).imp ?_
  rintro r m' (⟨hnil, rfl, rfl⟩ | ⟨xs, i, hxs, rfl, hholds, hptr⟩)
  · have hlist : (c.sem sp).wait_list = [] := by
      rw [← h.queue, hnil]
      rfl
    refine ⟨by rw [hlist]; rfl, lists, h.congr (fun sp' => ?_) (ready_give hw sp)⟩
    unfold Core.give
    rw [hlist]
    by_cases hsp' : sp' = sp
    · subst hsp'
      simp only [Core.setSem, Function.update_self, hlist]
    · simp only [Core.setSem, Function.update_of_ne hsp']
  · have hlist : (c.sem sp).wait_list =
        m.ptr (.node i) :: (xs.map fun i => m.ptr (.node i)).reverse := by
      rw [← h.queue, hxs, List.map_append, List.reverse_append]
      rfl
    refine ⟨by rw [hlist]; rfl, _, ⟨hholds.mono (fun sp' => (ready_give hw sp sp').mp) ?_, ?_⟩⟩
    · intro sp' hsp'
      have hne : sp' ≠ sp := by
        rintro rfl
        exact hsp' ((ready_give hw sp' sp').mpr hsp)
      rw [Function.update_of_ne (by simp), Function.update_of_ne (by simpa using hne)]
      exact h.holds.rest sp' fun hr => hsp' ((ready_give hw sp sp').mpr hr)
    · intro sp'
      unfold Core.give
      rw [hlist, hptr, Function.update_of_ne (by simp)]
      by_cases hsp' : sp' = sp
      · subst hsp'
        simp only [Core.mod, Core.setSem, Function.update_self]
      · rw [Function.update_of_ne (by simpa using hsp')]
        simp only [Core.mod, Core.setSem, Function.update_of_ne hsp']
        exact h.queue sp'

/-- A list that nobody is in is made empty. -/
theorem Listed.init (h : c.Listed m lists) (hnil : (c.sem sp).wait_list = [])
    (hlist : ∀ sp', (c'.sem sp').wait_list = (c.sem sp').wait_list)
    (hready : ∀ sp', c'.Ready sp' ↔ c.Ready sp' ∨ sp' = sp) :
    wp (list_init (.head (some sp))) (fun _ m' => c'.Listed m' lists) F m := by
  refine (list_init_spec h.holds (h.nil hnil)).imp ?_
  rintro - m' ⟨hholds, hptr⟩
  refine ⟨hholds.mono (fun sp' => (hready sp').mp) fun sp' hsp' => ?_, fun sp' => ?_⟩
  · exact h.holds.rest sp' fun hr => hsp' ((hready sp').mpr (Or.inl hr))
  · rw [hptr, hlist]
    exact h.queue sp'

theorem Calls.ready (hc : c.Sound) (hcalls : c.Calls) {k : Kont} (hw : c.Waits sp k) :
    c.Ready sp := by
  cases sp with
  | zombie q =>
    obtain ⟨rfl, -, -⟩ := hw
    rw [Ready, hcalls.running]
    decide
  | user u =>
    obtain ⟨-, id, hid⟩ := hw
    exact hc.usems.ready hid
  | serial => exact trivial

theorem ready_orphan (hrun : (c.thread c.curr).status = .running) (code : ℤ) (sp : SemPtr) :
    (c.orphan code).Ready sp ↔ c.Ready sp := by
  cases sp with
  | zombie p =>
    rw [Ready, Ready, orphan_thread]
    by_cases hp : p = c.curr
    · subst hp
      simp [hrun]
    · simp [hp]
  | user u => rfl
  | serial => rfl

theorem Listed.block {k : Kont} (h : c.Listed m lists) (hc : c.Sound) (hcalls : c.Calls)
    (hwaits : c.Waits sp k) :
    wp (c.listOps (.block sp k)) (fun _ m' => ∃ lists', (c.block sp k).Listed m' lists') F m := by
  have hsp := hcalls.ready hc hwaits
  obtain ⟨xs, i, hxs⟩ := h.free hc
  rw [listOps, wp_bind]
  refine (list_enqueue_spec h.holds hsp hxs c.curr).imp ?_
  rintro - m' ⟨-, hholds, hptr⟩
  have hready (sp' : SemPtr) : (c.block sp k).Ready sp' ↔ c.Ready sp' := by
    cases sp' with
    | zombie p =>
      by_cases hp : p = c.curr
      · subst hp
        simp [Ready, Core.block, Core.mod, Core.setSem, hcalls.running]
      · simp only [Ready, Core.block, Core.mod, Core.setSem, Function.update_of_ne hp]
    | user u => rfl
    | serial => rfl
  refine ⟨_, hholds.mono (fun sp' => (hready sp').mp) fun sp' hsp' => ?_, fun sp' => ?_⟩
  · have hne : sp' ≠ sp := by
      rintro rfl
      exact hsp' ((hready sp').mpr hsp)
    rw [Function.update_of_ne (by simpa using hne), Function.update_of_ne (by simp)]
    exact h.holds.rest sp' fun hr => hsp' ((hready sp').mpr hr)
  · -- the node that was free holds the process now, the others what they held
    have hold (j : Fin LIST_NUM) (hj : j ∈ lists (some sp')) :
        m'.ptr (.node j) = m.ptr (.node j) := by
      have hne : j ≠ i := by
        rintro rfl
        have hfree : j ∈ lists none := by
          rw [hxs]
          simp
        cases h.holds.once j none (some sp') hfree hj
      rw [hptr, Function.update_of_ne (by simpa using hne)]
    by_cases hsp' : sp' = sp
    · subst hsp'
      have hnew : m'.ptr (.node i) = c.curr := by rw [hptr, Function.update_self]
      rw [Function.update_self, List.map_cons, List.reverse_cons, hnew, List.map_congr_left hold,
        h.queue]
      simp only [Core.block, Core.mod, Core.setSem, Function.update_self]
    · rw [Function.update_of_ne (by simpa using hsp'), Function.update_of_ne (by simp),
        List.map_congr_left hold, h.queue]
      simp only [Core.block, Core.mod, Core.setSem, Function.update_of_ne hsp']

theorem Listed.openUsem {id : Fin MAX_USEM} {u : UsemPtr} {value : ℤ} (h : c.Listed m lists)
    (hc : c.Sound) (hzero : c.usemRef u = 0)
    (hstep : Step c (.openUsem id u value) c') :
    wp (c.listOps (.openUsem id u value)) (fun _ m' => ∃ lists', c'.Listed m' lists') F m := by
  have hnil := hc.waiting.no_waiter_user hc.usems hzero
  suffices hinit : wp (c.listOps (.openUsem id u value)) (fun _ m' => c'.Listed m' lists) F m from
    hinit.imp fun _ m' hm' => ⟨lists, hm'⟩
  cases hstep with
  | openUsem =>
    refine h.init hnil (fun sp' => ?_) fun sp' => ?_
    · by_cases hsp : sp' = .user u
      · subst hsp
        simp only [Core.mod, Core.setSem, Function.update_self, hnil, sem_init]
      · simp only [Core.mod, Core.setSem, Function.update_of_ne hsp]
    · cases sp' with
      | zombie p =>
        by_cases hp : p = c.curr
        · subst hp
          simp [Ready, Core.mod, Core.setSem]
        · simp [Ready, Core.mod, Core.setSem, Function.update_of_ne hp]
      | user v =>
        by_cases hv : v = u
        · subst hv
          simp [Ready]
        · simp [Ready, hv]
      | serial => simp [Ready]

theorem Listed.fork (h : c.Listed m lists) (hc : c.Sound) (hunused : (c.thread p).status = .unused)
    (hne : c.curr ≠ p) :
    wp (c.listOps (.fork p)) (fun _ m' => ∃ lists', (c.fork p).Listed m' lists') F m := by
  have hnil := hc.waiting.no_waiter_zombie (q := p) (by rw [hunused]; decide)
  suffices hinit : wp (c.listOps (.fork p)) (fun _ m' => (c.fork p).Listed m' lists) F m from
    hinit.imp fun _ m' hm' => ⟨lists, hm'⟩
  refine h.init hnil (fun sp' => ?_) fun sp' => ?_
  · by_cases hsp : sp' = .zombie p
    · subst hsp
      simp only [Core.fork, Function.update_self, hnil, sem_init]
    · simp only [Core.fork, Function.update_of_ne hsp]
  · cases sp' with
    | zombie q =>
      by_cases hq : q = p
      · subst hq
        simp [Ready, Core.fork]
      · by_cases hqc : q = c.curr
        · subst hqc
          simp [Ready, Core.fork, hq]
        · simp [Ready, Core.fork, Function.update_of_ne hqc, hq]
    | user v =>
      -- the child refers to what its parent refers to, which is in use already
      have href : (c.fork p).usemRef v = c.usemRef v + refs (c.thread c.curr).usems v := rfl
      have hle := refs_nonneg (c.thread c.curr).usems v
      have hnonneg : 0 ≤ c.usemRef v := by
        rw [hc.usems.count]
        exact refs_nonneg _ _
      simp only [Ready, href, reduceCtorEq, or_false]
      refine ⟨fun hsum hzero => ?_, fun hv => by omega⟩
      have hpos : 0 < refs (c.thread c.curr).usems v := by omega
      obtain ⟨id, hid⟩ := refs_pos.mp hpos
      exact hc.usems.ready hid hzero
    | serial => simp [Ready]

theorem Listed.exit (h : c.Listed m lists) (hc : c.Sound) (hcalls : c.Calls) (code : ℤ) :
    wp (c.listOps (.exit code)) (fun _ m' => ∃ lists', (c.exit code).Listed m' lists') F m := by
  have horph := hc.waiting.orphan hcalls.running code
  have hc' : (c.exit code).Sound := Step.sound hc (.exit hcalls)
  have hl₁ : (c.orphan code).Listed m lists :=
    h.congr (fun _ => rfl) (ready_orphan hcalls.running code)
  -- closing semaphores only takes them out of use
  have hend {m' : Pool SemPtr ProcPtr} {lists' : Option SemPtr → List (Fin LIST_NUM)}
      (hl : (c.orphan code).tell.Listed m' lists') : (c.exit code).Listed m' lists' := by
    refine hl.frame hc' (fun _ => rfl) fun sp hsp => ?_
    cases sp with
    | zombie q =>
      change ((c.exit code).thread q).status ≠ .unused at hsp
      rw [Core.exit, goto_status] at hsp
      by_cases hq : q = (c.orphan code).tell.curr
      · subst hq
        change (Function.update (c.orphan code).tell.thread _ _ _).status ≠ .unused at hsp
        rwa [Function.update_self] at hsp
      · change (Function.update (c.orphan code).tell.thread _ _ _).status ≠ .unused at hsp
        rwa [Function.update_of_ne hq] at hsp
    | user u =>
      intro hzero
      have href : (c.exit code).usemRef u = (c.orphan code).tell.usemRef u -
          refs ((c.orphan code).tell.thread (c.orphan code).tell.curr).usems u := rfl
      have hnonneg : 0 ≤ (c.exit code).usemRef u := by
        rw [hc'.usems.count]
        exact refs_nonneg _ _
      have hle := refs_nonneg ((c.orphan code).tell.thread (c.orphan code).tell.curr).usems u
      refine hsp ?_
      omega
    | serial => exact trivial
  rw [listOps]
  cases hpar : ((c.orphan code).thread c.curr).parent with
  | none =>
    have htell : (c.orphan code).tell = c.orphan code := by
      change (match ((c.orphan code).thread c.curr).parent with
        | some parent => _
        | none => _) = _
      rw [hpar]
    refine ⟨lists, hend ?_⟩
    rw [htell]
    exact hl₁
  | some parent =>
    have htell : (c.orphan code).tell = (c.orphan code).give (.zombie parent) := by
      change (match ((c.orphan code).thread c.curr).parent with
        | some parent => _
        | none => _) = _
      rw [hpar]
    have hready : (c.orphan code).Ready (.zombie parent) := by
      rw [ready_orphan hcalls.running]
      refine (hc.family.parent c.curr parent ?_).1
      rw [orphan_thread] at hpar
      simp only at hpar
      split at hpar
      · cases hpar
      · rw [kin, hcalls.running, if_neg (by decide)]
        exact hpar
    simp only
    rw [wp_bind]
    refine (hl₁.give horph hready).imp ?_
    rintro - m' ⟨-, lists', hl'⟩
    exact ⟨lists', hend (htell ▸ hl')⟩

/-- A process that changes was in use before if it is afterwards. -/
theorem unused_mod {f : Thread → Thread} {q : ProcPtr}
    (hf : (f (c.thread q)).status ≠ .unused → (c.thread q).status ≠ .unused)
    (hp : ((c.mod q f).thread p).status ≠ .unused) : (c.thread p).status ≠ .unused := by
  by_cases hpq : p = q
  · subst hpq
    simp only [Core.mod, Function.update_self] at hp
    exact hf hp
  · simp only [Core.mod, Function.update_of_ne hpq] at hp
    exact hp

/-- Such an event leaves the wait lists alone, and takes semaphores out of use at most. -/
theorem Step.offLists (hc : c.Sound) (hstep : Step c ev c') (hev : ev.offLists = true) :
    (∀ sp, (c'.sem sp).wait_list = (c.sem sp).wait_list) ∧
      (∀ p, (c'.thread p).status ≠ .unused → (c.thread p).status ≠ .unused) ∧
      ∀ u, c'.usemRef u ≠ 0 → c.usemRef u ≠ 0 := by
  cases hstep with
  | block | give | openUsem | fork | exit => cases hev
  | @take sp =>
    refine ⟨fun sp' => ?_, fun _ hp => hp, fun _ hu => hu⟩
    by_cases hsp : sp' = sp
    · subst hsp
      simp only [Core.take, Core.setSem, Function.update_self]
    · simp only [Core.take, Core.setSem, Function.update_of_ne hsp]
  | takeZombie =>
    refine ⟨fun sp' => ?_, fun p hp => ?_, fun _ hu => hu⟩
    · by_cases hsp : sp' = .zombie c.curr
      · subst hsp
        simp only [Core.goto, Core.mod, Core.take, Core.setSem, Function.update_self]
      · simp only [Core.goto, Core.mod, Core.take, Core.setSem, Function.update_of_ne hsp]
    · rwa [goto_status] at hp
  | @closeUsem id u _ hid =>
    refine ⟨fun _ => rfl, fun p hp => ?_, fun v hv => ?_⟩
    · exact unused_mod (c := c) (q := c.curr)
        (f := fun t => { t with usems := Function.update t.usems id none }) (fun hp => hp) hp
    · by_cases heq : v = u
      · subst heq
        exact hc.usems.ready hid
      · change Function.update c.usemRef u _ v ≠ 0 at hv
        rwa [Function.update_of_ne heq] at hv
  | @reap q =>
    refine ⟨fun _ => rfl, fun p hp => ?_, fun _ hu => hu⟩
    rw [Core.reap, goto_status] at hp
    exact unused_mod (fun hp => hp) (unused_mod (fun hq => (hq rfl).elim) hp)
  | yield hrun =>
    refine ⟨fun _ => rfl, fun p hp => ?_, fun _ hu => hu⟩
    rw [goto_status] at hp
    refine unused_mod (fun _ => ?_) hp
    rw [hrun]
    decide
  | back =>
    refine ⟨fun _ => rfl, fun p hp => ?_, fun _ hu => hu⟩
    rwa [goto_status] at hp
  | @dispatch q _ hfind =>
    refine ⟨fun _ => rfl, fun p hp => ?_, fun _ hu => hu⟩
    have hready : (c.thread q).status = .ready := by simpa using List.find?_some hfind
    refine unused_mod (c := c) (q := q) (f := ({ · with status := .running })) (fun _ => ?_) hp
    rw [hready]
    decide

/-- **The nodes hold the processes that wait** after every event, and no list operation fails. -/
theorem Listed.step (h : c.Listed m lists) (hc : c.Sound) (hstep : Step c ev c') :
    wp (c.listOps ev) (fun _ m' => ∃ lists', c'.Listed m' lists') (fun _ => False) m := by
  cases hev : ev.offLists with
  | true =>
    obtain ⟨hlist, hunused, href⟩ := hstep.offLists hc hev
    have hops : c.listOps ev = pure () := by
      cases ev with
      | block | give | openUsem | fork | exit => cases hev
      | _ => rfl
    rw [hops]
    refine ⟨lists, h.frame (hstep.sound hc) hlist fun sp hsp => ?_⟩
    cases sp with
    | zombie p => exact hunused p hsp
    | user u => exact href u hsp
    | serial => exact trivial
  | false =>
    have hstep' := hstep
    cases hstep with
    | take | takeZombie | closeUsem | reap | yield | back | dispatch => cases hev
    | block hcalls _ hwaits => exact h.block hc hcalls hwaits
    | @give sp hz hu =>
      have hsp : c.Ready sp := by
        cases sp with
        | zombie p => exact (hz p rfl).elim
        | user u =>
          obtain ⟨id, hid⟩ := hu u rfl
          exact hc.usems.ready hid
        | serial => exact trivial
      rw [listOps, wp_bind]
      refine (h.give hc.waiting hsp).imp ?_
      rintro - m' ⟨-, hlists'⟩
      exact hlists'
    | openUsem _ _ hzero => exact h.openUsem hc hzero hstep'
    | fork hcalls _ hunused _ =>
      refine h.fork hc hunused ?_
      rintro rfl
      have hrun := hcalls.running
      rw [hunused] at hrun
      cases hrun
    | exit hcalls => exact h.exit hc hcalls _

end Core

/-! ### The nodes in every run -/

/-- The semaphores that are there when the kernel has started, with the shell in slot `p`. -/
def list_boot (p : ProcPtr) : PoolM SemPtr ProcPtr Unit := do
  list_init (.head (some .serial))
  list_init (.head (some (.zombie 0)))
  list_init (.head (some (.zombie p)))

/-- Processes and semaphores together with the nodes of their wait lists. -/
def pooled : Lts (Core × Pool SemPtr ProcPtr) CoreEvent where
  init cm := ∃ p m, p ≠ 0 ∧ m.inited = false ∧ cm.1 = Core.started p ∧
    list_boot p m = .ok ((), cm.2)
  step cm ev cm' := Core.Step cm.1 ev cm'.1 ∧ cm.1.listOps ev cm.2 = .ok ((), cm'.2)

variable {c c' : Core} {m : Pool SemPtr ProcPtr} {p : ProcPtr} {F : Abort → Prop}

theorem list_boot_spec (hp : p ≠ 0) (hinit : m.inited = false) :
    wp (list_boot p) (fun _ m' => (Core.started p).Listed m' freeLists) F m := by
  rw [list_boot, wp_bind]
  refine (list_init_first hinit).imp ?_
  rintro - m₁ h₁
  rw [wp_bind]
  refine (list_init_spec h₁ rfl).imp ?_
  rintro - m₂ ⟨h₂, -⟩
  refine (list_init_spec h₂ rfl).imp ?_
  rintro - m₃ ⟨h₃, -⟩
  refine ⟨h₃.mono (fun sp hsp => ?_) fun _ _ => rfl, fun _ => rfl⟩
  -- in use are the semaphores of the two processes and of the serial port
  cases sp with
  | zombie q =>
    have hq : q = 0 ∨ q = p := by
      rw [Core.Ready, started_thread hp] at hsp
      simp only at hsp
      split at hsp
      case isTrue h => exact Or.inl h
      case isFalse =>
        split at hsp
        case isTrue h => exact Or.inr h
        case isFalse => exact (hsp rfl).elim
    rcases hq with rfl | rfl
    · exact Or.inl (Or.inr rfl)
    · exact Or.inr rfl
  | user u => exact (hsp rfl).elim
  | serial => exact Or.inl (Or.inl rfl)

/-- What holds of the nodes between two events. -/
structure Core.Pooled (c : Core) (m : Pool SemPtr ProcPtr) : Prop where
  core : c.Sound
  listed : ∃ lists, c.Listed m lists

/-- **The nodes hold the processes that wait** in every run. -/
theorem pooled_reachable (h : pooled.Reachable (c, m)) : c.Pooled m := by
  refine h.invariant (fun cm => cm.1.Pooled cm.2) ?_ ?_
  · rintro ⟨c, m⟩ ⟨p, m₀, hp, hinit, rfl, hok⟩
    exact ⟨started_sound hp, _, (list_boot_spec hp hinit (F := fun _ => True)).of_ok hok⟩
  · rintro ⟨c, m⟩ ev ⟨c', m'⟩ ⟨hc, lists, hl⟩ ⟨hstep, hok⟩
    exact ⟨hstep.sound hc, (hl.step hc hstep).of_ok hok⟩

/-- Whatever the processes do, the operations on the nodes can follow. -/
theorem pooled_follows {evs : List CoreEvent} (h : pooled.Reachable (c, m))
    (hrun : CoreRun c evs c') : ∃ m', pooled.Reachable (c', m') := by
  induction hrun with
  | refl => exact ⟨m, h⟩
  | tail _ hstep ih =>
    obtain ⟨m₁, h₁⟩ := ih
    obtain ⟨hc, lists, hl⟩ := pooled_reachable h₁
    obtain ⟨⟨⟩, m', hok, -⟩ := (hl.step hc hstep).returns
    exact ⟨m', h₁.step ⟨hstep, hok⟩⟩

theorem reachable_pooled {image : Mem → Prop} {s : Kernel} (h : (machine image).Reachable s) :
    ∃ m, pooled.Reachable (s.core, m) := by
  induction h with
  | init hinit =>
    obtain ⟨disk, -, hboots⟩ := hinit
    obtain ⟨p, hp, hcore⟩ := boots_core hboots
    let m₀ : Pool SemPtr ProcPtr := ⟨⟨id, id⟩, fun _ => 0, false⟩
    obtain ⟨⟨⟩, m, hok, -⟩ := (list_boot_spec hp (rfl : m₀.inited = false)).returns
    exact ⟨m, .init ⟨p, m₀, hp, rfl, hcore, hok⟩⟩
  | @step s _ _ hreach hstep ih =>
    obtain ⟨m, hm⟩ := ih
    have hs := reachable_sound hreach
    obtain ⟨evs, -, hrun, -⟩ := s.step_core hs.core hs.runs hstep
    exact pooled_follows hm hrun

/-- The process is in one wait list, once. -/
def Kernel.WaitsOnce (s : Kernel) (p : ProcPtr) : Prop :=
  ∃ sp, (s.sem sp).wait_list.count p = 1 ∧ ∀ sp', sp' ≠ sp → p ∉ (s.sem sp').wait_list

/-- The nodes are in the free list or in the list of a semaphore in use, each in one of them, with
the processes that wait; no more than 63 are in use; and whatever a process does next, the
operations on the nodes do not fail. -/
structure Core.Nodes (c : Core) (m : Pool SemPtr ProcPtr) : Prop where
  partitioned : ∃ lists : Option SemPtr → List (Fin LIST_NUM),
    (∀ i, ∃! pl, i ∈ lists pl) ∧
      m.links.Ring free_list ((lists none).map .node) ∧
      (∀ sp, c.Ready sp → m.links.Ring (.head (some sp)) ((lists (some sp)).map .node)) ∧
      (∀ sp, ((lists (some sp)).map fun i => m.ptr (.node i)).reverse = (c.sem sp).wait_list) ∧
      (Finset.univ.filter fun i => i ∉ lists none).card ≤ 63
  returns : ∀ ev c', Core.Step c ev c' → ∃ m', c.listOps ev m = .ok ((), m')

theorem Core.Pooled.nodes (h : c.Pooled m) : c.Nodes m := by
  obtain ⟨hc, lists, hl⟩ := h
  refine ⟨⟨lists, fun i => ?_, ?_, fun sp hsp => ?_, hl.queue, hl.card hc⟩, fun ev c' hstep => ?_⟩
  · obtain ⟨pl, hpl⟩ := hl.holds.cover i
    exact ⟨pl, hpl, fun pl' hpl' => hl.holds.once i pl' pl hpl' hpl⟩
  · exact hl.holds.ring none (by simp)
  · apply hl.holds.ring
    rintro sp' heq
    cases heq
    exact hsp
  · obtain ⟨⟨⟩, m', hok, -⟩ := (hl.step hc hstep).returns
    exact ⟨m', hok⟩

/-- **Blocked processes and wait lists match** in every state that can be reached, nobody waits for
a semaphore that is not in use, and the nodes of the lists follow every run. -/
theorem blocked_waits {image : Mem → Prop} (x : (machine image).Reached) :
    (∀ p, (x.1.pcb p).status = .blocked ↔ x.1.WaitsOnce p) ∧
      (∀ u, (x.1.user_sem u).ref = 0 → (x.1.user_sem u).sem.wait_list = []) ∧
      (∀ p, (x.1.pcb p).status = .unused ∨ (x.1.pcb p).status = .zombie →
        (x.1.pcb p).zombie_sem.wait_list = []) ∧
      (∃ m, pooled.Reachable (x.1.core, m)) ∧
      ∀ m, pooled.Reachable (x.1.core, m) → x.1.core.Nodes m := by
  obtain ⟨s, h⟩ := x
  have hs := (reachable_sound h).core
  refine ⟨fun p => ⟨fun hp => ?_, ?_⟩, fun u hu => ?_, fun p hp => ?_, reachable_pooled h,
    fun m hm => (pooled_reachable hm).nodes⟩
  · obtain ⟨sp, hmem⟩ := hs.waiting.blocked p hp
    refine ⟨sp, List.count_eq_one_of_mem (hs.waiting.nodup sp) hmem, fun sp' hne hmem' => ?_⟩
    exact hne (hs.waiting.once sp' sp p hmem' hmem)
  · rintro ⟨sp, hcount, -⟩
    have hmem : p ∈ (s.sem sp).wait_list := by
      rw [← List.count_pos_iff, hcount]
      exact Nat.one_pos
    exact (hs.waiting.waits sp p hmem).1
  · exact hs.waiting.no_waiter_user hs.usems hu
  · refine hs.waiting.no_waiter_zombie ?_
    change (s.pcb p).status ≠ .blocked
    rcases hp with hp | hp <;> rw [hp] <;> decide

end Oslab
