/-
# The heap that `sys_brk` acknowledges

A program takes the memory between its first break and its last one for its heap.
The kernel keeps one break for each process, which `exec` leaves as it is; so the
heap is there as long as the first break of a program finds nothing left from the
one before it that is not mapped, and no part of the heap that is copied lies above
`USR_MEM`.
-/
import Oslab.SpacesSpec

namespace Oslab

open Lib Lib.Prog

/-- The processes, with the first break of the program that each of them runs. -/
structure Heaps where
  spaces : Spaces
  first : ProcPtr → Option ℕ

namespace Heaps

/-- The first breaks after a step. -/
def nextFirst (x : Heaps) : SpaceEvent → ProcPtr → Option ℕ
  | .brk addr =>
    if x.first x.spaces.curr = none then
      Function.update x.first x.spaces.curr (some (PAGE_UP addr))
    else x.first
  | .exec _ true => Function.update x.first x.spaces.curr none
  | .fork (some child) => Function.update x.first child (x.first x.spaces.curr)
  | _ => x.first

def Step (L : Statics) (x : Heaps) (ev : SpaceEvent) (x' : Heaps) : Prop :=
  x.spaces.Step L ev x'.spaces ∧ x'.first = x.nextFirst ev

/-- A user address of a process that has a frame. -/
def Mapped (x : Heaps) (q : ProcPtr) (va : ℕ) : Prop :=
  (x.spaces.vm.translate (x.spaces.pcb q).pgdir va).isSome

/-- The steps that keep the heaps: the first break of a program finds no break, or one below which
everything from the new one on is mapped; and `fork` finds no heap above `USR_MEM`. -/
def Orderly (x : Heaps) : SpaceEvent → Prop
  | .brk addr => x.first x.spaces.curr = none →
      ((x.spaces.pcb x.spaces.curr).brk = 0 → PAGE_UP addr ≠ 0) ∧
      ∀ va, PAGE_UP addr ≤ va → va < (x.spaces.pcb x.spaces.curr).brk → x.Mapped x.spaces.curr va
  | .fork _ => ∀ b, x.first x.spaces.curr = some b → b < (x.spaces.pcb x.spaces.curr).brk →
      (x.spaces.pcb x.spaces.curr).brk ≤ USR_MEM
  | ev => ev.Tame

/-- After `sys_brk(addr)` everything between the first break and `addr` is mapped. -/
def Provides (x : Heaps) (addr : ℕ) (x' : Heaps) : Prop :=
  ∀ b, x.first x.spaces.curr = some b → ∀ va, b ≤ va → va < PAGE_UP addr → x'.Mapped x.spaces.curr va

end Heaps

/-- The processes with their heaps. -/
def heaps (L : Statics) : Lts Heaps SpaceEvent where
  init x := (spaces L).init x.spaces ∧ ∀ q, x.first q = none
  step := Heaps.Step L

variable {L : Statics} {x x' : Heaps} {role role' : ℕ → Role} {free free' : List ℕ} {q : ProcPtr}
  {ev : SpaceEvent}

namespace Heaps

open Spaces

/-- The process has the heap it was promised. -/
structure Good (x : Heaps) (q : ProcPtr) : Prop where
  aligned : (x.spaces.pcb q).brk % 4096 = 0
  lt : (x.spaces.pcb q).brk < 4294967296
  heap : ∀ b, x.first q = some b → (x.spaces.pcb q).brk ≠ 0 ∧
    ∀ va, b ≤ va → va < (x.spaces.pcb q).brk → x.Mapped q va

/-- A process that does nothing keeps its heap. -/
theorem Good.idle (h : x.Good q) (hs : x.spaces.Sound L role free)
    (hused : (x.spaces.pcb q).used = true) (hkeeps : Keeps x.spaces role x'.spaces role')
    (hpcb : x'.spaces.pcb q = x.spaces.pcb q) (hfirst : x'.first q = x.first q) : x'.Good q := by
  refine ⟨?_, ?_, ?_⟩
  · rw [hpcb]
    exact h.aligned
  · rw [hpcb]
    exact h.lt
  · intro b hb
    rw [hfirst] at hb
    obtain ⟨hbrk, hheap⟩ := h.heap b hb
    rw [hpcb]
    refine ⟨hbrk, ?_⟩
    intro va hlo hhi
    have hmapped := hheap va hlo hhi
    have hlt := h.lt
    have hva : va / PGSIZE < 2 ^ 20 := by
      change va / 4096 < 2 ^ 20
      omega
    rw [Mapped, hpcb]
    exact hkeeps.mapped _ _ (hs.dir_role hused).1 hva hmapped

theorem PAGE_UP_spec (a : ℕ) : PAGE_UP a % 4096 = 0 ∧ PAGE_UP a < 4294967296 := by
  change (a + 4095) % 4294967296 / 4096 * 4096 % 4096 = 0 ∧
    (a + 4095) % 4294967296 / 4096 * 4096 < 4294967296
  omega

/-- **The break of the current process.** -/
theorem sys_brk_good {addr : ℕ} (h : x.Good x.spaces.curr) (hs : x.spaces.Sound L role free)
    (horderly : x.Orderly (.brk addr)) (hok : sys_brk addr x.spaces = .ok ((), x'.spaces))
    (hfirst : x'.first = x.nextFirst (.brk addr)) :
    x'.Good x.spaces.curr ∧ x.Provides addr x' := by
  obtain ⟨role', free', hs', hkeeps, hcurr, hpcb, hgap, -, -⟩ := (sys_brk_spec hs addr).of_ok hok
  obtain ⟨hup, huplt⟩ := PAGE_UP_spec addr
  set c := x.spaces.curr with hc
  set space := x.spaces.pcb c with hspace
  have hspace' : x'.spaces.pcb c = { space with brk := max space.brk (PAGE_UP addr) } := by
    rw [hpcb, Function.update_self]
  have halign : space.brk % 4096 = 0 := h.aligned
  have hlt : space.brk < 4294967296 := h.lt
  -- what was mapped is still mapped, and so is what lies between the old break and the new one
  have hkept (va : ℕ) (hva : va < 4294967296) (hm : x.Mapped c va) : x'.Mapped c va := by
    rw [Mapped, hspace']
    apply hkeeps.mapped _ _ (hs.dir_role hs.used).1 _ hm
    change va / 4096 < 2 ^ 20
    omega
  have hnew (va : ℕ) (hbrk : space.brk ≠ 0) (hlo : space.brk ≤ va) (hhi : va < PAGE_UP addr) :
      x'.Mapped c va := by
    rw [Mapped, hspace']
    refine hgap (va / PGSIZE) ⟨hbrk, Nat.div_le_div_right hlo, ?_⟩
    change va / 4096 < PAGE_UP addr / 4096
    omega
  have hheap (b : ℕ) (hb : x.first c = some b) (va : ℕ) (hlo : b ≤ va)
      (hhi : va < max space.brk (PAGE_UP addr)) : x'.Mapped c va := by
    obtain ⟨hbrk, hmapped⟩ := h.heap b hb
    by_cases hva : va < space.brk
    · exact hkept va (by omega) (hmapped va hlo hva)
    · apply hnew va hbrk (by omega)
      exact (lt_max_iff.mp hhi).resolve_left hva
  refine ⟨⟨?_, ?_, ?_⟩, ?_⟩
  · rw [hspace']
    rcases max_choice space.brk (PAGE_UP addr) with hmax | hmax <;> simp only [hmax]
    · exact halign
    · exact hup
  · rw [hspace']
    exact max_lt hlt huplt
  · intro b hb
    rw [hspace']
    by_cases hnone : x.first c = none
    · -- the first break of the program
      obtain ⟨hzero, hmapped⟩ := horderly hnone
      have hbeq : b = PAGE_UP addr := by
        rw [hfirst, nextFirst, if_pos hnone, Function.update_self] at hb
        exact (Option.some.inj hb).symm
      subst hbeq
      refine ⟨?_, ?_⟩
      · intro hmax
        rw [Nat.max_eq_zero_iff] at hmax
        exact hzero hmax.1 hmax.2
      · intro va hlo hhi
        have hva : va < space.brk := by
          rcases lt_max_iff.mp hhi with hva | hva
          · exact hva
          · omega
        exact hkept va (by omega) (hmapped va hlo hva)
    · rw [hfirst, nextFirst, if_neg hnone] at hb
      refine ⟨?_, fun va hlo hhi => hheap b hb va hlo hhi⟩
      intro hmax
      rw [Nat.max_eq_zero_iff] at hmax
      exact (h.heap b hb).1 hmax.1
  · intro b hb va hlo hhi
    exact hheap b hb va hlo (lt_max_of_lt_right hhi)

/-- Every process has its heap. -/
structure Inv (x : Heaps) (L : Statics) (role : ℕ → Role) (free : List ℕ) : Prop where
  sound : x.spaces.Sound L role free
  good : ∀ q, (x.spaces.pcb q).used = true → x.Good q

/-- Nothing but addresses is left of a program once another one runs. -/
theorem Good.exec {pgdir : ℕ} (h : x.Good q)
    (hpcb : x'.spaces.pcb q = { x.spaces.pcb q with pgdir := pgdir }) (hfirst : x'.first q = none) :
    x'.Good q := by
  refine ⟨?_, ?_, ?_⟩
  · rw [hpcb]
    exact h.aligned
  · rw [hpcb]
    exact h.lt
  · intro b hb
    rw [hfirst] at hb
    cases hb

/-- A copied process has a copy of the heap, if it is below `USR_MEM`. -/
theorem Good.fork {n k : ℕ} (h : x.Good x.spaces.curr) (hs : x.spaces.Sound L role free)
    (hs' : x'.spaces.Sound L role' free')
    (horderly : x.Orderly (.fork (some q))) (hcopy : CopyOf x.spaces.vm x'.spaces.vm
      (x.spaces.dir x.spaces.curr) n)
    (hpcb : x'.spaces.pcb q = ⟨true, n * 4096, k, (x.spaces.pcb x.spaces.curr).brk⟩)
    (hfirst : x'.first q = x.first x.spaces.curr) : x'.Good q := by
  have hdir : x'.spaces.dir q = n := dir_eq (by rw [hpcb])
  have hn : role' n = .dir := by
    rw [← hdir]
    exact (hs'.dir_role (by rw [hpcb])).1
  have hlt := h.lt
  refine ⟨?_, ?_, ?_⟩
  · rw [hpcb]
    exact h.aligned
  · rw [hpcb]
    exact hlt
  · intro b hb
    rw [hfirst] at hb
    obtain ⟨hbrk, hheap⟩ := h.heap b hb
    rw [hpcb]
    refine ⟨hbrk, ?_⟩
    intro va hlo hhi
    have hhi : va < (x.spaces.pcb x.spaces.curr).brk := hhi
    have hle : (x.spaces.pcb x.spaces.curr).brk ≤ 3221225472 := horderly b hb (by omega)
    obtain ⟨f, hf⟩ := Option.isSome_iff_exists.mp (hheap va hlo hhi)
    have hf' : x.spaces.vm.walk (x.spaces.dir x.spaces.curr) (va / 4096) = some f := hf
    have htranslate : x'.spaces.vm.translate (x'.spaces.pcb q).pgdir va =
        x'.spaces.vm.walk n (va / 4096) := by
      rw [← hdir]
      rfl
    rw [Mapped, htranslate]
    by_cases hlow : va / 4096 < 32768
    · -- the kernel's own pages are the same everywhere
      rw [hs.owned.walk_low (hs.dir_role hs.used).1 hlow] at hf'
      rw [hs'.owned.walk_low hn hlow, hf']
      rfl
    · obtain ⟨f', hcopied, -⟩ := hcopy.copied _ f (by omega) (by omega) hf'
      rw [hcopied]
      rfl

/-- **An orderly step keeps every heap.** -/
theorem Step.inv (h : x.Inv L role free) (horderly : x.Orderly ev) (hstep : x.Step L ev x') :
    ∃ role' free', x'.Inv L role' free' := by
  obtain ⟨hspaces, hfirst⟩ := hstep
  have hs := h.sound
  have hcurr := h.good _ hs.used
  -- the processes that a step does not touch
  have hidle {role' : ℕ → Role} {q : ProcPtr} (hkeeps : Keeps x.spaces role x'.spaces role')
      (hpcb : x'.spaces.pcb q = x.spaces.pcb q) (hfirst : x'.first q = x.first q)
      (hused : (x'.spaces.pcb q).used = true) : x'.Good q := by
    rw [hpcb] at hused
    exact (h.good q hused).idle hs hused hkeeps hpcb hfirst
  cases ev with
  | brk addr =>
    obtain ⟨-, hok⟩ := hspaces
    have hgood := (sys_brk_good hcurr hs horderly hok hfirst).1
    obtain ⟨role', free', hs', hkeeps, -, hpcb, -⟩ := (sys_brk_spec hs addr).of_ok hok
    refine ⟨role', free', hs', ?_⟩
    intro q hq
    by_cases hqc : q = x.spaces.curr
    · subst hqc
      exact hgood
    · apply hidle hkeeps _ _ hq
      · rw [hpcb, Function.update_of_ne hqc]
      · rw [hfirst, nextFirst]
        split
        · exact Function.update_of_ne hqc _ _
        · rfl
  | exec image loaded =>
    obtain ⟨role', free', hs', hkeeps, -, hfailed, hloaded, -⟩ :=
      (sys_exec_spec hs horderly).of_ok hspaces
    refine ⟨role', free', hs', ?_⟩
    intro q hq
    cases loaded with
    | false => exact hidle hkeeps (by rw [hfailed rfl]) (congrFun hfirst q) hq
    | true =>
      obtain ⟨n, -, hpcb, -⟩ := hloaded rfl
      by_cases hqc : q = x.spaces.curr
      · subst hqc
        apply hcurr.exec
        · rw [hpcb, Function.update_self]
        · rw [hfirst, nextFirst, Function.update_self]
      · apply hidle hkeeps _ _ hq
        · rw [hpcb, Function.update_of_ne hqc]
        · rw [hfirst, nextFirst, Function.update_of_ne hqc]
  | fork child =>
    rcases (Spaces.sys_fork_spec hs).of_ok hspaces with ⟨rfl, heq⟩ |
      ⟨q, n, k, role', free', rfl, -, -, hpcb, -, hs', hkeeps, hcopy⟩
    · refine ⟨role, free, by rwa [heq], ?_⟩
      intro q hq
      exact hidle (.of_eq (by rw [heq])) (by rw [heq]) (congrFun hfirst q) hq
    · refine ⟨role', free', hs', ?_⟩
      intro r hr
      by_cases hrq : r = q
      · subst hrq
        refine hcurr.fork (n := n) (k := k) hs hs' horderly hcopy ?_ ?_
        · rw [hpcb, Function.update_self]
        · rw [hfirst, nextFirst, Function.update_self]
      · apply hidle hkeeps _ _ hr
        · rw [hpcb, Function.update_of_ne hrq]
        · rw [hfirst, nextFirst, Function.update_of_ne hrq]
  | free p =>
    obtain ⟨hne, hok⟩ := hspaces
    have hx' : ⟨x.spaces.vm, Function.update x.spaces.pcb p { x.spaces.pcb p with used := false },
        x.spaces.curr⟩ = x'.spaces := congrArg Prod.snd (Except.ok.inj hok)
    refine ⟨role, free, ?_, ?_⟩
    · rw [← hx']
      refine hs.set (fun heq => (hne heq).elim) ?_ ?_
      · intro hused
        cases hused
      · intro _ hused
        cases hused
    · intro q hq
      by_cases hqp : q = p
      · subst hqp
        rw [← hx'] at hq
        simp only [Function.update_self] at hq
        cases hq
      · refine hidle (.of_eq (by rw [← hx'])) ?_ (congrFun hfirst q) hq
        rw [← hx']
        exact Function.update_of_ne hqp _ _
  | run p =>
    obtain ⟨hused, hok⟩ := hspaces
    have hx' : ⟨{ x.spaces.vm with cr3 := (x.spaces.pcb p).pgdir }, x.spaces.pcb, p⟩ = x'.spaces :=
      congrArg Prod.snd (Except.ok.inj hok)
    refine ⟨role, free, ?_, ?_⟩
    · rw [← hx']
      exact ⟨hs.owned.set_cr3 _, hused, rfl, hs.dirs, hs.kstacks⟩
    · intro q hq
      have hkeeps : Keeps x.spaces role x'.spaces role := by
        refine ⟨fun _ _ => rfl, ?_⟩
        intro d v _ _ hsome
        rw [← hx']
        exact hsome
      exact hidle hkeeps (by rw [← hx']) (congrFun hfirst q) hq
  | write va bs =>
    obtain ⟨huser, -, hok⟩ := hspaces
    obtain ⟨hs', hleaves, hpcb, -⟩ := (write_spec hs huser).of_ok hok
    refine ⟨role, free, hs', ?_⟩
    intro q hq
    exact hidle hleaves.keeps (by rw [hpcb]) (congrFun hfirst q) hq
  | kwrite p k bs =>
    obtain ⟨hp0, hused, hroom, hx'⟩ := hspaces
    obtain ⟨hs', hleaves⟩ := kwrite_sound hs hp0 hused hroom
    rw [← hx'] at hs' hleaves
    refine ⟨role, free, hs', ?_⟩
    intro q hq
    exact hidle hleaves.keeps (by rw [hx']) (congrFun hfirst q) hq

/-- The heaps are there after every orderly run. -/
theorem heaps_inv (h : ((heaps L).restrict Orderly).Reachable x) :
    ∃ role free, x.Inv L role free := by
  induction h with
  | init hinit =>
    obtain ⟨⟨x₀, sh, htame, hzero, hpcb, hcurr, hok⟩, hfirst⟩ := hinit
    obtain ⟨role, free, hs, hbrk, -⟩ := (main_spec hzero htame hpcb hcurr).of_ok hok
    refine ⟨role, free, hs, ?_⟩
    intro q _
    refine ⟨by rw [hbrk], by rw [hbrk]; decide, ?_⟩
    intro b hb
    rw [hfirst] at hb
    cases hb
  | step _ hstep ih =>
    obtain ⟨role, free, hinv⟩ := ih
    exact Step.inv hinv hstep.1 hstep.2

end Heaps

/-- **`sys_brk` provides the heap that it acknowledges** in every orderly run. -/
theorem brk_provides {addr : ℕ} (h : ((heaps L).restrict Heaps.Orderly).Reachable x)
    (horderly : x.Orderly (.brk addr)) (hstep : x.Step L (.brk addr) x') : x.Provides addr x' := by
  obtain ⟨role, free, hinv⟩ := Heaps.heaps_inv h
  exact (Heaps.sys_brk_good (hinv.good _ hinv.sound.used) hinv.sound horderly hstep.1.2 hstep.2).2

namespace Heaps

open Spaces

/-! ### Runs of the small program -/

/-- A break that needs no more pages than there are. -/
theorem brk_step (hs : x.spaces.Sound L role free) (addr : ℕ) (haddr : addr < ADDR_END)
    (hroom : x.spaces.Room addr free) :
    ∃ x', x.Step L (.brk addr) x' ∧ ∃ role' free', Raised x.spaces addr free x'.spaces L role' free' := by
  obtain ⟨s', hstep, role', free', hraised⟩ := Spaces.brk_step hs addr haddr hroom
  exact ⟨⟨s', _⟩, ⟨hstep, rfl⟩, role', free', hraised⟩

/-- The small program runs, and no process has a break. -/
theorem heaps_start : ∃ x role free, ((heaps .low).restrict Orderly).Reachable x ∧
    x.spaces.Sound .low role free ∧ x.spaces.curr ≠ 0 ∧ (∀ q, x.first q = none) ∧
    (∀ q, (x.spaces.pcb q).brk = 0) ∧ 32252 ≤ free.length := by
  obtain ⟨s₀, s, role, free, hinit, hs, hne, hstep, hbrk, hlen, -⟩ := spaces_start
  have hreach : ((heaps .low).restrict Orderly).Reachable ⟨s₀, fun _ => none⟩ :=
    .init ⟨hinit, fun _ => rfl⟩
  have hrun : ((heaps .low).restrict Orderly).step ⟨s₀, fun _ => none⟩ (.run s.curr)
      ⟨s, fun _ => none⟩ := ⟨trivial, hstep, rfl⟩
  exact ⟨⟨s, fun _ => none⟩, role, free, hreach.step hrun, hs, hne, fun _ => rfl, hbrk, hlen⟩

/-- The small program is loaded again, and no break of the new image is known. -/
theorem exec_step (hs : x.spaces.Sound .low role free) (hlen : 3 ≤ free.length) :
    ∃ x' role' free', x.Step .low (.exec bareImage true) x' ∧ x'.spaces.Sound .low role' free' ∧
      x'.spaces.curr = x.spaces.curr ∧ x'.first x.spaces.curr = none ∧
      (x'.spaces.pcb x.spaces.curr).brk = (x.spaces.pcb x.spaces.curr).brk ∧
      free.length ≤ free'.length + 3 ∧
      ∀ v, 32768 ≤ v → v < 2 ^ 20 → v ≠ 786431 →
        x'.spaces.vm.walk (x'.spaces.dir x.spaces.curr) v = none := by
  obtain ⟨s', role', free', hstep, hs', hcurr, hbrk, hlen', hnone⟩ := exec_bare hs hlen
  refine ⟨⟨s', _⟩, role', free', ⟨hstep, rfl⟩, hs', hcurr, ?_, hbrk, hlen', hnone⟩
  exact Function.update_self x.spaces.curr none x.first

/-- A program that is loaded after one with a break does not get the heap below it. -/
theorem stale_break : ∃ x x', (heaps .low).Reachable x ∧ x.spaces.curr ≠ 0 ∧
    x.Step .low (.brk 0x10001000) x' ∧ x.first x.spaces.curr = some 0x10000000 ∧
      ¬ x'.Mapped x.spaces.curr 0x10000000 := by
  have hup : PAGE_UP 0x10001000 = 0x10001000 := by decide
  have hup' : PAGE_UP 0x10000000 = 0x10000000 := by decide
  obtain ⟨x₀, role₀, free₀, hreach₀, hs₀, hne₀, -, hbrk₀, hlen₀⟩ := heaps_start
  -- the program before has a break
  obtain ⟨x₁, hstep₁, role₁, free₁, hs₁, hcurr₁, hpcb₁, -, -, hlen₁⟩ :=
    brk_step hs₀ 0x10001000 (by decide) (Or.inl (hbrk₀ _))
  rw [hbrk₀, hup, Nat.zero_max, ← hcurr₁] at hpcb₁
  rw [if_pos (hbrk₀ _)] at hlen₁
  -- the program after it is loaded to a new address space
  obtain ⟨x₂, role₂, free₂, hstep₂, hs₂, hcurr₂, hfirst₂, hbrk₂, -, hfresh₂⟩ :=
    exec_step hs₁ (by omega)
  rw [← hcurr₂] at hfirst₂ hbrk₂ hfresh₂
  rw [hcurr₂, hpcb₁, ← hcurr₂] at hbrk₂
  have hnone₂ := hfresh₂ 65536 (by decide) (by decide) (by decide)
  -- its first break is below the one that is left
  have hno₂ (v : ℕ) : ¬ Gap (x₂.spaces.pcb x₂.spaces.curr) 0x10000000 v := by
    rintro ⟨-, hlo, hhi⟩
    rw [hbrk₂] at hlo
    rw [hup'] at hhi
    have hlo' : 65537 ≤ v := hlo
    have hhi' : v < 65536 := hhi
    omega
  have hroom₂ : x₂.spaces.Room 0x10000000 free₂ := by
    right
    left
    rw [hbrk₂, hup']
    decide
  obtain ⟨x₃, hstep₃, role₃, free₃, hs₃, hcurr₃, hpcb₃, -, hwalk₃, -⟩ :=
    brk_step hs₂ 0x10000000 (by decide) hroom₂
  rw [hbrk₂, hup', ← hcurr₃] at hpcb₃
  have hfirst₃ : x₃.first x₃.spaces.curr = some 0x10000000 := by
    rw [hcurr₃, hstep₃.2, nextFirst, if_pos hfirst₂, Function.update_self, hup']
  -- and the next one is not above it
  have hno₃ (v : ℕ) : ¬ Gap (x₃.spaces.pcb x₃.spaces.curr) 0x10001000 v := by
    rintro ⟨-, hlo, hhi⟩
    rw [hpcb₃] at hlo
    rw [hup] at hhi
    have hlo' : 65537 ≤ v := hlo
    have hhi' : v < 65537 := hhi
    omega
  have hroom₃ : x₃.spaces.Room 0x10001000 free₃ := by
    right
    left
    rw [hpcb₃, hup]
    decide
  obtain ⟨x₄, hstep₄, role₄, free₄, hs₄, hcurr₄, -, -, hwalk₄, -⟩ :=
    brk_step hs₃ 0x10001000 (by decide) hroom₃
  refine ⟨x₃, x₄, ?_, ?_, hstep₄, hfirst₃, ?_⟩
  · exact (((Lts.Reachable.of_restrict hreach₀).step hstep₁).step hstep₂).step hstep₃
  · rwa [hcurr₃, hcurr₂, hcurr₁]
  · have hwalk : x₄.spaces.vm.walk (x₄.spaces.dir x₃.spaces.curr) 65536 = none := by
      rw [hwalk₄ _ (by decide) (hno₃ _), hcurr₃, hwalk₃ _ (by decide) (hno₂ _), hnone₂]
    intro hmapped
    have hsome : (x₄.spaces.vm.walk (x₄.spaces.dir x₃.spaces.curr) 65536).isSome := hmapped
    rw [hwalk] at hsome
    cases hsome

end Heaps

/-- `sys_brk` acknowledges a heap that is not there. -/
theorem brk_not_provided : ¬ ∀ x addr x', (heaps .low).Reachable x → x.Step .low (.brk addr) x' →
    x.Provides addr x' := by
  intro h
  obtain ⟨x, x', hreach, -, hstep, hfirst, hnot⟩ := Heaps.stale_break
  exact hnot (h x _ x' hreach hstep _ hfirst _ (by decide) (by decide))

/-- A program that another one has loaded calls `sys_brk` twice, and has the page between. -/
theorem brk_provides_page : ∃ x x', ((heaps .low).restrict Heaps.Orderly).Reachable x ∧
    x.spaces.curr ≠ 0 ∧ x.first x.spaces.curr = some 0x10000000 ∧ x.Step .low (.brk 0x10001000) x' ∧
      ∀ va, 0x10000000 ≤ va → va < 0x10001000 → x'.Mapped x.spaces.curr va := by
  have hup : PAGE_UP 0x10000000 = 0x10000000 := by decide
  have hup' : PAGE_UP 0x10001000 = 0x10001000 := by decide
  obtain ⟨x₀, role₀, free₀, hreach₀, hs₀, hne₀, -, hbrk₀, hlen₀⟩ := Heaps.heaps_start
  obtain ⟨x₁, role₁, free₁, hstep₁, hs₁, hcurr₁, hfirst₁, hbrk₁, hlen₁, -⟩ :=
    Heaps.exec_step hs₀ (by omega)
  rw [hbrk₀] at hbrk₁
  rw [← hcurr₁] at hfirst₁ hbrk₁
  have horderly₀ : x₀.Orderly (.exec Spaces.bareImage true) := Spaces.bareImage_tame
  have hreach₁ : ((heaps .low).restrict Heaps.Orderly).Reachable x₁ :=
    hreach₀.step ⟨horderly₀, hstep₁⟩
  -- the first break of the image
  obtain ⟨x₂, hstep₂, role₂, free₂, hs₂, hcurr₂, hpcb₂, -, -, hlen₂⟩ :=
    Heaps.brk_step hs₁ 0x10000000 (by decide) (Or.inl hbrk₁)
  rw [if_pos hbrk₁] at hlen₂
  rw [hbrk₁, hup, Nat.zero_max, ← hcurr₂] at hpcb₂
  have horderly₁ : x₁.Orderly (.brk 0x10000000) := by
    intro _
    refine ⟨fun _ => by rw [hup]; decide, ?_⟩
    intro va _ hva
    rw [hbrk₁] at hva
    exact absurd hva (Nat.not_lt_zero va)
  have hfirst₂ : x₂.first x₂.spaces.curr = some 0x10000000 := by
    rw [hcurr₂, hstep₂.2, Heaps.nextFirst, if_pos hfirst₁, Function.update_self, hup]
  have hreach₂ : ((heaps .low).restrict Heaps.Orderly).Reachable x₂ :=
    hreach₁.step ⟨horderly₁, hstep₂⟩
  -- the second one
  have horderly₂ : x₂.Orderly (.brk 0x10001000) := by
    intro hnone
    rw [hfirst₂] at hnone
    cases hnone
  have hroom₂ : x₂.spaces.Room 0x10001000 free₂ := by
    right
    right
    rw [hpcb₂, hup']
    refine ⟨by decide, ?_⟩
    change 2 ≤ free₂.length
    omega
  obtain ⟨x₃, hstep₃, -⟩ := Heaps.brk_step hs₂ 0x10001000 (by decide) hroom₂
  refine ⟨x₂, x₃, hreach₂, by rwa [hcurr₂, hcurr₁], hfirst₂, hstep₃, ?_⟩
  intro va hlo hhi
  apply brk_provides hreach₂ horderly₂ hstep₃ _ hfirst₂ va hlo
  rwa [hup']

end Oslab
