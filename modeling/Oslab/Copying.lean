/-
# Fork copies an address space

What `vm_copycurr` leaves in a fresh directory is the address space of the process
that forks, if nothing of it lies above `USR_MEM`: the loop over the pages stops
there, and `sys_brk` does not.
-/
import Oslab.SpacesSpec

namespace Oslab

open Lib Lib.Prog

/-- Directory `child` of `s'` is a copy of directory `parent` of `s`, which is unchanged. -/
structure Vm.Copied (s s' : Vm) (parent child : ℕ) : Prop where
  present : ∀ va, User va → ((s'.translate child va).isSome ↔ (s.translate parent va).isSome)
  bytes : ∀ va f f', User va → s.translate parent va = some f → s'.translate child va = some f' →
    f' ≠ f ∧ ∀ k < PGSIZE, s'.mem (f' * PGSIZE + k) = s'.mem (f * PGSIZE + k)
  mappings : ∀ va, User va → s'.translate parent va = s.translate parent va
  contents : ∀ va f, User va → s.translate parent va = some f →
    ∀ k < PGSIZE, s'.mem (f * PGSIZE + k) = s.mem (f * PGSIZE + k)

variable {L : Statics} {s s₁ s₂ : Vm} {x x' : Spaces} {role : ℕ → Role} {free : List ℕ}
  {ev : SpaceEvent} {n p va pgdir : ℕ}

namespace Spaces

/-- **Every step keeps every process in its own parts of memory.** -/
theorem Step.sound (h : x.Sound L role free) (htame : ev.Tame) (hstep : Step L x ev x') :
    ∃ role' free', x'.Sound L role' free' := by
  cases ev with
  | brk addr =>
    obtain ⟨role', free', hs', -⟩ := (sys_brk_spec h addr).of_ok hstep.2
    exact ⟨role', free', hs'⟩
  | exec image loaded =>
    obtain ⟨role', free', hs', -⟩ := (sys_exec_spec h htame).of_ok hstep
    exact ⟨role', free', hs'⟩
  | fork child =>
    rcases (Spaces.sys_fork_spec h).of_ok hstep with ⟨-, rfl⟩ | ⟨_, _, _, role', free', -, -, -, -, -, hs', -⟩
    · exact ⟨role, free, h⟩
    · exact ⟨role', free', hs'⟩
  | free p =>
    obtain ⟨hne, hok⟩ := hstep
    have hx' : ⟨x.vm, Function.update x.pcb p { x.pcb p with used := false }, x.curr⟩ = x' :=
      congrArg Prod.snd (Except.ok.inj hok)
    refine ⟨role, free, ?_⟩
    rw [← hx']
    refine h.set (fun heq => (hne heq).elim) ?_ ?_
    · intro hused
      cases hused
    · intro _ hused
      cases hused
  | run p =>
    obtain ⟨hused, hok⟩ := hstep
    have hx' : ⟨{ x.vm with cr3 := (x.pcb p).pgdir }, x.pcb, p⟩ = x' :=
      congrArg Prod.snd (Except.ok.inj hok)
    refine ⟨role, free, ?_⟩
    rw [← hx']
    exact ⟨h.owned.set_cr3 _, hused, rfl, h.dirs, h.kstacks⟩
  | write va bs =>
    obtain ⟨huser, -, hok⟩ := hstep
    exact ⟨role, free, ((write_spec h huser).of_ok hok).1⟩
  | kwrite p k bs =>
    obtain ⟨hp0, hused, hroom, rfl⟩ := hstep
    exact ⟨role, free, (kwrite_sound h hp0 hused hroom).1⟩

theorem spaces_sound (h : ((spaces L).restrict fun _ ev => ev.Tame).Reachable x) :
    ∃ role free, x.Sound L role free := by
  induction h with
  | init hinit =>
    obtain ⟨x₀, sh, htame, hzero, hpcb, hcurr, hok⟩ := hinit
    obtain ⟨role, free, hs, -⟩ := (main_spec hzero htame hpcb hcurr).of_ok hok
    exact ⟨role, free, hs⟩
  | step _ hstep ih =>
    obtain ⟨role, free, hs⟩ := ih
    exact Step.sound hs hstep.1 hstep.2

end Spaces

open Spaces

theorem translate_page (s : Vm) (n va : ℕ) : s.translate (n * 4096) va = s.walk n (va / 4096) := by
  rw [Vm.translate]
  exact congrArg (s.walk · (va / 4096)) (Nat.mul_div_cancel n (by decide))

/-- The directory that is made for the child is copied to. -/
theorem copy_new (h : x.Sound L role free) (halloc : vm_alloc L x.vm = .ok (pgdir, s₁))
    (hcopy : vm_copycurr pgdir s₁ = .ok ((), s₂)) : ∃ n role' free', pgdir = n * 4096 ∧
      n ≠ x.dir x.curr ∧ s₂.Owned L role' free' ∧ role' n = .dir ∧ role' (x.dir x.curr) = .dir ∧
      (∀ v, v < 2 ^ 20 → s₂.walk (x.dir x.curr) v = x.vm.walk (x.dir x.curr) v) ∧
      CopyOf x.vm s₂ (x.dir x.curr) n := by
  obtain ⟨hp, -⟩ := h.dir_role h.used
  obtain ⟨n, rest, -, rfl, hn, h₁, hcr3₁, hsame₁, hfresh₁, hwalk₁⟩ :=
    (vm_alloc_spec h.owned).of_ok halloc
  have hne : n ≠ x.dir x.curr := by
    intro heq
    rw [heq, hp] at hn
    cases hn
  have hp₁ : Function.update role n .dir (x.dir x.curr) = .dir := by
    rw [Function.update_of_ne hne.symm, hp]
  obtain ⟨role', free', h₂, hkept₂, -, hother₂, hcopy₂, -⟩ :=
    (copycurr_fresh h₁ hp₁ (Function.update_self n _ _) hne (hcr3₁.trans h.cr3_eq) hfresh₁).of_ok hcopy
  have hwalk (v : ℕ) (hv : v < 2 ^ 20) : s₁.walk (x.dir x.curr) v = x.vm.walk (x.dir x.curr) v :=
    hwalk₁ _ v hp hv
  have hbytes (v f : ℕ) (hlo : 32768 ≤ v) (hv : v < 2 ^ 20)
      (hf : x.vm.walk (x.dir x.curr) v = some f) : SamePage x.vm.mem s₁.mem f := by
    apply hsame₁
    intro heq
    have hrole := h.owned.frame hp hlo hv hf
    rw [heq, hn] at hrole
    cases hrole
  refine ⟨n, role', free', rfl, hne, h₂, ?_, ?_, ?_, ⟨?_, ?_, ?_⟩⟩
  · rw [hkept₂ n (by simp), Function.update_self]
  · rw [hkept₂ _ (by simp [hp₁]), hp₁]
  · intro v hv
    rw [hother₂ _ v hp₁ hv hne.symm, hwalk v hv]
  · intro v f hlo hhi hf
    obtain ⟨f', hf', hsame⟩ := hcopy₂.copied v f hlo hhi (by rw [hwalk v (by omega), hf])
    refine ⟨f', hf', ?_⟩
    intro k hk
    exact (hsame k hk).trans (hbytes v f hlo (by omega) hf k hk)
  · intro v hlo hv hnot
    apply hcopy₂.absent v hlo hv
    rwa [hwalk v hv]
  · intro v f hlo hv hf
    exact (hbytes v f hlo hv hf).trans (hcopy₂.source v f hlo hv (by rw [hwalk v hv, hf]))

/-- What lies above `USR_MEM` is not copied. -/
theorem not_copied (h : x.Sound L role free) (halloc : vm_alloc L x.vm = .ok (pgdir, s₁))
    (hcopy : vm_copycurr pgdir s₁ = .ok ((), s₂)) (hlo : USR_MEM ≤ va) (hhi : va < ADDR_END)
    (hsome : (x.vm.translate (x.pcb x.curr).pgdir va).isSome) :
    ¬ x.vm.Copied s₂ (x.pcb x.curr).pgdir pgdir := by
  intro hcopied
  have huser : User va := ⟨le_trans (by decide) hlo, hhi⟩
  obtain ⟨n, role', free', rfl, -, -, -, -, -, hcopyOf⟩ := copy_new h halloc hcopy
  have hchild := (hcopied.present va huser).mpr hsome
  have hlo' : 3221225472 ≤ va := hlo
  rw [translate_page, hcopyOf.absent _ huser.page.1 huser.page.2 (Or.inl (by omega))] at hchild
  cases hchild

/-- **A process is copied as a whole** exactly when it has nothing above `USR_MEM`. -/
theorem fork_copies (h : ((spaces L).restrict fun _ ev => ev.Tame).Reachable x)
    (halloc : vm_alloc L x.vm = .ok (pgdir, s₁)) (hcopy : vm_copycurr pgdir s₁ = .ok ((), s₂)) :
    x.vm.Copied s₂ (x.pcb x.curr).pgdir pgdir ↔
      ∀ va, USR_MEM ≤ va → va < ADDR_END → x.vm.translate (x.pcb x.curr).pgdir va = none := by
  obtain ⟨role, free, hs⟩ := spaces_sound h
  constructor
  · intro hcopied va hlo hhi
    by_contra hne
    exact not_copied hs halloc hcopy hlo hhi (Option.ne_none_iff_isSome.mp hne) hcopied
  · intro habove
    obtain ⟨n, role', free', rfl, hne, h₂, hn, hp, hwalk, hcopyOf⟩ := copy_new hs halloc hcopy
    obtain ⟨-, hpgdir⟩ := hs.dir_role hs.used
    rw [hpgdir] at habove ⊢
    have hbelow {va f : ℕ} (huser : User va)
        (hf : x.vm.walk (x.dir x.curr) (va / 4096) = some f) : va / 4096 < 786432 := by
      by_contra hbig
      have hlo : 3221225472 ≤ va := by omega
      have hnone := habove va hlo huser.2
      rw [translate_page, hf] at hnone
      cases hnone
    refine ⟨?_, ?_, ?_, ?_⟩
    · intro va huser
      rw [translate_page, translate_page]
      cases hf : x.vm.walk (x.dir x.curr) (va / 4096) with
      | none =>
        rw [hcopyOf.absent _ huser.page.1 huser.page.2 (Or.inr hf)]
      | some f =>
        obtain ⟨f', hf', -⟩ := hcopyOf.copied _ f huser.page.1 (hbelow huser hf) hf
        rw [hf']
        exact iff_of_true rfl rfl
    · intro va f f' huser hf hf'
      rw [translate_page] at hf hf'
      obtain ⟨f'', hf'', hbytes⟩ := hcopyOf.copied _ f huser.page.1 (hbelow huser hf) hf
      rw [hf'] at hf''
      cases hf''
      refine ⟨?_, ?_⟩
      · -- the frames belong to pages of different directories
        rintro rfl
        have hchild := h₂.frame hn huser.page.1 huser.page.2 hf'
        have hparent := h₂.frame hp huser.page.1 huser.page.2 ((hwalk _ huser.page.2).trans hf)
        exact hne (Role.frame.inj (hchild.symm.trans hparent)).1
      · intro k hk
        exact (hbytes k hk).trans (hcopyOf.source _ f huser.page.1 huser.page.2 hf k hk).symm
    · intro va huser
      rw [translate_page, translate_page, hwalk _ huser.page.2]
    · intro va f huser hf
      rw [translate_page] at hf
      exact hcopyOf.source _ f huser.page.1 huser.page.2 hf

/-! ### Heaps above `USR_MEM` -/

/-- A process with few pages below `USR_MEM` is copied without an abort. -/
theorem copy_returns {pages : Finset ℕ} (h : x.Sound L role free)
    (hlen : 2 * pages.card + 1 ≤ free.length)
    (hnone : ∀ v, 32768 ≤ v → v < 786432 → v ∉ pages → x.vm.walk (x.dir x.curr) v = none) :
    ∃ pgdir s₁ s₂, vm_alloc L x.vm = .ok (pgdir, s₁) ∧ vm_copycurr pgdir s₁ = .ok ((), s₂) := by
  obtain ⟨hp, -⟩ := h.dir_role h.used
  have hpages (e : Abort) : ¬ (e = .noPage ∧ free = []) := by
    rintro ⟨-, rfl⟩
    rw [List.length_nil] at hlen
    omega
  obtain ⟨pgdir, s₁, hok₁, n, rest, rfl, rfl, hn, h₁, hcr3₁, -, hfresh₁, hwalk₁⟩ :=
    (vm_alloc_spec h.owned).returns_of hpages
  have hne : n ≠ x.dir x.curr := by
    intro heq
    rw [heq, hp] at hn
    cases hn
  have hp₁ : Function.update role n .dir (x.dir x.curr) = .dir := by
    rw [Function.update_of_ne hne.symm, hp]
  have hfew : s₁.mapped (x.dir x.curr) 32768 753664 ≤ pages.card :=
    mapped_le _ fun v hlo hhi hv => by rw [hwalk₁ _ v hp (by omega), hnone v hlo hhi hv]
  rw [List.length_cons] at hlen
  have hroom (e : Abort) : ¬ (e = .noPage ∧ rest.length < 2 * s₁.mapped (x.dir x.curr) 32768 753664) := by
    rintro ⟨-, hfull⟩
    omega
  obtain ⟨⟨⟩, s₂, hok₂, -⟩ := (copycurr_fresh h₁ hp₁ (Function.update_self n _ _) hne
    (hcr3₁.trans h.cr3_eq) hfresh₁).returns_of hroom
  exact ⟨_, s₁, s₂, hok₁, hok₂⟩

/-- A program with a stack and one page of heap, from address `b` on. -/
theorem running_heap {b : ℕ} (hb : PAGE_UP b = b) (hb' : PAGE_UP (b + 4096) = b + 4096)
    (hlow : 134217728 ≤ b) : ∃ x role free,
      ((spaces .low).restrict fun _ ev => ev.Tame).Reachable x ∧ x.Sound .low role free ∧
      x.curr ≠ 0 ∧ 32250 ≤ free.length ∧ (x.vm.walk (x.dir x.curr) (b / 4096)).isSome ∧
      ∀ v, 32768 ≤ v → v < 2 ^ 20 → v ∉ ({786431, b / 4096} : Finset ℕ) →
        x.vm.walk (x.dir x.curr) v = none := by
  have hlt : b + 4096 < 4294967296 := by
    rw [← hb']
    change (b + 4096 + 4095) % 4294967296 / 4096 * 4096 < _
    omega
  obtain ⟨x₀, x₁, role₁, free₁, hinit, hs₁, hne₁, hrun, hbrk₁, hlen₁, hnone₁⟩ := spaces_start
  have hreach₀ : ((spaces .low).restrict fun _ ev => ev.Tame).Reachable x₀ := .init hinit
  have hstep₁ : ((spaces .low).restrict fun _ ev => ev.Tame).step x₀ (.run x₁.curr) x₁ :=
    ⟨trivial, hrun⟩
  have hreach₁ := hreach₀.step hstep₁
  -- the first break maps nothing
  obtain ⟨x₂, hstep₂, role₂, free₂, hs₂, hcurr₂, hpcb₂, -, hwalk₂, hlen₂⟩ :=
    brk_step hs₁ b (by change b < 4294967296; omega) (Or.inl (hbrk₁ _))
  rw [hbrk₁, hb, Nat.zero_max, ← hcurr₂] at hpcb₂
  rw [if_pos (hbrk₁ _)] at hlen₂
  have hpages : PAGE_UP (b + 4096) / PGSIZE - b / PGSIZE = 1 := by
    rw [hb']
    change (b + 4096) / 4096 - b / 4096 = 1
    omega
  have hroom₂ : x₂.Room (b + 4096) free₂ := by
    right
    right
    rw [hpcb₂, hpages]
    exact ⟨hlow, by omega⟩
  -- the second one maps a page
  obtain ⟨x₃, hstep₃, role₃, free₃, hs₃, hcurr₃, -, hgap₃, hwalk₃, hlen₃⟩ :=
    brk_step hs₂ (b + 4096) hlt hroom₂
  have hzero : b ≠ 0 := by omega
  rw [hpcb₂, hpages, if_neg hzero] at hlen₃
  have hgap (v : ℕ) : Gap (x₂.pcb x₂.curr) (b + 4096) v ↔ v = b / 4096 := by
    rw [Gap, hpcb₂, hb']
    change b ≠ 0 ∧ b / 4096 ≤ v ∧ v < (b + 4096) / 4096 ↔ v = b / 4096
    omega
  have hno (v : ℕ) : ¬ Gap (x₁.pcb x₁.curr) b v := fun hv => hv.1 (hbrk₁ _)
  have hfirst : ((spaces .low).restrict fun _ ev => ev.Tame).step x₁ (.brk b) x₂ := ⟨trivial, hstep₂⟩
  have hsecond : ((spaces .low).restrict fun _ ev => ev.Tame).step x₂ (.brk (b + 4096)) x₃ :=
    ⟨trivial, hstep₃⟩
  refine ⟨x₃, role₃, free₃, (hreach₁.step hfirst).step hsecond, hs₃, ?_, by omega, ?_, ?_⟩
  · rwa [hcurr₃, hcurr₂]
  · rw [hcurr₃]
    exact hgap₃ _ ((hgap _).mpr rfl)
  · intro v hlo hv hnot
    simp only [Finset.mem_insert, Finset.mem_singleton, not_or] at hnot
    rw [hcurr₃, hwalk₃ v hv (by rw [hgap]; exact hnot.2), hcurr₂, hwalk₂ v hv (hno v),
      hnone₁ v hlo hv hnot.1]

/-- A program with a stack and a page of heap is copied. -/
theorem fork_copies_start : ∃ x pgdir s₁ s₂,
    ((spaces .low).restrict fun _ ev => ev.Tame).Reachable x ∧ x.curr ≠ 0 ∧
      vm_alloc .low x.vm = .ok (pgdir, s₁) ∧ vm_copycurr pgdir s₁ = .ok ((), s₂) ∧
      (x.vm.translate (x.pcb x.curr).pgdir 0x10000000).isSome ∧
      x.vm.Copied s₂ (x.pcb x.curr).pgdir pgdir := by
  obtain ⟨x, role, free, hreach, hs, hne, hlen, hsome, hnone⟩ :=
    running_heap (b := 0x10000000) (by decide) (by decide) (by decide)
  have hfew : ({786431, 0x10000000 / 4096} : Finset ℕ).card ≤ 2 := Finset.card_le_two
  obtain ⟨pgdir, s₁, s₂, halloc, hcopy⟩ := copy_returns hs (by omega)
    fun v hlo hhi hv => hnone v hlo (by omega) hv
  obtain ⟨-, hpgdir⟩ := hs.dir_role hs.used
  refine ⟨x, pgdir, s₁, s₂, hreach, hne, halloc, hcopy, ?_, (fork_copies hreach halloc hcopy).mpr ?_⟩
  · rw [hpgdir, translate_page]
    exact hsome
  · intro va hlo hhi
    have hlo' : 3221225472 ≤ va := hlo
    have huser : User va := ⟨le_trans (by decide) hlo, hhi⟩
    rw [hpgdir, translate_page]
    apply hnone _ huser.page.1 huser.page.2
    simp only [Finset.mem_insert, Finset.mem_singleton, not_or]
    omega

/-- A process with a heap above `USR_MEM` is not copied as a whole. -/
theorem fork_not_copied : ¬ ∀ x pgdir s₁ s₂, (spaces .low).Reachable x →
    vm_alloc .low x.vm = .ok (pgdir, s₁) → vm_copycurr pgdir s₁ = .ok ((), s₂) →
      x.vm.Copied s₂ (x.pcb x.curr).pgdir pgdir := by
  intro h
  obtain ⟨x, role, free, hreach, hs, -, hlen, hsome, hnone⟩ :=
    running_heap (b := 0xc0000000) (by decide) (by decide) (by decide)
  have hfew : ({786431, 0xc0000000 / 4096} : Finset ℕ).card ≤ 2 := Finset.card_le_two
  obtain ⟨pgdir, s₁, s₂, halloc, hcopy⟩ := copy_returns hs (by omega)
    fun v hlo hhi hv => hnone v hlo (by omega) hv
  have hva : USR_MEM ≤ 0xc0000000 := by decide
  apply not_copied hs halloc hcopy hva (by decide) ?_
    (h x pgdir s₁ s₂ (Lts.Reachable.of_restrict hreach) halloc hcopy)
  obtain ⟨-, hpgdir⟩ := hs.dir_role hs.used
  rw [hpgdir, translate_page]
  exact hsome

end Oslab
