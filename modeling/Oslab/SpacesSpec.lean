/-
# What the system calls do to the address spaces

Each call keeps the parts of the pages and every page that is mapped already;
`fork` gives the child a copy of the pages below `USR_MEM`.
-/
import Oslab.Spaces

namespace Oslab

open Lib Lib.Prog

variable {L : Statics} {s s' s'' : Vm} {x x' : Spaces} {role role' role'' : ℕ → Role}
  {free free' : List ℕ} {n p f v : ℕ} {q : ProcPtr}

/-! ### Copies -/

/-- Directory `n` is a copy of directory `p` below `USR_MEM`, and has no other user pages. -/
structure CopyOf (s s' : Vm) (p n : ℕ) : Prop where
  copied : ∀ v f, 32768 ≤ v → v < 786432 → s.walk p v = some f →
    ∃ f', s'.walk n v = some f' ∧ ∀ k < 4096, s'.mem (f' * 4096 + k) = s.mem (f * 4096 + k)
  absent : ∀ v, 32768 ≤ v → v < 2 ^ 20 → 786432 ≤ v ∨ s.walk p v = none → s'.walk n v = none
  source : ∀ v f, 32768 ≤ v → v < 2 ^ 20 → s.walk p v = some f → SamePage s.mem s'.mem f

/-- **The current address space is copied to a new directory.** -/
theorem copycurr_fresh (h : s.Owned L role free) (hp : role p = .dir) (hn : role n = .dir)
    (hnp : n ≠ p) (hcr3 : s.cr3 = p * 4096)
    (hfresh : ∀ v, 32768 ≤ v → v < 2 ^ 20 → s.walk n v = none) :
    wp (vm_copycurr (n * 4096)) (fun _ s' => ∃ role' free', s'.Owned L role' free' ∧
        (∀ k, role k ≠ .free → role' k = role k) ∧ s'.cr3 = s.cr3 ∧
        (∀ d v, role d = .dir → v < 2 ^ 20 → d ≠ n → s'.walk d v = s.walk d v) ∧
        CopyOf s s' p n ∧ free.length ≤ free'.length + 2 * s.mapped p 32768 753664)
      (fun e => e = .noPage ∧ free.length < 2 * s.mapped p 32768 753664) s := by
  apply (vm_copycurr_spec h hp hn hcr3).imp
  rintro - s' ⟨role', free', h', hcopies, hlen⟩
  refine ⟨role', free', h', hcopies.kept, hcopies.cr3, ?_, ⟨?_, ?_, ?_⟩, hlen⟩
  · intro d v hd hv hdn
    exact hcopies.other d v hd hv (Or.inl hdn)
  · intro v f hlo hhi hf
    exact hcopies.copied hnp v f (by omega) ⟨hlo, hhi⟩ hf
  · intro v hlo hv hnot
    rw [hcopies.other n v hn hv, hfresh v hlo hv]
    rcases hnot with hbig | hnone
    · exact Or.inr (Or.inr (Or.inl (by omega)))
    · exact Or.inr (Or.inr (Or.inr hnone))
  · intro v f hlo hv hf
    exact hcopies.same f (Or.inr ⟨p, v, Or.inl (Ne.symm hnp), h.frame hp hlo hv hf⟩)

/-! ### Processes -/

/-- Every process has its own parts of memory, and the current one runs in its address space. -/
structure Spaces.Sound (x : Spaces) (L : Statics) (role : ℕ → Role) (free : List ℕ) : Prop where
  owned : x.vm.Owned L role free
  used : (x.pcb x.curr).used = true
  cr3 : x.vm.cr3 = (x.pcb x.curr).pgdir
  dirs : ∀ q, (x.pcb q).used = true → Plays role .dir (x.pcb q).pgdir
  kstacks : ∀ q, q ≠ 0 → (x.pcb q).used = true → Plays role .held (x.pcb q).kstack

/-- The directory of a process. -/
def Spaces.dir (x : Spaces) (q : ProcPtr) : ℕ := (x.pcb q).pgdir / PGSIZE

theorem Spaces.dir_eq (hq : (x.pcb q).pgdir = n * 4096) : x.dir q = n := by
  rw [Spaces.dir, hq]
  exact Nat.mul_div_cancel n (by decide)

namespace Spaces

theorem Sound.dir_role (h : x.Sound L role free) (hq : (x.pcb q).used = true) :
    role (x.dir q) = .dir ∧ (x.pcb q).pgdir = x.dir q * 4096 := by
  obtain ⟨n, hn, hrole⟩ := h.dirs q hq
  rw [dir_eq hn]
  exact ⟨hrole, hn⟩

theorem Sound.cr3_eq (h : x.Sound L role free) : x.vm.cr3 = x.dir x.curr * 4096 := by
  rw [h.cr3]
  exact (h.dir_role h.used).2

theorem wp_inVm {α : Type} {m : VmM α} {post : α → Spaces → Prop} {F : Abort → Prop} :
    wp (inVm m) post F x ↔ wp m (fun a vm => post a { x with vm := vm }) F x.vm :=
  wp_zoom _ _

/-- The address spaces change, and the table stays. -/
theorem Sound.next {vm : Vm} (h : x.Sound L role free) (howned : vm.Owned L role' free')
    (hkept : ∀ k, role k ≠ .free → role' k = role k) (hcr3 : vm.cr3 = x.vm.cr3) :
    Sound { x with vm := vm } L role' free' := by
  refine ⟨howned, h.used, hcr3.trans h.cr3, ?_, ?_⟩
  · intro q hq
    exact (h.dirs q hq).mono (by simp) hkept
  · intro q hq hused
    exact (h.kstacks q hq hused).mono (by simp) hkept

/-- A block of the table changes. -/
theorem Sound.set {space : Space} (h : x.Sound L role free)
    (hused : q = x.curr → space.used = true ∧ space.pgdir = x.vm.cr3)
    (hdir : space.used = true → Plays role .dir space.pgdir)
    (hkstack : q ≠ 0 → space.used = true → Plays role .held space.kstack) :
    Sound { x with pcb := Function.update x.pcb q space } L role free := by
  refine ⟨h.owned, ?_, ?_, ?_, ?_⟩
  · by_cases hq : q = x.curr
    · subst hq
      simp only [Function.update_self]
      exact (hused rfl).1
    · simp only [Function.update_of_ne (Ne.symm hq)]
      exact h.used
  · by_cases hq : q = x.curr
    · subst hq
      simp only [Function.update_self]
      exact (hused rfl).2.symm
    · simp only [Function.update_of_ne (Ne.symm hq)]
      exact h.cr3
  · intro r hr
    by_cases hrq : r = q
    · subst hrq
      simp only [Function.update_self] at hr ⊢
      exact hdir hr
    · simp only [Function.update_of_ne hrq] at hr ⊢
      exact h.dirs r hr
  · intro r hr0 hr
    by_cases hrq : r = q
    · subst hrq
      simp only [Function.update_self] at hr ⊢
      exact hkstack hr0 hr
    · simp only [Function.update_of_ne hrq] at hr ⊢
      exact h.kstacks r hr0 hr

/-- What a call has left alone: the parts of the pages, and everything that was mapped. -/
structure Leaves (x : Spaces) (role : ℕ → Role) (x' : Spaces) (role' : ℕ → Role) : Prop where
  kept : ∀ k, role k ≠ .free → role' k = role k
  walk : ∀ d v, role d = .dir → v < 2 ^ 20 → x'.vm.walk d v = x.vm.walk d v

/-- Pages may have been mapped besides. -/
structure Keeps (x : Spaces) (role : ℕ → Role) (x' : Spaces) (role' : ℕ → Role) : Prop where
  kept : ∀ k, role k ≠ .free → role' k = role k
  mapped : ∀ d v, role d = .dir → v < 2 ^ 20 → (x.vm.walk d v).isSome → (x'.vm.walk d v).isSome

theorem Leaves.keeps (h : Leaves x role x' role') : Keeps x role x' role' := by
  refine ⟨h.kept, ?_⟩
  intro d v hd hv hsome
  rw [h.walk d v hd hv]
  exact hsome

/-- Only the table has changed. -/
theorem Keeps.of_eq (hvm : x'.vm = x.vm) : Keeps x role x' role :=
  ⟨fun _ _ => rfl, fun _ _ _ _ hsome => by rwa [hvm]⟩

/-- A new process has an address space without user pages and a kernel stack. -/
theorem proc_alloc_spec (h : x.Sound L role free) :
    wp (proc_alloc L) (fun r x' => r = none ∧ x' = x ∧ (∀ q, q ≠ 0 → (x.pcb q).used = true) ∨
      ∃ q n k role' free', r = some q ∧ q ≠ 0 ∧ (x.pcb q).used = false ∧
        x'.pcb = Function.update x.pcb q ⟨true, n * 4096, k, 0⟩ ∧ x'.curr = x.curr ∧
        role n = .free ∧ x'.Sound L role' free' ∧ Leaves x role x' role' ∧
        (∀ v, 32768 ≤ v → v < 2 ^ 20 → x'.vm.walk n v = none) ∧
        (∀ k, role k ≠ .free → SamePage x.vm.mem x'.vm.mem k) ∧ free.length ≤ free'.length + 2)
      (fun _ => free.length < 2) x := by
  rw [proc_alloc, wp_bind, wp_read]
  cases hfind : (List.finRange PROC_NUM).find? fun i => i ≠ 0 ∧ (x.pcb i).used = false with
  | none =>
    refine Or.inl ⟨rfl, rfl, ?_⟩
    intro q hq
    have hnot := List.find?_eq_none.mp hfind q (List.mem_finRange q)
    simp only [ne_eq, hq, not_false_eq_true, true_and, decide_eq_true_eq, Bool.not_eq_false] at hnot
    exact hnot
  | some q =>
    have hq := List.find?_some hfind
    simp only [ne_eq, decide_eq_true_eq] at hq
    obtain ⟨hq0, hunused⟩ := hq
    simp only
    rw [wp_bind, wp_inVm]
    refine (vm_alloc_spec h.owned).mono ?_ ?_
    · rintro a s₁ ⟨n, rest, rfl, rfl, hn, h₁, hcr3₁, hsame₁, hfresh₁, hwalk₁⟩
      rw [wp_bind, wp_inVm]
      refine (kalloc_spec h₁).mono ?_ ?_
      · rintro a s₂ ⟨k, rest₂, rfl, rfl, hk, hmem₂, hcr3₂, h₂⟩
        -- the two pages are different, and none of them was used before
        have hkn : k ≠ n := by
          intro heq
          rw [heq, Function.update_self] at hk
          cases hk
        have hkept (j : ℕ) (hj : role j ≠ .free) :
            Function.update (Function.update role n .dir) k .held j = role j := by
          have hj₁ := update_kept (r := .dir) hn j hj
          rw [update_kept hk j (by rwa [hj₁]), hj₁]
        have hwalk₂ (d v : ℕ) : s₂.walk d v = s₁.walk d v := by
          unfold Vm.walk
          rw [hmem₂]
        have hne : q ≠ x.curr := by
          intro heq
          rw [heq, h.used] at hunused
          cases hunused
        rw [wp_bind, setSpace, wp_update, wp_pure]
        right
        refine ⟨q, n, k * 4096, _, rest₂, rfl, hq0, hunused, rfl, rfl, hn,
          (h.next h₂ hkept (hcr3₂.trans hcr3₁)).set (fun heq => (hne heq).elim) (fun _ => ?_)
            (fun _ _ => ?_), ⟨hkept, ?_⟩, ?_, ?_, Nat.le_refl _⟩
        · refine ⟨n, rfl, ?_⟩
          rw [Function.update_of_ne hkn.symm, Function.update_self]
        · exact ⟨k, rfl, Function.update_self k _ _⟩
        · intro d v hd hv
          exact (hwalk₂ d v).trans (hwalk₁ d v hd hv)
        · intro v hlo hv
          exact (hwalk₂ n v).trans (hfresh₁ v hlo hv)
        · intro j hj
          have hjn : j ≠ n := by
            intro heq
            rw [heq, hn] at hj
            exact hj rfl
          change SamePage x.vm.mem s₂.mem j
          rw [hmem₂]
          exact hsame₁ j hjn
      · rintro e ⟨-, rfl⟩
        simp
    · rintro e ⟨-, rfl⟩
      simp

theorem PAGE_UP_idem (a : ℕ) : PAGE_UP (PAGE_UP a % ADDR_END) = PAGE_UP a := by
  change ((a + 4095) % 4294967296 / 4096 * 4096 % 4294967296 + 4095) % 4294967296 / 4096 * 4096 =
    (a + 4095) % 4294967296 / 4096 * 4096
  omega

/-- The pages between the break of a process and an address. -/
def Gap (space : Space) (addr v : ℕ) : Prop :=
  space.brk ≠ 0 ∧ space.brk / PGSIZE ≤ v ∧ v < PAGE_UP addr / PGSIZE

/-- **The break is raised** and the pages up to it are mapped, unless there was no break. -/
theorem sys_brk_spec (h : x.Sound L role free) (addr : ℕ) :
    wp (sys_brk addr) (fun _ x' => ∃ role' free', x'.Sound L role' free' ∧ Keeps x role x' role' ∧
        x'.curr = x.curr ∧ x'.pcb = Function.update x.pcb x.curr
          { x.pcb x.curr with brk := max (x.pcb x.curr).brk (PAGE_UP addr) } ∧
        (∀ v, Gap (x.pcb x.curr) addr v → (x'.vm.walk (x.dir x.curr) v).isSome) ∧
        (∀ v, v < 2 ^ 20 → ¬ Gap (x.pcb x.curr) addr v →
          x'.vm.walk (x.dir x.curr) v = x.vm.walk (x.dir x.curr) v) ∧
        free.length ≤ free'.length + if (x.pcb x.curr).brk = 0 then 0
          else 2 * (PAGE_UP addr / PGSIZE - (x.pcb x.curr).brk / PGSIZE))
      (fun _ => ¬ ((x.pcb x.curr).brk = 0 ∨ PAGE_UP addr ≤ (x.pcb x.curr).brk ∨
        PHY_MEM ≤ (x.pcb x.curr).brk ∧
          2 * (PAGE_UP addr / PGSIZE - (x.pcb x.curr).brk / PGSIZE) ≤ free.length)) x := by
  set space := x.pcb x.curr with hspace
  have hdir := h.dir_role h.used
  -- only the break of the current process changes
  have hset {vm : Vm} {role' : ℕ → Role} {free' : List ℕ} (h' : Sound { x with vm := vm } L role' free')
      (b : ℕ) : Sound { x with vm := vm, pcb := Function.update x.pcb x.curr { space with brk := b } }
        L role' free' := by
    refine h'.set (fun _ => ⟨h.used, ?_⟩) (fun _ => h'.dirs x.curr h.used)
      fun hq _ => h'.kstacks x.curr hq h.used
    exact h'.cr3.symm
  rw [sys_brk, wp_bind, proc_curr, wp_read, wp_bind, getSpace, wp_read]
  simp only
  rw [← hspace]
  by_cases hzero : space.brk = 0
  · rw [if_pos hzero, setSpace, wp_update, hzero, Nat.zero_max]
    refine ⟨role, free, hset h _, Keeps.of_eq rfl, rfl, rfl, ?_, fun _ _ _ => rfl, le_rfl⟩
    intro v hgap
    exact (hgap.1 hzero).elim
  · rw [if_neg hzero]
    by_cases hlt : space.brk < PAGE_UP addr
    · have hcurr : PAGE_DOWN x.vm.cr3 = x.dir x.curr * 4096 := by
        rw [h.cr3_eq]
        exact PAGE_DOWN_page _
      have hup : PAGE_UP ((space.brk + (PAGE_UP addr - space.brk)) % ADDR_END) = PAGE_UP addr := by
        rw [Nat.add_sub_cancel' hlt.le, PAGE_UP_idem]
      rw [if_pos hlt, wp_bind, wp_inVm, vm_curr, wp_read, hcurr, wp_bind, wp_inVm]
      refine (vm_map_spec h.owned hdir.1).mono ?_ ?_
      · rintro - s' ⟨hgood, role', free', h', hgrows, hlen⟩
        rw [hup] at hgrows hlen
        rw [setSpace, wp_update, max_eq_right hlt.le]
        refine ⟨role', free', hset (h.next h' hgrows.kept hgrows.cr3) _, ⟨hgrows.kept, ?_⟩, rfl, rfl,
          ?_, ?_, by rw [if_neg hzero]; exact hlen⟩
        · intro d v hd hv hsome
          by_cases hdn : d = x.dir x.curr
          · subst hdn
            obtain ⟨f, hf⟩ := Option.isSome_iff_exists.mp hsome
            change (s'.walk _ v).isSome
            rw [hgrows.old v f hv hf]
            rfl
          · change (s'.walk d v).isSome
            rw [hgrows.other d v hd hv (Or.inl hdn)]
            exact hsome
        · rintro v ⟨-, hlo, hhi⟩
          have hv : v < 2 ^ 20 := by
            have hend : PAGE_UP addr < 4294967296 := by
              change (addr + 4095) % 4294967296 / 4096 * 4096 < _
              omega
            have hhi' : v < PAGE_UP addr / 4096 := hhi
            omega
          change (s'.walk _ v).isSome
          cases hw : x.vm.walk (x.dir x.curr) v with
          | some f =>
            rw [hgrows.old v f hv hw]
            rfl
          | none =>
            obtain ⟨f, hf, -⟩ := hgrows.new v hv ⟨hlo, hhi⟩ hw
            rw [hf]
            rfl
        · intro v hv hnot
          apply hgrows.other _ v hdir.1 hv
          right
          rintro ⟨hlo, hhi⟩
          exact hnot ⟨hzero, hlo, hhi⟩
      · rintro e hbad (hz | hle | ⟨hlow, hroom⟩)
        · exact hzero hz
        · exact absurd hlt (not_lt.mpr hle)
        · rcases hbad with ⟨-, hodd | hbig | hlow' | hwrap⟩ | ⟨-, hfew⟩
          · exact absurd hodd (by decide)
          · exact absurd hbig (by decide)
          · have hlow'' : space.brk / 4096 * 4096 < 134217728 := hlow'
            have hlow : 134217728 ≤ space.brk := hlow
            omega
          · rw [hup] at hwrap
            have hwrap' : PAGE_UP addr < space.brk / 4096 * 4096 := hwrap
            omega
          · rw [hup] at hfew
            exact absurd hroom (not_le.mpr hfew)
    · rw [if_neg hlt, wp_pure, max_eq_left (not_lt.mp hlt)]
      refine ⟨role, free, h, Keeps.of_eq rfl, rfl, ?_, ?_, fun _ _ _ => rfl,
        Nat.le_add_right _ _⟩
      · rw [hspace, Function.update_eq_self]
      · rintro v ⟨-, hlo, hhi⟩
        have hhi' : v < PAGE_UP addr / 4096 := hhi
        have hlo' : space.brk / 4096 ≤ v := hlo
        omega

/-- **Another program runs** in a new address space, or the call has failed. -/
theorem sys_exec_spec (h : x.Sound L role free) {image : Image} (htame : image.Tame) :
    wp (sys_exec L image) (fun loaded x' => ∃ role' free', x'.Sound L role' free' ∧
        Keeps x role x' role' ∧ x'.curr = x.curr ∧
        (loaded = false → x'.pcb = x.pcb) ∧
        (loaded = true → ∃ n, role n = .free ∧
          x'.pcb = Function.update x.pcb x.curr { x.pcb x.curr with pgdir := n * 4096 } ∧
          ∀ v, 32768 ≤ v → v < 2 ^ 20 → ¬ image.Page v → x'.vm.walk n v = none) ∧
        (image.Bare → loaded = true ∧ free.length ≤ free'.length + 3))
      (fun _ => ¬ (image.Bare ∧ 3 ≤ free.length)) x := by
  rw [sys_exec, wp_bind, wp_inVm]
  refine (vm_alloc_spec h.owned).mono ?_ ?_
  · rintro a s₁ ⟨n, rest, rfl, rfl, hn, h₁, hcr3₁, -, hfresh₁, hwalk₁⟩
    have hdir := h.dir_role h.used
    have hne : x.dir x.curr ≠ n := by
      intro heq
      rw [← heq, hdir.1] at hn
      cases hn
    have hp₁ : Function.update role n .dir (x.dir x.curr) = .dir := by
      rw [Function.update_of_ne hne, hdir.1]
    have hcr3 : s₁.cr3 = x.dir x.curr * 4096 := hcr3₁.trans h.cr3_eq
    rw [wp_bind, wp_inVm]
    refine (load_user_spec h₁ hp₁ (Function.update_self n _ _) hcr3 htame).mono ?_ ?_
    · rintro ctx s₂ ⟨role₂, free₂, h₂, hcr3₂, hbuild, hbare⟩
      have hkept (k : ℕ) (hk : role k ≠ .free) : role₂ k = role k := by
        have hk₁ := update_kept (r := .dir) hn k hk
        rw [hbuild.kept k (by rwa [hk₁]), hk₁]
      -- the other address spaces are as they were
      have hother (d v : ℕ) (hd : role d = .dir) (hv : v < 2 ^ 20) : s₂.walk d v = x.vm.walk d v := by
        have hdn : d ≠ n := by
          intro heq
          rw [← heq, hd] at hn
          cases hn
        have hd₁ : Function.update role n .dir d = .dir := by
          rw [Function.update_of_ne hdn, hd]
        rw [hbuild.other d v hd₁ hv (Or.inl hdn), hwalk₁ d v hd hv]
      have hsound : Sound { x with vm := s₂ } L role₂ free₂ :=
        h.next h₂ hkept (hcr3₂.trans hcr3₁)
      have hleaves : Keeps x role { x with vm := s₂ } role₂ := by
        refine ⟨hkept, ?_⟩
        intro d v hd hv hsome
        change (s₂.walk d v).isSome
        rw [hother d v hd hv]
        exact hsome
      cases ctx with
      | none =>
        rw [wp_pure]
        refine ⟨role₂, free₂, hsound, hleaves, rfl, fun _ => rfl, ?_, ?_⟩
        · intro hfalse
          cases hfalse
        · intro hb
          exact absurd (hbare hb).1 (by simp)
      | some ctx =>
        simp only
        rw [wp_bind, proc_curr, wp_read, wp_bind, getSpace, wp_read, wp_bind, setSpace, wp_update,
          wp_bind, wp_inVm, set_cr3, wp_update, wp_pure]
        refine ⟨role₂, free₂, ⟨h₂.set_cr3 _, ?_, ?_, ?_, ?_⟩, ⟨hkept, hleaves.mapped⟩, rfl, ?_, ?_, ?_⟩
        · simp only [Function.update_self]
          exact h.used
        · simp only [Function.update_self]
        · intro q hq
          by_cases hqc : q = x.curr
          · subst hqc
            simp only [Function.update_self]
            refine ⟨n, rfl, ?_⟩
            rw [hbuild.kept n (by simp), Function.update_self]
          · simp only [Function.update_of_ne hqc] at hq ⊢
            exact hsound.dirs q hq
        · intro q hq0 hq
          by_cases hqc : q = x.curr
          · subst hqc
            simp only [Function.update_self] at hq ⊢
            exact hsound.kstacks x.curr hq0 hq
          · simp only [Function.update_of_ne hqc] at hq ⊢
            exact hsound.kstacks q hq0 hq
        · intro hfalse
          cases hfalse
        · intro _
          refine ⟨n, hn, rfl, ?_⟩
          intro v hlo hv hpage
          change s₂.walk n v = none
          rw [hbuild.other n v (Function.update_self n _ _) hv (Or.inr hpage), hfresh₁ v hlo hv]
        · intro hb
          refine ⟨rfl, ?_⟩
          have hlen := (hbare hb).2
          rw [List.length_cons]
          omega
    · rintro e hfew ⟨hb, hlen⟩
      apply hfew
      rw [List.length_cons] at hlen
      exact ⟨hb, by omega⟩
  · rintro e ⟨-, rfl⟩ ⟨-, hlen⟩
    simp at hlen

/-- **A process is copied**, below `USR_MEM`. -/
theorem sys_fork_spec (h : x.Sound L role free) :
    wp (sys_fork L) (fun child x' => child = none ∧ x' = x ∨
        ∃ q n k role' free', child = some q ∧ (x.pcb q).used = false ∧ role n = .free ∧
          x'.pcb = Function.update x.pcb q ⟨true, n * 4096, k, (x.pcb x.curr).brk⟩ ∧
          x'.curr = x.curr ∧ x'.Sound L role' free' ∧ Keeps x role x' role' ∧
          CopyOf x.vm x'.vm (x.dir x.curr) n) (fun _ => True) x := by
  rw [sys_fork, wp_bind]
  refine (proc_alloc_spec h).mono ?_ fun _ _ => trivial
  rintro r x₁ (⟨rfl, rfl, -⟩ | ⟨q, n, k, role₁, free₁, rfl, hq0, hunused, hpcb₁, hcurr₁, hn, h₁,
    hleaves₁, hfresh₁, hsame₁, -⟩)
  · exact Or.inl ⟨rfl, rfl⟩
  · simp only
    have hspace₁ : x₁.pcb q = ⟨true, n * 4096, k, 0⟩ := by
      rw [hpcb₁, Function.update_self]
    have hqc : x.curr ≠ q := by
      intro heq
      rw [← heq, h.used] at hunused
      cases hunused
    have hparent₁ : x₁.pcb x.curr = x.pcb x.curr := by
      rw [hpcb₁, Function.update_of_ne hqc]
    have hdir₁ : x₁.dir x.curr = x.dir x.curr := by
      rw [Spaces.dir, hparent₁, Spaces.dir]
    have hdir := h.dir_role h.used
    have hp₁ : role₁ (x.dir x.curr) = .dir := by
      rw [hleaves₁.kept _ (by simp [hdir.1]), hdir.1]
    have hn₁ : role₁ n = .dir := by
      have hrole := h₁.dir_role (q := q) (by rw [hspace₁])
      rw [dir_eq (n := n) (by rw [hspace₁])] at hrole
      exact hrole.1
    -- the new directory is not that of the parent, which is the current one
    have hne : n ≠ x.dir x.curr := by
      intro heq
      rw [heq, hdir.1] at hn
      cases hn
    have hcr3₁ : x₁.vm.cr3 = x.dir x.curr * 4096 := by
      rw [h₁.cr3_eq, hcurr₁, hdir₁]
    rw [wp_bind, proc_copycurr, wp_bind, getSpace, wp_read, hspace₁, wp_bind, wp_inVm]
    refine (copycurr_fresh h₁.owned hp₁ hn₁ hne hcr3₁ hfresh₁).mono ?_ fun _ _ => trivial
    rintro - s₂ ⟨role₂, free₂, h₂, hkept₂, hcr3₂, hother₂, hcopy₂, -⟩
    rw [wp_bind, proc_curr, wp_read, wp_bind, getSpace, wp_read, setSpace, wp_update, wp_pure]
    right
    simp only
    rw [hcurr₁, hparent₁]
    have hkept (j : ℕ) (hj : role j ≠ .free) : role₂ j = role j := by
      have hj₁ := hleaves₁.kept j hj
      rw [hkept₂ j (by rwa [hj₁]), hj₁]
    have hsound₂ : Sound { x₁ with vm := s₂ } L role₂ free₂ := h₁.next h₂ hkept₂ hcr3₂
    refine ⟨q, n, k, role₂, free₂, rfl, hunused, hn, ?_, rfl, ?_, ⟨hkept, ?_⟩, ?_⟩
    · rw [hpcb₁, Function.update_idem]
    · have hset : Sound ⟨s₂, Function.update x₁.pcb q ⟨true, n * 4096, k, (x.pcb x.curr).brk⟩,
          x₁.curr⟩ L role₂ free₂ := hsound₂.set ?_ ?_ ?_
      · rwa [hcurr₁] at hset
      · intro heq
        exact absurd (heq.trans hcurr₁).symm hqc
      · intro _
        have hdirs := hsound₂.dirs q (by rw [hspace₁])
        rw [hspace₁] at hdirs
        exact hdirs
      · intro _ _
        have hkstacks := hsound₂.kstacks q hq0 (by rw [hspace₁])
        rw [hspace₁] at hkstacks
        exact hkstacks
    · intro d v hd hv hsome
      have hd₁ : role₁ d = .dir := by
        rw [hleaves₁.kept d (by simp [hd]), hd]
      have hdn : d ≠ n := by
        intro heq
        rw [← heq, hd] at hn
        cases hn
      change (s₂.walk d v).isSome
      rw [hother₂ d v hd₁ hv hdn, hleaves₁.walk d v hd hv]
      exact hsome
    -- what is copied is what the parent had before the pages for the child were taken
    · have hwalk (v : ℕ) (hv : v < 2 ^ 20) :
          x₁.vm.walk (x.dir x.curr) v = x.vm.walk (x.dir x.curr) v :=
        hleaves₁.walk _ v hdir.1 hv
      have hbytes (v f : ℕ) (hlo : 32768 ≤ v) (hv : v < 2 ^ 20)
          (hf : x.vm.walk (x.dir x.curr) v = some f) : SamePage x.vm.mem x₁.vm.mem f := by
        apply hsame₁
        rw [h.owned.frame hdir.1 hlo hv hf]
        simp
      refine ⟨?_, ?_, ?_⟩
      · intro v f hlo hhi hf
        obtain ⟨f', hf', hcopy⟩ := hcopy₂.copied v f hlo hhi (by rw [hwalk v (by omega), hf])
        refine ⟨f', hf', ?_⟩
        intro j hj
        exact (hcopy j hj).trans (hbytes v f hlo (by omega) hf j hj)
      · intro v hlo hv hnot
        apply hcopy₂.absent v hlo hv
        rwa [hwalk v hv]
      · intro v f hlo hv hf
        exact (hbytes v f hlo hv hf).trans (hcopy₂.source v f hlo hv (by rw [hwalk v hv, hf]))

/-- **The first program is loaded.** -/
theorem main_spec {sh : Image} (hzero : ZeroPage x.vm.mem L.kpd) (htame : sh.Tame)
    (hpcb : ∀ q, x.pcb q = ⟨false, 0, 0, 0⟩) (hcurr : x.curr = 0) :
    wp (main L sh) (fun _ x' => ∃ role free, x'.Sound L role free ∧ (∀ q, (x'.pcb q).brk = 0) ∧
        (sh.Bare → 32252 ≤ free.length ∧ ∃ q, q ≠ 0 ∧ (x'.pcb q).used = true ∧
          ∀ v, 32768 ≤ v → v < 2 ^ 20 → ¬ sh.Page v → x'.vm.walk (x'.dir q) v = none))
      (fun _ => ¬ sh.Bare) x := by
  rw [main, wp_bind, wp_inVm]
  refine (init_page_spec hzero).imp ?_
  rintro - s₁ ⟨h₁, hcr3₁, -⟩
  have hcurr₁ : PAGE_DOWN s₁.cr3 = s₁.cr3 := by
    rw [hcr3₁]
    exact PAGE_DOWN_page _
  rw [wp_bind, init_proc, wp_bind, wp_inVm, vm_curr, wp_read, hcurr₁, wp_bind, getSpace, wp_read,
    setSpace, wp_update, wp_bind]
  set x₂ : Spaces := ⟨s₁, Function.update x.pcb 0 { x.pcb 0 with used := true, pgdir := s₁.cr3 },
    x.curr⟩ with hx₂
  have hzero₂ : x₂.pcb 0 = ⟨true, s₁.cr3, 0, 0⟩ := by
    rw [hx₂]
    simp only [Function.update_self, hpcb]
  have hother₂ (q : ProcPtr) (hq : q ≠ 0) : x₂.pcb q = ⟨false, 0, 0, 0⟩ := by
    rw [hx₂]
    simp only [Function.update_of_ne hq, hpcb]
  -- the first process has the directory of the kernel
  have h₂ : x₂.Sound L (firstRole L) heapPages := by
    refine ⟨h₁, ?_, ?_, ?_, ?_⟩
    · change (x₂.pcb x.curr).used = true
      rw [hcurr, hzero₂]
    · change s₁.cr3 = (x₂.pcb x.curr).pgdir
      rw [hcurr, hzero₂]
    · intro q hq
      by_cases hq0 : q = 0
      · subst hq0
        rw [hzero₂]
        exact ⟨L.kpd, hcr3₁, h₁.kpd⟩
      · rw [hother₂ q hq0] at hq
        cases hq
    · intro q hq0 hq
      rw [hother₂ q hq0] at hq
      cases hq
  have hpages : heapPages.length = 32256 := by
    unfold heapPages
    rw [List.length_range']
  refine (proc_alloc_spec h₂).mono ?_ ?_
  · rintro r x₃ (⟨-, -, hfull⟩ | ⟨q, n, k, role₃, free₃, rfl, hq0, -, hpcb₃, hcurr₃, -, h₃, -, hfresh₃,
      -, hlen₃⟩)
    · have hone := hfull 1 (by decide)
      rw [hother₂ 1 (by decide)] at hone
      cases hone
    · have hspace₃ : x₃.pcb q = ⟨true, n * 4096, k, 0⟩ := by
        rw [hpcb₃, Function.update_self]
      have hq := h₃.dir_role (q := q) (by rw [hspace₃])
      have hdir₃ : x₃.dir q = n := dir_eq (by rw [hspace₃])
      rw [hdir₃] at hq
      simp only
      rw [wp_bind, getSpace, wp_read, hspace₃, wp_bind, wp_inVm]
      refine (load_user_spec h₃.owned (h₃.dir_role h₃.used).1 hq.1 h₃.cr3_eq htame).mono ?_ ?_
      · rintro ctx s₄ ⟨role₄, free₄, h₄, hcr3₄, hbuild, hbare⟩
        rw [wp_assert]
        have hx₄ : Sound { x₃ with vm := s₄ } L role₄ free₄ := h₃.next h₄ hbuild.kept hcr3₄
        -- whatever is loaded, no process has a break; a bare shell leaves most pages free
        refine ⟨fun _ => ⟨role₄, free₄, hx₄, ?_, ?_⟩, ?_⟩
        · intro p
          change (x₃.pcb p).brk = 0
          rw [hpcb₃]
          by_cases hpq : p = q
          · subst hpq
            rw [Function.update_self]
          · rw [Function.update_of_ne hpq]
            by_cases hp0 : p = 0
            · subst hp0
              rw [hzero₂]
            · rw [hother₂ p hp0]
        · intro hb
          have hlen := (hbare hb).2
          refine ⟨by omega, q, hq0, ?_, ?_⟩
          · change (x₃.pcb q).used = true
            rw [hspace₃]
          · intro v hlo hv hpage
            have hdir₄ : Spaces.dir { x₃ with vm := s₄ } q = n := hdir₃
            rw [hdir₄]
            change s₄.walk n v = none
            rw [hbuild.other n v hq.1 hv (Or.inr hpage), hfresh₃ v hlo hv]
        · intro hnone hb
          exact hnone (hbare hb).1
      · intro e hfew hb
        apply hfew
        exact ⟨hb, by omega⟩
  · intro e hfew
    omega

/-- What the current process writes to its pages leaves the address spaces alone. -/
theorem write_spec (h : x.Sound L role free) {va : ℕ} {bs : List UInt8} (hva : User va) :
    wp (inVm (putBytes va bs)) (fun _ x' => x'.Sound L role free ∧ Leaves x role x' role ∧
      x'.pcb = x.pcb ∧ x'.curr = x.curr) (fun _ => True) x := by
  have hdir := h.dir_role h.used
  rw [wp_inVm]
  refine (putBytes_user h.owned hdir.1 h.cr3_eq hva.2 (Or.inl hva.1)).mono ?_ fun _ _ => trivial
  intro _ s' hw
  refine ⟨h.next (hw.owned h.owned) (fun _ _ => rfl) hw.cr3, ⟨fun _ _ => rfl, ?_⟩, rfl, rfl⟩
  intro d v hd hv
  exact hw.walk h.owned hd hv

/-- So does what the kernel writes to a kernel stack. -/
theorem kwrite_sound (h : x.Sound L role free) {k : ℕ} {bs : List UInt8} (hq0 : q ≠ 0)
    (hq : (x.pcb q).used = true) (hroom : k + bs.length ≤ 4096) :
    let x' : Spaces :=
      { x with vm := { x.vm with mem := x.vm.mem.splice ((x.pcb q).kstack + k) bs } }
    x'.Sound L role free ∧ Leaves x role x' role := by
  obtain ⟨n, hn, hrole⟩ := h.kstacks q hq0 hq
  have hsame (j : ℕ) (hj : role j ≠ .held) :
      SamePage x.vm.mem (x.vm.mem.splice ((x.pcb q).kstack + k) bs) j := by
    rw [hn]
    refine samePage_splice (Nat.le_add_right _ _) (by omega) ?_
    intro heq
    rw [heq] at hj
    exact hj hrole
  refine ⟨h.next (h.owned.write rfl rfl ?_) (fun _ _ => rfl) rfl, ⟨fun _ _ => rfl, ?_⟩⟩
  · intro j
    by_cases hj : role j = .held
    · exact Or.inl hj
    · exact Or.inr (Or.inr (hsame j hj))
  · intro d v hd hv
    refine h.owned.walk_same hd hv ((hsame d (by simp [hd])).entry (by omega)) ?_
    intro t ht
    apply (hsame t _).entry (by omega)
    rcases ht with ht | ht <;> simp [ht]

/-- There is room for the pages up to a new break. -/
def Room (x : Spaces) (addr : ℕ) (free : List ℕ) : Prop :=
  (x.pcb x.curr).brk = 0 ∨ PAGE_UP addr ≤ (x.pcb x.curr).brk ∨ PHY_MEM ≤ (x.pcb x.curr).brk ∧
    2 * (PAGE_UP addr / PGSIZE - (x.pcb x.curr).brk / PGSIZE) ≤ free.length

/-- The break of the current process has been raised. -/
structure Raised (x : Spaces) (addr : ℕ) (free : List ℕ) (x' : Spaces) (L : Statics)
    (role' : ℕ → Role) (free' : List ℕ) : Prop where
  sound : x'.Sound L role' free'
  curr : x'.curr = x.curr
  brk : (x'.pcb x.curr).brk = max (x.pcb x.curr).brk (PAGE_UP addr)
  gap : ∀ v, Gap (x.pcb x.curr) addr v → (x'.vm.walk (x'.dir x.curr) v).isSome
  walk : ∀ v, v < 2 ^ 20 → ¬ Gap (x.pcb x.curr) addr v →
    x'.vm.walk (x'.dir x.curr) v = x.vm.walk (x.dir x.curr) v
  length : free.length ≤ free'.length + if (x.pcb x.curr).brk = 0 then 0
    else 2 * (PAGE_UP addr / PGSIZE - (x.pcb x.curr).brk / PGSIZE)

/-- A break for which there is room. -/
theorem brk_step (h : x.Sound L role free) (addr : ℕ) (haddr : addr < ADDR_END)
    (hroom : x.Room addr free) :
    ∃ x', Step L x (.brk addr) x' ∧ ∃ role' free', Raised x addr free x' L role' free' := by
  have hspec := (sys_brk_spec h addr).mono (fun _ _ hpost => hpost) fun _ hnot => hnot hroom
  obtain ⟨⟨⟩, x', hok, role', free', hs', -, hcurr, hpcb, hgap, hwalk, hlen⟩ := hspec.returns
  have hself : x'.pcb x.curr =
      { x.pcb x.curr with brk := max (x.pcb x.curr).brk (PAGE_UP addr) } := by
    rw [hpcb, Function.update_self]
  have hdir : x'.dir x.curr = x.dir x.curr := by
    rw [Spaces.dir, hself, Spaces.dir]
  refine ⟨x', ⟨haddr, hok⟩, role', free', hs', hcurr, by rw [hself], ?_, ?_, hlen⟩
  · intro v hv
    rw [hdir]
    exact hgap v hv
  · intro v hv hnot
    rw [hdir, hwalk v hv hnot]

/-! ### A small program -/

/-- An executable with one segment that is empty. -/
def bareFile : List UInt8 :=
  [0x7f, 0x45, 0x4c, 0x46, 1, 1, 1, 0, 0, 0, 0, 0, 0, 0, 0, 0, 2, 0, 3, 0, 1, 0, 0, 0,
   0x00, 0x80, 0x04, 0x08, 52, 0, 0, 0, 0, 0, 0, 0, 0, 0, 0, 0, 52, 0, 32, 0, 1, 0, 0, 0, 0, 0, 0, 0,
   1, 0, 0, 0, 0, 0, 0, 0, 0x00, 0x80, 0x04, 0x08, 0x00, 0x80, 0x04, 0x08, 0, 0, 0, 0, 0, 0, 0, 0,
   7, 0, 0, 0, 0, 16, 0, 0]

def bareImage : Image := ⟨some bareFile, fun _ => 0, []⟩

theorem ehdrOf_bareFile : ehdrOf bareFile (fun _ => 0) = bareFile.take 52 := by decide

theorem phdrOf_bareFile : phdrOf bareFile (bareFile.take 52) (fun _ => 0) 1 = bareFile.drop 52 := by
  decide

theorem segment_bareFile {i : ℕ} {ph : List UInt8} (h : Segment bareFile (fun _ => 0) i ph) :
    ph = bareFile.drop 52 := by
  obtain ⟨hi, rfl, -⟩ := h
  have hcount : half (bareFile.take 52) 44 = 1 := by decide
  rw [ehdrOf_bareFile] at hi ⊢
  rw [hcount, Nat.lt_one_iff] at hi
  rw [hi, phdrOf_bareFile]

theorem emptySegment_bareFile : EmptySegment (bareFile.drop 52) := by
  refine ⟨by decide, by decide, by decide, by decide⟩

theorem bareImage_bare : bareImage.Bare := by
  refine ⟨by decide, bareFile, rfl, ?_, ?_, ⟨bareFile.drop 52, ?_, ?_, ?_⟩, ?_, ?_⟩
  · intro i ph hseg
    rw [segment_bareFile hseg]
    exact emptySegment_bareFile
  · exact (congrArg (half · 44) ehdrOf_bareFile).trans (by decide)
  · exact lt_of_lt_of_eq Nat.zero_lt_one
      ((congrArg (half · 44) ehdrOf_bareFile).trans (by decide)).symm
  · change _ = phdrOf bareFile (ehdrOf bareFile fun _ => 0) (fun _ => 0) 1
    rw [ehdrOf_bareFile, phdrOf_bareFile]
  · decide
  · exact (congrArg (wordOf · 0) ehdrOf_bareFile).trans (by decide)
  · change wordOf (ehdrOf bareFile fun _ => 0) 24 ≠ -1
    rw [ehdrOf_bareFile]
    decide

theorem bareImage_tame : bareImage.Tame := by
  intro file hfile _
  cases hfile
  refine ⟨fun i ph hseg => ?_, fun _ => by decide⟩
  rw [segment_bareFile hseg]
  exact Or.inr (Or.inr (by decide))

/-- It has a stack page and nothing else. -/
theorem bareImage_page (h : bareImage.Page v) : v = 786431 := by
  obtain ⟨file, hfile, i, ph, hseg, hpage⟩ := h
  cases hfile
  rw [segment_bareFile hseg] at hpage
  rcases hpage with hstack | ⟨hlo, hhi⟩
  · exact hstack
  · have hnone : PAGE_UP (((wordOf (bareFile.drop 52) 8).toNat +
        (wordOf (bareFile.drop 52) 20).toNat) % ADDR_END) / PGSIZE =
          (wordOf (bareFile.drop 52) 8).toNat / PGSIZE := by decide
    rw [hnone] at hhi
    exact absurd hhi (not_lt.mpr hlo)

/-- `schedule` lets a process run. -/
theorem run_step (h : x.Sound L role free) (hq : (x.pcb q).used = true) :
    ∃ x', Step L x (.run q) x' ∧ x'.Sound L role free ∧ x'.curr = q ∧ x'.pcb = x.pcb ∧
      ∀ d v, x'.vm.walk d v = x.vm.walk d v :=
  ⟨⟨{ x.vm with cr3 := (x.pcb q).pgdir }, x.pcb, q⟩, ⟨hq, rfl⟩,
    ⟨h.owned.set_cr3 _, hq, rfl, h.dirs, h.kstacks⟩, rfl, rfl, fun _ _ => rfl⟩

/-- The small program is loaded in place of the one that runs, with the break that this one had. -/
theorem exec_bare (h : x.Sound L role free) (hlen : 3 ≤ free.length) :
    ∃ x' role' free', Step L x (.exec bareImage true) x' ∧ x'.Sound L role' free' ∧
      x'.curr = x.curr ∧ (x'.pcb x.curr).brk = (x.pcb x.curr).brk ∧
      free.length ≤ free'.length + 3 ∧
      ∀ v, 32768 ≤ v → v < 2 ^ 20 → v ≠ 786431 → x'.vm.walk (x'.dir x.curr) v = none := by
  have hspec := (sys_exec_spec h bareImage_tame).mono (fun _ _ hpost => hpost)
    fun _ hnot => hnot ⟨bareImage_bare, hlen⟩
  obtain ⟨loaded, x', hok, role', free', hs', -, hcurr, -, hloaded, hbare⟩ := hspec.returns
  obtain ⟨rfl, hlen'⟩ := hbare bareImage_bare
  obtain ⟨n, -, hpcb, hfresh⟩ := hloaded rfl
  have hspace : x'.pcb x.curr = { x.pcb x.curr with pgdir := n * 4096 } := by
    rw [hpcb, Function.update_self]
  refine ⟨x', role', free', hok, hs', hcurr, by rw [hspace], hlen', ?_⟩
  intro v hlo hv hne
  rw [dir_eq (n := n) (by rw [hspace])]
  exact hfresh v hlo hv fun hpage => hne (bareImage_page hpage)

/-- The kernel starts with the small program, which runs. -/
theorem spaces_start : ∃ x₀ x role free, (spaces .low).init x₀ ∧ x.Sound .low role free ∧
    x.curr ≠ 0 ∧ Step .low x₀ (.run x.curr) x ∧ (∀ q, (x.pcb q).brk = 0) ∧ 32252 ≤ free.length ∧
      ∀ v, 32768 ≤ v → v < 2 ^ 20 → v ≠ 786431 → x.vm.walk (x.dir x.curr) v = none := by
  set x₀ : Spaces := ⟨⟨fun _ => 0, 0, 0⟩, fun _ => ⟨false, 0, 0, 0⟩, 0⟩ with hx₀
  have hzero : ZeroPage x₀.vm.mem Statics.low.kpd := fun _ _ => rfl
  have hpcb (q : ProcPtr) : x₀.pcb q = ⟨false, 0, 0, 0⟩ := rfl
  have hspec := (main_spec hzero bareImage_tame hpcb rfl).mono (fun _ _ hpost => hpost)
    fun _ hbare => hbare bareImage_bare
  obtain ⟨⟨⟩, x, hok, role, free, hs, hbrk, hbare⟩ := hspec.returns
  obtain ⟨hlen, q, hq0, hused, hnone⟩ := hbare bareImage_bare
  obtain ⟨x', hstep, hs', rfl, hpcb', hwalk⟩ := run_step hs hused
  refine ⟨x, x', role, free, ⟨x₀, bareImage, bareImage_tame, hzero, hpcb, rfl, hok⟩, hs', hq0, hstep,
    ?_, hlen, ?_⟩
  · intro q
    rw [hpcb', hbrk]
  · intro v hlo hv hne
    have hdir : x'.dir x'.curr = x.dir x'.curr := by
      rw [Spaces.dir, hpcb', Spaces.dir]
    rw [hwalk, hdir]
    exact hnone v hlo hv fun hpage => hne (bareImage_page hpage)

end Spaces

end Oslab
