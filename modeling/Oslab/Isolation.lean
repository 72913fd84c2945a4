/-
# Address spaces are apart

The calls that build address spaces, in any order: directories are made, ranges
of them are mapped, the current one is copied to another, and pages are taken for
kernel stacks. No frame of a user page is ever anything else.
-/
import Oslab.Lib.Transition
import Oslab.VmeSpec

namespace Oslab

open Lib Lib.Prog

/-- A call that changes the address spaces. -/
inductive PagingEvent
  | vm_alloc
  | vm_map (pgdir va len prot : ℕ)
  | vm_copycurr (pgdir : ℕ)
  /-- `kalloc` for a kernel stack -/
  | kstack
  | set_cr3 (pgdir : ℕ)

/-- Memory, with the directories and the kernel stacks there are so far. -/
structure Paging where
  vm : Vm
  dirs : List ℕ
  kstacks : List ℕ

/-- One call that does not abort. -/
def Paging.Step (L : Statics) (x : Paging) : PagingEvent → Paging → Prop
  | .vm_alloc, x' => ∃ pd, vm_alloc L x.vm = .ok (pd, x'.vm) ∧ x'.dirs = pd :: x.dirs ∧
      x'.kstacks = x.kstacks
  | .vm_map pgdir va len prot, x' => pgdir ∈ x.dirs ∧ va < ADDR_END ∧ len < ADDR_END ∧
      vm_map pgdir va len prot x.vm = .ok ((), x'.vm) ∧ x'.dirs = x.dirs ∧ x'.kstacks = x.kstacks
  | .vm_copycurr pgdir, x' => pgdir ∈ x.dirs ∧ vm_copycurr pgdir x.vm = .ok ((), x'.vm) ∧
      x'.dirs = x.dirs ∧ x'.kstacks = x.kstacks
  | .kstack, x' => ∃ a, kalloc x.vm = .ok (a, x'.vm) ∧ x'.dirs = x.dirs ∧ x'.kstacks = a :: x.kstacks
  | .set_cr3 pgdir, x' => pgdir ∈ x.dirs ∧ set_cr3 pgdir x.vm = .ok ((), x'.vm) ∧
      x'.dirs = x.dirs ∧ x'.kstacks = x.kstacks

/-- The calls in any order, after `init_page`. -/
def paging (L : Statics) : Lts Paging PagingEvent where
  init x := ∃ s, ZeroPage s.mem L.kpd ∧ init_page L s = .ok ((), x.vm) ∧
    x.dirs = [L.kpd * PGSIZE] ∧ x.kstacks = []
  step := Paging.Step L

/-- An address that belongs to user programs. -/
def User (va : ℕ) : Prop := PHY_MEM ≤ va ∧ va < ADDR_END

theorem User.page {va : ℕ} (h : User va) : 32768 ≤ va / 4096 ∧ va / 4096 < 2 ^ 20 := by
  have hlo : 134217728 ≤ va := h.1
  have hhi : va < 4294967296 := h.2
  omega

/-- The frame that `va` is translated to. -/
def Vm.translate (s : Vm) (pgdir va : ℕ) : Option ℕ := s.walk (pgdir / PGSIZE) (va / PGSIZE)

/-- Address `b` is on the list that starts at `a` and goes through the first words of its pages. -/
inductive Linked (m : Mem) : ℕ → ℕ → Prop
  | head {a : ℕ} : a ≠ 0 → Linked m a a
  | next {a b : ℕ} : a ≠ 0 → Linked m (m.word a).toNat b → Linked m a b

/-- The page is a page table of the directory. -/
def Vm.Table (s : Vm) (pgdir t : ℕ) : Prop :=
  ∃ i < 1024, present (pteAt s.mem (pgdir / PGSIZE) i) ∧
    frameOf (pteAt s.mem (pgdir / PGSIZE) i) = t

variable {L : Statics} {s s' : Vm} {x x' : Paging} {role : ℕ → Role} {free : List ℕ} {m : Mem}

/-! ### What every call keeps -/

/-- The address is that of a page with the part. -/
def Plays (role : ℕ → Role) (r : Role) (a : ℕ) : Prop := ∃ n, a = n * 4096 ∧ role n = r

theorem Plays.mono {role' : ℕ → Role} {r : Role} {a : ℕ} (h : Plays role r a) (hr : r ≠ .free)
    (hkept : ∀ k, role k ≠ .free → role' k = role k) : Plays role' r a := by
  obtain ⟨n, hn, hrole⟩ := h
  refine ⟨n, hn, ?_⟩
  rw [hkept n, hrole]
  rw [hrole]
  exact hr

/-- The directories are directories, and the kernel stacks are held. -/
structure Paging.Sound (x : Paging) (L : Statics) (role : ℕ → Role) (free : List ℕ) : Prop where
  owned : x.vm.Owned L role free
  dirs : ∀ pd ∈ x.dirs, Plays role .dir pd
  kstacks : ∀ a ∈ x.kstacks, Plays role .held a
  cr3 : Plays role .dir x.vm.cr3

/-- Whatever takes pages from the free list only leaves the parts of the others alone. -/
theorem Paging.Sound.next {role' : ℕ → Role} {free' : List ℕ} (h : x.Sound L role free)
    (howned : x'.vm.Owned L role' free') (hkept : ∀ k, role k ≠ .free → role' k = role k)
    (hdirs : ∀ pd ∈ x'.dirs, pd ∈ x.dirs ∨ Plays role' .dir pd)
    (hkstacks : ∀ a ∈ x'.kstacks, a ∈ x.kstacks ∨ Plays role' .held a)
    (hcr3 : x'.vm.cr3 = x.vm.cr3 ∨ x'.vm.cr3 ∈ x.dirs) : x'.Sound L role' free' := by
  refine ⟨howned, ?_, ?_, ?_⟩
  · intro pd hpd
    rcases hdirs pd hpd with hold | hnew
    · exact (h.dirs pd hold).mono (by simp) hkept
    · exact hnew
  · intro a ha
    rcases hkstacks a ha with hold | hnew
    · exact (h.kstacks a hold).mono (by simp) hkept
    · exact hnew
  · rcases hcr3 with heq | hmem
    · rw [heq]
      exact h.cr3.mono (by simp) hkept
    · exact (h.dirs _ hmem).mono (by simp) hkept

/-- A page that was free is taken. -/
theorem update_kept {n : ℕ} {r : Role} (hn : role n = .free) (k : ℕ) (hk : role k ≠ .free) :
    Function.update role n r k = role k := by
  apply Function.update_of_ne
  intro heq
  subst heq
  exact hk hn

/-- **Every call keeps the parts of the pages.** -/
theorem Paging.Step.sound {ev : PagingEvent} (h : x.Sound L role free) (hstep : x.Step L ev x') :
    ∃ role' free', x'.Sound L role' free' := by
  -- each call gives a page a new part, or none, and keeps all the others
  cases ev with
  | vm_alloc =>
    obtain ⟨pd, hok, hdirs, hkstacks⟩ := hstep
    obtain ⟨n, rest, -, rfl, hn, howned, hcr3, -⟩ := (vm_alloc_spec h.owned).of_ok hok
    refine ⟨_, rest, h.next howned (update_kept hn) ?_ ?_ (Or.inl hcr3)⟩
    · intro pd hpd
      rw [hdirs, List.mem_cons] at hpd
      rcases hpd with rfl | hold
      · exact Or.inr ⟨n, rfl, Function.update_self n _ _⟩
      · exact Or.inl hold
    · intro a ha
      rw [hkstacks] at ha
      exact Or.inl ha
  | vm_map pgdir va len prot =>
    obtain ⟨hpgdir, -, -, hok, hdirs, hkstacks⟩ := hstep
    obtain ⟨n, rfl, hn⟩ := h.dirs pgdir hpgdir
    obtain ⟨-, role', free', howned, hgrows, -⟩ := (vm_map_spec h.owned hn).of_ok hok
    refine ⟨role', free', h.next howned hgrows.kept ?_ ?_ (Or.inl hgrows.cr3)⟩
    · intro pd hpd
      rw [hdirs] at hpd
      exact Or.inl hpd
    · intro a ha
      rw [hkstacks] at ha
      exact Or.inl ha
  | vm_copycurr pgdir =>
    obtain ⟨hpgdir, hok, hdirs, hkstacks⟩ := hstep
    obtain ⟨n, rfl, hn⟩ := h.dirs pgdir hpgdir
    obtain ⟨p, hcr3, hp⟩ := h.cr3
    obtain ⟨role', free', howned, hcopies, -⟩ := (vm_copycurr_spec h.owned hp hn hcr3).of_ok hok
    refine ⟨role', free', h.next howned hcopies.kept ?_ ?_ (Or.inl hcopies.cr3)⟩
    · intro pd hpd
      rw [hdirs] at hpd
      exact Or.inl hpd
    · intro a ha
      rw [hkstacks] at ha
      exact Or.inl ha
  | kstack =>
    obtain ⟨a, hok, hdirs, hkstacks⟩ := hstep
    obtain ⟨n, rest, -, rfl, hn, -, hcr3, howned⟩ := (kalloc_spec h.owned).of_ok hok
    refine ⟨_, rest, h.next howned (update_kept hn) ?_ ?_ (Or.inl hcr3)⟩
    · intro pd hpd
      rw [hdirs] at hpd
      exact Or.inl hpd
    · intro a ha
      rw [hkstacks, List.mem_cons] at ha
      rcases ha with rfl | hold
      · exact Or.inr ⟨n, rfl, Function.update_self n _ _⟩
      · exact Or.inl hold
  | set_cr3 pgdir =>
    obtain ⟨hpgdir, hok, hdirs, hkstacks⟩ := hstep
    have hvm : { x.vm with cr3 := pgdir } = x'.vm := congrArg Prod.snd (Except.ok.inj hok)
    have howned : x'.vm.Owned L role free := by
      rw [← hvm]
      exact h.owned.set_cr3 pgdir
    refine ⟨role, free, h.next howned (fun _ _ => rfl) ?_ ?_ (Or.inr ?_)⟩
    · intro pd hpd
      rw [hdirs] at hpd
      exact Or.inl hpd
    · intro a ha
      rw [hkstacks] at ha
      exact Or.inl ha
    · rw [← hvm]
      exact hpgdir

/-- The pages play their parts after every run. -/
theorem paging_sound (h : (paging L).Reachable x) : ∃ role free, x.Sound L role free := by
  induction h with
  | init hinit =>
    obtain ⟨s, hzero, hok, hdirs, hkstacks⟩ := hinit
    have hspec := init_page_spec (L := L) (F := fun _ => True) hzero
    obtain ⟨howned, hcr3, -⟩ := hspec.of_ok hok
    refine ⟨_, _, howned, ?_, ?_, ⟨L.kpd, hcr3, howned.kpd⟩⟩
    · intro pd hpd
      rw [hdirs, List.mem_singleton] at hpd
      exact ⟨L.kpd, hpd, howned.kpd⟩
    · intro a ha
      rw [hkstacks] at ha
      exact absurd ha List.not_mem_nil
  | step _ hstep ih =>
    obtain ⟨role, free, hsound⟩ := ih
    exact Paging.Step.sound hsound hstep

/-! ### Isolation -/

/-- The free list is the list of free pages. -/
theorem Chain.linked {ns : List ℕ} {a b : ℕ} (h : Chain m a ns) (hpos : ∀ n ∈ ns, 0 < n)
    (hb : Linked m a b) : ∃ n ∈ ns, b = n * 4096 := by
  induction hb generalizing ns with
  | @head a ha =>
    cases ns with
    | nil => exact (ha h).elim
    | cons n ns => exact ⟨n, List.mem_cons_self, h.1⟩
  | @next a b ha _ ih =>
    cases ns with
    | nil => exact (ha h).elim
    | cons n ns =>
      have hword : m.word a = pteAt m n 0 := by
        rw [h.1, pteAt, Nat.mul_zero, Nat.add_zero]
      rw [hword] at ih
      obtain ⟨k, hk, hbk⟩ := ih h.2 fun k hk => hpos k (List.mem_cons_of_mem n hk)
      exact ⟨k, List.mem_cons_of_mem n hk, hbk⟩

/-- The part of the page that a user address is translated to. -/
theorem Vm.Owned.translate {n va f : ℕ} (h : s.Owned L role free) (hn : role n = .dir)
    (hva : User va) (hf : s.translate (n * 4096) va = some f) : role f = .frame n (va / 4096) := by
  obtain ⟨hlo, hhi⟩ := hva
  have hlo' : 134217728 ≤ va := hlo
  have hhi' : va < 4294967296 := hhi
  rw [Vm.translate, Nat.mul_div_cancel n (by decide)] at hf
  exact h.frame hn (by omega) (by omega) hf

/-- **Address spaces are isolated.** A frame belongs to one page of one address space; it is not a
directory, a page table, a kernel stack or free, and lies above the kernel; and what every
directory has below the user pages are the page tables of the kernel, without the user bit. -/
theorem isolated (h : (paging L).Reachable x) :
    (∀ pd ∈ x.dirs, ∀ pd' ∈ x.dirs, ∀ va va' f, User va → User va' →
      x.vm.translate pd va = some f → x.vm.translate pd' va' = some f →
        pd = pd' ∧ va / PGSIZE = va' / PGSIZE) ∧
    (∀ pd ∈ x.dirs, ∀ va f, User va → x.vm.translate pd va = some f →
      f * PGSIZE ∉ x.dirs ∧ (∀ pd' ∈ x.dirs, ¬ x.vm.Table pd' f) ∧ f * PGSIZE ∉ x.kstacks ∧
        ¬ Linked x.vm.mem x.vm.free_page_list (f * PGSIZE) ∧ KER_MEM ≤ f * PGSIZE) ∧
    ∀ pd ∈ x.dirs, ∀ i < 32,
      x.vm.mem.word (pd + 4 * i) = MAKE_PTE ((L.kpt + i) * PGSIZE) 3 := by
  obtain ⟨role, free, hsound⟩ := paging_sound h
  have howned := hsound.owned
  -- a page has one part only
  have hone {a n : ℕ} {r : Role} (ha : Plays role r a) (hn : a = n * 4096) : role n = r := by
    obtain ⟨k, hk, hrole⟩ := ha
    have hkn : k = n := Nat.eq_of_mul_eq_mul_right (by decide) (hk.symm.trans hn)
    rw [← hkn, hrole]
  refine ⟨?_, ?_, ?_⟩
  · intro pd hpd pd' hpd' va va' f hva hva' hf hf'
    obtain ⟨n, rfl, hn⟩ := hsound.dirs pd hpd
    obtain ⟨n', rfl, hn'⟩ := hsound.dirs pd' hpd'
    have hrole := howned.translate hn hva hf
    obtain ⟨hnn, hvv⟩ := Role.frame.inj ((howned.translate hn' hva' hf').symm.trans hrole)
    exact ⟨by rw [hnn], hvv.symm⟩
  · intro pd hpd va f hva hf
    obtain ⟨n, rfl, hn⟩ := hsound.dirs pd hpd
    have hrole := howned.translate hn hva hf
    refine ⟨?_, ?_, ?_, ?_, ?_⟩
    · intro hdir
      have hr := hone (hsound.dirs _ hdir) rfl
      rw [hrole] at hr
      cases hr
    · rintro pd' hpd' ⟨i, hi, hp, rfl⟩
      obtain ⟨n', rfl, hn'⟩ := hsound.dirs pd' hpd'
      rw [Nat.mul_div_cancel n' (by decide)] at hp hrole
      by_cases hlow : i < 32
      · -- the tables of the kernel are below the heap
        rw [howned.low n' hn' i hlow, frameOf_MAKE_PTE _ (by decide), howned.kernel hlow] at hrole
        · cases hrole
        · have hlt : L.kpt + 32 ≤ 512 := L.kpt_lt
          omega
      · rw [howned.high n' hn' i (by omega) hi hp] at hrole
        cases hrole
    · intro hstack
      have hr := hone (hsound.kstacks _ hstack) rfl
      rw [hrole] at hr
      cases hr
    · intro hfree
      have hpos (k : ℕ) (hk : k ∈ free) : 0 < k := by
        apply howned.pos
        rw [(howned.free k).mp hk]
        simp
      obtain ⟨k, hk, hfk⟩ := howned.chain.linked hpos hfree
      have heq : f = k := Nat.eq_of_mul_eq_mul_right (by decide) hfk
      have hr := (howned.free k).mp hk
      rw [← heq, hrole] at hr
      cases hr
    · have hheap := howned.heap f (by simp [hrole])
      rcases hheap with rfl | ⟨hle, -⟩
      · rw [howned.kpd] at hrole
        cases hrole
      · change 2097152 ≤ f * 4096
        omega
  · intro pd hpd i hi
    obtain ⟨n, rfl, hn⟩ := hsound.dirs pd hpd
    exact howned.low n hn i hi

/-- A place for the page tables of the kernel. -/
def Statics.low : Statics where
  kpd := 256
  kpt := 257
  kpd_pos := by decide
  kpt_pos := by decide
  kpd_lt := by decide
  kpt_lt := by decide
  apart := by decide

theorem init_page_low : ∃ s, init_page .low ⟨fun _ => 0, 0, 0⟩ = .ok ((), s) := by
  have hzero : ZeroPage (fun _ => 0) Statics.low.kpd := fun _ _ => rfl
  have hspec := init_page_spec (s := ⟨fun _ => 0, 0, 0⟩) (F := fun _ => False) hzero
  obtain ⟨⟨⟩, s, hok, -⟩ := hspec.returns
  exact ⟨s, hok⟩

/-! ### A run -/

/-- Memory after `init_page`. -/
theorem paging_start : ∃ x role free, (paging .low).Reachable x ∧ x.Sound .low role free ∧
    x.dirs = [Statics.low.kpd * PGSIZE] ∧ x.kstacks = [] ∧ free.length = 32256 := by
  obtain ⟨s, hok⟩ := init_page_low
  have hspec := init_page_spec (L := .low) (s := ⟨fun _ => 0, 0, 0⟩) (F := fun _ => True)
    fun _ _ => rfl
  obtain ⟨howned, hcr3, -⟩ := hspec.of_ok hok
  refine ⟨⟨s, _, _⟩, firstRole .low, heapPages, .init ⟨⟨fun _ => 0, 0, 0⟩, fun _ _ => rfl, hok, rfl, rfl⟩,
    ⟨howned, ?_, ?_, ⟨_, hcr3, howned.kpd⟩⟩, rfl, rfl, List.length_range'⟩
  · intro pd hpd
    exact ⟨_, List.mem_singleton.mp hpd, howned.kpd⟩
  · intro a ha
    exact absurd ha List.not_mem_nil

theorem Paging.Sound.dir_page (h : x.Sound L role free) (hpd : n * PGSIZE ∈ x.dirs) :
    role n = .dir := by
  obtain ⟨k, hk, hrole⟩ := h.dirs _ hpd
  have hkn : n = k := Nat.eq_of_mul_eq_mul_right (by decide) hk
  rw [hkn, hrole]

/-- A directory is made of a free page, and has no user pages. -/
theorem alloc_step (h : x.Sound L role free) (hlen : 1 ≤ free.length) :
    ∃ x' n role' free', (paging L).step x .vm_alloc x' ∧ x'.Sound L role' free' ∧
      x'.dirs = n * PGSIZE :: x.dirs ∧ x'.kstacks = x.kstacks ∧ n * PGSIZE ∉ x.dirs ∧
      free.length = free'.length + 1 ∧ x'.vm.cr3 = x.vm.cr3 ∧
      (∀ v, 32768 ≤ v → v < 2 ^ 20 → x'.vm.walk n v = none) ∧
      ∀ d v, role d = .dir → v < 2 ^ 20 → x'.vm.walk d v = x.vm.walk d v := by
  have hpages (e : Abort) : ¬ (e = .noPage ∧ free = []) := by
    rintro ⟨-, rfl⟩
    exact absurd hlen (by decide)
  obtain ⟨pd, s', hok, n, rest, rfl, rfl, hn, howned, hcr3, -, hfresh, hwalk⟩ :=
    (vm_alloc_spec h.owned).returns_of hpages
  have hstep : (paging L).step x .vm_alloc ⟨s', n * PGSIZE :: x.dirs, x.kstacks⟩ := ⟨_, hok, rfl, rfl⟩
  refine ⟨_, n, Function.update role n .dir, rest, hstep, ?_, rfl, rfl, ?_, rfl, hcr3, hfresh, hwalk⟩
  · refine h.next howned (update_kept hn) ?_ (fun _ ha => Or.inl ha) (Or.inl hcr3)
    intro pd hpd
    rcases List.mem_cons.mp hpd with rfl | hold
    · exact Or.inr ⟨n, rfl, Function.update_self n _ _⟩
    · exact Or.inl hold
  · intro hold
    rw [h.dir_page hold] at hn
    cases hn

/-- A kernel stack is a free page. -/
theorem kstack_step (h : x.Sound L role free) (hlen : 1 ≤ free.length) :
    ∃ x' a role' free', (paging L).step x .kstack x' ∧ x'.Sound L role' free' ∧ x'.dirs = x.dirs ∧
      x'.kstacks = a :: x.kstacks ∧ free.length = free'.length + 1 ∧ x'.vm.cr3 = x.vm.cr3 ∧
      ∀ d v, x'.vm.walk d v = x.vm.walk d v := by
  have hpages (e : Abort) : ¬ (e = .noPage ∧ free = []) := by
    rintro ⟨-, rfl⟩
    exact absurd hlen (by decide)
  obtain ⟨a, s', hok, n, rest, rfl, rfl, hn, hmem, hcr3, howned⟩ :=
    (kalloc_spec h.owned).returns_of hpages
  have hstep : (paging L).step x .kstack ⟨s', x.dirs, n * 4096 :: x.kstacks⟩ := ⟨_, hok, rfl, rfl⟩
  refine ⟨_, _, Function.update role n .held, rest, hstep, ?_, rfl, rfl, rfl, hcr3, ?_⟩
  · refine h.next howned (update_kept hn) (fun _ hpd => Or.inl hpd) ?_ (Or.inl hcr3)
    intro b hb
    rcases List.mem_cons.mp hb with rfl | hold
    · exact Or.inr ⟨n, rfl, Function.update_self n _ _⟩
    · exact Or.inl hold
  · intro d v
    rw [Vm.walk, Vm.walk, hmem]

theorem first_good : ¬ BadRange 134512640 4096 := by
  rintro (hlow | hend)
  · exact absurd hlow (by decide)
  · exact absurd hend (by decide)

/-- With two pages left, the first page of a program can be mapped. -/
theorem map_first {n prot : ℕ} (h : x.Sound L role free) (hpd : n * PGSIZE ∈ x.dirs)
    (hlen : 2 ≤ free.length) (hprot : prot = 3 ∨ prot = 7) :
    ∃ s', vm_map (n * PGSIZE) 134512640 4096 prot x.vm = .ok ((), s') ∧
      ∃ role' free', Paging.Sound { x with vm := s' } L role' free' ∧
        free.length ≤ free'.length + 2 ∧ s'.cr3 = x.vm.cr3 ∧ (∃ f, s'.walk n 32840 = some f) ∧
        ∀ v, v < 2 ^ 20 → v ≠ 32840 → s'.walk n v = x.vm.walk n v := by
  have hn := h.dir_page hpd
  have hspec : wp (vm_map (n * 4096) 134512640 4096 prot) _ _ x.vm :=
    vm_map_spec h.owned hn
  have hcount : 2 * (PAGE_UP ((134512640 + 4096) % ADDR_END) / 4096 - 134512640 / 4096) = 2 := by
    decide
  rw [hcount] at hspec
  have hno (e : Abort) : ¬ (e = .badMap ∧ (prot % 2 = 0 ∨ 7 < prot ∨ BadRange 134512640 4096) ∨
      e = .noPage ∧ free.length < 2) := by
    rintro (⟨-, heven | hbig | hbad⟩ | ⟨-, hlt⟩)
    · omega
    · omega
    · exact first_good hbad
    · omega
  obtain ⟨⟨⟩, s', hok, -, role', free', howned, hgrows, hfree⟩ := hspec.returns_of hno
  have hend : PAGE_UP ((134512640 + 4096) % ADDR_END) / 4096 = 32841 := by decide
  refine ⟨s', hok, role', free', ?_, hfree, hgrows.cr3, ?_, ?_⟩
  · exact h.next howned hgrows.kept (fun _ hpd => Or.inl hpd) (fun _ ha => Or.inl ha)
      (Or.inl hgrows.cr3)
  · cases hw : x.vm.walk n 32840 with
    | some f => exact ⟨f, hgrows.old 32840 f (by decide) hw⟩
    | none =>
      obtain ⟨f, hf, -⟩ := hgrows.new 32840 (by decide) ⟨by decide, by rw [hend]; decide⟩ hw
      exact ⟨f, hf⟩
  · intro v hv hne
    refine hgrows.other n v hn hv (Or.inr ?_)
    rintro ⟨hlo, hhi⟩
    rw [hend] at hhi
    omega

/-- No more pages are copied than may be there. -/
theorem mapped_le (pages : Finset ℕ) {u k : ℕ}
    (h : ∀ v, u ≤ v → v < u + k → v ∉ pages → s.walk p v = none) : s.mapped p u k ≤ pages.card := by
  have hnodup := List.nodup_range.filter (l := List.range k) fun j => (s.walk p (u + j)).isSome
  let shift : ℕ ↪ ℕ := ⟨(u + ·), fun _ _ heq => Nat.add_left_cancel heq⟩
  rw [Vm.mapped, ← List.toFinset_card_of_nodup hnodup, ← Finset.card_map shift]
  apply Finset.card_le_card
  intro v hv
  simp only [Finset.mem_map, List.mem_toFinset, List.mem_filter, List.mem_range] at hv
  obtain ⟨j, ⟨hj, hsome⟩, rfl⟩ := hv
  have hlo : u ≤ shift j := Nat.le_add_right u j
  have hhi : shift j < u + k := Nat.add_lt_add_left hj u
  by_contra hnot
  have hnone : s.walk p (u + j) = none := h (shift j) hlo hhi hnot
  rw [hnone] at hsome
  cases hsome

/-- A directory has a page and is copied to another one. -/
theorem two_spaces : ∃ x pd pd' a f f', (paging .low).Reachable x ∧
    x.dirs = [pd', pd, Statics.low.kpd * PGSIZE] ∧ x.kstacks = [a] ∧ pd ≠ pd' ∧
    x.vm.translate pd 134512640 = some f ∧ x.vm.translate pd' 134512640 = some f' := by
  obtain ⟨x₀, role₀, free₀, hreach₀, h₀, hdirs₀, hkstacks₀, hlen₀⟩ := paging_start
  obtain ⟨x₁, n, role₁, free₁, hstep₁, h₁, hdirs₁, hkstacks₁, -, hlen₁, -, hfresh₁, -⟩ :=
    alloc_step h₀ (by omega)
  have hpd₁ : n * PGSIZE ∈ x₁.dirs := by
    rw [hdirs₁]
    exact List.mem_cons_self
  -- the page
  obtain ⟨s₂, hok₂, role₂, free₂, h₂, hlen₂, -, ⟨f, hf₂⟩, hwalk₂⟩ :=
    map_first h₁ hpd₁ (by omega) (Or.inr rfl)
  have hstep₂ : (paging .low).step x₁ (.vm_map (n * PGSIZE) 134512640 4096 7) { x₁ with vm := s₂ } :=
    ⟨hpd₁, by decide, by decide, hok₂, rfl, rfl⟩
  obtain ⟨x₃, a, role₃, free₃, hstep₃, h₃, hdirs₃, hkstacks₃, hlen₃, -, hwalk₃⟩ :=
    kstack_step h₂ (by omega)
  have hpd₃ : n * PGSIZE ∈ x₃.dirs := by
    rw [hdirs₃]
    exact hpd₁
  -- the process runs and forks
  have hstep₄ : (paging .low).step x₃ (.set_cr3 (n * PGSIZE))
      { x₃ with vm := { x₃.vm with cr3 := n * PGSIZE } } := ⟨hpd₃, rfl, rfl, rfl⟩
  have h₄ : Paging.Sound { x₃ with vm := { x₃.vm with cr3 := n * PGSIZE } } .low role₃ free₃ :=
    ⟨h₃.owned.set_cr3 _, h₃.dirs, h₃.kstacks, h₃.dirs _ hpd₃⟩
  obtain ⟨x₅, n', role₅, free₅, hstep₅, h₅, hdirs₅, hkstacks₅, hnew, hlen₅, hcr3₅, -, hwalk₅⟩ :=
    alloc_step h₄ (by omega)
  have hn₅ : role₅ n = .dir := by
    apply h₅.dir_page
    rw [hdirs₅]
    exact List.mem_cons_of_mem _ hpd₃
  have hn'₅ : role₅ n' = .dir := by
    apply h₅.dir_page
    rw [hdirs₅]
    exact List.mem_cons_self
  have hne : n' ≠ n := by
    rintro rfl
    exact hnew hpd₃
  have hwalk (v : ℕ) (hv : v < 2 ^ 20) : x₅.vm.walk n v = s₂.walk n v := by
    rw [hwalk₅ n v (h₃.dir_page hpd₃) hv]
    exact hwalk₃ n v
  have hfew : x₅.vm.mapped n 32768 753664 ≤ 1 := by
    apply mapped_le {32840}
    intro v hlo hhi hv
    rw [Finset.mem_singleton] at hv
    rw [hwalk v (by omega), hwalk₂ v (by omega) hv, hfresh₁ v hlo (by omega)]
  have hroom (e : Abort) : ¬ (e = .noPage ∧ free₅.length < 2 * x₅.vm.mapped n 32768 753664) := by
    rintro ⟨-, hfull⟩
    omega
  obtain ⟨⟨⟩, s₆, hok₆, role₆, free₆, -, hcopies, -⟩ :=
    (vm_copycurr_spec h₅.owned hn₅ hn'₅ hcr3₅).returns_of hroom
  have hpd₅ : n' * PGSIZE ∈ x₅.dirs := by
    rw [hdirs₅]
    exact List.mem_cons_self
  have hstep₆ : (paging .low).step x₅ (.vm_copycurr (n' * PGSIZE)) { x₅ with vm := s₆ } :=
    ⟨hpd₅, hok₆, rfl, rfl⟩
  have hf₅ : x₅.vm.walk n 32840 = some f := by
    rw [hwalk 32840 (by decide), hf₂]
  obtain ⟨f', hf', -⟩ := hcopies.copied hne 32840 f (by decide) ⟨by decide, by decide⟩ hf₅
  have hf : s₆.walk n 32840 = some f := by
    rw [hcopies.other n 32840 hn₅ (by decide) (Or.inl hne.symm), hf₅]
  refine ⟨{ x₅ with vm := s₆ }, n * PGSIZE, n' * PGSIZE, a, f, f',
    (((((hreach₀.step hstep₁).step hstep₂).step hstep₃).step hstep₄).step hstep₅).step hstep₆, ?_, ?_, ?_,
    ?_, ?_⟩
  · change x₅.dirs = _
    rw [hdirs₅]
    change _ :: x₃.dirs = _
    rw [hdirs₃]
    change _ :: x₁.dirs = _
    rw [hdirs₁, hdirs₀]
  · change x₅.kstacks = _
    rw [hkstacks₅]
    change x₃.kstacks = _
    rw [hkstacks₃]
    change _ :: x₁.kstacks = _
    rw [hkstacks₁, hkstacks₀]
  · intro heq
    exact hne (Nat.eq_of_mul_eq_mul_right (by decide) heq).symm
  · exact (congrArg (s₆.walk · 32840) (Nat.mul_div_cancel n (by decide))).trans hf
  · exact (congrArg (s₆.walk · 32840) (Nat.mul_div_cancel n' (by decide))).trans hf'

/-- A page and its copy are apart, and neither is anything of the kernel. -/
theorem isolated_low : ∃ x pd pd' a f f', (paging .low).Reachable x ∧
    x.dirs = [pd', pd, Statics.low.kpd * PGSIZE] ∧ x.kstacks = [a] ∧
    x.vm.translate pd 134512640 = some f ∧ x.vm.translate pd' 134512640 = some f' ∧ f ≠ f' ∧
    (∀ k ∈ [f, f'], k * PGSIZE ∉ x.dirs ∧ (∀ d ∈ x.dirs, ¬ x.vm.Table d k) ∧ k * PGSIZE ≠ a ∧
      ¬ Linked x.vm.mem x.vm.free_page_list (k * PGSIZE) ∧ KER_MEM ≤ k * PGSIZE) ∧
    ∀ d ∈ x.dirs, ∀ i < 32, x.vm.mem.word (d + 4 * i) = MAKE_PTE ((Statics.low.kpt + i) * PGSIZE) 3 := by
  obtain ⟨x, pd, pd', a, f, f', hreach, hdirs, hkstacks, hne, hf, hf'⟩ := two_spaces
  obtain ⟨hown, hapart, hlow⟩ := isolated hreach
  have hpd' : pd' ∈ x.dirs := by
    rw [hdirs]
    exact List.mem_cons_self
  have hpd : pd ∈ x.dirs := by
    rw [hdirs]
    exact List.mem_cons_of_mem pd' List.mem_cons_self
  have huser : User 134512640 := ⟨by decide, by decide⟩
  refine ⟨x, pd, pd', a, f, f', hreach, hdirs, hkstacks, hf, hf', ?_, ?_, hlow⟩
  · rintro rfl
    exact hne (hown pd hpd pd' hpd' _ _ f huser huser hf hf').1
  · intro k hk
    have hd : ∃ d ∈ x.dirs, x.vm.translate d 134512640 = some k := by
      simp only [List.mem_cons, List.not_mem_nil, or_false] at hk
      rcases hk with rfl | rfl
      · exact ⟨pd, hpd, hf⟩
      · exact ⟨pd', hpd', hf'⟩
    obtain ⟨d, hd, hk⟩ := hd
    obtain ⟨hdir, htable, hstack, hfree, hker⟩ := hapart d hd _ k huser hk
    rw [hkstacks, List.mem_singleton] at hstack
    exact ⟨hdir, htable, hstack, hfree, hker⟩

end Oslab
