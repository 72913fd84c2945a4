/-
# What the loader does to the address spaces

As long as no segment is cleared from an address inside the kernel and the
arguments fit in the stack page, the loader writes to the frames of the new
address space only, and maps its segments and its stack there.
-/
import Oslab.Loader

namespace Oslab

open Lib Lib.Prog

variable {L : Statics} {s s' s'' : Vm} {role role' role'' : ℕ → Role} {free free' : List ℕ}
  {n p v f r : ℕ} {bs : List UInt8}

/-! ### Writing through the page tables -/

/-- The kernel has every page of physical memory but the first at its own address. -/
theorem Vm.Owned.walk_low (h : s.Owned L role free) (hn : role n = .dir) (hv : v < 32768) :
    s.walk n v = if v = 0 then none else some v := by
  have hi : v / 1024 < 32 := by omega
  have hj : v % 1024 < 1024 := by omega
  have hkpt : L.kpt + 32 ≤ 512 := L.kpt_lt
  have hpde := h.low n hn (v / 1024) hi
  have hframe : frameOf (pteAt s.mem n (v / 1024)) = L.kpt + v / 1024 := by
    rw [hpde, frameOf_MAKE_PTE _ (by decide)]
    omega
  have hpresent : present (pteAt s.mem n (v / 1024)) := by
    rw [hpde]
    apply present_MAKE_PTE _ (by decide)
    omega
  rw [Vm.walk, if_pos hpresent, hframe, h.kpt _ hi _ hj, Nat.div_add_mod' v 1024]
  by_cases hzero : v = 0
  · have hij : v / 1024 = 0 ∧ v % 1024 = 0 := by omega
    rw [if_pos hij, if_neg not_present_zero, if_pos hzero]
  · have hij : ¬ (v / 1024 = 0 ∧ v % 1024 = 0) := by omega
    rw [if_neg hij, if_pos (present_MAKE_PTE (by omega) (by decide)), if_neg hzero,
      frameOf_MAKE_PTE (by omega) (by decide)]

/-- Only frames of directory `n` may have changed. -/
structure Writes (s : Vm) (role : ℕ → Role) (n : ℕ) (s' : Vm) : Prop where
  list : s'.free_page_list = s.free_page_list
  cr3 : s'.cr3 = s.cr3
  same : ∀ k, (∃ v, role k = .frame n v) ∨ SamePage s.mem s'.mem k

namespace Writes

theorem refl (s : Vm) (role : ℕ → Role) (n : ℕ) : Writes s role n s :=
  ⟨rfl, rfl, fun k => Or.inr (.refl _ k)⟩

theorem trans (h : Writes s role n s') (h' : Writes s' role n s'') : Writes s role n s'' := by
  refine ⟨h'.list.trans h.list, h'.cr3.trans h.cr3, ?_⟩
  intro k
  rcases h.same k with hframe | hsame
  · exact Or.inl hframe
  · rcases h'.same k with hframe | hsame'
    · exact Or.inl hframe
    · exact Or.inr (hsame.trans hsame')

theorem page (h : Writes s role n s') {k : ℕ} (hk : ∀ v, role k ≠ .frame n v) :
    SamePage s.mem s'.mem k := by
  rcases h.same k with ⟨v, hv⟩ | hsame
  · exact (hk v hv).elim
  · exact hsame

theorem owned (h : Writes s role n s') (ho : s.Owned L role free) : s'.Owned L role free := by
  apply ho.write rfl h.list
  intro k
  rcases h.same k with ⟨v, hv⟩ | hsame
  · exact Or.inr (Or.inl ⟨n, v, hv⟩)
  · exact Or.inr (Or.inr hsame)

/-- Addresses are translated as before. -/
theorem walk (h : Writes s role n s') (ho : s.Owned L role free) {d : ℕ} (hd : role d = .dir)
    (hv : v < 2 ^ 20) : s'.walk d v = s.walk d v := by
  refine ho.walk_same hd hv ?_ ?_
  · exact (h.page (by simp [hd])).entry (by omega)
  · intro t ht
    apply (h.page _).entry (by omega)
    intro u
    rcases ht with ht | ht <;> simp [ht]

end Writes

/-- A byte is written to the frame of its page. -/
theorem putByte_spec {va : ℕ} (b : UInt8) (hcr3 : s.cr3 = p * 4096) :
    wp (putByte va b) (fun _ s' => ∃ f, s.walk p (va / 4096) = some f ∧
        s' = { s with mem := s.mem.splice (f * 4096 + va % 4096) [b] })
      (fun e => e = .pgfault ∧ s.walk p (va / 4096) = none) s := by
  have hdir : s.cr3 / PGSIZE = p := by
    rw [hcr3]
    exact Nat.mul_div_cancel p (by decide)
  rw [putByte, wp_bind, wp_read]
  simp only [id]
  rw [hdir]
  cases hw : s.walk p (va / PGSIZE) with
  | none => exact ⟨rfl, rfl⟩
  | some frame =>
    rw [wp_update]
    exact ⟨frame, rfl, rfl⟩

/-- A byte at a user address. -/
theorem Vm.Owned.write_byte (h : s.Owned L role free) (hn : role n = .dir) {va : ℕ} (b : UInt8)
    (hlo : 134217728 ≤ va) (hhi : va < 4294967296) (hf : s.walk n (va / 4096) = some f) :
    Writes s role n { s with mem := s.mem.splice (f * 4096 + va % 4096) [b] } := by
  have hrole := h.frame hn (by omega) (by omega) hf
  refine ⟨rfl, rfl, ?_⟩
  intro k
  by_cases hk : k = f
  · subst hk
    exact Or.inl ⟨_, hrole⟩
  · right
    refine samePage_splice (Nat.le_add_right _ _) ?_ hk
    rw [List.length_singleton]
    omega

/-- Bytes that do not start inside the kernel are written to user pages, or there is a page fault:
what comes after the last address is page 0. -/
theorem putBytes_user {va : ℕ} (h : s.Owned L role free) (hn : role n = .dir)
    (hcr3 : s.cr3 = n * 4096) (hva : va < 4294967296)
    (hout : 134217728 ≤ va ∨ va < 4096 ∨ bs = []) :
    wp (putBytes va bs) (fun _ s' => Writes s role n s') (fun e => e = .pgfault ∧ bs ≠ []) s := by
  induction bs generalizing va s with
  | nil => exact .refl s role n
  | cons b bs ih =>
    have hnonempty : b :: bs ≠ [] := List.cons_ne_nil b bs
    rw [putBytes, wp_bind]
    refine (putByte_spec b hcr3).mono ?_ ?_
    · rintro - s₁ ⟨f, hf, rfl⟩
      -- page 0 is not mapped, so this is a user address
      have hlo : 134217728 ≤ va := by
        rcases hout with hlo | hzero | hnil
        · exact hlo
        · have hpage : va / 4096 = 0 := by omega
          rw [hpage, h.walk_low hn (by decide), if_pos rfl] at hf
          cases hf
        · exact (hnonempty hnil).elim
      have hw := h.write_byte hn b hlo hva hf
      have hnext : (va + 1) % 4294967296 < 4294967296 := Nat.mod_lt _ (by decide)
      change wp (putBytes ((va + 1) % 4294967296) bs) _ _ _
      refine (ih (hw.owned h) hcr3 hnext (by omega)).mono ?_ ?_
      · intro _ s' hs'
        exact hw.trans hs'
      · rintro e ⟨he, -⟩
        exact ⟨he, hnonempty⟩
    · rintro e ⟨he, -⟩
      exact ⟨he, hnonempty⟩

/-- No address is translated by what is in the pages from `lo` to `hi`. -/
def Plain (role : ℕ → Role) (lo hi : ℕ) : Prop :=
  ∀ k, lo ≤ k → k < hi → role k = .held ∨ ∃ d v, role k = .frame d v

theorem Plain.page (hf : role f = .frame n v) : Plain role f (f + 1) := by
  intro k hlo hhi
  obtain rfl : k = f := by omega
  exact Or.inr ⟨n, v, hf⟩

theorem Plain.used {lo hi k : ℕ} (hplain : Plain role lo hi) (hlo : lo ≤ k) (hhi : k < hi) :
    role k ≠ .kernel := by
  rcases hplain k hlo hhi with hheld | ⟨d, v, hframe⟩
  · simp [hheld]
  · simp [hframe]

/-- Memory with the bytes `bs` written from `a` on. -/
def Vm.put (s : Vm) (a : ℕ) (bs : List UInt8) : Vm := { s with mem := s.mem.splice a bs }

@[simp] theorem put_mem (s : Vm) (a : ℕ) (bs : List UInt8) : (s.put a bs).mem = s.mem.splice a bs := rfl

@[simp] theorem put_list (s : Vm) (a : ℕ) (bs : List UInt8) :
    (s.put a bs).free_page_list = s.free_page_list := rfl

@[simp] theorem put_cr3 (s : Vm) (a : ℕ) (bs : List UInt8) : (s.put a bs).cr3 = s.cr3 := rfl

@[simp] theorem put_nil (s : Vm) (a : ℕ) : s.put a [] = s := by
  rw [Vm.put, Mem.splice_nil]

theorem put_append (s : Vm) (a : ℕ) (xs ys : List UInt8) :
    (s.put a xs).put (a + xs.length) ys = s.put a (xs ++ ys) := by
  rw [Vm.put, put_mem, ← Mem.splice_append]
  rfl

theorem put_below (s : Vm) (a : ℕ) (xs ys : List UInt8) :
    (s.put (a + xs.length) ys).put a xs = s.put a (xs ++ ys) := by
  rw [Vm.put, put_mem, Mem.splice_below]
  rfl

/-- Bytes change between `lo` and `hi`. -/
theorem Plain.owned {lo hi a : ℕ} (hplain : Plain role lo hi) (h : s.Owned L role free)
    (hlo : lo * 4096 ≤ a) (hhi : a + bs.length ≤ hi * 4096) : (s.put a bs).Owned L role free := by
  have hmem : (s.put a bs).mem = s.mem.splice a bs := rfl
  refine h.write hmem rfl ?_
  intro k
  by_cases hk : lo ≤ k ∧ k < hi
  · rcases hplain k hk.1 hk.2 with hheld | hframe
    · exact Or.inl hheld
    · exact Or.inr (Or.inl hframe)
  · right
    right
    intro r hr
    exact Mem.splice_out (by omega)

/-- Physical memory is written at the address the kernel has it at. -/
theorem putBytes_plain {lo hi a : ℕ} (h : s.Owned L role free) (hp : role p = .dir)
    (hcr3 : s.cr3 = p * 4096) (hplain : Plain role lo hi) (hlo : lo * 4096 ≤ a)
    (hhi : a + bs.length ≤ hi * 4096) {F : Abort → Prop} :
    wp (putBytes a bs) (fun _ s' => s' = s.put a bs) F s := by
  induction bs generalizing a s with
  | nil =>
    rw [putBytes, wp_pure, put_nil]
  | cons b bs ih =>
    rw [List.length_cons] at hhi
    have hused := hplain.used (k := a / 4096) (by omega) (by omega)
    have hpos := h.pos hused
    have hlt := h.lt hused
    have hwalk : s.walk p (a / 4096) = some (a / 4096) := by
      rw [h.walk_low hp hlt, if_neg (by omega)]
    rw [putBytes, wp_bind]
    refine (putByte_spec b hcr3).mono ?_ ?_
    · intro _ s₁ hbyte
      obtain ⟨f', hf', rfl⟩ := hbyte
      rw [hwalk] at hf'
      cases hf'
      rw [Nat.div_add_mod' a 4096]
      have hlen : a + [b].length ≤ hi * 4096 := by
        rw [List.length_singleton]
        omega
      have hnext : (a + 1) % ADDR_END = a + 1 := by
        change (a + 1) % 4294967296 = _
        omega
      rw [hnext]
      refine (ih (hplain.owned h hlo hlen) hcr3 (by omega) (by omega)).imp ?_
      intro _ s' hs'
      rw [hs']
      exact put_append s a [b] bs
    · intro e hfault
      obtain ⟨-, hnone⟩ := hfault
      rw [hwalk] at hnone
      cases hnone

/-- Page 0 is not mapped. -/
theorem putBytes_null {va : ℕ} (h : s.Owned L role free) (hp : role p = .dir)
    (hcr3 : s.cr3 = p * 4096) (hva : va < 4096) (hbs : bs ≠ []) :
    wp (putBytes va bs) (fun _ _ => False) (fun _ => True) s := by
  cases bs with
  | nil => exact (hbs rfl).elim
  | cons b bs =>
    have hpage : va / 4096 = 0 := by omega
    have hnone : s.walk p (va / 4096) = none := by
      rw [hpage, h.walk_low hp (by decide), if_pos rfl]
    rw [putBytes, wp_bind]
    refine (putByte_spec b hcr3).mono ?_ ?_
    · rintro - s₁ ⟨f, hf, -⟩
      rw [hnone] at hf
      cases hf
    · intro e _
      trivial

/-! ### The arguments -/

/-- What the strings take. -/
def argSpace (argv : List CString) : ℕ := (argv.map fun arg => arg.1.length + 1).sum

/-- What is written into the stack page: the strings, padding, their addresses with the end of the
array, and the two arguments of the program. -/
def argSize (argv : List CString) : ℕ := (argSpace argv + 3) / 4 * 4 + 4 * (argv.length + 1) + 8

theorem argSpace_cons (arg : CString) (args : List CString) :
    argSpace (arg :: args) = arg.1.length + 1 + argSpace args := by
  rw [argSpace, List.map_cons, List.sum_cons, argSpace]

/-- The strings as they lie in memory, the first one highest. -/
def argBytes : List CString → List UInt8
  | [] => []
  | arg :: args => argBytes args ++ (arg.1 ++ [0])

/-- The addresses of the strings that are pushed from `stack_top` down. -/
def argPtrs : List CString → ℕ → List ℕ
  | [], _ => []
  | arg :: args, stack_top =>
    Vm.stackAddr (stack_top - (arg.1.length + 1)) :: argPtrs args (stack_top - (arg.1.length + 1))

theorem length_argBytes (args : List CString) : (argBytes args).length = argSpace args := by
  induction args with
  | nil => rfl
  | cons arg args ih =>
    rw [argBytes, List.length_append, ih, argSpace_cons, List.length_append, List.length_singleton,
      Nat.add_comm]

theorem length_argPtrs (args : List CString) (a : ℕ) : (argPtrs args a).length = args.length := by
  induction args generalizing a with
  | nil => rfl
  | cons arg args ih =>
    rw [argPtrs, List.length_cons, ih, List.length_cons]

theorem down_eq {a k : ℕ} (hk : k ≤ a) (ha : a < 4294967296) : Vm.down a k = a - k := by
  change (a + 4294967296 - k) % 4294967296 = _
  omega

variable {lo hi a b : ℕ}

theorem pushArgs_spec (h : s.Owned L role free) (hp : role p = .dir) (hcr3 : s.cr3 = p * 4096)
    (hplain : Plain role lo hi) (hend : hi ≤ 32768) (hb : lo * 4096 ≤ b) (args : List CString)
    (vas : List ℕ) (hspace : b + argSpace args ≤ a) (ha : a ≤ hi * 4096) :
    wp (Vm.pushArgs args a vas) (fun top s' => s' = s.put (a - argSpace args) (argBytes args) ∧
        top = (a - argSpace args, (argPtrs args a).reverse ++ vas))
      (fun e => e = .tooManyArgs ∧ 31 < vas.length + args.length) s := by
  induction args generalizing a vas s with
  | nil =>
    rw [Vm.pushArgs, wp_pure, argBytes, put_nil]
    exact ⟨rfl, rfl⟩
  | cons arg args ih =>
    rw [argSpace_cons] at hspace
    rw [Vm.pushArgs, wp_bind, wp_assert]
    refine ⟨fun _ => ?_, fun hmany => ⟨rfl, ?_⟩⟩
    · have hlow : lo * 4096 ≤ a - (arg.1.length + 1) := by omega
      have hfirst : b + argSpace args ≤ a - (arg.1.length + 1) := by omega
      have hdown : Vm.down a (arg.1.length + 1) = a - (arg.1.length + 1) :=
        down_eq (by omega) (by omega)
      have hsub : a - (arg.1.length + 1) - argSpace args = a - argSpace (arg :: args) := by
        rw [argSpace_cons, Nat.sub_sub]
      have hjoin := put_below s (a - (arg.1.length + 1) - argSpace args) (argBytes args) (arg.1 ++ [0])
      have hnext : a - (arg.1.length + 1) - argSpace args + (argBytes args).length =
          a - (arg.1.length + 1) := by
        rw [length_argBytes]
        omega
      rw [hnext] at hjoin
      have hroom : a - (arg.1.length + 1) + (arg.1 ++ [0]).length ≤ hi * 4096 := by
        rw [List.length_append, List.length_singleton]
        omega
      rw [hdown, wp_bind]
      refine (putBytes_plain h hp hcr3 hplain hlow hroom).imp ?_
      intro _ s₁ hs₁
      rw [hs₁]
      refine (ih (hplain.owned h hlow hroom) hcr3 _ hfirst (by omega)).mono ?_ ?_
      · intro top s' hs'
        obtain ⟨rfl, rfl⟩ := hs'
        refine ⟨?_, ?_⟩
        · rw [argBytes, ← hsub, hjoin]
        · rw [hsub, argPtrs, List.reverse_cons, List.append_assoc]
          rfl
      · intro e he
        obtain ⟨he, hmany⟩ := he
        rw [List.length_cons] at hmany ⊢
        exact ⟨he, by omega⟩
    · have hmany' : ¬ vas.length < 31 := hmany
      rw [List.length_cons]
      omega

/-- Words as they lie in memory. -/
def wordsOf (ws : List ℕ) : List UInt8 := Mem.wordsBytes (ws.map UInt32.ofNat)

theorem length_wordsOf (ws : List ℕ) : (wordsOf ws).length = 4 * ws.length := by
  rw [wordsOf, Mem.length_wordsBytes, List.length_map]

theorem wordsOf_concat (ws : List ℕ) (w : ℕ) :
    wordsOf (ws ++ [w]) = wordsOf ws ++ Mem.wordBytes (UInt32.ofNat w) := by
  rw [wordsOf, Mem.wordsBytes, List.map_append, List.flatMap_append]
  simp [wordsOf, Mem.wordsBytes]

theorem pushWords_spec (h : s.Owned L role free) (hp : role p = .dir) (hcr3 : s.cr3 = p * 4096)
    (hplain : Plain role lo hi) (hend : hi ≤ 32768) (hb : lo * 4096 ≤ b) (ws : List ℕ)
    (hspace : b + 4 * ws.length ≤ a) (ha : a ≤ hi * 4096) {F : Abort → Prop} :
    wp (Vm.pushWords ws a) (fun top s' => s' = s.put (a - 4 * ws.length) (wordsOf ws.reverse) ∧
      top = a - 4 * ws.length) F s := by
  induction ws generalizing a s with
  | nil =>
    rw [Vm.pushWords, wp_pure]
    exact ⟨(put_nil s _).symm, rfl⟩
  | cons w ws ih =>
    rw [List.length_cons] at hspace
    have hlow : lo * 4096 ≤ a - 4 := by omega
    have hdown : Vm.down a 4 = a - 4 := down_eq (by omega) (by omega)
    have hsub : a - 4 - 4 * ws.length = a - 4 * (w :: ws).length := by
      rw [List.length_cons]
      omega
    have hjoin := put_below s (a - 4 - 4 * ws.length) (wordsOf ws.reverse)
      (Mem.wordBytes (UInt32.ofNat w))
    have hnext : a - 4 - 4 * ws.length + (wordsOf ws.reverse).length = a - 4 := by
      rw [length_wordsOf, List.length_reverse]
      omega
    rw [hnext] at hjoin
    have hroom : a - 4 + (Mem.wordBytes (UInt32.ofNat w)).length ≤ hi * 4096 := by
      rw [Mem.length_wordBytes]
      omega
    rw [Vm.pushWords, hdown, wp_bind]
    refine (putBytes_plain h hp hcr3 hplain hlow hroom).imp ?_
    intro _ s₁ hs₁
    rw [hs₁]
    refine (ih (hplain.owned h hlow hroom) hcr3 (by omega) (by omega)).imp ?_
    intro top s' hs'
    obtain ⟨rfl, rfl⟩ := hs'
    refine ⟨?_, hsub⟩
    rw [List.reverse_cons, wordsOf_concat, ← hsub, hjoin]

/-- What is below the strings: padding, the array of their addresses, and the two arguments. -/
def arrayTop (argv : List CString) (a : ℕ) : ℕ :=
  a - argSpace argv - (a - argSpace argv) % 4 - 4 * (argv.length + 1)

/-- Memory with the block of a program that is pushed from `a` down. -/
def Vm.block (s : Vm) (argv : List CString) (a : ℕ) : Vm :=
  ((s.put (a - argSpace argv) (argBytes argv)).put (arrayTop argv a)
    (wordsOf (argPtrs argv a ++ [0]))).put (arrayTop argv a - 8)
      (wordsOf [argv.length, Vm.stackAddr (arrayTop argv a)])

/-- The block lies below `a`. -/
theorem arrayTop_eq (argv : List CString) (ha : a % 4 = 0) (hsize : argSize argv ≤ a) :
    arrayTop argv a = a - argSize argv + 8 := by
  rw [argSize] at hsize ⊢
  rw [arrayTop]
  omega

/-- Nothing else changes. -/
theorem block_out {argv : List CString} {k : ℕ} (ha4 : a % 4 = 0) (hsize : argSize argv ≤ a)
    (hk : k < a - argSize argv ∨ a ≤ k) : (s.block argv a).mem k = s.mem k := by
  have htop := arrayTop_eq argv ha4 hsize
  rw [argSize] at hsize hk htop
  rw [Vm.block, put_mem, put_mem, put_mem, Mem.splice_out, Mem.splice_out, Mem.splice_out]
  · rw [length_argBytes]
    omega
  · rw [length_wordsOf, List.length_append, length_argPtrs, List.length_singleton, htop]
    omega
  · rw [length_wordsOf, List.length_cons, List.length_singleton, htop]
    omega

/-- A block in a frame of the directory. -/
theorem block_writes {argv : List CString} (hf : role f = .frame n v) (hsize : argSize argv ≤ 4096) :
    Writes s role n (s.block argv (f * 4096 + 4096)) := by
  refine ⟨rfl, rfl, ?_⟩
  intro k
  by_cases hk : k = f
  · rw [hk]
    exact Or.inl ⟨v, hf⟩
  · right
    intro r hr
    exact block_out (by omega) (by omega) (by omega)

/-- **The block of a program** is pushed from `a` down. -/
theorem pushBlock_spec {argv : List CString} (h : s.Owned L role free) (hp : role p = .dir)
    (hcr3 : s.cr3 = p * 4096) (hplain : Plain role lo hi) (hend : hi ≤ 32768)
    (hb : lo * 4096 ≤ b) (ha4 : a % 4 = 0) (hsize : b + argSize argv ≤ a) (ha : a ≤ hi * 4096) :
    wp (Vm.pushBlock argv a) (fun esp s' => s' = s.block argv a ∧
        esp = Vm.stackAddr (Vm.down (a - argSize argv) 4))
      (fun e => e = .tooManyArgs ∧ 31 < argv.length) s := by
  have htop := arrayTop_eq argv ha4 (by omega)
  rw [argSize] at hsize htop
  rw [Vm.pushBlock, wp_bind]
  refine (pushArgs_spec h hp hcr3 hplain hend hb argv [] (by omega) ha).mono ?_ ?_
  · intro top s₁ hs₁
    obtain ⟨rfl, rfl⟩ := hs₁
    -- the array starts at a multiple of 4 below the strings
    have hoff : ADDR2OFF (a - argSpace argv) % 4 = (a - argSpace argv) % 4 := by
      change (a - argSpace argv) % 4096 % 4 = _
      omega
    have hdown : Vm.down (a - argSpace argv) ((a - argSpace argv) % 4) =
        a - argSpace argv - (a - argSpace argv) % 4 := down_eq (Nat.mod_le _ _) (by omega)
    have hlen : (0 :: (argPtrs argv a).reverse).length = argv.length + 1 := by
      rw [List.length_cons, List.length_reverse, length_argPtrs]
    have hrev : (0 :: (argPtrs argv a).reverse).reverse = argPtrs argv a ++ [0] := by
      rw [List.reverse_cons, List.reverse_reverse]
    simp only
    rw [List.append_nil, hoff, hdown, wp_bind]
    have hstrings : a - argSpace argv + (argBytes argv).length ≤ hi * 4096 := by
      rw [length_argBytes]
      omega
    have h₁ := hplain.owned h (by omega) hstrings
    refine (pushWords_spec h₁ hp hcr3 hplain hend hb (0 :: (argPtrs argv a).reverse)
      (by rw [hlen]; omega) (by omega)).imp ?_
    intro top s₂ hs₂
    obtain ⟨rfl, rfl⟩ := hs₂
    have hfold : a - argSpace argv - (a - argSpace argv) % 4 - 4 * (argv.length + 1) =
      arrayTop argv a := rfl
    rw [hlen, hrev, hfold]
    have harray : arrayTop argv a + (wordsOf (argPtrs argv a ++ [0])).length ≤ hi * 4096 := by
      rw [length_wordsOf, List.length_append, length_argPtrs, List.length_singleton, htop]
      omega
    have h₂ := hplain.owned h₁ (by omega) harray
    rw [wp_bind]
    refine (pushWords_spec h₂ hp hcr3 hplain hend hb _ ?_ ?_).imp ?_
    · rw [htop, List.length_cons, List.length_singleton]
      omega
    · rw [htop]
      omega
    · intro top s₃ hs₃
      obtain ⟨rfl, rfl⟩ := hs₃
      rw [wp_pure]
      refine ⟨rfl, ?_⟩
      rw [htop, List.length_cons, List.length_singleton, argSize]
      congr 2
  · intro e he
    obtain ⟨he, hmany⟩ := he
    rw [List.length_nil, Nat.zero_add] at hmany
    exact ⟨he, hmany⟩

/-- Without a stack page the first thing that is pushed goes to page 0. -/
theorem pushBlock_null {argv : List CString} (h : s.Owned L role free) (hp : role p = .dir)
    (hcr3 : s.cr3 = p * 4096) (hsize : argSize argv ≤ 4096) :
    wp (Vm.pushBlock argv 4096) (fun _ _ => False) (fun _ => True) s := by
  rw [argSize] at hsize
  rw [Vm.pushBlock, wp_bind]
  cases argv with
  | nil =>
    have htop : Vm.down (Vm.down 4096 (ADDR2OFF 4096 % 4)) 4 = 4092 := by decide
    rw [Vm.pushArgs, wp_pure]
    simp only
    rw [wp_bind, Vm.pushWords, htop, wp_bind]
    refine (putBytes_null h hp hcr3 (by decide) ?_).imp fun _ _ hfalse => hfalse.elim
    rw [← List.length_pos_iff, Mem.length_wordBytes]
    decide
  | cons arg args =>
    rw [argSpace_cons] at hsize
    have htop : Vm.down 4096 (arg.1.length + 1) = 4095 - arg.1.length := by
      change (4096 + 4294967296 - (arg.1.length + 1)) % 4294967296 = _
      omega
    rw [Vm.pushArgs, wp_bind, wp_assert]
    refine ⟨fun _ => ?_, fun _ => trivial⟩
    rw [htop, wp_bind]
    exact (putBytes_null h hp hcr3 (by omega) (by simp)).imp fun _ _ hfalse => hfalse.elim

/-- `vm_walk` that may make a page table. -/
theorem vm_walk_table (h : s.Owned L role free) (hp : role p = .dir) (hn : role n = .dir)
    {prot : ℕ} (hprot : prot ≤ 7) (hpos : prot ≠ 0) (hlo : 32768 ≤ v) (hv : v < 2 ^ 20) :
    wp (vm_walk (n * 4096) (v * 4096) prot) (fun page s' =>
        s' = s ∧ page = (s.walk n v).map (· * 4096) ∨
        s.walk n v = none ∧ page = none ∧ s'.cr3 = s.cr3 ∧
          ∃ role' free', s'.Owned L role' free' ∧ role' p = .dir)
      (fun _ => s.walk n v = none) s := by
  rw [vm_walk, wp_bind]
  by_cases hpde : present (pteAt s.mem n (v / 1024))
  · refine (vm_walkpte_present hprot hpde).imp ?_
    rintro entry s₁ ⟨hs₁, rfl⟩
    rw [hs₁]
    simp only
    rw [wp_bind, load, wp_read]
    change wp (if present (pteAt s.mem (frameOf (pteAt s.mem n (v / 1024))) (v % 1024)) then _ else _)
      _ _ _
    unfold Vm.walk
    rw [if_pos hpde]
    by_cases hpte : present (pteAt s.mem (frameOf (pteAt s.mem n (v / 1024))) (v % 1024))
    · rw [if_pos hpte, if_pos hpte, wp_pure]
      exact Or.inl ⟨rfl, rfl⟩
    · rw [if_neg hpte, if_neg hpte, wp_pure]
      exact Or.inl ⟨rfl, rfl⟩
  · have hnone : s.walk n v = none := by
      unfold Vm.walk
      rw [if_neg hpde]
    refine (vm_walkpte_new h hn hprot hpos hlo hv hpde).mono ?_ fun _ _ => hnone
    rintro entry s₁ ⟨t, rest, -, rfl, h₁, hgrows, -, -, hzero⟩
    have hj : v % 1024 < 1024 := by omega
    simp only
    rw [wp_bind, load, wp_read]
    change wp (if present (pteAt s₁.mem t (v % 1024)) then _ else _) _ _ _
    rw [if_neg (zero_absent hzero hj), wp_pure]
    refine Or.inr ⟨hnone, rfl, hgrows.cr3, _, rest, h₁, ?_⟩
    rw [hgrows.kept p (by simp [hp]), hp]

/-- The block of a program goes below the end of its stack page, in frame `f`. -/
theorem load_arg_block {argv : List CString} (h : s.Owned L role free) (hp : role p = .dir)
    (hn : role n = .dir) (hcr3 : s.cr3 = p * 4096) (hw : s.walk n 786431 = some f)
    (hplain : Plain role lo (f + 1)) (hb : lo * 4096 ≤ b)
    (hsize : b + argSize argv ≤ f * 4096 + 4096) :
    wp (Vm.load_arg (n * 4096) argv) (fun esp s' => s' = s.block argv (f * 4096 + 4096) ∧
        esp = Vm.stackAddr (Vm.down (f * 4096 + 4096 - argSize argv) 4))
      (fun e => e = .tooManyArgs ∧ 31 < argv.length) s := by
  have hpage : STACK_PAGE = 786431 * 4096 := by decide
  have hrole := h.frame hn (by decide) (by decide) hw
  have hlt := h.lt (n := f) (by simp [hrole])
  have ha : f * 4096 + 4096 ≤ (f + 1) * 4096 := (Nat.succ_mul f 4096).ge
  have ha4 : (f * 4096 + 4096) % 4 = 0 := by omega
  rw [Vm.load_arg, hpage, wp_bind]
  refine (vm_walk_table h hp hn (by decide) (by decide) (by decide) (by decide)).mono ?_ ?_
  · intro page s₁ hs₁
    rw [hw] at hs₁
    rcases hs₁ with ⟨rfl, rfl⟩ | ⟨hnone, -⟩
    · exact pushBlock_spec h hp hcr3 hplain hlt hb ha4 hsize ha
    · cases hnone
  · intro e hnone
    rw [hw] at hnone
    cases hnone

/-- **The arguments go to the stack page**, if they fit. -/
theorem load_arg_spec {argv : List CString} (h : s.Owned L role free) (hp : role p = .dir)
    (hn : role n = .dir) (hcr3 : s.cr3 = p * 4096) (hsize : argSize argv ≤ 4096) :
    wp (Vm.load_arg (n * 4096) argv) (fun _ s' => Writes s role n s')
      (fun e => s.walk n 786431 = none ∨ e = .tooManyArgs ∧ 31 < argv.length) s := by
  cases hw : s.walk n 786431 with
  | some f =>
    have hrole := h.frame hn (by decide) (by decide) hw
    refine (load_arg_block h hp hn hcr3 hw (.page hrole) le_rfl (by omega)).mono ?_ ?_
    · intro esp s' hs'
      rw [hs'.1]
      exact block_writes hrole hsize
    · intro e he
      exact Or.inr he
  | none =>
    have hpage : STACK_PAGE = 786431 * 4096 := by decide
    rw [Vm.load_arg, hpage, wp_bind]
    refine (vm_walk_table h hp hn (by decide) (by decide) (by decide) (by decide)).mono ?_
      fun _ _ => Or.inl rfl
    intro page s₁ hs₁
    rcases hs₁ with ⟨hs₁, rfl⟩ | ⟨-, rfl, hcr3₁, role₁, free₁, h₁, hp₁⟩
    · rw [hs₁, hw]
      exact (pushBlock_null h hp hcr3 hsize).mono (fun _ _ hfalse => hfalse.elim)
        fun _ _ => Or.inl rfl
    · exact (pushBlock_null h₁ hp₁ (hcr3₁.trans hcr3) hsize).mono (fun _ _ hfalse => hfalse.elim)
        fun _ _ => Or.inl rfl

/-! ### The segments -/

/-- An address space has been built up in directory `n`: the pages in `R` may be mapped now. -/
structure Builds (s : Vm) (role : ℕ → Role) (s' : Vm) (role' : ℕ → Role) (n : ℕ) (R : ℕ → Prop) :
    Prop where
  kept : ∀ k, role k ≠ .free → role' k = role k
  other : ∀ d v, role d = .dir → v < 2 ^ 20 → d ≠ n ∨ ¬ R v → s'.walk d v = s.walk d v
  old : ∀ v f, v < 2 ^ 20 → s.walk n v = some f → s'.walk n v = some f

namespace Builds

variable {R R' : ℕ → Prop}

theorem refl : Builds s role s role n R := ⟨fun _ _ => rfl, fun _ _ _ _ _ => rfl, fun _ _ _ h => h⟩

theorem dir (h : Builds s role s' role' n R) {d : ℕ} (hd : role d = .dir) : role' d = .dir := by
  rw [h.kept d (by simp [hd]), hd]

theorem trans (h : Builds s role s' role' n R) (h' : Builds s' role' s'' role'' n R) :
    Builds s role s'' role'' n R := by
  refine ⟨?_, ?_, ?_⟩
  · intro k hk
    have hk' := h.kept k hk
    rw [h'.kept k (by rwa [hk']), hk']
  · intro d v hd hv hnot
    rw [h'.other d v (h.dir hd) hv hnot, h.other d v hd hv hnot]
  · intro v f hv hf
    exact h'.old v f hv (h.old v f hv hf)

theorem mono (h : Builds s role s' role' n R) (hR : ∀ v, R v → R' v) :
    Builds s role s' role' n R' := by
  refine ⟨h.kept, ?_, h.old⟩
  intro d v hd hv hnot
  apply h.other d v hd hv
  rcases hnot with hne | hv'
  · exact Or.inl hne
  · exact Or.inr fun hvR => hv' (hR v hvR)

theorem of_grows (h : Grows s role s' role' n R) : Builds s role s' role' n R :=
  ⟨h.kept, h.other, h.old⟩

theorem of_writes (h : Writes s role n s') (ho : s.Owned L role free) (hn : role n = .dir) :
    Builds s role s' role n R := by
  refine ⟨fun _ _ => rfl, ?_, ?_⟩
  · intro d v hd hv _
    exact h.walk ho hd hv
  · intro v f hv hf
    rw [h.walk ho hn hv, hf]

/-- Another directory is made the current one. -/
theorem of_cr3 (a : ℕ) : Builds s role { s with cr3 := a } role n R :=
  ⟨fun _ _ => rfl, fun _ _ _ _ _ => rfl, fun _ _ _ h => h⟩

end Builds

/-- The segment is not cleared from an address inside the kernel. -/
def TameSegment (ph : List UInt8) : Prop :=
  let bss := ((wordOf ph 8).toNat + (wordOf ph 16).toNat) % ADDR_END
  PHY_MEM ≤ bss ∨ bss < PGSIZE ∨ wordOf ph 20 = wordOf ph 16

/-- A segment without contents. -/
def EmptySegment (ph : List UInt8) : Prop :=
  wordOf ph 16 = 0 ∧ wordOf ph 20 = 0 ∧ PHY_MEM ≤ (wordOf ph 8).toNat ∧
    (wordOf ph 8).toNat % PGSIZE = 0

/-- The pages of a segment and of the stack. -/
def SegmentPage (ph : List UInt8) (v : ℕ) : Prop :=
  v = 786431 ∨ (wordOf ph 8).toNat / PGSIZE ≤ v ∧
    v < PAGE_UP (((wordOf ph 8).toNat + (wordOf ph 20).toNat) % ADDR_END) / PGSIZE

theorem EmptySegment.page {ph : List UInt8} (h : EmptySegment ph) :
    PAGE_UP (((wordOf ph 8).toNat + (wordOf ph 20).toNat) % ADDR_END) = (wordOf ph 8).toNat := by
  obtain ⟨-, hmemsz, -, hpage⟩ := h
  have hlt := (wordOf ph 8).toNat_lt
  have hpage' : (wordOf ph 8).toNat % 4096 = 0 := hpage
  rw [hmemsz]
  change (((wordOf ph 8).toNat + 0) % 4294967296 + 4095) % 4294967296 / 4096 * 4096 = _
  omega

theorem EmptySegment.not_bad {ph : List UInt8} (h : EmptySegment ph) :
    ¬ BadRange (wordOf ph 8).toNat (wordOf ph 20).toNat := by
  have hpage := h.2.2.2
  have hpage' : (wordOf ph 8).toNat % 4096 = 0 := hpage
  have hdown : PAGE_DOWN (wordOf ph 8).toNat = (wordOf ph 8).toNat := by
    change (wordOf ph 8).toNat / 4096 * 4096 = _
    omega
  rintro (hlow | hwrap)
  · rw [hdown] at hlow
    exact absurd h.2.2.1 (not_le.mpr hlow)
  · rw [hdown, h.page] at hwrap
    exact lt_irrefl _ hwrap

theorem EmptySegment.pages {ph : List UInt8} (h : EmptySegment ph) :
    PAGE_UP (((wordOf ph 8).toNat + (wordOf ph 20).toNat) % ADDR_END) / 4096 -
      (wordOf ph 8).toNat / 4096 = 0 := by
  rw [h.page, Nat.sub_self]

/-- **A segment is loaded** into the current address space. -/
theorem loadSegment_spec {file ph : List UInt8} (h : s.Owned L role free) (hn : role n = .dir)
    (hcr3 : s.cr3 = n * 4096) (htame : TameSegment ph) :
    wp (loadSegment (n * 4096) file ph) (fun _ s' => ∃ role' free', s'.Owned L role' free' ∧
        s'.cr3 = s.cr3 ∧ Builds s role s' role' n (SegmentPage ph) ∧
        (s'.walk n 786431).isSome ∧ (EmptySegment ph → free.length ≤ free'.length + 2))
      (fun _ => ¬ (EmptySegment ph ∧ 2 ≤ free.length)) s := by
  have hlt := (wordOf ph 8).toNat_lt
  rw [loadSegment]
  rw [wp_bind]
  refine (vm_map_spec h hn).mono ?_ ?_
  · rintro - s₁ ⟨hgood, role₁, free₁, h₁, hgrows₁, hlen₁⟩
    have hn₁ : role₁ n = .dir := by rw [hgrows₁.kept n (by simp [hn]), hn]
    have hcr3₁ : s₁.cr3 = n * 4096 := hgrows₁.cr3.trans hcr3
    -- `vm_map` has asserted that the segment lies above the kernel
    have hvaddr : 134217728 ≤ (wordOf ph 8).toNat := by
      by_contra hlow
      apply hgood
      left
      change (wordOf ph 8).toNat / 4096 * 4096 < 134217728
      omega
    rw [wp_bind]
    refine (putBytes_user h₁ hn₁ hcr3₁ hlt (Or.inl hvaddr)).mono ?_ ?_
    · intro _ s₂ hw₂
      have h₂ := hw₂.owned h₁
      have hcr3₂ := hw₂.cr3.trans hcr3₁
      rw [wp_bind]
      have hbss : ((wordOf ph 8).toNat + (wordOf ph 16).toNat) % ADDR_END < 4294967296 :=
        Nat.mod_lt _ (by decide)
      -- the cleared part starts there too, or in the zero page, or is empty
      have hout : 134217728 ≤ ((wordOf ph 8).toNat + (wordOf ph 16).toNat) % ADDR_END ∨
          ((wordOf ph 8).toNat + (wordOf ph 16).toNat) % ADDR_END < 4096 ∨
          List.replicate (((wordOf ph 20).toNat + ADDR_END - (wordOf ph 16).toNat) % ADDR_END)
            (0 : UInt8) = [] := by
        rcases htame with hhigh | hzero | hequal
        · exact Or.inl hhigh
        · exact Or.inr (Or.inl hzero)
        · right
          right
          rw [hequal, Nat.add_sub_cancel_left, Nat.mod_self]
          rfl
      refine (putBytes_user h₂ hn₁ hcr3₂ hbss hout).mono ?_ ?_
      · intro _ s₃ hw₃
        have h₃ := hw₃.owned h₂
        have hstack : STACK_PAGE = 786431 * 4096 := by decide
        have hup : PAGE_UP ((786431 * 4096 + PGSIZE) % ADDR_END) / 4096 = 786432 := by decide
        rw [hstack]
        refine (vm_map_spec h₃ hn₁).mono ?_ ?_
        · rintro - s' ⟨-, role', free', h', hgrows', hlen'⟩
          rw [hup, Nat.mul_div_cancel _ (by decide)] at hgrows' hlen'
          have hbuild₁ : Builds s role s₁ role₁ n (SegmentPage ph) :=
            (Builds.of_grows hgrows₁).mono fun v hv => Or.inr hv
          have hbuild' : Builds s₃ role₁ s' role' n (SegmentPage ph) := by
            apply (Builds.of_grows hgrows').mono
            intro v hv
            left
            omega
          refine ⟨role', free', h', ?_, ?_, ?_, ?_⟩
          · rw [hgrows'.cr3, hw₃.cr3, hw₂.cr3, hgrows₁.cr3]
          · exact ((hbuild₁.trans (.of_writes hw₂ h₁ hn₁)).trans (.of_writes hw₃ h₂ hn₁)).trans
              hbuild'
          -- the page of the stack
          · cases hw : s₃.walk n 786431 with
            | some f =>
              rw [hgrows'.old _ f (by decide) hw]
              rfl
            | none =>
              obtain ⟨f, hf, -⟩ := hgrows'.new 786431 (by decide) (by decide) hw
              rw [hf]
              rfl
          · intro hempty
            rw [hempty.pages] at hlen₁
            omega
        · rintro e (⟨-, hbad⟩ | ⟨-, hfew⟩)
          · rcases hbad with hodd | hbig | hlow | hwrap
            · exact absurd hodd (by decide)
            · exact absurd hbig (by decide)
            · exact absurd hlow (by decide)
            · exact absurd hwrap (by decide)
          · rintro ⟨hempty, htwo⟩
            rw [hempty.pages] at hlen₁
            rw [hup, Nat.mul_div_cancel _ (by decide)] at hfew
            omega
      · rintro e ⟨-, hsome⟩ ⟨hempty, -⟩
        apply hsome
        rw [hempty.1, hempty.2.1]
        rfl
    · rintro e ⟨-, hsome⟩ ⟨hempty, -⟩
      apply hsome
      rw [hempty.1]
      exact List.take_zero
  · rintro e (⟨-, hbad⟩ | ⟨-, hfew⟩) ⟨hempty, -⟩
    · rcases hbad with hodd | hbig | hrange
      · exact absurd hodd (by decide)
      · exact absurd hbig (by decide)
      · exact hempty.not_bad hrange
    · rw [hempty.pages] at hfew
      omega

/-! ### The whole file -/

/-- Program header `i` of the file; header 0 is what was in memory before the first one. -/
def phdrOf (file elf : List UInt8) (junk : Mem) : ℕ → List UInt8
  | 0 => junk.slice EHDR_SIZE PHDR_SIZE
  | i + 1 => nextPhdr file elf (phdrOf file elf junk i) i

/-- Segment `i` of the file is loaded and has this header. -/
def Segment (file : List UInt8) (junk : Mem) (i : ℕ) (ph : List UInt8) : Prop :=
  i < half (ehdrOf file junk) 44 ∧ ph = phdrOf file (ehdrOf file junk) junk (i + 1) ∧
    wordOf ph 0 = PT_LOAD

/-- No segment is cleared from an address inside the kernel. -/
def TameFile (file : List UInt8) (junk : Mem) : Prop :=
  ∀ i ph, Segment file junk i ph → TameSegment ph

/-- No segment has contents. -/
def EmptyFile (file : List UInt8) (junk : Mem) : Prop :=
  ∀ i ph, Segment file junk i ph → EmptySegment ph

/-- The pages that a file has loaded. -/
def FilePage (file : List UInt8) (junk : Mem) (v : ℕ) : Prop :=
  ∃ i ph, Segment file junk i ph ∧ SegmentPage ph v

/-- **An executable is loaded** into the address space of a directory. -/
theorem load_elf_spec {file : List UInt8} {junk : Mem} (h : s.Owned L role free)
    (hn : role n = .dir) (hcr3 : s.cr3 = p * 4096)
    (htame : wordOf (ehdrOf file junk) 0 = ELF_MAGIC → TameFile file junk) :
    wp (Vm.load_elf (n * 4096) (some file) junk) (fun eip s' => ∃ role' free',
        s'.Owned L role' free' ∧ s'.cr3 = s.cr3 ∧ Builds s role s' role' n (FilePage file junk) ∧
        (EmptyFile file junk → free.length ≤ free'.length + 2 * half (ehdrOf file junk) 44) ∧
        (wordOf (ehdrOf file junk) 0 = ELF_MAGIC → eip = wordOf (ehdrOf file junk) 24 ∧
          ((∃ i ph, Segment file junk i ph) → (s'.walk n 786431).isSome)) ∧
        (wordOf (ehdrOf file junk) 0 ≠ ELF_MAGIC → eip = -1))
      (fun _ => ¬ (EmptyFile file junk ∧ 2 * half (ehdrOf file junk) 44 ≤ free.length)) s := by
  rw [Vm.load_elf]
  set elf := ehdrOf file junk with helf
  set count := half elf 44 with hcount
  simp only
  by_cases hmagic : wordOf elf 0 = ELF_MAGIC
  · have htame := htame hmagic
    have hcurr : PAGE_DOWN (p * 4096) = p * 4096 := PAGE_DOWN_page p
    rw [if_neg (not_not.mpr hmagic), wp_bind, vm_curr, wp_read, hcr3, hcurr, wp_bind, set_cr3,
      wp_update, wp_bind]
    set s₀ : Vm := { s with cr3 := n * 4096 } with hs₀
    -- after `k` headers the pages of the segments among them may be there, and the stack is if
    -- there was one
    refine (wp_loop_index (fun k ph s' => ph = phdrOf file elf junk k ∧ ∃ role' free',
      s'.Owned L role' free' ∧ s'.cr3 = n * 4096 ∧ Builds s role s' role' n (FilePage file junk) ∧
      ((∃ i < k, wordOf (phdrOf file elf junk (i + 1)) 0 = PT_LOAD) → (s'.walk n 786431).isSome) ∧
      (EmptyFile file junk → free.length ≤ free'.length + 2 * k)) _ _ ?_ ?_ fun _ _ hs' => hs').imp ?_
    · refine ⟨rfl, role, free, h.set_cr3 _, rfl, .of_cr3 _, ?_, fun _ => Nat.le_add_right _ _⟩
      rintro ⟨i, hi, -⟩
      exact absurd hi (Nat.not_lt_zero i)
    · rintro k i hk ph s₁ ⟨rfl, role₁, free₁, h₁, hcr3₁, hbuild₁, hstack₁, hlen₁⟩
      obtain ⟨hkc, heq⟩ := List.getElem?_eq_some_iff.mp hk
      rw [List.length_range] at hkc
      rw [List.getElem_range] at heq
      subst heq
      change wp (if wordOf (phdrOf file elf junk (k + 1)) 0 = PT_LOAD then _ else _) _ _ _
      by_cases hload : wordOf (phdrOf file elf junk (k + 1)) 0 = PT_LOAD
      · have hseg : Segment file junk k (phdrOf file elf junk (k + 1)) := ⟨hkc, rfl, hload⟩
        rw [if_pos hload, wp_bind]
        refine (loadSegment_spec h₁ (hbuild₁.dir hn) hcr3₁ (htame k _ hseg)).mono ?_ ?_
        · rintro - s₂ ⟨role₂, free₂, h₂, hcr3₂, hbuild₂, hstack₂, hlen₂⟩
          rw [wp_pure]
          refine ⟨rfl, role₂, free₂, h₂, hcr3₂.trans hcr3₁, hbuild₁.trans (hbuild₂.mono ?_),
            fun _ => hstack₂, ?_⟩
          · intro v hv
            exact ⟨k, _, hseg, hv⟩
          · intro hempty
            have hold := hlen₁ hempty
            have hnew := hlen₂ (hempty k _ hseg)
            omega
        · rintro e hfew ⟨hempty, hmany⟩
          apply hfew
          have hold := hlen₁ hempty
          exact ⟨hempty k _ hseg, by omega⟩
      · rw [if_neg hload, wp_pure]
        refine ⟨rfl, role₁, free₁, h₁, hcr3₁, hbuild₁, ?_, ?_⟩
        · rintro ⟨i, hi, hload'⟩
          apply hstack₁
          rcases Nat.lt_succ_iff_lt_or_eq.mp hi with hlt | rfl
          · exact ⟨i, hlt, hload'⟩
          · exact absurd hload' hload
        · intro hempty
          have hold := hlen₁ hempty
          omega
    · rintro ph s₁ ⟨-, role₁, free₁, h₁, hcr3₁, hbuild₁, hstack₁, hlen₁⟩
      rw [List.length_range] at hstack₁ hlen₁
      rw [wp_bind, set_cr3, wp_update, wp_pure]
      refine ⟨role₁, free₁, h₁.set_cr3 _, rfl, hbuild₁.trans (.of_cr3 _), hlen₁, fun _ => ⟨rfl, ?_⟩,
        fun hno => absurd hmagic hno⟩
      rintro ⟨i, ph', hi, rfl, hload⟩
      exact hstack₁ ⟨i, hi, hload⟩
  · rw [if_pos hmagic, wp_pure]
    exact ⟨role, free, h, rfl, .refl, fun _ => Nat.le_add_right _ _,
      fun hmagic' => absurd hmagic' hmagic, fun _ => rfl⟩

/-- What a program is loaded from. -/
structure Image where
  file : Option (List UInt8)
  /-- what was in memory where the headers are read to -/
  junk : Mem
  argv : List CString

/-- The program does not make the loader write inside the kernel: if its file is an executable, no
segment is cleared from there, and if it is loaded, its arguments fit in the stack page. -/
def Image.Tame (image : Image) : Prop :=
  ∀ file ∈ image.file, wordOf (ehdrOf file image.junk) 0 = ELF_MAGIC →
    TameFile file image.junk ∧
      (wordOf (ehdrOf file image.junk) 24 ≠ -1 → argSize image.argv ≤ 4096)

/-- The pages that a program has loaded. -/
def Image.Page (image : Image) (v : ℕ) : Prop := ∃ file ∈ image.file, FilePage file image.junk v

/-- An executable with a stack and nothing else. -/
structure Image.Bare (image : Image) : Prop where
  args : image.argv.length ≤ 31
  elf : ∃ file, image.file = some file ∧ EmptyFile file image.junk ∧
    half (ehdrOf file image.junk) 44 = 1 ∧ (∃ ph, Segment file image.junk 0 ph) ∧
    wordOf (ehdrOf file image.junk) 0 = ELF_MAGIC ∧ wordOf (ehdrOf file image.junk) 24 ≠ -1

/-- **A program is loaded** into the address space of a directory. -/
theorem load_user_spec {image : Image} (h : s.Owned L role free) (hp : role p = .dir)
    (hn : role n = .dir) (hcr3 : s.cr3 = p * 4096) (htame : image.Tame) :
    wp (Vm.load_user (n * 4096) image.file image.junk image.argv) (fun ctx s' => ∃ role' free',
        s'.Owned L role' free' ∧ s'.cr3 = s.cr3 ∧ Builds s role s' role' n image.Page ∧
        (image.Bare → ctx.isSome ∧ free.length ≤ free'.length + 2))
      (fun _ => ¬ (image.Bare ∧ 2 ≤ free.length)) s := by
  obtain ⟨file, junk, argv⟩ := image
  rw [Vm.load_user]
  cases file with
  | none =>
    rw [wp_bind, Vm.load_elf, wp_pure, if_pos rfl, wp_pure]
    refine ⟨role, free, h, rfl, .refl, ?_⟩
    rintro ⟨-, file, hnone, -⟩
    cases hnone
  | some file =>
    have htame := htame file rfl
    rw [wp_bind]
    refine (load_elf_spec h hn hcr3 fun hmagic => (htame hmagic).1).mono ?_ ?_
    · rintro eip s₁ ⟨role₁, free₁, h₁, hcr3₁, hbuild₁, hlen₁, heip, hnot⟩
      have hbuild₁' : Builds s role s₁ role₁ n (Image.Page ⟨some file, junk, argv⟩) :=
        hbuild₁.mono fun v hv => ⟨file, rfl, hv⟩
      -- an executable with a stack has an entry point and its stack page
      have hbare (hb : Image.Bare ⟨some file, junk, argv⟩) : eip ≠ -1 ∧
          (s₁.walk n 786431).isSome ∧ free.length ≤ free₁.length + 2 := by
        obtain ⟨-, file', hsome, hempty, hone, ⟨ph, hseg⟩, hmagic, hentry⟩ := hb
        cases hsome
        have hlen := hlen₁ hempty
        rw [hone] at hlen
        rw [(heip hmagic).1]
        exact ⟨hentry, (heip hmagic).2 ⟨0, ph, hseg⟩, hlen⟩
      by_cases hfail : eip = -1
      · rw [if_pos hfail, wp_pure]
        refine ⟨role₁, free₁, h₁, hcr3₁, hbuild₁', ?_⟩
        intro hb
        exact absurd hfail (hbare hb).1
      · -- the arguments are pushed only when an executable has been loaded
        have hmagic : wordOf (ehdrOf file junk) 0 = ELF_MAGIC := by
          by_contra hno
          exact hfail (hnot hno)
        have hsize := (htame hmagic).2 (by rwa [← (heip hmagic).1])
        rw [if_neg hfail, wp_bind]
        have hcr3' : s₁.cr3 = p * 4096 := hcr3₁.trans hcr3
        have hn₁ := hbuild₁.dir hn
        refine (load_arg_spec h₁ (hbuild₁.dir hp) hn₁ hcr3' hsize).mono ?_ ?_
        · intro esp s' hw
          rw [wp_pure]
          refine ⟨role₁, free₁, hw.owned h₁, hw.cr3.trans hcr3₁,
            hbuild₁'.trans (.of_writes hw h₁ hn₁), ?_⟩
          intro hb
          exact ⟨rfl, (hbare hb).2.2⟩
        · rintro e (hnone | ⟨-, hmany⟩) ⟨hb, -⟩
          · have hsome := (hbare hb).2.1
            rw [hnone] at hsome
            cases hsome
          · exact absurd hb.args (not_le.mpr hmany)
    · rintro e hfew ⟨⟨-, file', hsome, hempty, hone, -⟩, htwo⟩
      cases hsome
      apply hfew
      rw [hone]
      exact ⟨hempty, htwo⟩

end Oslab
