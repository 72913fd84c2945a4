/-
# What a program finds on its stack

The strings, the array of their addresses and the two arguments of `_start` are
pushed into the frame of the stack page at the address the kernel has it at, and
the addresses are those of the new address space. Read there, the block gives the
strings back. It is pushed down as far as it takes, so a block that is longer
than the page goes on in the frames below.
-/
import Oslab.Protection
import Oslab.SpacesSpec

namespace Oslab

open Lib Lib.Prog

/-! ### Reading the stack -/

/-- The byte that the program in directory `n` finds at `va`. -/
def Vm.byteAt (s : Vm) (n va : ℕ) : Option UInt8 :=
  (s.walk n (va / PGSIZE)).map fun f => s.mem (f * PGSIZE + va % PGSIZE)

def Vm.wordAt (s : Vm) (n va : ℕ) : Option UInt32 := do
  let b0 ← s.byteAt n va
  let b1 ← s.byteAt n (va + 1)
  let b2 ← s.byteAt n (va + 2)
  let b3 ← s.byteAt n (va + 3)
  pure (Mem.wordOf b0 b1 b2 b3)

/-- The string at `va`, if it ends within `fuel` bytes. -/
def Vm.stringAt (s : Vm) (n : ℕ) : ℕ → ℕ → Option (List UInt8)
  | 0, _ => none
  | fuel + 1, va => do
    let b ← s.byteAt n va
    if b = 0 then pure []
    else
      let bs ← s.stringAt n fuel (va + 1)
      pure (b :: bs)

/-- The arguments that `_start` is called with: the words above the return address are `argc` and
the address of the array `argv`. -/
def Vm.startArgs (s : Vm) (n esp : ℕ) : Option (List (List UInt8)) := do
  let argc ← s.wordAt n (esp + 4)
  let argv ← s.wordAt n (esp + 8)
  let ptrs ← (List.range argc.toNat).mapM fun i => s.wordAt n (argv.toNat + 4 * i)
  let last ← s.wordAt n (argv.toNat + 4 * argc.toNat)
  if last = 0 then ptrs.mapM fun ptr => s.stringAt n PGSIZE ptr.toNat
  else none

variable {L : Statics} {s s' : Vm} {x : Paging} {role : ℕ → Role} {free : List ℕ} {n p f r k v : ℕ}
  {argv : List CString}

/-- Page `v` is in frame `f`. -/
theorem byteAt_page (hw : s.walk n v = some f) (hr : r < 4096) :
    s.byteAt n (v * 4096 + r) = some (s.mem (f * 4096 + r)) := by
  have hpage : (v * 4096 + r) / PGSIZE = v := by
    change (v * 4096 + r) / 4096 = v
    omega
  have hoff : (v * 4096 + r) % PGSIZE = r := by
    change (v * 4096 + r) % 4096 = r
    omega
  rw [Vm.byteAt, hpage, hoff, hw]
  rfl

theorem wordAt_page (hw : s.walk n v = some f) (hr : r + 4 ≤ 4096) :
    s.wordAt n (v * 4096 + r) = some (s.mem.word (f * 4096 + r)) := by
  have h0 := byteAt_page (r := r) hw (by omega)
  have h1 := byteAt_page (r := r + 1) hw (by omega)
  have h2 := byteAt_page (r := r + 2) hw (by omega)
  have h3 := byteAt_page (r := r + 3) hw (by omega)
  rw [← Nat.add_assoc, ← Nat.add_assoc] at h1 h2 h3
  simp only [Vm.wordAt, h0, h1, h2, h3]
  rfl

/-- A string is read up to its end. -/
theorem stringAt_page (hw : s.walk n v = some f) {bs : List UInt8} (hbs : 0 ∉ bs)
    (hmem : ∀ j < bs.length, s.mem (f * 4096 + r + j) = bs.getD j 0)
    (hend : s.mem (f * 4096 + r + bs.length) = 0) (hr : r + bs.length < 4096) {fuel : ℕ}
    (hfuel : bs.length < fuel) : s.stringAt n fuel (v * 4096 + r) = some bs := by
  induction bs generalizing r fuel with
  | nil =>
    obtain ⟨fuel, rfl⟩ := Nat.exists_eq_succ_of_ne_zero (Nat.ne_of_gt hfuel)
    have hbyte := byteAt_page (r := r) hw (by simpa using hr)
    rw [List.length_nil, Nat.add_zero] at hend
    rw [Vm.stringAt, hbyte, hend]
    rfl
  | cons b bs ih =>
    rw [List.length_cons] at hr hfuel hend
    obtain ⟨fuel, rfl⟩ := Nat.exists_eq_succ_of_ne_zero (Nat.ne_of_gt (Nat.zero_lt_of_lt hfuel))
    have hhead : s.mem (f * 4096 + r + 0) = b := hmem 0 (Nat.succ_pos _)
    have hbyte := byteAt_page (r := r) hw (by omega)
    rw [Nat.add_zero] at hhead
    have hne : b ≠ 0 := by
      intro hb
      rw [hb] at hbs
      exact hbs List.mem_cons_self
    have htail : s.stringAt n fuel (v * 4096 + (r + 1)) = some bs := by
      refine ih (fun hmem => hbs (List.mem_cons_of_mem b hmem)) ?_ ?_ (by omega) (by omega)
      · intro j hj
        have hnext := hmem (j + 1) (by rw [List.length_cons]; omega)
        rw [List.getD_cons_succ] at hnext
        rw [← hnext]
        congr 1
        omega
      · rw [← hend]
        congr 1
        omega
    rw [Vm.stringAt, hbyte, hhead]
    simp only [Option.bind_eq_bind, Option.bind_some, if_neg hne]
    rw [Nat.add_assoc, htail]
    rfl

/-- Each element is read. -/
theorem mapM_some {α β : Type} {g : α → Option β} {g' : α → β} {as : List α}
    (h : ∀ a ∈ as, g a = some (g' a)) : as.mapM g = some (as.map g') := by
  induction as with
  | nil => rfl
  | cons a as ih =>
    rw [List.mapM_cons, h a List.mem_cons_self, ih fun a' ha' => h a' (List.mem_cons_of_mem a ha')]
    rfl

/-- What `_start` is called with. -/
theorem startArgs_eq {esp : ℕ} {av : UInt32} {ptrs : List ℕ} (hlen : ptrs.length < 2 ^ 32)
    (hargc : s.wordAt n (esp + 4) = some (UInt32.ofNat ptrs.length))
    (hargv : s.wordAt n (esp + 8) = some av)
    (hptr : ∀ i < ptrs.length + 1,
      s.wordAt n (av.toNat + 4 * i) = some (UInt32.ofNat ((ptrs ++ [0]).getD i 0))) :
    s.startArgs n esp = ptrs.mapM fun ptr => s.stringAt n PGSIZE (UInt32.ofNat ptr).toNat := by
  have hcount : (UInt32.ofNat ptrs.length).toNat = ptrs.length := by
    rw [UInt32.toNat_ofNat']
    omega
  have hlast := hptr ptrs.length (Nat.lt_succ_self _)
  rw [List.getD_append_right _ _ _ _ le_rfl, Nat.sub_self] at hlast
  have hread : (List.range ptrs.length).mapM (fun i => s.wordAt n (av.toNat + 4 * i)) =
      some (ptrs.map UInt32.ofNat) := by
    rw [mapM_some fun i hi => hptr i (Nat.lt_succ_of_lt (List.mem_range.mp hi))]
    congr 1
    apply List.ext_getElem
    · rw [List.length_map, List.length_range, List.length_map]
    · intro i hi hi'
      rw [List.length_map] at hi'
      rw [List.getElem_map, List.getElem_range, List.getElem_map, List.getD_append _ _ _ _ hi',
        List.getD_eq_getElem _ _ hi']
  simp only [Vm.startArgs, hargc, hargv, hcount, hread, hlast, Option.bind_eq_bind, Option.bind_some]
  change List.mapM _ (ptrs.map UInt32.ofNat) = _
  rw [List.mapM_map]
  rfl

/-! ### The block is what was pushed -/

/-- The address of what lies at `r` in the frame of the stack page. -/
theorem stackAddr_page (hr : r < 4096) : Vm.stackAddr (f * 4096 + r) = 786431 * 4096 + r := by
  have hstack : STACK_PAGE = 786431 * 4096 := by decide
  have hoff : ADDR2OFF (f * 4096 + r) = r := by
    change (f * 4096 + r) % 4096 = r
    omega
  rw [Vm.stackAddr, hstack, hoff]

theorem toNat_stackAddr (hr : r < 4096) :
    (UInt32.ofNat (Vm.stackAddr (f * 4096 + r))).toNat = 786431 * 4096 + r := by
  rw [stackAddr_page hr, UInt32.toNat_ofNat']
  omega

/-- The strings are at their addresses. -/
theorem strings_at (hw : s.walk n 786431 = some f) (argv : List CString)
    (hr : argSpace argv ≤ r) (hpage : r ≤ 4096)
    (hmem : ∀ j < argSpace argv, s.mem (f * 4096 + (r - argSpace argv) + j) =
      (argBytes argv).getD j 0) :
    (argPtrs argv (f * 4096 + r)).mapM (fun ptr => s.stringAt n PGSIZE (UInt32.ofNat ptr).toNat) =
      some (argv.map fun arg => arg.1) := by
  induction argv generalizing r with
  | nil => rfl
  | cons arg args ih =>
    rw [argSpace_cons] at hr
    set len := arg.1.length with hlen
    have hsub : r - argSpace (arg :: args) = r - (len + 1) - argSpace args := by
      rw [argSpace_cons, Nat.sub_sub]
    have hptr : f * 4096 + r - (len + 1) = f * 4096 + (r - (len + 1)) := by omega
    rw [hsub, argSpace_cons] at hmem
    -- the bytes of the first string follow those of the others
    have hstring (j : ℕ) (hj : j < len + 1) :
        s.mem (f * 4096 + (r - (len + 1)) + j) = (arg.1 ++ [0]).getD j 0 := by
      have hbyte := hmem (argSpace args + j) (by omega)
      rw [argBytes, List.getD_append_right _ _ _ _ (by rw [length_argBytes]; omega),
        length_argBytes, Nat.add_sub_cancel_left] at hbyte
      rw [← hbyte]
      congr 1
      omega
    have hfirst : s.stringAt n PGSIZE (786431 * 4096 + (r - (len + 1))) = some arg.1 := by
      apply stringAt_page hw arg.2
      · intro j hj
        rw [hstring j (by omega), List.getD_append _ _ _ _ hj]
      · rw [hstring _ (by omega), List.getD_append_right _ _ _ _ le_rfl, Nat.sub_self]
        rfl
      · omega
      · change len < 4096
        omega
    have hrest := ih (r := r - (len + 1)) (by omega) (by omega) ?_
    · rw [argPtrs, ← hlen, hptr, List.mapM_cons, toNat_stackAddr (by omega), hfirst, hrest]
      rfl
    · intro j hj
      rw [hmem j (by omega), argBytes, List.getD_append _ _ _ _ (by rw [length_argBytes]; exact hj)]

section block

variable {a : ℕ} (ha4 : a % 4 = 0) (hsize : argSize argv ≤ a)

include ha4 hsize

/-- The arguments of `_start` are lowest. -/
theorem block_start : (s.block argv a).mem.word (a - argSize argv) = UInt32.ofNat argv.length ∧
    (s.block argv a).mem.word (a - argSize argv + 4) =
      UInt32.ofNat (Vm.stackAddr (a - argSize argv + 8)) := by
  have htop := arrayTop_eq argv ha4 hsize
  have hlow : arrayTop argv a - 8 = a - argSize argv := by omega
  rw [Vm.block, put_mem, hlow, htop]
  generalize ((s.put _ _).put _ _).mem = m
  have hwords (i : ℕ) (hi : i < 2) := Mem.word_splice_words (m := m) (a := a - argSize argv)
    ([argv.length, Vm.stackAddr (a - argSize argv + 8)].map UInt32.ofNat) (i := i) hi
  exact ⟨hwords 0 (by decide), hwords 1 (by decide)⟩

/-- Above them is the array of the addresses, with its end. -/
theorem block_array {i : ℕ} (hi : i < argv.length + 1) :
    (s.block argv a).mem.word (a - argSize argv + 8 + 4 * i) =
      UInt32.ofNat ((argPtrs argv a ++ [0]).getD i 0) := by
  have htop := arrayTop_eq argv ha4 hsize
  have hlen : (argPtrs argv a ++ [0]).length = argv.length + 1 := by
    rw [List.length_append, length_argPtrs, List.length_singleton]
  rw [Vm.block, put_mem, Mem.word_splice_out, put_mem, htop, wordsOf, Mem.word_splice_words]
  · rw [List.getElem_map, List.getD_eq_getElem _ _ (by omega)]
  · rw [List.length_map, hlen]
    exact hi
  · right
    rw [length_wordsOf, List.length_cons, List.length_singleton, htop]
    omega

/-- And then come the strings. -/
theorem block_string {j : ℕ} (hj : j < argSpace argv) :
    (s.block argv a).mem (a - argSpace argv + j) = (argBytes argv).getD j 0 := by
  have htop := arrayTop_eq argv ha4 hsize
  rw [argSize] at hsize htop
  rw [Vm.block, put_mem, Mem.splice_out, put_mem, Mem.splice_out, put_mem, Mem.splice_in,
    List.getD_eq_getElem]
  · rw [length_argBytes]
    exact hj
  · right
    rw [length_wordsOf, List.length_append, length_argPtrs, List.length_singleton, htop]
    omega
  · right
    rw [length_wordsOf, List.length_cons, List.length_singleton, htop]
    omega

end block

/-- **The arguments arrive.** -/
theorem args_round_trip (h : s.Owned L role free) (hp : role p = .dir) (hn : role n = .dir)
    (hcr3 : s.cr3 = p * PGSIZE) (hstack : (s.walk n (STACK_PAGE / PGSIZE)).isSome)
    (hmany : argv.length ≤ MAX_ARGS_NUM) (hsize : argSize argv + 4 ≤ PGSIZE) :
    ∃ esp s', Vm.load_arg (n * PGSIZE) argv s = .ok (esp, s') ∧
      s'.startArgs n esp = some (argv.map fun arg => arg.1) ∧ esp % 4 = 0 ∧ STACK_PAGE ≤ esp ∧
      esp < USR_MEM := by
  have hpage : STACK_PAGE / PGSIZE = 786431 := by decide
  have hsize' : argSize argv + 4 ≤ 4096 := hsize
  have hmany' : argv.length ≤ 31 := hmany
  rw [hpage] at hstack
  obtain ⟨f, hw⟩ := Option.isSome_iff_exists.mp hstack
  have hrole := h.frame hn (by decide) (by decide) hw
  have hlt := h.lt (n := f) (by simp [hrole])
  have hno (e : Abort) : ¬ (e = .tooManyArgs ∧ 31 < argv.length) := by
    intro he
    omega
  obtain ⟨esp, s', hok, hs', hesp⟩ :=
    (load_arg_block h hp hn hcr3 hw (.page hrole) le_rfl (by omega)).returns_of hno
  rw [hs', hesp] at hok
  -- the block starts at `r`
  obtain ⟨r, hr⟩ : ∃ r, r = 4096 - argSize argv := ⟨_, rfl⟩
  have hbase : f * 4096 + 4096 - argSize argv = f * 4096 + r := by omega
  have hr4 : r % 4 = 0 := by
    rw [hr, argSize]
    rw [argSize] at hsize'
    omega
  have hdown : Vm.down (f * 4096 + r) 4 = f * 4096 + (r - 4) := by
    rw [down_eq (by omega) (by omega)]
    omega
  have hlow : r - 4 < 4096 := by omega
  rw [hbase, hdown, stackAddr_page hlow] at hok
  have hbottom : STACK_PAGE = 786431 * 4096 := by decide
  have htop : USR_MEM = 786432 * 4096 := by decide
  refine ⟨_, _, hok, ?_, by omega, by omega, by omega⟩
  -- the frame is still that of the stack page
  have hwrites : Writes s role n (s.block argv (f * 4096 + 4096)) := block_writes hrole (by omega)
  have hw' := hwrites.walk h hn (v := 786431) (by decide)
  rw [hw] at hw'
  rw [← hs'] at hw' ⊢
  have ha4 : (f * 4096 + 4096) % 4 = 0 := by omega
  have hfit : argSize argv ≤ f * 4096 + 4096 := by omega
  obtain ⟨hargc, harray⟩ := block_start (s := s) ha4 hfit
  have hptrs (i : ℕ) (hi : i < argv.length + 1) := block_array (s := s) ha4 hfit hi
  have hstrings (j : ℕ) (hj : j < argSpace argv) := block_string (s := s) ha4 hfit hj
  rw [hbase, ← hs'] at hargc harray
  simp only [hbase, ← hs'] at hptrs hstrings
  have hroom : r + 12 + 4 * argv.length ≤ 4096 := by
    rw [hr, argSize]
    rw [argSize] at hsize'
    omega
  have haddr : (UInt32.ofNat (Vm.stackAddr (f * 4096 + r + 8))).toNat = 786431 * 4096 + (r + 8) := by
    rw [Nat.add_assoc, toNat_stackAddr (by omega)]
  have hlen : (argPtrs argv (f * 4096 + 4096)).length = argv.length := length_argPtrs _ _
  have hspace : argSpace argv ≤ 4096 := by
    rw [argSize] at hsize'
    omega
  have hstring := strings_at (r := 4096) hw' argv hspace le_rfl
  have hcount : s'.wordAt n (786431 * 4096 + (r - 4) + 4) =
      some (UInt32.ofNat (argPtrs argv (f * 4096 + 4096)).length) := by
    have hword := wordAt_page (r := r) hw' (by omega)
    have hva : 786431 * 4096 + (r - 4) + 4 = 786431 * 4096 + r := by omega
    rw [hva, hword, hargc, hlen]
  have hvector : s'.wordAt n (786431 * 4096 + (r - 4) + 8) =
      some (UInt32.ofNat (Vm.stackAddr (f * 4096 + r + 8))) := by
    have hword := wordAt_page (r := r + 4) hw' (by omega)
    have hva : 786431 * 4096 + (r - 4) + 8 = 786431 * 4096 + (r + 4) := by omega
    rw [hva, hword, ← Nat.add_assoc, harray]
  rw [startArgs_eq (by omega) hcount hvector]
  · apply hstring
    intro j hj
    have hstart : f * 4096 + (4096 - argSpace argv) = f * 4096 + 4096 - argSpace argv := by omega
    rw [hstart, hstrings j hj]
  · intro i hi
    rw [hlen] at hi
    have hword := wordAt_page (r := r + 8 + 4 * i) hw' (by omega)
    rw [haddr, Nat.add_assoc, hword, ← hptrs i hi, ← Nat.add_assoc, ← Nat.add_assoc]

/-! ### A stack in a run -/

/-- The range of one page. -/
theorem vm_map_page {prot : ℕ} {post : Unit → Vm → Prop} {fail : Abort → Prop} (hodd : prot % 2 = 1)
    (hprot : prot ≤ 7) (hlo : 32768 ≤ v) (hv : v + 1 < 2 ^ 20)
    (hpage : wp (mapPage (n * 4096) prot (v * 4096)) post fail s) :
    wp (vm_map (n * 4096) (v * 4096) 4096 prot) post fail s := by
  have hstart : PAGE_DOWN (v * 4096) = v * 4096 := by
    rw [PAGE_DOWN_eq, Nat.mul_div_cancel v (by decide)]
  have hend : PAGE_UP ((v * 4096 + 4096) % ADDR_END) = v * 4096 + 4096 := by
    change ((v * 4096 + 4096) % 4294967296 + 4095) % 4294967296 / 4096 * 4096 = v * 4096 + 4096
    omega
  have hone : (v * 4096 + 4096 - v * 4096) / PGSIZE = 1 := by
    rw [Nat.add_sub_cancel_left]
    rfl
  have hlow : PHY_MEM ≤ v * 4096 := by
    change 134217728 ≤ v * 4096
    omega
  have hpages : pages (v * 4096) 1 = [v * 4096] := by
    rw [pages]
    simp
  rw [vm_map, wp_bind, wp_assert]
  refine ⟨fun _ => ?_, fun hnot => (hnot hodd).elim⟩
  rw [wp_bind, wp_assert]
  refine ⟨fun _ => ?_, fun hnot => (hnot hprot).elim⟩
  dsimp only
  rw [hstart, hend, hone, hpages, wp_bind, wp_assert]
  refine ⟨fun _ => ?_, fun hnot => (hnot hlow).elim⟩
  rw [wp_bind, wp_assert]
  refine ⟨fun _ => ?_, fun hnot => (hnot (by omega)).elim⟩
  rw [loop, wp_bind]
  exact hpage

/-- The first page that is mapped in its table takes two free pages, the table and the frame. -/
theorem vm_map_first {t f : ℕ} (prot : ℕ) {rest : List ℕ} (h : s.Owned L role (t :: f :: rest))
    (hn : role n = .dir) (hodd : prot % 2 = 1) (hprot : prot ≤ 7) (hlo : 32768 ≤ v)
    (hv : v + 1 < 2 ^ 20) (hp : ¬ present (pteAt s.mem n (v / 1024))) :
    wp (vm_map (n * 4096) (v * 4096) 4096 prot) (fun _ s' => ∃ role', s'.Owned L role' rest ∧
      Grows s role s' role' n (· = v) ∧ role' t = .table n (v / 1024) ∧ role' f = .frame n v ∧
      present (pteAt s'.mem n (v / 1024)) ∧ frameOf (pteAt s'.mem n (v / 1024)) = t ∧
      s'.walk n v = some f) (fun _ => False) s := by
  refine vm_map_page hodd hprot hlo hv ?_
  rw [mapPage, wp_bind]
  refine (vm_walkpte_new h hn hprot (by omega) hlo (by omega) hp).mono ?_ fun e he => ?_
  · rintro r s₁ ⟨t', rest', hlist, rfl, h₁, hgrows₁, hp₁, hframe₁, hzero⟩
    obtain ⟨rfl, rfl⟩ := List.cons.inj hlist
    have hn₁ : Function.update role t (.table n (v / 1024)) n = .dir := by
      rw [hgrows₁.kept n (by simp [hn]), hn]
    have hpte : ¬ present (pteAt s₁.mem t (v % 1024)) := zero_absent hzero (by omega)
    simp only
    rw [wp_bind, load, wp_read]
    change wp (if ¬ present (pteAt s₁.mem t (v % 1024)) then _ else _) _ _ _
    rw [if_pos hpte]
    refine (mapFrame_new h₁ hn₁ hprot hlo (by omega) (Function.update_self _ _ _) hp₁ hframe₁
      hpte).mono ?_ fun e he => ?_
    · rintro - s₂ ⟨f', rest', hlist, h₂, hgrows₂, hw, hsame⟩
      obtain ⟨rfl, rfl⟩ := List.cons.inj hlist
      have htable : Function.update role t (.table n (v / 1024)) t = .table n (v / 1024) :=
        Function.update_self t _ _
      have hdir : pteAt s₂.mem n (v / 1024) = pteAt s₁.mem n (v / 1024) := hsame.entry (by omega)
      refine ⟨_, h₂, (hgrows₁.trans hgrows₂ h₁ hn fun _ hR => hR.elim).mono fun u => by simp, ?_,
        Function.update_self _ _ _, hdir ▸ hp₁, hdir ▸ hframe₁, hw⟩
      rw [hgrows₂.kept t (by simp), htable]
    · cases he.2
  · cases he.2

/-- A page that is mapped in a table that is there takes one. -/
theorem vm_map_more {t f : ℕ} (prot : ℕ) {rest : List ℕ} (h : s.Owned L role (f :: rest))
    (hn : role n = .dir) (hodd : prot % 2 = 1) (hprot : prot ≤ 7) (hlo : 32768 ≤ v)
    (hv : v + 1 < 2 ^ 20) (ht : role t = .table n (v / 1024))
    (hp : present (pteAt s.mem n (v / 1024))) (hframe : frameOf (pteAt s.mem n (v / 1024)) = t)
    (hnone : s.walk n v = none) :
    wp (vm_map (n * 4096) (v * 4096) 4096 prot) (fun _ s' => ∃ role', s'.Owned L role' rest ∧
      Grows s role s' role' n (· = v) ∧ role' f = .frame n v ∧ s'.walk n v = some f)
      (fun _ => False) s := by
  have hpte : ¬ present (pteAt s.mem t (v % 1024)) := by
    intro hpresent
    rw [walk_table hp hframe rfl, if_pos hpresent] at hnone
    cases hnone
  refine vm_map_page hodd hprot hlo hv ?_
  rw [mapPage, wp_bind]
  refine (vm_walkpte_present hprot hp).imp ?_
  rintro r s₁ ⟨rfl, rfl⟩
  simp only
  rw [hframe, wp_bind, load, wp_read]
  change wp (if ¬ present (pteAt s₁.mem t (v % 1024)) then _ else _) _ _ _
  rw [if_pos hpte]
  refine (mapFrame_new h hn hprot hlo (by omega) ht hp hframe hpte).mono ?_ fun e he => ?_
  · rintro - s₂ ⟨f', rest', hlist, h₂, hgrows₂, hw, -⟩
    obtain ⟨rfl, rfl⟩ := List.cons.inj hlist
    exact ⟨_, h₂, hgrows₂, Function.update_self _ _ _, hw⟩
  · cases he.2

/-- Pages are taken one after the other for kernel stacks. -/
theorem kstacks_run (m : ℕ) {a c : ℕ} (hreach : (paging L).Reachable x)
    (h : x.vm.Owned L role (List.range' a (m + c))) :
    ∃ (x' : Paging) (role' : ℕ → Role), (paging L).Reachable x' ∧ x'.dirs = x.dirs ∧
      x'.vm.Owned L role' (List.range' (a + m) c) ∧ x'.vm.mem = x.vm.mem ∧ x'.vm.cr3 = x.vm.cr3 ∧
      (∀ k, a ≤ k → k < a + m → role' k = .held) ∧ ∀ k, role k ≠ .free → role' k = role k := by
  induction m generalizing x role a with
  | zero =>
    rw [Nat.zero_add] at h
    exact ⟨x, role, hreach, rfl, h, rfl, rfl, fun k hlo hhi => by omega, fun _ _ => rfl⟩
  | succ m ih =>
    have hlist : List.range' a (m + 1 + c) = a :: List.range' (a + 1) (m + c) := by
      rw [Nat.add_right_comm, List.range'_succ]
    have hno (e : Abort) : ¬ (e = .noPage ∧ List.range' a (m + 1 + c) = []) := by
      rw [hlist]
      intro he
      cases he.2
    obtain ⟨b, s₁, hok, n, rest, hrest, rfl, hn, hmem, hcr3, h₁⟩ := (kalloc_spec h).returns_of hno
    rw [hlist] at hrest
    obtain ⟨rfl, rfl⟩ := List.cons.inj hrest
    have hreach₁ : (paging L).Reachable ⟨s₁, x.dirs, a * 4096 :: x.kstacks⟩ :=
      hreach.step (l := .kstack) ⟨_, hok, rfl, rfl⟩
    obtain ⟨x', role', hreach', hdirs', h', hmem', hcr3', hheld, hkept⟩ := ih hreach₁ h₁
    refine ⟨x', role', hreach', hdirs', ?_, hmem'.trans hmem, hcr3'.trans hcr3, ?_, ?_⟩
    · rw [Nat.add_right_comm] at h'
      exact h'
    · intro k hlo hhi
      by_cases hk : k = a
      · rw [hk, hkept a (by rw [Function.update_self]; simp), Function.update_self]
      · exact hheld k (by omega) (by omega)
    · intro k hk
      have hupdate := update_kept (r := .held) hn k hk
      rw [hkept k (by rwa [hupdate]), hupdate]

/-- After `init_page`, a directory is made, and the page below the stack is mapped. -/
theorem stack_table : ∃ x role, (paging .low).Reachable x ∧ x.dirs = [512 * PGSIZE, 256 * PGSIZE] ∧
    x.vm.Owned .low role (List.range' 515 32253) ∧ role 512 = .dir ∧
    role 513 = .table 512 (786431 / 1024) ∧ role 514 = .frame 512 786430 ∧ x.vm.cr3 = 256 * 4096 ∧
    present (pteAt x.vm.mem 512 (786431 / 1024)) ∧
    frameOf (pteAt x.vm.mem 512 (786431 / 1024)) = 513 ∧ x.vm.walk 512 786431 = none ∧
    ZeroPage x.vm.mem 514 := by
  obtain ⟨s₀, hok₀⟩ := init_page_low
  have hspec₀ := init_page_spec (L := .low) (s := ⟨fun _ => 0, 0, 0⟩) (F := fun _ => True)
    fun _ _ => rfl
  obtain ⟨h₀, hcr3₀, -⟩ := hspec₀.of_ok hok₀
  have hheap : heapPages = 512 :: 513 :: 514 :: List.range' 515 32253 := by
    have h512 : heapPages = 512 :: List.range' 513 32255 := List.range'_succ ..
    have h513 : List.range' 513 32255 = 513 :: List.range' 514 32254 := List.range'_succ ..
    have h514 : List.range' 514 32254 = 514 :: List.range' 515 32253 := List.range'_succ ..
    rw [h512, h513, h514]
  rw [hheap] at h₀
  have hreach₀ : (paging .low).Reachable ⟨s₀, [256 * PGSIZE], []⟩ :=
    .init ⟨⟨fun _ => 0, 0, 0⟩, fun _ _ => rfl, hok₀, rfl, rfl⟩
  -- the directory
  have hno₁ (e : Abort) : ¬ (e = .noPage ∧ 512 :: 513 :: 514 :: List.range' 515 32253 = []) := by
    intro he
    cases he.2
  obtain ⟨pd, s₁, hok₁, n, rest, hrest, rfl, hfree, h₁, hcr3₁, -, hnone₁, -⟩ :=
    (vm_alloc_spec h₀).returns_of hno₁
  have hbare := (vm_alloc_bare h₀).of_ok hok₁ 786430 (by decide) (by decide)
  rw [Nat.mul_div_cancel n (by decide)] at hbare
  obtain ⟨rfl, rfl⟩ := List.cons.inj hrest
  have hreach₁ : (paging .low).Reachable ⟨s₁, [512 * PGSIZE, 256 * PGSIZE], []⟩ :=
    hreach₀.step (l := .vm_alloc) ⟨_, hok₁, rfl, rfl⟩
  -- the page below the stack
  have hn₁ : Function.update (firstRole .low) 512 .dir 512 = .dir := Function.update_self _ _ _
  obtain ⟨⟨⟩, s₂, hok₂, role₂, h₂, hgrows₂, ht₂, hf₂, hp₂, hframe₂, hw₂⟩ :=
    (vm_map_first (v := 786430) 7 h₁ hn₁ (by decide) le_rfl (by decide) (by decide)
      hbare).returns
  have hreach₂ : (paging .low).Reachable ⟨s₂, [512 * PGSIZE, 256 * PGSIZE], []⟩ :=
    hreach₁.step (l := .vm_map (512 * PGSIZE) (786430 * 4096) 4096 7)
      ⟨List.mem_cons_self, by decide, by decide, hok₂, rfl, rfl⟩
  obtain ⟨f, hf, -, hzero₂⟩ := hgrows₂.new 786430 (by decide) rfl (hnone₁ 786430 (by decide) (by decide))
  obtain rfl := Option.some.inj (hw₂.symm.trans hf)
  have hn₂ : role₂ 512 = .dir := by rw [hgrows₂.kept 512 (by simp), hn₁]
  have hnone₂ : s₂.walk 512 786431 = none := by
    rw [hgrows₂.other 512 786431 hn₁ (by decide) (Or.inr (by decide)),
      hnone₁ 786431 (by decide) (by decide)]
  refine ⟨_, role₂, hreach₂, rfl, h₂, hn₂, ht₂, hf₂, ?_, hp₂, hframe₂, hnone₂, hzero₂⟩
  change s₂.cr3 = 256 * 4096
  rw [hgrows₂.cr3, hcr3₁, hcr3₀]
  rfl

/-- The page of the stack is mapped after the one below it. -/
theorem stack_reached : ∃ x role free, (paging .low).Reachable x ∧ x.vm.Owned .low role free ∧
    512 * PGSIZE ∈ x.dirs ∧ role 256 = .dir ∧ role 512 = .dir ∧ x.vm.cr3 = 256 * 4096 ∧
    x.vm.walk 512 786431 = some 515 ∧ Plain role 514 516 ∧ ZeroPage x.vm.mem 514 := by
  obtain ⟨⟨s, dirs, kstacks⟩, role, hreach, hdirs, h, hn, ht, hf, hcr3, hp, hframe, hnone, hzero⟩ :=
    stack_table
  obtain rfl : dirs = [512 * PGSIZE, 256 * PGSIZE] := hdirs
  have hlist : List.range' 515 32253 = 515 :: List.range' 516 32252 := List.range'_succ ..
  rw [hlist] at h
  obtain ⟨⟨⟩, s', hok, role', h', hgrows, hf', hw⟩ :=
    (vm_map_more (v := 786431) 7 h hn (by decide) le_rfl (by decide) (by decide) ht hp
      hframe hnone).returns
  have hreach' : (paging .low).Reachable ⟨s', [512 * PGSIZE, 256 * PGSIZE], kstacks⟩ :=
    hreach.step (l := .vm_map (512 * PGSIZE) (786431 * 4096) 4096 7)
      ⟨List.mem_cons_self, by decide, by decide, hok, rfl, rfl⟩
  refine ⟨_, role', _, hreach', h', List.mem_cons_self, h'.kpd, ?_, hgrows.cr3.trans hcr3, hw, ?_, ?_⟩
  · rw [hgrows.kept 512 (by simp [hn]), hn]
  · intro k hlo hhi
    have hk : k = 514 ∨ k = 515 := by omega
    rcases hk with rfl | rfl
    · exact Or.inr ⟨_, _, (hgrows.kept 514 (by simp [hf])).trans hf⟩
    · exact Or.inr ⟨_, _, hf'⟩
  · exact (hgrows.same 514 (Or.inr ⟨_, _, hf⟩)).zero hzero

/-- When kernel stacks have taken all pages but the last, it is the stack of the new program. But for
what is on the kernel stacks and in the page below the stack, which are all empty, this is a state
that a run reaches. -/
theorem stack_start : ∃ (x : Paging) (s : Vm) (role : ℕ → Role) (free : List ℕ),
    (paging .low).Reachable x ∧ (∀ k, k < 514 ∨ 32767 ≤ k → SamePage x.vm.mem s.mem k) ∧
    s.Owned .low role free ∧ role 256 = .dir ∧ role 512 = .dir ∧ s.cr3 = 256 * 4096 ∧
    s.walk 512 786431 = some 32767 ∧ Plain role 514 32768 ∧
    ∀ k, 514 ≤ k → k < 32767 → ZeroPage s.mem k := by
  obtain ⟨x₂, role₂, hreach₂, hdirs₂, h₂, hn₂, ht₂, hf₂, hcr3₂, hp₂, hframe₂, hnone₂, -⟩ := stack_table
  -- all pages but the last are taken
  obtain ⟨⟨s₃, dirs, kstacks⟩, role₃, hreach₃, hdirs₃, h₃, hmem₃, hcr3₃, hheld₃, hkept₃⟩ :=
    kstacks_run 32252 (c := 1) hreach₂ h₂
  have hmem : 512 * PGSIZE ∈ dirs := by
    have hsame : dirs = x₂.dirs := hdirs₃
    rw [hsame, hdirs₂]
    exact List.mem_cons_self
  have hn₃ : role₃ 512 = .dir := by rw [hkept₃ 512 (by simp [hn₂]), hn₂]
  have ht₃ : role₃ 513 = .table 512 (786431 / 1024) := by
    rw [hkept₃ 513 (by simp [ht₂]), ht₂]
  have hf₃ : role₃ 514 = .frame 512 786430 := by rw [hkept₃ 514 (by simp [hf₂]), hf₂]
  have hnone₃ : s₃.walk 512 786431 = none := by
    have hsame : s₃.walk 512 786431 = x₂.vm.walk 512 786431 := by
      rw [Vm.walk, Vm.walk, show s₃.mem = x₂.vm.mem from hmem₃]
    rw [hsame, hnone₂]
  rw [← hmem₃] at hp₂ hframe₂
  -- the last one becomes the stack
  obtain ⟨⟨⟩, s₄, hok₄, role₄, h₄, hgrows₄, hf₄, hw₄⟩ :=
    (vm_map_more (v := 786431) 7 h₃ hn₃ (by decide) le_rfl (by decide) (by decide) ht₃ hp₂
      hframe₂ hnone₃).returns
  have hreach₄ : (paging .low).Reachable ⟨s₄, dirs, kstacks⟩ :=
    hreach₃.step (l := .vm_map (512 * PGSIZE) (786431 * 4096) 4096 7)
      ⟨hmem, by decide, by decide, hok₄, rfl, rfl⟩
  have hn₄ : role₄ 512 = .dir := by rw [hgrows₄.kept 512 (by simp [hn₃]), hn₃]
  have hplain₃ (k : ℕ) (hlo : 514 ≤ k) (hhi : k < 32767) :
      role₄ k = .held ∨ ∃ d v, role₄ k = .frame d v := by
    by_cases hk : k = 514
    · rw [hk, hgrows₄.kept 514 (by simp [hf₃]), hf₃]
      exact Or.inr ⟨_, _, rfl⟩
    · have hheld := hheld₃ k (by omega) (by omega)
      rw [hgrows₄.kept k (by simp [hheld]), hheld]
      exact Or.inl rfl
  have hplain : Plain role₄ 514 32768 := by
    intro k hlo hhi
    by_cases hk : k = 32767
    · rw [hk]
      exact Or.inr ⟨_, _, hf₄⟩
    · exact hplain₃ k hlo (by omega)
  -- the pages that are taken are cleared
  obtain ⟨zeros, hzeros⟩ : ∃ zeros : List UInt8, zeros = List.replicate (32253 * 4096) 0 := ⟨_, rfl⟩
  have hlen : zeros.length = 32253 * 4096 := by rw [hzeros, List.length_replicate]
  have hcleared (k : ℕ) (hlo : 514 ≤ k) (hhi : k < 32767) :
      ZeroPage (s₄.put (514 * 4096) zeros).mem k := by
    intro r hr
    rw [put_mem, hzeros, ← Mem.fill_eq_splice]
    exact Mem.fill_in (by omega)
  have hothers (k : ℕ) (hk : k < 514 ∨ 32767 ≤ k) :
      SamePage s₄.mem (s₄.put (514 * 4096) zeros).mem k := by
    intro r hr
    exact Mem.splice_out (by omega)
  have h₅ : (s₄.put (514 * 4096) zeros).Owned .low role₄ _ := hplain.owned h₄ le_rfl (by omega)
  have hrest {k : ℕ} (hk : role₄ k ≠ .held ∧ ∀ d v, role₄ k ≠ .frame d v) :
      k < 514 ∨ 32767 ≤ k := by
    by_contra hin
    rcases hplain₃ k (by omega) (by omega) with hheld | ⟨d, v, hframe⟩
    · exact hk.1 hheld
    · exact hk.2 d v hframe
  have hwalk₅ : (s₄.put (514 * 4096) zeros).walk 512 786431 = some 32767 := by
    rw [h₄.walk_same hn₄ (by decide) ((hothers 512 (by decide)).entry (by decide)) ?_, hw₄]
    intro t ht
    apply (hothers t (hrest ?_)).entry (by decide)
    rcases ht with ht | ht <;> simp [ht]
  refine ⟨_, _, role₄, _, hreach₄, hothers, h₅, h₄.kpd, hn₄, ?_, hwalk₅, hplain, hcleared⟩
  rw [put_cr3, hgrows₄.cr3]
  exact hcr3₃.trans hcr3₂

/-! ### A block that is longer than its page -/

/-- Pushing the arguments changes nothing outside the frame of the stack page. -/
def StaysInPage (argv : List CString) : Prop :=
  ∀ (L : Statics) (s : Vm) (role : ℕ → Role) (free : List ℕ) (n p f esp : ℕ) (s' : Vm),
    s.Owned L role free → role p = .dir → role n = .dir → s.cr3 = p * PGSIZE →
    s.walk n (STACK_PAGE / PGSIZE) = some f → Vm.load_arg (n * PGSIZE) argv s = .ok (esp, s') →
    ∀ k, k ≠ f → SamePage s.mem s'.mem k

theorem stays_of_fits (hsize : argSize argv ≤ 4096) : StaysInPage argv := by
  intro L s role free n p f esp s' h hp hn hcr3 hw hok k hk
  have hpage : STACK_PAGE / PGSIZE = 786431 := by decide
  rw [hpage] at hw
  have hrole := h.frame hn (by decide) (by decide) hw
  obtain ⟨rfl, -⟩ :=
    (load_arg_block h hp hn hcr3 hw (.page hrole) le_rfl (by omega)).of_ok hok
  intro r hr
  exact block_out (by omega) (by omega) (by omega)

/-- More than 31 strings are not pushed. -/
theorem pushArgs_many (args : List CString) (a : ℕ) (vas : List ℕ) :
    wp (Vm.pushArgs args a vas) (fun _ _ => args = [] ∨ vas.length + args.length ≤ 31)
      (fun _ => True) s := by
  induction args generalizing a vas s with
  | nil => exact Or.inl rfl
  | cons arg args ih =>
    rw [Vm.pushArgs, wp_bind, wp_assert]
    refine ⟨fun hlt => ?_, fun _ => trivial⟩
    have hlt' : vas.length < 31 := hlt
    rw [wp_bind]
    refine wp_iff.mpr ⟨?_, fun _ _ => trivial⟩
    intro _ s₁ _
    refine (ih (Vm.down a (arg.1.length + 1)) (Vm.stackAddr (Vm.down a (arg.1.length + 1)) :: vas)).imp
      ?_
    intro top s' hs'
    right
    rw [List.length_cons] at hs' ⊢
    rcases hs' with rfl | hle
    · rw [List.length_nil]
      omega
    · omega

theorem stays_of_many (hmany : 31 < argv.length) : StaysInPage argv := by
  intro L s role free n p f esp s' _ _ _ _ _ hok
  have hnone : wp (Vm.load_arg (n * PGSIZE) argv) (fun _ _ => False) (fun _ => True) s := by
    rw [Vm.load_arg, wp_bind]
    refine wp_iff.mpr ⟨?_, fun _ _ => trivial⟩
    intro page s₁ _
    rw [Vm.pushBlock, wp_bind]
    refine (pushArgs_many argv _ []).imp ?_
    intro top s₂ hs₂
    rcases hs₂ with rfl | hle
    · cases hmany
    · rw [List.length_nil] at hle
      omega
  exact (hnone.of_ok hok).elim

/-- A block that is longer than its page goes on in the pages below it. -/
theorem not_stays (hlong : 4096 < argSize argv) (hmany : argv.length ≤ 31)
    (hroom : argSize argv ≤ 32254 * 4096) : ¬ StaysInPage argv := by
  intro hstays
  obtain ⟨-, s, role, free, -, -, h, hp, hn, hcr3, hw, hplain, hzero⟩ := stack_start
  have hpage : 786431 = STACK_PAGE / PGSIZE := by decide
  have hno (e : Abort) : ¬ (e = .tooManyArgs ∧ 31 < argv.length) := by
    intro he
    omega
  obtain ⟨esp, s', hok, hs', -⟩ := (load_arg_block (b := 514 * 4096) h hp hn hcr3 hw hplain le_rfl
    (by omega)).returns_of hno
  have hpos : 0 < argv.length := by
    rw [List.length_pos_iff]
    intro hnil
    rw [hnil] at hlong
    exact absurd hlong (by decide)
  -- the lowest word of the block is `argc`, and there was none
  have hargc : (s.block argv (32767 * 4096 + 4096)).mem.word _ = _ :=
    (block_start (by decide) (by omega)).1
  rw [← hs'] at hargc
  obtain ⟨a, ha⟩ : ∃ a, a = 32767 * 4096 + 4096 - argSize argv := ⟨_, rfl⟩
  have ha4 : a % 4 = 0 := by
    rw [ha, argSize]
    rw [argSize] at hroom
    omega
  rw [← ha] at hargc
  rw [hpage] at hw
  have hsame := hstays .low s role free 512 256 32767 esp s' h hp hn hcr3 hw hok (a / 4096) (by omega)
  have hnull : s'.mem.word a = 0 := by
    apply Mem.word_eq_of_zero
    intro k hk
    have hbyte := hsame (a % 4096 + k) (by omega)
    have haddr : a / 4096 * 4096 + (a % 4096 + k) = a + k := by omega
    rw [hzero (a / 4096) (by omega) (by omega) (a % 4096 + k) (by omega), haddr] at hbyte
    exact hbyte
  rw [hnull] at hargc
  have hcount := congrArg UInt32.toNat hargc
  rw [UInt32.toNat_ofNat', UInt32.toNat_zero] at hcount
  omega

/-- **The block stays in its page** exactly when it fits in there; more than 31 strings are refused.
What is longer than the pages of the kernel's heap has no place to go to. -/
theorem args_stay (hroom : argSize argv ≤ 32254 * PGSIZE) :
    StaysInPage argv ↔ argSize argv ≤ PGSIZE ∨ MAX_ARGS_NUM < argv.length := by
  constructor
  · intro hstays
    by_contra hnot
    rw [not_or] at hnot
    have hlong : 4096 < argSize argv := not_le.mp hnot.1
    exact not_stays hlong (not_lt.mp hnot.2) hroom hstays
  · intro hor
    rcases hor with hfits | hmany
    · exact stays_of_fits hfits
    · exact stays_of_many hmany

/-! ### Arguments of a page -/

/-- A string of `n` bytes. -/
def longArg (n : ℕ) : CString := ⟨List.replicate n 97, by
  intro hmem
  exact absurd (List.eq_of_mem_replicate hmem) (by decide)⟩

theorem length_longArg (n : ℕ) : (longArg n).1.length = n := List.length_replicate

/-- "ls" -/
def lsArg : CString := ⟨[108, 115], by decide⟩

theorem argSize_ls_long (n : ℕ) : argSize [lsArg, longArg n] = (n + 4 + 3) / 4 * 4 + 20 := by
  have hls : lsArg.1.length = 2 := rfl
  have hnil : argSpace [] = 0 := rfl
  rw [argSize, argSpace_cons, argSpace_cons, length_longArg, hls, hnil, List.length_cons,
    List.length_singleton]
  omega

/-- Two arguments that fill their page stay in there, and leave it with one byte more. -/
theorem args_stay_full : argSize [lsArg, longArg 4072] = PGSIZE ∧
    StaysInPage [lsArg, longArg 4072] ∧ ¬ StaysInPage [lsArg, longArg 4073] := by
  have hfull : argSize [lsArg, longArg 4072] = 4096 := argSize_ls_long 4072
  have hmore : argSize [lsArg, longArg 4073] = 4100 := argSize_ls_long 4073
  refine ⟨hfull, ?_, ?_⟩
  · refine (args_stay ?_).mpr (Or.inl hfull.le)
    rw [hfull]
    decide
  · intro hstays
    have hroom : argSize [lsArg, longArg 4073] ≤ 32254 * PGSIZE := by
      rw [hmore]
      decide
    rcases (args_stay hroom).mp hstays with hle | hmany
    · rw [hmore] at hle
      exact absurd hle (by decide)
    · exact absurd hmany (by decide)

theorem argSize_longArg : argSize [longArg 4096] = 4116 := by
  rw [argSize, argSpace_cons, length_longArg]
  rfl

/-- In a state that a run reaches, a string of the length of a page overwrites what is below the
stack page. -/
theorem args_leave : ¬ ∀ (argv : List CString) (x : Paging) (n f esp : ℕ) (s' : Vm),
    (paging .low).Reachable x → n * PGSIZE ∈ x.dirs → x.vm.walk n (STACK_PAGE / PGSIZE) = some f →
    Vm.load_arg (n * PGSIZE) argv x.vm = .ok (esp, s') →
    ∀ k, k ≠ f → SamePage x.vm.mem s'.mem k := by
  intro hall
  obtain ⟨x, role, free, hreach, h, hpd, hp, hn, hcr3, hw, hplain, hzero⟩ := stack_reached
  have hsize := argSize_longArg
  have hno (e : Abort) : ¬ (e = .tooManyArgs ∧ 31 < [longArg 4096].length) := by
    rintro ⟨-, hmany⟩
    exact absurd hmany (by decide)
  obtain ⟨esp, s', hok, hs', -⟩ := (load_arg_block (b := 514 * 4096) h hp hn hcr3 hw hplain
    le_rfl (by rw [hsize]; decide)).returns_of hno
  have hpage : 786431 = STACK_PAGE / PGSIZE := by decide
  rw [hpage] at hw
  -- the lowest word of the block is `argc`, and there was none
  have hargc : (x.vm.block [longArg 4096] (515 * 4096 + 4096)).mem.word _ = _ :=
    (block_start (by decide) (by rw [hsize]; decide)).1
  rw [← hs', hsize] at hargc
  have hsame := hall _ x 512 515 esp s' hreach hpd hw hok 514 (by decide)
  have hnull : s'.mem.word (515 * 4096 + 4096 - 4116) = 0 := by
    apply Mem.word_eq_of_zero
    intro k hk
    have hbyte := hsame (4076 + k) (by omega)
    rw [hzero (4076 + k) (by omega)] at hbyte
    have haddr : 515 * 4096 + 4096 - 4116 + k = 514 * 4096 + (4076 + k) := by omega
    rw [haddr]
    exact hbyte
  rw [hnull] at hargc
  exact absurd hargc (by decide)

/-- Two arguments for a program. -/
theorem args_round_trip_two : ∃ (x : Paging) (s' : Vm) (esp : ℕ), (paging .low).Reachable x ∧
    512 * PGSIZE ∈ x.dirs ∧ Vm.load_arg (512 * PGSIZE) [lsArg, longArg 4000] x.vm = .ok (esp, s') ∧
      s'.startArgs 512 esp = some [[108, 115], List.replicate 4000 97] ∧ esp % 4 = 0 := by
  obtain ⟨x, role, free, hreach, h, hpd, hp, hn, hcr3, hw, -⟩ := stack_reached
  have hpage : 786431 = STACK_PAGE / PGSIZE := by decide
  rw [hpage] at hw
  have hsome : (x.vm.walk 512 (STACK_PAGE / PGSIZE)).isSome := by
    rw [hw]
    rfl
  have hsize : argSize [lsArg, longArg 4000] + 4 ≤ PGSIZE := by
    rw [argSize_ls_long]
    decide
  obtain ⟨esp, s', hok, hargs, hesp, -⟩ := args_round_trip h hp hn hcr3 hsome (by decide) hsize
  exact ⟨x, s', esp, hreach, hpd, hok, hargs, hesp⟩

end Oslab
