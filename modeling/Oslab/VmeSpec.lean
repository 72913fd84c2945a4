/-
# Who owns a page

Every page of the heap is free, held by the kernel, or plays one part in one
address space: a page directory, a page table or a frame. Each operation of
`vme.c` keeps the parts of the pages it does not take out of the free list, so
no page ever plays two.
-/
import Oslab.Vme

namespace Oslab

open Lib Lib.Prog

variable {m m' : Mem} {s s' : Vm} {n n' i j v k : ℕ} {w : UInt32}

/-! ### Entries -/

/-- The frame that an entry names. -/
def frameOf (pte : UInt32) : ℕ := pte.toNat / 4096

theorem PAGE_DOWN_page (n : ℕ) : PAGE_DOWN (n * 4096) = n * 4096 := by
  rw [PAGE_DOWN, Nat.mul_div_cancel n (by decide)]

theorem toNat_MAKE_PTE (hn : n < 2 ^ 20) {prot : ℕ} (hprot : prot ≤ 7) :
    (MAKE_PTE (n * 4096) prot).toNat = n * 4096 + (prot ||| 1) := by
  have hlow : prot ||| 1 < 2 ^ 12 := by
    refine lt_of_lt_of_le (Nat.or_lt_two_pow (n := 3) ?_ ?_) (by decide)
    · omega
    · decide
  rw [MAKE_PTE, PAGE_DOWN_page, Nat.or_assoc]
  have hor : n * 4096 ||| (prot ||| 1) = n * 4096 + (prot ||| 1) := by
    have hshift := Nat.shiftLeft_add_eq_or_of_lt hlow n
    rw [Nat.shiftLeft_eq] at hshift
    exact hshift.symm
  rw [hor, UInt32.toNat_ofNat']
  refine Nat.mod_eq_of_lt ?_
  omega

theorem frameOf_MAKE_PTE (hn : n < 2 ^ 20) {prot : ℕ} (hprot : prot ≤ 7) :
    frameOf (MAKE_PTE (n * 4096) prot) = n := by
  have hlow : prot ||| 1 < 2 ^ 12 := by
    refine lt_of_lt_of_le (Nat.or_lt_two_pow (n := 3) ?_ ?_) (by decide)
    · omega
    · decide
  rw [frameOf, toNat_MAKE_PTE hn hprot]
  omega

theorem present_iff (pte : UInt32) : present pte ↔ pte.toNat % 2 = 1 := by
  have hand : (pte &&& 1).toNat = pte.toNat % 2 := by
    rw [UInt32.toNat_and]
    exact Nat.and_one_is_mod _
  unfold present
  rw [ne_eq, ← UInt32.toNat_inj, hand]
  change ¬ pte.toNat % 2 = 0 ↔ _
  omega

theorem present_MAKE_PTE (hn : n < 2 ^ 20) {prot : ℕ} (hprot : prot ≤ 7) :
    present (MAKE_PTE (n * 4096) prot) := by
  have hodd : (prot ||| 1) % 2 = 1 := by
    rw [← Nat.and_one_is_mod, Nat.and_or_distrib_right]
    have hone : 1 &&& 1 = 1 := rfl
    rw [hone]
    have hcases : prot &&& 1 = 0 ∨ prot &&& 1 = 1 := by
      rw [Nat.and_one_is_mod]
      omega
    rcases hcases with h | h <;> rw [h] <;> rfl
  rw [present_iff, toNat_MAKE_PTE hn hprot]
  omega

theorem not_present_zero : ¬ present 0 := by decide

/-! ### Pages of memory -/

/-- The entry `i` of page `n`. -/
def pteAt (m : Mem) (n i : ℕ) : UInt32 := m.word (n * 4096 + 4 * i)

/-- The page is the same in both memories. -/
def SamePage (m m' : Mem) (n : ℕ) : Prop := ∀ k < 4096, m' (n * 4096 + k) = m (n * 4096 + k)

/-- The page is all zeros. -/
def ZeroPage (m : Mem) (n : ℕ) : Prop := ∀ k < 4096, m (n * 4096 + k) = 0

theorem SamePage.refl (m : Mem) (n : ℕ) : SamePage m m n := fun _ _ => rfl

theorem SamePage.trans {m'' : Mem} (h : SamePage m m' n) (h' : SamePage m' m'' n) :
    SamePage m m'' n := fun k hk => (h' k hk).trans (h k hk)

theorem SamePage.zero (h : SamePage m m' n) (hzero : ZeroPage m n) : ZeroPage m' n :=
  fun k hk => (h k hk).trans (hzero k hk)

theorem SamePage.entry (h : SamePage m m' n) (hi : i < 1024) : pteAt m' n i = pteAt m n i := by
  refine Mem.word_congr fun k hk => ?_
  have hk' := h (4 * i + k) (by omega)
  rwa [← Nat.add_assoc] at hk'

theorem ZeroPage.entry (h : ZeroPage m n) (hi : i < 1024) : pteAt m n i = 0 := by
  refine Mem.word_eq_of_zero fun k hk => ?_
  have hk' := h (4 * i + k) (by omega)
  rwa [← Nat.add_assoc] at hk'

theorem samePage_splice {a : ℕ} {bs : List UInt8} (hlo : n * 4096 ≤ a)
    (hhi : a + bs.length ≤ (n + 1) * 4096) (hne : n' ≠ n) : SamePage m (m.splice a bs) n' := by
  intro k hk
  refine Mem.splice_out ?_
  rcases Nat.lt_or_gt_of_ne hne with h | h
  · left
    have hle : (n' + 1) * 4096 ≤ n * 4096 := Nat.mul_le_mul_right _ h
    omega
  · right
    have hle : (n + 1) * 4096 ≤ n' * 4096 := Nat.mul_le_mul_right _ h
    omega

theorem samePage_store (hi : i < 1024) (hne : n' ≠ n) :
    SamePage m (m.splice (n * 4096 + 4 * i) (Mem.wordBytes w)) n' := by
  refine samePage_splice (by omega) ?_ hne
  rw [Mem.length_wordBytes]
  omega

theorem samePage_memset (hne : n' ≠ n) : SamePage m (m.fill (n * 4096) 4096 0) n' := by
  rw [Mem.fill_eq_splice]
  refine samePage_splice le_rfl ?_ hne
  rw [List.length_replicate]
  omega

theorem zeroPage_memset : ZeroPage (m.fill (n * 4096) 4096 0) n :=
  fun k hk => Mem.fill_in ⟨by omega, by omega⟩

theorem entry_store_self :
    pteAt (m.splice (n * 4096 + 4 * i) (Mem.wordBytes w)) n i = w := Mem.word_splice_self w

theorem entry_store_ne (hne : j ≠ i) :
    pteAt (m.splice (n * 4096 + 4 * i) (Mem.wordBytes w)) n j = pteAt m n j := by
  refine Mem.word_splice_out ?_
  rw [Mem.length_wordBytes]
  omega

/-! ### The parts that pages play -/

/-- What a page is used for. -/
inductive Role
  /-- a page of the kernel image -/
  | kernel
  | free
  /-- a page the kernel has allocated and not linked: a kernel stack -/
  | held
  | dir
  /-- the page table for entry `i` of directory `pd` -/
  | table (pd i : ℕ)
  /-- the frame of page `v` in the address space of directory `pd` -/
  | frame (pd v : ℕ)
  deriving DecidableEq

/-- The free pages, linked through their first words. -/
def Chain (m : Mem) : ℕ → List ℕ → Prop
  | a, [] => a = 0
  | a, n :: ns => a = n * 4096 ∧ Chain m (pteAt m n 0).toNat ns

theorem Chain.congr {ns : List ℕ} {a : ℕ} (h : Chain m a ns)
    (hsame : ∀ n ∈ ns, SamePage m m' n) : Chain m' a ns := by
  induction ns generalizing a with
  | nil => exact h
  | cons n ns ih =>
    refine ⟨h.1, ?_⟩
    rw [(hsame n List.mem_cons_self).entry (by decide)]
    exact ih h.2 fun n' hn' => hsame n' (List.mem_cons_of_mem _ hn')

/-- Every page plays its part. -/
structure Vm.Owned (s : Vm) (L : Statics) (role : ℕ → Role) (free : List ℕ) : Prop where
  heap : ∀ n, role n ≠ .kernel → n = L.kpd ∨ 512 ≤ n ∧ n < 32768
  chain : Chain s.mem s.free_page_list free
  nodup : free.Nodup
  free : ∀ n, n ∈ free ↔ role n = .free
  kpd : role L.kpd = .dir
  kpt : ∀ i < 32, ∀ j < 1024, pteAt s.mem (L.kpt + i) j =
    if i = 0 ∧ j = 0 then 0 else MAKE_PTE ((i * 1024 + j) * 4096) 3
  low : ∀ n, role n = .dir → ∀ i < 32, pteAt s.mem n i = MAKE_PTE ((L.kpt + i) * 4096) 3
  high : ∀ n, role n = .dir → ∀ i, 32 ≤ i → i < 1024 → present (pteAt s.mem n i) →
    role (frameOf (pteAt s.mem n i)) = .table n i
  table : ∀ t n i, role t = .table n i → ∀ j < 1024, present (pteAt s.mem t j) →
    role (frameOf (pteAt s.mem t j)) = .frame n (i * 1024 + j)

variable {L : Statics} {role role' : ℕ → Role} {free : List ℕ}

namespace Vm.Owned

theorem lt (h : s.Owned L role free) (hn : role n ≠ .kernel) : n < 32768 := by
  rcases h.heap n hn with rfl | ⟨-, hlt⟩
  · exact lt_trans L.kpd_lt (by decide)
  · exact hlt

theorem pos (h : s.Owned L role free) (hn : role n ≠ .kernel) : 0 < n := by
  rcases h.heap n hn with rfl | ⟨hle, -⟩
  · exact L.kpd_pos
  · exact lt_of_lt_of_le (by decide) hle

theorem kernel (h : s.Owned L role free) (hi : i < 32) :
    role (L.kpt + i) = .kernel := by
  by_contra hne
  have hlt : L.kpt + 32 ≤ 512 := L.kpt_lt
  rcases h.heap _ hne with heq | ⟨hle, -⟩
  · have hapart : L.kpd < L.kpt ∨ L.kpt + 32 ≤ L.kpd := L.apart
    omega
  · omega

/-- Pages that no entry and no link is read from may change. -/
theorem write (h : s.Owned L role free) (hmem : s'.mem = m') (hfree : s'.free_page_list = s.free_page_list)
    (hsame : ∀ n, role n = .held ∨ (∃ pd v, role n = .frame pd v) ∨ SamePage s.mem m' n) :
    s'.Owned L role free := by
  subst hmem
  have hpage {n : ℕ} (hheld : role n ≠ .held) (hframe : ∀ pd v, role n ≠ .frame pd v) :
      SamePage s.mem s'.mem n := by
    rcases hsame n with hn | ⟨pd, v, hn⟩ | hn
    · exact (hheld hn).elim
    · exact (hframe pd v hn).elim
    · exact hn
  have hdir {n : ℕ} (hn : role n = .dir) : SamePage s.mem s'.mem n :=
    hpage (by simp [hn]) (by simp [hn])
  refine ⟨h.heap, ?_, h.nodup, h.free, h.kpd, fun i hi j hj => ?_, fun n hn i hi => ?_,
    fun n hn i hlo hi hp => ?_, fun t n i ht j hj hp => ?_⟩
  · rw [hfree]
    refine h.chain.congr fun n hn => ?_
    have hrole := (h.free n).mp hn
    exact hpage (by simp [hrole]) (by simp [hrole])
  · have hrole := h.kernel hi
    rw [(hpage (by simp [hrole]) (by simp [hrole])).entry hj]
    exact h.kpt i hi j hj
  · rw [(hdir hn).entry (by omega)]
    exact h.low n hn i hi
  · rw [(hdir hn).entry hi] at hp ⊢
    exact h.high n hn i hlo hi hp
  · have htable : SamePage s.mem s'.mem t := hpage (by simp [ht]) (by simp [ht])
    rw [htable.entry hj] at hp ⊢
    exact h.table t n i ht j hj hp

theorem set_cr3 (h : s.Owned L role free) (a : ℕ) : ({ s with cr3 := a } : Vm).Owned L role free :=
  h.write rfl rfl fun k => Or.inr (Or.inr (.refl _ k))

/-- A page comes out of the free list. -/
theorem take (h : s.Owned L role (n :: free)) (hmem : s'.mem = s.mem)
    (hfree : s'.free_page_list = (pteAt s.mem n 0).toNat) :
    s'.Owned L (Function.update role n .held) free := by
  have hn : role n = .free := (h.free n).mp List.mem_cons_self
  have hnd := List.nodup_cons.mp h.nodup
  -- the parts of other pages do not name this one
  have hother {k : ℕ} {r : Role} (hr : r ≠ .free) (hk : role k = r) :
      Function.update role n .held k = r := by
    rw [Function.update_of_ne, hk]
    rintro rfl
    exact hr (hk.symm.trans hn)
  have hback {k : ℕ} {r : Role} (hr : r ≠ .held) (hk : Function.update role n .held k = r) :
      role k = r := by
    by_cases hkn : k = n
    · subst hkn
      rw [Function.update_self] at hk
      exact (hr hk.symm).elim
    · rwa [Function.update_of_ne hkn] at hk
  refine ⟨fun k hk => ?_, ?_, hnd.2, fun k => ?_, hother (by simp) h.kpd, ?_, fun k hk => ?_,
    fun k hk i hlo hi hp => ?_, fun t k i ht j hj hp => ?_⟩
  · by_cases hkn : k = n
    · subst hkn
      exact h.heap k (by simp [hn])
    · rw [Function.update_of_ne hkn] at hk
      exact h.heap k hk
  · rw [hmem, hfree]
    exact h.chain.2
  · by_cases hkn : k = n
    · subst hkn
      rw [Function.update_self]
      exact iff_of_false hnd.1 (by simp)
    · rw [Function.update_of_ne hkn, ← h.free, List.mem_cons, or_iff_right hkn]
  · rw [hmem]
    exact h.kpt
  · rw [hmem]
    exact h.low k (hback (by simp) hk)
  · rw [hmem] at hp ⊢
    exact hother (by simp) (h.high k (hback (by simp) hk) i hlo hi hp)
  · rw [hmem] at hp ⊢
    exact hother (by simp) (h.table t k i (hback (by simp) ht) j hj hp)

/-- A page that is held gets another part, if what it holds fits it. -/
theorem assign (h : s.Owned L role free) (hn : role n = .held) {r : Role} (hf : r ≠ .free)
    (hdir : r = .dir → (∀ i < 32, pteAt s.mem n i = MAKE_PTE ((L.kpt + i) * 4096) 3) ∧
      ∀ i, 32 ≤ i → i < 1024 → ¬ present (pteAt s.mem n i))
    (htable : ∀ pd i, r = .table pd i → ∀ j < 1024, ¬ present (pteAt s.mem n j)) :
    s.Owned L (Function.update role n r) free := by
  have hother {k : ℕ} {r' : Role} (hr : r' ≠ .held) (hk : role k = r') :
      Function.update role n r k = r' := by
    rw [Function.update_of_ne, hk]
    rintro rfl
    exact hr (hk.symm.trans hn)
  refine ⟨fun k hk' => ?_, h.chain, h.nodup, fun k => ?_, hother (by simp) h.kpd, h.kpt,
    fun k hk' => ?_, fun k hk' i hlo hi hp => ?_, fun t k i ht j hj hp => ?_⟩
  · by_cases hkn : k = n
    · subst hkn
      exact h.heap k (by simp [hn])
    · rw [Function.update_of_ne hkn] at hk'
      exact h.heap k hk'
  · by_cases hkn : k = n
    · subst hkn
      rw [Function.update_self, h.free, hn]
      exact iff_of_false (by simp) hf
    · rw [Function.update_of_ne hkn]
      exact h.free k
  · by_cases hkn : k = n
    · subst hkn
      rw [Function.update_self] at hk'
      exact (hdir hk').1
    · rw [Function.update_of_ne hkn] at hk'
      exact h.low k hk'
  · by_cases hkn : k = n
    · subst hkn
      rw [Function.update_self] at hk'
      exact ((hdir hk').2 i hlo hi hp).elim
    · rw [Function.update_of_ne hkn] at hk'
      exact hother (by simp) (h.high k hk' i hlo hi hp)
  · by_cases htn : t = n
    · subst htn
      rw [Function.update_self] at ht
      exact (htable k i ht j hj hp).elim
    · rw [Function.update_of_ne htn] at ht
      exact hother (by simp) (h.table t k i ht j hj hp)

/-- A directory gets a page table. -/
theorem linkTable (h : s.Owned L role free) (hn : role n = .dir) (hlo : 32 ≤ i) (hi : i < 1024)
    {t : ℕ} (ht : role t = .table n i) (hframe : frameOf w = t)
    (hmem : s'.mem = s.mem.splice (n * 4096 + 4 * i) (Mem.wordBytes w))
    (hfree : s'.free_page_list = s.free_page_list) : s'.Owned L role free := by
  have hpage {k : ℕ} (hk : role k ≠ .dir) : SamePage s.mem s'.mem k := by
    rw [hmem]
    refine samePage_store hi ?_
    rintro rfl
    exact hk hn
  have hentry {k j : ℕ} (hk : role k = .dir) (hj : j < 1024) (hne : ¬ (k = n ∧ j = i)) :
      pteAt s'.mem k j = pteAt s.mem k j := by
    by_cases hkn : k = n
    · subst hkn
      rw [hmem, entry_store_ne fun hji => hne ⟨rfl, hji⟩]
    · have hsame : SamePage s.mem s'.mem k := by
        rw [hmem]
        exact samePage_store hi hkn
      exact hsame.entry hj
  refine ⟨h.heap, ?_, h.nodup, h.free, h.kpd, fun i' hi' j hj => ?_, fun k hk i' hi' => ?_,
    fun k hk i' hlo' hi' hp => ?_, fun t' k i' ht' j hj hp => ?_⟩
  · rw [hfree]
    refine h.chain.congr fun k hk => hpage ?_
    rw [(h.free k).mp hk]
    simp
  · rw [(hpage (by simp [h.kernel hi'])).entry hj]
    exact h.kpt i' hi' j hj
  · rw [hentry hk (by omega) (by omega)]
    exact h.low k hk i' hi'
  · by_cases heq : k = n ∧ i' = i
    · obtain ⟨rfl, rfl⟩ := heq
      rw [hmem, entry_store_self, hframe]
      exact ht
    · rw [hentry hk hi' heq] at hp ⊢
      exact h.high k hk i' hlo' hi' hp
  · rw [(hpage (by simp [ht'])).entry hj] at hp ⊢
    exact h.table t' k i' ht' j hj hp

/-- A page table gets a frame. -/
theorem linkFrame (h : s.Owned L role free) {t f : ℕ} (ht : role t = .table n i) (hj : j < 1024)
    (hf : role f = .frame n (i * 1024 + j)) (hframe : frameOf w = f)
    (hmem : s'.mem = s.mem.splice (t * 4096 + 4 * j) (Mem.wordBytes w))
    (hfree : s'.free_page_list = s.free_page_list) : s'.Owned L role free := by
  have hpage {k : ℕ} (hk : k ≠ t) : SamePage s.mem s'.mem k := by
    rw [hmem]
    exact samePage_store hj hk
  have hrole {k : ℕ} {r : Role} (hk : role k = r) (hr : r ≠ .table n i) : k ≠ t := by
    rintro rfl
    exact hr (hk.symm.trans ht)
  refine ⟨h.heap, ?_, h.nodup, h.free, h.kpd, fun i' hi' j' hj' => ?_, fun k hk i' hi' => ?_,
    fun k hk i' hlo' hi' hp => ?_, fun t' k i' ht' j' hj' hp => ?_⟩
  · rw [hfree]
    exact h.chain.congr fun k hk => hpage (hrole ((h.free k).mp hk) (by simp))
  · rw [(hpage (hrole (h.kernel hi') (by simp))).entry hj']
    exact h.kpt i' hi' j' hj'
  · rw [(hpage (hrole hk (by simp))).entry (by omega)]
    exact h.low k hk i' hi'
  · rw [(hpage (hrole hk (by simp))).entry hi'] at hp ⊢
    exact h.high k hk i' hlo' hi' hp
  · by_cases htt : t' = t
    · subst htt
      rw [ht] at ht'
      cases ht'
      by_cases hjj : j' = j
      · subst hjj
        rw [hmem, entry_store_self, hframe]
        exact hf
      · rw [hmem, entry_store_ne hjj] at hp ⊢
        exact h.table t' n i ht j' hj' hp
    · rw [(hpage htt).entry hj'] at hp ⊢
      exact h.table t' k i' ht' j' hj' hp

end Vm.Owned

/-! ### Address spaces -/

/-- The frame of page `v` in the address space of directory `n`. -/
def Vm.walk (s : Vm) (n v : ℕ) : Option ℕ :=
  if present (pteAt s.mem n (v / 1024)) then
    if present (pteAt s.mem (frameOf (pteAt s.mem n (v / 1024))) (v % 1024)) then
      some (frameOf (pteAt s.mem (frameOf (pteAt s.mem n (v / 1024))) (v % 1024)))
    else none
  else none

variable {d f t : ℕ}

/-- A frame belongs to one page of one address space. -/
theorem Vm.Owned.frame (h : s.Owned L role free) (hn : role n = .dir) (hlo : 32768 ≤ v)
    (hhi : v < 2 ^ 20) (hf : s.walk n v = some f) : role f = .frame n v := by
  unfold Vm.walk at hf
  split at hf
  case isFalse => cases hf
  case isTrue hpde =>
    split at hf
    case isFalse => cases hf
    case isTrue hpte =>
      cases hf
      have ht := h.high n hn (v / 1024) (by omega) (by omega) hpde
      have hframe := h.table _ n (v / 1024) ht (v % 1024) (by omega) hpte
      rwa [Nat.div_add_mod' v 1024] at hframe

/-- What a walk reads is unchanged. -/
theorem Vm.Owned.walk_same (h : s.Owned L role free) (hd : role d = .dir) (hv : v < 2 ^ 20)
    (hdir : pteAt s'.mem d (v / 1024) = pteAt s.mem d (v / 1024))
    (htable : ∀ t, role t = .table d (v / 1024) ∨ role t = .kernel →
      pteAt s'.mem t (v % 1024) = pteAt s.mem t (v % 1024)) : s'.walk d v = s.walk d v := by
  unfold Vm.walk
  rw [hdir]
  by_cases hp : present (pteAt s.mem d (v / 1024))
  · rw [if_pos hp, if_pos hp, htable]
    by_cases hlo : v / 1024 < 32
    · right
      rw [h.low d hd _ hlo, frameOf_MAKE_PTE _ (by decide)]
      · exact h.kernel hlo
      · have hlt : L.kpt + 32 ≤ 512 := L.kpt_lt
        omega
    · left
      exact h.high d hd _ (by omega) (by omega) hp
  · rw [if_neg hp, if_neg hp]

/-- An operation on directory `n` has taken pages out of the free list and mapped the pages in `R`
that were not mapped, and nothing else has changed. -/
structure Grows (s : Vm) (role : ℕ → Role) (s' : Vm) (role' : ℕ → Role) (n : ℕ) (R : ℕ → Prop) :
    Prop where
  kept : ∀ k, role k ≠ .free → role' k = role k
  same : ∀ k, role k = .held ∨ (∃ pd v, role k = .frame pd v) → SamePage s.mem s'.mem k
  cr3 : s'.cr3 = s.cr3
  other : ∀ d v, role d = .dir → v < 2 ^ 20 → d ≠ n ∨ ¬ R v → s'.walk d v = s.walk d v
  old : ∀ v f, v < 2 ^ 20 → s.walk n v = some f → s'.walk n v = some f
  new : ∀ v, v < 2 ^ 20 → R v → s.walk n v = none →
    ∃ f, s'.walk n v = some f ∧ role f = .free ∧ ZeroPage s'.mem f

namespace Grows

variable {s'' : Vm} {role'' : ℕ → Role} {R R' : ℕ → Prop}

theorem refl (hR : ∀ v, R v → s.walk n v ≠ none) : Grows s role s role n R :=
  ⟨fun _ _ => rfl, fun _ _ => .refl _ _, rfl, fun _ _ _ _ _ => rfl, fun _ _ _ h => h,
    fun v _ hv hnone => (hR v hv hnone).elim⟩

theorem trans (h : Grows s role s' role' n R) (h' : Grows s' role' s'' role'' n R')
    (hs' : s'.Owned L role' free) (hn : role n = .dir) (hR : ∀ v, R v → 32768 ≤ v) :
    Grows s role s'' role'' n fun v => R v ∨ R' v := by
  have hn' : role' n = .dir := by rw [h.kept n (by simp [hn]), hn]
  have hfree {k : ℕ} (hk : role' k = .free) : role k = .free := by
    by_contra hne
    rw [h.kept k hne] at hk
    exact hne hk
  refine ⟨fun k hk => ?_, fun k hk => ?_, h'.cr3.trans h.cr3, fun d v hd hv hnot => ?_,
    fun v f hv hf => h'.old v f hv (h.old v f hv hf), fun v hv hvR hnone => ?_⟩
  · have hk' := h.kept k hk
    rw [h'.kept k (by rwa [hk']), hk']
  · have hne : role k ≠ .free := by
      rcases hk with hk | ⟨pd, v, hk⟩ <;> simp [hk]
    refine (h.same k hk).trans (h'.same k ?_)
    rwa [h.kept k hne]
  · have hd' : role' d = .dir := by rw [h.kept d (by simp [hd]), hd]
    rw [h'.other d v hd' hv (by tauto), h.other d v hd hv (by tauto)]
  · cases hw : s'.walk n v with
    | some f =>
      -- the first operation has mapped it, and the second leaves the frame alone
      have hvR' : R v := by
        by_contra hnot
        rw [h.other n v hn hv (Or.inr hnot), hnone] at hw
        cases hw
      obtain ⟨f', hf', hfree', hzero⟩ := h.new v hv hvR' hnone
      rw [hw] at hf'
      cases hf'
      refine ⟨f, h'.old v f hv hw, hfree', ?_⟩
      exact (h'.same f (Or.inr ⟨n, v, hs'.frame hn' (hR v hvR') hv hw⟩)).zero hzero
    | none =>
      have hvR' : R' v := by
        rcases hvR with hvR | hvR
        · obtain ⟨f', hf', -⟩ := h.new v hv hvR hnone
          rw [hw] at hf'
          cases hf'
        · exact hvR
      obtain ⟨f, hf, hfree', hzero⟩ := h'.new v hv hvR' hw
      exact ⟨f, hf, hfree hfree', hzero⟩

theorem mono (h : Grows s role s' role' n R) (hR : ∀ v, R v ↔ R' v) :
    Grows s role s' role' n R' := by
  have heq : R = R' := funext fun v => propext (hR v)
  exact heq ▸ h

end Grows

/-! ### The heap -/

/-- `kalloc` takes the first page out of the free list. -/
theorem kalloc_spec (h : s.Owned L role free) : wp kalloc (fun a s' => ∃ n rest, free = n :: rest ∧
    a = n * 4096 ∧ role n = .free ∧ s'.mem = s.mem ∧ s'.cr3 = s.cr3 ∧
    s'.Owned L (Function.update role n .held) rest) (fun e => e = .noPage ∧ free = []) s := by
  rw [kalloc, wp_bind, wp_read, wp_bind, wp_assert]
  have hchain := h.chain
  cases free with
  | nil =>
    have hzero : s.free_page_list = 0 := hchain
    exact ⟨fun hne => (hne hzero).elim, fun _ => ⟨rfl, rfl⟩⟩
  | cons n rest =>
    have hn : role n = .free := (h.free n).mp List.mem_cons_self
    have hpos := h.pos (n := n) (by simp [hn])
    have ha : s.free_page_list = n * 4096 := hchain.1
    refine ⟨fun _ => ?_, fun hzero => ?_⟩
    · have hnext : pteAt s.mem n 0 = s.mem.word (n * 4096) := by
        rw [pteAt, Nat.mul_zero, Nat.add_zero]
      rw [wp_bind, load, wp_read, wp_bind, wp_update, wp_pure, ha, ← hnext]
      exact ⟨n, rest, rfl, rfl, hn, rfl, rfl, h.take rfl rfl⟩
    · rw [not_not, ha] at hzero
      omega

/-- A page table without entries. -/
theorem zero_absent (h : ZeroPage m n) (hi : i < 1024) : ¬ present (pteAt m n i) := by
  rw [h.entry hi]
  exact not_present_zero

/-- The entry for a page is found in the page table that is there. -/
theorem vm_walkpte_present {prot : ℕ} (hprot : prot ≤ 7)
    (hp : present (pteAt s.mem n (v / 1024))) {F : Abort → Prop} :
    wp (vm_walkpte (n * 4096) (v * 4096) prot) (fun r s' => s' = s ∧
      r = some (frameOf (pteAt s.mem n (v / 1024)) * 4096 + 4 * (v % 1024))) F s := by
  have hdir : ADDR2DIR (v * 4096) = v / 1024 := by
    change v * 4096 / 4194304 = v / 1024
    omega
  have htbl : ADDR2TBL (v * 4096) = v % 1024 := by
    change v * 4096 / 4096 % 1024 = v % 1024
    omega
  rw [vm_walkpte, hdir, htbl, wp_bind, wp_assert]
  refine ⟨fun _ => ?_, fun hnot => (hnot hprot).elim⟩
  rw [wp_bind, load, wp_read]
  change wp (if present (pteAt s.mem n (v / 1024)) then _ else _) _ _ _
  rw [if_pos hp, wp_pure]
  exact ⟨rfl, rfl⟩

/-- Without a page table there is no entry, and none is made. -/
theorem vm_walkpte_absent (hp : ¬ present (pteAt s.mem n (v / 1024)))
    {F : Abort → Prop} :
    wp (vm_walkpte (n * 4096) (v * 4096) 0) (fun r s' => s' = s ∧ r = none) F s := by
  have hdir : ADDR2DIR (v * 4096) = v / 1024 := by
    change v * 4096 / 4194304 = v / 1024
    omega
  rw [vm_walkpte, hdir, wp_bind, wp_assert]
  refine ⟨fun _ => ?_, fun hnot => (hnot (Nat.zero_le _)).elim⟩
  rw [wp_bind, load, wp_read]
  change wp (if present (pteAt s.mem n (v / 1024)) then _ else _) _ _ _
  rw [if_neg hp, if_pos rfl, wp_pure]
  exact ⟨rfl, rfl⟩

/-- A page table is made. -/
theorem vm_walkpte_new (h : s.Owned L role free) (hn : role n = .dir) {prot : ℕ} (hprot : prot ≤ 7)
    (hpos : prot ≠ 0) (hlo : 32768 ≤ v) (hv : v < 2 ^ 20)
    (hp : ¬ present (pteAt s.mem n (v / 1024))) :
    wp (vm_walkpte (n * 4096) (v * 4096) prot) (fun r s' => ∃ t rest, free = t :: rest ∧
      r = some (t * 4096 + 4 * (v % 1024)) ∧
      s'.Owned L (Function.update role t (.table n (v / 1024))) rest ∧
      Grows s role s' (Function.update role t (.table n (v / 1024))) n (fun _ => False) ∧
      present (pteAt s'.mem n (v / 1024)) ∧ frameOf (pteAt s'.mem n (v / 1024)) = t ∧
      ZeroPage s'.mem t) (fun e => e = .noPage ∧ free = []) s := by
  have hdir : ADDR2DIR (v * 4096) = v / 1024 := by
    change v * 4096 / 4194304 = v / 1024
    omega
  have htbl : ADDR2TBL (v * 4096) = v % 1024 := by
    change v * 4096 / 4096 % 1024 = v % 1024
    omega
  have hi : v / 1024 < 1024 := by omega
  rw [vm_walkpte, hdir, htbl, wp_bind, wp_assert]
  refine ⟨fun _ => ?_, fun hnot => (hnot hprot).elim⟩
  rw [wp_bind, load, wp_read]
  change wp (if present (pteAt s.mem n (v / 1024)) then _ else _) _ _ _
  rw [if_neg hp, if_neg hpos, wp_bind]
  refine (kalloc_spec h).imp ?_
  rintro a s₁ ⟨t, rest, rfl, rfl, ht, hmem₁, hcr3₁, h₁⟩
  have htn : t ≠ n := by
    rintro rfl
    rw [ht] at hn
    cases hn
  have htlt : t < 2 ^ 20 := by
    have hlt := h.lt (n := t) (by simp [ht])
    omega
  rw [wp_bind, memset, wp_update, wp_bind, store, wp_update, wp_bind, wp_read, wp_pure]
  set w := MAKE_PTE (t * 4096) prot with hw
  -- the page is cleared, becomes a table and is linked
  set s₂ : Vm := { s₁ with mem := s₁.mem.fill (t * 4096) 4096 0 } with hs₂
  have hzero : ZeroPage s₂.mem t := zeroPage_memset
  have hsame₂ {k : ℕ} (hk : k ≠ t) : SamePage s.mem s₂.mem k := by
    rw [← hmem₁]
    exact samePage_memset hk
  have h₂ : s₂.Owned L (Function.update role t .held) rest := by
    refine h₁.write rfl rfl fun k => ?_
    by_cases hk : k = t
    · subst hk
      exact Or.inl (Function.update_self _ _ _)
    · exact Or.inr (Or.inr (samePage_memset hk))
  have h₃ := h₂.assign (Function.update_self _ _ _) (r := .table n (v / 1024)) (by simp)
    (by simp) fun _ _ _ j hj => zero_absent hzero hj
  rw [Function.update_idem] at h₃
  set s₃ : Vm := { s₂ with mem := s₂.mem.splice (n * 4096 + 4 * (v / 1024)) (Mem.wordBytes w) } with hs₃
  have hself : pteAt s₃.mem n (v / 1024) = w := entry_store_self
  have hsame₃ {k : ℕ} (hkn : k ≠ n) : SamePage s₂.mem s₃.mem k := samePage_store hi hkn
  have h₄ : s₃.Owned L (Function.update role t (.table n (v / 1024))) rest := by
    refine h₃.linkTable (w := w) ?_ (by omega) hi (Function.update_self _ _ _)
      (frameOf_MAKE_PTE htlt hprot) rfl rfl
    rw [Function.update_of_ne htn.symm, hn]
  have hsame {k : ℕ} (hkt : k ≠ t) (hkn : k ≠ n) : SamePage s.mem s₃.mem k :=
    (hsame₂ hkt).trans (hsame₃ hkn)
  have hnfree {k : ℕ} (hk : role k ≠ .free) : k ≠ t := by
    rintro rfl
    exact hk ht
  have hwalk (d v' : ℕ) (hd : role d = .dir) (hv' : v' < 2 ^ 20) : s₃.walk d v' = s.walk d v' := by
    by_cases heq : d = n ∧ v' / 1024 = v / 1024
    · obtain ⟨rfl, hvi⟩ := heq
      have hnone : ¬ present (pteAt s₃.mem t (v' % 1024)) :=
        zero_absent ((hsame₃ htn).zero hzero) (by omega)
      have hframe : frameOf w = t := frameOf_MAKE_PTE htlt hprot
      unfold Vm.walk
      rw [hvi, hself, if_pos (present_MAKE_PTE htlt hprot), hframe, if_neg hnone, if_neg hp]
    · refine h.walk_same hd hv' ?_ fun t' ht' => ?_
      · by_cases hdn : d = n
        · subst hdn
          have hne : v' / 1024 ≠ v / 1024 := fun heq' => heq ⟨rfl, heq'⟩
          have hstore : pteAt s₃.mem d (v' / 1024) = pteAt s₂.mem d (v' / 1024) := entry_store_ne hne
          rw [hstore]
          exact (hsame₂ (hnfree (by simp [hd]))).entry (by omega)
        · exact (hsame (hnfree (by simp [hd])) hdn).entry (by omega)
      · refine (hsame (hnfree ?_) ?_).entry (by omega)
        · rcases ht' with ht' | ht' <;> simp [ht']
        · rintro rfl
          rcases ht' with ht' | ht' <;> rw [hn] at ht' <;> cases ht'
  refine ⟨t, rest, rfl, ?_, h₄, ⟨fun k hk => ?_, fun k hk => ?_, hcr3₁, fun d v' hd hv' _ =>
    hwalk d v' hd hv', fun v' f hv' hf => ?_, fun _ _ hR => hR.elim⟩, ?_, ?_, ?_⟩
  · change some (frameOf (pteAt s₃.mem n (v / 1024)) * 4096 + 4 * (v % 1024)) = _
    rw [hself, hw, frameOf_MAKE_PTE htlt hprot]
  · rw [Function.update_of_ne (hnfree hk)]
  · have hkn : k ≠ n := by
      rintro rfl
      rcases hk with hk | ⟨_, _, hk⟩ <;> rw [hn] at hk <;> cases hk
    refine hsame (hnfree ?_) hkn
    rcases hk with hk | ⟨_, _, hk⟩ <;> simp [hk]
  · rw [hwalk n v' hn hv', hf]
  · rw [hself]
    exact present_MAKE_PTE htlt hprot
  · rw [hself]
    exact frameOf_MAKE_PTE htlt hprot
  · exact (hsame₃ htn).zero hzero

/-- An operation on directory `n` has mapped the pages in `R`, for two pages each at most. -/
def Grown (L : Statics) (s : Vm) (role : ℕ → Role) (free : List ℕ) (n : ℕ) (R : ℕ → Prop)
    (count : ℕ) (s' : Vm) : Prop :=
  ∃ role' free', s'.Owned L role' free' ∧ Grows s role s' role' n R ∧
    free.length ≤ free'.length + count

/-- What a walk of a page finds in the table of its directory. -/
theorem walk_table (hp : present (pteAt s.mem n (v / 1024)))
    (hframe : frameOf (pteAt s.mem n (v / 1024)) = t) {s' : Vm}
    (hdir : pteAt s'.mem n (v / 1024) = pteAt s.mem n (v / 1024)) :
    s'.walk n v = if present (pteAt s'.mem t (v % 1024)) then
      some (frameOf (pteAt s'.mem t (v % 1024))) else none := by
  unfold Vm.walk
  rw [hdir, if_pos hp, hframe]

/-- A page table entry without a frame gets the first free page. -/
theorem mapFrame_new (h : s.Owned L role free) (hn : role n = .dir) {prot : ℕ} (hprot : prot ≤ 7)
    (hlo : 32768 ≤ v) (hv : v < 2 ^ 20) (ht : role t = .table n (v / 1024))
    (hp : present (pteAt s.mem n (v / 1024))) (hframe : frameOf (pteAt s.mem n (v / 1024)) = t)
    (hpte : ¬ present (pteAt s.mem t (v % 1024))) :
    wp (do
        let page ← kalloc
        memset page 0 PGSIZE
        store (t * 4096 + 4 * (v % 1024)) (MAKE_PTE page prot))
      (fun _ s' => ∃ f rest, free = f :: rest ∧ s'.Owned L (Function.update role f (.frame n v)) rest ∧
        Grows s role s' (Function.update role f (.frame n v)) n (· = v) ∧ s'.walk n v = some f ∧
        SamePage s.mem s'.mem n) (fun e => e = .noPage ∧ free = []) s := by
  have hj : v % 1024 < 1024 := by omega
  have hwalkv (s' : Vm) (hdir : pteAt s'.mem n (v / 1024) = pteAt s.mem n (v / 1024)) :=
    walk_table hp hframe hdir
  rw [wp_bind]
  refine (kalloc_spec h).mono ?_ ?_
  · rintro a s₁ ⟨f, rest, rfl, rfl, hf, hmem₁, hcr3₁, h₁⟩
    have hnfree {k : ℕ} (hk : role k ≠ .free) : k ≠ f := by
      rintro rfl
      exact hk hf
    have hflt : f < 2 ^ 20 := by
      have hlt := h.lt (n := f) (by simp [hf])
      omega
    rw [wp_bind, memset, wp_update, store, wp_update]
    set w := MAKE_PTE (f * 4096) prot with hw
    set s₂ : Vm := { s₁ with mem := s₁.mem.fill (f * 4096) 4096 0 } with hs₂
    have hzero : ZeroPage s₂.mem f := zeroPage_memset
    have hsame₂ {k : ℕ} (hk : k ≠ f) : SamePage s.mem s₂.mem k := by
      rw [← hmem₁]
      exact samePage_memset hk
    have h₂ : s₂.Owned L (Function.update role f .held) rest := by
      refine h₁.write rfl rfl fun k => ?_
      by_cases hk : k = f
      · subst hk
        exact Or.inl (Function.update_self _ _ _)
      · exact Or.inr (Or.inr (samePage_memset hk))
    have h₃ := h₂.assign (Function.update_self _ _ _) (r := .frame n v) (by simp)
      (by simp) (by simp)
    rw [Function.update_idem] at h₃
    set s₃ : Vm := { s₂ with mem := s₂.mem.splice (t * 4096 + 4 * (v % 1024)) (Mem.wordBytes w) }
      with hs₃
    have htf : t ≠ f := hnfree (by simp [ht])
    have hself : pteAt s₃.mem t (v % 1024) = w := entry_store_self
    have hsame₃ {k : ℕ} (hkt : k ≠ t) : SamePage s₂.mem s₃.mem k := samePage_store hj hkt
    have h₄ : s₃.Owned L (Function.update role f (.frame n v)) rest := by
      refine h₃.linkFrame (n := n) (w := w) (i := v / 1024) (j := v % 1024) ?_ hj ?_
        (frameOf_MAKE_PTE hflt hprot) rfl rfl
      · rw [Function.update_of_ne htf, ht]
      · rw [Function.update_self, Nat.div_add_mod' v 1024]
    have hsame {k : ℕ} (hkf : k ≠ f) (hkt : k ≠ t) : SamePage s.mem s₃.mem k :=
      (hsame₂ hkf).trans (hsame₃ hkt)
    have hnt : n ≠ t := by
      rintro rfl
      rw [hn] at ht
      cases ht
    have hdirs {k : ℕ} (hk : role k = .dir) : SamePage s.mem s₃.mem k := by
      refine hsame (hnfree (by simp [hk])) ?_
      rintro rfl
      rw [hk] at ht
      cases ht
    have hwalk (d u : ℕ) (hd : role d = .dir) (hu : u < 2 ^ 20) (hne : d ≠ n ∨ u ≠ v) :
        s₃.walk d u = s.walk d u := by
      refine h.walk_same hd hu ((hdirs hd).entry (by omega)) fun t' ht' => ?_
      have ht'f : t' ≠ f := hnfree (by rcases ht' with ht' | ht' <;> simp [ht'])
      by_cases htt : t' = t
      · subst htt
        -- another entry of the same table
        have hdu : d = n ∧ u / 1024 = v / 1024 := by
          rw [ht] at ht'
          simpa [eq_comm] using ht'
        have hne' : u % 1024 ≠ v % 1024 := by
          intro heq
          rcases hne with hne | hne
          · exact hne hdu.1
          · omega
        have hstore : pteAt s₃.mem t' (u % 1024) = pteAt s₂.mem t' (u % 1024) :=
          entry_store_ne hne'
        rw [hstore]
        exact (hsame₂ htf).entry (by omega)
      · exact (hsame ht'f htt).entry (by omega)
    have hnone : s.walk n v = none := by rw [hwalkv s rfl, if_neg hpte]
    have hsome : s₃.walk n v = some f := by
      rw [hwalkv s₃ ((hdirs hn).entry (by omega)), hself, if_pos (present_MAKE_PTE hflt hprot),
        frameOf_MAKE_PTE hflt hprot]
    refine ⟨f, rest, rfl, h₄, ⟨fun k hk => ?_, fun k hk => ?_, hcr3₁, fun d u hd hu hne => ?_,
      fun u g hu hg => ?_, fun u _ hu _ => ?_⟩, hsome, hdirs hn⟩
    · rw [Function.update_of_ne (hnfree hk)]
    · refine hsame (hnfree ?_) ?_
      · rcases hk with hk | ⟨_, _, hk⟩ <;> simp [hk]
      · rintro rfl
        rcases hk with hk | ⟨_, _, hk⟩ <;> rw [ht] at hk <;> cases hk
    · exact hwalk d u hd hu hne
    · have huv : u ≠ v := by
        rintro rfl
        rw [hnone] at hg
        cases hg
      rw [hwalk n u hn hu (Or.inr huv), hg]
    · subst hu
      exact ⟨f, hsome, hf, (hsame₃ htf.symm).zero hzero⟩
  · rintro e ⟨rfl, rfl⟩
    exact ⟨rfl, rfl⟩

/-- A page table entry without a frame gets one. -/
theorem mapFrame_spec (h : s.Owned L role free) (hn : role n = .dir) {prot : ℕ} (hprot : prot ≤ 7)
    (hlo : 32768 ≤ v) (hv : v < 2 ^ 20) (ht : role t = .table n (v / 1024))
    (hp : present (pteAt s.mem n (v / 1024))) (hframe : frameOf (pteAt s.mem n (v / 1024)) = t) :
    wp (do
        let pte ← load (t * 4096 + 4 * (v % 1024))
        if ¬ present pte then
          let page ← kalloc
          memset page 0 PGSIZE
          store (t * 4096 + 4 * (v % 1024)) (MAKE_PTE page prot))
      (fun _ => Grown L s role free n (· = v) 1) (fun e => e = .noPage ∧ free.length < 1) s := by
  rw [wp_bind, load, wp_read]
  change wp (if ¬ present (pteAt s.mem t (v % 1024)) then _ else _) _ _ _
  by_cases hpte : present (pteAt s.mem t (v % 1024))
  · rw [if_neg (not_not.mpr hpte), wp_pure]
    refine ⟨role, free, h, .refl ?_, Nat.le_succ _⟩
    rintro u rfl
    rw [walk_table hp hframe rfl, if_pos hpte]
    simp
  · rw [if_pos hpte]
    refine (mapFrame_new h hn hprot hlo hv ht hp hframe hpte).mono ?_ ?_
    · rintro - s' ⟨f, rest, rfl, h', hgrows, -⟩
      exact ⟨_, rest, h', hgrows, by simp⟩
    · rintro e ⟨rfl, rfl⟩
      exact ⟨rfl, Nat.one_pos⟩

/-- A page is mapped. -/
theorem mapPage_spec (h : s.Owned L role free) (hn : role n = .dir) {prot : ℕ} (hprot : prot ≤ 7)
    (hpos : prot ≠ 0) (hlo : 32768 ≤ v) (hv : v < 2 ^ 20) :
    wp (mapPage (n * 4096) prot (v * 4096)) (fun _ => Grown L s role free n (· = v) 2)
      (fun e => e = .noPage ∧ free.length < 2) s := by
  rw [mapPage, wp_bind]
  by_cases hp : present (pteAt s.mem n (v / 1024))
  · refine (vm_walkpte_present hprot hp).imp ?_
    rintro r s₁ ⟨rfl, rfl⟩
    simp only
    refine (mapFrame_spec h hn hprot hlo hv (h.high n hn _ (by omega) (by omega) hp) hp rfl).mono ?_ ?_
    · rintro - s' ⟨role', free', h', hgrows, hlen⟩
      exact ⟨role', free', h', hgrows, by omega⟩
    · rintro e ⟨rfl, hlen⟩
      exact ⟨rfl, by omega⟩
  · refine (vm_walkpte_new h hn hprot hpos hlo hv hp).mono ?_ ?_
    · rintro r s₁ ⟨t, rest, rfl, rfl, h₁, hgrows₁, hp₁, hframe, -⟩
      simp only
      have hn₁ : Function.update role t (.table n (v / 1024)) n = .dir := by
        rw [hgrows₁.kept n (by simp [hn]), hn]
      refine (mapFrame_spec h₁ hn₁ hprot hlo hv (Function.update_self _ _ _) hp₁ hframe).mono ?_ ?_
      · rintro - s' ⟨role', free', h', hgrows, hlen⟩
        refine ⟨role', free', h', ?_, ?_⟩
        · exact (hgrows₁.trans hgrows h₁ hn fun _ hR => hR.elim).mono fun u => by simp
        · rw [List.length_cons]
          omega
      · rintro e ⟨rfl, hlen⟩
        refine ⟨rfl, ?_⟩
        rw [List.length_cons]
        omega
    · rintro e ⟨rfl, rfl⟩
      exact ⟨rfl, by decide⟩

theorem length_pages (a n : ℕ) : (pages a n).length = n := by
  unfold pages
  simp

theorem getElem?_pages {a x : ℕ} (h : (pages a n)[k]? = some x) : k < n ∧ x = a + k * 4096 := by
  unfold pages at h
  rw [List.getElem?_map, Option.map_eq_some_iff] at h
  obtain ⟨j, hj, rfl⟩ := h
  obtain ⟨hk, heq⟩ := List.getElem?_eq_some_iff.mp hj
  rw [List.getElem_range] at heq
  rw [List.length_range] at hk
  exact ⟨hk, by rw [heq]⟩

/-- A range of pages is mapped. -/
theorem mapPages_spec (h : s.Owned L role free) (hn : role n = .dir) {prot : ℕ} (u count : ℕ)
    (hprot : prot ≤ 7) (hpos : prot ≠ 0) (hlo : 32768 ≤ u) (hhi : u + count ≤ 2 ^ 20) :
    wp (loop (fun cur_va _ => mapPage (n * 4096) prot cur_va) (pages (u * 4096) count) ())
      (fun _ => Grown L s role free n (fun v => u ≤ v ∧ v < u + count) (2 * count))
      (fun e => e = .noPage ∧ free.length < 2 * count) s := by
  refine wp_loop_index (fun k _ => Grown L s role free n (fun v => u ≤ v ∧ v < u + k) (2 * k))
    _ () ?_ ?_ ?_
  · refine ⟨role, free, h, .refl ?_, Nat.le_refl _⟩
    rintro v ⟨hle, hlt⟩
    omega
  · rintro k va hk - s₁ ⟨role₁, free₁, h₁, hgrows₁, hlen₁⟩
    obtain ⟨hkc, rfl⟩ := getElem?_pages hk
    have hva : u * 4096 + k * 4096 = (u + k) * 4096 := by omega
    have hn₁ : role₁ n = .dir := by rw [hgrows₁.kept n (by simp [hn]), hn]
    rw [hva]
    refine (mapPage_spec h₁ hn₁ hprot hpos (v := u + k) (by omega) (by omega)).mono ?_ ?_
    · rintro - s' ⟨role', free', h', hgrows, hlen⟩
      refine ⟨role', free', h', ?_, by omega⟩
      refine (hgrows₁.trans hgrows h₁ hn fun v hv => le_trans hlo hv.1).mono fun v => ?_
      omega
    · rintro e ⟨rfl, hlen⟩
      exact ⟨rfl, by omega⟩
  · rintro - s' hs'
    rwa [length_pages] at hs'

theorem PAGE_DOWN_eq (a : ℕ) : PAGE_DOWN a = a / 4096 * 4096 := rfl

/-- Why `vm_map` refuses to map a range. -/
def BadRange (va len : ℕ) : Prop :=
  PAGE_DOWN va < PHY_MEM ∨ PAGE_UP ((va + len) % ADDR_END) < PAGE_DOWN va

/-- `vm_map` maps the pages of the range that are not mapped, and nothing else. -/
theorem vm_map_spec (h : s.Owned L role free) (hn : role n = .dir) {va len prot : ℕ} :
    wp (vm_map (n * 4096) va len prot) (fun _ s' => ¬ BadRange va len ∧
        Grown L s role free n (fun v => va / 4096 ≤ v ∧
          v < PAGE_UP ((va + len) % ADDR_END) / 4096)
          (2 * (PAGE_UP ((va + len) % ADDR_END) / 4096 - va / 4096)) s')
      (fun e => e = .badMap ∧ (prot % 2 = 0 ∨ 7 < prot ∨ BadRange va len) ∨ e = .noPage ∧
        free.length < 2 * (PAGE_UP ((va + len) % ADDR_END) / 4096 - va / 4096)) s := by
  have hupdown : ∃ e, PAGE_UP ((va + len) % ADDR_END) = e * 4096 ∧ e < 2 ^ 20 := by
    refine ⟨((va + len) % ADDR_END + 4095) % ADDR_END / 4096, rfl, ?_⟩
    have hlt : ((va + len) % ADDR_END + 4095) % 4294967296 < 4294967296 := Nat.mod_lt _ (by decide)
    change ((va + len) % ADDR_END + 4095) % 4294967296 / 4096 < _
    omega
  obtain ⟨e, he, hlt⟩ := hupdown
  rw [vm_map, wp_bind, wp_assert]
  refine ⟨fun hodd => ?_, fun heven => Or.inl ⟨rfl, Or.inl (by omega)⟩⟩
  rw [wp_bind, wp_assert]
  refine ⟨fun hprot => ?_, fun hbig => Or.inl ⟨rfl, Or.inr (Or.inl (by omega))⟩⟩
  dsimp only
  rw [wp_bind, wp_assert]
  refine ⟨fun hlow => ?_, fun hlow => Or.inl ⟨rfl, Or.inr (Or.inr (Or.inl (not_le.mp hlow)))⟩⟩
  rw [wp_bind, wp_assert]
  refine ⟨fun hend => ?_, fun hend => Or.inl ⟨rfl, Or.inr (Or.inr (Or.inr (not_le.mp hend)))⟩⟩
  have hgood : ¬ BadRange va len := by
    rintro (hbad | hbad)
    · exact absurd hlow (not_le.mpr hbad)
    · exact absurd hend (not_le.mpr hbad)
  rw [he, PAGE_DOWN_eq] at hend ⊢
  rw [PAGE_DOWN_eq] at hlow
  have hcount : (e * 4096 - va / 4096 * 4096) / 4096 = e - va / 4096 := by omega
  have hlow' : 32768 * 4096 ≤ va / 4096 * 4096 := hlow
  have hpg : (e * 4096 - va / 4096 * 4096) / PGSIZE = e - va / 4096 := hcount
  rw [hpg, Nat.mul_div_cancel e (by decide)]
  refine (mapPages_spec h hn (va / 4096) (e - va / 4096) hprot (by omega) (by omega)
    (by omega)).mono ?_ ?_
  · rintro - s' ⟨role', free', h', hgrows, hlen⟩
    refine ⟨hgood, role', free', h', hgrows.mono fun v => ?_, hlen⟩
    omega
  · rintro e' ⟨rfl, hlen⟩
    exact Or.inr ⟨rfl, hlen⟩

/-! ### New directories -/

/-- Entries of one page are written one after the other. -/
theorem stores_spec {F : Abort → Prop} (g : ℕ → UInt32) (n : ℕ) {a c : ℕ} {is : List ℕ}
    (his : List.range' a c = is) (hac : a + c ≤ 1024) :
    wp (loop (fun i _ => store (n * 4096 + 4 * i) (g i)) is ()) (fun _ s' =>
      s'.free_page_list = s.free_page_list ∧ s'.cr3 = s.cr3 ∧
        (∀ k, k ≠ n → SamePage s.mem s'.mem k) ∧
        ∀ i < 1024, pteAt s'.mem n i = if a ≤ i ∧ i < a + c then g i else pteAt s.mem n i) F s := by
  refine wp_loop_index (fun k _ s' => s'.free_page_list = s.free_page_list ∧ s'.cr3 = s.cr3 ∧
    (∀ k, k ≠ n → SamePage s.mem s'.mem k) ∧
      ∀ i < 1024, pteAt s'.mem n i = if a ≤ i ∧ i < a + k then g i else pteAt s.mem n i)
    _ () ?_ ?_ ?_
  · refine ⟨rfl, rfl, fun k _ => .refl _ k, fun i _ => ?_⟩
    rw [if_neg (by omega)]
  · rintro k i hk - s₁ ⟨hfree, hcr3, hsame, hentry⟩
    subst his
    obtain ⟨hkc, heq⟩ := List.getElem?_eq_some_iff.mp hk
    rw [List.length_range'] at hkc
    rw [List.getElem_range', Nat.one_mul] at heq
    subst heq
    rw [store, wp_update]
    refine ⟨hfree, hcr3, fun j hj => (hsame j hj).trans (samePage_store (by omega) hj), fun i hi => ?_⟩
    by_cases hik : i = a + k
    · subst hik
      rw [entry_store_self, if_pos ⟨by omega, by omega⟩]
    · rw [entry_store_ne hik, hentry i hi]
      have hiff : (a ≤ i ∧ i < a + k) ↔ (a ≤ i ∧ i < a + (k + 1)) := by omega
      simp only [hiff]
  · rintro - s' hs'
    subst his
    rwa [List.length_range'] at hs'

theorem fillDir_spec {F : Abort → Prop} : wp (fillDir L (n * 4096)) (fun _ s' =>
    s'.free_page_list = s.free_page_list ∧ s'.cr3 = s.cr3 ∧
      (∀ k, k ≠ n → SamePage s.mem s'.mem k) ∧
      (∀ i < 32, pteAt s'.mem n i = MAKE_PTE ((L.kpt + i) * 4096) 3) ∧
      ∀ i, 32 ≤ i → i < 1024 → ¬ present (pteAt s'.mem n i)) F s := by
  unfold fillDir
  rw [wp_bind, List.range_eq_range']
  -- the lists are kept folded: the whole program would be run otherwise
  generalize hlow : List.range' 0 32 = low
  generalize hhigh : List.range' 32 (NR_PTE - 32) = high
  refine (stores_spec (fun i => MAKE_PTE ((L.kpt + i) * PGSIZE) 3) n hlow (by omega)).imp ?_
  rintro - s₁ ⟨hfree₁, hcr3₁, hsame₁, hentry₁⟩
  refine (stores_spec (fun _ => 0) n hhigh (by decide)).imp ?_
  rintro - s₂ ⟨hfree₂, hcr3₂, hsame₂, hentry₂⟩
  refine ⟨hfree₂.trans hfree₁, hcr3₂.trans hcr3₁, fun k hk => (hsame₁ k hk).trans (hsame₂ k hk),
    fun i hi => ?_, fun i hlo hi => ?_⟩
  · rw [hentry₂ i (by omega), if_neg (by omega), hentry₁ i (by omega), if_pos (by omega)]
  · have hrange : 32 ≤ i ∧ i < 32 + (NR_PTE - 32) := ⟨hlo, hi⟩
    rw [hentry₂ i hi, if_pos hrange]
    exact not_present_zero

/-- `vm_alloc` makes a directory without user pages. -/
theorem vm_alloc_spec (h : s.Owned L role free) : wp (vm_alloc L) (fun a s' => ∃ n rest,
      free = n :: rest ∧ a = n * 4096 ∧ role n = .free ∧
      s'.Owned L (Function.update role n .dir) rest ∧ s'.cr3 = s.cr3 ∧
      (∀ k, k ≠ n → SamePage s.mem s'.mem k) ∧
      (∀ v, 32768 ≤ v → v < 2 ^ 20 → s'.walk n v = none) ∧
      ∀ d v, role d = .dir → v < 2 ^ 20 → s'.walk d v = s.walk d v)
    (fun e => e = .noPage ∧ free = []) s := by
  rw [vm_alloc, wp_bind]
  refine (kalloc_spec h).imp ?_
  rintro a s₁ ⟨n, rest, rfl, rfl, hn, hmem₁, hcr3₁, h₁⟩
  rw [wp_bind]
  refine fillDir_spec.imp ?_
  rintro - s₂ ⟨hfree₂, hcr3₂, hsame₂, hlow, hhigh⟩
  rw [wp_pure]
  have hsame {k : ℕ} (hk : k ≠ n) : SamePage s.mem s₂.mem k := by
    rw [← hmem₁]
    exact hsame₂ k hk
  have h₂ : s₂.Owned L (Function.update role n .held) rest := by
    refine h₁.write rfl hfree₂ fun k => ?_
    by_cases hk : k = n
    · subst hk
      exact Or.inl (Function.update_self _ _ _)
    · exact Or.inr (Or.inr (hsame₂ k hk))
  have h₃ := h₂.assign (Function.update_self _ _ _) (r := .dir) (by simp)
    (fun _ => ⟨hlow, hhigh⟩) (by simp)
  rw [Function.update_idem] at h₃
  refine ⟨n, rest, rfl, rfl, hn, h₃, hcr3₂.trans hcr3₁, fun k hk => hsame hk,
    fun v hlo hhi => ?_, fun d v hd hv => ?_⟩
  · unfold Vm.walk
    rw [if_neg (hhigh _ (by omega) (by omega))]
  · have hne {k : ℕ} {r : Role} (hk : role k = r) (hr : r ≠ .free) : k ≠ n := by
      rintro rfl
      exact hr (hk.symm.trans hn)
    refine h.walk_same hd hv ((hsame (hne hd (by simp))).entry (by omega)) fun t ht => ?_
    refine (hsame ?_).entry (by omega)
    rcases ht with ht | ht
    · exact hne ht (by simp)
    · exact hne ht (by simp)

/-! ### Copying an address space -/

/-- `vm_walk` finds the frame of a page. -/
theorem vm_walk_spec {F : Abort → Prop} :
    wp (vm_walk (n * 4096) (v * 4096) 0)
      (fun r s' => s' = s ∧ r = (s.walk n v).map (· * 4096)) F s := by
  rw [vm_walk, wp_bind]
  by_cases hp : present (pteAt s.mem n (v / 1024))
  · refine (vm_walkpte_present (Nat.zero_le _) hp).imp ?_
    rintro r s₁ ⟨hs₁, rfl⟩
    rw [hs₁]
    simp only
    rw [wp_bind, load, wp_read]
    change wp (if present (pteAt s.mem (frameOf (pteAt s.mem n (v / 1024))) (v % 1024)) then _ else _)
      _ _ _
    unfold Vm.walk
    rw [if_pos hp]
    by_cases hpte : present (pteAt s.mem (frameOf (pteAt s.mem n (v / 1024))) (v % 1024))
    · rw [if_pos hpte, if_pos hpte, wp_pure]
      exact ⟨rfl, rfl⟩
    · rw [if_neg hpte, if_neg hpte, wp_pure]
      exact ⟨rfl, rfl⟩
  · refine (vm_walkpte_absent hp).imp ?_
    rintro r s₁ ⟨hs₁, rfl⟩
    rw [hs₁]
    simp only
    rw [wp_pure]
    unfold Vm.walk
    rw [if_neg hp]
    exact ⟨rfl, rfl⟩

/-- The pages in `R` of directory `p` have been copied to directory `n`. -/
structure Copies (s : Vm) (role : ℕ → Role) (s' : Vm) (role' : ℕ → Role) (p n : ℕ) (R : ℕ → Prop) :
    Prop where
  kept : ∀ k, role k ≠ .free → role' k = role k
  cr3 : s'.cr3 = s.cr3
  same : ∀ k, role k = .held ∨ (∃ pd v, (pd ≠ n ∨ n = p ∨ ¬ R v) ∧ role k = .frame pd v) →
    SamePage s.mem s'.mem k
  other : ∀ d v, role d = .dir → v < 2 ^ 20 → d ≠ n ∨ n = p ∨ ¬ R v ∨ s.walk p v = none →
    s'.walk d v = s.walk d v
  copied : n ≠ p → ∀ v f, v < 2 ^ 20 → R v → s.walk p v = some f →
    ∃ f', s'.walk n v = some f' ∧ ∀ k < 4096, s'.mem (f' * 4096 + k) = s.mem (f * 4096 + k)

namespace Copies

variable {s'' : Vm} {role'' : ℕ → Role} {R R' : ℕ → Prop} {p : ℕ}

theorem refl (hR : ∀ v, R v → s.walk p v = none) : Copies s role s role p n R :=
  ⟨fun _ _ => rfl, rfl, fun _ _ => .refl _ _, fun _ _ _ _ _ => rfl,
    fun _ v f _ hv hf => by rw [hR v hv] at hf; cases hf⟩

theorem dir (h : Copies s role s' role' p n R) (hd : role d = .dir) : role' d = .dir := by
  rw [h.kept d (by simp [hd]), hd]

/-- What is copied from is left alone. -/
theorem source (h : Copies s role s' role' p n R) (hp : role p = .dir) (hv : v < 2 ^ 20) :
    s'.walk p v = s.walk p v := by
  refine h.other p v hp hv ?_
  by_cases hnp : n = p
  · exact Or.inr (Or.inl hnp)
  · exact Or.inl (Ne.symm hnp)

/-- Other pages are copied afterwards. -/
theorem trans (h : Copies s role s' role' p n R) (h' : Copies s' role' s'' role'' p n R')
    (hs : s.Owned L role free) {free' : List ℕ} (hs' : s'.Owned L role' free')
    (hp : role p = .dir) (hn : role n = .dir) (hlo : ∀ v, R v ∨ R' v → 32768 ≤ v)
    (hapart : ∀ v, R v → ¬ R' v) : Copies s role s'' role'' p n fun v => R v ∨ R' v := by
  refine ⟨fun k hk => ?_, h'.cr3.trans h.cr3, fun k hk => ?_, fun d v hd hv hnot => ?_,
    fun hnp v f hv hvR hf => ?_⟩
  · have hk' := h.kept k hk
    rw [h'.kept k (by rwa [hk']), hk']
  · have hne : role k ≠ .free := by
      rcases hk with hk | ⟨_, _, -, hk⟩ <;> simp [hk]
    refine (h.same k ?_).trans (h'.same k ?_)
    · rcases hk with hk | ⟨pd, v, hpd, hk⟩
      · exact Or.inl hk
      · exact Or.inr ⟨pd, v, by tauto, hk⟩
    · rw [h.kept k hne]
      rcases hk with hk | ⟨pd, v, hpd, hk⟩
      · exact Or.inl hk
      · exact Or.inr ⟨pd, v, by tauto, hk⟩
  · rw [h'.other d v (h.dir hd) hv ?_, h.other d v hd hv (by tauto)]
    rw [h.source hp hv]
    tauto
  · rcases hvR with hvR | hvR
    · obtain ⟨f', hf', hcopy⟩ := h.copied hnp v f hv hvR hf
      refine ⟨f', ?_, fun k hk => ?_⟩
      · rw [h'.other n v (h.dir hn) hv (Or.inr (Or.inr (Or.inl (hapart v hvR)))), hf']
      · have hrole := hs'.frame (h.dir hn) (hlo v (Or.inl hvR)) hv hf'
        rw [h'.same f' (Or.inr ⟨n, v, Or.inr (Or.inr (hapart v hvR)), hrole⟩) k hk, hcopy k hk]
    · rw [← h.source hp hv] at hf
      obtain ⟨f', hf', hcopy⟩ := h'.copied hnp v f hv hvR hf
      refine ⟨f', hf', fun k hk => ?_⟩
      rw [h.source hp hv] at hf
      have hrole := hs.frame hp (hlo v (Or.inr hvR)) hv hf
      rw [hcopy k hk]
      exact h.same f (Or.inr ⟨p, v, Or.inl (Ne.symm hnp), hrole⟩) k hk

theorem mono (h : Copies s role s' role' p n R) (hR : ∀ v, R v ↔ R' v) :
    Copies s role s' role' p n R' := by
  have heq : R = R' := funext fun v => propext (hR v)
  exact heq ▸ h

end Copies

/-- A range of one page ends with the page. -/
theorem page_up_next (hv : v < 786432) : PAGE_UP ((v * 4096 + PGSIZE) % ADDR_END) / 4096 = v + 1 := by
  change ((v * 4096 + 4096) % 4294967296 + 4095) % 4294967296 / 4096 * 4096 / 4096 = v + 1
  omega

theorem not_badRange_page (hlo : 32768 ≤ v) (hv : v < 786432) : ¬ BadRange (v * 4096) PGSIZE := by
  rintro (hbad | hbad)
  · rw [PAGE_DOWN_page] at hbad
    have hbad' : v * 4096 < 134217728 := hbad
    omega
  · rw [PAGE_DOWN_page] at hbad
    have hbad' : (v * 4096 + 4096) % 4294967296 + 4095 < 4294967296 := by omega
    change ((v * 4096 + 4096) % 4294967296 + 4095) % 4294967296 / 4096 * 4096 < _ at hbad
    omega

/-- Frame `f` is copied to frame `g`. -/
def Vm.copyFrame (s : Vm) (g f : ℕ) : Vm :=
  { s with mem := s.mem.splice (g * 4096) (s.mem.slice (f * 4096) PGSIZE) }

section CopyFrame

variable {f g : ℕ}

theorem copyFrame_same (hk : k ≠ g) : SamePage s.mem (s.copyFrame g f).mem k := by
  refine samePage_splice le_rfl ?_ hk
  rw [Mem.length_slice, Nat.succ_mul]

theorem copyFrame_copied (hk : k < 4096) :
    (s.copyFrame g f).mem (g * 4096 + k) = s.mem (f * 4096 + k) := by
  have hin : k < (s.mem.slice (f * 4096) PGSIZE).length := by
    rw [Mem.length_slice]
    exact hk
  rw [Vm.copyFrame]
  simp only
  rw [Mem.splice_in hin, Mem.getElem_slice]

theorem copyFrame_owned (h : s.Owned L role free) (hg : role g = .frame n v) :
    (s.copyFrame g f).Owned L role free := by
  refine h.write rfl rfl fun k => ?_
  by_cases hk : k = g
  · subst hk
    exact Or.inr (Or.inl ⟨n, v, hg⟩)
  · exact Or.inr (Or.inr (copyFrame_same hk))

/-- The translation does not depend on what is in the frames. -/
theorem copyFrame_walk (h : s.Owned L role free) (hg : role g = .frame n v) {d u : ℕ}
    (hd : role d = .dir) (hu : u < 2 ^ 20) : (s.copyFrame g f).walk d u = s.walk d u := by
  have hne {k : ℕ} {r : Role} (hk : role k = r) (hr : ∀ pd v, r ≠ .frame pd v) : k ≠ g := by
    rintro rfl
    exact hr n v (hk.symm.trans hg)
  refine h.walk_same hd hu ((copyFrame_same (hne hd (by simp))).entry (by omega)) fun t ht => ?_
  refine (copyFrame_same ?_).entry (by omega)
  rcases ht with ht | ht
  · exact hne ht (by simp)
  · exact hne ht (by simp)

end CopyFrame

/-- When page `v` is mapped in the child, it has a frame there, that of the parent if the two are
one, and the parent has its frame still. -/
theorem Grows.frames {role' : ℕ → Role} {p f : ℕ} {R : ℕ → Prop} {s' : Vm}
    (h : Grows s role s' role' n R) (hp : role p = .dir) (hv : v < 2 ^ 20) (hR : R v)
    (hsrc : s.walk p v = some f) :
    ∃ g, s'.walk n v = some g ∧ (n = p → g = f) ∧ s'.walk p v = some f := by
  by_cases hnp : n = p
  · subst hnp
    have hold := h.old v f hv hsrc
    exact ⟨f, hold, fun _ => rfl, hold⟩
  · have hsame : s'.walk p v = some f := by
      rw [h.other p v hp hv (Or.inl (Ne.symm hnp)), hsrc]
    cases hw : s.walk n v with
    | some g => exact ⟨g, h.old v g hv hw, fun heq => (hnp heq).elim, hsame⟩
    | none =>
      obtain ⟨g, hg, -⟩ := h.new v hv hR hw
      exact ⟨g, hg, fun heq => (hnp heq).elim, hsame⟩

/-- A page that has been mapped and copied. -/
theorem Grows.copies {role' : ℕ → Role} {free' : List ℕ} {p f g : ℕ} {s' : Vm} (hs : s.Owned L role free)
    (h : Grows s role s' role' n (· = v)) (hs' : s'.Owned L role' free') (hp : role p = .dir)
    (hn : role n = .dir) (hlo : 32768 ≤ v) (hv : v < 2 ^ 20) (hsrc : s.walk p v = some f)
    (hg : s'.walk n v = some g) (hgp : n = p → g = f) :
    Copies s role (s'.copyFrame g f) role' p n (· = v) := by
  have hn' : role' n = .dir := by rw [h.kept n (by simp [hn]), hn]
  have hgrole := hs'.frame hn' hlo hv hg
  have hfrole := hs.frame hp hlo hv hsrc
  refine ⟨h.kept, h.cr3, fun k hk => ?_, fun d u hd hu hnot => ?_, fun hnp u f' hu huv hf' => ?_⟩
  · have hold : role k = .held ∨ ∃ pd v, role k = .frame pd v := by
      rcases hk with hk | ⟨pd, v, -, hk⟩
      · exact Or.inl hk
      · exact Or.inr ⟨pd, v, hk⟩
    refine (h.same k hold).trans ?_
    by_cases hkg : k = g
    -- only a page that is copied onto itself can be the frame of the child
    · have hrolek : role' k = role k := by
        refine h.kept k ?_
        rcases hold with hk' | ⟨_, _, hk'⟩ <;> simp [hk']
      subst hkg
      rcases hk with hk | ⟨pd, v', hpd, hk⟩
      · rw [hrolek, hk] at hgrole
        cases hgrole
      · rw [hrolek, hk] at hgrole
        obtain ⟨hpdn, hvv⟩ := Role.frame.inj hgrole
        rcases hpd with hpd | hpd | hpd
        · exact (hpd hpdn).elim
        · intro j hj
          rw [copyFrame_copied hj, hgp hpd]
        · exact (hpd hvv).elim
    · exact copyFrame_same hkg
  · have hd' : role' d = .dir := by rw [h.kept d (by simp [hd]), hd]
    rw [copyFrame_walk hs' hgrole hd' hu]
    by_cases hdu : d = n ∧ u = v
    · obtain ⟨rfl, rfl⟩ := hdu
      rcases hnot with hdn | rfl | huv | hnone
      · exact (hdn rfl).elim
      · rw [hg, hgp rfl, hsrc]
      · exact (huv rfl).elim
      · rw [hsrc] at hnone
        cases hnone
    · exact h.other d u hd hu (not_and_or.mp hdu)
  · subst huv
    obtain rfl : f = f' := by
      rw [hsrc] at hf'
      exact Option.some.inj hf'
    refine ⟨g, by rw [copyFrame_walk hs' hgrole hn' hu, hg], fun k hk => ?_⟩
    rw [copyFrame_copied hk]
    exact h.same f (Or.inr ⟨p, u, hfrole⟩) k hk

/-- A page of the parent is mapped in the child and copied there. -/
theorem copyMapped_spec (h : s.Owned L role free) {p f : ℕ} (hp : role p = .dir) (hn : role n = .dir)
    (hlo : 32768 ≤ v) (hv : v < 786432) (hsrc : s.walk p v = some f) :
    wp (do
        vm_map (n * 4096) (v * 4096) PGSIZE 7
        let dst ← vm_walk (n * 4096) (v * 4096) 0
        let dst ← follow dst
        let src ← vm_walk (p * 4096) (v * 4096) 0
        let src ← follow src
        memcpy dst src PGSIZE)
      (fun _ s' => ∃ role' free', s'.Owned L role' free' ∧ Copies s role s' role' p n (· = v) ∧
        free.length ≤ free'.length + 2) (fun e => e = .noPage ∧ free.length < 2) s := by
  have hup := page_up_next hv
  rw [wp_bind]
  refine (vm_map_spec h hn).mono ?_ ?_
  · rintro - s₁ ⟨-, role₁, free₁, h₁, hgrows, hlen⟩
    rw [hup] at hgrows hlen
    have hgrows' : Grows s role s₁ role₁ n (· = v) := hgrows.mono fun u => by omega
    have hn₁ : role₁ n = .dir := by rw [hgrows.kept n (by simp [hn]), hn]
    obtain ⟨g, hg, hgp, hsrc₁⟩ := hgrows'.frames hp (by omega) rfl hsrc
    rw [wp_bind]
    refine vm_walk_spec.imp ?_
    rintro dst s₂ ⟨rfl, rfl⟩
    rw [hg, Option.map_some, follow, wp_bind, wp_pure, wp_bind]
    refine vm_walk_spec.imp ?_
    rintro src s₃ ⟨rfl, rfl⟩
    rw [hsrc₁, Option.map_some, follow, wp_bind, wp_pure, memcpy, wp_update]
    exact ⟨role₁, free₁, copyFrame_owned h₁ (h₁.frame hn₁ hlo (by omega) hg),
      hgrows'.copies h h₁ hp hn hlo (by omega) hsrc hg hgp, by omega⟩
  · rintro e (⟨rfl, hbad | hbad | hbad⟩ | ⟨rfl, hlen⟩)
    · exact absurd hbad (by decide)
    · exact absurd hbad (by decide)
    · exact (not_badRange_page hlo hv hbad).elim
    · rw [hup] at hlen
      exact ⟨rfl, by omega⟩

/-- One page is copied, if it is there. -/
theorem copyPage_spec (h : s.Owned L role free) {p : ℕ} (hp : role p = .dir) (hn : role n = .dir)
    (hcr3 : s.cr3 = p * 4096) (hlo : 32768 ≤ v) (hv : v < USR_MEM / PGSIZE) :
    wp (copyPage (n * 4096) (v * 4096)) (fun _ s' => ∃ role' free', s'.Owned L role' free' ∧
        Copies s role s' role' p n (· = v) ∧
        free.length ≤ free'.length + if (s.walk p v).isSome then 2 else 0)
      (fun e => e = .noPage ∧ (s.walk p v).isSome ∧ free.length < 2) s := by
  have hcurr : PAGE_DOWN (p * 4096) = p * 4096 := PAGE_DOWN_page p
  have hnothing (hnone : s.walk p v = none) : ∃ role' free', s.Owned L role' free' ∧
      Copies s role s role' p n (· = v) ∧
      free.length ≤ free'.length + if (s.walk p v).isSome then 2 else 0 := by
    refine ⟨role, free, h, .refl ?_, Nat.le_add_right _ _⟩
    rintro u rfl
    exact hnone
  rw [copyPage, wp_bind, vm_curr, wp_read, hcr3, hcurr, wp_bind]
  by_cases hpde : present (pteAt s.mem p (v / 1024))
  · refine (vm_walkpte_present (Nat.zero_le _) hpde).imp ?_
    rintro r s₁ ⟨hs₁, rfl⟩
    rw [hs₁]
    simp only
    rw [wp_bind, load, wp_read]
    change wp (if present (pteAt s.mem (frameOf (pteAt s.mem p (v / 1024))) (v % 1024)) then _ else _)
      _ _ _
    have hwalk : s.walk p v = if present (pteAt s.mem (frameOf (pteAt s.mem p (v / 1024))) (v % 1024))
        then some (frameOf (pteAt s.mem (frameOf (pteAt s.mem p (v / 1024))) (v % 1024))) else none :=
      walk_table hpde rfl rfl
    by_cases hpte : present (pteAt s.mem (frameOf (pteAt s.mem p (v / 1024))) (v % 1024))
    · rw [if_pos hpte] at hwalk
      have hmapped : (s.walk p v).isSome = true := by rw [hwalk, Option.isSome_some]
      rw [if_pos hpte, if_pos hmapped]
      refine (copyMapped_spec h hp hn hlo hv hwalk).mono (fun _ _ hcopied => hcopied) ?_
      rintro e ⟨rfl, hlen⟩
      exact ⟨rfl, hmapped, hlen⟩
    · rw [if_neg hpte] at hwalk
      rw [if_neg hpte, wp_pure]
      exact hnothing hwalk
  · refine (vm_walkpte_absent hpde).imp ?_
    rintro r s₁ ⟨hs₁, rfl⟩
    rw [hs₁]
    simp only
    rw [wp_pure]
    refine hnothing ?_
    unfold Vm.walk
    rw [if_neg hpde]

/-- How many of the `k` pages from `u` on are mapped. -/
def Vm.mapped (s : Vm) (p u k : ℕ) : ℕ := ((List.range k).filter fun j => (s.walk p (u + j)).isSome).length

theorem mapped_succ (s : Vm) (p u k : ℕ) :
    s.mapped p u (k + 1) = s.mapped p u k + if (s.walk p (u + k)).isSome then 1 else 0 := by
  unfold Vm.mapped
  rw [List.range_succ, List.filter_append, List.length_append, List.filter_singleton]
  cases (s.walk p (u + k)).isSome <;> rfl

theorem mapped_mono (s : Vm) (p u : ℕ) {k k' : ℕ} (h : k ≤ k') : s.mapped p u k ≤ s.mapped p u k' := by
  induction h with
  | refl => exact le_rfl
  | step _ ih =>
    rw [mapped_succ]
    exact Nat.le_add_right_of_le ih

/-- **The pages of the current address space are copied**, up to `USR_MEM`. -/
theorem vm_copycurr_spec (h : s.Owned L role free) {p : ℕ} (hp : role p = .dir) (hn : role n = .dir)
    (hcr3 : s.cr3 = p * 4096) :
    wp (vm_copycurr (n * 4096)) (fun _ s' => ∃ role' free', s'.Owned L role' free' ∧
        Copies s role s' role' p n (fun v => 32768 ≤ v ∧ v < 786432) ∧
        free.length ≤ free'.length + 2 * s.mapped p 32768 753664)
      (fun e => e = .noPage ∧ free.length < 2 * s.mapped p 32768 753664) s := by
  rw [vm_copycurr]
  have hcount : (USR_MEM - PHY_MEM) / PGSIZE = 753664 := by decide
  have hstart : PHY_MEM = 32768 * 4096 := by decide
  rw [hcount, hstart]
  -- the invariant is on the pages that have been copied so far, two frames each
  refine wp_loop_index (fun k _ s' => ∃ role' free', s'.Owned L role' free' ∧
    Copies s role s' role' p n (fun v => 32768 ≤ v ∧ v < 32768 + k) ∧
    free.length ≤ free'.length + 2 * s.mapped p 32768 k) _ () ?_ ?_ ?_
  · refine ⟨role, free, h, .refl ?_, Nat.le_add_right _ _⟩
    rintro v ⟨hle, hlt⟩
    omega
  · rintro k va hk - s₁ ⟨role₁, free₁, h₁, hcopies, hlen₁⟩
    obtain ⟨hkc, rfl⟩ := getElem?_pages hk
    have hva : 32768 * 4096 + k * 4096 = (32768 + k) * 4096 := by omega
    have hcr3₁ : s₁.cr3 = p * 4096 := hcopies.cr3.trans hcr3
    have hlt : 32768 + k < USR_MEM / PGSIZE := by
      change 32768 + k < 786432
      omega
    have hsrc := hcopies.source hp (v := 32768 + k) (by omega)
    rw [hva]
    refine (copyPage_spec h₁ (hcopies.dir hp) (hcopies.dir hn) hcr3₁ (by omega) hlt).mono ?_ ?_
    · rintro - s' ⟨role', free', h', hcopy, hlen⟩
      rw [hsrc] at hlen
      refine ⟨role', free', h', ?_, ?_⟩
      · refine (hcopies.trans hcopy h h₁ hp hn ?_ ?_).mono fun v => ?_
        · rintro v (hv | rfl) <;> omega
        · rintro v hv rfl
          omega
        · omega
      · rw [mapped_succ]
        split at hlen
        case isTrue hsome =>
          rw [if_pos hsome]
          omega
        case isFalse hnone =>
          rw [if_neg hnone]
          omega
    · rintro e ⟨rfl, hsome, hlen⟩
      rw [hsrc] at hsome
      have hmono := @mapped_mono s p 32768 (k + 1) 753664 (by omega)
      rw [mapped_succ, if_pos hsome] at hmono
      exact ⟨rfl, by omega⟩
  · rintro - s' hs'
    rw [length_pages] at hs'
    exact hs'

/-! ### Starting -/

theorem identity_address (hj : j < 1024) :
    i <<< 22 ||| j <<< 12 = (i * 1024 + j) * 4096 := by
  have hlow : j <<< 12 < 2 ^ 22 := by
    rw [Nat.shiftLeft_eq]
    omega
  rw [← Nat.shiftLeft_add_eq_or_of_lt hlow, Nat.shiftLeft_eq, Nat.shiftLeft_eq]
  omega

theorem initTables_spec {F : Abort → Prop} : wp (initTables L) (fun _ s' =>
    s'.free_page_list = s.free_page_list ∧ s'.cr3 = s.cr3 ∧
      (∀ i < 1024, pteAt s'.mem L.kpd i = if i < 32 then MAKE_PTE ((L.kpt + i) * 4096) 3
        else pteAt s.mem L.kpd i) ∧
      ∀ i < 32, ∀ j < 1024, pteAt s'.mem (L.kpt + i) j = MAKE_PTE ((i * 1024 + j) * 4096) 3)
    F s := by
  unfold initTables
  have hcount : PHY_MEM / PT_SIZE = 32 := by decide
  rw [hcount]
  generalize hrows : List.range 32 = rows
  generalize hcols : List.range NR_PTE = cols
  rw [List.range_eq_range'] at hcols
  refine wp_loop_index (fun k _ s' => s'.free_page_list = s.free_page_list ∧ s'.cr3 = s.cr3 ∧
    (∀ i < 1024, pteAt s'.mem L.kpd i = if i < k then MAKE_PTE ((L.kpt + i) * 4096) 3
      else pteAt s.mem L.kpd i) ∧
    ∀ i < k, ∀ j < 1024, pteAt s'.mem (L.kpt + i) j = MAKE_PTE ((i * 1024 + j) * 4096) 3)
    _ () ?_ ?_ ?_
  · exact ⟨rfl, rfl, fun i _ => by rw [if_neg (Nat.not_lt_zero i)],
      fun i hi => (Nat.not_lt_zero i hi).elim⟩
  · rintro k i hk - s₁ ⟨hfree₁, hcr3₁, hdir₁, htable₁⟩
    subst hrows
    obtain ⟨hkc, heq⟩ := List.getElem?_eq_some_iff.mp hk
    rw [List.length_range] at hkc
    rw [List.getElem_range] at heq
    subst heq
    have hapart : L.kpd < L.kpt ∨ L.kpt + 32 ≤ L.kpd := L.apart
    rw [wp_bind, store, wp_update]
    set s₂ : Vm := ⟨s₁.mem.splice (L.kpd * 4096 + 4 * k)
      (Mem.wordBytes (MAKE_PTE ((L.kpt + k) * 4096) 3)), s₁.free_page_list, s₁.cr3⟩ with hs₂
    refine (stores_spec (fun j => MAKE_PTE (k <<< 22 ||| j <<< 12) 3) (L.kpt + k) hcols
      (by decide)).imp ?_
    rintro - s' ⟨hfree', hcr3', hsame, hentry⟩
    refine ⟨hfree'.trans hfree₁, hcr3'.trans hcr3₁, fun i hi => ?_, fun i hi j hj => ?_⟩
    · rw [(hsame L.kpd (by omega)).entry hi]
      by_cases hik : i = k
      · subst hik
        rw [if_pos (Nat.lt_succ_self i)]
        exact entry_store_self
      · have hiff : i < k + 1 ↔ i < k := by omega
        have hstore : pteAt s₂.mem L.kpd i = pteAt s₁.mem L.kpd i := entry_store_ne hik
        rw [hstore, hdir₁ i hi]
        simp only [hiff]
    · by_cases hik : i = k
      · subst hik
        have hrange : 0 ≤ j ∧ j < 0 + NR_PTE := ⟨Nat.zero_le j, by rw [Nat.zero_add]; exact hj⟩
        rw [hentry j hj, if_pos hrange, identity_address hj]
      · have hsame₂ : SamePage s₁.mem s₂.mem (L.kpt + i) := samePage_store (by omega) (by omega)
        rw [(hsame _ (by omega)).entry hj, hsame₂.entry hj]
        exact htable₁ i (by omega) j hj
  · rintro - s' hs'
    subst hrows
    rwa [List.length_range] at hs'

/-- The pages of the heap. -/
def heapPages : List ℕ := List.range' 512 32256

theorem initHeap_spec {F : Abort → Prop} : wp initHeap (fun _ s' =>
    s'.cr3 = s.cr3 ∧ s'.free_page_list = 512 * 4096 ∧
      (∀ n, n < 512 → SamePage s.mem s'.mem n) ∧
      ∀ n, 512 ≤ n → n < 32768 →
        (pteAt s'.mem n 0).toNat = if n + 1 < 32768 then (n + 1) * 4096 else 0) F s := by
  unfold initHeap
  rw [wp_bind, wp_update, wp_bind]
  have hstart : KER_MEM = 512 * 4096 := by decide
  have hcount : HEAP_PAGES = 32256 := by decide
  rw [hstart, hcount]
  refine wp.mono (wp_loop_index (fun k _ s' => s'.cr3 = s.cr3 ∧ s'.free_page_list = 512 * 4096 ∧
    (∀ n, n < 512 → SamePage s.mem s'.mem n) ∧
    ∀ n, 512 ≤ n → n < 512 + k → (pteAt s'.mem n 0).toNat = (n + 1) * 4096)
    _ () ?_ ?_ fun _ _ hs' => hs') ?_ fun _ hfail => hfail
  · exact ⟨rfl, rfl, fun n _ => .refl _ n, fun n hle hlt => by omega⟩
  · rintro k a hk - s₁ ⟨hcr3, hfree, hsame, hnext⟩
    obtain ⟨hkc, rfl⟩ := getElem?_pages hk
    have haddr : 512 * 4096 + k * 4096 = (512 + k) * 4096 + 4 * 0 := by omega
    rw [haddr, store, wp_update]
    refine ⟨hcr3, hfree, fun n hn => (hsame n hn).trans (samePage_store (by decide) (by omega)),
      fun n hle hlt => ?_⟩
    by_cases hnk : n = 512 + k
    · subst hnk
      rw [entry_store_self, UInt32.toNat_ofNat']
      change ((512 + k) * 4096 + 4 * 0 + 4096) % 4294967296 = _
      omega
    · have hsame₁ : SamePage s₁.mem (s₁.mem.splice ((512 + k) * 4096 + 4 * 0)
          (Mem.wordBytes (UInt32.ofNat ((512 + k) * 4096 + 4 * 0 + PGSIZE)))) n :=
        samePage_store (by decide) hnk
      rw [hsame₁.entry (by decide)]
      exact hnext n hle (by omega)
  · rintro - s₁ ⟨hcr3, hfree, hsame, hnext⟩
    rw [length_pages] at hnext
    have haddr : PHY_MEM - PGSIZE = 32767 * 4096 + 4 * 0 := by decide
    rw [haddr, store, wp_update]
    refine ⟨hcr3, hfree, fun n hn => (hsame n hn).trans (samePage_store (by decide) (by omega)),
      fun n hle hlt => ?_⟩
    by_cases hn : n = 32767
    · subst hn
      rw [entry_store_self, if_neg (by decide)]
      rfl
    · have hsame₁ : SamePage s₁.mem (s₁.mem.splice (32767 * 4096 + 4 * 0) (Mem.wordBytes 0)) n :=
        samePage_store (by decide) hn
      rw [hsame₁.entry (by decide), if_pos (by omega)]
      exact hnext n hle (by omega)

/-- The parts of the pages after `init_page`. -/
def firstRole (L : Statics) (n : ℕ) : Role :=
  if n = L.kpd then .dir else if 512 ≤ n ∧ n < 32768 then .free else .kernel

theorem chain_heap (h : ∀ n, 512 ≤ n → n < 32768 →
    (pteAt m n 0).toNat = if n + 1 < 32768 then (n + 1) * 4096 else 0) (k : ℕ) (a : ℕ)
    (hlo : 512 ≤ a) (ha : a + k = 32767) : Chain m (a * 4096) (List.range' a (k + 1)) := by
  induction k generalizing a with
  | zero =>
    refine ⟨rfl, ?_⟩
    rw [h a hlo (by omega), if_neg (by omega)]
    exact rfl
  | succ k ih =>
    refine ⟨rfl, ?_⟩
    rw [h a hlo (by omega), if_pos (by omega)]
    exact ih (a + 1) (by omega) (by omega)

/-- **The kernel starts** with all pages of the heap free. -/
theorem init_page_spec {F : Abort → Prop} (hzero : ZeroPage s.mem L.kpd) :
    wp (init_page L) (fun _ s' => s'.Owned L (firstRole L) heapPages ∧ s'.cr3 = L.kpd * 4096 ∧
      ∀ v, 32768 ≤ v → v < 2 ^ 20 → s'.walk L.kpd v = none) F s := by
  rw [init_page, wp_bind]
  refine initTables_spec.imp ?_
  rintro - s₁ ⟨-, -, hdir₁, htable₁⟩
  have hkpd : L.kpd < 512 := L.kpd_lt
  have hkpt : L.kpt + 32 ≤ 512 := L.kpt_lt
  have hapart : L.kpd < L.kpt ∨ L.kpt + 32 ≤ L.kpd := L.apart
  have haddr : L.kpt * PGSIZE = L.kpt * 4096 + 4 * 0 := by
    rw [Nat.mul_zero, Nat.add_zero]
  rw [wp_bind, store, wp_update, haddr, wp_bind, set_cr3, wp_update]
  set s₂ : Vm := ⟨s₁.mem.splice (L.kpt * 4096 + 4 * 0) (Mem.wordBytes 0), s₁.free_page_list,
    L.kpd * 4096⟩ with hs₂
  refine (initHeap_spec (s := s₂)).imp ?_
  rintro - s' ⟨hcr3, hfree, hsame, hnext⟩
  have hsame₂ {n : ℕ} (hn : n < 512) (hne : n ≠ L.kpt) : SamePage s₁.mem s'.mem n :=
    (samePage_store (by decide) hne).trans (hsame n hn)
  -- the directory has the 32 tables of the kernel and nothing else
  have hdir {i : ℕ} (hi : i < 1024) : pteAt s'.mem L.kpd i =
      if i < 32 then MAKE_PTE ((L.kpt + i) * 4096) 3 else 0 := by
    rw [(hsame₂ hkpd (by omega)).entry hi, hdir₁ i hi, hzero.entry hi]
  have hfirst : firstRole L L.kpd = .dir := if_pos rfl
  refine ⟨⟨fun n hn => ?_, ?_, List.nodup_range', fun n => ?_, hfirst, fun i hi j hj => ?_,
    fun n hn i hi => ?_, fun n hn i hlo hi hp => ?_, fun t n i ht => ?_⟩, hcr3, fun v hlo hv => ?_⟩
  · by_contra hnot
    rw [not_or] at hnot
    exact hn (by rw [firstRole, if_neg hnot.1, if_neg hnot.2])
  · rw [hfree]
    exact chain_heap hnext 32255 512 le_rfl rfl
  · rw [heapPages, List.mem_range'_1, firstRole]
    by_cases hn : n = L.kpd
    · rw [if_pos hn]
      exact iff_of_false (by omega) (by simp)
    · rw [if_neg hn]
      by_cases hr : 512 ≤ n ∧ n < 32768
      · rw [if_pos hr]
        exact iff_of_true (by omega) rfl
      · rw [if_neg hr]
        exact iff_of_false (by omega) (by simp)
  -- the first entry of the first table is cleared, the others are the identity
  · by_cases hi0 : i = 0
    · subst hi0
      rw [Nat.add_zero, (hsame _ (by omega)).entry hj]
      by_cases hj0 : j = 0
      · subst hj0
        rw [if_pos ⟨rfl, rfl⟩]
        exact entry_store_self
      · have hstore : pteAt s₂.mem L.kpt j = pteAt s₁.mem L.kpt j := entry_store_ne hj0
        rw [if_neg (by omega), hstore]
        exact htable₁ 0 (by omega) j hj
    · rw [if_neg (by omega), (hsame₂ (by omega) (by omega)).entry hj]
      exact htable₁ i hi j hj
  · have hkn : n = L.kpd := by
      by_contra hne
      rw [firstRole, if_neg hne] at hn
      split at hn <;> cases hn
    subst hkn
    rw [hdir (by omega), if_pos hi]
  · have hkn : n = L.kpd := by
      by_contra hne
      rw [firstRole, if_neg hne] at hn
      split at hn <;> cases hn
    subst hkn
    rw [hdir hi, if_neg (by omega)] at hp
    exact (not_present_zero hp).elim
  -- there are no other tables yet
  · unfold firstRole at ht
    split at ht
    · cases ht
    · split at ht <;> cases ht
  · have hnone : ¬ present (pteAt s'.mem L.kpd (v / 1024)) := by
      rw [hdir (by omega), if_neg (by omega)]
      exact not_present_zero
    rw [Vm.walk, if_neg hnone]

end Oslab
