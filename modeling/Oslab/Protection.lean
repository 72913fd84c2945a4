/-
# The entries that `vm_map` sets

A page that `vm_map` finds mapped keeps the bits of its entry, and so does a page
table that is there. So a range gets the protection that is asked for exactly when
whatever there is of it has that protection already.
-/
import Oslab.Isolation

namespace Oslab

open Lib Lib.Prog

/-- The entry of the directory for page `v`. -/
def Vm.pde (s : Vm) (n v : ℕ) : UInt32 := pteAt s.mem n (v / 1024)

/-- The entry of the page table for page `v`; without a page table there is none. -/
def Vm.pte (s : Vm) (n v : ℕ) : UInt32 :=
  if present (s.pde n v) then pteAt s.mem (frameOf (s.pde n v)) (v % 1024) else 0

/-- The entry has the bits of `prot`. -/
def HasBits (entry : UInt32) (prot : ℕ) : Prop := entry &&& UInt32.ofNat prot = UInt32.ofNat prot

/-- The pages from `PAGE_DOWN(va)` to `PAGE_UP(va + len)`. -/
def InRange (va len v : ℕ) : Prop :=
  PAGE_DOWN va / PGSIZE ≤ v ∧ v < PAGE_UP ((va + len) % ADDR_END) / PGSIZE

/-- What `vm_map(pgdir, va, len, prot)` is to do to the directory in page `n`. -/
structure Vm.MapsRange (s s' : Vm) (n va len prot : ℕ) : Prop where
  mapped : ∀ v, InRange va len v →
    present (s'.pte n v) ∧ HasBits (s'.pte n v) prot ∧ HasBits (s'.pde n v) prot
  old : ∀ v, InRange va len v → present (s.pte n v) →
    s'.pte n v = s.pte n v ||| UInt32.ofNat prot ∧ SamePage s.mem s'.mem (frameOf (s.pte n v))
  fresh : ∀ v, InRange va len v → ¬ present (s.pte n v) →
    Linked s.mem s.free_page_list (frameOf (s'.pte n v) * PGSIZE) ∧
      ZeroPage s'.mem (frameOf (s'.pte n v)) ∧
      ∀ u, InRange va len u → frameOf (s'.pte n u) = frameOf (s'.pte n v) → u = v
  outside : ∀ v, v < 2 ^ 20 → ¬ InRange va len v → s'.pte n v = s.pte n v

/-- Whatever there is of the range has the protection. -/
def Vm.Protected (s : Vm) (n va len prot : ℕ) : Prop :=
  ∀ v, InRange va len v → (present (s.pde n v) → HasBits (s.pde n v) prot) ∧
    (present (s.pte n v) → HasBits (s.pte n v) prot)

variable {L : Statics} {s s' s'' : Vm} {x : Paging} {role role' : ℕ → Role} {free free' : List ℕ}
  {n u v f t prot : ℕ} {R R' : ℕ → Prop}

theorem hasBits_or (entry : UInt32) (prot : ℕ) : HasBits (entry ||| UInt32.ofNat prot) prot := by
  unfold HasBits
  apply UInt32.toBitVec_inj.mp
  simp only [UInt32.toBitVec_and, UInt32.toBitVec_or]
  ext i hi
  simp only [BitVec.getElem_and, BitVec.getElem_or]
  cases (UInt32.ofNat prot).toBitVec[i] <;> simp

theorem or_of_hasBits {entry : UInt32} (h : HasBits entry prot) :
    entry ||| UInt32.ofNat prot = entry := by
  unfold HasBits at h
  rw [← h]
  apply UInt32.toBitVec_inj.mp
  simp only [UInt32.toBitVec_and, UInt32.toBitVec_or]
  ext i hi
  simp only [BitVec.getElem_and, BitVec.getElem_or]
  cases entry.toBitVec[i] <;> simp

/-- A new entry has the protection. -/
theorem hasBits_MAKE_PTE (addr prot : ℕ) : HasBits (MAKE_PTE addr prot) prot := by
  have hsplit : MAKE_PTE addr prot =
      (UInt32.ofNat (PAGE_DOWN addr ||| PTE_P)) ||| UInt32.ofNat prot := by
    rw [MAKE_PTE, ← UInt32.ofNat_or, Nat.or_assoc, Nat.or_comm prot, Nat.or_assoc]
  rw [hsplit]
  exact hasBits_or _ _

/-- A page is translated as its entry says. -/
theorem Vm.walk_eq_pte (s : Vm) (n v : ℕ) :
    s.walk n v = if present (s.pte n v) then some (frameOf (s.pte n v)) else none := by
  rw [Vm.walk, Vm.pte, Vm.pde]
  by_cases hpde : present (pteAt s.mem n (v / 1024))
  · rw [if_pos hpde, if_pos hpde]
  · rw [if_neg hpde, if_neg hpde, if_neg not_present_zero]

/-! ### What one call sets -/

/-- Entries that are there stay; the new ones have the protection `prot`, and those of pages are for
pages in `R`. -/
structure Sets (s s' : Vm) (n prot : ℕ) (R : ℕ → Prop) : Prop where
  pde_old : ∀ v, v < 2 ^ 20 → present (s.pde n v) → s'.pde n v = s.pde n v
  pde_new : ∀ v, v < 2 ^ 20 → ¬ present (s.pde n v) → present (s'.pde n v) →
    ∃ t < 2 ^ 20, s'.pde n v = MAKE_PTE (t * 4096) prot
  pte_old : ∀ v, v < 2 ^ 20 → present (s.pte n v) ∨ ¬ R v → s'.pte n v = s.pte n v
  pte_new : ∀ v, v < 2 ^ 20 → ¬ present (s.pte n v) → present (s'.pte n v) →
    ∃ f < 2 ^ 20, s'.pte n v = MAKE_PTE (f * 4096) prot

namespace Sets

theorem refl (s : Vm) (n prot : ℕ) (R : ℕ → Prop) : Sets s s n prot R :=
  ⟨fun _ _ _ => rfl, fun _ _ hnot hp => (hnot hp).elim, fun _ _ _ => rfl,
    fun _ _ hnot hp => (hnot hp).elim⟩

theorem trans (h : Sets s s' n prot R) (h' : Sets s' s'' n prot R') :
    Sets s s'' n prot fun v => R v ∨ R' v := by
  refine ⟨?_, ?_, ?_, ?_⟩
  · intro v hv hp
    have hp' := h.pde_old v hv hp
    rw [h'.pde_old v hv (by rwa [hp']), hp']
  · intro v hv hnot hp
    by_cases hmid : present (s'.pde n v)
    · rw [h'.pde_old v hv hmid]
      exact h.pde_new v hv hnot hmid
    · exact h'.pde_new v hv hmid hp
  · intro v hv hor
    rcases hor with hp | hR
    · have hp' := h.pte_old v hv (Or.inl hp)
      rw [h'.pte_old v hv (Or.inl (by rwa [hp'])), hp']
    · rw [h'.pte_old v hv (Or.inr fun hR' => hR (Or.inr hR')),
        h.pte_old v hv (Or.inr fun hR' => hR (Or.inl hR'))]
  · intro v hv hnot hp
    by_cases hmid : present (s'.pte n v)
    · rw [h'.pte_old v hv (Or.inl hmid)]
      exact h.pte_new v hv hnot hmid
    · exact h'.pte_new v hv hmid hp

theorem mono (h : Sets s s' n prot R) (hR : ∀ v, R v → R' v) : Sets s s' n prot R' :=
  ⟨h.pde_old, h.pde_new, fun v hv hor => h.pte_old v hv (hor.imp_right fun hnot hv' => hnot (hR v hv')),
    h.pte_new⟩

end Sets

/-- The page table of a page is a page table. -/
theorem Vm.Owned.table_role (h : s.Owned L role free) (hn : role n = .dir) (hv : v < 2 ^ 20)
    (hp : present (s.pde n v)) : role (frameOf (s.pde n v)) = .table n (v / 1024) ∨
      role (frameOf (s.pde n v)) = .kernel := by
  by_cases hlow : v / 1024 < 32
  · right
    have hkpt : L.kpt + 32 ≤ 512 := L.kpt_lt
    rw [Vm.pde, h.low n hn _ hlow, frameOf_MAKE_PTE _ (by decide)]
    · exact h.kernel hlow
    · omega
  · exact Or.inl (h.high n hn _ (by omega) (by omega) hp)

/-- Looking for the entry of a page makes a page table at most. -/
theorem vm_walkpte_sets (h : s.Owned L role free) (hn : role n = .dir) (hprot : prot ≤ 7)
    (hpos : prot ≠ 0) (hlo : 32768 ≤ v) (hv : v < 2 ^ 20) :
    wp (vm_walkpte (n * 4096) (v * 4096) prot) (fun _ s' => Sets s s' n prot fun _ => False)
      (fun _ => True) s := by
  by_cases hp : present (pteAt s.mem n (v / 1024))
  · refine (vm_walkpte_present hprot hp).imp ?_
    rintro r s₁ ⟨rfl, -⟩
    exact .refl s₁ n prot _
  · have hdir : ADDR2DIR (v * 4096) = v / 1024 := by
      change v * 4096 / 4194304 = v / 1024
      omega
    have hi : v / 1024 < 1024 := by omega
    rw [vm_walkpte, hdir, wp_bind, wp_assert]
    refine ⟨fun _ => ?_, fun _ => trivial⟩
    rw [wp_bind, load, wp_read]
    change wp (if present (pteAt s.mem n (v / 1024)) then _ else _) _ _ _
    rw [if_neg hp, if_neg hpos, wp_bind]
    refine (kalloc_spec h).mono ?_ fun _ _ => trivial
    rintro a s₁ ⟨t, rest, rfl, rfl, ht, hmem₁, -, -⟩
    rw [wp_bind, memset, wp_update, wp_bind, store, wp_update, wp_bind, wp_read, wp_pure]
    set w := MAKE_PTE (t * 4096) prot with hw
    set s₂ : Vm := { s₁ with mem := s₁.mem.fill (t * 4096) 4096 0 } with hs₂
    set s₃ : Vm := { s₂ with mem := s₂.mem.splice (n * 4096 + 4 * (v / 1024)) (Mem.wordBytes w) }
      with hs₃
    have hne {k : ℕ} {r : Role} (hk : role k = r) (hr : r ≠ .free) : k ≠ t := by
      intro heq
      rw [heq, ht] at hk
      exact hr hk.symm
    have htlt : t < 2 ^ 20 := by
      have hlt := h.lt (n := t) (by simp [ht])
      omega
    have hframe : frameOf w = t := frameOf_MAKE_PTE htlt hprot
    have hsame {k : ℕ} (hkt : k ≠ t) (hkn : k ≠ n) : SamePage s.mem s₃.mem k := by
      have hfirst : SamePage s.mem s₂.mem k := by
        rw [← hmem₁]
        exact samePage_memset hkt
      exact hfirst.trans (samePage_store hi hkn)
    have hself (u : ℕ) (hu : u / 1024 = v / 1024) : s₃.pde n u = w := by
      rw [Vm.pde, hu]
      exact entry_store_self
    have hother (u : ℕ) (hu : u / 1024 ≠ v / 1024) (hlt : u < 2 ^ 20) : s₃.pde n u = s.pde n u := by
      have hstore : s₃.pde n u = s₂.pde n u := entry_store_ne hu
      have hmemset : SamePage s.mem s₂.mem n := by
        rw [← hmem₁]
        exact samePage_memset (hne hn (by simp))
      rw [hstore]
      exact hmemset.entry (by omega)
    -- the new page table is empty
    have hzero : ZeroPage s₃.mem t :=
      (samePage_store hi (hne hn (by simp)).symm).zero zeroPage_memset
    have hpte (u : ℕ) (hlt : u < 2 ^ 20) : s₃.pte n u = s.pte n u := by
      rw [Vm.pte, Vm.pte]
      by_cases hu : u / 1024 = v / 1024
      · have hnone : ¬ present (s.pde n u) := by
          rw [Vm.pde, hu]
          exact hp
        rw [hself u hu, if_pos (present_MAKE_PTE htlt hprot), hframe, if_neg hnone]
        exact hzero.entry (by omega)
      · rw [hother u hu hlt]
        by_cases hpu : present (s.pde n u)
        · rw [if_pos hpu, if_pos hpu]
          refine (hsame ?_ ?_).entry (by omega)
          · rcases h.table_role hn hlt hpu with hr | hr
            · exact hne hr (by simp)
            · exact hne hr (by simp)
          · intro heq
            rcases h.table_role hn hlt hpu with hr | hr <;> rw [heq, hn] at hr <;> cases hr
        · rw [if_neg hpu, if_neg hpu]
    refine ⟨?_, ?_, fun u hlt _ => hpte u hlt, ?_⟩
    · intro u hlt hpu
      apply hother u _ hlt
      intro hu
      rw [Vm.pde, hu] at hpu
      exact hp hpu
    · intro u hlt hnot hpu
      by_cases hu : u / 1024 = v / 1024
      · exact ⟨t, htlt, hself u hu⟩
      · rw [hother u hu hlt] at hpu
        exact (hnot hpu).elim
    · intro u hlt hnot hpu
      rw [hpte u hlt] at hpu
      exact (hnot hpu).elim

/-- An entry of a page table is set if it is not there. -/
theorem mapFrame_sets (h : s.Owned L role free) (hn : role n = .dir) (hlo : 32768 ≤ v)
    (hv : v < 2 ^ 20) (hp : present (s.pde n v)) :
    wp (do
        let pte ← load (frameOf (s.pde n v) * 4096 + 4 * (v % 1024))
        if ¬ present pte then
          let page ← kalloc
          memset page 0 PGSIZE
          store (frameOf (s.pde n v) * 4096 + 4 * (v % 1024)) (MAKE_PTE page prot))
      (fun _ s' => Sets s s' n prot (· = v)) (fun _ => True) s := by
  set t := frameOf (s.pde n v) with hteq
  have ht : role t = .table n (v / 1024) := h.high n hn _ (by omega) (by omega) hp
  have hj : v % 1024 < 1024 := by omega
  rw [wp_bind, load, wp_read]
  change wp (if ¬ present (pteAt s.mem t (v % 1024)) then _ else _) _ _ _
  have hpte : s.pte n v = pteAt s.mem t (v % 1024) := if_pos hp
  by_cases hthere : present (pteAt s.mem t (v % 1024))
  · rw [if_neg (not_not.mpr hthere), wp_pure]
    exact .refl s n prot _
  · rw [if_pos hthere, wp_bind]
    refine (kalloc_spec h).mono ?_ fun _ _ => trivial
    rintro a s₁ ⟨f, rest, rfl, rfl, hf, hmem₁, -, -⟩
    rw [wp_bind, memset, wp_update, store, wp_update]
    set w := MAKE_PTE (f * 4096) prot with hw
    set s₂ : Vm := { s₁ with mem := s₁.mem.fill (f * 4096) 4096 0 } with hs₂
    set s₃ : Vm := { s₂ with mem := s₂.mem.splice (t * 4096 + 4 * (v % 1024)) (Mem.wordBytes w) }
      with hs₃
    have hne {k : ℕ} {r : Role} (hk : role k = r) (hr : r ≠ .free) : k ≠ f := by
      intro heq
      rw [heq, hf] at hk
      exact hr hk.symm
    have hflt : f < 2 ^ 20 := by
      have hlt := h.lt (n := f) (by simp [hf])
      omega
    have hsame₂ {k : ℕ} (hkf : k ≠ f) : SamePage s.mem s₂.mem k := by
      rw [← hmem₁]
      exact samePage_memset hkf
    have hnt : n ≠ t := by
      intro heq
      rw [← heq, hn] at ht
      cases ht
    have hpde (u : ℕ) (hlt : u < 2 ^ 20) : s₃.pde n u = s.pde n u :=
      ((hsame₂ (hne hn (by simp))).trans (samePage_store hj hnt)).entry (by omega)
    have hself : s₃.pte n v = w := by
      rw [Vm.pte, hpde v hv, if_pos hp]
      exact entry_store_self
    have hother (u : ℕ) (hlt : u < 2 ^ 20) (huv : u ≠ v) : s₃.pte n u = s.pte n u := by
      rw [Vm.pte, Vm.pte, hpde u hlt]
      by_cases hpu : present (s.pde n u)
      · rw [if_pos hpu, if_pos hpu]
        have htu := h.table_role hn hlt hpu
        have htuf : frameOf (s.pde n u) ≠ f := by
          rcases htu with hr | hr
          · exact hne hr (by simp)
          · exact hne hr (by simp)
        by_cases htt : frameOf (s.pde n u) = t
        · -- another entry of the same table
          have hdiv : u / 1024 = v / 1024 := by
            rw [htt, ht] at htu
            rcases htu with hr | hr
            · exact (Role.table.inj hr).2.symm
            · cases hr
          have hstore : pteAt s₃.mem t (u % 1024) = pteAt s₂.mem t (u % 1024) :=
            entry_store_ne (by omega)
          rw [htt, hstore]
          exact (hsame₂ (hne ht (by simp))).entry (by omega)
        · exact ((hsame₂ htuf).trans (samePage_store hj htt)).entry (by omega)
      · rw [if_neg hpu, if_neg hpu]
    refine ⟨fun u hlt _ => hpde u hlt, ?_, ?_, ?_⟩
    · intro u hlt hnot hpu
      rw [hpde u hlt] at hpu
      exact (hnot hpu).elim
    · intro u hlt hor
      apply hother u hlt
      intro huv
      subst huv
      rcases hor with hpu | hne'
      · rw [hpte] at hpu
        exact hthere hpu
      · exact hne' rfl
    · intro u hlt hnot hpu
      by_cases huv : u = v
      · subst huv
        exact ⟨f, hflt, hself⟩
      · rw [hother u hlt huv] at hpu
        exact (hnot hpu).elim

theorem mapPage_sets (h : s.Owned L role free) (hn : role n = .dir) (hprot : prot ≤ 7)
    (hpos : prot ≠ 0) (hlo : 32768 ≤ v) (hv : v < 2 ^ 20) :
    wp (mapPage (n * 4096) prot (v * 4096)) (fun _ s' => Sets s s' n prot (· = v))
      (fun _ => True) s := by
  rw [mapPage, wp_bind]
  by_cases hp : present (pteAt s.mem n (v / 1024))
  · refine (vm_walkpte_present hprot hp).imp ?_
    rintro r s₁ ⟨hs₁, rfl⟩
    rw [hs₁]
    exact mapFrame_sets h hn hlo hv hp
  · have hboth := (vm_walkpte_new h hn hprot hpos hlo hv hp).and
      (vm_walkpte_sets h hn hprot hpos hlo hv)
    refine hboth.mono ?_ fun _ _ => trivial
    rintro r s₁ ⟨⟨t, rest, rfl, rfl, h₁, hgrows₁, hp₁, hframe, -⟩, hsets₁⟩
    simp only
    have hn₁ : Function.update role t (.table n (v / 1024)) n = .dir := by
      rw [hgrows₁.kept n (by simp [hn]), hn]
    have hpde₁ : frameOf (s₁.pde n v) = t := hframe
    have hnext : wp _ (fun _ s' => Sets s₁ s' n prot (· = v)) _ s₁ := mapFrame_sets h₁ hn₁ hlo hv hp₁
    rw [hpde₁] at hnext
    refine hnext.imp ?_
    intro _ s' hsets'
    exact (hsets₁.trans hsets').mono fun u hu => hu.resolve_left fun hfalse => hfalse

/-- **What `vm_map` sets.** -/
theorem vm_map_sets (h : s.Owned L role free) (hn : role n = .dir) {va len : ℕ} :
    wp (vm_map (n * 4096) va len prot) (fun _ s' => Sets s s' n prot (InRange va len) ∧ prot % 2 = 1 ∧
      prot ≤ 7 ∧ ¬ BadRange va len) (fun _ => True) s := by
  have hupdown : ∃ e, PAGE_UP ((va + len) % ADDR_END) = e * 4096 ∧ e < 2 ^ 20 := by
    refine ⟨((va + len) % ADDR_END + 4095) % ADDR_END / 4096, rfl, ?_⟩
    change ((va + len) % ADDR_END + 4095) % 4294967296 / 4096 < _
    omega
  obtain ⟨e, he, hlt⟩ := hupdown
  rw [vm_map, wp_bind, wp_assert]
  refine ⟨fun hodd => ?_, fun _ => trivial⟩
  rw [wp_bind, wp_assert]
  refine ⟨fun hprot => ?_, fun _ => trivial⟩
  dsimp only
  rw [wp_bind, wp_assert]
  refine ⟨fun hlow => ?_, fun _ => trivial⟩
  rw [wp_bind, wp_assert]
  refine ⟨fun hend => ?_, fun _ => trivial⟩
  have hgood : ¬ BadRange va len := by
    rintro (hbad | hbad)
    · exact absurd hlow (not_le.mpr hbad)
    · exact absurd hend (not_le.mpr hbad)
  have hrange (v : ℕ) : InRange va len v ↔ va / 4096 ≤ v ∧ v < e := by
    rw [InRange, he]
    change va / 4096 * 4096 / 4096 ≤ v ∧ v < e * 4096 / 4096 ↔ _
    omega
  rw [he, PAGE_DOWN_eq] at hend ⊢
  rw [PAGE_DOWN_eq] at hlow
  have hlow' : 32768 * 4096 ≤ va / 4096 * 4096 := hlow
  have hcount : (e * 4096 - va / 4096 * 4096) / PGSIZE = e - va / 4096 := by
    change (e * 4096 - va / 4096 * 4096) / 4096 = _
    omega
  rw [hcount]
  -- the invariant is on the pages that are done
  refine wp_loop_index (fun k _ s' => Sets s s' n prot (fun v => va / 4096 ≤ v ∧ v < va / 4096 + k) ∧
    ∃ role' free', s'.Owned L role' free' ∧ role' n = .dir) _ () ?_ ?_ ?_
  · exact ⟨.refl s n prot _, role, free, h, hn⟩
  · rintro k a hk - s₁ ⟨hsets₁, role₁, free₁, h₁, hn₁⟩
    obtain ⟨hkc, rfl⟩ := getElem?_pages hk
    have hva : va / 4096 * 4096 + k * 4096 = (va / 4096 + k) * 4096 := by omega
    have hlo : 32768 ≤ va / 4096 + k := by omega
    have hhi : va / 4096 + k < 2 ^ 20 := by omega
    rw [hva]
    refine ((mapPage_spec h₁ hn₁ hprot (by omega) hlo hhi).and
      (mapPage_sets h₁ hn₁ hprot (by omega) hlo hhi)).mono ?_ fun _ _ => trivial
    rintro - s' ⟨⟨role', free', h', hgrows, -⟩, hsets'⟩
    refine ⟨(hsets₁.trans hsets').mono ?_, role', free', h', ?_⟩
    · intro v hv
      omega
    · rw [hgrows.kept n (by simp [hn₁]), hn₁]
  · rintro - s' ⟨hsets, -⟩
    rw [length_pages] at hsets
    refine ⟨hsets.mono ?_, hodd, hprot, hgood⟩
    intro v hv
    rw [hrange]
    omega

/-! ### When a range gets its protection -/

/-- Free pages are on the free list. -/
theorem Chain.on_list {m : Mem} {ns : List ℕ} {a k : ℕ} (h : Chain m a ns) (hpos : ∀ n ∈ ns, 0 < n)
    (hk : k ∈ ns) : Linked m a (k * 4096) := by
  induction ns generalizing a with
  | nil => exact absurd hk List.not_mem_nil
  | cons n ns ih =>
    obtain ⟨rfl, hrest⟩ := h
    have hn : n * 4096 ≠ 0 := by
      have hn0 := hpos n List.mem_cons_self
      omega
    rcases List.mem_cons.mp hk with rfl | hmem
    · exact .head hn
    · refine .next hn ?_
      have hword : m.word (n * 4096) = pteAt m n 0 := by
        rw [pteAt, Nat.mul_zero, Nat.add_zero]
      rw [hword]
      exact ih hrest (fun j hj => hpos j (List.mem_cons_of_mem n hj)) hmem

theorem InRange.lt {va len : ℕ} (h : InRange va len v) : v < 2 ^ 20 := by
  have hhi : v < ((va + len) % 4294967296 + 4095) % 4294967296 / 4096 * 4096 / 4096 := h.2
  omega

theorem present_pde (hp : present (s.pte n v)) : present (s.pde n v) := by
  by_contra hnot
  rw [Vm.pte, if_neg hnot] at hp
  exact not_present_zero hp

theorem walk_of_pte (hp : present (s.pte n v)) : s.walk n v = some (frameOf (s.pte n v)) := by
  rw [Vm.walk_eq_pte, if_pos hp]

theorem pte_of_walk (hf : s.walk n v = some f) : present (s.pte n v) ∧ frameOf (s.pte n v) = f := by
  rw [Vm.walk_eq_pte] at hf
  split at hf
  case isTrue hp =>
    cases hf
    exact ⟨hp, rfl⟩
  case isFalse => cases hf

theorem maps_iff_protected {va len : ℕ} (howned : s.Owned L role free) (hn : role n = .dir)
    (hok : vm_map (n * 4096) va len prot s = .ok ((), s')) :
    s.MapsRange s' n va len prot ↔ s.Protected n va len prot := by
  obtain ⟨hsets, -, -, hgood⟩ := (vm_map_sets howned hn).of_ok hok
  obtain ⟨-, role', free', howned', hgrows, -⟩ := (vm_map_spec howned hn).of_ok hok
  constructor
  · -- what is there is left as it is
    intro hmaps v hv
    obtain ⟨-, hpte, hpde⟩ := hmaps.mapped v hv
    refine ⟨?_, ?_⟩
    · intro hp
      rwa [hsets.pde_old v hv.lt hp] at hpde
    · intro hp
      rwa [hsets.pte_old v hv.lt (Or.inl hp)] at hpte
  · intro hprot
    have hlo {v : ℕ} (hv : InRange va len v) : 32768 ≤ v := by
      by_contra hlow
      apply hgood
      left
      have hdown : va / 4096 * 4096 / 4096 ≤ v := hv.1
      change va / 4096 * 4096 < 134217728
      omega
    have hpages {v : ℕ} (hv : InRange va len v) : va / 4096 ≤ v ∧
        v < PAGE_UP ((va + len) % ADDR_END) / 4096 := by
      have hdown : va / 4096 * 4096 / 4096 ≤ v := hv.1
      exact ⟨by omega, hv.2⟩
    have hpresent {v : ℕ} (hv : InRange va len v) : present (s'.pte n v) := by
      cases hw : s.walk n v with
      | some f => exact (pte_of_walk (hgrows.old v f hv.lt hw)).1
      | none =>
        obtain ⟨f, hf, -⟩ := hgrows.new v hv.lt (hpages hv) hw
        exact (pte_of_walk hf).1
    refine ⟨?_, ?_, ?_, ?_⟩
    · intro v hv
      have hp' := hpresent hv
      refine ⟨hp', ?_, ?_⟩
      · by_cases hp : present (s.pte n v)
        · rw [hsets.pte_old v hv.lt (Or.inl hp)]
          exact (hprot v hv).2 hp
        · obtain ⟨f, -, hf⟩ := hsets.pte_new v hv.lt hp hp'
          rw [hf]
          exact hasBits_MAKE_PTE _ _
      · by_cases hp : present (s.pde n v)
        · rw [hsets.pde_old v hv.lt hp]
          exact (hprot v hv).1 hp
        · obtain ⟨t, -, ht⟩ := hsets.pde_new v hv.lt hp (present_pde hp')
          rw [ht]
          exact hasBits_MAKE_PTE _ _
    · intro v hv hp
      refine ⟨?_, ?_⟩
      · rw [hsets.pte_old v hv.lt (Or.inl hp), or_of_hasBits ((hprot v hv).2 hp)]
      · exact hgrows.same _ (Or.inr ⟨n, v, howned.frame hn (hlo hv) hv.lt (walk_of_pte hp)⟩)
    · intro v hv hnot
      have hnone : s.walk n v = none := by
        rw [Vm.walk_eq_pte, if_neg hnot]
      obtain ⟨f, hf, hfree, hzero⟩ := hgrows.new v hv.lt (hpages hv) hnone
      obtain ⟨-, hframe⟩ := pte_of_walk hf
      rw [hframe]
      refine ⟨?_, hzero, ?_⟩
      · have hpos (j : ℕ) (hj : j ∈ free) : 0 < j := by
          apply howned.pos
          rw [(howned.free j).mp hj]
          simp
        exact howned.chain.on_list hpos ((howned.free f).mpr hfree)
      · intro u hu hsame
        have hn' : role' n = .dir := by
          rw [hgrows.kept n (by simp [hn]), hn]
        have hu' := howned'.frame hn' (hlo hu) hu.lt (walk_of_pte (hpresent hu))
        rw [hsame] at hu'
        exact (Role.frame.inj (hu'.symm.trans (howned'.frame hn' (hlo hv) hv.lt hf))).2
    · intro v hv hnot
      exact hsets.pte_old v hv (Or.inr hnot)

/-- **A range gets its protection** exactly when whatever there is of it has it already. -/
theorem vm_map_protects {va len : ℕ} (h : (paging L).Reachable x) (hpd : n * PGSIZE ∈ x.dirs)
    (hok : vm_map (n * PGSIZE) va len prot x.vm = .ok ((), s')) :
    x.vm.MapsRange s' n va len prot ↔ x.vm.Protected n va len prot := by
  obtain ⟨role, free, hsound⟩ := paging_sound h
  exact maps_iff_protected hsound.owned (hsound.dir_page hpd) hok

/-- The page at `0x8048000`. -/
theorem inRange_first : InRange 134512640 4096 v ↔ v = 32840 := by
  change 134512640 / 4096 * 4096 / 4096 ≤ v ∧
    v < ((134512640 + 4096) % 4294967296 + 4095) % 4294967296 / 4096 * 4096 / 4096 ↔ _
  omega

/-- A new directory has no page tables but those of the kernel. -/
theorem vm_alloc_bare (h : s.Owned L role free) : wp (vm_alloc L) (fun a s' => ∀ v, 32768 ≤ v →
    v < 2 ^ 20 → ¬ present (s'.pde (a / 4096) v)) (fun _ => True) s := by
  rw [vm_alloc, wp_bind]
  refine (kalloc_spec h).mono ?_ fun _ _ => trivial
  rintro a s₁ ⟨n, rest, -, rfl, -⟩
  rw [wp_bind]
  refine fillDir_spec.imp ?_
  intro _ s₂ hfill
  obtain ⟨-, -, -, -, hhigh⟩ := hfill
  rw [wp_pure, Nat.mul_div_cancel n (by decide)]
  intro v hlo hv
  exact hhigh (v / 1024) (by omega) (by omega)

/-- A directory is made. -/
theorem directory_start : ∃ x n role free, (paging .low).Reachable x ∧ x.Sound .low role free ∧
    n * PGSIZE ∈ x.dirs ∧ 4 ≤ free.length ∧
    ∀ v, 32768 ≤ v → v < 2 ^ 20 → ¬ present (x.vm.pde n v) := by
  obtain ⟨x₀, role₀, free₀, hreach₀, h₀, -, -, hlen₀⟩ := paging_start
  obtain ⟨x, n, role, free, hstep, h, hdirs, -, -, hlen, -⟩ := alloc_step h₀ (by omega)
  have hreach := hreach₀.step hstep
  obtain ⟨pd, hok, hdirs', -⟩ := hstep
  have hpd : pd = n * PGSIZE := (List.cons.inj (hdirs'.symm.trans hdirs)).1
  have hnone := (vm_alloc_bare h₀.owned).of_ok hok
  rw [hpd, Nat.mul_div_cancel n (by decide)] at hnone
  refine ⟨x, n, role, free, hreach, h, ?_, by omega, hnone⟩
  rw [hdirs]
  exact List.mem_cons_self

/-- An entry for the kernel only is none for users. -/
theorem not_hasBits_kernel {f : ℕ} (hf : f < 2 ^ 20) : ¬ HasBits (MAKE_PTE (f * 4096) 3) 7 := by
  intro hbits
  have hnat := congrArg UInt32.toNat hbits
  rw [UInt32.toNat_and, toNat_MAKE_PTE hf (by decide)] at hnat
  have hmod := Nat.and_two_pow_sub_one_eq_mod (f * 4096 + 3) 3
  change f * 4096 + 3 &&& 7 = 7 at hnat
  change f * 4096 + 3 &&& 7 = (f * 4096 + 3) % 8 at hmod
  omega

/-- A page is mapped for the kernel, and then for users. -/
theorem kernel_page : ∃ x n s₁, (paging .low).Reachable x ∧ n * PGSIZE ∈ x.dirs ∧
    vm_map (n * PGSIZE) 134512640 4096 3 x.vm = .ok ((), s₁) ∧
    x.vm.Protected n 134512640 4096 3 ∧ (paging .low).Reachable { x with vm := s₁ } ∧
    ∃ s₂, vm_map (n * PGSIZE) 134512640 4096 7 s₁ = .ok ((), s₂) ∧
      ¬ s₁.MapsRange s₂ n 134512640 4096 7 := by
  obtain ⟨x, n, role, free, hreach, hsound, hpd, hlen, hnone⟩ := directory_start
  obtain ⟨s₁, hok, role₁, free₁, hsound₁, hlen₁, -⟩ := map_first hsound hpd (by omega) (Or.inl rfl)
  have hstep : (paging .low).step x (.vm_map (n * PGSIZE) 134512640 4096 3) { x with vm := s₁ } :=
    ⟨hpd, by decide, by decide, hok, rfl, rfl⟩
  have hpde := hnone 32840 (by decide) (by decide)
  have hpte : ¬ present (x.vm.pte n 32840) := fun hp => hpde (present_pde hp)
  have hprot : x.vm.Protected n 134512640 4096 3 := by
    intro v hv
    rw [inRange_first] at hv
    subst hv
    exact ⟨fun hp => (hpde hp).elim, fun hp => (hpte hp).elim⟩
  -- the new entry has the bits it was made with
  have hn := hsound.dir_page hpd
  have hmaps := (maps_iff_protected hsound.owned hn hok).mpr hprot
  obtain ⟨hp₁, -, -⟩ := hmaps.mapped 32840 (inRange_first.mpr rfl)
  obtain ⟨hsets, -⟩ := (vm_map_sets hsound.owned hn).of_ok hok
  obtain ⟨f, hf, hentry⟩ := hsets.pte_new 32840 (by decide) hpte hp₁
  refine ⟨x, n, s₁, hreach, hpd, hok, hprot, hreach.step hstep, ?_⟩
  obtain ⟨s₂, hok₂, -⟩ := map_first hsound₁ hpd (by omega) (Or.inr rfl)
  refine ⟨s₂, hok₂, ?_⟩
  intro hagain
  have hbits := ((maps_iff_protected hsound₁.owned (hsound₁.dir_page hpd) hok₂).mp hagain 32840
    (inRange_first.mpr rfl)).2 hp₁
  rw [hentry] at hbits
  exact not_hasBits_kernel hf hbits

/-- A page that the kernel has to itself is not given to users. -/
theorem vm_map_not_protects : ¬ ∀ (x : Paging) (n va len prot : ℕ) (s' : Vm),
    (paging .low).Reachable x → n * PGSIZE ∈ x.dirs →
    vm_map (n * PGSIZE) va len prot x.vm = .ok ((), s') → x.vm.MapsRange s' n va len prot := by
  intro hall
  obtain ⟨x, n, s₁, -, hpd, -, -, hreach₁, s₂, hok₂, hnot⟩ := kernel_page
  exact hnot (hall _ n _ _ _ s₂ hreach₁ hpd hok₂)

theorem vm_map_protects_first : ∃ x n s', (paging .low).Reachable x ∧ n * PGSIZE ∈ x.dirs ∧
    vm_map (n * PGSIZE) 134512640 4096 3 x.vm = .ok ((), s') ∧
    x.vm.MapsRange s' n 134512640 4096 3 := by
  obtain ⟨x, n, s', hreach, hpd, hok, hprot, -⟩ := kernel_page
  exact ⟨x, n, s', hreach, hpd, hok, (vm_map_protects hreach hpd hok).mpr hprot⟩

end Oslab
