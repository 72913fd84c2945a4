/-
# The image of an executable

The segments of an executable may come in any order and share pages. The pages of
each are mapped if they are not, the file is read to its address, and what is left
of it is cleared; nothing else of its pages is touched, so the segments that came
before stay as they are. The file is what the path leads to in the file system.
-/
import Oslab.Arguments
import Oslab.Bindings
import Oslab.Contents

namespace Oslab

open Lib Lib.Prog

/-! ### Executables -/

def p_offset (ph : List UInt8) : ℕ := (wordOf ph 4).toNat

def p_vaddr (ph : List UInt8) : ℕ := (wordOf ph 8).toNat

def p_filesz (ph : List UInt8) : ℕ := (wordOf ph 16).toNat

def p_memsz (ph : List UInt8) : ℕ := (wordOf ph 20).toNat

/-- The address is in the memory of the segment. -/
def InSegment (ph : List UInt8) (va : ℕ) : Prop := p_vaddr ph ≤ va ∧ va < p_vaddr ph + p_memsz ph

/-- Program header `i` of the file. -/
def headerAt (file : List UInt8) (i : ℕ) : List UInt8 :=
  readFile file ((wordOf file 28).toNat + i * PHDR_SIZE) PHDR_SIZE

/-- The segments to load among the first `k` program headers. -/
def segmentsUpTo (file : List UInt8) (k : ℕ) : List (List UInt8) :=
  ((List.range k).map (headerAt file)).filter fun ph => wordOf ph 0 = PT_LOAD

/-- The segments of a file that are loaded. -/
def loadHeaders (file : List UInt8) : List (List UInt8) := segmentsUpTo file (half file 44)

/-- A segment that lies in the file and in the memory of a program. -/
structure GoodSegment (file ph : List UInt8) : Prop where
  size : p_filesz ph ≤ p_memsz ph
  pos : 0 < p_memsz ph
  inFile : p_offset ph + p_filesz ph ≤ file.length
  low : PHY_MEM ≤ p_vaddr ph
  high : p_vaddr ph + p_memsz ph ≤ STACK_PAGE

/-- The segments have no byte in common. -/
def Apart (ph ph' : List UInt8) : Prop := ∀ va, InSegment ph va → ¬ InSegment ph' va

/-- An executable file. -/
structure Executable (file : List UInt8) : Prop where
  header : EHDR_SIZE ≤ file.length
  magic : wordOf file 0 = ELF_MAGIC
  headers : (wordOf file 28).toNat + half file 44 * PHDR_SIZE ≤ file.length
  small : file.length < (12 + 1024) * 4096
  loads : loadHeaders file ≠ []
  segments : ∀ ph ∈ loadHeaders file, GoodSegment file ph
  apart : (loadHeaders file).Pairwise Apart

/-- The directory in page `n` shows the segments. -/
structure Vm.Shows (s : Vm) (n : ℕ) (file : List UInt8) (segs : List (List UInt8)) : Prop where
  mapped : ∀ v, 32768 ≤ v → v < 2 ^ 20 → ((s.walk n v).isSome ↔
    segs ≠ [] ∧ v = STACK_PAGE / PGSIZE ∨ ∃ ph ∈ segs, ∃ va, InSegment ph va ∧ va / PGSIZE = v)
  contents : ∀ ph ∈ segs, ∀ j < p_filesz ph,
    s.byteAt n (p_vaddr ph + j) = some (file.getD (p_offset ph + j) 0)
  cleared : ∀ ph ∈ segs, ∀ j, p_filesz ph ≤ j → j < p_memsz ph →
    s.byteAt n (p_vaddr ph + j) = some 0
  rest : ∀ va, User va → (∀ ph ∈ segs, ¬ InSegment ph va) → ∀ b ∈ s.byteAt n va, b = 0

/-- The frames that a segment and the stack take at most. -/
def segmentFrames (ph : List UInt8) : ℕ :=
  2 * (PAGE_UP (p_vaddr ph + p_memsz ph) / PGSIZE - p_vaddr ph / PGSIZE) + 2

variable {L : Statics} {s s' s'' : Vm} {role role' : ℕ → Role} {free free' : List ℕ}
  {n p f v va x : ℕ} {file ph : List UInt8} {segs : List (List UInt8)} {bs : List UInt8}

/-! ### The bytes of an address space -/

/-- Bytes are in their frames. -/
theorem byteAt_some {b : UInt8} :
    s.byteAt n x = some b ↔ ∃ f, s.walk n (x / 4096) = some f ∧ s.mem (f * 4096 + x % 4096) = b := by
  rw [Vm.byteAt]
  change (s.walk n (x / 4096)).map (fun f => s.mem (f * 4096 + x % 4096)) = some b ↔ _
  exact Option.map_eq_some_iff

theorem byteAt_none : s.byteAt n x = none ↔ s.walk n (x / 4096) = none := by
  rw [Vm.byteAt]
  change (s.walk n (x / 4096)).map (fun f => s.mem (f * 4096 + x % 4096)) = none ↔ _
  exact Option.map_eq_none_iff

/-- A byte is written where it belongs. -/
theorem byteAt_write (h : s.Owned L role free) (hn : role n = .dir) (hva : User va) (b : UInt8)
    (hf : s.walk n (va / 4096) = some f) (hx : User x) :
    ({ s with mem := s.mem.splice (f * 4096 + va % 4096) [b] } : Vm).byteAt n x =
      if x = va then some b else s.byteAt n x := by
  set s₁ : Vm := { s with mem := s.mem.splice (f * 4096 + va % 4096) [b] } with hs₁
  have hw : Writes s role n s₁ := h.write_byte hn b hva.1 hva.2 hf
  have hwalk : s₁.walk n (x / 4096) = s.walk n (x / 4096) := hw.walk h hn hx.page.2
  cases hg : s.walk n (x / 4096) with
  | none =>
    have hne : x ≠ va := by
      intro heq
      rw [heq, hf] at hg
      cases hg
    rw [if_neg hne, byteAt_none.mpr hg, byteAt_none, hwalk, hg]
  | some g =>
    rw [hg] at hwalk
    by_cases heq : x = va
    · subst heq
      rw [if_pos rfl, byteAt_some]
      rw [hf] at hg
      cases hg
      refine ⟨f, hwalk, ?_⟩
      have hin : s.mem.splice (f * 4096 + x % 4096) [b] (f * 4096 + x % 4096 + 0) = b :=
        Mem.splice_in (by simp)
      rw [Nat.add_zero] at hin
      exact hin
    · -- another page has another frame
      have hout : s₁.mem (g * 4096 + x % 4096) = s.mem (g * 4096 + x % 4096) := by
        apply Mem.splice_out
        rw [List.length_singleton]
        by_cases hgf : g = f
        · subst hgf
          have hrole := h.frame hn hx.page.1 hx.page.2 hg
          rw [h.frame hn hva.page.1 hva.page.2 hf] at hrole
          have hpage := (Role.frame.inj hrole).2
          omega
        · omega
      rw [if_neg heq, byteAt_some.mpr ⟨g, hg, rfl⟩, byteAt_some]
      exact ⟨g, hwalk, hout⟩

/-- Bytes are written to pages that are mapped. -/
theorem putBytes_mapped (h : s.Owned L role free) (hn : role n = .dir) (hcr3 : s.cr3 = n * 4096)
    (hlo : PHY_MEM ≤ va) (hhi : va + bs.length ≤ ADDR_END)
    (hmapped : ∀ x, va ≤ x → x < va + bs.length → (s.walk n (x / 4096)).isSome)
    {F : Abort → Prop} :
    wp (putBytes va bs) (fun _ s' => Writes s role n s' ∧ ∀ x, User x → s'.byteAt n x =
      if va ≤ x ∧ x < va + bs.length then some (bs.getD (x - va) 0) else s.byteAt n x) F s := by
  -- on the bytes; each goes through the translation, which the writes do not change
  induction bs generalizing va s with
  | nil =>
    rw [putBytes, wp_pure]
    refine ⟨.refl s role n, ?_⟩
    intro x _
    rw [if_neg]
    rw [List.length_nil]
    omega
  | cons b bs ih =>
    rw [List.length_cons] at hhi hmapped
    have hva : User va := ⟨hlo, by omega⟩
    obtain ⟨f, hf⟩ := Option.isSome_iff_exists.mp (hmapped va le_rfl (by omega))
    rw [putBytes, wp_bind]
    refine (putByte_spec b hcr3).mono ?_ ?_
    · intro _ s₁ hbyte
      obtain ⟨f', hf', hs₁⟩ := hbyte
      rw [hf] at hf'
      cases hf'
      have hw : Writes s role n s₁ := by
        rw [hs₁]
        exact h.write_byte hn b hva.1 hva.2 hf
      have hbyte₁ (x : ℕ) (hx : User x) : s₁.byteAt n x = if x = va then some b else s.byteAt n x := by
        rw [hs₁]
        exact byteAt_write h hn hva b hf hx
      by_cases hnil : bs = []
      · subst hnil
        rw [putBytes, wp_pure]
        refine ⟨hw, ?_⟩
        intro x hx
        rw [hbyte₁ x hx, List.length_singleton]
        by_cases heq : x = va
        · rw [if_pos heq, if_pos (by omega), heq, Nat.sub_self]
          rfl
        · rw [if_neg heq, if_neg (by omega)]
      · have hpos : 0 < bs.length := List.length_pos_iff.mpr hnil
        have hnext : (va + 1) % ADDR_END = va + 1 := Nat.mod_eq_of_lt (by omega)
        rw [hnext]
        refine (ih (hw.owned h) (hw.cr3.trans hcr3) (by omega) (by omega) ?_).imp ?_
        · intro x hxlo hxhi
          rw [hw.walk h hn]
          · exact hmapped x (by omega) (by omega)
          · have hend : x < 4294967296 := by
              change _ ≤ 4294967296 at hhi
              omega
            omega
        · intro _ s' hs'
          obtain ⟨hw', hbytes⟩ := hs'
          refine ⟨hw.trans hw', ?_⟩
          intro x hx
          rw [hbytes x hx, List.length_cons, hbyte₁ x hx]
          by_cases heq : x = va
          · rw [if_neg (by omega), if_pos heq, if_pos (by omega), heq, Nat.sub_self]
            rfl
          · by_cases hin : va + 1 ≤ x ∧ x < va + 1 + bs.length
            · have hsub : x - va = x - (va + 1) + 1 := by omega
              rw [if_pos hin, if_pos (by omega), hsub, List.getD_cons_succ]
            · rw [if_neg hin, if_neg heq, if_neg (by omega)]
    · intro e hfault
      rw [hf] at hfault
      cases hfault.2

/-- What mapping pages does to the bytes. -/
theorem Grows.byteAt {R : ℕ → Prop} (hgrows : Grows s role s' role' n R) (h : s.Owned L role free)
    (hn : role n = .dir) (hx : User x) :
    (∀ b, s.byteAt n x = some b → s'.byteAt n x = some b) ∧
    (s.byteAt n x = none → R (x / 4096) → s'.byteAt n x = some 0) ∧
    (¬ R (x / 4096) → s'.byteAt n x = s.byteAt n x) := by
  obtain ⟨hlo, hhi⟩ := hx.page
  have hold (b : UInt8) (hb : s.byteAt n x = some b) : s'.byteAt n x = some b := by
    obtain ⟨f, hf, hb⟩ := byteAt_some.mp hb
    rw [byteAt_some]
    refine ⟨f, hgrows.old _ f hhi hf, ?_⟩
    rw [hgrows.same f (Or.inr ⟨n, _, h.frame hn hlo hhi hf⟩) (x % 4096) (Nat.mod_lt _ (by decide)), hb]
  refine ⟨hold, ?_, ?_⟩
  · intro hnone hR
    obtain ⟨f, hf, -, hzero⟩ := hgrows.new _ hhi hR (byteAt_none.mp hnone)
    rw [byteAt_some]
    exact ⟨f, hf, hzero _ (Nat.mod_lt _ (by decide))⟩
  · intro hR
    cases hb : s.byteAt n x with
    | some b => exact hold b hb
    | none =>
      rw [byteAt_none] at hb ⊢
      rw [hgrows.other n _ hn hhi (Or.inr hR), hb]

/-! ### One segment -/

section segment

variable (hgood : GoodSegment file ph)

include hgood

theorem GoodSegment.bounds : 134217728 ≤ p_vaddr ph ∧ p_vaddr ph + p_memsz ph ≤ 786431 * 4096 ∧
    p_filesz ph ≤ p_memsz ph ∧ 0 < p_memsz ph :=
  ⟨hgood.low, hgood.high, hgood.size, hgood.pos⟩

/-- The pages that `vm_map` is asked for are those with a byte of the segment. -/
theorem GoodSegment.pages : PAGE_UP ((p_vaddr ph + p_memsz ph) % ADDR_END) / 4096 =
      PAGE_UP (p_vaddr ph + p_memsz ph) / PGSIZE ∧
    ∀ v, (p_vaddr ph / 4096 ≤ v ∧ v < PAGE_UP ((p_vaddr ph + p_memsz ph) % ADDR_END) / 4096) ↔
      ∃ va, InSegment ph va ∧ va / PGSIZE = v := by
  obtain ⟨hlo, hhi, -, hpos⟩ := hgood.bounds
  have hmod : (p_vaddr ph + p_memsz ph) % ADDR_END = p_vaddr ph + p_memsz ph := by
    change (p_vaddr ph + p_memsz ph) % 4294967296 = _
    omega
  rw [hmod]
  refine ⟨rfl, ?_⟩
  intro v
  change (_ ∧ v < (p_vaddr ph + p_memsz ph + 4095) % 4294967296 / 4096 * 4096 / 4096) ↔ _
  constructor
  · intro hv
    refine ⟨max (p_vaddr ph) (v * 4096), ⟨le_max_left _ _, ?_⟩, ?_⟩
    · rw [max_lt_iff]
      omega
    · change max (p_vaddr ph) (v * 4096) / 4096 = v
      omega
  · intro hva
    obtain ⟨va, ⟨hlo', hhi'⟩, hpage⟩ := hva
    change va / 4096 = v at hpage
    omega

theorem GoodSegment.not_bad : ¬ BadRange (p_vaddr ph) (p_memsz ph) := by
  obtain ⟨hlo, hhi, -, hpos⟩ := hgood.bounds
  rintro (hbad | hbad)
  · change p_vaddr ph / 4096 * 4096 < 134217728 at hbad
    omega
  · change ((p_vaddr ph + p_memsz ph) % 4294967296 + 4095) % 4294967296 / 4096 * 4096 <
      p_vaddr ph / 4096 * 4096 at hbad
    omega

theorem GoodSegment.user (hva : InSegment ph va) : User va := by
  obtain ⟨hlo, hhi, -, -⟩ := hgood.bounds
  obtain ⟨hlo', hhi'⟩ := hva
  refine ⟨?_, ?_⟩
  · change 134217728 ≤ va
    omega
  · change va < 4294967296
    omega

end segment

/-- What loading a segment does to the bytes of the address space. -/
structure Loads (s s' : Vm) (n : ℕ) (file ph : List UInt8) : Prop where
  written : ∀ j < p_memsz ph, s'.byteAt n (p_vaddr ph + j) =
    some (if j < p_filesz ph then file.getD (p_offset ph + j) 0 else 0)
  kept : ∀ x, User x → ¬ InSegment ph x → ∀ b, s.byteAt n x = some b → s'.byteAt n x = some b
  fresh : ∀ x, User x → ¬ InSegment ph x → s.byteAt n x = none → ∀ b ∈ s'.byteAt n x, b = 0
  mapped : ∀ v, 32768 ≤ v → v < 2 ^ 20 → ((s'.walk n v).isSome ↔ (s.walk n v).isSome ∨
    v = STACK_PAGE / PGSIZE ∨ ∃ va, InSegment ph va ∧ va / PGSIZE = v)

/-- What is mapped after pages have been mapped. -/
theorem Grows.isSome {R : ℕ → Prop} (hgrows : Grows s role s' role' n R) (hn : role n = .dir)
    (hv : v < 2 ^ 20) : (s'.walk n v).isSome ↔ (s.walk n v).isSome ∨ R v := by
  cases hw : s.walk n v with
  | some f =>
    rw [hgrows.old v f hv hw]
    exact iff_of_true rfl (Or.inl rfl)
  | none =>
    by_cases hR : R v
    · obtain ⟨f, hf, -⟩ := hgrows.new v hv hR hw
      rw [hf]
      exact iff_of_true rfl (Or.inr hR)
    · rw [hgrows.other n v hn hv (Or.inr hR), hw]
      exact iff_of_false (by simp) (by simp [hR])

theorem getD_readFile {off len j : ℕ} (hj : j < len) :
    (readFile file off len).getD j 0 = file.getD (off + j) 0 := by
  rw [readFile, List.getD_eq_getElem?_getD, List.getElem?_take_of_lt hj, List.getElem?_drop,
    List.getD_eq_getElem?_getD]

/-- The contents of a segment are written to pages that are mapped. -/
theorem putSegment (h : s.Owned L role free) (hn : role n = .dir) (hcr3 : s.cr3 = n * 4096)
    (hgood : GoodSegment file ph)
    (hmapped : ∀ va, InSegment ph va → (s.walk n (va / 4096)).isSome) {F : Abort → Prop} :
    wp (do
        putBytes (p_vaddr ph) (readFile file (p_offset ph) (p_filesz ph))
        putBytes ((p_vaddr ph + p_filesz ph) % ADDR_END)
          (List.replicate ((p_memsz ph + ADDR_END - p_filesz ph) % ADDR_END) 0))
      (fun _ s' => Writes s role n s' ∧ (∀ j < p_memsz ph, s'.byteAt n (p_vaddr ph + j) =
          some (if j < p_filesz ph then file.getD (p_offset ph + j) 0 else 0)) ∧
        ∀ x, User x → ¬ InSegment ph x → s'.byteAt n x = s.byteAt n x) F s := by
  obtain ⟨hlo, hhi, hsize, -⟩ := hgood.bounds
  have hinFile := hgood.inFile
  have hlen : (readFile file (p_offset ph) (p_filesz ph)).length = p_filesz ph := by
    rw [readFile, List.length_take, List.length_drop]
    omega
  -- nothing wraps around, because the segment lies in the user part
  have hstart : (p_vaddr ph + p_filesz ph) % ADDR_END = p_vaddr ph + p_filesz ph := by
    change (p_vaddr ph + p_filesz ph) % 4294967296 = _
    omega
  have hcount : (p_memsz ph + ADDR_END - p_filesz ph) % ADDR_END = p_memsz ph - p_filesz ph := by
    change (p_memsz ph + 4294967296 - p_filesz ph) % 4294967296 = _
    omega
  rw [hstart, hcount, wp_bind]
  have hend : p_vaddr ph + (readFile file (p_offset ph) (p_filesz ph)).length ≤ ADDR_END := by
    rw [hlen]
    change _ ≤ 4294967296
    omega
  refine (putBytes_mapped h hn hcr3 hgood.low hend ?_).imp ?_
  · intro x hxlo hxhi
    rw [hlen] at hxhi
    exact hmapped x ⟨hxlo, by omega⟩
  · intro _ s₁ hs₁
    obtain ⟨hw₁, hbytes₁⟩ := hs₁
    have hlow : PHY_MEM ≤ p_vaddr ph + p_filesz ph := le_trans hgood.low (Nat.le_add_right _ _)
    have hend' : p_vaddr ph + p_filesz ph +
        (List.replicate (p_memsz ph - p_filesz ph) (0 : UInt8)).length ≤ ADDR_END := by
      rw [List.length_replicate]
      change _ ≤ 4294967296
      omega
    refine (putBytes_mapped (hw₁.owned h) hn (hw₁.cr3.trans hcr3) hlow hend' ?_).imp ?_
    · intro x hxlo hxhi
      rw [List.length_replicate] at hxhi
      have hin : InSegment ph x := ⟨by omega, by omega⟩
      rw [hw₁.walk h hn (hgood.user hin).page.2]
      exact hmapped x hin
    · intro _ s₂ hs₂
      obtain ⟨hw₂, hbytes₂⟩ := hs₂
      rw [List.length_replicate] at hbytes₂
      rw [hlen] at hbytes₁
      refine ⟨hw₁.trans hw₂, ?_, ?_⟩
      · intro j hj
        have huser : User (p_vaddr ph + j) := hgood.user ⟨by omega, by omega⟩
        rw [hbytes₂ _ huser, hbytes₁ _ huser]
        by_cases hjf : j < p_filesz ph
        · rw [if_neg (by omega), if_pos (by omega), if_pos hjf, Nat.add_sub_cancel_left,
            getD_readFile hjf]
        · rw [if_pos (by omega), if_neg hjf, List.getD_replicate _ (by omega)]
      · intro x hx hnot
        have hnot' : ¬ (p_vaddr ph ≤ x ∧ x < p_vaddr ph + p_memsz ph) := hnot
        rw [hbytes₂ x hx, hbytes₁ x hx, if_neg (by omega), if_neg (by omega)]

/-- **A segment is loaded.** -/
theorem loadSegment_loads (h : s.Owned L role free) (hn : role n = .dir) (hcr3 : s.cr3 = n * 4096)
    (hgood : GoodSegment file ph) :
    wp (loadSegment (n * 4096) file ph) (fun _ s' => ∃ role' free', s'.Owned L role' free' ∧
        s'.cr3 = s.cr3 ∧ (∀ k, role k ≠ .free → role' k = role k) ∧ Loads s s' n file ph ∧
        free.length ≤ free'.length + segmentFrames ph)
      (fun e => e = .noPage ∧ free.length < segmentFrames ph) s := by
  obtain ⟨hup, hpages⟩ := hgood.pages
  have hstack : STACK_PAGE = 786431 * 4096 := by decide
  have hstackpage : STACK_PAGE / PGSIZE = 786431 := by decide
  have hstackup : PAGE_UP ((786431 * 4096 + PGSIZE) % ADDR_END) / 4096 = 786432 := by decide
  have hframes : segmentFrames ph =
      2 * (PAGE_UP ((p_vaddr ph + p_memsz ph) % ADDR_END) / 4096 - p_vaddr ph / 4096) + 2 := by
    rw [hup]
    rfl
  rw [hframes]
  -- the two writes with the segment between the two calls of `vm_map`
  change wp (do
    vm_map (n * 4096) (p_vaddr ph) (p_memsz ph) 7
    putBytes (p_vaddr ph) (readFile file (p_offset ph) (p_filesz ph))
    putBytes ((p_vaddr ph + p_filesz ph) % ADDR_END)
      (List.replicate ((p_memsz ph + ADDR_END - p_filesz ph) % ADDR_END) 0)
    vm_map (n * 4096) STACK_PAGE PGSIZE 7) _ _ s
  rw [wp_bind]
  refine (vm_map_spec h hn).mono ?_ ?_
  · intro _ s₁ hs₁
    obtain ⟨-, role₁, free₁, h₁, hgrows₁, hlen₁⟩ := hs₁
    have hn₁ : role₁ n = .dir := by rw [hgrows₁.kept n (by simp [hn]), hn]
    have hmapped₁ (va : ℕ) (hva : InSegment ph va) : (s₁.walk n (va / 4096)).isSome := by
      rw [hgrows₁.isSome hn (hgood.user hva).page.2]
      exact Or.inr ((hpages _).mpr ⟨va, hva, rfl⟩)
    have hput := putSegment (F := fun e => e = .noPage ∧ free.length <
      2 * (PAGE_UP ((p_vaddr ph + p_memsz ph) % ADDR_END) / 4096 - p_vaddr ph / 4096) + 2)
      h₁ hn₁ (hgrows₁.cr3.trans hcr3) hgood hmapped₁
    rw [wp_bind] at hput ⊢
    refine hput.imp ?_
    intro _ s₂ hs₂
    rw [wp_bind]
    refine hs₂.imp ?_
    intro _ s₃ hs₃
    obtain ⟨hw₃, hwritten, hothers⟩ := hs₃
    have h₃ := hw₃.owned h₁
    rw [hstack]
    refine (vm_map_spec h₃ hn₁).mono ?_ ?_
    · intro _ s' hs'
      obtain ⟨-, role', free', h', hgrows', hlen'⟩ := hs'
      rw [hstackup, Nat.mul_div_cancel _ (by decide)] at hlen'
      refine ⟨role', free', h', ?_, ?_, ⟨?_, ?_, ?_, ?_⟩, by omega⟩
      · rw [hgrows'.cr3, hw₃.cr3, hgrows₁.cr3]
      · intro k hk
        have hk₁ := hgrows₁.kept k hk
        rw [hgrows'.kept k (by rwa [hk₁]), hk₁]
      -- what has been written is still there behind the second `vm_map`
      · intro j hj
        have huser : User (p_vaddr ph + j) := hgood.user ⟨by omega, by omega⟩
        exact (hgrows'.byteAt h₃ hn₁ huser).1 _ (hwritten j hj)
      · intro x hx hnot b hb
        apply (hgrows'.byteAt h₃ hn₁ hx).1
        rw [hothers x hx hnot]
        exact (hgrows₁.byteAt h hn hx).1 b hb
      -- a byte outside the segment that was not mapped is zero when it is now: both calls give
      -- zero pages, and the writes leave it alone
      · intro x hx hnot hnone b hb
        have hfill {t t' : Vm} {role₀ role₀' : ℕ → Role} {R : ℕ → Prop} {free₀ : List ℕ}
            (hg : Grows t role₀ t' role₀' n R) (ht : t.Owned L role₀ free₀) (hd : role₀ n = .dir)
            (hzero : ∀ c ∈ t.byteAt n x, c = 0) : ∀ c ∈ t'.byteAt n x, c = 0 := by
          intro c hc
          obtain ⟨hsome, hnew, hout⟩ := hg.byteAt ht hd hx
          cases hold : t.byteAt n x with
          | some c' =>
            rw [hsome c' hold] at hc
            rw [← Option.some.inj hc]
            exact hzero c' hold
          | none =>
            by_cases hR : R (x / 4096)
            · rw [hnew hold hR] at hc
              exact (Option.some.inj hc).symm
            · rw [hout hR, hold] at hc
              cases hc
        have hzero₁ : ∀ c ∈ s₁.byteAt n x, c = 0 := by
          apply hfill hgrows₁ h hn
          rw [hnone]
          intro c hc
          cases hc
        rw [← hothers x hx hnot] at hzero₁
        exact hfill hgrows' h₃ hn₁ hzero₁ b hb
      -- mapped are the old pages, those of the segment and the stack
      · intro v hlo hv
        rw [hgrows'.isSome hn₁ hv, hw₃.walk h₁ hn₁ hv, hgrows₁.isSome hn hv, hpages v, hstackup,
          hstackpage, Nat.mul_div_cancel _ (by decide)]
        constructor
        · intro hor
          rcases hor with (hold | hnew) | htop
          · exact Or.inl hold
          · exact Or.inr (Or.inr hnew)
          · exact Or.inr (Or.inl (by omega))
        · intro hor
          rcases hor with hold | htop | hnew
          · exact Or.inl (Or.inl hold)
          · exact Or.inr (by omega)
          · exact Or.inl (Or.inr hnew)
    · intro e he
      rcases he with ⟨-, hbad⟩ | ⟨he, hfew⟩
      · rcases hbad with hodd | hbig | hlow | hwrap
        · exact absurd hodd (by decide)
        · exact absurd hbig (by decide)
        · exact absurd hlow (by decide)
        · exact absurd hwrap (by decide)
      · rw [hstackup, Nat.mul_div_cancel _ (by decide)] at hfew
        exact ⟨he, by omega⟩
  · intro e he
    rcases he with ⟨-, hbad⟩ | ⟨he, hfew⟩
    · rcases hbad with hodd | hbig | hrange
      · exact absurd hodd (by decide)
      · exact absurd hbig (by decide)
      · exact (hgood.not_bad hrange).elim
    · exact ⟨he, by omega⟩

/-! ### All segments -/

theorem shows_nil (h : ∀ v, 32768 ≤ v → v < 2 ^ 20 → s.walk n v = none) : s.Shows n file [] := by
  constructor
  · intro v hlo hv
    rw [h v hlo hv]
    simp
  · intro ph hph
    exact absurd hph List.not_mem_nil
  · intro ph hph
    exact absurd hph List.not_mem_nil
  · intro va hva _ b hb
    rw [byteAt_none.mpr (h _ hva.page.1 hva.page.2)] at hb
    cases hb

theorem Vm.Shows.set_cr3 (h : s.Shows n file segs) (a : ℕ) :
    ({ s with cr3 := a } : Vm).Shows n file segs := ⟨h.mapped, h.contents, h.cleared, h.rest⟩

/-- One more segment is shown, and those before are not touched. -/
theorem Vm.Shows.concat (hshows : s.Shows n file segs) (hloads : Loads s s' n file ph)
    (hgood : GoodSegment file ph) (hsegs : ∀ ph' ∈ segs, GoodSegment file ph') (hapart : ∀ ph' ∈ segs, Apart ph' ph) :
    s'.Shows n file (segs ++ [ph]) := by
  have hold {ph' : List UInt8} (hph' : ph' ∈ segs) {j : ℕ} (hj : j < p_memsz ph') {b : UInt8}
      (hb : s.byteAt n (p_vaddr ph' + j) = some b) : s'.byteAt n (p_vaddr ph' + j) = some b := by
    have hin : InSegment ph' (p_vaddr ph' + j) := ⟨by omega, by omega⟩
    exact hloads.kept _ ((hsegs ph' hph').user hin) (hapart ph' hph' _ hin) b hb
  constructor
  · intro v hlo hv
    rw [hloads.mapped v hlo hv, hshows.mapped v hlo hv]
    constructor
    · intro hor
      rcases hor with (⟨-, hstack⟩ | ⟨ph', hph', hpage⟩) | hstack | hpage
      · exact Or.inl ⟨by simp, hstack⟩
      · exact Or.inr ⟨ph', List.mem_append_left _ hph', hpage⟩
      · exact Or.inl ⟨by simp, hstack⟩
      · exact Or.inr ⟨ph, List.mem_append_right _ List.mem_cons_self, hpage⟩
    · intro hor
      rcases hor with ⟨-, hstack⟩ | ⟨ph', hph', hpage⟩
      · exact Or.inr (Or.inl hstack)
      · rcases List.mem_append.mp hph' with hph' | hph'
        · exact Or.inl (Or.inr ⟨ph', hph', hpage⟩)
        · rw [List.mem_singleton.mp hph'] at hpage
          exact Or.inr (Or.inr hpage)
  · intro ph' hph' j hj
    rcases List.mem_append.mp hph' with hph' | hph'
    · have hsize := (hsegs ph' hph').size
      exact hold hph' (by omega) (hshows.contents ph' hph' j hj)
    · have hsize := hgood.size
      rw [List.mem_singleton.mp hph'] at hj ⊢
      rw [hloads.written j (by omega), if_pos hj]
  · intro ph' hph' j hjf hj
    rcases List.mem_append.mp hph' with hph' | hph'
    · exact hold hph' hj (hshows.cleared ph' hph' j hjf hj)
    · rw [List.mem_singleton.mp hph'] at hj hjf ⊢
      rw [hloads.written j hj, if_neg (by omega)]
  · intro va hva hnot b hb
    have hnotph := hnot ph (List.mem_append_right _ List.mem_cons_self)
    cases hbyte : s.byteAt n va with
    | some b' =>
      rw [hloads.kept va hva hnotph b' hbyte] at hb
      rw [← Option.some.inj hb]
      exact hshows.rest va hva (fun ph' hph' => hnot ph' (List.mem_append_left _ hph')) b' hbyte
    | none => exact hloads.fresh va hva hnotph hbyte b hb

/-! ### The whole executable -/

theorem segmentsUpTo_prefixed (file : List UInt8) {k m : ℕ} (hkm : k ≤ m) :
    segmentsUpTo file k <+: segmentsUpTo file m := by
  obtain ⟨d, rfl⟩ := Nat.exists_eq_add_of_le hkm
  rw [segmentsUpTo, segmentsUpTo, List.range_add, List.map_append, List.filter_append]
  exact List.prefix_append _ _

theorem segmentsUpTo_succ (file : List UInt8) (k : ℕ) : segmentsUpTo file (k + 1) =
    segmentsUpTo file k ++ if wordOf (headerAt file k) 0 = PT_LOAD then [headerAt file k] else [] := by
  rw [segmentsUpTo, List.range_succ, List.map_append, List.filter_append]
  congr 1
  rw [List.map_singleton, List.filter_singleton]
  by_cases hload : wordOf (headerAt file k) 0 = PT_LOAD
  · simp [hload]
  · simp [hload]

/-- The frames that the segments take at most. -/
def framesUpTo (file : List UInt8) (k : ℕ) : ℕ := ((segmentsUpTo file k).map segmentFrames).sum

theorem framesUpTo_mono (file : List UInt8) {k m : ℕ} (hkm : k ≤ m) :
    framesUpTo file k ≤ framesUpTo file m := by
  obtain ⟨rest, hrest⟩ := segmentsUpTo_prefixed file hkm
  rw [framesUpTo, framesUpTo, ← hrest, List.map_append, List.sum_append]
  exact Nat.le_add_right _ _

theorem framesUpTo_succ (file : List UInt8) {k : ℕ} (hload : wordOf (headerAt file k) 0 = PT_LOAD) :
    framesUpTo file (k + 1) = framesUpTo file k + segmentFrames (headerAt file k) := by
  rw [framesUpTo, segmentsUpTo_succ, if_pos hload, List.map_append, List.sum_append]
  rfl

section executable

variable (hexec : Executable file)

include hexec

theorem Executable.ehdrOf (junk : Mem) : ehdrOf file junk = readFile file 0 52 := by
  have hheader : 52 ≤ file.length := hexec.header
  have hlen : (readFile file 0 52).length = 52 := by
    rw [readFile, List.length_take, List.drop_zero]
    omega
  have hdrop : (junk.slice 0 52).drop 52 = [] := List.drop_eq_nil_of_le (by rw [Mem.length_slice])
  change fill (junk.slice 0 52) (readFile file 0 52) = _
  rw [fill, hlen, hdrop, List.append_nil]

theorem Executable.half_header (junk : Mem) : half (Oslab.ehdrOf file junk) 44 = half file 44 := by
  rw [hexec.ehdrOf, half, getD_readFile (by decide), getD_readFile (by decide), Nat.zero_add]
  rfl

theorem Executable.word_header (junk : Mem) {i : ℕ} (hi : i + 4 ≤ 52) :
    wordOf (Oslab.ehdrOf file junk) i = wordOf file i := by
  rw [hexec.ehdrOf]
  apply Mem.word_congr
  intro k hk
  change (readFile file 0 52).getD (i + k) 0 = file.getD (i + k) 0
  rw [getD_readFile (by omega), Nat.zero_add]

theorem Executable.length_headerAt {k : ℕ} (hk : k < half file 44) :
    (headerAt file k).length = 32 := by
  have hheaders : (wordOf file 28).toNat + half file 44 * 32 ≤ file.length := hexec.headers
  have hmul : (k + 1) * 32 ≤ half file 44 * 32 := Nat.mul_le_mul_right 32 hk
  have hsize : PHDR_SIZE = 32 := rfl
  rw [headerAt, readFile, List.length_take, List.length_drop, hsize]
  omega

/-- The program headers are read one after the other. -/
theorem Executable.nextPhdr (junk : Mem) {k : ℕ} (hk : k < half file 44) (hph : ph.length = 32) :
    nextPhdr file (Oslab.ehdrOf file junk) ph k = headerAt file k := by
  have hheaders : (wordOf file 28).toNat + half file 44 * 32 ≤ file.length := hexec.headers
  have hsmall : file.length < 4243456 := hexec.small
  have hoff : (wordOf file 28 + UInt32.ofNat (k * PHDR_SIZE)).toNat =
      (wordOf file 28).toNat + k * 32 := by
    rw [UInt32.toNat_add, UInt32.toNat_ofNat']
    change ((wordOf file 28).toNat + k * 32 % 2 ^ 32) % 2 ^ 32 = _
    have hmul : k * 32 ≤ half file 44 * 32 := Nat.mul_le_mul_right 32 hk.le
    omega
  have hlen := hexec.length_headerAt hk
  rw [Oslab.nextPhdr, hexec.word_header junk (by decide), hoff]
  change fill ph (headerAt file k) = _
  rw [fill, hlen, List.drop_eq_nil_of_le (by omega), List.append_nil]

/-- **An executable is loaded** into an address space without user pages. -/
theorem load_elf_shows (junk : Mem) (h : s.Owned L role free) (hn : role n = .dir)
    (hcr3 : s.cr3 = p * 4096)
    (hfresh : ∀ v, 32768 ≤ v → v < 2 ^ 20 → s.walk n v = none) :
    wp (Vm.load_elf (n * 4096) (some file) junk) (fun eip s' => eip = wordOf file 24 ∧
        s'.cr3 = s.cr3 ∧ s'.Shows n file (loadHeaders file) ∧
        ∃ role' free', s'.Owned L role' free' ∧ ∀ k, role k ≠ .free → role' k = role k)
      (fun e => e = .noPage ∧ free.length < framesUpTo file (half file 44)) s := by
  have hmagic : wordOf (ehdrOf file junk) 0 = ELF_MAGIC := by
    rw [hexec.word_header junk (by decide), hexec.magic]
  have hentry : wordOf (ehdrOf file junk) 24 = wordOf file 24 := hexec.word_header junk (by decide)
  have hcount : half (ehdrOf file junk) 44 = half file 44 := hexec.half_header junk
  have hcurr : PAGE_DOWN (p * 4096) = p * 4096 := PAGE_DOWN_page p
  have hsegs {k : ℕ} (hk : k ≤ half file 44) (ph : List UInt8) (hph : ph ∈ segmentsUpTo file k) :
      GoodSegment file ph := hexec.segments ph ((segmentsUpTo_prefixed file hk).subset hph)
  simp only [Vm.load_elf]
  rw [if_neg (not_not.mpr hmagic), wp_bind, vm_curr, wp_read, hcr3, hcurr, wp_bind, set_cr3,
    wp_update, wp_bind, hcount]
  set s₀ : Vm := { s with cr3 := n * 4096 } with hs₀
  -- after `k` headers the segments among them are loaded
  refine (wp_loop_index (fun k ph s' => ph.length = 32 ∧ s'.cr3 = n * 4096 ∧
    s'.Shows n file (segmentsUpTo file k) ∧ ∃ role' free', s'.Owned L role' free' ∧
      (∀ k, role k ≠ .free → role' k = role k) ∧ free.length ≤ free'.length + framesUpTo file k)
    _ _ ?_ ?_ fun _ _ hs' => hs').imp ?_
  · refine ⟨Mem.length_slice, rfl, shows_nil hfresh, role, free, h.set_cr3 _, fun _ _ => rfl, ?_⟩
    exact Nat.le_add_right _ _
  · intro k i hk ph s₁ hs₁
    obtain ⟨hlen, hcr3₁, hshows, role₁, free₁, h₁, hkept₁, hfew₁⟩ := hs₁
    obtain ⟨hkc, heq⟩ := List.getElem?_eq_some_iff.mp hk
    rw [List.length_range] at hkc
    rw [List.getElem_range] at heq
    subst heq
    have hn₁ : role₁ n = .dir := by rw [hkept₁ n (by simp [hn]), hn]
    rw [hexec.nextPhdr junk hkc hlen]
    have hlen' := hexec.length_headerAt hkc
    by_cases hload : wordOf (headerAt file k) 0 = PT_LOAD
    · have hsucc := segmentsUpTo_succ file k
      rw [if_pos hload] at hsucc
      have hgood := hsegs (k := k + 1) hkc (headerAt file k) (by rw [hsucc]; simp)
      have hpair := hexec.apart.sublist (segmentsUpTo_prefixed file hkc).sublist
      rw [hsucc, List.pairwise_append] at hpair
      have hapart (ph' : List UInt8) (hph' : ph' ∈ segmentsUpTo file k) :
          Apart ph' (headerAt file k) := hpair.2.2 ph' hph' _ List.mem_cons_self
      have hframes := framesUpTo_succ file hload
      have hall := framesUpTo_mono file (k := k + 1) hkc
      rw [if_pos hload, wp_bind]
      refine (loadSegment_loads h₁ hn₁ hcr3₁ hgood).mono ?_ ?_
      · intro _ s₂ hs₂
        obtain ⟨role₂, free₂, h₂, hcr3₂, hkept₂, hloads, hfew₂⟩ := hs₂
        rw [wp_pure]
        refine ⟨hlen', hcr3₂.trans hcr3₁, ?_, role₂, free₂, h₂, ?_, by omega⟩
        · rw [hsucc]
          exact hshows.concat hloads hgood (hsegs hkc.le) hapart
        · intro j hj
          have hj₁ := hkept₁ j hj
          rw [hkept₂ j (by rwa [hj₁]), hj₁]
      · intro e he
        exact ⟨he.1, by omega⟩
    · have hsucc := segmentsUpTo_succ file k
      rw [if_neg hload, List.append_nil] at hsucc
      have hframes : framesUpTo file (k + 1) = framesUpTo file k := by
        rw [framesUpTo, hsucc, framesUpTo]
      rw [if_neg hload, wp_pure, hsucc, hframes]
      exact ⟨hlen', hcr3₁, hshows, role₁, free₁, h₁, hkept₁, hfew₁⟩
  · intro ph s₁ hs₁
    obtain ⟨-, hcr3₁, hshows, role₁, free₁, h₁, hkept₁, -⟩ := hs₁
    rw [List.length_range] at hshows
    rw [wp_bind, set_cr3, wp_update, wp_pure]
    exact ⟨hentry, rfl, hshows.set_cr3 _, role₁, free₁, h₁.set_cr3 _, hkept₁⟩

end executable

/-- An executable is loaded into a new directory. -/
def loadNew (L : Statics) (file : List UInt8) (junk : Mem) : VmM (ℕ × UInt32) := do
  let pd ← vm_alloc L
  let eip ← Vm.load_elf pd (some file) junk
  pure (pd, eip)

/-- **The loader builds the image of an executable** in a new address space, if there are frames
enough, and goes back to the address space it was called in. -/
theorem load_elf_image (junk : Mem) (h : s.Owned L role free) (hcr3 : s.cr3 = p * PGSIZE)
    (hexec : Executable file) :
    wp (loadNew L file junk) (fun r s' => r.2 = wordOf file 24 ∧ s'.cr3 = s.cr3 ∧
        s'.Shows (r.1 / PGSIZE) file (loadHeaders file))
      (fun e => e = .noPage ∧ free.length < framesUpTo file (half file 44) + 1) s := by
  rw [loadNew, wp_bind]
  refine (vm_alloc_spec h).mono ?_ ?_
  · intro pd s₁ hs₁
    obtain ⟨n, rest, rfl, rfl, hn, h₁, hcr3₁, -, hfresh, -⟩ := hs₁
    rw [wp_bind]
    refine (load_elf_shows hexec junk h₁ (Function.update_self _ _ _) (hcr3₁.trans hcr3)
      hfresh).mono ?_ ?_
    · intro eip s' hs'
      obtain ⟨heip, hcr3', hshows, -⟩ := hs'
      rw [wp_pure]
      refine ⟨heip, hcr3'.trans hcr3₁, ?_⟩
      have hpage : n * 4096 / PGSIZE = n := Nat.mul_div_cancel n (by decide)
      rw [hpage]
      exact hshows
    · intro e he
      rw [List.length_cons]
      exact ⟨he.1, by omega⟩
  · intro e he
    obtain ⟨he, rfl⟩ := he
    exact ⟨he, Nat.succ_pos _⟩

/-- An executable with eight bytes at `0x8048000`, which are code, and four behind them, which are
data; 4108 more are cleared. A note stands between the two in the table. -/
def twoFile : List UInt8 :=
  [0x7f, 0x45, 0x4c, 0x46, 1, 1, 1, 0, 0, 0, 0, 0, 0, 0, 0, 0, 2, 0, 3, 0, 1, 0, 0, 0,
   0x00, 0x80, 0x04, 0x08, 52, 0, 0, 0, 0, 0, 0, 0, 0, 0, 0, 0, 52, 0, 32, 0, 3, 0, 0, 0, 0, 0, 0, 0,
   1, 0, 0, 0, 148, 0, 0, 0, 0x00, 0x80, 0x04, 0x08, 0x00, 0x80, 0x04, 0x08, 8, 0, 0, 0, 8, 0, 0, 0,
   5, 0, 0, 0, 0, 16, 0, 0,
   4, 0, 0, 0, 0, 0, 0, 0, 0, 0, 0, 0, 0, 0, 0, 0, 0, 0, 0, 0, 0, 0, 0, 0, 4, 0, 0, 0, 4, 0, 0, 0,
   1, 0, 0, 0, 156, 0, 0, 0, 0x08, 0x80, 0x04, 0x08, 0x08, 0x80, 0x04, 0x08, 4, 0, 0, 0, 16, 16, 0, 0,
   6, 0, 0, 0, 0, 16, 0, 0,
   0xb8, 0, 0, 0, 0, 0xc3, 0x90, 0x90, 1, 2, 3, 4]

/-- The headers of its code and its data. -/
def twoHeaders : List (List UInt8) := [(twoFile.drop 52).take 32, (twoFile.drop 116).take 32]

theorem loadHeaders_twoFile : loadHeaders twoFile = twoHeaders := by decide +kernel

theorem executable_twoFile : Executable twoFile := by
  refine ⟨by decide +kernel, by decide, by decide +kernel, by decide +kernel, ?_, ?_, ?_⟩
  · rw [loadHeaders_twoFile]
    simp [twoHeaders]
  · intro ph hph
    rw [loadHeaders_twoFile, twoHeaders, List.mem_pair] at hph
    rcases hph with rfl | rfl
    · exact ⟨by decide +kernel, by decide +kernel, by decide +kernel, by decide +kernel,
        by decide +kernel⟩
    · exact ⟨by decide +kernel, by decide +kernel, by decide +kernel, by decide +kernel,
        by decide +kernel⟩
  · rw [loadHeaders_twoFile, twoHeaders, List.pairwise_pair]
    intro va hcode hdata
    -- the data begins where the code ends
    have hend : p_vaddr ((twoFile.drop 52).take 32) + p_memsz ((twoFile.drop 52).take 32) =
        p_vaddr ((twoFile.drop 116).take 32) := by decide +kernel
    exact absurd (hcode.2.trans_eq hend) (Nat.not_lt.mpr hdata.1)

/-- The executable is loaded when the kernel has started. -/
theorem load_elf_image_two : ∃ (s s' : Vm) (pd : ℕ), init_page .low ⟨fun _ => 0, 0, 0⟩ = .ok ((), s) ∧
    loadNew .low twoFile (fun _ => 0) s = .ok ((pd, 0x08048000), s') ∧ s'.cr3 = s.cr3 ∧
      s'.Shows (pd / PGSIZE) twoFile twoHeaders := by
  obtain ⟨s, hok⟩ := init_page_low
  have hinit := init_page_spec (L := .low) (s := ⟨fun _ => 0, 0, 0⟩) (F := fun _ => True)
    fun _ _ => rfl
  obtain ⟨h, hcr3, -⟩ := hinit.of_ok hok
  have hframes : framesUpTo twoFile (half twoFile 44) = 10 := by
    change ((loadHeaders twoFile).map segmentFrames).sum = 10
    rw [loadHeaders_twoFile]
    decide +kernel
  have hheap : heapPages.length = 32256 := List.length_range'
  have hspec := load_elf_image (fun _ => 0) h hcr3 executable_twoFile
  rw [hframes, hheap, loadHeaders_twoFile] at hspec
  obtain ⟨⟨pd, eip⟩, s', hok', heip, hcr3', hshows⟩ := hspec.returns_of fun e he => by omega
  have hentry : wordOf twoFile 24 = 0x08048000 := by decide
  rw [hentry] at heip
  change eip = 0x08048000 at heip
  subst heip
  exact ⟨s, s', pd, hok, hok', hcr3', hshows⟩

/-! ### The file that is loaded -/

section Loading

variable {fs : Fs} {i : InodePtr} {no : ℕ} {k : Kernel} {path : CString}

/-- What the loader reads of a slot is what it reads of the file. -/
theorem iread_readFile (h : fs.Holds fs.disk.bytes fs.inodes) (hi : 0 < (fs.inodes i).ref)
    (hno : (fs.inodes i).no = no) (off len : ℕ) :
    wp (iread i off len) (fun bs fs' => bs = readFile (fs.contents no) off len ∧
        fs'.Holds fs'.disk.bytes fs'.inodes ∧ 0 < (fs'.inodes i).ref ∧ (fs'.inodes i).no = no ∧
        fs'.contents no = fs.contents no)
      (fun _ => True) fs := by
  have hlt : no < 1920 := hno ▸ (h.2.live i hi).1
  refine (iread_spec h hi hno off len).mono ?_ fun _ _ => trivial
  intro bs fs' hfs'
  obtain ⟨D', I', hh, hg, rfl, -⟩ := hfs'
  obtain rfl : fs'.disk.bytes = D' := hh.1.bytes
  obtain rfl : fs'.inodes = I' := hh.1.inodes
  refine ⟨?_, hh, hg.slots.live.mpr hi, (hg.slots.no_eq hi).trans hno, ?_⟩
  · rw [Fs.contents, objs_of_lt hlt, readFile, Obj.read_content]
    rfl
  · rw [Fs.contents, Fs.contents, objs_of_lt hlt, objs_of_lt hlt, (hg.kept no hlt).obj]

theorem ehdrOf_eq {file : List UInt8} (hlen : EHDR_SIZE ≤ file.length) (junk : Mem) :
    ehdrOf file junk = readFile file 0 EHDR_SIZE := by
  rw [ehdrOf, fill, List.drop_eq_nil_of_le, List.append_nil]
  rw [readFile, Mem.length_slice, List.length_take, List.drop_zero, min_eq_left hlen]

/-- **The kernel loads the file that the path leads to**: what `load_elf` returns is what the loader
returns on the contents of the file. -/
theorem load_elf_agrees (s : Running) (path : CString) {v v' : Vm} {pgdir no : ℕ} {junk : Mem}
    {eip : UInt32} (hpath : lookup s.1.fs.state.ns.objs s.1.cwdNo path.1 = some no)
    (hlen : EHDR_SIZE ≤ (s.1.fs.contents no).length)
    (hload : Vm.load_elf pgdir (some (s.1.fs.contents no)) junk v = .ok (eip, v')) :
    wp (load_elf path.1) (fun eip' _ => eip' = eip) (fun _ => True) s.1 := by
  have horder := reachable_inOrder s.2
  have hsound : s.1.Sound := reachable_sound s.2
  obtain ⟨c, hc, hcwd⟩ := cwd_curr hsound horder
  set file := s.1.fs.contents no with hfile
  -- what comes after the header does not change what is returned
  have hall {ε σ α : Type} {m : Prog ε σ α} {post : α → σ → Prop} {t : σ} (h : ∀ a t', post a t') :
      wp m post (fun _ => True) t := wp_iff.mpr ⟨fun a t' _ => h a t', fun _ _ => trivial⟩
  have heip : eip = if wordOf (readFile file 0 EHDR_SIZE) 0 ≠ ELF_MAGIC then -1
      else wordOf (readFile file 0 EHDR_SIZE) 24 := by
    have hspec : wp (Vm.load_elf pgdir (some file) junk) (fun eip _ =>
        eip = if wordOf (readFile file 0 EHDR_SIZE) 0 ≠ ELF_MAGIC then -1
          else wordOf (readFile file 0 EHDR_SIZE) 24) (fun _ => True) v := by
      rw [Vm.load_elf]
      simp only [ehdrOf_eq hlen]
      rw [wp_ite]
      refine ⟨fun hmagic => (if_pos hmagic).symm, fun hmagic => ?_⟩
      rw [if_neg hmagic]
      simp only [wp_bind]
      refine hall fun _ _ => hall fun _ _ => hall fun _ _ => hall fun _ _ => rfl
    exact hspec.of_ok hload
  rw [load_elf, wp_bind]
  refine (kopen_spec horder.tables hc path.2).mono ?_ fun _ _ => trivial
  intro r s₁ hs₁
  obtain ⟨fs, q, evs, rfl, hok, rfl, heff, hopen, hslot⟩ := hs₁
  have hpath : lookup (objs s.1.fs.disk.bytes) s.1.cwdNo path.1 = some no := hpath
  rcases hopen.of_none with ⟨rfl, -, hres⟩ | ⟨j, no', rfl, rfl, hres⟩
  · rw [resolve_lookup, ← hcwd] at hres
    rw [hres] at hpath
    cases hpath
  rw [resolve_lookup, ← hcwd] at hres
  obtain rfl : no' = no := by
    rw [hres] at hpath
    exact Option.some.inj hpath
  obtain ⟨href, hno⟩ := hslot j no' rfl
  obtain ⟨hlt, hkept⟩ := Effects.opened_obj heff
  have hsame : fs.contents no' = file := by
    rw [hfile, Fs.contents, Fs.contents, objs_of_lt hlt, objs_of_lt hlt]
    exact congrArg Obj.content (hkept no' hlt).obj
  simp only [Option.map_some]
  rw [wp_bind, wp_read, wp_bind, wp_inFs]
  refine (iread_readFile hok.holds href hno 0 EHDR_SIZE).imp ?_
  intro bs fs' hbs
  obtain ⟨rfl, -⟩ := hbs
  have hfull : fill (fs.junk.slice 0 EHDR_SIZE) (readFile file 0 EHDR_SIZE) =
      readFile file 0 EHDR_SIZE := ehdrOf_eq hlen fs.junk
  simp only [hsame, hfull, heip]
  rw [wp_ite]
  refine ⟨fun hmagic => ?_, fun hmagic => ?_⟩
  · rw [if_pos hmagic, wp_bind]
    exact hall fun _ _ => rfl
  · rw [if_neg hmagic, wp_bind]
    refine hall fun _ _ => ?_
    rw [wp_bind]
    exact hall fun _ _ => rfl

end Loading

end Oslab
