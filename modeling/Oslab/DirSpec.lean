/-
# Reading and writing directories

`ilookup` reads a directory entry by entry until it meets the name, and makes a
new file otherwise; `idirinit` writes the two entries of a new directory;
`idirempty` looks for an entry in use after them. The specifications are in
terms of the entries of the objects before and after.
-/
import Oslab.Directory

namespace Oslab

open Lib Lib.Prog

variable {s : Fs} {D D' D'' : Mem} {I I' I'' : InodePtr → Inode} {i j : InodePtr} {no d : ℕ}
  {name : List UInt8}

theorem Obj.target_eq_zero {o : Obj} {e : ℕ} : o.target e = 0 ↔ (o.entry e).inode = 0 := by
  rw [target, ← UInt32.toNat_inj]
  rfl

theorem Mapped.sub {lo hi lo' hi' : ℕ} (h : Mapped D no lo hi) (hlo : lo ≤ lo') (hhi : hi' ≤ hi) :
    Mapped D no lo' hi' := fun n hn hn' =>
  h n ((Nat.div_le_div_right hlo).trans hn) (hn'.trans (Nat.div_le_div_right hhi))

theorem ReadAbort.mono {lo hi lo' hi' : ℕ} {e : Abort} (h : ReadAbort D no lo' hi' e)
    (hlo : lo ≤ lo') (hhi : hi' ≤ hi) : ReadAbort D no lo hi e :=
  h.imp (fun h => ⟨h.1, fun hm => h.2 (hm.sub hlo hhi)⟩)
    fun h => ⟨h.1, h.2.trans (Nat.div_le_div_right hhi)⟩

theorem ReadAbort.of_grow {lo hi : ℕ} {e : Abort} (h : ReadAbort D' no lo hi e)
    (hk : Kept D D' no) : ReadAbort D no lo hi e :=
  h.imp (fun h => ⟨h.1, fun hm => h.2 (hk.mapped hm)⟩) id

/-- Reading entry `e` into a local variable. -/
theorem ireadEntry_spec (h : s.Holds D I) (hi : 0 < (I j).ref) (hno : (I j).no = d) {e n : ℕ}
    (hsize : (obj D d).size = 32 * n) (he : e < n) :
    wp (iread j (32 * e) Dirent.sizeof) (fun bs s' => ∃ D' I', s'.Holds D' I' ∧ Grow D I D' I' ∧
        (∀ dirent : Dirent, dirent.overlay bs = (obj D d).entry e) ∧
        (Mapped D d 0 (32 * n) → D' = D ∧ I' = I)) (ReadAbort D d 0 (32 * n)) s := by
  refine (iread_spec h hi hno (32 * e) 32).mono ?_
    fun err herr => (ReadAbort.of_stop herr).mono (Nat.zero_le _) (by omega)
  rintro bs s' ⟨D', I', hh, hg, rfl, hsame, -⟩
  refine ⟨D', I', hh, hg, fun dirent => ?_, fun hm => hsame (hm.sub (Nat.zero_le _) (by omega))⟩
  rw [show min 32 ((obj D d).size - 32 * e) = 32 by omega]
  exact Dirent.overlay_slice dirent (fileByte D d) (32 * e)

theorem ilookupLoop_spec (name : List UInt8) (n fuel e empty : ℕ) (dirent : Dirent) (h : s.Holds D I)
    (hi : 0 < (I j).ref) (hno : (I j).no = d) (hsize : (obj D d).size = 32 * (e + n))
    (hfuel : n < fuel) (hlen : dirent.name.length = 28) :
    wp (ilookupLoop j name (32 * (e + n)) fuel (32 * e) dirent empty)
      (fun r s' => ∃ D' I', s'.Holds D' I' ∧ Grow D I D' I' ∧
        (Mapped D d 0 (32 * (e + n)) → D' = D ∧ I' = I) ∧
        match (obj D d).findFrom name e n with
        | some x => r = .inl (32 * x, (obj D d).target x)
        | none => ∃ dirent', dirent'.name.length = 28 ∧ r = .inr (dirent',
            if empty = 32 * (e + n) then 32 * (obj D d).holeFrom e n else empty))
      (ReadAbort D d 0 (32 * (e + n))) s := by
  induction n generalizing s D I fuel e empty dirent with
  | zero =>
    obtain ⟨fuel, rfl⟩ := Nat.exists_eq_succ_of_ne_zero (show fuel ≠ 0 by omega)
    rw [ilookupLoop, if_neg (by omega), wp_pure]
    refine ⟨D, I, h, .refl D I, fun _ => ⟨rfl, rfl⟩, dirent, hlen, ?_⟩
    split
    case isTrue hempty => rw [hempty]; rfl
    case isFalse => rfl
  | succ n ih =>
    obtain ⟨fuel, rfl⟩ := Nat.exists_eq_succ_of_ne_zero (show fuel ≠ 0 by omega)
    rw [ilookupLoop, if_pos (by omega), wp_bind]
    refine (ireadEntry_spec h hi hno hsize (by omega)).imp ?_
    rintro bs s₁ ⟨D₁, I₁, hh₁, hg₁, hbs, hsame₁⟩
    have hlt : d < 1920 := hno ▸ (h.2.live j hi).1
    have hkept := hg₁.kept d hlt
    simp only [hbs]
    -- the rest of the directory, from the entry after this one
    have hnext (empty' : ℕ) := @ih s₁ D₁ I₁ fuel (e + 1) empty' ((obj D d).entry e) hh₁ (hg₁.slots.live.mpr hi)
      ((hg₁.slots.no_eq hi).trans hno) (by rw [hkept.obj, hsize]; omega) (by omega)
      (Dirent.length_ofMem _ _)
    rw [hkept.obj, show e + 1 + n = e + (n + 1) by omega] at hnext
    have hgrow (empty' : ℕ) : wp (ilookupLoop j name (32 * (e + (n + 1))) fuel
        (32 * e + Dirent.sizeof) ((obj D d).entry e) empty')
      (fun r s' => ∃ D' I', s'.Holds D' I' ∧ Grow D I D' I' ∧
        (Mapped D d 0 (32 * (e + (n + 1))) → D' = D ∧ I' = I) ∧
        match (obj D d).findFrom name (e + 1) n with
        | some x => r = .inl (32 * x, (obj D d).target x)
        | none => ∃ dirent', dirent'.name.length = 28 ∧ r = .inr (dirent',
            if empty' = 32 * (e + (n + 1)) then 32 * (obj D d).holeFrom (e + 1) n else empty'))
      (ReadAbort D d 0 (32 * (e + (n + 1)))) s₁ := by
      refine (hnext empty').mono ?_ fun err herr => herr.of_grow hkept
      rintro r s₂ ⟨D₂, I₂, hh₂, hg₂, hsame₂, hr⟩
      refine ⟨D₂, I₂, hh₂, hg₁.trans hg₂, fun hm => ?_, hr⟩
      obtain ⟨rfl, rfl⟩ := hsame₁ hm
      exact hsame₂ hm
    rw [Obj.findFrom_succ, Obj.holeFrom_succ]
    by_cases h0 : ((obj D d).entry e).inode = 0
    · have h0' : (obj D d).target e = 0 := Obj.target_eq_zero.mpr h0
      have hmiss : (obj D d).hits name e = false := by simp [Obj.hits, h0']
      simp only [hmiss, h0, h0', Bool.false_eq_true, if_false, if_true]
      refine (hgrow _).imp ?_
      rintro r s₂ ⟨D₂, I₂, hh₂, hg₂, hsame₂, hr⟩
      refine ⟨D₂, I₂, hh₂, hg₂, hsame₂, ?_⟩
      cases hf : (obj D d).findFrom name (e + 1) n with
      | some x => rwa [hf] at hr
      | none =>
        rw [hf] at hr
        obtain ⟨dirent', hlen', rfl⟩ := hr
        refine ⟨dirent', hlen', ?_⟩
        by_cases hempty : empty = 32 * (e + (n + 1))
        · rw [if_pos hempty, if_neg (by omega)]
        · rw [if_neg hempty, if_neg hempty]
    · have h0' : (obj D d).target e ≠ 0 := fun h => h0 (Obj.target_eq_zero.mp h)
      rw [if_neg h0]
      split
      case isTrue hname =>
        have hhit : (obj D d).hits name e = true := by simp [Obj.hits, h0', Obj.label, hname]
        rw [wp_pure, hhit, if_pos rfl]
        exact ⟨D₁, I₁, hh₁, hg₁, hsame₁, rfl⟩
      case isFalse hname =>
        have hmiss : (obj D d).hits name e = false := by simp [Obj.hits, Obj.label, hname]
        simp only [hmiss, Bool.false_eq_true, if_false]
        exact hgrow empty

/-- `idirempty` looks at the entries after the first two. -/
theorem idiremptyLoop_spec (n : ℕ) {fuel e : ℕ} {dirent : Dirent} (h : s.Holds D I)
    (hi : 0 < (I j).ref) (hno : (I j).no = d) (hsize : (obj D d).size = 32 * (e + n))
    (hfuel : n < fuel) :
    wp (idiremptyLoop j fuel (32 * e) dirent)
      (fun b s' => ∃ D' I', s'.Holds D' I' ∧ Grow D I D' I' ∧
        (Mapped D d 0 (32 * (e + n)) → D' = D ∧ I' = I) ∧
        (b = true ↔ ∀ x, e ≤ x → x < e + n → (obj D d).target x = 0))
      (ReadAbort D d 0 (32 * (e + n))) s := by
  induction n generalizing s D I fuel e dirent with
  | zero =>
    obtain ⟨fuel, rfl⟩ := Nat.exists_eq_succ_of_ne_zero (show fuel ≠ 0 by omega)
    have hsz : (s.inodes j).dinode.size.toNat = (obj D d).size := by
      rw [h.1.inodes, (h.2.live j hi).2, hno]
      rfl
    rw [idiremptyLoop, isize, wp_bind, wp_read, hsz, if_neg (by omega), wp_pure]
    exact ⟨D, I, h, .refl D I, fun _ => ⟨rfl, rfl⟩, by simp; omega⟩
  | succ n ih =>
    obtain ⟨fuel, rfl⟩ := Nat.exists_eq_succ_of_ne_zero (show fuel ≠ 0 by omega)
    have hsz : (s.inodes j).dinode.size.toNat = (obj D d).size := by
      rw [h.1.inodes, (h.2.live j hi).2, hno]
      rfl
    rw [idiremptyLoop, isize, wp_bind, wp_read, hsz, if_pos (by omega), wp_bind]
    refine (ireadEntry_spec h hi hno hsize (by omega)).imp ?_
    rintro bs s₁ ⟨D₁, I₁, hh₁, hg₁, hbs, hsame₁⟩
    have hlt : d < 1920 := hno ▸ (h.2.live j hi).1
    have hkept := hg₁.kept d hlt
    simp only [hbs]
    split
    case isTrue h0 =>
      rw [wp_pure]
      refine ⟨D₁, I₁, hh₁, hg₁, hsame₁, ?_⟩
      simp only [Bool.false_eq_true, false_iff, not_forall]
      exact ⟨e, le_rfl, by omega, fun h => h0 (Obj.target_eq_zero.mp h)⟩
    case isFalse h0 =>
      have h0' : (obj D d).target e = 0 := Obj.target_eq_zero.mpr (not_not.mp h0)
      have hnext := @ih s₁ D₁ I₁ fuel (e + 1) ((obj D d).entry e) hh₁ (hg₁.slots.live.mpr hi)
        ((hg₁.slots.no_eq hi).trans hno) (by rw [hkept.obj, hsize]; omega) (by omega)
      rw [hkept.obj, show e + 1 + n = e + (n + 1) by omega] at hnext
      refine hnext.mono ?_ fun err herr => herr.of_grow hkept
      rintro b s₂ ⟨D₂, I₂, hh₂, hg₂, hsame₂, hb⟩
      refine ⟨D₂, I₂, hh₂, hg₁.trans hg₂, fun hm => ?_, hb.trans ⟨fun h x hle hx => ?_, ?_⟩⟩
      · obtain ⟨rfl, rfl⟩ := hsame₁ hm
        exact hsame₂ hm
      · by_cases hxe : x = e
        · rw [hxe, h0']
        · exact h x (by omega) hx
      · exact fun h x hle hx => h x (by omega) hx

/-! ### Small disks

An operation may stop because the disk is full. It does not on a disk where every inode has
at most its first block and every directory has room for one more entry in it. -/

structure Small (D : Mem) : Prop where
  one : ∀ no < 1920, ∀ k, place D no k ≠ 0 → k = 0
  dirs : ∀ no < 1920, (obj D no).type = TYPE_DIR → place D no 0 ≠ 0 ∧ (obj D no).size + 32 ≤ 4096

/-- With at most one block for each inode some block is free. -/
theorem Owned.exists_free (ho : Owned D) (h : ∀ no < 1920, ∀ k, place D no k ≠ 0 → k = 0) :
    ∃ b < 32768, bitAt D b = false := by
  by_contra hfull
  have hsub : Finset.Ico 64 32768 ⊆ (Finset.range 1920).image fun no => place D no 0 := by
    intro b hb
    obtain ⟨hlo, hhi⟩ := Finset.mem_Ico.mp hb
    have hbit : bitAt D b = true := by
      by_contra hne
      exact hfull ⟨b, hhi, by simpa using hne⟩
    obtain ⟨no, hno, k, hk⟩ := ho.owner b hlo hhi hbit
    have hk0 : k = 0 := h no hno k (by omega)
    exact Finset.mem_image.mpr ⟨no, Finset.mem_range.mpr hno, by rw [← hk0, hk]⟩
  have hcard := (Finset.card_le_card hsub).trans Finset.card_image_le
  rw [Nat.card_Ico, Finset.card_range] at hcard
  omega

theorem Small.mapped (h : Small D) (hno : no < 1920) (hdir : (obj D no).type = TYPE_DIR) {hi : ℕ}
    (hle : hi < 4096) : Mapped D no 0 hi := by
  intro n _ hn
  obtain rfl : n = 0 := by omega
  exact (h.dirs no hno hdir).1

/-- The number of slots in use. -/
def liveCount (I : InodePtr → Inode) : ℕ := (Finset.univ.filter fun j => 0 < (I j).ref).card

theorem SameSlots.liveCount_eq (h : SameSlots I I') : liveCount I' = liveCount I := by
  simp only [liveCount, h.live]

theorem Opened.liveCount_le (h : Opened I I' j no) : liveCount I' ≤ liveCount I + 1 := by
  unfold liveCount
  refine (Finset.card_le_card (t := insert j (Finset.univ.filter fun i => 0 < (I i).ref)) ?_).trans
    (Finset.card_insert_le _ _)
  intro i hi
  by_cases hij : i = j
  · exact Finset.mem_insert.mpr (Or.inl hij)
  · rw [Finset.mem_filter, (h.others i hij).1] at hi
    exact Finset.mem_insert_of_mem (Finset.mem_filter.mpr hi)

theorem liveCount_of_full (h : ∀ j, 0 < (I j).ref) : liveCount I = 128 := by
  rw [liveCount, Finset.filter_true_of_mem fun j _ => h j]
  simp

/-- Why an operation on directories stops: the disk, a directory, the inodes on disk or
the slots of the inode table are full; `n` slots are in use for the operation itself. -/
def DirAbort (D : Mem) (I : InodePtr → Inode) (n : ℕ) (e : Abort) : Prop :=
  (e = .noBlock ∧ ¬ Small D) ∨ (e = .tooBig ∧ ∃ d < 1920, 1036 * 4096 ≤ (obj D d).size) ∨
    (e = .noInode ∧ ∀ m, 1 ≤ m → m < 1920 → (obj D m).type ≠ TYPE_NONE) ∨
    (e = .noSlot ∧ 128 ≤ liveCount I + n)

theorem ReadAbort.dir {n : ℕ} {hi : ℕ} {e : Abort} (h : ReadAbort D no 0 hi e) (hno : no < 1920)
    (hdir : (obj D no).type = TYPE_DIR) (hle : hi ≤ (obj D no).size) : DirAbort D I n e := by
  rcases h with ⟨rfl, hm⟩ | ⟨rfl, hbig⟩
  · refine Or.inl ⟨rfl, fun hs => hm (hs.mapped hno hdir ?_)⟩
    have := (hs.dirs no hno hdir).2
    omega
  · exact Or.inr (Or.inl ⟨rfl, no, hno, by omega⟩)

/-! ### New entries -/

/-- The entry names inode `no`, and its name is terminated. -/
structure Dirent.Names (dirent : Dirent) (no : ℕ) (name : List UInt8) : Prop where
  length : dirent.name.length = 28
  inode : dirent.inode.toNat = no
  label : cstr dirent.name = name
  ends : (0 : UInt8) ∈ dirent.name

theorem Dirent.names_mk (dirent : Dirent) (name : List UInt8) (hlen : dirent.name.length = 28)
    (hno : no < 1920) (hname : name.length ≤ 27) (h0 : (0 : UInt8) ∉ name) :
    ({ dirent with inode := UInt32.ofNat no, name := strcpy dirent.name name } : Dirent).Names no
      name where
  length := by
    rw [← hlen]
    exact length_strcpy (by omega)
  inode := UInt32.toNat_ofNat_of_lt' (lt_trans hno (by norm_num [UInt32.size]))
  label := cstr_strcpy _ h0
  ends := mem_strcpy _ _

/-- What a new inode is: a directory holds `.` and `..`, anything else is as it was. -/
def NewObj (o : Obj) (type : UInt32) (no d : ℕ) (o' : Obj) : Prop :=
  if type = TYPE_DIR then ∃ dot dotdot : Dirent, dot.Names no DOT ∧ dotdot.Names d DOTDOT ∧
    o' = (({ o with type := type } : Obj).put 0 dot).put 1 dotdot
  else o' = { o with type := type }

/-- `idirinit` writes `.` and `..`. -/
theorem idirinit_spec (h : s.Holds D I) (hi : 0 < (I i).ref) (hno : (I i).no = no)
    (hj : 0 < (I j).ref) (hd : (I j).no = d) (htype : (obj D no).type = TYPE_DIR)
    (hsize : (obj D no).size = 0) (hdir : (obj D d).type = TYPE_DIR) :
    wp (idirinit i j) (fun _ s' => ∃ D' I', s'.Holds D' I' ∧ Touch D I no D' I' ∧
        NewPlaces D D' no 0 ∧ place D' no 0 ≠ 0 ∧ ∃ dot dotdot : Dirent, dot.Names no DOT ∧
          dotdot.Names d DOTDOT ∧ obj D' no = ((obj D no).put 0 dot).put 1 dotdot)
      (fun e => e = .noBlock ∧ ∀ b < 32768, bitAt D b = true) s := by
  obtain ⟨hat, hinv⟩ := h
  obtain ⟨hlt, hdi⟩ := hinv.live i hi
  obtain ⟨hltd, hdj⟩ := hinv.live j hj
  rw [hno] at hlt hdi
  rw [hd] at hltd hdj
  have htype' : (I i).dinode.type = TYPE_DIR := by rw [hdi]; exact htype
  have hsize' : (I i).dinode.size = 0 := by
    rw [hdi, ← UInt32.toNat_inj]
    exact hsize
  have hdir' : (I j).dinode.type = TYPE_DIR := by rw [hdj]; exact hdir
  have hnone : (obj D no).type ≠ TYPE_NONE := by rw [htype]; decide
  rw [idirinit, wp_bind]
  refine (getInode_spec hat i).imp ?_
  rintro ip s₁ ⟨hat₁, rfl⟩
  rw [wp_bind]
  refine (getInode_spec hat₁ j).imp ?_
  rintro pp s₂ ⟨hat₂, rfl⟩
  simp only [wp_bind, wp_assert, htype', hsize', hdir', hno, hd, wp_read, forall_const,
    not_true_eq_false, false_imp_iff, and_true]
  -- the first entry is put in a new block
  have hdot := Dirent.names_mk (Dirent.ofMem s₂.junk 0) DOT
    (Dirent.length_ofMem _ _) hlt (by simp) (by decide)
  have hdotdot := Dirent.names_mk { Dirent.ofMem s₂.junk 0 with
      inode := UInt32.ofNat no, name := strcpy (Dirent.ofMem s₂.junk 0).name DOT } DOTDOT hdot.length hltd (by simp) (by decide)
  set dot : Dirent := { Dirent.ofMem s₂.junk 0 with
      inode := UInt32.ofNat no, name := strcpy (Dirent.ofMem s₂.junk 0).name DOT } with hdotdef
  set dotdot : Dirent := { dot with
      inode := UInt32.ofNat d, name := strcpy dot.name DOTDOT } with hdotdotdef
  have hlen := Dirent.length_bytes hdot.length
  have hlen' := Dirent.length_bytes hdotdot.length
  refine (iwrite_spec ⟨hat₂, hinv⟩ hi hno hnone 0 dot.bytes).mono ?_ ?_
  · rintro r s₃ (⟨-, hlt0, -⟩ | ⟨-, -, D₃, I₃, hh₃, ht₃, hnew₃, hmap₃, hobj₃, -⟩)
    · omega
    have hput₃ : obj D₃ no = (obj D no).put 0 dot := by rw [hobj₃, hlen]; rfl
    have hsize₃ : (obj D₃ no).size = 32 := by rw [hput₃]; simp [Obj.put, hsize]
    have hnone₃ : (obj D₃ no).type ≠ TYPE_NONE := by rw [hput₃]; exact hnone
    have hp₃ : place D₃ no 0 ≠ 0 := hmap₃ (by omega) 0 (by omega) (by omega)
    refine (iwrite_spec hh₃ (ht₃.slots.live.mpr hi) ((ht₃.slots.no_eq hi).trans hno) hnone₃ 32
      dotdot.bytes).mono ?_ ?_
    · rintro r' s₄ (⟨-, hlt0, -⟩ | ⟨-, -, D₄, I₄, hh₄, ht₄, hnew₄, -, hobj₄, -⟩)
      · omega
      rw [hlen] at hnew₃
      rw [hlen'] at hnew₄ hobj₄
      refine ⟨D₄, I₄, hh₄, ht₃.trans ht₄, hnew₃.trans hnew₄ le_rfl, ?_, dot, dotdot, hdot,
        hdotdot, ?_⟩
      · rw [ht₄.place 0 hp₃]
        exact hp₃
      · rw [hobj₄, ← hput₃]
        rfl
    · rintro e ⟨-, hstop⟩
      obtain ⟨-, ⟨rfl, hm, -⟩ | ⟨rfl, hbig⟩⟩ := write_abort hstop
      · refine (hm fun n hn hn' => ?_).elim
        obtain rfl : n = 0 := by omega
        exact hp₃
      · omega
  · rintro e ⟨-, hstop⟩
    obtain ⟨-, ⟨rfl, -, hfull⟩ | ⟨rfl, hbig⟩⟩ := write_abort hstop
    · exact ⟨rfl, hfull (by omega) (by omega)⟩
    · omega

/-! ### Looking up and creating -/

/-- Slot `k` holds the new inode `no`, entered under the name in directory `d`. -/
structure Created (D : Mem) (I : InodePtr → Inode) (D' : Mem) (I' : InodePtr → Inode) (d : ℕ)
    (name : List UInt8) (type : UInt32) (k : InodePtr) (no : ℕ) : Prop where
  opened : Opened I I' k no
  fresh : (I k).ref = 0
  pos : 1 ≤ no
  lt : no < 1920
  free : (obj D no).type = TYPE_NONE
  first : ∀ m, 1 ≤ m → m < no → (obj D m).type ≠ TYPE_NONE
  parent : ∃ dirent : Dirent, dirent.Names no name ∧
    obj D' d = (obj D d).put (obj D d).hole dirent
  child : NewObj (obj D no) type no d (obj D' no)
  other : ∀ no' < 1920, no' ≠ d → no' ≠ no → obj D' no' = obj D no'
  place : ∀ no' < 1920, ∀ k, Oslab.place D no' k ≠ 0 → Oslab.place D' no' k = Oslab.place D no' k
  small : Small D → (obj D d).size + 64 ≤ 4096 → Small D'

/-- What a lookup returns. -/
def Looked (D : Mem) (I : InodePtr → Inode) (D' : Mem) (I' : InodePtr → Inode) (d : ℕ)
    (name : List UInt8) (type : UInt32) (r : Option (InodePtr × Option ℕ)) : Prop :=
  match (obj D d).find name with
  | some e => ∃ k, r = some (k, some (32 * e)) ∧ Opened I I' k ((obj D d).target e) ∧
      (∀ no < 1920, Kept D D' no) ∧ (Small D → D' = D)
  | none =>
    if type = TYPE_NONE then r = none ∧ Grow D I D' I' ∧ (Small D → D' = D)
    else ∃ k no, r = some (k, none) ∧ Created D I D' I' d name type k no

theorem small_same (hsame : Mapped D d 0 (obj D d).size → D' = D ∧ I' = I) (hd : d < 1920)
    (hdir : (obj D d).type = TYPE_DIR) : Small D → D' = D := fun hs =>
  (hsame (hs.mapped hd hdir (by have := (hs.dirs d hd hdir).2; omega))).1

theorem Touch.obj_eq (h : Touch D I no D' I') {no' : ℕ} (hno' : no' < 1920) (hne : no' ≠ no) :
    obj D' no' = obj D no' := (h.other no' hno' hne).obj

theorem Touch.place_eq (h : Touch D I no D' I') {no' k : ℕ} (hno' : no' < 1920)
    (hne : Oslab.place D no' k ≠ 0) : Oslab.place D' no' k = Oslab.place D no' k := by
  by_cases hn : no' = no
  · rw [hn] at hne ⊢
    exact h.place k hne
  · exact (h.other no' hno' hn).place k hne

/-- What a new inode is, whatever was on the disk before it was taken. -/
theorem NewObj.type_eq {o o' : Obj} {type : UInt32} (h : NewObj o type no d o') :
    o'.type = type := by
  unfold NewObj at h
  split at h
  · obtain ⟨dot, dotdot, -, -, rfl⟩ := h
    rfl
  · rw [h]

section Create

variable {D₂ : Mem} {I₂ : InodePtr → Inode} {name : List UInt8} {type : UInt32} {k : InodePtr}

/-- Growing changes none of the reasons to stop. -/
theorem DirAbort.of_grow {n : ℕ} {e : Abort} (hg : Grow D I D₂ I₂) (hsmall : Small D → D₂ = D)
    (h : DirAbort D₂ I₂ n e) : DirAbort D I n e := by
  have hobj (no : ℕ) (hno : no < 1920) : obj D₂ no = obj D no := (hg.kept no hno).obj
  rcases h with ⟨rfl, hfull⟩ | ⟨rfl, x, hx, hbig⟩ | ⟨rfl, hall⟩ | ⟨rfl, hslots⟩
  · exact Or.inl ⟨rfl, fun hs => hfull (hsmall hs ▸ hs)⟩
  · exact Or.inr (Or.inl ⟨rfl, x, hx, hobj x hx ▸ hbig⟩)
  · exact Or.inr (Or.inr (Or.inl ⟨rfl, fun m hm hm' => hobj m hm' ▸ hall m hm hm'⟩))
  · exact Or.inr (Or.inr (Or.inr ⟨rfl, hg.slots.liveCount_eq ▸ hslots⟩))

theorem Created.of_grow {no : ℕ} (hg : Grow D I D₂ I₂) (hsmall : Small D → D₂ = D) (hd : d < 1920)
    (h : Created D₂ I₂ D' I' d name type k no) :
    Created D I D' I' d name type k no := by
  have hobj (x : ℕ) (hx : x < 1920) : obj D₂ x = obj D x := (hg.kept x hx).obj
  constructor
  · exact h.opened.of_same hg.slots
  · rw [← (hg.slots k).1]
    exact h.fresh
  · exact h.pos
  · exact h.lt
  · rw [← hobj no h.lt]
    exact h.free
  · intro m hm hm'
    rw [← hobj m (hm'.trans h.lt)]
    exact h.first m hm hm'
  · rw [← hobj d hd]
    exact h.parent
  · rw [← hobj no h.lt]
    exact h.child
  · intro x hx hxd hxn
    rw [h.other x hx hxd hxn, hobj x hx]
  · intro x hx n hne
    have hsame := (hg.kept x hx).place n hne
    rw [h.place x hx n (hsame ▸ hne), hsame]
  · intro hs hroom
    rw [← hobj d hd] at hroom
    exact h.small (hsmall hs ▸ hs) hroom

/-- Slot `k` holds inode `no`, which was free and has a type now. -/
structure Alloced (D : Mem) (I : InodePtr → Inode) (D' : Mem) (I' : InodePtr → Inode)
    (type : UInt32) (k : InodePtr) (no : ℕ) : Prop where
  opened : Opened I I' k no
  fresh : (I k).ref = 0
  pos : 1 ≤ no
  lt : no < 1920
  free : (obj D no).type = TYPE_NONE
  first : ∀ m, 1 ≤ m → m < no → (obj D m).type ≠ TYPE_NONE
  self : obj D' no = { obj D no with type := type }
  other : ∀ no' < 1920, no' ≠ no → obj D' no' = obj D no'
  place : ∀ no' < 1920, ∀ k, Oslab.place D' no' k = Oslab.place D no' k

/-- An inode is taken on the disk and in the table. -/
theorem alloc_spec {β : Type} {rest : ℕ → InodePtr → FsM β} {post : β → Fs → Prop} (h : s.Holds D I)
    (htype : type ≠ TYPE_NONE) (hlive : ∀ j, 0 < (I j).ref → (obj D (I j).no).type ≠ TYPE_NONE)
    (hrest : ∀ no k s' D' I', s'.Holds D' I' → Alloced D I D' I' type k no →
      wp (rest no k) post (DirAbort D I 0) s') :
    wp (do
        let no ← dialloc type
        let i ← iget no
        rest no i) post (DirAbort D I 0) s := by
  rw [wp_bind]
  refine (dialloc_spec h htype hlive).mono ?_ ?_
  · rintro no s₁ ⟨D₁, hh₁, hpos, hnolt, hfree, hfirst, hplace, hself, hother⟩
    rw [wp_bind]
    refine (iget_spec hh₁ hnolt).mono ?_ ?_
    · rintro k s₂ ⟨I₂, hh₂, hopen⟩
      have hfresh : (I k).ref = 0 := by
        by_contra hne
        have hk : 0 < (I k).ref := lt_of_le_of_ne (h.2.ref k) (Ne.symm hne)
        have hused := hlive k hk
        rw [(hopen.old hk).1] at hused
        exact hused hfree
      exact hrest no k s₂ D₁ I₂ hh₂ ⟨hopen, hfresh, hpos, hnolt, hfree, hfirst, hself, hother, hplace⟩
    · rintro e ⟨rfl, hfull⟩
      exact Or.inr (Or.inr (Or.inr ⟨rfl, (liveCount_of_full hfull).ge⟩))
  · rintro e ⟨rfl, hall⟩
    exact Or.inr (Or.inr (Or.inl ⟨rfl, hall⟩))

/-- Slot `k` holds the new inode `no`, which has no entry yet. -/
structure Made (D : Mem) (I : InodePtr → Inode) (D' : Mem) (I' : InodePtr → Inode) (d : ℕ)
    (type : UInt32) (k : InodePtr) (no : ℕ) : Prop where
  opened : Opened I I' k no
  fresh : (I k).ref = 0
  pos : 1 ≤ no
  lt : no < 1920
  free : (obj D no).type = TYPE_NONE
  first : ∀ m, 1 ≤ m → m < no → (obj D m).type ≠ TYPE_NONE
  child : NewObj (obj D no) type no d (obj D' no)
  empty : (obj D no).size = 0
  other : ∀ no' < 1920, no' ≠ no → obj D' no' = obj D no'
  place : ∀ no' < 1920, ∀ k, Oslab.place D no' k ≠ 0 → Oslab.place D' no' k = Oslab.place D no' k
  blocks : NewPlaces D D' no 0
  mapped : type = TYPE_DIR → Oslab.place D' no 0 ≠ 0

theorem Alloced.ne {no : ℕ} (h : Alloced D I D' I' type k no) (hdir : (obj D d).type = TYPE_DIR) :
    d ≠ no := by
  rintro rfl
  have hfree := h.free
  rw [hdir] at hfree
  cases hfree

/-- The slot of the directory is another one. -/
theorem Opened.keeps {no : ℕ} (h : Opened I I' k no) (hfresh : (I k).ref = 0) (hj : 0 < (I j).ref) :
    0 < (I' j).ref ∧ (I' j).no = (I j).no := by
  have hjk : j ≠ k := by
    rintro rfl
    omega
  exact ⟨(h.others j hjk).1 ▸ hj, ((h.others j hjk).2 hj).1⟩

/-- A new directory gets its first two entries. -/
theorem Alloced.made_spec {no : ℕ} (hinv : FsInv D I) (hs : s.Holds D' I')
    (h : Alloced D I D' I' type k no) (hj : 0 < (I j).ref) (hd : (I j).no = d)
    (hdir : (obj D d).type = TYPE_DIR) :
    wp (if type = TYPE_DIR then idirinit k j else pure ())
      (fun _ s' => ∃ D'' I'', s'.Holds D'' I'' ∧ Made D I D'' I'' d type k no) (DirAbort D I 0) s := by
  have hlt : d < 1920 := hd ▸ (hinv.live j hj).1
  have hne := h.ne hdir
  have hk : 0 < (I' k).ref := by
    rw [h.opened.ref, h.fresh]
    norm_num
  obtain ⟨hj', hd'⟩ := h.opened.keeps h.fresh hj
  have hempty : (obj D no).size = 0 := hinv.free no h.lt h.free
  have hdir' : (obj D' d).type = TYPE_DIR := by rw [h.other d hlt hne, hdir]
  rw [wp_ite]
  refine ⟨fun hdirtype => ?_, fun hdirtype => ?_⟩
  · have htype : (obj D' no).type = TYPE_DIR := by
      rw [h.self]
      exact hdirtype
    have hsize : (obj D' no).size = 0 := by
      rw [h.self]
      exact hempty
    refine (idirinit_spec hs hk h.opened.ino hj' (hd'.trans hd) htype hsize hdir').mono ?_ ?_
    · rintro - s₂ ⟨D₂, I₂, hh₂, ht, hnew, hp, dot, dotdot, hdot, hdotdot, hobj⟩
      refine ⟨D₂, I₂, hh₂, h.opened.trans_same ht.slots (hinv.ref k), h.fresh, h.pos, h.lt, h.free,
        h.first, ?_, hempty, fun x hx hxn => ?_, fun x hx n hxn => ?_, fun x hx n hzero hxn => ?_,
        fun _ => hp⟩
      · unfold NewObj
        rw [if_pos hdirtype]
        exact ⟨dot, dotdot, hdot, hdotdot, by rw [hobj, h.self]⟩
      · rw [ht.obj_eq hx hxn, h.other x hx hxn]
      · have hsame := h.place x hx n
        rw [ht.place_eq hx (hsame ▸ hxn), hsame]
      · exact hnew x hx n ((h.place x hx n).trans hzero) hxn
    · rintro e ⟨rfl, hfull⟩
      refine Or.inl ⟨rfl, fun hsm => ?_⟩
      obtain ⟨b, hb, hclear⟩ := hs.2.owned.exists_free fun x hx n hxn => by
        rw [h.place x hx] at hxn
        exact hsm.one x hx n hxn
      rw [hfull b hb] at hclear
      cases hclear
  · rw [wp_pure]
    refine ⟨D', I', hs, h.opened, h.fresh, h.pos, h.lt, h.free, h.first, ?_, hempty, h.other,
      fun x hx n _ => h.place x hx n, fun x hx n hzero hxn => ?_, fun htype => (hdirtype htype).elim⟩
    · unfold NewObj
      rw [if_neg hdirtype]
      exact h.self
    · rw [h.place x hx n] at hxn
      exact (hxn hzero).elim

/-- With the entry of the new inode the disk is still small, when there was room for it. -/
theorem Made.small {no : ℕ} {D'' : Mem} {I'' : InodePtr → Inode} {entry : Dirent}
    (h : Made D I D' I' d type k no) (hlt : d < 1920) (hdir : (obj D d).type = TYPE_DIR) (hne : d ≠ no)
    (ht : Touch D' I' d D'' I'') (hnew : NewPlaces D' D'' d 0)
    (hput : obj D'' d = (obj D d).put (obj D d).hole entry) (hs : Small D)
    (hroom : (obj D d).size + 64 ≤ 4096) : Small D'' := by
  have hhole : 32 * (obj D d).hole ≤ (obj D d).size := by
    have hle := (obj D d).hole_le
    rw [Obj.count] at hle
    omega
  have hplace (x : ℕ) (hx : x < 1920) (n : ℕ) (hxn : Oslab.place D x n ≠ 0) :
      Oslab.place D'' x n = Oslab.place D x n := by
    have hsame := h.place x hx n hxn
    rw [ht.place_eq hx (hsame ▸ hxn), hsame]
  constructor
  · intro x hx n hxn
    by_contra hn
    have hzero : Oslab.place D x n = 0 := by
      by_contra hpos
      exact hn (hs.one x hx n hpos)
    have hzero' : Oslab.place D' x n = 0 := by
      by_contra hpos
      exact hn (Nat.le_zero.mp (h.blocks x hx n hzero hpos).2)
    exact hn (Nat.le_zero.mp (hnew x hx n hzero' hxn).2)
  · intro x hx hxdir
    by_cases hxd : x = d
    · subst hxd
      refine ⟨hplace x hx 0 (hs.dirs x hx hdir).1 ▸ (hs.dirs x hx hdir).1, ?_⟩
      rw [hput]
      simp only [Obj.put]
      omega
    have hxobj : obj D'' x = obj D' x := ht.obj_eq hx hxd
    rw [hxobj] at hxdir ⊢
    by_cases hxn : x = no
    · subst hxn
      have htype : type = TYPE_DIR := h.child.type_eq.symm.trans hxdir
      have hp := h.mapped htype
      refine ⟨ht.place_eq hx hp ▸ hp, ?_⟩
      have hchild := h.child
      unfold NewObj at hchild
      rw [if_pos htype] at hchild
      obtain ⟨dot, dotdot, -, -, hobj⟩ := hchild
      rw [hobj]
      simp only [Obj.put, h.empty]
      omega
    · rw [h.other x hx hxn] at hxdir ⊢
      exact ⟨hplace x hx 0 (hs.dirs x hx hxdir).1 ▸ (hs.dirs x hx hxdir).1, (hs.dirs x hx hxdir).2⟩

/-- The new inode is entered in its directory. -/
theorem Made.enter_spec {no : ℕ} {entry : Dirent} (hinv : FsInv D I) (hs : s.Holds D' I')
    (h : Made D I D' I' d type k no) (hj : 0 < (I j).ref) (hd : (I j).no = d)
    (hdir : (obj D d).type = TYPE_DIR) (hentry : entry.Names no name) :
    wp (do
        let _ ← iwrite j (32 * (obj D d).hole) entry.bytes
        pure (some (k, (none : Option ℕ))))
      (fun r s' => ∃ D'' I'', s'.Holds D'' I'' ∧ ∃ k no, r = some (k, none) ∧
        Created D I D'' I'' d name type k no) (DirAbort D I 0) s := by
  have hlt : d < 1920 := hd ▸ (hinv.live j hj).1
  have hne : d ≠ no := by
    rintro rfl
    have hfree := h.free
    rw [hdir] at hfree
    cases hfree
  have hhole : 32 * (obj D d).hole ≤ (obj D d).size := by
    have hle := (obj D d).hole_le
    rw [Obj.count] at hle
    omega
  have hlen := Dirent.length_bytes hentry.length
  have hd' : obj D' d = obj D d := h.other d hlt hne
  obtain ⟨hj', hno'⟩ := h.opened.keeps h.fresh hj
  have hnone : (obj D' d).type ≠ TYPE_NONE := by
    rw [hd', hdir]
    decide
  rw [wp_bind]
  refine (iwrite_spec hs hj' (hno'.trans hd) hnone _ entry.bytes).mono ?_ ?_
  · rintro r s₂ (⟨-, hbig, -⟩ | ⟨-, -, D₂, I₂, hh₂, ht, hnew, -, hobj, -⟩)
    · rw [hd'] at hbig
      omega
    rw [wp_pure]
    rw [hlen] at hnew hobj
    -- the entry is written into the hole, the bytes around it stay
    have hput : obj D₂ d = (obj D d).put (obj D d).hole entry := by
      have hbytes : fileByte D' d = (obj D d).bytes := congrArg Obj.bytes hd'
      rw [hobj, hd', hbytes]
      rfl
    refine ⟨D₂, I₂, hh₂, k, no, rfl, h.opened.trans_same ht.slots (hinv.ref k), h.fresh, h.pos, h.lt,
      h.free, h.first, ⟨entry, hentry, hput⟩, ?_, fun x hx hxd hxn => ?_, fun x hx n hxn => ?_,
      fun hsm hroom => ?_⟩
    · rw [ht.obj_eq h.lt hne.symm]
      exact h.child
    · rw [ht.obj_eq hx hxd, h.other x hx hxn]
    · have hsame := h.place x hx n hxn
      rw [ht.place_eq hx (hsame ▸ hxn), hsame]
    · have hblock : (32 * (obj D d).hole + 32) / 4096 = 0 := by omega
      rw [hblock] at hnew
      exact h.small hlt hdir hne ht hnew hput hsm hroom
  -- the hole lies in a block of the directory, unless that is full
  · rintro e ⟨-, hstop⟩
    obtain ⟨-, ⟨rfl, hm, -⟩ | ⟨rfl, hbig⟩⟩ := write_abort hstop
    · refine Or.inl ⟨rfl, fun hsm => hm fun n hlo hhi => ?_⟩
      obtain ⟨hp, hroom⟩ := hsm.dirs d hlt hdir
      obtain rfl : n = 0 := by omega
      change Oslab.place D' d 0 ≠ 0
      rw [h.place d hlt 0 hp]
      exact hp
    · exact Or.inr (Or.inl ⟨rfl, d, hlt, by omega⟩)

end Create

/-- A name is looked up; when it is not there, an object is made under it if one is wanted. -/
theorem ilookup_spec {type : UInt32} (h : s.Holds D I) (hj : 0 < (I j).ref) (hd : (I j).no = d)
    (hdir : (obj D d).type = TYPE_DIR) (hdvd : 32 ∣ (obj D d).size) (hname : name.length ≤ 27)
    (h0 : (0 : UInt8) ∉ name) (htarget : ∀ e < (obj D d).count, (obj D d).target e < 1920)
    (hlive : type ≠ TYPE_NONE → ∀ j, 0 < (I j).ref → (obj D (I j).no).type ≠ TYPE_NONE) :
    wp (ilookup j name type) (fun r s' => ∃ D' I', s'.Holds D' I' ∧
      Looked D I D' I' d name type r) (DirAbort D I 0) s := by
  have hlt : d < 1920 := hd ▸ (h.2.live j hj).1
  have hdj : (I j).dinode = dinodeAt D d := hd ▸ (h.2.live j hj).2
  have hdir' : (I j).dinode.type = TYPE_DIR := by rw [hdj]; exact hdir
  have hn : (obj D d).size = 32 * (0 + (obj D d).count) := by
    obtain ⟨n, hn⟩ := hdvd
    simp only [Obj.count, hn]
    omega
  have hsize : (I j).dinode.size.toNat = 32 * (0 + (obj D d).count) := by rw [hdj, ← hn]; rfl
  rw [ilookup, wp_bind]
  refine (getInode_spec h.1 j).imp ?_
  rintro pp s₁ ⟨hat₁, rfl⟩
  simp only [wp_bind, wp_assert, hdir', wp_read, forall_const, not_true_eq_false, false_imp_iff,
    and_true, hsize]
  have hloop := ilookupLoop_spec name (obj D d).count (32 * (0 + (obj D d).count) / Dirent.sizeof + 1) 0
    (32 * (0 + (obj D d).count)) (Dirent.ofMem s₁.junk 0) ⟨hat₁, h.2⟩ hj hd hn (by change _ < _ / 32 + 1; omega)
    (Dirent.length_ofMem _ _)
  refine hloop.mono ?_ fun e he => he.dir hlt hdir hn.ge
  rintro r s₂ ⟨D₂, I₂, hh₂, hg₂, hsame₂, hr⟩
  rw [← hn] at hsame₂
  have hsmall₂ := small_same hsame₂ hlt hdir
  have hobj₂ (no : ℕ) (hno : no < 1920) : obj D₂ no = obj D no := (hg₂.kept no hno).obj
  unfold Looked
  change match (obj D d).find name with | some x => _ | none => _ at hr
  cases hfind : (obj D d).find name with
  | some e =>
    rw [hfind] at hr
    subst hr
    obtain ⟨he, -⟩ := Obj.find_eq_some hfind
    simp only [wp_bind]
    refine (iget_spec hh₂ (htarget e he)).mono ?_ ?_
    · rintro k s₃ ⟨I₃, hh₃, hopen₃⟩
      rw [wp_pure]
      exact ⟨D₂, I₃, hh₃, k, rfl, hopen₃.of_same hg₂.slots, hg₂.kept, hsmall₂⟩
    · rintro err ⟨rfl, hfull⟩
      refine Or.inr (Or.inr (Or.inr ⟨rfl, ?_⟩))
      rw [← hg₂.slots.liveCount_eq, liveCount_of_full hfull]
  | none =>
    rw [hfind] at hr
    obtain ⟨dirent, hlen, rfl⟩ := hr
    simp only [if_true]
    by_cases hnone : type = TYPE_NONE
    · simp only [hnone, if_true]
      rw [wp_pure]
      exact ⟨D₂, I₂, hh₂, rfl, hg₂, hsmall₂⟩
    have hlive₂ (k : InodePtr) (hk : 0 < (I₂ k).ref) : (obj D₂ (I₂ k).no).type ≠ TYPE_NONE := by
      have hk' : 0 < (I k).ref := hg₂.slots.live.mp hk
      rw [hg₂.slots.no_eq hk', hobj₂ _ (h.2.live k hk').1]
      exact hlive hnone k hk'
    have hj₂ : 0 < (I₂ j).ref := hg₂.slots.live.mpr hj
    have hd₂ : (I₂ j).no = d := (hg₂.slots.no_eq hj).trans hd
    have hdir₂ : (obj D₂ d).type = TYPE_DIR := by rw [hobj₂ d hlt, hdir]
    simp only [hnone, if_false]
    -- from here on the disk is the one the search left
    suffices hmade : wp _ (fun r s' => ∃ D' I', s'.Holds D' I' ∧ ∃ k no, r = some (k, none) ∧
        Created D₂ I₂ D' I' d name type k no) (DirAbort D₂ I₂ 0) s₂ by
      refine hmade.mono ?_ fun e he => he.of_grow hg₂ hsmall₂
      rintro r s' ⟨D', I', hh', k, no, rfl, hc⟩
      exact ⟨D', I', hh', k, no, rfl, hc.of_grow hg₂ hsmall₂ hlt⟩
    rw [← hobj₂ d hlt]
    refine alloc_spec hh₂ hnone hlive₂ ?_
    intro no k s₃ D₃ I₃ hh₃ halloc
    have hentry := Dirent.names_mk dirent name hlen halloc.lt hname h0
    have hmade := halloc.made_spec hh₂.2 hh₃ hj₂ hd₂ hdir₂
    by_cases hdirtype : type = TYPE_DIR
    · rw [if_pos hdirtype] at hmade ⊢
      rw [wp_bind]
      refine hmade.imp ?_
      rintro - s₄ ⟨D₄, I₄, hh₄, hm⟩
      exact hm.enter_spec hh₂.2 hh₄ hj₂ hd₂ hdir₂ hentry
    · rw [if_neg hdirtype] at hmade ⊢
      obtain ⟨D₄, I₄, hh₄, hm⟩ := hmade
      exact hm.enter_spec hh₂.2 hh₄ hj₂ hd₂ hdir₂ hentry

end Oslab
