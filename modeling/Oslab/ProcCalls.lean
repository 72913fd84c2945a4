/-
# The calls that share and drop references

Opening and closing a semaphore changes one entry. A child gets every reference
of its parent, and a process that exits drops all of its own, entry by entry; the
tables fit together after each of them.
-/
import Oslab.FileCalls

namespace Oslab

open Lib Lib.Prog

variable {s s' : Kernel} {p q : ProcPtr}

/-- The same files, at the same offsets; only the numbers of references may differ. -/
def SameFiles (s s' : Kernel) : Prop :=
  ∀ k, s'.files k = { s.files k with ref := (s'.files k).ref }

theorem SameFiles.refl (s : Kernel) : SameFiles s s := fun _ => rfl

theorem SameFiles.trans {s'' : Kernel} (h : SameFiles s s') (h' : SameFiles s' s'') :
    SameFiles s s'' := by
  intro k
  rw [h' k, h k]

theorem SameFiles.of_links (h : s'.links = s.links) : SameFiles s s' := by
  intro k
  rw [show s'.files = s.files from congrArg Links.files h]

/-- Process `p` may refer to something else, all others refer to what they did. -/
structure Only (s : Kernel) (p : ProcPtr) (s' : Kernel) : Prop where
  held : ∀ q ≠ p, (s'.pcb q).held = (s.pcb q).held
  files : SameFiles s s'
  curr : s'.curr = s.curr

theorem Only.refl (s : Kernel) (p : ProcPtr) : Only s p s := ⟨fun _ _ => rfl, .refl s, rfl⟩

theorem Only.trans {s'' : Kernel} (h : Only s p s') (h' : Only s' p s'') : Only s p s'' :=
  ⟨fun q hq => (h'.held q hq).trans (h.held q hq), h.files.trans h'.files, h'.curr.trans h.curr⟩

/-! ### Semaphores -/

theorem Kernel.Tables.openUsem {id : Fin MAX_USEM} {u : UsemPtr} {sem : Sem} (h : s.Tables)
    (hid : (s.pcb p).usems id = none) (hu : (s.user_sem u).ref = 0) :
    { s with
      user_sem := Function.update s.user_sem u ⟨sem, 1⟩
      pcb := Function.update s.pcb p
        { s.pcb p with usems := Function.update (s.pcb p).usems id (some u) } }.Tables := by
  refine h.setUsem (fun v => ?_) rfl
  simp only [hid, reduceCtorEq, if_false, sub_zero, Option.some.injEq]
  by_cases hv : v = u
  · rw [hv, Function.update_self, if_pos rfl, hu]
    rfl
  · rw [Function.update_of_ne hv, if_neg (Ne.symm hv), add_zero]

/-- The count of a semaphore after one reference has been set or cleared. -/
theorem ref_update {u v : UsemPtr} {sem : Usem} {n : ℤ} (hsem : sem.ref = (s.user_sem u).ref + n) :
    (Function.update s.user_sem u sem v).ref = (s.user_sem v).ref + if u = v then n else 0 := by
  by_cases hv : v = u
  · rw [hv, Function.update_self, hsem, if_pos rfl]
  · rw [Function.update_of_ne hv, if_neg (Ne.symm hv), add_zero]

theorem sys_sem_open_tables {fail : Abort → Prop} (h : s.Tables) (value : ℤ) :
    wp (sys_sem_open value) (fun _ s' => s'.Tables ∧ s'.fs = s.fs ∧ Only s s.curr s' ∧
      (s'.pcb s.curr).cwd = (s.pcb s.curr).cwd ∧
      (s'.pcb s.curr).files = (s.pcb s.curr).files) fail s := by
  have hsame : s.Tables ∧ s.fs = s.fs ∧ Only s s.curr s ∧
      (s.pcb s.curr).cwd = (s.pcb s.curr).cwd ∧ (s.pcb s.curr).files = (s.pcb s.curr).files :=
    ⟨h, rfl, .refl s _, rfl, rfl⟩
  rw [sys_sem_open, wp_bind, proc_curr, wp_read, wp_bind, proc_allocusem, wp_read]
  cases hfind : (List.finRange MAX_USEM).find? fun i => (s.pcb s.curr).usems i = none with
  | none => exact hsame
  | some id =>
    have hid : (s.pcb s.curr).usems id = none := by simpa using List.find?_some hfind
    simp only
    rw [wp_bind, usem_alloc, wp_bind, wp_read]
    cases hfree : (List.finRange USER_SEM_NUM).find? fun i => (s.user_sem i).ref = 0 with
    | none => exact hsame
    | some u =>
      have hu : (s.user_sem u).ref = 0 := by simpa using List.find?_some hfree
      simp only
      rw [wp_bind, wp_update, wp_pure]
      simp only
      rw [wp_bind, setUsem, modProc, wp_update, ret, wp_pure]
      refine ⟨h.openUsem hid hu, rfl, ⟨fun q hq => ?_, fun _ => rfl, rfl⟩, ?_, ?_⟩
      · simp only [Function.update_of_ne hq]
      · simp only [Function.update_self]
      · simp only [Function.update_self]

/-- An entry of process `p` for a semaphore is cleared. -/
theorem Kernel.Tables.closeUsem {id : Fin MAX_USEM} {u : UsemPtr} (h : s.Tables)
    (hid : (s.pcb p).usems id = some u) :
    { s with
      user_sem := Function.update s.user_sem u
        { s.user_sem u with ref := (s.user_sem u).ref - 1 }
      pcb := Function.update s.pcb p
        { s.pcb p with usems := Function.update (s.pcb p).usems id none } }.Tables := by
  refine h.setUsem (fun v => ?_) rfl
  rw [ref_update (n := -1) rfl, hid]
  simp only [Option.some.injEq, reduceCtorEq, if_false, add_zero]
  split <;> rfl

theorem sys_sem_close_tables {fail : Abort → Prop} (h : s.Tables) (sem_id : ℤ) :
    wp (sys_sem_close sem_id) (fun _ s' => s'.Tables ∧ s'.fs = s.fs ∧ Only s s.curr s' ∧
      (s'.pcb s.curr).cwd = (s.pcb s.curr).cwd ∧
      (s'.pcb s.curr).files = (s.pcb s.curr).files) fail s := by
  rw [sys_sem_close, wp_bind, proc_curr, wp_read, wp_bind, proc_getusem, wp_read]
  cases hentry : entry (s.pcb s.curr).usems sem_id with
  | none => exact ⟨h, rfl, .refl s _, rfl, rfl⟩
  | some iu =>
    obtain ⟨id, u⟩ := iu
    simp only
    rw [wp_bind, usem_close, modUsemRef, wp_update, wp_bind, setUsem, modProc, wp_update, ret, wp_pure]
    refine ⟨h.closeUsem (entry_eq hentry), rfl, ⟨fun q hq => ?_, fun _ => rfl, rfl⟩, ?_, ?_⟩
    · simp only [Function.update_of_ne hq]
    · simp only [Function.update_self]
    · simp only [Function.update_self]

/-! ### A child gets what its parent has -/

/-- An entry of process `p` is set to a semaphore in use. -/
theorem Kernel.Tables.dupUsem {id : Fin MAX_USEM} {u : UsemPtr} (h : s.Tables)
    (hid : (s.pcb p).usems id = none) :
    { s with
      user_sem := Function.update s.user_sem u
        { s.user_sem u with ref := (s.user_sem u).ref + 1 }
      pcb := Function.update s.pcb p
        { s.pcb p with usems := Function.update (s.pcb p).usems id (some u) } }.Tables := by
  refine h.setUsem (fun v => ?_) rfl
  rw [ref_update (n := 1) rfl, hid]
  simp only [Option.some.injEq, reduceCtorEq, if_false, sub_zero]

/-- The child `p` of `c` has the first entries of a table; those in `is` are still to come. -/
structure Copied {n : ℕ} {α : Type} (table : Kernel → ProcPtr → Fin n → Option α) (s : Kernel)
    (c p : ProcPtr) (is : List (Fin n)) (s' : Kernel) : Prop where
  tables : s'.Tables
  only : Only s p s'
  fs : s'.fs = s.fs
  todo : ∀ i ∈ is, table s' p i = none
  done : ∀ i ∉ is, table s' p i = table s c i
  nodup : is.Nodup

theorem Copied.start {n : ℕ} {α : Type} {table : Kernel → ProcPtr → Fin n → Option α} {c : ProcPtr}
    (h : s.Tables) (hp : ∀ i, table s p i = none) :
    Copied table s c p (List.finRange n) s :=
  ⟨h, .refl s p, rfl, fun i _ => hp i, fun i hi => (hi (List.mem_finRange i)).elim,
    List.nodup_finRange n⟩

theorem copyUsems_tables {fail : Abort → Prop} {c : ProcPtr} (hne : c ≠ p) (h : s.Tables)
    (hp : (s.pcb p).usems = fun _ => none) :
    wp (loop (fun i _ => do
        let parent ← getProc c
        match parent.usems i with
        | some u => do
          setUsem p i (some u)
          usem_dup u
        | none => pure ()) (List.finRange MAX_USEM) ())
      (fun _ s' => s'.Tables ∧ Only s p s' ∧ s'.fs = s.fs ∧
        (s'.pcb p).held = ⟨(s.pcb c).usems, (s.pcb p).files, (s.pcb p).cwd⟩) fail s := by
  refine wp_loop (fun is _ s' => Copied (fun s p => (s.pcb p).usems) s c p is s' ∧
    (s'.pcb p).files = (s.pcb p).files ∧ (s'.pcb p).cwd = (s.pcb p).cwd) _ _
    ⟨.start h (congrFun hp), rfl, rfl⟩ ?_ ?_
  · intro i is _ s₁ hs₁
    obtain ⟨⟨htables, honly, hfs, htodo, hdone, hnodup⟩, hfiles, hcwd⟩ := hs₁
    obtain ⟨hi, hnodup⟩ := List.nodup_cons.mp hnodup
    have hsame : (s₁.pcb c).usems = (s.pcb c).usems := congrArg Held.usems (honly.held c hne)
    rw [wp_bind, wp_getProc]
    cases hu : (s₁.pcb c).usems i with
    | none =>
      refine ⟨⟨htables, honly, hfs, fun x hx => htodo x (List.mem_cons_of_mem _ hx),
        fun x hx => ?_, hnodup⟩, hfiles, hcwd⟩
      by_cases hxi : x = i
      · rw [hxi, htodo i List.mem_cons_self, ← hsame, hu]
      · exact hdone x (by simp [hxi, hx])
    | some u =>
      simp only
      rw [wp_bind, setUsem, modProc, wp_update, usem_dup, modUsemRef, wp_update]
      refine ⟨⟨htables.dupUsem (htodo i List.mem_cons_self), ?_, hfs, fun x hx => ?_, fun x hx => ?_,
        hnodup⟩, ?_, ?_⟩
      · refine honly.trans ⟨fun q hq => ?_, fun _ => rfl, rfl⟩
        simp only [Function.update_of_ne hq]
      · have hxi : x ≠ i := fun heq => hi (heq ▸ hx)
        simp only [Function.update_self, Function.update_of_ne hxi]
        exact htodo x (List.mem_cons_of_mem _ hx)
      · simp only [Function.update_self]
        by_cases hxi : x = i
        · rw [hxi, Function.update_self, ← hu, hsame]
        · rw [Function.update_of_ne hxi]
          exact hdone x (by simp [hxi, hx])
      · simp only [Function.update_self]
        exact hfiles
      · simp only [Function.update_self]
        exact hcwd
  · intro _ s' hs'
    obtain ⟨hc, hfiles, hcwd⟩ := hs'
    refine ⟨hc.tables, hc.only, hc.fs, ?_⟩
    ext1
    · funext i
      exact hc.done i (by simp)
    · exact hfiles
    · exact hcwd

theorem copyFiles_tables {fail : Abort → Prop} {c : ProcPtr} (hne : c ≠ p) (h : s.Tables)
    (hp : (s.pcb p).files = fun _ => none) :
    wp (loop (fun i _ => do
        let parent ← getProc c
        match parent.files i with
        | some k => do
          setFd p i (some k)
          let _ ← fdup k
        | none => pure ()) (List.finRange MAX_UFILE) ())
      (fun _ s' => s'.Tables ∧ Only s p s' ∧ s'.fs = s.fs ∧
        (s'.pcb p).held = ⟨(s.pcb p).usems, (s.pcb c).files, (s.pcb p).cwd⟩) fail s := by
  refine wp_loop (fun is _ s' => Copied (fun s p => (s.pcb p).files) s c p is s' ∧
    (s'.pcb p).usems = (s.pcb p).usems ∧ (s'.pcb p).cwd = (s.pcb p).cwd) _ _
    ⟨.start h (congrFun hp), rfl, rfl⟩ ?_ ?_
  · intro i is _ s₁ hs₁
    obtain ⟨⟨htables, honly, hfs, htodo, hdone, hnodup⟩, husems, hcwd⟩ := hs₁
    obtain ⟨hi, hnodup⟩ := List.nodup_cons.mp hnodup
    have hsame : (s₁.pcb c).files = (s.pcb c).files := congrArg Held.files (honly.held c hne)
    rw [wp_bind, wp_getProc]
    cases hk : (s₁.pcb c).files i with
    | none =>
      refine ⟨⟨htables, honly, hfs, fun x hx => htodo x (List.mem_cons_of_mem _ hx),
        fun x hx => ?_, hnodup⟩, husems, hcwd⟩
      by_cases hxi : x = i
      · rw [hxi, htodo i List.mem_cons_self, ← hsame, hk]
      · exact hdone x (by simp [hxi, hx])
    | some k =>
      simp only
      rw [wp_bind, setFd, modProc, wp_update, wp_bind, fdup, wp_bind, modFile, wp_update, wp_pure,
        wp_pure]
      refine ⟨⟨htables.dupFd (htodo i List.mem_cons_self) (htables.ref_of_fd hk) rfl rfl, ?_, hfs,
        fun x hx => ?_, fun x hx => ?_, hnodup⟩, ?_, ?_⟩
      · refine honly.trans ⟨fun q hq => ?_, fun x => ?_, rfl⟩
        · simp only [Function.update_of_ne hq]
        · by_cases hx : x = k
          · rw [hx]
            simp only [Function.update_self]
          · simp only [Function.update_of_ne hx]
      · have hxi : x ≠ i := fun heq => hi (heq ▸ hx)
        simp only [Function.update_self, Function.update_of_ne hxi]
        exact htodo x (List.mem_cons_of_mem _ hx)
      · simp only [Function.update_self]
        by_cases hxi : x = i
        · rw [hxi, Function.update_self, ← hk, hsame]
        · rw [Function.update_of_ne hxi]
          exact hdone x (by simp [hxi, hx])
      · simp only [Function.update_self]
        exact husems
      · simp only [Function.update_self]
        exact hcwd
  · intro _ s' hs'
    obtain ⟨hc, husems, hcwd⟩ := hs'
    refine ⟨hc.tables, hc.only, hc.fs, ?_⟩
    ext1
    · exact husems
    · funext i
      exact hc.done i (by simp)
    · exact hcwd

/-- A change of a process that is no change of a link. -/
theorem modProc_links {post : Unit → Kernel → Prop} {fail : Abort → Prop} (p : ProcPtr)
    (f : Proc → Proc) (hf : ∀ pr, (f pr).held = pr.held)
    (hpost : ∀ s', s'.links = s.links → s'.curr = s.curr →
      s'.pcb = Function.update s.pcb p (f (s.pcb p)) → post () s') :
    wp (modProc p f) post fail s := by
  rw [modProc, wp_update]
  exact hpost _ (linked_modProc p f hf s () _ rfl) rfl rfl

/-- A process that is not in use refers to nothing. -/
def Kernel.Idle (s : Kernel) : Prop :=
  ∀ p, (s.pcb p).status = .unused ∨ (s.pcb p).status = .zombie → (s.pcb p).held = .nothing

theorem proc_alloc_links (h : s.Idle) :
    wp proc_alloc (fun r s' => s'.links = s.links ∧ s'.curr = s.curr ∧ (r = none → s' = s) ∧
      ∀ p, r = some p → (s.pcb p).status = .unused ∧ (s'.pcb p).held = .nothing)
      (fun e => e = .overflow ∧ INT_MAX ≤ s.next_pid) s := by
  rw [proc_alloc, wp_bind, wp_read]
  cases hfind : (List.finRange PROC_NUM).find? fun i => i ≠ 0 ∧ (s.pcb i).status = .unused with
  | none => exact ⟨rfl, rfl, fun _ => rfl, by simp⟩
  | some p =>
    have hp : p ≠ 0 ∧ (s.pcb p).status = .unused := by simpa using List.find?_some hfind
    simp only
    rw [wp_bind, wp_read, wp_bind, wp_assert]
    refine ⟨fun _ => ?_, fun hbig => ⟨rfl, not_lt.mp hbig⟩⟩
    rw [wp_bind, wp_update, wp_bind, modProc, wp_update, wp_pure]
    have hnothing := h p (Or.inl hp.2)
    refine ⟨?_, rfl, by simp, fun q hq => ?_⟩
    · ext1
      · rfl
      · rfl
      · rfl
      · funext q
        simp only [Kernel.links]
        by_cases hq : q = p
        · rw [hq, Function.update_self, hnothing]
          rfl
        · rw [Function.update_of_ne hq]
    · cases hq
      simp only [Function.update_self]
      exact ⟨hp.2, rfl⟩

/-- What `sys_fork` returns and does. -/
def SysFork (s : Kernel) (c : InodePtr) (o : Outcome) (s' : Kernel) : Prop :=
  (o = .done (.int (-1)) ∧ s' = s) ∨
    ∃ p, p ≠ s.curr ∧ (s.pcb p).status = .unused ∧ Only s p s' ∧
      (s'.pcb p).held = (s.pcb s.curr).held ∧ (s'.pcb p).status = .ready ∧
      Effects s.fs.state [.opened c (s.fs.inodes c).no] s'.fs.state

theorem sys_fork_tables {c : InodePtr} (h : s.Tables) (hidle : s.Idle)
    (hrun : (s.pcb s.curr).status = .running) (hc : (s.pcb s.curr).cwd = some c) :
    wp sys_fork (fun o s' => s'.Tables ∧ SysFork s c o s')
      (fun e => e = .overflow ∧ INT_MAX ≤ s.next_pid) s := by
  rw [sys_fork, wp_bind]
  refine (proc_alloc_links hidle).imp ?_
  intro r s₁ hs₁
  obtain ⟨hlinks, hcurr, hnone, hr⟩ := hs₁
  have htables := h.congr hlinks
  cases r with
  | none => exact ⟨htables, Or.inl ⟨rfl, hnone rfl⟩⟩
  | some p =>
    obtain ⟨hunused, hnothing⟩ := hr p rfl
    have hne : p ≠ s.curr := by
      rintro rfl
      rw [hrun] at hunused
      cases hunused
    have hne₁ : s₁.curr ≠ p := fun heq => hne (heq.symm.trans hcurr)
    have hfs : s₁.fs = s.fs := congrArg Links.fs hlinks
    have hheld (q : ProcPtr) : (s₁.pcb q).held = (s.pcb q).held :=
      congrFun (congrArg Links.held hlinks) q
    have honly₁ : Only s p s₁ := ⟨fun q _ => hheld q, .of_links hlinks, hcurr⟩
    simp only
    rw [wp_bind, proc_copycurr, wp_bind, proc_curr, wp_read, wp_bind]
    -- the number of children and the parent are no links
    refine modProc_links s₁.curr _ (fun _ => rfl) fun s₂ hlinks₂ hcurr₂ _ => ?_
    rw [wp_bind]
    refine modProc_links p _ (fun _ => rfl) fun s₃ hlinks₃ hcurr₃ _ => ?_
    have hlinks₃₁ : s₃.links = s₁.links := hlinks₃.trans hlinks₂
    have htables₃ := htables.congr hlinks₃₁
    have hfs₃ : s₃.fs = s.fs := (congrArg Links.fs hlinks₃₁).trans hfs
    have hheld₃ (q : ProcPtr) : (s₃.pcb q).held = (s₁.pcb q).held :=
      congrFun (congrArg Links.held hlinks₃₁) q
    have hcwd₃ : (s₃.pcb s₁.curr).cwd = some c := by
      rw [show (s₃.pcb s₁.curr).cwd = (s.pcb s₁.curr).cwd from
        congrArg Held.cwd ((hheld₃ _).trans (hheld _)), hcurr]
      exact hc
    rw [wp_bind, wp_getProc, hcwd₃, wp_bind, deref, wp_pure, wp_bind, wp_inFs, hfs₃]
    refine (idup_effects h.fs (h.ref_of_cwd hc) rfl).imp ?_
    intro j fs hj
    obtain ⟨hj, hok, heff⟩ := hj
    rw [hj, wp_bind, modProc, wp_update, wp_bind]
    have hdir : (fs.objOf c).type = TYPE_DIR := by
      have href := h.ref_of_cwd hc
      have href' : 0 < (fs.inodes c).ref := by
        have hsum := Effects.ref_eq heff c
        simp only [List.map_singleton, List.sum_singleton, FsEvent.refs, if_true] at hsum
        change (fs.inodes c).ref = (s.fs.inodes c).ref + 1 at hsum
        omega
      obtain ⟨hno, htype⟩ := Effects.slot_eq heff (Kernel.Tables.Tidy.opens (by simp [FsEvent.closes]))
        h.fs.holds.2 href href'
      rw [Fs.objOf, show (fs.inodes c).no = (s.fs.inodes c).no from hno, ← h.cwd _ c hc]
      exact htype (h.type_ne_none href)
    obtain ⟨s₄, hs₄⟩ : ∃ s₄ : Kernel, s₄ = { s₃ with
        fs := fs
        pcb := Function.update s₃.pcb p { s₃.pcb p with cwd := some c } } := ⟨_, rfl⟩
    rw [← hs₄]
    have hnothing₃ : (s₃.pcb p).held = .nothing := (hheld₃ p).trans hnothing
    have htables₄ : s₄.Tables := by
      rw [hs₄]
      refine htables₃.setCwd (v := some c) hok (hfs₃ ▸ heff)
        (Kernel.Tables.Tidy.opens (by simp [FsEvent.closes])) (fun i => ?_) (fun i hi => ?_) rfl
      · rw [show (s₃.pcb p).cwd = none from congrArg Held.cwd hnothing₃]
        simp only [List.map_singleton, List.sum_singleton, FsEvent.refs, Option.some.injEq, reduceCtorEq,
          if_false, sub_zero]
      · cases hi
        exact hdir
    have hheld₄ : (s₄.pcb p).held = ⟨fun _ => none, fun _ => none, some c⟩ := by
      rw [hs₄]
      simp only [Function.update_self]
      ext1
      · exact (congrArg Held.usems hnothing₃ :)
      · exact (congrArg Held.files hnothing₃ :)
      · rfl
    have honly₄ : Only s p s₄ := by
      refine honly₁.trans ⟨fun q hq => ?_, fun k => ?_, ?_⟩
      · rw [hs₄]
        simp only [Function.update_of_ne hq]
        exact hheld₃ q
      · rw [hs₄]
        exact SameFiles.of_links hlinks₃₁ k
      · rw [hs₄]
        exact hcurr₃.trans hcurr₂
    refine (copyUsems_tables hne₁ htables₄ (congrArg Held.usems hheld₄)).imp ?_
    intro _ s₅ hs₅
    obtain ⟨htables₅, honly₅, hfs₅, hheld₅⟩ := hs₅
    have hfiles₅ : (s₅.pcb p).files = fun _ => none :=
      (congrArg Held.files hheld₅).trans (congrArg Held.files hheld₄)
    refine (copyFiles_tables hne₁ htables₅ hfiles₅).imp ?_
    intro _ s₆ hs₆
    obtain ⟨htables₆, honly₆, hfs₆, hheld₆⟩ := hs₆
    rw [wp_bind, proc_addready]
    refine modProc_links p _ (fun _ => rfl) fun s₇ hlinks₇ hcurr₇ hpcb₇ => ?_
    rw [wp_bind, wp_getProc, ret, wp_pure]
    have hheld₇ (q : ProcPtr) : (s₇.pcb q).held = (s₆.pcb q).held :=
      congrFun (congrArg Links.held hlinks₇) q
    have hfs₇ : s₇.fs = fs := by
      rw [show s₇.fs = s₆.fs from congrArg Links.fs hlinks₇, hfs₆, hfs₅, hs₄]
    have honly₅' := honly₄.trans honly₅
    refine ⟨htables₆.congr hlinks₇, Or.inr ⟨p, hne, hunused, ?_, ?_, ?_, hfs₇ ▸ heff⟩⟩
    · exact (honly₅'.trans honly₆).trans ⟨fun q _ => hheld₇ q, .of_links hlinks₇, hcurr₇⟩
    · rw [hheld₇, hheld₆]
      have hcurr₅ : (s₅.pcb s₁.curr).held = (s.pcb s.curr).held := by
        rw [honly₅'.held _ hne₁, hcurr]
      have hcurr₄ : (s₄.pcb s₁.curr).held = (s.pcb s.curr).held := by
        rw [honly₄.held _ hne₁, hcurr]
      ext1
      · have husems₅ : (s₅.pcb p).usems = (s₄.pcb s₁.curr).usems := congrArg Held.usems hheld₅
        have husems₄ : (s₄.pcb s₁.curr).usems = (s.pcb s.curr).usems := congrArg Held.usems hcurr₄
        exact husems₅.trans husems₄
      · have hfiles : (s₅.pcb s₁.curr).files = (s.pcb s.curr).files := congrArg Held.files hcurr₅
        exact hfiles
      · have hcwd₅ : (s₅.pcb p).cwd = (s₄.pcb p).cwd := congrArg Held.cwd hheld₅
        have hcwd₄ : (s₄.pcb p).cwd = some c := congrArg Held.cwd hheld₄
        exact (hcwd₅.trans hcwd₄).trans hc.symm
    · rw [hpcb₇, Function.update_self]

/-! ### A process that exits drops what it has -/

theorem closeUsems_tables {fail : Abort → Prop} (h : s.Tables) :
    wp (loop (fun i _ => do
        let proc ← getProc p
        match proc.usems i with
        | some u => do
          usem_close u
          setUsem p i none
        | none => pure ()) (List.finRange MAX_USEM) ())
      (fun _ s' => s'.Tables ∧ Only s p s' ∧ s'.fs = s.fs ∧
        (s'.pcb p).held = ⟨fun _ => none, (s.pcb p).files, (s.pcb p).cwd⟩) fail s := by
  refine wp_loop (fun is _ s' => s'.Tables ∧ Only s p s' ∧ s'.fs = s.fs ∧
    (∀ i ∉ is, (s'.pcb p).usems i = none) ∧ (s'.pcb p).files = (s.pcb p).files ∧
    (s'.pcb p).cwd = (s.pcb p).cwd) _ _ ⟨h, .refl s p, rfl, fun i hi => (hi (List.mem_finRange i)).elim,
      rfl, rfl⟩ ?_ ?_
  · intro i is _ s₁ hs₁
    obtain ⟨htables, honly, hfs, hdone, hfiles, hcwd⟩ := hs₁
    rw [wp_bind, wp_getProc]
    cases hu : (s₁.pcb p).usems i with
    | none =>
      refine ⟨htables, honly, hfs, fun x hx => ?_, hfiles, hcwd⟩
      by_cases hxi : x = i
      · rw [hxi, hu]
      · exact hdone x (by simp [hxi, hx])
    | some u =>
      simp only
      rw [wp_bind, usem_close, modUsemRef, wp_update, setUsem, modProc, wp_update]
      refine ⟨htables.closeUsem hu, ?_, hfs, fun x hx => ?_, ?_, ?_⟩
      · refine honly.trans ⟨fun q hq => ?_, fun _ => rfl, rfl⟩
        simp only [Function.update_of_ne hq]
      · simp only [Function.update_self]
        by_cases hxi : x = i
        · rw [hxi, Function.update_self]
        · rw [Function.update_of_ne hxi]
          exact hdone x (by simp [hxi, hx])
      · simp only [Function.update_self]
        exact hfiles
      · simp only [Function.update_self]
        exact hcwd
  · intro _ s' hs'
    obtain ⟨htables, honly, hfs, hdone, hfiles, hcwd⟩ := hs'
    refine ⟨htables, honly, hfs, ?_⟩
    ext1
    · funext i
      exact hdone i (by simp)
    · exact hfiles
    · exact hcwd

/-- Slots lose references. -/
def Closes (evs : List FsEvent) : Prop := ∀ ev ∈ evs, ∃ j no, ev = .closed j no

theorem Closes.nil : Closes [] := by
  intro ev hev
  cases hev

theorem Closes.append {evs evs' : List FsEvent} (h : Closes evs) (h' : Closes evs') :
    Closes (evs ++ evs') := by
  intro ev hev
  exact (List.mem_append.mp hev).elim (h ev) (h' ev)

theorem closings_closes (f : File) (fs : Fs) : Closes (closings f fs) := by
  intro ev hev
  unfold closings at hev
  split at hev
  · rw [Option.mem_toList, Option.map_eq_some_iff] at hev
    obtain ⟨j, -, rfl⟩ := hev
    exact ⟨j, _, rfl⟩
  · cases hev

theorem closeFiles_tables {fail : Abort → Prop} (h : s.Tables) :
    wp (loop (fun i _ => do
        let proc ← getProc p
        match proc.files i with
        | some k => do
          fclose k
          setFd p i none
        | none => pure ()) (List.finRange MAX_UFILE) ())
      (fun _ s' => s'.Tables ∧ Only s p s' ∧
        (∃ evs, Effects s.fs.state evs s'.fs.state ∧ Closes evs) ∧
        (s'.pcb p).held = ⟨(s.pcb p).usems, fun _ => none, (s.pcb p).cwd⟩) fail s := by
  -- all descriptors but those in `is` have been closed
  refine wp_loop (fun is _ s' => s'.Tables ∧ Only s p s' ∧
    (∃ evs, Effects s.fs.state evs s'.fs.state ∧ Closes evs) ∧
    (∀ i ∉ is, (s'.pcb p).files i = none) ∧ (s'.pcb p).usems = (s.pcb p).usems ∧
    (s'.pcb p).cwd = (s.pcb p).cwd) _ _ ⟨h, .refl s p, ⟨[], Lts.Run.refl _, .nil⟩,
      fun i hi => (hi (List.mem_finRange i)).elim, rfl, rfl⟩ ?_ ?_
  · intro i is _ s₁ hs₁
    obtain ⟨htables, honly, ⟨evs, heff, hevs⟩, hdone, husems, hcwd⟩ := hs₁
    rw [wp_bind, wp_getProc]
    cases hk : (s₁.pcb p).files i with
    | none =>
      refine ⟨htables, honly, ⟨evs, heff, hevs⟩, fun x hx => ?_, husems, hcwd⟩
      by_cases hxi : x = i
      · rw [hxi, hk]
      · exact hdone x (by simp [hxi, hx])
    | some k =>
      simp only
      obtain ⟨hdir, hlive⟩ := htables.file_type (htables.ref_of_fd hk)
      rw [wp_bind]
      refine (fclose_spec htables.fs hdir fun _ => hlive).imp ?_
      intro _ s₂ hs₂
      obtain ⟨fs, hok, heff₂, rfl⟩ := hs₂
      rw [setFd, modProc, wp_update]
      refine ⟨htables.dropFd hk hok heff₂ closes_closings refs_closings rfl rfl, ?_,
        ⟨_, heff.trans heff₂, hevs.append (closings_closes _ _)⟩, fun x hx => ?_, ?_, ?_⟩
      · refine honly.trans ⟨fun q hq => ?_, fun x => ?_, rfl⟩
        · simp only [Function.update_of_ne hq]
        · by_cases hx : x = k
          · rw [hx]
            simp only [Function.update_self]
          · simp only [Function.update_of_ne hx]
      · simp only [Function.update_self]
        by_cases hxi : x = i
        · rw [hxi, Function.update_self]
        · rw [Function.update_of_ne hxi]
          exact hdone x (by simp [hxi, hx])
      · simp only [Function.update_self]
        exact husems
      · simp only [Function.update_self]
        exact hcwd
  · intro _ s' hs'
    obtain ⟨htables, honly, heff, hdone, husems, hcwd⟩ := hs'
    refine ⟨htables, honly, heff, ?_⟩
    ext1
    · exact husems
    · funext i
      exact hdone i (by simp)
    · exact hcwd

/-- The state after the working directory of process `p` has been given back. -/
theorem Kernel.Tables.dropCwd {c : InodePtr} {fs : Fs} (h : s.Tables) (hc : (s.pcb p).cwd = some c)
    (hok : fs.Ok) (heff : Effects s.fs.state [.closed c (s.fs.inodes c).no] fs.state) :
    { s with
      fs := fs
      pcb := Function.update s.pcb p { s.pcb p with cwd := none } }.Tables := by
  refine h.setCwd (v := none) hok heff (Kernel.Tables.Tidy.closes (by simp [FsEvent.opens]))
    (fun i => ?_) (fun i hi => by cases hi) rfl
  rw [hc]
  simp only [List.map_singleton, List.sum_singleton, FsEvent.refs, Option.some.injEq, reduceCtorEq,
    if_false, zero_sub]
  split <;> rfl

theorem sem_v_links {fail : Abort → Prop} (sp : SemPtr) :
    wp (sem_v sp) (fun _ s' => s'.links = s.links ∧ s'.curr = s.curr) fail s := by
  refine (((linked_sem_v sp).wp s).and (sem_v_spec (F := fail) (s := s) sp)).mono ?_
    fun _ he => he.2
  intro _ s' hs'
  refine ⟨hs'.1, ?_⟩
  have hcore : s'.curr = s'.core.curr := rfl
  rw [hcore, hs'.2, Core.give_curr]
  rfl

theorem Only.of_links (h : s'.links = s.links) (hcurr : s'.curr = s.curr) : Only s p s' :=
  ⟨fun q _ => congrFun (congrArg Links.held h) q, .of_links h, hcurr⟩

/-- Children without a parent refer to what they did. -/
theorem orphan_links :
    { s with pcb := fun i => if (s.pcb i).parent = some p then { s.pcb i with parent := none }
      else s.pcb i }.links = s.links := by
  ext1
  · rfl
  · rfl
  · rfl
  · funext q
    simp only [Kernel.links]
    split
    · rfl
    · rfl

/-- What `proc_makezombie` does when the parent has been told. -/
theorem closeAll_tables {F : Abort → Prop} {c : InodePtr} (h : s.Tables)
    (hc : (s.pcb p).cwd = some c) :
    wp (do
        loop (fun i _ => do
          let proc ← getProc p
          match proc.usems i with
          | some u => do
            usem_close u
            setUsem p i none
          | none => pure ()) (List.finRange MAX_USEM) ()
        loop (fun i _ => do
          let proc ← getProc p
          match proc.files i with
          | some k => do
            fclose k
            setFd p i none
          | none => pure ()) (List.finRange MAX_UFILE) ()
        let proc ← getProc p
        let cwd ← deref proc.cwd
        inFs (iclose cwd)
        modProc p fun pr => { pr with cwd := none })
      (fun _ s' => s'.Tables ∧ Only s p s' ∧ (s'.pcb p).held = .nothing ∧
        ∃ evs, Effects s.fs.state evs s'.fs.state ∧ Closes evs) F s := by
  rw [wp_bind]
  refine (closeUsems_tables h).imp ?_
  intro _ s₁ hs₁
  obtain ⟨htables₁, honly₁, hfs₁, hheld₁⟩ := hs₁
  rw [wp_bind]
  refine (closeFiles_tables htables₁).imp ?_
  intro _ s₂ hs₂
  obtain ⟨htables₂, honly₂, ⟨evs, heff, hevs⟩, hheld₂⟩ := hs₂
  have husems₁ : (s₁.pcb p).usems = fun _ => none := congrArg Held.usems hheld₁
  have hcwd₁ : (s₁.pcb p).cwd = (s.pcb p).cwd := congrArg Held.cwd hheld₁
  have husems₂ : (s₂.pcb p).usems = (s₁.pcb p).usems := congrArg Held.usems hheld₂
  have hfiles₂ : (s₂.pcb p).files = fun _ => none := congrArg Held.files hheld₂
  have hcwd₂ : (s₂.pcb p).cwd = (s₁.pcb p).cwd := congrArg Held.cwd hheld₂
  have hc₂ : (s₂.pcb p).cwd = some c := hcwd₂.trans (hcwd₁.trans hc)
  rw [wp_bind, wp_getProc, wp_bind, hc₂, deref, wp_pure, wp_bind, wp_inFs]
  refine (iclose_effects htables₂.fs (htables₂.ref_of_cwd hc₂) rfl).imp ?_
  intro _ fs hfs
  obtain ⟨hok, heff'⟩ := hfs
  rw [modProc, wp_update]
  -- the working directory was the last that the process held
  refine ⟨htables₂.dropCwd hc₂ hok heff', ?_, ?_, evs ++ [.closed c (s₂.fs.inodes c).no], ?_, ?_⟩
  · refine (honly₁.trans honly₂).trans ⟨fun q hq => ?_, fun _ => rfl, rfl⟩
    simp only [Function.update_of_ne hq]
  · simp only [Function.update_self]
    ext1
    · exact husems₂.trans husems₁
    · exact hfiles₂
    · rfl
  · rw [hfs₁] at heff
    exact heff.trans heff'
  · apply hevs.append
    intro ev hev
    rw [List.mem_singleton] at hev
    exact ⟨c, _, hev⟩

theorem sys_exit_tables {fail : Abort → Prop} {c : InodePtr} (h : s.Tables)
    (hc : (s.pcb s.curr).cwd = some c) (status : ℤ) :
    wp (sys_exit status) (fun _ s' => s'.Tables ∧ Only s s.curr s' ∧
      (s'.pcb s.curr).held = .nothing ∧ ∃ evs, Effects s.fs.state evs s'.fs.state ∧ Closes evs)
      fail s := by
  rw [sys_exit, wp_bind, proc_curr, wp_read, wp_bind, proc_makezombie, wp_bind]
  refine modProc_links s.curr _ (fun _ => rfl) fun s₁ hlinks₁ hcurr₁ _ => ?_
  rw [wp_bind, wp_update, wp_bind, wp_getProc]
  -- the entries are closed after the parent, if there is one, has been told
  obtain ⟨s₂, hs₂⟩ : ∃ s₂ : Kernel, s₂ = { s₁ with
      pcb := fun i =>
        if (s₁.pcb i).parent = some s.curr then { s₁.pcb i with parent := none } else s₁.pcb i } :=
    ⟨_, rfl⟩
  rw [← hs₂]
  have hlinks₂ : s₂.links = s.links := by
    rw [hs₂]
    exact orphan_links.trans hlinks₁
  have hcurr₂ : s₂.curr = s.curr := by
    rw [hs₂]
    exact hcurr₁
  have hclose (t : Kernel) (hlinks : t.links = s.links) (hcurr : t.curr = s.curr) :=
    closeAll_tables (F := fail) (h.congr hlinks)
      ((congrArg Held.cwd (congrFun (congrArg Links.held hlinks) s.curr)).trans hc)
  have hpost (t t' : Kernel) (hlinks : t.links = s.links) (hcurr : t.curr = s.curr)
      (ht' : t'.Tables ∧ Only t s.curr t' ∧ (t'.pcb s.curr).held = .nothing ∧
        ∃ evs, Effects t.fs.state evs t'.fs.state ∧ Closes evs) :
      t'.Tables ∧ Only s s.curr t' ∧ (t'.pcb s.curr).held = .nothing ∧
        ∃ evs, Effects s.fs.state evs t'.fs.state ∧ Closes evs := by
    obtain ⟨htables, honly, hheld, heff⟩ := ht'
    rw [show t.fs = s.fs from congrArg Links.fs hlinks] at heff
    exact ⟨htables, (Only.of_links hlinks hcurr).trans honly, hheld, heff⟩
  cases (s₂.pcb s.curr).parent with
  | none =>
    simp only
    refine (hclose s₂ hlinks₂ hcurr₂).imp ?_
    intro _ s' hs'
    exact hpost _ _ hlinks₂ hcurr₂ hs'
  | some parent =>
    simp only
    rw [wp_bind]
    refine (sem_v_links (.zombie parent)).imp ?_
    intro _ s₃ hs₃
    have hlinks₃ := hs₃.1.trans hlinks₂
    have hcurr₃ := hs₃.2.trans hcurr₂
    refine (hclose s₃ hlinks₃ hcurr₃).imp ?_
    intro _ s' hs'
    exact hpost _ _ hlinks₃ hcurr₃ hs'

end Oslab
