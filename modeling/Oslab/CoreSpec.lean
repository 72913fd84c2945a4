/-
# System calls on processes and semaphores

Each system call is a short run of events of processes and semaphores. Those that
deal with files are none; the others are the events their names say.
-/
import Oslab.Family
import Oslab.Machine

namespace Oslab

open Lib Lib.Prog

variable {s s' : Kernel} {sp : SemPtr} {p : ProcPtr} {k : FilePtr} {α : Type}

/-! ### What leaves processes and semaphores alone -/

theorem wp_inFs {m : FsM α} {post : α → Kernel → Prop} {F : Abort → Prop} :
    wp (inFs m) post F s ↔ wp m (fun a fs => post a { s with fs := fs }) F s.fs :=
  wp_zoom _ _

theorem wp_getProc {post : Proc → Kernel → Prop} {F : Abort → Prop} :
    wp (getProc p) post F s ↔ post (s.pcb p) s := Iff.rfl

theorem keeps_inFs (m : FsM α) : Keeps Kernel.core (inFs m) := Keeps.zoom fun _ _ => rfl

theorem keeps_modFile (k : FilePtr) (f : File → File) : Keeps Kernel.core (modFile k f) :=
  Keeps.update fun _ => rfl

theorem keeps_deref {β : Type} (a : Option β) : Keeps Kernel.core (deref a) := by
  cases a with
  | none => exact Keeps.abort _
  | some a => exact Keeps.pure a

theorem keeps_kopen (path : List UInt8) (type : UInt32) :
    Keeps Kernel.core (kopen path type) :=
  Keeps.read.bind fun _ => Keeps.read.bind fun _ => keeps_inFs _

theorem keeps_fclose (k : FilePtr) : Keeps Kernel.core (fclose k) := by
  refine (keeps_modFile _ _).bind fun _ => Keeps.read.bind fun file => Keeps.ite ?_ (Keeps.pure _)
  exact (keeps_deref _).bind fun _ => keeps_inFs _

theorem keeps_falloc : Keeps Kernel.core falloc := by
  refine Keeps.read.bind fun files => ?_
  split
  · exact (keeps_modFile _ _).bind fun _ => Keeps.pure _
  · exact Keeps.pure _

theorem keeps_fopen (path : List UInt8) (mode : ℕ) : Keeps Kernel.core (fopen path mode) := by
  refine keeps_falloc.bind fun fp => ?_
  cases fp with
  | none => exact Keeps.pure _
  | some fp =>
    refine (keeps_kopen _ _).bind fun ip => ?_
    cases ip with
    | none => exact (keeps_fclose _).bind fun _ => Keeps.pure _
    | some ip =>
      refine (keeps_inFs _).bind fun type => Keeps.ite ?_ (Keeps.ite ?_ (Keeps.abort _))
      · refine Keeps.ite ?_ ?_
        · exact (keeps_fclose _).bind fun _ => (keeps_inFs _).bind fun _ => Keeps.pure _
        · refine Keeps.ite ((keeps_inFs _).bind fun _ => ?_) ?_ <;>
            exact (keeps_modFile _ _).bind fun _ => (keeps_modFile _ _).bind fun _ => Keeps.pure _
      · exact (keeps_inFs _).bind fun _ => (keeps_modFile _ _).bind fun _ =>
          (keeps_inFs _).bind fun _ => (keeps_modFile _ _).bind fun _ => Keeps.pure _

theorem keeps_fdup (k : FilePtr) : Keeps Kernel.core (fdup k) :=
  (keeps_modFile _ _).bind fun _ => Keeps.pure _

theorem keeps_fseek (k : FilePtr) (off : UInt32) (whence : ℕ) :
    Keeps Kernel.core (fseek k off whence) := by
  refine Keeps.read.bind fun file => Keeps.ite ?_ (Keeps.pure _)
  refine Keeps.ite ?_ (Keeps.ite ?_ (Keeps.ite ?_ ?_))
  · exact (keeps_modFile _ _).bind fun _ => Keeps.read.bind fun _ => Keeps.pure _
  · exact (keeps_modFile _ _).bind fun _ => Keeps.read.bind fun _ => Keeps.pure _
  · exact (keeps_deref _).bind fun _ => (keeps_inFs _).bind fun _ =>
      (keeps_modFile _ _).bind fun _ => Keeps.read.bind fun _ => Keeps.pure _
  · exact Keeps.read.bind fun _ => Keeps.pure _

theorem keeps_load_elf (name : List UInt8) : Keeps Kernel.core (load_elf name) := by
  refine (keeps_kopen _ _).bind fun inode => ?_
  cases inode with
  | none => exact Keeps.pure _
  | some inode =>
    refine Keeps.read.bind fun junk => (keeps_inFs _).bind fun bs => Keeps.ite ?_ ?_
    · exact (keeps_inFs _).bind fun _ => Keeps.pure _
    · refine (Keeps.loop (fun i ph => ?_) _ _).bind fun _ =>
        (keeps_inFs _).bind fun _ => Keeps.pure _
      refine (keeps_inFs _).bind fun bs => Keeps.ite ?_ (Keeps.pure _)
      exact (keeps_inFs _).bind fun _ => Keeps.pure _

/-! ### One change of a process or a semaphore -/

theorem modProc_spec {F : Abort → Prop} (f : Proc → Proc) (g : Thread → Thread)
    (hf : ∀ pr, (f pr).thread = g pr.thread) (hz : ∀ pr, (f pr).zombie_sem = pr.zombie_sem) :
    wp (modProc p f) (fun _ s' => s'.core = s.core.mod p g) F s := by
  rw [modProc, wp_update]
  ext1
  · funext q
    by_cases hq : q = p
    · subst hq
      simp only [Kernel.core, Core.mod, Function.update_self, hf]
    · simp only [Kernel.core, Core.mod, Function.update_of_ne hq]
  · funext sp
    cases sp with
    | zombie q =>
      by_cases hq : q = p
      · subst hq
        simp only [Kernel.core, Core.mod, Kernel.sem, Function.update_self, hz]
      · simp only [Kernel.core, Core.mod, Kernel.sem, Function.update_of_ne hq]
    | user u => rfl
    | serial => rfl
  all_goals rfl

/-- Files and working directories are no part of a thread. -/
theorem keeps_modProc (p : ProcPtr) (f : Proc → Proc) (hf : ∀ pr, (f pr).thread = pr.thread)
    (hz : ∀ pr, (f pr).zombie_sem = pr.zombie_sem) : Keeps Kernel.core (modProc p f) := by
  refine Keeps.of_wp fun s => (modProc_spec f id hf hz).imp fun _ s' hs' => ?_
  rw [hs']
  simp only [Core.mod, id, Function.update_eq_self]

theorem keeps_setFd (p : ProcPtr) (fd : Fin MAX_UFILE) (k : Option FilePtr) :
    Keeps Kernel.core (setFd p fd k) := keeps_modProc p _ (fun _ => rfl) fun _ => rfl

theorem keeps_setCwd (p : ProcPtr) (cwd : Option InodePtr) :
    Keeps Kernel.core (modProc p fun pr => { pr with cwd := cwd }) :=
  keeps_modProc p _ (fun _ => rfl) fun _ => rfl

theorem setSem_spec {F : Abort → Prop} (sp : SemPtr) (sem : Sem) :
    wp (setSem sp sem) (fun _ s' => s'.core = s.core.setSem sp sem) F s := by
  rw [setSem, wp_update]
  cases sp with
  | zombie q =>
    ext1
    · funext r
      by_cases hr : r = q
      · subst hr
        simp only [Kernel.core, Core.setSem, Function.update_self]
        rfl
      · simp only [Kernel.core, Core.setSem, Function.update_of_ne hr]
    · funext sp
      by_cases hsp : sp = .zombie q
      · subst hsp
        simp only [Kernel.core, Core.setSem, Kernel.sem, Function.update_self]
      · simp only [Core.setSem, Function.update_of_ne hsp]
        cases sp with
        | zombie r =>
          have hr : r ≠ q := fun heq => hsp (heq ▸ rfl)
          simp only [Kernel.core, Kernel.sem, Function.update_of_ne hr]
        | user u => rfl
        | serial => rfl
    all_goals rfl
  | user u =>
    ext1
    · rfl
    · funext sp
      by_cases hsp : sp = .user u
      · subst hsp
        simp only [Kernel.core, Core.setSem, Kernel.sem, Function.update_self]
      · simp only [Core.setSem, Function.update_of_ne hsp]
        cases sp with
        | zombie r => rfl
        | user v =>
          have hv : v ≠ u := fun heq => hsp (heq ▸ rfl)
          simp only [Kernel.core, Kernel.sem, Function.update_of_ne hv]
        | serial => rfl
    · funext v
      by_cases hv : v = u
      · subst hv
        simp only [Kernel.core, Core.setSem, Function.update_self]
      · simp only [Kernel.core, Core.setSem, Function.update_of_ne hv]
    all_goals rfl
  | serial =>
    ext1
    · rfl
    · funext sp
      by_cases hsp : sp = .serial
      · subst hsp
        simp only [Kernel.core, Core.setSem, Kernel.sem, Function.update_self]
      · simp only [Core.setSem, Function.update_of_ne hsp]
        cases sp with
        | zombie r => rfl
        | user v => rfl
        | serial => exact (hsp rfl).elim
    all_goals rfl

theorem setStatus_spec {F : Abort → Prop} (p : ProcPtr) (status : Status) :
    wp (modProc p fun pr => { pr with status := status })
      (fun _ s' => s'.core = s.core.mod p ({ · with status := status })) F s :=
  modProc_spec _ _ (fun _ => rfl) fun _ => rfl

theorem proc_addready_spec {F : Abort → Prop} (p : ProcPtr) :
    wp (proc_addready p) (fun _ s' => s'.core = s.core.mod p ({ · with status := .ready })) F s :=
  setStatus_spec p .ready

/-- `sem_v` gives a credit. -/
theorem sem_v_spec {F : Abort → Prop} (sp : SemPtr) :
    wp (sem_v sp) (fun _ s' => s'.core = s.core.give sp) F s := by
  rw [sem_v, wp_bind, wp_read]
  cases hl : (s.sem sp).wait_list with
  | nil =>
    refine (setSem_spec sp _).imp ?_
    rintro - s' hs'
    rw [hs', Core.give]
    simp only [Kernel.core, hl]
  | cons proc rest =>
    simp only
    rw [wp_bind]
    refine (setSem_spec sp _).imp ?_
    rintro - s₁ hs₁
    refine (proc_addready_spec proc).imp ?_
    rintro - s' hs'
    rw [hs', hs₁, Core.give]
    simp only [Kernel.core, hl]

/-- `sem_p` takes a credit, or the caller is at the end of the wait list and blocked. -/
theorem sem_p_spec {F : Abort → Prop} (sp : SemPtr) :
    wp (sem_p sp) (fun blocked s' =>
      (blocked = false ∧ (s.core.sem sp).value ≠ 0 ∧ s'.core = s.core.take sp) ∨
      (blocked = true ∧ (s.core.sem sp).value = 0 ∧
        ∀ k, s'.core.goto k = s.core.block sp k)) F s := by
  rw [sem_p, wp_bind, wp_read, wp_ite]
  refine ⟨fun hv => ?_, fun hv => ?_⟩
  · rw [wp_bind, proc_curr, wp_read, wp_bind]
    refine (setSem_spec sp _).imp ?_
    rintro - s₁ hs₁
    rw [wp_bind]
    refine (setStatus_spec s.curr .blocked).imp ?_
    rintro - s' hs'
    refine Or.inr ⟨rfl, hv, fun k => ?_⟩
    have hcurr : s.core.curr = s.curr := rfl
    rw [hs', hs₁, Core.block, hcurr]
    simp only [Core.goto, Core.mod, Core.setSem, hcurr, Function.update_self, Function.update_idem]
    rfl
  · rw [wp_bind]
    refine (setSem_spec sp _).imp ?_
    rintro - s' hs'
    exact Or.inl ⟨rfl, hv, hs'⟩

/-! ### Semaphores of the user -/

theorem usem_alloc_spec {F : Abort → Prop} (value : ℤ) :
    wp (usem_alloc value) (fun r s' => (r = none ∧ s'.core = s.core) ∨
      ∃ u, r = some u ∧ s.core.usemRef u = 0 ∧
        s'.core = { s.core.setSem (.user u) (sem_init value) with
          usemRef := Function.update s.core.usemRef u 1 }) F s := by
  rw [usem_alloc, wp_bind, wp_read]
  cases hfind : (List.finRange USER_SEM_NUM).find? fun i => (s.user_sem i).ref = 0 with
  | none => exact Or.inl ⟨rfl, rfl⟩
  | some u =>
    have hzero : (s.user_sem u).ref = 0 := by simpa using List.find?_some hfind
    simp only [wp_bind, wp_update, wp_pure]
    refine Or.inr ⟨u, rfl, hzero, ?_⟩
    ext1
    · rfl
    · funext sp
      by_cases hsp : sp = .user u
      · subst hsp
        simp only [Kernel.core, Core.setSem, Kernel.sem, Function.update_self]
      · simp only [Core.setSem, Function.update_of_ne hsp]
        cases sp with
        | zombie r => rfl
        | user v =>
          have hv : v ≠ u := fun heq => hsp (heq ▸ rfl)
          simp only [Kernel.core, Kernel.sem, Function.update_of_ne hv]
        | serial => rfl
    · funext v
      by_cases hv : v = u
      · subst hv
        simp only [Kernel.core, Function.update_self]
      · simp only [Kernel.core, Function.update_of_ne hv]
    all_goals rfl

theorem modUsemRef_spec {F : Abort → Prop} (u : UsemPtr) (f : ℤ → ℤ) :
    wp (modUsemRef u f) (fun _ s' => s'.core = { s.core with
      usemRef := Function.update s.core.usemRef u (f (s.core.usemRef u)) }) F s := by
  rw [modUsemRef, wp_update]
  ext1
  · rfl
  · funext sp
    cases sp with
    | zombie r => rfl
    | user v =>
      by_cases hv : v = u
      · subst hv
        simp only [Kernel.core, Kernel.sem, Function.update_self]
      · simp only [Kernel.core, Kernel.sem, Function.update_of_ne hv]
    | serial => rfl
  · funext v
    by_cases hv : v = u
    · subst hv
      simp only [Kernel.core, Function.update_self]
    · simp only [Kernel.core, Function.update_of_ne hv]
  all_goals rfl

theorem setUsem_spec {F : Abort → Prop} (p : ProcPtr) (id : Fin MAX_USEM) (u : Option UsemPtr) :
    wp (setUsem p id u) (fun _ s' => s'.core = s.core.mod p
      fun t => { t with usems := Function.update t.usems id u }) F s :=
  modProc_spec _ _ (fun _ => rfl) fun _ => rfl

/-! ### Fork -/

theorem proc_alloc_spec :
    wp proc_alloc (fun r s' => (r = none ∧ s'.core = s.core) ∨
      ∃ p, r = some p ∧ p ≠ 0 ∧ (s.core.thread p).status = .unused ∧ s.core.next_pid < INT_MAX ∧
        s'.core = { s.core with
          thread := Function.update s.core.thread p { s.core.thread p with
            pid := s.core.next_pid
            status := .uninit
            kont := .user
            parent := none
            child_num := 0
            usems := fun _ => none }
          sem := Function.update s.core.sem (.zombie p) (sem_init 0)
          next_pid := s.core.next_pid + 1 }) (fun _ => True) s := by
  rw [proc_alloc, wp_bind, wp_read]
  cases hfind : (List.finRange PROC_NUM).find? fun i => i ≠ 0 ∧ (s.pcb i).status = .unused with
  | none => exact Or.inl ⟨rfl, rfl⟩
  | some p =>
    have hp : p ≠ 0 ∧ (s.pcb p).status = .unused := by simpa using List.find?_some hfind
    simp only [wp_bind, wp_read, wp_assert, wp_update, modProc, wp_pure]
    refine ⟨fun hlt => Or.inr ⟨p, rfl, hp.1, hp.2, hlt, ?_⟩, fun _ => trivial⟩
    ext1
    · funext q
      by_cases hq : q = p
      · subst hq
        simp only [Kernel.core, Function.update_self]
        rfl
      · simp only [Kernel.core, Function.update_of_ne hq]
    · funext sp
      by_cases hsp : sp = .zombie p
      · subst hsp
        simp only [Kernel.core, Kernel.sem, Function.update_self]
      · simp only [Function.update_of_ne hsp]
        cases sp with
        | zombie r =>
          have hr : r ≠ p := fun heq => hsp (heq ▸ rfl)
          simp only [Kernel.core, Kernel.sem, Function.update_of_ne hr]
        | user v => rfl
        | serial => rfl
    all_goals rfl

/-- The loop of `proc_copycurr` over the semaphores. -/
theorem copyUsems_spec {F : Abort → Prop} {curr : ProcPtr} (hne : curr ≠ p)
    (hnone : (s.core.thread p).usems = fun _ => none) :
    wp (loop (fun i _ => do
        let parent ← getProc curr
        match parent.usems i with
        | some u => do
          setUsem p i (some u)
          usem_dup u
        | none => pure ()) (List.finRange MAX_USEM) ())
      (fun _ s' => s'.core = { s.core.mod p
          ({ · with usems := (s.core.thread curr).usems }) with
        usemRef := fun u => s.core.usemRef u + refs (s.core.thread curr).usems u }) F s := by
  set f := (s.core.thread curr).usems with hf
  set c := s.core with hc
  -- the semaphores that are still to be copied are `as`
  refine wp_loop (fun as _ s' => as.Nodup ∧ s'.core =
    { c.mod p ({ · with usems := without f as }) with
      usemRef := fun u => c.usemRef u + refs (without f as) u }) _ _ ?_ ?_ ?_
  · refine ⟨List.nodup_finRange _, ?_⟩
    have hall : without f (List.finRange MAX_USEM) = fun _ => none :=
      without_all f (List.mem_finRange ·)
    have hself : ({ c.thread p with usems := fun _ => none } : Thread) = c.thread p := by
      rw [← hnone]
    rw [hall]
    simp only [refs_none, add_zero, Core.mod, hself, Function.update_eq_self]
    exact hc.symm
  · rintro i as - s₁ ⟨hnd, hs₁⟩
    obtain ⟨hi, hnd'⟩ := List.nodup_cons.mp hnd
    have hread : (s₁.pcb curr).usems = f := by
      have hthread : s₁.core.thread curr = c.thread curr := by
        rw [hs₁]
        simp only [Core.mod, Function.update_of_ne hne]
      exact (congrArg Thread.usems hthread :)
    rw [wp_bind, getProc, wp_read, hread]
    cases hfi : f i with
    | none =>
      refine ⟨hnd', ?_⟩
      have hsame : without f as = without f (i :: as) := by
        rw [without_cons f hi, hfi]
        refine (Function.update_eq_self_iff ..).mpr ?_
        simp [without]
      rw [hs₁, hsame]
    | some u =>
      simp only
      rw [wp_bind]
      refine (setUsem_spec p i (some u)).imp ?_
      rintro - s₂ hs₂
      refine (modUsemRef_spec u (· + 1)).imp ?_
      rintro - s₃ hs₃
      refine ⟨hnd', ?_⟩
      rw [hs₃, hs₂, hs₁]
      ext1
      · simp only [Core.mod, Function.update_self, Function.update_idem]
        rw [without_cons f hi, hfi]
      · rfl
      · funext v
        simp only [Core.mod]
        rw [refs_without_cons f hi, hfi]
        by_cases hv : v = u
        · subst hv
          simp only [Function.update_self, if_true]
          ring
        · simp [Function.update_of_ne hv, Ne.symm hv]
      all_goals rfl
  · rintro - s₁ ⟨-, hs₁⟩
    rw [hs₁, without_nil]

theorem keeps_copyFiles (curr p : ProcPtr) : Keeps Kernel.core
    (loop (fun i _ => do
      let parent ← getProc curr
      match parent.files i with
      | some k => do
        setFd p i (some k)
        let _ ← fdup k
      | none => pure ()) (List.finRange MAX_UFILE) ()) := by
  refine Keeps.loop (fun i _ => Keeps.read.bind fun parent => ?_) _ _
  split
  · exact (keeps_setFd _ _ _).bind fun _ => (keeps_fdup _).bind fun _ => Keeps.pure _
  · exact Keeps.pure _

theorem sys_fork_spec (hcalls : s.core.Calls) :
    wp sys_fork (fun o s' => (o = .done (.int (-1)) ∧ s'.core = s.core) ∨
      ∃ p, o = .done (.int s.core.next_pid) ∧ p ≠ 0 ∧ (s.core.thread p).status = .unused ∧
        s.core.next_pid < INT_MAX ∧ s'.core = s.core.fork p) (fun _ => True) s := by
  rw [sys_fork, wp_bind]
  refine (proc_alloc_spec).imp ?_
  rintro r s₁ (⟨rfl, hs₁⟩ | ⟨p, rfl, hp, hunused, hlt, hs₁⟩)
  · exact Or.inl ⟨rfl, hs₁⟩
  have hne : s.core.curr ≠ p := by
    rintro rfl
    rw [hcalls.running] at hunused
    cases hunused
  simp only
  rw [wp_bind, proc_copycurr, wp_bind, proc_curr, wp_read]
  have hcurr : s₁.curr = s.core.curr := (congrArg Core.curr hs₁ :)
  rw [hcurr, wp_bind]
  refine (modProc_spec (fun pr => { pr with child_num := pr.child_num + 1 })
    (fun t => { t with child_num := t.child_num + 1 }) (fun _ => rfl) fun _ => rfl).imp ?_
  rintro - s₂ hs₂
  rw [wp_bind]
  refine (modProc_spec (fun pr => { pr with parent := some s.core.curr })
    ({ · with parent := some s.core.curr }) (fun _ => rfl) fun _ => rfl).imp ?_
  rintro - s₃ hs₃
  -- the working directory is a file, and files are no part of a thread
  have hkeep : Keeps Kernel.core (do
      let parent ← getProc s.core.curr
      let cwd ← deref parent.cwd
      let cwd ← inFs (idup cwd)
      modProc p fun pr => { pr with cwd := some cwd }) :=
    Keeps.read.bind fun _ => (keeps_deref _).bind fun _ => (keeps_inFs _).bind fun _ =>
      keeps_setCwd _ _
  have hcwd := hkeep.wp s₃
  simp only [wp_bind] at hcwd ⊢
  refine hcwd.imp fun parent s₄ h₄ => h₄.imp fun cwd s₅ h₅ => h₅.imp fun cwd s₆ h₆ =>
    h₆.imp fun _ s₇ hs₇ => ?_
  have hthread : (s₇.core.thread p).usems = fun _ => none := by
    rw [hs₇, hs₃, hs₂, hs₁]
    simp only [Core.mod, Function.update_self, Function.update_of_ne hne.symm]
  refine (copyUsems_spec hne hthread).imp ?_
  rintro - s₈ hs₈
  refine ((keeps_copyFiles s.core.curr p).wp s₈).imp ?_
  rintro - s₉ hs₉
  refine (proc_addready_spec p).imp ?_
  rintro - s' hs'
  rw [getProc, wp_read]
  have hfinal : s'.core = s.core.fork p := by
    rw [hs', hs₉, hs₈, hs₇, hs₃, hs₂, hs₁]
    ext1
    · funext q
      by_cases hq : q = p
      · subst hq
        simp only [Core.mod, Core.fork, Function.update_self, Function.update_of_ne hne,
          Function.update_of_ne hne.symm]
      · by_cases hqc : q = s.core.curr
        · subst hqc
          simp only [Core.mod, Core.fork, Function.update_self, Function.update_of_ne hq]
        · simp only [Core.mod, Core.fork, Function.update_of_ne hq, Function.update_of_ne hqc]
    · rfl
    · funext u
      simp only [Core.mod, Core.fork, Function.update_self, Function.update_of_ne hne]
    all_goals rfl
  have hpid : (s'.pcb p).pid = s.core.next_pid := by
    have := congrArg (fun c => (c.thread p).pid) hfinal
    simp only [Core.fork, Function.update_self] at this
    exact this
  refine Or.inr ⟨p, ?_, hp, hunused, hlt, hfinal⟩
  rw [hpid]

/-! ### Exit -/

/-- The loop of `proc_makezombie` over the semaphores. -/
theorem closeUsems_spec {F : Abort → Prop} (p : ProcPtr) :
    wp (loop (fun i _ => do
        let proc ← getProc p
        match proc.usems i with
        | some u => do
          usem_close u
          setUsem p i none
        | none => pure ()) (List.finRange MAX_USEM) ())
      (fun _ s' => s'.core = { s.core.mod p ({ · with usems := fun _ => none }) with
        usemRef := fun u => s.core.usemRef u - refs (s.core.thread p).usems u }) F s := by
  set f := (s.core.thread p).usems with hf
  set c := s.core with hc
  -- the semaphores that are still open are those in `as`
  refine wp_loop (fun as _ s' => as.Nodup ∧ s'.core =
    { c.mod p ({ · with usems := within f as }) with
      usemRef := fun u => c.usemRef u - refs (without f as) u }) _ _ ?_ ?_ ?_
  · refine ⟨List.nodup_finRange _, ?_⟩
    have hall : within f (List.finRange MAX_USEM) = f := within_all f (List.mem_finRange ·)
    have hnone : without f (List.finRange MAX_USEM) = fun _ => none :=
      without_all f (List.mem_finRange ·)
    have hself : ({ c.thread p with usems := f } : Thread) = c.thread p := by rw [hf]
    rw [hall, hnone]
    simp only [refs_none, sub_zero, Core.mod, hself, Function.update_eq_self]
    exact hc.symm
  · rintro i as - s₁ ⟨hnd, hs₁⟩
    obtain ⟨hi, hnd'⟩ := List.nodup_cons.mp hnd
    have hread : (s₁.pcb p).usems = within f (i :: as) := by
      have hthread : (s₁.core.thread p).usems = within f (i :: as) := by
        rw [hs₁]
        simp only [Core.mod, Function.update_self]
      exact hthread
    have hhead : within f (i :: as) i = f i := by simp [within]
    rw [wp_bind, getProc, wp_read, hread, hhead]
    cases hfi : f i with
    | none =>
      refine ⟨hnd', ?_⟩
      have hsame : within f as = within f (i :: as) := by
        rw [within_cons f hi]
        refine (Function.update_eq_self_iff ..).mpr ?_
        rw [hhead, hfi]
      have hsame' : without f as = without f (i :: as) := by
        rw [without_cons f hi, hfi]
        refine (Function.update_eq_self_iff ..).mpr ?_
        simp [without]
      rw [hs₁, hsame, hsame']
    | some u =>
      simp only
      rw [wp_bind]
      refine (modUsemRef_spec u (· - 1)).imp ?_
      rintro - s₂ hs₂
      refine (setUsem_spec p i none).imp ?_
      rintro - s₃ hs₃
      refine ⟨hnd', ?_⟩
      rw [hs₃, hs₂, hs₁]
      ext1
      · simp only [Core.mod, Function.update_self, Function.update_idem]
        rw [within_cons f hi]
      · rfl
      · funext v
        simp only [Core.mod]
        rw [refs_without_cons f hi, hfi]
        by_cases hv : v = u
        · subst hv
          simp only [Function.update_self, if_true]
          ring
        · simp [Function.update_of_ne hv, Ne.symm hv]
      all_goals rfl
  · rintro - s₁ ⟨-, hs₁⟩
    rw [hs₁, without_nil, within_nil]

theorem keeps_closeFiles (p : ProcPtr) : Keeps Kernel.core
    (loop (fun i _ => do
      let proc ← getProc p
      match proc.files i with
      | some k => do
        fclose k
        setFd p i none
      | none => pure ()) (List.finRange MAX_UFILE) ()) := by
  refine Keeps.loop (fun i _ => Keeps.read.bind fun proc => ?_) _ _
  split
  · exact (keeps_fclose _).bind fun _ => keeps_setFd _ _ _
  · exact Keeps.pure _

/-- The children of the current process lose their parent. -/
theorem orphan_spec {F : Abort → Prop} (code : ℤ) :
    wp (do
        modProc s.curr fun pr => { pr with status := .zombie, exit_code := code }
        update fun t => { t with pcb := fun i =>
          if (t.pcb i).parent = some s.curr then { t.pcb i with parent := none } else t.pcb i })
      (fun _ s' => s'.core = s.core.orphan code) F s := by
  rw [wp_bind, modProc, wp_update, wp_update]
  ext1
  · funext q
    have hcurr : s.core.curr = s.curr := rfl
    rw [Core.orphan_thread, hcurr]
    by_cases hq : q = s.curr
    · subst hq
      simp only [Kernel.core, Function.update_self, if_true]
      by_cases hpar : (s.pcb s.curr).parent = some s.curr
      · simp [Proc.thread, hpar]
      · simp [Proc.thread, hpar]
    · simp only [Kernel.core, Function.update_of_ne hq, if_neg hq]
      by_cases hpar : (s.pcb q).parent = some s.curr
      · simp [Proc.thread, hpar]
      · simp [Proc.thread, hpar]
  · funext sp
    cases sp with
    | zombie q =>
      by_cases hq : q = s.curr
      · subst hq
        simp only [Kernel.core, Core.orphan, Kernel.sem, Function.update_self]
        split <;> rfl
      · simp only [Kernel.core, Core.orphan, Kernel.sem, Function.update_of_ne hq]
        split <;> rfl
    | user u => rfl
    | serial => rfl
  all_goals rfl

/-- What `proc_makezombie` does when the parent has been told. -/
theorem closeAll_spec (p : ProcPtr) :
    wp (do
        loop (fun i _ => do
          let proc ← getProc p
          match proc.usems i with
          | some u => do
            usem_close u
            setUsem p i none
          | none => pure ()) (List.finRange MAX_USEM) ()
        loop (fun i _ => do
          let proc ← getProc p
          match proc.files i with
          | some k => do
            fclose k
            setFd p i none
          | none => pure ()) (List.finRange MAX_UFILE) ()
        let proc ← getProc p
        let cwd ← deref proc.cwd
        inFs (iclose cwd)
        modProc p fun pr => { pr with cwd := none })
      (fun _ s' => s'.core = { s.core.mod p ({ · with usems := fun _ => none }) with
        usemRef := fun u => s.core.usemRef u - refs (s.core.thread p).usems u })
      (fun _ => True) s := by
  rw [wp_bind]
  refine (closeUsems_spec p).imp ?_
  rintro - s₁ hs₁
  have hkeep : Keeps Kernel.core (do
      let proc ← getProc p
      let cwd ← deref proc.cwd
      inFs (iclose cwd)
      modProc p fun pr => { pr with cwd := none }) :=
    Keeps.read.bind fun _ => (keeps_deref _).bind fun _ => (keeps_inFs _).bind fun _ =>
      keeps_setCwd _ _
  refine (((keeps_closeFiles p).bind fun _ => hkeep).wp s₁).imp ?_
  rintro - s' hs'
  rw [hs', hs₁]

theorem proc_makezombie_spec (status : ℤ) :
    wp (proc_makezombie s.curr status) (fun _ s' => s'.core =
      (s.core.orphan status).tell.release) (fun _ => True) s := by
  rw [proc_makezombie]
  have horphan := orphan_spec (s := s) (F := fun _ => True) status
  rw [wp_bind] at horphan ⊢
  refine horphan.imp fun _ s₁ h₁ => ?_
  rw [wp_bind]
  refine h₁.imp fun _ s₂ hs₂ => ?_
  rw [wp_bind, wp_getProc]
  have hpar : (s₂.pcb s.curr).parent = ((s.core.orphan status).thread s.curr).parent := by
    rw [← hs₂]
    rfl
  have hcurr : (s.core.orphan status).tell.curr = s.curr := Core.tell_curr
  rw [hpar, Core.release, hcurr, Core.tell, show (s.core.orphan status).curr = s.curr from rfl]
  cases ((s.core.orphan status).thread s.curr).parent with
  | some parent =>
    simp only
    rw [wp_bind]
    refine (sem_v_spec (.zombie parent)).imp ?_
    rintro - s₃ hs₃
    refine (closeAll_spec s.curr).imp ?_
    rintro - s' hs'
    rw [hs', hs₃, hs₂]
  | none =>
    refine (closeAll_spec s.curr).imp ?_
    rintro - s' hs'
    rw [hs', hs₂]

theorem sys_exit_spec (status : ℤ) :
    wp (sys_exit status) (fun o s' => o = .wait .exited ∧
      s'.core.goto .exited = s.core.exit status) (fun _ => True) s := by
  rw [sys_exit, wp_bind, proc_curr, wp_read, wp_bind]
  refine (proc_makezombie_spec status).imp ?_
  rintro - s' hs'
  refine ⟨rfl, ?_⟩
  rw [hs']
  rfl

/-! ### Wait -/

theorem proc_yield_spec {F : Abort → Prop} (k : Kont) :
    wp (proc_yield k) (fun o s' => o = .wait k ∧
      s'.core.goto k = (s.core.mod s.core.curr ({ · with status := .ready })).goto k) F s := by
  rw [proc_yield, wp_bind, proc_curr, wp_read, wp_bind]
  refine (proc_addready_spec s.curr).imp ?_
  rintro - s' hs'
  refine ⟨rfl, ?_⟩
  rw [hs']
  rfl

/-- Reap a zombie if there is one. -/
theorem waitLoop_spec (hrun : (s.core.thread s.core.curr).status = .running) :
    wp waitLoop (fun o s' =>
      (∃ p, (s.core.thread p).parent = some s.core.curr ∧ (s.core.thread p).status = .zombie ∧
        o = .done (.child (s.core.thread p).pid (s.core.thread p).exit_code) ∧
        s'.core.goto .user = s.core.reap p) ∨
      ((∀ p, ¬ ((s.core.thread p).parent = some s.core.curr ∧ (s.core.thread p).status = .zombie)) ∧
        o = .wait .wait ∧
        s'.core.goto .wait = (s.core.mod s.core.curr ({ · with status := .ready })).goto .wait))
      (fun _ => True) s := by
  rw [waitLoop, wp_bind, proc_curr, wp_read, wp_bind, proc_findzombie, wp_read]
  cases hfind : (List.finRange PROC_NUM).find? fun i =>
      (s.pcb i).parent = some s.curr ∧ (s.pcb i).status = .zombie with
  | none =>
    refine (proc_yield_spec .wait).imp ?_
    rintro o s' ⟨ho, hs'⟩
    refine Or.inr ⟨fun p hp => ?_, ho, hs'⟩
    have hnone := List.find?_eq_none.mp hfind p (List.mem_finRange p)
    have hp' : (s.pcb p).parent = some s.curr ∧ (s.pcb p).status = .zombie := hp
    exact hnone (by simpa using hp')
  | some p =>
    have hp : (s.pcb p).parent = some s.curr ∧ (s.pcb p).status = .zombie := by
      simpa using List.find?_some hfind
    have hne : p ≠ s.curr := by
      rintro rfl
      have hz := hp.2
      rw [show (s.pcb s.curr).status = .running from hrun] at hz
      cases hz
    simp only
    rw [wp_bind]
    refine (modProc_spec (fun pr => { pr with child_num := pr.child_num - 1 })
      (fun t => { t with child_num := t.child_num - 1 }) (fun _ => rfl) fun _ => rfl).imp ?_
    rintro - s₁ hs₁
    have hthread : (s₁.pcb p).thread = (s.pcb p).thread := by
      have := congrArg (fun c => c.thread p) hs₁
      simp only [Core.mod, Function.update_of_ne hne] at this
      exact this
    have hstatus : (s₁.pcb p).status = .zombie := (congrArg Thread.status hthread).trans hp.2
    rw [wp_bind, getProc, wp_read, wp_bind, proc_free, wp_bind, getProc, wp_read, hstatus]
    rw [if_pos (by decide)]
    refine (setStatus_spec p .unused).imp ?_
    rintro - s' hs'
    refine Or.inl ⟨p, hp.1, hp.2, ?_, ?_⟩
    · have hpid : (s₁.pcb p).pid = (s.core.thread p).pid := congrArg Thread.pid hthread
      have hcode : (s₁.pcb p).exit_code = (s.core.thread p).exit_code :=
        congrArg Thread.exit_code hthread
      rw [hpid, hcode]
    · rw [hs', hs₁]
      rfl

theorem sys_wait_spec (hcalls : s.core.Calls) :
    wp sys_wait (fun o s' =>
      ((s.core.thread s.core.curr).child_num = 0 ∧ o = .done (.int (-1)) ∧ s'.core = s.core) ∨
      ((s.core.thread s.core.curr).child_num ≠ 0 ∧ o = .wait .wait ∧
        (s.core.sem (.zombie s.core.curr)).value = 0 ∧
        s'.core.goto .wait = s.core.block (.zombie s.core.curr) .wait) ∨
      ((s.core.thread s.core.curr).child_num ≠ 0 ∧
        (s.core.sem (.zombie s.core.curr)).value ≠ 0 ∧
        ((∃ p, (s.core.thread p).parent = some s.core.curr ∧
            (s.core.thread p).status = .zombie ∧
            o = .done (.child (s.core.thread p).pid (s.core.thread p).exit_code) ∧
            s'.core.goto .user = (s.core.take (.zombie s.core.curr)).reap p) ∨
          ((∀ p, ¬ ((s.core.thread p).parent = some s.core.curr ∧
              (s.core.thread p).status = .zombie)) ∧ o = .wait .wait ∧
            s'.core.goto .wait = ((s.core.take (.zombie s.core.curr)).mod s.core.curr
              ({ · with status := .ready })).goto .wait)))) (fun _ => True) s := by
  rw [sys_wait, wp_bind, proc_curr, wp_read, wp_bind, getProc, wp_read, wp_ite]
  refine ⟨fun hzero => Or.inl ⟨hzero, rfl, rfl⟩, fun hne => ?_⟩
  rw [wp_bind]
  refine (sem_p_spec (.zombie s.curr)).imp ?_
  rintro blocked s₁ (⟨rfl, hv, hs₁⟩ | ⟨rfl, hv, hs₁⟩)
  · have hrun : (s₁.core.thread s₁.core.curr).status = .running := by
      rw [hs₁]
      exact hcalls.running
    refine (waitLoop_spec hrun).imp ?_
    rintro o s' ho
    rw [hs₁] at ho
    exact Or.inr (Or.inr ⟨hne, hv, ho⟩)
  · exact Or.inr (Or.inl ⟨hne, rfl, hv, hs₁ .wait⟩)

end Oslab
