/-
# Finding the way back

`pwd` goes from the working directory to the root along `..` and looks its name up in
every directory on the way. While no other process runs, it prints the one path that leads
from the root to the directory in which it has been started. When nothing is made in a
removed directory, everything has such a path.
-/
import Oslab.Calls

namespace Oslab

open Lib Lib.Prog

/-! ### The program -/

/-- The number a call returns. -/
def Reply.val : Reply → ℤ
  | .int r => r
  | .bytes bs => bs.length
  | .stat _ _ _ => 0
  | .child pid _ => pid
  | .loaded => 0

/-- `st.node` after a call, which was `old` before. -/
def Reply.node (old : ℕ) : Reply → ℕ
  | .stat _ _ node => node
  | _ => old

/-- `di` after a call that reads into it. -/
def Reply.into (di : Dirent) : Reply → Dirent
  | .bytes bs => di.overlay bs
  | _ => di

/-- The size of `buf` before its last two bytes, where `p` starts. -/
def PWD_BUF : ℕ := 510

section Program

variable (junk : Kernel → Mem)

/-- The loop of `pwd` that looks for the entry of inode `node`, and the name in it. -/
def pwdFind (pfd : ℤ) (node : ℕ) : ℕ → Dirent → KernelM (Option (List UInt8))
  | 0, _ => abort .hang
  | fuel + 1, di => do
    let r ← syscall junk (.read pfd Dirent.sizeof)
    if r.val ≤ 0 then pure none
    else
      let di := r.into di
      if di.inode.toNat = node then pure (some (cstr di.name))
      else pwdFind pfd node fuel di

/-- The loop of `pwd` with the string at `p`; nothing when an assertion fails. The local variables
hold `st` and `di` before they are set. -/
def pwdLoop (st : ℕ) (di : Dirent) : ℕ → List UInt8 → KernelM (Option (List UInt8))
  | 0, _ => abort .hang
  | fuel + 1, str => do
    let fd ← syscall junk (.open ⟨DOT, by decide⟩ O_RDONLY)
    let pfd ← syscall junk (.open ⟨DOTDOT, by decide⟩ O_RDONLY)
    if fd.val < 0 ∨ pfd.val < 0 then pure none
    else
      let r ← syscall junk (.fstat fd.val)
      if r.val < 0 then pure none
      else
        let node := r.node st
        let r ← syscall junk (.fstat pfd.val)
        if r.val < 0 then pure none
        else if node = r.node node then pure (some (SLASH :: str.tail))
        else
          match ← pwdFind junk pfd.val node fuel di with
          | none => pure none
          | some name =>
            -- `p -= strlen(di.name) + 1; assert(p >= buf);`
            if str.length + (name.length + 1) ≤ PWD_BUF then
              let _ ← syscall junk (.close fd.val)
              let _ ← syscall junk (.close pfd.val)
              let _ ← syscall junk (.chdir ⟨DOTDOT, by decide⟩)
              pwdLoop st di fuel (SLASH :: name ++ str)
            else pure none

end Program

/-! ### Absolute paths -/

/-- The names, each after a slash. -/
def slashed (ns : List (List UInt8)) : List UInt8 := ns.flatMap (SLASH :: ·)

/-- The path from the root along the names. -/
def absolute (ns : List (List UInt8)) : List UInt8 := SLASH :: (slashed ns).tail

section Paths

variable {ns : List (List UInt8)} {name : List UInt8} {cwd : ℕ}

theorem slashed_concat : slashed (ns ++ [name]) = slashed ns ++ SLASH :: name := by
  simp [slashed]

theorem absolute_eq (hne : ns ≠ []) : absolute ns = slashed ns := by
  cases ns with
  | nil => exact (hne rfl).elim
  | cons n ns => rfl

theorem components_slashed (h : ∀ n ∈ ns, Elem n) : components (slashed ns) = ns := by
  induction ns with
  | nil => exact fields_nil
  | cons n ns ih =>
    have hn := h n List.mem_cons_self
    have hrest := ih fun m hm => h m (List.mem_cons_of_mem _ hm)
    have hrun : ∀ b ∈ n, decide (b = SLASH) = false := by
      intro b hb
      rw [decide_eq_false_iff_not]
      rintro rfl
      exact hn.slash hb
    have hsplit : slashed (n :: ns) = SLASH :: (n ++ slashed ns) := by simp [slashed]
    rw [hsplit, components, fields_sep (by decide), fields_run hrun hn.ne]
    · exact congrArg _ hrest
    · intro b hb
      cases ns with
      | nil => cases hb
      | cons m ms =>
        cases hb
        decide

theorem names_absolute (h : ∀ n ∈ ns, Elem n) : names (absolute ns) = ns := by
  by_cases hne : ns = []
  · subst hne
    rw [names, components, absolute, fields_sep (by decide)]
    rfl
  · rw [names, absolute_eq hne, components_slashed h]
    have hcut : ∀ n ∈ ns, n.take MAX_NAME = n := fun n hn =>
      List.take_of_length_le (h n hn).length
    rw [List.map_congr_left hcut, List.map_id']

/-- An absolute path is looked up from the root. -/
theorem lookup_absolute {objs : ℕ → Obj} (h : ∀ n ∈ ns, Elem n) :
    lookup objs cwd (absolute ns) = along objs 1 ns := by
  rw [lookup, if_neg (by simp [absolute]), names_absolute h]
  rfl

/-- A name without a slash is looked up in the working directory. -/
theorem lookup_elem {objs : ℕ → Obj} (h : Elem name) : lookup objs cwd name = binding objs cwd name := by
  have hrun : ∀ b ∈ name, decide (b = SLASH) = false := by
    intro b hb
    rw [decide_eq_false_iff_not]
    rintro rfl
    exact h.slash hb
  have hnames : names name = [name] := by
    rw [names, components, fields_run_only hrun h.ne, List.map_singleton,
      List.take_of_length_le h.length]
  have hstart : start cwd name = cwd := by
    rw [start, if_neg]
    intro hhead
    exact h.slash (List.mem_of_mem_head? hhead)
  rw [lookup, if_neg h.ne, hnames, hstart, along_cons]
  cases binding objs cwd name <;> rfl

end Paths

/-! ### Below the root -/

namespace Ns

variable {s : Ns} {d e t cwd : ℕ} {ns : List (List UInt8)}

theorem Below.elem (hs : s.Spelled) (hd : s.Below d ns) : ∀ n ∈ ns, Elem n := by
  induction hd with
  | root => simp
  | entry _ hn _ ih =>
    intro n hmem
    rcases List.mem_append.mp hmem with hmem | hmem
    · exact ih n hmem
    · rw [List.mem_singleton.mp hmem]
      exact hs _ _ _ hn

theorem Named.binding (hd : s.Distinct) (hn : s.Named d e t) :
    binding s.objs d ((s.objs d).label e) = some t :=
  (hd.binding_iff hn.dir).mpr ⟨e, hn.lt, hn.target, hn.ne, rfl⟩

/-- The names lead to the directory. -/
theorem Below.along (hs : s.Distinct) (hd : s.Below d ns) : along s.objs 1 ns = some d := by
  induction hd with
  | root => rfl
  | entry _ hn _ ih =>
    rw [along_concat, ih, Option.bind_some]
    exact hn.binding hs

theorem lookup_dot (h : s.Inv) (hs : s.Distinct) (hd : s.Dir d) : lookup s.objs d DOT = some d := by
  have hshape := h.shape d hd
  have hpos := (h.ofDir hd).1
  have htwo := hshape.two
  rw [lookup_elem ⟨by decide, by decide, by decide, by decide⟩, hs.binding_iff hd]
  exact ⟨0, by omega, hshape.dot, by omega, hshape.dotName⟩

theorem lookup_dotdot (h : s.Inv) (hs : s.Distinct) (hd : s.Dir d) :
    lookup s.objs d DOTDOT = some (s.up d) := by
  have hshape := h.shape d hd
  have hup := (h.upRange d hd).1
  have htwo := hshape.two
  rw [lookup_elem ⟨by decide, by decide, by decide, by decide⟩, hs.binding_iff hd]
  exact ⟨1, by omega, rfl, by omega, hshape.dotdotName⟩

/-- In the directory in which one lies, no entry but its own names it. -/
theorem Below.only (h : s.Inv) (hd : s.Below d ns) (hn : s.Named d e t) (ht : s.Dir t) {e' : ℕ}
    (hlt : e' < (s.objs d).count) (htarget : (s.objs d).target e' = t) : e' = e := by
  have hshape := h.shape d hn.dir
  have hne := hd.up_ne h hn ht
  have hdt : d ≠ t := by
    rintro rfl
    exact hne (h.parent _ _ _ hn ht)
  by_cases hdot : e' = 0
  · subst hdot
    exact (hdt (hshape.dot.symm.trans htarget)).elim
  by_cases hdotdot : e' = 1
  · subst hdotdot
    exact (hne htarget).elim
  · exact (h.uniq d e' d e t ⟨hn.dir, by omega, hlt, htarget, hn.ne⟩ hn).2

/-- The way is the same where the objects are. -/
theorem Below.congr {s' : Ns} (hobjs : s'.objs = s.objs) (hd : s.Below d ns) : s'.Below d ns := by
  induction hd with
  | root => exact .root
  | @entry d e t ns _ hn ht ih =>
    have ht' : s'.Dir t := by
      rw [Dir, hobjs]
      exact ht
    rw [← hobjs]
    exact ih.entry (hn.congr hobjs) ht'

/-- The directory above one below the root is a directory. -/
theorem Below.up_dir (h : s.Inv) (hd : s.Below d ns) : s.Dir (s.up d) := by
  cases hd with
  | root =>
    rw [h.upRoot]
    exact h.root
  | entry _ hn ht =>
    rw [h.parent _ _ _ hn ht]
    exact hn.dir

/-- Only the root is in itself. -/
theorem Below.eq_nil_of_up (h : s.Inv) (hd : s.Below d ns) (hup : s.up d = d) : ns = [] := by
  cases hd with
  | root => rfl
  | entry hx hn ht =>
    have hparent := h.parent _ _ _ hn ht
    rw [hup] at hparent
    subst hparent
    exact (hx.up_ne h hn ht hup).elim

/-- A directory below the root and the names on the way to it. -/
structure Directory (s : Ns) where
  no : ℕ
  names : List (List UInt8)
  below : s.Below no names

/-- What a directory below the root holds, and how it lies in the others. -/
structure Directory.Placed (s : Ns) (p : s.Directory) : Prop where
  size : 0 < (s.objs p.no).size ∧ 32 ∣ (s.objs p.no).size
  dot : binding s.objs p.no DOT = some p.no
  dotdot : binding s.objs p.no DOTDOT = some (s.up p.no)
  root : p.no = 1 → p.names = [] ∧ s.up p.no = 1
  parent : p.no = 1 ∨ ∃ q : s.Directory, ∃ e, s.up p.no = q.no ∧ s.Named q.no e p.no ∧
    p.names = q.names ++ [(s.objs q.no).label e]
  back : s.up^[p.names.length] p.no = 1
  once : ∀ q : s.Directory, q.no = p.no → q.names = p.names
  path : ∀ cwd, lookup s.objs cwd (absolute p.names) = some p.no
  labels : ∀ e t, s.Named p.no e t → Elem ((s.objs p.no).label e) ∧
    (0 : UInt8) ∈ ((s.objs p.no).entry e).name ∧
    binding s.objs p.no ((s.objs p.no).label e) = some t
  unique : ∀ e t d' e', s.Named p.no e t → s.Named d' e' t → d' = p.no ∧ e' = e

theorem Directory.placed (h : s.Inv) (hs : s.Distinct) (hl : s.Spelled) (p : s.Directory) :
    p.Placed := by
  have hd := p.below.dir h
  have hshape := h.shape p.no hd
  have helem {name : List UInt8} (hn : Elem name) (t : ℕ) (hlook : lookup s.objs p.no name = some t) :
      binding s.objs p.no name = some t := by
    rwa [lookup_elem hn] at hlook
  constructor
  · have htwo := hshape.two
    rw [Obj.count] at htwo
    exact ⟨by omega, hshape.dvd⟩
  · exact helem ⟨by decide, by decide, by decide, by decide⟩ _ (lookup_dot h hs hd)
  · exact helem ⟨by decide, by decide, by decide, by decide⟩ _ (lookup_dotdot h hs hd)
  · intro hroot
    refine ⟨?_, by rw [hroot, h.upRoot]⟩
    have hbelow := p.below
    rw [hroot] at hbelow
    exact hbelow.unique h .root
  · obtain ⟨no, ns, hbelow⟩ := p
    cases hbelow with
    | root => exact Or.inl rfl
    | entry hx hn ht => exact Or.inr ⟨⟨_, _, hx⟩, _, h.parent _ _ _ hn ht, hn, rfl⟩
  · exact p.below.up_iterate h
  · intro q hq
    have hbelow := q.below
    rw [hq] at hbelow
    exact hbelow.unique h p.below
  · intro cwd
    rw [lookup_absolute (p.below.elem hl), p.below.along hs]
  · intro e t hn
    exact ⟨hl _ _ _ hn, hshape.ends e hn.lt (hn.target ▸ hn.ne), hn.binding hs⟩
  · intro e t d' e' hn hn'
    exact h.uniq _ _ _ _ _ hn' hn

end Ns

/-! ### Every state -/

/-- **The directories below the root are a tree.** In every state each of them holds `.` and
`..` and entries with distinct names, nothing is named twice, and there is one way to it, along
which `..` leads back to the root. -/
theorem below_placed (s : RunningApart) (p : s.1.fs.state.ns.Directory) : p.Placed := by
  obtain ⟨hd, hl⟩ := reachable_distinct s.2
  exact p.placed s.inOrder.tables.fs.inv hd hl

/-! ### Running it -/

/-- Why the kernel stops in one of the calls: the disk, a directory or the table of inodes is
full. -/
def Kernel.Stops (s : Kernel) (e : Abort) : Prop :=
  ∃ t, s.Stays t ∧ DirAbort t.fs.disk.bytes t.fs.inodes 1 e

/-- Two descriptors of the current process and two files are free. -/
def Kernel.Spare (s : Kernel) : Prop :=
  (∃ fd fd', fd ≠ fd' ∧ s.fds fd = none ∧ s.fds fd' = none) ∧
    ∃ k k', k ≠ k' ∧ s.fileRefs k = 0 ∧ s.fileRefs k' = 0

section Running

variable {s s' : Kernel} {junk : Kernel → Mem} {fd pfd : Fin MAX_UFILE} {k k' : FilePtr} {e : Abort}

theorem Kernel.Stays.stops (h : s.Stays s') (he : s'.Stops e) : s.Stops e := by
  obtain ⟨t, ht, habort⟩ := he
  exact ⟨t, h.trans ht, habort⟩

theorem Kernel.Calling.inv (h : s.Calling) : s.fs.state.ns.Inv := h.inOrder.tables.fs.inv

theorem Kernel.Calling.stays (h : s.Calling) : s.Stays s := ⟨.refl, h, rfl⟩

/-- A directory below the root is not removed by calls that keep the objects. -/
theorem Kernel.Stays.kept {d : ℕ} {ns : List (List UInt8)} (h : s.Stays s')
    (hd : s.fs.state.ns.Below d ns) : d ∉ s'.fs.state.ns.removed :=
  (hd.congr h.objs).kept h.calling.inv

/-- The loop finds the only entry that names the inode. -/
theorem pwdFind_spec {o : Obj} {d e e₀ node fuel : ℕ} {di : Dirent} (hs : s.Calling)
    (ho : s.fs.state.ns.objs d = o) (hdir : o.type = TYPE_DIR) (hr : s.Reads pfd k d (32 * e))
    (hlt : e₀ < o.count) (hhit : o.target e₀ = node)
    (honly : ∀ e' < o.count, o.target e' = node → e' = e₀) (he : e ≤ e₀) (hfuel : e₀ - e < fuel) :
    wp (pwdFind junk pfd.val node fuel di) (fun r s' => s.Rests s' ∧
      (∀ fd' k' n off, k' ≠ k → s.Reads fd' k' n off → s'.Reads fd' k' n off) ∧
      (∃ off, s'.Reads pfd k d off) ∧ r = some (o.label e₀)) s.Stops s := by
  induction fuel generalizing s e di with
  | zero => exact (Nat.not_lt_zero _ hfuel).elim
  | succ fuel ih =>
    have hdir' : s.fs.state.ns.Dir d := by
      rw [Ns.Dir, ho]
      exact hdir
    have hle : 32 * e + Dirent.sizeof ≤ (s.fs.state.ns.objs d).size := by
      rw [ho]
      rw [Obj.count] at hlt
      change 32 * e + 32 ≤ o.size
      omega
    rw [pwdFind, wp_bind]
    refine (read_dir_spec hs hr hdir' hle).mono ?_ fun _ he => ⟨s, hs.stays, he⟩
    intro r s' hs'
    obtain ⟨hrests, hreads, hread, rfl⟩ := hs'
    have hval : ¬ (Reply.bytes ((s.fs.state.ns.objs d).bytes.slice (32 * e) Dirent.sizeof)).val ≤ 0 := by
      rw [Reply.val, Mem.length_slice]
      decide
    have hinto : (Reply.bytes ((s.fs.state.ns.objs d).bytes.slice (32 * e) Dirent.sizeof)).into di =
        o.entry e := by
      rw [ho]
      exact Dirent.overlay_slice di o.bytes (32 * e)
    rw [if_neg hval]
    simp only [hinto]
    rw [wp_ite]
    constructor
    · intro hnode
      obtain rfl : e = e₀ := honly e (he.trans_lt hlt) hnode
      exact ⟨hrests, hreads, ⟨_, hread⟩, rfl⟩
    · intro hnode
      have hne : e ≠ e₀ := by
        rintro rfl
        exact hnode hhit
      have ho' : s'.fs.state.ns.objs d = o := by rw [hrests.objs, ho]
      refine (ih (e := e + 1) hrests.calling ho' hread (by omega) (by omega)).mono ?_ fun _ he =>
        hrests.toStays.stops he
      intro r s'' hs''
      obtain ⟨hrests', hreads', hread', hr'⟩ := hs''
      exact ⟨hrests.trans hrests', fun fd' k' n off hk hr' =>
        hreads' fd' k' n off hk (hreads fd' k' n off hk hr'), hread', hr'⟩

/-- When two are free, one is free after one has been taken. -/
theorem Kernel.Spare.second (h : s.Spare) (hfds : s'.fds = Function.update s.fds fd (some k))
    (hrefs : s'.fileRefs = Function.update s.fileRefs k 1) :
    (∃ fd', s'.fds fd' = none) ∧ ∃ k', s'.fileRefs k' = 0 := by
  obtain ⟨⟨a, b, hab, ha, hb⟩, c, d, hcd, hc, hd⟩ := h
  constructor
  · by_cases hfd : a = fd
    · refine ⟨b, ?_⟩
      rw [hfds, Function.update_of_ne fun heq => hab (hfd.trans heq.symm), hb]
    · exact ⟨a, by rw [hfds, Function.update_of_ne hfd, ha]⟩
  · by_cases hk : c = k
    · refine ⟨d, ?_⟩
      rw [hrefs, Function.update_of_ne fun heq => hcd (hk.trans heq.symm), hd]
    · exact ⟨c, by rw [hrefs, Function.update_of_ne hk, hc]⟩

theorem Kernel.Spare.congr (hfds : s'.fds = s.fds) (hrefs : s'.fileRefs = s.fileRefs) :
    s'.Spare ↔ s.Spare := by rw [Kernel.Spare, Kernel.Spare, hfds, hrefs]

/-- What two places held is put back. -/
theorem update_restore {α β : Type} [DecidableEq α] {f : α → β} {a b : α} {x u v : β} (ha : f a = x)
    (hb : f b = x) : Function.update (Function.update (Function.update (Function.update f a u) b v)
      a x) b x = f := by
  funext i
  by_cases hib : i = b
  · rw [hib, Function.update_self, hb]
  · rw [Function.update_of_ne hib]
    by_cases hia : i = a
    · rw [hia, Function.update_self, ha]
    · rw [Function.update_of_ne hia, Function.update_of_ne hib, Function.update_of_ne hia]

/-- How many entries a directory has. -/
theorem Kernel.Calling.count_le (h : s.Calling) (d : ℕ) : (s.fs.state.ns.objs d).count ≤ 132608 := by
  by_cases hd : d < 1920
  · have hsize := h.inOrder.tables.fs.holds.2.size d hd
    rw [Obj.count, FsState.ns, objs_ns hd]
    change (obj s.fs.disk.bytes d).size / 32 ≤ 132608
    omega
  · have hnone : s.fs.state.ns.objs d = .free := if_neg hd
    rw [hnone]
    decide

/-- Opening the working directory and the one above it works when there is room for both. -/
theorem pwd_enter (junk : Kernel → Mem) {d up : ℕ} (hs : s.Calling) (hd : s.fs.state.ns.Dir d)
    (hup : s.fs.state.ns.Dir up) (hdot : lookup s.fs.state.ns.objs s.cwdNo DOT = some d)
    (hdotdot : lookup s.fs.state.ns.objs s.cwdNo DOTDOT = some up) :
    wp (do
        let r ← syscall junk (.open ⟨DOT, by decide⟩ O_RDONLY)
        let r' ← syscall junk (.open ⟨DOTDOT, by decide⟩ O_RDONLY)
        pure (r, r'))
      (fun r s' => s.Stays s' ∧ s'.cwdNo = s.cwdNo ∧
        ((¬ s.Spare ∧ (r.1.val < 0 ∨ r.2.val < 0)) ∨
          ∃ fd k pfd k', s.Spare ∧ r = (.int fd.val, .int pfd.val) ∧ k ≠ k' ∧
            s.fds fd = none ∧ s.fds pfd = none ∧ s.fileRefs k = 0 ∧ s.fileRefs k' = 0 ∧
            s'.fds = Function.update (Function.update s.fds fd (some k)) pfd (some k') ∧
            s'.fileRefs = Function.update (Function.update s.fileRefs k 1) k' 1 ∧
            s'.Reads fd k d 0 ∧ s'.Reads pfd k' up 0))
      s.Stops s := by
  rw [wp_bind]
  refine (open_dir_spec hs hdot hd).mono ?_ fun _ he => ⟨s, hs.stays, he⟩
  intro r s₁ hs₁
  obtain ⟨hstays₁, hcwd₁, -, hopen₁⟩ := hs₁
  have hup₁ : s₁.fs.state.ns.Dir up := by
    rw [Ns.Dir, hstays₁.objs]
    exact hup
  have hdotdot₁ : lookup s₁.fs.state.ns.objs s₁.cwdNo DOTDOT = some up := by
    rw [hstays₁.objs, hcwd₁, hdotdot]
  rw [wp_bind]
  refine (open_dir_spec hstays₁.calling hdotdot₁ hup₁).mono ?_ fun _ he => ⟨s₁, hstays₁, he⟩
  intro r' s₂ hs₂
  obtain ⟨hstays₂, hcwd₂, hreads₂, hopen₂⟩ := hs₂
  rw [wp_pure]
  refine ⟨hstays₁.trans hstays₂, hcwd₂.trans hcwd₁, ?_⟩
  -- with two descriptors and two files free, neither call fails
  rcases hopen₁ with ⟨rfl, hfull⟩ | ⟨fd, k, rfl, hfd, hk, hfds₁, hrefs₁, hread₁⟩
  · refine Or.inl ⟨fun hspare => ?_, Or.inl (by simp [Reply.val])⟩
    obtain ⟨⟨a, -, -, ha, -⟩, c, -, -, hc, -⟩ := hspare
    rcases hfull with hfull | hfull
    · exact hfull a ha
    · exact hfull c hc
  rcases hopen₂ with ⟨rfl, hfull⟩ | ⟨pfd, k', rfl, hpfd, hk', hfds₂, hrefs₂, hread₂⟩
  · refine Or.inl ⟨fun hspare => ?_, Or.inr (by simp [Reply.val])⟩
    obtain ⟨⟨a, ha⟩, c, hc⟩ := hspare.second hfds₁ hrefs₁
    rcases hfull with hfull | hfull
    · exact hfull a ha
    · exact hfull c hc
  · have hne : pfd ≠ fd := by
      rintro rfl
      rw [hfds₁, Function.update_self] at hpfd
      cases hpfd
    have hne' : k' ≠ k := by
      rintro rfl
      rw [hrefs₁, Function.update_self] at hk'
      cases hk'
    have hpfd' : s.fds pfd = none := by
      rw [← hpfd, hfds₁, Function.update_of_ne hne]
    have hk'' : s.fileRefs k' = 0 := by
      rw [← hk', hrefs₁, Function.update_of_ne hne']
    refine Or.inr ⟨fd, k, pfd, k', ⟨⟨fd, pfd, hne.symm, hfd, hpfd'⟩, k, k', hne'.symm, hk, hk''⟩, rfl,
      hne'.symm, hfd, hpfd', hk, hk'', ?_, ?_, hreads₂ _ _ _ _ hread₁, hread₂⟩
    · rw [hfds₂, hfds₁]
    · rw [hrefs₂, hrefs₁]

/-- Closing both and going up gives back what has been taken. -/
theorem pwd_leave (junk : Kernel → Mem) {d up off off' : ℕ} {ns ns' : List (List UInt8)}
    (hs : s.Calling) (hr : s.Reads fd k d off) (hr' : s.Reads pfd k' up off') (hk : k ≠ k')
    (hd : s.fs.state.ns.Below d ns) (hup : s.fs.state.ns.Below up ns') (hcwd : s.cwdNo = d)
    (hdotdot : lookup s.fs.state.ns.objs d DOTDOT = some up) :
    wp (do
        let _ ← syscall junk (.close fd.val)
        let _ ← syscall junk (.close pfd.val)
        syscall junk (.chdir ⟨DOTDOT, by decide⟩))
      (fun _ s' => s.Stays s' ∧ s'.cwdNo = up ∧
        s'.fds = Function.update (Function.update s.fds fd none) pfd none ∧
        s'.fileRefs = Function.update (Function.update s.fileRefs k 0) k' 0)
      s.Stops s := by
  rw [wp_bind]
  refine (close_dir_spec hs hr (hs.stays.kept hd)).imp ?_
  intro _ s₁ hs₁
  obtain ⟨hstays₁, hcwd₁, hfds₁, hrefs₁, hreads₁⟩ := hs₁
  rw [wp_bind]
  refine (close_dir_spec hstays₁.calling (hreads₁ _ _ _ _ hk.symm hr') (hstays₁.kept hup)).imp ?_
  intro _ s₂ hs₂
  obtain ⟨hstays₂, hcwd₂, hfds₂, hrefs₂, -⟩ := hs₂
  have hstays := hstays₁.trans hstays₂
  have hcwd' : s₂.cwdNo = d := (hcwd₂.trans hcwd₁).trans hcwd
  have hlook : lookup s₂.fs.state.ns.objs s₂.cwdNo DOTDOT = some up := by
    rw [hstays.objs, hcwd', hdotdot]
  have hdir : s₂.fs.state.ns.Dir up :=
    (hup.congr hstays.objs).dir hstays.calling.inv
  refine (chdir_dir_spec hstays.calling hlook hdir (hcwd' ▸ hstays.kept hd)).mono ?_
    fun _ he => ⟨s₂, hstays, he⟩
  intro _ s₃ hs₃
  obtain ⟨hstays₃, hcwd₃, hfds₃, hrefs₃⟩ := hs₃
  refine ⟨hstays.trans hstays₃, hcwd₃, ?_, ?_⟩
  · rw [hfds₃, hfds₂, hfds₁]
  · rw [hrefs₃, hrefs₂, hrefs₁]

/-- Looking for the name of the working directory in the one above, and going there if the name
fits into the buffer. -/
theorem pwd_rise {d d' e fuel off : ℕ} {di : Dirent} {ns : List (List UInt8)} {str : List UInt8}
    {rest : List UInt8 → KernelM (Option (List UInt8))} {post : Option (List UInt8) → Kernel → Prop}
    (hs : s.Calling) (hx : s.fs.state.ns.Below d' ns) (hn : s.fs.state.ns.Named d' e d)
    (ht : (s.fs.state.ns.objs d).type = TYPE_DIR) (hcwd : s.cwdNo = d) (hr : s.Reads fd k d off)
    (hr' : s.Reads pfd k' d' 0) (hk : k ≠ k') (hfuel : 132608 < fuel)
    (hfits : str.length + (((s.fs.state.ns.objs d').label e).length + 1) ≤ PWD_BUF →
      ∀ s', s.Stays s' → s'.cwdNo = d' →
        s'.fds = Function.update (Function.update s.fds fd none) pfd none →
        s'.fileRefs = Function.update (Function.update s.fileRefs k 0) k' 0 →
        wp (rest ((s.fs.state.ns.objs d').label e)) post s.Stops s')
    (hlong : ¬ str.length + (((s.fs.state.ns.objs d').label e).length + 1) ≤ PWD_BUF →
      ∀ s', s.Stays s' → post none s') :
    wp (do
        match ← pwdFind junk pfd.val d fuel di with
        | none => pure none
        | some name =>
          if str.length + (name.length + 1) ≤ PWD_BUF then
            let _ ← syscall junk (.close fd.val)
            let _ ← syscall junk (.close pfd.val)
            let _ ← syscall junk (.chdir ⟨DOTDOT, by decide⟩)
            rest name
          else pure none) post s.Stops s := by
  have hns := hs.inv
  obtain ⟨hdist, -⟩ := reachable_distinct hs.reach
  have hup := hns.parent _ _ _ hn ht
  have hcount := hs.count_le d'
  have hlt := hn.lt
  rw [wp_bind]
  refine (pwdFind_spec (e := 0) hs rfl hn.dir hr' hlt hn.target (fun _ => hx.only hns hn ht)
    (Nat.zero_le e) (by omega)).imp ?_
  intro r s₁ hs₁
  obtain ⟨hrests₁, hreads₁, ⟨off', hread'⟩, rfl⟩ := hs₁
  have hstays₁ := hrests₁.toStays
  simp only
  rw [wp_ite]
  constructor
  · intro hfit
    have hdotdot : lookup s₁.fs.state.ns.objs d DOTDOT = some d' := by
      rw [hstays₁.objs, Ns.lookup_dotdot hns hdist ht, hup]
    have hleave := (pwd_leave junk hstays₁.calling (hreads₁ _ _ _ _ hk hr) hread' hk
      ((hx.entry hn ht).congr hstays₁.objs) (hx.congr hstays₁.objs) (hrests₁.cwdNo.trans hcwd)
      hdotdot).mono (fun _ _ h => h) fun _ he => hstays₁.stops he
    simp only [wp_bind] at hleave ⊢
    refine hleave.imp fun _ _ h => h.imp fun _ _ h => h.imp fun _ s₂ hs₂ => ?_
    obtain ⟨hstays₂, hcwd₂, hfds₂, hrefs₂⟩ := hs₂
    refine hfits hfit s₂ (hstays₁.trans hstays₂) hcwd₂ ?_ ?_
    · rw [hfds₂, hrests₁.fds]
    · rw [hrefs₂, hrests₁.fileRefs]
  · intro hlong'
    rw [wp_pure]
    exact hlong hlong' s₁ hstays₁

/-- What `pwd` returns from a directory below the root, with part of the path in the buffer. -/
theorem pwdLoop_spec {st fuel d : ℕ} {di : Dirent} {ns : List (List UInt8)} {str : List UInt8}
    (hs : s.Calling) (hd : s.fs.state.ns.Below d ns) (hcwd : s.cwdNo = d)
    (hfuel : ns.length + 132608 < fuel) (hstr : str.length ≤ PWD_BUF) :
    wp (pwdLoop junk st di fuel str) (fun r s' => s.Stays s' ∧
      ((s.Spare ∧ (slashed ns ++ str).length ≤ PWD_BUF ∧
          r = some (SLASH :: (slashed ns ++ str).tail)) ∨
        (¬ (s.Spare ∧ (slashed ns ++ str).length ≤ PWD_BUF) ∧ r = none))) s.Stops s := by
  induction fuel generalizing s d ns str with
  | zero => exact (Nat.not_lt_zero _ hfuel).elim
  | succ fuel ih =>
    have hns := hs.inv
    obtain ⟨hdist, -⟩ := reachable_distinct hs.reach
    have hdir := hd.dir hns
    have hdot : lookup s.fs.state.ns.objs s.cwdNo DOT = some d := by
      rw [hcwd, Ns.lookup_dot hns hdist hdir]
    have hdotdot : lookup s.fs.state.ns.objs s.cwdNo DOTDOT = some (s.fs.state.ns.up d) := by
      rw [hcwd, Ns.lookup_dotdot hns hdist hdir]
    have henter := pwd_enter junk hs hdir (hd.up_dir hns) hdot hdotdot
    simp only [wp_bind, wp_pure] at henter
    rw [pwdLoop]
    simp only [wp_bind]
    refine henter.imp fun r s₁ hr => hr.imp fun r' s₂ hr' => ?_
    obtain ⟨hstays₂, hcwd₂, ⟨hfull, hneg⟩ | ⟨fd, k, pfd, k', hspare, hfds, hkk, hfd, hpfd, hk, hk',
      hfds₂, hrefs₂, hread, hread'⟩⟩ := hr'
    · rw [if_pos hneg, wp_pure]
      exact ⟨hstays₂, Or.inr ⟨fun hall => hfull hall.1, rfl⟩⟩
    cases hfds
    rw [if_neg (by simp [Reply.val]), wp_bind]
    refine (fstat_spec hstays₂.calling hread).imp ?_
    intro r s₃ hs₃
    obtain ⟨hrests₃, hreads₃, type, size, rfl⟩ := hs₃
    rw [if_neg (by simp [Reply.val]), wp_bind]
    refine (fstat_spec hrests₃.calling (hreads₃ _ _ _ _ hread')).imp ?_
    intro r s₄ hs₄
    obtain ⟨hrests₄, hreads₄, type', size', rfl⟩ := hs₄
    have hrests := hrests₃.trans hrests₄
    have hstays₄ := hstays₂.trans hrests.toStays
    rw [if_neg (by simp [Reply.val])]
    rw [wp_ite]
    constructor
    -- at the root, which is its own parent, the whole path is in the buffer
    · intro hroot
      obtain rfl : ns = [] := hd.eq_nil_of_up hns (Eq.symm hroot)
      rw [wp_pure]
      exact ⟨hstays₄, Or.inl ⟨hspare, hstr, rfl⟩⟩
    · intro hnot
      have hnot : d ≠ s.fs.state.ns.up d := hnot
      cases hd with
      | root => exact (hnot hns.upRoot.symm).elim
      | @entry d' e _ ns hx hn ht =>
        have hread₄ := hreads₄ _ _ _ _ (hreads₃ _ _ _ _ hread)
        have hread₄' := hreads₄ _ _ _ _ (hreads₃ _ _ _ _ hread')
        rw [hns.parent _ _ _ hn ht] at hread₄'
        have hpath : slashed (ns ++ [(s.fs.state.ns.objs d').label e]) ++ str =
            slashed ns ++ (SLASH :: (s.fs.state.ns.objs d').label e ++ str) := by
          simp [slashed_concat]
        have hlabel : (s₄.fs.state.ns.objs d').label e = (s.fs.state.ns.objs d').label e := by
          rw [hstays₄.objs]
        simp only [List.length_append, List.length_singleton] at hfuel
        rw [hpath]
        refine (pwd_rise hstays₄.calling (hx.congr hstays₄.objs) (hn.congr hstays₄.objs)
          (by rw [hstays₄.objs, ht]) (hrests.cwdNo.trans (hcwd₂.trans hcwd)) hread₄ hread₄' hkk
          (by omega) ?_ ?_).mono
          (fun _ _ h => h) fun _ he => hstays₄.stops he
        · intro hfit s₅ hstays₅ hcwd₅ hfds₅ hrefs₅
          have hstays := hstays₄.trans hstays₅
          -- what was opened has been closed, so as much is free as before
          have hfds : s₅.fds = s.fds := by
            rw [hfds₅, hrests.fds, hfds₂]
            exact update_restore hfd hpfd
          have hrefs : s₅.fileRefs = s.fileRefs := by
            rw [hrefs₅, hrests.fileRefs, hrefs₂]
            exact update_restore hk hk'
          rw [hlabel] at hfit ⊢
          refine (ih hstays.calling (hx.congr hstays.objs) hcwd₅ (by omega) ?_).mono ?_
            fun _ he => hstays₅.stops he
          · simp only [List.length_append, List.length_cons]
            omega
          · intro r s' hs'
            obtain ⟨hstays', hr⟩ := hs'
            rw [Kernel.Spare.congr hfds hrefs] at hr
            exact ⟨hstays.trans hstays', hr⟩
        · -- the assertion fails, and the whole path does not fit either
          intro hlong s₅ hstays₅
          refine ⟨hstays₄.trans hstays₅, Or.inr ⟨fun hall => hlong ?_, rfl⟩⟩
          have hlen := hall.2
          simp only [List.length_append, List.length_cons] at hlen
          rw [hlabel]
          omega

/-- A process in a directory below the root that may make calls. -/
structure Walker where
  s : Kernel
  calling : s.Calling
  dir : s.fs.state.ns.Directory
  here : s.cwdNo = dir.no

end Running

/-! ### Runs that make nothing in removed directories -/

/-- The states of the runs in which nothing is made in a removed directory. -/
abbrev RunningTidily : Type := ((machine Mkfs.ApartImage).restrict Tidily).Reached

theorem RunningTidily.running (s : RunningTidily) : (machine Mkfs.ApartImage).Reachable s.1 :=
  s.2.of_restrict

/-- **Nothing is orphaned.** When no call makes anything in a removed directory, every object on
the disk is found by an absolute path, or has been unlinked and is held by a slot whose last
holder frees it. -/
theorem nothing_orphaned (s : RunningTidily) (no : ℕ) :
    (s.1.fs.state.ns.objs no).type = TYPE_NONE ∨
      (∃ path, ∀ cwd, lookup s.1.fs.state.ns.objs cwd path = some no) ∨
      ∃ j, 0 < (s.1.fs.inodes j).ref ∧ (s.1.fs.inodes j).no = no ∧
        (s.1.fs.inodes j).del = true := by
  by_cases hno : (s.1.fs.state.ns.objs no).type = TYPE_NONE
  · exact Or.inl hno
  obtain ⟨hd, hl⟩ := reachable_distinct s.running
  have hall : ((machine Mkfs.Image).restrict Tidily).Reachable s.1 :=
    Lts.Reachable.mono (S := (machine Mkfs.ApartImage).restrict Tidily) (fun _ => apart_image)
      (fun _ _ _ hstep => hstep) s.2
  obtain ⟨-, -, hr⟩ := reachable_tidy (fun _ _ hc => hc) hall
  right
  rcases hr no hno with rfl | hrem | ⟨d, e, ns, hbelow, hn⟩
  · exact Or.inl ⟨absolute [], fun cwd => lookup_absolute (by simp)⟩
  · exact Or.inr hrem
  · refine Or.inl ⟨absolute (ns ++ [(s.1.fs.state.ns.objs d).label e]), fun cwd => ?_⟩
    rw [lookup_absolute, along_concat, hbelow.along hd, Option.bind_some]
    · exact hn.binding hd
    · intro n hmem
      rcases List.mem_append.mp hmem with hmem | hmem
      · exact hbelow.elem hl n hmem
      · rw [List.mem_singleton.mp hmem]
        exact hl _ _ _ hn

/-! ### Runs that leave directories in directories -/

/-- The states of the runs in which no directory is made in a removed one, and none is unlinked
in which a removed one lies. -/
abbrev RunningCalmly : Type := ((machine Mkfs.Image).restrict Calmly).Reached

/-- What an entry of a directory names when directories lie in directories. -/
theorem Ns.Upright.entry {s : Ns} {d e : ℕ} (h : s.Inv) (hu : s.Upright) (hd : s.Dir d)
    (he : e < (s.objs d).count) (hz : (s.objs d).target e ≠ 0) :
    (s.objs ((s.objs d).target e)).type ≠ TYPE_NONE := by
  have hused {x : ℕ} (hx : s.Dir x) : (s.objs x).type ≠ TYPE_NONE := by
    rw [hx]
    decide
  by_cases hdot : e = 0
  · rw [hdot, (h.shape d hd).dot]
    exact hused hd
  by_cases hdotdot : e = 1
  · rw [hdotdot]
    exact hused (hu.dir d hd)
  · exact (h.named d e _ ⟨hd, by omega, he, rfl, hz⟩).2.1

/-- A path leads to the root or to what an entry names. -/
theorem lookup_cases {objs : ℕ → Obj} {cwd no : ℕ} {path : List UInt8}
    (h : lookup objs cwd path = some no) : no = 1 ∨ ∃ d e, (objs d).type = TYPE_DIR ∧
      e < (objs d).count ∧ (objs d).target e = no ∧ no ≠ 0 := by
  rw [← resolve_lookup, resolve] at h
  split at h
  · split at h
    · cases h
      exact Or.inl rfl
    · cases h
  · cases hparent : resolveParent objs cwd path with
    | none => simp [hparent] at h
    | some q =>
      obtain ⟨d, name⟩ := q
      rw [hparent] at h
      simp only [Option.map_eq_some_iff] at h
      obtain ⟨e, hfind, rfl⟩ := h
      obtain ⟨hlt, hz, -, -⟩ := Obj.find_eq_some hfind
      exact Or.inr ⟨d, e, (resolveParent_some_iff.mp hparent).1, hlt, rfl, hz⟩

/-- **No entry dangles.** When the calls keep directories in directories, every entry of every
directory, removed ones included, names something on the disk, `..` names a directory, and no
path leads to a free inode from anywhere. -/
theorem no_entry_dangles (s : RunningCalmly) :
    (∀ d, ¬ s.1.fs.state.ns.Dir d ∨ (s.1.fs.state.ns.Dir (s.1.fs.state.ns.up d) ∧
      ∀ e < (s.1.fs.state.ns.objs d).count, (s.1.fs.state.ns.objs d).target e = 0 ∨
        (s.1.fs.state.ns.objs ((s.1.fs.state.ns.objs d).target e)).type ≠ TYPE_NONE)) ∧
    ∀ cwd path, (lookup s.1.fs.state.ns.objs cwd path).all
      fun no => (s.1.fs.state.ns.objs no).type ≠ TYPE_NONE := by
  have hns : s.1.fs.state.ns.Inv := (reachable_inOrder s.2.of_restrict).tables.fs.inv
  have hu := reachable_upright (fun _ _ hc => hc) s.2
  constructor
  · intro d
    by_cases hd : s.1.fs.state.ns.Dir d
    · refine Or.inr ⟨hu.dir d hd, fun e he => ?_⟩
      by_cases hz : (s.1.fs.state.ns.objs d).target e = 0
      · exact Or.inl hz
      · exact Or.inr (hu.entry hns hd he hz)
    · exact Or.inl hd
  · intro cwd path
    cases hlook : lookup s.1.fs.state.ns.objs cwd path with
    | none => rfl
    | some no =>
      rw [Option.all_some, decide_eq_true_eq]
      rcases lookup_cases hlook with rfl | ⟨d, e, hd, he, rfl, hz⟩
      · rw [hns.root]
        decide
      · exact hu.entry hns hd he hz

end Oslab
