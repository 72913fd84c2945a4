/-
# Directories as maps

A directory maps names to inode numbers. A path is looked up name by name, starting
at the root or the working directory; making a file adds one binding, unlinking it
takes one away, and every other binding stays.
-/
import Oslab.Elements
import Oslab.Runs

namespace Oslab

open Lib Lib.Prog

/-- What a directory binds a name to. -/
def binding (objs : ℕ → Obj) (d : ℕ) (name : List UInt8) : Option ℕ :=
  if (objs d).type = TYPE_DIR then ((objs d).find name).map (objs d).target else none

/-- One name after the other. -/
def along (objs : ℕ → Obj) (no : ℕ) (names : List (List UInt8)) : Option ℕ :=
  names.foldlM (binding objs) no

/-- The names of a path: its components, each cut to `MAX_NAME` bytes. -/
def names (path : List UInt8) : List (List UInt8) := (components path).map (·.take MAX_NAME)

/-- Where a path starts. -/
def start (cwd : ℕ) (path : List UInt8) : ℕ := if path.head? = some SLASH then 1 else cwd

/-- What a path leads to; the empty path leads nowhere. -/
def lookup (objs : ℕ → Obj) (cwd : ℕ) (path : List UInt8) : Option ℕ :=
  if path = [] then none else along objs (start cwd path) (names path)

section Paths

variable {objs objs' : ℕ → Obj} {path rest name : List UInt8} {no d cwd : ℕ}

theorem binding_dir (h : (objs d).type = TYPE_DIR) :
    binding objs d name = ((objs d).find name).map (objs d).target := if_pos h

theorem binding_other (h : (objs d).type ≠ TYPE_DIR) : binding objs d name = none := if_neg h

@[simp] theorem along_nil : along objs no [] = some no := rfl

@[simp] theorem along_cons (ns : List (List UInt8)) :
    along objs no (name :: ns) = (binding objs no name).bind (along objs · ns) := by
  rw [along, List.foldlM_cons]
  rfl

theorem along_concat (ns : List (List UInt8)) :
    along objs no (ns ++ [name]) = (along objs no ns).bind (binding objs · name) := by
  induction ns generalizing no with
  | nil => simp
  | cons n ns ih =>
    rw [List.cons_append, along_cons, along_cons, Option.bind_assoc]
    exact congrArg _ (funext fun x => ih)

/-- With fewer bindings fewer names lead anywhere. -/
theorem along_mono (h : ∀ x n y, binding objs' x n = some y → binding objs x n = some y) {y : ℕ}
    {ns : List (List UInt8)} (hy : along objs' no ns = some y) : along objs no ns = some y := by
  induction ns generalizing no with
  | nil => exact hy
  | cons n ns ih =>
    rw [along_cons, Option.bind_eq_some_iff] at hy ⊢
    obtain ⟨x, hx, hrest⟩ := hy
    exact ⟨x, h _ _ _ hx, ih hrest⟩

/-! ### Paths are looked up name by name -/

theorem names_none (h : skipelem path = none) : names path = [] := by
  unfold skipelem at h
  by_cases hnil : path.dropWhile (· = SLASH) = []
  · rw [names, components, fields_eq_nil hnil, List.map_nil]
  · simp [hnil] at h

theorem names_some (h : skipelem path = some (rest, name)) :
    names path = name :: names rest ∧ (rest = [] ↔ names rest = []) := by
  unfold skipelem at h
  by_cases hnil : path.dropWhile (· = SLASH) = []
  · simp [hnil] at h
  · simp only [hnil, if_false, Option.some.injEq, Prod.mk.injEq] at h
    obtain ⟨rfl, rfl⟩ := h
    simp only [names, components, List.map_eq_nil_iff]
    constructor
    · rw [fields_eq_cons hnil, List.map_cons, fields_dropWhile]
      simp only [← decide_not]
    · -- what is left does not begin with a slash
      rw [fields_dropWhile, fields_eq_nil_iff]

theorem skipelem_shorter (h : skipelem path = some (rest, name)) : rest.length < path.length := by
  unfold skipelem at h
  by_cases hnil : path.dropWhile (· = SLASH) = []
  · simp [hnil] at h
  · simp only [hnil, if_false, Option.some.injEq, Prod.mk.injEq] at h
    obtain ⟨rfl, -⟩ := h
    obtain ⟨c, cs, hcons⟩ := List.exists_cons_of_ne_nil hnil
    have hc : c ≠ SLASH := by simpa using head_dropWhile hcons
    have hle : (c :: cs).length ≤ path.length := hcons ▸ (List.dropWhile_suffix _).length_le
    rw [hcons, List.dropWhile_cons_of_pos (by simpa using hc)]
    have hle₁ := (List.dropWhile_suffix (l := cs) (· ≠ SLASH)).length_le
    have hle₂ := (List.dropWhile_suffix (l := cs.dropWhile (· ≠ SLASH)) (· = SLASH)).length_le
    rw [List.length_cons] at hle
    omega

/-- The walk to the directory of the last name. -/
theorem walk_along (objs : ℕ → Obj) {fuel : ℕ} (hfuel : path.length < fuel) (no : ℕ) :
    walk objs fuel no path = (names path).getLast?.bind fun name =>
      (along objs no (names path).dropLast).bind fun d =>
        if (objs d).type = TYPE_DIR then some (d, name) else none := by
  induction fuel generalizing no path with
  | zero => exact (Nat.not_lt_zero _ hfuel).elim
  | succ fuel ih =>
    rw [walk]
    cases hskip : skipelem path with
    | none =>
      rw [names_none hskip]
      rfl
    | some q =>
      obtain ⟨rest, name⟩ := q
      obtain ⟨hnames, hlast⟩ := names_some hskip
      rw [hnames]
      simp only
      by_cases hrest : rest = []
      · rw [hlast.mp hrest]
        by_cases hdir : (objs no).type = TYPE_DIR <;> simp [hdir, hrest]
      · have hne : names rest ≠ [] := fun h => hrest (hlast.mpr h)
        rw [List.getLast?_cons_of_ne_nil hne, List.dropLast_cons_of_ne_nil hne]
        simp only [along_cons, hrest, if_false]
        by_cases hdir : (objs no).type = TYPE_DIR
        · simp only [hdir, ne_eq, not_true_eq_false, if_false, binding_dir hdir]
          cases hfind : (objs no).find name with
          | none => cases (names rest).getLast? <;> rfl
          | some e =>
            simp only [Option.map_some, Option.bind_some]
            refine ih ?_ _
            have hshort := skipelem_shorter hskip
            omega
        · simp only [hdir, ne_eq, not_false_eq_true, if_true, binding_other hdir, Option.bind_none]
          cases (names rest).getLast? <;> rfl

theorem resolveParent_along (objs : ℕ → Obj) (cwd : ℕ) (path : List UInt8) :
    resolveParent objs cwd path = (names path).getLast?.bind fun name =>
      (along objs (start cwd path) (names path).dropLast).bind fun d =>
        if (objs d).type = TYPE_DIR then some (d, name) else none :=
  walk_along objs (Nat.lt_succ_self _) _

/-- **Paths are looked up name by name.** -/
theorem resolve_lookup (objs : ℕ → Obj) (cwd : ℕ) (path : List UInt8) :
    resolve objs cwd path = lookup objs cwd path := by
  unfold resolve lookup
  cases hskip : skipelem path with
  | none =>
    rw [if_pos rfl, names_none hskip, along_nil, start]
    cases path with
    | nil => rfl
    | cons c path =>
      have hc : c = SLASH := by
        unfold skipelem at hskip
        by_contra hne
        rw [List.dropWhile_cons_of_neg (by simpa using hne)] at hskip
        simp at hskip
      simp [hc]
  | some q =>
    obtain ⟨rest, name⟩ := q
    have hne : path ≠ [] := by
      rintro rfl
      cases hskip
    have hnames : names path ≠ [] := by
      rw [(names_some hskip).1]
      simp
    obtain ⟨init, last, hlast⟩ := List.eq_nil_or_concat (names path) |>.resolve_left hnames
    rw [if_neg (by simp), if_neg hne, resolveParent_along, hlast, List.concat_eq_append,
      List.getLast?_concat, List.dropLast_concat, along_concat]
    cases along objs (start cwd path) init with
    | none => rfl
    | some d =>
      simp only [Option.bind_some]
      by_cases hdir : (objs d).type = TYPE_DIR
      · rw [if_pos hdir, binding_dir hdir]
      · rw [if_neg hdir, binding_other hdir]

/-- The directory of the last name, in terms of bindings. -/
theorem resolveParent_some_iff {objs : ℕ → Obj} : resolveParent objs cwd path = some (d, name) ↔
    (objs d).type = TYPE_DIR ∧ ∃ init, names path = init ++ [name] ∧
      along objs (start cwd path) init = some d := by
  rw [resolveParent_along]
  rcases List.eq_nil_or_concat (names path) with hnil | ⟨init, last, hlast⟩
  · simp [hnil]
  · rw [hlast, List.concat_eq_append, List.getLast?_concat, List.dropLast_concat]
    simp only [Option.bind_some, Option.bind_eq_some_iff, Option.ite_none_right_eq_some,
      Option.some.injEq, Prod.mk.injEq]
    constructor
    · intro h
      obtain ⟨d', hd', hdir, rfl, rfl⟩ := h
      exact ⟨hdir, init, rfl, hd'⟩
    · intro h
      obtain ⟨hdir, init', heq, hd⟩ := h
      obtain ⟨rfl, hname⟩ := List.append_inj' heq rfl
      cases hname
      exact ⟨d, hd, hdir, rfl, rfl⟩

end Paths

/-! ### Events and bindings -/

namespace Ns

variable {s s' : Ns} {ev : NsEvent} {d e t no x : ℕ} {name n : List UInt8}

/-- When names are distinct, any entry under a name is the one that is found. -/
theorem Distinct.binding_iff (hs : s.Distinct) (hd : s.Dir d) :
    binding s.objs d name = some t ↔ ∃ e < (s.objs d).count, (s.objs d).target e = t ∧ t ≠ 0 ∧
      (s.objs d).label e = name := by
  rw [binding_dir hd, Option.map_eq_some_iff]
  constructor
  · intro h
    obtain ⟨e, hfind, rfl⟩ := h
    obtain ⟨hlt, hz, hlabel, -⟩ := Obj.find_eq_some hfind
    exact ⟨e, hlt, rfl, hz, hlabel⟩
  · intro h
    obtain ⟨e, hlt, rfl, hz, hlabel⟩ := h
    cases hfind : (s.objs d).find name with
    | none => exact (Obj.find_eq_none.mp hfind e hlt hz hlabel).elim
    | some e' =>
      obtain ⟨hlt', hz', hlabel', -⟩ := Obj.find_eq_some hfind
      exact ⟨e', rfl, by rw [hs d hd e' hlt' e hlt hz' hz (hlabel'.trans hlabel.symm)]⟩

/-- The bindings of a directory none of whose entries the event makes or clears. -/
theorem Step.binding_eq (h : s.Inv) (hs : s.Distinct) (hstep : Step s ev s') (hd : s.Dir x)
    (hd' : s'.Dir x) (hcreate : ∀ name type no, ev = .create x name type no → n ≠ name)
    (hunlink : ∀ e t, ev = .unlink x e t → (s.objs x).label e ≠ n) :
    binding s'.objs x n = binding s.objs x n := by
  have hs' := hstep.distinct h hs
  ext t
  rw [hs'.binding_iff hd', hs.binding_iff hd]
  constructor
  · intro hb
    obtain ⟨e, hlt, htarget, hz, hlabel⟩ := hb
    rcases hstep.of_entry h hd' hlt (htarget ▸ hz) with ⟨-, hlt', hsame⟩ |
        ⟨name, type, no, hev, -, -, -, -, hn⟩ | ⟨_, _, -, -, hnew, -⟩
    · rw [Obj.target, hsame] at htarget
      rw [Obj.label, hsame] at hlabel
      exact ⟨e, hlt', htarget, hz, hlabel⟩
    · exact (hcreate name type no hev (hlabel.symm.trans hn.label)).elim
    · exact (hnew hd).elim
  · intro hb
    obtain ⟨e, hlt, htarget, hz, hlabel⟩ := hb
    rcases hstep.entry h hd hlt (htarget ▸ hz) with ⟨-, hlt', hsame⟩ | ⟨rfl, hrem⟩ | ⟨t', hev⟩
    · refine ⟨e, hlt', ?_, hz, ?_⟩
      · rw [Obj.target, hsame]
        exact htarget
      · rw [Obj.label, hsame]
        exact hlabel
    · cases hstep with
      | drop _ hno => exact (hno hrem).elim
      | free =>
        simp only [Dir, Function.update_self] at hd'
        cases hd'
    · exact (hunlink e t' hev hlabel).elim

/-- Making an object adds one binding; a new directory has two. -/
theorem Step.binding_create {type : UInt32} (h : s.Inv) (hs : s.Distinct)
    (hstep : Step s (.create d name type no) s') :
    binding s.objs d name = none ∧ binding s'.objs d name = some no ∧
      (s.objs no).type = TYPE_NONE ∧ (s'.objs no).type = type ∧
      (∀ x n, x ≠ no → (x, n) ≠ (d, name) → binding s'.objs x n = binding s.objs x n) ∧
      ∀ n, binding s'.objs no n = if type = TYPE_DIR then
        if n = DOT then some no else if n = DOTDOT then some d else none else none := by
  have hs' := hstep.distinct h hs
  have hnamed := hstep.created h
  -- only the new object gets another type
  have hkeep (x : ℕ) (hx : x ≠ no) : (s'.objs x).type = (s.objs x).type := by
    cases hstep with
    | create _ _ _ _ _ _ _ _ _ _ =>
      by_cases hxd : x = d
      · subst hxd
        rw [objs_made_dir s _ _ hx]
        rfl
      · rw [objs_made_other hxd hx]
  obtain ⟨hd, hpos, hfree, htype, hfind, hentries⟩ : s.Dir d ∧ 1 ≤ no ∧
      (s.objs no).type = TYPE_NONE ∧ (s'.objs no).type = type ∧ (s.objs d).find name = none ∧
      (type = TYPE_DIR → ((s'.objs no).entry 0).Names no DOT ∧
        ((s'.objs no).entry 1).Names d DOTDOT ∧ (s'.objs no).count = 2) := by
    cases hstep with
    | create hd hpos _ hfree hsize _ _ hfind _ ho =>
      rw [objs_made_new]
      refine ⟨hd, hpos, hfree, ho.type_eq, hfind, ?_⟩
      rintro rfl
      obtain ⟨hdot, hdotdot, hcount, -⟩ := newObj_entries ho hsize
      exact ⟨hdot, hdotdot, hcount⟩
  have hne : d ≠ no := by
    rintro rfl
    rw [Dir, hfree] at hd
    cases hd
  refine ⟨by rw [binding_dir hd, hfind]; rfl, ?_, hfree, htype, fun x n hx hxn => ?_, fun n => ?_⟩
  · rw [hs'.binding_iff hnamed.dir]
    refine ⟨_, hnamed.lt, hnamed.target, hnamed.ne, ?_⟩
    cases hstep with
    | create _ _ _ _ _ _ _ _ hdirent _ =>
      rw [objs_made_dir s _ _ hne, Obj.label_put_self hdirent.length]
      exact hdirent.label
  -- an old object binds what it did, but for the name in `d`
  · by_cases hdx : s.Dir x
    · refine hstep.binding_eq h hs hdx ?_ (fun name' _ _ hev heq => ?_) fun _ _ hev => by cases hev
      · rw [Dir, hkeep x hx]
        exact hdx
      · cases hev
        exact hxn (by rw [heq])
    · rw [binding_other hdx, binding_other (by rw [hkeep x hx]; exact hdx)]
  -- and a new directory binds what its two entries say
  · by_cases hdir : type = TYPE_DIR
    · obtain ⟨hdot, hdotdot, hcount⟩ := hentries hdir
      have hd' : s'.Dir no := htype.trans hdir
      have hdpos : d ≠ 0 := by
        have := (h.ofDir hd).1
        omega
      rw [if_pos hdir]
      ext t
      rw [hs'.binding_iff hd', hcount]
      constructor
      · intro hb
        obtain ⟨e, hlt, rfl, -, rfl⟩ := hb
        rcases (show e = 0 ∨ e = 1 by omega) with rfl | rfl
        · rw [Obj.label, hdot.label, if_pos rfl, Obj.target, hdot.inode]
        · rw [Obj.label, hdotdot.label, if_neg (by decide), if_pos rfl, Obj.target, hdotdot.inode]
      · intro hb
        by_cases hn : n = DOT
        · rw [if_pos hn] at hb
          cases hb
          exact ⟨0, by norm_num, hdot.inode, by omega, hdot.label.trans hn.symm⟩
        · rw [if_neg hn] at hb
          by_cases hn' : n = DOTDOT
          · rw [if_pos hn'] at hb
            cases hb
            exact ⟨1, by norm_num, hdotdot.inode, hdpos, hdotdot.label.trans hn'.symm⟩
          · rw [if_neg hn'] at hb
            cases hb
    · rw [if_neg hdir, binding_other (by rw [htype]; exact hdir)]

/-- Clearing an entry takes one binding away. -/
theorem Step.binding_unlink (h : s.Inv) (hs : s.Distinct) (hstep : Step s (.unlink d e t) s') :
    binding s.objs d ((s.objs d).label e) = some t ∧
      binding s'.objs d ((s.objs d).label e) = none ∧
      ∀ x n, (x, n) ≠ (d, (s.objs d).label e) → binding s'.objs x n = binding s.objs x n := by
  have hs' := hstep.distinct h hs
  have hkeep (x : ℕ) : (s'.objs x).type = (s.objs x).type := by
    cases hstep with
    | remove => exact type_clear x
  have hn : s.Named d e t := by
    cases hstep with
    | remove ht _ _ => exact ht
  have hz : (s.objs d).target e ≠ 0 := by
    rw [hn.target]
    exact hn.ne
  have hd' : s'.Dir d := (hkeep d).trans hn.dir
  refine ⟨(hs.binding_iff hn.dir).mpr ⟨e, hn.lt, hn.target, hn.ne, rfl⟩, ?_, fun x n hxn => ?_⟩
  · by_contra hsome
    obtain ⟨y, hy⟩ := Option.ne_none_iff_exists'.mp hsome
    obtain ⟨e', hlt, htarget, hy0, hlabel⟩ := (hs'.binding_iff hd').mp hy
    rcases hstep.of_entry h hd' hlt (htarget ▸ hy0) with ⟨-, hlt', hsame⟩ |
        ⟨name, type, no, hev, -⟩ | ⟨_, _, hev, -⟩
    · rw [Obj.label, hsame] at hlabel
      rw [Obj.target, hsame] at htarget
      have htarget' : (s.objs d).target e' = y := htarget
      obtain rfl := hs d hn.dir e' hlt' e hn.lt (htarget' ▸ hy0) hz hlabel
      -- the entry itself is zero
      have hlen : Dirent.zero.name.length = 28 := by simp [Dirent.zero]
      cases hstep with
      | remove =>
        simp only [Function.update_self, Obj.entry_put_self hlen] at hsame
        rw [← hsame] at htarget
        exact hy0 htarget.symm
    · cases hev
    · cases hev
  · by_cases hdx : s.Dir x
    · refine hstep.binding_eq h hs hdx ((hkeep x).trans hdx) (fun _ _ _ hev => (by cases hev))
        fun e' t' hev heq => ?_
      cases hev
      exact hxn (by rw [heq])
    · rw [binding_other hdx, binding_other (by rw [hkeep x]; exact hdx)]

/-- Nothing is bound that was not bound before; what is still there keeps its type, and a
directory its bindings. -/
def Fades (s s' : Ns) : Prop := ∀ x, (s'.objs x).type = TYPE_NONE ∨
  (s'.objs x).type = (s.objs x).type ∧ ∀ n, binding s'.objs x n = binding s.objs x n

theorem Fades.refl (s : Ns) : s.Fades s := fun _ => Or.inr ⟨rfl, fun _ => rfl⟩

theorem Fades.trans {s'' : Ns} (h : s.Fades s') (h' : s'.Fades s'') : s.Fades s'' := by
  intro x
  rcases h' x with hnone | ⟨htype', hb'⟩
  · exact Or.inl hnone
  · rcases h x with hnone | ⟨htype, hb⟩
    · exact Or.inl (htype'.trans hnone)
    · exact Or.inr ⟨htype'.trans htype, fun n => (hb' n).trans (hb n)⟩

/-- An event that neither makes nor clears an entry. -/
theorem Step.fades (h : s.Inv) (hs : s.Distinct) (hstep : Step s ev s')
    (hcreate : ∀ d name type no, ev ≠ .create d name type no)
    (hunlink : ∀ d e t, ev ≠ .unlink d e t) : s.Fades s' := by
  intro x
  by_cases hx : (s'.objs x).type = TYPE_NONE
  · exact Or.inl hx
  · rcases hstep.of_type hx with htype | ⟨d, name, hev, -⟩
    · refine Or.inr ⟨htype, fun n => ?_⟩
      by_cases hdx : s.Dir x
      · exact hstep.binding_eq h hs hdx (htype.trans hdx)
          (fun _ _ _ hev => (hcreate _ _ _ _ hev).elim) fun _ _ hev => (hunlink _ _ _ hev).elim
      · rw [binding_other hdx, binding_other (by rw [htype]; exact hdx)]
    · exact (hcreate _ _ _ _ hev).elim

end Ns

/-! ### Effects and bindings -/

section Effects

variable {st st' : FsState} {evs : List FsEvent} {d no e t : ℕ} {name : List UInt8}

theorem Effects.fades (h : Effects st evs st') (hinv : FsInv st.1 st.2) (hns : st.ns.Inv)
    (hd : st.ns.Distinct) (hevs : ∀ ev ∈ evs, ev.plain = true) :
    st'.ns.Distinct ∧ st.ns.Fades st'.ns := by
  refine h.keep (fun n => n.Distinct ∧ st.ns.Fades n) hinv hns ⟨hd, .refl _⟩ ?_
  intro ev hev s e s' he hs hboth hstep
  obtain ⟨hd, hf⟩ := hboth
  obtain ⟨hcreate, hunlink⟩ := FsEvent.plain_toNs (hevs ev hev) he
  exact ⟨hstep.distinct hs hd, hf.trans (hstep.fades hs hd hcreate hunlink)⟩

theorem Ns.Fades.binding_eq {s s' : Ns} (h : s.Fades s')
    (htype : (s'.objs no).type = TYPE_NONE → (s.objs no).type = TYPE_NONE) (n : List UInt8) :
    binding s'.objs no n = binding s.objs no n := by
  rcases h no with hnone | ⟨-, hb⟩
  · have hnone' := htype hnone
    rw [binding_other (by rw [hnone]; decide), binding_other (by rw [hnone']; decide)]
  · exact hb n

/-- An object that has just been opened stays when its slot is closed or it is truncated. -/
theorem Effects.ending {j : InodePtr} (hlast : ¬ ((st.2 j).ref = 1 ∧ (st.2 j).del = true))
    (h : Effects st evs st') (hend : Ending j no evs) (x : ℕ) :
    (st'.ns.objs x).type = (st.ns.objs x).type := by
  rcases hend with rfl | rfl | rfl
  · cases Lts.Run.of_nil h
    rfl
  · obtain ⟨heff, -⟩ := Lts.Run.of_single h
    cases heff with
    | closed => rfl
    | freed href _ hmark => exact (hlast ⟨href, hmark⟩).elim
  · obtain ⟨heff, -⟩ := Lts.Run.of_single h
    have hsame {D D' : Mem} {I I' : InodePtr → Inode} (htype : (obj D' no).type = (obj D no).type)
        (hother : ∀ no' < 1920, no' ≠ no → obj D' no' = obj D no') :
        ((ns D' I').objs x).type = ((ns D I).objs x).type := by
      by_cases hx : x < 1920
      · rw [objs_ns hx, objs_ns hx]
        by_cases hne : x = no
        · rw [hne, htype]
        · rw [hother x hx hne]
      · simp only [ns_objs, objs, if_neg hx]
    cases heff with
    | wrote _ _ _ ht htype => exact hsame htype fun no' hlt hne => ht.obj_eq hlt hne
    | truncated _ _ _ _ ht htype => exact hsame htype ht.other

/-- What is opened without being made keeps all bindings. -/
theorem Effects.reopened {j : InodePtr} (h : Effects st (.opened j no :: evs) st')
    (hend : Ending j no evs) (hinv : FsInv st.1 st.2) (hns : st.ns.Inv) (hd : st.ns.Distinct)
    (x : ℕ) : (st'.ns.objs x).type = (st.ns.objs x).type ∧
      ∀ n, binding st'.ns.objs x n = binding st.ns.objs x n := by
  obtain ⟨u, hfirst, hrest⟩ := Lts.Run.of_cons h
  obtain ⟨hobjs, -⟩ := Effects.opens_ns (Lts.Run.single hfirst) hinv hns (by simp)
  have hlast : ¬ ((u.2 j).ref = 1 ∧ (u.2 j).del = true) := by
    obtain ⟨heff, -⟩ := hfirst
    cases heff with
    | opened _ _ ho _ => exact ho.not_last
  have htype : (st'.ns.objs x).type = (st.ns.objs x).type := by
    rw [Effects.ending hlast hrest hend x, hobjs]
  have hf := (Effects.fades h hinv hns hd (by
    intro ev hev
    rcases List.mem_cons.mp hev with rfl | hev
    · rfl
    · exact hend.plain ev hev)).2
  exact ⟨htype, hf.binding_eq fun hnone => htype.symm.trans hnone⟩

end Effects

/-- One binding has been added: of a name that was not bound, to an object that was not there. -/
structure Ns.Adds (s s' : Ns) (d : ℕ) (name : List UInt8) (type : UInt32) (no : ℕ) : Prop where
  before : binding s.objs d name = none
  after : binding s'.objs d name = some no
  free : (s.objs no).type = TYPE_NONE
  kind : (s'.objs no).type = type
  others : ∀ x n, x ≠ no → (x, n) ≠ (d, name) → binding s'.objs x n = binding s.objs x n
  fresh : ∀ n, binding s'.objs no n = if type = TYPE_DIR then
    if n = DOT then some no else if n = DOTDOT then some d else none else none

/-- One binding has been taken away; what it named is gone unless somebody holds it. -/
structure Ns.Drops (s s' : Ns) (d : ℕ) (name : List UInt8) (t : ℕ) : Prop where
  before : binding s.objs d name = some t
  after : binding s'.objs d name = none
  others : ∀ x n, x ≠ t → (x, n) ≠ (d, name) → binding s'.objs x n = binding s.objs x n
  held : t ∈ s.live → s'.objs t = s.objs t
  gone : t ∉ s.live → (s'.objs t).type = TYPE_NONE

/-! ### The calls -/

/-- The states that are reached from images of files whose names differ. -/
abbrev RunningApart : Type := (machine Mkfs.ApartImage).Reached

/-- The steps from them. -/
abbrev Taken : Type := {x : Kernel × Label × Kernel //
  (machine Mkfs.ApartImage).Reachable x.1 ∧ x.1.step x.2.1 x.2.2}

/-- The number of the working directory of the current process. -/
def Kernel.cwdNo (s : Kernel) : ℕ := ((s.pcb s.curr).cwd.map fun c => (s.fs.inodes c).no).getD 0

theorem RunningApart.inOrder (s : RunningApart) : s.1.InOrder :=
  reachable_inOrder (reachable_apart s.2)

/-- The current process has a working directory. -/
theorem cwd_curr {s : Kernel} (hs : s.Sound) (h : s.InOrder) :
    ∃ c, (s.pcb s.curr).cwd = some c ∧ s.cwdNo = (s.fs.inodes c).no := by
  have hrun : (s.core.thread s.curr).status = .running := hs.runs
  obtain ⟨c, hc⟩ := h.cwd s.curr (by simp [Core.Live, hrun])
  refine ⟨c, hc, ?_⟩
  rw [Kernel.cwdNo, hc]
  rfl

/-- **A path is looked up name by name.** In every state `iopen` returns a slot with the number
that the names of the path lead to, from the root or the working directory, or null when they
lead nowhere; it changes no object. -/
theorem path_lookup (s : RunningApart) (path : CString) :
    wp (kopen path.1 TYPE_NONE) (fun r s' => s'.fs.state.ns.objs = s.1.fs.state.ns.objs ∧
      r.map (fun j => (s'.fs.inodes j).no) = lookup s.1.fs.state.ns.objs s.1.cwdNo path.1)
      (DirAbort s.1.fs.disk.bytes s.1.fs.inodes 1) s.1 := by
  have horder := s.inOrder
  obtain ⟨c, hc, hno⟩ := cwd_curr (reachable_sound s.2) horder
  refine (kopen_spec horder.tables hc path.2).imp ?_
  intro r s' hs'
  obtain ⟨fs, q, evs, rfl, hok, rfl, heff, hopen, hslot⟩ := hs'
  have hevs : ∀ ev ∈ evs, ev = .grow ∨ ∃ j no, ev = .opened j no := by
    rcases hopen.of_none with ⟨-, rfl, -⟩ | ⟨j, no, -, rfl, -⟩ <;> simp
  obtain ⟨hobjs, -⟩ := Effects.opens_ns heff horder.tables.fs.holds.2 horder.tables.fs.inv hevs
  refine ⟨hobjs, ?_⟩
  rw [← resolve_lookup, hno]
  rcases hopen.of_none with ⟨rfl, -, hres⟩ | ⟨j, no, rfl, -, hres⟩
  · exact hres.symm
  · simp only [Option.map_some]
    rw [(hslot j no rfl).2]
    exact hres.symm

/-- **Only two calls change names.** In every step that is no `sys_open` and no `sys_unlink`
nothing gets a name, and whatever is still there keeps its type and, if it is a directory, all
its bindings. -/
theorem names_stay (x : Taken) :
    (∃ path mode junk, x.1.2.1.event = .call (.open path mode) junk) ∨
      (∃ path junk, x.1.2.1.event = .call (.unlink path) junk) ∨
      x.1.1.fs.state.ns.Fades x.1.2.2.fs.state.ns := by
  obtain ⟨⟨s, l, s'⟩, hreach, hstep⟩ := x
  have horder := reachable_inOrder (reachable_apart hreach)
  obtain ⟨-, evs, heff, hmakes⟩ := Kernel.step.inOrder (reachable_sound hreach) horder hstep
  have hfades (hevs : ∀ ev ∈ evs, ev.plain = true) : s.fs.state.ns.Fades s'.fs.state.ns :=
    (Effects.fades heff horder.tables.fs.holds.2 horder.tables.fs.inv
      (reachable_distinct hreach).1 hevs).2
  rcases hmakes.does with rfl | ⟨call, junk, hevent, hdoes⟩
  · exact Or.inr (Or.inr (hfades (by simp)))
  · cases hdoes with
    | plain hevs => exact Or.inr (Or.inr (hfades hevs))
    | create => exact Or.inl ⟨_, _, junk, hevent⟩
    | unlink => exact Or.inr (Or.inl ⟨_, junk, hevent⟩)

/-- What making an object and then closing or truncating it does to the bindings. -/
theorem Effects.adds {st st' : FsState} {evs : List FsEvent} {d no : ℕ} {name : List UInt8}
    {type : UInt32} {j : InodePtr} (h : Effects st (.created d name type j no :: evs) st')
    (hend : Ending j no evs) (hinv : FsInv st.1 st.2) (hns : st.ns.Inv) (hd : st.ns.Distinct) :
    st.ns.Adds st'.ns d name type no := by
  obtain ⟨u, hfirst, hrest⟩ := Lts.Run.of_cons h
  obtain ⟨hinvu, hnsu⟩ := Effects.invariant (Lts.Run.single hfirst) hinv hns
  have hlast : ¬ ((u.2 j).ref = 1 ∧ (u.2 j).del = true) := by
    obtain ⟨heff, -⟩ := hfirst
    cases heff with
    | created _ _ _ _ _ hcr => exact hcr.opened.not_last
  have hstep : Ns.Step st.ns (.create d name type no) u.ns := by
    rcases hfirst.1.ns hinv with heq | ⟨e, he, hone⟩
    · -- the event changes the namespace: the number was free
      obtain ⟨heff, -⟩ := hfirst
      cases heff with
      | created _ _ htype _ _ hcr =>
        have hkind := congrArg (fun n : Ns => (n.objs no).type) heq
        simp only [FsState.ns, objs_ns hcr.lt, hcr.free, hcr.child.type_eq] at hkind
        exact (htype hkind).elim
    · cases he
      exact hone
  obtain ⟨hbefore, hafter, hfree, hkind, hothers, hfresh⟩ := hstep.binding_create hns hd
  have hdu := hstep.distinct hns hd
  have hf := (Effects.fades hrest hinvu hnsu hdu hend.plain).2
  have hsame (x : ℕ) (n : List UInt8) : binding st'.ns.objs x n = binding u.ns.objs x n :=
    hf.binding_eq (fun hnone => (Effects.ending hlast hrest hend x).symm.trans hnone) n
  refine ⟨hbefore, (hsame d name).trans hafter, hfree, ?_, fun x n hx hxn => ?_, fun n => ?_⟩
  · exact (Effects.ending hlast hrest hend no).trans hkind
  · exact (hsame x n).trans (hothers x n hx hxn)
  · exact (hsame no n).trans (hfresh n)

/-- A call of `sys_open` makes an object: there are a free descriptor and a free file, the mode
asks for it, and the path leads nowhere but its directory is there. -/
def Kernel.WillMake (s : Kernel) (path : List UInt8) (mode : ℕ) : Prop :=
  (∃ fd, (s.pcb s.curr).files fd = none) ∧ (∃ k, (s.files k).ref = 0) ∧
    openType mode ≠ TYPE_NONE ∧ lookup s.fs.state.ns.objs s.cwdNo path = none ∧
    resolveParent s.fs.state.ns.objs s.cwdNo path ≠ none

/-- What `fopen` does to the bindings. -/
theorem Fopened.binds {s s₁ : Kernel} {r : Option FilePtr} {evs : List FsEvent} {mode : ℕ}
    {path : List UInt8} (hok : s.fs.Ok) (hd : s.fs.state.ns.Distinct)
    (h : Fopened s s.cwdNo path mode r evs s₁) (hfd : ∃ fd, (s.pcb s.curr).files fd = none)
    (heff : Effects s.fs.state evs s₁.fs.state) :
    (s.WillMake path mode ∧ ∃ d name no,
        resolveParent s.fs.state.ns.objs s.cwdNo path = some (d, name) ∧
        s.fs.state.ns.Adds s₁.fs.state.ns d name (openType mode) no) ∨
      (¬ s.WillMake path mode ∧ ∀ x, (s₁.fs.state.ns.objs x).type = (s.fs.state.ns.objs x).type ∧
        ∀ n, binding s₁.fs.state.ns.objs x n = binding s.fs.state.ns.objs x n) := by
  have hinv := hok.holds.2
  have hns := hok.inv
  -- the object is there, or it is made
  have hopening {k : FilePtr} {j : InodePtr} {no : ℕ} {evs' rest : List FsEvent}
      (hk : (s.files k).ref = 0)
      (hopen : Opening s.fs s.cwdNo path (openType mode) (some (j, no)) evs')
      (hend : Ending j no rest) (heff : Effects s.fs.state (evs' ++ rest) s₁.fs.state) :
      (s.WillMake path mode ∧ ∃ d name no,
          resolveParent s.fs.state.ns.objs s.cwdNo path = some (d, name) ∧
          s.fs.state.ns.Adds s₁.fs.state.ns d name (openType mode) no) ∨
        (¬ s.WillMake path mode ∧ ∀ x, (s₁.fs.state.ns.objs x).type = (s.fs.state.ns.objs x).type ∧
          ∀ n, binding s₁.fs.state.ns.objs x n = binding s.fs.state.ns.objs x n) := by
    cases hopen with
    | found hres =>
      refine Or.inr ⟨fun hmake => ?_, Effects.reopened heff hend hinv hns hd⟩
      have hnone := hmake.2.2.2.1
      rw [← resolve_lookup] at hnone
      have hres' : resolve s.fs.state.ns.objs s.cwdNo path = some no := hres
      rw [hnone] at hres'
      cases hres'
    | @created _ _ d name htype hres hparent =>
      have hparent' : resolveParent s.fs.state.ns.objs s.cwdNo path = some (d, name) := hparent
      refine Or.inl ⟨⟨hfd, ⟨k, hk⟩, htype, (resolve_lookup _ _ _).symm.trans hres, ?_⟩, d, name, no,
        hparent', Effects.adds heff hend hinv hns hd⟩
      rw [hparent']
      simp
  cases h with
  | full hfull =>
    refine Or.inr ⟨fun hmake => ?_, fun x => ?_⟩
    · obtain ⟨k, hk⟩ := hmake.2.1
      exact hfull k hk
    · exact ⟨rfl, fun _ => rfl⟩
  | absent hk hopen =>
    cases hopen with
    | absent hres hwhy =>
      refine Or.inr ⟨fun hmake => ?_, fun x => ?_⟩
      · exact hwhy.elim hmake.2.2.1 hmake.2.2.2.2
      · obtain ⟨hobjs, -⟩ := Effects.opens_ns heff hinv hns (by simp)
        rw [hobjs]
        exact ⟨rfl, fun _ => rfl⟩
  | refused hk hopen => exact hopening hk hopen (Or.inr (Or.inl rfl)) heff
  | file hk hopen =>
    refine hopening hk hopen ?_ heff
    split
    · exact Or.inr (Or.inr rfl)
    · exact Or.inl rfl
  | device hk hopen => exact hopening hk hopen (Or.inr (Or.inl rfl)) heff

/-- **Opening adds at most one binding.** In every state `sys_open` makes an object exactly when
a descriptor and a file are free, the mode asks for it and only the last name is missing; then it
binds that name in its directory, and no other binding changes. Whether it then fails makes no
difference. -/
theorem open_binds (s : RunningApart) (path : CString) (mode : ℕ) :
    wp (sys_open path.1 mode) (fun _ s' =>
      (s.1.WillMake path.1 mode ∧ ∃ d name no,
        resolveParent s.1.fs.state.ns.objs s.1.cwdNo path.1 = some (d, name) ∧
        s.1.fs.state.ns.Adds s'.fs.state.ns d name (openType mode) no) ∨
      (¬ s.1.WillMake path.1 mode ∧
        ∀ x, (s'.fs.state.ns.objs x).type = (s.1.fs.state.ns.objs x).type ∧
          ∀ n, binding s'.fs.state.ns.objs x n = binding s.1.fs.state.ns.objs x n))
      (OpenAbort s.1 s.1.cwdNo path.1 mode) s.1 := by
  have horder := s.inOrder
  obtain ⟨c, hc, hno⟩ := cwd_curr (reachable_sound s.2) horder
  have hok := horder.tables.fs
  have hd := (reachable_distinct s.2).1
  rw [hno]
  refine (sys_open_spec horder.tables hc path.2).imp ?_
  intro o s' hs'
  rw [← hno] at hs' ⊢
  obtain ⟨-, evs, heff, ⟨-, ⟨hfull, rfl, -⟩ | ⟨hfd, hopen⟩⟩ | ⟨fd, k, s₁, hfd, -, hopen, rfl⟩⟩ := hs'
  · refine Or.inr ⟨fun hmake => ?_, fun x => ⟨rfl, fun _ => rfl⟩⟩
    obtain ⟨fd, hfd⟩ := hmake.1
    exact hfull fd hfd
  · exact hopen.binds hok hd hfd heff
  · have hbinds := hopen.binds hok hd ⟨fd, hfd⟩ heff
    exact hbinds

/-- A name that has been taken away does not lead anywhere any more. -/
theorem Ns.Drops.lookup_none {s s' : Ns} {cwd d t : ℕ} {path name : List UInt8}
    (h : s.Drops s' d name t) (hparent : resolveParent s.objs cwd path = some (d, name)) :
    lookup s'.objs cwd path = none := by
  have hmono (x : ℕ) (n : List UInt8) (y : ℕ) (hy : binding s'.objs x n = some y) :
      binding s.objs x n = some y := by
    by_cases hxt : x = t
    · by_cases hlive : t ∈ s.live
      · rw [← hy, hxt, binding, binding, h.held hlive]
      · rw [hxt, binding_other (by rw [h.gone hlive]; decide)] at hy
        cases hy
    · by_cases hxn : (x, n) = (d, name)
      · cases hxn
        rw [h.after] at hy
        cases hy
      · rw [← h.others x n hxt hxn, hy]
  obtain ⟨-, init, hnames, hinit⟩ := resolveParent_some_iff.mp hparent
  rw [lookup]
  split
  case isTrue => rfl
  case isFalse =>
    rw [hnames, along_concat]
    cases halong : along s'.objs (start cwd path) init with
    | none => rfl
    | some d' =>
      -- the way to the directory has not become another one
      have hsame := along_mono hmono halong
      rw [hinit] at hsame
      cases hsame
      exact h.after

theorem Unlinked.drops {st st' : FsState} {cwd d e t : ℕ} {path name : List UInt8}
    {j k : InodePtr} (hinv : FsInv st.1 st.2) (hns : st.ns.Inv) (hd : st.ns.Distinct)
    (h : Unlinked st.1 st.2 st'.1 st'.2 cwd path d e t name j k) :
    st.ns.Drops st'.ns d name t := by
  have hnamed : st.ns.Named d e t := h.named
  have hlt : d < 1920 := (hns.ofDir hnamed.dir).2
  have htused := (hns.named d e t hnamed).2.1
  have hltt : t < 1920 := (hns.lt htused).2
  obtain ⟨-, -, hlabel, -⟩ := Obj.find_eq_some h.find
  have hlabel' : (st.ns.objs d).label e = name := by
    rw [FsState.ns, objs_ns hlt]
    exact hlabel
  have hsplit : Effects st ([.opened j d, .opened k t, .grow] ++
    [.unlinked d e t k, .closed j d, .closed k t]) st' := h.effects
  obtain ⟨u, hopens, hrest⟩ := hsplit.of_append
  obtain ⟨v, hclear, hcloses⟩ := Lts.Run.of_cons hrest
  obtain ⟨hinvu, hnsu⟩ := Effects.invariant hopens hinv hns
  obtain ⟨hobjs, -⟩ := Effects.opens_ns hopens hinv hns (by simp)
  have hdu := (Effects.fades hopens hinv hns hd (by simp [FsEvent.plain])).1
  obtain ⟨hinvv, hnsv⟩ := Effects.invariant (Lts.Run.single hclear) hinvu hnsu
  have hstep : Ns.Step u.ns (.unlink d e t) v.ns := by
    rcases hclear.1.ns hinvu with heq | ⟨ev, he, hone⟩
    · -- the event changes the namespace: what is cleared was marked by nobody
      obtain ⟨heff, -⟩ := hclear
      have hmarked : u.ns.Named d e t ∧ t ∈ v.ns.removed := by
        cases heff with
        | unlinked _ hn _ hk hkt hm _ _ _ =>
          refine ⟨hn, ?_⟩
          rw [FsState.ns, hm.ns_eq hk hkt]
          exact Set.mem_insert t _
      obtain ⟨hn, hmem⟩ := hmarked
      rw [heq] at hmem
      exact ((hnsu.named d e t hn).2.2 hmem).elim
    · cases he
      exact hone
  obtain ⟨hbefore, hafter, hothers⟩ := hstep.binding_unlink hnsu hdu
  rw [hobjs, hlabel'] at hbefore hafter hothers
  have hf := (Effects.fades hcloses hinvv hnsv (hstep.distinct hnsu hdu) (by
    simp [FsEvent.plain])).2
  have hdir : (st'.ns.objs d).type = TYPE_DIR := by
    have hd := h.named.dir
    rw [Ns.Dir, objs_ns hlt] at hd
    rw [FsState.ns, objs_ns hlt, h.parent]
    exact hd
  have hsame (n : List UInt8) : binding st'.ns.objs d n = binding v.ns.objs d n :=
    hf.binding_eq (fun hnone => by
      rw [hdir] at hnone
      cases hnone) n
  refine ⟨hbefore, (hsame name).trans hafter, fun x n hxt hxn => ?_, fun hlive => ?_, fun hlive => ?_⟩
  · by_cases hxd : x = d
    · subst hxd
      exact (hsame n).trans (hothers x n hxn)
    · have hobj : st'.ns.objs x = st.ns.objs x := by
        by_cases hx : x < 1920
        · rw [FsState.ns, FsState.ns, objs_ns hx, objs_ns hx, h.other x hx hxd hxt]
        · simp only [FsState.ns, ns_objs, objs, if_neg hx]
      rw [binding, binding, hobj]
  · rw [FsState.ns, FsState.ns, objs_ns hltt, objs_ns hltt, h.held hlive]
  · rw [FsState.ns, objs_ns hltt, h.freed hlive]
    rfl

theorem Unlinked.removable {st : FsState} {D : Mem} {I : InodePtr → Inode} {cwd d e t : ℕ}
    {path name : List UInt8} {j k : InodePtr} (hns : st.ns.Inv)
    (h : Unlinked st.1 st.2 D I cwd path d e t name j k) : st.ns.Removable cwd path := by
  have hnamed : st.ns.Named d e t := h.named
  obtain ⟨hpos, hlt⟩ := hns.ofDir hnamed.dir
  have hfind : (st.ns.objs d).find name = some e := by
    rw [FsState.ns, objs_ns hlt]
    exact h.find
  obtain ⟨-, -, -, hfirst⟩ := Obj.find_eq_some hfind
  have hshape := hns.shape d hnamed.dir
  have hup := (hns.upRange d hnamed.dir).1
  have htwo := hnamed.two
  refine ⟨d, name, e, h.resolve, ?_, ?_, hfind, ?_⟩
  · intro hdot
    exact hfirst 0 (by omega) (by rw [hshape.dot]; omega) (hshape.dotName.trans hdot.symm)
  · intro hdotdot
    exact hfirst 1 (by omega) (by rw [Ns.up] at hup; omega) (hshape.dotdotName.trans hdotdot.symm)
  · rw [hnamed.target]
    exact h.empty

/-- **Unlinking takes one binding away.** In every state `sys_unlink` returns 0 exactly when the
path leads to an entry that can be cleared. Then that binding is gone, the path leads nowhere,
what it named is gone too unless somebody holds it, and no other binding changes; otherwise no
object changes. -/
theorem unlink_unbinds (s : RunningApart) (path : CString) :
    wp (sys_unlink path.1) (fun o s' =>
      (s.1.fs.state.ns.Removable s.1.cwdNo path.1 ∧ o = .done (.int 0) ∧
        lookup s'.fs.state.ns.objs s.1.cwdNo path.1 = none ∧ ∃ d name t,
          resolveParent s.1.fs.state.ns.objs s.1.cwdNo path.1 = some (d, name) ∧
          s.1.fs.state.ns.Drops s'.fs.state.ns d name t) ∨
      (¬ s.1.fs.state.ns.Removable s.1.cwdNo path.1 ∧ o = .done (.int (-1)) ∧
        s'.fs.state.ns.objs = s.1.fs.state.ns.objs))
      (DirAbort s.1.fs.disk.bytes s.1.fs.inodes 2) s.1 := by
  have horder := s.inOrder
  obtain ⟨c, hc, hno⟩ := cwd_curr (reachable_sound s.2) horder
  have hok := horder.tables.fs
  have hd := (reachable_distinct s.2).1
  refine (sys_unlink_tables horder.tables hc path.2).imp ?_
  intro o s' hs'
  obtain ⟨-, fs, r, evs, rfl, rfl, heff, hrem⟩ := hs'
  rw [← hno] at hrem
  cases hrem with
  | failed hnot =>
    exact Or.inr ⟨hnot, rfl, (Effects.opens_ns heff hok.holds.2 hok.inv (by simp)).1⟩
  | @removed d e t name j k hu =>
    have hdrops : s.1.fs.state.ns.Drops fs.state.ns d name t :=
      Unlinked.drops hok.holds.2 hok.inv hd hu
    exact Or.inl ⟨Unlinked.removable hok.inv hu, rfl,
      hdrops.lookup_none hu.resolve, d, name, t, hu.resolve, hdrops⟩

end Oslab
