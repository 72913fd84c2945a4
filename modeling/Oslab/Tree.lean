/-
# The tree below the root

A directory is below the root by the names on the way to it. There is one such way, and
`..` leads back along it. An event that makes nothing in a removed directory leaves every
object in a directory below the root, unless it has been removed.
-/
import Oslab.Namespace

namespace Oslab

open Lib

namespace Ns

variable {s s' : Ns} {ev : NsEvent} {d e t no : ℕ} {ns ns' : List (List UInt8)}

theorem Inv.ofDir (h : s.Inv) (hd : s.Dir d) : 1 ≤ d ∧ d < 1920 := by
  have hused : (s.objs d).type ≠ TYPE_NONE := by
    rw [hd]
    decide
  exact h.lt hused

/-- An entry stays, or the event frees its directory or clears it. -/
theorem Step.entry (h : s.Inv) (hstep : Step s ev s') (hd : s.Dir d) (he : e < (s.objs d).count)
    (hz : (s.objs d).target e ≠ 0) :
    (s'.Dir d ∧ e < (s'.objs d).count ∧ (s'.objs d).entry e = (s.objs d).entry e) ∨
      (ev = .drop d ∧ d ∈ s.removed) ∨ ∃ t, ev = .unlink d e t := by
  cases hstep with
  | hold | drop => exact Or.inl ⟨hd, he, rfl⟩
  | @free no hno =>
    by_cases hne : d = no
    · exact Or.inr (Or.inl ⟨by rw [hne], hne ▸ hno⟩)
    · simp only [Dir, Function.update_of_ne hne]
      exact Or.inl ⟨hd, he, trivial⟩
  | @write no o hno _ =>
    have hne : d ≠ no := fun heq => hno (heq ▸ hd)
    simp only [Dir, Function.update_of_ne hne]
    exact Or.inl ⟨hd, he, trivial⟩
  | @create x no _ _ dirent o _ _ _ hfree _ _ _ _ hdirent _ =>
    have hne : d ≠ no := by
      rintro rfl
      rw [Dir, hfree] at hd
      cases hd
    left
    by_cases hdx : d = x
    · subst hdx
      have hhole : e ≠ (s.objs d).hole := by
        rintro rfl
        exact hz (Obj.target_hole he)
      rw [Dir, objs_made_dir s _ _ hne, Obj.count_put (h.shape d hd).dvd]
      exact ⟨hd, by omega, Obj.entry_put_of_ne hdirent.length hhole⟩
    · rw [Dir, objs_made_other hdx hne]
      exact ⟨hd, he, rfl⟩
  | @remove x y z ht _ _ =>
    by_cases hxy : d = x ∧ e = y
    · obtain ⟨rfl, rfl⟩ := hxy
      exact Or.inr (Or.inr ⟨z, rfl⟩)
    · left
      rw [Dir]
      simp only [type_clear]
      by_cases hdx : d = x
      · subst hdx
        have hey : e ≠ y := fun heq => hxy ⟨rfl, heq⟩
        have hlen : Dirent.zero.name.length = 28 := by simp [Dirent.zero]
        simp only [Function.update_self, Obj.count_put (h.shape d hd).dvd]
        exact ⟨hd, by omega, Obj.entry_put_of_ne hlen hey⟩
      · simp only [Function.update_of_ne hdx]
        exact ⟨hd, he, trivial⟩

/-- Directory `d` is reached from the root by entries with these names. -/
inductive Below (s : Ns) : ℕ → List (List UInt8) → Prop
  | root : Below s 1 []
  | entry {d e t : ℕ} {ns : List (List UInt8)} : Below s d ns → s.Named d e t → s.Dir t →
      Below s t (ns ++ [(s.objs d).label e])

theorem Below.dir (h : s.Inv) (hd : s.Below d ns) : s.Dir d := by
  cases hd with
  | root => exact h.root
  | entry _ _ ht => exact ht

/-- A directory that has been removed is not below the root. -/
theorem Below.kept (h : s.Inv) (hd : s.Below d ns) : d ∉ s.removed := by
  cases hd with
  | root => exact fun hrem => (h.kept 1 hrem).2 rfl
  | entry _ hn _ => exact (h.named _ _ _ hn).2.2

/-- There is one way to a directory. -/
theorem Below.unique (h : s.Inv) (hd : s.Below d ns) (hd' : s.Below d ns') : ns = ns' := by
  induction hd generalizing ns' with
  | root =>
    cases hd' with
    | root => rfl
    | entry _ hn _ => exact ((h.named _ _ _ hn).1 rfl).elim
  | entry _ hn _ ih =>
    cases hd' with
    | root => exact ((h.named _ _ _ hn).1 rfl).elim
    | entry hx hn' _ =>
      obtain ⟨rfl, rfl⟩ := h.uniq _ _ _ _ _ hn hn'
      rw [ih hx]

/-- `..` leads back along the way. -/
theorem Below.up_iterate (h : s.Inv) (hd : s.Below d ns) : s.up^[ns.length] d = 1 := by
  induction hd with
  | root => rfl
  | entry _ hn ht ih =>
    rw [List.length_append, List.length_singleton, Function.iterate_succ_apply, h.parent _ _ _ hn ht]
    exact ih

/-- The directory in which one lies is not below it. -/
theorem Below.up_ne (h : s.Inv) (hd : s.Below d ns) (hn : s.Named d e t) (ht : s.Dir t) :
    s.up d ≠ t := by
  intro heq
  cases hd with
  | root =>
    rw [h.upRoot] at heq
    exact (h.named _ _ _ hn).1 heq.symm
  | entry hx hnx hdx =>
    rw [h.parent _ _ _ hnx hdx] at heq
    subst heq
    -- the way to `t` would be longer than itself
    have hlen := congrArg List.length (Below.unique h hx ((hx.entry hnx hdx).entry hn ht))
    simp only [List.length_append, List.length_singleton] at hlen
    omega

theorem Below.kept_step (h : s.Inv) (hd : s.Below d ns) (hstep : Step s ev s')
    (hn : s.Named d e t) : d ∉ s'.removed := by
  intro hmem
  rcases hstep.of_removed hmem with hold | ⟨x, y, rfl, -, hempty⟩
  · exact hd.kept h hold
  · exact not_empty hn (hempty hn.dir)

/-- The way to a directory stays unless the directory is removed. -/
theorem Step.below (h : s.Inv) (hstep : Step s ev s') (hd : s.Below d ns) (hrem : d ∉ s'.removed) :
    s'.Below d ns := by
  induction hd with
  | root => exact .root
  | @entry d e t ns hd hn ht ih =>
    rcases hstep.entry h hn.dir hn.lt (hn.target ▸ hn.ne) with ⟨hdir, hlt, hsame⟩ | ⟨-, hold⟩ |
        ⟨t', rfl⟩
    · have hn' : s'.Named d e t := by
        refine ⟨hdir, hn.two, hlt, ?_, hn.ne⟩
        rw [Obj.target, hsame]
        exact hn.target
      have ht' : s'.Dir t := by
        rcases hstep.dir ht with ht' | ⟨-, hold⟩
        · exact ht'
        · exact ((h.named _ _ _ hn).2.2 hold).elim
      have hlabel : (s'.objs d).label e = (s.objs d).label e := by
        rw [Obj.label, Obj.label, hsame]
      rw [← hlabel]
      exact (ih (hd.kept_step h hstep hn)).entry hn' ht'
    · exact (hd.kept h hold).elim
    · -- the entry is the one that is cleared
      cases hstep with
      | remove hn' _ _ =>
        have htt : t' = t := hn'.target.symm.trans hn.target
        exact (hrem (htt ▸ Set.mem_insert t' s.removed)).elim

/-- Everything is the root, has a name in a directory below it, or has been removed and is
held. -/
def Rooted (s : Ns) : Prop := ∀ no, (s.objs no).type ≠ TYPE_NONE →
  no = 1 ∨ no ∈ s.removed ∨ ∃ d e ns, s.Below d ns ∧ s.Named d e no

theorem Rooted.below (hr : s.Rooted) (hd : s.Dir d) : d ∈ s.removed ∨ ∃ ns, s.Below d ns := by
  have hused : (s.objs d).type ≠ TYPE_NONE := by
    rw [hd]
    decide
  rcases hr d hused with rfl | hrem | ⟨x, e, ns, hx, hn⟩
  · exact Or.inr ⟨[], .root⟩
  · exact Or.inl hrem
  · exact Or.inr ⟨_, hx.entry hn hd⟩

/-- An event outside removed directories leaves everything below the root. -/
theorem Step.rooted (h : s.Inv) (hr : s.Rooted) (hstep : Step s ev s') (hout : s.Outside ev) :
    s'.Rooted := by
  intro no hno
  rcases hstep.of_type hno with htype | ⟨d, name, rfl, hd, hfree⟩
  · rcases hr no (by rwa [htype] at hno) with hroot | hrem | ⟨d, e, ns, hd, hn⟩
    · exact Or.inl hroot
    · rcases hstep.removed hrem with hrem' | ⟨-, hfree⟩
      · exact Or.inr (Or.inl hrem')
      · exact (hno hfree).elim
    · rcases hstep.named h hn with hn' | ⟨-, hold⟩ | hev
      · exact Or.inr (Or.inr ⟨d, e, ns, hstep.below h hd (hd.kept_step h hstep hn), hn'⟩)
      · exact (hd.kept h hold).elim
      · exact Or.inr (Or.inl (hev ▸ hstep).unlinked)
  · -- a new object lies in a directory that has not been removed
    have hkept := hout d name _ no rfl
    obtain ⟨ns, hbelow⟩ := (hr.below hd).resolve_left hkept
    refine Or.inr (Or.inr ⟨d, _, ns, hstep.below h hbelow fun hrem => ?_, hstep.created h⟩)
    rcases hstep.of_removed hrem with hold | ⟨x, e, hev, -⟩
    · exact hkept hold
    · cases hev

end Ns

end Oslab
