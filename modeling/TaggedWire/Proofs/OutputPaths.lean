import Mathlib.Data.List.Nodup
import TaggedWire.Generator.Write
import TaggedWire.Proofs.TreeChanges

/-! # Output paths

    The paths of the outputs must not get in each other's way: they lead to
    different places, none of them inside another, and none is the temporary
    of another. Which places these are depends on the tree. For relative
    paths that are written out in full it can be told from the paths alone,
    and the paths of a default configuration are such. -/

namespace TaggedWire

open FileTree TaggedWire.Path

variable {t u : FileTree} {path : String} {paths : List String}

/-! ## Paths that lead to different places -/

theorem slash_notMem_temporarySuffix : '/' ∉ temporarySuffix.toList := by decide

/-- Paths that lead to different places, none of them inside another or at
    the temporary of another. -/
structure Separate (t : FileTree) (paths : List String) : Prop where
  plain : ∀ path ∈ paths, Plain path
  nodup : paths.Nodup
  apart : ∀ path ∈ paths, ∀ other ∈ paths, path ≠ other → ¬ t.place path <+: t.place other
  temporary : ∀ path ∈ paths, ∀ other ∈ paths, path ≠ other →
    t.place path ≠ t.place (other ++ temporarySuffix)

/-- The places of the directories above some paths. -/
def AboveAny (t : FileTree) (paths : List String) (place : Location) : Prop :=
  ∃ path ∈ paths, Above (t.place path) place

/-- The places of the temporaries of some paths. -/
def TemporaryOf (t : FileTree) (paths : List String) (place : Location) : Prop :=
  ∃ path ∈ paths, place = t.place (path ++ temporarySuffix)

theorem TemporaryOf.mono {more : List String} {place : Location}
    (hsub : ∀ path ∈ paths, path ∈ more) (h : TemporaryOf t paths place) :
    TemporaryOf t more place := by
  obtain ⟨path, hpath, hplace⟩ := h
  exact ⟨path, hsub path hpath, hplace⟩

theorem Path.Plain.temporary (h : Plain path) : Plain (path ++ temporarySuffix) :=
  h.append slash_notMem_temporarySuffix (by decide)

/-- A temporary lies beside its output. -/
theorem Path.Plain.place_temporary (h : Plain path) (t : FileTree) :
    ∃ dir name, t.place path = dir ++ [name] ∧
      t.place (path ++ temporarySuffix) = dir ++ [name ++ temporarySuffix] := by
  obtain ⟨above, last, hpath, hmore⟩ := h.names_append slash_notMem_temporarySuffix
  have hne : path ≠ "" := by
    rintro rfl
    exact h.names_ne_nil rfl
  refine ⟨t.start path ++ above, last, place_eq hpath, ?_⟩
  rw [place_eq hmore, FileTree.start, FileTree.start, isAbsolute_append hne]

/-- A temporary is not its output: a name is not longer than itself. -/
theorem Path.Plain.place_temporary_ne (h : Plain path) (t : FileTree) :
    t.place (path ++ temporarySuffix) ≠ t.place path := by
  intro hplace
  obtain ⟨dir, name, hout, htemporary⟩ := h.place_temporary t
  rw [hout, htemporary, List.append_singleton_inj] at hplace
  have hlength := congrArg String.length hplace.2
  rw [String.length_append] at hlength
  exact absurd (Nat.add_eq_left.mp hlength) (by decide)

namespace Separate

variable (h : Separate t paths)
include h

theorem not_above (hpath : path ∈ paths) : ¬ AboveAny t paths (t.place path) := by
  rintro ⟨other, hother, habove⟩
  by_cases hsame : path = other
  · subst hsame
    obtain ⟨dir, name, hplace, -⟩ := (h.plain path hpath).place_temporary t
    rw [hplace] at habove
    exact not_above_self dir name habove
  · exact h.apart path hpath other hother hsame (habove.trans (List.dropLast_prefix _))

theorem not_temporary (hpath : path ∈ paths) : ¬ TemporaryOf t paths (t.place path) := by
  rintro ⟨other, hother, hplace⟩
  by_cases hsame : path = other
  · subst hsame
    exact (h.plain path hpath).place_temporary_ne t hplace.symm
  · exact h.temporary path hpath other hother hsame hplace

theorem place_inj {other : String} (hpath : path ∈ paths) (hother : other ∈ paths)
    (hplace : t.place path = t.place other) : path = other := by
  by_cases hsame : path = other
  · exact hsame
  · exact absurd (hplace ▸ List.prefix_refl _) (h.apart path hpath other hother hsame)

theorem temporary_inj {other : String} (hpath : path ∈ paths) (hother : other ∈ paths)
    (hplace : t.place (path ++ temporarySuffix) = t.place (other ++ temporarySuffix)) :
    path = other := by
  obtain ⟨dir, name, hout, htemporary⟩ := (h.plain path hpath).place_temporary t
  obtain ⟨dir', name', hout', htemporary'⟩ := (h.plain other hother).place_temporary t
  rw [htemporary, htemporary', List.append_singleton_inj, String.append_left_inj] at hplace
  refine h.place_inj hpath hother ?_
  rw [hout, hout', hplace.1, hplace.2]

/-- An output stays if only temporaries are touched. -/
theorem entry?_eq (ht : t.Sound) (hpath : path ∈ paths)
    (hu : Changes (AboveAny t paths) (TemporaryOf t paths) t u) : u.entry? path = t.entry? path :=
  hu.entry?_eq ht (h.plain path hpath) (h.not_temporary hpath) (h.not_above hpath)

/-- An output stays if only temporaries and other outputs are touched. -/
theorem entry?_eq_of_others (ht : t.Sound) (hpath : path ∈ paths)
    {others : List (String × String)} (hothers : ∀ out ∈ others, out.1 ∈ paths ∧ out.1 ≠ path)
    (hu : Changes (AboveAny t paths)
      (fun place => TemporaryOf t paths place ∨ ∃ out ∈ others, place = t.place out.1) t u) :
    u.entry? path = t.entry? path := by
  refine hu.entry?_eq ht (h.plain path hpath) ?_ (h.not_above hpath)
  rintro (htemporary | ⟨out, hout, hplace⟩)
  · exact h.not_temporary hpath htemporary
  · obtain ⟨hmem, hne⟩ := hothers out hout
    exact hne (h.place_inj hpath hmem hplace).symm

end Separate

/-! ## Paths that are kept apart -/

/-- Relative paths, written out in full, that differ from each other. None of
    them is on the way to another or the temporary of another. -/
structure KeptApart (paths : List String) : Prop where
  normal : ∀ path ∈ paths, Normal path
  nodup : paths.Nodup
  outside : ∀ path ∈ paths, ∀ other ∈ paths, path ≠ other → ¬ parts path <+: parts other
  temporary : ∀ path ∈ paths, ∀ other ∈ paths, path ≠ other ++ temporarySuffix

theorem Path.Normal.place_eq (h : Normal path) (t : FileTree) :
    t.place path = t.cwd ++ parts path := by
  rw [FileTree.place, FileTree.start, h.not_absolute, h.names_eq]
  rfl

theorem Path.Normal.place_temporary_eq (h : Normal path) (t : FileTree) :
    t.place (path ++ temporarySuffix) = t.cwd ++ parts (path ++ temporarySuffix) := by
  rw [FileTree.place, FileTree.start, isAbsolute_append h.ne_empty, h.not_absolute,
    h.names_append slash_notMem_temporarySuffix]
  rfl

/-- Such paths lead to different places, whatever the tree. -/
theorem KeptApart.separate (h : KeptApart paths) (t : FileTree) : Separate t paths where
  plain path hpath := (h.normal path hpath).plain
  nodup := h.nodup
  apart := by
    intro path hpath other hother hne hinside
    rw [(h.normal path hpath).place_eq, (h.normal other hother).place_eq,
      List.prefix_append_right_inj] at hinside
    exact h.outside path hpath other hother hne hinside
  temporary := by
    intro path hpath other hother _ hplace
    rw [(h.normal path hpath).place_eq, (h.normal other hother).place_temporary_eq,
      List.append_cancel_left_eq] at hplace
    exact h.temporary path hpath other hother (parts_inj hplace)

/-- The outputs of a default configuration are kept apart. -/
theorem keptApart_outputPaths : KeptApart ({} : Config).outputPaths :=
  ⟨by decide, by decide, by decide, by decide⟩

end TaggedWire
