import TaggedWire.Proofs.StagedWriting

/-! # Atomic writing

    A writing whose outputs keep out of each other's way, and are not
    directories, gives all of them their texts or leaves all of them as they
    were. Their paths may start at the root or in the working directory.
    Either way no temporary of it is left, and apart from the outputs
    and their temporaries it only makes directories above them. Once the
    outputs have their texts, writing them again does nothing. -/

namespace TaggedWire

open FileTree TaggedWire.Path

variable {t u : FileTree} {path : String} {paths : List String}

/-! ## Outputs that can be staged -/

/-- An output that can be staged: its directory is there, its temporary is
    not a directory, and no limit is in the way. -/
structure Stageable (t : FileTree) (path : String) : Prop where
  directory : ∀ dir, parent? path = some dir → dir ≠ "" → t.isDirectory dir = true
  usable : Usable (path ++ temporarySuffix)
  free : t.isDirectory (path ++ temporarySuffix) = false

theorem isDirectory_root (t : FileTree) : t.isDirectory "/" = true := rfl

/-- The directory of a plain path leads to where the path lies. -/
theorem Path.Plain.place_parent (h : Plain path) :
    ∃ dir, parent? path = some dir ∧ (∀ t : FileTree, t.place dir = (t.place path).dropLast) ∧
      (dir = "" ∨ dir = "/" ∨ Plain dir) := by
  obtain ⟨dir, hparent, habsolute, hnames, hdir⟩ := h.parent
  refine ⟨dir, hparent, fun t => ?_, hdir⟩
  rw [FileTree.place, FileTree.place, FileTree.start, FileTree.start, habsolute, hnames,
    List.dropLast_append_of_ne_nil h.names_ne_nil]

namespace Stageable

variable (h : Stageable t path) (ht : t.Sound) (hp : Plain path)
include h ht hp

theorem get?_parent : t.get? (t.place path).dropLast = some .directory := by
  have hstart (dir : String) (hnames : names dir = []) : t.get? (t.place dir) = some .directory := by
    rw [FileTree.place, hnames, List.append_nil]
    exact ht.start dir
  obtain ⟨dir, hparent, hplace, hdir⟩ := hp.place_parent
  rw [← hplace]
  rcases hdir with rfl | rfl | hdir
  · exact hstart "" rfl
  · exact hstart "/" rfl
  · have hne : dir ≠ "" := by
      rintro rfl
      exact hdir.names_ne_nil rfl
    have hthere := h.directory dir hparent hne
    rw [isDirectory_iff, entry?_eq_some_iff ht hdir] at hthere
    exact hthere.2

theorem get?_temporary_ne : t.get? (t.place (path ++ temporarySuffix)) ≠ some .directory := by
  intro hdir
  have hthere := (entry?_eq_some_iff ht hp.temporary).mpr ⟨h.usable, hdir⟩
  rw [← isDirectory_iff, h.free] at hthere
  cases hthere

/-- Such an output is staged. -/
theorem stage_ok (text : String) : ∃ u, Step.on (stage path text) t = (.ok (.of path), u) := by
  have hmade : Step.on (makeParent path) t = (.ok (), t) := by
    unfold makeParent
    cases hparent : parent? path with
    | none => rfl
    | some dir =>
      by_cases hempty : dir = ""
      · simp only [String.isEmpty_iff.mpr hempty, if_true]
        rfl
      · have hfull : dir.isEmpty = false := by simpa using hempty
        simp only [hfull, Bool.false_eq_true, if_false]
        have hmake : (MonadFiles.makeDirectories dir : StateM FileTree _).run t = (.ok (), t) :=
          makeDirectories_of_isDirectory (h.directory dir hparent hempty) hempty
        exact Step.on_file_ok hmake
  -- The temporary is in the directory of the output.
  have hbeside : t.get? (t.place (path ++ temporarySuffix)).dropLast = some .directory := by
    obtain ⟨dir, name, hplace, htemporary⟩ := hp.place_temporary t
    have hparent := h.get?_parent ht hp
    rw [hplace, List.dropLast_concat] at hparent
    rwa [htemporary, List.dropLast_concat]
  obtain ⟨u, hwrite⟩ := exists_writeBytes ht hp.temporary h.usable hbeside
    (h.get?_temporary_ne ht hp) text.toUTF8
  refine ⟨u, ?_⟩
  unfold stage
  rw [Step.on_bind_ok hmade]
  exact Step.on_bind_ok (Step.on_file_ok (attempt_ok hwrite))

/-- An output can still be staged if no directory is touched and the
    directories of all outputs are there. -/
theorem of_changes {touched : Location → Prop} (hu : Changes (AboveAny t paths) touched t u)
    (htouched : ∀ place, touched place →
      t.get? place ≠ some .directory ∧ u.get? place ≠ some .directory)
    (hparents : ∀ other ∈ paths, t.get? (t.place other).dropLast = some .directory) :
    Stageable u path where
  directory := by
    intro dir hparent hne
    obtain ⟨found, hfound, -, hdir⟩ := hp.place_parent
    rw [hparent] at hfound
    cases hfound
    rcases hdir with rfl | rfl | hdir
    · exact absurd rfl hne
    · exact isDirectory_root u
    · have hthere := h.directory dir hparent hne
      rw [isDirectory_iff, entry?_eq_some_iff ht hdir] at hthere
      rw [isDirectory_iff, entry?_eq_some_iff hu.sound hdir, hu.place_eq]
      exact ⟨hthere.1, hu.get?_of_some (fun hplace => (htouched _ hplace).1 hthere.2) hthere.2⟩
  usable := h.usable
  free := by
    rw [← Bool.not_eq_true, isDirectory_iff, entry?_eq_some_iff hu.sound hp.temporary,
      hu.place_eq]
    intro ⟨_, hdir⟩
    rcases hu.entry (t.place (path ++ temporarySuffix)) with hplace | hsame | ⟨hnone, -, habove⟩
    · exact (htouched _ hplace).2 hdir
    · exact h.get?_temporary_ne ht hp (hsame ▸ hdir)
    · -- A directory on the way to an output was there before.
      obtain ⟨other, hother, rest, hrest⟩ := habove
      have hthere := hparents other hother
      rw [← hrest] at hthere
      rw [ht.above hthere] at hnone
      cases hnone

end Stageable

/-- Outputs that can all be staged are staged, one after another. -/
theorem not_failsToStage {staged : List (String × String)} {out : String × String}
    {e : GeneratorError} (ht : t.Sound) (hpaths : Separate t paths)
    (hall : ∀ path ∈ paths, Stageable t path) (hstaged : ∀ o ∈ staged, o.1 ∈ paths)
    (hout : out.1 ∈ paths) : ¬ FailsToStage t paths staged out e := by
  intro ⟨u, v, hu, hready, hstage⟩
  have hstill : Stageable u out.1 := by
    apply (hall out.1 hout).of_changes ht (hpaths.plain out.1 hout) hu
    · intro place hplace
      obtain ⟨path, hpath, rfl⟩ := hplace
      obtain ⟨o, ho, rfl⟩ := List.mem_map.mp hpath
      refine ⟨(hall o.1 (hstaged o ho)).get?_temporary_ne ht (hpaths.plain _ (hstaged o ho)), ?_⟩
      rw [(hready o ho).2]
      simp
    · intro other hother
      exact (hall other hother).get?_parent ht (hpaths.plain other hother)
  obtain ⟨w, hok⟩ := hstill.stage_ok hu.sound (hpaths.plain out.1 hout) out.2
  rw [hok] at hstage
  cases hstage

/-! ## Writing again -/

/-- Outputs that have their texts are not staged. -/
theorem stageAll_unchanged {outputs : List (String × String)} (staged : List Staged)
    (h : ∀ out ∈ outputs, t.hasText out.1 out.2 = true) :
    (stageAll (m := StateM FileTree) staged outputs).run t = (.ok staged, t) := by
  induction outputs with
  | nil => rfl
  | cons out outputs ih =>
    obtain ⟨hout, hrest⟩ := List.forall_mem_cons.mp h
    rw [stageAll_same hout]
    exact ih hrest

theorem write_unchanged {c : Config} {sources : GeneratedSources}
    (h : ∀ out ∈ c.outputs sources, t.readText out.1 = .ok out.2) :
    Step.on (c.write sources) t = (.ok (), t) := by
  have htexts : ∀ out ∈ c.outputs sources, t.hasText out.1 out.2 = true := by
    intro out hout
    rw [hasText_iff, ← readText_ok_iff]
    exact h out hout
  exact Step.on_bind_ok (stageAll_unchanged [] htexts)

/-! ## All or nothing -/

/-- **Writing is atomic and idempotent.** If the outputs keep out of each
    other's way and are not directories, a writing gives all of them their
    texts or leaves all of them as they were, and it gives them their texts if
    all of them can be staged. The temporaries that it made are gone, and
    nothing else has changed but for directories above the outputs. Once the
    outputs have their texts, a second writing does nothing at all. -/
theorem write_atomic {c : Config} (sources : GeneratedSources) (ht : t.Sound)
    (hpaths : Separate t c.outputPaths)
    (hfree : ∀ path ∈ c.outputPaths, t.isDirectory path = false) :
    ∃ result u staged, Step.on (c.write sources) t = (result, u) ∧
      staged ⊆ c.outputs sources ∧ Gone t u staged ∧
      ((∀ path ∈ c.outputPaths, Stageable t path) → result = .ok ()) ∧
      ((result = .ok () ∧ (∀ out ∈ c.outputs sources, u.readText out.1 = .ok out.2) ∧
          Changes (AboveAny t c.outputPaths) (fun place =>
            TemporaryOf t (staged.map Prod.fst) place ∨ ∃ out ∈ staged, place = t.place out.1) t u ∧
          Step.on (c.write sources) u = (.ok (), u)) ∨
        ∃ e, result = .error e ∧ (∀ path ∈ c.outputPaths, u.entry? path = t.entry? path) ∧
          Changes (AboveAny t c.outputPaths) (TemporaryOf t (staged.map Prod.fst)) t u) := by
  obtain ⟨result, u, hwrite, houtcome⟩ := write_outcome ht hpaths sources
  have houtdated : outdated t (c.outputs sources) ⊆ c.outputs sources :=
    List.filter_sublist.subset
  cases houtcome with
  | @unstaged e staged _ _ hpart hfailed hu hgone =>
    have hsub : staged ⊆ c.outputs sources := List.Subset.trans hpart.subset houtdated
    refine ⟨.error e, u, staged, hwrite, hsub, hgone, ?_, .inr ⟨e, rfl, ?_, hu⟩⟩
    · intro hall
      obtain ⟨out, hout, hfails⟩ := hfailed
      have hstaged : ∀ o ∈ staged, o.1 ∈ c.outputPaths := fun o ho => List.mem_map_of_mem (hsub ho)
      exact absurd hfails (not_failsToStage ht hpaths hall hstaged hout)
    · exact entry?_of_unstaged ht hpaths hpart hu
  | replaced hu hgone htexts =>
    exact ⟨.ok (), u, outdated t (c.outputs sources), hwrite, houtdated, hgone, fun _ => rfl,
      .inl ⟨rfl, htexts, hu, write_unchanged htexts⟩⟩
  | @stopped path _ _ hstopped =>
    -- An output is a directory, which was ruled out.
    obtain ⟨text, after, hsplit, -⟩ := hstopped.kept
    have hpath : path ∈ c.outputPaths := by
      rw [c.outputPaths_eq sources, hsplit]
      simp
    have hdir := hfree path hpath
    rw [isDirectory_iff.mpr hstopped.directory] at hdir
    cases hdir

/-- Outputs in a directory below the root, in the working directory and in
    the root. -/
def startedConfig : Config where
  rust := { path := "/out/codec.rs" }
  typescript := { path := "codec.ts", mappingPath := "/codec_mappings.js" }

/-- A tree where one output is already there, and so is the temporary of
    another. -/
def startedTree : FileTree where
  entries :=
    [(["work", "codec.ts.wireforge-tmp"], .file "old".toUTF8),
     (["out", "codec.rs"], .file "a".toUTF8), (["work"], .directory), (["out"], .directory)]
  cwd := ["work"]

theorem sound_startedTree : startedTree.Sound := by
  have hfree (t : FileTree) (dir : Location) (name : String) (h : t.get? (dir ++ [name]) = none) :
      t.get? (dir ++ [name]) ≠ some .directory := by simp [h]
  have hout := sound_empty.insert rfl (hfree {} [] "out" rfl) .directory
  have hwork := hout.insert rfl (hfree _ [] "work" rfl) .directory
  have hcodec := hwork.insert rfl (hfree _ ["out"] "codec.rs" rfl) (.file "a".toUTF8)
  have htemporary := hcodec.insert rfl (hfree _ ["work"] "codec.ts.wireforge-tmp" rfl)
    (.file "old".toUTF8)
  exact ⟨htemporary.parent, rfl⟩

theorem separate_startedTree : Separate startedTree startedConfig.outputPaths :=
  ⟨by decide, by decide, by decide, by decide⟩

theorem stageable_startedTree : ∀ path ∈ startedConfig.outputPaths, Stageable startedTree path := by
  have hstageable {path dir : String} (hparent : parent? path = some dir)
      (hdir : dir = "" ∨ startedTree.isDirectory dir = true)
      (husable : Usable (path ++ temporarySuffix))
      (hfree : startedTree.isDirectory (path ++ temporarySuffix) = false) :
      Stageable startedTree path := by
    refine ⟨fun found hfound hne => ?_, husable, hfree⟩
    rw [hparent] at hfound
    cases hfound
    exact hdir.resolve_left hne
  refine List.forall_mem_cons.mpr ⟨?_, List.forall_mem_cons.mpr ⟨?_,
    List.forall_mem_singleton.mpr ?_⟩⟩
  · exact @hstageable _ "/out" rfl (.inr rfl) ⟨by decide, by decide, by decide⟩ rfl
  · exact @hstageable _ "" rfl (.inl rfl) ⟨by decide, by decide, by decide⟩ rfl
  · exact @hstageable _ "/" rfl (.inr rfl) ⟨by decide, by decide, by decide⟩ rfl

/-- Two outputs that start at the root and one that does not. -/
theorem write_atomic_started :
    ∃ u staged, Step.on (startedConfig.write ⟨"a", "b", "c", []⟩) startedTree = (.ok (), u) ∧
      staged ⊆ startedConfig.outputs ⟨"a", "b", "c", []⟩ ∧ Gone startedTree u staged ∧
      ∀ out ∈ startedConfig.outputs ⟨"a", "b", "c", []⟩, u.readText out.1 = .ok out.2 := by
  have hfree : ∀ path ∈ startedConfig.outputPaths, startedTree.isDirectory path = false := by
    decide
  obtain ⟨result, u, staged, hwrite, hstaged, hgone, hok, houtcome⟩ :=
    write_atomic ⟨"a", "b", "c", []⟩ sound_startedTree separate_startedTree hfree
  rw [hok stageable_startedTree] at hwrite houtcome
  rcases houtcome with ⟨-, htexts, -, -⟩ | ⟨e, herror, -, -⟩
  · exact ⟨u, staged, hwrite, hstaged, hgone, htexts⟩
  · cases herror

end TaggedWire
