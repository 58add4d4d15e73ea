import TaggedWire.Proofs.RenderObstacles
import TaggedWire.Proofs.StagedWriting

/-! # Making the lookup tables again

    A run makes its lookup tables from the finished Rust text, before
    anything is on disk. A later pass makes them again from the Rust file,
    without a schema. The two agree, whatever the anchors match, because
    the file has the very text that the tables were made from: a run that
    succeeds leaves every output with its text, also one that it did not
    have to touch. -/

namespace TaggedWire

open FileTree

variable {t u : FileTree} {c : Config} {s : Schema} {sources : GeneratedSources}

/-! ## Runs that succeed -/

/-- A run succeeds if the rendering and the writing do. -/
theorem run_ok_iff :
    Step.on (c.run s) t = (.ok sources, u) ↔
      c.Rendered s t sources ∧ Step.on (c.write sources) t = (.ok (), u) := by
  unfold Config.run
  constructor
  · intro hrun
    rcases obstacle_or_rendered c s t with ⟨e, hobstacle⟩ | ⟨found, hrendered⟩
    · rw [Step.on_bind_error hobstacle.render_on] at hrun
      cases hrun
    · rw [Step.on_bind_ok hrendered.render_on] at hrun
      cases hwrite : Step.on (c.write found) t with
      | mk result v =>
        cases result with
        | error e =>
          rw [Step.on_bind_error hwrite] at hrun
          cases hrun
        | ok _ =>
          rw [Step.on_bind_ok hwrite] at hrun
          cases hrun
          exact ⟨hrendered, hwrite⟩
  · intro ⟨hrendered, hwrite⟩
    rw [Step.on_bind_ok hrendered.render_on, Step.on_bind_ok hwrite]
    rfl

/-- A writing that succeeds leaves every output with its text. -/
theorem readText_of_write (ht : t.Sound) (hpaths : Separate t c.outputPaths)
    (hwrite : Step.on (c.write sources) t = (.ok (), u)) :
    ∀ out ∈ c.outputs sources, u.readText out.1 = .ok out.2 := by
  obtain ⟨result, v, hrun, houtcome⟩ := write_outcome ht hpaths sources
  rw [hwrite] at hrun
  cases hrun
  cases houtcome with
  | replaced _ _ htexts => exact htexts

/-! ## Tables of a text -/

theorem Config.mappingTargets_of_ne_nil (h : c.mappings ≠ []) (s : Schema) :
    c.mappingTargets s = c.mappings := by
  have hfull : c.mappings.isEmpty = false := by simpa using h
  rw [Config.mappingTargets, hfull, if_neg Bool.false_ne_true]

/-- The tables of a rendering are those of its Rust text, and no file is
    needed to make them. -/
theorem Config.Rendered.mappingModule_on (h : c.Rendered s t sources) (u : FileTree) :
    Step.on (mappingModule sources.rust (c.mappingTargets s)) u = (.ok sources.mappings, u) := by
  obtain ⟨-, rustHeader, typescriptHeader, tables, -, -, htables, hsources⟩ := h
  subst hsources
  unfold mappingModule renderMappings
  rw [htables]
  rfl

/-- The later pass makes the tables of what it reads. -/
theorem mappingsFromFile_on (h : c.mappings ≠ []) {path source : String}
    (hread : u.readText path = .ok source) :
    Step.on (c.mappingsFromFile path) u = Step.on (mappingModule source c.mappings) u := by
  have hfull : c.mappings.isEmpty = false := by simpa using h
  have hsource : Step.on (readSource path) u = (.ok source, u) := by
    have hrun : (MonadFiles.readText path : StateM FileTree _).run u = (u.readText path, u) := rfl
    rw [hread] at hrun
    exact Step.on_file_ok hrun
  unfold Config.mappingsFromFile
  rw [hfull, if_neg Bool.false_ne_true]
  exact Step.on_bind_ok hsource

/-! ## The two passes -/

/-- **The later pass agrees with the run.** If the outputs keep out of each
    other's way, as paths that are kept apart do in every tree
    (`KeptApart.separate`), and tables are configured, then after a run that
    succeeds the tables made from the Rust file are those of the run, and so
    is the text of the mapping output. The later pass changes nothing. -/
theorem later_mappings_agree (ht : t.Sound) (hpaths : Separate t c.outputPaths)
    (htargets : c.mappings ≠ []) (hrun : Step.on (c.run s) t = (.ok sources, u)) :
    Step.on (c.mappingsFromFile c.rust.path) u = (.ok sources.mappings, u) ∧
      u.readText c.typescript.mappingPath = .ok sources.mappings := by
  obtain ⟨hrendered, hwrite⟩ := run_ok_iff.mp hrun
  have htexts := readText_of_write ht hpaths hwrite
  have hrust : u.readText c.rust.path = .ok sources.rust :=
    htexts (c.rust.path, sources.rust) (by simp [Config.outputs])
  have hmappings : u.readText c.typescript.mappingPath = .ok sources.mappings :=
    htexts (c.typescript.mappingPath, sources.mappings) (by simp [Config.outputs])
  refine ⟨?_, hmappings⟩
  rw [mappingsFromFile_on htargets hrust, ← Config.mappingTargets_of_ne_nil htargets s]
  exact hrendered.mappingModule_on u

/-- A table of what a header declares, with an output in a directory. -/
def headedConfig : Config where
  rust := { path := "out/codec.rs", header := some "head.rs" }
  mappings := [⟨"Lamp \x7b", "Lamps"⟩]

/-- A tree with the header, where one output has its text already and the
    directory of another is missing. -/
def headedTree : FileTree where
  entries := [(["codec.ts"], .file banner.toUTF8),
    (["head.rs"], .file "enum Lamp \x7b Red \x7d".toUTF8)]

theorem sound_headedTree : headedTree.Sound := by
  have hfree (t : FileTree) (name : String) (h : t.get? [name] = none) :
      t.get? ([] ++ [name]) ≠ some .directory := by simp [h]
  have hheader := sound_empty.insert rfl (hfree {} "head.rs" rfl)
    (.file "enum Lamp \x7b Red \x7d".toUTF8)
  exact hheader.insert rfl (hfree _ "codec.ts" rfl) (.file banner.toUTF8)

theorem separate_headedTree : Separate headedTree headedConfig.outputPaths := by
  have hapart : KeptApart headedConfig.outputPaths := ⟨by decide, by decide, by decide, by decide⟩
  exact hapart.separate headedTree

theorem run_headedTree :
    ∃ sources u, Step.on (headedConfig.run {}) headedTree = (.ok sources, u) := by
  have hcheck : (Step.on (headedConfig.run {}) headedTree).1.isOk = true := by decide +kernel
  cases hrun : Step.on (headedConfig.run {}) headedTree with
  | mk result u =>
    rw [hrun] at hcheck
    cases result with
    | ok sources => exact ⟨sources, u, rfl⟩
    | error e => cases hcheck

theorem later_mappings_agree_headed :
    headedConfig.mappings ≠ [] ∧
    ∃ sources u, Step.on (headedConfig.run {}) headedTree = (.ok sources, u) ∧
      Step.on (headedConfig.mappingsFromFile "out/codec.rs") u = (.ok sources.mappings, u) ∧
      u.readText "codec_mappings.js" = .ok sources.mappings := by
  have htargets : headedConfig.mappings ≠ [] := by decide
  obtain ⟨sources, u, hrun⟩ := run_headedTree
  have hagree := later_mappings_agree sound_headedTree separate_headedTree htargets hrun
  exact ⟨htargets, sources, u, hrun, hagree⟩

end TaggedWire
