import TaggedWire.Proofs.RenderObstacles
import TaggedWire.Proofs.StagedWriting

/-! # Failed runs

    What a generator run leaves of its outputs when it fails: they are all
    as they were, unless the run fails to replace one of them. Replacements
    are not taken back, so by then the outputs before that one are new. -/

namespace TaggedWire

open FileTree TaggedWire.Path

variable {t u : FileTree} {c : Config} {s : Schema} {e : GeneratorError}

/-! ## Rendering -/

/-- Rendering leaves the tree as it is and replaces nothing. -/
theorem Step.looks_render (c : Config) (s : Schema) (t : FileTree) :
    ∃ result, Step.on (c.render s) t = (result, t) ∧ NoReplace result := by
  rcases obstacle_or_rendered c s t with ⟨e, hobstacle⟩ | ⟨sources, hrendered⟩
  · refine ⟨.error e, hobstacle.render_on, ?_⟩
    cases hobstacle <;> exact id
  · exact ⟨.ok sources, hrendered.render_on, trivial⟩

/-! ## The whole run -/

/-- **What a failed run leaves.** A run that fails leaves every output as it
    was, unless it fails to replace one of them. That one is a directory, and
    the outputs before it already have their new texts, so the outputs are
    all as they were only if these had their texts before. -/
theorem failed_run_outputs (ht : t.Sound) (hpaths : Separate t c.outputPaths)
    (hrun : Step.on (c.run s) t = (.error e, u)) :
    (¬ e.IsReplace → ∀ path ∈ c.outputPaths, u.entry? path = t.entry? path) ∧
    ∀ path cause, e = .file .replace path cause →
      ∃ sources before, Step.on (c.render s) t = (.ok sources, t) ∧
        StoppedAt t u (c.outputs sources) before path ∧
        ((∀ path ∈ c.outputPaths, u.entry? path = t.entry? path) ↔
          ∀ out ∈ before, t.readText out.1 = .ok out.2) := by
  obtain ⟨result, hrender, hcause⟩ := Step.looks_render c s t
  unfold Config.run at hrun
  cases result with
  | error e' =>
    -- Nothing has been written yet.
    rw [Step.on_bind_error hrender] at hrun
    cases hrun
    refine ⟨fun _ _ _ => rfl, ?_⟩
    rintro path cause rfl
    exact (hcause trivial).elim
  | ok sources =>
    rw [Step.on_bind_ok hrender] at hrun
    obtain ⟨result, v, hwrite, houtcome⟩ := write_on ht hpaths sources
    rcases houtcome with ⟨e', rfl, hnot, hkept⟩ | ⟨rfl, -⟩ | ⟨path, before, rfl, hstopped⟩
    · rw [Step.on_bind_error hwrite] at hrun
      cases hrun
      refine ⟨fun _ => hkept, ?_⟩
      rintro path cause rfl
      exact (hnot trivial).elim
    · rw [Step.on_bind_ok hwrite] at hrun
      cases hrun
    · rw [Step.on_bind_error hwrite] at hrun
      cases hrun
      refine ⟨fun hnot => (hnot trivial).elim, ?_⟩
      rintro path cause hpath
      cases hpath
      refine ⟨sources, before, hrender, hstopped, ?_⟩
      rw [← hstopped.kept_iff, c.outputPaths_eq sources]
      exact List.forall_mem_map

/-- A tree with a directory where an output goes. -/
def blockedTree : FileTree where
  entries := [(["codec.ts"], .directory)]

theorem sound_blockedTree : blockedTree.Sound := by
  have hfree : ({} : FileTree).get? ([] ++ ["codec.ts"]) ≠ some .directory := by
    simp [FileTree.get?]
  exact sound_empty.insert rfl hfree .directory

theorem separate_blockedTree : Separate blockedTree ({} : Config).outputPaths :=
  keptApart_outputPaths.separate blockedTree

/-- The run writes one output and fails at the next. -/
theorem run_blockedTree : ∃ u, Step.on (({} : Config).run {}) blockedTree =
    (.error (.file .replace "codec.ts" .isDirectory), u) ∧ (u.entry? "codec.rs").isSome := by
  -- Evaluated as one test, since a tree has no decidable equality.
  have hcheck : (match Step.on (({} : Config).run {}) blockedTree with
      | (.error e, u) =>
        decide (e = .file .replace "codec.ts" .isDirectory) && (u.entry? "codec.rs").isSome
      | (.ok _, _) => false) = true := by
    decide +kernel
  cases hrun : Step.on (({} : Config).run {}) blockedTree with
  | mk result u =>
    rw [hrun] at hcheck
    cases result with
    | ok sources => cases hcheck
    | error e =>
      obtain ⟨he, hentry⟩ := Bool.and_eq_true_iff.mp hcheck
      exact ⟨u, by rw [of_decide_eq_true he], hentry⟩

theorem failed_run_outputs_blocked :
    ∃ u sources before, Step.on (({} : Config).run {}) blockedTree =
        (.error (.file .replace "codec.ts" .isDirectory), u) ∧
      StoppedAt blockedTree u (({} : Config).outputs sources) before "codec.ts" := by
  obtain ⟨u, hrun, -⟩ := run_blockedTree
  obtain ⟨sources, before, -, hstopped, -⟩ :=
    (failed_run_outputs sound_blockedTree separate_blockedTree hrun).2 _ _ rfl
  exact ⟨u, sources, before, hrun, hstopped⟩

/-- **A failed run need not keep its outputs.** -/
theorem failed_run_may_write :
    ¬ ∀ (t u : FileTree) (c : Config) (s : Schema) (e : GeneratorError), t.Sound →
      Step.on (c.run s) t = (.error e, u) →
      ∀ path ∈ c.outputPaths, u.entry? path = t.entry? path := by
  intro hkeeps
  obtain ⟨u, hrun, hwritten⟩ := run_blockedTree
  have hsame := hkeeps _ _ _ _ _ sound_blockedTree hrun "codec.rs" List.mem_cons_self
  have habsent : blockedTree.entry? "codec.rs" = none := rfl
  rw [hsame, habsent] at hwritten
  cases hwritten

end TaggedWire
