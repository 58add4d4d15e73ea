import TaggedWire.Scan.Mapping

/-! # Sources that are cut short

    A source may end too early, for example in a file that was not written
    to its end. Some answers then only say that something is still missing:
    the anchor, or the brace that closes its block. Every other answer is
    `Settled`. It comes from a block that has been closed, so it is the same
    for all sources that go on from there.

    `Persists` compares the answer for a cut source with the answer for the
    whole one. It holds of a capture (`persists_captureBlock`), and it is
    closed under doing one thing after another (`persists_bind`), so it
    holds of everything that is built on captures. -/

namespace TaggedWire

open ScanState

/-! ## Settled answers -/

/-- An answer that more text cannot change. -/
def Settled {α : Type} : Except ScanError α → Prop
  | .ok _ => True
  | .error (.unterminatedNames _) => True
  | .error (.anchorNotFound _) => False
  | .error (.unclosedBlock _) => False

/-- If the answer for a part is settled, it is also the answer for the
    whole. -/
def Persists {α : Type} (part whole : Except ScanError α) : Prop :=
  Settled part → whole = part

section

variable {α β : Type} {part whole : Except ScanError α}

theorem Persists.refl (answer : Except ScanError α) : Persists answer answer := by
  intro _
  rfl

/-- What is settled for the part is so for the whole. -/
theorem Persists.eq {answer : Except ScanError α} (h : Persists part whole)
    (hpart : part = answer) (hsettled : Settled answer) : whole = answer := by
  rw [← hpart] at hsettled ⊢
  exact h hsettled

/-- **One step after another**: the second step may look at the source too,
    so it has to persist for each result of the first. -/
theorem persists_bind {next next' : α → Except ScanError β} (h : Persists part whole)
    (hnext : ∀ result, Persists (next result) (next' result)) :
    Persists (part >>= next) (whole >>= next') := by
  intro hsettled
  cases part with
  | ok result =>
    have hwhole : whole = .ok result := h.eq rfl trivial
    rw [hwhole]
    exact hnext result hsettled
  | error cause =>
    -- A cause that is not settled makes the whole answer unsettled.
    have hcause : Settled (.error cause : Except ScanError α) := by
      cases cause with
      | unterminatedNames inside => trivial
      | anchorNotFound anchor => exact hsettled
      | unclosedBlock anchor => exact hsettled
    rw [h hcause]
    rfl

end

/-! ## From captures to tables -/

section

variable {part whole : String} (hpart : part.toList <+: whole.toList)
include hpart

/-- **A capture** that has come to an end reads no further. -/
theorem persists_captureBlock (anchor : String) :
    Persists (captureBlock part anchor) (captureBlock whole anchor) := by
  intro hsettled
  obtain ⟨more, hwhole⟩ := hpart
  have hrun : (blockAfter anchor).run whole =
      ((blockAfter anchor).run part).runChars more := by
    unfold ScanState.run
    rw [← hwhole, runChars_append]
  unfold captureBlock at hsettled ⊢
  rw [hrun]
  -- Only a held text is settled, and it absorbs what follows.
  cases hstate : (blockAfter anchor).run part with
  | held text =>
    rw [runChars_held]
  | anchor literal progress next =>
    rw [hstate] at hsettled
    exact hsettled.elim
  | block inside next =>
    rw [hstate] at hsettled
    exact hsettled.elim
  | comment armed next =>
    rw [hstate] at hsettled
    exact hsettled.elim
  | names found current =>
    rw [hstate] at hsettled
    exact hsettled.elim

theorem persists_orderedNames (anchor : String) :
    Persists (orderedNames part anchor) (orderedNames whole anchor) := by
  unfold orderedNames
  apply persists_bind (persists_captureBlock hpart anchor)
  intro captured
  exact .refl (splitNames captured)

theorem persists_extract (target : MappingTarget) :
    Persists (target.extract part) (target.extract whole) := by
  unfold MappingTarget.extract
  apply persists_bind (persists_orderedNames hpart target.anchor)
  intro names
  exact .refl _

/-- The tables are extracted one target after the other. -/
theorem persists_extractTables (targets : List MappingTarget) :
    Persists (extractTables part targets) (extractTables whole targets) := by
  induction targets with
  | nil => exact .refl _
  | cons target targets ih =>
    unfold extractTables
    apply persists_bind (persists_extract hpart target)
    intro table
    apply persists_bind ih
    intro tables
    exact .refl _

theorem persists_renderMappings (targets : List MappingTarget) :
    Persists (renderMappings part targets) (renderMappings whole targets) := by
  unfold renderMappings
  apply persists_bind (persists_extractTables hpart targets)
  intro tables
  exact .refl _

/-- **A source that is cut short never gives another table.** What is
    captured or extracted from a part of a source is captured or extracted
    from the whole of it, and names that end inside something else do so in
    both. Hence the tables cannot be rendered from the part, or they are
    those of the whole. -/
theorem cut_source_never_misleads :
    (∀ anchor block, captureBlock part anchor = .ok block →
      captureBlock whole anchor = .ok block) ∧
    (∀ anchor names, orderedNames part anchor = .ok names →
      orderedNames whole anchor = .ok names) ∧
    (∀ anchor inside, orderedNames part anchor = .error (.unterminatedNames inside) →
      orderedNames whole anchor = .error (.unterminatedNames inside)) ∧
    (∀ targets, (∃ cause, renderMappings part targets = .error cause) ∨
      ∃ text, renderMappings part targets = .ok text ∧
        renderMappings whole targets = .ok text) := by
  refine ⟨?_, ?_, ?_, ?_⟩
  · intro anchor block h
    exact (persists_captureBlock hpart anchor).eq h trivial
  · intro anchor names h
    exact (persists_orderedNames hpart anchor).eq h trivial
  · intro anchor inside h
    exact (persists_orderedNames hpart anchor).eq h trivial
  · intro targets
    cases hrendered : renderMappings part targets with
    | error cause => exact .inl ⟨cause, rfl⟩
    | ok text =>
      exact .inr ⟨text, rfl, (persists_renderMappings hpart targets).eq hrendered trivial⟩

end

/-- A source that is cut behind its first block, and cut inside the comment
    in its second, behind a brace that ends the block. -/
theorem cut_source_never_misleads_comment :
    "E \x7bA,B\x7d".toList <+: "E \x7bA,B\x7d F \x7bC,/*\x7d*/\x7d".toList ∧
      orderedNames "E \x7bA,B\x7d F \x7bC,/*\x7d*/\x7d" "E \x7b" = .ok ["A", "B"] ∧
      "E \x7bA,B\x7d F \x7bC,/*\x7d".toList <+: "E \x7bA,B\x7d F \x7bC,/*\x7d*/\x7d".toList ∧
      orderedNames "E \x7bA,B\x7d F \x7bC,/*\x7d*/\x7d" "F \x7b" =
        .error (.unterminatedNames .comment) := by
  have hblock : "E \x7bA,B\x7d".toList <+: "E \x7bA,B\x7d F \x7bC,/*\x7d*/\x7d".toList := by
    decide
  have hcomment : "E \x7bA,B\x7d F \x7bC,/*\x7d".toList <+:
      "E \x7bA,B\x7d F \x7bC,/*\x7d*/\x7d".toList := by decide
  obtain ⟨_, hnames, _, _⟩ := cut_source_never_misleads hblock
  obtain ⟨_, _, hinside, _⟩ := cut_source_never_misleads hcomment
  exact ⟨hblock, hnames "E \x7b" ["A", "B"] rfl, hcomment,
    hinside "F \x7b" .comment rfl⟩

end TaggedWire
