import TaggedWire.Proofs.Encoding

/-! # Encoding only appends

    An encoder may be handed an output with bytes in it already. Whatever
    happens, these bytes stay, and what comes behind them does not depend
    on them:

      * a value that can be written adds the same bytes to every output, and
        at least one;
      * a value that cannot be written adds nothing, except that an optional
        has its presence byte out before the value inside is tried.

    The second point is sharp because of where the checks stand. The length
    of a string, the variant of an enumeration and a directly nested optional
    are all looked at before the first byte is pushed, so the presence byte
    of the outermost optional is the only byte that can be left over. -/

namespace TaggedWire

namespace Schema

variable {s : Schema} {type : FieldType} {v : Value} {bytes : List UInt8}

/-! ## At least one byte -/

/-- The bytes of a primitive are never none: a string has its length byte
    and every other kind has a fixed size. -/
theorem primitiveBytes_ne_nil {kind : Primitive} (h : primitiveBytes kind v = .ok bytes) :
    bytes ≠ [] := by
  apply List.ne_nil_of_length_pos
  unfold primitiveBytes at h
  split at h
  case h_1 text =>
    -- A string that is too long is refused, any other has a length byte.
    simp only at h
    split at h
    · cases h
      simp
    · cases h
  case h_8 => cases h
  all_goals
    cases h
    simp

theorem valueBytes_ne_nil (h : s.valueBytes type v = .ok bytes) : bytes ≠ [] := by
  cases type with
  | primitive kind => exact primitiveBytes_ne_nil h
  | optional inner =>
    rcases valueBytes_optional_ok_iff.mp h with ⟨_, rfl⟩ | ⟨w, body, _, _, _, rfl⟩
    · exact List.cons_ne_nil _ _
    · exact List.cons_ne_nil _ _
  | enumRef name =>
    obtain ⟨variant, index, _, _, rfl⟩ := valueBytes_enumRef_ok_iff.mp h
    exact List.cons_ne_nil _ _

/-! ## What a failure leaves -/

/-- The value can be written to some output. -/
def Writes (s : Schema) (type : FieldType) (v : Value) : Prop :=
  ∃ out written, s.encodeValue type v out = .ok () written

theorem writes_iff : s.Writes type v ↔ ∃ bytes, s.valueBytes type v = .ok bytes := by
  constructor
  · intro h
    obtain ⟨out, written, hrun⟩ := h
    rw [encodeValue_run] at hrun
    cases hbytes : s.valueBytes type v with
    | ok bytes => exact ⟨bytes, rfl⟩
    | error e => rw [hbytes] at hrun; cases hrun
  · intro h
    obtain ⟨bytes, hbytes⟩ := h
    refine ⟨[], bytes, ?_⟩
    rw [encodeValue_run, hbytes]
    rfl

/-- A value that is there, in an optional that may hold values, and that
    cannot be written itself. -/
def StopsInside (s : Schema) (type : FieldType) (v : Value) : Prop :=
  ∃ inner w, type = .optional inner ∧ inner.isOptional = false ∧ v = .present w ∧
    ¬ s.Writes inner w

theorem strayBytes_of_stopsInside (h : s.StopsInside type v) : strayBytes type v = [1] := by
  obtain ⟨inner, w, rfl, hplain, rfl, _⟩ := h
  simp [strayBytes, hplain]

/-- A value that cannot be written leaves nothing unless it stops inside. -/
theorem strayBytes_of_not_stopsInside {e : CodecError} (hfail : s.valueBytes type v = .error e)
    (h : ¬ s.StopsInside type v) : strayBytes type v = [] := by
  unfold strayBytes
  split
  · rename_i inner w
    split
    · rfl
    · -- The presence byte would be out, so the value inside is to blame.
      rename_i hplain
      exfalso
      apply h
      refine ⟨inner, w, rfl, Bool.eq_false_iff.mpr hplain, rfl, ?_⟩
      intro hwrites
      obtain ⟨body, hbody⟩ := writes_iff.mp hwrites
      simp [valueBytes, hplain, hbody, Except.map] at hfail
  · rfl

/-! ## Every outcome -/

/-- **Encoding only appends**: every output gets the same non-empty bytes
    behind it and the value has the shape of its type, or encoding fails the
    same way on every output and leaves it as it was, or it fails inside an
    optional and leaves the presence byte. -/
theorem encoding_only_appends (s : Schema) (type : FieldType) (v : Value) :
    (∃ bytes, bytes ≠ [] ∧ v.fits type = true ∧
      ∀ out, s.encodeValue type v out = .ok () (out ++ bytes)) ∨
    (∃ e, ¬ s.StopsInside type v ∧ ∀ out, s.encodeValue type v out = .error e out) ∨
    (∃ e, s.StopsInside type v ∧ ∀ out, s.encodeValue type v out = .error e (out ++ [1])) := by
  cases hbytes : s.valueBytes type v with
  | ok bytes =>
    left
    refine ⟨bytes, valueBytes_ne_nil hbytes, fits_of_valueBytes hbytes, ?_⟩
    intro out
    rw [encodeValue_run, hbytes]
  | error e =>
    right
    by_cases hinside : s.StopsInside type v
    · right
      refine ⟨e, hinside, ?_⟩
      intro out
      rw [encodeValue_run, hbytes, strayBytes_of_stopsInside hinside]
    · left
      refine ⟨e, hinside, ?_⟩
      intro out
      rw [encodeValue_run, hbytes, strayBytes_of_not_stopsInside hbytes hinside]
      simp

end Schema

end TaggedWire
