import TaggedWire.Codec.Stream

/-! # Two readers in lockstep

    The same message can be read from a buffer, from a stream, by a codec
    that is driven by a schema or by one that was written for it. Such
    readers are different programs over different states. `Lockstep` is
    the relation in which all of them are compared: started in related
    states, two readers both succeed, with related values and again in
    related states, or both fail, and then a relation for failures holds.

    What one reader after another does is said first, by the lemmas on
    `run_bind`. The rules of the relation follow the way readers are put
    together, so that two readers of the same shape are compared part by
    part:

      * `lockstep_pure`, `lockstep_throw` for the two ways to end;
      * `lockstep_bind` for one reader after another;
      * `lockstep_ite` for a choice both make alike. -/

namespace TaggedWire

open EStateM (Result)

variable {ε ε' σ τ α α' β β' : Type}

/-! ## One reader after another -/

section

variable {x : EStateM ε σ α} {f : α → EStateM ε σ β} {s t : σ} {a : α} {b : β} {e : ε}

theorem run_bind_of_ok (h : x s = .ok a t) : (x >>= f) s = f a t := by
  show EStateM.bind x f s = _
  unfold EStateM.bind
  rw [h]

theorem run_bind_of_error (h : x s = .error e t) : (x >>= f) s = .error e t := by
  show EStateM.bind x f s = _
  unfold EStateM.bind
  rw [h]

/-- An answer is one of the second reader, where the first has left off. -/
theorem run_bind_ok_cases (h : (x >>= f) s = .ok b t) :
    ∃ a between, x s = .ok a between ∧ f a between = .ok b t := by
  cases hfirst : x s with
  | ok a between =>
    rw [run_bind_of_ok hfirst] at h
    exact ⟨a, between, rfl, h⟩
  | error e between =>
    rw [run_bind_of_error hfirst] at h
    cases h

/-- A failure is one of the first reader, or one of the second where the first
    has left off. -/
theorem run_bind_error_cases (h : (x >>= f) s = .error e t) :
    x s = .error e t ∨ ∃ a between, x s = .ok a between ∧ f a between = .error e t := by
  cases hfirst : x s with
  | ok a between =>
    rw [run_bind_of_ok hfirst] at h
    exact .inr ⟨a, between, rfl, h⟩
  | error e between =>
    rw [run_bind_of_error hfirst] at h
    cases h
    exact .inl rfl

end

/-! ## The relation -/

/-- What two outcomes have in common: values related by `V` in states
    related by `R`, or failures related by `E`. -/
def Outcomes (R : σ → τ → Prop) (E : ε → ε' → σ → τ → Prop) (V : α → β → Prop) :
    Result ε σ α → Result ε' τ β → Prop
  | .ok a s, .ok b t => V a b ∧ R s t
  | .error e s, .error e' t => E e e' s t
  | _, _ => False

/-- Two readers that have outcomes in common whenever they start in states
    related by `P`; where they succeed, they end in states related by
    `Q`. -/
def Lockstep (P Q : σ → τ → Prop) (E : ε → ε' → σ → τ → Prop) (V : α → β → Prop)
    (x : EStateM ε σ α) (y : EStateM ε' τ β) : Prop :=
  ∀ s t, P s t → Outcomes Q E V (x s) (y t)

/-! ## Rules -/

section

variable {P Q R : σ → τ → Prop} {E : ε → ε' → σ → τ → Prop} {V : α → β → Prop}
  {W : α' → β' → Prop}

/-- Less may be said about the states in which readers succeed. -/
theorem Lockstep.weaken {x : EStateM ε σ α} {y : EStateM ε' τ β} (h : Lockstep P Q E V x y)
    (hQR : ∀ s t, Q s t → R s t) : Lockstep P R E V x y := by
  intro s t hP
  have hxy := h s t hP
  cases hx : x s <;> cases hy : y t <;> rw [hx, hy] at hxy
  · exact ⟨hxy.1, hQR _ _ hxy.2⟩
  · exact hxy
  · exact hxy
  · exact hxy

theorem lockstep_pure {a : α} {b : β} (h : V a b) :
    Lockstep P P E V (pure a : EStateM ε σ α) (pure b : EStateM ε' τ β) := by
  intro s t hP
  exact ⟨h, hP⟩

/-- Two failures are in lockstep if they are related wherever they occur. -/
theorem lockstep_throw {e : ε} {e' : ε'} (h : ∀ s t, P s t → E e e' s t) :
    Lockstep P Q E V (throw e : EStateM ε σ α) (throw e' : EStateM ε' τ β) := by
  intro s t hP
  exact h s t hP

/-- **Sequencing**: readers in lockstep, followed by readers that are in
    lockstep on related values. -/
theorem lockstep_bind {x : EStateM ε σ α} {y : EStateM ε' τ β}
    {f : α → EStateM ε σ α'} {g : β → EStateM ε' τ β'}
    (h : Lockstep P Q E V x y) (hfg : ∀ a b, V a b → Lockstep Q R E W (f a) (g b)) :
    Lockstep P R E W (x >>= f) (y >>= g) := by
  intro s t hP
  have hxy := h s t hP
  -- Both first parts end alike, so only two of the four cases are left.
  cases hx : x s with
  | ok a s' =>
    cases hy : y t with
    | ok b t' =>
      rw [hx, hy] at hxy
      rw [run_bind_of_ok hx, run_bind_of_ok hy]
      exact hfg a b hxy.1 s' t' hxy.2
    | error e' t' => rw [hx, hy] at hxy; exact hxy.elim
  | error e s' =>
    cases hy : y t with
    | ok b t' => rw [hx, hy] at hxy; exact hxy.elim
    | error e' t' =>
      rw [hx, hy] at hxy
      rw [run_bind_of_error hx, run_bind_of_error hy]
      exact hxy

/-- **Choice**: both readers take the same branch. -/
theorem lockstep_ite {p q : Prop} [Decidable p] [Decidable q] {x x' : EStateM ε σ α}
    {y y' : EStateM ε' τ β} (hpq : p ↔ q)
    (hyes : p → Lockstep P Q E V x y) (hno : ¬ p → Lockstep P Q E V x' y') :
    Lockstep P Q E V (if p then x else x') (if q then y else y') := by
  by_cases hp : p
  · rw [if_pos hp, if_pos (hpq.mp hp)]
    exact hyes hp
  · rw [if_neg hp, if_neg (fun hq => hp (hpq.mpr hq))]
    exact hno hp

end

end TaggedWire
