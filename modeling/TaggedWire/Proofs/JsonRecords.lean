import TaggedWire.Proofs.JsonSkipping

/-! # Reading arrays and records

    An array is read as its elements, if each of its elements is read. A
    record is read from its members in whatever order they come.

    What a record reader has at hand between two members depends only on
    which fields it has met. So the draft of a record is given as a function
    of the keys that were seen: `FieldReads` says that entering a field is
    the same as having seen its key. A run over the members then only has to
    follow the list of keys.
-/

namespace TaggedWire.JsonText

/-! ## Items -/

/-- The text in front of an item: nothing for the first one, a comma behind
    blanks for any other. -/
inductive Onward (s : List Char) : Bool → List Char → Prop
  | first : Onward s true s
  | later {blanks : List Char} : Blanks blanks → Onward s false (blanks ++ ',' :: s)

theorem hasElement_onward {first : Bool} {s t input : List Char} {c : Char}
    (h : Onward s first input) (hs : skipBlanks s = c :: t) (hc : c ≠ ']') :
    hasElement first input = .ok (true, c :: t) := by
  have hpeek : peek s = .ok (some c, c :: t) := by simp only [peek, hs, List.head?_cons]
  cases h with
  | first =>
    rw [hasElement, bind_of_ok hpeek]
    simp only [hc, if_false, if_true]
    rfl
  | later hblanks =>
    have htake : take (',' :: s) = .ok ((), s) := rfl
    rw [hasElement, bind_of_ok (peek_before hblanks rfl)]
    simp only [reduceIte, Char.reduceEq, Bool.false_eq_true]
    rw [bind_of_ok htake, bind_of_ok hpeek]
    simp only [hc, if_false]
    rfl

theorem hasMember_onward {first : Bool} {s t input : List Char} (h : Onward s first input)
    (hs : skipBlanks s = '"' :: t) : hasMember first input = .ok (true, '"' :: t) := by
  have hpeek : peek s = .ok (some '"', '"' :: t) := by simp only [peek, hs, List.head?_cons]
  cases h with
  | first =>
    rw [hasMember, bind_of_ok hpeek]
    rfl
  | later hblanks =>
    have htake : take (',' :: s) = .ok ((), s) := rfl
    rw [hasMember, bind_of_ok (peek_before hblanks rfl)]
    simp only [reduceIte, Char.reduceEq, Bool.false_eq_true]
    rw [bind_of_ok htake, bind_of_ok hpeek]
    rfl

/-! ## Arrays -/

/-- The texts of an element are read as that element, and none of them could
    be taken for the end of the array. -/
structure ElementReads {α : Type} (element : Reader α) (text : α → List Char → Prop) : Prop where
  reads : ∀ a, ReadsAs element (text a) a
  starts : ∀ a s, text a s → ∃ c t, s = c :: t ∧ isJsonBlank c = false ∧ c ≠ ']'

section Arrays

variable {α : Type} {element : Reader α} {text : α → List Char → Prop}

theorem readElements_end {blanks : List Char} (h : Blanks blanks) (fuel : Nat) (first : Bool)
    (sofar : List α) (rest : List Char) :
    readElements element (fuel + 1) first sofar (blanks ++ ']' :: rest) =
      .ok (sofar.reverse, rest) := by
  have hend : hasElement first (blanks ++ ']' :: rest) = .ok (false, ']' :: rest) := by
    rw [hasElement, bind_of_ok (peek_before h rfl)]
    rfl
  rw [readElements, bind_of_ok hend]
  rfl

/-- One element is taken off the text and onto the others. -/
theorem readElements_step (helement : ElementReads element text)
    {a : α} {s rest input : List Char} {first : Bool} (hs : Padded (text a) s)
    (h : Onward (s ++ rest) first input) (fuel : Nat) (sofar : List α) :
    ∃ blanks, Blanks blanks ∧ readElements element (fuel + 1) first sofar input =
      readElements element fuel false (a :: sofar) (blanks ++ rest) := by
  obtain ⟨before, u, after, rfl, hbefore, hu, hafter⟩ := hs
  have hreads := helement.reads a [] u (after ++ rest) .nil hu
  obtain ⟨c, t, rfl, hblank, hclosing⟩ := helement.starts a u hu
  refine ⟨after, hafter, ?_⟩
  simp only [List.append_assoc, List.cons_append, List.nil_append] at h hreads
  rw [readElements, bind_of_ok (hasElement_onward h (skipBlanks_before hbefore hblank) hclosing)]
  simp only [if_true]
  rw [bind_of_ok hreads]

theorem readElements_separated (helement : ElementReads element text)
    {as : List α} {s : List Char} (hs : Separated (fun a => Padded (text a)) as s)
    {rest input : List Char} {first : Bool} (h : Onward (s ++ ']' :: rest) first input)
    {fuel : Nat} (hfuel : as.length < fuel) (sofar : List α) :
    readElements element fuel first sofar input = .ok (sofar.reverse ++ as, rest) := by
  induction hs generalizing fuel first sofar input with
  | last ha =>
    obtain ⟨fuel, rfl⟩ : ∃ n, fuel = n + 1 + 1 := ⟨fuel - 2, by
      simp only [List.length_cons, List.length_nil] at hfuel; omega⟩
    obtain ⟨blanks, hblanks, hstep⟩ := readElements_step helement ha h (fuel + 1) sofar
    rw [hstep, readElements_end hblanks, List.reverse_cons]
  | more ha _ ih =>
    obtain ⟨fuel, rfl⟩ : ∃ n, fuel = n + 1 := ⟨fuel - 1, by omega⟩
    rw [List.append_assoc] at h
    obtain ⟨blanks, hblanks, hstep⟩ := readElements_step helement ha h fuel sofar
    rw [List.length_cons] at hfuel
    rw [hstep, List.cons_append, ih (.later hblanks) (by omega), List.reverse_cons,
      List.append_assoc]
    rfl

/-- **An array is read as its elements.** -/
theorem readsAs_readArray (helement : ElementReads element text)
    (as : List α) :
    ReadsAs (readArray element) (Enclosed .array (fun a => Padded (text a)) as) as := by
  intro before s rest hbefore hs
  cases hs with
  | empty hblanks =>
    show readArray element (before ++ '[' :: (_ ++ [']'] ++ rest)) = _
    rw [readArray, bind_of_ok (peek_before hbefore rfl), List.append_assoc]
    exact readElements_end hblanks _ _ _ _
  | @full _ s hs =>
    show readArray element (before ++ '[' :: (s ++ [']'] ++ rest)) = _
    rw [readArray, bind_of_ok (peek_before hbefore rfl), List.append_assoc]
    have hfuel : as.length < (s ++ ']' :: rest).length + 1 := by
      have := hs.length_le
      simp only [List.length_append, List.length_cons]
      omega
    exact readElements_separated helement hs .first hfuel []

end Arrays

/-! ## Records -/

/-- Entering a field into a draft is having seen its key. -/
structure FieldReads {α : Type} (draft : List String → α) (field : FieldReader α)
    (text : FieldText) : Prop where
  key : field.key = text.key
  reads : ∀ seen, ReadsAs (field.enter (draft seen)) text.value (draft (text.key :: seen))

/-- Readers of the fields of a record, in the order of the fields as they are
    written. No two fields have the same key. -/
structure FieldsRead {α : Type} (draft : List String → α) (fields : List (FieldReader α))
    (texts : List FieldText) : Prop where
  each : List.Forall₂ (FieldReads draft) fields texts
  distinct : (texts.map FieldText.key).Nodup

section Records

variable {α : Type} {draft : List String → α} {fields : List (FieldReader α)}
  {texts : List FieldText}

theorem find?_known (hfields : FieldsRead draft fields texts) {text : FieldText}
    (hmem : text ∈ texts) :
    ∃ field, fields.find? (·.key == text.key) = some field ∧ FieldReads draft field text := by
  obtain ⟨h, hnodup⟩ := hfields
  induction h with
  | nil => cases hmem
  | @cons field first fields texts hfirst _ ih =>
    rw [List.map_cons, List.nodup_cons] at hnodup
    obtain rfl | hmem := List.mem_cons.mp hmem
    · exact ⟨field, by simp [hfirst.key], hfirst⟩
    · have hne : field.key ≠ text.key := by
        intro heq
        rw [hfirst.key] at heq
        exact hnodup.1 (heq ▸ List.mem_map_of_mem hmem)
      obtain ⟨found, hfound, hreads⟩ := ih hmem hnodup.2
      exact ⟨found, by simp [hne, hfound], hreads⟩

theorem find?_unknown (hfields : FieldsRead draft fields texts) {key : String}
    (hne : ∀ text ∈ texts, text.key ≠ key) : fields.find? (·.key == key) = none := by
  obtain ⟨h, -⟩ := hfields
  induction h with
  | nil => rfl
  | cons hfirst _ ih =>
    have hkey := hne _ List.mem_cons_self
    rw [← hfirst.key] at hkey
    simp only [List.find?_cons, beq_eq_false_iff_ne.mpr hkey]
    exact ih fun text hmem => hne text (List.mem_cons_of_mem _ hmem)

theorem readMembers_end {blanks : List Char} (h : Blanks blanks) (fuel : Nat) (first : Bool)
    (seen : List String) (a : α) (rest : List Char) :
    readMembers fields (fuel + 1) first seen a (blanks ++ '}' :: rest) = .ok (a, rest) := by
  have hend : hasMember first (blanks ++ '}' :: rest) = .ok (false, '}' :: rest) := by
    rw [hasMember, bind_of_ok (peek_before h rfl)]
    rfl
  rw [readMembers, bind_of_ok hend]
  rfl

/-- One member is taken off the text. If it is a field, its key counts as
    seen. -/
theorem readMembers_step (hfields : FieldsRead draft fields texts) {key : String}
    {s rest input : List Char} {first : Bool} (hs : MemberText texts key s)
    (hrest : StartsIn delimiters rest)
    (h : Onward (s ++ rest) first input) (fuel : Nat) {seen : List String}
    (hseen : key ∈ texts.map FieldText.key → key ∉ seen) :
    ∃ blanks seen', Blanks blanks ∧ (∀ k ∈ seen', k = key ∨ k ∈ seen) ∧
      (∀ k ∈ seen, k ∈ seen') ∧ (key ∈ texts.map FieldText.key → key ∈ seen') ∧
      readMembers fields (fuel + 1) first seen (draft seen) input =
        readMembers fields fuel false seen' (draft seen') (blanks ++ rest) := by
  obtain ⟨name, value, rfl, hname, hvalue⟩ := hs
  obtain ⟨before, quoted, after, rfl, hbefore, hquoted, hafter⟩ := hname
  -- The key is read, whatever it is the key of.
  have hkey := readsAs_readKey key [] quoted (after ++ ':' :: (value ++ rest)) .nil hquoted
  obtain ⟨body, -, rfl⟩ := hquoted
  simp only [List.append_assoc, List.cons_append, List.nil_append] at h hkey
  have hmember := hasMember_onward h (skipBlanks_before hbefore rfl)
  have hcolon : expect ':' (after ++ ':' :: (value ++ rest)) = .ok ((), value ++ rest) :=
    expect_before hafter rfl
  obtain ⟨text, hmem, rfl, hvalue⟩ | ⟨hne, hvalue⟩ := hvalue
  · obtain ⟨lead, v, blanks, rfl, hlead, hv, hblanks⟩ := hvalue
    obtain ⟨field, hfind, hreads⟩ := find?_known hfields hmem
    have hknown : text.key ∈ texts.map FieldText.key := List.mem_map_of_mem hmem
    refine ⟨blanks, text.key :: seen, hblanks, fun k hk => List.mem_cons.mp hk,
      fun k hk => List.mem_cons_of_mem _ hk, fun _ => List.mem_cons_self, ?_⟩
    have henter := hreads.reads seen lead v (blanks ++ rest) hlead hv
    simp only [List.append_assoc] at hmember hkey hcolon
    rw [readMembers, bind_of_ok hmember]
    simp only [if_true]
    rw [bind_of_ok hkey]
    simp only [hfind, hseen hknown, if_false]
    rw [bind_of_ok hcolon, bind_of_ok henter]
  · obtain ⟨lead, v, blanks, rfl, hlead, hv, hblanks⟩ := hvalue
    have hfind := find?_unknown hfields hne
    refine ⟨blanks, seen, hblanks, fun k hk => .inr hk, fun k hk => hk, ?_, ?_⟩
    · intro hknown
      obtain ⟨text, hmem, heq⟩ := List.mem_map.mp hknown
      exact absurd heq (hne text hmem)
    · have hskip := skipValue_append hlead hv (hrest.after_blanks hblanks)
      simp only [List.append_assoc] at hmember hkey hcolon
      rw [readMembers, bind_of_ok hmember]
      simp only [if_true]
      rw [bind_of_ok hkey]
      simp only [hfind]
      rw [bind_of_ok hcolon, bind_of_ok hskip]

/-- All members are taken off the text. The keys seen then are those seen
    before and those of the fields among the members. -/
theorem readMembers_separated (hfields : FieldsRead draft fields texts) {keys : List String}
    {s : List Char}
    (hs : Separated (MemberText texts) keys s) {rest input : List Char} {first : Bool}
    (h : Onward (s ++ '}' :: rest) first input) {fuel : Nat} (hfuel : keys.length < fuel)
    {seen : List String} (honce : ∀ key ∈ texts.map FieldText.key, keys.count key ≤ 1)
    (hseen : ∀ key ∈ texts.map FieldText.key, key ∈ keys → key ∉ seen) :
    ∃ seen', (∀ key ∈ seen, key ∈ seen') ∧
      (∀ key ∈ texts.map FieldText.key, key ∈ keys → key ∈ seen') ∧
      readMembers fields fuel first seen (draft seen) input = .ok (draft seen', rest) := by
  induction hs generalizing fuel first seen input with
  | @last key _ hmember =>
    obtain ⟨fuel, rfl⟩ : ∃ n, fuel = n + 1 + 1 := ⟨fuel - 2, by
      simp only [List.length_cons, List.length_nil] at hfuel; omega⟩
    obtain ⟨blanks, seen', hblanks, -, hkept, hknown, hstep⟩ :=
      readMembers_step hfields hmember (.cons (by decide) rest) h (fuel + 1)
        fun hkey => hseen key hkey List.mem_cons_self
    refine ⟨seen', hkept, ?_, ?_⟩
    · intro k hk hmem
      obtain rfl := List.mem_singleton.mp hmem
      exact hknown hk
    · rw [hstep, readMembers_end hblanks]
  | @more key keys _ t hmember _ ih =>
    obtain ⟨fuel, rfl⟩ : ∃ n, fuel = n + 1 := ⟨fuel - 1, by omega⟩
    rw [List.append_assoc, List.cons_append] at h
    have hfuel₁ : keys.length < fuel := by
      rw [List.length_cons] at hfuel
      omega
    obtain ⟨blanks, seen₁, hblanks, hadded, hkept, hknown, hstep⟩ :=
      readMembers_step hfields hmember (.cons (by decide) (t ++ '}' :: rest)) h fuel
        fun hkey => hseen key hkey List.mem_cons_self
    -- A field whose key is still to come is not the one that was just read.
    have hseen₁ : ∀ k ∈ texts.map FieldText.key, k ∈ keys → k ∉ seen₁ := by
      intro k hk hmem hmem₁
      obtain rfl | hold := hadded k hmem₁
      · have hcount := honce k hk
        have hpos := List.count_pos_iff.mpr hmem
        rw [List.count_cons_self] at hcount
        omega
      · exact hseen k hk (List.mem_cons_of_mem _ hmem) hold
    have honce₁ : ∀ k ∈ texts.map FieldText.key, keys.count k ≤ 1 := by
      intro k hk
      have := honce k hk
      rw [List.count_cons] at this
      omega
    obtain ⟨seen', hkept', hknown', hread⟩ := ih (.later hblanks) hfuel₁ honce₁ hseen₁
    refine ⟨seen', fun k hk => hkept' k (hkept k hk), ?_, by rw [hstep, hread]⟩
    intro k hk hmem
    obtain rfl | hmem := List.mem_cons.mp hmem
    · exact hkept' k (hknown hk)
    · exact hknown' k hk hmem

/-- **A record is read from its members**, in any order and among any others:
    it is the draft in which every field was seen that has to be. -/
theorem readsAs_readRecord {a : α} (hfields : FieldsRead draft fields texts)
    (hdraft : ∀ seen, (∀ text ∈ texts, text.key ∈ seen ∨ text.optional) → draft seen = a) :
    ReadsAs (readRecord fields (draft [])) (RecordText texts) a := by
  intro before s rest hbefore hs
  obtain ⟨keys, hs, hkeys⟩ := hs
  cases hs with
  | empty hblanks =>
    show readRecord fields (draft []) (before ++ '{' :: (_ ++ ['}'] ++ rest)) = _
    have hnone : draft [] = a := by
      apply hdraft
      intro text hmem
      obtain hcount | ⟨-, hoptional⟩ := hkeys text hmem
      · cases hcount
      · exact .inr hoptional
    rw [readRecord, bind_of_ok (peek_before hbefore rfl), List.append_assoc]
    rw [← hnone]
    exact readMembers_end hblanks _ _ _ _ rest
  | @full _ s hs =>
    show readRecord fields (draft []) (before ++ '{' :: (s ++ ['}'] ++ rest)) = _
    have hfuel : keys.length < (s ++ '}' :: rest).length + 1 := by
      have := hs.length_le
      simp only [List.length_append, List.length_cons]
      omega
    have honce : ∀ key ∈ texts.map FieldText.key, keys.count key ≤ 1 := by
      intro key hkey
      obtain ⟨text, hmem, rfl⟩ := List.mem_map.mp hkey
      obtain hcount | ⟨hcount, -⟩ := hkeys text hmem <;> omega
    obtain ⟨seen, -, hknown, hread⟩ := readMembers_separated hfields hs
      (.first (s := s ++ '}' :: rest)) hfuel honce fun key _ _ => List.not_mem_nil
    have hall : draft seen = a := by
      apply hdraft
      intro text hmem
      obtain hcount | ⟨-, hoptional⟩ := hkeys text hmem
      · have hmem' : text.key ∈ keys := List.count_pos_iff.mp (by omega)
        exact .inl (hknown _ (List.mem_map_of_mem hmem) hmem')
      · exact .inr hoptional
    rw [readRecord, bind_of_ok (peek_before hbefore rfl), List.append_assoc]
    rw [← hall]
    exact hread

end Records

end TaggedWire.JsonText
