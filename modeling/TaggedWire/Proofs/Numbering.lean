import TaggedWire.Schema.Basic

/-! # Names and numbers

    Messages and variants are looked up by name through the position of the
    first match, and by number through the entry at that position. Both
    lookups of a name are `bytePosition?`, whichever way they are written,
    and the entry at the number of a name bears that name. -/

namespace TaggedWire

variable {α : Type} {p : α → Bool} {entries : List α}

/-! ## Positions that a byte can hold -/

theorem bytePosition?_eq_some_iff {number : UInt8} :
    bytePosition? p entries = some number ↔ entries.findIdx? p = some number.toNat := by
  unfold bytePosition?
  constructor
  · intro h
    split at h
    · rename_i position hfound
      split at h
      · rename_i hlt
        cases h
        rw [hfound, UInt8.toNat_ofNat_of_lt' hlt]
      · cases h
    · cases h
  · intro h
    have hlt : number.toNat < maxTags := number.toNat_lt
    rw [h]
    simp only [hlt, if_true, UInt8.ofNat_toNat]

/-- The entry at the number of a name is one that was looked for. -/
theorem getElem?_of_bytePosition? {number : UInt8} (h : bytePosition? p entries = some number) :
    ∃ entry, entries[number.toNat]? = some entry ∧ p entry = true := by
  rw [bytePosition?_eq_some_iff, List.findIdx?_eq_some_iff_getElem] at h
  obtain ⟨hlt, hp, _⟩ := h
  exact ⟨entries[number.toNat], List.getElem?_eq_getElem hlt, hp⟩

/-- In a list that a byte can number, every first match has a number. -/
theorem bytePosition?_map_toNat (h : entries.length ≤ maxTags) :
    (bytePosition? p entries).map UInt8.toNat = entries.findIdx? p := by
  unfold bytePosition?
  cases hfound : entries.findIdx? p with
  | none => rfl
  | some position =>
    have hlt : position < maxTags :=
      Nat.lt_of_lt_of_le (List.findIdx?_eq_some_iff_getElem.mp hfound).1 h
    simp only [hlt, if_true, Option.map_some, UInt8.toNat_ofNat_of_lt' hlt]

/-- Where no two entries share a key, the number of an entry is the number
    of its key. -/
theorem bytePosition?_of_nodup {β : Type} [BEq β] [LawfulBEq β] {key : α → β}
    (hnodup : (entries.map key).Nodup) {number : UInt8} {entry : α}
    (h : entries[number.toNat]? = some entry) :
    bytePosition? (fun other => key other == key entry) entries = some number := by
  obtain ⟨hlt, rfl⟩ := List.getElem?_eq_some_iff.mp h
  rw [bytePosition?_eq_some_iff, List.findIdx?_eq_some_iff_getElem]
  refine ⟨hlt, beq_self_eq_true _, fun position hbefore hsame => ?_⟩
  have hdiffer := List.pairwise_iff_getElem.mp (List.pairwise_map.mp hnodup) position
    number.toNat (Nat.lt_trans hbefore hlt) hlt hbefore
  exact hdiffer (eq_of_beq hsame)

/-- In a list that a byte can number, every entry has a number. -/
theorem exists_number_of_mem (h : entries.length ≤ maxTags) {entry : α} (hmem : entry ∈ entries) :
    ∃ number : UInt8, entries[number.toNat]? = some entry := by
  obtain ⟨position, hposition⟩ := List.mem_iff_getElem?.mp hmem
  have hlt : position < maxTags :=
    Nat.lt_of_lt_of_le (List.getElem?_eq_some_iff.mp hposition).1 h
  refine ⟨UInt8.ofNat position, ?_⟩
  rw [UInt8.toNat_ofNat_of_lt' hlt, hposition]

/-! ## The numbered entries -/

/-- Cutting a list off keeps the first match if it comes before the cut. -/
theorem findIdx?_take (n : Nat) :
    (entries.take n).findIdx? p =
      match entries.findIdx? p with
      | some position => if position < n then some position else none
      | none => none := by
  have hsplit : (entries.take n ++ entries.drop n).findIdx? p = _ := List.findIdx?_append
  rw [List.take_append_drop] at hsplit
  cases hhead : (entries.take n).findIdx? p with
  | some position =>
    have hlt := (List.findIdx?_eq_some_iff_getElem.mp hhead).1
    rw [List.length_take] at hlt
    rw [hsplit, hhead]
    have hlt' : position < n := by omega
    simp [hlt']
  | none =>
    rw [hsplit, hhead, Option.none_or]
    cases htail : (entries.drop n).findIdx? p with
    | none => rfl
    | some position =>
      have hlt := (List.findIdx?_eq_some_iff_getElem.mp htail).1
      rw [List.length_drop] at hlt
      have hge : ¬ position + (entries.take n).length < n := by
        rw [List.length_take]
        omega
      simp only [Option.map_some, if_neg hge]

/-- The numbered entries are the first ones, as many as a byte can number. -/
theorem map_snd_tagged (entries : List α) :
    (tagged entries).map Prod.snd = entries.take maxTags := by
  unfold tagged
  rw [List.map_map]
  exact List.zipIdx_map_fst 0 (entries.take maxTags)

/-- The number of an entry is its position. -/
theorem getElem?_of_mem_tagged {number : UInt8} {entry : α} (h : (number, entry) ∈ tagged entries) :
    entries[number.toNat]? = some entry := by
  obtain ⟨⟨found, position⟩, hmem, heq⟩ := List.mem_map.mp h
  obtain ⟨rfl, rfl⟩ := Prod.mk.inj heq
  have htaken : (entries.take maxTags)[position]? = some found :=
    List.mem_zipIdx_iff_getElem?.mp hmem
  obtain ⟨hlt, -⟩ := List.getElem?_eq_some_iff.mp htaken
  rw [List.length_take] at hlt
  have hbyte : position < maxTags := by omega
  rw [UInt8.toNat_ofNat_of_lt' hbyte, ← htaken, List.getElem?_take_of_lt hbyte]

/-- Only entries of the list are numbered. -/
theorem mem_of_mem_tagged {number : UInt8} {entry : α} (h : (number, entry) ∈ tagged entries) :
    entry ∈ entries :=
  List.mem_of_getElem? (getElem?_of_mem_tagged h)

/-- In a list that a byte can number, no entry is cut off. -/
theorem length_tagged (h : entries.length ≤ maxTags) :
    (tagged entries).length = entries.length := by
  unfold tagged
  rw [List.length_map, List.length_zipIdx, List.length_take, Nat.min_eq_right h]

/-- In a list that a byte can number, every entry has its position as its
    number. -/
theorem tagged_getElem? (h : entries.length ≤ maxTags) {position : Nat} {entry : α}
    (hentry : entries[position]? = some entry) :
    ∃ number : UInt8, number.toNat = position ∧
      (tagged entries)[position]? = some (number, entry) := by
  have hlt : position < maxTags :=
    Nat.lt_of_lt_of_le (List.getElem?_eq_some_iff.mp hentry).1 h
  refine ⟨UInt8.ofNat position, UInt8.toNat_ofNat_of_lt' hlt, ?_⟩
  unfold tagged
  rw [List.take_of_length_le h, List.getElem?_map, List.getElem?_zipIdx, hentry, Nat.zero_add]
  rfl

/-- Searching the numbered entries finds the position of the first match. -/
theorem tagged_find? (p : α → Bool) (entries : List α) :
    ((tagged entries).find? fun entry => p entry.2).map Prod.fst = bytePosition? p entries := by
  have hfirst : (entries.take maxTags).findIdx? p = _ := List.findIdx?_eq_fst_find?_zipIdx
  unfold tagged bytePosition?
  rw [List.find?_map, Option.map_map]
  calc
    _ = ((entries.take maxTags).findIdx? p).map UInt8.ofNat := by
      rw [hfirst, Option.map_map]
      rfl
    _ = _ := by
      rw [findIdx?_take]
      cases entries.findIdx? p with
      | none => rfl
      | some position => by_cases hlt : position < maxTags <;> simp [hlt]

/-- A search finds no number if it finds nothing that has one. -/
theorem bytePosition?_eq_none_iff :
    bytePosition? p entries = none ↔ ∀ entry ∈ entries.take maxTags, p entry = false := by
  rw [← tagged_find?, Option.map_eq_none_iff, List.find?_eq_none, ← map_snd_tagged,
    List.forall_mem_map]
  simp only [Bool.not_eq_true]

/-- Searching for a number and looking up the entry that has it is searching
    the entries that have numbers. -/
theorem exists_bytePosition?_iff {entry : α} :
    (∃ number, bytePosition? p entries = some number ∧ entries[number.toNat]? = some entry) ↔
      (entries.take maxTags).find? p = some entry := by
  have hfind : (entries.take maxTags).find? p =
      ((tagged entries).find? fun found => p found.2).map Prod.snd := by
    rw [← map_snd_tagged, List.find?_map]
    rfl
  rw [hfind, ← tagged_find?]
  cases hfound : (tagged entries).find? fun found => p found.2 with
  | none => simp
  | some found =>
    have hentry := getElem?_of_mem_tagged (List.mem_of_find?_eq_some hfound)
    simp [hentry]

/-! ## Messages and variants -/

theorem Category.tagOf?_eq (c : Category) (name : String) :
    c.tagOf? name = bytePosition? (·.name == name) c.messages :=
  tagged_find? (fun m : Message => m.name == name) c.messages

/-- The message at the tag of a name has that name. -/
theorem Category.messageByTag?_of_tagOf? {c : Category} {name : String} {tag : UInt8}
    (h : c.tagOf? name = some tag) :
    ∃ m, c.messageByTag? tag = some m ∧ m.name = name := by
  rw [c.tagOf?_eq] at h
  obtain ⟨m, hm, hname⟩ := getElem?_of_bytePosition? h
  exact ⟨m, hm, eq_of_beq hname⟩

/-- Where the names differ, a message is found under its tag by its name. -/
theorem Category.tagOf?_of_messageByTag? {c : Category} (hnodup : (c.messages.map (·.name)).Nodup)
    {tag : UInt8} {m : Message} (h : c.messageByTag? tag = some m) :
    c.tagOf? m.name = some tag := by
  rw [c.tagOf?_eq]
  exact bytePosition?_of_nodup hnodup h

/-- The variant at the byte of a name has that name. -/
theorem Enumeration.variant?_of_indexOf? {e : Enumeration} {variant : String} {index : UInt8}
    (h : e.indexOf? variant = some index) : e.variant? index = some variant := by
  obtain ⟨found, hfound, hname⟩ := getElem?_of_bytePosition? h
  rw [← eq_of_beq hname]
  exact hfound

/-- Where the variants differ, a variant has the byte it is found at. -/
theorem Enumeration.indexOf?_of_variant? {e : Enumeration} (hnodup : e.variants.Nodup)
    {variant : String} {index : UInt8} (h : e.variant? index = some variant) :
    e.indexOf? variant = some index := by
  have hkeys : (e.variants.map id).Nodup := by rwa [List.map_id]
  exact bytePosition?_of_nodup hkeys h

end TaggedWire
