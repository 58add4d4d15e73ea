import TaggedWire.Proofs.Numbering
import TaggedWire.Scan.Mapping
import Mathlib.Data.List.Nodup

/-! # Three lookups, one numbering

    A category, an enumeration and a lookup table all number names by their
    positions, and each looks numbers up in a way of its own: a category
    searches its tagged messages, an enumeration takes a position and sees
    whether it fits a byte, and a table takes a position as it is. Names
    may repeat and lists may be longer than a byte can number.

    All three are lookups of first positions (`FirstAt`). They can differ
    only where the first position of a name does not fit a byte, and there
    the table alone has a number. From a name to its number and back is
    always the identity; the other way round it is the identity as far as
    the names differ. -/

namespace TaggedWire

/-! ## First positions -/

section

variable {α : Type} {entries : List α} {entry : α} {position : Nat}

/-- The entry stands at this position and nowhere before. -/
structure FirstAt (entries : List α) (entry : α) (position : Nat) : Prop where
  here : entries[position]? = some entry
  before : ∀ earlier < position, entries[earlier]? ≠ some entry

/-- Up to a limit the entries differ exactly if every position there is the
    first of its entry. -/
theorem nodup_take_iff_firstAt (limit : Nat) :
    (entries.take limit).Nodup ↔
      ∀ position < limit, ∀ entry, entries[position]? = some entry →
        FirstAt entries entry position := by
  rw [List.nodup_iff_getElem?_ne_getElem?]
  constructor
  · intro hdiffer position hlt entry hentry
    refine ⟨hentry, fun earlier hearlier hsame => ?_⟩
    have hlength : position < (entries.take limit).length := by
      rw [List.length_take]
      exact Nat.lt_min.mpr ⟨hlt, (List.getElem?_eq_some_iff.mp hentry).1⟩
    apply hdiffer earlier position hearlier hlength
    rw [List.getElem?_take_of_lt (Nat.lt_trans hearlier hlt), List.getElem?_take_of_lt hlt,
      hsame, hentry]
  · -- Of two equal entries the later one would not be at its first position.
    intro hfirst i j hij hj hsame
    rw [List.length_take] at hj
    obtain ⟨hlimit, hlength⟩ := Nat.lt_min.mp hj
    rw [List.getElem?_take_of_lt (Nat.lt_trans hij hlimit), List.getElem?_take_of_lt hlimit,
      List.getElem?_eq_getElem hlength] at hsame
    exact (hfirst j hlimit _ (List.getElem?_eq_getElem hlength)).before i hij hsame

variable [BEq α] [LawfulBEq α]

theorem findIdx?_beq_eq_some_iff :
    entries.findIdx? (· == entry) = some position ↔ FirstAt entries entry position := by
  rw [List.findIdx?_eq_some_iff_getElem]
  constructor
  · rintro ⟨hlt, hhere, hbefore⟩
    refine ⟨?_, fun earlier hearlier hsame => hbefore earlier hearlier ?_⟩
    · rw [List.getElem?_eq_getElem hlt, eq_of_beq hhere]
    · rw [(List.getElem?_eq_some_iff.mp hsame).2, beq_self_eq_true]
  · rintro ⟨hhere, hbefore⟩
    obtain ⟨hlt, rfl⟩ := List.getElem?_eq_some_iff.mp hhere
    refine ⟨hlt, beq_self_eq_true _, fun earlier hearlier hsame => hbefore earlier hearlier ?_⟩
    rw [List.getElem?_eq_getElem (Nat.lt_trans hearlier hlt), eq_of_beq hsame]

theorem bytePosition?_beq_eq_some_iff {number : UInt8} :
    bytePosition? (· == entry) entries = some number ↔ FirstAt entries entry number.toNat := by
  rw [bytePosition?_eq_some_iff, findIdx?_beq_eq_some_iff]

theorem bytePosition?_beq_eq_none_iff :
    bytePosition? (· == entry) entries = none ↔
      ∀ position < maxTags, ¬ FirstAt entries entry position := by
  constructor
  · intro hnone position hlt hfirst
    have hnumber : bytePosition? (· == entry) entries = some (UInt8.ofNat position) := by
      rwa [bytePosition?_beq_eq_some_iff, UInt8.toNat_ofNat_of_lt' hlt]
    rw [hnone] at hnumber
    cases hnumber
  · intro hnowhere
    cases hnumber : bytePosition? (· == entry) entries with
    | none => rfl
    | some number =>
      exact (hnowhere number.toNat number.toNat_lt
        (bytePosition?_beq_eq_some_iff.mp hnumber)).elim

/-- Every byte that numbers an entry is the number of that entry exactly if
    the entries that have numbers differ. -/
theorem bytePosition?_beq_inverse_iff :
    (∀ (number : UInt8) entry, entries[number.toNat]? = some entry →
      bytePosition? (· == entry) entries = some number) ↔ (entries.take maxTags).Nodup := by
  rw [nodup_take_iff_firstAt]
  constructor
  · intro hback position hlt entry hentry
    have hbyte : (UInt8.ofNat position).toNat = position := UInt8.toNat_ofNat_of_lt' hlt
    have hfirst := hback (UInt8.ofNat position) entry (by rwa [hbyte])
    rwa [bytePosition?_beq_eq_some_iff, hbyte] at hfirst
  · intro hfirst number entry hentry
    rw [bytePosition?_beq_eq_some_iff]
    exact hfirst number.toNat number.toNat_lt entry hentry

end

/-! ## Lookups by names alone -/

theorem bytePosition?_map {α β : Type} (p : β → Bool) (f : α → β) (entries : List α) :
    bytePosition? p (entries.map f) = bytePosition? (p ∘ f) entries := by
  unfold bytePosition?
  rw [List.findIdx?_map]

/-- The numbered entries are the entries paired with `0, 1, 2, …`, as far as a
    byte goes. -/
theorem tagged_eq_zip {α : Type} (entries : List α) :
    (tagged entries).map (Prod.map UInt8.toNat id) = (List.range maxTags).zip entries := by
  apply List.ext_getElem?
  intro position
  unfold tagged
  rw [List.getElem?_map, List.getElem?_map, List.getElem?_zipIdx, Nat.zero_add, List.zip,
    List.getElem?_zipWith]
  by_cases hlt : position < maxTags
  · rw [List.getElem?_take_of_lt hlt, List.getElem?_range hlt]
    cases entries[position]? with
    | none => rfl
    | some entry =>
      have hbyte : (UInt8.ofNat position).toNat = position := UInt8.toNat_ofNat_of_lt' hlt
      simp [hbyte]
  · -- Beyond the last byte there is nothing on either side.
    have htaken : (entries.take maxTags)[position]? = none := by
      rw [List.getElem?_eq_none_iff, List.length_take]
      omega
    have hrange : (List.range maxTags)[position]? = none := by
      rw [List.getElem?_eq_none_iff, List.length_range]
      omega
    rw [htaken, hrange]
    rfl

namespace Category

variable (c : Category)

theorem tagOf?_eq_names (name : String) :
    c.tagOf? name = bytePosition? (· == name) (c.messages.map (·.name)) := by
  rw [c.tagOf?_eq, bytePosition?_map]
  rfl

theorem messageByTag?_map_name (tag : UInt8) :
    (c.messageByTag? tag).map (·.name) = (c.messages.map (·.name))[tag.toNat]? :=
  List.getElem?_map.symm

theorem tagged_map_name :
    c.tagged.map (Prod.map UInt8.toNat (·.name)) =
      (List.range maxTags).zip (c.messages.map (·.name)) := by
  have hsplit : c.tagged.map (Prod.map UInt8.toNat (·.name)) =
      (c.tagged.map (Prod.map UInt8.toNat id)).map (Prod.map id (·.name)) := by
    rw [List.map_map]
    rfl
  rw [hsplit, Category.tagged, tagged_eq_zip, ← List.zip_map, List.map_id]

/-- Every tag is the tag of the name of its message exactly if the names that
    have tags differ. -/
theorem tagOf?_inverse_iff :
    (∀ tag m, c.messageByTag? tag = some m → c.tagOf? m.name = some tag) ↔
      ((c.messages.map (·.name)).take maxTags).Nodup := by
  rw [← bytePosition?_beq_inverse_iff]
  simp only [tagOf?_eq_names, ← messageByTag?_map_name, Option.map_eq_some_iff]
  constructor
  · rintro hback tag _ ⟨m, hm, rfl⟩
    exact hback tag m hm
  · intro hback tag m hm
    exact hback tag m.name ⟨m, hm, rfl⟩

end Category

namespace MappingTable

variable (t : MappingTable)

theorem idOf?_eq_none_iff (name : String) : t.idOf? name = none ↔ name ∉ t.names := by
  unfold idOf?
  rw [List.findIdx?_eq_none_iff]
  constructor
  · intro hdiffer hmem
    simpa using hdiffer name hmem
  · intro hmissing other hmem
    rw [beq_eq_false_iff_ne]
    rintro rfl
    exact hmissing hmem

/-- Up to a limit every position is the one of its name exactly if the names
    up to there differ. -/
theorem idOf?_inverse_iff (limit : Nat) :
    (∀ id < limit, ∀ name, t.nameOf? id = some name → t.idOf? name = some id) ↔
      (t.names.take limit).Nodup := by
  rw [nodup_take_iff_firstAt]
  unfold idOf? nameOf?
  simp only [findIdx?_beq_eq_some_iff]

end MappingTable

/-! ## Agreement -/

/-- How a category, an enumeration and a table look names and numbers up that
    all have the same names in the same order. -/
structure OneNumbering (names : List String) (c : Category) (e : Enumeration)
    (t : MappingTable) : Prop where
  /-- A message and a variant of the same name have the same number. -/
  tag_eq_index : ∀ name, c.tagOf? name = e.indexOf? name
  /-- The number of a message or a variant is the first position of its name. -/
  tag_eq_some_iff : ∀ name tag, c.tagOf? name = some tag ↔ FirstAt names name tag.toNat
  /-- There is none if the first position does not fit a byte, or if there is
      no position at all. -/
  tag_eq_none_iff : ∀ name,
    c.tagOf? name = none ↔ ∀ position < maxTags, ¬ FirstAt names name position
  /-- The number in the table is the first position, wherever that is. -/
  id_eq_some_iff : ∀ name position, t.idOf? name = some position ↔ FirstAt names name position
  id_eq_none_iff : ∀ name, t.idOf? name = none ↔ name ∉ names
  /-- A byte leads to the same name in all three. -/
  name_at : ∀ byte : UInt8, (c.messageByTag? byte).map (·.name) = names[byte.toNat]? ∧
    e.variant? byte = names[byte.toNat]? ∧ t.nameOf? byte.toNat = names[byte.toNat]?
  /-- The tagged messages are the messages paired with `0, 1, 2, …`, as far as
      a byte goes, and so are their names. -/
  tagged_messages : c.tagged.map (Prod.map UInt8.toNat id) = (List.range maxTags).zip c.messages
  tagged_names : c.tagged.map (Prod.map UInt8.toNat (·.name)) = (List.range maxTags).zip names
  /-- From a name to its number and back is the identity. -/
  name_of_tag : ∀ name tag, c.tagOf? name = some tag →
    (c.messageByTag? tag).map (·.name) = some name
  name_of_index : ∀ name index, e.indexOf? name = some index → e.variant? index = some name
  name_of_id : ∀ name id, t.idOf? name = some id → t.nameOf? id = some name
  /-- From a number that fits a byte to its name and back is the identity
      exactly if the names with such numbers differ. -/
  tag_of_name_iff :
    (∀ tag m, c.messageByTag? tag = some m → c.tagOf? m.name = some tag) ↔
      (names.take maxTags).Nodup
  index_of_name_iff :
    (∀ index variant, e.variant? index = some variant → e.indexOf? variant = some index) ↔
      (names.take maxTags).Nodup
  id_of_name_iff :
    (∀ id < maxTags, ∀ name, t.nameOf? id = some name → t.idOf? name = some id) ↔
      (names.take maxTags).Nodup

section

variable {names : List String} {c : Category} {e : Enumeration} {t : MappingTable}

/-- **One numbering**: a category, an enumeration and a table with the same
    names in the same order, however many and however often repeated, look
    names and numbers up alike, but for the numbers that no byte can hold. -/
theorem lookups_share_numbering (hc : c.messages.map (·.name) = names) (he : e.variants = names)
    (ht : t.names = names) : OneNumbering names c e t := by
  -- Each lookup is brought to the one list of names first.
  have htag : ∀ name, c.tagOf? name = bytePosition? (· == name) names := by
    intro name
    rw [c.tagOf?_eq_names, hc]
  have hindex : ∀ name, e.indexOf? name = bytePosition? (· == name) names := by
    intro name
    rw [Enumeration.indexOf?, he]
  have hid : ∀ name position, t.idOf? name = some position ↔ FirstAt names name position := by
    intro name position
    rw [MappingTable.idOf?, ht, findIdx?_beq_eq_some_iff]
  have hmessage : ∀ byte, (c.messageByTag? byte).map (·.name) = names[byte.toNat]? := by
    intro byte
    rw [c.messageByTag?_map_name, hc]
  have hvariant : ∀ byte, e.variant? byte = names[byte.toNat]? := by
    intro byte
    rw [Enumeration.variant?, he]
  have hname : ∀ position, t.nameOf? position = names[position]? := by
    intro position
    rw [MappingTable.nameOf?, ht]
  exact
    { tag_eq_index := fun name => by rw [htag, hindex]
      tag_eq_some_iff := fun name tag => by rw [htag, bytePosition?_beq_eq_some_iff]
      tag_eq_none_iff := fun name => by rw [htag, bytePosition?_beq_eq_none_iff]
      id_eq_some_iff := hid
      id_eq_none_iff := fun name => by rw [t.idOf?_eq_none_iff, ht]
      name_at := fun byte => ⟨hmessage byte, hvariant byte, hname byte.toNat⟩
      tagged_messages := tagged_eq_zip c.messages
      tagged_names := by rw [c.tagged_map_name, hc]
      name_of_tag := by
        intro name tag h
        rw [htag, bytePosition?_beq_eq_some_iff] at h
        rw [hmessage, h.here]
      name_of_index := by
        intro name index h
        rw [hindex, bytePosition?_beq_eq_some_iff] at h
        rw [hvariant, h.here]
      name_of_id := by
        intro name id h
        rw [hname, ((hid name id).mp h).here]
      tag_of_name_iff := by rw [c.tagOf?_inverse_iff, hc]
      index_of_name_iff := by
        rw [← bytePosition?_beq_inverse_iff]
        simp only [hvariant, hindex]
      id_of_name_iff := by rw [t.idOf?_inverse_iff, ht] }

/-- One name takes all the bytes, so that the next has no byte, only a number
    in the table; and only the first of the bytes is the number of its name. -/
theorem lookups_share_numbering_full :
    let names := List.replicate maxTags "Ping" ++ ["Pong"]
    let c : Category := ⟨"Echo", names.map fun name => ⟨name, []⟩⟩
    let e : Enumeration := ⟨"Echo", names⟩
    let t : MappingTable := ⟨"Echo", names⟩
    c.messages.map (·.name) = names ∧
      c.tagOf? "Ping" = some 0 ∧ e.indexOf? "Ping" = some 0 ∧ t.idOf? "Ping" = some 0 ∧
      c.tagOf? "Pong" = none ∧ e.indexOf? "Pong" = none ∧ t.idOf? "Pong" = some maxTags ∧
      (c.messageByTag? 255).map (·.name) = some "Ping" ∧ e.variant? 255 = some "Ping" ∧
      ¬ ∀ tag m, c.messageByTag? tag = some m → c.tagOf? m.name = some tag := by
  intro names c e t
  have hc : c.messages.map (·.name) = names := by
    rw [List.map_map]
    exact List.map_id names
  have h : OneNumbering names c e t := lookups_share_numbering hc rfl rfl
  have hping : ∀ position < maxTags, names[position]? = some "Ping" := by
    intro position hlt
    have hreplicate : position < (List.replicate maxTags "Ping").length := by simpa using hlt
    rw [List.getElem?_append_left hreplicate, List.getElem?_replicate, if_pos hlt]
  have hpong : names[maxTags]? = some "Pong" := by simp [names]
  have hother : ∀ position < maxTags, names[position]? ≠ some "Pong" := by
    intro position hlt
    rw [hping position hlt]
    decide
  have hfirst : FirstAt names "Ping" (0 : UInt8).toNat :=
    ⟨hping 0 (by decide), fun earlier hlt => (Nat.not_lt_zero _ hlt).elim⟩
  have htag := (h.tag_eq_some_iff "Ping" 0).mpr hfirst
  have hnone := (h.tag_eq_none_iff "Pong").mpr fun position hlt hat => hother position hlt hat.here
  have hlast := hping 255 (by decide)
  refine ⟨hc, htag, ?_, (h.id_eq_some_iff "Ping" 0).mpr hfirst, hnone, ?_,
    (h.id_eq_some_iff "Pong" maxTags).mpr ⟨hpong, hother⟩, ?_, ?_, ?_⟩
  · rw [← h.tag_eq_index, htag]
  · rw [← h.tag_eq_index, hnone]
  · exact (h.name_at 255).1.trans hlast
  · exact (h.name_at 255).2.1.trans hlast
  · -- The first two of the names that have a byte are the same.
    rw [h.tag_of_name_iff, nodup_take_iff_firstAt]
    intro hdiffer
    exact (hdiffer 1 (by decide) "Ping" (hping 1 (by decide))).before 0 (by decide)
      (hping 0 (by decide))

end

end TaggedWire
