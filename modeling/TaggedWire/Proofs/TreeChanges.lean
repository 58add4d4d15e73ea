import TaggedWire.Files.Access
import TaggedWire.Proofs.PlainPaths
import TaggedWire.Text.Utf8

/-! # Changes to a file tree

    In a sound tree everything lies in a directory, so what a plain path
    leads to can be read off one place of the tree. `Changes` says what an
    operation does to all the places: it touches some, and apart from them
    it only makes directories where there was nothing. Every operation
    keeps a tree sound and changes no more than the places it is about. -/

namespace TaggedWire.FileTree

open TaggedWire.Path

variable {t u v : FileTree} {path name : String} {dir : Location} {names : List String}

/-! ## Sound trees -/

/-- A tree in which everything lies in a directory. -/
structure Sound (t : FileTree) : Prop where
  parent : ∀ {dir name entry}, t.get? (dir ++ [name]) = some entry → t.get? dir = some .directory
  cwd : t.get? t.cwd = some .directory

/-- The place that a plain path leads to. -/
def place (t : FileTree) (path : String) : Location := t.start path ++ Path.names path

/-- What a path leads to, if it leads to anything. -/
def entry? (t : FileTree) (path : String) : Option Entry := (t.find path).toOption

theorem place_congr (h : u.cwd = t.cwd) (path : String) : u.place path = t.place path := by
  rw [place, place, start, start, h]

theorem get?_root (t : FileTree) : t.get? [] = some .directory := rfl

theorem Sound.start (ht : t.Sound) (path : String) : t.get? (t.start path) = some .directory := by
  unfold FileTree.start
  split
  · exact t.get?_root
  · exact ht.cwd

/-- An empty tree is sound. -/
theorem sound_empty : ({} : FileTree).Sound := by
  refine ⟨?_, rfl⟩
  intro dir name entry h
  simp [get?] at h

/-- All the way down to a directory there are directories. -/
theorem Sound.above (ht : t.Sound) (h : t.get? (dir ++ names) = some .directory) :
    t.get? dir = some .directory := by
  induction names generalizing dir with
  | nil => rwa [List.append_nil] at h
  | cons name names ih =>
    have hbelow : t.get? (dir ++ [name]) = some .directory :=
      ih (by rwa [List.append_assoc, List.singleton_append])
    exact ht.parent hbelow

theorem Sound.dropLast (ht : t.Sound) {place : Location} {entry : Entry}
    (h : t.get? place = some entry) : t.get? place.dropLast = some .directory := by
  rcases List.eq_nil_or_concat place with rfl | ⟨dir, name, rfl⟩
  · exact t.get?_root
  · rw [List.concat_eq_append] at h ⊢
    rw [List.dropLast_concat]
    exact ht.parent h

theorem Sound.insert (ht : t.Sound) (hdir : t.get? dir = some .directory)
    (hfree : t.get? (dir ++ [name]) ≠ some .directory) (entry : Entry) :
    (t.insert (dir ++ [name]) entry).Sound := by
  -- No directory is overwritten, so what lies in one still does.
  have hkept {place : Location} (h : t.get? place = some .directory) :
      (t.insert (dir ++ [name]) entry).get? place = some .directory := by
    rw [get?_insert _ _ _ _ (by simp), if_neg, h]
    rintro rfl
    exact hfree h
  constructor
  · intro dir' name' entry' h
    rw [get?_insert _ _ _ _ (by simp)] at h
    split at h
    · next hsame =>
      rw [(List.append_singleton_inj.mp hsame).1]
      exact hkept hdir
    · exact hkept (ht.parent h)
  · exact hkept ht.cwd

theorem Sound.erase (ht : t.Sound) (hfree : t.get? (dir ++ [name]) ≠ some .directory) :
    (t.erase (dir ++ [name])).Sound := by
  have hkept {place : Location} (h : t.get? place = some .directory) :
      (t.erase (dir ++ [name])).get? place = some .directory := by
    rw [get?_erase _ _ _ (by simp), if_neg, h]
    rintro rfl
    exact hfree h
  constructor
  · intro dir' name' entry' h
    rw [get?_erase _ _ _ (by simp)] at h
    split at h
    · cases h
    · exact hkept (ht.parent h)
  · exact hkept ht.cwd

/-! ## Where a plain path leads -/

theorem enter_ok_iff (hname : IsPlainName name) {next : Location} :
    t.enter dir name = .ok next ↔
      isLongName name = false ∧ t.get? (dir ++ [name]) = some .directory ∧
        next = dir ++ [name] := by
  rw [enter, if_neg hname.1, if_neg hname.2, lookUp]
  cases hlong : isLongName name with
  | true => simp
  | false =>
    cases hget : t.get? (dir ++ [name]) with
    | none => simp
    | some entry =>
      cases entry with
      | file bytes => simp
      | directory => simp [eq_comm]

/-- A walk down from a directory succeeds if it ends in a directory. -/
theorem walk_ok_iff (ht : t.Sound) (hnames : ∀ name ∈ names, IsPlainName name)
    (hdir : t.get? dir = some .directory) (next : Location) :
    t.walk dir names = .ok next ↔
      (∀ name ∈ names, isLongName name = false) ∧ t.get? (dir ++ names) = some .directory ∧
        next = dir ++ names := by
  induction names generalizing dir with
  | nil => simp [walk, hdir, @eq_comm _ dir next]
  | cons name names ih =>
    have hname : IsPlainName name := hnames name List.mem_cons_self
    have hrest : ∀ name ∈ names, IsPlainName name :=
      fun n hn => hnames n (List.mem_cons_of_mem _ hn)
    have hsplit : dir ++ name :: names = (dir ++ [name]) ++ names := by simp
    rw [walk, List.forall_mem_cons, hsplit]
    cases henter : t.enter dir name with
    | ok there =>
      obtain ⟨hshort, hthere, rfl⟩ := (enter_ok_iff hname).mp henter
      simp only [ih hrest hthere, hshort, true_and]
    | error e =>
      -- The first name is in the way, so there is no directory at the end.
      constructor
      · intro h
        cases h
      · rintro ⟨⟨hshort, -⟩, hend, -⟩
        rw [(enter_ok_iff hname).mpr ⟨hshort, ht.above hend, rfl⟩] at henter
        cases henter

theorem place_eq {above : List String} {last : String} (hpath : Path.names path = above ++ [last]) :
    t.place path = t.start path ++ above ++ [last] := by
  rw [place, hpath, List.append_assoc]

/-- A path down leads to its last name, in the directory that the names
    before it lead to. -/
theorem locate_ok_iff (ht : t.Sound) (hplain : ∀ name ∈ Path.names path, IsPlainName name)
    {above : List String} {last : String} (hpath : Path.names path = above ++ [last])
    (target : Target) :
    t.locate path = .ok target ↔
      hasNul path = false ∧ isTooLong path = false ∧ (∀ name ∈ above, isLongName name = false) ∧
        t.get? (t.start path ++ above) = some .directory ∧
        target = .named (t.start path ++ above) last (endsInSlash path) := by
  have hempty : ¬ path.isEmpty = true := by
    have hmem : last ∈ Path.names path := by simp [hpath]
    rw [String.isEmpty_iff]
    exact ne_empty_of_mem_names hmem
  rw [hpath] at hplain
  have habove : ∀ name ∈ above, IsPlainName name := fun n hn => hplain n (by simp [hn])
  have hlast : IsPlainName last := hplain last (by simp)
  unfold locate
  cases hnul : hasNul path with
  | true => simp
  | false =>
    cases hlong : isTooLong path with
    | true => simp [hempty]
    | false =>
      rw [if_neg Bool.false_ne_true, if_neg hempty, if_neg Bool.false_ne_true, hpath,
        List.getLast?_concat, List.dropLast_concat]
      have hwalk_iff := walk_ok_iff ht habove (ht.start path)
      cases hwalk : t.walk (t.start path) above with
      | error e =>
        constructor
        · intro h
          cases h
        · rintro ⟨-, -, hshort, hdir, -⟩
          rw [(hwalk_iff _).mpr ⟨hshort, hdir, rfl⟩] at hwalk
          cases hwalk
      | ok next =>
        obtain ⟨hshort, hdir, rfl⟩ := (hwalk_iff _).mp hwalk
        simp only [if_neg hlast.1, if_neg hlast.2, Except.ok.injEq, true_and]
        exact ⟨fun h => ⟨hshort, hdir, h.symm⟩, fun h => h.2.2.symm⟩

theorem usable_iff {above : List String} {last : String}
    (hpath : Path.names path = above ++ [last]) :
    Usable path ↔ hasNul path = false ∧ isTooLong path = false ∧
      (∀ name ∈ above, isLongName name = false) ∧ isLongName last = false := by
  constructor
  · intro h
    have hshort := h.shortNames
    rw [hpath] at hshort
    exact ⟨h.noNul, h.short, fun n hn => hshort n (by simp [hn]), hshort last (by simp)⟩
  · rintro ⟨hnul, hlong, habove, hlast⟩
    refine ⟨hnul, hlong, ?_⟩
    rw [hpath]
    intro name hname
    rcases List.mem_append.mp hname with h | h
    · exact habove name h
    · rwa [List.mem_singleton.mp h]

/-- A plain path leads to a name in a directory, or there is no directory
    for its last name, or it is unusable. -/
theorem locate_cases (ht : t.Sound) (hp : Plain path) :
    (∃ dir name, t.place path = dir ++ [name] ∧ t.locate path = .ok (.named dir name false) ∧
      t.get? dir = some .directory ∧ (Usable path ↔ isLongName name = false)) ∨
    ∃ e, t.locate path = .error e ∧
      (Usable path → t.get? (t.place path).dropLast ≠ some .directory) := by
  obtain ⟨above, last, hpath⟩ := hp.exists_last
  have hlocate := locate_ok_iff ht hp.plainNames hpath
  rw [FileTree.place_eq hpath, List.dropLast_concat]
  cases hfound : t.locate path with
  | error e =>
    refine .inr ⟨e, rfl, fun husable hdir => ?_⟩
    obtain ⟨hnul, hlong, habove, -⟩ := (usable_iff hpath).mp husable
    rw [(hlocate _).mpr ⟨hnul, hlong, habove, hdir, rfl⟩] at hfound
    cases hfound
  | ok target =>
    obtain ⟨hnul, hlong, habove, hdir, rfl⟩ := (hlocate _).mp hfound
    refine .inl ⟨_, last, rfl, by rw [hp.noSlash], hdir, ?_⟩
    rw [usable_iff hpath]
    exact ⟨fun h => h.2.2.2, fun h => ⟨hnul, hlong, habove, h⟩⟩

/-- A plain path leads to what is at its place. -/
theorem find_ok_iff (ht : t.Sound) (hp : Plain path) {entry : Entry} :
    t.find path = .ok entry ↔ Usable path ∧ t.get? (t.place path) = some entry := by
  rw [find]
  rcases locate_cases ht hp with ⟨dir, name, hplace, hlocate, -, husable⟩ | ⟨e, hlocate, hnone⟩
  · rw [hlocate, hplace, husable]
    simp only [lookUp]
    cases isLongName name with
    | true => simp
    | false =>
      cases t.get? (dir ++ [name]) with
      | none => simp
      | some found => cases found <;> simp
  · rw [hlocate]
    constructor
    · intro h
      cases h
    · rintro ⟨husable, hget⟩
      exact absurd (ht.dropLast hget) (hnone husable)

theorem entry?_eq_some_iff (ht : t.Sound) (hp : Plain path) {entry : Entry} :
    t.entry? path = some entry ↔ Usable path ∧ t.get? (t.place path) = some entry := by
  rw [← find_ok_iff ht hp, entry?]
  cases t.find path <;> simp [Except.toOption]

theorem isDirectory_iff : t.isDirectory path = true ↔ t.entry? path = some .directory := by
  rw [isDirectory, entry?]
  cases t.find path with
  | error e => simp [Except.toOption]
  | ok entry => cases entry <;> simp [Except.toOption]

theorem fromUTF8?_eq_some_iff {bytes : ByteArray} {text : String} :
    String.fromUTF8? bytes = some text ↔ bytes = text.toUTF8 := by
  have hbytes : String.fromUTF8? bytes = Utf8.decode? bytes.data.toList := by
    rw [Utf8.decode?, Array.toArray_toList]
  rw [hbytes, Utf8.decode?_eq_some_iff, Utf8.encode]
  exact ⟨fun h => ByteArray.ext (Array.toList_inj.mp h), fun h => h ▸ rfl⟩

/-- A path has a text if it leads to a file with the bytes of the text. -/
theorem readText_ok_iff {text : String} :
    t.readText path = .ok text ↔ t.entry? path = some (.file text.toUTF8) := by
  rw [readText, readBytes, entry?]
  cases t.find path with
  | error e => simp [Except.toOption]
  | ok entry =>
    cases entry with
    | directory => simp [Except.toOption]
    | file bytes =>
      simp only [Except.toOption, Option.some.injEq, Entry.file.injEq, ← fromUTF8?_eq_some_iff]
      cases String.fromUTF8? bytes <;> simp

/-- Whether a path leads to a file with a text. -/
def hasText (t : FileTree) (path text : String) : Bool := (t.readText path).toOption == some text

theorem hasText_iff {text : String} :
    t.hasText path text = true ↔ t.entry? path = some (.file text.toUTF8) := by
  rw [hasText, beq_iff_eq, ← readText_ok_iff]
  cases t.readText path <;> simp [Except.toOption]

/-! ## Changes -/

/-- What happens from one tree to another: some places are touched, and
    apart from them some directories are made where there was nothing. -/
structure Changes (made touched : Location → Prop) (t u : FileTree) : Prop where
  cwd : u.cwd = t.cwd
  sound : u.Sound
  entry : ∀ place, touched place ∨ u.get? place = t.get? place ∨
    t.get? place = none ∧ u.get? place = some .directory ∧ made place

/-- Nothing. -/
abbrev Nowhere : Location → Prop := fun _ => False

namespace Changes

variable {made made' touched touched' : Location → Prop} {entry : Entry}

theorem refl (ht : t.Sound) : Changes made touched t t :=
  ⟨rfl, ht, fun _ => .inr (.inl rfl)⟩

theorem mono (h : Changes made touched t u) (hmade : ∀ place, made place → made' place)
    (htouched : ∀ place, touched place → touched' place) : Changes made' touched' t u := by
  refine ⟨h.cwd, h.sound, fun place => ?_⟩
  rcases h.entry place with hplace | hplace | ⟨hnone, hdir, hplace⟩
  · exact .inl (htouched place hplace)
  · exact .inr (.inl hplace)
  · exact .inr (.inr ⟨hnone, hdir, hmade place hplace⟩)

theorem mono_touched (h : Changes made touched t u)
    (htouched : ∀ place, touched place → touched' place) : Changes made touched' t u :=
  h.mono (fun _ hmade => hmade) htouched

theorem place_eq (h : Changes made touched t u) (path : String) : u.place path = t.place path :=
  place_congr h.cwd path

/-- What is there stays if it is not touched. -/
theorem get?_of_some {place : Location} (h : Changes made touched t u) (hplace : ¬ touched place)
    (hentry : t.get? place = some entry) : u.get? place = some entry := by
  rcases h.entry place with htouched | hsame | ⟨hnone, -, -⟩
  · exact absurd htouched hplace
  · rw [hsame, hentry]
  · rw [hentry] at hnone
    cases hnone

theorem get?_eq {place : Location} (h : Changes made touched t u) (hplace : ¬ touched place)
    (hmade : ¬ made place) : u.get? place = t.get? place := by
  rcases h.entry place with htouched | hsame | ⟨-, -, hdir⟩
  · exact absurd htouched hplace
  · exact hsame
  · exact absurd hdir hmade

theorem trans (h : Changes made touched t u) (h' : Changes made touched u v) :
    Changes made touched t v := by
  refine ⟨h'.cwd.trans h.cwd, h'.sound, fun place => ?_⟩
  rcases h.entry place with htouched | hsame | ⟨hnone, hdir, hmade⟩
  · exact .inl htouched
  · rw [← hsame]
    exact h'.entry place
  · -- A directory that was made is no longer free, so it stays.
    by_cases htouched : touched place
    · exact .inl htouched
    · exact .inr (.inr ⟨hnone, h'.get?_of_some htouched hdir, hmade⟩)

/-- A path leads to what it led to if its place is left alone. -/
theorem entry?_eq (h : Changes made touched t u) (ht : t.Sound) (hp : Plain path)
    (hplace : ¬ touched (t.place path)) (hmade : ¬ made (t.place path)) :
    u.entry? path = t.entry? path := by
  refine Option.ext fun entry => ?_
  rw [entry?_eq_some_iff h.sound hp, entry?_eq_some_iff ht hp, h.place_eq,
    h.get?_eq hplace hmade]

end Changes

/-! ## What the operations change -/

theorem changes_insert (ht : t.Sound) (hdir : t.get? dir = some .directory)
    (hfree : t.get? (dir ++ [name]) ≠ some .directory) (made : Location → Prop) (entry : Entry) :
    Changes made (· = dir ++ [name]) t (t.insert (dir ++ [name]) entry) := by
  refine ⟨rfl, ht.insert hdir hfree entry, fun place => ?_⟩
  rw [get?_insert _ _ _ _ (by simp)]
  by_cases hplace : place = dir ++ [name]
  · exact .inl hplace
  · rw [if_neg hplace]
    exact .inr (.inl rfl)

theorem changes_erase (ht : t.Sound) (hfree : t.get? (dir ++ [name]) ≠ some .directory)
    (made : Location → Prop) : Changes made (· = dir ++ [name]) t (t.erase (dir ++ [name])) := by
  refine ⟨rfl, ht.erase hfree, fun place => ?_⟩
  rw [get?_erase _ _ _ (by simp)]
  by_cases hplace : place = dir ++ [name]
  · exact .inl hplace
  · rw [if_neg hplace]
    exact .inr (.inl rfl)

section

variable {made : Location → Prop}

theorem makeDirectory_ok (h : t.makeDirectory path = .ok u) :
    ∃ dir name slash, t.locate path = .ok (.named dir name slash) ∧
      t.get? (dir ++ [name]) = none ∧ u = t.insert (dir ++ [name]) .directory := by
  unfold makeDirectory lookUp at h
  split at h
  · cases h
  · cases h
  · next dir name slash hlocate =>
    refine ⟨dir, name, slash, hlocate, ?_⟩
    cases hlong : isLongName name with
    | true =>
      rw [hlong] at h
      cases h
    | false =>
      rw [hlong] at h
      cases hget : t.get? (dir ++ [name]) with
      | none =>
        rw [hget] at h
        cases h
        exact ⟨rfl, rfl⟩
      | some entry =>
        rw [hget] at h
        cases h

theorem changes_makeDirectory (ht : t.Sound)
    (hplain : ∀ name ∈ Path.names path, IsPlainName name) (hmade : made (t.place path))
    (h : t.makeDirectory path = .ok u) : Changes made Nowhere t u := by
  obtain ⟨dir, name, slash, hlocate, hnone, rfl⟩ := makeDirectory_ok h
  rcases List.eq_nil_or_concat (Path.names path) with hnil | ⟨above, last, hpath⟩
  · -- Without names the path leads to the root, if anywhere.
    unfold locate at hlocate
    simp only [hnil, List.getLast?_nil] at hlocate
    split at hlocate <;> try cases hlocate
    split at hlocate <;> try cases hlocate
    split at hlocate <;> cases hlocate
  · rw [List.concat_eq_append] at hpath
    obtain ⟨-, -, -, hdir, htarget⟩ := (locate_ok_iff ht hplain hpath _).mp hlocate
    cases htarget
    rw [FileTree.place_eq hpath] at hmade
    have hfree : t.get? (t.start path ++ above ++ [name]) ≠ some .directory := by
      rw [hnone]
      simp
    have hinsert := changes_insert ht hdir hfree made .directory
    refine ⟨hinsert.cwd, hinsert.sound, fun place => .inr ?_⟩
    rcases hinsert.entry place with rfl | hrest
    · refine .inr ⟨hnone, ?_, hmade⟩
      rw [get?_insert _ _ _ _ (by simp), if_pos rfl]
    · exact hrest

theorem changes_ensureDirectory (ht : t.Sound)
    (hplain : ∀ name ∈ Path.names path, IsPlainName name) (hmade : made (t.place path)) :
    Changes made Nowhere t (t.ensureDirectory path).2 := by
  unfold ensureDirectory
  cases hmake : t.makeDirectory path with
  | ok u => exact changes_makeDirectory ht hplain hmade hmake
  | error e =>
    simp only
    split <;> exact .refl ht

/-- A chain of directories is made from the top down. -/
theorem changes_makeChain (ht : t.Sound) {chain : List String}
    (h : ∀ path ∈ chain, path = "" ∨
      (∀ name ∈ Path.names path, IsPlainName name) ∧ made (t.place path)) :
    Changes made Nowhere t (t.makeChain chain).2 := by
  induction chain generalizing t with
  | nil => exact .refl ht
  | cons path above ih =>
    rw [makeChain]
    by_cases hempty : path = ""
    · rw [if_pos (String.isEmpty_iff.mpr hempty)]
      exact .refl ht
    · rw [if_neg (by rwa [String.isEmpty_iff])]
      obtain ⟨hplain, hmade⟩ := (h path List.mem_cons_self).resolve_left hempty
      -- The tree that the directories above leave, for the case that they are missing.
      have habove := ih ht fun q hq => h q (List.mem_cons_of_mem _ hq)
      cases hmake : t.makeDirectory path with
      | ok u => exact changes_makeDirectory ht hplain hmade hmake
      | error e =>
        cases e with
        | notFound =>
          simp only
          cases hchain : t.makeChain above with
          | mk result u =>
            rw [hchain] at habove
            cases result with
            | error e => exact habove
            | ok _ =>
              -- The same path leads to the same place after that.
              refine habove.trans (changes_ensureDirectory habove.sound hplain ?_)
              rwa [habove.place_eq]
        | _ =>
          simp only
          split <;> exact .refl ht

/-- A directory that is there need not be made. -/
theorem makeDirectories_of_isDirectory (h : t.isDirectory path = true) (hne : path ≠ "") :
    t.makeDirectories path = (.ok (), t) := by
  have hmake : t.makeDirectory path = .error .alreadyExists := by
    unfold isDirectory find at h
    unfold makeDirectory
    cases hlocate : t.locate path with
    | error e => simp [hlocate] at h
    | ok target =>
      cases target with
      | directory dir => rfl
      | named dir name slash =>
        simp only [hlocate] at h ⊢
        cases hlook : t.lookUp dir name with
        | error e => simp [hlook] at h
        | ok found =>
          cases found with
          | none => simp [hlook] at h
          | some entry => rfl
  rw [makeDirectories, makeChain, if_neg (by rwa [String.isEmpty_iff]), hmake]
  simp only [h, if_true]

/-- A directory on the way to a place. -/
def Above (place dir : Location) : Prop := dir <+: place.dropLast

theorem not_above_self (dir : Location) (name : String) :
    ¬ Above (dir ++ [name]) (dir ++ [name]) := by
  intro h
  have hlength := List.IsPrefix.length_le h
  rw [List.dropLast_concat, List.length_append, List.length_singleton] at hlength
  omega

/-- To make the directory that a plain path lies in, and those above it,
    leaves everything that is there as it is. -/
theorem changes_makeDirectories (ht : t.Sound) (hp : Plain path) {parent : String}
    (hparent : parent ∈ Path.parents path) (hne : parent ≠ "") :
    Changes (Above (t.place path)) Nowhere t (t.makeDirectories parent).2 := by
  -- One of the paths in the chain leads through some first names of the path.
  have hchain {other : String} (habsolute : isAbsolute other = isAbsolute path)
      (hnames : Path.names other <+: (Path.names path).dropLast) :
      (∀ name ∈ Path.names other, IsPlainName name) ∧ Above (t.place path) (t.place other) := by
    constructor
    · intro name hname
      exact hp.plainNames name (List.dropLast_subset _ (hnames.subset hname))
    · rw [Above, FileTree.place, FileTree.place,
        List.dropLast_append_of_ne_nil hp.names_ne_nil, FileTree.start, FileTree.start, habsolute]
      exact (List.prefix_append_right_inj _).mpr hnames
  obtain ⟨habsolute, hnames⟩ := (names_parent hparent).resolve_left hne
  refine changes_makeChain ht fun other hother => ?_
  rcases List.mem_cons.mp hother with rfl | hother
  · exact .inr (hchain habsolute hnames)
  · rcases names_parent hother with hempty | ⟨habsolute', hnames'⟩
    · exact .inl hempty
    · exact .inr (hchain (habsolute'.trans habsolute)
        (hnames'.trans ((List.dropLast_prefix _).trans hnames)))

/-! ## Files -/

theorem attempt_ok {change : FileTree → Except FileError FileTree} (h : change t = .ok u) :
    (attempt change).run t = (.ok (), u) := by
  show attempt change t = _
  rw [attempt, h]

theorem attempt_error {change : FileTree → Except FileError FileTree} {e : FileError}
    (h : change t = .error e) : (attempt change).run t = (.error e, t) := by
  show attempt change t = _
  rw [attempt, h]

/-- A usable path in a directory that exists leads to a name in it. -/
theorem locate_of_usable (ht : t.Sound) (hp : Plain path) (husable : Usable path)
    (hdir : t.get? (t.place path).dropLast = some .directory) :
    ∃ dir name, t.place path = dir ++ [name] ∧ t.locate path = .ok (.named dir name false) ∧
      t.get? dir = some .directory ∧ isLongName name = false := by
  rcases locate_cases ht hp with ⟨dir, name, hplace, hlocate, hdir, hshort⟩ | ⟨e, -, hnone⟩
  · exact ⟨dir, name, hplace, hlocate, hdir, hshort.mp husable⟩
  · exact absurd hdir (hnone husable)

/-- A file is written where no directory is. -/
theorem writeBytes_ok (ht : t.Sound) (hp : Plain path) {bytes : ByteArray}
    (h : t.writeBytes path bytes = .ok u) :
    Usable path ∧ Changes made (· = t.place path) t u ∧
      u.get? (t.place path) = some (.file bytes) := by
  unfold writeBytes lookUp at h
  rcases locate_cases ht hp with ⟨dir, name, hplace, hlocate, hdir, husable⟩ | ⟨e, hlocate, -⟩
  · simp only [hlocate, Bool.false_eq_true, if_false] at h
    rw [hplace, husable]
    cases hlong : isLongName name with
    | true =>
      rw [hlong] at h
      cases h
    | false =>
      rw [hlong] at h
      -- A directory in the place would have been an error.
      have hfree : t.get? (dir ++ [name]) ≠ some .directory := by
        intro hget
        rw [hget] at h
        cases h
      simp only [Bool.false_eq_true, if_false] at h
      cases h
      refine ⟨rfl, changes_insert ht hdir hfree made _, ?_⟩
      rw [get?_insert _ _ _ _ (by simp), if_pos rfl]
  · rw [hlocate] at h
    cases h

/-- A usable path in a directory can be written unless it is a directory. -/
theorem exists_writeBytes (ht : t.Sound) (hp : Plain path) (husable : Usable path)
    (hdir : t.get? (t.place path).dropLast = some .directory)
    (hfree : t.get? (t.place path) ≠ some .directory) (bytes : ByteArray) :
    ∃ u, t.writeBytes path bytes = .ok u := by
  obtain ⟨dir, name, hplace, hlocate, -, hshort⟩ := locate_of_usable ht hp husable hdir
  rw [hplace] at hfree
  refine ⟨t.insert (dir ++ [name]) (.file bytes), ?_⟩
  simp only [writeBytes, hlocate, lookUp, hshort, Bool.false_eq_true, if_false]

/-- A file that is there is removed. -/
theorem removeFile_ok (ht : t.Sound) (hp : Plain path) (husable : Usable path) {bytes : ByteArray}
    (hfile : t.get? (t.place path) = some (.file bytes)) :
    ∃ u, t.removeFile path = .ok u ∧ Changes made (· = t.place path) t u ∧
      u.get? (t.place path) = none := by
  obtain ⟨dir, name, hplace, hlocate, -, hshort⟩ :=
    locate_of_usable ht hp husable (ht.dropLast hfile)
  rw [hplace] at hfile ⊢
  have hfree : t.get? (dir ++ [name]) ≠ some .directory := by simp [hfile]
  refine ⟨t.erase (dir ++ [name]), ?_, changes_erase ht hfree made, ?_⟩
  · simp [removeFile, hlocate, lookUp, hshort, hfile]
  · rw [get?_erase _ _ _ (by simp), if_pos rfl]

section

variable {source target : String} {bytes : ByteArray}

theorem renameFile_onto_directory (ht : t.Sound) (hsource : Plain source) (htarget : Plain target)
    (husable : Usable source) (husable' : Usable target)
    (hfile : t.get? (t.place source) = some (.file bytes))
    (hdir : t.get? (t.place target) = some .directory) :
    t.renameFile source target = .error .isDirectory := by
  obtain ⟨dir, name, hplace, hlocate, -, hshort⟩ :=
    locate_of_usable ht hsource husable (ht.dropLast hfile)
  obtain ⟨dir', name', hplace', hlocate', -, hshort'⟩ :=
    locate_of_usable ht htarget husable' (ht.dropLast hdir)
  rw [hplace] at hfile
  rw [hplace'] at hdir
  simp [renameFile, hlocate, hlocate', lookUp, hshort, hshort', hfile, hdir]

/-- A file is moved to where no directory is. -/
theorem renameFile_ok (ht : t.Sound) (hsource : Plain source) (htarget : Plain target)
    (husable : Usable source) (husable' : Usable target)
    (hfile : t.get? (t.place source) = some (.file bytes))
    (hdir : t.get? (t.place target).dropLast = some .directory)
    (hfree : t.get? (t.place target) ≠ some .directory) :
    ∃ u, t.renameFile source target = .ok u ∧
      Changes made (fun place => place = t.place source ∨ place = t.place target) t u ∧
      u.get? (t.place target) = some (.file bytes) ∧
      (t.place source ≠ t.place target → u.get? (t.place source) = none) := by
  obtain ⟨dir, name, hplace, hlocate, -, hshort⟩ :=
    locate_of_usable ht hsource husable (ht.dropLast hfile)
  obtain ⟨dir', name', hplace', hlocate', hdir', hshort'⟩ :=
    locate_of_usable ht htarget husable' hdir
  rw [hplace] at hfile ⊢
  rw [hplace'] at hfree ⊢
  have hnot : t.get? (dir ++ [name]) ≠ some .directory := by simp [hfile]
  have herase : Changes made (· = dir ++ [name]) t (t.erase (dir ++ [name])) :=
    changes_erase ht hnot made
  -- Taking the file away does not touch the directory it goes to.
  have hdir'' : (t.erase (dir ++ [name])).get? dir' = some .directory := by
    refine herase.get?_of_some ?_ hdir'
    rintro rfl
    exact hnot hdir'
  have hfree' : (t.erase (dir ++ [name])).get? (dir' ++ [name']) ≠ some .directory := by
    rw [get?_erase _ _ _ (by simp)]
    split
    · simp
    · exact hfree
  refine ⟨(t.erase (dir ++ [name])).insert (dir' ++ [name']) (.file bytes), ?_, ?_, ?_, ?_⟩
  · simp [renameFile, hlocate, hlocate', lookUp, hshort, hshort', hfile]
  · exact (herase.mono_touched fun _ => .inl).trans
      ((changes_insert herase.sound hdir'' hfree' made _).mono_touched fun _ => .inr)
  · rw [get?_insert _ _ _ _ (by simp), if_pos rfl]
  · intro hdiffer
    rw [get?_insert _ _ _ _ (by simp), if_neg hdiffer, get?_erase _ _ _ (by simp), if_pos rfl]

end

end

end TaggedWire.FileTree
