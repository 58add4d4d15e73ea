import TaggedWire.Config.Basic
import TaggedWire.Proofs.PlainPaths

/-! # Directories inside directories

    Seeing a path from inside a directory, and the result from inside
    another, is seeing it from inside the two directories joined. All of
    this is about the texts of paths, in which an empty directory, an empty
    path, a slash at the end of either and a slash at the front of either
    are different things.

    The special cases meet in one place. `Path.entered` is a directory as
    the text that goes in front of what lies in it: empty, or with a slash
    at its end. A relative path is joined by putting that text in front of
    it (`join_of_relative`), and entering a joined directory enters the two
    of them one after the other (`entered_join`).

    A configuration holds five paths, two of which may be absent, and
    `relativeTo` treats them all alike (`relativeTo_eq_mapPaths`). -/

namespace TaggedWire

/-! ## Joining -/

namespace Path

/-- A directory as the text in front of what lies in it. -/
def entered (dir : String) : String :=
  if dir.isEmpty || endsInSlash dir then dir else dir ++ "/"

theorem join_of_absolute {path : String} (h : isAbsolute path = true) (dir : String) :
    join dir path = path := by
  simp [join, h]

theorem join_of_relative {path : String} (h : isAbsolute path = false) (dir : String) :
    join dir path = entered dir ++ path := by
  unfold join entered
  rw [h, if_neg Bool.false_ne_true]
  split
  · rfl
  · rfl

theorem entered_empty : entered "" = "" := rfl

/-- What a relative path in a directory starts with is up to the directory. -/
theorem isAbsolute_entered_append {path : String} (h : isAbsolute path = false) (dir : String) :
    isAbsolute (entered dir ++ path) = isAbsolute dir := by
  by_cases hdir : dir = ""
  · rw [hdir, entered_empty, String.empty_append, h]
    rfl
  · unfold entered
    split
    · exact isAbsolute_append hdir path
    · rw [String.append_assoc]
      exact isAbsolute_append hdir ("/" ++ path)

theorem endsInSlash_append {path : String} (h : path ≠ "") (front : String) :
    endsInSlash (front ++ path) = endsInSlash path := by
  have hchars : path.toList ≠ [] := fun hnil => h (String.toList_eq_nil_iff.mp hnil)
  simp [endsInSlash, String.toList_append, List.getLast?_eq_some_getLast hchars]

/-- Entering looks at the end of a text only. -/
theorem entered_append {path : String} (h : path ≠ "") (front : String) :
    entered (front ++ path) = front ++ entered path := by
  have hpath : path.isEmpty = false := by simpa using h
  have hwhole : (front ++ path).isEmpty = false := by simp [h]
  unfold entered
  rw [endsInSlash_append h, hpath, hwhole, Bool.false_or]
  split
  · rfl
  · exact String.append_assoc

/-- A directory that is entered already has nothing to add. -/
theorem entered_entered (dir : String) : entered (entered dir) = entered dir := by
  by_cases hend : (dir.isEmpty || endsInSlash dir) = true
  · simp [entered, hend]
  · have hslash : entered dir = dir ++ "/" := by simp [entered, hend]
    rw [hslash, entered_append (by decide)]
    rfl

theorem entered_join (outer inner : String) :
    entered (join outer inner) =
      if isAbsolute inner then entered inner else entered outer ++ entered inner := by
  cases habsolute : isAbsolute inner with
  | true => rw [join_of_absolute habsolute, if_pos rfl]
  | false =>
    rw [join_of_relative habsolute, if_neg Bool.false_ne_true]
    by_cases hempty : inner = ""
    · rw [hempty, entered_empty, String.append_empty]
      exact entered_entered outer
    · exact entered_append hempty (entered outer)

/-- **Joining is associative.** -/
theorem join_join (outer inner path : String) :
    join outer (join inner path) = join (join outer inner) path := by
  cases hpath : isAbsolute path with
  | true => simp only [join_of_absolute hpath]
  | false =>
    rw [join_of_relative hpath, join_of_relative hpath, entered_join]
    -- Whether the outer directory matters is up to the inner one.
    have hfront := isAbsolute_entered_append hpath inner
    cases hinner : isAbsolute inner with
    | true => rw [join_of_absolute (hfront.trans hinner), if_pos rfl]
    | false =>
      rw [join_of_relative (hfront.trans hinner), if_neg Bool.false_ne_true]
      exact String.append_assoc.symm

/-- Without a directory a path stays what it is. -/
theorem join_empty (path : String) : join "" path = path := by
  cases hpath : isAbsolute path with
  | true => exact join_of_absolute hpath ""
  | false => rw [join_of_relative hpath, entered_empty, String.empty_append]

end Path

/-! ## Configurations -/

namespace Config

/-- The paths of a configuration, the headers among them only if they are
    there. -/
def paths (c : Config) : List (Option String) :=
  [some c.rust.path, c.rust.header, some c.typescript.path, c.typescript.header,
    some c.typescript.mappingPath]

/-- A configuration with every path replaced. -/
def mapPaths (f : String → String) (c : Config) : Config where
  rust :=
    { path := f c.rust.path
      header := c.rust.header.map f
      flavor := c.rust.flavor }
  typescript :=
    { path := f c.typescript.path
      header := c.typescript.header.map f
      mappingPath := f c.typescript.mappingPath }
  mappings := c.mappings

theorem relativeTo_eq_mapPaths (dir : String) (c : Config) :
    c.relativeTo dir = c.mapPaths (Path.join dir) := rfl

theorem paths_mapPaths (f : String → String) (c : Config) :
    (c.mapPaths f).paths = c.paths.map (Option.map f) := rfl

theorem mapPaths_mapPaths (f g : String → String) (c : Config) :
    (c.mapPaths f).mapPaths g = c.mapPaths (g ∘ f) := by
  simp [mapPaths]

theorem mapPaths_id (c : Config) : c.mapPaths id = c := by
  simp [mapPaths]

/-- One directory after the other is the two of them joined. -/
theorem relativeTo_relativeTo (inner outer : String) (c : Config) :
    (c.relativeTo inner).relativeTo outer = c.relativeTo (Path.join outer inner) := by
  have hjoin : Path.join outer ∘ Path.join inner = Path.join (Path.join outer inner) := by
    funext path
    exact Path.join_join outer inner path
  rw [relativeTo_eq_mapPaths, relativeTo_eq_mapPaths, mapPaths_mapPaths, hjoin,
    relativeTo_eq_mapPaths]

theorem relativeTo_empty (c : Config) : c.relativeTo "" = c := by
  have hid : Path.join "" = id := funext Path.join_empty
  rw [relativeTo_eq_mapPaths, hid, mapPaths_id]

/-- **Directories act on configurations**: every path that is there is
    joined to the directory, the empty directory does nothing, and one after
    the other is the same as both joined. Flavor and mapping targets stay, so
    does every path from the root, and no header appears or goes away. Any
    other path gets the text of the directory in front of it, and a slash
    between the two unless the directory is empty or ends in one. A directory
    from the root acts only once. -/
theorem directories_act (c : Config) (inner outer : String) :
    (c.relativeTo inner).paths = c.paths.map (Option.map (Path.join inner)) ∧
    c.relativeTo "" = c ∧
    (c.relativeTo inner).relativeTo outer = c.relativeTo (Path.join outer inner) ∧
    (c.relativeTo inner).rust.flavor = c.rust.flavor ∧
    (c.relativeTo inner).mappings = c.mappings ∧
    (∀ position : Nat, c.paths[position]? = some none ↔
      (c.relativeTo inner).paths[position]? = some none) ∧
    (∀ (position : Nat) (path : String), c.paths[position]? = some (some path) →
      Path.isAbsolute path = true →
      (c.relativeTo inner).paths[position]? = some (some path)) ∧
    (∀ (position : Nat) (path : String), c.paths[position]? = some (some path) →
      Path.isAbsolute path = false →
      (c.relativeTo inner).paths[position]? = some (some
        (if inner = "" ∨ Path.endsInSlash inner = true then inner ++ path
          else inner ++ "/" ++ path))) ∧
    (Path.isAbsolute inner = true →
      (c.relativeTo inner).relativeTo inner = c.relativeTo inner) := by
  have hpaths : (c.relativeTo inner).paths = c.paths.map (Option.map (Path.join inner)) :=
    paths_mapPaths (Path.join inner) c
  refine ⟨hpaths, relativeTo_empty c, relativeTo_relativeTo inner outer c, rfl, rfl, ?_, ?_, ?_,
    ?_⟩
  · intro position
    rw [hpaths, List.getElem?_map]
    simp
  · intro position path hpath habsolute
    rw [hpaths, List.getElem?_map, hpath]
    simp [Path.join_of_absolute habsolute]
  · intro position path hpath hrelative
    rw [hpaths, List.getElem?_map, hpath]
    simp [Path.join, hrelative]
  · intro habsolute
    rw [relativeTo_relativeTo, Path.join_of_absolute habsolute]

/-- A codec moves into the directory, with one slash in between, and its
    header is found where it was. The directory acts once, and a directory
    inside it is entered first. -/
theorem directories_act_out :
    let c : Config := { rust := { path := "codec.rs", header := some "/lib/head.rs" } }
    (c.relativeTo "/out").paths[0]? = some (some "/out/codec.rs") ∧
      (c.relativeTo "/out/").paths[0]? = some (some "/out/codec.rs") ∧
      (c.relativeTo "/out").paths[1]? = some (some "/lib/head.rs") ∧
      (c.relativeTo "/out").relativeTo "/out" = c.relativeTo "/out" ∧
      ((c.relativeTo "gen").relativeTo "/out").paths[0]? = some (some "/out/gen/codec.rs") := by
  intro c
  obtain ⟨-, -, -, -, -, -, hroot, hmoved, honce⟩ := directories_act c "/out" ""
  obtain ⟨-, -, -, -, -, -, -, hslash, -⟩ := directories_act c "/out/" ""
  obtain ⟨-, -, hboth, -, -, -, -, -, -⟩ := directories_act c "gen" "/out"
  obtain ⟨-, -, -, -, -, -, -, hinside, -⟩ := directories_act c "/out/gen" ""
  refine ⟨hmoved 0 "codec.rs" rfl rfl, hslash 0 "codec.rs" rfl rfl,
    hroot 1 "/lib/head.rs" rfl rfl, honce rfl, ?_⟩
  rw [hboth]
  exact hinside 0 "codec.rs" rfl rfl

end Config

end TaggedWire
