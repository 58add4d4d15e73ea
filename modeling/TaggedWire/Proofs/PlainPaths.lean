import TaggedWire.Files.Path

/-! # Plain paths

    A plain path has at least one name, goes through no `.` and no `..`,
    and does not end in a slash. Such a path is the names on its way: the
    directories above it are reached by fewer of these names, and a suffix
    at the end of the path is a suffix of its last name. -/

namespace TaggedWire.Path

/-- A name that leads down into a directory. -/
def IsPlainName (name : String) : Prop := name ≠ "." ∧ name ≠ ".."

instance (name : String) : Decidable (IsPlainName name) :=
  inferInstanceAs (Decidable (name ≠ "." ∧ name ≠ ".."))

/-- A path that goes only down and ends in a name. -/
structure Plain (path : String) : Prop where
  names_ne_nil : names path ≠ []
  plainNames : ∀ name ∈ names path, IsPlainName name
  noSlash : endsInSlash path = false

instance (path : String) : Decidable (Plain path) :=
  decidable_of_iff
    (names path ≠ [] ∧ (∀ name ∈ names path, IsPlainName name) ∧ endsInSlash path = false)
    ⟨fun h => ⟨h.1, h.2.1, h.2.2⟩, fun h => ⟨h.names_ne_nil, h.plainNames, h.noSlash⟩⟩

/-- A path that is within all limits. -/
structure Usable (path : String) : Prop where
  noNul : hasNul path = false
  short : isTooLong path = false
  shortNames : ∀ name ∈ names path, isLongName name = false

/-! ## Parts between slashes -/

theorem splitChars_ne_nil (cs : List Char) : splitChars cs ≠ [] := by
  cases cs with
  | nil => simp [splitChars]
  | cons c cs =>
    rw [splitChars]
    split
    · simp
    · split <;> simp

theorem splitChars_of_notMem {cs : List Char} (h : '/' ∉ cs) : splitChars cs = [cs] := by
  induction cs with
  | nil => rfl
  | cons c cs ih =>
    rw [List.mem_cons, not_or] at h
    rw [splitChars, if_neg (Ne.symm h.1), ih h.2]

/-- A slash parts what is before it from what is after it. -/
theorem splitChars_slash (before after : List Char) :
    splitChars (before ++ '/' :: after) = splitChars before ++ splitChars after := by
  induction before with
  | nil => rfl
  | cons c before ih =>
    rw [List.cons_append, splitChars, splitChars, ih]
    split
    · rfl
    · -- The character joins the first part before the slash, and there is one.
      cases hsplit : splitChars before with
      | nil => exact absurd hsplit (splitChars_ne_nil before)
      | cons first others => rfl

theorem slash_notMem_of_mem_splitChars {cs part : List Char} (h : part ∈ splitChars cs) :
    '/' ∉ part := by
  induction cs generalizing part with
  | nil =>
    rw [List.mem_singleton.mp h]
    simp
  | cons c cs ih =>
    rw [splitChars] at h
    by_cases hc : c = '/'
    · rw [if_pos hc] at h
      rcases List.mem_cons.mp h with rfl | h
      · simp
      · exact ih h
    · rw [if_neg hc] at h
      cases hsplit : splitChars cs with
      | nil => exact absurd hsplit (splitChars_ne_nil cs)
      | cons first others =>
        rw [hsplit] at h ih
        rcases List.mem_cons.mp h with rfl | h
        · have hfirst : '/' ∉ first := ih List.mem_cons_self
          simp [Ne.symm hc, hfirst]
        · exact ih (List.mem_cons_of_mem _ h)

theorem splitChars_intercalate {parts : List (List Char)} (hne : parts ≠ [])
    (h : ∀ part ∈ parts, '/' ∉ part) : splitChars (['/'].intercalate parts) = parts := by
  induction parts with
  | nil => exact absurd rfl hne
  | cons part parts ih =>
    have hpart : splitChars part = [part] := splitChars_of_notMem (h part List.mem_cons_self)
    cases parts with
    | nil => rw [List.intercalate_singleton, hpart]
    | cons next parts =>
      rw [List.intercalate_cons_cons, List.append_assoc, List.singleton_append, splitChars_slash,
        hpart, ih (List.cons_ne_nil _ _) fun p hp => h p (List.mem_cons_of_mem _ hp),
        List.singleton_append]

theorem parts_ne_nil (path : String) : parts path ≠ [] := by
  simp [parts, splitChars_ne_nil]

/-- Parts put together with slashes are parts again. -/
theorem parts_intercalate {path : String} {chosen : List String} (hne : chosen ≠ [])
    (h : chosen ⊆ parts path) : parts ("/".intercalate chosen) = chosen := by
  -- Parts have no slashes, so the ones put between them are the only ones.
  have hslash : ∀ part ∈ chosen.map String.toList, '/' ∉ part := by
    intro part hpart
    obtain ⟨text, htext, rfl⟩ := List.mem_map.mp hpart
    obtain ⟨chars, hchars, rfl⟩ := List.mem_map.mp (h htext)
    rw [String.toList_ofList]
    exact slash_notMem_of_mem_splitChars hchars
  rw [parts, String.toList_intercalate, show "/".toList = ['/'] from rfl,
    splitChars_intercalate (by simpa using hne) hslash]
  simp

/-- The last part of a path goes on with what is put behind the path. -/
theorem parts_append (path : String) {suffix : String} (hsuffix : '/' ∉ suffix.toList) :
    ∃ before last, parts path = before ++ [last] ∧
      parts (path ++ suffix) = before ++ [last ++ suffix] ∧
      (last = "" → path = "" ∨ endsInSlash path = true) := by
  by_cases hslash : '/' ∈ path.toList
  · -- Cut the path at its last slash.
    obtain ⟨after, before, hcut, hafter⟩ := List.eq_append_cons_of_mem (List.mem_reverse.mpr hslash)
    have hpath : path.toList = before.reverse ++ '/' :: after.reverse := by
      rw [← List.reverse_reverse path.toList, hcut]
      simp
    have hlast : '/' ∉ after.reverse := by simpa using hafter
    refine ⟨(splitChars before.reverse).map String.ofList, String.ofList after.reverse,
      ?_, ?_, ?_⟩
    · rw [parts, hpath, splitChars_slash, splitChars_of_notMem hlast, List.map_append]
      rfl
    · have hmore : '/' ∉ after.reverse ++ suffix.toList := by simp [hafter, hsuffix]
      rw [parts, String.toList_append, hpath, List.append_assoc, List.cons_append,
        splitChars_slash, splitChars_of_notMem hmore, List.map_append]
      simp
    · intro hempty
      have hnil : after.reverse = [] := by simpa using hempty
      right
      rw [endsInSlash, hpath, hnil]
      simp
  · refine ⟨[], path, ?_, ?_, .inl⟩
    · rw [parts, splitChars_of_notMem hslash]
      simp
    · rw [parts, splitChars_of_notMem (by simp [hslash, hsuffix])]
      simp

/-- A path ends in a slash only if its last part is empty. -/
theorem noSlash_of_parts {path : String} {before : List String} {last : String}
    (hparts : parts path = before ++ [last]) (hlast : last ≠ "") : endsInSlash path = false := by
  rw [← Bool.not_eq_true, endsInSlash, beq_iff_eq, List.getLast?_eq_some_iff]
  intro ⟨front, hpath⟩
  -- Behind a slash at the end there is an empty part.
  rw [parts, hpath, splitChars_slash, List.map_append] at hparts
  exact hlast (List.append_singleton_inj.mp hparts).2.symm

/-! ## Names -/

/-- A path starts at the root if its first part is empty. -/
theorem isAbsolute_iff {path : String} (h : path ≠ "") :
    isAbsolute path = true ↔ (parts path).head? = some "" := by
  cases hchars : path.toList with
  | nil => exact absurd (String.toList_eq_nil_iff.mp hchars) h
  | cons c cs =>
    rw [isAbsolute, parts, hchars, splitChars, List.head?_cons]
    by_cases hc : c = '/'
    · simp [hc]
    · cases hsplit : splitChars cs with
      | nil => exact absurd hsplit (splitChars_ne_nil cs)
      | cons first others => simp [hc]

theorem ne_empty_of_mem_names {path name : String} (h : name ∈ names path) : path ≠ "" := by
  rintro rfl
  cases h

theorem isAbsolute_append {path : String} (h : path ≠ "") (suffix : String) :
    isAbsolute (path ++ suffix) = isAbsolute path := by
  cases hchars : path.toList with
  | nil => exact absurd (String.toList_eq_nil_iff.mp hchars) h
  | cons c cs => simp [isAbsolute, String.toList_append, hchars]

theorem Plain.exists_last {path : String} (h : Plain path) :
    ∃ above last, names path = above ++ [last] :=
  ⟨_, _, (List.dropLast_concat_getLast h.names_ne_nil).symm⟩

/-- What is put behind a plain path is put behind its last name. -/
theorem Plain.names_append {path : String} (h : Plain path) {suffix : String}
    (hsuffix : '/' ∉ suffix.toList) :
    ∃ above last, names path = above ++ [last] ∧
      names (path ++ suffix) = above ++ [last ++ suffix] := by
  obtain ⟨before, last, hparts, hmore, hlast⟩ := parts_append path hsuffix
  -- An empty last part would be dropped, and the suffix would be a new name.
  have hne : last ≠ "" := by
    intro hempty
    rcases hlast hempty with rfl | hslash
    · exact h.names_ne_nil rfl
    · rw [h.noSlash] at hslash
      cases hslash
  refine ⟨before.filter (!·.isEmpty), last, ?_, ?_⟩
  · rw [names, hparts, List.filter_append]
    simp [hne]
  · rw [names, hmore, List.filter_append]
    simp [hne]

/-- A path with a longer last name is as plain as it was. -/
theorem Plain.append {path suffix : String} (h : Plain path) (hsuffix : '/' ∉ suffix.toList)
    (hlong : 2 < suffix.length) : Plain (path ++ suffix) := by
  obtain ⟨above, last, hpath, hmore⟩ := h.names_append hsuffix
  have hplain := h.plainNames
  rw [hpath] at hplain
  refine ⟨by simp [hmore], ?_, ?_⟩
  · rw [hmore]
    intro name hname
    rcases List.mem_append.mp hname with hname | hname
    · exact hplain name (List.mem_append_left _ hname)
    · rw [List.mem_singleton.mp hname]
      have hlength : 2 < (last ++ suffix).length := by
        rw [String.length_append]
        omega
      constructor
      · intro hdot
        rw [hdot] at hlength
        exact absurd hlength (by decide)
      · intro hdots
        rw [hdots] at hlength
        exact absurd hlength (by decide)
  · rw [endsInSlash, String.toList_append, List.getLast?_append]
    cases hend : suffix.toList.getLast? with
    | none =>
      rw [List.getLast?_eq_none_iff, String.toList_eq_nil_iff] at hend
      rw [hend] at hlong
      exact absurd hlong (by decide)
    | some c =>
      have hc : c ≠ '/' := by
        rintro rfl
        exact hsuffix (List.mem_of_getLast? hend)
      simp [hc]

/-- What is within the limits with something behind it is so without. -/
theorem Usable.of_append {path suffix : String} (h : Usable (path ++ suffix)) (hp : Plain path)
    (hsuffix : '/' ∉ suffix.toList) : Usable path := by
  obtain ⟨above, last, hpath, hmore⟩ := hp.names_append hsuffix
  have hnul := h.noNul
  have hshort := h.short
  have hnames := h.shortNames
  rw [hmore] at hnames
  simp only [hasNul, String.toList_append, List.contains_eq_mem, List.mem_append,
    decide_eq_false_iff_not, not_or] at hnul
  simp only [isTooLong, String.utf8ByteSize_append, decide_eq_false_iff_not] at hshort
  refine ⟨?_, ?_, ?_⟩
  · simpa [hasNul] using hnul.1
  · rw [isTooLong, decide_eq_false_iff_not]
    omega
  · rw [hpath]
    intro name hname
    rcases List.mem_append.mp hname with hname | hname
    · exact hnames name (List.mem_append_left _ hname)
    · have hlast := hnames (last ++ suffix) (by simp)
      rw [List.mem_singleton.mp hname]
      simp only [isLongName, String.utf8ByteSize_append, decide_eq_false_iff_not] at hlast ⊢
      omega

/-! ## Normal paths -/

/-- The parts of a path put together with slashes are the path. -/
theorem intercalate_splitChars (cs : List Char) : ['/'].intercalate (splitChars cs) = cs := by
  induction cs with
  | nil => rfl
  | cons c cs ih =>
    cases hsplit : splitChars cs with
    | nil => exact absurd hsplit (splitChars_ne_nil cs)
    | cons part parts =>
      rw [hsplit] at ih
      rw [splitChars, hsplit]
      by_cases hc : c = '/'
      · rw [if_pos hc, List.intercalate_cons_cons, ih, hc]
        rfl
      · rw [if_neg hc, ← ih]
        cases parts with
        | nil => simp
        | cons next parts => simp [List.intercalate_cons_cons]

theorem parts_inj {path other : String} (h : parts path = parts other) : path = other := by
  have hchars : splitChars path.toList = splitChars other.toList :=
    (List.map_inj_right fun _ _ hsame => String.ofList_injective hsame).mp h
  rw [← String.toList_inj, ← intercalate_splitChars path.toList, hchars,
    intercalate_splitChars]

/-- A relative path that is written out in full: no part of it is empty, a
    dot or two dots. -/
def Normal (path : String) : Prop := ∀ part ∈ parts path, part ≠ "" ∧ part ≠ "." ∧ part ≠ ".."

instance (path : String) : Decidable (Normal path) :=
  inferInstanceAs (Decidable (∀ part ∈ parts path, part ≠ "" ∧ part ≠ "." ∧ part ≠ ".."))

namespace Normal

variable {path : String} (h : Normal path)
include h

theorem empty_notMem : "" ∉ parts path := fun hmem => (h "" hmem).1 rfl

theorem names_eq : names path = parts path := by
  rw [names, List.filter_eq_self]
  intro part hpart
  simp [(h part hpart).1]

theorem ne_empty : path ≠ "" := by
  rintro rfl
  exact h.empty_notMem (by decide)

theorem not_absolute : isAbsolute path = false := by
  rw [← Bool.not_eq_true, isAbsolute_iff h.ne_empty]
  intro hhead
  exact h.empty_notMem (List.mem_of_head? hhead)

theorem noSlash : endsInSlash path = false := by
  obtain ⟨before, last, hparts⟩ : ∃ before last, parts path = before ++ [last] :=
    ⟨_, _, (List.dropLast_concat_getLast (parts_ne_nil path)).symm⟩
  exact noSlash_of_parts hparts (h last (by simp [hparts])).1

theorem plain : Plain path := by
  refine ⟨?_, ?_, h.noSlash⟩
  · rw [h.names_eq]
    exact parts_ne_nil path
  · rw [h.names_eq]
    exact fun part hpart => (h part hpart).2

/-- A longer last part is a name as well. -/
theorem names_append {suffix : String} (hsuffix : '/' ∉ suffix.toList) :
    names (path ++ suffix) = parts (path ++ suffix) := by
  obtain ⟨before, last, hparts, hmore, -⟩ := parts_append path hsuffix
  rw [names, List.filter_eq_self, hmore]
  rw [Normal, hparts] at h
  intro part hpart
  rcases List.mem_append.mp hpart with hpart | hpart
  · simp [(h part (List.mem_append_left _ hpart)).1]
  · have hlast : last ≠ "" := (h last (by simp)).1
    simp [List.mem_singleton.mp hpart, hlast]

end Normal

/-! ## The directories above a path -/

/-- The steps of a path, with their positions among its parts. -/
def steps (path : String) : List (String × Nat) :=
  (parts path).zipIdx.filter fun (part, position) => isStep part position

/-- A path up to one of its parts. -/
def cut (path : String) (position : Nat) : String :=
  "/".intercalate ((parts path).take (position + 1))

theorem cuts_eq (path : String) :
    cuts path = (steps path).reverse.map fun step => cut path step.2 := rfl

theorem steps_pairwise (path : String) : (steps path).Pairwise fun a b => a.2 < b.2 := by
  refine List.Pairwise.filter _ (List.pairwise_map.mp ?_)
  rw [List.zipIdx_map_snd]
  exact List.pairwise_lt_range' 1

theorem part_of_mem_steps {path : String} {step : String × Nat} (h : step ∈ steps path) :
    (parts path)[step.2]? = some step.1 ∧ (!step.1.isEmpty) = true := by
  obtain ⟨hmem, hstep⟩ := List.mem_filter.mp h
  exact ⟨List.mem_zipIdx_iff_getElem?.mp hmem, (Bool.and_eq_true_iff.mp hstep).1⟩

theorem parts_cut (path : String) (position : Nat) :
    parts (cut path position) = (parts path).take (position + 1) := by
  refine parts_intercalate ?_ (List.take_subset _ _)
  simp [parts_ne_nil]

theorem isAbsolute_cut {path : String} {step : String × Nat} (h : step ∈ steps path) :
    isAbsolute (cut path step.2) = isAbsolute path := by
  obtain ⟨hpart, hne⟩ := part_of_mem_steps h
  have hpath : step.1 ∈ names path := List.mem_filter.mpr ⟨List.mem_of_getElem? hpart, hne⟩
  have hcut : step.1 ∈ names (cut path step.2) := by
    refine List.mem_filter.mpr ⟨List.mem_of_getElem? (i := step.2) ?_, hne⟩
    rw [parts_cut, List.getElem?_take_of_succ, hpart]
  rw [Bool.eq_iff_iff, isAbsolute_iff (ne_empty_of_mem_names hcut),
    isAbsolute_iff (ne_empty_of_mem_names hpath), parts_cut, List.head?_take]
  simp

/-- The last step is a name that a shorter cut does not go through. -/
theorem names_cut_above {path : String} {step last : String × Nat} (hlast : last ∈ steps path)
    (hlt : step.2 < last.2) : names (cut path step.2) <+: (names path).dropLast := by
  obtain ⟨hpart, hne⟩ := part_of_mem_steps hlast
  have hnames : names path =
      names (cut path step.2) ++ ((parts path).drop (step.2 + 1)).filter (!·.isEmpty) := by
    rw [names, names, parts_cut, ← List.filter_append, List.take_append_drop]
  have hdrop : last.1 ∈ (parts path).drop (step.2 + 1) := by
    refine List.mem_of_getElem? (i := last.2 - (step.2 + 1)) ?_
    rw [List.getElem?_drop, Nat.add_sub_cancel' hlt, hpart]
  have hrest : ((parts path).drop (step.2 + 1)).filter (!·.isEmpty) ≠ [] :=
    List.ne_nil_of_mem (List.mem_filter.mpr ⟨hdrop, hne⟩)
  rw [hnames, List.dropLast_append_of_ne_nil hrest]
  exact List.prefix_append _ _

/-- The directories above a path are reached by fewer of its names. -/
theorem names_parent {path dir : String} (h : dir ∈ parents path) :
    dir = "" ∨ isAbsolute dir = isAbsolute path ∧ names dir <+: (names path).dropLast := by
  rw [parents, cuts_eq] at h
  cases hsteps : (steps path).reverse with
  | nil =>
    rw [hsteps] at h
    cases h
  | cons last above =>
    rw [hsteps, List.map_cons] at h
    rcases List.mem_append.mp h with h | h
    · obtain ⟨step, hstep, rfl⟩ := List.mem_map.mp h
      have hmem {one : String × Nat} (hone : one ∈ last :: above) : one ∈ steps path := by
        rw [← List.mem_reverse, hsteps]
        exact hone
      -- The steps come in reverse, so the first of them is the last one.
      have hlt : step.2 < last.2 := by
        have horder := List.pairwise_reverse.mpr (steps_pairwise path)
        rw [hsteps] at horder
        exact List.rel_of_pairwise_cons horder hstep
      exact .inr ⟨isAbsolute_cut (hmem (List.mem_cons_of_mem _ hstep)),
        names_cut_above (hmem List.mem_cons_self) hlt⟩
    · rw [List.mem_singleton.mp h]
      cases habsolute : isAbsolute path with
      | false => exact .inl rfl
      | true => exact .inr ⟨rfl, List.nil_prefix⟩

/-! ## The directory of a plain path -/

/-- The parts of a path around one of its names. -/
theorem exists_parts_of_names {path name : String} {front behind : List String}
    (h : names path = front ++ name :: behind) :
    ∃ above after, parts path = above ++ name :: after ∧ name ≠ "" ∧
      above.filter (!·.isEmpty) = front ∧ after.filter (!·.isEmpty) = behind := by
  obtain ⟨before, rest, hparts, hbefore, hrest⟩ := List.filter_eq_append_iff.mp h
  obtain ⟨gap, after, rfl, hgap, hname, hafter⟩ := List.filter_eq_cons_iff.mp hrest
  refine ⟨before ++ gap, after, ?_, by simpa using hname, ?_, hafter⟩
  · rw [hparts, List.append_assoc]
  · rw [List.filter_append, hbefore, List.filter_eq_nil_iff.mpr hgap, List.append_nil]

/-- Parts with their positions, the empty ones left out. -/
def stepsFrom (start : Nat) (parts : List String) : List (String × Nat) :=
  (parts.zipIdx start).filter fun step => !step.1.isEmpty

theorem stepsFrom_append (before after : List String) :
    stepsFrom 0 (before ++ after) = stepsFrom 0 before ++ stepsFrom before.length after := by
  rw [stepsFrom, List.zipIdx_append, List.filter_append, Nat.zero_add]
  rfl

theorem exists_stepsFrom {parts : List String} {name : String}
    (h : parts.filter (!·.isEmpty) = [name]) (start : Nat) :
    ∃ position, stepsFrom start parts = [(name, position)] := by
  have hmap : (stepsFrom start parts).map Prod.fst = [name] := by
    rw [← h]
    conv => rhs; rw [← List.zipIdx_map_fst start parts, List.filter_map]
    rfl
  obtain ⟨step, hstep, rfl⟩ := List.map_eq_singleton_iff.mp hmap
  exact ⟨step.2, hstep⟩

theorem parent?_eq {path : String} {above : List (String × Nat)} {last : String × Nat}
    (hsteps : steps path = above ++ [last]) :
    parent? path = (above.reverse.map (fun step => cut path step.2) ++
      [if isAbsolute path then "/" else ""]).head? := by
  have hcuts : cuts path =
      cut path last.2 :: above.reverse.map fun step => cut path step.2 := by
    rw [cuts_eq, hsteps, List.reverse_append]
    rfl
  rw [parent?, parents, hcuts]

namespace Plain

variable {path : String} (h : Plain path)
include h

/-- Every part that is not empty is a step. -/
theorem steps_eq : steps path = stepsFrom 0 (parts path) := by
  apply List.filter_congr
  intro step hstep
  have hpart : step.1 ∈ parts path := List.fst_mem_of_mem_zipIdx hstep
  cases hempty : step.1.isEmpty with
  | true => simp [isStep, hempty]
  | false =>
    have hname : step.1 ∈ names path := List.mem_filter.mpr ⟨hpart, by rw [hempty]; rfl⟩
    simp [isStep, hempty, (h.plainNames step.1 hname).1]

/-- A single name lies in the root, or where the path starts from. -/
theorem parent?_of_single {last : String} (hnames : names path = [last]) :
    parent? path = some (if isAbsolute path then "/" else "") := by
  obtain ⟨position, hstep⟩ := exists_stepsFrom hnames 0
  have hsteps : steps path = [] ++ [(last, position)] := by
    rw [h.steps_eq, hstep, List.nil_append]
  rw [parent?_eq hsteps]
  rfl

/-- A path of several names is cut behind the last of them but one. -/
theorem parent?_of_parts {above after : List String} {name last : String}
    (hparts : parts path = above ++ name :: after) (hname : name ≠ "")
    (hafter : after.filter (!·.isEmpty) = [last]) :
    parent? path = some (cut path above.length) ∧
      isAbsolute (cut path above.length) = isAbsolute path := by
  obtain ⟨position, hlast⟩ := exists_stepsFrom hafter (above.length + 1)
  have hhere : stepsFrom above.length (name :: after) =
      (name, above.length) :: stepsFrom (above.length + 1) after := by
    rw [stepsFrom, List.zipIdx_cons, List.filter_cons_of_pos (by simpa using hname), stepsFrom]
  have hsteps : steps path =
      (stepsFrom 0 above ++ [(name, above.length)]) ++ [(last, position)] := by
    rw [h.steps_eq, hparts, stepsFrom_append, hhere, hlast, List.append_assoc]
    rfl
  constructor
  · simp [parent?_eq hsteps]
  · have hstep : (name, above.length) ∈ steps path := by simp [hsteps]
    have habsolute := isAbsolute_cut hstep
    exact habsolute

/-- The directory of a plain path is reached by all of its names but the
    last. It is a plain path, unless it is the root or where the path starts
    from. -/
theorem parent :
    ∃ dir, parent? path = some dir ∧ isAbsolute dir = isAbsolute path ∧
      names dir = (names path).dropLast ∧ (dir = "" ∨ dir = "/" ∨ Plain dir) := by
  obtain ⟨above, last, hnames⟩ := h.exists_last
  rw [hnames, List.dropLast_concat]
  rcases List.eq_nil_or_concat above with rfl | ⟨front, next, rfl⟩
  · refine ⟨_, h.parent?_of_single hnames, ?_⟩
    cases habsolute : isAbsolute path with
    | false => exact ⟨rfl, rfl, .inl rfl⟩
    | true => exact ⟨rfl, rfl, .inr (.inl rfl)⟩
  · rw [List.concat_eq_append] at hnames ⊢
    have hplain : ∀ name ∈ front ++ [next], IsPlainName name := by
      intro name hname
      apply h.plainNames
      rw [hnames]
      exact List.mem_append_left _ hname
    rw [List.append_assoc] at hnames
    obtain ⟨above, after, hparts, hnext, hfront, hafter⟩ := exists_parts_of_names hnames
    obtain ⟨hparent, habsolute⟩ := h.parent?_of_parts hparts hnext hafter
    have hcut : parts (cut path above.length) = above ++ [next] := by
      rw [parts_cut, hparts, List.take_length_add_append]
      rfl
    have hdir : names (cut path above.length) = front ++ [next] := by
      rw [names, hcut, List.filter_append, hfront]
      simp [hnext]
    refine ⟨_, hparent, habsolute, hdir, .inr (.inr ⟨?_, ?_, noSlash_of_parts hcut hnext⟩)⟩
    · simp [hdir]
    · rw [hdir]
      exact hplain
end Plain

end TaggedWire.Path
