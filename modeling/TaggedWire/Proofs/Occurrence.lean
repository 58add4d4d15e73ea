import TaggedWire.Proofs.Words

/-! # Where a literal cannot occur

    Generated text is put together from fixed fragments and names, and an
    anchor is a literal of several words. Two facts keep an anchor from
    occurring where nobody put it:

      * a literal without a line end occurs inside one line or not at all
        (`not_infix_append`);
      * if the literal holds a *seam*, a space between two given
        characters, then it does not occur in a text without that seam.
        Being `Seamless` is a matter of the fragments of a text, since a
        word neither holds a space nor starts or ends with one. -/

namespace TaggedWire

/-! ## Lines -/

/-- Empty, or the end of a line. -/
def Terminated (text : List Char) : Prop := text = [] ∨ text.getLast? = some '\n'

theorem terminated_line (text : List Char) : Terminated (text ++ ['\n']) :=
  .inr List.getLast?_concat

theorem Terminated.append {t u : List Char} (ht : Terminated t) (hu : Terminated u) :
    Terminated (t ++ u) := by
  rcases hu with rfl | hu
  · rwa [List.append_nil]
  · exact .inr (by rw [List.getLast?_append, hu, Option.some_or])

/-- An occurrence does not reach over the end of a line: it lies before that
    end or behind it. -/
theorem occurrence_append {literal t u before after : List Char} (hline : '\n' ∉ literal)
    (hend : Terminated t) (h : t ++ u = before ++ literal ++ after) :
    (∃ rest, t = before ++ literal ++ rest) ∨
      ∃ start, before = t ++ start ∧ u = start ++ literal ++ after := by
  rcases List.append_eq_append_iff.mp h with ⟨gap, hgap, hu⟩ | ⟨gap, hgap, _⟩
  · right
    rcases List.append_eq_append_iff.mp hgap.symm with ⟨start, hstart, hrest⟩ | ⟨first, ht, hfirst⟩
    · exact ⟨start, hstart, by rw [hu, hrest]⟩
    by_cases hnil : first = []
    · rw [hnil, List.append_nil] at ht
      rw [hnil, List.nil_append] at hfirst
      exact ⟨[], by rw [ht, List.append_nil], by rw [hu, hfirst, List.nil_append]⟩
    · -- The part before the border is not empty, so it ends with the line.
      rcases hend with hempty | hlast
      · rw [hempty] at ht
        exact absurd (List.append_eq_nil_iff.mp ht.symm).2 hnil
      · rw [ht, List.getLast?_append, List.getLast?_eq_some_getLast hnil, Option.some_or] at hlast
        injection hlast with hlast
        apply absurd _ hline
        rw [hfirst]
        exact List.mem_append_left _ (hlast ▸ List.getLast_mem hnil)
  · left
    exact ⟨gap, hgap⟩

/-- No occurrence comes about where lines are put together. -/
theorem not_infix_append {literal t u : List Char} (hline : '\n' ∉ literal) (hend : Terminated t)
    (ht : ¬ literal <:+: t) (hu : ¬ literal <:+: u) : ¬ literal <:+: t ++ u := by
  intro ⟨before, after, h⟩
  rcases occurrence_append hline hend h.symm with ⟨rest, hrest⟩ | ⟨start, _, hstart⟩
  · exact ht ⟨before, rest, hrest.symm⟩
  · exact hu ⟨start, after, hstart.symm⟩

/-- Ending a line adds no occurrence. -/
theorem not_infix_line {literal text : List Char} (hline : '\n' ∉ literal)
    (h : ¬ literal <:+: text) : ¬ literal <:+: text ++ ['\n'] := by
  rw [List.infix_concat_iff, List.suffix_concat_iff]
  rintro ((rfl | ⟨before, rfl, _⟩) | hinfix)
  · exact h List.nil_infix
  · exact hline (List.mem_append_right before List.mem_cons_self)
  · exact h hinfix

/-- Whole lines in which a literal does not occur. -/
structure Without (literal text : List Char) : Prop where
  terminated : Terminated text
  absent : ¬ literal <:+: text

theorem Without.append {literal t u : List Char} (hline : '\n' ∉ literal)
    (ht : Without literal t) (hu : Without literal u) : Without literal (t ++ u) :=
  ⟨ht.terminated.append hu.terminated,
    not_infix_append hline ht.terminated ht.absent hu.absent⟩

theorem Without.flatten {literal : List Char} {chunks : List (List Char)}
    (hline : '\n' ∉ literal) (hne : literal ≠ []) (h : ∀ chunk ∈ chunks, Without literal chunk) :
    Without literal chunks.flatten := by
  induction chunks with
  | nil => exact ⟨.inl rfl, fun hinfix => hne (List.infix_nil.mp hinfix)⟩
  | cons chunk chunks ih =>
    exact .append hline (h chunk List.mem_cons_self)
      (ih fun other hother => h other (List.mem_cons_of_mem chunk hother))

theorem Without.line {literal text : List Char} (hline : '\n' ∉ literal)
    (h : ¬ literal <:+: text) : Without literal (text ++ ['\n']) :=
  ⟨terminated_line text, not_infix_line hline h⟩

/-! ## Occurrences that are alone -/

/-- The literal stands in the text behind `before` and nowhere else. -/
structure SoleOccurrence (literal text before after : List Char) : Prop where
  here : text = before ++ literal ++ after
  sole : ∀ b a, text = b ++ literal ++ a → b = before

/-- A line that consists of a literal behind some spaces holds it once. -/
theorem occurrence_indented {c : Char} {w start rest : List Char} (hc : c ≠ ' ')
    (hline : '\n' ∉ c :: w) {count : Nat}
    (h : List.replicate count ' ' ++ c :: w ++ ['\n'] = start ++ c :: w ++ rest) :
    start = List.replicate count ' ' := by
  induction count generalizing start with
  | zero =>
    cases start with
    | nil => rfl
    | cons x start =>
      -- There is room for one character more than the literal, the line end.
      have hlength := congrArg List.length h
      simp only [List.replicate_zero, List.nil_append, List.length_append, List.length_cons,
        List.length_nil] at hlength
      have hstart : start = [] := List.eq_nil_of_length_eq_zero (by omega)
      have hrest : rest = [] := List.eq_nil_of_length_eq_zero (by omega)
      rw [hstart, hrest, List.append_nil] at h
      have hend : w ++ ['\n'] = c :: w := (List.cons.inj h).2
      apply absurd _ hline
      rw [← hend]
      exact List.mem_append_right w List.mem_cons_self
  | succ count ih =>
    cases start with
    | nil => exact absurd (List.cons.inj h).1.symm hc
    | cons x start =>
      obtain ⟨hx, hrest⟩ := List.cons.inj h
      rw [List.replicate_succ, ih hrest, hx]

/-- A literal on a line of its own, between lines without it, occurs
    once. -/
theorem soleOccurrence_line {literal t u : List Char} {c : Char} (hfirst : literal.head? = some c)
    (hc : c ≠ ' ') (hline : '\n' ∉ literal) (ht : Without literal t) (hu : ¬ literal <:+: u)
    (count : Nat) :
    SoleOccurrence literal (t ++ (List.replicate count ' ' ++ literal ++ ['\n'] ++ u))
      (t ++ List.replicate count ' ') ('\n' :: u) where
  here := by simp
  sole := by
    intro b a h
    obtain ⟨w, rfl⟩ := List.head?_eq_some_iff.mp hfirst
    rcases occurrence_append hline ht.terminated h with ⟨rest, hrest⟩ | ⟨start, hb, hstart⟩
    · exact absurd ⟨b, rest, hrest.symm⟩ ht.absent
    rcases occurrence_append hline (terminated_line _) hstart with
      ⟨rest, hrest⟩ | ⟨gap, _, hgap⟩
    · rw [hb, occurrence_indented hc hline hrest]
    · exact absurd ⟨gap, a, hgap.symm⟩ hu

/-! ## Heads of blocks -/

/-- The head of a block: some words, a name and the brace. -/
def headText (words : List Char) (name : String) : List Char :=
  words ++ ' ' :: name.toList ++ [' '] ++ ['{']

section

variable {words : List Char} {name other : String}

theorem headText_ne_nil : headText words name ≠ [] :=
  List.append_ne_nil_of_right_ne_nil _ (List.cons_ne_nil _ _)

theorem newline_notMem_headText (hwords : '\n' ∉ words)
    (hname : ∀ c ∈ name.toList, isWordChar c = true) : '\n' ∉ headText words name := by
  have hword : '\n' ∉ name.toList := fun hmem => isWordChar_ne (hname _ hmem) (by decide) rfl
  simp [headText, hwords, hword]

/-- What stands after the last `c`. -/
theorem append_cons_right_inj {α : Type} {c : α} {before before' after after' : List α}
    (h : before ++ c :: after = before' ++ c :: after') (hafter : c ∉ after)
    (hafter' : c ∉ after') : after = after' := by
  rcases List.append_eq_append_iff.mp h with ⟨gap, _, hgap⟩ | ⟨gap, _, hgap⟩
  · cases gap with
    | nil => exact (List.cons.inj hgap).2
    | cons x gap =>
      rw [(List.cons.inj hgap).2] at hafter
      exact (hafter (List.mem_append_right gap List.mem_cons_self)).elim
  · cases gap with
    | nil => exact (List.cons.inj hgap).2.symm
    | cons x gap =>
      rw [(List.cons.inj hgap).2] at hafter'
      exact (hafter' (List.mem_append_right gap List.mem_cons_self)).elim

/-- The head with one name does not occur in the head with another. -/
theorem headText_infix_inj (hwords : '{' ∉ words) (hname : IsWord name) (hother : IsWord other)
    {count : Nat} (h : headText words name <:+: List.replicate count ' ' ++ headText words other) :
    name = other := by
  have hbrace : '{' ∉ List.replicate count ' ' ++ (words ++ ' ' :: other.toList ++ [' ']) := by
    have : '{' ∉ other.toList := fun hmem => isWordChar_ne (hother.2 _ hmem) (by decide) rfl
    simp [this, hwords]
  have hspace {w : String} (hw : IsWord w) : ' ' ∉ w.toList :=
    fun hmem => isWordChar_ne (hw.2 _ hmem) (by decide) rfl
  -- The brace is the last character of both, so one text ends the other.
  unfold headText at h
  rw [← List.append_assoc, List.infix_concat_iff] at h
  rcases h with h | h
  · obtain ⟨before, heq⟩ := h
    have hheads : (before ++ words ++ ' ' :: name.toList) ++ [' ', '{'] =
        (List.replicate count ' ' ++ words ++ ' ' :: other.toList) ++ [' ', '{'] := by
      simpa using heq
    exact String.toList_inj.mp (append_cons_right_inj (List.append_cancel_right hheads)
      (hspace hname) (hspace hother))
  · exact (hbrace (h.subset (List.mem_append_right _ List.mem_cons_self))).elim

end

/-! ## Seams -/

/-- A seam: a space between two word characters. -/
structure Seam where
  left : Char
  right : Char
  left_word : isWordChar left = true
  right_word : isWordChar right = true

namespace Seam

/-- The text of a seam. -/
def chars (seam : Seam) : List Char := [seam.left, ' ', seam.right]

/-- How much of a seam a text ends with. -/
inductive Progress where
  | apart
  /-- The character on the left. -/
  | left
  /-- That character and a space. -/
  | gap
  /-- There was a seam, or a line ended. -/
  | broken
  deriving DecidableEq

/-- Whether it takes more than one character to complete a seam. -/
def Progress.settled : Progress → Bool
  | .apart | .left => true
  | .gap | .broken => false

/-- One more character. -/
def after (seam : Seam) (p : Progress) (x : Char) : Progress :=
  if x = '\n' then .broken
  else
    match p with
    | .apart => if x = seam.left then .left else .apart
    | .left => if x = ' ' then .gap else if x = seam.left then .left else .apart
    | .gap => if x = seam.right then .broken else if x = seam.left then .left else .apart
    | .broken => .broken

/-- The characters of a text, one after the other. -/
def run (seam : Seam) (p : Progress) (text : List Char) : Progress := text.foldl seam.after p

variable (seam : Seam)

theorem left_ne_space : seam.left ≠ ' ' := isWordChar_ne seam.left_word (by decide)

theorem run_append (p : Progress) (t u : List Char) :
    seam.run p (t ++ u) = seam.run (seam.run p t) u := List.foldl_append

theorem after_broken (x : Char) : seam.after .broken x = .broken := by
  unfold after
  split <;> rfl

theorem run_broken (text : List Char) : seam.run .broken text = .broken := by
  induction text with
  | nil => rfl
  | cons x text ih =>
    rw [run, List.foldl_cons, after_broken]
    exact ih

/-- Spaces at the start of a line do not matter. -/
theorem run_spaces (count : Nat) : seam.run .apart (List.replicate count ' ') = .apart := by
  induction count with
  | zero => rfl
  | succ count ih =>
    have hstep : seam.after .apart ' ' = .apart := by simp [after, seam.left_ne_space.symm]
    rw [List.replicate_succ, run, List.foldl_cons, hstep]
    exact ih

/-- The left character of a seam is the start of one, unless it completes
    another. -/
theorem after_left (p : Progress) :
    seam.after p seam.left = .left ∨ seam.after p seam.left = .broken := by
  have hline : seam.left ≠ '\n' := isWordChar_ne seam.left_word (by decide)
  unfold after
  rw [if_neg hline]
  cases p with
  | apart => exact .inl (if_pos rfl)
  | left => exact .inl (by rw [if_neg seam.left_ne_space, if_pos rfl])
  | gap =>
    by_cases hsame : seam.left = seam.right
    · exact .inr (if_pos hsame)
    · exact .inl (by rw [if_neg hsame, if_pos rfl])
  | broken => exact .inr rfl

/-- A seam breaks the text, whatever was read before it. -/
theorem run_chars (p : Progress) : seam.run p seam.chars = .broken := by
  have hrest : seam.run .left [' ', seam.right] = .broken := by
    simp [run, after]
  -- The first character starts the seam, or it has just completed another.
  rw [run, chars, List.foldl_cons]
  rcases seam.after_left p with h | h
  · rw [h]
    exact hrest
  · rw [h]
    exact seam.run_broken [' ', seam.right]

theorem not_infix_of_run {text : List Char} (h : seam.run .apart text ≠ .broken) :
    ¬ seam.chars <:+: text := by
  rintro ⟨before, rest, rfl⟩
  rw [run_append, run_append, run_chars, run_broken] at h
  exact h rfl

theorem settled_after_wordChar {p : Progress} {c : Char} (hp : p.settled = true)
    (hc : isWordChar c = true) : (seam.after p c).settled = true := by
  have hspace : c ≠ ' ' := isWordChar_ne hc (by decide)
  have hline : c ≠ '\n' := isWordChar_ne hc (by decide)
  by_cases hleft : c = seam.left <;> cases p <;> simp_all [after, Progress.settled]

end Seam

/-! ## Seamless text -/

/-- A property of texts that concatenation keeps is kept by `intercalate`. -/
theorem intercalate_induction {P : String → Prop} (hnil : P "")
    (happend : ∀ {t u : String}, P t → P u → P (t ++ u)) {separator : String}
    (hseparator : P separator) {texts : List String} (h : ∀ t ∈ texts, P t) :
    P (separator.intercalate texts) := by
  induction texts with
  | nil => exact hnil
  | cons t texts ih =>
    have ht := h t List.mem_cons_self
    cases texts with
    | nil => rwa [String.intercalate_singleton]
    | cons next texts =>
      rw [String.intercalate_cons_cons]
      exact happend (happend ht hseparator)
        (ih fun other hother => h other (List.mem_cons_of_mem t hother))

/-- Text inside a line that holds no seam, and no more of one at its ends
    than the outer characters. -/
def Seamless (seam : Seam) (text : String) : Prop :=
  ∀ p, p.settled = true → (seam.run p text.toList).settled = true

namespace Seamless

variable {seam : Seam} {t u v : String}

theorem append (ht : Seamless seam t) (hu : Seamless seam u) : Seamless seam (t ++ u) := by
  intro p hp
  rw [String.toList_append, Seam.run_append]
  exact hu _ (ht p hp)

/-- A fragment with text on both sides of it. -/
theorem between (ht : Seamless seam t) (hu : Seamless seam u) (hv : Seamless seam v) :
    Seamless seam (t ++ u ++ v) := (ht.append hu).append hv

/-- Two runs decide whether a fixed text is seamless. -/
theorem ofList {text : List Char}
    (h : (seam.run .apart text).settled && (seam.run .left text).settled) :
    Seamless seam (String.ofList text) := by
  rw [Bool.and_eq_true] at h
  intro p hp
  rw [String.toList_ofList]
  cases p with
  | apart => exact h.1
  | left => exact h.2
  | gap => cases hp
  | broken => cases hp

/-- Two fragments that are seamless only together. -/
theorem append_ofList {a b : List Char} (ht : Seamless seam t)
    (h : Seamless seam (String.ofList (a ++ b))) :
    Seamless seam (t ++ String.ofList a ++ String.ofList b) := by
  rw [String.append_assoc, ← String.ofList_append]
  exact ht.append h

theorem of_wordChars (h : ∀ c ∈ t.toList, isWordChar c = true) : Seamless seam t := by
  unfold Seamless
  generalize t.toList = text at h
  induction text with
  | nil => exact fun p hp => hp
  | cons c text ih =>
    intro p hp
    exact ih (fun d hd => h d (List.mem_cons_of_mem c hd)) _
      (seam.settled_after_wordChar hp (h c List.mem_cons_self))

theorem word (h : IsWord t) : Seamless seam t := of_wordChars h.2

theorem number (n : Nat) : Seamless seam (toString n) :=
  of_wordChars fun _ hc => isWordChar_of_mem_toString hc

theorem intercalate {texts : List String} (hu : Seamless seam u)
    (h : ∀ t ∈ texts, Seamless seam t) : Seamless seam (u.intercalate texts) :=
  intercalate_induction (ofList rfl) append hu h

/-- A brace after a space. -/
theorem opening : Seamless seam " \x7b" := by
  have hbrace : '{' ≠ seam.right := (isWordChar_ne seam.right_word (by decide)).symm
  have hleft : '{' ≠ seam.left := (isWordChar_ne seam.left_word (by decide)).symm
  apply ofList
  simp [Seam.run, Seam.after, Seam.Progress.settled, hbrace, hleft, seam.left_ne_space.symm]

theorem closing : Seamless seam "\x7d" := by
  have hleft : '}' ≠ seam.left := (isWordChar_ne seam.left_word (by decide)).symm
  apply ofList
  simp [Seam.run, Seam.after, Seam.Progress.settled, hleft]

/-- A literal with a seam does not occur in seamless text, wherever on its
    line the text starts. -/
theorem absent {literal : List Char} (h : Seamless seam t) (hseam : seam.chars <:+: literal)
    (count : Nat) : ¬ literal <:+: List.replicate count ' ' ++ t.toList := by
  intro hinfix
  refine seam.not_infix_of_run ?_ (hseam.trans hinfix)
  rw [Seam.run_append, Seam.run_spaces]
  intro hbroken
  have hsettled := h .apart rfl
  rw [hbroken] at hsettled
  cases hsettled

end Seamless

end TaggedWire
