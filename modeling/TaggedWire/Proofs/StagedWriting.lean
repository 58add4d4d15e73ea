import Mathlib.Data.List.Nodup
import TaggedWire.Proofs.OutputPaths
import TaggedWire.Proofs.Rendering

/-! # Staged writing

    What writing does to a file tree when the outputs do not get in each
    other's way. Staging touches only the temporaries and makes only
    directories above the outputs, so if it fails, every output is as it
    was. Replacing goes from output to output until one is a directory: the
    outputs before that one are new, and the others are as they were. -/

namespace TaggedWire

open FileTree TaggedWire.Path

variable {t u v : FileTree} {path text : String} {paths : List String}

/-! ## Staging -/

/-- The temporary of an output, and the output. -/
def Staged.of (path : String) : Staged := ⟨path ++ temporarySuffix, path⟩

/-- An error about an output that could not be replaced. -/
def GeneratorError.IsReplace : GeneratorError → Prop
  | .file .replace _ _ => True
  | _ => False

/-- A result that has nothing to do with replacing outputs. -/
def NoReplace {α : Type} : Except GeneratorError α → Prop
  | .ok _ => True
  | .error e => ¬ e.IsReplace

theorem makeParent_on (ht : t.Sound) (hp : Plain path) :
    ∃ result u, Step.on (makeParent path) t = (result, u) ∧
      Changes (Above (t.place path)) Nowhere t u ∧ NoReplace result := by
  unfold makeParent
  cases hparent : Path.parent? path with
  | none => exact ⟨.ok (), t, rfl, .refl ht, trivial⟩
  | some dir =>
    by_cases hempty : dir = ""
    · simp only [String.isEmpty_iff.mpr hempty, if_true]
      exact ⟨.ok (), t, rfl, .refl ht, trivial⟩
    · have hfull : dir.isEmpty = false := by simpa using hempty
      simp only [hfull, Bool.false_eq_true, if_false]
      have hchanges := changes_makeDirectories ht hp (List.mem_of_head? hparent) hempty
      have hrun : (MonadFiles.makeDirectories dir : StateM FileTree _).run t =
        t.makeDirectories dir := rfl
      cases hmake : t.makeDirectories dir with
      | mk result u =>
        rw [hmake] at hrun hchanges
        cases result with
        | ok _ => exact ⟨_, u, Step.on_file_ok hrun, hchanges, trivial⟩
        | error cause => exact ⟨_, u, Step.on_file_error hrun, hchanges, id⟩

/-- The temporaries of some outputs are there. -/
def Ready (t u : FileTree) (outputs : List (String × String)) : Prop :=
  ∀ out ∈ outputs, Usable (out.1 ++ temporarySuffix) ∧
    u.get? (t.place (out.1 ++ temporarySuffix)) = some (.file out.2.toUTF8)

theorem Ready.of_changes {made touched : Location → Prop} {outputs : List (String × String)}
    (h : Ready t u outputs) (hv : Changes made touched u v)
    (hnot : ∀ out ∈ outputs, ¬ touched (t.place (out.1 ++ temporarySuffix))) :
    Ready t v outputs := by
  intro out hout
  obtain ⟨husable, hget⟩ := h out hout
  exact ⟨husable, hv.get?_of_some (hnot out hout) hget⟩

theorem Ready.usable {outputs : List (String × String)} (h : Ready t u outputs)
    {out : String × String} (hout : out ∈ outputs) (hp : Plain out.1) : Usable out.1 :=
  (h out hout).1.of_append hp slash_notMem_temporarySuffix

/-- The temporaries of some outputs are not there. -/
def Gone (t u : FileTree) (outputs : List (String × String)) : Prop :=
  ∀ out ∈ outputs, u.get? (t.place (out.1 ++ temporarySuffix)) = none

/-- Staging an output puts its text into its temporary, or does no more than
    make directories. -/
theorem stage_on (ht : t.Sound) (hp : Plain path) (text : String) :
    (∃ e u, Step.on (stage path text) t = (.error e, u) ∧ ¬ e.IsReplace ∧
      Changes (Above (t.place path)) Nowhere t u) ∨
    ∃ u, Step.on (stage path text) t = (.ok (.of path), u) ∧
      Changes (Above (t.place path)) (· = t.place (path ++ temporarySuffix)) t u ∧
      Ready t u [(path, text)] := by
  obtain ⟨result, u, hparent, hchanges, hcause⟩ := makeParent_on ht hp
  unfold stage
  cases result with
  | error e => exact .inl ⟨e, u, Step.on_bind_error hparent, hcause, hchanges⟩
  | ok _ =>
    rw [Step.on_bind_ok hparent]
    cases hwrite : u.writeBytes (path ++ temporarySuffix) text.toUTF8 with
    | error cause =>
      -- Directories that were made stay.
      exact .inl ⟨_, u, Step.on_bind_error (Step.on_file_error (attempt_error hwrite)), id,
        hchanges⟩
    | ok v =>
      obtain ⟨husable, hwritten, hget⟩ := writeBytes_ok hchanges.sound hp.temporary hwrite
      rw [hchanges.place_eq] at hwritten hget
      refine .inr ⟨v, Step.on_bind_ok (Step.on_file_ok (attempt_ok hwrite)), ?_, ?_⟩
      · exact (hchanges.mono_touched fun _ => False.elim).trans hwritten
      · exact List.forall_mem_singleton.mpr ⟨husable, hget⟩

section

variable {outputs : List (String × String)}

/-- The first of some outputs that are listed once is none of the others. -/
theorem ne_of_nodup_cons {out o : String × String}
    (hnodup : ((out :: outputs).map Prod.fst).Nodup) (ho : o ∈ outputs) : o.1 ≠ out.1 := by
  rw [List.map_cons, List.nodup_cons] at hnodup
  intro hsame
  have hmapped : o.1 ∈ outputs.map Prod.fst := List.mem_map_of_mem ho
  rw [hsame] at hmapped
  exact hnodup.1 hmapped

/-- Temporaries that are there are removed. -/
theorem discard_run (hpaths : Separate t paths) (hmem : ∀ out ∈ outputs, out.1 ∈ paths)
    (hnodup : (outputs.map Prod.fst).Nodup) (hu : u.Sound) (hcwd : u.cwd = t.cwd)
    (hready : Ready t u outputs) :
    ∃ v, (discard (m := StateM FileTree) (outputs.map fun out => .of out.1)).run u = ((), v) ∧
      Changes Nowhere (TemporaryOf t (outputs.map Prod.fst)) u v ∧ Gone t v outputs := by
  induction outputs generalizing u with
  | nil => exact ⟨u, rfl, .refl hu, nofun⟩
  | cons out outputs ih =>
    obtain ⟨hout, hrest⟩ := List.forall_mem_cons.mp hmem
    obtain ⟨⟨husable, hfile⟩, hothers⟩ := List.forall_mem_cons.mp hready
    rw [← place_congr hcwd] at hfile
    obtain ⟨v, hremove, hv, hgone⟩ :=
      removeFile_ok hu (hpaths.plain _ hout).temporary husable hfile
    rw [place_congr hcwd] at hv hgone
    -- The other temporaries are elsewhere.
    have helsewhere {o : String × String} (ho : o ∈ outputs) :
        t.place (o.1 ++ temporarySuffix) ≠ t.place (out.1 ++ temporarySuffix) := fun hplace =>
      ne_of_nodup_cons hnodup ho (hpaths.temporary_inj (hrest o ho) hout hplace)
    have hready' : Ready t v outputs := Ready.of_changes hothers hv fun o ho => helsewhere ho
    obtain ⟨w, hrun, hw, hgone'⟩ :=
      ih hrest (List.nodup_cons.mp hnodup).2 hv.sound (hv.cwd.trans hcwd) hready'
    refine ⟨w, ?_, ?_, List.forall_mem_cons.mpr ⟨?_, hgone'⟩⟩
    · have hfirst : (MonadFiles.removeFile (Staged.of out.1).temporary :
          StateM FileTree _).run u = (.ok (), v) := attempt_ok hremove
      rw [List.map_cons, discard, StateT.run_bind, hfirst]
      exact hrun
    · refine (hv.mono_touched ?_).trans (hw.mono_touched ?_)
      · exact fun _ hplace => ⟨out.1, List.mem_cons_self, hplace⟩
      · exact fun _ => TemporaryOf.mono fun _ => List.mem_cons_of_mem _
    · rw [hw.get?_eq ?_ nofun, hgone]
      rintro ⟨other, hother, hplace⟩
      obtain ⟨o, ho, rfl⟩ := List.mem_map.mp hother
      exact helsewhere ho hplace.symm

end

theorem isUnchanged_run (path text : String) (t : FileTree) :
    (isUnchanged path text : StateM FileTree Bool).run t = (t.hasText path text, t) := by
  have hread : (MonadFiles.readText path : StateM FileTree _).run t = (t.readText path, t) := rfl
  unfold isUnchanged hasText
  rw [StateT.run_bind, hread]
  cases t.readText path <;> rfl

theorem stageAll_same {staged : List Staged} {rest : List (String × String)}
    (h : t.hasText path text = true) :
    (stageAll (m := StateM FileTree) staged ((path, text) :: rest)).run t =
      (stageAll (m := StateM FileTree) staged rest).run t := by
  rw [stageAll, StateT.run_bind, isUnchanged_run, h]
  rfl

theorem stageAll_differs {staged : List Staged} {rest : List (String × String)}
    (h : t.hasText path text = false) :
    (stageAll (m := StateM FileTree) staged ((path, text) :: rest)).run t =
      match Step.on (stage path text) t with
      | (.ok one, u) => (stageAll (m := StateM FileTree) (staged ++ [one]) rest).run u
      | (.error e, u) => (.error e, ((discard (m := StateM FileTree) staged).run u).2) := by
  rw [stageAll, StateT.run_bind, isUnchanged_run, h]
  change StateT.run ((stage path text).run >>= _) t = _
  rw [StateT.run_bind]
  cases hstage : Step.on (stage path text) t with
  | mk result u =>
    have hrun : (stage path text : Step (StateM FileTree) Staged).run.run t = (result, u) := hstage
    rw [hrun]
    cases result <;> rfl

/-- The outputs that do not have their texts yet. -/
def outdated (t : FileTree) (outputs : List (String × String)) : List (String × String) :=
  outputs.filter fun out => !t.hasText out.1 out.2

theorem outdated_cons (t : FileTree) (out : String × String) (rest : List (String × String)) :
    outdated t (out :: rest) =
      if t.hasText out.1 out.2 then outdated t rest else out :: outdated t rest := by
  unfold outdated
  cases h : t.hasText out.1 out.2 <;> simp [h]

theorem mem_outdated_iff {outputs : List (String × String)} {out : String × String} :
    out ∈ outdated t outputs ↔ out ∈ outputs ∧ t.hasText out.1 out.2 = false := by
  rw [outdated, List.mem_filter, Bool.not_eq_true']

/-- An output cannot be staged when some others have been. -/
def FailsToStage (t : FileTree) (paths : List String) (staged : List (String × String))
    (out : String × String) (e : GeneratorError) : Prop :=
  ∃ u v, Changes (AboveAny t paths) (TemporaryOf t (staged.map Prod.fst)) t u ∧
    Ready t u staged ∧ Step.on (stage out.1 out.2) u = (.error e, v)

/-- **Staging** makes only directories above the outputs, apart from the
    temporaries. If it succeeds, every output that does not have its text yet
    has a temporary with it. If it fails, the temporaries are gone. -/
theorem stageAll_run (ht : t.Sound) (hpaths : Separate t paths)
    (done rest : List (String × String)) (hmem : ∀ out ∈ done ++ rest, out.1 ∈ paths)
    (hnodup : ((done ++ rest).map Prod.fst).Nodup)
    (hu : Changes (AboveAny t paths) (TemporaryOf t (done.map Prod.fst)) t u)
    (hready : Ready t u done) :
    (∃ e staged v,
      (stageAll (m := StateM FileTree) (done.map fun out => .of out.1) rest).run u =
        (.error e, v) ∧
      ¬ e.IsReplace ∧ staged <+: done ++ outdated t rest ∧
      (∃ out, out.1 ∈ paths ∧ FailsToStage t paths staged out e) ∧
      Changes (AboveAny t paths) (TemporaryOf t (staged.map Prod.fst)) t v ∧ Gone t v staged) ∨
    ∃ v, (stageAll (m := StateM FileTree) (done.map fun out => .of out.1) rest).run u =
        (.ok ((done ++ outdated t rest).map fun out => .of out.1), v) ∧
      Changes (AboveAny t paths) (TemporaryOf t ((done ++ outdated t rest).map Prod.fst)) t v ∧
      Ready t v (done ++ outdated t rest) := by
  -- Induction on what is still to be staged; the changes are counted from
  -- the first tree on, so that every output can be compared with it.
  induction rest generalizing done u with
  | nil =>
    rw [outdated, List.filter_nil, List.append_nil]
    exact .inr ⟨u, rfl, hu, hready⟩
  | cons out rest ih =>
    obtain ⟨path, text⟩ := out
    have hpath : path ∈ paths := hmem (path, text) (by simp)
    have hdone : ∀ o ∈ done, o.1 ∈ paths := fun o ho => hmem o (List.mem_append_left _ ho)
    -- What is skipped can be told from the first tree.
    have hall : Changes (AboveAny t paths) (TemporaryOf t paths) t u := by
      refine hu.mono_touched fun _ => TemporaryOf.mono fun other hother => ?_
      obtain ⟨o, ho, rfl⟩ := List.mem_map.mp hother
      exact hdone o ho
    have hsame : u.hasText path text = t.hasText path text := by
      rw [Bool.eq_iff_iff, hasText_iff, hasText_iff, hpaths.entry?_eq ht hpath hall]
    rw [outdated_cons]
    cases htext : t.hasText path text with
    | true =>
      have hskip : (done ++ rest).Sublist (done ++ (path, text) :: rest) :=
        List.Sublist.append_left (List.sublist_cons_self _ _) _
      rw [stageAll_same (hsame.trans htext)]
      exact ih done (fun o ho => hmem o (hskip.subset ho)) (hnodup.sublist (hskip.map _)) hu hready
    | false =>
      rw [stageAll_differs (hsame.trans htext)]
      have habove {place : Location} (h : Above (t.place path) place) : AboveAny t paths place :=
        ⟨path, hpath, h⟩
      rcases stage_on hu.sound (hpaths.plain path hpath) text with
        ⟨e, v, hstage, hcause, hv⟩ | ⟨v, hstage, hv, hnew⟩
      · -- The temporaries up to here are removed.
        left
        rw [hu.place_eq] at hv
        have hv' := hu.trans (hv.mono (fun _ => habove) fun _ => False.elim)
        rw [List.map_append] at hnodup
        obtain ⟨w, hrun, hw, hgone⟩ := discard_run hpaths hdone (List.nodup_append.mp hnodup).1
          hv'.sound hv'.cwd (hready.of_changes hv fun _ _ => id)
        rw [hstage]
        refine ⟨e, done, w, ?_, hcause, List.prefix_append _ _,
          ⟨(path, text), hpath, u, v, hu, hready, hstage⟩, ?_, hgone⟩
        · exact congrArg (Prod.mk _) (congrArg Prod.snd hrun)
        · exact hv'.trans (hw.mono (fun _ => False.elim) fun _ h => h)
      · rw [hu.place_eq, hu.place_eq] at hv
        have hpasses : Changes (AboveAny t paths)
            (TemporaryOf t ((done ++ [(path, text)]).map Prod.fst)) t v := by
          refine (hu.mono_touched ?_).trans (hv.mono (fun _ => habove) ?_)
          · exact fun _ => TemporaryOf.mono fun _ h => by simp [List.mem_map.mp h]
          · exact fun _ hplace => ⟨path, by simp, hplace⟩
        -- The temporaries of the outputs before are other places.
        have hold : Ready t v done := by
          refine hready.of_changes hv fun o ho hplace => ?_
          have hsamePath : o.1 = path := hpaths.temporary_inj (hdone o ho) hpath hplace
          rw [List.map_append, List.map_cons] at hnodup
          exact (List.nodup_append.mp hnodup).2.2 o.1 (List.mem_map_of_mem ho) path
            List.mem_cons_self hsamePath
        have hready' : Ready t v (done ++ [(path, text)]) := by
          intro o ho
          rcases List.mem_append.mp ho with ho | ho
          · exact hold o ho
          · rw [← hu.place_eq]
            exact hnew o ho
        rw [List.append_cons] at hmem hnodup
        have hrest := ih (done ++ [(path, text)]) hmem hnodup hpasses hready'
        rw [List.append_assoc, List.singleton_append] at hrest
        rw [hstage]
        rw [List.map_append, List.map_singleton] at hrest
        exact hrest

/-! ## Replacing -/

theorem replaceAll_ok {rest : List Staged}
    (h : u.renameFile (path ++ temporarySuffix) path = .ok v) :
    (replaceAll (m := StateM FileTree) (.of path :: rest)).run u =
      (replaceAll (m := StateM FileTree) rest).run v := by
  have hrename : (MonadFiles.renameFile (Staged.of path).temporary (Staged.of path).path :
      StateM FileTree _).run u = (.ok (), v) := attempt_ok h
  rw [replaceAll, StateT.run_bind, hrename]
  rfl

theorem replaceAll_error {rest : List Staged} {cause : FileError}
    (h : u.renameFile (path ++ temporarySuffix) path = .error cause) :
    (replaceAll (m := StateM FileTree) (.of path :: rest)).run u =
      (.error (.file .replace path cause),
        ((discard (m := StateM FileTree) (.of path :: rest)).run u).2) := by
  have hrename : (MonadFiles.renameFile (Staged.of path).temporary (Staged.of path).path :
      StateM FileTree _).run u = (.error cause, u) := attempt_error h
  rw [replaceAll, StateT.run_bind, hrename]
  rfl

/-- A temporary replaces its output unless that is a directory. -/
theorem renameFile_temporary (hp : Plain path) (hu : u.Sound) (hcwd : u.cwd = t.cwd)
    (hready : Ready t u [(path, text)]) (made : Location → Prop) :
    (u.get? (t.place path) = some .directory ∧
      u.renameFile (path ++ temporarySuffix) path = .error .isDirectory) ∨
    ∃ v, u.renameFile (path ++ temporarySuffix) path = .ok v ∧
      Changes made
        (fun place => place = t.place (path ++ temporarySuffix) ∨ place = t.place path) u v ∧
      v.get? (t.place path) = some (.file text.toUTF8) ∧
      v.get? (t.place (path ++ temporarySuffix)) = none := by
  obtain ⟨husable, hfile⟩ := hready (path, text) List.mem_cons_self
  have husable' : Usable path := hready.usable List.mem_cons_self hp
  rw [← place_congr hcwd] at hfile
  rw [← place_congr hcwd, ← place_congr hcwd]
  by_cases hdir : u.get? (u.place path) = some .directory
  · exact .inl ⟨hdir, renameFile_onto_directory hu hp.temporary hp husable husable' hfile hdir⟩
  · -- The directory of the temporary is that of the output.
    have hparent : u.get? (u.place path).dropLast = some .directory := by
      obtain ⟨dir, name, hplace, htemporary⟩ := hp.place_temporary u
      have hbeside := hu.dropLast hfile
      rw [htemporary, List.dropLast_concat] at hbeside
      rwa [hplace, List.dropLast_concat]
    obtain ⟨v, hrename, hv, hget, hgone⟩ :=
      renameFile_ok hu hp.temporary hp husable husable' hfile hparent hdir
    exact .inr ⟨v, hrename, hv, hget, hgone (hp.place_temporary_ne u)⟩

/-- **Replacing** goes on until it comes to a directory. What comes before
    is new by then, and the rest is as it was. The temporaries are gone. -/
theorem replaceAll_run (hpaths : Separate t paths) {todo : List (String × String)}
    (hmem : ∀ out ∈ todo, out.1 ∈ paths) (hnodup : (todo.map Prod.fst).Nodup)
    (hu : u.Sound) (hcwd : u.cwd = t.cwd) (hready : Ready t u todo) :
    ∃ before after result v, todo = before ++ after ∧
      (replaceAll (m := StateM FileTree) (todo.map fun out => .of out.1)).run u = (result, v) ∧
      Changes Nowhere (fun place => TemporaryOf t (todo.map Prod.fst) place ∨
        ∃ out ∈ before, place = t.place out.1) u v ∧
      Gone t v todo ∧
      (∀ out ∈ before, v.get? (t.place out.1) = some (.file out.2.toUTF8)) ∧
      (result = .ok () ∧ after = [] ∨
        ∃ path text rest, after = (path, text) :: rest ∧
          result = .error (.file .replace path .isDirectory) ∧
          u.get? (t.place path) = some .directory) := by
  -- Induction on the temporaries that are left; each replacement leaves
  -- the others `Ready`.
  induction todo generalizing u with
  | nil => exact ⟨[], [], .ok (), u, rfl, rfl, .refl hu, nofun, nofun, .inl ⟨rfl, rfl⟩⟩
  | cons out todo ih =>
    obtain ⟨path, text⟩ := out
    obtain ⟨hpath, hrest⟩ := List.forall_mem_cons.mp hmem
    obtain ⟨hfirst, hothers⟩ := List.forall_mem_cons.mp hready
    rcases renameFile_temporary (hpaths.plain path hpath) hu hcwd
      (List.forall_mem_singleton.mpr hfirst) Nowhere with
        ⟨hdir, hrename⟩ | ⟨v, hrename, hv, hget, hgone⟩
    · -- Nothing more is replaced, and the temporaries go.
      obtain ⟨v, hrun, hv, hgone⟩ := discard_run hpaths hmem hnodup hu hcwd hready
      refine ⟨[], (path, text) :: todo, _, v, rfl, ?_, hv.mono_touched fun _ => .inl, hgone, nofun,
        .inr ⟨path, text, todo, rfl, rfl, hdir⟩⟩
      rw [List.map_cons, replaceAll_error hrename]
      exact congrArg (Prod.mk _) (congrArg Prod.snd hrun)
    · -- The other outputs are elsewhere, and so are their temporaries.
      have helsewhere {o : String × String} (ho : o ∈ todo) : t.place o.1 ≠ t.place path :=
        fun h => ne_of_nodup_cons hnodup ho (hpaths.place_inj (hrest o ho) hpath h)
      have helsewhere' {o : String × String} (ho : o ∈ todo) :
          t.place (o.1 ++ temporarySuffix) ≠ t.place (path ++ temporarySuffix) :=
        fun h => ne_of_nodup_cons hnodup ho (hpaths.temporary_inj (hrest o ho) hpath h)
      have hready' : Ready t v todo := by
        refine Ready.of_changes hothers hv fun o ho => ?_
        rintro (hplace | hplace)
        · exact helsewhere' ho hplace
        · exact hpaths.not_temporary hpath ⟨o.1, hrest o ho, hplace.symm⟩
      obtain ⟨before, after, result, w, rfl, hrun, hw, hgone', hbefore, hresult⟩ :=
        ih hrest (List.nodup_cons.mp hnodup).2 hv.sound (hv.cwd.trans hcwd) hready'
      refine ⟨(path, text) :: before, after, result, w, rfl, ?_, ?_, ?_, ?_, ?_⟩
      · rw [List.map_cons, replaceAll_ok hrename, hrun]
      · refine (hv.mono_touched ?_).trans (hw.mono_touched ?_)
        · rintro place (hplace | hplace)
          · exact .inl ⟨path, List.mem_cons_self, hplace⟩
          · exact .inr ⟨(path, text), List.mem_cons_self, hplace⟩
        · rintro place (hplace | ⟨o, ho, hplace⟩)
          · exact .inl (hplace.mono fun _ => List.mem_cons_of_mem _)
          · exact .inr ⟨o, List.mem_cons_of_mem _ ho, hplace⟩
      · refine List.forall_mem_cons.mpr ⟨?_, hgone'⟩
        rw [hw.get?_eq ?_ nofun, hgone]
        rintro (⟨other, hother, hplace⟩ | ⟨o, ho, hplace⟩)
        · obtain ⟨o, ho, rfl⟩ := List.mem_map.mp hother
          exact helsewhere' ho hplace.symm
        · exact hpaths.not_temporary (hrest o (List.mem_append_left _ ho))
            ⟨path, hpath, hplace.symm⟩
      · refine List.forall_mem_cons.mpr ⟨hw.get?_of_some ?_ hget, hbefore⟩
        rintro (hplace | ⟨o, ho, hplace⟩)
        · refine hpaths.not_temporary hpath (hplace.mono fun other hother => ?_)
          obtain ⟨o, ho, rfl⟩ := List.mem_map.mp hother
          exact hrest o ho
        · exact helsewhere (List.mem_append_left _ ho) hplace.symm
      · refine hresult.imp_right ?_
        rintro ⟨stop, stopText, rest, rfl, hfailed, hdir⟩
        refine ⟨stop, stopText, rest, rfl, hfailed, ?_⟩
        -- It was a directory before this replacement as well.
        have hstop : (stop, stopText) ∈ before ++ (stop, stopText) :: rest := by simp
        rw [← hdir]
        refine (hv.get?_eq ?_ nofun).symm
        rintro (hplace | hplace)
        · exact hpaths.not_temporary (hrest _ hstop) ⟨path, hpath, hplace⟩
        · exact helsewhere hstop hplace

/-! ## Writing -/

/-- What a run has done to its outputs when it stops at one of them, which
    is a directory: those before it have their texts, and the others are as
    they were. -/
structure StoppedAt (t u : FileTree) (outputs before : List (String × String)) (path : String) :
    Prop where
  directory : t.entry? path = some .directory
  replaced : ∀ out ∈ before, u.readText out.1 = .ok out.2
  kept : ∃ text after, outputs = before ++ (path, text) :: after ∧
    ∀ out ∈ (path, text) :: after, u.entry? out.1 = t.entry? out.1

/-- All outputs are as they were if nothing before had to be replaced. -/
theorem StoppedAt.kept_iff {outputs before : List (String × String)}
    (h : StoppedAt t u outputs before path) :
    (∀ out ∈ outputs, u.entry? out.1 = t.entry? out.1) ↔
      ∀ out ∈ before, t.readText out.1 = .ok out.2 := by
  obtain ⟨text, after, rfl, hkept⟩ := h.kept
  rw [List.forall_mem_append, and_iff_left hkept]
  refine forall₂_congr fun out hout => ?_
  have hnew := readText_ok_iff.mp (h.replaced out hout)
  rw [readText_ok_iff, hnew, eq_comm]

section

variable {outputs before after : List (String × String)}
  (ht : t.Sound) (hpaths : Separate t (outputs.map Prod.fst))
  (htodo : outdated t outputs = before ++ after)
  (hv : Changes (AboveAny t (outputs.map Prod.fst)) (fun place =>
    TemporaryOf t (outputs.map Prod.fst) place ∨ ∃ out ∈ before, place = t.place out.1) t v)
include ht hpaths htodo hv

/-- What is not replaced stays. -/
theorem entry?_of_not_replaced {out : String × String} (hout : out ∈ outputs)
    (hnot : out ∉ before) : v.entry? out.1 = t.entry? out.1 := by
  refine hpaths.entry?_eq_of_others ht (List.mem_map_of_mem hout) (fun o ho => ?_) hv
  have hmem : o ∈ outputs := by
    have htodoMem : o ∈ outdated t outputs := htodo ▸ List.mem_append_left _ ho
    exact (mem_outdated_iff.mp htodoMem).1
  refine ⟨List.mem_map_of_mem hmem, fun hsame => ?_⟩
  rw [List.inj_on_of_nodup_map hpaths.nodup hmem hout hsame] at ho
  exact hnot ho

/-- What is replaced, or had its text before, has its text. -/
theorem readText_of_replaced (hnew : ∀ out ∈ before, v.readText out.1 = .ok out.2)
    {out : String × String} (hout : out ∈ outputs)
    (hold : t.hasText out.1 out.2 = true ∨ out ∈ before) : v.readText out.1 = .ok out.2 := by
  by_cases hmem : out ∈ before
  · exact hnew out hmem
  · rw [readText_ok_iff, entry?_of_not_replaced ht hpaths htodo hv hout hmem, ← hasText_iff]
    exact hold.resolve_right hmem

/-- Replacements that stop at a directory. -/
theorem stoppedAt_of_replaced (hnew : ∀ out ∈ before, v.readText out.1 = .ok out.2)
    {rest : List (String × String)} (hafter : after = (path, text) :: rest)
    (hdir : t.entry? path = some .directory) : ∃ first, StoppedAt t v outputs first path := by
  have hsplit := htodo
  rw [hafter, outdated, List.filter_eq_append_iff] at hsplit
  obtain ⟨first, others, houtputs, hbefore, hothers⟩ := hsplit
  obtain ⟨skipped, last, rfl, hskipped, -, -⟩ := List.filter_eq_cons_iff.mp hothers
  rw [← List.append_assoc] at houtputs
  refine ⟨first ++ skipped, hdir, ?_, text, last, houtputs, ?_⟩
  · -- What was staged comes first, and what was skipped had its text.
    intro out hout
    have hmem : out ∈ outputs := houtputs ▸ List.mem_append_left _ hout
    refine readText_of_replaced ht hpaths htodo hv hnew hmem ?_
    cases htext : t.hasText out.1 out.2 with
    | true => exact .inl rfl
    | false =>
      right
      rw [← hbefore, List.mem_filter, htext]
      refine ⟨(List.mem_append.mp hout).resolve_right fun hskip => ?_, rfl⟩
      exact hskipped out hskip (by rw [htext]; rfl)
  · intro out hout
    have hmem : out ∈ outputs := houtputs ▸ List.mem_append_right _ hout
    refine entry?_of_not_replaced ht hpaths htodo hv hmem fun hreplaced => ?_
    -- Each output is listed once, so it is not on both sides.
    have hfirst : out ∈ first ++ skipped := by
      rw [← hbefore] at hreplaced
      exact List.mem_append_left _ (List.mem_filter.mp hreplaced).1
    have hnodup : (first ++ skipped ++ (path, text) :: last).Nodup :=
      houtputs ▸ hpaths.nodup.of_map
    exact (List.nodup_append.mp hnodup).2.2 out hfirst out hout rfl

end

/-- How the writing of some outputs can end, and what it leaves. -/
inductive WriteOutcome (t : FileTree) (outputs : List (String × String)) :
    Except GeneratorError Unit → FileTree → Prop where
  /-- An output cannot be staged. The temporaries of those before it are gone. -/
  | unstaged {e : GeneratorError} {staged : List (String × String)} {v : FileTree}
      (cause : ¬ e.IsReplace) (part : staged <+: outdated t outputs)
      (failed : ∃ out, out.1 ∈ outputs.map Prod.fst ∧
        FailsToStage t (outputs.map Prod.fst) staged out e)
      (changes : Changes (AboveAny t (outputs.map Prod.fst))
        (TemporaryOf t (staged.map Prod.fst)) t v)
      (gone : Gone t v staged) : WriteOutcome t outputs (.error e) v
  /-- All outputs have their texts, and the temporaries are gone. -/
  | replaced {v : FileTree}
      (changes : Changes (AboveAny t (outputs.map Prod.fst))
        (fun place => TemporaryOf t ((outdated t outputs).map Prod.fst) place ∨
          ∃ out ∈ outdated t outputs, place = t.place out.1) t v)
      (gone : Gone t v (outdated t outputs))
      (texts : ∀ out ∈ outputs, v.readText out.1 = .ok out.2) : WriteOutcome t outputs (.ok ()) v
  /-- An output is a directory. -/
  | stopped {path : String} {before : List (String × String)} {v : FileTree}
      (stopped : StoppedAt t v outputs before path) :
      WriteOutcome t outputs (.error (.file .replace path .isDirectory)) v

theorem Config.outputPaths_eq (c : Config) (sources : GeneratedSources) :
    c.outputPaths = (c.outputs sources).map Prod.fst := rfl

/-- **Writing** fails before the first replacement, or it replaces the
    outputs up to a directory or to the end. -/
theorem write_outcome {c : Config} (ht : t.Sound) (hpaths : Separate t c.outputPaths)
    (sources : GeneratedSources) :
    ∃ result v, Step.on (c.write sources) t = (result, v) ∧
      WriteOutcome t (c.outputs sources) result v := by
  have hmem : ∀ out ∈ c.outputs sources, out.1 ∈ c.outputPaths := fun out => List.mem_map_of_mem
  unfold Config.write
  rcases stageAll_run ht hpaths [] (c.outputs sources) hmem hpaths.nodup (.refl ht) nofun with
    ⟨e, staged, v, hstage, hcause, hpart, hfailed, hv, hgone⟩ | ⟨u, hstage, hu, hready⟩
  · exact ⟨.error e, v, Step.on_bind_error hstage, .unstaged hcause hpart hfailed hv hgone⟩
  · rw [List.nil_append] at hstage hu hready
    have hsub : (outdated t (c.outputs sources)).Sublist (c.outputs sources) := List.filter_sublist
    obtain ⟨before, after, result, v, htodo, hreplace, hv, hgone, hnew, hresult⟩ :=
      replaceAll_run hpaths (fun out hout => hmem out (hsub.subset hout))
        (hpaths.nodup.sublist (hsub.map _)) hu.sound hu.cwd hready
    refine ⟨result, v, (Step.on_bind_ok hstage).trans hreplace, ?_⟩
    have hall : Changes (AboveAny t c.outputPaths) (fun place =>
        TemporaryOf t ((outdated t (c.outputs sources)).map Prod.fst) place ∨
          ∃ out ∈ before, place = t.place out.1) t v :=
      (hu.mono_touched fun _ => .inl).trans (hv.mono (fun _ => False.elim) fun _ h => h)
    have hwide : Changes (AboveAny t c.outputPaths) (fun place =>
        TemporaryOf t c.outputPaths place ∨ ∃ out ∈ before, place = t.place out.1) t v :=
      hall.mono_touched fun _ => Or.imp_left (TemporaryOf.mono (hsub.map Prod.fst).subset)
    have hplain {out : String × String} (hout : out ∈ outdated t (c.outputs sources)) :
        Plain out.1 := hpaths.plain out.1 (hmem out (hsub.subset hout))
    have hnew' : ∀ out ∈ before, v.readText out.1 = .ok out.2 := by
      intro out hout
      have hstaged : out ∈ outdated t (c.outputs sources) := htodo ▸ List.mem_append_left _ hout
      rw [readText_ok_iff, entry?_eq_some_iff hv.sound (hplain hstaged), hall.place_eq]
      exact ⟨hready.usable hstaged (hplain hstaged), hnew out hout⟩
    have hpaths' : Separate t ((c.outputs sources).map Prod.fst) := hpaths
    rcases hresult with ⟨rfl, rfl⟩ | ⟨path, text, rest, rfl, rfl, hdir⟩
    · -- Nothing is left, so whatever was outdated has been replaced.
      rw [List.append_nil] at htodo
      subst htodo
      refine .replaced hall hgone fun out hout => ?_
      refine readText_of_replaced ht hpaths' (List.append_nil _).symm hwide hnew' hout ?_
      cases htext : t.hasText out.1 out.2 with
      | true => exact .inl rfl
      | false => exact .inr (mem_outdated_iff.mpr ⟨hout, htext⟩)
    · have hout : (path, text) ∈ outdated t (c.outputs sources) := htodo ▸ by simp
      have hpath : path ∈ c.outputPaths := hmem _ (hsub.subset hout)
      have hentry : t.entry? path = some .directory := by
        have htemporary : ¬ TemporaryOf t ((outdated t (c.outputs sources)).map Prod.fst)
            (t.place path) := fun h =>
          hpaths.not_temporary hpath (h.mono (hsub.map Prod.fst).subset)
        rw [entry?_eq_some_iff ht (hplain hout),
          ← hu.get?_eq htemporary (hpaths.not_above hpath)]
        exact ⟨hready.usable hout (hplain hout), hdir⟩
      obtain ⟨first, hstopped⟩ := stoppedAt_of_replaced ht hpaths' htodo hwide hnew' rfl hentry
      exact .stopped hstopped

/-- What staging leaves: the outputs are as they were. -/
theorem entry?_of_unstaged {c : Config} {sources : GeneratedSources}
    {staged : List (String × String)} (ht : t.Sound) (hpaths : Separate t c.outputPaths)
    (hpart : staged <+: outdated t (c.outputs sources))
    (hv : Changes (AboveAny t c.outputPaths) (TemporaryOf t (staged.map Prod.fst)) t v) :
    ∀ path ∈ c.outputPaths, v.entry? path = t.entry? path := by
  intro path hpath
  have hsub : staged.Sublist (c.outputs sources) := hpart.sublist.trans List.filter_sublist
  refine hpaths.entry?_eq ht hpath (hv.mono_touched fun _ => TemporaryOf.mono ?_)
  exact (hsub.map Prod.fst).subset

theorem write_on {c : Config} (ht : t.Sound) (hpaths : Separate t c.outputPaths)
    (sources : GeneratedSources) :
    ∃ result v, Step.on (c.write sources) t = (result, v) ∧
      ((∃ e, result = .error e ∧ ¬ e.IsReplace ∧
          ∀ path ∈ c.outputPaths, v.entry? path = t.entry? path) ∨
        (result = .ok () ∧ ∀ out ∈ c.outputs sources, v.readText out.1 = .ok out.2) ∨
        ∃ path before, result = .error (.file .replace path .isDirectory) ∧
          StoppedAt t v (c.outputs sources) before path) := by
  obtain ⟨result, v, hrun, houtcome⟩ := write_outcome ht hpaths sources
  refine ⟨result, v, hrun, ?_⟩
  cases houtcome with
  | unstaged hcause hpart _ hv _ =>
    exact .inl ⟨_, rfl, hcause, entry?_of_unstaged ht hpaths hpart hv⟩
  | replaced _ _ htexts => exact .inr (.inl ⟨rfl, htexts⟩)
  | stopped hstopped => exact .inr (.inr ⟨_, _, rfl, hstopped⟩)

end TaggedWire
