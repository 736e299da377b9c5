import Reckoner.Proofs.Storage.State

/-!
# Names in the files

`HoldsNames P t`: every name that can be read from a file of variables in the tree satisfies `P`.
Saving a session whose names satisfy `P` keeps that, also where it fails half way
(`HoldsNames.save`): the files after an action are those before it and those it has written
(`FileAction.Writes`). What is loaded has such names only (`HoldsNames.load`).
-/

namespace Reckoner.Storage

/-! ## Files after an action -/

/-- Every file after the action was there before, or stands at such a place with such a text. -/
def FileAction.Writes {ε α : Type} (action : FileAction ε α) (Q : Place → String → Prop) : Prop :=
  ∀ t place text, (action.on t).2.node? place = some (.file text) →
    t.node? place = some (.file text) ∨ Q place text

namespace FileAction.Writes

variable {ε ε' α β : Type} {Q : Place → String → Prop}

theorem bind {action : FileAction ε α} {next : α → FileAction ε β} (h : action.Writes Q)
    (hnext : ∀ x, (next x).Writes Q) : (action >>= next).Writes Q := by
  intro t place text hafter
  rw [on_bind] at hafter
  rcases haction : action.on t with ⟨_ | x, between⟩
  · rw [haction] at hafter
    exact h t place text (by rw [haction]; exact hafter)
  · rw [haction] at hafter
    rcases hnext x between place text hafter with hbetween | hQ
    · exact h t place text (by rw [haction]; exact hbetween)
    · exact .inr hQ

theorem pure (x : α) : (Pure.pure x : FileAction ε α).Writes Q := fun _ _ _ => .inl

theorem throw (e : ε) : (MonadExcept.throw e : FileAction ε α).Writes Q := fun _ _ _ => .inl

theorem get : (MonadState.get : FileAction ε FileTree).Writes Q := fun _ _ _ => .inl

theorem mapError {f : ε → ε'} {action : FileAction ε α} (h : action.Writes Q) :
    (action.mapError f).Writes Q := by
  intro t place text hafter
  rw [on_mapError] at hafter
  exact h t place text hafter

theorem writeFile {path : Path} {text : String}
    (h : ∀ t place, FileTree.place t path = .ok place → Q place text) :
    (writeFile path text).Writes Q := by
  intro t place shown hafter
  rw [writeFile_on] at hafter
  cases htarget : t.place path with
  | error e =>
    rw [htarget] at hafter
    exact .inl hafter
  | ok target =>
    simp only [htarget] at hafter
    split at hafter
    · exact .inl hafter
    · rename_i hnode
      rw [FileTree.node?_insert _ _ _ (FileTree.ne_root_of_node? hnode)] at hafter
      split at hafter
      · rename_i heq
        cases hafter
        exact .inr (heq ▸ h t target htarget)
      · exact .inl hafter

theorem makeDirectory (path : Path) : (makeDirectory path).Writes Q := by
  intro t place shown hafter
  rw [makeDirectory_on] at hafter
  cases htarget : t.place path with
  | error e =>
    rw [htarget] at hafter
    exact .inl hafter
  | ok target =>
    simp only [htarget] at hafter
    split at hafter
    · rename_i hnode
      have hdirectory : t.node? target ≠ some .directory := by simp [hnode]
      rw [FileTree.node?_insert _ _ _ (FileTree.ne_root_of_node? hdirectory)] at hafter
      split at hafter
      · cases hafter
      · exact .inl hafter
    · exact .inl hafter
    · exact .inl hafter

theorem makeDirectoriesFrom (slashes : Nat) (names : List String) :
    (makeDirectoriesFrom slashes names).Writes Q := by
  induction names with
  | nil => exact pure ()
  | cons last above ih =>
    refine bind get fun t => ?_
    dsimp only
    split
    · exact bind ih fun _ => makeDirectory _
    · exact makeDirectory _

end FileAction.Writes

/-- The files that saving a session leaves behind, be they all or not. -/
theorem writes_save (refuses : ColumnRule) (directory : Path) (history : List Entry)
    (vars : Variables) : (save refuses directory history vars).Writes fun place text =>
      (∃ above, place = above ++ [historyFile]) ∨
        ∃ above, place = above ++ [variablesFile] ∧ text = (variablesTable vars).write := by
  refine .bind (.mapError (.makeDirectoriesFrom _ _)) fun _ => .bind ?refused fun _ =>
    .bind (.bind (.mapError (.writeFile fun t place h => ?history)) fun _ => ?long) fun _ =>
      .mapError (.writeFile fun t place h => ?vars)
  case refused =>
    cases refuses (history.map Entry.id) with
    | none => exact .pure ()
    | some cause => exact .throw _
  case history =>
    obtain ⟨above, rfl, -⟩ := FileTree.place_child (by decide) h
    exact .inl ⟨above, rfl⟩
  case long =>
    split
    · exact .throw _
    · exact .pure ()
  case vars =>
    obtain ⟨above, rfl, -⟩ := FileTree.place_child (by decide) h
    exact .inr ⟨above, rfl, rfl⟩

/-! ## Names in a tree -/

/-- Every name that can be read from a file of variables satisfies `P`. -/
def HoldsNames (P : String → Prop) (t : FileTree) : Prop :=
  ∀ above text, t.node? (above ++ [variablesFile]) = some (.file text) →
    ∀ path entries, readVariables path (some text) = .ok entries → ∀ entry ∈ entries, P entry.1

namespace HoldsNames

variable {P : String → Prop} {t : FileTree}

theorem load {directory : Path} {history : List Entry} {vars : Variables} (ht : HoldsNames P t)
    (h : load t directory = .ok (history, vars)) : ∀ name ∈ vars, P name := by
  obtain ⟨-, text, entries, -, hfile, hread, rfl⟩ := load_eq_ok h
  intro name hname
  cases text with
  | none =>
    cases hread
    simp [Variables.ofList] at hname
  | some text =>
    obtain ⟨place, hplace, hnode⟩ := FileTree.place_of_read? hfile
    obtain ⟨above, rfl, -⟩ := FileTree.place_child (by decide) hplace
    obtain ⟨entry, hentry, rfl⟩ := List.mem_map.1 (Variables.mem_ofList_iff.1 hname)
    exact ht above text hnode _ entries hread entry hentry

theorem save (hkept : ∀ name, P name → IsKept name) (ht : HoldsNames P t) (refuses : ColumnRule)
    (directory : Path) (history : List Entry) {vars : Variables} (hvars : ∀ name ∈ vars, P name) :
    HoldsNames P ((save refuses directory history vars).on t).2 := by
  intro above text hnode path entries hread
  rcases writes_save refuses directory history vars t _ text hnode with hold | ⟨other, hplace⟩ |
    ⟨other, -, rfl⟩
  · exact ht above text hold path entries hread
  · have hlast := congrArg List.getLast? hplace
    simp [historyFile, variablesFile] at hlast
  · rw [readVariables_write path fun name hname => hkept name (hvars name hname)] at hread
    cases hread
    intro entry hentry
    refine hvars entry.1 (Std.ExtTreeMap.mem_iff_isSome_getElem?.2 ?_)
    rw [Std.ExtTreeMap.mem_toList_iff_getElem?_eq_some.1 hentry]
    rfl

end HoldsNames

end Reckoner.Storage
