import Mathlib.Tactic
import Reckoner.Variables

/-!
# Tables and their lists

A table is made again from the list of its names and values (`Variables.ofList_toList`).

After a history of changes a name has the value that the last change about it gave (`Edit.Holds`),
and all that a table answers follows from that (`Variables.edit_history`).
-/

namespace Reckoner.Variables

theorem ofList_eq (entries : List (String × Float)) :
    ofList entries = Std.ExtTreeMap.ofList entries compare :=
  Std.ExtTreeMap.ofList_eq_foldl.symm

/-- A table is made again from its list. -/
theorem ofList_toList (vars : Variables) : ofList vars.toList = vars := by
  rw [ofList_eq]
  refine Std.ExtTreeMap.ext_getElem? fun {name} => ?_
  cases h : vars[name]? with
  | none =>
    refine Std.ExtTreeMap.getElem?_ofList_of_contains_eq_false ?_
    rw [Std.ExtTreeMap.map_fst_toList_eq_keys]
    simpa using h
  | some value =>
    refine Std.ExtTreeMap.getElem?_ofList_of_mem (k := name) Std.ReflCmp.compare_self
      Std.ExtTreeMap.distinct_keys_toList ?_
    exact Std.ExtTreeMap.mem_toList_iff_getElem?_eq_some.2 h

theorem empty_union (vars : Variables) : (∅ : Variables) ∪ vars = vars := by
  refine Std.ExtTreeMap.ext_getElem? fun {name} => ?_
  simp [Std.ExtTreeMap.getElem?_union]

theorem mem_ofList_iff {entries : List (String × Float)} {name : String} :
    name ∈ ofList entries ↔ name ∈ entries.map Prod.fst := by
  rw [ofList_eq, Std.ExtTreeMap.mem_ofList, List.contains_iff_mem]

/-! ## Changes -/

namespace Edit

/-- The name that a change is about. Clearing a table is about every name. -/
def name? : Edit → Option String
  | set name _ | remove name => some name
  | clear => none

/-- The value that a change gives to what it is about. -/
def value? : Edit → Option Float
  | set _ value => some value
  | remove _ | clear => none

def IsAbout (change : Edit) (name : String) : Prop := ∀ other ∈ change.name?, other = name

instance (change : Edit) (name : String) : Decidable (change.IsAbout name) :=
  inferInstanceAs (Decidable (∀ other ∈ change.name?, other = name))

theorem isAbout_set {other name : String} {value : Float} :
    (Edit.set other value).IsAbout name ↔ other = name := by
  simp [IsAbout, name?]

theorem getElem?_apply (table : Variables) (change : Edit) (name : String) :
    (change.apply table)[name]? = if change.IsAbout name then change.value? else table[name]? := by
  cases change with
  | set other value => simp [getElem?_set, IsAbout, name?, value?]
  | remove other => simp [getElem?_remove, IsAbout, name?, value?]
  | clear => simp [getElem?_clear, IsAbout, name?, value?]

/-- Changes about different names may be made in either order. -/
theorem apply_comm {first second : Edit} {x y : String} (hx : first.name? = some x)
    (hy : second.name? = some y) (hne : x ≠ y) (table : Variables) :
    second.apply (first.apply table) = first.apply (second.apply table) := by
  refine Std.ExtTreeMap.ext_getElem? fun {name} => ?_
  have hone : ¬ (first.IsAbout name ∧ second.IsAbout name) := by
    rintro ⟨hfirst, hsecond⟩
    exact hne ((hfirst x hx).trans (hsecond y hy).symm)
  rw [getElem?_apply, getElem?_apply, getElem?_apply, getElem?_apply]
  split <;> split <;> first | rfl | exact absurd ⟨‹_›, ‹_›⟩ hone

/-- The value of a name after changes: the last of them that is about the name gave it, or none is
and the table had it before. -/
inductive Holds (table : Variables) (name : String) (value : Float) : List Edit → Prop
  | initial {edits : List Edit} (hvalue : table[name]? = some value)
      (hrest : ∀ change ∈ edits, ¬ change.IsAbout name) : Holds table name value edits
  | set {before after : List Edit} (hrest : ∀ change ∈ after, ¬ change.IsAbout name) :
      Holds table name value (before ++ .set name value :: after)

theorem Holds.concat {table : Variables} {name : String} {value : Float} {edits : List Edit}
    {last : Edit} (h : Holds table name value edits) (hlast : ¬ last.IsAbout name) :
    Holds table name value (edits ++ [last]) := by
  have hrest : ∀ {edits : List Edit}, (∀ change ∈ edits, ¬ change.IsAbout name) →
      ∀ change ∈ edits ++ [last], ¬ change.IsAbout name := fun h =>
    List.forall_mem_append.2 ⟨h, List.forall_mem_singleton.2 hlast⟩
  cases h with
  | initial hvalue hedits => exact .initial hvalue (hrest hedits)
  | set hafter =>
    rw [List.append_assoc, List.cons_append]
    exact .set (hrest hafter)

end Edit

open Edit (Holds)

section
variable (table : Variables)

@[simp] theorem edit_append (first second : List Edit) :
    table.edit (first ++ second) = (table.edit first).edit second := List.foldl_append

variable {table}

theorem getElem?_edit_of_not_isAbout {edits : List Edit} {name : String}
    (h : ∀ change ∈ edits, ¬ change.IsAbout name) : (table.edit edits)[name]? = table[name]? := by
  induction edits generalizing table with
  | nil => rfl
  | cons change rest ih =>
    obtain ⟨hchange, hrest⟩ := List.forall_mem_cons.1 h
    rw [edit_cons, ih hrest, Edit.getElem?_apply, if_neg hchange]

theorem getElem?_edit_eq_some_iff {edits : List Edit} {name : String} {value : Float} :
    (table.edit edits)[name]? = some value ↔ Holds table name value edits := by
  constructor
  · induction edits using List.reverseRecOn with
    | nil => exact fun h => .initial h (by simp)
    | append_singleton edits change ih =>
      intro h
      rw [edit_append, edit_cons, edit_nil, Edit.getElem?_apply] at h
      split at h
      · rename_i habout
        cases change with
        | set other given =>
          obtain rfl : other = name := habout other rfl
          obtain rfl : given = value := Option.some.inj h
          exact .set (by simp)
        | remove other => cases h
        | clear => cases h
      · rename_i habout
        exact (ih h).concat habout
  · rintro (⟨hvalue, hrest⟩ | hrest)
    · rwa [getElem?_edit_of_not_isAbout hrest]
    · rw [edit_append, edit_cons, getElem?_edit_of_not_isAbout hrest, getElem?_set, if_pos rfl]

theorem remove_eq (name : String) :
    table.remove name = (decide (name ∈ table), Edit.apply table (.remove name)) := by
  unfold remove
  split
  · rename_i hname
    rw [decide_eq_true hname]
    rfl
  · rename_i hname
    rw [decide_eq_false hname]
    refine congrArg (Prod.mk false) (Std.ExtTreeMap.ext_getElem? fun {other} => ?_)
    rw [getElem?_remove]
    split
    · rename_i heq
      rw [← heq, Std.ExtTreeMap.getElem?_eq_none hname]
    · rfl

theorem mem_edit_iff {edits : List Edit} {name : String} :
    name ∈ table.edit edits ↔ ∃ value, Holds table name value edits := by
  rw [Std.ExtTreeMap.mem_iff_isSome_getElem?, Option.isSome_iff_exists]
  exact exists_congr fun _ => getElem?_edit_eq_some_iff

theorem ofList_eq_edit (entries : List (String × Float)) :
    ofList entries = (∅ : Variables).edit (entries.map fun entry => .set entry.1 entry.2) := by
  rw [edit, List.foldl_map]
  rfl

/-- The last entry of a name counts. -/
theorem getElem?_ofList_eq_some_iff {entries : List (String × Float)} {name : String}
    {value : Float} : (ofList entries)[name]? = some value ↔ ∃ before after,
      entries = before ++ (name, value) :: after ∧ ∀ entry ∈ after, entry.1 ≠ name := by
  have habout : ∀ entries : List (String × Float),
      (∀ change ∈ entries.map fun entry => Edit.set entry.1 entry.2, ¬ change.IsAbout name) ↔
        ∀ entry ∈ entries, entry.1 ≠ name := by
    simp only [List.forall_mem_map, Edit.isAbout_set, implies_true]
  rw [ofList_eq_edit, getElem?_edit_eq_some_iff]
  constructor
  · intro h
    generalize hedits : entries.map (fun entry => Edit.set entry.1 entry.2) = edits at h
    cases h with
    | initial hvalue => simp at hvalue
    | set hrest =>
      obtain ⟨before, rest, rfl, -, hset⟩ := List.map_eq_append_iff.1 hedits
      obtain ⟨⟨name, value⟩, after, rfl, heq, rfl⟩ := List.map_eq_cons_iff.1 hset
      cases heq
      exact ⟨before, after, rfl, (habout after).1 hrest⟩
  · rintro ⟨before, after, rfl, hafter⟩
    rw [List.map_append, List.map_cons]
    exact .set ((habout after).2 hafter)

end

/-- What a table answers after a history of changes: the value of each name, whether it is there,
whether a removal finds it, and the list of names and values. Two changes in succession that are
about different names may be made in either order, and nothing after them tells which. -/
theorem edit_history (table : Variables) (edits : List Edit) :
    (∀ name value, (table.edit edits)[name]? = some value ↔ Holds table name value edits) ∧
    (∀ name, (table.edit edits).contains name = (table.edit edits)[name]?.isSome) ∧
    (∀ name, (((table.edit edits).remove name).1 = true ↔ ∃ value, Holds table name value edits) ∧
      ((table.edit edits).remove name).2 = table.edit (edits ++ [.remove name])) ∧
    (((table.edit edits).toList.map Prod.fst).Nodup ∧ ∀ name value,
      (name, value) ∈ (table.edit edits).toList ↔ Holds table name value edits) ∧
    ∀ (first second : Edit) (x y : String), first.name? = some x → second.name? = some y → x ≠ y →
      ∀ later, table.edit (edits ++ first :: second :: later) =
        table.edit (edits ++ second :: first :: later) := by
  refine ⟨fun name value => getElem?_edit_eq_some_iff, fun name =>
    Std.ExtTreeMap.contains_eq_isSome_getElem?, fun name => ?_, ⟨?_, fun name value => ?_⟩, ?_⟩
  · rw [remove_eq, edit_append]
    exact ⟨decide_eq_true_iff.trans mem_edit_iff, rfl⟩
  · rw [Std.ExtTreeMap.map_fst_toList_eq_keys]
    exact Std.ExtTreeMap.nodup_keys
  · rw [Std.ExtTreeMap.mem_toList_iff_getElem?_eq_some, getElem?_edit_eq_some_iff]
  · intro first second x y hx hy hne later
    rw [edit_append, edit_append, edit_cons, edit_cons, edit_cons, edit_cons,
      Edit.apply_comm hx hy hne]

/-- A name that is cleared and set again; then a removal and a setting in either order. -/
theorem edit_history_cleared :
    let table : Variables := .insert ∅ "b" 1
    let edits : List Edit := [.set "b" 2, .clear, .set "b" 3]
    (table.edit edits)["b"]? = some 3 ∧ ("b", 3) ∈ (table.edit edits).toList ∧
      ((table.edit edits).remove "b").1 = true ∧
      table.edit (edits ++ [.remove "b", .set "a" 4]) =
        table.edit (edits ++ [.set "a" 4, .remove "b"]) := by
  intro table edits
  obtain ⟨hlookup, -, hremove, ⟨-, hlist⟩, hswap⟩ := edit_history table edits
  have hb : Holds table "b" 3 ([.set "b" 2, .clear] ++ .set "b" 3 :: []) := .set (by simp)
  exact ⟨(hlookup "b" 3).2 hb, (hlist "b" 3).2 hb, (hremove "b").1.2 ⟨3, hb⟩,
    hswap _ _ "b" "a" rfl rfl (by decide) []⟩

end Reckoner.Variables
