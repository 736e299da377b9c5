import Mathlib.Order.Bounds.Defs
import Mathlib.Tactic
import Reckoner.Proofs.Session.Effect

/-!
# Numbers of entries

The next number is the one after the largest of the history (`idAfter_eq_iff`), whatever has been
done to a session: `Numbered` is kept by every line (`Numbered.change`), by clearing and by a
history that is taken over. Between two clearings entries are numbered one after the other
(`Recorded.acts`), and from one on where no history is taken over (`Recorded.acts_of_forall`).
-/

namespace Reckoner.Session

/-! ## The number after the largest -/

theorem idAfter_eq_iff {history : List Entry} (hne : history ≠ []) {n : Int} :
    idAfter history = n + 1 ↔
      n ∈ history.map Entry.id ∧ ∀ entry ∈ history, entry.id ≤ n := by
  have hsome : ∃ m, (history.map Entry.id).max? = some m :=
    Option.isSome_iff_exists.1 (by simpa [Option.isSome_iff_ne_none] using hne)
  obtain ⟨m, hm⟩ := hsome
  have hiff : (history.map Entry.id).max? = some n ↔
      n ∈ history.map Entry.id ∧ ∀ k ∈ history.map Entry.id, k ≤ n := List.max?_eq_some_iff
  rw [idAfter, hm, Option.getD_some, add_left_inj]
  simpa [hm] using hiff

theorem isGreatest_idAfter {history : List Entry} (hne : history ≠ []) :
    IsGreatest {n | n ∈ history.map Entry.id} (idAfter history - 1) := by
  obtain ⟨hmem, hle⟩ := (idAfter_eq_iff hne (n := idAfter history - 1)).1 (by omega)
  refine ⟨hmem, fun n hn => ?_⟩
  obtain ⟨entry, hentry, rfl⟩ := List.mem_map.1 hn
  exact hle entry hentry

theorem lt_idAfter {history : List Entry} {entry : Entry} (h : entry ∈ history) :
    entry.id < idAfter history := by
  have hle := (isGreatest_idAfter (List.ne_nil_of_mem h)).2 (List.mem_map_of_mem h)
  omega

/-- An entry with the next number is the last one by number. -/
theorem idAfter_concat (history : List Entry) (expression result : String) :
    idAfter (history ++ [⟨idAfter history, expression, result⟩]) = idAfter history + 1 := by
  refine (idAfter_eq_iff (by simp)).2 ⟨by simp, fun entry hentry => ?_⟩
  rcases List.mem_append.1 hentry with hold | hnew
  · exact (lt_idAfter hold).le
  · rw [List.mem_singleton.1 hnew]

/-! ## Actions -/

/-- What is done to a session. -/
inductive Action where
  | line (text : String)
  | clear
  | restore (history : List Entry) (vars : Variables)

def act (s : Session) : Action → Session
  | .line text => s.after text
  | .clear => s.clear
  | .restore history vars => s.restore history vars

def acts (s : Session) (actions : List Action) : Session := actions.foldl act s

/-- Whether an action leaves the history that there is in place. -/
def Action.Keeps : Action → Prop
  | line text => word text ≠ "clear".toList
  | clear | restore _ _ => False

theorem acts_append (s : Session) (before since : List Action) :
    s.acts (before ++ since) = (s.acts before).acts since := List.foldl_append

/-! ## What every action keeps -/

/-- A session that numbers its next entry by its history and shows a number of places that it
accepts. -/
structure Numbered (s : Session) : Prop where
  next : s.nextId = idAfter s.history
  precision : minPrecision ≤ s.precision ∧ s.precision ≤ maxPrecision

namespace Numbered

variable {s s' : Session}

theorem change {line : String} (hs : Numbered s) (h : Change s line s') : Numbered s' := by
  cases h with
  | none => exact hs
  | clear _ => exact ⟨rfl, hs.precision⟩
  | precision _ hmin hmax => exact ⟨hs.next, hmin, hmax⟩
  | entry _ =>
    refine ⟨?_, hs.precision⟩
    rw [nextId_record, history_record]
    simp only [hs.next, idAfter_concat]

theorem act (hs : Numbered s) (action : Action) : Numbered (s.act action) := by
  cases action with
  | line text => exact hs.change (s.change_after text)
  | clear => exact ⟨rfl, hs.precision⟩
  | restore history vars => exact ⟨rfl, hs.precision⟩

theorem acts (hs : Numbered s) (actions : List Action) : Numbered (s.acts actions) := by
  induction actions generalizing s with
  | nil => exact hs
  | cons action rest ih => exact ih (hs.act action)

end Numbered

/-! ## Numbers in a row -/

def numbersFrom (first : Int) (count : Nat) : List Int :=
  (List.range count).map fun i => first + i

theorem numbersFrom_succ (first : Int) (count : Nat) :
    numbersFrom first (count + 1) = numbersFrom first count ++ [first + count] := by
  simp [numbersFrom, List.range_succ]

/-- What an action can do to the history: take over another one, clear it, leave it or add an entry
under the next number. -/
theorem act_cases (s : Session) (action : Action) :
    (∃ history vars, action = .restore history vars) ∨
    (¬ action.Keeps ∧ s.act action = s.clear) ∨
    ((s.act action).history = s.history ∧ (s.act action).nextId = s.nextId) ∨
    ∃ entry, (s.act action).history = s.history ++ [entry] ∧ entry.id = s.nextId ∧
      (s.act action).nextId = s.nextId + 1 := by
  cases action with
  | restore history vars => exact .inl ⟨history, vars, rfl⟩
  | clear => exact .inr (.inl ⟨id, rfl⟩)
  | line text =>
    have hchange := s.change_after text
    rw [act]
    generalize s.after text = s' at hchange ⊢
    cases hchange with
    | clear hword => exact .inr (.inl ⟨fun hkeeps => hkeeps hword, rfl⟩)
    | none | precision _ _ _ => exact .inr (.inr (.inl ⟨rfl, rfl⟩))
    | entry _ => exact .inr (.inr (.inr ⟨_, rfl, rfl, rfl⟩))

/-- The history goes on after `base` with entries that are numbered one after the other. -/
def Recorded (base : List Entry) (first : Int) (s : Session) : Prop :=
  ∃ recorded, s.history = base ++ recorded ∧
    recorded.map Entry.id = numbersFrom first recorded.length ∧
    s.nextId = first + recorded.length

theorem recorded_self (s : Session) : Recorded s.history s.nextId s :=
  ⟨[], (List.append_nil _).symm, rfl, (add_zero _).symm⟩

namespace Recorded

variable {s s' : Session} {base : List Entry} {first : Int}

theorem congr (h : Recorded base first s) (hhistory : s'.history = s.history)
    (hnext : s'.nextId = s.nextId) : Recorded base first s' := by
  rw [Recorded, hhistory, hnext]
  exact h

theorem concat (h : Recorded base first s) {entry : Entry}
    (hhistory : s'.history = s.history ++ [entry]) (hid : entry.id = s.nextId)
    (hnext : s'.nextId = s.nextId + 1) : Recorded base first s' := by
  obtain ⟨recorded, hold, hids, hlast⟩ := h
  refine ⟨recorded ++ [entry], by rw [hhistory, hold, List.append_assoc], ?_, ?_⟩
  · rw [List.map_append, hids, List.length_append, List.length_singleton, numbersFrom_succ,
      List.map_singleton, hid, hlast]
  · rw [hnext, hlast, List.length_append, List.length_singleton]
    push_cast
    ring

theorem acts (h : Recorded base first s) {actions : List Action} (hkeeps : ∀ a ∈ actions, a.Keeps) :
    Recorded base first (s.acts actions) := by
  induction actions generalizing s with
  | nil => exact h
  | cons action rest ih =>
    obtain ⟨haction, hrest⟩ := List.forall_mem_cons.1 hkeeps
    refine ih ?_ hrest
    rcases s.act_cases action with ⟨history, vars, rfl⟩ | ⟨hnot, -⟩ | ⟨hh, hn⟩ |
      ⟨entry, hh, hid, hn⟩
    · exact haction.elim
    · exact absurd haction hnot
    · exact h.congr hh hn
    · exact h.concat hh hid hn

/-- Where no history is taken over, clearing is what numbering starts from. -/
theorem acts_of_forall (h : Recorded [] 1 s) {actions : List Action}
    (hrestore : ∀ history vars, .restore history vars ∉ actions) :
    Recorded [] 1 (s.acts actions) := by
  induction actions generalizing s with
  | nil => exact h
  | cons action rest ih =>
    refine ih ?_ fun history vars hmem => hrestore history vars (List.mem_cons_of_mem _ hmem)
    rcases s.act_cases action with ⟨history, vars, rfl⟩ | ⟨-, hclear⟩ | ⟨hh, hn⟩ |
      ⟨entry, hh, hid, hn⟩
    · exact absurd List.mem_cons_self (hrestore history vars)
    · rw [hclear]
      exact recorded_self s.clear
    · exact h.congr hh hn
    · exact h.concat hh hid hn

end Recorded

/-! ## Numbers after any actions -/

/-- After any lines, clearings and histories taken over, the next number is the one after the
largest; a new entry has a number larger than all others, entries recorded since the history was
last cleared or taken over are numbered in a row, and from one on where none was ever taken over. -/
theorem numbers_acts (vars : Variables) {precision : Int} (hmin : minPrecision ≤ precision)
    (hmax : precision ≤ maxPrecision) (actions : List Action) :
    let start : Session := { vars, precision }
    let s := start.acts actions
    (s.history = [] ∧ s.nextId = 1 ∨
      IsGreatest {n | n ∈ s.history.map Entry.id} (s.nextId - 1)) ∧
    (minPrecision ≤ s.precision ∧ s.precision ≤ maxPrecision) ∧
    (∀ line, (word line = "clear".toList ∧ (s.after line).history = []) ∨
      (s.after line).history = s.history ∨
      ∃ entry, (s.after line).history = s.history ++ [entry] ∧
        ∀ old ∈ s.history, old.id < entry.id) ∧
    (∀ before since, actions = before ++ since → (∀ a ∈ since, a.Keeps) →
      ∃ recorded, s.history = (start.acts before).history ++ recorded ∧
        recorded.map Entry.id = numbersFrom (start.acts before).nextId recorded.length) ∧
    ((∀ history vars, .restore history vars ∉ actions) →
      s.history.map Entry.id = numbersFrom 1 s.history.length) := by
  intro start s
  have hs : Numbered s := Numbered.acts ⟨rfl, hmin, hmax⟩ actions
  refine ⟨?_, hs.precision, fun line => ?_, ?_, ?_⟩
  · by_cases hempty : s.history = []
    · exact .inl ⟨hempty, by rw [hs.next, hempty]; rfl⟩
    · exact .inr (hs.next ▸ isGreatest_idAfter hempty)
  · have hline : s.act (.line line) = s.after line := rfl
    rw [← hline]
    rcases s.act_cases (.line line) with ⟨_, _, h⟩ | ⟨hkeeps, hclear⟩ | ⟨hh, -⟩ |
      ⟨entry, hh, hid, -⟩
    · cases h
    · exact .inl ⟨not_not.1 hkeeps, by rw [hclear]; rfl⟩
    · exact .inr (.inl hh)
    · refine .inr (.inr ⟨entry, hh, fun old hold => ?_⟩)
      rw [hid, hs.next]
      exact lt_idAfter hold
  · -- what is recorded is counted from where the last clearing or taking over has left the number
    rintro before since rfl hkeeps
    obtain ⟨recorded, hhistory, hids, -⟩ := (recorded_self (start.acts before)).acts hkeeps
    exact ⟨recorded, by rw [← hhistory, ← acts_append], hids⟩
  · intro hrestore
    obtain ⟨recorded, hhistory, hids, -⟩ := (recorded_self start).acts_of_forall hrestore
    rw [List.nil_append] at hhistory
    rw [hhistory]
    exact hids

/-- A history is taken over whose last number is not its largest; the two entries after it are
numbered on from the largest. -/
theorem numbers_acts_restored :
    let history : List Entry := [⟨5, "1", "1"⟩, ⟨2, "2", "2"⟩]
    let since : List Action := [.line "x=2", .line "x+", .line "precision=3"]
    let s := ({ precision := 4 } : Session).acts
      ([.line "7", .clear, .restore history ∅] ++ since)
    s.history.map Entry.id = [5, 2, 6, 7] ∧ s.precision = 3 ∧
      IsGreatest {n | n ∈ s.history.map Entry.id} (s.nextId - 1) ∧
      ∃ recorded, s.history = history ++ recorded ∧
        recorded.map Entry.id = numbersFrom 6 recorded.length := by
  intro history since s
  obtain ⟨hnext, -, -, hsince, -⟩ := @numbers_acts ∅ 4 (by decide) (by decide)
    ([.line "7", .clear, .restore history ∅] ++ since)
  have hids : s.history.map Entry.id = [5, 2, 6, 7] := by decide +kernel
  have hne : s.history ≠ [] := by
    intro hempty
    rw [hempty] at hids
    cases hids
  refine ⟨hids, by decide +kernel, hnext.resolve_left fun h => hne h.1, ?_⟩
  refine hsince _ since rfl ?_
  simp only [since, List.forall_mem_cons, List.not_mem_nil, false_imp_iff, implies_true, and_true,
    Action.Keeps]
  decide +kernel

end Reckoner.Session
