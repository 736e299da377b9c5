import Reckoner.Proofs.Session.Resume

/-!
# The history is a complete log

A recorded expression is a line of its own, and asks for the entry that it was recorded for unless
it is a command by itself (`execute_recorded`). So the history of a session holds all that its
variables depend on: `Logged` says that a new session which executes the recorded expressions is the
same session again, every line keeps that (`Logged.execute`), and commands among the recorded
expressions are all that can go wrong (`replay_history`).
-/

namespace Reckoner.Session

/-! ## Recorded expressions as lines -/

theorem solid_recorded (line : String) : solid (String.ofList (solid line)) = solid line := by
  rw [solid_eq_toList (hasNoBlank_solid line), String.toList_ofList]

/-- A line is executed by what it asks for. -/
theorem execute_congr {line line' : String} (h : Line.ofString line = Line.ofString line')
    (s : Session) : s.execute line = s.execute line' := by
  simp only [Session.execute, h]

/-- What an entry records asks for the same entry, if it does not happen to be a command. -/
theorem execute_recorded {line : String} {text : List Char} (h : Line.ofString line = .entry text)
    (hentry : ¬ IsCommand (String.ofList text)) (s : Session) :
    s.execute (String.ofList text) = s.execute line := by
  obtain ⟨rfl, hsolid, -⟩ := ofString_eq_entry h
  refine execute_congr ?_ s
  rw [h, ofString_of_entry (by rwa [solid_recorded]) hentry, solid_recorded]

/-! ## Sessions that their history gives back -/

/-- What comes of the recorded expressions of a session when they are executed in a new one. -/
def replay (places : Int) (history : List Entry) : Transcript :=
  ({ precision := places } : Session).runLines (history.map Entry.expression)

/-- A transcript that ends in the session, its replies being the results of the history. -/
def account (s : Session) : Transcript :=
  ⟨s.history.map fun entry => .reply (.text entry.result), s, none⟩

/-- A session that its history gives back, as long as no recorded expression is a command. -/
structure Logged (places : Int) (s : Session) : Prop where
  precision : s.precision = places
  replay : (∀ entry ∈ s.history, ¬ IsCommand entry.expression) → replay places s.history = s.account

namespace Logged

variable {places : Int} {s s' : Session}

theorem clear (h : Logged places s) : Logged places s.clear := by
  obtain rfl := h.precision
  exact ⟨rfl, fun _ => rfl⟩

/-- The history with one more entry is replayed by one more line. -/
theorem enter (h : Logged places s) {line : String} {text : List Char}
    (hline : Line.ofString line = .entry text) : Logged places (s.enter text).2 := by
  obtain ⟨shown, vars, henter, -⟩ := s.enter_cases text
  rw [henter]
  refine ⟨h.precision, fun hentries => ?_⟩
  rw [history_record, List.forall_mem_append, List.forall_mem_singleton] at hentries
  obtain ⟨hold, hnew⟩ := hentries
  have hreplay : ({ precision := places } : Session).runLines (s.history.map Entry.expression) =
      s.account :=
    h.replay hold
  have hexecute : s.execute (String.ofList text) = .ok (some (.text shown),
      { s with vars }.record (String.ofList text) shown) := by
    rw [execute_recorded hline hnew]
    simp only [Session.execute, hline, henter]
  rw [Session.replay, history_record, List.map_append, runLines_append (by rw [hreplay]; rfl),
    hreplay, List.map_singleton, account, runLines_cons_of_ok hexecute]
  simp [account, runLines, Transcript.print]

theorem execute (h : Logged places s) {line : String} {reply : Option Reply}
    (hline : ¬ precisionStart <+: word line) (hs : s.execute line = .ok (reply, s')) :
    Logged places s' := by
  rcases state_of_execute hs with rfl | rfl | ⟨hprecision, -⟩ | ⟨text, hentry, rfl⟩
  · exact h
  · exact h.clear
  · exact absurd hprecision hline
  · exact h.enter hentry

theorem after (h : Logged places s) {line : String} (hline : ¬ precisionStart <+: word line) :
    Logged places (s.after line) := by
  cases hs : s.execute line with
  | error e => rwa [after_of_error hs]
  | ok r =>
    rw [after_of_ok hs]
    exact h.execute hline hs

theorem foldl (h : Logged places s) {lines : List String}
    (hlines : ∀ line ∈ lines, ¬ precisionStart <+: word line) :
    Logged places (lines.foldl Session.after s) := by
  induction lines generalizing s with
  | nil => exact h
  | cons line rest ih =>
    obtain ⟨hline, hrest⟩ := List.forall_mem_cons.1 hlines
    exact ih (h.after hline) hrest

end Logged

/-! ## Entries and commands -/

/-- As many entries at most are recorded as there are lines other than commands. -/
theorem length_history_runLines (s : Session) (lines : List String) :
    (s.runLines lines).session.history.length ≤
      s.history.length + lines.countP fun line => ¬ IsCommand line := by
  induction lines generalizing s with
  | nil => exact Nat.le_add_right _ _
  | cons line rest ih =>
    simp only [List.countP_cons, decide_eq_true_eq, ite_not]
    cases hs : s.execute line with
    | error e =>
      rw [runLines_cons_of_error hs]
      exact Nat.le_add_right _ _
    | ok r =>
      obtain ⟨reply, next⟩ := r
      rw [runLines_cons_of_ok hs]
      have hline := length_history_execute hs
      have hrest : (next.runLines rest).session.history.length ≤
          next.history.length + rest.countP fun line => ¬ IsCommand line := ih next
      exact hrest.trans (by omega)

/-- Where commands are among the recorded expressions, some of them are not recorded again. -/
theorem length_history_replay (places : Int) (history : List Entry) :
    (replay places history).session.history.length ≤
      history.countP fun entry => ¬ IsCommand entry.expression := by
  have hle := ({ precision := places } : Session).length_history_runLines
    (history.map Entry.expression)
  rw [List.countP_map, List.length_nil, Nat.zero_add] at hle
  exact hle

/-! ## Replaying a history -/

/-- Executing the recorded expressions in order in a new session gives each of them the result that
is recorded for it, and ends in the session that recorded them, just if none of them is a command by
itself. Clearing, blank lines, other commands and lines that fail leave no trace in that. -/
theorem replay_history (places : Int) {lines : List String}
    (hlines : ∀ line ∈ lines, ¬ precisionStart <+: word line) :
    let s := lines.foldl after { precision := places }
    ({ precision := places } : Session).runLines (s.history.map Entry.expression) =
        ⟨s.history.map fun entry => .reply (.text entry.result), s, none⟩ ↔
      ∀ entry ∈ s.history, ¬ IsCommand entry.expression := by
  intro s
  have hnew : Logged places { precision := places } := ⟨rfl, fun _ => rfl⟩
  have hs : Logged places s := hnew.foldl hlines
  refine ⟨fun hreplay => ?_, hs.replay⟩
  have hle := length_history_replay places s.history
  rw [replay, hreplay] at hle
  have hall := List.countP_eq_length.1 (le_antisymm List.countP_le_length hle)
  exact fun entry hentry => of_decide_eq_true (hall entry hentry)

/-- A history that starts again after a variable has been cleared, with a blank line, an error and a
command between its entries. -/
theorem replay_history_cleared :
    let lines := ["x=2", "clear", "", " a = 1/8 ", "a^", "Print", "3!*ans*a", "x"]
    let s := lines.foldl after { precision := 3 }
    s.history = [⟨1, "a=1/8", "0.125"⟩, ⟨2, "a^", "Invalid expression"⟩,
      ⟨3, "3!*ans*a", "Unknown variable or function (ans)"⟩,
      ⟨4, "x", "Unknown variable or function (x)"⟩] ∧
    ({ precision := 3 } : Session).runLines (s.history.map Entry.expression) =
      ⟨s.history.map fun entry => .reply (.text entry.result), s, none⟩ := by
  intro lines s
  have hlines : ∀ line ∈ lines, ¬ precisionStart <+: word line := by decide +kernel
  have hhistory : s.history = [⟨1, "a=1/8", "0.125"⟩, ⟨2, "a^", "Invalid expression"⟩,
      ⟨3, "3!*ans*a", "Unknown variable or function (ans)"⟩,
      ⟨4, "x", "Unknown variable or function (x)"⟩] := by decide +kernel
  have hentries : ∀ entry ∈ s.history, ¬ IsCommand entry.expression := by
    rw [hhistory]
    decide +kernel
  exact ⟨hhistory, (replay_history 3 hlines).2 hentries⟩

end Reckoner.Session
