import Reckoner.Proofs.Session.Execute

/-!
# The places shown are only shown

Sessions are alike if they differ at most in the places shown and in what is shown for values
(`Alike`). Setting the places keeps sessions alike, and every other line does the same to both of
them (`Alike.execute`). So do lists of lines that are the same apart from setting the places
(`Aligned`), whether they stop at a line that fails (`Alike.runLines`) or go on after it
(`Alike.foldl`).
-/

namespace Reckoner.Session

/-! ## Lines apart from setting the places -/

/-- The lines that do not set the places shown. -/
def others (lines : List String) : List String :=
  lines.filter fun line => ¬ precisionStart <+: word line

/-- Two lists of lines side by side, with lines that set the places in either of them. -/
inductive Aligned : List String → List String → Prop
  | nil : Aligned [] []
  | left {line : String} {rest lines' : List String} (h : precisionStart <+: word line)
      (hrest : Aligned rest lines') : Aligned (line :: rest) lines'
  | right {line : String} {lines rest : List String} (h : precisionStart <+: word line)
      (hrest : Aligned lines rest) : Aligned lines (line :: rest)
  | both {line : String} {rest rest' : List String} (h : ¬ precisionStart <+: word line)
      (hrest : Aligned rest rest') : Aligned (line :: rest) (line :: rest')

theorem others_cons_of_sets {line : String} (h : precisionStart <+: word line)
    (rest : List String) : others (line :: rest) = others rest :=
  List.filter_cons_of_neg (by simpa using h)

theorem others_cons_of_not {line : String} (h : ¬ precisionStart <+: word line)
    (rest : List String) : others (line :: rest) = line :: others rest :=
  List.filter_cons_of_pos (by simpa using h)

theorem aligned_of_others_eq {lines lines' : List String} (h : others lines = others lines') :
    Aligned lines lines' := by
  induction lines generalizing lines' with
  | nil =>
    induction lines' with
    | nil => exact .nil
    | cons line' rest' ih' =>
      by_cases hline' : precisionStart <+: word line'
      · rw [others_cons_of_sets hline'] at h
        exact .right hline' (ih' h)
      · rw [others_cons_of_not hline'] at h
        cases h
  | cons line rest ih =>
    by_cases hline : precisionStart <+: word line
    · rw [others_cons_of_sets hline] at h
      exact .left hline (ih h)
    rw [others_cons_of_not hline] at h
    induction lines' with
    | nil => cases h
    | cons line' rest' ih' =>
      by_cases hline' : precisionStart <+: word line'
      · rw [others_cons_of_sets hline'] at h
        exact .right hline' (ih' h)
      · rw [others_cons_of_not hline'] at h
        obtain ⟨rfl, hrest⟩ := List.cons.inj h
        exact .both hline (ih hrest)

/-! ## Results of one outcome -/

/-- Whether a text tells of an error. -/
def IsMessage (shown : String) : Prop := ∃ e : EntryError, shown = e.message

/-- Results shown for one outcome: one error, or one value with some number of places each. Errors
read the same. -/
structure SameOutcome (shown shown' : String) : Prop where
  outcome : (∃ e : EntryError, shown = e.message ∧ shown' = e.message) ∨
    ∃ x places places', shown = display x places ∧ shown' = display x places'
  eq_of_message : IsMessage shown ∨ IsMessage shown' → shown = shown'

theorem blank_mem_message (e : EntryError) : ' ' ∈ e.message.toList := by
  cases e with
  | severalEquals | emptyName | invalidName => decide +kernel
  | evaluation e =>
    cases e with
    | invalidCharacter c =>
      change ' ' ∈ ("Invalid character '" ++ String.ofList [c] ++ "'").toList
      rw [String.toList_append, String.toList_append]
      exact List.mem_append_left _ (List.mem_append_left _ (by decide))
    | unknownName name =>
      change ' ' ∈ ("Unknown variable or function (" ++ name ++ ")").toList
      rw [String.toList_append, String.toList_append]
      exact List.mem_append_left _ (List.mem_append_left _ (by decide))
    | emptyInput | mismatchedParenthesis | invalidExpression | nonIntegerFactorial =>
      decide +kernel

/-- No value reads like an error. -/
theorem not_isMessage_display (x : Float) (places : Int) : ¬ IsMessage (display x places) := by
  rintro ⟨e, he⟩
  have hblank := hasNoBlank_display x places ' ' (he ▸ blank_mem_message e)
  exact absurd hblank (by decide)

theorem SameOutcome.error (e : EntryError) : SameOutcome e.message e.message :=
  ⟨.inl ⟨e, rfl, rfl⟩, fun _ => rfl⟩

theorem SameOutcome.value (x : Float) (places places' : Int) :
    SameOutcome (display x places) (display x places') where
  outcome := .inr ⟨x, places, places', rfl, rfl⟩
  eq_of_message h :=
    (h.elim (not_isMessage_display x places) (not_isMessage_display x places')).elim

/-! ## Sessions apart from what is shown -/

/-- What has been entered for an entry, and its number. -/
def entered (entry : Entry) : Int × String := (entry.id, entry.expression)

/-- Sessions that differ at most in the places shown and in the results shown. Of the histories that
they started from, `old` and `old'`, all is left or nothing, and what has been recorded since has
the same outcomes. -/
structure Alike (old old' : List Entry) (s t : Session) : Prop where
  vars : s.vars = t.vars
  nextId : s.nextId = t.nextId
  entered : s.history.map entered = t.history.map entered
  recorded : ∃ kept kept' new new', s.history = kept ++ new ∧ t.history = kept' ++ new' ∧
    (kept = old ∧ kept' = old' ∨ kept = [] ∧ kept' = []) ∧
    List.Forall₂ (fun entry entry' => SameOutcome entry.result entry'.result) new new'

/-- An entry depends on the variables only, apart from what is shown for its value. -/
theorem enter_of_vars {s t : Session} (h : s.vars = t.vars) (text : List Char) :
    ∃ vars shown shown', SameOutcome shown shown' ∧
      (s.enter text).2 = { s with vars }.record (String.ofList text) shown ∧
      (t.enter text).2 = { t with vars }.record (String.ofList text) shown' := by
  unfold enter
  rw [h]
  cases assignment t.vars text with
  | ok result =>
    obtain ⟨name, value⟩ := result
    exact ⟨_, _, _, .value value s.precision t.precision, rfl, rfl⟩
  | error e => exact ⟨t.vars, _, _, .error e, by simp only [← h], rfl⟩

namespace Alike

variable {old old' : List Entry} {s t : Session}

theorem left (h : Alike old old' s t) (precision : Int) :
    Alike old old' { s with precision } t :=
  ⟨h.vars, h.nextId, h.entered, h.recorded⟩

theorem right (h : Alike old old' s t) (precision : Int) :
    Alike old old' s { t with precision } :=
  ⟨h.vars, h.nextId, h.entered, h.recorded⟩

theorem clear (old old' : List Entry) (s t : Session) : Alike old old' s.clear t.clear :=
  ⟨rfl, rfl, rfl, [], [], [], [], rfl, rfl, .inr ⟨rfl, rfl⟩, .nil⟩

theorem record (h : Alike old old' s t) (vars : Variables) (expression : String)
    {shown shown' : String} (hsame : SameOutcome shown shown') :
    Alike old old' ({ s with vars }.record expression shown)
      ({ t with vars }.record expression shown') := by
  obtain ⟨kept, kept', new, new', hs, ht, hkept, hnew⟩ := h.recorded
  refine ⟨rfl, by simp [h.nextId], ?_, kept, kept', new ++ [⟨s.nextId, expression, shown⟩],
    new' ++ [⟨t.nextId, expression, shown'⟩], ?_, ?_, hkept, ?_⟩
  · simp [h.entered, h.nextId, Session.entered]
  · rw [history_record, hs, List.append_assoc]
  · rw [history_record, ht, List.append_assoc]
  · exact List.rel_append hnew (.cons hsame .nil)

/-- A line that does not set the places fails in both sessions, or in neither and keeps them
alike. -/
theorem execute (h : Alike old old' s t) {line : String}
    (hline : ¬ precisionStart <+: word line) :
    (∃ e, s.execute line = .error e ∧ t.execute line = .error e) ∨
    ∃ reply reply' s' t', s.execute line = .ok (reply, s') ∧ t.execute line = .ok (reply', t') ∧
      Alike old old' s' t' := by
  simp only [Session.execute]
  cases hl : Line.ofString line with
  | blank | help | print => exact .inr ⟨_, _, _, _, rfl, rfl, h⟩
  | clear => exact .inr ⟨_, _, _, _, rfl, rfl, clear old old' s t⟩
  | precision places => exact absurd (ofString_eq_precision hl) hline
  | test =>
    simp only [h.vars]
    cases Benchmark.round t.vars Benchmark.expressions with
    | error e => exact .inl ⟨e, rfl, rfl⟩
    | ok _ => exact .inr ⟨_, _, _, _, rfl, rfl, h⟩
  | entry text =>
    obtain ⟨vars, shown, shown', hsame, hs, ht⟩ := enter_of_vars h.vars text
    refine .inr ⟨_, _, _, _, rfl, rfl, ?_⟩
    rw [hs, ht]
    exact h.record vars _ hsame

/-- Lines that stop at one that fails stop at the same one. -/
theorem runLines (h : Alike old old' s t) {lines lines' : List String}
    (haligned : Aligned lines lines') :
    Alike old old' (s.runLines lines).session (t.runLines lines').session ∧
      (s.runLines lines).failure = (t.runLines lines').failure := by
  induction haligned generalizing s t with
  | nil => exact ⟨h, rfl⟩
  | left hline _ ih =>
    obtain ⟨_, precision, hs, -⟩ := s.execute_precision (ofString_of_precision hline)
    rw [runLines_cons_of_ok hs]
    exact ih (h.left precision)
  | right hline _ ih =>
    obtain ⟨_, precision, ht, -⟩ := t.execute_precision (ofString_of_precision hline)
    rw [runLines_cons_of_ok ht]
    exact ih (h.right precision)
  | both hline _ ih =>
    rcases h.execute hline with ⟨e, hs, ht⟩ | ⟨_, _, s', t', hs, ht, halike⟩
    · rw [runLines_cons_of_error hs, runLines_cons_of_error ht]
      exact ⟨h, rfl⟩
    · rw [runLines_cons_of_ok hs, runLines_cons_of_ok ht]
      exact ih halike

end Alike

/-! ## Lines that go on after one that fails -/

/-- Each line that does not set the places, with the error that it fails with, if any, when the
lines are executed in order. -/
def failures (s : Session) : List String → List (String × Option EvalError)
  | [] => []
  | line :: rest =>
    if precisionStart <+: word line then (s.after line).failures rest
    else (line, (s.runLines [line]).failure) :: (s.after line).failures rest

/-- No line is left out after one that fails. -/
theorem Alike.foldl {old old' : List Entry} {s t : Session} (h : Alike old old' s t)
    {lines lines' : List String} (haligned : Aligned lines lines') :
    Alike old old' (lines.foldl after s) (lines'.foldl after t) ∧
      s.failures lines = t.failures lines' := by
  induction haligned generalizing s t with
  | nil => exact ⟨h, rfl⟩
  | left hline _ ih =>
    obtain ⟨_, precision, hs, -⟩ := s.execute_precision (ofString_of_precision hline)
    simp only [List.foldl_cons, failures, if_pos hline, after_of_ok hs]
    exact ih (h.left precision)
  | right hline _ ih =>
    obtain ⟨_, precision, ht, -⟩ := t.execute_precision (ofString_of_precision hline)
    simp only [List.foldl_cons, failures, if_pos hline, after_of_ok ht]
    exact ih (h.right precision)
  | @both line rest rest' hline _ ih =>
    simp only [List.foldl_cons, failures, if_neg hline]
    rcases h.execute hline with ⟨e, hs, ht⟩ | ⟨_, _, s', t', hs, ht, halike⟩
    · rw [after_of_error hs, after_of_error ht, runLines_cons_of_error hs,
        runLines_cons_of_error ht]
      obtain ⟨halike, hfailures⟩ := ih h
      exact ⟨halike, by rw [hfailures]⟩
    · rw [after_of_ok hs, after_of_ok ht, runLines_cons_of_ok hs, runLines_cons_of_ok ht]
      obtain ⟨halike, hfailures⟩ := ih halike
      exact ⟨halike, by rw [hfailures]; rfl⟩

/-- The places shown never reach a value. Let two sessions have the same variables, the same next
number and the same history but for the results, and let two lists of lines be the same but for
lines that set the places. Then the sessions still have that in common after them, what has been
recorded is an error in both or in neither, with one text, and the same lines have failed in the
same way, whether lines after one that fails are executed or not. -/
theorem places_only_shown {s t : Session} {lines lines' : List String} (hvars : s.vars = t.vars)
    (hnext : s.nextId = t.nextId) (hhistory : s.history.map entered = t.history.map entered)
    (hlines : others lines = others lines') :
    Alike s.history t.history (lines.foldl after s) (lines'.foldl after t) ∧
      s.failures lines = t.failures lines' ∧
      Alike s.history t.history (s.runLines lines).session (t.runLines lines').session ∧
      (s.runLines lines).failure = (t.runLines lines').failure := by
  have halike : Alike s.history t.history s t :=
    ⟨hvars, hnext, hhistory, _, _, [], [], (List.append_nil _).symm, (List.append_nil _).symm,
      .inl ⟨rfl, rfl⟩, .nil⟩
  have haligned : Aligned lines lines' := aligned_of_others_eq hlines
  obtain ⟨hall, hfailures⟩ := halike.foldl haligned
  exact ⟨hall, hfailures, halike.runLines haligned⟩

/-- Two thirds shown with eight places or with one are the same two thirds for the lines after
them. With a variable in the place of `ln` the performance test fails. -/
theorem places_only_shown_thirds :
    let s : Session := { precision := 2, vars := Variables.ofList [("ln", 1)] }
    let t : Session := { precision := 8, vars := Variables.ofList [("ln", 1)] }
    let lines := ["Precision=1", "2/3", "test", "x+", "y=ans"]
    let lines' := ["2/3", " precision=9 ", "test", "x+", "y=ans"]
    (lines.foldl after s).history.map Entry.result =
      ["0.7", "Unknown variable or function (x)", "0.7"] ∧
    (lines'.foldl after t).history.map Entry.result =
      ["0.66666667", "Unknown variable or function (x)", "0.666666667"] ∧
    (lines.foldl after s).vars = (lines'.foldl after t).vars ∧
    t.failures lines' =
      [("2/3", none), ("test", some .invalidExpression), ("x+", none), ("y=ans", none)] := by
  intro s t lines lines'
  obtain ⟨halike, hfailures, -⟩ :=
    @places_only_shown s t lines lines' rfl rfl rfl (by decide +kernel)
  exact ⟨by decide +kernel, by decide +kernel, halike.vars, hfailures ▸ by decide +kernel⟩

end Reckoner.Session
