import Mathlib.Data.List.TakeWhile
import Reckoner.Proofs.Evaluate
import Reckoner.Session.Transcript

/-!
# The effect of a line

A line is blank, a command or an entry, and `word` is what tells them apart. `Entered` says what an
entry shows and which variables there are after it: `Assigns` is the name and the expression that
its text holds, and only an expression with a value changes a variable. `line_effect` puts both
together for every kind of line, and `Change` keeps of it what a session can turn into
(`change_after`). Without a look at the entry itself, `state_of_execute` says the same.
-/

namespace Reckoner.Session

/-! ## Words -/

/-- The characters of a line that are compared with the command words. -/
def word (line : String) : List Char :=
  Text.lowercase (Text.trim (line.toList.filter fun c => c != '\n' && c != '\r'))

/-- The command words that stand by themselves, and what they ask for. -/
def commands : List (List Char × Line) :=
  [("clear".toList, .clear), ("help".toList, .help), ("about".toList, .help),
   ("test".toList, .test), ("print".toList, .print)]

def IsCommand (line : String) : Prop :=
  word line ∈ commands.map Prod.fst ∨ precisionStart <+: word line

instance : DecidablePred IsCommand := fun _ => instDecidableOr

theorem trimBy_eq_nil_iff {skip : Char → Bool} {s : List Char} :
    Text.trimBy skip s = [] ↔ ∀ c ∈ s, skip c = true := by
  have hall : (∀ c ∈ s.dropWhile skip, skip c = true) → s.dropWhile skip = [] := by
    intro h
    have hhead := List.head?_dropWhile_not skip s
    cases hd : s.dropWhile skip with
    | nil => rfl
    | cons c rest =>
      have hc : skip c = true := h c (by simp [hd])
      simp [hd, hc] at hhead
  rw [Text.trimBy, List.reverse_eq_nil_iff, List.dropWhile_eq_nil_iff]
  simp only [List.mem_reverse]
  refine ⟨fun h => List.dropWhile_eq_nil_iff.1 (hall h), fun h c hc => ?_⟩
  exact h c (List.dropWhile_subset _ hc)

/-- Line breaks are blanks. -/
theorem removeBlanks_filter (line : String) :
    Text.removeBlanks (line.toList.filter fun c => c != '\n' && c != '\r') = solid line := by
  rw [solid, Text.removeBlanks, List.filter_filter]
  refine List.filter_congr fun c _ => ?_
  cases h : Text.isBlank c with
  | true => rfl
  | false =>
    have hfeed : c ≠ '\n' := by rintro rfl; cases h
    have hreturn : c ≠ '\r' := by rintro rfl; cases h
    simp [hfeed, hreturn]

theorem word_eq_nil_iff {line : String} : word line = [] ↔ solid line = [] := by
  rw [word, Text.lowercase, List.map_eq_nil_iff, Text.trim, trimBy_eq_nil_iff,
    ← removeBlanks_filter, Text.removeBlanks, List.filter_eq_nil_iff]
  simp

theorem ofString_eq (line : String) : Line.ofString line =
    if word line = [] then .blank
    else if word line = "clear".toList then .clear
    else if word line = "help".toList ∨ word line = "about".toList then .help
    else if precisionStart.isPrefixOf (word line) then
      .precision (Text.readInt? ((word line).drop precisionStart.length))
    else if word line = "test".toList then .test
    else if word line = "print".toList then .print
    else .entry (solid line) := by
  rw [← removeBlanks_filter]
  rfl

theorem ofString_of_blank {line : String} (h : solid line = []) :
    Line.ofString line = .blank := by
  rw [ofString_eq, if_pos (word_eq_nil_iff.2 h)]

theorem ofString_of_command {line : String} {asked : Line} (h : (word line, asked) ∈ commands) :
    Line.ofString line = asked := by
  simp only [commands, List.mem_cons, List.not_mem_nil, or_false, Prod.mk.injEq] at h
  rcases h with ⟨h, rfl⟩ | ⟨h, rfl⟩ | ⟨h, rfl⟩ | ⟨h, rfl⟩ | ⟨h, rfl⟩ <;>
  · rw [ofString_eq, h]
    rfl

theorem ofString_of_precision {line : String} (h : precisionStart <+: word line) :
    Line.ofString line = .precision (Text.readInt? ((word line).drop precisionStart.length)) := by
  have hother : ∀ w ∈ [] :: commands.map Prod.fst, word line ≠ w := by
    have hno : ∀ w ∈ [] :: commands.map Prod.fst, ¬ precisionStart <+: w := by decide
    rintro w hw rfl
    exact hno _ hw h
  simp only [commands, List.map_cons, List.forall_mem_cons] at hother
  obtain ⟨hblank, hclear, hhelp, habout, -⟩ := hother
  rw [ofString_eq, if_neg hblank, if_neg hclear, if_neg (not_or.2 ⟨hhelp, habout⟩),
    if_pos (List.isPrefixOf_iff_prefix.2 h)]

theorem ofString_of_entry {line : String} (hsolid : solid line ≠ []) (h : ¬ IsCommand line) :
    Line.ofString line = .entry (solid line) := by
  simp only [IsCommand, commands, List.map_cons, List.map_nil, List.mem_cons, List.not_mem_nil,
    or_false, not_or] at h
  obtain ⟨⟨hclear, hhelp, habout, htest, hprint⟩, hprecision⟩ := h
  have hblank : word line ≠ [] := mt word_eq_nil_iff.1 hsolid
  rw [ofString_eq, if_neg hblank, if_neg hclear, if_neg (not_or.2 ⟨hhelp, habout⟩),
    if_neg (mt List.isPrefixOf_iff_prefix.1 hprecision), if_neg htest, if_neg hprint]

/-- What a line asks for, by its word. -/
theorem ofString_cases (line : String) :
    (solid line = [] ∧ Line.ofString line = .blank) ∨
      (word line, Line.ofString line) ∈ commands ∨
      (precisionStart <+: word line ∧ ∃ places, Line.ofString line = .precision places) ∨
      (solid line ≠ [] ∧ ¬ IsCommand line ∧ Line.ofString line = .entry (solid line)) := by
  by_cases hsolid : solid line = []
  · exact .inl ⟨hsolid, ofString_of_blank hsolid⟩
  by_cases hprecision : precisionStart <+: word line
  · exact .inr (.inr (.inl ⟨hprecision, _, ofString_of_precision hprecision⟩))
  by_cases hword : word line ∈ commands.map Prod.fst
  · obtain ⟨⟨w, asked⟩, hmem, hw⟩ := List.mem_map.1 hword
    obtain rfl : w = word line := hw
    exact .inr (.inl (ofString_of_command hmem ▸ hmem))
  · have hentry : ¬ IsCommand line := not_or.2 ⟨hword, hprecision⟩
    exact .inr (.inr (.inr ⟨hsolid, hentry, ofString_of_entry hsolid hentry⟩))

theorem ofString_eq_precision {line : String} {places : Option Int}
    (h : Line.ofString line = .precision places) : precisionStart <+: word line := by
  rcases ofString_cases line with ⟨-, hl⟩ | hl | ⟨hstart, -⟩ | ⟨-, -, hl⟩
  · simp [hl] at h
  · simp [h, commands] at hl
  · exact hstart
  · simp [hl] at h

theorem ofString_eq_entry {line : String} {text : List Char}
    (h : Line.ofString line = .entry text) :
    text = solid line ∧ solid line ≠ [] ∧ ¬ IsCommand line := by
  rcases ofString_cases line with ⟨-, hl⟩ | hl | ⟨-, places, hl⟩ | ⟨hsolid, hentry, hl⟩
  · simp [hl] at h
  · simp [h, commands] at hl
  · simp [hl] at h
  · rw [hl] at h
    cases h
    exact ⟨rfl, hsolid, hentry⟩

/-! ## Entries -/

/-- The name that a text assigns to, and the expression whose value goes to it. -/
inductive Assigns : (text : List Char) → (name expression : String) → Prop
  | named {name expression : List Char} (hne : name ≠ []) (hname : '=' ∉ name)
      (hexpression : '=' ∉ expression) :
      Assigns (name ++ '=' :: expression) (String.ofList name) (String.ofList expression)
  | unnamed {expression : List Char} (h : '=' ∉ expression) :
      Assigns expression defaultName (String.ofList expression)

theorem splitEntry_cases (text : List Char) :
    (∃ name expression, splitEntry text = .ok (name, expression) ∧
      Assigns text name expression) ∨
    (splitEntry text = .error .severalEquals ∧ 2 ≤ text.count '=') ∨
    ∃ expression, splitEntry text = .error .emptyName ∧ text = '=' :: expression ∧
      '=' ∉ expression := by
  have hsplit := List.takeWhile_append_dropWhile (p := (· != '=')) (l := text)
  have hhead := List.head?_dropWhile_not (· != '=') text
  have hname : '=' ∉ text.takeWhile (· != '=') := fun h => by
    simpa using List.mem_takeWhile_imp h
  unfold splitEntry
  generalize text.takeWhile (· != '=') = name at hsplit hname ⊢
  cases hd : text.dropWhile (· != '=') with
  | nil =>
    have htext : name = text := by simpa [hd] using hsplit
    exact .inl ⟨_, _, rfl, .unnamed (htext ▸ hname)⟩
  | cons c expression =>
    obtain rfl : c = '=' := by simpa [hd] using hhead
    rw [hd] at hsplit
    subst hsplit
    dsimp only
    by_cases hexpression : '=' ∈ expression
    · refine .inr (.inl ⟨by simp [hexpression], ?_⟩)
      have hcount := List.count_pos_iff.2 hexpression
      simp only [List.count_append, List.count_cons_self]
      omega
    · cases name with
      | nil => exact .inr (.inr ⟨expression, by simp [hexpression], rfl, hexpression⟩)
      | cons d name =>
        exact .inl ⟨_, _, by simp [hexpression], .named (by simp) hname hexpression⟩

/-- What is shown for an entry, and the variables after it: only a value changes a variable, and it
changes the one that the entry names. -/
inductive Entered (s : Session) (text : List Char) : (shown : String) → (vars : Variables) → Prop
  | severalEquals (h : 2 ≤ text.count '=') :
      Entered s text EntryError.severalEquals.message s.vars
  | emptyName {expression : List Char} (htext : text = '=' :: expression)
      (h : '=' ∉ expression) : Entered s text EntryError.emptyName.message s.vars
  | invalidName {name expression : String} (h : Assigns text name expression)
      (hname : isValidName (Registry.builtin.map Prod.fst) name = false) :
      Entered s text EntryError.invalidName.message s.vars
  | failed {name expression : String} {e : EvalError} (h : Assigns text name expression)
      (hname : isValidName (Registry.builtin.map Prod.fst) name = true)
      (hvalue : evaluate s.vars expression = .error e) : Entered s text e.message s.vars
  | assigned {name expression : String} {value : Float} {vars : Variables}
      (h : Assigns text name expression)
      (hname : isValidName (Registry.builtin.map Prod.fst) name = true)
      (hvalue : evaluate s.vars expression = .ok value) (hset : vars[name]? = some value)
      (hrest : ∀ other, other ≠ name → vars[other]? = s.vars[other]?) :
      Entered s text (display value s.precision) vars

/-- Every name with a value after an entry had one before it or is the name of the entry. -/
theorem Entered.mem_vars {s : Session} {text : List Char} {shown : String} {vars : Variables}
    (h : Entered s text shown vars) {other : String} (hother : other ∈ vars) :
    other ∈ s.vars ∨ isValidName (Registry.builtin.map Prod.fst) other = true ∧
      ∃ expression, Assigns text other expression := by
  cases h with
  | severalEquals _ | emptyName _ _ | invalidName _ _ | failed _ _ _ => exact .inl hother
  | @assigned name expression _ _ hassigns hname _ _ hrest =>
    by_cases heq : other = name
    · subst heq
      exact .inr ⟨hname, expression, hassigns⟩
    · rw [Std.ExtTreeMap.mem_iff_isSome_getElem?, hrest other heq] at hother
      exact .inl (Std.ExtTreeMap.mem_iff_isSome_getElem?.2 hother)

/-- What an entry assigns, or why it does not. -/
inductive Assigned (vars : Variables) (text : List Char) :
    Except EntryError (String × Float) → Prop
  | severalEquals (h : 2 ≤ text.count '=') : Assigned vars text (.error .severalEquals)
  | emptyName {expression : List Char} (htext : text = '=' :: expression)
      (h : '=' ∉ expression) : Assigned vars text (.error .emptyName)
  | invalidName {name expression : String} (h : Assigns text name expression)
      (hname : isValidName (Registry.builtin.map Prod.fst) name = false) :
      Assigned vars text (.error .invalidName)
  | failed {name expression : String} {e : EvalError} (h : Assigns text name expression)
      (hname : isValidName (Registry.builtin.map Prod.fst) name = true)
      (hvalue : evaluate vars expression = .error e) :
      Assigned vars text (.error (.evaluation e))
  | value {name expression : String} {value : Float} (h : Assigns text name expression)
      (hname : isValidName (Registry.builtin.map Prod.fst) name = true)
      (hvalue : evaluate vars expression = .ok value) : Assigned vars text (.ok (name, value))

theorem assigned (vars : Variables) (text : List Char) :
    Assigned vars text (assignment vars text) := by
  unfold assignment
  rcases splitEntry_cases text with ⟨name, expression, hsplit, h⟩ | ⟨hsplit, h⟩ |
    ⟨expression, hsplit, htext, h⟩ <;> simp only [hsplit, bind, Except.bind]
  · cases hname : isValidName (Registry.builtin.map Prod.fst) name with
    | false => exact .invalidName h hname
    | true =>
      cases hvalue : evaluate vars expression with
      | error e => exact .failed h hname hvalue
      | ok value => exact .value h hname hvalue
  · exact .severalEquals h
  · exact .emptyName htext h

theorem enter_cases (s : Session) (text : List Char) :
    ∃ shown vars, s.enter text = (shown, { s with vars }.record (String.ofList text) shown) ∧
      Entered s text shown vars := by
  have hassigned := assigned s.vars text
  unfold enter
  generalize assignment s.vars text = result at hassigned ⊢
  cases hassigned with
  | severalEquals h => exact ⟨_, s.vars, rfl, .severalEquals h⟩
  | emptyName htext h => exact ⟨_, s.vars, rfl, .emptyName htext h⟩
  | invalidName h hname => exact ⟨_, s.vars, rfl, .invalidName h hname⟩
  | failed h hname hvalue => exact ⟨_, s.vars, rfl, .failed h hname hvalue⟩
  | @value name expression value h hname hvalue =>
    refine ⟨_, s.vars.insert name value, rfl, .assigned h hname hvalue (by simp) ?_⟩
    intro other hother
    simp [Std.ExtTreeMap.getElem?_insert, hother.symm]

/-! ## Lines -/

theorem setPrecision_cases (s : Session) (places : Option Int) :
    (s.setPrecision places).2 = s ∨ ∃ n, places = some n ∧ minPrecision ≤ n ∧ n ≤ maxPrecision ∧
      (s.setPrecision places).2 = { s with precision := n } := by
  unfold setPrecision
  split
  · exact .inl rfl
  · split
    · rename_i n hbounds
      exact .inr ⟨n, rfl, hbounds.1, hbounds.2, rfl⟩
    · exact .inl rfl

theorem execute_entry (s : Session) {line : String} {text : List Char}
    (h : Line.ofString line = .entry text) :
    ∃ shown vars, s.execute line = .ok (some (.text shown),
        { s with vars }.record (String.ofList text) shown) ∧ Entered s text shown vars := by
  obtain ⟨shown, vars, henter, hentered⟩ := s.enter_cases text
  exact ⟨shown, vars, by simp only [execute, h, henter], hentered⟩

theorem execute_precision (s : Session) {line : String} {places : Option Int}
    (h : Line.ofString line = .precision places) :
    ∃ shown precision, s.execute line = .ok (some (.text shown), { s with precision }) ∧
      (precision = s.precision ∨
        places = some precision ∧ minPrecision ≤ precision ∧ precision ≤ maxPrecision) := by
  have hexecute : s.execute line =
      .ok (some (.text (s.setPrecision places).1), (s.setPrecision places).2) := by
    simp only [execute, h]
  rw [hexecute]
  rcases s.setPrecision_cases places with hs | ⟨n, hn, hmin, hmax, hs⟩
  · exact ⟨_, s.precision, by rw [hs], .inl rfl⟩
  · exact ⟨_, n, by rw [hs], .inr ⟨hn, hmin, hmax⟩⟩

theorem execute_test (s : Session) {line : String} (h : Line.ofString line = .test) :
    s.execute line = .ok (some .timing, s) ∨ ∃ e, s.execute line = .error e := by
  have hexecute : s.execute line =
      (Benchmark.round s.vars Benchmark.expressions).map fun _ => (some .timing, s) := by
    simp only [execute, h]
  rw [hexecute]
  cases Benchmark.round s.vars Benchmark.expressions with
  | error e => exact .inr ⟨e, rfl⟩
  | ok _ => exact .inl rfl

theorem execute_blank (s : Session) {line : String} (h : Line.ofString line = .blank) :
    s.execute line = .ok (none, s) := by
  simp only [execute, h]

theorem runLines_cons_of_ok {s s' : Session} {line : String} {reply : Option Reply}
    (h : s.execute line = .ok (reply, s')) (rest : List String) :
    s.runLines (line :: rest) = (s'.runLines rest).print (reply.toList.map .reply) := by
  rw [runLines, h]

theorem runLines_cons_of_error {s : Session} {line : String} {e : EvalError}
    (h : s.execute line = .error e) (rest : List String) :
    s.runLines (line :: rest) = ⟨[], s, some e⟩ := by
  rw [runLines, h]

/-- The session after a line, also where the line fails. -/
def after (s : Session) (line : String) : Session := (s.runLines [line]).session

theorem after_of_ok {s s' : Session} {line : String} {reply : Option Reply}
    (h : s.execute line = .ok (reply, s')) : s.after line = s' := by
  rw [after, runLines_cons_of_ok h]
  rfl

theorem after_of_error {s : Session} {line : String} {e : EvalError}
    (h : s.execute line = .error e) : s.after line = s := by
  rw [after, runLines_cons_of_error h]

/-- What a line can make of a session. -/
inductive Change (s : Session) (line : String) : Session → Prop
  | none : Change s line s
  | clear (h : word line = "clear".toList) : Change s line s.clear
  | precision {places : Int} (h : Line.ofString line = .precision (some places))
      (hmin : minPrecision ≤ places) (hmax : places ≤ maxPrecision) :
      Change s line { s with precision := places }
  | entry {shown : String} {vars : Variables} (h : Entered s (solid line) shown vars) :
      Change s line ({ s with vars }.record (String.ofList (solid line)) shown)

/-- A line fails only if it asks for the performance test. -/
theorem execute_cases (s : Session) (line : String) :
    (∃ reply s', s.execute line = .ok (reply, s') ∧ Change s line s') ∨
    ∃ e, s.execute line = .error e ∧ word line = "test".toList := by
  rcases ofString_cases line with ⟨-, hl⟩ | hl | ⟨-, places, hl⟩ | ⟨-, -, hl⟩
  · exact .inl ⟨_, _, s.execute_blank hl, .none⟩
  · simp only [commands, List.mem_cons, List.not_mem_nil, or_false, Prod.mk.injEq] at hl
    rcases hl with ⟨hword, hl⟩ | ⟨-, hl⟩ | ⟨-, hl⟩ | ⟨hword, hl⟩ | ⟨-, hl⟩
    · exact .inl ⟨_, _, by simp only [execute, hl]; rfl, .clear hword⟩
    · exact .inl ⟨_, _, by simp only [execute, hl]; rfl, .none⟩
    · exact .inl ⟨_, _, by simp only [execute, hl]; rfl, .none⟩
    · rcases s.execute_test hl with h | ⟨e, h⟩
      · exact .inl ⟨_, _, h, .none⟩
      · exact .inr ⟨e, h, hword⟩
    · exact .inl ⟨_, _, by simp only [execute, hl]; rfl, .none⟩
  · obtain ⟨shown, precision, h, hprecision⟩ := s.execute_precision hl
    rcases hprecision with rfl | ⟨rfl, hmin, hmax⟩
    · exact .inl ⟨_, _, h, .none⟩
    · exact .inl ⟨_, _, h, .precision hl hmin hmax⟩
  · obtain ⟨shown, vars, h, hentered⟩ := s.execute_entry hl
    exact .inl ⟨_, _, h, .entry hentered⟩

/-- Only an entry and a line that sets the places can do more than leave or clear a session. -/
theorem state_of_execute {s s' : Session} {line : String} {reply : Option Reply}
    (h : s.execute line = .ok (reply, s')) :
    s' = s ∨ s' = s.clear ∨
      (precisionStart <+: word line ∧ ∃ precision, s' = { s with precision }) ∨
      ∃ text, Line.ofString line = .entry text ∧ s' = (s.enter text).2 := by
  cases hl : Line.ofString line with
  | precision places =>
    obtain ⟨shown, precision, hexecute, -⟩ := s.execute_precision hl
    rw [h] at hexecute
    cases hexecute
    exact .inr (.inr (.inl ⟨ofString_eq_precision hl, precision, rfl⟩))
  | entry text =>
    simp only [execute, hl, Except.ok.injEq, Prod.mk.injEq] at h
    exact .inr (.inr (.inr ⟨text, rfl, h.2.symm⟩))
  | clear =>
    simp only [execute, hl, Except.ok.injEq, Prod.mk.injEq] at h
    exact .inr (.inl h.2.symm)
  | test =>
    rcases s.execute_test hl with hexecute | ⟨e, hexecute⟩ <;> rw [h] at hexecute <;> cases hexecute
    exact .inl rfl
  | blank | help | print =>
    simp only [execute, hl, Except.ok.injEq, Prod.mk.injEq] at h
    exact .inl h.2.symm

/-- A line adds at most one entry, and a command none. -/
theorem length_history_execute {s s' : Session} {line : String} {reply : Option Reply}
    (h : s.execute line = .ok (reply, s')) :
    s'.history.length ≤ s.history.length + if IsCommand line then 0 else 1 := by
  rcases state_of_execute h with rfl | rfl | ⟨-, precision, rfl⟩ | ⟨text, hentry, rfl⟩
  · exact Nat.le_add_right _ _
  · exact Nat.zero_le _
  · exact Nat.le_add_right _ _
  · obtain ⟨shown, vars, henter, -⟩ := s.enter_cases text
    obtain ⟨-, -, hcommand⟩ := ofString_eq_entry hentry
    rw [henter, if_neg hcommand]
    simp

theorem change_of_execute {s s' : Session} {line : String} {reply : Option Reply}
    (h : s.execute line = .ok (reply, s')) : Change s line s' := by
  rcases s.execute_cases line with ⟨reply', s'', hok, hchange⟩ | ⟨e, herror, -⟩
  · rw [h] at hok
    cases hok
    exact hchange
  · simp [h] at herror

theorem change_after (s : Session) (line : String) : Change s line (s.after line) := by
  cases h : s.execute line with
  | ok r => exact after_of_ok h ▸ change_of_execute h
  | error e =>
    rw [after_of_error h]
    exact .none

/-- An entry is recorded under the next number, with the text that is shown for it, and changes at
most the variable that it names. Only the performance test can fail, and a failure changes nothing.
A command changes nothing but what it is there for. -/
theorem line_effect (s : Session) (line : String) :
    (solid line ≠ [] ∧ ¬ IsCommand line → ∃ shown vars,
      s.execute line = .ok (some (.text shown),
        { vars
          precision := s.precision
          history := s.history ++ [⟨s.nextId, String.ofList (solid line), shown⟩]
          nextId := s.nextId + 1 }) ∧ Entered s (solid line) shown vars) ∧
    (∀ e, s.execute line = .error e → word line = "test".toList ∧ s.after line = s) ∧
    (solid line = [] → s.execute line = .ok (none, s)) ∧
    (word line = "clear".toList → ∃ shown, s.execute line = .ok (some (.text shown),
      { s with vars := ∅, history := [], nextId := 1 })) ∧
    (precisionStart <+: word line → ∃ shown precision,
      s.execute line = .ok (some (.text shown), { s with precision }) ∧
        (precision = s.precision ∨
          Text.readInt? ((word line).drop precisionStart.length) = some precision ∧
            minPrecision ≤ precision ∧ precision ≤ maxPrecision)) ∧
    (word line = "test".toList → s.execute line = .ok (some .timing, s) ∨
      ∃ e, s.execute line = .error e) ∧
    (word line ∈ ["help".toList, "about".toList, "print".toList] → ∃ shown,
      s.execute line = .ok (some (.text shown), s)) := by
  refine ⟨?_, ?_, fun h => s.execute_blank (ofString_of_blank h), ?_, ?_, ?_, ?_⟩
  · rintro ⟨hsolid, hentry⟩
    exact s.execute_entry (ofString_of_entry hsolid hentry)
  · -- of all kinds of lines only the performance test can fail
    intro e h
    rcases s.execute_cases line with ⟨reply, s', hok, -⟩ | ⟨e', -, hword⟩
    · simp [h] at hok
    · exact ⟨hword, after_of_error h⟩
  · intro h
    have hl : Line.ofString line = .clear := ofString_of_command (h ▸ by decide)
    exact ⟨_, by simp only [execute, hl]; rfl⟩
  · exact fun h => s.execute_precision (ofString_of_precision h)
  · exact fun h => s.execute_test (ofString_of_command (h ▸ by decide))
  · intro h
    simp only [List.mem_cons, List.not_mem_nil, or_false] at h
    have hl : Line.ofString line = .help ∨ Line.ofString line = .print := by
      rcases h with h | h | h
      · exact .inl (ofString_of_command (h ▸ by decide))
      · exact .inl (ofString_of_command (h ▸ by decide))
      · exact .inr (ofString_of_command (h ▸ by decide))
    rcases hl with hl | hl
    · exact ⟨_, by simp only [execute, hl]; rfl⟩
    · exact ⟨_, by simp only [execute, hl]; rfl⟩

end Reckoner.Session
