import Reckoner.Proofs.Session.Execute

/-!
# Names as expressions

A name that can be assigned to is a word of the scanner, between any symbols (`scan_valid_name`),
and has the value of its variable. As a line it gives that value back, unless it is a command word
in another case (`recalls_iff`): names are told from command words as they are written, lines in
lower case.
-/

namespace Reckoner

open Text (HasNoBlank)

/-- A word is an expression, and the value of its variable is its value. -/
theorem evaluate_word {vars : Variables} {name : String} {v : Float} (hname : IsWord name)
    (hv : vars[name]? = some v) : evaluate vars name = .ok v := by
  have hsolid : solid name = name.toList := solid_eq_toList hname.noBlank
  have hscan : Token.scan name.toList = [.identifier name] := by
    have hend : ∀ c ∈ [].head?, isSymbol c = true := by simp
    rw [← List.append_nil name.toList, Token.scan_word_append hname hend]
    rfl
  have htokens : Token.tokensFrom false name.toList = [.identifier name] := by
    rw [Token.tokensFrom, hscan]
    rfl
  have horder : Postfix.ofTokens { vars } [.identifier name] = .ok [.number v] := by
    have hvalue : Scope.value? { vars } name = some v := by simp [Scope.value?, hv]
    simp only [Postfix.ofTokens, Postfix.run, Postfix.step, hvalue]
    rfl
  rw [evaluate_eq_ok_iff, hsolid, htokens]
  exact ⟨hname.toList_ne_nil, hname.noReserved,
    evaluateTokens_eq_ok_iff.2 ⟨_, horder, rfl⟩⟩

namespace Session

/-! ## Valid names in expressions -/

theorem mem_forbiddenCharacters {c : Char} (h : isSymbol c = true ∨ c ∈ reservedCharacters) :
    c ∈ forbiddenCharacters.toList := by
  rcases h with h | h
  · unfold isSymbol Symbol.ofChar? at h
    split at h <;> first | decide | cases h
  · rw [List.mem_singleton.1 h]
    decide

theorem isWord_of_isValidName {functions : List String} {name : String}
    (hvalid : isValidName functions name = true) (hblank : HasNoBlank name) : IsWord name := by
  simp only [isValidName, Bool.and_eq_true, bne_iff_ne, Bool.not_eq_true',
    Option.isNone_iff_eq_none, List.any_eq_false, List.contains_iff_mem] at hvalid
  obtain ⟨⟨⟨⟨⟨⟨hne, -⟩, -⟩, -⟩, hforbidden⟩, hnumeral⟩, hopen⟩ := hvalid
  refine ⟨hne, hblank, fun c hc => ?_, fun c hc hmem => ?_, hnumeral, hopen⟩
  · rw [← Bool.not_eq_true]
    exact fun hsymbol => hforbidden c hc (mem_forbiddenCharacters (.inl hsymbol))
  · exact hforbidden c hc (mem_forbiddenCharacters (.inr hmem))

/-- Between symbols a valid name is scanned as itself, and what surrounds it as without it. Once it
is assigned to, its value is the value that was assigned. -/
theorem scan_valid_name {functions : List String} {name : String}
    (hvalid : isValidName functions name = true) (hblank : HasNoBlank name) :
    (∀ before after : List Char, (∀ c ∈ before.getLast?, isSymbol c = true) →
      (before ≠ [] → ∀ c ∈ name.toList.head?, c.isDigit = false) →
      (∀ c ∈ after.head?, isSymbol c = true) →
      Token.scan (before ++ name.toList ++ after) =
        Token.scan before ++ [.identifier name] ++ Token.scan after) ∧
    ∀ (vars : Variables) (v : Float), evaluate (vars.insert name v) name = .ok v := by
  have hname := isWord_of_isValidName hvalid hblank
  refine ⟨fun before after hend hdigit hstart => ?_, fun vars v => ?_⟩
  · rw [Token.scan_append_word hname hdigit hend hstart, List.append_assoc,
      List.singleton_append]
  · exact evaluate_word hname (by simp)

/-- A name that goes on like a numeral, after an open exponent and before a sign and a digit. -/
theorem scan_valid_name_exponent :
    isValidName (Registry.builtin.map Prod.fst) "e1e" = true ∧ HasNoBlank "e1e" ∧
      Token.scan ("2*1e-".toList ++ "e1e".toList ++ "-3!".toList) =
        Token.scan "2*1e-".toList ++ [.identifier "e1e"] ++ Token.scan "-3!".toList ∧
      evaluate (Std.ExtTreeMap.insert ∅ "e1e" 7) "e1e" = .ok 7 := by
  have hvalid : isValidName (Registry.builtin.map Prod.fst) "e1e" = true := by decide +kernel
  have hblank : HasNoBlank "e1e" := by simp [HasNoBlank, Text.isBlank]
  obtain ⟨hscan, hvalue⟩ := scan_valid_name hvalid hblank
  refine ⟨hvalid, hblank, hscan _ _ ?_ ?_ ?_, hvalue ∅ 7⟩
  · simp [isSymbol, Symbol.ofChar?]
  · simp
  · simp [isSymbol, Symbol.ofChar?]

/-! ## Names as lines -/

/-- A line whose execution stores a value under a name. -/
def Stores (s : Session) (line name : String) (v : Float) : Prop :=
  ∃ text, Line.ofString line = .entry text ∧ assignment s.vars text = .ok (name, v)

theorem assignment_eq_ok {vars : Variables} {text : List Char} {name : String} {v : Float}
    (h : assignment vars text = .ok (name, v)) :
    isValidName (Registry.builtin.map Prod.fst) name = true ∧
      ∃ expression, Assigns text name expression := by
  have hassigned := assigned vars text
  rw [h] at hassigned
  cases hassigned with
  | value hassigns hname _ => exact ⟨hname, _, hassigns⟩

theorem equals_not_mem_of_assigns {text : List Char} {name expression : String}
    (h : Assigns text name expression) : '=' ∉ name.toList := by
  cases h with
  | named _ hname _ => rwa [String.toList_ofList]
  | unnamed _ => decide

theorem assignment_of_word {vars : Variables} {name : String} {v : Float} (hname : IsWord name)
    (hequals : '=' ∉ name.toList) (hv : vars[name]? = some v) :
    assignment vars name.toList = .ok (defaultName, v) := by
  have hdrop : name.toList.dropWhile (· != '=') = [] := by
    rw [List.dropWhile_eq_nil_iff]
    intro c hc
    rw [bne_iff_ne]
    rintro rfl
    exact hequals hc
  have hsplit : splitEntry name.toList = .ok (defaultName, name) := by
    rw [splitEntry, hdrop, String.ofList_toList]
  have hdefault : isValidName (Registry.builtin.map Prod.fst) defaultName = true := by
    decide +kernel
  simp only [assignment, hsplit, bind, Except.bind, hdefault, evaluate_word hname hv]
  rfl

theorem word_of_hasNoBlank {line : String} (h : HasNoBlank line) :
    word line = Text.lowercase line.toList := by
  have hbreaks : (line.toList.filter fun c => c != '\n' && c != '\r') = line.toList := by
    refine List.filter_eq_self.2 fun c hc => ?_
    have hc := h c hc
    simp only [Bool.and_eq_true, bne_iff_ne]
    constructor <;>
    · rintro rfl
      cases hc
  rw [word, hbreaks, Text.trim, Text.trimBy_eq_self h]

theorem toLower_ne_equals {c : Char} (h : c ≠ '=') : c.toLower ≠ '=' := by
  unfold Char.toLower
  split
  · rename_i hupper
    intro heq
    have hge : 65 ≤ c.toNat := hupper.1
    have hle : c.toNat ≤ 90 := hupper.2
    have hval : (c.val + 32).toNat = 61 := congrArg Char.toNat heq
    rw [UInt32.toNat_add] at hval
    change (c.toNat + 32) % 2 ^ 32 = 61 at hval
    omega
  · exact h

/-- A name without an equals sign is a command only if it is a command word. -/
theorem isCommand_iff_of_name {name : String} (hblank : HasNoBlank name)
    (hequals : '=' ∉ name.toList) :
    IsCommand name ↔ Text.lowercase name.toList ∈ commands.map Prod.fst := by
  rw [IsCommand, word_of_hasNoBlank hblank, or_iff_left]
  intro hstart
  have hmem : '=' ∈ Text.lowercase name.toList := hstart.subset (by decide)
  obtain ⟨c, hc, hlower⟩ := List.mem_map.1 hmem
  refine toLower_ne_equals ?_ hlower
  rintro rfl
  exact hequals hc

namespace Stores

variable {s : Session} {line name : String} {v : Float}

theorem equals_not_mem (h : s.Stores line name v) : '=' ∉ name.toList := by
  obtain ⟨text, -, hassignment⟩ := h
  obtain ⟨-, expression, hassigns⟩ := assignment_eq_ok hassignment
  exact equals_not_mem_of_assigns hassigns

theorem hasNoBlank (h : s.Stores line name v) : HasNoBlank name := by
  obtain ⟨text, hline, hassignment⟩ := h
  obtain ⟨-, expression, hassigns⟩ := assignment_eq_ok hassignment
  obtain ⟨rfl, -, -⟩ := ofString_eq_entry hline
  exact hasNoBlank_of_assigns (fun _ => Text.isBlank_of_mem_removeBlanks) hassigns

theorem isWord (h : s.Stores line name v) : IsWord name := by
  obtain ⟨text, hline, hassignment⟩ := h
  have hvalid := (assignment_eq_ok hassignment).1
  exact isWord_of_isValidName hvalid (hasNoBlank ⟨text, hline, hassignment⟩)

theorem vars_after (h : s.Stores line name v) : (s.after line).vars = s.vars.insert name v := by
  obtain ⟨text, hline, hassignment⟩ := h
  have hexecute : s.execute line = .ok (some (.text (display v s.precision)),
      { s with vars := s.vars.insert name v }.record (String.ofList text)
        (display v s.precision)) := by
    simp only [execute, hline, enter, hassignment]
  rw [after_of_ok hexecute]
  rfl

end Stores

/-- As a line the name shows the value, is recorded as one entry and changes no variable but the
default one. -/
def Recalls (s : Session) (name : String) (v : Float) : Prop :=
  ∃ vars, s.execute name = .ok (some (.text (display v s.precision)),
      { vars
        precision := s.precision
        history := s.history ++ [⟨s.nextId, name, display v s.precision⟩]
        nextId := s.nextId + 1 }) ∧
    vars[name]? = some v ∧ ∀ other, other ≠ defaultName → vars[other]? = s.vars[other]?

theorem not_recalls_of_isCommand {s : Session} {name : String} (h : IsCommand name) (v : Float) :
    ¬ s.Recalls name v := by
  rintro ⟨vars, hexecute, -⟩
  have hlength := length_history_execute hexecute
  rw [if_pos h] at hlength
  simp at hlength

theorem recalls_of_not_isCommand {s : Session} {name : String} {v : Float} (hname : IsWord name)
    (hequals : '=' ∉ name.toList) (hv : s.vars[name]? = some v) (h : ¬ IsCommand name) :
    s.Recalls name v := by
  have hsolid : solid name = name.toList := solid_eq_toList hname.noBlank
  have hline : Line.ofString name = .entry name.toList := by
    rw [← hsolid]
    exact ofString_of_entry (hsolid ▸ hname.toList_ne_nil) h
  refine ⟨s.vars.insert defaultName v, ?_, ?_, fun other hother => ?_⟩
  · simp only [execute, hline, enter, assignment_of_word hname hequals hv, String.ofList_toList]
    rfl
  · simp [Std.ExtTreeMap.getElem?_insert, hv]
  · simp [Std.ExtTreeMap.getElem?_insert, hother.symm]

/-- A name that a value is stored under gives the value back as a line of its own, just if it is not
a command word in another case. -/
theorem recalls_iff {s : Session} {line name : String} {v : Float} (h : s.Stores line name v) :
    (s.after line).Recalls name v ↔ Text.lowercase name.toList ∉ commands.map Prod.fst := by
  rw [← isCommand_iff_of_name h.hasNoBlank h.equals_not_mem]
  refine ⟨fun hrecalls hcommand => not_recalls_of_isCommand hcommand v hrecalls, fun hcommand => ?_⟩
  have hv : (s.after line).vars[name]? = some v := by simp [h.vars_after]
  exact recalls_of_not_isCommand h.isWord h.equals_not_mem hv hcommand

/-- A name with a capital, and a command word in capitals. -/
theorem recalls_iff_capitals :
    let s : Session := { precision := 3 }
    s.Stores "Rate = 2/3" "Rate" (2 / 3) ∧ (s.after "Rate = 2/3").Recalls "Rate" (2 / 3) ∧
      s.Stores "CLEAR=1" "CLEAR" 1 ∧ ¬ (s.after "CLEAR=1").Recalls "CLEAR" 1 := by
  intro s
  have hrate : s.Stores "Rate = 2/3" "Rate" (2 / 3) :=
    ⟨"Rate=2/3".toList, by decide +kernel, by decide +kernel⟩
  have hclear : s.Stores "CLEAR=1" "CLEAR" 1 :=
    ⟨"CLEAR=1".toList, by decide +kernel, by decide +kernel⟩
  exact ⟨hrate, (recalls_iff hrate).2 (by decide), hclear, mt (recalls_iff hclear).1 (by decide)⟩

end Session

end Reckoner
