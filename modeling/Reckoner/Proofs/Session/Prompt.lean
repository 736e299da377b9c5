import Mathlib.Data.List.TakeWhile
import Reckoner.Session.Transcript

/-!
# Lines at the prompt

Lines read at a prompt do what they do in a list, as far as the first that ends the session
(`runPrompt_agrees`). The lines of an input are those that it is made of, whether or not the last
one has its line break (`inputLines_of_isInput`), so an input is executed as the list of its lines
is (`prompt_as_list`).
-/

namespace Reckoner.Session

/-! ## The lines of an input -/

/-- Lines with a line break after each. -/
def ended (lines : List String) : String := String.join (lines.map (· ++ "\n"))

/-- The inputs that are made of these lines. An input that ends in the middle of a line breaks off
after its last one. -/
inductive IsInput : (lines : List String) → (input : String) → Prop
  | ended (lines : List String) : IsInput lines (ended lines)
  | unended (before : List String) {last : String} (h : last ≠ "") :
      IsInput (before ++ [last]) (Session.ended before ++ last)

theorem toList_ended (lines : List String) :
    (ended lines).toList = lines.flatMap fun line => line.toList ++ ['\n'] := by
  simp [ended, List.flatMap_map]

/-- A line is over at its line break, whatever of it has been read before. -/
theorem inputLinesFrom_line {line : List Char} (hline : '\n' ∉ line) (start rest : List Char) :
    inputLinesFrom start (line ++ '\n' :: rest) =
      String.ofList (start.reverse ++ line) :: inputLinesFrom [] rest := by
  induction line generalizing start with
  | nil => simp [inputLinesFrom]
  | cons c line ih =>
    obtain ⟨hc, hline⟩ := not_or.1 (mt List.mem_cons.2 hline)
    rw [List.cons_append, inputLinesFrom, if_neg (Ne.symm hc), ih hline]
    simp

/-- What is left after the last line break is a line of its own, unless it is empty. -/
theorem inputLinesFrom_last {line : List Char} (hline : '\n' ∉ line) (start : List Char) :
    inputLinesFrom start line =
      if start = [] ∧ line = [] then [] else [String.ofList (start.reverse ++ line)] := by
  induction line generalizing start with
  | nil => simp [inputLinesFrom]
  | cons c line ih =>
    obtain ⟨hc, hline⟩ := not_or.1 (mt List.mem_cons.2 hline)
    rw [inputLinesFrom, if_neg (Ne.symm hc), ih hline]
    simp

theorem inputLinesFrom_ended {lines : List String} (h : ∀ line ∈ lines, '\n' ∉ line.toList)
    (rest : List Char) :
    inputLinesFrom [] ((ended lines).toList ++ rest) = lines ++ inputLinesFrom [] rest := by
  rw [toList_ended]
  induction lines with
  | nil => rfl
  | cons line lines ih =>
    obtain ⟨hline, hlines⟩ := List.forall_mem_cons.1 h
    simp only [List.flatMap_cons, List.append_assoc, List.cons_append, List.nil_append]
    rw [inputLinesFrom_line hline, ih hlines, List.reverse_nil, List.nil_append,
      String.ofList_toList]

theorem inputLines_of_isInput {lines : List String} {input : String}
    (hlines : ∀ line ∈ lines, '\n' ∉ line.toList) (h : IsInput lines input) :
    inputLines input = lines := by
  cases h with
  | ended =>
    have hall := inputLinesFrom_ended hlines []
    rwa [List.append_nil, inputLinesFrom, List.isEmpty_nil, if_pos rfl, List.append_nil] at hall
  | unended before hlast =>
    rw [List.forall_mem_append, List.forall_mem_singleton] at hlines
    rw [inputLines, String.toList_append, inputLinesFrom_ended hlines.1,
      inputLinesFrom_last hlines.2, if_neg (by simp [hlast]), List.reverse_nil, List.nil_append,
      String.ofList_toList]

/-! ## The prompt -/

/-- Whether a piece of what is printed is a reply, not a sign of the prompt. -/
def Output.isReply : Output → Bool
  | .reply _ => true
  | .prompt | .lineEnd => false

theorem filter_isReply_map (replies : List Reply) :
    (replies.map Output.reply).filter Output.isReply = replies.map Output.reply :=
  List.filter_eq_self.2 (List.forall_mem_map.2 fun _ _ => rfl)

/-- The lines that come before the first one that ends the session. -/
def beforeExit (lines : List String) : List String := lines.takeWhile fun line => !isExit line

/-- Apart from the prompts, lines at a prompt are executed as in a list. -/
theorem runPrompt_agrees (s : Session) (lines : List String) :
    (s.runPrompt lines).output.filter Output.isReply = (s.runLines (beforeExit lines)).output ∧
      (s.runPrompt lines).failure = (s.runLines (beforeExit lines)).failure ∧
      (s.runPrompt lines).session = (s.runLines (beforeExit lines)).session := by
  induction lines generalizing s with
  | nil => exact ⟨rfl, rfl, rfl⟩
  | cons line rest ih =>
    cases hexit : isExit line with
    | true =>
      rw [beforeExit, List.takeWhile_cons_of_neg (by simp [hexit]), runPrompt, if_pos hexit]
      exact ⟨rfl, rfl, rfl⟩
    | false =>
      have hbefore : beforeExit (line :: rest) = line :: beforeExit rest :=
        List.takeWhile_cons_of_pos (by simp [hexit])
      rw [hbefore, runPrompt, runLines, if_neg (by simp [hexit])]
      cases s.execute line with
      | error e => exact ⟨rfl, rfl, rfl⟩
      | ok r =>
        obtain ⟨reply, next⟩ := r
        obtain ⟨houtput, hfailure, hsession⟩ := ih next
        refine ⟨?_, hfailure, hsession⟩
        simp only [Transcript.print]
        rw [List.filter_append, houtput, List.filter_cons_of_neg (by decide), filter_isReply_map]

/-- What follows a line that ends the session is not even read. -/
theorem runPrompt_exit (s : Session) (before : List String) {line : String}
    (h : isExit line = true) (rest : List String) :
    s.runPrompt (before ++ line :: rest) = s.runPrompt (before ++ [line]) := by
  induction before generalizing s with
  | nil => simp only [List.nil_append, runPrompt, if_pos h]
  | cons first before ih => simp only [List.cons_append, runPrompt, ih]

/-- An input is executed as the list of its lines before the first that ends the session: the same
replies are printed, the same error ends the run, and the session is the same at the end. The lines
from that one on change nothing of what is printed or of how the run ends. -/
theorem prompt_as_list (s : Session) {lines : List String} {input : String}
    (hlines : ∀ line ∈ lines, '\n' ∉ line.toList) (hinput : IsInput lines input) :
    let atPrompt := s.runPrompt (inputLines input)
    let inList := s.runLines (beforeExit lines)
    atPrompt.output.filter Output.isReply = inList.output ∧
      atPrompt.failure = inList.failure ∧ atPrompt.session = inList.session ∧
      ∀ before line rest, lines = before ++ line :: rest → isExit line = true →
        atPrompt = s.runPrompt (before ++ [line]) := by
  intro atPrompt inList
  have hread : atPrompt = s.runPrompt lines :=
    congrArg s.runPrompt (inputLines_of_isInput hlines hinput)
  obtain ⟨houtput, hfailure, hsession⟩ := s.runPrompt_agrees lines
  rw [hread]
  refine ⟨houtput, hfailure, hsession, ?_⟩
  rintro before line rest rfl hexit
  exact s.runPrompt_exit before hexit rest

/-- A blank line, a line that only holds the word that ends the session, and a line after one that
does. -/
theorem prompt_as_list_quit :
    let s : Session := { vars := Variables.ofList [("x", 2)] }
    let lines := ["x=x*4", "", "exit=1", " Quit", "clear"]
    let atPrompt := s.runPrompt (inputLines "x=x*4\n\nexit=1\n Quit\nclear")
    let inList := s.runLines ["x=x*4", "", "exit=1"]
    (∀ line ∈ lines, '\n' ∉ line.toList) ∧ IsInput lines "x=x*4\n\nexit=1\n Quit\nclear" ∧
      inList.output = [.reply (.text "8"), .reply (.text "1")] ∧
      atPrompt.output.filter Output.isReply = inList.output ∧
      atPrompt.session = inList.session ∧
      atPrompt = s.runPrompt ["x=x*4", "", "exit=1", " Quit"] := by
  intro s lines atPrompt inList
  have hlines : ∀ line ∈ lines, '\n' ∉ line.toList := by decide +kernel
  have hinput : IsInput lines "x=x*4\n\nexit=1\n Quit\nclear" :=
    .unended ["x=x*4", "", "exit=1", " Quit"] (by decide)
  obtain ⟨houtput, -, hsession, hexit⟩ := prompt_as_list s hlines hinput
  have hbefore : beforeExit lines = ["x=x*4", "", "exit=1"] := by decide +kernel
  rw [hbefore] at houtput hsession
  exact ⟨hlines, hinput, by decide +kernel, houtput, hsession,
    hexit ["x=x*4", "", "exit=1"] " Quit" ["clear"] rfl (by decide)⟩

end Reckoner.Session
