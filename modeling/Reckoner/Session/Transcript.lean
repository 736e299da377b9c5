import Reckoner.Session.Execute

/-!
# Running many lines

Lines come as a list or from a prompt. A transcript holds what is printed, the session at the end
and the error, if one ended the run early.
-/

namespace Reckoner.Session

/-- A piece of what is printed. -/
inductive Output where
  | prompt
  | lineEnd
  | reply (r : Reply)
  deriving DecidableEq, Repr

/-- The text of a piece, given the time to report. -/
def Output.render (time : String) : Output → String
  | prompt => ">> "
  | lineEnd => "\n"
  | reply r => r.render time ++ "\n"

structure Transcript where
  output : List Output
  session : Session
  failure : Option EvalError

def Transcript.print (printed : List Output) (t : Transcript) : Transcript :=
  { t with output := printed ++ t.output }

/-- Executes every line, up to the first that fails. -/
def runLines (s : Session) : List String → Transcript
  | [] => ⟨[], s, none⟩
  | line :: rest =>
    match s.execute line with
    | .ok (reply, next) => (runLines next rest).print (reply.toList.map .reply)
    | .error e => ⟨[], s, some e⟩

/-- Executes lines read at a prompt, up to one that ends the session. -/
def runPrompt (s : Session) : List String → Transcript
  | [] => ⟨[.prompt, .lineEnd], s, none⟩
  | line :: rest =>
    if isExit line then ⟨[.prompt], s, none⟩
    else
      match s.execute line with
      | .ok (reply, next) =>
        (runPrompt next rest).print (.prompt :: reply.toList.map .reply)
      | .error e => ⟨[.prompt], s, some e⟩

/-- The lines of an input; the last one may lack its line break. `line` holds the characters of the
line so far from the last one back. -/
def inputLinesFrom (line : List Char) : List Char → List String
  | [] => if line.isEmpty then [] else [String.ofList line.reverse]
  | c :: rest =>
    if c = '\n' then String.ofList line.reverse :: inputLinesFrom [] rest
    else inputLinesFrom (c :: line) rest

def inputLines (input : String) : List String := inputLinesFrom [] input.toList

end Reckoner.Session
