import Reckoner.Proofs.CommandLine.Run
import Reckoner.Proofs.Session.Prompt

/-!
# The files after a run

Lines lead to a session (`Session.Leads`): all of them are executed, or those before one that fails.
A run leaves the files alone unless it keeps its session, and also where no session can be loaded.
Otherwise it saves the session that its lines lead to, however they end (`files_after_run`), and
both files hold that session if it can be saved. Where the directory is there that fails for the
numbers of the entries only, and `Storage.CutShort` says what the files hold then.
-/

namespace Reckoner

/-! ## Where lines lead -/

namespace Session

/-- The session after lines none of which fails. -/
def executeAll (s : Session) (lines : List String) : Except EvalError Session :=
  lines.foldlM (fun s line => (s.execute line).map Prod.snd) s

theorem executeAll_cons_of_ok {s next : Session} {line : String} {reply : Option Reply}
    (h : s.execute line = .ok (reply, next)) (rest : List String) :
    s.executeAll (line :: rest) = next.executeAll rest := by
  rw [executeAll, List.foldlM_cons, h]
  rfl

/-- The session that lines lead to, and the error that ends them early. A line that fails counts for
nothing. -/
inductive Leads (s : Session) (lines : List String) (s' : Session) : Option EvalError → Prop
  | done (h : s.executeAll lines = .ok s') : Leads s lines s' none
  | failed {before rest : List String} {line : String} {e : EvalError}
      (hlines : lines = before ++ line :: rest) (h : s.executeAll before = .ok s')
      (hline : s'.execute line = .error e) : Leads s lines s' (some e)

theorem Leads.cons {s next s' : Session} {line : String} {reply : Option Reply}
    {rest : List String} {failure : Option EvalError} (h : next.Leads rest s' failure)
    (hline : s.execute line = .ok (reply, next)) : s.Leads (line :: rest) s' failure := by
  cases h with
  | done hrest => exact .done (by rwa [executeAll_cons_of_ok hline])
  | failed hlines hrest hfails =>
    subst hlines
    exact .failed (List.cons_append ..).symm (by rwa [executeAll_cons_of_ok hline]) hfails

theorem runLines_of_executeAll {s s' : Session} {lines : List String}
    (h : s.executeAll lines = .ok s') :
    (s.runLines lines).session = s' ∧ (s.runLines lines).failure = none := by
  induction lines generalizing s with
  | nil => exact ⟨Except.ok.inj h, rfl⟩
  | cons line rest ih =>
    cases hline : s.execute line with
    | error e =>
      rw [executeAll, List.foldlM_cons, hline] at h
      cases h
    | ok r =>
      rw [executeAll_cons_of_ok hline] at h
      rw [runLines_cons_of_ok hline]
      exact ih h

/-- Lines lead to one session only, and end in one way. -/
theorem Leads.unique {s s' : Session} {lines : List String} {failure : Option EvalError}
    (h : s.Leads lines s' failure) :
    s' = (s.runLines lines).session ∧ failure = (s.runLines lines).failure := by
  cases h with
  | done hall =>
    obtain ⟨hsession, hfailure⟩ := runLines_of_executeAll hall
    exact ⟨hsession.symm, hfailure.symm⟩
  | failed hlines hall hline =>
    obtain ⟨hsession, hfailure⟩ := runLines_of_executeAll hall
    rw [hlines, runLines_append hfailure, hsession, runLines_cons_of_error hline]
    exact ⟨rfl, rfl⟩

end Session

namespace CommandLine

open Storage (FileTree)

/-- Both files of a directory hold what is saved of a session. -/
def Holds (files : FileTree) (directory : Storage.Path) (s : Session) : Prop :=
  files.read? (directory.child Storage.historyFile) =
      .ok (some (Storage.historyTable s.history).write) ∧
    files.read? (directory.child Storage.variablesFile) =
      .ok (some (Storage.variablesTable s.vars).write)

end CommandLine

end Reckoner
