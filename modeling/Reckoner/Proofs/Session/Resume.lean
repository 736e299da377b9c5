import Reckoner.Proofs.Session.Execute
import Reckoner.Proofs.Session.Numbering
import Reckoner.Proofs.Storage.State
import Reckoner.Session.Transcript

/-!
# Sessions that go on from what is saved

`Resumable s`: a new session that takes over the history and the variables of `s` is `s` again
(`Resumable.restore_eq`), and both are read back as they were saved (`Resumable.isStorable`). A
session that takes over a storable history is resumable, every line keeps it so
(`Resumable.execute`), and so do many lines (`Resumable.runLines`).
-/

namespace Reckoner.Session

open Storage (IsKept IsStorable isKept_of_hasNoBlank)

/-! ## Resumable sessions -/

/-- A session that goes on where it was from what is saved of it. -/
structure Resumable (s : Session) : Prop where
  numbered : s.nextId = idAfter s.history
  texts : ∀ entry ∈ s.history, IsKept entry.expression ∧ IsKept entry.result
  names : ∀ name ∈ s.vars, IsKept name

namespace Resumable

variable {s s' : Session}

theorem isStorable (h : Resumable s) : IsStorable s.history s.vars := ⟨h.texts, h.names⟩

/-- A new session that takes over what is saved is the session that was saved. -/
theorem restore_eq (h : Resumable s) :
    ({ precision := s.precision } : Session).restore s.history s.vars = s := by
  rw [restore, Variables.empty_union, ← h.numbered]

theorem restore {history : List Entry} {vars : Variables} (h : IsStorable history vars)
    (precision : Int) : Resumable (({ precision } : Session).restore history vars) where
  numbered := rfl
  texts := h.texts
  names := by
    rw [Session.restore, Variables.empty_union]
    exact h.names

theorem clear (s : Session) : Resumable s.clear where
  numbered := rfl
  texts := by simp [Session.clear]
  names := by simp [Session.clear]

theorem record (h : Resumable s) {vars : Variables} {expression shown : String}
    (hexpression : IsKept expression) (hshown : IsKept shown)
    (hvars : ∀ name ∈ vars, name ∈ s.vars ∨ IsKept name) :
    Resumable ({ s with vars }.record expression shown) where
  numbered := by
    simp only [nextId_record, history_record]
    rw [h.numbered, idAfter_concat]
  texts := by
    rw [history_record]
    exact List.forall_mem_append.2 ⟨h.texts, List.forall_mem_singleton.2 ⟨hexpression, hshown⟩⟩
  names := fun name hname => (hvars name hname).elim (h.names name) id

theorem execute {line : String} {reply : Option Reply} (h : s.execute line = .ok (reply, s'))
    (hs : Resumable s) : Resumable s' := by
  cases change_of_execute h with
  | none => exact hs
  | clear _ => exact clear s
  | precision _ _ _ => exact { hs with }
  | entry hentered =>
    obtain ⟨hshown, hvars⟩ := isKept_of_entered
      (fun _ hc => Text.isBlank_of_mem_removeBlanks hc) hentered
    exact hs.record (isKept_of_hasNoBlank (hasNoBlank_solid line)) hshown hvars

theorem runLines (hs : Resumable s) (lines : List String) :
    Resumable (s.runLines lines).session := by
  induction lines generalizing s with
  | nil => exact hs
  | cons line rest ih =>
    rw [Session.runLines]
    split
    · rename_i reply next h
      exact ih (hs.execute h)
    · exact hs

end Resumable

/-! ## Runs -/

theorem precision_execute {s s' : Session} {line : String} {reply : Option Reply}
    (h : s.execute line = .ok (reply, s'))
    (hline : ∀ places, Line.ofString line ≠ .precision places) : s'.precision = s.precision := by
  cases change_of_execute h with
  | none | clear _ | entry _ => rfl
  | precision heq _ _ => exact absurd heq (hline _)

theorem precision_runLines (s : Session) {lines : List String}
    (hlines : ∀ line ∈ lines, ∀ places, Line.ofString line ≠ .precision places) :
    (s.runLines lines).session.precision = s.precision := by
  induction lines generalizing s with
  | nil => rfl
  | cons line rest ih =>
    obtain ⟨hline, hrest⟩ := List.forall_mem_cons.1 hlines
    rw [runLines]
    split
    · rename_i reply next h
      exact (ih next hrest).trans (precision_execute h hline)
    · rfl

/-- Lines may be executed in two lots. -/
theorem runLines_append {s : Session} {first : List String}
    (h : (s.runLines first).failure = none) (second : List String) :
    s.runLines (first ++ second) =
      ((s.runLines first).session.runLines second).print (s.runLines first).output := by
  induction first generalizing s with
  | nil => rfl
  | cons line rest ih =>
    cases hline : s.execute line with
    | error e =>
      rw [runLines_cons_of_error hline] at h
      cases h
    | ok r =>
      obtain ⟨reply, next⟩ := r
      rw [runLines_cons_of_ok hline] at h
      rw [List.cons_append, runLines_cons_of_ok hline, runLines_cons_of_ok hline, ih h]
      simp [Transcript.print]

end Reckoner.Session
