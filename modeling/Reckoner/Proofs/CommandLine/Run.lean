import Reckoner.CommandLine.Run
import Reckoner.Proofs.Session.Resume

/-!
# Two runs for one

Lines executed by two runs, the second on the files that the first leaves, do what they do in a
single run (`two_runs`): the first run saves a session that is resumable, the second one loads it
and goes on with it, and what it saves takes the place of what the first has saved. For that the
first run must come to save its session (`two_runs_unsaved`).
-/

namespace Reckoner.CommandLine

open Session (Line)
open Storage (IsStorable FileTree numberFault?)

/-! ## A run that keeps its session -/

/-- What comes of lines when the session after them is saved. -/
def saving (refuses : Storage.ColumnRule) (directory : Storage.Path) (t : Session.Transcript)
    (files : FileTree) : Outcome :=
  let (saved, files) := (Storage.save refuses directory t.session.history t.session.vars).on files
  ⟨t.output, files, match saved with
    | .ok () => endingOf t.failure
    | .error e => .failed (.save e)⟩

/-- A run that keeps its session goes on with what is loaded, and saves what comes of it. -/
theorem run_of_load {args : Arguments} {w : World} {directory : Storage.Path}
    {history : List Entry} {vars : Variables} (hbenchmark : args.benchmark = false)
    (hrpn : args.rpn = false) (hpersist : args.persist = true)
    (hdirectory : stateDirectory args w.home = .ok directory)
    (hload : Storage.load w.files directory = .ok (history, vars)) :
    run args w = saving w.refuses directory (transcript args w.input
      (({ precision := args.precision } : Session).restore history vars)) w.files := by
  have hrun : run args w = runKept args w directory := by
    simp [run, hbenchmark, hrpn, hpersist, hdirectory]
  rw [hrun]
  simp only [runKept, hload, saving]
  generalize ((Storage.save _ directory _ _).on w.files).1 = saved
  cases saved <;> rfl

theorem run_of_lines {args : Arguments} {w : World} {directory : Storage.Path}
    {history : List Entry} {vars : Variables} (hbenchmark : args.benchmark = false)
    (hrpn : args.rpn = false) (hpersist : args.persist = true)
    (hdirectory : stateDirectory args w.home = .ok directory)
    (hload : Storage.load w.files directory = .ok (history, vars))
    (hlines : args.expressions ≠ []) :
    run args w = saving w.refuses directory
      ((({ precision := args.precision } : Session).restore history vars).runLines
        args.expressions) w.files := by
  rw [run_of_load hbenchmark hrpn hpersist hdirectory hload, transcript,
    if_neg (by simpa using hlines)]

section
variable {refuses : Storage.ColumnRule} {directory : Storage.Path} {t : Session.Transcript}
  {files : FileTree}

/-- Lines that end well have been executed, and the session after them has been saved. -/
theorem saving_done (h : (saving refuses directory t files).ending = .done) :
    t.failure = none ∧
      (Storage.save refuses directory t.session.history t.session.vars).on files =
        (.ok (), (saving refuses directory t files).files) := by
  unfold saving at h ⊢
  rcases hsave : (Storage.save refuses directory t.session.history t.session.vars).on files with
    ⟨_ | _, saved⟩
  · simp [hsave] at h
  · cases hfailure : t.failure with
    | some e => simp [hsave, hfailure, endingOf] at h
    | none => exact ⟨rfl, rfl⟩

theorem saving_of_fault {e : Storage.SaveError}
    (h : ((Storage.save refuses directory t.session.history t.session.vars).on files).1 =
      .error e) : (saving refuses directory t files).ending = .failed (.save e) := by
  simp only [saving, h]

/-- What is saved later takes the place of what has been saved before, unless its numbers cannot be
written. -/
theorem saving_saving (u : Session.Transcript)
    (h : (saving refuses directory t files).ending = .done) :
    let again := saving refuses directory u (saving refuses directory t files).files
    let once := saving refuses directory u files
    again.ending = once.ending ∧ (again.files = once.files ∨
      ∃ e, numberFault? refuses u.session.history = some e ∧ again.ending = .failed (.save e)) := by
  intro again once
  have hsaved := (saving_done h).2
  obtain ⟨hsame, hwhole⟩ := Storage.save_save hsaved u.session.history u.session.vars
  cases hfault : numberFault? refuses u.session.history with
  | none =>
    have heq : again = once := by
      simp only [again, once]
      rw [saving, hwhole hfault, saving]
    exact ⟨by rw [heq], .inl (by rw [heq])⟩
  | some e =>
    have hfails : ((Storage.save refuses directory u.session.history u.session.vars).on files).1 =
        .error e := by
      rw [Storage.save_on_of_save hsaved, hfault]
      rfl
    have honce : once.ending = .failed (.save e) := saving_of_fault hfails
    have hagain : again.ending = .failed (.save e) := saving_of_fault (hsame.trans hfails)
    exact ⟨hagain.trans honce.symm, .inr ⟨e, rfl, hagain⟩⟩

end

/-! ## Two runs -/

/-- Two runs, the second on the files that the first leaves, print what one run of all their lines
prints, and end as it does. They leave the same files too, unless the numbers of the entries come to
be such that they cannot be saved. -/
theorem two_runs {args : Arguments} {w : World} {directory : Storage.Path} {history : List Entry}
    {vars : Variables} {first second : List String} (hbenchmark : args.benchmark = false)
    (hrpn : args.rpn = false) (hpersist : args.persist = true)
    (hdirectory : stateDirectory args w.home = .ok directory)
    (hload : Storage.load w.files directory = .ok (history, vars))
    (hstorable : IsStorable history vars) (hfirst : first ≠ []) (hsecond : second ≠ [])
    (hprecision : ∀ line ∈ first, ∀ places, Line.ofString line ≠ .precision places)
    (hdone : (run { args with expressions := first } w).ending = .done) :
    let before := run { args with expressions := first } w
    let after := run { args with expressions := second } { w with files := before.files }
    let both := run { args with expressions := first ++ second } w
    let start : Session := ({ precision := args.precision } : Session).restore history vars
    let s := (start.runLines (first ++ second)).session
    before.output ++ after.output = both.output ∧ after.ending = both.ending ∧
      (after.files = both.files ∨
        ∃ e, numberFault? w.refuses s.history = some e ∧ after.ending = .failed (.save e)) := by
  intro before after both start s
  have hbefore : before = saving w.refuses directory (start.runLines first) w.files :=
    run_of_lines hbenchmark hrpn hpersist hdirectory hload hfirst
  have hboth : both = saving w.refuses directory (start.runLines (first ++ second)) w.files :=
    run_of_lines hbenchmark hrpn hpersist hdirectory hload (by simp [hfirst])
  have hended : (saving w.refuses directory (start.runLines first) w.files).ending = .done :=
    hbefore ▸ hdone
  -- the session that the first run saves is loaded again, and the second run goes on with it
  have hresumable : (start.runLines first).session.Resumable :=
    (Session.Resumable.restore hstorable args.precision).runLines first
  have hsame : (start.runLines first).session.precision = args.precision :=
    Session.precision_runLines start hprecision
  have hafter : after = saving w.refuses directory
      ((start.runLines first).session.runLines second) before.files := by
    have hload' : Storage.load before.files directory =
        .ok ((start.runLines first).session.history, (start.runLines first).session.vars) := by
      rw [hbefore]
      exact (Storage.load_of_save (saving_done hended).2).2 hresumable.isStorable
    have hgoesOn : ({ precision := args.precision } : Session).restore
        (start.runLines first).session.history (start.runLines first).session.vars =
          (start.runLines first).session := by
      rw [← hsame]
      exact hresumable.restore_eq
    have hrun : after = saving w.refuses directory _ before.files :=
      run_of_lines hbenchmark hrpn hpersist hdirectory hload' hsecond
    rw [hrun, hgoesOn]
  have happend := Session.runLines_append (saving_done hended).1 second
  have hs : s = ((start.runLines first).session.runLines second).session := by
    simp only [s, happend, Session.Transcript.print]
  obtain ⟨hending, hfiles⟩ :=
    saving_saving ((start.runLines first).session.runLines second) hended
  rw [hboth, happend, hafter, hbefore, hs]
  exact ⟨rfl, hending, hfiles⟩

/-- A directory that is not there yet, and a first run that sets a variable and records an error. -/
theorem two_runs_restored :
    let args : Arguments := { stateDirectory := "/state", precision := 3 }
    let w : World := { home := "/", files := {}, input := "" }
    let before := run { args with expressions := ["x=1/8", "x+,"] } w
    let after := run { args with expressions := ["3*x", "print"] } { w with files := before.files }
    let both := run { args with expressions := ["x=1/8", "x+,", "3*x", "print"] } w
    before.ending = .done ∧ before.output ++ after.output = both.output ∧
      after.files = both.files ∧ after.ending = both.ending := by
  intro args w before after both
  let directory := Storage.Path.ofString "/state"
  have hload : Storage.load w.files directory = .ok ([], ∅) := by
    have hhistory : w.files.read? (directory.child Storage.historyFile) = .ok none := by
      decide +kernel
    have hvars : w.files.read? (directory.child Storage.variablesFile) = .ok none := by
      decide +kernel
    simp only [Storage.load, hhistory, hvars]
    rfl
  have hprecision : ∀ line ∈ ["x=1/8", "x+,"], ∀ places,
      Line.ofString line ≠ .precision places := by
    have hfirst : Line.ofString "x=1/8" = .entry "x=1/8".toList := by decide +kernel
    have hsecond : Line.ofString "x+," = .entry "x+,".toList := by decide +kernel
    simp [hfirst, hsecond]
  have hdone : before.ending = .done := by decide +kernel
  obtain ⟨houtput, hending, hfiles⟩ :=
    @two_runs args w directory [] ∅ ["x=1/8", "x+,"] ["3*x", "print"] rfl rfl rfl (by decide +kernel)
      hload (by decide +kernel) (by simp) (by simp) hprecision hdone
  refine ⟨hdone, houtput, hfiles.resolve_right ?_, hending⟩
  rintro ⟨e, -, hfailed⟩
  have hdone' : after.ending = .done := by decide +kernel
  exact absurd (hdone'.symm.trans hfailed) (by simp)

/-- A directory inside a file is not there and cannot be made. The first run ends without saving its
session, though no line of it fails, and the second one knows nothing of it. -/
theorem two_runs_unsaved :
    let args : Arguments := { stateDirectory := "/f/s" }
    let w : World :=
      { home := "/", files := ({} : FileTree).insert ["f"] (.file ""), input := "" }
    let before := run { args with expressions := ["x=1"] } w
    let after := run { args with expressions := ["x"] } { w with files := before.files }
    let both := run { args with expressions := ["x=1", "x"] } w
    (Storage.load w.files (.ofString "/f/s")).map Prod.fst = .ok [] ∧
      Line.ofString "x=1" = .entry "x=1".toList ∧
      (({} : Session).runLines ["x=1", "x"]).failure = none ∧
      before.output ++ after.output ≠ both.output := by
  decide +kernel

end Reckoner.CommandLine
