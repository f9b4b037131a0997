import ClassToRecord.Conversion.Commit
import ClassToRecord.Proofs.Conversion.Edit

open ClassToRecord.Traversal

namespace ClassToRecord.PreparedConversion

/-- There are conflicts, and a person to ask about them. -/
def AsksFirst (prepared : PreparedConversion) (settings : Settings) : Prop :=
  prepared.conflicts.isEmpty = false ∧ settings.mode = .interactive

instance (prepared : PreparedConversion) (settings : Settings) :
    Decidable (prepared.AsksFirst settings) :=
  inferInstanceAs (Decidable (_ ∧ _))

/-- The only question that a commit asks. -/
def question (prepared : PreparedConversion) (p : Project) : Question :=
  ⟨prepared.conflicts, prepared.conflictView p⟩

/-- The decision is in favour of the edit: there are no conflicts, or a person accepts them, or
    nobody is there and they are to be ignored. -/
def LetThrough (prepared : PreparedConversion) (p : Project) (settings : Settings)
    (confirm : Question → Except Failure Bool) : Prop :=
  prepared.conflicts.isEmpty = true ∨
    (settings.mode = .interactive ∧ confirm (prepared.question p) = .ok true) ∨
    (settings.mode = .unattended ∧ settings.ignoreConflicts = true)

/-- The decision is against the edit, in the order in which it comes about. -/
inductive Refuses (prepared : PreparedConversion) (p : Project) (settings : Settings)
    (confirm : Question → Except Failure Bool) : ConversionError → Prop where
  | conflicts (hconflicts : prepared.conflicts.isEmpty = false)
      (hmode : settings.mode = .unattended) (hreport : settings.ignoreConflicts = false) :
      Refuses prepared p settings confirm (.conflictsDetected prepared.conflicts)
  | noAnswer {failure : Failure} (hasks : prepared.AsksFirst settings)
      (hfailure : confirm (prepared.question p) = .error failure) :
      Refuses prepared p settings confirm (.internal failure)
  | declined (hasks : prepared.AsksFirst settings)
      (hanswer : confirm (prepared.question p) = .ok false) :
      Refuses prepared p settings confirm .cancelled

/-- The preconditions that a commit looks at. -/
def checked (prepared : PreparedConversion) (settings : Settings) : Option Preconditions :=
  if settings.checkPreconditions then some prepared.preconditions else none

/-- The error of a commit is that of the first stage that fails: the decision with its question,
    and then the stages of the edit. -/
inductive Fails (prepared : PreparedConversion) (p : Project) (settings : Settings)
    (confirm : Question → Except Failure Bool) : ConversionError → Prop where
  | refused {error : ConversionError} (hrefuses : prepared.Refuses p settings confirm error) :
      Fails prepared p settings confirm error
  | edit {error : EditError} (hthrough : prepared.LetThrough p settings confirm)
      (hfails : p.EditFails prepared.candidate prepared.plan prepared.usages
        (prepared.checked settings) error) : Fails prepared p settings confirm (.edit error)

variable {prepared : PreparedConversion} {p : Project} {settings : Settings}
  {confirm : Question → Except Failure Bool}

private theorem decide_eq_confirm_iff :
    settings.decide prepared.conflicts = .confirm ↔ prepared.AsksFirst settings := by
  unfold Settings.decide AsksFirst
  cases prepared.conflicts.isEmpty <;> cases settings.mode <;>
    cases settings.ignoreConflicts <;> simp

private theorem decide_eq_fail_iff :
    settings.decide prepared.conflicts = .fail ↔ prepared.conflicts.isEmpty = false ∧
      settings.mode = .unattended ∧ settings.ignoreConflicts = false := by
  unfold Settings.decide
  cases prepared.conflicts.isEmpty <;> cases settings.mode <;>
    cases settings.ignoreConflicts <;> simp

private theorem decide_eq_proceed_iff :
    settings.decide prepared.conflicts = .proceed ↔ prepared.conflicts.isEmpty = true ∨
      settings.mode = .unattended ∧ settings.ignoreConflicts = true := by
  unfold Settings.decide
  cases prepared.conflicts.isEmpty <;> cases settings.mode <;>
    cases settings.ignoreConflicts <;> simp

private theorem consult_of_confirm (h : settings.decide prepared.conflicts = .confirm) :
    prepared.consult p settings confirm = ([prepared.question p],
      match confirm (prepared.question p) with
      | .error failure => .error (.internal failure)
      | .ok false => .error .cancelled
      | .ok true => .ok ()) := by
  simp only [consult, h, question]
  split <;> simp_all

/-- The question is asked once if there are conflicts and a person to ask, and else not at all. -/
theorem consult_asked : (prepared.consult p settings confirm).1 =
    if prepared.AsksFirst settings then [prepared.question p] else [] := by
  simp only [← decide_eq_confirm_iff]
  cases hdecide : settings.decide prepared.conflicts with
  | proceed => simp [consult, hdecide]
  | fail => simp [consult, hdecide]
  | confirm => simp [consult_of_confirm hdecide]

/-- The edit may begin exactly if the decision is in its favour. -/
theorem consult_eq_ok_iff :
    (prepared.consult p settings confirm).2 = .ok () ↔ prepared.LetThrough p settings confirm := by
  unfold LetThrough
  cases hdecide : settings.decide prepared.conflicts with
  | proceed =>
    have hinFavour := decide_eq_proceed_iff.mp hdecide
    simp only [consult, hdecide, true_iff]
    exact hinFavour.imp_right .inr
  | fail =>
    obtain ⟨hconflicts, hmode, hreport⟩ := decide_eq_fail_iff.mp hdecide
    simp [consult, hdecide, hconflicts, hmode, hreport]
  | confirm =>
    obtain ⟨hconflicts, hmode⟩ := decide_eq_confirm_iff.mp hdecide
    rw [consult_of_confirm hdecide]
    cases hanswer : confirm (prepared.question p) with
    | error failure => simp [hconflicts, hmode]
    | ok answer => cases answer <;> simp [hconflicts, hmode]

/-- A commit ends before the edit exactly if the decision is against it. -/
theorem consult_eq_error_iff {error : ConversionError} :
    (prepared.consult p settings confirm).2 = .error error ↔
      prepared.Refuses p settings confirm error := by
  constructor
  · intro h
    cases hdecide : settings.decide prepared.conflicts with
    | proceed => simp [consult, hdecide] at h
    | fail =>
      simp only [consult, hdecide] at h
      obtain ⟨hconflicts, hmode, hreport⟩ := decide_eq_fail_iff.mp hdecide
      cases h
      exact .conflicts hconflicts hmode hreport
    | confirm =>
      rw [consult_of_confirm hdecide] at h
      have hasks := decide_eq_confirm_iff.mp hdecide
      cases hanswer : confirm (prepared.question p) with
      | error failure =>
        simp only [hanswer] at h
        cases h
        exact .noAnswer hasks hanswer
      | ok answer =>
        simp only [hanswer] at h
        cases answer <;> cases h
        exact .declined hasks hanswer
  · intro h
    cases h with
    | conflicts hconflicts hmode hreport =>
      have hdecide := decide_eq_fail_iff.mpr ⟨hconflicts, hmode, hreport⟩
      simp only [consult, hdecide]
    | noAnswer hasks hfailure =>
      rw [consult_of_confirm (decide_eq_confirm_iff.mpr hasks), hfailure]
    | declined hasks hanswer =>
      rw [consult_of_confirm (decide_eq_confirm_iff.mpr hasks), hanswer]

section Outcome

variable {now : Timestamp}

theorem commit_of_refused {error : ConversionError}
    (h : (prepared.consult p settings confirm).2 = .error error) :
    prepared.commit p settings confirm now =
      ⟨.error error, p, (prepared.consult p settings confirm).1⟩ := by
  simp only [commit, h]

theorem commit_of_failed {error : EditError}
    (h : (prepared.consult p settings confirm).2 = .ok ())
    (hfails : p.applyConversion prepared.candidate prepared.plan prepared.usages
      (prepared.checked settings) = .error error) :
    prepared.commit p settings confirm now =
      ⟨.error (.edit error), p, (prepared.consult p settings confirm).1⟩ := by
  rw [checked] at hfails
  simp only [commit, h, hfails]

theorem commit_of_applied {q : Project} {summary : EditSummary}
    (h : (prepared.consult p settings confirm).2 = .ok ())
    (happlied : p.applyConversion prepared.candidate prepared.plan prepared.usages
      (prepared.checked settings) = .ok (q, summary)) :
    prepared.commit p settings confirm now =
      ⟨.ok (prepared.report.close .applied now), q,
        (prepared.consult p settings confirm).1⟩ := by
  rw [checked] at happlied
  simp only [commit, h, happlied]

/-- A commit is allowed if the preconditions that it looks at hold. -/
theorem allows_checked_iff : Project.Allows (prepared.checked settings) p ↔
    (settings.checkPreconditions = true → prepared.preconditions.Hold p) := by
  unfold Project.Allows checked
  cases settings.checkPreconditions <;> simp

private theorem commit_asked : (prepared.commit p settings confirm now).asked =
    (prepared.consult p settings confirm).1 := by
  cases hconsult : (prepared.consult p settings confirm).2 with
  | error error => rw [commit_of_refused hconsult]
  | ok permission =>
    cases hedit : p.applyConversion prepared.candidate prepared.plan prepared.usages
        (prepared.checked settings) with
    | error error => rw [commit_of_failed hconsult hedit]
    | ok outcome => rw [commit_of_applied hconsult hedit]

/-- A commit succeeds exactly if the decision is in favour of the edit and the edit succeeds. -/
theorem commit_eq_ok_iff {report : ConversionReport} {q : Project} :
    (prepared.commit p settings confirm now).result = .ok report ∧
        (prepared.commit p settings confirm now).project = q ↔
      prepared.LetThrough p settings confirm ∧
        (settings.checkPreconditions = true → prepared.preconditions.Hold p) ∧
        p.Converts prepared.candidate prepared.plan prepared.usages q ∧
        report = prepared.report.close .applied now := by
  rw [← consult_eq_ok_iff, ← allows_checked_iff, ← and_assoc (a := Project.Allows _ _),
    ← Project.applyConversion_eq_ok_iff]
  cases hconsult : (prepared.consult p settings confirm).2 with
  | error error => simp [commit_of_refused hconsult]
  | ok permission =>
    cases hedit : p.applyConversion prepared.candidate prepared.plan prepared.usages
        (prepared.checked settings) with
    | error error => simp [commit_of_failed hconsult hedit]
    | ok outcome =>
      obtain ⟨converted, summary⟩ := outcome
      simp [commit_of_applied hconsult hedit, and_comm, eq_comm]

/-- A commit that fails does so in the first stage that cannot be completed, and it leaves the
    project as it was. -/
theorem commit_eq_error_iff {error : ConversionError} {q : Project} :
    (prepared.commit p settings confirm now).result = .error error ∧
        (prepared.commit p settings confirm now).project = q ↔
      prepared.Fails p settings confirm error ∧ q = p := by
  cases hconsult : (prepared.consult p settings confirm).2 with
  | error refusal =>
    rw [commit_of_refused hconsult]
    constructor
    · rintro ⟨⟨⟩, rfl⟩
      exact ⟨.refused (consult_eq_error_iff.mp hconsult), rfl⟩
    · rintro ⟨hfails, rfl⟩
      cases hfails with
      | refused hrefuses =>
        rw [consult_eq_error_iff.mpr hrefuses] at hconsult
        cases hconsult
        exact ⟨rfl, rfl⟩
      | edit hthrough _ =>
        rw [consult_eq_ok_iff.mpr hthrough] at hconsult
        cases hconsult
  | ok permission =>
    have hthrough := consult_eq_ok_iff.mp hconsult
    have hnotRefused : ¬ prepared.Refuses p settings confirm error := by
      intro hrefuses
      rw [consult_eq_error_iff.mpr hrefuses] at hconsult
      cases hconsult
    cases hedit : p.applyConversion prepared.candidate prepared.plan prepared.usages
        (prepared.checked settings) with
    | error cause =>
      rw [commit_of_failed hconsult hedit]
      constructor
      · rintro ⟨⟨⟩, rfl⟩
        exact ⟨.edit hthrough (Project.applyConversion_eq_error_iff.mp hedit), rfl⟩
      · rintro ⟨hfails, rfl⟩
        cases hfails with
        | refused hrefuses => exact absurd hrefuses hnotRefused
        | edit _ hfails =>
          rw [Project.applyConversion_eq_error_iff.mpr hfails] at hedit
          cases hedit
          exact ⟨rfl, rfl⟩
    | ok outcome =>
      rw [commit_of_applied hconsult hedit]
      constructor
      · rintro ⟨⟨⟩, _⟩
      · rintro ⟨hfails, rfl⟩
        cases hfails with
        | refused hrefuses => exact absurd hrefuses hnotRefused
        | edit _ hfails =>
          rw [Project.applyConversion_eq_error_iff.mpr hfails] at hedit
          cases hedit

end Outcome

/-- What a commit does on any project, also on one for which it was not prepared. It asks at most
    one question, and only if there are conflicts and a person to ask. It succeeds exactly if the
    decision, the preconditions, the renames and the rebuild all go through, and then the project
    is the copy on which they were made. Otherwise the error is that of the first stage that fails,
    and the project is as it was. -/
theorem commit_outcome (prepared : PreparedConversion) (p : Project) (settings : Settings)
    (confirm : Question → Except Failure Bool) (now : Timestamp) :
    (prepared.commit p settings confirm now).asked =
        (if prepared.AsksFirst settings then [prepared.question p] else []) ∧
      ((∃ report, (prepared.commit p settings confirm now).result = .ok report) ↔
        prepared.LetThrough p settings confirm ∧
          (settings.checkPreconditions = true → prepared.preconditions.Hold p) ∧
          ∃ copy record, RenamesTo (sitesOf prepared.usages) p prepared.plan.entries copy ∧
            copy.rebuildRecord prepared.candidate = .ok record) ∧
      (∀ report, (prepared.commit p settings confirm now).result = .ok report →
        report = prepared.report.close .applied now ∧ report.status = .applied ∧
          p.Converts prepared.candidate prepared.plan prepared.usages
            (prepared.commit p settings confirm now).project) ∧
      ∀ error, ((prepared.commit p settings confirm now).result = .error error ↔
          prepared.Fails p settings confirm error) ∧
        ((prepared.commit p settings confirm now).result = .error error →
          (prepared.commit p settings confirm now).project = p) := by
  refine ⟨commit_asked.trans consult_asked, ?_, ?_, fun error => ⟨?_, ?_⟩⟩
  · rw [← Project.exists_converts_iff]
    constructor
    · rintro ⟨report, hreport⟩
      obtain ⟨hthrough, hhold, hconverts, _⟩ := commit_eq_ok_iff.mp ⟨hreport, rfl⟩
      exact ⟨hthrough, hhold, _, hconverts⟩
    · rintro ⟨hthrough, hhold, q, hconverts⟩
      exact ⟨_, (commit_eq_ok_iff.mpr ⟨hthrough, hhold, hconverts, rfl⟩).1⟩
  · intro report hreport
    obtain ⟨_, _, hconverts, rfl⟩ := commit_eq_ok_iff.mp ⟨hreport, rfl⟩
    exact ⟨rfl, rfl, hconverts⟩
  · constructor
    · intro herror
      exact (commit_eq_error_iff.mp ⟨herror, rfl⟩).1
    · intro hfails
      exact (commit_eq_error_iff.mpr ⟨hfails, rfl⟩).1
  · intro herror
    exact (commit_eq_error_iff.mp ⟨herror, rfl⟩).2

end ClassToRecord.PreparedConversion
