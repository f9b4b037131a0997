import ClassToRecord.Proofs.Conversion.Commit
import ClassToRecord.Proofs.Conversion.Prepare
import ClassToRecord.Proofs.Record.WellFormed
import ClassToRecord.Proofs.Rename.WellFormed

namespace ClassToRecord

namespace Project

/-- A conversion leaves a well-formed project well formed, with any answer to its question, and
    whether it succeeds or not. -/
theorem runConversion_wellFormed {p : Project} (hp : p.WellFormed) (c : Candidate)
    (settings : Settings) (confirm : Question → Except Failure Bool) (now : Timestamp) :
    (p.runConversion c settings confirm now).project.WellFormed := by
  unfold runConversion
  cases hprepare : p.prepare c settings now with
  | error error => exact hp
  | ok prepared =>
    obtain ⟨collected, pre, hcollected, _, hprepared⟩ := prepare_eq_ok_iff.mp hprepare
    change (prepared.commit p settings confirm now).project.WellFormed
    cases hresult : (prepared.commit p settings confirm now).result with
    | error error =>
      rw [(PreparedConversion.commit_eq_error_iff.mp ⟨hresult, rfl⟩).2]
      exact hp
    | ok report =>
      obtain ⟨_, _, ⟨copy, record, hrun, hrecord, hreplace⟩, _⟩ :=
        PreparedConversion.commit_eq_ok_iff.mp ⟨hresult, rfl⟩
      subst hprepared
      exact (hp.of_renamesTo (collect_covers hcollected) hrun).of_rebuild hrecord hreplace

end Project

namespace Points

/-- The record that takes the place of the class. -/
def pointRecord : Declaration where
  id := ⟨3⟩
  file := "Point.java"
  children := [
    .modifiers ⟨.public, []⟩, .keyword .record, .trivia (.whitespace " "), .identifier "Point",
    .header [⟨⟨4⟩, "int", "x"⟩], .code (.ofText " \x7b "), .trivia (.whitespace " "),
    .method {
      id := ⟨5⟩
      modifiers := ⟨.public, []⟩
      returnType? := none
      name := "Point"
      parameters := [⟨⟨6⟩, "int", "x"⟩]
      body := .ofText " \x7b this." ++ ⟨[.ref ⟨⟨1⟩, ⟨4⟩, "x"⟩]⟩ ++ .ofText " = " ++
        ⟨[.ref ⟨⟨2⟩, ⟨6⟩, "x"⟩]⟩ ++ .ofText "; \x7d" },
    .code (.ofText " \x7d")]

theorem converts_project : ∃ q, project.Converts candidate collected.plan collected.usages q := by
  have happly : project.applyRenames collected.plan collected.usages =
      ⟨project.renamedBy collected.plan.get?, .ok 1⟩ := rfl
  have hrecord : (project.renamedBy collected.plan.get?).rebuildRecord candidate =
      .ok pointRecord := rfl
  exact Project.exists_converts_iff.mpr
    ⟨_, _, (Project.applyRenames_eq_ok_iff.mp happly).1, hrecord⟩

/-- Conversion of the class can be prepared, and it succeeds if all questions are answered with
    yes. -/
theorem exists_prepare_eq_ok : ∃ prepared report,
    project.prepare candidate {} default = .ok prepared ∧
      (prepared.commit project {} (fun _ => .ok true) default).result = .ok report := by
  obtain ⟨pre, hprepare, hhold⟩ := Project.exists_prepare_of_collect {} default collect_eq rfl
  obtain ⟨q, hconverts⟩ := converts_project
  refine ⟨_, _, hprepare, (PreparedConversion.commit_eq_ok_iff.mpr ⟨?_, ?_, hconverts, rfl⟩).1⟩
  · exact .inr (.inl ⟨rfl, rfl⟩)
  · exact fun _ => hhold

/-- The small project is well formed before and after its conversion. -/
theorem runConversion_wellFormed_project :
    project.WellFormed ∧
      (∃ report, (project.runConversion candidate {} (fun _ => .ok true) default).result =
        .ok report) ∧
      (project.runConversion candidate {} (fun _ => .ok true) default).project.WellFormed := by
  have hp : project.WellFormed := by decide +kernel
  obtain ⟨prepared, report, hprepare, hreport⟩ := exists_prepare_eq_ok
  refine ⟨hp, ⟨report, ?_⟩, Project.runConversion_wellFormed hp candidate {} _ default⟩
  rw [Project.runConversion, hprepare]
  exact hreport

end Points

end ClassToRecord
