import ClassToRecord.Proofs.Conversion.WellFormed
import ClassToRecord.Proofs.Usage.Analysis

namespace ClassToRecord

namespace Project

variable {p : Project} {c : Candidate} {settings : Settings} {start : Timestamp}
  {prepared : PreparedConversion}

/-- A preparation reports no conflict exactly if nothing stands in the way of the conversion. -/
theorem conflicts_isEmpty_iff_of_prepare (hdistinct : p.DistinctElements)
    (hprepare : p.prepare c settings start = .ok prepared) :
    prepared.conflicts.isEmpty = true ↔ p.ConflictFree c prepared.usages prepared.plan := by
  obtain ⟨collected, pre, hcollect, hcapture, rfl⟩ := prepare_eq_ok_iff.mp hprepare
  exact analyze_isEmpty_iff hdistinct hcollect
    (Preconditions.exists_capture_eq_ok_iff.mp ⟨_, hcapture⟩ _ List.mem_cons_self)

theorem runConversion_of_prepare (hprepare : p.prepare c settings start = .ok prepared)
    (confirm : Question → Except Failure Bool) :
    p.runConversion c settings confirm start = prepared.commit p settings confirm start := by
  simp only [runConversion, hprepare]

/-- A conversion that meets no conflict and can be carried out is carried out in any mode. -/
theorem exists_commit_of_converts {collected : CollectedUsages} {q : Project} (settings : Settings)
    (confirm : Question → Except Failure Bool) (now : Timestamp)
    (hcollect : p.collect c settings.searchWeakenedVisibility = .ok collected)
    (hclass : (p.declaration? c.declaration).isSome = true)
    (hquiet : (p.analyze c collected.usages collected.plan).isEmpty = true)
    (hconverts : p.Converts c collected.plan collected.usages q) :
    ∃ prepared report, p.prepare c settings now = .ok prepared ∧
      prepared.usages = collected.usages ∧ prepared.plan = collected.plan ∧
      prepared.conflicts.isEmpty = true ∧
      (prepared.commit p settings confirm now).result = .ok report ∧
      (prepared.commit p settings confirm now).project = q := by
  obtain ⟨pre, hprepare, hhold⟩ := exists_prepare_of_collect settings now hcollect hclass
  exact ⟨p.preparedWith c collected pre now, _, hprepare, rfl, rfl, hquiet,
    PreparedConversion.commit_eq_ok_iff.mpr ⟨.inl hquiet, fun _ => hhold, hconverts, rfl⟩⟩

/-- The analysis is exact: the report of a preparation is empty if and only if nothing stands in the
    way of the conversion. So a run that nobody attends to and that ignores no conflicts is carried
    out only then. Otherwise it ends with that report, and the project is as it was. -/
theorem prepare_conflicts_exact (hdistinct : p.DistinctElements)
    (hprepare : p.prepare c settings start = .ok prepared) :
    (prepared.conflicts.isEmpty = true ↔ p.ConflictFree c prepared.usages prepared.plan) ∧
    (settings.mode = .unattended → settings.ignoreConflicts = false →
      ∀ confirm : Question → Except Failure Bool,
        (∀ report, (p.runConversion c settings confirm start).result = .ok report →
          p.ConflictFree c prepared.usages prepared.plan) ∧
        (¬ p.ConflictFree c prepared.usages prepared.plan →
          (p.runConversion c settings confirm start).result =
              .error (.conflictsDetected prepared.conflicts) ∧
            (p.runConversion c settings confirm start).project = p)) := by
  have hexact := conflicts_isEmpty_iff_of_prepare hdistinct hprepare
  refine ⟨hexact, fun hmode hreport confirm => ?_⟩
  rw [runConversion_of_prepare hprepare, ← hexact]
  constructor
  · intro report hresult
    obtain ⟨hthrough, -⟩ := PreparedConversion.commit_eq_ok_iff.mp ⟨hresult, rfl⟩
    rcases hthrough with hempty | ⟨hinteractive, _⟩ | ⟨_, hignore⟩
    · exact hempty
    · rw [hmode] at hinteractive
      cases hinteractive
    · rw [hreport] at hignore
      cases hignore
  · intro hconflicts
    refine PreparedConversion.commit_eq_error_iff.mpr ⟨.refused ?_, rfl⟩
    exact .conflicts (Bool.eq_false_iff.mpr hconflicts) hmode hreport

end Project

namespace Points

theorem analyze_isEmpty :
    (project.analyze candidate collected.usages collected.plan).isEmpty = true := by cbv

/-- Nothing stands in the way of converting the class, and nobody has to attend to it. -/
theorem prepare_conflicts_exact_project :
    project.DistinctElements ∧
    ∃ prepared, project.prepare candidate .unattended default = .ok prepared ∧
      prepared.conflicts.isEmpty = true ∧
      project.ConflictFree candidate prepared.usages prepared.plan ∧
      ∃ report, (project.runConversion candidate .unattended (fun _ => .ok false) default).result =
        .ok report := by
  have hdistinct : project.DistinctElements := by decide
  obtain ⟨q, hconverts⟩ := converts_project
  obtain ⟨prepared, report, hprepare, _, _, hquiet, hcommit, _⟩ :=
    Project.exists_commit_of_converts .unattended (fun _ => .ok false) default collect_eq rfl
      analyze_isEmpty hconverts
  obtain ⟨hexact, _⟩ := Project.prepare_conflicts_exact hdistinct hprepare
  rw [Project.runConversion_of_prepare hprepare]
  exact ⟨hdistinct, prepared, hprepare, hquiet, hexact.mp hquiet, report, hcommit⟩

end Points

end ClassToRecord
