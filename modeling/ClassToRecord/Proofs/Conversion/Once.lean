import ClassToRecord.Proofs.Conversion.Analysis
import ClassToRecord.Proofs.Record.Shape

open ClassToRecord.Traversal

namespace ClassToRecord

namespace Project

variable {p q : Project} {c : Candidate}

/-- A conversion that is carried out leaves its class without key fields. -/
theorem isKeyField_of_converts {plan : RenamePlan} {usages : List Usage}
    (h : p.Converts c plan usages q) {d : Declaration} (hd : q.declaration? c.declaration = some d)
    {f : Field} (hf : f ∈ d.fields) : c.isKeyField f.id = false := by
  obtain ⟨copy, record, -, hrecord, hreplace⟩ := h
  obtain ⟨old, hold, -, hrecordOf⟩ := recordOf_of_rebuildRecord hrecord
  have hid : record.id = c.declaration := by
    rw [hrecordOf.id]
    simpa using List.find?_some hold
  rw [← hid] at hreplace hd
  rw [declaration?_of_replaceDeclaration hreplace] at hd
  obtain rfl := Option.some.inj hd
  have hnumbered := List.mem_map_of_mem (f := Field.id) hf
  rw [Declaration.map_id_fields_number] at hnumbered
  obtain ⟨kept, hkept, hsame⟩ := List.mem_map.mp hnumbered
  rw [← hsame]
  exact isKeyField_of_rebuildRecord hrecord hkept

/-- A candidate with a key field fits its class only once: after one conversion of it no other can
    be carried out, with whatever plan and sites. -/
theorem not_converts_of_converts {plan again : RenamePlan} {usages others : List Usage}
    {r : Project} (hkeys : c.fields.keys ≠ []) (h : p.Converts c plan usages q) :
    ¬ q.Converts c again others r := by
  rintro ⟨copy, record, hrun, hrecord, -⟩
  obtain ⟨field, hfield⟩ := List.exists_mem_of_ne_nil _ hkeys
  have hkeyField : c.isKeyField field = true := OrderedMap.contains_iff.mpr hfield
  obtain ⟨e, he, hmembers, -⟩ := recordOf_of_rebuildRecord hrecord
  -- The key field would have to be a field of the class again, under all the renames of the run.
  obtain ⟨d, hd, hfields⟩ := hrun.exists_declaration? he
  obtain ⟨f, hf⟩ := Option.isSome_iff_exists.mp
    (Candidate.exists_field_of_isKeyField hmembers hkeyField)
  have hfId : f.id = field := by simpa using List.find?_some hf
  have hmem : field ∈ d.fields.map Field.id := by
    rw [← hfields, ← hfId]
    exact List.mem_map_of_mem (List.mem_of_find?_eq_some hf)
  obtain ⟨old, hold, rfl⟩ := List.mem_map.mp hmem
  rw [isKeyField_of_converts h hd hold] at hkeyField
  cases hkeyField

end Project

/-- A run ends with an error, and the project is what it was. -/
def RunOutcome.LeavesAlone (outcome : RunOutcome) (p : Project) : Prop :=
  (∃ error, outcome.result = .error error) ∧ outcome.project = p

namespace PreparedConversion

/-- A commit of what cannot be carried out leaves the project alone. -/
theorem leavesAlone_commit {prepared : PreparedConversion} {p : Project}
    (h : ∀ q, ¬ p.Converts prepared.candidate prepared.plan prepared.usages q)
    (settings : Settings) (confirm : Question → Except Failure Bool) (now : Timestamp) :
    (prepared.commit p settings confirm now).LeavesAlone p := by
  cases hresult : (prepared.commit p settings confirm now).result with
  | error error => exact ⟨⟨error, hresult⟩, (commit_eq_error_iff.mp ⟨hresult, rfl⟩).2⟩
  | ok report =>
    obtain ⟨-, -, hconverts, -⟩ := commit_eq_ok_iff.mp ⟨hresult, rfl⟩
    exact absurd hconverts (h _)

/-- A conversion is applied at most once. After a commit that has succeeded, neither another commit
    of it, nor a run that prepares its candidate anew, gets anywhere: with any settings, any answers
    and at any time they end with an error and leave the project as the first commit did. -/
theorem commit_only_once {prepared : PreparedConversion} {p q : Project} {settings : Settings}
    {confirm : Question → Except Failure Bool} {now : Timestamp} {report : ConversionReport}
    (hkeys : prepared.candidate.fields.keys ≠ [])
    (hcommit : (prepared.commit p settings confirm now).result = .ok report)
    (hproject : (prepared.commit p settings confirm now).project = q) :
    ∀ (again : Settings) (answers : Question → Except Failure Bool) (later : Timestamp),
      (prepared.commit q again answers later).LeavesAlone q ∧
      (q.runConversion prepared.candidate again answers later).LeavesAlone q := by
  obtain ⟨-, -, hconverts, -⟩ := commit_eq_ok_iff.mp ⟨hcommit, hproject⟩
  intro again answers later
  refine ⟨leavesAlone_commit (fun _ => Project.not_converts_of_converts hkeys hconverts)
    again answers later, ?_⟩
  cases hprepare : q.prepare prepared.candidate again later with
  | error error =>
    rw [Project.runConversion, hprepare]
    exact ⟨⟨error, rfl⟩, rfl⟩
  | ok anew =>
    rw [Project.runConversion_of_prepare hprepare]
    obtain ⟨collected, pre, -, -, rfl⟩ := Project.prepare_eq_ok_iff.mp hprepare
    apply leavesAlone_commit
    intro r
    exact Project.not_converts_of_converts hkeys hconverts

end PreparedConversion

namespace Points

/-- The class of the small project becomes a record, and that is what it stays. -/
theorem commit_only_once_project : ∃ (prepared : PreparedConversion) (q : Project),
    prepared.candidate = candidate ∧ prepared.candidate.fields.keys ≠ [] ∧
      (∃ report, (prepared.commit project {} (fun _ => .ok true) default).result = .ok report) ∧
      (prepared.commit project {} (fun _ => .ok true) default).project = q ∧
      (prepared.commit q .unattended (fun _ => .ok true) default).LeavesAlone q ∧
      (q.runConversion prepared.candidate .unattended (fun _ => .ok true) default).LeavesAlone
        q := by
  obtain ⟨prepared, report, hprepare, hreport⟩ := exists_prepare_eq_ok
  obtain ⟨_, _, -, -, hprepared⟩ := Project.prepare_eq_ok_iff.mp hprepare
  have hcandidate : prepared.candidate = candidate := by rw [hprepared, Project.preparedWith]
  have hkeys : prepared.candidate.fields.keys ≠ [] := by
    rw [hcandidate]
    decide
  exact ⟨prepared, _, hcandidate, hkeys, ⟨report, hreport⟩, rfl,
    PreparedConversion.commit_only_once hkeys hreport rfl .unattended (fun _ => .ok true) default⟩

end Points

end ClassToRecord
