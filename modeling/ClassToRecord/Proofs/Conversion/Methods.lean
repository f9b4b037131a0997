import ClassToRecord.Proofs.Conversion.Coverage

namespace ClassToRecord

/-- A method is an old one under its new name, if it has one. It may have another body, other
    modifiers and other parameters, but as many as before. -/
structure Method.Continues (names : ElementId → Option String) (m old : Method) : Prop where
  id : m.id = old.id
  name : m.name = (names old.id).getD old.name
  returnType : m.returnType? = old.returnType?
  arity : m.parameters.length = old.parameters.length
  superMethods : m.superMethods = old.superMethods

theorem Method.Continues.isConstructor {names : ElementId → Option String} {m old : Method}
    (h : m.Continues names old) : m.isConstructor = old.isConstructor := by
  rw [Method.isConstructor, Method.isConstructor, h.returnType]

/-- What a method becomes in a record continues it with the same name. -/
theorem Candidate.Becomes.exists_continued {c : Candidate} {components : List Parameter}
    {visibility : Visibility} {child : Child} {m : Method}
    (h : c.Becomes components visibility child (.method m)) :
    ∃ old, child = .method old ∧ m.Continues (fun _ => none) old := by
  cases h with
  | @canonical old _ _ hcanonical =>
    obtain ⟨hlength, _, rfl⟩ := Method.toCanonical_eq_ok_iff.mp hcanonical
    refine ⟨old, rfl, rfl, rfl, rfl, ?_, rfl⟩
    simpa using congrArg List.length (Method.map_id_recordParameters hlength)
  | same => exact ⟨m, rfl, rfl, rfl, rfl, rfl, rfl⟩

/-- The methods of a record are methods of its class. -/
theorem Declaration.RecordOf.exists_continued {c : Candidate} {d record : Declaration}
    (h : d.RecordOf c record) {m : Method} (hm : m ∈ record.methods) :
    ∃ old ∈ d.methods, m.Continues (fun _ => none) old := by
  rcases h.children _ (mem_methods_iff.mp hm) with hheader | ⟨child, hchild, hbecomes⟩
  · cases hheader
  · obtain ⟨old, rfl, hcontinues⟩ := hbecomes.exists_continued
    exact ⟨old, mem_methods_iff.mpr hchild, hcontinues⟩

/-- The methods under new names are the old ones. -/
theorem Declaration.exists_method_of_renamedBy {names : ElementId → Option String}
    {d : Declaration} {m : Method} (hm : m ∈ (d.renamedBy names).methods) :
    ∃ old ∈ d.methods, m = old.renamedBy names := by
  obtain ⟨child, hchild, hrenamed⟩ := List.mem_map.mp (mem_methods_iff.mp hm)
  cases child with
  | method old =>
    cases hrenamed
    exact ⟨old, mem_methods_iff.mpr hchild, rfl⟩
  | _ => cases hrenamed

namespace Project

/-- A method still has a place in a project. -/
def StillDeclares (q : Project) (m : Method) : Prop := m.id ∈ q.methods.map Method.id

section Converted

variable {p q : Project} {c : Candidate} {collected : CollectedUsages}
  (hcovers : collected.Covers p) (helements : p.DistinctElements)
  (hreferences : p.DistinctReferences)
  (hconverts : p.Converts c collected.plan collected.usages q)

include hcovers helements hreferences hconverts

/-- Every method that is there after a conversion continues one that the same declaration had. -/
theorem exists_continued_of_converts {e : Declaration} {m : Method} (he : e ∈ q.declarations)
    (hm : m ∈ e.methods) :
    ∃ d ∈ p.declarations, d.id = e.id ∧
      ∃ old ∈ d.methods, m.Continues collected.plan.get? old := by
  obtain ⟨copy, record, hrun, hrecord, hreplace⟩ := hconverts
  have hcopy := renamedBy_of_renamesTo hcovers helements hreferences hrun
  rcases mem_or_eq_of_replaceDeclaration hreplace he with hkept | rfl
  · rw [hcopy] at hkept
    obtain ⟨d, hd, rfl⟩ := List.mem_map.mp hkept
    obtain ⟨old, hold, rfl⟩ := Declaration.exists_method_of_renamedBy hm
    exact ⟨d, hd, rfl, old, hold, rfl, rfl, rfl, rfl, rfl⟩
  · obtain ⟨d', hd', _, hrecordOf⟩ := recordOf_of_rebuildRecord hrecord
    have hrenamed := List.mem_of_find?_eq_some hd'
    rw [hcopy] at hrenamed
    obtain ⟨d, hd, rfl⟩ := List.mem_map.mp hrenamed
    obtain ⟨numbered, hnumbered, _, rfl⟩ := Declaration.exists_method_of_number hm
    obtain ⟨renamed, hmethod, hcontinues⟩ := hrecordOf.exists_continued hnumbered
    obtain ⟨old, hold, rfl⟩ := Declaration.exists_method_of_renamedBy hmethod
    exact ⟨d, hd, hrecordOf.id.symm, old, hold, hcontinues.id, hcontinues.name,
      hcontinues.returnType, hcontinues.arity, hcontinues.superMethods⟩

/-- A method that is still declared after a conversion is continued where it was. -/
theorem exists_continuing_of_converts {d : Declaration} {m : Method} (hd : d ∈ p.declarations)
    (hm : m ∈ d.methods) (hstill : q.StillDeclares m) :
    ∃ e ∈ q.declarations, e.id = d.id ∧
      ∃ new ∈ e.methods, new.Continues collected.plan.get? m := by
  obtain ⟨new, hnew, hid⟩ := List.mem_map.mp hstill
  obtain ⟨e, he, hnew⟩ := mem_methods_iff.mp hnew
  obtain ⟨d', hd', hdId, old, hold, hcontinues⟩ :=
    exists_continued_of_converts hcovers helements hreferences hconverts he hnew
  have hsame : old.id = m.id := hcontinues.id.symm.trans hid
  obtain rfl : d' = d := helements.eq_of_declares hd' hd
    (hsame ▸ Declaration.declares_of_mem_methods hold) (Declaration.declares_of_mem_methods hm)
  obtain rfl : old = m := helements.method_eq (mem_methods_iff.mpr ⟨d', hd, hold⟩)
    (mem_methods_iff.mpr ⟨d', hd, hm⟩) hsame
  exact ⟨e, he, hdId.symm, new, hnew, hcontinues⟩

/-- Methods outside the class are never lost. -/
theorem stillDeclares_of_converts {d : Declaration} {m : Method} (hd : d ∈ p.declarations)
    (hother : d.id ≠ c.declaration) (hm : m ∈ d.methods) : q.StillDeclares m := by
  have hkept := (mem_declarations_of_converts hcovers helements hreferences hconverts
    (e := d.renamedBy collected.plan.get?) hother).mpr ⟨d, hd, rfl⟩
  refine List.mem_map.mpr ⟨m.renamedBy collected.plan.get?, ?_, rfl⟩
  refine mem_methods_iff.mpr ⟨_, hkept, Declaration.mem_methods_iff.mpr ?_⟩
  exact List.mem_map.mpr ⟨_, Declaration.mem_methods_iff.mp hm, rfl⟩

end Converted

end Project

end ClassToRecord
