import ClassToRecord.Proofs.Conversion.Analysis
import ClassToRecord.Proofs.Conversion.Identities
import ClassToRecord.Proofs.Conversion.Methods

open ClassToRecord.Traversal

namespace ClassToRecord

/-- Two different methods of one declaration cannot both stay: they have the same name and the same
    number of parameters, and neither is a constructor. -/
structure Method.Duplicates (m e : Method) : Prop where
  different : m.id ≠ e.id
  method : m.isConstructor = false
  other : e.isConstructor = false
  name : m.name = e.name
  arity : m.parameters.length = e.parameters.length

namespace Project

/-- Methods that are duplicates of each other in one declaration of the second project had the same
    name in the first one already. -/
def AddsNoDuplicates (p q : Project) : Prop :=
  ∀ d ∈ q.declarations, ∀ m ∈ d.methods, ∀ e ∈ d.methods, m.Duplicates e →
    ∃ old ∈ p.methods, ∃ other ∈ p.methods, old.id = m.id ∧ other.id = e.id ∧
      old.name = other.name

/-- Where methods of one declaration that are alike but for their names get the same new name, they
    had the same name. Only methods that outlive the conversion count. -/
def RenamesApart (p q : Project) (plan : RenamePlan) : Prop :=
  ∀ d ∈ p.declarations, ∀ m ∈ d.methods, ∀ e ∈ d.methods, q.StillDeclares m →
    q.StillDeclares e → m.isConstructor = false → e.isConstructor = false →
      m.parameters.length = e.parameters.length →
        ∀ newName, plan.get? m.id = some newName → plan.get? e.id = some newName → m.name = e.name

section Converted

variable {p q : Project} {c : Candidate} {collected : CollectedUsages}

/-- A method that gets a new name meets none in its declaration that has the name already and keeps
    it. -/
theorem ConflictFree.name_ne (hfree : p.ConflictFree c collected.usages collected.plan)
    (hstems : collected.Stems p) {d : Declaration} {m e : Method} {newName : String}
    (hd : d ∈ p.declarations) (hm : m ∈ d.methods) (he : e ∈ d.methods)
    (hplanned : collected.plan.get? m.id = some newName) (hkept : collected.plan.get? e.id = none)
    (harity : m.parameters.length = e.parameters.length) : e.name ≠ newName := by
  obtain ⟨target, hmarker, htogether⟩ := hstems.named m.id newName hplanned
  have habove := overrides_of_mem_renamedTogether htogether
  have hne : e.id ≠ m.id := by
    intro hid
    rw [hid, hplanned] at hkept
    cases hkept
  intro hname
  exact hfree.namesakes target newName hmarker d hd m hm habove e he hne
    (OrderedMap.get?_eq_none_iff.mp hkept) hname harity.symm

/-- Where nothing stands in the way, names that meet are both old or both new. -/
theorem ConflictFree.name_eq_or_planned
    (hfree : p.ConflictFree c collected.usages collected.plan) (hstems : collected.Stems p)
    {d : Declaration} {m e : Method} (hd : d ∈ p.declarations) (hm : m ∈ d.methods)
    (he : e ∈ d.methods) (harity : m.parameters.length = e.parameters.length)
    (hname : (collected.plan.get? m.id).getD m.name = (collected.plan.get? e.id).getD e.name) :
    m.name = e.name ∨ ∃ newName,
      collected.plan.get? m.id = some newName ∧ collected.plan.get? e.id = some newName := by
  cases hmPlan : collected.plan.get? m.id with
  | none =>
    cases hePlan : collected.plan.get? e.id with
    | none => exact .inl (by simpa [hmPlan, hePlan] using hname)
    | some newName =>
      have hne := hfree.name_ne hstems hd he hm hePlan hmPlan harity.symm
      exact absurd (by simpa [hmPlan, hePlan] using hname) hne
  | some newName =>
    cases hePlan : collected.plan.get? e.id with
    | none =>
      have hne := hfree.name_ne hstems hd hm he hmPlan hePlan harity
      exact absurd (by simpa [hmPlan, hePlan] using hname.symm) hne
    | some other =>
      obtain rfl : newName = other := by simpa [hmPlan, hePlan] using hname
      exact .inr ⟨newName, rfl, rfl⟩

variable (hcovers : collected.Covers p) (helements : p.DistinctElements)
  (hreferences : p.DistinctReferences)
  (hconverts : p.Converts c collected.plan collected.usages q)

include hcovers helements hreferences hconverts

/-- Methods that get the same new name, and that only differ in their names, become duplicates. -/
theorem renamesApart_of_addsNoDuplicates (hnone : p.AddsNoDuplicates q) :
    p.RenamesApart q collected.plan := by
  intro d hd m hm e he hmStill heStill hmMethod heMethod harity newName hmName heName
  have hmp := mem_methods_iff.mpr ⟨d, hd, hm⟩
  have hep := mem_methods_iff.mpr ⟨d, hd, he⟩
  by_cases hid : m.id = e.id
  · rw [helements.method_eq hmp hep hid]
  obtain ⟨d', hd', hdId, m', hm', hmCont⟩ :=
    exists_continuing_of_converts hcovers helements hreferences hconverts hd hm hmStill
  obtain ⟨d'', hd'', hdId', e', he', heCont⟩ :=
    exists_continuing_of_converts hcovers helements hreferences hconverts hd he heStill
  have hnodup : q.declarationIds.Nodup := by
    rw [hconverts.declarationIds_eq]
    exact helements.declarationIds_nodup
  obtain rfl := List.inj_on_of_nodup_map hnodup hd' hd'' (hdId.trans hdId'.symm)
  have hduplicates : m'.Duplicates e' := {
    different := by rwa [hmCont.id, heCont.id]
    method := by rwa [hmCont.isConstructor]
    other := by rwa [heCont.isConstructor]
    name := by rw [hmCont.name, heCont.name, hmName, heName, Option.getD_some, Option.getD_some]
    arity := by rw [hmCont.arity, heCont.arity, harity] }
  obtain ⟨old, hold, other, hother, holdId, hotherId, hname⟩ :=
    hnone d' hd' m' hm' e' he' hduplicates
  rwa [helements.method_eq hold hmp (holdId.trans hmCont.id),
    helements.method_eq hother hep (hotherId.trans heCont.id)] at hname

/-- If nothing stands in the way of a conversion, then methods can only become duplicates if they
    get the same new name. -/
theorem addsNoDuplicates_of_renamesApart (hstems : collected.Stems p)
    (hfree : p.ConflictFree c collected.usages collected.plan)
    (hapart : p.RenamesApart q collected.plan) : p.AddsNoDuplicates q := by
  intro d' hd' m' hm' e' he' hduplicates
  obtain ⟨d, hd, hdId, m, hm, hmCont⟩ :=
    exists_continued_of_converts hcovers helements hreferences hconverts hd' hm'
  obtain ⟨owner, howner, hownerId, e, he, heCont⟩ :=
    exists_continued_of_converts hcovers helements hreferences hconverts hd' he'
  obtain rfl := List.inj_on_of_nodup_map helements.declarationIds_nodup hd howner
    (hdId.trans hownerId.symm)
  have harity : m.parameters.length = e.parameters.length := by
    rw [← hmCont.arity, ← heCont.arity, hduplicates.arity]
  have hname := hduplicates.name
  rw [hmCont.name, heCont.name] at hname
  refine ⟨m, mem_methods_iff.mpr ⟨d, hd, hm⟩, e, mem_methods_iff.mpr ⟨d, hd, he⟩,
    hmCont.id.symm, heCont.id.symm, ?_⟩
  rcases hfree.name_eq_or_planned hstems hd hm he harity hname with
    hsame | ⟨newName, hmPlan, hePlan⟩
  · exact hsame
  · have hmStill : q.StillDeclares m :=
      List.mem_map.mpr ⟨m', mem_methods_iff.mpr ⟨d', hd', hm'⟩, hmCont.id⟩
    have heStill : q.StillDeclares e :=
      List.mem_map.mpr ⟨e', mem_methods_iff.mpr ⟨d', hd', he'⟩, heCont.id⟩
    exact hapart d hd m hm e he hmStill heStill
      (hmCont.isConstructor.symm.trans hduplicates.method)
      (heCont.isConstructor.symm.trans hduplicates.other) harity newName hmPlan hePlan

end Converted

end Project

namespace PreparedConversion

/-- A conversion without conflicts adds duplicate methods exactly if it gives one new name to
    methods of one declaration that had different names. A name that is there already is noticed,
    but a name that two renames bring is not. -/
theorem addsNoDuplicates_commit_iff {p : Project} {c : Candidate} {settings committing : Settings}
    {confirm : Question → Except Failure Bool} {start now : Timestamp}
    {prepared : PreparedConversion} {report : ConversionReport}
    (helements : p.DistinctElements) (hreferences : p.DistinctReferences)
    (hprepare : p.prepare c settings start = .ok prepared)
    (hconflicts : prepared.conflicts.isEmpty = true)
    (hcommit : (prepared.commit p committing confirm now).result = .ok report) :
    p.AddsNoDuplicates (prepared.commit p committing confirm now).project ↔
      p.RenamesApart (prepared.commit p committing confirm now).project prepared.plan := by
  have hfree := (Project.conflicts_isEmpty_iff_of_prepare helements hprepare).mp hconflicts
  obtain ⟨collected, pre, hcollect, -, rfl⟩ := Project.prepare_eq_ok_iff.mp hprepare
  obtain ⟨-, -, hconverts, -⟩ := commit_eq_ok_iff.mp ⟨hcommit, rfl⟩
  have hcovers := Project.collect_covers hcollect
  exact ⟨Project.renamesApart_of_addsNoDuplicates hcovers helements hreferences hconverts,
    Project.addsNoDuplicates_of_renamesApart hcovers helements hreferences hconverts
      (Project.collect_stems hcollect) hfree⟩

end PreparedConversion

namespace Squares

/-- An interface with two accessors. -/
def shape : Declaration where
  id := ⟨1⟩
  file := "Shape.java"
  children := [
    .keyword .interface, .trivia (.whitespace " "), .identifier "Shape", .code (.ofText " \x7b "),
    .method {
      id := ⟨2⟩
      modifiers := ⟨.public, []⟩
      returnType? := some "int"
      name := "getWidth"
      parameters := []
      body := .ofText ";" },
    .trivia (.whitespace " "),
    .method {
      id := ⟨3⟩
      modifiers := ⟨.public, []⟩
      returnType? := some "int"
      name := "getHeight"
      parameters := []
      body := .ofText ";" },
    .code (.ofText " \x7d")]

/-- A class that implements both accessors with one field. -/
def square : Declaration where
  id := ⟨4⟩
  file := "Square.java"
  children := [
    .keyword .class, .trivia (.whitespace " "), .identifier "Square", .code (.ofText " \x7b "),
    .field { id := ⟨5⟩, modifiers := ⟨.private, []⟩, type := "int", name := "width" },
    .trivia (.whitespace " "),
    .field { id := ⟨6⟩, modifiers := ⟨.private, []⟩, type := "int", name := "height" },
    .trivia (.whitespace " "),
    .method {
      id := ⟨7⟩
      modifiers := ⟨.public, []⟩
      returnType? := some "int"
      name := "getWidth"
      parameters := []
      body := .ofText " \x7b return " ++ ⟨[.ref ⟨⟨1⟩, ⟨5⟩, "width"⟩]⟩ ++ .ofText "; \x7d"
      superMethods := [⟨2⟩] },
    .trivia (.whitespace " "),
    .method {
      id := ⟨8⟩
      modifiers := ⟨.public, []⟩
      returnType? := some "int"
      name := "getHeight"
      parameters := []
      body := .ofText " \x7b return " ++ ⟨[.ref ⟨⟨2⟩, ⟨5⟩, "width"⟩]⟩ ++ .ofText "; \x7d"
      superMethods := [⟨3⟩] },
    .code (.ofText " \x7d")]

def project : Project := ⟨[shape, square], 8, 2⟩

/-- Both fields are key fields, and both accessors return the first one. -/
def candidate : Candidate where
  declaration := ⟨4⟩
  fields := ⟨[(⟨5⟩, some ⟨⟨7⟩, ⟨5⟩, false⟩), (⟨6⟩, some ⟨⟨8⟩, ⟨5⟩, false⟩)], by decide⟩

/-- Two renames to the same name. -/
def collected : CollectedUsages where
  usages := [.accessorRename ⟨2⟩ "width" none, .accessorRename ⟨3⟩ "width" none]
  plan := ⟨[(⟨2⟩, "width"), (⟨7⟩, "width"), (⟨3⟩, "width"), (⟨8⟩, "width")], by decide⟩

/-- What is collected for the first field. -/
def collectedWidth : CollectedUsages where
  usages := [.accessorRename ⟨2⟩ "width" none]
  plan := ⟨[(⟨2⟩, "width"), (⟨7⟩, "width")], by decide⟩

theorem collectField_width :
    project.collectField {} (⟨5⟩, some ⟨⟨7⟩, ⟨5⟩, false⟩) = .ok collectedWidth := by
  have htarget : project.renameTarget ⟨7⟩ = ⟨2⟩ := by cbv
  have hhierarchy : project.hierarchy ⟨2⟩ = [⟨2⟩, ⟨7⟩] := by cbv
  have hclass : project.classify ⟨5⟩ (some ⟨⟨7⟩, ⟨5⟩, false⟩) =
      .ok (.needsRename ⟨2⟩ "width") := by
    rw [← htarget]
    rfl
  have hrename : project.collectRename ⟨2⟩ "width" {} = .ok collectedWidth := by
    unfold Project.collectRename Project.prepareRenaming Project.findUsages Project.renamedTogether
    rw [hhierarchy]
    rfl
  rw [Project.collectField, hclass]
  exact hrename

theorem collectField_height :
    project.collectField collectedWidth (⟨6⟩, some ⟨⟨8⟩, ⟨5⟩, false⟩) = .ok collected := by
  have htarget : project.renameTarget ⟨8⟩ = ⟨3⟩ := by cbv
  have hhierarchy : project.hierarchy ⟨3⟩ = [⟨3⟩, ⟨8⟩] := by cbv
  have hclass : project.classify ⟨6⟩ (some ⟨⟨8⟩, ⟨5⟩, false⟩) =
      .ok (.needsRename ⟨3⟩ "width") := by
    rw [← htarget]
    rfl
  have hrename : project.collectRename ⟨3⟩ "width" collectedWidth = .ok collected := by
    unfold Project.collectRename Project.prepareRenaming Project.findUsages Project.renamedTogether
    rw [hhierarchy]
    rfl
  rw [Project.collectField, hclass]
  exact hrename

theorem collect_eq : project.collect candidate true = .ok collected := by
  have hfold : candidate.fields.entries.foldlM project.collectField {} = .ok collected :=
    bind_eq_ok_iff.mpr ⟨_, collectField_width, bind_eq_ok_iff.mpr ⟨_, collectField_height, rfl⟩⟩
  rw [Project.collect, hfold]
  rfl

theorem analyze_isEmpty :
    (project.analyze candidate collected.usages collected.plan).isEmpty = true := by cbv

theorem converts_project : ∃ q, project.Converts candidate collected.plan collected.usages q := by
  have happly : project.applyRenames collected.plan collected.usages =
      ⟨project.renamedBy collected.plan.get?, .ok 0⟩ := rfl
  have hrecord : ∃ record, (project.renamedBy collected.plan.get?).rebuildRecord candidate =
      .ok record := ⟨_, rfl⟩
  obtain ⟨record, hrecord⟩ := hrecord
  exact Project.exists_converts_iff.mpr
    ⟨_, record, (Project.applyRenames_eq_ok_iff.mp happly).1, hrecord⟩

/-- Both methods of the interface get the same name, and no conflict is reported. -/
theorem not_addsNoDuplicates_commit_project :
    project.DistinctElements ∧ project.DistinctReferences ∧
    ∃ prepared report, project.prepare candidate .unattended default = .ok prepared ∧
      prepared.conflicts.isEmpty = true ∧
      (prepared.commit project .unattended (fun _ => .ok false) default).result = .ok report ∧
      ¬ project.AddsNoDuplicates
        (prepared.commit project .unattended (fun _ => .ok false) default).project := by
  have helements : project.DistinctElements := by decide
  have hreferences : project.DistinctReferences := by decide
  obtain ⟨q, hconverts⟩ := converts_project
  obtain ⟨prepared, report, hprepare, _, hplan, hquiet, hcommit, hproject⟩ :=
    Project.exists_commit_of_converts .unattended (fun _ => .ok false) default collect_eq rfl
      analyze_isEmpty hconverts
  refine ⟨helements, hreferences, prepared, report, hprepare, hquiet, hcommit, ?_⟩
  rw [PreparedConversion.addsNoDuplicates_commit_iff helements hreferences hprepare hquiet hcommit,
    hproject, hplan]
  intro hapart
  have hshape : shape ∈ project.declarations := List.mem_cons_self
  have hstill : ∀ m ∈ shape.methods, q.StillDeclares m := fun m hm =>
    Project.stillDeclares_of_converts (Project.collect_covers collect_eq) helements hreferences
      hconverts hshape (by decide) hm
  have hname := hapart shape hshape _ (.head _) _ (.tail _ (.head _)) (hstill _ (.head _))
    (hstill _ (.tail _ (.head _))) rfl rfl rfl "width" rfl rfl
  exact absurd hname (by decide)

end Squares

end ClassToRecord
