import ClassToRecord.Proofs.Conversion.WellFormed

namespace ClassToRecord

namespace UsageCounts

/-- How many usages are counted. -/
def total (counts : UsageCounts) : Nat :=
  counts.directFieldReferences + counts.accessorRenames + counts.referenceSites +
    counts.encapsulationRisks

private theorem total_add (counts : UsageCounts) (usage : Usage) :
    (counts.add usage).total = counts.total + [usage].length := by
  unfold add
  split <;> simp only [total, List.length_singleton] <;> omega

private theorem referenceSites_add (counts : UsageCounts) (usage : Usage) :
    (counts.add usage).referenceSites = counts.referenceSites + usage.site?.toList.length := by
  unfold add
  split <;> rfl

/-- A count to which each usage adds the items that it has is the number of all these items. -/
theorem count_ofUsages {α : Type} {count : UsageCounts → Nat} {items : Usage → List α}
    (hnone : count {} = 0)
    (hadd : ∀ counts usage, count (counts.add usage) = count counts + (items usage).length)
    (usages : List Usage) : count (ofUsages usages) = (usages.flatMap items).length := by
  have hfold : ∀ counts : UsageCounts,
      count (usages.foldl add counts) = count counts + (usages.flatMap items).length := by
    induction usages with
    | nil => exact fun _ => rfl
    | cons usage rest ih =>
      intro counts
      rw [List.foldl_cons, ih, hadd, List.flatMap_cons, List.length_append, Nat.add_assoc]
  rw [ofUsages, hfold, hnone, Nat.zero_add]

/-- Every usage is counted once. -/
theorem total_ofUsages (usages : List Usage) : (ofUsages usages).total = usages.length := by
  rw [count_ofUsages rfl total_add, List.flatMap_singleton']

/-- And every site. -/
theorem referenceSites_ofUsages (usages : List Usage) :
    (ofUsages usages).referenceSites = (sitesOf usages).length := by
  rw [count_ofUsages rfl referenceSites_add, sitesOf, List.filterMap_eq_flatMap_toList]

end UsageCounts

namespace Project

variable {p q : Project} {c : Candidate}

/-- A field or a method has the name that a report gives as its current one, and no other. -/
theorem mem_named_iff_currentName (hp : p.DistinctElements) {id : ElementId} {name : String}
    (hmember : ∃ d ∈ p.declarations, d.hasMember id = true) :
    (id, name) ∈ p.named ↔ name = p.currentName id := by
  have hown : (id, p.currentName id) ∈ p.named := by
    obtain ⟨d, hd, hmember⟩ := hmember
    obtain ⟨child, hchild, hmember⟩ := List.any_eq_true.mp hmember
    refine List.mem_flatMap.mpr ⟨d, hd, List.mem_flatMap.mpr ⟨child, hchild, ?_⟩⟩
    cases child with
    | method m =>
      obtain rfl : m.id = id := of_decide_eq_true hmember
      have hm := mem_methods_iff.mpr ⟨d, hd, Declaration.mem_methods_iff.mpr hchild⟩
      rw [currentName, hp.method?_eq_some_iff.mpr ⟨hm, rfl⟩]
      exact List.mem_cons_self
    | field f =>
      obtain rfl : f.id = id := of_decide_eq_true hmember
      have hnone : p.method? f.id = none := by
        by_contra hsome
        obtain ⟨m, hm⟩ := Option.ne_none_iff_exists'.mp hsome
        obtain ⟨hm, hid⟩ := of_method?_eq_some hm
        exact hp.id_ne_of_field hd hchild hm hid
      rw [currentName, hnone, hp.field?_eq_some hd hchild]
      exact List.mem_cons_self
    | _ => cases hmember
  constructor
  · intro hnamed
    exact hp.named_inj hnamed hown
  · rintro rfl
    exact hown

/-- A record has no new names for fields and methods. -/
theorem parameterNames_of_hasMember (hp : p.DistinctElements) {d : Declaration}
    (hd : d ∈ p.declarations) {id : ElementId}
    (hmember : ∃ e ∈ p.declarations, e.hasMember id = true) : c.parameterNames d id = none := by
  cases hname : c.parameterNames d id with
  | none => rfl
  | some name =>
    obtain ⟨m, hm, -, hparameter⟩ := exists_constructor_of_parameterNames hname
    obtain ⟨e, he, hmember⟩ := hmember
    exact absurd hparameter (hp.not_mem_parameters he hd hmember hm)

/-- A plan that is carried out concerns fields and methods only. -/
theorem exists_hasMember_of_converts {plan : RenamePlan} {usages : List Usage}
    (hconverts : p.Converts c plan usages q) {id : ElementId}
    (hplanned : (plan.get? id).isSome = true) :
    ∃ d ∈ p.declarations, d.hasMember id = true := by
  obtain ⟨_, _, hrun, -, -⟩ := hconverts
  exact hrun.exists_hasMember id (OrderedMap.isSome_get?_iff.mp hplanned)

/-- A conversion leaves a field or a method the name that it had, unless it is planned to have
    another one. So it is with a field that has become a component. -/
theorem exists_named_of_converts {acc : CollectedUsages} (hp : p.DistinctElements)
    (hreferences : p.DistinctReferences) (hcovers : acc.Covers p)
    (hconverts : p.Converts c acc.plan acc.usages q) {id : ElementId} {name : String}
    (hnamed : (id, name) ∈ q.named) (hmember : ∃ d ∈ p.declarations, d.hasMember id = true) :
    ∃ old, (id, old) ∈ p.named ∧ name = (acc.plan.get? id).getD old := by
  have hplanned : ∀ id, (acc.plan.get? id).isSome = true →
      ∃ d ∈ p.declarations, d.hasMember id = true := fun _ =>
    exists_hasMember_of_converts hconverts
  obtain ⟨copy, record, hrun, hrecord, hreplace⟩ := hconverts
  have hmember := (hrun.exists_hasMember_iff id).mpr hmember
  obtain rfl := renamedBy_of_renamesTo hcovers hp hreferences hrun
  have hcopy := (distinctElements_renamedBy acc.plan.get?).mpr hp
  obtain ⟨d, hd, mid, hmid, hname⟩ := named_of_rebuild hcopy hrecord hreplace hnamed
  rw [parameterNames_of_hasMember hcopy hd hmember, Option.getD_none] at hname
  obtain ⟨old, hold, hrenamed⟩ := (keeps_renamedBy hp hplanned).named _ hmid
  exact ⟨old, hold, hname.trans hrenamed⟩

end Project

/-- What a report on a conversion from one project to another says is true, and nothing is
    missing. -/
structure ConversionReport.TrueOf (report : ConversionReport) (p q : Project)
    (collected : CollectedUsages) (summary : EditSummary) : Prop where
  /-- There is one record for each planned rename, in the order of the plan. -/
  planned : report.renames.map (fun r => (r.element, r.newName)) = collected.plan.entries
  /-- The old name is the one that the element had. -/
  oldNames : ∀ r ∈ report.renames, ∀ name, (r.element, name) ∈ p.named ↔ name = r.oldName
  /-- The new name is the one that the element has, if it is still there. -/
  newNames : ∀ r ∈ report.renames, ∀ name, (r.element, name) ∈ q.named → name = r.newName
  /-- A field or a method whose name has changed is listed with both names. -/
  complete : ∀ element oldName newName, (∃ d ∈ p.declarations, d.hasMember element = true) →
    (element, oldName) ∈ p.named → (element, newName) ∈ q.named → oldName ≠ newName →
      ⟨element, oldName, newName⟩ ∈ report.renames
  /-- Each collected site is one of a planned rename. -/
  sites : ∀ site ∈ sitesOf collected.usages, site.element ∈ collected.plan.keys
  referenceSites : report.usageCounts.referenceSites = collected.siteCount
  rewrittenSites : summary.rewrittenSites = collected.siteCount
  counted : report.usageCounts.total = collected.usages.length

namespace Project

variable {p : Project} {c : Candidate}

/-- The record of a rename in a report goes back to the plan. -/
theorem mem_renameRecords_iff {plan : RenamePlan} {r : RenameRecord} :
    r ∈ p.renameRecords plan ↔
      plan.get? r.element = some r.newName ∧ r.oldName = p.currentName r.element := by
  obtain ⟨element, oldName, newName⟩ := r
  rw [renameRecords, List.mem_map, OrderedMap.get?_eq_some_iff]
  constructor
  · rintro ⟨entry, hentry, heq⟩
    cases heq
    exact ⟨hentry, rfl⟩
  · rintro ⟨hentry, hold⟩
    exact ⟨_, hentry, congrArg (RenameRecord.mk element · newName) hold.symm⟩

/-- The records list the plan. -/
theorem map_renameRecords (plan : RenamePlan) :
    (p.renameRecords plan).map (fun r => (r.element, r.newName)) = plan.entries := by
  rw [renameRecords, List.map_map]
  exact List.map_id _

section Converted

variable {q : Project} {acc : CollectedUsages} (hp : p.DistinctElements)
  (hconverts : p.Converts c acc.plan acc.usages q) {r : RenameRecord} {name : String}
include hp hconverts

/-- The old name in a record is the one that the element had. -/
theorem oldName_of_mem_renameRecords (hr : r ∈ p.renameRecords acc.plan) :
    (r.element, name) ∈ p.named ↔ name = r.oldName := by
  obtain ⟨hplan, hold⟩ := mem_renameRecords_iff.mp hr
  rw [hold]
  exact mem_named_iff_currentName hp
    (exists_hasMember_of_converts hconverts (Option.isSome_of_eq_some hplan))

variable (hreferences : p.DistinctReferences) (hcovers : acc.Covers p)
include hreferences hcovers

/-- The new name in a record is the one that the element has after the conversion. -/
theorem newName_of_mem_renameRecords (hr : r ∈ p.renameRecords acc.plan)
    (hnamed : (r.element, name) ∈ q.named) : name = r.newName := by
  obtain ⟨hplan, -⟩ := mem_renameRecords_iff.mp hr
  have hmember := exists_hasMember_of_converts hconverts (Option.isSome_of_eq_some hplan)
  obtain ⟨_, -, rfl⟩ := exists_named_of_converts hp hreferences hcovers hconverts hnamed hmember
  rw [hplan, Option.getD_some]

/-- There is a record for each field and each method whose name changes. -/
theorem mem_renameRecords_of_ne {element : ElementId} {newName : String}
    (hmember : ∃ d ∈ p.declarations, d.hasMember element = true)
    (hold : (element, name) ∈ p.named) (hnew : (element, newName) ∈ q.named)
    (hchanged : name ≠ newName) : ⟨element, name, newName⟩ ∈ p.renameRecords acc.plan := by
  obtain ⟨old, hown, rfl⟩ := exists_named_of_converts hp hreferences hcovers hconverts hnew hmember
  obtain rfl := hp.named_inj hold hown
  refine mem_renameRecords_iff.mpr ⟨?_, (mem_named_iff_currentName hp hmember).mp hold⟩
  cases hplan : acc.plan.get? element with
  | none => exact absurd (by rw [hplan, Option.getD_none]) hchanged
  | some newName => rfl

end Converted

end Project

namespace PreparedConversion

/-- A report tells the truth. If a conversion is prepared and then carried out on the same project,
    then what the report says of names, sites and counts is what the edit has done, in the classes
    that override the accessors as well, and every name that has changed is listed. -/
theorem commit_report_trueOf {p q : Project} {c : Candidate} {settings committing : Settings}
    {confirm : Question → Except Failure Bool} {start now : Timestamp}
    {prepared : PreparedConversion} {report : ConversionReport}
    (helements : p.DistinctElements) (hreferences : p.DistinctReferences)
    (hprepare : p.prepare c settings start = .ok prepared)
    (hcommit : (prepared.commit p committing confirm now).result = .ok report)
    (hproject : (prepared.commit p committing confirm now).project = q) :
    ∃ collected summary, p.collect c settings.searchWeakenedVisibility = .ok collected ∧
      prepared.plan = collected.plan ∧ prepared.usages = collected.usages ∧
      p.applyConversion c prepared.plan prepared.usages (prepared.checked committing) =
        .ok (q, summary) ∧
      report.TrueOf p q collected summary := by
  obtain ⟨collected, pre, hcollect, -, rfl⟩ := Project.prepare_eq_ok_iff.mp hprepare
  obtain ⟨-, hallows, hconverts, rfl⟩ := commit_eq_ok_iff.mp ⟨hcommit, hproject⟩
  obtain ⟨summary, happly⟩ := Project.applyConversion_eq_ok_iff.mpr
    ⟨allows_checked_iff.mpr hallows, hconverts⟩
  refine ⟨collected, summary, hcollect, rfl, rfl, happly, ?_⟩
  have hcovers := Project.collect_covers hcollect
  have hsites : ∀ site ∈ sitesOf collected.usages, site.element ∈ collected.plan.keys :=
    fun _ hsite => hcovers.element_mem_keys hsite
  exact {
    planned := Project.map_renameRecords collected.plan
    oldNames := fun _ hr _ => Project.oldName_of_mem_renameRecords helements hconverts hr
    newNames := fun _ hr _ =>
      Project.newName_of_mem_renameRecords helements hconverts hreferences hcovers hr
    complete := fun _ _ _ =>
      Project.mem_renameRecords_of_ne helements hconverts hreferences hcovers
    sites := hsites
    referenceSites := UsageCounts.referenceSites_ofUsages collected.usages
    rewrittenSites := (Project.rewrittenSites_of_applyConversion happly).trans
      (Project.rewrittenBy_eq_length collected.plan.nodup_keys hsites)
    counted := UsageCounts.total_ofUsages collected.usages }

end PreparedConversion

namespace Points

/-- The report on the conversion of the small project is true, for the accessor and for the method
    that it overrides. -/
theorem commit_report_trueOf_project :
    project.DistinctElements ∧ project.DistinctReferences ∧
    ∃ prepared report q summary, project.prepare candidate {} default = .ok prepared ∧
      (prepared.commit project {} (fun _ => .ok true) default).result = .ok report ∧
      (prepared.commit project {} (fun _ => .ok true) default).project = q ∧
      report.TrueOf project q collected summary := by
  have helements : project.DistinctElements := by decide
  have hreferences : project.DistinctReferences := by decide
  obtain ⟨prepared, report, hprepare, hreport⟩ := exists_prepare_eq_ok
  obtain ⟨found, summary, hfound, -, -, -, htrue⟩ := PreparedConversion.commit_report_trueOf
    helements hreferences hprepare hreport rfl
  obtain rfl := Except.ok.inj (hfound.symm.trans collect_eq)
  exact ⟨helements, hreferences, prepared, report, _, summary, hprepare, hreport, rfl, htrue⟩

end Points

end ClassToRecord
