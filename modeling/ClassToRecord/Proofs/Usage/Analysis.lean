import ClassToRecord.Usage.Analysis
import ClassToRecord.Proofs.Conflict
import ClassToRecord.Proofs.Usage.Origin

namespace ClassToRecord

namespace Project

/-- Nothing stands in the way of a conversion. No member becomes more visible, no reference would
    mean another method, no method meets a namesake that keeps its name where it gets its own new
    one, and no field that becomes private is used outside the class. -/
structure ConflictFree (p : Project) (c : Candidate) (usages : List Usage) (plan : RenamePlan) :
    Prop where
  risks : ∀ element message, .encapsulationRisk element message ∉ usages
  collisions : ∀ site ∈ sitesOf usages, site.collision? = none
  namesakes : ∀ target newName, .accessorRename target newName none ∈ usages →
    ∀ d ∈ p.declarations, ∀ m ∈ d.methods, p.Overrides m.id target →
      ∀ e ∈ d.methods, e.id ≠ m.id → e.id ∉ plan.keys → e.name = newName →
        e.parameters.length ≠ m.parameters.length
  access : ∀ field ∈ c.fields.keys, p.visibility? field ≠ some .private →
    ∀ d ∈ p.declarations, d.id ≠ c.declaration → ∀ r ∈ d.references, r.target ≠ field

variable {p : Project}

theorem collisions_eq_nil_iff {usages : List Usage} :
    collisions usages = [] ↔ ∀ site ∈ sitesOf usages, site.collision? = none := by
  simp [collisions, List.filterMap_eq_nil_iff]

theorem namesakes_eq_nil_iff {newName : String} {plan : RenamePlan} {m : Method} {id : ElementId}
    {owner : Declaration} :
    namesakes newName plan m id owner = [] ↔ ∀ e ∈ owner.methods, e.id ≠ id →
      e.id ∉ plan.keys → e.name = newName → e.parameters.length ≠ m.parameters.length := by
  simp [namesakes, ← OrderedMap.contains_iff]

/-- The name of a rename is free exactly if no method of the hierarchy meets a namesake in the
    declaration that it belongs to. -/
theorem nameConflicts_eq_nil_iff (hdistinct : p.DistinctElements) {target : ElementId}
    {newName : String} {plan : RenamePlan} :
    p.nameConflicts target newName plan = [] ↔
      ∀ d ∈ p.declarations, ∀ m ∈ d.methods, p.Overrides m.id target →
        ∀ e ∈ d.methods, e.id ≠ m.id → e.id ∉ plan.keys → e.name = newName →
          e.parameters.length ≠ m.parameters.length := by
  rw [nameConflicts, List.flatMap_eq_nil_iff]
  constructor
  · intro h d hd m hm habove
    have hmethod := hdistinct.method?_eq_some_iff.mpr ⟨mem_methods_iff.mpr ⟨d, hd, hm⟩, rfl⟩
    have howner := hdistinct.owner?_eq_some_iff.mpr ⟨hd, Declaration.declares_of_mem_methods hm⟩
    have hnone := h m.id (mem_hierarchy_iff.mpr habove)
    rw [hmethod, howner, List.map_eq_nil_iff] at hnone
    exact namesakes_eq_nil_iff.mp hnone
  · intro h id hid
    split
    · next m owner hmethod howner =>
      obtain ⟨hm, rfl⟩ := hdistinct.method?_eq_some_iff.mp hmethod
      obtain ⟨d, hd, hmd⟩ := mem_methods_iff.mp hm
      have hsame := hdistinct.owner?_eq_some_iff.mpr ⟨hd, Declaration.declares_of_mem_methods hmd⟩
      obtain rfl := Option.some.inj (hsame.symm.trans howner)
      rw [List.map_eq_nil_iff, namesakes_eq_nil_iff]
      exact h d hd m hmd (mem_hierarchy_iff.mp hid)
    · rfl

theorem accessibilityConflicts_private_eq_nil_iff {elements : List ElementId} {scope : ElementId}
    (hscope : (p.declaration? scope).isSome = true) :
    p.accessibilityConflicts elements scope .private = [] ↔
      ∀ element ∈ elements, ∀ d ∈ p.declarations, d.id ≠ scope →
        ∀ r ∈ d.references, r.target ≠ element := by
  obtain ⟨s, hs⟩ := Option.isSome_iff_exists.mp hscope
  have hid : s.id = scope := by simpa using List.find?_some hs
  simp only [accessibilityConflicts, hs, List.flatMap_eq_nil_iff, List.map_eq_nil_iff,
    List.filter_eq_nil_iff, sees, hid, Bool.and_eq_true, not_and, List.any_eq_true,
    decide_eq_true_eq, Bool.not_eq_true', decide_eq_false_iff_not, not_not]
  constructor
  · intro h element helement d hd hother r hr htarget
    exact hother (h element helement d hd ⟨r, hr, htarget⟩)
  · rintro h element helement d hd ⟨r, hr, htarget⟩
    by_contra hother
    exact h element helement d hd hother r hr htarget

theorem mem_fieldsToHide_iff {usages : List Usage} {field : ElementId} :
    field ∈ fieldsToHide usages ↔ .directFieldReference field ∈ usages := by
  rw [fieldsToHide, mem_newOnes, List.mem_filterMap]
  constructor
  · rintro ⟨⟨usage, husage, hfield⟩, _⟩
    cases usage with
    | directFieldReference f =>
      cases hfield
      exact husage
    | _ => cases hfield
  · intro h
    exact ⟨⟨_, h, rfl⟩, List.not_mem_nil⟩

/-- A usage brings a conflict of its own exactly if it is a risk, or a rename to a name that is not
    free. -/
theorem flatMap_conflictsOf_eq_nil_iff {usages : List Usage} {plan : RenamePlan} :
    usages.flatMap (p.conflictsOf plan) = [] ↔
      (∀ element message, .encapsulationRisk element message ∉ usages) ∧
      ∀ target newName, .accessorRename target newName none ∈ usages →
        p.nameConflicts target newName plan = [] := by
  rw [List.flatMap_eq_nil_iff]
  constructor
  · intro h
    refine ⟨fun element message hrisk => ?_, fun _ _ hmarker => h _ hmarker⟩
    exact List.cons_ne_nil _ _ (h _ hrisk)
  · rintro ⟨hrisks, hmarkers⟩ usage husage
    cases usage with
    | directFieldReference => rfl
    | encapsulationRisk element message => exact absurd husage (hrisks element message)
    | accessorRename target newName site? =>
      cases site? with
      | none => exact hmarkers target newName husage
      | some site => rfl

/-- An analysis of what was collected finds nothing exactly if nothing stands in the way of the
    conversion. -/
theorem analyze_isEmpty_iff (hdistinct : p.DistinctElements) {c : Candidate}
    {searchWeakened : Bool} {collected : CollectedUsages}
    (hcollect : p.collect c searchWeakened = .ok collected)
    (hscope : (p.declaration? c.declaration).isSome = true) :
    (p.analyze c collected.usages collected.plan).isEmpty = true ↔
      p.ConflictFree c collected.usages collected.plan := by
  rw [analyze, ConflictReport.isEmpty_putAll_iff, List.append_eq_nil_iff, List.append_eq_nil_iff,
    collisions_eq_nil_iff, flatMap_conflictsOf_eq_nil_iff,
    accessibilityConflicts_private_eq_nil_iff hscope]
  simp only [mem_fieldsToHide_iff, directFieldReference_mem_iff hcollect,
    nameConflicts_eq_nil_iff hdistinct]
  constructor
  · rintro ⟨_, ⟨hcollisions, hrisks, hnamesakes⟩, haccess⟩
    exact ⟨hrisks, hcollisions, hnamesakes, fun field hkey hvisible =>
      haccess field ⟨hkey, hvisible⟩⟩
  · rintro ⟨hrisks, hcollisions, hnamesakes, haccess⟩
    exact ⟨rfl, ⟨hcollisions, hrisks, hnamesakes⟩, fun field ⟨hkey, hvisible⟩ =>
      haccess field hkey hvisible⟩

end Project

end ClassToRecord
