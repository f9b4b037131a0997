import ClassToRecord.Proofs.Rename.Names

namespace ClassToRecord

variable (names : ElementId → Option String)

namespace Declaration

variable (d : Declaration)

@[simp] theorem declares_renamedBy (id : ElementId) :
    (d.renamedBy names).declares id = d.declares id := by
  simp [declares]

theorem fields_renamedBy : (d.renamedBy names).fields = d.fields.map (Field.renamedBy names) := by
  simp only [fields, renamedBy, List.filterMap_map, List.map_filterMap]
  apply List.filterMap_congr
  intro child _
  cases child <;> rfl

theorem methods_renamedBy :
    (d.renamedBy names).methods = d.methods.map (Method.renamedBy names) := by
  simp only [methods, renamedBy, List.filterMap_map, List.map_filterMap]
  apply List.filterMap_congr
  intro child _
  cases child <;> rfl

/-- Members are found as before, under their new names. -/
theorem field?_renamedBy (id : ElementId) :
    (d.renamedBy names).field? id = (d.field? id).map (Field.renamedBy names) := by
  rw [field?, fields_renamedBy, List.find?_map]
  rfl

theorem method?_renamedBy (id : ElementId) :
    (d.renamedBy names).method? id = (d.method? id).map (Method.renamedBy names) := by
  rw [method?, methods_renamedBy, List.find?_map]
  rfl

theorem visibility_renamedBy : (d.renamedBy names).visibility = d.visibility := by
  have hmodifiers : (d.renamedBy names).children.findSome? Child.modifiers? =
      d.children.findSome? Child.modifiers? := by
    rw [renamedBy, List.findSome?_map]
    congr 1
    funext child
    cases child <;> rfl
  rw [visibility, visibility, hmodifiers]

end Declaration

namespace Project

variable (p : Project)

theorem owner?_renamedBy (id : ElementId) :
    (p.renamedBy names).owner? id = (p.owner? id).map (Declaration.renamedBy names) := by
  simp only [owner?, renamedBy, List.find?_map, Function.comp_def, Declaration.declares_renamedBy]

theorem containing?_renamedBy (id : ElementId) :
    (p.renamedBy names).containing? id = p.containing? id := by
  rw [containing?, owner?_renamedBy, Option.map_map]
  rfl

theorem declaration?_renamedBy (id : ElementId) :
    (p.renamedBy names).declaration? id =
      (p.declaration? id).map (Declaration.renamedBy names) := by
  rw [declaration?, renamedBy, List.find?_map]
  rfl

theorem home?_renamedBy (id : ElementId) :
    (p.renamedBy names).home? id = (p.home? id).map (Declaration.renamedBy names) := by
  rw [home?, containing?_renamedBy, home?]
  cases p.containing? id with
  | none => rfl
  | some owner => exact p.declaration?_renamedBy names owner

/-- New names change nothing about which field or method is found. -/
theorem field?_renamedBy (id : ElementId) :
    (p.renamedBy names).field? id = (p.field? id).map (Field.renamedBy names) := by
  rw [field?, home?_renamedBy, field?]
  cases p.home? id with
  | none => rfl
  | some d => exact d.field?_renamedBy names id

theorem method?_renamedBy (id : ElementId) :
    (p.renamedBy names).method? id = (p.method? id).map (Method.renamedBy names) := by
  rw [method?, home?_renamedBy, method?]
  cases p.home? id with
  | none => rfl
  | some d => exact d.method?_renamedBy names id

/-- Nor do they change how visible anything is. -/
theorem visibility?_renamedBy (id : ElementId) :
    (p.renamedBy names).visibility? id = p.visibility? id := by
  simp only [visibility?, declaration?_renamedBy, field?_renamedBy, method?_renamedBy,
    Option.map_map, Function.comp_def, Declaration.visibility_renamedBy]
  rfl

end Project

end ClassToRecord
