import ClassToRecord.Proofs.Project.Lookup

namespace ClassToRecord

/-- A reference follows the new name of its target. -/
def Reference.renamedBy (names : ElementId → Option String) (r : Reference) : Reference :=
  r.renamed ((names r.target).getD r.name)

/-- Code with all its references under new names. -/
def Code.renamedBy (names : ElementId → Option String) (c : Code) : Code :=
  c.mapReferences (Reference.renamedBy names)

/-- A field under its new name, if it has one. -/
def Field.renamedBy (names : ElementId → Option String) (f : Field) : Field :=
  { f with
    name := (names f.id).getD f.name
    initializer? := f.initializer?.map (Code.renamedBy names) }

/-- A method under its new name, if it has one. -/
def Method.renamedBy (names : ElementId → Option String) (m : Method) : Method :=
  { m with name := (names m.id).getD m.name, body := m.body.renamedBy names }

/-- A child with fields, methods and references under new names. -/
def Child.renamedBy (names : ElementId → Option String) : Child → Child
  | .field f => .field (f.renamedBy names)
  | .method m => .method (m.renamedBy names)
  | .code c => .code (c.renamedBy names)
  | child => child

/-- A declaration with fields, methods and references under new names. -/
def Declaration.renamedBy (names : ElementId → Option String) (d : Declaration) : Declaration :=
  { d with children := d.children.map (Child.renamedBy names) }

/-- The project in which fields, methods and references have new names, and in which nothing else
    differs: no id, target, parameter, type, file, order or counter. -/
def Project.renamedBy (names : ElementId → Option String) (p : Project) : Project :=
  { p with declarations := p.declarations.map (Declaration.renamedBy names) }

/-- The new name of one element. -/
def nameFor (element : ElementId) (newName : String) (id : ElementId) : Option String :=
  if id = element then some newName else none

namespace Code

/-- Mapping code maps its references. -/
@[simp] theorem references_mapReferences (f : Reference → Reference) (c : Code) :
    (c.mapReferences f).references = c.references.map f := by
  simp only [references, mapReferences, List.filterMap_map, List.map_filterMap]
  apply List.filterMap_congr
  intro fragment _
  cases fragment <;> rfl

/-- Only what happens to the references of some code matters to it. -/
theorem mapReferences_congr {f g : Reference → Reference} {c : Code}
    (h : ∀ r ∈ c.references, f r = g r) : c.mapReferences f = c.mapReferences g := by
  obtain ⟨fragments⟩ := c
  simp only [references, List.mem_filterMap] at h
  simp only [mapReferences, Code.mk.injEq]
  apply List.map_congr_left
  intro fragment hfragment
  cases fragment with
  | text s => rfl
  | ref r => exact congrArg Fragment.ref (h r ⟨.ref r, hfragment, rfl⟩)

theorem mapReferences_mapReferences (f g : Reference → Reference) (c : Code) :
    (c.mapReferences f).mapReferences g = c.mapReferences (g ∘ f) := by
  simp only [mapReferences, List.map_map, Code.mk.injEq]
  apply List.map_congr_left
  intro fragment _
  cases fragment <;> rfl

theorem mapReferences_id (c : Code) : c.mapReferences id = c := by
  obtain ⟨fragments⟩ := c
  simp only [mapReferences, Code.mk.injEq]
  rw [List.map_congr_left (g := id), List.map_id]
  intro fragment _
  cases fragment <;> rfl

end Code

section Identities

variable (names : ElementId → Option String)

@[simp] theorem Reference.id_renamedBy (r : Reference) : (r.renamedBy names).id = r.id := rfl

@[simp] theorem Reference.target_renamedBy (r : Reference) :
    (r.renamedBy names).target = r.target := rfl

@[simp] theorem Reference.name_renamedBy (r : Reference) :
    (r.renamedBy names).name = (names r.target).getD r.name := rfl

@[simp] theorem Child.references_renamedBy (child : Child) :
    (child.renamedBy names).references = child.references.map (Reference.renamedBy names) := by
  cases child with
  | field f =>
    cases hvalue : f.initializer? with
    | none => simp [Child.renamedBy, Field.renamedBy, references, code?, hvalue]
    | some value =>
      simp [Child.renamedBy, Field.renamedBy, references, code?, hvalue, Code.renamedBy]
  | method m => simp [Child.renamedBy, Method.renamedBy, references, code?, Code.renamedBy]
  | code c => simp [Child.renamedBy, references, code?, Code.renamedBy]
  | _ => rfl

@[simp] theorem Child.declaredIds_renamedBy (child : Child) :
    (child.renamedBy names).declaredIds = child.declaredIds := by
  cases child <;> rfl

@[simp] theorem Declaration.id_renamedBy (d : Declaration) : (d.renamedBy names).id = d.id := rfl

@[simp] theorem Declaration.references_renamedBy (d : Declaration) :
    (d.renamedBy names).references = d.references.map (Reference.renamedBy names) := by
  simp [references, renamedBy, List.flatMap_map, List.map_flatMap]

@[simp] theorem Declaration.declaredIds_renamedBy (d : Declaration) :
    (d.renamedBy names).declaredIds = d.declaredIds := by
  simp [declaredIds, renamedBy, List.flatMap_map]

@[simp] theorem Project.references_renamedBy (p : Project) :
    (p.renamedBy names).references = p.references.map (Reference.renamedBy names) := by
  simp [references, renamedBy, List.flatMap_map, List.map_flatMap]

@[simp] theorem Project.declaredIds_renamedBy (p : Project) :
    (p.renamedBy names).declaredIds = p.declaredIds := by
  simp [declaredIds, renamedBy, List.flatMap_map]

/-- New names declare no element anew. -/
theorem Project.distinctElements_renamedBy {p : Project} :
    (p.renamedBy names).DistinctElements ↔ p.DistinctElements := by
  simp [DistinctElements]

end Identities

section Composition

variable (first second : ElementId → Option String)

/-- New names for elements that have new names already: the later name counts. -/
def namesThen (id : ElementId) : Option String := (second id).or (first id)

theorem Reference.renamedBy_renamedBy (r : Reference) :
    (r.renamedBy first).renamedBy second = r.renamedBy (namesThen first second) := by
  simp [renamedBy, renamed, namesThen, Option.getD_or]

theorem Code.renamedBy_renamedBy (c : Code) :
    (c.renamedBy first).renamedBy second = c.renamedBy (namesThen first second) := by
  rw [renamedBy, renamedBy, mapReferences_mapReferences]
  exact mapReferences_congr fun r _ => r.renamedBy_renamedBy first second

theorem Child.renamedBy_renamedBy (child : Child) :
    (child.renamedBy first).renamedBy second = child.renamedBy (namesThen first second) := by
  cases child with
  | field f =>
    simp only [Child.renamedBy, Field.renamedBy, Option.map_map, Child.field.injEq,
      Field.mk.injEq, true_and]
    refine ⟨by simp [namesThen, Option.getD_or], ?_⟩
    congr 1
    funext value
    exact value.renamedBy_renamedBy first second
  | method m =>
    simp only [Child.renamedBy, Method.renamedBy, Child.method.injEq, Method.mk.injEq, true_and,
      and_true]
    exact ⟨by simp [namesThen, Option.getD_or], m.body.renamedBy_renamedBy first second⟩
  | code c => exact congrArg Child.code (c.renamedBy_renamedBy first second)
  | _ => rfl

/-- Two passes of new names are one pass. -/
theorem Project.renamedBy_renamedBy (p : Project) :
    (p.renamedBy first).renamedBy second = p.renamedBy (namesThen first second) := by
  have hchildren : Child.renamedBy second ∘ Child.renamedBy first =
      Child.renamedBy (namesThen first second) :=
    funext (Child.renamedBy_renamedBy first second)
  have hdeclarations : Declaration.renamedBy second ∘ Declaration.renamedBy first =
      Declaration.renamedBy (namesThen first second) := by
    funext d
    simp [Declaration.renamedBy, hchildren]
  simp [renamedBy, hdeclarations]

end Composition

/-- Without new names nothing changes. -/
theorem Project.renamedBy_none (p : Project) : p.renamedBy (fun _ => none) = p := by
  have hcode : Code.renamedBy (fun _ => none) = id := funext Code.mapReferences_id
  have hchild : Child.renamedBy (fun _ => none) = id := by
    funext child
    cases child <;> simp [Child.renamedBy, Field.renamedBy, Method.renamedBy, hcode]
  have hdeclaration : Declaration.renamedBy (fun _ => none) = id := by
    funext d
    simp [Declaration.renamedBy, hchild]
  simp [renamedBy, hdeclaration]

end ClassToRecord
