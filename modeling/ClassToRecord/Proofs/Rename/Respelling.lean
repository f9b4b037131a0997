import ClassToRecord.Proofs.Rename.Run

namespace ClassToRecord

/-- A reference as a rename with some sites leaves it. -/
def Reference.respelled (refs : List RefId) (newName : String) (r : Reference) : Reference :=
  if refs.contains r.id then r.renamed newName else r

@[simp] theorem Reference.id_respelled (refs : List RefId) (newName : String) (r : Reference) :
    (r.respelled refs newName).id = r.id := by
  unfold respelled
  split <;> rfl

@[simp] theorem Reference.target_respelled (refs : List RefId) (newName : String)
    (r : Reference) : (r.respelled refs newName).target = r.target := by
  unfold respelled
  split <;> rfl

section Members

variable (element : ElementId) (newName : String)

/-- What does not depend on the names of fields and methods can be read off a child before one of
    them gets a new name. -/
theorem Child.read_renameMember {α : Type} (read : Child → α)
    (hfield : ∀ (f : Field) name, read (.field { f with name }) = read (.field f))
    (hmethod : ∀ (m : Method) name, read (.method { m with name }) = read (.method m))
    (child : Child) : read (child.renameMember element newName) = read child := by
  cases child with
  | field f =>
    rw [renameMember]
    split
    · exact hfield f newName
    · rfl
  | method m =>
    rw [renameMember]
    split
    · exact hmethod m newName
    · rfl
  | _ => rfl

/-- A new name for a member leaves the references of a declaration alone. -/
@[simp] theorem Declaration.references_renameMember (d : Declaration) :
    (d.renameMember element newName).references = d.references := by
  have hreferences : ∀ child : Child,
      (child.renameMember element newName).references = child.references :=
    Child.read_renameMember element newName Child.references (fun _ _ => rfl) (fun _ _ => rfl)
  simp [references, renameMember, List.flatMap_map, hreferences]

@[simp] theorem Declaration.declaredIds_renameMember (d : Declaration) :
    (d.renameMember element newName).declaredIds = d.declaredIds := by
  have hids : ∀ child : Child,
      (child.renameMember element newName).declaredIds = child.declaredIds :=
    Child.read_renameMember element newName Child.declaredIds (fun _ _ => rfl) (fun _ _ => rfl)
  simp [declaredIds, renameMember, List.flatMap_map, hids]

@[simp] theorem Declaration.hasMember_renameMember (d : Declaration) (other : ElementId) :
    (d.renameMember element newName).hasMember other = d.hasMember other := by
  have hmember : ∀ child : Child,
      (child.renameMember element newName).isMember other = child.isMember other :=
    Child.read_renameMember element newName (Child.isMember other) (fun _ _ => rfl)
      (fun _ _ => rfl)
  simp [hasMember, renameMember, List.any_map, Function.comp_def, hmember]

theorem Declaration.map_id_fields_renameMember (d : Declaration) :
    (d.renameMember element newName).fields.map Field.id = d.fields.map Field.id := by
  have hfield : ∀ child : Child,
      (child.renameMember element newName).field?.map Field.id = child.field?.map Field.id :=
    Child.read_renameMember element newName (fun child => child.field?.map Field.id)
      (fun _ _ => rfl) (fun _ _ => rfl)
  simp [fields, renameMember, List.filterMap_map, List.map_filterMap, hfield]

/-- What a rename does not change in a declaration can be read off before it. -/
theorem Project.map_renameInOwner {α : Type} (read : Declaration → α)
    (hread : ∀ d, read (d.renameMember element newName) = read d) (ds : List Declaration) :
    (renameInOwner element newName ds).map read = ds.map read := by
  induction ds with
  | nil => rfl
  | cons d rest ih =>
    rw [renameInOwner]
    split
    · rw [List.map_cons, List.map_cons, hread]
    · rw [List.map_cons, List.map_cons, ih]

end Members

section Sites

variable (refs : List RefId) (newName : String)

/-- Mapping the code of a child maps its references. -/
theorem Child.references_mapCode (f : Reference → Reference) (child : Child) :
    (child.mapCode (Code.mapReferences f)).references = child.references.map f := by
  cases child with
  | field fld =>
    cases hvalue : fld.initializer? <;>
      simp [Child.mapCode, Child.references, Child.code?, hvalue]
  | method m => simp [Child.mapCode, Child.references, Child.code?]
  | code c => simp [Child.mapCode, Child.references, Child.code?]
  | _ => rfl

/-- A child whose code stays as it is stays as it is. -/
theorem Child.mapCode_eq_self {f : Code → Code} {child : Child}
    (h : ∀ c, child.code? = some c → f c = c) : child.mapCode f = child := by
  cases child with
  | field fld =>
    have hvalue : fld.initializer?.map f = fld.initializer? := by
      cases hcode : fld.initializer? with
      | none => rfl
      | some c => rw [Option.map_some, h c hcode]
    simp [Child.mapCode, hvalue]
  | method m => simp [Child.mapCode, h m.body rfl]
  | code c => simp [Child.mapCode, h c rfl]
  | _ => rfl

private theorem declaredIds_mapCode (f : Code → Code) (child : Child) :
    (child.mapCode f).declaredIds = child.declaredIds := by
  cases child <;> rfl

private theorem isMember_mapCode (f : Code → Code) (child : Child) (element : ElementId) :
    (child.mapCode f).isMember element = child.isMember element := by
  cases child <;> rfl

@[simp] theorem Declaration.references_respell (d : Declaration) :
    (d.respell refs newName).references =
      d.references.map (Reference.respelled refs newName) := by
  simp only [respell, mapReferences, references, List.flatMap_map, List.map_flatMap]
  congr 1
  funext child
  exact child.references_mapCode _

@[simp] theorem Declaration.declaredIds_respell (d : Declaration) :
    (d.respell refs newName).declaredIds = d.declaredIds := by
  simp [declaredIds, respell, mapReferences, List.flatMap_map, declaredIds_mapCode]

@[simp] theorem Declaration.hasMember_respell (d : Declaration) (element : ElementId) :
    (d.respell refs newName).hasMember element = d.hasMember element := by
  simp [hasMember, respell, mapReferences, List.any_map, Function.comp_def, isMember_mapCode]

theorem Declaration.map_id_fields_respell (d : Declaration) :
    (d.respell refs newName).fields.map Field.id = d.fields.map Field.id := by
  have hfield : ∀ (f : Code → Code) (child : Child),
      (child.mapCode f).field?.map Field.id = child.field?.map Field.id := by
    intro f child
    cases child <;> rfl
  simp [fields, respell, mapReferences, List.filterMap_map, List.map_filterMap, hfield]

end Sites

namespace Project

variable {p q : Project} {element : ElementId} {newName : String} {sites : List ReferenceSite}

/-- Whatever new names leave alone in a declaration can be read off before a rename, declaration by
    declaration. -/
theorem map_declarations_renameElement {α : Type} {read : Declaration → α}
    (hmember : ∀ d : Declaration, read (d.renameMember element newName) = read d)
    (hsites : ∀ (d : Declaration) (refs : List RefId), read (d.respell refs newName) = read d)
    (h : p.renameElement element newName sites = .ok q) :
    q.declarations.map read = p.declarations.map read := by
  obtain ⟨_, _, rfl⟩ := renameElement_eq_ok_iff.mp h
  simp only [List.map_map, Function.comp_def, hsites]
  exact map_renameInOwner element newName read hmember p.declarations

/-- A rename respells the references at its sites, whatever they refer to. -/
theorem references_renameElement (h : p.renameElement element newName sites = .ok q) :
    q.references =
      p.references.map (Reference.respelled (sites.map ReferenceSite.ref) newName) := by
  obtain ⟨_, _, rfl⟩ := renameElement_eq_ok_iff.mp h
  have howner := map_renameInOwner element newName Declaration.references
    (fun d => d.references_renameMember element newName) p.declarations
  simp only [references, List.flatMap_map, Declaration.references_respell, ← List.map_flatMap]
  rw [List.flatMap_def, howner, ← List.flatMap_def]

theorem map_id_references_renameElement (h : p.renameElement element newName sites = .ok q) :
    q.references.map Reference.id = p.references.map Reference.id := by
  rw [references_renameElement h, List.map_map]
  exact List.map_congr_left fun r _ => r.id_respelled _ newName

/-- It declares nothing anew. -/
theorem declaredIds_renameElement (h : p.renameElement element newName sites = .ok q) :
    q.declaredIds = p.declaredIds := by
  have hread : q.declarations.map Declaration.declaredIds =
      p.declarations.map Declaration.declaredIds := map_declarations_renameElement
    (fun d => d.declaredIds_renameMember element newName)
    (fun d refs => d.declaredIds_respell refs newName) h
  rw [declaredIds, List.flatMap_def, hread, ← List.flatMap_def, declaredIds]

/-- And members stay members. -/
theorem exists_hasMember_renameElement (h : p.renameElement element newName sites = .ok q)
    (member : ElementId) : (∃ d ∈ q.declarations, d.hasMember member = true) ↔
      ∃ d ∈ p.declarations, d.hasMember member = true := by
  have hread : q.declarations.map (Declaration.hasMember · member) =
      p.declarations.map (Declaration.hasMember · member) := map_declarations_renameElement
    (fun d => d.hasMember_renameMember element newName member)
    (fun d refs => d.hasMember_respell refs newName member) h
  have hany := congrArg (List.any · id) hread
  simp only [List.any_map, Function.comp_def, id_eq] at hany
  rw [← List.any_eq_true, ← List.any_eq_true, hany]

end Project

namespace RenamesTo

variable {sites : List ReferenceSite} {p q : Project} {entries : List (ElementId × String)}

/-- So can it before any number of renames. -/
theorem map_declarations {α : Type} {read : Declaration → α}
    (hmember : ∀ (d : Declaration) element newName, read (d.renameMember element newName) = read d)
    (hsites : ∀ (d : Declaration) refs newName, read (d.respell refs newName) = read d)
    (hrun : RenamesTo sites p entries q) :
    q.declarations.map read = p.declarations.map read := by
  induction hrun with
  | nil p => rfl
  | @cons p next q element newName rest hfirst _ ih =>
    rw [ih]
    exact Project.map_declarations_renameElement (fun d => hmember d element newName)
      (fun d refs => hsites d refs newName) hfirst

/-- Renames give out no ids. -/
theorem counters_eq (hrun : RenamesTo sites p entries q) :
    q.lastElement = p.lastElement ∧ q.lastReference = p.lastReference := by
  induction hrun with
  | nil p => exact ⟨rfl, rfl⟩
  | cons hfirst _ ih =>
    obtain ⟨_, _, rfl⟩ := Project.renameElement_eq_ok_iff.mp hfirst
    exact ih

theorem map_id_references_eq (hrun : RenamesTo sites p entries q) :
    q.references.map Reference.id = p.references.map Reference.id := by
  induction hrun with
  | nil p => rfl
  | cons hfirst _ ih => rw [ih, Project.map_id_references_renameElement hfirst]

theorem declaredIds_eq (hrun : RenamesTo sites p entries q) : q.declaredIds = p.declaredIds := by
  induction hrun with
  | nil p => rfl
  | cons hfirst _ ih => rw [ih, Project.declaredIds_renameElement hfirst]

/-- Renames leave fields and methods what they are. -/
theorem exists_hasMember_iff (hrun : RenamesTo sites p entries q) (member : ElementId) :
    (∃ d ∈ q.declarations, d.hasMember member = true) ↔
      ∃ d ∈ p.declarations, d.hasMember member = true := by
  induction hrun with
  | nil p => rfl
  | cons hfirst _ ih => rw [ih, Project.exists_hasMember_renameElement hfirst]

/-- Every element that renames concern is a field or a method, whatever their sites are. -/
theorem exists_hasMember (hrun : RenamesTo sites p entries q) :
    ∀ element ∈ entries.map Prod.fst, ∃ d ∈ p.declarations, d.hasMember element = true := by
  induction hrun with
  | nil p => simp
  | @cons p next q element newName rest hfirst hothers ih =>
    intro e he
    rcases List.mem_cons.mp he with rfl | he
    · obtain ⟨_, ⟨owner, howner, hmember⟩, _⟩ := Project.renameElement_eq_ok_iff.mp hfirst
      exact ⟨owner, List.mem_of_find?_eq_some howner, hmember⟩
    · exact (Project.exists_hasMember_renameElement hfirst e).mp (ih e he)

/-- Every declaration has the fields that it had. -/
theorem exists_declaration? (hrun : RenamesTo sites p entries q) {id : ElementId}
    {e : Declaration} (he : q.declaration? id = some e) :
    ∃ d, p.declaration? id = some d ∧ e.fields.map Field.id = d.fields.map Field.id := by
  have hread : q.declarations.map (fun d => (d.id, d.fields.map Field.id)) =
      p.declarations.map fun d => (d.id, d.fields.map Field.id) := hrun.map_declarations
    (fun d element newName => congrArg (d.id, ·) (d.map_id_fields_renameMember element newName))
    (fun d refs newName => congrArg (d.id, ·) (d.map_id_fields_respell refs newName))
  have hfound := congrArg (List.find? (·.1 = id)) hread
  rw [List.find?_map, List.find?_map] at hfound
  change Option.map _ (q.declaration? id) = Option.map _ (p.declaration? id) at hfound
  rw [he, Option.map_some] at hfound
  obtain ⟨d, hd, hsame⟩ := Option.map_eq_some_iff.mp hfound.symm
  exact ⟨d, hd, (Prod.mk.inj hsame).2.symm⟩

/-- Renames of fields and methods go through, one after the other, if all sites are those of
    references that are there. -/
theorem exists_renamesTo (hdistinct : p.DistinctElements)
    (hmembers : ∀ element ∈ entries.map Prod.fst, ∃ d ∈ p.declarations, d.hasMember element = true)
    (hsites : ∀ site ∈ sites, site.ref ∈ p.references.map Reference.id) :
    ∃ q, RenamesTo sites p entries q := by
  induction entries generalizing p with
  | nil => exact ⟨p, .nil p⟩
  | cons entry rest ih =>
    obtain ⟨element, newName⟩ := entry
    obtain ⟨⟨owner, howner, hmember⟩, hothers⟩ := List.forall_mem_cons.mp hmembers
    have hdeclares : owner.declares element = true := Declaration.declares_of_hasMember hmember
    have hfault : p.siteFault? element (sitesFor element sites) = none := by
      refine Project.siteFault?_eq_none_iff.mpr fun site hsite => ?_
      obtain ⟨hsite, hown⟩ := List.mem_filter.mp hsite
      exact ⟨of_decide_eq_true hown, hsites site hsite⟩
    have hfirst : p.renameElement element newName (sitesFor element sites) = .ok _ :=
      Project.renameElement_eq_ok_iff.mpr
        ⟨hfault, ⟨owner, hdistinct.owner?_eq_some_iff.mpr ⟨howner, hdeclares⟩, hmember⟩, rfl⟩
    -- What the first rename leaves is in the same order for the others.
    obtain ⟨q, hrest⟩ := ih
      (by rw [Project.DistinctElements, Project.declaredIds_renameElement hfirst]; exact hdistinct)
      (fun e he => (Project.exists_hasMember_renameElement hfirst e).mpr (hothers e he))
      (by rw [Project.map_id_references_renameElement hfirst]; exact hsites)
    exact ⟨q, .cons hfirst hrest⟩

/-- Renames keep the references of a project. One that stands at the sites of one element, and of no
    other, ends with the name that this element gets. -/
theorem exists_reference (hrun : RenamesTo sites p entries q)
    (hkeys : (entries.map Prod.fst).Nodup) {r : Reference} (hr : r ∈ q.references) :
    ∃ old ∈ p.references, r.id = old.id ∧ r.target = old.target ∧ ∀ element,
      (∀ e ∈ entries.map Prod.fst,
        old.id ∈ (sitesFor e sites).map ReferenceSite.ref ↔ e = element) →
      r.name = (entries.lookup element).getD old.name := by
  induction hrun with
  | nil p => exact ⟨r, hr, rfl, rfl, fun _ _ => rfl⟩
  | @cons p next q first newName rest hfirst hothers ih =>
    rw [List.map_cons, List.nodup_cons] at hkeys
    obtain ⟨hnew, hrest⟩ := hkeys
    obtain ⟨mid, hmid, hid, htarget, hname⟩ := ih hrest hr
    rw [Project.references_renameElement hfirst] at hmid
    obtain ⟨old, hold, rfl⟩ := List.mem_map.mp hmid
    rw [Reference.id_respelled] at hid hname
    rw [Reference.target_respelled] at htarget
    refine ⟨old, hold, hid, htarget, fun element hsites => ?_⟩
    rw [hname element fun e he => hsites e (List.mem_cons_of_mem _ he), List.lookup_cons]
    have hhere := hsites first List.mem_cons_self
    by_cases helement : element = first
    · subst helement
      have hsite := List.contains_iff_mem.mpr (hhere.mpr rfl)
      rw [lookup_eq_none_of_not_mem hnew, beq_self_eq_true, Reference.respelled, if_pos hsite]
      rfl
    · have hother : (element == first) = false := beq_false_of_ne helement
      have hsite : ¬ ((sitesFor first sites).map ReferenceSite.ref).contains old.id = true :=
        fun h => helement (hhere.mp (List.contains_iff_mem.mp h)).symm
      rw [hother, Reference.respelled, if_neg hsite]

end RenamesTo

end ClassToRecord
