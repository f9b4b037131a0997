import ClassToRecord.Proofs.Rename.Order
import ClassToRecord.Proofs.Traversal

open ClassToRecord.Traversal

namespace ClassToRecord

/-- The declaration has a method or a field with the id. -/
def Declaration.DeclaresMember (d : Declaration) (element : ElementId) : Prop :=
  (∃ m, .method m ∈ d.children ∧ m.id = element) ∨ ∃ f, .field f ∈ d.children ∧ f.id = element

theorem Declaration.hasMember_iff {d : Declaration} {element : ElementId} :
    d.hasMember element = true ↔ d.DeclaresMember element := by
  rw [hasMember, List.any_eq_true]
  constructor
  · rintro ⟨child, hchild, hmember⟩
    cases child with
    | field f => exact .inr ⟨f, hchild, of_decide_eq_true hmember⟩
    | method m => exact .inl ⟨m, hchild, of_decide_eq_true hmember⟩
    | _ => cases hmember
  · rintro (⟨m, hm, hid⟩ | ⟨f, hf, hid⟩)
    · exact ⟨.method m, hm, decide_eq_true hid⟩
    · exact ⟨.field f, hf, decide_eq_true hid⟩

/-- A reference stands in the code of a child. -/
inductive Child.ContainsReference (r : Reference) : Child → Prop where
  | code {c : Code} (h : .ref r ∈ c.fragments) : ContainsReference r (.code c)
  | initializer {f : Field} {c : Code} (hvalue : f.initializer? = some c)
      (h : .ref r ∈ c.fragments) : ContainsReference r (.field f)
  | body {m : Method} (h : .ref r ∈ m.body.fragments) : ContainsReference r (.method m)

theorem Code.mem_references_iff {c : Code} {r : Reference} :
    r ∈ c.references ↔ .ref r ∈ c.fragments := by
  rw [references, List.mem_filterMap]
  constructor
  · rintro ⟨fragment, hfragment, hr⟩
    cases fragment with
    | text s => cases hr
    | ref r' =>
      cases hr
      exact hfragment
  · intro h
    exact ⟨.ref r, h, rfl⟩

theorem Child.mem_references_iff {child : Child} {r : Reference} :
    r ∈ child.references ↔ child.ContainsReference r := by
  constructor
  · intro h
    cases child with
    | code c => exact .code (Code.mem_references_iff.mp h)
    | method m => exact .body (Code.mem_references_iff.mp h)
    | field f =>
      cases hvalue : f.initializer? with
      | none =>
        rw [references, code?, hvalue] at h
        cases h
      | some c =>
        rw [references, code?, hvalue] at h
        exact .initializer hvalue (Code.mem_references_iff.mp h)
    | _ => cases h
  · intro h
    cases h with
    | code h => exact Code.mem_references_iff.mpr h
    | body h => exact Code.mem_references_iff.mpr h
    | initializer hvalue h =>
      rw [references, code?, hvalue]
      exact Code.mem_references_iff.mpr h

/-- A reference with the id stands somewhere in the project. -/
def Project.HasReference (p : Project) (ref : RefId) : Prop :=
  ∃ d ∈ p.declarations, ∃ child ∈ d.children, ∃ r, child.ContainsReference r ∧ r.id = ref

theorem Project.hasReference_iff {p : Project} {ref : RefId} :
    p.HasReference ref ↔ ref ∈ p.references.map Reference.id := by
  simp only [HasReference, List.mem_map, references, Declaration.references, List.mem_flatMap,
    Child.mem_references_iff]
  constructor
  · rintro ⟨d, hd, child, hchild, r, hr, hid⟩
    exact ⟨r, ⟨d, hd, child, hchild, hr⟩, hid⟩
  · rintro ⟨r, ⟨d, hd, child, hchild, hr⟩, hid⟩
    exact ⟨d, hd, child, hchild, r, hr, hid⟩

section Relations

variable (element : ElementId) (newName : String) (refs : List RefId)

/-- What becomes of a fragment when the references with some ids get a new name. -/
inductive Fragment.TurnsInto : Fragment → Fragment → Prop where
  | text (s : String) : TurnsInto (.text s) (.text s)
  | ref (r : Reference) :
      TurnsInto (.ref r) (.ref { r with name := if r.id ∈ refs then newName else r.name })

/-- Code keeps its fragments in their order, but for the names of these references. -/
def Code.TurnsInto (old new : Code) : Prop :=
  List.Forall₂ (Fragment.TurnsInto newName refs) old.fragments new.fragments

/-- What becomes of a child when a member and these references get a new name. Everything else about
    a field or a method is as it was, and so is a child that is neither and has no code. -/
inductive Child.TurnsInto : Child → Child → Prop where
  | modifiers (m : Modifiers) : TurnsInto (.modifiers m) (.modifiers m)
  | keyword (k : Keyword) : TurnsInto (.keyword k) (.keyword k)
  | identifier (name : String) : TurnsInto (.identifier name) (.identifier name)
  | typeParameters (text : String) : TurnsInto (.typeParameters text) (.typeParameters text)
  | header (components : List Parameter) : TurnsInto (.header components) (.header components)
  | trivia (t : Trivia) : TurnsInto (.trivia t) (.trivia t)
  | code {old new : Code} (h : old.TurnsInto newName refs new) : TurnsInto (.code old) (.code new)
  | field (f : Field) {initializer? : Option Code}
      (h : Option.Rel (Code.TurnsInto newName refs) f.initializer? initializer?) :
      TurnsInto (.field f) (.field { f with
        name := if f.id = element then newName else f.name
        initializer? })
  | method (m : Method) {body : Code} (h : m.body.TurnsInto newName refs body) :
      TurnsInto (.method m) (.method { m with
        name := if m.id = element then newName else m.name
        body })

/-- A declaration keeps its id, its file, and its children in their order. -/
structure Declaration.TurnsInto (old new : Declaration) : Prop where
  id : new.id = old.id
  file : new.file = old.file
  children : List.Forall₂ (Child.TurnsInto element newName refs) old.children new.children

/-- A project keeps its declarations in their order and all ids that it has given out. -/
structure Project.TurnsInto (old new : Project) : Prop where
  declarations : List.Forall₂ (Declaration.TurnsInto element newName refs) old.declarations
    new.declarations
  lastElement : new.lastElement = old.lastElement
  lastReference : new.lastReference = old.lastReference

end Relations

section Functions

variable {element : ElementId} {newName : String} {refs : List RefId}

/-- There is one thing that a fragment turns into. -/
theorem Fragment.turnsInto_iff {old new : Fragment} : old.TurnsInto newName refs new ↔
    new = old.mapReference (Reference.respelled refs newName) := by
  have href : ∀ r : Reference, r.respelled refs newName =
      { r with name := if r.id ∈ refs then newName else r.name } := by
    intro r
    by_cases hr : r.id ∈ refs <;> simp [Reference.respelled, Reference.renamed, hr]
  constructor
  · rintro (s | r)
    · rfl
    · rw [mapReference, href]
  · rintro rfl
    cases old with
    | text s => exact .text s
    | ref r =>
      rw [mapReference, href]
      exact .ref r

theorem Code.turnsInto_iff {old new : Code} : old.TurnsInto newName refs new ↔
    new = old.mapReferences (Reference.respelled refs newName) := by
  obtain ⟨fragments⟩ := new
  rw [TurnsInto, forall₂_iff_eq_map (@Fragment.turnsInto_iff newName refs), mapReferences,
    Code.mk.injEq]

private theorem rel_turnsInto_iff {old? new? : Option Code} :
    Option.Rel (Code.TurnsInto newName refs) old? new? ↔
      new? = old?.map (Code.mapReferences (Reference.respelled refs newName)) := by
  constructor
  · rintro (h | _)
    · exact congrArg some (Code.turnsInto_iff.mp h)
    · rfl
  · rintro rfl
    cases old? with
    | none => exact .none
    | some c => exact .some (Code.turnsInto_iff.mpr rfl)

theorem Child.mapCode_renameMember_field (f : Field) (spell : Code → Code) :
    ((Child.field f).renameMember element newName).mapCode spell =
      .field { f with
        name := if f.id = element then newName else f.name
        initializer? := f.initializer?.map spell } := by
  by_cases hid : f.id = element <;> simp [renameMember, mapCode, hid]

theorem Child.mapCode_renameMember_method (m : Method) (spell : Code → Code) :
    ((Child.method m).renameMember element newName).mapCode spell =
      .method { m with
        name := if m.id = element then newName else m.name
        body := spell m.body } := by
  by_cases hid : m.id = element <;> simp [renameMember, mapCode, hid]

theorem Child.turnsInto_iff {old new : Child} : old.TurnsInto element newName refs new ↔
    new = (old.renameMember element newName).mapCode
      (Code.mapReferences (Reference.respelled refs newName)) := by
  constructor
  · intro h
    cases h with
    | code h =>
      rw [Code.turnsInto_iff.mp h]
      rfl
    | field f h => rw [rel_turnsInto_iff.mp h, mapCode_renameMember_field]
    | method m h => rw [Code.turnsInto_iff.mp h, mapCode_renameMember_method]
    | _ => rfl
  · rintro rfl
    cases old with
    | field f =>
      rw [mapCode_renameMember_field]
      exact .field f (rel_turnsInto_iff.mpr rfl)
    | method m =>
      rw [mapCode_renameMember_method]
      exact .method m (Code.turnsInto_iff.mpr rfl)
    | code c => exact .code (Code.turnsInto_iff.mpr rfl)
    | modifiers m => exact .modifiers m
    | keyword k => exact .keyword k
    | identifier name => exact .identifier name
    | typeParameters text => exact .typeParameters text
    | header components => exact .header components
    | trivia t => exact .trivia t

theorem Declaration.turnsInto_iff {old new : Declaration} :
    old.TurnsInto element newName refs new ↔
      new = (old.renameMember element newName).respell refs newName := by
  have hmap : ((old.renameMember element newName).respell refs newName).children =
      old.children.map fun child => (child.renameMember element newName).mapCode
        (Code.mapReferences (Reference.respelled refs newName)) := List.map_map
  constructor
  · rintro ⟨hid, hfile, hchildren⟩
    rw [forall₂_iff_eq_map (@Child.turnsInto_iff element newName refs), ← hmap] at hchildren
    obtain ⟨id, file, children⟩ := new
    cases hid
    cases hfile
    cases hchildren
    rfl
  · rintro rfl
    refine ⟨rfl, rfl, ?_⟩
    rw [forall₂_iff_eq_map (@Child.turnsInto_iff element newName refs), hmap]

/-- Where elements differ, nothing but the first owner of the element has it, so that a project turns
    into just what a rename makes of it. -/
theorem Project.turnsInto_iff {old new : Project} (hdistinct : old.DistinctElements) :
    old.TurnsInto element newName refs new ↔ new = old.renamedAt element newName refs := by
  have hmap : (old.renamedAt element newName refs).declarations = old.declarations.map fun d =>
      (d.renameMember element newName).respell refs newName := by
    rw [renamedAt, renameInOwner_eq_map hdistinct, List.map_map]
    rfl
  constructor
  · rintro ⟨hdeclarations, hlast, hlastReference⟩
    rw [forall₂_iff_eq_map (@Declaration.turnsInto_iff element newName refs), ← hmap]
      at hdeclarations
    obtain ⟨declarations, lastElement, lastReference⟩ := new
    cases hdeclarations
    cases hlast
    cases hlastReference
    rfl
  · rintro rfl
    refine ⟨?_, rfl, rfl⟩
    rw [forall₂_iff_eq_map (@Declaration.turnsInto_iff element newName refs), hmap]

end Functions

end ClassToRecord
