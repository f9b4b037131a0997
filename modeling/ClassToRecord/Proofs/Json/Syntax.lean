import ClassToRecord.Json.Syntax
import ClassToRecord.Proofs.Json.Basic

namespace ClassToRecord

open Json

attribute [local simp] List.lookup_append

/-- An id that the format can write. -/
def ElementId.Writable (id : ElementId) : Prop := id.index < idBound

/-- An id that the format can write. -/
def RefId.Writable (id : RefId) : Prop := id.index < idBound

instance (id : ElementId) : Decidable id.Writable := inferInstanceAs (Decidable (_ < _))

instance (id : RefId) : Decidable id.Writable := inferInstanceAs (Decidable (_ < _))

theorem ElementId.survives {id : ElementId} (h : id.Writable) : Survives id :=
  ⟨fun _ => congrArg (Option.map ElementId.mk) (nat?_int h), nofun⟩

theorem RefId.survives {id : RefId} (h : id.Writable) : Survives id :=
  ⟨fun _ => congrArg (Option.map RefId.mk) (nat?_int h), nofun⟩

theorem Visibility.survives (v : Visibility) : Survives v :=
  ⟨fun _ => by cases v <;> rfl, nofun⟩

theorem Keyword.survives (k : Keyword) : Survives k :=
  ⟨fun _ => by cases k <;> rfl, nofun⟩

theorem Modifiers.survives (m : Modifiers) : Survives m := by
  refine ⟨fun held => ?_, nofun⟩
  refine (bind_required m.visibility.survives (by simp)).trans ?_
  exact bind_defaulted (survives_list fun s _ => survives_string s) (lookup_ifAny (by simp))

structure Reference.Writable (r : Reference) : Prop where
  id : r.id.Writable
  target : r.target.Writable

instance (r : Reference) : Decidable r.Writable :=
  decidable_of_iff (r.id.Writable ∧ r.target.Writable)
    ⟨fun ⟨h₁, h₂⟩ => ⟨h₁, h₂⟩, fun ⟨h₁, h₂⟩ => ⟨h₁, h₂⟩⟩

theorem Reference.survives {r : Reference} (h : r.Writable) : Survives r := by
  refine ⟨fun held => ?_, nofun⟩
  refine (bind_required (RefId.survives h.id) (by simp)).trans ?_
  refine (bind_required (ElementId.survives h.target) (by simp)).trans ?_
  exact bind_required (survives_string r.name) (by simp)

/-- A fragment survives with the reference that it may be. -/
theorem Fragment.survives {f : Fragment} (h : ∀ r ∈ f.reference?, r.Writable) :
    Survives f := by
  cases f with
  | text s =>
    refine ⟨fun held => ?_, nofun⟩
    exact bind_tagged? (by decide)
  | ref r =>
    refine ⟨fun held => ?_, nofun⟩
    refine (bind_tagged? (by decide)).trans ?_
    exact congrArg (Option.map Fragment.ref) ((Reference.survives (h r rfl)).decode?_encode _)

/-- Code in which all ids can be written. -/
def Code.Writable (c : Code) : Prop := ∀ r ∈ c.references, r.Writable

theorem Code.survives {c : Code} (h : c.Writable) : Survives c := by
  have hfragments : Survives c.fragments := survives_list fun f hf =>
    Fragment.survives fun r hr => h r (List.mem_filterMap.mpr ⟨f, hf, hr⟩)
  exact ⟨fun held => congrArg (Option.map Code.mk) (hfragments.decode?_encode held), nofun⟩

theorem Parameter.survives {p : Parameter} (h : p.id.Writable) : Survives p := by
  refine ⟨fun held => ?_, nofun⟩
  refine (bind_required (ElementId.survives h) (by simp)).trans ?_
  refine (bind_required (survives_string p.type) (by simp)).trans ?_
  exact bind_required (survives_string p.name) (by simp)

structure Field.Writable (f : Field) : Prop where
  id : f.id.Writable
  initializer : ∀ code ∈ f.initializer?, code.Writable

theorem Field.survives {f : Field} (h : f.Writable) : Survives f := by
  refine ⟨fun held => ?_, nofun⟩
  refine (bind_required (ElementId.survives h.id) (by simp)).trans ?_
  refine (bind_required f.modifiers.survives (by simp)).trans ?_
  refine (bind_required (survives_string f.type) (by simp)).trans ?_
  refine (bind_required (survives_string f.name) (by simp)).trans ?_
  exact bind_optional (fun code hcode => Code.survives (h.initializer code hcode)) (by simp)

structure Method.Writable (m : Method) : Prop where
  id : m.id.Writable
  parameters : ∀ p ∈ m.parameters, p.id.Writable
  body : m.body.Writable
  superMethods : ∀ s ∈ m.superMethods, s.Writable

theorem Method.survives {m : Method} (h : m.Writable) : Survives m := by
  refine ⟨fun held => ?_, nofun⟩
  refine (bind_required (ElementId.survives h.id) (by simp)).trans ?_
  refine (bind_required m.modifiers.survives (by simp)).trans ?_
  refine (bind_optional (fun type (_ : m.returnType? = some type) => survives_string type)
    (by simp)).trans ?_
  refine (bind_required (survives_string m.name) (by simp)).trans ?_
  have hparameters : Survives m.parameters :=
    survives_list fun p hp => Parameter.survives (h.parameters p hp)
  refine (bind_defaulted hparameters (.inl (by simp))).trans ?_
  refine (bind_required (Code.survives h.body) (by simp)).trans ?_
  have hsupers : Survives m.superMethods :=
    survives_list fun s hs => ElementId.survives (h.superMethods s hs)
  exact bind_defaulted hsupers (lookup_ifAny (by simp))

theorem Trivia.survives (t : Trivia) : Survives t := by
  cases t with
  | whitespace s => exact ⟨fun _ => bind_tagged? (by decide), nofun⟩
  | comment s => exact ⟨fun _ => bind_tagged? (by decide), nofun⟩

namespace Child

/-- A child in which all ids can be written. -/
structure Writable (child : Child) : Prop where
  declared : ∀ id ∈ child.declaredIds, id.Writable
  references : ∀ r ∈ child.references, r.Writable
  superMethods : ∀ m ∈ child.method?, ∀ s ∈ m.superMethods, s.Writable

instance (child : Child) : Decidable child.Writable :=
  decidable_of_iff ((∀ id ∈ child.declaredIds, id.Writable) ∧
      (∀ r ∈ child.references, r.Writable) ∧
      ∀ m ∈ child.method?, ∀ s ∈ m.superMethods, s.Writable)
    ⟨fun ⟨h₁, h₂, h₃⟩ => ⟨h₁, h₂, h₃⟩, fun ⟨h₁, h₂, h₃⟩ => ⟨h₁, h₂, h₃⟩⟩

/-- What is kept beside the kind of a child is enough to read it again. -/
theorem ofNode?_toNode {child : Child} (h : child.Writable) (held : Bool) :
    ofNode? child.toNode.1 held child.toNode.2 = some child := by
  cases child with
  | modifiers m => exact congrArg (Option.map modifiers) (m.survives.decode?_encode held)
  | keyword k =>
    have hread : (obj (entry "keyword" k)).required held "keyword" = some k :=
      required_eq_some k.survives (by simp)
    exact congrArg (Option.map keyword) hread
  | identifier name =>
    have hread : (obj (entry "name" name)).required held "name" = some name :=
      required_eq_some (survives_string name) (by simp)
    exact congrArg (Option.map identifier) hread
  | typeParameters text =>
    have hread : (obj (entry "text" text)).required held "text" = some text :=
      required_eq_some (survives_string text) (by simp)
    exact congrArg (Option.map typeParameters) hread
  | header components =>
    have hcomponents : Survives components := survives_list fun p hp =>
      Parameter.survives (h.declared p.id (List.mem_map_of_mem hp))
    have hread : (obj (entry "components" components)).required held "components" =
        some components := required_eq_some hcomponents (by simp)
    exact congrArg (Option.map header) hread
  | field f =>
    have hfield : f.Writable := by
      refine ⟨h.declared f.id List.mem_cons_self, fun code hcode r hr => h.references r ?_⟩
      rw [references, code?, hcode]
      exact hr
    exact congrArg (Option.map field) ((Field.survives hfield).decode?_encode held)
  | method m =>
    have hmethod : m.Writable :=
      ⟨h.declared m.id List.mem_cons_self,
        fun p hp => h.declared p.id (List.mem_cons_of_mem _ (List.mem_map_of_mem hp)),
        h.references, h.superMethods m rfl⟩
    exact congrArg (Option.map method) ((Method.survives hmethod).decode?_encode held)
  | trivia t => exact congrArg (Option.map trivia) (t.survives.decode?_encode held)
  | code c => exact congrArg (Option.map code) ((Code.survives h.references).decode?_encode held)

theorem survives {child : Child} (h : child.Writable) : Survives child :=
  ⟨fun _ => (bind_tagged? (by decide)).trans (ofNode?_toNode h _), nofun⟩

end Child

/-- A declaration in which all ids can be written. -/
structure Declaration.Writable (d : Declaration) : Prop where
  id : d.id.Writable
  children : ∀ child ∈ d.children, child.Writable

instance (d : Declaration) : Decidable d.Writable :=
  decidable_of_iff (d.id.Writable ∧ ∀ child ∈ d.children, child.Writable)
    ⟨fun ⟨h₁, h₂⟩ => ⟨h₁, h₂⟩, fun ⟨h₁, h₂⟩ => ⟨h₁, h₂⟩⟩

/-- A declaration survives, whatever children it has. -/
theorem Declaration.survives {d : Declaration} (h : d.Writable) : Survives d := by
  refine ⟨fun held => ?_, nofun⟩
  refine (bind_required (ElementId.survives h.id) (by simp)).trans ?_
  refine (bind_required (survives_string d.file) (by simp)).trans ?_
  have hchildren : Survives d.children :=
    survives_list fun child hchild => Child.survives (h.children child hchild)
  exact bind_required hchildren (by simp)

end ClassToRecord
