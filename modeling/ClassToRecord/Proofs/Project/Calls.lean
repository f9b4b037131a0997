import ClassToRecord.Proofs.Project.Building

namespace ClassToRecord.DeclarationBuilder

/-- What a builder can be told. -/
inductive Call where
  | modifiers (m : Modifiers)
  | typeParameters (text : String)
  | implements (clause : String)
  | parameter (type name : String)
  | field (m : Modifiers) (type name : String) (initializer? : Option Code)
  | method (m : Modifiers) (returnType name : String) (parameters : List Parameter) (body : Code)
  | abstractMethod (m : Modifiers) (returnType name : String)
  | accessor (m : Modifiers) (name : String) (field : ElementId)
  | constructor (m : Modifiers) (parameters : List Parameter) (body : Code)
  | canonicalConstructor (m : Modifiers) (fields : List ElementId)
  | overrides (method superMethod : ElementId)
  | comment (text : String)
  | code (code : Code)

/-- Whether a call is about what stands before the members, or about a member that is there. -/
def Call.isDirective : Call → Bool
  | .modifiers _ | .typeParameters _ | .implements _ | .overrides _ _ => true
  | _ => false

/-- The builder after a call, whatever the call answers. -/
def perform (b : DeclarationBuilder) : Call → DeclarationBuilder
  | .modifiers m => b.modifiers m
  | .typeParameters text => b.typeParameters text
  | .implements clause => b.implements clause
  | .parameter type name => (b.parameter type name).2
  | .field m type name initializer? => (b.field m type name initializer?).2
  | .method m returnType name parameters body => (b.method m returnType name parameters body).2
  | .abstractMethod m returnType name => (b.abstractMethod m returnType name).2
  | .accessor m name field => (b.accessor m name field).2
  | .constructor m parameters body => (b.constructor m parameters body).2
  | .canonicalConstructor m fields => (b.canonicalConstructor m fields).2
  | .overrides method superMethod => b.overrides method superMethod
  | .comment text => b.comment text
  | .code code => b.code code

def performAll (b : DeclarationBuilder) (calls : List Call) : DeclarationBuilder :=
  calls.foldl perform b

/-- No call writes a clause once a member is written. -/
def ClausesFirst (b : DeclarationBuilder) (calls : List Call) : Prop :=
  ∀ before clause after, calls = before ++ .implements clause :: after →
    (b.performAll before).opened = false

theorem clausesFirst_nil (b : DeclarationBuilder) : b.ClausesFirst [] := by
  intro before clause after hcalls
  simp at hcalls

theorem clausesFirst_cons {b : DeclarationBuilder} {call : Call} {rest : List Call} :
    b.ClausesFirst (call :: rest) ↔
      (∀ clause, call = .implements clause → b.opened = false) ∧
        (b.perform call).ClausesFirst rest := by
  constructor
  · intro h
    refine ⟨fun clause hcall => h [] clause rest (hcall ▸ rfl), fun before clause after hrest => ?_⟩
    exact h (call :: before) clause after (hrest ▸ rfl)
  · rintro ⟨hcall, hrest⟩ before clause after hcalls
    cases before with
    | nil => exact hcall clause (List.cons.inj hcalls).1
    | cons first before =>
      obtain ⟨rfl, hlater⟩ := List.cons.inj hcalls
      exact hrest before clause after hlater

/-- The declaration as it stands in the project once the builder is finished. -/
def handedOver (b : DeclarationBuilder) : Declaration :=
  (b.closed.number b.project.lastReference).1

def newMethod (b : DeclarationBuilder) (modifiers : Modifiers) (returnType? : Option String)
    (name : String) (parameters : List Parameter) (body : Code) : Child :=
  .method { id := b.allocate.1, modifiers, returnType?, name, parameters, body }

def newConstructor (b : DeclarationBuilder) (modifiers : Modifiers) (parameters : List Parameter)
    (body : Code) : Child :=
  b.newMethod modifiers none (b.declaration.name?.getD "") parameters body

/-- The member that a call adds. One that names an unknown field adds none. -/
def memberOf? (b : DeclarationBuilder) : Call → Option Child
  | .field m type name initializer? =>
    some (.field { id := b.allocate.1, modifiers := m, type, name, initializer? })
  | .method m returnType name parameters body =>
    some (b.newMethod m (some returnType) name parameters body)
  | .abstractMethod m returnType name =>
    some (b.newMethod m (some returnType) name [] (Code.ofText ";"))
  | .accessor m name field =>
    (b.field? field).toOption.map fun f =>
      b.newMethod m (some f.type) name []
        (Code.ofText " \x7b\n        return " ++ Code.ofReference field f.name ++
          Code.ofText ";\n    \x7d")
  | .constructor m parameters body => some (b.newConstructor m parameters body)
  | .canonicalConstructor m fields =>
    (b.assignFields fields).1.toOption.map fun (parameters, body) =>
      (b.assignFields fields).2.newConstructor m parameters
        (Code.ofText " \x7b" ++ body ++ Code.ofText "\n    \x7d")
  | .comment text => some (.trivia (.comment text))
  | .code code => some (.code code)
  | _ => none

/-- What is no method is passed over in the search for one. -/
theorem addSuperMethod_cons {child : Child} (h : child.method? = none)
    (method superMethod : ElementId) (rest : List Child) :
    addSuperMethod method superMethod (child :: rest) =
      child :: addSuperMethod method superMethod rest := by
  cases child with
  | method m => cases h
  | _ => rfl

/-- The id of a member that has one. -/
def memberId? : Child → Option ElementId
  | .field f => some f.id
  | .method m => some m.id
  | _ => none

/-- One builder comes after another by giving out ids only. -/
structure After (b b' : DeclarationBuilder) : Prop where
  declaration : b'.declaration = b.declaration
  opened : b'.opened = b.opened
  given : b.project.lastElement ≤ b'.project.lastElement

namespace After

variable {b b' b'' : DeclarationBuilder}

theorem refl (b : DeclarationBuilder) : After b b := ⟨rfl, rfl, Nat.le_refl _⟩

theorem trans (h : After b b') (h' : After b' b'') : After b b'' :=
  ⟨h'.declaration.trans h.declaration, h'.opened.trans h.opened, Nat.le_trans h.given h'.given⟩

theorem allocate (b : DeclarationBuilder) : After b b.allocate.2 := ⟨rfl, rfl, Nat.le_succ _⟩

end After

variable {b : DeclarationBuilder}

theorem after_assignFields (b : DeclarationBuilder) (fields : List ElementId) :
    After b (b.assignFields fields).2 := by
  induction fields generalizing b with
  | nil => exact .refl b
  | cons id rest ih =>
    rw [assignFields]
    split
    · exact .refl b
    · next f _ =>
      have hparameter : After b (b.parameter f.type f.name).2 := ⟨rfl, rfl, Nat.le_succ _⟩
      exact hparameter.trans (ih _)

/-- A call that adds a member does nothing else to the declaration, and the member has a new id. -/
theorem perform_of_memberOf? {call : Call} {child : Child} (h : b.memberOf? call = some child) :
    ∃ b', After b b' ∧ b.perform call = b'.member child ∧
      ∀ id, memberId? child = some id →
        b.project.lastElement < id.index ∧ id.index ≤ b'.project.lastElement := by
  have hnew : ∀ b₀, After b b₀ → ∀ child, memberId? child = some b₀.allocate.1 →
      ∀ id, memberId? child = some id →
        b.project.lastElement < id.index ∧ id.index ≤ b₀.allocate.2.project.lastElement := by
    intro b₀ hafter child hchild id hid
    obtain rfl := Option.some.inj (hchild.symm.trans hid)
    exact ⟨Nat.lt_succ_of_le hafter.given, Nat.le_refl _⟩
  have hmethod : ∀ b₀, After b b₀ → ∀ m returnType? name parameters body,
      ∃ b', After b b' ∧ (b₀.methodOrConstructor m returnType? name parameters body).2 =
          b'.member (b₀.newMethod m returnType? name parameters body) ∧
        ∀ id, memberId? (b₀.newMethod m returnType? name parameters body) = some id →
          b.project.lastElement < id.index ∧ id.index ≤ b'.project.lastElement :=
    fun b₀ hafter m returnType? name parameters body =>
      ⟨b₀.allocate.2, hafter.trans (.allocate b₀), rfl, hnew b₀ hafter _ rfl⟩
  cases call with
  | field m type name initializer? =>
    cases h
    exact ⟨b.allocate.2, .allocate b, rfl, hnew b (.refl b) _ rfl⟩
  | method m returnType name parameters body =>
    cases h
    exact hmethod b (.refl b) ..
  | abstractMethod m returnType name =>
    cases h
    exact hmethod b (.refl b) ..
  | accessor m name field =>
    cases hfield : b.field? field with
    | error failure =>
      rw [memberOf?, hfield] at h
      cases h
    | ok f =>
      rw [memberOf?, hfield] at h
      cases h
      simp only [perform, accessor, hfield]
      exact hmethod b (.refl b) ..
  | constructor m parameters body =>
    cases h
    exact hmethod b (.refl b) ..
  | canonicalConstructor m fields =>
    have hafter := b.after_assignFields fields
    cases hresult : b.assignFields fields with
    | mk result b₀ =>
      rw [memberOf?, hresult] at h
      rw [hresult] at hafter
      cases result with
      | error failure => cases h
      | ok pair =>
        cases h
        simp only [perform, canonicalConstructor, hresult]
        exact hmethod b₀ hafter ..
  | comment text =>
    cases h
    exact ⟨b, .refl b, rfl, nofun⟩
  | code code =>
    cases h
    exact ⟨b, .refl b, rfl, nofun⟩
  | _ => cases h

/-- A call that adds none does nothing to the declaration, unless it is about something else. -/
theorem perform_of_memberOf?_eq_none {call : Call} (h : b.memberOf? call = none)
    (hcall : call.isDirective = false) : After b (b.perform call) := by
  cases call with
  | parameter type name => exact ⟨rfl, rfl, Nat.le_succ _⟩
  | accessor m name field =>
    cases hfield : b.field? field with
    | error failure =>
      simp only [perform, accessor, hfield]
      exact .refl b
    | ok f =>
      rw [memberOf?, hfield] at h
      cases h
  | canonicalConstructor m fields =>
    have hafter := b.after_assignFields fields
    cases hresult : b.assignFields fields with
    | mk result b₀ =>
      rw [memberOf?, hresult] at h
      rw [hresult] at hafter
      cases result with
      | error failure =>
        simp only [perform, canonicalConstructor, hresult]
        exact hafter
      | ok pair => cases h
  | modifiers _ | typeParameters _ | implements _ | overrides _ _ => cases hcall
  | _ => cases h

end ClassToRecord.DeclarationBuilder
