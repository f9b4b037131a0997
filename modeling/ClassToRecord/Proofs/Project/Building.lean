import ClassToRecord.Project.Builder
import ClassToRecord.Proofs.Project.Ledger
import ClassToRecord.Proofs.Traversal

namespace ClassToRecord

namespace DeclarationBuilder

/-- A builder at work on a project, with the parameters that have been given out and that no method
    has taken. An abstract method is one without parameters. A call that fails may still use up
    ids. -/
inductive Builds (p : Project) (unused : List ElementId) :
    List ElementId → DeclarationBuilder → Prop where
  | start (keyword : Keyword) (file name : String) :
      Builds p unused unused (start p keyword file name)
  | modifiers {left : List ElementId} {b : DeclarationBuilder} (before : Builds p unused left b)
      (m : Modifiers) : Builds p unused left (b.modifiers m)
  | typeParameters {left : List ElementId} {b : DeclarationBuilder}
      (before : Builds p unused left b) (text : String) :
      Builds p unused left (b.typeParameters text)
  | implements {left : List ElementId} {b : DeclarationBuilder} (before : Builds p unused left b)
      (clause : String) : Builds p unused left (b.implements clause)
  | parameter {left : List ElementId} {b : DeclarationBuilder} (before : Builds p unused left b)
      (type name : String) :
      Builds p unused ((b.parameter type name).1.id :: left) (b.parameter type name).2
  | field {left : List ElementId} {b : DeclarationBuilder} (before : Builds p unused left b)
      (m : Modifiers) (type name : String) (initializer? : Option Code) :
      Builds p unused left (b.field m type name initializer?).2
  | method {left rest : List ElementId} {b : DeclarationBuilder} (before : Builds p unused left b)
      (m : Modifiers) (returnType name : String) {parameters : List Parameter} (body : Code)
      (takes : left.Perm (parameters.map Parameter.id ++ rest)) :
      Builds p unused rest (b.method m returnType name parameters body).2
  | accessor {left : List ElementId} {b : DeclarationBuilder} (before : Builds p unused left b)
      (m : Modifiers) (name : String) (field : ElementId) :
      Builds p unused left (b.accessor m name field).2
  | constructor {left rest : List ElementId} {b : DeclarationBuilder}
      (before : Builds p unused left b) (m : Modifiers) {parameters : List Parameter} (body : Code)
      (takes : left.Perm (parameters.map Parameter.id ++ rest)) :
      Builds p unused rest (b.constructor m parameters body).2
  | canonicalConstructor {left : List ElementId} {b : DeclarationBuilder}
      (before : Builds p unused left b) (m : Modifiers) (fields : List ElementId) :
      Builds p unused left (b.canonicalConstructor m fields).2
  | overrides {left : List ElementId} {b : DeclarationBuilder} (before : Builds p unused left b)
      (method superMethod : ElementId) : Builds p unused left (b.overrides method superMethod)
  | comment {left : List ElementId} {b : DeclarationBuilder} (before : Builds p unused left b)
      (text : String) : Builds p unused left (b.comment text)
  | code {left : List ElementId} {b : DeclarationBuilder} (before : Builds p unused left b)
      (code : Code) : Builds p unused left (b.code code)

/-- The ids of a builder are in order: what is under construction waits for its place, and so do the
    parameters that no method has taken. -/
def InOrder (b : DeclarationBuilder) (left : List ElementId) : Prop :=
  b.project.Ledger (left ++ b.declaration.declaredIds)

variable {b : DeclarationBuilder} {left rest : List ElementId}

@[simp] theorem project_openBrace (b : DeclarationBuilder) : b.openBrace.project = b.project := by
  unfold openBrace
  split <;> rfl

@[simp] theorem declaredIds_openBrace (b : DeclarationBuilder) :
    b.openBrace.declaration.declaredIds = b.declaration.declaredIds := by
  unfold openBrace
  split
  · rfl
  · simp [mapChildren, Declaration.declaredIds, verbatim, Child.declaredIds]

theorem project_member (b : DeclarationBuilder) (child : Child) :
    (b.member child).project = b.project :=
  b.project_openBrace

theorem declaredIds_member (b : DeclarationBuilder) (child : Child) :
    (b.member child).declaration.declaredIds = b.declaration.declaredIds ++ child.declaredIds := by
  have hopen := b.declaredIds_openBrace
  simp only [Declaration.declaredIds] at hopen ⊢
  simp [member, mapChildren, List.flatMap_append, space, Child.declaredIds, ← hopen]

/-- Steps that declare nothing keep the ids in order. -/
theorem InOrder.of_eq {b' : DeclarationBuilder} (h : b.InOrder left)
    (hproject : b'.project = b.project)
    (hids : b'.declaration.declaredIds = b.declaration.declaredIds) : b'.InOrder left := by
  rw [InOrder, hproject, hids]
  exact h

theorem InOrder.member_of_nil {child : Child} (h : b.InOrder left)
    (hnone : child.declaredIds = []) : (b.member child).InOrder left := by
  apply h.of_eq (b.project_member child)
  rw [declaredIds_member, hnone, List.append_nil]

/-- A member brings a new id, and it takes the parameters that it declares. -/
theorem InOrder.member {child : Child} {taken : List ElementId} (h : b.InOrder left)
    (htakes : left.Perm (taken ++ rest))
    (hchild : child.declaredIds = b.allocate.1 :: taken) :
    (b.allocate.2.member child).InOrder rest := by
  rw [InOrder, project_member, declaredIds_member, hchild]
  have hrest : (rest ++ (b.declaration.declaredIds ++ taken)).Perm
      (left ++ b.declaration.declaredIds) := by
    refine (List.Perm.append_left rest List.perm_append_comm).trans ?_
    rw [← List.append_assoc]
    exact (List.perm_append_comm.trans htakes.symm).append_right _
  apply (Project.Ledger.allocate h).of_subperm
  apply List.Perm.subperm
  exact ((List.perm_middle.append_left rest).trans List.perm_middle).trans (hrest.cons _)

/-- The parameters of a canonical constructor get ids of their own. They are pending until the
    constructor takes them, unless a field is unknown. -/
theorem InOrder.assignFields (h : b.InOrder left) (fields : List ElementId) :
    (b.assignFields fields).2.declaration = b.declaration ∧
    (b.assignFields fields).2.InOrder left ∧
    ∀ parameters body, (b.assignFields fields).1 = .ok (parameters, body) →
      (b.assignFields fields).2.InOrder (parameters.map Parameter.id ++ left) := by
  induction fields generalizing b left with
  | nil =>
    refine ⟨rfl, h, fun parameters body hok => ?_⟩
    cases hok
    exact h
  | cons id rest ih =>
    rw [DeclarationBuilder.assignFields]
    split
    · next failure _ => exact ⟨rfl, h, nofun⟩
    · next f _ =>
      have hnext : (b.parameter f.type f.name).2.InOrder
          ((b.parameter f.type f.name).1.id :: left) := Project.Ledger.allocate h
      obtain ⟨hdeclaration, horder, hok⟩ := ih hnext
      refine ⟨hdeclaration, ?_, ?_⟩
      · apply Project.Ledger.of_subperm horder
        exact (List.sublist_cons_self _ _).append_right _ |>.subperm
      · intro parameters body hresult
        obtain ⟨⟨others, code⟩, hothers, hparameters⟩ := Traversal.map_eq_ok_iff.mp hresult
        cases hparameters
        apply Project.Ledger.of_subperm (hok others code hothers)
        apply List.Perm.subperm
        apply List.Perm.append_right
        exact List.perm_middle.symm

theorem InOrder.methodOrConstructor (h : b.InOrder left) {parameters : List Parameter}
    (htakes : left.Perm (parameters.map Parameter.id ++ rest)) (m : Modifiers)
    (returnType? : Option String) (name : String) (body : Code) :
    (b.methodOrConstructor m returnType? name parameters body).2.InOrder rest :=
  h.member htakes rfl

theorem InOrder.accessor (h : b.InOrder left) (m : Modifiers) (name : String) (field : ElementId) :
    (b.accessor m name field).2.InOrder left := by
  unfold DeclarationBuilder.accessor
  split
  · exact h
  · exact h.methodOrConstructor (.refl _) m _ name _

theorem InOrder.canonicalConstructor (h : b.InOrder left) (m : Modifiers)
    (fields : List ElementId) : (b.canonicalConstructor m fields).2.InOrder left := by
  obtain ⟨-, horder, hok⟩ := h.assignFields fields
  unfold DeclarationBuilder.canonicalConstructor
  split
  · next failure b' hresult =>
    rw [hresult] at horder
    exact horder
  · next parameters body b' hresult =>
    rw [hresult] at hok
    exact (hok parameters body rfl).methodOrConstructor (.refl _) m none _ _

theorem declaredIds_modifiers (b : DeclarationBuilder) (m : Modifiers) :
    (b.modifiers m).declaration.declaredIds = b.declaration.declaredIds := by
  simp only [modifiers, mapChildren, Declaration.declaredIds]
  split
  · next heq => simp [heq, Child.declaredIds]
  · simp [Child.declaredIds]

theorem declaredIds_typeParameters (b : DeclarationBuilder) (text : String) :
    (b.typeParameters text).declaration.declaredIds = b.declaration.declaredIds := by
  simp only [typeParameters, mapChildren, Declaration.declaredIds, List.flatMap_map]
  congr 1
  apply List.flatMap_congr
  intro child _
  cases child <;> rfl

theorem declaredIds_overrides (b : DeclarationBuilder) (method superMethod : ElementId) :
    (b.overrides method superMethod).declaration.declaredIds = b.declaration.declaredIds := by
  have hchildren : ∀ children : List Child,
      (addSuperMethod method superMethod children).flatMap Child.declaredIds =
        children.flatMap Child.declaredIds := by
    intro children
    induction children with
    | nil => rfl
    | cons child rest ih =>
      cases child with
      | method m =>
        rw [addSuperMethod]
        split
        · rfl
        · rw [List.flatMap_cons, List.flatMap_cons, ih]
      | _ => rw [addSuperMethod, List.flatMap_cons, List.flatMap_cons, ih]; nofun
  simp only [overrides, mapChildren, Declaration.declaredIds, hchildren]

/-- A builder that works on a project with its ids in order keeps them so, whatever it is told to
    do. -/
theorem Builds.inOrder {p : Project} {unused : List ElementId} (h : Builds p unused left b)
    (hp : p.Ledger unused) : b.InOrder left := by
  induction h with
  | start keyword file name =>
    apply Project.Ledger.of_subperm hp.allocate
    exact (List.perm_append_singleton _ _).subperm
  | modifiers before m ih => exact ih.of_eq rfl (declaredIds_modifiers _ m)
  | typeParameters before text ih => exact ih.of_eq rfl (declaredIds_typeParameters _ text)
  | @implements _ b before clause ih =>
    have hids : (b.implements clause).declaration.declaredIds = b.declaration.declaredIds := by
      simp [DeclarationBuilder.implements, mapChildren, Declaration.declaredIds, verbatim,
        Child.declaredIds]
    exact ih.of_eq rfl hids
  | parameter before type name ih => exact Project.Ledger.allocate ih
  | field before m type name initializer? ih => exact ih.member (.refl _) rfl
  | method before m returnType name body takes ih =>
    exact ih.methodOrConstructor takes m (some returnType) name body
  | accessor before m name field ih => exact ih.accessor m name field
  | constructor before m body takes ih => exact ih.methodOrConstructor takes m none _ body
  | canonicalConstructor before m fields ih => exact ih.canonicalConstructor m fields
  | overrides before method superMethod ih =>
    exact ih.of_eq rfl (declaredIds_overrides _ method superMethod)
  | comment before text ih => exact ih.member_of_nil rfl
  | code before code ih => exact ih.member_of_nil rfl

/-- The declaration that a builder hands over. -/
def closed (b : DeclarationBuilder) : Declaration :=
  (b.openBrace.mapChildren (· ++ [verbatim "\n\x7d"])).declaration

theorem finish_eq (b : DeclarationBuilder) : b.finish = b.project.insert b.closed := by
  rw [finish, ← project_openBrace b]
  rfl

theorem declaredIds_closed (b : DeclarationBuilder) :
    b.closed.declaredIds = b.declaration.declaredIds := by
  have hopen := b.declaredIds_openBrace
  simp only [Declaration.declaredIds] at hopen ⊢
  simp [closed, mapChildren, verbatim, Child.declaredIds, ← hopen]

theorem references_closed (b : DeclarationBuilder) :
    b.closed.references = b.declaration.references := by
  unfold closed openBrace
  split <;> simp [mapChildren, Declaration.references, verbatim, Child.references, Child.code?,
    Code.references, Code.ofText, Fragment.reference?]

section Finish

variable (h : b.InOrder left) (hfresh : ∀ r ∈ b.declaration.references, r.id.isAssigned = false)
include hfresh

private theorem assignedIds_closed : assignedIds b.closed.references = [] := by
  rw [assignedIds, references_closed, List.filter_map, List.map_eq_nil_iff,
    List.filter_eq_nil_iff]
  intro r hr
  simp [hfresh r hr]

include h

private theorem fits_closed : b.closed.Fits b.project.declarations := by
  obtain ⟨hpending, -, hapart⟩ := List.nodup_append.mp h.elements
  refine ⟨?_, ?_, ?_, ?_⟩
  · rw [declaredIds_closed]
    exact (List.nodup_append.mp hpending).2.1
  · intro x hx hdeclared
    rw [declaredIds_closed] at hx
    exact hapart x (List.mem_append_right _ hx) x hdeclared rfl
  · rw [assignedIds_closed hfresh]
    exact List.nodup_nil
  · rw [assignedIds_closed hfresh]
    exact nofun

private theorem closed_notAheadOf : b.closed.NotAheadOf b.project := by
  refine ⟨fun x hx => ?_, ?_⟩
  · rw [declaredIds_closed] at hx
    exact h.given x (List.mem_append_left _ (List.mem_append_right _ hx))
  · rw [assignedIds_closed hfresh]
    exact nofun

/-- A builder whose code waits for its ids hands over a declaration that fits in. -/
theorem InOrder.finish : b.finish.Ledger left := by
  have hleft := Project.Ledger.of_subperm h (List.sublist_append_left _ _).subperm
  have hbring := hleft.bring (.insert (fits_closed h hfresh)) (closed_notAheadOf h hfresh)
  have hkept : left.filter (fun x => !b.closed.declares x) = left := by
    rw [List.filter_eq_self]
    intro x hx
    rw [Bool.not_eq_true', Bool.eq_false_iff]
    intro hdeclares
    rw [Declaration.declares_iff, declaredIds_closed] at hdeclares
    obtain ⟨hpending, -⟩ := List.nodup_append.mp h.elements
    exact (List.nodup_append.mp hpending).2.2 x hx x hdeclares rfl
  rw [hkept] at hbring
  rw [finish_eq]
  exact hbring

end Finish

end DeclarationBuilder

end ClassToRecord
