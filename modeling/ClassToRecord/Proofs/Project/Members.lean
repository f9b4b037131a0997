import ClassToRecord.Proofs.Project.Calls

namespace ClassToRecord.DeclarationBuilder

section Reading

variable {α : Type} {read : Child → Option α}
  (hmember : ∀ child, memberId? child = none → read child = none)
  (hsuper : ∀ m superMethods, read (.method { m with superMethods }) = read (.method m))

include hsuper in
private theorem filterMap_addSuperMethod (method superMethod : ElementId)
    (children : List Child) :
    (addSuperMethod method superMethod children).filterMap read = children.filterMap read := by
  induction children with
  | nil => rfl
  | cons child rest ih =>
    cases child with
    | method m =>
      rw [addSuperMethod]
      split
      · rw [List.filterMap_cons, List.filterMap_cons, hsuper]
      · rw [List.filterMap_cons, List.filterMap_cons, ih]
    | _ => rw [addSuperMethod_cons rfl, List.filterMap_cons, List.filterMap_cons, ih]

include hmember

private theorem filterMap_member (b : DeclarationBuilder) (child : Child) :
    (b.member child).declaration.children.filterMap read =
      b.declaration.children.filterMap read ++ [child].filterMap read := by
  have hspace : read (space "\n    ") = none := hmember _ rfl
  have hbrace : read (verbatim " \x7b") = none := hmember _ rfl
  cases hchild : read child <;> cases hopened : b.opened <;>
    simp [member, openBrace, mapChildren, hopened, hspace, hbrace, hchild]

private theorem filterMap_modifiers (b : DeclarationBuilder) (m : Modifiers) :
    (b.modifiers m).declaration.children.filterMap read =
      b.declaration.children.filterMap read := by
  have hread : ∀ m, read (.modifiers m) = none := fun _ => hmember _ rfl
  simp only [modifiers, mapChildren]
  split
  · next heq => simp [heq, hread]
  · simp [hread]

private theorem filterMap_typeParameters (b : DeclarationBuilder) (text : String) :
    (b.typeParameters text).declaration.children.filterMap read =
      b.declaration.children.filterMap read := by
  simp only [typeParameters, mapChildren, List.filterMap_map]
  apply List.filterMap_congr
  intro child _
  cases child with
  | typeParameters old => exact (hmember _ rfl).trans (hmember _ rfl).symm
  | _ => rfl

include hsuper

/-- What is read off fields and methods only, and not off what they override, changes with a call by
    what is read off the member that the call adds. -/
theorem filterMap_perform (b : DeclarationBuilder) (call : Call) :
    (b.perform call).declaration.children.filterMap read =
      b.declaration.children.filterMap read ++ (b.memberOf? call).toList.filterMap read := by
  have hother : call.isDirective = false →
      (b.perform call).declaration.children.filterMap read =
        b.declaration.children.filterMap read ++ (b.memberOf? call).toList.filterMap read := by
    intro hcall
    cases hnew : b.memberOf? call with
    | none =>
      rw [(perform_of_memberOf?_eq_none hnew hcall).declaration]
      exact (List.append_nil _).symm
    | some child =>
      obtain ⟨b', hafter, hperform, -⟩ := perform_of_memberOf? hnew
      rw [hperform, filterMap_member hmember, hafter.declaration]
      rfl
  cases call with
  | modifiers m => exact (filterMap_modifiers hmember b m).trans (List.append_nil _).symm
  | typeParameters text =>
    exact (filterMap_typeParameters hmember b text).trans (List.append_nil _).symm
  | implements clause =>
    have hclause : read (verbatim (" implements " ++ clause)) = none := hmember _ rfl
    simp [perform, implements, mapChildren, hclause, memberOf?]
  | overrides method superMethod =>
    exact (filterMap_addSuperMethod hsuper method superMethod _).trans
      (List.append_nil _).symm
  | _ => exact hother rfl

/-- With a run of calls more and more is read. -/
theorem filterMap_prefix_performAll (b : DeclarationBuilder) (calls : List Call) :
    b.declaration.children.filterMap read <+:
      (b.performAll calls).declaration.children.filterMap read := by
  induction calls generalizing b with
  | nil => exact List.prefix_rfl
  | cons call rest ih =>
    have hstep : b.declaration.children.filterMap read <+:
        (b.perform call).declaration.children.filterMap read :=
      ⟨_, (filterMap_perform hmember hsuper b call).symm⟩
    exact hstep.trans (ih (b.perform call))

omit hsuper in
/-- What is not read off the code either is the same when the builder is finished. -/
theorem filterMap_handedOver (b : DeclarationBuilder)
    (hfield : ∀ f initializer?, read (.field { f with initializer? }) = read (.field f))
    (hmethod : ∀ m body, read (.method { m with body }) = read (.method m)) :
    b.handedOver.children.filterMap read = b.declaration.children.filterMap read := by
  have hcode : ∀ c c', read (.code c) = read (.code c') := fun _ _ =>
    (hmember _ rfl).trans (hmember _ rfl).symm
  have hnumbered := congrArg (List.filterMap fun value? => value?)
    (b.closed.map_children_number hfield hmethod hcode b.project.lastReference)
  rw [List.filterMap_map, List.filterMap_map] at hnumbered
  have hbrace : read (verbatim " \x7b") = none := hmember _ rfl
  have hend : read (verbatim "\n\x7d") = none := hmember _ rfl
  refine hnumbered.trans ?_
  cases hopened : b.opened <;>
    simp [closed, openBrace, mapChildren, hopened, hbrace, hend]

end Reading

/-- The ids of the members under construction. -/
def memberIds (b : DeclarationBuilder) : List ElementId :=
  b.declaration.children.filterMap memberId?

/-- Members have ids of their own, which have been given out. -/
structure OwnIds (b : DeclarationBuilder) : Prop where
  distinct : b.memberIds.Nodup
  given : ∀ id ∈ b.memberIds, id.index ≤ b.project.lastElement

theorem ownIds_start (p : Project) (keyword : Keyword) (file name : String) :
    (start p keyword file name).OwnIds :=
  ⟨List.nodup_nil, nofun⟩

/-- A call brings one id at most, and that is new. -/
private theorem exists_memberIds_perform (b : DeclarationBuilder) (call : Call) :
    ∃ new? : Option ElementId, (b.perform call).memberIds = b.memberIds ++ new?.toList ∧
      b.project.lastElement ≤ (b.perform call).project.lastElement ∧
      ∀ new ∈ new?, b.project.lastElement < new.index ∧
        new.index ≤ (b.perform call).project.lastElement := by
  have hids : (b.perform call).memberIds =
      b.memberIds ++ (b.memberOf? call).toList.filterMap memberId? :=
    filterMap_perform (fun _ h => h) (fun _ _ => rfl) b call
  cases hnew : b.memberOf? call with
  | none =>
    rw [hnew] at hids
    refine ⟨none, hids, ?_, nofun⟩
    cases hcall : call.isDirective with
    | false => exact (perform_of_memberOf?_eq_none hnew hcall).given
    | true =>
      cases call with
      | modifiers _ | typeParameters _ | implements _ | overrides _ _ => exact Nat.le_refl _
      | _ => cases hcall
  | some child =>
    obtain ⟨b', hafter, hperform, hfresh⟩ := perform_of_memberOf? hnew
    rw [hnew] at hids
    refine ⟨memberId? child, ?_, ?_, ?_⟩
    · rw [hids]
      cases hid : memberId? child <;> simp [hid]
    · rw [hperform, project_member]
      exact hafter.given
    · rw [hperform, project_member]
      exact hfresh

theorem OwnIds.perform {b : DeclarationBuilder} (h : b.OwnIds) (call : Call) :
    (b.perform call).OwnIds := by
  obtain ⟨new?, hids, hlast, hfresh⟩ := b.exists_memberIds_perform call
  have hnew : ∀ new ∈ new?.toList, b.project.lastElement < new.index ∧
      new.index ≤ (b.perform call).project.lastElement := by
    intro new hmember
    exact hfresh new (Option.mem_toList.mp hmember)
  constructor
  · rw [hids]
    refine List.nodup_append.mpr ⟨h.distinct, ?_, ?_⟩
    · cases new? <;> simp
    · rintro old hold new hmember rfl
      have hgiven := h.given old hold
      have hlater := (hnew old hmember).1
      omega
  · rw [hids]
    refine List.forall_mem_append.mpr ⟨fun id hid => ?_, fun id hid => (hnew id hid).2⟩
    exact Nat.le_trans (h.given id hid) hlast

theorem OwnIds.performAll {b : DeclarationBuilder} (h : b.OwnIds) (calls : List Call) :
    (b.performAll calls).OwnIds := by
  induction calls generalizing b with
  | nil => exact h
  | cons call rest ih => exact ih (h.perform call)

private theorem filterMap_sublist_memberIds {read : Child → Option ElementId}
    (hread : ∀ child id, read child = some id → memberId? child = some id)
    (children : List Child) :
    (children.filterMap read).Sublist (children.filterMap memberId?) := by
  induction children with
  | nil => exact .slnil
  | cons child rest ih =>
    cases hchild : read child with
    | none =>
      rw [List.filterMap_cons_none hchild]
      exact ih.trans ((List.sublist_cons_self child rest).filterMap memberId?)
    | some id =>
      rw [List.filterMap_cons_some hchild, List.filterMap_cons_some (hread child id hchild)]
      exact ih.cons_cons id

/-- Members of one kind have ids of their own in the declaration that the builder hands over. -/
theorem OwnIds.nodup_handedOver {b : DeclarationBuilder} (h : b.OwnIds)
    {read : Child → Option ElementId}
    (hread : ∀ child id, read child = some id → memberId? child = some id) :
    (b.handedOver.children.filterMap read).Nodup := by
  have hids : b.handedOver.children.filterMap memberId? = b.memberIds :=
    filterMap_handedOver (fun _ h => h) b (fun _ _ => rfl) fun _ _ => rfl
  exact (filterMap_sublist_memberIds hread _).nodup (hids ▸ h.distinct)

section Staying

variable {b : DeclarationBuilder}

/-- A field stays as it is, whatever calls come. -/
theorem field_mem_performAll {f : Field} (hf : .field f ∈ b.declaration.children)
    (calls : List Call) : .field f ∈ (b.performAll calls).declaration.children := by
  have hmember : ∀ child, memberId? child = none → child.field? = none := by
    intro child hchild
    cases child with
    | field f => cases hchild
    | _ => rfl
  have hstart := filterMap_prefix_performAll hmember (fun _ _ => rfl) b calls
  exact Declaration.mem_fields_iff.mp (hstart.subset (Declaration.mem_fields_iff.mpr hf))

/-- So does a method, apart from what it overrides. -/
theorem exists_method_mem_performAll {m : Method} (hm : .method m ∈ b.declaration.children)
    (calls : List Call) : ∃ superMethods,
      .method { m with superMethods } ∈ (b.performAll calls).declaration.children := by
  let read (child : Child) : Option Method :=
    child.method?.map fun m => { m with superMethods := [] }
  have hmember : ∀ child, memberId? child = none → read child = none := by
    intro child hchild
    cases child with
    | method m => cases hchild
    | _ => rfl
  have hstart := filterMap_prefix_performAll hmember (fun _ _ => rfl) b calls
  have hread := hstart.subset (List.mem_filterMap.mpr ⟨_, hm, rfl⟩)
  obtain ⟨child, hchild, hsame⟩ := List.mem_filterMap.mp hread
  obtain ⟨later, hlater, hsame⟩ := Option.map_eq_some_iff.mp hsame
  have hmethod : later = { m with superMethods := later.superMethods } :=
    congrArg (fun m : Method => { m with superMethods := later.superMethods }) hsame
  refine ⟨later.superMethods, ?_⟩
  rw [← hmethod]
  exact Declaration.mem_methods_iff.mp (List.mem_filterMap.mpr ⟨child, hchild, hlater⟩)

/-- In the end each child is numbered. -/
theorem exists_number_mem_handedOver {child : Child} (hchild : child ∈ b.declaration.children) :
    ∃ last, (child.number last).1 ∈ b.handedOver.children := by
  have hclosed : child ∈ b.closed.children := by
    unfold closed openBrace
    split <;> simp [mapChildren, hchild]
  obtain ⟨numbered, hnumbered, last, rfl⟩ := Traversal.exists_mem_left_of_forall₂
    (b.closed.forall₂_isNumbered b.project.lastReference) hclosed
  exact ⟨last, hnumbered⟩

end Staying

end ClassToRecord.DeclarationBuilder
