import ClassToRecord.Proofs.Project.Numbering
import ClassToRecord.Proofs.Traversal

namespace ClassToRecord

private theorem numberFragments_of_assigned {last : Nat} {fragments : List Fragment}
    (h : ∀ r ∈ fragments.filterMap Fragment.reference?, r.id.isAssigned = true) :
    Code.numberFragments last fragments = (fragments, last) := by
  induction fragments with
  | nil => rfl
  | cons fragment rest ih =>
    cases fragment with
    | text s =>
      have hrest := ih h
      simp [Code.numberFragments, Fragment.number, hrest]
    | ref r =>
      have hassigned : r.id.isAssigned = true := h r (List.mem_filterMap.mpr ⟨_, .head _, rfl⟩)
      have hrest := ih fun s hs => h s (List.mem_cons_of_mem _ hs)
      simp [Code.numberFragments, Fragment.number, hassigned, hrest]

private theorem number_of_assigned {last : Nat} {code : Code}
    (h : ∀ r ∈ code.references, r.id.isAssigned = true) : code.number last = (code, last) := by
  rw [Code.number, numberFragments_of_assigned h]

/-- A child whose references are numbered stays as it is. -/
theorem Child.number_of_assigned {last : Nat} {child : Child}
    (h : ∀ r ∈ child.references, r.id.isAssigned = true) : child.number last = (child, last) := by
  cases child with
  | field f =>
    cases hvalue : f.initializer? with
    | none => simp [number, hvalue]
    | some value =>
      have hcode : value.number last = (value, last) :=
        ClassToRecord.number_of_assigned (by simpa [references, code?, hvalue] using h)
      simp only [number, hvalue, hcode]
      rw [← hvalue]
  | method m => rw [number, ClassToRecord.number_of_assigned h]
  | code c => rw [number, ClassToRecord.number_of_assigned h]
  | _ => rfl

private theorem numberChildren_of_assigned {last : Nat} {children : List Child}
    (h : ∀ r ∈ children.flatMap Child.references, r.id.isAssigned = true) :
    Declaration.numberChildren last children = (children, last) := by
  induction children with
  | nil => rfl
  | cons child rest ih =>
    rw [List.flatMap_cons, List.forall_mem_append] at h
    simp only [Declaration.numberChildren, Child.number_of_assigned h.1, ih h.2]

/-- Where all references are numbered already, no number is given out. -/
theorem Declaration.number_of_assigned {last : Nat} {d : Declaration}
    (h : ∀ r ∈ d.references, r.id.isAssigned = true) : d.number last = (d, last) := by
  rw [number, numberChildren_of_assigned h]

/-- A reference is another one, or the other one with the number that it has been given. -/
structure Reference.Numbers (r old : Reference) : Prop where
  assigned : r.id.isAssigned = true
  target : r.target = old.target
  name : r.name = old.name
  id : old.id.isAssigned = true → r.id = old.id

private theorem exists_method_of_number {last : Nat} {child : Child} {m : Method}
    (h : (child.number last).1 = .method m) :
    ∃ old, child = .method old ∧ ∃ body, m = { old with body } := by
  cases child with
  | method old =>
    cases h
    exact ⟨old, rfl, _, rfl⟩
  | field f =>
    rw [Child.number] at h
    split at h <;> cases h
  | _ => cases h

/-- A numbered declaration has the methods that it had, but for their bodies. -/
theorem Declaration.exists_method_of_number {last : Nat} {d : Declaration} {m : Method}
    (h : m ∈ (d.number last).1.methods) : ∃ old ∈ d.methods, ∃ body, m = { old with body } := by
  obtain ⟨child, hchild, _, hnumber⟩ := Traversal.exists_mem_left_of_forall₂
    (d.forall₂_isNumbered last).flip (Declaration.mem_methods_iff.mp h)
  obtain ⟨old, rfl, hbody⟩ := ClassToRecord.exists_method_of_number hnumber.symm
  exact ⟨old, Declaration.mem_methods_iff.mpr hchild, hbody⟩

/-- The references of a numbered declaration are those that it had, and all of them have a
    number. -/
theorem Declaration.exists_reference_of_number {last : Nat} {d : Declaration} {r : Reference}
    (h : r ∈ (d.number last).1.references) : ∃ old ∈ d.references, r.Numbers old := by
  refine d.number_induction (R := fun _ old new _ => ∀ r ∈ new, ∃ s ∈ old, r.Numbers s)
    (fun _ => nofun) ?_ ?_ ?_ last r h
  · intro _ s hassigned
    exact List.forall_mem_singleton.mpr ⟨s, List.mem_singleton_self _, hassigned, rfl, rfl,
      fun _ => rfl⟩
  · intro _ s hwaiting
    refine List.forall_mem_singleton.mpr ⟨s, List.mem_singleton_self _, ?_, rfl, rfl, ?_⟩
    · simp [RefId.isAssigned, RefId.unassigned]
    · rw [hwaiting]
      exact nofun
  · intro _ _ _ old new more rest hnew hrest r hr
    rcases List.mem_append.mp hr with hr | hr
    · obtain ⟨s, hs, hnumbers⟩ := hnew r hr
      exact ⟨s, List.mem_append_left _ hs, hnumbers⟩
    · obtain ⟨s, hs, hnumbers⟩ := hrest r hr
      exact ⟨s, List.mem_append_right _ hs, hnumbers⟩

namespace Project

/-- A declaration takes the place of the first one with the id, and the others stay where they
    are. -/
theorem replaceFirst_eq_append {id : ElementId} (new : Declaration) {d : Declaration}
    {declarations : List Declaration} (h : declarations.find? (·.id = id) = some d) :
    ∃ before after, declarations = before ++ d :: after ∧
      replaceFirst id new declarations = before ++ new :: after := by
  induction declarations with
  | nil => cases h
  | cons first rest ih =>
    by_cases hid : first.id = id
    · rw [List.find?_cons_of_pos (by simpa using hid), Option.some.injEq] at h
      subst h
      exact ⟨[], rest, rfl, by rw [replaceFirst, if_pos hid, List.nil_append]⟩
    · rw [List.find?_cons_of_neg (by simpa using hid)] at h
      obtain ⟨before, after, rfl, hreplaced⟩ := ih h
      refine ⟨first :: before, after, rfl, ?_⟩
      rw [replaceFirst, if_neg hid, hreplaced, List.cons_append]

/-- A declaration takes its new place with its references numbered. -/
theorem replaceDeclaration_eq_ok {p q : Project} {id : ElementId} {new : Declaration}
    (h : p.replaceDeclaration id new = .ok q) :
    ∃ d before after, p.declaration? id = some d ∧ p.declarations = before ++ d :: after ∧
      q = { p with
        declarations := before ++ (new.number p.lastReference).1 :: after
        lastReference := (new.number p.lastReference).2 } := by
  cases hd : p.declaration? id with
  | none =>
    rw [replaceDeclaration, hd, Option.isNone_none, if_pos rfl] at h
    cases h
  | some d =>
    obtain ⟨before, after, hsplit, hreplaced⟩ :=
      replaceFirst_eq_append (new.number p.lastReference).1 hd
    rw [replaceDeclaration, hd, Option.isNone_some, if_neg Bool.false_ne_true] at h
    cases h
    refine ⟨d, before, after, rfl, hsplit, ?_⟩
    rw [← hreplaced]
    rfl

private theorem find?_replaceFirst {new d : Declaration} {declarations : List Declaration}
    (h : declarations.find? (·.id = new.id) = some d) :
    (replaceFirst new.id new declarations).find? (·.id = new.id) = some new := by
  induction declarations with
  | nil => cases h
  | cons first rest ih =>
    by_cases hid : first.id = new.id
    · rw [replaceFirst, if_pos hid, List.find?_cons_of_pos (by simp)]
    · rw [List.find?_cons_of_neg (by simpa using hid)] at h
      rw [replaceFirst, if_neg hid, List.find?_cons_of_neg (by simpa using hid)]
      exact ih h

/-- The declaration that comes in is found under its id. -/
theorem declaration?_of_replaceDeclaration {p q : Project} {new : Declaration}
    (h : p.replaceDeclaration new.id new = .ok q) :
    q.declaration? new.id = some (new.number p.lastReference).1 := by
  cases hd : p.declaration? new.id with
  | none =>
    rw [replaceDeclaration, hd, Option.isNone_none, if_pos rfl] at h
    cases h
  | some d =>
    rw [replaceDeclaration, hd, Option.isNone_some, if_neg Bool.false_ne_true] at h
    cases h
    have hid : (new.number p.lastReference).1.id = new.id := rfl
    exact hid ▸ find?_replaceFirst hd

/-- Only the declaration that comes in is new. -/
theorem mem_or_eq_of_replaceDeclaration {p q : Project} {id : ElementId} {new e : Declaration}
    (h : p.replaceDeclaration id new = .ok q) (he : e ∈ q.declarations) :
    e ∈ p.declarations ∨ e = (new.number p.lastReference).1 := by
  obtain ⟨d, before, after, _, hsplit, rfl⟩ := replaceDeclaration_eq_ok h
  rw [hsplit]
  simp only [List.mem_append, List.mem_cons] at he ⊢
  tauto

/-- The replacement of a declaration leaves all declarations with other ids alone. -/
theorem mem_declarations_of_replaceDeclaration {p q : Project} {new e : Declaration}
    (h : p.replaceDeclaration new.id new = .ok q) (he : e.id ≠ new.id) :
    e ∈ q.declarations ↔ e ∈ p.declarations := by
  obtain ⟨d, before, after, hd, hsplit, rfl⟩ := replaceDeclaration_eq_ok h
  have hdId : d.id = new.id := by simpa using List.find?_some hd
  have hold : e ≠ d := fun heq => he (heq ▸ hdId)
  have hnew : e ≠ (new.number p.lastReference).1 := fun heq => he (heq ▸ rfl)
  simp [hsplit, hold, hnew]

end Project

end ClassToRecord
