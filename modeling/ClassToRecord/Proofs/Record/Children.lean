import ClassToRecord.Proofs.OrderedMap
import ClassToRecord.Proofs.Record.Rebuild
import ClassToRecord.Proofs.Rename.Names

open ClassToRecord.Traversal

namespace ClassToRecord

/-- What a reference is apart from its spelling. -/
def Reference.identity (r : Reference) : RefId × ElementId := (r.id, r.target)

/-- References that agree but for their spelling have the same ids. -/
theorem Reference.map_id_eq_of_map_identity_eq {rs ss : List Reference}
    (h : rs.map identity = ss.map identity) : rs.map Reference.id = ss.map Reference.id := by
  have hids := congrArg (List.map Prod.fst) h
  rwa [List.map_map, List.map_map] at hids

namespace Method

/-- A constructor becomes canonical if its parameters match the components by position. -/
theorem toCanonical_eq_ok_iff {m canonical : Method} {components : List Parameter}
    {visibility : Visibility} :
    m.toCanonical components visibility = .ok canonical ↔
      m.parameters.length = components.length ∧
      (∀ pair ∈ m.parameters.zip components, m.parameterError? components pair = none) ∧
      canonical = { m with
        modifiers := { m.modifiers with visibility := m.modifiers.visibility.max visibility }
        parameters := m.recordParameters components
        body := m.body.mapReferences (followParameter (m.recordParameters components)) } := by
  unfold toCanonical
  by_cases hlength : m.parameters.length = components.length
  · rw [if_neg (not_not.mpr hlength)]
    cases herror : (m.parameters.zip components).findSome? (m.parameterError? components) with
    | none =>
      have hnone := List.findSome?_eq_none_iff.mp herror
      simp only [Except.ok.injEq, hlength, true_and]
      exact ⟨fun h => ⟨hnone, h.symm⟩, fun h => h.2.symm⟩
    | some error =>
      refine ⟨nofun, fun ⟨_, hnone, _⟩ => ?_⟩
      rw [List.findSome?_eq_none_iff.mpr hnone] at herror
      cases herror
  · rw [if_pos hlength]
    exact ⟨nofun, fun h => absurd h.1 hlength⟩

/-- The name that a parameter has in a list, if it is there. -/
def nameIn (parameters : List Parameter) (id : ElementId) : Option String :=
  (parameters.find? (·.id = id)).map Parameter.name

/-- A reference that follows the parameters of a method is one under their names. -/
theorem followParameter_eq_renamedBy (parameters : List Parameter) (r : Reference) :
    followParameter parameters r = r.renamedBy (nameIn parameters) := by
  unfold followParameter Reference.renamedBy nameIn
  cases parameters.find? (·.id = r.target) with
  | none => rfl
  | some parameter => rfl

theorem id_mem_of_mem_recordParameters {m : Method} {components : List Parameter}
    {parameter : Parameter} (h : parameter ∈ m.recordParameters components) :
    parameter.id ∈ m.parameters.map Parameter.id := by
  rw [recordParameters, ← List.map_uncurry_zip_eq_zipWith] at h
  obtain ⟨pair, hpair, rfl⟩ := List.mem_map.mp h
  exact List.mem_map.mpr ⟨pair.1, (List.of_mem_zip hpair).1, rfl⟩

/-- Parameters that become components by position keep their ids. -/
theorem map_id_recordParameters {m : Method} {components : List Parameter}
    (h : m.parameters.length = components.length) :
    (m.recordParameters components).map Parameter.id = m.parameters.map Parameter.id := by
  rw [recordParameters, List.map_zipWith]
  apply List.ext_getElem
  · simp [h]
  · intro i _ _
    simp

end Method

namespace Candidate

/-- What stands in a record for a child of the class: the keyword changes, the constructor becomes
    canonical, and any other child is the same. -/
inductive Becomes (c : Candidate) (components : List Parameter) (visibility : Visibility) :
    Child → Child → Prop where
  | keyword : Becomes c components visibility (.keyword .class) (.keyword .record)
  | canonical {m canonical : Method} (hconstructor : c.constructor? = some m.id)
      (hcanonical : m.toCanonical components visibility = .ok canonical) :
      Becomes c components visibility (.method m) (.method canonical)
  | same {child : Child} (hother : ∀ m, child = .method m → c.constructor? ≠ some m.id) :
      Becomes c components visibility child child

variable {c : Candidate} {components : List Parameter} {visibility : Visibility}

/-- A child that does not vanish becomes what stands for it. -/
theorem becomes_of_recordChild {child kept : Child}
    (h : c.recordChild components visibility child = .ok (some kept)) :
    c.Becomes components visibility child kept := by
  unfold recordChild at h
  split at h
  · cases h
    exact .keyword
  · next f =>
    split at h <;> cases h
    exact .same nofun
  · next m =>
    split at h
    · next hconstructor =>
      obtain ⟨canonical, hcanonical, hkept⟩ := map_eq_ok_iff.mp h
      cases hkept
      exact .canonical hconstructor hcanonical
    · next hconstructor =>
      split at h <;> cases h
      exact .same fun m' hm' => by
        cases hm'
        exact hconstructor
  · next hmethod =>
    cases h
    exact .same fun m hm => absurd hm (hmethod m)

/-- The ids that leave a child for the header. -/
def componentIds (c : Candidate) : Child → List ElementId
  | .field f => if c.isComponent f.id then [f.id] else []
  | _ => []

/-- The header declares the ids that leave the children for it. -/
theorem map_id_componentsOf (c : Candidate) (d : Declaration) :
    (c.componentsOf d).map Parameter.id = d.children.flatMap c.componentIds := by
  unfold componentsOf Declaration.fields
  induction d.children with
  | nil => rfl
  | cons child rest ih =>
    rw [List.flatMap_cons, ← ih]
    cases child with
    | field f =>
      cases h : c.isComponent f.id <;>
        simp [Child.field?, componentIds, h, Field.toComponent]
    | _ => rfl

/-- A field that becomes a component is a key field, and so it vanishes from the children. -/
theorem isKeyField_of_isComponent {id : ElementId} (h : c.isComponent id = true) :
    c.isKeyField id = true := by
  rw [isKeyField, OrderedMap.contains_iff]
  by_contra hnot
  rw [isComponent, OrderedMap.get?_eq_none_iff.mpr hnot] at h
  cases h

namespace Becomes

variable {old child : Child}

/-- A child of the record declares what the child of the class did. -/
theorem declaredIds (h : c.Becomes components visibility old child) :
    child.declaredIds = old.declaredIds := by
  cases h with
  | keyword => rfl
  | @canonical m canonical _ hcanonical =>
    obtain ⟨hlength, _, rfl⟩ := Method.toCanonical_eq_ok_iff.mp hcanonical
    exact congrArg (m.id :: ·) (Method.map_id_recordParameters hlength)
  | same _ => rfl

/-- It means with its references what the child of the class did. -/
theorem map_identity_references (h : c.Becomes components visibility old child) :
    child.references.map Reference.identity = old.references.map Reference.identity := by
  cases h with
  | keyword => rfl
  | @canonical m canonical _ hcanonical =>
    obtain ⟨_, _, rfl⟩ := Method.toCanonical_eq_ok_iff.mp hcanonical
    simp only [Child.references, Child.code?, Option.elim_some, Code.references_mapReferences,
      List.map_map]
    apply List.map_congr_left
    intro r _
    rw [Function.comp_apply, Method.followParameter_eq_renamedBy]
    rfl
  | same _ => rfl

/-- Only references to the parameters of the constructor are spelled in a new way. -/
theorem exists_reference (h : c.Becomes components visibility old child) {r : Reference}
    (hr : r ∈ child.references) :
    ∃ s ∈ old.references, r.id = s.id ∧ r.target = s.target ∧
      (r.name = s.name ∨ ∃ m, old = .method m ∧ r.target ∈ m.parameters.map Parameter.id) := by
  cases h with
  | keyword => cases hr
  | @canonical m canonical _ hcanonical =>
    obtain ⟨_, _, rfl⟩ := Method.toCanonical_eq_ok_iff.mp hcanonical
    simp only [Child.references, Child.code?, Option.elim_some, Code.references_mapReferences] at hr
    obtain ⟨s, hs, rfl⟩ := List.mem_map.mp hr
    rw [Method.followParameter_eq_renamedBy]
    refine ⟨s, hs, rfl, rfl, ?_⟩
    rw [Reference.name_renamedBy, Reference.target_renamedBy]
    cases hname : Method.nameIn (m.recordParameters components) s.target with
    | none => exact .inl rfl
    | some name =>
      obtain ⟨parameter, hfound, _⟩ := Option.map_eq_some_iff.mp hname
      have hid := List.find?_some hfound
      refine .inr ⟨m, rfl, ?_⟩
      rw [← of_decide_eq_true hid]
      exact Method.id_mem_of_mem_recordParameters (List.mem_of_find?_eq_some hfound)
  | same _ => exact ⟨r, hr, rfl, rfl, .inl rfl⟩

end Becomes

end Candidate

/-- Whitespace is one kind of trivia. -/
theorem Child.exists_text_of_isWhitespace {child : Child} (h : child.isWhitespace = true) :
    ∃ text, child = .trivia (.whitespace text) := by
  cases child with
  | trivia t =>
    cases t with
    | whitespace text => exact ⟨text, rfl⟩
    | comment _ => cases h
  | _ => cases h

/-- Whitespace declares nothing. -/
theorem Child.declaredIds_of_isWhitespace {child : Child} (h : child.isWhitespace = true) :
    child.declaredIds = [] := by
  obtain ⟨text, rfl⟩ := exists_text_of_isWhitespace h
  rfl

/-- Nor does it refer to anything. -/
theorem Child.references_of_isWhitespace {child : Child} (h : child.isWhitespace = true) :
    child.references = [] := by
  obtain ⟨text, rfl⟩ := exists_text_of_isWhitespace h
  rfl

end ClassToRecord
