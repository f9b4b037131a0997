import ClassToRecord.Proofs.Record.Children
import Mathlib.Data.List.Perm.Subperm

open ClassToRecord.Traversal

namespace ClassToRecord

namespace Candidate

/-- The children that a record leaves out: key fields, and bound accessors unless one of them is the
    canonical constructor. -/
def elides (c : Candidate) : Child → Bool
  | .field f => c.isKeyField f.id
  | .method m => (c.bindingForAccessor? m.id).isSome && decide (c.constructor? ≠ some m.id)
  | _ => false

/-- The elements of a child that the record still declares. A field that becomes a component leaves
    its id to the header. -/
def keptIds (c : Candidate) (child : Child) : List ElementId :=
  if c.elides child then c.componentIds child else child.declaredIds

/-- The references of a child that the record still has. -/
def keptReferences (c : Candidate) (child : Child) : List Reference :=
  if c.elides child then [] else child.references

variable {c : Candidate} {components : List Parameter} {visibility : Visibility}

/-- A child that stays leaves nothing to the header. -/
theorem keptIds_eq_append (c : Candidate) (child : Child) :
    c.keptIds child = (if c.elides child then [] else child.declaredIds) ++ c.componentIds child := by
  unfold keptIds
  split
  · rw [List.nil_append]
  · next hstays =>
    cases child with
    | field f =>
      have hcomponent : c.isComponent f.id ≠ true := fun h => hstays (isKeyField_of_isComponent h)
      simp [componentIds, hcomponent]
    | _ => simp [componentIds]

/-- Only what a child declares can be kept of it. -/
theorem keptIds_sublist (c : Candidate) (child : Child) :
    (c.keptIds child).Sublist child.declaredIds := by
  unfold keptIds
  split
  · cases child with
    | field f =>
      simp only [componentIds]
      split
      · exact .refl _
      · exact List.nil_sublist _
    | _ => exact List.nil_sublist _
  · exact .refl _

theorem keptReferences_sublist (c : Candidate) (child : Child) :
    (c.keptReferences child).Sublist child.references := by
  unfold keptReferences
  split
  · exact List.nil_sublist _
  · exact .refl _

theorem map_identity_keptReferences (c : Candidate) (child : Child) :
    (c.keptReferences child).map Reference.identity =
      if c.elides child then [] else child.references.map Reference.identity := by
  unfold keptReferences
  split <;> rfl

/-- Exactly the elided children vanish. -/
theorem elides_of_recordChild {old : Child} {piece : Option Child}
    (h : c.recordChild components visibility old = .ok piece) : c.elides old = piece.isNone := by
  unfold recordChild at h
  split at h
  · cases h
    rfl
  · next f =>
    cases h
    cases hkey : c.isKeyField f.id <;> simp [elides, hkey]
  · next m =>
    split at h
    · next hconstructor =>
      obtain ⟨canonical, _, rfl⟩ := map_eq_ok_iff.mp h
      simp [elides, hconstructor]
    · next hconstructor =>
      cases h
      cases hbound : (c.bindingForAccessor? m.id).isSome <;> simp [elides, hbound, hconstructor]
  · next hfield hmethod =>
    cases h
    cases old with
    | field f => exact absurd rfl (hfield f)
    | method m => exact absurd rfl (hmethod m)
    | _ => rfl

/-- What becoming part of a record does not change is there in the piece that a child becomes, unless
    the child vanishes. -/
theorem elim_of_recordChild {α : Type} {read : Child → List α} {old : Child} {piece : Option Child}
    (hread : ∀ child, c.Becomes components visibility old child → read child = read old)
    (h : c.recordChild components visibility old = .ok piece) :
    piece.elim [] read = if c.elides old then [] else read old := by
  rw [elides_of_recordChild h]
  cases piece with
  | none => rfl
  | some child => exact hread child (becomes_of_recordChild h)

/-- A candidate that fits a class names fields and methods of this class. -/
theorem exists_field_of_isKeyField {d : Declaration} (h : c.memberError? d = none)
    {field : ElementId} (hkey : c.isKeyField field = true) : (d.field? field).isSome = true := by
  obtain ⟨entry, hentry, rfl⟩ := List.mem_map.mp (OrderedMap.contains_iff.mp hkey)
  have herror := List.findSome?_eq_none_iff.mp (Option.or_eq_none_iff.mp h).1 entry hentry
  by_contra hmissing
  simp [entryError?, Option.not_isSome_iff_eq_none.mp hmissing] at herror

theorem exists_method_of_bindingForAccessor? {d : Declaration} (h : c.memberError? d = none)
    {method : ElementId} (hbound : (c.bindingForAccessor? method).isSome = true) :
    (d.method? method).isSome = true := by
  obtain ⟨binding, hbinding⟩ := Option.isSome_iff_exists.mp hbound
  have haccessor := List.find?_some hbinding
  obtain ⟨⟨field, b⟩, hb, rfl⟩ := List.mem_map.mp (List.mem_of_find?_eq_some hbinding)
  obtain ⟨⟨field', binding?⟩, hentry, hpair⟩ := List.mem_filterMap.mp hb
  obtain ⟨b', rfl, hb'⟩ := Option.map_eq_some_iff.mp hpair
  cases hb'
  have herror := List.findSome?_eq_none_iff.mp (Option.or_eq_none_iff.mp h).1 _ hentry
  by_contra hmissing
  rw [← of_decide_eq_true haccessor, Option.not_isSome_iff_eq_none] at hmissing
  simp only [entryError?, hmissing, Option.isNone_none, if_true] at herror
  split at herror <;> cases herror

end Candidate

/-- A record keeps the identities of its class: id and file, all elements that are not elided or
    become components, and all references that do not stand in an elided child. -/
structure Declaration.KeepsIdentities (c : Candidate) (d record : Declaration) : Prop where
  id : record.id = d.id
  file : record.file = d.file
  elements : List.Perm record.declaredIds (d.id :: d.children.flatMap c.keptIds)
  references : record.references.map Reference.identity =
    (d.children.flatMap c.keptReferences).map Reference.identity

/-- The elements that a record keeps are among those of its class. -/
theorem Declaration.KeepsIdentities.declaredIds_subperm {c : Candidate} {d record : Declaration}
    (h : d.KeepsIdentities c record) : List.Subperm record.declaredIds d.declaredIds := by
  have hkept : (d.id :: d.children.flatMap c.keptIds).Sublist d.declaredIds :=
    (List.Sublist.flatMap_right d.children fun child _ => c.keptIds_sublist child).cons_cons d.id
  exact h.elements.subperm.trans hkept.subperm

/-- So are the references. -/
theorem Declaration.KeepsIdentities.map_id_sublist {c : Candidate} {d record : Declaration}
    (h : d.KeepsIdentities c record) :
    (record.references.map Reference.id).Sublist (d.references.map Reference.id) := by
  have hkept : (d.children.flatMap c.keptReferences).Sublist d.references :=
    List.Sublist.flatMap_right d.children fun child _ => c.keptReferences_sublist child
  rw [Reference.map_id_eq_of_map_identity_eq h.references]
  exact hkept.map _

/-- What a record has in common with the class that it is made from: its id, a part of the
    declared elements and of the references, and children that stand for those of the class. Only
    the header is new. -/
structure Declaration.RecordOf (c : Candidate) (d record : Declaration) : Prop where
  id : record.id = d.id
  declaredIds : List.Subperm record.declaredIds d.declaredIds
  references : (record.references.map Reference.id).Sublist (d.references.map Reference.id)
  children : ∀ child ∈ record.children, child = .header (c.componentsOf d) ∨
    ∃ old ∈ d.children, c.Becomes (c.componentsOf d) d.visibility old child

/-- The references of a record are those of its class. Only references to parameters of a method
    are spelled in a new way. -/
theorem Declaration.RecordOf.exists_reference {c : Candidate} {d record : Declaration}
    (h : d.RecordOf c record) {r : Reference} (hr : r ∈ record.references) :
    ∃ s ∈ d.references, r.id = s.id ∧ r.target = s.target ∧
      (r.name = s.name ∨
        ∃ m, Child.method m ∈ d.children ∧ r.target ∈ m.parameters.map Parameter.id) := by
  obtain ⟨child, hchild, hr⟩ := List.mem_flatMap.mp hr
  rcases h.children child hchild with rfl | ⟨old, hold, hbecomes⟩
  · cases hr
  · obtain ⟨s, hs, hid, htarget, hname⟩ := hbecomes.exists_reference hr
    refine ⟨s, List.mem_flatMap.mpr ⟨old, hold, hs⟩, hid, htarget, hname.imp_right ?_⟩
    rintro ⟨m, rfl, hparameter⟩
    exact ⟨m, hold, hparameter⟩

section Pieces

variable {c : Candidate} {d : Declaration} {before after : List Child}
  {pieces : List (Option Child)} (hchildren : d.children = before ++ after)
  (hpieces : List.Forall₂ (fun child piece =>
    c.recordChild (c.componentsOf d) d.visibility child = .ok piece)
    (before ++ .header (c.componentsOf d) :: after) pieces)

include hchildren hpieces

private theorem becomes_of_mem_closeGaps {child : Child} (hchild : child ∈ closeGaps [] pieces) :
    child = .header (c.componentsOf d) ∨
      ∃ old ∈ d.children, c.Becomes (c.componentsOf d) d.visibility old child := by
  obtain ⟨old, hold, hpiece⟩ := exists_mem_left_of_forall₂ hpieces (mem_of_mem_closeGaps hchild)
  by_cases hheader : old = .header (c.componentsOf d)
  · subst hheader
    cases hpiece
    exact .inl rfl
  · refine .inr ⟨old, ?_, Candidate.becomes_of_recordChild hpiece⟩
    rw [hchildren]
    simpa [hheader] using hold

omit hchildren in
private theorem flatMap_closeGaps_of_pieces {α : Type} {read : Child → List α}
    (hread : ∀ old child, c.Becomes (c.componentsOf d) d.visibility old child →
      read child = read old)
    (hblank : ∀ child, child.isWhitespace = true → read child = []) :
    (closeGaps [] pieces).flatMap read =
      before.flatMap (fun child => if c.elides child then [] else read child) ++
        (read (.header (c.componentsOf d)) ++
          after.flatMap fun child => if c.elides child then [] else read child) := by
  rw [flatMap_closeGaps hblank, List.reverse_nil, List.flatMap_nil, List.nil_append,
    flatMap_eq_of_forall₂ hpieces fun old _ => Candidate.elim_of_recordChild (hread old),
    List.flatMap_append, List.flatMap_cons]
  rfl

private theorem declaredIds_perm_of_pieces :
    List.Perm ((closeGaps [] pieces).flatMap Child.declaredIds) (d.children.flatMap c.keptIds) := by
  have hheader : (Child.header (c.componentsOf d)).declaredIds =
      d.children.flatMap c.componentIds := c.map_id_componentsOf d
  rw [flatMap_closeGaps_of_pieces hpieces (fun _ _ h => h.declaredIds)
    (fun _ => Child.declaredIds_of_isWhitespace), hheader]
  refine List.Perm.trans (List.perm_append_comm_assoc _ _ _) ?_
  rw [← List.flatMap_append, ← hchildren, funext c.keptIds_eq_append]
  exact List.perm_append_comm.trans (List.flatMap_append_perm _ _ _)

private theorem identities_of_pieces :
    ((closeGaps [] pieces).flatMap fun child => child.references.map Reference.identity) =
      d.children.flatMap fun child => (c.keptReferences child).map Reference.identity := by
  rw [flatMap_closeGaps_of_pieces hpieces (fun _ _ h => h.map_identity_references)
    (fun _ h => by rw [Child.references_of_isWhitespace h, List.map_nil])]
  rw [hchildren, List.flatMap_append, funext c.map_identity_keptReferences]
  rfl

end Pieces

namespace Project

variable {p : Project} {c : Candidate} {record : Declaration}

/-- A rebuilt record keeps the identities of the class that it replaces. -/
theorem keepsIdentities_of_rebuildRecord (h : p.rebuildRecord c = .ok record) :
    ∃ d, p.declaration? c.declaration = some d ∧ c.memberError? d = none ∧
      d.KeepsIdentities c record := by
  obtain ⟨d, placed, pieces, hd, hmembers, hplaced, hpieces, rfl⟩ := rebuildRecord_eq_ok h
  obtain ⟨before, after, hchildren, rfl⟩ := Declaration.insertHeader_eq_append hplaced
  refine ⟨d, hd, hmembers, rfl, rfl, ?_, ?_⟩
  · exact (declaredIds_perm_of_pieces hchildren hpieces).cons d.id
  · rw [Declaration.references, List.map_flatMap, List.map_flatMap]
    exact identities_of_pieces hchildren hpieces

/-- It has no reference without a number, if its project has none. -/
theorem isAssigned_of_rebuildRecord (hassigned : ∀ r ∈ p.references, r.id.isAssigned = true)
    (h : p.rebuildRecord c = .ok record) : ∀ r ∈ record.references, r.id.isAssigned = true := by
  obtain ⟨d, hd, -, hkeeps⟩ := keepsIdentities_of_rebuildRecord h
  apply Reference.forall_id_of_subset (·.isAssigned = true) hkeeps.map_id_sublist.subset
  intro r hr
  exact hassigned r (mem_references_iff.mpr ⟨d, List.mem_of_find?_eq_some hd, hr⟩)

/-- A rebuilt record is one of the class that it replaces. -/
theorem recordOf_of_rebuildRecord (h : p.rebuildRecord c = .ok record) :
    ∃ d, p.declaration? c.declaration = some d ∧ c.memberError? d = none ∧
      d.RecordOf c record := by
  obtain ⟨d, hd, hmembers, hkeeps⟩ := keepsIdentities_of_rebuildRecord h
  obtain ⟨d', _, pieces, hd', -, hplaced, hpieces, rfl⟩ := rebuildRecord_eq_ok h
  obtain ⟨before, after, hchildren, rfl⟩ := Declaration.insertHeader_eq_append hplaced
  obtain rfl := Option.some.inj (hd.symm.trans hd')
  exact ⟨d, hd, hmembers, hkeeps.id, hkeeps.declaredIds_subperm, hkeeps.map_id_sublist,
    fun _ => becomes_of_mem_closeGaps hchildren hpieces⟩

end Project

end ClassToRecord
