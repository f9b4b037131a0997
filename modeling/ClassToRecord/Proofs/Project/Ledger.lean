import ClassToRecord.Proofs.Project.Replace

namespace ClassToRecord

namespace Declaration

/-- A declaration carries no id that a project has still to give out. -/
structure NotAheadOf (d : Declaration) (p : Project) : Prop where
  elements : ∀ x ∈ d.declaredIds, x.index ≤ p.lastElement
  references : ∀ id ∈ assignedIds d.references, id.index ≤ p.lastReference

/-- The ids that a declaration carries differ, and none of them is in use in other declarations. -/
structure Fits (d : Declaration) (others : List Declaration) : Prop where
  elements : d.declaredIds.Nodup
  newElements : ∀ x ∈ d.declaredIds, x ∉ others.flatMap declaredIds
  references : (assignedIds d.references).Nodup
  newReferences : ∀ id ∈ assignedIds d.references,
    id ∉ (others.flatMap Declaration.references).map Reference.id

end Declaration

namespace Project

/-- Ids are in order: those in use differ, every reference has one, and the next element id is not
    in use. -/
structure Sound (p : Project) : Prop where
  assigned : ∀ r ∈ p.references, r.id.isAssigned = true
  references : p.DistinctReferences
  elements : p.DistinctElements
  fresh : p.allocate.1 ∉ p.declaredIds

/-- A declaration with ids that fit in is brought into a project: it is inserted, or it takes the
    place of another one. -/
inductive Brings (p : Project) (d : Declaration) : Project → Prop where
  | insert (fits : d.Fits p.declarations) : Brings p d (p.insert d)
  | replace {id : ElementId} {q : Project} (done : p.replaceDeclaration id d = .ok q)
      (fits : d.Fits (p.declarations.eraseP (·.id = id))) : Brings p d q

/-- All ids in use differ and have been given out, and so have those of some elements that wait for
    their place. -/
structure Ledger (p : Project) (pending : List ElementId) : Prop where
  elements : (pending ++ p.declaredIds).Nodup
  given : ∀ x ∈ pending ++ p.declaredIds, x.index ≤ p.lastElement
  assigned : ∀ r ∈ p.references, r.id.isAssigned = true
  references : p.DistinctReferences
  numbered : ∀ r ∈ p.references, r.id.index ≤ p.lastReference

theorem ledger_empty : Ledger {} [] :=
  ⟨List.nodup_nil, nofun, nofun, List.nodup_nil, nofun⟩

section Brings

variable {p q : Project} {d : Declaration}

theorem replaceFirst_perm {id : ElementId} (new : Declaration) {ds : List Declaration}
    (h : (ds.find? (·.id = id)).isSome = true) :
    (replaceFirst id new ds).Perm (new :: ds.eraseP (·.id = id)) := by
  induction ds with
  | nil => simp at h
  | cons e rest ih =>
    by_cases hid : e.id = id
    · rw [replaceFirst, if_pos hid, List.eraseP_cons_of_pos (by simpa using hid)]
    · rw [List.find?_cons_of_neg (by simpa using hid)] at h
      rw [replaceFirst, if_neg hid, List.eraseP_cons_of_neg (by simpa using hid)]
      exact ((ih h).cons e).trans (List.Perm.swap _ _ _)

/-- Whichever way a declaration comes in, it stands numbered beside declarations that were there
    before, and no element id is given out for it. -/
theorem Brings.exists_others (h : p.Brings d q) :
    ∃ others, others.Sublist p.declarations ∧ d.Fits others ∧
      q.declarations.Perm ((d.number p.lastReference).1 :: others) ∧
      q.lastElement = p.lastElement ∧ q.lastReference = (d.number p.lastReference).2 := by
  cases h with
  | insert fits =>
    exact ⟨p.declarations, .refl _, fits, List.perm_append_singleton _ _, rfl, rfl⟩
  | @replace id _ done fits =>
    refine ⟨_, List.eraseP_sublist, fits, ?_⟩
    unfold replaceDeclaration at done
    split at done
    · cases done
    · next hfound =>
      cases done
      rw [declaration?, Option.isNone_iff_eq_none, ← ne_eq, Option.ne_none_iff_isSome] at hfound
      exact ⟨replaceFirst_perm _ hfound, rfl, rfl⟩

/-- The elements afterwards are those that came in and those of the others. -/
theorem declaredIds_perm_of_perm {others : List Declaration}
    (h : q.declarations.Perm ((d.number p.lastReference).1 :: others)) :
    q.declaredIds.Perm (d.declaredIds ++ others.flatMap Declaration.declaredIds) := by
  have hflat := h.flatMap_right Declaration.declaredIds
  rwa [List.flatMap_cons, Declaration.declaredIds_number] at hflat

/-- The reference ids afterwards are those that came in, the next ones, and those of the others. -/
theorem references_perm_of_perm {others : List Declaration}
    (h : q.declarations.Perm ((d.number p.lastReference).1 :: others)) :
    (q.references.map Reference.id).Perm
      (assignedIds d.references ++ nextIds p.lastReference (waiting d.references) ++
        (others.flatMap Declaration.references).map Reference.id) := by
  have hflat := (h.flatMap_right Declaration.references).map Reference.id
  rw [List.flatMap_cons, List.map_append] at hflat
  exact hflat.trans ((d.number_numberedTo p.lastReference).ids.append_right _)

end Brings

namespace Ledger

variable {p q : Project} {d : Declaration} {pending : List ElementId}

theorem distinctElements (h : p.Ledger pending) : p.DistinctElements :=
  (List.nodup_append.mp h.elements).2.1

theorem sound (h : p.Ledger pending) : p.Sound := by
  refine ⟨h.assigned, h.references, h.distinctElements, fun hin => ?_⟩
  have hle := h.given _ (List.mem_append_right _ hin)
  simp only [allocate] at hle
  omega

/-- What is pending may be listed in another order, and some of it may be given up. -/
theorem of_subperm (h : p.Ledger pending) {fewer : List ElementId}
    (hfewer : List.Subperm fewer pending) : p.Ledger fewer := by
  obtain ⟨kept, hperm, hkept⟩ := hfewer
  have hall : List.Sublist (kept ++ p.declaredIds) (pending ++ p.declaredIds) :=
    hkept.append_right _
  refine ⟨?_, ?_, h.assigned, h.references, h.numbered⟩
  · exact (hperm.append_right _).nodup_iff.mp (hall.nodup h.elements)
  · intro x hx
    exact h.given x (hall.subset ((hperm.append_right _).mem_iff.mpr hx))

/-- Where elements and references are only taken away, and no id is given out, all ids stay in
    order. -/
theorem of_fewer (h : p.Ledger pending) (hids : List.Subperm q.declaredIds p.declaredIds)
    (hrefs : (q.references.map Reference.id).Sublist (p.references.map Reference.id))
    (hlast : q.lastElement = p.lastElement) (hlastReference : q.lastReference = p.lastReference) :
    q.Ledger pending := by
  obtain ⟨kept, hperm, hkept⟩ := hids
  have hall : List.Sublist (pending ++ kept) (pending ++ p.declaredIds) := hkept.append_left _
  refine ⟨?_, ?_, ?_, hrefs.nodup h.references, ?_⟩
  · exact (hperm.append_left _).nodup_iff.mp (hall.nodup h.elements)
  · intro x hx
    rw [hlast]
    exact h.given x (hall.subset ((hperm.append_left _).mem_iff.mpr hx))
  · exact Reference.forall_id_of_subset (·.isAssigned = true) hrefs.subset h.assigned
  · rw [hlastReference]
    exact Reference.forall_id_of_subset (·.index ≤ p.lastReference) hrefs.subset h.numbered

/-- An id that is given out may be pending from then on. -/
theorem allocate (h : p.Ledger pending) : p.allocate.2.Ledger (p.allocate.1 :: pending) := by
  refine ⟨?_, ?_, h.assigned, h.references, h.numbered⟩
  · rw [List.cons_append, List.nodup_cons]
    refine ⟨fun hin => ?_, h.elements⟩
    have hle := h.given _ hin
    simp only [Project.allocate] at hle
    omega
  · intro x hx
    rcases List.mem_cons.mp hx with rfl | hx
    · exact Nat.le_refl _
    · exact Nat.le_succ_of_le (h.given x hx)

section Fits

variable {others : List Declaration} (hothers : others.Sublist p.declarations)
  (hfits : d.Fits others) (hpast : d.NotAheadOf p)

include hothers hfits in
private theorem nodup_elements_of_fits (h : p.Ledger pending) :
    ((pending.filter fun x => !d.declares x) ++
      (d.declaredIds ++ others.flatMap Declaration.declaredIds)).Nodup := by
  have hleft : List.Sublist (pending.filter fun x => !d.declares x) pending := List.filter_sublist
  have hrest := (hleft.append (hothers.flatMap Declaration.declaredIds)).nodup h.elements
  rw [(List.perm_append_comm_assoc _ _ _).nodup_iff, List.nodup_append]
  refine ⟨hfits.elements, hrest, ?_⟩
  rintro x hx _ hy rfl
  rcases List.mem_append.mp hy with hpending | hold
  · have hnot := (List.mem_filter.mp hpending).2
    rw [Declaration.declares_iff.mpr hx] at hnot
    cases hnot
  · exact hfits.newElements x hx hold

include hothers in
private theorem numbered_of_sublist (h : p.Ledger pending) :
    ∀ id ∈ (others.flatMap Declaration.references).map Reference.id,
      id.isAssigned = true ∧ id.index ≤ p.lastReference := by
  intro id hid
  obtain ⟨r, hr, rfl⟩ := List.mem_map.mp hid
  have hr := (hothers.flatMap Declaration.references).subset hr
  exact ⟨h.assigned r hr, h.numbered r hr⟩

include hothers hfits hpast in
private theorem nodup_references_of_fits (h : p.Ledger pending) :
    (assignedIds d.references ++ nextIds p.lastReference (waiting d.references) ++
      (others.flatMap Declaration.references).map Reference.id).Nodup := by
  have hold := ((hothers.flatMap Declaration.references).map Reference.id).nodup h.references
  rw [List.nodup_append, List.nodup_append]
  refine ⟨⟨hfits.references, nodup_nextIds _ _, ?_⟩, hold, ?_⟩
  · rintro id hid _ hnext rfl
    have hle := hpast.references id hid
    have hlt := (mem_nextIds.mp hnext).1
    omega
  · rintro id hid _ hother rfl
    rcases List.mem_append.mp hid with hcarried | hnext
    · exact hfits.newReferences id hcarried hother
    · have hlt := (mem_nextIds.mp hnext).1
      have hle := (h.numbered_of_sublist hothers id hother).2
      omega

include hothers hpast in
private theorem numbered_of_fits (h : p.Ledger pending) {id : RefId}
    (hid : id ∈ assignedIds d.references ++ nextIds p.lastReference (waiting d.references) ++
      (others.flatMap Declaration.references).map Reference.id) :
    id.isAssigned = true ∧ id.index ≤ p.lastReference + waiting d.references := by
  rw [List.mem_append, List.mem_append] at hid
  rcases hid with (hcarried | hnext) | hold
  · have hle := hpast.references _ hcarried
    exact ⟨(List.mem_filter.mp hcarried).2, by omega⟩
  · obtain ⟨hlt, hle⟩ := mem_nextIds.mp hnext
    refine ⟨?_, hle⟩
    rw [RefId.isAssigned, bne_iff_ne]
    rintro rfl
    exact Nat.not_lt_zero _ hlt
  · obtain ⟨hassigned, hle⟩ := h.numbered_of_sublist hothers id hold
    exact ⟨hassigned, by omega⟩

end Fits

/-- Bringing in a declaration that carries no id ahead of the project keeps all ids in order. What
    it declares is not pending any more. -/
theorem bring (h : p.Ledger pending) (hbrings : p.Brings d q) (hpast : d.NotAheadOf p) :
    q.Ledger (pending.filter fun x => !d.declares x) := by
  obtain ⟨others, hothers, hfits, hperm, hlast, hlastReference⟩ := hbrings.exists_others
  have hids := declaredIds_perm_of_perm hperm
  have hrefs := references_perm_of_perm hperm
  have hnumbered : ∀ r ∈ q.references,
      r.id.isAssigned = true ∧ r.id.index ≤ q.lastReference := by
    intro r hr
    rw [hlastReference, (d.number_numberedTo p.lastReference).counted]
    exact h.numbered_of_fits hothers hpast (hrefs.mem_iff.mp (List.mem_map_of_mem hr))
  refine ⟨?_, ?_, fun r hr => (hnumbered r hr).1, ?_, fun r hr => (hnumbered r hr).2⟩
  · rw [(hids.append_left _).nodup_iff]
    exact h.nodup_elements_of_fits hothers hfits
  · intro x hx
    rw [hlast]
    rcases List.mem_append.mp hx with hpending | hdeclared
    · exact h.given x (List.mem_append_left _ (List.mem_filter.mp hpending).1)
    · rcases List.mem_append.mp (hids.mem_iff.mp hdeclared) with hnew | hold
      · exact hpast.elements x hnew
      · exact h.given x (List.mem_append_right _ ((hothers.flatMap _).subset hold))
  · rw [DistinctReferences, hrefs.nodup_iff]
    exact h.nodup_references_of_fits hothers hfits hpast

end Ledger

end Project

end ClassToRecord
