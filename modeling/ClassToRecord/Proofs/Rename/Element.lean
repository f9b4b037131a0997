import ClassToRecord.Rename.Apply
import ClassToRecord.Proofs.Rename.Names

namespace ClassToRecord

/-- A child that is a certain member declares it. -/
theorem Child.mem_declaredIds_of_isMember {child : Child} {element : ElementId}
    (h : child.isMember element = true) : element ∈ child.declaredIds := by
  cases child with
  | field f => exact List.mem_singleton.mpr (of_decide_eq_true h).symm
  | method m => exact List.mem_cons.mpr (.inl (of_decide_eq_true h).symm)
  | _ => cases h

theorem Declaration.declares_of_hasMember {d : Declaration} {element : ElementId}
    (h : d.hasMember element = true) : d.declares element = true := by
  obtain ⟨child, hchild, hmember⟩ := List.any_eq_true.mp h
  exact declares_iff.mpr (mem_declaredIds_of_mem_children hchild
    (Child.mem_declaredIds_of_isMember hmember))

/-- A field or a method is no parameter. -/
theorem Project.DistinctElements.not_mem_parameters {p : Project} (h : p.DistinctElements)
    {d e : Declaration} {element : ElementId} {m : Method} (hd : d ∈ p.declarations)
    (he : e ∈ p.declarations) (hmember : d.hasMember element = true)
    (hm : Child.method m ∈ e.children) :
    element ∉ m.parameters.map Parameter.id := by
  intro hparameter
  obtain ⟨child, hchild, hmember⟩ := List.any_eq_true.mp hmember
  have hsame : child = .method m := h.child_eq hd he hchild hm
    (Child.mem_declaredIds_of_isMember hmember) (List.mem_cons_of_mem _ hparameter)
  subst hsame
  have hid : m.id = element := of_decide_eq_true hmember
  exact (List.nodup_cons.mp (h.child_nodup he hm)).1 (hid ▸ hparameter)

/-- A declaration that does not have the member stays as it is. -/
theorem Declaration.renameMember_of_not_hasMember {d : Declaration} {element : ElementId}
    {newName : String} (h : d.hasMember element = false) : d.renameMember element newName = d := by
  have hchildren : ∀ child ∈ d.children, child.renameMember element newName = child := by
    intro child hchild
    have hother : child.isMember element = false := by
      simpa using List.any_eq_false.mp h child hchild
    cases child with
    | field f => simp [Child.renameMember, of_decide_eq_false hother]
    | method m => simp [Child.renameMember, of_decide_eq_false hother]
    | _ => rfl
  rw [renameMember, List.map_congr_left hchildren, List.map_id']

private theorem renameMember_of_not_declares {d : Declaration} {element : ElementId}
    {newName : String} (h : d.declares element = false) : d.renameMember element newName = d := by
  apply Declaration.renameMember_of_not_hasMember
  cases hmember : d.hasMember element with
  | false => rfl
  | true => exact (Declaration.declares_of_hasMember hmember).symm.trans h

/-- Where no element is declared twice, nothing but the owner of a member has it. -/
theorem Project.renameInOwner_eq_map {element : ElementId} {newName : String}
    {ds : List Declaration} (hdistinct : (ds.flatMap Declaration.declaredIds).Nodup) :
    Project.renameInOwner element newName ds =
      ds.map (Declaration.renameMember element newName) := by
  induction ds with
  | nil => rfl
  | cons d rest ih =>
    rw [List.flatMap_cons, List.nodup_append] at hdistinct
    obtain ⟨_, hrest, hapart⟩ := hdistinct
    simp only [Project.renameInOwner, List.map_cons]
    by_cases hdeclares : d.declares element = true
    · rw [if_pos hdeclares]
      congr 1
      refine (List.map_id' rest).symm.trans (List.map_congr_left fun e he => ?_)
      refine (renameMember_of_not_declares (Bool.eq_false_iff.mpr fun hother => ?_)).symm
      exact hapart element (Declaration.declares_iff.mp hdeclares) element
        (List.mem_flatMap.mpr ⟨e, he, Declaration.declares_iff.mp hother⟩) rfl
    · rw [if_neg hdeclares, ih hrest,
        renameMember_of_not_declares (Bool.eq_false_iff.mpr hdeclares)]

private theorem mapCode_renameMember {child : Child} {element : ElementId} {newName : String}
    {f : Code → Code}
    (hf : ∀ c, child.code? = some c → f c = c.renamedBy (nameFor element newName)) :
    (child.renameMember element newName).mapCode f = child.renamedBy (nameFor element newName) := by
  cases child with
  | field fld =>
    have hvalue : fld.initializer?.map f =
        fld.initializer?.map (Code.renamedBy (nameFor element newName)) :=
      Option.map_congr hf
    by_cases hid : fld.id = element <;>
      simp [Child.renameMember, Child.mapCode, Child.renamedBy, Field.renamedBy, nameFor, hid,
        hvalue]
  | method m =>
    have hbody := hf m.body rfl
    by_cases hid : m.id = element <;>
      simp [Child.renameMember, Child.mapCode, Child.renamedBy, Method.renamedBy, nameFor, hid,
        hbody]
  | code c => exact congrArg Child.code (hf c rfl)
  | _ => rfl

private theorem respell_renameMember {d : Declaration} {element : ElementId} {newName : String}
    {refs : List RefId} (hrefs : ∀ r ∈ d.references, r.id ∈ refs ↔ r.target = element) :
    (d.renameMember element newName).respell refs newName =
      d.renamedBy (nameFor element newName) := by
  simp only [Declaration.respell, Declaration.mapReferences, Declaration.renameMember,
    Declaration.renamedBy, List.map_map, Declaration.mk.injEq, true_and]
  refine List.map_congr_left fun child hchild => mapCode_renameMember fun c hc => ?_
  refine Code.mapReferences_congr fun r hr => ?_
  have hmem := Declaration.mem_references_of_code? hchild hc hr
  by_cases htarget : r.target = element
  · rw [if_pos (List.contains_iff_mem.mpr ((hrefs r hmem).mpr htarget))]
    simp [Reference.renamedBy, nameFor, htarget]
  · rw [if_neg fun h => htarget ((hrefs r hmem).mp (List.contains_iff_mem.mp h))]
    simp [Reference.renamedBy, nameFor, htarget, Reference.renamed]

namespace Project

/-- Sites are in order for a rename if they are for its element and at references that are there. -/
theorem siteFault?_eq_none_iff {p : Project} {element : ElementId} {sites : List ReferenceSite} :
    p.siteFault? element sites = none ↔
      ∀ site ∈ sites, site.element = element ∧ site.ref ∈ p.references.map Reference.id := by
  rw [siteFault?, List.findSome?_eq_none_iff]
  refine forall₂_congr fun site _ => ?_
  by_cases helement : site.element = element
  · rw [if_neg (not_not.mpr helement)]
    simp [helement, reference?, List.find?_eq_none]
  · simp [helement]

/-- A rename succeeds if its sites are in order and a declared member has the id. Then its effect
    is on the first declaration of the member and on the sites. -/
theorem renameElement_eq_ok_iff {p q : Project} {element : ElementId} {newName : String}
    {sites : List ReferenceSite} :
    p.renameElement element newName sites = .ok q ↔
      p.siteFault? element sites = none ∧
      (∃ owner, p.owner? element = some owner ∧ owner.hasMember element = true) ∧
      q = { p with
        declarations := (renameInOwner element newName p.declarations).map
          (Declaration.respell (sites.map ReferenceSite.ref) newName) } := by
  unfold renameElement
  cases hfault : p.siteFault? element sites with
  | some fault => simp [refuse]
  | none =>
    cases howner : p.owner? element with
    | none => simp [refuse]
    | some owner =>
      cases hmember : owner.hasMember element with
      | false => simp [refuse, hmember]
      | true =>
        simp only [hmember, if_true, Except.ok.injEq]
        constructor
        · rintro rfl
          exact ⟨trivial, ⟨owner, rfl, hmember⟩, rfl⟩
        · rintro ⟨_, _, rfl⟩
          rfl

/-- If the sites of a rename are all references to its element and no others, then the rename is
    the pass that gives this one element its new name. -/
theorem renameElement_eq_renamedBy {p q : Project} {element : ElementId} {newName : String}
    {sites : List ReferenceSite} (hdistinct : p.DistinctElements)
    (hsites : ∀ r ∈ p.references, r.id ∈ sites.map ReferenceSite.ref ↔ r.target = element)
    (h : p.renameElement element newName sites = .ok q) :
    q = p.renamedBy (nameFor element newName) := by
  obtain ⟨_, _, rfl⟩ := renameElement_eq_ok_iff.mp h
  rw [renameInOwner_eq_map hdistinct, List.map_map]
  simp only [renamedBy, Project.mk.injEq, and_true]
  refine List.map_congr_left fun d hd => respell_renameMember fun r hr => ?_
  exact hsites r (mem_references_iff.mpr ⟨d, hd, hr⟩)

end Project

end ClassToRecord
