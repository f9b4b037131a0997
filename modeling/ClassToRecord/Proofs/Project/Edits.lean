import ClassToRecord.Proofs.Project.Replace
import ClassToRecord.Proofs.Rename.Respelling

namespace ClassToRecord

/-- A declaration has a reference with the same id and the same target, however it is spelled. -/
def Declaration.HasSite (d : Declaration) (r : Reference) : Prop :=
  ∃ s ∈ d.references, s.id = r.id ∧ s.target = r.target

namespace Project

/-- A project has a reference with the same id and the same target, however it is spelled. -/
def HasSite (p : Project) (r : Reference) : Prop :=
  ∃ s ∈ p.references, s.id = r.id ∧ s.target = r.target

/-- Edits that lead from one project to another, with the declarations that they have brought in,
    the last one first. All projects on the way have distinct elements and references. -/
inductive EditedTo (p : Project) : List Declaration → Project → Prop where
  | start : EditedTo p [] p
  | insert {brought : List Declaration} {q : Project} (before : EditedTo p brought q)
      (d : Declaration) (elements : (q.insert d).DistinctElements)
      (references : (q.insert d).DistinctReferences) :
      EditedTo p ((d.number q.lastReference).1 :: brought) (q.insert d)
  | replace {brought : List Declaration} {q next : Project} (before : EditedTo p brought q)
      {id : ElementId} {d : Declaration} (done : q.replaceDeclaration id d = .ok next)
      (elements : next.DistinctElements) (references : next.DistinctReferences) :
      EditedTo p ((d.number q.lastReference).1 :: brought) next
  | rename {brought : List Declaration} {q next : Project} (before : EditedTo p brought q)
      {element : ElementId} {newName : String} {sites : List ReferenceSite}
      (done : q.renameElement element newName sites = .ok next)
      (elements : next.DistinctElements) (references : next.DistinctReferences) :
      EditedTo p brought next

section Steps

variable {p q : Project} {r : Reference}

theorem hasSite_iff : p.HasSite r ↔ ∃ d ∈ p.declarations, d.HasSite r := by
  constructor
  · rintro ⟨s, hs, hsame⟩
    obtain ⟨d, hd, hs⟩ := mem_references_iff.mp hs
    exact ⟨d, hd, s, hs, hsame⟩
  · rintro ⟨d, hd, s, hs, hsame⟩
    exact ⟨s, mem_references_iff.mpr ⟨d, hd, hs⟩, hsame⟩

/-- An insertion adds the sites of the declaration that it brings. -/
theorem hasSite_insert {d : Declaration} :
    (p.insert d).HasSite r ↔ p.HasSite r ∨ (d.number p.lastReference).1.HasSite r := by
  simp only [hasSite_iff, insert, List.mem_append, List.mem_singleton, or_and_right, exists_or,
    exists_eq_left]

/-- A replacement has no sites but those of the declaration that it brings and old ones. -/
theorem hasSite_of_replaceDeclaration {id : ElementId} {d : Declaration}
    (h : p.replaceDeclaration id d = .ok q) (hsite : q.HasSite r) :
    p.HasSite r ∨ (d.number p.lastReference).1.HasSite r := by
  obtain ⟨e, he, hsite⟩ := hasSite_iff.mp hsite
  rcases mem_or_eq_of_replaceDeclaration h he with hold | rfl
  · exact .inl (hasSite_iff.mpr ⟨e, hold, hsite⟩)
  · exact .inr hsite

/-- A rename leaves the sites where they are. -/
theorem hasSite_renameElement {element : ElementId} {newName : String}
    {sites : List ReferenceSite} (h : p.renameElement element newName sites = .ok q) :
    q.HasSite r ↔ p.HasSite r := by
  simp [HasSite, references_renameElement h]

end Steps

namespace EditedTo

variable {p q : Project} {brought : List Declaration}

theorem distinctElements (h : EditedTo p brought q) (hp : p.DistinctElements) :
    q.DistinctElements := by
  cases h with
  | start => exact hp
  | insert _ _ elements => exact elements
  | replace _ _ elements => exact elements
  | rename _ _ elements => exact elements

/-- All references that edits bring in have been given a number. -/
theorem isAssigned (h : EditedTo p brought q) :
    ∀ d ∈ brought, ∀ r ∈ d.references, r.id.isAssigned = true := by
  have hnumbered : ∀ (d : Declaration) (last : Nat), ∀ r ∈ (d.number last).1.references,
      r.id.isAssigned = true := by
    intro d last r hr
    obtain ⟨_, _, hnumbers⟩ := Declaration.exists_reference_of_number hr
    exact hnumbers.assigned
  induction h with
  | start => simp
  | insert _ d _ _ ih => exact List.forall_mem_cons.mpr ⟨hnumbered d _, ih⟩
  | replace _ _ _ _ ih => exact List.forall_mem_cons.mpr ⟨hnumbered _ _, ih⟩
  | rename _ _ _ _ ih => exact ih

/-- Whatever edits are made, a reference was there before, or it came with a declaration that was
    brought in. -/
theorem hasSite (h : EditedTo p brought q) {r : Reference} (hsite : q.HasSite r) :
    p.HasSite r ∨ ∃ d ∈ brought, d.HasSite r := by
  induction h with
  | start => exact .inl hsite
  | insert _ d _ _ ih =>
    rcases hasSite_insert.mp hsite with hold | hnew
    · exact (ih hold).imp_right fun ⟨e, he, hin⟩ => ⟨e, List.mem_cons_of_mem _ he, hin⟩
    · exact .inr ⟨_, List.mem_cons_self, hnew⟩
  | replace _ done _ _ ih =>
    rcases hasSite_of_replaceDeclaration done hsite with hold | hnew
    · exact (ih hold).imp_right fun ⟨e, he, hin⟩ => ⟨e, List.mem_cons_of_mem _ he, hin⟩
    · exact .inr ⟨_, List.mem_cons_self, hnew⟩
  | rename _ done _ _ ih => exact ih ((hasSite_renameElement done).mp hsite)

end EditedTo

end Project

end ClassToRecord
