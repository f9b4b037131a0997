import ClassToRecord.Usage.Collection
import ClassToRecord.Proofs.Hierarchy
import ClassToRecord.Proofs.OrderedMap
import ClassToRecord.Proofs.Project.Lookup
import ClassToRecord.Proofs.Traversal

open ClassToRecord.Traversal

namespace ClassToRecord

private theorem map_fst_qualifiedFrom (afterDot : Bool) (fragments : List Fragment) :
    (Code.qualifiedFrom afterDot fragments).map Prod.fst =
      fragments.filterMap Fragment.reference? := by
  induction fragments generalizing afterDot with
  | nil => rfl
  | cons fragment rest ih =>
    cases fragment with
    | text s => exact ih _
    | ref r => exact congrArg (r :: ·) (ih false)

/-- The references of some code, each marked as qualified or not, are all its references. -/
@[simp] theorem Code.map_fst_qualifiedReferences (c : Code) :
    c.qualifiedReferences.map Prod.fst = c.references :=
  map_fst_qualifiedFrom false c.fragments

/-- The marked references of a declaration are all its references, in order. -/
theorem Declaration.map_fst_qualifiedReferences (d : Declaration) :
    d.qualifiedReferences.map Prod.fst = d.references := by
  rw [qualifiedReferences, references, List.map_flatMap]
  congr 1
  funext child
  cases hcode : child.code? <;> simp [Child.qualifiedReferences, Child.references, hcode]

theorem Declaration.mem_references_of_qualified {d : Declaration} {r : Reference}
    {qualified : Bool} (h : (r, qualified) ∈ d.qualifiedReferences) : r ∈ d.references := by
  rw [← d.map_fst_qualifiedReferences]
  exact List.mem_map.mpr ⟨_, h, rfl⟩

/-- A site tells where a reference of a declaration stands and what it refers to. -/
structure ReferenceSite.PointsTo (site : ReferenceSite) (d : Declaration) (r : Reference) :
    Prop where
  ref : site.ref = r.id
  element : site.element = r.target
  declaration : site.declaration = d.id

theorem sitesOf_append (us vs : List Usage) : sitesOf (us ++ vs) = sitesOf us ++ sitesOf vs :=
  List.filterMap_append

/-- The sites among the usages of one rename are those that were found for it. -/
theorem sitesOf_renaming (target : ElementId) (newName : String) (sites : List ReferenceSite) :
    sitesOf (.accessorRename target newName none ::
      sites.map fun site => .accessorRename site.element newName (some site)) = sites := by
  rw [sitesOf, List.filterMap_cons_none rfl, List.filterMap_map]
  exact List.filterMap_some

/-- Usages that ask for no rename have no sites. -/
theorem sitesOf_eq_nil_of_structural {usages : List Usage}
    (h : ∀ usage ∈ usages, usage.isStructural = true) : sitesOf usages = [] := by
  rw [sitesOf, List.filterMap_eq_nil_iff]
  intro usage husage
  cases usage with
  | accessorRename => exact absurd (h _ husage) Bool.false_ne_true
  | _ => rfl

namespace Project

/-- A search finds the sites of exactly the references to one of the wanted elements. -/
theorem mem_usagesIn {p : Project} {wanted : List ElementId} {newName : String}
    {plan : RenamePlan} {d : Declaration} {site : ReferenceSite}
    (h : site ∈ p.usagesIn wanted newName plan d) :
    ∃ r ∈ d.references, site.PointsTo d r ∧ r.target ∈ wanted := by
  obtain ⟨⟨r, qualified⟩, hr, rfl⟩ := List.mem_map.mp h
  obtain ⟨hr, hwanted⟩ := List.mem_filter.mp hr
  exact ⟨r, Declaration.mem_references_of_qualified hr, ⟨rfl, rfl, rfl⟩,
    List.contains_iff_mem.mp hwanted⟩

theorem exists_mem_usagesIn (p : Project) {wanted : List ElementId} (newName : String)
    (plan : RenamePlan) {d : Declaration} {r : Reference} (hr : r ∈ d.references)
    (hwanted : r.target ∈ wanted) :
    ∃ site ∈ p.usagesIn wanted newName plan d, site.PointsTo d r := by
  rw [← d.map_fst_qualifiedReferences] at hr
  obtain ⟨⟨_, qualified⟩, hmarked, rfl⟩ := List.mem_map.mp hr
  exact ⟨_, List.mem_map.mpr ⟨_,
    List.mem_filter.mpr ⟨hmarked, List.contains_iff_mem.mpr hwanted⟩, rfl⟩, ⟨rfl, rfl, rfl⟩⟩

/-- What is renamed together with an element starts with the element. -/
theorem renamedTogether_eq_cons (p : Project) (element : ElementId) :
    ∃ found, p.renamedTogether element = element :: found := by
  unfold renamedTogether
  split
  · exact p.hierarchy_eq_cons element
  · exact ⟨[], rfl⟩

theorem mem_renamedTogether_self (p : Project) (element : ElementId) :
    element ∈ p.renamedTogether element := by
  obtain ⟨found, hfound⟩ := p.renamedTogether_eq_cons element
  rw [hfound]
  exact List.mem_cons_self

/-- Whatever is renamed together with an element overrides it, or is the element itself. -/
theorem overrides_of_mem_renamedTogether {p : Project} {element x : ElementId}
    (h : x ∈ p.renamedTogether element) : p.Overrides x element := by
  unfold renamedTogether at h
  split at h
  · exact mem_hierarchy_iff.mp h
  · rw [List.mem_singleton.mp h]
    exact .refl

/-- Planning a rename gives its target the new name, and all that is renamed together with the
    target as well unless it has a new name already. Its sites are those of a search for all of
    that. -/
theorem collectRename_eq_ok {p : Project} {target : ElementId} {newName : String}
    {acc acc' : CollectedUsages} (h : p.collectRename target newName acc = .ok acc') :
    acc'.plan = (p.renamedTogether target).tail.foldl (fun plan e => plan.insertIfNew e newName)
      (acc.plan.insert target newName) ∧
    acc'.usages = acc.usages ++ .accessorRename target newName none ::
      (p.declarations.flatMap
        (p.usagesIn (p.renamedTogether target) newName acc'.plan)).map
          fun site => .accessorRename site.element newName (some site) := by
  unfold collectRename at h
  rw [bind_eq_ok_iff] at h
  obtain ⟨plan, hplan, h⟩ := h
  rw [bind_eq_ok_iff] at h
  obtain ⟨sites, hsites, h⟩ := h
  cases h
  simp only [during, mapError_eq_ok_iff, prepareRenaming, findUsages] at hplan hsites
  split at hplan
  · simp [refuse] at hplan
  · next hknown =>
    rw [if_neg hknown] at hsites
    cases hplan
    cases hsites
    exact ⟨rfl, rfl⟩

/-- It marks its target with the new name, and nothing else. -/
theorem marker_mem_iff_of_collectRename {p : Project} {target marked : ElementId}
    {newName name : String} {acc acc' : CollectedUsages}
    (h : p.collectRename target newName acc = .ok acc') :
    .accessorRename marked name none ∈ acc'.usages ↔
      .accessorRename marked name none ∈ acc.usages ∨ target = marked ∧ newName = name := by
  rw [(collectRename_eq_ok h).2]
  simp [eq_comm]

/-- The names that a plan has after one more rename. -/
theorem get?_of_collectRename {p : Project} {target x : ElementId} {newName : String}
    {acc acc' : CollectedUsages} (h : p.collectRename target newName acc = .ok acc') :
    acc'.plan.get? x = if x = target then some newName else
      (acc.plan.get? x).or (if x ∈ p.renamedTogether target then some newName else none) := by
  obtain ⟨found, hfound⟩ := p.renamedTogether_eq_cons target
  rw [(collectRename_eq_ok h).1, OrderedMap.get?_foldl_insertIfNew, OrderedMap.get?_insert, hfound,
    List.tail_cons]
  by_cases htarget : x = target <;> simp [htarget]

/-- A name that a plan has then was there before, or it is the new one. -/
theorem get?_of_collectRename_eq_some {p : Project} {target x : ElementId}
    {newName name : String} {acc acc' : CollectedUsages}
    (h : p.collectRename target newName acc = .ok acc') (hx : acc'.plan.get? x = some name) :
    acc.plan.get? x = some name ∨ newName = name ∧ x ∈ p.renamedTogether target := by
  rw [get?_of_collectRename h] at hx
  split at hx
  · next hself =>
    exact .inr ⟨Option.some.inj hx, hself ▸ p.mem_renamedTogether_self x⟩
  · rcases Option.or_eq_some_iff.mp hx with hold | ⟨-, hnew⟩
    · exact .inl hold
    · split at hnew
      · next hin => exact .inr ⟨Option.some.inj hnew, hin⟩
      · cases hnew

/-- It adds what is renamed together with its target to the plan. -/
theorem mem_keys_of_collectRename {p : Project} {target x : ElementId} {newName : String}
    {acc acc' : CollectedUsages} (h : p.collectRename target newName acc = .ok acc') :
    x ∈ acc'.plan.keys ↔ x ∈ acc.plan.keys ∨ x ∈ p.renamedTogether target := by
  obtain ⟨found, hfound⟩ := p.renamedTogether_eq_cons target
  rw [← OrderedMap.isSome_get?_iff, ← OrderedMap.isSome_get?_iff, get?_of_collectRename h, hfound]
  by_cases htarget : x = target <;> by_cases hin : x ∈ found <;> simp [htarget, hin]

end Project

end ClassToRecord
