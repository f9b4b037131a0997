import ClassToRecord.Proofs.Project.Place
import ClassToRecord.Proofs.Rename.Respelling
import ClassToRecord.Proofs.Usage.Sites

namespace ClassToRecord

namespace Project

variable {p : Project} {d : Declaration} {newName : String} {plan : RenamePlan}

theorem mentions_of_overridesDirectly {x y : ElementId} (h : p.OverridesDirectly y x) :
    p.Mentions x := by
  obtain ⟨m, hm, -, hx⟩ := h
  obtain ⟨e, he, hm⟩ := mem_methods_iff.mp hm
  exact ⟨e, he, .inr (.inr ⟨m, hm, hx⟩)⟩

theorem mentions_of_mem_superMethods {method x : ElementId} (h : x ∈ p.superMethods method) :
    p.Mentions x := by
  exact mentions_of_overridesDirectly (overridesDirectly_of_mem_superMethods h)

/-- Whatever overrides an element that a foreign declaration does not declare is not declared by it
    either. -/
theorem not_mem_declaredIds_of_overrides (hforeign : d.ForeignTo p) {x target : ElementId}
    (htarget : target ∉ d.declaredIds) (h : p.Overrides x target) : x ∉ d.declaredIds := by
  rcases h.cases_head with rfl | ⟨_, ⟨m, hm, rfl, -⟩, -⟩
  · exact htarget
  · exact hforeign m.id (mentions_of_mem_methods hm)

section Search

variable (i : Nat)

/-- A walk meets no method of a declaration that lists nothing that it visits. -/
theorem descend_place {seen queue : List ElementId} (hqueue : ∀ x ∈ queue, x ∈ seen)
    (hlists : ∀ x ∈ p.descend seen queue, ¬ d.ListsSuper x) :
    (p.place i d).descend seen queue = p.descend seen queue := by
  fun_induction descend p seen queue with
  | case1 seen => rw [descend]
  | case2 seen method rest found ih =>
    have hvisited : method ∈ p.descend (seen ++ found) (rest ++ found) := by
      obtain ⟨more, hmore⟩ := p.descend_eq_append (seen ++ found) (rest ++ found)
      rw [hmore]
      exact List.mem_append_left _ (List.mem_append_left _ (hqueue method List.mem_cons_self))
    rw [descend, overriders_place i (hlists method hvisited)]
    apply ih _ hlists
    intro x hx
    rcases List.mem_append.mp hx with hrest | hfound
    · exact List.mem_append_left _ (hqueue x (List.mem_cons_of_mem _ hrest))
    · exact List.mem_append_right _ hfound

theorem hierarchy_place {target : ElementId}
    (hlists : ∀ x ∈ p.hierarchy target, ¬ d.ListsSuper x) :
    (p.place i d).hierarchy target = p.hierarchy target :=
  descend_place i (fun _ hx => hx) hlists

/-- A climb passes through elements that occur in the project only. -/
theorem ascend_place (hforeign : d.ForeignTo p) {visited : List ElementId} {current : ElementId}
    (hcurrent : current ∉ d.declaredIds) :
    (p.place i d).ascend visited current = p.ascend visited current := by
  fun_induction ascend p visited current with
  | case1 visited current hnone =>
    rw [← superMethods_place i hforeign hcurrent] at hnone
    rw [ascend]
    split
    · rfl
    · next next hnext => simp [hnone] at hnext
  | case2 visited current next hnext hseen =>
    rw [← superMethods_place i hforeign hcurrent] at hnext
    rw [ascend]
    split
    · rfl
    · next other hother =>
      obtain rfl := Option.some.inj (hnext.symm.trans hother)
      rw [if_pos hseen]
  | case3 visited current next hnext hnew ih =>
    have hmentioned := mentions_of_mem_superMethods (List.mem_of_head? hnext)
    rw [← superMethods_place i hforeign hcurrent] at hnext
    rw [ascend]
    split
    · next hnone => simp [hnone] at hnext
    · next other hother =>
      obtain rfl := Option.some.inj (hnext.symm.trans hother)
      rw [if_neg hnew]
      exact ih (hforeign next hmentioned)

theorem renameTarget_place (hforeign : d.ForeignTo p) {accessor : ElementId}
    (haccessor : accessor ∉ d.declaredIds) :
    (p.place i d).renameTarget accessor = p.renameTarget accessor :=
  ascend_place i hforeign haccessor

/-- The start of a rename is the accessor itself, or an element that occurs in the project. -/
theorem renameTarget_not_mem_declaredIds (hforeign : d.ForeignTo p) {accessor : ElementId}
    (haccessor : accessor ∉ d.declaredIds) : p.renameTarget accessor ∉ d.declaredIds := by
  rcases (p.overrides_renameTarget accessor).cases_tail with heq | ⟨_, -, hlast⟩
  · rw [heq]
    exact haccessor
  · exact hforeign _ (mentions_of_overridesDirectly hlast)

section Target

variable (hforeign : d.ForeignTo p) {target : ElementId} (htarget : target ∉ d.declaredIds)
  (hlists : ∀ x ∈ p.hierarchy target, ¬ d.ListsSuper x)
include hforeign htarget hlists

theorem renamedTogether_place :
    (p.place i d).renamedTogether target = p.renamedTogether target := by
  rw [renamedTogether, renamedTogether, method?_place i hforeign htarget, hierarchy_place i hlists]

theorem prepareRenaming_place :
    (p.place i d).prepareRenaming target newName plan = p.prepareRenaming target newName plan := by
  rw [prepareRenaming, prepareRenaming, containing?_place i htarget,
    renamedTogether_place i hforeign htarget hlists]

end Target

theorem collision?_place (hforeign : d.ForeignTo p) {e : Declaration} (he : e ∈ p.declarations)
    {target : ElementId} (htarget : target ∉ d.declaredIds) :
    (p.place i d).collision? e target newName plan = p.collision? e target newName plan := by
  have hdescribe : ∀ m ∈ e.methods, (p.place i d).describe m.id = p.describe m.id :=
    fun m hm => describe_place i hforeign
      (hforeign m.id (mentions_of_mem_methods (mem_methods_iff.mpr ⟨e, he, hm⟩)))
  simp only [collision?, containing?_place i htarget, describe_place i hforeign htarget,
    describe_place i hforeign (hforeign e.id (mentions_id he))]
  split
  · rfl
  · split
    · rfl
    · apply Option.map_congr
      intro captor hcaptor
      rw [hdescribe captor (List.mem_of_find?_eq_some hcaptor)]

theorem usagesIn_place (hforeign : d.ForeignTo p) {e : Declaration} (he : e ∈ p.declarations)
    {wanted : List ElementId} :
    (p.place i d).usagesIn wanted newName plan e = p.usagesIn wanted newName plan e := by
  rw [usagesIn, usagesIn]
  apply List.map_congr_left
  rintro ⟨r, qualified⟩ hr
  have hrefers := Declaration.mem_references_of_qualified (List.mem_filter.mp hr).1
  have htarget : p.Mentions r.target := ⟨e, he, .inr (.inl ⟨r, hrefers, rfl⟩)⟩
  simp only [collision?_place i hforeign he (hforeign r.target htarget)]

/-- A search for the references of a rename passes over a declaration that has none. -/
theorem findUsages_place (hforeign : d.ForeignTo p) {target : ElementId}
    (htarget : target ∉ d.declaredIds) (hlists : ∀ x ∈ p.hierarchy target, ¬ d.ListsSuper x)
    (hrefers : ∀ x ∈ p.hierarchy target, ¬ d.RefersTo x) :
    (p.place i d).findUsages target newName plan = p.findUsages target newName plan := by
  have hnone : (p.place i d).usagesIn (p.renamedTogether target) newName plan d = [] := by
    rw [List.eq_nil_iff_forall_not_mem]
    intro site hsite
    obtain ⟨r, hr, -, hwanted⟩ := mem_usagesIn hsite
    have habove := mem_hierarchy_iff.mpr (overrides_of_mem_renamedTogether hwanted)
    exact hrefers r.target habove ⟨r, hr, rfl⟩
  have hothers : ∀ e ∈ p.declarations,
      (p.place i d).usagesIn (p.renamedTogether target) newName plan e =
        p.usagesIn (p.renamedTogether target) newName plan e :=
    fun e he => usagesIn_place i hforeign he
  rw [findUsages, findUsages, containing?_place i htarget,
    renamedTogether_place i hforeign htarget hlists]
  rw [flatMap_place i hnone, List.flatMap_congr hothers]

/-- Nor does it take part in the conflicts over a new name. -/
theorem nameConflicts_place (hforeign : d.ForeignTo p) {target : ElementId}
    (htarget : target ∉ d.declaredIds) (hlists : ∀ x ∈ p.hierarchy target, ¬ d.ListsSuper x) :
    (p.place i d).nameConflicts target newName plan = p.nameConflicts target newName plan := by
  rw [nameConflicts, nameConflicts, hierarchy_place i hlists]
  apply List.flatMap_congr
  intro id hid
  have hidApart := not_mem_declaredIds_of_overrides hforeign htarget (mem_hierarchy_iff.mp hid)
  rw [method?_place i hforeign hidApart, owner?_place i hidApart]
  split
  · next m owner _ howner =>
    have howner := List.mem_of_find?_eq_some howner
    apply List.map_congr_left
    intro e he
    have he := mem_methods_iff.mpr ⟨owner, howner, (List.mem_filter.mp he).1⟩
    rw [describe_place i hforeign (hforeign e.id (mentions_of_mem_methods he)),
      describe_place i hforeign (hforeign owner.id (mentions_id howner))]
  · rfl

/-- A declaration that refers to none of the elements loses access to none of them. -/
theorem accessibilityConflicts_place (hforeign : d.ForeignTo p) {elements : List ElementId}
    {scope : ElementId} {visibility : Visibility} (hscope : scope ∉ d.declaredIds)
    (helements : ∀ x ∈ elements, x ∉ d.declaredIds ∧ ¬ d.RefersTo x) :
    (p.place i d).accessibilityConflicts elements scope visibility =
      p.accessibilityConflicts elements scope visibility := by
  simp only [accessibilityConflicts, declaration?_place i hscope]
  split
  · rfl
  · next s _ =>
    apply List.flatMap_congr
    intro x hx
    obtain ⟨hxApart, hrefers⟩ := helements x hx
    have hany : d.references.any (·.target = x) = false := by
      simpa [Declaration.RefersTo] using hrefers
    rw [filter_place i (by rw [hany, Bool.false_and])]
    apply List.map_congr_left
    intro e he
    have he := (List.mem_filter.mp he).1
    rw [describe_place i hforeign hxApart,
      describe_place i hforeign (hforeign e.id (mentions_id he))]

end Search

section Edits

theorem renameInOwner_insertIdx {element : ElementId} (h : d.declares element = false)
    (ds : List Declaration) (i : Nat) :
    renameInOwner element newName (ds.insertIdx i d) =
      (renameInOwner element newName ds).insertIdx i d := by
  induction ds generalizing i with
  | nil => cases i <;> simp [renameInOwner, h]
  | cons e rest ih =>
    cases i with
    | zero => simp [renameInOwner, h]
    | succ i =>
      rw [List.insertIdx_succ_cons, renameInOwner, renameInOwner]
      split
      · rw [List.insertIdx_succ_cons]
      · rw [List.insertIdx_succ_cons, ih i]

theorem respell_eq_self {refs : List RefId} (h : ∀ r ∈ d.references, r.id ∉ refs) :
    d.respell refs newName = d := by
  have hcode : ∀ child ∈ d.children,
      child.mapCode (Code.mapReferences (Reference.respelled refs newName)) = child := by
    intro child hchild
    apply Child.mapCode_eq_self
    intro c hc
    have hsame : ∀ r ∈ c.references, r.respelled refs newName = id r := by
      intro r hr
      have hr := Declaration.mem_references_of_code? hchild hc hr
      rw [Reference.respelled, if_neg (by simpa using h r hr), id]
    rw [Code.mapReferences_congr hsame, c.mapReferences_id]
  rw [Declaration.respell, Declaration.mapReferences]
  congr 1
  exact (List.map_congr_left hcode).trans d.children.map_id'

variable {sites : List ReferenceSite} {element : ElementId}

theorem siteFault?_place (i : Nat)
    (hsites : ∀ site ∈ sites, ∀ r ∈ d.references, r.id ≠ site.ref) :
    (p.place i d).siteFault? element sites = p.siteFault? element sites := by
  rw [siteFault?, siteFault?, ← List.head?_filterMap, ← List.head?_filterMap]
  congr 1
  apply List.filterMap_congr
  intro site hsite
  rw [reference?_place i (hsites site hsite)]

/-- A rename leaves a declaration alone that does not declare the element and has none of the
    sites. -/
theorem renameElement_place (i : Nat) (helement : element ∉ d.declaredIds)
    (hsites : ∀ site ∈ sites, ∀ r ∈ d.references, r.id ≠ site.ref) :
    (p.place i d).renameElement element newName sites =
      (p.renameElement element newName sites).map (·.place i d) := by
  have hdeclares : d.declares element = false := by simpa [Declaration.declares] using helement
  have hspelled : d.respell (sites.map ReferenceSite.ref) newName = d := by
    apply respell_eq_self
    intro r hr hin
    obtain ⟨site, hsite, href⟩ := List.mem_map.mp hin
    exact hsites site hsite r hr href.symm
  rw [renameElement, renameElement, siteFault?_place i hsites, owner?_place i helement]
  split
  · rfl
  · rfl
  · split
    · simp only [place, renameInOwner_insertIdx hdeclares, List.map_insertIdx, hspelled, Except.map]
    · rfl

theorem renameEach_place (i : Nat) {entries : List (ElementId × String)}
    (hentries : ∀ entry ∈ entries, entry.1 ∉ d.declaredIds)
    (hsites : ∀ site ∈ sites, ∀ r ∈ d.references, r.id ≠ site.ref) (rewritten : Nat) :
    renameEach sites (p.place i d) rewritten entries =
      ⟨(renameEach sites p rewritten entries).project.place i d,
        (renameEach sites p rewritten entries).result⟩ := by
  induction entries generalizing p rewritten with
  | nil => rfl
  | cons entry rest ih =>
    obtain ⟨element, newName⟩ := entry
    have hown : ∀ site ∈ sites.filter (·.element = element), ∀ r ∈ d.references,
        r.id ≠ site.ref :=
      fun site hsite => hsites site (List.mem_filter.mp hsite).1
    have hfirst : (p.place i d).renameElement element newName
        (sites.filter (·.element = element)) = _ :=
      renameElement_place i (hentries _ List.mem_cons_self) hown
    simp only [renameEach, hfirst]
    cases p.renameElement element newName (sites.filter (·.element = element)) with
    | error failure => rfl
    | ok next =>
      exact ih (fun entry hentry => hentries entry (List.mem_cons_of_mem _ hentry)) _

end Edits

end Project

end ClassToRecord
