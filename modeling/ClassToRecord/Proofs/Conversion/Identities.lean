import ClassToRecord.Proofs.Conversion.WellFormed

namespace ClassToRecord

section Renames

variable (c : Candidate) (element : ElementId) (newName : String)

private theorem keptIds_renameMember (child : Child) :
    c.keptIds (child.renameMember element newName) = c.keptIds child :=
  Child.read_renameMember element newName c.keptIds (fun _ _ => rfl) (fun _ _ => rfl) child

private theorem keptIds_mapCode (f : Code → Code) (child : Child) :
    c.keptIds (child.mapCode f) = c.keptIds child := by
  cases child <;> rfl

private theorem keptReferences_renameMember (child : Child) :
    c.keptReferences (child.renameMember element newName) = c.keptReferences child :=
  Child.read_renameMember element newName c.keptReferences (fun _ _ => rfl) (fun _ _ => rfl) child

private theorem keptReferences_mapCode (f : Reference → Reference) (child : Child) :
    c.keptReferences (child.mapCode (Code.mapReferences f)) =
      (c.keptReferences child).map f := by
  have helides : c.elides (child.mapCode (Code.mapReferences f)) = c.elides child := by
    cases child <;> rfl
  unfold Candidate.keptReferences
  rw [helides]
  split
  · rfl
  · exact child.references_mapCode f

private theorem Reference.identity_respelled (refs : List RefId) (r : Reference) :
    (r.respelled refs newName).identity = r.identity := by
  simp [identity]

end Renames

namespace Project

variable {p q : Project} {c : Candidate} {plan : RenamePlan} {usages : List Usage}
  {d e : Declaration} {child : Child} {x : ElementId}

/-- The elements of a project that the conversion of a candidate leaves declared. -/
def keptIds (p : Project) (c : Candidate) : List ElementId :=
  p.declarations.flatMap fun d => d.id :: d.children.flatMap c.keptIds

/-- The references of a project that stand neither in an elided key field nor in an elided
    accessor. -/
def keptReferences (p : Project) (c : Candidate) : List Reference :=
  p.declarations.flatMap fun d => d.children.flatMap c.keptReferences

theorem keptIds_sublist (p : Project) (c : Candidate) :
    (p.keptIds c).Sublist p.declaredIds :=
  List.Sublist.flatMap_right _ fun d _ =>
    (List.Sublist.flatMap_right d.children fun child _ => c.keptIds_sublist child).cons_cons d.id

theorem keptReferences_sublist (p : Project) (c : Candidate) :
    (p.keptReferences c).Sublist p.references :=
  List.Sublist.flatMap_right _ fun d _ =>
    List.Sublist.flatMap_right d.children fun child _ => c.keptReferences_sublist child

/-- The elements that a conversion takes away: key fields that are no components, and bound
    accessors with their parameters, unless the accessor is the canonical constructor. -/
inductive Loses (p : Project) (c : Candidate) : ElementId → Prop where
  | field {d : Declaration} {f : Field} (hd : d ∈ p.declarations) (hf : f ∈ d.fields)
      (hkey : c.isKeyField f.id = true) (hother : c.isComponent f.id = false) : Loses p c f.id
  | accessor {m : Method} (hm : m ∈ p.methods)
      (hbound : (c.bindingForAccessor? m.id).isSome = true)
      (hother : c.constructor? ≠ some m.id) : Loses p c m.id
  | parameter {m : Method} {q : Parameter} (hm : m ∈ p.methods) (hq : q ∈ m.parameters)
      (hbound : (c.bindingForAccessor? m.id).isSome = true)
      (hother : c.constructor? ≠ some m.id) : Loses p c q.id

private theorem loses_of_not_mem_keptIds (hd : d ∈ p.declarations) (hchild : child ∈ d.children)
    (hx : x ∈ child.declaredIds) (hnot : x ∉ c.keptIds child) : p.Loses c x := by
  unfold Candidate.keptIds at hnot
  split at hnot
  · next helides =>
    cases child with
    | field f =>
      obtain rfl := List.mem_singleton.mp hx
      refine .field hd (Declaration.mem_fields_iff.mpr hchild) helides ?_
      simpa [Candidate.componentIds] using hnot
    | method m =>
      have hm : m ∈ p.methods :=
        mem_methods_iff.mpr ⟨d, hd, Declaration.mem_methods_iff.mpr hchild⟩
      obtain ⟨hbound, hother⟩ := Bool.and_eq_true_iff.mp helides
      rcases List.mem_cons.mp hx with rfl | hparameter
      · exact .accessor hm hbound (of_decide_eq_true hother)
      · obtain ⟨q, hq, rfl⟩ := List.mem_map.mp hparameter
        exact .parameter hm hq hbound (of_decide_eq_true hother)
    | _ => cases helides
  · exact absurd hx hnot

/-- An element is taken away exactly if the child that declares it does not leave it declared. -/
theorem loses_iff : p.Loses c x ↔
    ∃ d ∈ p.declarations, ∃ child ∈ d.children, x ∈ child.declaredIds ∧ x ∉ c.keptIds child := by
  constructor
  · intro h
    cases h with
    | @field d f hd hf hkey hother =>
      refine ⟨d, hd, .field f, Declaration.mem_fields_iff.mp hf, List.mem_singleton_self _, ?_⟩
      simp [Candidate.keptIds, Candidate.elides, hkey, Candidate.componentIds, hother]
    | @accessor m hm hbound hother =>
      obtain ⟨d, hd, hm⟩ := mem_methods_iff.mp hm
      refine ⟨d, hd, .method m, Declaration.mem_methods_iff.mp hm, List.mem_cons_self, ?_⟩
      simp [Candidate.keptIds, Candidate.elides, hbound, hother, Candidate.componentIds]
    | @parameter m q hm hq hbound hother =>
      obtain ⟨d, hd, hm⟩ := mem_methods_iff.mp hm
      refine ⟨d, hd, .method m, Declaration.mem_methods_iff.mp hm,
        List.mem_cons_of_mem _ (List.mem_map_of_mem hq), ?_⟩
      simp [Candidate.keptIds, Candidate.elides, hbound, hother, Candidate.componentIds]
  · rintro ⟨d, hd, child, hchild, hx, hnot⟩
    exact loses_of_not_mem_keptIds hd hchild hx hnot

/-- What a conversion leaves declared is all that is declared and not taken away. -/
theorem mem_keptIds_iff (hp : p.DistinctElements) :
    x ∈ p.keptIds c ↔ x ∈ p.declaredIds ∧ ¬ p.Loses c x := by
  rw [loses_iff, keptIds, declaredIds, List.mem_flatMap, List.mem_flatMap]
  constructor
  · rintro ⟨d, hd, hx⟩
    rcases List.mem_cons.mp hx with rfl | hx
    · refine ⟨⟨d, hd, List.mem_cons_self⟩, ?_⟩
      rintro ⟨e, he, lost, hlost, hin, -⟩
      obtain rfl := hp.eq_of_declares hd he d.declares_id
        (Declaration.declares_iff.mpr (Declaration.mem_declaredIds_of_mem_children hlost hin))
      exact (List.nodup_cons.mp (hp.declaredIds_nodup hd)).1
        (List.mem_flatMap.mpr ⟨lost, hlost, hin⟩)
    · obtain ⟨child, hchild, hx⟩ := List.mem_flatMap.mp hx
      have hin := (c.keptIds_sublist child).subset hx
      refine ⟨⟨d, hd, Declaration.mem_declaredIds_of_mem_children hchild hin⟩, ?_⟩
      rintro ⟨e, he, lost, hlost, hlostIn, hnot⟩
      obtain rfl := hp.child_eq hd he hchild hlost hin hlostIn
      exact hnot hx
  · rintro ⟨⟨d, hd, hx⟩, hkept⟩
    refine ⟨d, hd, ?_⟩
    rcases List.mem_cons.mp hx with rfl | hx
    · exact List.mem_cons_self
    · obtain ⟨child, hchild, hx⟩ := List.mem_flatMap.mp hx
      refine List.mem_cons_of_mem _ (List.mem_flatMap.mpr ⟨child, hchild, ?_⟩)
      by_contra hnot
      exact hkept ⟨d, hd, child, hchild, hx, hnot⟩

/-- Renames change nothing about what a conversion leaves declared. -/
theorem keptIds_of_renamesTo {sites : List ReferenceSite} {entries : List (ElementId × String)}
    (hrun : RenamesTo sites p entries q) : q.keptIds c = p.keptIds c := by
  have hread : q.declarations.map (fun d => d.id :: d.children.flatMap c.keptIds) =
      p.declarations.map fun d => d.id :: d.children.flatMap c.keptIds := hrun.map_declarations
    (fun d element newName => by
      simp [Declaration.renameMember, List.flatMap_map, keptIds_renameMember])
    (fun d refs newName => by
      simp [Declaration.respell, Declaration.mapReferences, List.flatMap_map, keptIds_mapCode])
  rw [keptIds, keptIds, List.flatMap_def, hread, List.flatMap_def]

/-- Nor about which references it keeps, but for their spelling. -/
theorem identities_keptReferences_of_renamesTo {sites : List ReferenceSite}
    {entries : List (ElementId × String)} (hrun : RenamesTo sites p entries q) :
    (q.keptReferences c).map Reference.identity = (p.keptReferences c).map Reference.identity := by
  have hread : q.declarations.map
        (fun d => (d.children.flatMap c.keptReferences).map Reference.identity) =
      p.declarations.map fun d => (d.children.flatMap c.keptReferences).map Reference.identity :=
    hrun.map_declarations
    (fun d element newName => by
      simp [Declaration.renameMember, List.flatMap_map, keptReferences_renameMember])
    (fun d refs newName => by
      simp only [Declaration.respell, Declaration.mapReferences, List.flatMap_map,
        keptReferences_mapCode, List.map_flatMap, List.map_map]
      congr 2
      funext child
      exact List.map_congr_left fun r _ => Reference.identity_respelled newName refs r)
  rw [keptReferences, keptReferences, List.map_flatMap, List.map_flatMap, List.flatMap_def, hread,
    List.flatMap_def]

/-- Only the class of a candidate has children that are elided. -/
theorem eq_of_elides (hp : p.DistinctElements) (hd : d ∈ p.declarations)
    (hmembers : c.memberError? d = none) (he : e ∈ p.declarations) (hchild : child ∈ e.children)
    (helides : c.elides child = true) : e = d := by
  cases child with
  | field f =>
    obtain ⟨f', hf'⟩ := Option.isSome_iff_exists.mp
      (Candidate.exists_field_of_isKeyField hmembers helides)
    have hid := List.find?_some hf'
    have hid : f.id = f'.id := (of_decide_eq_true hid).symm
    have hfield := Declaration.mem_fields_iff.mp (List.mem_of_find?_eq_some hf')
    apply hp.eq_of_declares he hd
    · exact Declaration.declares_iff.mpr
        (Declaration.mem_declaredIds_of_mem_children hchild List.mem_cons_self)
    · rw [Declaration.declares_iff, hid]
      exact Declaration.mem_declaredIds_of_mem_children hfield List.mem_cons_self
  | method m =>
    obtain ⟨hbound, -⟩ := Bool.and_eq_true_iff.mp helides
    obtain ⟨m', hm'⟩ := Option.isSome_iff_exists.mp
      (Candidate.exists_method_of_bindingForAccessor? hmembers hbound)
    obtain ⟨hm', hid⟩ := Declaration.of_method?_eq_some hm'
    apply hp.eq_of_declares he hd
    · exact Declaration.declares_of_mem_methods (Declaration.mem_methods_iff.mpr hchild)
    · rw [← hid]
      exact Declaration.declares_of_mem_methods (Declaration.mem_methods_iff.mpr hm')
  | _ => cases helides

/-- Nothing is elided in the other declarations. -/
private theorem elides_of_mem_rest {before after : List Declaration} (hp : p.DistinctElements)
    (hsplit : p.declarations = before ++ d :: after) (hmembers : c.memberError? d = none)
    (he : e ∈ before ++ after) (hchild : child ∈ e.children) : c.elides child = false := by
  have hd : d ∈ p.declarations := by simp [hsplit]
  have hep : e ∈ p.declarations := by
    rw [hsplit, List.mem_append, List.mem_cons]
    rw [List.mem_append] at he
    tauto
  by_contra helides
  obtain rfl := eq_of_elides hp hd hmembers hep hchild (by simpa using helides)
  have hid : e.id ∈ e.declaredIds := List.mem_cons_self
  exact hp.not_mem_of_mem_rest hsplit he hid hid

section Rebuild

variable {record : Declaration} {before after : List Declaration} (hp : p.DistinctElements)
  (hsplit : p.declarations = before ++ d :: after) (hmembers : c.memberError? d = none)
  (hrecord : d.KeepsIdentities c record)

include hp hsplit hmembers hrecord

private theorem declaredIds_perm_of_keepsIdentities :
    List.Perm ((before ++ record :: after).flatMap Declaration.declaredIds) (p.keptIds c) := by
  have hrest : ∀ e ∈ before ++ after, e.declaredIds = e.id :: e.children.flatMap c.keptIds := by
    intro e he
    rw [Declaration.declaredIds, List.flatMap_congr fun child hchild => ?_]
    rw [Candidate.keptIds, elides_of_mem_rest hp hsplit hmembers he hchild]
    rfl
  rw [keptIds, hsplit, List.flatMap_append, List.flatMap_append, List.flatMap_cons,
    List.flatMap_cons, List.flatMap_congr fun e he => hrest e (List.mem_append_left _ he),
    List.flatMap_congr fun e he => hrest e (List.mem_append_right _ he)]
  exact (hrecord.elements.append_right _).append_left _

private theorem identities_of_keepsIdentities :
    ((before ++ record :: after).flatMap Declaration.references).map Reference.identity =
      (p.keptReferences c).map Reference.identity := by
  have hrest : ∀ e ∈ before ++ after, e.references = e.children.flatMap c.keptReferences := by
    intro e he
    rw [Declaration.references, List.flatMap_congr fun child hchild => ?_]
    rw [Candidate.keptReferences, elides_of_mem_rest hp hsplit hmembers he hchild]
    rfl
  rw [keptReferences, hsplit, List.flatMap_append, List.flatMap_append, List.flatMap_cons,
    List.flatMap_cons, List.flatMap_congr fun e he => hrest e (List.mem_append_left _ he),
    List.flatMap_congr fun e he => hrest e (List.mem_append_right _ he)]
  simp only [List.map_append, hrecord.references]

end Rebuild

/-- A conversion leaves each declaration in its place and in its file. -/
theorem places_of_converts (h : p.Converts c plan usages q) :
    q.declarations.map (fun d => (d.id, d.file)) = p.declarations.map fun d => (d.id, d.file) := by
  obtain ⟨copy, record, hrun, hrecord, hreplace⟩ := h
  obtain ⟨d, hd, -, hkeeps⟩ := keepsIdentities_of_rebuildRecord hrecord
  obtain ⟨d', before, after, hd', hsplit, rfl⟩ := replaceDeclaration_eq_ok hreplace
  obtain rfl := Option.some.inj (hd.symm.trans hd')
  have hplaces : copy.declarations.map (fun d => (d.id, d.file)) =
      p.declarations.map fun d => (d.id, d.file) :=
    hrun.map_declarations (fun _ _ _ => rfl) (fun _ _ _ => rfl)
  have hid : (record.number copy.lastReference).1.id = d.id := hkeeps.id
  have hfile : (record.number copy.lastReference).1.file = d.file := hkeeps.file
  rw [← hplaces, hsplit]
  simp [hid, hfile]

/-- A conversion keeps the declarations, and it keeps them in order. -/
theorem Converts.declarationIds_eq (h : p.Converts c plan usages q) :
    q.declarationIds = p.declarationIds := by
  have hplaces := congrArg (List.map Prod.fst) (places_of_converts h)
  simpa [declarationIds, Function.comp_def] using hplaces

/-- A conversion leaves declared and referred to what it keeps, and gives out no new ids. -/
theorem identities_of_converts (helements : p.DistinctElements)
    (hassigned : ∀ r ∈ p.references, r.id.isAssigned = true)
    (h : p.Converts c plan usages q) :
    List.Perm q.declaredIds (p.keptIds c) ∧
    q.references.map Reference.identity = (p.keptReferences c).map Reference.identity ∧
    q.lastElement = p.lastElement ∧ q.lastReference = p.lastReference := by
  obtain ⟨copy, record, hrun, hrecord, hreplace⟩ := h
  obtain ⟨d, hd, hmembers, hkeeps⟩ := keepsIdentities_of_rebuildRecord hrecord
  obtain ⟨d', before, after, hd', hsplit, rfl⟩ := replaceDeclaration_eq_ok hreplace
  obtain rfl := Option.some.inj (hd.symm.trans hd')
  have hcopy : copy.DistinctElements := by
    rw [DistinctElements, hrun.declaredIds_eq]
    exact helements
  have hcopyAssigned : ∀ r ∈ copy.references, r.id.isAssigned = true :=
    Reference.forall_id_of_subset (·.isAssigned = true)
      (hrun.map_id_references_eq ▸ List.Subset.refl _) hassigned
  rw [Declaration.number_of_assigned (isAssigned_of_rebuildRecord hcopyAssigned hrecord)]
  refine ⟨?_, ?_, hrun.counters_eq⟩
  · rw [← keptIds_of_renamesTo hrun]
    exact declaredIds_perm_of_keepsIdentities hcopy hsplit hmembers hkeeps
  · rw [← identities_keptReferences_of_renamesTo hrun]
    exact identities_of_keepsIdentities hcopy hsplit hmembers hkeeps

/-- A conversion keeps identities. Declarations stay in their places and files, exactly those
    elements are gone that belong to elided accessors or to key fields that are no components, none
    is new, and all references but those of elided children are there in their order, each with the
    id and the target that it had. -/
theorem applyConversion_identities {pre? : Option Preconditions} {summary : EditSummary}
    (helements : p.DistinctElements) (hassigned : ∀ r ∈ p.references, r.id.isAssigned = true)
    (happly : p.applyConversion c plan usages pre? = .ok (q, summary)) :
    q.declarations.map (fun d => (d.id, d.file)) = p.declarations.map (fun d => (d.id, d.file)) ∧
    (∀ x, x ∈ q.declaredIds ↔ x ∈ p.declaredIds ∧ ¬ p.Loses c x) ∧
    q.references.map Reference.identity = (p.keptReferences c).map Reference.identity := by
  obtain ⟨-, hconverts⟩ := applyConversion_eq_ok_iff.mp ⟨summary, happly⟩
  obtain ⟨hids, hreferences, -⟩ := identities_of_converts helements hassigned hconverts
  refine ⟨places_of_converts hconverts, fun x => ?_, hreferences⟩
  rw [hids.mem_iff, mem_keptIds_iff helements]

end Project

namespace Points

/-- The record of the small project has lost the accessor and the reference inside it. Its field is
    still declared, as a component. -/
theorem applyConversion_identities_project :
    project.DistinctElements ∧ (∀ r ∈ project.references, r.id.isAssigned = true) ∧
    ∃ q summary, project.applyConversion candidate collected.plan collected.usages none =
        .ok (q, summary) ∧
      q.declarations.map (fun d => (d.id, d.file)) =
        [(⟨1⟩, "Shape.java"), (⟨3⟩, "Point.java"), (⟨8⟩, "User.java")] ∧
      ⟨4⟩ ∈ q.declaredIds ∧ ⟨7⟩ ∉ q.declaredIds ∧
      q.references.map Reference.identity =
        [(⟨1⟩, ⟨4⟩), (⟨2⟩, ⟨6⟩), (⟨4⟩, ⟨10⟩), (⟨5⟩, ⟨7⟩)] := by
  have helements : project.DistinctElements := by decide
  have hassigned : ∀ r ∈ project.references, r.id.isAssigned = true := by decide
  obtain ⟨q, hconverts⟩ := converts_project
  have hallows : Project.Allows none project := nofun
  obtain ⟨summary, happly⟩ := Project.applyConversion_eq_ok_iff.mpr ⟨hallows, hconverts⟩
  obtain ⟨hplaces, hdeclared, hreferences⟩ :=
    Project.applyConversion_identities helements hassigned happly
  refine ⟨helements, hassigned, q, summary, happly, hplaces, ?_, ?_, hreferences⟩
  · rw [hdeclared, Project.loses_iff]
    decide
  · rw [hdeclared, Project.loses_iff]
    decide

end Points

end ClassToRecord
