import ClassToRecord.Proofs.Project.Replace
import ClassToRecord.Proofs.Project.WellFormed
import ClassToRecord.Proofs.Record.Identities

namespace ClassToRecord

/-- The names that the parameters of the constructor have in the record. -/
def Candidate.parameterNames (c : Candidate) (d : Declaration) (id : ElementId) : Option String :=
  (c.constructor?.bind d.method?).bind fun m =>
    Method.nameIn (m.recordParameters (c.componentsOf d)) id

/-- A child is not the constructor of a declaration that the candidate makes canonical. -/
def Candidate.Spares (c : Candidate) (d : Declaration) (child : Child) : Prop :=
  ∀ m, child = .method m → .method m ∈ d.children → c.constructor? ≠ some m.id

variable {p : Project} {c : Candidate} {d e : Declaration}

/-- Only parameters of the constructor get names from the record. -/
theorem exists_constructor_of_parameterNames {id : ElementId} {name : String}
    (h : c.parameterNames d id = some name) :
    ∃ m, Child.method m ∈ d.children ∧ c.constructor? = some m.id ∧
      id ∈ m.parameters.map Parameter.id := by
  obtain ⟨m, hfound, hname⟩ := Option.bind_eq_some_iff.mp h
  obtain ⟨constructor, hconstructor, hfound⟩ := Option.bind_eq_some_iff.mp hfound
  obtain ⟨hm, rfl⟩ := Declaration.of_method?_eq_some hfound
  obtain ⟨q, hq, _⟩ := Option.map_eq_some_iff.mp hname
  have hqId := List.find?_some hq
  refine ⟨m, hm, hconstructor, ?_⟩
  rw [← of_decide_eq_true hqId]
  exact Method.id_mem_of_mem_recordParameters (List.mem_of_find?_eq_some hq)

/-- Any child but the constructor declares no element that the record names anew. -/
private theorem parameterNames_of_mem_declaredIds (hp : p.DistinctElements)
    (hd : d ∈ p.declarations) (he : e ∈ p.declarations) {child : Child}
    (hchild : child ∈ e.children) (hspared : c.Spares d child) {id : ElementId}
    (hid : id ∈ child.declaredIds) : c.parameterNames d id = none := by
  cases hname : c.parameterNames d id with
  | none => rfl
  | some name =>
    obtain ⟨m, hm, hconstructor, hidm⟩ := exists_constructor_of_parameterNames hname
    have hsame := hp.child_eq he hd hchild hm hid (List.mem_cons_of_mem _ hidm)
    exact absurd hconstructor (hspared m hsame hm)

/-- Nor does it refer to one. -/
private theorem parameterNames_of_mem_references (hp : p.WellFormed) (hd : d ∈ p.declarations)
    (he : e ∈ p.declarations) {child : Child} (hchild : child ∈ e.children)
    (hspared : c.Spares d child) {r : Reference} (hr : r ∈ child.references) :
    c.parameterNames d r.target = none := by
  cases hname : c.parameterNames d r.target with
  | none => rfl
  | some name =>
    obtain ⟨m, hm, hconstructor, htarget⟩ := exists_constructor_of_parameterNames hname
    have hmethod := Project.mem_methods_iff.mpr ⟨d, hd, Declaration.mem_methods_iff.mpr hm⟩
    have hsame := hp.scope m hmethod e he child hchild r hr htarget
    exact absurd hconstructor (hspared m hsame hm)

private theorem standsFor_self {names : ElementId → Option String} {child : Child}
    (h : ∀ r ∈ child.references, names r.target = none) : child.StandsFor names child := by
  refine ⟨?_, rfl, rfl⟩
  have hsame : ∀ r ∈ child.references, r.renamedBy names = r := by
    intro r hr
    rw [Reference.renamedBy, h r hr]
    rfl
  rw [List.map_congr_left hsame, List.map_id']

private theorem parameterNames_of_constructor (hp : p.DistinctElements) (hd : d ∈ p.declarations)
    {m : Method} (hm : Child.method m ∈ d.children) (hconstructor : c.constructor? = some m.id) :
    c.parameterNames d = Method.nameIn (m.recordParameters (c.componentsOf d)) := by
  funext id
  rw [Candidate.parameterNames, hconstructor, Option.bind_some, hp.method?_eq_some hd hm,
    Option.bind_some]

variable {m canonical : Method} {components : List Parameter} {visibility : Visibility}

private theorem standsFor_of_toCanonical
    (h : m.toCanonical components visibility = .ok canonical) :
    (Child.method canonical).StandsFor (Method.nameIn (m.recordParameters components))
      (.method m) := by
  obtain ⟨hlength, _, rfl⟩ := Method.toCanonical_eq_ok_iff.mp h
  refine ⟨?_, congrArg (m.id :: ·) (Method.map_id_recordParameters hlength), rfl⟩
  have hfollow : Method.followParameter (m.recordParameters components) =
      Reference.renamedBy (Method.nameIn (m.recordParameters components)) :=
    funext (Method.followParameter_eq_renamedBy _)
  simp [Child.references, Child.code?, hfollow]

private theorem named_of_toCanonical (h : m.toCanonical components visibility = .ok canonical)
    (hids : (Child.method m).declaredIds.Nodup) {entry : ElementId × String}
    (hentry : entry ∈ (Child.method canonical).named) :
    ∃ name, (entry.1, name) ∈ (Child.method m).named ∧
      entry.2 = (Method.nameIn (m.recordParameters components) entry.1).getD name := by
  obtain ⟨hlength, _, rfl⟩ := Method.toCanonical_eq_ok_iff.mp h
  have hparameters := Method.map_id_recordParameters hlength
  obtain ⟨hown, hparameterIds⟩ := List.nodup_cons.mp hids
  rcases List.mem_cons.mp hentry with rfl | hentry
  · refine ⟨m.name, List.mem_cons_self, ?_⟩
    have hnone : (m.recordParameters components).find? (·.id = m.id) = none := by
      rw [List.find?_eq_none]
      intro q hq hqId
      exact hown (of_decide_eq_true hqId ▸ Method.id_mem_of_mem_recordParameters hq)
    rw [Method.nameIn, hnone]
    rfl
  · obtain ⟨q, hq, rfl⟩ := List.mem_map.mp hentry
    obtain ⟨old, hold, holdId⟩ := List.mem_map.mp (Method.id_mem_of_mem_recordParameters hq)
    have hfound : (m.recordParameters components).find? (·.id = q.id) = some q := by
      rw [find?_eq_some_iff_of_unique]
      · exact ⟨hq, decide_eq_true rfl⟩
      · intro a ha b hb haId hbId
        refine List.inj_on_of_nodup_map (hparameters ▸ hparameterIds) ha hb ?_
        exact (of_decide_eq_true haId).trans (of_decide_eq_true hbId).symm
    refine ⟨old.name, List.mem_cons_of_mem _ (List.mem_map.mpr ⟨old, hold, by rw [holdId]⟩), ?_⟩
    rw [Method.nameIn, hfound]
    rfl

section Replacement

variable {record : Declaration} {before after : List Declaration}

private theorem mem_split_iff {x d : Declaration} :
    x ∈ before ++ d :: after ↔ x = d ∨ x ∈ before ++ after := by
  simp only [List.mem_append, List.mem_cons]
  tauto

private theorem spares_of_mem_rest (hp : p.DistinctElements)
    (hsplit : p.declarations = before ++ d :: after) (he : e ∈ before ++ after) {child : Child}
    (hchild : child ∈ e.children) : c.Spares d child := by
  rintro m rfl hm _
  have hmId : m.id ∈ (Child.method m).declaredIds := List.mem_cons_self
  exact hp.not_mem_of_mem_rest hsplit he (Declaration.mem_declaredIds_of_mem_children hm hmId)
    (Declaration.mem_declaredIds_of_mem_children hchild hmId)

private theorem named_of_unnamed (he : e ∈ p.declarations) {child : Child}
    (hchild : child ∈ e.children) {names : ElementId → Option String}
    (hnames : ∀ id ∈ child.declaredIds, names id = none) {entry : ElementId × String}
    (hentry : entry ∈ child.named) :
    ∃ name, (entry.1, name) ∈ p.named ∧ entry.2 = (names entry.1).getD name := by
  refine ⟨entry.2, ?_, ?_⟩
  · exact List.mem_flatMap.mpr ⟨e, he, List.mem_flatMap.mpr ⟨child, hchild, hentry⟩⟩
  · rw [hnames _ (Child.mem_declaredIds_of_mem_named hentry), Option.getD_none]

private theorem named_child_of_recordOf (hp : p.DistinctElements) (hd : d ∈ p.declarations)
    (hrecord : d.RecordOf c record) {child : Child} (hchild : child ∈ record.children)
    {entry : ElementId × String} (hentry : entry ∈ child.named) :
    ∃ name, (entry.1, name) ∈ p.named ∧
      entry.2 = (c.parameterNames d entry.1).getD name := by
  rcases hrecord.children child hchild with rfl | ⟨old, hold, hbecomes⟩
  · obtain ⟨component, hcomponent, rfl⟩ := List.mem_map.mp hentry
    obtain ⟨f, hf, rfl⟩ := List.mem_map.mp hcomponent
    have hfield := Declaration.mem_fields_iff.mp (List.mem_filter.mp hf).1
    exact named_of_unnamed hd hfield
      (fun _ hid => parameterNames_of_mem_declaredIds hp hd hd hfield nofun hid)
      (List.mem_singleton_self (f.id, f.name))
  · cases hbecomes with
    | keyword => cases hentry
    | @canonical m canonical hconstructor hcanonical =>
      obtain ⟨name, hname, hnew⟩ := named_of_toCanonical hcanonical (hp.child_nodup hd hold) hentry
      rw [← parameterNames_of_constructor hp hd hold hconstructor] at hnew
      exact ⟨name, List.mem_flatMap.mpr ⟨d, hd, List.mem_flatMap.mpr ⟨_, hold, hname⟩⟩, hnew⟩
    | same hother =>
      exact named_of_unnamed hd hold (fun _ hid => parameterNames_of_mem_declaredIds hp hd hd hold
        (fun m hm _ => hother m hm) hid) hentry

private theorem named_of_recordOf (hp : p.DistinctElements)
    (hsplit : p.declarations = before ++ d :: after) (hrecord : d.RecordOf c record)
    {x : Declaration} (hx : x ∈ before ++ record :: after) {entry : ElementId × String}
    (hentry : entry ∈ x.named) :
    ∃ name, (entry.1, name) ∈ p.named ∧ entry.2 = (c.parameterNames d entry.1).getD name := by
  have hmem : ∀ y, y = d ∨ y ∈ before ++ after → y ∈ p.declarations := fun y hy =>
    hsplit ▸ mem_split_iff.mpr hy
  have hd := hmem d (.inl rfl)
  obtain ⟨child, hchild, hentry⟩ := List.mem_flatMap.mp hentry
  rcases mem_split_iff.mp hx with rfl | hx
  · exact named_child_of_recordOf hp hd hrecord hchild hentry
  · have hspared : c.Spares d child := spares_of_mem_rest hp hsplit hx hchild
    exact named_of_unnamed (hmem x (.inr hx)) hchild (fun _ hid => parameterNames_of_mem_declaredIds
      hp hd (hmem x (.inr hx)) hchild hspared hid) hentry

private theorem standsFor_of_recordOf (hp : p.WellFormed) (hd : d ∈ p.declarations)
    (hrecord : d.RecordOf c record) {child : Child} (hchild : child ∈ record.children) :
    (child.references = [] ∧ child.method?.isSome = false) ∨
      ∃ old ∈ d.children, child.StandsFor (c.parameterNames d) old := by
  rcases hrecord.children child hchild with rfl | ⟨old, hold, hbecomes⟩
  · exact .inl ⟨rfl, rfl⟩
  · cases hbecomes with
    | keyword => exact .inl ⟨rfl, rfl⟩
    | @canonical m canonical hconstructor hcanonical =>
      refine .inr ⟨_, hold, ?_⟩
      rw [parameterNames_of_constructor hp.elements hd hold hconstructor]
      exact standsFor_of_toCanonical hcanonical
    | same hother =>
      exact .inr ⟨child, hold, standsFor_self fun r hr =>
        parameterNames_of_mem_references hp hd hd hold (fun m hm _ => hother m hm) hr⟩

/-- A record in the place of its class keeps the project under the names that the constructor
    gives to its parameters. -/
theorem Project.keeps_of_recordOf (hp : p.WellFormed)
    (hsplit : p.declarations = before ++ d :: after) (hrecord : d.RecordOf c record) :
    Keeps (c.parameterNames d) p { p with declarations := before ++ record :: after } := by
  have hd : d ∈ p.declarations := hsplit ▸ mem_split_iff.mpr (.inl rfl)
  have hrest : ∀ x ∈ before ++ after, x ∈ p.declarations := fun x hx =>
    hsplit ▸ mem_split_iff.mpr (.inr hx)
  refine ⟨?_, ?_, ?_, ?_⟩
  · simp only [Project.declaredIds, hsplit, List.flatMap_append, List.flatMap_cons]
    rw [List.subperm_append_left, List.subperm_append_right]
    exact hrecord.declaredIds
  · simp only [Project.references, hsplit, List.flatMap_append, List.flatMap_cons, List.map_append]
    rw [List.append_sublist_append_left, List.append_sublist_append_right]
    exact hrecord.references
  · intro entry hentry
    obtain ⟨x, hx, hnamed⟩ := List.mem_flatMap.mp hentry
    exact named_of_recordOf hp.elements hsplit hrecord hx hnamed
  · intro x hx child hchild
    rcases mem_split_iff.mp hx with rfl | hx
    · refine (standsFor_of_recordOf hp hd hrecord hchild).imp_right ?_
      rintro ⟨old, hold, hstands⟩
      exact ⟨d, hd, old, hold, hstands⟩
    · have hspared : c.Spares d child := spares_of_mem_rest hp.elements hsplit hx hchild
      exact .inr ⟨x, hrest x hx, child, hchild, standsFor_self fun r hr =>
        parameterNames_of_mem_references hp hd (hrest x hx) hchild hspared hr⟩

end Replacement

/-- A numbered declaration names what it named. -/
theorem Declaration.named_number (last : Nat) (d : Declaration) :
    (d.number last).1.named = d.named := by
  have hread : (d.number last).1.children.map Child.named = d.children.map Child.named :=
    d.map_children_number (fun _ _ => rfl) (fun _ _ => rfl) (fun _ _ => rfl) last
  rw [named, named, List.flatMap_def, List.flatMap_def, hread]

namespace Project

/-- The rebuild of a record names elements as before, but for the parameters of its constructor. -/
theorem named_of_rebuild {p q : Project} {c : Candidate} {record : Declaration}
    (hp : p.DistinctElements) (hrecord : p.rebuildRecord c = .ok record)
    (hreplace : p.replaceDeclaration c.declaration record = .ok q) {entry : ElementId × String}
    (hentry : entry ∈ q.named) :
    ∃ d ∈ p.declarations, ∃ name, (entry.1, name) ∈ p.named ∧
      entry.2 = (c.parameterNames d entry.1).getD name := by
  obtain ⟨d, hd, _, hrecordOf⟩ := recordOf_of_rebuildRecord hrecord
  obtain ⟨d', before, after, hd', hsplit, rfl⟩ := replaceDeclaration_eq_ok hreplace
  obtain rfl := Option.some.inj (hd.symm.trans hd')
  obtain ⟨x, hx, hentry⟩ := List.mem_flatMap.mp hentry
  refine ⟨d, List.mem_of_find?_eq_some hd, ?_⟩
  rcases List.mem_append.mp hx with hx | hx
  · exact named_of_recordOf hp hsplit hrecordOf (List.mem_append_left _ hx) hentry
  rcases List.mem_cons.mp hx with rfl | hx
  · rw [Declaration.named_number] at hentry
    exact named_of_recordOf hp hsplit hrecordOf (mem_split_iff.mpr (.inl rfl)) hentry
  · exact named_of_recordOf hp hsplit hrecordOf
      (List.mem_append_right _ (List.mem_cons_of_mem _ hx)) hentry

/-- The rebuild of a record in a well-formed project leaves it well formed. -/
theorem WellFormed.of_rebuild {p q : Project} {c : Candidate} {record : Declaration}
    (hp : p.WellFormed) (hrecord : p.rebuildRecord c = .ok record)
    (hreplace : p.replaceDeclaration c.declaration record = .ok q) : q.WellFormed := by
  obtain ⟨d, hd, _, hrecordOf⟩ := recordOf_of_rebuildRecord hrecord
  obtain ⟨d', before, after, hd', hsplit, rfl⟩ := replaceDeclaration_eq_ok hreplace
  obtain rfl := Option.some.inj (hd.symm.trans hd')
  rw [Declaration.number_of_assigned (isAssigned_of_rebuildRecord hp.assigned hrecord)]
  exact (keeps_of_recordOf hp hsplit hrecordOf).wellFormed hp

end Project

end ClassToRecord
