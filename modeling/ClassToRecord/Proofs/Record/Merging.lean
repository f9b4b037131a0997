import ClassToRecord.Proofs.Record.Constructor
import ClassToRecord.Proofs.Syntax.Merging
import Mathlib.Data.Fintype.EquivFin

namespace ClassToRecord

instance : Infinite ElementId :=
  Infinite.of_injective ElementId.mk fun _ _ h => congrArg ElementId.index h

/-- A declaration with other code in the same places. -/
def Declaration.mapCode (f : Code → Code) (d : Declaration) : Declaration :=
  { d with children := d.children.map (Child.mapCode f) }

def Project.mapCode (f : Code → Code) (p : Project) : Project :=
  { p with declarations := p.declarations.map (Declaration.mapCode f) }

def Method.withBody (m : Method) (body : Code) : Method := { m with body }

namespace Declaration

variable (f : Code → Code) (d : Declaration)

theorem methods_mapCode :
    (d.mapCode f).methods = d.methods.map fun m => m.withBody (f m.body) := by
  have hchild : ∀ child : Child, (child.mapCode f).method? =
      child.method?.map fun m => m.withBody (f m.body) := by
    intro child
    cases child <;> rfl
  simp [methods, mapCode, List.filterMap_map, hchild, List.map_filterMap]

/-- What does not depend on initializers can be read off the fields before. -/
theorem map_fields_mapCode {α : Type} {read : Field → α}
    (hread : ∀ (fld : Field) initializer?, read { fld with initializer? } = read fld) :
    (d.mapCode f).fields.map read = d.fields.map read := by
  have hchild : ∀ child : Child, (child.mapCode f).field?.map read = child.field?.map read := by
    intro child
    cases child with
    | field fld => exact congrArg some (hread fld _)
    | _ => rfl
  simp [fields, mapCode, List.filterMap_map, hchild, List.map_filterMap]

theorem visibility_mapCode : (d.mapCode f).visibility = d.visibility := by
  have hchild : ∀ child : Child, (child.mapCode f).modifiers? = child.modifiers? := by
    intro child
    cases child <;> rfl
  simp [visibility, mapCode, List.findSome?_map, Function.comp_def, hchild]

/-- Other code leaves the header its place. -/
theorem isSome_insertHeader_mapCode_iff {header : Child} :
    (insertHeader header (d.mapCode f).children).isSome = true ↔
      (insertHeader header d.children).isSome = true := by
  have hsignificant : ∀ child : Child, (child.mapCode f).isSignificant = child.isSignificant := by
    intro child
    cases child <;> rfl
  rw [isSome_insertHeader_iff, isSome_insertHeader_iff]
  constructor
  · rintro ⟨name, after, hsuffix, child, hchild, hvisible⟩
    obtain ⟨original, hsuffix, hmap⟩ := List.suffix_map_iff.mp hsuffix
    cases original with
    | nil => cases hmap
    | cons identifier rest =>
      obtain ⟨hidentifier, rfl⟩ := List.cons.inj hmap
      obtain ⟨member, hmember, rfl⟩ := List.mem_map.mp hchild
      cases identifier <;> cases hidentifier
      exact ⟨name, rest, hsuffix, member, hmember, hsignificant member ▸ hvisible⟩
  · rintro ⟨name, after, hsuffix, child, hchild, hvisible⟩
    exact ⟨name, after.map (Child.mapCode f), hsuffix.map (Child.mapCode f), child.mapCode f,
      List.mem_map_of_mem hchild, (hsignificant child).trans hvisible⟩

end Declaration

namespace Candidate

variable (c : Candidate) (f : Code → Code) (d : Declaration)

theorem componentsOf_mapCode : c.componentsOf (d.mapCode f) = c.componentsOf d := by
  have hfilter : ∀ d : Declaration, c.componentsOf d =
      (d.fields.map Field.toComponent).filter (c.isComponent ·.id) := by
    intro d
    rw [List.filter_map]
    rfl
  have hfields : (d.mapCode f).fields.map Field.toComponent = d.fields.map Field.toComponent :=
    d.map_fields_mapCode f fun _ _ => rfl
  rw [hfilter, hfilter, hfields]

/-- The members that a candidate names have code of their own, and it does not matter which. -/
theorem memberError?_mapCode_eq_none_iff :
    c.memberError? (d.mapCode f) = none ↔ c.memberError? d = none := by
  have hids : (d.mapCode f).fields.map Field.id = d.fields.map Field.id :=
    d.map_fields_mapCode f fun _ _ => rfl
  have hfield : ∀ id, (∃ fld ∈ (d.mapCode f).fields, fld.id = id) ↔
      ∃ fld ∈ d.fields, fld.id = id := by
    intro id
    rw [← List.mem_map, ← List.mem_map, hids]
  have hmethod : ∀ id, (∃ m ∈ (d.mapCode f).methods, m.id = id) ↔ ∃ m ∈ d.methods, m.id = id := by
    intro id
    simp [Declaration.methods_mapCode, Method.withBody]
  simp only [memberError?_eq_none_iff, NamesMembersOf, hfield, hmethod]

end Candidate

namespace Project

variable {p : Project} {c : Candidate} {f : Code → Code}

theorem declaration?_mapCode (id : ElementId) :
    (p.mapCode f).declaration? id = (p.declaration? id).map (Declaration.mapCode f) := by
  simp only [declaration?, mapCode, List.find?_map]
  rfl

/-- Only the constructor can make a difference between a class and the same class with other
    code. -/
theorem exists_rebuildRecord_mapCode_iff :
    (∃ record, (p.mapCode f).rebuildRecord c = .ok record) ↔
      ∃ d, p.declaration? c.declaration = some d ∧ c.memberError? d = none ∧
        (Declaration.insertHeader (.header (c.componentsOf d)) d.children).isSome = true ∧
        ∀ m ∈ d.methods, c.constructor? = some m.id →
          ∃ canonical, (m.withBody (f m.body)).toCanonical (c.componentsOf d) d.visibility =
            .ok canonical := by
  rw [exists_rebuildRecord_eq_ok_iff]
  simp only [declaration?_mapCode, Option.map_eq_some_iff, exists_exists_and_eq_and,
    Candidate.memberError?_mapCode_eq_none_iff, Candidate.componentsOf_mapCode,
    Declaration.isSome_insertHeader_mapCode_iff, Declaration.methods_mapCode,
    Declaration.visibility_mapCode, List.forall_mem_map]
  rfl

end Project

namespace Method

variable {m : Method} {components : List Parameter} {visibility : Visibility}

/-- Two bodies that assign each parameter to the same field first make no difference to the
    check. -/
theorem exists_toCanonical_withBody_iff {body : Code}
    (hfirst : ∀ value, body.assignments.find? (·.2 = value) =
      m.body.assignments.find? (·.2 = value)) :
    (∃ canonical, (m.withBody body).toCanonical components visibility = .ok canonical) ↔
      ∃ canonical, m.toCanonical components visibility = .ok canonical := by
  have hassigned : ∀ parameter, (m.withBody body).assignedComponent? components parameter =
      m.assignedComponent? components parameter := by
    intro parameter
    rw [assignedComponent?, assignedComponent?, withBody, hfirst]
  have hfault : (m.withBody body).parameterError? components = m.parameterError? components := by
    funext pair
    rw [parameterError?, parameterError?, hassigned]
    rfl
  simp only [toCanonical_eq_ok_iff, hfault]
  simp [withBody]

end Method

namespace Probes

section Probe

variable (body : Code) (first second other value : ElementId)

def field (id : ElementId) (name : String) : Field where
  id
  modifiers := ⟨.private, []⟩
  type := "int"
  name

/-- A constructor that gets a value for either field. -/
def constructor : Method where
  id := ⟨0⟩
  modifiers := ⟨.public, []⟩
  returnType? := none
  name := "Probe"
  parameters := [⟨other, "int", "first"⟩, ⟨value, "int", "second"⟩]
  body

def probe : Declaration where
  id := ⟨0⟩
  file := "Probe.java"
  children := [.keyword .class, .identifier "Probe", .field (field first "first"),
    .field (field second "second"), .method (constructor body other value)]

def project : Project := ⟨[probe body first second other value], 0, 0⟩

def candidate (hne : first ≠ second) : Candidate where
  declaration := ⟨0⟩
  fields := ⟨[(first, none), (second, none)], by simpa using hne⟩
  constructor? := some ⟨0⟩

def components : List Parameter := [⟨first, "int", "first"⟩, ⟨second, "int", "second"⟩]

end Probe

variable {body : Code} {first second other value : ElementId}

theorem componentsOf_probe (hne : first ≠ second) :
    (candidate first second hne).componentsOf (probe body first second other value) =
      components first second := by
  have hfields : (probe body first second other value).fields =
      [field first "first", field second "second"] := rfl
  have hfirst : (candidate first second hne).isComponent first = true := by
    simp [Candidate.isComponent, candidate, OrderedMap.get?]
  have hother : (second == first) = false := beq_eq_false_iff_ne.mpr hne.symm
  have hsecond : (candidate first second hne).isComponent second = true := by
    simp [Candidate.isComponent, candidate, OrderedMap.get?, List.lookup_cons, hother]
  simp [Candidate.componentsOf, hfields, field, hfirst, hsecond, Field.toComponent, components]

/-- A value must not go to the first field first of all if the second one is for it. -/
theorem parameterError?_eq_none_iff (hne : first ≠ second) :
    (constructor body other value).parameterError? (components first second)
        (⟨value, "int", "second"⟩, ⟨second, "int", "second"⟩) = none ↔
      body.assignments.find? (·.2 = value) ≠ some (first, value) := by
  cases hassigned : body.assignments.find? (·.2 = value) with
  | none => simp [Method.parameterError?, Method.assignedComponent?, constructor, hassigned]
  | some pair =>
    obtain ⟨target, parameter⟩ := pair
    have hvalue : parameter = value := by simpa using List.find?_some hassigned
    by_cases hfirst : target = first
    · simp [Method.parameterError?, Method.assignedComponent?, constructor, hassigned, components,
        hfirst, hne, hvalue]
    · by_cases hsecond : target = second
      · simp [Method.parameterError?, Method.assignedComponent?, constructor, hassigned, components,
          hsecond, hne, hne.symm]
      · simp [Method.parameterError?, Method.assignedComponent?, constructor, hassigned, components,
          hfirst, Ne.symm hfirst, Ne.symm hsecond]

/-- A value that is not assigned is right in any place. -/
theorem parameterError?_eq_none (hother : other ∉ body.assignments.map Prod.snd) :
    (constructor body other value).parameterError? (components first second)
        (⟨other, "int", "first"⟩, ⟨first, "int", "first"⟩) = none := by
  have hnone : body.assignments.find? (·.2 = other) = none := by
    rw [List.find?_eq_none]
    intro pair hpair hparameter
    exact hother (List.mem_map.mpr ⟨pair, hpair, of_decide_eq_true hparameter⟩)
  simp [Method.parameterError?, Method.assignedComponent?, constructor, hnone]

theorem memberError?_probe (hne : first ≠ second) :
    (candidate first second hne).memberError? (probe body first second other value) = none := by
  have hmembers : (candidate first second hne).NamesMembersOf
      (probe body first second other value) := by
    intro entry hentry
    have hfield : entry = (first, none) ∨ entry = (second, none) := by
      simpa [candidate] using hentry
    rcases hfield with rfl | rfl
    · exact ⟨⟨field first "first", .head _, rfl⟩, by simp⟩
    · exact ⟨⟨field second "second", .tail _ (.head _), rfl⟩, by simp⟩
  refine Candidate.memberError?_eq_none_iff.mpr ⟨hmembers, fun id hid => ?_⟩
  cases hid
  exact ⟨constructor body other value, .head _, rfl⟩

/-- The class becomes a record unless its second value goes to the first field first of all. -/
theorem exists_rebuildRecord_iff (hne : first ≠ second)
    (hother : other ∉ body.assignments.map Prod.snd) :
    (∃ record, (project body first second other value).rebuildRecord
        (candidate first second hne) = .ok record) ↔
      body.assignments.find? (·.2 = value) ≠ some (first, value) := by
  rw [← parameterError?_eq_none_iff hne]
  constructor
  · rintro ⟨record, h⟩
    obtain ⟨d, hd, -, -, hall⟩ := Project.constructor_of_rebuildRecord h rfl
    cases hd
    obtain ⟨-, hfits⟩ := hall (constructor body other value) (.head _) rfl
    rw [componentsOf_probe hne] at hfits
    exact hfits _ (.tail _ (.head _))
  · intro hsecond
    refine Project.exists_rebuildRecord_eq_ok_iff.mpr
      ⟨_, rfl, memberError?_probe hne, rfl, fun m hm _ => ?_⟩
    obtain rfl := List.mem_singleton.mp hm
    rw [componentsOf_probe hne]
    refine ⟨_, Method.toCanonical_eq_ok_iff.mpr ⟨rfl, fun pair hpair => ?_, rfl⟩⟩
    have hpairs : pair = (⟨other, "int", "first"⟩, ⟨first, "int", "first"⟩) ∨
        pair = (⟨value, "int", "second"⟩, ⟨second, "int", "second"⟩) := by
      simpa [constructor, components] using hpair
    rcases hpairs with rfl | rfl
    · exact parameterError?_eq_none hother
    · exact hsecond

theorem mapCode_project (f : Code → Code) :
    (project body first second other value).mapCode f =
      project (f body) first second other value := rfl

theorem body_eq_of_declaration? {id : ElementId} {d : Declaration}
    (hd : (project body first second other value).declaration? id = some d) :
    ∀ m ∈ d.methods, m.body = body := by
  intro m hm
  have hprobe := List.mem_of_find?_eq_some hd
  obtain rfl := List.mem_singleton.mp hprobe
  obtain rfl := List.mem_singleton.mp hm
  rfl

end Probes

namespace Code

/-- Neither the judgement of its references nor that of a constructor whose body it is changes when
    the texts of code are merged. -/
structure MergesQuietly (c : Code) : Prop where
  qualified : c.merged.qualifiedReferences = c.qualifiedReferences
  accepted : ∀ (p : Project) (candidate : Candidate),
    (∀ d, p.declaration? candidate.declaration = some d → ∀ m ∈ d.methods,
      candidate.constructor? = some m.id → m.body = c) →
    ((∃ record, (p.mapCode merged).rebuildRecord candidate = .ok record) ↔
      ∃ record, p.rebuildRecord candidate = .ok record)

/-- The first assignment of each value shows in the texts one by one. -/
def FirstsShow (c : Code) : Prop :=
  ∀ value, c.assignments.find? (·.2 = value) = c.spelledAssignments.find? (·.2 = value)

variable {c : Code}

theorem exists_rebuildRecord_mapCode_merged_iff (hfirst : c.FirstsShow) {p : Project}
    {candidate : Candidate} (hbody : ∀ d, p.declaration? candidate.declaration = some d →
      ∀ m ∈ d.methods, candidate.constructor? = some m.id → m.body = c) :
    (∃ record, (p.mapCode merged).rebuildRecord candidate = .ok record) ↔
      ∃ record, p.rebuildRecord candidate = .ok record := by
  rw [Project.exists_rebuildRecord_mapCode_iff, Project.exists_rebuildRecord_eq_ok_iff]
  refine exists_congr fun d => and_congr_right fun hd => and_congr_right fun _ =>
    and_congr_right fun _ => forall₂_congr fun m hm => ?_
  refine forall_congr' fun hconstructor => Method.exists_toCanonical_withBody_iff fun value => ?_
  rw [hbody d hd m hm hconstructor, assignments_merged, hfirst]

/-- A class that the body decides about tells which field gets a value first. -/
theorem find?_assignments_iff_of_mergesQuietly (h : c.MergesQuietly) (field value : ElementId) :
    c.assignments.find? (·.2 = value) = some (field, value) ↔
      c.spelledAssignments.find? (·.2 = value) = some (field, value) := by
  obtain ⟨second, hsecond⟩ := exists_ne field
  obtain ⟨other, hother⟩ :=
    Infinite.exists_notMem_finset (c.spelledAssignments.map Prod.snd).toFinset
  have hspelled : other ∉ c.spelledAssignments.map Prod.snd := mt List.mem_toFinset.mpr hother
  have hfound : other ∉ c.assignments.map Prod.snd :=
    fun hmem => hspelled ((c.assignments_sublist_spelledAssignments.map Prod.snd).mem hmem)
  have haccepted := h.accepted (Probes.project c field second other value)
    (Probes.candidate field second hsecond.symm)
    fun _ hd m hm _ => Probes.body_eq_of_declaration? hd m hm
  rw [Probes.mapCode_project,
    Probes.exists_rebuildRecord_iff hsecond.symm (c.assignments_merged ▸ hspelled),
    Probes.exists_rebuildRecord_iff hsecond.symm hfound, assignments_merged, not_iff_not]
    at haccepted
  exact haccepted.symm

theorem firstsShow_of_mergesQuietly (h : c.MergesQuietly) : c.FirstsShow := by
  intro value
  refine Option.ext fun pair => ?_
  obtain ⟨field, parameter⟩ := pair
  by_cases hparameter : parameter = value
  · exact hparameter ▸ find?_assignments_iff_of_mergesQuietly h field parameter
  · have hother : ∀ assignments : List (ElementId × ElementId),
        assignments.find? (·.2 = value) ≠ some (field, parameter) :=
      fun _ hpair => hparameter (by simpa using List.find?_some hpair)
    exact iff_of_false (hother _) (hother _)

/-- Merging the texts of code shows the same to a reader. It changes nothing else exactly if dots
    stand in the text right before their references, and if the first assignment of each value
    shows without it. -/
theorem mergesQuietly_iff (c : Code) :
    (c.merged.IsMerged ∧ c.merged.render = c.render ∧ c.merged.references = c.references) ∧
    c.assignments.Sublist c.merged.assignments ∧
    (c.MergesQuietly ↔ c.DotsAdjoin ∧ c.FirstsShow) := by
  refine ⟨⟨c.isMerged_merged, c.render_merged, c.references_merged⟩, ?_, ?_, ?_⟩
  · exact c.assignments_merged ▸ c.assignments_sublist_spelledAssignments
  · intro h
    exact ⟨c.qualifiedReferences_merged_eq_iff.mp h.qualified, firstsShow_of_mergesQuietly h⟩
  · rintro ⟨hdots, hfirst⟩
    exact ⟨c.qualifiedReferences_merged_eq_iff.mpr hdots,
      fun _ _ hbody => exists_rebuildRecord_mapCode_merged_iff hfirst hbody⟩

end Code

namespace Spans

/-- A body that assigns the parameters crosswise, in texts that were put together from pieces. -/
def scattered : Code where
  fragments := [.text " \x7b this.", .ref ⟨⟨2⟩, ⟨2⟩, "start"⟩, .text " ", .text "= ",
    .ref ⟨⟨3⟩, ⟨6⟩, "z"⟩, .text "; this.", .text " ", .ref ⟨⟨4⟩, ⟨3⟩, "end"⟩, .text " ",
    .text "= ", .ref ⟨⟨5⟩, ⟨5⟩, "a"⟩, .text "; \x7d"]

/-- The class becomes a record only as long as the texts are not merged, and one of its fields counts
    as qualified only once they are. -/
theorem not_mergesQuietly_scattered :
    ¬ scattered.MergesQuietly ∧ ¬ scattered.DotsAdjoin ∧ ¬ scattered.FirstsShow ∧
    scattered.merged.render = " \x7b this.start = z; this. end = a; \x7d" ∧
    (⟨⟨4⟩, ⟨3⟩, "end"⟩, false) ∈ scattered.qualifiedReferences ∧
    (⟨⟨4⟩, ⟨3⟩, "end"⟩, true) ∈ scattered.merged.qualifiedReferences ∧
    (∃ record, (project scattered).rebuildRecord (candidate (some ⟨4⟩)) = .ok record) ∧
    ((project scattered).mapCode Code.merged).rebuildRecord (candidate (some ⟨4⟩)) =
      .error (.crossAssignment "a" "Span(long, long)" "end" "start") := by
  obtain ⟨⟨-, hrender, -⟩, -, hiff⟩ := Code.mergesQuietly_iff scattered
  have hdots : ¬ scattered.DotsAdjoin := by
    intro h
    obtain ⟨last, hlast, hvisible⟩ :=
      h (⟨⟨4⟩, ⟨3⟩, "end"⟩, ["; this.", " "]) (by decide) (by decide)
    cases hlast
    exact hvisible rfl
  have hfirst : ¬ scattered.FirstsShow := fun h => absurd (h ⟨5⟩) (by decide)
  have hquiet : ¬ scattered.MergesQuietly := fun h => hdots (hiff.mp h).1
  exact ⟨hquiet, hdots, hfirst, hrender.trans rfl, by decide, by decide, ⟨_, rfl⟩, rfl⟩

end Spans

end ClassToRecord
