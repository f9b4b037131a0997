import ClassToRecord.Proofs.Project.Assignments
import ClassToRecord.Proofs.Project.Members
import ClassToRecord.Proofs.Record.Accessors
import ClassToRecord.Proofs.Record.Layout
import Mathlib.Data.List.Zip

namespace ClassToRecord

open DeclarationBuilder

private theorem getElem_mem_zip {α β : Type} {l : List α} {l' : List β} {i : Nat}
    (h : i < l.length) (h' : i < l'.length) : (l[i], l'[i]) ∈ l.zip l' := by
  have hzip : i < (l.zip l').length := by
    rw [List.length_zip]
    exact Nat.lt_min.mpr ⟨h, h'⟩
  exact List.getElem_zip (h := hzip) ▸ List.getElem_mem hzip

namespace Method

/-- A constructor that takes a parameter for each of some fields and stores it there, as a builder
    writes it. -/
structure Stores (m : Method) (fields : List Field) : Prop where
  alike : List.Forall₂ (fun f parameter => parameter.type = f.type ∧ parameter.name = f.name)
    fields m.parameters
  distinct : (m.parameters.map Parameter.id).Nodup
  apart : ∀ f ∈ fields, f.id ∉ m.parameters.map Parameter.id
  assignments : m.body.assignments =
    (fields.zip m.parameters).map fun (f, parameter) => (f.id, parameter.id)
  references : ∀ r ∈ m.body.references, ∃ pair ∈ fields.zip m.parameters,
    r.name = pair.1.name ∧ (r.target = pair.1.id ∨ r.target = pair.2.id)

namespace Stores

variable {m : Method} {fields : List Field} {components : List Parameter}

/-- A parameter is assigned to the component that its field becomes. -/
theorem assignedComponent? (h : m.Stores fields) (hids : (components.map Parameter.id).Nodup)
    (hknown : ∀ f ∈ fields, f.toComponent ∈ components) {f : Field} {parameter : Parameter}
    (hpair : (f, parameter) ∈ fields.zip m.parameters) :
    m.assignedComponent? components parameter.id = some f.toComponent := by
  have hlength : m.parameters.length ≤ fields.length := Nat.le_of_eq h.alike.length_eq.symm
  have hvalues : m.body.assignments.map Prod.snd = m.parameters.map Parameter.id := by
    rw [h.assignments, List.map_map]
    have hsnd := congrArg (List.map Parameter.id) (List.map_snd_zip hlength)
    rwa [List.map_map] at hsnd
  have hassignment : m.body.assignments.find? (·.2 = parameter.id) = some (f.id, parameter.id) := by
    rw [find?_eq_some_iff_of_nodup_map Prod.snd (hvalues ▸ h.distinct), h.assignments]
    exact ⟨List.mem_map.mpr ⟨_, hpair, rfl⟩, rfl⟩
  have hcomponent : components.find? (·.id = f.id) = some f.toComponent :=
    (find?_eq_some_iff_of_nodup_map Parameter.id hids).mpr
      ⟨hknown f (List.of_mem_zip hpair).1, rfl⟩
  simp only [Method.assignedComponent?, hassignment, hcomponent]

/-- The check lets a parameter pass exactly if its field becomes the component at its position. -/
theorem parameterError?_eq_none_iff (h : m.Stores fields)
    (hids : (components.map Parameter.id).Nodup)
    (hknown : ∀ f ∈ fields, f.toComponent ∈ components) {f : Field} {parameter component : Parameter}
    (hpair : (f, parameter) ∈ fields.zip m.parameters) (hcomponent : component ∈ components) :
    m.parameterError? components (parameter, component) = none ↔ f.toComponent = component := by
  have hassigned := h.assignedComponent? hids hknown hpair
  have htype : parameter.type = f.toComponent.type :=
    ((List.forall₂_iff_zip.mp h.alike).2 hpair).1
  have hsame : f.toComponent.id = component.id ↔ f.toComponent = component :=
    ⟨List.inj_on_of_nodup_map hids (hknown f (List.of_mem_zip hpair).1) hcomponent,
      congrArg Parameter.id⟩
  simp only [parameterError?, hassigned]
  constructor
  · intro hnone
    split at hnone
    · cases hnone
    · split at hnone
      · next hid => exact hsame.mp hid
      · cases hnone
  · rintro rfl
    rw [if_neg (not_not.mpr htype), if_pos rfl]

/-- The fields are those of the components in their order exactly if they have their ids. -/
theorem map_toComponent_eq_iff (hids : (components.map Parameter.id).Nodup)
    (hknown : ∀ f ∈ fields, f.toComponent ∈ components) :
    fields.map Field.toComponent = components ↔
      fields.map Field.id = components.map Parameter.id := by
  constructor
  · rintro rfl
    rw [List.map_map]
    rfl
  · intro hsame
    have hlength : fields.length = components.length := by
      simpa using congrArg List.length hsame
    apply List.ext_getElem
    · rw [List.length_map, hlength]
    · intro i hi hi'
      have hat : (fields.map Field.id)[i]? = (components.map Parameter.id)[i]? := by rw [hsame]
      rw [List.getElem_map]
      apply List.inj_on_of_nodup_map hids (hknown _ (List.getElem_mem _)) (List.getElem_mem _)
      simpa [hi', hlength, Field.toComponent] using hat

/-- The constructor can become canonical exactly if the fields are those of the components in their
    order. -/
theorem exists_toCanonical_eq_ok_iff (h : m.Stores fields)
    (hids : (components.map Parameter.id).Nodup)
    (hknown : ∀ f ∈ fields, f.toComponent ∈ components) (visibility : Visibility) :
    (∃ canonical, m.toCanonical components visibility = .ok canonical) ↔
      fields.map Field.toComponent = components := by
  simp only [toCanonical_eq_ok_iff, exists_and_left, exists_eq, and_true]
  constructor
  · rintro ⟨hlength, hfits⟩
    apply List.ext_getElem
    · rw [List.length_map, h.alike.length_eq, hlength]
    · intro i hi hcomponent
      rw [List.length_map] at hi
      have hparameter : i < m.parameters.length := hlength ▸ hcomponent
      rw [List.getElem_map]
      exact (h.parameterError?_eq_none_iff hids hknown (getElem_mem_zip hi hparameter)
        (List.getElem_mem hcomponent)).mp (hfits _ (getElem_mem_zip hparameter hcomponent))
  · rintro rfl
    refine ⟨?_, ?_⟩
    · rw [List.length_map, h.alike.length_eq]
    · intro position hposition
      rw [List.zip_map_right, List.mem_map] at hposition
      obtain ⟨⟨parameter, f⟩, hswapped, rfl⟩ := hposition
      have hpair : (f, parameter) ∈ fields.zip m.parameters := by
        rw [← List.zip_swap]
        exact List.mem_map.mpr ⟨_, hswapped, rfl⟩
      exact (h.parameterError?_eq_none_iff hids hknown hpair
        (hknown f (List.of_mem_zip hpair).1)).mpr rfl

private theorem zipWith_toComponent {parameters : List Parameter}
    (h : List.Forall₂ (fun f parameter => parameter.type = f.type ∧ parameter.name = f.name)
      fields parameters) :
    List.zipWith (fun parameter component => { component with id := parameter.id }) parameters
      (fields.map Field.toComponent) = parameters := by
  induction h with
  | nil => rfl
  | cons hparameter _ ih =>
    obtain ⟨htype, hname⟩ := hparameter
    rw [List.map_cons, List.zipWith_cons_cons, ih, Field.toComponent, ← htype, ← hname]

/-- It is then the constructor as it was, with a visibility that is raised. -/
theorem inRecord_eq (h : m.Stores fields) (hcomponents : fields.map Field.toComponent = components)
    (visibility : Visibility) :
    m.inRecord components visibility =
      { m with modifiers.visibility := m.modifiers.visibility.max visibility } := by
  have hparameters : m.recordParameters components = m.parameters := by
    rw [← hcomponents, recordParameters, zipWith_toComponent h.alike]
  have hfollow : ∀ r ∈ m.body.references, followParameter m.parameters r = r := by
    intro r hr
    obtain ⟨⟨f, parameter⟩, hpair, hname, htarget⟩ := h.references r hr
    obtain ⟨hf, hparameter⟩ := List.of_mem_zip hpair
    obtain htarget | htarget := htarget
    · exact followParameter_eq_self (htarget ▸ h.apart f hf)
    · have hfound : m.parameters.find? (·.id = r.target) = some parameter :=
        (find?_eq_some_iff_of_nodup_map Parameter.id h.distinct).mpr ⟨hparameter, htarget.symm⟩
      have hsame : r.name = parameter.name :=
        hname.trans ((List.forall₂_iff_zip.mp h.alike).2 hpair).2.symm
      rw [followParameter, hfound]
      exact congrArg (fun name => { r with name }) hsame.symm
  have hbody : m.body.mapReferences (followParameter m.parameters) = m.body :=
    (Code.mapReferences_congr hfollow).trans m.body.mapReferences_id
  rw [inRecord, hparameters, hbody]

/-- What it stores does not depend on the numbers of its references, nor on what it overrides. -/
theorem number (h : m.Stores fields) (superMethods : List ElementId) (last : Nat) :
    Stores { m with superMethods, body := (m.body.number last).1 } fields := by
  refine ⟨h.alike, h.distinct, h.apart, ?_, fun r hr => ?_⟩
  · exact (Code.assignments_number last m.body).trans h.assignments
  · let read (fragment : Fragment) : Option (ElementId × String) :=
      fragment.reference?.map fun r => (r.target, r.name)
    have hread : (m.body.number last).1.fragments.map read = m.body.fragments.map read :=
      Code.map_fragments_number read (fun _ _ => rfl) last m.body
    obtain ⟨fragment, hfragment, hreference⟩ := List.mem_filterMap.mp hr
    have hsome : some (r.target, r.name) ∈ m.body.fragments.map read := by
      rw [← hread]
      exact List.mem_map.mpr ⟨fragment, hfragment, by simp [read, hreference]⟩
    obtain ⟨old, hold, hsame⟩ := List.mem_map.mp hsome
    obtain ⟨r', hr', hpair⟩ := Option.map_eq_some_iff.mp hsame
    obtain ⟨htarget, hname⟩ := Prod.mk.inj hpair
    rw [← htarget, ← hname]
    exact h.references r' (List.mem_filterMap.mpr ⟨old, hold, hr'⟩)

end Stores

end Method

namespace Candidate

variable {c : Candidate} {d : Declaration}

theorem nodup_map_id_componentsOf (h : (d.fields.map Field.id).Nodup) :
    ((c.componentsOf d).map Parameter.id).Nodup := by
  have hids : (c.componentsOf d).map Parameter.id =
      (d.fields.filter (c.isComponent ·.id)).map Field.id := by
    rw [componentsOf, List.map_map]
    rfl
  rw [hids]
  exact (List.filter_sublist.map Field.id).nodup h

theorem isComponent_of_mem_componentsOf {id : ElementId}
    (h : id ∈ (c.componentsOf d).map Parameter.id) : c.isComponent id = true := by
  obtain ⟨component, hcomponent, rfl⟩ := List.mem_map.mp h
  obtain ⟨f, hf, rfl⟩ := List.mem_map.mp hcomponent
  exact (List.mem_filter.mp hf).2

/-- Nothing but the constructor can keep the class of a candidate from becoming a record, and the
    constructor stores a parameter for each of some fields that become components. -/
structure StoresComponents (c : Candidate) (d : Declaration) (constructor : Method)
    (fields : List Field) : Prop where
  complete : c.memberError? d = none
  place : (Declaration.insertHeader (.header (c.componentsOf d)) d.children).isSome = true
  named : c.constructor? = some constructor.id
  found : constructor ∈ d.methods
  methods : (d.methods.map Method.id).Nodup
  components : ((c.componentsOf d).map Parameter.id).Nodup
  known : ∀ f ∈ fields, f.toComponent ∈ c.componentsOf d
  stores : constructor.Stores fields

namespace StoresComponents

variable {p : Project} {constructor : Method} {fields : List Field}

/-- The class becomes a record exactly if the constructor takes the components in their order. -/
theorem exists_rebuildRecord_eq_ok_iff (h : c.StoresComponents d constructor fields)
    (hd : p.declaration? c.declaration = some d) : (∃ record, p.rebuildRecord c = .ok record) ↔
      fields.map Field.toComponent = c.componentsOf d := by
  rw [← h.stores.exists_toCanonical_eq_ok_iff h.components h.known d.visibility,
    Project.exists_rebuildRecord_eq_ok_iff]
  constructor
  · rintro ⟨d', hd', -, -, hall⟩
    obtain rfl := Option.some.inj (hd.symm.trans hd')
    exact hall constructor h.found h.named
  · rintro hcanonical
    refine ⟨d, hd, h.complete, h.place, fun m hm hid => ?_⟩
    have hsame : m.id = constructor.id := Option.some.inj (hid.symm.trans h.named)
    obtain rfl := List.inj_on_of_nodup_map h.methods hm h.found hsame
    exact hcanonical

theorem method?_declaration (h : c.StoresComponents d constructor fields) :
    d.method? constructor.id = some constructor :=
  (find?_eq_some_iff_of_nodup_map Method.id h.methods).mpr ⟨h.found, rfl⟩

/-- If it does not, then because of the constructor. -/
theorem toCanonical_eq_error (h : c.StoresComponents d constructor fields)
    (hd : p.declaration? c.declaration = some d) {error : ShapeError}
    (herror : p.rebuildRecord c = .error error) :
    constructor.toCanonical (c.componentsOf d) d.visibility = .error error := by
  obtain ⟨m, hm, hid, hcanonical⟩ :=
    Project.exists_method_of_rebuildRecord_eq_error hd h.complete h.place herror
  have hsame : m.id = constructor.id := Option.some.inj (hid.symm.trans h.named)
  obtain rfl := List.inj_on_of_nodup_map h.methods hm h.found hsame
  exact hcanonical

/-- Otherwise the record has it, at least as visible as the class. -/
theorem method?_record (h : c.StoresComponents d constructor fields)
    (hd : p.declaration? c.declaration = some d) {record : Declaration}
    (hrecord : p.rebuildRecord c = .ok record) :
    record.method? constructor.id = some { constructor with
      modifiers.visibility := constructor.modifiers.visibility.max d.visibility } := by
  obtain ⟨d', m, hd', hm, hform⟩ := Project.method?_of_rebuildRecord hrecord h.named
  obtain rfl := Option.some.inj (hd.symm.trans hd')
  obtain rfl := Option.some.inj (h.method?_declaration.symm.trans hm)
  rw [hform, h.stores.inRecord_eq ((h.exists_rebuildRecord_eq_ok_iff hd).mp ⟨record, hrecord⟩)]

end StoresComponents

end Candidate

namespace DeclarationBuilder

variable {b : DeclarationBuilder}

/-- A canonical constructor stores a parameter for each field that it is made for. -/
theorem exists_stores_of_canonicalConstructor (hown : b.OwnIds) {modifiers : Modifiers}
    {ids : List ElementId} {constructor : ElementId}
    (h : (b.canonicalConstructor modifiers ids).1 = .ok constructor) :
    ∃ (m : Method) (fields : List Field), m.id = constructor ∧ fields.map Field.id = ids ∧
      (∀ f ∈ fields, .field f ∈ b.declaration.children) ∧ m.Stores fields ∧
      .method m ∈ (b.perform (.canonicalConstructor modifiers ids)).declaration.children := by
  cases hresult : b.assignFields ids with
  | mk result b' =>
    cases result with
    | error failure =>
      rw [canonicalConstructor, hresult] at h
      cases h
    | ok made =>
      obtain ⟨parameters, body⟩ := made
      rw [canonicalConstructor, hresult] at h
      cases h
      obtain ⟨fields, hids, htakes, rfl⟩ := assignFields_eq_ok (congrArg Prod.fst hresult)
      have hmember : ∀ f ∈ fields, .field f ∈ b.declaration.children := fun f hf =>
        Declaration.mem_fields_iff.mp (htakes.known f hf)
      have hapart : ∀ f ∈ fields, f.id ∉ parameters.map Parameter.id := by
        intro f hf hparameter
        have hgiven := hown.given f.id (List.mem_filterMap.mpr ⟨_, hmember f hf, rfl⟩)
        exact absurd (htakes.fresh f.id hparameter) (Nat.not_lt_of_le hgiven)
      let m : Method :=
        { id := b'.allocate.1, modifiers, returnType? := none,
          name := b'.declaration.name?.getD "", parameters,
          body := constructorBody (fields.zip parameters) }
      have hstores : m.Stores fields :=
        ⟨htakes.alike, htakes.distinct, hapart, assignments_constructorBody _,
          fun r hr => exists_pair_of_mem_references hr⟩
      have hadded : b.memberOf? (.canonicalConstructor modifiers ids) = some (.method m) := by
        rw [memberOf?, hresult]
        rfl
      obtain ⟨b'', -, hperform, -⟩ := perform_of_memberOf? hadded
      refine ⟨m, fields, rfl, hids, hmember, hstores, ?_⟩
      rw [hperform]
      exact List.mem_append_right _ (.tail _ (.head _))

/-- Later calls leave it so. -/
theorem exists_stores_handedOver (hown : b.OwnIds) {modifiers : Modifiers} {ids : List ElementId}
    {constructor : ElementId}
    (h : (b.canonicalConstructor modifiers ids).1 = .ok constructor) (after : List Call) :
    ∃ original ∈ (b.performAll (.canonicalConstructor modifiers ids :: after)).handedOver.methods,
      original.id = constructor ∧ ∃ fields, fields.map Field.id = ids ∧ original.Stores fields ∧
        ∀ f ∈ fields, ∃ g ∈
          (b.performAll (.canonicalConstructor modifiers ids :: after)).handedOver.fields,
            g.toComponent = f.toComponent := by
  obtain ⟨m, fields, hid, hids, hbuilt, hstores, hm⟩ := exists_stores_of_canonicalConstructor hown h
  obtain ⟨superMethods, hlater⟩ := exists_method_mem_performAll hm after
  obtain ⟨last, hnumbered⟩ := exists_number_mem_handedOver hlater
  refine ⟨_, Declaration.mem_methods_iff.mpr hnumbered, hid, fields, hids,
    hstores.number superMethods last, fun f hf => ?_⟩
  have hfield := field_mem_performAll (hbuilt f hf) (.canonicalConstructor modifiers ids :: after)
  obtain ⟨last, hnumbered⟩ := exists_number_mem_handedOver hfield
  rw [Child.number] at hnumbered
  split at hnumbered
  · exact ⟨f, Declaration.mem_fields_iff.mpr hnumbered, rfl⟩
  · exact ⟨_, Declaration.mem_fields_iff.mpr hnumbered, rfl⟩

theorem nodup_map_id_methods_handedOver (h : b.OwnIds) :
    (b.handedOver.methods.map Method.id).Nodup := by
  rw [Declaration.methods, List.map_filterMap]
  apply h.nodup_handedOver
  intro child id hid
  obtain ⟨m, hm, rfl⟩ := Option.map_eq_some_iff.mp hid
  cases child with
  | method m' =>
    cases hm
    rfl
  | _ => cases hm

theorem nodup_map_id_fields_handedOver (h : b.OwnIds) :
    (b.handedOver.fields.map Field.id).Nodup := by
  rw [Declaration.fields, List.map_filterMap]
  apply h.nodup_handedOver
  intro child id hid
  obtain ⟨f, hf, rfl⟩ := Option.map_eq_some_iff.mp hid
  cases child with
  | field f' =>
    cases hf
    rfl
  | _ => cases hf

theorem isSome_insertHeader_handedOver (p : Project) (keyword : Keyword) (file name : String)
    (calls : List Call) (header : Child) :
    (Declaration.insertHeader header
      ((start p keyword file name).performAll calls).handedOver.children).isSome = true := by
  have hfront : Outline.HasFront keyword
      ((start p keyword file name).performAll calls).handedOver.children :=
    (Outline.HasFront.performAll ⟨{ name }, [], rfl⟩ calls).handedOver
  obtain ⟨o, rest, hchildren⟩ := hfront
  rw [hchildren, Outline.insertHeader_front]
  rfl

end DeclarationBuilder

namespace Project

variable {p q : Project} {c : Candidate} {d : Declaration} {file name : String}
  {before after : List Call} {modifiers : Modifiers} {ids : List ElementId} {constructor : ElementId}

/-- Where a builder makes a canonical constructor for components of a class whose key fields have no
    accessors, the class is ready to become a record. -/
theorem exists_storesComponents
    (hcall : (((start p .class file name).performAll before).canonicalConstructor modifiers ids).1 =
      .ok constructor)
    (hmade : d = ((start p .class file name).performAll
      (before ++ .canonicalConstructor modifiers ids :: after)).handedOver)
    (hconstructor : c.constructor? = some constructor)
    (hfields : ∀ entry ∈ c.fields.entries, entry.2 = none ∧ ∃ f ∈ d.fields, f.id = entry.1)
    (hids : ∀ id ∈ ids, id ∈ (c.componentsOf d).map Parameter.id) :
    ∃ original fields, original.id = constructor ∧ fields.map Field.id = ids ∧
      c.StoresComponents d original fields := by
  have hlast := (ownIds_start p .class file name).performAll
    (before ++ .canonicalConstructor modifiers ids :: after)
  have hmethods := nodup_map_id_methods_handedOver hlast
  have hfieldIds := nodup_map_id_fields_handedOver hlast
  have hplace := isSome_insertHeader_handedOver p .class file name
    (before ++ .canonicalConstructor modifiers ids :: after) (.header (c.componentsOf d))
  have hrun : ((start p .class file name).performAll before).performAll
      (.canonicalConstructor modifiers ids :: after) =
        (start p .class file name).performAll
          (before ++ .canonicalConstructor modifiers ids :: after) := (List.foldl_append ..).symm
  have hmember := exists_stores_handedOver ((ownIds_start p .class file name).performAll before)
    hcall after
  rw [hrun] at hmember
  rw [← hmade] at hmethods hfieldIds hplace hmember
  obtain ⟨original, horiginal, hid, fields, hfieldsOf, hstores, hbuilt⟩ := hmember
  have hnamed : c.constructor? = some original.id := hid ▸ hconstructor
  have hcomplete : c.memberError? d = none := by
    refine Candidate.memberError?_eq_none_iff.mpr ⟨fun entry hentry => ?_, fun id hother => ?_⟩
    · obtain ⟨hnone, hfield⟩ := hfields entry hentry
      exact ⟨hfield, fun binding hbinding => absurd (hnone.symm.trans hbinding) nofun⟩
    · exact ⟨original, horiginal, Option.some.inj (hnamed.symm.trans hother)⟩
  have hknown : ∀ f ∈ fields, f.toComponent ∈ c.componentsOf d := by
    intro f hf
    obtain ⟨g, hg, hsame⟩ := hbuilt f hf
    have hgid : g.id = f.id := congrArg Parameter.id hsame
    have hcomponent := Candidate.isComponent_of_mem_componentsOf
      (hids f.id (hfieldsOf ▸ List.mem_map_of_mem hf))
    rw [← hsame]
    exact (Candidate.toComponent_mem_componentsOf_iff hg).mpr (hgid ▸ hcomponent)
  exact ⟨original, fields, hid, hfieldsOf, hcomplete, hplace, hnamed, horiginal, hmethods,
    Candidate.nodup_map_id_componentsOf hfieldIds, hknown, hstores⟩

/-- A class with a canonical constructor for some of its components becomes a record exactly if it
    takes all of them once and in their order. The constructor of the record is then the same one,
    at least as visible as the class, and otherwise the constructor is what is wrong. -/
theorem rebuildRecord_canonicalConstructor
    (hcall : (((start p .class file name).performAll before).canonicalConstructor modifiers ids).1 =
      .ok constructor)
    (hmade : d = ((start p .class file name).performAll
      (before ++ .canonicalConstructor modifiers ids :: after)).handedOver)
    (hd : q.declaration? c.declaration = some d) (hconstructor : c.constructor? = some constructor)
    (hfields : ∀ entry ∈ c.fields.entries, entry.2 = none ∧ ∃ f ∈ d.fields, f.id = entry.1)
    (hids : ∀ id ∈ ids, id ∈ (c.componentsOf d).map Parameter.id) :
    ((∃ record, q.rebuildRecord c = .ok record) ↔
        ids = (c.componentsOf d).map Parameter.id) ∧
      ∃ original, d.method? constructor = some original ∧
        (ids ≠ (c.componentsOf d).map Parameter.id →
          ∃ error, original.toCanonical (c.componentsOf d) d.visibility = .error error ∧
            q.rebuildRecord c = .error error) ∧
        ∀ record, q.rebuildRecord c = .ok record → record.method? constructor =
          some { original with
            modifiers.visibility := original.modifiers.visibility.max d.visibility } := by
  obtain ⟨original, fields, rfl, rfl, hstores⟩ :=
    exists_storesComponents hcall hmade hconstructor hfields hids
  have hiff := (hstores.exists_rebuildRecord_eq_ok_iff hd).trans
    (Method.Stores.map_toComponent_eq_iff hstores.components hstores.known)
  refine ⟨hiff, original, hstores.method?_declaration, fun hother => ?_,
    fun record hrecord => hstores.method?_record hd hrecord⟩
  cases hresult : q.rebuildRecord c with
  | error error => exact ⟨error, hstores.toCanonical_eq_error hd hresult, rfl⟩
  | ok record => exact absurd (hiff.mp ⟨record, hresult⟩) hother

end Project

namespace Couples

/-- A couple whose private constructor takes some of its fields. -/
def taking (ids : List ElementId) : DeclarationBuilder :=
  (start {} .class "Couple.java" "Couple").performAll
    (fields ++ .canonicalConstructor ⟨.private, []⟩ ids :: [.comment "// checked"])

/-- Both sides are key fields, and no accessor is bound to them. -/
def unbound : Candidate where
  declaration := ⟨1⟩
  fields := ⟨[(⟨4⟩, none), (⟨3⟩, none)], by decide⟩
  constructor? := some ⟨7⟩

/-- Both sides have the same type, and still they have to come in order. The constructor then becomes
    as visible as the class. -/
theorem rebuildRecord_canonicalConstructor_couple :
    (∃ record original, (taking [⟨3⟩, ⟨4⟩]).finish.rebuildRecord unbound = .ok record ∧
      (taking [⟨3⟩, ⟨4⟩]).handedOver.method? ⟨7⟩ = some original ∧
      record.method? ⟨7⟩ = some { original with modifiers.visibility := .package }) ∧
    (taking [⟨4⟩, ⟨3⟩]).finish.rebuildRecord unbound =
      .error (.crossAssignment "right" "Couple(A, A)" "right" "left") := by
  have htaken : (((start {} .class "Couple.java" "Couple").performAll fields).canonicalConstructor
      ⟨.private, []⟩ [⟨3⟩, ⟨4⟩]).1 = .ok ⟨7⟩ := rfl
  have hswapped : (((start {} .class "Couple.java" "Couple").performAll fields).canonicalConstructor
      ⟨.private, []⟩ [⟨4⟩, ⟨3⟩]).1 = .ok ⟨7⟩ := rfl
  constructor
  · have hd : (taking [⟨3⟩, ⟨4⟩]).finish.declaration? unbound.declaration =
        some (taking [⟨3⟩, ⟨4⟩]).handedOver := rfl
    obtain ⟨hiff, original, horiginal, -, hform⟩ :=
      Project.rebuildRecord_canonicalConstructor htaken rfl hd rfl (by decide +kernel)
        (by decide +kernel)
    obtain ⟨record, hrecord⟩ := hiff.mpr rfl
    refine ⟨record, original, hrecord, horiginal, (hform record hrecord).trans ?_⟩
    cases horiginal
    rfl
  · have hd : (taking [⟨4⟩, ⟨3⟩]).finish.declaration? unbound.declaration =
        some (taking [⟨4⟩, ⟨3⟩]).handedOver := rfl
    obtain ⟨-, original, horiginal, hfails, -⟩ :=
      Project.rebuildRecord_canonicalConstructor hswapped rfl hd rfl (by decide +kernel)
        (by decide +kernel)
    obtain ⟨error, hcanonical, herror⟩ := hfails (by decide +kernel)
    cases horiginal
    cases hcanonical
    exact herror

end Couples

end ClassToRecord
