import ClassToRecord.Proofs.Record.Accessors

open ClassToRecord.Traversal

namespace ClassToRecord

/-- The keyword that a declaration has after a rebuild. -/
def Keyword.inRecord : Keyword → Keyword
  | .class => .record
  | keyword => keyword

def Parameter.typeAndName (p : Parameter) : String × String := (p.type, p.name)

namespace Declaration

def headers (d : Declaration) : List (List Parameter) := d.children.filterMap Child.header?

/-- A record as a candidate calls for it. Its one header has the parameters of the constructor, and
    the key fields are gone. -/
structure IsRecord (c : Candidate) (record : Declaration) : Prop where
  keyword : record.keyword? = some .record
  header : record.headers.length = 1
  fields : ∀ f ∈ record.fields, c.isKeyField f.id = false
  constructor : ∀ id, c.constructor? = some id →
    (∃ m ∈ record.methods, m.id = id) ∧ ∀ m ∈ record.methods, m.id = id →
      m.isConstructor = true ∧
        m.parameters.map Parameter.typeAndName = record.components.map Parameter.typeAndName

/-- A class as a candidate is meant for: it has no header, and its constructor is one. -/
structure IsPlainClass (c : Candidate) (d : Declaration) : Prop where
  keyword : d.keyword? = some .class
  header : d.headers = []
  constructor : ∀ m ∈ d.methods, c.constructor? = some m.id → m.isConstructor = true

/-- A declaration has the members that a candidate names, something significant after its name, and
    a constructor that takes the types of the components. -/
structure Suits (c : Candidate) (d : Declaration) : Prop where
  members : c.NamesMembersOf d
  constructor : ∀ id, c.constructor? = some id → ∃ m ∈ d.methods, m.id = id
  place : ∃ name after, Child.identifier name :: after <:+ d.children ∧
    ∃ child ∈ after, child.isSignificant = true
  parameters : ∀ m ∈ d.methods, c.constructor? = some m.id →
    m.parameters.map Parameter.type = (c.componentsOf d).map Parameter.type

/-- What the rebuild makes of the shape of a declaration, whatever it was. -/
structure ReshapedTo (c : Candidate) (d record : Declaration) : Prop where
  keyword : record.keyword? = d.keyword?.map Keyword.inRecord
  header : ∃ before after, d.headers = before ++ after ∧
    record.headers = before ++ c.componentsOf d :: after
  fields : ∀ f ∈ record.fields, c.isKeyField f.id = false
  constructor : ∀ id, c.constructor? = some id →
    (∃ m ∈ record.methods, m.id = id) ∧ ∀ m ∈ record.methods, m.id = id →
      m.parameters.map Parameter.typeAndName = (c.componentsOf d).map Parameter.typeAndName
  constructors : (∀ m ∈ d.methods, c.constructor? = some m.id → m.isConstructor = true) →
    ∀ m ∈ record.methods, c.constructor? = some m.id → m.isConstructor = true

/-- A plain class becomes a record in the full sense. -/
theorem ReshapedTo.isRecord {c : Candidate} {d record : Declaration} (h : d.ReshapedTo c record)
    (hplain : d.IsPlainClass c) : record.IsRecord c := by
  obtain ⟨before, after, hclass, hrecord⟩ := h.header
  have hnone : before ++ after = [] := hclass.symm.trans hplain.header
  obtain ⟨rfl, rfl⟩ := List.append_eq_nil_iff.mp hnone
  have hcomponents : record.components = c.componentsOf d := by
    rw [components, ← List.head?_filterMap, ← headers, hrecord]
    rfl
  refine ⟨?_, ?_, h.fields, fun id hid => ?_⟩
  · rw [h.keyword, hplain.keyword]
    rfl
  · rw [hrecord]
    rfl
  · obtain ⟨hmember, hparameters⟩ := h.constructor id hid
    refine ⟨hmember, fun m hm hmId => ⟨?_, ?_⟩⟩
    · exact h.constructors hplain.constructor m hm (hmId ▸ hid)
    · rw [hcomponents]
      exact hparameters m hm hmId

end Declaration

/-- Parameters that pass the check have the types of the components. -/
theorem Method.map_type_of_fits {m : Method} {components : List Parameter}
    (hlength : m.parameters.length = components.length)
    (hfits : ∀ pair ∈ m.parameters.zip components, m.parameterError? components pair = none) :
    m.parameters.map Parameter.type = components.map Parameter.type := by
  have hpaired : List.Forall₂ (fun parameter component => parameter.type = component.type)
      m.parameters components := by
    refine List.forall₂_iff_zip.mpr ⟨hlength, fun {parameter component} hpair => ?_⟩
    by_contra hother
    have hnone := hfits _ hpair
    simp [parameterError?, hother] at hnone
  rwa [← List.forall₂_map_right_iff, ← List.forall₂_map_left_iff, List.forall₂_eq_eq_eq] at hpaired

namespace Candidate

/-- Keywords become those of a record, and no other child turns into a keyword. -/
theorem keyword?_pieceOf (c : Candidate) (d : Declaration) (child : Child) :
    (c.pieceOf d child).bind Child.keyword? = child.keyword?.map Keyword.inRecord := by
  cases child with
  | keyword k => cases k <;> rfl
  | field f =>
    rw [pieceOf]
    split <;> rfl
  | method m =>
    rw [pieceOf, recordForm]
    split
    · rfl
    · split <;> rfl
  | _ => rfl

/-- Headers stay, and no other child turns into one. -/
theorem header?_pieceOf (c : Candidate) (d : Declaration) (child : Child) :
    (c.pieceOf d child).bind Child.header? = child.header? := by
  cases child with
  | keyword k => cases k <;> rfl
  | field f =>
    rw [pieceOf]
    split <;> rfl
  | method m =>
    rw [pieceOf, recordForm]
    split
    · rfl
    · split <;> rfl
  | _ => rfl

end Candidate

namespace Project

variable {p : Project} {c : Candidate} {record : Declaration}

/-- The keyword of a record is the one of its class, which is no class any more. -/
theorem keyword?_of_rebuildRecord (h : p.rebuildRecord c = .ok record) :
    ∃ d, p.declaration? c.declaration = some d ∧
      record.keyword? = d.keyword?.map Keyword.inRecord := by
  have hpiece : ∀ d child, (c.pieceOf d child).bind Child.keyword? =
      child.keyword?.bind (some ∘ Keyword.inRecord) := by
    intro d child
    rw [c.keyword?_pieceOf d child, ← Option.map_eq_bind]
  obtain ⟨d, hd, -, hkeywords⟩ :=
    filterMap_of_rebuildRecord (fun _ => rfl) (fun _ => rfl) hpiece h
  refine ⟨d, hd, ?_⟩
  rw [Declaration.keyword?, ← List.head?_filterMap, hkeywords, List.filterMap_eq_map, List.head?_map,
    List.head?_filterMap]
  rfl

/-- The header of the components comes to those that were there. -/
theorem headers_of_rebuildRecord (h : p.rebuildRecord c = .ok record) :
    ∃ d before after, p.declaration? c.declaration = some d ∧ d.headers = before ++ after ∧
      record.headers = before ++ c.componentsOf d :: after := by
  obtain ⟨d, before, anchor, after, hd, -, hanchor, hchildren, rfl⟩ :=
    rebuildRecord_eq_ok_around_anchor h
  have hpiece : ∀ child, (c.pieceOf d child).bind Child.header? = child.header?.bind some := by
    intro child
    rw [c.header?_pieceOf d child, Option.bind_fun_some]
  have hkept : ∀ children : List Child,
      (closeGaps [] (children.map (c.pieceOf d))).filterMap Child.header? =
        children.filterMap Child.header? := by
    intro children
    rw [c.filterMap_closeGaps_pieces d (fun _ => rfl) hpiece, List.filterMap_some]
  have hmark : anchor.header? = none := by cases hanchor <;> rfl
  refine ⟨d, before.filterMap Child.header?, after.filterMap Child.header?, hd, ?_, ?_⟩
  · rw [Declaration.headers, hchildren, List.filterMap_append, List.filterMap_cons_none hmark]
  · rw [Declaration.headers, List.filterMap_append, List.filterMap_cons_none hmark, hkept,
      List.filterMap_cons, hkept]
    rfl

/-- A record keeps no field that the candidate turns into a component. -/
theorem isKeyField_of_rebuildRecord (h : p.rebuildRecord c = .ok record) {f : Field}
    (hf : f ∈ record.fields) : c.isKeyField f.id = false := by
  obtain ⟨d, placed, pieces, -, -, -, hpieces, rfl⟩ := rebuildRecord_eq_ok h
  have hkept := mem_of_mem_closeGaps (Declaration.mem_fields_iff.mp hf)
  obtain ⟨old, -, hpiece⟩ := exists_mem_left_of_forall₂ hpieces hkept
  have helides := Candidate.elides_of_recordChild hpiece
  cases Candidate.becomes_of_recordChild hpiece with
  | same => exact helides

/-- A method that is the constructor in the record is a form of one in the class, whose parameters
    fit the components. -/
theorem exists_original_of_rebuildRecord (h : p.rebuildRecord c = .ok record) {id : ElementId}
    (hid : c.constructor? = some id) :
    ∃ d, p.declaration? c.declaration = some d ∧ (∃ m ∈ record.methods, m.id = id) ∧
      ∀ m ∈ record.methods, m.id = id → ∃ original ∈ d.methods, original.id = id ∧
        original.parameters.length = (c.componentsOf d).length ∧
        m = original.inRecord (c.componentsOf d) d.visibility := by
  obtain ⟨d, hd, ⟨member, hmember, hmemberId⟩, hmethods, hfits⟩ := constructor_of_rebuildRecord h hid
  have hmem : ∀ m, m ∈ record.methods.filter (·.id = id) ↔ ∃ original ∈ d.methods,
      original.id = id ∧ m = original.inRecord (c.componentsOf d) d.visibility := by
    intro m
    rw [hmethods]
    simp only [List.mem_map, List.mem_filter, decide_eq_true_eq, and_assoc, eq_comm (b := m)]
  refine ⟨d, hd, ?_, fun m hm hmId => ?_⟩
  · have hform := (hmem _).mpr ⟨member, hmember, hmemberId, rfl⟩
    obtain ⟨hkept, hkeptId⟩ := List.mem_filter.mp hform
    exact ⟨_, hkept, of_decide_eq_true hkeptId⟩
  · obtain ⟨original, horiginal, horiginalId, hform⟩ :=
      (hmem m).mp (List.mem_filter.mpr ⟨hm, decide_eq_true hmId⟩)
    exact ⟨original, horiginal, horiginalId, (hfits original horiginal horiginalId).1, hform⟩

/-- A rebuild that succeeds reshapes the declaration. -/
theorem reshapedTo_of_rebuildRecord (h : p.rebuildRecord c = .ok record) :
    ∃ d, p.declaration? c.declaration = some d ∧ d.ReshapedTo c record := by
  obtain ⟨d, hd, hkeyword⟩ := keyword?_of_rebuildRecord h
  obtain ⟨_, before, after, hsame, hclass, hrecord⟩ := headers_of_rebuildRecord h
  obtain rfl := Option.some.inj (hd.symm.trans hsame)
  refine ⟨d, hd, hkeyword, ⟨before, after, hclass, hrecord⟩,
    fun f hf => isKeyField_of_rebuildRecord h hf, fun id hid => ?_, fun hconstructors m hm hid => ?_⟩
  · obtain ⟨_, hsame, hmember, hforms⟩ := exists_original_of_rebuildRecord h hid
    obtain rfl := Option.some.inj (hd.symm.trans hsame)
    refine ⟨hmember, fun m hm hmId => ?_⟩
    obtain ⟨original, -, -, hlength, rfl⟩ := hforms m hm hmId
    exact Method.map_recordParameters (fun _ _ => rfl) hlength
  · obtain ⟨_, hsame, -, hforms⟩ := exists_original_of_rebuildRecord h hid
    obtain rfl := Option.some.inj (hd.symm.trans hsame)
    obtain ⟨original, horiginal, horiginalId, -, rfl⟩ := hforms m hm rfl
    exact hconstructors original horiginal (horiginalId ▸ hid)

/-- It succeeds only with a declaration that suits the candidate. -/
theorem suits_of_rebuildRecord (h : p.rebuildRecord c = .ok record) :
    ∃ d, p.declaration? c.declaration = some d ∧ d.Suits c := by
  obtain ⟨d, hd, hmembers, hplace, hcanonical⟩ := exists_rebuildRecord_eq_ok_iff.mp ⟨record, h⟩
  obtain ⟨hnames, hconstructor⟩ := Candidate.memberError?_eq_none_iff.mp hmembers
  refine ⟨d, hd, hnames, hconstructor, Declaration.isSome_insertHeader_iff.mp hplace,
    fun m hm hid => ?_⟩
  obtain ⟨canonical, hm⟩ := hcanonical m hm hid
  obtain ⟨hlength, hfits, -⟩ := Method.toCanonical_eq_ok_iff.mp hm
  exact Method.map_type_of_fits hlength hfits

/-- The rebuild gives a declaration that suits the candidate the shape of a record, as far as a
    class would have it, and a plain class becomes a record in the full sense. Any other declaration
    is refused. -/
theorem rebuildRecord_reshapes (p : Project) (c : Candidate) :
    (∀ record, p.rebuildRecord c = .ok record →
      ∃ d, p.declaration? c.declaration = some d ∧ d.Suits c ∧ d.ReshapedTo c record ∧
        (d.IsPlainClass c → record.IsRecord c)) ∧
    ((¬ ∃ d, p.declaration? c.declaration = some d ∧ d.Suits c) →
      ∃ error, p.rebuildRecord c = .error error) := by
  constructor
  · intro record h
    obtain ⟨d, hd, hsuits⟩ := suits_of_rebuildRecord h
    obtain ⟨_, hsame, hreshaped⟩ := reshapedTo_of_rebuildRecord h
    obtain rfl := Option.some.inj (hd.symm.trans hsame)
    exact ⟨d, hd, hsuits, hreshaped, hreshaped.isRecord⟩
  · intro hunsuited
    cases hresult : p.rebuildRecord c with
    | error error => exact ⟨error, rfl⟩
    | ok record => exact absurd (suits_of_rebuildRecord hresult) hunsuited

end Project

namespace Spans

/-- A plain class becomes a record in the full sense. In a project without it nothing does. -/
theorem rebuildRecord_reshapes_span :
    (∃ record, (project ordered).rebuildRecord (candidate (some ⟨4⟩)) = .ok record ∧
      (span ordered).ReshapedTo (candidate (some ⟨4⟩)) record ∧
      record.IsRecord (candidate (some ⟨4⟩))) ∧
    ∃ error, Project.rebuildRecord {} (candidate (some ⟨4⟩)) = .error error := by
  constructor
  · have hrecord : ∃ record,
        (project ordered).rebuildRecord (candidate (some ⟨4⟩)) = .ok record := ⟨_, rfl⟩
    obtain ⟨record, hrecord⟩ := hrecord
    obtain ⟨d, hd, -, hreshaped, hplain⟩ :=
      (Project.rebuildRecord_reshapes (project ordered) (candidate (some ⟨4⟩))).1 record hrecord
    cases hd
    exact ⟨record, hrecord, hreshaped, hplain ⟨rfl, rfl, by decide⟩⟩
  · apply (Project.rebuildRecord_reshapes {} (candidate (some ⟨4⟩))).2
    rintro ⟨d, hd, -⟩
    cases hd

end Spans

namespace Boxes

/-- A declaration of any kind, with or without a header and members. -/
def box (keyword : Keyword) (header members : List Child) : Declaration where
  id := ⟨1⟩
  file := "Box.java"
  children := .keyword keyword :: .trivia (.whitespace " ") :: .identifier "Box" :: header ++
    .code (.ofText " \x7b ") :: members ++ [.code (.ofText " \x7d")]

/-- A candidate without key fields. -/
def candidate (constructor? : Option ElementId) : Candidate := ⟨⟨1⟩, ∅, constructor?⟩

/-- An ordinary method. -/
def fill : Child := .method {
  id := ⟨2⟩
  modifiers := ⟨.package, []⟩
  returnType? := some "void"
  name := "fill"
  parameters := []
  body := .ofText " \x7b \x7d" }

/-- The header of a record. -/
def sized : Child := .header [⟨⟨2⟩, "int", "size"⟩]

/-- The rebuild does not ask what it is given. An interface stays one, a record gets a second header,
    and an ordinary method can take the place of the constructor. -/
theorem not_isRecord_rebuildRecord :
    (∃ record, Project.rebuildRecord ⟨[box .interface [] []], 1, 0⟩ (candidate none) = .ok record ∧
      record.keyword? = some .interface ∧ ¬ record.IsRecord (candidate none)) ∧
    (∃ record, Project.rebuildRecord ⟨[box .record [sized] []], 2, 0⟩ (candidate none) = .ok record ∧
      record.headers.length = 2 ∧ ¬ record.IsRecord (candidate none)) ∧
    ∃ record, Project.rebuildRecord ⟨[box .class [] [fill]], 2, 0⟩ (candidate (some ⟨2⟩)) =
        .ok record ∧
      (∃ m ∈ record.methods, m.id = ⟨2⟩ ∧ m.isConstructor = false) ∧
        ¬ record.IsRecord (candidate (some ⟨2⟩)) := by
  refine ⟨⟨_, rfl, rfl, fun hrecord => ?_⟩, ⟨_, rfl, rfl, fun hrecord => ?_⟩,
    _, rfl, ⟨_, .head _, rfl, rfl⟩, fun hrecord => ?_⟩
  · cases hrecord.keyword
  · cases hrecord.header
  · obtain ⟨-, hconstructors⟩ := hrecord.constructor ⟨2⟩ rfl
    obtain ⟨hconstructor, -⟩ := hconstructors _ (.head _) rfl
    cases hconstructor

end Boxes

end ClassToRecord
