import ClassToRecord.Proofs.Record.Constructor

namespace ClassToRecord

namespace Candidate

variable {c : Candidate} {d : Declaration}

/-- A component is a key field without an accessor, or one that its own accessor returns. -/
theorem isComponent_iff {field : ElementId} :
    c.isComponent field = true ↔ (field, none) ∈ c.fields.entries ∨
      ∃ own, (field, some own) ∈ c.fields.entries ∧ own.backingField = field := by
  simp only [← OrderedMap.get?_eq_some_iff]
  unfold isComponent
  cases c.fields.get? field with
  | none => simp
  | some own? => cases own? <;> simp

/-- The header has the components of the class and no other field of it. -/
theorem toComponent_mem_componentsOf_iff {f : Field} (hf : f ∈ d.fields) :
    f.toComponent ∈ c.componentsOf d ↔ c.isComponent f.id = true := by
  constructor
  · intro h
    obtain ⟨other, hother, hsame⟩ := List.mem_map.mp h
    have hid : other.id = f.id := congrArg Parameter.id hsame
    exact hid ▸ (List.mem_filter.mp hother).2
  · intro hcomponent
    exact List.mem_map_of_mem (List.mem_filter.mpr ⟨hf, hcomponent⟩)

/-- The backing field of a binding is a field of the class, whether it is a key field or not. -/
theorem exists_backingField (h : c.NamesMembersOf d) {binding : AccessorBinding}
    (hbinding : binding ∈ c.bindings.map Prod.snd) :
    ∃ f ∈ d.fields, f.id = binding.backingField := by
  obtain ⟨⟨field, _⟩, hpair, rfl⟩ := List.mem_map.mp hbinding
  obtain ⟨⟨field', binding?⟩, hentry, hsome⟩ := List.mem_filterMap.mp hpair
  obtain ⟨_, rfl, hbinding⟩ := Option.map_eq_some_iff.mp hsome
  cases hbinding
  exact ((h _ hentry).2 _ rfl).2

/-- The accessor of a binding has no form in the record, unless it is the constructor. -/
theorem methodForm_of_accessor {m : Method} {binding : AccessorBinding}
    (hbinding : binding ∈ c.bindings.map Prod.snd) (hm : m.id = binding.accessor)
    (hother : c.constructor? ≠ some m.id) : c.methodForm d m = none := by
  have hbound : (c.bindingForAccessor? m.id).isSome = true :=
    List.find?_isSome.mpr ⟨binding, hbinding, decide_eq_true hm.symm⟩
  simp [methodForm, elides, hbound, hother]

end Candidate

namespace Project

variable {p : Project} {c : Candidate} {record : Declaration}

/-- The header of the components stands in the record. -/
theorem header_mem_of_rebuildRecord (h : p.rebuildRecord c = .ok record) :
    ∃ d, p.declaration? c.declaration = some d ∧
      .header (c.componentsOf d) ∈ record.children := by
  obtain ⟨d, before, anchor, after, hd, -, -, -, rfl⟩ := rebuildRecord_eq_ok_around_anchor h
  exact ⟨d, hd, List.mem_append_right _ (.tail _ (.head _))⟩

/-- The rebuild takes the pairs of a candidate as they are. The field that stands behind an elided
    accessor is there, and it is a component exactly if the candidate keeps it as one: it has no
    accessor of its own, or returns itself. -/
theorem backingField_component_iff (h : p.rebuildRecord c = .ok record) :
    ∃ d, p.declaration? c.declaration = some d ∧ .header (c.componentsOf d) ∈ record.children ∧
      ∀ binding ∈ c.bindings.map Prod.snd, c.constructor? ≠ some binding.accessor →
        (∀ m ∈ record.methods, m.id ≠ binding.accessor) ∧
        ∃ f ∈ d.fields, f.id = binding.backingField ∧
          (f.toComponent ∈ c.componentsOf d ↔ (f.id, none) ∈ c.fields.entries ∨
            ∃ own, (f.id, some own) ∈ c.fields.entries ∧ own.backingField = f.id) := by
  obtain ⟨d, hd, hmembers, hmethods⟩ := methods_of_rebuildRecord h
  obtain ⟨d', hd', hheader⟩ := header_mem_of_rebuildRecord h
  obtain rfl := Option.some.inj (hd.symm.trans hd')
  refine ⟨d, hd, hheader, fun binding hbinding hother => ⟨?_, ?_⟩⟩
  · intro form hform hid
    rw [hmethods] at hform
    obtain ⟨m, -, hm⟩ := List.mem_filterMap.mp hform
    have hmId : m.id = binding.accessor := (Candidate.id_of_methodForm hm).symm.trans hid
    rw [Candidate.methodForm_of_accessor hbinding hmId (hmId ▸ hother)] at hm
    cases hm
  · have hnames := (Candidate.memberError?_eq_none_iff.mp hmembers).1
    obtain ⟨f, hf, hback⟩ := Candidate.exists_backingField hnames hbinding
    refine ⟨f, hf, hback, ?_⟩
    rw [Candidate.toComponent_mem_componentsOf_iff hf, Candidate.isComponent_iff]

end Project

namespace Spans

/-- The accessor of one field makes way for its component. -/
theorem backingField_component_span :
    ∃ record, (project ordered).rebuildRecord (candidate (some ⟨4⟩)) = .ok record ∧
      (∀ m ∈ record.methods, m.id ≠ ⟨7⟩) ∧
      ∃ components, .header components ∈ record.children ∧
        ⟨⟨3⟩, "long", "end"⟩ ∈ components := by
  have hrecord : ∃ record,
      (project ordered).rebuildRecord (candidate (some ⟨4⟩)) = .ok record := ⟨_, rfl⟩
  obtain ⟨record, hrecord⟩ := hrecord
  obtain ⟨d, hd, hheader, hbindings⟩ := Project.backingField_component_iff hrecord
  cases hd
  obtain ⟨hgone, f, hf, hback, hiff⟩ := hbindings ⟨⟨7⟩, ⟨3⟩, false⟩ (.head _) (by decide)
  have hend : f = { id := ⟨3⟩, modifiers := ⟨.private, []⟩, type := "long", name := "end" } := by
    cases hf with
    | head => cases hback
    | tail _ hf => exact List.mem_singleton.mp hf
  subst hend
  exact ⟨record, hrecord, hgone, _, hheader, hiff.mpr (.inr ⟨_, .tail _ (.head _), rfl⟩)⟩

/-- A field whose accessor returns a field that is no key field. -/
def crossed : Candidate where
  declaration := ⟨1⟩
  fields := ⟨[(⟨2⟩, some ⟨⟨7⟩, ⟨3⟩, false⟩)], by decide⟩

/-- The accessor is elided, and no header has a component for the field that it returned. -/
theorem not_backingField_component_crossed :
    ∃ record, (project ordered).rebuildRecord crossed = .ok record ∧
      ⟨⟨7⟩, ⟨3⟩, false⟩ ∈ crossed.bindings.map Prod.snd ∧
      (∃ m ∈ (span ordered).methods, m.id = ⟨7⟩) ∧ (∀ m ∈ record.methods, m.id ≠ ⟨7⟩) ∧
      ∀ components, .header components ∈ record.children →
        ⟨3⟩ ∉ components.map Parameter.id := by
  have hrecord : ∃ record, (project ordered).rebuildRecord crossed = .ok record ∧
      (∀ m ∈ record.methods, m.id ≠ ⟨7⟩) ∧
      ∀ components ∈ record.children.filterMap Child.header?,
        ⟨3⟩ ∉ components.map Parameter.id := ⟨_, rfl, by decide, by decide⟩
  obtain ⟨record, hrecord, hgone, hheaders⟩ := hrecord
  refine ⟨record, hrecord, .head _, ⟨_, .tail _ (.head _), rfl⟩, hgone, ?_⟩
  intro components hheader
  exact hheaders components (List.mem_filterMap.mpr ⟨_, hheader, rfl⟩)

end Spans

end ClassToRecord
