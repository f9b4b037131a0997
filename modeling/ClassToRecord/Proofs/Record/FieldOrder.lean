import ClassToRecord.Proofs.Record.Accessors

namespace ClassToRecord

namespace Candidate

/-- A candidate whose key fields are listed in another way. -/
def withFields (c : Candidate) (fields : OrderedMap ElementId (Option AccessorBinding)) :
    Candidate :=
  { c with fields }

@[simp] theorem declaration_withFields (c : Candidate)
    (fields : OrderedMap ElementId (Option AccessorBinding)) :
    (c.withFields fields).declaration = c.declaration := rfl

variable {c : Candidate} {fields : OrderedMap ElementId (Option AccessorBinding)}
  (hperm : c.fields.entries.Perm fields.entries)
include hperm

theorem isKeyField_of_perm (field : ElementId) :
    (c.withFields fields).isKeyField field = c.isKeyField field :=
  (hperm.map Prod.fst).symm.contains_eq

theorem isComponent_of_perm (field : ElementId) :
    (c.withFields fields).isComponent field = c.isComponent field := by
  unfold isComponent
  rw [withFields, OrderedMap.get?_of_perm hperm]

theorem componentsOf_of_perm (d : Declaration) :
    (c.withFields fields).componentsOf d = c.componentsOf d := by
  simp only [componentsOf, isComponent_of_perm hperm]

/-- Which binding of a shared accessor is found first depends on the order, but whether there is
    one does not. -/
theorem isSome_bindingForAccessor?_of_perm (method : ElementId) :
    ((c.withFields fields).bindingForAccessor? method).isSome =
      (c.bindingForAccessor? method).isSome := by
  have hbindings : (c.bindings.map Prod.snd).Perm ((c.withFields fields).bindings.map Prod.snd) :=
    (hperm.filterMap _).map Prod.snd
  rw [bindingForAccessor?, bindingForAccessor?, List.isSome_find?, List.isSome_find?]
  exact hbindings.symm.any_eq

/-- Nor does it matter to what becomes of a child. -/
theorem recordChild_of_perm (components : List Parameter) (visibility : Visibility) :
    (c.withFields fields).recordChild components visibility =
      c.recordChild components visibility := by
  funext child
  unfold recordChild
  simp only [isKeyField_of_perm hperm, isSome_bindingForAccessor?_of_perm hperm]
  rfl

/-- The members that are named are the same, although another one of them may be found missing
    first. -/
theorem memberError?_of_perm (d : Declaration) :
    (c.withFields fields).memberError? d = none ↔ c.memberError? d = none := by
  have hnames : (c.withFields fields).NamesMembersOf d ↔ c.NamesMembersOf d :=
    ⟨fun h entry hentry => h entry (hperm.mem_iff.mp hentry),
      fun h entry hentry => h entry (hperm.mem_iff.mpr hentry)⟩
  rw [memberError?_eq_none_iff, memberError?_eq_none_iff, hnames]
  rfl

end Candidate

namespace Project

variable {p : Project} {c : Candidate}
  {fields : OrderedMap ElementId (Option AccessorBinding)}

/-- Once no member is missing, nothing in the pass over the class looks at the order of the key
    fields. -/
theorem rebuildRecord_of_perm (hperm : c.fields.entries.Perm fields.entries)
    (hmembers : ∀ d, p.declaration? c.declaration = some d → c.memberError? d = none) :
    p.rebuildRecord (c.withFields fields) = p.rebuildRecord c := by
  cases hd : p.declaration? c.declaration with
  | none => simp only [rebuildRecord, Candidate.declaration_withFields, hd]
  | some d =>
    have hown := hmembers d hd
    have hother := (Candidate.memberError?_of_perm hperm d).mpr hown
    simp only [rebuildRecord, Candidate.declaration_withFields, hd, hown, hother,
      Candidate.componentsOf_of_perm hperm, Candidate.recordChild_of_perm hperm]

/-- A class that lacks a member that the candidate names is not rebuilt, whatever is missing. -/
theorem rebuildRecord_eq_error_of_memberError? {d : Declaration} {error : ShapeError}
    (hd : p.declaration? c.declaration = some d) (hmissing : c.memberError? d = some error) :
    p.rebuildRecord c = .error error := by
  simp only [rebuildRecord, hd, hmissing]

/-- The order of the key fields makes no difference to the record, nor to whether there is one. Its
    header lists the components in the order in which the class declares them. Only the reason why
    there is no record can differ, and only where the class lacks members that the candidate
    names. -/
theorem rebuildRecord_perm (hperm : c.fields.entries.Perm fields.entries) :
    (∃ record d before after, p.rebuildRecord c = .ok record ∧
      p.rebuildRecord (c.withFields fields) = .ok record ∧
      p.declaration? c.declaration = some d ∧
      record.children = before ++
        .header ((d.fields.filter (c.isComponent ·.id)).map Field.toComponent) :: after) ∨
    ∃ error error', p.rebuildRecord c = .error error ∧
      p.rebuildRecord (c.withFields fields) = .error error' ∧
      (error ≠ error' → ∃ d, p.declaration? c.declaration = some d ∧
        c.memberError? d = some error ∧ (c.withFields fields).memberError? d = some error') := by
  by_cases hmembers : ∀ d, p.declaration? c.declaration = some d → c.memberError? d = none
  · rw [rebuildRecord_of_perm hperm hmembers]
    cases hrecord : p.rebuildRecord c with
    | error error => exact .inr ⟨error, error, rfl, rfl, fun hne => absurd rfl hne⟩
    | ok record =>
      obtain ⟨d, hd, hheader⟩ := header_mem_of_rebuildRecord hrecord
      obtain ⟨before, after, hchildren⟩ := List.append_of_mem hheader
      exact .inl ⟨record, d, before, after, rfl, rfl, hd, hchildren⟩
  · obtain ⟨d, hd, hmissing⟩ : ∃ d, p.declaration? c.declaration = some d ∧
        c.memberError? d ≠ none := by simpa using hmembers
    have hother := mt (Candidate.memberError?_of_perm hperm d).mp hmissing
    obtain ⟨error, herror⟩ := Option.ne_none_iff_exists'.mp hmissing
    obtain ⟨error', herror'⟩ := Option.ne_none_iff_exists'.mp hother
    exact .inr ⟨error, error', rebuildRecord_eq_error_of_memberError? hd herror,
      rebuildRecord_eq_error_of_memberError? hd herror', fun _ => ⟨d, hd, herror, herror'⟩⟩

end Project

namespace Spans

/-- Two key fields with one accessor, of which their bindings say different things. -/
def sharing : Candidate where
  declaration := ⟨1⟩
  fields := ⟨[(⟨2⟩, some ⟨⟨7⟩, ⟨3⟩, true⟩), (⟨3⟩, some ⟨⟨7⟩, ⟨3⟩, false⟩)], by decide⟩

/-- The same key fields in the other order. -/
def exchanged : OrderedMap ElementId (Option AccessorBinding) :=
  ⟨[(⟨3⟩, some ⟨⟨7⟩, ⟨3⟩, false⟩), (⟨2⟩, some ⟨⟨7⟩, ⟨3⟩, true⟩)], by decide⟩

/-- Another binding of the accessor comes first, and the record is the same. -/
theorem rebuildRecord_perm_sharing :
    sharing.fields.entries.Perm exchanged.entries ∧
    sharing.bindingForAccessor? ⟨7⟩ ≠ (sharing.withFields exchanged).bindingForAccessor? ⟨7⟩ ∧
    ∃ record, (project ordered).rebuildRecord sharing = .ok record ∧
      (project ordered).rebuildRecord (sharing.withFields exchanged) = .ok record ∧
      .header [⟨⟨3⟩, "long", "end"⟩] ∈ record.children := by
  have hperm : sharing.fields.entries.Perm exchanged.entries := .swap _ _ _
  refine ⟨hperm, by decide, ?_⟩
  obtain ⟨record, d, before, after, hown, hother, hd, hchildren⟩ | ⟨_, _, hfails, -⟩ :=
    @Project.rebuildRecord_perm (project ordered) sharing exchanged hperm
  · cases hd
    exact ⟨record, hown, hother, hchildren ▸ List.mem_append_right _ (.head _)⟩
  · cases hfails

end Spans

end ClassToRecord
