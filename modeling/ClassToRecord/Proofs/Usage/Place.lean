import ClassToRecord.Proofs.Rename.Place
import ClassToRecord.Proofs.Usage.Analysis
import ClassToRecord.Proofs.Usage.Coverage

open ClassToRecord.Traversal

namespace ClassToRecord

/-- An element occurs in a candidate. -/
def Candidate.Mentions (c : Candidate) (x : ElementId) : Prop :=
  x = c.declaration ∨ x ∈ c.fields.keys ∨
    (∃ entry ∈ c.bindings, x = entry.2.accessor ∨ x = entry.2.backingField) ∨
    c.constructor? = some x

instance (c : Candidate) (x : ElementId) : Decidable (c.Mentions x) :=
  inferInstanceAs (Decidable (_ ∨ _ ∨ (∃ entry ∈ c.bindings, _) ∨ _))

/-- A conversion starts a rename at the element. -/
def Project.CallsForRename (p : Project) (c : Candidate) (target : ElementId) : Prop :=
  ∃ entry ∈ c.fields.entries, ∃ newName,
    p.classify entry.1 entry.2 = .ok (.needsRename target newName)

/-- A declaration has nothing to do with a conversion. What it declares occurs neither in the
    project nor in the candidate, and its references have ids of their own. None of them means a
    key field, or a method that overrides the start of a rename, and it overrides no such method
    itself. -/
structure Declaration.Unrelated (d : Declaration) (p : Project) (c : Candidate) : Prop where
  elements : ∀ x ∈ d.declaredIds, ¬ p.Mentions x ∧ ¬ c.Mentions x
  references : ∀ r ∈ d.references, ∀ s ∈ p.references, r.id ≠ s.id
  keyFields : ∀ x ∈ c.fields.keys, ¬ d.RefersTo x
  hierarchies : ∀ target, p.CallsForRename c target → ∀ x ∈ p.hierarchy target,
    ¬ d.RefersTo x ∧ ¬ d.ListsSuper x

namespace Candidate

variable {c : Candidate}

theorem mentions_of_mem_keys {x : ElementId} (h : x ∈ c.fields.keys) : c.Mentions x := .inr (.inl h)

theorem mentions_of_binding {field : ElementId} {binding : AccessorBinding}
    (h : (field, some binding) ∈ c.fields.entries) :
    c.Mentions binding.accessor ∧ c.Mentions binding.backingField := by
  have hmem : (field, binding) ∈ c.bindings := List.mem_filterMap.mpr ⟨_, h, rfl⟩
  exact ⟨.inr (.inr (.inl ⟨_, hmem, .inl rfl⟩)), .inr (.inr (.inl ⟨_, hmem, .inr rfl⟩))⟩

/-- The element that decides how visible a component is so far occurs in the candidate. -/
theorem mentions_governingMember {entry : ElementId × Option AccessorBinding}
    (h : entry ∈ c.fields.entries) : c.Mentions (Project.governingMember entry).1 := by
  obtain ⟨field, _ | binding⟩ := entry
  · exact mentions_of_mem_keys (List.mem_map.mpr ⟨_, h, rfl⟩)
  · exact (mentions_of_binding h).1

end Candidate

namespace Declaration.Unrelated

variable {p : Project} {d : Declaration} {c : Candidate}

theorem foreignTo (h : d.Unrelated p c) : d.ForeignTo p :=
  fun x hx hdeclares => (h.elements x hdeclares).1 hx

theorem not_mem_of_mentions (h : d.Unrelated p c) {x : ElementId} (hx : c.Mentions x) :
    x ∉ d.declaredIds :=
  fun hdeclares => (h.elements x hdeclares).2 hx

theorem target_not_mem (h : d.Unrelated p c) {target : ElementId}
    (htarget : p.CallsForRename c target) : target ∉ d.declaredIds := by
  obtain ⟨⟨field, binding?⟩, hentry, newName, hkind⟩ := htarget
  obtain ⟨binding, rfl, accessor, -, -, rfl⟩ := Project.classify_eq_needsRename hkind
  exact Project.renameTarget_not_mem_declaredIds h.foreignTo
    (h.not_mem_of_mentions (Candidate.mentions_of_binding hentry).1)

end Declaration.Unrelated

namespace Project

variable {p : Project} {d : Declaration} {c : Candidate} (i : Nat)

theorem classify_place (h : d.Unrelated p c) {entry : ElementId × Option AccessorBinding}
    (hentry : entry ∈ c.fields.entries) :
    (p.place i d).classify entry.1 entry.2 = p.classify entry.1 entry.2 := by
  obtain ⟨field, _ | binding⟩ := entry
  · rfl
  · obtain ⟨haccessor, hbacking⟩ := Candidate.mentions_of_binding hentry
    have haccessor := h.not_mem_of_mentions haccessor
    have hbacking := h.not_mem_of_mentions hbacking
    simp only [classify, method?_place i h.foreignTo haccessor, field?_place i h.foreignTo hbacking,
      renameTarget_place i h.foreignTo haccessor]

theorem collectRename_place (h : d.Unrelated p c) {target : ElementId}
    (htarget : p.CallsForRename c target) (newName : String) (acc : CollectedUsages) :
    (p.place i d).collectRename target newName acc = p.collectRename target newName acc := by
  have hapart := h.target_not_mem htarget
  have hlists := fun x hx => (h.hierarchies target htarget x hx).2
  have hrefers := fun x hx => (h.hierarchies target htarget x hx).1
  simp only [collectRename, prepareRenaming_place i h.foreignTo hapart hlists,
    findUsages_place i h.foreignTo hapart hlists hrefers]

theorem knownVisibility_place (h : d.Unrelated p c) {x : ElementId} (hx : c.Mentions x) :
    (p.place i d).knownVisibility x = p.knownVisibility x := by
  rw [knownVisibility, knownVisibility, visibility?_place i h.foreignTo (h.not_mem_of_mentions hx)]

theorem collectField_place (h : d.Unrelated p c) (acc : CollectedUsages)
    {entry : ElementId × Option AccessorBinding} (hentry : entry ∈ c.fields.entries) :
    (p.place i d).collectField acc entry = p.collectField acc entry := by
  have hkey := Candidate.mentions_of_mem_keys (List.mem_map.mpr ⟨entry, hentry, rfl⟩)
  rw [collectField, collectField, knownVisibility_place i h hkey, classify_place i h hentry]
  apply bind_congr_of_ok
  intro visibility _
  apply bind_congr_of_ok
  intro kind hkind
  cases kind with
  | needsRename target newName =>
    simp only [collectRename_place i h ⟨entry, hentry, newName, hkind⟩]
  | noAccessor => simp only
  | recordStyle => simp only

theorem riskOf_place (h : d.Unrelated p c) {member : ElementId} (hmember : c.Mentions member)
    (v : Visibility) (change : Visibility → String) :
    (p.place i d).riskOf v member change = p.riskOf v member change := by
  simp only [riskOf, knownVisibility_place i h hmember,
    describe_place i h.foreignTo (h.not_mem_of_mentions hmember)]

theorem encapsulationRisks_place (h : d.Unrelated p c) :
    (p.place i d).encapsulationRisks c = p.encapsulationRisks c := by
  have hclass := visibility?_place i h.foreignTo (h.not_mem_of_mentions (.inl rfl))
  have hfields : ∀ v, c.fields.entries.mapM ((p.place i d).fieldRisk v) =
      c.fields.entries.mapM (p.fieldRisk v) := by
    intro v
    apply mapM_congr
    intro entry hentry
    simp only [fieldRisk, riskOf_place i h (Candidate.mentions_governingMember hentry)]
  have hconstructor : ∀ v, (p.place i d).constructorRisk v c = p.constructorRisk v c := by
    intro v
    rw [constructorRisk, constructorRisk]
    split
    · rfl
    · next constructor hsome => exact riskOf_place i h (.inr (.inr (.inr hsome))) v _
  simp only [encapsulationRisks, hclass, hfields, hconstructor]

/-- What is collected for a candidate does not depend on an unrelated declaration. -/
theorem collect_place (h : d.Unrelated p c) (searchWeakened : Bool) :
    (p.place i d).collect c searchWeakened = p.collect c searchWeakened := by
  have hfold : c.fields.entries.foldlM (p.place i d).collectField {} =
      c.fields.entries.foldlM p.collectField {} :=
    foldlM_congr (fun acc _ hentry => collectField_place i h acc hentry) {}
  simp only [collect, hfold, encapsulationRisks_place i h]

end Project

end ClassToRecord
