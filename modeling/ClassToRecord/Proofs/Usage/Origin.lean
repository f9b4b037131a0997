import ClassToRecord.Proofs.Usage.Sites

open ClassToRecord.Traversal

namespace ClassToRecord

namespace Project

/-- A rename is called for where an accessor has another name than the field behind it. -/
theorem classify_eq_needsRename {p : Project} {field target : ElementId} {newName : String}
    {binding? : Option AccessorBinding}
    (h : p.classify field binding? = .ok (.needsRename target newName)) :
    ∃ binding, binding? = some binding ∧
      ∃ accessor, p.method? binding.accessor = some accessor ∧ accessor.name ≠ newName ∧
        target = p.renameTarget binding.accessor := by
  unfold classify at h
  cases binding? with
  | none => cases h
  | some binding =>
    simp only at h
    split at h
    · cases h
    · rw [bind_eq_ok_iff] at h
      obtain ⟨accessor, haccessor, h⟩ := h
      rw [bind_eq_ok_iff] at h
      obtain ⟨backing, hbacking, h⟩ := h
      split at h
      · cases h
      · next hname =>
        cases h
        exact ⟨binding, rfl, accessor, orRefuse_eq_ok_iff.mp haccessor, hname, rfl⟩

/-- A key field brings its direct references, unless it is private, and then perhaps a rename. -/
theorem collectField_eq_ok {p : Project} {acc acc' : CollectedUsages}
    {entry : ElementId × Option AccessorBinding} (h : p.collectField acc entry = .ok acc') :
    ∃ direct : List Usage,
      direct = (if p.visibility? entry.1 = some .private then []
        else [.directFieldReference entry.1]) ∧
      ((∀ target newName, p.classify entry.1 entry.2 ≠ .ok (.needsRename target newName)) ∧
          acc' = { acc with usages := acc.usages ++ direct } ∨
        ∃ target newName, p.classify entry.1 entry.2 = .ok (.needsRename target newName) ∧
          p.collectRename target newName { acc with usages := acc.usages ++ direct } =
            .ok acc') := by
  unfold collectField at h
  rw [bind_eq_ok_iff] at h
  obtain ⟨visibility, hvisibility, h⟩ := h
  rw [bind_eq_ok_iff] at h
  obtain ⟨kind, hkind, h⟩ := h
  refine ⟨_, rfl, ?_⟩
  rw [orRefuse_eq_ok_iff.mp hvisibility]
  simp only [Option.some.injEq]
  cases kind with
  | needsRename target newName => exact .inr ⟨target, newName, hkind, h⟩
  | noAccessor =>
    cases h
    refine .inl ⟨fun target newName hrename => ?_, rfl⟩
    cases hkind.symm.trans hrename
  | recordStyle =>
    cases h
    refine .inl ⟨fun target newName hrename => ?_, rfl⟩
    cases hkind.symm.trans hrename

/-- Neither direct references nor risks ask for a rename. -/
theorem structural_directUsages {p : Project} {field : ElementId} :
    ∀ usage ∈ (if p.visibility? field = some .private then []
      else [Usage.directFieldReference field]), usage.isStructural = true := by
  split <;> simp [Usage.isStructural]

theorem structural_of_kind {usages : List Usage}
    (h : ∀ usage ∈ usages, usage.kind = .encapsulationRisk) :
    ∀ usage ∈ usages, usage.isStructural = true := by
  intro usage husage
  cases usage with
  | accessorRename => exact nomatch h _ husage
  | _ => rfl

private theorem riskOf_kind {p : Project} {v : Visibility} {member : ElementId}
    {change : Visibility → String} {risks : List Usage}
    (h : p.riskOf v member change = .ok risks) :
    ∀ usage ∈ risks, usage.kind = .encapsulationRisk := by
  unfold riskOf at h
  rw [bind_eq_ok_iff] at h
  obtain ⟨visibility, _, h⟩ := h
  split at h <;> cases h <;> simp [Usage.kind]

theorem encapsulationRisks_kind {p : Project} {c : Candidate} {risks : List Usage}
    (h : p.encapsulationRisks c = .ok risks) :
    ∀ usage ∈ risks, usage.kind = .encapsulationRisk := by
  unfold encapsulationRisks at h
  rw [bind_eq_ok_iff] at h
  obtain ⟨v, _, h⟩ := h
  rw [bind_eq_ok_iff] at h
  obtain ⟨found, hfound, h⟩ := h
  rw [bind_eq_ok_iff] at h
  obtain ⟨last, hlast, h⟩ := h
  cases h
  intro usage husage
  rcases List.mem_append.mp husage with hfield | hconstructor
  · obtain ⟨risks, hrisks, husage⟩ := List.mem_flatten.mp hfield
    obtain ⟨entry, _, hentry⟩ := exists_mem_left_of_forall₂ (forall₂_of_mapM_eq_ok hfound) hrisks
    unfold fieldRisk at hentry
    exact riskOf_kind hentry usage husage
  · unfold constructorRisk at hlast
    split at hlast
    · cases hlast
      cases hconstructor
    · exact riskOf_kind hlast usage hconstructor

/-- What is collected for a candidate is what its key fields bring, one after the other, and then
    the risks. -/
theorem collect_eq_ok {p : Project} {c : Candidate} {searchWeakened : Bool}
    {collected : CollectedUsages} (h : p.collect c searchWeakened = .ok collected) :
    ∃ acc risks, c.fields.entries.foldlM p.collectField {} = .ok acc ∧
      (∀ usage ∈ risks, usage.kind = .encapsulationRisk) ∧
      collected = { acc with usages := acc.usages ++ risks } := by
  unfold collect at h
  rw [bind_eq_ok_iff] at h
  obtain ⟨acc, hfold, h⟩ := h
  split at h
  · rw [bind_eq_ok_iff] at h
    obtain ⟨risks, hrisks, h⟩ := h
    cases h
    exact ⟨acc, risks, hfold, encapsulationRisks_kind hrisks, rfl⟩
  · cases h
    exact ⟨collected, [], hfold, nofun, by rw [List.append_nil]⟩

/-- The fields whose direct references are affected are the key fields that are not private. -/
theorem directFieldReference_mem_iff {p : Project} {c : Candidate} {searchWeakened : Bool}
    {collected : CollectedUsages} (h : p.collect c searchWeakened = .ok collected)
    {field : ElementId} :
    .directFieldReference field ∈ collected.usages ↔
      field ∈ c.fields.keys ∧ p.visibility? field ≠ some .private := by
  obtain ⟨acc, risks, hfold, hrisks, rfl⟩ := collect_eq_ok h
  have hnotRisk : Usage.directFieldReference field ∉ risks := fun hmem => nomatch hrisks _ hmem
  have hstep : ∀ acc entry acc', p.collectField acc entry = .ok acc' →
      (.directFieldReference field ∈ acc'.usages ↔ .directFieldReference field ∈ acc.usages ∨
        entry.1 = field ∧ p.visibility? field ≠ some .private) := by
    intro acc entry acc' hentry
    obtain ⟨direct, hdirect, hbrings⟩ := collectField_eq_ok hentry
    have hmem : .directFieldReference field ∈ direct ↔
        entry.1 = field ∧ p.visibility? field ≠ some .private := by
      rw [hdirect]
      by_cases hfield : entry.1 = field
      · subst hfield
        by_cases hprivate : p.visibility? entry.1 = some .private <;> simp [hprivate]
      · split <;> simp [hfield, Ne.symm hfield]
    rw [← hmem]
    rcases hbrings with ⟨-, rfl⟩ | ⟨target, newName, -, hrename⟩
    · exact List.mem_append
    · rw [(collectRename_eq_ok hrename).2]
      simp
  rw [List.mem_append, or_iff_left hnotRisk, foldlM_iff hstep hfold]
  simp [OrderedMap.keys]

/-- The marked renames are those that a key field calls for. -/
theorem marker_mem_iff {p : Project} {c : Candidate} {searchWeakened : Bool}
    {collected : CollectedUsages} (h : p.collect c searchWeakened = .ok collected)
    {target : ElementId} {newName : String} :
    .accessorRename target newName none ∈ collected.usages ↔
      ∃ entry ∈ c.fields.entries,
        p.classify entry.1 entry.2 = .ok (.needsRename target newName) := by
  obtain ⟨acc, risks, hfold, hrisks, rfl⟩ := collect_eq_ok h
  have hnotRisk : Usage.accessorRename target newName none ∉ risks :=
    fun hmem => nomatch hrisks _ hmem
  have hstep : ∀ acc entry acc', p.collectField acc entry = .ok acc' →
      (.accessorRename target newName none ∈ acc'.usages ↔
        .accessorRename target newName none ∈ acc.usages ∨
          p.classify entry.1 entry.2 = .ok (.needsRename target newName)) := by
    intro acc entry acc' hentry
    obtain ⟨direct, hdirect, hbrings⟩ := collectField_eq_ok hentry
    have hnotDirect : Usage.accessorRename target newName none ∉ direct := by
      rw [hdirect]
      exact fun hmem => absurd (structural_directUsages _ hmem) Bool.false_ne_true
    rcases hbrings with ⟨hnone, rfl⟩ | ⟨started, name, hkind, hrename⟩
    · rw [List.mem_append, or_iff_left hnotDirect, or_iff_left (hnone target newName)]
    · rw [marker_mem_iff_of_collectRename hrename, List.mem_append, or_iff_left hnotDirect, hkind]
      simp
  rw [List.mem_append, or_iff_left hnotRisk, foldlM_iff hstep hfold]
  simp

/-- Every new name goes back to the marker of a rename. -/
theorem exists_marker_of_get? {p : Project} {c : Candidate} {searchWeakened : Bool}
    {collected : CollectedUsages} (h : p.collect c searchWeakened = .ok collected)
    {x : ElementId} {newName : String} (hx : collected.plan.get? x = some newName) :
    ∃ target, .accessorRename target newName none ∈ collected.usages ∧
      x ∈ p.renamedTogether target := by
  obtain ⟨acc, risks, hfold, -, rfl⟩ := collect_eq_ok h
  have hstart : ({} : CollectedUsages).plan.get? x ≠ some newName := nofun
  have hacc : acc.plan.get? x = some newName →
      ∃ target, .accessorRename target newName none ∈ acc.usages ∧
        x ∈ p.renamedTogether target := by
    refine foldlM_invariant (fun acc => acc.plan.get? x = some newName → ∃ target,
      .accessorRename target newName none ∈ acc.usages ∧ x ∈ p.renamedTogether target)
      ?_ (fun hname => absurd hname hstart) hfold
    intro entry _ acc acc' hbefore hstep hname
    obtain ⟨direct, -, hbrings⟩ := collectField_eq_ok hstep
    rcases hbrings with ⟨-, rfl⟩ | ⟨target, name, -, hrename⟩
    · obtain ⟨target, hmarker, hin⟩ := hbefore hname
      exact ⟨target, List.mem_append_left _ hmarker, hin⟩
    · rcases get?_of_collectRename_eq_some hrename hname with hold | ⟨rfl, hin⟩
      · obtain ⟨marked, hmarker, hin⟩ := hbefore hold
        exact ⟨marked, (marker_mem_iff_of_collectRename hrename).mpr
          (.inl (List.mem_append_left _ hmarker)), hin⟩
      · exact ⟨target, (marker_mem_iff_of_collectRename hrename).mpr (.inr ⟨rfl, rfl⟩), hin⟩
  obtain ⟨target, hmarker, hin⟩ := hacc hx
  exact ⟨target, List.mem_append_left _ hmarker, hin⟩

end Project

/-- Every new name goes back to the marker of a rename, and every marker to an accessor that has
    another name. -/
structure CollectedUsages.Stems (acc : CollectedUsages) (p : Project) : Prop where
  named : ∀ x newName, acc.plan.get? x = some newName →
    ∃ target, .accessorRename target newName none ∈ acc.usages ∧ x ∈ p.renamedTogether target
  marked : ∀ target newName, .accessorRename target newName none ∈ acc.usages →
    ∃ accessor ∈ p.methods, accessor.name ≠ newName ∧ target = p.renameTarget accessor.id

/-- New names come from accessors that have other names than the fields behind them. -/
theorem Project.collect_stems {p : Project} {c : Candidate} {searchWeakened : Bool}
    {collected : CollectedUsages} (h : p.collect c searchWeakened = .ok collected) :
    collected.Stems p := by
  refine ⟨fun x newName => exists_marker_of_get? h, fun target newName hmarker => ?_⟩
  obtain ⟨entry, -, hkind⟩ := (marker_mem_iff h).mp hmarker
  obtain ⟨binding, -, accessor, haccessor, hname, rfl⟩ := classify_eq_needsRename hkind
  obtain ⟨hmethod, hid⟩ := of_method?_eq_some haccessor
  exact ⟨accessor, hmethod, hname, by rw [hid]⟩

end ClassToRecord
