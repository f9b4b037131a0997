import ClassToRecord.Proofs.Conversion.Namesakes
import ClassToRecord.Proofs.Rename.Lookup
import ClassToRecord.Proofs.Usage.Run

open ClassToRecord.Traversal

namespace ClassToRecord

/-- How a key field is classified that calls for no rename. -/
def AccessorClass.settled : Option AccessorBinding → AccessorClass
  | none => .noAccessor
  | some _ => .recordStyle

namespace Candidate

variable {c : Candidate}

theorem mem_bindings_iff {field : ElementId} {binding : AccessorBinding} :
    (field, binding) ∈ c.bindings ↔ (field, some binding) ∈ c.fields.entries := by
  simp only [bindings, List.mem_filterMap, Option.map_eq_some_iff, Prod.mk.injEq]
  constructor
  · rintro ⟨⟨key, binding?⟩, hentry, b, rfl, rfl, rfl⟩
    exact hentry
  · intro hentry
    exact ⟨_, hentry, binding, rfl, rfl, rfl⟩

/-- A key field has one binding. -/
theorem binding_inj {entry other : ElementId × AccessorBinding} (hentry : entry ∈ c.bindings)
    (hother : other ∈ c.bindings) (h : entry.1 = other.1) : entry = other := by
  obtain ⟨field, binding⟩ := entry
  obtain ⟨_, other⟩ := other
  obtain rfl : field = _ := h
  rw [mem_bindings_iff, ← OrderedMap.get?_eq_some_iff] at hentry hother
  rw [Option.some.inj (Option.some.inj (hentry.symm.trans hother))]

end Candidate

namespace Project

variable {p : Project} {c : Candidate}

/-- The accessors of a candidate can be renamed apart from each other. The rename of each of them,
    except for those of record style, starts at a declared method, and no method overrides the
    starts of two key fields. -/
structure AccessorsApart (p : Project) (c : Candidate) : Prop where
  declared : ∀ entry ∈ c.bindings, entry.2.recordStyle = false →
    (p.method? (p.renameTarget entry.2.accessor)).isSome = true
  disjoint : ∀ entry ∈ c.bindings, ∀ other ∈ c.bindings, entry.2.recordStyle = false →
    other.2.recordStyle = false → entry.1 ≠ other.1 →
      (p.hierarchy (p.renameTarget entry.2.accessor)).Disjoint
        (p.hierarchy (p.renameTarget other.2.accessor))

section Classify

variable {field : ElementId} {binding : AccessorBinding} {kind : AccessorClass}

theorem classify_of_recordStyle (h : binding.recordStyle = true) :
    p.classify field (some binding) = .ok .recordStyle := by
  simp [classify, h]

/-- What matters for any other binding are the names of the accessor and of the field behind it. -/
theorem classify_eq_ok_iff (h : binding.recordStyle = false) :
    p.classify field (some binding) = .ok kind ↔
      ∃ accessor backing, p.method? binding.accessor = some accessor ∧
        p.field? binding.backingField = some backing ∧
        kind = if accessor.name = backing.name then .recordStyle
          else .needsRename (p.renameTarget binding.accessor) backing.name := by
  simp only [classify, h, Bool.false_eq_true, if_false, bind_eq_ok_iff, orRefuse_eq_ok_iff]
  constructor
  · rintro ⟨accessor, haccessor, backing, hbacking, hkind⟩
    refine ⟨accessor, backing, haccessor, hbacking, ?_⟩
    split at hkind <;> cases hkind <;> simp [*]
  · rintro ⟨accessor, backing, haccessor, hbacking, rfl⟩
    refine ⟨accessor, haccessor, backing, hbacking, ?_⟩
    split <;> rfl

end Classify

section Collect

/-- The visibility of each key field is known, and each can be classified. -/
theorem exists_classify_of_collect {searchWeakened : Bool} {collected : CollectedUsages}
    (hcollect : p.collect c searchWeakened = .ok collected)
    {entry : ElementId × Option AccessorBinding} (hentry : entry ∈ c.fields.entries) :
    (p.visibility? entry.1).isSome = true ∧ ∃ kind, p.classify entry.1 entry.2 = .ok kind := by
  obtain ⟨hfields, -⟩ := exists_collect_iff.mp ⟨collected, hcollect⟩
  obtain ⟨hvisible, kind, hkind, -⟩ := hfields entry hentry
  exact ⟨hvisible, kind, hkind⟩

/-- A risk can be told if it is known how visible the member is. -/
theorem exists_riskOf_iff {v : Visibility} {member : ElementId} {change : Visibility → String} :
    (∃ risks, p.riskOf v member change = .ok risks) ↔ (p.visibility? member).isSome = true := by
  rw [Option.isSome_iff_exists]
  constructor
  · rintro ⟨risks, h⟩
    obtain ⟨visibility, hvisibility, -⟩ := bind_eq_ok_iff.mp h
    exact ⟨visibility, orRefuse_eq_ok_iff.mp hvisibility⟩
  · rintro ⟨visibility, hvisibility⟩
    rw [riskOf, knownVisibility, orRefuse_eq_ok_iff.mpr hvisibility]
    by_cases hweaker : visibility.isWeakerThan v = true
    · exact ⟨_, if_pos hweaker⟩
    · exact ⟨_, if_neg hweaker⟩

/-- The risks of a conversion can be told if it is known how visible its members are. -/
theorem exists_encapsulationRisks_iff : (∃ risks, p.encapsulationRisks c = .ok risks) ↔
    (p.visibility? c.declaration).isSome = true ∧
      (∀ entry ∈ c.fields.entries, (p.visibility? (governingMember entry).1).isSome = true) ∧
      ∀ constructor, c.constructor? = some constructor →
        (p.visibility? constructor).isSome = true := by
  have hfields : ∀ v, (∃ risks, c.fields.entries.mapM (p.fieldRisk v) = .ok risks) ↔
      ∀ entry ∈ c.fields.entries, (p.visibility? (governingMember entry).1).isSome = true := by
    refine fun v => exists_mapM_eq_ok_iff.trans (forall₂_congr fun entry _ => ?_)
    unfold fieldRisk
    exact exists_riskOf_iff
  have hlast : ∀ v, (∃ risks, p.constructorRisk v c = .ok risks) ↔
      ∀ constructor, c.constructor? = some constructor →
        (p.visibility? constructor).isSome = true := by
    intro v
    cases hconstructor : c.constructor? with
    | none => simp [constructorRisk, hconstructor]
    | some constructor => simp [constructorRisk, hconstructor, exists_riskOf_iff]
  rw [Option.isSome_iff_exists]
  constructor
  · rintro ⟨risks, h⟩
    obtain ⟨v, hv, h⟩ := bind_eq_ok_iff.mp h
    obtain ⟨found, hfound, h⟩ := bind_eq_ok_iff.mp h
    obtain ⟨last, hlastRisk, -⟩ := bind_eq_ok_iff.mp h
    exact ⟨⟨v, orRefuse_eq_ok_iff.mp hv⟩, (hfields v).mp ⟨found, hfound⟩,
      (hlast v).mp ⟨last, hlastRisk⟩⟩
  · rintro ⟨⟨v, hv⟩, hmembers, hconstructor⟩
    obtain ⟨found, hfound⟩ := (hfields v).mpr hmembers
    obtain ⟨last, hlastRisk⟩ := (hlast v).mpr hconstructor
    exact ⟨_, bind_eq_ok_iff.mpr ⟨v, orRefuse_eq_ok_iff.mpr hv,
      bind_eq_ok_iff.mpr ⟨found, hfound, bind_eq_ok_iff.mpr ⟨last, hlastRisk, rfl⟩⟩⟩⟩

/-- Where nothing is left to rename, everything can be collected that could be collected from a
    project with the same visibilities. -/
theorem exists_collect_of_settled {q : Project} {searchWeakened : Bool}
    {collected : CollectedUsages} (hcollect : p.collect c searchWeakened = .ok collected)
    (hvisible : ∀ x, q.visibility? x = p.visibility? x)
    (hsettled : ∀ entry ∈ c.fields.entries,
      q.classify entry.1 entry.2 = .ok (.settled entry.2)) :
    ∃ again, q.collect c searchWeakened = .ok again := by
  obtain ⟨-, hrisks⟩ := exists_collect_iff.mp ⟨collected, hcollect⟩
  refine exists_collect_iff.mpr ⟨fun entry hentry => ?_, fun hsearch => ?_⟩
  · obtain ⟨hvisibility, -⟩ := exists_classify_of_collect hcollect hentry
    rw [← hvisible] at hvisibility
    refine ⟨hvisibility, _, hsettled entry hentry, fun target newName hkind => ?_⟩
    cases hbinding : entry.2 <;> rw [hbinding] at hkind <;> cases hkind
  · rw [exists_encapsulationRisks_iff]
    simpa only [hvisible] using exists_encapsulationRisks_iff.mp (hrisks hsearch)

/-- There no element gets a new name, and no usage asks for one. -/
theorem plan_isEmpty_of_settled {searchWeakened : Bool} {collected : CollectedUsages}
    (hcollect : p.collect c searchWeakened = .ok collected)
    (hsettled : ∀ entry ∈ c.fields.entries,
      p.classify entry.1 entry.2 = .ok (.settled entry.2)) :
    collected.plan.keys = [] ∧ ∀ usage ∈ collected.usages, usage.kind ≠ .accessorRename := by
  have hmarker : ∀ target newName, .accessorRename target newName none ∉ collected.usages := by
    intro target newName hmem
    obtain ⟨⟨field, binding?⟩, hentry, hkind⟩ := (marker_mem_iff hcollect).mp hmem
    rw [hsettled _ hentry] at hkind
    cases binding? <;> cases hkind
  have hkeys : collected.plan.keys = [] := by
    refine List.eq_nil_iff_forall_not_mem.mpr fun x hx => ?_
    obtain ⟨newName, hname⟩ := Option.isSome_iff_exists.mp (OrderedMap.isSome_get?_iff.mpr hx)
    obtain ⟨target, hmem, -⟩ := exists_marker_of_get? hcollect hname
    exact hmarker target newName hmem
  refine ⟨hkeys, fun usage husage hkind => ?_⟩
  cases usage with
  | accessorRename element newName site? =>
    cases site? with
    | none => exact hmarker element newName husage
    | some site =>
      have hsite : site ∈ sitesOf collected.usages := List.mem_filterMap.mpr ⟨_, husage, rfl⟩
      have hkey := (collect_covers hcollect).element_mem_keys hsite
      rw [hkeys] at hkey
      cases hkey
  | _ => cases hkind

end Collect

section Renamed

variable {searchWeakened : Bool} {collected : CollectedUsages}

/-- The marker of a rename goes back to a key field with an accessor of another name. -/
theorem exists_binding_of_marker (hcollect : p.collect c searchWeakened = .ok collected)
    {target : ElementId} {newName : String}
    (hmarker : .accessorRename target newName none ∈ collected.usages) :
    ∃ entry ∈ c.bindings, entry.2.recordStyle = false ∧
      p.classify entry.1 (some entry.2) = .ok (.needsRename target newName) ∧
      target = p.renameTarget entry.2.accessor := by
  obtain ⟨⟨field, binding?⟩, hentry, hkind⟩ := (marker_mem_iff hcollect).mp hmarker
  obtain ⟨binding, rfl, _, -, -, rfl⟩ := classify_eq_needsRename hkind
  refine ⟨(field, binding), Candidate.mem_bindings_iff.mpr hentry, ?_, hkind, rfl⟩
  by_contra hflag
  rw [classify_of_recordStyle (Bool.not_eq_false _ ▸ hflag)] at hkind
  cases hkind

/-- Where accessors can be renamed apart, whatever gets a new name is a declared method. -/
theorem exists_method_of_planned (hapart : p.AccessorsApart c)
    (hcollect : p.collect c searchWeakened = .ok collected) {x : ElementId}
    (hx : (collected.plan.get? x).isSome = true) : ∃ m ∈ p.methods, m.id = x := by
  obtain ⟨newName, hname⟩ := Option.isSome_iff_exists.mp hx
  obtain ⟨target, hmarker, hbelow⟩ := exists_marker_of_get? hcollect hname
  obtain ⟨entry, hentry, hflag, -, rfl⟩ := exists_binding_of_marker hcollect hmarker
  obtain ⟨m, hm⟩ := Option.isSome_iff_exists.mp (hapart.declared entry hentry hflag)
  obtain ⟨hm, hid⟩ := of_method?_eq_some hm
  exact exists_method_of_overrides hm (hid ▸ overrides_of_mem_renamedTogether hbelow)

variable {entry : ElementId × AccessorBinding} {newName : String}

/-- The new name of an accessor is one that its own key field calls for. -/
theorem classify_of_get?_accessor (hapart : p.AccessorsApart c)
    (hcollect : p.collect c searchWeakened = .ok collected) (hentry : entry ∈ c.bindings)
    (hflag : entry.2.recordStyle = false)
    (hname : collected.plan.get? entry.2.accessor = some newName) :
    p.classify entry.1 (some entry.2) =
      .ok (.needsRename (p.renameTarget entry.2.accessor) newName) := by
  obtain ⟨target, hmarker, hbelow⟩ := exists_marker_of_get? hcollect hname
  obtain ⟨other, hother, hotherFlag, hkind, rfl⟩ := exists_binding_of_marker hcollect hmarker
  have hsame : entry.1 = other.1 := by
    by_contra hne
    exact hapart.disjoint entry hentry other hother hflag hotherFlag hne
      (mem_hierarchy_iff.mpr (p.overrides_renameTarget entry.2.accessor))
      (mem_hierarchy_iff.mpr (overrides_of_mem_renamedTogether hbelow))
  obtain rfl := Candidate.binding_inj hentry hother hsame
  exact hkind

/-- And it gets that name: the accessor is among those that override the start of its rename, on
    whatever cycles the climb to that start has passed. -/
theorem get?_accessor_of_classify (hapart : p.AccessorsApart c)
    (hcollect : p.collect c searchWeakened = .ok collected) (hentry : entry ∈ c.bindings)
    (hflag : entry.2.recordStyle = false)
    (hkind : p.classify entry.1 (some entry.2) =
      .ok (.needsRename (p.renameTarget entry.2.accessor) newName)) :
    collected.plan.get? entry.2.accessor = some newName := by
  have hmarker : .accessorRename (p.renameTarget entry.2.accessor) newName none ∈
      collected.usages :=
    (marker_mem_iff hcollect).mpr ⟨_, Candidate.mem_bindings_iff.mp hentry, hkind⟩
  have hbelow : entry.2.accessor ∈ p.renamedTogether (p.renameTarget entry.2.accessor) := by
    rw [renamedTogether, if_pos (hapart.declared entry hentry hflag)]
    exact mem_hierarchy_iff.mpr (p.overrides_renameTarget entry.2.accessor)
  have hkey := (collect_covers hcollect).together _ _ hmarker _ hbelow
  obtain ⟨name, hname⟩ := Option.isSome_iff_exists.mp (OrderedMap.isSome_get?_iff.mpr hkey)
  have hsame := (classify_of_get?_accessor hapart hcollect hentry hflag hname).symm.trans hkind
  simp only [Except.ok.injEq, AccessorClass.needsRename.injEq, true_and] at hsame
  rw [hname, hsame]

/-- Under the new names, an accessor is called like the field behind it. -/
theorem name_accessor_renamedBy (helements : p.DistinctElements) (hapart : p.AccessorsApart c)
    (hcollect : p.collect c searchWeakened = .ok collected) (hentry : entry ∈ c.bindings)
    (hflag : entry.2.recordStyle = false) {accessor : Method} {backing : Field}
    (haccessor : p.method? entry.2.accessor = some accessor)
    (hbacking : p.field? entry.2.backingField = some backing) :
    (accessor.renamedBy collected.plan.get?).name =
      (backing.renamedBy collected.plan.get?).name := by
  -- Only methods get new names, so the field behind the accessor keeps its own.
  have hfield : collected.plan.get? backing.id = none := by
    by_contra hplanned
    obtain ⟨m, hm, hid⟩ := exists_method_of_planned hapart hcollect
      (Option.isSome_iff_ne_none.mpr hplanned)
    obtain ⟨⟨d, hd, hbacking⟩, -⟩ := of_field?_eq_some hbacking
    exact helements.id_ne_of_field hd hbacking hm hid
  have hid : accessor.id = entry.2.accessor := (of_method?_eq_some haccessor).2
  have hkind : p.classify entry.1 (some entry.2) = .ok _ :=
    (classify_eq_ok_iff hflag).mpr ⟨accessor, backing, haccessor, hbacking, rfl⟩
  rw [Method.renamedBy, Field.renamedBy, hfield, hid, Option.getD_none]
  split at hkind
  · next hname =>
    cases hplanned : collected.plan.get? entry.2.accessor with
    | none => exact hname
    | some newName =>
      have hrename := classify_of_get?_accessor hapart hcollect hentry hflag hplanned
      cases hkind.symm.trans hrename
  · rw [get?_accessor_of_classify hapart hcollect hentry hflag hkind, Option.getD_some]

/-- Under the new names, no key field calls for a rename. -/
theorem classify_renamedBy (helements : p.DistinctElements) (hapart : p.AccessorsApart c)
    (hcollect : p.collect c searchWeakened = .ok collected)
    {entry : ElementId × Option AccessorBinding} (hentry : entry ∈ c.fields.entries) :
    (p.renamedBy collected.plan.get?).classify entry.1 entry.2 = .ok (.settled entry.2) := by
  obtain ⟨field, _ | binding⟩ := entry
  · rfl
  cases hflag : binding.recordStyle with
  | true => exact classify_of_recordStyle hflag
  | false =>
    obtain ⟨-, kind, hkind⟩ := exists_classify_of_collect hcollect hentry
    obtain ⟨accessor, backing, haccessor, hbacking, -⟩ := (classify_eq_ok_iff hflag).mp hkind
    refine (classify_eq_ok_iff hflag).mpr ⟨accessor.renamedBy collected.plan.get?,
      backing.renamedBy collected.plan.get?, ?_, ?_, ?_⟩
    · rw [method?_renamedBy, haccessor, Option.map_some]
    · rw [field?_renamedBy, hbacking, Option.map_some]
    · exact (if_pos (name_accessor_renamedBy helements hapart hcollect
        (Candidate.mem_bindings_iff.mpr hentry) hflag haccessor hbacking)).symm

/-- Renames of accessors that are apart from each other all go through. -/
theorem exists_applyRenames (helements : p.DistinctElements) (hapart : p.AccessorsApart c)
    (hcollect : p.collect c searchWeakened = .ok collected) :
    ∃ q count, p.applyRenames collected.plan collected.usages = ⟨q, .ok count⟩ := by
  have hmembers : ∀ element ∈ collected.plan.entries.map Prod.fst,
      ∃ d ∈ p.declarations, d.hasMember element = true := by
    intro element hkey
    obtain ⟨m, hm, hid⟩ := exists_method_of_planned hapart hcollect
      (OrderedMap.isSome_get?_iff.mpr hkey)
    obtain ⟨d, hd, hm⟩ := mem_methods_iff.mp hm
    exact ⟨d, hd, List.any_eq_true.mpr
      ⟨.method m, Declaration.mem_methods_iff.mp hm, decide_eq_true hid⟩⟩
  have hsites : ∀ site ∈ sitesOf collected.usages, site.ref ∈ p.references.map Reference.id := by
    intro site hsite
    obtain ⟨d, hd, r, hr, hpoints, -⟩ := (collect_covers hcollect).planned site hsite
    exact List.mem_map.mpr ⟨r, mem_references_iff.mpr ⟨d, hd, hr⟩, hpoints.ref.symm⟩
  obtain ⟨q, hrun⟩ := RenamesTo.exists_renamesTo helements hmembers hsites
  exact ⟨q, _, applyRenames_eq_ok_iff.mpr ⟨hrun, rfl⟩⟩

end Renamed

/-- Renames leave nothing to rename. Where the accessors of a candidate can be renamed apart from
    each other, the collected renames all go through, and on the project that they leave every
    accessor is of record style. What is collected there has an empty plan and no usage that asks
    for a rename, so the renames of a second conversion would change nothing. -/
theorem classify_after_applyRenames {searchWeakened : Bool} {collected : CollectedUsages}
    (helements : p.DistinctElements) (hreferences : p.DistinctReferences)
    (hcollect : p.collect c searchWeakened = .ok collected) (hapart : p.AccessorsApart c) :
    ∃ q count, p.applyRenames collected.plan collected.usages = ⟨q, .ok count⟩ ∧
      (∀ field binding, (field, some binding) ∈ c.fields.entries →
        q.classify field (some binding) = .ok .recordStyle) ∧
      (∀ field, (field, none) ∈ c.fields.entries → q.classify field none = .ok .noAccessor) ∧
      ∃ again, q.collect c searchWeakened = .ok again ∧ again.plan.keys = [] ∧
        ∀ usage ∈ again.usages, usage.kind ≠ .accessorRename := by
  obtain ⟨q, count, happly⟩ := exists_applyRenames helements hapart hcollect
  obtain ⟨hrun, -⟩ := applyRenames_eq_ok_iff.mp happly
  obtain rfl := renamedBy_of_renamesTo (collect_covers hcollect) helements hreferences hrun
  have hsettled : ∀ entry ∈ c.fields.entries,
      (p.renamedBy collected.plan.get?).classify entry.1 entry.2 = .ok (.settled entry.2) :=
    fun _ => classify_renamedBy helements hapart hcollect
  obtain ⟨again, hagain⟩ := exists_collect_of_settled hcollect
    (p.visibility?_renamedBy collected.plan.get?) hsettled
  exact ⟨_, count, happly, fun field binding hentry => hsettled (field, some binding) hentry,
    fun field hentry => hsettled (field, none) hentry, again, hagain,
    plan_isEmpty_of_settled hagain hsettled⟩

end Project

namespace Squares

/-- The two accessors of the square override different methods of its interface. -/
theorem accessorsApart_project : project.AccessorsApart candidate := by
  have hwidth : project.renameTarget ⟨7⟩ = ⟨2⟩ := by cbv
  have hheight : project.renameTarget ⟨8⟩ = ⟨3⟩ := by cbv
  have hbelowWidth : project.hierarchy ⟨2⟩ = [⟨2⟩, ⟨7⟩] := by cbv
  have hbelowHeight : project.hierarchy ⟨3⟩ = [⟨3⟩, ⟨8⟩] := by cbv
  have hbindings : candidate.bindings =
      [(⟨5⟩, ⟨⟨7⟩, ⟨5⟩, false⟩), (⟨6⟩, ⟨⟨8⟩, ⟨5⟩, false⟩)] := rfl
  constructor
  · have hdeclared : ∀ id ∈ [(⟨2⟩ : ElementId), ⟨3⟩], (project.method? id).isSome = true := by
      decide
    simpa [hbindings, hwidth, hheight] using hdeclared
  · simp [hbindings, hwidth, hheight, hbelowWidth, hbelowHeight]

/-- After the renames both accessors of the square have the name of their field. -/
theorem classify_after_applyRenames_project :
    project.DistinctElements ∧ project.DistinctReferences ∧
    project.collect candidate true = .ok collected ∧ project.AccessorsApart candidate ∧
    ∃ q count, project.applyRenames collected.plan collected.usages = ⟨q, .ok count⟩ ∧
      q.classify ⟨6⟩ (some ⟨⟨8⟩, ⟨5⟩, false⟩) = .ok .recordStyle ∧
      ∃ again, q.collect candidate true = .ok again ∧ again.plan.keys = [] := by
  have helements : project.DistinctElements := by decide
  have hreferences : project.DistinctReferences := by decide
  obtain ⟨q, count, happly, hbound, -, again, hagain, hplan, -⟩ :=
    Project.classify_after_applyRenames helements hreferences collect_eq accessorsApart_project
  exact ⟨helements, hreferences, collect_eq, accessorsApart_project, q, count, happly,
    hbound ⟨6⟩ _ (by decide), again, hagain, hplan⟩

end Squares

end ClassToRecord
