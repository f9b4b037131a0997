import ClassToRecord.Proofs.Usage.Origin

open ClassToRecord.Traversal

namespace ClassToRecord

namespace Project

variable (p : Project)

/-- The rename that a key field calls for: the element where it starts, and the new name. -/
def renameFor? (entry : ElementId × Option AccessorBinding) : Option (ElementId × String) :=
  match p.classify entry.1 entry.2 with
  | .ok (.needsRename target newName) => some (target, newName)
  | _ => none

/-- The renames that key fields call for, in the order of the fields. -/
def renamesFor (entries : List (ElementId × Option AccessorBinding)) :
    List (ElementId × String) :=
  entries.filterMap p.renameFor?

/-- The elements that renames reach, those that are renamed together one after the other. -/
def reach (renames : List (ElementId × String)) : List ElementId :=
  renames.flatMap fun rename => p.renamedTogether rename.1

/-- A plan with one more rename. What is renamed together with its target gets the new name too,
    except what has one already. -/
def planWith (plan : RenamePlan) (rename : ElementId × String) : RenamePlan :=
  (p.renamedTogether rename.1).tail.foldl (fun plan e => plan.insertIfNew e rename.2)
    (plan.insert rename.1 rename.2)

/-- The plan of some renames, made one after the other. -/
def planFor (renames : List (ElementId × String)) : RenamePlan := renames.foldl p.planWith ∅

/-- The sites of a rename, judged by a plan. -/
def sitesUnder (plan : RenamePlan) (rename : ElementId × String) : List ReferenceSite :=
  p.declarations.flatMap (p.usagesIn (p.renamedTogether rename.1) rename.2 plan)

/-- The usages that a rename brings, its marker first. -/
def renameUsages (plan : RenamePlan) (rename : ElementId × String) : List Usage :=
  .accessorRename rename.1 rename.2 none ::
    (p.sitesUnder plan rename).map fun site => .accessorRename site.element rename.2 (some site)

def directUsages (field : ElementId) : List Usage :=
  if p.visibility? field = some .private then [] else [.directFieldReference field]

/-- The usages that key fields bring, each rename judged by the plan that it completes. -/
def usagesFrom (plan : RenamePlan) : List (ElementId × Option AccessorBinding) → List Usage
  | [] => []
  | entry :: rest =>
    match p.renameFor? entry with
    | none => p.directUsages entry.1 ++ usagesFrom plan rest
    | some rename =>
      p.directUsages entry.1 ++ p.renameUsages (p.planWith plan rename) rename ++
        usagesFrom (p.planWith plan rename) rest

variable {p}

theorem renameFor?_eq_some_iff {entry : ElementId × Option AccessorBinding} {target : ElementId}
    {newName : String} : p.renameFor? entry = some (target, newName) ↔
      p.classify entry.1 entry.2 = .ok (.needsRename target newName) := by
  unfold renameFor?
  split
  · next h => simp [h]
  · next h =>
    simp only [reduceCtorEq, false_iff]
    exact h target newName

theorem mem_renamesFor_iff {entries : List (ElementId × Option AccessorBinding)}
    {target : ElementId} {newName : String} : (target, newName) ∈ p.renamesFor entries ↔
      ∃ entry ∈ entries, p.classify entry.1 entry.2 = .ok (.needsRename target newName) := by
  simp only [renamesFor, List.mem_filterMap, renameFor?_eq_some_iff]

section Step

variable {acc acc' : CollectedUsages}

/-- Planning a rename extends the plan, and the sites are judged by the result. The target is
    declared somewhere. -/
theorem collectRename_eq_ok_iff (rename : ElementId × String) :
    p.collectRename rename.1 rename.2 acc = .ok acc' ↔
      (p.containing? rename.1).isSome = true ∧ acc' =
        { usages := acc.usages ++ p.renameUsages (p.planWith acc.plan rename) rename
          plan := p.planWith acc.plan rename } := by
  unfold collectRename prepareRenaming findUsages
  cases hknown : p.containing? rename.1 with
  | none => simp [refuse, during, Except.mapError, bind, Except.bind]
  | some owner =>
    simp only [during, Except.mapError, bind, Except.bind, Option.isNone_some, Option.isSome_some,
      Bool.false_eq_true, if_false, Except.ok.injEq, true_and]
    exact eq_comm

/-- What one key field does to what has been collected before it. -/
theorem collectField_step {entry : ElementId × Option AccessorBinding}
    (h : p.collectField acc entry = .ok acc') :
    p.renameFor? entry = none ∧
        acc' = { acc with usages := acc.usages ++ p.directUsages entry.1 } ∨
      ∃ rename, p.renameFor? entry = some rename ∧ (p.containing? rename.1).isSome = true ∧
        acc' = { usages := acc.usages ++ (p.directUsages entry.1 ++
                    p.renameUsages (p.planWith acc.plan rename) rename)
                 plan := p.planWith acc.plan rename } := by
  obtain ⟨direct, rfl, hbrings⟩ := collectField_eq_ok h
  rcases hbrings with ⟨hnone, rfl⟩ | ⟨target, newName, hkind, hrename⟩
  · refine .inl ⟨?_, rfl⟩
    rw [Option.eq_none_iff_forall_ne_some]
    exact fun rename hrename => hnone _ _ (renameFor?_eq_some_iff.mp hrename)
  · obtain ⟨hknown, rfl⟩ := (collectRename_eq_ok_iff (target, newName)).mp hrename
    refine .inr ⟨(target, newName), renameFor?_eq_some_iff.mpr hkind, hknown, ?_⟩
    rw [← List.append_assoc]
    rfl

end Step

section Success

/-- It is known how visible a key field is and of which kind, and if there is something to rename it
    is declared somewhere. -/
def Collectible (p : Project) (entry : ElementId × Option AccessorBinding) : Prop :=
  (p.visibility? entry.1).isSome = true ∧ ∃ kind, p.classify entry.1 entry.2 = .ok kind ∧
    ∀ target newName, kind = .needsRename target newName → (p.containing? target).isSome = true

theorem collectible_of_needsRename {entry : ElementId × Option AccessorBinding} {target : ElementId}
    {newName : String} (hvisible : (p.visibility? entry.1).isSome = true)
    (hkind : p.classify entry.1 entry.2 = .ok (.needsRename target newName))
    (hknown : (p.containing? target).isSome = true) : p.Collectible entry := by
  refine ⟨hvisible, _, hkind, ?_⟩
  rintro _ _ ⟨⟩
  exact hknown

/-- This is what it takes to collect what a key field brings. -/
theorem exists_collectField_iff {entry : ElementId × Option AccessorBinding}
    {acc : CollectedUsages} :
    (∃ acc', p.collectField acc entry = .ok acc') ↔ p.Collectible entry := by
  simp only [collectField, bind_eq_ok_iff, knownVisibility, orRefuse_eq_ok_iff, Collectible,
    Option.isSome_iff_exists]
  constructor
  · rintro ⟨acc', v, hv, kind, hkind, h⟩
    refine ⟨⟨v, hv⟩, kind, hkind, ?_⟩
    rintro target newName rfl
    obtain ⟨hknown, -⟩ := (collectRename_eq_ok_iff (target, newName)).mp h
    exact Option.isSome_iff_exists.mp hknown
  · rintro ⟨⟨v, hv⟩, kind, hkind, hknown⟩
    cases kind with
    | needsRename target newName =>
      have hdeclared := Option.isSome_iff_exists.mpr (hknown target newName rfl)
      exact ⟨_, v, hv, _, hkind, (collectRename_eq_ok_iff (target, newName)).mpr ⟨hdeclared, rfl⟩⟩
    | _ => exact ⟨_, v, hv, _, hkind, rfl⟩

/-- A candidate can be collected exactly if its key fields can, and if the risks can be told as far
    as they are asked for. -/
theorem exists_collect_iff {c : Candidate} {searchWeakened : Bool} :
    (∃ collected, p.collect c searchWeakened = .ok collected) ↔
      (∀ entry ∈ c.fields.entries, p.Collectible entry) ∧
        (searchWeakened = true → ∃ risks, p.encapsulationRisks c = .ok risks) := by
  constructor
  · rintro ⟨collected, hcollect⟩
    obtain ⟨acc, hfold, h⟩ := bind_eq_ok_iff.mp hcollect
    constructor
    · intro entry hentry
      obtain ⟨before, after, hstep⟩ := exists_step_of_foldlM hfold hentry
      exact exists_collectField_iff.mp ⟨after, hstep⟩
    · rintro rfl
      obtain ⟨risks, hrisks, -⟩ := bind_eq_ok_iff.mp h
      exact ⟨risks, hrisks⟩
  · rintro ⟨hfields, hrisks⟩
    have hstep : ∀ entry ∈ c.fields.entries, ∀ acc, ∃ acc', p.collectField acc entry = .ok acc' :=
      fun entry hentry _ => exists_collectField_iff.mpr (hfields entry hentry)
    obtain ⟨acc, hfold⟩ := exists_foldlM_eq_ok hstep {}
    cases searchWeakened with
    | false => exact ⟨acc, bind_eq_ok_iff.mpr ⟨acc, hfold, rfl⟩⟩
    | true =>
      obtain ⟨risks, hrisks⟩ := hrisks rfl
      exact ⟨_, bind_eq_ok_iff.mpr ⟨acc, hfold, bind_eq_ok_iff.mpr ⟨risks, hrisks, rfl⟩⟩⟩

end Success

section Run

/-- Key fields bring what their renames bring, field by field. The targets are all declared. -/
theorem collectFields_run {entries : List (ElementId × Option AccessorBinding)}
    {acc acc' : CollectedUsages} (h : entries.foldlM p.collectField acc = .ok acc') :
    acc' = { usages := acc.usages ++ p.usagesFrom acc.plan entries
             plan := (p.renamesFor entries).foldl p.planWith acc.plan } ∧
      ∀ rename ∈ p.renamesFor entries, (p.containing? rename.1).isSome = true := by
  induction entries generalizing acc with
  | nil =>
    cases h
    simp [usagesFrom, renamesFor]
  | cons entry rest ih =>
    rw [List.foldlM_cons, bind_eq_ok_iff] at h
    obtain ⟨next, hstep, hrest⟩ := h
    obtain ⟨rfl, hknown⟩ := ih hrest
    rcases collectField_step hstep with ⟨hnone, rfl⟩ | ⟨rename, hsome, htarget, rfl⟩
    · simp only [usagesFrom, renamesFor, List.filterMap_cons, hnone, List.append_assoc] at hknown ⊢
      exact ⟨trivial, hknown⟩
    · simp only [usagesFrom, renamesFor, List.filterMap_cons, hsome, List.append_assoc,
        List.foldl_cons, List.forall_mem_cons] at hknown ⊢
      exact ⟨trivial, htarget, hknown⟩

/-- What is collected for a candidate, as a whole. -/
theorem collect_run {c : Candidate} {searchWeakened : Bool} {collected : CollectedUsages}
    (h : p.collect c searchWeakened = .ok collected) :
    ∃ risks, (if searchWeakened then p.encapsulationRisks c = .ok risks else risks = []) ∧
      collected = { usages := p.usagesFrom ∅ c.fields.entries ++ risks
                    plan := p.planFor (p.renamesFor c.fields.entries) } ∧
      ∀ rename ∈ p.renamesFor c.fields.entries, (p.containing? rename.1).isSome = true := by
  obtain ⟨acc, hfold, h⟩ := bind_eq_ok_iff.mp h
  obtain ⟨rfl, hknown⟩ := collectFields_run hfold
  cases searchWeakened with
  | false =>
    cases h
    exact ⟨[], rfl, by rw [List.append_nil]; rfl, hknown⟩
  | true =>
    obtain ⟨risks, hrisks, h⟩ := bind_eq_ok_iff.mp h
    cases h
    exact ⟨risks, hrisks, rfl, hknown⟩

end Run

section Keys

theorem keys_foldl_insertIfNew (plan : RenamePlan) (ids : List ElementId) (newName : String) :
    (ids.foldl (fun plan e => plan.insertIfNew e newName) plan).keys =
      plan.keys ++ newOnes plan.keys ids := by
  induction ids generalizing plan with
  | nil => simp [newOnes]
  | cons id rest ih =>
    rw [List.foldl_cons, ih, OrderedMap.keys_insertIfNew, newOnes]
    by_cases hid : id ∈ plan.keys <;> simp [hid]

/-- A rename adds what it reaches at the end of the plan, as far as it is new there. -/
theorem keys_planWith (plan : RenamePlan) (rename : ElementId × String) :
    (p.planWith plan rename).keys =
      plan.keys ++ newOnes plan.keys (p.renamedTogether rename.1) := by
  obtain ⟨found, hfound⟩ := p.renamedTogether_eq_cons rename.1
  rw [planWith, keys_foldl_insertIfNew, OrderedMap.keys_insert, hfound, List.tail_cons, newOnes]
  by_cases hid : rename.1 ∈ plan.keys <;> simp [hid]

theorem keys_foldl_planWith (plan : RenamePlan) (renames : List (ElementId × String)) :
    (renames.foldl p.planWith plan).keys = plan.keys ++ newOnes plan.keys (p.reach renames) := by
  induction renames generalizing plan with
  | nil => simp [reach, newOnes]
  | cons rename rest ih =>
    have hreach : p.reach (rename :: rest) = p.renamedTogether rename.1 ++ p.reach rest :=
      List.flatMap_cons
    rw [List.foldl_cons, ih, keys_planWith, hreach, newOnes_append, List.append_assoc]

/-- The keys of a plan are the elements that its renames reach, in order and each once. -/
theorem keys_planFor (renames : List (ElementId × String)) :
    (p.planFor renames).keys = newOnes [] (p.reach renames) :=
  keys_foldl_planWith ∅ renames

theorem mem_keys_planFor_iff {renames : List (ElementId × String)} {x : ElementId} :
    x ∈ (p.planFor renames).keys ↔ x ∈ p.reach renames := by
  rw [keys_planFor, mem_newOnes, and_iff_left List.not_mem_nil]

theorem mem_reach_iff {renames : List (ElementId × String)} {x : ElementId} :
    x ∈ p.reach renames ↔ ∃ rename ∈ renames, x ∈ p.renamedTogether rename.1 := List.mem_flatMap

end Keys

section Sites

/-- The sites of a rename are those of the references to what it reaches. A plain reference is
    judged by the plan, and a qualified one cannot be captured. -/
theorem mem_sitesUnder_iff {plan : RenamePlan} {rename : ElementId × String}
    {site : ReferenceSite} : site ∈ p.sitesUnder plan rename ↔
      ∃ d ∈ p.declarations, ∃ r qualified, (r, qualified) ∈ d.qualifiedReferences ∧
        r.target ∈ p.renamedTogether rename.1 ∧
        site = siteOf d r (if qualified then none
          else p.collision? d r.target rename.2 plan) := by
  simp only [sitesUnder, usagesIn, List.mem_flatMap, List.mem_map, List.mem_filter,
    List.contains_iff_mem, Prod.exists]
  refine exists_congr fun d => and_congr_right fun _ => ?_
  refine exists_congr fun r => exists_congr fun qualified => ?_
  rw [and_assoc, @eq_comm _ site]

theorem site_mem_renameUsages_iff {plan : RenamePlan} {rename : ElementId × String}
    {element : ElementId} {newName : String} {site : ReferenceSite} :
    .accessorRename element newName (some site) ∈ p.renameUsages plan rename ↔
      rename.2 = newName ∧ site.element = element ∧ site ∈ p.sitesUnder plan rename := by
  simp only [renameUsages, List.mem_cons, Usage.accessorRename.injEq, reduceCtorEq, and_false,
    List.mem_map, Option.some.injEq, false_or]
  constructor
  · rintro ⟨_, hsite, rfl, rfl, rfl⟩
    exact ⟨rfl, rfl, hsite⟩
  · rintro ⟨rfl, rfl, hsite⟩
    exact ⟨site, hsite, rfl, rfl, rfl⟩

/-- A usage with a site belongs to one of the renames, and its site is judged by the plan up to that
    rename. -/
theorem site_mem_usagesFrom_iff {plan : RenamePlan}
    {entries : List (ElementId × Option AccessorBinding)} {element : ElementId}
    {newName : String} {site : ReferenceSite} :
    .accessorRename element newName (some site) ∈ p.usagesFrom plan entries ↔
      ∃ before rename after, p.renamesFor entries = before ++ rename :: after ∧
        rename.2 = newName ∧ site.element = element ∧
        site ∈ p.sitesUnder ((before ++ [rename]).foldl p.planWith plan) rename := by
  have hdirect : ∀ field, .accessorRename element newName (some site) ∉ p.directUsages field :=
    fun field hmem => absurd (structural_directUsages _ hmem) Bool.false_ne_true
  induction entries generalizing plan with
  | nil => simp [usagesFrom, renamesFor]
  | cons entry rest ih =>
    cases hrename : p.renameFor? entry with
    | none =>
      simp only [usagesFrom, renamesFor, List.filterMap_cons, hrename, List.mem_append,
        hdirect, false_or]
      exact ih
    | some first =>
      have hfor : p.renamesFor (entry :: rest) = first :: p.renamesFor rest :=
        List.filterMap_cons_some hrename
      simp only [usagesFrom, hrename, List.mem_append, hdirect, false_or, ih,
        site_mem_renameUsages_iff, hfor]
      constructor
      · rintro (⟨hname, helement, hsite⟩ | ⟨before, rename, after, hsplit, hrest⟩)
        · exact ⟨[], first, p.renamesFor rest, rfl, hname, helement, hsite⟩
        · exact ⟨first :: before, rename, after, congrArg (first :: ·) hsplit, hrest⟩
      · rintro ⟨before, rename, after, hsplit, hrest⟩
        cases before with
        | nil =>
          cases hsplit
          exact .inl hrest
        | cons _ before =>
          rw [List.cons_append] at hsplit
          obtain ⟨rfl, htail⟩ := List.cons.inj hsplit
          exact .inr ⟨before, rename, after, htail, hrest⟩

/-- There is one site for each reference to what a rename reaches, in project order, whatever plan
    the sites are judged by. -/
theorem map_sitesUnder {β : Type} {f : ReferenceSite → β}
    (hf : ∀ d r collision?, f (siteOf d r collision?) = f (siteOf d r none)) (plan : RenamePlan)
    (rename : ElementId × String) :
    (p.sitesUnder plan rename).map f = p.declarations.flatMap fun d =>
      (d.references.filter fun r => (p.renamedTogether rename.1).contains r.target).map fun r =>
        f (siteOf d r none) := by
  rw [sitesUnder, List.map_flatMap]
  congr 1
  funext d
  rw [usagesIn, List.map_map, ← d.map_fst_qualifiedReferences, List.filter_map, List.map_map]
  apply List.map_congr_left
  rintro ⟨r, qualified⟩ _
  exact hf d r _

theorem map_ref_sitesUnder (plan : RenamePlan) (rename : ElementId × String) :
    (p.sitesUnder plan rename).map ReferenceSite.ref =
      (p.references.filter fun r => (p.renamedTogether rename.1).contains r.target).map
        Reference.id := by
  rw [map_sitesUnder fun _ _ _ => rfl, references, List.filter_flatMap, List.map_flatMap]
  rfl

theorem sitesOf_renameUsages (plan : RenamePlan) (rename : ElementId × String) :
    sitesOf (p.renameUsages plan rename) = p.sitesUnder plan rename :=
  sitesOf_renaming rename.1 rename.2 (p.sitesUnder plan rename)

theorem sitesOf_directUsages (field : ElementId) : sitesOf (p.directUsages field) = [] :=
  sitesOf_eq_nil_of_structural structural_directUsages

/-- The references at the collected sites, rename by rename. -/
theorem map_ref_sitesOf_usagesFrom (plan : RenamePlan)
    (entries : List (ElementId × Option AccessorBinding)) :
    (sitesOf (p.usagesFrom plan entries)).map ReferenceSite.ref =
      (p.renamesFor entries).flatMap fun rename =>
        (p.references.filter fun r => (p.renamedTogether rename.1).contains r.target).map
          Reference.id := by
  induction entries generalizing plan with
  | nil => rfl
  | cons entry rest ih =>
    cases hrename : p.renameFor? entry with
    | none =>
      simp only [usagesFrom, hrename, sitesOf_append, sitesOf_directUsages, List.nil_append, ih,
        renamesFor, List.filterMap_cons]
    | some rename =>
      simp only [usagesFrom, hrename, sitesOf_append, sitesOf_directUsages, sitesOf_renameUsages,
        List.nil_append, List.map_append, map_ref_sitesUnder, ih, renamesFor, List.filterMap_cons,
        List.flatMap_cons]

end Sites

section Collected

variable {c : Candidate} {searchWeakened : Bool} {collected : CollectedUsages}

/-- The marked renames of a candidate are those that its key fields call for. -/
theorem marker_mem_collect_iff (h : p.collect c searchWeakened = .ok collected)
    {rename : ElementId × String} : .accessorRename rename.1 rename.2 none ∈ collected.usages ↔
      rename ∈ p.renamesFor c.fields.entries :=
  (marker_mem_iff h).trans mem_renamesFor_iff.symm

/-- The risks bring no sites. -/
theorem structural_risks {risks : List Usage}
    (h : if searchWeakened then p.encapsulationRisks c = .ok risks else risks = []) :
    ∀ usage ∈ risks, usage.isStructural = true := by
  split at h
  · exact structural_of_kind (encapsulationRisks_kind h)
  · rw [h]
    exact nofun

/-- A usage with a site belongs to one of the renames of a candidate, and its site is judged by the
    plan up to that rename. -/
theorem site_mem_collect_iff (h : p.collect c searchWeakened = .ok collected)
    {element : ElementId} {newName : String} {site : ReferenceSite} :
    .accessorRename element newName (some site) ∈ collected.usages ↔
      ∃ before rename after, p.renamesFor c.fields.entries = before ++ rename :: after ∧
        rename.2 = newName ∧ site.element = element ∧
        site ∈ p.sitesUnder (p.planFor (before ++ [rename])) rename := by
  obtain ⟨risks, hrisks, rfl, -⟩ := collect_run h
  have hnotRisk : Usage.accessorRename element newName (some site) ∉ risks :=
    fun hmem => absurd (structural_risks hrisks _ hmem) Bool.false_ne_true
  rw [List.mem_append, or_iff_left hnotRisk]
  exact site_mem_usagesFrom_iff

theorem map_ref_sitesOf_collect (h : p.collect c searchWeakened = .ok collected) :
    (sitesOf collected.usages).map ReferenceSite.ref =
      (p.renamesFor c.fields.entries).flatMap fun rename =>
        (p.references.filter fun r => (p.renamedTogether rename.1).contains r.target).map
          Reference.id := by
  obtain ⟨risks, hrisks, rfl, -⟩ := collect_run h
  rw [sitesOf_append, sitesOf_eq_nil_of_structural (structural_risks hrisks), List.append_nil,
    map_ref_sitesOf_usagesFrom]

end Collected

end Project

end ClassToRecord
