import ClassToRecord.Proofs.Usage.Run

open ClassToRecord.Traversal

namespace ClassToRecord

/-- Two functions that give equally many items for each element of a list give the same items for
    the list exactly if they do for each element. -/
theorem flatMap_eq_flatMap_iff {α β : Type} {l : List α} {f g : α → List β}
    (hlength : ∀ a ∈ l, (f a).length = (g a).length) :
    l.flatMap f = l.flatMap g ↔ ∀ a ∈ l, f a = g a := by
  induction l with
  | nil => simp
  | cons a rest ih =>
    obtain ⟨hfirst, hrest⟩ := List.forall_mem_cons.mp hlength
    rw [List.flatMap_cons, List.flatMap_cons, List.forall_mem_cons, ← ih hrest]
    constructor
    · exact fun happend => List.append_inj happend hfirst
    · rintro ⟨hfa, hfrest⟩
      rw [hfa, hfrest]

namespace Project

variable {p : Project}

/-- The element is declared in some other declaration. -/
def DeclaredOutside (p : Project) (d : Declaration) (x : ElementId) : Prop :=
  ∃ owner, p.containing? x = some owner ∧ d.id ≠ owner

/-- A method that takes over the plain calls of a declaration by a name, and keeps its own name. -/
structure Captor (p : Project) (d : Declaration) (newName : String)
    (renames : List (ElementId × String)) (m : Method) : Prop where
  mem : m ∈ d.methods
  not_constructor : m.isConstructor = false
  name : m.name = newName
  parameters : m.parameters = []
  kept : m.id ∉ p.reach renames

theorem captures_planFor_iff {newName : String} {renames : List (ElementId × String)}
    {d : Declaration} {m : Method} (hm : m ∈ d.methods) :
    captures newName (p.planFor renames) m = true ↔ p.Captor d newName renames m := by
  have hkept : (p.planFor renames).contains m.id = false ↔ m.id ∉ p.reach renames := by
    rw [← mem_keys_planFor_iff, OrderedMap.contains, ← Bool.not_eq_true, List.contains_iff_mem]
  simp only [captures, Bool.and_eq_true, Bool.not_eq_true', beq_iff_eq, List.isEmpty_iff, hkept,
    and_assoc]
  constructor
  · rintro ⟨hconstructor, hname, hparameters, hreach⟩
    exact ⟨hm, hconstructor, hname, hparameters, hreach⟩
  · rintro ⟨-, hconstructor, hname, hparameters, hreach⟩
    exact ⟨hconstructor, hname, hparameters, hreach⟩

theorem captor_of_find?_eq_some {newName : String} {renames : List (ElementId × String)}
    {d : Declaration} {m : Method}
    (h : d.methods.find? (captures newName (p.planFor renames)) = some m) :
    p.Captor d newName renames m :=
  (captures_planFor_iff (List.mem_of_find?_eq_some h)).mp (List.find?_some h)

/-- Messages do not tell two methods of one declaration apart that can be called alike. -/
theorem Captor.describe_eq (h : p.DistinctElements) {d : Declaration} (hd : d ∈ p.declarations)
    {newName : String} {renames others : List (ElementId × String)} {m e : Method}
    (hm : p.Captor d newName renames m) (he : p.Captor d newName others e) :
    p.describe m.id = p.describe e.id := by
  have hsignature : m.signature = e.signature := by
    rw [Method.signature, Method.signature, hm.name, he.name, hm.parameters, he.parameters]
  have hmp : m ∈ p.methods := mem_methods_iff.mpr ⟨d, hd, hm.mem⟩
  have hep : e ∈ p.methods := mem_methods_iff.mpr ⟨d, hd, he.mem⟩
  simp only [describe, h.declaration?_eq_none_of_method hmp, h.declaration?_eq_none_of_method hep,
    h.field?_eq_none_of_method hmp, h.field?_eq_none_of_method hep,
    h.method?_eq_some_iff.mpr ⟨hmp, rfl⟩, h.method?_eq_some_iff.mpr ⟨hep, rfl⟩,
    h.home?_eq_some hd (Declaration.declares_of_mem_methods hm.mem),
    h.home?_eq_some hd (Declaration.declares_of_mem_methods he.mem), hm.not_constructor,
    he.not_constructor, hsignature]

/-- What is said about a capture, whichever captor it is. -/
theorem collision?_eq_some_iff (h : p.DistinctElements) {d : Declaration}
    (hd : d ∈ p.declarations) {target : ElementId} {newName message : String}
    {renames : List (ElementId × String)} :
    p.collision? d target newName (p.planFor renames) = some message ↔
      p.DeclaredOutside d target ∧ ∃ m, p.Captor d newName renames m ∧
        message = "reference in " ++ p.describe d.id ++ " would resolve to " ++ p.describe m.id ++
          " after renaming " ++ p.describe target := by
  unfold collision?
  cases howner : p.containing? target with
  | none => simp [DeclaredOutside, howner]
  | some owner =>
    simp only
    by_cases hown : d.id = owner
    · simp [DeclaredOutside, howner, hown]
    · rw [if_neg hown, and_iff_right ⟨owner, howner, hown⟩, Option.map_eq_some_iff]
      constructor
      · rintro ⟨m, hfound, rfl⟩
        exact ⟨m, captor_of_find?_eq_some hfound, rfl⟩
      · rintro ⟨m, hm, rfl⟩
        -- the search finds the first captor, and messages do not tell it from `m`
        obtain ⟨e, hfound⟩ := Option.isSome_iff_exists.mp (List.find?_isSome.mpr
          ⟨m, hm.mem, (captures_planFor_iff hm.mem).mpr hm⟩)
        refine ⟨e, hfound, ?_⟩
        rw [(captor_of_find?_eq_some hfound).describe_eq h hd hm]

/-- Under a longer plan the same is said about a capture exactly if some captor keeps its name. -/
theorem collision?_eq_collision?_iff (h : p.DistinctElements) {d : Declaration}
    (hd : d ∈ p.declarations) {target : ElementId} {newName : String}
    {renames all : List (ElementId × String)} (hmore : p.reach renames ⊆ p.reach all) :
    p.collision? d target newName (p.planFor renames) =
        p.collision? d target newName (p.planFor all) ↔
      (p.DeclaredOutside d target → (∃ m, p.Captor d newName renames m) →
        ∃ m, p.Captor d newName all m) := by
  simp only [Option.ext_iff, collision?_eq_some_iff h hd]
  constructor
  · rintro hsame houtside ⟨m, hm⟩
    obtain ⟨-, e, he, -⟩ := (hsame _).mp ⟨houtside, m, hm, rfl⟩
    exact ⟨e, he⟩
  · intro hkeeps message
    refine and_congr_right fun houtside => ?_
    constructor
    · rintro ⟨m, hm, rfl⟩
      obtain ⟨e, he⟩ := hkeeps houtside ⟨m, hm⟩
      exact ⟨e, he, by rw [hm.describe_eq h hd he]⟩
    · rintro ⟨m, hm, rfl⟩
      exact ⟨m, { hm with kept := fun hin => hm.kept (hmore hin) }, rfl⟩

section Sites

/-- How many sites a rename has does not depend on the plan. -/
theorem length_sitesUnder (plan other : RenamePlan) (rename : ElementId × String) :
    (p.sitesUnder plan rename).length = (p.sitesUnder other rename).length := by
  have hrefs : (p.sitesUnder plan rename).map ReferenceSite.ref =
      (p.sitesUnder other rename).map ReferenceSite.ref := by
    rw [map_ref_sitesUnder, map_ref_sitesUnder]
  simpa only [List.length_map] using congrArg List.length hrefs

/-- Two plans judge the sites of a rename alike exactly if they judge its plain references alike. -/
theorem sitesUnder_eq_sitesUnder_iff (plan other : RenamePlan) (rename : ElementId × String) :
    p.sitesUnder plan rename = p.sitesUnder other rename ↔
      ∀ d ∈ p.declarations, ∀ r, (r, false) ∈ d.qualifiedReferences →
        r.target ∈ p.renamedTogether rename.1 →
          p.collision? d r.target rename.2 plan = p.collision? d r.target rename.2 other := by
  have hlength : ∀ d ∈ p.declarations,
      (p.usagesIn (p.renamedTogether rename.1) rename.2 plan d).length =
        (p.usagesIn (p.renamedTogether rename.1) rename.2 other d).length := by
    intro d _
    rw [usagesIn, usagesIn, List.length_map, List.length_map]
  rw [sitesUnder, sitesUnder, flatMap_eq_flatMap_iff hlength]
  refine forall₂_congr fun d _ => ?_
  rw [usagesIn, usagesIn, List.map_inj_left]
  simp only [List.mem_filter, List.contains_iff_mem, Prod.forall, and_imp, siteOf,
    ReferenceSite.mk.injEq, true_and]
  constructor
  · intro hall r hr htarget
    exact hall r false hr htarget
  · intro hplain r qualified hr htarget
    cases qualified with
    | true => rfl
    | false => exact hplain r hr htarget

/-- The sites that key fields bring are those of a complete plan exactly if that plan judges the
    sites of each rename as the plan up to that rename does. -/
theorem sitesOf_usagesFrom_eq_iff (final plan : RenamePlan)
    (entries : List (ElementId × Option AccessorBinding)) :
    sitesOf (p.usagesFrom plan entries) = (p.renamesFor entries).flatMap (p.sitesUnder final) ↔
      ∀ before rename after, p.renamesFor entries = before ++ rename :: after →
        p.sitesUnder ((before ++ [rename]).foldl p.planWith plan) rename =
          p.sitesUnder final rename := by
  induction entries generalizing plan with
  | nil => simp [usagesFrom, renamesFor, sitesOf]
  | cons entry rest ih =>
    cases hrename : p.renameFor? entry with
    | none =>
      simp only [usagesFrom, renamesFor, hrename, sitesOf_append, sitesOf_directUsages,
        List.nil_append, List.filterMap_cons]
      exact ih plan
    | some first =>
      have hfor : p.renamesFor (entry :: rest) = first :: p.renamesFor rest :=
        List.filterMap_cons_some hrename
      simp only [usagesFrom, hrename, hfor, sitesOf_append, sitesOf_directUsages,
        sitesOf_renameUsages, List.nil_append, List.flatMap_cons]
      constructor
      · intro happend before rename after hsplit
        obtain ⟨hfirst, hrest⟩ := List.append_inj happend (length_sitesUnder _ _ _)
        cases before with
        | nil =>
          cases hsplit
          exact hfirst
        | cons _ before =>
          rw [List.cons_append] at hsplit
          obtain ⟨rfl, htail⟩ := List.cons.inj hsplit
          exact (ih _).mp hrest before rename after htail
      · intro hall
        have hfirst := hall [] first (p.renamesFor rest) rfl
        have hrest := (ih (p.planWith plan first)).mpr fun before rename after hsplit =>
          hall (first :: before) rename after (congrArg (first :: ·) hsplit)
        rw [hrest]
        exact congrArg (· ++ _) hfirst

end Sites

end Project

/-- The collected sites are those that searches under the complete plan find, one search for each of
    the renames. -/
def CollectedUsages.JudgedByPlan (acc : CollectedUsages) (p : Project)
    (renames : List (ElementId × String)) : Prop :=
  ∃ found, renames.mapM (fun rename => p.findUsages rename.1 rename.2 acc.plan) = .ok found ∧
    sitesOf acc.usages = found.flatten

namespace Project

/-- Wherever a plain reference is captured under the renames up to its own, some captor keeps its
    name under all of them. -/
def KeepsCaptors (p : Project) (renames : List (ElementId × String)) : Prop :=
  ∀ before rename after, renames = before ++ rename :: after →
    ∀ d ∈ p.declarations, ∀ r, (r, false) ∈ d.qualifiedReferences →
      r.target ∈ p.renamedTogether rename.1 → p.DeclaredOutside d r.target →
        (∃ m, p.Captor d rename.2 (before ++ [rename]) m) → ∃ m, p.Captor d rename.2 renames m

variable {p : Project} {c : Candidate} {searchWeakened : Bool} {collected : CollectedUsages}

/-- Where the targets are declared, searches succeed under every plan. -/
theorem mapM_findUsages {renames : List (ElementId × String)}
    (hknown : ∀ rename ∈ renames, (p.containing? rename.1).isSome = true) (plan : RenamePlan) :
    renames.mapM (fun rename => p.findUsages rename.1 rename.2 plan) =
      .ok (renames.map (p.sitesUnder plan)) := by
  refine (mapM_congr fun rename hrename => ?_).trans List.mapM_pure
  have hsome : (p.containing? rename.1).isNone = false := by
    rw [Option.isNone_eq_false_iff]
    exact hknown rename hrename
  rw [findUsages, hsome]
  rfl

/-- Captures are judged by the complete plan exactly if later key fields do not rename all captors
    of a reference. -/
theorem judgedByPlan_collect_iff (hdistinct : p.DistinctElements)
    (hcollect : p.collect c searchWeakened = .ok collected) :
    collected.JudgedByPlan p (p.renamesFor c.fields.entries) ↔
      p.KeepsCaptors (p.renamesFor c.fields.entries) := by
  obtain ⟨risks, hrisks, rfl, hknown⟩ := collect_run hcollect
  have hjudged : CollectedUsages.JudgedByPlan
      { usages := p.usagesFrom ∅ c.fields.entries ++ risks
        plan := p.planFor (p.renamesFor c.fields.entries) } p (p.renamesFor c.fields.entries) ↔
      sitesOf (p.usagesFrom ∅ c.fields.entries) = (p.renamesFor c.fields.entries).flatMap
        (p.sitesUnder (p.planFor (p.renamesFor c.fields.entries))) := by
    simp only [CollectedUsages.JudgedByPlan, mapM_findUsages hknown, Except.ok.injEq,
      exists_eq_left', sitesOf_append, sitesOf_eq_nil_of_structural (structural_risks hrisks),
      List.append_nil, List.flatMap_def]
  rw [hjudged, sitesOf_usagesFrom_eq_iff]
  refine forall₄_congr fun before rename after hsplit => ?_
  have hmore : p.reach (before ++ [rename]) ⊆ p.reach (p.renamesFor c.fields.entries) := by
    have happend : p.reach (p.renamesFor c.fields.entries) =
        p.reach (before ++ [rename]) ++ p.reach after := by
      rw [hsplit, List.append_cons]
      exact List.flatMap_append
    rw [happend]
    exact List.subset_append_left _ _
  rw [← planFor, sitesUnder_eq_sitesUnder_iff]
  refine forall₂_congr fun d hd => forall₃_congr fun r _ _ => ?_
  exact collision?_eq_collision?_iff hdistinct hd hmore

end Project

namespace Tables

/-- An interface with the method `size`. -/
def counted : Declaration where
  id := ⟨1⟩
  file := "Counted.java"
  children := [
    .keyword .interface, .trivia (.whitespace " "), .identifier "Counted", .code (.ofText " \x7b "),
    .method {
      id := ⟨2⟩
      modifiers := ⟨.public, []⟩
      returnType? := some "int"
      name := "size"
      parameters := []
      body := .ofText ";" },
    .code (.ofText " \x7d")]

/-- The method `size` of a subclass of the class below. It calls the other accessor. -/
def pageSize : Method where
  id := ⟨4⟩
  modifiers := ⟨.public, []⟩
  returnType? := some "int"
  name := "size"
  parameters := []
  body := .ofText " \x7b return " ++ ⟨[.ref ⟨⟨1⟩, ⟨8⟩, "getSize"⟩]⟩ ++ .ofText "(); \x7d"
  superMethods := [⟨9⟩]

def page : Declaration where
  id := ⟨3⟩
  file := "Page.java"
  children := [
    .keyword .class, .trivia (.whitespace " "), .identifier "Page",
    .code (.ofText " extends Row \x7b "), .method pageSize, .code (.ofText " \x7d")]

/-- A class whose accessor `size` reads another field than the one of that name. -/
def row : Declaration where
  id := ⟨5⟩
  file := "Row.java"
  children := [
    .keyword .class, .trivia (.whitespace " "), .identifier "Row",
    .code (.ofText " implements Counted \x7b "),
    .field { id := ⟨6⟩, modifiers := ⟨.private, []⟩, type := "int", name := "size" },
    .trivia (.whitespace " "),
    .field { id := ⟨7⟩, modifiers := ⟨.private, []⟩, type := "int", name := "count" },
    .trivia (.whitespace " "),
    .method {
      id := ⟨8⟩
      modifiers := ⟨.public, []⟩
      returnType? := some "int"
      name := "getSize"
      parameters := []
      body := .ofText " \x7b return " ++ ⟨[.ref ⟨⟨2⟩, ⟨6⟩, "size"⟩]⟩ ++ .ofText "; \x7d" },
    .trivia (.whitespace " "),
    .method {
      id := ⟨9⟩
      modifiers := ⟨.public, []⟩
      returnType? := some "int"
      name := "size"
      parameters := []
      body := .ofText " \x7b return " ++ ⟨[.ref ⟨⟨3⟩, ⟨7⟩, "count"⟩]⟩ ++ .ofText "; \x7d"
      superMethods := [⟨2⟩] },
    .code (.ofText " \x7d")]

def project : Project := ⟨[counted, page, row], 9, 3⟩

def candidate : Candidate where
  declaration := ⟨5⟩
  fields := ⟨[(⟨6⟩, some ⟨⟨8⟩, ⟨6⟩, false⟩), (⟨7⟩, some ⟨⟨9⟩, ⟨7⟩, false⟩)], by decide⟩

/-- One accessor gets the name `size`, and all methods of that name lose it. -/
theorem classify_project :
    project.classify ⟨6⟩ (some ⟨⟨8⟩, ⟨6⟩, false⟩) = .ok (.needsRename ⟨8⟩ "size") ∧
      project.classify ⟨7⟩ (some ⟨⟨9⟩, ⟨7⟩, false⟩) = .ok (.needsRename ⟨2⟩ "count") := by
  have hsize : project.renameTarget ⟨8⟩ = ⟨8⟩ := by cbv
  have hcount : project.renameTarget ⟨9⟩ = ⟨2⟩ := by cbv
  constructor
  · change Except.ok (AccessorClass.needsRename (project.renameTarget ⟨8⟩) "size") = _
    rw [hsize]
  · change Except.ok (AccessorClass.needsRename (project.renameTarget ⟨9⟩) "count") = _
    rw [hcount]

theorem not_keepsCaptors_project :
    ¬ project.KeepsCaptors [(⟨8⟩, "size"), (⟨2⟩, "count")] := by
  have hsize : project.renamedTogether ⟨8⟩ = [⟨8⟩] := by cbv
  have hcount : project.renamedTogether ⟨2⟩ = [⟨2⟩, ⟨9⟩, ⟨4⟩] := by cbv
  have hmem : pageSize ∈ page.methods := List.mem_cons_self
  have hkept : pageSize.id ∉ project.reach [(⟨8⟩, "size")] := by
    rw [Project.reach, List.flatMap_singleton, hsize]
    decide
  intro hkeeps
  obtain ⟨m, hm⟩ := hkeeps [] (⟨8⟩, "size") [(⟨2⟩, "count")] rfl page
    (by decide) ⟨⟨1⟩, ⟨8⟩, "getSize"⟩ (by decide) (project.mem_renamedTogether_self ⟨8⟩)
    ⟨⟨5⟩, rfl, by decide⟩ ⟨pageSize, hmem, rfl, rfl, rfl, hkept⟩
  obtain rfl : m = pageSize := List.mem_singleton.mp hm.mem
  refine hm.kept (Project.mem_reach_iff.mpr ⟨(⟨2⟩, "count"), .tail _ (.head _), ?_⟩)
  rw [hcount]
  decide

/-- The call in the subclass is reported as captured by a method that is renamed itself. -/
theorem not_judgedByPlan_collect_project :
    project.DistinctElements ∧ ∃ collected, project.collect candidate true = .ok collected ∧
      ¬ collected.JudgedByPlan project (project.renamesFor candidate.fields.entries) := by
  have hdistinct : project.DistinctElements := by decide
  obtain ⟨hsize, hcount⟩ := classify_project
  have hcollect : ∃ collected, project.collect candidate true = .ok collected := by
    refine Project.exists_collect_iff.mpr ⟨?_, fun _ => ⟨_, rfl⟩⟩
    intro entry hentry
    rcases List.mem_pair.mp hentry with rfl | rfl
    · exact Project.collectible_of_needsRename rfl hsize rfl
    · exact Project.collectible_of_needsRename rfl hcount rfl
  obtain ⟨collected, hcollect⟩ := hcollect
  have hrenames : project.renamesFor candidate.fields.entries =
      [(⟨8⟩, "size"), (⟨2⟩, "count")] := by
    rw [Project.renamesFor, candidate,
      List.filterMap_cons_some (Project.renameFor?_eq_some_iff.mpr hsize),
      List.filterMap_cons_some (Project.renameFor?_eq_some_iff.mpr hcount), List.filterMap_nil]
  refine ⟨hdistinct, collected, hcollect, ?_⟩
  rw [Project.judgedByPlan_collect_iff hdistinct hcollect, hrenames]
  exact not_keepsCaptors_project

end Tables

end ClassToRecord
