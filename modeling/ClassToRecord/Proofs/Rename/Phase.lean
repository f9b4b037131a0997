import ClassToRecord.Proofs.Usage.Coverage

namespace ClassToRecord

namespace Project

/-- Renames that are carried out with the sites collected for them are one pass of new names. -/
theorem renamedBy_of_renamesTo {p q : Project} {acc : CollectedUsages} (hcovers : acc.Covers p)
    (helements : p.DistinctElements) (hreferences : p.DistinctReferences)
    (hrun : RenamesTo (sitesOf acc.usages) p acc.plan.entries q) :
    q = p.renamedBy acc.plan.get? :=
  hrun.eq_renamedBy helements acc.plan.nodup_keys fun _ hkey => hcovers.exactSites hreferences hkey

/-- Carrying out the collected renames gives every element of the plan and every reference to it
    the planned name, and changes nothing else. No reference to a planned element keeps its old
    name, and whatever overrides a renamed method, in any number of steps, is planned with it. -/
theorem applyRenames_collected_eq_renamedBy {p q : Project} {c : Candidate}
    {searchWeakened : Bool} {collected : CollectedUsages} {count : Nat}
    (helements : p.DistinctElements) (hreferences : p.DistinctReferences)
    (hcollect : p.collect c searchWeakened = .ok collected)
    (happly : p.applyRenames collected.plan collected.usages = ⟨q, .ok count⟩) :
    q = p.renamedBy collected.plan.get? ∧
    (∀ r ∈ q.references, ∀ newName, collected.plan.get? r.target = some newName →
      r.name = newName) ∧
    (∀ target newName, .accessorRename target newName none ∈ collected.usages →
      ∀ x, p.Overrides x target → x = target ∨ (p.method? target).isSome →
        (collected.plan.get? x).isSome) := by
  have hcovers := collect_covers hcollect
  obtain ⟨hrun, _⟩ := applyRenames_eq_ok_iff.mp happly
  have hq := renamedBy_of_renamesTo hcovers helements hreferences hrun
  refine ⟨hq, ?_, ?_⟩
  · intro r hr newName hname
    rw [hq, references_renamedBy] at hr
    obtain ⟨old, _, rfl⟩ := List.mem_map.mp hr
    rw [Reference.target_renamedBy] at hname
    rw [Reference.name_renamedBy, hname, Option.getD_some]
  · intro target newName hmarker x hx hmethod
    rw [OrderedMap.isSome_get?_iff]
    refine hcovers.together target newName hmarker x ?_
    rcases hmethod with rfl | hmethod
    · exact p.mem_renamedTogether_self x
    · rw [renamedTogether, if_pos hmethod]
      exact mem_hierarchy_iff.mpr hx

end Project

namespace Points

/-- An interface that declares an accessor and refers to nothing. -/
def shape : Declaration where
  id := ⟨1⟩
  file := "Shape.java"
  children := [
    .keyword .interface, .trivia (.whitespace " "), .identifier "Shape", .code (.ofText " \x7b "),
    .method {
      id := ⟨2⟩
      modifiers := ⟨.public, []⟩
      returnType? := some "int"
      name := "getX"
      parameters := []
      body := .ofText ";" },
    .code (.ofText " \x7d")]

/-- A class with one field, its constructor and an accessor that implements the interface. -/
def point : Declaration where
  id := ⟨3⟩
  file := "Point.java"
  children := [
    .modifiers ⟨.public, []⟩, .keyword .class, .trivia (.whitespace " "), .identifier "Point",
    .code (.ofText " \x7b "),
    .field { id := ⟨4⟩, modifiers := ⟨.private, []⟩, type := "int", name := "x" },
    .trivia (.whitespace " "),
    .method {
      id := ⟨5⟩
      modifiers := ⟨.public, []⟩
      returnType? := none
      name := "Point"
      parameters := [⟨⟨6⟩, "int", "a"⟩]
      body := .ofText " \x7b this." ++ ⟨[.ref ⟨⟨1⟩, ⟨4⟩, "x"⟩]⟩ ++ .ofText " = " ++
        ⟨[.ref ⟨⟨2⟩, ⟨6⟩, "a"⟩]⟩ ++ .ofText "; \x7d" },
    .trivia (.whitespace " "),
    .method {
      id := ⟨7⟩
      modifiers := ⟨.public, []⟩
      returnType? := some "int"
      name := "getX"
      parameters := []
      body := .ofText " \x7b return " ++ ⟨[.ref ⟨⟨3⟩, ⟨4⟩, "x"⟩]⟩ ++ .ofText "; \x7d"
      superMethods := [⟨2⟩] },
    .code (.ofText " \x7d")]

/-- A class that calls the accessor. -/
def user : Declaration where
  id := ⟨8⟩
  file := "User.java"
  children := [
    .keyword .class, .trivia (.whitespace " "), .identifier "User", .code (.ofText " \x7b "),
    .method {
      id := ⟨9⟩
      modifiers := ⟨.public, []⟩
      returnType? := some "int"
      name := "read"
      parameters := [⟨⟨10⟩, "Point", "p"⟩]
      body := .ofText " \x7b return " ++ ⟨[.ref ⟨⟨4⟩, ⟨10⟩, "p"⟩]⟩ ++ .ofText "." ++
        ⟨[.ref ⟨⟨5⟩, ⟨7⟩, "getX"⟩]⟩ ++ .ofText "(); \x7d" },
    .code (.ofText " \x7d")]

/-- A small project: an interface, the class to convert, and a caller. -/
def project : Project := ⟨[shape, point, user], 10, 5⟩

/-- The class of the project, with its only field bound to the accessor. -/
def candidate : Candidate where
  declaration := ⟨3⟩
  fields := ⟨[(⟨4⟩, some ⟨⟨7⟩, ⟨4⟩, false⟩)], by decide⟩
  constructor? := some ⟨5⟩

/-- What converting the class affects: the accessor and the method that it overrides, and the call
    in the third declaration. -/
def collected : CollectedUsages where
  usages := [.accessorRename ⟨2⟩ "x" none,
    .accessorRename ⟨7⟩ "x" (some ⟨⟨5⟩, ⟨7⟩, ⟨8⟩, "User.java", none⟩)]
  plan := ⟨[(⟨2⟩, "x"), (⟨7⟩, "x")], by decide⟩

theorem collect_eq : project.collect candidate true = .ok collected := by
  have htarget : project.renameTarget ⟨7⟩ = ⟨2⟩ := by cbv
  have hhierarchy : project.hierarchy ⟨2⟩ = [⟨2⟩, ⟨7⟩] := by cbv
  have hclass : project.classify ⟨4⟩ (some ⟨⟨7⟩, ⟨4⟩, false⟩) = .ok (.needsRename ⟨2⟩ "x") := by
    rw [← htarget]
    rfl
  have hrename : project.collectRename ⟨2⟩ "x" {} = .ok collected := by
    unfold Project.collectRename Project.prepareRenaming Project.findUsages Project.renamedTogether
    rw [hhierarchy]
    rfl
  have hfield : project.collectField {} (⟨4⟩, some ⟨⟨7⟩, ⟨4⟩, false⟩) = .ok collected := by
    rw [Project.collectField, hclass]
    exact hrename
  rw [Project.collect, candidate, List.foldlM_cons, hfield]
  rfl

/-- The renames of the small project change the interface, the class and the caller. -/
theorem applyRenames_collected_eq_renamedBy_project :
    project.DistinctElements ∧ project.DistinctReferences ∧
    project.collect candidate true = .ok collected ∧
    ∃ q, project.applyRenames collected.plan collected.usages = ⟨q, .ok 1⟩ ∧
      q = project.renamedBy collected.plan.get? ∧
      ∀ r ∈ q.references, ∀ newName, collected.plan.get? r.target = some newName →
        r.name = newName := by
  have helements : project.DistinctElements := by decide
  have hreferences : project.DistinctReferences := by decide
  have happly : project.applyRenames collected.plan collected.usages =
      ⟨project.renamedBy collected.plan.get?, .ok 1⟩ := rfl
  obtain ⟨hrenamed, hspelled, _⟩ := Project.applyRenames_collected_eq_renamedBy helements
    hreferences collect_eq happly
  exact ⟨helements, hreferences, collect_eq, _, happly, hrenamed, hspelled⟩

end Points

end ClassToRecord
