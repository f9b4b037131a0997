import ClassToRecord.Proofs.Usage.Coverage
import ClassToRecord.Proofs.Usage.Run

namespace ClassToRecord

/-- Usages and plan tell the same story: an element has the name in the plan that its usages say,
    what is renamed together gets the same name, and no reference is found twice. -/
structure CollectedUsages.Coherent (acc : CollectedUsages) (p : Project) : Prop where
  named : ∀ element newName site?, .accessorRename element newName site? ∈ acc.usages →
    acc.plan.get? element = some newName
  together : ∀ target newName, .accessorRename target newName none ∈ acc.usages →
    ∀ x ∈ p.renamedTogether target, acc.plan.get? x = some newName
  once : ((sitesOf acc.usages).map ReferenceSite.ref).Nodup

namespace Project

variable {p : Project}

/-- Renames that meet agree on the name, and no reference is to an element that two of them have in
    common. -/
structure RenamesCompatible (p : Project) (renames : List (ElementId × String)) : Prop where
  sameName : ∀ r ∈ renames, ∀ s ∈ renames, ∀ x ∈ p.renamedTogether r.1,
    x ∈ p.renamedTogether s.1 → r.2 = s.2
  ownReferences : renames.Pairwise fun r s =>
    ∀ ref ∈ p.references, ref.target ∈ p.renamedTogether r.1 → ref.target ∉ p.renamedTogether s.1

section Collected

variable {c : Candidate} {searchWeakened : Bool} {collected : CollectedUsages}

/-- What is renamed together gets one name exactly if renames that meet agree on it. -/
theorem together_iff_of_collect (h : p.collect c searchWeakened = .ok collected) :
    (∀ target newName, .accessorRename target newName none ∈ collected.usages →
        ∀ x ∈ p.renamedTogether target, collected.plan.get? x = some newName) ↔
      ∀ r ∈ p.renamesFor c.fields.entries, ∀ s ∈ p.renamesFor c.fields.entries,
        ∀ x ∈ p.renamedTogether r.1, x ∈ p.renamedTogether s.1 → r.2 = s.2 := by
  constructor
  · intro htogether r hr s hs x hxr hxs
    have hfirst := htogether r.1 r.2 ((marker_mem_collect_iff h).mpr hr) x hxr
    have hsecond := htogether s.1 s.2 ((marker_mem_collect_iff h).mpr hs) x hxs
    exact Option.some.inj (hfirst.symm.trans hsecond)
  · intro hagree target newName hmarker x hx
    -- whatever name `x` has in the plan comes from some marker, which has to agree with this one
    have hkey := (collect_covers h).together target newName hmarker x hx
    obtain ⟨name, hname⟩ := Option.isSome_iff_exists.mp (OrderedMap.isSome_get?_iff.mpr hkey)
    obtain ⟨other, hother, hin⟩ := exists_marker_of_get? h hname
    obtain rfl : newName = name :=
      hagree (target, newName) ((marker_mem_collect_iff h).mp hmarker) (other, name)
        ((marker_mem_collect_iff h).mp hother) x hx hin
    exact hname

/-- No reference is found twice exactly if no reference is to an element that two renames reach. -/
theorem once_iff_of_collect (hreferences : p.DistinctReferences)
    (h : p.collect c searchWeakened = .ok collected) :
    ((sitesOf collected.usages).map ReferenceSite.ref).Nodup ↔
      (p.renamesFor c.fields.entries).Pairwise fun r s => ∀ ref ∈ p.references,
        ref.target ∈ p.renamedTogether r.1 → ref.target ∉ p.renamedTogether s.1 := by
  have hnodup : ∀ rename ∈ p.renamesFor c.fields.entries,
      ((p.references.filter fun r => (p.renamedTogether rename.1).contains r.target).map
        Reference.id).Nodup :=
    fun rename _ => (List.filter_sublist.map Reference.id).nodup hreferences
  rw [map_ref_sitesOf_collect h, List.nodup_flatMap, and_iff_right hnodup]
  refine List.Pairwise.iff fun r s => ?_
  simp only [Function.onFun, List.disjoint_left, List.mem_map, List.mem_filter,
    List.contains_iff_mem]
  constructor
  · intro hdisjoint ref href hr hs
    exact hdisjoint ⟨ref, ⟨href, hr⟩, rfl⟩ ⟨ref, ⟨href, hs⟩, rfl⟩
  · rintro hown _ ⟨ref, ⟨href, hr⟩, rfl⟩ ⟨other, ⟨hother, hs⟩, hid⟩
    obtain rfl := List.inj_on_of_nodup_map hreferences hother href hid
    exact hown other hother hr hs

/-- Usages and plan are coherent exactly if the renames that the key fields call for agree. -/
theorem coherent_collect_iff (hreferences : p.DistinctReferences)
    (hcollect : p.collect c searchWeakened = .ok collected) :
    collected.Coherent p ↔ p.RenamesCompatible (p.renamesFor c.fields.entries) := by
  constructor
  · intro hcoherent
    exact ⟨(together_iff_of_collect hcollect).mp hcoherent.together,
      (once_iff_of_collect hreferences hcollect).mp hcoherent.once⟩
  · intro hagree
    have htogether := (together_iff_of_collect hcollect).mpr hagree.sameName
    refine ⟨?_, htogether, (once_iff_of_collect hreferences hcollect).mpr hagree.ownReferences⟩
    rintro element newName (_ | site) husage
    · exact htogether element newName husage element (p.mem_renamedTogether_self element)
    · obtain ⟨before, rename, after, hsplit, rfl, rfl, hsite⟩ :=
        (site_mem_collect_iff hcollect).mp husage
      have hrename : rename ∈ p.renamesFor c.fields.entries := by simp [hsplit]
      obtain ⟨_, _, r, _, _, hreached, rfl⟩ := mem_sitesUnder_iff.mp hsite
      exact htogether rename.1 rename.2 ((marker_mem_collect_iff hcollect).mpr hrename) r.target
        hreached

end Collected

end Project

namespace Siblings

/-- An interface with one method. -/
def shape : Declaration where
  id := ⟨1⟩
  file := "Shape.java"
  children := [
    .keyword .interface, .trivia (.whitespace " "), .identifier "Shape", .code (.ofText " \x7b "),
    .method {
      id := ⟨2⟩
      modifiers := ⟨.public, []⟩
      returnType? := some "int"
      name := "get"
      parameters := []
      body := .ofText ";" },
    .code (.ofText " \x7d")]

/-- A class that implements the method twice, by the accessors of two fields. -/
def point : Declaration where
  id := ⟨3⟩
  file := "Point.java"
  children := [
    .keyword .class, .trivia (.whitespace " "), .identifier "Point",
    .code (.ofText " implements Shape \x7b "),
    .field { id := ⟨4⟩, modifiers := ⟨.private, []⟩, type := "int", name := "x" },
    .trivia (.whitespace " "),
    .field { id := ⟨5⟩, modifiers := ⟨.private, []⟩, type := "int", name := "y" },
    .trivia (.whitespace " "),
    .method {
      id := ⟨6⟩
      modifiers := ⟨.public, []⟩
      returnType? := some "int"
      name := "getX"
      parameters := []
      body := .ofText " \x7b return " ++ ⟨[.ref ⟨⟨1⟩, ⟨4⟩, "x"⟩]⟩ ++ .ofText "; \x7d"
      superMethods := [⟨2⟩] },
    .trivia (.whitespace " "),
    .method {
      id := ⟨7⟩
      modifiers := ⟨.public, []⟩
      returnType? := some "int"
      name := "getY"
      parameters := []
      body := .ofText " \x7b return " ++ ⟨[.ref ⟨⟨2⟩, ⟨5⟩, "y"⟩]⟩ ++ .ofText "; \x7d"
      superMethods := [⟨2⟩] },
    .code (.ofText " \x7d")]

/-- Code elsewhere that calls the second accessor. -/
def user : Declaration where
  id := ⟨8⟩
  file := "User.java"
  children := [
    .keyword .class, .trivia (.whitespace " "), .identifier "User", .code (.ofText " \x7b "),
    .method {
      id := ⟨9⟩
      modifiers := ⟨.public, []⟩
      returnType? := some "int"
      name := "read"
      parameters := [⟨⟨10⟩, "Point", "p"⟩]
      body := .ofText " \x7b return " ++ ⟨[.ref ⟨⟨3⟩, ⟨10⟩, "p"⟩]⟩ ++ .ofText "." ++
        ⟨[.ref ⟨⟨4⟩, ⟨7⟩, "getY"⟩]⟩ ++ .ofText "(); \x7d" },
    .code (.ofText " \x7d")]

def project : Project := ⟨[shape, point, user], 10, 4⟩

def candidate : Candidate where
  declaration := ⟨3⟩
  fields := ⟨[(⟨4⟩, some ⟨⟨6⟩, ⟨4⟩, false⟩), (⟨5⟩, some ⟨⟨7⟩, ⟨5⟩, false⟩)], by decide⟩

/-- Both accessors are renamed from the method of the interface on, each to its own field. -/
theorem classify_project :
    project.classify ⟨4⟩ (some ⟨⟨6⟩, ⟨4⟩, false⟩) = .ok (.needsRename ⟨2⟩ "x") ∧
      project.classify ⟨5⟩ (some ⟨⟨7⟩, ⟨5⟩, false⟩) = .ok (.needsRename ⟨2⟩ "y") := by
  have hx : project.renameTarget ⟨6⟩ = ⟨2⟩ := by cbv
  have hy : project.renameTarget ⟨7⟩ = ⟨2⟩ := by cbv
  constructor
  · change Except.ok (AccessorClass.needsRename (project.renameTarget ⟨6⟩) "x") = _
    rw [hx]
  · change Except.ok (AccessorClass.needsRename (project.renameTarget ⟨7⟩) "y") = _
    rw [hy]

/-- The interface cannot follow both fields. -/
theorem not_coherent_collect_project :
    project.DistinctElements ∧ project.DistinctReferences ∧
      ∃ collected, project.collect candidate true = .ok collected ∧
        ¬ collected.Coherent project := by
  have hreferences : project.DistinctReferences := by decide
  obtain ⟨hx, hy⟩ := classify_project
  have hcollect : ∃ collected, project.collect candidate true = .ok collected := by
    refine Project.exists_collect_iff.mpr ⟨?_, fun _ => ⟨_, rfl⟩⟩
    intro entry hentry
    rcases List.mem_pair.mp hentry with rfl | rfl
    · exact Project.collectible_of_needsRename rfl hx rfl
    · exact Project.collectible_of_needsRename rfl hy rfl
  obtain ⟨collected, hcollect⟩ := hcollect
  refine ⟨by decide, hreferences, collected, hcollect, ?_⟩
  rw [Project.coherent_collect_iff hreferences hcollect]
  intro hagree
  have hself := project.mem_renamedTogether_self ⟨2⟩
  have hsame := hagree.sameName (⟨2⟩, "x") (Project.mem_renamesFor_iff.mpr ⟨_, .head _, hx⟩)
    (⟨2⟩, "y") (Project.mem_renamesFor_iff.mpr ⟨_, .tail _ (.head _), hy⟩) ⟨2⟩ hself hself
  exact absurd hsame (by decide)

end Siblings

end ClassToRecord
