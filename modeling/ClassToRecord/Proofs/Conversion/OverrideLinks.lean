import ClassToRecord.Proofs.Conversion.Analysis
import ClassToRecord.Proofs.Conversion.Methods

open Relation

namespace ClassToRecord

namespace Project

/-- Methods have the names of the declared methods that they override directly. -/
def LinksAgree (p : Project) : Prop :=
  ∀ m ∈ p.methods, ∀ s ∈ p.methods, s.id ∈ m.superMethods → m.name = s.name

instance (p : Project) : Decidable p.LinksAgree :=
  inferInstanceAs (Decidable (∀ m ∈ p.methods, ∀ s ∈ p.methods, _ → _))

/-- No method overrides two different declared methods directly. -/
def SingleSupers (p : Project) : Prop :=
  ∀ m ∈ p.methods, ∀ s ∈ p.methods, ∀ t ∈ p.methods, s.id ∈ m.superMethods →
    t.id ∈ m.superMethods → s.id = t.id

instance (p : Project) : Decidable p.SingleSupers :=
  inferInstanceAs (Decidable (∀ m ∈ p.methods, ∀ s ∈ p.methods, ∀ t ∈ p.methods, _ → _ → _))

/-- Renames whose hierarchies share a method bring the same name. -/
def RenamesAgree (p : Project) (usages : List Usage) : Prop :=
  ∀ target newName other otherName, .accessorRename target newName none ∈ usages →
    .accessorRename other otherName none ∈ usages →
      ∀ x, p.Overrides x target → p.Overrides x other → newName = otherName

section Chains

variable {p : Project} {m s : Method}

/-- Where links agree, a method has the name of all that it overrides in any number of steps. -/
theorem LinksAgree.name_eq (hlinks : p.LinksAgree) (hdistinct : p.DistinctElements)
    (hs : s ∈ p.methods) (hm : m ∈ p.methods) (h : p.Overrides m.id s.id) : m.name = s.name := by
  suffices ∀ x, p.Overrides x s.id → ∀ m ∈ p.methods, m.id = x → m.name = s.name from
    this m.id h m hm rfl
  intro x hx
  induction hx using ReflTransGen.head_induction_on with
  | refl =>
    intro m hm hid
    rw [hdistinct.method_eq hm hs hid]
  | head hstep hrest ih =>
    intro m hm hid
    obtain ⟨k, hk, rfl⟩ := exists_method_of_overrides hs hrest
    obtain ⟨m', hm', hid', hsuper⟩ := hstep
    obtain rfl := hdistinct.method_eq hm hm' (hid.trans hid'.symm)
    rw [hlinks m hm k hk hsuper]
    exact ih k hk rfl

/-- What a method of a hierarchy overrides directly is in the hierarchy, if each method overrides
    one declared method at most and the climb has ended at the top of the hierarchy. -/
theorem SingleSupers.overrides_of_link (hsingle : p.SingleSupers) (hdistinct : p.DistinctElements)
    {accessor : ElementId} {top : Method} (htop : top ∈ p.methods)
    (htarget : top.id = p.renameTarget accessor) (hm : m ∈ p.methods) (hs : s ∈ p.methods)
    (hlink : s.id ∈ m.superMethods) (habove : p.Overrides m.id top.id) :
    p.Overrides s.id top.id := by
  have hother : ∃ x ∈ m.superMethods, p.Overrides x top.id := by
    rcases habove.cases_head with hid | ⟨x, ⟨m', hm', hid, hx⟩, hrest⟩
    · obtain rfl := hdistinct.method_eq hm htop hid
      have hsupers : p.superMethods m.id = m.superMethods := by
        rw [superMethods, hdistinct.method?_eq_some_iff.mpr ⟨hm, rfl⟩, Option.elim_some]
      cases hlist : m.superMethods with
      | nil => simp [hlist] at hlink
      | cons x rest =>
        refine ⟨x, List.mem_cons_self, ?_⟩
        rw [htarget]
        refine overrides_renameTarget_of_head? ?_
        rw [← htarget, hsupers, hlist, List.head?_cons]
    · obtain rfl := hdistinct.method_eq hm' hm hid
      exact ⟨x, hx, hrest⟩
  obtain ⟨x, hx, hover⟩ := hother
  obtain ⟨k, hk, rfl⟩ := exists_method_of_overrides htop hover
  rwa [hsingle m hm s hs k hk hlink hx]

end Chains

section Planned

variable {p : Project} {collected : CollectedUsages} {m s : Method} {newName : String}

/-- A method that gets a new name belongs to the hierarchy of a rename that brings it. It starts at
    the top above an accessor that has another name. -/
theorem exists_top_of_planned (hstems : collected.Stems p) (hm : m ∈ p.methods)
    (hplanned : collected.plan.get? m.id = some newName) :
    ∃ accessor ∈ p.methods, ∃ top ∈ p.methods, top.id = p.renameTarget accessor.id ∧
      .accessorRename top.id newName none ∈ collected.usages ∧ accessor.name ≠ newName ∧
      p.Overrides m.id top.id := by
  obtain ⟨target, hmarker, htogether⟩ := hstems.named m.id newName hplanned
  obtain ⟨accessor, haccessor, hname, rfl⟩ := hstems.marked target newName hmarker
  have habove := overrides_of_mem_renamedTogether htogether
  have htop : ∃ top ∈ p.methods, top.id = p.renameTarget accessor.id := by
    cases htarget : p.method? (p.renameTarget accessor.id) with
    | some top =>
      obtain ⟨htop, hid⟩ := of_method?_eq_some htarget
      exact ⟨top, htop, hid⟩
    | none =>
      rw [renamedTogether, htarget, Option.isSome_none, if_neg Bool.false_ne_true] at htogether
      exact ⟨m, hm, List.mem_singleton.mp htogether⟩
  obtain ⟨top, htop, hid⟩ := htop
  exact ⟨accessor, haccessor, top, htop, hid, hid ▸ hmarker, hname, hid ▸ habove⟩

/-- A rename reaches all that overrides the method where it starts. -/
theorem isSome_get?_of_marker (hdistinct : p.DistinctElements) (hcovers : collected.Covers p)
    {top : Method} (htop : top ∈ p.methods)
    (hmarker : .accessorRename top.id newName none ∈ collected.usages) {x : ElementId}
    (h : p.Overrides x top.id) : (collected.plan.get? x).isSome = true := by
  rw [OrderedMap.isSome_get?_iff]
  refine hcovers.together top.id newName hmarker x ?_
  rw [renamedTogether, hdistinct.method?_eq_some_iff.mpr ⟨htop, rfl⟩, Option.isSome_some,
    if_pos rfl]
  exact mem_hierarchy_iff.mpr h

/-- What overrides a method that gets a new name directly gets one as well. -/
theorem get?_ne_none_of_link (hdistinct : p.DistinctElements) (hcovers : collected.Covers p)
    (hstems : collected.Stems p) (hm : m ∈ p.methods) (hs : s ∈ p.methods)
    (hlink : s.id ∈ m.superMethods) (hplanned : collected.plan.get? s.id = some newName) :
    collected.plan.get? m.id ≠ none := by
  obtain ⟨_, _, top, htop, _, hmarker, _, habove⟩ := exists_top_of_planned hstems hs hplanned
  have hstep : p.Overrides m.id s.id := .single (overridesDirectly_of_mem hm hlink)
  exact Option.isSome_iff_ne_none.mp
    (isSome_get?_of_marker hdistinct hcovers htop hmarker (hstep.trans habove))

/-- A new name differs from the old one. -/
theorem LinksAgree.name_ne_of_planned (hlinks : p.LinksAgree) (hdistinct : p.DistinctElements)
    (hstems : collected.Stems p) (hm : m ∈ p.methods)
    (hplanned : collected.plan.get? m.id = some newName) : m.name ≠ newName := by
  obtain ⟨accessor, haccessor, top, htop, htarget, _, hname, habove⟩ :=
    exists_top_of_planned hstems hm hplanned
  have haccessorTop : p.Overrides accessor.id top.id :=
    htarget ▸ p.overrides_renameTarget accessor.id
  rw [hlinks.name_eq hdistinct htop hm habove,
    ← hlinks.name_eq hdistinct htop haccessor haccessorTop]
  exact hname

/-- The ends of a link have the same name under a plan exactly if the plan treats them alike. -/
theorem LinksAgree.getD_eq_iff (hlinks : p.LinksAgree) (hdistinct : p.DistinctElements)
    (hcovers : collected.Covers p) (hstems : collected.Stems p) (hm : m ∈ p.methods)
    (hs : s ∈ p.methods) (hlink : s.id ∈ m.superMethods) :
    (collected.plan.get? m.id).getD m.name = (collected.plan.get? s.id).getD s.name ↔
      collected.plan.get? m.id = collected.plan.get? s.id := by
  have hsame := hlinks m hm s hs hlink
  cases hmPlan : collected.plan.get? m.id with
  | none =>
    cases hsPlan : collected.plan.get? s.id with
    | none => simpa using hsame
    | some newName =>
      exact absurd hmPlan (get?_ne_none_of_link hdistinct hcovers hstems hm hs hlink hsPlan)
  | some newName =>
    cases hsPlan : collected.plan.get? s.id with
    | none =>
      have hne := hlinks.name_ne_of_planned hdistinct hstems hm hmPlan
      simpa using fun heq : newName = s.name => hne (hsame.trans heq.symm)
    | some other => simp

/-- A plan treats the ends of a link alike if there is nothing else that the method overrides, and
    if renames that meet bring the same name. -/
theorem SingleSupers.get?_eq (hsingle : p.SingleSupers) (hdistinct : p.DistinctElements)
    (hcovers : collected.Covers p) (hstems : collected.Stems p)
    (hagree : p.RenamesAgree collected.usages) (hm : m ∈ p.methods) (hs : s ∈ p.methods)
    (hlink : s.id ∈ m.superMethods) :
    collected.plan.get? m.id = collected.plan.get? s.id := by
  cases hmPlan : collected.plan.get? m.id with
  | none =>
    cases hsPlan : collected.plan.get? s.id with
    | none => rfl
    | some newName =>
      exact absurd hmPlan (get?_ne_none_of_link hdistinct hcovers hstems hm hs hlink hsPlan)
  | some newName =>
    obtain ⟨_, _, top, htop, htarget, hmarker, _, habove⟩ :=
      exists_top_of_planned hstems hm hmPlan
    have hsAbove := hsingle.overrides_of_link hdistinct htop htarget hm hs hlink habove
    obtain ⟨other, hsPlan⟩ := Option.isSome_iff_exists.mp
      (isSome_get?_of_marker hdistinct hcovers htop hmarker hsAbove)
    obtain ⟨_, _, otherTop, _, _, hotherMarker, _, hsOther⟩ :=
      exists_top_of_planned hstems hs hsPlan
    rw [hsPlan, hagree top.id newName otherTop.id other hmarker hotherMarker s.id hsAbove hsOther]

end Planned

section Converted

variable {p q : Project} {c : Candidate} {collected : CollectedUsages}
  (hcovers : collected.Covers p) (helements : p.DistinctElements)
  (hreferences : p.DistinctReferences)
  (hconverts : p.Converts c collected.plan collected.usages q)

include hcovers helements hreferences hconverts

/-- A link between methods of a converted project continues one between the old methods. -/
theorem exists_link_of_converts {m s : Method} (hm : m ∈ q.methods) (hs : s ∈ q.methods)
    (hlink : s.id ∈ m.superMethods) :
    ∃ old ∈ p.methods, ∃ other ∈ p.methods, other.id ∈ old.superMethods ∧
      m.Continues collected.plan.get? old ∧ s.Continues collected.plan.get? other := by
  obtain ⟨d, hd, hm⟩ := mem_methods_iff.mp hm
  obtain ⟨e, he, hs⟩ := mem_methods_iff.mp hs
  obtain ⟨d', hd', -, old, hold, hmCont⟩ :=
    exists_continued_of_converts hcovers helements hreferences hconverts hd hm
  obtain ⟨e', he', -, other, hother, hsCont⟩ :=
    exists_continued_of_converts hcovers helements hreferences hconverts he hs
  refine ⟨old, mem_methods_iff.mpr ⟨d', hd', hold⟩, other, mem_methods_iff.mpr ⟨e', he', hother⟩,
    ?_, hmCont, hsCont⟩
  rwa [← hmCont.superMethods, ← hsCont.id]

/-- A link of a converted project joins methods of the same name exactly if the plan treats its ends
    alike. -/
theorem LinksAgree.name_eq_iff_of_converts (hlinks : p.LinksAgree) (hstems : collected.Stems p)
    {m s : Method} (hm : m ∈ q.methods) (hs : s ∈ q.methods) (hlink : s.id ∈ m.superMethods) :
    m.name = s.name ↔ collected.plan.get? m.id = collected.plan.get? s.id := by
  obtain ⟨old, hold, other, hother, holdLink, hmCont, hsCont⟩ :=
    exists_link_of_converts hcovers helements hreferences hconverts hm hs hlink
  rw [hmCont.name, hsCont.name, hmCont.id, hsCont.id]
  exact hlinks.getD_eq_iff helements hcovers hstems hold hother holdLink

end Converted

/-- If overriding methods have the names of what they override, then after a conversion a link
    joins methods of the same name exactly if the plan gives both of them the same new name, or
    neither of them one. All links do if no method overrides two different declared methods
    directly, and if renames that meet bring the same name. -/
theorem runConversion_links {p : Project} {c : Candidate} {settings : Settings}
    {confirm : Question → Except Failure Bool} {now : Timestamp} {prepared : PreparedConversion}
    {report : ConversionReport} (helements : p.DistinctElements)
    (hreferences : p.DistinctReferences) (hlinks : p.LinksAgree)
    (hprepare : p.prepare c settings now = .ok prepared)
    (hrun : (p.runConversion c settings confirm now).result = .ok report) :
    (∀ m ∈ (p.runConversion c settings confirm now).project.methods,
      ∀ s ∈ (p.runConversion c settings confirm now).project.methods, s.id ∈ m.superMethods →
        (m.name = s.name ↔ prepared.plan.get? m.id = prepared.plan.get? s.id)) ∧
    (p.SingleSupers → p.RenamesAgree prepared.usages →
      (p.runConversion c settings confirm now).project.LinksAgree) := by
  rw [runConversion_of_prepare hprepare] at hrun ⊢
  obtain ⟨collected, pre, hcollect, -, rfl⟩ := prepare_eq_ok_iff.mp hprepare
  obtain ⟨-, -, hconverts, -⟩ := PreparedConversion.commit_eq_ok_iff.mp ⟨hrun, rfl⟩
  have hcovers := collect_covers hcollect
  have hstems := collect_stems hcollect
  have hexact := fun m hm s hs => hlinks.name_eq_iff_of_converts hcovers helements hreferences
    hconverts hstems (m := m) (s := s) hm hs
  refine ⟨hexact, fun hsingle hagree m hm s hs hlink => ?_⟩
  obtain ⟨old, hold, other, hother, holdLink, hmCont, hsCont⟩ :=
    exists_link_of_converts hcovers helements hreferences hconverts hm hs hlink
  rw [hexact m hm s hs hlink, hmCont.id, hsCont.id]
  exact hsingle.get?_eq helements hcovers hstems hagree hold hother holdLink

end Project

namespace Books

/-- An interface that declares an accessor. -/
def interface (id : Nat) (file name : String) (method : Nat) (superMethods : List ElementId) :
    Declaration where
  id := ⟨id⟩
  file
  children := [
    .keyword .interface, .trivia (.whitespace " "), .identifier name, .code (.ofText " \x7b "),
    .method {
      id := ⟨method⟩
      modifiers := ⟨.public, []⟩
      returnType? := some "String"
      name := "getName"
      parameters := []
      body := .ofText ";"
      superMethods },
    .code (.ofText " \x7d")]

def named : Declaration := interface 1 "Named.java" "Named" 2 []

def labeled : Declaration := interface 3 "Labeled.java" "Labeled" 4 []

/-- An interface over the first one, and perhaps over the second one as well. -/
def titled (both : Bool) : Declaration :=
  interface 5 "Titled.java" "Titled" 6 (if both then [⟨2⟩, ⟨4⟩] else [⟨2⟩])

/-- A class that implements the accessor. -/
def book : Declaration where
  id := ⟨7⟩
  file := "Book.java"
  children := [
    .keyword .class, .trivia (.whitespace " "), .identifier "Book", .code (.ofText " \x7b "),
    .field { id := ⟨8⟩, modifiers := ⟨.private, []⟩, type := "String", name := "name" },
    .trivia (.whitespace " "),
    .method {
      id := ⟨9⟩
      modifiers := ⟨.public, []⟩
      returnType? := some "String"
      name := "getName"
      parameters := []
      body := .ofText " \x7b return " ++ ⟨[.ref ⟨⟨1⟩, ⟨8⟩, "name"⟩]⟩ ++ .ofText "; \x7d"
      superMethods := [⟨6⟩] },
    .code (.ofText " \x7d")]

def project (both : Bool) : Project := ⟨[named, labeled, titled both, book], 9, 1⟩

def candidate : Candidate where
  declaration := ⟨7⟩
  fields := ⟨[(⟨8⟩, some ⟨⟨9⟩, ⟨8⟩, false⟩)], by decide⟩

/-- The rename starts at the interface that the class reaches first, and it never comes to the
    other one. -/
def collected : CollectedUsages where
  usages := [.accessorRename ⟨2⟩ "name" none]
  plan := ⟨[(⟨2⟩, "name"), (⟨6⟩, "name"), (⟨9⟩, "name")], by decide⟩

variable (both : Bool)

theorem collect_eq : (project both).collect candidate true = .ok collected := by
  have htarget : (project both).renameTarget ⟨9⟩ = ⟨2⟩ := by cases both <;> cbv
  have hhierarchy : (project both).hierarchy ⟨2⟩ = [⟨2⟩, ⟨6⟩, ⟨9⟩] := by cases both <;> cbv
  have hvisibility : (project both).knownVisibility ⟨8⟩ = .ok .private := by cases both <;> rfl
  have hclass : (project both).classify ⟨8⟩ (some ⟨⟨9⟩, ⟨8⟩, false⟩) =
      .ok (.needsRename ⟨2⟩ "name") := by
    rw [← htarget]
    cases both <;> rfl
  have hrename : (project both).collectRename ⟨2⟩ "name" {} = .ok collected := by
    unfold Project.collectRename Project.prepareRenaming Project.findUsages Project.renamedTogether
    rw [hhierarchy]
    cases both <;> rfl
  have hfield : (project both).collectField {} (⟨8⟩, some ⟨⟨9⟩, ⟨8⟩, false⟩) = .ok collected := by
    rw [Project.collectField, hvisibility, hclass]
    exact hrename
  rw [Project.collect, candidate, List.foldlM_cons, hfield]
  cases both <;> rfl

theorem analyze_isEmpty :
    ((project both).analyze candidate collected.usages collected.plan).isEmpty = true := by
  cases both <;> cbv

theorem converts_project :
    ∃ q, (project both).Converts candidate collected.plan collected.usages q := by
  have happly : (project both).applyRenames collected.plan collected.usages =
      ⟨(project both).renamedBy collected.plan.get?, .ok 0⟩ := by cases both <;> rfl
  have hrecord : ∃ record,
      ((project both).renamedBy collected.plan.get?).rebuildRecord candidate = .ok record := by
    cases both <;> exact ⟨_, rfl⟩
  obtain ⟨record, hrecord⟩ := hrecord
  exact Project.exists_converts_iff.mpr
    ⟨_, record, (Project.applyRenames_eq_ok_iff.mp happly).1, hrecord⟩

theorem exists_runConversion_eq_ok : ∃ prepared report q,
    (project both).prepare candidate .unattended default = .ok prepared ∧
      prepared.usages = collected.usages ∧
      ((project both).runConversion candidate .unattended (fun _ => .ok false) default).result =
        .ok report ∧
      ((project both).runConversion candidate .unattended (fun _ => .ok false) default).project =
        q ∧
      (project both).Converts candidate collected.plan collected.usages q := by
  have hclass : ((project both).declaration? candidate.declaration).isSome = true := by
    cases both <;> rfl
  obtain ⟨q, hconverts⟩ := converts_project both
  obtain ⟨prepared, report, hprepare, husages, _, _, hcommit, hproject⟩ :=
    Project.exists_commit_of_converts .unattended (fun _ => .ok false) default (collect_eq both)
      hclass (analyze_isEmpty both) hconverts
  rw [Project.runConversion_of_prepare hprepare]
  exact ⟨prepared, report, q, hprepare, husages, hcommit, hproject, hconverts⟩

/-- Where the method of an interface overrides one method only, all links agree again. -/
theorem runConversion_links_project :
    (project false).DistinctElements ∧ (project false).DistinctReferences ∧
    (project false).LinksAgree ∧ (project false).SingleSupers ∧
    ∃ prepared report, (project false).prepare candidate .unattended default = .ok prepared ∧
      ((project false).runConversion candidate .unattended (fun _ => .ok false) default).result =
        .ok report ∧
      (project false).RenamesAgree prepared.usages ∧
      ((project false).runConversion candidate .unattended
        (fun _ => .ok false) default).project.LinksAgree := by
  have helements : (project false).DistinctElements := by decide
  have hreferences : (project false).DistinctReferences := by decide
  have hlinks : (project false).LinksAgree := by decide
  have hsingle : (project false).SingleSupers := by decide
  obtain ⟨prepared, report, _, hprepare, husages, hrun, _⟩ := exists_runConversion_eq_ok false
  have hagree : (project false).RenamesAgree prepared.usages := by
    rw [husages]
    intro target newName other otherName hmarker hotherMarker _ _ _
    cases List.mem_singleton.mp hmarker
    cases List.mem_singleton.mp hotherMarker
    rfl
  obtain ⟨_, hall⟩ := Project.runConversion_links helements hreferences hlinks hprepare hrun
  exact ⟨helements, hreferences, hlinks, hsingle, prepared, report, hprepare, hrun, hagree,
    hall hsingle hagree⟩

/-- Where it overrides two, the second one keeps its old name, and the link to it is broken. -/
theorem not_linksAgree_runConversion :
    (project true).DistinctElements ∧ (project true).DistinctReferences ∧
    (project true).LinksAgree ∧
    (∃ report, ((project true).runConversion candidate .unattended
      (fun _ => .ok false) default).result = .ok report) ∧
    ¬ ((project true).runConversion candidate .unattended
      (fun _ => .ok false) default).project.LinksAgree := by
  have helements : (project true).DistinctElements := by decide
  have hreferences : (project true).DistinctReferences := by decide
  obtain ⟨_, report, q, _, _, hrun, hproject, hconverts⟩ := exists_runConversion_eq_ok true
  refine ⟨helements, hreferences, by decide, ⟨report, hrun⟩, ?_⟩
  rw [hproject]
  intro hlinks
  have hcovers := Project.collect_covers (collect_eq true)
  have hcontinuing := fun d m hd hother hm =>
    Project.exists_continuing_of_converts hcovers helements hreferences hconverts (d := d) (m := m)
      hd hm (Project.stillDeclares_of_converts hcovers helements hreferences hconverts hd hother hm)
  have htitled : titled true ∈ (project true).declarations := .tail _ (.tail _ (.head _))
  have hlabeled : labeled ∈ (project true).declarations := .tail _ (.head _)
  obtain ⟨d, hd, -, m, hm, hmCont⟩ := hcontinuing _ _ htitled (by decide) (.head _)
  obtain ⟨e, he, -, s, hs, hsCont⟩ := hcontinuing _ _ hlabeled (by decide) (.head _)
  have hlink : s.id ∈ m.superMethods := by
    rw [hmCont.superMethods, hsCont.id]
    decide
  have hname := hlinks m (Project.mem_methods_iff.mpr ⟨d, hd, hm⟩) s
    (Project.mem_methods_iff.mpr ⟨e, he, hs⟩) hlink
  rw [hmCont.name, hsCont.name] at hname
  exact absurd hname (by decide)

end Books

end ClassToRecord
