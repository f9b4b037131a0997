import ClassToRecord.Proofs.Conversion.Analysis
import ClassToRecord.Proofs.Usage.Place

open ClassToRecord.Traversal

namespace ClassToRecord

/-- A report without the times of its run. -/
def ConversionReport.untimed (report : ConversionReport) : ConversionReport :=
  { report with run := default }

namespace Project

section Edit

variable {p : Project} {d : Declaration} {c : Candidate} {plan : RenamePlan} {usages : List Usage}
  (i : Nat)

theorem replaceFirst_insertIdx {id : ElementId} (hid : d.id ≠ id) (new : Declaration)
    (ds : List Declaration) (i : Nat) :
    replaceFirst id new (ds.insertIdx i d) = (replaceFirst id new ds).insertIdx i d := by
  induction ds generalizing i with
  | nil => cases i <;> simp [replaceFirst, hid]
  | cons e rest ih =>
    cases i with
    | zero => simp [replaceFirst, hid]
    | succ i =>
      rw [List.insertIdx_succ_cons, replaceFirst, replaceFirst]
      split
      · rw [List.insertIdx_succ_cons]
      · rw [List.insertIdx_succ_cons, ih i]

theorem replaceDeclaration_place {id : ElementId} (hid : id ∉ d.declaredIds) (new : Declaration) :
    (p.place i d).replaceDeclaration id new =
      (p.replaceDeclaration id new).map (·.place i d) := by
  have hne : d.id ≠ id := by
    rintro rfl
    exact hid List.mem_cons_self
  rw [replaceDeclaration, replaceDeclaration, declaration?_place i hid]
  split
  · rfl
  · simp only [place, replaceFirst_insertIdx hne, Except.map]

/-- The record is built from the class alone. -/
theorem rebuildRecord_place (hclass : c.declaration ∉ d.declaredIds) :
    (p.place i d).rebuildRecord c = p.rebuildRecord c := by
  have hdeclaration := declaration?_place (p := p) i hclass
  cases hfound : p.declaration? c.declaration with
  | none => simp only [rebuildRecord, hdeclaration, hfound]
  | some e => simp only [rebuildRecord, describe, hdeclaration, hfound]

/-- An edit with a plan and sites that are none of its concern leaves a declaration in its place. -/
theorem convert_place (hclass : c.declaration ∉ d.declaredIds)
    (hplan : ∀ entry ∈ plan.entries, entry.1 ∉ d.declaredIds)
    (hsites : ∀ site ∈ sitesOf usages, ∀ r ∈ d.references, r.id ≠ site.ref) :
    (p.place i d).convert c plan usages =
      (p.convert c plan usages).map fun (q, summary) => (q.place i d, summary) := by
  have hrun := renameEach_place (p := p) i hplan hsites 0
  rw [convert, convert, applyRenames, applyRenames, hrun]
  obtain ⟨copy, result⟩ := renameEach (sitesOf usages) p 0 plan.entries
  simp only [rebuildRecord_place i hclass, replaceDeclaration_place i hclass]
  cases result with
  | error failure => rfl
  | ok rewritten =>
    cases copy.rebuildRecord c with
    | error shape => rfl
    | ok record =>
      simp only [during, bind, Except.bind, Except.mapError]
      cases copy.replaceDeclaration c.declaration record with
      | error failure => rfl
      | ok q => rfl

end Edit

section Preparation

variable {p : Project} {d : Declaration} {c : Candidate} {searchWeakened : Bool}
  {collected : CollectedUsages} (i : Nat)

/-- The elements that get new names are none of an unrelated declaration. -/
theorem plan_not_mem_declaredIds (h : d.Unrelated p c)
    (hcollect : p.collect c searchWeakened = .ok collected) :
    ∀ x ∈ collected.plan.keys, x ∉ d.declaredIds := by
  intro x hx
  obtain ⟨newName, hname⟩ := Option.isSome_iff_exists.mp (OrderedMap.isSome_get?_iff.mpr hx)
  obtain ⟨target, hmarker, hin⟩ := exists_marker_of_get? hcollect hname
  obtain ⟨entry, hentry, hkind⟩ := (marker_mem_iff hcollect).mp hmarker
  exact not_mem_declaredIds_of_overrides h.foreignTo
    (h.target_not_mem ⟨entry, hentry, newName, hkind⟩) (overrides_of_mem_renamedTogether hin)

/-- Nor are the references that get new names, and it holds none of them. -/
theorem site_not_mem (h : d.Unrelated p c) (hcollect : p.collect c searchWeakened = .ok collected)
    {site : ReferenceSite} (hsite : site ∈ sitesOf collected.usages) :
    (∀ r ∈ d.references, r.id ≠ site.ref) ∧ site.declaration ∉ d.declaredIds := by
  obtain ⟨e, he, s, hs, hpoints, -⟩ := (collect_covers hcollect).planned site hsite
  constructor
  · intro r hr
    rw [hpoints.ref]
    exact h.references r hr s (mem_references_iff.mpr ⟨e, he, hs⟩)
  · rw [hpoints.declaration]
    exact h.foreignTo e.id (mentions_id he)

theorem conflictsOf_place (h : d.Unrelated p c)
    (hcollect : p.collect c searchWeakened = .ok collected) {usage : Usage}
    (husage : usage ∈ collected.usages) :
    (p.place i d).conflictsOf collected.plan usage = p.conflictsOf collected.plan usage := by
  cases usage with
  | accessorRename target newName site? =>
    cases site? with
    | none =>
      obtain ⟨entry, hentry, hkind⟩ := (marker_mem_iff hcollect).mp husage
      have htarget : p.CallsForRename c target := ⟨entry, hentry, newName, hkind⟩
      exact nameConflicts_place i h.foreignTo (h.target_not_mem htarget)
        fun x hx => (h.hierarchies target htarget x hx).2
    | some site => rfl
  | _ => rfl

/-- The analysis does not depend on an unrelated declaration. -/
theorem analyze_place (h : d.Unrelated p c)
    (hcollect : p.collect c searchWeakened = .ok collected) :
    (p.place i d).analyze c collected.usages collected.plan =
      p.analyze c collected.usages collected.plan := by
  have husages : collected.usages.flatMap ((p.place i d).conflictsOf collected.plan) =
      collected.usages.flatMap (p.conflictsOf collected.plan) :=
    List.flatMap_congr fun _ husage => conflictsOf_place i h hcollect husage
  have hfields : ∀ x ∈ fieldsToHide collected.usages, x ∉ d.declaredIds ∧ ¬ d.RefersTo x := by
    intro x hx
    obtain ⟨hkey, -⟩ := (directFieldReference_mem_iff hcollect).mp (mem_fieldsToHide_iff.mp hx)
    exact ⟨h.not_mem_of_mentions (Candidate.mentions_of_mem_keys hkey), h.keyFields x hkey⟩
  rw [analyze, analyze, husages,
    accessibilityConflicts_place i h.foreignTo (h.not_mem_of_mentions (.inl rfl)) hfields]

theorem capture_place {ids : List ElementId} (hids : ∀ id ∈ ids, id ∉ d.declaredIds) :
    Preconditions.capture (p.place i d) ids = Preconditions.capture p ids := by
  have hdigests : (newOnes [] ids).mapM (Preconditions.digestOf (p.place i d)) =
      (newOnes [] ids).mapM (Preconditions.digestOf p) := by
    apply mapM_congr
    intro id hid
    rw [Preconditions.digestOf, Preconditions.digestOf,
      declaration?_place i (hids id (mem_newOnes.mp hid).1)]
  rw [Preconditions.capture, Preconditions.capture, hdigests]

theorem currentName_place (hforeign : d.ForeignTo p) {x : ElementId} (hx : x ∉ d.declaredIds) :
    (p.place i d).currentName x = p.currentName x := by
  simp only [currentName, method?_place i hforeign hx, field?_place i hforeign hx]

theorem renameRecords_place (hforeign : d.ForeignTo p) {plan : RenamePlan}
    (hplan : ∀ x ∈ plan.keys, x ∉ d.declaredIds) :
    (p.place i d).renameRecords plan = p.renameRecords plan := by
  unfold renameRecords
  apply List.map_congr_left
  intro entry hentry
  have hapart := hplan entry.1 (List.mem_map.mpr ⟨entry, hentry, rfl⟩)
  simp only [currentName_place i hforeign hapart]

/-- Neither does the whole preparation. -/
theorem prepare_place (h : d.Unrelated p c) (settings : Settings) (now : Timestamp) :
    (p.place i d).prepare c settings now = p.prepare c settings now := by
  rw [prepare, prepare, collect_place i h,
    describe_place i h.foreignTo (h.not_mem_of_mentions (.inl rfl))]
  apply bind_congr_of_ok
  intro collected hcollect
  simp only [during, mapError_eq_ok_iff] at hcollect
  have htouched : ∀ id ∈ touched c collected.usages, id ∉ d.declaredIds := by
    intro id hid
    rcases List.mem_cons.mp hid with rfl | hheld
    · exact h.not_mem_of_mentions (.inl rfl)
    · obtain ⟨site, hsite, rfl⟩ := List.mem_map.mp hheld
      exact (site_not_mem h hcollect hsite).2
  simp only [analyze_place i h hcollect, capture_place i htouched,
    renameRecords_place i h.foreignTo (plan_not_mem_declaredIds h hcollect)]

/-- Right after a preparation the preconditions hold, so an edit makes no difference between having
    them checked or not. -/
theorem applyConversion_of_prepare {settings : Settings} {now : Timestamp}
    {prepared : PreparedConversion} (hprepare : p.prepare c settings now = .ok prepared) :
    p.applyConversion prepared.candidate prepared.plan prepared.usages
        (prepared.checked settings) =
      p.convert prepared.candidate prepared.plan prepared.usages := by
  obtain ⟨_, pre, -, hcapture, rfl⟩ := prepare_eq_ok_iff.mp hprepare
  have hverify := Preconditions.verify_eq_ok_iff.mpr (Preconditions.capture_eq_ok hcapture).2
  unfold PreparedConversion.checked
  split
  · simp only [applyConversion, preparedWith, hverify]
    rfl
  · rfl

theorem applyConversion_place (h : d.Unrelated p c) {settings : Settings} {now : Timestamp}
    {prepared : PreparedConversion} (hprepare : p.prepare c settings now = .ok prepared) :
    (p.place i d).applyConversion prepared.candidate prepared.plan prepared.usages
        (prepared.checked settings) =
      (p.applyConversion prepared.candidate prepared.plan prepared.usages
        (prepared.checked settings)).map fun (q, summary) => (q.place i d, summary) := by
  rw [applyConversion_of_prepare ((prepare_place i h settings now).trans hprepare),
    applyConversion_of_prepare hprepare]
  obtain ⟨collected, _, hcollect, -, rfl⟩ := prepare_eq_ok_iff.mp hprepare
  have hplan := plan_not_mem_declaredIds h hcollect
  apply convert_place i (h.not_mem_of_mentions (.inl rfl))
  · intro entry hentry
    exact hplan entry.1 (List.mem_map.mpr ⟨entry, hentry, rfl⟩)
  · intro site hsite
    exact (site_not_mem h hcollect hsite).1

end Preparation

end Project

namespace PreparedConversion

variable {p : Project} {d : Declaration} (i : Nat)

/-- Where one answer is given to every question, the decision depends on the conflicts only. -/
theorem consult_eq_of_answer (prepared : PreparedConversion) (p q : Project) (settings : Settings)
    (answer : Except Failure Bool) :
    (prepared.consult p settings fun _ => answer).2 =
      (prepared.consult q settings fun _ => answer).2 := by
  simp only [consult]
  split
  · simp only
  · simp only
  · cases answer with
    | error failure => simp only
    | ok accepted => cases accepted <;> simp only

/-- A commit right after the preparation does not notice an unrelated declaration, and leaves it in
    its place. -/
theorem commit_place {c : Candidate} {settings : Settings} {start : Timestamp}
    {prepared : PreparedConversion} (h : d.Unrelated p c)
    (hprepare : p.prepare c settings start = .ok prepared) (answer : Except Failure Bool)
    (now : Timestamp) :
    (prepared.commit (p.place i d) settings (fun _ => answer) now).result =
        (prepared.commit p settings (fun _ => answer) now).result ∧
      (prepared.commit (p.place i d) settings (fun _ => answer) now).project =
        (prepared.commit p settings (fun _ => answer) now).project.place i d := by
  have hedit := Project.applyConversion_place i h hprepare
  cases hconsult : (prepared.consult p settings fun _ => answer).2 with
  | error error =>
    have hplaced := (prepared.consult_eq_of_answer (p.place i d) p settings answer).trans hconsult
    rw [commit_of_refused hconsult, commit_of_refused hplaced]
    simp only [and_self]
  | ok permission =>
    have hplaced := (prepared.consult_eq_of_answer (p.place i d) p settings answer).trans hconsult
    cases hresult : p.applyConversion prepared.candidate prepared.plan prepared.usages
        (prepared.checked settings) with
    | error error =>
      rw [hresult] at hedit
      rw [commit_of_failed hconsult hresult, commit_of_failed hplaced hedit]
      simp only [and_self]
    | ok outcome =>
      obtain ⟨converted, summary⟩ := outcome
      rw [hresult] at hedit
      rw [commit_of_applied hconsult hresult, commit_of_applied hplaced hedit]
      simp only [and_self]

/-- The same preparation, begun at another time. -/
def restarted (prepared : PreparedConversion) (start : Timestamp) : PreparedConversion :=
  { prepared with report := { prepared.report with run := { startedAt := start } } }

/-- Another start shows in the times of a report only. -/
theorem commit_restarted (prepared : PreparedConversion) (p : Project) (settings : Settings)
    (confirm : Question → Except Failure Bool) (start now later : Timestamp) :
    ((prepared.restarted start).commit p settings confirm later).result.map
        ConversionReport.untimed =
      (prepared.commit p settings confirm now).result.map ConversionReport.untimed ∧
    ((prepared.restarted start).commit p settings confirm later).project =
      (prepared.commit p settings confirm now).project := by
  have hsame : (prepared.restarted start).consult p settings confirm =
    prepared.consult p settings confirm := rfl
  cases hconsult : (prepared.consult p settings confirm).2 with
  | error error =>
    rw [commit_of_refused hconsult, commit_of_refused (hsame ▸ hconsult)]
    simp only [and_self]
  | ok permission =>
    cases hresult : p.applyConversion prepared.candidate prepared.plan prepared.usages
        (prepared.checked settings) with
    | error error =>
      have hrestarted : (prepared.restarted start).commit p settings confirm later = _ :=
        commit_of_failed (hsame ▸ hconsult) hresult
      rw [commit_of_failed hconsult hresult, hrestarted]
      simp only [and_self]
    | ok outcome =>
      have hrestarted : (prepared.restarted start).commit p settings confirm later = _ :=
        commit_of_applied (hsame ▸ hconsult) hresult
      rw [commit_of_applied hconsult hresult, hrestarted]
      exact ⟨rfl, rfl⟩

end PreparedConversion

namespace Project

theorem prepare_restarted (p : Project) (c : Candidate) (settings : Settings)
    (start later : Timestamp) :
    p.prepare c settings later = (p.prepare c settings start).map (·.restarted later) := by
  simp only [prepare, during, bind, Except.bind, Except.mapError]
  cases p.collect c settings.searchWeakenedVisibility with
  | error failure => simp only [Except.map]
  | ok collected =>
    simp only
    cases Preconditions.capture p (touched c collected.usages) with
    | error failure => simp only [Except.map]
    | ok pre => simp only [Except.map, PreparedConversion.restarted, ConversionReport.start]

/-- The times of a run show in its report only. -/
theorem runConversion_untimed (p : Project) (c : Candidate) (settings : Settings)
    (confirm : Question → Except Failure Bool) (now later : Timestamp) :
    (p.runConversion c settings confirm later).result.map ConversionReport.untimed =
      (p.runConversion c settings confirm now).result.map ConversionReport.untimed ∧
    (p.runConversion c settings confirm later).project =
      (p.runConversion c settings confirm now).project := by
  rw [runConversion, runConversion, p.prepare_restarted c settings now later]
  cases p.prepare c settings now with
  | error error => exact ⟨rfl, rfl⟩
  | ok prepared => exact prepared.commit_restarted p settings confirm later now later

/-- A conversion is not influenced by a declaration that has nothing to do with it. With the same
    answer to all questions it ends with the same error, or with the same report but for the times,
    and the project is the same but for this declaration, which stays as it is and where it is. -/
theorem runConversion_place {p : Project} {d : Declaration} {c : Candidate} (h : d.Unrelated p c)
    (i : Nat) (settings : Settings) (answer : Except Failure Bool) (now later : Timestamp) :
    ((p.place i d).runConversion c settings (fun _ => answer) later).result.map
        ConversionReport.untimed =
      (p.runConversion c settings (fun _ => answer) now).result.map ConversionReport.untimed ∧
    ((p.place i d).runConversion c settings (fun _ => answer) later).project =
      (p.runConversion c settings (fun _ => answer) now).project.place i d := by
  obtain ⟨hresult, hproject⟩ :=
    (p.place i d).runConversion_untimed c settings (fun _ => answer) now later
  rw [hresult, hproject, runConversion, runConversion, prepare_place i h]
  cases hprepare : p.prepare c settings now with
  | error error => exact ⟨rfl, rfl⟩
  | ok prepared =>
    obtain ⟨hsame, hplaced⟩ := PreparedConversion.commit_place i h hprepare answer now
    exact ⟨congrArg _ hsame, hplaced⟩

end Project

namespace Points

/-- A class that makes points. It reads no coordinates, and what it overrides keeps its name. -/
def origin : Declaration where
  id := ⟨20⟩
  file := "Origin.java"
  children := [
    .keyword .class, .trivia (.whitespace " "), .identifier "Origin", .code (.ofText " \x7b "),
    .method {
      id := ⟨21⟩
      modifiers := ⟨.public, []⟩
      returnType? := some "Point"
      name := "read"
      parameters := [⟨⟨22⟩, "int", "a"⟩]
      body := .ofText " \x7b return new " ++ ⟨[.ref ⟨⟨20⟩, ⟨5⟩, "Point"⟩]⟩ ++ .ofText "(" ++
        ⟨[.ref ⟨⟨21⟩, ⟨22⟩, "a"⟩]⟩ ++ .ofText "); \x7d"
      superMethods := [⟨9⟩] },
    .code (.ofText " \x7d")]

theorem origin_unrelated : origin.Unrelated project candidate where
  elements := by decide
  references := by decide
  keyFields := by decide
  hierarchies := by
    rintro target ⟨entry, hentry, newName, hkind⟩ x hx
    have hentry : entry = (⟨4⟩, some ⟨⟨7⟩, ⟨4⟩, false⟩) := List.mem_singleton.mp hentry
    obtain ⟨binding, hbinding, -, -, -, rfl⟩ := Project.classify_eq_needsRename hkind
    have hbinding : binding = ⟨⟨7⟩, ⟨4⟩, false⟩ := by
      rw [hentry] at hbinding
      exact (Option.some.inj hbinding).symm
    have htarget : project.renameTarget ⟨7⟩ = ⟨2⟩ := by cbv
    have hhierarchy : project.hierarchy ⟨2⟩ = [⟨2⟩, ⟨7⟩] := by cbv
    rw [hbinding, htarget, hhierarchy] at hx
    have hall : ∀ x ∈ [(⟨2⟩ : ElementId), ⟨7⟩], ¬ origin.RefersTo x ∧ ¬ origin.ListsSuper x := by
      decide
    exact hall x hx

/-- Between the interface and the class to convert it makes no difference to a run. -/
theorem runConversion_place_origin :
    origin.Unrelated project candidate ∧
    (project.place 1 origin).declarations = [shape, origin, point, user] ∧
    ((project.place 1 origin).runConversion candidate {} (fun _ => .ok true) default).result.map
        ConversionReport.untimed =
      (project.runConversion candidate {} (fun _ => .ok true) default).result.map
        ConversionReport.untimed ∧
    ((project.place 1 origin).runConversion candidate {} (fun _ => .ok true) default).project =
      (project.runConversion candidate {} (fun _ => .ok true) default).project.place 1 origin :=
  ⟨origin_unrelated, rfl,
    Project.runConversion_place origin_unrelated 1 {} (.ok true) default default⟩

end Points

end ClassToRecord
