import ClassToRecord.Proofs.Conversion.WellFormed
import ClassToRecord.Proofs.Project.Edits

namespace ClassToRecord

namespace Project

variable {p q : Project} {c : Candidate} {plan : RenamePlan} {usages : List Usage}

/-- A rebuild spells references to fields and methods as they are. -/
theorem exists_reference_of_rebuild (hdistinct : p.DistinctElements) {record : Declaration}
    (hrecord : p.rebuildRecord c = .ok record)
    (hreplace : p.replaceDeclaration c.declaration record = .ok q) {r : Reference}
    (hr : r ∈ q.references) (hmember : ∃ d ∈ p.declarations, d.hasMember r.target = true) :
    ∃ s ∈ p.references, r.target = s.target ∧ r.name = s.name ∧
      (s.id.isAssigned = true → r.id = s.id) := by
  obtain ⟨e, he, hr⟩ := mem_references_iff.mp hr
  rcases mem_or_eq_of_replaceDeclaration hreplace he with hkept | rfl
  · exact ⟨r, mem_references_iff.mpr ⟨e, hkept, hr⟩, rfl, rfl, fun _ => rfl⟩
  obtain ⟨d, hd, _, hrecordOf⟩ := recordOf_of_rebuildRecord hrecord
  have hdp := List.mem_of_find?_eq_some hd
  obtain ⟨numbered, hnumbered, hnumbers⟩ := Declaration.exists_reference_of_number hr
  obtain ⟨s, hs, hid, htarget, hname⟩ := hrecordOf.exists_reference hnumbered
  refine ⟨s, mem_references_iff.mpr ⟨d, hdp, hs⟩, hnumbers.target.trans htarget, ?_, ?_⟩
  · rcases hname with hname | ⟨m, hm, hparameter⟩
    · exact hnumbers.name.trans hname
    · obtain ⟨owner, howner, hmember⟩ := hmember
      rw [← hnumbers.target] at hparameter
      exact absurd hparameter (hdistinct.not_mem_parameters howner hdp hmember hm)
  · intro hassigned
    rw [← hid] at hassigned ⊢
    exact hnumbers.id hassigned

/-- A conversion with any sites, also those of another project, keeps the references that it does
    not drop. Among those to elements of the plan, one that stands at exactly the sites of its own
    target gets the new name. -/
theorem exists_reference_of_converts (hdistinct : p.DistinctElements)
    (hconverts : p.Converts c plan usages q) {r : Reference} (hr : r ∈ q.references)
    {newName : String} (hplan : plan.get? r.target = some newName) :
    ∃ s ∈ p.references, r.target = s.target ∧ (s.id.isAssigned = true → r.id = s.id) ∧
      ((∀ e ∈ plan.keys, s.id ∈ (sitesFor e (sitesOf usages)).map ReferenceSite.ref ↔
        e = s.target) → r.name = newName) := by
  obtain ⟨copy, record, hrun, hrecord, hreplace⟩ := hconverts
  have hcopyDistinct : copy.DistinctElements := by
    rw [DistinctElements, hrun.declaredIds_eq]
    exact hdistinct
  have hkey : r.target ∈ plan.keys :=
    OrderedMap.isSome_get?_iff.mp (by rw [hplan, Option.isSome_some])
  have hmember := (hrun.exists_hasMember_iff r.target).mpr (hrun.exists_hasMember r.target hkey)
  obtain ⟨t, ht, htarget, hname, hid⟩ :=
    exists_reference_of_rebuild hcopyDistinct hrecord hreplace hr hmember
  obtain ⟨s, hs, hsId, hsTarget, hsName⟩ := hrun.exists_reference plan.nodup_keys ht
  refine ⟨s, hs, htarget.trans hsTarget, fun h => ?_, fun hsites => ?_⟩
  · rw [← hsId] at h ⊢
    exact hid h
  · have hfound : plan.entries.lookup s.target = some newName := by
      rw [← hsTarget, ← htarget]
      exact hplan
    rw [hname, hsName s.target hsites, hfound, Option.getD_some]

end Project

/-- Digests do not notice a declaration that is new. -/
theorem Preconditions.Hold.insert {pre : Preconditions} {p : Project} (h : pre.Hold p)
    (d : Declaration) : pre.Hold (p.insert d) := by
  intro digest hdigest
  obtain ⟨e, he, hfingerprint⟩ := h digest hdigest
  rw [Project.declaration?] at he
  exact ⟨e, by simp [Project.declaration?, Project.insert, he], hfingerprint⟩

namespace PreparedConversion

variable {prepared : PreparedConversion} {p q : Project} {brought : List Declaration}

/-- A reference that edits have brought in after a preparation, and that no digest shows: it stands
    in a declaration without a digest, or in one that has the text of its digest. -/
structure Misses (prepared : PreparedConversion) (p q : Project) (brought : List Declaration)
    (r : Reference) : Prop where
  new : ¬ p.HasSite r
  brought : ∃ d ∈ brought, d.HasSite r
  unnoticed : ∃ e ∈ q.declarations, e.HasSite r ∧
    ∀ digest ∈ prepared.preconditions.digests, digest.declaration = e.id →
      e.fingerprint = digest.sha256

/-- A site that edits have added is in a declaration that they have brought in. If the preconditions
    hold in spite of that, then no digest shows it. -/
theorem misses_of_hold (helements : p.DistinctElements) (hedits : p.EditedTo brought q)
    (hhold : prepared.preconditions.Hold q) {r : Reference} (hnew : ¬ p.HasSite r)
    (hsite : q.HasSite r) : prepared.Misses p q brought r := by
  have hdistinct := hedits.distinctElements helements
  obtain ⟨e, he, heSite⟩ := Project.hasSite_iff.mp hsite
  refine ⟨hnew, (hedits.hasSite hsite).resolve_left hnew, e, he, heSite, ?_⟩
  intro digest hdigest hid
  obtain ⟨e', he', hfingerprint⟩ := hhold digest hdigest
  obtain ⟨he', heId⟩ := hdistinct.declaration?_eq_some_iff.mp he'
  obtain rfl := hdistinct.eq_of_declares he' he e'.declares_id (heId.trans hid ▸ e.declares_id)
  exact hfingerprint

/-- A conversion that was prepared before some edits. If it is carried out, then every reference to
    an element of its plan has the new name, but for those that the edits have brought in and that
    no digest shows. If a captured declaration has another text or is gone, then the conversion is
    not carried out, and the project stays as it is. -/
theorem commit_after_edits {c : Candidate} {settings committing : Settings}
    {confirm : Question → Except Failure Bool} {start now : Timestamp}
    (helements : p.DistinctElements) (hreferences : p.DistinctReferences)
    (hprepare : p.prepare c settings start = .ok prepared) (hedits : p.EditedTo brought q)
    (hchecks : committing.checkPreconditions = true) :
    (∀ report, (prepared.commit q committing confirm now).result = .ok report →
      ∀ r ∈ (prepared.commit q committing confirm now).project.references, ∀ newName,
        prepared.plan.get? r.target = some newName →
          r.name = newName ∨ prepared.Misses p q brought r) ∧
    (prepared.LetThrough q committing confirm → ¬ prepared.preconditions.Hold q →
      (prepared.commit q committing confirm now).result =
          .error (.edit (.stale (prepared.preconditions.mismatches q))) ∧
        (prepared.commit q committing confirm now).project = q) := by
  constructor
  · intro report hresult r hr newName hplan
    obtain ⟨-, hhold, hconverts, -⟩ := commit_eq_ok_iff.mp ⟨hresult, rfl⟩
    obtain ⟨s, hs, htarget, hid, hname⟩ :=
      Project.exists_reference_of_converts (hedits.distinctElements helements) hconverts hr hplan
    by_cases hknown : p.HasSite s
    · obtain ⟨collected, pre, hcollect, -, rfl⟩ := Project.prepare_eq_ok_iff.mp hprepare
      obtain ⟨old, hold, holdId, holdTarget⟩ := hknown
      refine .inl (hname fun e he => ?_)
      rw [← holdId, ← holdTarget]
      exact ((Project.collect_covers hcollect).exactSites hreferences he old hold).trans eq_comm
    · have hsite : q.HasSite s := ⟨s, hs, rfl, rfl⟩
      have hassigned : s.id.isAssigned = true := by
        obtain ⟨d, hd, t, ht, htId, _⟩ := (hedits.hasSite hsite).resolve_left hknown
        rw [← htId]
        exact hedits.isAssigned d hd t ht
      have hsame : p.HasSite s ↔ p.HasSite r := by
        rw [Project.HasSite, Project.HasSite, hid hassigned, htarget]
      refine .inr (misses_of_hold helements hedits (hhold hchecks) (hsame.not.mp hknown) ?_)
      exact ⟨s, hs, (hid hassigned).symm, htarget.symm⟩
  · intro hthrough hstale
    refine commit_eq_error_iff.mpr ⟨.edit hthrough (.stale ?_ hstale), rfl⟩
    rw [checked, if_pos hchecks]

end PreparedConversion

namespace Points

/-- A class that is written after the conversion has been prepared, and calls the accessor. -/
def late : Declaration where
  id := ⟨11⟩
  file := "Late.java"
  children := [
    .keyword .class, .trivia (.whitespace " "), .identifier "Late", .code (.ofText " \x7b "),
    .method {
      id := ⟨12⟩
      modifiers := ⟨.public, []⟩
      returnType? := some "int"
      name := "latest"
      parameters := [⟨⟨13⟩, "Point", "p"⟩]
      body := .ofText " \x7b return " ++ .ofReference ⟨13⟩ "p" ++ .ofText "." ++
        .ofReference ⟨7⟩ "getX" ++ .ofText "(); \x7d" },
    .code (.ofText " \x7d")]

theorem editedTo_late : project.EditedTo [(late.number 5).1] (project.insert late) :=
  .insert .start late (by decide) (by decide)

/-- The new class still calls the accessor by its old name afterwards. -/
theorem converts_late : ∃ q,
    (project.insert late).Converts candidate collected.plan collected.usages q ∧
      ∃ r ∈ q.references, collected.plan.get? r.target = some "x" ∧ r.name ≠ "x" := by
  have happly : (project.insert late).applyRenames collected.plan collected.usages =
      ⟨((project.insert late).applyRenames collected.plan collected.usages).project, .ok 1⟩ := rfl
  refine ⟨_, ⟨_, pointRecord, (Project.applyRenames_eq_ok_iff.mp happly).1, rfl, rfl⟩, ?_⟩
  decide +kernel

theorem exists_commit_late : ∃ prepared report q,
    project.prepare candidate {} default = .ok prepared ∧ prepared.plan = collected.plan ∧
      (prepared.commit (project.insert late) {} (fun _ => .ok true) default).result =
        .ok report ∧
      (prepared.commit (project.insert late) {} (fun _ => .ok true) default).project = q ∧
      ∃ r ∈ q.references, collected.plan.get? r.target = some "x" ∧ r.name ≠ "x" := by
  obtain ⟨pre, hprepare, hhold⟩ := Project.exists_prepare_of_collect {} default collect_eq rfl
  obtain ⟨q, hconverts, hbehind⟩ := converts_late
  let prepared := project.preparedWith candidate collected pre default
  have hcommit :
      (prepared.commit (project.insert late) {} (fun _ => .ok true) default).result =
          .ok (prepared.report.close .applied default) ∧
        (prepared.commit (project.insert late) {} (fun _ => .ok true) default).project = q :=
    PreparedConversion.commit_eq_ok_iff.mpr
      ⟨.inr (.inl ⟨rfl, rfl⟩), fun _ => hhold.insert late, hconverts, rfl⟩
  exact ⟨prepared, _, q, hprepare, rfl, hcommit.1, hcommit.2, hbehind⟩

/-- The conversion goes through, and only the reference that came later may be left behind. -/
theorem commit_after_edits_late :
    project.DistinctElements ∧ project.DistinctReferences ∧
    project.EditedTo [(late.number 5).1] (project.insert late) ∧
    ∃ prepared report, project.prepare candidate {} default = .ok prepared ∧
      (prepared.commit (project.insert late) {} (fun _ => .ok true) default).result =
        .ok report ∧
      ∀ r ∈ (prepared.commit (project.insert late) {} (fun _ => .ok true)
        default).project.references, ∀ newName, prepared.plan.get? r.target = some newName →
          r.name = newName ∨
            prepared.Misses project (project.insert late) [(late.number 5).1] r := by
  have helements : project.DistinctElements := by decide
  have hreferences : project.DistinctReferences := by decide
  obtain ⟨prepared, report, _, hprepare, _, hcommit, _⟩ := exists_commit_late
  refine ⟨helements, hreferences, editedTo_late, prepared, report, hprepare, hcommit, ?_⟩
  have hchecks : Settings.checkPreconditions {} = true := rfl
  exact (PreparedConversion.commit_after_edits helements hreferences hprepare editedTo_late
    hchecks).1 report hcommit

/-- It is left behind, although all captured declarations have been checked. -/
theorem left_behind_after_insert :
    project.DistinctElements ∧ project.DistinctReferences ∧
    project.EditedTo [(late.number 5).1] (project.insert late) ∧
    ∃ prepared report, project.prepare candidate {} default = .ok prepared ∧
      (prepared.commit (project.insert late) {} (fun _ => .ok true) default).result =
        .ok report ∧
      ∃ r ∈ (prepared.commit (project.insert late) {} (fun _ => .ok true)
        default).project.references, prepared.plan.get? r.target = some "x" ∧ r.name ≠ "x" := by
  obtain ⟨prepared, report, q, hprepare, hplan, hcommit, hproject, hbehind⟩ := exists_commit_late
  rw [← hproject, ← hplan] at hbehind
  exact ⟨by decide, by decide, editedTo_late, prepared, report, hprepare, hcommit, hbehind⟩

end Points

end ClassToRecord
