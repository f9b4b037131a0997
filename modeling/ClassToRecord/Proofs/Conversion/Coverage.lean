import ClassToRecord.Proofs.Conversion.WellFormed

namespace ClassToRecord

namespace PreparedConversion

/-- Each declaration whose text differs between two states of a project has a digest. -/
def Covers (prepared : PreparedConversion) (p q : Project) : Prop :=
  ∀ d ∈ p.declarations, ∀ e ∈ q.declarations, e.id = d.id → e.render ≠ d.render →
    d.id ∈ prepared.preconditions.digests.map DeclarationDigest.declaration

end PreparedConversion

/-- The declarations that hold sites are those with a reference to an element of the plan. -/
theorem CollectedUsages.Covers.exists_site_iff {acc : CollectedUsages} {p : Project}
    (h : acc.Covers p) (hdistinct : p.DistinctElements) {d : Declaration}
    (hd : d ∈ p.declarations) :
    d.id ∈ (sitesOf acc.usages).map ReferenceSite.declaration ↔
      ∃ r ∈ d.references, (acc.plan.get? r.target).isSome = true := by
  simp only [OrderedMap.isSome_get?_iff, List.mem_map]
  constructor
  · rintro ⟨site, hsite, hid⟩
    obtain ⟨e, he, r, hr, hpoints, hkey⟩ := h.planned site hsite
    have hsame : e.id = d.id := hpoints.declaration.symm.trans hid
    obtain rfl := hdistinct.eq_of_declares he hd e.declares_id (hsame ▸ d.declares_id)
    exact ⟨r, hr, hkey⟩
  · rintro ⟨r, hr, hkey⟩
    obtain ⟨site, hsite, hpoints⟩ := h.found d hd r hr hkey
    exact ⟨site, hsite, hpoints.declaration⟩

namespace Project

variable {p q : Project} {c : Candidate} {collected : CollectedUsages} {pre : Preconditions}

/-- A declaration has a digest if it is the class, or if it refers to an element of the plan. -/
theorem mem_digests_iff (hcovers : collected.Covers p) (hdistinct : p.DistinctElements)
    (hcapture : Preconditions.capture p (touched c collected.usages) = .ok pre)
    {d : Declaration} (hd : d ∈ p.declarations) :
    d.id ∈ pre.digests.map DeclarationDigest.declaration ↔
      d.id = c.declaration ∨ ∃ r ∈ d.references, (collected.plan.get? r.target).isSome = true := by
  rw [(Preconditions.capture_eq_ok hcapture).1, mem_newOnes, touched, List.mem_cons,
    hcovers.exists_site_iff hdistinct hd]
  simp

/-- Except for the class, a conversion changes nothing in a declaration but names. -/
theorem mem_declarations_of_converts (hcovers : collected.Covers p)
    (helements : p.DistinctElements) (hreferences : p.DistinctReferences)
    (hconverts : p.Converts c collected.plan collected.usages q) {e : Declaration}
    (he : e.id ≠ c.declaration) :
    e ∈ q.declarations ↔ ∃ d ∈ p.declarations, d.renamedBy collected.plan.get? = e := by
  obtain ⟨copy, record, hrun, hrecord, hreplace⟩ := hconverts
  obtain ⟨d, hd, _, hrecordOf⟩ := recordOf_of_rebuildRecord hrecord
  have hdId : d.id = c.declaration := by simpa using List.find?_some hd
  have hid : record.id = c.declaration := hrecordOf.id.trans hdId
  rw [← hid] at hreplace he
  rw [mem_declarations_of_replaceDeclaration hreplace he,
    renamedBy_of_renamesTo hcovers helements hreferences hrun, renamedBy, List.mem_map]

end Project

namespace PreparedConversion

/-- The digests of a conversion cover what its commit changes exactly if names that are declared,
    but not referred to, do not matter: no declaration other than the class gets another text
    although it refers to no element of the plan. -/
theorem covers_commit_iff {p : Project} {c : Candidate} {settings : Settings}
    {confirm : Question → Except Failure Bool} {start now : Timestamp}
    {prepared : PreparedConversion} {report : ConversionReport}
    (helements : p.DistinctElements) (hreferences : p.DistinctReferences)
    (hprepare : p.prepare c settings start = .ok prepared)
    (hcommit : (prepared.commit p settings confirm now).result = .ok report) :
    prepared.Covers p (prepared.commit p settings confirm now).project ↔
      ∀ d ∈ p.declarations, d.id ≠ c.declaration →
        (∀ r ∈ d.references, prepared.plan.get? r.target = none) →
        (d.renamedBy prepared.plan.get?).render = d.render := by
  obtain ⟨collected, pre, hcollect, hcapture, rfl⟩ := Project.prepare_eq_ok_iff.mp hprepare
  obtain ⟨_, _, hconverts, _⟩ := commit_eq_ok_iff.mp ⟨hcommit, rfl⟩
  have hcovers := Project.collect_covers hcollect
  constructor
  · intro hall d hd hother hunreferenced
    by_contra hchanged
    have hrenamed := (Project.mem_declarations_of_converts hcovers helements hreferences hconverts
      (e := d.renamedBy collected.plan.get?) hother).mpr ⟨d, hd, rfl⟩
    have hdigest := hall d hd _ hrenamed rfl hchanged
    rcases (Project.mem_digests_iff hcovers helements hcapture hd).mp hdigest with
      hclass | ⟨r, hr, hplanned⟩
    · exact hother hclass
    · exact Option.isSome_iff_ne_none.mp hplanned (hunreferenced r hr)
  · intro hquiet d hd e he hid hchanged
    refine (Project.mem_digests_iff hcovers helements hcapture hd).mpr ?_
    by_contra hno
    rw [not_or] at hno
    obtain ⟨hother, hnone⟩ := hno
    obtain ⟨d', hd', rfl⟩ := (Project.mem_declarations_of_converts hcovers helements hreferences
      hconverts (hid ▸ hother)).mp he
    have hsame : d'.id = d.id := hid
    obtain rfl := helements.eq_of_declares hd' hd d'.declares_id (hsame ▸ d.declares_id)
    refine hchanged (hquiet d' hd' hother fun r hr => ?_)
    by_contra hplanned
    exact hnone ⟨r, hr, Option.isSome_iff_ne_none.mpr hplanned⟩

end PreparedConversion

namespace Points

/-- The interface refers to nothing, and its method gets a new name: it changes without a digest. -/
theorem not_covers_commit_project :
    project.DistinctElements ∧ project.DistinctReferences ∧
    ∃ prepared report, project.prepare candidate {} default = .ok prepared ∧
      (prepared.commit project {} (fun _ => .ok true) default).result = .ok report ∧
      ¬ prepared.Covers project
        (prepared.commit project {} (fun _ => .ok true) default).project := by
  have helements : project.DistinctElements := by decide
  have hreferences : project.DistinctReferences := by decide
  obtain ⟨prepared, report, hprepare, hreport⟩ := exists_prepare_eq_ok
  refine ⟨helements, hreferences, prepared, report, hprepare, hreport, ?_⟩
  rw [PreparedConversion.covers_commit_iff helements hreferences hprepare hreport]
  intro hquiet
  obtain ⟨found, pre, hcollect, _, rfl⟩ := Project.prepare_eq_ok_iff.mp hprepare
  obtain rfl : collected = found := Except.ok.inj (collect_eq.symm.trans hcollect)
  have hshape : shape ∈ project.declarations := List.mem_cons_self
  have hchanged : (shape.renamedBy collected.plan.get?).render ≠ shape.render := by decide +kernel
  have hunreferenced : ∀ r ∈ shape.references, collected.plan.get? r.target = none := by decide
  exact hchanged (hquiet shape hshape (by decide) hunreferenced)

end Points

end ClassToRecord
