import ClassToRecord.Conversion.Commit
import ClassToRecord.Proofs.Conversion.Edit
import ClassToRecord.Proofs.Usage.Coverage

open ClassToRecord.Traversal

namespace ClassToRecord

namespace Preconditions

/-- A digest can be taken of a declaration that is there. -/
theorem digestOf_eq_ok_iff {p : Project} {id : ElementId} {digest : DeclarationDigest} :
    digestOf p id = .ok digest ↔
      ∃ d, p.declaration? id = some d ∧ digest = ⟨id, d.file, d.fingerprint⟩ := by
  rw [digestOf, map_eq_ok_iff]
  cases p.declaration? id with
  | none => simp [orRefuse, refuse]
  | some d => simp [orRefuse, eq_comm]

/-- Captured declarations are those that are listed, each once, with the texts that they have. -/
theorem capture_eq_ok {p : Project} {ids : List ElementId} {pre : Preconditions}
    (h : capture p ids = .ok pre) :
    pre.digests.map DeclarationDigest.declaration = newOnes [] ids ∧ pre.Hold p := by
  obtain ⟨digests, hdigests, rfl⟩ := map_eq_ok_iff.mp h
  have hpaired := forall₂_of_mapM_eq_ok hdigests
  refine ⟨map_eq_of_forall₂ hpaired fun id digest hdigest => ?_, fun digest hmem => ?_⟩
  · obtain ⟨_, _, rfl⟩ := digestOf_eq_ok_iff.mp hdigest
    rfl
  · obtain ⟨id, _, hdigest⟩ := exists_mem_left_of_forall₂ hpaired hmem
    obtain ⟨d, hd, rfl⟩ := digestOf_eq_ok_iff.mp hdigest
    exact ⟨d, hd, rfl⟩

/-- Declarations can be captured exactly if all of them are there. -/
theorem exists_capture_eq_ok_iff {p : Project} {ids : List ElementId} :
    (∃ pre, capture p ids = .ok pre) ↔ ∀ id ∈ ids, (p.declaration? id).isSome = true := by
  have hdigest : ∀ id, (∃ digest, digestOf p id = .ok digest) ↔
      (p.declaration? id).isSome = true := by
    intro id
    simp [digestOf_eq_ok_iff, Option.isSome_iff_exists]
  have hcapture : (∃ pre, capture p ids = .ok pre) ↔
      ∃ digests, (newOnes [] ids).mapM (digestOf p) = .ok digests := by
    simp [capture, map_eq_ok_iff]
  rw [hcapture, exists_mapM_eq_ok_iff]
  simp [hdigest, mem_newOnes]

end Preconditions

namespace Project

/-- What is prepared from the usages that were collected and the digests that were taken. -/
def preparedWith (p : Project) (c : Candidate) (collected : CollectedUsages) (pre : Preconditions)
    (now : Timestamp) : PreparedConversion where
  candidate := c
  usages := collected.usages
  plan := collected.plan
  conflicts := p.analyze c collected.usages collected.plan
  preconditions := pre
  report := { ConversionReport.start c.declaration now with
    renames := p.renameRecords collected.plan
    usageCounts := UsageCounts.ofUsages collected.usages
    conflicts := p.analyze c collected.usages collected.plan }

/-- A preparation succeeds exactly if the usages can be collected and the declarations that hold
    what is to be rewritten can be captured. -/
theorem prepare_eq_ok_iff {p : Project} {c : Candidate} {settings : Settings} {now : Timestamp}
    {prepared : PreparedConversion} :
    p.prepare c settings now = .ok prepared ↔
      ∃ collected pre, p.collect c settings.searchWeakenedVisibility = .ok collected ∧
        Preconditions.capture p (touched c collected.usages) = .ok pre ∧
        prepared = p.preparedWith c collected pre now := by
  simp only [prepare, bind_eq_ok_iff, during, mapError_eq_ok_iff, Except.ok.injEq]
  constructor
  · rintro ⟨collected, hcollected, pre, hpre, rfl⟩
    exact ⟨collected, pre, hcollected, hpre, rfl⟩
  · rintro ⟨collected, pre, hcollected, hpre, rfl⟩
    exact ⟨collected, hcollected, pre, hpre, rfl⟩

/-- Once its usages are collected, a conversion of a declared class is prepared: whatever holds a
    site is declared. -/
theorem exists_prepare_of_collect {p : Project} {c : Candidate} {collected : CollectedUsages}
    (settings : Settings) (now : Timestamp)
    (hcollect : p.collect c settings.searchWeakenedVisibility = .ok collected)
    (hclass : (p.declaration? c.declaration).isSome = true) :
    ∃ pre, p.prepare c settings now = .ok (p.preparedWith c collected pre now) ∧ pre.Hold p := by
  have hthere : ∀ id ∈ touched c collected.usages, (p.declaration? id).isSome = true := by
    intro id hid
    rcases List.mem_cons.mp hid with rfl | hheld
    · exact hclass
    · obtain ⟨site, hsite, rfl⟩ := List.mem_map.mp hheld
      obtain ⟨d, hd, _, _, hpoints, _⟩ := (collect_covers hcollect).planned site hsite
      rw [declaration?, List.find?_isSome]
      exact ⟨d, hd, decide_eq_true hpoints.declaration.symm⟩
  obtain ⟨pre, hpre⟩ := Preconditions.exists_capture_eq_ok_iff.mpr hthere
  exact ⟨pre, prepare_eq_ok_iff.mpr ⟨collected, pre, hcollect, hpre, rfl⟩,
    (Preconditions.capture_eq_ok hpre).2⟩

end Project

end ClassToRecord
