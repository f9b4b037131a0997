import ClassToRecord.Conversion.Edit
import ClassToRecord.Proofs.Record.Rebuild
import ClassToRecord.Proofs.Rename.Run

open ClassToRecord.Traversal

namespace ClassToRecord

namespace Preconditions

/-- Every captured declaration is still there, with the text that it had. -/
def Hold (pre : Preconditions) (p : Project) : Prop :=
  ∀ digest ∈ pre.digests,
    ∃ d, p.declaration? digest.declaration = some d ∧ d.fingerprint = digest.sha256

theorem mismatch?_eq_none_iff {p : Project} {digest : DeclarationDigest} :
    mismatch? p digest = none ↔
      ∃ d, p.declaration? digest.declaration = some d ∧ d.fingerprint = digest.sha256 := by
  unfold mismatch?
  cases hd : p.declaration? digest.declaration with
  | none => simp
  | some d =>
    by_cases hsame : d.fingerprint = digest.sha256 <;> simp [hsame]

/-- Preconditions hold exactly if no captured declaration mismatches. -/
theorem hold_iff {pre : Preconditions} {p : Project} : pre.Hold p ↔ pre.mismatches p = [] := by
  simp only [Hold, mismatches, List.filterMap_eq_nil_iff, mismatch?_eq_none_iff]

/-- A check of the preconditions passes if they hold. Otherwise it lists what has changed. -/
theorem verify_eq_ok_iff {pre : Preconditions} {p : Project} :
    pre.verify p = .ok () ↔ pre.Hold p := by
  rw [hold_iff, verify]
  cases pre.mismatches p <;> simp

theorem verify_eq_error_iff {pre : Preconditions} {p : Project} {error : EditError} :
    pre.verify p = .error error ↔ ¬ pre.Hold p ∧ error = .stale (pre.mismatches p) := by
  rw [hold_iff, verify]
  cases pre.mismatches p with
  | nil => simp
  | cons first rest => simp [eq_comm]

end Preconditions

namespace Project

section Stages

variable {p q : Project} {c : Candidate} {plan : RenamePlan} {usages : List Usage}
  {pre? : Option Preconditions} {error : EditError}

/-- An edit that goes through: all renames of the plan are made on a copy, and the record that is
    rebuilt from the renamed class takes the place of the class. -/
def Converts (p : Project) (c : Candidate) (plan : RenamePlan) (usages : List Usage)
    (q : Project) : Prop :=
  ∃ copy record, RenamesTo (sitesOf usages) p plan.entries copy ∧
    copy.rebuildRecord c = .ok record ∧ copy.replaceDeclaration c.declaration record = .ok q

/-- The changes of an edit that does not go through: one of the renames fails after all earlier
    ones are made on a copy, or the rebuild does after all of them. -/
inductive ChangesFail (p : Project) (c : Candidate) (plan : RenamePlan) (usages : List Usage) :
    EditError → Prop where
  | rename {done rest : List (ElementId × String)} {element : ElementId} {newName : String}
      {copy : Project} {cause : Failure} (hplan : plan.entries = done ++ (element, newName) :: rest)
      (hdone : RenamesTo (sitesOf usages) p done copy)
      (hcause : copy.renameElement element newName (sitesFor element (sitesOf usages)) =
        .error cause) :
      ChangesFail p c plan usages (.runtime (cause.within (.renaming element newName)))
  | rebuild {copy : Project} {shape : ShapeError}
      (hdone : RenamesTo (sitesOf usages) p plan.entries copy)
      (hshape : copy.rebuildRecord c = .error shape) :
      ChangesFail p c plan usages (.structural shape)

/-- The preconditions of an edit, if there are any, hold. -/
def Allows (pre? : Option Preconditions) (p : Project) : Prop :=
  ∀ pre, pre? = some pre → pre.Hold p

/-- The error of an edit is that of the first stage that fails. Preconditions come first. -/
inductive EditFails (p : Project) (c : Candidate) (plan : RenamePlan) (usages : List Usage)
    (pre? : Option Preconditions) : EditError → Prop where
  | stale {pre : Preconditions} (hpre : pre? = some pre) (hchanged : ¬ pre.Hold p) :
      EditFails p c plan usages pre? (.stale (pre.mismatches p))
  | changes {error : EditError} (hallows : Allows pre? p)
      (hfails : ChangesFail p c plan usages error) : EditFails p c plan usages pre? error

private theorem exists_replaceDeclaration_eq_ok {record : Declaration}
    (hrecord : p.rebuildRecord c = .ok record) :
    ∃ q, p.replaceDeclaration c.declaration record = .ok q := by
  obtain ⟨d, _, _, hd, _⟩ := rebuildRecord_eq_ok hrecord
  simp [replaceDeclaration, hd]

/-- The changes of an edit go through exactly if the renames and the rebuild do. A record that was
    rebuilt always finds the class that it replaces. -/
theorem exists_converts_iff : (∃ q, p.Converts c plan usages q) ↔
    ∃ copy record, RenamesTo (sitesOf usages) p plan.entries copy ∧
      copy.rebuildRecord c = .ok record := by
  constructor
  · rintro ⟨_, copy, record, hdone, hrecord, _⟩
    exact ⟨copy, record, hdone, hrecord⟩
  · rintro ⟨copy, record, hdone, hrecord⟩
    obtain ⟨q, hreplace⟩ := exists_replaceDeclaration_eq_ok hrecord
    exact ⟨q, copy, record, hdone, hrecord, hreplace⟩

private theorem convert_of_renamesTo {copy : Project}
    (hdone : RenamesTo (sitesOf usages) p plan.entries copy) :
    p.convert c plan usages =
      (copy.rebuildRecord c).mapError EditError.structural >>= fun record =>
        (during (.replacing c.declaration)
          (copy.replaceDeclaration c.declaration record)).mapError EditError.runtime >>=
        fun converted => .ok (converted,
          { renamedElements := plan.size
            rewrittenSites := rewrittenBy (sitesOf usages) plan.entries
            components := record.components.length }) := by
  have hrun := applyRenames_eq_ok_iff.mpr ⟨hdone, rfl⟩
  simp only [convert, hrun]
  rfl

/-- The changes of an edit succeed exactly with the renamed copy in which the record stands. -/
theorem convert_eq_ok_iff :
    (∃ summary, p.convert c plan usages = .ok (q, summary)) ↔ p.Converts c plan usages q := by
  constructor
  · rintro ⟨summary, h⟩
    obtain ⟨count, hcount, -⟩ := bind_eq_ok_iff.mp h
    have hrun : p.applyRenames plan usages =
        ⟨(p.applyRenames plan usages).project, .ok count⟩ := by
      rw [← mapError_eq_ok_iff.mp hcount]
    obtain ⟨hdone, -⟩ := applyRenames_eq_ok_iff.mp hrun
    rw [convert_of_renamesTo hdone, bind_eq_ok_iff] at h
    obtain ⟨record, hrecord, h⟩ := h
    rw [bind_eq_ok_iff] at h
    obtain ⟨converted, hconverted, h⟩ := h
    cases h
    rw [during, mapError_eq_ok_iff, mapError_eq_ok_iff] at hconverted
    exact ⟨_, record, hdone, mapError_eq_ok_iff.mp hrecord, hconverted⟩
  · rintro ⟨copy, record, hdone, hrecord, hreplace⟩
    rw [convert_of_renamesTo hdone, hrecord]
    have hreplaced : (during (.replacing c.declaration)
        (copy.replaceDeclaration c.declaration record)).mapError EditError.runtime = .ok q := by
      rw [hreplace]
      rfl
    exact ⟨_, bind_eq_ok_iff.mpr ⟨record, rfl, bind_eq_ok_iff.mpr ⟨q, hreplaced, rfl⟩⟩⟩

private theorem rewrittenSites_of_convert {summary : EditSummary}
    (h : p.convert c plan usages = .ok (q, summary)) :
    summary.rewrittenSites = rewrittenBy (sitesOf usages) plan.entries := by
  obtain ⟨copy, _, hdone, -, -⟩ := convert_eq_ok_iff.mp ⟨summary, h⟩
  rw [convert_of_renamesTo hdone, bind_eq_ok_iff] at h
  obtain ⟨record, -, h⟩ := h
  rw [bind_eq_ok_iff] at h
  obtain ⟨converted, -, h⟩ := h
  cases h
  rfl

/-- They fail exactly with the first rename, or else the rebuild, that fails on the copy. -/
theorem convert_eq_error_iff :
    p.convert c plan usages = .error error ↔ p.ChangesFail c plan usages error := by
  constructor
  · intro h
    cases hrun : p.applyRenames plan usages with
    | mk copy result =>
      cases result with
      | error failure =>
        obtain ⟨done, element, newName, rest, cause, hplan, hdone, hcause, rfl⟩ :=
          applyRenames_eq_error_iff.mp hrun
        simp only [convert, hrun] at h
        cases h
        exact .rename hplan hdone hcause
      | ok count =>
        obtain ⟨hdone, -⟩ := applyRenames_eq_ok_iff.mp hrun
        rw [convert_of_renamesTo hdone] at h
        cases hrecord : copy.rebuildRecord c with
        | error shape =>
          rw [hrecord] at h
          cases h
          exact .rebuild hdone hrecord
        | ok record =>
          obtain ⟨q, hconverts⟩ := exists_converts_iff.mpr ⟨copy, record, hdone, hrecord⟩
          obtain ⟨summary, hok⟩ := convert_eq_ok_iff.mpr hconverts
          rw [convert_of_renamesTo hdone, h] at hok
          cases hok
  · intro h
    cases h with
    | rename hplan hdone hcause =>
      have hrun := applyRenames_eq_error_iff.mpr ⟨_, _, _, _, _, hplan, hdone, hcause, rfl⟩
      simp only [convert, hrun]
      rfl
    | rebuild hdone hshape =>
      rw [convert_of_renamesTo hdone, hshape]
      rfl

/-- An edit succeeds exactly if its preconditions hold and its changes succeed. -/
theorem applyConversion_eq_ok_iff :
    (∃ summary, p.applyConversion c plan usages pre? = .ok (q, summary)) ↔
      Allows pre? p ∧ p.Converts c plan usages q := by
  cases pre? with
  | none => simp [applyConversion, Allows, convert_eq_ok_iff]
  | some pre =>
    rw [← convert_eq_ok_iff]
    constructor
    · rintro ⟨summary, h⟩
      obtain ⟨_, hverify, hconvert⟩ := bind_eq_ok_iff.mp h
      refine ⟨?_, summary, hconvert⟩
      rintro _ ⟨⟩
      exact Preconditions.verify_eq_ok_iff.mp hverify
    · rintro ⟨hallows, summary, hconvert⟩
      have hverify := Preconditions.verify_eq_ok_iff.mpr (hallows pre rfl)
      exact ⟨summary, bind_eq_ok_iff.mpr ⟨(), hverify, hconvert⟩⟩

/-- An edit counts the sites that its renames have rewritten. -/
theorem rewrittenSites_of_applyConversion {summary : EditSummary}
    (h : p.applyConversion c plan usages pre? = .ok (q, summary)) :
    summary.rewrittenSites = rewrittenBy (sitesOf usages) plan.entries := by
  cases pre? with
  | none => exact rewrittenSites_of_convert h
  | some pre =>
    obtain ⟨_, -, hconvert⟩ := bind_eq_ok_iff.mp h
    exact rewrittenSites_of_convert hconvert

/-- An edit that fails does so in the first stage that cannot be completed. -/
theorem applyConversion_eq_error_iff :
    p.applyConversion c plan usages pre? = .error error ↔ p.EditFails c plan usages pre? error := by
  constructor
  · intro h
    cases pre? with
    | none => exact .changes nofun (convert_eq_error_iff.mp h)
    | some pre =>
      rcases bind_eq_error_iff.mp h with hstale | ⟨_, hverify, hconvert⟩
      · obtain ⟨hchanged, rfl⟩ := Preconditions.verify_eq_error_iff.mp hstale
        exact .stale rfl hchanged
      · refine .changes ?_ (convert_eq_error_iff.mp hconvert)
        rintro _ ⟨⟩
        exact Preconditions.verify_eq_ok_iff.mp hverify
  · intro h
    cases h with
    | stale hpre hchanged =>
      subst hpre
      exact bind_eq_error_iff.mpr (.inl (Preconditions.verify_eq_error_iff.mpr ⟨hchanged, rfl⟩))
    | changes hallows hfails =>
      have hconvert := convert_eq_error_iff.mpr hfails
      cases pre? with
      | none => exact hconvert
      | some pre =>
        have hverify := Preconditions.verify_eq_ok_iff.mpr (hallows pre rfl)
        exact bind_eq_error_iff.mpr (.inr ⟨(), hverify, hconvert⟩)

end Stages

end Project

end ClassToRecord
