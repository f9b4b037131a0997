import ClassToRecord.Proofs.Conversion.Commit
import ClassToRecord.Proofs.Conversion.Prepare
import ClassToRecord.Proofs.Rename.Phase

open ClassToRecord.Traversal

namespace ClassToRecord

namespace DeclarationDigest

/-- What is captured of a declaration: its file and the hash of its text. -/
def TakenFrom (p : Project) (id : ElementId) (digest : DeclarationDigest) : Prop :=
  ∃ d, p.declaration? id = some d ∧ digest = ⟨id, d.file, d.fingerprint⟩

/-- The declaration is still there, with the hash that was captured. -/
def HoldsIn (digest : DeclarationDigest) (q : Project) : Prop :=
  ∃ d, q.declaration? digest.declaration = some d ∧ d.fingerprint = digest.sha256

instance (digest : DeclarationDigest) (q : Project) : Decidable (digest.HoldsIn q) :=
  decidable_of_iff
    ((q.declaration? digest.declaration).any (·.fingerprint = digest.sha256) = true)
    (by rw [HoldsIn]; cases q.declaration? digest.declaration <;> simp)

end DeclarationDigest

/-- What a check has to say of a digest that does not hold. -/
inductive Mismatch.Tells (q : Project) (digest : DeclarationDigest) : Mismatch → Prop where
  | missing (hgone : q.declaration? digest.declaration = none) :
      Tells q digest (.missing digest.declaration digest.file)
  | changed {d : Declaration} (hd : q.declaration? digest.declaration = some d)
      (hchanged : d.fingerprint ≠ digest.sha256) :
      Tells q digest (.changed (q.describe digest.declaration) digest.file digest.sha256
        d.fingerprint)

namespace Preconditions

variable {p q : Project} {pre : Preconditions}

/-- A check on a project passes if all digests hold there. Otherwise it says something of each one
    that does not, in the order of the digests, and of no other. -/
structure CheckedOn (pre : Preconditions) (q : Project) : Prop where
  passes : pre.verify q = .ok () ↔ ∀ digest ∈ pre.digests, digest.HoldsIn q
  fails : (∃ digest ∈ pre.digests, ¬ digest.HoldsIn q) →
    ∃ mismatches, pre.verify q = .error (.stale mismatches) ∧
      List.Forall₂ (Mismatch.Tells q) (pre.digests.filter (¬ ·.HoldsIn q)) mismatches ∧
      (EditError.stale mismatches).message =
        "precondition mismatch: " ++ "; ".intercalate (mismatches.map Mismatch.message)

theorem mismatch?_of_not_holdsIn {digest : DeclarationDigest} (h : ¬ digest.HoldsIn q) :
    ∃ mismatch, mismatch? q digest = some mismatch ∧ mismatch.Tells q digest := by
  unfold mismatch?
  cases hd : q.declaration? digest.declaration with
  | none => exact ⟨_, rfl, .missing hd⟩
  | some d =>
    have hchanged : d.fingerprint ≠ digest.sha256 := fun hsame => h ⟨d, hd, hsame⟩
    exact ⟨_, if_neg hchanged, .changed hd hchanged⟩

/-- The digests that fail and what is said of them stand in the same order. -/
theorem forall₂_mismatches (digests : List DeclarationDigest) (q : Project) :
    List.Forall₂ (Mismatch.Tells q) (digests.filter (¬ ·.HoldsIn q))
      (digests.filterMap (mismatch? q)) := by
  induction digests with
  | nil => exact .nil
  | cons digest rest ih =>
    by_cases hholds : digest.HoldsIn q
    · have hnone : mismatch? q digest = none := mismatch?_eq_none_iff.mpr hholds
      rwa [List.filter_cons_of_neg (by simpa using hholds), List.filterMap_cons_none hnone]
    · obtain ⟨mismatch, hmismatch, htells⟩ := mismatch?_of_not_holdsIn hholds
      rw [List.filter_cons_of_pos (by simpa using hholds), List.filterMap_cons_some hmismatch]
      exact .cons htells ih

theorem checkedOn (pre : Preconditions) (q : Project) : pre.CheckedOn q where
  passes := verify_eq_ok_iff
  fails := by
    rintro ⟨digest, hdigest, hfails⟩
    have hchanged : ¬ pre.Hold q := fun hhold => hfails (hhold digest hdigest)
    exact ⟨pre.mismatches q, verify_eq_error_iff.mpr ⟨hchanged, rfl⟩,
      forall₂_mismatches pre.digests q, rfl⟩

theorem forall₂_takenFrom {ids : List ElementId} (h : capture p ids = .ok pre) :
    List.Forall₂ (DeclarationDigest.TakenFrom p) ids.eraseDups pre.digests := by
  obtain ⟨digests, hdigests, rfl⟩ := map_eq_ok_iff.mp h
  have hpaired := forall₂_of_mapM_eq_ok hdigests
  rw [newOnes_eq_eraseDups, List.removeAll_nil] at hpaired
  exact hpaired.imp fun _ _ => digestOf_eq_ok_iff.mp

end Preconditions

/-- What a commit finds stale does not hold. -/
theorem PreparedConversion.not_hold_of_stale {prepared : PreparedConversion} {p : Project}
    {settings : Settings} {confirm : Question → Except Failure Bool} {now : Timestamp}
    {mismatches : List Mismatch}
    (h : (prepared.commit p settings confirm now).result = .error (.edit (.stale mismatches))) :
    ¬ prepared.preconditions.Hold p := by
  obtain ⟨hfails, -⟩ := commit_eq_error_iff.mp ⟨h, rfl⟩
  cases hfails with
  | refused hrefuses => cases hrefuses
  | edit _ hfails =>
    cases hfails with
    | changes _ hfails => cases hfails
    | @stale pre hpre hchanged =>
      rw [checked] at hpre
      split at hpre
      · cases hpre
        exact hchanged
      · cases hpre

namespace Preconditions

end Preconditions

namespace Points

/-- The small project after edits: the class is gone, the interface has lost its text, and the caller
    comes first. -/
def edited : Project :=
  { project with declarations := [user, { shape with children := [] }] }

theorem fingerprint_shape_ne :
    ({ shape with children := [] } : Declaration).fingerprint ≠ shape.fingerprint := by
  decide +kernel

theorem not_holdsIn_edited {digest : DeclarationDigest}
    (h : digest.TakenFrom project ⟨1⟩ ∨ digest.TakenFrom project ⟨3⟩) :
    ¬ digest.HoldsIn edited := by
  obtain ⟨_, hd, rfl⟩ | ⟨_, hd, rfl⟩ := h
  · cases hd
    rintro ⟨_, hd, hsame⟩
    cases hd
    exact fingerprint_shape_ne hsame
  · cases hd
    rintro ⟨_, hd, -⟩
    cases hd

theorem tells_edited_shape {digest : DeclarationDigest} {mismatch : Mismatch}
    (h : digest.TakenFrom project ⟨1⟩) (htells : mismatch.Tells edited digest) :
    ∃ new, mismatch = .changed "type '?'" "Shape.java" shape.fingerprint new := by
  obtain ⟨_, hd, rfl⟩ := h
  cases hd
  cases htells with
  | missing hgone => cases hgone
  | changed hd _ =>
    cases hd
    exact ⟨_, rfl⟩

theorem tells_edited_point {digest : DeclarationDigest} {mismatch : Mismatch}
    (h : digest.TakenFrom project ⟨3⟩) (htells : mismatch.Tells edited digest) :
    mismatch = .missing ⟨3⟩ "Point.java" := by
  obtain ⟨_, hd, rfl⟩ := h
  cases hd
  cases htells with
  | missing hgone => rfl
  | changed hd _ => cases hd

end Points

end ClassToRecord
