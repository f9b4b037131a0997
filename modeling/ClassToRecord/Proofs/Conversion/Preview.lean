import ClassToRecord.Proofs.Conversion.Identities
import ClassToRecord.Proofs.Conversion.Stale

open ClassToRecord.Traversal

namespace ClassToRecord

/-- Parts of a text that are empty leave no trace in it. -/
theorem join_map_eq_join_filter {α : Type} {l : List α} {part text : α → String} {shown : α → Bool}
    (hpart : ∀ a ∈ l, part a = if shown a then text a else "") :
    String.join (l.map part) = String.join ((l.filter shown).map text) := by
  induction l with
  | nil => rfl
  | cons a rest ih =>
    have hrest := ih fun b hb => hpart b (List.mem_cons_of_mem _ hb)
    rw [List.map_cons, String.join_cons, hrest, hpart a List.mem_cons_self]
    cases hshown : shown a <;> simp [hshown]

namespace Project

variable {p q : Project} {c : Candidate} {plan : RenamePlan} {usages : List Usage}

/-- The declarations whose texts differ between two states of a project, each as it was and as it
    is, in the order of the project. -/
def changesTo (before after : Project) : List (Declaration × Declaration) :=
  (before.declarations.zip after.declarations).filter fun (old, new) => old.render ≠ new.render

/-- The section of a patch for one declaration: its file, and the difference of its texts. -/
def sectionOf (old new : Declaration) : String :=
  "diff --git a/" ++ old.file ++ " b/" ++ old.file ++ "\n" ++ Patch.unified old.render new.render

private theorem patchSection_eq (old new : Declaration) :
    patchSection old new = if old.render = new.render then "" else sectionOf old new := rfl

/-- States with the same declarations in the same places pair each declaration with itself. -/
private theorem forall₂_of_declarationIds_eq (h : q.declarationIds = p.declarationIds) :
    List.Forall₂ (fun old new : Declaration => old.id = new.id) p.declarations q.declarations := by
  have hids : List.Forall₂ (· = ·) p.declarationIds q.declarationIds := by
    rw [List.forall₂_eq_eq_eq]
    exact h.symm
  rwa [declarationIds, declarationIds, List.forall₂_map_left_iff,
    List.forall₂_map_right_iff] at hids

/-- Between such states a patch has one section for each declaration whose text differs, and no
    other section. -/
theorem patchTo_eq (hdistinct : p.declarationIds.Nodup)
    (hsame : q.declarationIds = p.declarationIds) :
    p.patchTo q = String.join ((p.changesTo q).map fun (old, new) => sectionOf old new) := by
  have hpaired := forall₂_of_declarationIds_eq hsame
  have hids : p.declarationIds =
      (p.declarations.zip q.declarations).map fun pair => pair.1.id := by
    have hfirst := List.map_fst_zip (Nat.le_of_eq hpaired.length_eq)
    conv_lhs => rw [declarationIds, ← hfirst, List.map_map]
    rfl
  rw [patchTo, hids, List.map_map, changesTo]
  apply join_map_eq_join_filter
  rintro ⟨old, new⟩ hpair
  have hid : old.id = new.id := List.forall₂_zip hpaired hpair
  obtain ⟨holdIn, hnewIn⟩ := List.of_mem_zip hpair
  have hold := declaration?_eq_some_of_nodup hdistinct holdIn
  have hnew := declaration?_eq_some_of_nodup (hsame ▸ hdistinct) hnewIn
  rw [← hid] at hnew
  simp only [Function.comp_apply, hold, hnew]
  rw [patchSection_eq]
  by_cases htext : old.render = new.render <;> simp [htext]

end Project

namespace PreparedConversion

variable {prepared : PreparedConversion} {p : Project}

/-- A preview succeeds exactly if the edit does that looks at no preconditions, and its patch leads
    to the result of this edit. -/
theorem preview_eq_ok_iff {patch : String} :
    prepared.preview p = .ok patch ↔ ∃ q summary,
      p.applyConversion prepared.candidate prepared.plan prepared.usages none = .ok (q, summary) ∧
        patch = p.patchTo q := by
  rw [preview, mapError_eq_ok_iff, Project.previewConversion, bind_eq_ok_iff]
  constructor
  · rintro ⟨⟨q, summary⟩, hconvert, hpatch⟩
    exact ⟨q, summary, hconvert, (Except.ok.inj hpatch).symm⟩
  · rintro ⟨q, summary, hconvert, rfl⟩
    exact ⟨(q, summary), hconvert, rfl⟩

/-- Otherwise it fails as this edit does. -/
theorem preview_eq_error_iff {error : ConversionError} :
    prepared.preview p = .error error ↔ ∃ cause, error = .edit cause ∧
      p.applyConversion prepared.candidate prepared.plan prepared.usages none = .error cause := by
  rw [preview, mapError_eq_error_iff]
  simp only [Project.previewConversion, bind_eq_error_iff, reduceCtorEq, and_false, exists_false,
    or_false]
  constructor
  · rintro ⟨cause, hconvert, rfl⟩
    exact ⟨cause, rfl, hconvert⟩
  · rintro ⟨cause, rfl, hconvert⟩
    exact ⟨cause, hconvert, rfl⟩

/-- A preview agrees with the edit that it stands for. It fails exactly when the edit fails, with
    the same error. If the edit succeeds, then it leaves all declarations in their places, and the
    patch consists of one section for each declaration whose text the edit changes, in the order of
    the project, and of nothing else. -/
theorem preview_agrees (hdistinct : p.declarationIds.Nodup) (prepared : PreparedConversion) :
    (∀ error, prepared.preview p = .error error ↔ ∃ cause, error = .edit cause ∧
      p.applyConversion prepared.candidate prepared.plan prepared.usages none = .error cause) ∧
    (∀ patch, prepared.preview p = .ok patch ↔ ∃ q summary,
      p.applyConversion prepared.candidate prepared.plan prepared.usages none = .ok (q, summary) ∧
      patch = String.join ((p.changesTo q).map fun (old, new) => Project.sectionOf old new)) ∧
    ∀ q summary,
      p.applyConversion prepared.candidate prepared.plan prepared.usages none = .ok (q, summary) →
        q.declarationIds = p.declarationIds := by
  have hplaces : ∀ q summary,
      p.applyConversion prepared.candidate prepared.plan prepared.usages none = .ok (q, summary) →
        q.declarationIds = p.declarationIds := by
    intro q summary happly
    obtain ⟨-, hconverts⟩ := Project.applyConversion_eq_ok_iff.mp ⟨summary, happly⟩
    exact hconverts.declarationIds_eq
  refine ⟨fun error => preview_eq_error_iff, fun patch => ?_, hplaces⟩
  rw [preview_eq_ok_iff]
  constructor
  · rintro ⟨q, summary, happly, rfl⟩
    exact ⟨q, summary, happly, Project.patchTo_eq hdistinct (hplaces q summary happly)⟩
  · rintro ⟨q, summary, happly, rfl⟩
    exact ⟨q, summary, happly, (Project.patchTo_eq hdistinct (hplaces q summary happly)).symm⟩

end PreparedConversion

namespace Points

/-- Three declarations of the small project get another text. The class that came later does not,
    and the patch has no section for it. -/
theorem preview_agrees_late :
    (project.insert late).declarationIds.Nodup ∧
    ∃ (prepared : PreparedConversion) (patch : String) (q : Project) (summary : EditSummary),
      (project.insert late).applyConversion prepared.candidate prepared.plan prepared.usages none =
        .ok (q, summary) ∧
      prepared.preview (project.insert late) = .ok patch ∧
      patch = String.join
        (((project.insert late).changesTo q).map fun (old, new) => Project.sectionOf old new) ∧
      ((project.insert late).changesTo q).map (fun pair => pair.1.file) =
        ["Shape.java", "Point.java", "User.java"] := by
  have hdistinct : (project.insert late).declarationIds.Nodup := by decide
  have hconverts : ∃ q,
      (project.insert late).Converts candidate collected.plan collected.usages q ∧
      ((project.insert late).changesTo q).map (fun pair => pair.1.file) =
        ["Shape.java", "Point.java", "User.java"] := by
    have happly : (project.insert late).applyRenames collected.plan collected.usages =
        ⟨((project.insert late).applyRenames collected.plan collected.usages).project, .ok 1⟩ :=
      rfl
    refine ⟨_, ⟨_, pointRecord, (Project.applyRenames_eq_ok_iff.mp happly).1, rfl, rfl⟩, ?_⟩
    decide +kernel
  obtain ⟨q, hconverts, hchanges⟩ := hconverts
  have hallows : Project.Allows none (project.insert late) := nofun
  obtain ⟨summary, happly⟩ := Project.applyConversion_eq_ok_iff.mpr ⟨hallows, hconverts⟩
  let prepared := project.preparedWith candidate collected ⟨[]⟩ default
  obtain ⟨-, hpreview, -⟩ := PreparedConversion.preview_agrees hdistinct prepared
  exact ⟨hdistinct, prepared, _, q, summary, happly,
    (hpreview _).mpr ⟨q, summary, happly, rfl⟩, rfl, hchanges⟩

end Points

end ClassToRecord
