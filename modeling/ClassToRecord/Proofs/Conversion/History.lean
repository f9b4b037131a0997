import ClassToRecord.Proofs.Conversion.Identities
import ClassToRecord.Proofs.Project.Building

namespace ClassToRecord.Project

/-- What a host can make of the empty project, with the parameters that it has been given and has not
    used. A declaration that it brings in carries ids that fit in, and it meets a condition of the
    host. A builder whose code has ids ends like that too: it is abandoned, and its declaration is
    brought in. Operations that fail change nothing, so they do not show, and neither does the one
    failure that a number of operations can bring about: counters do not overflow here, however many
    ids are given out. -/
inductive Reached (allowed : Project → Declaration → Prop) : List ElementId → Project → Prop where
  | empty : Reached allowed [] {}
  | allocate {unused : List ElementId} {p : Project} (before : Reached allowed unused p) :
      Reached allowed unused p.allocate.2
  | parameter {unused : List ElementId} {p : Project} (before : Reached allowed unused p)
      (type name : String) :
      Reached allowed ((p.parameter type name).1.id :: unused) (p.parameter type name).2
  | abandon {unused left : List ElementId} {p : Project} {b : DeclarationBuilder}
      (before : Reached allowed unused p) (built : DeclarationBuilder.Builds p unused left b) :
      Reached allowed left b.project
  | finish {unused left : List ElementId} {p : Project} {b : DeclarationBuilder}
      (before : Reached allowed unused p) (built : DeclarationBuilder.Builds p unused left b)
      (fresh : ∀ r ∈ b.declaration.references, r.id.isAssigned = false) :
      Reached allowed left b.finish
  | bring {unused : List ElementId} {p q : Project} {d : Declaration}
      (before : Reached allowed unused p) (brings : p.Brings d q) (meets : allowed p d) :
      Reached allowed (unused.filter fun x => !d.declares x) q
  | rename {unused : List ElementId} {p q : Project} (before : Reached allowed unused p)
      {element : ElementId} {newName : String} {sites : List ReferenceSite}
      (done : p.renameElement element newName sites = .ok q) : Reached allowed unused q
  | convert {unused : List ElementId} {p q : Project} (before : Reached allowed unused p)
      {c : Candidate} {plan : RenamePlan} {usages : List Usage} {pre? : Option Preconditions}
      {summary : EditSummary} (done : p.applyConversion c plan usages pre? = .ok (q, summary)) :
      Reached allowed unused q

namespace Ledger

variable {p q : Project} {pending : List ElementId}

theorem rename (h : p.Ledger pending) {element : ElementId} {newName : String}
    {sites : List ReferenceSite} (hdone : p.renameElement element newName sites = .ok q) :
    q.Ledger pending := by
  have hids := declaredIds_renameElement hdone
  have hrefs := map_id_references_renameElement hdone
  obtain ⟨_, _, rfl⟩ := renameElement_eq_ok_iff.mp hdone
  exact h.of_fewer (hids ▸ .refl _) (hrefs ▸ .refl _) rfl rfl

theorem convert (h : p.Ledger pending) {c : Candidate} {plan : RenamePlan} {usages : List Usage}
    {pre? : Option Preconditions} {summary : EditSummary}
    (hdone : p.applyConversion c plan usages pre? = .ok (q, summary)) : q.Ledger pending := by
  obtain ⟨-, hconverts⟩ := applyConversion_eq_ok_iff.mp ⟨summary, hdone⟩
  obtain ⟨hids, hidentities, hlast, hlastReference⟩ :=
    identities_of_converts h.distinctElements h.assigned hconverts
  refine h.of_fewer (hids.subperm.trans (keptIds_sublist p c).subperm) ?_ hlast hlastReference
  rw [Reference.map_id_eq_of_map_identity_eq hidentities]
  exact (keptReferences_sublist p c).map _

end Ledger

namespace Reached

variable {allowed : Project → Declaration → Prop} {unused : List ElementId} {p q : Project}

/-- As long as no declaration is brought in that is ahead of the project, all ids stay in order. -/
theorem ledger
    (hpast : ∀ unused p d q, Reached allowed unused p → p.Brings d q → allowed p d →
      d.NotAheadOf p) (h : Reached allowed unused p) : p.Ledger unused := by
  induction h with
  | empty => exact ledger_empty
  | allocate before ih => exact ih.allocate.of_subperm (List.sublist_cons_self _ _).subperm
  | parameter before type name ih => exact ih.allocate
  | abandon before built ih =>
    exact (built.inOrder ih).of_subperm (List.sublist_append_left _ _).subperm
  | finish before built fresh ih => exact (built.inOrder ih).finish fresh
  | bring before brings meets ih => exact ih.bring brings (hpast _ _ _ _ before brings meets)
  | rename before done ih => exact ih.rename done
  | convert before done ih => exact ih.convert done

/-- Ids can be given out any number of times. -/
theorem allocate_many (h : Reached allowed unused p) (n : Nat) :
    Reached allowed unused { p with lastElement := p.lastElement + n } := by
  induction n with
  | zero => exact h
  | succ n ih => exact ih.allocate

/-- So can numbers of references, each time with a class that has one. -/
theorem exists_finish (h : Reached allowed unused p) :
    ∃ q, Reached allowed unused q ∧ q.lastReference = p.lastReference + 1 ∧
      (q.references.map Reference.id).Perm
        (nextIds p.lastReference 1 ++ p.references.map Reference.id) := by
  let b := (DeclarationBuilder.start p .class "" "").code (Code.ofReference ⟨0⟩ "")
  have hstart : DeclarationBuilder.Builds p unused unused (.start p .class "" "") := .start _ _ _
  have hwritten : b.declaration.references = [⟨.unassigned, ⟨0⟩, ""⟩] := rfl
  have hwaiting : waiting b.closed.references = 1 := by
    rw [b.references_closed, hwritten]
    rfl
  have hcarried : assignedIds b.closed.references = [] := by
    rw [b.references_closed, hwritten]
    rfl
  have hfresh : ∀ r ∈ b.declaration.references, r.id.isAssigned = false := by
    rw [hwritten]
    decide
  have hperm : b.finish.declarations.Perm
      ((b.closed.number p.lastReference).1 :: p.declarations) := by
    rw [b.finish_eq]
    exact List.perm_append_singleton _ _
  have hrefs := references_perm_of_perm hperm
  rw [hwaiting, hcarried, List.nil_append] at hrefs
  refine ⟨b.finish, h.finish (hstart.code _) hfresh, ?_, hrefs⟩
  have hcounted := (b.closed.number_numberedTo p.lastReference).counted
  rw [hwaiting] at hcounted
  rw [b.finish_eq]
  exact hcounted

theorem exists_finish_many (h : Reached allowed unused p) (n : Nat) :
    ∃ q, Reached allowed unused q ∧ q.lastReference = p.lastReference + n ∧
      (q.references.map Reference.id).Perm
        (nextIds p.lastReference n ++ p.references.map Reference.id) := by
  induction n with
  | zero => exact ⟨p, h, rfl, .refl _⟩
  | succ n ih =>
    obtain ⟨mid, hmid, hlast, hrefs⟩ := ih
    obtain ⟨q, hq, hnext, hnew⟩ := hmid.exists_finish
    refine ⟨q, hq, by rw [hnext, hlast, Nat.add_assoc], ?_⟩
    rw [nextIds_add, ← hlast]
    refine hnew.trans ((hrefs.append_left _).trans ?_)
    rw [← List.append_assoc]
    exact List.perm_append_comm.append_right _

/-- If ids stay in order whatever is done, then nothing that is brought in carries an element id
    that has still to be given out: giving out ids would arrive at it. -/
theorem elements_not_ahead (hsound : ∀ unused p, Reached allowed unused p → p.Sound)
    (h : Reached allowed unused p) {x : ElementId} (hx : x ∈ p.declaredIds) :
    x.index ≤ p.lastElement := by
  by_contra hahead
  have hlast := h.allocate_many (x.index - 1 - p.lastElement)
  have hfresh := (hsound _ _ hlast).fresh
  apply hfresh
  have hnext : p.lastElement + (x.index - 1 - p.lastElement) + 1 = x.index := by omega
  simp only [Project.allocate, hnext]
  exact hx

/-- The same goes for ids of references. -/
theorem references_not_ahead (hsound : ∀ unused p, Reached allowed unused p → p.Sound)
    (h : Reached allowed unused p) {r : Reference} (hr : r ∈ p.references) :
    r.id.index ≤ p.lastReference := by
  by_contra hahead
  obtain ⟨q, hq, -, hrefs⟩ := h.exists_finish_many (r.id.index - p.lastReference)
  have hdistinct := hrefs.nodup_iff.mp (hsound _ _ hq).references
  have hnew : r.id ∈ nextIds p.lastReference (r.id.index - p.lastReference) :=
    mem_nextIds.mpr ⟨by omega, by omega⟩
  exact (List.nodup_append.mp hdistinct).2.2 r.id hnew r.id (List.mem_map_of_mem hr) rfl

end Reached

/-- Ids are never reused exactly under those conditions that let nothing in which carries an id that
    the project has still to give out. Under any other condition a host can arrive at a project where
    two references share an id, or where the next element id is in use. -/
theorem sound_iff_notAheadOf (allowed : Project → Declaration → Prop) :
    (∀ unused p, Reached allowed unused p → p.Sound) ↔
      ∀ unused p d q, Reached allowed unused p → p.Brings d q → allowed p d → d.NotAheadOf p := by
  constructor
  · intro hsound unused p d q h hbrings hallowed
    have hq := h.bring hbrings hallowed
    obtain ⟨others, -, -, hperm, hlast, hlastReference⟩ := hbrings.exists_others
    have hids := declaredIds_perm_of_perm hperm
    have hrefs := references_perm_of_perm hperm
    refine ⟨fun x hx => ?_, fun id hid => ?_⟩
    · rw [← hlast]
      exact hq.elements_not_ahead hsound (hids.mem_iff.mpr (List.mem_append_left _ hx))
    · by_contra hahead
      have hin : id ∈ q.references.map Reference.id :=
        hrefs.mem_iff.mpr (List.mem_append_left _ (List.mem_append_left _ hid))
      obtain ⟨r, hr, rfl⟩ := List.mem_map.mp hin
      have hle := hq.references_not_ahead hsound hr
      rw [hlastReference, (d.number_numberedTo p.lastReference).counted] at hle
      have hdistinct := hrefs.nodup_iff.mp (hsound _ _ hq).references
      have hnext := mem_nextIds.mpr ⟨Nat.lt_of_not_le hahead, hle⟩
      have happart := (List.nodup_append.mp (List.nodup_append.mp hdistinct).1).2.2
      exact happart r.id hid r.id hnext rfl
  · intro hpast unused p h
    exact (h.ledger hpast).sound

/-- Fitting in is not enough. The class here is alone in its project, and still the next id that is
    given out is the one that it has. So a host that lets in all that fits in has let in something
    that is ahead. -/
theorem exists_reached_not_sound :
    ∃ p, Reached (fun _ _ => True) [] p ∧ ¬ p.Sound ∧
      ∃ unused p d q, Reached (fun _ _ => True) unused p ∧ p.Brings d q ∧ ¬ d.NotAheadOf p := by
  have hfits : (⟨⟨1⟩, "A.java", []⟩ : Declaration).Fits [] :=
    ⟨by decide, by decide, List.nodup_nil, nofun⟩
  have hreached : Reached (fun _ _ => True) [] (insert {} ⟨⟨1⟩, "A.java", []⟩) :=
    Reached.empty.bring (.insert hfits) trivial
  have hreused : ¬ Sound (insert {} ⟨⟨1⟩, "A.java", []⟩) := fun hsound => hsound.fresh (by decide)
  refine ⟨_, hreached, hreused, ?_⟩
  by_contra hnone
  refine hreused ((sound_iff_notAheadOf _).mpr (fun unused p d q h hbrings _ => ?_) _ _ hreached)
  by_contra hahead
  exact hnone ⟨unused, p, d, q, h, hbrings, hahead⟩

end ClassToRecord.Project
