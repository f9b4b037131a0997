import ClassToRecord.Proofs.Rename.Effect

namespace ClassToRecord

namespace Project

/-- The rename as it goes on in a project that is changed in place. The sites are checked before
    anything else, then the member gets its name, and the references come last. A refusal leaves
    behind what has been done by then. -/
def renameInPlace (p : Project) (element : ElementId) (newName : String)
    (sites : List ReferenceSite) : Project × Except Failure Unit :=
  match p.siteFault? element sites, p.owner? element with
  | some fault, _ => (p, refuse fault)
  | none, none => (p, refuse (.renamedMissing element))
  | none, some owner =>
    let named := { p with declarations := renameInOwner element newName p.declarations }
    if owner.hasMember element then
      ({ named with
        declarations := named.declarations.map
          (Declaration.respell (sites.map ReferenceSite.ref) newName) }, .ok ())
    else (named, refuse (.notRenameable element))

section Outcome

variable {p q : Project} {element : ElementId} {newName : String} {sites : List ReferenceSite}

/-- The owner of something that is no member has nothing to be renamed. -/
theorem renameInOwner_of_not_hasMember {owner : Declaration}
    (howner : p.owner? element = some owner) (hother : owner.hasMember element = false) :
    renameInOwner element newName p.declarations = p.declarations := by
  have hrest : ∀ ds : List Declaration, ds.find? (·.declares element) = some owner →
      renameInOwner element newName ds = ds := by
    intro ds hfirst
    induction ds with
    | nil => rfl
    | cons d rest ih =>
      rw [renameInOwner]
      split
      · next hdeclares =>
        simp only [List.find?_cons, hdeclares, Option.some.injEq] at hfirst
        rw [hfirst, Declaration.renameMember_of_not_hasMember hother]
      · next hdeclares =>
        simp only [List.find?_cons, hdeclares] at hfirst
        rw [ih hfirst]
  exact hrest p.declarations howner

/-- So the last refusal, too, finds the project as it was. -/
theorem renameInPlace_eq (p : Project) (element : ElementId) (newName : String)
    (sites : List ReferenceSite) :
    p.renameInPlace element newName sites =
      match p.renameElement element newName sites with
      | .ok q => (q, .ok ())
      | .error failure => (p, .error failure) := by
  unfold renameInPlace renameElement
  cases p.siteFault? element sites with
  | some fault => rfl
  | none =>
    cases howner : p.owner? element with
    | none => rfl
    | some owner =>
      cases hmember : owner.hasMember element with
      | true => simp [hmember]
      | false => simp [hmember, renameInOwner_of_not_hasMember howner hmember, refuse]

/-- Where elements differ, a rename goes through exactly if the sites name its element and stand at
    references that are there, and the element is a method or a field. -/
theorem exists_renameElement_iff (hdistinct : p.DistinctElements) :
    (∃ q, p.renameElement element newName sites = .ok q) ↔
      (∀ site ∈ sites, site.element = element ∧ p.HasReference site.ref) ∧
      ∃ d ∈ p.declarations, d.DeclaresMember element := by
  have hmember : (∃ owner, p.owner? element = some owner ∧ owner.hasMember element = true) ↔
      ∃ d ∈ p.declarations, d.DeclaresMember element := by
    simp only [← Declaration.hasMember_iff]
    constructor
    · rintro ⟨owner, howner, hmember⟩
      exact ⟨owner, List.mem_of_find?_eq_some howner, hmember⟩
    · rintro ⟨d, hd, hmember⟩
      have hdeclares := Declaration.declares_of_hasMember hmember
      exact ⟨d, hdistinct.owner?_eq_some_iff.mpr ⟨hd, hdeclares⟩, hmember⟩
  have hsites : p.siteFault? element sites = none ↔
      ∀ site ∈ sites, site.element = element ∧ p.HasReference site.ref := by
    simp only [siteFault?_eq_none_iff, hasReference_iff]
  rw [← hmember, ← hsites]
  constructor
  · rintro ⟨q, hq⟩
    obtain ⟨⟨hfault, howner⟩, -⟩ := renameElement_eq_ok_renamedAt_iff.mp hq
    exact ⟨hfault, howner⟩
  · rintro ⟨hfault, howner⟩
    exact ⟨_, renameElement_eq_ok_renamedAt_iff.mpr ⟨⟨hfault, howner⟩, rfl⟩⟩

/-- A rename that is made in place does all or nothing, and it does exactly this: the member and
    the references at the sites have the new name, as if they had never had another one. -/
theorem renameElement_outcome (hdistinct : p.DistinctElements) (element : ElementId)
    (newName : String) (sites : List ReferenceSite) :
    ((∃ q, p.renameElement element newName sites = .ok q) ↔
      (∀ site ∈ sites, site.element = element ∧ p.HasReference site.ref) ∧
      ∃ d ∈ p.declarations, d.DeclaresMember element) ∧
    (∀ failure, p.renameElement element newName sites = .error failure →
      p.renameInPlace element newName sites = (p, .error failure)) ∧
    ∀ q, p.renameElement element newName sites = .ok q →
      p.renameInPlace element newName sites = (q, .ok ()) ∧
      (∀ r, p.TurnsInto element newName (sites.map ReferenceSite.ref) r ↔ r = q) ∧
      ∀ newer, ∃ r, p.renameElement element newer sites = .ok r ∧
        q.renameElement element newer sites = .ok r := by
  refine ⟨exists_renameElement_iff hdistinct, fun failure h => ?_, fun q h => ⟨?_, ?_, ?_⟩⟩
  · rw [renameInPlace_eq, h]
  · rw [renameInPlace_eq, h]
  · obtain ⟨-, rfl⟩ := renameElement_eq_ok_renamedAt_iff.mp h
    exact fun _ => turnsInto_iff hdistinct
  · exact renameElement_renameElement h

end Outcome

end Project

namespace Points

/-- The only call of the accessor. -/
def call : ReferenceSite := ⟨⟨5⟩, ⟨7⟩, ⟨8⟩, "User.java", none⟩

/-- The accessor can be renamed twice, and a parameter is refused late but without a trace. -/
theorem renameElement_outcome_project :
    project.DistinctElements ∧
    (∃ q, project.renameElement ⟨7⟩ "left" [call] = .ok q ∧
      project.renameInPlace ⟨7⟩ "left" [call] = (q, .ok ()) ∧
      project.TurnsInto ⟨7⟩ "left" [⟨5⟩] q ∧
      ∃ r, project.renameElement ⟨7⟩ "x" [call] = .ok r ∧ q.renameElement ⟨7⟩ "x" [call] = .ok r) ∧
    project.renameInPlace ⟨6⟩ "left" [] = (project, refuse (.notRenameable ⟨6⟩)) := by
  have hdistinct : project.DistinctElements := by decide
  obtain ⟨hsucceeds, -, heffect⟩ := Project.renameElement_outcome hdistinct ⟨7⟩ "left" [call]
  obtain ⟨-, hrefused, -⟩ := Project.renameElement_outcome hdistinct ⟨6⟩ "left" []
  have hsites : ∀ site ∈ [call], site.element = ⟨7⟩ ∧ project.HasReference site.ref := by
    simp only [Project.hasReference_iff]
    decide
  have hmember : ∃ d ∈ project.declarations, d.DeclaresMember ⟨7⟩ := by
    simp only [← Declaration.hasMember_iff]
    decide
  obtain ⟨q, hq⟩ := hsucceeds.mpr ⟨hsites, hmember⟩
  obtain ⟨hplace, hturns, hagain⟩ := heffect q hq
  exact ⟨hdistinct, ⟨q, hq, hplace, (hturns q).mpr rfl, hagain "x"⟩, hrefused _ rfl⟩

end Points

/-- A reference bears another name after a rename if it stands at one of the sites and did not bear
    the new name already. -/
theorem Reference.name_respelled_ne_iff {refs : List RefId} {newName : String} {r : Reference} :
    (r.respelled refs newName).name ≠ r.name ↔ r.id ∈ refs ∧ r.name ≠ newName := by
  by_cases hrefs : r.id ∈ refs <;> simp [respelled, renamed, hrefs, eq_comm]

namespace Project

/-- Where two projects have the same references, those that bear different names in them are to the
    element. -/
def RespellsOwn (p q : Project) (element : ElementId) : Prop :=
  List.Forall₂ (fun old new => new.name ≠ old.name → old.target = element) p.references q.references

/-- A rename is refused if one of its sites stands at a reference to something else. -/
def RefusesForeign (p : Project) (element : ElementId) (newName : String)
    (sites : List ReferenceSite) : Prop :=
  ∀ site ∈ sites, ∀ r ∈ p.references, r.id = site.ref → r.target ≠ element →
    ∃ failure, p.renameElement element newName sites = .error failure

variable {p q : Project} {element : ElementId} {newName : String} {sites : List ReferenceSite}

/-- What a rename does to the references can be said of each of them. -/
theorem forall₂_references_renameElement {P : Reference → Reference → Prop}
    (h : p.renameElement element newName sites = .ok q) :
    List.Forall₂ P p.references q.references ↔
      ∀ r ∈ p.references, P r (r.respelled (sites.map ReferenceSite.ref) newName) := by
  rw [references_renameElement h, List.forall₂_map_right_iff, List.forall₂_same]

/-- A rename asks each site what its reference means, and does not ask the reference. It respells
    references only at sites that name its element, and these are references to the element exactly
    if the sites tell the truth, or the others bear the new name already. -/
theorem respellsOwn_iff (h : p.renameElement element newName sites = .ok q) :
    List.Forall₂ (fun old new => new.name ≠ old.name →
      ∃ site ∈ sites, site.ref = old.id ∧ site.element = element) p.references q.references ∧
    (p.RespellsOwn q element ↔ ∀ r ∈ p.references, r.id ∈ sites.map ReferenceSite.ref →
      r.target ≠ element → r.name = newName) ∧
    (p.RefusesForeign element newName sites ↔ ∀ r ∈ p.references,
      r.id ∈ sites.map ReferenceSite.ref → r.target = element) := by
  refine ⟨?_, ?_, ?_, ?_⟩
  · refine (forall₂_references_renameElement h).mpr fun r _ hname => ?_
    obtain ⟨site, hsite, href⟩ := List.mem_map.mp (Reference.name_respelled_ne_iff.mp hname).1
    obtain ⟨hrename, -⟩ := renameElement_eq_ok_renamedAt_iff.mp h
    exact ⟨site, hsite, href, (siteFault?_eq_none_iff.mp hrename.sites site hsite).1⟩
  · rw [RespellsOwn, forall₂_references_renameElement h]
    refine forall₂_congr fun r _ => ?_
    rw [Reference.name_respelled_ne_iff, and_imp]
    exact forall_congr' fun _ => not_imp_comm
  · intro hrefuses r hr hsite
    obtain ⟨site, hsite, href⟩ := List.mem_map.mp hsite
    by_contra hforeign
    obtain ⟨failure, hfails⟩ := hrefuses site hsite r hr href.symm hforeign
    rw [h] at hfails
    cases hfails
  · intro hown site hsite r hr href hforeign
    exact absurd (hown r hr (List.mem_map.mpr ⟨site, hsite, href.symm⟩)) hforeign

end Project

namespace Gauges

/-- A class with two methods. -/
def gauge : Declaration where
  id := ⟨1⟩
  file := "Gauge.java"
  children := [
    .keyword .class, .trivia (.whitespace " "), .identifier "Gauge", .code (.ofText " \x7b "),
    .method {
      id := ⟨2⟩
      modifiers := ⟨.public, []⟩
      returnType? := some "int"
      name := "level"
      parameters := []
      body := .ofText " \x7b return 1; \x7d" },
    .trivia (.whitespace " "),
    .method {
      id := ⟨3⟩
      modifiers := ⟨.public, []⟩
      returnType? := some "int"
      name := "peak"
      parameters := []
      body := .ofText " \x7b return 2; \x7d" },
    .code (.ofText " \x7d")]

/-- A class that calls one of them. -/
def panel (called : Reference) : Declaration where
  id := ⟨4⟩
  file := "Panel.java"
  children := [
    .keyword .class, .trivia (.whitespace " "), .identifier "Panel", .code (.ofText " \x7b "),
    .method {
      id := ⟨5⟩
      modifiers := ⟨.public, []⟩
      returnType? := some "int"
      name := "show"
      parameters := [⟨⟨6⟩, "Gauge", "g"⟩]
      body := .ofText " \x7b return " ++ ⟨[.ref ⟨⟨1⟩, ⟨6⟩, "g"⟩]⟩ ++ .ofText "." ++
        ⟨[.ref called]⟩ ++ .ofText "(); \x7d" },
    .code (.ofText " \x7d")]

def project (called : Reference) : Project := ⟨[gauge, panel called], 6, 2⟩

/-- The sites found for the first method are used after an edit, when the reference is to the other
    one. The call of the other method gets the new name of the first. -/
theorem not_respellsOwn_stale :
    (project ⟨⟨2⟩, ⟨2⟩, "level"⟩).referencesTo ⟨2⟩ = [⟨⟨2⟩, ⟨2⟩, ⟨4⟩, "Panel.java", none⟩] ∧
    ∃ q, (project ⟨⟨2⟩, ⟨3⟩, "peak"⟩).renameElement ⟨2⟩ "value"
        [⟨⟨2⟩, ⟨2⟩, ⟨4⟩, "Panel.java", none⟩] = .ok q ∧
      ¬ (project ⟨⟨2⟩, ⟨3⟩, "peak"⟩).RespellsOwn q ⟨2⟩ ∧
      ¬ (project ⟨⟨2⟩, ⟨3⟩, "peak"⟩).RefusesForeign ⟨2⟩ "value"
        [⟨⟨2⟩, ⟨2⟩, ⟨4⟩, "Panel.java", none⟩] := by
  refine ⟨by decide, ?_⟩
  have hrename : ∃ q, (project ⟨⟨2⟩, ⟨3⟩, "peak"⟩).renameElement ⟨2⟩ "value"
      [⟨⟨2⟩, ⟨2⟩, ⟨4⟩, "Panel.java", none⟩] = .ok q := ⟨_, rfl⟩
  obtain ⟨q, hq⟩ := hrename
  obtain ⟨-, hown, hforeign⟩ := Project.respellsOwn_iff hq
  exact ⟨q, hq, fun h => absurd (hown.mp h) (by decide), fun h => absurd (hforeign.mp h) (by decide)⟩

end Gauges

end ClassToRecord
