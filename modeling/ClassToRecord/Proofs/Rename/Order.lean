import ClassToRecord.Proofs.Rename.Phase
import ClassToRecord.Proofs.Rename.Respelling
import Mathlib.Data.List.Perm.Basic

namespace ClassToRecord

section Members

variable {element other : ElementId} {newName newer : String}

/-- New names for two different members do not get in each other's way. -/
theorem Child.renameMember_comm (hne : element ≠ other) (child : Child) :
    (child.renameMember element newName).renameMember other newer =
      (child.renameMember other newer).renameMember element newName := by
  cases child with
  | field f =>
    by_cases hid : f.id = element
    · simp [renameMember, hid, hne]
    · by_cases hother : f.id = other <;> simp [renameMember, hid, hother, hne.symm]
  | method m =>
    by_cases hid : m.id = element
    · simp [renameMember, hid, hne]
    · by_cases hother : m.id = other <;> simp [renameMember, hid, hother, hne.symm]
  | _ => rfl

/-- Of two new names for one member the later one counts. -/
theorem Child.renameMember_renameMember (child : Child) :
    (child.renameMember element newName).renameMember element newer =
      child.renameMember element newer := by
  cases child with
  | field f => by_cases hid : f.id = element <;> simp [renameMember, hid]
  | method m => by_cases hid : m.id = element <;> simp [renameMember, hid]
  | _ => rfl

/-- The name of a member is no part of its code. -/
theorem Child.renameMember_mapCode (f : Code → Code) (child : Child) :
    (child.mapCode f).renameMember element newName =
      (child.renameMember element newName).mapCode f := by
  cases child with
  | field fld => by_cases hid : fld.id = element <;> simp [renameMember, mapCode, hid]
  | method m => by_cases hid : m.id = element <;> simp [renameMember, mapCode, hid]
  | _ => rfl

theorem Child.mapCode_mapCode (f g : Code → Code) (child : Child) :
    (child.mapCode f).mapCode g = child.mapCode (g ∘ f) := by
  cases child with
  | field fld => simp [mapCode]
  | _ => rfl

namespace Declaration

theorem renameMember_comm (hne : element ≠ other) (d : Declaration) :
    (d.renameMember element newName).renameMember other newer =
      (d.renameMember other newer).renameMember element newName := by
  simp only [renameMember, List.map_map, Declaration.mk.injEq, true_and]
  exact List.map_congr_left fun child _ => child.renameMember_comm hne

theorem renameMember_renameMember (d : Declaration) :
    (d.renameMember element newName).renameMember element newer =
      d.renameMember element newer := by
  simp only [renameMember, List.map_map, Declaration.mk.injEq, true_and]
  exact List.map_congr_left fun child _ => child.renameMember_renameMember

theorem renameMember_respell (refs : List RefId) (d : Declaration) :
    (d.respell refs newer).renameMember element newName =
      (d.renameMember element newName).respell refs newer := by
  simp only [renameMember, respell, mapReferences, List.map_map, Declaration.mk.injEq, true_and]
  exact List.map_congr_left fun child _ => child.renameMember_mapCode _

/-- Two rounds of new spellings come to what they do to each reference. -/
theorem respell_respell {refs others : List RefId} {f : Reference → Reference}
    (hf : ∀ r : Reference, (r.respelled refs newName).respelled others newer = f r)
    (d : Declaration) : (d.respell refs newName).respell others newer = d.mapReferences f := by
  have hcode : Code.mapReferences (Reference.respelled others newer) ∘
      Code.mapReferences (Reference.respelled refs newName) = Code.mapReferences f := by
    funext c
    exact (c.mapReferences_mapReferences _ _).trans (Code.mapReferences_congr fun r _ => hf r)
  have hchild : ∀ child : Child,
      (child.mapCode (Code.mapReferences (Reference.respelled refs newName))).mapCode
        (Code.mapReferences (Reference.respelled others newer)) =
      child.mapCode (Code.mapReferences f) :=
    fun child => (child.mapCode_mapCode _ _).trans (congrArg child.mapCode hcode)
  simp only [respell, mapReferences, List.map_map, Declaration.mk.injEq, true_and]
  exact List.map_congr_left fun child _ => hchild child

theorem respell_comm {refs others : List RefId} (hapart : refs.Disjoint others)
    (d : Declaration) : (d.respell refs newName).respell others newer =
      (d.respell others newer).respell refs newName := by
  rw [respell_respell (fun _ => rfl) d]
  refine (respell_respell (fun r => ?_) d).symm
  by_cases hrefs : r.id ∈ refs
  · have hothers : r.id ∉ others := fun h => hapart hrefs h
    simp [Reference.respelled, Reference.renamed, hrefs, hothers]
  · by_cases hothers : r.id ∈ others <;>
      simp [Reference.respelled, Reference.renamed, hrefs, hothers]

theorem respell_respell_self (refs : List RefId) (d : Declaration) :
    (d.respell refs newName).respell refs newer = d.respell refs newer := by
  refine respell_respell (fun r => ?_) d
  by_cases hrefs : r.id ∈ refs <;> simp [Reference.respelled, Reference.renamed, hrefs]

@[simp] theorem declares_renameMember (d : Declaration) (id : ElementId) :
    (d.renameMember element newName).declares id = d.declares id := by
  simp [declares]

@[simp] theorem declares_respell (refs : List RefId) (d : Declaration) (id : ElementId) :
    (d.respell refs newName).declares id = d.declares id := by
  simp [declares]

end Declaration

namespace Project

theorem renameInOwner_comm (hne : element ≠ other) (ds : List Declaration) :
    renameInOwner other newer (renameInOwner element newName ds) =
      renameInOwner element newName (renameInOwner other newer ds) := by
  induction ds with
  | nil => rfl
  | cons d rest ih =>
    by_cases helement : d.declares element = true <;> by_cases hother : d.declares other = true
    · simp [renameInOwner, helement, hother, d.renameMember_comm hne]
    · simp [renameInOwner, helement, hother]
    · simp [renameInOwner, helement, hother]
    · simp [renameInOwner, helement, hother, ih]

theorem renameInOwner_renameInOwner (ds : List Declaration) :
    renameInOwner element newer (renameInOwner element newName ds) =
      renameInOwner element newer ds := by
  induction ds with
  | nil => rfl
  | cons d rest ih =>
    by_cases helement : d.declares element = true
    · simp [renameInOwner, helement, d.renameMember_renameMember]
    · simp [renameInOwner, helement, ih]

theorem renameInOwner_map_respell (refs : List RefId) (ds : List Declaration) :
    renameInOwner element newName (ds.map (Declaration.respell refs newer)) =
      (renameInOwner element newName ds).map (Declaration.respell refs newer) := by
  induction ds with
  | nil => rfl
  | cons d rest ih =>
    by_cases helement : d.declares element = true
    · simp [renameInOwner, helement, d.renameMember_respell]
    · simp [renameInOwner, helement, ih]

end Project

end Members

namespace Project

/-- A rename of the element goes through with these sites. The new name does not matter. -/
structure Renameable (p : Project) (element : ElementId) (sites : List ReferenceSite) : Prop where
  sites : p.siteFault? element sites = none
  member : ∃ owner, p.owner? element = some owner ∧ owner.hasMember element = true

/-- The first declaration of an element and the references with some ids under a new name. -/
def renamedAt (p : Project) (element : ElementId) (newName : String) (refs : List RefId) :
    Project :=
  { p with
    declarations :=
      (renameInOwner element newName p.declarations).map (Declaration.respell refs newName) }

section Element

variable {p q r : Project} {element other : ElementId} {newName newer : String}
  {sites others : List ReferenceSite}

theorem renameElement_eq_ok_renamedAt_iff :
    p.renameElement element newName sites = .ok q ↔
      p.Renameable element sites ∧ q = p.renamedAt element newName (sites.map ReferenceSite.ref) := by
  rw [renameElement_eq_ok_iff]
  exact ⟨fun ⟨hfault, hmember, hq⟩ => ⟨⟨hfault, hmember⟩, hq⟩,
    fun ⟨⟨hfault, hmember⟩, hq⟩ => ⟨hfault, hmember, hq⟩⟩

/-- Renames of other elements do not decide whether a rename goes through. -/
theorem renameable_renameElement (h : p.renameElement element newName sites = .ok q) :
    q.Renameable other others ↔ p.Renameable other others := by
  have hfault : q.siteFault? other others = none ↔ p.siteFault? other others = none := by
    rw [siteFault?_eq_none_iff, siteFault?_eq_none_iff, map_id_references_renameElement h]
  have howner : (q.owner? other).map (·.hasMember other) =
      (p.owner? other).map (·.hasMember other) := by
    have hread : q.declarations.map (fun d => (d.declares other, d.hasMember other)) =
        p.declarations.map fun d => (d.declares other, d.hasMember other) :=
      map_declarations_renameElement (by simp) (by simp) h
    have hfound := congrArg (fun l => (l.find? Prod.fst).map Prod.snd) hread
    simp only [List.find?_map, Option.map_map] at hfound
    exact hfound
  have hmember : (∃ owner, q.owner? other = some owner ∧ owner.hasMember other = true) ↔
      ∃ owner, p.owner? other = some owner ∧ owner.hasMember other = true := by
    rw [← Option.map_eq_some_iff, howner, Option.map_eq_some_iff]
  exact ⟨fun h => ⟨hfault.mp h.sites, hmember.mp h.member⟩,
    fun h => ⟨hfault.mpr h.sites, hmember.mpr h.member⟩⟩

theorem renamedAt_comm {refs refs' : List RefId} (hne : element ≠ other)
    (hapart : refs.Disjoint refs') :
    (p.renamedAt element newName refs).renamedAt other newer refs' =
      (p.renamedAt other newer refs').renamedAt element newName refs := by
  simp only [renamedAt, renameInOwner_map_respell, List.map_map, Project.mk.injEq, and_true]
  rw [renameInOwner_comm hne]
  exact List.map_congr_left fun d _ => d.respell_comm hapart

theorem renamedAt_renamedAt (refs : List RefId) :
    (p.renamedAt element newName refs).renamedAt element newer refs =
      p.renamedAt element newer refs := by
  simp only [renamedAt, renameInOwner_map_respell, List.map_map, renameInOwner_renameInOwner,
    Project.mk.injEq, and_true]
  exact List.map_congr_left fun d _ => d.respell_respell_self refs

/-- Two renames of different elements with sites of their own can change places. -/
theorem renameElement_comm (hne : element ≠ other)
    (hapart : (sites.map ReferenceSite.ref).Disjoint (others.map ReferenceSite.ref))
    (hfirst : p.renameElement element newName sites = .ok q)
    (hsecond : q.renameElement other newer others = .ok r) :
    ∃ next, p.renameElement other newer others = .ok next ∧
      next.renameElement element newName sites = .ok r := by
  obtain ⟨helement, rfl⟩ := renameElement_eq_ok_renamedAt_iff.mp hfirst
  obtain ⟨hother, rfl⟩ := renameElement_eq_ok_renamedAt_iff.mp hsecond
  have hearlier : p.renameElement other newer others =
      .ok (p.renamedAt other newer (others.map ReferenceSite.ref)) :=
    renameElement_eq_ok_renamedAt_iff.mpr ⟨(renameable_renameElement hfirst).mp hother, rfl⟩
  refine ⟨_, hearlier, renameElement_eq_ok_renamedAt_iff.mpr ⟨?_, ?_⟩⟩
  · exact (renameable_renameElement hearlier).mpr helement
  · exact renamedAt_comm hne hapart

/-- A rename that follows another one of the same member undoes it. -/
theorem renameElement_renameElement (h : p.renameElement element newName sites = .ok q)
    (newer : String) : ∃ r, p.renameElement element newer sites = .ok r ∧
      q.renameElement element newer sites = .ok r := by
  obtain ⟨hrename, rfl⟩ := renameElement_eq_ok_renamedAt_iff.mp h
  refine ⟨p.renamedAt element newer (sites.map ReferenceSite.ref), ?_, ?_⟩
  · exact renameElement_eq_ok_renamedAt_iff.mpr ⟨hrename, rfl⟩
  · refine renameElement_eq_ok_renamedAt_iff.mpr ⟨(renameable_renameElement h).mpr hrename, ?_⟩
    exact (renamedAt_renamedAt _).symm

/-- Nor does it matter in which order the sites are listed. -/
theorem renameElement_of_perm (hperm : sites.Perm others)
    (h : p.renameElement element newName sites = .ok q) :
    p.renameElement element newName others = .ok q := by
  obtain ⟨hrename, rfl⟩ := renameElement_eq_ok_renamedAt_iff.mp h
  have hsites := siteFault?_eq_none_iff.mp hrename.sites
  have hrespell : Declaration.respell (sites.map ReferenceSite.ref) newName =
      Declaration.respell (others.map ReferenceSite.ref) newName := by
    funext d
    simp only [Declaration.respell, (hperm.map ReferenceSite.ref).contains_eq]
  refine renameElement_eq_ok_renamedAt_iff.mpr ⟨⟨?_, hrename.member⟩, ?_⟩
  · exact siteFault?_eq_none_iff.mpr fun site hsite => hsites site (hperm.mem_iff.mpr hsite)
  · rw [renamedAt, renamedAt, hrespell]

end Element

end Project

/-- No reference is claimed by sites of two different elements. -/
def SitesApart (sites : List ReferenceSite) : Prop :=
  ∀ site ∈ sites, ∀ other ∈ sites, site.ref = other.ref → site.element = other.element

instance (sites : List ReferenceSite) : Decidable (SitesApart sites) :=
  inferInstanceAs (Decidable (∀ site ∈ sites, ∀ other ∈ sites, _ → _))

theorem SitesApart.disjoint {sites : List ReferenceSite} (h : SitesApart sites)
    {element other : ElementId} (hne : element ≠ other) :
    ((sitesFor element sites).map ReferenceSite.ref).Disjoint
      ((sitesFor other sites).map ReferenceSite.ref) := by
  intro ref hmem hother
  obtain ⟨site, hsite, rfl⟩ := List.mem_map.mp hmem
  obtain ⟨site', hsite', hsame⟩ := List.mem_map.mp hother
  obtain ⟨hsite, helement⟩ := List.mem_filter.mp hsite
  obtain ⟨hsite', helement'⟩ := List.mem_filter.mp hsite'
  have heq := h site hsite site' hsite' hsame.symm
  exact hne ((of_decide_eq_true helement).symm.trans (heq.trans (of_decide_eq_true helement')))

namespace RenamesTo

variable {sites others : List ReferenceSite} {p q : Project}
  {entries entries' : List (ElementId × String)}

/-- Renames of different elements can be made in any order. -/
theorem perm (hperm : entries.Perm entries') (hapart : SitesApart sites)
    (hkeys : (entries.map Prod.fst).Nodup) (hrun : RenamesTo sites p entries q) :
    RenamesTo sites p entries' q := by
  induction hperm generalizing p with
  | nil => exact hrun
  | cons entry hrest ih =>
    cases hrun with
    | cons hfirst hothers => exact .cons hfirst (ih (List.nodup_cons.mp hkeys).2 hothers)
  | swap first second rest =>
    cases hrun with
    | cons hfirst hothers =>
      cases hothers with
      | cons hsecond hothers =>
        have hne := fun h => (List.nodup_cons.mp hkeys).1 (List.mem_cons.mpr (.inl h))
        obtain ⟨next, hearlier, hlater⟩ :=
          Project.renameElement_comm hne (hapart.disjoint hne) hfirst hsecond
        exact .cons hearlier (.cons hlater hothers)
  | trans hleft _ ihleft ihright =>
    have hmiddle := (hleft.map Prod.fst).nodup_iff.mp hkeys
    exact ihright hmiddle (ihleft hkeys hrun)

/-- The order of the sites does not matter to any number of renames. -/
theorem of_sites_perm (hperm : sites.Perm others) (hrun : RenamesTo sites p entries q) :
    RenamesTo others p entries q := by
  induction hrun with
  | nil p => exact .nil p
  | cons hfirst _ ih => exact .cons (Project.renameElement_of_perm (hperm.filter _) hfirst) ih

end RenamesTo

namespace Project

theorem rewrittenBy_of_perm {sites others : List ReferenceSite}
    {entries entries' : List (ElementId × String)} (hentries : entries.Perm entries')
    (hsites : sites.Perm others) : rewrittenBy sites entries = rewrittenBy others entries' := by
  have hown : ∀ entry ∈ entries, (sitesFor entry.1 sites).Perm (sitesFor entry.1 others) :=
    fun _ _ => hsites.filter _
  exact ((List.Perm.flatMap_left entries hown).trans (hentries.flatMap_right _)).length_eq

variable {p q : Project} {plan plan' : RenamePlan} {usages usages' : List Usage} {count : Nat}

theorem applyRenames_of_perm (hapart : SitesApart (sitesOf usages))
    (hplan : plan.entries.Perm plan'.entries) (husages : usages.Perm usages')
    (h : p.applyRenames plan usages = ⟨q, .ok count⟩) :
    p.applyRenames plan' usages' = ⟨q, .ok count⟩ := by
  obtain ⟨hrun, rfl⟩ := applyRenames_eq_ok_iff.mp h
  have hsites : (sitesOf usages).Perm (sitesOf usages') := husages.filterMap _
  refine applyRenames_eq_ok_iff.mpr ⟨?_, rewrittenBy_of_perm hplan hsites⟩
  exact (hrun.perm hplan hapart plan.nodup_keys).of_sites_perm hsites

/-- Where no reference is claimed by sites of two elements, neither the order of the plan nor that
    of the usages matters: all orders lead to the same project and rewrite equally many sites, or
    none of them can be carried out. -/
theorem applyRenames_perm (hapart : SitesApart (sitesOf usages)) :
    (∃ q count, ∀ plan' usages', plan.entries.Perm plan'.entries → usages.Perm usages' →
      p.applyRenames plan' usages' = ⟨q, .ok count⟩) ∨
    ∀ plan' usages', plan.entries.Perm plan'.entries → usages.Perm usages' →
      ∃ q failure, p.applyRenames plan' usages' = ⟨q, .error failure⟩ := by
  rcases hrun : p.applyRenames plan usages with ⟨q, failure | count⟩
  · refine .inr fun plan' usages' hplan husages => ?_
    rcases hother : p.applyRenames plan' usages' with ⟨q', failure' | count⟩
    · exact ⟨q', failure', rfl⟩
    · have hapart' : SitesApart (sitesOf usages') := by
        have hsites := husages.filterMap Usage.site?
        intro site hsite other hother
        exact hapart site (hsites.mem_iff.mpr hsite) other (hsites.mem_iff.mpr hother)
      have hback := applyRenames_of_perm hapart' hplan.symm husages.symm hother
      rw [hrun] at hback
      cases hback
  · exact .inl ⟨q, count, fun _ _ hplan husages => applyRenames_of_perm hapart hplan husages hrun⟩

end Project

namespace Points

/-- A plan that renames a field and a method of the class, and the sites of both. -/
def plan : RenamePlan := ⟨[(⟨7⟩, "abscissa"), (⟨4⟩, "left")], by decide⟩

def planned : List Usage := [
  .accessorRename ⟨7⟩ "abscissa" none,
  .accessorRename ⟨7⟩ "abscissa" (some ⟨⟨5⟩, ⟨7⟩, ⟨8⟩, "User.java", none⟩),
  .accessorRename ⟨4⟩ "left" (some ⟨⟨1⟩, ⟨4⟩, ⟨3⟩, "Point.java", none⟩),
  .accessorRename ⟨4⟩ "left" (some ⟨⟨3⟩, ⟨4⟩, ⟨3⟩, "Point.java", none⟩)]

/-- All orders of the two renames and of the three sites lead to one project. -/
theorem applyRenames_perm_project :
    SitesApart (sitesOf planned) ∧
    ∃ q, ∀ plan' usages', plan.entries.Perm plan'.entries → planned.Perm usages' →
      project.applyRenames plan' usages' = ⟨q, .ok 3⟩ := by
  have hapart : SitesApart (sitesOf planned) := by decide
  have hrun : ∃ q, project.applyRenames plan planned = ⟨q, .ok 3⟩ := ⟨_, rfl⟩
  obtain ⟨q, hrun⟩ := hrun
  refine ⟨hapart, q, ?_⟩
  obtain ⟨q', count, hall⟩ | hall := @Project.applyRenames_perm project plan planned hapart
  · have hsame := hall plan planned (.refl _) (.refl _)
    rw [hrun] at hsame
    cases hsame
    exact hall
  · obtain ⟨q', failure, hfails⟩ := hall plan planned (.refl _) (.refl _)
    rw [hrun] at hfails
    cases hfails

end Points

end ClassToRecord
