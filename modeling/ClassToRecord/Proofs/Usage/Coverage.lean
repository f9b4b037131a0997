import ClassToRecord.Proofs.Rename.Run
import ClassToRecord.Proofs.Usage.Origin

open ClassToRecord.Traversal

namespace ClassToRecord

/-- The collected sites are those of all references to planned elements and of no others, and
    whatever has to be renamed together with a marked target is planned. -/
structure CollectedUsages.Covers (acc : CollectedUsages) (p : Project) : Prop where
  planned : ∀ site ∈ sitesOf acc.usages,
    ∃ d ∈ p.declarations, ∃ r ∈ d.references, site.PointsTo d r ∧ r.target ∈ acc.plan.keys
  found : ∀ d ∈ p.declarations, ∀ r ∈ d.references, r.target ∈ acc.plan.keys →
    ∃ site ∈ sitesOf acc.usages, site.PointsTo d r
  together : ∀ target newName, .accessorRename target newName none ∈ acc.usages →
    ∀ x ∈ p.renamedTogether target, x ∈ acc.plan.keys

namespace CollectedUsages

/-- Usages that ask for no rename change nothing about the planned ones. -/
theorem Covers.append_structural {acc : CollectedUsages} {p : Project} (h : acc.Covers p)
    (more : List Usage) (hmore : ∀ usage ∈ more, usage.isStructural = true) :
    ({ acc with usages := acc.usages ++ more } : CollectedUsages).Covers p := by
  have hsites : sitesOf (acc.usages ++ more) = sitesOf acc.usages := by
    rw [sitesOf_append, sitesOf_eq_nil_of_structural hmore, List.append_nil]
  refine ⟨?_, ?_, ?_⟩
  · simpa only [hsites] using h.planned
  · simpa only [hsites] using h.found
  · intro target newName hmarker
    rcases List.mem_append.mp hmarker with hold | hnew
    · exact h.together target newName hold
    · exact absurd (hmore _ hnew) Bool.false_ne_true

/-- Every collected site is one of a planned element. -/
theorem Covers.element_mem_keys {acc : CollectedUsages} {p : Project} (h : acc.Covers p)
    {site : ReferenceSite} (hsite : site ∈ sitesOf acc.usages) : site.element ∈ acc.plan.keys := by
  obtain ⟨_, _, r, _, hpoints, hkey⟩ := h.planned site hsite
  exact hpoints.element ▸ hkey

/-- Where no two references share an id, the sites kept for a planned element are exact. -/
theorem Covers.exactSites {acc : CollectedUsages} {p : Project} (h : acc.Covers p)
    (hdistinct : p.DistinctReferences) {element : ElementId} (hkey : element ∈ acc.plan.keys) :
    p.ExactSites (sitesOf acc.usages) element := by
  intro r hr
  rw [List.mem_map]
  constructor
  · rintro ⟨site, hsite, href⟩
    obtain ⟨hsite, htarget⟩ := List.mem_filter.mp hsite
    obtain ⟨d, hd, r', hr', hpoints, _⟩ := h.planned site hsite
    have hr'p := Project.mem_references_iff.mpr ⟨d, hd, hr'⟩
    have heq := List.inj_on_of_nodup_map hdistinct hr'p hr (hpoints.ref.symm.trans href)
    rw [← heq, ← hpoints.element]
    exact of_decide_eq_true htarget
  · rintro rfl
    obtain ⟨d, hd, hrd⟩ := Project.mem_references_iff.mp hr
    obtain ⟨site, hsite, hpoints⟩ := h.found d hd r hrd hkey
    exact ⟨site, List.mem_filter.mpr ⟨hsite, decide_eq_true hpoints.element⟩, hpoints.ref⟩

end CollectedUsages

namespace Project

/-- Planning one more rename keeps the sites those of the planned elements. Sites of elements that
    an earlier rename has planned are there already. -/
theorem collectRename_covers {p : Project} {target : ElementId} {newName : String}
    {acc acc' : CollectedUsages} (hacc : acc.Covers p)
    (h : p.collectRename target newName acc = .ok acc') : acc'.Covers p := by
  have hkeys : ∀ x, x ∈ acc'.plan.keys ↔ x ∈ acc.plan.keys ∨ x ∈ p.renamedTogether target :=
    fun _ => mem_keys_of_collectRename h
  have hsites : sitesOf acc'.usages = sitesOf acc.usages ++
      p.declarations.flatMap (p.usagesIn (p.renamedTogether target) newName acc'.plan) := by
    rw [(collectRename_eq_ok h).2, sitesOf_append, sitesOf_renaming]
  refine ⟨?_, ?_, ?_⟩
  · intro site hsite
    rw [hsites] at hsite
    rcases List.mem_append.mp hsite with hold | hnew
    · obtain ⟨d, hd, r, hr, hpoints, hkey⟩ := hacc.planned site hold
      exact ⟨d, hd, r, hr, hpoints, (hkeys _).mpr (.inl hkey)⟩
    · obtain ⟨d, hd, hin⟩ := List.mem_flatMap.mp hnew
      obtain ⟨r, hr, hpoints, hwanted⟩ := mem_usagesIn hin
      exact ⟨d, hd, r, hr, hpoints, (hkeys _).mpr (.inr hwanted)⟩
  · intro d hd r hr hkey
    rw [hsites]
    rcases (hkeys _).mp hkey with hold | hwanted
    · obtain ⟨site, hsite, hpoints⟩ := hacc.found d hd r hr hold
      exact ⟨site, List.mem_append_left _ hsite, hpoints⟩
    · obtain ⟨site, hsite, hpoints⟩ := p.exists_mem_usagesIn newName acc'.plan hr hwanted
      exact ⟨site, List.mem_append_right _ (List.mem_flatMap.mpr ⟨d, hd, hsite⟩), hpoints⟩
  · intro marked markedName hmarker x hx
    rcases (marker_mem_iff_of_collectRename h).mp hmarker with hold | ⟨rfl, -⟩
    · exact (hkeys x).mpr (.inl (hacc.together marked markedName hold x hx))
    · exact (hkeys x).mpr (.inr hx)

/-- What one key field brings keeps the sites those of the planned elements. -/
theorem collectField_covers {p : Project} {acc acc' : CollectedUsages}
    {entry : ElementId × Option AccessorBinding} (hacc : acc.Covers p)
    (h : p.collectField acc entry = .ok acc') : acc'.Covers p := by
  obtain ⟨direct, hdirect, hbrings⟩ := collectField_eq_ok h
  have hwith := hacc.append_structural direct (hdirect ▸ structural_directUsages)
  rcases hbrings with ⟨-, rfl⟩ | ⟨target, newName, -, hrename⟩
  · exact hwith
  · exact collectRename_covers hwith hrename

/-- The sites that are collected for a candidate are those of all references to the elements that
    get new names, and the overriders of a renamed method get them too. -/
theorem collect_covers {p : Project} {c : Candidate} {searchWeakened : Bool}
    {collected : CollectedUsages} (h : p.collect c searchWeakened = .ok collected) :
    collected.Covers p := by
  obtain ⟨acc, risks, hfold, hrisks, rfl⟩ := collect_eq_ok h
  have hstart : ({} : CollectedUsages).Covers p := ⟨nofun, nofun, nofun⟩
  have hacc : acc.Covers p :=
    foldlM_invariant (CollectedUsages.Covers · p) (fun _ _ _ _ => collectField_covers) hstart hfold
  exact hacc.append_structural risks (structural_of_kind hrisks)

end Project

end ClassToRecord
