import ClassToRecord.Proofs.Rename.Element
import ClassToRecord.Proofs.Traversal

namespace ClassToRecord

/-- The sites that a rename of one element is given. -/
def sitesFor (element : ElementId) (sites : List ReferenceSite) : List ReferenceSite :=
  sites.filter (·.element = element)

/-- Renames that all succeed, one after the other, and the project that they end with. -/
inductive RenamesTo (sites : List ReferenceSite) :
    Project → List (ElementId × String) → Project → Prop where
  | nil (p : Project) : RenamesTo sites p [] p
  | cons {p q r : Project} {element : ElementId} {newName : String}
      {rest : List (ElementId × String)}
      (first : p.renameElement element newName (sitesFor element sites) = .ok q)
      (others : RenamesTo sites q rest r) : RenamesTo sites p ((element, newName) :: rest) r

namespace Project

/-- How many sites a list of renames rewrites. -/
def rewrittenBy (sites : List ReferenceSite) (entries : List (ElementId × String)) : Nat :=
  (entries.flatMap fun entry => sitesFor entry.1 sites).length

private theorem rewrittenBy_cons (site : ReferenceSite) (sites : List ReferenceSite)
    (entries : List (ElementId × String)) :
    rewrittenBy (site :: sites) entries =
      rewrittenBy sites entries + (entries.map Prod.fst).count site.element := by
  induction entries with
  | nil => rfl
  | cons entry rest ih =>
    simp only [rewrittenBy, List.flatMap_cons, List.length_append] at ih ⊢
    rw [ih, List.map_cons, List.count_cons, sitesFor, sitesFor, List.filter_cons]
    by_cases hown : site.element = entry.1
    · simp [hown]
      omega
    · simp [hown, Ne.symm hown]
      omega

/-- Renames of different elements rewrite each of their sites once. -/
theorem rewrittenBy_eq_length {sites : List ReferenceSite} {entries : List (ElementId × String)}
    (hkeys : (entries.map Prod.fst).Nodup)
    (hsites : ∀ site ∈ sites, site.element ∈ entries.map Prod.fst) :
    rewrittenBy sites entries = sites.length := by
  induction sites with
  | nil => simp [rewrittenBy, sitesFor]
  | cons site rest ih =>
    obtain ⟨hsite, hrest⟩ := List.forall_mem_cons.mp hsites
    rw [rewrittenBy_cons, ih hrest, List.count_eq_one_of_mem hkeys hsite, List.length_cons]

section Steps

variable {sites : List ReferenceSite} {p q : Project} {count total : Nat}
  {element : ElementId} {newName : String} {rest entries : List (ElementId × String)}

private theorem renameEach_cons_of_ok
    (h : p.renameElement element newName (sitesFor element sites) = .ok q) :
    renameEach sites p count ((element, newName) :: rest) =
      renameEach sites q (count + (sitesFor element sites).length) rest := by
  rw [sitesFor] at h
  simp only [renameEach, h, during, Except.mapError, sitesFor]

private theorem renameEach_cons_of_error {failure : Failure}
    (h : p.renameElement element newName (sitesFor element sites) = .error failure) :
    renameEach sites p count ((element, newName) :: rest) =
      ⟨p, .error (failure.within (.renaming element newName))⟩ := by
  rw [sitesFor] at h
  simp only [renameEach, h, during, Except.mapError]

private theorem renameEach_eq_ok_iff :
    renameEach sites p count entries = ⟨q, .ok total⟩ ↔
      RenamesTo sites p entries q ∧ total = count + rewrittenBy sites entries := by
  induction entries generalizing p count with
  | nil =>
    simp only [renameEach, RenameRun.mk.injEq, Except.ok.injEq, rewrittenBy, List.flatMap_nil,
      List.length_nil, Nat.add_zero]
    constructor
    · rintro ⟨rfl, rfl⟩
      exact ⟨.nil p, rfl⟩
    · rintro ⟨⟨⟩, rfl⟩
      exact ⟨rfl, rfl⟩
  | cons entry rest ih =>
    obtain ⟨element, newName⟩ := entry
    cases hfirst : p.renameElement element newName (sitesFor element sites) with
    | error failure =>
      rw [renameEach_cons_of_error hfirst]
      constructor
      · intro h
        simp at h
      · rintro ⟨hrun, _⟩
        cases hrun with
        | cons first _ =>
          rw [hfirst] at first
          cases first
    | ok next =>
      rw [renameEach_cons_of_ok hfirst, ih]
      simp only [rewrittenBy, List.flatMap_cons, List.length_append, Nat.add_assoc]
      constructor
      · rintro ⟨hrun, rfl⟩
        exact ⟨.cons hfirst hrun, rfl⟩
      · rintro ⟨hrun, rfl⟩
        cases hrun with
        | cons first others =>
          rw [hfirst] at first
          cases first
          exact ⟨others, rfl⟩

private theorem renameEach_eq_error_iff {failure : Failure} :
    renameEach sites p count entries = ⟨q, .error failure⟩ ↔
      ∃ done element newName rest cause, entries = done ++ (element, newName) :: rest ∧
        RenamesTo sites p done q ∧
        q.renameElement element newName (sitesFor element sites) = .error cause ∧
        failure = cause.within (.renaming element newName) := by
  induction entries generalizing p count with
  | nil => simp [renameEach]
  | cons entry rest ih =>
    obtain ⟨element, newName⟩ := entry
    cases hfirst : p.renameElement element newName (sitesFor element sites) with
    | error cause =>
      rw [renameEach_cons_of_error hfirst, RenameRun.mk.injEq, Except.error.injEq]
      constructor
      · rintro ⟨rfl, rfl⟩
        exact ⟨[], element, newName, rest, cause, rfl, .nil p, hfirst, rfl⟩
      · rintro ⟨done, element', newName', rest', cause', heq, hrun, hcause, rfl⟩
        cases hrun with
        | nil =>
          cases heq
          rw [hfirst] at hcause
          cases hcause
          exact ⟨rfl, rfl⟩
        | cons first _ =>
          cases heq
          rw [hfirst] at first
          cases first
    | ok next =>
      rw [renameEach_cons_of_ok hfirst, ih]
      constructor
      · rintro ⟨done, element', newName', rest', cause, rfl, hrun, hcause, rfl⟩
        exact ⟨(element, newName) :: done, element', newName', rest', cause, rfl,
          .cons hfirst hrun, hcause, rfl⟩
      · rintro ⟨done, element', newName', rest', cause, heq, hrun, hcause, rfl⟩
        cases hrun with
        | nil =>
          cases heq
          rw [hfirst] at hcause
          cases hcause
        | cons first others =>
          cases heq
          rw [hfirst] at first
          cases first
          exact ⟨_, element', newName', rest', cause, rfl, others, hcause, rfl⟩

end Steps

/-- A plan is carried out in full exactly if each of its renames succeeds on what the earlier ones
    have left. -/
theorem applyRenames_eq_ok_iff {p q : Project} {plan : RenamePlan} {usages : List Usage}
    {count : Nat} :
    p.applyRenames plan usages = ⟨q, .ok count⟩ ↔
      RenamesTo (sitesOf usages) p plan.entries q ∧
      count = rewrittenBy (sitesOf usages) plan.entries := by
  rw [applyRenames, renameEach_eq_ok_iff, Nat.zero_add]

/-- A plan that fails stops at the first rename that does. What it leaves behind are the earlier
    renames, and its failure names the rename that was under way. -/
theorem applyRenames_eq_error_iff {p q : Project} {plan : RenamePlan} {usages : List Usage}
    {failure : Failure} :
    p.applyRenames plan usages = ⟨q, .error failure⟩ ↔
      ∃ done element newName rest cause, plan.entries = done ++ (element, newName) :: rest ∧
        RenamesTo (sitesOf usages) p done q ∧
        q.renameElement element newName (sitesFor element (sitesOf usages)) = .error cause ∧
        failure = cause.within (.renaming element newName) := by
  rw [applyRenames, renameEach_eq_error_iff]

/-- The sites kept for an element are those of all references to it, and of no others. -/
def ExactSites (p : Project) (sites : List ReferenceSite) (element : ElementId) : Prop :=
  ∀ r ∈ p.references,
    r.id ∈ (sitesFor element sites).map ReferenceSite.ref ↔ r.target = element

/-- New names move no reference to another target, so sites stay exact. -/
theorem exactSites_renamedBy (names : ElementId → Option String) {p : Project}
    {sites : List ReferenceSite} {element : ElementId} :
    (p.renamedBy names).ExactSites sites element ↔ p.ExactSites sites element := by
  simp [ExactSites]

end Project

namespace RenamesTo

variable {sites : List ReferenceSite} {p q : Project} {entries : List (ElementId × String)}

theorem lookup_eq_none_of_not_mem {element : ElementId}
    (h : element ∉ entries.map Prod.fst) : entries.lookup element = none := by
  rw [List.lookup_eq_none_iff]
  intro entry hentry
  simpa using fun heq : element = entry.1 => h (List.mem_map.mpr ⟨entry, hentry, heq.symm⟩)

private theorem namesThen_lookup {element : ElementId} {newName : String}
    {rest : List (ElementId × String)} (hnew : element ∉ rest.map Prod.fst) :
    namesThen (nameFor element newName) (rest.lookup ·) =
      (((element, newName) :: rest).lookup ·) := by
  funext id
  by_cases hid : id = element
  · subst hid
    simp [namesThen, nameFor, lookup_eq_none_of_not_mem hnew]
  · have hne : (id == element) = false := by simpa using hid
    simp [namesThen, nameFor, hid, List.lookup_cons, hne]

/-- Renames of different elements, each with exactly its own sites, amount to one pass that gives
    all of them their new names. -/
theorem eq_renamedBy (hrun : RenamesTo sites p entries q) (hdistinct : p.DistinctElements)
    (hkeys : (entries.map Prod.fst).Nodup)
    (hsites : ∀ element ∈ entries.map Prod.fst, p.ExactSites sites element) :
    q = p.renamedBy (entries.lookup ·) := by
  induction hrun with
  | nil p => exact p.renamedBy_none.symm
  | @cons p next q element newName rest hfirst hothers ih =>
    rw [List.map_cons, List.nodup_cons] at hkeys
    obtain ⟨hnew, hrest⟩ := hkeys
    have hnext := Project.renameElement_eq_renamedBy hdistinct
      (hsites element List.mem_cons_self) hfirst
    subst hnext
    rw [ih ((Project.distinctElements_renamedBy _).mpr hdistinct) hrest
      fun e he => (Project.exactSites_renamedBy _).mpr (hsites e (List.mem_cons_of_mem _ he))]
    rw [Project.renamedBy_renamedBy, namesThen_lookup hnew]

end RenamesTo

end ClassToRecord
