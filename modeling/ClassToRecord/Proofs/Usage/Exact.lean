import ClassToRecord.Proofs.Record.Constructor
import ClassToRecord.Proofs.Rename.Lookup
import ClassToRecord.Proofs.Usage.Run

open ClassToRecord.Traversal

namespace ClassToRecord

/-- A site without what is said about its capture. -/
def ReferenceSite.unjudged (site : ReferenceSite) : ReferenceSite :=
  { site with collision? := none }

def Usage.unjudged : Usage → Usage
  | .accessorRename element newName site? =>
    .accessorRename element newName (site?.map ReferenceSite.unjudged)
  | usage => usage

/-- What is raised to another level becomes more visible exactly if it is less visible before. -/
theorem Visibility.rank_lt_rank_max_iff (a b : Visibility) :
    a.rank < (a.max b).rank ↔ a.rank < b.rank := by
  cases a <;> cases b <;> decide

namespace Project

variable (p : Project)

/-- The marker of a rename, and one site for each reference in the project to what it reaches, in
    project order. -/
def wholeRename (rename : ElementId × String) : List Usage :=
  .accessorRename rename.1 rename.2 none ::
    p.declarations.flatMap fun d =>
      (d.references.filter fun r => (p.renamedTogether rename.1).contains r.target).map fun r =>
        .accessorRename r.target rename.2 (some (siteOf d r none))

/-- The usages of one key field. -/
def fieldUsages (entry : ElementId × Option AccessorBinding) : List Usage :=
  p.directUsages entry.1 ++ (p.renameFor? entry).elim [] p.wholeRename

/-- One usage, if the member is less visible than the class. -/
def riskUsages (v : Visibility) (member : ElementId) (change : String) : List Usage :=
  match p.visibility? member with
  | none => []
  | some own =>
    if own.rank < v.rank then
      [.encapsulationRisk member (p.describe member ++ " has " ++ own.displayName ++
        " visibility but " ++ change)]
    else []

def fieldRisks (v : Visibility) (entry : ElementId × Option AccessorBinding) : List Usage :=
  p.riskUsages v (governingMember entry).1
    ("its record " ++ (governingMember entry).2 ++ " will be public")

def constructorRisks (v : Visibility) (c : Candidate) : List Usage :=
  c.constructor?.elim [] fun constructor =>
    p.riskUsages v constructor ("will be raised to " ++ v.displayName)

/-- The constructor of the record is more visible than that of the class. -/
def Raises (record : Declaration) (constructor : ElementId) : Prop :=
  ∃ before after, p.method? constructor = some before ∧ record.method? constructor = some after ∧
    before.modifiers.visibility.rank < after.modifiers.visibility.rank

variable {p}

theorem map_unjudged_directUsages (field : ElementId) :
    (p.directUsages field).map Usage.unjudged = p.directUsages field := by
  unfold directUsages
  split <;> rfl

theorem map_unjudged_renameUsages (plan : RenamePlan) (rename : ElementId × String) :
    (p.renameUsages plan rename).map Usage.unjudged = p.wholeRename rename := by
  rw [renameUsages, List.map_cons, List.map_map, wholeRename]
  exact congrArg _ (map_sitesUnder (fun _ _ _ => rfl) plan rename)

/-- Whatever plans the sites are judged by, each key field brings its own usages. -/
theorem map_unjudged_usagesFrom (plan : RenamePlan)
    (entries : List (ElementId × Option AccessorBinding)) :
    (p.usagesFrom plan entries).map Usage.unjudged = entries.flatMap p.fieldUsages := by
  induction entries generalizing plan with
  | nil => rfl
  | cons entry rest ih =>
    rw [List.flatMap_cons, fieldUsages, usagesFrom]
    cases p.renameFor? entry with
    | none =>
      simp only [Option.elim_none, List.append_nil, List.map_append, map_unjudged_directUsages, ih]
    | some rename =>
      simp only [Option.elim_some, List.map_append, map_unjudged_directUsages,
        map_unjudged_renameUsages, ih]

/-- Risks say nothing about captures. -/
theorem map_unjudged_of_structural {usages : List Usage}
    (h : ∀ usage ∈ usages, usage.isStructural = true) : usages.map Usage.unjudged = usages := by
  refine (List.map_congr_left fun usage husage => ?_).trans (List.map_id usages)
  cases usage with
  | accessorRename => exact absurd (h _ husage) Bool.false_ne_true
  | _ => rfl

theorem riskOf_eq_ok {v : Visibility} {member : ElementId} {change : Visibility → String}
    {risks : List Usage} (h : p.riskOf v member change = .ok risks) :
    risks = p.riskUsages v member (change v) := by
  obtain ⟨own, hown, h⟩ := bind_eq_ok_iff.mp h
  rw [riskUsages, orRefuse_eq_ok_iff.mp hown]
  simp only [Visibility.isWeakerThan, decide_eq_true_eq] at h ⊢
  split at h <;> cases h
  · next hweaker => rw [if_pos hweaker]
  · next hweaker => rw [if_neg hweaker]

theorem fieldRisk_eq_ok {v : Visibility} {entry : ElementId × Option AccessorBinding}
    {risks : List Usage} (h : p.fieldRisk v entry = .ok risks) : risks = p.fieldRisks v entry := by
  obtain ⟨field, binding?⟩ := entry
  unfold fieldRisk at h
  cases binding? <;> exact riskOf_eq_ok h

theorem constructorRisk_eq_ok {v : Visibility} {c : Candidate} {risks : List Usage}
    (h : p.constructorRisk v c = .ok risks) : risks = p.constructorRisks v c := by
  unfold constructorRisk at h
  unfold constructorRisks
  split at h
  · next hnone =>
    cases h
    rw [hnone, Option.elim_none]
  · next hsome => rw [hsome, Option.elim_some, riskOf_eq_ok h]

/-- The risks of a candidate are those of its key fields in order, and that of the constructor. -/
theorem encapsulationRisks_eq_ok {c : Candidate} {risks : List Usage}
    (h : p.encapsulationRisks c = .ok risks) :
    ∃ v, p.visibility? c.declaration = some v ∧
      risks = c.fields.entries.flatMap (p.fieldRisks v) ++ p.constructorRisks v c := by
  obtain ⟨v, hv, h⟩ := bind_eq_ok_iff.mp h
  obtain ⟨found, hfound, h⟩ := bind_eq_ok_iff.mp h
  obtain ⟨last, hlast, h⟩ := bind_eq_ok_iff.mp h
  cases h
  refine ⟨v, orRefuse_eq_ok_iff.mp hv, ?_⟩
  have hfields : found.flatMap id = c.fields.entries.flatMap (p.fieldRisks v) :=
    flatMap_eq_of_forall₂ (forall₂_of_mapM_eq_ok hfound) fun _ _ hrisk => fieldRisk_eq_ok hrisk
  rw [← constructorRisk_eq_ok hlast, ← hfields, List.flatMap_id]

section Constructor

variable {c : Candidate} {record : Declaration} {constructor : ElementId}

/-- The rebuild raises a constructor exactly if it is less visible than the class, also after
    renames. -/
theorem raises_iff_of_rebuildRecord (h : p.DistinctElements) {names : ElementId → Option String}
    {v : Visibility} (hv : p.visibility? c.declaration = some v)
    (hrecord : (p.renamedBy names).rebuildRecord c = .ok record)
    (hid : c.constructor? = some constructor) :
    ∃ m ∈ p.methods, m.id = constructor ∧
      (p.Raises record constructor ↔ m.modifiers.visibility.rank < v.rank) := by
  obtain ⟨_, _, hrenamed, hrenamedMethod, hafter⟩ := method?_of_rebuildRecord hrecord hid
  rw [declaration?_renamedBy, Option.map_eq_some_iff] at hrenamed
  obtain ⟨d, hd, rfl⟩ := hrenamed
  rw [Declaration.method?_renamedBy, Option.map_eq_some_iff] at hrenamedMethod
  obtain ⟨m, hm, rfl⟩ := hrenamedMethod
  obtain ⟨hchild, rfl⟩ := Declaration.of_method?_eq_some hm
  have hmp : m ∈ p.methods := mem_methods_iff.mpr
    ⟨d, List.mem_of_find?_eq_some hd, Declaration.mem_methods_iff.mpr hchild⟩
  have hbefore : p.method? m.id = some m := h.method?_eq_some_iff.mpr ⟨hmp, rfl⟩
  obtain rfl : d.visibility = v := by
    rw [visibility?, hd] at hv
    exact Option.some.inj hv
  rw [Declaration.visibility_renamedBy] at hafter
  refine ⟨m, hmp, rfl, ?_⟩
  rw [← Visibility.rank_lt_rank_max_iff]
  constructor
  · rintro ⟨before, after, hfound, hrebuilt, hraised⟩
    obtain rfl := Option.some.inj (hbefore.symm.trans hfound)
    obtain rfl := Option.some.inj (hafter.symm.trans hrebuilt)
    exact hraised
  · intro hraised
    exact ⟨_, _, hbefore, hafter, hraised⟩

/-- The risk of the constructor is reported exactly if the rebuild raises the constructor. -/
theorem constructorRisks_ne_nil_iff (h : p.DistinctElements) {names : ElementId → Option String}
    {v : Visibility} (hv : p.visibility? c.declaration = some v)
    (hrecord : (p.renamedBy names).rebuildRecord c = .ok record)
    (hid : c.constructor? = some constructor) :
    p.constructorRisks v c ≠ [] ↔ p.Raises record constructor := by
  obtain ⟨m, hm, rfl, hraises⟩ := raises_iff_of_rebuildRecord h hv hrecord hid
  rw [hraises, constructorRisks, hid, Option.elim_some, riskUsages,
    h.visibility?_eq_some_of_method hm]
  by_cases hweaker : m.modifiers.visibility.rank < v.rank <;> simp [hweaker]

end Constructor

/-- What is collected for a candidate, as a whole: the usages of its key fields in order, then the
    risks if they are asked for, and the plan of what the renames reach. Nothing is said here about
    captures. -/
structure Collects (p : Project) (c : Candidate) (searchWeakened : Bool)
    (collected : CollectedUsages) : Prop where
  usages : ∃ risks, collected.usages.map Usage.unjudged =
      c.fields.entries.flatMap p.fieldUsages ++ risks ∧
    if searchWeakened then ∃ v, p.visibility? c.declaration = some v ∧
      risks = c.fields.entries.flatMap (p.fieldRisks v) ++ p.constructorRisks v c
    else risks = []
  raised : ∀ v constructor names record, p.visibility? c.declaration = some v →
    c.constructor? = some constructor → (p.renamedBy names).rebuildRecord c = .ok record →
      (p.constructorRisks v c ≠ [] ↔ p.Raises record constructor)
  keys : collected.plan.keys = newOnes [] (p.reach (p.renamesFor c.fields.entries))

end Project

namespace Spans

/-- Code elsewhere that calls the accessor. -/
def reader : Declaration where
  id := ⟨8⟩
  file := "Reader.java"
  children := [
    .keyword .class, .trivia (.whitespace " "), .identifier "Reader",
    .code (.ofText " \x7b Object read(Span span) \x7b return span." ++
      ⟨[.ref ⟨⟨6⟩, ⟨7⟩, "getEnd"⟩]⟩ ++ .ofText "(); \x7d \x7d")]

def readProject : Project := ⟨[span ordered, reader], 8, 6⟩

end Spans

end ClassToRecord
