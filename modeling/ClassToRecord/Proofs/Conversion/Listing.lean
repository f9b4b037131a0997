import ClassToRecord.Proofs.Conversion.Preview
import ClassToRecord.Proofs.Conversion.Report
import Mathlib.Algebra.GroupWithZero.Nat

namespace ClassToRecord

/-- The kinds of usages in the order in which they are listed. -/
def UsageKind.all : List UsageKind := [.directFieldReference, .accessorRename, .encapsulationRisk]

theorem UsageKind.mem_all (kind : UsageKind) : kind ∈ all := by cases kind <;> decide

/-- How many usages of a kind are counted. Markers and sites are of the same kind. -/
def UsageCounts.ofKind (counts : UsageCounts) : UsageKind → Nat
  | .directFieldReference => counts.directFieldReferences
  | .accessorRename => counts.accessorRenames + counts.referenceSites
  | .encapsulationRisk => counts.encapsulationRisks

def usagesOf (kind : UsageKind) (usages : List Usage) : List Usage :=
  usages.filter (·.kind = kind)

/-- The counts agree with the kinds. -/
theorem UsageCounts.ofKind_ofUsages (kind : UsageKind) (usages : List Usage) :
    (ofUsages usages).ofKind kind = (usagesOf kind usages).length := by
  have hadd : ∀ (counts : UsageCounts) (usage : Usage),
      (counts.add usage).ofKind kind = counts.ofKind kind + (usagesOf kind [usage]).length := by
    intro counts usage
    unfold add
    cases kind <;> split <;> simp [ofKind, usagesOf, Usage.kind] <;> omega
  have hnone : ofKind {} kind = 0 := by cases kind <;> rfl
  have hitems : usages.flatMap (fun usage => usagesOf kind [usage]) = usagesOf kind usages := by
    simp only [usagesOf, ← List.filter_flatMap, List.flatMap_singleton']
  rw [← hitems]
  exact @count_ofUsages _ (ofKind · kind) (fun usage => usagesOf kind [usage]) hnone hadd usages

/-- Usages can be sorted by kinds, if each has one of them. -/
theorem flatMap_usagesOf_perm {kinds : List UsageKind} (hnodup : kinds.Nodup) {usages : List Usage}
    (hkinds : ∀ usage ∈ usages, usage.kind ∈ kinds) :
    (kinds.flatMap (usagesOf · usages)).Perm usages := by
  induction kinds generalizing usages with
  | nil =>
    have hempty : usages = [] := List.eq_nil_iff_forall_not_mem.mpr fun usage husage =>
      List.not_mem_nil (hkinds usage husage)
    rw [hempty, List.flatMap_nil]
  | cons kind rest ih =>
    obtain ⟨hnew, hrest⟩ := List.nodup_cons.mp hnodup
    have hothers : rest.flatMap (usagesOf · usages) =
        rest.flatMap (usagesOf · (usages.filter (¬ ·.kind = kind))) := by
      refine List.flatMap_congr fun other hother => ?_
      have hne : other ≠ kind := fun h => hnew (h ▸ hother)
      rw [usagesOf, usagesOf, List.filter_filter]
      refine List.filter_congr fun usage _ => ?_
      by_cases husage : usage.kind = other <;> simp [husage, hne]
    have hkept : ∀ usage ∈ usages.filter (¬ ·.kind = kind), usage.kind ∈ rest := by
      intro usage husage
      obtain ⟨hmem, hne⟩ := List.mem_filter.mp husage
      exact (List.mem_cons.mp (hkinds usage hmem)).resolve_left (of_decide_eq_true hne)
    rw [List.flatMap_cons, hothers]
    refine ((ih hrest hkept).append_left _).trans ?_
    simpa [usagesOf] using List.filter_append_perm (fun usage => decide (usage.kind = kind)) usages

/-- An item of a list, under as many others as its level says. It can have an item of its own. -/
structure ListItem where
  level : Nat
  text : String
  note? : Option String := none
deriving DecidableEq, Repr

namespace ListItem

/-- A line of a list. Each level is two blanks further in. -/
def line (level : Nat) (text : String) : String :=
  String.join (List.replicate level "  ") ++ "- " ++ text ++ "\n"

theorem line_eq {level : Nat} {lead : String}
    (hlead : String.join (List.replicate level "  ") ++ "- " = lead) (text : String) :
    line level text = lead ++ text ++ "\n" := by
  rw [line, hlead]

def render (item : ListItem) : String :=
  line item.level item.text ++ (item.note?.map (line (item.level + 1))).getD ""

end ListItem

/-- What a usage is listed as. A field is described, and so is an element that gets a new name. A
    reference stands under the rename that rewrites it, with its file, its declaration, its id, and
    what it would mean instead. A risk is its message. -/
def Usage.item (p : Project) : Usage → ListItem
  | .directFieldReference field => { level := 0, text := p.describe field }
  | .accessorRename element newName none =>
    { level := 0, text := "rename " ++ p.describe element ++ " to `" ++ newName ++ "`" }
  | .accessorRename _ _ (some site) => {
      level := 1
      text := "`" ++ site.file ++ "` in " ++ p.describe site.declaration ++
        " (ref#" ++ site.ref.index.repr ++ ")"
      note? := site.collision?.map ("conflict: " ++ ·) }
  | .encapsulationRisk _ message => { level := 0, text := message }

section Text

variable (p : Project)

/-- What a reference collides with is an item under its own. -/
theorem ReferenceSite.listing_eq (site : ReferenceSite) (element : ElementId) (newName : String) :
    site.listing p = ((Usage.accessorRename element newName (some site)).item p).render := by
  have hsite : "  - " ++ codeSpan site.file ++ " in " ++ p.describe site.declaration ++ " (" ++
      site.ref.label ++ ")\n" =
        ListItem.line 1 ("`" ++ site.file ++ "` in " ++ p.describe site.declaration ++
          " (ref#" ++ site.ref.index.repr ++ ")") := by
    have hname : "` in " = "`" ++ " in " := rfl
    have hid : " (ref#" = " (" ++ "ref#" := rfl
    have hend : ")\n" = ")" ++ "\n" := rfl
    have hline : ∀ text, ListItem.line 1 text = "  - " ++ text ++ "\n" := ListItem.line_eq rfl
    simp only [hline, codeSpan, RefId.label, hname, hid, hend, String.append_assoc]
  have hnote : ∀ message, "    - conflict: " ++ message ++ "\n" =
      ListItem.line 2 ("conflict: " ++ message) := by
    intro message
    have hlead : "    - conflict: " = "    - " ++ "conflict: " := rfl
    have hline : ∀ text, ListItem.line 2 text = "    - " ++ text ++ "\n" := ListItem.line_eq rfl
    simp only [hline, hlead, String.append_assoc]
  unfold listing
  rw [hsite]
  cases hcollision : site.collision? with
  | none => simp only [Usage.item, ListItem.render, hcollision, Option.map_none, Option.getD_none]
  | some message =>
    simp only [Usage.item, ListItem.render, hcollision, Option.map_some, Option.getD_some, hnote]

/-- Each usage is listed as its item and nothing more. -/
theorem Usage.listing_eq (usage : Usage) : usage.listing p = (usage.item p).render := by
  have hline : ∀ text, ListItem.line 0 text = "- " ++ text ++ "\n" := ListItem.line_eq rfl
  cases usage with
  | directFieldReference field => simp [listing, item, ListItem.render, hline]
  | encapsulationRisk element message => simp [listing, item, ListItem.render, hline]
  | accessorRename element newName site? =>
    cases site? with
    | none =>
      have hlead : "- rename " = "- " ++ "rename " := rfl
      have hto : " to `" = " to " ++ "`" := rfl
      simp only [listing, item, ListItem.render, hline, codeSpan, hlead, hto,
        String.append_assoc, Option.map_none, Option.getD_none, String.append_empty]
    | some site => exact site.listing_eq p element newName

end Text

/-- A part of a listing: the usages of one kind, each as an item. -/
structure UsageSection where
  kind : UsageKind
  count : Nat
  items : List ListItem

namespace UsageSection

def title (s : UsageSection) : String :=
  match s.kind with
  | .directFieldReference => "Direct field references"
  | .accessorRename => "Accessor renames"
  | .encapsulationRisk => "Encapsulation risks"

/-- The heading with the count, and the items under it. -/
def render (s : UsageSection) : String :=
  "## " ++ s.title ++ " (" ++ s.count.repr ++ ")\n\n" ++
    String.join (s.items.map ListItem.render) ++ "\n"

/-- The section for the usages of a kind. -/
def ofKind (p : Project) (usages : List Usage) (kind : UsageKind) : UsageSection where
  kind
  count := (usagesOf kind usages).length
  items := (usagesOf kind usages).map (Usage.item p)

end UsageSection

/-- Sections that show each usage once. There is one for each kind that occurs, in the order of the
    kinds, with the items of the usages of this kind in their order, and what the headings count is
    what a report counts. -/
structure ShowsUsages (p : Project) (usages : List Usage) (sections : List UsageSection) :
    Prop where
  distinct : (sections.map UsageSection.kind).Nodup
  ordered : (sections.map UsageSection.kind).Sublist UsageKind.all
  occurring : ∀ kind, kind ∈ sections.map UsageSection.kind ↔ ∃ usage ∈ usages, usage.kind = kind
  items : ∀ s ∈ sections, s.items = (usages.filter (·.kind = s.kind)).map (Usage.item p)
  once : (sections.flatMap UsageSection.items).Perm (usages.map (Usage.item p))
  count : ∀ s ∈ sections, s.count = (usages.filter (·.kind = s.kind)).length
  total : (sections.map UsageSection.count).sum = usages.length
  counted : ∀ s ∈ sections, s.count = (UsageCounts.ofUsages usages).ofKind s.kind
  uncounted : ∀ kind, kind ∉ sections.map UsageSection.kind →
    (UsageCounts.ofUsages usages).ofKind kind = 0

/-- The kinds that occur, in the order in which they are listed. -/
def occurringKinds (usages : List Usage) : List UsageKind :=
  UsageKind.all.filter fun kind => !(usagesOf kind usages).isEmpty

theorem mem_occurringKinds_iff {kind : UsageKind} {usages : List Usage} :
    kind ∈ occurringKinds usages ↔ ∃ usage ∈ usages, usage.kind = kind := by
  simp [occurringKinds, kind.mem_all, usagesOf]

theorem occurringKinds_nodup (usages : List Usage) : (occurringKinds usages).Nodup :=
  List.Nodup.filter _ (by decide)

theorem showsUsages_occurringKinds (p : Project) (usages : List Usage) :
    ShowsUsages p usages ((occurringKinds usages).map (UsageSection.ofKind p usages)) := by
  have hkinds : ((occurringKinds usages).map (UsageSection.ofKind p usages)).map
      UsageSection.kind = occurringKinds usages := by
    rw [List.map_map]
    exact List.map_id _
  have howned : ∀ s ∈ (occurringKinds usages).map (UsageSection.ofKind p usages),
      s = .ofKind p usages s.kind := by
    intro s hs
    obtain ⟨kind, -, rfl⟩ := List.mem_map.mp hs
    rfl
  have hsorted : ((occurringKinds usages).flatMap (usagesOf · usages)).Perm usages :=
    flatMap_usagesOf_perm (occurringKinds_nodup usages) fun usage husage =>
      mem_occurringKinds_iff.mpr ⟨usage, husage, rfl⟩
  exact {
    distinct := by
      rw [hkinds]
      exact occurringKinds_nodup usages
    ordered := by
      rw [hkinds]
      exact List.filter_sublist
    occurring := by
      rw [hkinds]
      exact fun _ => mem_occurringKinds_iff
    items := fun s hs => congrArg UsageSection.items (howned s hs)
    once := by
      rw [List.flatMap_map]
      simpa [UsageSection.ofKind, List.map_flatMap] using hsorted.map (Usage.item p)
    count := fun s hs => congrArg UsageSection.count (howned s hs)
    total := by
      rw [← hsorted.length_eq, List.length_flatMap, List.map_map]
      rfl
    counted := by
      intro s hs
      rw [UsageCounts.ofKind_ofUsages]
      exact congrArg UsageSection.count (howned s hs)
    uncounted := by
      intro kind hkind
      rw [hkinds, mem_occurringKinds_iff] at hkind
      simpa [UsageCounts.ofKind_ofUsages, usagesOf] using hkind }

/-- A kind without usages has no section. -/
private theorem usageSection_eq (p : Project) (usages : List Usage) (kind : UsageKind) :
    usageSection p usages kind = if !(usagesOf kind usages).isEmpty then
      (UsageSection.ofKind p usages kind).render else "" := by
  have htitle : (UsageSection.ofKind p usages kind).title = kind.heading := by cases kind <;> rfl
  have hitems : ((usagesOf kind usages).map (Usage.item p)).map ListItem.render =
      (usagesOf kind usages).map (·.listing p) := by
    rw [List.map_map]
    exact List.map_congr_left fun usage _ => (usage.listing_eq p).symm
  have hsection : usageSection p usages kind = if (usagesOf kind usages).isEmpty then "" else
      (UsageSection.ofKind p usages kind).render := by
    rw [UsageSection.render, htitle, UsageSection.ofKind, hitems]
    rfl
  rw [hsection]
  cases (usagesOf kind usages).isEmpty <;> rfl

/-- How a view opens: with the renames, whatever the usages are. -/
def viewOpening (p : Project) (plan : RenamePlan) : String :=
  "# Convert to record\n\n## Elements\n\n" ++
    (if plan.entries.isEmpty then "_Nothing to rename._\n"
      else String.join (plan.entries.map fun entry =>
        "- " ++ p.describe entry.1 ++ " → `" ++ entry.2 ++ "`\n")) ++ "\n"

theorem usageView_eq (p : Project) (plan : RenamePlan) (usages : List Usage) :
    usageView p plan usages =
      viewOpening p plan ++ String.join (UsageKind.all.map (usageSection p usages)) := by
  have hentry : ∀ entry : ElementId × String,
      "- " ++ p.describe entry.1 ++ " → `" ++ entry.2 ++ "`\n" =
        "- " ++ p.describe entry.1 ++ " → " ++ codeSpan entry.2 ++ "\n" := by
    intro entry
    have harrow : " → `" = " → " ++ "`" := rfl
    have hend : "`\n" = "`" ++ "\n" := rfl
    simp only [codeSpan, harrow, hend, String.append_assoc]
  unfold usageView viewOpening
  simp only [hentry]
  rw [linesOr, List.isEmpty_map]
  rfl

/-- The view of usages is its opening and after it the sections that show them. -/
theorem usageView_showsUsages (p : Project) (plan : RenamePlan) (usages : List Usage) :
    ∃ sections, ShowsUsages p usages sections ∧
      usageView p plan usages =
        viewOpening p plan ++ String.join (sections.map UsageSection.render) := by
  have hsections : String.join (UsageKind.all.map (usageSection p usages)) =
      String.join ((occurringKinds usages).map fun kind =>
        (UsageSection.ofKind p usages kind).render) :=
    join_map_eq_join_filter fun kind _ => usageSection_eq p usages kind
  refine ⟨_, showsUsages_occurringKinds p usages, ?_⟩
  rw [usageView_eq, hsections, List.map_map]
  rfl

end ClassToRecord
