import ClassToRecord.Json.Report
import ClassToRecord.Proofs.Json.Syntax
import ClassToRecord.Proofs.Rename.Phase

namespace ClassToRecord

open Json

attribute [local simp] List.lookup_append

structure ReferenceSite.Writable (site : ReferenceSite) : Prop where
  ref : site.ref.Writable
  element : site.element.Writable
  declaration : site.declaration.Writable

instance (site : ReferenceSite) : Decidable site.Writable :=
  decidable_of_iff (site.ref.Writable ∧ site.element.Writable ∧ site.declaration.Writable)
    ⟨fun ⟨h₁, h₂, h₃⟩ => ⟨h₁, h₂, h₃⟩, fun ⟨h₁, h₂, h₃⟩ => ⟨h₁, h₂, h₃⟩⟩

theorem ReferenceSite.survives {site : ReferenceSite} (h : site.Writable) : Survives site := by
  refine ⟨fun held => ?_, nofun⟩
  refine (bind_required (RefId.survives h.ref) (by simp)).trans ?_
  refine (bind_required (ElementId.survives h.element) (by simp)).trans ?_
  refine (bind_required (ElementId.survives h.declaration) (by simp)).trans ?_
  refine (bind_required (survives_string site.file) (by simp)).trans ?_
  exact bind_optional (fun message (_ : site.collision? = some message) => survives_string message)
    (by simp)

namespace Usage

structure Writable (usage : Usage) : Prop where
  element : usage.element.Writable
  site : ∀ site ∈ usage.site?, site.Writable

instance (usage : Usage) : Decidable usage.Writable :=
  decidable_of_iff (usage.element.Writable ∧ ∀ site ∈ usage.site?, site.Writable)
    ⟨fun ⟨h₁, h₂⟩ => ⟨h₁, h₂⟩, fun ⟨h₁, h₂⟩ => ⟨h₁, h₂⟩⟩

/-- A usage is read by its kind. -/
private theorem decode?_obj {fields : List (String × Json)} {kind : String} {held : Bool}
    (hkind : fields.lookup "kind" = some (.str kind)) :
    (JsonCodec.decode? held (obj fields) : Option Usage) = ofKind? kind (obj fields) := by
  simp only [JsonCodec.decode?, hkind]

theorem survives {usage : Usage} (h : usage.Writable) : Survives usage := by
  have helement : Survives usage.element := ElementId.survives h.element
  cases usage with
  | directFieldReference field =>
    refine ⟨fun held => (decode?_obj rfl).trans ?_, nofun⟩
    exact bind_required helement rfl
  | accessorRename element newName site? =>
    refine ⟨fun held => (decode?_obj rfl).trans ?_, nofun⟩
    refine (bind_required helement rfl).trans ?_
    refine (bind_required (survives_string newName) (by simp)).trans ?_
    exact bind_optional (fun site hsite => ReferenceSite.survives (h.site site hsite)) (by simp)
  | encapsulationRisk element message =>
    refine ⟨fun held => (decode?_obj rfl).trans ?_, nofun⟩
    refine (bind_required helement rfl).trans ?_
    exact bind_required (survives_string message) (by simp)

end Usage

theorem Conflict.survives {c : Conflict} (h : c.element.Writable) : Survives c := by
  refine ⟨fun held => ?_, nofun⟩
  refine (bind_required (ElementId.survives h) (by simp)).trans ?_
  exact bind_required (survives_list fun message _ => survives_string message) (by simp)

/-- A report in which all ids can be written. -/
def ConflictReport.Writable (report : ConflictReport) : Prop :=
  ∀ c ∈ report.conflicts, c.element.Writable

theorem ConflictReport.survives {report : ConflictReport} (h : report.Writable) :
    Survives report := by
  have hconflicts : Survives report.conflicts :=
    survives_list fun c hc => Conflict.survives (h c hc)
  exact ⟨fun held => congrArg (Option.map ConflictReport.mk) (hconflicts.decode?_encode held),
    nofun⟩

theorem DeclarationDigest.survives {digest : DeclarationDigest}
    (h : digest.declaration.Writable) : Survives digest := by
  refine ⟨fun held => ?_, nofun⟩
  refine (bind_required (ElementId.survives h) (by simp)).trans ?_
  refine (bind_required (survives_string digest.file) (by simp)).trans ?_
  exact bind_required (survives_string digest.sha256) (by simp)

/-- Preconditions in which all ids can be written. -/
def Preconditions.Writable (pre : Preconditions) : Prop :=
  ∀ digest ∈ pre.digests, digest.declaration.Writable

theorem Preconditions.survives {pre : Preconditions} (h : pre.Writable) : Survives pre := by
  refine ⟨fun held => ?_, nofun⟩
  have hdigests : Survives pre.digests :=
    survives_list fun digest hdigest => DeclarationDigest.survives (h digest hdigest)
  have hread : (obj (entry "digests" pre.digests)).required held "digests" = some pre.digests :=
    required_eq_some hdigests (by simp)
  exact congrArg (Option.map Preconditions.mk) hread

/-- A point in time that its text gives back. -/
def Timestamp.Writable (t : Timestamp) : Prop := Timestamp.ofString? t.render = some t

theorem Timestamp.survives {t : Timestamp} (h : t.Writable) : Survives t := ⟨fun _ => h, nofun⟩

theorem ConversionStatus.survives (status : ConversionStatus) : Survives status :=
  ⟨fun _ => by cases status <;> rfl, nofun⟩

structure RunInfo.Writable (run : RunInfo) : Prop where
  startedAt : run.startedAt.Writable
  endedAt : ∀ t ∈ run.endedAt?, t.Writable

theorem RunInfo.survives {run : RunInfo} (h : run.Writable) : Survives run := by
  refine ⟨fun held => ?_, nofun⟩
  simp only [JsonCodec.decode?, JsonCodec.encode, record?_obj, Option.bind_eq_bind,
    Option.bind_some]
  refine (bind_required (Timestamp.survives h.startedAt) (by simp)).trans ?_
  exact bind_optional (fun t ht => Timestamp.survives (h.endedAt t ht)) (by simp)

theorem RenameRecord.survives {r : RenameRecord} (h : r.element.Writable) : Survives r := by
  refine ⟨fun held => ?_, nofun⟩
  refine (bind_required (ElementId.survives h) (by simp)).trans ?_
  refine (bind_required (survives_string r.oldName) (by simp)).trans ?_
  exact bind_required (survives_string r.newName) (by simp)

/-- Counts that the format can write. -/
structure UsageCounts.Writable (counts : UsageCounts) : Prop where
  directFieldReferences : counts.directFieldReferences < countBound
  accessorRenames : counts.accessorRenames < countBound
  referenceSites : counts.referenceSites < countBound
  encapsulationRisks : counts.encapsulationRisks < countBound

theorem UsageCounts.survives {counts : UsageCounts} (h : counts.Writable) : Survives counts := by
  refine ⟨fun held => ?_, nofun⟩
  simp [JsonCodec.decode?, JsonCodec.encode, List.lookup_cons, nat?_int h.directFieldReferences,
    nat?_int h.accessorRenames, nat?_int h.referenceSites, nat?_int h.encapsulationRisks]

/-- A report that the format can write. -/
structure ConversionReport.Writable (report : ConversionReport) : Prop where
  declaration : report.declaration.Writable
  run : report.run.Writable
  renames : ∀ r ∈ report.renames, r.element.Writable
  usageCounts : report.usageCounts.Writable
  conflicts : report.conflicts.Writable

/-- A report survives, and so does one without conflicts, which are then left out. -/
theorem ConversionReport.survives {report : ConversionReport} (h : report.Writable) :
    Survives report := by
  refine ⟨fun held => ?_, nofun⟩
  simp only [JsonCodec.decode?, JsonCodec.encode, record?_obj, Option.bind_eq_bind,
    Option.bind_some]
  refine (bind_required (survives_string report.schema) (by simp)).trans ?_
  refine (bind_required (ElementId.survives h.declaration) (by simp)).trans ?_
  refine (bind_required report.status.survives (by simp)).trans ?_
  refine (bind_required (RunInfo.survives h.run) (by simp)).trans ?_
  have hrenames : Survives report.renames :=
    survives_list fun r hr => RenameRecord.survives (h.renames r hr)
  refine (bind_defaulted hrenames (.inl (by simp))).trans ?_
  refine (bind_defaulted (UsageCounts.survives h.usageCounts) (.inl (by simp))).trans ?_
  have homitted : report.conflicts.conflicts = [] → report.conflicts = ConflictReport.empty :=
    congrArg ConflictReport.mk
  exact bind_defaulted (ConflictReport.survives h.conflicts)
    ((lookup_ifAny (by simp)).imp (fun hlookup => hlookup) (And.imp_right homitted))

namespace Json

/-- A part is left out exactly if it is empty or missing in the value. -/
structure LeavesOutEmpty : Prop where
  keywords : ∀ m : Modifiers, (JsonCodec.encode m).get? "keywords" = none ↔ m.keywords = []
  initializer : ∀ f : Field,
    (JsonCodec.encode f).get? "initializer" = none ↔ f.initializer? = none
  /-- So a constructor is told from a method. -/
  returnType : ∀ m : Method,
    (JsonCodec.encode m).get? "return_type" = none ↔ m.isConstructor = true
  superMethods : ∀ m : Method,
    (JsonCodec.encode m).get? "super_methods" = none ↔ m.superMethods = []
  collision : ∀ site : ReferenceSite,
    (JsonCodec.encode site).get? "collision" = none ↔ site.collision? = none
  /-- So the marker of a rename is told from one of its sites. -/
  site : ∀ usage : Usage, (JsonCodec.encode usage).get? "site" = none ↔ usage.site? = none
  endedAt : ∀ run : RunInfo, (JsonCodec.encode run).get? "ended_at" = none ↔ run.endedAt? = none
  conflicts : ∀ report : ConversionReport,
    (JsonCodec.encode report).get? "conflicts" = none ↔ report.conflicts.conflicts = []

theorem leavesOutEmpty : LeavesOutEmpty where
  keywords m := by simp [JsonCodec.encode]
  initializer f := by simp [JsonCodec.encode]
  returnType m := by simp [JsonCodec.encode, Method.isConstructor]
  superMethods m := by simp [JsonCodec.encode]
  collision site := by simp [JsonCodec.encode]
  site usage := by cases usage <;> simp [JsonCodec.encode, Usage.site?]
  endedAt run := by simp [JsonCodec.encode]
  conflicts report := by simp [JsonCodec.encode]

/-- The data format loses nothing. All that a host exchanges can be read again from what is written
    for it, given that ids and counts have the size that the format has room for, and that the text
    of each point in time gives it back. What is left out stood for nothing else. -/
theorem survives_of_writable :
    (∀ d : Declaration, d.Writable → Survives d) ∧
    (∀ usage : Usage, usage.Writable → Survives usage) ∧
    (∀ site : ReferenceSite, site.Writable → Survives site) ∧
    (∀ report : ConflictReport, report.Writable → Survives report) ∧
    (∀ pre : Preconditions, pre.Writable → Survives pre) ∧
    (∀ report : ConversionReport, report.Writable → Survives report) ∧
    LeavesOutEmpty :=
  ⟨fun _ => Declaration.survives, fun _ => Usage.survives, fun _ => ReferenceSite.survives,
    fun _ => ConflictReport.survives, fun _ => Preconditions.survives,
    fun _ => ConversionReport.survives, leavesOutEmpty⟩

end Json

namespace Points

/-- A report on the conversion of the small project. -/
def report : ConversionReport :=
  { (ConversionReport.start ⟨3⟩ default).close .applied default with
    renames := [⟨⟨2⟩, "getX", "x"⟩, ⟨⟨7⟩, "getX", "x"⟩]
    usageCounts := UsageCounts.ofUsages collected.usages }

theorem writable_report : report.Writable where
  declaration := by decide
  run := by
    have hstart : Timestamp.Writable default := by
      unfold Timestamp.Writable
      decide +kernel
    refine ⟨hstart, ?_⟩
    rintro t ⟨⟩
    exact hstart
  renames := by decide
  usageCounts := ⟨by decide, by decide, by decide, by decide⟩
  conflicts := nofun

/-- The class of the small project, its usages and the report survive. -/
theorem survives_of_writable_project :
    point.Writable ∧ Json.Survives point ∧
    (∀ usage ∈ collected.usages, usage.Writable ∧ Json.Survives usage) ∧
    report.Writable ∧ Json.Survives report := by
  have hpoint : point.Writable := by decide
  have husages : ∀ usage ∈ collected.usages, usage.Writable := by decide
  obtain ⟨hdeclarations, hall, -, -, -, hreports, -⟩ := Json.survives_of_writable
  exact ⟨hpoint, hdeclarations point hpoint,
    fun usage husage => ⟨husages usage husage, hall usage (husages usage husage)⟩,
    writable_report, hreports report writable_report⟩

end Points

end ClassToRecord
