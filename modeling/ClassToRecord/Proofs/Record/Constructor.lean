import ClassToRecord.Proofs.Record.Exact

open ClassToRecord.Traversal

namespace ClassToRecord

namespace Code

/-- Somewhere in the code one reference is assigned to another: four fragments in a row say so. -/
def Assigns (c : Code) (field value : ElementId) : Prop :=
  ∃ lhs op rhs stop, [.ref lhs, .text op, .ref rhs, .text stop] <:+: c.fragments ∧
    Text.trimmed op = ['='] ∧ Text.firstVisible? stop = some ';' ∧
    lhs.target = field ∧ rhs.target = value

private theorem mem_go_cons_iff {f : Fragment} {rest : List Fragment} {field value : ElementId} :
    (field, value) ∈ assignments.go (f :: rest) ↔
      (∃ lhs op rhs stop, [.ref lhs, .text op, .ref rhs, .text stop] <+: f :: rest ∧
        Text.trimmed op = ['='] ∧ Text.firstVisible? stop = some ';' ∧
        lhs.target = field ∧ rhs.target = value) ∨ (field, value) ∈ assignments.go rest := by
  -- the equations of the scan ask for the shape of the code first, and for its texts after that
  by_cases hshape : ∃ lhs op rhs stop after,
      f = .ref lhs ∧ rest = .text op :: .ref rhs :: .text stop :: after
  · obtain ⟨lhs, op, rhs, stop, after, rfl, rfl⟩ := hshape
    rw [assignments.go]
    split
    · next hassignment => simp [List.cons_prefix_cons, hassignment, eq_comm]
    · next hother => grind
  · have hnone : ∀ lhs op rhs stop, ¬ [.ref lhs, .text op, .ref rhs, .text stop] <+: f :: rest := by
      rintro lhs op rhs stop ⟨after, hprefix⟩
      cases hprefix
      exact hshape ⟨lhs, op, rhs, stop, after, rfl, rfl⟩
    rw [assignments.go]
    · simp [hnone]
    · grind

/-- The assignments of code are all assignments that occur in it. -/
theorem mem_assignments_iff {c : Code} {field value : ElementId} :
    (field, value) ∈ c.assignments ↔ c.Assigns field value := by
  unfold assignments Assigns
  induction c.fragments with
  | nil => simp [assignments.go]
  | cons f rest ih =>
    rw [mem_go_cons_iff, ih]
    simp only [List.infix_cons_iff, or_and_right, exists_or]

theorem qualifiedReferences_mapReferences (f : Reference → Reference) (c : Code) :
    (c.mapReferences f).qualifiedReferences = c.qualifiedReferences.map (Prod.map f id) := by
  have hfrom : ∀ fragments afterDot,
      qualifiedFrom afterDot (fragments.map (Fragment.mapReference f)) =
        (qualifiedFrom afterDot fragments).map (Prod.map f id) := by
    intro fragments
    induction fragments with
    | nil => exact fun _ => rfl
    | cons fragment rest ih =>
      intro afterDot
      cases fragment with
      | text s => exact ih _
      | ref r => exact congrArg (_ :: ·) (ih false)
  exact hfrom c.fragments false

end Code

namespace Method

variable (m : Method) (components : List Parameter)

/-- All assignments of a parameter to a component are to the component at its position. -/
def BindsByPosition : Prop :=
  ∀ pair ∈ m.parameters.zip components, ∀ field ∈ components.map Parameter.id,
    m.body.Assigns field pair.1.id → field = pair.2.id

/-- After some other assignments, the body assigns a parameter to the component of a field. The
    component at the position of the parameter may be another one. -/
structure BindsAfter (earlier : List (ElementId × ElementId)) (parameter component : Parameter)
    (field : ElementId) : Prop where
  paired : (parameter, component) ∈ m.parameters.zip components
  isComponent : field ∈ components.map Parameter.id
  assigned : ∃ later, m.body.assignments = earlier ++ (field, parameter.id) :: later

/-- Assignments that no other assignment of their parameter precedes are by position. -/
def FirstByPosition : Prop :=
  ∀ earlier parameter component field, m.BindsAfter components earlier parameter component field →
    parameter.id ∉ earlier.map Prod.snd → field = component.id

/-- Assignments that another assignment of their parameter precedes are by position. -/
def RepeatsByPosition : Prop :=
  ∀ earlier parameter component field, m.BindsAfter components earlier parameter component field →
    parameter.id ∈ earlier.map Prod.snd → field = component.id

/-- An assignment is the first one of its parameter, or it is not. -/
theorem bindsByPosition_iff_first_and_repeats :
    m.BindsByPosition components ↔
      m.FirstByPosition components ∧ m.RepeatsByPosition components := by
  constructor
  · intro hall
    have hat : ∀ {earlier parameter component field},
        m.BindsAfter components earlier parameter component field → field = component.id := by
      rintro earlier parameter component field ⟨hpaired, hfield, later, hsplit⟩
      have hmem : (field, parameter.id) ∈ m.body.assignments := by simp [hsplit]
      exact hall (parameter, component) hpaired field hfield (Code.mem_assignments_iff.mp hmem)
    exact ⟨fun _ _ _ _ hbinds _ => hat hbinds, fun _ _ _ _ hbinds _ => hat hbinds⟩
  · rintro ⟨hfirst, hrepeats⟩ ⟨parameter, component⟩ hpaired field hfield hassigns
    obtain ⟨earlier, later, hsplit⟩ :=
      List.append_of_mem (Code.mem_assignments_iff.mpr hassigns)
    have hbinds : m.BindsAfter components earlier parameter component field :=
      ⟨hpaired, hfield, later, hsplit⟩
    by_cases hearlier : parameter.id ∈ earlier.map Prod.snd
    · exact hrepeats earlier parameter component field hbinds hearlier
    · exact hfirst earlier parameter component field hbinds hearlier

variable {m components}

/-- The check of a parameter sees its first assignment. -/
theorem assignedComponent?_eq_some {parameter field : ElementId} {component : Parameter}
    {earlier later : List (ElementId × ElementId)}
    (hsplit : m.body.assignments = earlier ++ (field, parameter) :: later)
    (hfirst : parameter ∉ earlier.map Prod.snd)
    (hcomponent : components.find? (·.id = field) = some component) :
    m.assignedComponent? components parameter = some component := by
  have hnone : earlier.find? (·.2 = parameter) = none := by
    rw [List.find?_eq_none]
    intro pair hpair hparameter
    exact hfirst (List.mem_map.mpr ⟨pair, hpair, of_decide_eq_true hparameter⟩)
  simp [assignedComponent?, hsplit, List.find?_append, hnone, hcomponent]

/-- A constructor whose parameters fit assigns each of them to its component first of all. -/
theorem firstByPosition_of_fits
    (hfits : ∀ pair ∈ m.parameters.zip components, m.parameterError? components pair = none) :
    m.FirstByPosition components := by
  rintro earlier parameter component field ⟨hpaired, hfield, later, hsplit⟩ hfirst
  obtain ⟨other, hother, rfl⟩ := List.mem_map.mp hfield
  -- the check looks the field up by its id, and the id is all that the position is compared with
  obtain ⟨found, hfound⟩ : ∃ found, components.find? (·.id = other.id) = some found :=
    Option.isSome_iff_exists.mp (List.find?_isSome.mpr ⟨other, hother, decide_eq_true rfl⟩)
  have hassigned := assignedComponent?_eq_some hsplit hfirst hfound
  have hsame := List.find?_some hfound
  have hnone := hfits (parameter, component) hpaired
  simp only [parameterError?, hassigned] at hnone
  split at hnone
  · cases hnone
  · split at hnone
    · next hposition => exact (of_decide_eq_true hsame).symm.trans hposition
    · cases hnone

/-- The unqualified references of the body that mean none of the parameters. -/
def bareReferences (m : Method) : List Reference :=
  (m.body.qualifiedReferences.filter fun (r, qualified) =>
    !qualified && !(m.parameters.map Parameter.id).contains r.target).map Prod.fst

/-- No unqualified reference to something else bears the name of a parameter of the canonical form,
    unless it bore the name of a parameter before. -/
def CapturesNothing (m canonical : Method) : Prop :=
  ∀ r ∈ canonical.bareReferences, r.name ∉ m.parameters.map Parameter.name →
    r.name ∉ canonical.parameters.map Parameter.name

theorem followParameter_eq_self {parameters : List Parameter} {r : Reference}
    (h : r.target ∉ parameters.map Parameter.id) : followParameter parameters r = r := by
  have hnone : parameters.find? (·.id = r.target) = none := by
    rw [List.find?_eq_none]
    intro parameter hparameter hid
    exact h (List.mem_map.mpr ⟨parameter, hparameter, of_decide_eq_true hid⟩)
  rw [followParameter, hnone]

/-- The parameters of a record's constructor agree with the components in all but their ids. -/
theorem map_recordParameters {α : Type} {read : Parameter → α}
    (hread : ∀ (component : Parameter) (id : ElementId),
      read { component with id } = read component)
    (h : m.parameters.length = components.length) :
    (m.recordParameters components).map read = components.map read := by
  rw [recordParameters, List.map_zipWith]
  apply List.ext_getElem
  · simp [h]
  · intro i _ _
    simp [hread]

/-- The references that mean no parameter stay as they are. -/
theorem bareReferences_inRecord (visibility : Visibility)
    (h : m.parameters.length = components.length) :
    (m.inRecord components visibility).bareReferences = m.bareReferences := by
  have htarget : ∀ r, (followParameter (m.recordParameters components) r).target = r.target := by
    intro r
    rw [followParameter_eq_renamedBy, Reference.target_renamedBy]
  unfold bareReferences inRecord
  rw [Code.qualifiedReferences_mapReferences, map_id_recordParameters h, List.filter_map,
    List.map_map]
  simp only [Function.comp_def, Prod.map_fst, Prod.map_snd, htarget]
  apply List.map_congr_left
  rintro ⟨r, qualified⟩ hr
  have hother : r.target ∉ m.parameters.map Parameter.id := by
    simpa using (Bool.and_eq_true_iff.mp (List.mem_filter.mp hr).2).2
  exact followParameter_eq_self (map_id_recordParameters h ▸ hother)

end Method

namespace Candidate

variable (c : Candidate) (d : Declaration)

/-- What a method of the class is in the record, if it stays. -/
def methodForm (m : Method) : Option Method :=
  if c.elides (.method m) then none
  else some (if c.constructor? = some m.id then m.inRecord (c.componentsOf d) d.visibility else m)

/-- Methods become methods, and no other child does. -/
theorem method?_pieceOf (child : Child) :
    (c.pieceOf d child).bind Child.method? = child.method?.bind (c.methodForm d) := by
  cases child with
  | method m =>
    rw [pieceOf, Child.method?, Option.bind_some, methodForm, recordForm]
    split
    · rfl
    · split <;> rfl
  | field f =>
    cases helided : c.elides (.field f) <;> simp [pieceOf, helided, recordForm, Child.method?]
  | keyword k => cases k <;> rfl
  | _ => rfl

variable {c d}

theorem id_of_methodForm {m form : Method} (h : c.methodForm d m = some form) : form.id = m.id := by
  unfold methodForm at h
  split at h
  · cases h
  · cases h
    split <;> rfl

/-- The constructor stays, also as the accessor of a binding. -/
theorem methodForm_of_constructor {m : Method} (h : c.constructor? = some m.id) :
    c.methodForm d m = some (m.inRecord (c.componentsOf d) d.visibility) := by
  simp [methodForm, elides, h]

/-- So the forms with its id are those of the methods with its id. -/
theorem filter_methodForm_of_constructor {id : ElementId} (h : c.constructor? = some id)
    (m : Method) : (c.methodForm d m).filter (·.id = id) =
      if m.id = id then some (m.inRecord (c.componentsOf d) d.visibility) else none := by
  split
  · next hm =>
    rw [methodForm_of_constructor (hm ▸ h), Option.filter_some]
    exact if_pos (decide_eq_true hm)
  · next hm =>
    rw [Option.filter_eq_none_iff]
    intro form hform
    simpa [id_of_methodForm hform] using hm

end Candidate

namespace Project

variable {p : Project} {c : Candidate} {record : Declaration} {id : ElementId}

/-- The methods of a record are the forms of those of the class, in order. -/
theorem methods_of_rebuildRecord (h : p.rebuildRecord c = .ok record) :
    ∃ d, p.declaration? c.declaration = some d ∧ c.memberError? d = none ∧
      record.methods = d.methods.filterMap (c.methodForm d) :=
  filterMap_of_rebuildRecord (fun _ => rfl) (fun _ => rfl) c.method?_pieceOf h

/-- The canonical constructor of a record is made from the constructor of the class, whose
    parameters fit the components. -/
theorem constructor_of_rebuildRecord (h : p.rebuildRecord c = .ok record)
    (hid : c.constructor? = some id) :
    ∃ d, p.declaration? c.declaration = some d ∧ (∃ m ∈ d.methods, m.id = id) ∧
      record.methods.filter (·.id = id) =
        (d.methods.filter (·.id = id)).map (·.inRecord (c.componentsOf d) d.visibility) ∧
      ∀ m ∈ d.methods, m.id = id → m.parameters.length = (c.componentsOf d).length ∧
        ∀ pair ∈ m.parameters.zip (c.componentsOf d),
          m.parameterError? (c.componentsOf d) pair = none := by
  obtain ⟨d, hd, hmembers, hmethods⟩ := methods_of_rebuildRecord h
  obtain ⟨d', hd', -, -, hcanonical⟩ := exists_rebuildRecord_eq_ok_iff.mp ⟨record, h⟩
  obtain rfl := Option.some.inj (hd.symm.trans hd')
  refine ⟨d, hd, (Candidate.memberError?_eq_none_iff.mp hmembers).2 id hid, ?_, ?_⟩
  · rw [hmethods, List.filter_filterMap, funext (Candidate.filter_methodForm_of_constructor hid),
      ← List.filterMap_eq_map, List.filterMap_filter]
    simp only [decide_eq_true_eq, Function.comp_apply]
  · rintro m hm rfl
    obtain ⟨canonical, hcanonical⟩ := hcanonical m hm hid
    obtain ⟨hlength, hfits, -⟩ := Method.toCanonical_eq_ok_iff.mp hcanonical
    exact ⟨hlength, hfits⟩

/-- The constructor of a record is a form of the one that the class has under its id. -/
theorem method?_of_rebuildRecord (h : p.rebuildRecord c = .ok record)
    (hid : c.constructor? = some id) :
    ∃ d m, p.declaration? c.declaration = some d ∧ d.method? id = some m ∧
      record.method? id = some (m.inRecord (c.componentsOf d) d.visibility) := by
  obtain ⟨d, hd, ⟨member, hmember, hmemberId⟩, hmethods, -⟩ := constructor_of_rebuildRecord h hid
  have hform : record.method? id =
      (d.method? id).map (·.inRecord (c.componentsOf d) d.visibility) := by
    rw [Declaration.method?, ← List.head?_filter, hmethods, List.head?_map, List.head?_filter,
      Declaration.method?]
  have hfound : (d.method? id).isSome = true := by
    rw [Declaration.method?, List.find?_isSome]
    exact ⟨member, hmember, decide_eq_true hmemberId⟩
  obtain ⟨m, hm⟩ := Option.isSome_iff_exists.mp hfound
  exact ⟨d, m, hd, hm, by rw [hform, hm, Option.map_some]⟩

/-- The rebuild checks the first assignment of each parameter only. It makes sure of all of them
    exactly if those that follow are as they should be by themselves. -/
theorem bindsByPosition_iff (h : p.rebuildRecord c = .ok record)
    (hid : c.constructor? = some id) :
    ∃ d, p.declaration? c.declaration = some d ∧ (∃ m ∈ d.methods, m.id = id) ∧
      ∀ m ∈ d.methods, m.id = id → m.FirstByPosition (c.componentsOf d) ∧
        (m.BindsByPosition (c.componentsOf d) ↔ m.RepeatsByPosition (c.componentsOf d)) := by
  obtain ⟨d, hd, hmember, -, hall⟩ := constructor_of_rebuildRecord h hid
  refine ⟨d, hd, hmember, fun m hm hmId => ?_⟩
  obtain ⟨-, hfits⟩ := hall m hm hmId
  have hfirst := Method.firstByPosition_of_fits hfits
  rw [Method.bindsByPosition_iff_first_and_repeats]
  exact ⟨hfirst, and_iff_right hfirst⟩

end Project

namespace Spans

/-- A body that assigns the first parameter to both fields. -/
def repeated : Code := assigning " \x7b this." ⟨⟨5⟩, ⟨5⟩, "a"⟩

/-- The second assignment of the parameter crosses over, and the rebuild does not see it. -/
theorem not_bindsByPosition_repeated :
    ∃ record, (project repeated).rebuildRecord (candidate (some ⟨4⟩)) = .ok record ∧
      ∃ m ∈ (span repeated).methods, m.id = ⟨4⟩ ∧
        ¬ m.BindsByPosition ((candidate (some ⟨4⟩)).componentsOf (span repeated)) := by
  have hrecord : ∃ record,
      (project repeated).rebuildRecord (candidate (some ⟨4⟩)) = .ok record := ⟨_, rfl⟩
  obtain ⟨record, hrecord⟩ := hrecord
  obtain ⟨d, hd, -, hall⟩ := Project.bindsByPosition_iff hrecord rfl
  cases hd
  obtain ⟨-, hiff⟩ := hall _ (.head _) rfl
  refine ⟨record, hrecord, _, .head _, rfl, fun hbinds => ?_⟩
  have hcrossed := hiff.mp hbinds [(⟨2⟩, ⟨5⟩)] ⟨⟨5⟩, "long", "a"⟩ ⟨⟨2⟩, "long", "start"⟩ ⟨3⟩
    ⟨by decide, by decide, [], rfl⟩ (by decide)
  exact absurd hcrossed (by decide)

end Spans

namespace Project

variable {p : Project} {c : Candidate} {record : Declaration} {id : ElementId}

/-- The names of the components capture nothing exactly if no unqualified reference bears one of
    them, unless it bore the name of a parameter already. -/
theorem capturesNothing_iff (h : p.rebuildRecord c = .ok record)
    (hid : c.constructor? = some id) :
    ∃ d, p.declaration? c.declaration = some d ∧ (∃ m ∈ d.methods, m.id = id) ∧
      List.Forall₂ (fun m canonical => m.CapturesNothing canonical ↔
          ∀ r ∈ m.bareReferences, r.name ∈ (c.componentsOf d).map Parameter.name →
            r.name ∈ m.parameters.map Parameter.name)
        (d.methods.filter (·.id = id)) (record.methods.filter (·.id = id)) := by
  obtain ⟨d, hd, hmember, hmethods, hall⟩ := constructor_of_rebuildRecord h hid
  refine ⟨d, hd, hmember, ?_⟩
  rw [hmethods, List.forall₂_map_right_iff, List.forall₂_same]
  intro m hm
  obtain ⟨hm, hmId⟩ := List.mem_filter.mp hm
  obtain ⟨hlength, -⟩ := hall m hm (of_decide_eq_true hmId)
  have hnames : (m.inRecord (c.componentsOf d) d.visibility).parameters.map Parameter.name =
      (c.componentsOf d).map Parameter.name := Method.map_recordParameters (fun _ _ => rfl) hlength
  rw [Method.CapturesNothing, Method.bareReferences_inRecord d.visibility hlength, hnames]
  exact forall₂_congr fun _ _ => not_imp_not

end Project

namespace Spans

/-- A body that assigns the first field without `this`. -/
def bare : Code := assigning " \x7b " ⟨⟨5⟩, ⟨6⟩, "z"⟩

/-- The parameter takes the name of the field, and what was an assignment to the field now assigns
    the parameter to itself. -/
theorem not_capturesNothing_bare :
    ∃ record, (project bare).rebuildRecord (candidate (some ⟨4⟩)) = .ok record ∧
      ∃ m ∈ (span bare).methods, ∃ canonical ∈ record.methods, m.id = ⟨4⟩ ∧ canonical.id = ⟨4⟩ ∧
        ¬ m.CapturesNothing canonical ∧
        canonical.body.render = " \x7b start = start; this.end = end; \x7d" := by
  have hrecord : ∃ record, (project bare).rebuildRecord (candidate (some ⟨4⟩)) = .ok record ∧
      ∀ canonical ∈ record.methods, canonical.id = ⟨4⟩ →
        canonical.body.render = " \x7b start = start; this.end = end; \x7d" :=
    ⟨_, rfl, by decide⟩
  obtain ⟨record, hrecord, hrender⟩ := hrecord
  obtain ⟨d, hd, -, hall⟩ := Project.capturesNothing_iff hrecord rfl
  cases hd
  obtain ⟨canonical, hcanonical, hiff⟩ := exists_mem_left_of_forall₂ hall.flip (.head _)
  obtain ⟨hmember, hid⟩ := List.mem_filter.mp hcanonical
  refine ⟨record, hrecord, _, .head _, canonical, hmember, rfl, of_decide_eq_true hid, ?_,
    hrender canonical hmember (of_decide_eq_true hid)⟩
  intro hcaptures
  have hbare := hiff.mp hcaptures ⟨⟨2⟩, ⟨2⟩, "start"⟩ (by decide) (by decide)
  exact absurd hbare (by decide)

end Spans

end ClassToRecord
