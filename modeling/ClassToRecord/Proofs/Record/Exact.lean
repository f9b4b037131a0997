import ClassToRecord.Proofs.Record.Identities

open ClassToRecord.Traversal

namespace ClassToRecord

/-- A constructor with the visibility, the parameters and the spelling that it has in a record. -/
def Method.inRecord (m : Method) (components : List Parameter) (visibility : Visibility) :
    Method :=
  { m with
    modifiers := { m.modifiers with visibility := m.modifiers.visibility.max visibility }
    parameters := m.recordParameters components
    body := m.body.mapReferences (followParameter (m.recordParameters components)) }

namespace Candidate

/-- What stands in a record for a child of its class that stays. -/
def recordForm (c : Candidate) (d : Declaration) : Child → Child
  | .keyword .class => .keyword .record
  | .method m =>
    if c.constructor? = some m.id then .method (m.inRecord (c.componentsOf d) d.visibility)
    else .method m
  | child => child

/-- The piece of a record that a child of its class becomes. -/
def pieceOf (c : Candidate) (d : Declaration) (child : Child) : Option Child :=
  if c.elides child then none else some (c.recordForm d child)

/-- The forms of those children that stay, whitespace apart. -/
def keptForms (c : Candidate) (d : Declaration) (children : List Child) : List Child :=
  (children.filter fun child => !child.isWhitespace && !c.elides child).map (c.recordForm d)

/-- The class has the key fields of a candidate, and the accessors and fields of its bindings. -/
def NamesMembersOf (c : Candidate) (d : Declaration) : Prop :=
  ∀ entry ∈ c.fields.entries, (∃ f ∈ d.fields, f.id = entry.1) ∧
    ∀ binding, entry.2 = some binding →
      (∃ m ∈ d.methods, m.id = binding.accessor) ∧ ∃ f ∈ d.fields, f.id = binding.backingField

/-- Whitespace stays whitespace, and nothing else becomes whitespace. -/
theorem isWhitespace_recordForm (c : Candidate) (d : Declaration) (child : Child) :
    (c.recordForm d child).isWhitespace = child.isWhitespace := by
  unfold recordForm
  split
  · rfl
  · split <;> rfl
  · rfl

/-- Whitespace stays as it is. -/
theorem pieceOf_of_isWhitespace {c : Candidate} {d : Declaration} {child : Child}
    (h : child.isWhitespace = true) : c.pieceOf d child = some child := by
  obtain ⟨text, rfl⟩ := Child.exists_text_of_isWhitespace h
  rfl

/-- So does the child behind which the header goes. -/
theorem pieceOf_of_headerAnchor {c : Candidate} {d : Declaration} {before after : List Child}
    {anchor : Child} (h : Declaration.HeaderAnchor before anchor after) :
    c.pieceOf d anchor = some anchor := by
  cases h <;> rfl

/-- A child that is elided leaves a gap, and any other child takes its form. -/
theorem eq_pieceOf_of_recordChild {c : Candidate} {d : Declaration} {child : Child}
    {piece : Option Child}
    (h : c.recordChild (c.componentsOf d) d.visibility child = .ok piece) :
    piece = c.pieceOf d child := by
  rw [pieceOf, elides_of_recordChild h]
  unfold recordChild at h
  split at h
  · cases h
    rfl
  · next f =>
    cases h
    split <;> rfl
  · next m =>
    split at h
    · next hconstructor =>
      obtain ⟨canonical, hcanonical, rfl⟩ := map_eq_ok_iff.mp h
      obtain ⟨-, -, rfl⟩ := Method.toCanonical_eq_ok_iff.mp hcanonical
      rw [recordForm, if_pos hconstructor]
      rfl
    · next hother =>
      cases h
      rw [recordForm, if_neg hother]
      split <;> rfl
  · next hkeyword hfield hmethod =>
    cases h
    rw [recordForm]
    · rfl
    · exact hkeyword
    · exact hmethod

/-- Only the constructor can fail to become a piece of the record. -/
theorem exists_recordChild_eq_ok_iff {c : Candidate} {components : List Parameter}
    {visibility : Visibility} {child : Child} :
    (∃ piece, c.recordChild components visibility child = .ok piece) ↔
      ∀ m, child = .method m → c.constructor? = some m.id →
        ∃ canonical, m.toCanonical components visibility = .ok canonical := by
  unfold recordChild
  split
  · simp
  · simp
  · next m =>
    split
    · next hconstructor =>
      constructor
      · rintro ⟨piece, hpiece⟩ m' hm -
        cases hm
        obtain ⟨canonical, hcanonical, -⟩ := map_eq_ok_iff.mp hpiece
        exact ⟨canonical, hcanonical⟩
      · intro h
        obtain ⟨canonical, hcanonical⟩ := h m rfl hconstructor
        exact ⟨_, map_eq_ok_iff.mpr ⟨canonical, hcanonical, rfl⟩⟩
    · next hother => simp [hother]
  · next hmethod =>
    exact ⟨fun _ m hm => absurd hm (hmethod m), fun _ => ⟨_, rfl⟩⟩

/-- And it fails for its own reason. -/
theorem exists_method_of_recordChild_eq_error {c : Candidate} {components : List Parameter}
    {visibility : Visibility} {child : Child} {error : ShapeError}
    (h : c.recordChild components visibility child = .error error) :
    ∃ m, child = .method m ∧ c.constructor? = some m.id ∧
      m.toCanonical components visibility = .error error := by
  unfold recordChild at h
  split at h
  · cases h
  · cases h
  · next m =>
    split at h
    · next hconstructor =>
      cases hcanonical : m.toCanonical components visibility with
      | error reason =>
        rw [hcanonical] at h
        cases h
        exact ⟨m, rfl, hconstructor, hcanonical⟩
      | ok canonical =>
        rw [hcanonical] at h
        cases h
    · cases h
  · cases h

private theorem entryError?_eq_none_iff {d : Declaration}
    {entry : ElementId × Option AccessorBinding} : entryError? d entry = none ↔
      (∃ f ∈ d.fields, f.id = entry.1) ∧ ∀ binding, entry.2 = some binding →
        (∃ m ∈ d.methods, m.id = binding.accessor) ∧
          ∃ f ∈ d.fields, f.id = binding.backingField := by
  have hfield : ∀ id, (d.field? id).isNone = true ↔ ¬ ∃ f ∈ d.fields, f.id = id := by
    simp [Declaration.field?]
  have hmethod : ∀ id, (d.method? id).isNone = true ↔ ¬ ∃ m ∈ d.methods, m.id = id := by
    simp [Declaration.method?]
  obtain ⟨field, binding?⟩ := entry
  cases binding? with
  | none => simp [entryError?, hfield]
  | some binding =>
    simp only [entryError?, hfield, hmethod, Option.some.injEq, forall_eq']
    split_ifs <;> simp_all

/-- Nothing is missing exactly if the class has what the candidate names. -/
theorem memberError?_eq_none_iff {c : Candidate} {d : Declaration} :
    c.memberError? d = none ↔ c.NamesMembersOf d ∧
      ∀ constructor, c.constructor? = some constructor → ∃ m ∈ d.methods, m.id = constructor := by
  have hconstructor : c.constructorError? d = none ↔
      ∀ constructor, c.constructor? = some constructor → ∃ m ∈ d.methods, m.id = constructor := by
    cases hnamed : c.constructor? <;> simp [constructorError?, hnamed, Declaration.method?]
  rw [memberError?, Option.or_eq_none_iff, List.findSome?_eq_none_iff, hconstructor]
  simp only [entryError?_eq_none_iff, NamesMembersOf]

variable (c : Candidate) (d : Declaration)

/-- Among the pieces, the whitespace is that of the children. -/
theorem filter_isWhitespace_pieces (children : List Child) :
    (children.filterMap (c.pieceOf d)).filter Child.isWhitespace =
      children.filter Child.isWhitespace := by
  induction children with
  | nil => rfl
  | cons child rest ih =>
    cases hblank : child.isWhitespace with
    | true =>
      have hpiece : c.pieceOf d child = some child := pieceOf_of_isWhitespace hblank
      simp [hpiece, hblank, ih]
    | false =>
      cases helided : c.elides child <;>
        simp [pieceOf, helided, isWhitespace_recordForm, hblank, ih]

/-- The gaps of some children are closed: what stays of them, whitespace apart, are their forms. -/
theorem filter_closeGaps_pieces (children : List Child) :
    (closeGaps [] (children.map (c.pieceOf d))).filter (!·.isWhitespace) =
      c.keptForms d children := by
  have hread : ∀ l : List Child, l.filter (!·.isWhitespace) =
      l.flatMap fun child => [child].filter (!·.isWhitespace) := by
    intro l
    rw [← List.filter_flatMap, List.flatMap_singleton']
  rw [hread, flatMap_closeGaps fun child hblank => by simp [hblank]]
  rw [List.reverse_nil, List.flatMap_nil, List.nil_append, List.flatMap_map]
  induction children with
  | nil => rfl
  | cons child rest ih =>
    rw [List.flatMap_cons, ih]
    cases helided : c.elides child <;> cases hblank : child.isWhitespace <;>
      simp [keptForms, pieceOf, isWhitespace_recordForm, helided, hblank]

/-- What each child has at most one of can be read off some children, where the pieces have forms of
    it and whitespace has none. -/
theorem filterMap_closeGaps_pieces {α : Type} {read : Child → Option α} {form : α → Option α}
    (hblank : ∀ text, read (.trivia (.whitespace text)) = none)
    (hpiece : ∀ child, (c.pieceOf d child).bind read = (read child).bind form)
    (children : List Child) :
    (closeGaps [] (children.map (c.pieceOf d))).filterMap read =
      (children.filterMap read).filterMap form := by
  have hnothing : ∀ child : Child, child.isWhitespace = true → (read child).toList = [] := by
    intro child hchild
    obtain ⟨text, rfl⟩ := Child.exists_text_of_isWhitespace hchild
    rw [hblank]
    rfl
  have hform : ∀ child, (c.pieceOf d child).elim [] (fun piece => (read piece).toList) =
      ((read child).bind form).toList := by
    intro child
    rw [← hpiece child]
    cases c.pieceOf d child <;> rfl
  rw [List.filterMap_eq_flatMap_toList, flatMap_closeGaps hnothing, List.flatMap_map,
    funext hform, List.filterMap_filterMap, List.filterMap_eq_flatMap_toList]
  rfl

theorem filter_isWhitespace_closeGaps_sublist (children : List Child) :
    ((closeGaps [] (children.map (c.pieceOf d))).filter Child.isWhitespace).Sublist
      (children.filter Child.isWhitespace) := by
  have hsublist := (closeGaps_sublist [] (children.map (c.pieceOf d))).filter Child.isWhitespace
  simpa [filter_isWhitespace_pieces] using hsublist

theorem countP_isWhitespace_le (children : List Child) :
    children.countP Child.isWhitespace ≤
      (closeGaps [] (children.map (c.pieceOf d))).countP Child.isWhitespace +
        children.countP c.elides := by
  have hgaps : (children.map (c.pieceOf d)).countP Option.isNone = children.countP c.elides := by
    rw [List.countP_map]
    congr 1
    funext child
    cases helided : c.elides child <;> simp [pieceOf, helided]
  have hcount := countP_le_closeGaps [] (children.map (c.pieceOf d))
  rw [hgaps] at hcount
  simpa [List.countP_eq_length_filter, filter_isWhitespace_pieces] using hcount

end Candidate

namespace Project

variable {p : Project} {c : Candidate} {record : Declaration}

/-- What the pass makes of a class are the pieces of its children and of the header, without the
    gaps. -/
theorem rebuildRecord_eq_ok_pieces (h : p.rebuildRecord c = .ok record) :
    ∃ d placed, p.declaration? c.declaration = some d ∧ c.memberError? d = none ∧
      Declaration.insertHeader (.header (c.componentsOf d)) d.children = some placed ∧
      record = { d with children := closeGaps [] (placed.map (c.pieceOf d)) } := by
  obtain ⟨d, placed, pieces, hd, hmembers, hplaced, hpieces, rfl⟩ := rebuildRecord_eq_ok h
  obtain rfl := map_eq_of_forall₂ hpieces.flip fun _ _ hpiece =>
    (Candidate.eq_pieceOf_of_recordChild hpiece).symm
  exact ⟨d, placed, hd, hmembers, hplaced, rfl⟩

/-- The pass over a class makes the record from the children before and after the anchor of the
    header, and in between stand the anchor and the header. -/
theorem rebuildRecord_eq_ok_around_anchor (h : p.rebuildRecord c = .ok record) :
    ∃ d before anchor after, p.declaration? c.declaration = some d ∧ c.memberError? d = none ∧
      Declaration.HeaderAnchor before anchor after ∧ d.children = before ++ anchor :: after ∧
      record = { d with
        children := closeGaps [] (before.map (c.pieceOf d)) ++
          anchor :: .header (c.componentsOf d) :: closeGaps [] (after.map (c.pieceOf d)) } := by
  obtain ⟨d, placed, hd, hmembers, hplaced, rfl⟩ := rebuildRecord_eq_ok_pieces h
  obtain ⟨before, anchor, after, hanchor, hchildren, rfl⟩ :=
    Declaration.exists_anchor_of_insertHeader hplaced
  have hanchorPiece : c.pieceOf d anchor = some anchor := Candidate.pieceOf_of_headerAnchor hanchor
  have hheaderPiece : c.pieceOf d (.header (c.componentsOf d)) =
      some (.header (c.componentsOf d)) := rfl
  refine ⟨d, before, anchor, after, hd, hmembers, hanchor, hchildren, ?_⟩
  rw [List.map_append, List.map_cons, List.map_cons, closeGaps_append, hanchorPiece, hheaderPiece]
  -- the header is not whitespace, so no gap after it reaches what stands before it
  have hsolid : (Child.header (c.componentsOf d)).isWhitespace = false := rfl
  have hafter := closeGaps_append_cons hsolid []
    (anchor :: (closeGaps [] (before.map (c.pieceOf d))).reverse) (after.map (c.pieceOf d))
  rw [List.reverse_cons, List.reverse_reverse, List.append_assoc] at hafter
  exact congrArg (fun children => { d with children }) hafter

/-- What each child has at most one of is read off the children, where the pieces have forms of
    it. -/
theorem filterMap_of_rebuildRecord {α : Type} {read : Child → Option α}
    {form : Declaration → α → Option α} (hblank : ∀ text, read (.trivia (.whitespace text)) = none)
    (hheader : ∀ components, read (.header components) = none)
    (hpiece : ∀ d child, (c.pieceOf d child).bind read = (read child).bind (form d))
    (h : p.rebuildRecord c = .ok record) :
    ∃ d, p.declaration? c.declaration = some d ∧ c.memberError? d = none ∧
      record.children.filterMap read = (d.children.filterMap read).filterMap (form d) := by
  obtain ⟨d, before, anchor, after, hd, hmembers, hanchor, hchildren, rfl⟩ :=
    rebuildRecord_eq_ok_around_anchor h
  have hanchorPiece : c.pieceOf d anchor = some anchor := Candidate.pieceOf_of_headerAnchor hanchor
  have hanchorForm : [anchor].filterMap read = ([anchor].filterMap read).filterMap (form d) := by
    have hread := hpiece d anchor
    rw [hanchorPiece, Option.bind_some] at hread
    cases hvalue : read anchor with
    | none => simp [hvalue]
    | some value =>
      rw [hvalue, Option.bind_some] at hread
      simp [hvalue, ← hread]
  have hheaderRead : read (.header (c.componentsOf d)) = none := hheader _
  refine ⟨d, hd, hmembers, ?_⟩
  rw [List.append_cons, List.filterMap_append, List.filterMap_append, hanchorForm,
    List.filterMap_cons_none hheaderRead, c.filterMap_closeGaps_pieces d hblank (hpiece d),
    c.filterMap_closeGaps_pieces d hblank (hpiece d), hchildren, List.append_cons]
  simp only [List.filterMap_append]

theorem rebuildRecord_eq_ok_of_mapM {d : Declaration} {placed : List Child}
    {pieces : List (Option Child)} (hd : p.declaration? c.declaration = some d)
    (hmembers : c.memberError? d = none)
    (hplaced : Declaration.insertHeader (.header (c.componentsOf d)) d.children = some placed)
    (hpieces : placed.mapM (c.recordChild (c.componentsOf d) d.visibility) = .ok pieces) :
    p.rebuildRecord c = .ok { d with children := closeGaps [] pieces } := by
  simp only [rebuildRecord, hd, hmembers, hplaced, Option.getD_some, hpieces]
  rfl

private theorem method_mem_iff_of_insertHeader {header : List Parameter}
    {children placed : List Child}
    (h : Declaration.insertHeader (.header header) children = some placed) {m : Method} :
    .method m ∈ placed ↔ .method m ∈ children := by
  obtain ⟨before, after, rfl, rfl⟩ := Declaration.insertHeader_eq_append h
  simp

/-- The rebuild succeeds exactly if the declaration has the members that the candidate names and a
    place for the header, and its constructor can become canonical. -/
theorem exists_rebuildRecord_eq_ok_iff :
    (∃ record, p.rebuildRecord c = .ok record) ↔
      ∃ d, p.declaration? c.declaration = some d ∧ c.memberError? d = none ∧
        (Declaration.insertHeader (.header (c.componentsOf d)) d.children).isSome = true ∧
        ∀ m ∈ d.methods, c.constructor? = some m.id →
          ∃ canonical, m.toCanonical (c.componentsOf d) d.visibility = .ok canonical := by
  constructor
  · rintro ⟨record, h⟩
    obtain ⟨d, placed, pieces, hd, hmembers, hplaced, hpieces, rfl⟩ := rebuildRecord_eq_ok h
    refine ⟨d, hd, hmembers, hplaced ▸ rfl, fun m hm hconstructor => ?_⟩
    have hchild := (method_mem_iff_of_insertHeader hplaced).mpr (Declaration.mem_methods_iff.mp hm)
    obtain ⟨piece, -, hpiece⟩ := exists_mem_left_of_forall₂ hpieces.flip hchild
    exact Candidate.exists_recordChild_eq_ok_iff.mp ⟨piece, hpiece⟩ m rfl hconstructor
  · rintro ⟨d, hd, hmembers, hplace, hconstructor⟩
    obtain ⟨placed, hplaced⟩ := Option.isSome_iff_exists.mp hplace
    have hall : ∀ child ∈ placed,
        ∃ piece, c.recordChild (c.componentsOf d) d.visibility child = .ok piece := by
      intro child hchild
      refine Candidate.exists_recordChild_eq_ok_iff.mpr ?_
      rintro m rfl hm
      have hmember := (method_mem_iff_of_insertHeader hplaced).mp hchild
      exact hconstructor m (Declaration.mem_methods_iff.mpr hmember) hm
    obtain ⟨pieces, hpieces⟩ := exists_mapM_eq_ok_iff.mpr hall
    exact ⟨_, rebuildRecord_eq_ok_of_mapM hd hmembers hplaced hpieces⟩

/-- Where members and a place for the header are there, only the constructor can make it fail. -/
theorem exists_method_of_rebuildRecord_eq_error {d : Declaration} {error : ShapeError}
    (hd : p.declaration? c.declaration = some d) (hmembers : c.memberError? d = none)
    (hplace : (Declaration.insertHeader (.header (c.componentsOf d)) d.children).isSome = true)
    (h : p.rebuildRecord c = .error error) :
    ∃ m ∈ d.methods, c.constructor? = some m.id ∧
      m.toCanonical (c.componentsOf d) d.visibility = .error error := by
  obtain ⟨placed, hplaced⟩ := Option.isSome_iff_exists.mp hplace
  simp only [rebuildRecord, hd, hmembers, hplaced, Option.getD_some] at h
  obtain hpieces | ⟨pieces, -, h⟩ := bind_eq_error_iff.mp h
  · obtain ⟨child, hchild, hfails⟩ := exists_mem_of_mapM_eq_error hpieces
    obtain ⟨m, rfl, hconstructor, hcanonical⟩ :=
      Candidate.exists_method_of_recordChild_eq_error hfails
    have hmember := (method_mem_iff_of_insertHeader hplaced).mp hchild
    exact ⟨m, Declaration.mem_methods_iff.mpr hmember, hconstructor, hcanonical⟩
  · cases h

end Project

/-- A record is what the pass over its class makes of it. Whitespace apart, the children are the
    forms of those that stay, in order, and the header of the components stands right behind its
    anchor. No whitespace is new, and at most one is lost for each child that is left out. -/
structure Declaration.RebuiltAs (c : Candidate) (d record : Declaration) : Prop where
  id : record.id = d.id
  file : record.file = d.file
  children : ∃ before anchor after start rest, HeaderAnchor before anchor after ∧
    d.children = before ++ anchor :: after ∧
    record.children = start ++ anchor ::
      .header ((d.fields.filter (c.isComponent ·.id)).map Field.toComponent) :: rest ∧
    start.filter (!·.isWhitespace) = c.keptForms d before ∧
    rest.filter (!·.isWhitespace) = c.keptForms d after
  whitespace : (record.children.filter Child.isWhitespace).Sublist
    (d.children.filter Child.isWhitespace)
  gaps : d.children.countP Child.isWhitespace ≤
    record.children.countP Child.isWhitespace + d.children.countP c.elides

namespace Project

/-- The rebuild makes exactly this record. Without a constructor, it succeeds exactly if the
    declaration is there and has the members that the candidate names, and something significant
    follows its name. -/
theorem rebuildRecord_exact (p : Project) (c : Candidate) :
    (∀ record, p.rebuildRecord c = .ok record →
      ∃ d, p.declaration? c.declaration = some d ∧ d.RebuiltAs c record) ∧
    (c.constructor? = none →
      ((∃ record, p.rebuildRecord c = .ok record) ↔
        ∃ d, p.declaration? c.declaration = some d ∧ c.NamesMembersOf d ∧
          ∃ name after, Child.identifier name :: after <:+ d.children ∧
            ∃ child ∈ after, child.isSignificant = true)) := by
  constructor
  · intro record h
    obtain ⟨d, before, anchor, after, hd, -, hanchor, hchildren, rfl⟩ :=
      rebuildRecord_eq_ok_around_anchor h
    have hmark : anchor.isWhitespace = false := by cases hanchor <;> rfl
    have hheader : (Child.header (c.componentsOf d)).isWhitespace = false := rfl
    have hstays : c.elides anchor = false := by cases hanchor <;> rfl
    refine ⟨d, hd, rfl, rfl, ⟨before, anchor, after, _, _, hanchor, hchildren, rfl,
      c.filter_closeGaps_pieces d before, c.filter_closeGaps_pieces d after⟩, ?_, ?_⟩
    · have hbefore := c.filter_isWhitespace_closeGaps_sublist d before
      have hafter := c.filter_isWhitespace_closeGaps_sublist d after
      simpa [hchildren, hmark, hheader, List.filter_cons] using hbefore.append hafter
    · have hbefore := c.countP_isWhitespace_le d before
      have hafter := c.countP_isWhitespace_le d after
      simp only [hchildren, List.countP_append, List.countP_cons, hmark, hheader, hstays]
      omega
  · intro hnone
    rw [exists_rebuildRecord_eq_ok_iff]
    simp [Candidate.memberError?_eq_none_iff, Declaration.isSome_insertHeader_iff, hnone]

end Project

namespace Spans

/-- A class with two fields, a constructor with the given body, and an accessor. -/
def span (body : Code) : Declaration where
  id := ⟨1⟩
  file := "Span.java"
  children := [
    .modifiers ⟨.public, []⟩, .keyword .class, .trivia (.whitespace " "), .identifier "Span",
    .trivia (.comment "/* closed */"), .typeParameters "<T>", .code (.ofText " \x7b"),
    .trivia (.whitespace " "),
    .field { id := ⟨2⟩, modifiers := ⟨.private, []⟩, type := "long", name := "start" },
    .trivia (.whitespace " "),
    .field { id := ⟨3⟩, modifiers := ⟨.private, []⟩, type := "long", name := "end" },
    .trivia (.whitespace " "),
    .method {
      id := ⟨4⟩
      modifiers := ⟨.package, []⟩
      returnType? := none
      name := "Span"
      parameters := [⟨⟨5⟩, "long", "a"⟩, ⟨⟨6⟩, "long", "z"⟩]
      body },
    .trivia (.whitespace " "),
    .method {
      id := ⟨7⟩
      modifiers := ⟨.public, []⟩
      returnType? := some "long"
      name := "getEnd"
      parameters := []
      body := .ofText " \x7b return " ++ ⟨[.ref ⟨⟨1⟩, ⟨3⟩, "end"⟩]⟩ ++ .ofText "; \x7d" },
    .code (.ofText " \x7d")]

/-- Both fields are key fields, and one has the accessor. -/
def candidate (constructor? : Option ElementId) : Candidate where
  declaration := ⟨1⟩
  fields := ⟨[(⟨2⟩, none), (⟨3⟩, some ⟨⟨7⟩, ⟨3⟩, false⟩)], by decide⟩
  constructor?

/-- The project of the class alone. -/
def project (body : Code) : Project := ⟨[span body], 7, 5⟩

/-- A body of two assignments: of the first parameter to the first field, as `opening` writes it, and
    of a last value to the other field. -/
def assigning (opening : String) (last : Reference) : Code :=
  .ofText opening ++ ⟨[.ref ⟨⟨2⟩, ⟨2⟩, "start"⟩]⟩ ++ .ofText " = " ++
    ⟨[.ref ⟨⟨3⟩, ⟨5⟩, "a"⟩]⟩ ++ .ofText "; this." ++ ⟨[.ref ⟨⟨4⟩, ⟨3⟩, "end"⟩]⟩ ++ .ofText " = " ++
    ⟨[.ref last]⟩ ++ .ofText "; \x7d"

/-- A body that assigns the parameters in the order of the fields. -/
def ordered : Code := assigning " \x7b this." ⟨⟨5⟩, ⟨6⟩, "z"⟩

/-- Two fields and the accessor leave their places, a comment stands between the name and the type
    parameters, and without the constructor the rebuild succeeds as well. -/
theorem rebuildRecord_exact_span :
    (∃ record, (project ordered).rebuildRecord (candidate (some ⟨4⟩)) = .ok record ∧
      (span ordered).RebuiltAs (candidate (some ⟨4⟩)) record) ∧
    (candidate none).constructor? = none ∧
      (candidate none).NamesMembersOf (span ordered) ∧
      ∃ record, (project ordered).rebuildRecord (candidate none) = .ok record := by
  have hmembers : (candidate none).NamesMembersOf (span ordered) :=
    (Candidate.memberError?_eq_none_iff.mp rfl).1
  refine ⟨?_, rfl, hmembers, ?_⟩
  · have hrecord : ∃ record,
        (project ordered).rebuildRecord (candidate (some ⟨4⟩)) = .ok record := ⟨_, rfl⟩
    obtain ⟨record, hrecord⟩ := hrecord
    obtain ⟨d, hd, hrebuilt⟩ :=
      (Project.rebuildRecord_exact (project ordered) (candidate (some ⟨4⟩))).1 record hrecord
    cases hd
    exact ⟨record, hrecord, hrebuilt⟩
  · have hsuffix : .identifier "Span" :: (span ordered).children.drop 4 <:+
        (span ordered).children := List.drop_suffix 3 (span ordered).children
    have hplace : ∃ child ∈ (span ordered).children.drop 4, child.isSignificant = true :=
      ⟨_, .tail _ (.head _), rfl⟩
    exact ((Project.rebuildRecord_exact (project ordered) (candidate none)).2 rfl).mpr
      ⟨span ordered, rfl, hmembers, "Span", _, hsuffix, hplace⟩

end Spans

end ClassToRecord
