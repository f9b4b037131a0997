import ClassToRecord.Proofs.Project.Calls

namespace ClassToRecord

open DeclarationBuilder

/-- What a builder writes, with the members in order. -/
structure Outline where
  modifiers? : Option Modifiers := none
  name : String
  typeParameters : String := ""
  clauses : List String := []
  members : List Child := []

namespace Outline

/-- The text of a declaration with this outline. A header stands behind the type parameters, and each
    member on a line of its own. -/
def text (o : Outline) (keyword : Keyword) (header : String) : String :=
  o.modifiers?.elim "" Modifiers.render ++ keyword.render ++ " " ++ o.name ++ o.typeParameters ++
    header ++ String.join (o.clauses.map (" implements " ++ ·)) ++ " \x7b" ++
    String.join (o.members.map ("\n    " ++ ·.render)) ++ "\n\x7d"

def front (o : Outline) (keyword : Keyword) : List Child :=
  (o.modifiers?.map Child.modifiers).toList ++
    [.keyword keyword, space " ", .identifier o.name, .typeParameters o.typeParameters]

def clauseChild (clause : String) : Child := verbatim (" implements " ++ clause)

/-- A member and the whitespace before it. -/
def line (member : Child) : List Child := [space "\n    ", member]

/-- The children of a declaration with this outline, up to the closing brace. -/
def opened (o : Outline) (keyword : Keyword) (header : List Child) : List Child :=
  o.front keyword ++
    (header ++ (o.clauses.map clauseChild ++ verbatim " \x7b" :: o.members.flatMap line))

def children (o : Outline) (keyword : Keyword) (header : List Child) : List Child :=
  o.opened keyword header ++ [verbatim "\n\x7d"]

/-- What a call adds to the outline of a builder. -/
def after (o : Outline) (b : DeclarationBuilder) : Call → Outline
  | .modifiers m => { o with modifiers? := some m }
  | .typeParameters text => { o with typeParameters := text }
  | .implements clause => { o with clauses := o.clauses ++ [clause] }
  | .overrides method superMethod =>
    { o with members := addSuperMethod method superMethod o.members }
  | call => { o with members := o.members ++ (b.memberOf? call).toList }

def afterAll (o : Outline) (b : DeclarationBuilder) : List Call → Outline
  | [] => o
  | call :: rest => (o.after b call).afterAll (b.perform call) rest

/-- What some calls make a new builder write. -/
def ofCalls (p : Project) (keyword : Keyword) (file name : String) (calls : List Call) : Outline :=
  afterAll { name } (start p keyword file name) calls

/-- The declaration under construction is written as the outline says. Before the opening brace there
    are no members. -/
structure Describes (o : Outline) (keyword : Keyword) (b : DeclarationBuilder) : Prop where
  closed : b.opened = false → o.members = [] ∧
    b.declaration.children = o.front keyword ++ o.clauses.map clauseChild
  opened : b.opened = true → b.declaration.children = o.opened keyword []
  members : ∀ m ∈ o.members, ∀ text, m ≠ .typeParameters text

theorem describes_start (p : Project) (keyword : Keyword) (file name : String) :
    Describes { name } keyword (start p keyword file name) :=
  ⟨fun _ => ⟨rfl, rfl⟩, nofun, nofun⟩

variable {o : Outline} {keyword : Keyword} {b : DeclarationBuilder}

theorem Describes.openBrace (h : o.Describes keyword b) :
    b.openBrace.opened = true ∧ b.openBrace.declaration.children = o.opened keyword [] := by
  unfold DeclarationBuilder.openBrace
  cases hopened : b.opened with
  | true => exact ⟨hopened, h.opened hopened⟩
  | false =>
    obtain ⟨hnone, hchildren⟩ := h.closed hopened
    refine ⟨rfl, ?_⟩
    simp [mapChildren, Outline.opened, hchildren, hnone]

theorem Describes.member (h : o.Describes keyword b) {child : Child}
    (hchild : ∀ text, child ≠ .typeParameters text) :
    Describes { o with members := o.members ++ [child] } keyword (b.member child) := by
  obtain ⟨hopened, hchildren⟩ := h.openBrace
  have hstays : (b.member child).opened = true := hopened
  refine ⟨fun hclosed => ?_, fun _ => ?_, fun m hm => ?_⟩
  · rw [hstays] at hclosed
    cases hclosed
  · simp [DeclarationBuilder.member, mapChildren, hchildren, Outline.opened, front, line]
  · obtain hm | hm := List.mem_append.mp hm
    · exact h.members m hm
    · rw [List.mem_singleton.mp hm]
      exact hchild

/-- Builders that differ in the ids that they have given out are described alike. -/
theorem Describes.of_after (h : o.Describes keyword b) {b' : DeclarationBuilder}
    (hafter : After b b') : o.Describes keyword b' :=
  ⟨fun hclosed => hafter.declaration ▸ h.closed (hafter.opened ▸ hclosed),
    fun hopened => hafter.declaration ▸ h.opened (hafter.opened ▸ hopened), h.members⟩

section Front

variable {rest : List Child} (h : b.declaration.children = o.front keyword ++ rest)
include h

private theorem children_modifiers (m : Modifiers) : (b.modifiers m).declaration.children =
    front { o with modifiers? := some m } keyword ++ rest := by
  simp only [modifiers, mapChildren, h, front]
  cases o.modifiers? <;> rfl

private theorem exists_children_typeParameters (text : String) :
    ∃ rest', (b.typeParameters text).declaration.children =
        front { o with typeParameters := text } keyword ++ rest' ∧
      ((∀ m ∈ rest, ∀ text, m ≠ .typeParameters text) → rest' = rest) := by
  simp only [DeclarationBuilder.typeParameters, mapChildren, h, List.map_append]
  refine ⟨_, congrArg (· ++ _) ?_, fun hrest => ?_⟩
  · simp only [front]
    cases o.modifiers? <;> rfl
  · refine (List.map_congr_left fun child hchild => ?_).trans (List.map_id rest)
    cases child with
    | typeParameters old => exact absurd rfl (hrest _ hchild old)
    | _ => rfl

end Front

theorem Describes.modifiers (h : o.Describes keyword b) (m : Modifiers) :
    Describes { o with modifiers? := some m } keyword (b.modifiers m) :=
  ⟨fun hclosed => ⟨(h.closed hclosed).1, children_modifiers (h.closed hclosed).2 m⟩,
    fun hopened => children_modifiers (h.opened hopened) m, h.members⟩

theorem Describes.typeParameters (h : o.Describes keyword b) (text : String) :
    Describes { o with typeParameters := text } keyword (b.typeParameters text) := by
  have hclauses : ∀ child ∈ o.clauses.map clauseChild, ∀ text, child ≠ .typeParameters text := by
    simp [clauseChild, verbatim]
  have hlines : ∀ child ∈ o.members.flatMap line, ∀ text, child ≠ .typeParameters text := by
    intro child hchild
    obtain ⟨m, hm, hline⟩ := List.mem_flatMap.mp hchild
    obtain rfl | hline := List.mem_cons.mp hline
    · exact fun _ => Child.noConfusion
    · rw [List.mem_singleton.mp hline]
      exact h.members m hm
  refine ⟨fun hclosed => ⟨(h.closed hclosed).1, ?_⟩, fun hopened => ?_, h.members⟩
  · obtain ⟨_, hchildren, hsame⟩ := exists_children_typeParameters (h.closed hclosed).2 text
    rw [hchildren, hsame hclauses]
  · obtain ⟨_, hchildren, hsame⟩ := exists_children_typeParameters (h.opened hopened) text
    rw [List.nil_append] at hsame
    rw [hchildren,
      hsame (List.forall_mem_append.mpr ⟨hclauses, List.forall_mem_cons.mpr ⟨fun _ => Child.noConfusion, hlines⟩⟩)]
    rfl

theorem Describes.implements (h : o.Describes keyword b) (hclosed : b.opened = false)
    (clause : String) :
    Describes { o with clauses := o.clauses ++ [clause] } keyword (b.implements clause) := by
  obtain ⟨hnone, hchildren⟩ := h.closed hclosed
  refine ⟨fun _ => ⟨hnone, ?_⟩, fun hopened => ?_, h.members⟩
  · simp [DeclarationBuilder.implements, mapChildren, hchildren, front, clauseChild]
  · have hsame : b.opened = true := hopened
    rw [hclosed] at hsame
    cases hsame

/-- A method is looked for among the members only. -/
private theorem addSuperMethod_append {before : List Child}
    (hbefore : ∀ child ∈ before, child.method? = none) (method superMethod : ElementId)
    (rest : List Child) :
    addSuperMethod method superMethod (before ++ rest) =
      before ++ addSuperMethod method superMethod rest := by
  induction before with
  | nil => rfl
  | cons child before ih =>
    obtain ⟨hchild, hothers⟩ := List.forall_mem_cons.mp hbefore
    rw [List.cons_append, addSuperMethod_cons hchild, ih hothers, List.cons_append]

private theorem addSuperMethod_lines (method superMethod : ElementId) (members : List Child) :
    addSuperMethod method superMethod (members.flatMap line) =
      (addSuperMethod method superMethod members).flatMap line := by
  induction members with
  | nil => rfl
  | cons child rest ih =>
    have hskip : addSuperMethod method superMethod (line child ++ rest.flatMap line) =
        space "\n    " :: addSuperMethod method superMethod (child :: rest.flatMap line) := rfl
    rw [List.flatMap_cons, hskip]
    cases child with
    | method m =>
      simp only [addSuperMethod, ih]
      split <;> rfl
    | _ =>
      rw [addSuperMethod_cons rfl, ih, addSuperMethod_cons rfl]
      rfl

private theorem eq_method_of_mem_addSuperMethod {method superMethod : ElementId} {child : Child}
    {members : List Child} (h : child ∈ addSuperMethod method superMethod members) :
    child ∈ members ∨ ∃ m, child = .method m := by
  induction members with
  | nil => cases h
  | cons first rest ih =>
    cases first with
    | method m =>
      rw [addSuperMethod] at h
      split at h <;> obtain rfl | h := List.mem_cons.mp h
      · exact .inr ⟨_, rfl⟩
      · exact .inl (List.mem_cons_of_mem _ h)
      · exact .inr ⟨_, rfl⟩
      · exact (ih h).imp_left (List.mem_cons_of_mem _)
    | _ =>
      obtain rfl | h := List.mem_cons.mp h
      · exact .inl (.head _)
      · exact (ih h).imp_left (List.mem_cons_of_mem _)

private theorem method?_of_mem_front {child : Child} (h : child ∈ o.front keyword) :
    child.method? = none := by
  revert h child
  simp only [front]
  cases o.modifiers? <;> simp [space, Child.method?]

theorem Describes.overrides (h : o.Describes keyword b) (method superMethod : ElementId) :
    Describes { o with members := addSuperMethod method superMethod o.members } keyword
      (b.overrides method superMethod) := by
  have hbefore : ∀ child ∈ o.front keyword ++ o.clauses.map clauseChild, child.method? = none :=
    List.forall_mem_append.mpr ⟨fun _ => method?_of_mem_front, by
      simp [clauseChild, verbatim, Child.method?]⟩
  refine ⟨fun hclosed => ?_, fun hopened => ?_, fun child hchild => ?_⟩
  · obtain ⟨hnone, hchildren⟩ := h.closed hclosed
    have hsame := addSuperMethod_append hbefore method superMethod []
    rw [List.append_nil] at hsame
    refine ⟨by rw [hnone]; rfl, ?_⟩
    simp only [DeclarationBuilder.overrides, mapChildren, hchildren, hsame]
    exact List.append_nil _
  · have hmembers := addSuperMethod_append hbefore method superMethod
      (verbatim " \x7b" :: o.members.flatMap line)
    have hbrace : addSuperMethod method superMethod (verbatim " \x7b" :: o.members.flatMap line) =
      verbatim " \x7b" :: addSuperMethod method superMethod (o.members.flatMap line) := rfl
    rw [hbrace, addSuperMethod_lines] at hmembers
    simp only [DeclarationBuilder.overrides, mapChildren, h.opened hopened, Outline.opened,
      List.nil_append, ← List.append_assoc]
    exact hmembers
  · obtain hold | ⟨m, rfl⟩ := eq_method_of_mem_addSuperMethod hchild
    · exact h.members child hold
    · exact fun _ => Child.noConfusion

private theorem ne_typeParameters_of_memberOf? {call : Call} {child : Child}
    (h : b.memberOf? call = some child) (text : String) : child ≠ .typeParameters text := by
  rintro rfl
  cases call with
  | accessor m name field =>
    obtain ⟨f, -, hmethod⟩ := Option.map_eq_some_iff.mp h
    cases hmethod
  | canonicalConstructor m fields =>
    obtain ⟨pair, -, hmethod⟩ := Option.map_eq_some_iff.mp h
    cases hmethod
  | _ => cases h

/-- A call changes the outline as it says. -/
theorem Describes.perform (h : o.Describes keyword b) (call : Call)
    (hclauses : ∀ clause, call = .implements clause → b.opened = false) :
    (o.after b call).Describes keyword (b.perform call) := by
  have hother : call.isDirective = false →
      Describes { o with members := o.members ++ (b.memberOf? call).toList } keyword
        (b.perform call) := by
    intro hcall
    cases hmember : b.memberOf? call with
    | none =>
      rw [Option.toList_none, List.append_nil]
      exact h.of_after (perform_of_memberOf?_eq_none hmember hcall)
    | some child =>
      obtain ⟨b', hafter, hperform, -⟩ := perform_of_memberOf? hmember
      rw [hperform]
      exact (h.of_after hafter).member (ne_typeParameters_of_memberOf? hmember)
  cases call with
  | modifiers m => exact h.modifiers m
  | typeParameters text => exact h.typeParameters text
  | implements clause => exact h.implements (hclauses clause rfl) clause
  | overrides method superMethod => exact h.overrides method superMethod
  | _ => exact hother rfl

/-- So does a run of calls, as long as no clause comes after a member. -/
theorem Describes.performAll (h : o.Describes keyword b) {calls : List Call}
    (hclauses : b.ClausesFirst calls) :
    (o.afterAll b calls).Describes keyword (b.performAll calls) := by
  induction calls generalizing o b with
  | nil => exact h
  | cons call rest ih =>
    obtain ⟨hcall, hrest⟩ := clausesFirst_cons.mp hclauses
    exact ih (h.perform call hcall) hrest

/-- Children that begin like those of a declaration under construction, whatever comes then. -/
def HasFront (keyword : Keyword) (children : List Child) : Prop :=
  ∃ o rest, children = front o keyword ++ rest

theorem HasFront.append {children : List Child} (h : HasFront keyword children)
    (more : List Child) : HasFront keyword (children ++ more) := by
  obtain ⟨o, rest, rfl⟩ := h
  exact ⟨o, rest ++ more, List.append_assoc ..⟩

theorem HasFront.openBrace (h : HasFront keyword b.declaration.children) :
    HasFront keyword b.openBrace.declaration.children := by
  unfold DeclarationBuilder.openBrace
  split
  · exact h
  · exact h.append _

/-- No call can spoil the front, wherever it comes in a run. -/
theorem HasFront.perform (h : HasFront keyword b.declaration.children) (call : Call) :
    HasFront keyword (b.perform call).declaration.children := by
  have hother : call.isDirective = false →
      HasFront keyword (b.perform call).declaration.children := by
    intro hcall
    cases hmember : b.memberOf? call with
    | none =>
      rw [(perform_of_memberOf?_eq_none hmember hcall).declaration]
      exact h
    | some child =>
      obtain ⟨b', hafter, hperform, -⟩ := perform_of_memberOf? hmember
      have hbefore : HasFront keyword b'.declaration.children := hafter.declaration ▸ h
      rw [hperform]
      exact hbefore.openBrace.append _
  obtain ⟨o, rest, hchildren⟩ := h
  cases call with
  | modifiers m => exact ⟨_, rest, children_modifiers hchildren m⟩
  | typeParameters text =>
    obtain ⟨rest', hretold, -⟩ := exists_children_typeParameters hchildren text
    exact ⟨_, rest', hretold⟩
  | implements clause => exact HasFront.append ⟨o, rest, hchildren⟩ _
  | overrides method superMethod =>
    refine ⟨o, addSuperMethod method superMethod rest, ?_⟩
    simp only [DeclarationBuilder.perform, DeclarationBuilder.overrides, mapChildren, hchildren]
    exact addSuperMethod_append (fun _ => method?_of_mem_front) method superMethod rest
  | _ => exact hother rfl

theorem HasFront.performAll (h : HasFront keyword b.declaration.children) (calls : List Call) :
    HasFront keyword (b.performAll calls).declaration.children := by
  induction calls generalizing b with
  | nil => exact h
  | cons call rest ih => exact ih (h.perform call)

section Numbering

private theorem numberChildren_append {before : List Child}
    (hbefore : ∀ child ∈ before, child.references = []) (last : Nat) (rest : List Child) :
    (Declaration.numberChildren last (before ++ rest)).1 =
      before ++ (Declaration.numberChildren last rest).1 := by
  induction before generalizing last with
  | nil => rfl
  | cons child before ih =>
    obtain ⟨hchild, hothers⟩ := List.forall_mem_cons.mp hbefore
    have hstays : child.number last = (child, last) :=
      Child.number_of_assigned (hchild ▸ nofun)
    simp only [List.cons_append, Declaration.numberChildren, hstays, ih hothers]

private theorem exists_numbered_lines (last : Nat) (members : List Child) :
    ∃ numbered, List.Forall₂ Child.IsNumbered numbered members ∧
      (Declaration.numberChildren last (members.flatMap line ++ [verbatim "\n\x7d"])).1 =
        numbered.flatMap line ++ [verbatim "\n\x7d"] := by
  induction members generalizing last with
  | nil => exact ⟨[], .nil, rfl⟩
  | cons m rest ih =>
    obtain ⟨numbered, hnumbered, hchildren⟩ := ih (m.number last).2
    refine ⟨(m.number last).1 :: numbered, .cons ⟨last, rfl⟩ hnumbered, ?_⟩
    have hline := congrArg (fun children => space "\n    " :: (m.number last).1 :: children) hchildren
    exact hline

private theorem references_of_mem_front {child : Child} (h : child ∈ o.front keyword) :
    child.references = [] := by
  revert h child
  simp only [front]
  cases o.modifiers? <;> simp [space, Child.references, Child.code?]

/-- The front is the same in the declaration that the builder hands over. -/
theorem HasFront.handedOver (h : HasFront keyword b.declaration.children) :
    HasFront keyword b.handedOver.children := by
  obtain ⟨o, rest, hclosed⟩ : HasFront keyword b.closed.children := h.openBrace.append _
  refine ⟨o, (Declaration.numberChildren b.project.lastReference rest).1, ?_⟩
  rw [← numberChildren_append (fun _ => references_of_mem_front), ← hclosed]
  rfl

/-- The declaration that a builder hands over has the outline, and its members are numbered. -/
theorem Describes.children_handedOver (h : o.Describes keyword b) :
    ∃ members, List.Forall₂ Child.IsNumbered members o.members ∧
      b.handedOver.children = children { o with members } keyword [] := by
  have hclosed : b.closed.children =
      (o.front keyword ++ o.clauses.map clauseChild ++ [verbatim " \x7b"]) ++
        (o.members.flatMap line ++ [verbatim "\n\x7d"]) := by
    simp [DeclarationBuilder.closed, mapChildren, h.openBrace.2, Outline.opened]
  have hbefore : ∀ child ∈ o.front keyword ++ o.clauses.map clauseChild ++ [verbatim " \x7b"],
      child.references = [] := by
    have hverbatim : ∀ s, (verbatim s).references = [] := fun _ => rfl
    refine List.forall_mem_append.mpr ⟨List.forall_mem_append.mpr ⟨?_, ?_⟩, ?_⟩
    · exact fun _ => references_of_mem_front
    · simp [clauseChild, hverbatim]
    · simp [hverbatim]
  obtain ⟨members, hmembers, hlines⟩ :=
    exists_numbered_lines b.project.lastReference o.members
  refine ⟨members, hmembers, ?_⟩
  rw [handedOver, Declaration.number]
  simp only [hclosed, numberChildren_append hbefore, hlines]
  simp [children, Outline.opened, front]

end Numbering

/-- Members show in the text with theirs only. -/
theorem text_congr (o : Outline) {members : List Child}
    (h : members.map Child.render = o.members.map Child.render) (keyword : Keyword)
    (header : String) : text { o with members } keyword header = o.text keyword header := by
  have hlines := congrArg (List.map ("\n    " ++ ·)) h
  rw [List.map_map, List.map_map] at hlines
  exact congrArg (fun lines => _ ++ String.join lines ++ "\n\x7d") hlines

/-- The children of a declaration have the text of the outline. -/
theorem join_render_children (o : Outline) (keyword : Keyword) (header : List Child) :
    String.join ((o.children keyword header).map Child.render) =
      o.text keyword (String.join (header.map Child.render)) := by
  have hfront : String.join ((o.front keyword).map Child.render) =
      o.modifiers?.elim "" Modifiers.render ++ keyword.render ++ " " ++ o.name ++
        o.typeParameters := by
    simp only [front]
    cases o.modifiers? <;> simp [space, Child.render, Trivia.render, String.append_assoc]
  have hverbatim : ∀ s, (verbatim s).render = s := by
    simp [verbatim, Child.render, Code.render, Code.ofText, Fragment.render]
  have hclauses : (o.clauses.map clauseChild).map Child.render =
      o.clauses.map (" implements " ++ ·) := by
    simp [clauseChild, hverbatim]
  have hlines : String.join ((o.members.flatMap line).map Child.render) =
      String.join (o.members.map ("\n    " ++ ·.render)) := by
    induction o.members with
    | nil => rfl
    | cons m rest ih =>
      simp [line, space, ih, Child.render, Trivia.render, String.append_assoc]
  simp [children, Outline.opened, text, hfront, hverbatim, hclauses, hlines, String.append_assoc]

end Outline

end ClassToRecord
