import ClassToRecord.Proofs.Project.Outline
import ClassToRecord.Proofs.Record.Exact

open ClassToRecord.Traversal

namespace ClassToRecord

open DeclarationBuilder

namespace Candidate

variable {c : Candidate} {d : Declaration}

/-- Each member that goes takes the whitespace of its own line along. -/
theorem closeGaps_lines (written members : List Child) :
    closeGaps written ((members.flatMap Outline.line).map (c.pieceOf d)) =
      written.reverse ++ (members.filterMap (c.pieceOf d)).flatMap Outline.line := by
  induction members generalizing written with
  | nil => simp [closeGaps]
  | cons m rest ih =>
    have hspace : c.pieceOf d (space "\n    ") = some (space "\n    ") := rfl
    have hdrop : dropWhitespace (space "\n    " :: written) = written := rfl
    cases hpiece : c.pieceOf d m with
    | none => simp [Outline.line, hspace, hpiece, closeGaps, hdrop, ih]
    | some kept => simp [Outline.line, hspace, hpiece, closeGaps, ih]

/-- Of the pieces of a class with an outline and a header, only members can be gaps. -/
private theorem map_pieceOf_children (o : Outline) (components : List Parameter) :
    (o.children .class [.header components]).map (c.pieceOf d) =
      (o.front .record ++ .header components :: o.clauses.map Outline.clauseChild ++
          [verbatim " \x7b"]).map some ++
        ((o.members.flatMap Outline.line).map (c.pieceOf d) ++ [verbatim "\n\x7d"].map some) := by
  have hfront : (o.front .class).map (c.pieceOf d) = (o.front .record).map some := by
    simp only [Outline.front]
    cases o.modifiers? <;> rfl
  have hheader : c.pieceOf d (.header components) = some (.header components) := rfl
  have hverbatim : ∀ s, c.pieceOf d (verbatim s) = some (verbatim s) := fun _ => rfl
  have hclauses : (o.clauses.map Outline.clauseChild).map (c.pieceOf d) =
      (o.clauses.map Outline.clauseChild).map some := by
    simp [Outline.clauseChild, hverbatim]
  simp only [Outline.children, Outline.opened, List.map_append, List.map_cons, List.map_nil,
    hfront, hheader, hverbatim, hclauses]
  simp

end Candidate

namespace Outline

/-- The header goes behind the type parameters. -/
theorem insertHeader_front (o : Outline) (keyword : Keyword) (header : Child)
    (rest : List Child) : Declaration.insertHeader header (o.front keyword ++ rest) =
      some (o.front keyword ++ header :: rest) := by
  simp only [front]
  cases o.modifiers? <;> rfl

theorem insertHeader_children (o : Outline) (keyword : Keyword) (header : Child) :
    Declaration.insertHeader header (o.children keyword []) =
      some (o.children keyword [header]) := by
  have hplace := insertHeader_front o keyword header
    (o.clauses.map clauseChild ++ verbatim " \x7b" :: o.members.flatMap line ++ [verbatim "\n\x7d"])
  simpa [children, opened] using hplace

/-- The outline of the record for a class with an outline: the members that go are left out, and the
    others take their new form. -/
def inRecord (o : Outline) (c : Candidate) (d : Declaration) : Outline :=
  { o with members := o.members.filterMap (c.pieceOf d) }

theorem children_rebuildRecord {o : Outline} {p : Project} {c : Candidate} {d record : Declaration}
    (hd : p.declaration? c.declaration = some d) (hchildren : d.children = o.children .class [])
    (h : p.rebuildRecord c = .ok record) :
    record.children = (o.inRecord c d).children .record [.header (c.componentsOf d)] := by
  obtain ⟨_, placed, hsame, -, hplaced, rfl⟩ := Project.rebuildRecord_eq_ok_pieces h
  obtain rfl := Option.some.inj (hd.symm.trans hsame)
  rw [hchildren, insertHeader_children] at hplaced
  cases hplaced
  simp only [Candidate.map_pieceOf_children, closeGaps_append, closeGaps_map_some,
    Candidate.closeGaps_lines, List.reverse_reverse, List.reverse_nil]
  simp [inRecord, children, opened, front]

end Outline

/-- The name under which a parameter is followed does not depend on the id of the reference. -/
private theorem Method.name_followParameter (parameters : List Parameter) (r : Reference)
    (id : RefId) :
    (followParameter parameters { r with id }).name = (followParameter parameters r).name := by
  simp only [followParameter]
  cases parameters.find? (·.id = r.target) <;> rfl

/-- The numbers of its references show neither in what becomes of a member nor in its text. -/
theorem Candidate.map_render_pieceOf_number (c : Candidate) (d : Declaration) (last : Nat)
    (child : Child) :
    (c.pieceOf d (child.number last).1).map Child.render =
      (c.pieceOf d child).map Child.render := by
  have helides : c.elides (child.number last).1 = c.elides child :=
    Child.read_number (fun _ _ => rfl) (fun _ _ => rfl) (fun _ _ => rfl) last child
  have hform : (c.recordForm d (child.number last).1).render = (c.recordForm d child).render := by
    cases child with
    | method m =>
      simp only [Child.number, recordForm]
      split
      · have hbody := Code.render_mapReferences_number
          (Method.name_followParameter (m.recordParameters (c.componentsOf d))) last m.body
        exact congrArg (_ ++ ·) hbody
      · exact Child.render_number last (.method m)
    | field f =>
      have hsame : c.recordForm d ((Child.field f).number last).1 =
          ((Child.field f).number last).1 := by
        rw [Child.number]
        split <;> rfl
      rw [hsame]
      exact Child.render_number last (.field f)
    | code code => exact Child.render_number last (.code code)
    | _ => rfl
  rw [pieceOf, pieceOf, helides]
  split
  · rfl
  · exact congrArg some hform

namespace Project

/-- A class that a builder has made has the text of its outline, and so has the record: the header
    comes in, key fields and bound accessors are gone with their lines, and all other members stay in
    order, the constructor in its new form. -/
theorem render_rebuildRecord {p q : Project} {c : Candidate} {d record : Declaration}
    {file name : String} {calls : List Call}
    (hclauses : (start p .class file name).ClausesFirst calls)
    (hmade : d = ((start p .class file name).performAll calls).handedOver)
    (hd : q.declaration? c.declaration = some d) (h : q.rebuildRecord c = .ok record) :
    d.render = (Outline.ofCalls p .class file name calls).text .class "" ∧
      record.render = ((Outline.ofCalls p .class file name calls).inRecord c d).text .record
        ("(" ++ Parameter.renderList (c.componentsOf d) ++ ")") := by
  obtain ⟨members, hmembers, hchildren⟩ :=
    ((Outline.describes_start p .class file name).performAll hclauses).children_handedOver
  rw [← hmade] at hchildren
  have hclassText : members.map Child.render =
      (Outline.ofCalls p .class file name calls).members.map Child.render :=
    Child.map_eq_of_isNumbered Child.render Child.render_number hmembers
  have hrecordText : (members.filterMap (c.pieceOf d)).map Child.render =
      ((Outline.ofCalls p .class file name calls).inRecord c d).members.map Child.render := by
    have hpieces := congrArg (List.filterMap id)
      (Child.map_eq_of_isNumbered (fun child => (c.pieceOf d child).map Child.render)
        (c.map_render_pieceOf_number d) hmembers)
    rw [List.filterMap_map, List.filterMap_map] at hpieces
    rw [Outline.inRecord, List.map_filterMap, List.map_filterMap]
    exact hpieces
  constructor
  · rw [Declaration.render, hchildren, Outline.join_render_children]
    exact Outline.text_congr _ hclassText .class ""
  · rw [Declaration.render, Outline.children_rebuildRecord hd hchildren h,
      Outline.join_render_children]
    have hheader : String.join ([Child.header (c.componentsOf d)].map Child.render) =
        "(" ++ Parameter.renderList (c.componentsOf d) ++ ")" := by
      simp [Child.render]
    rw [hheader]
    exact Outline.text_congr _ hrecordText .record _

end Project

namespace Couples

/-- Behind a comment and a static field come two fields in a row. -/
def fields : List Call := [
  .modifiers ⟨.package, ["final"]⟩, .typeParameters "<A>", .implements "Comparable<Couple<A>>",
  .comment "// cached",
  .field ⟨.private, ["static"]⟩ "int" "SEED" (some (Code.ofText "7")),
  .field ⟨.private, []⟩ "A" "left" none, .field ⟨.private, []⟩ "A" "right" none]

/-- An accessor comes last, and before it the constructor. -/
def calls : List Call :=
  fields ++ [.canonicalConstructor ⟨.package, []⟩ [⟨3⟩, ⟨4⟩],
    .accessor ⟨.public, []⟩ "getLeft" ⟨3⟩]

def builder : DeclarationBuilder := (start {} .class "Couple.java" "Couple").performAll calls

/-- The left side is read by its accessor. -/
def candidate : Candidate where
  declaration := ⟨1⟩
  fields := ⟨[(⟨3⟩, some ⟨⟨8⟩, ⟨3⟩, false⟩), (⟨4⟩, none)], by decide⟩
  constructor? := some ⟨7⟩

theorem clausesFirst_calls : (start {} .class "Couple.java" "Couple").ClausesFirst calls := by
  simp only [calls, fields, List.cons_append, List.nil_append, clausesFirst_cons]
  refine ⟨nofun, nofun, fun _ _ => rfl, nofun, nofun, nofun, nofun, nofun, nofun,
    clausesFirst_nil _⟩

/-- The accessor and both fields leave no empty line behind. -/
theorem render_rebuildRecord_couple :
    ∃ record, builder.finish.rebuildRecord candidate = .ok record ∧
      record.render = "final record Couple<A>(A left, A right) implements Comparable<Couple<A>> \x7b
    // cached
    private static int SEED = 7;
    Couple(A left, A right) \x7b
        this.left = left;
        this.right = right;
    \x7d
\x7d" := by
  have hrecord : ∃ record, builder.finish.rebuildRecord candidate = .ok record := ⟨_, rfl⟩
  obtain ⟨record, hrecord⟩ := hrecord
  obtain ⟨-, hrender⟩ := Project.render_rebuildRecord clausesFirst_calls rfl rfl hrecord
  exact ⟨record, hrecord, hrender.trans (by decide +kernel)⟩

end Couples

end ClassToRecord
