import ClassToRecord.Proofs.Record.Exact
import Mathlib.Data.List.Infix
import Mathlib.Data.List.TakeWhile

namespace ClassToRecord

namespace Text

def isLineBreak (c : Char) : Bool := c == '\n' || c == '\r'

/-- A text breaks the line before it shows anything, if it shows anything at all. -/
def StartsNewLine (s : String) : Prop :=
  (∀ c ∈ s.toList, isBlank c = true) ∨ ∃ c ∈ s.toList.takeWhile isBlank, isLineBreak c = true

instance (s : String) : Decidable (StartsNewLine s) :=
  decidable_of_iff (s.toList.all isBlank = true ∨ (s.toList.takeWhile isBlank).any isLineBreak = true)
    (or_congr List.all_eq_true List.any_eq_true)

theorem firstVisible?_eq_none_iff {s : String} :
    firstVisible? s = none ↔ ∀ c ∈ s.toList, isBlank c = true := by
  simp [firstVisible?]

/-- What stands behind the first thing that a text shows does not matter. -/
theorem startsNewLine_append_iff {s : String} (t : String) (hs : (firstVisible? s).isSome = true) :
    StartsNewLine (s ++ t) ↔ StartsNewLine s := by
  obtain ⟨c, hc, hvisible⟩ := List.find?_isSome.mp hs
  have hnot : ¬ ∀ c ∈ s.toList, isBlank c = true := by
    intro hall
    rw [hall c hc] at hvisible
    cases hvisible
  have hnotMore : ¬ ∀ c ∈ (s ++ t).toList, isBlank c = true := by
    intro hall
    exact hnot fun c hc => hall c (String.toList_append ▸ List.mem_append_left _ hc)
  have hstart : (s ++ t).toList.takeWhile isBlank = s.toList.takeWhile isBlank := by
    have hlength : (s.toList.takeWhile isBlank).length ≠ s.toList.length := by
      intro hlength
      apply hnot
      apply List.takeWhile_eq_self_iff.mp
      exact (List.takeWhile_prefix isBlank).eq_of_length hlength
    rw [String.toList_append, List.takeWhile_append, if_neg hlength]
  rw [StartsNewLine, StartsNewLine, or_iff_right hnotMore, or_iff_right hnot, hstart]

end Text

namespace Child

/-- A comment up to the end of the line. -/
def isLineComment : Child → Bool
  | .trivia (.comment text) => ['/', '/'].isPrefixOf text.toList
  | _ => false

/-- Whether a reader sees anything of a child. -/
def isVisible (child : Child) : Bool := (Text.firstVisible? child.render).isSome

end Child

/-- Every line comment ends with its line: what follows it starts a new one. -/
def Declaration.LineCommentsEnd (d : Declaration) : Prop :=
  ∀ comment rest, comment :: rest <:+ d.children → comment.isLineComment = true →
    Text.StartsNewLine (String.join (rest.map Child.render))

/-- A child that the rebuild leaves where it is and as it is. Whitespace may go with what follows it,
    and the header of the components is new. -/
structure Candidate.LeavesAlone (c : Candidate) (d : Declaration) (child : Child) : Prop where
  solid : child.isWhitespace = false
  old : child ≠ .header (c.componentsOf d)
  same : c.pieceOf d child = some child

namespace Child

/-- What can be seen of a text can be seen of a child that has it. -/
private theorem isVisible_of_mem {child : Child} (ch : Char) (hch : ch ∈ child.render.toList)
    (hvisible : Text.isBlank ch = false) : child.isVisible = true := by
  rw [isVisible, Text.firstVisible?, List.find?_isSome]
  exact ⟨ch, hch, by rw [hvisible]; rfl⟩

theorem isVisible_field (f : Field) : (Child.field f).isVisible = true := by
  apply isVisible_of_mem ';'
  · simp [render, Field.render]
  · rfl

theorem isVisible_method (m : Method) : (Child.method m).isVisible = true := by
  apply isVisible_of_mem '('
  · simp [render, Method.render]
  · rfl

theorem isVisible_header (components : List Parameter) :
    (Child.header components).isVisible = true := by
  apply isVisible_of_mem '('
  · simp [render]
  · rfl

theorem isWhitespace_of_isLineComment {child : Child} (h : child.isLineComment = true) :
    child.isWhitespace = false := by
  cases child with
  | trivia t =>
    cases t with
    | whitespace text => cases h
    | comment text => rfl
  | _ => rfl

/-- Where no child can be seen, the text is blank. -/
theorem startsNewLine_of_not_isVisible {children : List Child}
    (h : ∀ child ∈ children, child.isVisible = false) :
    Text.StartsNewLine (String.join (children.map render)) := by
  refine .inl fun ch hch => ?_
  rw [String.toList_join, List.mem_flatMap] at hch
  obtain ⟨text, htext, hch⟩ := hch
  obtain ⟨child, hchild, rfl⟩ := List.mem_map.mp htext
  have hnone : Text.firstVisible? child.render = none := Option.not_isSome_iff_eq_none.mp (by
    simpa [isVisible] using h child hchild)
  exact Text.firstVisible?_eq_none_iff.mp hnone ch hch

/-- Where one can be seen, it decides with what stands before it. -/
theorem startsNewLine_append_cons_iff {next : Child} (hnext : next.isVisible = true)
    (lead tail : List Child) :
    Text.StartsNewLine (String.join ((lead ++ next :: tail).map render)) ↔
      Text.StartsNewLine (String.join ((lead ++ [next]).map render)) := by
  have hvisible :
      (Text.firstVisible? (String.join ((lead ++ [next]).map render))).isSome = true := by
    obtain ⟨ch, hch, hshown⟩ := List.find?_isSome.mp hnext
    refine List.find?_isSome.mpr ⟨ch, ?_, hshown⟩
    simp [hch]
  rw [List.append_cons, List.map_append, String.join_append]
  exact Text.startsNewLine_append_iff _ hvisible

end Child

namespace Candidate

variable {c : Candidate} {d : Declaration}

/-- What cannot be seen stays. -/
theorem pieceOf_of_not_isVisible {child : Child} (h : child.isVisible = false) :
    c.pieceOf d child = some child := by
  cases child with
  | keyword k => cases k <;> first | rfl | cases h
  | field f =>
    rw [Child.isVisible_field] at h
    cases h
  | method m =>
    rw [Child.isVisible_method] at h
    cases h
  | _ => rfl

theorem map_pieceOf_of_not_isVisible {lead : List Child}
    (h : ∀ child ∈ lead, child.isVisible = false) : lead.map (c.pieceOf d) = lead.map some :=
  List.map_congr_left fun child hchild => pieceOf_of_not_isVisible (h child hchild)

/-- A line comment is the piece of itself only. -/
theorem pieceOf_eq_some_iff_of_isLineComment {child comment : Child}
    (hcomment : comment.isLineComment = true) :
    c.pieceOf d child = some comment ↔ child = comment := by
  constructor
  · intro h
    unfold pieceOf recordForm at h
    split at h
    · cases h
    · split at h
      · cases h
        cases hcomment
      · split at h <;> cases h <;> cases hcomment
      · exact Option.some.inj h
  · rintro rfl
    cases child with
    | trivia t => rfl
    | _ => cases hcomment

/-- What stands behind a line comment among the pieces comes from what stands behind it in the
    class. -/
theorem suffix_closeGaps_pieces_iff {comment : Child} (hcomment : comment.isLineComment = true)
    {tail placed : List Child} :
    comment :: tail <:+ closeGaps [] (placed.map (c.pieceOf d)) ↔
      ∃ rest, comment :: rest <:+ placed ∧ tail = closeGaps [] (rest.map (c.pieceOf d)) := by
  have hsolid : comment.isWhitespace = false := Child.isWhitespace_of_isLineComment hcomment
  rw [suffix_closeGaps_iff hsolid]
  constructor
  · rintro ⟨pieces, hpieces, rfl⟩
    obtain ⟨row, hrow, hmap⟩ := List.suffix_map_iff.mp hpieces
    obtain ⟨child, rest, rfl, hchild, rfl⟩ := List.map_eq_cons_iff.mp hmap.symm
    obtain rfl := (pieceOf_eq_some_iff_of_isLineComment hcomment).mp hchild
    exact ⟨rest, hrow, rfl⟩
  · rintro ⟨rest, hrest, rfl⟩
    have hkept : c.pieceOf d comment = some comment :=
      (pieceOf_eq_some_iff_of_isLineComment hcomment).mpr rfl
    refine ⟨rest.map (c.pieceOf d), ?_, rfl⟩
    rw [← hkept, ← List.map_cons]
    exact hrest.map _

/-- Up to a child that is left alone, nothing that cannot be seen changes. -/
theorem closeGaps_of_leavesAlone {lead tail : List Child} {next : Child}
    (hlead : ∀ child ∈ lead, child.isVisible = false) (hnext : c.LeavesAlone d next) :
    closeGaps [] ((lead ++ next :: tail).map (c.pieceOf d)) =
      lead ++ next :: closeGaps [] (tail.map (c.pieceOf d)) := by
  have hsplit := closeGaps_append_cons hnext.solid [] lead.reverse (tail.map (c.pieceOf d))
  rw [List.reverse_reverse] at hsplit
  rw [List.map_append, List.map_cons, map_pieceOf_of_not_isVisible hlead, hnext.same,
    closeGaps_append, closeGaps_map_some]
  exact hsplit

end Candidate

/-- What stands in a row without the new item stood in a row before, with other items behind it. -/
private theorem exists_suffix_of_not_mem {α : Type} {before after front tail : List α} {new : α}
    (hfront : new ∉ front) (h : front ++ tail <:+ before ++ new :: after) :
    ∃ tail', front ++ tail' <:+ before ++ after := by
  obtain ⟨start, hstart⟩ := h
  rw [← List.append_assoc] at hstart
  obtain ⟨more, rfl, -⟩ | ⟨more, hmore, hnew⟩ := List.append_eq_append_iff.mp hstart
  · exact ⟨more ++ after, start, by simp⟩
  · -- the row reaches past the place of the new item, which is then before it
    cases more with
    | nil => exact ⟨after, start, by rw [← List.append_assoc, hmore, List.append_nil]⟩
    | cons first more =>
      obtain ⟨rfl, rfl⟩ := List.cons.inj hnew
      obtain ⟨mid, -, rfl⟩ | ⟨mid, rfl, hmid⟩ := List.append_eq_append_iff.mp hmore
      · simp at hfront
      · obtain ⟨-, rfl⟩ | ⟨mid, rfl, rfl⟩ := List.cons_eq_append_iff.mp hmid
        · simp at hfront
        · exact ⟨tail, before ++ mid, by simp⟩

/-- Behind a comment, what is seen next is what was seen next in the class if it is left alone. -/
private theorem startsNewLine_of_leavesAlone {c : Candidate} {d : Declaration} {comment next : Child}
    {placed lead tail : List Child} (hends : d.LineCommentsEnd)
    (hplaced : Declaration.insertHeader (.header (c.componentsOf d)) d.children = some placed)
    (hsuffix : comment :: (lead ++ next :: tail) <:+ placed)
    (hcomment : comment.isLineComment = true) (hlead : ∀ child ∈ lead, child.isVisible = false)
    (hnext : next.isVisible = true) (halone : c.LeavesAlone d next) :
    Text.StartsNewLine (String.join
      ((closeGaps [] ((lead ++ next :: tail).map (c.pieceOf d))).map Child.render)) := by
  have hnew : Child.header (c.componentsOf d) ∉ comment :: (lead ++ [next]) := by
    intro hmem
    obtain rfl | hmem := List.mem_cons.mp hmem
    · cases hcomment
    · obtain hmem | hmem := List.mem_append.mp hmem
      · have hhidden := hlead _ hmem
        rw [Child.isVisible_header] at hhidden
        cases hhidden
      · exact halone.old (List.mem_singleton.mp hmem).symm
  obtain ⟨before, after, hchildren, rfl⟩ := Declaration.insertHeader_eq_append hplaced
  rw [List.append_cons, ← List.cons_append] at hsuffix
  obtain ⟨later, hlater⟩ := exists_suffix_of_not_mem hnew hsuffix
  rw [← hchildren, List.cons_append, ← List.append_cons] at hlater
  have hclass := hends comment (lead ++ next :: later) hlater hcomment
  rw [Candidate.closeGaps_of_leavesAlone hlead halone, Child.startsNewLine_append_cons_iff hnext]
  exact (Child.startsNewLine_append_cons_iff hnext lead later).mp hclass

namespace Project

variable {p : Project} {c : Candidate} {record : Declaration}

/-- In a class whose line comments end with their lines, the rebuild can only spoil a comment where
    it touches what is seen next behind it: the comments of the record end with their lines exactly
    if a line break is left behind each such comment. -/
theorem lineCommentsEnd_rebuildRecord_iff {d : Declaration} {placed : List Child}
    (hd : p.declaration? c.declaration = some d)
    (hplaced : Declaration.insertHeader (.header (c.componentsOf d)) d.children = some placed)
    (hends : d.LineCommentsEnd) (h : p.rebuildRecord c = .ok record) :
    record.LineCommentsEnd ↔
      ∀ comment rest, comment :: rest <:+ placed → comment.isLineComment = true →
        (∃ next, rest.find? Child.isVisible = some next ∧ ¬ c.LeavesAlone d next) →
          Text.StartsNewLine
            (String.join ((closeGaps [] (rest.map (c.pieceOf d))).map Child.render)) := by
  obtain ⟨_, _, hsame, -, hsamePlaced, rfl⟩ := rebuildRecord_eq_ok_pieces h
  obtain rfl := Option.some.inj (hd.symm.trans hsame)
  obtain rfl := Option.some.inj (hplaced.symm.trans hsamePlaced)
  constructor
  · intro hrecord comment rest hrest hcomment _
    exact hrecord comment _
      ((Candidate.suffix_closeGaps_pieces_iff hcomment).mpr ⟨rest, hrest, rfl⟩) hcomment
  · intro htouched comment tail htail hcomment
    obtain ⟨rest, hrest, rfl⟩ := (Candidate.suffix_closeGaps_pieces_iff hcomment).mp htail
    cases hfind : rest.find? Child.isVisible with
    | none =>
      have hhidden : ∀ child ∈ rest, child.isVisible = false := by
        simpa using List.find?_eq_none.mp hfind
      rw [Candidate.map_pieceOf_of_not_isVisible hhidden, closeGaps_map_some]
      exact Child.startsNewLine_of_not_isVisible hhidden
    | some next =>
      by_cases halone : c.LeavesAlone d next
      · obtain ⟨hnext, lead, tail, rfl, hhidden⟩ := List.find?_eq_some_iff_append.mp hfind
        have hlead : ∀ child ∈ lead, child.isVisible = false := by simpa using hhidden
        exact startsNewLine_of_leavesAlone hends hplaced hrest hcomment hlead hnext halone
      · exact htouched comment rest hrest hcomment ⟨next, hfind, halone⟩

end Project

namespace Pairs

/-- A private field. -/
def side (id : ElementId) (name : String) : Child :=
  .field { id, modifiers := ⟨.private, []⟩, type := "int", name }

def opening : List Child := [.keyword .class, .trivia (.whitespace " "), .identifier "Pair"]

def brace : List Child := [.code (.ofText " \x7b"), .trivia (.whitespace " ")]

def note : Child := .trivia (.comment "// both sides")

/-- What stands behind the comment, up to the closing brace. -/
def sides : List Child := [
  .trivia (.whitespace "\n    "), side ⟨2⟩ "left", .trivia (.whitespace " "), side ⟨3⟩ "right",
  .trivia (.whitespace " "), .code (.ofText "\x7d")]

/-- A class with two fields behind a line comment. -/
def pair : Declaration := ⟨⟨1⟩, "Pair.java", opening ++ (brace ++ note :: sides)⟩

/-- Both fields are key fields. -/
def candidate : Candidate := ⟨⟨1⟩, ⟨[(⟨2⟩, none), (⟨3⟩, none)], by decide⟩, none⟩

theorem lineCommentsEnd_pair : pair.LineCommentsEnd := by
  have hall : ∀ row ∈ pair.children.tails, ∀ comment ∈ row.head?, comment.isLineComment = true →
      Text.StartsNewLine (String.join (row.tail.map Child.render)) := by
    decide
  intro comment rest hsuffix hcomment
  exact hall (comment :: rest) ((List.mem_tails _ _).mpr hsuffix) comment rfl hcomment

/-- The only line break goes with the first field, and the comment takes the closing brace. -/
theorem not_lineCommentsEnd_rebuildRecord : pair.LineCommentsEnd ∧
    ∃ record, Project.rebuildRecord ⟨[pair], 3, 0⟩ candidate = .ok record ∧
      ¬ record.LineCommentsEnd := by
  have hplaced : Declaration.insertHeader (.header (candidate.componentsOf pair)) pair.children =
      some (opening ++ .header (candidate.componentsOf pair) :: (brace ++ note :: sides)) := rfl
  have hsuffix : note :: sides <:+
      opening ++ .header (candidate.componentsOf pair) :: (brace ++ note :: sides) :=
    ⟨opening ++ .header (candidate.componentsOf pair) :: brace, rfl⟩
  have htouched : ∃ next, sides.find? Child.isVisible = some next ∧
      ¬ candidate.LeavesAlone pair next := by
    refine ⟨side ⟨2⟩ "left", rfl, fun halone => ?_⟩
    cases halone.same
  have hrecord : ∃ record, Project.rebuildRecord ⟨[pair], 3, 0⟩ candidate = .ok record := ⟨_, rfl⟩
  obtain ⟨record, hrecord⟩ := hrecord
  refine ⟨lineCommentsEnd_pair, record, hrecord, fun hends => ?_⟩
  have hstarts := (Project.lineCommentsEnd_rebuildRecord_iff rfl hplaced lineCommentsEnd_pair
    hrecord).mp hends note sides hsuffix rfl htouched
  revert hstarts
  decide

end Pairs

end ClassToRecord
