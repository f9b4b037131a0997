import ClassToRecord.Syntax.Code
import Mathlib.Data.List.Infix

namespace ClassToRecord

namespace Text

theorem firstVisible?_append (s t : String) :
    firstVisible? (s ++ t) = (firstVisible? s).or (firstVisible? t) := by
  simp [firstVisible?]

theorem lastVisible?_append (s t : String) :
    lastVisible? (s ++ t) = (lastVisible? t).or (lastVisible? s) := by
  simp [lastVisible?]

/-- The texts as one, if there is anything in them. -/
def joined (texts : List String) : List String :=
  if String.join texts = "" then [] else [String.join texts]

/-- Whether the last of some texts ends in a dot. -/
def endInDot (texts : List String) : Bool :=
  texts.getLast?.any fun s => (Fragment.text s).endsInDot

theorem endInDot_joined (texts : List String) :
    endInDot (joined texts) = (lastVisible? (String.join texts) == some '.') := by
  unfold joined
  split
  · next hempty => simp [hempty, endInDot, lastVisible?]
  · rfl

/-- Where texts end in a dot together, their last one shows it. -/
def DotAdjoins (texts : List String) : Prop :=
  lastVisible? (String.join texts) = some '.' →
    ∃ last, texts.getLast? = some last ∧ lastVisible? last ≠ none

theorem endInDot_joined_eq_iff {texts : List String} :
    endInDot (joined texts) = endInDot texts ↔ DotAdjoins texts := by
  rw [endInDot_joined]
  cases texts using List.reverseRecOn with
  | nil => simp [DotAdjoins, endInDot, lastVisible?]
  | append_singleton texts last =>
    cases hlast : lastVisible? last with
    | some c => simp [DotAdjoins, endInDot, Fragment.endsInDot, lastVisible?_append, hlast]
    | none => simp [DotAdjoins, endInDot, Fragment.endsInDot, lastVisible?_append, hlast]

end Text

/-- Puts a fragment in front of others. A text becomes one with the text that it meets, and an
    empty text is left out. -/
def Fragment.mergeInto : Fragment → List Fragment → List Fragment
  | .text s, .text t :: rest => .text (s ++ t) :: rest
  | .text s, rest => if s = "" then rest else .text s :: rest
  | .ref r, rest => .ref r :: rest

/-- A reference and the texts behind it. -/
structure Stretch where
  reference : Reference
  texts : List String

/-- The stretch in as few texts as possible. -/
def Stretch.joined (s : Stretch) : Stretch := { s with texts := Text.joined s.texts }

namespace Code

/-- The same code in as few texts as possible. -/
def merged (c : Code) : Code := ⟨c.fragments.foldr Fragment.mergeInto []⟩

/-- No text is empty, and no two texts lie side by side. -/
structure IsMerged (c : Code) : Prop where
  nonempty : .text "" ∉ c.fragments
  apart : ∀ s t, ¬ [.text s, .text t] <:+: c.fragments

private theorem IsMerged.mergeInto {fragments : List Fragment} (h : IsMerged ⟨fragments⟩)
    (fragment : Fragment) : IsMerged ⟨fragment.mergeInto fragments⟩ := by
  obtain ⟨hnonempty, hapart⟩ := h
  cases fragment with
  | ref r =>
    constructor
    · simpa [Fragment.mergeInto] using hnonempty
    · simpa [Fragment.mergeInto, List.infix_cons_iff] using hapart
  | text s =>
    match fragments with
    | [] =>
      by_cases hs : s = ""
      · exact ⟨by simp [Fragment.mergeInto, hs], by simp [Fragment.mergeInto, hs]⟩
      · exact ⟨by simp [Fragment.mergeInto, hs, eq_comm],
          by simp [Fragment.mergeInto, hs, List.infix_cons_iff]⟩
    | .ref r :: rest =>
      by_cases hs : s = ""
      · simpa only [Fragment.mergeInto, hs, if_true] using ⟨hnonempty, hapart⟩
      · constructor
        · simpa [Fragment.mergeInto, hs, Ne.symm hs] using hnonempty
        · simpa [Fragment.mergeInto, hs, List.infix_cons_iff] using hapart
    | .text t :: rest =>
      constructor
      · simp_all [Fragment.mergeInto]
      · simp_all [Fragment.mergeInto, List.infix_cons_iff]

theorem isMerged_merged (c : Code) : c.merged.IsMerged := by
  unfold merged
  induction c.fragments with
  | nil => exact ⟨List.not_mem_nil, fun s t h => by simp at h⟩
  | cons fragment rest ih => exact ih.mergeInto fragment

/-- The texts in front of the first reference. -/
def leadOf : List Fragment → List String
  | .text s :: rest => s :: leadOf rest
  | _ => []

/-- The references, each with the texts up to the next one. -/
def stretchesOf : List Fragment → List Stretch
  | [] => []
  | .text _ :: rest => stretchesOf rest
  | .ref r :: rest => ⟨r, leadOf rest⟩ :: stretchesOf rest

def stretches (c : Code) : List Stretch := stretchesOf c.fragments

/-- The texts in front of each reference, and those behind the last one. -/
def runs (c : Code) : List (List String) := leadOf c.fragments :: c.stretches.map Stretch.texts

theorem map_reference_stretches (c : Code) :
    c.stretches.map Stretch.reference = c.references := by
  unfold stretches references
  induction c.fragments with
  | nil => rfl
  | cons fragment rest ih =>
    cases fragment with
    | text s => exact ih
    | ref r => exact congrArg (r :: ·) ih

theorem render_eq (c : Code) :
    c.render = String.join (leadOf c.fragments) ++
      String.join (c.stretches.map fun s => s.reference.name ++ String.join s.texts) := by
  unfold stretches render
  induction c.fragments with
  | nil => rfl
  | cons fragment rest ih =>
    cases fragment with
    | text s => simp [ih, Fragment.render, leadOf, stretchesOf, String.append_assoc]
    | ref r => simp [ih, Fragment.render, leadOf, stretchesOf, String.append_assoc]

/-- A text that is put in front of merged code becomes part of its first run. -/
private theorem leadOf_mergeInto {s : String} {texts : List String} {fragments : List Fragment}
    (h : leadOf fragments = Text.joined texts) :
    leadOf ((Fragment.text s).mergeInto fragments) = Text.joined (s :: texts) := by
  match fragments with
  | [] | .ref r :: rest =>
    have htexts : String.join texts = "" := by simpa [leadOf, Text.joined] using h
    by_cases hs : s = "" <;> simp [Fragment.mergeInto, leadOf, Text.joined, htexts, hs]
  | .text t :: rest =>
    by_cases htexts : String.join texts = ""
    · simp [leadOf, Text.joined, htexts] at h
    · obtain ⟨rfl, hrest⟩ : t = String.join texts ∧ leadOf rest = [] := by
        simpa [leadOf, Text.joined, htexts] using h
      simp [Fragment.mergeInto, leadOf, Text.joined, htexts, hrest]

private theorem stretchesOf_mergeInto (s : String) (fragments : List Fragment) :
    stretchesOf ((Fragment.text s).mergeInto fragments) = stretchesOf fragments := by
  match fragments with
  | [] | .ref r :: rest => by_cases hs : s = "" <;> simp [Fragment.mergeInto, stretchesOf, hs]
  | .text t :: rest => rfl

private theorem leadOf_foldr_mergeInto (fragments : List Fragment) :
    leadOf (fragments.foldr Fragment.mergeInto []) = Text.joined (leadOf fragments) := by
  induction fragments with
  | nil => rfl
  | cons fragment rest ih =>
    cases fragment with
    | text s => exact leadOf_mergeInto ih
    | ref r => rfl

/-- Merging keeps the references and joins the texts behind each of them. -/
theorem stretches_merged (c : Code) : c.merged.stretches = c.stretches.map Stretch.joined := by
  unfold merged stretches
  induction c.fragments with
  | nil => rfl
  | cons fragment rest ih =>
    cases fragment with
    | text s => exact (stretchesOf_mergeInto s _).trans ih
    | ref r =>
      have htexts : leadOf (rest.foldr Fragment.mergeInto []) = Text.joined (leadOf rest) :=
        leadOf_foldr_mergeInto rest
      simp [Fragment.mergeInto, stretchesOf, Stretch.joined, htexts, ih]

theorem runs_merged (c : Code) : c.merged.runs = c.runs.map Text.joined := by
  unfold runs
  rw [stretches_merged, List.map_cons, List.map_map, List.map_map]
  exact congrArg (· :: _) (leadOf_foldr_mergeInto c.fragments)

theorem references_merged (c : Code) : c.merged.references = c.references := by
  rw [← map_reference_stretches, ← map_reference_stretches, stretches_merged, List.map_map]
  rfl

theorem join_joined (texts : List String) :
    String.join (Text.joined texts) = String.join texts := by
  unfold Text.joined
  split
  · next hempty => simp [hempty]
  · simp

theorem render_merged (c : Code) : c.merged.render = c.render := by
  have hlead : leadOf c.merged.fragments = Text.joined (leadOf c.fragments) :=
    leadOf_foldr_mergeInto c.fragments
  simp [render_eq, stretches_merged, hlead, join_joined, Function.comp_def, Stretch.joined]

/-- A reference counts as qualified if the last text in front of it ends in a dot. -/
theorem qualifiedReferences_eq (c : Code) :
    c.qualifiedReferences = c.references.zip (c.runs.map Text.endInDot) := by
  -- the texts of the run that has begun go along, and the flag tells how the last of them ends
  have hfrom : ∀ fragments texts,
      qualifiedFrom (Text.endInDot texts) fragments =
        ((stretchesOf fragments).map Stretch.reference).zip
          (((texts ++ leadOf fragments) :: (stretchesOf fragments).map Stretch.texts).map
            Text.endInDot) := by
    intro fragments
    induction fragments with
    | nil => exact fun _ => rfl
    | cons fragment rest ih =>
      intro texts
      cases fragment with
      | text s =>
        have hdot : (Fragment.text s).endsInDot = Text.endInDot (texts ++ [s]) := by
          simp [Text.endInDot]
        rw [qualifiedFrom, hdot, ih, List.append_assoc]
        rfl
      | ref r =>
        have hrest := ih []
        simp only [List.nil_append] at hrest
        rw [qualifiedFrom, show false = Text.endInDot [] from rfl, hrest]
        simp [stretchesOf, leadOf]
  rw [← map_reference_stretches]
  exact hfrom c.fragments []

/-- No text of blanks alone comes between a dot and the reference behind it. -/
def DotsAdjoin (c : Code) : Prop := ∀ pair ∈ c.references.zip c.runs, Text.DotAdjoins pair.2

/-- Merging qualifies the references with a dot further in front of them. -/
theorem qualifiedReferences_merged_eq_iff (c : Code) :
    c.merged.qualifiedReferences = c.qualifiedReferences ↔ c.DotsAdjoin := by
  rw [qualifiedReferences_eq, qualifiedReferences_eq, references_merged, runs_merged, List.map_map,
    List.zip_map_right, List.zip_map_right, List.map_inj_left]
  refine forall₂_congr fun pair _ => ?_
  rw [Prod.map, Prod.map, Prod.mk.injEq, and_iff_right rfl]
  exact Text.endInDot_joined_eq_iff

end Code

namespace Stretch

/-- The assignment of one reference to another, if a single text makes it and the next one ends
    it. -/
def assignment? (lhs rhs : Stretch) : Option (ElementId × ElementId) :=
  match lhs.texts, rhs.texts with
  | [op], stop :: _ =>
    if Text.trimmed op = ['='] ∧ Text.firstVisible? stop = some ';' then
      some (lhs.reference.target, rhs.reference.target)
    else none
  | _, _ => none

/-- The assignment of one reference to another, as a reader sees it. -/
def spelledAssignment? (lhs rhs : Stretch) : Option (ElementId × ElementId) :=
  if Text.trimmed (String.join lhs.texts) = ['='] ∧
      Text.firstVisible? (String.join rhs.texts) = some ';' then
    some (lhs.reference.target, rhs.reference.target)
  else none

theorem assignment?_joined (lhs rhs : Stretch) :
    lhs.joined.assignment? rhs.joined = lhs.spelledAssignment? rhs := by
  by_cases hlhs : String.join lhs.texts = ""
  · have htrimmed : Text.trimmed "" = [] := rfl
    simp [assignment?, spelledAssignment?, joined, Text.joined, hlhs, htrimmed]
  · by_cases hrhs : String.join rhs.texts = ""
    · have hvisible : Text.firstVisible? "" = none := rfl
      simp [assignment?, spelledAssignment?, joined, Text.joined, hlhs, hrhs, hvisible]
    · simp [assignment?, spelledAssignment?, joined, Text.joined, hlhs, hrhs]

/-- What is found in the texts one by one is also there when they are read together. -/
theorem spelledAssignment?_eq_some {lhs rhs : Stretch} {assignment : ElementId × ElementId}
    (h : lhs.assignment? rhs = some assignment) : lhs.spelledAssignment? rhs = some assignment := by
  unfold assignment? at h
  split at h
  · next op stop rest hop hstop =>
    split at h
    · next hfound =>
      have hvisible : Text.firstVisible? (String.join rhs.texts) = some ';' := by
        rw [hstop, String.join_cons, Text.firstVisible?_append, hfound.2, Option.some_or]
      have htrimmed : Text.trimmed (String.join lhs.texts) = ['='] := by
        rw [hop, String.join_cons, String.join_nil, String.append_empty, hfound.1]
      rw [spelledAssignment?, if_pos ⟨htrimmed, hvisible⟩]
      exact h
    · cases h
  · cases h

end Stretch

namespace Code

/-- The assignments that a reader sees, in order. -/
def spelledAssignments (c : Code) : List (ElementId × ElementId) :=
  (c.stretches.zip c.stretches.tail).filterMap fun pair => pair.1.spelledAssignment? pair.2

private theorem go_ref (lhs : Reference) (rest : List Fragment) :
    assignments.go (.ref lhs :: rest) =
      ((stretchesOf rest).head?.bind (Stretch.assignment? ⟨lhs, leadOf rest⟩)).toList ++
        assignments.go rest := by
  -- the scan asks for four fragments at once, so the cases are those in which one of them is missing
  match rest with
  | [] | .ref _ :: _ | [.text _] | [.text _, .ref _] | .text _ :: .ref _ :: .ref _ :: _ =>
    simp [assignments.go, stretchesOf, leadOf, Stretch.assignment?]
  | .text op :: .text more :: after =>
    have hnone : ∀ rhs, Stretch.assignment? ⟨lhs, op :: more :: leadOf after⟩ rhs = none :=
      fun _ => rfl
    simp [assignments.go, leadOf, hnone]
  | .text op :: .ref rhs :: .text stop :: after =>
    rw [assignments.go]
    split <;> simp_all [stretchesOf, leadOf, Stretch.assignment?]

/-- The scan for assignments looks at each reference and the one that comes next. -/
theorem assignments_eq (c : Code) :
    c.assignments =
      (c.stretches.zip c.stretches.tail).filterMap fun pair => pair.1.assignment? pair.2 := by
  unfold assignments stretches
  induction c.fragments with
  | nil => rfl
  | cons fragment rest ih =>
    cases fragment with
    | text s => simpa [assignments.go, stretchesOf] using ih
    | ref lhs =>
      rw [go_ref, ih, stretchesOf]
      cases stretchesOf rest with
      | nil => rfl
      | cons rhs more =>
        cases hassignment : Stretch.assignment? ⟨lhs, leadOf rest⟩ rhs <;> simp [hassignment]

/-- The scan finds nothing that a reader does not see. -/
theorem assignments_sublist_spelledAssignments (c : Code) :
    c.assignments.Sublist c.spelledAssignments := by
  rw [assignments_eq, spelledAssignments]
  induction c.stretches.zip c.stretches.tail with
  | nil => exact .slnil
  | cons pair rest ih =>
    cases hfound : pair.1.assignment? pair.2 with
    | some assignment =>
      have hspelled := Stretch.spelledAssignment?_eq_some hfound
      simpa [hfound, hspelled] using ih
    | none =>
      cases hspelled : pair.1.spelledAssignment? pair.2 with
      | none => simpa [hfound, hspelled] using ih
      | some assignment => simpa [hfound, hspelled] using ih.cons assignment

/-- In merged code it finds all that a reader sees. -/
theorem assignments_merged (c : Code) : c.merged.assignments = c.spelledAssignments := by
  simp [assignments_eq, spelledAssignments, stretches_merged, ← List.map_tail, List.zip_map,
    List.filterMap_map, Stretch.assignment?_joined]

end Code

end ClassToRecord
