import ClassToRecord.Proofs.Project.Lookup
import Mathlib.Data.List.Perm.Basic

namespace ClassToRecord

section Induction

variable {R : Nat → List Reference → List Reference → Nat → Prop}
  (hnil : ∀ last, R last [] [] last)
  (hkept : ∀ last r, r.id.isAssigned = true → R last [r] [r] last)
  (hgiven : ∀ last r, r.id.isAssigned = false →
    R last [r] [{ r with id := ⟨last + 1⟩ }] (last + 1))
  (happend : ∀ last mid last' old new more rest, R last old new mid → R mid more rest last' →
    R last (old ++ more) (new ++ rest) last')

include hnil hkept hgiven happend

private theorem numberFragments_induction (last : Nat) (fragments : List Fragment) :
    R last (fragments.filterMap Fragment.reference?)
      ((Code.numberFragments last fragments).1.filterMap Fragment.reference?)
      (Code.numberFragments last fragments).2 := by
  induction fragments generalizing last with
  | nil => exact hnil last
  | cons fragment rest ih =>
    cases fragment with
    | text s => exact ih last
    | ref r =>
      cases hassigned : r.id.isAssigned with
      | true =>
        have hrest := happend _ _ _ _ _ _ _ (hkept last r hassigned) (ih last)
        simpa [Code.numberFragments, Fragment.number, Fragment.reference?, hassigned] using hrest
      | false =>
        have hrest := happend _ _ _ _ _ _ _ (hgiven last r hassigned) (ih (last + 1))
        simpa [Code.numberFragments, Fragment.number, Fragment.reference?, hassigned] using hrest

private theorem numberChild_induction (last : Nat) (child : Child) :
    R last child.references (child.number last).1.references (child.number last).2 := by
  have hcode := numberFragments_induction hnil hkept hgiven happend last
  cases child with
  | field f =>
    cases hvalue : f.initializer? with
    | none =>
      simp only [Child.number, hvalue, Child.references, Child.code?, Option.elim_none]
      exact hnil last
    | some value =>
      simp only [Child.number, hvalue, Child.references, Child.code?, Option.elim_some]
      exact hcode value.fragments
  | method m => exact hcode m.body.fragments
  | code c => exact hcode c.fragments
  | _ => exact hnil last

private theorem numberChildren_induction (last : Nat) (children : List Child) :
    R last (children.flatMap Child.references)
      ((Declaration.numberChildren last children).1.flatMap Child.references)
      (Declaration.numberChildren last children).2 := by
  induction children generalizing last with
  | nil => exact hnil last
  | cons child rest ih =>
    have hchild := numberChild_induction hnil hkept hgiven happend last child
    rw [List.flatMap_cons]
    exact happend _ _ _ _ _ _ _ hchild (ih (child.number last).2)

/-- A relation between references before and after a numbering, with the last ids given out before
    and after it, holds of a whole declaration if it can be put together from single references. -/
theorem Declaration.number_induction (last : Nat) (d : Declaration) :
    R last d.references (d.number last).1.references (d.number last).2 :=
  numberChildren_induction hnil hkept hgiven happend last d.children

end Induction

/-- The ids that some references have already. -/
def assignedIds (refs : List Reference) : List RefId :=
  (refs.map Reference.id).filter RefId.isAssigned

/-- How many references wait for an id. -/
def waiting (refs : List Reference) : Nat := refs.countP fun r => !r.id.isAssigned

/-- The ids that come after the last one. -/
def nextIds (last count : Nat) : List RefId := (List.range' (last + 1) count).map RefId.mk

theorem nextIds_add (last m n : Nat) :
    nextIds last (m + n) = nextIds last m ++ nextIds (last + m) n := by
  rw [nextIds, nextIds, nextIds, ← List.map_append, Nat.add_right_comm, List.range'_append_1]

theorem mem_nextIds {last count : Nat} {id : RefId} :
    id ∈ nextIds last count ↔ last < id.index ∧ id.index ≤ last + count := by
  simp only [nextIds, List.mem_map, List.mem_range'_1]
  constructor
  · rintro ⟨n, hn, rfl⟩
    simp only
    omega
  · intro h
    exact ⟨id.index, by omega, rfl⟩

theorem nodup_nextIds (last count : Nat) : (nextIds last count).Nodup := by
  rw [nextIds, List.nodup_map_iff fun _ _ h => RefId.mk.inj h]
  exact List.nodup_range'

/-- References before and after a numbering. Those that have an id keep it, and the others share
    the next ids out among themselves. -/
structure NumberedTo (last : Nat) (old new : List Reference) (last' : Nat) : Prop where
  counted : last' = last + waiting old
  ids : (new.map Reference.id).Perm (assignedIds old ++ nextIds last (waiting old))

namespace NumberedTo

theorem nil (last : Nat) : NumberedTo last [] [] last := ⟨rfl, .nil⟩

theorem kept (last : Nat) (r : Reference) (h : r.id.isAssigned = true) :
    NumberedTo last [r] [r] last := by
  refine ⟨?_, ?_⟩
  · simp [waiting, h]
  · simp [assignedIds, waiting, nextIds, h]

theorem given (last : Nat) (r : Reference) (h : r.id.isAssigned = false) :
    NumberedTo last [r] [{ r with id := ⟨last + 1⟩ }] (last + 1) := by
  refine ⟨?_, ?_⟩
  · simp [waiting, h]
  · simp [assignedIds, waiting, nextIds, h]

/-- Numberings follow each other. -/
theorem append {last mid last' : Nat} {old new more rest : List Reference}
    (h : NumberedTo last old new mid) (hmore : NumberedTo mid more rest last') :
    NumberedTo last (old ++ more) (new ++ rest) last' := by
  have hwaiting : waiting (old ++ more) = waiting old + waiting more := List.countP_append
  refine ⟨?_, ?_⟩
  · rw [hmore.counted, h.counted, hwaiting, Nat.add_assoc]
  · rw [hwaiting, nextIds_add, ← h.counted, List.map_append, assignedIds, List.map_append,
      List.filter_append, List.append_assoc]
    refine (h.ids.append hmore.ids).trans ?_
    rw [List.append_assoc]
    apply List.Perm.append_left
    rw [← List.append_assoc, ← List.append_assoc]
    exact List.perm_append_comm.append_right _

end NumberedTo

/-- A child as it is after a numbering. -/
def Child.IsNumbered (new old : Child) : Prop := ∃ last, new = (old.number last).1

/-- A declaration is numbered child by child. -/
theorem Declaration.forall₂_isNumbered (last : Nat) (d : Declaration) :
    List.Forall₂ Child.IsNumbered (d.number last).1.children d.children := by
  have hchildren : ∀ (children : List Child) (last : Nat),
      List.Forall₂ Child.IsNumbered (numberChildren last children).1 children := by
    intro children
    induction children with
    | nil => exact fun _ => .nil
    | cons child rest ih => exact fun last => .cons ⟨last, rfl⟩ (ih _)
  exact hchildren d.children last

/-- What a numbering keeps of each child, it keeps of children in a row. -/
theorem Child.map_eq_of_isNumbered {α : Type} (read : Child → α) {numbered children : List Child}
    (hread : ∀ last child, read (Child.number last child).1 = read child)
    (h : List.Forall₂ IsNumbered numbered children) : numbered.map read = children.map read := by
  induction h with
  | nil => rfl
  | cons hchild _ ih =>
    obtain ⟨last, rfl⟩ := hchild
    rw [List.map_cons, List.map_cons, hread, ih]

section Reading

variable {α : Type} {read : Child → α}
  (hfield : ∀ f initializer?, read (.field { f with initializer? }) = read (.field f))
  (hmethod : ∀ m body, read (.method { m with body }) = read (.method m))
  (hcode : ∀ c c', read (.code c) = read (.code c'))

include hfield hmethod hcode

/-- What is read off a child without a look at its code is the same after a numbering. -/
theorem Child.read_number (last : Nat) (child : Child) :
    read (child.number last).1 = read child := by
  cases child with
  | field f =>
    rw [Child.number]
    split
    · rfl
    · exact hfield f _
  | method m => exact hmethod m _
  | code c => exact hcode _ _
  | _ => rfl

/-- So it is with the children of a declaration. -/
theorem Declaration.map_children_number (last : Nat) (d : Declaration) :
    (d.number last).1.children.map read = d.children.map read :=
  Child.map_eq_of_isNumbered read (Child.read_number hfield hmethod hcode)
    (d.forall₂_isNumbered last)

end Reading

/-- What is read off a fragment without a look at the id of its reference is the same after a
    numbering. -/
theorem Code.map_fragments_number {α : Type} (read : Fragment → α)
    (hread : ∀ r id, read (.ref { r with id }) = read (.ref r)) (last : Nat) (code : Code) :
    (code.number last).1.fragments.map read = code.fragments.map read := by
  have hfragments : ∀ (fragments : List Fragment) (last : Nat),
      (numberFragments last fragments).1.map read = fragments.map read := by
    intro fragments
    induction fragments with
    | nil => exact fun _ => rfl
    | cons fragment rest ih =>
      intro last
      have hfragment : read (fragment.number last).1 = read fragment := by
        cases fragment with
        | text s => rfl
        | ref r =>
          rw [Fragment.number]
          split
          · rfl
          · exact hread r _
      simp only [numberFragments, List.map_cons, ih, hfragment]
  exact hfragments code.fragments last

/-- The ids of references do not show, nor do they if the references are spelled anew. -/
theorem Code.render_mapReferences_number {f : Reference → Reference}
    (hf : ∀ r id, (f { r with id }).name = (f r).name) (last : Nat) (code : Code) :
    ((code.number last).1.mapReferences f).render = (code.mapReferences f).render := by
  have hsame := map_fragments_number (fun fragment => (fragment.mapReference f).render) hf last code
  simp only [render, mapReferences, List.map_map]
  exact congrArg String.join hsame

theorem Code.render_number (last : Nat) (code : Code) :
    (code.number last).1.render = code.render :=
  congrArg String.join (map_fragments_number Fragment.render (fun _ _ => rfl) last code)

theorem Child.render_number (last : Nat) (child : Child) :
    (child.number last).1.render = child.render := by
  cases child with
  | field f =>
    cases hvalue : f.initializer? with
    | none => simp [number, hvalue]
    | some value =>
      simp [number, hvalue, render, Field.render, Code.render_number]
  | method m => simp [number, render, Method.render, Code.render_number]
  | code c => exact Code.render_number last c
  | _ => rfl

namespace Declaration

/-- A declaration is numbered in one go: its references keep the ids that they have, and the others
    share the next ids out among themselves. -/
theorem number_numberedTo (last : Nat) (d : Declaration) :
    NumberedTo last d.references (d.number last).1.references (d.number last).2 :=
  number_induction NumberedTo.nil NumberedTo.kept NumberedTo.given
    (fun _ _ _ _ _ _ _ h hmore => h.append hmore) last d

/-- It declares what it declared. -/
theorem declaredIds_number (last : Nat) (d : Declaration) :
    (d.number last).1.declaredIds = d.declaredIds := by
  have hread : (d.number last).1.children.map Child.declaredIds =
      d.children.map Child.declaredIds :=
    d.map_children_number (fun _ _ => rfl) (fun _ _ => rfl) (fun _ _ => rfl) last
  rw [declaredIds, declaredIds, List.flatMap_def, List.flatMap_def, hread]
  rfl

/-- It keeps its fields. -/
theorem map_id_fields_number (last : Nat) (d : Declaration) :
    (d.number last).1.fields.map Field.id = d.fields.map Field.id := by
  have hread : (d.number last).1.children.map (fun child => child.field?.map Field.id) =
      d.children.map (fun child => child.field?.map Field.id) :=
    d.map_children_number (fun _ _ => rfl) (fun _ _ => rfl) (fun _ _ => rfl) last
  simpa [fields, List.map_filterMap, List.filterMap_map, Function.comp_def] using
    congrArg (List.filterMap fun field? => field?) hread

end Declaration

end ClassToRecord
