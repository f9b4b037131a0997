import ClassToRecord.Record.Rebuild
import ClassToRecord.Proofs.Traversal

open ClassToRecord.Traversal

namespace ClassToRecord

namespace Declaration

/-- The child behind which the header of a record goes, between the children before and after it:
    the first name, or the type parameters if they are the first significant child after it. -/
inductive HeaderAnchor : List Child → Child → List Child → Prop where
  | name {before after : List Child} {name : String} {next : Child}
      (hfirst : ∀ child ∈ before, child.identifier? = none)
      (hnext : after.find? Child.isSignificant = some next)
      (hother : ∀ text, next ≠ .typeParameters text) :
      HeaderAnchor before (.identifier name) after
  | typeParameters {before trivia after : List Child} {name text : String}
      (hfirst : ∀ child ∈ before, child.identifier? = none)
      (htrivia : ∀ child ∈ trivia, child.isSignificant = false) :
      HeaderAnchor (before ++ .identifier name :: trivia) (.typeParameters text) after

private theorem HeaderAnchor.cons {before after : List Child} {child anchor : Child}
    (hchild : child.identifier? = none) (h : HeaderAnchor before anchor after) :
    HeaderAnchor (child :: before) anchor after := by
  cases h with
  | name hfirst hnext hother =>
    exact .name (List.forall_mem_cons.mpr ⟨hchild, hfirst⟩) hnext hother
  | typeParameters hfirst htrivia =>
    exact .typeParameters (List.forall_mem_cons.mpr ⟨hchild, hfirst⟩) htrivia

private theorem insertHeader_cons {header child : Child} {children : List Child}
    (hchild : child.identifier? = none) :
    insertHeader header (child :: children) = (insertHeader header children).map (child :: ·) := by
  cases child with
  | identifier name => cases hchild
  | _ => rfl

private theorem insertAfterTypeParameters_append {header : Child} {trivia after : List Child}
    {text : String} (htrivia : ∀ child ∈ trivia, child.isSignificant = false) :
    insertAfterTypeParameters header (trivia ++ .typeParameters text :: after) =
      trivia ++ .typeParameters text :: header :: after := by
  induction trivia with
  | nil => rfl
  | cons child rest ih =>
    obtain ⟨hchild, hrest⟩ := List.forall_mem_cons.mp htrivia
    cases child with
    | trivia t => exact congrArg (_ :: ·) (ih hrest)
    | _ => cases hchild

/-- What follows a name decides which child is the anchor. -/
private theorem exists_anchor_of_insertAfterName {header : Child} {name : String}
    {children placed : List Child} (h : insertAfterName header children = some placed) :
    ∃ before anchor after, HeaderAnchor before anchor after ∧
      .identifier name :: children = before ++ anchor :: after ∧
      .identifier name :: placed = before ++ anchor :: header :: after := by
  unfold insertAfterName at h
  split at h
  · cases h
  · next text hnext =>
    cases h
    obtain ⟨-, trivia, after, rfl, hblank⟩ := List.find?_eq_some_iff_append.mp hnext
    have htrivia : ∀ child ∈ trivia, child.isSignificant = false := by simpa using hblank
    rw [insertAfterTypeParameters_append htrivia]
    have hanchor := @HeaderAnchor.typeParameters [] trivia after name text nofun htrivia
    exact ⟨_, _, after, hanchor, rfl, rfl⟩
  · next next hother hnext =>
    cases h
    exact ⟨[], _, children, .name nofun hnext hother, rfl, rfl⟩

/-- A header that finds its place stands right behind its anchor. -/
theorem exists_anchor_of_insertHeader {header : Child} {children placed : List Child}
    (h : insertHeader header children = some placed) :
    ∃ before anchor after, HeaderAnchor before anchor after ∧
      children = before ++ anchor :: after ∧ placed = before ++ anchor :: header :: after := by
  induction children generalizing placed with
  | nil => cases h
  | cons child rest ih =>
    by_cases hchild : child.identifier? = none
    · rw [insertHeader_cons hchild] at h
      obtain ⟨tail, htail, rfl⟩ := Option.map_eq_some_iff.mp h
      obtain ⟨before, anchor, after, hanchor, rfl, rfl⟩ := ih htail
      exact ⟨child :: before, anchor, after, hanchor.cons hchild, rfl, rfl⟩
    · obtain ⟨name, rfl⟩ : ∃ name, child = .identifier name := by
        cases child with
        | identifier name => exact ⟨name, rfl⟩
        | _ => exact absurd rfl hchild
      obtain ⟨tail, htail, rfl⟩ := Option.map_eq_some_iff.mp h
      exact exists_anchor_of_insertAfterName htail

/-- The other children stay in order around it. -/
theorem insertHeader_eq_append {header : Child} {children placed : List Child}
    (h : insertHeader header children = some placed) :
    ∃ before after, children = before ++ after ∧ placed = before ++ header :: after := by
  obtain ⟨before, anchor, after, -, rfl, rfl⟩ := exists_anchor_of_insertHeader h
  exact ⟨before ++ [anchor], after, List.append_cons .., List.append_cons ..⟩

private theorem isSome_insertAfterName_iff {header : Child} {children : List Child} :
    (insertAfterName header children).isSome = true ↔
      ∃ child ∈ children, child.isSignificant = true := by
  rw [← List.find?_isSome, insertAfterName]
  split
  · next hnone => simp [hnone]
  · next hnext => simp [hnext]
  · next hnext => simp [hnext]

/-- There is a place for a header exactly if something significant follows a name. -/
theorem isSome_insertHeader_iff {header : Child} {children : List Child} :
    (insertHeader header children).isSome = true ↔
      ∃ name after, Child.identifier name :: after <:+ children ∧
        ∃ child ∈ after, child.isSignificant = true := by
  induction children with
  | nil => simp [insertHeader]
  | cons child rest ih =>
    simp only [List.suffix_cons_iff, or_and_right, exists_or, ← ih]
    cases child with
    | identifier name =>
      have hlater : (insertHeader header rest).isSome = true →
          ∃ child ∈ rest, child.isSignificant = true := by
        rw [ih]
        rintro ⟨_, after, hsuffix, child, hchild, hsignificant⟩
        exact ⟨child, hsuffix.subset (List.mem_cons_of_mem _ hchild), hsignificant⟩
      rw [insertHeader, Option.isSome_map, isSome_insertAfterName_iff]
      simpa using hlater
    | _ => rw [insertHeader_cons rfl, Option.isSome_map]; simp

end Declaration

/-- Children that leave no trace when they are whitespace can be read off the pieces of a record,
    whatever gaps are closed between them. -/
theorem flatMap_closeGaps {α : Type} {read : Child → List α}
    (hread : ∀ child, child.isWhitespace = true → read child = []) (written : List Child)
    (pieces : List (Option Child)) :
    (closeGaps written pieces).flatMap read =
      written.reverse.flatMap read ++ pieces.flatMap (·.elim [] read) := by
  have hdrop : ∀ written : List Child,
      (dropWhitespace written).reverse.flatMap read = written.reverse.flatMap read := by
    intro written
    cases written with
    | nil => rfl
    | cons child rest =>
      rw [dropWhitespace]
      split
      · next hblank => simp [hread child hblank]
      · rfl
  induction pieces generalizing written with
  | nil => simp [closeGaps]
  | cons piece rest ih =>
    cases piece with
    | none => simp [closeGaps, ih, hdrop]
    | some child => simp [closeGaps, ih]

/-- A child that is not whitespace separates what is written before it from the gaps after it. -/
theorem closeGaps_append_cons {child : Child} (hchild : child.isWhitespace = false)
    (above written : List Child) (pieces : List (Option Child)) :
    closeGaps (above ++ child :: written) pieces =
      written.reverse ++ child :: closeGaps above pieces := by
  induction pieces generalizing above with
  | nil => simp [closeGaps]
  | cons piece rest ih =>
    cases piece with
    | some next => exact ih (next :: above)
    | none =>
      have hdrop : dropWhitespace (above ++ child :: written) =
          dropWhitespace above ++ child :: written := by
        cases above with
        | nil => simp [dropWhitespace, hchild]
        | cons first above =>
          simp only [List.cons_append, dropWhitespace]
          split <;> rfl
      rw [closeGaps, closeGaps, hdrop, ih]

/-- Gaps are closed in one part of the pieces after the other. -/
theorem closeGaps_append (written : List Child) (first second : List (Option Child)) :
    closeGaps written (first ++ second) = closeGaps (closeGaps written first).reverse second := by
  induction first generalizing written with
  | nil => rw [List.nil_append, closeGaps, List.reverse_reverse]
  | cons piece rest ih =>
    cases piece with
    | some child => exact ih (child :: written)
    | none => exact ih (dropWhitespace written)

/-- Where nothing vanished, nothing is closed. -/
theorem closeGaps_map_some (written children : List Child) :
    closeGaps written (children.map some) = written.reverse ++ children := by
  induction children generalizing written with
  | nil => simp [closeGaps]
  | cons child rest ih => simp [closeGaps, ih]

/-- A child of the result is one that was written already or comes with the pieces. What stands
    behind it is closed on its own. -/
private theorem eq_closeGaps_of_suffix {child : Child} {tail : List Child} (written : List Child)
    (pieces : List (Option Child)) (h : child :: tail <:+ closeGaps written pieces) :
    (∃ above below, written = above ++ child :: below ∧ tail = closeGaps above pieces) ∨
      ∃ rest, some child :: rest <:+ pieces ∧ tail = closeGaps [] rest := by
  induction pieces generalizing written with
  | nil =>
    obtain ⟨front, hfront⟩ := h
    have hwritten : written = tail.reverse ++ child :: front.reverse := by
      rw [← List.reverse_inj, ← closeGaps, ← hfront]
      simp
    exact .inl ⟨_, _, hwritten, (List.reverse_reverse tail).symm⟩
  | cons piece rest ih =>
    cases piece with
    | some next =>
      obtain ⟨above, below, hwritten, rfl⟩ | ⟨later, hlater, htail⟩ := ih (next :: written) h
      · cases above with
        | nil =>
          obtain ⟨rfl, -⟩ := List.cons.inj hwritten
          exact .inr ⟨rest, List.suffix_rfl, rfl⟩
        | cons _ above =>
          obtain ⟨rfl, hearlier⟩ := List.cons.inj hwritten
          exact .inl ⟨above, below, hearlier, rfl⟩
      · exact .inr ⟨later, hlater.trans (List.suffix_cons _ _), htail⟩
    | none =>
      obtain ⟨above, below, hdropped, rfl⟩ | ⟨later, hlater, htail⟩ := ih (dropWhitespace written) h
      · -- the whitespace that goes, if any, was written last, and so it stood behind the child
        cases written with
        | nil => simp [dropWhitespace] at hdropped
        | cons last written =>
          cases hblank : last.isWhitespace with
          | true =>
            rw [dropWhitespace, if_pos hblank] at hdropped
            refine .inl ⟨last :: above, below, congrArg (last :: ·) hdropped, ?_⟩
            rw [closeGaps, dropWhitespace, if_pos hblank]
          | false =>
            rw [dropWhitespace, hblank, if_neg Bool.false_ne_true] at hdropped
            refine .inl ⟨above, below, hdropped, ?_⟩
            cases above with
            | nil => rfl
            | cons _ above =>
              obtain ⟨rfl, -⟩ := List.cons.inj hdropped
              rw [closeGaps, dropWhitespace, hblank, if_neg Bool.false_ne_true]
      · exact .inr ⟨later, hlater.trans (List.suffix_cons _ _), htail⟩

/-- What stands behind a child that is not whitespace comes from the pieces behind it. -/
theorem suffix_closeGaps_iff {child : Child} (hchild : child.isWhitespace = false)
    {tail : List Child} {pieces : List (Option Child)} :
    child :: tail <:+ closeGaps [] pieces ↔
      ∃ rest, some child :: rest <:+ pieces ∧ tail = closeGaps [] rest := by
  constructor
  · intro h
    obtain ⟨above, below, hwritten, -⟩ | hpieces := eq_closeGaps_of_suffix [] pieces h
    · simp at hwritten
    · exact hpieces
  · rintro ⟨rest, ⟨front, rfl⟩, rfl⟩
    rw [closeGaps_append]
    exact ⟨_, (closeGaps_append_cons hchild [] _ rest).symm⟩

theorem dropWhitespace_sublist (written : List Child) :
    (dropWhitespace written).Sublist written := by
  cases written with
  | nil => exact .slnil
  | cons child rest =>
    rw [dropWhitespace]
    split
    · exact List.sublist_cons_self child rest
    · exact .refl _

/-- Closing gaps only takes children away. -/
theorem closeGaps_sublist (written : List Child) (pieces : List (Option Child)) :
    (closeGaps written pieces).Sublist (written.reverse ++ pieces.filterMap id) := by
  induction pieces generalizing written with
  | nil => simp [closeGaps]
  | cons piece rest ih =>
    cases piece with
    | some child => simpa [closeGaps] using ih (child :: written)
    | none => exact (ih _).trans ((dropWhitespace_sublist written).reverse.append_right _)

private theorem countP_le_dropWhitespace (written : List Child) :
    written.countP Child.isWhitespace ≤ (dropWhitespace written).countP Child.isWhitespace + 1 := by
  cases written with
  | nil => exact Nat.zero_le _
  | cons child rest =>
    rw [dropWhitespace]
    split
    · exact List.countP_cons ▸ Nat.add_le_add_left (by split <;> omega) _
    · exact Nat.le_succ _

/-- What it takes away is one whitespace child for each gap, at most. -/
theorem countP_le_closeGaps (written : List Child) (pieces : List (Option Child)) :
    written.countP Child.isWhitespace + (pieces.filterMap id).countP Child.isWhitespace ≤
      (closeGaps written pieces).countP Child.isWhitespace + pieces.countP Option.isNone := by
  induction pieces generalizing written with
  | nil => simp [closeGaps]
  | cons piece rest ih =>
    cases piece with
    | some child =>
      have hrest := ih (child :: written)
      simp only [closeGaps, List.filterMap_cons, id, List.countP_cons, Option.isNone_some]
        at hrest ⊢
      omega
    | none =>
      have hrest := ih (dropWhitespace written)
      have hdrop := countP_le_dropWhitespace written
      simp only [closeGaps, List.filterMap_cons, id, List.countP_cons, Option.isNone_none,
        if_true] at hrest ⊢
      omega

/-- Closing gaps adds no child. -/
theorem mem_of_mem_closeGaps {child : Child} {pieces : List (Option Child)}
    (h : child ∈ closeGaps [] pieces) : some child ∈ pieces := by
  simpa using (closeGaps_sublist [] pieces).subset h

namespace Project

/-- A record is made from the declaration that it replaces. Its components find a place among the
    children, and each child that is then there becomes one piece of the record, or none. -/
theorem rebuildRecord_eq_ok {p : Project} {c : Candidate} {record : Declaration}
    (h : p.rebuildRecord c = .ok record) :
    ∃ d placed pieces, p.declaration? c.declaration = some d ∧ c.memberError? d = none ∧
      Declaration.insertHeader (.header (c.componentsOf d)) d.children = some placed ∧
      List.Forall₂ (fun child piece =>
        c.recordChild (c.componentsOf d) d.visibility child = .ok piece) placed pieces ∧
      record = { d with children := closeGaps [] pieces } := by
  unfold rebuildRecord at h
  split at h
  · cases h
  · next d hd =>
    split at h
    · cases h
    · next hmembers =>
      rw [bind_eq_ok_iff] at h
      obtain ⟨pieces, hpieces, h⟩ := h
      cases hplaced : Declaration.insertHeader (.header (c.componentsOf d)) d.children with
      | none =>
        simp only [hplaced, Option.isSome_none, Bool.false_eq_true, if_false] at h
        split at h <;> cases h
      | some placed =>
        simp only [hplaced, Option.isSome_some, if_true] at h
        simp only [hplaced, Option.getD_some] at hpieces
        cases h
        exact ⟨d, placed, pieces, hd, hmembers, hplaced, forall₂_of_mapM_eq_ok hpieces, rfl⟩

end Project

end ClassToRecord
