import ClassToRecord.Ids

namespace ClassToRecord

/-- The elements of a list that are not seen yet, each once, in order. -/
def newOnes (seen : List ElementId) : List ElementId → List ElementId
  | [] => []
  | id :: rest =>
    if seen.contains id then newOnes seen rest else id :: newOnes (seen ++ [id]) rest

theorem mem_newOnes {seen ids : List ElementId} {x : ElementId} :
    x ∈ newOnes seen ids ↔ x ∈ ids ∧ x ∉ seen := by
  induction ids generalizing seen with
  | nil => simp [newOnes]
  | cons id rest ih =>
    rw [newOnes]
    split
    · next h =>
      have hid : id ∈ seen := by simpa using h
      rw [ih, List.mem_cons]
      constructor
      · rintro ⟨hx, hs⟩
        exact ⟨.inr hx, hs⟩
      · rintro ⟨rfl | hx, hs⟩
        · exact absurd hid hs
        · exact ⟨hx, hs⟩
    · next h =>
      have hid : id ∉ seen := by simpa using h
      rw [List.mem_cons, ih, List.mem_cons, List.mem_append, List.mem_singleton]
      constructor
      · rintro (rfl | ⟨hx, hs⟩)
        · exact ⟨.inl rfl, hid⟩
        · exact ⟨.inr hx, fun h => hs (.inl h)⟩
      · rintro ⟨rfl | hx, hs⟩
        · exact .inl rfl
        · by_cases hxid : x = id
          · exact .inl hxid
          · exact .inr ⟨hx, fun h => h.elim hs hxid⟩

theorem newOnes_nodup (seen ids : List ElementId) : (newOnes seen ids).Nodup := by
  induction ids generalizing seen with
  | nil => exact List.nodup_nil
  | cons id rest ih =>
    rw [newOnes]
    split
    · exact ih seen
    · refine List.nodup_cons.mpr ⟨fun hid => ?_, ih _⟩
      exact (mem_newOnes.mp hid).2 (List.mem_append_right _ List.mem_cons_self)

theorem newOnes_append (seen xs ys : List ElementId) :
    newOnes seen (xs ++ ys) = newOnes seen xs ++ newOnes (seen ++ newOnes seen xs) ys := by
  induction xs generalizing seen with
  | nil => simp [newOnes]
  | cons x rest ih =>
    rw [List.cons_append, newOnes, newOnes]
    split
    · exact ih seen
    · rw [ih, List.cons_append, List.append_assoc, List.singleton_append]

/-- With nothing seen before, they are the elements in the order of their first occurrences. -/
theorem newOnes_eq_eraseDups (seen ids : List ElementId) :
    newOnes seen ids = (ids.removeAll seen).eraseDups := by
  induction ids generalizing seen with
  | nil => rfl
  | cons id rest ih =>
    have hlater : rest.removeAll (seen ++ [id]) = (rest.removeAll seen).filter (!· == id) := by
      rw [List.removeAll, List.removeAll, List.filter_filter]
      congr 1
      funext x
      cases hx : x == id <;> simp_all
    rw [newOnes, List.cons_removeAll]
    cases seen.contains id with
    | true => exact ih seen
    | false =>
      rw [if_neg Bool.false_ne_true, if_pos (by rfl), List.eraseDups_cons, ← hlater, ih]

theorem nodup_eraseDups (ids : List ElementId) : ids.eraseDups.Nodup := by
  have h := newOnes_nodup [] ids
  rwa [newOnes_eq_eraseDups, List.removeAll_nil] at h

/-- How many elements of a list are still to be seen. -/
def unseen (ids seen : List ElementId) : Nat :=
  (ids.filter fun id => !seen.contains id).length

theorem unseen_append_le (ids seen more : List ElementId) :
    unseen ids (seen ++ more) ≤ unseen ids seen := by
  induction ids with
  | nil => simp [unseen]
  | cons id rest ih =>
    simp only [unseen, List.filter_cons, List.contains_append] at ih ⊢
    cases seen.contains id <;> cases more.contains id <;> simp at ih ⊢ <;> omega

theorem unseen_append_lt {ids seen more : List ElementId} {x : ElementId}
    (hx : x ∈ ids) (hseen : x ∉ seen) (hmore : x ∈ more) :
    unseen ids (seen ++ more) < unseen ids seen := by
  induction ids with
  | nil => cases hx
  | cons id rest ih =>
    have hle := unseen_append_le rest seen more
    by_cases hid : x = id
    · subst hid
      have h1 : seen.contains x = false := by simpa using hseen
      have h2 : more.contains x = true := by simpa using hmore
      simp only [unseen, List.filter_cons, List.contains_append, h1, h2] at hle ⊢
      simp only [Bool.or_true, Bool.not_true, Bool.not_false, Bool.false_eq_true, if_true,
        if_false, List.length_cons]
      omega
    · have hlt := ih (by simpa [hid] using hx)
      simp only [unseen, List.filter_cons, List.contains_append] at hlt ⊢
      cases seen.contains id <;> cases more.contains id <;> simp at hlt ⊢ <;> omega

end ClassToRecord
