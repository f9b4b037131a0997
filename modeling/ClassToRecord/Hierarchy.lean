import ClassToRecord.Distinct
import ClassToRecord.Project.Basic

namespace ClassToRecord.Project

theorem overriders_subset (p : Project) (method : ElementId) :
    ∀ x ∈ p.overriders method, x ∈ p.methods.map Method.id := by
  intro x hx
  obtain ⟨m, hm, rfl⟩ := List.mem_map.mp hx
  exact List.mem_map.mpr ⟨m, (List.mem_filter.mp hm).1, rfl⟩

/-- Visits the queue in order. Overriders met for the first time join its end. -/
def descend (p : Project) (seen queue : List ElementId) : List ElementId :=
  match queue with
  | [] => seen
  | method :: rest =>
    let found := newOnes seen (p.overriders method)
    descend p (seen ++ found) (rest ++ found)
termination_by (unseen (p.methods.map Method.id) seen, queue.length)
decreasing_by
  cases hfound : newOnes seen (p.overriders method) with
  | nil =>
    simp only [List.append_nil, List.length_cons]
    exact Prod.Lex.right _ (Nat.lt_succ_self _)
  | cons x xs =>
    apply Prod.Lex.left
    have hx : x ∈ newOnes seen (p.overriders method) := by rw [hfound]; exact List.mem_cons_self
    obtain ⟨hmem, hseen⟩ := mem_newOnes.mp hx
    exact unseen_append_lt (p.overriders_subset method x hmem) hseen List.mem_cons_self

/-- A method and all that override it, directly or not, nearest first. -/
def hierarchy (p : Project) (method : ElementId) : List ElementId := p.descend [method] [method]

theorem superMethods_subset (p : Project) (method : ElementId) :
    ∀ x ∈ p.superMethods method, x ∈ p.methods.flatMap Method.superMethods := by
  intro x hx
  unfold superMethods at hx
  cases hm : p.method? method with
  | none => simp [hm] at hx
  | some m =>
    simp only [hm, Option.elim_some] at hx
    refine List.mem_flatMap.mpr ⟨m, ?_, hx⟩
    obtain ⟨home, hhome, hmethod⟩ := Option.bind_eq_some_iff.mp hm
    obtain ⟨owner, _, hdecl⟩ := Option.bind_eq_some_iff.mp hhome
    exact List.mem_flatMap.mpr
      ⟨home, List.mem_of_find?_eq_some hdecl, List.mem_of_find?_eq_some hmethod⟩

/-- Climbs to the first super method until there is none, or none that is new. -/
def ascend (p : Project) (visited : List ElementId) (current : ElementId) : ElementId :=
  match _h : (p.superMethods current).head? with
  | none => current
  | some next =>
    if next ∈ visited then current else ascend p (visited ++ [next]) next
termination_by unseen (p.methods.flatMap Method.superMethods) visited
decreasing_by
  rename_i hnew
  have hmem : next ∈ p.superMethods current := List.mem_of_mem_head? (by rw [_h]; rfl)
  exact unseen_append_lt (p.superMethods_subset current next hmem) hnew List.mem_cons_self

/-- The method where a rename of an accessor has to start: its topmost ancestor. -/
def renameTarget (p : Project) (accessor : ElementId) : ElementId :=
  p.ascend [accessor] accessor

end ClassToRecord.Project
