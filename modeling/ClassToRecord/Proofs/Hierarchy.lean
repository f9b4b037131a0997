import ClassToRecord.Hierarchy
import ClassToRecord.Proofs.Project.Lookup
import Mathlib.Logic.Relation

open Relation

namespace ClassToRecord.Project

/-- A declared method lists another one among those that it overrides directly. -/
def OverridesDirectly (p : Project) (method superMethod : ElementId) : Prop :=
  ∃ m ∈ p.methods, m.id = method ∧ superMethod ∈ m.superMethods

/-- A method is another one, or overrides it in any number of steps. -/
def Overrides (p : Project) : ElementId → ElementId → Prop := ReflTransGen p.OverridesDirectly

theorem mem_overriders_iff {p : Project} {method superMethod : ElementId} :
    method ∈ p.overriders superMethod ↔ p.OverridesDirectly method superMethod := by
  simp only [overriders, List.mem_map, List.mem_filter, List.contains_iff_mem, OverridesDirectly]
  constructor
  · rintro ⟨m, ⟨hm, hsuper⟩, hid⟩
    exact ⟨m, hm, hid, hsuper⟩
  · rintro ⟨m, hm, hid, hsuper⟩
    exact ⟨m, ⟨hm, hsuper⟩, hid⟩

/-- A walk only adds to what it has seen, at the end. -/
theorem descend_eq_append (p : Project) (seen queue : List ElementId) :
    ∃ found, p.descend seen queue = seen ++ found := by
  fun_induction descend p seen queue with
  | case1 seen => exact ⟨[], (List.append_nil _).symm⟩
  | case2 seen method rest found ih =>
    obtain ⟨more, hmore⟩ := ih
    exact ⟨found ++ more, by rw [hmore, List.append_assoc]⟩

/-- Whatever a walk finds overrides something in its queue. -/
theorem overrides_of_mem_descend {p : Project} {seen queue : List ElementId} {x : ElementId}
    (hx : x ∈ p.descend seen queue) : x ∈ seen ∨ ∃ y ∈ queue, p.Overrides x y := by
  fun_induction descend p seen queue with
  | case1 seen => exact .inl hx
  | case2 seen method rest found ih =>
    have hfound : ∀ y ∈ found, p.Overrides y method := by
      intro y hy
      exact .single (mem_overriders_iff.mp (mem_newOnes.mp hy).1)
    obtain hseen | ⟨y, hy, hxy⟩ := ih hx
    · rcases List.mem_append.mp hseen with hold | hnew
      · exact .inl hold
      · exact .inr ⟨method, List.mem_cons_self, hfound x hnew⟩
    · rcases List.mem_append.mp hy with hrest | hnew
      · exact .inr ⟨y, List.mem_cons_of_mem _ hrest, hxy⟩
      · exact .inr ⟨method, List.mem_cons_self, hxy.trans (hfound y hnew)⟩

/-- If all that is seen is either finished or still queued, then the walk ends with a set that
    contains the direct overriders of all its elements. -/
theorem descend_closed {p : Project} {seen queue : List ElementId}
    (hpending : ∀ x ∈ seen, x ∈ queue ∨ ∀ y ∈ p.overriders x, y ∈ seen) :
    ∀ x ∈ p.descend seen queue, ∀ y ∈ p.overriders x, y ∈ p.descend seen queue := by
  fun_induction descend p seen queue with
  | case1 seen =>
    intro x hx
    exact (hpending x hx).resolve_left List.not_mem_nil
  | case2 seen method rest found ih =>
    apply ih
    intro x hx
    rcases List.mem_append.mp hx with hold | hnew
    · rcases hpending x hold with hqueue | hdone
      · rcases List.mem_cons.mp hqueue with rfl | hrest
        · refine .inr fun y hy => ?_
          by_cases hseen : y ∈ seen
          · exact List.mem_append_left _ hseen
          · exact List.mem_append_right _ (mem_newOnes.mpr ⟨hy, hseen⟩)
        · exact .inl (List.mem_append_left _ hrest)
      · exact .inr fun y hy => List.mem_append_left _ (hdone y hy)
    · exact .inl (List.mem_append_right _ hnew)

/-- A hierarchy starts with the method that it belongs to. -/
theorem hierarchy_eq_cons (p : Project) (method : ElementId) :
    ∃ found, p.hierarchy method = method :: found :=
  p.descend_eq_append [method] [method]

/-- A hierarchy is the method with all that override it, over any number of steps and whatever
    cycles or diamonds the override links form. -/
theorem mem_hierarchy_iff {p : Project} {method x : ElementId} :
    x ∈ p.hierarchy method ↔ p.Overrides x method := by
  constructor
  · intro hx
    obtain hseen | ⟨y, hy, hxy⟩ := overrides_of_mem_descend hx
    · rw [List.mem_singleton.mp hseen]
      exact .refl
    · rwa [List.mem_singleton.mp hy] at hxy
  · intro hx
    have hclosed : ∀ x ∈ p.hierarchy method, ∀ y ∈ p.overriders x, y ∈ p.hierarchy method :=
      descend_closed fun x hx => .inl hx
    obtain ⟨found, hfound⟩ := p.hierarchy_eq_cons method
    induction hx using ReflTransGen.head_induction_on with
    | refl => simp [hfound]
    | head hstep _ ih => exact hclosed _ ih _ (mem_overriders_iff.mpr hstep)

theorem overridesDirectly_of_mem {p : Project} {m : Method} (hm : m ∈ p.methods) {x : ElementId}
    (hx : x ∈ m.superMethods) : p.OverridesDirectly m.id x :=
  ⟨m, hm, rfl, hx⟩

/-- Whatever overrides a declared method is declared. -/
theorem exists_method_of_overrides {p : Project} {s : Method} (hs : s ∈ p.methods) {x : ElementId}
    (h : p.Overrides x s.id) : ∃ m ∈ p.methods, m.id = x := by
  rcases h.cases_head with rfl | ⟨_, ⟨m, hm, hid, _⟩, _⟩
  · exact ⟨s, hs, rfl⟩
  · exact ⟨m, hm, hid⟩

theorem overridesDirectly_of_mem_superMethods {p : Project} {method superMethod : ElementId}
    (h : superMethod ∈ p.superMethods method) : p.OverridesDirectly method superMethod := by
  unfold superMethods at h
  cases hmethod : p.method? method with
  | none => simp [hmethod] at h
  | some m =>
    obtain ⟨hm, hid⟩ := of_method?_eq_some hmethod
    exact ⟨m, hm, hid, by simpa [hmethod] using h⟩

/-- A climb ends above its start. There it has no further super method, or else the first one is
    itself below the end, as happens on a cycle. -/
theorem ascend_spec {p : Project} {visited : List ElementId} {current : ElementId}
    (hvisited : ∀ x ∈ visited, p.Overrides x current) :
    p.Overrides current (p.ascend visited current) ∧
      ∀ x, (p.superMethods (p.ascend visited current)).head? = some x →
        p.Overrides x (p.ascend visited current) := by
  fun_induction ascend p visited current with
  | case1 visited current hnone =>
    refine ⟨.refl, fun x hx => ?_⟩
    rw [hnone] at hx
    cases hx
  | case2 visited current next hnext hseen =>
    refine ⟨.refl, fun x hx => ?_⟩
    cases hnext.symm.trans hx
    exact hvisited next hseen
  | case3 visited current next hnext hnew ih =>
    have hstep : p.Overrides current next :=
      .single (overridesDirectly_of_mem_superMethods (List.mem_of_head? hnext))
    obtain ⟨habove, hfirst⟩ := ih fun x hx => by
      rcases List.mem_append.mp hx with hold | hhere
      · exact (hvisited x hold).trans hstep
      · rw [List.mem_singleton.mp hhere]
        exact .refl
    exact ⟨hstep.trans habove, hfirst⟩

/-- An accessor overrides the method at which its rename starts. -/
theorem overrides_renameTarget (p : Project) (accessor : ElementId) :
    p.Overrides accessor (p.renameTarget accessor) :=
  (ascend_spec fun x hx => by rw [List.mem_singleton.mp hx]; exact .refl).1

/-- Whatever the start of a rename overrides first is below it. -/
theorem overrides_renameTarget_of_head? {p : Project} {accessor x : ElementId}
    (h : (p.superMethods (p.renameTarget accessor)).head? = some x) :
    p.Overrides x (p.renameTarget accessor) :=
  (ascend_spec fun x hx => by rw [List.mem_singleton.mp hx]; exact .refl).2 x h

end ClassToRecord.Project
