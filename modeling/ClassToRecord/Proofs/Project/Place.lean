import ClassToRecord.Project.Description
import ClassToRecord.Proofs.Project.Lookup
import Mathlib.Data.List.InsertIdx

namespace ClassToRecord

section Lists

variable {α β : Type} {l : List α} {a : α}

/-- An element that brings nothing may stand anywhere. -/
theorem flatMap_insertIdx {f : α → List β} (h : f a = []) (i : Nat) :
    (l.insertIdx i a).flatMap f = l.flatMap f := by
  induction l generalizing i with
  | nil => cases i <;> simp [h]
  | cons b rest ih =>
    cases i with
    | zero => simp [h]
    | succ i => simp [ih i]

/-- So may one that a test rejects. -/
theorem filter_insertIdx {test : α → Bool} (h : test a = false) (i : Nat) :
    (l.insertIdx i a).filter test = l.filter test := by
  induction l generalizing i with
  | nil => cases i <;> simp [h]
  | cons b rest ih =>
    cases i with
    | zero => simp [h]
    | succ i => simp [List.filter_cons, ih i]

theorem find?_insertIdx {test : α → Bool} (h : test a = false) (i : Nat) :
    (l.insertIdx i a).find? test = l.find? test := by
  rw [← List.head?_filter, filter_insertIdx h, List.head?_filter]

/-- And so may one that brings nothing but what a test rejects. -/
theorem filter_flatMap_insertIdx {f : α → List β} {test : β → Bool}
    (h : ∀ b ∈ f a, test b = false) (i : Nat) :
    ((l.insertIdx i a).flatMap f).filter test = (l.flatMap f).filter test := by
  have hnone : (f a).filter test = [] := by simpa [List.filter_eq_nil_iff] using h
  rw [List.filter_flatMap, List.filter_flatMap]
  exact flatMap_insertIdx (f := fun b => (f b).filter test) hnone i

end Lists

namespace Declaration

/-- Some code in a declaration refers to the element. -/
def RefersTo (d : Declaration) (x : ElementId) : Prop := ∃ r ∈ d.references, r.target = x

/-- A method of a declaration lists the element among those that it overrides. -/
def ListsSuper (d : Declaration) (x : ElementId) : Prop := ∃ m ∈ d.methods, x ∈ m.superMethods

instance (d : Declaration) (x : ElementId) : Decidable (d.RefersTo x) :=
  inferInstanceAs (Decidable (∃ r ∈ d.references, r.target = x))

instance (d : Declaration) (x : ElementId) : Decidable (d.ListsSuper x) :=
  inferInstanceAs (Decidable (∃ m ∈ d.methods, x ∈ m.superMethods))

end Declaration

namespace Project

/-- A project with one more declaration at a position among the others. There is no position beyond
    the end. -/
def place (p : Project) (i : Nat) (d : Declaration) : Project :=
  { p with declarations := p.declarations.insertIdx i d }

/-- An element occurs in a project: it is declared there, or some code refers to it, or a method
    lists it among those that it overrides. -/
def Mentions (p : Project) (x : ElementId) : Prop :=
  ∃ e ∈ p.declarations, x ∈ e.declaredIds ∨ e.RefersTo x ∨ e.ListsSuper x

instance (p : Project) (x : ElementId) : Decidable (p.Mentions x) :=
  inferInstanceAs (Decidable (∃ e ∈ p.declarations, _))

end Project

/-- Nothing that a declaration declares occurs in a project. -/
def Declaration.ForeignTo (d : Declaration) (p : Project) : Prop :=
  ∀ x, p.Mentions x → x ∉ d.declaredIds

namespace Project

variable {p : Project} {d e : Declaration} {x : ElementId}

theorem mentions_id (he : e ∈ p.declarations) : p.Mentions e.id :=
  ⟨e, he, .inl List.mem_cons_self⟩

theorem mentions_of_mem_methods {m : Method} (hm : m ∈ p.methods) : p.Mentions m.id := by
  obtain ⟨e, he, hm⟩ := mem_methods_iff.mp hm
  exact ⟨e, he, .inl (Declaration.declares_iff.mp (Declaration.declares_of_mem_methods hm))⟩

section Lookups

variable (i : Nat)

/-- What is read off all declarations does not show one from which nothing is read. -/
theorem flatMap_place {β : Type} {f : Declaration → List β} (h : f d = []) :
    (p.place i d).declarations.flatMap f = p.declarations.flatMap f :=
  flatMap_insertIdx h i

theorem filter_place {test : Declaration → Bool} (h : test d = false) :
    (p.place i d).declarations.filter test = p.declarations.filter test :=
  filter_insertIdx h i

theorem declaration?_place (hx : x ∉ d.declaredIds) :
    (p.place i d).declaration? x = p.declaration? x := by
  apply find?_insertIdx
  rw [decide_eq_false_iff_not]
  rintro rfl
  exact hx List.mem_cons_self

theorem owner?_place (hx : x ∉ d.declaredIds) : (p.place i d).owner? x = p.owner? x := by
  apply find?_insertIdx
  simpa [Declaration.declares] using hx

theorem containing?_place (hx : x ∉ d.declaredIds) :
    (p.place i d).containing? x = p.containing? x := by
  rw [containing?, containing?, owner?_place i hx]

theorem home?_place (hforeign : d.ForeignTo p) (hx : x ∉ d.declaredIds) :
    (p.place i d).home? x = p.home? x := by
  rw [home?, home?, containing?_place i hx]
  cases howner : p.owner? x with
  | none => simp [containing?, howner]
  | some owner =>
    have hmentioned := mentions_id (List.mem_of_find?_eq_some howner)
    simp [containing?, howner, declaration?_place i (hforeign _ hmentioned)]

theorem field?_place (hforeign : d.ForeignTo p) (hx : x ∉ d.declaredIds) :
    (p.place i d).field? x = p.field? x := by
  rw [field?, field?, home?_place i hforeign hx]

theorem method?_place (hforeign : d.ForeignTo p) (hx : x ∉ d.declaredIds) :
    (p.place i d).method? x = p.method? x := by
  rw [method?, method?, home?_place i hforeign hx]

theorem visibility?_place (hforeign : d.ForeignTo p) (hx : x ∉ d.declaredIds) :
    (p.place i d).visibility? x = p.visibility? x := by
  rw [visibility?, visibility?, declaration?_place i hx, field?_place i hforeign hx,
    method?_place i hforeign hx]

theorem superMethods_place (hforeign : d.ForeignTo p) (hx : x ∉ d.declaredIds) :
    (p.place i d).superMethods x = p.superMethods x := by
  rw [superMethods, superMethods, method?_place i hforeign hx]

theorem describe_place (hforeign : d.ForeignTo p) (hx : x ∉ d.declaredIds) :
    (p.place i d).describe x = p.describe x := by
  simp only [describe, declaration?_place i hx, home?_place i hforeign hx,
    field?_place i hforeign hx, method?_place i hforeign hx]

/-- Only a method that lists another one is seen to override it. -/
theorem overriders_place (hx : ¬ d.ListsSuper x) :
    (p.place i d).overriders x = p.overriders x := by
  rw [overriders, overriders]
  congr 1
  apply filter_flatMap_insertIdx
  simpa [Declaration.ListsSuper] using hx

theorem reference?_place {id : RefId} (hid : ∀ r ∈ d.references, r.id ≠ id) :
    (p.place i d).reference? id = p.reference? id := by
  rw [reference?, reference?, ← List.head?_filter, ← List.head?_filter]
  congr 1
  apply filter_flatMap_insertIdx
  simpa using hid

end Lookups

end Project

end ClassToRecord
