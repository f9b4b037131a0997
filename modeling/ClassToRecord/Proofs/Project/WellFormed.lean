import ClassToRecord.Proofs.Rename.Names
import Mathlib.Data.List.Perm.Subperm

namespace ClassToRecord

/-- The elements of a child that have a name, each with it: fields, methods, parameters, and
    components. -/
def Child.named : Child → List (ElementId × String)
  | .field f => [(f.id, f.name)]
  | .method m => (m.id, m.name) :: m.parameters.map fun q => (q.id, q.name)
  | .header components => components.map fun q => (q.id, q.name)
  | _ => []

/-- The elements of a declaration that have a name, each with it. -/
def Declaration.named (d : Declaration) : List (ElementId × String) :=
  d.children.flatMap Child.named

/-- The elements of a project that have a name, each with it. -/
def Project.named (p : Project) : List (ElementId × String) :=
  p.declarations.flatMap Declaration.named

/-- The elements that a child declares are those that it names. -/
theorem Child.map_fst_named (child : Child) : child.named.map Prod.fst = child.declaredIds := by
  cases child <;> simp [named, declaredIds]

theorem Child.mem_declaredIds_of_mem_named {child : Child} {entry : ElementId × String}
    (h : entry ∈ child.named) : entry.1 ∈ child.declaredIds :=
  child.map_fst_named ▸ List.mem_map_of_mem h

/-- Where no element is declared twice, none has two names. -/
theorem Project.DistinctElements.named_inj {p : Project} (h : p.DistinctElements)
    {id : ElementId} {a b : String} (ha : (id, a) ∈ p.named) (hb : (id, b) ∈ p.named) : a = b := by
  have hdeclared : ∀ d : Declaration, (d.named.map Prod.fst).Sublist d.declaredIds := by
    intro d
    rw [Declaration.named, List.map_flatMap, Declaration.declaredIds]
    simp only [Child.map_fst_named]
    exact List.sublist_cons_self _ _
  have hsublist : (p.named.map Prod.fst).Sublist p.declaredIds := by
    rw [named, List.map_flatMap]
    exact List.Sublist.flatMap_right _ fun d _ => hdeclared d
  exact congrArg Prod.snd (List.inj_on_of_nodup_map (hsublist.nodup h) ha hb rfl)

/-- One child stands in for another under new names: its references are the same ones, respelled,
    and it declares the same elements, as a method if the other is one. -/
structure Child.StandsFor (names : ElementId → Option String) (child old : Child) : Prop where
  references : child.references = old.references.map (Reference.renamedBy names)
  declaredIds : child.declaredIds = old.declaredIds
  method : child.method?.isSome = old.method?.isSome

theorem Child.exists_method_of_isSome {child : Child} (h : child.method?.isSome = true) :
    ∃ m, child = .method m := by
  cases child with
  | method m => exact ⟨m, rfl⟩
  | _ => cases h

/-- What stands in for a method is a method with the same parameters. -/
theorem Child.StandsFor.exists_method {names : ElementId → Option String} {m : Method}
    {old : Child} (h : (Child.method m).StandsFor names old) :
    ∃ m', old = .method m' ∧ m'.id = m.id ∧
      m'.parameters.map Parameter.id = m.parameters.map Parameter.id := by
  obtain ⟨m', rfl⟩ := exists_method_of_isSome h.method.symm
  obtain ⟨hid, hparameters⟩ := List.cons.inj h.declaredIds
  exact ⟨m', rfl, hid.symm, hparameters.symm⟩

namespace Project

/-- Elements and references have ids of their own, references to a parameter stand in the method
    that it belongs to, and every reference is spelled with the name that its target has. -/
structure WellFormed (p : Project) : Prop where
  elements : p.DistinctElements
  assigned : ∀ r ∈ p.references, r.id.isAssigned = true
  references : p.DistinctReferences
  scope : ∀ m ∈ p.methods, ∀ d ∈ p.declarations, ∀ child ∈ d.children, ∀ r ∈ child.references,
    r.target ∈ m.parameters.map Parameter.id → child = .method m
  spelling : ∀ r ∈ p.references, ∀ entry ∈ p.named, entry.1 = r.target → r.name = entry.2

instance (p : Project) : Decidable p.WellFormed :=
  decidable_of_iff (p.DistinctElements ∧ (∀ r ∈ p.references, r.id.isAssigned = true) ∧
      p.DistinctReferences ∧
      (∀ m ∈ p.methods, ∀ d ∈ p.declarations, ∀ child ∈ d.children, ∀ r ∈ child.references,
        r.target ∈ m.parameters.map Parameter.id → child = .method m) ∧
      ∀ r ∈ p.references, ∀ entry ∈ p.named, entry.1 = r.target → r.name = entry.2)
    ⟨fun ⟨h₁, h₂, h₃, h₄, h₅⟩ => ⟨h₁, h₂, h₃, h₄, h₅⟩,
      fun ⟨h₁, h₂, h₃, h₄, h₅⟩ => ⟨h₁, h₂, h₃, h₄, h₅⟩⟩

/-- A project keeps a part of another one under new names. Elements and references may be gone,
    but none is new, and each child that has references or is a method stands in for an old one. -/
structure Keeps (names : ElementId → Option String) (p q : Project) : Prop where
  declaredIds : List.Subperm q.declaredIds p.declaredIds
  references : (q.references.map Reference.id).Sublist (p.references.map Reference.id)
  named : ∀ entry ∈ q.named, ∃ name, (entry.1, name) ∈ p.named ∧
    entry.2 = (names entry.1).getD name
  children : ∀ d ∈ q.declarations, ∀ child ∈ d.children,
    (child.references = [] ∧ child.method?.isSome = false) ∨
      ∃ e ∈ p.declarations, ∃ old ∈ e.children, child.StandsFor names old

namespace Keeps

variable {names : ElementId → Option String} {p q : Project}

/-- References that are kept are old ones under new names. -/
theorem exists_reference (h : Keeps names p q) {d : Declaration} {child : Child} {r : Reference}
    (hd : d ∈ q.declarations) (hchild : child ∈ d.children) (hr : r ∈ child.references) :
    ∃ e ∈ p.declarations, ∃ old ∈ e.children, child.StandsFor names old ∧
      ∃ s ∈ old.references, r = s.renamedBy names := by
  rcases h.children d hd child hchild with ⟨hnone, _⟩ | ⟨e, he, old, hold, hstands⟩
  · rw [hnone] at hr
    cases hr
  · rw [hstands.references] at hr
    obtain ⟨s, hs, rfl⟩ := List.mem_map.mp hr
    exact ⟨e, he, old, hold, hstands, s, hs, rfl⟩

private theorem scope (h : Keeps names p q) (hp : p.WellFormed) (hq : q.DistinctElements)
    {m : Method} {d : Declaration} {child : Child} {r : Reference} (hm : m ∈ q.methods)
    (hd : d ∈ q.declarations) (hchild : child ∈ d.children) (hr : r ∈ child.references)
    (htarget : r.target ∈ m.parameters.map Parameter.id) : child = .method m := by
  obtain ⟨owner, howner, hm⟩ := mem_methods_iff.mp hm
  rw [Declaration.mem_methods_iff] at hm
  obtain ⟨_, hno⟩ | ⟨e, he, old, hold, hstandsM⟩ := h.children owner howner _ hm
  · cases hno
  obtain ⟨m', rfl, hid, hparameters⟩ := hstandsM.exists_method
  obtain ⟨e', he', old', hold', hstands, s, hs, rfl⟩ := h.exists_reference hd hchild hr
  have hm' : m' ∈ p.methods := mem_methods_iff.mpr ⟨e, he, Declaration.mem_methods_iff.mpr hold⟩
  have hsame := hp.scope m' hm' e' he' old' hold' s hs (hparameters ▸ htarget)
  subst hsame
  have hids : child.declaredIds = (Child.method m).declaredIds :=
    hstands.declaredIds.trans hstandsM.declaredIds.symm
  have hmId : m.id ∈ (Child.method m).declaredIds := List.mem_cons_self
  exact hq.child_eq hd howner hchild hm (hids ▸ hmId) hmId

/-- What is kept of a well-formed project is well formed. -/
theorem wellFormed (h : Keeps names p q) (hp : p.WellFormed) : q.WellFormed := by
  have hreferences : ∀ r ∈ q.references, ∃ s ∈ p.references, r = s.renamedBy names := by
    intro r hr
    obtain ⟨d, hd, hr⟩ := mem_references_iff.mp hr
    obtain ⟨child, hchild, hr⟩ := List.mem_flatMap.mp hr
    obtain ⟨e, he, old, hold, _, s, hs, rfl⟩ := h.exists_reference hd hchild hr
    exact ⟨s, mem_references_iff.mpr ⟨e, he, List.mem_flatMap.mpr ⟨old, hold, hs⟩⟩, rfl⟩
  have helements : q.DistinctElements := by
    obtain ⟨kept, hperm, hkept⟩ := h.declaredIds
    exact hperm.nodup_iff.mp (hkept.nodup hp.elements)
  refine ⟨helements, ?_, h.references.nodup hp.references, ?_, ?_⟩
  · intro r hr
    obtain ⟨s, hs, rfl⟩ := hreferences r hr
    exact hp.assigned s hs
  · intro m hm d hd child hchild r hr htarget
    exact h.scope hp helements hm hd hchild hr htarget
  · intro r hr entry hentry htarget
    obtain ⟨s, hs, rfl⟩ := hreferences r hr
    obtain ⟨oldName, hold, hnew⟩ := h.named entry hentry
    have hspelled : s.name = oldName := hp.spelling s hs _ hold htarget
    rw [hnew, Reference.name_renamedBy, hspelled, htarget, Reference.target_renamedBy]

end Keeps

end Project

end ClassToRecord
