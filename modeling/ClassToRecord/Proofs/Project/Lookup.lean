import ClassToRecord.Project.Basic
import Mathlib.Data.List.Flatten
import Mathlib.Data.List.Nodup
import Mathlib.Data.List.Pairwise

namespace ClassToRecord

/-- Where at most one element of a list passes a test, a search finds exactly that one. -/
theorem find?_eq_some_iff_of_unique {α : Type} {l : List α} {test : α → Bool} {a : α}
    (hunique : ∀ b ∈ l, ∀ c ∈ l, test b = true → test c = true → b = c) :
    l.find? test = some a ↔ a ∈ l ∧ test a = true := by
  constructor
  · intro h
    exact ⟨List.mem_of_find?_eq_some h, List.find?_some h⟩
  · rintro ⟨hmem, htest⟩
    cases hfind : l.find? test with
    | none => exact absurd htest (by simpa using List.find?_eq_none.mp hfind a hmem)
    | some b =>
      have hb := hunique b (List.mem_of_find?_eq_some hfind) a hmem (List.find?_some hfind) htest
      rw [hb]

/-- Where no two elements have the same key, a search for a key finds the element that has it. -/
theorem find?_eq_some_iff_of_nodup_map {α κ : Type} [DecidableEq κ] (key : α → κ) {l : List α}
    (h : (l.map key).Nodup) {k : κ} {a : α} :
    l.find? (key · = k) = some a ↔ a ∈ l ∧ key a = k := by
  rw [find?_eq_some_iff_of_unique, decide_eq_true_iff]
  intro b hb c hc hbk hck
  exact List.inj_on_of_nodup_map h hb hc
    ((of_decide_eq_true hbk).trans (of_decide_eq_true hck).symm)

/-- Where no item is repeated, each item comes from one element of a list only. -/
theorem eq_of_nodup_flatMap {α β : Type} {l : List α} {f : α → List β} (h : (l.flatMap f).Nodup)
    {a b : α} {x : β} (ha : a ∈ l) (hb : b ∈ l) (hxa : x ∈ f a) (hxb : x ∈ f b) : a = b := by
  by_contra hne
  have hsymm : Std.Symm (Function.onFun List.Disjoint f) :=
    ⟨fun _ _ hxy => List.disjoint_symm hxy⟩
  exact (List.nodup_flatMap.mp h).2.forall ha hb hne hxa hxb

/-- What goes for the ids of some references goes for those of references with fewer ids. -/
theorem Reference.forall_id_of_subset (P : RefId → Prop) {rs ss : List Reference}
    (h : rs.map Reference.id ⊆ ss.map Reference.id) (hss : ∀ s ∈ ss, P s.id) :
    ∀ r ∈ rs, P r.id := by
  intro r hr
  obtain ⟨s, hs, hid⟩ := List.mem_map.mp (h (List.mem_map_of_mem hr))
  rw [← hid]
  exact hss s hs

namespace Declaration

theorem declares_iff {d : Declaration} {id : ElementId} :
    d.declares id = true ↔ id ∈ d.declaredIds := by
  simp [declares]

theorem declares_id (d : Declaration) : d.declares d.id = true := by
  simp [declares, declaredIds]

theorem mem_methods_iff {d : Declaration} {m : Method} :
    m ∈ d.methods ↔ Child.method m ∈ d.children := by
  simp only [methods, List.mem_filterMap]
  constructor
  · rintro ⟨child, hchild, hm⟩
    cases child with
    | method m' =>
      cases hm
      exact hchild
    | _ => cases hm
  · intro h
    exact ⟨.method m, h, rfl⟩

theorem mem_fields_iff {d : Declaration} {f : Field} :
    f ∈ d.fields ↔ Child.field f ∈ d.children := by
  simp only [fields, List.mem_filterMap]
  constructor
  · rintro ⟨child, hchild, hf⟩
    cases child with
    | field f' =>
      cases hf
      exact hchild
    | _ => cases hf
  · intro h
    exact ⟨.field f, h, rfl⟩

theorem of_method?_eq_some {d : Declaration} {id : ElementId} {m : Method}
    (h : d.method? id = some m) : Child.method m ∈ d.children ∧ m.id = id := by
  rw [method?] at h
  have hid := List.find?_some h
  exact ⟨mem_methods_iff.mp (List.mem_of_find?_eq_some h), of_decide_eq_true hid⟩

theorem mem_declaredIds_of_mem_children {d : Declaration} {child : Child} {id : ElementId}
    (hchild : child ∈ d.children) (hid : id ∈ child.declaredIds) : id ∈ d.declaredIds :=
  List.mem_cons_of_mem _ (List.mem_flatMap.mpr ⟨child, hchild, hid⟩)

/-- A declaration has the references of the code in its children. -/
theorem mem_references_of_code? {d : Declaration} {child : Child} {c : Code} {r : Reference}
    (hchild : child ∈ d.children) (hcode : child.code? = some c) (hr : r ∈ c.references) :
    r ∈ d.references := by
  refine List.mem_flatMap.mpr ⟨child, hchild, ?_⟩
  rw [Child.references, hcode]
  exact hr

/-- A declaration declares its methods. -/
theorem declares_of_mem_methods {d : Declaration} {m : Method} (hm : m ∈ d.methods) :
    d.declares m.id = true :=
  declares_iff.mpr (mem_declaredIds_of_mem_children (mem_methods_iff.mp hm) List.mem_cons_self)

end Declaration

namespace Project

/-- The elements of all declarations: the declarations themselves, members, parameters and
    components. -/
def declaredIds (p : Project) : List ElementId := p.declarations.flatMap Declaration.declaredIds

/-- No element is declared twice. -/
def DistinctElements (p : Project) : Prop := p.declaredIds.Nodup

/-- No two reference fragments share an id. -/
def DistinctReferences (p : Project) : Prop := (p.references.map Reference.id).Nodup

instance (p : Project) : Decidable p.DistinctElements := inferInstanceAs (Decidable (List.Nodup _))

instance (p : Project) : Decidable p.DistinctReferences :=
  inferInstanceAs (Decidable (List.Nodup _))

theorem mem_methods_iff {p : Project} {m : Method} :
    m ∈ p.methods ↔ ∃ d ∈ p.declarations, m ∈ d.methods := List.mem_flatMap

theorem mem_references_iff {p : Project} {r : Reference} :
    r ∈ p.references ↔ ∃ d ∈ p.declarations, r ∈ d.references := List.mem_flatMap

theorem isSome_declaration?_iff {p : Project} {id : ElementId} :
    (p.declaration? id).isSome = true ↔ id ∈ p.declarationIds := by
  simp [declaration?, declarationIds]

/-- Where the ids of the declarations differ, each declaration is found by its id. -/
theorem declaration?_eq_some_of_nodup {p : Project} (h : p.declarationIds.Nodup) {d : Declaration}
    (hd : d ∈ p.declarations) : p.declaration? d.id = some d := by
  rw [declaration?, find?_eq_some_iff_of_unique]
  · exact ⟨hd, decide_eq_true rfl⟩
  · intro a ha b hb haId hbId
    exact List.inj_on_of_nodup_map h ha hb
      ((of_decide_eq_true haId).trans (of_decide_eq_true hbId).symm)

/-- Whatever a look-up finds is a declared method with the id. -/
theorem of_method?_eq_some {p : Project} {id : ElementId} {m : Method}
    (h : p.method? id = some m) : m ∈ p.methods ∧ m.id = id := by
  obtain ⟨home, hhome, hmethod⟩ := Option.bind_eq_some_iff.mp h
  obtain ⟨owner, _, hdeclaration⟩ := Option.bind_eq_some_iff.mp hhome
  obtain ⟨hchild, hid⟩ := Declaration.of_method?_eq_some hmethod
  have hmem := List.mem_of_find?_eq_some hdeclaration
  exact ⟨mem_methods_iff.mpr ⟨home, hmem, Declaration.mem_methods_iff.mpr hchild⟩, hid⟩

/-- Whatever a look-up finds is a declared field with the id. -/
theorem of_field?_eq_some {p : Project} {id : ElementId} {f : Field} (h : p.field? id = some f) :
    (∃ d ∈ p.declarations, Child.field f ∈ d.children) ∧ f.id = id := by
  obtain ⟨home, hhome, hfield⟩ := Option.bind_eq_some_iff.mp h
  obtain ⟨owner, _, hdeclaration⟩ := Option.bind_eq_some_iff.mp hhome
  rw [Declaration.field?] at hfield
  have hid := List.find?_some hfield
  exact ⟨⟨home, List.mem_of_find?_eq_some hdeclaration,
    Declaration.mem_fields_iff.mp (List.mem_of_find?_eq_some hfield)⟩, of_decide_eq_true hid⟩

namespace DistinctElements

variable {p : Project}

/-- An element is declared in one place only. -/
theorem eq_of_declares (h : p.DistinctElements) {d e : Declaration} {id : ElementId}
    (hd : d ∈ p.declarations) (he : e ∈ p.declarations) (hdid : d.declares id = true)
    (heid : e.declares id = true) : d = e :=
  eq_of_nodup_flatMap h hd he (Declaration.declares_iff.mp hdid) (Declaration.declares_iff.mp heid)

/-- What a declaration declares is not declared beside it. -/
theorem not_mem_of_mem_rest (h : p.DistinctElements) {before after : List Declaration}
    {d e : Declaration} (hsplit : p.declarations = before ++ d :: after)
    (he : e ∈ before ++ after) {id : ElementId} (hid : id ∈ d.declaredIds) :
    id ∉ e.declaredIds := by
  have hperm : List.Perm p.declarations (d :: (before ++ after)) := hsplit ▸ List.perm_middle
  have hnodup := (hperm.flatMap_right Declaration.declaredIds).nodup_iff.mp h
  rw [List.flatMap_cons, List.nodup_append] at hnodup
  intro hother
  exact hnodup.2.2 id hid id (List.mem_flatMap.mpr ⟨e, he, hother⟩) rfl

/-- The owner of an element is the declaration that declares it. -/
theorem owner?_eq_some_iff (h : p.DistinctElements) {d : Declaration} {id : ElementId} :
    p.owner? id = some d ↔ d ∈ p.declarations ∧ d.declares id = true :=
  find?_eq_some_iff_of_unique fun _ hb _ hc hbid hcid => h.eq_of_declares hb hc hbid hcid

/-- The ids inside one declaration differ. -/
theorem declaredIds_nodup (h : p.DistinctElements) {d : Declaration} (hd : d ∈ p.declarations) :
    d.declaredIds.Nodup :=
  (List.nodup_flatMap.mp h).1 d hd

/-- So do those inside one child. -/
theorem child_nodup (h : p.DistinctElements) {d : Declaration} {child : Child}
    (hd : d ∈ p.declarations) (hchild : child ∈ d.children) : child.declaredIds.Nodup :=
  (List.nodup_flatMap.mp (List.nodup_cons.mp (h.declaredIds_nodup hd)).2).1 child hchild

/-- A declared element belongs to one child only. -/
theorem child_eq (h : p.DistinctElements) {d e : Declaration} {child other : Child}
    {id : ElementId} (hd : d ∈ p.declarations) (he : e ∈ p.declarations)
    (hchild : child ∈ d.children) (hother : other ∈ e.children) (hid : id ∈ child.declaredIds)
    (hotherId : id ∈ other.declaredIds) : child = other := by
  have hsame : d = e := h.eq_of_declares hd he
    (Declaration.declares_iff.mpr (Declaration.mem_declaredIds_of_mem_children hchild hid))
    (Declaration.declares_iff.mpr (Declaration.mem_declaredIds_of_mem_children hother hotherId))
  subst hsame
  have hchildren := (List.nodup_cons.mp (h.declaredIds_nodup hd)).2
  exact eq_of_nodup_flatMap hchildren hchild hother hid hotherId

/-- A method is found by its id where it is declared. -/
theorem method?_eq_some (h : p.DistinctElements) {d : Declaration} {m : Method}
    (hd : d ∈ p.declarations) (hm : Child.method m ∈ d.children) : d.method? m.id = some m := by
  rw [Declaration.method?, find?_eq_some_iff_of_unique]
  · exact ⟨Declaration.mem_methods_iff.mpr hm, decide_eq_true rfl⟩
  · intro a ha b hb haId hbId
    rw [Declaration.mem_methods_iff] at ha hb
    have hid : b.id = a.id := (of_decide_eq_true hbId).trans (of_decide_eq_true haId).symm
    exact Child.method.inj
      (h.child_eq hd hd ha hb (.head _) (List.mem_cons.mpr (.inl hid.symm)))

/-- Declarations are found by their ids. -/
theorem declaration?_eq_some_iff (h : p.DistinctElements) {d : Declaration} {id : ElementId} :
    p.declaration? id = some d ↔ d ∈ p.declarations ∧ d.id = id := by
  rw [declaration?, find?_eq_some_iff_of_unique, decide_eq_true_iff]
  intro a ha b hb haId hbId
  have hid : a.id = b.id := (of_decide_eq_true haId).trans (of_decide_eq_true hbId).symm
  exact h.eq_of_declares ha hb a.declares_id (hid ▸ b.declares_id)

/-- The ids of the declarations themselves differ. -/
theorem declarationIds_nodup (h : p.DistinctElements) : p.declarationIds.Nodup := by
  have hsublist : List.Sublist p.declarationIds p.declaredIds := by
    rw [declarationIds, List.map_eq_flatMap]
    exact List.Sublist.flatMap_right _ fun d _ => List.singleton_sublist.mpr List.mem_cons_self
  exact hsublist.nodup h

/-- Members are looked up in the declaration that declares them. -/
theorem home?_eq_some (h : p.DistinctElements) {d : Declaration} {id : ElementId}
    (hd : d ∈ p.declarations) (hid : d.declares id = true) : p.home? id = some d := by
  rw [home?, containing?, h.owner?_eq_some_iff.mpr ⟨hd, hid⟩]
  exact h.declaration?_eq_some_iff.mpr ⟨hd, rfl⟩

/-- The methods of a project are found by their ids. -/
theorem method?_eq_some_iff (h : p.DistinctElements) {m : Method} {id : ElementId} :
    p.method? id = some m ↔ m ∈ p.methods ∧ m.id = id := by
  refine ⟨of_method?_eq_some, ?_⟩
  rintro ⟨hm, rfl⟩
  obtain ⟨d, hd, hm⟩ := mem_methods_iff.mp hm
  rw [Project.method?, h.home?_eq_some hd (Declaration.declares_of_mem_methods hm)]
  exact h.method?_eq_some hd (Declaration.mem_methods_iff.mp hm)

/-- So are its fields. -/
theorem field?_eq_some (h : p.DistinctElements) {d : Declaration} {f : Field}
    (hd : d ∈ p.declarations) (hf : Child.field f ∈ d.children) : p.field? f.id = some f := by
  have hdeclares := Declaration.declares_iff.mpr
    (Declaration.mem_declaredIds_of_mem_children hf List.mem_cons_self)
  rw [Project.field?, h.home?_eq_some hd hdeclares, Option.bind_some, Declaration.field?,
    find?_eq_some_iff_of_unique]
  · exact ⟨Declaration.mem_fields_iff.mpr hf, decide_eq_true rfl⟩
  · intro a ha b hb haId hbId
    rw [Declaration.mem_fields_iff] at ha hb
    have hid : b.id = a.id := (of_decide_eq_true hbId).trans (of_decide_eq_true haId).symm
    exact Child.field.inj
      (h.child_eq hd hd ha hb (.head _) (List.mem_cons.mpr (.inl hid.symm)))

/-- A method has another id than a field. -/
theorem id_ne_of_field (h : p.DistinctElements) {d : Declaration} {f : Field} {m : Method}
    (hd : d ∈ p.declarations) (hf : Child.field f ∈ d.children) (hm : m ∈ p.methods) :
    m.id ≠ f.id := by
  intro hid
  obtain ⟨e, he, hm⟩ := mem_methods_iff.mp hm
  have hsame := h.child_eq hd he hf (Declaration.mem_methods_iff.mp hm) List.mem_cons_self
    (hid ▸ List.mem_cons_self)
  cases hsame

/-- A method is no declaration. -/
theorem declaration?_eq_none_of_method (h : p.DistinctElements) {m : Method} (hm : m ∈ p.methods) :
    p.declaration? m.id = none := by
  rw [Option.eq_none_iff_forall_ne_some]
  intro e he
  obtain ⟨he, hid⟩ := h.declaration?_eq_some_iff.mp he
  obtain ⟨d, hd, hm⟩ := mem_methods_iff.mp hm
  obtain rfl := h.eq_of_declares hd he (Declaration.declares_of_mem_methods hm)
    (hid ▸ e.declares_id)
  refine (List.nodup_cons.mp (h.declaredIds_nodup hd)).1 (List.mem_flatMap.mpr ?_)
  exact ⟨_, Declaration.mem_methods_iff.mp hm, hid ▸ List.mem_cons_self⟩

/-- Nor is it a field. -/
theorem field?_eq_none_of_method (h : p.DistinctElements) {m : Method} (hm : m ∈ p.methods) :
    p.field? m.id = none := by
  rw [Option.eq_none_iff_forall_ne_some]
  intro f hf
  obtain ⟨⟨d, hd, hf⟩, hid⟩ := of_field?_eq_some hf
  exact h.id_ne_of_field hd hf hm hid.symm

/-- So a method is as visible as its own modifiers say. -/
theorem visibility?_eq_some_of_method (h : p.DistinctElements) {m : Method} (hm : m ∈ p.methods) :
    p.visibility? m.id = some m.modifiers.visibility := by
  rw [visibility?, h.declaration?_eq_none_of_method hm, h.field?_eq_none_of_method hm,
    h.method?_eq_some_iff.mpr ⟨hm, rfl⟩]
  rfl

/-- Two methods with one id are the same method. -/
theorem method_eq (h : p.DistinctElements) {m e : Method} (hm : m ∈ p.methods)
    (he : e ∈ p.methods) (hid : m.id = e.id) : m = e :=
  Option.some.inj ((h.method?_eq_some_iff.mpr ⟨hm, hid⟩).symm.trans
    (h.method?_eq_some_iff.mpr ⟨he, rfl⟩))

end DistinctElements

end Project

end ClassToRecord
