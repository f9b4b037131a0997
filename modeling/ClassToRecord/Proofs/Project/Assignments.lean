import ClassToRecord.Proofs.Project.Calls

namespace ClassToRecord

namespace Code

/-- A row of fragments that is no assignment is none after its references have changed. -/
private theorem map_mapReference_ne {f : Reference → Reference} {first : Fragment}
    {rest : List Fragment}
    (h : ∀ lhs op rhs stop tail, first = .ref lhs →
      rest = .text op :: .ref rhs :: .text stop :: tail → False)
    (lhs : Reference) (op : String) (rhs : Reference) (stop : String) (tail : List Fragment)
    (hfirst : first.mapReference f = .ref lhs)
    (hrest : rest.map (Fragment.mapReference f) = .text op :: .ref rhs :: .text stop :: tail) :
    False := by
  have href : ∀ {fragment : Fragment} {r : Reference}, fragment.mapReference f = .ref r →
      ∃ s, fragment = .ref s := by
    intro fragment r hfragment
    cases fragment with
    | ref s => exact ⟨s, rfl⟩
    | text s => cases hfragment
  have htext : ∀ {fragment : Fragment} {s : String}, fragment.mapReference f = .text s →
      fragment = .text s := by
    intro fragment s hfragment
    cases fragment with
    | ref r => cases hfragment
    | text s => exact hfragment
  obtain ⟨old, rfl⟩ := href hfirst
  obtain ⟨opOld, rest, rfl, hop, hrest⟩ := List.map_eq_cons_iff.mp hrest
  obtain ⟨rhsOld, rest, rfl, hrhs, hrest⟩ := List.map_eq_cons_iff.mp hrest
  obtain ⟨stopOld, rest, rfl, hstop, -⟩ := List.map_eq_cons_iff.mp hrest
  obtain ⟨value, rfl⟩ := href hrhs
  rw [htext hop, htext hstop] at h
  exact h old op value stop rest rfl rfl

/-- Which assignments code has depends on the targets of its references only. -/
theorem assignments_mapReferences {f : Reference → Reference} (hf : ∀ r, (f r).target = r.target)
    (c : Code) : (c.mapReferences f).assignments = c.assignments := by
  have hgo : ∀ fragments, assignments.go (fragments.map (Fragment.mapReference f)) =
      assignments.go fragments := by
    intro fragments
    induction fragments using assignments.go.induct with
    | case1 => rfl
    | case2 lhs op rhs stop tail hassignment ih =>
      simp only [List.map_cons, Fragment.mapReference, assignments.go] at ih ⊢
      rw [if_pos hassignment, if_pos hassignment, ih, hf, hf]
    | case3 lhs op rhs stop tail hother ih =>
      simp only [List.map_cons, Fragment.mapReference, assignments.go] at ih ⊢
      rw [if_neg hother, if_neg hother, ih]
    | case4 first rest hother ih =>
      rw [assignments.go.eq_3 first rest hother, List.map_cons,
        assignments.go.eq_3 _ _ (map_mapReference_ne hother), ih]
  exact hgo c.fragments

theorem assignments_number (last : Nat) (code : Code) :
    (code.number last).1.assignments = code.assignments := by
  have hunnumbered : ∀ c : Code,
      (c.mapReferences fun r => { r with id := .unassigned }).assignments = c.assignments :=
    assignments_mapReferences fun _ => rfl
  have hsame : (code.number last).1.mapReferences (fun r => { r with id := .unassigned }) =
      code.mapReferences fun r => { r with id := .unassigned } :=
    congrArg Code.mk (map_fragments_number _ (fun _ _ => rfl) last code)
  rw [← hunnumbered, hsame, hunnumbered]

end Code

namespace DeclarationBuilder

/-- The statements that store parameters in fields. -/
def assigning : List (Field × Parameter) → Code
  | [] => ⟨[]⟩
  | (f, parameter) :: rest => assignment f parameter ++ assigning rest

/-- The body of a constructor with these statements. -/
def constructorBody (pairs : List (Field × Parameter)) : Code :=
  Code.ofText " \x7b" ++ assigning pairs ++ Code.ofText "\n    \x7d"

/-- Its assignments are those. -/
theorem assignments_constructorBody (pairs : List (Field × Parameter)) :
    (constructorBody pairs).assignments =
      pairs.map fun (f, parameter) => (f.id, parameter.id) := by
  have hop : Text.trimmed " = " = ['='] := by decide
  have hstop : Text.firstVisible? ";" = some ';' := by decide
  have htext : ∀ s rest, Code.assignments.go (.text s :: rest) = Code.assignments.go rest :=
    fun s rest => Code.assignments.go.eq_3 (.text s) rest nofun
  have hgo : ∀ pairs, Code.assignments.go
      ((assigning pairs).fragments ++ [.text "\n    \x7d"]) =
        pairs.map fun (f, parameter) => (f.id, parameter.id) := by
    intro pairs
    induction pairs with
    | nil => rfl
    | cons pair rest ih =>
      obtain ⟨f, parameter⟩ := pair
      -- a statement ends before the next one, or the brace, begins, and both begin with text
      have hvalue : ∀ r, Code.assignments.go
          (.ref r :: .text ";" :: ((assigning rest).fragments ++ [.text "\n    \x7d"])) =
            Code.assignments.go ((assigning rest).fragments ++ [.text "\n    \x7d"]) := by
        intro r
        rw [Code.assignments.go.eq_3, htext]
        intro lhs op rhs stop tail _ hrest
        cases rest <;> cases hrest
      have hstatement : (assigning ((f, parameter) :: rest)).fragments =
          [.text "\n        this.", .ref ⟨.unassigned, f.id, f.name⟩, .text " = ",
            .ref ⟨.unassigned, parameter.id, f.name⟩, .text ";"] ++ (assigning rest).fragments := rfl
      rw [hstatement, List.append_assoc, List.cons_append, htext]
      simp only [List.cons_append, List.nil_append, Code.assignments.go.eq_2, hop, hstop, and_self,
        if_true, htext, hvalue, ih, List.map_cons]
  exact hgo pairs

/-- Its references are to the fields and to the parameters, under the names of the fields. -/
theorem exists_pair_of_mem_references {pairs : List (Field × Parameter)} {r : Reference}
    (hr : r ∈ (constructorBody pairs).references) :
    ∃ pair ∈ pairs, r.name = pair.1.name ∧ (r.target = pair.1.id ∨ r.target = pair.2.id) := by
  have hreferences : (constructorBody pairs).references =
      pairs.flatMap fun (f, parameter) =>
        [⟨.unassigned, f.id, f.name⟩, ⟨.unassigned, parameter.id, f.name⟩] := by
    have hassigning : ∀ pairs, (assigning pairs).references =
        pairs.flatMap fun (f, parameter) =>
          [⟨.unassigned, f.id, f.name⟩, ⟨.unassigned, parameter.id, f.name⟩] := by
      intro pairs
      induction pairs with
      | nil => rfl
      | cons pair rest ih => exact congrArg (_ :: _ :: ·) ih
    rw [← hassigning pairs]
    exact List.filterMap_append.trans (List.append_nil _)
  rw [hreferences, List.mem_flatMap] at hr
  obtain ⟨pair, hpair, hr⟩ := hr
  refine ⟨pair, hpair, ?_⟩
  obtain rfl | hr := List.mem_cons.mp hr
  · exact ⟨rfl, .inl rfl⟩
  · rw [List.mem_singleton.mp hr]
    exact ⟨rfl, .inr rfl⟩

/-- New parameters for some fields: each has the type and the name of its field, and an id that has
    not been given out before. -/
structure TakesFields (b : DeclarationBuilder) (fields : List Field)
    (parameters : List Parameter) : Prop where
  known : ∀ f ∈ fields, f ∈ b.declaration.fields
  alike : List.Forall₂ (fun f parameter => parameter.type = f.type ∧ parameter.name = f.name)
    fields parameters
  distinct : (parameters.map Parameter.id).Nodup
  fresh : ∀ id ∈ parameters.map Parameter.id, b.project.lastElement < id.index

/-- A builder that knows the fields makes the parameters and the statements for them. -/
theorem assignFields_eq_ok {b : DeclarationBuilder} {ids : List ElementId}
    {parameters : List Parameter} {body : Code}
    (h : (b.assignFields ids).1 = .ok (parameters, body)) :
    ∃ fields, fields.map Field.id = ids ∧ b.TakesFields fields parameters ∧
      body = assigning (fields.zip parameters) := by
  induction ids generalizing b parameters body with
  | nil =>
    cases h
    exact ⟨[], rfl, ⟨nofun, .nil, List.nodup_nil, nofun⟩, rfl⟩
  | cons id rest ih =>
    rw [assignFields] at h
    split at h
    · cases h
    · next f hf =>
      obtain ⟨⟨others, code⟩, hothers, hpair⟩ := Traversal.map_eq_ok_iff.mp h
      cases hpair
      obtain ⟨fields, hids, htakes, rfl⟩ := ih hothers
      have hfound := Traversal.orRefuse_eq_ok_iff.mp hf
      rw [Declaration.field?] at hfound
      have hmember : f ∈ b.declaration.fields := List.mem_of_find?_eq_some hfound
      have hmatch := List.find?_some hfound
      have hid : f.id = id := of_decide_eq_true hmatch
      have hfresh : ∀ x ∈ others.map Parameter.id, b.project.lastElement + 1 < x.index :=
        htakes.fresh
      refine ⟨f :: fields, ?_, ⟨?_, ?_, ?_, ?_⟩, rfl⟩
      · rw [List.map_cons, hid, hids]
      · exact List.forall_mem_cons.mpr ⟨hmember, htakes.known⟩
      · exact .cons ⟨rfl, rfl⟩ htakes.alike
      · refine List.nodup_cons.mpr ⟨fun hin => ?_, htakes.distinct⟩
        exact absurd (hfresh _ hin) (Nat.lt_irrefl _)
      · exact List.forall_mem_cons.mpr
          ⟨Nat.lt_succ_self _, fun x hx => Nat.lt_of_succ_lt (hfresh x hx)⟩

end DeclarationBuilder

end ClassToRecord
