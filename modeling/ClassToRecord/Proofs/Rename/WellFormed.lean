import ClassToRecord.Proofs.Project.WellFormed
import ClassToRecord.Proofs.Rename.Phase
import ClassToRecord.Proofs.Rename.Respelling

namespace ClassToRecord

variable {p : Project} {names : ElementId → Option String}

private theorem names_eq_none_of_not_isMember (hp : p.DistinctElements)
    (hmembers : ∀ id, (names id).isSome = true → ∃ d ∈ p.declarations, d.hasMember id = true)
    {d : Declaration} {child : Child} {id : ElementId} (hd : d ∈ p.declarations)
    (hchild : child ∈ d.children) (hid : id ∈ child.declaredIds)
    (hnot : child.isMember id = false) : names id = none := by
  cases hname : names id with
  | none => rfl
  | some name =>
    obtain ⟨e, he, hmember⟩ := hmembers id (by rw [hname, Option.isSome_some])
    obtain ⟨other, hother, hmember⟩ := List.any_eq_true.mp hmember
    have hsame := hp.child_eq hd he hchild hother hid (Child.mem_declaredIds_of_isMember hmember)
    rw [hsame, hmember] at hnot
    cases hnot

private theorem Child.named_renamedBy {child : Child} {entry : ElementId × String}
    (hnames : ∀ id ∈ child.declaredIds, child.isMember id = false → names id = none)
    (hids : child.declaredIds.Nodup) (h : entry ∈ (child.renamedBy names).named) :
    ∃ name, (entry.1, name) ∈ child.named ∧ entry.2 = (names entry.1).getD name := by
  cases child with
  | field f =>
    cases List.mem_singleton.mp h
    exact ⟨f.name, List.mem_singleton_self _, rfl⟩
  | method m =>
    rcases List.mem_cons.mp h with rfl | h
    · exact ⟨m.name, List.mem_cons_self, rfl⟩
    · refine ⟨entry.2, List.mem_cons_of_mem _ h, ?_⟩
      obtain ⟨q, hq, rfl⟩ := List.mem_map.mp h
      have hqId : q.id ∈ m.parameters.map Parameter.id := List.mem_map_of_mem hq
      have hne : (Child.method m).isMember q.id = false := by
        refine decide_eq_false fun heq => ?_
        exact (List.nodup_cons.mp hids).1 (heq ▸ hqId)
      rw [hnames q.id (List.mem_cons_of_mem _ hqId) hne, Option.getD_none]
  | header components =>
    refine ⟨entry.2, h, ?_⟩
    obtain ⟨q, hq, rfl⟩ := List.mem_map.mp h
    rw [hnames q.id (List.mem_map_of_mem hq) rfl, Option.getD_none]
  | _ => cases h

private theorem Child.standsFor_renamedBy (child : Child) :
    (child.renamedBy names).StandsFor names child := by
  refine ⟨child.references_renamedBy names, child.declaredIds_renamedBy names, ?_⟩
  cases child <;> rfl

/-- New names for fields and methods keep a whole project. -/
theorem Project.keeps_renamedBy (hp : p.DistinctElements)
    (hmembers : ∀ id, (names id).isSome = true → ∃ d ∈ p.declarations, d.hasMember id = true) :
    Keeps names p (p.renamedBy names) := by
  refine ⟨?_, ?_, ?_, ?_⟩
  · rw [declaredIds_renamedBy]
  · rw [references_renamedBy, List.map_map]
    exact List.Sublist.refl _
  · intro entry hentry
    obtain ⟨d', hd', hentry⟩ := List.mem_flatMap.mp hentry
    obtain ⟨d, hd, rfl⟩ := List.mem_map.mp hd'
    obtain ⟨child', hchild', hentry⟩ := List.mem_flatMap.mp hentry
    obtain ⟨child, hchild, rfl⟩ := List.mem_map.mp hchild'
    obtain ⟨name, hname, hnew⟩ := Child.named_renamedBy
      (fun id hid hnot => names_eq_none_of_not_isMember hp hmembers hd hchild hid hnot)
      (hp.child_nodup hd hchild) hentry
    exact ⟨name, List.mem_flatMap.mpr ⟨d, hd, List.mem_flatMap.mpr ⟨child, hchild, hname⟩⟩, hnew⟩
  · intro d' hd' child' hchild'
    obtain ⟨d, hd, rfl⟩ := List.mem_map.mp hd'
    obtain ⟨child, hchild, rfl⟩ := List.mem_map.mp hchild'
    exact .inr ⟨d, hd, child, hchild, child.standsFor_renamedBy⟩

/-- Renames with the sites that were collected for them leave a project well formed. -/
theorem Project.WellFormed.of_renamesTo {p q : Project} {acc : CollectedUsages} (hp : p.WellFormed)
    (hcovers : acc.Covers p) (hrun : RenamesTo (sitesOf acc.usages) p acc.plan.entries q) :
    q.WellFormed := by
  rw [renamedBy_of_renamesTo hcovers hp.elements hp.references hrun]
  refine (keeps_renamedBy hp.elements fun id hid => ?_).wellFormed hp
  exact hrun.exists_hasMember id (OrderedMap.isSome_get?_iff.mp hid)

end ClassToRecord
