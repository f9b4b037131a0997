import ClassToRecord.Proofs.Hierarchy
import ClassToRecord.Proofs.Traversal
import Mathlib.Data.List.Chain
import Mathlib.Data.List.Perm.Subperm
import Mathlib.Logic.Function.Iterate

open Relation ClassToRecord.Traversal

namespace ClassToRecord

namespace Project

/-- One round of the search for overriders. It looks at the next method among those found so far,
    and whatever overrides that one directly and is new is found with it. -/
def searchRound (p : Project) : List ElementId × Nat → List ElementId × Nat
  | (found, next) =>
    match found[next]? with
    | none => (found, next)
    | some method => (found ++ newOnes found (p.overriders method), next + 1)

/-- One round of the climb: a step up to the first super method, unless the climb has been there. -/
def climbRound (p : Project) : List ElementId × ElementId → List ElementId × ElementId
  | (visited, current) =>
    match (p.superMethods current).head? with
    | none => (visited, current)
    | some next => if next ∈ visited then (visited, current) else (visited ++ [next], next)

/-- The method comes first, nothing comes twice, and the others are the declared methods from which
    super methods lead to the method, in one step or more. -/
structure ListsOverriders (p : Project) (method : ElementId) (found : List ElementId) : Prop where
  head : found.head? = some method
  nodup : found.Nodup
  mem_iff : ∀ x, x ∈ found ↔ x = method ∨
    x ∈ p.methods.map Method.id ∧ TransGen (fun a b => b ∈ p.superMethods a) x method

/-- A way up from where a climb has come to. Each step goes to the first super method, nothing is
    visited twice, and at the top there is no super method, or the first one was visited before. -/
structure ClimbsTo (p : Project) (start : List ElementId) (top : ElementId)
    (path : List ElementId) : Prop where
  starts : start <+: path
  last : path.getLast? = some top
  steps : path.IsChain fun x y => (p.superMethods x).head? = some y
  nodup : path.Nodup
  stops : p.superMethods top = [] ∨ ∃ x ∈ path, (p.superMethods top).head? = some x

variable {p : Project}

section Search

theorem descend_nodup {seen queue : List ElementId} (hseen : seen.Nodup) :
    (p.descend seen queue).Nodup := by
  fun_induction descend p seen queue with
  | case1 seen => exact hseen
  | case2 seen method rest found ih =>
    refine ih (List.nodup_append.mpr ⟨hseen, newOnes_nodup _ _, ?_⟩)
    rintro x hx y hy rfl
    exact (mem_newOnes.mp hy).2 hx

theorem hierarchy_nodup (p : Project) (method : ElementId) : (p.hierarchy method).Nodup :=
  descend_nodup (List.nodup_singleton method)

/-- Where ids differ, a look-up finds the super methods of each declared method. -/
theorem DistinctElements.overridesDirectly_iff (h : p.DistinctElements) {x y : ElementId} :
    p.OverridesDirectly x y ↔ y ∈ p.superMethods x := by
  constructor
  · rintro ⟨m, hm, rfl, hy⟩
    rwa [superMethods, h.method?_eq_some_iff.mpr ⟨hm, rfl⟩]
  · exact overridesDirectly_of_mem_superMethods

/-- What is below a method is the method itself, or it is declared and leads up to it. -/
theorem DistinctElements.overrides_iff (h : p.DistinctElements) {x method : ElementId} :
    p.Overrides x method ↔ x = method ∨
      x ∈ p.methods.map Method.id ∧ TransGen (fun a b => b ∈ p.superMethods a) x method := by
  have hlinks : p.OverridesDirectly = fun a b => b ∈ p.superMethods a := by
    funext a b
    exact propext h.overridesDirectly_iff
  rw [Overrides, reflTransGen_iff_eq_or_transGen, eq_comm, ← hlinks]
  refine or_congr_right (iff_and_self.mpr fun hbelow => ?_)
  obtain ⟨_, ⟨m, hm, hid, _⟩, _⟩ := TransGen.head'_iff.mp hbelow
  exact List.mem_map.mpr ⟨m, hm, hid⟩

theorem DistinctElements.listsOverriders (h : p.DistinctElements) (method : ElementId) :
    p.ListsOverriders method (p.hierarchy method) := by
  obtain ⟨found, hfound⟩ := p.hierarchy_eq_cons method
  exact ⟨by rw [hfound, List.head?_cons], p.hierarchy_nodup method,
    fun x => mem_hierarchy_iff.trans h.overrides_iff⟩

/-- A hierarchy has one element at most that is no declared method. -/
theorem length_hierarchy_le (p : Project) (method : ElementId) :
    (p.hierarchy method).length ≤ p.methods.length + 1 := by
  have hsubset : p.hierarchy method ⊆ method :: p.methods.map Method.id := by
    intro x hx
    rcases (mem_hierarchy_iff.mp hx).cases_head with rfl | ⟨_, ⟨m, hm, hid, _⟩, _⟩
    · exact List.mem_cons_self
    · exact List.mem_cons_of_mem _ (List.mem_map.mpr ⟨m, hm, hid⟩)
  have hle := (List.subperm_of_subset (p.hierarchy_nodup method) hsubset).length_le
  simpa using hle

/-- A search takes one round for each method that it has still to look at. -/
theorem searchRound_iterate (seen queue : List ElementId) :
    ∀ next ≤ seen.length, queue = seen.drop next →
      p.searchRound^[(p.descend seen queue).length - next] (seen, next) =
        (p.descend seen queue, (p.descend seen queue).length) := by
  fun_induction descend p seen queue with
  | case1 seen =>
    intro next hnext hqueue
    have hend : next = seen.length := le_antisymm hnext (List.drop_eq_nil_iff.mp hqueue.symm)
    rw [hend, Nat.sub_self, Function.iterate_zero, id]
  | case2 seen method rest found ih =>
    intro next hnext hqueue
    -- the queue is what has been found and not looked at, so its first method is the next one
    have hlt : next < seen.length := by
      by_contra hge
      rw [List.drop_eq_nil_of_le (Nat.not_lt.mp hge)] at hqueue
      cases hqueue
    rw [List.drop_eq_getElem_cons hlt, List.cons.injEq] at hqueue
    obtain ⟨hmethod, hrest⟩ := hqueue
    have hround : p.searchRound (seen, next) = (seen ++ found, next + 1) := by
      simp only [searchRound, List.getElem?_eq_getElem hlt, ← hmethod, found]
    have hqueue : rest ++ found = (seen ++ found).drop (next + 1) := by
      rw [List.drop_append_of_le_length hlt, hrest]
    have hinside : next + 1 ≤ (seen ++ found).length := by
      rw [List.length_append]
      omega
    obtain ⟨more, hmore⟩ := p.descend_eq_append (seen ++ found) (rest ++ found)
    have hlonger : next + 1 ≤ (p.descend (seen ++ found) (rest ++ found)).length := by
      rw [hmore, List.length_append]
      omega
    rw [← Nat.sub_add_cancel (Nat.sub_pos_of_lt hlonger), Function.iterate_succ_apply, hround,
      Nat.sub_sub]
    exact ih (next + 1) hinside hqueue

theorem searchRound_length (p : Project) (found : List ElementId) :
    p.searchRound (found, found.length) = (found, found.length) := by
  simp [searchRound]

/-- After one round more than there are methods, a search has found the hierarchy and has nothing
    left to look at. -/
theorem searchRound_iterate_of_lt (p : Project) (method : ElementId) {rounds : Nat}
    (hrounds : p.methods.length < rounds) :
    p.searchRound^[rounds] ([method], 0) = (p.hierarchy method, (p.hierarchy method).length) := by
  have hle := p.length_hierarchy_le method
  have hsearch := p.searchRound_iterate [method] [method] 0 (Nat.zero_le _) rfl
  rw [Nat.sub_zero] at hsearch
  obtain ⟨idle, rfl⟩ := Nat.exists_eq_add_of_le' (hle.trans hrounds)
  rw [Function.iterate_add_apply, hierarchy, hsearch]
  exact Function.iterate_fixed (p.searchRound_length _) idle

end Search

section Climb

/-- Wherever a climb has come to, it goes on to the top, and it takes one round for each step. -/
theorem exists_climbsTo {visited : List ElementId} {current : ElementId}
    (hlast : visited.getLast? = some current) (hnodup : visited.Nodup)
    (hsteps : visited.IsChain fun x y => (p.superMethods x).head? = some y) :
    ∃ path, p.ClimbsTo visited (p.ascend visited current) path ∧
      ∀ rounds, path.length ≤ visited.length + rounds →
        p.climbRound^[rounds] (visited, current) = (path, p.ascend visited current) := by
  fun_induction ascend p visited current with
  | case1 visited current hnone =>
    have hround : p.climbRound (visited, current) = (visited, current) := by
      simp only [climbRound, hnone]
    have hend := List.head?_eq_none_iff.mp hnone
    exact ⟨visited, ⟨List.prefix_rfl, hlast, hsteps, hnodup, .inl hend⟩,
      fun rounds _ => Function.iterate_fixed hround rounds⟩
  | case2 visited current next hnext hseen =>
    have hround : p.climbRound (visited, current) = (visited, current) := by
      simp only [climbRound, hnext, if_pos hseen]
    exact ⟨visited, ⟨List.prefix_rfl, hlast, hsteps, hnodup, .inr ⟨next, hseen, hnext⟩⟩,
      fun rounds _ => Function.iterate_fixed hround rounds⟩
  | case3 visited current next hnext hnew ih =>
    have hround : p.climbRound (visited, current) = (visited ++ [next], next) := by
      simp only [climbRound, hnext, if_neg hnew]
    have hstep : (visited ++ [next]).IsChain fun x y => (p.superMethods x).head? = some y := by
      refine List.isChain_append.mpr ⟨hsteps, List.isChain_singleton next, ?_⟩
      intro x hx y hy
      cases hlast.symm.trans hx
      cases hy
      exact hnext
    have hfresh : (visited ++ [next]).Nodup := by
      refine List.nodup_append.mpr ⟨hnodup, List.nodup_singleton next, ?_⟩
      rintro x hx y hy rfl
      exact hnew (List.mem_singleton.mp hy ▸ hx)
    obtain ⟨path, hclimbs, hrounds⟩ := ih (List.getLast?_concat ..) hfresh hstep
    obtain ⟨more, rfl⟩ := hclimbs.starts
    refine ⟨_, { hclimbs with starts := ⟨next :: more, by simp⟩ }, fun rounds hle => ?_⟩
    simp only [List.length_append, List.length_singleton] at hle hrounds
    obtain ⟨rounds, rfl⟩ := Nat.exists_eq_succ_of_ne_zero (show rounds ≠ 0 by omega)
    rw [Function.iterate_succ_apply, hround]
    exact hrounds rounds (by omega)

/-- Each step of a climb starts at another declared method. -/
theorem ClimbsTo.length_le {start path : List ElementId} {top : ElementId}
    (h : p.ClimbsTo start top path) : path.length ≤ p.methods.length + 1 := by
  have hsubset : path.dropLast ⊆ p.methods.map Method.id := by
    intro x hx
    obtain ⟨y, -, hy⟩ := exists_mem_left_of_forall₂ (List.isChain_iff_forall₂.mp h.steps).flip hx
    obtain ⟨m, hm, hid, -⟩ := overridesDirectly_of_mem_superMethods (List.mem_of_head? hy)
    exact List.mem_map.mpr ⟨m, hm, hid⟩
  have hle := (List.subperm_of_subset (h.nodup.sublist (List.dropLast_sublist path))
    hsubset).length_le
  rw [List.length_dropLast, List.length_map] at hle
  omega

/-- A rename starts where a climb from the accessor ends. The climb takes one round for each
    declared method at most. -/
theorem exists_climbsTo_renameTarget (p : Project) (accessor : ElementId) :
    ∃ path, p.ClimbsTo [accessor] (p.renameTarget accessor) path ∧
      ∀ rounds, p.methods.length ≤ rounds →
        p.climbRound^[rounds] ([accessor], accessor) = (path, p.renameTarget accessor) := by
  obtain ⟨path, hclimbs, hrounds⟩ := p.exists_climbsTo List.getLast?_singleton
    (List.nodup_singleton accessor) (List.isChain_singleton accessor)
  refine ⟨path, hclimbs, fun rounds hle => hrounds rounds ?_⟩
  have hlength := hclimbs.length_le
  rw [List.length_singleton]
  omega

end Climb

/-- Both walks over the override links end, whatever cycles, diamonds and loose ends the links form.
    The way down finds exactly the overriders of a method, each once. The way up follows first super
    methods until there is none, or none that is new, and whatever it starts from is found again on
    the way down from its end. -/
theorem override_walks (hdistinct : p.DistinctElements) (method accessor : ElementId) :
    p.ListsOverriders method (p.hierarchy method) ∧
    (∀ rounds, p.methods.length < rounds →
      p.searchRound^[rounds] ([method], 0) =
        (p.hierarchy method, (p.hierarchy method).length)) ∧
    (∃ path, p.ClimbsTo [accessor] (p.renameTarget accessor) path ∧
      ∀ rounds, p.methods.length ≤ rounds →
        p.climbRound^[rounds] ([accessor], accessor) = (path, p.renameTarget accessor)) ∧
    accessor ∈ p.hierarchy (p.renameTarget accessor) :=
  ⟨hdistinct.listsOverriders method, fun _ => p.searchRound_iterate_of_lt method,
    p.exists_climbsTo_renameTarget accessor,
    mem_hierarchy_iff.mpr (p.overrides_renameTarget accessor)⟩

end Project

namespace Knots

/-- A method without parameters that overrides others. -/
def method (id : Nat) (superMethods : List ElementId) : Child :=
  .method {
    id := ⟨id⟩
    modifiers := ⟨.public, []⟩
    returnType? := some "int"
    name := "get"
    parameters := []
    body := .ofText ";"
    superMethods }

/-- Two methods that override each other, one that overrides itself, and four that form a diamond
    whose top overrides something unknown. -/
def knot : Declaration where
  id := ⟨1⟩
  file := "Knot.java"
  children := [
    .keyword .interface, .trivia (.whitespace " "), .identifier "Knot", .code (.ofText " \x7b "),
    method 2 [⟨3⟩], method 3 [⟨2⟩], method 4 [⟨4⟩],
    method 5 [⟨6⟩, ⟨7⟩], method 6 [⟨8⟩], method 7 [⟨8⟩], method 8 [⟨99⟩],
    .code (.ofText " \x7d")]

def project : Project := ⟨[knot], 8, 0⟩

/-- From the bottom of the diamond the climb leaves the project, and from there the way down leads
    back to the bottom. -/
theorem override_walks_project :
    project.DistinctElements ∧
    project.ListsOverriders ⟨8⟩ [⟨8⟩, ⟨6⟩, ⟨7⟩, ⟨5⟩] ∧
    project.ListsOverriders ⟨2⟩ [⟨2⟩, ⟨3⟩] ∧
    project.renameTarget ⟨5⟩ = ⟨99⟩ ∧ project.renameTarget ⟨2⟩ = ⟨3⟩ ∧
    ⟨5⟩ ∈ project.hierarchy ⟨99⟩ := by
  have hdistinct : project.DistinctElements := by decide
  have hdiamond : project.hierarchy ⟨8⟩ = [⟨8⟩, ⟨6⟩, ⟨7⟩, ⟨5⟩] := by cbv
  have hcycle : project.hierarchy ⟨2⟩ = [⟨2⟩, ⟨3⟩] := by cbv
  have htop : project.renameTarget ⟨5⟩ = ⟨99⟩ := by cbv
  have hturn : project.renameTarget ⟨2⟩ = ⟨3⟩ := by cbv
  obtain ⟨hdown, -, -, hback⟩ := Project.override_walks hdistinct ⟨8⟩ ⟨5⟩
  obtain ⟨hround, -, -, -⟩ := Project.override_walks hdistinct ⟨2⟩ ⟨2⟩
  rw [hdiamond] at hdown
  rw [hcycle] at hround
  rw [htop] at hback
  exact ⟨hdistinct, hdown, hround, htop, hturn, hback⟩

end Knots

end ClassToRecord
