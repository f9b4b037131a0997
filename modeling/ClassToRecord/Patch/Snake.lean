import ClassToRecord.Patch.Lines

namespace ClassToRecord.Patch

/-- The furthest reach of a search on each diagonal. A cell holds the number of lines that are
    used up on the side that the search counts. -/
structure Frontier where
  cells : Array Nat
  offset : Nat

namespace Frontier

def empty (bound : Nat) : Frontier := ⟨Array.replicate (2 * bound + 3) 0, bound + 1⟩

def get (f : Frontier) (k : Int) : Nat := f.cells.getD (k + f.offset).toNat 0

def set (f : Frontier) (k : Int) (x : Nat) : Frontier :=
  { f with cells := f.cells.setIfInBounds (k + f.offset).toNat x }

/-- Where the walk along a diagonal starts with one edit more than on the diagonals beside it. -/
def entry (f : Frontier) (d k : Int) : Nat :=
  if k = -d ∨ (k ≠ d ∧ f.get (k - 1) < f.get (k + 1)) then f.get (k + 1)
  else f.get (k - 1) + 1

end Frontier

/-- The diagonals that a walk with d edits can end on, from the highest down. -/
def diagonals (d : Nat) : List Int :=
  (List.range (d + 1)).map fun (i : Nat) => (d : Int) - 2 * (i : Int)

/-- Two lists of lines, and the same read from the end. -/
structure Grid where
  old : List String
  new : List String
  oldBack : List String
  newBack : List String

namespace Grid

def ofLists (old new : List String) : Grid := ⟨old, new, old.reverse, new.reverse⟩

def width (g : Grid) : Nat := g.old.length

def height (g : Grid) : Nat := g.new.length

def delta (g : Grid) : Int := (g.width : Int) - g.height

/-- Walks from the start with d edits. Stops with the point where a walk that meets the other search
    enters its last diagonal. -/
def forward (g : Grid) (d : Nat) (backward : Frontier) (f : Frontier) (k : Int) :
    Except (Nat × Nat) Frontier :=
  let x := f.entry d k
  let y := ((x : Int) - k).toNat
  let reach := x + prefixLength (g.old.drop x) (g.new.drop y)
  if g.delta % 2 ≠ 0 ∧ (k - g.delta).natAbs + 1 ≤ d ∧
      g.width ≤ reach + backward.get (g.delta - k) then
    .error (x, y)
  else .ok (f.set k reach)

/-- Walks from the end with d edits. Stops with the point that a walk which meets the other search
    has reached. -/
def backward (g : Grid) (d : Nat) (forward : Frontier) (f : Frontier) (k : Int) :
    Except (Nat × Nat) Frontier :=
  let x := f.entry d k
  let y := ((x : Int) - k).toNat
  let common := prefixLength (g.oldBack.drop x) (g.newBack.drop y)
  let reach := x + common
  if g.delta % 2 = 0 ∧ (k - g.delta).natAbs ≤ d ∧
      g.width ≤ reach + forward.get (g.delta - k) then
    .error (g.width - reach, g.height - (y + common))
  else .ok (f.set k reach)

/-- Searches with more and more edits from both ends until the walks meet. -/
def meet (g : Grid) (d : Nat) (ahead back : Frontier) : Nat → Option (Nat × Nat)
  | 0 => none
  | rounds + 1 =>
    match (diagonals d).foldlM (g.forward d back) ahead with
    | .error point => some point
    | .ok ahead =>
      match (diagonals d).foldlM (g.backward d ahead) back with
      | .error point => some point
      | .ok back => g.meet (d + 1) ahead back rounds

/-- A point on a shortest way from the old lines to the new ones. -/
def middle? (g : Grid) : Option (Nat × Nat) :=
  let bound := (g.width + g.height + 1) / 2 + 1
  g.meet 0 (Frontier.empty bound) (Frontier.empty bound) bound

end Grid

/-- Lines without some at the start and some at the end. -/
def inner (lines : List String) (front back : Nat) : List String :=
  (lines.drop front).take (lines.length - front - back)

theorem length_inner_le (lines : List String) (front back : Nat) :
    (inner lines front back).length ≤ lines.length := by
  simp only [inner, List.length_take, List.length_drop]
  omega

def equalRun (oldStart newStart size : Nat) : List Edit :=
  if size = 0 then [] else [.equal ⟨oldStart, size⟩ ⟨newStart, size⟩]

def changedRun (side : Side) (start size : Nat) : List Edit :=
  if size = 0 then [] else [.change ⟨side, ⟨start, size⟩⟩]

/-- The edits that turn one run of lines into another, cut in two at a middle point as long as both
    runs have lines that the other lacks. -/
def conquer (oldStart newStart : Nat) (old new : List String) : List Edit :=
  let front := prefixLength old new
  let back := suffixLength (old.drop front) (new.drop front)
  let a := inner old front back
  let b := inner new front back
  let i := oldStart + front
  let j := newStart + front
  let replaced := changedRun .old i a.length ++ changedRun .new j b.length
  let middle :=
    match (Grid.ofLists a b).middle? with
    | none => replaced
    | some (x, y) =>
      if a ≠ [] ∧ b ≠ [] ∧ 0 < x + y ∧ x + y < a.length + b.length ∧ x ≤ a.length ∧
          y ≤ b.length then
        conquer i j (a.take x) (b.take y) ++ conquer (i + x) (j + y) (a.drop x) (b.drop y)
      else replaced
  equalRun oldStart newStart front ++ middle ++ equalRun (i + a.length) (j + b.length) back
termination_by old.length + new.length
decreasing_by
  all_goals
    have hold := length_inner_le old front back
    have hnew := length_inner_le new front back
    simp only [List.length_take, List.length_drop]
    simp only [a, b, front, back] at *
    omega

end ClassToRecord.Patch
