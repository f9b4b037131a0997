import ClassToRecord.Patch.Lines

namespace ClassToRecord.Patch

/-- One change among the edits around it. Those before it are listed from the nearest backwards. -/
structure Focus where
  before : List Edit
  current : Change
  after : List Edit

/-- The lines of an edit and one more, so that an empty edit counts too. -/
def weight : Edit → Nat
  | .equal old _ => old.size + 1
  | .change c => c.window.size + 1

def totalWeight : List Edit → Nat
  | [] => 0
  | e :: rest => weight e + totalWeight rest

/-- An edit for lines that are equal, given the window on the side of a change and the other. -/
def equalFrom (side : Side) (own other : Window) : Edit :=
  match side with
  | .old => .equal own other
  | .new => .equal other own

def opposite (side : Side) (old new : Window) : Window :=
  match side with
  | .old => new
  | .new => old

/-- How many lines a change ends in that equal lines above it end in too. -/
def overlapAbove (t : Texts) (c : Change) (old new : Window) : Nat :=
  suffixLength (c.window.lines (c.side.text t))
    ((opposite c.side old new).lines (c.side.other.text t))

/-- How many lines a change starts with that equal lines below it start with too. -/
def overlapBelow (t : Texts) (c : Change) (old new : Window) : Nat :=
  prefixLength (c.window.lines (c.side.text t))
    ((opposite c.side old new).lines (c.side.other.text t))

/-- Lets the equal lines below a change begin earlier. -/
def growBelow (side : Side) (own other : Window) (n : Nat) : List Edit → List Edit
  | .equal old new :: rest => .equal (old.growUp n) (new.growUp n) :: rest
  | after => equalFrom side (own.last n) (other.last n) :: after

/-- Lets the equal lines above a change end later. -/
def growAbove (side : Side) (own other : Window) (n : Nat) : List Edit → List Edit
  | .equal old new :: rest => .equal (old.growDown n) (new.growDown n) :: rest
  | before => equalFrom side (own.first n) (other.first n) :: before

/-- Slides a change up along lines that repeat, past changes of the other side and into changes of
    its own side. -/
def slideUp (t : Texts) (before : List Edit) (c : Change) (after : List Edit) : Focus :=
  match before with
  | [] => ⟨[], c, after⟩
  | .change b :: rest =>
    if b.side = c.side then slideUp t rest ⟨c.side, b.window.growDown c.window.size⟩ after
    else slideUp t rest c (.change b :: after)
  | .equal old new :: rest =>
    let n := overlapAbove t c old new
    if 0 < n ∧ n ≤ old.size then
      let after := growBelow c.side c.window (opposite c.side old new) n after
      let c := { c with window := c.window.up n }
      if old.size = n then slideUp t rest c after
      else slideUp t (.equal (old.dropLast n) (new.dropLast n) :: rest) c after
    else if old.size = 0 then slideUp t rest c after
    else ⟨before, c, after⟩
termination_by totalWeight before
decreasing_by
  all_goals
    simp only [totalWeight, weight, Window.dropLast] at *
    omega

/-- Slides a change down, the other way round. -/
def slideDown (t : Texts) (before : List Edit) (c : Change) (after : List Edit) : Focus :=
  match after with
  | [] => ⟨before, c, []⟩
  | .change b :: rest =>
    if b.side = c.side then slideDown t before ⟨c.side, c.window.growDown b.window.size⟩ rest
    else slideDown t (.change b :: before) c rest
  | .equal old new :: rest =>
    let n := overlapBelow t c old new
    if 0 < n ∧ n ≤ old.size then
      let before := growAbove c.side c.window (opposite c.side old new) n before
      let c := { c with window := c.window.down n }
      if old.size = n then slideDown t before c rest
      else slideDown t before c (.equal (old.dropFirst n) (new.dropFirst n) :: rest)
    else if old.size = 0 then slideDown t before c rest
    else ⟨before, c, after⟩
termination_by totalWeight after
decreasing_by
  all_goals
    simp only [totalWeight, weight, Window.dropFirst] at *
    omega

/-- Goes through the edits and slides every change of one side up and then down. -/
def compactSide (t : Texts) (side : Side) (before : List Edit) : List Edit → Nat → List Edit
  | [], _ => before.reverse
  | after, 0 => before.reverse ++ after
  | .equal old new :: rest, steps + 1 =>
    compactSide t side (.equal old new :: before) rest steps
  | .change c :: rest, steps + 1 =>
    if c.side = side then
      let raised := slideUp t before c rest
      let settled := slideDown t raised.before raised.current raised.after
      compactSide t side (.change settled.current :: settled.before) settled.after steps
    else compactSide t side (.change c :: before) rest steps

/-- Joins changes that repeated lines keep apart: first deletions, then insertions. Each merge
    leaves a change less, which bounds the steps. -/
def compact (t : Texts) (edits : List Edit) : List Edit :=
  let size := edits.length + t.old.length + t.new.length + 1
  compactSide t .new [] (compactSide t .old [] edits (size * size)) (size * size)

end ClassToRecord.Patch
