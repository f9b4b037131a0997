namespace ClassToRecord.Patch

/-- The lines of a text, each with its line break. Only the last one may lack it. -/
def splitLines (text : String) : List String := go [] text.toList
where
  go (line : List Char) : List Char → List String
    | [] => if line.isEmpty then [] else [String.ofList line.reverse]
    | '\n' :: rest => String.ofList ('\n' :: line).reverse :: go [] rest
    | c :: rest => go (c :: line) rest

/-- How many lines two lists have in common at their start. -/
def prefixLength : List String → List String → Nat
  | a :: as, b :: bs => if a = b then prefixLength as bs + 1 else 0
  | _, _ => 0

def suffixLength (as bs : List String) : Nat := prefixLength as.reverse bs.reverse

/-- A run of consecutive lines of a text. -/
structure Window where
  start : Nat
  size : Nat
deriving DecidableEq, Repr

namespace Window

def stop (w : Window) : Nat := w.start + w.size

def lines (w : Window) (text : List String) : List String := (text.drop w.start).take w.size

def first (w : Window) (n : Nat) : Window := ⟨w.start, n⟩

def last (w : Window) (n : Nat) : Window := ⟨w.stop - n, n⟩

def up (w : Window) (n : Nat) : Window := ⟨w.start - n, w.size⟩

def down (w : Window) (n : Nat) : Window := ⟨w.start + n, w.size⟩

def growUp (w : Window) (n : Nat) : Window := ⟨w.start - n, w.size + n⟩

def growDown (w : Window) (n : Nat) : Window := ⟨w.start, w.size + n⟩

def dropFirst (w : Window) (n : Nat) : Window := ⟨w.start + n, w.size - n⟩

def dropLast (w : Window) (n : Nat) : Window := ⟨w.start, w.size - n⟩

end Window

/-- The two texts of a comparison. -/
structure Texts where
  old : List String
  new : List String

/-- The text that a changed line belongs to: old lines are deleted and new ones inserted. -/
inductive Side where
  | old
  | new
deriving DecidableEq, Repr

namespace Side

def other : Side → Side
  | .old => .new
  | .new => .old

def text (t : Texts) : Side → List String
  | .old => t.old
  | .new => t.new

end Side

/-- Lines that only one of the texts has. -/
structure Change where
  side : Side
  window : Window
deriving DecidableEq, Repr

inductive Edit where
  | equal (old new : Window)
  | change (value : Change)
deriving DecidableEq, Repr

end ClassToRecord.Patch
