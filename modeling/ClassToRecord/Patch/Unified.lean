import ClassToRecord.Patch.Compact
import ClassToRecord.Patch.Snake

namespace ClassToRecord.Patch

/-- Old lines and the new lines that replace them. -/
structure Replacement where
  old : Window
  new : Window
deriving DecidableEq, Repr

/-- Joins the changes between two runs of equal lines. -/
def replacements (i j : Nat) (pending? : Option Replacement) : List Edit → List Replacement
  | [] => pending?.toList
  | .equal old new :: rest =>
    pending?.toList ++ replacements (i + old.size) (j + new.size) none rest
  | .change c :: rest =>
    let pending := pending?.getD ⟨⟨i, 0⟩, ⟨j, 0⟩⟩
    match c.side with
    | .old =>
      replacements (i + c.window.size) j
        (some { pending with old := pending.old.growDown c.window.size }) rest
    | .new =>
      replacements i (j + c.window.size)
        (some { pending with new := pending.new.growDown c.window.size }) rest

inductive HunkLine where
  | context (line : String)
  | deleted (line : String)
  | inserted (line : String)
deriving DecidableEq, Repr

/-- Replacements that lie close together, with the equal lines around them. -/
structure Hunk where
  old : Window
  new : Window
  lines : List HunkLine
deriving DecidableEq, Repr

/-- The number of equal lines around a replacement. -/
def contextSize : Nat := 3

def between (text : List String) (start stop : Nat) : List String :=
  (text.drop start).take (stop - start)

/-- The context after a replacement, which has one length on both sides. -/
def trailing (t : Texts) (r : Replacement) : Nat :=
  min contextSize (min (t.old.length - r.old.stop) (t.new.length - r.new.stop))

def changedLines (t : Texts) (r : Replacement) : List HunkLine :=
  (r.old.lines t.old).map .deleted ++ (r.new.lines t.new).map .inserted

/-- Whether the context of the next replacement runs into that of this one. -/
def joins (t : Texts) (r next : Replacement) : Bool :=
  min next.old.start (t.old.length - 1) - contextSize < r.old.stop + trailing t r

def closeHunk (t : Texts) (oldStart newStart : Nat) (lines : List HunkLine) (r : Replacement) :
    Hunk :=
  let n := trailing t r
  { old := ⟨oldStart, r.old.stop + n - oldStart⟩
    new := ⟨newStart, r.new.stop + n - newStart⟩
    lines := lines ++ (between t.new r.new.stop (r.new.stop + n)).map .context }

/-- Goes on with an open hunk that ends in a replacement. -/
def hunksFrom (t : Texts) (oldStart newStart : Nat) (lines : List HunkLine) (r : Replacement) :
    List Replacement → List Hunk
  | [] => [closeHunk t oldStart newStart lines r]
  | next :: rest =>
    if joins t r next then
      let gap := (between t.new r.new.stop next.new.start).map .context
      hunksFrom t oldStart newStart (lines ++ gap ++ changedLines t next) next rest
    else
      let oldNext := next.old.start - contextSize
      let newNext := next.new.start - contextSize
      let leading := (between t.new newNext next.new.start).map .context
      closeHunk t oldStart newStart lines r ::
        hunksFrom t oldNext newNext (leading ++ changedLines t next) next rest

def hunks (t : Texts) : List Replacement → List Hunk
  | [] => []
  | r :: rest =>
    let newStart := r.new.start - contextSize
    let leading := (between t.new newStart r.new.start).map .context
    hunksFrom t (r.old.start - contextSize) newStart (leading ++ changedLines t r) r rest

/-- Line numbers start at one, but an empty range names the line before it. -/
def Window.label (w : Window) : String :=
  let start := if w.size = 0 then w.start else w.start + 1
  if w.size = 1 then start.repr else start.repr ++ "," ++ w.size.repr

/-- A line that has no line break gets one, and a note that says so. -/
def withBreak (line : String) : String :=
  if line.toList.getLast? = some '\n' then line else line ++ "\n\\ No newline at end of file\n"

/-- An empty line of context has no blank before it. -/
def HunkLine.render : HunkLine → String
  | .context line => if line = "\n" then line else " " ++ withBreak line
  | .deleted line => "-" ++ withBreak line
  | .inserted line => "+" ++ withBreak line

def Hunk.render (h : Hunk) : String :=
  "@@ -" ++ h.old.label ++ " +" ++ h.new.label ++ " @@\n" ++
    String.join (h.lines.map HunkLine.render)

/-- The difference of two texts in unified form. -/
def unified (old new : String) : String :=
  let t : Texts := ⟨splitLines old, splitLines new⟩
  let edits := compact t (conquer 0 0 t.old t.new)
  "--- original\n+++ modified\n" ++
    String.join ((hunks t (replacements 0 0 none edits)).map Hunk.render)

end ClassToRecord.Patch
