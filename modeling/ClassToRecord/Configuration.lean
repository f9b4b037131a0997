import ClassToRecord.Conversion.Settings
import ClassToRecord.Toml.Document

namespace ClassToRecord

/-- What a configuration file says about the settings. Absent keys say nothing. -/
structure Configuration where
  searchWeakenedVisibility? : Option Bool := none
  mode? : Option ExecutionMode := none
  ignoreConflicts? : Option Bool := none
  checkPreconditions? : Option Bool := none
deriving DecidableEq, Repr, Inhabited

namespace Configuration

/-- Settings with what the file says put over them. -/
def applyTo (c : Configuration) (settings : Settings) : Settings where
  searchWeakenedVisibility := c.searchWeakenedVisibility?.getD settings.searchWeakenedVisibility
  mode := c.mode?.getD settings.mode
  ignoreConflicts := c.ignoreConflicts?.getD settings.ignoreConflicts
  checkPreconditions := c.checkPreconditions?.getD settings.checkPreconditions

def toSettings (c : Configuration) : Settings := c.applyTo {}

def flagOf? : Toml.Value → Option Bool
  | .flag b => some b
  | _ => none

/-- A mode is written as its name, or as a table with nothing but an empty entry of that name. -/
def modeOf? : Toml.Value → Option ExecutionMode
  | .text name | .table [(name, .table [])] | .table [(name, .array [])] =>
    ExecutionMode.ofName? name
  | _ => none

/-- Takes in one key of the section, which has no others than these. -/
def withKey (c : Configuration) (entry : String × Toml.Value) : Option Configuration :=
  match entry.1 with
  | "search_weakened_visibility" =>
    (flagOf? entry.2).map fun b => { c with searchWeakenedVisibility? := some b }
  | "mode" => (modeOf? entry.2).map fun mode => { c with mode? := some mode }
  | "ignore_conflicts" => (flagOf? entry.2).map fun b => { c with ignoreConflicts? := some b }
  | "check_preconditions" =>
    (flagOf? entry.2).map fun b => { c with checkPreconditions? := some b }
  | _ => none

/-- The keys in the order in which an array gives their values. -/
def keys : List String :=
  ["search_weakened_visibility", "mode", "ignore_conflicts", "check_preconditions"]

/-- Reads the section, which is a table or the values in the order of the keys. -/
def ofSection? : Toml.Value → Option Configuration
  | .table entries => entries.foldlM withKey {}
  | .array values => (keys.zip values).foldlM withKey {}
  | _ => none

/-- The name of the section. -/
def sectionKey : String := "conversion"

/-- Reads a configuration file. Sections that other programs use do no harm if they are readable. -/
def ofString? (text : String) : Option Configuration := do
  let document ← Toml.ofString? text
  guard (Toml.entriesReadable (document.filter (·.1 ≠ sectionKey)))
  match document.lookup sectionKey with
  | none => some {}
  | some value => ofSection? value

/-- The name of the configuration file in the root folder of a project. -/
def fileName : String := "recordfix.toml"

def pathIn (root : String) : String := root ++ "/" ++ fileName

/-- What is found under the path of a configuration file. -/
inductive File where
  | absent
  | folder
  | content (bytes : ByteArray)

/-- Why a configuration file is of no use. -/
inductive LoadError where
  | unreadable (path : String)
  | malformed (path : String)
deriving DecidableEq, Repr

def LoadError.message : LoadError → String
  | .unreadable path => "read config file " ++ path
  | .malformed path => "parse config file " ++ path

def File.text? : File → Option String
  | .content bytes => String.fromUTF8? bytes
  | _ => none

def load (path : String) (file : File) : Except LoadError Configuration :=
  match file.text? with
  | none => .error (.unreadable path)
  | some text =>
    match ofString? text with
    | none => .error (.malformed path)
    | some c => .ok c

/-- The path of the configuration file, if there is anything under it. -/
def discover (root : String) : File → Option String
  | .absent => none
  | _ => some (pathIn root)

/-- The configuration of a project, which is empty if there is no file. -/
def loadOrDefault (root : String) (file : File) : Except LoadError Configuration :=
  match discover root file with
  | none => .ok {}
  | some path => load path file

end Configuration

end ClassToRecord
