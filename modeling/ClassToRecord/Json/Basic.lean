namespace ClassToRecord

/-- A value of the data format. Whole numbers are told apart from those that are written with a
    point or an exponent. -/
inductive Json where
  | null
  | bool (value : Bool)
  | int (value : Int)
  | decimal (mantissa : Int) (places : Nat)
  | str (value : String)
  | arr (items : List Json)
  | obj (fields : List (String × Json))
deriving Repr, Inhabited, BEq

/-- A type with a written form. A part that is met before it is known what it is a part of is held
    back, and what is held back is read a little more freely. -/
class JsonCodec (α : Type) where
  encode : α → Json
  decode? (held : Bool) : Json → Option α

namespace Json

variable {α : Type}

def get? (json : Json) (key : String) : Option Json :=
  match json with
  | .obj fields => fields.lookup key
  | _ => none

/-- An object with parts under keys. An array has the parts in the order of the keys, and may end
    early. -/
def record? (keys : List String) : Json → Option Json
  | .obj fields => some (.obj fields)
  | .arr items => if items.length ≤ keys.length then some (.obj (keys.zip items)) else none
  | _ => none

/-- One of several names. A name may also be the only key of an object that has nothing under it,
    which an empty object says too if it is held back. -/
def choice? (held : Bool) : Json → Option String
  | .str name => some name
  | .obj [(name, .null)] => some name
  | .obj [(name, .obj [])] => if held then some name else none
  | _ => none

/-- A name with the content that it announces, and whether the content is held back. The keys of an
    object are met in alphabetical order. -/
def tagged? (held : Bool) (tagKey contentKey : String) : Json → Option (String × Bool × Json)
  | .arr [tag, content] => (tag.choice? held).map (·, held, content)
  | .obj fields => do
    let name ← (← fields.lookup tagKey).choice? held
    let content ← fields.lookup contentKey
    some (name, held || contentKey < tagKey, content)
  | _ => none

def nat? (bound : Nat) : Json → Option Nat
  | .int n => if 0 ≤ n ∧ n.toNat < bound then some n.toNat else none
  | _ => none

variable [JsonCodec α]

/-- A part that must be there. -/
def required (held : Bool) (json : Json) (key : String) : Option α :=
  (json.get? key).bind (JsonCodec.decode? held)

/-- A part that may be missing, which null says too. -/
def optional (held : Bool) (json : Json) (key : String) : Option (Option α) :=
  match json.get? key with
  | none | some .null => some none
  | some value => (JsonCodec.decode? held value).map some

/-- A part that stands for a default if it is missing. -/
def defaulted (held : Bool) (json : Json) (key : String) (default : α) : Option α :=
  match json.get? key with
  | none => some default
  | some value => JsonCodec.decode? held value

/-- One part of an object. -/
def entry (key : String) (value : α) : List (String × Json) := [(key, JsonCodec.encode value)]

/-- A part that is left out if there is no value. -/
def entryIfSome (key : String) (value : Option α) : List (String × Json) :=
  match value with
  | none => []
  | some value => [(key, JsonCodec.encode value)]

/-- A list that is left out if it is empty. -/
def entryIfAny (key : String) (values : List α) : List (String × Json) :=
  if values.isEmpty then [] else [(key, .arr (values.map JsonCodec.encode))]

end Json

instance : JsonCodec String where
  encode := .str
  decode? _
    | .str s => some s
    | _ => none

instance {α : Type} [JsonCodec α] : JsonCodec (List α) where
  encode values := .arr (values.map JsonCodec.encode)
  decode? held
    | .arr items => items.mapM (JsonCodec.decode? held)
    | _ => none

end ClassToRecord
