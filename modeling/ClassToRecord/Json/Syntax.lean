import ClassToRecord.Json.Basic
import ClassToRecord.Syntax.Declaration

namespace ClassToRecord

open Json

/-- Ids are written as whole numbers below this one. -/
def idBound : Nat := 4294967296

instance : JsonCodec ElementId where
  encode id := .int id.index
  decode? _ json := (json.nat? idBound).map ElementId.mk

instance : JsonCodec RefId where
  encode id := .int id.index
  decode? _ json := (json.nat? idBound).map RefId.mk

def Visibility.key : Visibility → String
  | .private => "private"
  | .package => "package"
  | .protected => "protected"
  | .public => "public"

def Visibility.ofKey? : String → Option Visibility
  | "private" => some .private
  | "package" => some .package
  | "protected" => some .protected
  | "public" => some .public
  | _ => none

instance : JsonCodec Visibility where
  encode v := .str v.key
  decode? held json := (json.choice? held).bind Visibility.ofKey?

instance : JsonCodec Modifiers where
  encode m := .obj (entry "visibility" m.visibility ++ entryIfAny "keywords" m.keywords)
  decode? held json := do
    let r ← json.record? ["visibility", "keywords"]
    let visibility ← r.required held "visibility"
    let keywords ← r.defaulted held "keywords" []
    some { visibility, keywords }

instance : JsonCodec Reference where
  encode r := .obj (entry "id" r.id ++ entry "target" r.target ++ entry "name" r.name)
  decode? held json := do
    let r ← json.record? ["id", "target", "name"]
    let id ← r.required held "id"
    let target ← r.required held "target"
    let name ← r.required held "name"
    some { id, target, name }

instance : JsonCodec Fragment where
  encode
    | .text s => .obj (entry "type" "text" ++ entry "value" s)
    | .ref r => .obj (entry "type" "ref" ++ entry "value" r)
  decode? held json := do
    let (type, held, value) ← json.tagged? held "type" "value"
    match type with
    | "text" => (JsonCodec.decode? held value).map .text
    | "ref" => (JsonCodec.decode? held value).map .ref
    | _ => none

instance : JsonCodec Code where
  encode c := JsonCodec.encode c.fragments
  decode? held json := (JsonCodec.decode? held json).map Code.mk

instance : JsonCodec Parameter where
  encode p := .obj (entry "id" p.id ++ entry "ty" p.type ++ entry "name" p.name)
  decode? held json := do
    let r ← json.record? ["id", "ty", "name"]
    let id ← r.required held "id"
    let type ← r.required held "ty"
    let name ← r.required held "name"
    some { id, type, name }

instance : JsonCodec Field where
  encode f := .obj (entry "id" f.id ++ entry "modifiers" f.modifiers ++ entry "ty" f.type ++
    entry "name" f.name ++ entryIfSome "initializer" f.initializer?)
  decode? held json := do
    let r ← json.record? ["id", "modifiers", "ty", "name", "initializer"]
    let id ← r.required held "id"
    let modifiers ← r.required held "modifiers"
    let type ← r.required held "ty"
    let name ← r.required held "name"
    let initializer? ← r.optional held "initializer"
    some { id, modifiers, type, name, initializer? }

instance : JsonCodec Method where
  encode m := .obj (entry "id" m.id ++ entry "modifiers" m.modifiers ++
    entryIfSome "return_type" m.returnType? ++ entry "name" m.name ++
    entry "parameters" m.parameters ++ entry "body" m.body ++
    entryIfAny "super_methods" m.superMethods)
  decode? held json := do
    let r ← json.record?
      ["id", "modifiers", "return_type", "name", "parameters", "body", "super_methods"]
    let id ← r.required held "id"
    let modifiers ← r.required held "modifiers"
    let returnType? ← r.optional held "return_type"
    let name ← r.required held "name"
    let parameters ← r.defaulted held "parameters" []
    let body ← r.required held "body"
    let superMethods ← r.defaulted held "super_methods" []
    some { id, modifiers, returnType?, name, parameters, body, superMethods }

def Keyword.ofKey? : String → Option Keyword
  | "class" => some .class
  | "interface" => some .interface
  | "record" => some .record
  | _ => none

instance : JsonCodec Keyword where
  encode k := .str k.render
  decode? held json := (json.choice? held).bind Keyword.ofKey?

instance : JsonCodec Trivia where
  encode
    | .whitespace s => .obj (entry "type" "whitespace" ++ entry "text" s)
    | .comment s => .obj (entry "type" "comment" ++ entry "text" s)
  decode? held json := do
    let (type, held, text) ← json.tagged? held "type" "text"
    match type with
    | "whitespace" => (JsonCodec.decode? held text).map .whitespace
    | "comment" => (JsonCodec.decode? held text).map .comment
    | _ => none

namespace Child

/-- The kind of a child, and what the format keeps beside it. -/
def toNode : Child → String × Json
  | .modifiers m => ("modifiers", JsonCodec.encode m)
  | .keyword k => ("keyword", .obj (entry "keyword" k))
  | .identifier name => ("identifier", .obj (entry "name" name))
  | .typeParameters text => ("type_parameters", .obj (entry "text" text))
  | .header components => ("header", .obj (entry "components" components))
  | .field f => ("field", JsonCodec.encode f)
  | .method m => ("method", JsonCodec.encode m)
  | .trivia t => ("trivia", JsonCodec.encode t)
  | .code c => ("code", JsonCodec.encode c)

def ofNode? (node : String) (held : Bool) (data : Json) : Option Child :=
  match node with
  | "modifiers" => (JsonCodec.decode? held data).map .modifiers
  | "keyword" => (data.required held "keyword").map .keyword
  | "identifier" => (data.required held "name").map .identifier
  | "type_parameters" => (data.required held "text").map .typeParameters
  | "header" => (data.required held "components").map .header
  | "field" => (JsonCodec.decode? held data).map .field
  | "method" => (JsonCodec.decode? held data).map .method
  | "trivia" => (JsonCodec.decode? held data).map .trivia
  | "code" => (JsonCodec.decode? held data).map .code
  | _ => none

end Child

instance : JsonCodec Child where
  encode c := .obj [("node", .str c.toNode.1), ("data", c.toNode.2)]
  decode? held json := do
    let (node, held, data) ← json.tagged? held "node" "data"
    Child.ofNode? node held data

instance : JsonCodec Declaration where
  encode d := .obj (entry "id" d.id ++ entry "file" d.file ++ entry "children" d.children)
  decode? held json := do
    let r ← json.record? ["id", "file", "children"]
    let id ← r.required held "id"
    let file ← r.required held "file"
    let children ← r.required held "children"
    some { id, file, children }

end ClassToRecord
