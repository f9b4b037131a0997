import ClassToRecord.Json.Basic
import Mathlib.Data.List.Basic

namespace ClassToRecord.Json

variable {α β : Type} [JsonCodec α]

/-- A value can be read again from what is written for it, also where that is held back. What is
    written is not null, which would say that a part is missing. -/
structure Survives (a : α) : Prop where
  decode?_encode : ∀ held, JsonCodec.decode? held (JsonCodec.encode a) = some a
  encode_ne_null : JsonCodec.encode a ≠ .null

theorem survives_string (s : String) : Survives s := ⟨fun _ => rfl, nofun⟩

/-- A list survives with its items. -/
theorem survives_list {values : List α} (hvalues : ∀ a ∈ values, Survives a) :
    Survives values := by
  refine ⟨fun held => ?_, nofun⟩
  change (values.map JsonCodec.encode).mapM (JsonCodec.decode? held) = some values
  induction values with
  | nil => rfl
  | cons a rest ih =>
    obtain ⟨ha, hrest⟩ := List.forall_mem_cons.mp hvalues
    rw [List.map_cons, List.mapM_cons, ha.decode?_encode, ih hrest]
    rfl

section Lookup

variable {key other : String}

private theorem lookup_singleton (value : Json) :
    List.lookup key [(other, value)] = if key = other then some value else none := by
  by_cases hkey : key = other
  · simp [hkey]
  · rw [if_neg hkey, List.lookup_cons, beq_false_of_ne hkey, List.lookup_nil]

@[simp] theorem lookup_entry (a : α) :
    (entry other a).lookup key = if key = other then some (JsonCodec.encode a) else none :=
  lookup_singleton _

@[simp] theorem lookup_entryIfSome (value : Option α) :
    (entryIfSome other value).lookup key =
      if key = other then value.map JsonCodec.encode else none := by
  cases value with
  | none => simp [entryIfSome]
  | some a => exact lookup_singleton _

@[simp] theorem lookup_entryIfAny (values : List α) :
    (entryIfAny other values).lookup key =
      if key = other ∧ values ≠ [] then some (.arr (values.map JsonCodec.encode)) else none := by
  cases values with
  | nil => simp [entryIfAny]
  | cons a rest => simp [entryIfAny, lookup_singleton]

end Lookup

section Parts

variable {fields : List (String × Json)} {key : String} {held : Bool}

@[simp] theorem record?_obj (keys : List String) : (obj fields).record? keys = some (obj fields) :=
  rfl

@[simp] theorem get?_obj : (obj fields).get? key = fields.lookup key := rfl

/-- A number below a bound can be read. -/
theorem nat?_int {bound n : Nat} (h : n < bound) : (int n).nat? bound = some n := by
  simp [nat?, h]

/-- The content of a tagged value can be read. If its key comes before that of the tag, then it is
    held back. -/
theorem bind_tagged? {tagKey contentKey tag : String} {content : Json}
    {next : String × Bool × Json → Option β} (hkeys : contentKey ≠ tagKey) :
    ((obj [(tagKey, .str tag), (contentKey, content)]).tagged? held tagKey contentKey).bind next =
      next (tag, held || contentKey < tagKey, content) := by
  simp [tagged?, choice?, List.lookup_cons, beq_false_of_ne hkeys]

/-- A part that is written can be read. -/
theorem required_eq_some {a : α} (ha : Survives a)
    (hlookup : fields.lookup key = some (JsonCodec.encode a)) :
    (obj fields).required held key = some a := by
  rw [required, get?_obj, hlookup, Option.bind_some, ha.decode?_encode]

theorem bind_required {a : α} {next : α → Option β} (ha : Survives a)
    (hlookup : fields.lookup key = some (JsonCodec.encode a)) :
    ((obj fields).required held key).bind next = next a := by
  rw [required_eq_some ha hlookup, Option.bind_some]

/-- A part that is left out reads as missing, and no other one does. -/
theorem bind_optional {value : Option α} {next : Option α → Option β}
    (hvalue : ∀ a, value = some a → Survives a)
    (hlookup : fields.lookup key = value.map JsonCodec.encode) :
    ((obj fields).optional held key).bind next = next value := by
  have hread : (obj fields).optional held key = some value := by
    rw [optional, get?_obj, hlookup]
    cases value with
    | none => rfl
    | some a =>
      have ha := hvalue a rfl
      rw [Option.map_some]
      split
      · next hnone => cases hnone
      · next hnull => exact absurd (Option.some.inj hnull) ha.encode_ne_null
      · next written hwritten =>
        rw [← Option.some.inj hwritten, ha.decode?_encode, Option.map_some]
  rw [hread, Option.bind_some]

/-- A part may be left out if it is what a missing part stands for. -/
theorem bind_defaulted {a default : α} {next : α → Option β} (ha : Survives a)
    (hlookup : fields.lookup key = some (JsonCodec.encode a) ∨
      fields.lookup key = none ∧ a = default) :
    ((obj fields).defaulted held key default).bind next = next a := by
  rw [defaulted, get?_obj]
  rcases hlookup with hwritten | ⟨hmissing, rfl⟩
  · rw [hwritten]
    exact (congrArg (Option.bind · next) (ha.decode?_encode held)).trans (Option.bind_some _ _)
  · rw [hmissing, Option.bind_some]

/-- So it is with a list that is left out if it is empty. -/
theorem lookup_ifAny {values : List α}
    (hlookup : fields.lookup key =
      if values ≠ [] then some (.arr (values.map JsonCodec.encode)) else none) :
    fields.lookup key = some (JsonCodec.encode values) ∨
      fields.lookup key = none ∧ values = [] := by
  rw [hlookup]
  by_cases hempty : values = []
  · exact .inr ⟨if_neg (not_not.mpr hempty), hempty⟩
  · exact .inl (if_pos hempty)

end Parts

end ClassToRecord.Json
