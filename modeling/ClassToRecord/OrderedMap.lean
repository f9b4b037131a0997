namespace ClassToRecord

/-- A finite map that lists its entries in the order in which their keys were first inserted. -/
structure OrderedMap (κ ν : Type) where
  entries : List (κ × ν)
  nodup_keys : (entries.map Prod.fst).Nodup

namespace OrderedMap

variable {κ ν : Type}

instance : EmptyCollection (OrderedMap κ ν) := ⟨[], List.nodup_nil⟩

instance : Inhabited (OrderedMap κ ν) := ⟨∅⟩

def keys (m : OrderedMap κ ν) : List κ := m.entries.map Prod.fst

def size (m : OrderedMap κ ν) : Nat := m.entries.length

def isEmpty (m : OrderedMap κ ν) : Bool := m.entries.isEmpty

variable [DecidableEq κ]

def contains (m : OrderedMap κ ν) (k : κ) : Bool := m.keys.contains k

def get? (m : OrderedMap κ ν) (k : κ) : Option ν := m.entries.lookup k

/-- A key that is there keeps its position. -/
def replaceAt (k : κ) (v : ν) (entry : κ × ν) : κ × ν :=
  if entry.1 = k then (k, v) else entry

theorem map_fst_replaceAt (k : κ) (v : ν) (entries : List (κ × ν)) :
    (entries.map (replaceAt k v)).map Prod.fst = entries.map Prod.fst := by
  rw [List.map_map]
  apply List.map_congr_left
  intro entry _
  simp only [Function.comp_apply, replaceAt]
  split
  · next h => exact h.symm
  · rfl

/-- A new key goes to the end, and a key that is there gets the new value in its old place. -/
def insert (m : OrderedMap κ ν) (k : κ) (v : ν) : OrderedMap κ ν :=
  if h : k ∈ m.keys then
    ⟨m.entries.map (replaceAt k v), by rw [map_fst_replaceAt]; exact m.nodup_keys⟩
  else
    ⟨m.entries ++ [(k, v)], by
      rw [List.map_append, List.nodup_append]
      refine ⟨m.nodup_keys, by simp, ?_⟩
      intro a ha b hb hab
      simp only [List.map_cons, List.map_nil, List.mem_singleton] at hb
      exact h (hb ▸ hab ▸ ha)⟩

def insertIfNew (m : OrderedMap κ ν) (k : κ) (v : ν) : OrderedMap κ ν :=
  if m.contains k then m else m.insert k v

def ofList (entries : List (κ × ν)) : OrderedMap κ ν :=
  entries.foldl (fun m entry => m.insert entry.1 entry.2) ∅

end OrderedMap

end ClassToRecord
