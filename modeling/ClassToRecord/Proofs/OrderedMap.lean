import ClassToRecord.OrderedMap

namespace ClassToRecord.OrderedMap

variable {κ ν : Type} [DecidableEq κ]

theorem contains_iff {m : OrderedMap κ ν} {k : κ} : m.contains k = true ↔ k ∈ m.keys := by
  simp [contains]

/-- A map has a value for exactly its keys. -/
theorem isSome_get?_iff {m : OrderedMap κ ν} {k : κ} : (m.get? k).isSome = true ↔ k ∈ m.keys := by
  rw [get?, List.lookup_isSome_iff, keys, List.mem_map]
  constructor
  · rintro ⟨entry, hentry, hkey⟩
    exact ⟨entry, hentry, (eq_of_beq hkey).symm⟩
  · rintro ⟨entry, hentry, rfl⟩
    exact ⟨entry, hentry, beq_self_eq_true _⟩

theorem get?_eq_none_iff {m : OrderedMap κ ν} {k : κ} : m.get? k = none ↔ k ∉ m.keys := by
  rw [← isSome_get?_iff, Bool.not_eq_true, Option.isSome_eq_false_iff, Option.isNone_iff_eq_none]

private theorem lookup_eq_some_iff_of_nodup {entries : List (κ × ν)} {k : κ} {v : ν}
    (hkeys : (entries.map Prod.fst).Nodup) : entries.lookup k = some v ↔ (k, v) ∈ entries := by
  induction entries with
  | nil => simp
  | cons entry rest ih =>
    obtain ⟨k₀, v₀⟩ := entry
    obtain ⟨hnew, hrest⟩ := List.nodup_cons.mp hkeys
    by_cases hkey : k = k₀
    · subst hkey
      have hnot : (k, v) ∉ rest := fun h => hnew (List.mem_map.mpr ⟨_, h, rfl⟩)
      simp [hnot, eq_comm]
    · have hother : (k == k₀) = false := beq_false_of_ne hkey
      simp [List.lookup_cons, hother, hkey, ih hrest]

/-- A map has the values of its entries. -/
theorem get?_eq_some_iff {m : OrderedMap κ ν} {k : κ} {v : ν} :
    m.get? k = some v ↔ (k, v) ∈ m.entries :=
  lookup_eq_some_iff_of_nodup m.nodup_keys

/-- The order of the entries does not matter to the values. -/
theorem get?_of_perm {m m' : OrderedMap κ ν} (hperm : m.entries.Perm m'.entries) (k : κ) :
    m'.get? k = m.get? k := by
  apply Option.ext
  intro v
  rw [get?_eq_some_iff, get?_eq_some_iff, hperm.mem_iff]

private theorem lookup_map_replaceAt_of_ne {entries : List (κ × ν)} {k k' : κ} {v : ν}
    (hne : k' ≠ k) : (entries.map (replaceAt k v)).lookup k' = entries.lookup k' := by
  induction entries with
  | nil => rfl
  | cons entry rest ih =>
    obtain ⟨k₀, v₀⟩ := entry
    by_cases hk : k₀ = k
    · have hother : (k' == k) = false := beq_false_of_ne hne
      simp [replaceAt, hk, List.lookup_cons, hother, ih]
    · simp [replaceAt, hk, List.lookup_cons, ih]

private theorem lookup_map_replaceAt_self {entries : List (κ × ν)} {k : κ} {v : ν}
    (hk : k ∈ entries.map Prod.fst) : (entries.map (replaceAt k v)).lookup k = some v := by
  induction entries with
  | nil => cases hk
  | cons entry rest ih =>
    obtain ⟨k₀, v₀⟩ := entry
    by_cases hhere : k₀ = k
    · simp [replaceAt, hhere]
    · have hrest : k ∈ rest.map Prod.fst := (List.mem_cons.mp hk).resolve_left (Ne.symm hhere)
      have hother : (k == k₀) = false := beq_false_of_ne (Ne.symm hhere)
      simp [replaceAt, hhere, List.lookup_cons, hother, ih hrest]

/-- An insertion changes the value of its own key only. -/
theorem get?_insert {m : OrderedMap κ ν} {k k' : κ} {v : ν} :
    (m.insert k v).get? k' = if k' = k then some v else m.get? k' := by
  unfold insert get?
  split
  · next h =>
    by_cases hkey : k' = k
    · subst hkey
      rw [if_pos rfl, lookup_map_replaceAt_self h]
    · rw [if_neg hkey, lookup_map_replaceAt_of_ne hkey]
  · next h =>
    rw [List.lookup_append]
    by_cases hkey : k' = k
    · subst hkey
      have hnone : m.entries.lookup k' = none := get?_eq_none_iff.mpr h
      simp [hnone]
    · have hother : (k' == k) = false := beq_false_of_ne hkey
      simp [hkey, List.lookup_cons, hother]

/-- A key stays in its place, and a new one goes to the end. -/
theorem keys_insert (m : OrderedMap κ ν) (k : κ) (v : ν) :
    (m.insert k v).keys = if k ∈ m.keys then m.keys else m.keys ++ [k] := by
  unfold insert
  split
  · exact map_fst_replaceAt k v m.entries
  · exact List.map_append

theorem keys_insertIfNew (m : OrderedMap κ ν) (k : κ) (v : ν) :
    (m.insertIfNew k v).keys = if k ∈ m.keys then m.keys else m.keys ++ [k] := by
  unfold insertIfNew
  split
  · next h => rw [if_pos (contains_iff.mp h)]
  · exact m.keys_insert k v

/-- A key that is there keeps its value when it is inserted as a new one. -/
theorem get?_insertIfNew {m : OrderedMap κ ν} {k k' : κ} {v : ν} :
    (m.insertIfNew k v).get? k' = (m.get? k').or (if k' = k then some v else none) := by
  unfold insertIfNew
  split
  · next h =>
    by_cases hkey : k' = k
    · subst hkey
      obtain ⟨value, hvalue⟩ :=
        Option.isSome_iff_exists.mp (isSome_get?_iff.mpr (contains_iff.mp h))
      rw [hvalue, Option.some_or]
    · rw [if_neg hkey, Option.or_none]
  · next h =>
    rw [get?_insert]
    by_cases hkey : k' = k
    · subst hkey
      have hnone := get?_eq_none_iff.mpr fun hmem => h (contains_iff.mpr hmem)
      rw [if_pos rfl, hnone, Option.none_or, if_pos rfl]
    · rw [if_neg hkey, if_neg hkey, Option.or_none]

/-- Insertions of new keys give their value to those keys that had none. -/
theorem get?_foldl_insertIfNew {m : OrderedMap κ ν} {ks : List κ} {k' : κ} {v : ν} :
    (ks.foldl (fun m k => m.insertIfNew k v) m).get? k' =
      (m.get? k').or (if k' ∈ ks then some v else none) := by
  induction ks generalizing m with
  | nil => simp
  | cons k rest ih =>
    rw [List.foldl_cons, ih, get?_insertIfNew, Option.or_assoc]
    congr 1
    by_cases hkey : k' = k <;> simp [hkey]

end ClassToRecord.OrderedMap
