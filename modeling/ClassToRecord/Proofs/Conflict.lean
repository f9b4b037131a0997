import ClassToRecord.Conflict
import ClassToRecord.Distinct
import Mathlib.Data.List.Perm.Basic

namespace ClassToRecord

/-- The messages among some entries that are about an element, in order. -/
def messagesFor (element : ElementId) (entries : List (ElementId × String)) : List String :=
  (entries.filter (·.1 = element)).map Prod.snd

theorem messagesFor_append (element : ElementId) (entries more : List (ElementId × String)) :
    messagesFor element (entries ++ more) =
      messagesFor element entries ++ messagesFor element more := by
  simp [messagesFor]

theorem messagesFor_eq_nil_iff {element : ElementId} {entries : List (ElementId × String)} :
    messagesFor element entries = [] ↔ element ∉ entries.map Prod.fst := by
  rw [messagesFor, List.map_eq_nil_iff, List.filter_eq_nil_iff, List.mem_map]
  simp only [decide_eq_true_eq, not_exists, not_and]

namespace ConflictReport

theorem putInto_ne_nil (element : ElementId) (message : String) (conflicts : List Conflict) :
    putInto element message conflicts ≠ [] := by
  cases conflicts with
  | nil => simp [putInto]
  | cons c rest =>
    rw [putInto]
    split <;> simp

/-- A report to which messages are added stays empty only if there are none. -/
theorem isEmpty_putAll_iff {report : ConflictReport} {entries : List (ElementId × String)} :
    (report.putAll entries).isEmpty = true ↔ report.isEmpty = true ∧ entries = [] := by
  induction entries generalizing report with
  | nil => simp [putAll]
  | cons entry rest ih =>
    have hput : (report.put entry.1 entry.2).isEmpty = false := by
      simpa [put, isEmpty] using putInto_ne_nil entry.1 entry.2 report.conflicts
    rw [putAll, List.foldl_cons, ← putAll, ih, hput]
    simp

/-- A put takes place in the conflict of its element, or in a new one behind all others. -/
private theorem putInto_map {elements : List ElementId} (hnodup : elements.Nodup)
    (lists : ElementId → List String) (element : ElementId) (message : String) :
    putInto element message (elements.map fun e => ⟨e, lists e⟩) =
      elements.map (fun e => ⟨e, if e = element then lists e ++ [message] else lists e⟩) ++
        if element ∈ elements then [] else [⟨element, [message]⟩] := by
  induction elements with
  | nil => rfl
  | cons first rest ih =>
    obtain ⟨hnew, hrest⟩ := List.nodup_cons.mp hnodup
    rw [List.map_cons, putInto]
    by_cases hfirst : first = element
    · subst hfirst
      have hothers : ∀ e ∈ rest, e ≠ first := fun e he heq => hnew (heq ▸ he)
      simp +contextual [hothers]
    · have hsame : element ∈ first :: rest ↔ element ∈ rest := by simp [Ne.symm hfirst]
      simp only [hfirst, ↓reduceIte, ih hrest, hsame, List.map_cons, List.cons_append]

/-- The report on some entries: the elements in the order of their first entries, each with its
    messages. -/
def ofEntries (entries : List (ElementId × String)) : ConflictReport :=
  ⟨(entries.map Prod.fst).eraseDups.map fun element => ⟨element, messagesFor element entries⟩⟩

/-- A put adds one entry at the end. -/
theorem put_ofEntries (entries : List (ElementId × String)) (element : ElementId)
    (message : String) :
    (ofEntries entries).put element message = ofEntries (entries ++ [(element, message)]) := by
  have hown : messagesFor element [(element, message)] = [message] := by simp [messagesFor]
  have hlists : ∀ e, (if e = element then messagesFor e entries ++ [message]
      else messagesFor e entries) = messagesFor e (entries ++ [(element, message)]) := by
    intro e
    rw [messagesFor_append]
    split
    · next h => rw [h, hown]
    · next h => simp [messagesFor, Ne.symm h]
  have hnew : ([element].removeAll (entries.map Prod.fst)).eraseDups =
      if element ∈ entries.map Prod.fst then [] else [element] := by
    by_cases h : element ∈ entries.map Prod.fst <;>
      simp [List.removeAll, List.eraseDups_cons, h]
  have hfirst : element ∉ entries.map Prod.fst →
      messagesFor element (entries ++ [(element, message)]) = [message] := by
    intro h
    rw [messagesFor_append, messagesFor_eq_nil_iff.mpr h, hown, List.nil_append]
  simp only [put, ofEntries, putInto_map (nodup_eraseDups _), hlists, List.mem_eraseDups,
    List.map_append, List.map_cons, List.map_nil, List.eraseDups_append, hnew]
  split
  · rfl
  · next h => rw [← hfirst h]; rfl

/-- Puts keep to the report on all entries so far. -/
theorem putAll_ofEntries (done rest : List (ElementId × String)) :
    (ofEntries done).putAll rest = ofEntries (done ++ rest) := by
  induction rest generalizing done with
  | nil => rw [List.append_nil]; rfl
  | cons entry rest ih =>
    rw [putAll, List.foldl_cons, ← putAll, put_ofEntries, ih, List.append_assoc]
    rfl

/-- The element of a list that is an element is that element. -/
private theorem find?_eq_ite (elements : List ElementId) (element : ElementId) :
    elements.find? (· = element) = if element ∈ elements then some element else none := by
  induction elements with
  | nil => rfl
  | cons first rest ih =>
    by_cases hfirst : first = element
    · simp [hfirst]
    · simp [hfirst, Ne.symm hfirst, ih]

theorem get?_ofEntries (entries : List (ElementId × String)) (element : ElementId) :
    (ofEntries entries).get? element =
      if element ∈ entries.map Prod.fst then some (messagesFor element entries) else none := by
  simp only [get?, ofEntries, List.find?_map, Function.comp_def, find?_eq_ite, List.mem_eraseDups]
  split <;> rfl

/-- No message is lost and none is made up. -/
theorem messages_put_perm (report : ConflictReport) (element : ElementId) (message : String) :
    (report.put element message).messages.Perm (report.messages ++ [message]) := by
  obtain ⟨conflicts⟩ := report
  simp only [messages, put]
  induction conflicts with
  | nil => exact .refl _
  | cons c rest ih =>
    rw [putInto]
    split
    · simp only [List.flatMap_cons, List.append_assoc]
      exact List.perm_append_comm.append_left _
    · simp only [List.flatMap_cons, List.append_assoc]
      exact ih.append_left _

theorem messages_putAll_perm (report : ConflictReport) (entries : List (ElementId × String)) :
    (report.putAll entries).messages.Perm (report.messages ++ entries.map Prod.snd) := by
  induction entries generalizing report with
  | nil => simp [putAll]
  | cons entry rest ih =>
    have hput := (messages_put_perm report entry.1 entry.2).append_right (rest.map Prod.snd)
    rw [List.append_assoc] at hput
    exact (ih _).trans hput

/-- What a report knows when it has grouped entries by their elements. -/
structure Groups (report : ConflictReport) (entries : List (ElementId × String)) : Prop where
  /-- Elements stand in the order of their first entries, each once. -/
  elements : report.elements = (entries.map Prod.fst).eraseDups
  distinct : report.elements.Nodup
  /-- Each has messages, and these are its own in their order. -/
  lists : ∀ c ∈ report.conflicts, c.messages ≠ [] ∧ c.messages = messagesFor c.element entries
  lookup : ∀ element, report.get? element =
    if element ∈ entries.map Prod.fst then some (messagesFor element entries) else none
  /-- All messages, grouped by element in order. -/
  grouping : report.messages = (entries.map Prod.fst).eraseDups.flatMap (messagesFor · entries)
  kept : report.messages.Perm (entries.map Prod.snd)
  messageCount : report.messageCount = entries.length
  isEmpty : report.isEmpty = true ↔ entries = []

/-- Whatever is put into an empty report, in whatever order, it groups the messages by element and
    loses none, repeats none and reorders none of an element. -/
theorem groups_putAll (entries : List (ElementId × String)) :
    (empty.putAll entries).Groups entries := by
  have hreport : empty.putAll entries = ofEntries entries := putAll_ofEntries [] entries
  have hkept := messages_putAll_perm empty entries
  have helements : (ofEntries entries).elements = (entries.map Prod.fst).eraseDups := by
    rw [elements, ofEntries, List.map_map]
    exact List.map_id _
  exact {
    elements := hreport ▸ helements
    distinct := hreport ▸ helements ▸ nodup_eraseDups _
    lists := by
      intro c hc
      rw [hreport] at hc
      obtain ⟨element, helement, rfl⟩ := List.mem_map.mp hc
      exact ⟨mt messagesFor_eq_nil_iff.mp (not_not.mpr (List.mem_eraseDups.mp helement)), rfl⟩
    lookup := by
      intro element
      rw [hreport]
      exact get?_ofEntries entries element
    grouping := by rw [hreport, messages, ofEntries, List.flatMap_map]
    kept := hkept
    messageCount := hkept.length_eq.trans (List.length_map _)
    isEmpty := isEmpty_putAll_iff.trans (and_iff_right rfl) }

example : (empty.putAll [(⟨7⟩, "first"), (⟨3⟩, "second"), (⟨7⟩, "third")]).conflicts =
    [⟨⟨7⟩, ["first", "third"]⟩, ⟨⟨3⟩, ["second"]⟩] := rfl

end ConflictReport

end ClassToRecord
