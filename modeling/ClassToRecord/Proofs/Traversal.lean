import ClassToRecord.Failure
import Mathlib.Data.List.Forall2

namespace ClassToRecord.Traversal

variable {ε ε' α β : Type}

theorem bind_eq_ok_iff {x : Except ε α} {f : α → Except ε β} {b : β} :
    (x >>= f) = .ok b ↔ ∃ a, x = .ok a ∧ f a = .ok b := by
  cases x with
  | error e => exact ⟨nofun, fun ⟨a, h, _⟩ => nomatch h⟩
  | ok a =>
    constructor
    · intro h
      exact ⟨a, rfl, h⟩
    · rintro ⟨a', h, hf⟩
      cases h
      exact hf

theorem orRefuse_eq_ok_iff {value : Option α} {fault : Fault} {a : α} :
    orRefuse value fault = .ok a ↔ value = some a := by
  cases value <;> simp [orRefuse, refuse]

theorem bind_eq_error_iff {x : Except ε α} {f : α → Except ε β} {e : ε} :
    (x >>= f) = .error e ↔ x = .error e ∨ ∃ a, x = .ok a ∧ f a = .error e := by
  cases x with
  | error e' =>
    constructor
    · intro h
      cases h
      exact .inl rfl
    · rintro (h | ⟨a, h, _⟩)
      · cases h
        rfl
      · cases h
  | ok a =>
    constructor
    · intro h
      exact .inr ⟨a, rfl, h⟩
    · rintro (h | ⟨a', h, hf⟩)
      · cases h
      · cases h
        exact hf

/-- Only results matter for what follows. -/
theorem bind_congr_of_ok {x : Except ε α} {f g : α → Except ε β} (h : ∀ a, x = .ok a → f a = g a) :
    x >>= f = x >>= g := by
  cases x with
  | error e => rfl
  | ok a => exact h a rfl

@[simp] theorem mapError_eq_ok_iff {x : Except ε α} {f : ε → ε'} {a : α} :
    x.mapError f = .ok a ↔ x = .ok a := by
  cases x <;> simp [Except.mapError]

theorem mapError_eq_error_iff {x : Except ε α} {f : ε → ε'} {e' : ε'} :
    x.mapError f = .error e' ↔ ∃ e, x = .error e ∧ f e = e' := by
  cases x <;> simp [Except.mapError]

theorem map_eq_ok_iff {x : Except ε α} {f : α → β} {b : β} :
    x.map f = .ok b ↔ ∃ a, x = .ok a ∧ f a = b := by
  cases x <;> simp [Except.map]

theorem foldlM_congr {f g : β → α → Except ε β} {l : List α}
    (h : ∀ b, ∀ a ∈ l, f b a = g b a) (b : β) : l.foldlM f b = l.foldlM g b := by
  induction l generalizing b with
  | nil => rfl
  | cons a rest ih =>
    rw [List.foldlM_cons, List.foldlM_cons, h b a List.mem_cons_self]
    congr 1
    funext next
    exact ih (fun b x hx => h b x (List.mem_cons_of_mem _ hx)) next

theorem mapM_congr {f g : α → Except ε β} {l : List α} (h : ∀ a ∈ l, f a = g a) :
    l.mapM f = l.mapM g := by
  induction l with
  | nil => rfl
  | cons a rest ih =>
    rw [List.mapM_cons, List.mapM_cons, h a List.mem_cons_self,
      ih fun x hx => h x (List.mem_cons_of_mem _ hx)]

/-- What the start satisfies and each step keeps holds at the end of a fold that succeeds. -/
theorem foldlM_invariant {step : β → α → Except ε β} (Inv : β → Prop) {l : List α} {b b' : β}
    (hstep : ∀ a ∈ l, ∀ b b', Inv b → step b a = .ok b' → Inv b') (hstart : Inv b)
    (hfold : l.foldlM step b = .ok b') : Inv b' := by
  induction l generalizing b with
  | nil =>
    cases hfold
    exact hstart
  | cons a rest ih =>
    rw [List.foldlM_cons, bind_eq_ok_iff] at hfold
    obtain ⟨next, hnext, hrest⟩ := hfold
    exact ih (fun x hx => hstep x (List.mem_cons_of_mem _ hx))
      (hstep a List.mem_cons_self b next hstart hnext) hrest

/-- A fold that succeeds has made a step with each element. -/
theorem exists_step_of_foldlM {step : β → α → Except ε β} {l : List α} {b b' : β}
    (hfold : l.foldlM step b = .ok b') {a : α} (ha : a ∈ l) : ∃ c c', step c a = .ok c' := by
  induction l generalizing b with
  | nil => cases ha
  | cons first rest ih =>
    rw [List.foldlM_cons, bind_eq_ok_iff] at hfold
    obtain ⟨next, hnext, hrest⟩ := hfold
    rcases List.mem_cons.mp ha with rfl | ha
    · exact ⟨b, next, hnext⟩
    · exact ih hrest ha

/-- A fold succeeds if each of its steps does. -/
theorem exists_foldlM_eq_ok {step : β → α → Except ε β} {l : List α}
    (hstep : ∀ a ∈ l, ∀ b, ∃ b', step b a = .ok b') (b : β) : ∃ b', l.foldlM step b = .ok b' := by
  induction l generalizing b with
  | nil => exact ⟨b, rfl⟩
  | cons a rest ih =>
    obtain ⟨hfirst, hrest⟩ := List.forall_mem_cons.mp hstep
    obtain ⟨next, hnext⟩ := hfirst b
    obtain ⟨last, hlast⟩ := ih hrest next
    exact ⟨last, bind_eq_ok_iff.mpr ⟨next, hnext, hlast⟩⟩

/-- If each step adds what its element brings, then a fold adds what any of the elements brings. -/
theorem foldlM_iff {step : β → α → Except ε β} {holds : β → Prop} {brings : α → Prop}
    (hstep : ∀ b a b', step b a = .ok b' → (holds b' ↔ holds b ∨ brings a)) {l : List α}
    {b b' : β} (hfold : l.foldlM step b = .ok b') :
    holds b' ↔ holds b ∨ ∃ a ∈ l, brings a := by
  induction l generalizing b with
  | nil =>
    cases hfold
    simp
  | cons a rest ih =>
    rw [List.foldlM_cons, bind_eq_ok_iff] at hfold
    obtain ⟨next, hnext, hrest⟩ := hfold
    rw [ih hrest, hstep b a next hnext, or_assoc, List.exists_mem_cons_iff]

/-- A successful map pairs each element with its own result. -/
theorem forall₂_of_mapM_eq_ok {f : α → Except ε β} {l : List α} {results : List β}
    (h : l.mapM f = .ok results) : List.Forall₂ (fun a b => f a = .ok b) l results := by
  induction l generalizing results with
  | nil =>
    cases h
    exact .nil
  | cons a rest ih =>
    rw [List.mapM_cons, bind_eq_ok_iff] at h
    obtain ⟨b, hb, h⟩ := h
    rw [bind_eq_ok_iff] at h
    obtain ⟨tail, htail, h⟩ := h
    cases h
    exact .cons hb (ih htail)

/-- A map succeeds exactly if it does for each element. -/
theorem exists_mapM_eq_ok_iff {f : α → Except ε β} {l : List α} :
    (∃ results, l.mapM f = .ok results) ↔ ∀ a ∈ l, ∃ b, f a = .ok b := by
  induction l with
  | nil => exact ⟨fun _ => nofun, fun _ => ⟨[], rfl⟩⟩
  | cons a rest ih =>
    rw [List.forall_mem_cons, ← ih, List.mapM_cons]
    constructor
    · rintro ⟨results, h⟩
      obtain ⟨b, hb, h⟩ := bind_eq_ok_iff.mp h
      obtain ⟨tail, htail, -⟩ := bind_eq_ok_iff.mp h
      exact ⟨⟨b, hb⟩, tail, htail⟩
    · rintro ⟨⟨b, hb⟩, tail, htail⟩
      exact ⟨b :: tail, bind_eq_ok_iff.mpr ⟨b, hb, bind_eq_ok_iff.mpr ⟨tail, htail, rfl⟩⟩⟩

/-- If a traversal fails, then as one of the elements does. -/
theorem exists_mem_of_mapM_eq_error {f : α → Except ε β} {l : List α} {e : ε}
    (h : l.mapM f = .error e) : ∃ a ∈ l, f a = .error e := by
  induction l with
  | nil => cases h
  | cons a rest ih =>
    rw [List.mapM_cons] at h
    obtain ha | ⟨b, -, h⟩ := bind_eq_error_iff.mp h
    · exact ⟨a, List.mem_cons_self, ha⟩
    · obtain hrest | ⟨results, -, h⟩ := bind_eq_error_iff.mp h
      · obtain ⟨x, hx, hfails⟩ := ih hrest
        exact ⟨x, List.mem_cons_of_mem _ hx, hfails⟩
      · cases h

/-- Where an element has exactly one result, so do all of them together. -/
theorem forall₂_iff_eq_map {R : α → β → Prop} {f : α → β} (hR : ∀ a b, R a b ↔ b = f a)
    {l : List α} {results : List β} : List.Forall₂ R l results ↔ results = l.map f := by
  induction l generalizing results with
  | nil => rw [List.forall₂_nil_left_iff, List.map_nil]
  | cons a rest ih =>
    simp only [List.forall₂_cons_left_iff, hR, ih, List.map_cons, exists_and_left, exists_eq_left]

theorem map_eq_of_forall₂ {R : α → β → Prop} {l : List α} {results : List β} {f : β → α}
    (h : List.Forall₂ R l results) (hR : ∀ a b, R a b → f b = a) : results.map f = l := by
  induction h with
  | nil => rfl
  | cons hhead _ ih => rw [List.map_cons, hR _ _ hhead, ih]

/-- Where each result leaves what its element does, so do all of them together. -/
theorem flatMap_eq_of_forall₂ {γ : Type} {R : α → β → Prop} {l : List α} {results : List β}
    {f : α → List γ} {g : β → List γ} (h : List.Forall₂ R l results)
    (hR : ∀ a b, R a b → g b = f a) : results.flatMap g = l.flatMap f := by
  induction h with
  | nil => rfl
  | cons hhead _ ih => rw [List.flatMap_cons, List.flatMap_cons, hR _ _ hhead, ih]

/-- A result comes from an element. -/
theorem exists_mem_left_of_forall₂ {R : α → β → Prop} {l : List α} {results : List β} {b : β}
    (h : List.Forall₂ R l results) (hb : b ∈ results) : ∃ a ∈ l, R a b := by
  induction h with
  | nil => cases hb
  | @cons a b' rest results hhead _ ih =>
    rcases List.mem_cons.mp hb with rfl | hb
    · exact ⟨a, List.mem_cons_self, hhead⟩
    · obtain ⟨x, hx, hR⟩ := ih hb
      exact ⟨x, List.mem_cons_of_mem _ hx, hR⟩

end ClassToRecord.Traversal
