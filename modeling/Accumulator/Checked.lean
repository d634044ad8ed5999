/-!
Checked results: a value or the reason why there is none. A sequence of checked
steps succeeds exactly when each step does, and fails for the reason of the
first step that does not.
-/

namespace Accumulator.Checked

variable {ε α β : Type}

theorem bind_eq_ok_iff {x : Except ε α} {f : α → Except ε β} {b : β} :
    x >>= f = .ok b ↔ ∃ a, x = .ok a ∧ f a = .ok b := by
  cases x with
  | error e => simp [bind, Except.bind]
  | ok a => simp [bind, Except.bind]

theorem bind_eq_error_iff {x : Except ε α} {f : α → Except ε β} {e : ε} :
    x >>= f = .error e ↔ x = .error e ∨ ∃ a, x = .ok a ∧ f a = .error e := by
  cases x with
  | error reason => simp [bind, Except.bind]
  | ok a => simp [bind, Except.bind]

theorem map_eq_ok_iff {x : Except ε α} {f : α → β} {b : β} :
    f <$> x = .ok b ↔ ∃ a, x = .ok a ∧ f a = b := by
  cases x with
  | error e => simp [Functor.map, Except.map]
  | ok a => simp [Functor.map, Except.map]

theorem map_eq_error_iff {x : Except ε α} {f : α → β} {e : ε} :
    f <$> x = .error e ↔ x = .error e := by
  cases x with
  | error reason => simp [Functor.map, Except.map]
  | ok a => simp [Functor.map, Except.map]

theorem mapError_eq_ok_iff {ε' : Type} {x : Except ε α} {f : ε → ε'} {a : α} :
    x.mapError f = .ok a ↔ x = .ok a := by
  cases x with
  | error e =>
    constructor
    · intro h
      cases h
    · intro h
      cases h
  | ok b =>
    constructor
    · intro h
      cases h
      rfl
    · intro h
      cases h
      rfl

theorem mapError_eq_error_iff {ε' : Type} {x : Except ε α} {f : ε → ε'} {e : ε'} :
    x.mapError f = .error e ↔ ∃ reason, x = .error reason ∧ f reason = e := by
  constructor
  · intro h
    cases x with
    | error reason =>
      cases h
      exact ⟨reason, rfl, rfl⟩
    | ok a => cases h
  · rintro ⟨reason, rfl, rfl⟩
    rfl

/-- Where each step succeeds under a condition and then in one way, all of them
succeed if all conditions hold. -/
theorem mapM_eq_ok_iff {f : α → Except ε β} {holds : α → Prop} {g : α → β} {xs : List α}
    {ys : List β} (hf : ∀ x ∈ xs, ∀ y, f x = .ok y ↔ holds x ∧ y = g x) :
    xs.mapM f = .ok ys ↔ (∀ x ∈ xs, holds x) ∧ ys = xs.map g := by
  induction xs generalizing ys with
  | nil => simp [pure, Except.pure, eq_comm]
  | cons x rest ih =>
    have hrest : ∀ zs, rest.mapM f = .ok zs ↔ (∀ x ∈ rest, holds x) ∧ zs = rest.map g := by
      intro zs
      exact ih fun x hx => hf x (List.mem_cons_of_mem _ hx)
    simp only [List.mapM_cons, bind_eq_ok_iff, hf x List.mem_cons_self, hrest, pure, Except.pure,
      Except.ok.injEq, List.forall_mem_cons, List.map_cons]
    constructor
    · rintro ⟨y, ⟨hx, rfl⟩, zs, ⟨hzs, rfl⟩, rfl⟩
      exact ⟨⟨hx, hzs⟩, rfl⟩
    · rintro ⟨⟨hx, hzs⟩, rfl⟩
      exact ⟨g x, ⟨hx, rfl⟩, rest.map g, ⟨hzs, rfl⟩, rfl⟩

theorem length_of_mapM {f : α → Except ε β} {xs : List α} {ys : List β}
    (h : xs.mapM f = .ok ys) : ys.length = xs.length := by
  induction xs generalizing ys with
  | nil =>
    cases h
    rfl
  | cons x rest ih =>
    rw [List.mapM_cons] at h
    obtain ⟨y, -, h⟩ := bind_eq_ok_iff.1 h
    obtain ⟨zs, hzs, h⟩ := bind_eq_ok_iff.1 h
    cases h
    rw [List.length_cons, List.length_cons, ih hzs]

/-- What a mapping made stands where the thing stands that it was made of. -/
theorem getElem?_of_mapM {f : α → Except ε β} {xs : List α} {ys : List β} {i : Nat} {x : α}
    (h : xs.mapM f = .ok ys) (hx : xs[i]? = some x) : ∃ y, f x = .ok y ∧ ys[i]? = some y := by
  induction xs generalizing ys i with
  | nil => nomatch hx
  | cons first rest ih =>
    rw [List.mapM_cons] at h
    obtain ⟨z, hz, h⟩ := bind_eq_ok_iff.1 h
    obtain ⟨zs, hzs, h⟩ := bind_eq_ok_iff.1 h
    cases h
    cases i with
    | zero =>
      cases hx
      exact ⟨z, hz, rfl⟩
    | succ i =>
      obtain ⟨y, hy, hfound⟩ := ih hzs hx
      exact ⟨y, hy, hfound⟩

/-- What a mapping made came from one of the things it was made of. -/
theorem exists_of_mem_mapM {f : α → Except ε β} {xs : List α} {ys : List β} {y : β}
    (h : xs.mapM f = .ok ys) (hy : y ∈ ys) : ∃ x ∈ xs, f x = .ok y := by
  induction xs generalizing ys with
  | nil =>
    cases h
    cases hy
  | cons x rest ih =>
    rw [List.mapM_cons] at h
    obtain ⟨z, hz, h⟩ := bind_eq_ok_iff.1 h
    obtain ⟨zs, hzs, h⟩ := bind_eq_ok_iff.1 h
    cases h
    rcases List.mem_cons.1 hy with rfl | hy
    · exact ⟨x, List.mem_cons_self, hz⟩
    · obtain ⟨w, hw, hfw⟩ := ih hzs hy
      exact ⟨w, List.mem_cons_of_mem _ hw, hfw⟩

/-- The reason why there is no value. -/
def error? : Except ε α → Option ε
  | .ok _ => none
  | .error e => some e

theorem error?_eq_some_iff {x : Except ε α} {e : ε} : error? x = some e ↔ x = .error e := by
  cases x with
  | error reason => simp [error?]
  | ok a => simp [error?]

theorem error?_eq_none_iff {x : Except ε α} : error? x = none ↔ ∃ a, x = .ok a := by
  cases x with
  | error reason => simp [error?]
  | ok a => simp [error?]

@[simp] theorem error?_map (f : α → β) (x : Except ε α) : error? (f <$> x) = error? x := by
  cases x with
  | error e => rfl
  | ok a => rfl

/-- Of two steps the first that fails gives the reason. -/
theorem error?_both {γ : Type} (x : Except ε α) (y : Except ε β) (f : α → β → γ) :
    error? (do let a ← x; let b ← y; return f a b) = (error? x).or (error? y) := by
  cases x with
  | error e => rfl
  | ok a =>
    cases y with
    | error e => rfl
    | ok b => rfl

theorem error?_mapM (f : α → Except ε β) (xs : List α) :
    error? (xs.mapM f) = xs.findSome? fun x => error? (f x) := by
  induction xs with
  | nil => rfl
  | cons x rest ih =>
    rw [List.mapM_cons, List.findSome?_cons, ← ih]
    cases f x with
    | error e => rfl
    | ok y => exact error?_map (y :: ·) (rest.mapM f)

theorem exists_of_mapM_error {f : α → Except ε β} {xs : List α} {e : ε}
    (h : xs.mapM f = .error e) : ∃ x ∈ xs, f x = .error e := by
  rw [← error?_eq_some_iff, error?_mapM] at h
  obtain ⟨x, hx, hfails⟩ := List.exists_of_findSome?_eq_some h
  exact ⟨x, hx, error?_eq_some_iff.1 hfails⟩

section MapBoth

variable {ε' β' : Type} {f : ε → ε'} {g : α → β}

/-- The result with another reason or with another value. -/
def mapBoth (f : ε → ε') (g : α → β) : Except ε α → Except ε' β
  | .ok a => .ok (g a)
  | .error e => .error (f e)

/-- Steps that correspond go on with results that correspond. -/
theorem bind_mapBoth {γ γ' : Type} {h : γ → γ'} {next : α → Except ε γ} {next' : β → Except ε' γ'}
    (hnext : ∀ a, next' (g a) = mapBoth f h (next a)) (x : Except ε α) :
    mapBoth f g x >>= next' = mapBoth f h (x >>= next) := by
  cases x with
  | error e => rfl
  | ok a => exact hnext a

theorem mapError_mapBoth {δ δ' : Type} {h : δ → δ'} {reason : ε → δ} {reason' : ε' → δ'}
    (hreason : ∀ e, reason' (f e) = h (reason e)) (x : Except ε α) :
    (mapBoth f g x).mapError reason' = mapBoth h g (x.mapError reason) := by
  cases x with
  | error e => exact congrArg _ (hreason e)
  | ok a => rfl

theorem mapM_map_mapBoth {γ : Type} {p : γ → α} {step : γ → Except ε β} {step' : α → Except ε' β}
    (hstep : ∀ c, step' (p c) = mapBoth f id (step c)) (xs : List γ) :
    (xs.map p).mapM step' = mapBoth f id (xs.mapM step) := by
  induction xs with
  | nil => rfl
  | cons c rest ih =>
    rw [List.map_cons, List.mapM_cons, List.mapM_cons, hstep, ih]
    cases step c with
    | error e => rfl
    | ok b =>
      cases rest.mapM step with
      | error e => rfl
      | ok bs => rfl

end MapBoth

end Accumulator.Checked
