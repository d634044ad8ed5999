import Accumulator.Machine.Step

/-!
The operations of the data path as such. An operation that can fail looks at the
machine first, and nothing fails once it has made a change. So the machine that
it hands on with a fault is the one it was given. Nor does an operation know of
more than the memory and three registers: whatever else is in the machine stays
what it is and makes no difference.
-/

namespace Accumulator

/-- A change of the machine that does not touch what the operations of the data path work on. -/
structure Machine.Aside (g : Machine → Machine) : Prop where
  memory : ∀ m, (g m).memory = m.memory
  accumulator : ∀ m, (g m).accumulator = m.accumulator
  dataAddress : ∀ m, (g m).dataAddress = m.dataAddress
  store : ∀ m memory, g { m with memory } = { g m with memory }
  load : ∀ m w, g (m.load w) = (g m).load w
  compare : ∀ m z, g { m with zero := z } = { g m with zero := z }
  setDataAddress : ∀ m address, g (m.setDataAddress address) = (g m).setDataAddress address

namespace Operation

variable {α β : Type}

/-- The operation leaves the machine as it was, whether it fails or not. -/
def Looks (operation : Operation α) : Prop :=
  ∀ m, (∃ a, operation m = .ok a m) ∨ ∃ f, operation m = .error f m

/-- The operation leaves the machine as it was if it fails. -/
def Atomic (operation : Operation α) : Prop := ∀ m f n, operation m = .error f n → n = m

/-- What an operation ends with, its machine changed. -/
def followedBy (g : Machine → Machine) :
    EStateM.Result Fault Machine α → EStateM.Result Fault Machine α
  | .ok a m => .ok a (g m)
  | .error f m => .error f (g m)

/-- It makes no difference if the machine is changed before the operation or behind it. -/
def Respects (operation : Operation α) (g : Machine → Machine) : Prop :=
  ∀ m, operation (g m) = followedBy g (operation m)

theorem look_apply (query : Machine → Except Fault α) (m : Machine) :
    look query m =
      match query m with
      | .ok a => .ok a m
      | .error f => .error f m := by
  change (match query m with | .ok a => pure a | .error f => throw f : Operation α) m = _
  cases query m with
  | ok a => rfl
  | error f => rfl

theorem look_bind_apply (query : Machine → Except Fault α) (next : α → Operation β) (m : Machine) :
    (look query >>= next) m =
      match query m with
      | .ok a => next a m
      | .error f => .error f m := by
  change EStateM.bind (look query) next m = _
  rw [EStateM.bind, look_apply]
  cases query m with
  | ok a => rfl
  | error f => rfl

section LookBind

variable {query : Machine → Except Fault α} {next : α → Operation β} {m n : Machine} {b : β}
  {f : Fault}

theorem look_bind_eq_ok_iff :
    (look query >>= next) m = .ok b n ↔ ∃ a, query m = .ok a ∧ next a m = .ok b n := by
  rw [look_bind_apply]
  cases query m with
  | ok a => simp
  | error e => simp

theorem look_bind_eq_error_iff :
    (look query >>= next) m = .error f n ↔
      query m = .error f ∧ n = m ∨ ∃ a, query m = .ok a ∧ next a m = .error f n := by
  rw [look_bind_apply]
  cases query m with
  | ok a => simp
  | error e => simp [eq_comm]

end LookBind

theorem looks_look (query : Machine → Except Fault α) : (look query).Looks := by
  intro m
  rw [look_apply]
  cases query m with
  | ok a => exact .inl ⟨a, rfl⟩
  | error f => exact .inr ⟨f, rfl⟩

/-- An operation that only looks may come before any other. -/
theorem Looks.bind {operation : Operation α} {next : α → Operation β} (h : operation.Looks)
    (hnext : ∀ a, (next a).Atomic) : Atomic (operation >>= next) := by
  intro m f n hfails
  change EStateM.bind operation next m = .error f n at hfails
  unfold EStateM.bind at hfails
  rcases h m with ⟨a, ha⟩ | ⟨e, he⟩
  · rw [ha] at hfails
    exact hnext a m f n hfails
  · rw [he] at hfails
    cases hfails
    rfl

theorem looks_get : Looks get := fun m => .inl ⟨m, rfl⟩

theorem atomic_throw (f : Fault) : Atomic (throw f : Operation α) := by
  intro m f' n h
  cases h
  rfl

theorem atomic_of_succeeds {operation : Operation α} (h : ∀ m, ∃ a n, operation m = .ok a n) :
    operation.Atomic := by
  intro m f n hfails
  obtain ⟨a, n', hok⟩ := h m
  rw [hok] at hfails
  cases hfails

theorem atomic_set (n : Machine) : Atomic (set n) := atomic_of_succeeds fun _ => ⟨_, _, rfl⟩

theorem atomic_modify (g : Machine → Machine) : Atomic (modify g) :=
  atomic_of_succeeds fun _ => ⟨_, _, rfl⟩

variable {g : Machine → Machine} {query : Machine → Except Fault α}

theorem respects_modify {h : Machine → Machine} (hcomm : ∀ m, g (h m) = h (g m)) :
    Respects (modify h) g :=
  fun m => congrArg (EStateM.Result.ok ()) (hcomm m).symm

theorem respects_look_bind {next : α → Operation β} (hquery : ∀ m, query (g m) = query m)
    (hnext : ∀ a, (next a).Respects g) : Respects (look query >>= next) g := by
  intro m
  rw [look_bind_apply, look_bind_apply, hquery]
  cases query m with
  | ok a => exact hnext a m
  | error f => rfl

end Operation

namespace Machine

open Operation

variable {α β : Type} {m n : Machine} {g : Machine → Machine}

/-- An attempt whose first look fails goes no further. -/
theorem attempt_look_bind (m : Machine) (query : Machine → Except Fault α) (next : α → Operation β)
    (goOn : β → Machine → Step) :
    m.attempt (look query >>= next) goOn =
      match query m with
      | .ok a => m.attempt (next a) goOn
      | .error f => m.fail f := by
  unfold attempt
  rw [look_bind_apply]
  cases query m with
  | ok a => rfl
  | error f => rfl

theorem store_apply (m : Machine) (address w : Word) :
    store address w m =
      if address.toNat < m.memory.size then
        .ok () { m with
          memory := m.memory.modify address.toNat fun c => { c with value := some w } }
      else .error (.outsideMemory address) m := by
  change (if address.toNat < m.memory.size then _ else _ : Operation Unit) m = _
  split
  next => rfl
  next => rfl

theorem combine_modulo_apply (m : Machine) (w : Word) :
    combine .modulo w m =
      if w = 0 then .error .divisionByZero m else .ok () (m.load (m.accumulator % w)) := by
  change (if w = 0 then _ else _ : Operation Unit) m = _
  split
  next => rfl
  next => rfl

theorem combine_modulo_eq_ok_iff {w : Word} :
    combine .modulo w m = .ok () n ↔ w ≠ 0 ∧ n = m.load (m.accumulator % w) := by
  rw [combine_modulo_apply]
  by_cases hw : w = 0
  · simp [hw]
  · simp [hw, eq_comm]

theorem combine_modulo_eq_error_iff {w : Word} {f : Fault} :
    combine .modulo w m = .error f n ↔ w = 0 ∧ f = .divisionByZero ∧ n = m := by
  rw [combine_modulo_apply]
  by_cases hw : w = 0
  · simp [hw, eq_comm]
  · simp [hw]

theorem accept_eq_ok_iff {pending : Option Word} {symbol : Word} :
    accept pending m = .ok symbol n ↔ pending = some symbol ∧ n = m.load symbol := by
  cases pending with
  | none => exact ⟨nofun, nofun⟩
  | some w =>
    change EStateM.Result.ok w (m.load w) = .ok symbol n ↔ _
    simp only [EStateM.Result.ok.injEq, Option.some.injEq]
    constructor
    · rintro ⟨rfl, rfl⟩
      exact ⟨rfl, rfl⟩
    · rintro ⟨rfl, rfl⟩
      exact ⟨rfl, rfl⟩

theorem accept_eq_error_iff {pending : Option Word} {f : Fault} :
    accept pending m = .error f n ↔ pending = none ∧ f = .endOfInput ∧ n = m := by
  cases pending with
  | some w => exact ⟨nofun, nofun⟩
  | none =>
    change EStateM.Result.error Fault.endOfInput m = .error f n ↔ _
    simp [eq_comm]

theorem atomic_store (address w : Word) : Atomic (store address w) := by
  refine looks_get.bind fun m => ?_
  split
  · exact atomic_set _
  · exact atomic_throw _

theorem atomic_save : save.Atomic := looks_get.bind fun _ => atomic_store _ _

theorem atomic_loadFrom (origin : Origin) : Atomic (loadFrom origin) :=
  (looks_look _).bind fun _ => atomic_modify _

theorem atomic_followDataAddress : followDataAddress.Atomic :=
  (looks_look _).bind fun _ => atomic_modify _

theorem atomic_combine (operation : Arithmetic) (w : Word) : Atomic (combine operation w) := by
  refine looks_get.bind fun m => ?_
  cases operation with
  | add | subtract | compare => exact atomic_set _
  | modulo =>
    -- the only one of them that can fail, and it does so before the accumulator is loaded
    change Atomic (if w = 0 then _ else _)
    split
    · exact atomic_throw _
    · exact atomic_set _

theorem atomic_compute (operation : Arithmetic) (origin : Origin) :
    Atomic (compute operation origin) :=
  (looks_look _).bind fun w => atomic_combine operation w

theorem atomic_accept (symbol : Option Word) : Atomic (accept symbol) := by
  cases symbol with
  | none => exact atomic_throw _
  | some w => exact atomic_of_succeeds fun _ => ⟨_, _, rfl⟩

theorem Aside.operandFrom (hg : Aside g) (origin : Origin) (m : Machine) :
    (g m).operandFrom origin = m.operandFrom origin := by
  cases origin with
  | immediate w => rfl
  | memory => simp only [Machine.operandFrom, datumAt, hg.memory, hg.dataAddress]

theorem respects_store (hg : Aside g) (address w : Word) : Respects (store address w) g := by
  intro m
  rw [store_apply, store_apply, hg.memory]
  split
  next => exact congrArg (EStateM.Result.ok ()) (hg.store m _).symm
  next => rfl

theorem respects_save (hg : Aside g) : save.Respects g := by
  intro m
  change store (g m).dataAddress (g m).accumulator (g m) = _
  rw [hg.dataAddress, hg.accumulator]
  exact respects_store hg _ _ m

theorem respects_loadFrom (hg : Aside g) (origin : Origin) : Respects (loadFrom origin) g :=
  respects_look_bind (hg.operandFrom origin) fun w => respects_modify fun m => hg.load m w

theorem respects_followDataAddress (hg : Aside g) : followDataAddress.Respects g :=
  respects_look_bind (hg.operandFrom .memory) fun address =>
    respects_modify fun m => hg.setDataAddress m address

theorem respects_combine (hg : Aside g) (operation : Arithmetic) (w : Word) :
    Respects (combine operation w) g := by
  intro m
  have hload (f : Word → Word) :
      (g m).load (f (g m).accumulator) = g (m.load (f m.accumulator)) := by
    rw [hg.load, hg.accumulator]
  cases operation with
  | add => exact congrArg (EStateM.Result.ok ()) (hload (· + w))
  | subtract => exact congrArg (EStateM.Result.ok ()) (hload (· - w))
  | compare =>
    change EStateM.Result.ok () { g m with zero := (g m).accumulator == w } = _
    rw [hg.accumulator, ← hg.compare]
    rfl
  | modulo =>
    rw [combine_modulo_apply, combine_modulo_apply]
    split
    · rfl
    · exact congrArg (EStateM.Result.ok ()) (hload (· % w))

theorem respects_compute (hg : Aside g) (operation : Arithmetic) (origin : Origin) :
    Respects (compute operation origin) g :=
  respects_look_bind (hg.operandFrom origin) fun w => respects_combine hg operation w

theorem respects_accept (hg : Aside g) (symbol : Option Word) : Respects (accept symbol) g := by
  intro m
  cases symbol with
  | none => rfl
  | some w => exact congrArg (EStateM.Result.ok w) (hg.load m w).symm

end Machine

end Accumulator
