import Accumulator.Proofs.Machine.History
import Accumulator.Proofs.Machine.MicroStep

/-!
The pending symbol over whole sessions. A driver brings symbols and the program
reads them, in any order. The machine keeps one symbol, the one that arrived
last, until an `INPUT` reads it or another one takes its place; no other step
touches it. So symbols are read in the order in which they arrived, each at most
once, and a symbol is lost exactly if the next one comes before it is read.
-/

namespace Accumulator

/-- The symbol that was read. -/
def Event.input? : Event → Option Word
  | .input symbol => some symbol
  | _ => none

/-- The symbol that arrives. -/
def Action.symbol? : Action → Option Word
  | .input symbol => some symbol
  | _ => none

/-- What becomes of a symbol. -/
inductive Fate where
  /-- An `INPUT` succeeds before the next symbol arrives. -/
  | read
  /-- The next symbol arrives before an `INPUT` has succeeded. -/
  | lost
  /-- Neither has happened yet. -/
  | waiting
  deriving DecidableEq, Repr

namespace Machine

/-- The symbol that the action reads. -/
def taken? (m : Machine) (a : Action) : Option Word := (m.perform a).event.bind Event.input?

/-- The symbols that were read, in order. -/
def symbolsRead (m : Machine) (actions : List Action) : List Word :=
  (m.events actions).filterMap Event.input?

/-- What becomes of the symbol that is pending now. -/
def fate (m : Machine) : List Action → Fate
  | [] => .waiting
  | a :: actions =>
    if a.symbol?.isSome then .lost
    else if (m.taken? a).isSome then .read
    else (m.perform a).machine.fate actions

/-- The symbols that arrive, in order, and what becomes of each. -/
def fates (m : Machine) : List Action → List (Word × Fate)
  | [] => []
  | a :: actions =>
    a.symbol?.toList.map (fun symbol => (symbol, (m.perform a).machine.fate actions)) ++
      (m.perform a).machine.fates actions

/-- The action reads the pending symbol into the accumulator. -/
structure Takes (m : Machine) (a : Action) (symbol : Word) : Prop where
  step : a = .step
  phase : m.phase = .decode
  opcode : m.instruction.opcode = .input
  pending : m.pending = some symbol
  performed : m.perform a =
    { machine := { m with
        accumulator := symbol, zero := symbol == 0, pending := none, phase := .fetch }
      result := .ok .running
      event := some (.input symbol) }

/-- The action neither brings a symbol nor reads one. -/
structure Spares (m : Machine) (a : Action) : Prop where
  arrival : a.symbol? = none
  taken : m.taken? a = none
  pending : (m.perform a).machine.pending = m.pending

variable {m start : Machine} {actions : List Action} {a : Action} {s : Word}

theorem pending_cases (m : Machine) (a : Action) :
    (∃ symbol, a = .input symbol) ∨ (∃ symbol, m.Takes a symbol) ∨ m.Spares a := by
  cases a with
  | input symbol => exact .inl ⟨symbol, rfl⟩
  | tick => exact .inr (.inr ⟨rfl, rfl, rfl⟩)
  | step =>
    have hstep : m.MicroStep (m.perform .step) := m.microStep
    have htaken : m.taken? .step = (m.perform .step).event.bind Event.input? := rfl
    generalize hperform : m.perform .step = next at hstep htaken
    cases hstep with
    | input hphase hinput hpending =>
      exact .inr (.inl ⟨_, rfl, hphase, hinput, hpending, hperform⟩)
    | _ =>
      exact .inr (.inr ⟨rfl, htaken, congrArg (fun next => next.machine.pending) hperform⟩)

theorem Takes.taken (h : m.Takes a s) : m.taken? a = some s := by
  rw [taken?, h.performed]
  rfl

theorem Takes.arrival (h : m.Takes a s) : a.symbol? = none := by
  rw [h.step]
  rfl

/-- An `INPUT` that was decoded reads the pending symbol. -/
theorem takes_of_pending (hphase : m.phase = .decode) (hinput : m.instruction.opcode = .input)
    (hpending : m.pending = some s) : m.Takes .step s := by
  refine ⟨rfl, hphase, hinput, hpending, ?_⟩
  change m.step = _
  rw [step_of_input hphase hinput, inputStep, hpending]
  rfl

theorem takes_of_taken (h : m.taken? a = some s) : m.Takes a s := by
  rcases m.pending_cases a with ⟨arrived, rfl⟩ | ⟨taken, htakes⟩ | hspares
  · cases h
  · rw [htakes.taken] at h
    cases h
    exact htakes
  · rw [hspares.taken] at h
    cases h

theorem symbolsRead_cons (m : Machine) (a : Action) (actions : List Action) :
    m.symbolsRead (a :: actions) =
      (m.taken? a).toList ++ (m.perform a).machine.symbolsRead actions := by
  rw [symbolsRead, events, responses, List.filterMap_cons]
  cases hevent : (m.perform a).event with
  | none =>
    rw [taken?, hevent]
    rfl
  | some e =>
    rw [taken?, hevent, Option.bind_some]
    cases hinput : e.input? with
    | none =>
      simp only [List.filterMap_cons, hinput]
      rfl
    | some symbol =>
      simp only [List.filterMap_cons, hinput]
      rfl

/-- The pending symbol and those that arrive later, with what becomes of each. -/
def ledger (m : Machine) (actions : List Action) : List (Word × Fate) :=
  m.pending.toList.map (fun symbol => (symbol, m.fate actions)) ++ m.fates actions

/-- A symbol that arrives takes the place of the one that is pending. -/
theorem ledger_arrival (m : Machine) (s : Word) (actions : List Action) :
    m.ledger (.input s :: actions) =
      m.pending.toList.map (fun symbol => (symbol, .lost)) ++ (m.arrive s).ledger actions :=
  rfl

theorem Takes.ledger (h : m.Takes a s) (actions : List Action) :
    m.ledger (a :: actions) = (s, .read) :: (m.perform a).machine.ledger actions := by
  have hafter : (m.perform a).machine.pending = none := by rw [h.performed]
  simp [Machine.ledger, fates, fate, h.arrival, h.taken, h.pending, hafter]

theorem Spares.ledger (h : m.Spares a) (actions : List Action) :
    m.ledger (a :: actions) = (m.perform a).machine.ledger actions := by
  simp [Machine.ledger, fates, fate, h.arrival, h.taken, h.pending]

/-- The symbols that are read are those whose fate that is, and the symbol that is pending in the
end is the one that waits. -/
theorem ledger_balanced (m : Machine) (actions : List Action) :
    m.symbolsRead actions = ((m.ledger actions).filter (·.2 = .read)).map Prod.fst ∧
      (m.after actions).pending.toList =
        ((m.ledger actions).filter (·.2 = .waiting)).map Prod.fst := by
  induction actions generalizing m with
  | nil =>
    unfold ledger
    cases hpending : m.pending <;>
      simp [symbolsRead, events, responses, fates, fate, after, hpending]
  | cons a actions ih =>
    obtain ⟨hread, hwaiting⟩ := ih (m.perform a).machine
    have hafter : m.after (a :: actions) = (m.perform a).machine.after actions := rfl
    rw [symbolsRead_cons, hafter, hread, hwaiting]
    rcases m.pending_cases a with ⟨arrived, rfl⟩ | ⟨taken, htakes⟩ | hspares
    · rw [ledger_arrival]
      cases m.pending <;> simp [taken?, perform]
    · rw [htakes.ledger, htakes.taken]
      simp
    · rw [hspares.ledger, hspares.taken]
      simp

theorem ledger_of_pending_none (h : m.pending = none) (actions : List Action) :
    m.ledger actions = m.fates actions := by
  rw [ledger, h]
  rfl

/-- Every symbol that arrives has one fate. -/
theorem fates_symbols (m : Machine) (actions : List Action) :
    (m.fates actions).map Prod.fst = actions.filterMap Action.symbol? := by
  induction actions generalizing m with
  | nil => rfl
  | cons a actions ih =>
    rw [fates, List.map_append, ih, List.filterMap_cons]
    cases a.symbol? <;> rfl

/-- The fate of the symbol that arrives behind some actions is told in its place. -/
theorem fates_at (m : Machine) (before : List Action) (s : Word) (rest : List Action) :
    (m.fates (before ++ .input s :: rest))[(before.filterMap Action.symbol?).length]? =
      some (s, (m.after (before ++ [.input s])).fate rest) := by
  induction before generalizing m with
  | nil => rfl
  | cons a before ih =>
    have hrest := ih (m.perform a).machine
    rw [List.cons_append, fates, List.filterMap_cons]
    cases a.symbol? with
    | none => exact hrest
    | some symbol => exact hrest

/-- The next symbol arrives before a symbol is read. -/
def Overtaken (m : Machine) (rest : List Action) : Prop :=
  ∃ since t later, rest = since ++ .input t :: later ∧ (∀ u, .input u ∉ since) ∧
    m.symbolsRead since = []

theorem overtaken_arrival (m : Machine) (t : Word) (rest : List Action) :
    m.Overtaken (.input t :: rest) :=
  ⟨[], t, rest, rfl, nofun, rfl⟩

theorem Takes.not_overtaken (h : m.Takes a s) (rest : List Action) :
    ¬ m.Overtaken (a :: rest) := by
  rintro ⟨since, t, later, hrest, -, hread⟩
  cases since with
  | nil =>
    cases hrest
    cases h.step
  | cons b since =>
    cases hrest
    rw [symbolsRead_cons, h.taken] at hread
    cases hread

theorem Spares.overtaken_iff (h : m.Spares a) (rest : List Action) :
    m.Overtaken (a :: rest) ↔ (m.perform a).machine.Overtaken rest := by
  constructor
  · rintro ⟨since, t, later, hrest, harrival, hread⟩
    cases since with
    | nil =>
      cases hrest
      cases h.arrival
    | cons b since =>
      cases hrest
      rw [symbolsRead_cons, h.taken] at hread
      exact ⟨since, t, later, rfl, fun u hu => harrival u (List.mem_cons_of_mem _ hu), hread⟩
  · rintro ⟨since, t, later, rfl, harrival, hread⟩
    refine ⟨a :: since, t, later, rfl, ?_, ?_⟩
    · intro u hu
      rcases List.mem_cons.1 hu with rfl | hu
      · cases h.arrival
      · exact harrival u hu
    · rw [symbolsRead_cons, h.taken, hread]
      rfl

/-- A symbol is lost if and only if the next one arrives before a symbol is read. -/
theorem fate_eq_lost_iff (m : Machine) (rest : List Action) :
    m.fate rest = .lost ↔ m.Overtaken rest := by
  induction rest generalizing m with
  | nil =>
    refine ⟨nofun, ?_⟩
    rintro ⟨since, t, later, hrest, -⟩
    simp at hrest
  | cons a rest ih =>
    rcases m.pending_cases a with ⟨arrived, rfl⟩ | ⟨taken, htakes⟩ | hspares
    · exact ⟨fun _ => m.overtaken_arrival arrived rest, fun _ => rfl⟩
    · simp [fate, htakes.arrival, htakes.taken, htakes.not_overtaken rest]
    · simp [fate, hspares.arrival, hspares.taken, hspares.overtaken_iff rest, ih]

theorem symbolsRead_concat (m : Machine) (actions : List Action) (a : Action) :
    m.symbolsRead (actions ++ [a]) =
      m.symbolsRead actions ++ ((m.after actions).taken? a).toList := by
  rw [symbolsRead, events_concat, List.filterMap_append, taken?]
  cases ((m.after actions).perform a).event with
  | none => rfl
  | some e => cases hinput : e.input? <;> simp [symbolsRead, hinput]

/-- The symbol is the last that has arrived, and none was read since. -/
def Unread (start : Machine) (actions : List Action) (s : Word) : Prop :=
  ∃ before since, actions = before ++ .input s :: since ∧ (∀ t, .input t ∉ since) ∧
    (start.after (before ++ [.input s])).symbolsRead since = []

/-- No symbol has arrived since the last one was read, or at all if none was read. -/
def Drained (start : Machine) (actions : List Action) : Prop :=
  ∃ before since, actions = before ++ since ∧
    (before = [] ∨ ∃ earlier s, before = earlier ++ [.step] ∧
      (start.after earlier).taken? .step = some s) ∧
    (∀ t, .input t ∉ since) ∧ (start.after before).symbolsRead since = []

/-- What is pending stays while no symbol arrives and none is read. -/
theorem pending_after (m : Machine) {since : List Action} (harrival : ∀ t, .input t ∉ since)
    (hread : m.symbolsRead since = []) : (m.after since).pending = m.pending := by
  induction since generalizing m with
  | nil => rfl
  | cons a since ih =>
    rw [symbolsRead_cons, List.append_eq_nil_iff] at hread
    have hrest := ih (m.perform a).machine
      (fun t ht => harrival t (List.mem_cons_of_mem _ ht)) hread.2
    rcases m.pending_cases a with ⟨arrived, rfl⟩ | ⟨taken, htakes⟩ | hspares
    · exact absurd List.mem_cons_self (harrival arrived)
    · rw [htakes.taken] at hread
      cases hread.1
    · exact hrest.trans hspares.pending

/-- A time in which no symbol arrives and none is read is longer by an action that does neither. -/
theorem Spares.concat {since : List Action} (h : (m.after since).Spares a)
    (harrival : ∀ t, .input t ∉ since) (hread : m.symbolsRead since = []) :
    (∀ t, .input t ∉ since ++ [a]) ∧ m.symbolsRead (since ++ [a]) = [] := by
  constructor
  · intro t ht
    rcases List.mem_append.1 ht with ht | ht
    · exact harrival t ht
    · cases List.mem_singleton.1 ht
      cases h.arrival
  · rw [symbolsRead_concat, hread, h.taken]
    rfl

theorem Spares.unread (h : (start.after actions).Spares a) (hunread : start.Unread actions s) :
    start.Unread (actions ++ [a]) s := by
  obtain ⟨before, since, rfl, harrival, hread⟩ := hunread
  rw [← List.singleton_append, ← List.append_assoc, after_append] at h
  exact ⟨before, since ++ [a], by simp, h.concat harrival hread⟩

theorem Spares.drained (h : (start.after actions).Spares a) (hdrained : start.Drained actions) :
    start.Drained (actions ++ [a]) := by
  obtain ⟨before, since, rfl, hbefore, harrival, hread⟩ := hdrained
  rw [after_append] at h
  exact ⟨before, since ++ [a], by simp, hbefore, h.concat harrival hread⟩

/-- The pending symbol is the last that has arrived, unless it was read. -/
theorem unread_or_drained (hstart : start.pending = none) (actions : List Action) :
    match (start.after actions).pending with
    | some s => start.Unread actions s
    | none => start.Drained actions := by
  induction actions using List.reverseRecOn with
  | nil =>
    have hnone : (start.after []).pending = none := hstart
    rw [hnone]
    exact ⟨[], [], rfl, .inl rfl, nofun, rfl⟩
  | append_singleton actions a ih =>
    rw [after_concat]
    rcases (start.after actions).pending_cases a with ⟨arrived, rfl⟩ | ⟨taken, htakes⟩ | hspares
    · exact ⟨actions, [], rfl, nofun, rfl⟩
    · have htaken := htakes.taken
      rw [htakes.performed]
      obtain rfl := htakes.step
      exact ⟨actions ++ [.step], [], by simp, .inr ⟨actions, taken, rfl, htaken⟩, nofun, rfl⟩
    · rw [hspares.pending]
      cases hpending : (start.after actions).pending with
      | some s =>
        rw [hpending] at ih
        exact hspares.unread ih
      | none =>
        rw [hpending] at ih
        exact hspares.drained ih

theorem Drained.pending (hstart : start.pending = none) (h : start.Drained actions) :
    (start.after actions).pending = none := by
  obtain ⟨before, since, rfl, hbefore, harrival, hread⟩ := h
  rw [after_append, pending_after _ harrival hread]
  rcases hbefore with rfl | ⟨earlier, s, rfl, htaken⟩
  · exact hstart
  · rw [after_concat, (takes_of_taken htaken).performed]

theorem unread_of_pending (hstart : start.pending = none)
    (h : (start.after actions).pending = some s) : start.Unread actions s := by
  have hcases := unread_or_drained hstart actions
  rwa [h] at hcases

theorem pending_eq_none_iff (hstart : start.pending = none) :
    (start.after actions).pending = none ↔ start.Drained actions := by
  refine ⟨?_, Drained.pending hstart⟩
  intro h
  have hcases := unread_or_drained hstart actions
  rwa [h] at hcases

theorem endOfInput_iff (hphase : m.phase = .decode) (hinput : m.instruction.opcode = .input) :
    m.step.result = .error .endOfInput ↔ m.pending = none := by
  cases hpending : m.pending with
  | none =>
    rw [step_of_input hphase hinput, inputStep, hpending]
    exact ⟨fun _ => rfl, fun _ => rfl⟩
  | some s =>
    have hstep : m.step.result = .ok .running :=
      congrArg Step.result (takes_of_pending hphase hinput hpending).performed
    rw [hstep]
    exact ⟨nofun, nofun⟩

/-- What a session makes of the symbols that a driver brings. -/
structure Served (start : Machine) (actions : List Action) : Prop where
  /-- An `INPUT` that succeeds reads the symbol that arrived last, which was not read before. -/
  reads : ∀ a s, ((start.after actions).perform a).event = some (.input s) →
    (start.after actions).Takes a s ∧ start.Unread actions s
  /-- An `INPUT` that is decoded has no other way to succeed than to read a symbol. -/
  succeeds : (start.after actions).phase = .decode →
    (start.after actions).instruction.opcode = .input →
      ∀ status, (start.after actions).step.result = .ok status →
        ∃ s, (start.after actions).Takes .step s
  /-- An `INPUT` fails for want of input if and only if nothing arrived since the last reading. -/
  starves : (start.after actions).phase = .decode →
    (start.after actions).instruction.opcode = .input →
      ((start.after actions).step.result = .error .endOfInput ↔ start.Drained actions)
  /-- Whatever is not an arrival or a reading leaves the pending symbol alone. -/
  keeps : ∀ a, a.symbol? = none → (∀ s, ((start.after actions).perform a).event ≠ some (.input s)) →
    ((start.after actions).perform a).machine.pending = (start.after actions).pending
  /-- The symbols that were read are, in order, those of the arrivals whose fate it was. -/
  order : start.symbolsRead actions = ((start.fates actions).filter (·.2 = .read)).map Prod.fst
  waits : (start.after actions).pending.toList =
    ((start.fates actions).filter (·.2 = .waiting)).map Prod.fst
  arrivals : (start.fates actions).map Prod.fst = actions.filterMap Action.symbol?
  subsequence : (start.symbolsRead actions).Sublist (actions.filterMap Action.symbol?)
  /-- The symbol of an arrival is lost if and only if the next one comes before it is read. -/
  lost : ∀ before s rest, actions = before ++ .input s :: rest →
    ∃ fate, (start.fates actions)[(before.filterMap Action.symbol?).length]? = some (s, fate) ∧
      (fate = .lost ↔ (start.after (before ++ [.input s])).Overtaken rest)

/-- Whatever an image holds, and whatever a driver does with its machine, no symbol is read twice,
out of order or without having arrived, and none is lost but to the next one. -/
theorem symbols_served (image : Image) (actions : List Action) :
    (ofImage image).Served actions := by
  have hstart : (ofImage image).pending = none := rfl
  obtain ⟨hread, hwaiting⟩ := ledger_balanced (ofImage image) actions
  rw [ledger_of_pending_none hstart] at hread hwaiting
  have harrivals := fates_symbols (ofImage image) actions
  refine ⟨?_, ?_, ?_, ?_, hread, hwaiting, harrivals, ?_, ?_⟩
  · intro a s hevent
    have htakes : ((ofImage image).after actions).Takes a s :=
      takes_of_taken (by rw [taken?, hevent]; rfl)
    exact ⟨htakes, unread_of_pending hstart htakes.pending⟩
  · intro hphase hinput status hok
    cases hpending : ((ofImage image).after actions).pending with
    | some s => exact ⟨s, takes_of_pending hphase hinput hpending⟩
    | none =>
      rw [(endOfInput_iff hphase hinput).2 hpending] at hok
      cases hok
  · intro hphase hinput
    rw [endOfInput_iff hphase hinput, pending_eq_none_iff hstart]
  · intro a harrival hevent
    rcases ((ofImage image).after actions).pending_cases a with ⟨s, rfl⟩ | ⟨s, htakes⟩ | hspares
    · cases harrival
    · exact absurd (by rw [htakes.performed]) (hevent s)
    · exact hspares.pending
  · rw [hread, ← harrivals]
    exact List.filter_sublist.map Prod.fst
  · rintro before s rest rfl
    exact ⟨_, fates_at _ before s rest, fate_eq_lost_iff _ rest⟩

/-- A program that puts out what it reads. -/
def copying : Image where
  memory := #[⟨0, .input, none⟩, ⟨1, .output, none⟩, ⟨2, .jump, some 0⟩]

/-- The second symbol arrives before the first is read, and no third one arrives. -/
def overrun : List Action :=
  [.input 65, .step, .input 66, .step, .tick, .step, .step, .step, .step, .step]

theorem symbols_served_overrun :
    (ofImage copying).fates overrun = [(65, .lost), (66, .read)] ∧
      (ofImage copying).symbolsRead overrun = [66] ∧ (ofImage copying).Drained overrun := by
  have hfates : (ofImage copying).fates overrun = [(65, .lost), (66, .read)] := by decide
  have hserved := symbols_served copying overrun
  refine ⟨hfates, ?_, ?_⟩
  · rw [hserved.order, hfates]
    rfl
  · exact (hserved.starves (by decide) (by decide)).1 (by decide)

end Machine

end Accumulator
