import Accumulator.Proofs.Machine.Pending
import Accumulator.Proofs.Run.Comparison
import Accumulator.Proofs.Run.Limit

/-!
When timed input becomes pending. An arrival waits for its tick, and for a tick
that none before it has taken, since a tick makes at most one symbol pending. So
a timetable tells beforehand when each arrival is due, and a run keeps to it up
to the last tick in which it takes a micro-step. What comes behind that tick has
no part in the run.
-/

namespace Accumulator

namespace Arrival

/-- The ticks at which arrivals become pending, if the first tick that is free is the given one. -/
def timetable (free : Nat) : List Arrival → List (Nat × Arrival)
  | [] => []
  | a :: rest => (max a.tick free, a) :: timetable (max a.tick free + 1) rest

def Ordered (arrivals : List Arrival) : Prop := arrivals.Pairwise fun a b => a.tick ≤ b.tick

/-- Two lists that begin with the same arrivals, and what differs in them comes behind a tick. -/
inductive AgreeUntil (k : Nat) : List Arrival → List Arrival → Prop where
  | later {arrivals others : List Arrival} (harrivals : ∀ a ∈ arrivals, k < a.tick)
    (hothers : ∀ a ∈ others, k < a.tick) : AgreeUntil k arrivals others
  | same (a : Arrival) {rest others : List Arrival} (hrest : AgreeUntil k rest others) :
    AgreeUntil k (a :: rest) (a :: others)

variable {k free : Nat} {arrivals others : List Arrival}

theorem map_snd_timetable (free : Nat) (arrivals : List Arrival) :
    (timetable free arrivals).map Prod.snd = arrivals := by
  induction arrivals generalizing free with
  | nil => rfl
  | cons a rest ih => rw [timetable, List.map_cons, ih]

theorem le_of_mem_timetable {d : Nat × Arrival} (hd : d ∈ timetable free arrivals) :
    free ≤ d.1 ∧ d.2.tick ≤ d.1 := by
  induction arrivals generalizing free with
  | nil => nomatch hd
  | cons a rest ih =>
    rw [timetable] at hd
    rcases List.mem_cons.1 hd with rfl | hd
    · exact ⟨Nat.le_max_right _ _, Nat.le_max_left _ _⟩
    · obtain ⟨hfree, htick⟩ := ih hd
      exact ⟨by omega, htick⟩

/-- No two arrivals have the same tick in the timetable. -/
theorem timetable_increasing (free : Nat) (arrivals : List Arrival) :
    (timetable free arrivals).Pairwise fun d e => d.1 < e.1 := by
  induction arrivals generalizing free with
  | nil => exact List.Pairwise.nil
  | cons a rest ih =>
    rw [timetable]
    refine List.Pairwise.cons ?_ (ih _)
    intro d hd
    exact (le_of_mem_timetable hd).1

theorem timetable_next {t t' : Nat} {a a' : Arrival}
    (hthis : (timetable free arrivals)[k]? = some (t, a))
    (hnext : (timetable free arrivals)[k + 1]? = some (t', a')) : t' = max a'.tick (t + 1) := by
  induction arrivals generalizing free k with
  | nil => nomatch hthis
  | cons first rest ih =>
    rw [timetable] at hthis hnext
    rw [List.getElem?_cons_succ] at hnext
    cases k with
    | zero =>
      cases hthis
      cases rest with
      | nil => nomatch hnext
      | cons second rest =>
        cases hnext
        rfl
    | succ k => exact ih hthis hnext

theorem filter_eq_nil_iff_later :
    arrivals.filter (·.tick ≤ k) = [] ↔ ∀ a ∈ arrivals, k < a.tick := by
  rw [List.filter_eq_nil_iff]
  refine forall₂_congr fun a _ => ?_
  rw [decide_eq_true_eq, Nat.not_le]

theorem later_of_ordered {a : Arrival} (hordered : Ordered (a :: arrivals)) (ha : k < a.tick) :
    ∀ b ∈ a :: arrivals, k < b.tick := by
  intro b hb
  rcases List.mem_cons.1 hb with rfl | hb
  · exact ha
  · exact Nat.lt_of_lt_of_le ha (List.rel_of_pairwise_cons hordered hb)

/-- Ordered lists with the same arrivals up to a tick begin with these. -/
theorem agreeUntil_of_ordered (harrivals : Ordered arrivals) (hothers : Ordered others)
    (hsame : arrivals.filter (·.tick ≤ k) = others.filter (·.tick ≤ k)) :
    AgreeUntil k arrivals others := by
  induction arrivals generalizing others with
  | nil => exact .later nofun (filter_eq_nil_iff_later.1 hsame.symm)
  | cons a rest ih =>
    by_cases ha : a.tick ≤ k
    · rw [List.filter_cons_of_pos (by simpa using ha)] at hsame
      cases others with
      | nil => nomatch hsame
      | cons b others =>
        by_cases hb : b.tick ≤ k
        · rw [List.filter_cons_of_pos (by simpa using hb)] at hsame
          obtain ⟨rfl, hrest⟩ := List.cons.inj hsame
          exact .same a (ih harrivals.of_cons hothers.of_cons hrest)
        · have hlater := later_of_ordered hothers (Nat.lt_of_not_le hb)
          rw [filter_eq_nil_iff_later.2 hlater] at hsame
          nomatch hsame
    · have hlater := later_of_ordered harrivals (Nat.lt_of_not_le ha)
      rw [filter_eq_nil_iff_later.2 hlater] at hsame
      exact .later hlater (filter_eq_nil_iff_later.1 hsame.symm)

end Arrival

namespace Run

open Arrival Machine

/-- The tick that begins, with the arrival that becomes pending in it. -/
def delivery? (r : Run) : Option (Nat × Arrival) := r.due?.map fun a => (r.machine.tick, a)

/-- The arrivals that became pending in a run, each with its tick. -/
def deliveries (limits : Limits) (r : Run) : List (Nat × Arrival) :=
  (r.begun limits).flatMap fun r => r.delivery?.toList

/-- The ticks in which a run takes a micro-step. -/
def stepTicks (limits : Limits) (r : Run) : List Nat :=
  (r.begun limits).map fun r => r.machine.tick

variable {limits : Limits} {r r' : Run} {start : Machine} {actions : List Action}

/-- A tick takes from the timetable what is due in it. -/
theorem timetable_eq (r : Run) : timetable r.machine.tick r.arrivals =
    r.delivery?.toList ++ timetable (r.machine.tick + 1) r.deliver.arrivals := by
  obtain ⟨m, arrivals, _, _, _⟩ := r
  cases arrivals with
  | nil => rfl
  | cons a rest =>
    by_cases hdue : a.tick ≤ m.tick
    · simp [deliver, delivery?, due?, Option.filter, hdue, timetable]
    · have hlate : max a.tick m.tick = max a.tick (m.tick + 1) := by omega
      simp [deliver, delivery?, due?, Option.filter, hdue, timetable, hlate]

theorem tick_of_delivery? {d : Nat × Arrival} (hd : d ∈ r.delivery?.toList) :
    d.1 = r.machine.tick := by
  rw [Option.mem_toList] at hd
  obtain ⟨a, -, rfl⟩ := Option.map_eq_some_iff.1 hd
  rfl

/-- A run takes its micro-steps in one tick after the other. -/
theorem begunFrom_ticks (n : Nat) (r : Run) :
    (begunFrom limits n r).map (fun r => r.machine.tick) =
      List.range' r.machine.tick (begunFrom limits n r).length := by
  induction n generalizing r with
  | zero => rfl
  | succ n ih =>
    rcases r.running_or_ending with hrunning | ⟨ending, hending⟩
    · rw [begunFrom_of_running hrunning, List.map_cons, ih, passed_tick, List.length_cons,
        List.range'_succ]
    · rw [begunFrom_of_ending hending]
      rfl

/-- Of the timetable, a run that goes on for some ticks delivers what is due in them. -/
theorem begunFrom_deliveries (n : Nat) (r : Run) :
    ((begunFrom limits n r).flatMap fun r => r.delivery?.toList) =
      (timetable r.machine.tick r.arrivals).filter
        (·.1 < r.machine.tick + (begunFrom limits n r).length) := by
  -- what is due in the tick that begins is delivered in it; all else is due later
  have hnow (k : Nat) (r : Run) :
      r.delivery?.toList.filter (·.1 < r.machine.tick + (k + 1)) = r.delivery?.toList := by
    rw [List.filter_eq_self]
    intro d hd
    rw [tick_of_delivery? hd, decide_eq_true_eq]
    omega
  have hlater (free : Nat) (arrivals : List Arrival) :
      (timetable free arrivals).filter (·.1 < free) = [] := by
    rw [List.filter_eq_nil_iff]
    intro d hd
    rw [decide_eq_true_eq, Nat.not_lt]
    exact (le_of_mem_timetable hd).1
  induction n generalizing r with
  | zero => exact (hlater _ _).symm
  | succ n ih =>
    rw [timetable_eq, List.filter_append]
    rcases r.running_or_ending with hrunning | ⟨ending, hending⟩
    · rw [begunFrom_of_running hrunning, List.flatMap_cons, ih, passed_tick, passed_arrivals,
        List.length_cons, hnow, Nat.add_right_comm, Nat.add_assoc]
    · rw [begunFrom_of_ending hending, List.flatMap_singleton, List.length_singleton, hlater,
        hnow 0, List.append_nil]

/-- The symbols that arrive in a tick are those that are delivered in it. -/
theorem symbols_turn (r : Run) : r.turn.filterMap Action.symbol? =
    r.delivery?.toList.map fun d => d.2.symbol := by
  unfold turn arriving delivery?
  cases r.due? with
  | none => cases Ending.behind? r.upcoming.result <;> rfl
  | some a => cases Ending.behind? r.upcoming.result <;> rfl

theorem symbols_turns (ticks : List Run) : (ticks.flatMap turn).filterMap Action.symbol? =
    (ticks.flatMap fun r => r.delivery?.toList).map fun d => d.2.symbol := by
  rw [List.filterMap_flatMap, List.map_flatMap]
  simp only [symbols_turn]

section Later

/-- The runs differ in arrivals that come too late for the first of them. -/
def DifferLate (limits : Limits) (k : Nat) (r r' : Run) : Prop :=
  (r.complete limits).1.machine.tick ≤ k ∧
    ∃ others, r' = r.awaiting others ∧ AgreeUntil k r.arrivals others

theorem deliver_of_agree {k : Nat} {others : List Arrival} (h : AgreeUntil k r.arrivals others)
    (htick : r.machine.tick ≤ k) : ∃ rest, AgreeUntil k r.deliver.arrivals rest ∧
      (r.awaiting others).deliver = r.deliver.awaiting rest := by
  generalize harrivals : r.arrivals = arrivals at h
  cases h with
  | later hearly hothers =>
    have hr : r.deliver = r := by
      apply deliver_of_late
      intro a ha
      exact Nat.lt_of_le_of_lt htick (hearly a (harrivals ▸ ha))
    have hr' : (r.awaiting others).deliver = r.awaiting others := by
      apply deliver_of_late
      intro a ha
      exact Nat.lt_of_le_of_lt htick (hothers a ha)
    rw [hr, hr', harrivals]
    exact ⟨others, .later hearly hothers, rfl⟩
  | @same a rest others hrest =>
    obtain ⟨m, _, _, _, _⟩ := r
    cases harrivals
    by_cases hdue : a.tick ≤ m.tick
    · simp only [deliver, awaiting, hdue, if_true]
      exact ⟨others, hrest, rfl⟩
    · simp only [deliver, awaiting, hdue, if_false]
      exact ⟨a :: others, .same a hrest, rfl⟩

theorem tick_le_complete (limits : Limits) (r : Run) :
    r.machine.tick ≤ (r.complete limits).1.machine.tick :=
  (grows_goOn limits _ r).ticks

/-- Arrivals that come too late do not bring a run out of step. -/
theorem inStep_differLate (limits : Limits) (k : Nat) : InStep limits (DifferLate limits k) where
  shown := by
    rintro r _ ⟨-, others, rfl, -⟩
    rfl
  tick := by
    rintro r _ ⟨hend, others, rfl, hagree⟩ -
    have htick := Nat.le_trans (tick_le_complete limits r) hend
    obtain ⟨rest, -, hdeliver⟩ := deliver_of_agree hagree htick
    obtain ⟨hupcoming, hstepped, -⟩ := tick_of_awaiting limits hdeliver
    rw [hupcoming, hstepped]
    exact ⟨rfl, rfl⟩
  passed := by
    rintro r _ ⟨hend, others, rfl, hagree⟩ hbelow hrunning
    have htick := Nat.le_trans (tick_le_complete limits r) hend
    obtain ⟨rest, hrest, hdeliver⟩ := deliver_of_agree hagree htick
    obtain ⟨-, -, hpassed⟩ := tick_of_awaiting limits hdeliver
    rw [complete_of_running hbelow hrunning] at hend
    rw [← passed_arrivals limits r] at hrest
    exact ⟨hend, rest, hpassed, hrest⟩

end Later

/-- The arrivals of a run become pending by the timetable. -/
structure Scheduled (limits : Limits) (start : Run) : Prop where
  arrivals : (timetable 0 start.arrivals).map Prod.snd = start.arrivals
  /-- The first arrival is due at its tick. -/
  first : ∀ t a, (timetable 0 start.arrivals)[0]? = some (t, a) → t = a.tick
  /-- Every other arrival is due at its tick, but behind the arrival before it. -/
  next : ∀ k t a t' a', (timetable 0 start.arrivals)[k]? = some (t, a) →
    (timetable 0 start.arrivals)[k + 1]? = some (t', a') → t' = max a'.tick (t + 1)
  /-- What the run does with its machine. -/
  session : (start.complete limits).1.Follows start.machine ((start.begun limits).flatMap turn)
  ticks : start.stepTicks limits = List.range (start.begun limits).length
  /-- What is due is delivered if the run takes a micro-step then. -/
  delivered : start.deliveries limits =
    (timetable 0 start.arrivals).filter (·.1 ∈ start.stepTicks limits)
  apart : (start.deliveries limits).Pairwise fun d e => d.1 < e.1
  due : ∀ d ∈ start.deliveries limits, d.2.tick ≤ d.1
  inputs : ((start.complete limits).1.events.toList.filterMap Event.input?).Sublist
    (start.arrivals.map Arrival.symbol)

section Scheduled

variable {start : Run}

theorem stepTicks_eq (limits : Limits) (htick : start.machine.tick = 0) :
    start.stepTicks limits = List.range (start.begun limits).length := by
  rw [List.range_eq_range', ← htick]
  exact begunFrom_ticks _ start

theorem deliveries_eq (limits : Limits) (htick : start.machine.tick = 0) : start.deliveries limits =
    (timetable 0 start.arrivals).filter (·.1 ∈ start.stepTicks limits) := by
  have hdeliveries : start.deliveries limits = (timetable start.machine.tick start.arrivals).filter
      (·.1 < start.machine.tick + (start.begun limits).length) := begunFrom_deliveries _ start
  rw [hdeliveries, htick, stepTicks_eq limits htick]
  simp only [List.mem_range, Nat.zero_add]

theorem deliveries_sublist (limits : Limits) (htick : start.machine.tick = 0) :
    ((start.deliveries limits).map Prod.snd).Sublist start.arrivals := by
  rw [deliveries_eq limits htick]
  have hall := (List.filter_sublist (p := fun d => d.1 ∈ start.stepTicks limits)
    (l := timetable 0 start.arrivals)).map Prod.snd
  rwa [map_snd_timetable] at hall

/-- A machine that has nothing pending reads what is delivered to it, or some of that. -/
theorem inputs_sublist (hpending : start.machine.pending = none)
    (hsession : r.Follows start.machine ((start.begun limits).flatMap turn)) :
    (r.events.toList.filterMap Event.input?).Sublist
      ((start.deliveries limits).map fun d => d.2.symbol) := by
  have hread := (ledger_balanced start.machine ((start.begun limits).flatMap turn)).1
  rw [ledger_of_pending_none hpending] at hread
  have hfates := fates_symbols start.machine ((start.begun limits).flatMap turn)
  rw [symbols_turns] at hfates
  rw [hsession.events]
  change (start.machine.symbolsRead _).Sublist (((start.begun limits).flatMap _).map _)
  rw [hread, ← hfates]
  exact List.filter_sublist.map Prod.fst

end Scheduled

theorem scheduled_start (image : Image) (arrivals : List Arrival) (limits : Limits) :
    Scheduled limits (Run.start image arrivals) := by
  have htick : (Run.start image arrivals).machine.tick = 0 := rfl
  have hsession : ((Run.start image arrivals).complete limits).1.Follows (ofImage image)
      (((Run.start image arrivals).begun limits).flatMap turn) :=
    (follows_start image arrivals).goOn _
  have hdelivered := deliveries_eq limits htick
  exact {
    arrivals := map_snd_timetable 0 arrivals
    first := by
      change ∀ t a, (timetable 0 arrivals)[0]? = some (t, a) → t = a.tick
      intro t a hfirst
      cases arrivals with
      | nil => nomatch hfirst
      | cons b rest =>
        cases hfirst
        exact Nat.max_zero _
    next := fun k t a t' a' => timetable_next
    session := hsession
    ticks := stepTicks_eq limits htick
    delivered := hdelivered
    apart := by
      rw [hdelivered]
      exact (timetable_increasing 0 _).filter _
    due := by
      intro d hd
      rw [hdelivered] at hd
      exact (le_of_mem_timetable (List.mem_filter.1 hd).1).2
    inputs := by
      have hall := (deliveries_sublist limits htick).map Arrival.symbol
      rw [List.map_map] at hall
      exact (inputs_sublist rfl hsession).trans hall }

/-- Every arrival is due at its tick, or behind the arrival before it, and becomes pending then if
the run takes a micro-step. What comes later than the last tick of a run has no part in it. -/
theorem arrivals_scheduled (image : Image) (arrivals : List Arrival) (limits : Limits) :
    let start := Run.start image arrivals
    let final := (start.complete limits).1
    Scheduled limits start ∧
      ∀ others : List Arrival, Ordered arrivals → Ordered others →
        others.filter (·.tick ≤ final.machine.tick) =
            arrivals.filter (·.tick ≤ final.machine.tick) →
          SameEnd limits (Run.start image others) start ∧
            simulate image others limits = simulate image arrivals limits := by
  intro start final
  refine ⟨scheduled_start image arrivals limits, ?_⟩
  intro others harrivals hothers hsame
  have hlate : DifferLate limits final.machine.tick start (Run.start image others) :=
    ⟨Nat.le_refl _, others, rfl, agreeUntil_of_ordered harrivals hothers hsame.symm⟩
  have hend := ((inStep_differLate limits final.machine.tick).sameEnd hlate).symm
  exact ⟨hend, hend.simulate_eq⟩

/-- Two symbols come at once and the second is put off. The limit comes before the third, so this
could be any other symbol. -/
theorem arrivals_scheduled_burst :
    let arrivals : List Arrival := [⟨0, 65⟩, ⟨0, 66⟩, ⟨9, 67⟩]
    let others : List Arrival := [⟨0, 65⟩, ⟨0, 66⟩, ⟨8, 68⟩, ⟨8, 69⟩]
    let limits : Limits := { ticks := 7, trace := 0 }
    Run.deliveries limits (.start copying arrivals) = [(0, ⟨0, 65⟩), (1, ⟨0, 66⟩)] ∧
      (timetable 0 arrivals).map Prod.fst = [0, 1, 9] ∧
        simulate copying others limits = simulate copying arrivals limits := by
  intro arrivals others limits
  have hscheduled := arrivals_scheduled copying arrivals limits
  have hticks : (Run.start copying arrivals).stepTicks limits = [0, 1, 2, 3, 4, 5, 6] := by
    decide +kernel
  refine ⟨?_, rfl, ?_⟩
  · rw [hscheduled.1.delivered, hticks]
    decide
  · exact (hscheduled.2 others (by unfold Ordered; decide) (by unfold Ordered; decide)
      (by decide +kernel)).2

end Run

end Accumulator
