import Accumulator.Proofs.Arrival.Listing
import Accumulator.Proofs.Text.Place

/-!
What the reader of arrivals has read where it stops: arrivals in order, and
behind them either something that is no arrival or one that comes too early.
-/

namespace Accumulator.Arrival

open Text

variable {e : ReadError} {cs text : List Char}

theorem readSymbol_eq_error (h : readSymbol cs = .error e) : e = { rest := cs } := by
  unfold readSymbol at h
  split at h
  · cases h
    rfl
  · split at h
    · cases h
      rfl
    · cases h

/-- An arrival that cannot be read departs from the grammar. -/
theorem readOne_error (h : readOne cs = .error e) : e.cause = none ∧ e.rest <:+ cs := by
  obtain ⟨reason, hreason, rfl⟩ := Checked.mapError_eq_error_iff.1 h
  unfold readContents at hreason
  split at hreason
  · cases hreason
    exact ⟨rfl, List.suffix_rfl⟩
  next tick behind htick =>
    obtain ⟨digits, -, -, -, -, rfl⟩ := Decimal.readBelow?_eq_some_iff.1 htick
    rcases Checked.bind_eq_error_iff.1 hreason with hskip | ⟨afterGap, hskip, hsymbol⟩
    · cases skip_eq_error hskip
      exact ⟨rfl, List.suffix_append digits behind⟩
    obtain ⟨gap, -, -, rfl⟩ := skip_eq_ok_iff.1 hskip
    rcases Checked.bind_eq_error_iff.1 hsymbol with hnone | ⟨_, -, hnothing⟩
    · cases readSymbol_eq_error hnone
      exact ⟨rfl, (List.suffix_append gap afterGap).trans (List.suffix_append digits _)⟩
    · cases hnothing

/-- Reading stops behind arrivals in order, at one that cannot be read or comes too early. -/
theorem readFrom_error {previous : Nat} (h : readFrom previous cs = .error e) :
    ∃ arrivals before here, Spells arrivals before ∧ OrderedFrom previous arrivals ∧
      cs = before ++ here ∧ (readOne here = .error e ∨
        ∃ a body rest, Written a body ∧ here = body ++ rest ∧
          a.tick < lastTick previous arrivals ∧
          e = { rest := here, cause := some ⟨a.tick, lastTick previous arrivals⟩ }) := by
  fun_induction readFrom previous cs
  case case1 => cases h
  case case2 previous cs here _ reason hread =>
    cases h
    obtain ⟨padding, hpadding, hsplit⟩ := exists_padding cs
    exact ⟨[], padding, here, .nil hpadding, .singleton previous, hsplit, .inl hread⟩
  case case3 previous cs here _ a rest hread hearly =>
    cases h
    obtain ⟨body, hbody, hhere⟩ := readOne_eq_ok_iff.1 hread
    obtain ⟨padding, hpadding, hsplit⟩ := exists_padding cs
    exact ⟨[], padding, here, .nil hpadding, .singleton previous, hsplit,
      .inr ⟨a, body, rest, hbody, hhere, hearly, rfl⟩⟩
  case case4 previous cs here _ a rest hread hlater ih =>
    obtain ⟨arrivals, before, stop, hspells, hordered, rfl, hstop⟩ :=
      ih (Checked.map_eq_error_iff.1 h)
    obtain ⟨body, hbody, hhere⟩ := readOne_eq_ok_iff.1 hread
    obtain ⟨padding, hpadding, hsplit⟩ := exists_padding cs
    refine ⟨a :: arrivals, padding ++ (body ++ before), stop, .cons hpadding hbody hspells,
      orderedFrom_cons.2 ⟨Nat.not_lt.1 hlater, hordered⟩, ?_, ?_⟩
    · rw [hsplit, show skipAnySpace cs = body ++ (before ++ stop) from hhere]
      simp
    · rwa [lastTick_cons]

/-- What was read in front of an arrival that comes too early, and where the error then stands. -/
def Placed (before : List Char) (e : ReadError) : Prop :=
  match e.cause with
  | none => True
  | some d => ∃ arrivals last a body rest, Spells (arrivals ++ [last]) before ∧
    ((arrivals ++ [last]).map Arrival.tick).Pairwise (· ≤ ·) ∧ Written a body ∧
      e.rest = body ++ rest ∧ a.tick < last.tick ∧ d = ⟨a.tick, last.tick⟩

theorem readAll_error_placed (h : readAll text = .error e) :
    ∃ before, e.StandsBehind text before ∧ Placed before e := by
  obtain ⟨arrivals, before, here, hspells, hordered, rfl, hread | hearly⟩ :=
    readFrom_error (Checked.map_eq_error_iff.1 h)
  · obtain ⟨hcause, hrest⟩ := readOne_error hread
    obtain ⟨start, hbehind⟩ := Located.exists_standsBehind
      (hrest.trans (List.suffix_append before here))
    exact ⟨start, hbehind, by rw [Placed, hcause]; trivial⟩
  · obtain ⟨a, body, rest, hbody, rfl, hearly, rfl⟩ := hearly
    refine ⟨before, Located.standsBehind_of_split rfl, ?_⟩
    rcases List.eq_nil_or_concat arrivals with rfl | ⟨earlier, last, rfl⟩
    · exact absurd hearly (Nat.not_lt_zero a.tick)
    · rw [List.concat_eq_append] at hspells hordered hearly ⊢
      rw [lastTick_concat] at hearly ⊢
      exact ⟨earlier, last, a, body, rest, hspells, orderedFrom_zero_iff.1 hordered, hbody, rfl,
        hearly, rfl⟩

end Accumulator.Arrival
