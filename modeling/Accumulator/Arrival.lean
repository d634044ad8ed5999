import Accumulator.Checked
import Accumulator.Text.Blank
import Accumulator.Text.Scan
import Accumulator.Word

/-!
Timed input. An arrival brings a symbol at a tick. A file of arrivals lists
ticks and characters, and its ticks never decrease. Behind the last arrival of a
file a null symbol follows, so that a program can notice the end of its input.
-/

namespace Accumulator

open Text

structure Arrival where
  tick : Nat
  symbol : Word
  deriving DecidableEq, Repr

namespace Arrival

/-- Ticks in a file are below this bound. -/
def tickBound : Nat := 0x10000000000000000

/-- The ticks between the last arrival of a file and the null symbol. -/
def closingDelay : Nat := 100

structure Disorder where
  tick : Nat
  previous : Nat
  deriving DecidableEq, Repr

def Disorder.message (d : Disorder) : String :=
  s!"event at tick {d.tick} comes after an event at tick {d.previous}"

instance : ToString Disorder := ⟨Disorder.message⟩

abbrev ReadError := Located Disorder

def readSymbol : List Char → Except ReadError (Word × List Char)
  | [] => .error { rest := [] }
  | c :: cs => if isBlank c then .error { rest := c :: cs } else .ok (c.val, cs)

def readContents (cs : List Char) : Except ReadError (Arrival × List Char) :=
  match Decimal.readBelow? tickBound cs with
  | none => .error { rest := cs }
  | some (tick, cs) => do
    let cs ← skip isSpacing cs
    let (symbol, cs) ← readSymbol cs
    return (⟨tick, symbol⟩, cs)

def readOne (cs : List Char) : Except ReadError (Arrival × List Char) :=
  (readContents cs).mapError fun e => { e with part := some "input event" }

theorem length_of_readSymbol {cs rest : List Char} {w : Word} (h : readSymbol cs = .ok (w, rest)) :
    rest.length < cs.length := by
  unfold readSymbol at h
  split at h
  · cases h
  · split at h
    · cases h
    · cases h
      exact Nat.lt_succ_self _

theorem length_of_readContents {cs rest : List Char} {a : Arrival}
    (h : readContents cs = .ok (a, rest)) : rest.length < cs.length := by
  unfold readContents at h
  split at h
  · cases h
  next tick afterTick h₁ =>
    obtain ⟨behind, h₂, h⟩ := Checked.bind_eq_ok_iff.1 h
    obtain ⟨⟨symbol, afterSymbol⟩, h₃, h⟩ := Checked.bind_eq_ok_iff.1 h
    cases h
    have := Decimal.length_of_readBelow? h₁
    have := length_of_skip h₂
    have := length_of_readSymbol h₃
    omega

theorem length_of_readOne {cs rest : List Char} {a : Arrival} (h : readOne cs = .ok (a, rest)) :
    rest.length < cs.length := by
  unfold readOne at h
  cases hc : readContents cs with
  | error e => rw [hc] at h; cases h
  | ok r =>
    rw [hc] at h
    cases h
    exact length_of_readContents hc

/-- Reads arrivals to the end of the text, none of them before the given tick. -/
def readFrom (previous : Nat) (cs : List Char) : Except ReadError (List Arrival) :=
  let here := skipAnySpace cs
  if here.isEmpty then .ok []
  else
    match _h : readOne here with
    | .error e => .error e
    | .ok (a, rest) =>
      if a.tick < previous then .error { rest := here, cause := some ⟨a.tick, previous⟩ }
      else (a :: ·) <$> readFrom a.tick rest
termination_by cs.length
decreasing_by
  have := length_of_readOne _h
  have : here.length ≤ cs.length := length_skipAnySpace cs
  omega

/-- Adds the null symbol behind the last arrival. Its tick stays in bounds. -/
def close (arrivals : List Arrival) : List Arrival :=
  match arrivals.getLast? with
  | none => []
  | some last => arrivals ++ [⟨min (last.tick + closingDelay) (tickBound - 1), 0⟩]

def readAll (text : List Char) : Except ReadError (List Arrival) := close <$> readFrom 0 text

end Arrival

end Accumulator
