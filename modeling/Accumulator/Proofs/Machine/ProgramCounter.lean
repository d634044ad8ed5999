import Accumulator.Proofs.Machine.Latch
import Accumulator.Proofs.Machine.Replay
import Mathlib.Algebra.Group.Nat.Defs

/-!
The range of the program counter. It takes any value by jumps, by interrupts and
by returns from them, but it is counted up only behind a cell that memory has:
by one when the cell is fetched, and by one more if the cell is `NOP`. So with
two addresses behind memory left over it never passes the last of them.
-/

namespace Accumulator

namespace Word

/-- The next address, if there is one. -/
def successor? (w : Word) : Option Word := if w.toNat + 1 < count then some (w + 1) else none

theorem successor?_of_lt {w : Word} (h : w.toNat + 1 < count) : successor? w = some (w + 1) :=
  if_pos h

end Word

namespace Machine

/-- A fetch that must not count beyond the last address. -/
def checkedFetch (m : Machine) : Option Step :=
  match m.interruption? with
  | some vector => some (m.enterInterrupt vector)
  | none =>
    match m.cellAt m.programCounter with
    | .error f => some (m.fail f)
    | .ok c => (Word.successor? m.programCounter).map fun next =>
      proceed { m with instruction := c, programCounter := next } .decode none

/-- A decoding that must not count beyond the last address. -/
def checkedDecode (m : Machine) : Option Step :=
  match m.instruction.opcode with
  | .noOperation => (Word.successor? m.programCounter).map fun next =>
    finish { m with programCounter := next }
  | _ => some m.decode

/-- The micro-step of the machine, if it does not count beyond the last address. -/
def checkedStep (m : Machine) : Option Step :=
  match m.phase with
  | .fetch => m.checkedFetch
  | .decode => m.checkedDecode
  | .access => some m.access

/-- Whether the micro-step counts the program counter up. -/
inductive Counts (m : Machine) : Prop where
  | fetch {c : Cell} (hphase : m.phase = .fetch) (hquiet : m.interruption? = none)
    (hcell : m.cellAt m.programCounter = .ok c) : Counts m
  | noOperation (hphase : m.phase = .decode) (hop : m.instruction.opcode = .noOperation) : Counts m

variable {m : Machine} {address : Word} {c : Cell}

theorem lt_size_of_cellAt (h : m.cellAt address = .ok c) : address.toNat < m.memory.size := by
  unfold cellAt at h
  split at h
  next hfound => exact (Array.getElem?_eq_some_iff.1 hfound).1
  next => nomatch h

/-- The checked micro-step is the micro-step unless that counts too far. -/
theorem checkedStep_eq (h : m.Counts → m.programCounter.toNat + 1 < Word.count) :
    m.checkedStep = some m.step := by
  unfold checkedStep step
  cases hphase : m.phase with
  | access => rfl
  | fetch =>
    unfold checkedFetch fetch
    cases hquiet : m.interruption? with
    | some vector => rfl
    | none =>
      cases hcell : m.cellAt m.programCounter with
      | error f => rfl
      | ok c =>
        rw [Word.successor?_of_lt (h (.fetch hphase hquiet hcell))]
        rfl
  | decode =>
    change m.checkedDecode = some m.decode
    unfold checkedDecode
    split
    next hop =>
      rw [Word.successor?_of_lt (h (.noOperation hphase hop)), decode, hop]
      rfl
    next => rfl

/-- Behind a cell that was fetched there is an address left if there are two behind memory. -/
theorem Latched.programCounter_lt (h : m.Latched address) (hsize : m.memory.size ≤ 2 ^ 32 - 2) :
    m.programCounter.toNat + 1 < Word.count := by
  have haddress : address.toNat < m.memory.size := (Array.getElem?_eq_some_iff.1 h.cell).1
  have hone : (1 : Word).toNat = 1 := rfl
  have hcount : Word.count = 2 ^ 32 := rfl
  rw [h.programCounter, UInt32.toNat_add, hone, hcount]
  omega

theorem size_memory_after (m : Machine) (actions : List Action) :
    (m.after actions).memory.size = m.memory.size :=
  (overwrites_after m actions).size

/-- Whatever a driver does, the program counter is never counted beyond the last address. -/
theorem programCounter_lt_of_counts (hstart : m.phase = .fetch) (hsize : m.memory.size ≤ 2 ^ 32 - 2)
    (actions : List Action) (hcounts : (m.after actions).Counts) :
    (m.after actions).programCounter.toNat + 1 < Word.count := by
  have hsame := size_memory_after m actions
  have hcount : Word.count = 2 ^ 32 := rfl
  cases hcounts with
  | fetch _ _ hcell =>
    have hbound := lt_size_of_cellAt hcell
    omega
  | noOperation hphase =>
    have hbusy : (m.after actions).phase ≠ .fetch := by
      rw [hphase]
      decide
    obtain ⟨address, -, hlatched⟩ := exists_fetchedFrom hstart actions hbusy
    exact hlatched.programCounter_lt (hsame.symm ▸ hsize)

end Machine

end Accumulator
