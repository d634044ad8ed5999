import Accumulator.Proofs.Run.Stretch

/-!
Rules for following a program that nothing interrupts. The memory is told by its
contents in address order, and an instruction leads from one place in it to
another. Each rule asks for the cell at the place and says what the registers
are behind it.
-/

namespace Accumulator

/-- The contents of a memory in address order: opcodes and values. -/
abbrev Contents := List (Opcode × Option Word)

/-- The memory with the contents, its cells indexed by their addresses. -/
def Contents.placed (contents : Contents) : Array Cell :=
  (contents.zipIdx.map fun ((op, value), address) =>
    (⟨UInt32.ofNat address, op, value⟩ : Cell)).toArray

/-- The contents after a word was written to an address. -/
def Contents.written (contents : Contents) (address w : Word) : Contents :=
  contents.modify address.toNat fun (op, _) => (op, some w)

namespace Machine

/-- The machine is about to fetch at the address, and nothing is pending. -/
structure At (contents : Contents) (output : List Word) (address accumulator : Word) (tick : Nat)
    (m : Machine) : Prop where
  memory : m.memory = contents.placed
  phase : m.phase = .fetch
  pending : m.pending = none
  programCounter : m.programCounter = address
  accumulator : m.accumulator = accumulator
  output : m.output.toList = output
  tick : m.tick = tick

/-- So many instructions lead from the machine to one with the property. -/
def LeadsTo (m : Machine) (n : Nat) (P : Machine → Prop) : Prop :=
  ∃ events m', m.Leads n events m' ∧ P m'

end Machine

theorem Contents.getElem?_placed (contents : Contents) (i : Nat) :
    contents.placed[i]? =
      contents[i]?.map fun (op, value) => (⟨UInt32.ofNat i, op, value⟩ : Cell) := by
  simp only [placed, List.getElem?_toArray, List.getElem?_map, List.getElem?_zipIdx, Option.map_map,
    Nat.zero_add]
  rfl

theorem Contents.size_placed (contents : Contents) : contents.placed.size = contents.length := by
  simp [placed]

theorem Contents.placed_written (contents : Contents) (address w : Word) :
    (contents.written address w).placed =
      contents.placed.modify address.toNat fun c => { c with value := some w } := by
  apply Array.ext_getElem?
  intro i
  simp only [getElem?_placed, written, Array.getElem?_modify, List.getElem?_modify]
  by_cases hi : address.toNat = i
  · simp [hi]
    rfl
  · simp [hi]

namespace Machine

variable {m : Machine} {contents contents' : Contents} {output : List Word}
  {address ac a w : Word} {tick n k : Nat} {op : Opcode} {P Q : Machine → Prop}

theorem leadsTo_zero (h : P m) : m.LeadsTo 0 P := ⟨[], m, .refl m, h⟩

theorem LeadsTo.imp (h : m.LeadsTo n P) (himp : ∀ m', P m' → Q m') : m.LeadsTo n Q := by
  obtain ⟨events, m', hleads, hm'⟩ := h
  exact ⟨events, m', hleads, himp m' hm'⟩

theorem LeadsTo.andThen (h : m.LeadsTo n P) (h' : ∀ m', P m' → m'.LeadsTo k Q) :
    m.LeadsTo (k + n) Q := by
  obtain ⟨events, m', hleads, hm'⟩ := h
  obtain ⟨others, m'', hothers, hm''⟩ := h' m' hm'
  rw [Nat.add_comm]
  exact ⟨_, m'', hleads.trans hothers, hm''⟩

namespace At

theorem quiet (h : m.At contents output address ac tick) : m.interruption? = none :=
  interruption?_eq_none_iff.2 (.inl h.pending)

theorem cellAt (h : m.At contents output address ac tick) {value : Option Word}
    (hcell : contents[address.toNat]? = some (op, value)) :
    m.cellAt m.programCounter = .ok ⟨address, op, value⟩ := by
  rw [cellAt_eq_ok_iff, h.memory, h.programCounter, Contents.getElem?_placed, hcell]
  simp

theorem held (h : m.At contents output address ac tick)
    (hdatum : contents[a.toNat]? = some (op, some w)) : m.held a = .ok w := by
  rw [Machine.held, h.memory, Contents.getElem?_placed, hdatum]
  rfl

/-- An instruction is followed by its effect. -/
theorem leadsTo_of_effect (h : m.At contents output address ac tick) {value : Option Word}
    (hcell : contents[address.toNat]? = some (op, value)) {m' : Machine} {events : List Event}
    (heffect : Cell.effect ⟨address, op, value⟩ m = .ok { machine := m', events })
    (hm' : P (m'.later op.ticks)) : m.LeadsTo 1 P := by
  obtain ⟨hinstruct, hticks⟩ := instruct_of_cell h.quiet (h.cellAt hcell)
  rw [← hticks] at hm'
  exact ⟨events, _, leads_one h.phase (hinstruct.trans heffect) rfl, hm'⟩

theorem load (h : m.At contents output address ac tick)
    (hcell : contents[address.toNat]? = some (.load, some a))
    (hdatum : contents[a.toNat]? = some (op, some w)) :
    m.LeadsTo 1 fun m' => m'.At contents output (address + 1) w (tick + 3) ∧
      m'.zero = (w == 0) := by
  apply h.leadsTo_of_effect hcell
  · change (m.held a >>= fun ac => _) = _
    rw [h.held hdatum]
    rfl
  · exact ⟨⟨h.memory, h.phase, h.pending, congrArg (· + 1) h.programCounter, rfl, h.output,
      congrArg (· + 3) h.tick⟩, rfl⟩

theorem loadIndirect (h : m.At contents output address ac tick)
    (hcell : contents[address.toNat]? = some (.loadIndirect, none))
    (hdatum : contents[ac.toNat]? = some (op, some w)) :
    m.LeadsTo 1 (·.At contents output (address + 1) w (tick + 3)) := by
  apply h.leadsTo_of_effect hcell
  · change (m.held m.accumulator >>= fun ac => _) = _
    rw [h.accumulator, h.held hdatum]
    rfl
  · exact ⟨h.memory, h.phase, h.pending, congrArg (· + 1) h.programCounter, rfl, h.output,
      congrArg (· + 3) h.tick⟩

theorem save (h : m.At contents output address ac tick)
    (hcell : contents[address.toNat]? = some (.save, some a)) (hbound : a.toNat < contents.length)
    (hwritten : contents.written a ac = contents') :
    m.LeadsTo 1 (·.At contents' output (address + 1) ac (tick + 3)) := by
  subst hwritten
  have hmemory : m.written a m.accumulator = .ok (contents.written a ac).placed := by
    rw [Machine.written, h.memory, Contents.size_placed, if_pos hbound, h.accumulator,
      Contents.placed_written]
  apply h.leadsTo_of_effect hcell
  · change (m.written a m.accumulator >>= fun memory => _) = _
    rw [hmemory]
    rfl
  · exact ⟨rfl, h.phase, h.pending, congrArg (· + 1) h.programCounter, h.accumulator, h.output,
      congrArg (· + 3) h.tick⟩

theorem push (h : m.At contents output address ac tick)
    (hcell : contents[address.toNat]? = some (.push, some w)) :
    m.LeadsTo 1 (·.At contents output (address + 1) w (tick + 2)) := by
  apply h.leadsTo_of_effect hcell rfl
  exact ⟨h.memory, h.phase, h.pending, congrArg (· + 1) h.programCounter, rfl, h.output,
    congrArg (· + 2) h.tick⟩

theorem subtract (h : m.At contents output address ac tick)
    (hcell : contents[address.toNat]? = some (.subtract, some a))
    (hdatum : contents[a.toNat]? = some (op, some w)) :
    m.LeadsTo 1 (·.At contents output (address + 1) (ac - w) (tick + 3)) := by
  apply h.leadsTo_of_effect hcell
  · change (m.held a >>= fun w => _) = _
    rw [h.held hdatum]
    rfl
  · exact ⟨h.memory, h.phase, h.pending, congrArg (· + 1) h.programCounter,
      congrArg (· - w) h.accumulator, h.output, congrArg (· + 3) h.tick⟩

theorem increment (h : m.At contents output address ac tick)
    (hcell : contents[address.toNat]? = some (.increment, none)) :
    m.LeadsTo 1 (·.At contents output (address + 1) (ac + 1) (tick + 2)) := by
  apply h.leadsTo_of_effect hcell rfl
  exact ⟨h.memory, h.phase, h.pending, congrArg (· + 1) h.programCounter,
    congrArg (· + 1) h.accumulator, h.output, congrArg (· + 2) h.tick⟩

theorem emit (h : m.At contents output address ac tick)
    (hcell : contents[address.toNat]? = some (.output, none)) :
    m.LeadsTo 1 (·.At contents (output ++ [ac]) (address + 1) ac (tick + 2)) := by
  apply h.leadsTo_of_effect hcell rfl
  refine ⟨h.memory, h.phase, h.pending, congrArg (· + 1) h.programCounter, h.accumulator, ?_,
    congrArg (· + 2) h.tick⟩
  change (m.output.push m.accumulator).toList = _
  rw [Array.toList_push, h.output, h.accumulator]

theorem jump (h : m.At contents output address ac tick)
    (hcell : contents[address.toNat]? = some (.jump, some a)) :
    m.LeadsTo 1 (·.At contents output a ac (tick + 2)) := by
  apply h.leadsTo_of_effect hcell rfl
  exact ⟨h.memory, h.phase, h.pending, rfl, h.accumulator, h.output, congrArg (· + 2) h.tick⟩

theorem jumpIfZero {zero : Bool} (h : m.At contents output address ac tick)
    (hcell : contents[address.toNat]? = some (.jumpIfZero, some a)) (hzero : m.zero = zero) :
    m.LeadsTo 1 (·.At contents output (if zero then a else address + 1) ac (tick + 2)) := by
  subst hzero
  apply h.leadsTo_of_effect hcell rfl
  refine ⟨h.memory, h.phase, h.pending, ?_, h.accumulator, h.output, congrArg (· + 2) h.tick⟩
  change (if m.zero then a else m.programCounter + 1) = _
  rw [h.programCounter]

end At

end Machine

end Accumulator
