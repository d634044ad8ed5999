import Accumulator.Proofs.Layout.Assembly
import Accumulator.Proofs.Machine.Fault
import Accumulator.Proofs.Machine.Latch
import Accumulator.Proofs.Machine.Replay
import Accumulator.Proofs.Source.Sections

/-!
The encoding of assembled programs. The assembler gives every instruction that
takes an operand one, indexes each cell by its address and puts data behind the
instructions. Execution can overwrite any value but no opcode and no index, so
the only thing wrong with the encoding that a program can run into is its data:
it is stopped when it has decoded a cell behind its instructions.
-/

namespace Accumulator

open Source

/-- What the assembler guarantees of the cell at an address. -/
structure Encoded (program : List Statement) (i : Nat) (c : Cell) : Prop where
  index : c.index.toNat = i
  operand : c.opcode.takesOperand = true → c.value.isSome = true
  directive : c.opcode.isDirective = true →
    codeSize program ≤ i ∧ (c.opcode = .string ∨ c.opcode = .number ∨ c.opcode = .buffer)

theorem isSome_value_of_instruction {program : List Statement} {op : Opcode} {operand : Operand}
    (hw : WellFormed program) (hmem : .instruction op operand ∈ program)
    (hoperand : operand ≠ .absent) : (operand.value program).isSome = true := by
  cases operand with
  | absent => exact absurd rfl hoperand
  | literal w => rfl
  | symbol name =>
    obtain ⟨w, hvalue⟩ := value_symbol_of_defined (hw.operandsDefined op name hmem)
    rw [hvalue]
    rfl

theorem encoded_of_assemble {source : List Char} {image : Image} {i : Nat} {c : Cell}
    (himage : assemble source = .ok image) (hc : image.memory[i]? = some c) :
    Encoded (program source) i c := by
  obtain ⟨-, hw, rfl, hsize⟩ := reads_of_assemble himage
  have hindex : c.index.toNat = i := indexed_imageOf hsize i c hc
  obtain ⟨⟨op, operand⟩, hblock, hcell⟩ := Option.map_eq_some_iff.1 (getElem?_imageOf hc).2
  obtain ⟨hopcode, hvalue⟩ := Prod.mk.inj hcell
  rcases getElem?_blocks hblock with hmem | ⟨hbehind, hdata, w, rfl⟩
  · obtain ⟨hnone, htakes⟩ : (Statement.instruction op operand).Executable :=
      executable_of_mem hmem
    refine ⟨hindex, ?_, ?_⟩
    · intro hoperand
      rw [← hvalue]
      exact isSome_value_of_instruction hw hmem (htakes (hopcode ▸ hoperand))
    · intro hdirective
      rw [← hopcode, hnone] at hdirective
      cases hdirective
  · refine ⟨hindex, fun _ => hvalue ▸ rfl, fun _ => ⟨hbehind, hopcode ▸ hdata⟩⟩

namespace Machine

variable {source : List Char} {image : Image} {actions : List Action} {a : Action} {f : Fault}

/-- The instruction in the register is a cell of the image but for its value, and where the image
has a value there is one. -/
theorem exists_cell (hphase : ((ofImage image).after actions).phase ≠ .fetch) :
    ∃ address c, (ofImage image).FetchedFrom actions address ∧
      image.memory[address.toNat]? = some c ∧
      ((ofImage image).after actions).instruction.index = c.index ∧
      ((ofImage image).after actions).instruction.opcode = c.opcode ∧
      (c.value.isSome = true →
        ((ofImage image).after actions).instruction.value.isSome = true) := by
  obtain ⟨address, hfetched, hlatched⟩ := exists_fetchedFrom rfl actions hphase
  obtain ⟨c, hc, hindex, hopcode, hvalue, -⟩ :=
    (overwrites_after (ofImage image) actions).cell _ _ hlatched.cell
  exact ⟨address, c, hfetched, hc, hindex, hopcode, hvalue⟩

theorem refuses_of_perform {m : Machine} (hfault : (m.perform a).result = .error f) :
    m.Refuses f := by
  cases a with
  | step => exact (step_of_fault hfault).1
  | tick => cases hfault
  | input symbol => cases hfault

/-- The access phase is reached with opcodes only that access memory. -/
theorem not_refuses_access {op : Opcode} {address : Word} :
    ¬ ((ofImage image).after actions).Refuses (.invalidOpcode op .access address) := by
  intro hrefuses
  cases hrefuses with
  | noAccess hphase hnone =>
    have hreached : ((ofImage image).after actions).phase ≠ .fetch := by rw [hphase]; decide
    obtain ⟨_, -, hlatched⟩ := exists_fetchedFrom rfl actions hreached
    rw [hlatched.access hphase] at hnone
    cases hnone

/-- An opcode that is decoded and cannot be executed is that of a datum behind the instructions,
which was fetched from the address that the fault gives. -/
structure RunsIntoData (source : List Char) (image : Image) (actions : List Action) (op : Opcode)
    (phase : Phase) (address : Word) : Prop where
  phase : phase = .decode
  opcode : op = .string ∨ op = .number ∨ op = .buffer
  behind : codeSize (program source) ≤ address.toNat
  fetched : (ofImage image).FetchedFrom actions address

theorem runsIntoData_of_refuses {op : Opcode} {phase : Phase} {address : Word}
    (himage : assemble source = .ok image)
    (hrefuses : ((ofImage image).after actions).Refuses (.invalidOpcode op phase address)) :
    RunsIntoData source image actions op phase address := by
  cases hrefuses with
  | directive hphase hdirective =>
    have hdecoded : ((ofImage image).after actions).phase ≠ .fetch := by rw [hphase]; decide
    obtain ⟨origin, c, hfetched, hc, hindex, hopcode, -⟩ := exists_cell hdecoded
    have hencoded := encoded_of_assemble himage hc
    rw [hopcode] at hdirective
    obtain ⟨hbehind, hdata⟩ := hencoded.directive hdirective
    -- the index that the fault gives is that of the image, where a cell has its address
    have horigin : ((ofImage image).after actions).instruction.index = origin := by
      rw [hindex]
      exact UInt32.toNat_inj.1 hencoded.index
    refine ⟨rfl, hopcode ▸ hdata, ?_, ?_⟩
    · rw [horigin]
      exact hbehind
    · rw [horigin]
      exact hfetched
  | noAccess hphase haccess => exact absurd (.noAccess hphase haccess) not_refuses_access

theorem not_refuses_operand {op : Opcode} {address : Word} (himage : assemble source = .ok image) :
    ¬ ((ofImage image).after actions).Refuses (.missingOperand op address) := by
  intro hrefuses
  cases hrefuses with
  | operand hphase hoperand hnone =>
    have hdecoded : ((ofImage image).after actions).phase ≠ .fetch := by rw [hphase]; decide
    obtain ⟨_, c, -, hc, -, hopcode, hvalue⟩ := exists_cell hdecoded
    have hsome := hvalue ((encoded_of_assemble himage hc).operand (hopcode ▸ hoperand))
    rw [hnone] at hsome
    cases hsome

/-- Whatever is done with its machine, an assembled program never lacks an operand and is never in
an invalid phase, and an opcode stops it only where it runs into its data. In the access phase no
opcode stops any program. -/
theorem assembled_faults_only_in_data :
    (∀ source image, assemble source = .ok image → ∀ actions a f,
      (((ofImage image).after actions).perform a).result = .error f →
        (∀ op address, f ≠ .missingOperand op address) ∧ (∀ code, f ≠ .invalidPhase code) ∧
          ∀ op phase address, f = .invalidOpcode op phase address →
            RunsIntoData source image actions op phase address) ∧
      ∀ image actions a op address,
        (((ofImage image).after actions).perform a).result ≠
          .error (.invalidOpcode op .access address) := by
  constructor
  · intro source image himage actions a f hfault
    have hrefuses := refuses_of_perform hfault
    refine ⟨?_, ?_, ?_⟩
    · rintro op address rfl
      exact not_refuses_operand himage hrefuses
    · rintro code rfl
      cases hrefuses
    · rintro op phase address rfl
      exact runsIntoData_of_refuses himage hrefuses
  · intro image actions a op address hfault
    exact not_refuses_access (refuses_of_perform hfault)

/-- A program that does not stop before its data. -/
def endless : List Char := "PUSH 7\nSAVE x\n.data:\nx NUMBER 5".toList

theorem assembled_faults_only_in_data_endless :
    ∃ image, assemble endless = .ok image ∧
      RunsIntoData endless image (.input 65 :: List.replicate 6 .step) .number .decode 2 := by
  have himage : assemble endless = .ok ⟨none, #[⟨0, .push, some 7⟩, ⟨1, .save, some 2⟩,
      ⟨2, .number, some 5⟩]⟩ := by decide +kernel
  have hfault := (assembled_faults_only_in_data.1 endless _ himage
    (.input 65 :: List.replicate 6 .step) .step (.invalidOpcode .number .decode 2) (by decide)).2.2
  exact ⟨_, himage, hfault _ _ _ rfl⟩

end Machine

end Accumulator
