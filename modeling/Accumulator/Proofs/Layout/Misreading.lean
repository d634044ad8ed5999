import Accumulator.Checked
import Accumulator.Layout

/-!
What can be wrong with a single line. Reading it never looks at the lines before
it, so its faults tell of no other line, and the only thing it looks up is the
mnemonic of an instruction. A statement that cannot be added may tell of another
line, but nothing is looked up for it.
-/

namespace Accumulator

open Text

namespace Source

namespace Cause

/-- The name that was looked up and not found, and what is suggested in its place. -/
def missing? : Cause → Option (String × Option String)
  | unresolvedSymbol name suggestion => some (name, suggestion)
  | unknownOpcode name suggestion => some (name, suggestion)
  | _ => none

/-- Whether the cause tells neither of another line nor of a name that is missing. -/
def IsPlain : Cause → Prop
  | duplicateSymbol _ _ | duplicateVector _ => False
  | c => c.missing? = none

theorem IsPlain.missing? {c : Cause} (h : c.IsPlain) : c.missing? = none := by
  cases c <;> first | rfl | exact h

end Cause

/-- The faults of a text that is read as a line of the section. -/
inductive Misread (sec : Section) (cs : List Char) : Cause → Prop where
  | opcode {name : String} {rest : List Char} (hsec : sec = .code)
    (hnext : Token.next? cs = some (.word name, rest))
    (hunknown : Opcode.ofMnemonic? name = none) :
    Misread sec cs (.unknownOpcode name (nearest? name Opcode.executableMnemonics))
  | plain {c : Cause} (hplain : c.IsPlain) : Misread sec cs c

variable {c : Cause} {cs : List Char} {name : String} {sec : Section}

theorem isPlain_of_readLiteral (h : readLiteral name = .error c) : c.IsPlain := by
  unfold readLiteral at h
  split at h
  · nomatch h
  · cases h
    rfl
  · cases h
    rfl

theorem isPlain_of_expectEnd (h : expectEnd cs = .error c) : c.IsPlain := by
  unfold expectEnd at h
  split at h
  · nomatch h
  · cases h
    rfl

theorem isPlain_of_ofToken {t : Token} (h : Operand.ofToken t = .error c) : c.IsPlain := by
  cases t with
  | word name => nomatch h
  | literal text =>
    rcases Checked.bind_eq_error_iff.1 h with hread | ⟨n, -, hrange⟩
    · exact isPlain_of_readLiteral hread
    · split at hrange
      · nomatch hrange
      · cases hrange
        rfl
  | _ =>
    cases h
    rfl

/-- An instruction is looked up before anything else of its line. -/
theorem misread_of_readInstruction {mnemonic : String}
    (h : readInstruction mnemonic cs = .error c) :
    Opcode.ofMnemonic? mnemonic = none ∧
        c = .unknownOpcode mnemonic (nearest? mnemonic Opcode.executableMnemonics) ∨
      c.IsPlain := by
  unfold readInstruction at h
  split at h
  next hunknown =>
    cases h
    exact .inl ⟨hunknown, rfl⟩
  next op _ =>
    refine .inr ?_
    split at h
    · cases h
      rfl
    rcases Checked.bind_eq_error_iff.1 h with hoperands | ⟨operands, -, hcount⟩
    · obtain ⟨t, -, ht⟩ := Checked.exists_of_mapM_error hoperands
      exact isPlain_of_ofToken ht
    · split at hcount
      · nomatch hcount
      · cases hcount
        rfl

theorem isPlain_of_ofWord {op : Opcode} {make : String → Directive}
    (h : Directive.ofWord op make cs = .error c) : c.IsPlain := by
  simp only [Directive.ofWord] at h
  split at h
  · nomatch h
  · cases h
    rfl

theorem isPlain_of_ofText (h : Directive.ofText cs = .error c) : c.IsPlain := by
  unfold Directive.ofText at h
  split at h
  · cases h
    rfl
  · nomatch h

theorem isPlain_of_readDirective (h : Directive.read name cs = .error c) : c.IsPlain := by
  unfold Directive.read at h
  split at h
  · exact isPlain_of_ofWord h
  · exact isPlain_of_ofText h
  · exact isPlain_of_ofWord h
  · exact isPlain_of_ofWord h
  · cases h
    rfl

theorem isPlain_of_readDeclaration (h : readDeclaration name cs = .error c) : c.IsPlain := by
  unfold readDeclaration at h
  split at h
  · exact isPlain_of_readDirective (Checked.map_eq_error_iff.1 h)
  · cases h
    rfl

/-- What is wrong with a line that cannot be read. -/
theorem misread_of_read (h : Statement.read sec cs = .error c) : Misread sec cs c := by
  unfold Statement.read at h
  split at h
  next => nomatch h
  next =>
    rcases Checked.bind_eq_error_iff.1 h with hend | ⟨_, -, hnothing⟩
    · exact .plain (isPlain_of_expectEnd hend)
    · nomatch hnothing
  next =>
    rcases Checked.bind_eq_error_iff.1 h with hend | ⟨_, -, hnothing⟩
    · exact .plain (isPlain_of_expectEnd hend)
    · nomatch hnothing
  next =>
    split at h
    · cases h
      exact .plain rfl
    rcases Checked.bind_eq_error_iff.1 h with hend | ⟨_, -, hnothing⟩
    · exact .plain (isPlain_of_expectEnd hend)
    · nomatch hnothing
  next hnext =>
    split at h
    · exact .plain (isPlain_of_readDeclaration (Checked.map_eq_error_iff.1 h))
    rcases misread_of_readInstruction (Checked.map_eq_error_iff.1 h) with ⟨hunknown, rfl⟩ | hplain
    · exact .opcode rfl hnext hunknown
    · exact .plain hplain
  next =>
    cases h
    exact .plain rfl

end Source

open Source

namespace Layout

variable {l : Layout} {c : Cause} {name : String} {n : Nat}

theorem isPlain_of_numberValue (h : numberValue name = .error c) : c.IsPlain := by
  rcases Checked.bind_eq_error_iff.1 h with hread | ⟨n, -, hrange⟩
  · exact isPlain_of_readLiteral hread
  · split at hrange
    · nomatch hrange
    · cases hrange
      rfl

theorem isPlain_of_bufferSize (h : bufferSize name = .error c) : c.IsPlain := by
  unfold bufferSize at h
  split at h
  · split at h
    · nomatch h
    · cases h
      rfl
  · cases h
    rfl

end Layout

end Accumulator
