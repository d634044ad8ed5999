import Accumulator.Checked
import Accumulator.Proofs.Source.Program

/-!
What stands where in a source text. Instructions are read in the code section
only and declarations in the data section only, so all cells of instructions
come before all cells of data, and there are as many of them as instructions.
An instruction is never a directive, and one that takes an operand has one.
-/

namespace Accumulator

open Text

namespace Source

namespace Statement

def isInstruction : Statement → Bool
  | .instruction _ _ => true
  | _ => false

def isDeclaration : Statement → Bool
  | .declaration _ _ => true
  | _ => false

/-- An instruction has an opcode that can be executed, and an operand if it takes one. -/
def Executable : Statement → Prop
  | .instruction op operand =>
    op.isDirective = false ∧ (op.takesOperand = true → operand ≠ .absent)
  | _ => True

end Statement

/-- The number of instructions, which is the number of cells of the code section. -/
def codeSize (program : List Statement) : Nat := program.countP Statement.isInstruction

theorem ne_absent_of_ofToken {t : Token} {operand : Operand}
    (h : Operand.ofToken t = .ok operand) : operand ≠ .absent := by
  rintro rfl
  cases t with
  | word name => cases h
  | literal text =>
    obtain ⟨n, -, h⟩ := Checked.bind_eq_ok_iff.1 h
    split at h <;> cases h
  | _ => cases h

theorem readInstruction_eq_ok {mnemonic : String} {cs : List Char} {s : Statement}
    (h : readInstruction mnemonic cs = .ok s) : s.isInstruction = true ∧ s.Executable := by
  unfold readInstruction at h
  split at h
  next => cases h
  next op _ =>
    split at h
    next => cases h
    next hdirective =>
      obtain ⟨operands, hread, h⟩ := Checked.bind_eq_ok_iff.1 h
      split at h
      next hcount =>
        cases h
        refine ⟨rfl, Bool.eq_false_iff.2 hdirective, ?_⟩
        intro htakes
        rw [arity, if_pos htakes] at hcount
        obtain ⟨operand, rfl⟩ := List.length_eq_one_iff.1 hcount
        obtain ⟨t, -, ht⟩ := Checked.exists_of_mem_mapM hread (List.mem_singleton.2 rfl)
        exact ne_absent_of_ofToken ht
      next => cases h

theorem readDeclaration_eq_ok {name : String} {cs : List Char} {s : Statement}
    (h : readDeclaration name cs = .ok s) : s.isDeclaration = true := by
  unfold readDeclaration at h
  split at h
  next =>
    obtain ⟨directive, -, rfl⟩ := Checked.map_eq_ok_iff.1 h
    rfl
  next => cases h

/-- What is read in a section: instructions in that of the code, declarations in that of the
data. -/
structure ReadIn (sec : Section) (s : Statement) : Prop where
  code : s.isInstruction = true → sec = .code
  data : s.isDeclaration = true → sec = .data
  executable : s.Executable

theorem readIn_of_neither {sec : Section} {s : Statement} (hinstruction : s.isInstruction = false)
    (hdeclaration : s.isDeclaration = false) (hexecutable : s.Executable) : ReadIn sec s where
  code := by simp [hinstruction]
  data := by simp [hdeclaration]
  executable := hexecutable

theorem readIn_of_read {sec : Section} {cs : List Char} {s : Statement}
    (h : Statement.read sec cs = .ok (some s)) : ReadIn sec s := by
  unfold Statement.read at h
  split at h
  next => cases h
  next =>
    obtain ⟨u, -, h⟩ := Checked.bind_eq_ok_iff.1 h
    cases h
    exact readIn_of_neither rfl rfl trivial
  next =>
    obtain ⟨u, -, h⟩ := Checked.bind_eq_ok_iff.1 h
    cases h
    exact readIn_of_neither rfl rfl trivial
  next =>
    cases sec with
    | data => cases h
    | code =>
      obtain ⟨u, -, h⟩ := Checked.bind_eq_ok_iff.1 h
      cases h
      exact readIn_of_neither rfl rfl trivial
  next name rest _ =>
    cases sec with
    | data =>
      obtain ⟨s', hread, h⟩ := Checked.map_eq_ok_iff.1 h
      cases h
      have hdeclaration := readDeclaration_eq_ok hread
      cases s with
      | declaration name directive => exact ⟨nofun, fun _ => rfl, trivial⟩
      | _ => cases hdeclaration
    | code =>
      obtain ⟨s', hread, h⟩ := Checked.map_eq_ok_iff.1 h
      cases h
      obtain ⟨hinstruction, hexecutable⟩ := readInstruction_eq_ok hread
      refine ⟨fun _ => rfl, ?_, hexecutable⟩
      cases s with
      | instruction op operand => exact nofun
      | _ => cases hinstruction
  next => cases h

/-- Each statement was read in some section, and behind `.data:` in that of the data. -/
theorem exists_readIn_of_mem {sec : Section} {lines : List (List Char)} {s : Statement}
    (hs : s ∈ statementsOf (readLines sec lines)) :
    ∃ sec', ReadIn sec' s ∧ (sec = .data → sec' = .data) := by
  induction lines generalizing sec with
  | nil => cases hs
  | cons line rest ih =>
    obtain ⟨reading, hreading, hsaid⟩ := List.mem_filterMap.1 hs
    rw [readLines] at hreading
    rcases List.mem_cons.1 hreading with rfl | hrest
    · refine ⟨sec, ?_, id⟩
      cases hread : Statement.read sec (significant line) with
      | error cause =>
        rw [hread] at hsaid
        cases hsaid
      | ok said =>
        rw [hread] at hsaid
        cases hsaid
        exact readIn_of_read hread
    · obtain ⟨sec', hreadIn, hsec⟩ := ih (List.mem_filterMap.2 ⟨reading, hrest, hsaid⟩)
      refine ⟨sec', hreadIn, fun hdata => hsec ?_⟩
      rw [hdata]
      unfold sectionAfter
      split <;> rfl

theorem executable_of_mem {sec : Section} {lines : List (List Char)} {s : Statement}
    (hs : s ∈ statementsOf (readLines sec lines)) : s.Executable := by
  obtain ⟨sec', hreadIn, -⟩ := exists_readIn_of_mem hs
  exact hreadIn.executable

/-- Behind `.data:` no line is an instruction. -/
theorem isInstruction_of_mem_data {lines : List (List Char)} {s : Statement}
    (hs : s ∈ statementsOf (readLines .data lines)) : s.isInstruction = false := by
  obtain ⟨sec', hreadIn, hdata⟩ := exists_readIn_of_mem hs
  obtain rfl := hdata rfl
  exact Bool.eq_false_iff.2 fun hinstruction => nomatch hreadIn.code hinstruction

/-- The statements of a source are those of its code section and then those of its data section. -/
theorem exists_sections (lines : List (List Char)) :
    ∃ code data, statementsOf (readLines .code lines) = code ++ data ∧
      (∀ s ∈ code, s.isDeclaration = false) ∧ ∀ s ∈ data, s.isInstruction = false := by
  induction lines with
  | nil => exact ⟨[], [], rfl, nofun, nofun⟩
  | cons line rest ih =>
    rw [readLines]
    cases hread : Statement.read .code (significant line) with
    | error cause => exact ih
    | ok said =>
      rw [sectionAfter_ok]
      by_cases hdata : said = some (.marker .data)
      · subst hdata
        refine ⟨[], _, rfl, nofun, ?_⟩
        intro s hs
        rcases List.mem_cons.1 hs with rfl | hs
        · rfl
        · exact isInstruction_of_mem_data hs
      · rw [if_neg hdata]
        obtain ⟨code, data, hsplit, hcode, hrest⟩ := ih
        cases said with
        | none => exact ⟨code, data, hsplit, hcode, hrest⟩
        | some s =>
          refine ⟨s :: code, data, congrArg (s :: ·) hsplit, ?_, hrest⟩
          rw [List.forall_mem_cons]
          refine ⟨Bool.eq_false_iff.2 ?_, hcode⟩
          intro hdeclaration
          cases (readIn_of_read hread).data hdeclaration

theorem eq_instruction_of_mem_block {s : Statement} {op : Opcode} {operand : Operand}
    (hs : s.isDeclaration = false) (h : (op, operand) ∈ s.block) : s = .instruction op operand := by
  cases s with
  | instruction other operand' =>
    cases List.mem_singleton.1 h
    rfl
  | declaration name directive => cases hs
  | _ => cases h

/-- Cells of data have a directive as their opcode, and a word. -/
theorem datum_of_mem_block {s : Statement} {op : Opcode} {operand : Operand}
    (hs : s.isInstruction = false) (h : (op, operand) ∈ s.block) :
    (op = .string ∨ op = .number ∨ op = .buffer) ∧ ∃ w, operand = .literal w := by
  cases s with
  | instruction other operand' => cases hs
  | declaration name directive =>
    cases directive with
    | number text =>
      cases List.mem_singleton.1 h
      exact ⟨.inr (.inl rfl), _, rfl⟩
    | string text =>
      rcases List.mem_cons.1 h with h | h
      · cases h
        exact ⟨.inl rfl, _, rfl⟩
      · obtain ⟨c, -, hc⟩ := List.mem_map.1 h
        cases hc
        exact ⟨.inl rfl, _, rfl⟩
    | buffer size =>
      cases List.eq_of_mem_replicate h
      exact ⟨.inr (.inr rfl), _, rfl⟩
    | vector target => cases h
  | _ => cases h

/-- The code section has one cell for each of its instructions. -/
theorem totalSize_code {code : List Statement} (hcode : ∀ s ∈ code, s.isDeclaration = false) :
    totalSize code = codeSize code := by
  induction code with
  | nil => rfl
  | cons s code ih =>
    rw [List.forall_mem_cons] at hcode
    have hrest := ih hcode.2
    unfold totalSize codeSize at hrest ⊢
    rw [List.map_cons, List.sum_cons, hrest, List.countP_cons, Nat.add_comm]
    cases s with
    | declaration name directive => cases hcode.1
    | _ => rfl

/-- A cell is that of an instruction, or it is data and stands behind all instructions. -/
theorem getElem?_blocks {source : List Char} {i : Nat} {op : Opcode} {operand : Operand}
    (h : ((program source).flatMap Statement.block)[i]? = some (op, operand)) :
    .instruction op operand ∈ program source ∨
      codeSize (program source) ≤ i ∧ (op = .string ∨ op = .number ∨ op = .buffer) ∧
        ∃ w, operand = .literal w := by
  obtain ⟨code, data, hsplit, hcode, hdata⟩ := exists_sections (lines source)
  change program source = code ++ data at hsplit
  have hsize : codeSize (program source) = (code.flatMap Statement.block).length := by
    have hnone : codeSize data = 0 := List.countP_eq_zero.2 fun s hs => by simp [hdata s hs]
    rw [hsplit, length_blocks, totalSize_code hcode]
    exact List.countP_append.trans (congrArg (codeSize code + ·) hnone)
  rw [hsplit, List.flatMap_append, List.getElem?_append] at h
  split at h
  next =>
    obtain ⟨s, hs, hmem⟩ := List.mem_flatMap.1 (List.mem_of_getElem? h)
    obtain rfl := eq_instruction_of_mem_block (hcode s hs) hmem
    exact .inl (hsplit ▸ List.mem_append_left data hs)
  next hbehind =>
    obtain ⟨s, hs, hmem⟩ := List.mem_flatMap.1 (List.mem_of_getElem? h)
    exact .inr ⟨by omega, datum_of_mem_block (hdata s hs) hmem⟩

end Source

end Accumulator
