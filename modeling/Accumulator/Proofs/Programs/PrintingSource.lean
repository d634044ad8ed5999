import Accumulator.Proofs.Layout.Assembly
import Accumulator.Proofs.Programs.Printing
import Accumulator.Proofs.Source.Rendering

/-!
The source of the program that prints a text. The text stands in one line of it,
in quotes; the other lines are the same for all texts. The source assembles to
the memory that the program is followed in, so it prints whatever text can stand
in a line.
-/

namespace Accumulator

namespace Source

theorem memory_imageOf (program : List Statement) :
    (imageOf program).memory = Contents.placed ((program.flatMap Statement.block).map
      fun (op, operand) => (op, operand.value program)) := by
  simp only [imageOf, Contents.placed, List.zipIdx_map, List.map_map]
  rfl

end Source

namespace Printing

open Source Text

/-- The lines up to the data section. -/
def codeLines : List String :=
  ["; prints \"Hello, world!\" one character at a time", ".code:",
    "    LOAD hello          ; the length cell", "    SAVE count", "    PUSH hello",
    "    SAVE ptr", "loop:", "    LOAD count", "    JZ end", "    SUB one", "    SAVE count",
    "    LOAD ptr", "    INC", "    SAVE ptr", "    LOAD_AC", "    OUTPUT", "    JUMP loop",
    "end:", "    HALT", "", ".data:"]

def textHead : List Char := "    hello STRING \"".toList

/-- The line with the text. -/
def textLine (text : List Char) : List Char := textHead ++ (text ++ ['"'])

def numberLines : List String := ["    count NUMBER 0", "    ptr NUMBER 0", "    one NUMBER 1"]

def allLines (text : List Char) : List (List Char) :=
  codeLines.map String.toList ++ textLine text :: numberLines.map String.toList

def source (text : List Char) : List Char := ofLines (allLines text)

def code : List Statement :=
  [.marker .code, .instruction .load (.symbol "hello"), .instruction .save (.symbol "count"),
    .instruction .push (.symbol "hello"), .instruction .save (.symbol "ptr"), .label "loop",
    .instruction .load (.symbol "count"), .instruction .jumpIfZero (.symbol "end"),
    .instruction .subtract (.symbol "one"), .instruction .save (.symbol "count"),
    .instruction .load (.symbol "ptr"), .instruction .increment .absent,
    .instruction .save (.symbol "ptr"), .instruction .loadIndirect .absent,
    .instruction .output .absent, .instruction .jump (.symbol "loop"), .label "end",
    .instruction .halt .absent, .marker .data]

def hello (text : List Char) : Statement := .declaration "hello" (.string (String.ofList text))

def numbers : List Statement :=
  [.declaration "count" (.number "0"), .declaration "ptr" (.number "0"),
    .declaration "one" (.number "1")]

def statements (text : List Char) : List Statement := code ++ hello text :: numbers

/-- What the lines up to the data section say. The first and the last but one say nothing. -/
def codeSaid : List (Option Statement) :=
  none :: code.dropLast.map some ++ [none, some (.marker .data)]

variable {text : List Char}

theorem readLines_codeLines :
    readLines .code (codeLines.map String.toList) = codeSaid.map .ok := by
  decide +kernel

theorem readLines_numberLines :
    readLines .data (numberLines.map String.toList) = (numbers.map some).map .ok := by
  decide +kernel

theorem textHead_eq : textHead =
    List.replicate 4 ' ' ++ ("hello".toList ++ ' ' :: ("STRING".toList ++ [' ', '"'])) := rfl

theorem line_hello (text : List Char) : (hello text).line =
    "hello".toList ++ ' ' :: ("STRING".toList ++ ' ' :: '"' :: (text ++ ['"'])) := by
  rw [Statement.line, hello]
  simp only [Statement.head, Token.chars, Statement.others, Directive.argument,
    String.toList_ofList, List.flatMap_cons, List.flatMap_nil, List.append_nil]
  rfl

theorem textLine_eq (text : List Char) :
    textLine text = List.replicate 4 ' ' ++ (hello text).line := by
  rw [textLine, textHead_eq, line_hello]
  simp only [List.append_assoc, List.cons_append, List.nil_append]

theorem lines_source (hfeed : '\n' ∉ text) : lines (source text) = allLines text := by
  apply lines_ofLines
  rw [allLines, List.forall_mem_append, List.forall_mem_cons]
  refine ⟨by decide +kernel, ⟨?_, ?_⟩, by decide +kernel⟩
  · rw [textLine, List.mem_append, List.mem_append, not_or, not_or]
    exact ⟨by decide +kernel, hfeed, by decide⟩
  · rw [textLine, ← List.append_assoc, List.getLast?_concat]
    decide

section Text

variable (htext : ∀ c ∈ text, c ≠ ';' ∧ c ≠ '\n')
include htext

theorem printable_hello : (hello text).Printable := by
  refine ⟨by decide, ?_⟩
  simpa [Directive.Printable] using htext

theorem readings_source :
    readings (source text) = (codeSaid ++ some (hello text) :: numbers.map some).map .ok := by
  have hwritten : (hello text).Written (textLine text) := by
    rw [textLine_eq]
    exact Statement.written_indent (by simp [isSpacing]) (hello text)
  have hhello := readLines_of_inPlace (List.forall_mem_singleton.2 (printable_hello htext))
    (.cons hwritten .nil) (show InPlace .data [hello text] from ⟨rfl, trivial⟩)
  have hdata : (codeSaid.map .ok).foldl sectionAfter .code = .data := rfl
  rw [readings, lines_source fun hc => (htext _ hc).2 rfl, allLines, readLines_append,
    readLines_codeLines, hdata, ← List.singleton_append, readLines_append, hhello, List.map_append]
  exact congrArg (fun behind => _ ++ (_ :: behind)) readLines_numberLines

theorem reads_source : Reads (source text) := by
  intro reading hreading
  rw [readings_source htext] at hreading
  obtain ⟨said, -, rfl⟩ := List.mem_map.1 hreading
  exact ⟨said, rfl⟩

theorem program_source : program (source text) = statements text := by
  rw [program, readings_source htext]
  rfl

end Text

theorem definedNames_statements (text : List Char) :
    definedNames (statements text) = ["loop", "end", "hello", "count", "ptr", "one"] := rfl

theorem wellFormed_statements (text : List Char) : WellFormed (statements text) where
  codeFirst := by simp [statements, code, numbers, hello]
  distinct := by
    rw [definedNames_statements]
    decide
  inRange := by
    have hzero : integer? "0" = some 0 := by decide +kernel
    have hone : integer? "1" = some 1 := by decide +kernel
    simp [statements, code, numbers, hello, Statement.InRange, hzero, hone]
  oneVector := Nat.zero_le 1
  vectorLabel := nofun
  operandsDefined := by
    intro op name hs
    simp only [statements, code, numbers, hello, List.cons_append, List.nil_append, List.mem_cons,
      reduceCtorEq, Statement.instruction.injEq, Operand.symbol.injEq, List.not_mem_nil, false_or,
      or_false, and_false] at hs
    rw [definedNames_statements]
    simp only [List.mem_cons, List.not_mem_nil, or_false]
    tauto

theorem totalSize_front (text : List Char) (before : List Statement) :
    totalSize (code ++ [hello text] ++ before) = 16 + totalSize before + text.length := by
  have hhello : (hello text).size = text.length + 1 := congrArg (· + 1) String.length_ofList
  have hcode : totalSize code = 15 := rfl
  rw [totalSize_append, totalSize_append, totalSize_singleton, hhello, hcode]
  omega

theorem totalSize_statements (text : List Char) :
    totalSize (statements text) = 19 + text.length := by
  rw [statements, List.append_cons, totalSize_front]
  rfl

/-- The address of a variable is that of the text and as many cells more as stand between. -/
theorem value_number (before : List Statement) {after : List Statement} {name value : String}
    (hnumbers : numbers = before ++ .declaration name (.number value) :: after)
    (text : List Char) : Operand.value (statements text) (.symbol name) =
      some (UInt32.ofNat (16 + totalSize before + text.length)) := by
  have hsplit : statements text =
      code ++ [hello text] ++ before ++ .declaration name (.number value) :: after := by
    rw [statements, hnumbers]
    simp
  have hdistinct := (wellFormed_statements text).distinct
  rw [hsplit] at hdistinct ⊢
  rw [Operand.value, address?_of_split hdistinct rfl, totalSize_front]
  rfl

theorem blocks_statements (text : List Char) :
    ((statements text).flatMap Statement.block).map
      (fun (op, operand) => (op, operand.value (statements text))) = contents text 0 0 := by
  have hloop : Operand.value (statements text) (.symbol "loop") = some 4 := rfl
  have hend : Operand.value (statements text) (.symbol "end") = some 14 := rfl
  have hhello : Operand.value (statements text) (.symbol "hello") = some 15 := rfl
  have hcount : Operand.value (statements text) (.symbol "count") =
      some (UInt32.ofNat (16 + text.length)) := value_number [] rfl text
  have hptr : Operand.value (statements text) (.symbol "ptr") =
      some (UInt32.ofNat (17 + text.length)) := value_number (numbers.take 1) rfl text
  have hone : Operand.value (statements text) (.symbol "one") =
      some (UInt32.ofNat (18 + text.length)) := value_number (numbers.take 2) rfl text
  have habsent : Operand.value (statements text) .absent = none := rfl
  have hliteral (w : Word) : Operand.value (statements text) (.literal w) = some w := rfl
  have hzero : Word.ofInt ((integer? "0").getD 0) = 0 := by decide +kernel
  have hunit : Word.ofInt ((integer? "1").getD 0) = 1 := by decide +kernel
  -- the blocks are taken apart, the program that gives the names their addresses is not
  generalize Operand.value (statements text) = value at *
  simp only [statements, code, numbers, hello, List.cons_append, List.nil_append,
    List.flatMap_cons, List.flatMap_nil, Statement.block, String.length_ofList,
    String.toList_ofList, List.map_cons, List.map_append, List.map_map, List.map_nil,
    Function.comp_def, hloop, hend, hhello, hcount, hptr, hone, habsent, hliteral, hzero, hunit,
    List.append_nil]
  rfl

theorem assemble_text (hshort : text.length < 2 ^ 31) (htext : ∀ c ∈ text, c ≠ ';' ∧ c ≠ '\n') :
    assemble (source text) = .ok (imageOf (statements text)) := by
  have hroom : totalSize (statements text) < Word.count := by
    rw [totalSize_statements, Word.count]
    omega
  rw [assemble_eq_ok_iff, program_source htext]
  exact ⟨reads_source htext, wellFormed_statements text, fits_of_totalSize_lt hroom, rfl⟩

/-- A character is put out as itself if it has a code below 256, else as that code. -/
theorem symbolText_val (c : Char) :
    Word.symbolText c.val = if c.toNat < 256 then String.singleton c else toString c.toNat := by
  have hchar : Char.ofNat c.val.toNat = c := Char.ofNat_toNat c
  rw [Word.symbolText, hchar]
  rfl

/-- The program prints any text that can stand in quotes in one line of a source. -/
theorem prints_text (text : List Char) (limits : Limits) (hshort : text.length < 2 ^ 31)
    (htext : ∀ c ∈ text, c ≠ ';' ∧ c ≠ '\n') (hlimit : 26 * text.length + 17 < limits.ticks) :
    ∃ image report, assemble (source text) = .ok image ∧
      simulate image [] limits = .ok report ∧
      report.stop = .halted ∧
      report.output = String.join (text.map fun c => Word.symbolText c.val) ∧
      (∀ c : Char, Word.symbolText c.val =
        if c.toNat < 256 then String.singleton c else toString c.toNat) ∧
      report.instructions = 10 * text.length + 7 ∧
      report.ticks = 26 * text.length + 17 := by
  have hmemory : (imageOf (statements text)).memory = (contents text 0 0).placed := by
    rw [memory_imageOf, blocks_statements]
  obtain ⟨report, hsimulate, hstop, houtput, hinstructions, hticks⟩ :=
    simulate_image hshort hmemory hlimit
  exact ⟨_, report, assemble_text hshort htext, hsimulate, hstop, houtput, symbolText_val,
    hinstructions, hticks⟩

theorem prints_text_mixed :
    (∀ c ∈ ['H', 'é', 'Ж'], c ≠ ';' ∧ c ≠ '\n') ∧
      ∃ image report, assemble (source ['H', 'é', 'Ж']) = .ok image ∧
        simulate image [] { ticks := 96 } = .ok report ∧ report.stop = .halted ∧
        report.output = "Hé1046" ∧ report.instructions = 37 ∧ report.ticks = 95 := by
  have htext : ∀ c ∈ ['H', 'é', 'Ж'], c ≠ ';' ∧ c ≠ '\n' := by simp
  obtain ⟨image, report, hassemble, hsimulate, hstop, houtput, -, hinstructions, hticks⟩ :=
    prints_text ['H', 'é', 'Ж'] { ticks := 96 } (by decide) htext (by decide)
  exact ⟨htext, image, report, hassemble, hsimulate, hstop, houtput.trans (by decide),
    hinstructions, hticks⟩

end Printing

end Accumulator
