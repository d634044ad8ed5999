import Accumulator.Proofs.Layout.Reached
import Accumulator.Proofs.Source.Rendering

/-!
Integer literals in a source text mean what they say, however many digits they
have: as the operand of an instruction, as a number in memory and as the size of
a buffer. Each of the three has bounds of its own within the 64 bits in which a
literal is read, so a literal that leaves the 64 bits leaves the bounds as well
and is refused with the same error.
-/

namespace Accumulator

open Source Text

namespace Word

theorem toNat_ofInt (n : Int) : ((ofInt n).toNat : Int) = n % 2 ^ 32 := by
  change (((BitVec.ofInt 32 n).toNat : Nat) : Int) = n % 2 ^ 32
  rw [BitVec.toNat_ofInt]
  omega

theorem signed_ofInt {n : Int} (h : -2 ^ 31 ≤ n ∧ n ≤ 2 ^ 31 - 1) : (ofInt n).signed = n := by
  change (BitVec.ofInt 32 n).toInt = n
  exact BitVec.toInt_ofInt_eq_self (by decide) (by omega) (by omega)

end Word

variable {n : Int} {lit : List Char} {c : Char} {name : String}

namespace Source

theorem isInk_of_mem_literal (h : Decimal.Literal n lit) (hc : c ∈ lit) : IsInk c := by
  have hdigit {digits : List Char} (hdigits : IsRun Char.isDigit digits) (hc : c ∈ digits) :
      IsInk c := isInk_of_isNameChar (isNameChar_of_isDigit (hdigits.all c hc))
  cases h with
  | unsigned hdigits => exact hdigit hdigits hc
  | positive hdigits | negative hdigits =>
    rcases List.mem_cons.1 hc with rfl | hc
    · exact ⟨by decide, by decide⟩
    · exact hdigit hdigits hc

theorem readLiteral_literal (h : Decimal.Literal n lit) : readLiteral (String.ofList lit) =
    if Decimal.Fits n then .ok n else .error (.literalOutOfRange (String.ofList lit)) := by
  rw [readLiteral, String.toList_ofList, Decimal.readInt_literal h]
  by_cases hfits : Decimal.Fits n
  · rw [if_pos hfits, if_pos hfits]
  · rw [if_neg hfits, if_neg hfits]

/-- An operand is a word in the signed or the unsigned sense. -/
theorem Operand.ofToken_literal (h : Decimal.Literal n lit) :
    ofToken (.literal (String.ofList lit)) = if -2 ^ 31 ≤ n ∧ n ≤ 2 ^ 32 - 1 then
      .ok (.literal (Word.ofInt n)) else .error (.literalOutOfRange (String.ofList lit)) := by
  rw [ofToken, readLiteral_literal h]
  by_cases hn : -2 ^ 31 ≤ n ∧ n ≤ 2 ^ 32 - 1
  · have hfits : Decimal.Fits n := by
      unfold Decimal.Fits
      omega
    have hword : Word.ofOperand? n = some (Word.ofInt n) := if_pos (by omega)
    rw [if_pos hfits, if_pos hn]
    simp only [bind, Except.bind, hword]
  · have hword : Word.ofOperand? n = none := if_neg (by omega)
    rw [if_neg hn]
    split
    · simp only [bind, Except.bind, hword]
    · rfl

theorem read_operand {op : Opcode} {line : List Char} (hop : op.takesOperand = true)
    (h : Decimal.Literal n lit) (hline : Worded op.mnemonic.toList [lit] line) :
    Statement.read .code (significant line) =
      (Operand.ofToken (.literal (String.ofList lit))).map fun operand =>
        some (.instruction op operand) := by
  have hname : IsName op.mnemonic := isName_mnemonic op
  have hdirective : op.isDirective = false := by cases op <;> first | rfl | nomatch hop
  have hword : Apart lit := apart_of_isInk h.ne_nil fun _ => isInk_of_mem_literal h
  obtain ⟨rest, hrest, hsignificant⟩ := hline.significant
    (apart_chars (t := .word op.mnemonic) hname) (List.forall_mem_singleton.2 hword)
  rw [hsignificant, Statement.read, Token.next?_name hname hrest.parted]
  change some <$> readInstruction op.mnemonic rest = _
  unfold readInstruction
  rw [Opcode.ofMnemonic?_mnemonic]
  simp only [hdirective, Bool.false_eq_true, if_false, Token.scan_literal h hrest, List.mapM_cons,
    List.mapM_nil]
  cases Operand.ofToken (.literal (String.ofList lit)) with
  | error c => rfl
  | ok operand =>
    have harity : [operand].length = arity op := (if_pos hop).symm
    exact congrArg (some <$> ·) (if_pos harity)

/-- A literal can be the argument of a directive that takes one word. -/
theorem read_declared {line : List Char} {directive : Directive} (h : Decimal.Literal n lit)
    (hargument : directive.argument = lit)
    (hword : directive.Printable ↔ directive.argument ≠ [] ∧ ∀ c ∈ directive.argument, IsInk c)
    (hname : IsName name)
    (hline : Worded name.toList [directive.opcode.mnemonic.toList, lit] line) :
    Statement.read .data (significant line) = .ok (some (.declaration name directive)) := by
  subst hargument
  have hprintable := hword.2 ⟨h.ne_nil, fun _ => isInk_of_mem_literal h⟩
  exact Statement.read_of_worded ⟨hname, hprintable⟩ hline rfl

end Source

namespace Layout

theorem numberValue_literal (h : Decimal.Literal n lit) :
    numberValue (String.ofList lit) = if -2 ^ 31 ≤ n ∧ n ≤ 2 ^ 31 - 1 then
      .ok (Word.ofInt n) else .error (.literalOutOfRange (String.ofList lit)) := by
  rw [numberValue, readLiteral_literal h]
  by_cases hn : -2 ^ 31 ≤ n ∧ n ≤ 2 ^ 31 - 1
  · have hfits : Decimal.Fits n := by
      unfold Decimal.Fits
      omega
    have hword : Word.ofSigned? n = some (Word.ofInt n) := if_pos (by omega)
    rw [if_pos hfits, if_pos hn]
    simp only [bind, Except.bind, hword]
  · have hword : Word.ofSigned? n = none := if_neg (by omega)
    rw [if_neg hn]
    split
    · simp only [bind, Except.bind, hword]
    · rfl

theorem bufferSize_literal (h : Decimal.Literal n lit) :
    bufferSize (String.ofList lit) = if 1 ≤ n ∧ n ≤ 2 ^ 32 - 1 then
      .ok n.toNat else .error (.invalidBufferSize (String.ofList lit)) := by
  have hcount : ((Word.count : Nat) : Int) = 2 ^ 32 := by decide
  rw [bufferSize, String.toList_ofList, Decimal.readInt_literal h]
  by_cases hn : 1 ≤ n ∧ n ≤ 2 ^ 32 - 1
  · have hfits : Decimal.Fits n := by
      unfold Decimal.Fits
      omega
    rw [if_pos hfits, if_pos hn]
    exact if_pos (by omega)
  · rw [if_neg hn]
    split
    next hread =>
      split at hread
      · cases hread
        exact if_neg (by omega)
      · nomatch hread
    next => rfl

end Layout

namespace Reaches

variable {source line : List Char} {l : Layout} {number : Nat}

/-- An operand is accepted if it is a word in the signed or the unsigned sense. -/
theorem judges_operand {op : Opcode} (hreached : Reaches source l number line)
    (hlit : Decimal.Literal n lit) (hop : op.takesOperand = true) (hsec : l.sec = .code)
    (hline : Worded op.mnemonic.toList [lit] line) :
    (-2 ^ 31 ≤ n ∧ n ≤ 2 ^ 32 - 1 → LaysOutIf (l.slots.size < Word.count) source l number line
      [(op, Word.ofInt n)]) ∧
    (¬(-2 ^ 31 ≤ n ∧ n ≤ 2 ^ 32 - 1) → Refuses source l number line
      { cause := .literalOutOfRange (String.ofList lit), line := some number }) := by
  have hread := read_operand hop hlit hline
  rw [Operand.ofToken_literal hlit, ← hsec] at hread
  constructor
  · intro hn
    rw [if_pos hn] at hread
    exact hreached.instruction hread
  · intro hn
    rw [if_neg hn] at hread
    exact hreached.refuses_reading hread

/-- A number is accepted if it is a word in the signed sense. -/
theorem judges_number (hreached : Reaches source l number line) (hlit : Decimal.Literal n lit)
    (hname : IsName name) (hsec : l.sec = .data)
    (hline : Worded name.toList ["NUMBER".toList, lit] line) :
    (-2 ^ 31 ≤ n ∧ n ≤ 2 ^ 31 - 1 → LaysOutIf (l.HasPlace name 1) source l number line
      [(.number, Word.ofInt n)]) ∧
    (¬(-2 ^ 31 ≤ n ∧ n ≤ 2 ^ 31 - 1) → Refuses source l number line
      { cause := .literalOutOfRange (String.ofList lit)
        line := some number
        context := [s!"declaration of '{name}'"] }) := by
  have hargument : (Directive.number (String.ofList lit)).argument = lit := String.toList_ofList
  have hread := read_declared hlit hargument .rfl hname hline
  rw [← hsec] at hread
  have hvalue := Layout.numberValue_literal hlit
  have hdeclare : l.declare name number (.number (String.ofList lit)) =
      Layout.numberValue (String.ofList lit) >>= fun w => l.addVariable name number (.number w) :=
    rfl
  rw [hvalue] at hdeclare
  constructor
  · intro hn
    rw [if_pos hn] at hdeclare
    have hcells : (Block.number (Word.ofInt n)).slots number =
        [((.number, Word.ofInt n) : Opcode × Word)].map fun d =>
          Block.datum d.1 number d.2 := rfl
    exact hreached.declaration hread hdeclare hcells (List.cons_ne_nil _ _)
  · intro hn
    rw [if_neg hn] at hdeclare
    exact hreached.refuses_declaration hread hdeclare

/-- The size of a buffer is accepted if it is a word from one up. -/
theorem judges_buffer (hreached : Reaches source l number line) (hlit : Decimal.Literal n lit)
    (hname : IsName name) (hsec : l.sec = .data)
    (hline : Worded name.toList ["BUFFER".toList, lit] line) :
    (1 ≤ n ∧ n ≤ 2 ^ 32 - 1 → LaysOutIf (l.HasPlace name n.toNat) source l number line
      (List.replicate n.toNat (.buffer, 0))) ∧
    (¬(1 ≤ n ∧ n ≤ 2 ^ 32 - 1) → Refuses source l number line
      { cause := .invalidBufferSize (String.ofList lit)
        line := some number
        context := [s!"declaration of '{name}'"] }) := by
  have hargument : (Directive.buffer (String.ofList lit)).argument = lit := String.toList_ofList
  have hread := read_declared hlit hargument .rfl hname hline
  rw [← hsec] at hread
  have hsize := Layout.bufferSize_literal hlit
  have hdeclare : l.declare name number (.buffer (String.ofList lit)) =
      Layout.bufferSize (String.ofList lit) >>= fun size =>
        l.addVariable name number (.buffer size) := rfl
  rw [hsize] at hdeclare
  constructor
  · intro hn
    rw [if_pos hn] at hdeclare
    have hcells : (Block.buffer n.toNat).slots number =
        (List.replicate n.toNat ((.buffer, 0) : Opcode × Word)).map
          fun d => Block.datum d.1 number d.2 := by
      rw [List.map_replicate]
      rfl
    have hlength := List.length_replicate (n := n.toNat) (a := ((.buffer, 0) : Opcode × Word))
    have hsome : List.replicate n.toNat ((.buffer, 0) : Opcode × Word) ≠ [] := by
      rw [← List.length_pos_iff, hlength]
      omega
    have hplaced := hreached.declaration hread hdeclare hcells hsome
    rwa [hlength] at hplaced
  · intro hn
    rw [if_neg hn] at hdeclare
    exact hreached.refuses_declaration hread hdeclare

end Reaches

/-- Integer literals mean what they say, whatever their length. Each place of a literal has its own
bounds: within them the cells hold the integer or are as many, and nothing is wrong with the line
but that there may be no place for them; beyond them the line is refused with the literal. -/
theorem integers_mean_themselves {source line : List Char} {l : Layout} {number : Nat}
    (hreached : Reaches source l number line) (hlit : Decimal.Literal n lit) :
    (∀ op : Opcode, op.takesOperand = true → l.sec = .code → Worded op.mnemonic.toList [lit] line →
      ∃ w : Word, (w.toNat : Int) = n % 2 ^ 32 ∧
        (-2 ^ 31 ≤ n ∧ n ≤ 2 ^ 32 - 1 →
          LaysOutIf (l.slots.size < Word.count) source l number line [(op, w)]) ∧
        (¬(-2 ^ 31 ≤ n ∧ n ≤ 2 ^ 32 - 1) → Refuses source l number line
          { cause := .literalOutOfRange (String.ofList lit), line := some number })) ∧
    (∀ name, IsName name → l.sec = .data → Worded name.toList ["NUMBER".toList, lit] line →
      (-2 ^ 31 ≤ n ∧ n ≤ 2 ^ 31 - 1 → ∃ w : Word, w.signed = n ∧
        LaysOutIf (l.HasPlace name 1) source l number line [(.number, w)]) ∧
      (¬(-2 ^ 31 ≤ n ∧ n ≤ 2 ^ 31 - 1) → Refuses source l number line
        { cause := .literalOutOfRange (String.ofList lit)
          line := some number
          context := [s!"declaration of '{name}'"] })) ∧
    (∀ name, IsName name → l.sec = .data → Worded name.toList ["BUFFER".toList, lit] line →
      (1 ≤ n ∧ n ≤ 2 ^ 32 - 1 → LaysOutIf (l.HasPlace name n.toNat) source l number line
        (List.replicate n.toNat (.buffer, 0))) ∧
      (¬(1 ≤ n ∧ n ≤ 2 ^ 32 - 1) → Refuses source l number line
        { cause := .invalidBufferSize (String.ofList lit)
          line := some number
          context := [s!"declaration of '{name}'"] })) := by
  refine ⟨?_, ?_, ?_⟩
  · intro op hop hsec hline
    exact ⟨Word.ofInt n, Word.toNat_ofInt n, hreached.judges_operand hlit hop hsec hline⟩
  · intro name hname hsec hline
    obtain ⟨haccepted, hrefused⟩ := hreached.judges_number hlit hname hsec hline
    exact ⟨fun hn => ⟨Word.ofInt n, Word.signed_ofInt hn, haccepted hn⟩, hrefused⟩
  · intro name hname hsec hline
    exact hreached.judges_buffer hlit hname hsec hline

/-- The least operand, with leading zeros. -/
def leastOperand : List Char := "PUSH -0002147483648".toList

/-- A number far below the least that has 64 bits. -/
def farBelow : List Char := ".data:\nx NUMBER -99999999999999999999".toList

def smallBuffer : List Char := ".data:\nb BUFFER +003".toList

theorem integers_mean_themselves_bounds :
    (∃ w : Word, w.toNat = 2147483648 ∧ LaysOut leastOperand {} 1 leastOperand [(.push, w)]) ∧
      Refuses farBelow { sec := .data } 2 "x NUMBER -99999999999999999999".toList
        { cause := .literalOutOfRange "-99999999999999999999"
          line := some 2
          context := ["declaration of 'x'"] } ∧
      LaysOut smallBuffer { sec := .data } 2 "b BUFFER +003".toList
        [(.buffer, 0), (.buffer, 0), (.buffer, 0)] := by
  have hleast : Decimal.Literal (-2147483648) "-0002147483648".toList :=
    @Decimal.Literal.negative "0002147483648".toList ⟨by decide, List.all_eq_true.1 (by decide)⟩
  have hfar : Decimal.Literal (-99999999999999999999) "-99999999999999999999".toList :=
    @Decimal.Literal.negative "99999999999999999999".toList
      ⟨by decide, List.all_eq_true.1 (by decide)⟩
  have hsmall : Decimal.Literal 3 "+003".toList :=
    @Decimal.Literal.positive "003".toList ⟨by decide, List.all_eq_true.1 (by decide)⟩
  have hfirst : Reaches leastOperand {} 1 leastOperand :=
    @Reaches.mk leastOperand {} [] [] leastOperand (by decide +kernel) rfl
  have hsecond : Reaches farBelow { sec := .data } 2 "x NUMBER -99999999999999999999".toList :=
    @Reaches.mk farBelow _ [".data:".toList] [] _ (by decide +kernel) (by decide +kernel)
  have hthird : Reaches smallBuffer { sec := .data } 2 "b BUFFER +003".toList :=
    @Reaches.mk smallBuffer _ [".data:".toList] [] _ (by decide +kernel) (by decide +kernel)
  refine ⟨?_, ?_, ?_⟩
  · obtain ⟨w, hw, haccepted, -⟩ := (integers_mean_themselves hfirst hleast).1 .push rfl rfl
      (worded_flatMap _ _)
    exact ⟨w, by omega, (haccepted (by decide)).accepted (by decide)⟩
  · exact ((integers_mean_themselves hsecond hfar).2.1 "x" (by decide) rfl (worded_flatMap _ _)).2
      (by decide)
  · exact (((integers_mean_themselves hthird hsmall).2.2 "b" (by decide) rfl
      (worded_flatMap _ _)).1 (by decide)).accepted ⟨rfl, by decide⟩

end Accumulator
