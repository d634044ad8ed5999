import Accumulator.Checked
import Accumulator.Proofs.Source.Program
import Accumulator.Proofs.Source.Words
import Accumulator.Proofs.Text.Line

/-!
Statements written out as source lines. The words of a statement stand in its
line with any gaps between them, blanks around them and a comment behind them.
Where the statement belongs to the section, such a line is read back as the
statement; elsewhere it cannot be read at all. Which of the two holds does not
depend on names, so a source is accepted or not by what its statements are.
-/

namespace Accumulator

open Text

namespace Word

theorem ofOperand?_toNat (w : Word) : ofOperand? w.toNat = some w := by
  have hw : w.toNat < 2 ^ 32 := w.toNat_lt
  rw [ofOperand?, if_pos (by omega), ofInt, BitVec.ofInt_natCast]
  exact congrArg some UInt32.ofNat_toNat

end Word

namespace Source

/-- The tokens of an operand, an integer without a sign. -/
def Operand.tokens : Operand → List Token
  | .absent => []
  | .literal w => [.literal (String.ofList (Decimal.digits w.toNat))]
  | .symbol name => [.word name]

namespace Directive

def opcode : Directive → Opcode
  | .number _ => .number
  | .string _ => .string
  | .buffer _ => .buffer
  | .vector _ => .vector

/-- The argument as it is written, a text in quotes. -/
def argument : Directive → List Char
  | .number text => text.toList
  | .string text => '"' :: (text.toList ++ ['"'])
  | .buffer text => text.toList
  | .vector text => text.toList

end Directive

/-- Whether a character can stand in a word: it is no blank and starts no comment. -/
def IsInk (c : Char) : Prop := isBlank c = false ∧ c ≠ ';'

namespace Operand

def Printable : Operand → Prop
  | .symbol name => IsName name
  | _ => True

end Operand

namespace Directive

/-- Whether the argument can stand in a line: as one word or as a text. -/
def Printable : Directive → Prop
  | .string text => ∀ c ∈ text.toList, c ≠ ';' ∧ c ≠ '\n'
  | d => d.argument ≠ [] ∧ ∀ c ∈ d.argument, IsInk c

end Directive

/-- A line with the given words and nothing else, except for blanks and a comment. -/
inductive Worded (first : List Char) (others : List (List Char)) : List Char → Prop where
  | intro (indent rest trail comment : List Char) (hindent : ∀ c ∈ indent, isSpacing c = true)
      (hrest : Spaced others rest) (htrail : ∀ c ∈ trail, isSpacing c = true)
      (hcomment : ∀ c ∈ comment.head?, c = ';') :
      Worded first others (indent ++ (first ++ rest ++ trail) ++ comment)

namespace Statement

/-- The token that a line with the statement starts with. -/
def head : Statement → Token
  | .marker .code => .codeMarker
  | .marker .data => .dataMarker
  | .label name => .label name
  | .declaration name _ => .word name
  | .instruction op _ => .word op.mnemonic

/-- The words behind the first. -/
def others : Statement → List (List Char)
  | .declaration _ directive => [directive.opcode.mnemonic.toList, directive.argument]
  | .instruction _ operand => operand.tokens.map Token.chars
  | _ => []

/-- Whether the statement can be written down: its names can stand in a line, an instruction is
executable, and it has an operand exactly if it takes one. -/
def Printable : Statement → Prop
  | .marker _ => True
  | .label name => IsName name
  | .declaration name directive => IsName name ∧ directive.Printable
  | .instruction op operand =>
    op.isDirective = false ∧ operand.Printable ∧ (operand ≠ .absent ↔ op.takesOperand = true)

/-- Whether a line holds the statement and nothing else, except for blanks and a comment. -/
inductive Written (s : Statement) : List Char → Prop where
  | intro (indent rest trail comment : List Char) (hindent : ∀ c ∈ indent, isSpacing c = true)
      (hrest : Spaced s.others rest) (htrail : ∀ c ∈ trail, isSpacing c = true)
      (hcomment : ∀ c ∈ comment.head?, c = ';') :
      Written s (indent ++ (s.head.chars ++ rest ++ trail) ++ comment)

/-- The words of the statement with a single blank between them. -/
def line (s : Statement) : List Char := s.head.chars ++ s.others.flatMap (' ' :: ·)

/-- Whether the statement may stand in the section. -/
def Belongs (sec : Section) : Statement → Prop
  | .marker _ => True
  | .label _ => sec = .code
  | .instruction _ _ => sec = .code
  | .declaration _ _ => sec = .data

end Statement

/-- Whether each statement stands in the section that it belongs to. -/
def InPlace (sec : Section) : List Statement → Prop
  | [] => True
  | s :: rest => s.Belongs sec ∧ InPlace (sectionAfter sec (.ok (some s))) rest

variable {c : Char} {gap rest line : List Char} {words : List (List Char)} {name : String}
  {t : Token} {operand : Operand} {directive : Directive} {s : Statement} {sec : Section}

section Ink

theorem isInk_of_isNameChar (h : Token.isNameChar c = true) : IsInk c := by
  refine ⟨isBlank_of_isNameChar h, ?_⟩
  rintro rfl
  exact absurd h (by decide)

theorem isInk_of_all {cs : List Char} (h : cs.all (fun c => !isBlank c && c != ';') = true) :
    ∀ c ∈ cs, IsInk c := by
  intro c hc
  simpa [IsInk] using List.all_eq_true.1 h c hc

theorem isInk_of_mem_chars (ht : t.Whole) (hc : c ∈ t.chars) : IsInk c := by
  cases t with
  | codeMarker => exact isInk_of_all (by decide) c hc
  | dataMarker => exact isInk_of_all (by decide) c hc
  | label name =>
    rcases List.mem_append.1 hc with hc | hc
    · exact isInk_of_isNameChar (IsName.isNameChar ht hc)
    · rw [List.mem_singleton.1 hc]
      exact ⟨by decide, by decide⟩
  | word name => exact isInk_of_isNameChar (IsName.isNameChar ht hc)
  | literal text =>
    obtain ⟨n, rfl⟩ := ht
    rw [Token.chars, String.toList_ofList] at hc
    exact isInk_of_isNameChar (isNameChar_of_isDigit (Decimal.isDigit_of_mem_digits hc))
  | stray c => exact ht.elim

theorem chars_ne_nil (ht : t.Whole) : t.chars ≠ [] := by
  cases t with
  | codeMarker => exact List.cons_ne_nil _ _
  | dataMarker => exact List.cons_ne_nil _ _
  | label name => exact List.concat_ne_nil _ _
  | word name => exact IsName.ne_nil ht
  | literal text =>
    obtain ⟨n, rfl⟩ := ht
    rw [Token.chars, String.toList_ofList]
    exact Decimal.digits_ne_nil n
  | stray c => exact ht.elim

/-- Whether a text is read as it stands: no blank at its ends, no comment and no line end in
it. -/
structure Apart (word : List Char) : Prop where
  solid : Solid word
  clear : ∀ c ∈ word, c ≠ ';' ∧ c ≠ '\n'

theorem apart_of_isInk {word : List Char} (hne : word ≠ []) (h : ∀ c ∈ word, IsInk c) :
    Apart word where
  solid := solid_of_not_isBlank hne fun c hc => (h c hc).1
  clear := by
    intro c hc
    refine ⟨(h c hc).2, ?_⟩
    rintro rfl
    exact absurd (h '\n' hc).1 (by decide)

theorem apart_chars (ht : t.Whole) : Apart t.chars :=
  apart_of_isInk (chars_ne_nil ht) fun _ hc => isInk_of_mem_chars ht hc

theorem solid_quoted (cs : List Char) : Solid ('"' :: (cs ++ ['"'])) where
  nonempty := List.cons_ne_nil _ _
  head := stops_cons (by decide)
  last := by
    intro c hc
    rw [← List.cons_append, List.getLast?_concat, Option.mem_some_iff] at hc
    exact hc ▸ by decide

theorem apart_argument (h : directive.Printable) : Apart directive.argument := by
  cases directive with
  | string text =>
    refine ⟨solid_quoted text.toList, ?_⟩
    rw [Directive.argument, List.forall_mem_cons, List.forall_mem_append, List.forall_mem_singleton]
    exact ⟨by decide, h, by decide⟩
  | number text => exact apart_of_isInk h.1 h.2
  | buffer text => exact apart_of_isInk h.1 h.2
  | vector text => exact apart_of_isInk h.1 h.2

/-- Words with gaps between them make up a text of that kind. -/
theorem Spaced.apart {first : List Char} (h : Spaced words rest) (hfirst : Apart first)
    (hwords : ∀ word ∈ words, Apart word) : Apart (first ++ rest) := by
  induction h generalizing first with
  | nil => rwa [List.append_nil]
  | @cons gap word rest words hgap hrest ih =>
    rw [List.forall_mem_cons] at hwords
    have hbehind := ih hwords.1 hwords.2
    refine ⟨hfirst.solid.append gap hbehind.solid, ?_⟩
    have hgaps : ∀ c ∈ gap, c ≠ ';' ∧ c ≠ '\n' := by
      intro c hc
      constructor <;> (rintro rfl; exact absurd (hgap.all _ hc) (by decide))
    rw [List.forall_mem_append, List.forall_mem_append]
    exact ⟨hfirst.clear, hgaps, hbehind.clear⟩

/-- Neither blanks around a text nor a comment behind it matter. -/
theorem significant_between {indent trail comment : List Char}
    (hindent : ∀ c ∈ indent, isBlank c = true) (htrail : ∀ c ∈ trail, isBlank c = true)
    (hcomment : ∀ c ∈ comment.head?, c = ';') (cs : List Char) :
    significant (indent ++ (cs ++ trail) ++ comment) = significant cs := by
  have hkept : ∀ c, isBlank c = true → decide (c ≠ ';') = true := by
    intro c hc
    apply decide_eq_true
    rintro rfl
    exact absurd hc (by decide)
  have hcut : Stops (fun c => decide (c ≠ ';')) comment := fun c hc => by simp [hcomment c hc]
  unfold significant
  rw [List.append_assoc, List.append_assoc,
    List.takeWhile_append_of_pos fun c hc => hkept c (hindent c hc), List.takeWhile_append]
  split
  next hwhole =>
    -- there is no other comment, so the blanks in front of this one are cut off as well
    have htext := (List.takeWhile_prefix (fun c => decide (c ≠ ';'))).eq_of_length hwhole
    rw [htext, takeWhile_append_of_stops (fun c hc => hkept c (htrail c hc)) hcut,
      trim_between hindent htrail]
  next =>
    have hnone : ∀ c ∈ ([] : List Char), isBlank c = true := List.forall_mem_nil _
    have htrim := trim_between hindent hnone (cs.takeWhile fun c => decide (c ≠ ';'))
    rwa [List.append_nil] at htrim

theorem Apart.takeWhile {word : List Char} (h : Apart word) (rest : List Char) :
    (word ++ rest).takeWhile (fun c => decide (c ≠ ';')) =
      word ++ rest.takeWhile fun c => decide (c ≠ ';') :=
  List.takeWhile_append_of_pos fun c hc => decide_eq_true (h.clear c hc).1

theorem significant_of_apart {word : List Char} (h : Apart word) : significant word = word := by
  have hwhole := h.takeWhile []
  rw [List.append_nil, List.takeWhile_nil, List.append_nil] at hwhole
  rw [significant, hwhole, h.solid.trim]

/-- A comment that starts behind a word leaves the word as it is. -/
theorem significant_append {word : List Char} (h : Apart word) (hgap : IsRun isSpacing gap)
    (hc : IsInk c) (cs : List Char) :
    significant (word ++ (gap ++ c :: cs)) = word ++ (gap ++ significant (c :: cs)) := by
  have hgaps : ∀ d ∈ gap, decide (d ≠ ';') = true := by
    intro d hd
    apply decide_eq_true
    rintro rfl
    exact absurd (hgap.all _ hd) (by decide)
  have hhead : (c :: cs).takeWhile (fun d => decide (d ≠ ';')) =
      c :: cs.takeWhile fun d => decide (d ≠ ';') :=
    List.takeWhile_cons_of_pos (decide_eq_true hc.2)
  unfold significant
  rw [h.takeWhile, List.takeWhile_append_of_pos hgaps, hhead, h.solid.trim_append gap hc.1]

/-- What matters in a line are its words. -/
theorem Worded.significant {first : List Char} (h : Worded first words line)
    (hfirst : Apart first) (hwords : ∀ word ∈ words, Apart word) :
    ∃ rest, Spaced words rest ∧ significant line = first ++ rest := by
  obtain ⟨indent, rest, trail, comment, hindent, hrest, htrail, hcomment⟩ := h
  refine ⟨rest, hrest, ?_⟩
  have hblank {cs : List Char} (h : ∀ c ∈ cs, isSpacing c = true) : ∀ c ∈ cs, isBlank c = true :=
    fun c hc => isBlank_of_isSpacing (h c hc)
  rw [significant_between (hblank hindent) (hblank htrail) hcomment,
    significant_of_apart (hrest.apart hfirst hwords)]

theorem spaced_flatMap (words : List (List Char)) : Spaced words (words.flatMap (' ' :: ·)) := by
  induction words with
  | nil => exact .nil
  | cons word words ih =>
    have hblank : IsRun isSpacing [' '] :=
      ⟨List.cons_ne_nil _ _, List.forall_mem_singleton.2 rfl⟩
    exact .cons hblank ih

/-- Words may stand with a single blank between them. -/
theorem worded_flatMap (first : List Char) (words : List (List Char)) :
    Worded first words (first ++ words.flatMap (' ' :: ·)) := by
  have h := @Worded.intro first words [] _ [] [] (by simp) (spaced_flatMap words) (by simp)
    (by simp)
  simpa using h

end Ink

namespace Operand

theorem whole_of_mem_tokens (h : operand.Printable) : ∀ t ∈ operand.tokens, t.Whole := by
  cases operand with
  | absent => exact fun t ht => nomatch ht
  | literal w => exact List.forall_mem_singleton.2 ⟨w.toNat, rfl⟩
  | symbol name => exact List.forall_mem_singleton.2 h

theorem next?_words (h : operand.Printable)
    (hrest : Spaced (operand.tokens.map Token.chars) rest) :
    Token.next? rest = operand.tokens.head?.map fun t => (t, []) := by
  have hwhole := whole_of_mem_tokens h
  cases operand with
  | absent =>
    cases hrest
    rfl
  | literal w =>
    obtain ⟨behind, hnone, hnext⟩ := Token.next?_spaced (hwhole _ List.mem_cons_self) hrest
    cases hnone
    exact hnext
  | symbol name =>
    obtain ⟨behind, hnone, hnext⟩ := Token.next?_spaced (hwhole _ List.mem_cons_self) hrest
    cases hnone
    exact hnext

theorem ofToken_digits (w : Word) :
    ofToken (.literal (String.ofList (Decimal.digits w.toNat))) = .ok (.literal w) := by
  have hw : w.toNat < 2 ^ 32 := w.toNat_lt
  have hread : readLiteral (String.ofList (Decimal.digits w.toNat)) = .ok (w.toNat : Int) := by
    rw [readLiteral, String.toList_ofList, Decimal.readInt_digits (by omega)]
  refine Checked.bind_eq_ok_iff.2 ⟨w.toNat, hread, ?_⟩
  rw [Word.ofOperand?_toNat]

/-- The tokens of an operand are read back as the operand. -/
theorem mapM_tokens (operand : Operand) :
    operand.tokens.mapM ofToken = .ok (if operand = .absent then [] else [operand]) := by
  cases operand with
  | absent => rfl
  | symbol name => rfl
  | literal w =>
    rw [tokens, List.mapM_cons, ofToken_digits]
    rfl

end Operand

namespace Directive

theorem unquote_quoted (cs : List Char) : unquote ('"' :: (cs ++ ['"'])) = cs := by
  cases cs with
  | nil => rfl
  | cons c cs =>
    rw [List.cons_append, unquote, ← List.cons_append, if_pos List.getLast?_concat,
      List.dropLast_concat]

theorem ofWord_argument {op : Opcode} {make : String → Directive} {text : String}
    (hne : text.toList ≠ []) (h : ∀ c ∈ text.toList, IsInk c) :
    ofWord op make text.toList = .ok (make text) := by
  have hone : wordCount text.toList = 1 := wordCount_eq_one hne fun c hc => (h c hc).1
  simp only [ofWord, hone, if_true, String.ofList_toList]

/-- A directive is read back from its keyword and its argument. -/
theorem read_argument (h : directive.Printable) :
    read directive.opcode.mnemonic directive.argument = .ok directive := by
  unfold read
  rw [Opcode.ofMnemonic?_mnemonic]
  cases directive with
  | number text => exact ofWord_argument h.1 h.2
  | buffer text => exact ofWord_argument h.1 h.2
  | vector text => exact ofWord_argument h.1 h.2
  | string text =>
    change ofText (argument (.string text)) = _
    rw [ofText, if_neg (apart_argument h).solid.wordCount_ne_zero, argument, unquote_quoted,
      String.ofList_toList]

/-- No directive goes without an argument. -/
theorem read_nil (keyword : String) : read keyword [] ≠ .ok directive := by
  unfold read
  split <;> nofun

end Directive

namespace Statement

theorem whole_head (h : s.Printable) : s.head.Whole := by
  cases s with
  | marker start => cases start <;> trivial
  | label name => exact h
  | declaration name directive => exact h.1
  | instruction op operand => exact isName_mnemonic op

theorem apart_of_mem_others (h : s.Printable) : ∀ word ∈ s.others, Apart word := by
  cases s with
  | declaration name directive =>
    rw [others, List.forall_mem_cons, List.forall_mem_singleton]
    exact ⟨apart_chars (t := .word directive.opcode.mnemonic) (isName_mnemonic _),
      apart_argument h.2⟩
  | instruction op operand =>
    intro word hword
    obtain ⟨t, ht, rfl⟩ := List.mem_map.1 hword
    exact apart_chars (Operand.whole_of_mem_tokens h.2.1 t ht)
  | _ => exact fun word hword => nomatch hword

theorem Written.worded (h : s.Written line) : Worded s.head.chars s.others line := by
  obtain ⟨indent, rest, trail, comment, hindent, hrest, htrail, hcomment⟩ := h
  exact .intro indent rest trail comment hindent hrest htrail hcomment

/-- What matters in a line that holds a statement are its words. -/
theorem Written.significant (hs : s.Printable) (h : s.Written line) :
    ∃ rest, Spaced s.others rest ∧ significant line = s.head.chars ++ rest :=
  h.worded.significant (apart_chars (whole_head hs)) (apart_of_mem_others hs)

theorem written_indent {indent : List Char} (hindent : ∀ c ∈ indent, isSpacing c = true)
    (s : Statement) : s.Written (indent ++ s.line) := by
  have h := Written.intro indent _ [] [] hindent (spaced_flatMap s.others) (by simp) (by simp)
  simpa [line] using h

theorem written_line (s : Statement) : s.Written s.line := by
  have hnone : ∀ c ∈ ([] : List Char), isSpacing c = true := List.forall_mem_nil _
  exact written_indent hnone s

theorem apart_line (h : s.Printable) : Apart s.line :=
  (spaced_flatMap s.others).apart (apart_chars (whole_head h)) (apart_of_mem_others h)

theorem next?_head (hs : s.Printable) (hrest : Spaced s.others rest) :
    Token.next? (s.head.chars ++ rest) = some (s.head, rest) :=
  Token.next?_chars (whole_head hs) hrest.parted

theorem readInstruction_others {op : Opcode} (hs : (instruction op operand).Printable)
    (hrest : Spaced (instruction op operand).others rest) :
    readInstruction op.mnemonic rest = .ok (.instruction op operand) := by
  obtain ⟨hdirective, hoperand, htakes⟩ := hs
  unfold readInstruction
  rw [Opcode.ofMnemonic?_mnemonic]
  simp only [hdirective, Bool.false_eq_true, if_false]
  rw [Token.scan_spaced (Operand.whole_of_mem_tokens hoperand) hrest, Operand.mapM_tokens]
  by_cases habsent : operand = .absent
  · subst habsent
    have hnone : op.takesOperand = false := by simpa using htakes
    simp [bind, Except.bind, arity, hnone]
  · have hone : op.takesOperand = true := htakes.1 habsent
    simp [bind, Except.bind, arity, hone, habsent]

/-- Behind the name of a declaration stand its keyword and its argument. -/
theorem next?_others (hrest : Spaced (declaration name directive).others rest) :
    ∃ gap, IsRun isSpacing gap ∧
      Token.next? rest = some (.word directive.opcode.mnemonic, gap ++ directive.argument) := by
  have hkeyword : (Token.word directive.opcode.mnemonic).Whole := isName_mnemonic _
  obtain ⟨behind, hargument, hnext⟩ := Token.next?_spaced hkeyword hrest
  cases hargument with
  | cons hgap hnone =>
    cases hnone
    rw [List.append_nil] at hnext
    exact ⟨_, hgap, hnext⟩

/-- The argument of a declaration is all that follows its keyword. -/
theorem readDeclaration_spaced {keyword : String} {argument : List Char}
    (hkeyword : IsName keyword) (hargument : Solid argument)
    (hrest : Spaced [keyword.toList, argument] rest) :
    readDeclaration name rest = (Directive.read keyword argument).map (.declaration name) := by
  obtain ⟨behind, hbehind, hnext⟩ := Token.next?_spaced (t := .word keyword) hkeyword hrest
  cases hbehind with
  | @cons gap _ _ _ hgap hnone =>
    cases hnone
    have htrim : trim (gap ++ (argument ++ [])) = argument := by
      rw [trim_between (fun c hc => isBlank_of_isSpacing (hgap.all c hc)) (by simp),
        hargument.trim]
    unfold readDeclaration
    rw [hnext]
    change (Directive.read _ (trim _)).map _ = _
    rw [htrim]

theorem readDeclaration_others (hdirective : directive.Printable)
    (hrest : Spaced (declaration name directive).others rest) :
    readDeclaration name rest = .ok (.declaration name directive) := by
  rw [readDeclaration_spaced (isName_mnemonic directive.opcode)
    (apart_argument hdirective).solid hrest, Directive.read_argument hdirective]
  rfl

/-- What follows an instruction is not the rest of a declaration. -/
theorem readDeclaration_operand {op : Opcode} (hoperand : operand.Printable)
    (hrest : Spaced (instruction op operand).others rest) {s : Statement} :
    readDeclaration name rest ≠ .ok s := by
  intro h
  unfold readDeclaration at h
  rw [Operand.next?_words hoperand hrest] at h
  cases operand with
  | absent => nomatch h
  | literal w => nomatch h
  | symbol keyword =>
    obtain ⟨directive, hread, -⟩ := Checked.map_eq_ok_iff.1 h
    exact Directive.read_nil keyword hread

/-- What follows the name of a declaration are too many words for an instruction. -/
theorem readInstruction_argument (hdirective : directive.Printable)
    (hrest : Spaced (declaration name directive).others rest) {mnemonic : String} {s : Statement} :
    readInstruction mnemonic rest ≠ .ok s := by
  intro h
  have htwo : 2 ≤ (Token.scan rest).length := by
    obtain ⟨gap, hgap, hnext⟩ := next?_others hrest
    have hargument := (apart_argument hdirective).solid
    obtain ⟨c, cs, hcs⟩ := List.exists_cons_of_ne_nil hargument.nonempty
    have hc : isBlank c = false := hargument.head c (by rw [hcs]; rfl)
    have hsecond := (Token.next?_gap hgap.all _).trans
      (Token.next?_cons (isGap_of_not_isBlank hc) cs)
    rw [Token.scan_of_next? hnext, hcs, Token.scan_of_next? hsecond]
    exact Nat.le_add_left 2 _
  unfold readInstruction at h
  split at h
  next => nomatch h
  next op _ =>
    split at h
    next => nomatch h
    next =>
      obtain ⟨operands, hread, h⟩ := Checked.bind_eq_ok_iff.1 h
      have hlength := Checked.length_of_mapM hread
      split at h
      next hcount =>
        have harity : arity op ≤ 1 := by
          unfold arity
          split <;> decide
        omega
      next => nomatch h

/-- In its section a statement is read back from its words. -/
theorem read_of_belongs (hs : s.Printable) (hrest : Spaced s.others rest)
    (hsec : s.Belongs sec) : read sec (s.head.chars ++ rest) = .ok (some s) := by
  unfold read
  rw [next?_head hs hrest]
  cases s with
  | marker start =>
    cases hrest
    cases start <;> rfl
  | label name =>
    cases hrest
    cases hsec
    rfl
  | instruction op operand =>
    cases hsec
    change some <$> readInstruction op.mnemonic rest = _
    rw [readInstruction_others hs hrest]
    rfl
  | declaration name directive =>
    cases hsec
    change some <$> readDeclaration name rest = _
    rw [readDeclaration_others hs.2 hrest]
    rfl

theorem read_of_worded (hs : s.Printable) (h : Worded s.head.chars s.others line)
    (hsec : s.Belongs sec) : read sec (significant line) = .ok (some s) := by
  obtain ⟨rest, hrest, hsignificant⟩ :=
    h.significant (apart_chars (whole_head hs)) (apart_of_mem_others hs)
  rw [hsignificant, read_of_belongs hs hrest hsec]

/-- Elsewhere its words cannot be read. -/
theorem read_of_not_belongs {said : Option Statement} (hs : s.Printable)
    (hrest : Spaced s.others rest) (hsec : ¬s.Belongs sec) :
    read sec (s.head.chars ++ rest) ≠ .ok said := by
  unfold read
  rw [next?_head hs hrest]
  cases s with
  | marker start => exact absurd trivial hsec
  | label name =>
    cases sec with
    | code => exact absurd rfl hsec
    | data => nofun
  | instruction op operand =>
    cases sec with
    | code => exact absurd rfl hsec
    | data =>
      intro h
      obtain ⟨s', hread, -⟩ := Checked.map_eq_ok_iff.1 h
      exact readDeclaration_operand hs.2.1 hrest hread
  | declaration name directive =>
    cases sec with
    | data => exact absurd rfl hsec
    | code =>
      intro h
      obtain ⟨s', hread, -⟩ := Checked.map_eq_ok_iff.1 h
      exact readInstruction_argument hs.2 hrest hread

/-- A line with a statement is read in the sections that the statement belongs to and in no other,
and it is read as the statement. -/
theorem read_written_iff (hs : s.Printable) (hline : s.Written line) (sec : Section)
    (said : Option Statement) :
    read sec (significant line) = .ok said ↔ s.Belongs sec ∧ said = some s := by
  obtain ⟨rest, hrest, hsignificant⟩ := hline.significant hs
  rw [hsignificant]
  constructor
  · intro hread
    have hsec : s.Belongs sec := by
      by_contra hsec
      exact read_of_not_belongs hs hrest hsec hread
    rw [read_of_belongs hs hrest hsec, Except.ok.injEq] at hread
    exact ⟨hsec, hread.symm⟩
  · rintro ⟨hsec, rfl⟩
    exact read_of_belongs hs hrest hsec

/-- A name that is a directive, and a text with quotes, a colon and blanks at its ends. -/
def misleading : Statement := .declaration "NUMBER" (.string " \"é:\" ")

theorem read_written_iff_misleading :
    let line := "\t NUMBER \tSTRING  \" \"é:\" \" \t;LOAD: \"x".toList
    misleading.Printable ∧ misleading.Written line ∧
      read .data (significant line) = .ok (some misleading) ∧
      ∀ said, read .code (significant line) ≠ .ok said := by
  intro line
  have hprintable : misleading.Printable :=
    ⟨show IsName "NUMBER" by decide,
      show ∀ c ∈ " \"é:\" ".toList, c ≠ ';' ∧ c ≠ '\n' by simp⟩
  have hline : misleading.Written line := by
    have hfirst : IsRun isSpacing [' ', '\t'] := ⟨by simp, by simp [isSpacing]⟩
    have hsecond : IsRun isSpacing [' ', ' '] := ⟨by simp, by simp [isSpacing]⟩
    have hrest : Spaced misleading.others _ := .cons hfirst (.cons hsecond .nil)
    exact .intro ['\t', ' '] _ [' ', '\t'] ";LOAD: \"x".toList (by simp [isSpacing]) hrest
      (by simp [isSpacing]) (by simp)
  refine ⟨hprintable, hline, (read_written_iff hprintable hline .data _).2 ⟨rfl, rfl⟩, ?_⟩
  intro said hread
  obtain ⟨hbelongs, -⟩ := (read_written_iff hprintable hline .code said).1 hread
  cases hbelongs

end Statement

/-- Lines with statements in their sections are read as these statements. -/
theorem readLines_of_inPlace {statements : List Statement} {lines : List (List Char)}
    (hprintable : ∀ s ∈ statements, s.Printable)
    (hwritten : List.Forall₂ Statement.Written statements lines) (h : InPlace sec statements) :
    readLines sec lines = statements.map fun s => .ok (some s) := by
  induction hwritten generalizing sec with
  | nil => rfl
  | @cons s line statements lines hline hlines ih =>
    rw [List.forall_mem_cons] at hprintable
    rw [readLines, Statement.read_of_worded hprintable.1 hline.worded h.1, List.map_cons,
      ih hprintable.2 h.2]

/-- Written lines can be read only if their statements are in their sections. -/
theorem inPlace_of_reads {statements : List Statement} {lines : List (List Char)}
    (hprintable : ∀ s ∈ statements, s.Printable)
    (hwritten : List.Forall₂ Statement.Written statements lines)
    (hreads : ∀ reading ∈ readLines sec lines, ∃ said, reading = .ok said) :
    InPlace sec statements := by
  induction hwritten generalizing sec with
  | nil => trivial
  | @cons s line statements lines hline hlines ih =>
    rw [List.forall_mem_cons] at hprintable
    rw [readLines, List.forall_mem_cons] at hreads
    obtain ⟨⟨said, hread⟩, hbehind⟩ := hreads
    obtain ⟨rest, hrest, hsignificant⟩ := hline.significant hprintable.1
    rw [hsignificant] at hread hbehind
    have hsec : s.Belongs sec := by
      by_contra hsec
      exact Statement.read_of_not_belongs hprintable.1 hrest hsec hread
    rw [Statement.read_of_belongs hprintable.1 hrest hsec] at hbehind
    exact ⟨hsec, ih hprintable.2 hbehind⟩

/-- Statements that can be written down make up a source, one on each line. -/
theorem written_ofLines {statements : List Statement}
    (hprintable : ∀ s ∈ statements, s.Printable) :
    List.Forall₂ Statement.Written statements
      (lines (ofLines (statements.map Statement.line))) := by
  have hlines : ∀ line ∈ statements.map Statement.line,
      '\n' ∉ line ∧ line.getLast? ≠ some '\r' := by
    rw [List.forall_mem_map]
    intro s hs
    have hline := Statement.apart_line (hprintable s hs)
    refine ⟨fun hc => (hline.clear _ hc).2 rfl, fun hc => ?_⟩
    exact absurd (hline.solid.last '\r' hc) (by decide)
  rw [lines_ofLines hlines, List.forall₂_map_right_iff, List.forall₂_same]
  exact fun s _ => s.written_line

section Sources

variable {statements : List Statement} {source : List Char}
  (hprintable : ∀ s ∈ statements, s.Printable)
  (hwritten : List.Forall₂ Statement.Written statements (lines source))
include hprintable hwritten

/-- A written source reads exactly if its statements are in their sections. -/
theorem reads_iff_inPlace : Reads source ↔ InPlace .code statements := by
  refine ⟨inPlace_of_reads hprintable hwritten, ?_⟩
  intro h reading hreading
  rw [readings, readLines_of_inPlace hprintable hwritten h] at hreading
  obtain ⟨s, -, rfl⟩ := List.mem_map.1 hreading
  exact ⟨some s, rfl⟩

theorem program_eq_of_inPlace (h : InPlace .code statements) : program source = statements := by
  rw [program, readings, readLines_of_inPlace hprintable hwritten h, statementsOf,
    List.filterMap_map]
  exact List.filterMap_some

end Sources

end Source

end Accumulator
