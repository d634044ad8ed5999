import Accumulator.Proofs.Image.RoundTrip

/-!
The grammar of written images. The markers, the vector and the records stand on
lines that end in any run of line feeds and carriage returns; numbers may have
leading zeros, and the parts of a record stand any run of blanks and tabs apart.
The reader accepts exactly the texts that spell an image, and it reads the image
that is spelled. The text that the image is written as is one of its spellings.
-/

namespace Accumulator

open Text

namespace Opcode

theorem mnemonic_of_ofMnemonic? {op : Opcode} {name : String} (h : ofMnemonic? name = some op) :
    op.mnemonic = name := by
  have hfound := List.find?_some h
  exact beq_iff_eq.1 hfound

end Opcode

namespace Image

/-- Digits that spell a word, with any number of leading zeros. -/
structure Numeral (w : Word) (digits : List Char) : Prop where
  run : IsRun Char.isDigit digits
  value : Decimal.value digits = w.toNat

/-- The line of the interrupt vector. Without a vector there is no line. -/
inductive VectorLine : Option Word → List Char → Prop where
  | missing : VectorLine none []
  | line {w : Word} {digits lineEnd : List Char} (hnumeral : Numeral w digits)
    (hend : IsRun isLineEnd lineEnd) : VectorLine (some w) (digits ++ lineEnd)

/-- The value of a record and the gap before it. Without a value there is no gap. -/
inductive ValuePart : Option Word → List Char → Prop where
  | missing : ValuePart none []
  | number {w : Word} {gap digits : List Char} (hgap : IsRun isSpacing gap)
    (hnumeral : Numeral w digits) : ValuePart (some w) (gap ++ digits)

/-- A record: an index, a mnemonic and possibly a value, on a line. -/
inductive RecordLine (c : Cell) : List Char → Prop where
  | mk {digits gap value lineEnd : List Char} (hindex : Numeral c.index digits)
    (hgap : IsRun isSpacing gap) (hvalue : ValuePart c.value value)
    (hend : IsRun isLineEnd lineEnd) :
    RecordLine c (digits ++ (gap ++ (c.opcode.mnemonic.toList ++ (value ++ lineEnd))))

/-- The text spells the image. Its records are numbered from zero, and behind the last marker
nothing but blanks, tabs and line ends may stand. -/
inductive Spells (image : Image) : List Char → Prop where
  | mk {first second third vector blanks : List Char} {records : List (List Char)}
    (hfirst : IsRun isLineEnd first) (hsecond : IsRun isLineEnd second)
    (hvector : VectorLine image.vector vector) (hthird : IsRun isLineEnd third)
    (hrecords : List.Forall₂ RecordLine image.memory.toList records) (hindexed : image.Indexed)
    (hblanks : ∀ c ∈ blanks, (isSpacing c || isLineEnd c) = true) :
    Spells image (imageMarker ++ (first ++ (vectorMarker ++ (second ++ (vector ++
      (memoryMarker ++ (third ++ (records.flatten ++ (endMarker ++ blanks)))))))))

section Classes

variable {c : Char}

theorem isMnemonicChar_of_isLineEnd (h : isLineEnd c = true) : isMnemonicChar c = false := by
  simp only [isLineEnd, Bool.or_eq_true, beq_iff_eq] at h
  rcases h with rfl | rfl <;> rfl

theorem isMnemonicChar_of_isSpacing (h : isSpacing c = true) : isMnemonicChar c = false := by
  simp only [isSpacing, Bool.or_eq_true, beq_iff_eq] at h
  rcases h with rfl | rfl <;> rfl

end Classes

variable {cs rest : List Char} {c : Cell}

theorem readNumber_eq_some_iff {n : Nat} : Decimal.readBelow? Word.count cs = some (n, rest) ↔
    ∃ digits, Numeral (UInt32.ofNat n) digits ∧ n < Word.count ∧ Stops Char.isDigit rest ∧
      cs = digits ++ rest := by
  rw [Decimal.readBelow?_eq_some_iff]
  constructor
  · rintro ⟨digits, hrun, rfl, hbound, hstops, rfl⟩
    exact ⟨digits, ⟨hrun, (UInt32.toNat_ofNat_of_lt hbound).symm⟩, hbound, hstops, rfl⟩
  · rintro ⟨digits, hnumeral, hbound, hstops, rfl⟩
    exact ⟨digits, hnumeral.run, hnumeral.value.trans (UInt32.toNat_ofNat_of_lt hbound), hbound,
      hstops, rfl⟩

/-- A numeral is read as its word. -/
theorem Numeral.read {w : Word} {digits : List Char} (h : Numeral w digits)
    (hstops : Stops Char.isDigit rest) :
    Decimal.readBelow? Word.count (digits ++ rest) = some (w.toNat, rest) :=
  Decimal.readBelow?_eq_some_iff.2 ⟨digits, h.run, h.value, w.toNat_lt, hstops, rfl⟩

theorem readOpcode_eq_ok_iff {op : Opcode} : readOpcode cs = .ok (op, rest) ↔
    Stops isMnemonicChar rest ∧ cs = op.mnemonic.toList ++ rest := by
  constructor
  · intro h
    simp only [readOpcode] at h
    split at h
    next hname =>
      cases h
      refine ⟨stops_dropWhile _ _, ?_⟩
      rw [Opcode.mnemonic_of_ofMnemonic? hname, String.toList_ofList,
        List.takeWhile_append_dropWhile]
    next => cases h
  · rintro ⟨hstops, rfl⟩
    exact readOpcode_mnemonic op hstops

/-- What is read of a value and the line end behind it. -/
theorem readValue_skip_iff {value : Option Word} :
    (readValue cs).1 = value ∧ skip (κ := Defect) isLineEnd (readValue cs).2 = .ok rest ↔
      ∃ part lineEnd, ValuePart value part ∧ IsRun isLineEnd lineEnd ∧ Stops isLineEnd rest ∧
        cs = part ++ (lineEnd ++ rest) := by
  constructor
  · rintro ⟨rfl, hskip⟩
    obtain ⟨lineEnd, hend, hstops, hbehind⟩ := skip_eq_ok_iff.1 hskip
    cases hnumber : (skip? isSpacing cs).bind (Decimal.readBelow? Word.count) with
    | none =>
      simp only [readValue, hnumber] at hbehind ⊢
      exact ⟨[], lineEnd, .missing, hend, hstops, hbehind⟩
    | some number =>
      simp only [readValue, hnumber] at hbehind ⊢
      obtain ⟨afterGap, hgapSkip, hread⟩ := Option.bind_eq_some_iff.1 hnumber
      obtain ⟨gap, hgap, -, rfl⟩ := skip?_eq_some_iff.1 hgapSkip
      obtain ⟨digits, hnumeral, -, -, rfl⟩ := readNumber_eq_some_iff.1 hread
      rw [hbehind, ← List.append_assoc]
      exact ⟨gap ++ digits, lineEnd, .number hgap hnumeral, hend, hstops, rfl⟩
  · rintro ⟨part, lineEnd, hpart, hend, hstops, rfl⟩
    have hread : readValue (part ++ (lineEnd ++ rest)) = (value, lineEnd ++ rest) := by
      cases hpart with
      | missing =>
        -- a line end is no gap, so the number of the next line is not taken for a value
        have hgap : Stops isSpacing (lineEnd ++ rest) :=
          hend.stops (fun _ => isSpacing_of_isLineEnd) rest
        simp [readValue, skip?_of_stops hgap]
      | @number w gap digits hgap hnumeral =>
        have hdigits := hnumeral.read (hend.stops (fun _ => isDigit_of_isLineEnd) rest)
        have hskip : skip? isSpacing (gap ++ (digits ++ (lineEnd ++ rest))) =
            some (digits ++ (lineEnd ++ rest)) :=
          skip?_eq_some_iff.2
            ⟨gap, hgap, hnumeral.run.stops (fun _ => isSpacing_of_isDigit) _, rfl⟩
        rw [List.append_assoc, readValue, hskip, Option.bind_some, hdigits]
        simp only [UInt32.ofNat_toNat]
    rw [hread]
    exact ⟨rfl, skip_eq_ok_iff.2 ⟨lineEnd, hend, hstops, rfl⟩⟩

/-- What follows a mnemonic does not go on with it. -/
theorem ValuePart.stops {value : Option Word} {part lineEnd : List Char}
    (h : ValuePart value part) (hend : IsRun isLineEnd lineEnd) :
    Stops isMnemonicChar (part ++ (lineEnd ++ rest)) := by
  cases h with
  | missing => exact hend.stops (fun _ => isMnemonicChar_of_isLineEnd) rest
  | number hgap _ =>
    rw [List.append_assoc]
    exact hgap.stops (fun _ => isMnemonicChar_of_isSpacing) _

theorem readContents_eq_ok_iff {index : Nat} : readContents index cs = .ok (c, rest) ↔
    c.index = UInt32.ofNat index ∧ ∃ gap value lineEnd, IsRun isSpacing gap ∧
      ValuePart c.value value ∧ IsRun isLineEnd lineEnd ∧ Stops isLineEnd rest ∧
        cs = gap ++ (c.opcode.mnemonic.toList ++ (value ++ (lineEnd ++ rest))) := by
  unfold readContents
  constructor
  · intro h
    obtain ⟨afterGap, hskip, h⟩ := Checked.bind_eq_ok_iff.1 h
    obtain ⟨⟨op, afterOpcode⟩, hopcode, h⟩ := Checked.bind_eq_ok_iff.1 h
    obtain ⟨afterLine, hline, h⟩ := Checked.bind_eq_ok_iff.1 h
    cases h
    obtain ⟨gap, hgap, -, rfl⟩ := skip_eq_ok_iff.1 hskip
    obtain ⟨-, rfl⟩ := readOpcode_eq_ok_iff.1 hopcode
    obtain ⟨value, lineEnd, hvalue, hend, hstops, rfl⟩ := readValue_skip_iff.1 ⟨rfl, hline⟩
    exact ⟨rfl, gap, value, lineEnd, hgap, hvalue, hend, hstops, rfl⟩
  · rintro ⟨hindex, gap, value, lineEnd, hgap, hvalue, hend, hstops, rfl⟩
    obtain ⟨hread, hskip⟩ := readValue_skip_iff.2 ⟨value, lineEnd, hvalue, hend, hstops, rfl⟩
    have hmnemonic : Stops isMnemonicChar (value ++ (lineEnd ++ rest)) := hvalue.stops hend
    have hgapSkip : skip (κ := Defect) isSpacing (gap ++ (c.opcode.mnemonic.toList ++
        (value ++ (lineEnd ++ rest)))) = .ok _ :=
      skip_eq_ok_iff.2 ⟨gap, hgap, Opcode.stops_mnemonic_append c.opcode _, rfl⟩
    simp only [bind, Except.bind, hgapSkip, readOpcode_mnemonic c.opcode hmnemonic, hskip, hread,
      pure, Except.pure, ← hindex]

theorem readRecord_eq_ok_iff : readRecord cs = .ok (some (c, rest)) ↔
    ∃ line, RecordLine c line ∧ Stops isLineEnd rest ∧ cs = line ++ rest := by
  constructor
  · intro h
    unfold readRecord at h
    split at h
    next => cases h
    next index behind hnumber =>
      split at h
      next record hcontents =>
        cases h
        obtain ⟨digits, hnumeral, -, -, rfl⟩ := readNumber_eq_some_iff.1 hnumber
        obtain ⟨hindex, gap, value, lineEnd, hgap, hvalue, hend, hstops, rfl⟩ :=
          readContents_eq_ok_iff.1 hcontents
        exact ⟨_, .mk (hindex ▸ hnumeral) hgap hvalue hend, hstops, by simp⟩
      next => cases h
  · rintro ⟨line, hline, hstops, rfl⟩
    cases hline with
    | @mk digits gap value lineEnd hindex hgap hvalue hend =>
      let contents := gap ++ (c.opcode.mnemonic.toList ++ (value ++ (lineEnd ++ rest)))
      have htext : digits ++ (gap ++ (c.opcode.mnemonic.toList ++ (value ++ lineEnd))) ++ rest =
          digits ++ contents := by
        simp [contents]
      have hnumber : Decimal.readBelow? Word.count (digits ++ contents) =
          some (c.index.toNat, contents) :=
        hindex.read (hgap.stops (fun _ => isDigit_of_isSpacing) _)
      have hcontents : readContents c.index.toNat contents = .ok (c, rest) :=
        readContents_eq_ok_iff.2
          ⟨UInt32.ofNat_toNat.symm, gap, value, lineEnd, hgap, hvalue, hend, hstops, rfl⟩
      rw [htext, readRecord, hnumber]
      simp only [hcontents]

theorem stops_isLineEnd_lines {cells : List Cell} {lines : List (List Char)}
    (h : List.Forall₂ RecordLine cells lines) (hstops : Stops isLineEnd rest) :
    Stops isLineEnd (lines.flatten ++ rest) := by
  cases h with
  | nil => exact hstops
  | cons hline _ =>
    cases hline with
    | mk hindex _ _ _ =>
      simp only [List.flatten_cons, List.append_assoc]
      exact hindex.run.stops (fun _ => isLineEnd_of_isDigit) _

/-- Lines that go on numbering the memory are read to the last. -/
theorem readRecords_lines {cells : List Cell} {lines : List (List Char)} (memory : Array Cell)
    (h : List.Forall₂ RecordLine cells lines) (hdigit : Stops Char.isDigit rest)
    (hend : Stops isLineEnd rest)
    (hindex : ∀ i d, cells[i]? = some d → d.index.toNat = memory.size + i) :
    readRecords memory (lines.flatten ++ rest) = .ok (memory ++ cells.toArray, rest) := by
  induction h generalizing memory with
  | nil =>
    rw [List.flatten_nil, List.nil_append, readRecords_stop memory hdigit]
    simp
  | @cons d line cells lines hline hlines ih =>
    have hread : readRecord (line ++ (lines.flatten ++ rest)) =
        .ok (some (d, lines.flatten ++ rest)) :=
      readRecord_eq_ok_iff.2 ⟨line, hline, stops_isLineEnd_lines hlines hend, rfl⟩
    have hfirst : d.index.toNat = memory.size := hindex 0 d rfl
    have hothers : ∀ i e, cells[i]? = some e → e.index.toNat = (memory.push d).size + i := by
      intro i e he
      have := hindex (i + 1) e (by simpa using he)
      rw [Array.size_push]
      omega
    rw [List.flatten_cons, List.append_assoc, readRecords_eq, hread]
    simp only [if_pos hfirst]
    rw [ih (memory.push d) hothers]
    simp

/-- Whatever records are read stand there as lines and go on numbering the memory. -/
theorem exists_lines_of_readRecords {memory after : Array Cell}
    (h : readRecords memory cs = .ok (after, rest)) :
    ∃ cells lines, after = memory ++ cells.toArray ∧ List.Forall₂ RecordLine cells lines ∧
      (∀ i d, cells[i]? = some d → d.index.toNat = memory.size + i) ∧
        cs = lines.flatten ++ rest := by
  induction memory, cs using readRecords.induct with
  | case1 memory cs e hrecord =>
    rw [readRecords_eq, hrecord] at h
    nomatch h
  | case2 memory cs hrecord =>
    rw [readRecords_eq, hrecord] at h
    cases h
    exact ⟨[], [], by simp, .nil, by simp, rfl⟩
  | case3 memory cs c behind hrecord hindex ih =>
    rw [readRecords_eq, hrecord] at h
    simp only [if_pos hindex] at h
    obtain ⟨cells, lines, rfl, hlines, hcells, rfl⟩ := ih h
    obtain ⟨line, hline, -, rfl⟩ := readRecord_eq_ok_iff.1 hrecord
    refine ⟨c :: cells, line :: lines, by simp, .cons hline hlines, ?_, by simp⟩
    intro i d hd
    cases i with
    | zero =>
      cases hd
      exact hindex
    | succ i =>
      have := hcells i d (by simpa using hd)
      rw [Array.size_push] at this
      omega
  | case4 memory cs c behind hrecord hindex =>
    rw [readRecords_eq, hrecord] at h
    simp only [if_neg hindex] at h
    nomatch h

/-- The line end before the vector line does not go on in it. -/
theorem VectorLine.stops {vector : Option Word} {line : List Char} (h : VectorLine vector line)
    (rest : List Char) : Stops isLineEnd (line ++ (memoryMarker ++ rest)) := by
  cases h with
  | missing => exact stops_cons rfl
  | line hnumeral _ =>
    rw [List.append_assoc]
    exact hnumeral.run.stops (fun _ => isLineEnd_of_isDigit) _

/-- What is read of the vector line and the marker behind it. -/
theorem readVector_expectLine_iff {vector : Option Word} :
    (readVector cs).1 = vector ∧
        expectLine (κ := Defect) memoryMarker (readVector cs).2 = .ok rest ↔
      ∃ line lineEnd, VectorLine vector line ∧ IsRun isLineEnd lineEnd ∧ Stops isLineEnd rest ∧
        cs = line ++ (memoryMarker ++ (lineEnd ++ rest)) := by
  constructor
  · rintro ⟨rfl, hmarker⟩
    obtain ⟨lineEnd, hend, hstops, hbehind⟩ := expectLine_eq_ok_iff.1 hmarker
    cases hnumber : Decimal.readBelow? Word.count cs with
    | none =>
      simp only [readVector, hnumber] at hbehind ⊢
      exact ⟨[], lineEnd, .missing, hend, hstops, hbehind⟩
    | some number =>
      cases hskip : skip? isLineEnd number.2 with
      | none =>
        simp only [readVector, hnumber, hskip] at hbehind ⊢
        exact ⟨[], lineEnd, .missing, hend, hstops, hbehind⟩
      | some behind =>
        simp only [readVector, hnumber, hskip] at hbehind ⊢
        obtain ⟨digits, hnumeral, -, -, rfl⟩ := readNumber_eq_some_iff.1 hnumber
        obtain ⟨vectorEnd, hvectorEnd, -, hsplit⟩ := skip?_eq_some_iff.1 hskip
        rw [hsplit, hbehind, ← List.append_assoc]
        exact ⟨digits ++ vectorEnd, lineEnd, .line hnumeral hvectorEnd, hend, hstops, rfl⟩
  · rintro ⟨line, lineEnd, hline, hend, hstops, rfl⟩
    have hread : readVector (line ++ (memoryMarker ++ (lineEnd ++ rest))) =
        (vector, memoryMarker ++ (lineEnd ++ rest)) := by
      cases hline with
      | missing =>
        have hdigit : Stops Char.isDigit (memoryMarker ++ (lineEnd ++ rest)) := stops_cons rfl
        simp [readVector, Decimal.readBelow?_of_stops hdigit]
      | @line w digits vectorEnd hnumeral hvectorEnd =>
        have hdigits := hnumeral.read
          (hvectorEnd.stops (fun _ => isDigit_of_isLineEnd) (memoryMarker ++ (lineEnd ++ rest)))
        have hskip : skip? isLineEnd (vectorEnd ++ (memoryMarker ++ (lineEnd ++ rest))) =
            some (memoryMarker ++ (lineEnd ++ rest)) :=
          skip?_eq_some_iff.2 ⟨vectorEnd, hvectorEnd, stops_cons rfl, rfl⟩
        simp [readVector, hdigits, hskip]
    rw [hread]
    exact ⟨rfl, expectLine_eq_ok_iff.2 ⟨lineEnd, hend, hstops, rfl⟩⟩

/-- What is read of the end marker and all that follows it. -/
theorem expect_skipAnySpace_iff : (∃ behind, expect (κ := Defect) endMarker cs = .ok behind ∧
      (skipAnySpace behind).isEmpty = true) ↔
    ∃ blanks, (∀ c ∈ blanks, (isSpacing c || isLineEnd c) = true) ∧ cs = endMarker ++ blanks := by
  simp only [expect_eq_ok_iff, List.isEmpty_iff, skipAnySpace_eq_nil_iff, and_comm]

theorem indexed_iff {image : Image} : image.Indexed ↔ ∀ (i : Nat) (c : Cell),
    image.memory.toList[i]? = some c → c.index.toNat = (#[] : Array Cell).size + i := by
  simp only [Indexed, Array.getElem?_toList, List.size_toArray, List.length_nil, Nat.zero_add]

/-- A text is read as an image exactly if it spells that image. -/
theorem read_eq_ok_iff {text : List Char} {image : Image} :
    read text = .ok image ↔ Spells image text := by
  unfold read
  constructor
  · intro h
    obtain ⟨afterImage, hfirst, h⟩ := Checked.bind_eq_ok_iff.1 h
    obtain ⟨afterMarker, hsecond, h⟩ := Checked.bind_eq_ok_iff.1 h
    obtain ⟨afterMemory, hthird, h⟩ := Checked.bind_eq_ok_iff.1 h
    obtain ⟨⟨memory, afterRecords⟩, hrecords, h⟩ := Checked.bind_eq_ok_iff.1 h
    obtain ⟨afterEnd, hend, h⟩ := Checked.bind_eq_ok_iff.1 h
    change (if (skipAnySpace afterEnd).isEmpty then
      Except.ok (Image.mk (readVector afterMarker).1 memory) else _) = _ at h
    split at h
    next hempty =>
      cases h
      obtain ⟨first, hfirstRun, -, rfl⟩ := expectLine_eq_ok_iff.1 hfirst
      obtain ⟨second, hsecondRun, -, rfl⟩ := expectLine_eq_ok_iff.1 hsecond
      obtain ⟨vector, third, hvector, hthirdRun, -, rfl⟩ :=
        readVector_expectLine_iff.1 ⟨rfl, hthird⟩
      obtain ⟨cells, records, hmemory, hlines, hindex, rfl⟩ :=
        exists_lines_of_readRecords hrecords
      obtain ⟨blanks, hblanks, rfl⟩ := expect_skipAnySpace_iff.1 ⟨afterEnd, hend, hempty⟩
      have hcells : memory.toList = cells := by simp [hmemory]
      exact .mk hfirstRun hsecondRun hvector hthirdRun (hcells ▸ hlines)
        (indexed_iff.2 (hcells ▸ hindex)) hblanks
    next => cases h
  · intro h
    cases h with
    | @mk first second third vector blanks records hfirst hsecond hvector hthird hrecords hindexed
        hblanks =>
      have hdigit : Stops Char.isDigit (endMarker ++ blanks) := stops_cons rfl
      have hline : Stops isLineEnd (endMarker ++ blanks) := stops_cons rfl
      have hlines : Stops isLineEnd (records.flatten ++ (endMarker ++ blanks)) :=
        stops_isLineEnd_lines hrecords hline
      have hrecordsRead : readRecords #[] (records.flatten ++ (endMarker ++ blanks)) =
          .ok (image.memory, endMarker ++ blanks) := by
        rw [readRecords_lines #[] hrecords hdigit hline (indexed_iff.1 hindexed)]
        simp
      obtain ⟨hvectorRead, hthirdRead⟩ :=
        readVector_expectLine_iff.2 ⟨vector, third, hvector, hthird, hlines, rfl⟩
      obtain ⟨behind, hendRead, hempty⟩ := expect_skipAnySpace_iff.2 ⟨blanks, hblanks, rfl⟩
      refine Checked.bind_eq_ok_iff.2 ⟨_, expectLine_run hfirst (stops_cons rfl), ?_⟩
      refine Checked.bind_eq_ok_iff.2 ⟨_, expectLine_run hsecond (hvector.stops _), ?_⟩
      refine Checked.bind_eq_ok_iff.2 ⟨_, hthirdRead, ?_⟩
      refine Checked.bind_eq_ok_iff.2 ⟨_, hrecordsRead, ?_⟩
      refine Checked.bind_eq_ok_iff.2 ⟨behind, hendRead, ?_⟩
      rw [if_pos hempty]
      exact congrArg (fun vector => Except.ok (Image.mk vector image.memory)) hvectorRead

theorem Spells.indexed {image : Image} {text : List Char} (h : Spells image text) :
    image.Indexed := by
  cases h with
  | mk _ _ _ _ _ hindexed _ => exact hindexed

/-- The reader accepts exactly the texts of the grammar and reads the image that a text spells. Such
an image is indexed by its addresses, so writing it and reading it again gives the same image. -/
theorem read_iff_spelled (text : List Char) (image : Image) :
    (read text = .ok image ↔ Spells image text) ∧
      (read text = .ok image → image.Indexed ∧ read image.text = .ok image) := by
  refine ⟨read_eq_ok_iff, ?_⟩
  intro h
  have hindexed := (read_eq_ok_iff.1 h).indexed
  exact ⟨hindexed, read_text_of_indexed hindexed⟩

/-- A text with leading zeros, gaps and line ends of several characters, a value that is the largest
word, and blanks behind the end. -/
def loose : List Char :=
  ("___image___\r\n___vector___\n\n001\r\n___memory___\n" ++
    "00 \tPUSH\t 4294967295\n1 RET\r\r\n___end___\n \t\n").toList

theorem read_iff_spelled_loose :
    let image : Image := ⟨some 1, #[⟨0, .push, some 4294967295⟩, ⟨1, .ret, none⟩]⟩
    Spells image loose ∧ image.text ≠ loose ∧ read image.text = .ok image := by
  intro image
  have hread : read loose = .ok image := by decide +kernel
  have hdiffer : image.text ≠ loose := by decide
  exact ⟨(read_iff_spelled loose image).1.1 hread, hdiffer,
    ((read_iff_spelled loose image).2 hread).2⟩

end Image

end Accumulator
