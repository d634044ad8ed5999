import Accumulator.Image.Reader
import Accumulator.Proofs.Layout.Assembly
import Accumulator.Proofs.Text.Scan
import Accumulator.Tool
import Mathlib.Data.Nat.Find

/-!
A written image is read back. The reader takes each record as it was written and
asks only that records are numbered from zero, so it accepts the written form of
an image exactly if every cell is indexed by its address, and else stops at the
first cell that is not.
-/

namespace Accumulator

open Text

namespace Opcode

theorem isMnemonicChar_of_mem_mnemonic {op : Opcode} {c : Char}
    (h : c ∈ op.mnemonic.toList) : Image.isMnemonicChar c = true := by
  have hall : op.mnemonic.toList.all Image.isMnemonicChar = true := by cases op <;> decide
  exact List.all_eq_true.mp hall c h

theorem stops_mnemonic_append (op : Opcode) (rest : List Char) :
    Stops isSpacing (op.mnemonic.toList ++ rest) := by
  cases op <;> exact stops_cons rfl

end Opcode

namespace Image

def recordsText (cells : List Cell) : List Char := cells.flatMap fun c => c.text ++ ['\n']

/-- The written form of the image from the record of one cell on. -/
def textFrom (image : Image) (k : Nat) : List Char :=
  recordsText (image.memory.toList.drop k) ++ endMarker ++ ['\n']

def valueText : Option Word → List Char
  | none => []
  | some w => ' ' :: Decimal.digits w.toNat

variable {rest : List Char}

theorem readOpcode_mnemonic (op : Opcode) (h : Stops isMnemonicChar rest) :
    readOpcode (op.mnemonic.toList ++ rest) = .ok (op, rest) := by
  have hrun : ∀ c ∈ op.mnemonic.toList, isMnemonicChar c = true :=
    fun c hc => Opcode.isMnemonicChar_of_mem_mnemonic hc
  simp only [readOpcode, takeWhile_append_of_stops hrun h, dropWhile_append_of_stops hrun h,
    String.ofList_toList, Opcode.ofMnemonic?_mnemonic]

/-- A value and the lack of one are told apart by what follows the mnemonic: a
line end there is no blank, so no number of a later line is taken for a value. -/
theorem readValue_valueText (value : Option Word) :
    readValue (valueText value ++ '\n' :: rest) = (value, '\n' :: rest) := by
  cases value with
  | none =>
    have hskip : skip? isSpacing ('\n' :: rest) = none := skip?_of_stops (stops_cons rfl)
    simp [valueText, readValue, hskip]
  | some w =>
    have hdigits : Stops isSpacing (Decimal.digits w.toNat ++ '\n' :: rest) :=
      Decimal.stops_digits_append fun c hc => isSpacing_of_isDigit hc
    have hskip : skip? isSpacing (valueText (some w) ++ '\n' :: rest) =
        some (Decimal.digits w.toNat ++ '\n' :: rest) := skip?_cons_of_stops rfl hdigits
    have hread : Decimal.readBelow? Word.count (Decimal.digits w.toNat ++ '\n' :: rest) =
        some (w.toNat, '\n' :: rest) :=
      Decimal.readBelow?_digits w.toNat_lt (stops_cons rfl)
    simp [readValue, hskip, hread]

theorem readContents_text (c : Cell) (h : Stops isLineEnd rest) :
    readContents c.index.toNat
      (' ' :: c.opcode.mnemonic.toList ++ (valueText c.value ++ '\n' :: rest)) = .ok (c, rest) := by
  have hstops : Stops isMnemonicChar (valueText c.value ++ '\n' :: rest) := by
    cases c.value <;> exact stops_cons rfl
  rw [readContents, List.cons_append,
    skip_cons_of_stops rfl (Opcode.stops_mnemonic_append c.opcode _)]
  simp only [bind, Except.bind, readOpcode_mnemonic c.opcode hstops, readValue_valueText,
    skip_cons_of_stops (c := '\n') rfl h, pure, Except.pure, UInt32.ofNat_toNat]

/-- A written record is read back, if something other than a line end follows. -/
theorem readRecord_text (c : Cell) (h : Stops isLineEnd rest) :
    readRecord (c.text ++ '\n' :: rest) = .ok (some (c, rest)) := by
  let contents := ' ' :: c.opcode.mnemonic.toList ++ (valueText c.value ++ '\n' :: rest)
  have htext : c.text ++ '\n' :: rest = Decimal.digits c.index.toNat ++ contents := by
    cases hvalue : c.value <;> simp [contents, Cell.text, hvalue, valueText]
  have hindex : Decimal.readBelow? Word.count (Decimal.digits c.index.toNat ++ contents) =
      some (c.index.toNat, contents) :=
    Decimal.readBelow?_digits c.index.toNat_lt (stops_cons rfl)
  rw [htext, readRecord, hindex]
  simp only [contents, readContents_text c h]

theorem stops_recordsText (cells : List Cell) (h : Stops isLineEnd rest) :
    Stops isLineEnd (recordsText cells ++ rest) := by
  cases cells with
  | nil => exact h
  | cons c others =>
    have hdigits : recordsText (c :: others) ++ rest = Decimal.digits c.index.toNat ++
        (' ' :: c.opcode.mnemonic.toList ++ valueText c.value ++ '\n' ::
          (recordsText others ++ rest)) := by
      cases hvalue : c.value <;> simp [recordsText, Cell.text, hvalue, valueText]
    rw [hdigits]
    exact Decimal.stops_digits_append fun d hd => isLineEnd_of_isDigit hd

/-- One record is read and then the others, if there is a record. -/
theorem readRecords_eq (memory : Array Cell) (cs : List Char) :
    readRecords memory cs = match readRecord cs with
      | .error e => .error e
      | .ok none => .ok (memory, cs)
      | .ok (some (c, rest)) =>
        if c.index.toNat = memory.size then readRecords (memory.push c) rest
        else .error { rest := cs, cause := some (.indexMismatch memory.size c.index) } := by
  rw [readRecords]
  split
  next h => rw [h]
  next h => rw [h]
  next h => rw [h]

/-- Records that go on numbering the memory are appended to it. -/
theorem readRecords_append (memory : Array Cell) (cells : List Cell) (h : Stops isLineEnd rest)
    (hindex : ∀ i c, cells[i]? = some c → c.index.toNat = memory.size + i) :
    readRecords memory (recordsText cells ++ rest) =
      readRecords (memory ++ cells.toArray) rest := by
  induction cells generalizing memory with
  | nil => simp [recordsText]
  | cons c others ih =>
    have hfirst : c.index.toNat = memory.size := hindex 0 c rfl
    have hothers : ∀ i d, others[i]? = some d → d.index.toNat = (memory.push c).size + i := by
      intro i d hd
      have := hindex (i + 1) d (by simpa using hd)
      rw [Array.size_push]
      omega
    have htext : recordsText (c :: others) ++ rest =
        c.text ++ '\n' :: (recordsText others ++ rest) := by
      simp [recordsText]
    have hread := readRecord_text c (stops_recordsText others h)
    -- the record has the next number, so it is pushed and the others go on from there
    rw [htext, readRecords_eq, hread]
    simp only [if_pos hfirst]
    rw [ih (memory.push c) hothers]
    simp

/-- Behind the last record stands something that is no number. -/
theorem readRecords_stop (memory : Array Cell) (h : Stops Char.isDigit rest) :
    readRecords memory rest = .ok (memory, rest) := by
  have hread : readRecord rest = .ok none := by
    rw [readRecord, Decimal.readBelow?_of_stops h]
  rw [readRecords_eq, hread]

theorem readRecords_mismatch (memory : Array Cell) (c : Cell) (h : Stops isLineEnd rest)
    (hindex : c.index.toNat ≠ memory.size) :
    readRecords memory (c.text ++ '\n' :: rest) =
      .error {
        rest := c.text ++ '\n' :: rest
        cause := some (.indexMismatch memory.size c.index) } := by
  rw [readRecords_eq, readRecord_text c h]
  simp only [if_neg hindex]

/-- The vector line is told apart from its absence by its digit. -/
theorem readVector_vectorText (vector : Option Word) (h : Stops isLineEnd rest)
    (hdigit : Stops Char.isDigit rest) :
    readVector (vectorText vector ++ rest) = (vector, rest) := by
  cases vector with
  | none => simp [vectorText, readVector, Decimal.readBelow?_of_stops hdigit]
  | some w =>
    have hread : Decimal.readBelow? Word.count (Decimal.digits w.toNat ++ '\n' :: rest) =
        some (w.toNat, '\n' :: rest) :=
      Decimal.readBelow?_digits w.toNat_lt (stops_cons rfl)
    have hline : skip? isLineEnd ('\n' :: rest) = some rest := skip?_cons_of_stops rfl h
    simp [vectorText, readVector, hread, hline]

theorem stops_textFrom (image : Image) (k : Nat) : Stops isLineEnd (image.textFrom k) := by
  rw [textFrom, List.append_assoc]
  exact stops_recordsText _ (stops_cons rfl)

/-- What is left to read of a written image once its head is read. -/
theorem read_text_eq (image : Image) :
    read image.text = (do
      let (memory, cs) ← readRecords #[] (image.textFrom 0)
      let cs ← expect endMarker cs
      let cs := skipAnySpace cs
      if cs.isEmpty then return ⟨image.vector, memory⟩ else throw { rest := cs }) := by
  let records := memoryMarker ++ '\n' :: image.textFrom 0
  have htext : image.text = imageMarker ++ '\n' ::
      (vectorMarker ++ '\n' :: (vectorText image.vector ++ records)) := by
    simp [records, Image.text, textFrom, recordsText]
  have hline : Stops isLineEnd records := stops_cons rfl
  have hdigit : Stops Char.isDigit records := stops_cons rfl
  have hvector : Stops isLineEnd (vectorText image.vector ++ records) := by
    cases image.vector with
    | none => exact hline
    | some w =>
      rw [vectorText, List.append_assoc]
      exact Decimal.stops_digits_append fun d hd => isLineEnd_of_isDigit hd
  have hmarker : Stops isLineEnd
      (vectorMarker ++ '\n' :: (vectorText image.vector ++ records)) := stops_cons rfl
  rw [htext, read, expectLine_append hmarker]
  simp only [bind, Except.bind, expectLine_append hvector,
    readVector_vectorText image.vector hline hdigit]
  rw [expectLine_append (image.stops_textFrom 0)]

theorem read_text_of_indexed {image : Image} (h : image.Indexed) :
    read image.text = .ok image := by
  have hindex : ∀ (i : Nat) (c : Cell), image.memory.toList[i]? = some c →
      c.index.toNat = (#[] : Array Cell).size + i := by
    intro i c hc
    rw [Array.getElem?_toList] at hc
    simpa using h i c hc
  have hline : Stops isLineEnd (endMarker ++ ['\n']) := stops_cons rfl
  have hdigit : Stops Char.isDigit (endMarker ++ ['\n']) := stops_cons rfl
  have hrecords : readRecords #[] (image.textFrom 0) =
      .ok (image.memory, endMarker ++ ['\n']) := by
    rw [textFrom, List.append_assoc, List.drop_zero,
      readRecords_append #[] image.memory.toList hline hindex,
      readRecords_stop _ hdigit]
    simp
  rw [read_text_eq, hrecords]
  rfl

theorem read_text_of_mismatch {image : Image} {k : Nat} {c : Cell}
    (hc : image.memory[k]? = some c) (hindex : c.index.toNat ≠ k)
    (hbefore : ∀ j, ∀ d : Cell, j < k → image.memory[j]? = some d → d.index.toNat = j) :
    read image.text =
      .error { rest := image.textFrom k, cause := some (.indexMismatch k c.index) } := by
  have hk : k < image.memory.toList.length := by
    obtain ⟨hbound, _⟩ := Array.getElem?_eq_some_iff.mp hc
    simpa using hbound
  have hlength : (image.memory.toList.take k).toArray.size = k := by
    simp only [List.size_toArray, List.length_take]
    omega
  have hgood : ∀ (i : Nat) (d : Cell), (image.memory.toList.take k)[i]? = some d →
      d.index.toNat = (#[] : Array Cell).size + i := by
    intro i d hd
    rw [List.getElem?_take] at hd
    split at hd
    next hi => simpa using hbefore i d hi (by simpa using hd)
    next => cases hd
  have hfrom : image.textFrom k = c.text ++ '\n' :: image.textFrom (k + 1) := by
    have hget : image.memory.toList[k] = c := by
      rw [← Array.getElem?_toList, List.getElem?_eq_getElem hk] at hc
      exact Option.some.inj hc
    rw [textFrom, List.drop_eq_getElem_cons hk, hget]
    simp [textFrom, recordsText]
  have hsplit : image.textFrom 0 =
      recordsText (image.memory.toList.take k) ++ image.textFrom k := by
    have htake := congrArg recordsText (List.take_append_drop k image.memory.toList)
    rw [recordsText, List.flatMap_append] at htake
    rw [textFrom, List.drop_zero, ← htake]
    simp [textFrom, recordsText]
  have hmismatch := readRecords_mismatch (image.memory.toList.take k).toArray c
    (image.stops_textFrom (k + 1)) (by rwa [hlength])
  rw [read_text_eq, hsplit, readRecords_append #[] _ (image.stops_textFrom k) hgood, hfrom,
    Array.empty_append, hmismatch, hlength]
  rfl

/-- A misplaced cell has a first one before it or at its place. -/
theorem exists_first_misplaced {image : Image} (h : ¬ image.Indexed) :
    ∃ k, ∃ c : Cell, image.memory[k]? = some c ∧ c.index.toNat ≠ k ∧
      ∀ j, ∀ d : Cell, j < k → image.memory[j]? = some d → d.index.toNat = j := by
  classical
  have hexists : ∃ k, ∃ c : Cell, image.memory[k]? = some c ∧ c.index.toNat ≠ k := by
    by_contra hnone
    apply h
    intro i c hc
    by_contra hne
    exact hnone ⟨i, c, hc, hne⟩
  obtain ⟨c, hc, hindex⟩ := Nat.find_spec hexists
  refine ⟨Nat.find hexists, c, hc, hindex, ?_⟩
  intro j d hj hd
  by_contra hne
  exact Nat.find_min hexists hj ⟨d, hd, hne⟩

/-- The written form of an image is read back exactly if every cell is indexed
by its address; else the reader stops at the first cell that is not. An assembled
image is indexed so, and running its file is running it. -/
theorem read_text_roundtrip (image : Image) :
    (image.Indexed → read image.text = .ok image) ∧
      (¬ image.Indexed → ∃ k, ∃ c : Cell, image.memory[k]? = some c ∧ c.index.toNat ≠ k ∧
        (∀ j, ∀ d : Cell, j < k → image.memory[j]? = some d → d.index.toNat = j) ∧
        read image.text =
          .error { rest := image.textFrom k, cause := some (.indexMismatch k c.index) }) ∧
      ∀ source, assemble source = .ok image →
        read image.text = .ok image ∧
          ∀ input limits, Tool.simulate (.ok image.text) input limits =
            match Tool.readInput input with
            | .error failure => failure
            | .ok arrivals => Tool.runImage image arrivals limits := by
  refine ⟨read_text_of_indexed, ?_, ?_⟩
  · intro h
    obtain ⟨k, c, hc, hindex, hbefore⟩ := exists_first_misplaced h
    exact ⟨k, c, hc, hindex, hbefore, read_text_of_mismatch hc hindex hbefore⟩
  · intro source hsource
    obtain ⟨_, _, rfl, hsize⟩ := reads_of_assemble hsource
    have hread := read_text_of_indexed (Source.indexed_imageOf hsize)
    refine ⟨hread, ?_⟩
    intro input limits
    cases hinput : Tool.readInput input with
    | error failure => simp only [Tool.simulate, hread, hinput]
    | ok arrivals => simp only [Tool.simulate, hread, hinput]

theorem read_text_roundtrip_halt :
    let placed : Image := ⟨some 0, #[⟨0, .push, none⟩, ⟨1, .halt, some 7⟩]⟩
    let misplaced : Image := ⟨none, #[⟨0, .push, some 1⟩, ⟨5, .halt, none⟩]⟩
    read placed.text = .ok placed ∧
      ∃ k, ∃ c : Cell, misplaced.memory[k]? = some c ∧ c.index.toNat ≠ k ∧
        read misplaced.text =
          .error { rest := misplaced.textFrom k, cause := some (.indexMismatch k c.index) } := by
  intro placed misplaced
  have hplaced : placed.Indexed := by
    intro i c hc
    match i with
    | 0 => cases hc; rfl
    | 1 => cases hc; rfl
    | i + 2 => simp [placed] at hc
  have hmisplaced : ¬ misplaced.Indexed := by
    intro h
    exact absurd (h 1 ⟨5, .halt, none⟩ rfl) (by decide)
  obtain ⟨k, c, hc, hindex, _, hread⟩ := (read_text_roundtrip misplaced).2.1 hmisplaced
  exact ⟨(read_text_roundtrip placed).1 hplaced, k, c, hc, hindex, hread⟩

end Image

end Accumulator
