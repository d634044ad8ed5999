import Accumulator.Proofs.Image.Grammar
import Accumulator.Proofs.Text.Place

/-!
What the reader of images has read where it stops. Before the records it stops
only where the text departs from the grammar. At the records it has the head of
the file and some records that are numbered from zero, and then stands at a
record with another number, at a name that is no mnemonic, or at something that
is no record.
-/

namespace Accumulator

open Text

namespace Opcode

theorem ofMnemonic?_eq_none_iff {name : String} :
    ofMnemonic? name = none ↔ ∀ op, mnemonic op ≠ name := by
  rw [ofMnemonic?, List.find?_eq_none]
  simp [mem_all]

end Opcode

namespace Image

variable {e : ReadError} {cs text : List Char} {c : Cell}

/-- What stands in front of the records. -/
inductive Head : List Char → Prop where
  | mk {first second third line : List Char} {vector : Option Word}
    (hfirst : IsRun isLineEnd first) (hsecond : IsRun isLineEnd second)
    (hvector : VectorLine vector line) (hthird : IsRun isLineEnd third) :
    Head (imageMarker ++ (first ++ (vectorMarker ++ (second ++ (line ++
      (memoryMarker ++ third))))))

/-- Lines with records, numbered from the given address. -/
structure RecordsFrom (first : Nat) (cells : List Cell) (body : List Char) : Prop where
  lines : ∃ lines, List.Forall₂ RecordLine cells lines ∧ body = lines.flatten
  numbered : ∀ (i : Nat) (c : Cell), cells[i]? = some c → c.index.toNat = first + i

theorem recordsFrom_nil (first : Nat) : RecordsFrom first [] [] where
  lines := ⟨[], .nil, rfl⟩
  numbered := nofun

theorem RecordsFrom.cons {first : Nat} {cells : List Cell} {body line : List Char}
    (hline : RecordLine c line) (hindex : c.index.toNat = first)
    (h : RecordsFrom (first + 1) cells body) : RecordsFrom first (c :: cells) (line ++ body) where
  lines := by
    obtain ⟨lines, hlines, rfl⟩ := h.lines
    exact ⟨line :: lines, .cons hline hlines, rfl⟩
  numbered := by
    intro i d hd
    cases i with
    | zero =>
      cases hd
      exact hindex
    | succ i =>
      have := h.numbered i d hd
      omega

/-- The text starts with a name that is no mnemonic, and all of it. -/
inductive StartsUnknown (name : String) : List Char → Prop where
  | mk {behind : List Char} (hname : ∀ c ∈ name.toList, isMnemonicChar c = true)
    (hends : Stops isMnemonicChar behind) (hunknown : ∀ op, Opcode.mnemonic op ≠ name) :
    StartsUnknown name (name.toList ++ behind)

theorem readOpcode_error (h : readOpcode cs = .error e) : ∃ name,
    StartsUnknown name cs ∧ e = { rest := cs, cause := some (.unknownOpcode name) } := by
  simp only [readOpcode] at h
  split at h
  · cases h
  next hunknown =>
    cases h
    refine ⟨_, ?_, rfl⟩
    have hsplit : cs = (String.ofList (cs.takeWhile isMnemonicChar)).toList ++
        cs.dropWhile isMnemonicChar := by
      rw [String.toList_ofList, List.takeWhile_append_dropWhile]
    have hname : ∀ c ∈ (String.ofList (cs.takeWhile isMnemonicChar)).toList,
        isMnemonicChar c = true := by
      rw [String.toList_ofList]
      exact List.all_eq_true.1 List.all_takeWhile
    have hstarts := StartsUnknown.mk hname (stops_dropWhile _ cs)
      (Opcode.ofMnemonic?_eq_none_iff.1 hunknown)
    rwa [← hsplit] at hstarts

theorem readValue_suffix (cs : List Char) : (readValue cs).2 <:+ cs := by
  unfold readValue
  split
  next n rest h =>
    obtain ⟨behind, hgap, hnumber⟩ := Option.bind_eq_some_iff.1 h
    obtain ⟨gap, -, -, rfl⟩ := skip?_eq_some_iff.1 hgap
    obtain ⟨digits, -, -, -, rfl⟩ := readNumber_eq_some_iff.1 hnumber
    exact (List.suffix_append digits rest).trans (List.suffix_append gap _)
  next => exact List.suffix_rfl

theorem readVector_suffix (cs : List Char) : (readVector cs).2 <:+ cs := by
  unfold readVector
  split
  next => exact List.suffix_rfl
  next n behind hnumber =>
    obtain ⟨digits, -, -, -, rfl⟩ := readNumber_eq_some_iff.1 hnumber
    split
    next rest hskip =>
      obtain ⟨lineEnd, -, -, rfl⟩ := skip?_eq_some_iff.1 hskip
      exact (List.suffix_append lineEnd rest).trans (List.suffix_append digits _)
    next => exact List.suffix_rfl

/-- A record that cannot be read has an unknown name behind its number, or it departs from the
grammar. -/
theorem readRecord_error (h : readRecord cs = .error e) :
    (e.cause = none ∧ e.rest <:+ cs) ∨ ∃ digits gap name, IsRun Char.isDigit digits ∧
      IsRun isSpacing gap ∧ StartsUnknown name e.rest ∧ cs = digits ++ (gap ++ e.rest) ∧
      e.cause = some (.unknownOpcode name) := by
  unfold readRecord at h
  split at h
  · cases h
  next index contents hnumber =>
    obtain ⟨digits, hnumeral, -, -, rfl⟩ := readNumber_eq_some_iff.1 hnumber
    split at h
    · cases h
    next reason hcontents =>
      cases h
      rcases Checked.bind_eq_error_iff.1 hcontents with hgap | ⟨afterGap, hgap, hbehind⟩
      · cases skip_eq_error hgap
        exact .inl ⟨rfl, List.suffix_append _ _⟩
      obtain ⟨gap, hrun, -, rfl⟩ := skip_eq_ok_iff.1 hgap
      rcases Checked.bind_eq_error_iff.1 hbehind with hname | ⟨⟨op, afterName⟩, hname, hline⟩
      · obtain ⟨name, hstarts, rfl⟩ := readOpcode_error hname
        exact .inr ⟨digits, gap, name, hnumeral.run, hrun, hstarts, rfl, rfl⟩
      · obtain ⟨-, rfl⟩ := readOpcode_eq_ok_iff.1 hname
        rcases Checked.bind_eq_error_iff.1 hline with hskip | ⟨afterLine, -, hnothing⟩
        · cases skip_eq_error hskip
          refine .inl ⟨rfl, ?_⟩
          exact (((readValue_suffix afterName).trans (List.suffix_append _ _)).trans
            (List.suffix_append gap _)).trans (List.suffix_append digits _)
        · cases hnothing

/-- Reading records stops behind some that go on with the numbering, at one that cannot be read or
at one that has another number. -/
theorem readRecords_error {memory : Array Cell} (h : readRecords memory cs = .error e) :
    ∃ cells body rest, RecordsFrom memory.size cells body ∧ cs = body ++ rest ∧
      (readRecord rest = .error e ∨ ∃ c line behind, RecordLine c line ∧ rest = line ++ behind ∧
        c.index.toNat ≠ memory.size + cells.length ∧
        e = {
          rest
          cause := some (.indexMismatch (memory.size + cells.length) c.index) }) := by
  induction memory, cs using readRecords.induct with
  | case1 memory cs reason hrecord =>
    rw [readRecords_eq, hrecord] at h
    cases h
    exact ⟨[], [], cs, recordsFrom_nil _, rfl, .inl hrecord⟩
  | case2 memory cs hrecord =>
    rw [readRecords_eq, hrecord] at h
    cases h
  | case3 memory cs c behind hrecord hindex ih =>
    rw [readRecords_eq, hrecord] at h
    simp only [if_pos hindex] at h
    obtain ⟨cells, body, rest, hbody, rfl, hstops⟩ := ih h
    obtain ⟨line, hline, -, rfl⟩ := readRecord_eq_ok_iff.1 hrecord
    rw [Array.size_push] at hbody hstops
    have hsize : memory.size + (c :: cells).length = memory.size + 1 + cells.length := by
      rw [List.length_cons]
      omega
    rw [← hsize] at hstops
    exact ⟨c :: cells, line ++ body, rest, hbody.cons hline hindex, by simp, hstops⟩
  | case4 memory cs c behind hrecord hindex =>
    rw [readRecords_eq, hrecord] at h
    simp only [if_neg hindex] at h
    cases h
    obtain ⟨line, hline, -, rfl⟩ := readRecord_eq_ok_iff.1 hrecord
    exact ⟨[], [], _, recordsFrom_nil _, rfl, .inr ⟨c, line, behind, hline, rfl, hindex, rfl⟩⟩

/-- Behind the records only the end marker and blanks can stand. -/
theorem end_error {image : Image} (h : (do
    let behind ← expect endMarker cs
    if (skipAnySpace behind).isEmpty then return image
    else throw ({ rest := skipAnySpace behind } : ReadError)) = .error e) :
    e.cause = none ∧ e.rest <:+ cs := by
  rcases Checked.bind_eq_error_iff.1 h with hmarker | ⟨behind, hmarker, hblanks⟩
  · cases expect_eq_error hmarker
    exact ⟨rfl, List.suffix_rfl⟩
  · rw [expect_eq_ok_iff] at hmarker
    have hbehind : behind <:+ cs := hmarker ▸ List.suffix_append endMarker behind
    split at hblanks
    · cases hblanks
    · cases hblanks
      exact ⟨rfl, (List.dropWhile_suffix _).trans hbehind⟩

/-- The reader stops where the text departs from the grammar, or at the records. -/
theorem read_error (h : read text = .error e) : (e.cause = none ∧ e.rest <:+ text) ∨
    ∃ head cs, Head head ∧ text = head ++ cs ∧ readRecords #[] cs = .error e := by
  unfold read at h
  rcases Checked.bind_eq_error_iff.1 h with hfirst | ⟨afterImage, hfirst, hafterImage⟩
  · exact .inl (expectLine_error hfirst)
  obtain ⟨first, hfirstRun, -, rfl⟩ := expectLine_eq_ok_iff.1 hfirst
  rcases Checked.bind_eq_error_iff.1 hafterImage with hsecond |
    ⟨afterMarker, hsecond, hafterMarker⟩
  · obtain ⟨hcause, hrest⟩ := expectLine_error hsecond
    exact .inl ⟨hcause, (hrest.trans (List.suffix_append first _)).trans (List.suffix_append _ _)⟩
  obtain ⟨second, hsecondRun, -, rfl⟩ := expectLine_eq_ok_iff.1 hsecond
  rcases Checked.bind_eq_error_iff.1 hafterMarker with hthird | ⟨afterMemory, hthird, hafterMemory⟩
  · obtain ⟨hcause, hrest⟩ := expectLine_error hthird
    refine .inl ⟨hcause, (hrest.trans (readVector_suffix afterMarker)).trans ?_⟩
    exact ⟨imageMarker ++ (first ++ (vectorMarker ++ second)), by simp⟩
  obtain ⟨vector, third, hvector, hthirdRun, -, rfl⟩ := readVector_expectLine_iff.1 ⟨rfl, hthird⟩
  have hhead := Head.mk hfirstRun hsecondRun hvector hthirdRun
  have hsplit : imageMarker ++ (first ++ (vectorMarker ++ (second ++ (vector ++ (memoryMarker ++
      (third ++ afterMemory)))))) = imageMarker ++ (first ++ (vectorMarker ++ (second ++ (vector ++
        (memoryMarker ++ third))))) ++ afterMemory := by simp
  rcases Checked.bind_eq_error_iff.1 hafterMemory with hrecords |
    ⟨⟨memory, afterRecords⟩, hrecords, hafterRecords⟩
  · exact .inr ⟨_, afterMemory, hhead, hsplit, hrecords⟩
  obtain ⟨cells, records, -, -, -, rfl⟩ := exists_lines_of_readRecords hrecords
  obtain ⟨hcause, hrest⟩ := end_error hafterRecords
  rw [hsplit]
  exact .inl ⟨hcause, (hrest.trans (List.suffix_append _ _)).trans (List.suffix_append _ _)⟩

/-- What was read in front of an error that has its own cause, and where the error then stands. -/
def Placed (before : List Char) (e : ReadError) : Prop :=
  match e.cause with
  | none => True
  | some (.indexMismatch expected found) => ∃ head cells body c line rest,
    Head head ∧ RecordsFrom 0 cells body ∧ before = head ++ body ∧ RecordLine c line ∧
      e.rest = line ++ rest ∧ c.index = found ∧ cells.length = expected ∧ found.toNat ≠ expected
  | some (.unknownOpcode name) => ∃ head cells body digits gap,
    Head head ∧ RecordsFrom 0 cells body ∧ IsRun Char.isDigit digits ∧ IsRun isSpacing gap ∧
      before = head ++ (body ++ (digits ++ gap)) ∧ StartsUnknown name e.rest

theorem read_error_placed (h : read text = .error e) :
    ∃ before, e.StandsBehind text before ∧ Placed before e := by
  rcases read_error h with ⟨hcause, hrest⟩ | ⟨head, cs, hhead, rfl, hrecords⟩
  · obtain ⟨before, hbehind⟩ := Located.exists_standsBehind hrest
    exact ⟨before, hbehind, by rw [Placed, hcause]; trivial⟩
  obtain ⟨cells, body, rest, hbody, rfl, hrecord | hmismatch⟩ := readRecords_error hrecords
  · rcases readRecord_error hrecord with ⟨hcause, hrest⟩ |
      ⟨digits, gap, name, hdigits, hgap, hstarts, rfl, hcause⟩
    · obtain ⟨before, hbehind⟩ := Located.exists_standsBehind
        ((hrest.trans (List.suffix_append body rest)).trans (List.suffix_append head _))
      exact ⟨before, hbehind, by rw [Placed, hcause]; trivial⟩
    · refine ⟨head ++ (body ++ (digits ++ gap)), Located.standsBehind_of_split (by simp), ?_⟩
      rw [Placed, hcause]
      exact ⟨head, cells, body, digits, gap, hhead, hbody, hdigits, hgap, rfl, hstarts⟩
  · obtain ⟨c, line, behind, hline, rfl, hindex, rfl⟩ := hmismatch
    rw [List.size_toArray, List.length_nil, Nat.zero_add] at hindex
    refine ⟨head ++ body, Located.standsBehind_of_split (by simp), ?_⟩
    exact ⟨head, cells, body, c, line, behind, hhead, hbody, rfl, hline, rfl, rfl,
      (Nat.zero_add _).symm, by simpa using hindex⟩

end Image

end Accumulator
