import Accumulator.Source.Line
import Accumulator.Text.Line
import Mathlib.Algebra.Group.Int.Defs
import Mathlib.Algebra.GroupWithZero.Nat
import Mathlib.Data.List.Induction
import Mathlib.Data.List.Nodup

/-!
What a source text says, read off at once. Every line is read in its section, a
statement lays out a block of cells of known size, and a name stands for the
sizes of the blocks before its definition. There is no running layout, no table
of names and no second pass here; that the assembler agrees with this reading
is proved elsewhere.
-/

namespace Accumulator.Source

open Text

/-- The section of the lines behind a line that reads so. A line `.data:`
starts the data section for good. -/
def sectionAfter (sec : Section) : Except Cause (Option Statement) → Section
  | .ok (some (.marker .data)) => .data
  | _ => sec

theorem sectionAfter_ok (sec : Section) (said : Option Statement) :
    sectionAfter sec (.ok said) = if said = some (.marker .data) then .data else sec := by
  unfold sectionAfter
  split
  next hsaid =>
    cases hsaid
    rfl
  next hother => exact (if_neg fun hsaid => hother (by rw [hsaid])).symm

/-- The readings of source lines, the first of which is in the given section. -/
def readLines (sec : Section) : List (List Char) → List (Except Cause (Option Statement))
  | [] => []
  | line :: rest =>
    let reading := Statement.read sec (significant line)
    reading :: readLines (sectionAfter sec reading) rest

theorem readLines_append (sec : Section) (before behind : List (List Char)) :
    readLines sec (before ++ behind) =
      readLines sec before ++ readLines ((readLines sec before).foldl sectionAfter sec) behind := by
  induction before generalizing sec with
  | nil => rfl
  | cons line rest ih => simp only [List.cons_append, readLines, ih, List.foldl_cons]

/-- The readings of all lines of a source text, which starts in the code section. -/
def readings (source : List Char) : List (Except Cause (Option Statement)) :=
  readLines .code (lines source)

def Reads (source : List Char) : Prop :=
  ∀ reading ∈ readings source, ∃ s, reading = .ok s

/-- The statements that were read. A line without tokens holds none. -/
def statementsOf (readings : List (Except Cause (Option Statement))) : List Statement :=
  readings.filterMap fun reading => reading.toOption.join

def program (source : List Char) : List Statement := statementsOf (readings source)

def integer? (text : String) : Option Int := (Decimal.readInt text.toList).toOption

namespace Statement

/-- The name that the statement gives to the next cell. A vector declaration
names no cell. -/
def defines : Statement → Option String
  | .label name => some name
  | .declaration _ (.vector _) => none
  | .declaration name _ => some name
  | _ => none

/-- The label at which a vector declaration puts the interrupt handler. -/
def target : Statement → Option String
  | .declaration _ (.vector target) => some target
  | _ => none

/-- A number is signed, a buffer has at least one cell. Nothing else is bounded. -/
def InRange : Statement → Prop
  | .declaration _ (.number text) => ∃ n, integer? text = some n ∧ -2 ^ 31 ≤ n ∧ n < 2 ^ 31
  | .declaration _ (.buffer text) => ∃ n, integer? text = some n ∧ 1 ≤ n ∧ n < 2 ^ 32
  | _ => True

def size : Statement → Nat
  | .instruction _ _ => 1
  | .declaration _ (.number _) => 1
  | .declaration _ (.string text) => text.length + 1
  | .declaration _ (.buffer text) => ((integer? text).getD 0).toNat
  | _ => 0

/-- The cells that the statement lays out, an operand as it is written. -/
def block : Statement → List (Opcode × Operand)
  | .instruction op operand => [(op, operand)]
  | .declaration _ (.number text) =>
    [(.number, .literal (Word.ofInt ((integer? text).getD 0)))]
  | .declaration _ (.string text) =>
    (.string, .literal (UInt32.ofNat text.length)) ::
      text.toList.map fun c => (.string, .literal c.val)
  | .declaration _ (.buffer text) =>
    List.replicate ((integer? text).getD 0).toNat (.buffer, .literal 0)
  | _ => []

theorem length_block (s : Statement) : s.block.length = s.size := by
  cases s with
  | marker start => rfl
  | label name => rfl
  | instruction op operand => rfl
  | declaration name directive => cases directive <;> simp [block, size, String.length_toList]

end Statement

def totalSize (program : List Statement) : Nat := (program.map Statement.size).sum

/-- The names that stand for cells, in the order of their definitions. -/
def definedNames (program : List Statement) : List String :=
  program.filterMap Statement.defines

def targets (program : List Statement) : List String := program.filterMap Statement.target

/-- The size of everything before the first definition of the name. -/
def address? (name : String) : List Statement → Option Nat
  | [] => none
  | s :: rest =>
    if s.defines = some name then some 0 else (address? name rest).map (s.size + ·)

/-- The value of an operand: a name stands for its address. -/
def Operand.value (program : List Statement) : Operand → Option Word
  | .absent => none
  | .literal w => some w
  | .symbol name => (address? name program).map UInt32.ofNat

/-- What the statements must satisfy before any name is resolved. -/
structure Consistent (program : List Statement) : Prop where
  codeFirst : program.Pairwise fun s t => s = .marker .data → t ≠ .marker .code
  distinct : (definedNames program).Nodup
  inRange : ∀ s ∈ program, s.InRange
  oneVector : (targets program).length ≤ 1

/-- What the statements must satisfy to be a program. -/
structure WellFormed (program : List Statement) : Prop extends Consistent program where
  vectorLabel : ∀ name ∈ targets program, .label name ∈ program
  operandsDefined : ∀ op name, .instruction op (.symbol name) ∈ program →
    name ∈ definedNames program

/-- Whether the statements have room: every cell has an address, and every name stands for one. -/
structure Fits (program : List Statement) : Prop where
  cells : totalSize program ≤ Word.count
  names : ∀ before s after name, program = before ++ s :: after → s.defines = some name →
    totalSize before < Word.count

/-- When a statement may follow others. -/
structure Admits (program : List Statement) (s : Statement) : Prop where
  codeFirst : s = .marker .code → .marker .data ∉ program
  fresh : ∀ name, s.defines = some name → name ∉ definedNames program
  inRange : s.InRange
  oneVector : ∀ name, s.target = some name → targets program = []

@[simp] theorem totalSize_append (before after : List Statement) :
    totalSize (before ++ after) = totalSize before + totalSize after := by
  simp [totalSize]

@[simp] theorem totalSize_singleton (s : Statement) : totalSize [s] = s.size := by
  simp [totalSize]

@[simp] theorem definedNames_append (before after : List Statement) :
    definedNames (before ++ after) = definedNames before ++ definedNames after := by
  simp [definedNames]

@[simp] theorem definedNames_singleton (s : Statement) :
    definedNames [s] = s.defines.toList := by
  cases h : s.defines <;> simp [definedNames, h]

@[simp] theorem targets_append (before after : List Statement) :
    targets (before ++ after) = targets before ++ targets after := by
  simp [targets]

@[simp] theorem targets_singleton (s : Statement) : targets [s] = s.target.toList := by
  cases h : s.target <;> simp [targets, h]

theorem length_blocks (program : List Statement) :
    (program.flatMap Statement.block).length = totalSize program := by
  simp [totalSize, List.length_flatMap, Statement.length_block]

theorem address?_append (name : String) (before after : List Statement) :
    address? name (before ++ after) =
      (address? name before).or ((address? name after).map (totalSize before + ·)) := by
  induction before with
  | nil => simp [address?, totalSize]
  | cons s rest ih =>
    by_cases hs : s.defines = some name
    · simp [address?, hs]
    · simp only [List.cons_append, address?, hs, if_false, ih]
      cases address? name rest with
      | some a => rfl
      | none =>
        cases address? name after with
        | none => rfl
        | some a => simp [totalSize, Nat.add_assoc]

theorem address?_eq_none_iff (name : String) (program : List Statement) :
    address? name program = none ↔ name ∉ definedNames program := by
  induction program with
  | nil => simp [address?, definedNames]
  | cons s rest ih =>
    by_cases hs : s.defines = some name
    · simp [address?, hs, definedNames]
    · simp only [address?, hs, if_false, Option.map_eq_none_iff, ih, definedNames,
        List.mem_filterMap, List.mem_cons, exists_eq_or_imp, false_or]

/-- Where names are distinct, a name stands for the total size of the blocks
before its definition, wherever that is. -/
theorem address?_of_split {before after : List Statement} {s : Statement} {name : String}
    (hdistinct : (definedNames (before ++ s :: after)).Nodup) (hs : s.defines = some name) :
    address? name (before ++ s :: after) = some (totalSize before) := by
  have hfirst : name ∉ definedNames before := by
    intro hbefore
    have hlater : name ∈ definedNames (s :: after) := by
      simp [definedNames, hs]
    rw [definedNames_append] at hdistinct
    exact List.disjoint_of_nodup_append hdistinct hbefore hlater
  rw [address?_append, (address?_eq_none_iff name before).mpr hfirst]
  simp [address?, hs]

/-- Statements are consistent if each of them may follow those before it. -/
theorem consistent_snoc_iff {program : List Statement} {s : Statement} :
    Consistent (program ++ [s]) ↔ Consistent program ∧ Admits program s := by
  constructor
  · rintro ⟨hcode, hdistinct, hrange, hvector⟩
    rw [List.pairwise_append] at hcode
    rw [definedNames_append, definedNames_singleton] at hdistinct
    rw [targets_append, targets_singleton, List.length_append] at hvector
    refine ⟨⟨hcode.1, hdistinct.of_append_left, ?_, by omega⟩, ?_, ?_, ?_, ?_⟩
    · intro t ht
      exact hrange t (List.mem_append_left [s] ht)
    · intro hs hdata
      exact hcode.2.2 _ hdata s (by simp) rfl hs
    · intro name hs hname
      rw [hs] at hdistinct
      exact List.disjoint_of_nodup_append hdistinct hname (by simp)
    · exact hrange s (by simp)
    · intro name hs
      rw [hs, Option.toList_some, List.length_singleton] at hvector
      exact List.length_eq_zero_iff.mp (by omega)
  · rintro ⟨⟨hcode, hdistinct, hrange, hvector⟩, hs⟩
    refine ⟨?_, ?_, ?_, ?_⟩
    · rw [List.pairwise_append]
      refine ⟨hcode, List.pairwise_singleton _ s, ?_⟩
      intro t ht s' hs' hdata hmarker
      rw [List.mem_singleton] at hs'
      subst hs' hdata
      exact hs.codeFirst hmarker ht
    · rw [definedNames_append, definedNames_singleton]
      cases hname : s.defines with
      | none => simpa using hdistinct
      | some name =>
        exact List.nodup_append.mpr ⟨hdistinct, List.nodup_singleton name, by
          rintro a ha b hb rfl
          rw [Option.toList_some, List.mem_singleton] at hb
          exact hs.fresh name hname (hb ▸ ha)⟩
    · intro t ht
      rcases List.mem_append.mp ht with hold | hnew
      · exact hrange t hold
      · rw [List.mem_singleton.mp hnew]
        exact hs.inRange
    · rw [targets_append, targets_singleton, List.length_append]
      cases htarget : s.target with
      | none => simpa using hvector
      | some name => simp [hs.oneVector name htarget]

theorem consistent_nil : Consistent [] :=
  ⟨List.Pairwise.nil, List.nodup_nil, by simp, by simp [targets]⟩

/-- Whatever stands in consistent statements may follow what stands before it. -/
theorem Consistent.admits {before after : List Statement} {s : Statement}
    (h : Consistent (before ++ s :: after)) : Admits before s := by
  -- induction from the end, since a consistent program stays so when its last statement is dropped
  induction after using List.reverseRecOn with
  | nil => exact (consistent_snoc_iff.mp h).2
  | append_singleton rest last ih =>
    apply ih
    rw [← List.cons_append, ← List.append_assoc] at h
    exact (consistent_snoc_iff.mp h).1

theorem fits_nil : Fits [] := ⟨Nat.zero_le _, by simp⟩

theorem fits_of_totalSize_lt {program : List Statement} (h : totalSize program < Word.count) :
    Fits program where
  cells := Nat.le_of_lt h
  names := by
    rintro before s after name rfl -
    rw [totalSize_append] at h
    exact Nat.lt_of_le_of_lt (Nat.le_add_right _ _) h

theorem Fits.of_append {before after : List Statement} (h : Fits (before ++ after)) :
    Fits before where
  cells := by
    have hcells := h.cells
    rw [totalSize_append] at hcells
    exact Nat.le_trans (Nat.le_add_right _ _) hcells
  names := by
    rintro first s last name rfl hs
    exact h.names first s (last ++ after) name (by simp) hs

/-- A statement has room behind others if its own cells and its name do. -/
theorem fits_snoc_iff {program : List Statement} {s : Statement} :
    Fits (program ++ [s]) ↔ Fits program ∧
      (0 < s.size → totalSize program + s.size ≤ Word.count) ∧
        ∀ name, s.defines = some name → totalSize program < Word.count := by
  constructor
  · intro h
    refine ⟨h.of_append, fun _ => ?_, fun name hs => h.names program s [] name rfl hs⟩
    simpa using h.cells
  · rintro ⟨h, hcells, hnames⟩
    refine ⟨?_, ?_⟩
    · rw [totalSize_append, totalSize_singleton]
      rcases Nat.eq_zero_or_pos s.size with hzero | hpos
      · rw [hzero]
        exact h.cells
      · exact hcells hpos
    · intro before t after name hsplit ht
      -- the name is that of the last statement or of one before it
      rcases List.eq_nil_or_concat after with rfl | ⟨rest, last, rfl⟩
      · obtain ⟨rfl, hlast⟩ := List.append_inj' hsplit rfl
        cases hlast
        exact hnames name ht
      · rw [List.concat_eq_append, ← List.cons_append, ← List.append_assoc] at hsplit
        exact h.names before t rest name (List.append_inj' hsplit rfl).1 ht

end Accumulator.Source
