import Accumulator.Checked
import Accumulator.Layout
import Accumulator.Proofs.Source.Program

/-!
Laying out a source text line by line arrives at what its statements say at
once. One statement either cannot be added or extends the layout in exactly one
way; a layout that holds some statements holds one more after the extension.
Induction over the lines then covers whole sources.
-/

namespace Accumulator

open Source Text

def Slot.content (s : Slot) : Opcode × Operand := (s.opcode, s.operand)

namespace Source.Statement

/-- The symbol that the statement defines at an address. -/
def symbol? (s : Statement) (address : Word) (line : Nat) : Option Symbol :=
  s.defines.map fun name =>
    ⟨name, if s = .label name then .label else .variable, address, line⟩

def handler? (line : Nat) : Statement → Option Handler
  | .declaration name (.vector target) => some ⟨name, target, line⟩
  | _ => none

theorem target_handler? (s : Statement) (line : Nat) :
    (s.handler? line).map Handler.target = s.target := by
  cases s with
  | declaration name directive => cases directive <;> rfl
  | _ => rfl

end Source.Statement

namespace Layout

/-- What the layout asks of the next statement. -/
structure Accepts (l : Layout) (s : Statement) : Prop where
  codeFirst : s = .marker .code → l.sec ≠ .data
  fresh : ∀ name, s.defines = some name → l.symbols.find? name = none
  inRange : s.InRange
  oneVector : ∀ name, s.target = some name → l.handler = none
  fits : 0 < s.size → l.slots.size + s.size ≤ Word.count
  addressable : ∀ name, s.defines = some name → l.slots.size < Word.count

def extend (l : Layout) (line : Nat) (s : Statement) : Layout where
  sec := if s = .marker .data then .data else l.sec
  slots := l.slots ++ s.block.map fun (op, operand) => (⟨op, operand, line⟩ : Slot)
  symbols := ⟨(s.symbol? (UInt32.ofNat l.slots.size) line).toList ++ l.symbols.symbols⟩
  handler := (s.handler? line).or l.handler

theorem reserve_eq_ok_iff {l : Layout} {n : Nat} {u : Unit} :
    l.reserve n = .ok u ↔ l.slots.size + n ≤ Word.count := by
  unfold reserve
  by_cases hfits : l.slots.size + n ≤ Word.count <;> simp [hfits]

theorem define_eq_ok_iff {l l' : Layout} {name : String} {kind : SymbolKind} {line : Nat} :
    l.define name kind line = .ok l' ↔
      l.slots.size < Word.count ∧ l.symbols.find? name = none ∧
        l' = { l with
          symbols := ⟨⟨name, kind, UInt32.ofNat l.slots.size, line⟩ :: l.symbols.symbols⟩ } := by
  unfold define SymbolTable.define
  by_cases haddress : l.slots.size < Word.count
  · cases hfind : l.symbols.find? name <;> simp [haddress, eq_comm]
  · simp [haddress]

theorem addVariable_eq_ok_iff {l l' : Layout} {name : String} {line : Nat} {b : Block} :
    l.addVariable name line b = .ok l' ↔
      l.slots.size + b.size ≤ Word.count ∧ l.slots.size < Word.count ∧
        l.symbols.find? name = none ∧
          l' = { l with
            slots := l.slots ++ b.slots line
            symbols := ⟨⟨name, .variable, UInt32.ofNat l.slots.size, line⟩ ::
              l.symbols.symbols⟩ } := by
  simp only [addVariable, Checked.bind_eq_ok_iff, reserve_eq_ok_iff, define_eq_ok_iff, pure,
    Except.pure, Except.ok.injEq]
  constructor
  · rintro ⟨_, hfits, _, ⟨haddress, hfresh, rfl⟩, rfl⟩
    exact ⟨hfits, haddress, hfresh, rfl⟩
  · rintro ⟨hfits, haddress, hfresh, rfl⟩
    exact ⟨(), hfits, _, ⟨haddress, hfresh, rfl⟩, rfl⟩

theorem numberValue_eq_ok_iff {text : String} {w : Word} :
    numberValue text = .ok w ↔
      ∃ n, integer? text = some n ∧ (-2 ^ 31 ≤ n ∧ n < 2 ^ 31) ∧ w = Word.ofInt n := by
  unfold numberValue readLiteral integer?
  cases Decimal.readInt text.toList with
  | error trouble => cases trouble <;> simp [Except.toOption, bind, Except.bind]
  | ok n =>
    have hbound : (2 : Int) ^ 31 = 0x80000000 := by decide
    simp only [Except.toOption, bind, Except.bind, Word.ofSigned?, Option.some.injEq,
      exists_eq_left', hbound]
    split_ifs with hn
    · simp only [hn, and_self, true_and, Except.ok.injEq, eq_comm]
    · simp only [hn, false_and]

theorem bufferSize_eq_ok_iff {text : String} {size : Nat} :
    bufferSize text = .ok size ↔
      ∃ n, integer? text = some n ∧ (1 ≤ n ∧ n < 2 ^ 32) ∧ size = n.toNat := by
  unfold bufferSize integer?
  cases Decimal.readInt text.toList with
  | error trouble => simp [Except.toOption]
  | ok n =>
    have hcount : ((Word.count : Nat) : Int) = 2 ^ 32 := by decide
    simp only [Except.toOption, hcount, Option.some.injEq, exists_eq_left']
    split_ifs with hn
    · simp only [hn, and_self, true_and, Except.ok.injEq, eq_comm]
    · simp only [hn, false_and]

theorem enter_eq_ok_iff {l l' : Layout} {start : Source.Section} :
    l.enter start = .ok l' ↔
      (start = .code → l.sec ≠ .data) ∧
        l' = { l with sec := if start = .data then .data else l.sec } := by
  cases start with
  | data => simp [enter, eq_comm]
  | code =>
    by_cases hsec : l.sec = .data
    · simp [enter, hsec]
    · simp only [enter, hsec, if_false, Except.ok.injEq, reduceCtorEq, not_false_eq_true,
        ne_eq, true_and, implies_true]
      exact eq_comm

theorem addStatement_marker_iff {l l' : Layout} {line : Nat} {start : Source.Section} :
    l.addStatement line (.marker start) = .ok l' ↔
      l.Accepts (.marker start) ∧ l' = l.extend line (.marker start) := by
  have hextend : l.extend line (.marker start) =
      { l with sec := if start = .data then .data else l.sec } := by
    simp [extend, Statement.block, Statement.symbol?, Statement.defines, Statement.handler?]
  rw [hextend, addStatement, Checked.mapError_eq_ok_iff, enter_eq_ok_iff]
  constructor
  · rintro ⟨hcode, rfl⟩
    refine ⟨⟨?_, ?_, trivial, ?_, ?_, ?_⟩, rfl⟩
    · rintro ⟨rfl⟩
      exact hcode rfl
    all_goals simp [Statement.defines, Statement.target, Statement.size]
  · rintro ⟨haccepts, rfl⟩
    exact ⟨fun hstart => haccepts.codeFirst (by rw [hstart]), rfl⟩

theorem addStatement_label_iff {l l' : Layout} {line : Nat} {name : String} :
    l.addStatement line (.label name) = .ok l' ↔
      l.Accepts (.label name) ∧ l' = l.extend line (.label name) := by
  have hextend : l.extend line (.label name) = { l with
      symbols := ⟨⟨name, .label, UInt32.ofNat l.slots.size, line⟩ :: l.symbols.symbols⟩ } := by
    simp [extend, Statement.block, Statement.symbol?, Statement.defines, Statement.handler?]
  rw [hextend, addStatement, Checked.mapError_eq_ok_iff, define_eq_ok_iff]
  constructor
  · rintro ⟨haddress, hfresh, rfl⟩
    refine ⟨⟨?_, ?_, trivial, ?_, ?_, ?_⟩, rfl⟩
    all_goals simp [Statement.defines, Statement.target, Statement.size, hfresh, haddress]
  · rintro ⟨haccepts, rfl⟩
    exact ⟨haccepts.addressable name rfl, haccepts.fresh name rfl, rfl⟩

theorem addStatement_instruction_iff {l l' : Layout} {line : Nat} {op : Opcode}
    {operand : Operand} :
    l.addStatement line (.instruction op operand) = .ok l' ↔
      l.Accepts (.instruction op operand) ∧ l' = l.extend line (.instruction op operand) := by
  have hextend : l.extend line (.instruction op operand) =
      l.append line (.instruction op operand) := by
    simp [extend, append, Block.slots, Statement.block, Statement.symbol?, Statement.defines,
      Statement.handler?]
  rw [hextend, addStatement]
  constructor
  · intro h
    obtain ⟨u, hreserve, rfl⟩ := Checked.map_eq_ok_iff.mp h
    rw [Checked.mapError_eq_ok_iff, reserve_eq_ok_iff] at hreserve
    refine ⟨⟨?_, ?_, trivial, ?_, fun _ => hreserve, ?_⟩, rfl⟩
    all_goals simp [Statement.defines, Statement.target]
  · rintro ⟨haccepts, rfl⟩
    have hreserve : l.reserve 1 = .ok () := reserve_eq_ok_iff.mpr (haccepts.fits Nat.one_pos)
    simp [hreserve, Except.mapError, Except.map]

theorem addStatement_vector_iff {l l' : Layout} {line : Nat} {name target : String} :
    l.addStatement line (.declaration name (.vector target)) = .ok l' ↔
      l.Accepts (.declaration name (.vector target)) ∧
        l' = l.extend line (.declaration name (.vector target)) := by
  have hextend : l.extend line (.declaration name (.vector target)) =
      { l with handler := some ⟨name, target, line⟩ } := by
    simp [extend, Statement.block, Statement.symbol?, Statement.defines, Statement.handler?]
  rw [hextend, addStatement, Checked.mapError_eq_ok_iff, declare]
  constructor
  · intro h
    cases hhandler : l.handler with
    | some first => simp [hhandler] at h
    | none =>
      rw [hhandler] at h
      cases h
      refine ⟨⟨?_, ?_, trivial, fun _ _ => hhandler, ?_, ?_⟩, rfl⟩
      all_goals simp [Statement.defines, Statement.size]
  · rintro ⟨haccepts, rfl⟩
    rw [haccepts.oneVector target rfl]

theorem accepts_variable_iff {l : Layout} {name : String} {directive : Directive}
    (hname : (Statement.declaration name directive).defines = some name) :
    l.Accepts (.declaration name directive) ↔
      (Statement.declaration name directive).InRange ∧
        (0 < (Statement.declaration name directive).size →
          l.slots.size + (Statement.declaration name directive).size ≤ Word.count) ∧
        l.slots.size < Word.count ∧ l.symbols.find? name = none := by
  constructor
  · intro h
    exact ⟨h.inRange, h.fits, h.addressable name hname, h.fresh name hname⟩
  · rintro ⟨hrange, hfits, haddress, hfresh⟩
    refine ⟨by simp, ?_, hrange, ?_, hfits, fun _ _ => haddress⟩
    · intro other hother
      rw [hname, Option.some.injEq] at hother
      rwa [← hother]
    · intro target htarget
      cases directive with
      | vector _ => cases hname
      | _ => cases htarget

/-- Laying out a variable is the extension by its declaration, if the block has
the slots that the declaration says. -/
theorem addVariable_iff_extend {l l' : Layout} {line : Nat} {name : String} {b : Block}
    (directive : Directive)
    (hname : (Statement.declaration name directive).defines = some name)
    (hblock : b.slots line = (Statement.declaration name directive).block.map
      fun (op, operand) => (⟨op, operand, line⟩ : Slot)) :
    l.addVariable name line b = .ok l' ↔
      l.slots.size + (Statement.declaration name directive).size ≤ Word.count ∧
        l.slots.size < Word.count ∧ l.symbols.find? name = none ∧
          l' = l.extend line (.declaration name directive) := by
  have hsize : b.size = (Statement.declaration name directive).size := by
    rw [← Block.length_slots line b, hblock, List.length_map, Statement.length_block]
  have hhandler : (Statement.declaration name directive).handler? line = none := by
    cases directive with
    | vector _ => cases hname
    | _ => rfl
  have hextend : l.extend line (.declaration name directive) = { l with
      slots := l.slots ++ b.slots line
      symbols := ⟨⟨name, .variable, UInt32.ofNat l.slots.size, line⟩ :: l.symbols.symbols⟩ } := by
    simp [extend, hblock, Statement.symbol?, hname, hhandler]
  rw [addVariable_eq_ok_iff, hsize, hextend]

theorem addStatement_number_iff {l l' : Layout} {line : Nat} {name text : String} :
    l.addStatement line (.declaration name (.number text)) = .ok l' ↔
      l.Accepts (.declaration name (.number text)) ∧
        l' = l.extend line (.declaration name (.number text)) := by
  rw [addStatement, Checked.mapError_eq_ok_iff, declare, Checked.bind_eq_ok_iff,
    accepts_variable_iff rfl]
  constructor
  · rintro ⟨w, hw, hadd⟩
    obtain ⟨n, hn, hrange, rfl⟩ := numberValue_eq_ok_iff.mp hw
    rw [addVariable_iff_extend (.number text) rfl
      (by simp [Block.slots, Block.datum, Statement.block, hn])] at hadd
    obtain ⟨hfits, haddress, hfresh, rfl⟩ := hadd
    exact ⟨⟨⟨n, hn, hrange⟩, fun _ => hfits, haddress, hfresh⟩, rfl⟩
  · rintro ⟨⟨⟨n, hn, hrange⟩, hfits, haddress, hfresh⟩, rfl⟩
    refine ⟨Word.ofInt n, numberValue_eq_ok_iff.mpr ⟨n, hn, hrange, rfl⟩, ?_⟩
    rw [addVariable_iff_extend (.number text) rfl
      (by simp [Block.slots, Block.datum, Statement.block, hn])]
    exact ⟨hfits Nat.one_pos, haddress, hfresh, rfl⟩

theorem addStatement_string_iff {l l' : Layout} {line : Nat} {name text : String} :
    l.addStatement line (.declaration name (.string text)) = .ok l' ↔
      l.Accepts (.declaration name (.string text)) ∧
        l' = l.extend line (.declaration name (.string text)) := by
  rw [addStatement, Checked.mapError_eq_ok_iff, declare, accepts_variable_iff rfl,
    addVariable_iff_extend (.string text) rfl
      (by simp [Block.slots, Block.datum, Statement.block, Function.comp_def,
        String.length_toList])]
  constructor
  · rintro ⟨hfits, haddress, hfresh, rfl⟩
    exact ⟨⟨trivial, fun _ => hfits, haddress, hfresh⟩, rfl⟩
  · rintro ⟨⟨_, hfits, haddress, hfresh⟩, rfl⟩
    exact ⟨hfits (Nat.succ_pos _), haddress, hfresh, rfl⟩

theorem addStatement_buffer_iff {l l' : Layout} {line : Nat} {name text : String} :
    l.addStatement line (.declaration name (.buffer text)) = .ok l' ↔
      l.Accepts (.declaration name (.buffer text)) ∧
        l' = l.extend line (.declaration name (.buffer text)) := by
  rw [addStatement, Checked.mapError_eq_ok_iff, declare, Checked.bind_eq_ok_iff,
    accepts_variable_iff rfl]
  constructor
  · rintro ⟨size, hsize, hadd⟩
    obtain ⟨n, hn, hrange, rfl⟩ := bufferSize_eq_ok_iff.mp hsize
    rw [addVariable_iff_extend (.buffer text) rfl
      (by simp [Block.slots, Block.datum, Statement.block, hn])] at hadd
    obtain ⟨hfits, haddress, hfresh, rfl⟩ := hadd
    exact ⟨⟨⟨n, hn, hrange⟩, fun _ => hfits, haddress, hfresh⟩, rfl⟩
  · rintro ⟨⟨⟨n, hn, hrange⟩, hfits, haddress, hfresh⟩, rfl⟩
    refine ⟨n.toNat, bufferSize_eq_ok_iff.mpr ⟨n, hn, hrange, rfl⟩, ?_⟩
    rw [addVariable_iff_extend (.buffer text) rfl
      (by simp [Block.slots, Block.datum, Statement.block, hn])]
    have hpos : 0 < (Statement.declaration name (.buffer text)).size := by
      simp only [Statement.size, hn, Option.getD_some]
      omega
    exact ⟨hfits hpos, haddress, hfresh, rfl⟩

/-- A statement is added exactly if the layout accepts it, and then the layout
is extended by it. -/
theorem addStatement_eq_ok_iff {l l' : Layout} {line : Nat} {s : Statement} :
    l.addStatement line s = .ok l' ↔ l.Accepts s ∧ l' = l.extend line s := by
  cases s with
  | marker start => exact addStatement_marker_iff
  | label name => exact addStatement_label_iff
  | instruction op operand => exact addStatement_instruction_iff
  | declaration name directive =>
    cases directive with
    | number text => exact addStatement_number_iff
    | string text => exact addStatement_string_iff
    | buffer text => exact addStatement_buffer_iff
    | vector target => exact addStatement_vector_iff

/-- The layout says what the statements say: it is where the statements end, it
has their cells, its names stand for their addresses, and its handler is theirs. -/
structure Holds (l : Layout) (program : List Statement) : Prop where
  sec : l.sec = if .marker .data ∈ program then .data else .code
  slots : l.slots.toList.map Slot.content = program.flatMap Statement.block
  bounded : l.slots.size ≤ Word.count
  addresses : ∀ name, l.symbols.address? name = (address? name program).map UInt32.ofNat
  /-- Only a label counts where a label is asked for. -/
  labels : ∀ name, l.symbols.labelAddress? name =
    if .label name ∈ program then l.symbols.address? name else none
  handler : l.handler.map Handler.target = (targets program).head?

theorem holds_empty : ({} : Layout).Holds [] where
  sec := rfl
  slots := rfl
  bounded := Nat.zero_le _
  addresses := fun _ => rfl
  labels := fun _ => rfl
  handler := rfl

theorem Holds.size_slots {l : Layout} {program : List Statement} (h : l.Holds program) :
    l.slots.size = totalSize program := by
  rw [← length_blocks, ← h.slots, List.length_map, Array.length_toList]

theorem Holds.find?_eq_none_iff {l : Layout} {program : List Statement} (h : l.Holds program)
    (name : String) : l.symbols.find? name = none ↔ name ∉ definedNames program := by
  have haddress := h.addresses name
  rw [← address?_eq_none_iff, ← Option.map_eq_none_iff (f := UInt32.ofNat), ← haddress,
    SymbolTable.address?, Option.map_eq_none_iff]

/-- A layout asks of a statement what the statements before it ask, and that it
fits into memory. -/
theorem Holds.accepts_iff {l : Layout} {program : List Statement} (h : l.Holds program)
    (s : Statement) :
    l.Accepts s ↔ Admits program s ∧
      (0 < s.size → totalSize program + s.size ≤ Word.count) ∧
        ∀ name, s.defines = some name → totalSize program < Word.count := by
  have hsec : l.sec ≠ .data ↔ .marker .data ∉ program := by
    rw [h.sec]
    split <;> simp [*]
  have hhandler : l.handler = none ↔ targets program = [] := by
    rw [← List.head?_eq_none_iff, ← h.handler, Option.map_eq_none_iff]
  constructor
  · intro ha
    refine ⟨⟨?_, ?_, ha.inRange, ?_⟩, ?_, ?_⟩
    · intro hs
      exact hsec.mp (ha.codeFirst hs)
    · intro name hname
      exact (h.find?_eq_none_iff name).mp (ha.fresh name hname)
    · intro name hname
      exact hhandler.mp (ha.oneVector name hname)
    · rw [← h.size_slots]
      exact ha.fits
    · rw [← h.size_slots]
      exact ha.addressable
  · rintro ⟨ha, hfits, haddress⟩
    rw [← h.size_slots] at hfits haddress
    refine ⟨?_, ?_, ha.inRange, ?_, hfits, haddress⟩
    · intro hs
      exact hsec.mpr (ha.codeFirst hs)
    · intro name hname
      exact (h.find?_eq_none_iff name).mpr (ha.fresh name hname)
    · intro name hname
      exact hhandler.mpr (ha.oneVector name hname)

theorem address?_extend (l : Layout) (line : Nat) (s : Statement) (name : String) :
    (l.extend line s).symbols.address? name =
      if s.defines = some name then some (UInt32.ofNat l.slots.size)
      else l.symbols.address? name := by
  cases hs : s.defines with
  | none => simp [extend, Statement.symbol?, hs, SymbolTable.address?, SymbolTable.find?]
  | some first =>
    by_cases hname : first = name
    · simp [extend, Statement.symbol?, hs, SymbolTable.address?, SymbolTable.find?, hname]
    · simp [extend, Statement.symbol?, hs, SymbolTable.address?, SymbolTable.find?, hname]

theorem labelAddress?_extend (l : Layout) (line : Nat) (s : Statement) (name : String) :
    (l.extend line s).symbols.labelAddress? name =
      if s.defines = some name then
        if s = .label name then some (UInt32.ofNat l.slots.size) else none
      else l.symbols.labelAddress? name := by
  cases hs : s.defines with
  | none => simp [extend, Statement.symbol?, hs, SymbolTable.labelAddress?, SymbolTable.find?]
  | some first =>
    by_cases hname : first = name
    · subst hname
      by_cases hlabel : s = .label first
      · simp [extend, Statement.symbol?, Statement.defines, hlabel, SymbolTable.labelAddress?,
          SymbolTable.find?]
      · simp [extend, Statement.symbol?, hs, hlabel, SymbolTable.labelAddress?,
          SymbolTable.find?]
    · simp [extend, Statement.symbol?, hs, hname, SymbolTable.labelAddress?, SymbolTable.find?]

/-- The extension by an accepted statement holds that statement too. A fresh name
gets the size of everything before it; names that were there keep their address. -/
theorem Holds.extend {l : Layout} {program : List Statement} {s : Statement} (line : Nat)
    (h : l.Holds program) (ha : l.Accepts s) : (l.extend line s).Holds (program ++ [s]) where
  sec := by
    simp only [Layout.extend, h.sec, List.mem_append, List.mem_singleton]
    by_cases hs : s = .marker .data
    · simp [hs]
    · simp [hs, Ne.symm hs]
  slots := by
    simp [Layout.extend, h.slots, Slot.content, Function.comp_def]
  bounded := by
    have hsize : (l.extend line s).slots.size = l.slots.size + s.size := by
      simp [Layout.extend, ← Array.length_toList, Statement.length_block]
    rw [hsize]
    rcases Nat.eq_zero_or_pos s.size with hzero | hpos
    · rw [hzero]
      exact h.bounded
    · exact ha.fits hpos
  addresses := by
    intro name
    rw [address?_extend, address?_append, h.addresses, h.size_slots]
    by_cases hs : s.defines = some name
    · have hfresh := (h.find?_eq_none_iff name).mp (ha.fresh name hs)
      simp [hs, address?, (address?_eq_none_iff name program).mpr hfresh]
    · simp [hs, address?]
  labels := by
    intro name
    rw [labelAddress?_extend, address?_extend, h.labels]
    by_cases hs : s.defines = some name
    · have hfresh := (h.find?_eq_none_iff name).mp (ha.fresh name hs)
      have hlabel : .label name ∉ program := by
        intro hmem
        exact hfresh (List.mem_filterMap.mpr ⟨_, hmem, rfl⟩)
      simp [hs, hlabel, eq_comm]
    · have hlabel : s ≠ .label name := by
        rintro rfl
        exact hs rfl
      simp [hs, Ne.symm hlabel]
  handler := by
    rw [targets_append, targets_singleton, Layout.extend]
    cases htarget : s.target with
    | none =>
      have hnone : s.handler? line = none := by
        rw [← Option.map_eq_none_iff (f := Handler.target), Statement.target_handler?, htarget]
      simp [hnone, h.handler]
    | some target =>
      have hsome := s.target_handler? line
      rw [htarget, Option.map_eq_some_iff] at hsome
      obtain ⟨declared, hdeclared, hname⟩ := hsome
      have hempty : targets program = [] := ((h.accepts_iff s).mp ha).1.oneVector target htarget
      simp [hdeclared, hname, hempty]

/-- Adding a line reads it in the section of the layout and adds what it says. -/
theorem addLine_eq_ok_iff {l l' : Layout} {number : Nat} {line : List Char} :
    l.addLine number line = .ok l' ↔
      ∃ said, Statement.read l.sec (significant line) = .ok said ∧
        match said with
        | none => l' = l
        | some s => l.Accepts s ∧ l' = l.extend number s := by
  unfold addLine
  cases Statement.read l.sec (significant line) with
  | error cause => simp
  | ok said =>
    cases said with
    | none => simp [eq_comm]
    | some s => simp [Checked.mapError_eq_ok_iff, addStatement_eq_ok_iff]

/-- A line that is added leaves the layout in the section of the lines behind it. -/
theorem sec_of_addLine {l l' : Layout} {number : Nat} {line : List Char}
    (h : l.addLine number line = .ok l') :
    sectionAfter l.sec (Statement.read l.sec (significant line)) = l'.sec := by
  obtain ⟨said, hread, hnext⟩ := addLine_eq_ok_iff.mp h
  rw [hread, sectionAfter_ok]
  cases said with
  | none =>
    subst hnext
    rfl
  | some s =>
    obtain ⟨-, rfl⟩ := hnext
    simp [Layout.extend]

/-- A source that is laid out reads line by line, its statements are consistent,
and the layout holds them. -/
theorem Holds.addLines {l l' : Layout} {program : List Statement} {number : Nat}
    {lines : List (List Char)} (h : l.Holds program) (hc : Consistent program)
    (hadd : Layout.addLines number l lines = .ok l') :
    (∀ reading ∈ readLines l.sec lines, ∃ said, reading = .ok said) ∧
      Consistent (program ++ statementsOf (readLines l.sec lines)) ∧
        l'.Holds (program ++ statementsOf (readLines l.sec lines)) := by
  induction lines generalizing l program number with
  | nil =>
    cases hadd
    simpa [readLines, statementsOf] using ⟨hc, h⟩
  | cons line rest ih =>
    rw [Layout.addLines] at hadd
    cases hline : l.addLine number line with
    | error e => simp [hline] at hadd
    | ok next =>
      simp only [hline] at hadd
      have hsec := sec_of_addLine hline
      obtain ⟨said, hread, hnext⟩ := addLine_eq_ok_iff.mp hline
      rw [hread] at hsec
      cases said with
      | none =>
        -- an empty line changes neither the layout nor the section
        subst hnext
        obtain ⟨hreads, hrest⟩ := ih h hc hadd
        simp only [readLines, hread, hsec]
        exact ⟨by simpa using hreads, by simpa [statementsOf, Except.toOption] using hrest⟩
      | some s =>
        obtain ⟨ha, rfl⟩ := hnext
        have hadmits := ((h.accepts_iff s).mp ha).1
        obtain ⟨hreads, hrest⟩ :=
          ih (h.extend number ha) (consistent_snoc_iff.mpr ⟨hc, hadmits⟩) hadd
        simp only [readLines, hread, hsec]
        exact ⟨by simpa using hreads, by simpa [statementsOf, Except.toOption] using hrest⟩

/-- What can be laid out behind statements that fit does so with them. -/
theorem Holds.fits_addLines {l l' : Layout} {program : List Statement} {number : Nat}
    {lines : List (List Char)} (h : l.Holds program) (hfits : Fits program)
    (hadd : Layout.addLines number l lines = .ok l') :
    Fits (program ++ statementsOf (readLines l.sec lines)) := by
  induction lines generalizing l program number with
  | nil => simpa [readLines, statementsOf] using hfits
  | cons line rest ih =>
    rw [Layout.addLines] at hadd
    cases hline : l.addLine number line with
    | error e => simp [hline] at hadd
    | ok next =>
      simp only [hline] at hadd
      have hsec := sec_of_addLine hline
      obtain ⟨said, hread, hnext⟩ := addLine_eq_ok_iff.mp hline
      rw [readLines, hsec, hread]
      cases said with
      | none =>
        subst hnext
        exact ih h hfits hadd
      | some s =>
        obtain ⟨ha, rfl⟩ := hnext
        have hroom := fits_snoc_iff.mpr ⟨hfits, ((h.accepts_iff s).mp ha).2⟩
        simpa [statementsOf, Except.toOption] using ih (h.extend number ha) hroom hadd

/-- Lines that read, whose statements are consistent and have room, can be laid out. -/
theorem Holds.exists_addLines_of_fits {l : Layout} {program : List Statement} (number : Nat)
    {lines : List (List Char)} (h : l.Holds program)
    (hreads : ∀ reading ∈ readLines l.sec lines, ∃ said, reading = .ok said)
    (hc : Consistent (program ++ statementsOf (readLines l.sec lines)))
    (hfits : Fits (program ++ statementsOf (readLines l.sec lines))) :
    ∃ l', Layout.addLines number l lines = .ok l' := by
  induction lines generalizing l program number with
  | nil => exact ⟨l, rfl⟩
  | cons line rest ih =>
    simp only [readLines, List.forall_mem_cons] at hreads
    obtain ⟨⟨said, hread⟩, hrest⟩ := hreads
    simp only [readLines, hread] at hc hfits hrest
    rw [Layout.addLines]
    cases said with
    | none =>
      have hline : l.addLine number line = .ok l := addLine_eq_ok_iff.mpr ⟨none, hread, rfl⟩
      have hsec := sec_of_addLine hline
      rw [hread] at hsec
      rw [hsec] at hc hfits hrest
      simp only [hline]
      exact ih (number + 1) h hrest (by simpa [statementsOf, Except.toOption] using hc)
        (by simpa [statementsOf, Except.toOption] using hfits)
    | some s =>
      -- what is consistent as a whole admits its next statement, and the layout accepts what fits
      have hstatements : statementsOf (.ok (some s) :: readLines (sectionAfter l.sec
          (.ok (some s))) rest) = s :: statementsOf (readLines (sectionAfter l.sec
          (.ok (some s))) rest) := rfl
      rw [hstatements] at hc hfits
      have hroom : Fits (program ++ [s]) := by
        rw [List.append_cons] at hfits
        exact hfits.of_append
      have ha : l.Accepts s := (h.accepts_iff s).mpr ⟨hc.admits, (fits_snoc_iff.mp hroom).2⟩
      have hline : l.addLine number line = .ok (l.extend number s) :=
        addLine_eq_ok_iff.mpr ⟨some s, hread, ha, rfl⟩
      have hsec := sec_of_addLine hline
      rw [hread] at hsec
      rw [hsec] at hc hfits hrest
      simp only [hline]
      exact ih (number + 1) (h.extend number ha) hrest (by simpa using hc) (by simpa using hfits)

/-- Lines that read, whose statements are consistent and fit into memory, can be
laid out. -/
theorem Holds.exists_addLines {l : Layout} {program : List Statement} (number : Nat)
    {lines : List (List Char)} (h : l.Holds program)
    (hreads : ∀ reading ∈ readLines l.sec lines, ∃ said, reading = .ok said)
    (hc : Consistent (program ++ statementsOf (readLines l.sec lines)))
    (hsize : totalSize (program ++ statementsOf (readLines l.sec lines)) < Word.count) :
    ∃ l', Layout.addLines number l lines = .ok l' :=
  h.exists_addLines_of_fits number hreads hc (fits_of_totalSize_lt hsize)

end Layout

end Accumulator
