import Accumulator.Layout.Resolve
import Accumulator.Proofs.Layout.Misreading

/-!
Line numbers. A layout keeps the numbers of its lines for errors alone: where
the lines have other numbers, everything comes out as before, except that errors
tell the other numbers.
-/

namespace Accumulator

open Source Checked

namespace Source

variable (f : Nat → Nat)

def Cause.renumber : Cause → Cause
  | .duplicateSymbol name firstLine => .duplicateSymbol name (f firstLine)
  | .duplicateVector firstLine => .duplicateVector (f firstLine)
  | c => c

def Error.renumber (e : Error) : Error :=
  { e with cause := e.cause.renumber f, line := e.line.map f }

def Symbol.renumber (s : Symbol) : Symbol := { s with line := f s.line }

def SymbolTable.renumber (table : SymbolTable) : SymbolTable :=
  ⟨table.symbols.map (Symbol.renumber f)⟩

end Source

def Slot.renumber (f : Nat → Nat) (s : Slot) : Slot := { s with line := f s.line }

def Handler.renumber (f : Nat → Nat) (h : Handler) : Handler := { h with line := f h.line }

/-- The layout with other numbers for the same lines. -/
def Layout.renumber (f : Nat → Nat) (l : Layout) : Layout where
  sec := l.sec
  slots := l.slots.map (Slot.renumber f)
  symbols := l.symbols.renumber f
  handler := l.handler.map (Handler.renumber f)

variable {f g : Nat → Nat}

namespace Source

theorem Cause.IsPlain.renumber_eq {c : Cause} (h : c.IsPlain) : c.renumber f = c := by
  cases c <;> first | rfl | exact h.elim

theorem Misread.renumber_eq {sec : Section} {cs : List Char} {c : Cause} (h : Misread sec cs c) :
    c.renumber f = c := by
  cases h with
  | opcode => rfl
  | plain hplain => exact hplain.renumber_eq

theorem Cause.renumber_renumber (c : Cause) :
    (c.renumber f).renumber g = c.renumber (g ∘ f) := by
  cases c <;> rfl

theorem Error.renumber_renumber (e : Error) :
    (e.renumber f).renumber g = e.renumber (g ∘ f) := by
  simp only [renumber, Cause.renumber_renumber, Option.map_map]

theorem Cause.renumber_id (c : Cause) : c.renumber id = c := by
  cases c <;> rfl

theorem Error.renumber_id (e : Error) : e.renumber id = e := by
  simp only [renumber, Cause.renumber_id, Option.map_id_fun, id_eq]

namespace SymbolTable

variable (f : Nat → Nat) (table : SymbolTable) (name : String)

theorem find?_renumber :
    (table.renumber f).find? name = (table.find? name).map (Symbol.renumber f) :=
  List.find?_map

theorem address?_renumber : (table.renumber f).address? name = table.address? name := by
  rw [address?, find?_renumber, Option.map_map]
  rfl

theorem labelAddress?_renumber :
    (table.renumber f).labelAddress? name = table.labelAddress? name := by
  rw [labelAddress?, find?_renumber, Option.filter_map, Option.map_map]
  rfl

theorem suggestion_renumber : (table.renumber f).suggestion name = table.suggestion name := by
  rw [suggestion, renumber, List.map_map]
  rfl

theorem labelSuggestion_renumber :
    (table.renumber f).labelSuggestion name = table.labelSuggestion name := by
  rw [labelSuggestion, renumber, List.filter_map, List.map_map]
  rfl

theorem define_renumber (s : Symbol) : (table.renumber f).define (s.renumber f) =
    mapBoth (Symbol.renumber f) (SymbolTable.renumber f) (table.define s) := by
  have hname : (s.renumber f).name = s.name := rfl
  unfold define
  rw [hname, find?_renumber]
  cases table.find? s.name with
  | none => rfl
  | some first => rfl

end SymbolTable

end Source

namespace Layout

variable (f : Nat → Nat) (l : Layout) (n : Nat)

theorem size_slots_renumber : (l.renumber f).slots.size = l.slots.size := Array.size_map

theorem reserve_renumber (size : Nat) :
    (l.renumber f).reserve size = mapBoth (Cause.renumber f) id (l.reserve size) := by
  unfold reserve
  rw [size_slots_renumber]
  split
  · rfl
  · rfl

theorem slots_renumber (b : Block) : b.slots (f n) = (b.slots n).map (Slot.renumber f) := by
  cases b with
  | instruction op operand => rfl
  | number w => rfl
  | string text => simp [Block.slots, Block.datum, Slot.renumber]
  | buffer size => simp [Block.slots, Block.datum, Slot.renumber]

theorem append_renumber (b : Block) :
    (l.renumber f).append (f n) b = (l.append n b).renumber f := by
  have hslots : l.slots.map (Slot.renumber f) ++ (b.slots n).map (Slot.renumber f) =
      (l.slots ++ b.slots n).map (Slot.renumber f) := by
    apply Array.toList_inj.1
    simp
  simp only [append, renumber, slots_renumber, hslots]

theorem define_renumber (name : String) (kind : SymbolKind) :
    (l.renumber f).define name kind (f n) =
      mapBoth (Cause.renumber f) (Layout.renumber f) (l.define name kind n) := by
  have hdefine := l.symbols.define_renumber f ⟨name, kind, UInt32.ofNat l.slots.size, n⟩
  change (l.renumber f).symbols.define ⟨name, kind, UInt32.ofNat l.slots.size, f n⟩ = _ at hdefine
  unfold define
  rw [size_slots_renumber, hdefine]
  split
  · cases l.symbols.define ⟨name, kind, UInt32.ofNat l.slots.size, n⟩ with
    | ok symbols => rfl
    | error first => rfl
  · rfl

theorem addVariable_renumber (name : String) (b : Block) :
    (l.renumber f).addVariable name (f n) b =
      mapBoth (Cause.renumber f) (Layout.renumber f) (l.addVariable name n b) := by
  unfold addVariable
  rw [reserve_renumber, define_renumber]
  refine bind_mapBoth (fun _ => ?_) (l.reserve b.size)
  refine bind_mapBoth (fun next => ?_) (l.define name .variable n)
  exact congrArg Except.ok (append_renumber f next n b)

/-- A step that tells of no line can come before any that does. -/
theorem bind_renumber_of_isPlain {α : Type} {next next' : α → Except Cause Layout}
    {x : Except Cause α} (hplain : ∀ c, x = .error c → c.IsPlain)
    (hnext : ∀ a, next' a = mapBoth (Cause.renumber f) (Layout.renumber f) (next a)) :
    x >>= next' = mapBoth (Cause.renumber f) (Layout.renumber f) (x >>= next) := by
  cases x with
  | ok a => exact hnext a
  | error c => exact congrArg Except.error (hplain c rfl).renumber_eq.symm

theorem declare_renumber (name : String) (directive : Directive) :
    (l.renumber f).declare name (f n) directive =
      mapBoth (Cause.renumber f) (Layout.renumber f) (l.declare name n directive) := by
  cases directive with
  | vector target =>
    have hhandler : (l.renumber f).handler = l.handler.map (Handler.renumber f) := rfl
    rw [declare, declare, hhandler]
    cases l.handler with
    | none => rfl
    | some first => rfl
  | number literal =>
    rw [declare, declare]
    refine bind_renumber_of_isPlain f (fun c => isPlain_of_numberValue) fun w => ?_
    exact addVariable_renumber f l n name (.number w)
  | string text => exact addVariable_renumber f l n name _
  | buffer size =>
    rw [declare, declare]
    refine bind_renumber_of_isPlain f (fun c => isPlain_of_bufferSize) fun count => ?_
    exact addVariable_renumber f l n name (.buffer count)

theorem enter_renumber (start : Source.Section) :
    (l.renumber f).enter start =
      mapBoth (Cause.renumber f) (Layout.renumber f) (l.enter start) := by
  have hsec : (l.renumber f).sec = l.sec := rfl
  cases start with
  | data => rfl
  | code =>
    rw [enter, enter, hsec]
    split
    · rfl
    · rfl

theorem addStatement_renumber (s : Statement) :
    (l.renumber f).addStatement (f n) s =
      mapBoth (Error.renumber f) (Layout.renumber f) (l.addStatement n s) := by
  cases s with
  | marker start =>
    rw [addStatement, addStatement, enter_renumber]
    refine mapError_mapBoth ?_ _
    exact fun _ => rfl
  | label name =>
    rw [addStatement, addStatement, define_renumber]
    refine mapError_mapBoth ?_ _
    exact fun _ => rfl
  | declaration name directive =>
    rw [addStatement, addStatement, declare_renumber]
    refine mapError_mapBoth ?_ _
    exact fun _ => rfl
  | instruction op operand =>
    rw [addStatement, addStatement, reserve_renumber, append_renumber]
    cases l.reserve 1 with
    | ok u => rfl
    | error c => rfl

/-- A line is added under another number as under its own. -/
theorem addLine_renumber (line : List Char) :
    (l.renumber f).addLine (f n) line =
      mapBoth (Error.renumber f) (Layout.renumber f) (l.addLine n line) := by
  have hsec : (l.renumber f).sec = l.sec := rfl
  unfold addLine
  rw [hsec]
  cases hread : Statement.read l.sec (significant line) with
  | error c =>
    have hcause : c.renumber f = c := (misread_of_read hread).renumber_eq
    simp only [mapBoth, Error.renumber, Error.atLine, Error.ofCause, hcause]
    rfl
  | ok said =>
    cases said with
    | none => rfl
    | some s =>
      simp only [addStatement_renumber]
      refine mapError_mapBoth (fun e => ?_) _
      simp only [Error.renumber, Error.atLine]
      cases e.line with
      | none => rfl
      | some m => rfl

end Layout

section SecondPass

variable (f : Nat → Nat) (table : SymbolTable)

theorem Slot.value_renumber (s : Slot) :
    (s.renumber f).value (table.renumber f) =
      mapBoth (Error.renumber f) id (s.value table) := by
  have hoperand : (s.renumber f).operand = s.operand := rfl
  unfold Slot.value
  rw [hoperand]
  cases s.operand with
  | absent => rfl
  | literal w => rfl
  | symbol name =>
    simp only [SymbolTable.address?_renumber, SymbolTable.suggestion_renumber]
    cases table.address? name with
    | some address => rfl
    | none => rfl

theorem Slot.cell_renumber (address : Nat) (s : Slot) :
    (s.renumber f).cell (table.renumber f) address =
      mapBoth (Error.renumber f) id (s.cell table address) := by
  unfold Slot.cell
  rw [Slot.value_renumber]
  cases s.value table with
  | ok value => rfl
  | error e => rfl

theorem Handler.address_renumber (h : Handler) :
    (h.renumber f).address (table.renumber f) =
      mapBoth (Error.renumber f) id (h.address table) := by
  have htarget : (h.renumber f).target = h.target := rfl
  unfold Handler.address
  rw [htarget]
  simp only [SymbolTable.labelAddress?_renumber, SymbolTable.labelSuggestion_renumber]
  cases table.labelAddress? h.target with
  | some address => rfl
  | none => rfl

namespace Layout

variable (l : Layout)

theorem vector_renumber :
    (l.renumber f).vector = mapBoth (Error.renumber f) id l.vector := by
  have hhandler : (l.renumber f).handler = l.handler.map (Handler.renumber f) := rfl
  unfold Layout.vector
  rw [hhandler]
  cases l.handler with
  | none => rfl
  | some h =>
    change some <$> (h.renumber f).address (l.symbols.renumber f) = _
    rw [Handler.address_renumber]
    change _ = mapBoth _ _ (some <$> h.address l.symbols)
    cases h.address l.symbols with
    | ok w => rfl
    | error e => rfl

theorem memory_renumber :
    (l.renumber f).memory = mapBoth (Error.renumber f) id l.memory := by
  have hslots : (l.renumber f).slots.toList.zipIdx =
      l.slots.toList.zipIdx.map (Prod.map (Slot.renumber f) id) := by
    rw [renumber, Array.toList_map, List.zipIdx_map]
  unfold Layout.memory
  rw [hslots]
  exact mapM_map_mapBoth (fun p => Slot.cell_renumber f l.symbols p.2 p.1) _

/-- The second pass needs the numbers of lines for its errors alone. -/
theorem image_renumber :
    (l.renumber f).image = mapBoth (Error.renumber f) id l.image := by
  unfold Layout.image
  rw [vector_renumber, memory_renumber]
  refine bind_mapBoth (fun vector => ?_) l.vector
  cases l.memory with
  | ok cells => rfl
  | error e => rfl

end Layout

end SecondPass

end Accumulator
