import Accumulator.Proofs.Layout.FaultyLine
import Accumulator.Proofs.Layout.FirstPass

/-!
One line of a source text, once the lines before it are laid out. If the line
cannot be added, the text is refused with its error. If it can, later lines only
put slots behind those that it has laid out, so where the text has an image they
are its cells at their addresses.
-/

namespace Accumulator

open Source Text

/-- The lines in front of the line with this number can be laid out. -/
inductive Reaches (source : List Char) (l : Layout) : Nat → List Char → Prop where
  | mk {before behind : List (List Char)} {line : List Char}
    (hlines : lines source = before ++ line :: behind)
    (hbefore : Layout.addLines 1 {} before = .ok l) : Reaches source l (before.length + 1) line

/-- The line cannot be added, and its error is that of the text. -/
structure Refuses (source : List Char) (l : Layout) (number : Nat) (line : List Char)
    (e : Error) : Prop where
  line : l.addLine number line = .error e
  text : assemble source = .error e

/-- The line is added and lays out these cells and no others. If the text has an image, they stand
there at the addresses of their slots. -/
structure LaysOut (source : List Char) (l : Layout) (number : Nat) (line : List Char)
    (cells : List (Opcode × Word)) : Prop where
  slots : ∃ l', l.addLine number line = .ok l' ∧ l'.slots.toList =
    l.slots.toList ++ cells.map fun d => Block.datum d.1 number d.2
  image : ∀ image, assemble source = .ok image → ∀ i op w, cells[i]? = some (op, w) →
    image.memory[l.slots.size + i]? = some ⟨UInt32.ofNat (l.slots.size + i), op, some w⟩

/-- There is place for a further name and for so many cells. -/
structure Layout.HasPlace (l : Layout) (name : String) (size : Nat) : Prop where
  fresh : l.symbols.find? name = none
  room : l.slots.size + size ≤ Word.count

/-- The name is taken, or the memory. -/
def Source.Cause.NoPlace : Cause → Prop
  | .duplicateSymbol _ _ | .layoutTooLarge _ _ => True
  | _ => False

/-- The line lays out the cells where there is place for them, and nothing but the want of place is
wrong with it elsewhere. -/
structure LaysOutIf (place : Prop) (source : List Char) (l : Layout) (number : Nat)
    (line : List Char) (cells : List (Opcode × Word)) : Prop where
  accepted : place → LaysOut source l number line cells
  crowded : ¬place → ∃ e, Refuses source l number line e ∧ e.cause.NoPlace

namespace Layout

variable {l l' : Layout} {number : Nat} {line : List Char}

theorem slots_prefix_of_addLine (h : l.addLine number line = .ok l') :
    l.slots.toList <+: l'.slots.toList := by
  obtain ⟨said, -, hnext⟩ := addLine_eq_ok_iff.1 h
  cases said with
  | none => exact hnext ▸ List.prefix_rfl
  | some s =>
    obtain ⟨-, rfl⟩ := hnext
    simp [extend]

/-- Further lines leave the slots that there are. -/
theorem slots_prefix_of_addLines {lines : List (List Char)}
    (h : addLines number l lines = .ok l') : l.slots.toList <+: l'.slots.toList := by
  induction lines generalizing number l with
  | nil =>
    cases h
    exact List.prefix_rfl
  | cons line rest ih =>
    rw [addLines] at h
    cases hline : l.addLine number line with
    | error e =>
      rw [hline] at h
      cases h
    | ok next =>
      rw [hline] at h
      exact (slots_prefix_of_addLine hline).trans (ih h)

/-- A slot whose value is known is the cell at its address. -/
theorem getElem?_of_image {image : Image} {i n : Nat} {op : Opcode} {w : Word}
    (h : l.image = .ok image) (hslot : l.slots.toList[i]? = some (Block.datum op n w)) :
    image.memory[i]? = some ⟨UInt32.ofNat i, op, some w⟩ := by
  obtain ⟨vector, -, h⟩ := Checked.bind_eq_ok_iff.1 h
  obtain ⟨cells, hcells, h⟩ := Checked.bind_eq_ok_iff.1 h
  cases h
  have hzip : l.slots.toList.zipIdx[i]? = some (Block.datum op n w, i) := by
    rw [List.getElem?_zipIdx, hslot, Option.map_some, Nat.zero_add]
  obtain ⟨c, hc, hfound⟩ := Checked.getElem?_of_mapM hcells hzip
  cases hc
  rwa [List.getElem?_toArray]

theorem noPlace_of_reserve {n : Nat} {c : Cause} (h : l.reserve n = .error c) : c.NoPlace := by
  unfold reserve at h
  split at h
  · cases h
  · cases h
    trivial

theorem noPlace_of_addVariable {name : String} {b : Block} {c : Cause}
    (h : l.addVariable name number b = .error c) : c.NoPlace := by
  rcases Checked.bind_eq_error_iff.1 h with hreserve | ⟨_, -, hname⟩
  · exact noPlace_of_reserve hreserve
  rcases Checked.bind_eq_error_iff.1 hname with hdefine | ⟨_, -, hnothing⟩
  · unfold define at hdefine
    split at hdefine
    · split at hdefine
      · cases hdefine
      · cases hdefine
        trivial
    · cases hdefine
      trivial
  · cases hnothing

end Layout

namespace Reaches

variable {source : List Char} {l l' : Layout} {number : Nat} {line : List Char} {e : Error}
  {cells : List (Opcode × Word)}

theorem refuses (h : Reaches source l number line) (hline : l.addLine number line = .error e) :
    Refuses source l number line e where
  line := hline
  text := by
    cases h with
    | mk hlines hbefore =>
      exact (faultyLine_of_split hlines hbefore hline).behindAs source rfl

theorem refuses_reading {c : Cause} (h : Reaches source l number line)
    (hread : Statement.read l.sec (significant line) = .error c) :
    Refuses source l number line { cause := c, line := some number } :=
  h.refuses (by rw [Layout.addLine, hread]; rfl)

theorem refuses_declaration {name : String} {directive : Directive} {c : Cause}
    (h : Reaches source l number line) (hread : Statement.read l.sec (significant line) =
      .ok (some (.declaration name directive)))
    (hdeclare : l.declare name number directive = .error c) :
    Refuses source l number line
      { cause := c, line := some number, context := [s!"declaration of '{name}'"] } :=
  h.refuses (by rw [Layout.addLine, hread]; simp only [Layout.addStatement, hdeclare]; rfl)

theorem laysOut (h : Reaches source l number line) (hline : l.addLine number line = .ok l')
    (hslots : l'.slots.toList =
      l.slots.toList ++ cells.map fun d => Block.datum d.1 number d.2) :
    LaysOut source l number line cells where
  slots := ⟨l', hline, hslots⟩
  image := by
    intro image himage i op w hcell
    obtain ⟨last, hlast, himage⟩ := Checked.bind_eq_ok_iff.1 himage
    have hprefix : l'.slots.toList <+: last.slots.toList := by
      cases h with
      | @mk before behind _ hlines hbefore =>
        rw [Layout.ofSource, hlines, Layout.addLines_append, hbefore] at hlast
        change Layout.addLines _ l (line :: behind) = _ at hlast
        rw [Layout.addLines, Nat.add_comm 1, hline] at hlast
        exact Layout.slots_prefix_of_addLines hlast
    obtain ⟨later, hlater⟩ := hprefix
    refine Layout.getElem?_of_image (n := number) himage ?_
    have hblock : (cells.map fun d => Block.datum d.1 number d.2)[i]? =
        some (Block.datum op number w) := by
      rw [List.getElem?_map, hcell]
      rfl
    have hsize : l.slots.toList.length = l.slots.size := Array.length_toList
    obtain ⟨hbound, -⟩ := List.getElem?_eq_some_iff.1 hblock
    rw [← hlater, hslots, List.append_assoc, List.getElem?_append_right (by omega), hsize,
      Nat.add_sub_cancel_left, List.getElem?_append_left hbound, hblock]

/-- An instruction whose operand is known takes a single cell. -/
theorem instruction {op : Opcode} {w : Word} (h : Reaches source l number line)
    (hread : Statement.read l.sec (significant line) =
      .ok (some (.instruction op (.literal w)))) :
    LaysOutIf (l.slots.size < Word.count) source l number line [(op, w)] := by
  have hadd : l.addLine number line = (((l.reserve 1).mapError Error.ofCause).map fun _ =>
      l.append number (.instruction op (.literal w))).mapError (Error.atLine number) := by
    rw [Layout.addLine, hread]
    rfl
  constructor
  · intro hplace
    have hreserve : l.reserve 1 = .ok () := Layout.reserve_eq_ok_iff.2 hplace
    rw [hreserve] at hadd
    exact h.laysOut hadd Array.toList_appendList
  · intro hplace
    have hreserve : l.reserve 1 = .error (.layoutTooLarge l.slots.size 1) := if_neg hplace
    rw [hreserve] at hadd
    exact ⟨_, h.refuses hadd, trivial⟩

/-- A declaration of a variable takes the cells of its block. -/
theorem declaration {name : String} {directive : Directive} {b : Block}
    (h : Reaches source l number line) (hread : Statement.read l.sec (significant line) =
      .ok (some (.declaration name directive)))
    (hdeclare : l.declare name number directive = l.addVariable name number b)
    (hcells : b.slots number = cells.map fun d => Block.datum d.1 number d.2)
    (hsome : cells ≠ []) :
    LaysOutIf (l.HasPlace name cells.length) source l number line cells := by
  have hsize : b.size = cells.length := by
    rw [← Block.length_slots number b, hcells, List.length_map]
  have hadd : l.addLine number line = ((l.addVariable name number b).mapError fun c =>
      (Error.ofCause c).within s!"declaration of '{name}'").mapError (Error.atLine number) := by
    rw [Layout.addLine, hread, ← hdeclare]
    rfl
  constructor
  · rintro ⟨hfresh, hroom⟩
    have haddress : l.slots.size < Word.count := by
      have := List.length_pos_iff.2 hsome
      omega
    rw [Layout.addVariable_eq_ok_iff.2 ⟨hsize ▸ hroom, haddress, hfresh, rfl⟩] at hadd
    exact h.laysOut hadd (by rw [← hcells]; exact Array.toList_appendList)
  · intro hplace
    cases hvariable : l.addVariable name number b with
    | ok next =>
      obtain ⟨hroom, -, hfresh, -⟩ := Layout.addVariable_eq_ok_iff.1 hvariable
      exact absurd ⟨hfresh, hsize ▸ hroom⟩ hplace
    | error c =>
      rw [hvariable] at hadd
      exact ⟨_, h.refuses hadd, Layout.noPlace_of_addVariable hvariable⟩

end Reaches

end Accumulator
