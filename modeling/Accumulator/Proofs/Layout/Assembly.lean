import Accumulator.Layout.Resolve
import Accumulator.Proofs.Layout.FirstPass

/-!
Assembling a source text arrives at what its statements say at once. The second
pass gives every operand the address of its name, so the image is the blocks of
the statements one behind the other with each cell indexed by its address. It
succeeds exactly if the names it needs are defined.
-/

namespace Accumulator

open Source Text

namespace Source

/-- The image that the statements say: their blocks one behind the other, and
the address of the handler if one is declared. -/
def imageOf (program : List Statement) : Image where
  vector := (targets program).head?.bind fun name => Operand.value program (.symbol name)
  memory := ((program.flatMap Statement.block).zipIdx.map fun ((op, operand), address) =>
    (⟨UInt32.ofNat address, op, operand.value program⟩ : Cell)).toArray

/-- Whether an image is the one that the statements say. -/
structure Realizes (image : Image) (program : List Statement) : Prop where
  cells : image.memory.toList.map (fun c => (c.opcode, c.value)) =
    (program.flatMap Statement.block).map fun (op, operand) => (op, operand.value program)
  indexed : image.Indexed
  /-- A name stands for the total size of the blocks before its definition. -/
  addresses : ∀ before s after name, program = before ++ s :: after → s.defines = some name →
    ∃ w, Operand.value program (.symbol name) = some w ∧ w.toNat = totalSize before
  vector : image.vector =
    (targets program).head?.bind fun name => Operand.value program (.symbol name)

/-- Operands come from instructions only; the blocks of data hold words. -/
theorem symbol_mem_blocks_iff {program : List Statement} {op : Opcode} {name : String} :
    (op, Operand.symbol name) ∈ program.flatMap Statement.block ↔
      .instruction op (.symbol name) ∈ program := by
  rw [List.mem_flatMap]
  constructor
  · rintro ⟨s, hs, hmem⟩
    cases s with
    | marker start => simp [Statement.block] at hmem
    | label other => simp [Statement.block] at hmem
    | instruction other operand =>
      simp only [Statement.block, List.mem_singleton, Prod.mk.injEq] at hmem
      obtain ⟨rfl, rfl⟩ := hmem
      exact hs
    | declaration other directive => cases directive <;> simp [Statement.block] at hmem
  · intro hs
    exact ⟨_, hs, by simp [Statement.block]⟩

theorem mem_definedNames_of_label {program : List Statement} {name : String}
    (h : .label name ∈ program) : name ∈ definedNames program :=
  List.mem_filterMap.mpr ⟨_, h, rfl⟩

theorem value_symbol_of_defined {program : List Statement} {name : String}
    (h : name ∈ definedNames program) : ∃ w, Operand.value program (.symbol name) = some w := by
  cases haddress : address? name program with
  | none => exact absurd h ((address?_eq_none_iff name program).mp haddress)
  | some address => exact ⟨UInt32.ofNat address, by simp [Operand.value, haddress]⟩

end Source

namespace Layout

variable {l : Layout} {program : List Statement}

theorem Holds.value_eq_ok_iff (h : l.Holds program) (s : Slot) (value : Option Word) :
    s.value l.symbols = .ok value ↔
      (∀ name, s.operand = .symbol name → name ∈ definedNames program) ∧
        value = s.operand.value program := by
  unfold Slot.value
  cases hoperand : s.operand with
  | absent => simp [Operand.value, eq_comm]
  | literal w => simp [Operand.value, eq_comm]
  | symbol name =>
    simp only [h.addresses, Operand.value]
    cases haddress : address? name program with
    | none =>
      have hundefined := (address?_eq_none_iff name program).mp haddress
      simp [hundefined]
    | some address =>
      have hdefined : name ∈ definedNames program := by
        by_contra hundefined
        rw [(address?_eq_none_iff name program).mpr hundefined] at haddress
        cases haddress
      simp [hdefined, eq_comm]

theorem Holds.cell_eq_ok_iff (h : l.Holds program) (s : Slot) (address : Nat) (c : Cell) :
    s.cell l.symbols address = .ok c ↔
      (∀ name, s.operand = .symbol name → name ∈ definedNames program) ∧
        c = ⟨UInt32.ofNat address, s.opcode, s.operand.value program⟩ := by
  have hcell := Checked.map_eq_ok_iff (x := s.value l.symbols)
    (f := fun value => (⟨UInt32.ofNat address, s.opcode, value⟩ : Cell)) (b := c)
  simp only [h.value_eq_ok_iff] at hcell
  refine hcell.trans ?_
  constructor
  · rintro ⟨value, ⟨hdefined, rfl⟩, rfl⟩
    exact ⟨hdefined, rfl⟩
  · rintro ⟨hdefined, rfl⟩
    exact ⟨_, ⟨hdefined, rfl⟩, rfl⟩

theorem Holds.memory_eq_ok_iff (h : l.Holds program) (cells : List Cell) :
    l.memory = .ok cells ↔
      (∀ op name, .instruction op (.symbol name) ∈ program → name ∈ definedNames program) ∧
        cells = (imageOf program).memory.toList := by
  have hresolve : ∀ x ∈ l.slots.toList.zipIdx, ∀ c, x.1.cell l.symbols x.2 = .ok c ↔
      (∀ name, x.1.operand = .symbol name → name ∈ definedNames program) ∧
        c = ⟨UInt32.ofNat x.2, x.1.opcode, x.1.operand.value program⟩ := by
    intro x _ c
    exact h.cell_eq_ok_iff x.1 x.2 c
  have hslots : ∀ op name, (∃ s ∈ l.slots.toList, s.content = (op, .symbol name)) ↔
      .instruction op (.symbol name) ∈ program := by
    intro op name
    rw [← symbol_mem_blocks_iff, ← h.slots, List.mem_map]
  have hcells : (imageOf program).memory.toList = l.slots.toList.zipIdx.map fun x =>
      (⟨UInt32.ofNat x.2, x.1.opcode, x.1.operand.value program⟩ : Cell) := by
    simp [imageOf, ← h.slots, List.zipIdx_map, Slot.content, Function.comp_def]
  rw [memory, Checked.mapM_eq_ok_iff hresolve, hcells]
  refine and_congr_left fun _ => ?_
  constructor
  · intro hdefined op name hs
    obtain ⟨s, hs, hcontent⟩ := (hslots op name).mpr hs
    obtain ⟨address, haddress⟩ := List.mem_iff_getElem?.mp hs
    have hmem : (s, address) ∈ l.slots.toList.zipIdx :=
      List.mk_mem_zipIdx_iff_getElem?.mpr haddress
    exact hdefined _ hmem name (congrArg Prod.snd hcontent)
  · rintro hdefined ⟨s, address⟩ hmem name hoperand
    refine hdefined s.opcode name ((hslots s.opcode name).mp ⟨s, ?_, ?_⟩)
    · exact List.fst_mem_of_mem_zipIdx hmem
    · rw [Slot.content, hoperand]

theorem Holds.vector_eq_ok_iff (h : l.Holds program) (hc : Consistent program)
    (vector : Option Word) :
    l.vector = .ok vector ↔
      (∀ name ∈ targets program, .label name ∈ program) ∧ vector = (imageOf program).vector := by
  have hhandler := h.handler
  have hone := hc.oneVector
  unfold Layout.vector
  cases hl : l.handler with
  | none =>
    have hempty : targets program = [] := by
      rw [hl] at hhandler
      exact List.head?_eq_none_iff.mp hhandler.symm
    simp [imageOf, hempty, eq_comm]
  | some handler =>
    have htargets : targets program = [handler.target] := by
      cases ht : targets program with
      | nil => simp [hl, ht] at hhandler
      | cons first rest =>
        rw [ht, List.length_cons] at hone
        have hrest : rest = [] := List.length_eq_zero_iff.mp (by omega)
        simp_all
    simp only [htargets, List.forall_mem_singleton, imageOf, List.head?_cons, Option.bind_some,
      Checked.map_eq_ok_iff, Handler.address, h.labels, h.addresses]
    by_cases hlabel : .label handler.target ∈ program
    · obtain ⟨w, hw⟩ := value_symbol_of_defined (mem_definedNames_of_label hlabel)
      have haddress : (address? handler.target program).map UInt32.ofNat = some w := hw
      simp [hlabel, hw, haddress, eq_comm]
    · simp [hlabel]

/-- A layout of consistent statements becomes an image exactly if they are a
program, and then it becomes the image that they say. -/
theorem Holds.image_eq_ok_iff (h : l.Holds program) (hc : Consistent program) (image : Image) :
    l.image = .ok image ↔ WellFormed program ∧ image = imageOf program := by
  simp only [Layout.image, Checked.bind_eq_ok_iff, h.vector_eq_ok_iff hc, h.memory_eq_ok_iff,
    pure, Except.pure, Except.ok.injEq]
  constructor
  · rintro ⟨vector, ⟨hlabel, rfl⟩, cells, ⟨hdefined, rfl⟩, rfl⟩
    exact ⟨⟨hc, hlabel, hdefined⟩, rfl⟩
  · rintro ⟨hw, rfl⟩
    exact ⟨_, ⟨hw.vectorLabel, rfl⟩, _, ⟨hw.operandsDefined, rfl⟩, rfl⟩

end Layout

namespace Source

variable {program : List Statement}

theorem getElem?_imageOf {i : Nat} {c : Cell} (h : (imageOf program).memory[i]? = some c) :
    c.index = UInt32.ofNat i ∧
      (program.flatMap Statement.block)[i]?.map (fun (op, operand) =>
        (op, operand.value program)) = some (c.opcode, c.value) := by
  simp only [imageOf, List.getElem?_toArray, List.getElem?_map, List.getElem?_zipIdx,
    Option.map_map, Option.map_eq_some_iff] at h
  obtain ⟨⟨op, operand⟩, hblock, rfl⟩ := h
  simp [hblock]

/-- Every cell is indexed by its address as long as addresses are words. -/
theorem indexed_imageOf (hsize : totalSize program ≤ Word.count) : (imageOf program).Indexed := by
  intro i c hc
  have hi : i < totalSize program := by
    obtain ⟨hbound, _⟩ := Array.getElem?_eq_some_iff.mp hc
    simpa only [imageOf, List.size_toArray, List.length_map, List.length_zipIdx,
      length_blocks] using hbound
  have hword : i < 2 ^ 32 := Nat.lt_of_lt_of_le hi hsize
  rw [(getElem?_imageOf hc).1, UInt32.toNat_ofNat_of_lt' hword]

theorem realizes_imageOf (hc : Consistent program) (hsize : totalSize program < Word.count) :
    Realizes (imageOf program) program where
  cells := by
    conv_rhs => rw [← List.zipIdx_map_fst 0 (program.flatMap Statement.block)]
    simp only [imageOf, List.map_map, Function.comp_def]
  indexed := indexed_imageOf (Nat.le_of_lt hsize)
  addresses := by
    rintro before s after name rfl hs
    have hbefore : totalSize before < 2 ^ 32 := by
      rw [totalSize_append] at hsize
      exact Nat.lt_of_le_of_lt (Nat.le_add_right _ _) hsize
    refine ⟨UInt32.ofNat (totalSize before), ?_, UInt32.toNat_ofNat_of_lt' hbefore⟩
    simp [Operand.value, address?_of_split hc.distinct hs]
  vector := rfl

end Source

/-- A source text that is assembled reads line by line, its statements are a
program, and its image is the one that they say. -/
theorem reads_of_assemble {source : List Char} {image : Image}
    (h : assemble source = .ok image) :
    Reads source ∧ WellFormed (program source) ∧ image = imageOf (program source) ∧
      totalSize (program source) ≤ Word.count := by
  obtain ⟨l, hlayout, himage⟩ := Checked.bind_eq_ok_iff.mp h
  obtain ⟨hreads, hc, hholds⟩ := Layout.holds_empty.addLines consistent_nil hlayout
  obtain ⟨hw, rfl⟩ := (hholds.image_eq_ok_iff hc image).mp himage
  exact ⟨hreads, hw, rfl, hholds.size_slots ▸ hholds.bounded⟩

/-- Which source texts have an image, and which image: their lines read, their statements are a
program, and that has room. -/
theorem assemble_eq_ok_iff {source : List Char} {image : Image} :
    assemble source = .ok image ↔ Reads source ∧ WellFormed (program source) ∧
      Fits (program source) ∧ image = imageOf (program source) := by
  constructor
  · intro h
    obtain ⟨hreads, hw, himage, -⟩ := reads_of_assemble h
    obtain ⟨l, hlayout, -⟩ := Checked.bind_eq_ok_iff.mp h
    exact ⟨hreads, hw, Layout.holds_empty.fits_addLines fits_nil hlayout, himage⟩
  · rintro ⟨hreads, hw, hfits, rfl⟩
    have hc : Consistent (program source) := hw.toConsistent
    obtain ⟨l, hlayout⟩ := Layout.holds_empty.exists_addLines_of_fits 1 hreads hc hfits
    have hholds := (Layout.holds_empty.addLines consistent_nil hlayout).2.2
    exact Checked.bind_eq_ok_iff.mpr ⟨l, hlayout, (hholds.image_eq_ok_iff hc _).mpr ⟨hw, rfl⟩⟩

/-- Assembling is reading the source at once. Where the cells can be counted in a
word, a source text has an image exactly if each of its lines reads in its
section and its statements are a program, and the image is the one that the
statements say. -/
theorem assemble_iff_wellFormed (source : List Char)
    (hsize : totalSize (program source) < Word.count) :
    ((∃ image, assemble source = .ok image) ↔ Reads source ∧ WellFormed (program source)) ∧
      ∀ image, assemble source = .ok image → Realizes image (program source) := by
  refine ⟨⟨?_, ?_⟩, ?_⟩
  · rintro ⟨image, himage⟩
    obtain ⟨hreads, hw, _⟩ := reads_of_assemble himage
    exact ⟨hreads, hw⟩
  · rintro ⟨hreads, hw⟩
    have hc : Consistent (program source) := hw.toConsistent
    obtain ⟨l, hlayout⟩ := Layout.holds_empty.exists_addLines 1 hreads hc hsize
    have hholds := (Layout.holds_empty.addLines consistent_nil hlayout).2.2
    have himage := (hholds.image_eq_ok_iff hc _).mpr ⟨hw, rfl⟩
    exact ⟨_, Checked.bind_eq_ok_iff.mpr ⟨l, hlayout, himage⟩⟩
  · intro image himage
    obtain ⟨_, hw, rfl, _⟩ := reads_of_assemble himage
    exact realizes_imageOf hw.toConsistent hsize

/-- A jump forward to the label of the interrupt handler. -/
def forwardJump : List Char :=
  "JUMP end\nend: ; stops\nHALT\n.data:\nirq VECTOR end\ntext STRING hi".toList

theorem assemble_forwardJump :
    totalSize (program forwardJump) < Word.count ∧
      ∃ image, assemble forwardJump = .ok image ∧ image.vector = some 1 ∧
        image.memory = #[⟨0, .jump, some 1⟩, ⟨1, .halt, none⟩, ⟨2, .string, some 2⟩,
          ⟨3, .string, some 104⟩, ⟨4, .string, some 105⟩] ∧
        Realizes image (program forwardJump) := by
  have hsize : totalSize (program forwardJump) < Word.count := by decide +kernel
  have himage : assemble forwardJump = .ok ⟨some 1, #[⟨0, .jump, some 1⟩, ⟨1, .halt, none⟩,
      ⟨2, .string, some 2⟩, ⟨3, .string, some 104⟩, ⟨4, .string, some 105⟩]⟩ := by decide +kernel
  exact ⟨hsize, _, himage, rfl, rfl, (assemble_iff_wellFormed forwardJump hsize).2 _ himage⟩

end Accumulator
