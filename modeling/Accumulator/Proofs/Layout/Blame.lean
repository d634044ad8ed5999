import Accumulator.Proofs.Layout.Assembly
import Accumulator.Proofs.Layout.FaultyLine

/-!
Which line a translation error blames. A line that cannot be added comes first.
If there is none, the statements are known with their lines, and the second pass
blames the declaration of the handler if its target is no label, or else the
first instruction whose operand is a name that is not defined.
-/

namespace Accumulator

open Source Text Checked

theorem findSome?_flatMap {α β γ : Type} (f : α → List β) (g : β → Option γ) (xs : List α) :
    (xs.flatMap f).findSome? g = xs.findSome? fun x => (f x).findSome? g := by
  induction xs with
  | nil => rfl
  | cons x rest ih =>
    rw [List.flatMap_cons, List.findSome?_append, List.findSome?_cons, ih]
    cases (f x).findSome? g with
    | none => rfl
    | some c => rfl

namespace Source

/-- The statements that were read, with the numbers of their lines. -/
def numberedFrom (first : Nat) (readings : List (Except Cause (Option Statement))) :
    List (Nat × Statement) :=
  (readings.zipIdx first).filterMap fun (reading, n) =>
    reading.toOption.join.map fun s => (n, s)

/-- The statements of a source text with the numbers of their lines, which count from one. -/
def numbered (source : List Char) : List (Nat × Statement) := numberedFrom 1 (readings source)

/-- The line that an error of a source text blames. -/
inductive Blames (source : List Char) : Error → Nat → Prop where
  | line {e : Error} {n : Nat} (hfaulty : FaultyLine source e n) : Blames source e n
  | vector {l : Layout} {n : Nat} {name target : String} (hlaid : Layout.ofSource source = .ok l)
    (hdeclared : (n, .declaration name (.vector target)) ∈ numbered source)
    (hlabel : .label target ∉ program source) :
    Blames source
      { cause := .unresolvedSymbol target (l.symbols.labelSuggestion target)
        line := some n
        context := [s!"interrupt vector '{name}' must name a label"] } n
  | operand {l : Layout} {n : Nat} {op : Opcode} {name : String}
    {before behind : List (Nat × Statement)} (hlaid : Layout.ofSource source = .ok l)
    (hvector : ∀ target ∈ targets (program source), .label target ∈ program source)
    (hnumbered : numbered source = before ++ (n, .instruction op (.symbol name)) :: behind)
    (hfirst : ∀ m other defined, (m, .instruction other (.symbol defined)) ∈ before →
      defined ∈ definedNames (program source))
    (hundefined : name ∉ definedNames (program source)) :
    Blames source
      { cause := .unresolvedSymbol name (l.symbols.suggestion name), line := some n } n

/-- The operand if it is a name that the program does not define. -/
def Operand.dangling? (program : List Statement) : Operand → Option String
  | .symbol name => if name ∈ definedNames program then none else some name
  | _ => none

def Statement.dangling? (program : List Statement) : Statement → Option String
  | .instruction _ operand => operand.dangling? program
  | _ => none

section Dangling

variable {program : List Statement} {s : Statement} {operand : Operand} {name : String}

theorem Operand.dangling?_eq_some_iff : operand.dangling? program = some name ↔
    operand = .symbol name ∧ name ∉ definedNames program := by
  cases operand with
  | absent | literal => simp [dangling?]
  | symbol other =>
    by_cases hdefined : other ∈ definedNames program
    · simp only [dangling?, hdefined, if_true, reduceCtorEq, symbol.injEq, false_iff]
      rintro ⟨rfl, hundefined⟩
      exact hundefined hdefined
    · simp only [dangling?, hdefined, if_false, Option.some.injEq, symbol.injEq]
      constructor
      · rintro rfl
        exact ⟨rfl, hdefined⟩
      · exact fun h => h.1

theorem Statement.dangling?_eq_some_iff : s.dangling? program = some name ↔
    (∃ op, s = .instruction op (.symbol name)) ∧ name ∉ definedNames program := by
  cases s with
  | marker | label | declaration => simp [dangling?]
  | instruction op operand =>
    rw [dangling?, Operand.dangling?_eq_some_iff]
    simp

theorem Statement.dangling?_eq_none_iff : s.dangling? program = none ↔
    ∀ op name, s = .instruction op (.symbol name) → name ∈ definedNames program := by
  rw [Option.eq_none_iff_forall_ne_some]
  constructor
  · intro h op name hs
    by_contra hname
    exact h name (dangling?_eq_some_iff.2 ⟨⟨op, hs⟩, hname⟩)
  · intro h name hs
    obtain ⟨⟨op, hs⟩, hname⟩ := dangling?_eq_some_iff.1 hs
    exact hname (h op name hs)

end Dangling

section Numbered

variable {first n : Nat} {s : Statement} {readings : List (Except Cause (Option Statement))}

theorem numberedFrom_cons (first : Nat) (reading : Except Cause (Option Statement))
    (readings : List (Except Cause (Option Statement))) :
    numberedFrom first (reading :: readings) =
      (reading.toOption.join.map fun s => (first, s)).toList ++
        numberedFrom (first + 1) readings := by
  rw [numberedFrom, List.zipIdx_cons]
  simp only [List.filterMap_cons]
  cases reading.toOption.join with
  | none => rfl
  | some s => rfl

theorem map_snd_numberedFrom (first : Nat) (readings : List (Except Cause (Option Statement))) :
    (numberedFrom first readings).map Prod.snd = statementsOf readings := by
  induction readings generalizing first with
  | nil => rfl
  | cons reading rest ih =>
    rw [numberedFrom_cons, List.map_append, ih, statementsOf, statementsOf, List.filterMap_cons]
    cases reading.toOption.join with
    | none => rfl
    | some s => rfl

theorem bounds_of_mem_numberedFrom (h : (n, s) ∈ numberedFrom first readings) :
    first ≤ n ∧ n < first + readings.length := by
  obtain ⟨⟨reading, m⟩, hmem, hs⟩ := List.mem_filterMap.1 h
  obtain ⟨t, -, ht⟩ := Option.map_eq_some_iff.1 hs
  cases ht
  exact ⟨List.le_snd_of_mem_zipIdx hmem, List.snd_lt_add_of_mem_zipIdx hmem⟩

theorem length_readLines (sec : Source.Section) (lines : List (List Char)) :
    (readLines sec lines).length = lines.length := by
  induction lines generalizing sec with
  | nil => rfl
  | cons line rest ih => rw [readLines, List.length_cons, List.length_cons, ih]

theorem bounds_of_mem_numbered {source : List Char} (h : (n, s) ∈ numbered source) :
    1 ≤ n ∧ n ≤ (lines source).length := by
  obtain ⟨hfirst, hlast⟩ := bounds_of_mem_numberedFrom h
  rw [readings, length_readLines] at hlast
  omega

end Numbered

end Source

namespace Layout

variable {l l' : Layout} {e : Error} {first number : Nat} {line : List Char}

section SecondPass

variable {placed : List (Nat × Statement)} {program : List Statement} {n : Nat} {s : Statement}

/-- The slots of a statement on the given line. -/
def slotsOf (n : Nat) (s : Statement) : List Slot :=
  s.block.map fun (op, operand) => ⟨op, operand, n⟩

/-- The layout knows of each slot and of the handler from which line it comes. -/
structure Placed (l : Layout) (placed : List (Nat × Statement)) : Prop where
  slots : l.slots.toList = placed.flatMap fun (n, s) => slotsOf n s
  handler : l.handler = (placed.filterMap fun (n, s) => s.handler? n).getLast?

theorem placed_empty : ({} : Layout).Placed [] := ⟨rfl, rfl⟩

theorem Placed.extend (h : l.Placed placed) (n : Nat) (s : Statement) :
    (l.extend n s).Placed (placed ++ [(n, s)]) where
  slots := by
    rw [List.flatMap_append, List.flatMap_singleton, ← h.slots]
    simp [Layout.extend, slotsOf]
  handler := by
    rw [List.filterMap_append, List.getLast?_append, ← h.handler]
    cases hs : s.handler? n with
    | none => simp [Layout.extend, hs]
    | some handler => simp [Layout.extend, hs]

/-- What every further statement preserves holds when all lines have been added. -/
theorem addLines_induction (P : Layout → List (Nat × Statement) → Prop)
    (hextend : ∀ {l placed} n s, P l placed → P (l.extend n s) (placed ++ [(n, s)]))
    {lines : List (List Char)} (h : P l placed) (hadd : Layout.addLines first l lines = .ok l') :
    P l' (placed ++ numberedFrom first (readLines l.sec lines)) := by
  induction lines generalizing l placed first with
  | nil =>
    cases hadd
    rw [readLines]
    exact (List.append_nil placed).symm ▸ h
  | cons line rest ih =>
    rw [Layout.addLines] at hadd
    cases hline : l.addLine first line with
    | error e => simp [hline] at hadd
    | ok next =>
      simp only [hline] at hadd
      have hsec := sec_of_addLine hline
      obtain ⟨said, hread, hnext⟩ := addLine_eq_ok_iff.mp hline
      rw [readLines, hsec, numberedFrom_cons, hread, ← List.append_assoc]
      apply ih ?_ hadd
      cases said with
      | none =>
        subst hnext
        exact (List.append_nil placed).symm ▸ h
      | some s =>
        obtain ⟨-, rfl⟩ := hnext
        exact hextend first s h

theorem Placed.addLines {lines : List (List Char)} (h : l.Placed placed)
    (hadd : Layout.addLines first l lines = .ok l') :
    l'.Placed (placed ++ numberedFrom first (readLines l.sec lines)) :=
  addLines_induction Placed (fun n s h => h.extend n s) h hadd

/-- What is known of a source text that has been laid out. -/
theorem laid_of_ofSource {source : List Char} (h : ofSource source = .ok l) :
    l.Holds (Source.program source) ∧ Consistent (Source.program source) ∧
      l.Placed (numbered source) := by
  obtain ⟨-, hconsistent, hholds⟩ := holds_empty.addLines consistent_nil h
  exact ⟨hholds, hconsistent, placed_empty.addLines h⟩

/-- The error for a name that an operand on the line needs. -/
def unresolved (l : Layout) (n : Nat) (name : String) : Error where
  cause := .unresolvedSymbol name (l.symbols.suggestion name)
  line := some n

/-- The error for the target of a handler. -/
def unlabelled (l : Layout) (h : Handler) : Error where
  cause := .unresolvedSymbol h.target (l.symbols.labelSuggestion h.target)
  line := some h.line
  context := [s!"interrupt vector '{h.name}' must name a label"]

theorem error?_value (h : l.Holds program) (slot : Slot) : error? (slot.value l.symbols) =
    (slot.operand.dangling? program).map (l.unresolved slot.line) := by
  unfold Slot.value
  cases slot.operand with
  | absent | literal => rfl
  | symbol name =>
    simp only [h.addresses, Operand.dangling?]
    cases haddress : address? name program with
    | none =>
      rw [if_neg ((address?_eq_none_iff name program).1 haddress)]
      rfl
    | some address =>
      have hdefined : name ∈ definedNames program := by
        by_contra hundefined
        rw [(address?_eq_none_iff name program).2 hundefined] at haddress
        cases haddress
      rw [if_pos hdefined]
      rfl

/-- Only instructions have slots that wait for names. -/
theorem error?_slotsOf (h : l.Holds program) (n : Nat) (s : Statement) :
    (slotsOf n s).findSome? (fun slot => error? (slot.value l.symbols)) =
      (s.dangling? program).map (l.unresolved n) := by
  simp only [error?_value h]
  cases s with
  | marker | label => rfl
  | instruction op operand => exact List.findSome?_singleton
  | declaration name directive =>
    refine List.findSome?_eq_none_iff.2 fun slot hslot => ?_
    obtain ⟨⟨op, operand⟩, hblock, rfl⟩ := List.mem_map.1 hslot
    cases operand with
    | absent | literal => rfl
    | symbol other =>
      have hmem : (op, .symbol other) ∈
          [Statement.declaration name directive].flatMap Statement.block := by
        rwa [List.flatMap_singleton]
      cases List.mem_singleton.1 (symbol_mem_blocks_iff.1 hmem)

theorem error?_memory (h : l.Holds program) (hplaced : l.Placed placed) : error? l.memory =
    placed.findSome? fun (n, s) => (s.dangling? program).map (l.unresolved n) := by
  have hslots : error? l.memory =
      l.slots.toList.findSome? fun slot => error? (slot.value l.symbols) := by
    conv_rhs => rw [← List.zipIdx_map_fst 0 l.slots.toList, List.findSome?_map]
    rw [memory, error?_mapM]
    refine congrArg (fun f => List.findSome? f _) (funext fun x => ?_)
    exact error?_map _ _
  rw [hslots, hplaced.slots, findSome?_flatMap]
  simp only [error?_slotsOf h]

theorem error?_vector (h : l.Holds program) : error? l.vector =
    l.handler.bind fun handler =>
      if .label handler.target ∈ program then none else some (l.unlabelled handler) := by
  unfold Layout.vector
  cases l.handler with
  | none => rfl
  | some handler =>
    rw [error?_map, Option.bind_some, Handler.address, h.labels, h.addresses]
    by_cases hlabel : .label handler.target ∈ program
    · obtain ⟨w, hw⟩ := value_symbol_of_defined (mem_definedNames_of_label hlabel)
      have haddress : (address? handler.target program).map UInt32.ofNat = some w := hw
      simp only [hlabel, if_true, haddress]
      rfl
    · simp only [hlabel, if_false]
      rfl

theorem error?_image (l : Layout) : error? l.image = (error? l.vector).or (error? l.memory) :=
  error?_both l.vector l.memory fun vector memory => Image.mk vector memory.toArray

theorem handler?_eq_some_iff {handler : Handler} : s.handler? n = some handler ↔
    n = handler.line ∧ s = .declaration handler.name (.vector handler.target) := by
  constructor
  · intro h
    unfold Statement.handler? at h
    split at h
    next =>
      cases h
      exact ⟨rfl, rfl⟩
    next => nomatch h
  · rintro ⟨rfl, rfl⟩
    rfl

/-- The handler of a layout is the one that is declared, if there are no two of them. -/
theorem Placed.handler_iff (h : l.Placed placed)
    (hone : (targets (placed.map Prod.snd)).length ≤ 1) {handler : Handler} :
    l.handler = some handler ↔
      (handler.line, .declaration handler.name (.vector handler.target)) ∈ placed := by
  have hmem : handler ∈ placed.filterMap (fun (n, s) => s.handler? n) ↔
      (handler.line, .declaration handler.name (.vector handler.target)) ∈ placed := by
    rw [List.mem_filterMap]
    constructor
    · rintro ⟨⟨n, s⟩, hplaced, hs⟩
      obtain ⟨rfl, rfl⟩ := handler?_eq_some_iff.1 hs
      exact hplaced
    · intro hplaced
      exact ⟨_, hplaced, rfl⟩
  have htargets : (placed.filterMap fun (n, s) => s.handler? n).map Handler.target =
      targets (placed.map Prod.snd) := by
    rw [targets, List.map_filterMap, List.filterMap_map]
    exact congrArg (fun f => List.filterMap f placed) (funext fun p => p.2.target_handler? p.1)
  rw [← htargets, List.length_map] at hone
  rw [h.handler, ← hmem]
  cases hhandlers : placed.filterMap (fun (n, s) => s.handler? n) with
  | nil => simp
  | cons first rest =>
    rw [hhandlers, List.length_cons] at hone
    have hrest : rest = [] := List.length_eq_zero_iff.1 (by omega)
    rw [hrest, List.getLast?_singleton, List.mem_singleton, Option.some.injEq, eq_comm]

end SecondPass

end Layout

theorem map_snd_numbered (source : List Char) :
    (numbered source).map Prod.snd = program source :=
  map_snd_numberedFrom 1 (readings source)

section Laid

variable {source : List Char} {l : Layout} {e : Error}

theorem vector_error_iff (hlaid : Layout.ofSource source = .ok l) :
    error? l.vector = some e ↔ ∃ handler : Handler,
      (handler.line, .declaration handler.name (.vector handler.target)) ∈ numbered source ∧
        .label handler.target ∉ program source ∧ e = l.unlabelled handler := by
  obtain ⟨hholds, hconsistent, hplaced⟩ := Layout.laid_of_ofSource hlaid
  have hone : (targets ((numbered source).map Prod.snd)).length ≤ 1 := by
    rw [map_snd_numbered]
    exact hconsistent.oneVector
  rw [Layout.error?_vector hholds, Option.bind_eq_some_iff]
  refine exists_congr fun handler => ?_
  rw [hplaced.handler_iff hone]
  refine and_congr_right fun _ => ?_
  by_cases hlabel : .label handler.target ∈ program source
  · simp [hlabel]
  · simp [hlabel, eq_comm]

theorem vector_laid_iff (hlaid : Layout.ofSource source = .ok l) :
    error? l.vector = none ↔
      ∀ target ∈ targets (program source), .label target ∈ program source := by
  obtain ⟨hholds, hconsistent, -⟩ := Layout.laid_of_ofSource hlaid
  rw [error?_eq_none_iff]
  simp only [hholds.vector_eq_ok_iff hconsistent]
  exact ⟨fun ⟨_, hlabels, _⟩ => hlabels, fun hlabels => ⟨_, hlabels, rfl⟩⟩

theorem memory_error_iff (hlaid : Layout.ofSource source = .ok l) :
    error? l.memory = some e ↔ ∃ n op name before behind,
      numbered source = before ++ (n, .instruction op (.symbol name)) :: behind ∧
        (∀ m other defined, (m, .instruction other (.symbol defined)) ∈ before →
          defined ∈ definedNames (program source)) ∧
          name ∉ definedNames (program source) ∧ e = l.unresolved n name := by
  obtain ⟨hholds, -, hplaced⟩ := Layout.laid_of_ofSource hlaid
  rw [Layout.error?_memory hholds hplaced, List.findSome?_eq_some_iff]
  constructor
  · rintro ⟨before, ⟨n, s⟩, behind, hnumbered, hs, hbefore⟩
    obtain ⟨name, hname, rfl⟩ := Option.map_eq_some_iff.1 hs
    obtain ⟨⟨op, rfl⟩, hundefined⟩ := Statement.dangling?_eq_some_iff.1 hname
    refine ⟨n, op, name, before, behind, hnumbered, ?_, hundefined, rfl⟩
    intro m other defined hmem
    exact Statement.dangling?_eq_none_iff.1 (Option.map_eq_none_iff.1 (hbefore _ hmem)) _ _ rfl
  · rintro ⟨n, op, name, before, behind, hnumbered, hfirst, hundefined, rfl⟩
    refine ⟨before, _, behind, hnumbered, ?_, ?_⟩
    · exact Option.map_eq_some_iff.2
        ⟨name, Statement.dangling?_eq_some_iff.2 ⟨⟨op, rfl⟩, hundefined⟩, rfl⟩
    · rintro ⟨m, s⟩ hmem
      refine Option.map_eq_none_iff.2 (Statement.dangling?_eq_none_iff.2 ?_)
      rintro other defined rfl
      exact hfirst m other defined hmem

/-- The second pass fails exactly if a line is to blame. -/
theorem image_error_iff (hlaid : Layout.ofSource source = .ok l) :
    l.image = .error e ↔ ∃ n, Blames source e n := by
  rw [← error?_eq_some_iff, Layout.error?_image, Option.or_eq_some_iff, vector_error_iff hlaid,
    vector_laid_iff hlaid, memory_error_iff hlaid]
  constructor
  · rintro (⟨handler, hdeclared, hlabel, rfl⟩ |
      ⟨hvector, n, op, name, before, behind, hnumbered, hfirst, hundefined, rfl⟩)
    · exact ⟨handler.line, .vector hlaid hdeclared hlabel⟩
    · exact ⟨n, .operand hlaid hvector hnumbered hfirst hundefined⟩
  · rintro ⟨n, hblames⟩
    cases hblames with
    | line hfaulty => cases hlaid.symm.trans hfaulty.fails
    | @vector l' _ name target hlaid' hdeclared hlabel =>
      cases hlaid.symm.trans hlaid'
      exact .inl ⟨⟨name, target, n⟩, hdeclared, hlabel, rfl⟩
    | operand hlaid' hvector hnumbered hfirst hundefined =>
      cases hlaid.symm.trans hlaid'
      exact .inr ⟨hvector, n, _, _, _, _, hnumbered, hfirst, hundefined, rfl⟩

/-- The second pass blames a line that there is, and its error tells the line. -/
theorem Source.Blames.place {n : Nat} (h : Blames source e n)
    (hlaid : Layout.ofSource source = .ok l) :
    e.line = some n ∧ 1 ≤ n ∧ n ≤ (lines source).length := by
  cases h with
  | line hfaulty => cases hlaid.symm.trans hfaulty.fails
  | vector _ hdeclared => exact ⟨rfl, bounds_of_mem_numbered hdeclared⟩
  | @operand _ _ op name before behind _ _ hnumbered =>
    have hmem : (n, .instruction op (.symbol name)) ∈ numbered source := by
      rw [hnumbered]
      exact List.mem_append_right _ List.mem_cons_self
    exact ⟨rfl, bounds_of_mem_numbered hmem⟩

end Laid

/-- A source text has no image exactly if a line of it is to blame, and the error tells which. -/
theorem assemble_error_iff_blames (source : List Char) (e : Error) :
    assemble source = .error e ↔
      ∃ n, e.line = some n ∧ 1 ≤ n ∧ n ≤ (lines source).length ∧ Blames source e n := by
  cases hlaid : Layout.ofSource source with
  | error reason =>
    have hassemble : assemble source = .error reason := by
      rw [assemble, hlaid]
      rfl
    rw [hassemble, Except.error.injEq]
    constructor
    · rintro rfl
      obtain ⟨n, hline, hfirst, hlast, hfaulty⟩ := exists_faultyLine hlaid
      exact ⟨n, hline, hfirst, hlast, .line hfaulty⟩
    · rintro ⟨n, -, -, -, hblames⟩
      cases hblames with
      | line hfaulty => exact Except.error.inj (hlaid.symm.trans hfaulty.fails)
      | vector hlaid' => cases hlaid.symm.trans hlaid'
      | operand hlaid' => cases hlaid.symm.trans hlaid'
  | ok l =>
    have hassemble : assemble source = l.image := by
      rw [assemble, hlaid]
      rfl
    rw [hassemble, image_error_iff hlaid]
    constructor
    · rintro ⟨n, hblames⟩
      obtain ⟨hline, hfirst, hlast⟩ := hblames.place hlaid
      exact ⟨n, hline, hfirst, hlast, hblames⟩
    · rintro ⟨n, -, -, -, hblames⟩
      exact ⟨n, hblames⟩

/-- A line that cannot be read hides a name that is not defined. -/
example : assemble "JUMP nowhere\nFROBNICATE\n.data:".toList =
    .error { cause := .unknownOpcode "FROBNICATE" none, line := some 2 } := by
  decide +kernel

end Accumulator
