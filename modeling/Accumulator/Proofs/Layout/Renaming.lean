import Accumulator.Proofs.Layout.Assembly
import Accumulator.Proofs.Source.Rendering
import Mathlib.Data.Set.Function
import Mathlib.Logic.Equiv.Basic

/-!
Renaming the symbols of a program. What a statement lays out and where it may
stand do not depend on the names in it, and a name only stands for an address
through the statement that defines it. As long as different names stay
different, a program with other names therefore has the same image.
-/

namespace Accumulator

open Text

namespace Source

def Operand.rename (f : String → String) : Operand → Operand
  | .symbol name => .symbol (f name)
  | operand => operand

/-- The statement with its symbols renamed. A vector declaration defines none, so it keeps its
own name and only its target changes. -/
def Statement.rename (f : String → String) : Statement → Statement
  | .marker start => .marker start
  | .label name => .label (f name)
  | .declaration name (.vector target) => .declaration name (.vector (f target))
  | .declaration name directive => .declaration (f name) directive
  | .instruction op operand => .instruction op (operand.rename f)

variable {f g : String → String} {s : Statement} {sec : Section} {name : String}
  {operand : Operand} {statements : List Statement}

namespace Statement

@[simp] theorem defines_rename (f : String → String) (s : Statement) :
    (s.rename f).defines = s.defines.map f := by
  cases s with
  | declaration name directive => cases directive <;> rfl
  | _ => rfl

@[simp] theorem target_rename (f : String → String) (s : Statement) :
    (s.rename f).target = s.target.map f := by
  cases s with
  | declaration name directive => cases directive <;> rfl
  | _ => rfl

@[simp] theorem size_rename (f : String → String) (s : Statement) : (s.rename f).size = s.size := by
  cases s with
  | declaration name directive => cases directive <;> rfl
  | _ => rfl

theorem block_rename (f : String → String) (s : Statement) :
    (s.rename f).block = s.block.map fun (op, operand) => (op, operand.rename f) := by
  cases s with
  | declaration name directive =>
    cases directive with
    | string text => simp [rename, block, Operand.rename]
    | buffer size => simp [rename, block, Operand.rename]
    | _ => rfl
  | _ => rfl

theorem inRange_rename_iff : (s.rename f).InRange ↔ s.InRange := by
  cases s with
  | declaration name directive => cases directive <;> rfl
  | _ => rfl

theorem belongs_rename_iff : (s.rename f).Belongs sec ↔ s.Belongs sec := by
  cases s with
  | declaration name directive => cases directive <;> rfl
  | _ => rfl

theorem rename_eq_marker_iff {start : Section} :
    s.rename f = .marker start ↔ s = .marker start := by
  cases s with
  | marker other => rfl
  | declaration name directive => cases directive <;> simp [rename]
  | _ => simp [rename]

theorem printable_rename (hnames : ∀ name, IsName name → IsName (f name)) (hs : s.Printable)
    (htarget : ∀ target ∈ s.target, IsName target) : (s.rename f).Printable := by
  cases s with
  | marker start => trivial
  | label name => exact hnames name hs
  | instruction op operand =>
    obtain ⟨hdirective, hoperand, htakes⟩ := hs
    refine ⟨hdirective, ?_, ?_⟩
    · cases operand with
      | symbol name => exact hnames name hoperand
      | _ => trivial
    · cases operand <;> simpa [Operand.rename] using htakes
  | declaration name directive =>
    cases directive with
    | vector target =>
      have hname : IsName (f target) := hnames target (htarget target rfl)
      exact ⟨hs.1, hname.ne_nil, fun c hc => isInk_of_isNameChar (hname.isNameChar hc)⟩
    | _ => exact ⟨hnames name hs.1, hs.2⟩

/-- Only what happens to names matters. -/
theorem rename_congr (hagree : ∀ name, IsName name → f name = g name) (hs : s.Printable)
    (htarget : ∀ target ∈ s.target, IsName target) : s.rename f = s.rename g := by
  cases s with
  | marker start => rfl
  | label name => exact congrArg _ (hagree name hs)
  | instruction op operand =>
    cases operand with
    | symbol name => exact congrArg (fun name => instruction op (.symbol name)) (hagree name hs.2.1)
    | _ => rfl
  | declaration name directive =>
    cases directive with
    | vector target =>
      exact congrArg (fun target => declaration name (.vector target))
        (hagree target (htarget target rfl))
    | _ => exact congrArg (fun name => declaration name _) (hagree name hs.1)

end Statement

theorem inPlace_rename_iff :
    InPlace sec (statements.map (Statement.rename f)) ↔ InPlace sec statements := by
  induction statements generalizing sec with
  | nil => exact Iff.rfl
  | cons s rest ih =>
    have hsection : sectionAfter sec (.ok (some (s.rename f))) =
        sectionAfter sec (.ok (some s)) := by
      simp only [sectionAfter_ok, Option.some.injEq, Statement.rename_eq_marker_iff]
    rw [List.map_cons, InPlace, InPlace, hsection, ih, Statement.belongs_rename_iff]

theorem definedNames_rename (f : String → String) (statements : List Statement) :
    definedNames (statements.map (Statement.rename f)) = (definedNames statements).map f := by
  rw [definedNames, definedNames, List.filterMap_map, List.map_filterMap]
  exact congrArg (List.filterMap · statements) (funext (Statement.defines_rename f))

theorem targets_rename (f : String → String) (statements : List Statement) :
    targets (statements.map (Statement.rename f)) = (targets statements).map f := by
  rw [targets, targets, List.filterMap_map, List.map_filterMap]
  exact congrArg (List.filterMap · statements) (funext (Statement.target_rename f))

theorem totalSize_rename (f : String → String) (statements : List Statement) :
    totalSize (statements.map (Statement.rename f)) = totalSize statements := by
  rw [totalSize, totalSize, List.map_map]
  exact congrArg (fun size => (statements.map size).sum) (funext (Statement.size_rename f))

/-- Statements have room whatever their names are. -/
theorem fits_rename_iff : Fits (statements.map (Statement.rename f)) ↔ Fits statements := by
  constructor
  · intro h
    refine ⟨totalSize_rename f statements ▸ h.cells, ?_⟩
    rintro before s after name rfl hs
    rw [← totalSize_rename f before]
    refine h.names _ (s.rename f) (after.map (Statement.rename f)) (f name) (by simp) ?_
    rw [Statement.defines_rename, hs, Option.map_some]
  · intro h
    refine ⟨(totalSize_rename f statements).symm ▸ h.cells, ?_⟩
    intro before s after name hsplit hs
    obtain ⟨before', behind, rfl, rfl, hbehind⟩ := List.map_eq_append_iff.1 hsplit
    obtain ⟨s', after', rfl, rfl, rfl⟩ := List.map_eq_cons_iff.1 hbehind
    rw [Statement.defines_rename, Option.map_eq_some_iff] at hs
    obtain ⟨name', hs', -⟩ := hs
    rw [totalSize_rename]
    exact h.names before' s' after' name' rfl hs'

section Injective

variable (hf : Function.Injective f)
include hf

theorem address?_rename (name : String) (statements : List Statement) :
    address? (f name) (statements.map (Statement.rename f)) = address? name statements := by
  induction statements with
  | nil => rfl
  | cons s rest ih =>
    have hdefines : (s.rename f).defines = some (f name) ↔ s.defines = some name := by
      rw [Statement.defines_rename, ← Option.map_some, (Option.map_injective hf).eq_iff]
    simp only [List.map_cons, address?, hdefines, ih, Statement.size_rename]

theorem value_rename (operand : Operand) (statements : List Statement) :
    (operand.rename f).value (statements.map (Statement.rename f)) = operand.value statements := by
  cases operand with
  | symbol name => exact congrArg (Option.map UInt32.ofNat) (address?_rename hf name statements)
  | _ => rfl

theorem label_mem_rename_iff :
    .label (f name) ∈ statements.map (Statement.rename f) ↔ .label name ∈ statements := by
  rw [List.mem_map]
  constructor
  · rintro ⟨s, hs, hlabel⟩
    cases s with
    | label other =>
      rw [Statement.rename, Statement.label.injEq] at hlabel
      exact hf hlabel ▸ hs
    | declaration other directive => cases directive <;> nomatch hlabel
    | _ => nomatch hlabel
  · exact fun hs => ⟨_, hs, rfl⟩

theorem consistent_rename_iff :
    Consistent (statements.map (Statement.rename f)) ↔ Consistent statements := by
  have hcode : (statements.map (Statement.rename f)).Pairwise
      (fun s t => s = .marker .data → t ≠ .marker .code) ↔
        statements.Pairwise fun s t => s = .marker .data → t ≠ .marker .code := by
    simp only [List.pairwise_map, ne_eq, Statement.rename_eq_marker_iff]
  have hdistinct := List.nodup_map_iff hf (l := definedNames statements)
  have hrange : (∀ s ∈ statements.map (Statement.rename f), s.InRange) ↔
      ∀ s ∈ statements, s.InRange := by
    simp only [List.forall_mem_map, Statement.inRange_rename_iff]
  have htargets : (targets (statements.map (Statement.rename f))).length =
      (targets statements).length := by
    rw [targets_rename, List.length_map]
  rw [← definedNames_rename] at hdistinct
  constructor
  · intro h
    exact ⟨hcode.1 h.codeFirst, hdistinct.1 h.distinct, hrange.1 h.inRange,
      htargets ▸ h.oneVector⟩
  · intro h
    exact ⟨hcode.2 h.codeFirst, hdistinct.2 h.distinct, hrange.2 h.inRange,
      htargets.symm ▸ h.oneVector⟩

/-- Whether statements are a program does not depend on their names. -/
theorem wellFormed_rename_iff :
    WellFormed (statements.map (Statement.rename f)) ↔ WellFormed statements := by
  have htargets : (∀ name ∈ targets (statements.map (Statement.rename f)),
      .label name ∈ statements.map (Statement.rename f)) ↔
        ∀ name ∈ targets statements, .label name ∈ statements := by
    simp only [targets_rename, List.forall_mem_map, label_mem_rename_iff hf]
  constructor
  · rintro ⟨hc, hlabel, hdefined⟩
    refine ⟨(consistent_rename_iff hf).1 hc, htargets.1 hlabel, ?_⟩
    intro op name hs
    have hrenamed := hdefined op (f name) (List.mem_map.2 ⟨_, hs, rfl⟩)
    rwa [definedNames_rename, List.mem_map_of_injective hf] at hrenamed
  · rintro ⟨hc, hlabel, hdefined⟩
    refine ⟨(consistent_rename_iff hf).2 hc, htargets.2 hlabel, ?_⟩
    intro op name hs
    obtain ⟨old, hold, hrenamed⟩ := List.mem_map.1 hs
    rw [definedNames_rename]
    cases old with
    | instruction other operand =>
      cases operand with
      | symbol name =>
        cases hrenamed
        exact List.mem_map_of_mem (hdefined op name hold)
      | _ => nomatch hrenamed
    | declaration other directive => cases directive <;> nomatch hrenamed
    | _ => nomatch hrenamed

theorem imageOf_rename (statements : List Statement) :
    imageOf (statements.map (Statement.rename f)) = imageOf statements := by
  have hvector : (imageOf (statements.map (Statement.rename f))).vector =
      (imageOf statements).vector := by
    simp only [imageOf, targets_rename, List.head?_map]
    cases (targets statements).head? with
    | none => rfl
    | some name => exact value_rename hf (.symbol name) statements
  have hblocks : (statements.map (Statement.rename f)).flatMap Statement.block =
      (statements.flatMap Statement.block).map fun (op, operand) => (op, operand.rename f) := by
    rw [List.flatMap_map, List.map_flatMap]
    exact congrArg (List.flatMap · statements) (funext (Statement.block_rename f))
  have hmemory : (imageOf (statements.map (Statement.rename f))).memory =
      (imageOf statements).memory := by
    simp only [imageOf, hblocks, List.zipIdx_map, List.map_map, Function.comp_def, Prod.map,
      value_rename hf, id]
  exact congrArg₂ Image.mk hvector hmemory

end Injective

/-- A map that keeps names apart agrees on them with one that keeps all texts apart. -/
theorem exists_injective_agreeing (hnames : ∀ name, IsName name → IsName (f name))
    (hdistinct : Set.InjOn f {name | IsName name}) :
    ∃ g : String → String, Function.Injective g ∧ ∀ name, IsName name → f name = g name := by
  classical
  refine ⟨fun name => if IsName name then f name else name, ?_, ?_⟩
  · intro a b hab
    simp only at hab
    by_cases ha : IsName a
    · by_cases hb : IsName b
      · rw [if_pos ha, if_pos hb] at hab
        exact hdistinct ha hb hab
      · rw [if_pos ha, if_neg hb] at hab
        exact absurd (hab ▸ hnames a ha) hb
    · by_cases hb : IsName b
      · rw [if_neg ha, if_pos hb] at hab
        exact absurd (hab ▸ hnames b hb) ha
      · rwa [if_neg ha, if_neg hb] at hab
  · intro name hname
    exact (if_pos hname).symm

end Source

open Source

/-- The names of symbols do not matter. Of two source texts with the same statements under
other names, neither has an image that the other has not. -/
theorem assemble_rename {f : String → String} (hnames : ∀ name, IsName name → IsName (f name))
    (hdistinct : Set.InjOn f {name | IsName name}) {statements : List Statement}
    (hprintable : ∀ s ∈ statements, s.Printable)
    (htargets : ∀ target ∈ targets statements, IsName target) {source renamed : List Char}
    (hsource : List.Forall₂ Statement.Written statements (lines source))
    (hrenamed : List.Forall₂ Statement.Written (statements.map (Statement.rename f))
      (lines renamed)) (image : Image) :
    assemble source = .ok image ↔ assemble renamed = .ok image := by
  obtain ⟨g, hg, hagree⟩ := exists_injective_agreeing hnames hdistinct
  have htarget : ∀ s ∈ statements, ∀ target ∈ s.target, IsName target :=
    fun s hs target hs' => htargets target (List.mem_filterMap.2 ⟨s, hs, hs'⟩)
  have hprintable' : ∀ s ∈ statements.map (Statement.rename f), s.Printable := by
    rw [List.forall_mem_map]
    exact fun s hs => Statement.printable_rename hnames (hprintable s hs) (htarget s hs)
  have hsame : statements.map (Statement.rename f) = statements.map (Statement.rename g) :=
    List.map_congr_left fun s hs =>
      Statement.rename_congr hagree (hprintable s hs) (htarget s hs)
  rw [assemble_eq_ok_iff, assemble_eq_ok_iff, reads_iff_inPlace hprintable hsource,
    reads_iff_inPlace hprintable' hrenamed, inPlace_rename_iff]
  refine and_congr_right fun hplace => ?_
  rw [program_eq_of_inPlace hprintable hsource hplace,
    program_eq_of_inPlace hprintable' hrenamed (inPlace_rename_iff.2 hplace), hsame,
    wellFormed_rename_iff hg, fits_rename_iff, imageOf_rename hg]

/-- A loop with a handler and a variable. -/
def looping : List Statement :=
  [.label "loop", .instruction .jump (.symbol "loop"), .instruction .load (.symbol "count"),
    .marker .data, .declaration "irq" (.vector "loop"), .declaration "count" (.number "-1")]

/-- Exchanges names for words of the language. -/
def reword (name : String) : String :=
  Equiv.swap "loop" "JUMP" (Equiv.swap "count" "NUMBER" name)

theorem isName_swap {a b name : String} (ha : IsName a) (hb : IsName b) (h : IsName name) :
    IsName (Equiv.swap a b name) := by
  rw [Equiv.swap_apply_def]
  split
  · exact hb
  split
  · exact ha
  · exact h

theorem isName_reword (name : String) (h : IsName name) : IsName (reword name) :=
  isName_swap (by decide) (by decide) (isName_swap (by decide) (by decide) h)

theorem injective_reword : Function.Injective reword :=
  (Equiv.swap "loop" "JUMP").injective.comp (Equiv.swap "count" "NUMBER").injective

theorem printable_looping : ∀ s ∈ looping, s.Printable := by
  have hloop : IsName "loop" := by decide
  have hcount : IsName "count" := by decide
  simp only [looping, List.forall_mem_cons]
  refine ⟨hloop, ⟨rfl, hloop, by decide⟩, ⟨rfl, hcount, by decide⟩, trivial, ?_, ?_, nofun⟩
  · exact ⟨by decide, hloop.ne_nil, fun c hc => isInk_of_isNameChar (hloop.isNameChar hc)⟩
  · exact ⟨hcount, by decide, isInk_of_all (by decide)⟩

theorem assemble_rename_looping :
    assemble "loop:\nJUMP loop\nLOAD count\n.data:\nirq VECTOR loop\ncount NUMBER -1\n".toList =
        .ok ⟨some 0, #[⟨0, .jump, some 0⟩, ⟨1, .load, some 2⟩, ⟨2, .number, some (-1)⟩]⟩ ∧
      assemble
          "JUMP:\nJUMP JUMP\nLOAD NUMBER\n.data:\nirq VECTOR JUMP\nNUMBER NUMBER -1\n".toList =
        .ok ⟨some 0, #[⟨0, .jump, some 0⟩, ⟨1, .load, some 2⟩, ⟨2, .number, some (-1)⟩]⟩ := by
  have htargets : ∀ target ∈ targets looping, IsName target := by decide
  have hprintable : ∀ s ∈ looping.map (Statement.rename reword), s.Printable := by
    rw [List.forall_mem_map]
    intro s hs
    exact Statement.printable_rename isName_reword (printable_looping s hs)
      fun target ht => htargets target (List.mem_filterMap.2 ⟨s, hs, ht⟩)
  have hrenamed : looping.map (Statement.rename reword) =
      [.label "JUMP", .instruction .jump (.symbol "JUMP"), .instruction .load (.symbol "NUMBER"),
        .marker .data, .declaration "irq" (.vector "JUMP"),
        .declaration "NUMBER" (.number "-1")] := by
    simp [looping, Statement.rename, Operand.rename, reword, Equiv.swap_apply_def]
  have hwritten := written_ofLines hprintable
  rw [hrenamed] at hwritten
  have hassemble : assemble
      "loop:\nJUMP loop\nLOAD count\n.data:\nirq VECTOR loop\ncount NUMBER -1\n".toList =
        .ok ⟨some 0, #[⟨0, .jump, some 0⟩, ⟨1, .load, some 2⟩, ⟨2, .number, some (-1)⟩]⟩ := by
    decide +kernel
  refine ⟨hassemble, (assemble_rename isName_reword injective_reword.injOn printable_looping
    htargets (written_ofLines printable_looping) ?_ _).1 hassemble⟩
  rw [hrenamed]
  exact hwritten

end Accumulator
