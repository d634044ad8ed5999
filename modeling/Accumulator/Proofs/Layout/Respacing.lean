import Accumulator.Proofs.Layout.FaultyLine
import Accumulator.Proofs.Layout.Renumbering
import Accumulator.Proofs.Source.Rendering
import Mathlib.Logic.Relation
import Mathlib.Order.Monotone.Basic

/-!
Spacing and comments. A text may get further lines that hold nothing, its lines
may be indented and may have blanks and comments behind them, and they may end
with a carriage return: it assembles as before, and an error tells the new
number of the same line.
-/

namespace Accumulator

open Source Text Checked

namespace Source

/-- Blanks and then perhaps a comment, all on one line. -/
inductive Filler : List Char → Prop where
  | intro {blanks comment : List Char} (hblanks : ∀ c ∈ blanks, isBlank c = true)
      (hcomment : ∀ c ∈ comment.head?, c = ';') (hfeed : '\n' ∉ blanks ++ comment) :
      Filler (blanks ++ comment)

/-- Whether a line starts behind the text. -/
def AtStart (before : List Char) : Prop := ∀ c ∈ before.getLast?, c = '\n'

/-- Whether a line ends in front of the text. -/
inductive AtEnd : List Char → Prop where
  | last : AtEnd []
  | feed (behind : List Char) : AtEnd ('\n' :: behind)
  | returned (behind : List Char) : AtEnd ('\r' :: '\n' :: behind)

/-- One change of a text that only concerns spacing, comments and line endings. -/
inductive Respaced : List Char → List Char → Prop where
  /-- A further line in front of another or at the end of a text whose last line is ended. -/
  | line {before filler : List Char} (behind : List Char) (hstart : AtStart before)
      (hfiller : Filler filler) :
      Respaced (before ++ behind) (before ++ (filler ++ '\n' :: behind))
  /-- A further line at the end, which is not ended. -/
  | lastLine {filler : List Char} (source : List Char) (hfiller : Filler filler) :
      Respaced source (source ++ '\n' :: filler)
  | indent {before blanks : List Char} (behind : List Char) (hstart : AtStart before)
      (hblanks : ∀ c ∈ blanks, isBlank c = true) (hfeed : '\n' ∉ blanks) :
      Respaced (before ++ behind) (before ++ (blanks ++ behind))
  | trail {behind filler : List Char} (before : List Char) (hend : AtEnd behind)
      (hfiller : Filler filler) :
      Respaced (before ++ behind) (before ++ (filler ++ behind))
  | ending (before behind : List Char) :
      Respaced (before ++ '\n' :: behind) (before ++ '\r' :: '\n' :: behind)

/-- What matters of each line of a text. -/
def significantLines (source : List Char) : List (List Char) := (lines source).map significant

/-- The second list is the first with empty entries put in. -/
inductive Padded : List (List Char) → List (List Char) → Prop where
  | nil : Padded [] []
  | keep {given other : List (List Char)} (cs : List Char) (h : Padded given other) :
      Padded (cs :: given) (cs :: other)
  | pad {given other : List (List Char)} (h : Padded given other) : Padded given ([] :: other)

/-- Every line of the first text is in the second as well, in the same order, the line `n` there
having the number `f n`. -/
structure KeepsLines (source other : List Char) (f : Nat → Nat) : Prop where
  mono : StrictMono f
  kept : ∀ (i : Nat) (cs : List Char), (significantLines source)[i]? = some cs →
    ∃ k, f (i + 1) = k + 1 ∧ (significantLines other)[k]? = some cs

namespace Padded

variable {given other given' other' : List (List Char)}

theorem refl (given : List (List Char)) : Padded given given := by
  induction given with
  | nil => exact .nil
  | cons cs rest ih => exact .keep cs ih

theorem append (h : Padded given other) (h' : Padded given' other') :
    Padded (given ++ given') (other ++ other') := by
  induction h with
  | nil => exact h'
  | keep cs _ ih => exact .keep cs ih
  | pad _ ih => exact .pad ih

end Padded

variable {source respaced other before line last filler blanks : List Char}

section Lines

/-- A filler behind a line does not matter. -/
theorem Filler.significant_append (h : Filler filler) (line : List Char) :
    significant (line ++ filler) = significant line := by
  obtain ⟨hblanks, hcomment, -⟩ := h
  have h := significant_between (List.forall_mem_nil _) hblanks hcomment line
  rwa [List.nil_append, List.append_assoc] at h

theorem Filler.significant_eq (h : Filler filler) : significant filler = [] :=
  h.significant_append []

theorem Filler.newline_notMem (h : Filler filler) : '\n' ∉ filler := by
  obtain ⟨-, -, hfeed⟩ := h
  exact hfeed

theorem significant_indent (h : ∀ c ∈ blanks, isBlank c = true) (line : List Char) :
    significant (blanks ++ line) = significant line := by
  have hnone : ∀ c ∈ ([] : List Char), isBlank c = true := List.forall_mem_nil _
  have h := significant_between h hnone (fun c hc => nomatch hc : ∀ c ∈ [].head?, c = ';') line
  rwa [List.append_nil, List.append_nil] at h

theorem AtStart.exists_ofLines (h : AtStart before) : ∃ given : List (List Char),
    before = ofLines given ∧ ∀ line ∈ given, '\n' ∉ line := by
  obtain ⟨given, last, rfl, hgiven, hlast⟩ := Text.exists_ofLines before
  rcases List.eq_nil_or_concat last with rfl | ⟨start, c, rfl⟩
  · exact ⟨given, List.append_nil _, hgiven⟩
  · have hc : c = '\n' := by
      apply h c
      rw [List.concat_eq_append, ← List.append_assoc, List.getLast?_concat]
      rfl
    subst hc
    exact absurd (by simp) hlast

variable {given : List (List Char)}

theorem significantLines_ofLines (hgiven : ∀ line ∈ given, '\n' ∉ line) (other : List Char) :
    significantLines (ofLines given ++ other) = given.map significant ++ significantLines other :=
  significant_lines_ofLines given other hgiven

theorem significantLines_newline (hline : '\n' ∉ line) (behind : List Char) :
    significantLines (line ++ '\n' :: behind) = significant line :: significantLines behind := by
  have h := significantLines_ofLines (List.forall_mem_singleton.2 hline) behind
  rwa [ofLines, List.flatMap_singleton, List.append_assoc] at h

/-- A carriage return at the end of a line does not matter. -/
theorem significantLines_return (hline : '\n' ∉ line) (behind : List Char) :
    significantLines (line ++ '\r' :: '\n' :: behind) =
      significant line :: significantLines behind := by
  have hreturn : '\n' ∉ line ++ ['\r'] := by
    rw [List.mem_append, List.mem_singleton, not_or]
    exact ⟨hline, by decide⟩
  have h := significantLines_newline hreturn behind
  rwa [significant_concat_return, List.append_assoc] at h

theorem significantLines_of_newline_notMem (hne : line ≠ []) (hline : '\n' ∉ line) :
    significantLines line = [significant line] := by
  rw [significantLines, lines_of_newline_notMem hne hline, List.map_singleton]

/-- A line may start to exist at the end of the text, if there is nothing in it. -/
theorem padded_last (hlast : '\n' ∉ last) (hother : '\n' ∉ other)
    (hsame : significant other = significant last) (hempty : other = [] → last = []) :
    Padded (significantLines last) (significantLines other) := by
  by_cases hother' : other = []
  · rw [hother', hempty hother']
    exact .nil
  · rw [significantLines_of_newline_notMem hother' hother, hsame]
    by_cases hlast' : last = []
    · rw [hlast']
      exact .pad .nil
    · rw [significantLines_of_newline_notMem hlast' hlast]
      exact .refl _

end Lines

theorem Filler.padded (h : Filler filler) : Padded [] (significantLines filler) :=
  padded_last List.not_mem_nil h.newline_notMem h.significant_eq fun _ => rfl

theorem padded_lastLine (hlast : '\n' ∉ last) (hfiller : Filler filler) :
    Padded (significantLines last) (significantLines (last ++ '\n' :: filler)) := by
  rw [significantLines_newline hlast]
  by_cases hempty : last = []
  · rw [hempty]
    exact .pad hfiller.padded
  · rw [significantLines_of_newline_notMem hempty hlast]
    exact .keep _ hfiller.padded

theorem padded_indent (hblanks : ∀ c ∈ blanks, isBlank c = true) (hfeed : '\n' ∉ blanks)
    (source : List Char) :
    Padded (significantLines source) (significantLines (blanks ++ source)) := by
  have hclear {line : List Char} (hline : '\n' ∉ line) : '\n' ∉ blanks ++ line := by
    rw [List.mem_append, not_or]
    exact ⟨hfeed, hline⟩
  obtain ⟨given, last, rfl, hgiven, hlast⟩ := exists_ofLines source
  cases given with
  | nil =>
    refine padded_last hlast (hclear hlast) (significant_indent hblanks last) fun h => ?_
    exact (List.append_eq_nil_iff.1 h).2
  | cons line given =>
    have hline : '\n' ∉ line := hgiven line List.mem_cons_self
    have htext : ofLines (line :: given) ++ last = line ++ '\n' :: (ofLines given ++ last) := by
      simp [ofLines]
    rw [htext, ← List.append_assoc, significantLines_newline hline,
      significantLines_newline (hclear hline), significant_indent hblanks]
    exact .refl _

theorem padded_trail {behind : List Char} (hlast : '\n' ∉ last) (hend : AtEnd behind)
    (hfiller : Filler filler) :
    Padded (significantLines (last ++ behind)) (significantLines (last ++ (filler ++ behind))) := by
  have hclear : '\n' ∉ last ++ filler := by
    rw [List.mem_append, not_or]
    exact ⟨hlast, hfiller.newline_notMem⟩
  have hsame : significant (last ++ filler) = significant last := hfiller.significant_append last
  rw [← List.append_assoc]
  cases hend with
  | last =>
    rw [List.append_nil, List.append_nil]
    exact padded_last hlast hclear hsame fun h => (List.append_eq_nil_iff.1 h).1
  | feed behind =>
    rw [significantLines_newline hlast, significantLines_newline hclear, hsame]
    exact .refl _
  | returned behind =>
    rw [significantLines_return hlast, significantLines_return hclear, hsame]
    exact .refl _

/-- Each change puts in lines that hold nothing, or none. -/
theorem Respaced.padded (h : Respaced source respaced) :
    Padded (significantLines source) (significantLines respaced) := by
  cases h with
  | line behind hstart hfiller =>
    obtain ⟨given, rfl, hgiven⟩ := hstart.exists_ofLines
    rw [significantLines_ofLines hgiven, significantLines_ofLines hgiven,
      significantLines_newline hfiller.newline_notMem, hfiller.significant_eq]
    exact (Padded.refl _).append (.pad (.refl _))
  | lastLine source hfiller =>
    obtain ⟨given, last, rfl, hgiven, hlast⟩ := exists_ofLines source
    rw [List.append_assoc, significantLines_ofLines hgiven, significantLines_ofLines hgiven]
    exact (Padded.refl _).append (padded_lastLine hlast hfiller)
  | indent behind hstart hblanks hfeed =>
    obtain ⟨given, rfl, hgiven⟩ := hstart.exists_ofLines
    rw [significantLines_ofLines hgiven, significantLines_ofLines hgiven]
    exact (Padded.refl _).append (padded_indent hblanks hfeed behind)
  | trail before hend hfiller =>
    obtain ⟨given, last, rfl, hgiven, hlast⟩ := exists_ofLines before
    rw [List.append_assoc, List.append_assoc, significantLines_ofLines hgiven,
      significantLines_ofLines hgiven]
    exact (Padded.refl _).append (padded_trail hlast hend hfiller)
  | ending before behind =>
    obtain ⟨given, last, rfl, hgiven, hlast⟩ := exists_ofLines before
    rw [List.append_assoc, List.append_assoc, significantLines_ofLines hgiven,
      significantLines_ofLines hgiven, significantLines_newline hlast,
      significantLines_return hlast]
    exact .refl _

end Source

namespace Layout

variable {f : Nat → Nat} {n m : Nat} {given other : List (List Char)} {line line' : List Char}

theorem renumber_empty (f : Nat → Nat) : ({} : Layout).renumber f = {} := by
  simp [renumber, SymbolTable.renumber]

/-- A line that holds nothing adds nothing. -/
theorem addLine_of_significant_eq_nil (hline : significant line = []) (n : Nat) (l : Layout) :
    l.addLine n line = .ok l := by
  rw [addLine, hline]
  rfl

theorem addLines_pad (hline : significant line = []) (n : Nat) (l : Layout) :
    addLines n l (line :: other) = addLines (n + 1) l other := by
  rw [addLines, addLine_of_significant_eq_nil hline]

/-- The same line under another number leaves the rest as before. -/
theorem addLines_keep (hline : significant line' = significant line) (hnumber : f n = m)
    (hrest : ∀ l : Layout, addLines (m + 1) (l.renumber f) other =
      mapBoth (Error.renumber f) (Layout.renumber f) (addLines (n + 1) l given)) (l : Layout) :
    addLines m (l.renumber f) (line' :: other) =
      mapBoth (Error.renumber f) (Layout.renumber f) (addLines n l (line :: given)) := by
  have hadd : (l.renumber f).addLine m line' =
      mapBoth (Error.renumber f) (Layout.renumber f) (l.addLine n line) := by
    rw [← addLine_renumber, addLine, addLine, hline, hnumber]
  rw [addLines, addLines, hadd]
  cases l.addLine n line with
  | error e => rfl
  | ok next => exact hrest next

/-- The first entry stays in its place, those behind it move as before. -/
def keepPlace (place : Nat → Nat) : Nat → Nat
  | 0 => 0
  | i + 1 => place i + 1

theorem strictMono_keepPlace {place : Nat → Nat} (h : StrictMono place) :
    StrictMono (keepPlace place) := by
  refine strictMono_nat_of_lt_succ fun i => ?_
  cases i with
  | zero => exact Nat.succ_pos _
  | succ i => exact Nat.succ_lt_succ (h (Nat.lt_succ_self i))

/-- Where the lines of a list are in one with further lines put in, and that these change nothing
but numbers. -/
structure Placement (given other : List (List Char)) (place : Nat → Nat) : Prop where
  mono : StrictMono place
  kept : ∀ (i : Nat) (cs : List Char), (given.map significant)[i]? = some cs →
    (other.map significant)[place i]? = some cs
  laid : ∀ (f : Nat → Nat) (n m : Nat) (l : Layout), (∀ i, f (n + i) = m + place i) →
    addLines m (l.renumber f) other =
      mapBoth (Error.renumber f) (Layout.renumber f) (addLines n l given)

namespace Placement

variable {place : Nat → Nat}

theorem nil : Placement [] [] id where
  mono := strictMono_id
  kept := nofun
  laid := fun _ _ _ _ _ => rfl

theorem keep (h : Placement given other place) (hline : significant line' = significant line) :
    Placement (line :: given) (line' :: other) (keepPlace place) where
  mono := strictMono_keepPlace h.mono
  kept := by
    intro i cs hcs
    cases i with
    | zero => exact (congrArg some hline).trans hcs
    | succ i => exact h.kept i cs hcs
  laid := by
    intro f n m l hf
    have hrest : ∀ i, f (n + 1 + i) = m + 1 + place i := by
      intro i
      have hi := hf (i + 1)
      rw [keepPlace] at hi
      rw [Nat.add_assoc, Nat.add_comm 1 i, hi]
      omega
    exact addLines_keep hline (hf 0) (fun next => h.laid f (n + 1) (m + 1) next hrest) l

theorem pad (h : Placement given other place) (hline : significant line = []) :
    Placement given (line :: other) (fun i => place i + 1) where
  mono := fun _ _ hij => Nat.succ_lt_succ (h.mono hij)
  kept := h.kept
  laid := by
    intro f n m l hf
    rw [addLines_pad hline]
    refine h.laid f n (m + 1) l fun i => ?_
    rw [hf i]
    omega

end Placement

theorem exists_placement (h : Padded (given.map significant) (other.map significant)) :
    ∃ place, Placement given other place := by
  generalize hxs : given.map significant = xs at h
  generalize hys : other.map significant = ys at h
  induction h generalizing given other with
  | nil =>
    rw [List.map_eq_nil_iff] at hxs hys
    rw [hxs, hys]
    exact ⟨id, .nil⟩
  | keep cs _ ih =>
    obtain ⟨line, rest, rfl, hline, hrest⟩ := List.map_eq_cons_iff.1 hxs
    obtain ⟨line', rest', rfl, hline', hrest'⟩ := List.map_eq_cons_iff.1 hys
    obtain ⟨place, hplace⟩ := ih hrest hrest'
    exact ⟨keepPlace place, hplace.keep (hline'.trans hline.symm)⟩
  | pad _ ih =>
    obtain ⟨line', rest', rfl, hline', hrest'⟩ := List.map_eq_cons_iff.1 hys
    obtain ⟨place, hplace⟩ := ih hxs hrest'
    exact ⟨_, hplace.pad hline'⟩

end Layout

variable {source middle respaced : List Char} {f g : Nat → Nat}

theorem Source.KeepsLines.refl (source : List Char) : KeepsLines source source id :=
  ⟨strictMono_id, fun i _ hcs => ⟨i, rfl, hcs⟩⟩

theorem Source.KeepsLines.trans (hfirst : KeepsLines source middle f)
    (hnext : KeepsLines middle respaced g) : KeepsLines source respaced (g ∘ f) where
  mono := hnext.mono.comp hfirst.mono
  kept := by
    intro i cs hcs
    obtain ⟨k, hk, hmiddle⟩ := hfirst.kept i cs hcs
    obtain ⟨j, hj, hlast⟩ := hnext.kept k cs hmiddle
    exact ⟨j, (congrArg g hk).trans hj, hlast⟩

/-- One change leaves everything but the numbers of lines. -/
theorem exists_renumber_of_respaced (h : Respaced source respaced) :
    ∃ f, KeepsLines source respaced f ∧
      assemble respaced = mapBoth (Error.renumber f) id (assemble source) := by
  obtain ⟨place, hplace⟩ := Layout.exists_placement h.padded
  -- lines are counted from one
  refine ⟨Layout.keepPlace place, ⟨Layout.strictMono_keepPlace hplace.mono, ?_⟩, ?_⟩
  · exact fun i cs hcs => ⟨place i, rfl, hplace.kept i cs hcs⟩
  · have hnumbers : ∀ i, Layout.keepPlace place (1 + i) = 1 + place i := by
      intro i
      rw [Nat.add_comm, Layout.keepPlace, Nat.add_comm]
    have hlaid := hplace.laid (Layout.keepPlace place) 1 1 {} hnumbers
    rw [Layout.renumber_empty] at hlaid
    change Layout.ofSource respaced = mapBoth _ _ (Layout.ofSource source) at hlaid
    unfold assemble
    rw [hlaid]
    exact bind_mapBoth (Layout.image_renumber _) (Layout.ofSource source)

theorem exists_renumber (h : Relation.ReflTransGen Respaced source respaced) :
    ∃ f, KeepsLines source respaced f ∧
      assemble respaced = mapBoth (Error.renumber f) id (assemble source) := by
  induction h with
  | refl =>
    refine ⟨id, .refl source, ?_⟩
    cases assemble source with
    | ok image => rfl
    | error e => exact congrArg Except.error e.renumber_id.symm
  | tail _ hstep ih =>
    obtain ⟨f, hf, hfirst⟩ := ih
    obtain ⟨g, hg, hnext⟩ := exists_renumber_of_respaced hstep
    refine ⟨g ∘ f, hf.trans hg, ?_⟩
    rw [hnext, hfirst]
    cases assemble source with
    | ok image => rfl
    | error e => exact congrArg Except.error (e.renumber_renumber)

/-- Spacing, comments and line endings never change the image. An error stays the same as well,
but for the numbers of lines, which are those that the lines have now. -/
theorem assemble_respaced (h : Relation.ReflTransGen Respaced source respaced) :
    (∀ image, assemble respaced = .ok image ↔ assemble source = .ok image) ∧
      ∃ f, KeepsLines source respaced f ∧
        ∀ e, assemble source = .error e → assemble respaced = .error (e.renumber f) := by
  obtain ⟨f, hf, hsame⟩ := exists_renumber h
  rw [hsame]
  refine ⟨fun image => ?_, f, hf, fun e he => ?_⟩
  · cases assemble source with
    | ok found => exact Iff.rfl
    | error e => exact ⟨nofun, nofun⟩
  · rw [he]
    rfl

/-- A label that is defined twice. -/
def labelledTwice : List Char := "a:\na:".toList

/-- The same with a comment line, an indent, a carriage return and a comment put in. -/
def labelledTwiceSpaced : List Char := ";1\n\ta:\r\na: ;a:".toList

theorem respaced_labelledTwice :
    Relation.ReflTransGen Respaced labelledTwice labelledTwiceSpaced := by
  have hone : Filler ";1".toList := @Filler.intro [] ";1".toList (by simp) (by simp) (by decide)
  have hother : Filler " ;a:".toList :=
    @Filler.intro [' '] ";a:".toList (by simp; decide) (by simp) (by decide)
  have hline := @Respaced.line [] _ labelledTwice (by simp [AtStart]) hone
  have hindent := @Respaced.indent ";1\n".toList ['\t'] labelledTwice (by simp [AtStart])
    (by simp; decide) (by decide)
  have hending := Respaced.ending ";1\n\ta:".toList "a:".toList
  have htrail := Respaced.trail ";1\n\ta:\r\na:".toList .last hother
  exact (((Relation.ReflTransGen.single hline).tail hindent).tail hending).tail htrail

theorem assemble_labelledTwice :
    Relation.ReflTransGen Respaced labelledTwice labelledTwiceSpaced ∧
      assemble labelledTwice =
        .error { cause := .duplicateSymbol "a" 1, line := some 2 } ∧
      assemble labelledTwiceSpaced =
        .error { cause := .duplicateSymbol "a" 2, line := some 3 } ∧
      ∃ f, KeepsLines labelledTwice labelledTwiceSpaced f ∧ ∀ e,
        assemble labelledTwice = .error e → assemble labelledTwiceSpaced = .error (e.renumber f) :=
  ⟨respaced_labelledTwice, rfl, rfl, (assemble_respaced respaced_labelledTwice).2⟩

end Accumulator
