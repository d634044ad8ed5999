import Accumulator.Proofs.Text.Scan
import Accumulator.Text.Blank
import Mathlib.Data.List.Basic
import Mathlib.Data.List.Induction

/-!
Blanks around a text and between its words. Trimming cuts off exactly the blanks
at both ends, so a text that neither starts nor ends with a blank is what is left
of it with any blanks around it.
-/

namespace Accumulator.Text

variable {c : Char} {cs before behind : List Char}

theorem isBlank_of_isSpacing (h : isSpacing c = true) : isBlank c = true := by
  simp only [isSpacing, Bool.or_eq_true, beq_iff_eq] at h
  rcases h with rfl | rfl <;> rfl

theorem trimEnd_concat_of_isBlank (hc : isBlank c = true) (cs : List Char) :
    trimEnd (cs ++ [c]) = trimEnd cs := by
  induction cs with
  | nil => simp [trimEnd, hc]
  | cons d ds ih => rw [List.cons_append, trimEnd, ih, trimEnd]

theorem trimEnd_concat_of_not_isBlank (hc : isBlank c = false) (cs : List Char) :
    trimEnd (cs ++ [c]) = cs ++ [c] := by
  induction cs with
  | nil => simp [trimEnd, hc]
  | cons d ds ih =>
    have hrest : ds ++ [c] ≠ [] := List.concat_ne_nil c ds
    rw [List.cons_append, trimEnd, ih]
    split
    next hnil => exact absurd hnil hrest
    next hcons => rw [hcons]

theorem trim_concat_of_isBlank (hc : isBlank c = true) (cs : List Char) :
    trim (cs ++ [c]) = trim cs := by
  induction cs with
  | nil => simp [trim, hc, trimEnd]
  | cons d ds ih =>
    by_cases hd : isBlank d = true
    · simpa [trim, hd] using ih
    · have hstart (cs : List Char) : trim (d :: cs) = trimEnd (d :: cs) := by simp [trim, hd]
      rw [List.cons_append, hstart, hstart, ← List.cons_append, trimEnd_concat_of_isBlank hc]

/-- Blanks around a text are cut off with its own. -/
theorem trim_between (hbefore : ∀ c ∈ before, isBlank c = true)
    (hbehind : ∀ c ∈ behind, isBlank c = true) (cs : List Char) :
    trim (before ++ (cs ++ behind)) = trim cs := by
  have hstart : trim (before ++ (cs ++ behind)) = trim (cs ++ behind) := by
    rw [trim, List.dropWhile_append_of_pos hbefore, trim]
  rw [hstart]
  induction behind using List.reverseRecOn with
  | nil => rw [List.append_nil]
  | append_singleton rest d ih =>
    have hrest : ∀ c ∈ rest, isBlank c = true := fun c hc => hbehind c (List.mem_append_left _ hc)
    rw [← List.append_assoc, trim_concat_of_isBlank (hbehind d (by simp)), ih hrest]
    rw [trim, List.dropWhile_append_of_pos hbefore, trim]

/-- What is cut off the end are blanks, and all of them. -/
theorem exists_trimEnd (cs : List Char) : ∃ behind : List Char, (∀ c ∈ behind, isBlank c = true) ∧
    cs = trimEnd cs ++ behind ∧ ∀ c ∈ (trimEnd cs).getLast?, isBlank c = false := by
  induction cs using List.reverseRecOn with
  | nil => exact ⟨[], List.forall_mem_nil _, rfl, nofun⟩
  | append_singleton start c ih =>
    by_cases hc : isBlank c = true
    · obtain ⟨behind, hbehind, hsplit, hlast⟩ := ih
      refine ⟨behind ++ [c], ?_, ?_, ?_⟩
      · rw [List.forall_mem_append, List.forall_mem_singleton]
        exact ⟨hbehind, hc⟩
      · rw [trimEnd_concat_of_isBlank hc, ← List.append_assoc, ← hsplit]
      · rwa [trimEnd_concat_of_isBlank hc]
    · rw [Bool.not_eq_true] at hc
      rw [trimEnd_concat_of_not_isBlank hc]
      refine ⟨[], List.forall_mem_nil _, (List.append_nil _).symm, ?_⟩
      intro d hd
      rw [List.getLast?_concat, Option.mem_some_iff] at hd
      exact hd ▸ hc

theorem trim_cons_of_not_isBlank (hc : isBlank c = false) (cs : List Char) :
    trim (c :: cs) = c :: trimEnd cs := by
  rw [trim, List.dropWhile_cons_of_neg (by simp [hc]), trimEnd]
  split
  next hnil => rw [hnil, if_neg (by simp [hc])]
  next hcons => rw [hcons]

theorem mem_of_mem_trim (h : c ∈ trim cs) : c ∈ cs := by
  obtain ⟨behind, -, hsplit, -⟩ := exists_trimEnd (cs.dropWhile isBlank)
  refine (List.dropWhile_suffix isBlank).subset ?_
  rw [hsplit]
  exact List.mem_append_left behind h

/-- A text that neither starts nor ends with a blank. -/
structure Solid (cs : List Char) : Prop where
  nonempty : cs ≠ []
  head : Stops isBlank cs
  last : ∀ c ∈ cs.getLast?, isBlank c = false

theorem Solid.trim (h : Solid cs) : trim cs = cs := by
  rcases List.eq_nil_or_concat cs with rfl | ⟨start, c, rfl⟩
  · exact absurd rfl h.nonempty
  · have hc : isBlank c = false := h.last c (by simp)
    rw [Text.trim, dropWhile_of_stops h.head, List.concat_eq_append,
      trimEnd_concat_of_not_isBlank hc]

theorem solid_of_not_isBlank (hne : cs ≠ []) (h : ∀ c ∈ cs, isBlank c = false) : Solid cs where
  nonempty := hne
  head := fun c hc => h c (List.mem_of_mem_head? hc)
  last := fun c hc => h c (List.mem_of_mem_getLast? hc)

theorem solid_trim_cons (hc : isBlank c = false) (cs : List Char) : Solid (trim (c :: cs)) := by
  rw [trim_cons_of_not_isBlank hc]
  refine ⟨List.cons_ne_nil _ _, stops_cons hc, ?_⟩
  obtain ⟨-, -, -, hlast⟩ := exists_trimEnd cs
  cases htrim : trimEnd cs with
  | nil => exact fun d hd => by rwa [← Option.mem_some_iff.1 hd]
  | cons d ds => rwa [List.getLast?_cons_cons, ← htrim]

/-- Whatever stands between two such texts, they make up one. -/
theorem Solid.append {ds : List Char} (h : Solid cs) (between : List Char) (hds : Solid ds) :
    Solid (cs ++ (between ++ ds)) where
  nonempty := by simp [h.nonempty]
  head := by
    obtain ⟨c, rest, rfl⟩ := List.exists_cons_of_ne_nil h.nonempty
    exact h.head
  last := by
    rw [← List.append_assoc, List.getLast?_append_of_ne_nil _ hds.nonempty]
    exact hds.last

/-- The blanks at the end of a text are those at the end of its last part. -/
theorem Solid.trim_append (h : Solid before) (between : List Char) (hc : isBlank c = false)
    (cs : List Char) :
    Text.trim (before ++ (between ++ c :: cs)) = before ++ (between ++ Text.trim (c :: cs)) := by
  obtain ⟨behind, hbehind, hsplit, -⟩ := exists_trimEnd (c :: cs)
  have htrim : trimEnd (c :: cs) = Text.trim (c :: cs) := by
    rw [Text.trim, List.dropWhile_cons_of_neg (by simp [hc])]
  rw [htrim] at hsplit
  have hwhole := trim_between (List.forall_mem_nil _) hbehind
    (before ++ (between ++ Text.trim (c :: cs)))
  rw [(h.append between (solid_trim_cons hc cs)).trim] at hwhole
  conv_lhs => rw [hsplit]
  simpa using hwhole

theorem wordCount_eq_one (hne : cs ≠ []) (h : ∀ c ∈ cs, isBlank c = false) :
    wordCount cs = 1 := by
  induction cs with
  | nil => exact absurd rfl hne
  | cons c rest ih =>
    rw [List.forall_mem_cons] at h
    cases rest with
    | nil => simp [wordCount, h.1]
    | cons d ds => simpa [wordCount, h.2 d] using ih (List.cons_ne_nil d ds) h.2

/-- A text without words is blank. -/
theorem isBlank_of_wordCount_eq_zero (h : wordCount cs = 0) : ∀ c ∈ cs, isBlank c = true := by
  induction cs with
  | nil => exact fun c hc => nomatch hc
  | cons c rest ih =>
    rw [List.forall_mem_cons]
    cases rest with
    | nil => simpa [wordCount] using h
    | cons d ds =>
      rw [wordCount] at h
      split at h
      next => nomatch h
      next hgoes =>
        have hrest := ih h
        have hd : isBlank d = true := hrest d List.mem_cons_self
        exact ⟨by simpa [hd] using hgoes, hrest⟩

theorem Solid.wordCount_ne_zero (h : Solid cs) : wordCount cs ≠ 0 := by
  intro hzero
  obtain ⟨c, rest, rfl⟩ := List.exists_cons_of_ne_nil h.nonempty
  have hblank := isBlank_of_wordCount_eq_zero hzero c List.mem_cons_self
  rw [h.head c rfl] at hblank
  nomatch hblank

end Accumulator.Text
