import Accumulator.Proofs.Arrival.Lines
import Mathlib.Algebra.Group.Nat.Defs
import Mathlib.Data.List.ReduceOption

/-!
Files with one arrival to a line. Such a file is read back as its arrivals, line
by line and closed by a null symbol, as long as the ticks never decrease. If one
does, the reader refuses the first arrival that comes before the one above it,
and what it has not read is that arrival and everything behind.
-/

namespace Accumulator.Arrival

open Text

variable {a : Arrival} {arrivals before behind : List Arrival} {cs line rest text : List Char}

/-- A line that holds one arrival or none, with any blanks, tabs and carriage returns around it. -/
inductive Line : Option Arrival → List Char → Prop where
  | blank {padding : List Char} (hpadding : ∀ c ∈ padding, (isSpacing c || c == '\r') = true) :
    Line none padding
  | arrival {a : Arrival} {before body behind : List Char}
    (hbefore : ∀ c ∈ before, (isSpacing c || c == '\r') = true) (hbody : Written a body)
    (hbehind : ∀ c ∈ behind, (isSpacing c || c == '\r') = true) :
    Line (some a) (before ++ (body ++ behind))

theorem isPadding_of_mem {padding : List Char}
    (h : ∀ c ∈ padding, (isSpacing c || c == '\r') = true) :
    ∀ c ∈ padding, (isSpacing c || isLineEnd c) = true := by
  intro c hc
  have hblank := h c hc
  rw [Bool.or_eq_true] at hblank ⊢
  refine hblank.imp_right fun hreturn => ?_
  rw [isLineEnd, hreturn]
  rfl

theorem written_of_readOne {body : List Char} (h : readOne body = .ok (a, [])) :
    Written a body := by
  obtain ⟨written, hwritten, hbody⟩ := readOne_eq_ok_iff.1 h
  rw [List.append_nil] at hbody
  exact hbody ▸ hwritten

/-- An arrival may stand on its line alone. -/
theorem Written.alone {body : List Char} (h : Written a body) : Line (some a) body := by
  have hnone : ∀ c ∈ ([] : List Char), (isSpacing c || c == '\r') = true := List.forall_mem_nil _
  have hline := Line.arrival hnone h hnone
  rwa [List.nil_append, List.append_nil] at hline

theorem Line.spells {said : Option Arrival} (h : Line said line) : Spells said.toList line := by
  cases h with
  | blank hpadding => exact .nil (isPadding_of_mem hpadding)
  | arrival hbefore hbody hbehind =>
    exact .cons (isPadding_of_mem hbefore) hbody (.nil (isPadding_of_mem hbehind))

/-- Lines with a line feed between them spell what they hold, one behind the other. -/
theorem spells_intercalate {said : List (Option Arrival)} {lines : List (List Char)}
    (h : List.Forall₂ Line said lines) :
    Spells said.reduceOption (['\n'].intercalate lines) := by
  induction h with
  | nil => exact .nil fun c hc => nomatch hc
  | @cons first line said lines hline hlines ih =>
    have harrivals : (first :: said).reduceOption = first.toList ++ said.reduceOption := by
      cases first with
      | none => exact List.reduceOption_cons_of_none said
      | some a => exact List.reduceOption_cons_of_some a said
    rw [harrivals]
    cases hlines with
    | nil => simpa using hline.spells
    | cons hsecond hlines =>
      rw [List.intercalate_cons_cons]
      simpa using hline.spells.append ih

/-- Arrivals that are spelled can be told apart at any place between them. -/
theorem Spells.exists_split (h : Spells (before ++ behind) text) :
    ∃ cs rest, text = cs ++ rest ∧ Spells before cs ∧ Spells behind rest := by
  induction before generalizing text with
  | nil => exact ⟨[], text, rfl, .nil fun c hc => (List.not_mem_nil hc).elim, h⟩
  | cons a before ih =>
    cases h with
    | @cons _ _ padding body tail hpadding hbody htail =>
      obtain ⟨cs, rest, rfl, hcs, hrest⟩ := ih htail
      exact ⟨padding ++ (body ++ cs), rest, by simp, .cons hpadding hbody hcs, hrest⟩

/-- The tick that the next arrival must not come before. -/
def lastTick (previous : Nat) (arrivals : List Arrival) : Nat :=
  (arrivals.map Arrival.tick).getLastD previous

theorem lastTick_cons (previous : Nat) (a : Arrival) (arrivals : List Arrival) :
    lastTick previous (a :: arrivals) = lastTick a.tick arrivals := by
  rw [lastTick, List.map_cons, List.getLastD_cons, lastTick]

theorem lastTick_concat (previous : Nat) (arrivals : List Arrival) (a : Arrival) :
    lastTick previous (arrivals ++ [a]) = a.tick := by
  rw [lastTick, List.map_append, List.map_singleton, List.getLastD_concat]

/-- Arrivals in order are read off the head of a text, and reading goes on behind them. -/
theorem readFrom_append {previous : Nat} (h : Spells arrivals cs)
    (hordered : OrderedFrom previous arrivals) (rest : List Char) :
    readFrom previous (cs ++ rest) =
      (arrivals ++ ·) <$> readFrom (lastTick previous arrivals) rest := by
  induction h generalizing previous with
  | @nil padding hpadding =>
    have hskip : skipAnySpace (padding ++ rest) = skipAnySpace rest :=
      List.dropWhile_append_of_pos hpadding
    have hread : readFrom previous (padding ++ rest) = readFrom previous rest := by
      rw [readFrom.eq_1 previous (padding ++ rest), readFrom.eq_1 previous rest, hskip]
    rw [hread]
    exact (id_map _).symm
  | @cons a arrivals padding body tail hpadding hbody _ ih =>
    obtain ⟨hlater, hordered⟩ := orderedFrom_cons.1 hordered
    rw [List.append_assoc, List.append_assoc, readFrom_written hpadding hbody,
      if_neg (Nat.not_lt.2 hlater), ih hordered, lastTick_cons, Functor.map_map]
    rfl

/-- Arrivals that are not in order have a first one that comes too early. -/
theorem exists_first_early {previous : Nat} (h : ¬OrderedFrom previous arrivals) :
    ∃ before b behind, arrivals = before ++ b :: behind ∧ OrderedFrom previous before ∧
      b.tick < lastTick previous before := by
  induction arrivals generalizing previous with
  | nil => exact absurd (.singleton previous) h
  | cons a arrivals ih =>
    by_cases hlater : previous ≤ a.tick
    · have hrest : ¬OrderedFrom a.tick arrivals := fun hrest =>
        h (orderedFrom_cons.2 ⟨hlater, hrest⟩)
      obtain ⟨before, b, behind, rfl, hordered, hearly⟩ := ih hrest
      refine ⟨a :: before, b, behind, rfl, orderedFrom_cons.2 ⟨hlater, hordered⟩, ?_⟩
      rwa [lastTick_cons]
    · exact ⟨[], a, arrivals, rfl, .singleton previous, Nat.not_le.1 hlater⟩

/-- Reading stops at the first arrival that comes too early, with the rest of the text unread. -/
theorem exists_disorder (h : Spells arrivals text)
    (hordered : ¬(arrivals.map Arrival.tick).Pairwise (· ≤ ·)) :
    ∃ before a b behind body rest, arrivals = before ++ a :: b :: behind ∧
      ((before ++ [a]).map Arrival.tick).Pairwise (· ≤ ·) ∧ b.tick < a.tick ∧ Written b body ∧
      Spells behind rest ∧
      readAll text = .error { rest := body ++ rest, cause := some ⟨b.tick, a.tick⟩ } := by
  rw [← orderedFrom_zero_iff] at hordered
  obtain ⟨earlier, b, behind, rfl, hearlier, hearly⟩ := exists_first_early hordered
  obtain ⟨cs, tail, rfl, hcs, htail⟩ := h.exists_split
  rcases List.eq_nil_or_concat earlier with rfl | ⟨before, a, rfl⟩
  · exact absurd hearly (Nat.not_lt_zero b.tick)
  · rw [List.concat_eq_append] at hearlier hearly hcs ⊢
    rw [lastTick_concat] at hearly
    cases htail with
    | @cons _ _ padding body rest hpadding hbody hrest =>
      refine ⟨before, a, b, behind, body, rest, by simp, orderedFrom_zero_iff.1 hearlier, hearly,
        hbody, hrest, ?_⟩
      rw [readAll, readFrom_append hcs hearlier, lastTick_concat, readFrom_written hpadding hbody,
        if_pos hearly]
      rfl

/-- The null symbol behind the last arrival, if there is one. -/
theorem close_eq (arrivals : List Arrival) : close arrivals = arrivals ++
    (arrivals.getLast?.map fun last => ⟨min (last.tick + 100) (2 ^ 64 - 1), 0⟩).toList := by
  unfold close
  cases hlast : arrivals.getLast? with
  | none => rw [List.getLast?_eq_none_iff.1 hlast]; rfl
  | some last => rfl

theorem Spells.tick_lt (h : Spells arrivals text) : ∀ a ∈ arrivals, a.tick < 2 ^ 64 := by
  induction h with
  | nil => exact fun a ha => nomatch ha
  | cons _ hbody _ ih =>
    rw [List.forall_mem_cons]
    cases hbody with
    | mk _ _ hbound _ _ _ => exact ⟨hbound, ih⟩

/-- The null symbol does not come before the last arrival. -/
theorem ordered_close (h : Spells arrivals text)
    (hordered : (arrivals.map Arrival.tick).Pairwise (· ≤ ·)) :
    ((close arrivals).map Arrival.tick).Pairwise (· ≤ ·) := by
  rcases List.eq_nil_or_concat arrivals with rfl | ⟨before, last, rfl⟩
  · exact .nil
  · rw [List.concat_eq_append] at h hordered ⊢
    have hbound : last.tick < 2 ^ 64 := h.tick_lt last (by simp)
    have hlater : last.tick ≤ min (last.tick + 100) (2 ^ 64 - 1) := by omega
    rw [close_eq, List.getLast?_concat, List.map_append, List.pairwise_append]
    refine ⟨hordered, List.pairwise_singleton _ _, ?_⟩
    intro tick htick other hother
    have hother : other = min (last.tick + 100) (2 ^ 64 - 1) := by simpa using hother
    rw [hother]
    refine le_trans ?_ hlater
    rw [List.map_append, List.pairwise_append] at hordered
    rw [List.map_append, List.mem_append] at htick
    rcases htick with hbefore | hlast
    · exact hordered.2.2 tick hbefore last.tick (by simp)
    · exact le_of_eq (by simpa using hlast)

/-- A file with one arrival to a line is read as its arrivals in order, and then the null symbol; or
it is refused for the first arrival that comes before the one above it. -/
theorem readAll_listed (said : List (Option Arrival)) (lines : List (List Char))
    (h : List.Forall₂ Line said lines) :
    ((said.reduceOption.map Arrival.tick).Pairwise (· ≤ ·) → ∃ events,
      readAll (['\n'].intercalate lines) = .ok events ∧
        events = said.reduceOption ++ (said.reduceOption.getLast?.map fun last =>
          ⟨min (last.tick + 100) (2 ^ 64 - 1), 0⟩).toList ∧
        (events.map Arrival.tick).Pairwise (· ≤ ·)) ∧
      (¬(said.reduceOption.map Arrival.tick).Pairwise (· ≤ ·) →
        ∃ before a b behind body rest, said.reduceOption = before ++ a :: b :: behind ∧
          ((before ++ [a]).map Arrival.tick).Pairwise (· ≤ ·) ∧ b.tick < a.tick ∧
          Written b body ∧ Spells behind rest ∧
          readAll (['\n'].intercalate lines) =
            .error { rest := body ++ rest, cause := some ⟨b.tick, a.tick⟩ }) := by
  have hspells := spells_intercalate h
  refine ⟨?_, exists_disorder hspells⟩
  intro hordered
  refine ⟨close said.reduceOption, ?_, close_eq _, ordered_close hspells hordered⟩
  rw [readAll, readFrom_eq_ok_iff.2 ⟨hspells, orderedFrom_zero_iff.2 hordered⟩]
  rfl

/-- A tick with leading zeros, a line with nothing on it, and a tick so late that the null symbol
cannot come a full delay after it. -/
def saturated : List (List Char) :=
  ['\t' :: ("007  é".toList ++ [' ', '\r']), " \t".toList, "18446744073709551600 x".toList]

/-- The second arrival comes before the first. -/
def early : List (List Char) := ["5 a".toList, [], "3\tb".toList]

theorem readAll_listed_saturated :
    List.Forall₂ Line [some ⟨7, 233⟩, none, some ⟨18446744073709551600, 120⟩] saturated ∧
      (∃ events, readAll (['\n'].intercalate saturated) = .ok events ∧
        events = [⟨7, 233⟩, ⟨18446744073709551600, 120⟩, ⟨18446744073709551615, 0⟩]) ∧
      List.Forall₂ Line [some ⟨5, 97⟩, none, some ⟨3, 98⟩] early ∧
      ∃ rest, readAll (['\n'].intercalate early) = .error { rest, cause := some ⟨3, 5⟩ } := by
  have hsaturated : List.Forall₂ Line [some ⟨7, 233⟩, none, some ⟨18446744073709551600, 120⟩]
      saturated := by
    have hfirst : Written ⟨7, 233⟩ "007  é".toList := written_of_readOne (by decide +kernel)
    have hlast : Written ⟨18446744073709551600, 120⟩ "18446744073709551600 x".toList :=
      @Written.mk _ "18446744073709551600".toList [' '] 'x'
        ⟨by decide, List.all_eq_true.1 (by decide)⟩ (by decide) (by decide)
        ⟨by decide, List.all_eq_true.1 (by decide)⟩ rfl (by decide)
    have hpadded : Line (some ⟨7, 233⟩) ('\t' :: ("007  é".toList ++ [' ', '\r'])) :=
      @Line.arrival _ ['\t'] _ [' ', '\r'] (List.all_eq_true.1 (by decide)) hfirst
        (List.all_eq_true.1 (by decide))
    exact .cons hpadded (.cons (.blank (List.all_eq_true.1 (by decide))) (.cons hlast.alone .nil))
  have hearly : List.Forall₂ Line [some ⟨5, 97⟩, none, some ⟨3, 98⟩] early := by
    have hfirst : Written ⟨5, 97⟩ "5 a".toList := written_of_readOne (by decide +kernel)
    have hlast : Written ⟨3, 98⟩ "3\tb".toList := written_of_readOne (by decide +kernel)
    exact .cons hfirst.alone (.cons (.blank (List.forall_mem_nil _)) (.cons hlast.alone .nil))
  obtain ⟨events, hread, hevents, -⟩ := (readAll_listed _ _ hsaturated).1 (by decide)
  obtain ⟨before, a, b, behind, body, rest, hsplit, -, hb, -, -, hdisorder⟩ :=
    (readAll_listed _ _ hearly).2 (by decide)
  refine ⟨hsaturated, ⟨events, hread, hevents⟩, hearly, body ++ rest, ?_⟩
  cases before with
  | nil =>
    cases hsplit
    exact hdisorder
  | cons c before =>
    have hlength : 2 = (c :: before ++ a :: b :: behind).length := congrArg List.length hsplit
    simp only [List.length_cons, List.length_append] at hlength
    omega

end Accumulator.Arrival
