import Accumulator.Proofs.Source.Words

/-!
The longest token at the head of a text. The classes of tokens are given by how
they are spelled, and the first character tells the class but for names and
labels. So a token is as long as any other that starts where it does, once the
next character cannot go on with it.
-/

namespace Accumulator.Source.Token

open Text

/-- Which token is taken at the head of a text, with its spelling and what is behind it: the
longest one that starts there, and a single stray character where none does. -/
inductive Taken : Token → List Char → List Char → Prop where
  | longest {t : Token} {spelling behind : List Char} (h : Spelled t spelling)
      (hlongest : ∀ u other, Spelled u other → other <+: spelling ++ behind →
        other.length ≤ spelling.length) : Taken t spelling behind
  | stray {c : Char} {behind : List Char} (hgap : isGap c = false)
      (hnone : ∀ u other, Spelled u other → ¬other <+: c :: behind) : Taken (.stray c) [c] behind

/-- Whether what is behind a token cannot go on with it: behind a word neither a character of a
name nor the colon of a label, behind a literal no digit. -/
def Ended : Token → List Char → Prop
  | .word _, behind => Stops isNameChar behind ∧ Stops (· == ':') behind
  | .literal _, behind => Stops Char.isDigit behind
  | _, _ => True

variable {c : Char} {behind behind' cs other spelling spelling' : List Char} {t t' u : Token}

section Classes

theorem isNameStart_of_isStart (h : Decimal.IsStart c) : isNameStart c = false := by
  rcases h with h | rfl | rfl
  · exact isNameStart_of_isDigit h
  · rfl
  · rfl

theorem ne_point_of_isStart (h : Decimal.IsStart c) : c ≠ '.' := by
  rintro rfl
  rcases h with h | h | h <;> exact absurd h (by decide)

/-- How a spelling goes on behind its first character, which tells names and labels, literals and
markers apart. -/
inductive Shape : Char → List Char → Prop where
  | name {c : Char} {cs : List Char} (hstart : isNameStart c = true)
      (hall : ∀ d ∈ cs, isNameChar d = true ∨ d = ':')
      (hinner : ∀ d ∈ cs.dropLast, isNameChar d = true) : Shape c cs
  | literal {c : Char} {cs : List Char} (hstart : Decimal.IsStart c)
      (hall : ∀ d ∈ cs, d.isDigit = true) (hsome : c.isDigit = true ∨ cs ≠ []) : Shape c cs
  | marker {cs : List Char} (htail : cs = codeTail ∨ cs = dataTail) : Shape '.' cs

theorem Spelled.exists_shape (h : Spelled t spelling) :
    ∃ c cs, spelling = c :: cs ∧ Shape c cs := by
  cases h with
  | codeMarker => exact ⟨_, _, rfl, .marker (.inl rfl)⟩
  | dataMarker => exact ⟨_, _, rfl, .marker (.inr rfl)⟩
  | label hname =>
    obtain ⟨c, cs, hchars, hstart, hcs⟩ := hname
    refine ⟨c, cs ++ [':'], by rw [hchars, List.cons_append], .name hstart ?_ ?_⟩
    · rw [List.forall_mem_append, List.forall_mem_singleton]
      exact ⟨fun d hd => .inl (hcs d hd), .inr rfl⟩
    · rw [List.dropLast_concat]
      exact hcs
  | word hname =>
    obtain ⟨c, cs, hchars, hstart, hcs⟩ := hname
    exact ⟨c, cs, hchars, .name hstart (fun d hd => .inl (hcs d hd)) fun d hd =>
      hcs d (List.dropLast_subset cs hd)⟩
  | literal hliteral =>
    obtain ⟨c, cs, hchars⟩ := List.exists_cons_of_ne_nil hliteral.ne_nil
    rw [hchars] at hliteral
    obtain ⟨hstart, hall, hsome⟩ := Decimal.exists_literal_cons_iff.1 ⟨_, hliteral⟩
    exact ⟨c, cs, hchars, .literal hstart hall hsome⟩

theorem Spelled.shape (h : Spelled t (c :: cs)) : Shape c cs := by
  obtain ⟨_, _, heq, hshape⟩ := h.exists_shape
  cases heq
  exact hshape

theorem Shape.of_isNameStart (h : Shape c cs) (hc : isNameStart c = true) :
    (∀ d ∈ cs, isNameChar d = true ∨ d = ':') ∧ ∀ d ∈ cs.dropLast, isNameChar d = true := by
  cases h with
  | name _ hall hinner => exact ⟨hall, hinner⟩
  | literal hstart _ _ =>
    rw [isNameStart_of_isStart hstart] at hc
    cases hc
  | marker _ => cases hc

theorem Shape.of_isStart (h : Shape c cs) (hc : Decimal.IsStart c) :
    (∀ d ∈ cs, d.isDigit = true) ∧ (c.isDigit = true ∨ cs ≠ []) := by
  cases h with
  | name hstart _ _ =>
    rw [isNameStart_of_isStart hc] at hstart
    cases hstart
  | literal _ hall hsome => exact ⟨hall, hsome⟩
  | marker _ => exact absurd rfl (ne_point_of_isStart hc)

theorem Shape.of_point (h : Shape '.' cs) : cs = codeTail ∨ cs = dataTail := by
  cases h with
  | name hstart _ _ => cases hstart
  | literal hstart _ _ => exact absurd rfl (ne_point_of_isStart hstart)
  | marker htail => exact htail

/-- There is no gap within a token. -/
theorem Spelled.isGap_eq_false (h : Spelled t spelling) (hc : c ∈ spelling) : isGap c = false := by
  have hname {d : Char} (hd : isNameChar d = true) : isGap d = false :=
    isGap_of_not_isBlank (isBlank_of_isNameChar hd)
  obtain ⟨d, ds, rfl, hshape⟩ := h.exists_shape
  cases hshape with
  | name hstart hall _ =>
    rcases List.mem_cons.1 hc with rfl | hc
    · exact hname (isNameChar_of_isNameStart hstart)
    · rcases hall c hc with hc | rfl
      · exact hname hc
      · rfl
  | literal hstart hall _ =>
    rcases List.mem_cons.1 hc with rfl | hc
    · rcases hstart with hdigit | rfl | rfl
      · exact hname (isNameChar_of_isDigit hdigit)
      · rfl
      · rfl
    · exact hname (isNameChar_of_isDigit (hall c hc))
  | marker htail =>
    have hcode : ('.' :: codeTail).all (isGap · == false) = true := by decide
    have hdata : ('.' :: dataTail).all (isGap · == false) = true := by decide
    rcases htail with rfl | rfl
    · exact eq_of_beq (List.all_eq_true.1 hcode c hc)
    · exact eq_of_beq (List.all_eq_true.1 hdata c hc)

/-- No two tokens are spelled alike. -/
theorem Spelled.unique (h : Spelled t spelling) (h' : Spelled t' spelling) : t = t' := by
  have hread := (h.next? Spaced.nil.parted).symm.trans (h'.next? Spaced.nil.parted)
  cases hread
  rfl

theorem Spelled.chars_eq (h : Spelled t spelling) : t.chars = spelling := by
  cases h <;> rfl

theorem isName_ofList (hc : isNameStart c = true) (hcs : ∀ d ∈ cs, isNameChar d = true) :
    IsName (String.ofList (c :: cs)) :=
  ⟨c, cs, String.toList_ofList, hc, hcs⟩

theorem spelled_literal {lit : List Char} (h : ∃ n, Decimal.Literal n lit) :
    Spelled (.literal (String.ofList lit)) (String.ofList lit).toList := by
  obtain ⟨n, h⟩ := h
  rw [← String.toList_ofList (l := lit)] at h
  exact .literal h

end Classes

section Ends

theorem forall_mem_concat {p : Char → Prop} (hcs : ∀ d ∈ cs, p d) (hc : p c) :
    ∀ d ∈ cs ++ [c], p d :=
  List.forall_mem_append.2 ⟨hcs, List.forall_mem_singleton.2 hc⟩

/-- What is longer than a beginning of the text goes on with the next character. -/
theorem exists_of_length_lt (hbegins : other <+: spelling ++ behind)
    (hlonger : spelling.length < other.length) :
    ∃ d ds, other = spelling ++ d :: ds ∧ d ∈ behind.head? := by
  have hwithin : spelling <+: other :=
    List.prefix_of_prefix_length_le (List.prefix_append _ _) hbegins hlonger.le
  obtain ⟨more, rfl⟩ := hwithin
  rw [List.prefix_append_right_inj] at hbegins
  obtain ⟨d, ds, rfl⟩ := List.exists_cons_of_ne_nil (l := more) (by rintro rfl; simp at hlonger)
  obtain ⟨others, rfl⟩ := hbegins
  exact ⟨d, ds, rfl, rfl⟩

/-- A token that has ended is as long as any that starts where it does. -/
theorem Spelled.length_le_of_ended (h : Spelled t spelling) (hended : t.Ended behind)
    (hother : Spelled u other) (hbegins : other <+: spelling ++ behind) :
    other.length ≤ spelling.length := by
  by_contra hlonger
  obtain ⟨d, ds, rfl, hnext⟩ := exists_of_length_lt hbegins (Nat.lt_of_not_le hlonger)
  cases h with
  | codeMarker => rcases hother.shape.of_point with heq | heq <;> cases heq
  | dataMarker => rcases hother.shape.of_point with heq | heq <;> cases heq
  | label hname =>
    obtain ⟨c, cs, hchars, hstart, -⟩ := hname
    rw [hchars, List.append_assoc] at hother
    -- only the last character of a label is a colon
    have hcolon := (hother.shape.of_isNameStart hstart).2 ':' (by simp)
    cases hcolon
  | word hname =>
    obtain ⟨c, cs, hchars, hstart, -⟩ := hname
    rw [hchars] at hother
    rcases (hother.shape.of_isNameStart hstart).1 d (by simp) with hd | rfl
    · rw [hended.1 d hnext] at hd
      cases hd
    · cases hended.2 ':' hnext
  | literal hliteral =>
    obtain ⟨c, cs, hchars⟩ := List.exists_cons_of_ne_nil hliteral.ne_nil
    rw [hchars] at hliteral hother
    have hstart := (Decimal.exists_literal_cons_iff.1 ⟨_, hliteral⟩).1
    have hd := (hother.shape.of_isStart hstart).1 d (by simp)
    rw [hended d hnext] at hd
    cases hd

theorem Taken.of_ended (h : Spelled t spelling) (hended : t.Ended behind) :
    Taken t spelling behind :=
  .longest h fun _ _ => h.length_le_of_ended hended

/-- A token that has not ended is the beginning of a longer one. -/
theorem Spelled.exists_concat (h : Spelled t spelling) (hgoesOn : ¬t.Ended (c :: behind)) :
    ∃ u, Spelled u (spelling ++ [c]) := by
  cases h with
  | codeMarker => exact absurd trivial hgoesOn
  | dataMarker => exact absurd trivial hgoesOn
  | label _ => exact absurd trivial hgoesOn
  | word hname =>
    by_cases hc : isNameChar c = true
    · obtain ⟨d, ds, hchars, hstart, hds⟩ := hname
      rw [hchars, List.cons_append, ← String.toList_ofList (l := d :: (ds ++ [c]))]
      exact ⟨_, .word (isName_ofList hstart (forall_mem_concat hds hc))⟩
    · obtain rfl : c = ':' := by
        by_contra hother
        exact hgoesOn ⟨stops_cons (Bool.not_eq_true _ ▸ hc), stops_cons (beq_false_of_ne hother)⟩
      exact ⟨_, .label hname⟩
  | literal hliteral =>
    have hc : c.isDigit = true := by
      by_contra hother
      exact hgoesOn (stops_cons (Bool.not_eq_true _ ▸ hother))
    obtain ⟨d, ds, hchars⟩ := List.exists_cons_of_ne_nil hliteral.ne_nil
    rw [hchars] at hliteral
    obtain ⟨hstart, hds, -⟩ := Decimal.exists_literal_cons_iff.1 ⟨_, hliteral⟩
    rw [hchars, List.cons_append, ← String.toList_ofList (l := d :: (ds ++ [c]))]
    exact ⟨_, spelled_literal (Decimal.exists_literal_cons_iff.2
      ⟨hstart, forall_mem_concat hds hc, .inr (List.concat_ne_nil c ds)⟩)⟩

/-- The longest token cannot be gone on with. -/
theorem Taken.ended (h : Taken t spelling behind) : t.Ended behind := by
  cases h with
  | stray _ _ => trivial
  | longest h hlongest =>
    cases behind with
    | nil => cases h <;> simp [Ended, Stops]
    | cons c ds =>
      by_contra hgoesOn
      obtain ⟨u, hlonger⟩ := h.exists_concat hgoesOn
      have hlength := hlongest u _ hlonger (by simp)
      rw [List.length_append, List.length_singleton] at hlength
      omega

theorem Taken.chars_eq (h : Taken t spelling behind) : t.chars = spelling := by
  cases h with
  | longest h _ => exact h.chars_eq
  | stray _ _ => rfl

theorem Taken.spelled_or_stray (h : Taken t spelling behind) :
    Spelled t spelling ∨ ∃ c, t = .stray c := by
  cases h with
  | longest h _ => exact .inl h
  | @stray c _ _ _ => exact .inr ⟨c, rfl⟩

theorem Taken.isGap_eq_false (h : Taken t spelling behind) (hc : c ∈ spelling) :
    isGap c = false := by
  cases h with
  | longest h _ => exact h.isGap_eq_false hc
  | stray hgap _ => exact List.mem_singleton.1 hc ▸ hgap

theorem Taken.ne_nil (h : Taken t spelling behind) : spelling ≠ [] := by
  cases h with
  | longest h _ =>
    obtain ⟨c, cs, rfl, -⟩ := h.exists_shape
    exact List.cons_ne_nil c cs
  | stray _ _ => exact List.cons_ne_nil _ _

/-- Only one token is taken at the head of a text. -/
theorem Taken.unique (h : Taken t spelling behind) (h' : Taken t' spelling' behind')
    (htext : spelling ++ behind = spelling' ++ behind') :
    t = t' ∧ spelling = spelling' ∧ behind = behind' := by
  cases h with
  | longest h hlongest =>
    cases h' with
    | longest h' hlongest' =>
      have hlength : spelling.length = spelling'.length :=
        Nat.le_antisymm (hlongest' _ _ h ⟨behind, htext⟩) (hlongest _ _ h' ⟨behind', htext.symm⟩)
      obtain ⟨rfl, rfl⟩ := List.append_inj htext hlength
      exact ⟨h.unique h', rfl, rfl⟩
    | stray _ hnone => exact absurd ⟨behind, htext⟩ (hnone _ _ h)
  | stray _ hnone =>
    cases h' with
    | longest h' _ => exact absurd ⟨behind', htext.symm⟩ (hnone _ _ h')
    | stray _ _ =>
      cases htext
      exact ⟨rfl, rfl, rfl⟩

end Ends

section Reading

/-- A character is stray if no token goes on from it into the text. -/
theorem Taken.of_none (hgap : isGap c = false) (hnone : ∀ ds, Shape c ds → ¬ds <+: cs) :
    Taken (.stray c) [c] cs := by
  refine .stray hgap fun u other hother hbegins => ?_
  obtain ⟨d, ds, rfl, hshape⟩ := hother.exists_shape
  rw [List.cons_prefix_cons] at hbegins
  obtain ⟨rfl, hbegins⟩ := hbegins
  exact hnone ds hshape hbegins

theorem taken_readName (hc : isNameStart c = true) (cs : List Char) :
    Taken (readName c cs).1 (readName c cs).1.chars (readName c cs).2 := by
  have hall : ∀ d ∈ cs.takeWhile isNameChar, isNameChar d = true :=
    fun _ => List.mem_takeWhile_imp
  have hname := isName_ofList hc hall
  have hstops := stops_dropWhile isNameChar cs
  unfold readName
  split
  next rest hrest => exact .of_ended (.label hname) trivial
  next hword =>
    refine .of_ended (.word hname) ⟨hstops, fun d hd => beq_false_of_ne ?_⟩
    rintro rfl
    obtain ⟨rest, hrest⟩ := List.head?_eq_some_iff.1 hd
    exact hword rest hrest

theorem taken_readLiteral (h : Decimal.IsStart c)
    (hdigits : c.isDigit = true ∨ cs.takeWhile Char.isDigit ≠ []) :
    Taken (readLiteral c cs).1 (readLiteral c cs).1.chars (readLiteral c cs).2 :=
  .of_ended (spelled_literal (Decimal.exists_literal_cons_iff.2
    ⟨h, fun _ => List.mem_takeWhile_imp, hdigits⟩)) (stops_dropWhile Char.isDigit cs)

theorem taken_readMarker (cs : List Char) :
    Taken (readMarker cs).1 (readMarker cs).1.chars (readMarker cs).2 := by
  unfold readMarker
  split
  next => exact .of_ended .codeMarker trivial
  next hcode =>
    split
    next => exact .of_ended .dataMarker trivial
    next hdata =>
      refine .of_none rfl fun ds hshape hbegins => ?_
      rcases hshape.of_point with rfl | rfl
      · exact hcode (List.isPrefixOf_iff_prefix.2 hbegins)
      · exact hdata (List.isPrefixOf_iff_prefix.2 hbegins)

/-- The longest token is read, and one stray character where no token starts. -/
theorem taken_read (hgap : isGap c = false) (cs : List Char) :
    Taken (read c cs).1 (read c cs).1.chars (read c cs).2 := by
  unfold read
  split
  next hname => exact taken_readName hname cs
  next hname =>
    split
    next hdigit => exact taken_readLiteral (.inl hdigit) (.inl hdigit)
    next hdigit =>
      split
      next hsign =>
        split
        next hnone =>
          -- a sign belongs to a literal only with a digit behind it
          refine .of_none hgap fun ds hshape hbegins => ?_
          obtain ⟨hall, hsome⟩ := hshape.of_isStart (.inr hsign)
          obtain ⟨d, others, rfl⟩ := List.exists_cons_of_ne_nil (hsome.resolve_left hdigit)
          obtain ⟨rest, rfl⟩ := hbegins
          simp [hall d] at hnone
        next hsome =>
          exact taken_readLiteral (.inr hsign) (.inr fun h => hsome (List.isEmpty_iff.2 h))
      next hsign =>
        split
        next hpoint =>
          subst hpoint
          exact taken_readMarker cs
        next hpoint =>
          refine .of_none hgap fun ds hshape _ => ?_
          cases hshape with
          | name hstart _ _ => exact hname hstart
          | literal hstart _ _ => exact hstart.elim hdigit hsign
          | marker _ => exact hpoint rfl

theorem next?_eq_none_iff : next? cs = none ↔ ∀ c ∈ cs, isGap c = true := by
  rw [← List.dropWhile_eq_nil_iff]
  unfold next?
  split
  next h => simp [h]
  next h => simp [h]

/-- The next token is the longest one behind the gap. -/
theorem taken_of_next? (h : next? cs = some (t, behind)) :
    cs = cs.takeWhile isGap ++ (t.chars ++ behind) ∧ Taken t t.chars behind := by
  have hskipped := List.takeWhile_append_dropWhile (p := isGap) (l := cs)
  unfold next? at h
  split at h
  next => cases h
  next c others hothers =>
    have htaken := taken_read (stops_dropWhile isGap cs c (hothers ▸ rfl)) others
    have hchars := chars_append_read c others
    rw [Option.some.inj h] at htaken hchars
    rw [hothers, ← hchars] at hskipped
    exact ⟨hskipped.symm, htaken⟩

theorem Taken.next? (h : Taken t spelling behind) {gap : List Char}
    (hgap : ∀ c ∈ gap, isGap c = true) :
    Token.next? (gap ++ (spelling ++ behind)) = some (t, behind) := by
  obtain ⟨c, cs, rfl⟩ := List.exists_cons_of_ne_nil h.ne_nil
  have hc := h.isGap_eq_false List.mem_cons_self
  have hunique := (taken_read hc (cs ++ behind)).unique h (chars_append_read c (cs ++ behind))
  rw [Token.next?, List.dropWhile_append_of_pos hgap, ← Token.next?, List.cons_append,
    next?_cons hc]
  exact congrArg some (Prod.ext hunique.1 hunique.2.2)

end Reading

end Accumulator.Source.Token
