import Accumulator.Proofs.Text.Blank
import Accumulator.Proofs.Text.Literal
import Accumulator.Source.Line

/-!
The words of a source line as tokens. A name, a label, a marker or a number
behind which a gap or the end of the line comes is read back as one token, and
the gap before the next word is skipped.
-/

namespace Accumulator.Source

open Text

/-- A name starts with a letter or an underscore and goes on with letters, digits and
underscores. -/
def IsName (name : String) : Prop :=
  ∃ c cs, name.toList = c :: cs ∧ Token.isNameStart c = true ∧
    ∀ d ∈ cs, Token.isNameChar d = true

theorem isName_iff (name : String) :
    IsName name ↔ (name.toList.head?.any Token.isNameStart &&
      name.toList.tail.all Token.isNameChar) = true := by
  unfold IsName
  cases name.toList with
  | nil => simp
  | cons c cs => simp

instance (name : String) : Decidable (IsName name) := decidable_of_iff' _ (isName_iff name)

theorem isName_mnemonic (op : Opcode) : IsName op.mnemonic := by
  cases op <;> decide

/-- Whether a token can stand in a line as a word of its own. -/
def Token.Whole : Token → Prop
  | .codeMarker | .dataMarker => True
  | .label name | .word name => IsName name
  | .literal text => ∃ n, text = String.ofList (Decimal.digits n)
  | .stray _ => False

/-- How the tokens of each class are spelled. A stray character is a token of no class. -/
inductive Token.Spelled : Token → List Char → Prop where
  | codeMarker : Spelled .codeMarker ['.', 'c', 'o', 'd', 'e', ':']
  | dataMarker : Spelled .dataMarker ['.', 'd', 'a', 't', 'a', ':']
  | label {name : String} (hname : IsName name) : Spelled (.label name) (name.toList ++ [':'])
  | word {name : String} (hname : IsName name) : Spelled (.word name) name.toList
  | literal {n : Int} {text : String} (h : Decimal.Literal n text.toList) :
    Spelled (.literal text) text.toList

/-- Words that follow another one, each behind a gap. -/
inductive Spaced : List (List Char) → List Char → Prop where
  | nil : Spaced [] []
  | cons {gap word rest : List Char} {words : List (List Char)} (hgap : IsRun isSpacing gap)
      (hrest : Spaced words rest) : Spaced (word :: words) (gap ++ (word ++ rest))

/-- The text ends or goes on with a gap. -/
def Parted (rest : List Char) : Prop := ∀ c ∈ rest.head?, isSpacing c = true

variable {c : Char} {cs gap rest spelling : List Char} {name : String} {t : Token}

section Classes

theorem isNameChar_of_isNameStart (h : Token.isNameStart c = true) :
    Token.isNameChar c = true := by
  simp only [Token.isNameStart, Token.isNameChar, Char.isAlphanum, Bool.or_eq_true] at h ⊢
  rcases h with h | h
  · exact .inl (.inl h)
  · exact .inr h

theorem isDigit_iff_toNat : c.isDigit = true ↔ 48 ≤ c.toNat ∧ c.toNat ≤ 57 := by
  simp only [Char.isDigit, Bool.and_eq_true, decide_eq_true_eq, ge_iff_le,
    UInt32.le_iff_toNat_le]
  rfl

theorem isAlpha_iff_toNat :
    c.isAlpha = true ↔ 65 ≤ c.toNat ∧ c.toNat ≤ 90 ∨ 97 ≤ c.toNat ∧ c.toNat ≤ 122 := by
  have hupper : c.isUpper = true ↔ 65 ≤ c.toNat ∧ c.toNat ≤ 90 := decide_eq_true_iff
  have hlower : c.isLower = true ↔ 97 ≤ c.toNat ∧ c.toNat ≤ 122 :=
    Bool.and_eq_true_iff.trans (and_congr decide_eq_true_iff decide_eq_true_iff)
  change (c.isUpper || c.isLower) = true ↔ _
  rw [Bool.or_eq_true, hupper, hlower]

/-- What belongs to a name is neither blank nor any other sign that matters in a line. -/
theorem isBlank_of_isNameChar (h : Token.isNameChar c = true) : isBlank c = false := by
  simp only [Token.isNameChar, Char.isAlphanum, Bool.or_eq_true, isAlpha_iff_toNat,
    isDigit_iff_toNat, beq_iff_eq] at h
  simp only [isBlank, Bool.or_eq_false_iff, Bool.and_eq_false_iff, decide_eq_false_iff_not,
    beq_eq_false_iff_ne]
  rcases h with (h | h) | rfl
  · omega
  · omega
  · decide

theorem isNameChar_of_isDigit (h : c.isDigit = true) : Token.isNameChar c = true := by
  simp [Token.isNameChar, Char.isAlphanum, h]

theorem isNameStart_of_isDigit (h : c.isDigit = true) : Token.isNameStart c = false := by
  rw [isDigit_iff_toNat] at h
  rw [Token.isNameStart, Bool.or_eq_false_iff, ← Bool.not_eq_true, isAlpha_iff_toNat,
    beq_eq_false_iff_ne]
  refine ⟨by omega, ?_⟩
  rintro rfl
  exact absurd h (by decide)

theorem isGap_of_isSpacing (h : isSpacing c = true) : Token.isGap c = true := by
  simp only [isSpacing, Bool.or_eq_true, beq_iff_eq] at h
  rcases h with rfl | rfl <;> rfl

theorem isBlank_of_isGap (h : Token.isGap c = true) : isBlank c = true := by
  simp only [Token.isGap, Bool.or_eq_true, beq_iff_eq] at h
  rcases h with ((rfl | rfl) | rfl) | rfl <;> rfl

theorem isGap_of_not_isBlank (h : isBlank c = false) : Token.isGap c = false := by
  by_contra hgap
  rw [isBlank_of_isGap (Bool.not_eq_false _ ▸ hgap)] at h
  cases h

theorem isNameChar_of_isSpacing (h : isSpacing c = true) : Token.isNameChar c = false := by
  simp only [isSpacing, Bool.or_eq_true, beq_iff_eq] at h
  rcases h with rfl | rfl <;> rfl

end Classes

theorem Spaced.parted {words : List (List Char)} (h : Spaced words rest) : Parted rest := by
  cases h with
  | nil => exact fun c hc => nomatch hc
  | cons hgap hrest =>
    obtain ⟨c, others, rfl⟩ := List.exists_cons_of_ne_nil hgap.nonempty
    intro d hd
    rw [List.cons_append, List.head?_cons, Option.mem_some_iff] at hd
    exact hd ▸ hgap.all c List.mem_cons_self

theorem Parted.stops {p : Char → Bool} (h : Parted rest)
    (hother : ∀ c, isSpacing c = true → p c = false) : Stops p rest :=
  fun c hc => hother c (h c hc)

theorem IsName.isNameChar (h : IsName name) (hc : c ∈ name.toList) : Token.isNameChar c = true := by
  obtain ⟨d, ds, hname, hstart, hrest⟩ := h
  rw [hname] at hc
  rcases List.mem_cons.1 hc with rfl | hc
  · exact isNameChar_of_isNameStart hstart
  · exact hrest c hc

theorem IsName.ne_nil (h : IsName name) : name.toList ≠ [] := by
  obtain ⟨d, ds, hname, -⟩ := h
  rw [hname]
  exact List.cons_ne_nil d ds

namespace Lexeme

theorem scan_of_none (hnext : Token.next? cs = none) (pos : Nat) : scan pos cs = [] := by
  rw [scan.eq_def]
  split
  next => rfl
  next hsome => simp [hnext] at hsome

theorem scan_of_next? (hnext : Token.next? cs = some (t, rest)) (pos : Nat) :
    scan pos cs =
      let start := pos + byteCount (cs.takeWhile Token.isGap)
      let stop := start + byteCount t.chars
      ⟨t, start, stop⟩ :: scan stop rest := by
  conv_lhs => rw [scan.eq_def]
  split
  next hnone => simp [hnext] at hnone
  next hsome =>
    cases hnext.symm.trans hsome
    rfl

end Lexeme

namespace Token

/-- Gaps are skipped. -/
theorem next?_gap (hgap : ∀ c ∈ gap, isSpacing c = true) (cs : List Char) :
    next? (gap ++ cs) = next? cs := by
  unfold next?
  rw [List.dropWhile_append_of_pos fun c hc => isGap_of_isSpacing (hgap c hc)]

theorem next?_cons (hc : isGap c = false) (cs : List Char) :
    next? (c :: cs) = some (read c cs) := by
  rw [next?, List.dropWhile_cons_of_neg (by simp [hc])]

theorem next?_name (hname : IsName name) (hrest : Parted rest) :
    next? (name.toList ++ rest) = some (.word name, rest) := by
  obtain ⟨c, cs, hchars, hstart, hcs⟩ := hname
  have hstops : Stops isNameChar rest := hrest.stops fun _ => isNameChar_of_isSpacing
  have hgap : isGap c = false :=
    isGap_of_not_isBlank (isBlank_of_isNameChar (isNameChar_of_isNameStart hstart))
  rw [hchars, List.cons_append, next?_cons hgap, read, if_pos hstart, readName,
    dropWhile_append_of_stops hcs hstops, takeWhile_append_of_stops hcs hstops, ← hchars,
    String.ofList_toList]
  split
  next others =>
    -- a colon would have made it a label
    nomatch hrest ':' rfl
  next => rfl

theorem next?_label (hname : IsName name) (rest : List Char) :
    next? (name.toList ++ ':' :: rest) = some (.label name, rest) := by
  obtain ⟨c, cs, hchars, hstart, hcs⟩ := hname
  have hstops : Stops isNameChar (':' :: rest) := stops_cons rfl
  have hgap : isGap c = false :=
    isGap_of_not_isBlank (isBlank_of_isNameChar (isNameChar_of_isNameStart hstart))
  rw [hchars, List.cons_append, next?_cons hgap, read, if_pos hstart, readName,
    dropWhile_append_of_stops hcs hstops, takeWhile_append_of_stops hcs hstops, ← hchars,
    String.ofList_toList]
  rfl

/-- Digits are taken as far as they go, behind a sign or a first one. -/
theorem readLiteral_append (hcs : ∀ d ∈ cs, d.isDigit = true) (hrest : Parted rest) :
    readLiteral c (cs ++ rest) = (.literal (String.ofList (c :: cs)), rest) := by
  have hstops : Stops Char.isDigit rest := hrest.stops fun _ => isDigit_of_isSpacing
  rw [readLiteral, takeWhile_append_of_stops hcs hstops, dropWhile_append_of_stops hcs hstops]

theorem read_sign (hsign : c = '+' ∨ c = '-') (hcs : IsRun Char.isDigit cs) (hrest : Parted rest) :
    read c (cs ++ rest) = (.literal (String.ofList (c :: cs)), rest) := by
  have hother : isNameStart c = false ∧ c.isDigit = false := by
    rcases hsign with rfl | rfl <;> decide
  have hdigits : ¬((cs ++ rest).takeWhile Char.isDigit).isEmpty = true := by
    rw [List.isEmpty_iff, takeWhile_append_of_stops hcs.all
      (hrest.stops fun _ => isDigit_of_isSpacing)]
    exact hcs.nonempty
  rw [read, if_neg (by simp [hother.1]), if_neg (by simp [hother.2]), if_pos hsign,
    if_neg hdigits, readLiteral_append hcs.all hrest]

/-- An integer literal is one token. -/
theorem next?_literal {n : Int} {lit : List Char} (h : Decimal.Literal n lit)
    (hrest : Parted rest) : next? (lit ++ rest) = some (.literal (String.ofList lit), rest) := by
  cases h with
  | unsigned hdigits =>
    obtain ⟨c, cs, rfl⟩ := List.exists_cons_of_ne_nil hdigits.nonempty
    have hall := hdigits.all
    rw [List.forall_mem_cons] at hall
    have hgap : isGap c = false :=
      isGap_of_not_isBlank (isBlank_of_isNameChar (isNameChar_of_isDigit hall.1))
    rw [List.cons_append, next?_cons hgap, read,
      if_neg (by simp [isNameStart_of_isDigit hall.1]), if_pos hall.1,
      readLiteral_append hall.2 hrest]
  | positive hdigits =>
    rw [List.cons_append, next?_cons rfl, read_sign (.inl rfl) hdigits hrest]
  | negative hdigits =>
    rw [List.cons_append, next?_cons rfl, read_sign (.inr rfl) hdigits hrest]

/-- A token that ends where a gap comes is read back from its spelling. -/
theorem Spelled.next? (h : Spelled t spelling) (hrest : Parted rest) :
    Token.next? (spelling ++ rest) = some (t, rest) := by
  cases h with
  | codeMarker => rfl
  | dataMarker => rfl
  | label hname =>
    rw [List.append_assoc]
    exact next?_label hname rest
  | word hname => exact next?_name hname hrest
  | literal hliteral => rw [next?_literal hliteral hrest, String.ofList_toList]

theorem spelled_chars (ht : t.Whole) : Spelled t t.chars := by
  cases t with
  | codeMarker => exact .codeMarker
  | dataMarker => exact .dataMarker
  | label name => exact .label ht
  | word name => exact .word ht
  | literal text =>
    obtain ⟨n, rfl⟩ := ht
    have hliteral := Decimal.literal_digits n
    rw [← String.toList_ofList (l := Decimal.digits n)] at hliteral
    exact .literal hliteral
  | stray c => exact ht.elim

theorem next?_chars (ht : t.Whole) (hrest : Parted rest) :
    next? (t.chars ++ rest) = some (t, rest) :=
  (spelled_chars ht).next? hrest

/-- The first of words that follow another one is read behind its gap. -/
theorem next?_spaced {words : List (List Char)} (ht : t.Whole)
    (h : Spaced (t.chars :: words) cs) : ∃ rest, Spaced words rest ∧ next? cs = some (t, rest) := by
  cases h with
  | cons hgap hrest =>
    exact ⟨_, hrest, (next?_gap hgap.all _).trans (next?_chars ht hrest.parted)⟩

/-- A text is used up by reading one token after the other. -/
@[elab_as_elim]
theorem next?_induction {motive : List Char → Prop}
    (finished : ∀ cs, next? cs = none → motive cs)
    (found : ∀ cs t rest, next? cs = some (t, rest) → motive rest → motive cs)
    (cs : List Char) : motive cs := by
  induction hlength : cs.length using Nat.strongRecOn generalizing cs with
  | ind n ih =>
    cases hnext : next? cs with
    | none => exact finished cs hnext
    | some pair =>
      obtain ⟨t, rest⟩ := pair
      exact found cs t rest hnext (ih rest.length (hlength ▸ length_of_next? hnext) rest rfl)

theorem scan_of_none (hnext : next? cs = none) : scan cs = [] :=
  congrArg (List.map Lexeme.token) (Lexeme.scan_of_none hnext 0)

/-- Where a text starts decides about the places of its tokens only. -/
theorem map_token_scan (pos : Nat) (cs : List Char) :
    (Lexeme.scan pos cs).map Lexeme.token = scan cs := by
  induction cs using next?_induction generalizing pos with
  | finished cs hnext => rw [Lexeme.scan_of_none hnext, scan_of_none hnext, List.map_nil]
  | found cs t rest hnext ih =>
    have hzero : scan cs = t :: scan rest := by
      rw [scan, Lexeme.scan_of_next? hnext, List.map_cons, ih]
    rw [Lexeme.scan_of_next? hnext, List.map_cons, ih, hzero]

theorem scan_of_next? (hnext : next? cs = some (t, rest)) : scan cs = t :: scan rest := by
  rw [scan, Lexeme.scan_of_next? hnext, List.map_cons, map_token_scan]

/-- Words are scanned as the tokens they are. -/
theorem scan_spaced {tokens : List Token} (htokens : ∀ t ∈ tokens, t.Whole)
    (h : Spaced (tokens.map chars) cs) : scan cs = tokens := by
  induction tokens generalizing cs with
  | nil =>
    cases h
    exact scan_of_none rfl
  | cons t tokens ih =>
    rw [List.forall_mem_cons] at htokens
    obtain ⟨rest, hrest, hnext⟩ := next?_spaced htokens.1 h
    rw [scan_of_next? hnext, ih htokens.2 hrest]

theorem scan_literal {n : Int} {lit : List Char} (h : Decimal.Literal n lit)
    (hrest : Spaced [lit] cs) : scan cs = [.literal (String.ofList lit)] := by
  cases hrest with
  | cons hgap hnone =>
    cases hnone
    rw [scan_of_next? ((next?_gap hgap.all _).trans (next?_literal h Spaced.nil.parted)),
      scan_of_none rfl]

end Token

end Accumulator.Source
