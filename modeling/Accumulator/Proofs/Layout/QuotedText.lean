import Accumulator.Proofs.Layout.Reached
import Accumulator.Proofs.Source.Rendering

/-!
Texts in quotes. A text without a semicolon is laid out as it stands. But
comments are removed from a line before anything else is looked at, so a
semicolon starts a comment within quotes as well. What is laid out then is what
stands in front of it, together with the first quote, because the last one is
gone with the comment.
-/

namespace Accumulator

open Source Text

variable {c : Char} {cs s line : List Char} {name : String}

namespace Source

theorem mem_of_mem_unquote (h : c ∈ unquote cs) : c ∈ cs := by
  unfold unquote at h
  split at h
  next d ds =>
    split at h
    · exact List.mem_cons_of_mem _ (List.dropLast_subset _ h)
    · exact h
  next => exact h

def quoted (s : List Char) : List Char := '"' :: (s ++ ['"'])

/-- What is left of a text in quotes where the line is read. -/
def textOf (s : List Char) : List Char := unquote (significant (quoted s))

/-- A text is laid out as it stands exactly if it has no semicolon in it. -/
theorem textOf_eq_self_iff : textOf s = s ↔ ';' ∉ s := by
  constructor
  · intro hself hcomment
    rw [← hself] at hcomment
    have hkept := mem_of_mem_trim (mem_of_mem_unquote hcomment)
    have hclear := List.all_eq_true.1 List.all_takeWhile ';' hkept
    cases hclear
  · intro hcomment
    have hclear : ∀ c ∈ quoted s, decide (c ≠ ';') = true := by
      rw [quoted, List.forall_mem_cons, List.forall_mem_append, List.forall_mem_singleton]
      exact ⟨by decide, fun c hc => decide_eq_true fun h => hcomment (h ▸ hc), by decide⟩
    have hwhole := @takeWhile_append_of_stops _ _ [] hclear nofun
    rw [List.append_nil] at hwhole
    rw [textOf, significant, hwhole, quoted, (solid_quoted s).trim, Directive.unquote_quoted]

/-- What matters of the line are the words in front of the text and what the comment leaves of
it. -/
theorem significant_quoted (hname : IsName name)
    (hline : Worded name.toList ["STRING".toList, quoted s] line) :
    ∃ rest, Spaced ["STRING".toList, significant (quoted s)] rest ∧
      significant line = name.toList ++ rest := by
  have hfirst : Apart name.toList := apart_chars (t := .word name) hname
  have hkeyword : Apart "STRING".toList :=
    apart_chars (t := .word "STRING") (isName_mnemonic .string)
  obtain ⟨indent, rest, trail, comment, hindent, hrest, htrail, hcomment⟩ := hline
  rw [significant_between (fun c hc => isBlank_of_isSpacing (hindent c hc))
    (fun c hc => isBlank_of_isSpacing (htrail c hc)) hcomment]
  cases hrest with
  | @cons gap _ _ _ hgap hrest =>
    cases hrest with
    | @cons other _ _ _ hother hnone =>
      cases hnone
      have htext : significant ("STRING".toList ++ (other ++ quoted s)) =
          "STRING".toList ++ (other ++ significant (quoted s)) :=
        significant_append hkeyword hother ⟨by decide, by decide⟩ _
      have hwhole : significant (name.toList ++ (gap ++ ("STRING".toList ++ (other ++ quoted s)))) =
          name.toList ++ (gap ++ significant ("STRING".toList ++ (other ++ quoted s))) :=
        significant_append hfirst hgap ⟨by decide, by decide⟩ _
      rw [List.append_nil, hwhole, htext]
      refine ⟨_, .cons hgap (.cons hother .nil), ?_⟩
      rw [List.append_nil]

theorem read_quoted (hname : IsName name)
    (hline : Worded name.toList ["STRING".toList, quoted s] line) :
    Statement.read .data (significant line) =
      .ok (some (.declaration name (.string (String.ofList (textOf s))))) := by
  obtain ⟨rest, hrest, hsignificant⟩ := significant_quoted hname hline
  have hargument : Solid (significant (quoted s)) := by
    have hquote : (quoted s).takeWhile (fun c => decide (c ≠ ';')) =
        '"' :: (s ++ ['"']).takeWhile fun c => decide (c ≠ ';') :=
      List.takeWhile_cons_of_pos (by decide)
    rw [significant, hquote]
    exact solid_trim_cons (by decide) _
  rw [hsignificant, Statement.read, Token.next?_name hname hrest.parted]
  change some <$> readDeclaration name rest = _
  rw [Statement.readDeclaration_spaced (isName_mnemonic .string) hargument hrest]
  change some <$> (Directive.ofText (significant (quoted s))).map _ = _
  rw [Directive.ofText, if_neg hargument.wordCount_ne_zero]
  rfl

end Source

/-- A text in quotes is declared under a new name where there is room for it: its length in a cell,
and then a cell for each character. It is the text as it stands exactly if it has no semicolon. -/
theorem quoted_text_laid_out {source : List Char} {l : Layout} {number : Nat}
    (hreached : Reaches source l number line) (hname : IsName name) (hsec : l.sec = .data)
    (hline : Worded name.toList ["STRING".toList, quoted s] line) :
    (l.HasPlace name ((textOf s).length + 1) → ∃ w : Word, w.toNat = (textOf s).length ∧
      LaysOut source l number line ((.string, w) :: (textOf s).map fun c => (.string, c.val))) ∧
    (¬l.HasPlace name ((textOf s).length + 1) →
      ∃ e, Refuses source l number line e ∧ e.cause.NoPlace) ∧
    (textOf s = s ↔ ';' ∉ s) := by
  have hread := read_quoted hname hline
  rw [← hsec] at hread
  have hcells : (Block.string (String.ofList (textOf s)).toList).slots number =
      (((.string, UInt32.ofNat (textOf s).length) : Opcode × Word) ::
        (textOf s).map fun c => (.string, c.val)).map fun d => Block.datum d.1 number d.2 := by
    simp [Block.slots]
  have hjudged := hreached.declaration hread rfl hcells (List.cons_ne_nil _ _)
  rw [List.length_cons, List.length_map] at hjudged
  refine ⟨?_, hjudged.crowded, textOf_eq_self_iff⟩
  intro hplace
  have hword : (textOf s).length < 2 ^ 32 := by
    have hroom := hplace.room
    have hcount : Word.count = 2 ^ 32 := rfl
    omega
  exact ⟨_, UInt32.toNat_ofNat_of_lt' hword, hjudged.accepted hplace⟩

/-- A text with a blank at each end, a quote, a colon and a letter of two bytes. -/
def strange : List Char := ".data:\nx STRING \" \"é: \"".toList

theorem quoted_text_laid_out_strange :
    ∃ w : Word, w.toNat = 5 ∧ LaysOut strange { sec := .data } 2 "x STRING \" \"é: \"".toList
      ((.string, w) :: " \"é: ".toList.map fun c => (.string, c.val)) := by
  have hreached : Reaches strange { sec := .data } 2 "x STRING \" \"é: \"".toList :=
    @Reaches.mk strange _ [".data:".toList] [] _ (by decide +kernel) (by decide +kernel)
  have htext : textOf " \"é: ".toList = " \"é: ".toList := textOf_eq_self_iff.2 (by decide)
  have hlaid := quoted_text_laid_out (s := " \"é: ".toList) hreached
    (show IsName "x" by decide) rfl (worded_flatMap _ _)
  rw [htext] at hlaid
  exact hlaid.1 ⟨rfl, by decide⟩

/-- A text with a semicolon. -/
def halved : List Char := ".data:\nx STRING \"a;b\"".toList

/-- So not every text in quotes is laid out as it stands. -/
theorem halved_text_cut :
    Reaches halved { sec := .data } 2 "x STRING \"a;b\"".toList ∧
      Worded "x".toList ["STRING".toList, quoted "a;b".toList] "x STRING \"a;b\"".toList ∧
      ({ sec := .data } : Layout).HasPlace "x" 4 ∧
      assemble halved = .ok
        ⟨none, #[⟨0, .string, some 2⟩, ⟨1, .string, some 34⟩, ⟨2, .string, some 97⟩]⟩ ∧
      ¬∃ w : Word, w.toNat = 3 ∧ LaysOut halved { sec := .data } 2 "x STRING \"a;b\"".toList
        ((.string, w) :: "a;b".toList.map fun c => (.string, c.val)) := by
  have himage : assemble halved = .ok
      ⟨none, #[⟨0, .string, some 2⟩, ⟨1, .string, some 34⟩, ⟨2, .string, some 97⟩]⟩ := by
    decide +kernel
  refine ⟨@Reaches.mk halved _ [".data:".toList] [] _ (by decide +kernel) (by decide +kernel),
    worded_flatMap _ _, ⟨rfl, by decide⟩, himage, ?_⟩
  rintro ⟨w, hw, hlaid⟩
  have hfirst := hlaid.image _ himage 0 .string w rfl
  cases hfirst
  exact absurd hw (by decide)

end Accumulator
