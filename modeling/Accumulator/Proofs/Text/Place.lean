import Accumulator.Proofs.Text.Scan
import Accumulator.Source.Token

/-!
Where an error of a file reader stands. What a reader keeps is only the text it
has not read. As long as that is an end of the whole text, cutting the text so
many bytes before its own end falls between two characters, and the line and
the column are those of the character behind the cut.
-/

namespace Accumulator.Text

open Source.Lexeme (byteCount)

theorem byteCount_append (before rest : List Char) :
    byteCount (before ++ rest) = byteCount before + byteCount rest := by
  induction before with
  | nil => exact (Nat.zero_add _).symm
  | cons c cs ih => rw [List.cons_append, byteCount, byteCount, ih, Nat.add_assoc]

/-- The text in front of a byte of its UTF-8 form and the text behind it. There is no such cut
within a character, nor behind the end. -/
def cutAt? : Nat → List Char → Option (List Char × List Char)
  | 0, cs => some ([], cs)
  | _ + 1, [] => none
  | n + 1, c :: cs =>
    if c.utf8Size ≤ n + 1 then
      (cutAt? (n + 1 - c.utf8Size) cs).map fun (before, rest) => (c :: before, rest)
    else none

theorem cutAt?_add_cons (n : Nat) (c : Char) (cs : List Char) :
    cutAt? (c.utf8Size + n) (c :: cs) =
      (cutAt? n cs).map fun (before, rest) => (c :: before, rest) := by
  have hpos := c.utf8Size_pos
  obtain ⟨k, hk⟩ := Nat.exists_eq_succ_of_ne_zero (n := c.utf8Size + n) (by omega)
  rw [hk, cutAt?, if_pos (by omega), ← Nat.succ_eq_add_one, ← hk, Nat.add_sub_cancel_left]

theorem cutAt?_byteCount (before rest : List Char) :
    cutAt? (byteCount before) (before ++ rest) = some (before, rest) := by
  induction before with
  | nil => rw [byteCount, List.nil_append, cutAt?]
  | cons c cs ih => rw [byteCount, List.cons_append, cutAt?_add_cons, ih, Option.map_some]

theorem cutAt?_eq_some_iff {n : Nat} {text before rest : List Char} :
    cutAt? n text = some (before, rest) ↔ text = before ++ rest ∧ n = byteCount before := by
  constructor
  · intro h
    fun_induction cutAt? n text generalizing before with
    | case1 =>
      cases h
      exact ⟨rfl, rfl⟩
    | case2 => cases h
    | case3 n c cs hsize ih =>
      obtain ⟨⟨between, others⟩, hcut, heq⟩ := Option.map_eq_some_iff.1 h
      cases heq
      obtain ⟨rfl, hbytes⟩ := ih hcut
      refine ⟨rfl, ?_⟩
      rw [byteCount]
      omega
    | case4 => cases h
  · rintro ⟨rfl, rfl⟩
    exact cutAt?_byteCount before rest

namespace Located

variable {κ : Type} {e : Located κ} {text before : List Char}

/-- The error stands behind the given beginning of the text. -/
structure StandsBehind (e : Located κ) (text before : List Char) : Prop where
  split : text = before ++ e.rest
  cut : cutAt? (byteCount text - byteCount e.rest) text = some (before, e.rest)
  line : e.line text = 1 + before.count '\n'
  /-- Columns count the characters behind the last line feed. -/
  column : ∃ earlier last, before = earlier ++ last ∧ (∀ c ∈ earlier.getLast?, c = '\n') ∧
    '\n' ∉ last ∧ e.column text = 1 + last.length

/-- Whatever is left of the text at an error tells its place. -/
theorem standsBehind_of_split (h : text = before ++ e.rest) : e.StandsBehind text before := by
  have htake : text.take (e.offset text) = before := by
    have hoffset : e.offset text = before.length := by
      rw [offset, h, List.length_append, Nat.add_sub_cancel]
    rw [hoffset, h, List.take_left]
  refine ⟨h, ?_, ?_, ?_⟩
  · rw [h, byteCount_append, Nat.add_sub_cancel]
    exact cutAt?_byteCount before e.rest
  · rw [line, htake, Nat.add_comm]
  · let onLine : Char → Bool := fun c => decide (c ≠ '\n')
    refine ⟨(before.reverse.dropWhile onLine).reverse, (before.reverse.takeWhile onLine).reverse,
      ?_, ?_, ?_, ?_⟩
    · rw [← List.reverse_append, List.takeWhile_append_dropWhile, List.reverse_reverse]
    · intro c hc
      rw [List.getLast?_reverse] at hc
      simpa [onLine] using stops_dropWhile onLine before.reverse c hc
    · intro hfeed
      have hall := List.all_eq_true.1 (List.all_takeWhile (p := onLine) (l := before.reverse))
      simpa [onLine] using hall '\n' (List.mem_reverse.1 hfeed)
    · rw [column, htake, List.length_reverse, Nat.add_comm]

theorem exists_standsBehind (h : e.rest <:+ text) : ∃ before, e.StandsBehind text before := by
  obtain ⟨before, hsplit⟩ := h
  exact ⟨before, standsBehind_of_split hsplit.symm⟩

end Located

/-! A step that fails does so where it stands. -/

variable {κ : Type} {p : Char → Bool} {cs marker : List Char} {e : Located κ}

theorem skip_eq_error (h : skip p cs = .error e) : e = { rest := cs } := by
  unfold skip at h
  split at h
  · nomatch h
  · cases h
    rfl

theorem expect_eq_error (h : expect marker cs = .error e) : e = { rest := cs } := by
  unfold expect at h
  split at h
  · nomatch h
  · cases h
    rfl

theorem expectLine_error (h : expectLine marker cs = .error e) :
    e.cause = none ∧ e.rest <:+ cs := by
  rcases Checked.bind_eq_error_iff.1 h with hmarker | ⟨behind, hmarker, hskip⟩
  · cases expect_eq_error hmarker
    exact ⟨rfl, List.suffix_rfl⟩
  · rw [expect_eq_ok_iff] at hmarker
    cases skip_eq_error hskip
    exact ⟨rfl, hmarker ▸ List.suffix_append _ _⟩

end Accumulator.Text
