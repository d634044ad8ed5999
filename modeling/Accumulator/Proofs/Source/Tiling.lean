import Accumulator.Proofs.Source.Longest
import Accumulator.Proofs.Text.Place
import Mathlib.Data.List.Pairwise

/-!
The tokens of a text in their places. Behind each gap the longest token is
taken, and what is behind it is read in the same way, so the places leave
nothing out but gaps and do not overlap. That alone fixes the tokens.
-/

namespace Accumulator.Source

open Text
open Lexeme (byteCount)

namespace Lexeme

/-- Whether the byte belongs to the token. -/
def Covers (l : Lexeme) (byte : Nat) : Prop := l.start ≤ byte ∧ byte < l.stop

/-- The token is the one that is taken between two parts of the text. Its place, in bytes, cuts
its characters out of the text. -/
structure StandsIn (l : Lexeme) (text before behind : List Char) : Prop where
  start : cutAt? l.start text = some (before, l.token.chars ++ behind)
  stop : cutAt? l.stop text = some (before ++ l.token.chars, behind)
  taken : l.token.Taken l.token.chars behind
  ended : l.token.Ended behind

end Lexeme

/-- The tokens stand one behind the other, each the longest at its place, and what is left between
them are exactly the gaps. -/
structure Tiles (text : List Char) (ls : List Lexeme) : Prop where
  nonempty : ∀ l ∈ ls, l.start < l.stop
  ordered : ls.Pairwise fun l m => l.stop ≤ m.start
  standsIn : ∀ l ∈ ls, ∃ before behind, l.StandsIn text before behind
  gap_iff : ∀ before c behind, text = before ++ c :: behind →
    (Token.isGap c = true ↔ ∀ l ∈ ls, ¬l.Covers (byteCount before))

/-- The tokens of a text behind another one, read off from its head. -/
inductive Tiling : List Char → List Char → List Lexeme → Prop where
  | gap {before gap : List Char} (hgap : ∀ c ∈ gap, Token.isGap c = true) : Tiling before gap []
  | token {before gap spelling behind : List Char} {t : Token} {ls : List Lexeme}
      (hgap : ∀ c ∈ gap, Token.isGap c = true) (htaken : t.Taken spelling behind)
      (hrest : Tiling (before ++ gap ++ spelling) behind ls) :
    Tiling before (gap ++ (spelling ++ behind))
      (⟨t, byteCount (before ++ gap), byteCount (before ++ gap ++ spelling)⟩ :: ls)

variable {c : Char} {before behind cs ds text : List Char} {t : Token} {ts : List Token}
  {l m : Lexeme} {ls ms : List Lexeme}

theorem byteCount_lt_append (before : List Char) (hcs : cs ≠ []) :
    byteCount before < byteCount (before ++ cs) := by
  obtain ⟨c, rest, rfl⟩ := List.exists_cons_of_ne_nil hcs
  have hpos := c.utf8Size_pos
  rw [byteCount_append, byteCount]
  omega

/-- A character of a text that is put together from two belongs to one of them. -/
theorem split_of_append_eq {xs ys : List Char} (h : xs ++ ys = before ++ c :: behind) :
    (∃ rest, xs = before ++ c :: rest) ∨ ∃ others, before = xs ++ others ∧
      ys = others ++ c :: behind := by
  rcases List.append_eq_append_iff.1 h with ⟨others, rfl, rfl⟩ | ⟨rest, rfl, hrest⟩
  · exact .inr ⟨others, rfl, rfl⟩
  · cases rest with
    | nil => exact .inr ⟨[], by simp, hrest.symm⟩
    | cons d ds =>
      cases hrest
      exact .inl ⟨ds, rfl⟩

section Scan

theorem tiling_scan (before cs : List Char) :
    Tiling before cs (Lexeme.scan (byteCount before) cs) := by
  induction cs using Token.next?_induction generalizing before with
  | finished cs hnext =>
    rw [Lexeme.scan_of_none hnext]
    exact .gap (Token.next?_eq_none_iff.1 hnext)
  | found cs t rest hnext ih =>
    obtain ⟨hsplit, htaken⟩ := Token.taken_of_next? hnext
    have hgap : ∀ c ∈ cs.takeWhile Token.isGap, Token.isGap c = true :=
      fun _ => List.mem_takeWhile_imp
    rw [Lexeme.scan_of_next? hnext]
    generalize cs.takeWhile Token.isGap = gap at hsplit hgap ⊢
    subst hsplit
    simp only [← byteCount_append]
    exact .token hgap htaken (ih _)

/-- Each token stands somewhere behind what the text starts with. -/
theorem Tiling.standsIn (h : Tiling before cs ls) (hl : l ∈ ls) :
    ∃ between behind, l.StandsIn (before ++ cs) (before ++ between) behind := by
  induction h with
  | gap _ => cases hl
  | @token before gap spelling behind t ls hgap htaken hrest ih =>
    rcases List.mem_cons.1 hl with rfl | hl
    · obtain rfl := htaken.chars_eq
      refine ⟨gap, behind, ?_, ?_, htaken, htaken.ended⟩
      · rw [← List.append_assoc]
        exact cutAt?_byteCount (before ++ gap) _
      · rw [← List.append_assoc, ← List.append_assoc]
        exact cutAt?_byteCount (before ++ gap ++ t.chars) behind
    · obtain ⟨between, rest, hstands⟩ := ih hl
      refine ⟨gap ++ (spelling ++ between), rest, ?_⟩
      simpa only [List.append_assoc] using hstands

theorem Lexeme.StandsIn.start_eq (h : l.StandsIn text before behind) :
    l.start = byteCount before :=
  (cutAt?_eq_some_iff.1 h.start).2

theorem Lexeme.StandsIn.stop_eq (h : l.StandsIn text before behind) :
    l.stop = byteCount (before ++ l.token.chars) :=
  (cutAt?_eq_some_iff.1 h.stop).2

theorem Lexeme.StandsIn.nonempty (h : l.StandsIn text before behind) : l.start < l.stop := by
  rw [h.start_eq, h.stop_eq]
  exact byteCount_lt_append before h.taken.ne_nil

theorem Tiling.le_start (h : Tiling before cs ls) (hl : l ∈ ls) : byteCount before ≤ l.start := by
  obtain ⟨between, behind, hstands⟩ := h.standsIn hl
  rw [hstands.start_eq, byteCount_append]
  exact Nat.le_add_right _ _

theorem Tiling.ordered (h : Tiling before cs ls) : ls.Pairwise fun l m => l.stop ≤ m.start := by
  induction h with
  | gap _ => exact .nil
  | token _ _ hrest ih => exact .cons (fun m hm => hrest.le_start hm) ih

/-- A character is in a gap exactly if no token has it. -/
theorem Tiling.gap_iff (h : Tiling before cs ls) {between : List Char}
    (hcs : cs = between ++ c :: behind) :
    Token.isGap c = true ↔ ∀ l ∈ ls, ¬l.Covers (byteCount (before ++ between)) := by
  induction h generalizing between with
  | gap hgap =>
    subst hcs
    exact iff_of_true (hgap c (by simp)) nofun
  | @token before gap spelling rest t ls hgap htaken hrest ih =>
    have hsize := c.utf8Size_pos
    rcases split_of_append_eq hcs with ⟨more, rfl⟩ | ⟨within, rfl, htoken⟩
    · refine iff_of_true (hgap c (by simp)) (List.forall_mem_cons.2 ⟨?_, fun l hl => ?_⟩)
      · simp only [Lexeme.Covers, byteCount_append, byteCount]
        omega
      · have hlater := hrest.le_start hl
        simp only [byteCount_append, byteCount] at hlater
        simp only [Lexeme.Covers, byteCount_append]
        omega
    · rcases split_of_append_eq htoken with ⟨more, rfl⟩ | ⟨others, rfl, hothers⟩
      · -- within the first token
        refine iff_of_false (by simp [htaken.isGap_eq_false (c := c) (by simp)]) fun hnone => ?_
        refine hnone _ List.mem_cons_self ?_
        simp only [Lexeme.Covers, byteCount_append, byteCount]
        omega
      · rw [ih hothers, List.forall_mem_cons, List.append_assoc, List.append_assoc]
        refine (and_iff_right ?_).symm
        simp only [Lexeme.Covers, byteCount_append]
        omega

theorem tiles_scan (text : List Char) : Tiles text (Lexeme.scan 0 text) := by
  have htiling : Tiling [] text (Lexeme.scan 0 text) := tiling_scan [] text
  refine ⟨fun l hl => ?_, htiling.ordered, fun l hl => ?_, fun _ _ _ => htiling.gap_iff⟩
  · obtain ⟨_, _, hstands⟩ := htiling.standsIn hl
    exact hstands.nonempty
  · obtain ⟨between, behind, hstands⟩ := htiling.standsIn hl
    exact ⟨between, behind, hstands⟩

end Scan

section Unique

theorem Tiles.eq_of_covers (h : Tiles text ls) {byte : Nat} (hl : l ∈ ls) (hm : m ∈ ls)
    (hcl : l.Covers byte) (hcm : m.Covers byte) : l = m := by
  by_contra hne
  have hapart : ls.Pairwise fun l m => l.stop ≤ m.start ∨ m.stop ≤ l.start := h.ordered.imp .inl
  have : Std.Symm fun l m : Lexeme => l.stop ≤ m.start ∨ m.stop ≤ l.start := ⟨fun _ _ => Or.symm⟩
  have hlm := hapart.forall hl hm hne
  simp only [Lexeme.Covers] at hcl hcm
  omega

/-- Two tokens that start at the same byte of a text are the same. -/
theorem Lexeme.StandsIn.unique {before' behind' : List Char} (hl : l.StandsIn text before behind)
    (hm : m.StandsIn text before' behind') (hstart : l.start = m.start) : l = m := by
  have hcut := hl.start.symm.trans (hstart ▸ hm.start)
  simp only [Option.some.injEq, Prod.mk.injEq] at hcut
  obtain ⟨rfl, htext⟩ := hcut
  obtain ⟨htoken, hspelling, -⟩ := hl.taken.unique hm.taken htext
  have hstop : l.stop = m.stop := by rw [hl.stop_eq, hm.stop_eq, hspelling]
  cases l
  cases m
  simp_all

/-- What one list of tokens that tiles a text has, every such list has. -/
theorem Tiles.mem_of_mem (h : Tiles text ls) (h' : Tiles text ms) (hl : l ∈ ls) : l ∈ ms := by
  induction hstart : l.start using Nat.strongRecOn generalizing l ls ms with
  | ind n ih =>
    obtain ⟨before, behind, hstands⟩ := h.standsIn l hl
    obtain ⟨c, cs, hchars⟩ := List.exists_cons_of_ne_nil hstands.taken.ne_nil
    have hgap := hstands.taken.isGap_eq_false (c := c) (hchars ▸ List.mem_cons_self)
    have htext := (cutAt?_eq_some_iff.1 hstands.start).1
    rw [hchars, List.cons_append] at htext
    -- the first character of `l` is in no gap, so another token has it
    obtain ⟨m, hm, hcovers⟩ : ∃ m ∈ ms, m.Covers l.start := by
      by_contra hnone
      push Not at hnone
      rw [hstands.start_eq, ← h'.gap_iff before c _ htext, hgap] at hnone
      cases hnone
    obtain ⟨_, _, hother⟩ := h'.standsIn m hm
    rcases Nat.eq_or_lt_of_le hcovers.1 with heq | hlt
    · exact hother.unique hstands heq ▸ hm
    · -- `m` starts further left, so it is in both lists and overlaps with `l`
      have hboth := ih m.start (hstart ▸ hlt) h' h hm rfl
      have hsame := h.eq_of_covers hboth hl hcovers ⟨le_rfl, h.nonempty l hl⟩
      exact absurd (hsame ▸ hlt) (Nat.lt_irrefl _)

theorem Tiles.nodup (h : Tiles text ls) : ls.Nodup := by
  refine h.ordered.imp_of_mem fun {l m} hl _ hlm => ?_
  rintro rfl
  exact absurd (h.nonempty l hl) (Nat.not_lt_of_le hlm)

/-- Only one list of tokens tiles a text. -/
theorem Tiles.unique (h : Tiles text ls) (h' : Tiles text ms) : ls = ms := by
  have hperm : ls.Perm ms := (List.perm_ext_iff_of_nodup h.nodup h'.nodup).2 fun l =>
    ⟨h.mem_of_mem h', h'.mem_of_mem h⟩
  refine hperm.eq_of_pairwise (fun l m hl hm hlm hml => ?_) h.ordered h'.ordered
  have hlength := h.nonempty l hl
  have hlength' := h'.nonempty m hm
  omega

theorem tiles_iff : Tiles text ls ↔ ls = Lexeme.scan 0 text := by
  constructor
  · intro h
    exact h.unique (tiles_scan text)
  · rintro rfl
    exact tiles_scan text

end Unique

namespace Token

section Spacing

theorem prefix_of_not_mem {xs ys zs : List Char} (h : xs <+: ys ++ c :: zs) (hc : c ∉ xs) :
    xs <+: ys := by
  rcases Nat.lt_or_ge ys.length xs.length with hlt | hle
  · obtain ⟨d, ds, rfl, hd⟩ := exists_of_length_lt h hlt
    cases hd
    simp at hc
  · exact List.prefix_of_prefix_length_le h (List.prefix_append _ _) hle

/-- No token goes on across a gap. -/
theorem Taken.append_gap {spelling : List Char} (h : t.Taken spelling behind)
    (hc : isGap c = true) (rest : List Char) : t.Taken spelling (behind ++ c :: rest) := by
  have hwithin {u : Token} {other : List Char} (hother : u.Spelled other) (cs : List Char)
      (hbegins : other <+: cs ++ c :: rest) : other <+: cs := by
    refine prefix_of_not_mem hbegins fun hmem => ?_
    rw [hother.isGap_eq_false hmem] at hc
    cases hc
  cases h with
  | longest h hlongest =>
    refine .longest h fun u other hother hbegins => hlongest u other hother (hwithin hother _ ?_)
    rwa [List.append_assoc]
  | stray hgap hnone =>
    exact .stray hgap fun u other hother hbegins =>
      hnone u other hother (hwithin hother (_ :: behind) hbegins)

theorem scan_congr (h : next? cs = next? ds) : scan cs = scan ds := by
  cases hnext : next? ds with
  | none => rw [scan_of_none (h.trans hnext), scan_of_none hnext]
  | some found => rw [scan_of_next? (h.trans hnext), scan_of_next? hnext]

/-- What is in front of a gap and what is behind it are scanned on their own. -/
theorem scan_append_gap (hc : isGap c = true) (cs ds : List Char) :
    scan (cs ++ c :: ds) = scan cs ++ scan ds := by
  induction cs using next?_induction with
  | finished cs hnext =>
    rw [scan_of_none hnext, List.nil_append]
    refine scan_congr ?_
    unfold next?
    rw [List.dropWhile_append_of_pos (next?_eq_none_iff.1 hnext), List.dropWhile_cons_of_pos hc]
  | found cs t rest hnext ih =>
    obtain ⟨hsplit, htaken⟩ := taken_of_next? hnext
    have hfirst : next? (cs ++ c :: ds) = some (t, rest ++ c :: ds) := by
      have hread := (htaken.append_gap hc ds).next? fun d (hd : d ∈ cs.takeWhile isGap) =>
        List.mem_takeWhile_imp hd
      rwa [← List.append_assoc t.chars, ← List.append_assoc, ← hsplit] at hread
    rw [scan_of_next? hfirst, scan_of_next? hnext, ih, List.cons_append]

end Spacing

/-- The tokens as they are shown, with a blank between any two. -/
def spacedOut (ts : List Token) : List Char := (String.intercalate " " (ts.map display)).toList

theorem scan_spacedOut (ts : List Token) :
    scan (spacedOut ts) = ts.flatMap fun t => scan t.display.toList := by
  induction ts with
  | nil => exact scan_of_none rfl
  | cons t ts ih =>
    rw [List.flatMap_cons, ← ih]
    cases ts with
    | nil =>
      have hnone : scan (spacedOut []) = [] := scan_of_none rfl
      rw [hnone]
      simp [spacedOut]
    | cons u us =>
      rw [← scan_append_gap (c := ' ') rfl]
      simp [spacedOut]

theorem Spelled.scan_display {spelling : List Char} (h : t.Spelled spelling) :
    scan t.display.toList = [t] := by
  have hdisplay : t.display.toList = spelling := by
    rw [← h.chars_eq]
    cases h <;> exact String.toList_ofList
  have hread := h.next? Spaced.nil.parted
  rw [List.append_nil] at hread
  rw [hdisplay, scan_of_next? hread, scan_of_none rfl]

/-- What a stray character is shown as is no token of its own. -/
theorem scan_display_stray (c : Char) :
    scan (stray c).display.toList = [.stray '<', .word "error", .stray '>'] := by
  have hdisplay : (stray c).display = "<error>" := rfl
  rw [hdisplay]
  decide +kernel

theorem spelled_or_stray_of_mem_scan (ht : t ∈ scan cs) :
    (∃ spelling, t.Spelled spelling) ∨ ∃ c, t = .stray c := by
  obtain ⟨l, hl, rfl⟩ := List.mem_map.1 ht
  obtain ⟨before, behind, hstands⟩ := (tiles_scan cs).standsIn l hl
  exact hstands.taken.spelled_or_stray.imp_left fun h => ⟨_, h⟩

theorem length_le_flatMap {f : Token → List Token} (hsome : ∀ t ∈ ts, f t ≠ []) :
    ts.length ≤ (ts.flatMap f).length := by
  induction ts with
  | nil => exact Nat.le_refl _
  | cons t ts ih =>
    rw [List.forall_mem_cons] at hsome
    have hfirst := List.length_pos_iff.2 hsome.1
    have hrest := ih hsome.2
    rw [List.flatMap_cons, List.length_append, List.length_cons]
    omega

/-- If tokens are replaced by some each and none of them changes, each was replaced by itself. -/
theorem eq_singleton_of_flatMap_eq {f : Token → List Token} (hsome : ∀ t ∈ ts, f t ≠ [])
    (h : ts.flatMap f = ts) : ∀ t ∈ ts, f t = [t] := by
  induction ts with
  | nil => exact nofun
  | cons t ts ih =>
    rw [List.forall_mem_cons] at hsome
    obtain ⟨u, us, hfirst⟩ := List.exists_cons_of_ne_nil hsome.1
    rw [List.flatMap_cons, hfirst, List.cons_append, List.cons.injEq] at h
    obtain ⟨rfl, hrest⟩ := h
    have hlength := congrArg List.length hrest
    have hle := length_le_flatMap hsome.2
    rw [List.length_append] at hlength
    obtain rfl := List.eq_nil_of_length_eq_zero (l := us) (by omega)
    exact List.forall_mem_cons.2 ⟨hfirst, ih hsome.2 hrest⟩

/-- Tokens that are shown with blanks between them are scanned as they were exactly if none of them
is a stray character and each is spelled as its class is. -/
theorem scan_spacedOut_eq_iff :
    scan (spacedOut ts) = ts ↔ ∀ t ∈ ts, ∃ spelling, t.Spelled spelling := by
  constructor
  · intro h t ht
    have hkind {u : Token} (hu : u ∈ ts) := spelled_or_stray_of_mem_scan (h.symm ▸ hu)
    have hsome : ∀ u ∈ ts, scan u.display.toList ≠ [] := by
      intro u hu
      rcases hkind hu with ⟨spelling, hspelled⟩ | ⟨c, rfl⟩
      · rw [hspelled.scan_display]
        exact List.cons_ne_nil _ _
      · rw [scan_display_stray]
        exact List.cons_ne_nil _ _
    rw [scan_spacedOut] at h
    refine (hkind ht).resolve_right ?_
    rintro ⟨c, rfl⟩
    have halone := eq_singleton_of_flatMap_eq hsome h _ ht
    rw [scan_display_stray] at halone
    cases halone
  · intro h
    have hsingle : ∀ t ∈ ts, scan t.display.toList = [t] := fun t ht => by
      obtain ⟨spelling, hspelled⟩ := h t ht
      exact hspelled.scan_display
    rw [scan_spacedOut, List.flatMap_congr hsingle, List.flatMap_singleton']

end Token

/-- The scan is the only way to tile a text with its longest tokens: their places are not empty,
stand one behind the other and leave out exactly the gaps, each place holds what its token is
spelled, and no token can be gone on with. Tokens shown with blanks between them are scanned as
they were exactly if each is a token of a class. -/
theorem tokens_tile_text (text : List Char) (ts : List Token) :
    (∀ ls, Tiles text ls ↔ ls = Lexeme.scan 0 text) ∧
      (Token.scan (Token.spacedOut ts) = ts ↔ ∀ t ∈ ts, ∃ spelling, t.Spelled spelling) :=
  ⟨fun _ => tiles_iff, Token.scan_spacedOut_eq_iff⟩

example : Lexeme.scan 0 "é+5: x_1:-".toList =
    [⟨.stray 'é', 0, 2⟩, ⟨.literal "+5", 2, 4⟩, ⟨.stray ':', 4, 5⟩, ⟨.label "x_1", 6, 10⟩,
      ⟨.stray '-', 10, 11⟩] := by decide +kernel

end Accumulator.Source
