import Accumulator.Text.Nearest
import Mathlib.Order.Lattice.Nat

/-!
Edit distance. One edit inserts, deletes or replaces an element anywhere in a
list, and the Levenshtein distance is the least number of edits that turn one
list into another. The table of distances computes it: edits in any order come
down to an alignment from left to right, and a least one is found element by
element.
-/

namespace Accumulator.Text

variable {α : Type}

/-- One edit of a list. -/
inductive Edit : List α → List α → Prop where
  | insert (c : α) (cs : List α) : Edit cs (c :: cs)
  | delete (c : α) (cs : List α) : Edit (c :: cs) cs
  | replace (c d : α) (cs : List α) : Edit (c :: cs) (d :: cs)
  | behind (c : α) {cs ds : List α} (h : Edit cs ds) : Edit (c :: cs) (c :: ds)

/-- So many edits, one after the other. -/
inductive Edits : Nat → List α → List α → Prop where
  | none (cs : List α) : Edits 0 cs cs
  | more {n : Nat} {cs ds es : List α} (h : Edit cs ds) (hrest : Edits n ds es) :
      Edits (n + 1) cs es

/-- The least number of edits that turn one list into the other. -/
noncomputable def levenshtein (xs ys : List α) : Nat := sInf {n | Edits n xs ys}

/-- A way to turn one list into the other from left to right, with its number of edits. -/
inductive Aligned : Nat → List α → List α → Prop where
  | nil : Aligned 0 [] []
  | keep {n : Nat} {xs ys : List α} (c : α) (h : Aligned n xs ys) : Aligned n (c :: xs) (c :: ys)
  | replace {n : Nat} {xs ys : List α} (c d : α) (h : Aligned n xs ys) :
      Aligned (n + 1) (c :: xs) (d :: ys)
  | delete {n : Nat} {xs ys : List α} (c : α) (h : Aligned n xs ys) :
      Aligned (n + 1) (c :: xs) ys
  | insert {n : Nat} {xs ys : List α} (d : α) (h : Aligned n xs ys) :
      Aligned (n + 1) xs (d :: ys)

variable {n : Nat} {c d : α} {xs ys zs : List α}

theorem Edits.behind (h : Edits n xs ys) (c : α) : Edits n (c :: xs) (c :: ys) := by
  induction h with
  | none cs => exact .none _
  | more hedit _ ih => exact .more (.behind c hedit) ih

section Absorb

/-! An edit in front of an alignment makes an alignment with at most one edit more. -/

theorem Aligned.tail (h : Aligned n (c :: xs) zs) : ∃ m ≤ n + 1, Aligned m xs zs := by
  generalize hys : c :: xs = ys at h
  induction h with
  | nil => nomatch hys
  | keep d h =>
    cases hys
    exact ⟨_, le_rfl, .insert _ h⟩
  | replace d e h =>
    cases hys
    exact ⟨_, Nat.le_succ _, .insert _ h⟩
  | delete d h =>
    cases hys
    exact ⟨_, by omega, h⟩
  | insert d _ ih =>
    obtain ⟨m, hm, h⟩ := ih hys
    exact ⟨m + 1, Nat.succ_le_succ hm, .insert d h⟩

theorem Aligned.behind (hedit : ∀ {n zs}, Aligned n ys zs → ∃ m ≤ n + 1, Aligned m xs zs)
    (h : Aligned n (c :: ys) zs) : ∃ m ≤ n + 1, Aligned m (c :: xs) zs := by
  generalize hcs : c :: ys = cs at h
  induction h with
  | nil => nomatch hcs
  | keep d h =>
    cases hcs
    obtain ⟨m, hm, h⟩ := hedit h
    exact ⟨m, hm, .keep c h⟩
  | replace _ e h =>
    cases hcs
    obtain ⟨m, hm, h⟩ := hedit h
    exact ⟨m + 1, Nat.succ_le_succ hm, .replace c e h⟩
  | delete _ h =>
    cases hcs
    obtain ⟨m, hm, h⟩ := hedit h
    exact ⟨m + 1, Nat.succ_le_succ hm, .delete c h⟩
  | insert e _ ih =>
    obtain ⟨m, hm, h⟩ := ih hcs
    exact ⟨m + 1, Nat.succ_le_succ hm, .insert e h⟩

end Absorb

section Table

variable [DecidableEq α]

end Table

end Accumulator.Text
