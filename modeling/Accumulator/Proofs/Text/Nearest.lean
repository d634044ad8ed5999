import Accumulator.Proofs.Text.ByteOrder
import Accumulator.Proofs.Text.Distance

/-!
The nearest of some candidates. It is the first in the order of bytes of those
that fewest edits turn the name into, and it is looked for among the candidates
that two edits reach. The order in which the candidates come does not matter.
-/

namespace Accumulator.Text

/-- Whether a candidate is the nearest to a name, and near enough. -/
structure IsNearest (name : String) (candidates : List String) (c : String) : Prop where
  mem : c ∈ candidates
  near : levenshtein name.toList c.toList ≤ 2
  least : ∀ d ∈ candidates, levenshtein name.toList c.toList ≤ levenshtein name.toList d.toList
  first : ∀ d ∈ candidates, levenshtein name.toList d.toList = levenshtein name.toList c.toList →
    d = c ∨ bytes c < bytes d

/-- The order that the nearest candidate is the least in. -/
def NoFarther (a b : Nat × String) : Prop := a.1 < b.1 ∨ (a.1 = b.1 ∧ a.2 ≤ b.2)

variable {a b best : Nat × String} {name c : String} {candidates others : List String}

theorem NoFarther.refl (a : Nat × String) : NoFarther a a := .inr ⟨rfl, le_rfl⟩

theorem NoFarther.trans {c : Nat × String} (hab : NoFarther a b) (hbc : NoFarther b c) :
    NoFarther a c := by
  rcases hab with hab | ⟨hab, hab'⟩
  · rcases hbc with hbc | ⟨hbc, -⟩
    · exact .inl (hab.trans hbc)
    · exact .inl (hbc ▸ hab)
  · rcases hbc with hbc | ⟨hbc, hbc'⟩
    · exact .inl (hab ▸ hbc)
    · exact .inr ⟨hab.trans hbc, hab'.trans hbc'⟩

theorem IsNearest.unique {d : String} (hc : IsNearest name candidates c)
    (hd : IsNearest name candidates d) : c = d := by
  have hsame := le_antisymm (hc.least d hd.mem) (hd.least c hc.mem)
  rcases hd.first c hc.mem hsame with h | hdc
  · exact h
  · rcases hc.first d hd.mem hsame.symm with h | hcd
    · exact h.symm
    · exact absurd hcd (List.lt_asymm hdc)

theorem IsNearest.congr (hsame : ∀ c, c ∈ others ↔ c ∈ candidates)
    (h : IsNearest name candidates c) : IsNearest name others c where
  mem := (hsame c).2 h.mem
  near := h.near
  least := fun d hd => h.least d ((hsame d).1 hd)
  first := fun d hd => h.first d ((hsame d).1 hd)

end Accumulator.Text
