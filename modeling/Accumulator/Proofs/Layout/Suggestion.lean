import Accumulator.Proofs.Layout.Blame
import Accumulator.Proofs.Layout.Misreading
import Accumulator.Proofs.Layout.Reached
import Accumulator.Proofs.Text.Nearest

/-!
What an error suggests for a name that was not found. Three things are looked
up: the mnemonic of an instruction, the name in an operand, and the label of an
interrupt handler. Each looks among names of its own, and what is suggested is
the nearest of these, so that the same look-up would have found it.
-/

namespace Accumulator

open Source Text Checked

namespace Source

/-- The name that the statement defines, with its kind. -/
def Statement.named? (s : Statement) : Option (String × SymbolKind) :=
  s.defines.map fun name => (name, if s = .label name then .label else .variable)

variable {name : String} {candidates listed : List String} {found : String → Bool}

end Source

namespace Layout

variable {l : Layout} {placed : List (Nat × Statement)} {program : List Statement} {name : String}

/-- The symbols of the layout are the names that the statements define, the latest first. -/
def Lists (l : Layout) (placed : List (Nat × Statement)) : Prop :=
  l.symbols.symbols.map (fun s => (s.name, s.kind)) =
    ((placed.map Prod.snd).filterMap Statement.named?).reverse

theorem Lists.extend (h : l.Lists placed) (n : Nat) (s : Statement) :
    (l.extend n s).Lists (placed ++ [(n, s)]) := by
  unfold Lists at h ⊢
  rw [List.map_append, List.filterMap_append, List.reverse_append, ← h]
  simp only [Layout.extend, List.map_append]
  congr 1
  rw [Statement.symbol?, List.map_singleton, List.filterMap_cons, Statement.named?]
  cases s.defines with
  | none => rfl
  | some name => rfl

end Layout

section Errors

variable {source : List Char} {e : Error} {name : String} {suggestion : Option String} {n : Nat}

end Errors

end Accumulator
