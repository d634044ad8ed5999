import Accumulator.Layout.Resolve
import Accumulator.Proofs.Machine.Pending
import Accumulator.Proofs.Run.Accounting
import Accumulator.Proofs.Run.Record
import Accumulator.Proofs.Run.Stretch
import Mathlib.Data.List.Chain

/-!
A program that echoes its input. It waits in a loop of one jump for symbols to
interrupt it; the handler puts each symbol out again, and the null symbol halts
the program.
-/

namespace Accumulator.Echo

open Machine Run

def source : List Char :=
  ("; echoes every input character until the null character arrives\n" ++
    ".code:\nwait:\n    JUMP wait\n\nhandler:\n    INPUT\n    CMP 0\n    JZ done\n    OUTPUT\n" ++
    "    RET\ndone:\n    HALT\n\n.data:\n    irq VECTOR handler\n").toList

def image : Image where
  vector := some 1
  memory := #[⟨0, .jump, some 0⟩, ⟨1, .input, none⟩, ⟨2, .compare, some 0⟩,
    ⟨3, .jumpIfZero, some 6⟩, ⟨4, .output, none⟩, ⟨5, .ret, none⟩, ⟨6, .halt, none⟩]

theorem assemble_source : assemble source = .ok image := by decide +kernel

/-- The machine in its waiting loop, about to fetch the jump. -/
def waiting (tick : Nat) (output : Array Word) (zero : Bool) (instruction : Cell) : Machine where
  memory := image.memory
  vector := image.vector
  output := output
  zero := zero
  instruction := instruction
  tick := tick

/-- The machine in its handler, with a symbol read. -/
def handling (tick : Nat) (output : Array Word) (symbol : Word) (zero : Bool) (address : Word)
    (instruction : Cell) : Machine :=
  { waiting tick output zero instruction with
    accumulator := symbol
    programCounter := address
    interrupted := true }

variable {limits : Limits} {r : Run} {a : Arrival} {rest : List Arrival} {tick : Nat}
  {output : Array Word} {zero : Bool} {instruction c : Cell} {symbol : Word} {events : List Event}

/-- Each arrival leaves the handler time to serve it before the next one. -/
def Spaced (arrivals : List Arrival) : Prop :=
  arrivals.IsChain fun a b => a.tick + 11 ≤ b.tick

/-- A symbol is read and compared with the null symbol. -/
theorem leads_compared (tick : Nat) (output : Array Word) (zero : Bool) (instruction : Cell)
    (symbol : Word) : ((waiting tick output zero instruction).arrive symbol).Leads 3
    [.interruptEnter 0 1, .input symbol]
    (handling (tick + 5) output symbol (symbol == 0) 3 ⟨2, .compare, some 0⟩) := by
  have henter : ((waiting tick output zero instruction).arrive symbol).Leads 1
      [.interruptEnter 0 1] ((handling (tick + 1) output 0 zero 1 instruction).arrive symbol) :=
    leads_one rfl rfl rfl
  have hinput : ((handling (tick + 1) output 0 zero 1 instruction).arrive symbol).Leads 1
      [.input symbol] (handling (tick + 3) output symbol (symbol == 0) 2 ⟨1, .input, none⟩) :=
    leads_one rfl rfl rfl
  have hcompare : (handling (tick + 3) output symbol (symbol == 0) 2 ⟨1, .input, none⟩).Leads 1 []
      (handling (tick + 5) output symbol (symbol == 0) 3 ⟨2, .compare, some 0⟩) :=
    leads_one rfl rfl rfl
  exact (henter.trans hinput).trans hcompare

/-- A symbol that is not null is put out. -/
theorem leads_echoed (tick : Nat) (output : Array Word) (zero : Bool) (instruction : Cell)
    (hsymbol : symbol ≠ 0) :
    ((waiting tick output zero instruction).arrive symbol).Leads 5
      [.interruptEnter 0 1, .input symbol, .output symbol]
      (handling (tick + 9) (output.push symbol) symbol false 5 ⟨4, .output, none⟩) := by
  have hread : ((waiting tick output zero instruction).arrive symbol).Leads 3
      [.interruptEnter 0 1, .input symbol]
      (handling (tick + 5) output symbol false 3 ⟨2, .compare, some 0⟩) := by
    rw [← beq_false_of_ne hsymbol]
    exact leads_compared tick output zero instruction symbol
  have hpass : (handling (tick + 5) output symbol false 3 ⟨2, .compare, some 0⟩).Leads 1 []
      (handling (tick + 7) output symbol false 4 ⟨3, .jumpIfZero, some 6⟩) :=
    leads_one rfl rfl rfl
  have houtput : (handling (tick + 7) output symbol false 4 ⟨3, .jumpIfZero, some 6⟩).Leads 1
      [.output symbol]
      (handling (tick + 9) (output.push symbol) symbol false 5 ⟨4, .output, none⟩) :=
    leads_one rfl rfl rfl
  exact (hread.trans hpass).trans houtput

/-- The null symbol leads to the end of the program. -/
theorem leads_done (tick : Nat) (output : Array Word) (zero : Bool) (instruction : Cell) :
    ((waiting tick output zero instruction).arrive 0).Leads 4
    [.interruptEnter 0 1, .input 0]
    (handling (tick + 7) output 0 true 6 ⟨3, .jumpIfZero, some 6⟩) := by
  have hjump : (handling (tick + 5) output 0 true 3 ⟨2, .compare, some 0⟩).Leads 1 []
      (handling (tick + 7) output 0 true 6 ⟨3, .jumpIfZero, some 6⟩) :=
    leads_one rfl rfl rfl
  exact (leads_compared tick output zero instruction 0).trans hjump

/-- The machine is about to fetch a short instruction that leads to the waiting loop. -/
structure Returns (m : Machine) (output : Array Word) (zero : Bool) (c : Cell)
    (events : List Event) : Prop where
  fetch : m.phase = .fetch
  quiet : m.interruption? = none
  cell : m.cellAt m.programCounter = .ok c
  short : c.opcode.accessesMemory = false
  silent : c.opcode ≠ .input
  effect : c.effect m = .ok { machine := waiting m.tick output zero c, events }

theorem returns_jump : Returns (waiting tick output zero instruction) output zero
    ⟨0, .jump, some 0⟩ [] :=
  ⟨rfl, rfl, rfl, rfl, Opcode.noConfusion, rfl⟩

theorem returns_ret : Returns (handling tick output symbol zero 5 instruction) output true
    ⟨5, .ret, none⟩ [.interruptExit 0] :=
  ⟨rfl, rfl, rfl, rfl, Opcode.noConfusion, rfl⟩

/-- The symbol of the arrival is pending, and the handler is about to be entered. That is in the
tick of the arrival, or in the next one if it came while an instruction was decoded. -/
def Called (r : Run) (a : Arrival) (output : Array Word) : Prop :=
  ∃ tick zero instruction, (tick = a.tick ∨ tick = a.tick + 1) ∧
    r.machine = (waiting tick output zero instruction).arrive a.symbol

theorem Called.tick_lt {last : Nat} (h : Called r a output) (hlast : a.tick ≤ last)
    (hlimit : last + 9 < limits.ticks) : r.machine.tick < limits.ticks := by
  obtain ⟨tick, zero, instruction, htick, hmachine⟩ := h
  rw [hmachine]
  change tick < limits.ticks
  omega

theorem exists_called_of_due (limits : Limits)
    (hmachine : r.machine = waiting a.tick output zero instruction)
    (harrivals : r.arrivals = a :: rest) (hspaced : ∀ b ∈ rest.head?, a.tick + 11 ≤ b.tick) :
    ∃ r', r.ComesTo limits 0 [] r' ∧ Called r' a output ∧ r'.arrivals = rest := by
  have htick : r.machine.tick = a.tick := by rw [hmachine]; rfl
  have hquiet : ∀ b ∈ rest.head?, r.machine.tick < b.tick := by
    intro b hb
    have := hspaced b hb
    omega
  refine ⟨r.received a rest, comesTo_received limits harrivals (Nat.le_of_eq htick.symm) hquiet,
    ⟨a.tick, zero, instruction, .inl rfl, ?_⟩, rfl⟩
  rw [← hmachine]
  rfl

/-- On its way to the waiting loop, and in it, the program waits for the next arrival. -/
theorem exists_called (limits : Limits) (hreturns : Returns r.machine output zero c events)
    (harrivals : r.arrivals = a :: rest) (hlater : r.machine.tick < a.tick)
    (hspaced : ∀ b ∈ rest.head?, a.tick + 11 ≤ b.tick) :
    ∃ n r', r.ComesTo limits n events r' ∧ Called r' a output ∧ r'.arrivals = rest := by
  -- induction on the ticks up to the arrival, two of which each turn of the loop takes
  induction hdistance : a.tick - r.machine.tick using Nat.strongRecOn
    generalizing r zero c events with
  | ind distance ih =>
    by_cases hnext : a.tick = r.machine.tick + 1
    · obtain ⟨r', hcomes, hmachine, hrest⟩ := exists_comesTo_of_arrival limits
        hreturns.fetch hreturns.quiet hreturns.cell hreturns.short hreturns.silent hreturns.effect
        harrivals hnext fun b hb => by
          have := hspaced b hb
          omega
      exact ⟨1, r', hcomes, ⟨r.machine.tick + 2, zero, c, .inr (by omega), hmachine⟩, hrest⟩
    · obtain ⟨hinstruct, hticks⟩ := instruct_of_cell hreturns.quiet hreturns.cell
      rw [hreturns.effect] at hinstruct
      have htwo : c.opcode.ticks = 2 := by rw [Opcode.ticks, hreturns.short]; rfl
      rw [htwo] at hticks
      obtain ⟨r₁, hfirst, hmachine₁, harrivals₁⟩ := exists_comesTo_of_instruct limits
        hreturns.fetch hinstruct (by
          rw [hticks, harrivals]
          rintro b ⟨⟩
          omega)
      have hwaiting : r₁.machine = waiting (r.machine.tick + 2) output zero c := by
        rw [hmachine₁, hticks]
        rfl
      have htick₁ : r₁.machine.tick = r.machine.tick + 2 := by rw [hwaiting]; rfl
      have harrivals₁ : r₁.arrivals = a :: rest := harrivals₁.trans harrivals
      by_cases hdue : a.tick = r.machine.tick + 2
      · rw [← hdue] at hwaiting
        obtain ⟨r', hcomes, hcalled, hrest⟩ :=
          exists_called_of_due limits hwaiting harrivals₁ hspaced
        rw [← List.append_nil events]
        exact ⟨_, r', hfirst.trans hcomes, hcalled, hrest⟩
      · have hreturns₁ : Returns r₁.machine output zero ⟨0, .jump, some 0⟩ [] := by
          rw [hwaiting]
          exact returns_jump
        obtain ⟨n, r', hcomes, hcalled, hrest⟩ := ih (a.tick - r₁.machine.tick) (by omega)
          hreturns₁ harrivals₁ (by omega) rfl
        rw [← List.append_nil events]
        exact ⟨_, r', hfirst.trans hcomes, hcalled, hrest⟩

/-- A symbol that is not null is put out, and the next arrival is waited for. -/
theorem exists_served (limits : Limits) {b : Arrival} (hcalled : Called r a output)
    (hsymbol : a.symbol ≠ 0)
    (harrivals : r.arrivals = b :: rest) (hlater : a.tick + 11 ≤ b.tick)
    (hspaced : ∀ d ∈ rest.head?, b.tick + 11 ≤ d.tick) :
    ∃ n r', r.ComesTo limits n
        [.interruptEnter 0 1, .input a.symbol, .output a.symbol, .interruptExit 0] r' ∧
      Called r' b (output.push a.symbol) ∧ r'.arrivals = rest := by
  obtain ⟨tick, zero, instruction, htick, hmachine⟩ := hcalled
  have hleads := leads_echoed tick output zero instruction hsymbol
  rw [← hmachine] at hleads
  obtain ⟨r₁, hfirst, hmachine₁, harrivals₁⟩ := exists_comesTo_of_leads limits hleads rfl
    (by
      rw [harrivals]
      rintro d ⟨⟩
      change tick + 9 ≤ b.tick
      omega)
  have hreturns : Returns r₁.machine (output.push a.symbol) true ⟨5, .ret, none⟩
      [.interruptExit 0] := by
    rw [hmachine₁]
    exact returns_ret
  have htick₁ : r₁.machine.tick = tick + 9 := by rw [hmachine₁]; rfl
  obtain ⟨n, r', hsecond, hcalled, hrest⟩ := exists_called limits hreturns
    (harrivals₁.trans harrivals) (by omega) hspaced
  exact ⟨5 + n, r', hfirst.trans hsecond, hcalled, hrest⟩

/-- How the run ends that is left with so many symbols and then the null symbol. -/
structure Echoes (limits : Limits) (r : Run) (output : Array Word) (symbols : List Word)
    (last : Nat) (final : Run) : Prop where
  complete : r.complete limits = (final, .stopped .halted)
  output : final.machine.output.toList = output.toList ++ symbols
  tick : final.machine.tick = last + 8 ∨ final.machine.tick = last + 9
  entries : final.events.toList.countP Event.isEntry =
    r.events.toList.countP Event.isEntry + (symbols.length + 1)
  inputs : final.events.toList.filterMap Event.input? =
    r.events.toList.filterMap Event.input? ++ (symbols ++ [0])

theorem exists_echoes_nil {last : Nat} (hcalled : Called r ⟨last, 0⟩ output)
    (harrivals : r.arrivals = []) (hlimit : last + 9 < limits.ticks) :
    ∃ final, Echoes limits r output [] last final := by
  obtain ⟨tick, zero, instruction, htick, hmachine⟩ := hcalled
  have hleads := leads_done tick output zero instruction
  rw [← hmachine] at hleads
  obtain ⟨r₁, hfirst, hmachine₁, harrivals₁⟩ := exists_comesTo_of_leads limits hleads rfl
    (by simp [harrivals])
  have htick₁ : r₁.machine.tick = tick + 7 := by rw [hmachine₁]; rfl
  change tick = last ∨ tick = last + 1 at htick
  have hhalt : r₁.machine.cellAt r₁.machine.programCounter = .ok ⟨6, .halt, none⟩ := by
    rw [hmachine₁]
    rfl
  have hbelow : r₁.machine.tick + 1 < limits.ticks := by omega
  obtain ⟨final, hcomplete, hfinal, -, hevents⟩ := exists_complete_of_halt (by rw [hmachine₁]; rfl)
    (by rw [hmachine₁]; rfl) hhalt rfl (by simp [harrivals₁, harrivals]) hbelow
  have htick' : final.machine.tick = tick + 8 := by rw [hfinal, hmachine₁]; rfl
  refine ⟨final, ?_, ?_, by omega, ?_, ?_⟩
  · rw [hfirst.complete (by omega), hcomplete]
  · rw [hfinal, hmachine₁]
    exact (List.append_nil _).symm
  · rw [hevents, hfirst.events, List.append_assoc, List.countP_append]
    rfl
  · rw [hevents, hfirst.events, List.append_assoc, List.filterMap_append]
    rfl

theorem tick_le_last {last : Nat} {front : List Arrival}
    (hqueue : front ++ [⟨last, 0⟩] = a :: rest)
    (hspaced : Spaced (a :: rest)) : a.tick ≤ last := by
  have hordered : (a :: rest).Pairwise fun a b => a.tick ≤ b.tick :=
    List.isChain_iff_pairwise.1 (hspaced.imp fun a b h => Nat.le_trans (Nat.le_add_right _ _) h)
  have hlast : ⟨last, 0⟩ ∈ a :: rest := by
    rw [← hqueue]
    exact List.mem_append_right _ List.mem_cons_self
  rcases List.mem_cons.1 hlast with rfl | hlast
  · exact Nat.le_refl _
  · exact List.rel_of_pairwise_cons hordered hlast

/-- The symbols are echoed one after the other. The induction is on the queue of arrivals: each of
them finds the program in its waiting loop, or in the last tick of its handler. -/
theorem exists_echoes {last : Nat} {front : List Arrival}
    (hqueue : front ++ [⟨last, 0⟩] = a :: rest)
    (hspaced : Spaced (a :: rest))
    (hsymbols : ∀ b ∈ front, b.symbol ≠ 0) (hcalled : Called r a output)
    (harrivals : r.arrivals = rest) (hlimit : last + 9 < limits.ticks) :
    ∃ final, Echoes limits r output (front.map Arrival.symbol) last final := by
  induction front generalizing a rest r output with
  | nil =>
    cases hqueue
    exact exists_echoes_nil hcalled harrivals hlimit
  | cons first front ih =>
    obtain ⟨rfl, hrest⟩ := List.cons_eq_cons.1 hqueue
    rw [List.forall_mem_cons] at hsymbols
    obtain ⟨b, others, hothers⟩ := List.exists_cons_of_ne_nil
      (List.append_ne_nil_of_right_ne_nil front (List.cons_ne_nil (⟨last, 0⟩ : Arrival) []))
    obtain rfl : rest = b :: others := hrest.symm.trans hothers
    obtain ⟨hnext, hspaced⟩ := List.isChain_cons_cons.1 hspaced
    obtain ⟨n, r₁, hfirst, hcalled₁, harrivals₁⟩ := exists_served limits hcalled
      hsymbols.1 harrivals hnext (List.isChain_cons.1 hspaced).1
    obtain ⟨final, hfinal⟩ := ih hothers hspaced hsymbols.2 hcalled₁ harrivals₁
    have hbelow := hcalled₁.tick_lt (tick_le_last hothers hspaced) hlimit
    refine ⟨final, ?_, ?_, hfinal.tick, ?_, ?_⟩
    · rw [hfirst.complete hbelow, hfinal.complete]
    · rw [hfinal.output, Array.toList_push, List.append_assoc]
      rfl
    · have hone : [Event.interruptEnter 0 1, .input first.symbol, .output first.symbol,
          .interruptExit 0].countP Event.isEntry = 1 := rfl
      rw [hfinal.entries, hfirst.events, List.countP_append, hone, List.map_cons, List.length_cons]
      omega
    · rw [hfinal.inputs, hfirst.events, List.filterMap_append, List.append_assoc]
      rfl

/-- The program echoes its input. For all arrivals of symbols that are not null, each at least
eleven ticks after the one before it, and then of a null symbol, the run halts; it has put out the
symbols in order, and it has entered its handler for each arrival and read each symbol. -/
theorem echoes_spaced_input (arrivals : List Arrival) (last : Nat) (limits : Limits)
    (hspaced : Spaced (arrivals ++ [⟨last, 0⟩])) (hsymbols : ∀ a ∈ arrivals, a.symbol ≠ 0)
    (hlimit : last + 9 < limits.ticks) :
    ∃ image final report, assemble source = .ok image ∧
      (Run.start image (arrivals ++ [⟨last, 0⟩])).complete limits = (final, .stopped .halted) ∧
      simulate image (arrivals ++ [⟨last, 0⟩]) limits = .ok report ∧
      report.stop = .halted ∧
      report.output = String.join (arrivals.map fun a => a.symbol.symbolText) ∧
      (report.ticks = last + 8 ∨ report.ticks = last + 9) ∧
      final.events.toList.countP Event.isEntry = arrivals.length + 1 ∧
      final.events.toList.filterMap Event.input? = arrivals.map Arrival.symbol ++ [0] := by
  obtain ⟨a, rest, hqueue⟩ := List.exists_cons_of_ne_nil
    (List.append_ne_nil_of_right_ne_nil arrivals (List.cons_ne_nil (⟨last, 0⟩ : Arrival) []))
  rw [hqueue] at hspaced ⊢
  have hmachine : (Run.start image (a :: rest)).machine = waiting 0 #[] false .idle := rfl
  have hnext : ∀ b ∈ rest.head?, a.tick + 11 ≤ b.tick :=
    (List.isChain_cons.1 hspaced).1
  -- the first symbol may arrive at once
  obtain ⟨n, r, hfirst, hcalled, harrivals⟩ : ∃ n r,
      (Run.start image (a :: rest)).ComesTo limits n [] r ∧ Called r a #[] ∧ r.arrivals = rest := by
    by_cases hnow : a.tick = 0
    · rw [← hnow] at hmachine
      exact ⟨0, exists_called_of_due limits hmachine rfl hnext⟩
    · have hreturns : Returns (Run.start image (a :: rest)).machine #[] false
          ⟨0, .jump, some 0⟩ [] := returns_jump
      exact exists_called limits hreturns rfl (Nat.pos_of_ne_zero hnow) hnext
  obtain ⟨final, hfinal⟩ := exists_echoes hqueue hspaced hsymbols hcalled harrivals hlimit
  have hcomplete : (Run.start image (a :: rest)).complete limits = (final, .stopped .halted) := by
    rw [hfirst.complete (hcalled.tick_lt (tick_le_last hqueue hspaced) hlimit), hfinal.complete]
  refine ⟨image, final, final.report .halted, assemble_source, hcomplete, ?_, rfl, ?_,
    hfinal.tick, ?_, ?_⟩
  · rw [simulate_eq, hcomplete]
  · change final.machine.outputText = _
    rw [outputText_eq, hfinal.output, List.nil_append, List.map_map]
    rfl
  · rw [hfinal.entries, hfirst.events, List.length_map]
    exact Nat.zero_add _
  · rw [hfinal.inputs, hfirst.events]
    rfl

/-- Two symbols, as close to each other as may be. -/
def greeting : List Arrival := [⟨5, 104⟩, ⟨16, 105⟩]

theorem echoes_spaced_input_greeting :
    Spaced (greeting ++ [⟨27, 0⟩]) ∧ (∀ a ∈ greeting, a.symbol ≠ 0) ∧
      ∃ report, simulate image (greeting ++ [⟨27, 0⟩]) { ticks := 37 } = .ok report ∧
        report.stop = .halted ∧ report.output = "hi" := by
  have hspaced : Spaced (greeting ++ [⟨27, 0⟩]) := by
    unfold Spaced
    decide
  have hsymbols : ∀ a ∈ greeting, a.symbol ≠ 0 := by decide
  obtain ⟨other, final, report, hsource, -, hsimulate, hstop, houtput, -⟩ :=
    echoes_spaced_input greeting 27 { ticks := 37 } hspaced hsymbols (by decide)
  obtain rfl : other = image := Except.ok.inj (hsource.symm.trans assemble_source)
  exact ⟨hspaced, hsymbols, report, hsimulate, hstop, houtput.trans (by decide)⟩

end Accumulator.Echo
