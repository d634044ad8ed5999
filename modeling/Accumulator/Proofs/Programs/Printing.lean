import Accumulator.Proofs.Programs.Rules
import Accumulator.Proofs.Run.Record
import Mathlib.Algebra.Group.Nat.Defs

/-!
A program that prints a text which it holds in memory. It counts down the
characters that are left in one variable and keeps the address of the last
character printed in another.
-/

namespace Accumulator.Printing

open Machine Run

/-- The cells before the text, the last of which holds its length. Where the variables are
depends on that. -/
def head (text : List Char) : Contents :=
  [(.load, some 15), (.save, some (UInt32.ofNat (16 + text.length))), (.push, some 15),
    (.save, some (UInt32.ofNat (17 + text.length))),
    (.load, some (UInt32.ofNat (16 + text.length))), (.jumpIfZero, some 14),
    (.subtract, some (UInt32.ofNat (18 + text.length))),
    (.save, some (UInt32.ofNat (16 + text.length))),
    (.load, some (UInt32.ofNat (17 + text.length))), (.increment, none),
    (.save, some (UInt32.ofNat (17 + text.length))), (.loadIndirect, none), (.output, none),
    (.jump, some 4), (.halt, none), (.string, some (UInt32.ofNat text.length))]

/-- The cells before the variables. -/
def front (text : List Char) : Contents := head text ++ text.map fun c => (.string, some c.val)

/-- The memory of the program when its variables have the given values. -/
def contents (text : List Char) (count place : Word) : Contents :=
  front text ++ [(.number, some count), (.number, some place), (.number, some 1)]

variable {text done rest : List Char} {count place w : Word} {m : Machine} {output : List Word}
  {tick i : Nat}

theorem length_head (text : List Char) : (head text).length = 16 := rfl

theorem length_front (text : List Char) : (front text).length = 16 + text.length := by
  rw [front, List.length_append, List.length_map, length_head]

theorem modify_append_add {α : Type} (xs ys : List α) (i : Nat) (f : α → α) :
    (xs ++ ys).modify (xs.length + i) f = xs ++ ys.modify i f := by
  induction xs with
  | nil => rw [List.nil_append, List.length_nil, Nat.zero_add, List.nil_append]
  | cons x xs ih =>
    rw [List.cons_append, List.length_cons, Nat.add_right_comm, List.modify_succ_cons, ih,
      List.cons_append]

section Variables

variable (hshort : text.length < 2 ^ 31)
include hshort

theorem toNat_variable (hi : i < 3) :
    (UInt32.ofNat (16 + i + text.length)).toNat = (front text).length + i := by
  have hword : 16 + i + text.length < 2 ^ 32 := by omega
  rw [UInt32.toNat_ofNat_of_lt' hword, length_front, Nat.add_right_comm]

theorem variable_lt (hi : i < 3) :
    (UInt32.ofNat (16 + i + text.length)).toNat < (contents text count place).length := by
  rw [toNat_variable hshort hi, contents, List.length_append]
  exact Nat.add_lt_add_left hi _

/-- The variables stand behind the text. -/
theorem getElem?_variable (hi : i < 3) :
    (contents text count place)[(UInt32.ofNat (16 + i + text.length)).toNat]? =
      [(Opcode.number, some count), (.number, some place), (.number, some 1)][i]? := by
  rw [toNat_variable hshort hi, contents, List.getElem?_append_right (Nat.le_add_right _ _),
    Nat.add_sub_cancel_left]

theorem written_count :
    (contents text count place).written (UInt32.ofNat (16 + text.length)) w =
      contents text w place := by
  have haddress := toNat_variable (i := 0) hshort (by decide)
  rw [Contents.written, haddress, contents, modify_append_add]
  rfl

theorem written_place :
    (contents text count place).written (UInt32.ofNat (17 + text.length)) w =
      contents text count w := by
  have haddress := toNat_variable (i := 1) hshort (by decide)
  rw [Contents.written, haddress, contents, modify_append_add]
  rfl

end Variables

/-- The character behind those that are done. -/
theorem getElem?_character {c : Char} (hshort : (done ++ c :: rest).length < 2 ^ 31) :
    (contents (done ++ c :: rest) count place)[(UInt32.ofNat (15 + done.length) + 1).toNat]? =
      some (.string, some c.val) := by
  have hword : 15 + done.length + 1 < 2 ^ 32 := by
    rw [List.length_append] at hshort
    omega
  have hnext : UInt32.ofNat (15 + done.length) + 1 = UInt32.ofNat (15 + done.length + 1) :=
    (UInt32.ofNat_add _ 1).symm
  have hplace : 15 + done.length + 1 = (head (done ++ c :: rest)).length + done.length := by
    rw [length_head]
    omega
  have hdone : (done.map fun c => (Opcode.string, some c.val)).length = done.length :=
    List.length_map _
  rw [hnext, UInt32.toNat_ofNat_of_lt' hword, hplace, contents, front, List.append_assoc,
    List.getElem?_append_right (Nat.le_add_right _ _), Nat.add_sub_cancel_left, List.map_append,
    List.append_assoc, List.getElem?_append_right (Nat.le_of_eq hdone), hdone, Nat.sub_self]
  rfl

/-- What the loop does with the next character. -/
theorem leadsTo_loop {c : Char} (hshort : (done ++ c :: rest).length < 2 ^ 31)
    (h : m.At (contents (done ++ c :: rest) (UInt32.ofNat (rest.length + 1))
      (UInt32.ofNat (15 + done.length))) output 4 w tick) :
    m.LeadsTo 10 (·.At (contents (done ++ c :: rest) (UInt32.ofNat rest.length)
      (UInt32.ofNat (15 + (done.length + 1)))) (output ++ [c.val]) 4 c.val (tick + 26)) := by
  have hcount : UInt32.ofNat (rest.length + 1) - 1 = UInt32.ofNat rest.length := by
    rw [UInt32.ofNat_add]
    exact UInt32.add_sub_cancel _ _
  have hplace : UInt32.ofNat (15 + done.length) + 1 = UInt32.ofNat (15 + (done.length + 1)) :=
    (UInt32.ofNat_add _ 1).symm
  have hleft : (UInt32.ofNat (rest.length + 1) == 0) = false := by
    have hword : rest.length + 1 < 2 ^ 32 := by
      rw [List.length_append, List.length_cons] at hshort
      omega
    apply beq_false_of_ne
    intro hzero
    have := congrArg UInt32.toNat hzero
    rw [UInt32.toNat_ofNat_of_lt' hword] at this
    nomatch this
  -- one character less is left
  refine (h.load rfl (getElem?_variable hshort (i := 0) (by decide))).andThen fun m₁ h₁ => ?_
  refine (h₁.1.jumpIfZero rfl (h₁.2.trans hleft)).andThen fun m₂ h₂ => ?_
  refine (h₂.subtract rfl (getElem?_variable hshort (i := 2) (by decide))).andThen fun m₃ h₃ => ?_
  refine (h₃.save rfl (variable_lt hshort (i := 0) (by decide))
    (written_count hshort)).andThen fun m₄ h₄ => ?_
  -- the place moves on to the next character
  refine (h₄.load rfl (getElem?_variable hshort (i := 1) (by decide))).andThen fun m₅ h₅ => ?_
  refine (h₅.1.increment rfl).andThen fun m₆ h₆ => ?_
  refine (h₆.save rfl (variable_lt hshort (i := 1) (by decide))
    (written_place hshort)).andThen fun m₇ h₇ => ?_
  -- the character is printed
  refine (h₇.loadIndirect rfl (getElem?_character hshort)).andThen fun m₈ h₈ => ?_
  refine (h₈.emit rfl).andThen fun m₉ h₉ => ?_
  rw [← hcount, ← hplace]
  exact h₉.jump rfl

/-- Before the loop the length of the text is counted down from and its cell is the place. -/
theorem leadsTo_start (hshort : text.length < 2 ^ 31)
    (h : m.At (contents text 0 0) output 0 w tick) :
    m.LeadsTo 4 (·.At (contents text (UInt32.ofNat text.length) 15) output 4 15 (tick + 11)) := by
  refine (h.load (a := 15) rfl rfl).andThen fun m₁ h₁ => ?_
  refine (h₁.1.save rfl (variable_lt hshort (i := 0) (by decide))
    (written_count hshort)).andThen fun m₂ h₂ => ?_
  refine (h₂.push rfl).andThen fun m₃ h₃ => ?_
  exact h₃.save rfl (variable_lt hshort (i := 1) (by decide)) (written_place hshort)

/-- The loop prints what is left of the text. -/
theorem leadsTo_printed (done : List Char) (hshort : (done ++ rest).length < 2 ^ 31)
    (h : m.At (contents (done ++ rest) (UInt32.ofNat rest.length)
      (UInt32.ofNat (15 + done.length))) output 4 w tick) :
    m.LeadsTo (10 * rest.length) fun m' => ∃ w', m'.At (contents (done ++ rest) 0
      (UInt32.ofNat (15 + (done ++ rest).length))) (output ++ rest.map Char.val) 4 w'
        (tick + 26 * rest.length) := by
  induction rest generalizing done m output w tick with
  | nil =>
    rw [List.append_nil] at h ⊢
    exact leadsTo_zero ⟨w, by simpa using h⟩
  | cons c rest ih =>
    have htext : done ++ c :: rest = (done ++ [c]) ++ rest := by simp
    refine (leadsTo_loop hshort h).andThen fun m₁ h₁ => ?_
    rw [htext] at h₁ hshort ⊢
    have hdone : done.length + 1 = (done ++ [c]).length := by simp
    rw [hdone] at h₁
    have houtput : output ++ (c :: rest).map Char.val = output ++ [c.val] ++ rest.map Char.val := by
      simp
    have htick : tick + 26 * (rest.length + 1) = tick + 26 + 26 * rest.length := by omega
    rw [houtput, List.length_cons, htick]
    exact ih (done ++ [c]) hshort h₁

/-- When nothing is left, the program gets to its end. -/
theorem leadsTo_end (hshort : text.length < 2 ^ 31)
    (h : m.At (contents text 0 place) output 4 w tick) :
    m.LeadsTo 2 (·.At (contents text 0 place) output 14 0 (tick + 5)) := by
  refine (h.load rfl (getElem?_variable hshort (i := 0) (by decide))).andThen fun m₁ h₁ => ?_
  exact h₁.1.jumpIfZero rfl h₁.2

/-- A machine with the program in memory prints the text and gets to the halt. -/
theorem leadsTo_halt (hshort : text.length < 2 ^ 31) (h : m.At (contents text 0 0) [] 0 w 0) :
    m.LeadsTo (10 * text.length + 6) fun m' => ∃ place,
      m'.At (contents text 0 place) (text.map Char.val) 14 0 (26 * text.length + 16) := by
  have htotal : 10 * text.length + 6 = 2 + 10 * text.length + 4 := by omega
  have htick : 26 * text.length + 16 = 0 + 11 + 26 * text.length + 5 := by omega
  rw [htotal, htick]
  refine (leadsTo_start hshort h).andThen fun m₁ h₁ => ?_
  refine (leadsTo_printed [] hshort h₁).andThen fun m₂ h₂ => ?_
  obtain ⟨w', h₂⟩ := h₂
  refine (leadsTo_end hshort h₂).imp fun m' h' => ⟨_, h'⟩

theorem simulate_image {image : Image} {limits : Limits} (hshort : text.length < 2 ^ 31)
    (hmemory : image.memory = (contents text 0 0).placed)
    (hlimit : 26 * text.length + 17 < limits.ticks) :
    ∃ report, simulate image [] limits = .ok report ∧ report.stop = .halted ∧
      report.output = String.join (text.map fun c => Word.symbolText c.val) ∧
        report.instructions = 10 * text.length + 7 ∧ report.ticks = 26 * text.length + 17 := by
  have hstart : (Run.start image []).machine.At (contents text 0 0) [] 0 0 0 :=
    ⟨hmemory, rfl, rfl, rfl, rfl, rfl, rfl⟩
  obtain ⟨events, m, hleads, place, hm⟩ := leadsTo_halt hshort hstart
  obtain ⟨r, hcomes, hmachine, harrivals⟩ := exists_comesTo_of_leads limits hleads rfl nofun
  subst hmachine
  have hcell : r.machine.cellAt r.machine.programCounter = .ok ⟨14, .halt, none⟩ := hm.cellAt rfl
  have hnone : r.arrivals = [] := harrivals
  have hbelow : r.machine.tick + 1 < limits.ticks := by
    rw [hm.tick]
    exact hlimit
  obtain ⟨final, hcomplete, hfinal, hinstructions, -⟩ :=
    exists_complete_of_halt hm.phase hm.quiet hcell rfl (by simp [hnone]) hbelow
  have hrun : (Run.start image []).complete limits = (final, .stopped .halted) := by
    rw [hcomes.complete (Nat.lt_of_succ_lt hbelow), hcomplete]
  refine ⟨final.report .halted, ?_, rfl, ?_, ?_, ?_⟩
  · rw [simulate_eq, hrun]
  · change final.machine.outputText = _
    rw [outputText_eq, hfinal]
    change String.join (r.machine.output.toList.map Word.symbolText) = _
    rw [hm.output, List.map_map]
    rfl
  · change final.instructions = _
    rw [hinstructions, hcomes.instructions]
    change 0 + _ + 1 = _
    omega
  · change final.machine.tick = _
    rw [hfinal]
    exact congrArg (· + 1) hm.tick

end Accumulator.Printing
