import Accumulator.Proofs.Machine.ProgramCounter
import Accumulator.Proofs.Run.Course

/-!
The counters of a machine and of a run. A run counts a tick only below its
limit, and at most one instruction in a tick, so neither count passes the limit.
-/

namespace Accumulator.Run

variable {limits : Limits} {start r : Run} {before : List Run}

theorem prepare_instructions_le (r : Run) : r.prepare.instructions ≤ r.instructions + 1 := by
  obtain ⟨pending, arrivals, hprepare⟩ := r.prepare_eq
  rw [hprepare]
  change r.instructions + _ ≤ _
  split
  · exact Nat.le_refl _
  · exact Nat.le_succ _

/-- No more instructions than ticks are counted, the one of the next tick apart. -/
theorem Through.instructions_le (h : Through limits start before r)
    (hstart : start.instructions ≤ start.machine.tick) : r.instructions ≤ r.machine.tick := by
  induction h with
  | start => exact hstart
  | @tick before r _ _ ih =>
    obtain ⟨trace, hpassed⟩ := r.passed_eq limits
    have hcount : (r.passed limits).instructions = r.prepare.instructions := by
      rw [hpassed]
      rfl
    rw [hcount, passed_tick]
    exact Nat.le_trans r.prepare_instructions_le (Nat.succ_le_succ ih)

/-- Both counts are within the limit wherever the run begins a tick, with that tick and its
instruction counted. -/
theorem counts_of_mem_begun (image : Image) (arrivals : List Arrival)
    (h : r ∈ (Run.start image arrivals).begun limits) :
    r.machine.tick + 1 ≤ limits.ticks ∧ r.prepare.instructions ≤ limits.ticks := by
  obtain ⟨⟨before, hthrough⟩, htick⟩ := Through.of_mem_begunFrom _ .start h
  have hzero : (Run.start image arrivals).machine.tick = 0 := rfl
  have hcount := hthrough.instructions_le (Nat.le_refl _)
  have hprepare := r.prepare_instructions_le
  rw [hzero] at htick
  constructor <;> omega

theorem counts_of_complete (image : Image) (arrivals : List Arrival) (limits : Limits) :
    ((Run.start image arrivals).complete limits).1.machine.tick ≤ limits.ticks ∧
      ((Run.start image arrivals).complete limits).1.instructions ≤ limits.ticks := by
  have hstart : (Run.start image arrivals).machine.tick ≤ limits.ticks := Nat.zero_le _
  obtain ⟨last, hthrough, ⟨htick, hcomplete⟩ | ⟨htick, ending, -, hcomplete⟩⟩ :=
    complete_cases hstart
  · rw [hcomplete]
    have hcount := hthrough.instructions_le (Nat.le_refl _)
    exact ⟨Nat.le_of_eq htick, htick ▸ hcount⟩
  · rw [hcomplete]
    have hcount := hthrough.instructions_le (Nat.le_refl _)
    have hprepare := last.prepare_instructions_le
    have hsame : last.stepped.instructions = last.prepare.instructions := rfl
    rw [stepped_tick, hsame]
    constructor <;> omega

/-- No counter passes its bound: not the program counter, whatever a driver does with a machine that
has two addresses more than cells, and neither count of a run, whatever its limit is. -/
theorem counters_within (image : Image) :
    (image.memory.size ≤ 2 ^ 32 - 2 → ∀ actions : List Action,
      let m := (Machine.ofImage image).after actions
      (m.Counts → m.programCounter.toNat + 1 ≤ 2 ^ 32 - 1) ∧ m.checkedStep = some m.step) ∧
    ∀ (arrivals : List Arrival) (limits : Limits),
      (∀ r ∈ (Run.start image arrivals).begun limits,
        r.machine.tick + 1 ≤ limits.ticks ∧ r.prepare.instructions ≤ limits.ticks) ∧
      ((Run.start image arrivals).complete limits).1.machine.tick ≤ limits.ticks ∧
      ((Run.start image arrivals).complete limits).1.instructions ≤ limits.ticks := by
  refine ⟨fun hsize actions => ?_, fun arrivals limits => ?_⟩
  · have hbound := Machine.programCounter_lt_of_counts (m := .ofImage image) rfl hsize actions
    exact ⟨fun hcounts => Nat.le_sub_one_of_lt (hbound hcounts), Machine.checkedStep_eq hbound⟩
  · exact ⟨fun _ => counts_of_mem_begun image arrivals, counts_of_complete image arrivals limits⟩

/-- A jump to a `NOP` in the last cell, which counts the program counter to behind memory. -/
theorem counters_within_noOperation :
    let image : Image := ⟨none, #[⟨0, .jump, some 1⟩, ⟨1, .noOperation, none⟩]⟩
    let m := (Machine.ofImage image).after [.step, .step, .step]
    image.memory.size ≤ 2 ^ 32 - 2 ∧ m.Counts ∧ m.programCounter.toNat = 2 ∧
      m.checkedStep = some m.step := by
  intro image m
  have hsize : image.memory.size ≤ 2 ^ 32 - 2 := by decide
  have hm := (counters_within image).1 hsize [.step, .step, .step]
  exact ⟨hsize, .noOperation rfl rfl, rfl, hm.2⟩

end Accumulator.Run
