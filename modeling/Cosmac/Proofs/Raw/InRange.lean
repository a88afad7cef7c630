import Cosmac.Proofs.Raw.Console

/-!
Nothing that can be done to a machine or a console reaches for a cell that is not there. Main
statement: from construction on, every operation of every sequence hits, with the results it has on
nibbles, and the selectors and latches that it leaves are numbers of registers.
-/

set_option autoImplicit false
set_option relaxedAutoImplicit false

namespace Cosmac

open Bus (Flat Folded)

/-- The selectors and the latched digits are numbers of registers. -/
structure Raw.InRange {σ : Type} (m : Raw σ) : Prop where
  p : m.p.toNat < 16
  x : m.x.toNat < 16
  n : m.n.toNat < 16
  i : m.i.toNat < 16

private theorem Machine.inRange_raw {σ : Type} (m : Machine σ) : m.raw.InRange where
  p := m.p.toNat_wide_lt
  x := m.x.toNat_wide_lt
  n := m.n.toNat_wide_lt
  i := m.i.toNat_wide_lt

namespace Raw

variable {σ : Type}

private theorem cell?_eq_none_of_le (m : Raw σ) {k : Byte} (outside : 16 ≤ k.toNat) :
    m.cell? k = none :=
  m.r.at?_eq_none_of_le outside

private theorem step?_eq_none_of_le [Cells σ] (m : Raw σ) (outside : 16 ≤ m.p.toNat) :
    m.step? = none := by
  rw [step?, peek?, cell?_eq_none_of_le m outside]
  rfl

/-- From construction on, every sequence of commands to a machine over a memory that misses no
access and every sequence of requests to a console hits with each access that it makes, and so does
every question, disassembly and sweep; the results are those on nibbles, and the selectors and
latches stay numbers of registers. The accesses are looked up: with a selector beyond, a step
misses. -/
theorem accesses_in_range [Bus σ] [Cells σ] [LawfulCells σ] (memory : σ)
    (commands : List Command) (requests : List Console.Request) :
    (∃ start results, Raw.new? memory = some start ∧ start.session? commands = some results ∧
      results = ((Machine.new memory).session commands).map
        (fun outcome => (outcome.result, outcome.state.raw)) ∧
      ∀ m ∈ start :: results.map Prod.snd,
        m.InRange ∧ ∀ number flag, (m.ask? number flag).isSome) ∧
    (∃ start replies, console? = some start ∧ start.requests? requests = some replies ∧
      replies = (Console.new.session requests).map
        (fun response => (response.reply, response.console.machine.raw)) ∧
      ∀ m ∈ start :: replies.map Prod.snd,
        m.InRange ∧ (∀ number flag, (m.ask? number flag).isSome) ∧
          ∃ console : Console, m = console.machine.raw ∧ ∀ address limit,
            m.disassemble? address limit = some (console.disassemble address limit)) ∧
    (∀ (address : Word) (bytes : Array Byte),
      Disassembly.sweepAt? address bytes 0 = some (Disassembly.sweep address bytes.toList)) ∧
    ∀ m : Raw σ, 16 ≤ m.p.toNat → m.step? = none := by
  have answers {τ : Type} (m : Machine τ) (number : Byte) (flag : Flag) :
      (m.raw.ask? number flag).isSome := by
    rw [Machine.ask?_raw]
    rfl
  refine ⟨?commands, ?requests, fun address bytes => Disassembly.sweepAt?_eq_some address bytes 0,
    step?_eq_none_of_le⟩
  case commands =>
    refine ⟨_, _, Machine.new?_eq_raw memory, Machine.session?_raw _ commands, rfl, ?_⟩
    intro m member
    obtain ⟨left, rfl⟩ : ∃ left : Machine σ, m = left.raw := by
      rcases List.mem_cons.mp member with start | later
      · exact ⟨_, start⟩
      · rw [List.map_map] at later
        obtain ⟨outcome, -, left⟩ := List.mem_map.mp later
        exact ⟨outcome.state, left.symm⟩
    exact ⟨left.inRange_raw, answers left⟩
  case requests =>
    refine ⟨_, _, Console.console?_eq_raw, Console.requests?_raw _ requests, rfl, ?_⟩
    intro m member
    obtain ⟨console, rfl⟩ : ∃ console : Console, m = console.machine.raw := by
      rcases List.mem_cons.mp member with start | later
      · exact ⟨_, start⟩
      · rw [List.map_map] at later
        obtain ⟨response, -, left⟩ := List.mem_map.mp later
        exact ⟨response.console, left.symm⟩
    exact ⟨console.machine.inRange_raw, answers console.machine, console, rfl,
      console.disassemble?_raw⟩

/-- Selectors set from bytes with a large upper digit, then restored from a byte that the program
holds; and a selector that no operation leaves. -/
theorem accesses_in_range_of_restore :
    let memory := Folded.zero 16
    let commands : List Command := [.setP 0xF3, .setX 0xFF, .write 0 0x71, .step]
    (∃ start results last, Raw.new? memory = some start ∧ start.session? commands = some results ∧
      results.getLast? = some last ∧ last.2.InRange ∧ last.2.p = 1 ∧ last.2.x = 7) ∧
    ∃ m : Raw Folded, 16 ≤ m.p.toNat ∧ m.step? = none := by
  intro memory commands
  obtain ⟨⟨start, results, built, hits, same, stays⟩, -, -, misses⟩ :=
    accesses_in_range memory commands []
  have left : ((Machine.new memory).session commands).getLast?.map
      (fun outcome => (outcome.state.p, outcome.state.x)) = some (1, 7) := by
    decide +kernel
  obtain ⟨last, found, selectors⟩ := Option.map_eq_some_iff.mp left
  have final : results.getLast? = some (last.result, last.state.raw) := by
    rw [same, List.getLast?_map, found]
    rfl
  have outside : 16 ≤ ({ start with p := 0x10 } : Raw Folded).p.toNat := Nat.le_refl 16
  refine ⟨⟨start, results, _, built, hits, final, ?_, ?_, ?_⟩, _, outside, misses _ outside⟩
  · exact (stays _ (List.mem_cons_of_mem _
      (List.mem_map_of_mem (List.mem_of_getLast? final)))).1
  · exact congrArg Nibble.wide (congrArg Prod.fst selectors)
  · exact congrArg Nibble.wide (congrArg Prod.snd selectors)

end Raw

end Cosmac
