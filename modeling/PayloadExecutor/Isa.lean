import Mathlib
import PayloadExecutor.Codec
/-!
# Isa — the payload program, one instruction at a time

The specification reads a payload as a program over two architectural registers: the address of the word being
executed and the 12-bit loop counter.  Each word takes a fixed number of cycles: a command `max(timeslice, 1)`, a LOOP
that jumps back 3 (the jump and the two cycles that refill the fetch pipeline), a LOOP that falls through 1, and STOP
ends the program after its one cycle.  `run` is that interpreter, written from the specification's words and not from
the gateware; `Refinement.lean` proves that the cycle-level executor implements it.

Addresses are `BitVec w`, as the payload memory has `2^w` words and the fetcher's address wraps.  `run` gives up when
the program reaches the last address `2^w - 1`, where the gateware's end-of-memory test takes over, and when its fuel
runs out.
-/
namespace PayloadExecutor
namespace Isa

/-- The architectural state: the address of the word the program executes and the loop counter. -/
structure Arch (w : Nat) where
  addr : BitVec w
  loopCounter : Nat
  deriving DecidableEq, Repr

/-- What one word does: end the program, or go on at `next` after `cycles` cycles, having sent `command` (the word
itself) when it is a command. -/
inductive Outcome (w : Nat) where
  | halt
  | next (next : Arch w) (cycles : Nat) (command : Option Nat)
  deriving DecidableEq, Repr

variable {w : Nat} (L : Layout) (mem : Nat → Nat)

/-- **One instruction.**  STOP halts; a LOOP whose count the loop counter has not reached jumps back `loop_jump` words
and counts the pass, in 3 cycles; a LOOP that has reached it clears the counter and falls through in one cycle; every
other word is sent as a command and takes `max(timeslice, 1)` cycles. -/
def step (σ : Arch w) : Outcome w :=
  let word := mem σ.addr.toNat
  let d := decode L word
  if d.stop then .halt
  else if d.opCode = OpCode.loop.value then
    if σ.loopCounter ≠ d.loopCount then
      .next ⟨σ.addr - BitVec.ofNat w d.loopJump, (σ.loopCounter + 1) % 2 ^ Decoder.LOOP_COUNT⟩ 3 none
    else .next ⟨σ.addr + 1, 0⟩ 1 none
  else .next ⟨σ.addr + 1, σ.loopCounter⟩ d.duration (some word)

/-- **The interpreter.**  Runs from `σ` to a STOP: the commands sent, each with its time (cycles since `σ`), and the
time of the STOP.  `none` when the fuel runs out first or the program reaches the last address. -/
def run : Nat → Arch w → Option (List (Nat × Nat) × Nat)
  | 0, _ => none
  | fuel + 1, σ =>
    if σ.addr.toNat = 2 ^ w - 1 then none
    else
      match step L mem σ with
      | .halt => some ([], 0)
      | .next σ' d command =>
        (run fuel σ').map fun r => (command.toList.map (0, ·) ++ r.1.map (Prod.map (· + d) id), r.2 + d)

/-- The DFI phase the specification sends a command on: `rdphase` for a READ, phase 0 otherwise. -/
def readPhase (rdphase word : Nat) : Nat := if (decode L word).opCode = OpCode.read.value then rdphase else 0

/-- **What a finished run did first.**  The first word was not at the last address, and either it was a STOP or the
run went on from the word's successor. -/
theorem run_succ_eq_some {fuel : Nat} {σ : Arch w} {r : List (Nat × Nat) × Nat} (h : run L mem (fuel + 1) σ = some r) :
    σ.addr.toNat ≠ 2 ^ w - 1 ∧
      (step L mem σ = .halt ∧ r = ([], 0) ∨
        ∃ σ' d command r', step L mem σ = .next σ' d command ∧ run L mem fuel σ' = some r' ∧
          r = (command.toList.map (0, ·) ++ r'.1.map (Prod.map (· + d) id), r'.2 + d)) := by
  simp only [run] at h
  split at h
  · cases h
  · refine ⟨‹_›, ?_⟩
    split at h
    · next hs => exact .inl ⟨hs, (Option.some.inj h).symm⟩
    · next σ' d command hs =>
      obtain ⟨r', hr', rfl⟩ := Option.map_eq_some'.1 h
      exact .inr ⟨σ', d, command, r', hs, hr', rfl⟩

end Isa
end PayloadExecutor
