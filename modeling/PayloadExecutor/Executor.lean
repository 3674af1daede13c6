import Mathlib
import PayloadExecutor.Codec
/-!
# Executor — `PayloadExecutor`, one clock cycle

The registers of `PayloadExecutor` and its `Fetcher`, the registered read data of the synchronous payload port, and the
instruction register, advanced by one clock edge (`step`).  Every right-hand side reads the registers before the edge,
as migen's `sync` does; the FSM's `NextState`/`NextValue`s are `fsmNext`.  `program_counter` and
`program_counter_old` are `Signal.like(mem_addr)`: `w` bits, so `BitVec w`, where `w` is the width migen gives
`Signal(max=depth)` (for a payload of depth `2^w`, `w ≥ 1`).  The payload memory is `mem : Nat → Nat`, read at the
address the port was given one cycle before.  `runFrom` runs the executor over a fixed payload; `trace` runs it from
reset with the payload the host has written by each cycle, so that one trace can hold many runs of different payloads.

The executor samples two signals from outside: the host's `start` strobe and the `DFISwitch`'s `dfi_ready`.  The
switch itself is modelled in `Handover`; here `dfi_ready` is any input, so every result about the executor alone holds
whatever the switch does.
-/
namespace PayloadExecutor

def PIPELINE_DELAY : Nat := 2

/-- The states of `PayloadExecutor.fsm` (`"READY"`, `"WAIT-DFI"`, `"RUN"`, `"IDLE"`, `"BUBBLE"`). -/
inductive Fsm where
  | ready | waitDfi | run | idle | bubble
  deriving DecidableEq, Repr

/-- The executor's registers.  `wantsDfi` is `dfi_switch.wants_dfi`, written by the executor's `NextValue`s;
`datR` is `payload_port.dat_r`. -/
structure State (w : Nat) where
  fsm : Fsm
  wantsDfi : Bool
  loopCounter : Nat
  idleCounter : Nat
  programCounter : BitVec w
  programCounterOld : BitVec w
  datR : Nat
  instruction : Nat
  execStart : Nat
  execStop : Nat
  cycleCounter : Nat
  deriving DecidableEq, Repr

/-- Every register at its reset value. -/
def State.init (w : Nat) : State w :=
  ⟨.ready, false, 0, 0, 0, 0, 0, 0, 0, 0, 0⟩

/-- The executor's inputs in one cycle: the `start` strobe and the switch's `dfi_ready`. -/
structure Input where
  start : Bool
  dfiReady : Bool
  deriving DecidableEq, Repr

/-- What RUN does with the decoded word, in the order of its `If`/`Elif`/`Else`: terminate at the end of memory or on
STOP unless a LOOP still has to jump back; continue a LOOP; finish a LOOP; or send a DFI command. -/
inductive RunAction where
  | terminate | loopJump | loopExit | command
  deriving DecidableEq, Repr

/-- RUN's branch for decoded word `d`, fetch address `memAddr` and `loop_counter`. -/
def runAction {w : Nat} (d : Decoded) (memAddr : BitVec w) (loopCounter : Nat) : RunAction :=
  if (memAddr.toNat = PIPELINE_DELAY - 1 || d.stop) &&
      (d.opCode ≠ OpCode.loop.value || d.loopCount = loopCounter) then .terminate
  else if d.opCode = OpCode.loop.value then
    if loopCounter ≠ d.loopCount then .loopJump else .loopExit
  else .command

section

variable {w : Nat} (d : Decoded) (m : BitVec w) (lc : Nat)

theorem runAction_of_terminate (hend : m.toNat = PIPELINE_DELAY - 1 ∨ d.stop = true)
    (hl : d.opCode ≠ OpCode.loop.value ∨ d.loopCount = lc) : runAction d m lc = .terminate := by
  simp [runAction, hend, hl]

theorem runAction_of_loopJump (hl : d.opCode = OpCode.loop.value) (hc : lc ≠ d.loopCount) :
    runAction d m lc = .loopJump := by
  simp [runAction, hl, hc, Ne.symm hc]

theorem runAction_of_loopExit (hend : m.toNat ≠ PIPELINE_DELAY - 1) (hs : d.stop = false)
    (hl : d.opCode = OpCode.loop.value) : runAction d m d.loopCount = .loopExit := by
  simp [runAction, hend, hs, hl]

theorem runAction_of_command (hend : m.toNat ≠ PIPELINE_DELAY - 1) (hs : d.stop = false)
    (hl : d.opCode ≠ OpCode.loop.value) : runAction d m lc = .command := by
  simp [runAction, hend, hs, hl]

end

/-- migen's `bits_for(n)`: the width of an unsigned signal that holds `0 … n`. -/
def bitsFor (n : Nat) : Nat := if n = 0 then 1 else Encoder.bitLength n

theorem lt_two_pow_bitsFor (n : Nat) : n < 2 ^ bitsFor n := by
  unfold bitsFor Encoder.bitLength
  split
  · omega
  · simpa [*] using Nat.lt_log2_self

theorem one_le_bitsFor (n : Nat) : 1 ≤ bitsFor n := by
  unfold bitsFor Encoder.bitLength; split <;> simp_all

/-- The width of `dfi_executor.phase`, a `Signal(max=max(nphases - 1, 2))`. -/
def phaseWidth (nphases : Nat) : Nat := bitsFor (max (nphases - 1) 2 - 1)

namespace State

variable {w : Nat} (L : Layout) (s : State w)

/-- `stall`: asserted in READY, WAIT-DFI and IDLE. -/
def stall : Bool :=
  match s.fsm with
  | .ready | .waitDfi | .idle => true
  | .run | .bubble => false

/-- `executing`: asserted in RUN, IDLE and BUBBLE. -/
def executing : Bool :=
  match s.fsm with
  | .run | .idle | .bubble => true
  | .ready | .waitDfi => false

/-- `Fetcher`'s `mem_addr`: `program_counter_old` while stalled, so the outstanding fetch is kept. -/
def memAddr : BitVec w := if s.stall then s.programCounterOld else s.programCounter

/-- RUN's branch this cycle. -/
def action : RunAction := runAction (decode L s.instruction) s.memAddr s.loopCounter

/-- `jump`: RUN continuing a LOOP. -/
def jump : Bool := s.fsm = .run && s.action L = .loopJump

/-- `dfi_executor.exec`: RUN sending a DFI command. -/
def exec : Bool := s.fsm = .run && s.action L = .command

/-- `Fetcher`'s `next_addr`: one word on, or back by `jump_offset + PIPELINE_DELAY` on a jump. -/
def nextAddr : BitVec w :=
  if s.jump L then
    s.programCounter - BitVec.ofNat w (decode L s.instruction).loopJump - BitVec.ofNat w PIPELINE_DELAY
  else s.programCounter + 1

/-- `self.fsm.act(...)`: the state, `wants_dfi`, `loop_counter` and `idle_counter` after the edge. -/
def fsmNext (i : Input) : State w :=
  match s.fsm with
  | .ready => if i.start then { s with fsm := .waitDfi, wantsDfi := true } else s
  | .waitDfi => if i.dfiReady then { s with fsm := .bubble, idleCounter := PIPELINE_DELAY - 1 } else s
  | .run =>
    match s.action L with
    | .terminate => { s with fsm := .ready, wantsDfi := false }
    | .loopJump =>
      { s with fsm := .bubble, loopCounter := (s.loopCounter + 1) % 2 ^ Decoder.LOOP_COUNT,
               idleCounter := PIPELINE_DELAY - 1 }
    | .loopExit => { s with loopCounter := 0 }
    | .command =>
      let timeslice := (decode L s.instruction).timeslice
      if timeslice = 0 || timeslice = 1 then s else { s with fsm := .idle, idleCounter := timeslice - 2 }
  | .idle | .bubble =>
    if s.idleCounter = 0 then { s with fsm := .run } else { s with idleCounter := s.idleCounter - 1 }

/-- `dfi_executor.phase`: `rdphase` while RUN sends a READ (`cas & ~ras & ~we`), 0 otherwise, at the signal's width. -/
def phase (nphases rdphase : Nat) : Nat :=
  let d := decode L s.instruction
  (if s.exec L && (d.cas && !d.ras && !d.we) then rdphase else 0) % 2 ^ phaseWidth nphases

/-- What RUN hands the `DFIExecutor` this cycle: the word to send and its phase, while `exec` is high. -/
def issue (nphases rdphase : Nat) : Option (Nat × Nat) :=
  if s.exec L then some (s.instruction, s.phase L nphases rdphase) else none

end State

section

variable {w : Nat} (L : Layout) (mem : Nat → Nat)

/-- **One clock edge.**  The FSM's registers from `fsmNext`; the `Fetcher` advances unless stalled and is reset to 0
in READY; the port reads `mem_addr`; the instruction register loads the port's data unless stalled; and the status
counters: `exec_start` latches the cycle at the first executing cycle after a `start`, `exec_stop` the cycle after
each executing one, both cleared by `start`. -/
def step (i : Input) (s : State w) : State w :=
  { s.fsmNext L i with
    programCounter := if !s.stall then s.nextAddr L else if s.fsm = .ready then 0 else s.programCounter
    programCounterOld := if !s.stall then s.programCounter else if s.fsm = .ready then 0 else s.programCounterOld
    datR := mem s.memAddr.toNat
    instruction := if !s.stall then s.datR else s.instruction
    execStart := if s.executing && s.execStart = 0 then s.cycleCounter else if i.start then 0 else s.execStart
    execStop := if s.executing then (s.cycleCounter + 1) % 2 ^ 64 else if i.start then 0 else s.execStop
    cycleCounter := (s.cycleCounter + 1) % 2 ^ 64 }

/-- The executor's state `c` cycles after state `s`, the payload holding `mem` and the inputs being `inp`. -/
def runFrom (inp : Nat → Input) (s : State w) : Nat → State w
  | 0 => s
  | c + 1 => step L mem (inp c) (runFrom inp s c)

@[simp] theorem runFrom_zero (inp : Nat → Input) (s : State w) : runFrom L mem inp s 0 = s := rfl

theorem runFrom_succ (inp : Nat → Input) (s : State w) (c : Nat) :
    runFrom L mem inp s (c + 1) = step L mem (inp c) (runFrom L mem inp s c) := rfl

@[simp] theorem runFrom_one (inp : Nat → Input) (s : State w) : runFrom L mem inp s 1 = step L mem (inp 0) s := rfl

/-- Running `n + m` cycles is running `n`, then `m` more from where that left off. -/
theorem runFrom_add (inp : Nat → Input) (s : State w) (n : Nat) :
    ∀ m, runFrom L mem inp s (n + m) = runFrom L mem (fun k => inp (n + k)) (runFrom L mem inp s n) m
  | 0 => rfl
  | m + 1 => by rw [← Nat.add_assoc, runFrom_succ, runFrom_add inp s n m, runFrom_succ]

end

section

variable (w : Nat) (L : Layout)

/-- **The executor from reset.**  The payload holds `mem c` in cycle `c`: the host may rewrite it between runs. -/
def trace (mem : Nat → Nat → Nat) (inp : Nat → Input) : Nat → State w
  | 0 => State.init w
  | c + 1 => step L (mem c) (inp c) (trace mem inp c)

@[simp] theorem trace_zero (mem : Nat → Nat → Nat) (inp : Nat → Input) : trace w L mem inp 0 = State.init w := rfl

theorem trace_succ (mem : Nat → Nat → Nat) (inp : Nat → Input) (c : Nat) :
    trace w L mem inp (c + 1) = step L (mem c) (inp c) (trace w L mem inp c) := rfl

/-- While the payload holds `m`, the trace is the run from its state at `c`. -/
theorem trace_add_of_mem {mem : Nat → Nat → Nat} {m : Nat → Nat} (inp : Nat → Input) {c n : Nat}
    (hmem : ∀ k < n, mem (c + k) = m) :
    ∀ k ≤ n, trace w L mem inp (c + k) = runFrom L m (fun j => inp (c + j)) (trace w L mem inp c) k
  | 0, _ => rfl
  | k + 1, hk => by
    rw [← Nat.add_assoc, trace_succ, hmem k (by omega), trace_add_of_mem inp hmem k (by omega), runFrom_succ]

/-- Over a payload the host never rewrites, the trace from cycle `c` on is the run from its state at `c`. -/
theorem trace_add (mem : Nat → Nat) (inp : Nat → Input) (c k : Nat) :
    trace w L (fun _ => mem) inp (c + k) = runFrom L mem (fun j => inp (c + j)) (trace w L (fun _ => mem) inp c) k :=
  trace_add_of_mem w L inp (fun _ _ => rfl) k le_rfl

/-- **The host rewrites the payload only while the executor is in READY**: in every other cycle the payload is the one
of the cycle before. -/
def PayloadHeld (mem : Nat → Nat → Nat) (inp : Nat → Input) : Prop :=
  ∀ t, (trace w L mem inp (t + 1)).fsm ≠ .ready → mem (t + 1) = mem t

/-- While the run from cycle `c` stays out of READY, a held payload stays the one of cycle `c`. -/
theorem held_of_busy {mem : Nat → Nat → Nat} {inp : Nat → Input} (hheld : PayloadHeld w L mem inp) (c : Nat) :
    ∀ n, (∀ k ≤ n, (runFrom L (mem c) (fun j => inp (c + j)) (trace w L mem inp c) k).fsm ≠ .ready) →
      ∀ k ≤ n, mem (c + k) = mem c
  | 0, _, k, hk => by rw [Nat.le_zero.1 hk]; rfl
  | n + 1, hb, k, hk => by
    have ih := held_of_busy hheld c n fun k hk => hb k (by omega)
    rcases Nat.lt_or_eq_of_le hk with h | rfl
    · exact ih k (by omega)
    · -- the trace is the run up to `c + n + 1`, which is out of READY, so the payload did not change there
      have htr := trace_add_of_mem w L inp (fun k hk => ih k (Nat.le_of_lt_succ hk)) (n + 1) le_rfl
      rw [← Nat.add_assoc, hheld (c + n) (by rw [Nat.add_assoc, htr]; exact hb _ le_rfl)]
      exact ih n le_rfl

end

end PayloadExecutor
