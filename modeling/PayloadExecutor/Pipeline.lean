import Mathlib
import PayloadExecutor.Executor
/-!
# Pipeline — the two-cycle fetch, as an invariant of every reachable state

`mem_addr` is asserted in one cycle, the port's `dat_r` holds the word in the next, and the instruction register
takes it in the one after.  In RUN and IDLE the pipeline is full: the decoded word is the one two addresses behind
the program counter, the port holds the one behind it, and `program_counter_old` is one behind (`PipelineInv`).
BUBBLE refills it after WAIT-DFI and after a LOOP jump, two cycles that the FSM counts in `idle_counter`.  The
invariant holds at reset and every edge keeps it (`pipelineInv_step`), so it holds at every cycle of every run
(`pipelineInv_trace`), whatever the inputs, also when the host loads a new payload in READY (`PayloadHeld`); in RUN the decoded word is the one `PIPELINE_DELAY` behind the fetch
address (`fetch_pipeline_invariant`).  Program-counter arithmetic is `BitVec w`'s, i.e. modulo `2^w`.
-/
namespace PayloadExecutor

namespace State

variable {w : Nat} (L : Layout) (mem : Nat → Nat) (i : Input) (s : State w)

/-! ## The edge, register by register -/

@[simp] theorem step_fsm : (step L mem i s).fsm = (s.fsmNext L i).fsm := rfl
@[simp] theorem step_wantsDfi : (step L mem i s).wantsDfi = (s.fsmNext L i).wantsDfi := rfl
@[simp] theorem step_loopCounter : (step L mem i s).loopCounter = (s.fsmNext L i).loopCounter := rfl
@[simp] theorem step_idleCounter : (step L mem i s).idleCounter = (s.fsmNext L i).idleCounter := rfl
@[simp] theorem step_programCounter : (step L mem i s).programCounter =
    if !s.stall then s.nextAddr L else if s.fsm = .ready then 0 else s.programCounter := rfl
@[simp] theorem step_programCounterOld : (step L mem i s).programCounterOld =
    if !s.stall then s.programCounter else if s.fsm = .ready then 0 else s.programCounterOld := rfl
@[simp] theorem step_datR : (step L mem i s).datR = mem s.memAddr.toNat := rfl
@[simp] theorem step_instruction : (step L mem i s).instruction = if !s.stall then s.datR else s.instruction := rfl

theorem stall_eq : s.stall = (s.fsm = .ready || s.fsm = .waitDfi || s.fsm = .idle) := by
  unfold stall; cases s.fsm <;> rfl

/-- Outside RUN nothing jumps: the next address is one word on. -/
theorem nextAddr_of_ne_run (h : s.fsm ≠ .run) : s.nextAddr L = s.programCounter + 1 := by
  simp [nextAddr, jump, h]

/-- RUN's fetch address is the program counter. -/
theorem memAddr_of_run (h : s.fsm = .run) : s.memAddr = s.programCounter := by
  simp [memAddr, stall, h]

/-- Outside a LOOP jump the next address is one word on. -/
theorem nextAddr_of_not_loopJump (h : s.action L ≠ .loopJump) : s.nextAddr L = s.programCounter + 1 := by
  simp [nextAddr, jump, h]

/-! ## What an edge does in each state -/

theorem fsmNext_ready (h : s.fsm = .ready) :
    s.fsmNext L i = if i.start then { s with fsm := .waitDfi, wantsDfi := true } else s := by
  simp only [fsmNext, h]

theorem fsmNext_waitDfi (h : s.fsm = .waitDfi) :
    s.fsmNext L i = if i.dfiReady then { s with fsm := .bubble, idleCounter := PIPELINE_DELAY - 1 } else s := by
  simp only [fsmNext, h]

/-- WAIT-DFI leaves for BUBBLE with `idle_counter = 1`, the program and loop counters untouched. -/
theorem step_waitDfi (h : s.fsm = .waitDfi) (hb : (step L mem i s).fsm = .bubble) :
    (step L mem i s).idleCounter = 1 ∧ (step L mem i s).programCounter = s.programCounter ∧
      (step L mem i s).loopCounter = s.loopCounter := by
  rw [step_fsm, fsmNext_waitDfi L i s h] at hb
  have hd : i.dfiReady = true := by by_contra hd; simp [hd, h] at hb
  simp [fsmNext_waitDfi L i s h, hd, stall_eq, h, PIPELINE_DELAY]

theorem fsmNext_idle_or_bubble (h : s.fsm = .idle ∨ s.fsm = .bubble) :
    s.fsmNext L i = if s.idleCounter = 0 then { s with fsm := .run } else { s with idleCounter := s.idleCounter - 1 } := by
  rcases h with h | h <;> simp only [fsmNext, h]

/-- IDLE and BUBBLE count `idle_counter` down to 0 and then go to RUN; `loop_counter` is left alone. -/
theorem step_idle_or_bubble (h : s.fsm = .idle ∨ s.fsm = .bubble) :
    (step L mem i s).fsm = (if s.idleCounter = 0 then .run else s.fsm) ∧
      (step L mem i s).idleCounter = s.idleCounter - 1 ∧ (step L mem i s).loopCounter = s.loopCounter := by
  simp only [step_fsm, step_idleCounter, step_loopCounter, fsmNext_idle_or_bubble L i s h]
  split <;> simp_all

/-- An edge that neither stalls nor jumps fetches at the program counter and moves it one word on. -/
theorem step_advance (hst : s.stall = false) (hnj : s.nextAddr L = s.programCounter + 1) :
    (step L mem i s).programCounter = s.programCounter + 1 ∧ (step L mem i s).programCounterOld = s.programCounter ∧
      (step L mem i s).datR = mem s.programCounter.toNat ∧ (step L mem i s).instruction = s.datR := by
  simp [hst, hnj, memAddr]

theorem fsmNext_run (h : s.fsm = .run) : s.fsmNext L i =
    match s.action L with
    | .terminate => { s with fsm := .ready, wantsDfi := false }
    | .loopJump => { s with fsm := .bubble, loopCounter := (s.loopCounter + 1) % 2 ^ Decoder.LOOP_COUNT,
                            idleCounter := PIPELINE_DELAY - 1 }
    | .loopExit => { s with loopCounter := 0 }
    | .command =>
      if (decode L s.instruction).timeslice = 0 || (decode L s.instruction).timeslice = 1 then s
      else { s with fsm := .idle, idleCounter := (decode L s.instruction).timeslice - 2 } := by
  cases s; subst h; rfl

/-- Where RUN goes: to BUBBLE on a LOOP jump, with `idle_counter = 1`; otherwise to RUN, IDLE or READY. -/
theorem fsmNext_run_fsm (h : s.fsm = .run) :
    (s.action L = .loopJump ∧ (s.fsmNext L i).fsm = .bubble ∧ (s.fsmNext L i).idleCounter = 1) ∨
      (s.action L ≠ .loopJump ∧
        ((s.fsmNext L i).fsm = .run ∨ (s.fsmNext L i).fsm = .idle ∨ (s.fsmNext L i).fsm = .ready)) := by
  rw [fsmNext_run L i s h]
  cases s.action L <;> simp only [h, true_or, or_true, PIPELINE_DELAY, and_self, ne_eq, not_false_eq_true,
    reduceCtorEq, and_true, true_and, false_and, or_false]
  split <;> simp [h]

end State

/-! ## The invariant -/

section

variable {w : Nat} (L : Layout) (mem : Nat → Nat)

/-- **A full pipeline.**  The port holds the word one behind the program counter, the instruction register the one
two behind, and `program_counter_old` is one behind. -/
structure Full (s : State w) : Prop where
  old : s.programCounterOld = s.programCounter - 1
  datR : s.datR = mem (s.programCounter - 1).toNat
  instruction : s.instruction = mem (s.programCounter - 2).toNat

/-- **The fetch pipeline's invariant, per state.**  The last BUBBLE cycle has the port one word behind the program
counter; RUN and IDLE have the full pipeline. -/
def PipelineInv (s : State w) : Prop :=
  match s.fsm with
  | .ready | .waitDfi => True
  | .bubble => s.idleCounter = 0 → s.datR = mem (s.programCounter - 1).toNat
  | .run | .idle => Full mem s

theorem pipelineInv_init : PipelineInv mem (State.init w) := trivial

theorem pipelineInv_of_full {t : State w} (h : t.fsm = .run ∨ t.fsm = .idle) (hfull : Full mem t) :
    PipelineInv mem t := by
  rcases h with h | h <;> simpa only [PipelineInv, h] using hfull

theorem full_of_pipelineInv {t : State w} (h : t.fsm = .run ∨ t.fsm = .idle) (hinv : PipelineInv mem t) :
    Full mem t := by
  rcases h with h | h <;> simpa only [PipelineInv, h] using hinv

/-- An edge that does not stall moves the pipeline one word on: afterwards it is full if the port was one word behind
the program counter before. -/
theorem full_of_advance {s : State w} (i : Input) (hst : s.stall = false) (hnj : s.nextAddr L = s.programCounter + 1)
    (hdat : s.datR = mem (s.programCounter - 1).toNat) : Full mem (step L mem i s) := by
  constructor <;> simp only [State.step_programCounterOld, State.step_programCounter, State.step_datR,
    State.step_instruction, hst, Bool.not_false, if_true, hnj, State.memAddr, Bool.false_eq_true, if_false]
  · ring
  · ring_nf
  · rw [hdat]; ring_nf

/-- A stalled edge outside READY keeps a full pipeline full. -/
theorem full_of_stall {s : State w} (i : Input) (hst : s.stall = true) (hr : s.fsm ≠ .ready) (hfull : Full mem s) :
    Full mem (step L mem i s) := by
  obtain ⟨hold, hdat, hins⟩ := hfull
  constructor <;> simp [hst, hr, State.memAddr, hold, hdat, hins]

/-- **Every edge keeps the pipeline invariant.** -/
theorem pipelineInv_step (i : Input) {s : State w} (h : PipelineInv mem s) : PipelineInv mem (step L mem i s) := by
  unfold PipelineInv at h
  cases hf : s.fsm <;> simp only [hf] at h
  case ready => cases hs : i.start <;> simp [PipelineInv, State.fsmNext_ready L i s hf, hs, hf]
  case waitDfi => cases hd : i.dfiReady <;> simp [PipelineInv, State.fsmNext_waitDfi L i s hf, hd, hf, PIPELINE_DELAY]
  case run =>
    have hst : s.stall = false := by simp [State.stall_eq, hf]
    obtain ⟨-, hb, hidle⟩ | ⟨hnj, hn | hn | hn⟩ := State.fsmNext_run_fsm L i s hf
    · simp [PipelineInv, hb, hidle]
    · exact pipelineInv_of_full mem (.inl hn) (full_of_advance L mem i hst (State.nextAddr_of_not_loopJump L s hnj) h.datR)
    · exact pipelineInv_of_full mem (.inr hn) (full_of_advance L mem i hst (State.nextAddr_of_not_loopJump L s hnj) h.datR)
    · simp [PipelineInv, hn]
  case idle =>
    have hst : s.stall = true := by simp [State.stall_eq, hf]
    refine pipelineInv_of_full mem ?_ (full_of_stall L mem i hst (by simp [hf]) h)
    rw [State.step_fsm, State.fsmNext_idle_or_bubble L i s (.inl hf)]
    split <;> simp [hf]
  case bubble =>
    have hst : s.stall = false := by simp [State.stall_eq, hf]
    have hnj := State.nextAddr_of_ne_run L s (by simp [hf])
    by_cases h0 : s.idleCounter = 0
    · have hn : (step L mem i s).fsm = .run := by simp [State.fsmNext_idle_or_bubble L i s (.inr hf), h0]
      exact pipelineInv_of_full mem (.inl hn) (full_of_advance L mem i hst hnj (h h0))
    · have hn : (step L mem i s).fsm = .bubble := by simp [State.fsmNext_idle_or_bubble L i s (.inr hf), h0, hf]
      rw [PipelineInv, hn]
      simp [hst, hnj, State.memAddr]

/-- **The pipeline invariant holds at every cycle of a run** from a state that has it, whatever the inputs. -/
theorem pipelineInv_runFrom (inp : Nat → Input) {s : State w} (h : PipelineInv mem s) :
    ∀ c, PipelineInv mem (runFrom L mem inp s c)
  | 0 => h
  | c + 1 => pipelineInv_step L mem (inp c) (pipelineInv_runFrom inp h c)

/-- **The pipeline invariant holds at every cycle from reset** over the payload of that cycle, whatever the inputs,
while the host rewrites the payload only in READY, where the invariant says nothing. -/
theorem pipelineInv_trace (mems : Nat → Nat → Nat) (inp : Nat → Input) (hheld : PayloadHeld w L mems inp) :
    ∀ c, PipelineInv (mems c) (trace w L mems inp c)
  | 0 => pipelineInv_init _
  | c + 1 => by
    have h := pipelineInv_step L (mems c) (inp c) (pipelineInv_trace mems inp hheld c)
    by_cases hr : (trace w L mems inp (c + 1)).fsm = .ready
    · simp only [PipelineInv, hr]
    · rwa [hheld c hr]

/-- **The decoded word is the fetched one, `PIPELINE_DELAY` behind.**  In every RUN or IDLE cycle of a run from reset
the pipeline is full over the payload of that cycle; in RUN the fetch address is the program counter, so the
instruction register holds the word `PIPELINE_DELAY` addresses behind `mem_addr`.  The host may load a new payload
in any READY cycle.  Whether RUN follows a start, an IDLE stall or a LOOP jump's two BUBBLE cycles is the step
lemma's business. -/
theorem fetch_pipeline_invariant (mems : Nat → Nat → Nat) (inp : Nat → Input) (hheld : PayloadHeld w L mems inp)
    (c : Nat) (h : (trace w L mems inp c).fsm = .run ∨ (trace w L mems inp c).fsm = .idle) :
    let s : State w := trace w L mems inp c
    s.instruction = mems c (s.programCounter - 2).toNat ∧ s.datR = mems c (s.programCounter - 1).toNat ∧
      s.programCounterOld = s.programCounter - 1 ∧
      (s.fsm = .run → s.instruction = mems c (s.memAddr - BitVec.ofNat w PIPELINE_DELAY).toNat) := by
  intro s
  have hfull : Full (mems c) s := full_of_pipelineInv (mems c) h (pipelineInv_trace L mems inp hheld c)
  refine ⟨hfull.instruction, hfull.datR, hfull.old, fun hr => ?_⟩
  rw [State.memAddr_of_run s hr]
  exact hfull.instruction

/-- The host replaces a payload of 7s by one with the ACT at address 0 in READY, in cycle 1, and starts the executor
then: in the first RUN cycle, 5, the ACT is in the instruction register, with the program counter at 2. -/
theorem fetch_pipeline_invariant_reloaded :
    let L : Layout := ⟨0, 4, 16, 10, by decide⟩
    let mems : Nat → Nat → Nat := fun t => if t = 0 then fun _ => 7 else fun a => if a = 0 then 12 else 0
    let inp : Nat → Input := fun t => ⟨t == 1, true⟩
    let s : State 2 := trace 2 L mems inp 5
    PayloadHeld 2 L mems inp ∧ (s.fsm = .run ∨ s.fsm = .idle) ∧ s.programCounter = 2 ∧ s.instruction = 12 ∧
      (s.instruction = mems 5 (s.programCounter - 2).toNat ∧ s.datR = mems 5 (s.programCounter - 1).toNat ∧
        s.programCounterOld = s.programCounter - 1 ∧
        (s.fsm = .run → s.instruction = mems 5 (s.memAddr - BitVec.ofNat 2 PIPELINE_DELAY).toNat)) := by
  intro L mems inp s
  have hheld : PayloadHeld 2 L mems inp
    | 0, h => absurd (by decide) h
    | _ + 1, _ => by simp [mems]
  have h : s.fsm = .run ∨ s.fsm = .idle := by decide
  exact ⟨hheld, h, by decide, by decide, fetch_pipeline_invariant L mems inp hheld 5 h⟩

/-- **WAIT-DFI starts from address 0.**  READY holds `reset_pc`, so the program counters are 0 when the executor
leaves it, and WAIT-DFI stalls them there; whatever the payload holds. -/
def FetcherReset (s : State w) : Prop := s.fsm = .waitDfi → s.programCounter = 0 ∧ s.programCounterOld = 0

/-- Only READY and WAIT-DFI lead to WAIT-DFI. -/
theorem State.ready_or_waitDfi_of_fsmNext (i : Input) {s : State w} (h : (s.fsmNext L i).fsm = .waitDfi) :
    s.fsm = .ready ∨ s.fsm = .waitDfi := by
  cases hf : s.fsm
  case run =>
    rcases State.fsmNext_run_fsm L i s hf with ⟨-, hn, -⟩ | ⟨-, hn | hn | hn⟩ <;> simp [hn] at h
  case idle | bubble =>
    rw [State.fsmNext_idle_or_bubble L i s (by simp [hf])] at h
    split at h <;> simp [hf] at h
  all_goals simp

theorem fetcherReset_step (i : Input) {s : State w} (h : FetcherReset s) : FetcherReset (step L mem i s) := by
  intro hw
  rcases State.ready_or_waitDfi_of_fsmNext L i hw with hf | hf
  · simp [State.stall_eq, hf]
  · simpa [State.stall_eq, hf] using h hf

theorem fetcherReset_trace (mem : Nat → Nat → Nat) (inp : Nat → Input) : ∀ c, FetcherReset (trace w L mem inp c)
  | 0 => fun h => Fsm.noConfusion h
  | c + 1 => fetcherReset_step L (mem c) (inp c) (fetcherReset_trace mem inp c)

end

end PayloadExecutor
