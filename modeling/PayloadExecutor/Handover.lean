import Mathlib
import PayloadExecutor.Status
/-!
# Handover — the executor, the DFI switch and the command bus

`DFISwitch` lends the DFI command bus to the executor.  From MEMORY-CONTROLLER it moves to PAYLOAD-EXECUTION once the
executor's `wants_dfi` is set (with `with_refresh`, only on a refresh seen on the master's phase 0 that
`refresh_matches`); there it asserts `dfi_ready` and `ext_dfi_sel`, and it moves back, pulsing `refresher_reset`, in a
cycle where `wants_dfi` is clear.  `DFIExecutor` registers the command RUN sends onto the phase it names, and the
deselect pattern onto every other phase.  `System` is the three together with the `RefreshCounter` and the status latch
of `DFISwitch.add_csrs`, one clock edge at a time, and `sysTrace` runs it from reset.

`Safe` holds in every reachable state (`safe_sysTrace`): `wants_dfi` is set exactly outside READY, and the switch is in
PAYLOAD-EXECUTION whenever the executor is in BUBBLE, RUN or IDLE, and whenever a phase of the registered bus carries
something other than the deselect pattern.  `bus_handover_safe` adds what a whole run does with the switch, and
`start_takes_bus` how long a `start` waits for it without `with_refresh`.  `bus_carries_issue` says what the bus
carries: the words the executor issues other than NOOP, one cycle later, each on its phase.  With `with_refresh`,
`refresh_aligned_handover` says where the handover lands: on a refresh, the one `at_refresh` names among those counted
since reset (`refreshCounter_sysTrace`), and `refresh_count` latches that count.
-/
namespace PayloadExecutor

/-- The states of `DFISwitch.fsm` (`"MEMORY-CONTROLLER"`, `"PAYLOAD-EXECUTION"`). -/
inductive SwitchFsm where
  | memoryController | payloadExecution
  deriving DecidableEq, Repr

/-- `refresh_matches`: `at_refresh`, a 64-bit register, is 0 or one past the refresh count; `counter + 1` is 65 bits
wide in migen, so it does not wrap. -/
def refreshMatches (atRefresh counter : Nat) : Bool := atRefresh % 2 ^ 64 = 0 || atRefresh % 2 ^ 64 = counter + 1

/-- `DFISwitch.fsm`'s next state, from `wants_dfi`, `refresh_counter.refresh` and `refresh_matches`. -/
def switchNext (withRefresh wantsDfi refresh refreshOk : Bool) : SwitchFsm → SwitchFsm
  | .memoryController =>
    if wantsDfi && (!withRefresh || (refresh && refreshOk)) then .payloadExecution else .memoryController
  | .payloadExecution => if !wantsDfi then .memoryController else .payloadExecution

section Switch

variable {withRefresh refresh refreshOk : Bool}

theorem switchNext_payload : switchNext withRefresh true refresh refreshOk .payloadExecution = .payloadExecution := rfl

theorem switchNext_of_not_wants (sw : SwitchFsm) :
    switchNext withRefresh false refresh refreshOk sw = .memoryController := by
  cases sw <;> rfl

/-- The switch is in PAYLOAD-EXECUTION only after a cycle with `wants_dfi` set. -/
theorem wants_of_switchNext {wantsDfi : Bool} {sw : SwitchFsm}
    (h : switchNext withRefresh wantsDfi refresh refreshOk sw = .payloadExecution) : wantsDfi = true := by
  cases wantsDfi
  · rw [switchNext_of_not_wants] at h; cases h
  · rfl

/-- With `with_refresh`, MEMORY-CONTROLLER hands over only in a cycle with a refresh that `refresh_matches`. -/
theorem refresh_of_switchNext {wantsDfi : Bool}
    (h : switchNext true wantsDfi refresh refreshOk .memoryController = .payloadExecution) :
    refresh = true ∧ refreshOk = true := by
  simp only [switchNext] at h
  split at h
  · rename_i hc
    simp only [Bool.not_true, Bool.false_or, Bool.and_eq_true] at hc
    exact hc.2
  · cases h

/-- **The handover cycle.**  A switch with the memory controller at `a` and in PAYLOAD-EXECUTION at `e` stays with the
memory controller from `a` to some `h` and moves at `h + 1`. -/
theorem exists_handover (sw : Nat → SwitchFsm) {a e : Nat} (ha : sw a = .memoryController)
    (he : sw e = .payloadExecution) (hae : a ≤ e) :
    ∃ h, a ≤ h ∧ h < e ∧ (∀ k, a ≤ k → k ≤ h → sw k = .memoryController) ∧ sw (h + 1) = .payloadExecution := by
  have hpe : ∃ p, sw (a + p) = .payloadExecution := ⟨e - a, by rwa [Nat.add_sub_cancel' hae]⟩
  have hp := Nat.find_spec hpe
  have hp0 : Nat.find hpe ≠ 0 := fun h0 => by rw [h0, Nat.add_zero, ha] at hp; cases hp
  have hle : Nat.find hpe ≤ e - a := Nat.find_min' hpe (by rwa [Nat.add_sub_cancel' hae])
  refine ⟨a + Nat.find hpe - 1, by omega, by omega, fun k h1 h2 => ?_,
    by rwa [show a + Nat.find hpe - 1 + 1 = a + Nat.find hpe by omega]⟩
  have hk := Nat.find_min hpe (show k - a < Nat.find hpe by omega)
  rw [Nat.add_sub_cancel' h1] at hk
  cases h : sw k
  · rfl
  · exact absurd h hk

end Switch

/-- One phase of the executor's registered DFI outputs; `cke`, `odt` and `reset_n` are constant 1s and left out. -/
structure DfiPhase where
  csN : Nat
  casN : Bool
  rasN : Bool
  weN : Bool
  address : Nat
  bank : Nat
  rddataEn : Bool
  deriving DecidableEq, Repr

/-- The deselect pattern: every `cs_n` bit high and no read. -/
def DfiPhase.deselected (nranks : Nat) (p : DfiPhase) : Bool := p.csN = 2 ^ nranks - 1 && !p.rddataEn

/-- Modelled from the spec: the idle pattern LiteDRAM's `dfi.Interface` (outside this repository) resets a phase to,
"`cs=1, cas=ras=we=1, no_read`". -/
def DfiPhase.idle (nranks : Nat) : DfiPhase := ⟨2 ^ nranks - 1, true, true, true, 0, 0, false⟩

/-- Modelled from the spec: `~rank_decoder.o`, migen's `OneHotDecoder` (outside this repository) setting bit `rank`:
"one-hot activation decoded from `dfi_rank`". -/
def rankSelect (nranks rank : Nat) : Nat := 2 ^ nranks - 1 - 2 ^ rank

/-- The parameters the gateware is built with: the decoder's layout, the number of ranks and of DFI phases, the READ
phase and `with_refresh`. -/
structure Config where
  layout : Layout
  nranks : Nat
  nphases : Nat
  rdphase : Nat
  withRefresh : Bool

section

variable {w : Nat} (c : Config)

/-- **`DFIExecutor`, one clock edge.**  Phase `i`, when RUN sends on it, gets the decoded command (NOOP deselects every
rank, REF selects them all); every other phase gets the deselect pattern, `address` and `bank` kept. -/
def dfiNext (s : State w) (out : Nat → DfiPhase) (i : Nat) : DfiPhase :=
  let d := decode c.layout s.instruction
  if s.phase c.layout c.nphases c.rdphase = i && s.exec c.layout then
    { csN := if d.opCode = OpCode.noop.value then 2 ^ c.nranks - 1
        else if d.opCode = OpCode.ref.value then 0 else rankSelect c.nranks d.dfiRank
      casN := !d.cas, rasN := !d.ras, weN := !d.we, address := d.dfiAddress, bank := d.dfiBank
      rddataEn := d.opCode = OpCode.read.value }
  else { out i with csN := 2 ^ c.nranks - 1, casN := true, rasN := true, weN := true, rddataEn := false }

theorem rankSelect_ne_deselect {nranks : Nat} (hn : 0 < nranks) (rank : Nat) : rankSelect nranks rank ≠ 2 ^ nranks - 1 := by
  have h2 := Nat.one_lt_two_pow (Nat.pos_iff_ne_zero.1 hn)
  have h1 := @Nat.one_le_two_pow rank
  unfold rankSelect; omega

/-- **A registered phase carries a command exactly when RUN sent one other than NOOP on it** in the cycle before. -/
theorem dfiNext_deselected_iff (hn : 0 < c.nranks) (s : State w) (out : Nat → DfiPhase) (i : Nat) :
    (dfiNext c s out i).deselected c.nranks = false ↔
      ∃ x, s.issue c.layout c.nphases c.rdphase = some (x, i) ∧ (decode c.layout x).opCode ≠ OpCode.noop.value := by
  have hsel := rankSelect_ne_deselect hn (decode c.layout s.instruction).dfiRank
  have href : (0 : Nat) ≠ 2 ^ c.nranks - 1 := by have := Nat.one_lt_two_pow (Nat.pos_iff_ne_zero.1 hn); omega
  unfold dfiNext State.issue
  by_cases hx : s.exec c.layout = true
  · by_cases hp : s.phase c.layout c.nphases c.rdphase = i
    · simp [DfiPhase.deselected, hx, hp]
      by_cases h0 : (decode c.layout s.instruction).opCode = OpCode.noop.value
      · simp [h0, OpCode.value]
      · simp only [h0, false_or, not_false_eq_true, iff_true]
        split <;> simp_all
    · simp [DfiPhase.deselected, hx, hp]
  · simp [DfiPhase.deselected, hx]

/-- A registered phase carries more than the deselect pattern only after a cycle in which RUN sent a command. -/
theorem exec_of_dfiNext {s : State w} {out : Nat → DfiPhase} {i : Nat}
    (h : (dfiNext c s out i).deselected c.nranks = false) : s.exec c.layout = true := by
  by_contra hx
  simp [dfiNext, hx, DfiPhase.deselected] at h

/-- `RefreshCounter.refresh` for a memory other than DDR5: the phase shows `cs_n == 0, cas_n == 0, ras_n == 0,
we_n == 1`. -/
def RefreshCounter.refresh (p : DfiPhase) : Bool := p.csN = 0 && !p.casN && !p.rasN && p.weN

theorem ref_bits_eq (L : Layout) (x : Nat) :
    ((decode L x).cas && (decode L x).ras && !(decode L x).we) = decide ((decode L x).opCode = OpCode.ref.value) := by
  have key : ∀ op < 8, (op.testBit 1 && op.testBit 2 && !op.testBit 0) = decide (op = OpCode.ref.value) := by decide
  exact key _ (Nat.mod_lt _ (by decide))

/-- **A registered phase shows a refresh exactly when RUN sent a REF on it** in the cycle before: REF is the one op
code with its `(ras, cas, we)`, and it selects every rank. -/
theorem refresh_dfiNext_iff (s : State w) (out : Nat → DfiPhase) (i : Nat) :
    RefreshCounter.refresh (dfiNext c s out i) = true ↔
      ∃ x, s.issue c.layout c.nphases c.rdphase = some (x, i) ∧ (decode c.layout x).opCode = OpCode.ref.value := by
  have hbits := ref_bits_eq c.layout s.instruction
  unfold dfiNext State.issue
  by_cases hsel : s.phase c.layout c.nphases c.rdphase = i ∧ s.exec c.layout = true
  · obtain ⟨hp, hx⟩ := hsel
    by_cases h6 : (decode c.layout s.instruction).opCode = OpCode.ref.value
    · simp_all [RefreshCounter.refresh, OpCode.value]
    · simp only [hp, hx, decide_True, Bool.and_self, if_true, RefreshCounter.refresh, Option.some.injEq,
        Prod.mk.injEq, Bool.not_not]
      simp_all
  · have hns : ¬((decide (s.phase c.layout c.nphases c.rdphase = i) && s.exec c.layout) = true) := by simpa using hsel
    rw [if_neg hns]
    refine ⟨fun h => by simp [RefreshCounter.refresh] at h, fun ⟨x, hx, _⟩ => ?_⟩
    split at hx <;> simp_all

end

/-- What the composed gateware samples from outside in a cycle: the host's `start`, a refresh seen on the DFII
master's phase 0, and the `at_refresh` and `refresh_update` CSRs. -/
structure SysInput where
  start : Bool
  refresh : Bool
  atRefresh : Nat
  refreshUpdate : Bool

/-- **The executor and the bus switch.**  The executor's registers (`wants_dfi` among them), `DFISwitch.fsm`,
`refresh_counter.counter`, the `mc_ongoing_d` register and the `refresh_count` status of `add_csrs`, and the registered
DFI phases. -/
structure System (w : Nat) where
  executor : State w
  switch : SwitchFsm
  refreshCounter : Nat
  mcOngoingD : Bool
  refreshCount : Nat
  dfi : Nat → DfiPhase

namespace System

variable {w : Nat} (c : Config)

/-- Every register at its reset value, the bus idle. -/
def init (w : Nat) : System w := ⟨State.init w, .memoryController, 0, false, 0, fun _ => DfiPhase.idle c.nranks⟩

/-- `ext_dfi_sel`, and `dfi_ready` with it: asserted in PAYLOAD-EXECUTION. -/
def extDfiSel (σ : System w) : Bool := σ.switch = .payloadExecution

/-- `refresher_reset`: PAYLOAD-EXECUTION seeing `wants_dfi` clear. -/
def refresherReset (σ : System w) : Bool := σ.switch = .payloadExecution && !σ.executor.wantsDfi

/-- **One clock edge of the whole.**  The executor sees `dfi_ready`; the switch sees `wants_dfi`; the refresh counter
counts refreshes; the status latches the count on a MEMORY-CONTROLLER → PAYLOAD-EXECUTION edge or on request. -/
def step (mem : Nat → Nat) (i : SysInput) (σ : System w) : System w where
  executor := PayloadExecutor.step c.layout mem ⟨i.start, σ.extDfiSel⟩ σ.executor
  switch := switchNext c.withRefresh σ.executor.wantsDfi i.refresh (refreshMatches i.atRefresh σ.refreshCounter) σ.switch
  refreshCounter := if i.refresh then (σ.refreshCounter + 1) % 2 ^ 64 else σ.refreshCounter
  mcOngoingD := σ.switch = .memoryController
  refreshCount :=
    if σ.mcOngoingD && σ.switch = .payloadExecution || i.refreshUpdate then σ.refreshCounter else σ.refreshCount
  dfi := dfiNext c σ.executor σ.dfi

end System

section

variable (w : Nat) (c : Config)

/-- **The composed gateware from reset**, the payload holding `mems t` and the inputs being `inp t` in cycle `t`. -/
def sysTrace (mems : Nat → Nat → Nat) (inp : Nat → SysInput) : Nat → System w
  | 0 => System.init c w
  | t + 1 => System.step c (mems t) (inp t) (sysTrace mems inp t)

@[simp] theorem sysTrace_succ (mems : Nat → Nat → Nat) (inp : Nat → SysInput) (t : Nat) :
    sysTrace w c mems inp (t + 1) = System.step c (mems t) (inp t) (sysTrace w c mems inp t) := rfl

/-- Inside the whole, the executor runs as `trace` with `dfi_ready` from the switch. -/
theorem sysTrace_executor (mems : Nat → Nat → Nat) (inp : Nat → SysInput) : ∀ t,
    (sysTrace w c mems inp t).executor =
      trace w c.layout mems (fun k => ⟨(inp k).start, (sysTrace w c mems inp k).extDfiSel⟩) t
  | 0 => rfl
  | t + 1 => by rw [trace_succ, ← sysTrace_executor mems inp t]; rfl

end

/-! ## The executor's side of the handshake -/

section Executor

variable {w : Nat} (L : Layout) (mem : Nat → Nat)

/-- **`wants_dfi` is set exactly outside READY**, and every edge keeps it so: READY's `start` sets it on the way to
WAIT-DFI, and RUN's termination clears it on the way back. -/
theorem wantsDfi_step (i : Input) {s : State w} (h : s.wantsDfi = (s.fsm != .ready)) :
    (step L mem i s).wantsDfi = ((step L mem i s).fsm != .ready) := by
  simp only [State.step_wantsDfi, State.step_fsm]
  cases hf : s.fsm
  case ready => rw [State.fsmNext_ready L i s hf]; split <;> simp [hf, h]
  case waitDfi => rw [State.fsmNext_waitDfi L i s hf]; split <;> simp +decide [hf, h]
  case run => rw [State.fsmNext_run L i s hf]; cases s.action L <;> simp only <;> (try split) <;> simp +decide [hf, h]
  all_goals rw [State.fsmNext_idle_or_bubble L i s (by simp [hf])]; split <;> simp +decide [hf, h]

/-- An edge into BUBBLE, RUN or IDLE comes from one of them, or from WAIT-DFI seeing `dfi_ready`. -/
theorem executing_of_step {start dfiReady : Bool} {s : State w}
    (h : (step L mem ⟨start, dfiReady⟩ s).executing = true) :
    s.executing = true ∨ (s.fsm = .waitDfi ∧ dfiReady = true) := by
  rw [executing_eq, State.step_fsm] at h
  cases hf : s.fsm
  case ready => rw [State.fsmNext_ready _ _ s hf] at h; split at h <;> simp [hf] at h
  case waitDfi => rw [State.fsmNext_waitDfi _ _ s hf] at h; split at h <;> simp_all
  all_goals simp [executing_eq, hf]

/-- The executor enters READY only from RUN, or stays there. -/
theorem ready_or_run_of_step {i : Input} {s : State w} (h : (step L mem i s).fsm = .ready) :
    s.fsm = .ready ∨ s.fsm = .run := by
  rw [State.step_fsm] at h
  cases hf : s.fsm
  case waitDfi => rw [State.fsmNext_waitDfi _ _ s hf] at h; split at h <;> simp [hf] at h
  case idle | bubble =>
    rw [State.fsmNext_idle_or_bubble _ _ s (by simp [hf])] at h; split at h <;> simp [hf] at h
  all_goals simp

/-- READY takes `start` to WAIT-DFI, setting `wants_dfi`. -/
theorem step_ready_start {i : Input} {s : State w} (h : s.fsm = .ready) (hs : i.start = true) :
    (step L mem i s).fsm = .waitDfi ∧ (step L mem i s).wantsDfi = true := by
  simp [State.fsmNext_ready L i s h, hs]

/-- WAIT-DFI waits for `dfi_ready`, then goes to BUBBLE. -/
theorem fsm_step_waitDfi {start dfiReady : Bool} {s : State w} (h : s.fsm = .waitDfi) :
    (step L mem ⟨start, dfiReady⟩ s).fsm = if dfiReady then .bubble else .waitDfi := by
  rw [State.step_fsm, State.fsmNext_waitDfi _ _ s h]; split <;> simp [*]

end Executor

/-! ## What every reachable state keeps -/

section

variable {w : Nat} (c : Config)

@[simp] theorem System.step_executor (mem : Nat → Nat) (i : SysInput) (σ : System w) :
    (System.step c mem i σ).executor = PayloadExecutor.step c.layout mem ⟨i.start, σ.extDfiSel⟩ σ.executor := rfl

@[simp] theorem System.step_switch (mem : Nat → Nat) (i : SysInput) (σ : System w) :
    (System.step c mem i σ).switch =
      switchNext c.withRefresh σ.executor.wantsDfi i.refresh (refreshMatches i.atRefresh σ.refreshCounter) σ.switch :=
  rfl

@[simp] theorem System.step_dfi (mem : Nat → Nat) (i : SysInput) (σ : System w) :
    (System.step c mem i σ).dfi = dfiNext c σ.executor σ.dfi := rfl

@[simp] theorem System.step_refreshCounter (mem : Nat → Nat) (i : SysInput) (σ : System w) :
    (System.step c mem i σ).refreshCounter = if i.refresh then (σ.refreshCounter + 1) % 2 ^ 64 else σ.refreshCounter :=
  rfl

@[simp] theorem System.step_refreshCount (mem : Nat → Nat) (i : SysInput) (σ : System w) :
    (System.step c mem i σ).refreshCount =
      if σ.mcOngoingD && σ.switch = .payloadExecution || i.refreshUpdate then σ.refreshCounter else σ.refreshCount :=
  rfl

@[simp] theorem System.step_mcOngoingD (mem : Nat → Nat) (i : SysInput) (σ : System w) :
    (System.step c mem i σ).mcOngoingD = decide (σ.switch = .memoryController) := rfl

/-- **The handover invariant.**  `wants_dfi` is set exactly outside READY; the switch is in PAYLOAD-EXECUTION while
the executor is in BUBBLE, RUN or IDLE, and while a phase of the registered bus is not deselected. -/
structure Safe (σ : System w) : Prop where
  wants : σ.executor.wantsDfi = (σ.executor.fsm != .ready)
  executing : σ.executor.executing = true → σ.switch = .payloadExecution
  bus : ∀ i < c.nphases, (σ.dfi i).deselected c.nranks = false → σ.switch = .payloadExecution

theorem safe_init : Safe c (System.init c w) where
  wants := rfl
  executing h := by simp [System.init, State.init, executing_eq] at h
  bus _ _ h := by simp [System.init, DfiPhase.idle, DfiPhase.deselected] at h

/-- **Every edge keeps the handover invariant.**  The switch leaves PAYLOAD-EXECUTION only once `wants_dfi` is clear,
that is once the executor is back in READY; the executor leaves WAIT-DFI only on `dfi_ready`; and the bus carries a
command only the cycle after RUN sent it. -/
theorem Safe.step {σ : System w} (h : Safe c σ) (mem : Nat → Nat) (i : SysInput) : Safe c (System.step c mem i σ) := by
  have hstay : σ.executor.executing = true → (System.step c mem i σ).switch = .payloadExecution := fun hx => by
    have hw : σ.executor.wantsDfi = true := by rw [h.wants]; simp_all [executing_eq]
    rw [System.step_switch, h.executing hx, hw, switchNext_payload]
  refine ⟨wantsDfi_step c.layout mem _ h.wants, fun hx => ?_, fun j _ hj => ?_⟩
  · rcases executing_of_step c.layout mem hx with hx | ⟨hf, hr⟩
    · exact hstay hx
    · have hw : σ.executor.wantsDfi = true := by rw [h.wants, hf]; rfl
      simp only [System.extDfiSel, decide_eq_true_eq] at hr
      rw [System.step_switch, hr, hw, switchNext_payload]
  · have hx := exec_of_dfiNext c hj
    exact hstay (by simp_all [State.exec, executing_eq])

/-- **The handover invariant holds in every reachable state**, whatever the payloads and inputs. -/
theorem safe_sysTrace (mems : Nat → Nat → Nat) (inp : Nat → SysInput) : ∀ t, Safe c (sysTrace w c mems inp t)
  | 0 => safe_init c
  | t + 1 => (safe_sysTrace mems inp t).step c (mems t) (inp t)

end

/-! ## A run borrows the bus once -/

section Run

variable (w : Nat) (c : Config) (mems : Nat → Nat → Nat) (inp : Nat → SysInput)

/-- The switch stays in PAYLOAD-EXECUTION while `wants_dfi` is set. -/
theorem payload_of_wants {t : Nat} (h : (sysTrace w c mems inp t).switch = .payloadExecution) :
    ∀ n, (∀ k, t ≤ k → k < t + n → (sysTrace w c mems inp k).executor.wantsDfi = true) →
      (sysTrace w c mems inp (t + n)).switch = .payloadExecution
  | 0, _ => h
  | n + 1, hw => by
    rw [← Nat.add_assoc, sysTrace_succ, System.step_switch, hw (t + n) (by omega) (by omega),
      payload_of_wants h n fun k h1 h2 => hw k h1 (by omega), switchNext_payload]

/-- A cycle after one with `wants_dfi` clear, the switch is back with the memory controller. -/
theorem memoryController_of_not_wants {t : Nat} (h : (sysTrace w c mems inp t).executor.fsm = .ready) :
    (sysTrace w c mems inp (t + 1)).switch = .memoryController := by
  rw [sysTrace_succ, System.step_switch, ((safe_sysTrace c mems inp t).wants), h]
  exact switchNext_of_not_wants _

/-- **A run borrows the bus once.**  A run READY at `r`, out of READY from `r + 1` to `e` and back in READY at `e + 1`
keeps the bus with the memory controller up to some `h`, holds it from `h + 1` to `e + 1` and returns it at `e + 2`;
`refresher_reset` is asserted in exactly one of its cycles, `e + 1`. -/
theorem run_borrows_bus {r e : Nat} (hre : r < e) (hr : (sysTrace w c mems inp r).executor.fsm = .ready)
    (hbusy : ∀ k, r < k → k ≤ e → (sysTrace w c mems inp k).executor.fsm ≠ .ready)
    (he : (sysTrace w c mems inp (e + 1)).executor.fsm = .ready) :
    let tr := sysTrace w c mems inp
    ∃ h, r < h ∧ h ≤ e ∧ (∀ k, r < k → k ≤ h → (tr k).switch = .memoryController) ∧
      (∀ k, h < k → k ≤ e + 1 → (tr k).switch = .payloadExecution) ∧ (tr (e + 2)).switch = .memoryController ∧
      ∀ k, r < k → k ≤ e + 1 → ((tr k).refresherReset = true ↔ k = e + 1) := by
  intro tr
  have hsafe : ∀ t, Safe c (tr t) := safe_sysTrace c mems inp
  have hwants : ∀ k, r < k → k ≤ e → (tr k).executor.wantsDfi = true := fun k h1 h2 => by
    simpa [(hsafe k).wants] using hbusy k h1 h2
  -- the run's last cycle is RUN, so the switch holds the bus by then
  have hlast : (tr e).switch = .payloadExecution := by
    refine (hsafe e).executing ?_
    rcases ready_or_run_of_step c.layout (mems e) he with h | h
    · exact absurd h (hbusy e hre le_rfl)
    · simp [tr, executing_eq, h]
  have hmc : (tr (r + 1)).switch = .memoryController := memoryController_of_not_wants w c mems inp hr
  obtain ⟨h, hrh, hhe, hmcs, hpe⟩ := exists_handover (fun k => (tr k).switch) hmc hlast hre
  have hhold : ∀ k, h < k → k ≤ e + 1 → (tr k).switch = .payloadExecution := fun k h1 h2 => by
    have := payload_of_wants w c mems inp hpe (k - (h + 1)) fun j h1 h2 => hwants j (by omega) (by omega)
    rwa [show h + 1 + (k - (h + 1)) = k by omega] at this
  refine ⟨h, by omega, by omega, hmcs, hhold, memoryController_of_not_wants w c mems inp he, fun k h1 h2 => ?_⟩
  rcases Nat.lt_or_ge k (e + 1) with hk | hk
  · simp [System.refresherReset, hwants k h1 (by omega)]; omega
  · obtain rfl : k = e + 1 := by omega
    have he' : (tr (e + 1)).executor.fsm = .ready := he
    simp [System.refresherReset, (hsafe _).wants, he', hhold (e + 1) (by omega) le_rfl]

/-- **Without `with_refresh`, a `start` takes the bus in three cycles.**  A `start` in a READY cycle `t` sets
`wants_dfi`; the switch, which saw it clear in `t`, is with the memory controller at `t + 1` and moves to
PAYLOAD-EXECUTION at `t + 2`, which the executor sees as `dfi_ready`: its first BUBBLE cycle is `t + 3`.  This holds
also when `t` directly follows the end of another run, with the switch still in PAYLOAD-EXECUTION. -/
theorem start_takes_bus (hc : c.withRefresh = false) {t : Nat} (hr : (sysTrace w c mems inp t).executor.fsm = .ready)
    (hs : (inp t).start = true) :
    let tr := sysTrace w c mems inp
    (tr (t + 1)).executor.fsm = .waitDfi ∧ (tr (t + 1)).switch = .memoryController ∧
      (tr (t + 2)).executor.fsm = .waitDfi ∧ (tr (t + 2)).switch = .payloadExecution ∧
      (tr (t + 3)).executor.fsm = .bubble := by
  intro tr
  have h1 : (tr (t + 1)).executor.fsm = .waitDfi ∧ (tr (t + 1)).executor.wantsDfi = true :=
    step_ready_start c.layout (mems t) hr hs
  have hmc : (tr (t + 1)).switch = .memoryController := memoryController_of_not_wants w c mems inp hr
  have h2 : (tr (t + 2)).executor.fsm = .waitDfi := by
    show (step c.layout _ ⟨_, (tr (t + 1)).extDfiSel⟩ (tr (t + 1)).executor).fsm = _
    rw [fsm_step_waitDfi _ _ h1.1]; simp [System.extDfiSel, hmc]
  have hpe : (tr (t + 2)).switch = .payloadExecution := by
    show switchNext _ (tr (t + 1)).executor.wantsDfi _ _ (tr (t + 1)).switch = _
    rw [hmc, h1.2, hc]; rfl
  refine ⟨h1.1, hmc, h2, hpe, ?_⟩
  show (step c.layout _ ⟨_, (tr (t + 2)).extDfiSel⟩ (tr (t + 2)).executor).fsm = _
  rw [fsm_step_waitDfi _ _ h2]; simp [System.extDfiSel, hpe]

/-- **`refresh_counter.counter` counts the refreshes seen so far**, modulo `2^64`. -/
theorem refreshCounter_sysTrace :
    ∀ t, (sysTrace w c mems inp t).refreshCounter = ((List.range t).countP fun k => (inp k).refresh) % 2 ^ 64
  | 0 => rfl
  | t + 1 => by
    rw [sysTrace_succ, System.step_refreshCounter, refreshCounter_sysTrace t, List.range_succ, List.countP_append]
    cases h : (inp t).refresh <;> simp [h, Nat.mod_add_mod]

/-- The status latch fires on the edge after a MEMORY-CONTROLLER → PAYLOAD-EXECUTION one and takes the counter. -/
theorem refreshCount_after_handover {t : Nat} (hmc : (sysTrace w c mems inp t).switch = .memoryController)
    (hpe : (sysTrace w c mems inp (t + 1)).switch = .payloadExecution) :
    (sysTrace w c mems inp (t + 2)).refreshCount = (sysTrace w c mems inp (t + 1)).refreshCounter := by
  have hd : (sysTrace w c mems inp (t + 1)).mcOngoingD = true := by simp [hmc]
  show (System.step c (mems (t + 1)) (inp (t + 1)) (sysTrace w c mems inp (t + 1))).refreshCount = _
  simp only [System.step_refreshCount, hd, hpe, decide_True, Bool.true_and, Bool.true_or, if_true]

end Run

/-- A `start` in the first cycle, without `with_refresh`: the executor is in BUBBLE at cycle 3. -/
theorem start_takes_bus_at_reset :
    let c : Config := ⟨⟨0, 4, 16, 10, by decide⟩, 1, 4, 2, false⟩
    let inp : Nat → SysInput := fun k => ⟨k == 0, false, 0, false⟩
    (sysTrace 1 c (fun _ _ => 0) inp 0).executor.fsm = .ready ∧ (inp 0).start = true ∧
      (sysTrace 1 c (fun _ _ => 0) inp 1).executor.fsm = .waitDfi ∧
      (sysTrace 1 c (fun _ _ => 0) inp 1).switch = .memoryController ∧
      (sysTrace 1 c (fun _ _ => 0) inp 2).executor.fsm = .waitDfi ∧
      (sysTrace 1 c (fun _ _ => 0) inp 2).switch = .payloadExecution ∧
      (sysTrace 1 c (fun _ _ => 0) inp 3).executor.fsm = .bubble :=
  ⟨rfl, rfl, start_takes_bus 1 _ _ _ rfl rfl rfl⟩

/-- **The executor and the memory controller never share the command bus.**  In every reachable state of the composed
gateware, for every configuration, payload sequence and input sequence: (a) the switch is in PAYLOAD-EXECUTION
(`ext_dfi_sel` asserted) while the executor is in BUBBLE, RUN or IDLE; (b) it is so too whenever a phase of the
executor's registered DFI outputs carries something other than the deselect pattern; (c) it is in PAYLOAD-EXECUTION
only in a cycle after one with `wants_dfi` set; and a run, READY at `r`, out of READY from `r + 1` to `e` and back in
READY at `e + 1`, keeps the bus with the memory controller up to some `h`, holds it from `h + 1` to `e + 1` and
returns it at `e + 2`, `refresher_reset` being asserted in exactly one of its cycles, `e + 1`. -/
theorem bus_handover_safe (w : Nat) (c : Config) (mems : Nat → Nat → Nat) (inp : Nat → SysInput) :
    let tr := sysTrace w c mems inp
    (∀ t, (tr t).executor.fsm = .bubble ∨ (tr t).executor.fsm = .run ∨ (tr t).executor.fsm = .idle →
      (tr t).extDfiSel = true) ∧
    (∀ t, ∀ i < c.nphases, ((tr t).dfi i).deselected c.nranks = false → (tr t).extDfiSel = true) ∧
    (∀ t, (tr t).switch = .payloadExecution → 0 < t ∧ (tr (t - 1)).executor.wantsDfi = true) ∧
    ∀ r e, r < e → (tr r).executor.fsm = .ready → (∀ k, r < k → k ≤ e → (tr k).executor.fsm ≠ .ready) →
      (tr (e + 1)).executor.fsm = .ready →
      ∃ h, r < h ∧ h ≤ e ∧ (∀ k, r < k → k ≤ h → (tr k).switch = .memoryController) ∧
        (∀ k, h < k → k ≤ e + 1 → (tr k).switch = .payloadExecution) ∧ (tr (e + 2)).switch = .memoryController ∧
        ∀ k, r < k → k ≤ e + 1 → ((tr k).refresherReset = true ↔ k = e + 1) := by
  intro tr
  have hsafe : ∀ t, Safe c (tr t) := safe_sysTrace c mems inp
  refine ⟨fun t ht => ?_, fun t i hi hd => by simpa [System.extDfiSel] using (hsafe t).bus i hi hd, fun t ht => ?_,
    fun r e hre hr hbusy he => run_borrows_bus w c mems inp hre hr hbusy he⟩
  · have hx : (tr t).executor.executing = true := by rcases ht with h | h | h <;> simp [executing_eq, h]
    simpa [System.extDfiSel] using (hsafe t).executing hx
  · cases t with
    | zero => cases ht
    | succ t => exact ⟨t.succ_pos, wants_of_switchNext ht⟩

/-- **The bus carries exactly the commands RUN sends, one cycle later and on one phase.**  For every configuration with
at least one rank, every payload sequence and every input sequence: phase `i` of the registered DFI outputs carries
something other than the deselect pattern at `t + 1` iff the executor issued a word other than NOOP on phase `i` at
`t`; and in no cycle do two phases carry a command. -/
theorem bus_carries_issue (w : Nat) (c : Config) (hn : 0 < c.nranks) (mems : Nat → Nat → Nat) (inp : Nat → SysInput) :
    let tr := sysTrace w c mems inp
    (∀ t i, ((tr (t + 1)).dfi i).deselected c.nranks = false ↔
      ∃ x, (tr t).executor.issue c.layout c.nphases c.rdphase = some (x, i) ∧
        (decode c.layout x).opCode ≠ OpCode.noop.value) ∧
    ∀ t i j, ((tr t).dfi i).deselected c.nranks = false → ((tr t).dfi j).deselected c.nranks = false → i = j := by
  intro tr
  have hbus : ∀ t i, ((tr (t + 1)).dfi i).deselected c.nranks = false ↔
      ∃ x, (tr t).executor.issue c.layout c.nphases c.rdphase = some (x, i) ∧
        (decode c.layout x).opCode ≠ OpCode.noop.value := fun t i => dfiNext_deselected_iff c hn _ _ i
  refine ⟨hbus, fun t i j hi hj => ?_⟩
  cases t with
  | zero => simp [tr, sysTrace, System.init, DfiPhase.idle, DfiPhase.deselected] at hi
  | succ t =>
    obtain ⟨x, hx, -⟩ := (hbus t i).1 hi
    obtain ⟨y, hy, -⟩ := (hbus t j).1 hj
    rw [hx, Option.some.injEq, Prod.mk.injEq] at hy
    exact hy.2

/-- **A refresh-aligned handover lands on the requested refresh.**  With `with_refresh`, for every payload and input
sequence: when the switch moves from MEMORY-CONTROLLER at `t` to PAYLOAD-EXECUTION at `t + 1`, a refresh was seen on
phase 0 at `t`; the counter at `t + 1` is the number of refreshes seen in cycles `0 .. t`, modulo `2^64`; it is the
64-bit `at_refresh` when that is not 0; and `refresh_count`, latched on the next edge, is that counter. -/
theorem refresh_aligned_handover (w : Nat) (c : Config) (hc : c.withRefresh = true) (mems : Nat → Nat → Nat)
    (inp : Nat → SysInput) (t : Nat) (hmc : (sysTrace w c mems inp t).switch = .memoryController)
    (hpe : (sysTrace w c mems inp (t + 1)).switch = .payloadExecution) :
    let tr := sysTrace w c mems inp
    (inp t).refresh = true ∧
      (tr (t + 1)).refreshCounter = ((List.range (t + 1)).countP fun k => (inp k).refresh) % 2 ^ 64 ∧
      ((inp t).atRefresh % 2 ^ 64 ≠ 0 → (tr (t + 1)).refreshCounter = (inp t).atRefresh % 2 ^ 64) ∧
      (tr (t + 2)).refreshCount = (tr (t + 1)).refreshCounter := by
  intro tr
  have hsw : switchNext true (tr t).executor.wantsDfi (inp t).refresh
      (refreshMatches (inp t).atRefresh (tr t).refreshCounter) .memoryController = .payloadExecution := by
    rw [← hc, ← hmc]; exact hpe
  obtain ⟨hr, hok⟩ := refresh_of_switchNext hsw
  refine ⟨hr, refreshCounter_sysTrace w c mems inp (t + 1), fun hR => ?_,
    refreshCount_after_handover w c mems inp hmc hpe⟩
  have hnext : (inp t).atRefresh % 2 ^ 64 = (tr t).refreshCounter + 1 := by
    simp only [refreshMatches, Bool.or_eq_true, decide_eq_true_eq] at hok
    exact hok.resolve_left hR
  have hlt : (inp t).atRefresh % 2 ^ 64 < 2 ^ 64 := Nat.mod_lt _ (Nat.two_pow_pos 64)
  show (System.step c (mems t) (inp t) (tr t)).refreshCounter = _
  rw [System.step_refreshCounter, if_pos hr, hnext, Nat.mod_eq_of_lt (hnext ▸ hlt)]

/-- `at_refresh = 2` with refreshes at cycles 1 and 3 and `start` at reset: the refresh at 1 is the first, so the
switch lets it pass and hands over at 4, after the second; the counter and the latched status are 2. -/
theorem refresh_aligned_handover_second :
    let c : Config := ⟨⟨0, 4, 16, 10, by decide⟩, 1, 4, 2, true⟩
    let inp : Nat → SysInput := fun k => ⟨k == 0, k == 1 || k == 3, 2, false⟩
    let tr := sysTrace 1 c (fun _ _ => 0) inp
    (tr 2).switch = .memoryController ∧ (tr 3).switch = .memoryController ∧ (tr 4).switch = .payloadExecution ∧
      (tr 4).refreshCounter = 2 ∧ (tr 5).refreshCount = 2 ∧
      ((inp 3).refresh = true ∧
        (tr (3 + 1)).refreshCounter = ((List.range (3 + 1)).countP fun k => (inp k).refresh) % 2 ^ 64 ∧
        ((inp 3).atRefresh % 2 ^ 64 ≠ 0 → (tr (3 + 1)).refreshCounter = (inp 3).atRefresh % 2 ^ 64) ∧
        (tr (3 + 2)).refreshCount = (tr (3 + 1)).refreshCounter) := by
  intro c inp tr
  have hmc : (tr 3).switch = .memoryController := by decide
  have hpe : (tr 4).switch = .payloadExecution := by decide
  exact ⟨by decide, hmc, hpe, by decide, by decide, refresh_aligned_handover 1 c rfl _ inp 3 hmc hpe⟩

end PayloadExecutor
