import Mathlib
import PayloadExecutor.Pipeline
import PayloadExecutor.Isa
/-!
# Refinement — the executor runs the program the interpreter describes

`At mem s σ` relates a RUN cycle of the gateware to an architectural state of `Isa`: the instruction register holds the
word at `σ.addr`, the fetch pipeline is loaded behind it, and `loop_counter` is `σ.loopCounter`.  From such a cycle
the executor does what `runStep` says, one word at a time: RUN's `If`/`Elif`/`Else` on the decoded word, end-of-memory
test included.  A command is asserted in the word's first cycle and IDLE waits out the rest; a LOOP jump spends two
BUBBLE cycles refilling the pipeline.  Away from the last address `runStep` is the interpreter's `Isa.step`
(`runStep_eq_step`), so a finished interpretation is a run of the gateware, cycle by cycle (`executor_refines_isa`).

A stretch of the gateware's run is a `Segment`: how long it stays out of READY and which commands it asserts, with
their cycle and DFI phase.  Segments of consecutive stretches append (`Segment.append`).
-/
namespace PayloadExecutor

open Isa (Arch Outcome)

/-! ## Widths and fetch addresses -/

/-- With a power-of-two number of phases, every phase below it fits `dfi_executor.phase`. -/
theorem lt_two_pow_phaseWidth {k rdphase : Nat} (h : rdphase < 2 ^ k) : rdphase < 2 ^ phaseWidth (2 ^ k) := by
  have hB := lt_two_pow_bitsFor (max (2 ^ k - 1) 2 - 1)
  have hY : 2 ^ bitsFor (max (2 ^ k - 1) 2 - 1) = 2 * 2 ^ (bitsFor (max (2 ^ k - 1) 2 - 1) - 1) := by
    rw [← Nat.pow_succ']; congr 1; have := one_le_bitsFor (max (2 ^ k - 1) 2 - 1); omega
  unfold phaseWidth
  rcases k with _ | k
  · omega
  · rw [Nat.pow_succ] at h hB hY ⊢
    omega

theorem ofNat_two (w : Nat) : BitVec.ofNat w 2 = 2 := rfl

theorem toNat_two (w : Nat) : (2 : BitVec w).toNat = 2 % 2 ^ w := BitVec.toNat_ofNat 2 w

/-- RUN's end-of-memory test `mem_addr == PIPELINE_DELAY - 1` fires at the last word: the fetch address runs two words
ahead of the word decoded. -/
theorem toNat_add_two_eq_one {w : Nat} (hw : 0 < w) (a : BitVec w) : (a + 2).toNat = 1 ↔ a.toNat = 2 ^ w - 1 := by
  have ha := a.isLt
  rw [BitVec.toNat_add, toNat_two]
  obtain rfl | hw2 := Nat.eq_or_lt_of_le hw
  · simp only [pow_one] at ha ⊢; omega
  · have h4 : 4 ≤ 2 ^ w := by simpa using Nat.pow_le_pow_right (by norm_num : 0 < 2) hw2
    rw [Nat.mod_eq_of_lt (by omega : 2 < 2 ^ w)]
    generalize 2 ^ w = M at *
    by_cases h : a.toNat + 2 < M
    · rw [Nat.mod_eq_of_lt h]; omega
    · rw [Nat.mod_eq_sub_mod (by omega), Nat.mod_eq_of_lt (by omega)]; omega

/-- A STOP word is a NOOP, so never a LOOP. -/
theorem decode_opCode_of_stop (L : Layout) {x : Nat} (h : (decode L x).stop = true) :
    (decode L x).opCode = OpCode.noop.value := by
  simp only [decode, Bool.and_eq_true, decide_eq_true_eq] at h
  exact h.1

/-- `cas & ~ras & ~we`, the executor's READ test, is the READ opcode. -/
theorem read_bits_eq (L : Layout) (x : Nat) :
    ((decode L x).cas && !(decode L x).ras && !(decode L x).we) = decide ((decode L x).opCode = OpCode.read.value) := by
  have key : ∀ op < 8, (op.testBit 1 && !op.testBit 2 && !op.testBit 0) = decide (op = OpCode.read.value) := by decide
  exact key _ (Nat.mod_lt _ (by decide))

section

variable {w : Nat} (L : Layout) (mem : Nat → Nat)

/-! ## Executing a word -/

/-- **The pipeline loaded at address `a`**: the program counter two words on, `program_counter_old` one, the port
holding the next word and the instruction register the word at `a`. -/
structure Fetched (s : State w) (a : BitVec w) : Prop where
  pc : s.programCounter = a + 2
  pcOld : s.programCounterOld = a + 1
  datR : s.datR = mem (a + 1).toNat
  instruction : s.instruction = mem a.toNat

/-- **RUN executing the word at `σ.addr`**, with `loop_counter` holding `σ.loopCounter`. -/
structure At (s : State w) (σ : Arch w) : Prop where
  run : s.fsm = .run
  fetched : Fetched mem s σ.addr
  loopCounter : s.loopCounter = σ.loopCounter

/-- **RUN's branch, one word at a time**: `runAction` on the word at `σ.addr`, whose fetch address is two words on;
a LOOP jump lands `loop_jump` words back once the two BUBBLE cycles have refilled the pipeline. -/
def runStep (σ : Arch w) : Outcome w :=
  let word := mem σ.addr.toNat
  let d := decode L word
  match runAction d (σ.addr + 2) σ.loopCounter with
  | .terminate => .halt
  | .loopJump => .next ⟨σ.addr - BitVec.ofNat w d.loopJump, (σ.loopCounter + 1) % 2 ^ Decoder.LOOP_COUNT⟩ 3 none
  | .loopExit => .next ⟨σ.addr + 1, 0⟩ 1 none
  | .command => .next ⟨σ.addr + 1, σ.loopCounter⟩ d.duration (some word)

/-- **RUN with a full pipeline executes the word two behind the program counter.** -/
theorem at_of_full {s : State w} (h : s.fsm = .run) (hf : Full mem s) : At mem s ⟨s.programCounter - 2, s.loopCounter⟩ :=
  ⟨h, ⟨by ring, by rw [hf.old]; ring, by rw [hf.datR]; ring_nf, hf.instruction⟩, rfl⟩

/-- **Away from the last address the executor's branch is the interpreter's step.** -/
theorem runStep_eq_step (hw : 0 < w) {σ : Arch w} (hσ : σ.addr.toNat ≠ 2 ^ w - 1) :
    runStep L mem σ = Isa.step L mem σ := by
  have hend : ¬ (σ.addr + 2).toNat = PIPELINE_DELAY - 1 := by
    rw [show PIPELINE_DELAY - 1 = 1 from rfl, toNat_add_two_eq_one hw]; exact hσ
  have hsl : (decode L (mem σ.addr.toNat)).stop = true → _ := decode_opCode_of_stop L
  simp only [runStep, Isa.step]
  generalize decode L (mem σ.addr.toNat) = d at *
  cases hs : d.stop
  case true =>
    -- a STOP is a NOOP word, so RUN terminates on it
    rw [runAction_of_terminate d _ _ (.inr hs) (.inl (by rw [hsl hs]; decide))]; rfl
  case false =>
    by_cases hl : d.opCode = OpCode.loop.value
    · by_cases hc : σ.loopCounter = d.loopCount
      · rw [hc, runAction_of_loopExit d _ hend hs hl]; simp [hl]
      · rw [runAction_of_loopJump d _ _ hl hc]; simp [hl, hc]
    · rw [runAction_of_command d _ _ hend hs hl]; simp [hl]

/-- RUN at `σ` takes the branch `runAction` picks for the word at `σ.addr`. -/
theorem action_of_at {s : State w} {σ : Arch w} (h : At mem s σ) :
    s.action L = runAction (decode L (mem σ.addr.toNat)) (σ.addr + 2) σ.loopCounter := by
  rw [State.action, State.memAddr_of_run s h.run, h.fetched.pc, h.fetched.instruction, h.loopCounter]

/-- An edge that does not stall or jump moves the pipeline one word on: it is loaded at `a + 1` once the program
counter was two words past `a` and the port held the word after `a`. -/
theorem fetched_advance {s : State w} {a : BitVec w} (i : Input) (hst : s.stall = false)
    (hnj : s.nextAddr L = s.programCounter + 1) (hpc : s.programCounter = a + 2) (hdat : s.datR = mem (a + 1).toNat) :
    Fetched mem (step L mem i s) (a + 1) := by
  obtain ⟨h1, h2, h3, h4⟩ := State.step_advance L mem i s hst hnj
  constructor
  · rw [h1, hpc]; ring
  · rw [h2, hpc]; ring
  · rw [h3, hpc]; ring_nf
  · rw [h4, hdat]

/-- A stalled edge outside READY keeps the loaded pipeline where it is: the port re-reads `program_counter_old`. -/
theorem fetched_stall {s : State w} {a : BitVec w} (i : Input) (hst : s.stall = true) (hr : s.fsm ≠ .ready)
    (h : Fetched mem s a) : Fetched mem (step L mem i s) a := by
  obtain ⟨hpc, hold, hdat, hins⟩ := h
  constructor <;> simp [hst, hr, State.memAddr, hpc, hold, hdat, hins]

/-- **IDLE waits out its count.**  From IDLE with `idle_counter = n` and the pipeline loaded at `a`, the executor stays
in IDLE for `n + 1` cycles and then executes the word at `a`. -/
theorem idle_countdown {a : BitVec w} : ∀ (n : Nat) (inp : Nat → Input) (s : State w), s.fsm = .idle →
    s.idleCounter = n → Fetched mem s a →
      At mem (runFrom L mem inp s (n + 1)) ⟨a, s.loopCounter⟩ ∧ ∀ k ≤ n, (runFrom L mem inp s k).fsm = .idle := by
  intro n
  induction n with
  | zero =>
    intro inp s hf hn h
    obtain ⟨hfsm, -, hlc⟩ := State.step_idle_or_bubble L mem (inp 0) s (.inl hf)
    refine ⟨⟨by simpa [hn] using hfsm, fetched_stall L mem _ (by simp [State.stall_eq, hf]) (by simp [hf]) h,
      by simpa using hlc⟩, fun k hk => by simpa [Nat.le_zero.1 hk] using hf⟩
  | succ n ih =>
    intro inp s hf hn h
    obtain ⟨hfsm, hidle, hlc⟩ := State.step_idle_or_bubble L mem (inp 0) s (.inl hf)
    have hf' : (step L mem (inp 0) s).fsm = .idle := by simpa [hn, hf] using hfsm
    obtain ⟨hat, hall⟩ := ih (fun k => inp (1 + k)) _ hf' (by omega)
      (fetched_stall L mem _ (by simp [State.stall_eq, hf]) (by simp [hf]) h)
    refine ⟨?_, fun k hk => ?_⟩
    · rw [← hlc, show n + 1 + 1 = 1 + (n + 1) by omega, runFrom_add]; exact hat
    · rcases k with _ | k
      · exact hf
      · rw [Nat.add_comm, runFrom_add]; exact hall k (by omega)

/-- **BUBBLE refills the pipeline.**  From the first BUBBLE cycle (`idle_counter = 1`) the executor spends one more
cycle in BUBBLE and then executes the word at the program counter. -/
theorem bubble_refill (inp : Nat → Input) {s : State w} (hf : s.fsm = .bubble) (hn : s.idleCounter = 1) :
    At mem (runFrom L mem inp s 2) ⟨s.programCounter, s.loopCounter⟩ ∧ (runFrom L mem inp s 1).fsm = .bubble := by
  have hst : s.stall = false := by simp [State.stall_eq, hf]
  obtain ⟨hf1, hn1, hlc1⟩ := State.step_idle_or_bubble L mem (inp 0) s (.inr hf)
  obtain ⟨hpc1, -, hdat1, -⟩ := State.step_advance L mem (inp 0) s hst (State.nextAddr_of_ne_run L s (by simp [hf]))
  set s₁ := step L mem (inp 0) s
  have hb1 : s₁.fsm = .bubble := by simpa [hn, hf] using hf1
  have hst1 : s₁.stall = false := by simp [State.stall_eq, hb1]
  obtain ⟨hf2, -, hlc2⟩ := State.step_idle_or_bubble L mem (inp 1) s₁ (.inr hb1)
  have hfe := fetched_advance L mem (inp 1) hst1 (State.nextAddr_of_ne_run L s₁ (by simp [hb1]))
    (by rw [hpc1]; ring : s₁.programCounter = s.programCounter - 1 + 2) (by rw [hdat1]; ring_nf)
  rw [sub_add_cancel] at hfe
  have e2 : runFrom L mem inp s 2 = step L mem (inp 1) s₁ := rfl
  rw [e2]
  exact ⟨⟨by simpa [hn1, hn] using hf2, hfe, hlc2.trans hlc1⟩, hb1⟩

/-! ## Stretches of a run -/

variable (nphases rdphase : Nat)

/-- The commands `tr` asserts in its first `n` cycles: the cycle, the word and its DFI phase. -/
def issued (tr : Nat → State w) : Nat → List (Nat × Nat × Nat)
  | 0 => []
  | n + 1 => issued tr n ++ ((tr n).issue L nphases rdphase).toList.map ((n, ·))

/-- The commands `tr` sends in its first `n` cycles, each with its cycle: `issued` without the DFI phase. -/
def sent (tr : Nat → State w) : Nat → List (Nat × Nat)
  | 0 => []
  | n + 1 => sent tr n ++ if (tr n).exec L then [(n, (tr n).instruction)] else []

theorem sent_eq_issued (tr : Nat → State w) : ∀ n,
    sent L tr n = (issued L nphases rdphase tr n).map fun e => (e.1, e.2.1)
  | 0 => rfl
  | n + 1 => by
    rw [sent, issued, sent_eq_issued tr n, List.map_append]
    cases h : (tr n).exec L <;> simp [State.issue, h]

theorem issued_add (tr : Nat → State w) (n : Nat) : ∀ m,
    issued L nphases rdphase tr (n + m) =
      issued L nphases rdphase tr n ++ (issued L nphases rdphase (fun k => tr (n + k)) m).map (Prod.map (· + n) id)
  | 0 => by simp [issued]
  | m + 1 => by
    rw [← Nat.add_assoc, issued, issued_add tr n m, issued, List.map_append, List.append_assoc, List.map_map]
    congr 3
    funext x
    simp [Nat.add_comm]

theorem issued_congr {tr tr' : Nat → State w} : ∀ {n : Nat}, (∀ k < n, tr k = tr' k) →
    issued L nphases rdphase tr n = issued L nphases rdphase tr' n
  | 0, _ => rfl
  | n + 1, h => by rw [issued, issued, issued_congr fun k hk => h k (by omega), h n (by omega)]

/-- A command is in `issued` exactly when its cycle is among the first `n` and the trace asserts it then. -/
theorem mem_issued {tr : Nat → State w} {k x i : Nat} : ∀ {n : Nat},
    (k, x, i) ∈ issued L nphases rdphase tr n ↔ k < n ∧ (tr k).issue L nphases rdphase = some (x, i)
  | 0 => by simp [issued]
  | n + 1 => by
    rw [issued, List.mem_append, mem_issued, Nat.lt_succ_iff_lt_or_eq, or_and_right]
    refine or_congr_right ⟨fun hm => ?_, fun ⟨hk, hi⟩ => by subst hk; simp [hi]⟩
    cases h : (tr n).issue L nphases rdphase <;> simp only [h, Option.toList_none, Option.toList_some, List.map_nil,
      List.map_cons, List.not_mem_nil, List.mem_singleton, Prod.mk.injEq] at hm
    obtain ⟨rfl, rfl⟩ := hm
    exact ⟨rfl, h⟩

/-- **A stretch of a run.**  For its first `n` cycles `tr` stays out of READY and asserts exactly the commands `out`. -/
structure Segment (tr : Nat → State w) (n : Nat) (out : List (Nat × Nat × Nat)) : Prop where
  busy : ∀ k < n, (tr k).fsm ≠ .ready
  issued : issued L nphases rdphase tr n = out

/-- **Consecutive stretches append**, the second one's cycles moved by the first one's length. -/
theorem Segment.append {tr : Nat → State w} {n m : Nat} {o₁ o₂ : List (Nat × Nat × Nat)}
    (h₁ : Segment L nphases rdphase tr n o₁) (h₂ : Segment L nphases rdphase (fun k => tr (n + k)) m o₂) :
    Segment L nphases rdphase tr (n + m) (o₁ ++ o₂.map (Prod.map (· + n) id)) where
  busy k hk := by
    by_cases h : k < n
    · exact h₁.busy k h
    · simpa [Nat.add_sub_cancel' (Nat.le_of_not_lt h)] using h₂.busy (k - n) (by omega)
  issued := by rw [issued_add, h₁.issued, h₂.issued]

/-- A stretch of the run from `s`, then a stretch of the run from where it left off. -/
theorem Segment.runFrom_append {inp : Nat → Input} {s : State w} {n m : Nat} {o₁ o₂ : List (Nat × Nat × Nat)}
    (h₁ : Segment L nphases rdphase (runFrom L mem inp s) n o₁)
    (h₂ : Segment L nphases rdphase (runFrom L mem (fun k => inp (n + k)) (runFrom L mem inp s n)) m o₂) :
    Segment L nphases rdphase (runFrom L mem inp s) (n + m) (o₁ ++ o₂.map (Prod.map (· + n) id)) :=
  h₁.append L nphases rdphase (by rwa [← funext (runFrom_add L mem inp s n)] at h₂)

/-- While the host leaves the payload at `mem`, a stretch of the run from the trace's state at `b` is the trace's. -/
theorem segment_trace {mems : Nat → Nat → Nat} {inp : Nat → Input} {b n : Nat} {out : List (Nat × Nat × Nat)}
    (hmem : ∀ k < n, mems (b + k) = mem)
    (h : Segment L nphases rdphase (runFrom L mem (fun j => inp (b + j)) (trace w L mems inp b)) n out) :
    Segment L nphases rdphase (fun k => trace w L mems inp (b + k)) n out where
  busy k hk := by rw [trace_add_of_mem w L inp hmem k hk.le]; exact h.busy k hk
  issued := by rw [issued_congr L nphases rdphase fun k hk => trace_add_of_mem w L inp hmem k hk.le, h.issued]

/-- Cycles outside READY that assert nothing. -/
theorem segment_quiet {tr : Nat → State w} {n : Nat} (h : ∀ k < n, (tr k).fsm ≠ .ready ∧ (tr k).exec L = false) :
    Segment L nphases rdphase tr n [] where
  busy k hk := (h k hk).1
  issued := by
    induction n with
    | zero => rfl
    | succ n ih => simp [issued, ih fun k hk => h k (by omega), State.issue, (h n (by omega)).2]

/-- The first cycle of a stretch outside READY: it asserts what that cycle issues. -/
theorem segment_one {tr : Nat → State w} (h : (tr 0).fsm ≠ .ready) :
    Segment L nphases rdphase tr 1 (((tr 0).issue L nphases rdphase).toList.map ((0, ·))) :=
  ⟨fun k hk => by simpa [Nat.lt_one_iff.1 hk] using h, rfl⟩

theorem exec_of_ne_run {s : State w} (h : s.fsm ≠ .run) : s.exec L = false := by simp [State.exec, h]

/-- IDLE and BUBBLE cycles are quiet: outside READY, asserting nothing. -/
theorem quiet_of_idle_or_bubble {s : State w} (h : s.fsm = .idle ∨ s.fsm = .bubble) :
    s.fsm ≠ .ready ∧ s.exec L = false := by
  rcases h with h | h <;> exact ⟨by simp [h], exec_of_ne_run L (by simp [h])⟩

/-- A RUN cycle that sends no command is quiet. -/
theorem quiet_of_run {s : State w} (h : s.fsm = .run) (ha : s.action L ≠ .command) :
    s.fsm ≠ .ready ∧ s.exec L = false := ⟨by simp [h], by simp [State.exec, ha]⟩

/-- RUN sending the word at `σ` asserts it on the specification's phase, when `rdphase` fits the phase signal. -/
theorem issue_of_at {s : State w} {σ : Arch w} (h : At mem s σ) (ha : s.action L = .command)
    (hfit : rdphase < 2 ^ phaseWidth nphases) :
    s.issue L nphases rdphase = some (mem σ.addr.toNat, Isa.readPhase L rdphase (mem σ.addr.toNat)) := by
  have hx : s.exec L = true := by simp [State.exec, h.run, ha]
  simp only [State.issue, hx, if_true, State.phase, Bool.true_and, read_bits_eq, h.fetched.instruction, Isa.readPhase]
  by_cases hr : (decode L (mem σ.addr.toNat)).opCode = OpCode.read.value <;> simp [hr, Nat.mod_eq_of_lt hfit]

/-! ## One word of the program -/

section Word

variable (inp : Nat → Input) {s : State w} {σ : Arch w}

/-- The run after its first edge. -/
theorem runFrom_one_add (j : Nat) :
    runFrom L mem inp s (1 + j) = runFrom L mem (fun k => inp (1 + k)) (step L mem (inp 0) s) j :=
  runFrom_add L mem inp s 1 j

/-- **A command**: asserted in its first cycle, then IDLE for the rest of its `max(timeslice, 1)` cycles. -/
theorem at_command (hfit : rdphase < 2 ^ phaseWidth nphases) (h : At mem s σ) (ha : s.action L = .command) :
    Segment L nphases rdphase (runFrom L mem inp s) (decode L (mem σ.addr.toNat)).duration
        [(0, mem σ.addr.toNat, Isa.readPhase L rdphase (mem σ.addr.toNat))] ∧
      At mem (runFrom L mem inp s (decode L (mem σ.addr.toNat)).duration) ⟨σ.addr + 1, σ.loopCounter⟩ := by
  have hst : s.stall = false := by simp [State.stall_eq, h.run]
  have hfe := fetched_advance L mem (inp 0) hst (State.nextAddr_of_not_loopJump L s (by simp [ha]))
    h.fetched.pc h.fetched.datR
  have hone : Segment L nphases rdphase (runFrom L mem inp s) 1
      [(0, mem σ.addr.toNat, Isa.readPhase L rdphase (mem σ.addr.toNat))] := by
    simpa [issue_of_at L mem nphases rdphase h ha hfit] using
      @segment_one _ L nphases rdphase (runFrom L mem inp s) (by simp [h.run])
  have hnext := State.fsmNext_run L (inp 0) s h.run
  rw [ha, h.fetched.instruction] at hnext
  simp only [Decoded.duration]
  generalize (decode L (mem σ.addr.toNat)).timeslice = ts at hnext ⊢
  by_cases h01 : ts = 0 ∨ ts = 1
  · have hn1 : s.fsmNext L (inp 0) = s := by rcases h01 with rfl | rfl <;> simpa using hnext
    rw [show max ts 1 = 1 by omega]
    exact ⟨hone, by simp [hn1, h.run], hfe, by simp [hn1, h.loopCounter]⟩
  · have hf1 : (step L mem (inp 0) s).fsm = .idle := by simp [hnext, h01]
    have hi1 : (step L mem (inp 0) s).idleCounter = ts - 2 := by simp [hnext, h01]
    have hlc1 : (step L mem (inp 0) s).loopCounter = σ.loopCounter := by simp [hnext, h01, h.loopCounter]
    obtain ⟨hat, hidle⟩ := idle_countdown L mem (ts - 2) (fun k => inp (1 + k)) _ hf1 hi1 hfe
    have hquiet : Segment L nphases rdphase (fun k => runFrom L mem inp s (1 + k)) (ts - 2 + 1) [] :=
      segment_quiet L nphases rdphase fun k hk => by
        rw [runFrom_one_add]; exact quiet_of_idle_or_bubble L (.inl (hidle k (by omega)))
    rw [show max ts 1 = 1 + (ts - 2 + 1) by omega]
    refine ⟨by simpa using hone.append L nphases rdphase hquiet, ?_⟩
    rw [runFrom_one_add]
    rwa [hlc1] at hat

/-- **A LOOP that jumps**: three quiet cycles (the jump and two BUBBLE cycles), then the word `loop_jump` back. -/
theorem at_loopJump (h : At mem s σ) (ha : s.action L = .loopJump) :
    Segment L nphases rdphase (runFrom L mem inp s) 3 [] ∧
      At mem (runFrom L mem inp s 3) ⟨σ.addr - BitVec.ofNat w (decode L (mem σ.addr.toNat)).loopJump,
        (σ.loopCounter + 1) % 2 ^ Decoder.LOOP_COUNT⟩ := by
  have hst : s.stall = false := by simp [State.stall_eq, h.run]
  have hnext := State.fsmNext_run L (inp 0) s h.run
  rw [ha] at hnext
  have hb1 : (step L mem (inp 0) s).fsm = .bubble := by simp [hnext]
  have hj : s.jump L = true := by simp [State.jump, h.run, ha]
  have hpc1 : (step L mem (inp 0) s).programCounter =
      σ.addr - BitVec.ofNat w (decode L (mem σ.addr.toNat)).loopJump := by
    rw [State.step_programCounter, hst, State.nextAddr, if_pos hj, h.fetched.pc, h.fetched.instruction, PIPELINE_DELAY,
      ofNat_two]
    simp only [Bool.not_false, ↓reduceIte]
    ring
  have hlc1 : (step L mem (inp 0) s).loopCounter = (σ.loopCounter + 1) % 2 ^ Decoder.LOOP_COUNT := by
    simp [hnext, h.loopCounter]
  obtain ⟨hat, hb2⟩ := bubble_refill L mem (fun k => inp (1 + k)) hb1 (by simp [hnext, PIPELINE_DELAY])
  have e2 : runFrom L mem inp s 2 = runFrom L mem (fun k => inp (1 + k)) (step L mem (inp 0) s) 1 :=
    runFrom_one_add L mem inp 1
  refine ⟨segment_quiet L nphases rdphase fun k hk => ?_, ?_⟩
  · interval_cases k
    · exact quiet_of_run L h.run (by simp [ha])
    · exact quiet_of_idle_or_bubble L (.inr hb1)
    · rw [e2]; exact quiet_of_idle_or_bubble L (.inr hb2)
  · rw [show (3 : Nat) = 1 + 2 from rfl, runFrom_one_add]
    rwa [hpc1, hlc1] at hat

/-- **A LOOP that has counted out**: one quiet cycle, `loop_counter` cleared, then the next word. -/
theorem at_loopExit (h : At mem s σ) (ha : s.action L = .loopExit) :
    Segment L nphases rdphase (runFrom L mem inp s) 1 [] ∧ At mem (runFrom L mem inp s 1) ⟨σ.addr + 1, 0⟩ := by
  have hst : s.stall = false := by simp [State.stall_eq, h.run]
  have hnext := State.fsmNext_run L (inp 0) s h.run
  rw [ha] at hnext
  refine ⟨segment_quiet L nphases rdphase fun k hk => ?_, ⟨by simp [hnext, h.run], ?_, by simp [hnext]⟩⟩
  · rw [Nat.lt_one_iff.1 hk]; exact quiet_of_run L h.run (by simp [ha])
  · exact fetched_advance L mem (inp 0) hst (State.nextAddr_of_not_loopJump L s (by simp [ha]))
      h.fetched.pc h.fetched.datR

/-- **Termination**: one quiet cycle, then READY. -/
theorem at_terminate (h : At mem s σ) (ha : s.action L = .terminate) :
    Segment L nphases rdphase (runFrom L mem inp s) 1 [] ∧ (runFrom L mem inp s 1).fsm = .ready := by
  have hnext := State.fsmNext_run L (inp 0) s h.run
  rw [ha] at hnext
  refine ⟨segment_quiet L nphases rdphase fun k hk => ?_, by simp [hnext]⟩
  rw [Nat.lt_one_iff.1 hk]; exact quiet_of_run L h.run (by simp [ha])

/-- **One word, as `runStep` says**: the word's stretch, then RUN at the next architectural state. -/
theorem runStep_next (hfit : rdphase < 2 ^ phaseWidth nphases) {σ' : Arch w} {d : Nat} {command : Option Nat}
    (h : At mem s σ) (hs : runStep L mem σ = .next σ' d command) :
    Segment L nphases rdphase (runFrom L mem inp s) d (command.toList.map fun x => (0, x, Isa.readPhase L rdphase x)) ∧
      At mem (runFrom L mem inp s d) σ' := by
  simp only [runStep, ← action_of_at L mem h] at hs
  cases ha : s.action L <;> simp only [ha, reduceCtorEq, Outcome.next.injEq] at hs <;> obtain ⟨rfl, rfl, rfl⟩ := hs
  · exact at_loopJump L mem nphases rdphase inp h ha
  · exact at_loopExit L mem nphases rdphase inp h ha
  · exact at_command L mem nphases rdphase inp hfit h ha

/-- **The end of the program, as `runStep` says**: READY after one quiet cycle. -/
theorem runStep_halt (h : At mem s σ) (hs : runStep L mem σ = .halt) :
    Segment L nphases rdphase (runFrom L mem inp s) 1 [] ∧ (runFrom L mem inp s 1).fsm = .ready := by
  simp only [runStep, ← action_of_at L mem h] at hs
  cases ha : s.action L <;> simp only [ha, reduceCtorEq] at hs
  exact at_terminate L mem nphases rdphase inp h ha

end Word

/-! ## Whole programs -/

/-- **A finished interpretation is a run of the executor.**  From RUN at `σ`, if the interpreter reaches a STOP at
time `t` having sent `cmds`, the executor asserts exactly `cmds`, each at its time and on its phase, stays out of READY
for `t + 1` cycles and is in READY after them. -/
theorem run_refines (hw : 0 < w) (hfit : rdphase < 2 ^ phaseWidth nphases) :
    ∀ (fuel : Nat) (σ : Arch w) (s : State w) (inp : Nat → Input) (r : List (Nat × Nat) × Nat),
      At mem s σ → Isa.run L mem fuel σ = some r →
        Segment L nphases rdphase (runFrom L mem inp s) (r.2 + 1)
            (r.1.map fun p => (p.1, p.2, Isa.readPhase L rdphase p.2)) ∧
          (runFrom L mem inp s (r.2 + 1)).fsm = .ready
  | 0, _, _, _, _, _, hr => by simp [Isa.run] at hr
  | fuel + 1, σ, s, inp, r, h, hr => by
    obtain ⟨hlast, ⟨hs, rfl⟩ | ⟨σ', d, command, r', hs, hr', rfl⟩⟩ := Isa.run_succ_eq_some L mem hr
    · exact runStep_halt L mem nphases rdphase inp h (by rwa [runStep_eq_step L mem hw hlast])
    · obtain ⟨hseg, hat⟩ := runStep_next L mem nphases rdphase inp hfit h (by rwa [runStep_eq_step L mem hw hlast])
      obtain ⟨hseg', hready⟩ := run_refines hw hfit fuel σ' _ (fun k => inp (d + k)) r' hat hr'
      rw [← runFrom_add] at hready
      rw [show r'.2 + d + 1 = d + (r'.2 + 1) by omega]
      refine ⟨?_, hready⟩
      simpa [List.map_map, Function.comp_def] using hseg.runFrom_append L mem nphases rdphase hseg'

/-- **A run's first cycles.**  From its first BUBBLE cycle `b` the executor spends two quiet cycles refilling the
pipeline from address 0, and then executes the word at address 0 with the loop counter it had at `b`. -/
theorem run_start (mems : Nat → Nat → Nat) (inp : Nat → Input) {b : Nat}
    (hwait : (trace w L mems inp (b - 1)).fsm = .waitDfi) (hbub : (trace w L mems inp b).fsm = .bubble)
    (inp' : Nat → Input) :
    Segment L nphases rdphase (runFrom L mem inp' (trace w L mems inp b)) 2 [] ∧
      At mem (runFrom L mem inp' (trace w L mems inp b) 2) ⟨0, (trace w L mems inp b).loopCounter⟩ := by
  obtain ⟨b, rfl⟩ : ∃ b', b = b' + 1 := by
    rcases Nat.eq_zero_or_pos b with rfl | hb
    · exact absurd hbub (by simp [State.init])
    · exact ⟨b - 1, by omega⟩
  simp only [Nat.add_sub_cancel] at hwait
  obtain ⟨hi, hpc, -⟩ := State.step_waitDfi L (mems b) (inp b) _ hwait hbub
  have hpc0 : (trace w L mems inp (b + 1)).programCounter = 0 := hpc.trans (fetcherReset_trace L mems inp b hwait).1
  obtain ⟨hat, hb1⟩ := bubble_refill L mem inp' hbub hi
  rw [hpc0] at hat
  refine ⟨segment_quiet L nphases rdphase fun k hk => ?_, hat⟩
  interval_cases k
  · exact quiet_of_idle_or_bubble L (.inr hbub)
  · exact quiet_of_idle_or_bubble L (.inr hb1)

/-- **The executor implements the interpreter.**  Take a run whose first BUBBLE cycle is `b`, with the payload `mem`
unchanged from `b` until the run ends, a power-of-two number of DFI phases and `rdphase` among them.  If the
interpreter, started at address 0 with the loop counter the executor has at `b`, reaches a STOP at time `tstop` having
sent `cmds` and without reaching the last address, then in cycles `b … b + tstop + 2` the executor asserts exactly
`cmds`, each `2` cycles after its interpreter time and on the interpreter's phase; it stays out of READY in those
cycles, and is in READY at `b + 3 + tstop`. -/
theorem executor_refines_isa (hw : 0 < w) (hpow : ∃ k, nphases = 2 ^ k)
    (hrd : rdphase < nphases) (mems : Nat → Nat → Nat) (inp : Nat → Input) {b : Nat}
    (hwait : (trace w L mems inp (b - 1)).fsm = .waitDfi) (hbub : (trace w L mems inp b).fsm = .bubble)
    {fuel tstop : Nat} {cmds : List (Nat × Nat)}
    (hrun : Isa.run L mem fuel (⟨0, (trace w L mems inp b).loopCounter⟩ : Arch w) = some (cmds, tstop))
    (hmem : ∀ k < tstop + 3, mems (b + k) = mem) :
    issued L nphases rdphase (fun k => trace w L mems inp (b + k)) (tstop + 3) =
        cmds.map (fun p => (p.1 + 2, p.2, Isa.readPhase L rdphase p.2)) ∧
      (∀ k < tstop + 3, (trace w L mems inp (b + k)).fsm ≠ .ready) ∧
      (trace w L mems inp (b + 3 + tstop)).fsm = .ready := by
  obtain ⟨k, hk⟩ := hpow
  have hfit : rdphase < 2 ^ phaseWidth nphases := hk ▸ lt_two_pow_phaseWidth (hk ▸ hrd)
  obtain ⟨hq, hat⟩ := run_start L mem nphases rdphase mems inp hwait hbub fun j => inp (b + j)
  obtain ⟨hseg, hready⟩ := run_refines L mem nphases rdphase hw hfit fuel _ _ (fun j => inp (b + (2 + j))) _ hat hrun
  rw [← runFrom_add L mem fun j => inp (b + j)] at hready
  have hall : Segment L nphases rdphase (runFrom L mem (fun j => inp (b + j)) (trace w L mems inp b)) (tstop + 3)
      (cmds.map fun p => (p.1 + 2, p.2, Isa.readPhase L rdphase p.2)) := by
    simpa [Function.comp_def, Nat.add_comm 2] using hq.runFrom_append L mem nphases rdphase hseg
  obtain ⟨hbusy, hissued⟩ := segment_trace L mem nphases rdphase hmem hall
  refine ⟨hissued, hbusy, ?_⟩
  rw [show b + 3 + tstop = b + (2 + (tstop + 1)) by omega, trace_add_of_mem w L inp hmem _ (by omega)]
  exact hready

end

/-- An ACT with timeslice 1 at address 0, then STOP. -/
def actThenStop (a : Nat) : Nat := if a = 0 then 12 else 0

theorem executor_refines_isa_act_stop :
    let L : Layout := ⟨0, 4, 16, 10, by decide⟩
    let tr := trace 2 L (fun _ => actThenStop) (fun _ => ⟨true, true⟩)
    (tr (2 - 1)).fsm = .waitDfi ∧ (tr 2).fsm = .bubble ∧
      Isa.run L actThenStop 2 (⟨0, (tr 2).loopCounter⟩ : Arch 2) = some ([(0, 12)], 1) ∧
      issued L 1 0 (fun k => tr (2 + k)) (1 + 3) = [(2, 12, 0)] ∧
      (∀ k < 1 + 3, (tr (2 + k)).fsm ≠ .ready) ∧ (tr (2 + 3 + 1)).fsm = .ready := by
  intro L tr
  have hw : (tr (2 - 1)).fsm = .waitDfi := by decide
  have hb : (tr 2).fsm = .bubble := by decide
  have hr : Isa.run L actThenStop 2 (⟨0, (tr 2).loopCounter⟩ : Arch 2) = some ([(0, 12)], 1) := by decide
  exact ⟨hw, hb, hr, executor_refines_isa L actThenStop 1 0 (by decide) ⟨0, rfl⟩ (by decide) _ _ hw hb hr
    fun _ _ => rfl⟩

end PayloadExecutor
