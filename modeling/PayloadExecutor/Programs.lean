import Mathlib
import PayloadExecutor.Refinement
/-!
# Programs — straight-line code, LOOPs and the end of memory

`runStep` at plain addresses: a word at `a` is executed at `BitVec.ofNat w a`, and as long as `a` stays below the last
address the executor walks through memory one word at a time.  `pass` is what a straight run of commands sends, and
`pass_refines` is the executor sending it.  On top of it:

* a LOOP at `a` with count `N` whose body (the `loop_jump` words before it) is plain commands sends the body `N` more
  times, each pass as the first, and then goes on at `a + 1` with the loop counter cleared (`loop_repeats_body`);
* a straight run of commands up to a STOP, or up to the last word, is sent whole up to that word (`straight_run`), so
  the words the host's encoder makes of short DFI commands, followed by a STOP, are sent with the host's timeslices
  (`encoded_payload_runs`), and a LOOP after them over the last `J` of them sends those `N` more times
  (`loop_payload_runs`);
* a payload of plain commands only is sent up to its last word, which the end-of-memory test catches before it is
  sent (`end_of_memory_issues`); and a LOOP in the last word that has counted out leaves `loop_counter` at its count
  when the executor returns to READY.
-/
namespace PayloadExecutor

open Isa (Arch Outcome)

/-! ## Plain addresses -/

theorem ofNat_succ (w a : Nat) : BitVec.ofNat w (a + 1) = BitVec.ofNat w a + 1 := BitVec.ofNat_add a 1

theorem toNat_ofNat_of_lt {w a : Nat} (h : a < 2 ^ w) : (BitVec.ofNat w a).toNat = a := by
  rw [BitVec.toNat_ofNat, Nat.mod_eq_of_lt h]

/-- A jump back by at most the address lands at the difference. -/
theorem ofNat_sub_of_le {w a J : Nat} (h : J ≤ a) (ha : a < 2 ^ w) :
    BitVec.ofNat w a - BitVec.ofNat w J = BitVec.ofNat w (a - J) := by
  rw [BitVec.ofNat_sub_ofNat, Nat.mod_eq_of_lt (by omega : J < 2 ^ w)]
  apply BitVec.eq_of_toNat_eq
  simp only [BitVec.toNat_ofNat]
  rw [show 2 ^ w - J + a = a - J + 2 ^ w by omega, Nat.add_mod_right]

section

variable {w : Nat} (L : Layout) (mem : Nat → Nat)

/-- A word the executor sends as a command: neither STOP nor LOOP. -/
def IsCommand (x : Nat) : Prop := (decode L x).stop = false ∧ (decode L x).opCode ≠ OpCode.loop.value

instance : DecidablePred (IsCommand L) := fun _ => inferInstanceAs (Decidable (_ ∧ _))

/-- A LOOP word. -/
def IsLoop (x : Nat) : Prop := (decode L x).opCode = OpCode.loop.value

instance : DecidablePred (IsLoop L) := fun _ => inferInstanceAs (Decidable (_ = _))

theorem stop_false_of_loop {x : Nat} (hl : IsLoop L x) : (decode L x).stop = false := by
  cases h : (decode L x).stop
  · rfl
  · have := decode_opCode_of_stop L h; simp [IsLoop, this, OpCode.value] at hl

/-- The fetch address of a word below the last address is not the end-of-memory one. -/
theorem toNat_add_two_ne (hw : 0 < w) {a : Nat} (ha : a + 1 < 2 ^ w) :
    (BitVec.ofNat w a + 2).toNat ≠ PIPELINE_DELAY - 1 := by
  rw [show PIPELINE_DELAY - 1 = 1 from rfl, Ne, toNat_add_two_eq_one hw, toNat_ofNat_of_lt (by omega)]; omega

/-- Below the last address a command is sent and the program goes on at the next word. -/
theorem runStep_command (hw : 0 < w) {a lc : Nat} (ha : a + 1 < 2 ^ w) (hc : IsCommand L (mem a)) :
    runStep L mem ⟨BitVec.ofNat w a, lc⟩ =
      .next ⟨BitVec.ofNat w (a + 1), lc⟩ (decode L (mem a)).duration (some (mem a)) := by
  simp only [runStep, toNat_ofNat_of_lt (by omega : a < 2 ^ w),
    runAction_of_command _ _ _ (toNat_add_two_ne hw ha) hc.1 hc.2, ofNat_succ]

/-- Below the last address a LOOP that has counted out clears the counter and falls through. -/
theorem runStep_loopExit (hw : 0 < w) {a : Nat} (ha : a + 1 < 2 ^ w) (hl : IsLoop L (mem a)) :
    runStep L mem ⟨BitVec.ofNat w a, (decode L (mem a)).loopCount⟩ = .next ⟨BitVec.ofNat w (a + 1), 0⟩ 1 none := by
  simp only [runStep, toNat_ofNat_of_lt (by omega : a < 2 ^ w),
    runAction_of_loopExit _ _ (toNat_add_two_ne hw ha) (stop_false_of_loop L hl) hl, ofNat_succ]

/-- A LOOP that has not counted out jumps back `loop_jump` words, wherever it is. -/
theorem runStep_loopJump {a lc : Nat} (ha : a < 2 ^ w) (hl : IsLoop L (mem a)) (hc : lc ≠ (decode L (mem a)).loopCount) :
    runStep L mem ⟨BitVec.ofNat w a, lc⟩ =
      .next ⟨BitVec.ofNat w a - BitVec.ofNat w (decode L (mem a)).loopJump, (lc + 1) % 2 ^ Decoder.LOOP_COUNT⟩ 3 none := by
  simp only [runStep, toNat_ofNat_of_lt ha, runAction_of_loopJump _ _ _ hl hc]

/-- STOP ends the program. -/
theorem runStep_stop {a lc : Nat} (ha : a < 2 ^ w) (hs : (decode L (mem a)).stop = true) :
    runStep L mem ⟨BitVec.ofNat w a, lc⟩ = .halt := by
  have hop : (decode L (mem a)).opCode ≠ OpCode.loop.value := by simp [decode_opCode_of_stop L hs, OpCode.value]
  simp only [runStep, toNat_ofNat_of_lt ha, runAction_of_terminate _ _ _ (.inr hs) (.inl hop)]

/-- At the last address every word but a LOOP still counting ends the program. -/
theorem runStep_last (hw : 0 < w) {lc : Nat}
    (hl : IsLoop L (mem (2 ^ w - 1)) → lc = (decode L (mem (2 ^ w - 1))).loopCount) :
    runStep L mem ⟨BitVec.ofNat w (2 ^ w - 1), lc⟩ = .halt := by
  have hlt : (BitVec.ofNat w (2 ^ w - 1)).toNat = 2 ^ w - 1 :=
    toNat_ofNat_of_lt (by have := @Nat.one_le_two_pow w; omega)
  have hend : (BitVec.ofNat w (2 ^ w - 1) + 2).toNat = PIPELINE_DELAY - 1 := (toNat_add_two_eq_one hw _).2 hlt
  have hc : (decode L (mem (2 ^ w - 1))).opCode ≠ OpCode.loop.value ∨ (decode L (mem (2 ^ w - 1))).loopCount = lc := by
    by_cases h : IsLoop L (mem (2 ^ w - 1))
    · exact .inr (hl h).symm
    · exact .inl h
  simp only [runStep, hlt, runAction_of_terminate _ _ _ (.inl hend) hc]

/-! ## Straight-line code -/

/-- **A straight run of commands**: the words `start, …, start + n - 1` sent one after another, each with its time
from the first, and the time they take together. -/
def pass (start : Nat) : Nat → List (Nat × Nat) × Nat
  | 0 => ([], 0)
  | n + 1 =>
    ((pass start n).1 ++ [((pass start n).2, mem (start + n))],
      (pass start n).2 + (decode L (mem (start + n))).duration)

variable (nphases rdphase : Nat)

theorem segment_zero (tr : Nat → State w) : Segment L nphases rdphase tr 0 [] :=
  ⟨fun _ h => absurd h (Nat.not_lt_zero _), rfl⟩

/-- **The executor sends a straight run of commands as `pass` says**, and then executes the word after it. -/
theorem pass_refines (hw : 0 < w) (hfit : rdphase < 2 ^ phaseWidth nphases) (start lc : Nat) :
    ∀ (n : Nat) (s : State w) (inp : Nat → Input), start + n < 2 ^ w → (∀ k < n, IsCommand L (mem (start + k))) →
      At mem s ⟨BitVec.ofNat w start, lc⟩ →
        Segment L nphases rdphase (runFrom L mem inp s) (pass L mem start n).2
            ((pass L mem start n).1.map fun p => (p.1, p.2, Isa.readPhase L rdphase p.2)) ∧
          At mem (runFrom L mem inp s (pass L mem start n).2) ⟨BitVec.ofNat w (start + n), lc⟩
  | 0, _, _, _, _, h => ⟨segment_zero L nphases rdphase _, h⟩
  | n + 1, s, inp, hn, hc, h => by
    obtain ⟨hseg, hat⟩ := pass_refines hw hfit start lc n s inp (by omega) (fun k hk => hc k (by omega)) h
    obtain ⟨hseg', hat'⟩ := runStep_next L mem nphases rdphase (fun k => inp ((pass L mem start n).2 + k)) hfit hat
      (runStep_command L mem hw (by omega) (hc n (by omega)))
    rw [← runFrom_add, Nat.add_assoc] at hat'
    exact ⟨by simpa [pass] using hseg.runFrom_append L mem nphases rdphase hseg', hat'⟩

/-- `pass` in closed form: word `k` at the sum of the durations before it. -/
theorem pass_eq_prefix_sums {ds : List Nat} (hd : ∀ k (hk : k < ds.length), (decode L (mem k)).duration = ds[k]) :
    ∀ m ≤ ds.length, pass L mem 0 m = ((List.range m).map fun k => ((ds.take k).sum, mem k), (ds.take m).sum)
  | 0, _ => rfl
  | m + 1, hm => by
    rw [pass, pass_eq_prefix_sums hd m (by omega), List.sum_take_succ _ _ (by omega), Nat.zero_add, hd m (by omega)]
    simp [List.range_succ]

/-- A straight run from `start` is one from `0` over the memory moved down by `start`. -/
theorem pass_shift (start : Nat) : ∀ m, pass L mem start m = pass L (fun k => mem (start + k)) 0 m
  | 0 => rfl
  | m + 1 => by simp only [pass, pass_shift start m, Nat.zero_add]

/-! ## LOOPs -/

section Loop

variable {a : Nat}

/-- The body of the LOOP at `a`, the `loop_jump` words before it, as a straight run. -/
def loopBody (a : Nat) : List (Nat × Nat) × Nat :=
  pass L mem (a - (decode L (mem a)).loopJump) (decode L (mem a)).loopJump

/-- **One pass of a LOOP that has not counted out**: the jump's three quiet cycles, then the body, then the LOOP
again with the pass counted. -/
theorem loop_pass (hw : 0 < w) (ha : a < 2 ^ w) (hl : IsLoop L (mem a)) (hJ : (decode L (mem a)).loopJump ≤ a)
    (hbody : ∀ k < (decode L (mem a)).loopJump, IsCommand L (mem (a - (decode L (mem a)).loopJump + k)))
    (hfit : rdphase < 2 ^ phaseWidth nphases) (inp : Nat → Input) {s : State w} {i : Nat}
    (hi : i < (decode L (mem a)).loopCount) (h : At mem s ⟨BitVec.ofNat w a, i⟩) :
    Segment L nphases rdphase (runFrom L mem inp s) (3 + (loopBody L mem a).2)
        ((loopBody L mem a).1.map fun p => (p.1 + 3, p.2, Isa.readPhase L rdphase p.2)) ∧
      At mem (runFrom L mem inp s (3 + (loopBody L mem a).2)) ⟨BitVec.ofNat w a, i + 1⟩ := by
  have hN : (decode L (mem a)).loopCount < 2 ^ Decoder.LOOP_COUNT := Nat.mod_lt _ (by decide)
  obtain ⟨hjump, hat⟩ := runStep_next L mem nphases rdphase inp hfit h (runStep_loopJump L mem ha hl (by omega))
  rw [Nat.mod_eq_of_lt (by omega), ofNat_sub_of_le hJ ha] at hat
  obtain ⟨hseg, hat'⟩ := pass_refines L mem nphases rdphase hw hfit _ _ _ _ (fun k => inp (3 + k)) (by omega) hbody hat
  rw [← runFrom_add, Nat.sub_add_cancel hJ] at hat'
  refine ⟨?_, hat'⟩
  simpa [List.map_map, Function.comp_def, Nat.add_comm 3] using hjump.runFrom_append L mem nphases rdphase hseg

/-- **The passes of a LOOP**: from the LOOP with a cleared counter, `m` passes (for any `m` up to the count) send the
body `m` times, pass `i` moved by `3 + i · (P + 3)` cycles, where `P` is the body's length. -/
theorem loop_passes (hw : 0 < w) (ha : a < 2 ^ w) (hl : IsLoop L (mem a)) (hJ : (decode L (mem a)).loopJump ≤ a)
    (hbody : ∀ k < (decode L (mem a)).loopJump, IsCommand L (mem (a - (decode L (mem a)).loopJump + k)))
    (hfit : rdphase < 2 ^ phaseWidth nphases) (inp : Nat → Input) {s : State w}
    (h : At mem s ⟨BitVec.ofNat w a, 0⟩) : ∀ m ≤ (decode L (mem a)).loopCount,
      Segment L nphases rdphase (runFrom L mem inp s) (m * ((loopBody L mem a).2 + 3))
          ((List.range m).flatMap fun i => (loopBody L mem a).1.map fun p =>
            (p.1 + 3 + i * ((loopBody L mem a).2 + 3), p.2, Isa.readPhase L rdphase p.2)) ∧
        At mem (runFrom L mem inp s (m * ((loopBody L mem a).2 + 3))) ⟨BitVec.ofNat w a, m⟩
  | 0, _ => ⟨by simpa using segment_zero L nphases rdphase _, by simpa using h⟩
  | m + 1, hm => by
    obtain ⟨hseg, hat⟩ := loop_passes hw ha hl hJ hbody hfit inp h m (by omega)
    obtain ⟨hseg', hat'⟩ := loop_pass L mem nphases rdphase hw ha hl hJ hbody hfit
      (fun k => inp (m * ((loopBody L mem a).2 + 3) + k)) (by omega) hat
    rw [← runFrom_add] at hat'
    have e : (m + 1) * ((loopBody L mem a).2 + 3) = m * ((loopBody L mem a).2 + 3) + (3 + (loopBody L mem a).2) := by
      ring
    rw [e]
    refine ⟨?_, hat'⟩
    convert hseg.runFrom_append L mem nphases rdphase hseg' using 1
    simp only [List.range_succ, List.flatMap_append, List.flatMap_singleton, List.append_nil, List.map_map]
    congr 1

/-- **A LOOP repeats its body `count` more times.**  Let the payload hold `mem` from reset on, and let the executor, in
RUN at cycle `c`, decode the LOOP at `a < 2^w - 2` (the program counter two words on) with `loop_counter = 0`, its
`loop_jump` `J ≤ a` and its body, the words `a - J … a - 1`, plain commands.  In the `N · (P + 3) + 1` cycles from `c`
(`N` the count, `P` the body's length) the executor stays out of READY and sends the body `N` times, pass `i` with the
body's own timing moved by `3 + i · (P + 3)` cycles; then it executes the word at `a + 1` with `loop_counter = 0`. -/
theorem loop_repeats_body {a : Nat} (ha : a + 2 < 2 ^ w) (hl : IsLoop L (mem a))
    (hJ : (decode L (mem a)).loopJump ≤ a)
    (hbody : ∀ k < (decode L (mem a)).loopJump, IsCommand L (mem (a - (decode L (mem a)).loopJump + k)))
    (mems : Nat → Nat → Nat) (inp : Nat → Input) (hheld : PayloadHeld w L mems inp) {c : Nat} (hc : mems c = mem)
    (hrun : (trace w L mems inp c).fsm = .run) (hpc : (trace w L mems inp c).programCounter = BitVec.ofNat w (a + 2))
    (hlc : (trace w L mems inp c).loopCounter = 0) :
    let N := (decode L (mem a)).loopCount
    let P := (loopBody L mem a).2
    let tr := fun k => trace w L mems inp (c + k)
    sent L tr (N * (P + 3) + 1) =
        (List.range N).flatMap (fun i => (loopBody L mem a).1.map fun p => (p.1 + 3 + i * (P + 3), p.2)) ∧
      (∀ k < N * (P + 3) + 1, (tr k).fsm ≠ .ready) ∧
      At mem (tr (N * (P + 3) + 1)) ⟨BitVec.ofNat w (a + 1), 0⟩ := by
  intro N P tr
  have hw : 0 < w := Nat.pos_of_ne_zero (by rintro rfl; simp at ha)
  have hfit : 0 < 2 ^ phaseWidth 1 := Nat.two_pow_pos _
  have hinv := pipelineInv_trace L mems inp hheld c
  rw [hc] at hinv
  have hat := at_of_full mem hrun (full_of_pipelineInv mem (.inl hrun) hinv)
  rw [hpc, hlc, BitVec.ofNat_add, ofNat_two, add_sub_cancel_right] at hat
  obtain ⟨hseg, hat'⟩ := loop_passes L mem 1 0 hw (by omega) hl hJ hbody hfit (fun j => inp (c + j)) hat N le_rfl
  obtain ⟨hexit, hat''⟩ := runStep_next L mem 1 0 _ hfit hat' (runStep_loopExit L mem hw (by omega) hl)
  rw [← runFrom_add L mem (fun j => inp (c + j))] at hat''
  have hall := hseg.runFrom_append L mem 1 0 hexit
  -- the loop keeps the executor out of READY, so the host cannot rewrite the payload under it
  have hbusy : ∀ k ≤ N * (P + 3) + 1,
      (runFrom L (mems c) (fun j => inp (c + j)) (trace w L mems inp c) k).fsm ≠ .ready := by
    intro k hk
    rw [hc]
    rcases Nat.lt_or_eq_of_le hk with h | rfl
    · exact hall.busy k h
    · rw [hat''.run]; decide
  have htr := trace_add_of_mem w L inp (n := N * (P + 3) + 1)
    fun k hk => (held_of_busy w L hheld c _ hbusy k hk.le).trans hc
  refine ⟨?_, fun k hk => ?_, ?_⟩
  · rw [sent_eq_issued L 1 0, issued_congr L 1 0 fun k hk => htr k hk.le, hall.issued]
    simp [List.map_flatMap, Function.comp_def]
  · simpa only [tr, htr k hk.le] using hall.busy k hk
  · simpa only [tr, htr _ le_rfl] using hat''

end Loop

end

/-- An ACT, then a LOOP over it with count 1, then STOP. -/
def actLoopOnce (a : Nat) : Nat := if a = 0 then 12 else if a = 1 then 32783 else 0

/-- The host loads the program over a payload of zeros in READY, in cycle 1, and starts it then: the LOOP, executed in
cycle 6, sends the ACT once more, three cycles later. -/
theorem loop_repeats_body_act_once :
    let L : Layout := ⟨0, 4, 16, 10, by decide⟩
    let mems : Nat → Nat → Nat := fun t => if t = 0 then fun _ => 0 else actLoopOnce
    let inp : Nat → Input := fun t => ⟨t == 1, true⟩
    let tr := fun k => trace 2 L mems inp (6 + k)
    loopBody L actLoopOnce 1 = ([(0, 12)], 1) ∧ (decode L (actLoopOnce 1)).loopCount = 1 ∧
      sent L tr 5 = [(3, 12)] ∧ (∀ k < 5, (tr k).fsm ≠ .ready) ∧ At actLoopOnce (tr 5) ⟨BitVec.ofNat 2 (1 + 1), 0⟩ := by
  intro L mems inp tr
  have hb : loopBody L actLoopOnce 1 = ([(0, 12)], 1) := by decide
  have hn : (decode L (actLoopOnce 1)).loopCount = 1 := by decide
  have hheld : PayloadHeld 2 L mems inp
    | 0, h => absurd (by decide) h
    | _ + 1, _ => by simp [mems]
  have h := loop_repeats_body L actLoopOnce (by decide : 1 + 2 < 2 ^ 2) (by decide) (by decide) (by decide)
    mems inp hheld (c := 6) rfl (by decide) (by decide) (by decide)
  simp only [hb, hn] at h
  exact ⟨hb, hn, h⟩

/-! ## The end of memory -/

section

variable {w : Nat} (L : Layout) (mem : Nat → Nat)

/-- **A straight run of commands, on the DFI phases.**  Take a run whose first BUBBLE cycle is `b`, over a payload
whose words `0 … n - 1` are commands and whose word `n` ends the program, unchanged from `b` until the run ends, and a
READ phase that fits the phase signal.  The executor asserts the words `0 … n - 1` as one straight run starting `2`
cycles after `b`, each on the specification's phase, stays out of READY meanwhile, and is in READY the cycle after it
decodes word `n`. -/
theorem straight_run_issued (nphases rdphase : Nat) (hw : 0 < w) (hfit : rdphase < 2 ^ phaseWidth nphases) {n : Nat}
    (hn : n < 2 ^ w) (hcmd : ∀ k < n, IsCommand L (mem k))
    (hhalt : ∀ lc, runStep L mem ⟨BitVec.ofNat w n, lc⟩ = .halt) (mems : Nat → Nat → Nat) (inp : Nat → Input) {b : Nat}
    (hwait : (trace w L mems inp (b - 1)).fsm = .waitDfi) (hbub : (trace w L mems inp b).fsm = .bubble)
    (hmem : ∀ k < (pass L mem 0 n).2 + 3, mems (b + k) = mem) :
    issued L nphases rdphase (fun k => trace w L mems inp (b + k)) ((pass L mem 0 n).2 + 3) =
        (pass L mem 0 n).1.map (fun p => (p.1 + 2, p.2, Isa.readPhase L rdphase p.2)) ∧
      (∀ k < (pass L mem 0 n).2 + 3, (trace w L mems inp (b + k)).fsm ≠ .ready) ∧
      (trace w L mems inp (b + ((pass L mem 0 n).2 + 3))).fsm = .ready := by
  obtain ⟨hq, hat⟩ := run_start L mem nphases rdphase mems inp hwait hbub fun j => inp (b + j)
  obtain ⟨hseg, hat'⟩ := pass_refines L mem nphases rdphase hw hfit 0 _ n _ (fun j => inp (b + (2 + j))) (by omega)
    (fun k hk => by simpa using hcmd k hk) hat
  rw [← runFrom_add L mem fun j => inp (b + j), Nat.zero_add] at hat'
  obtain ⟨hlast, hready⟩ :=
    runStep_halt L mem nphases rdphase (fun j => inp (b + (2 + (pass L mem 0 n).2 + j))) hat' (hhalt _)
  rw [← runFrom_add L mem fun j => inp (b + j)] at hready
  have hall : Segment L nphases rdphase (runFrom L mem (fun j => inp (b + j)) (trace w L mems inp b))
      ((pass L mem 0 n).2 + 3) ((pass L mem 0 n).1.map fun p => (p.1 + 2, p.2, Isa.readPhase L rdphase p.2)) := by
    simpa [Function.comp_def, Nat.add_comm 2] using
      (hq.runFrom_append L mem nphases rdphase hseg).runFrom_append L mem nphases rdphase hlast
  obtain ⟨hbusy, hissued⟩ := segment_trace L mem nphases rdphase hmem hall
  refine ⟨hissued, hbusy, ?_⟩
  rw [trace_add_of_mem w L inp hmem _ le_rfl, show (pass L mem 0 n).2 + 3 = 2 + (pass L mem 0 n).2 + 1 by omega]
  exact hready

/-- **A straight run of commands up to a word that ends the program.**  Take a run whose first BUBBLE cycle is `b`,
over a payload whose words `0 … n - 1` are commands and whose word `n` ends the program, unchanged from `b` until the
run ends.  The executor sends the words `0 … n - 1` as one straight run starting `2` cycles after `b`, stays out of
READY meanwhile, and is in READY the cycle after it decodes word `n`. -/
theorem straight_run (hw : 0 < w) {n : Nat} (hn : n < 2 ^ w) (hcmd : ∀ k < n, IsCommand L (mem k))
    (hhalt : ∀ lc, runStep L mem ⟨BitVec.ofNat w n, lc⟩ = .halt) (mems : Nat → Nat → Nat) (inp : Nat → Input) {b : Nat}
    (hwait : (trace w L mems inp (b - 1)).fsm = .waitDfi) (hbub : (trace w L mems inp b).fsm = .bubble)
    (hmem : ∀ k < (pass L mem 0 n).2 + 3, mems (b + k) = mem) :
    sent L (fun k => trace w L mems inp (b + k)) ((pass L mem 0 n).2 + 3) =
        (pass L mem 0 n).1.map (fun p => (p.1 + 2, p.2)) ∧
      (∀ k < (pass L mem 0 n).2 + 3, (trace w L mems inp (b + k)).fsm ≠ .ready) ∧
      (trace w L mems inp (b + ((pass L mem 0 n).2 + 3))).fsm = .ready := by
  obtain ⟨hissued, hbusy, hready⟩ :=
    straight_run_issued L mem 1 0 hw (Nat.two_pow_pos _) hn hcmd hhalt mems inp hwait hbub hmem
  exact ⟨by rw [sent_eq_issued L 1 0, hissued]; simp [Function.comp_def], hbusy, hready⟩

/-- **A payload of commands only is sent up to its second-to-last word.**  Take a run whose first BUBBLE cycle is `b`,
over a payload of `2^w` words none of which is a STOP or a LOOP, unchanged from `b` until the run ends.  The executor
sends the words `0 … 2^w - 2` as one straight run starting `2` cycles after `b`, stays out of READY meanwhile, and is
in READY the cycle after it decodes the last word, which it never sends: RUN's end-of-memory test sees the fetch address
wrap to `PIPELINE_DELAY - 1` while that word is decoded. -/
theorem end_of_memory_issues (hw : 0 < w) (hcmd : ∀ x < 2 ^ w, IsCommand L (mem x)) (mems : Nat → Nat → Nat)
    (inp : Nat → Input) {b : Nat} (hwait : (trace w L mems inp (b - 1)).fsm = .waitDfi)
    (hbub : (trace w L mems inp b).fsm = .bubble)
    (hmem : ∀ k < (pass L mem 0 (2 ^ w - 1)).2 + 3, mems (b + k) = mem) :
    sent L (fun k => trace w L mems inp (b + k)) ((pass L mem 0 (2 ^ w - 1)).2 + 3) =
        (pass L mem 0 (2 ^ w - 1)).1.map (fun p => (p.1 + 2, p.2)) ∧
      (∀ k < (pass L mem 0 (2 ^ w - 1)).2 + 3, (trace w L mems inp (b + k)).fsm ≠ .ready) ∧
      (trace w L mems inp (b + ((pass L mem 0 (2 ^ w - 1)).2 + 3))).fsm = .ready := by
  have hpos := @Nat.one_le_two_pow w
  exact straight_run L mem hw (by omega) (fun k _ => hcmd k (by omega))
    (fun _ => runStep_last L mem hw fun h => absurd h (hcmd _ (by omega)).2) mems inp hwait hbub hmem

/-- **A payload the host encodes runs with the host's timing.**  Take DFI commands of at most 31 cycles each that the
encoder's `__init__` accepted, fewer than `2^w` of them, and a payload memory holding the words `encode_payload` makes of
them followed by a STOP, unchanged from the run's first BUBBLE cycle `b` until it ends.  The executor sends the `k`-th
word `2` cycles after `b` plus the timeslices of the commands before it, stays out of READY meanwhile, and is in READY
`3` cycles after the last command's time is up. -/
theorem encoded_payload_runs (hw : 0 < w) (instrs : List Instruction)
    (hdfi : ∀ ins ∈ instrs, ∃ op kw, op.isDfi ∧ kw.timeslice.getD 0 ≤ 2 ^ Decoder.TIMESLICE - 1 ∧
      Instruction.init op kw = .ok ins)
    (hfit : instrs.length < 2 ^ w) (hload : ∀ k ≤ instrs.length, mem k = (Encoder.encodePayload instrs ++ [0]).getD k 0)
    (mems : Nat → Nat → Nat) (inp : Nat → Input) {b : Nat} (hwait : (trace w L mems inp (b - 1)).fsm = .waitDfi)
    (hbub : (trace w L mems inp b).fsm = .bubble)
    (hmem : ∀ k < (instrs.map fun ins => ins.kwargs.timeslice.getD 0).sum + 3, mems (b + k) = mem) :
    let times := instrs.map fun ins => ins.kwargs.timeslice.getD 0
    sent L (fun k => trace w L mems inp (b + k)) (times.sum + 3) =
        (List.range instrs.length).map (fun k => ((times.take k).sum + 2, (Encoder.encodePayload instrs).getD k 0)) ∧
      (∀ k < times.sum + 3, (trace w L mems inp (b + k)).fsm ≠ .ready) ∧
      (trace w L mems inp (b + (times.sum + 3))).fsm = .ready := by
  intro times
  obtain ⟨hlen, hword⟩ := encodePayload_short L hdfi
  have hmemk : ∀ k < instrs.length, mem k = (Encoder.encodePayload instrs).getD k 0 := fun k hk => by
    rw [hload k hk.le, List.getD_append _ _ _ _ (by omega)]
  have hstop : (decode L (mem instrs.length)).stop = true := by
    rw [hload _ le_rfl, List.getD_append_right _ _ _ _ (by omega), hlen, Nat.sub_self]; rfl
  have hd : ∀ k (hk : k < times.length), (decode L (mem k)).duration = times[k] := fun k hk => by
    simp only [times, List.length_map] at hk
    rw [hmemk k hk, (hword k hk).2.2, List.getElem_map]
  have hpass := pass_eq_prefix_sums L mem hd instrs.length (by simp [times])
  have htotal : (times.take instrs.length).sum = times.sum := by
    rw [show instrs.length = times.length by simp [times], List.take_length]
  obtain ⟨hsent, hbusy, hready⟩ := straight_run L mem hw hfit
    (fun k hk => by rw [hmemk k hk]; exact ⟨(hword k hk).2.1, (hword k hk).1⟩)
    (fun _ => runStep_stop L mem hfit hstop) mems inp hwait hbub (by rw [hpass, htotal]; exact hmem)
  rw [hpass, htotal] at hsent hbusy hready
  refine ⟨?_, hbusy, hready⟩
  rw [hsent, List.map_map]
  exact List.map_congr_left fun k hk => by simp [hmemk k (List.mem_range.1 hk)]

end

/-! ## A payload with a LOOP -/

section

variable {w : Nat} (L : Layout) (mem : Nat → Nat)

/-- **Commands, a LOOP over the last of them, and a STOP, on the DFI phases.**  Take a run whose first BUBBLE cycle is
`b`, with `loop_counter = 0` there, over a payload whose words `0 … n - 1` are commands, whose word `n < 2^w - 2` is a
LOOP with `loop_jump` `J ≤ n` and count `N`, and whose word `n + 1` ends the program, unchanged from `b` until the run
ends.  The executor asserts the words `0 … n - 1` as one straight run starting `2` cycles after `b`, then the body
`n - J … n - 1` `N` more times, pass `i` moved by `5 + S + i · (P + 3)` cycles (`S` the length of the first run, `P`
the body's); it stays out of READY meanwhile and is in READY `4` cycles after the last pass. -/
theorem loop_run_issued (nphases rdphase : Nat) (hw : 0 < w) (hfit : rdphase < 2 ^ phaseWidth nphases) {n : Nat}
    (hn : n + 2 < 2 ^ w) (hcmd : ∀ k < n, IsCommand L (mem k)) (hl : IsLoop L (mem n))
    (hJ : (decode L (mem n)).loopJump ≤ n) (hhalt : ∀ lc, runStep L mem ⟨BitVec.ofNat w (n + 1), lc⟩ = .halt)
    (mems : Nat → Nat → Nat) (inp : Nat → Input) {b : Nat}
    (hwait : (trace w L mems inp (b - 1)).fsm = .waitDfi) (hbub : (trace w L mems inp b).fsm = .bubble)
    (hlc : (trace w L mems inp b).loopCounter = 0)
    (hmem : ∀ k < (pass L mem 0 n).2 + (decode L (mem n)).loopCount * ((loopBody L mem n).2 + 3) + 4,
      mems (b + k) = mem) :
    let S := (pass L mem 0 n).2
    let N := (decode L (mem n)).loopCount
    let P := (loopBody L mem n).2
    issued L nphases rdphase (fun k => trace w L mems inp (b + k)) (S + N * (P + 3) + 4) =
        (pass L mem 0 n).1.map (fun p => (p.1 + 2, p.2, Isa.readPhase L rdphase p.2)) ++
          (List.range N).flatMap (fun i => (loopBody L mem n).1.map fun p =>
            (p.1 + S + 5 + i * (P + 3), p.2, Isa.readPhase L rdphase p.2)) ∧
      (∀ k < S + N * (P + 3) + 4, (trace w L mems inp (b + k)).fsm ≠ .ready) ∧
      (trace w L mems inp (b + (S + N * (P + 3) + 4))).fsm = .ready := by
  intro S N P
  let run := runFrom L mem (fun j => inp (b + j)) (trace w L mems inp b)
  -- the two BUBBLE cycles, the words before the LOOP, the LOOP's passes, its exit, and the STOP
  obtain ⟨hq, hat⟩ := run_start L mem nphases rdphase mems inp hwait hbub fun j => inp (b + j)
  rw [hlc] at hat
  obtain ⟨hseg, hat⟩ := pass_refines L mem nphases rdphase hw hfit 0 0 n _ (fun j => inp (b + (2 + j))) (by omega)
    (fun k hk => by simpa using hcmd k hk) hat
  rw [← runFrom_add L mem fun j => inp (b + j), Nat.zero_add] at hat
  obtain ⟨hloop, hat⟩ := loop_passes L mem nphases rdphase hw (by omega) hl hJ (fun k hk => hcmd _ (by omega)) hfit
    (fun j => inp (b + (2 + S + j))) hat N le_rfl
  rw [← runFrom_add L mem fun j => inp (b + j)] at hat
  obtain ⟨hexit, hat⟩ := runStep_next L mem nphases rdphase (fun j => inp (b + (2 + S + N * (P + 3) + j))) hfit hat
    (runStep_loopExit L mem hw (by omega) hl)
  rw [← runFrom_add L mem fun j => inp (b + j)] at hat
  obtain ⟨hlast, hready⟩ := runStep_halt L mem nphases rdphase
    (fun j => inp (b + (2 + S + N * (P + 3) + 1 + j))) hat (hhalt _)
  rw [← runFrom_add L mem fun j => inp (b + j)] at hready
  have hall : Segment L nphases rdphase run (S + N * (P + 3) + 4)
      ((pass L mem 0 n).1.map (fun p => (p.1 + 2, p.2, Isa.readPhase L rdphase p.2)) ++
          (List.range N).flatMap (fun i => (loopBody L mem n).1.map fun p =>
            (p.1 + S + 5 + i * (P + 3), p.2, Isa.readPhase L rdphase p.2))) := by
    have := (((hq.runFrom_append L mem nphases rdphase hseg).runFrom_append L mem nphases rdphase hloop).runFrom_append
      L mem nphases rdphase hexit).runFrom_append L mem nphases rdphase hlast
    rw [show 2 + S + N * (P + 3) + 1 + 1 = S + N * (P + 3) + 4 by omega] at this
    convert this using 1
    simp only [List.map_map, Function.comp_def, Prod.map_apply, id_eq, List.nil_append, List.map_flatMap,
      Option.toList_none, List.map_nil, List.append_nil, List.append_cancel_left_eq]
    refine congrArg _ (funext fun i => congrArg (List.map · _) (funext fun p => ?_))
    simp only [S, P, Prod.mk.injEq, and_true]
    omega
  obtain ⟨hbusy, hissued⟩ := segment_trace L mem nphases rdphase hmem hall
  refine ⟨hissued, hbusy, ?_⟩
  rw [trace_add_of_mem w L inp hmem _ le_rfl, show S + N * (P + 3) + 4 = 2 + S + N * (P + 3) + 1 + 1 by omega]
  exact hready

/-- **A LOOP the host writes after its commands repeats the last `J` of them `N` more times.**  Take DFI commands of
at most 31 cycles each that the encoder's `__init__` accepted, then `I(LOOP, count=N, jump=J)` with `J` at most the
number of commands and within its 17 bits, encoded with a STOP after them into a payload of fewer than `2^w - 1` words,
unchanged from the run's first BUBBLE cycle `b`, with `loop_counter = 0` there.  The executor sends the commands with
the host's timeslices from `2` cycles after `b`, then the last `J` of them `N` more times, each pass with their own
timeslices and `3` cycles apart, stays out of READY meanwhile, and is in READY `4` cycles after the last pass.  The
commands before those `J` are sent once. -/
theorem loop_payload_runs (hw : 0 < w) (instrs : List Instruction)
    (hdfi : ∀ ins ∈ instrs, ∃ op kw, op.isDfi ∧ kw.timeslice.getD 0 ≤ 2 ^ Decoder.TIMESLICE - 1 ∧
      Instruction.init op kw = .ok ins)
    {N J : Nat} {loop : Instruction} (hloop : Instruction.init .loop { count := some N, jump := some J } = .ok loop)
    (hJ : J ≤ instrs.length) (hJw : J < 2 ^ Decoder.LOOP_JUMP) (hfit : instrs.length + 2 < 2 ^ w)
    (hload : ∀ k ≤ instrs.length + 1, mem k = (Encoder.encodePayload (instrs ++ [loop]) ++ [0]).getD k 0)
    (mems : Nat → Nat → Nat) (inp : Nat → Input) {b : Nat} (hwait : (trace w L mems inp (b - 1)).fsm = .waitDfi)
    (hbub : (trace w L mems inp b).fsm = .bubble) (hlc : (trace w L mems inp b).loopCounter = 0)
    (hmem : ∀ k < (instrs.map fun ins => ins.kwargs.timeslice.getD 0).sum +
      N * (((instrs.map fun ins => ins.kwargs.timeslice.getD 0).drop (instrs.length - J)).sum + 3) + 4,
      mems (b + k) = mem) :
    let times := instrs.map fun ins => ins.kwargs.timeslice.getD 0
    let body := times.drop (instrs.length - J)
    let word := fun k => (Encoder.encodePayload instrs).getD k 0
    sent L (fun k => trace w L mems inp (b + k)) (times.sum + N * (body.sum + 3) + 4) =
        (List.range instrs.length).map (fun k => ((times.take k).sum + 2, word k)) ++
          (List.range N).flatMap (fun i => (List.range J).map fun j =>
            ((body.take j).sum + times.sum + 5 + i * (body.sum + 3), word (instrs.length - J + j))) ∧
      (∀ k < times.sum + N * (body.sum + 3) + 4, (trace w L mems inp (b + k)).fsm ≠ .ready) ∧
      (trace w L mems inp (b + (times.sum + N * (body.sum + 3) + 4))).fsm = .ready := by
  intro times body word
  obtain ⟨hlen, hword⟩ := encodePayload_short L hdfi
  obtain ⟨count, jump, hc, hj, hN, hspec⟩ := Instruction.init_loop hloop
  cases hc; cases hj
  -- the payload: the commands, the LOOP word, the STOP
  have hpay : Encoder.encodePayload (instrs ++ [loop]) ++ [0] = Encoder.encodePayload instrs ++
      [Encoder.packed [(Decoder.OP_CODE, OpCode.loop.value), (Decoder.LOOP_COUNT, N), (Decoder.LOOP_JUMP, J)], 0] := by
    simp [Encoder.encodePayload, List.flatMap_append, hspec, Encoder.encodeSpec_single]
  rw [hpay] at hload
  have hmemk : ∀ k < instrs.length, mem k = word k := fun k hk => by
    rw [hload k (by omega), List.getD_append _ _ _ _ (by omega)]
  have hloopw : mem instrs.length =
      Encoder.packed [(Decoder.OP_CODE, OpCode.loop.value), (Decoder.LOOP_COUNT, N), (Decoder.LOOP_JUMP, J)] := by
    rw [hload _ (by omega), List.getD_append_right _ _ _ _ (by omega), hlen, Nat.sub_self]; rfl
  have hstop : (decode L (mem (instrs.length + 1))).stop = true := by
    rw [hload _ le_rfl, List.getD_append_right _ _ _ _ (by omega), hlen, Nat.add_sub_cancel_left,
      List.getD_cons_succ, List.getD_cons_zero]
    rfl
  obtain ⟨hop, hcount, hjump⟩ := decode_loop_word L hN J
  rw [Nat.mod_eq_of_lt hJw, ← hloopw] at hjump
  rw [← hloopw] at hop hcount
  have hd : ∀ k (hk : k < times.length), (decode L (mem k)).duration = times[k] := fun k hk => by
    simp only [times, List.length_map] at hk
    rw [hmemk k hk, (hword k hk).2.2, List.getElem_map]
  have hpass := pass_eq_prefix_sums L mem hd instrs.length (by simp [times])
  have htotal : (times.take instrs.length).sum = times.sum := by
    rw [show instrs.length = times.length by simp [times], List.take_length]
  -- the body: the last `J` commands, with their own durations
  have hbody : loopBody L mem instrs.length =
      ((List.range J).map fun j => ((body.take j).sum, mem (instrs.length - J + j)), body.sum) := by
    have hdb : ∀ k (hk : k < body.length), (decode L (mem (instrs.length - J + k))).duration = body[k] :=
      fun k hk => by
        simp only [body, List.length_drop, times, List.length_map] at hk
        rw [hd _ (by simp only [times, List.length_map]; omega)]
        simp only [body, List.getElem_drop]
    have hblen : body.length = J := by simp only [body, times, List.length_drop, List.length_map]; omega
    rw [loopBody, hjump, pass_shift, pass_eq_prefix_sums L _ hdb J hblen.ge, ← hblen, List.take_length]
  have hcmd : ∀ k < instrs.length, IsCommand L (mem k) := fun k hk => by
    rw [hmemk k hk]; exact ⟨(hword k hk).2.1, (hword k hk).1⟩
  obtain ⟨hissued, hbusy, hready⟩ := loop_run_issued L mem 1 0 hw (Nat.two_pow_pos _) hfit hcmd hop
    (by rw [hjump]; exact hJ) (fun _ => runStep_stop L mem (by omega) hstop) mems inp hwait hbub hlc
    (by rw [hpass, htotal, hcount, hbody]; exact hmem)
  simp only [hpass, htotal, hcount, hbody] at hissued hbusy hready
  refine ⟨?_, hbusy, hready⟩
  rw [sent_eq_issued L 1 0, hissued]
  simp only [List.map_append, List.map_map, List.map_flatMap, Function.comp_def]
  congr 1
  · exact List.map_congr_left fun k hk => by rw [hmemk k (List.mem_range.1 hk)]
  · exact congrArg _ (funext fun i => List.map_congr_left fun j hj => by
      rw [hmemk _ (by have := List.mem_range.1 hj; omega)])

end

/-- An ACT and a PRE of one cycle each to address `0x10`, as the host's encoder makes them. -/
def actPreShort : List Instruction :=
  [Instruction.dfi .act { timeslice := some 1, address := some 0x10 } 1,
    Instruction.dfi .pre { timeslice := some 1, address := some 0x10 } 1]

/-- The spec's simple loop, `[ACT, PRE, LOOP(count=9, jump=1), STOP]`: the jump of one word repeats the PRE alone, so
the run sends one ACT and then ten PREs. -/
theorem loop_payload_runs_simple_loop :
    let L : Layout := ⟨0, 4, 16, 10, by decide⟩
    let loop : Instruction := ⟨.loop, { count := some 9, jump := some 1 },
      [(Decoder.OP_CODE, OpCode.loop.value), (Decoder.LOOP_COUNT, 9), (Decoder.LOOP_JUMP, 1)], none⟩
    let mem := fun a => (Encoder.encodePayload (actPreShort ++ [loop]) ++ [0]).getD a 0
    Encoder.encodePayload actPreShort = [4108, 4109] ∧
      (sent L (fun k => trace 3 L (fun _ => mem) (fun _ => ⟨true, true⟩) (2 + k)) 42).map Prod.snd =
        4108 :: List.replicate 10 4109 ∧
      (trace 3 L (fun _ => mem) (fun _ => ⟨true, true⟩) (2 + 42)).fsm = .ready := by
  intro L loop mem
  have hdfi : ∀ ins ∈ actPreShort, ∃ op kw, op.isDfi ∧ kw.timeslice.getD 0 ≤ 2 ^ Decoder.TIMESLICE - 1 ∧
      Instruction.init op kw = .ok ins := by
    intro ins hins
    simp only [actPreShort, List.mem_cons, List.mem_singleton, List.not_mem_nil, or_false] at hins
    rcases hins with rfl | rfl
    · exact ⟨.act, { timeslice := some 1, address := some 0x10 }, rfl, by decide, rfl⟩
    · exact ⟨.pre, { timeslice := some 1, address := some 0x10 }, rfl, by decide, rfl⟩
  obtain ⟨hsent, -, hready⟩ := @loop_payload_runs 3 L mem (by decide) actPreShort hdfi 9 1 loop rfl (by decide)
    (by decide) (by decide) (fun _ _ => rfl) (fun _ => mem) (fun _ => ⟨true, true⟩) 2 (by decide) (by decide) (by decide)
    fun _ _ => rfl
  exact ⟨by decide, (congrArg (List.map Prod.snd) hsent).trans (by decide), hready⟩

/-- An ACT of two cycles to address `0x10`, then a PRE of one cycle, as the host's encoder makes them. -/
def actPre : List Instruction :=
  [Instruction.dfi .act { timeslice := some 2, address := some 0x10 } 2,
    Instruction.dfi .pre { timeslice := some 1, address := some 0 } 1]

theorem encoded_payload_runs_act_pre :
    let L : Layout := ⟨0, 4, 16, 10, by decide⟩
    let mem := fun a => (Encoder.encodePayload actPre ++ [0]).getD a 0
    let tr := trace 2 L (fun _ => mem) (fun _ => ⟨true, true⟩)
    let times := actPre.map fun ins => ins.kwargs.timeslice.getD 0
    Encoder.encodePayload actPre = [4116, 13] ∧ (tr (2 - 1)).fsm = .waitDfi ∧ (tr 2).fsm = .bubble ∧
      sent L (fun k => tr (2 + k)) (times.sum + 3) =
        (List.range actPre.length).map (fun k => ((times.take k).sum + 2, (Encoder.encodePayload actPre).getD k 0)) ∧
      (∀ k < times.sum + 3, (tr (2 + k)).fsm ≠ .ready) ∧ (tr (2 + (times.sum + 3))).fsm = .ready := by
  intro L mem tr times
  have hdfi : ∀ ins ∈ actPre, ∃ op kw, op.isDfi ∧ kw.timeslice.getD 0 ≤ 2 ^ Decoder.TIMESLICE - 1 ∧
      Instruction.init op kw = .ok ins := by
    intro ins hins
    simp only [actPre, List.mem_cons, List.mem_singleton, List.not_mem_nil, or_false] at hins
    rcases hins with rfl | rfl
    · exact ⟨.act, { timeslice := some 2, address := some 0x10 }, rfl, by decide, rfl⟩
    · exact ⟨.pre, { timeslice := some 1, address := some 0 }, rfl, by decide, rfl⟩
  exact ⟨by decide, by decide, by decide, encoded_payload_runs L mem (by decide) actPre hdfi (by decide) (fun _ _ => rfl)
    _ _ (by decide) (by decide) fun _ _ => rfl⟩

/-- Four one-cycle ACTs, to addresses 0 … 3. -/
def countingActs (a : Nat) : Nat := 12 + 256 * a

theorem end_of_memory_issues_counting_acts :
    let L : Layout := ⟨0, 4, 16, 10, by decide⟩
    let tr := trace 2 L (fun _ => countingActs) (fun _ => ⟨true, true⟩)
    pass L countingActs 0 (2 ^ 2 - 1) = ([(0, 12), (1, 268), (2, 524)], 3) ∧
      sent L (fun k => tr (2 + k)) 6 = [(2, 12), (3, 268), (4, 524)] ∧
      (∀ k < 6, (tr (2 + k)).fsm ≠ .ready) ∧ (tr (2 + 6)).fsm = .ready := by
  intro L tr
  have hp : pass L countingActs 0 (2 ^ 2 - 1) = ([(0, 12), (1, 268), (2, 524)], 3) := by decide
  have h := end_of_memory_issues L countingActs (by decide) (by decide) _ (fun _ => ⟨true, true⟩)
    (by decide : (tr (2 - 1)).fsm = .waitDfi) (by decide : (tr 2).fsm = .bubble) fun _ _ => rfl
  simp only [hp] at h
  exact ⟨hp, h⟩

/-- Three one-cycle ACTs, to addresses 0 … 2, and in the last word a LOOP with count 1 over the third. -/
def actsThenLoop (a : Nat) : Nat := if a < 3 then 12 + 256 * a else 32783

/-- **A LOOP in the last word leaves its count in `loop_counter`.**  The first run sends the third ACT twice and ends
at the end of memory on the LOOP's last pass, in READY with `loop_counter = 1`; the second run, over the same payload
and inputs, starts from that counter and sends the third ACT once. -/
theorem loop_counter_survives_run :
    let L : Layout := ⟨0, 4, 16, 10, by decide⟩
    let tr := trace 2 L (fun _ => actsThenLoop) (fun _ => ⟨true, true⟩)
    (tr 12).fsm = .ready ∧ (tr 12).loopCounter = 1 ∧
      sent L tr 12 = [(4, 12), (5, 268), (6, 524), (10, 524)] ∧
      sent L (fun k => tr (12 + k)) 9 = [(4, 12), (5, 268), (6, 524)] ∧ (tr 20).fsm = .ready := by
  decide

end PayloadExecutor
