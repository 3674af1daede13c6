import Mathlib
import PayloadExecutor.Executor
/-!
# Scratchpad — the READ data the payload brings back

`Scratchpad` writes the read response of the DFI bus into its memory, one word per cycle in which some phase has
`rddata_valid`, at a cursor `counter` that wraps at the memory's depth and sets the sticky `overflow` as it does.  All
of it is `sync`: the write port's `adr`, `dat_w` and `we` are registers loaded from `counter` and from the bus, and
`counter` advances when the registered `we` is set.  So a beat is written one cycle after it arrives, at the cursor
of the cycle it arrived in, and the cursor moves one cycle after that: a beat that directly follows another is
written at the same address (`scratchpad_failing_runs`).  `counter` is a `Signal(max=mem.depth - 1)`, so for a depth
of `2^k + 1` it never reaches `depth - 1`.

A memory word is kept per phase: `we` replicates each phase's `rddata_valid` over that phase's byte lanes, so the
lanes of a phase are written together.

`Ring` is the buffer the scratchpad is meant to be: one cursor, advanced once per beat.  Where no beat directly
follows another and `counter` can reach `depth - 1`, the scratchpad is that buffer one cycle late (`Tracks`,
`tracks_run`), and so it keeps the last `depth` beats at their indices mod `depth`
(`scratchpad_records_spaced_beats`).
-/
namespace PayloadExecutor

/-- One cycle of the DFI read response, per phase: `rddata` and `rddata_valid`. -/
structure ReadResponse where
  rddata : Nat → Nat
  rddataValid : Nat → Bool

/-- A beat: some phase of the response has `rddata_valid`. -/
def ReadResponse.beat (nphases : Nat) (r : ReadResponse) : Bool := (List.range nphases).any r.rddataValid

/-- The scratchpad's registers and its memory.  `adr`, `datW` and `we` are the write port's registered `adr`,
`dat_w` (the phases' `rddata`) and `we` (per phase, its `rddata_valid`); `mem a p` is phase `p`'s lanes of word `a`. -/
structure Scratchpad where
  counter : Nat
  overflow : Bool
  adr : Nat
  datW : Nat → Nat
  we : Nat → Bool
  mem : Nat → Nat → Nat

namespace Scratchpad

variable (depth nphases : Nat)

/-- The width of `counter`, a `Signal(max=mem.depth - 1)`.  Migen refuses a `max` below 2, so a built Scratchpad has
at least three rows; the definition is total and says nothing about depths 1 and 2. -/
def counterWidth : Nat := bitsFor (depth - 2)

/-- `reduce(or_, wr_port.we)`: the port writes some phase's lanes this cycle. -/
def writing (s : Scratchpad) : Bool := (List.range nphases).any s.we

/-- The registers as the scratchpad's `reset` leaves them, over whatever the memory holds. -/
def afterReset (mem : Nat → Nat → Nat) : Scratchpad := ⟨0, false, 0, fun _ => 0, fun _ => false, mem⟩

/-- **One clock edge.**  The port writes the registered data at the registered address on the enabled phases; the
port's registers load `counter` and the bus; a write moves `counter` on, to 0 and setting `overflow` at `depth - 1`. -/
def step (r : ReadResponse) (s : Scratchpad) : Scratchpad where
  counter :=
    if s.writing nphases then (if s.counter = depth - 1 then 0 else (s.counter + 1) % 2 ^ counterWidth depth)
    else s.counter
  overflow := s.overflow || (s.writing nphases && s.counter = depth - 1)
  adr := s.counter
  datW := r.rddata
  we := r.rddataValid
  mem a p := if a = s.adr ∧ p < nphases ∧ s.we p = true then s.datW p else s.mem a p

/-- The scratchpad `n` cycles on, the bus answering `rr c` in cycle `c`. -/
def run (rr : Nat → ReadResponse) (s : Scratchpad) : Nat → Scratchpad
  | 0 => s
  | n + 1 => step depth nphases (rr n) (run rr s n)

/-- **An edge with `reset` asserted.**  `ResetInserter` loads every register with its reset value; the memory, which it
does not reach, still takes the write the port's registers hold. -/
def resetStep (r : ReadResponse) (s : Scratchpad) : Scratchpad := afterReset (step depth nphases r s).mem

theorem run_congr {rr rr' : Nat → ReadResponse} (s : Scratchpad) :
    ∀ {n}, (∀ k < n, rr k = rr' k) → run depth nphases rr s n = run depth nphases rr' s n
  | 0, _ => rfl
  | n + 1, h => by simp only [run, h n n.lt_succ_self, run_congr s fun k hk => h k (Nat.lt_succ_of_lt hk)]

section Step

variable (r : ReadResponse) (s : Scratchpad)

@[simp] theorem step_counter : (step depth nphases r s).counter =
    if s.writing nphases then (if s.counter = depth - 1 then 0 else (s.counter + 1) % 2 ^ counterWidth depth)
    else s.counter := rfl

@[simp] theorem step_overflow :
    (step depth nphases r s).overflow = (s.overflow || (s.writing nphases && s.counter = depth - 1)) := rfl

@[simp] theorem step_adr : (step depth nphases r s).adr = s.counter := rfl

@[simp] theorem step_datW : (step depth nphases r s).datW = r.rddata := rfl

@[simp] theorem step_we : (step depth nphases r s).we = r.rddataValid := rfl

@[simp] theorem step_mem (a p : Nat) : (step depth nphases r s).mem a p =
    if a = s.adr ∧ p < nphases ∧ s.we p = true then s.datW p else s.mem a p := rfl

end Step

end Scratchpad

theorem counterWidth_three : Scratchpad.counterWidth 3 = 1 := by
  simp [Scratchpad.counterWidth, bitsFor, Encoder.bitLength, Nat.log2]

theorem counterWidth_four : Scratchpad.counterWidth 4 = 2 := by
  simp [Scratchpad.counterWidth, bitsFor, Encoder.bitLength, Nat.log2]

/-- A `counter` of `bits_for(2^k - 2)` bits reaches `2^k - 1`: a power-of-two depth does not meet the narrow
`counter`. -/
theorem counter_reaches_end_two_pow {k : Nat} (hk : 1 ≤ k) : 2 ^ k - 1 < 2 ^ Scratchpad.counterWidth (2 ^ k) := by
  have hlt := lt_two_pow_bitsFor (2 ^ k - 2)
  have hcw := one_le_bitsFor (2 ^ k - 2)
  have h2k : 2 ^ k = 2 * 2 ^ (k - 1) := by rw [← Nat.pow_succ']; congr 1; omega
  have h2c : 2 ^ bitsFor (2 ^ k - 2) = 2 * 2 ^ (bitsFor (2 ^ k - 2) - 1) := by rw [← Nat.pow_succ']; congr 1; omega
  unfold Scratchpad.counterWidth
  omega

/-- Two READ beats in consecutive cycles, 5 then 7, on a one-phase bus. -/
def backToBack (c : Nat) : ReadResponse := ⟨fun _ => if c = 0 then 5 else 7, fun _ => decide (c < 2)⟩

/-- Three READ beats, 5, 6 and 7, two cycles apart, on a one-phase bus. -/
def spacedBeats (c : Nat) : ReadResponse := ⟨fun _ => 5 + c / 2, fun _ => decide (c < 6 ∧ c % 2 = 0)⟩

/-- **Where the scratchpad puts READ beats.**  Two cycles after the last beat, from a reset over a zeroed memory:
with depth 4 and beats in cycles 0 and 1, `counter` and `overflow` are right but both beats went to address 0, the
second over the first, and address 1 is untouched; with depth 3 and beats in cycles 0, 2 and 4, the one-bit `counter`
ends at 1 with `overflow` clear, and the third beat went to address 0, over the first. -/
theorem scratchpad_failing_runs :
    let s₄ : Scratchpad := Scratchpad.run 4 1 backToBack (Scratchpad.afterReset fun _ _ => 0) 3
    let s₃ : Scratchpad := Scratchpad.run 3 1 spacedBeats (Scratchpad.afterReset fun _ _ => 0) 6
    (s₄.counter = 2 ∧ s₄.overflow = false ∧ s₄.mem 0 0 = 7 ∧ s₄.mem 1 0 = 0) ∧
      (s₃.counter = 1 ∧ s₃.overflow = false ∧ s₃.mem 0 0 = 7 ∧ s₃.mem 1 0 = 6 ∧ s₃.mem 2 0 = 0) := by
  simp only [Scratchpad.run, Scratchpad.step, counterWidth_four, counterWidth_three]
  decide

/-! ## The buffer the scratchpad is meant to be -/

/-- **The append-only buffer of the spec**: one write cursor that wraps at the depth, a sticky `overflow`, and the
words, kept per phase. -/
structure Ring where
  cursor : Nat
  overflow : Bool
  mem : Nat → Nat → Nat

namespace Ring

variable (depth nphases : Nat)

/-- Write a beat's valid phases at the cursor, and advance the cursor, to 0 and setting `overflow` at the end. -/
def push (R : Ring) (r : ReadResponse) : Ring where
  cursor := if R.cursor = depth - 1 then 0 else R.cursor + 1
  overflow := R.overflow || R.cursor = depth - 1
  mem a p := if a = R.cursor ∧ p < nphases ∧ r.rddataValid p = true then r.rddata p else R.mem a p

/-- The buffer after the beats `bs`, in order. -/
def fill (R : Ring) (bs : List ReadResponse) : Ring := bs.foldl (push depth nphases) R

@[simp] theorem fill_nil (R : Ring) : fill depth nphases R [] = R := rfl

@[simp] theorem fill_append_singleton (R : Ring) (bs : List ReadResponse) (r : ReadResponse) :
    fill depth nphases R (bs ++ [r]) = (fill depth nphases R bs).push depth nphases r := by
  simp [fill, List.foldl_append]

/-- The empty buffer, over whatever the memory holds. -/
def empty (mem : Nat → Nat → Nat) : Ring := ⟨0, false, mem⟩

end Ring

theorem mod_succ_of_pos {d : Nat} (hd : 0 < d) (n : Nat) : (n + 1) % d = if n % d = d - 1 then 0 else n % d + 1 := by
  have hlt := Nat.mod_lt n hd
  have hsplit : n + 1 = (n % d + 1) + d * (n / d) := by have := Nat.mod_add_div n d; omega
  rw [hsplit, Nat.add_mul_mod_self_left]
  split
  · rw [show n % d + 1 = d by omega, Nat.mod_self]
  · exact Nat.mod_eq_of_lt (by omega)

theorem mod_ne_of_lt_of_lt {d k n : Nat} (h₁ : k < n) (h₂ : n < k + d) : k % d ≠ n % d := fun h => by
  have hdvd := Nat.dvd_of_mod_eq_zero (Nat.sub_mod_eq_zero_of_mod_eq h.symm)
  have := Nat.eq_zero_of_dvd_of_lt hdvd (by omega)
  omega

section Fill

variable {depth : Nat} (nphases : Nat) (mem : Nat → Nat → Nat) (hd : 0 < depth)
include hd

theorem cursor_fill (bs : List ReadResponse) :
    (Ring.fill depth nphases (Ring.empty mem) bs).cursor = bs.length % depth := by
  induction bs using List.reverseRecOn with
  | nil => simp [Ring.empty]
  | append_singleton bs r ih =>
    simp only [Ring.fill_append_singleton, Ring.push, ih, List.length_append, List.length_singleton, mod_succ_of_pos hd]

theorem overflow_fill (bs : List ReadResponse) :
    (Ring.fill depth nphases (Ring.empty mem) bs).overflow = decide (depth ≤ bs.length) := by
  induction bs using List.reverseRecOn with
  | nil => simp [Ring.empty]; omega
  | append_singleton bs r ih =>
    simp only [Ring.fill_append_singleton, Ring.push, ih, cursor_fill nphases mem hd, List.length_append,
      List.length_singleton]
    rw [← Bool.decide_or, decide_eq_decide]
    rcases Nat.lt_or_ge bs.length depth with h | h
    · rw [Nat.mod_eq_of_lt h]; omega
    · omega

/-- **The buffer holds the last `depth` beats**, each at its index mod `depth`, on the phases that were valid in it. -/
theorem mem_fill (bs : List ReadResponse) :
    ∀ k (hk : k < bs.length), bs.length ≤ k + depth → ∀ p < nphases, bs[k].rddataValid p = true →
      (Ring.fill depth nphases (Ring.empty mem) bs).mem (k % depth) p = bs[k].rddata p := by
  induction bs using List.reverseRecOn with
  | nil => intro k hk; exact absurd hk (Nat.not_lt_zero k)
  | append_singleton bs r ih =>
    intro k hk hold p hp hv
    simp only [List.length_append, List.length_singleton] at hk hold
    simp only [Ring.fill_append_singleton, Ring.push, cursor_fill nphases mem hd]
    rcases Nat.lt_or_ge k bs.length with hk' | hk'
    · -- an older beat, at an address the new one does not touch
      simp only [List.getElem_append_left hk'] at hv ⊢
      rw [if_neg fun h => mod_ne_of_lt_of_lt hk' (by omega) h.1]
      exact ih k hk' (by omega) p hp hv
    · obtain rfl : k = bs.length := by omega
      simp_all

end Fill

/-! ## The scratchpad refines the buffer -/

namespace Scratchpad

variable (depth nphases : Nat)

/-- The responses of the cycles before `n` that carry a beat, in order. -/
def beats (rr : Nat → ReadResponse) : Nat → List ReadResponse
  | 0 => []
  | n + 1 => beats rr n ++ if (rr n).beat nphases then [rr n] else []

theorem beats_congr {rr rr' : Nat → ReadResponse} :
    ∀ {n}, (∀ k < n, rr k = rr' k) → beats nphases rr n = beats nphases rr' n
  | 0, _ => rfl
  | n + 1, h => by simp only [beats, h n n.lt_succ_self, beats_congr fun k hk => h k (Nat.lt_succ_of_lt hk)]

/-- The beats are the responses of the cycles, in order, that carry one. -/
theorem beats_eq_filter (rr : Nat → ReadResponse) :
    ∀ n, beats nphases rr n = ((List.range n).filter fun k => (rr k).beat nphases).map rr
  | 0 => rfl
  | n + 1 => by
    rw [beats, beats_eq_filter rr n, List.range_succ, List.filter_append, List.map_append]
    cases h : (rr n).beat nphases <;> simp [h]

theorem fill_beats_succ (R : Ring) (rr : Nat → ReadResponse) (n : Nat) :
    Ring.fill depth nphases R (beats nphases rr (n + 1)) =
      if (rr n).beat nphases then (Ring.fill depth nphases R (beats nphases rr n)).push depth nphases (rr n)
      else Ring.fill depth nphases R (beats nphases rr n) := by
  simp only [beats]; split <;> simp

/-- **The scratchpad one cycle behind the buffer.**  `counter`, `overflow` and the memory are the buffer's; the
port's registers hold the last response `r`, and its address is the cursor when `r` is a beat. -/
structure Tracks (s : Scratchpad) (R : Ring) (r : ReadResponse) : Prop where
  counter : s.counter = R.cursor
  overflow : s.overflow = R.overflow
  mem : s.mem = R.mem
  datW : s.datW = r.rddata
  we : s.we = r.rddataValid
  adr : r.beat nphases = true → s.adr = R.cursor
  cursor_lt : R.cursor < depth

variable {depth nphases}

/-- **One edge keeps the scratchpad one cycle behind the buffer**, as long as a beat is not directly followed by
another: the beat in flight is written at the cursor, and `counter` moves on with it. -/
theorem Tracks.step (hw : depth - 1 < 2 ^ counterWidth depth) {s : Scratchpad} {R : Ring} {r : ReadResponse}
    (h : Tracks depth nphases s R r) (r' : ReadResponse) (hsp : r.beat nphases = true → r'.beat nphases = false) :
    Tracks depth nphases (step depth nphases r' s) (if r.beat nphases then R.push depth nphases r else R) r' := by
  have hwr : s.writing nphases = r.beat nphases := by simp [writing, ReadResponse.beat, h.we]
  have hlt := h.cursor_lt
  cases hb : r.beat nphases
  case false =>
    -- nothing in flight: the port writes nothing and `counter` holds
    have hnone : ∀ p < nphases, s.we p = false := by simpa [ReadResponse.beat, h.we] using hb
    refine ⟨by simp [hwr, hb, h.counter], by simp [hwr, hb, h.overflow], funext fun a => funext fun p => ?_, rfl, rfl,
      fun _ => by simp [h.counter], by simpa using hlt⟩
    rw [step_mem, if_neg fun ⟨_, hp, hwe⟩ => by simp [hnone p hp] at hwe, h.mem]
    rfl
  case true =>
    -- the beat in flight is written at the cursor, and `counter` moves on with it
    simp only [if_true]
    refine ⟨?_, by simp [hwr, hb, h.overflow, h.counter, Ring.push], funext fun a => funext fun p => ?_, rfl, rfl,
      fun h' => absurd h' (by simp [hsp hb]), by simp only [Ring.push]; split <;> omega⟩
    · simp only [step_counter, hwr, hb, if_true, Ring.push, h.counter]
      split
      · rfl
      · exact Nat.mod_eq_of_lt (by omega)
    · simp only [step_mem, Ring.push, h.adr hb, h.we, h.datW, h.mem]

/-- **Every cycle after reset, the scratchpad is one cycle behind the buffer of the beats so far.** -/
theorem tracks_run (hd : 0 < depth) (hw : depth - 1 < 2 ^ counterWidth depth) (rr : Nat → ReadResponse)
    (hsp : ∀ c, (rr c).beat nphases = true → (rr (c + 1)).beat nphases = false) (mem : Nat → Nat → Nat) :
    ∀ n, Tracks depth nphases (run depth nphases rr (afterReset mem) (n + 1))
      (Ring.fill depth nphases (Ring.empty mem) (beats nphases rr n)) (rr n)
  | 0 => by
    refine ⟨?_, ?_, funext fun _ => funext fun _ => ?_, rfl, rfl, fun _ => rfl, hd⟩ <;>
      simp [run, beats, Ring.empty, afterReset, writing]
  | n + 1 => by
    rw [fill_beats_succ]
    exact (tracks_run hd hw rr hsp mem n).step hw (rr (n + 1)) (hsp n)

/-- **What a scratchpad behind the buffer of `bs` holds**: `counter` and `overflow` count `bs`, and each of the last
`depth` beats is at its index mod `depth` on the phases that were valid in it. -/
theorem Tracks.records (hd : 0 < depth) {s : Scratchpad} {mem : Nat → Nat → Nat} {bs : List ReadResponse}
    {r : ReadResponse} (h : Tracks depth nphases s (Ring.fill depth nphases (Ring.empty mem) bs) r) :
    s.counter = bs.length % depth ∧ s.overflow = decide (depth ≤ bs.length) ∧
      ∀ k (hk : k < bs.length), bs.length ≤ k + depth → ∀ p < nphases, bs[k].rddataValid p = true →
        s.mem (k % depth) p = bs[k].rddata p :=
  ⟨h.counter.trans (cursor_fill nphases mem hd bs), h.overflow.trans (overflow_fill nphases mem hd bs),
    fun k hk hold p hp hv => by rw [h.mem]; exact mem_fill nphases mem hd bs k hk hold p hp hv⟩

end Scratchpad

/-- **A scratchpad that sees no two beats in a row records them all.**  For a depth of at least 2 that `counter`
can reach `depth - 1` (every power of two, `counter_reaches_end_two_pow`), and a read response in which a beat never
directly follows another: in cycle `n + 1` after the scratchpad's reset, with `N` beats in the cycles before `n`,
`counter` is `N mod depth`, `overflow` is set iff `N ≥ depth`, and each of the last `depth` beats is at its index mod
`depth` on the phases that were valid in it. -/
theorem scratchpad_records_spaced_beats (depth nphases : Nat) (hd : 2 ≤ depth)
    (hw : depth - 1 < 2 ^ Scratchpad.counterWidth depth) (rr : Nat → ReadResponse)
    (hsp : ∀ c, (rr c).beat nphases = true → (rr (c + 1)).beat nphases = false) (mem : Nat → Nat → Nat) (n : Nat) :
    let s : Scratchpad := Scratchpad.run depth nphases rr (Scratchpad.afterReset mem) (n + 1)
    let bs := Scratchpad.beats nphases rr n
    s.counter = bs.length % depth ∧ s.overflow = decide (depth ≤ bs.length) ∧
      ∀ k (hk : k < bs.length), bs.length ≤ k + depth → ∀ p < nphases, bs[k].rddataValid p = true →
        s.mem (k % depth) p = bs[k].rddata p := by
  intro s bs
  have h := Scratchpad.tracks_run (by omega) hw rr hsp mem n
  refine ⟨h.counter.trans (cursor_fill nphases mem (by omega) bs), h.overflow.trans (overflow_fill nphases mem (by omega) bs),
    fun k hk hold p hp hv => ?_⟩
  rw [h.mem]
  exact mem_fill nphases mem (by omega) bs k hk hold p hp hv

/-- Three beats two cycles apart into a scratchpad of depth 4: in cycle 6 they are at addresses 0, 1 and 2. -/
theorem scratchpad_records_spaced_beats_depth_four :
    let s : Scratchpad := Scratchpad.run 4 1 spacedBeats (Scratchpad.afterReset fun _ _ => 0) 6
    let bs := Scratchpad.beats 1 spacedBeats 5
    bs.length = 3 ∧ s.mem 0 0 = 5 ∧ s.mem 1 0 = 6 ∧ s.mem 2 0 = 7 ∧
      s.counter = bs.length % 4 ∧ s.overflow = decide (4 ≤ bs.length) ∧
      ∀ k (hk : k < bs.length), bs.length ≤ k + 4 → ∀ p < 1, bs[k].rddataValid p = true →
        s.mem (k % 4) p = bs[k].rddata p := by
  intro s bs
  have hsp : ∀ c, (spacedBeats c).beat 1 = true → (spacedBeats (c + 1)).beat 1 = false := fun c => by
    simp [spacedBeats, ReadResponse.beat]; omega
  have hmem : s.mem 0 0 = 5 ∧ s.mem 1 0 = 6 ∧ s.mem 2 0 = 7 := by
    simp only [s, Scratchpad.run, Scratchpad.step, counterWidth_four]
    decide
  exact ⟨by decide, hmem.1, hmem.2.1, hmem.2.2,
    scratchpad_records_spaced_beats 4 1 (by decide) (counter_reaches_end_two_pow (k := 2) (by decide)) spacedBeats hsp _ 5⟩

end PayloadExecutor
