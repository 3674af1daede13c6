import Mathlib
import PayloadExecutor.Programs
/-!
# Termination — payloads without nested LOOPs end

A LOOP's body is the `loop_jump` words before it, counted cyclically over the payload's `2^w` words.  When no LOOP lies
in another LOOP's body (`NonNested`), every run ends, whatever `loop_counter` it starts with.  The argument is made
over `runStep`, the executor's own branch one word at a time (`Halts`), and `ready_of_halts` carries it to the gateware.
By induction on the distance to the last address: a word that is not a LOOP ends the program or leads to the next one;
a LOOP is left (`halts_loop`) once its counter has come round to its count, after at most 4096 passes, each through a
body of plain words that ends the program or leads back to the LOOP (`halts_walk`).

The payload has `2^w` words with `w ≥ 1`, the depths `PayloadExecutor.__init__` builds: a one-word payload would need
a fetch address `Signal(max=1)`, which migen refuses.
-/
namespace PayloadExecutor

open Isa (Arch Outcome)

theorem ofNat_mod_two_pow (w x : Nat) : BitVec.ofNat w (x % 2 ^ w) = BitVec.ofNat w x :=
  BitVec.eq_of_toNat_eq (by simp only [BitVec.toNat_ofNat, Nat.mod_mod])

/-- Where a jump back by `j < M` words from `p < M` lands, mod `M`. -/
theorem jump_target {M j p : Nat} (hj : j < M) (hp : p < M) :
    (M - j + p) % M = if j ≤ p then p - j else M - j + p := by
  split
  · rw [Nat.mod_eq_sub_mod (by omega), Nat.mod_eq_of_lt (by omega)]; omega
  · exact Nat.mod_eq_of_lt (by omega)

/-- The passes a LOOP with count `N` still makes at loop counter `lc`; a counter beyond 12 bits comes round after one
pass. -/
def remaining (N lc : Nat) : Nat :=
  if lc < 2 ^ Decoder.LOOP_COUNT then (N + 2 ^ Decoder.LOOP_COUNT - lc) % 2 ^ Decoder.LOOP_COUNT
  else 2 ^ Decoder.LOOP_COUNT

theorem remaining_lt {N lc : Nat} (hN : N < 2 ^ Decoder.LOOP_COUNT) (hc : lc ≠ N) :
    remaining N ((lc + 1) % 2 ^ Decoder.LOOP_COUNT) < remaining N lc := by
  simp only [remaining, Decoder.LOOP_COUNT] at hN ⊢
  split_ifs <;> omega

section

variable {w : Nat} (L : Layout) (mem : Nat → Nat)

/-- `x` lies in the body of the LOOP at `p`: it is one of the `loop_jump` addresses before `p`, counted cyclically
over `depth` words. -/
def InBody (depth p x : Nat) : Prop := ∃ k < (decode L (mem p)).loopJump, (x + (k + 1)) % depth = p

instance (depth p x : Nat) : Decidable (InBody L mem depth p x) :=
  inferInstanceAs (Decidable (∃ k < (decode L (mem p)).loopJump, (x + (k + 1)) % depth = p))

/-- `x` is in the body of the LOOP at `p` when `k + 1 ≤ loop_jump` words on from `x` reach `p`, directly or round
the end of memory. -/
theorem inBody_of_steps {depth p x : Nat} (hp : p < depth) (k : Nat) (hk : k < (decode L (mem p)).loopJump)
    (h : x + (k + 1) = p ∨ x + (k + 1) = p + depth) : InBody L mem depth p x :=
  ⟨k, hk, by rcases h with h | h <;> simp [h, Nat.mod_eq_of_lt hp]⟩

/-- **No LOOP lies in the body of another LOOP.** -/
def NonNested (depth : Nat) : Prop :=
  ∀ p < depth, ∀ x < depth, IsLoop L (mem p) → IsLoop L (mem x) → InBody L mem depth p x → x = p

instance (depth : Nat) : Decidable (NonNested L mem depth) :=
  inferInstanceAs (Decidable (∀ p < depth, ∀ x < depth, IsLoop L (mem p) → IsLoop L (mem x) → InBody L mem depth p x → x = p))

/-- **The program ends from `σ`**: `runStep`, word after word, reaches a halt. -/
inductive Halts : Arch w → Prop
  | halt {σ : Arch w} : runStep L mem σ = .halt → Halts σ
  | next {σ σ' : Arch w} {d : Nat} {command : Option Nat} : runStep L mem σ = .next σ' d command → Halts σ' → Halts σ

/-- **A program that ends is run to READY.** -/
theorem ready_of_halts {σ : Arch w} (h : Halts L mem σ) :
    ∀ (s : State w) (inp : Nat → Input), At mem s σ → ∃ n, (runFrom L mem inp s n).fsm = .ready := by
  induction h with
  | halt hs => exact fun s inp hat => ⟨1, (runStep_halt L mem 1 0 inp hat hs).2⟩
  | @next σ σ' d command hs _ ih =>
    intro s inp hat
    obtain ⟨-, hat'⟩ := runStep_next L mem 1 0 inp (Nat.two_pow_pos _) hat hs
    obtain ⟨n, hn⟩ := ih _ (fun k => inp (d + k)) hat'
    exact ⟨d + n, by rw [runFrom_add]; exact hn⟩

/-- **Plain words up to `p`**: if no word of `p - d … p - 1` is a LOOP, the program ends from `p - d` once it ends
from `p` with the same loop counter; a STOP on the way ends it sooner. -/
theorem halts_walk (hw : 0 < w) {p lc : Nat} (hp : p < 2 ^ w) (hh : Halts L mem ⟨BitVec.ofNat w p, lc⟩) :
    ∀ d ≤ p, (∀ x, p - d ≤ x → x < p → ¬ IsLoop L (mem x)) → Halts L mem ⟨BitVec.ofNat w (p - d), lc⟩
  | 0, _, _ => hh
  | d + 1, hd, hx => by
    have hnl := hx (p - (d + 1)) le_rfl (by omega)
    cases hs : (decode L (mem (p - (d + 1)))).stop
    · refine .next (runStep_command L mem hw (by omega) ⟨hs, hnl⟩) ?_
      rw [show p - (d + 1) + 1 = p - d by omega]
      exact halts_walk hw hp hh d (by omega) fun x h1 h2 => hx x (by omega) h2
    · exact .halt (runStep_stop L mem (by omega) hs)

/-- **A jump back through plain words ends the program** once the LOOP at `p` it leads back to does: the jump by
`j ≤ loop_jump` words lands in the LOOP's body, and the program walks up to the LOOP, or, when the body wraps round the
end of memory, up to the last word, which ends it. -/
theorem halts_jump_back (hw : 0 < w) {p j lc : Nat} (hp : p < 2 ^ w) (hj : j < 2 ^ w)
    (hjJ : j ≤ (decode L (mem p)).loopJump)
    (hbody : ∀ x < 2 ^ w, x ≠ p → InBody L mem (2 ^ w) p x → ¬ IsLoop L (mem x))
    (hback : Halts L mem ⟨BitVec.ofNat w p, lc⟩) :
    Halts L mem ⟨BitVec.ofNat w (if j ≤ p then p - j else 2 ^ w - j + p), lc⟩ := by
  split
  · exact halts_walk L mem hw hp hback j (by omega) fun x h1 h2 =>
      hbody x (by omega) (by omega) (inBody_of_steps L mem hp (p - x - 1) (by omega) (.inl (by omega)))
  · have hlast : ¬ IsLoop L (mem (2 ^ w - 1)) :=
      hbody _ (by omega) (by omega) (inBody_of_steps L mem hp p (by omega) (.inr (by omega)))
    have hend : Halts L mem ⟨BitVec.ofNat w (2 ^ w - 1), lc⟩ := .halt (runStep_last L mem hw fun h => absurd h hlast)
    have hwalk := halts_walk L mem hw (by omega) hend (j - p - 1) (by omega) fun x h1 h2 =>
        hbody x (by omega) (by omega) (inBody_of_steps L mem hp (p + 2 ^ w - x - 1) (by omega) (.inr (by omega)))
    rwa [show 2 ^ w - 1 - (j - p - 1) = 2 ^ w - j + p by omega] at hwalk

/-- **A non-nested LOOP is left.**  The LOOP at `p` makes at most one pass per value of its 12-bit counter, each
through a body of plain words that ends the program or leads back to the LOOP; so the program ends from the LOOP,
whatever the counter, once it ends from the word after it with the counter cleared. -/
theorem halts_loop (hw : 0 < w) (hnn : NonNested L mem (2 ^ w)) {p : Nat} (hp : p < 2 ^ w) (hl : IsLoop L (mem p))
    (hcont : p + 1 < 2 ^ w → Halts L mem ⟨BitVec.ofNat w (p + 1), 0⟩) (lc : Nat) :
    Halts L mem ⟨BitVec.ofNat w p, lc⟩ := by
  have hN : (decode L (mem p)).loopCount < 2 ^ Decoder.LOOP_COUNT := Nat.mod_lt _ (by decide)
  have hbody : ∀ x < 2 ^ w, x ≠ p → InBody L mem (2 ^ w) p x → ¬ IsLoop L (mem x) :=
    fun x hx hne hb hlx => hne (hnn p hp x hx hl hlx hb)
  suffices ∀ r lc, remaining (decode L (mem p)).loopCount lc = r → Halts L mem ⟨BitVec.ofNat w p, lc⟩ from this _ lc rfl
  intro r
  induction r using Nat.strong_induction_on with
  | _ r ih =>
    intro lc h
    by_cases hc : lc = (decode L (mem p)).loopCount
    · rw [hc]
      by_cases hp1 : p + 1 < 2 ^ w
      · exact .next (runStep_loopExit L mem hw hp1 hl) (hcont hp1)
      · obtain rfl : p = 2 ^ w - 1 := by omega
        exact .halt (runStep_last L mem hw fun _ => rfl)
    · have hback : Halts L mem ⟨BitVec.ofNat w p, (lc + 1) % 2 ^ Decoder.LOOP_COUNT⟩ :=
        ih _ (h ▸ remaining_lt hN hc) _ rfl
      refine .next (runStep_loopJump L mem hp hl hc) ?_
      -- the jump lands `loop_jump` words back, mod `2^w`
      have hj := Nat.mod_lt (decode L (mem p)).loopJump (Nat.two_pow_pos w)
      rw [BitVec.ofNat_sub_ofNat, ← ofNat_mod_two_pow, jump_target hj hp]
      exact halts_jump_back L mem hw hp hj (Nat.mod_le _ _) hbody hback

/-- **Every word of a non-nested payload leads to the end of the program**, whatever the loop counter: by induction
on the distance `n` to the last address. -/
theorem halts_of_nonNested (hw : 0 < w) (hnn : NonNested L mem (2 ^ w)) :
    ∀ n a lc, a + n = 2 ^ w - 1 → Halts L mem ⟨BitVec.ofNat w a, lc⟩
  | 0, a, lc, ha => by
    obtain rfl : a = 2 ^ w - 1 := by omega
    have hM := @Nat.one_le_two_pow w
    by_cases hl : IsLoop L (mem (2 ^ w - 1))
    · exact halts_loop L mem hw hnn (by omega) hl (fun h => absurd h (by omega)) lc
    · exact .halt (runStep_last L mem hw fun h => absurd h hl)
  | n + 1, a, lc, ha => by
    by_cases hl : IsLoop L (mem a)
    · exact halts_loop L mem hw hnn (by omega) hl (fun _ => halts_of_nonNested hw hnn n (a + 1) 0 (by omega)) lc
    · cases hs : (decode L (mem a)).stop
      · exact .next (runStep_command L mem hw (by omega) ⟨hs, hl⟩) (halts_of_nonNested hw hnn n (a + 1) lc (by omega))
      · exact .halt (runStep_stop L mem (by omega) hs)

/-- **Runs over a non-nested payload end.**  Over a payload of `2^w ≥ 2` words in which no LOOP lies in another
LOOP's body, the executor reaches READY from every first BUBBLE cycle — the state WAIT-DFI hands over, with
`idle_counter = PIPELINE_DELAY - 1` and the program counter at 0 — whatever its `loop_counter` and inputs. -/
theorem non_nested_terminates (hw : 0 < w) (hnn : NonNested L mem (2 ^ w)) (s : State w) (hb : s.fsm = .bubble)
    (hi : s.idleCounter = PIPELINE_DELAY - 1) (hpc : s.programCounter = 0) (inp : Nat → Input) :
    ∃ n, (runFrom L mem inp s n).fsm = .ready := by
  obtain ⟨hat, -⟩ := bubble_refill L mem inp hb hi
  rw [hpc] at hat
  obtain ⟨n, hn⟩ := ready_of_halts L mem (halts_of_nonNested L mem hw hnn (2 ^ w - 1) 0 s.loopCounter (by omega)) _
    (fun k => inp (2 + k)) hat
  exact ⟨2 + n, by rw [runFrom_add]; exact hn⟩

end

/-- A LOOP with count 2 over nothing (jump 0) at address 0, then STOP. -/
def loopThenStop (a : Nat) : Nat := if a = 0 then 23 else 0

theorem non_nested_terminates_loop :
    let L : Layout := ⟨0, 4, 16, 10, by decide⟩
    let s : State 1 := { State.init 1 with fsm := .bubble, idleCounter := 1, loopCounter := 7 }
    NonNested L loopThenStop (2 ^ 1) ∧ ∃ n, (runFrom L loopThenStop (fun _ => ⟨false, false⟩) s n).fsm = .ready := by
  intro L s
  have hnn : NonNested L loopThenStop (2 ^ 1) := by decide
  exact ⟨hnn, non_nested_terminates L loopThenStop (by decide) hnn s rfl rfl rfl _⟩

end PayloadExecutor
