import Mathlib
import PayloadExecutor.Bus
/-!
# Reads — the READ data a host payload brings back

The scratchpad is there to collect what a payload's READs return.  Between the bus and the scratchpad stand the DFI
PHY and LiteDRAM's DFI injector, neither of them in this repository; the PHY answers `rddata_en` with `rddata_valid`
some fixed `lat` cycles later, and that is the hypothesis `payload_reads_in_scratchpad` makes of the read response.

`HostCommand.readCycles` lists the cycles of a payload's READs, each command taking its timeslice.  In the run of a
host payload the cycles with `rddata_en` are exactly those (`rddataEn_of_host_commands`), so the read response
carries one beat per READ, in order (`beat_iff_readCycles`); a READ of one cycle directly followed by another READ is
the one case in which two beats are adjacent, and the scratchpad then loses one (`scratchpad_failing_runs`).  Without
it, `read_count` is the number of READs mod the depth and the scratchpad holds their data in issue order
(`payload_reads_in_scratchpad`).
-/
namespace PayloadExecutor

section HostRun

variable (w : Nat) (c : Config) (hw : 0 < w) (hranks : c.nranks = 2 ^ c.layout.rankbits)
  (hpow : ∃ k, c.nphases = 2 ^ k) (hrd : c.rdphase < c.nphases) {cmds : List HostCommand}
  {instrs : List Instruction}
  (henc : List.Forall₂ (fun h ins => h.Fits c.layout ∧ h.instruction ⟨c.layout.bankbits, c.nranks⟩ = .ok ins)
    cmds instrs)
  (hlen : cmds.length < 2 ^ w) {mem : Nat → Nat}
  (hload : ∀ k ≤ cmds.length, mem k = (Encoder.encodePayload instrs ++ [0]).getD k 0)
  (mems : Nat → Nat → Nat) (inp : Nat → SysInput) {b : Nat}
  (hwait : (sysTrace w c mems inp (b - 1)).executor.fsm = .waitDfi)
  (hbub : (sysTrace w c mems inp b).executor.fsm = .bubble)
  (hmem : ∀ k < (cmds.map HostCommand.timeslice).sum + 3, mems (b + k) = mem)
  (lat : Nat) (rr : Nat → ReadResponse)
  (hphy : ∀ k ≤ (cmds.map HostCommand.timeslice).sum + 3 + lat, (rr (b + k)).beat c.nphases =
    (decide (lat ≤ k) && (List.range c.nphases).any fun i => ((sysTrace w c mems inp (b + k - lat)).dfi i).rddataEn))

include hw hranks hpow hrd henc hlen hload hwait hbub hmem hphy

/-- **The run's beats are its READs**, `lat` cycles after they are on the bus. -/
theorem beat_iff_readCycles :
    ∀ k ≤ (cmds.map HostCommand.timeslice).sum + 3 + lat,
      (rr (b + k)).beat c.nphases = true ↔ ∃ m ∈ HostCommand.readCycles cmds 3, k = m + lat := by
  have hpos := timeslice_pos_of_forall₂ henc
  intro k hk
  rw [hphy k hk, Bool.and_eq_true, decide_eq_true_eq]
  rcases Nat.lt_or_ge k lat with hlt | hge
  · exact ⟨fun h => absurd h.1 (by omega), fun ⟨m, _, hm⟩ => absurd hm (by omega)⟩
  obtain ⟨d, rfl⟩ : ∃ d, k = lat + d := ⟨k - lat, by omega⟩
  rw [show b + (lat + d) - lat = b + d by omega]
  cases d with
  | zero =>
    -- the bus the cycle after WAIT-DFI is quiet
    obtain ⟨b, rfl⟩ : ∃ b', b = b' + 1 :=
      ⟨b - 1, by
        rcases Nat.eq_zero_or_pos b with rfl | hb
        exacts [absurd hbub (by simp [sysTrace, System.init, State.init]), by omega]⟩
    have hwait' : (sysTrace w c mems inp b).executor.fsm = .waitDfi := hwait
    have hx : (sysTrace w c mems inp b).executor.exec c.layout = false :=
      exec_of_ne_run c.layout (by rw [hwait']; decide)
    simp only [Nat.add_zero, sysTrace_succ, System.step_dfi, dfiNext, hx, Bool.and_false, if_false,
      List.any_eq_true, Bool.false_eq_true, and_false, exists_false, false_iff]
    rintro ⟨m, hm, he⟩
    have := (HostCommand.opCycles_bounds .read hpos hm).1
    omega
  | succ d =>
    rw [show b + (d + 1) = b + d + 1 from rfl,
      rddataEn_of_host_commands w c hw hranks hpow hrd henc hlen hload mems inp hwait hbub hmem d (by omega)]
    constructor
    · rintro ⟨-, j, hj, hr, rfl⟩
      exact ⟨_, (HostCommand.mem_opCycles .read).2 ⟨j, hj, hr, rfl⟩, by omega⟩
    · rintro ⟨m, hm, he⟩
      obtain ⟨j, hj, hr, rfl⟩ := (HostCommand.mem_opCycles .read).1 hm
      exact ⟨hge, j, hj, hr, by omega⟩

/-- **The cycles of the run's beats are its READs' cycles**, `lat` later and in order. -/
theorem beats_filter_eq_readCycles :
    (List.range ((cmds.map HostCommand.timeslice).sum + 3 + lat)).filter (fun k => (rr (b + k)).beat c.nphases) =
      (HostCommand.readCycles cmds 3).map (· + lat) := by
  have hpos := timeslice_pos_of_forall₂ henc
  have hbeat := beat_iff_readCycles w c hw hranks hpow hrd henc hlen hload mems inp hwait hbub hmem lat rr hphy
  have hsorted :=
    (HostCommand.opCycles_sorted .read hpos (t := 3)).map (· + lat) fun a b h => Nat.add_lt_add_right h lat
  refine List.eq_of_perm_of_sorted ((List.perm_ext_iff_of_nodup ((List.nodup_range _).filter _) hsorted.nodup).2
    fun k => ?_) ((List.sorted_lt_range _).filter _) hsorted
  rw [List.mem_filter, List.mem_range, List.mem_map]
  constructor
  · rintro ⟨hk, hb⟩
    obtain ⟨m, hm, rfl⟩ := (hbeat k hk.le).1 hb
    exact ⟨m, hm, rfl⟩
  · rintro ⟨m, hm, rfl⟩
    have := (HostCommand.opCycles_bounds .read hpos hm).2
    exact ⟨by omega, (hbeat _ (by omega)).2 ⟨m, hm, rfl⟩⟩

end HostRun

/-- **A host payload's READs land in the scratchpad, in issue order.**  Take the run of a host payload as in
`host_commands_on_bus`, no `start` until it and its read data are over, a scratchpad depth of at least 2 that
`counter` can reach `depth - 1`, and a read response that, in the run, has a beat exactly `lat` cycles after some phase
of the bus had `rddata_en`.  If no READ of one cycle is directly followed by another READ, then once the run and its
read data are over, whatever the scratchpad held before: `read_count` is the number of READs mod `depth`, `overflow`
is set iff there are at least `depth` of them, and the data of each of the last `depth` READs is at its index mod
`depth`, on the phases valid in it. -/
theorem payload_reads_in_scratchpad (w : Nat) (c : Config) (hw : 0 < w) (hranks : c.nranks = 2 ^ c.layout.rankbits)
    (hpow : ∃ k, c.nphases = 2 ^ k) (hrd : c.rdphase < c.nphases) {cmds : List HostCommand}
    {instrs : List Instruction}
    (henc : List.Forall₂ (fun h ins => h.Fits c.layout ∧ h.instruction ⟨c.layout.bankbits, c.nranks⟩ = .ok ins)
      cmds instrs)
    (hlen : cmds.length < 2 ^ w) {mem : Nat → Nat}
    (hload : ∀ k ≤ cmds.length, mem k = (Encoder.encodePayload instrs ++ [0]).getD k 0)
    (mems : Nat → Nat → Nat) (inp : Nat → SysInput) {b : Nat}
    (hwait : (sysTrace w c mems inp (b - 1)).executor.fsm = .waitDfi)
    (hbub : (sysTrace w c mems inp b).executor.fsm = .bubble)
    (hmem : ∀ k < (cmds.map HostCommand.timeslice).sum + 3, mems (b + k) = mem)
    (hgap : cmds.Chain' fun h h' => h.op = .read → h'.op = .read → 2 ≤ h.timeslice)
    (depth : Nat) (hd : 2 ≤ depth) (hdw : depth - 1 < 2 ^ Scratchpad.counterWidth depth)
    (lat : Nat) (rr : Nat → ReadResponse) (s₀ : Scratchpad)
    (hstart : ∀ k < (cmds.map HostCommand.timeslice).sum + 3 + lat, (inp (b + k)).start = false)
    (hphy : ∀ k ≤ (cmds.map HostCommand.timeslice).sum + 3 + lat, (rr (b + k)).beat c.nphases =
      (decide (lat ≤ k) && (List.range c.nphases).any fun i => ((sysTrace w c mems inp (b + k - lat)).dfi i).rddataEn)) :
    let n := (cmds.map HostCommand.timeslice).sum + 3 + lat
    let s := scratchpadTrace depth c.nphases (fun t => (sysTrace w c mems inp t).executor) rr s₀ (b + n + 1)
    let bs := (HostCommand.readCycles cmds 3).map fun t => rr (b + lat + t)
    bs.length = cmds.countP (fun h => h.op = .read) ∧
      s.counter = bs.length % depth ∧ s.overflow = decide (depth ≤ bs.length) ∧
      ∀ k (hk : k < bs.length), bs.length ≤ k + depth → ∀ p < c.nphases, bs[k].rddataValid p = true →
        s.mem (k % depth) p = bs[k].rddata p := by
  intro n s bs
  have hpos := timeslice_pos_of_forall₂ henc
  have hbeat := beat_iff_readCycles w c hw hranks hpow hrd henc hlen hload mems inp hwait hbub hmem lat rr hphy
  -- no two beats in a row: they would be two READs in consecutive cycles
  have hsp : ∀ k < n, (rr (b + k)).beat c.nphases = true → (rr (b + k + 1)).beat c.nphases = false := by
    intro k hk h1
    by_contra h2
    obtain ⟨m, hm, rfl⟩ := (hbeat k hk.le).1 h1
    obtain ⟨m', hm', he⟩ := (hbeat (m + lat + 1) hk).1 (by simpa using h2)
    exact HostCommand.opCycles_spaced .read hpos hgap hm (by rwa [show m + 1 = m' by omega])
  -- inside the whole, the executor runs as `trace`, and the scratchpad beside it
  set inp' : Nat → Input := fun k => ⟨(inp k).start, (sysTrace w c mems inp k).extDfiSel⟩
  have hex : (fun t => (sysTrace w c mems inp t).executor) = trace w c.layout mems inp' :=
    funext (sysTrace_executor w c mems inp)
  have hex' : ∀ t, (sysTrace w c mems inp t).executor = trace w c.layout mems inp' t := congrFun hex
  obtain ⟨m, r, h⟩ := scratchpadTrace_tracks c.layout depth c.nphases (by omega) hdw mems inp' rr s₀
    (by rw [← hex']; exact hwait) (by rw [← hex']; exact hbub) hstart hsp
  rw [← hex, Scratchpad.beats_eq_filter,
    beats_filter_eq_readCycles w c hw hranks hpow hrd henc hlen hload mems inp hwait hbub hmem lat rr hphy,
    List.map_map] at h
  have hbs : (HostCommand.readCycles cmds 3).map ((fun k => rr (b + k)) ∘ (· + lat)) = bs :=
    List.map_congr_left fun t _ => by simp only [Function.comp, Nat.add_comm t, Nat.add_assoc]
  rw [hbs] at h
  exact ⟨by rw [List.length_map, HostCommand.length_opCycles], h.records (by omega)⟩

/-- A PHY for a one-phase bus: from cycle `b` on, a beat `lat` cycles after each `rddata_en`, its cycle as the data. -/
def phyStub {w : Nat} (σ : Nat → System w) (b lat t : Nat) : ReadResponse :=
  ⟨fun _ => t, fun _ => decide (b + lat ≤ t) && ((σ (t - lat)).dfi 0).rddataEn⟩

/-- Two READs of two cycles each, bank 1, columns 8 and 16, on one rank and one phase, started at reset and answered
one cycle later into a scratchpad of depth 4: their beats are those of cycles 7 and 9, two of them. -/
theorem payload_reads_in_scratchpad_two_reads :
    let c : Config := ⟨⟨0, 4, 16, 10, by decide⟩, 1, 1, 0, false⟩
    let cmds : List HostCommand := [⟨.read, 2, 0, 1, 8⟩, ⟨.read, 2, 0, 1, 16⟩]
    let instrs : List Instruction := [Instruction.dfi .read { timeslice := some 2, address := some 129 } 2,
      Instruction.dfi .read { timeslice := some 2, address := some 257 } 2]
    let mem : Nat → Nat := fun a => (Encoder.encodePayload instrs ++ [0]).getD a 0
    let inp : Nat → SysInput := fun k => ⟨k == 0, false, 0, false⟩
    let rr := phyStub (sysTrace 2 c (fun _ => mem) inp) 3 1
    HostCommand.readCycles cmds 3 = [3, 5] ∧
      (sysTrace 2 c (fun _ => mem) inp (3 - 1)).executor.fsm = .waitDfi ∧
      (sysTrace 2 c (fun _ => mem) inp 3).executor.fsm = .bubble ∧
      let n := (cmds.map HostCommand.timeslice).sum + 3 + 1
      let s := scratchpadTrace 4 c.nphases (fun t => (sysTrace 2 c (fun _ => mem) inp t).executor) rr
        (Scratchpad.afterReset fun _ _ => 0) (3 + n + 1)
      let bs := (HostCommand.readCycles cmds 3).map fun t => rr (3 + 1 + t)
      bs.length = cmds.countP (fun h => h.op = .read) ∧
        s.counter = bs.length % 4 ∧ s.overflow = decide (4 ≤ bs.length) ∧
        ∀ k (hk : k < bs.length), bs.length ≤ k + 4 → ∀ p < c.nphases, bs[k].rddataValid p = true →
          s.mem (k % 4) p = bs[k].rddata p := by
  intro c cmds instrs mem inp rr
  have hwait : (sysTrace 2 c (fun _ => mem) inp (3 - 1)).executor.fsm = .waitDfi := by decide
  have hbub : (sysTrace 2 c (fun _ => mem) inp 3).executor.fsm = .bubble := by decide
  have henc : List.Forall₂ (fun h ins => h.Fits c.layout ∧ h.instruction ⟨c.layout.bankbits, c.nranks⟩ = .ok ins)
      cmds instrs :=
    .cons ⟨⟨rfl, by decide, by decide, by decide, by decide, by decide⟩,
        by simp only [HostCommand.instruction, Encoder.address]; rfl⟩
      (.cons ⟨⟨rfl, by decide, by decide, by decide, by decide, by decide⟩,
        by simp only [HostCommand.instruction, Encoder.address]; rfl⟩ .nil)
  have hphy : ∀ k ≤ (cmds.map HostCommand.timeslice).sum + 3 + 1, (rr (3 + k)).beat c.nphases =
      (decide (1 ≤ k) && (List.range c.nphases).any fun i =>
        ((sysTrace 2 c (fun _ => mem) inp (3 + k - 1)).dfi i).rddataEn) := fun k _ => by
    have hk : 3 + 1 ≤ 3 + k ↔ 1 ≤ k := by omega
    simp [rr, phyStub, ReadResponse.beat, c, List.range_succ, hk]
  exact ⟨by decide, hwait, hbub, @payload_reads_in_scratchpad 2 c (by decide) rfl ⟨0, rfl⟩ (by decide) cmds instrs
    henc (by decide) mem (fun _ _ => rfl) (fun _ => mem) inp 3 hwait hbub (fun _ _ => rfl)
    (List.chain'_pair.2 fun _ _ => le_rfl) 4 (by decide) (counter_reaches_end_two_pow (k := 2) (by decide)) 1 rr
    (Scratchpad.afterReset fun _ _ => 0) (by decide) hphy⟩

end PayloadExecutor
