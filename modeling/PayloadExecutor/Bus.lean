import Mathlib
import PayloadExecutor.Handover
import PayloadExecutor.Programs
/-!
# Bus — the DRAM command stream a host payload becomes

A host script writes a payload as a list of DRAM commands, each
`Encoder.I(op, timeslice=T, address=encoder.address(rank=r, bank=b, row=rc))`, and loads `encoder(payload)` into the
payload memory.  `HostCommand` is one such command and `HostCommand.instruction` the `Encoder.Instruction` it
becomes.  `commandPhase` is the DFI phase that carries it to the DRAM: the command lines low where the op code's
`(ras, cas, we)` bits are set, `cs_n` low for the rank (for every rank on REF), the bank and the row or column, and
`rddata_en` for READ.

Three layers meet here.  The host's encoder packs the command into a word and the decoder unpacks it
(`encodes_of_instruction`); `DFIExecutor` puts the decoded word on its phase (`dfiNext_of_encodes`); and the executor
sends the words at the host's times (`encoded_payload_issued`).  `host_commands_on_bus` composes them with the switch:
in the run of a payload of short DFI commands, the bus carries exactly the host's commands, each on its phase and in
the cycle its predecessors' timeslices give, and is deselected everywhere else.  `RefreshCounter`'s test on phase 0
then fires exactly for the host's REFs (`host_refreshes_on_bus`), and the switch's refresh counter, watching the DFII
master while it carries the executor, advances by their number over the run (`payload_refreshes_counted`).

That needs the `phase` signal to reach `rdphase`.  It reaches every phase except with `2^k + 1` phases
(`phase_reaches_every_phase_iff`), where the last phase is never driven and a READ meant for it goes out on phase 0
(`last_phase_never_driven`).
-/
namespace PayloadExecutor

/-- A DRAM command as a host script asks for it: `Encoder.I(op, timeslice=…, address=encoder.address(rank=…, bank=…,
row=…))`. -/
structure HostCommand where
  op : OpCode
  timeslice : Nat
  rank : Nat
  bank : Nat
  rowcol : Nat

namespace HostCommand

/-- The `Encoder.Instruction` the host builds: `Encoder.address` for the rank, bank and row, then `__init__`. -/
def instruction (e : Encoder) (h : HostCommand) : Except String Instruction :=
  match e.address (some h.rank) h.bank (some h.rowcol) none with
  | .error m => .error m
  | .ok a => Instruction.init h.op { timeslice := some h.timeslice, address := some a }

/-- The DFI phase RUN sends the command on: `rdphase` for a READ, phase 0 otherwise. -/
def phase (rdphase : Nat) (h : HostCommand) : Nat := if h.op = .read then rdphase else 0

/-- A DFI command of `1 … 31` cycles whose rank, bank and row-or-column fit the decoder's fields. -/
structure Fits (L : Layout) (h : HostCommand) : Prop where
  dfi : h.op.isDfi
  pos : 1 ≤ h.timeslice
  short : h.timeslice ≤ 2 ^ Decoder.TIMESLICE - 1
  rank : h.rank < 2 ^ L.rankbits
  bank : h.bank < 2 ^ L.bankbits
  rowcol : h.rowcol < 2 ^ max L.rowbits L.colbits

end HostCommand

/-- **The DFI phase that carries a host command**: `ras_n`, `cas_n` and `we_n` low where the op code's `(ras, cas, we)`
bits are set, `cs_n` low for the command's rank (for every rank on REF), its bank and row or column, and `rddata_en`
for a READ. -/
def commandPhase (nranks : Nat) (h : HostCommand) : DfiPhase where
  csN := if h.op = .ref then 0 else rankSelect nranks h.rank
  casN := !h.op.value.testBit 1
  rasN := !h.op.value.testBit 2
  weN := !h.op.value.testBit 0
  address := h.rowcol
  bank := h.bank
  rddataEn := h.op = .read

/-! ## One command: encoder, decoder, `DFIExecutor` -/

/-- What the decoder reads from the word of a host command: its op code and command lines, no STOP, its timeslice as
the word's duration, and its rank, bank and row-or-column. -/
structure Encodes (L : Layout) (h : HostCommand) (d : Decoded) : Prop where
  opCode : d.opCode = h.op.value
  stop : d.stop = false
  duration : d.duration = h.timeslice
  lines : d.ras = h.op.value.testBit 2 ∧ d.cas = h.op.value.testBit 1 ∧ d.we = h.op.value.testBit 0
  rank : d.dfiRank = h.rank
  bank : d.dfiBank = h.bank
  rowcol : d.dfiAddress = h.rowcol

/-- An address `Encoder.address` packs for `2^r` ranks fits the decoder's 24-bit field. -/
theorem address_lt (L : Layout) {rank bank rowcol : Nat} (hrank : rank < 2 ^ L.rankbits)
    (hbank : bank < 2 ^ L.bankbits) (hrc : rowcol < 2 ^ max L.rowbits L.colbits) :
    rank + 2 ^ L.rankbits * (bank + 2 ^ L.bankbits * rowcol) < 2 ^ Decoder.ADDRESS :=
  calc rank + 2 ^ L.rankbits * (bank + 2 ^ L.bankbits * rowcol)
      < 2 ^ (L.rankbits + (L.bankbits + max L.rowbits L.colbits)) :=
        Encoder.add_two_pow_mul_lt hrank (Encoder.add_two_pow_mul_lt hbank hrc)
    _ ≤ 2 ^ Decoder.ADDRESS := Nat.pow_le_pow_right (by decide) (by have := L.fits; omega)

/-- **The host's encoder and the decoder agree on a command**: a command that fits is one word, which decodes to its
op code, timeslice, command lines, rank, bank and row-or-column. -/
theorem encodes_of_instruction (L : Layout) {h : HostCommand} (hf : h.Fits L) {ins : Instruction}
    (hi : h.instruction ⟨L.bankbits, 2 ^ L.rankbits⟩ = .ok ins) :
    ∃ word, Encoder.encodeSpec ins = [word] ∧ Encodes L h (decode L word) := by
  unfold HostCommand.instruction at hi
  split at hi
  · cases hi
  rename_i a ha
  have ha' := Encoder.address_eq ha hf.bank hf.rank
  simp only [Option.getD_some] at ha'
  have hlt := address_lt L hf.rank hf.bank hf.rowcol
  obtain ⟨word, hw, rt⟩ := roundTrip_dfi L hf.dfi hi (by simpa using hf.short) (by simpa [ha'] using hlt)
  obtain ⟨hn, hl⟩ := (OpCode.isDfi_iff h.op).1 hf.dfi
  have hts : (decode L word).timeslice = h.timeslice := rt.timeslice hl
  obtain ⟨hr, hb, hrc⟩ := rt.dfi hf.dfi (some h.rank) h.bank (some h.rowcol) none ha hf.rank hf.bank hf.rowcol
  refine ⟨word, hw, rt.opCode, ?_, ?_, rt.lines, ?_, hb, hrc⟩
  · cases hs : (decode L word).stop
    · rfl
    · exact absurd (rt.stop.1 hs).1 hn
  · simp only [Decoded.duration, hts]; have := hf.pos; omega
  · rcases Nat.eq_zero_or_pos L.rankbits with h0 | h0
    · have := hf.rank
      simp only [h0, Nat.pow_zero, Nat.lt_one_iff] at this
      simp only [decode, slice, h0, this, Nat.pow_zero, Nat.mod_one]
    · exact hr h0

/-- **`DFIExecutor` puts a host command's word on its phase as the command itself.** -/
theorem dfiNext_of_encodes {w : Nat} (c : Config) {s : State w} {out : Nat → DfiPhase} {x i : Nat}
    (hiss : s.issue c.layout c.nphases c.rdphase = some (x, i)) {h : HostCommand} (hdfi : h.op.isDfi)
    (he : Encodes c.layout h (decode c.layout x)) : dfiNext c s out i = commandPhase c.nranks h := by
  unfold State.issue at hiss
  split at hiss
  · rename_i hx
    obtain ⟨rfl, rfl⟩ := Prod.mk.inj (Option.some.inj hiss)
    have hn : h.op ≠ .noop := ((OpCode.isDfi_iff h.op).1 hdfi).1
    simp only [dfiNext, hx, decide_True, Bool.and_true, if_true, he.opCode, OpCode.value_inj, hn, if_false,
      he.rank, he.lines.1, he.lines.2.1, he.lines.2.2, he.rowcol, he.bank, commandPhase]
  · cases hiss

/-- A host command's word goes out on the command's phase. -/
theorem readPhase_of_encodes {L : Layout} {h : HostCommand} {x : Nat} (rdphase : Nat) (he : Encodes L h (decode L x)) :
    Isa.readPhase L rdphase x = h.phase rdphase := by
  simp only [Isa.readPhase, he.opCode, OpCode.value_inj, HostCommand.phase]

/-! ## A payload of host commands -/

/-- **The host's payload is one word per command**, word `j` encoding command `j`. -/
theorem encodePayload_hosts (L : Layout) {cmds : List HostCommand} {instrs : List Instruction}
    (henc : List.Forall₂ (fun h ins => h.Fits L ∧ h.instruction ⟨L.bankbits, 2 ^ L.rankbits⟩ = .ok ins) cmds instrs) :
    (Encoder.encodePayload instrs).length = cmds.length ∧ ∀ j (hj : j < cmds.length),
      cmds[j].op.isDfi ∧ Encodes L cmds[j] (decode L ((Encoder.encodePayload instrs).getD j 0)) := by
  induction henc with
  | nil => exact ⟨rfl, fun j hj => absurd hj (Nat.not_lt_zero j)⟩
  | @cons h ins cmds instrs hhead _ ih =>
    obtain ⟨word, hw, he⟩ := encodes_of_instruction L hhead.1 hhead.2
    have hpay : Encoder.encodePayload (ins :: instrs) = word :: Encoder.encodePayload instrs := by
      simp only [Encoder.encodePayload, List.flatMap_cons, hw, List.singleton_append]
    refine ⟨by simp [hpay, ih.1], fun j hj => ?_⟩
    rw [hpay]
    cases j with
    | zero => exact ⟨hhead.1.dfi, he⟩
    | succ j => exact ih.2 j (by simpa using hj)

section

variable {w : Nat} (L : Layout) (nphases rdphase : Nat)

/-- **The executor asserts a host payload with the host's timing.**  Take host commands that fit, fewer than `2^w` of
them, and a payload memory holding the words the host encodes followed by a STOP, unchanged from the run's first
BUBBLE cycle `b` until it ends.  The executor asserts word `j` `2` cycles after `b` plus the timeslices of the commands
before it, on its phase, nothing else, and is in READY `3` cycles after the last command's time is up. -/
theorem encoded_payload_issued (hw : 0 < w) (hfit : rdphase < 2 ^ phaseWidth nphases) {cmds : List HostCommand}
    {instrs : List Instruction}
    (henc : List.Forall₂ (fun h ins => h.Fits L ∧ h.instruction ⟨L.bankbits, 2 ^ L.rankbits⟩ = .ok ins) cmds instrs)
    (hlen : cmds.length < 2 ^ w) {mem : Nat → Nat}
    (hload : ∀ k ≤ cmds.length, mem k = (Encoder.encodePayload instrs ++ [0]).getD k 0)
    (mems : Nat → Nat → Nat) (inp : Nat → Input) {b : Nat} (hwait : (trace w L mems inp (b - 1)).fsm = .waitDfi)
    (hbub : (trace w L mems inp b).fsm = .bubble)
    (hmem : ∀ k < (cmds.map HostCommand.timeslice).sum + 3, mems (b + k) = mem) :
    issued L nphases rdphase (fun k => trace w L mems inp (b + k)) ((cmds.map HostCommand.timeslice).sum + 3) =
        (List.range cmds.length).map (fun j => (((cmds.map HostCommand.timeslice).take j).sum + 2,
          (Encoder.encodePayload instrs).getD j 0, Isa.readPhase L rdphase ((Encoder.encodePayload instrs).getD j 0))) ∧
      (∀ k < (cmds.map HostCommand.timeslice).sum + 3, (trace w L mems inp (b + k)).fsm ≠ .ready) ∧
      (trace w L mems inp (b + ((cmds.map HostCommand.timeslice).sum + 3))).fsm = .ready := by
  obtain ⟨hlen', he⟩ := encodePayload_hosts L henc
  have hmemk : ∀ k < cmds.length, mem k = (Encoder.encodePayload instrs).getD k 0 := fun k hk => by
    rw [hload k hk.le, List.getD_append _ _ _ _ (by omega)]
  have hstop : (decode L (mem cmds.length)).stop = true := by
    rw [hload _ le_rfl, List.getD_append_right _ _ _ _ (by omega), hlen', Nat.sub_self]; rfl
  have hd : ∀ k (hk : k < (cmds.map HostCommand.timeslice).length),
      (decode L (mem k)).duration = (cmds.map HostCommand.timeslice)[k] := fun k hk => by
    simp only [List.length_map] at hk
    rw [hmemk k hk, (he k hk).2.duration, List.getElem_map]
  have hpass := pass_eq_prefix_sums L mem hd cmds.length (by simp)
  have htotal : ((cmds.map HostCommand.timeslice).take cmds.length).sum = (cmds.map HostCommand.timeslice).sum := by
    rw [show cmds.length = (cmds.map HostCommand.timeslice).length by simp, List.take_length]
  have hcmd : ∀ k < cmds.length, IsCommand L (mem k) := fun k hk => by
    rw [hmemk k hk]
    exact ⟨(he k hk).2.stop, (he k hk).2.opCode ▸ OpCode.value_ne_loop (he k hk).1⟩
  obtain ⟨hiss, hbusy, hready⟩ := straight_run_issued L mem nphases rdphase hw hfit hlen hcmd
    (fun _ => runStep_stop L mem hlen hstop) mems inp hwait hbub (by rw [hpass, htotal]; exact hmem)
  rw [hpass, htotal] at hiss hbusy hready
  refine ⟨?_, hbusy, hready⟩
  rw [hiss, List.map_map]
  exact List.map_congr_left fun k hk => by simp [hmemk k (List.mem_range.1 hk)]

end

/-! ## When the host's commands are on the bus -/

namespace HostCommand

/-- **The cycles of a payload's commands of one op code**, counted from `t`: each command takes its timeslice. -/
def opCycles (op : OpCode) : List HostCommand → Nat → List Nat
  | [], _ => []
  | h :: cmds, t => (if h.op = op then [t] else []) ++ opCycles op cmds (t + h.timeslice)

/-- The cycles of a payload's READs. -/
abbrev readCycles (cmds : List HostCommand) (t : Nat) : List Nat := opCycles .read cmds t

variable (op : OpCode)

theorem mem_opCycles_cons (h : HostCommand) (cmds : List HostCommand) (t : Nat) {m : Nat} :
    m ∈ opCycles op (h :: cmds) t ↔ (h.op = op ∧ m = t) ∨ m ∈ opCycles op cmds (t + h.timeslice) := by
  simp only [opCycles, List.mem_append, List.mem_ite_nil_right, List.mem_singleton]

theorem mem_opCycles {m : Nat} : ∀ {cmds : List HostCommand} {t : Nat},
    m ∈ opCycles op cmds t ↔
      ∃ j, ∃ hj : j < cmds.length, cmds[j].op = op ∧ m = t + ((cmds.map timeslice).take j).sum
  | [], _ => by simp [opCycles]
  | h :: cmds, t => by
    rw [mem_opCycles_cons, mem_opCycles]
    constructor
    · rintro (⟨hr, rfl⟩ | ⟨j, hj, hr, rfl⟩)
      · exact ⟨0, Nat.succ_pos _, hr, by simp⟩
      · exact ⟨j + 1, by simpa using hj, by simpa using hr, by simp [Nat.add_assoc]⟩
    · rintro ⟨j, hj, hr, rfl⟩
      cases j with
      | zero => exact .inl ⟨hr, by simp⟩
      | succ j => exact .inr ⟨j, by simpa using hj, by simpa using hr, by simp [Nat.add_assoc]⟩

theorem length_opCycles : ∀ (cmds : List HostCommand) (t : Nat),
    (opCycles op cmds t).length = cmds.countP fun h => h.op = op
  | [], _ => rfl
  | h :: cmds, t => by
    rw [opCycles, List.length_append, length_opCycles cmds, List.countP_cons]
    split <;> simp_all [Nat.add_comm]

section Positive

variable {cmds : List HostCommand} (hpos : ∀ h ∈ cmds, 1 ≤ h.timeslice)
include hpos

/-- With every timeslice positive, a payload's commands fall within its own time. -/
theorem opCycles_bounds {m : Nat} : ∀ {t}, m ∈ opCycles op cmds t → t ≤ m ∧ m < t + (cmds.map timeslice).sum := by
  induction cmds with
  | nil => simp [opCycles]
  | cons h cmds ih =>
    intro t hm
    have h1 := hpos h (List.mem_cons_self _ _)
    simp only [List.map_cons, List.sum_cons]
    rcases (mem_opCycles_cons op h cmds t).1 hm with ⟨-, rfl⟩ | hm
    · omega
    · have := ih (fun h' hh' => hpos h' (List.mem_cons_of_mem _ hh')) hm
      omega

theorem opCycles_sorted : ∀ {t}, (opCycles op cmds t).Sorted (· < ·) := by
  induction cmds with
  | nil => exact List.Pairwise.nil
  | cons h cmds ih =>
    intro t
    have hpos' : ∀ h' ∈ cmds, 1 ≤ h'.timeslice := fun h' hh' => hpos h' (List.mem_cons_of_mem _ hh')
    have h1 := hpos h (List.mem_cons_self _ _)
    refine List.pairwise_append.2 ⟨by split <;> simp, ih hpos', fun a ha c hc => ?_⟩
    have := (opCycles_bounds op hpos' hc).1
    rw [List.mem_ite_nil_right, List.mem_singleton] at ha
    omega

/-- A payload whose commands of `op` start at `t` starts with one. -/
theorem head_of_mem_opCycles {t : Nat} (hm : t ∈ opCycles op cmds t) : ∃ h ∈ cmds.head?, h.op = op := by
  cases cmds with
  | nil => simp [opCycles] at hm
  | cons h cmds =>
    rcases (mem_opCycles_cons op h cmds t).1 hm with ⟨hr, -⟩ | hm
    · exact ⟨h, rfl, hr⟩
    · have := (opCycles_bounds op (fun h' hh' => hpos h' (List.mem_cons_of_mem _ hh')) hm).1
      have := hpos h (List.mem_cons_self _ _)
      omega

/-- **A payload's commands of `op` are spaced** unless one of one cycle is directly followed by another. -/
theorem opCycles_spaced (hgap : cmds.Chain' fun h h' => h.op = op → h'.op = op → 2 ≤ h.timeslice) :
    ∀ {t m}, m ∈ opCycles op cmds t → m + 1 ∉ opCycles op cmds t := by
  induction cmds with
  | nil => simp [opCycles]
  | cons h cmds ih =>
    intro t m hm hm1
    have hpos' : ∀ h' ∈ cmds, 1 ≤ h'.timeslice := fun h' hh' => hpos h' (List.mem_cons_of_mem _ hh')
    have h1 := hpos h (List.mem_cons_self _ _)
    rw [List.chain'_cons'] at hgap
    rcases (mem_opCycles_cons op h cmds t).1 hm with ⟨hr, rfl⟩ | hm
    · -- a READ at `m`: a READ at `m + 1` would be the next command, after a timeslice of one cycle
      rcases (mem_opCycles_cons op h cmds m).1 hm1 with ⟨-, he⟩ | hm1
      · omega
      · have hle := (opCycles_bounds op hpos' hm1).1
        rw [show m + 1 = m + h.timeslice by omega] at hm1
        obtain ⟨h', hh', hr'⟩ := head_of_mem_opCycles op hpos' hm1
        have := hgap.1 h' hh' hr hr'
        omega
    · -- a READ later on
      have hle := (opCycles_bounds op hpos' hm).1
      rcases (mem_opCycles_cons op h cmds t).1 hm1 with ⟨-, he⟩ | hm1
      · omega
      · exact ih hpos' hgap.2 hm hm1

end Positive

end HostCommand

theorem timeslice_pos_of_forall₂ {L : Layout} {P : HostCommand → Instruction → Prop} :
    ∀ {cmds : List HostCommand} {instrs : List Instruction},
      List.Forall₂ (fun h ins => h.Fits L ∧ P h ins) cmds instrs → ∀ h ∈ cmds, 1 ≤ h.timeslice
  | _, _, .nil => by simp
  | _, _, .cons hh htl => List.forall_mem_cons.2 ⟨hh.1.pos, timeslice_pos_of_forall₂ htl⟩

/-! ## The bus -/

section HostRun

variable (w : Nat) (c : Config) (hw : 0 < w) (hranks : c.nranks = 2 ^ c.layout.rankbits)
  (hpow : ∃ k, c.nphases = 2 ^ k) (hrd : c.rdphase < c.nphases) {cmds : List HostCommand}
  {instrs : List Instruction}
  (henc : List.Forall₂ (fun h ins => h.Fits c.layout ∧ h.instruction ⟨c.layout.bankbits, c.nranks⟩ = .ok ins)
    cmds instrs)
  (hlen : cmds.length < 2 ^ w) {mem : Nat → Nat}
  (hload : ∀ k ≤ cmds.length, mem k = (Encoder.encodePayload instrs ++ [0]).getD k 0)
  (mems : Nat → Nat → Nat) (inp : Nat → SysInput) {b : Nat}
  (hwait : (sysTrace w c mems inp (b - 1)).executor.fsm = .waitDfi)
  (hbub : (sysTrace w c mems inp b).executor.fsm = .bubble)
  (hmem : ∀ k < (cmds.map HostCommand.timeslice).sum + 3, mems (b + k) = mem)

include hw hranks hpow hrd henc hlen hload hwait hbub hmem

/-- **What the executor asserts in the run of a host payload**: in the `Σ T + 3` cycles from the first BUBBLE, the
host's words and nothing else, command `j` two cycles after its predecessors' timeslices and on the command's phase;
it is out of READY throughout, and back in READY after them. -/
theorem issue_of_host_commands :
    (∀ k < (cmds.map HostCommand.timeslice).sum + 3, ∀ x i,
      (sysTrace w c mems inp (b + k)).executor.issue c.layout c.nphases c.rdphase = some (x, i) ↔
        ∃ j, ∃ hj : j < cmds.length, k = ((cmds.map HostCommand.timeslice).take j).sum + 2 ∧
          x = (Encoder.encodePayload instrs).getD j 0 ∧ i = cmds[j].phase c.rdphase) ∧
      (∀ k < (cmds.map HostCommand.timeslice).sum + 3, (sysTrace w c mems inp (b + k)).executor.fsm ≠ .ready) ∧
      (sysTrace w c mems inp (b + ((cmds.map HostCommand.timeslice).sum + 3))).executor.fsm = .ready := by
  obtain ⟨p, hp⟩ := hpow
  have hfit : c.rdphase < 2 ^ phaseWidth c.nphases := hp ▸ lt_two_pow_phaseWidth (hp ▸ hrd)
  rw [hranks] at henc
  -- inside the whole, the executor runs as `trace` with `dfi_ready` from the switch
  set inp' : Nat → Input := fun k => ⟨(inp k).start, (sysTrace w c mems inp k).extDfiSel⟩
  have hex : ∀ t, (sysTrace w c mems inp t).executor = trace w c.layout mems inp' t := sysTrace_executor w c mems inp
  simp only [hex] at hwait hbub ⊢
  obtain ⟨hiss, hbusy, hready⟩ :=
    encoded_payload_issued c.layout c.nphases c.rdphase hw hfit henc hlen hload mems inp' hwait hbub hmem
  have he := (encodePayload_hosts c.layout henc).2
  refine ⟨fun k hk x i => ?_, hbusy, hready⟩
  -- the words asserted in the run are its issue list
  have hiff : (trace w c.layout mems inp' (b + k)).issue c.layout c.nphases c.rdphase = some (x, i) ↔
      (k, x, i) ∈ issued c.layout c.nphases c.rdphase (fun k => trace w c.layout mems inp' (b + k))
        ((cmds.map HostCommand.timeslice).sum + 3) :=
    ⟨fun h => (mem_issued c.layout c.nphases c.rdphase).2 ⟨hk, h⟩,
      fun h => ((mem_issued c.layout c.nphases c.rdphase).1 h).2⟩
  rw [hiff, hiss, List.mem_map]
  constructor
  · rintro ⟨j, hj, hje⟩
    have hj' := List.mem_range.1 hj
    simp only [Prod.mk.injEq] at hje
    exact ⟨j, hj', hje.1.symm, hje.2.1.symm, by rw [← hje.2.2, readPhase_of_encodes c.rdphase (he j hj').2]⟩
  · rintro ⟨j, hj, rfl, rfl, rfl⟩
    exact ⟨j, List.mem_range.2 hj, by rw [readPhase_of_encodes c.rdphase (he j hj).2]⟩

/-- **The run's `rddata_en`**: in the cycles after the first BUBBLE, some phase of the bus has `rddata_en` exactly in
the cycle after RUN sends one of the host's READs. -/
theorem rddataEn_of_host_commands :
    ∀ k < (cmds.map HostCommand.timeslice).sum + 3,
      ((List.range c.nphases).any fun i => ((sysTrace w c mems inp (b + k + 1)).dfi i).rddataEn) = true ↔
        ∃ j, ∃ hj : j < cmds.length, cmds[j].op = .read ∧ k = ((cmds.map HostCommand.timeslice).take j).sum + 2 := by
  have hn : 0 < c.nranks := hranks ▸ Nat.two_pow_pos _
  have hiss := (issue_of_host_commands w c hw hranks hpow hrd henc hlen hload mems inp hwait hbub hmem).1
  rw [hranks] at henc
  have he := (encodePayload_hosts c.layout henc).2
  intro k hk
  simp only [List.any_eq_true, List.mem_range, sysTrace_succ, System.step_dfi]
  constructor
  · rintro ⟨i, -, hi⟩
    obtain ⟨x, hx, -⟩ := (dfiNext_deselected_iff c hn (sysTrace w c mems inp (b + k)).executor
      (sysTrace w c mems inp (b + k)).dfi i).1 (by simp [DfiPhase.deselected, hi])
    obtain ⟨j, hj, rfl, rfl, rfl⟩ := (hiss k hk x i).1 hx
    rw [dfiNext_of_encodes c hx (he j hj).1 (he j hj).2] at hi
    exact ⟨j, hj, by simpa [commandPhase] using hi, rfl⟩
  · rintro ⟨j, hj, hread, rfl⟩
    have hx := (hiss _ hk _ _).2 ⟨j, hj, rfl, rfl, rfl⟩
    refine ⟨cmds[j].phase c.rdphase, by simp [HostCommand.phase, hread, hrd], ?_⟩
    rw [dfiNext_of_encodes c hx (he j hj).1 (he j hj).2]
    simp [commandPhase, hread]

/-- **The run's refreshes**: phase 0 of the bus shows `RefreshCounter`'s refresh exactly in the cycle after RUN sends
one of the host's REFs. -/
theorem refresh_of_host_commands :
    ∀ k < (cmds.map HostCommand.timeslice).sum + 3,
      RefreshCounter.refresh ((sysTrace w c mems inp (b + k + 1)).dfi 0) = true ↔
        ∃ j, ∃ hj : j < cmds.length, cmds[j].op = .ref ∧ k = ((cmds.map HostCommand.timeslice).take j).sum + 2 := by
  have hiss := (issue_of_host_commands w c hw hranks hpow hrd henc hlen hload mems inp hwait hbub hmem).1
  rw [hranks] at henc
  have he := (encodePayload_hosts c.layout henc).2
  intro k hk
  rw [sysTrace_succ, System.step_dfi, refresh_dfiNext_iff]
  constructor
  · rintro ⟨x, hx, hr⟩
    obtain ⟨j, hj, rfl, rfl, -⟩ := (hiss k hk x 0).1 hx
    exact ⟨j, hj, OpCode.value_inj.1 ((he j hj).2.opCode ▸ hr), rfl⟩
  · rintro ⟨j, hj, href, rfl⟩
    refine ⟨_, (hiss _ hk _ _).2 ⟨j, hj, rfl, rfl, by simp [HostCommand.phase, href]⟩, ?_⟩
    rw [(he j hj).2.opCode, href]

/-- **The run's refresh cycles** are those of the host's REFs, in order. -/
theorem refreshes_of_host_commands :
    (List.range ((cmds.map HostCommand.timeslice).sum + 3)).filter (fun k =>
      RefreshCounter.refresh ((sysTrace w c mems inp (b + 1 + k)).dfi 0)) = HostCommand.opCycles .ref cmds 2 := by
  have hpos := timeslice_pos_of_forall₂ henc
  have href := refresh_of_host_commands w c hw hranks hpow hrd henc hlen hload mems inp hwait hbub hmem
  have hsorted := HostCommand.opCycles_sorted .ref hpos (t := 2)
  refine List.eq_of_perm_of_sorted ((List.perm_ext_iff_of_nodup ((List.nodup_range _).filter _) hsorted.nodup).2
    fun k => ?_) ((List.sorted_lt_range _).filter _) hsorted
  simp only [List.mem_filter, List.mem_range, HostCommand.mem_opCycles, Nat.add_right_comm b 1 k]
  constructor
  · rintro ⟨hk, hr⟩
    obtain ⟨j, hj, h, rfl⟩ := (href k hk).1 hr
    exact ⟨j, hj, h, Nat.add_comm _ _⟩
  · rintro ⟨j, hj, h, rfl⟩
    have hsum := List.sum_take_add_sum_drop (cmds.map HostCommand.timeslice) j
    exact ⟨by omega, (href _ (by omega)).2 ⟨j, hj, h, Nat.add_comm _ _⟩⟩

end HostRun

/-- **The bus carries exactly the host's commands, at the host's times.**  Take the executor, the switch and the
`DFIExecutor` composed, with ranks `2^rankbits` as the decoder is built for, a power-of-two number of DFI phases and
`rdphase` among them.  Let the host write host commands that fit, fewer than `2^w` of them, into the payload memory
followed by a STOP, unchanged from the run's first BUBBLE cycle `b` until it ends.  Command `j` is on the bus in cycle
`b + 3` plus the timeslices of the commands before it, on its phase, as `commandPhase`; in the cycles `b + 1` to the
end of the run no phase carries anything else than these commands; and the executor is back in READY `3` cycles after
the last command's time is up. -/
theorem host_commands_on_bus (w : Nat) (c : Config) (hw : 0 < w) (hranks : c.nranks = 2 ^ c.layout.rankbits)
    (hpow : ∃ k, c.nphases = 2 ^ k) (hrd : c.rdphase < c.nphases) {cmds : List HostCommand}
    {instrs : List Instruction}
    (henc : List.Forall₂ (fun h ins => h.Fits c.layout ∧ h.instruction ⟨c.layout.bankbits, c.nranks⟩ = .ok ins)
      cmds instrs)
    (hlen : cmds.length < 2 ^ w) {mem : Nat → Nat}
    (hload : ∀ k ≤ cmds.length, mem k = (Encoder.encodePayload instrs ++ [0]).getD k 0)
    (mems : Nat → Nat → Nat) (inp : Nat → SysInput) {b : Nat}
    (hwait : (sysTrace w c mems inp (b - 1)).executor.fsm = .waitDfi)
    (hbub : (sysTrace w c mems inp b).executor.fsm = .bubble)
    (hmem : ∀ k < (cmds.map HostCommand.timeslice).sum + 3, mems (b + k) = mem) :
    let tr := sysTrace w c mems inp
    let times := cmds.map HostCommand.timeslice
    (∀ j (hj : j < cmds.length),
      (tr (b + 3 + (times.take j).sum)).dfi (cmds[j].phase c.rdphase) = commandPhase c.nranks cmds[j]) ∧
    (∀ k < times.sum + 3, ∀ i, ((tr (b + 1 + k)).dfi i).deselected c.nranks = false →
      ∃ j, ∃ hj : j < cmds.length, k = (times.take j).sum + 2 ∧ i = cmds[j].phase c.rdphase) ∧
    (tr (b + (times.sum + 3))).executor.fsm = .ready := by
  intro tr times
  have hn : 0 < c.nranks := hranks ▸ Nat.two_pow_pos _
  obtain ⟨hiss, -, hready⟩ := issue_of_host_commands w c hw hranks hpow hrd henc hlen hload mems inp hwait hbub hmem
  rw [hranks] at henc
  have he := (encodePayload_hosts c.layout henc).2
  refine ⟨fun j hj => ?_, fun k hk i hi => ?_, hready⟩
  · -- command `j` is asserted two cycles after `b` plus its predecessors' time, and is on the bus the cycle after
    have hsum := List.sum_take_add_sum_drop times j
    have hx := (hiss ((times.take j).sum + 2) (show (times.take j).sum + 2 < times.sum + 3 by omega) _ _).2
      ⟨j, hj, rfl, rfl, rfl⟩
    rw [show b + 3 + (times.take j).sum = b + ((times.take j).sum + 2) + 1 by omega]
    simp only [tr, sysTrace_succ, System.step_dfi]
    exact dfiNext_of_encodes c hx (he j hj).1 (he j hj).2
  · -- a phase that is not deselected carries what the executor asserted the cycle before
    rw [show b + 1 + k = b + k + 1 by omega] at hi
    obtain ⟨x, hx, -⟩ := (dfiNext_deselected_iff c hn _ _ i).1 hi
    obtain ⟨j, hj, hkj, -, hij⟩ := (hiss k hk x i).1 hx
    exact ⟨j, hj, hkj, hij⟩

/-- One rank, four phases with READs on phase 2, and a host payload of an ACT of 2 cycles to bank 1, row 16, then a
READ of bank 1, column 8, started at reset: the run's first BUBBLE cycle is 3, the ACT is on phase 0 in cycle 6 and the
READ on phase 2 in cycle 8. -/
theorem host_commands_on_bus_act_read :
    let c : Config := ⟨⟨0, 4, 16, 10, by decide⟩, 1, 4, 2, false⟩
    let cmds : List HostCommand := [⟨.act, 2, 0, 1, 16⟩, ⟨.read, 1, 0, 1, 8⟩]
    let instrs : List Instruction := [Instruction.dfi .act { timeslice := some 2, address := some 257 } 2,
      Instruction.dfi .read { timeslice := some 1, address := some 129 } 1]
    let mem : Nat → Nat := fun a => (Encoder.encodePayload instrs ++ [0]).getD a 0
    let tr := sysTrace 2 c (fun _ => mem) fun k => ⟨k == 0, false, 0, false⟩
    let times := cmds.map HostCommand.timeslice
    (tr (3 - 1)).executor.fsm = .waitDfi ∧ (tr 3).executor.fsm = .bubble ∧
      (∀ j (hj : j < cmds.length),
        (tr (3 + 3 + (times.take j).sum)).dfi (cmds[j].phase c.rdphase) = commandPhase c.nranks cmds[j]) ∧
      (∀ k < times.sum + 3, ∀ i, ((tr (3 + 1 + k)).dfi i).deselected c.nranks = false →
        ∃ j, ∃ hj : j < cmds.length, k = (times.take j).sum + 2 ∧ i = cmds[j].phase c.rdphase) ∧
      (tr (3 + (times.sum + 3))).executor.fsm = .ready := by
  intro c cmds instrs mem tr times
  have hwait : (tr (3 - 1)).executor.fsm = .waitDfi := by decide
  have hbub : (tr 3).executor.fsm = .bubble := by decide
  have henc : List.Forall₂ (fun h ins => h.Fits c.layout ∧ h.instruction ⟨c.layout.bankbits, c.nranks⟩ = .ok ins)
      cmds instrs :=
    .cons ⟨⟨rfl, by decide, by decide, by decide, by decide, by decide⟩,
        by simp only [HostCommand.instruction, Encoder.address]; rfl⟩
      (.cons ⟨⟨rfl, by decide, by decide, by decide, by decide, by decide⟩,
        by simp only [HostCommand.instruction, Encoder.address]; rfl⟩ .nil)
  exact ⟨hwait, hbub, host_commands_on_bus 2 c (by decide) rfl ⟨2, rfl⟩ (by decide) henc (by decide)
    (fun _ _ => rfl) _ _ hwait hbub fun _ _ => rfl⟩

/-- **A host payload's run shows its REFs as refreshes, and nothing else.**  Under the hypotheses of
`host_commands_on_bus`, the cycles of the run in which phase 0 of the bus shows `RefreshCounter`'s refresh (its test
for a memory other than DDR5) are exactly the cycles of the host's REF commands, in order; so a refresh counter on that
phase, as the switch's is on the DFII master while it selects the executor, counts the payload's REFs. -/
theorem host_refreshes_on_bus (w : Nat) (c : Config) (hw : 0 < w) (hranks : c.nranks = 2 ^ c.layout.rankbits)
    (hpow : ∃ k, c.nphases = 2 ^ k) (hrd : c.rdphase < c.nphases) {cmds : List HostCommand}
    {instrs : List Instruction}
    (henc : List.Forall₂ (fun h ins => h.Fits c.layout ∧ h.instruction ⟨c.layout.bankbits, c.nranks⟩ = .ok ins)
      cmds instrs)
    (hlen : cmds.length < 2 ^ w) {mem : Nat → Nat}
    (hload : ∀ k ≤ cmds.length, mem k = (Encoder.encodePayload instrs ++ [0]).getD k 0)
    (mems : Nat → Nat → Nat) (inp : Nat → SysInput) {b : Nat}
    (hwait : (sysTrace w c mems inp (b - 1)).executor.fsm = .waitDfi)
    (hbub : (sysTrace w c mems inp b).executor.fsm = .bubble)
    (hmem : ∀ k < (cmds.map HostCommand.timeslice).sum + 3, mems (b + k) = mem) :
    let refreshes := (List.range ((cmds.map HostCommand.timeslice).sum + 3)).filter fun k =>
      RefreshCounter.refresh ((sysTrace w c mems inp (b + 1 + k)).dfi 0)
    refreshes = HostCommand.opCycles .ref cmds 2 ∧ refreshes.length = cmds.countP fun h => h.op = .ref := by
  intro refreshes
  have heq : refreshes = HostCommand.opCycles .ref cmds 2 :=
    refreshes_of_host_commands w c hw hranks hpow hrd henc hlen hload mems inp hwait hbub hmem
  exact ⟨heq, by rw [heq, HostCommand.length_opCycles]⟩

/-- One rank, one phase, and a host payload of a REF of 2 cycles then an ACT, started at reset: the run's first BUBBLE
cycle is 3, and the one refresh of the run is on phase 0 in cycle 6. -/
theorem host_refreshes_on_bus_ref_act :
    let c : Config := ⟨⟨0, 4, 16, 10, by decide⟩, 1, 1, 0, false⟩
    let cmds : List HostCommand := [⟨.ref, 2, 0, 0, 0⟩, ⟨.act, 1, 0, 1, 16⟩]
    let instrs : List Instruction := [Instruction.dfi .ref { timeslice := some 2, address := some 0 } 2,
      Instruction.dfi .act { timeslice := some 1, address := some 257 } 1]
    let mem : Nat → Nat := fun a => (Encoder.encodePayload instrs ++ [0]).getD a 0
    let inp : Nat → SysInput := fun k => ⟨k == 0, false, 0, false⟩
    HostCommand.opCycles .ref cmds 2 = [2] ∧
      (sysTrace 2 c (fun _ => mem) inp (3 - 1)).executor.fsm = .waitDfi ∧
      (sysTrace 2 c (fun _ => mem) inp 3).executor.fsm = .bubble ∧
      let refreshes := (List.range ((cmds.map HostCommand.timeslice).sum + 3)).filter fun k =>
        RefreshCounter.refresh ((sysTrace 2 c (fun _ => mem) inp (3 + 1 + k)).dfi 0)
      refreshes = HostCommand.opCycles .ref cmds 2 ∧ refreshes.length = cmds.countP fun h => h.op = .ref := by
  intro c cmds instrs mem inp
  have hwait : (sysTrace 2 c (fun _ => mem) inp (3 - 1)).executor.fsm = .waitDfi := by decide
  have hbub : (sysTrace 2 c (fun _ => mem) inp 3).executor.fsm = .bubble := by decide
  have henc : List.Forall₂ (fun h ins => h.Fits c.layout ∧ h.instruction ⟨c.layout.bankbits, c.nranks⟩ = .ok ins)
      cmds instrs :=
    .cons ⟨⟨rfl, by decide, by decide, by decide, by decide, by decide⟩,
        by simp only [HostCommand.instruction, Encoder.address]; rfl⟩
      (.cons ⟨⟨rfl, by decide, by decide, by decide, by decide, by decide⟩,
        by simp only [HostCommand.instruction, Encoder.address]; rfl⟩ .nil)
  exact ⟨by decide, hwait, hbub, @host_refreshes_on_bus 2 c (by decide) rfl ⟨0, rfl⟩ (by decide) cmds instrs henc
    (by decide) mem (fun _ _ => rfl) (fun _ => mem) inp 3 hwait hbub fun _ _ => rfl⟩

/-- **A payload run advances `refresh_counter` by its REFs.**  Under the hypotheses of `host_commands_on_bus`, let the
DFII master show the executor's phase 0 in the run's cycles in which `ext_dfi_sel` is asserted, as LiteDRAM's
`DFIInjector` (outside this repository) connects it.  Then the switch is in PAYLOAD-EXECUTION from the cycle after
the first BUBBLE to the cycle the run is back in READY, and its 64-bit refresh counter, over those cycles, advances by
exactly the number of the payload's REFs. -/
theorem payload_refreshes_counted (w : Nat) (c : Config) (hw : 0 < w) (hranks : c.nranks = 2 ^ c.layout.rankbits)
    (hpow : ∃ k, c.nphases = 2 ^ k) (hrd : c.rdphase < c.nphases) {cmds : List HostCommand}
    {instrs : List Instruction}
    (henc : List.Forall₂ (fun h ins => h.Fits c.layout ∧ h.instruction ⟨c.layout.bankbits, c.nranks⟩ = .ok ins)
      cmds instrs)
    (hlen : cmds.length < 2 ^ w) {mem : Nat → Nat}
    (hload : ∀ k ≤ cmds.length, mem k = (Encoder.encodePayload instrs ++ [0]).getD k 0)
    (mems : Nat → Nat → Nat) (inp : Nat → SysInput) {b : Nat}
    (hwait : (sysTrace w c mems inp (b - 1)).executor.fsm = .waitDfi)
    (hbub : (sysTrace w c mems inp b).executor.fsm = .bubble)
    (hmem : ∀ k < (cmds.map HostCommand.timeslice).sum + 3, mems (b + k) = mem)
    (hdfii : ∀ k < (cmds.map HostCommand.timeslice).sum + 3, (sysTrace w c mems inp (b + 1 + k)).extDfiSel = true →
      (inp (b + 1 + k)).refresh = RefreshCounter.refresh ((sysTrace w c mems inp (b + 1 + k)).dfi 0)) :
    (∀ k < (cmds.map HostCommand.timeslice).sum + 3,
      (sysTrace w c mems inp (b + 1 + k)).switch = .payloadExecution) ∧
    (sysTrace w c mems inp (b + 1 + ((cmds.map HostCommand.timeslice).sum + 3))).refreshCounter =
      ((sysTrace w c mems inp (b + 1)).refreshCounter + cmds.countP fun h => h.op = .ref) % 2 ^ 64 := by
  have hsafe := safe_sysTrace c mems inp (w := w)
  have hbusy := (issue_of_host_commands w c hw hranks hpow hrd henc hlen hload mems inp hwait hbub hmem).2.1
  -- BUBBLE holds the bus, and `wants_dfi` keeps it held until the run is back in READY
  have hpe : (sysTrace w c mems inp b).switch = .payloadExecution :=
    (hsafe b).executing (by simp [executing_eq, hbub])
  have hhold : ∀ k < (cmds.map HostCommand.timeslice).sum + 3,
      (sysTrace w c mems inp (b + 1 + k)).switch = .payloadExecution := fun k hk => by
    have := payload_of_wants w c mems inp hpe (k + 1) fun j h1 h2 => by
      have := hbusy (j - b) (by omega)
      rw [Nat.add_sub_cancel' h1] at this
      simpa [(hsafe j).wants] using this
    rwa [Nat.add_assoc, Nat.add_comm 1 k]
  have hsel : ∀ k < (cmds.map HostCommand.timeslice).sum + 3, (sysTrace w c mems inp (b + 1 + k)).extDfiSel = true :=
    fun k hk => by simp [System.extDfiSel, hhold k hk]
  have hcount : ((List.range ((cmds.map HostCommand.timeslice).sum + 3)).countP fun k => (inp (b + 1 + k)).refresh) =
      cmds.countP fun h => h.op = .ref := by
    rw [List.countP_eq_length_filter, ← HostCommand.length_opCycles .ref cmds 2,
      ← refreshes_of_host_commands w c hw hranks hpow hrd henc hlen hload mems inp hwait hbub hmem]
    congr 1
    exact List.filter_congr fun k hk => hdfii k (List.mem_range.1 hk) (hsel k (List.mem_range.1 hk))
  refine ⟨hhold, ?_⟩
  rw [refreshCounter_sysTrace, refreshCounter_sysTrace, List.range_add, List.countP_append, List.countP_map,
    Nat.mod_add_mod, ← hcount]
  rfl

/-- The payload of `host_refreshes_on_bus_ref_act`, with the master showing a refresh in cycle 6: the counter, 0 after
the first BUBBLE, is 1 after the run. -/
theorem payload_refreshes_counted_ref_act :
    let c : Config := ⟨⟨0, 4, 16, 10, by decide⟩, 1, 1, 0, false⟩
    let cmds : List HostCommand := [⟨.ref, 2, 0, 0, 0⟩, ⟨.act, 1, 0, 1, 16⟩]
    let instrs : List Instruction := [Instruction.dfi .ref { timeslice := some 2, address := some 0 } 2,
      Instruction.dfi .act { timeslice := some 1, address := some 257 } 1]
    let mem : Nat → Nat := fun a => (Encoder.encodePayload instrs ++ [0]).getD a 0
    let inp : Nat → SysInput := fun k => ⟨k == 0, k == 6, 0, false⟩
    (sysTrace 2 c (fun _ => mem) inp (3 - 1)).executor.fsm = .waitDfi ∧
      (sysTrace 2 c (fun _ => mem) inp 3).executor.fsm = .bubble ∧
      (∀ k < (cmds.map HostCommand.timeslice).sum + 3, (sysTrace 2 c (fun _ => mem) inp (3 + 1 + k)).extDfiSel = true →
        (inp (3 + 1 + k)).refresh = RefreshCounter.refresh ((sysTrace 2 c (fun _ => mem) inp (3 + 1 + k)).dfi 0)) ∧
      (∀ k < (cmds.map HostCommand.timeslice).sum + 3,
        (sysTrace 2 c (fun _ => mem) inp (3 + 1 + k)).switch = .payloadExecution) ∧
      (sysTrace 2 c (fun _ => mem) inp (3 + 1 + ((cmds.map HostCommand.timeslice).sum + 3))).refreshCounter =
        ((sysTrace 2 c (fun _ => mem) inp (3 + 1)).refreshCounter + cmds.countP fun h => h.op = .ref) % 2 ^ 64 := by
  intro c cmds instrs mem inp
  have hwait : (sysTrace 2 c (fun _ => mem) inp (3 - 1)).executor.fsm = .waitDfi := by decide
  have hbub : (sysTrace 2 c (fun _ => mem) inp 3).executor.fsm = .bubble := by decide
  have hdfii : ∀ k < (cmds.map HostCommand.timeslice).sum + 3,
      (sysTrace 2 c (fun _ => mem) inp (3 + 1 + k)).extDfiSel = true →
        (inp (3 + 1 + k)).refresh = RefreshCounter.refresh ((sysTrace 2 c (fun _ => mem) inp (3 + 1 + k)).dfi 0) := by
    decide
  have henc : List.Forall₂ (fun h ins => h.Fits c.layout ∧ h.instruction ⟨c.layout.bankbits, c.nranks⟩ = .ok ins)
      cmds instrs :=
    .cons ⟨⟨rfl, by decide, by decide, by decide, by decide, by decide⟩,
        by simp only [HostCommand.instruction, Encoder.address]; rfl⟩
      (.cons ⟨⟨rfl, by decide, by decide, by decide, by decide, by decide⟩,
        by simp only [HostCommand.instruction, Encoder.address]; rfl⟩ .nil)
  exact ⟨hwait, hbub, hdfii, @payload_refreshes_counted 2 c (by decide) rfl ⟨0, rfl⟩ (by decide) cmds instrs henc
    (by decide) mem (fun _ _ => rfl) (fun _ => mem) inp 3 hwait hbub (fun _ _ => rfl) hdfii⟩

/-! ## The phases `DFIExecutor` can reach

`dfi_executor.phase` is a `Signal(max=max(len(dfi.phases) - 1, 2))`: its largest value is `nphases - 2`, one short of
the last phase, unless the width it rounds up to makes room.  It does for every power of two (the configurations the
refinement above is stated for) and misses exactly at `2^k + 1`.
-/

theorem phaseWidth_two_pow_add_one {k : Nat} (hk : 1 ≤ k) : phaseWidth (2 ^ k + 1) = k := by
  have h2 : 2 ≤ 2 ^ k := Nat.one_lt_two_pow (by omega)
  unfold phaseWidth bitsFor
  rw [Nat.add_sub_cancel, max_eq_left h2, if_neg (by omega), Encoder.bitLength_two_pow_sub_one]

/-- **`dfi_executor.phase` reaches every phase unless there are `2^k + 1` of them**, `k ≥ 1`. -/
theorem phase_reaches_every_phase_iff (nphases : Nat) :
    (∀ i < nphases, i < 2 ^ phaseWidth nphases) ↔ ∀ k, 1 ≤ k → nphases ≠ 2 ^ k + 1 := by
  constructor
  · rintro h k hk rfl
    have hlast := h (2 ^ k) (by omega)
    rw [phaseWidth_two_pow_add_one hk] at hlast
    exact Nat.lt_irrefl _ hlast
  · intro h i hi
    -- the width holds `max (nphases - 1) 2 - 1`, and `nphases - 1` too unless that is the power of two it rounds to
    have hlt := lt_two_pow_bitsFor (max (nphases - 1) 2 - 1)
    have hpos := one_le_bitsFor (max (nphases - 1) 2 - 1)
    have h2 : 2 ^ 1 ≤ 2 ^ bitsFor (max (nphases - 1) 2 - 1) := Nat.pow_le_pow_right (by decide) hpos
    have hne := h _ hpos
    unfold phaseWidth
    omega

/-- **With `2^k + 1` phases the last one is never driven.**  In every cycle of every run of the composed gateware,
phase `2^k` carries the deselect pattern, and a READ RUN sends goes out, with `rddata_en`, on phase `rdphase mod 2^k`:
on phase 0 where `rdphase` names the last phase. -/
theorem last_phase_never_driven (w : Nat) (c : Config) {k : Nat} (hk : 1 ≤ k) (hn : c.nphases = 2 ^ k + 1)
    (mems : Nat → Nat → Nat) (inp : Nat → SysInput) (t : Nat) :
    ((sysTrace w c mems inp t).dfi (2 ^ k)).deselected c.nranks = true ∧
      ((sysTrace w c mems inp t).executor.exec c.layout = true →
        (decode c.layout (sysTrace w c mems inp t).executor.instruction).opCode = OpCode.read.value →
        ((sysTrace w c mems inp (t + 1)).dfi (c.rdphase % 2 ^ k)).rddataEn = true) := by
  have hw : phaseWidth c.nphases = k := hn ▸ phaseWidth_two_pow_add_one hk
  refine ⟨?_, fun hx hr => ?_⟩
  · cases t with
    | zero => simp [sysTrace, System.init, DfiPhase.idle, DfiPhase.deselected]
    | succ t =>
      have hlt : (sysTrace w c mems inp t).executor.phase c.layout c.nphases c.rdphase < 2 ^ k :=
        hw ▸ Nat.mod_lt _ (Nat.two_pow_pos _)
      simp [dfiNext, hlt.ne, DfiPhase.deselected]
  · have hp : (sysTrace w c mems inp t).executor.phase c.layout c.nphases c.rdphase = c.rdphase % 2 ^ k := by
      simp only [State.phase, hx, Bool.true_and, read_bits_eq, hr, decide_True, if_true, hw]
    simp [dfiNext, hp, hx, hr]

/-- Three phases with READs on the last, and a payload of one READ started at reset: RUN sends it in cycle 5, and in
cycle 6 it is on phase 0 while phase 2 stays deselected. -/
theorem last_phase_never_driven_three :
    let c : Config := ⟨⟨0, 4, 16, 10, by decide⟩, 1, 3, 2, false⟩
    let mem : Nat → Nat := fun a =>
      (Encoder.encodePayload [Instruction.dfi .read { timeslice := some 1, address := some 0 } 1] ++ [0]).getD a 0
    let tr := sysTrace 2 c (fun _ => mem) fun k => ⟨k == 0, false, 0, false⟩
    (tr 5).executor.exec c.layout = true ∧
      (decode c.layout (tr 5).executor.instruction).opCode = OpCode.read.value ∧
      ((tr 5).dfi (2 ^ 1)).deselected c.nranks = true ∧
      ((tr 5).executor.exec c.layout = true → (decode c.layout (tr 5).executor.instruction).opCode = OpCode.read.value →
        ((tr (5 + 1)).dfi (c.rdphase % 2 ^ 1)).rddataEn = true) :=
  ⟨by decide, by decide, last_phase_never_driven 2 _ le_rfl rfl _ _ 5⟩

end PayloadExecutor
