import Mathlib
/-!
# Codec — the 32-bit instruction word (`OpCode`, `Decoder`, `Encoder`)

`Decoder` slices a 32-bit word combinationally; `Encoder` builds words on the host.  A word is a `Nat` and a slice
`x[lo : lo + width]` of a migen signal is `slice x lo width`.  The encoder's `_parts` are `(width, value)` pairs packed
low to high by `encode_spec`, each value masked to its width.  An `Encoder.Instruction` whose DFI timeslice does not fit
the 5-bit field keeps `timeslice & 31` (at least 1) and carries the rest in trailing NOOP words (`_noops`).

Python's `assert` and a missing keyword argument are the `Except.error` of `Instruction.init` and `Encoder.address`,
with the source's messages.  The WARNING/INFO lines `__init__` prints are not modelled.

What a word decodes to: every field of an instruction that fits its widths comes back (`encodeSpec_roundtrip`); a
long timeslice is kept across the trailing NOOPs (`encodeSpec_dfi_timing`), one NOOP per 28 cycles after the command
word (`encodeSpec_dfi_words`); and a payload of short DFI commands is one
word per command, lasting its timeslice (`encodePayload_short`), which `Programs` runs on the executor.
`init_accepts_iff` says which instructions `__init__` accepts; a LOOP jump is never checked and wraps modulo `2^17`
(`loop_jump_wraps`).
-/
namespace PayloadExecutor

/-- `OpCode`: the operation in a word's low three bits; for the DFI commands the bits are `(ras, cas, we)`. -/
inductive OpCode where
  | noop | loop | act | pre | ref | zqc | read
  deriving DecidableEq, Repr

namespace OpCode

/-- The `IntEnum` value of each operation. -/
def value : OpCode → Nat
  | noop => 0b000
  | loop => 0b111
  | act => 0b100
  | pre => 0b101
  | ref => 0b110
  | zqc => 0b001
  | read => 0b010

/-- `op_code.name`, as the encoder's messages print it. -/
def name : OpCode → String
  | noop => "NOOP"
  | loop => "LOOP"
  | act => "ACT"
  | pre => "PRE"
  | ref => "REF"
  | zqc => "ZQC"
  | read => "READ"

/-- The operations `DFIExecutor` puts on the bus: every one but NOOP and LOOP. -/
def isDfi (op : OpCode) : Bool := op ≠ noop && op ≠ loop

theorem value_lt (op : OpCode) : op.value < 8 := by cases op <;> decide

theorem value_inj {a b : OpCode} : a.value = b.value ↔ a = b := by
  cases a <;> cases b <;> decide

theorem value_ne_zero {op : OpCode} (hop : op.isDfi) : op.value ≠ 0 := by cases op <;> simp_all [isDfi, value]

theorem value_ne_loop {op : OpCode} (hop : op.isDfi) : op.value ≠ loop.value := by cases op <;> simp_all [isDfi, value]

end OpCode

/-! ## Decoder -/

namespace Decoder

def INSTRUCTION : Nat := 32
def OP_CODE : Nat := 3
def TIMESLICE : Nat := 5
def ADDRESS : Nat := 24
def TIMESLICE_NOOP : Nat := TIMESLICE + ADDRESS
def LOOP_COUNT : Nat := 12
def LOOP_JUMP : Nat := 17

end Decoder

/-- `x[lo : lo + width]` of a migen signal: `width` bits of `x` from bit `lo`. -/
def slice (x lo width : Nat) : Nat := (x >>> lo) % 2 ^ width

/-- The address layout a `Decoder` is built with.  `__init__` asserts that rank, bank and row-or-column fit the
24-bit ADDRESS field, so a layout carries that fact. -/
structure Layout where
  rankbits : Nat
  bankbits : Nat
  rowbits : Nat
  colbits : Nat
  fits : rankbits + bankbits + max rowbits colbits ≤ Decoder.ADDRESS

/-- The signals `Decoder` drives from `instruction`.  `dfiRank` is the `dfi_rank` signal built when `rankbits > 0`; with
`rankbits = 0` it is the empty slice, `0`. -/
structure Decoded where
  opCode : Nat
  timeslice : Nat
  address : Nat
  cas : Bool
  ras : Bool
  we : Bool
  dfiBank : Nat
  dfiAddress : Nat
  dfiRank : Nat
  loopCount : Nat
  loopJump : Nat
  stop : Bool
  deriving DecidableEq, Repr

open Decoder in
/-- `Decoder`: every field a slice of the 32-bit word; a NOOP reads its 29-bit timeslice, the others 5 bits. -/
def decode (L : Layout) (instruction : Nat) : Decoded :=
  let opCode := slice instruction 0 OP_CODE
  let tail := slice instruction OP_CODE (INSTRUCTION - OP_CODE)
  let timeslice := if opCode = OpCode.noop.value then slice tail 0 TIMESLICE_NOOP else slice tail 0 TIMESLICE
  let address := slice tail TIMESLICE ADDRESS
  { opCode, timeslice, address
    loopCount := slice tail 0 LOOP_COUNT
    loopJump := slice tail LOOP_COUNT LOOP_JUMP
    stop := opCode = OpCode.noop.value && timeslice = 0
    cas := opCode.testBit 1
    ras := opCode.testBit 2
    we := opCode.testBit 0
    dfiBank := slice address L.rankbits L.bankbits
    dfiAddress := slice address (L.rankbits + L.bankbits) (ADDRESS - (L.rankbits + L.bankbits)) % 2 ^ max L.rowbits L.colbits
    dfiRank := slice address 0 L.rankbits }

/-- Cycles the executor spends on a word that is not a LOOP: RUN treats `timeslice ∈ {0, 1}` as one cycle and waits
out `timeslice - 1` more in IDLE otherwise. -/
def Decoded.duration (d : Decoded) : Nat := max d.timeslice 1

/-! ## Encoder -/

/-- `Encoder(bankbits, nranks)`. -/
structure Encoder where
  bankbits : Nat
  nranks : Nat

/-- The keyword arguments an `Encoder.Instruction` reads; an absent key is `none`. -/
structure Kwargs where
  timeslice : Option Nat := none
  address : Option Nat := none
  count : Option Nat := none
  jump : Option Nat := none

/-- An `Encoder.Instruction` as `__init__` leaves it: `_parts` as `(width, value)` pairs and, when the timeslice
needed them, `_noops`. -/
structure Instruction where
  opCode : OpCode
  kwargs : Kwargs
  parts : List (Nat × Nat)
  noops : Option (List (List (Nat × Nat)))

/-- Python's `range(start, stop, step)` for a positive step. -/
def pyRange (start stop step : Nat) : List Nat :=
  (List.range ((stop - start + step - 1) / step)).map (fun k => start + k * step)

/-- What `kwargs[k]` raises for an absent key. -/
def keyError (k : String) : String := "KeyError: " ++ k

/-- `kwargs[k]`. -/
def key (v : Option Nat) (k : String) : Except String Nat :=
  match v with
  | some x => .ok x
  | none => .error (keyError k)

namespace Instruction

open Decoder

/-- The DFI branch of `__init__` once its assertions passed: the base word keeps `timeslice & 31` (at least 1), and the
rest of the timeslice goes to NOOPs of at most `TIMESLICE_NOOP - 1` cycles each. -/
def dfi (op : OpCode) (kw : Kwargs) (timeslice : Nat) : Instruction :=
  let base := max (timeslice &&& (2 ^ TIMESLICE - 1)) 1
  let parts := [(OP_CODE, op.value), (TIMESLICE, base), (ADDRESS, kw.address.getD 0)]
  if base ≠ timeslice then
    let remaining := timeslice - base
    ⟨op, kw, parts, some ((pyRange 0 remaining (TIMESLICE_NOOP - 1)).map fun i =>
      [(OP_CODE, OpCode.noop.value), (TIMESLICE_NOOP, min (remaining - i) (TIMESLICE_NOOP - 1))])⟩
  else ⟨op, kw, parts, none⟩

/-- `Encoder.Instruction.__init__`. -/
def init (op : OpCode) (kw : Kwargs) : Except String Instruction :=
  if op = .loop then
    match kw.count with
    | none => .error (keyError "count")
    | some count =>
      if count < 2 ^ LOOP_COUNT then
        match kw.jump with
        | none => .error (keyError "jump")
        | some jump => .ok ⟨op, kw, [(OP_CODE, op.value), (LOOP_COUNT, count), (LOOP_JUMP, jump)], none⟩
      else .error ("LOOP count value:" ++ toString count ++ " exceeded max value:" ++ toString (2 ^ LOOP_COUNT - 1))
  else if op = .noop then
    match kw.timeslice with
    | none => .error (keyError "timeslice")
    | some timeslice =>
      if timeslice < 2 ^ TIMESLICE_NOOP then .ok ⟨op, kw, [(OP_CODE, op.value), (TIMESLICE_NOOP, timeslice)], none⟩
      else .error ("Timeslice value:" ++ toString timeslice ++ " exceeded max value:" ++
        toString (2 ^ TIMESLICE_NOOP - 1))
  else
    match kw.timeslice with
    | none => .error (keyError "timeslice")
    | some timeslice =>
      if timeslice = 0 then .error "Timeslice for instructions other than NOOP should be > 0"
      else if kw.address.isNone && op ≠ .ref then .error (op.name ++ " instruction requires `address`")
      else .ok (dfi op kw timeslice)

end Instruction

namespace Encoder

/-- One iteration of `encode_spec`'s inner loop over `(instr, n)`: `instr |= (val & mask) << n; n += width`. -/
def encodeStep (acc : Nat × Nat) (part : Nat × Nat) : Nat × Nat :=
  (acc.1 ||| ((part.2 &&& (2 ^ part.1 - 1)) <<< acc.2), acc.2 + part.1)

/-- The word `encode_spec` builds from one list of parts. -/
def encodeParts (parts : List (Nat × Nat)) : Nat := (parts.foldl encodeStep (0, 0)).1

/-- `Encoder.encode_spec`: a word for `_parts`, then one for each entry of `_noops`. -/
def encodeSpec (spec : Instruction) : List Nat :=
  (spec.parts :: spec.noops.getD []).map encodeParts

/-- `Encoder.encode_payload`. -/
def encodePayload (payload : List Instruction) : List Nat :=
  payload.flatMap encodeSpec

/-- `int.bit_length()`. -/
def bitLength (n : Nat) : Nat := if n = 0 then 0 else n.log2 + 1

/-- migen's `log2_int(n)`: the exponent of a power of two. -/
def log2Int (n : Nat) : Except String Nat :=
  if n = 0 then .ok 0
  else if 2 ^ bitLength (n - 1) = n then .ok (bitLength (n - 1))
  else .error "ValueError: Not a power of 2"

/-- `Encoder.address`: bank in the low `bankbits`, row or column above it, and with several ranks the whole shifted
up by `log2_int(nranks)` under the rank. -/
def address (e : Encoder) (rank : Option Nat) (bank : Nat) (row col : Option Nat) : Except String Nat :=
  if row.isSome && col.isSome then .error "AssertionError"
  else
    let rowcol := row.getD (col.getD 0)
    let address := (bank &&& (2 ^ e.bankbits - 1)) ||| (rowcol <<< e.bankbits)
    if e.nranks > 1 then
      match log2Int e.nranks, rank with
      | .error m, _ => .error m
      | .ok _, none => .error "TypeError: unsupported operand type(s) for |=: int and NoneType"
      | .ok r, some rank => .ok ((address <<< r) ||| rank)
    else .ok address

end Encoder

/-! ## Packing and unpacking

`encodeParts` ORs each masked value above the bits already written, so it adds it: the word is `packed parts`.  A word
is then its op code under a 29-bit tail (`decode_add_mul`), and every fact about a decoded field is arithmetic on
the tail. -/

namespace Encoder

/-- The number `encodeParts` builds: each value masked to its width, the first part lowest. -/
def packed : List (Nat × Nat) → Nat
  | [] => 0
  | (w, v) :: ps => v % 2 ^ w + 2 ^ w * packed ps

theorem or_shiftLeft_eq_add {acc n : Nat} (x : Nat) (h : acc < 2 ^ n) : acc ||| x <<< n = acc + 2 ^ n * x := by
  rw [Nat.shiftLeft_eq, Nat.or_comm, Nat.mul_comm, ← Nat.mul_add_lt_is_or h, Nat.add_comm]

theorem add_two_pow_mul_lt {acc n m w : Nat} (h : acc < 2 ^ n) (hm : m < 2 ^ w) : acc + 2 ^ n * m < 2 ^ (n + w) :=
  calc acc + 2 ^ n * m < 2 ^ n * (m + 1) := by rw [Nat.mul_succ]; omega
    _ ≤ 2 ^ n * 2 ^ w := Nat.mul_le_mul_left _ hm
    _ = 2 ^ (n + w) := (Nat.pow_add 2 n w).symm

theorem foldl_encodeStep : ∀ (ps : List (Nat × Nat)) (acc n : Nat), acc < 2 ^ n →
    ps.foldl encodeStep (acc, n) = (acc + 2 ^ n * packed ps, n + (ps.map Prod.fst).sum)
  | [], acc, n, _ => by simp [packed]
  | (w, v) :: ps, acc, n, h => by
    simp only [List.foldl_cons, encodeStep, Nat.and_pow_two_sub_one_eq_mod, or_shiftLeft_eq_add _ h]
    rw [foldl_encodeStep ps _ _ (add_two_pow_mul_lt h (Nat.mod_lt _ (Nat.two_pow_pos w)))]
    simp only [packed, List.map_cons, List.sum_cons, Prod.mk.injEq, Nat.pow_add]
    constructor
    · ring
    · omega

theorem encodeParts_eq_packed (ps : List (Nat × Nat)) : encodeParts ps = packed ps := by
  rw [encodeParts, foldl_encodeStep ps 0 0 Nat.one_pos, Nat.pow_zero, Nat.one_mul, Nat.zero_add]

/-- A value that fits its width is packed unmasked. -/
theorem packed_cons_of_lt {w x : Nat} (ps : List (Nat × Nat)) (hx : x < 2 ^ w) :
    packed ((w, x) :: ps) = x + 2 ^ w * packed ps := by
  rw [packed, Nat.mod_eq_of_lt hx]

/-- A DFI command's word: op code, timeslice and address, each masked to its width. -/
theorem packed_dfi (op b a : Nat) :
    packed [(Decoder.OP_CODE, op), (Decoder.TIMESLICE, b), (Decoder.ADDRESS, a)] =
      op % 8 + 8 * (b % 32 + 32 * (a % 2 ^ 24)) := by
  simp only [packed, Decoder.OP_CODE, Decoder.TIMESLICE, Decoder.ADDRESS, Nat.mul_zero, Nat.add_zero]
  rfl

end Encoder

theorem slice_add_mul {a lo : Nat} (b w : Nat) (ha : a < 2 ^ lo) : slice (a + 2 ^ lo * b) lo w = b % 2 ^ w := by
  rw [slice, Nat.shiftRight_eq_div_pow, Nat.add_mul_div_left _ _ (Nat.two_pow_pos lo), Nat.div_eq_of_lt ha,
    Nat.zero_add]

theorem slice_zero_add_mul {a w : Nat} (b : Nat) (ha : a < 2 ^ w) : slice (a + 2 ^ w * b) 0 w = a := by
  rw [slice, Nat.shiftRight_zero, Nat.add_mul_mod_self_left, Nat.mod_eq_of_lt ha]

open Decoder in
/-- **A word is its op code under a 29-bit tail**: what `decode` reads from `op + 8 * tail`. -/
theorem decode_add_mul (L : Layout) {op tail : Nat} (hop : op < 8) (ht : tail < 2 ^ 29) :
    decode L (op + 8 * tail) =
      { opCode := op, timeslice := if op = 0 then tail else tail % 32, address := tail / 32
        cas := op.testBit 1, ras := op.testBit 2, we := op.testBit 0
        dfiBank := slice (tail / 32) L.rankbits L.bankbits
        dfiAddress := slice (tail / 32) (L.rankbits + L.bankbits) (ADDRESS - (L.rankbits + L.bankbits)) %
          2 ^ max L.rowbits L.colbits
        dfiRank := slice (tail / 32) 0 L.rankbits
        loopCount := tail % 4096, loopJump := tail / 4096, stop := op = 0 && tail = 0 } := by
  have h3 : slice (op + 8 * tail) 0 OP_CODE = op := slice_zero_add_mul (w := 3) tail hop
  have ht' : slice (op + 8 * tail) OP_CODE (INSTRUCTION - OP_CODE) = tail :=
    (slice_add_mul tail 29 (show op < 2 ^ 3 from hop)).trans (Nat.mod_eq_of_lt ht)
  have ha : slice tail TIMESLICE ADDRESS = tail / 32 := by
    simp only [slice, TIMESLICE, ADDRESS, Nat.shiftRight_eq_div_pow]; omega
  have hs : ∀ w, 12 ≤ w → slice tail 0 w = tail % 2 ^ w := fun w _ => by simp [slice]
  simp only [decode, h3, ht', ha, OpCode.value, Decoded.mk.injEq, hs TIMESLICE_NOOP (by decide)]
  simp only [slice, TIMESLICE_NOOP, TIMESLICE, ADDRESS, LOOP_COUNT, LOOP_JUMP, Nat.shiftRight_eq_div_pow]
  refine ⟨trivial, by split <;> omega, trivial, trivial, trivial, trivial, trivial, trivial, trivial, by omega,
    by omega, ?_⟩
  by_cases h0 : op = 0
  · simp [h0]
    omega
  · simp [h0]

/-! ## What `__init__` accepted -/

namespace Instruction

open Decoder

theorem init_loop {kw : Kwargs} {spec : Instruction} (h : init .loop kw = .ok spec) :
    ∃ count jump, kw.count = some count ∧ kw.jump = some jump ∧ count < 2 ^ LOOP_COUNT ∧
      spec = ⟨.loop, kw, [(OP_CODE, OpCode.loop.value), (LOOP_COUNT, count), (LOOP_JUMP, jump)], none⟩ := by
  simp only [init, if_true] at h
  split at h
  · cases h
  · rename_i count hc
    split at h
    · split at h
      · cases h
      · rename_i jump hj
        cases h
        exact ⟨count, jump, hc, hj, by assumption, rfl⟩
    · cases h

theorem init_noop {kw : Kwargs} {spec : Instruction} (h : init .noop kw = .ok spec) :
    ∃ timeslice, kw.timeslice = some timeslice ∧ timeslice < 2 ^ TIMESLICE_NOOP ∧
      spec = ⟨.noop, kw, [(OP_CODE, OpCode.noop.value), (TIMESLICE_NOOP, timeslice)], none⟩ := by
  simp only [init, reduceCtorEq, if_false, if_true] at h
  split at h
  · cases h
  · rename_i timeslice hts
    split at h
    · cases h
      exact ⟨timeslice, hts, by assumption, rfl⟩
    · cases h

theorem init_dfi {op : OpCode} (hop : op.isDfi) {kw : Kwargs} {spec : Instruction} (h : init op kw = .ok spec) :
    ∃ timeslice, kw.timeslice = some timeslice ∧ timeslice ≠ 0 ∧ spec = dfi op kw timeslice := by
  have hl : op ≠ .loop := by cases op <;> simp_all [OpCode.isDfi]
  have hn : op ≠ .noop := by cases op <;> simp_all [OpCode.isDfi]
  simp only [init, hl, hn, if_false] at h
  split at h
  · cases h
  · rename_i timeslice hts
    split at h
    · cases h
    · split at h
      · cases h
      · cases h
        exact ⟨timeslice, hts, by assumption, rfl⟩

/-- A DFI timeslice that fits its five bits is encoded as it is, in one word. -/
theorem dfi_short (op : OpCode) (kw : Kwargs) {timeslice : Nat} (h1 : 1 ≤ timeslice) (h31 : timeslice ≤ 31) :
    dfi op kw timeslice = ⟨op, kw, [(OP_CODE, op.value), (TIMESLICE, timeslice), (ADDRESS, kw.address.getD 0)], none⟩ := by
  have : max (timeslice % 2 ^ TIMESLICE) 1 = timeslice := by simp only [TIMESLICE]; omega
  simp only [dfi, Nat.and_pow_two_sub_one_eq_mod, this, ne_eq, not_true_eq_false, if_false]

end Instruction

namespace Encoder

theorem bitLength_two_pow_sub_one (r : Nat) : bitLength (2 ^ r - 1) = r := by
  rcases Nat.eq_zero_or_pos r with rfl | hr
  · rfl
  have h1 := Nat.one_lt_two_pow (Nat.pos_iff_ne_zero.1 hr)
  have h0 : 2 ^ r - 1 ≠ 0 := by omega
  have hlt : (2 ^ r - 1).log2 < r := (Nat.log2_lt h0).2 (by omega)
  have hge : r - 1 ≤ (2 ^ r - 1).log2 := (Nat.le_log2 h0).2 (by
    have : 2 ^ r = 2 ^ (r - 1) * 2 := by rw [← Nat.pow_succ]; congr 1; omega
    have := @Nat.one_le_two_pow (r - 1)
    omega)
  simp only [bitLength, h0, if_false]
  omega

theorem log2Int_two_pow (r : Nat) : log2Int (2 ^ r) = .ok r := by
  simp [log2Int, bitLength_two_pow_sub_one, (Nat.two_pow_pos r).ne']

/-- **`Encoder.address` returns an address** for `nranks = 2^r` when it is given a rank (with more than one rank) and
not both a row and a column. -/
theorem address_ok {bankbits r bank : Nat} {rank row col : Option Nat} (hrank : 0 < r → rank.isSome)
    (hrc : ¬ (row.isSome ∧ col.isSome)) : ∃ a, (Encoder.mk bankbits (2 ^ r)).address rank bank row col = .ok a := by
  have hrc' : (row.isSome && col.isSome) = false := by simpa using hrc
  simp only [Encoder.address, hrc', Bool.false_eq_true, if_false]
  split
  · have hr : 0 < r := Nat.pos_of_ne_zero fun h => by simp_all
    obtain ⟨k, hk⟩ := Option.isSome_iff_exists.1 (hrank hr)
    rw [log2Int_two_pow, hk]
    exact ⟨_, rfl⟩
  · exact ⟨_, rfl⟩

/-- **`Encoder.address` packs rank, bank and row-or-column** low to high, for `nranks = 2^r`. -/
theorem address_eq {bankbits r bank a : Nat} {rank row col : Option Nat}
    (h : (Encoder.mk bankbits (2 ^ r)).address rank bank row col = .ok a) (hbank : bank < 2 ^ bankbits)
    (hrank : rank.getD 0 < 2 ^ r) :
    a = rank.getD 0 + 2 ^ r * (bank + 2 ^ bankbits * row.getD (col.getD 0)) := by
  have hpack : (bank &&& (2 ^ bankbits - 1)) ||| row.getD (col.getD 0) <<< bankbits =
      bank + 2 ^ bankbits * row.getD (col.getD 0) := by
    rw [Nat.and_pow_two_sub_one_eq_mod, Nat.mod_eq_of_lt hbank, or_shiftLeft_eq_add _ hbank]
  simp only [address, hpack] at h
  split at h
  · cases h
  rcases Nat.eq_zero_or_pos r with rfl | hr
  · simp only [Nat.pow_zero, gt_iff_lt, Nat.lt_irrefl, if_false, Except.ok.injEq] at h
    omega
  · have h1 := Nat.one_lt_two_pow (Nat.pos_iff_ne_zero.1 hr)
    simp only [h1, if_true, log2Int_two_pow] at h
    cases rank with
    | none => cases h
    | some rank =>
      simp only [Except.ok.injEq, Option.getD_some] at h hrank ⊢
      rw [← h, Nat.or_comm, or_shiftLeft_eq_add _ hrank]

end Encoder

/-- **The DFI fields of an `Encoder.address`**: a decoder with `rankbits = r` reads rank, bank and row-or-column
back from an address packed for `2^r` ranks. -/
theorem dfi_fields_of_address (L : Layout) {rank bank rowcol : Nat} (hrank : rank < 2 ^ L.rankbits)
    (hbank : bank < 2 ^ L.bankbits) (hrc : rowcol < 2 ^ max L.rowbits L.colbits) :
    let a := rank + 2 ^ L.rankbits * (bank + 2 ^ L.bankbits * rowcol)
    slice a 0 L.rankbits = rank ∧ slice a L.rankbits L.bankbits = bank ∧
      slice a (L.rankbits + L.bankbits) (Decoder.ADDRESS - (L.rankbits + L.bankbits)) % 2 ^ max L.rowbits L.colbits =
        rowcol := by
  have hfit := L.fits
  have hsplit : rank + 2 ^ L.rankbits * (bank + 2 ^ L.bankbits * rowcol) =
      (rank + 2 ^ L.rankbits * bank) + 2 ^ (L.rankbits + L.bankbits) * rowcol := by rw [Nat.pow_add]; ring
  have hle : 2 ^ max L.rowbits L.colbits ≤ 2 ^ (Decoder.ADDRESS - (L.rankbits + L.bankbits)) :=
    Nat.pow_le_pow_right (by decide) (by omega)
  refine ⟨slice_zero_add_mul _ hrank, ?_, ?_⟩
  · rw [slice_add_mul _ _ hrank, Nat.add_mul_mod_self_left, Nat.mod_eq_of_lt hbank]
  · rw [hsplit, slice_add_mul _ _ (Encoder.add_two_pow_mul_lt hrank hbank), Nat.mod_eq_of_lt (Nat.lt_of_lt_of_le hrc hle),
      Nat.mod_eq_of_lt hrc]

/-! ## The round trip -/

/-- The widths the round trip needs: a LOOP count below `2^12` and a jump below `2^17`, a NOOP timeslice below `2^29`,
and a DFI timeslice in `[1, 31]` with an address, when one is given, below `2^24`. -/
def Fits (op : OpCode) (kw : Kwargs) : Prop :=
  (op = .loop → kw.count.getD 0 < 2 ^ Decoder.LOOP_COUNT ∧ kw.jump.getD 0 < 2 ^ Decoder.LOOP_JUMP) ∧
  (op = .noop → kw.timeslice.getD 0 < 2 ^ Decoder.TIMESLICE_NOOP) ∧
  (op.isDfi → 1 ≤ kw.timeslice.getD 0 ∧ kw.timeslice.getD 0 ≤ 2 ^ Decoder.TIMESLICE - 1 ∧
    kw.address.getD 0 < 2 ^ Decoder.ADDRESS)

/-- What decoding the word of an accepted instruction gives back: its fields, the STOP flag of a zero NOOP, the
command lines, and the rank, bank and row-or-column of an address `Encoder.address` packed for `2^rankbits` ranks. -/
structure RoundTrip (L : Layout) (op : OpCode) (kw : Kwargs) (d : Decoded) : Prop where
  opCode : d.opCode = op.value
  loop : op = .loop → d.loopCount = kw.count.getD 0 ∧ d.loopJump = kw.jump.getD 0
  timeslice : op ≠ .loop → d.timeslice = kw.timeslice.getD 0
  address : op.isDfi → d.address = kw.address.getD 0
  stop : d.stop = true ↔ op = .noop ∧ kw.timeslice = some 0
  lines : d.ras = op.value.testBit 2 ∧ d.cas = op.value.testBit 1 ∧ d.we = op.value.testBit 0
  dfi : op.isDfi → ∀ rank bank row col,
    (Encoder.mk L.bankbits (2 ^ L.rankbits)).address rank bank row col = .ok (kw.address.getD 0) →
    rank.getD 0 < 2 ^ L.rankbits → bank < 2 ^ L.bankbits → row.getD (col.getD 0) < 2 ^ max L.rowbits L.colbits →
    (0 < L.rankbits → d.dfiRank = rank.getD 0) ∧ d.dfiBank = bank ∧ d.dfiAddress = row.getD (col.getD 0)

theorem OpCode.isDfi_iff (op : OpCode) : op.isDfi ↔ op ≠ .noop ∧ op ≠ .loop := by
  cases op <;> decide

theorem Encoder.encodeSpec_single (op : OpCode) (kw : Kwargs) (parts : List (Nat × Nat)) :
    Encoder.encodeSpec ⟨op, kw, parts, none⟩ = [Encoder.packed parts] := by
  simp [Encoder.encodeSpec, Encoder.encodeParts_eq_packed]

open Decoder Encoder

theorem roundTrip_loop (L : Layout) {kw : Kwargs} {spec : Instruction} (h : Instruction.init .loop kw = .ok spec)
    (hjump : kw.jump.getD 0 < 2 ^ LOOP_JUMP) :
    ∃ word, encodeSpec spec = [word] ∧ RoundTrip L .loop kw (decode L word) := by
  obtain ⟨count, jump, hc, hj, hcount, rfl⟩ := Instruction.init_loop h
  simp only [hj, Option.getD_some] at hjump
  have hw : packed [(OP_CODE, OpCode.loop.value), (LOOP_COUNT, count), (LOOP_JUMP, jump)] =
      7 + 8 * (count + 4096 * jump) := by
    rw [packed_cons_of_lt _ (by decide), packed_cons_of_lt _ hcount, packed_cons_of_lt _ hjump]; rfl
  simp only [LOOP_COUNT, LOOP_JUMP] at hcount hjump
  refine ⟨_, encodeSpec_single _ _ _, ?_⟩
  rw [hw, decode_add_mul L (by decide) (by omega)]
  exact { opCode := rfl, loop := fun _ => ⟨by simp [hc]; omega, by simp [hj]; omega⟩
          timeslice := fun h => absurd rfl h, address := fun h => absurd h (by decide), stop := by simp
          lines := ⟨rfl, rfl, rfl⟩, dfi := fun h => absurd h (by decide) }

theorem roundTrip_noop (L : Layout) {kw : Kwargs} {spec : Instruction} (h : Instruction.init .noop kw = .ok spec) :
    ∃ word, encodeSpec spec = [word] ∧ RoundTrip L .noop kw (decode L word) := by
  obtain ⟨timeslice, hts, hlt, rfl⟩ := Instruction.init_noop h
  have hw : packed [(OP_CODE, OpCode.noop.value), (TIMESLICE_NOOP, timeslice)] = 0 + 8 * timeslice := by
    rw [packed_cons_of_lt _ (by decide), packed_cons_of_lt _ hlt]; rfl
  refine ⟨_, encodeSpec_single _ _ _, ?_⟩
  rw [hw, decode_add_mul L (by decide) hlt]
  exact { opCode := rfl, loop := fun h => absurd h (by decide), timeslice := fun _ => by simp [hts]
          address := fun h => absurd h (by decide), stop := by simp [hts]
          lines := ⟨rfl, rfl, rfl⟩, dfi := fun h => absurd h (by decide) }

theorem roundTrip_dfi (L : Layout) {op : OpCode} (hop : op.isDfi) {kw : Kwargs} {spec : Instruction}
    (h : Instruction.init op kw = .ok spec) (hts : kw.timeslice.getD 0 ≤ 2 ^ TIMESLICE - 1)
    (haddr : kw.address.getD 0 < 2 ^ ADDRESS) :
    ∃ word, encodeSpec spec = [word] ∧ RoundTrip L op kw (decode L word) := by
  obtain ⟨timeslice, hts', h0, rfl⟩ := Instruction.init_dfi hop h
  simp only [hts', Option.getD_some, TIMESLICE] at hts
  simp only [ADDRESS] at haddr
  obtain ⟨hn, hl⟩ := (OpCode.isDfi_iff op).1 hop
  have hw : packed [(OP_CODE, op.value), (TIMESLICE, timeslice), (ADDRESS, kw.address.getD 0)] =
      op.value + 8 * (timeslice + 32 * kw.address.getD 0) := by
    rw [packed_dfi, Nat.mod_eq_of_lt op.value_lt, Nat.mod_eq_of_lt (by omega : timeslice < 32), Nat.mod_eq_of_lt haddr]
  have hv := OpCode.value_ne_zero hop
  refine ⟨_, by rw [Instruction.dfi_short op kw (by omega) (by omega), encodeSpec_single], ?_⟩
  rw [hw, decode_add_mul L op.value_lt (by omega)]
  refine { opCode := rfl, loop := fun h => absurd h hl, timeslice := fun _ => by simp [hv, hts']; omega
           address := fun _ => by dsimp only; omega, stop := by simp [hv, hn], lines := ⟨rfl, rfl, rfl⟩
           dfi := fun _ rank bank row col ha hrank hbank hrc => ?_ }
  have hdiv : (timeslice + 32 * kw.address.getD 0) / 32 = kw.address.getD 0 := by omega
  dsimp only
  rw [hdiv, address_eq ha hbank hrank]
  obtain ⟨h1, h2, h3⟩ := dfi_fields_of_address L hrank hbank hrc
  exact ⟨fun _ => h1, h2, h3⟩

/-- `__init__` accepts a DFI instruction with a nonzero timeslice and an address, or a REF without one. -/
theorem Instruction.init_dfi_ok {op : OpCode} (hop : op.isDfi) {kw : Kwargs} {T : Nat} (hts : kw.timeslice = some T)
    (hT : T ≠ 0) (haddr : kw.address.isSome ∨ op = .ref) : Instruction.init op kw = .ok (Instruction.dfi op kw T) := by
  obtain ⟨hn, hl⟩ := (OpCode.isDfi_iff op).1 hop
  have : kw.address = none → op = .ref := by cases h : kw.address <;> simp_all
  simp only [Instruction.init, hn, hl, hts, hT, if_false]
  simpa using this

/-- **The codec round trip**: the single word `encode_spec` makes of an instruction `__init__` accepted with fields that
fit their widths decodes to those fields, and a decoder with `rankbits = r` reads back the rank, bank and
row-or-column of an `Encoder.address` for `2^r` ranks. -/
theorem encodeSpec_roundtrip (L : Layout) (op : OpCode) (kw : Kwargs) (spec : Instruction)
    (h : Instruction.init op kw = .ok spec) (hfits : Fits op kw) :
    ∃ word, encodeSpec spec = [word] ∧ RoundTrip L op kw (decode L word) := by
  obtain ⟨hloop, -, hdfi⟩ := hfits
  by_cases hl : op = .loop
  · subst hl; exact roundTrip_loop L h (hloop rfl).2
  by_cases hn : op = .noop
  · subst hn; exact roundTrip_noop L h
  have hop : op.isDfi := (OpCode.isDfi_iff op).2 ⟨hn, hl⟩
  exact roundTrip_dfi L hop h (hdfi hop).2.1 (hdfi hop).2.2

/-- Two ranks, an ACT of 4 cycles to rank 1, bank 3, row `0x1234`, its address from `Encoder.address`: the decoder
gives back the rank, the bank and the row. -/
theorem encodeSpec_roundtrip_act :
    let L : Layout := ⟨1, 4, 16, 10, by decide⟩
    ∃ a, (Encoder.mk 4 (2 ^ 1)).address (some 1) 3 (some 0x1234) none = .ok a ∧
      ∃ word, encodeSpec (Instruction.dfi .act { timeslice := some 4, address := some a } 4) = [word] ∧
        RoundTrip L .act { timeslice := some 4, address := some a } (decode L word) ∧
        (decode L word).dfiRank = 1 ∧ (decode L word).dfiBank = 3 ∧ (decode L word).dfiAddress = 0x1234 := by
  intro L
  obtain ⟨a, ha⟩ := @address_ok 4 1 3 (some 1) (some 0x1234) none (fun _ => rfl) (by simp)
  have hav := address_eq ha (by decide) (by decide)
  obtain ⟨word, hw, hrt⟩ := encodeSpec_roundtrip L .act { timeslice := some 4, address := some a } _
    (@Instruction.init_dfi_ok .act rfl _ 4 rfl (by decide) (.inl rfl))
    ⟨fun h => absurd h (by decide), fun h => absurd h (by decide), fun _ => ⟨by simp, by simp [TIMESLICE],
      by rw [Option.getD_some, hav]; decide⟩⟩
  obtain ⟨hrank, hbank, hrow⟩ := hrt.dfi rfl (some 1) 3 (some 0x1234) none ha (by decide) (by decide) (by decide)
  exact ⟨_, ha, word, hw, hrt, hrank (by decide), hbank, hrow⟩

/-! ## Long timeslices -/

/-- The NOOP waits of `range(0, r, 28)` add up to `r` once the range has covered it. -/
theorem sum_min_range (r : Nat) : ∀ n, ((List.range n).map fun k => min (r - k * 28) 28).sum = min r (n * 28)
  | 0 => by simp
  | n + 1 => by
    rw [List.range_succ, List.map_append, List.sum_append, sum_min_range r n]
    simp only [List.map_cons, List.map_nil, List.sum_cons, List.sum_nil]
    omega

theorem sum_noop_waits (r : Nat) : ((pyRange 0 r 28).map fun i => min (r - i) 28).sum = r := by
  simp only [pyRange, List.map_map, Function.comp_def, Nat.zero_add, Nat.sub_zero, sum_min_range]
  omega

theorem mem_pyRange {r i : Nat} (h : i ∈ pyRange 0 r 28) : i < r := by
  simp only [pyRange, List.mem_map, List.mem_range] at h
  omega

/-- The words of a DFI instruction: its base word, then one NOOP per wait. -/
theorem encodeSpec_dfi (op : OpCode) (kw : Kwargs) (T : Nat) :
    encodeSpec (Instruction.dfi op kw T) =
      packed [(OP_CODE, op.value), (TIMESLICE, max (T % 32) 1), (ADDRESS, kw.address.getD 0)] ::
        (if max (T % 32) 1 ≠ T then
          (pyRange 0 (T - max (T % 32) 1) 28).map fun i =>
            packed [(OP_CODE, OpCode.noop.value), (TIMESLICE_NOOP, min (T - max (T % 32) 1 - i) 28)]
        else []) := by
  simp only [Instruction.dfi, TIMESLICE, Nat.and_pow_two_sub_one_eq_mod, TIMESLICE_NOOP, ADDRESS]
  split <;> rename_i h <;> simp only [encodeSpec, List.map_cons, List.map_map, Option.getD_some, Option.getD_none,
    List.map_nil, encodeParts_eq_packed, Function.comp_def, h, if_true, if_false]

/-- What the words of a DFI instruction with timeslice `T` keep: the first decodes to the command, with the address its
24-bit field holds and a timeslice in `[1, 31]`; every later word is a NOOP of `1` to `2^29 - 1` cycles, so never a
STOP; and the words' durations add up to `T`. -/
structure KeepsTiming (L : Layout) (op : OpCode) (address T : Nat) (words : List Nat) : Prop where
  head : ∃ word rest, words = word :: rest ∧ (decode L word).opCode = op.value ∧
    (decode L word).address = address % 2 ^ ADDRESS ∧ 1 ≤ (decode L word).timeslice ∧
    (decode L word).timeslice ≤ 2 ^ TIMESLICE - 1
  noops : ∀ w ∈ words.tail, (decode L w).opCode = OpCode.noop.value ∧ 1 ≤ (decode L w).timeslice ∧
    (decode L w).timeslice ≤ 2 ^ TIMESLICE_NOOP - 1 ∧ (decode L w).stop = false
  sum : (words.map fun w => (decode L w).duration).sum = T

/-- The base word of a DFI instruction decodes to its op code, the low 24 bits of its address and its timeslice, and
is not a STOP. -/
theorem decode_dfi_word (L : Layout) {op : OpCode} (hv : op.value ≠ 0) {b : Nat} (hb : b < 2 ^ TIMESLICE) (a : Nat) :
    (decode L (packed [(OP_CODE, op.value), (TIMESLICE, b), (ADDRESS, a)])).opCode = op.value ∧
      (decode L (packed [(OP_CODE, op.value), (TIMESLICE, b), (ADDRESS, a)])).address = a % 2 ^ ADDRESS ∧
      (decode L (packed [(OP_CODE, op.value), (TIMESLICE, b), (ADDRESS, a)])).timeslice = b ∧
      (decode L (packed [(OP_CODE, op.value), (TIMESLICE, b), (ADDRESS, a)])).stop = false := by
  have h24 := Nat.mod_lt a (Nat.two_pow_pos 24)
  have hp : packed [(OP_CODE, op.value), (TIMESLICE, b), (ADDRESS, a)] = op.value + 8 * (b + 32 * (a % 2 ^ 24)) := by
    rw [packed_dfi, Nat.mod_eq_of_lt op.value_lt, Nat.mod_eq_of_lt (show b < 32 from hb)]
  simp only [TIMESLICE] at hb
  rw [hp, decode_add_mul L op.value_lt (by omega)]
  exact ⟨rfl, by simp only [ADDRESS]; omega, by simp only [hv, if_false]; omega, by simp [hv]⟩

/-- A NOOP word of `1 … 2^29 - 1` cycles decodes to a NOOP of that many cycles, never a STOP. -/
theorem decode_noop_word (L : Layout) {wait : Nat} (h1 : 1 ≤ wait) (hw : wait < 2 ^ TIMESLICE_NOOP) :
    (decode L (packed [(OP_CODE, OpCode.noop.value), (TIMESLICE_NOOP, wait)])).opCode = OpCode.noop.value ∧
      (decode L (packed [(OP_CODE, OpCode.noop.value), (TIMESLICE_NOOP, wait)])).timeslice = wait ∧
      (decode L (packed [(OP_CODE, OpCode.noop.value), (TIMESLICE_NOOP, wait)])).stop = false := by
  have hp : packed [(OP_CODE, OpCode.noop.value), (TIMESLICE_NOOP, wait)] = 0 + 8 * wait := by
    rw [packed_cons_of_lt _ (by decide), packed_cons_of_lt _ hw]; rfl
  rw [hp, decode_add_mul L (by decide) hw]
  exact ⟨rfl, by simp, by simp; omega⟩

/-- A LOOP word decodes to its count and to its jump modulo `2^17`. -/
theorem decode_loop_word (L : Layout) {count : Nat} (hc : count < 2 ^ LOOP_COUNT) (jump : Nat) :
    (decode L (packed [(OP_CODE, OpCode.loop.value), (LOOP_COUNT, count), (LOOP_JUMP, jump)])).opCode =
        OpCode.loop.value ∧
      (decode L (packed [(OP_CODE, OpCode.loop.value), (LOOP_COUNT, count), (LOOP_JUMP, jump)])).loopCount = count ∧
      (decode L (packed [(OP_CODE, OpCode.loop.value), (LOOP_COUNT, count), (LOOP_JUMP, jump)])).loopJump =
        jump % 2 ^ LOOP_JUMP := by
  have hj := Nat.mod_lt jump (show 0 < 2 ^ LOOP_JUMP by decide)
  have hw : packed [(OP_CODE, OpCode.loop.value), (LOOP_COUNT, count), (LOOP_JUMP, jump)] =
      7 + 8 * (count + 4096 * (jump % 2 ^ LOOP_JUMP)) := by
    rw [packed_cons_of_lt _ (by decide), packed_cons_of_lt _ hc]; rfl
  rw [hw, decode_add_mul L (by decide) (by simp only [LOOP_COUNT, LOOP_JUMP] at hc hj ⊢; omega)]
  simp only [LOOP_COUNT] at hc
  exact ⟨rfl, by dsimp only; omega, by dsimp only; omega⟩

/-- **A long DFI timeslice keeps its timing and emits no STOP.** -/
theorem encodeSpec_dfi_timing (L : Layout) {op : OpCode} (hop : op.isDfi) (address : Option Nat)
    (haddr : address.isSome ∨ op = .ref) {T : Nat} (hT : 1 ≤ T) :
    ∃ spec, Instruction.init op { timeslice := some T, address } = .ok spec ∧
      KeepsTiming L op (address.getD 0) T (encodeSpec spec) := by
  have hv := OpCode.value_ne_zero hop
  refine ⟨_, Instruction.init_dfi_ok hop rfl (by omega) haddr, ?_⟩
  rw [encodeSpec_dfi op _ T]
  dsimp only
  -- the base word carries `b` cycles, and NOOPs of at most 28 cycles each carry the `T - b` after it
  have hb : 1 ≤ max (T % 32) 1 ∧ max (T % 32) 1 ≤ 31 ∧ max (T % 32) 1 ≤ T := by omega
  generalize max (T % 32) 1 = b at hb ⊢
  obtain ⟨hop', haddr', hts, -⟩ := decode_dfi_word L hv (b := b) (by simp only [TIMESLICE]; omega) (address.getD 0)
  have hwait : ∀ i ∈ pyRange 0 (T - b) 28, 1 ≤ min (T - b - i) 28 ∧ min (T - b - i) 28 < 2 ^ TIMESLICE_NOOP :=
    fun i hi => by have := mem_pyRange hi; simp only [TIMESLICE_NOOP, TIMESLICE, ADDRESS]; omega
  refine ⟨⟨_, _, rfl, hop', haddr', by omega, by rw [hts]; simp only [TIMESLICE]; omega⟩, fun w hw => ?_, ?_⟩
  · split at hw
    · obtain ⟨i, hi, rfl⟩ := List.mem_map.1 hw
      obtain ⟨h1, hlt⟩ := hwait i hi
      obtain ⟨hn, ht, hs⟩ := decode_noop_word L h1 hlt
      rw [ht]
      exact ⟨hn, h1, Nat.le_sub_one_of_lt hlt, hs⟩
    · cases hw
  · simp only [List.map_cons, List.sum_cons, Decoded.duration, hts]
    split
    · have hsum : ((pyRange 0 (T - b) 28).map fun i =>
            packed [(OP_CODE, OpCode.noop.value), (TIMESLICE_NOOP, min (T - b - i) 28)]).map
              (fun w => max (decode L w).timeslice 1) = (pyRange 0 (T - b) 28).map fun i => min (T - b - i) 28 := by
        rw [List.map_map]
        refine List.map_congr_left fun i hi => ?_
        simp only [Function.comp_apply, (decode_noop_word L (hwait i hi).1 (hwait i hi).2).2.1]
        exact max_eq_left (hwait i hi).1
      rw [hsum, sum_noop_waits]
      omega
    · simp only [List.map_nil, List.sum_nil]; omega

theorem encodeSpec_dfi_timing_act :
    OpCode.act.isDfi ∧ 1 ≤ 100 ∧ ∃ spec, Instruction.init .act { timeslice := some 100, address := some 0x12343 } =
      .ok spec ∧ KeepsTiming ⟨0, 4, 16, 10, by decide⟩ .act 0x12343 100 (encodeSpec spec) :=
  ⟨rfl, by decide, encodeSpec_dfi_timing ⟨0, 4, 16, 10, by decide⟩ (show OpCode.act.isDfi from rfl) (some 0x12343)
    (.inl rfl) (by decide)⟩

/-- The NOOPs that `__init__` appends, one per 28 cycles of `T - b`, counted from the first. -/
theorem pyRange_noops {α : Type} (g : Nat → α) {b T : Nat} (hb : b ≤ T) :
    (if b ≠ T then (pyRange 0 (T - b) 28).map g else []) = (List.range ((T - b + 27) / 28)).map fun j => g (j * 28) := by
  split
  · have hn : (T - b - 0 + 28 - 1) / 28 = (T - b + 27) / 28 := by omega
    simp only [pyRange, hn, List.map_map, Function.comp_def, Nat.zero_add]
  · obtain rfl : b = T := not_not.1 ‹_›
    simp

/-- **The words of a long DFI timeslice, as `__init__` splits it.**  The command word keeps `max (T & 31) 1` cycles;
the rest `r` goes to `⌈r / 28⌉` NOOPs, NOOP `k` waiting `min (r - 28 (k - 1)) 28` cycles, so every NOOP but the last
waits `TIMESLICE_NOOP - 1 = 28`. -/
theorem encodeSpec_dfi_words (L : Layout) {op : OpCode} (hop : op.isDfi) (address : Option Nat)
    (haddr : address.isSome ∨ op = .ref) {T : Nat} (hT : 1 ≤ T) :
    ∃ spec, Instruction.init op { timeslice := some T, address } = .ok spec ∧
      (encodeSpec spec).length = 1 + (T - max (T % 32) 1 + 27) / 28 ∧
      (decode L ((encodeSpec spec).getD 0 0)).opCode = op.value ∧
      (decode L ((encodeSpec spec).getD 0 0)).timeslice = max (T % 32) 1 ∧
      ∀ k, 1 ≤ k → k < (encodeSpec spec).length →
        (decode L ((encodeSpec spec).getD k 0)).opCode = OpCode.noop.value ∧
        (decode L ((encodeSpec spec).getD k 0)).timeslice = min (T - max (T % 32) 1 - (k - 1) * 28) 28 ∧
        (k + 1 < (encodeSpec spec).length → (decode L ((encodeSpec spec).getD k 0)).timeslice = 28) := by
  refine ⟨_, Instruction.init_dfi_ok hop rfl (by omega) haddr, ?_⟩
  rw [encodeSpec_dfi op _ T]
  have hb : 1 ≤ max (T % 32) 1 ∧ max (T % 32) 1 ≤ 31 ∧ max (T % 32) 1 ≤ T := by omega
  generalize max (T % 32) 1 = b at hb ⊢
  rw [pyRange_noops (fun i => packed [(OP_CODE, OpCode.noop.value), (TIMESLICE_NOOP, min (T - b - i) 28)]) hb.2.2]
  obtain ⟨hop', -, hts, -⟩ :=
    decode_dfi_word L (OpCode.value_ne_zero hop) (b := b) (by simp only [TIMESLICE]; omega) (address.getD 0)
  simp only [List.length_cons, List.length_map, List.length_range]
  refine ⟨Nat.add_comm _ _, hop', hts, fun k hk1 hk => ?_⟩
  obtain ⟨j, rfl⟩ : ∃ j, k = j + 1 := ⟨k - 1, by omega⟩
  generalize T - b = r at hk ⊢
  -- NOOP `j + 1` is the `j`-th of the range: `j * 28 < r`, so it waits `1 … 28` cycles
  have hj : j < (r + 27) / 28 := by omega
  obtain ⟨hn, hwait, -⟩ := decode_noop_word L (show 1 ≤ min (r - j * 28) 28 by omega)
    (lt_of_le_of_lt (Nat.min_le_right _ _) (by decide))
  rw [List.getD_cons_succ, List.getD_eq_getElem _ _ (by rw [List.length_map, List.length_range]; exact hj),
    List.getElem_map, List.getElem_range, Nat.add_sub_cancel, hn, hwait]
  exact ⟨rfl, rfl, fun hlast => by omega⟩

theorem encodeSpec_dfi_words_act :
    let L : Layout := ⟨0, 4, 16, 10, by decide⟩
    OpCode.act.isDfi ∧ 1 ≤ 100 ∧ ∃ spec, Instruction.init .act { timeslice := some 100, address := some 0x12343 } =
      .ok spec ∧ (encodeSpec spec).length = 1 + (100 - max (100 % 32) 1 + 27) / 28 ∧
      (decode L ((encodeSpec spec).getD 0 0)).opCode = OpCode.act.value ∧
      (decode L ((encodeSpec spec).getD 0 0)).timeslice = max (100 % 32) 1 ∧
      ∀ k, 1 ≤ k → k < (encodeSpec spec).length →
        (decode L ((encodeSpec spec).getD k 0)).opCode = OpCode.noop.value ∧
        (decode L ((encodeSpec spec).getD k 0)).timeslice = min (100 - max (100 % 32) 1 - (k - 1) * 28) 28 ∧
        (k + 1 < (encodeSpec spec).length → (decode L ((encodeSpec spec).getD k 0)).timeslice = 28) :=
  ⟨rfl, by decide, encodeSpec_dfi_words _ (show OpCode.act.isDfi from rfl) (some 0x12343) (.inl rfl) (by decide)⟩

/-- An ACT of 100 cycles: the command word keeps `100 & 31 = 4` cycles and NOOPs of 28, 28, 28 and 12 follow, five
words, where a 31-cycle command and one NOOP of 69 cycles, `1 + ⌈69 / (2^29 - 1)⌉ = 2` words, would do. -/
theorem encodeSpec_act_hundred :
    let kw : Kwargs := { timeslice := some 100, address := some 0x12343 }
    let L : Layout := ⟨0, 4, 16, 10, by decide⟩
    Instruction.init .act kw = .ok (Instruction.dfi .act kw 100) ∧
      (encodeSpec (Instruction.dfi .act kw 100)).map (fun w => ((decode L w).opCode, (decode L w).timeslice)) =
        [(OpCode.act.value, 4), (OpCode.noop.value, 28), (OpCode.noop.value, 28), (OpCode.noop.value, 28),
          (OpCode.noop.value, 12)] ∧
      (encodeSpec (Instruction.dfi .act kw 100)).length ≠ 1 + (100 - min 100 31 + (2 ^ 29 - 1) - 1) / (2 ^ 29 - 1) :=
  ⟨rfl, by decide, by decide⟩

/-- **A DFI command of at most 31 cycles is one word**: a command, not a STOP, that lasts the requested timeslice. -/
theorem encodeSpec_short (L : Layout) {op : OpCode} (hop : op.isDfi) {kw : Kwargs} {spec : Instruction}
    (h : Instruction.init op kw = .ok spec) (hts : kw.timeslice.getD 0 ≤ 2 ^ TIMESLICE - 1) :
    ∃ word, encodeSpec spec = [word] ∧ (decode L word).opCode = op.value ∧ (decode L word).stop = false ∧
      (decode L word).duration = spec.kwargs.timeslice.getD 0 := by
  obtain ⟨T, hT, h0, rfl⟩ := Instruction.init_dfi hop h
  simp only [hT, Option.getD_some, TIMESLICE] at hts
  have hv := OpCode.value_ne_zero hop
  obtain ⟨h1, -, h3, h4⟩ := decode_dfi_word L hv (b := T) (by simp only [TIMESLICE]; omega) (kw.address.getD 0)
  rw [Instruction.dfi_short op kw (by omega) (by omega), encodeSpec_single]
  exact ⟨_, rfl, h1, h4, by simp only [Decoded.duration, h3, hT, Option.getD_some]; omega⟩

/-- **A payload of DFI commands of at most 31 cycles each is one word per command**: word `k` is a command, neither a
LOOP nor a STOP, lasting the timeslice of the `k`-th instruction. -/
theorem encodePayload_short (L : Layout) : ∀ {instrs : List Instruction},
    (∀ ins ∈ instrs, ∃ op kw, op.isDfi ∧ kw.timeslice.getD 0 ≤ 2 ^ TIMESLICE - 1 ∧ Instruction.init op kw = .ok ins) →
    (encodePayload instrs).length = instrs.length ∧ ∀ k (hk : k < instrs.length),
      (decode L ((encodePayload instrs).getD k 0)).opCode ≠ OpCode.loop.value ∧
      (decode L ((encodePayload instrs).getD k 0)).stop = false ∧
      (decode L ((encodePayload instrs).getD k 0)).duration = instrs[k].kwargs.timeslice.getD 0
  | [], _ => ⟨rfl, fun k hk => absurd hk (Nat.not_lt_zero k)⟩
  | ins :: rest, h => by
    obtain ⟨op, kw, hop, hts, hinit⟩ := h ins (List.mem_cons_self _ _)
    obtain ⟨word, hw, h1, h2, h3⟩ := encodeSpec_short L hop hinit hts
    obtain ⟨hlen, hrest⟩ := encodePayload_short L fun i hi => h i (List.mem_cons_of_mem _ hi)
    have hpay : encodePayload (ins :: rest) = word :: encodePayload rest := by
      simp only [encodePayload, List.flatMap_cons, hw, List.singleton_append]
    refine ⟨by simp [hpay, hlen], fun k hk => ?_⟩
    rw [hpay]
    cases k with
    | zero => exact ⟨h1 ▸ OpCode.value_ne_loop hop, h2, h3⟩
    | succ k => exact hrest k (by simpa using hk)

/-- The encoder masks the address to its 24-bit field, so an address of `2^24` comes back as `0`. -/
theorem encodeSpec_address_masked :
    ¬ ∀ (L : Layout) (address : Nat), ∃ spec word rest,
      Instruction.init .act { timeslice := some 1, address := some address } = .ok spec ∧
        encodeSpec spec = word :: rest ∧ (decode L word).address = address := by
  intro h
  obtain ⟨spec, word, rest, hi, he, ha⟩ := h ⟨0, 0, 0, 0, by decide⟩ (2 ^ 24)
  have hok : Instruction.init .act { timeslice := some 1, address := some (2 ^ 24) } =
      .ok (Instruction.dfi .act { timeslice := some 1, address := some (2 ^ 24) } 1) := rfl
  rw [hok, Except.ok.injEq] at hi
  subst hi
  rw [encodeSpec_dfi, List.cons.injEq] at he
  rw [← he.1] at ha
  revert ha
  decide

/-! ## What `__init__` checks

`__init__` asserts only the LOOP count, the NOOP timeslice, a nonzero DFI timeslice and the address of a DFI command
other than REF; `kwargs[...]` raises for the other keys it reads.  A LOOP jump and a DFI address are never checked: the
encoder masks them to their fields. -/

/-- **What `Encoder.Instruction.__init__` accepts**: exactly the instructions whose LOOP count fits twelve bits with a
jump given, whose NOOP timeslice fits 29 bits, and whose DFI timeslice is positive with an address (REF may omit it). -/
theorem init_accepts_iff (op : OpCode) (kw : Kwargs) :
    (∃ spec, Instruction.init op kw = .ok spec) ↔
      (op = .loop → (∃ count, kw.count = some count ∧ count < 2 ^ LOOP_COUNT) ∧ kw.jump.isSome) ∧
      (op = .noop → ∃ t, kw.timeslice = some t ∧ t < 2 ^ TIMESLICE_NOOP) ∧
      (op.isDfi → (∃ t, kw.timeslice = some t ∧ 0 < t) ∧ (kw.address.isSome ∨ op = .ref)) := by
  by_cases hl : op = .loop
  · subst hl
    simp only [OpCode.isDfi_iff, ne_eq, not_true_eq_false, and_false, false_implies, reduceCtorEq, true_implies,
      and_true]
    constructor
    · rintro ⟨spec, h⟩
      obtain ⟨count, jump, hc, hj, hlt, -⟩ := Instruction.init_loop h
      exact ⟨⟨count, hc, hlt⟩, by simp [hj]⟩
    · rintro ⟨⟨count, hc, hlt⟩, hj⟩
      obtain ⟨jump, hj⟩ := Option.isSome_iff_exists.1 hj
      exact ⟨_, by simp [Instruction.init, hc, hlt, hj]; rfl⟩
  by_cases hn : op = .noop
  · subst hn
    simp only [OpCode.isDfi_iff, ne_eq, not_true_eq_false, false_and, false_implies, reduceCtorEq, true_implies,
      and_true, true_and]
    constructor
    · rintro ⟨spec, h⟩
      obtain ⟨t, hts, hlt, -⟩ := Instruction.init_noop h
      exact ⟨t, hts, hlt⟩
    · rintro ⟨t, hts, hlt⟩
      exact ⟨_, by simp [Instruction.init, hts, hlt]; rfl⟩
  have hop : op.isDfi := (OpCode.isDfi_iff op).2 ⟨hn, hl⟩
  simp only [hl, hn, hop, false_implies, true_implies, true_and]
  constructor
  · rintro ⟨spec, h⟩
    obtain ⟨t, hts, h0, -⟩ := Instruction.init_dfi hop h
    refine ⟨⟨t, hts, Nat.pos_of_ne_zero h0⟩, ?_⟩
    by_cases hr : op = .ref
    · exact .inr hr
    cases ha : kw.address
    · simp [Instruction.init, hl, hn, hts, h0, ha, hr] at h
    · simp
  · rintro ⟨⟨t, hts, ht⟩, haddr⟩
    exact ⟨_, Instruction.init_dfi_ok hop hts ht.ne' haddr⟩

/-- **A LOOP jump past seventeen bits wraps**: `__init__` accepts it, and the word decodes to the jump modulo `2^17`,
a different loop. -/
theorem loop_jump_wraps (L : Layout) {count : Nat} (hc : count < 2 ^ LOOP_COUNT) (jump : Nat) :
    ∃ spec, Instruction.init .loop { count := some count, jump := some jump } = .ok spec ∧
      ∃ word, encodeSpec spec = [word] ∧ (decode L word).opCode = OpCode.loop.value ∧
        (decode L word).loopCount = count ∧ (decode L word).loopJump = jump % 2 ^ LOOP_JUMP :=
  ⟨⟨.loop, { count := some count, jump := some jump },
    [(OP_CODE, OpCode.loop.value), (LOOP_COUNT, count), (LOOP_JUMP, jump)], none⟩,
    by simp [Instruction.init, hc], _, encodeSpec_single _ _ _, decode_loop_word L hc jump⟩

/-- A LOOP asked to jump back `2^17 + 5` words jumps back 5. -/
theorem loop_jump_wraps_past_width :
    (3 : Nat) < 2 ^ LOOP_COUNT ∧ ∃ spec, Instruction.init .loop { count := some 3, jump := some (2 ^ 17 + 5) } = .ok spec ∧
      ∃ word, encodeSpec spec = [word] ∧ (decode ⟨0, 0, 0, 0, by decide⟩ word).loopJump = 5 := by
  obtain ⟨spec, h, word, hw, -, -, hj⟩ := @loop_jump_wraps ⟨0, 0, 0, 0, by decide⟩ 3 (by decide) (2 ^ 17 + 5)
  exact ⟨by decide, spec, h, word, hw, hj.trans (by decide)⟩

end PayloadExecutor
