/-
# Data processing: the decoder and the dispatch

`instructions/opcodes.h`, `data_processing_decoder.h` and `data_processing.h`.

The second operand is an anonymous union. Both of its members are a byte
followed by a `RegShift`, so reading `reg_operand.rm` where `imm_operand` was
written gives `imm8` (`Operand2.rm`, `Operand2.imm8`). A `RegShift` written from
a scalar has it in its first member, `shift_by_reg`, and zero elsewhere.

`data_proc_op` leaves out the `rises_cpsr` argument of `add_op`, `sub_op` and
`and_op`, which is read as the instruction's S bit, and calls `orr_op` under
the name `or_op`. It does not return a value after the switch
(`DataProcResult.status = none`). The switch is a call of the ALU on the
result register and the two operands (`dataProcSwitch_eq`).
-/
import SimpleArm.Lib.BitField
import SimpleArm.Alu
import SimpleArm.Cond

namespace SimpleArm

/-! ### Opcodes -/

/-- The enumerators of `OpCode`, in order from 0. -/
inductive OpCode
  | opAnd | opOrr | opEor | opAdd | opAdc | opSub | opSbc | opRsb | opRsc
  | opTst | opTeq | opCmp | opCmn | opBic | opMov | opMvn | opNop | opHalt
deriving DecidableEq, Repr

namespace OpCode

/-- The enumerators, each at its number. -/
def cases : List OpCode :=
  [opAnd, opOrr, opEor, opAdd, opAdc, opSub, opSbc, opRsb, opRsc,
    opTst, opTeq, opCmp, opCmn, opBic, opMov, opMvn, opNop, opHalt]

def value (op : OpCode) : Word := BitVec.ofNat 32 (cases.idxOf op)

/-- The enumerator with a number. An `OpCode` object may hold a number that has none. -/
def ofValue (v : Word) : Option OpCode := cases[v.toNat]?

theorem ofValue_value (op : OpCode) : ofValue op.value = some op := by
  cases op <;> rfl

/-- The enumerator of an opcode field. Every field value has one. -/
def ofField (n : BitVec 4) : OpCode :=
  cases.get ⟨n.toNat, Nat.lt_of_lt_of_le n.isLt (by decide)⟩

theorem ofValue_field (n : BitVec 4) : ofValue (n.setWidth 32) = some (ofField n) := by
  have hn : (n.setWidth 32).toNat = n.toNat := by
    have := n.isLt
    simp only [BitVec.toNat_setWidth]
    omega
  rw [ofValue, hn]
  exact List.getElem?_eq_getElem _

end OpCode

/-! ### The decoded instruction -/

/-- The anonymous union of `RegShift`: `Operand2RegShiftImm` or `Operand2RegShiftReg`. The
type is the number of a `ShiftType`. -/
inductive ShiftBy
  | byImm (type : Word) (imm5 : Byte)
  | byReg (type : Word) (rs : RegisterIndexT)
deriving DecidableEq, Repr

structure RegShift where
  shiftByReg : Bool
  shiftBy : ShiftBy
deriving DecidableEq, Repr

structure Operand2Reg where
  rm : RegisterIndexT
  shift : RegShift
deriving DecidableEq, Repr

structure Operand2Imm where
  imm8 : Byte
  rotate : RegShift
deriving DecidableEq, Repr

/-- The anonymous union of `DecodedDataProcessing`, by the member last written. -/
inductive Operand2
  | regOperand (o : Operand2Reg)
  | immOperand (o : Operand2Imm)
deriving DecidableEq, Repr

/-- `reg_operand.rm`: the first byte of the union. -/
def Operand2.rm : Operand2 → RegisterIndexT
  | regOperand o => o.rm
  | immOperand o => o.imm8

/-- `imm_operand.imm8`: the first byte of the union. -/
def Operand2.imm8 : Operand2 → Byte
  | regOperand o => o.rm
  | immOperand o => o.imm8

structure DecodedDataProcessing where
  raw : Word
  cond : Word
  immediateMode : Bool
  op : Word
  setConditionCodes : Bool
  rn : RegisterIndexT
  rd : RegisterIndexT
  operand2 : Operand2
deriving DecidableEq, Repr

/-- A `RegShift` initialised from a scalar: the scalar goes to its first member. -/
def RegShift.ofScalar (scalar : Byte) : RegShift := ⟨scalar != 0#8, .byImm 0#32 0#8⟩

/-- The decoder. The variable `shift_reg` it fills in is not used: the initialiser of
`reg_operand` takes the byte `shift`. -/
def decode (rawInst : Word) (faultOut : FaultOut) : DecodedDataProcessing × FaultOut :=
  let immediateMode := (rawInst &&& 0x02000000#32) != 0#32
  let operand2 :=
    if immediateMode then
      let rotate := ((rawInst &&& 0x00000F00#32) >>> 8).setWidth 8
      let imm8 := ((rawInst &&& 0x000000FF#32) >>> 0).setWidth 8
      Operand2.immOperand { rotate := RegShift.ofScalar rotate, imm8 := imm8 }
    else
      let shift := ((rawInst &&& 0x00000FF0#32) >>> 4).setWidth 8
      let rm := ((rawInst &&& 0x0000000F#32) >>> 0).setWidth 8
      Operand2.regOperand { shift := RegShift.ofScalar shift, rm := rm }
  ({ raw := rawInst
     cond := (rawInst &&& 0xF0000000#32) >>> 28
     immediateMode := immediateMode
     op := (rawInst &&& 0x01E00000#32) >>> 21
     setConditionCodes := (rawInst &&& 0x00100000#32) != 0#32
     rn := ((rawInst &&& 0x000F0000#32) >>> 16).setWidth 8
     rd := ((rawInst &&& 0x0000F000#32) >>> 12).setWidth 8
     operand2 := operand2 }, faultOut)

/-! ### The dispatch -/

/-- What a call of `data_proc_op` leaves: the returned status, if it returns one, the
state and `*fault_out`. -/
structure DataProcResult where
  status : Option ReturnStatus
  cpu : CpuState
  faultOut : FaultOut
deriving DecidableEq

/-- The register that the operations are given to write, `reg_operand.rm`. -/
def resultReg (inst : DecodedDataProcessing) : RegisterIndexT := inst.operand2.rm

/-- The switch. `mov_op` is called with the first operand for the value and the second,
as a truth value, for the S flag. -/
def dataProcSwitch (cpu : CpuState) (inst : DecodedDataProcessing) (operand1 operand2 : Word) :
    Except Abort CpuState :=
  match OpCode.ofValue inst.op with
  | some .opAdd => addOp cpu (resultReg inst) operand1 operand2 inst.setConditionCodes
  | some .opSub => subOp cpu (resultReg inst) operand1 operand2 inst.setConditionCodes
  | some .opAnd => andOp cpu (resultReg inst) operand1 operand2 inst.setConditionCodes
  | some .opOrr => orrOp cpu (resultReg inst) operand1 operand2
  | some .opCmp => .ok (cmpOp cpu (resultReg inst) operand1 operand2)
  | some .opMov => movOp cpu (resultReg inst) operand1 (operand2 != 0#32)
  | _ => .error .unknownOpcode

/-- `operand2`: the immediate, zero-extended, or the register `rm`. -/
def readOperand2 (cpu : CpuState) (inst : DecodedDataProcessing) : Except Abort Word :=
  if inst.immediateMode then .ok (inst.operand2.imm8.setWidth 32)
  else cpuGetReg cpu inst.operand2.rm.toNat

def dataProcOp (cpu : CpuState) (inst : DecodedDataProcessing) (faultOut : FaultOut) :
    Except Abort DataProcResult := do
  -- the source compares rd twice and does not check rn
  if registerCount ≤ inst.rd.toNat ∨ registerCount ≤ inst.rd.toNat then
    return ⟨some .error, cpu, ErrorCode.errorInvalidRegisterIndex.value⟩
  let faultOut := if inst.rd.toNat = pcRegisterIndex ∨ inst.rn.toNat = pcRegisterIndex then
    ErrorCode.warningPcUsedAsOperand.value else faultOut
  if inst.immediateMode = false ∧ registerCount ≤ inst.operand2.rm.toNat then
    return ⟨some .error, cpu, ErrorCode.errorInvalidRegisterIndex.value⟩
  let faultOut := if inst.immediateMode = false ∧ inst.operand2.rm.toNat = pcRegisterIndex then
    ErrorCode.warningPcUsedAsOperand.value else faultOut
  let operand1 ← cpuGetReg cpu inst.rn.toNat
  let operand2 ← readOperand2 cpu inst
  let cpu ← dataProcSwitch cpu inst operand1 operand2
  return ⟨none, cpu, faultOut⟩

/-! ### What the decoder gives -/

section Decode

open BitField

variable (w : Word) (f : FaultOut)

theorem toNat_field_byte (k : ℕ) :
    (((field w k 4).setWidth 32).setWidth 8).toNat = (field w k 4).toNat := by
  have h := (field w k 4).isLt
  simp only [BitVec.toNat_setWidth]
  omega

theorem decode_immediateMode : (decode w f).1.immediateMode = w.getLsbD 25 :=
  FlagWord.and_twoPow_ne_zero w 25

theorem decode_setConditionCodes : (decode w f).1.setConditionCodes = w.getLsbD 20 :=
  FlagWord.and_twoPow_ne_zero w 20

theorem decode_op : (decode w f).1.op = (field w 21 4).setWidth 32 :=
  and_mask_shiftRight w 21 4

theorem decode_rn : (decode w f).1.rn.toNat = (field w 16 4).toNat := by
  rw [← toNat_field_byte, ← and_mask_shiftRight]
  rfl

theorem decode_rd : (decode w f).1.rd.toNat = (field w 12 4).toNat := by
  rw [← toNat_field_byte, ← and_mask_shiftRight]
  rfl

theorem setWidth_field_byte {k n : ℕ} (hn : n ≤ 8) :
    ((field w k n).setWidth 32).setWidth 8 = (field w k n).setWidth 8 := by
  have h := (field w k n).isLt
  have hpow : 2 ^ n ≤ 2 ^ 8 := Nat.pow_le_pow_right (by decide) hn
  refine BitVec.eq_of_toNat_eq ?_
  simp only [BitVec.toNat_setWidth]
  omega

/-- The second operand that the decoder makes: of the shift of a register and of the rotation
of an immediate only whether they are 0. -/
theorem decode_operand2_eq : (decode w f).1.operand2 =
    if w.getLsbD 25 then .immOperand ⟨field w 0 8, .ofScalar ((field w 8 4).setWidth 8)⟩
    else .regOperand ⟨(field w 0 4).setWidth 8, .ofScalar (field w 4 8)⟩ := by
  have himm8 : ((w &&& 0x000000FF#32) >>> 0).setWidth 8 = field w 0 8 := by
    rw [show (w &&& 0x000000FF#32) >>> 0 = _ from and_mask_shiftRight w 0 8,
      setWidth_field_byte w (by decide), BitVec.setWidth_eq]
  have hrotate : ((w &&& 0x00000F00#32) >>> 8).setWidth 8 = (field w 8 4).setWidth 8 := by
    rw [show (w &&& 0x00000F00#32) >>> 8 = _ from and_mask_shiftRight w 8 4,
      setWidth_field_byte w (by decide)]
  have hrm : ((w &&& 0x0000000F#32) >>> 0).setWidth 8 = (field w 0 4).setWidth 8 := by
    rw [show (w &&& 0x0000000F#32) >>> 0 = _ from and_mask_shiftRight w 0 4,
      setWidth_field_byte w (by decide)]
  have hshift : ((w &&& 0x00000FF0#32) >>> 4).setWidth 8 = field w 4 8 := by
    rw [show (w &&& 0x00000FF0#32) >>> 4 = _ from and_mask_shiftRight w 4 8,
      setWidth_field_byte w (by decide), BitVec.setWidth_eq]
  rw [← decode_immediateMode w f, ← himm8, ← hrotate, ← hrm, ← hshift]
  rfl

/-- The first byte of the union: `rm` in register form, `imm8` in immediate form. -/
theorem decode_rm : (decode w f).1.operand2.rm.toNat =
    if w.getLsbD 25 then (field w 0 8).toNat else (field w 0 4).toNat := by
  have h := (field w 0 4).isLt
  rw [decode_operand2_eq]
  cases w.getLsbD 25
  · simp only [Bool.false_eq_true, if_false, Operand2.rm, BitVec.toNat_setWidth]
    omega
  · rfl

theorem shift_fields_of_zero {w : Word} (h : field w 4 8 = 0#8) :
    w.getLsbD 4 = false ∧ field w 5 2 = 0#2 ∧ field w 7 5 = 0#5 := by
  have h4 : w.getLsbD 4 = false := getLsbD_of_field h (show 0 < 8 by decide)
  have htype : field w 5 2 = 0#2 := field_congr (y := 0#32) h (by decide) (by decide)
  have himm5 : field w 7 5 = 0#5 := field_congr (y := 0#32) h (by decide) (by decide)
  exact ⟨h4, htype, himm5⟩

theorem decode_rn_lt : (decode w f).1.rn.toNat < 16 := by
  rw [decode_rn]
  exact (field w 16 4).isLt

theorem decode_rd_lt : (decode w f).1.rd.toNat < 16 := by
  rw [decode_rd]
  exact (field w 12 4).isLt

theorem decode_rm_lt (h : w.getLsbD 25 = false) : (decode w f).1.operand2.rm.toNat < 16 := by
  rw [decode_rm, h]
  exact (field w 0 4).isLt

end Decode

/-! ### What the dispatch does -/

/-- The register indices of an instruction are below 16, `rm` only in register mode. -/
structure DecodedDataProcessing.Valid (inst : DecodedDataProcessing) : Prop where
  rd : inst.rd.toNat < 16
  rn : inst.rn.toNat < 16
  rm : inst.immediateMode = false → inst.operand2.rm.toNat < 16

theorem decode_valid (w : Word) (f : FaultOut) : (decode w f).1.Valid :=
  ⟨decode_rd_lt w f, decode_rn_lt w f, fun h => decode_rm_lt w f (decode_immediateMode w f ▸ h)⟩

/-- The second operand that `data_proc_op` reads. -/
def operand2Value (cpu : CpuState) (inst : DecodedDataProcessing) : Word :=
  if inst.immediateMode then inst.operand2.imm8.setWidth 32 else cpu.reg inst.operand2.rm.toNat

theorem readOperand2_eq {inst : DecodedDataProcessing} (hv : inst.Valid) (cpu : CpuState) :
    readOperand2 cpu inst = .ok (operand2Value cpu inst) := by
  unfold readOperand2 operand2Value
  cases hi : inst.immediateMode
  · simp only [Bool.false_eq_true, if_false, cpuGetReg_eq (hv.rm hi)]
  · rfl

section Checks

variable {inst : DecodedDataProcessing}

/-- An index `rd` of a register passes both of its comparisons. -/
theorem rd_accepted (hrd : inst.rd.toNat < 16) :
    ¬ (registerCount ≤ inst.rd.toNat ∨ registerCount ≤ inst.rd.toNat) := by
  rw [or_self]
  exact Nat.not_le.mpr hrd

theorem rm_accepted (hrm : inst.immediateMode = false → inst.operand2.rm.toNat < 16) :
    ¬ (inst.immediateMode = false ∧ registerCount ≤ inst.operand2.rm.toNat) :=
  fun h => Nat.not_le.mpr (hrm h.1) h.2

end Checks

/-- With valid indices a call is the switch on the two operands, and then a fault code. -/
theorem dataProcOp_eq {inst : DecodedDataProcessing} (hv : inst.Valid) (cpu : CpuState)
    (f : FaultOut) : ∃ g, dataProcOp cpu inst f =
      (dataProcSwitch cpu inst (cpu.reg inst.rn.toNat) (operand2Value cpu inst)).map
        fun cpu' => ⟨none, cpu', g⟩ := by
  simp only [dataProcOp, if_neg (rd_accepted hv.rd), if_neg (rm_accepted hv.rm),
    cpuGetReg_eq hv.rn, Run.ok_bind, readOperand2_eq hv]
  rcases dataProcSwitch cpu inst (cpu.reg inst.rn.toNat) (operand2Value cpu inst) with e | cpu'
  · exact ⟨0, rfl⟩
  · exact ⟨_, rfl⟩

/-- An index that `data_proc_op` compares with the number of registers is none of them. -/
def RejectsIndex (inst : DecodedDataProcessing) : Prop :=
  16 ≤ inst.rd.toNat ∨ (inst.immediateMode = false ∧ 16 ≤ inst.operand2.rm.toNat)

section Indices

variable {inst : DecodedDataProcessing}

theorem dataProcOp_of_rejects (h : RejectsIndex inst) (cpu : CpuState) (f : FaultOut) :
    dataProcOp cpu inst f =
      .ok ⟨some .error, cpu, ErrorCode.errorInvalidRegisterIndex.value⟩ := by
  by_cases hrd : 16 ≤ inst.rd.toNat
  · have hge : registerCount ≤ inst.rd.toNat ∨ registerCount ≤ inst.rd.toNat := Or.inl hrd
    simp only [dataProcOp, if_pos hge]
    rfl
  · have hge : inst.immediateMode = false ∧ registerCount ≤ inst.operand2.rm.toNat :=
      h.resolve_left hrd
    simp only [dataProcOp, if_neg (rd_accepted (Nat.lt_of_not_le hrd)), if_pos hge]
    rfl

variable (h : ¬ RejectsIndex inst)

include h

theorem rd_lt_of_not_rejects : inst.rd.toNat < 16 :=
  Nat.lt_of_not_le fun hge => h (Or.inl hge)

theorem rm_lt_of_not_rejects (hi : inst.immediateMode = false) : inst.operand2.rm.toNat < 16 :=
  Nat.lt_of_not_le fun hge => h (Or.inr ⟨hi, hge⟩)

theorem valid_of_not_rejects (hrn : inst.rn.toNat < 16) : inst.Valid :=
  ⟨rd_lt_of_not_rejects h, hrn, rm_lt_of_not_rejects h⟩

/-- The index `rn` is not compared, and reading the register stops. -/
theorem dataProcOp_of_rn_ge (hrn : 16 ≤ inst.rn.toNat) (cpu : CpuState) (f : FaultOut) :
    dataProcOp cpu inst f = .error .registerIndex := by
  simp only [dataProcOp, if_neg (rd_accepted (rd_lt_of_not_rejects h)),
    if_neg (rm_accepted (rm_lt_of_not_rejects h)), cpuGetReg_of_ge hrn]
  rfl

end Indices

/-- The operations that the switch dispatches to and that store a value. -/
def OpCode.writes : OpCode → Bool
  | .opAdd | .opSub | .opAnd | .opOrr | .opMov => true
  | _ => false

/-- The value that a dispatched operation stores, if it stores one. -/
def OpCode.stored (op : OpCode) (operand1 operand2 : Word) : Option Word :=
  match op with
  | .opAdd => some (operand1 + operand2)
  | .opSub => some (operand1 - operand2)
  | .opAnd => some (operand1 &&& operand2)
  | .opOrr => some (operand1 ||| operand2)
  | .opMov => some operand1
  | _ => none

theorem OpCode.stored_isSome (op : OpCode) (a b : Word) : (op.stored a b).isSome = op.writes := by
  cases op <;> rfl

def OpCode.call (op : OpCode) (inst : DecodedDataProcessing) (operand1 operand2 : Word) :
    Option AluCall :=
  match op with
  | .opAdd => some ⟨.add, resultReg inst, operand1, operand2, inst.setConditionCodes⟩
  | .opSub => some ⟨.sub, resultReg inst, operand1, operand2, inst.setConditionCodes⟩
  | .opAnd => some ⟨.and, resultReg inst, operand1, operand2, inst.setConditionCodes⟩
  | .opOrr => some ⟨.orr, resultReg inst, operand1, operand2, inst.setConditionCodes⟩
  | .opCmp => some ⟨.cmp, resultReg inst, operand1, operand2, inst.setConditionCodes⟩
  | .opMov => some ⟨.mov, resultReg inst, operand2, operand1, operand2 != 0#32⟩
  | _ => none

theorem OpCode.call_of_stored {op : OpCode} {a b v : Word} (hv : op.stored a b = some v)
    (inst : DecodedDataProcessing) : ∃ k, op.call inst a b = some k ∧ k.op.stores = true ∧
      k.reg = resultReg inst ∧ ∀ cpu, k.result cpu = v := by
  cases op <;> cases hv
  all_goals exact ⟨_, rfl, rfl, rfl, fun _ => rfl⟩

section Switch

variable {inst : DecodedDataProcessing} {op : OpCode} (hop : OpCode.ofValue inst.op = some op)
  (cpu : CpuState) {a b v : Word}

include hop

/-- **The dispatch.** The switch is the ALU call of its operation, or the assertion. -/
theorem dataProcSwitch_eq : dataProcSwitch cpu inst a b =
    match op.call inst a b with
    | some k => k.exec cpu
    | none => .error .unknownOpcode := by
  unfold dataProcSwitch
  rw [hop]
  cases op <;> rfl

theorem dataProcSwitch_stored (hv : op.stored a b = some v) (ht : (resultReg inst).toNat < 16) :
    ∃ c, dataProcSwitch cpu inst a b =
      .ok { cpu.setReg (resultReg inst).toNat v with cpsr := c } := by
  obtain ⟨k, hk, hs, hreg, hres⟩ := OpCode.call_of_stored hv inst
  refine ⟨k.cpsrAfter cpu, ?_⟩
  rw [dataProcSwitch_eq hop, hk]
  show k.exec cpu = _
  rw [AluCall.exec_eq cpu k (hreg ▸ ht), AluCall.after, hs, hres, hreg]
  rfl

theorem dataProcSwitch_of_ge (hv : op.stored a b = some v) (ht : 16 ≤ (resultReg inst).toNat) :
    dataProcSwitch cpu inst a b = .error .registerIndex := by
  obtain ⟨k, hk, hs, hreg, -⟩ := OpCode.call_of_stored hv inst
  rw [dataProcSwitch_eq hop, hk]
  exact AluCall.exec_of_ge cpu k hs (hreg ▸ ht)

theorem dataProcSwitch_cmp (h : op = .opCmp) :
    dataProcSwitch cpu inst a b = .ok (flagsOp cpu (a - b)) := by
  rw [dataProcSwitch_eq hop, h]
  rfl

theorem dataProcSwitch_other (hv : op.stored a b = none) (h : op ≠ .opCmp) :
    dataProcSwitch cpu inst a b = .error .unknownOpcode := by
  rw [dataProcSwitch_eq hop]
  cases op <;> first | rfl | exact absurd rfl h | cases hv

omit hop in
theorem dataProcSwitch_none (hnone : OpCode.ofValue inst.op = none) :
    dataProcSwitch cpu inst a b = .error .unknownOpcode := by
  rw [dataProcSwitch, hnone]

/-- A call with valid indices that returns is the ALU call of its operation. -/
theorem dataProcOp_eq_ok_iff (hv : inst.Valid) (f : FaultOut) (c : CpuState) :
    (∃ out, dataProcOp cpu inst f = .ok out ∧ out.cpu = c) ↔
      ∃ k, op.call inst (cpu.reg inst.rn.toNat) (operand2Value cpu inst) = some k ∧
        k.exec cpu = .ok c := by
  obtain ⟨g, hg⟩ := dataProcOp_eq hv cpu f
  rw [hg, dataProcSwitch_eq hop]
  constructor
  · rintro ⟨out, ho, rfl⟩
    obtain ⟨cpu', hs, rfl⟩ := Run.map_eq_ok.mp ho
    cases hk : op.call inst (cpu.reg inst.rn.toNat) (operand2Value cpu inst) with
    | none =>
      rw [hk] at hs
      cases hs
    | some k =>
      rw [hk] at hs
      exact ⟨k, rfl, hs⟩
  · rintro ⟨k, hk, hexec⟩
    refine ⟨⟨none, c, g⟩, ?_, rfl⟩
    rw [hk]
    exact Run.map_eq_ok.mpr ⟨c, hexec, rfl⟩

end Switch

end SimpleArm
