/-
# The bits of a word that matter

A word is decoded and executed, as a branch, an exchange or a data-processing
instruction (`Decoder.execute`). Words that have the same `usedBits` do the same
in every state: they leave the same state, status and `*fault_out`, or stop at
the same assertion. And each of these bits matters: in some state the word with
that bit flipped does something else (`usedBits_exact`). A branch and an
exchange are executed whatever their class bits are, and a data-processing word
whatever its condition, its class bits and bits 11 to 8 are, which hold the
rotation of an immediate and most of the shift of a register. The destination
register is used for the warning about R15 alone.
-/
import SimpleArm.BranchTarget
import SimpleArm.CondField
import SimpleArm.ResultRegister

namespace SimpleArm

open BitField

/-- A word is decoded and executed: the status, if the call returns one, the state and
`*fault_out`. -/
def Decoder.execute (d : Decoder) (w : Word) (cpu : CpuState) (faultOut : FaultOut) :
    Except Abort DataProcResult :=
  match d with
  | .b =>
    let (inst, faultOut) := decodeB w faultOut
    (bOp cpu inst faultOut).map fun out => ⟨none, out.1, out.2⟩
  | .bx =>
    let (inst, faultOut) := decodeBx w faultOut
    (bxOp cpu inst).map fun cpu => ⟨none, cpu, faultOut⟩
  | .dataProcessing =>
    let (inst, faultOut) := decode w faultOut
    dataProcOp cpu inst faultOut

/-- The bits of a word that its execution depends on. -/
def Decoder.usedBits : Decoder → List ℕ
  | .b => List.range' 0 25 ++ List.range' 28 4
  | .bx => List.range' 0 4 ++ List.range' 28 4
  | .dataProcessing => List.range' 0 8 ++ List.range' 12 14

/-! ### What is used -/

theorem field_eq_of_bits {w w' : Word} {k n : ℕ}
    (h : ∀ i ∈ List.range' k n, w.getLsbD i = w'.getLsbD i) : field w k n = field w' k n := by
  refine BitVec.eq_of_getLsbD_eq fun i hi => ?_
  rw [BitVec.getLsbD_extractLsb', BitVec.getLsbD_extractLsb', h (k + i)]
  rw [List.mem_range'_1]
  omega

theorem decodeBx_rn (w : Word) : (decodeBx w 0).1.rn = (field w 0 4).toNat := by
  have hmask : w &&& 0x0000000F#32 = (field w 0 4).setWidth 32 := and_mask_eq_field w 4
  have hlt := (field w 0 4).isLt
  show (w &&& 0x0000000F#32).toNat = _
  rw [hmask, BitVec.toNat_setWidth]
  omega

section Congr

variable (cpu : CpuState) (f : FaultOut)

/-- `b_op` does not look at `raw`. -/
theorem bOp_congr {inst inst' : DecodedB} (hcond : inst.cond = inst'.cond)
    (hlink : inst.link = inst'.link) (hoffset : inst.offset = inst'.offset) :
    bOp cpu inst f = bOp cpu inst' f := by
  unfold bOp
  rw [hcond, hlink, hoffset]

theorem bxOp_congr {inst inst' : DecodedBx} (hcond : inst.cond = inst'.cond)
    (hrn : inst.rn = inst'.rn) : bxOp cpu inst = bxOp cpu inst' := by
  unfold bxOp
  rw [hcond, hrn]

/-- `data_proc_op` looks neither at `raw` and `cond` nor at the shift of the second operand. -/
theorem dataProcOp_congr {inst inst' : DecodedDataProcessing}
    (himm : inst.immediateMode = inst'.immediateMode) (hop : inst.op = inst'.op)
    (hs : inst.setConditionCodes = inst'.setConditionCodes) (hrn : inst.rn = inst'.rn)
    (hrd : inst.rd = inst'.rd) (hrm : inst.operand2.rm = inst'.operand2.rm) :
    dataProcOp cpu inst f = dataProcOp cpu inst' f := by
  have himm8 : inst.operand2.imm8 = inst'.operand2.imm8 := by
    rw [Operand2.imm8_eq_rm, Operand2.imm8_eq_rm, hrm]
  unfold dataProcOp readOperand2 dataProcSwitch resultReg
  rw [himm, hop, hs, hrn, hrd, hrm, himm8]

/-- The fields that the decoder keeps, the condition and the second operand apart. -/
theorem decode_kept_congr {w w' : Word} (himm : w.getLsbD 25 = w'.getLsbD 25)
    (hop : field w 21 4 = field w' 21 4) (hs : w.getLsbD 20 = w'.getLsbD 20)
    (hrn : field w 16 4 = field w' 16 4) (hrd : field w 12 4 = field w' 12 4) :
    (decode w f).1.immediateMode = (decode w' f).1.immediateMode ∧
      (decode w f).1.op = (decode w' f).1.op ∧
      (decode w f).1.setConditionCodes = (decode w' f).1.setConditionCodes ∧
      (decode w f).1.rn = (decode w' f).1.rn ∧ (decode w f).1.rd = (decode w' f).1.rd := by
  refine ⟨?_, ?_, ?_, BitVec.eq_of_toNat_eq ?_, BitVec.eq_of_toNat_eq ?_⟩
  · rw [decode_immediateMode, decode_immediateMode, himm]
  · rw [decode_op, decode_op, hop]
  · rw [decode_setConditionCodes, decode_setConditionCodes, hs]
  · rw [decode_rn, decode_rn, hrn]
  · rw [decode_rd, decode_rd, hrd]

theorem execute_congr {d : Decoder} {w w' : Word}
    (h : ∀ k ∈ d.usedBits, w.getLsbD k = w'.getLsbD k) :
    d.execute w cpu f = d.execute w' cpu f := by
  have hfield : ∀ k n, (∀ i ∈ List.range' k n, i ∈ d.usedBits) → field w k n = field w' k n :=
    fun k n hused => field_eq_of_bits fun i hi => h i (hused i hi)
  cases d with
  | b =>
    have hbits : field w 28 4 = field w' 28 4 := hfield 28 4 (by decide)
    have himm : field w 0 24 = field w' 0 24 := hfield 0 24 (by decide)
    have hcond : (decodeB w f).1.cond = (decodeB w' f).1.cond :=
      (Decoder.cond_eq .b w f).trans (hbits ▸ (Decoder.cond_eq .b w' f).symm)
    have hlink : (decodeB w f).1.link = (decodeB w' f).1.link := by
      rw [decodeB_link, decodeB_link, h 24 (by decide)]
    have hoffset : (decodeB w f).1.offset = (decodeB w' f).1.offset := by
      rw [decodeB_offset, decodeB_offset, branchImm, branchImm, himm]
    exact congrArg (Except.map _) (bOp_congr cpu f hcond hlink hoffset)
  | bx =>
    have hbits : field w 28 4 = field w' 28 4 := hfield 28 4 (by decide)
    have hindex : field w 0 4 = field w' 0 4 := hfield 0 4 (by decide)
    have hcond : (decodeBx w f).1.cond = (decodeBx w' f).1.cond :=
      (Decoder.cond_eq .bx w f).trans (hbits ▸ (Decoder.cond_eq .bx w' f).symm)
    have hrn : (decodeBx w f).1.rn = (decodeBx w' f).1.rn :=
      (decodeBx_rn w).trans (hindex ▸ (decodeBx_rn w').symm)
    exact congrArg (Except.map _) (bxOp_congr cpu hcond hrn)
  | dataProcessing =>
    have hi : w.getLsbD 25 = w'.getLsbD 25 := h 25 (by decide)
    obtain ⟨himm, hop, hs, hrn, hrd⟩ := decode_kept_congr f hi (hfield 21 4 (by decide))
      (h 20 (by decide)) (hfield 16 4 (by decide)) (hfield 12 4 (by decide))
    have hrm : (decode w f).1.operand2.rm = (decode w' f).1.operand2.rm := by
      refine BitVec.eq_of_toNat_eq ?_
      rw [decode_rm, decode_rm, hi, hfield 0 8 (by decide), hfield 0 4 (by decide)]
    exact dataProcOp_congr cpu f himm hop hs hrn hrd hrm

end Congr

/-! ### That it matters -/

/-- `BLEQ` to itself, `BXEQ r1`, and `ADD` of `r1` and 2 with R15 for the destination. -/
def Decoder.sampleWord : Decoder → Word
  | .b => 0x0B000000#32
  | .bx => 0x012FFF11#32
  | .dataProcessing => 0xE261F002#32

/-- A state with 6 in `r1` and Z set. -/
def sampleState : CpuState := { constructCpuState.setReg 1 6#32 with cpsr := ⟨0x40000000#32⟩ }

theorem sampleWord_flip : ∀ d : Decoder, ∀ k ∈ d.usedBits,
    d.execute (d.sampleWord ^^^ BitVec.twoPow 32 k) sampleState 0 ≠
      d.execute d.sampleWord sampleState 0 := by
  intro d
  cases d <;> decide

/-- **Used bits.** Words that agree on the used bits of a decoder are executed alike in every
state, and no used bit can be left out: a word with the bit flipped is executed differently
in some state. -/
theorem usedBits_exact (d : Decoder) :
    (∀ w w' : Word, (∀ k ∈ d.usedBits, w.getLsbD k = w'.getLsbD k) → ∀ cpu f,
      d.execute w cpu f = d.execute w' cpu f) ∧
      ∀ k ∈ d.usedBits, ∃ (w : Word) (cpu : CpuState) (f : FaultOut),
        d.execute (w ^^^ BitVec.twoPow 32 k) cpu f ≠ d.execute w cpu f :=
  ⟨fun _ _ h cpu f => execute_congr cpu f h, fun k hk => ⟨_, _, _, sampleWord_flip d k hk⟩⟩

end SimpleArm
