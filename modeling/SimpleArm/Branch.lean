/-
# Branches

`instructions/branch/b_bl.h` and `instructions/branch/bx.h`. The `int32_t`
offset is kept as its 32 bits in two's complement, which is how it is added
to the program counter; left shifts of it drop the top bits and right shifts
copy the sign, as gcc and clang do. Neither decoder nor `b_op` touches its
`fault_out`.
-/
import SimpleArm.Cond

namespace SimpleArm

/-! ### B and BL -/

structure DecodedB where
  raw : Word
  cond : Word
  link : Bool
  offset : Word
deriving DecidableEq, Repr

def decodeB (rawInst : Word) (faultOut : FaultOut) : DecodedB × FaultOut :=
  let offsetMask := 0x00FFFFFF#32
  let linkMask := 0x1000000#32
  let condMask := 0xF0000000#32
  let cond := (rawInst &&& condMask) >>> 28
  let imm24 := rawInst &&& offsetMask
  -- sign-extend 24 to 32 bits, then scale to bytes
  let imm24 := (imm24 <<< 8).sshiftRight 8
  let offset := imm24 <<< 2
  let link := (rawInst &&& linkMask) != 0#32
  ({ raw := rawInst, cond := cond, link := link, offset := offset }, faultOut)

/-- The link write of `b_op`: one word before the PC, its bits 1 and 0 cleared. -/
def bLink (cpu : CpuState) (pc : Word) : Except Abort CpuState :=
  let storedAddress := pc - 4#32
  let storedAddress := storedAddress &&& ~~~3#32
  cpuSetReg cpu linkRegisterIndex storedAddress

def bOp (cpu : CpuState) (inst : DecodedB) (faultOut : FaultOut) :
    Except Abort (CpuState × FaultOut) := do
  if !(← condPassed inst.cond cpu.cpsr) then return (cpu, faultOut)
  let pc ← cpuGetReg cpu pcRegisterIndex
  let cpu ← if inst.link then bLink cpu pc else pure cpu
  let nextAddress := pc + inst.offset
  let cpu ← cpuSetReg cpu pcRegisterIndex nextAddress
  return (cpu, faultOut)

/-! ### BX -/

structure DecodedBx where
  raw : Word
  cond : Word
  rn : RegisterIndex
deriving DecidableEq, Repr

def decodeBx (rawInst : Word) (faultOut : FaultOut) : DecodedBx × FaultOut :=
  let rnMask := 0x0000000F#32
  let cond := rawInst >>> 28
  let rn := (rawInst &&& rnMask).toNat
  ({ raw := rawInst, cond := cond, rn := rn }, faultOut)

def bxOp (cpu : CpuState) (inst : DecodedBx) : Except Abort CpuState := do
  require (inst.rn != pcRegisterIndex) .pcOperand
  if !(← condPassed inst.cond cpu.cpsr) then return cpu
  let targetAddress ← cpuGetReg cpu inst.rn
  let isThumb := (targetAddress &&& 1#32) != 0#32
  require (isThumb == false) .thumbTarget
  let alignedTargetAddress := targetAddress &&& ~~~3#32
  cpuSetReg cpu pcRegisterIndex alignedTargetAddress

/-! ### What they do -/

/-- The state after a taken branch. -/
def bTaken (cpu : CpuState) (inst : DecodedB) : CpuState :=
  let linked := if inst.link then cpu.setReg 14 ((cpu.reg 15 - 4#32) &&& ~~~3#32) else cpu
  linked.setReg 15 (cpu.reg 15 + inst.offset)

theorem bOp_eq (cpu : CpuState) (inst : DecodedB) (f : FaultOut) :
    bOp cpu inst f = (condPassed inst.cond cpu.cpsr).map fun passed =>
      (if passed then bTaken cpu inst else cpu, f) := by
  have hlink : bLink cpu (cpu.reg 15) =
      .ok (cpu.setReg 14 ((cpu.reg 15 - 4#32) &&& ~~~3#32)) := cpuSetReg_eq (by decide) cpu _
  unfold bOp
  rcases condPassed inst.cond cpu.cpsr with e | passed
  · rfl
  · cases passed
    · rfl
    · simp only [Run.ok_bind, Bool.not_true, Bool.false_eq_true, if_false, cpuGetReg_pc, bTaken]
      cases hl : inst.link
      · simp only [Bool.false_eq_true, if_false, pure, Except.pure, Run.ok_bind, cpuSetReg_pc]
        rfl
      · simp only [if_true, hlink, Run.ok_bind, cpuSetReg_pc]
        rfl

/-- A call of `b_op` that returns: the branch was taken, or nothing was done. -/
theorem bOp_cases {cpu cpu' : CpuState} {inst : DecodedB} {f f' : FaultOut}
    (h : bOp cpu inst f = .ok (cpu', f')) : f' = f ∧
      ((condPassed inst.cond cpu.cpsr = .ok false ∧ cpu' = cpu) ∨
        (condPassed inst.cond cpu.cpsr = .ok true ∧ cpu' = bTaken cpu inst)) := by
  rw [bOp_eq] at h
  cases hc : condPassed inst.cond cpu.cpsr with
  | error e =>
    rw [hc] at h
    cases h
  | ok passed =>
    rw [hc] at h
    obtain ⟨hcpu, hf⟩ := Prod.mk.inj (Except.ok.inj h)
    refine ⟨hf.symm, ?_⟩
    cases passed
    · exact Or.inl ⟨rfl, hcpu.symm⟩
    · exact Or.inr ⟨rfl, hcpu.symm⟩

theorem bOp_taken {cpu : CpuState} {inst : DecodedB}
    (h : condPassed inst.cond cpu.cpsr = .ok true) (f : FaultOut) :
    bOp cpu inst f = .ok (bTaken cpu inst, f) := by
  rw [bOp_eq, h]
  rfl

theorem bOp_not_taken {cpu : CpuState} {inst : DecodedB}
    (h : condPassed inst.cond cpu.cpsr = .ok false) (f : FaultOut) :
    bOp cpu inst f = .ok (cpu, f) := by
  rw [bOp_eq, h]
  rfl

theorem bTaken_cpsr (cpu : CpuState) (inst : DecodedB) : (bTaken cpu inst).cpsr = cpu.cpsr := by
  unfold bTaken
  cases inst.link <;> rfl

theorem bTaken_reg (cpu : CpuState) (inst : DecodedB) (i : ℕ) : (bTaken cpu inst).reg i =
    if i = 15 then cpu.reg 15 + inst.offset
    else if i = 14 ∧ inst.link then (cpu.reg 15 - 4#32) &&& ~~~3#32
    else cpu.reg i := by
  unfold bTaken
  rw [CpuState.reg_setReg (by omega)]
  by_cases hi : i = 15
  · simp [hi]
  · cases inst.link
    · simp [hi]
    · simp [hi, CpuState.reg_setReg]

def bxTaken (cpu : CpuState) (inst : DecodedBx) : CpuState :=
  cpu.setReg 15 (cpu.reg inst.rn &&& ~~~3#32)

theorem bxOp_cases {cpu cpu' : CpuState} {inst : DecodedBx} (h : bxOp cpu inst = .ok cpu') :
    inst.rn ≠ 15 ∧ ((condPassed inst.cond cpu.cpsr = .ok false ∧ cpu' = cpu) ∨
      (condPassed inst.cond cpu.cpsr = .ok true ∧ inst.rn < 16 ∧
        cpu.reg inst.rn &&& 1#32 = 0#32 ∧ cpu' = bxTaken cpu inst)) := by
  unfold bxOp at h
  by_cases hpc : inst.rn = pcRegisterIndex
  · simp [hpc] at h
  refine ⟨hpc, ?_⟩
  simp only [bne_iff_ne.mpr hpc, require_true, Run.ok_bind] at h
  cases hc : condPassed inst.cond cpu.cpsr with
  | error e =>
    rw [hc] at h
    cases h
  | ok passed =>
    rw [hc, Run.ok_bind] at h
    cases passed
    · exact Or.inl ⟨rfl, (Except.ok.inj h).symm⟩
    · refine Or.inr ⟨rfl, ?_⟩
      simp only [Bool.not_true, Bool.false_eq_true, if_false] at h
      rcases Nat.lt_or_ge inst.rn 16 with hrn | hrn
      · rw [cpuGetReg_eq hrn, Run.ok_bind] at h
        by_cases ht : cpu.reg inst.rn &&& 1#32 = 0#32
        · rw [ht] at h
          exact ⟨hrn, ht, Except.ok.inj (h.symm.trans (cpuSetReg_pc _ _))⟩
        · rw [bne_iff_ne.mpr ht] at h
          cases h
      · rw [cpuGetReg_of_ge hrn] at h
        cases h

theorem bxOp_taken {cpu : CpuState} {inst : DecodedBx} (hrn : inst.rn < 15)
    (h : condPassed inst.cond cpu.cpsr = .ok true) (ht : cpu.reg inst.rn &&& 1#32 = 0#32) :
    bxOp cpu inst = .ok (bxTaken cpu inst) := by
  have hpc : (inst.rn != pcRegisterIndex) = true := bne_iff_ne.mpr (Nat.ne_of_lt hrn)
  have hget : cpuGetReg cpu inst.rn = .ok (cpu.reg inst.rn) :=
    cpuGetReg_eq (hrn.trans (by decide)) cpu
  simp only [bxOp, hpc, require_true, Run.ok_bind, h, Bool.not_true, Bool.false_eq_true, if_false,
    hget, ht]
  exact cpuSetReg_pc cpu _

end SimpleArm
