/-
# The machine: runs of instructions

A step is an operation of the ALU, `b_op` or `bx_op`; it exists when the call
returns. A run takes steps in any order (`Run.run Instr.exec`). What a step
may write is known from its instruction alone (`Instr.mayWrite`), so a
register that no instruction of a run may write keeps its value over the run
(`run_frame`).
-/
import SimpleArm.Alu
import SimpleArm.Branch

namespace SimpleArm

inductive Instr
  | alu (k : AluCall)
  | b (inst : DecodedB) (faultOut : FaultOut)
  | bx (inst : DecodedBx)
deriving DecidableEq, Repr

namespace Instr

/-- The step of an instruction. The fault code of `b_op` is not part of the state. -/
def exec (cpu : CpuState) : Instr → Except Abort CpuState
  | alu k => k.exec cpu
  | b inst faultOut => (bOp cpu inst faultOut).map Prod.fst
  | bx inst => bxOp cpu inst

/-- The registers that an instruction may write. -/
def mayWrite (i : Instr) (r : ℕ) : Bool :=
  match i with
  | alu k => k.op.stores && r == k.reg.toNat
  | b inst _ => r == pcRegisterIndex || (inst.link && r == linkRegisterIndex)
  | bx _ => r == pcRegisterIndex

end Instr

theorem exec_b_cases {cpu cpu' : CpuState} {inst : DecodedB} {f : FaultOut}
    (h : Instr.exec cpu (.b inst f) = .ok cpu') :
    (condPassed inst.cond cpu.cpsr = .ok false ∧ cpu' = cpu) ∨
      (condPassed inst.cond cpu.cpsr = .ok true ∧ cpu' = bTaken cpu inst) := by
  obtain ⟨⟨c, g⟩, hb, rfl⟩ := Run.map_eq_ok.mp h
  exact (bOp_cases hb).2

theorem exec_b_of_passed {cpu : CpuState} {inst : DecodedB}
    (h : condPassed inst.cond cpu.cpsr = .ok true) (f : FaultOut) :
    Instr.exec cpu (.b inst f) = .ok (bTaken cpu inst) :=
  congrArg (Except.map Prod.fst) (bOp_taken h f)

/-! ### Frames -/

/-- **The frame of a step.** A register that the instruction may not write keeps its value. -/
theorem exec_frame {cpu cpu' : CpuState} {i : Instr} {r : ℕ} (hr : i.mayWrite r = false)
    (h : i.exec cpu = .ok cpu') : cpu'.reg r = cpu.reg r := by
  cases i with
  | alu k =>
    obtain ⟨rfl, hreg⟩ := AluCall.exec_cases h
    rw [k.reg_after cpu hreg, if_neg]
    rintro ⟨hs, hrk⟩
    simp [Instr.mayWrite, hs, hrk] at hr
  | b inst f =>
    rcases exec_b_cases h with ⟨-, rfl⟩ | ⟨-, rfl⟩
    · rfl
    · simp only [Instr.mayWrite, pcRegisterIndex, linkRegisterIndex, Bool.or_eq_false_iff,
        Bool.and_eq_false_iff, beq_eq_false_iff_ne] at hr
      obtain ⟨hpc, hlr⟩ := hr
      have hlink : ¬ (r = 14 ∧ inst.link = true) := fun hl => by
        rcases hlr with hlr | hlr
        · rw [hl.2] at hlr
          cases hlr
        · exact hlr hl.1
      rw [bTaken_reg, if_neg hpc, if_neg hlink]
  | bx inst =>
    have hpc : r ≠ 15 := by simpa [Instr.mayWrite, pcRegisterIndex] using hr
    obtain ⟨-, ⟨-, rfl⟩ | ⟨-, -, -, rfl⟩⟩ := bxOp_cases h
    · rfl
    · exact CpuState.reg_setReg_ne (by decide) hpc cpu _

/-- **The frame of a run.** -/
theorem run_frame {r : ℕ} {is : List Instr} (hr : ∀ i ∈ is, i.mayWrite r = false)
    {cpu cpu' : CpuState} (h : Run.run Instr.exec cpu is = .ok cpu') :
    cpu'.reg r = cpu.reg r := by
  refine Run.run_inv (P := fun c => c.reg r = cpu.reg r) ?_ is cpu cpu' hr rfl h
  intro c i c' hi hc hexec
  exact (exec_frame hi hexec).trans hc

end SimpleArm
