/-
# Branches in the loop of `main`

The encoding's documentation counts from the address `A` of the branch: the
target is `A + 8 + 4 * s` for the immediate `s`, and the link `A + 4`.
`b_op` takes R15 for a program counter that is two instructions ahead and
adds only `4 * s` to it, and the loop fetches at R15 itself. So a taken branch
goes to `A + 4 * s` and links `A - 4` (`iteration_branch`): neither part of
the documentation holds, on any branch (`branch_target_never`).
-/
import SimpleArm.BranchTarget
import SimpleArm.CondField
import SimpleArm.MainLoop

namespace SimpleArm

open BitField

/-- The program counter is R15, words go through `decode_b` and `b_op`, and the loop goes on
at the R15 that `b_op` leaves. `opFault` is the `fault_out` of `b_op`. -/
def branchEnv (faultNone opFault : FaultOut) : Env DecodedB where
  faultNone := faultNone
  cpuGetPc cpu := cpu.reg 15
  cpuSetPc cpu pc := cpu.setReg 15 pc
  decode w f := .ok (decodeB w f)
  executeInstruction m inst :=
    match bOp m.cpu inst opFault with
    | .ok (cpu, _) => .ok (⟨cpu, m.mem⟩, ⟨cpu.reg 15, 0, 0⟩)
    | .error e => .error (.call e)

section

variable (faultNone opFault : FaultOut) (mem : ProgramMemory) {cpu : CpuState} {w : Word}

/-- One iteration that goes on from the branch `w` fetches next where the documentation
says, and links the instruction after the branch. -/
def BranchesAsDocumented (cpu : CpuState) (w : Word) : Prop :=
  ∃ cpu' mem' f, iteration (branchEnv faultNone opFault) (⟨cpu, mem⟩, faultNone) =
      .ok (.inl (⟨cpu', mem'⟩, f)) ∧
    ((cpu'.reg 15).toNat : ℤ) = ((cpu.reg 15).toNat + 8 + 4 * branchImm w) % 2 ^ 32 ∧
    (w.getLsbD 24 = true → ((cpu'.reg 14).toNat : ℤ) = ((cpu.reg 15).toNat + 4) % 2 ^ 32)

variable {faultNone opFault mem}

theorem iteration_branch_eq
    (hfetch : fetch faultNone mem (cpu.reg 15) faultNone = .ok (.word w)) :
    iteration (branchEnv faultNone opFault) (⟨cpu, mem⟩, faultNone) =
      match bOp cpu (decodeB w faultNone).1 opFault with
      | .ok (cpu', _) => .ok (.inl (⟨cpu', mem⟩, faultNone))
      | .error e => .error (.call e) := by
  unfold iteration branchEnv
  simp only [hfetch, Run.ok_bind, FetchExit.value, FetchExit.faultOut]
  rcases bOp cpu (decodeB w faultNone).1 opFault with e | ⟨cpu', g⟩
  · rfl
  · simp [decodeB, pure, Except.pure, CpuState.setReg_reg]

/-- **A branch in the loop.** An iteration that goes on from a branch whose condition holds
has branched from R15 by four times the immediate. -/
theorem iteration_branch {cpu' : CpuState} {mem' : ProgramMemory} {f : FaultOut}
    (hfetch : fetch faultNone mem (cpu.reg 15) faultNone = .ok (.word w))
    (hcond : cpu.cpsr.flags.holds (field w 28 4) = true)
    (h : iteration (branchEnv faultNone opFault) (⟨cpu, mem⟩, faultNone) =
      .ok (.inl (⟨cpu', mem'⟩, f))) :
    Branched cpu cpu' (branchImm w) (w.getLsbD 24) := by
  rw [iteration_branch_eq hfetch] at h
  cases hb : bOp cpu (decodeB w faultNone).1 opFault with
  | error e =>
    rw [hb] at h
    cases h
  | ok out =>
    rw [hb] at h
    obtain ⟨hm, -⟩ := Prod.mk.inj (Sum.inl.inj (Except.ok.inj h))
    have hcpu : out.1 = cpu' := congrArg MainState.cpu hm
    obtain ⟨-, ⟨hc, -⟩ | ⟨-, htaken⟩⟩ := bOp_cases (show bOp _ _ _ = .ok (out.1, out.2) from hb)
    · rw [← Decoder.condPassed_eq .b faultNone hc] at hcond
      cases hcond
    · have hB := bTaken_branched cpu (decodeB w faultNone).1 (branchImm w)
        (decodeB_offset w faultNone)
      rwa [decodeB_link, ← htaken, hcpu] at hB

end

/-- **The loop and the branch disagree about R15.** For every memory and state, an iteration
on a branch whose condition holds never does what the documentation says. -/
theorem branch_target_never (faultNone opFault : FaultOut) (mem : ProgramMemory) (cpu : CpuState)
    (w : Word) (hfetch : fetch faultNone mem (cpu.reg 15) faultNone = .ok (.word w))
    (hcond : cpu.cpsr.flags.holds (field w 28 4) = true) :
    ¬ BranchesAsDocumented faultNone opFault mem cpu w := by
  rintro ⟨cpu', mem', f, h, hpc, -⟩
  have hB := (iteration_branch hfetch hcond h).pc
  omega

/-- `BLNE` to the next instruction but one, at address 0. -/
def callMemory : ProgramMemory := ⟨#[0x00#8, 0x00#8, 0x00#8, 0x1B#8], 4#64, rfl⟩

theorem branch_target_never_blne :
    ¬ BranchesAsDocumented 1 0 callMemory constructCpuState 0x1B000000#32 :=
  branch_target_never 1 0 callMemory constructCpuState 0x1B000000#32 (by decide) (by decide)

/-- The word at 0 is `BLNE` to 8. The next fetch is at 0 again, and R14 holds `0xFFFFFFFC`
instead of 4. -/
theorem blne_loops_at_zero :
    fetch 1 callMemory (constructCpuState.reg 15) 1 = .ok (.word 0x1B000000#32) ∧
      field 0x1B000000#32 25 3 = 0b101#3 ∧
      condPassed (decodeB 0x1B000000#32 1).1.cond constructCpuState.cpsr = .ok true ∧
      (iteration (branchEnv 1 0) (⟨constructCpuState, callMemory⟩, 1)).map
        (Sum.map (fun s => (s.1.cpu.reg 15, s.1.cpu.reg 14)) Prod.fst) =
          .ok (.inl (0#32, 0xFFFFFFFC#32)) ∧
      ¬ BranchesAsDocumented 1 0 callMemory constructCpuState 0x1B000000#32 := by
  have hrun : (iteration (branchEnv 1 0) (⟨constructCpuState, callMemory⟩, 1)).map
      (Sum.map (fun s => (s.1.cpu.reg 15, s.1.cpu.reg 14)) Prod.fst) =
        .ok (.inl (0#32, 0xFFFFFFFC#32)) := by
    decide
  refine ⟨by decide, by decide, by decide, hrun, ?_⟩
  rintro ⟨cpu', mem', f, h, hpc, -⟩
  rw [h] at hrun
  have hzero : cpu'.reg 15 = 0#32 := (Prod.mk.inj (Sum.inl.inj (Except.ok.inj hrun))).1
  rw [hzero] at hpc
  exact absurd hpc (by decide)

end SimpleArm
