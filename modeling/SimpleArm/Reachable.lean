/-
# What every run keeps

Two invariants of runs in any order, each from what a single step can do.

* The status word (`cpsr_reachable`): an operation of the ALU that updates N and
  Z takes both from its one result (`AluOp.flags_nz`), and a zero result is
  not negative. No update reaches a bit below V, and branches update nothing.
* The program counter (`pc_aligned`): `b_op` adds its offset unchecked, so the
  invariant rests on the decoder, whose offsets are multiples of 4
  (`decodeB_offset`). `bx_op` clears the low bits of whatever register it is
  given, and the link of a call is cleared in the same way.
-/
import SimpleArm.BranchTarget
import SimpleArm.Machine

namespace SimpleArm

open BitField

/-! ### The status word -/

/-- The bits of a status word that are not flags are 0, and not both N and Z are set. -/
structure Cpsr.Clean (c : Cpsr) : Prop where
  reserved : ∀ i, i < 28 → c.bit i = false
  nz : ¬ (c.bit 31 = true ∧ c.bit 30 = true)

theorem constructCpsr_clean : constructCpsr.Clean where
  reserved i _ := by simp [constructCpsr, Cpsr.bit]
  nz := by decide

theorem AluCall.cpsrAfter_clean {cpu : CpuState} (h : cpu.cpsr.Clean) (k : AluCall) :
    (k.cpsrAfter cpu).Clean := by
  unfold AluCall.cpsrAfter
  split_ifs
  · refine ⟨fun i hi => ?_, ?_⟩
    · rw [AluOp.flags_reserved _ _ _ _ _ hi]
      exact h.reserved i hi
    · obtain ⟨hn, hz⟩ := k.op.flags_nz (carryIn cpu) k.operand1 k.operand2 cpu.cpsr
      rw [hn, hz, beq_iff_eq]
      rintro ⟨hneg, hzero⟩
      rw [hzero] at hneg
      exact absurd hneg (by decide)
  · exact h

theorem exec_clean {cpu cpu' : CpuState} {i : Instr} (hc : cpu.cpsr.Clean)
    (h : i.exec cpu = .ok cpu') : cpu'.cpsr.Clean := by
  cases i with
  | alu k =>
    obtain ⟨rfl, -⟩ := AluCall.exec_cases h
    exact AluCall.cpsrAfter_clean hc k
  | b inst f =>
    rcases exec_b_cases h with ⟨-, rfl⟩ | ⟨-, rfl⟩
    · exact hc
    · rw [bTaken_cpsr]
      exact hc
  | bx inst =>
    obtain ⟨-, ⟨-, rfl⟩ | ⟨-, -, -, rfl⟩⟩ := bxOp_cases h
    · exact hc
    · exact hc

/-- **The status word in every reachable state.** After any run from the initial state the
bits 27 to 0 are 0, the Thumb bit among them, and N and Z are not both set. -/
theorem cpsr_reachable (is : List Instr) (cpu : CpuState)
    (h : Run.run Instr.exec constructCpuState is = .ok cpu) :
    (∀ i, i < 28 → cpu.cpsr.bit i = false) ∧ cpsrGetThumb cpu.cpsr = false ∧
      ¬ (cpsrGetNegative cpu.cpsr = true ∧ cpsrGetZero cpu.cpsr = true) := by
  have hclean : cpu.cpsr.Clean := by
    have hstep : ∀ (c : CpuState) (i : Instr) (c' : CpuState), True → c.cpsr.Clean →
        i.exec c = .ok c' → c'.cpsr.Clean := fun _ _ _ _ hc hexec => exec_clean hc hexec
    exact Run.run_inv hstep is constructCpuState cpu (fun _ _ => trivial) constructCpsr_clean h
  refine ⟨hclean.reserved, ?_, ?_⟩
  · exact (cpsrGet_twoPow 5 cpu.cpsr).trans (hclean.reserved 5 (by decide))
  · rw [cpsrGetNegative_eq, cpsrGetZero_eq]
    exact hclean.nz

/-- `SUBS r0, #3, #5` sets N, and a branch that is not taken follows. -/
theorem cpsr_reachable_subs :
    (∀ i, i < 28 → (⟨0x80000000#32⟩ : Cpsr).bit i = false) ∧ cpsrGetThumb ⟨0x80000000#32⟩ = false ∧
      ¬ (cpsrGetNegative ⟨0x80000000#32⟩ = true ∧ cpsrGetZero ⟨0x80000000#32⟩ = true) :=
  cpsr_reachable [.alu ⟨.sub, 0#8, 3#32, 5#32, true⟩, .b ⟨0#32, CondCode.eq.value, true, 3#32⟩ 0]
    { constructCpuState.setReg 0 0xFFFFFFFE#32 with cpsr := ⟨0x80000000#32⟩ } (by decide)

/-! ### The program counter -/

/-- A branch comes from its decoder with the condition of an enumerator, and an operation
that stores has a destination other than R15. -/
def Instr.Decoded : Instr → Prop
  | .alu k => k.op.stores = true → k.reg.toNat ≠ 15
  | .b inst _ => ∃ w f, ∃ c : CondCode, inst = { (decodeB w f).1 with cond := c.value }
  | .bx inst => ∃ w f, ∃ c : CondCode, inst = { (decodeBx w f).1 with cond := c.value }

theorem and_not_three_aligned (v : Word) : (v &&& ~~~3#32).toNat % 4 = 0 := by
  rw [toNat_and_not_three]
  omega

theorem add_offset_aligned {pc : Word} (hpc : pc.toNat % 4 = 0) (s : ℤ) :
    (pc + BitVec.ofInt 32 (4 * s)).toNat % 4 = 0 := by
  have h := toNat_add_ofInt pc (4 * s)
  omega

/-- A taken call leaves an aligned link, from any state. -/
theorem link_aligned (cpu : CpuState) {inst : DecodedB} (hlink : inst.link = true) :
    ((bTaken cpu inst).reg 14).toNat % 4 = 0 := by
  rw [bTaken_reg, if_neg (by decide), if_pos ⟨rfl, hlink⟩]
  exact and_not_three_aligned _

theorem exec_aligned {cpu cpu' : CpuState} {i : Instr} (hi : i.Decoded)
    (hpc : (cpu.reg 15).toNat % 4 = 0) (h : i.exec cpu = .ok cpu') :
    (cpu'.reg 15).toNat % 4 = 0 := by
  cases i with
  | alu k =>
    have hw : (Instr.alu k).mayWrite 15 = false := by
      rw [Instr.mayWrite, Bool.and_eq_false_imp]
      intro hs
      exact beq_eq_false_iff_ne.mpr (hi hs).symm
    rw [exec_frame hw h]
    exact hpc
  | b inst f =>
    obtain ⟨w, f', c, rfl⟩ := hi
    rcases exec_b_cases h with ⟨-, rfl⟩ | ⟨-, rfl⟩
    · exact hpc
    · rw [bTaken_reg, if_pos rfl]
      show (cpu.reg 15 + (decodeB w f').1.offset).toNat % 4 = 0
      rw [decodeB_offset]
      exact add_offset_aligned hpc (branchImm w)
  | bx inst =>
    obtain ⟨-, ⟨-, rfl⟩ | ⟨-, -, -, rfl⟩⟩ := bxOp_cases h
    · exact hpc
    · rw [bxTaken, CpuState.reg_setReg_self (by decide)]
      exact and_not_three_aligned _

/-- The initial state, with the program counter that `main` sets. -/
def startState : CpuState := constructCpuState.setReg pcRegisterIndex initialPc

/-- **The program counter in every reachable state.** R15 is a multiple of 4, and R14 is one
right after a taken branch with link. -/
theorem pc_aligned (is : List Instr) (cpu : CpuState) (hdec : ∀ i ∈ is, i.Decoded)
    (h : Run.run Instr.exec startState is = .ok cpu) :
    (cpu.reg 15).toNat % 4 = 0 ∧
      ∀ inst f cpu', (Instr.b inst f).Decoded → inst.link = true →
        condPassed inst.cond cpu.cpsr = .ok true → (Instr.b inst f).exec cpu = .ok cpu' →
          (cpu'.reg 15).toNat % 4 = 0 ∧ (cpu'.reg 14).toNat % 4 = 0 := by
  have haligned : (cpu.reg 15).toNat % 4 = 0 := by
    refine Run.run_inv (P := fun c => (c.reg 15).toNat % 4 = 0) ?_ is startState cpu hdec ?_ h
    · intro c i c' hi hc hexec
      exact exec_aligned hi hc hexec
    · decide
  refine ⟨haligned, fun inst f cpu' hinst hlink hcond hexec => ?_⟩
  refine ⟨exec_aligned hinst haligned hexec, ?_⟩
  obtain rfl : bTaken cpu inst = cpu' :=
    Except.ok.inj ((exec_b_of_passed hcond f).symm.trans hexec)
  exact link_aligned cpu hlink

/-- `BL` to the next word. -/
def callNextWord : DecodedB := { (decodeB 0xEB000001#32 0).1 with cond := CondCode.al.value }

/-- The call, after `MOV r3, #7`. -/
theorem pc_aligned_call : ((bTaken (startState.setReg 3 7#32) callNextWord).reg 15).toNat % 4 = 0 ∧
    ((bTaken (startState.setReg 3 7#32) callNextWord).reg 14).toNat % 4 = 0 :=
  (pc_aligned [.alu ⟨.mov, 3#8, 0#32, 7#32, false⟩] (startState.setReg 3 7#32) (by
    intro i hi
    obtain rfl := List.mem_singleton.mp hi
    intro _
    decide) (by decide)).2 callNextWord 0 _ ⟨0xEB000001#32, 0, .al, rfl⟩ (by decide) (by decide) rfl

end SimpleArm
