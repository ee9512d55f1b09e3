/-
# Call and return

`BL` puts the address before the program counter into R14 and `BX R14` goes
back to it. `b_op` clears the two low bits of the link, which keeps `bx_op`
from both its Thumb assertion and from realigning the target
(`bxOp_aligned`). R14 need only survive the callee, any run whose instructions
may not write it (`call_return`). With the program counter two instructions
ahead, its value less 4 is the address after the call.
-/
import SimpleArm.BranchTarget
import SimpleArm.Machine

namespace SimpleArm

open BitField

/-- From an aligned program counter the link address needs no rounding. -/
theorem linkAddress_of_aligned {p : ℕ} (hp : p % 4 = 0) :
    linkAddress p = ((p : ℤ) - 4) % 2 ^ 32 := by
  unfold linkAddress
  omega

theorem bTaken_link (cpu : CpuState) {call : DecodedB} (hlink : call.link = true) :
    (((bTaken cpu call).reg 14).toNat : ℤ) = linkAddress (cpu.reg 15).toNat := by
  rw [bTaken_reg, if_neg (by decide), if_pos ⟨rfl, hlink⟩, toNat_link]

/-- A return to an aligned address passes the assertions and goes there. -/
theorem bxOp_aligned {cpu : CpuState} {ret : DecodedBx} (hrn : ret.rn < 15)
    (hcond : condPassed ret.cond cpu.cpsr = .ok true) (halign : (cpu.reg ret.rn).toNat % 4 = 0) :
    ∃ cpu', bxOp cpu ret = .ok cpu' ∧ cpu'.reg 15 = cpu.reg ret.rn := by
  have hthumb : cpu.reg ret.rn &&& 1#32 = 0#32 :=
    (and_lowMask_eq_zero_iff (k := 1) (by decide) _).mpr (by omega)
  have hround : cpu.reg ret.rn &&& ~~~3#32 = cpu.reg ret.rn := by
    refine BitVec.eq_of_toNat_eq ?_
    rw [toNat_and_not_three, halign, Nat.sub_zero]
  refine ⟨bxTaken cpu ret, bxOp_taken hrn hcond hthumb, ?_⟩
  rw [bxTaken, CpuState.reg_setReg_self (by decide), hround]

/-- **Call and return.** A call from an aligned program counter `p`, a callee that may not
write R14, and a return through R14 end at `p - 4`. -/
theorem call_return (cpu cpu' : CpuState) (call : DecodedB) (f : FaultOut) (callee : List Instr)
    (ret : DecodedBx) (haligned : (cpu.reg 15).toNat % 4 = 0) (hlink : call.link = true)
    (hcall : condPassed call.cond cpu.cpsr = .ok true)
    (hcallee : ∀ i ∈ callee, i.mayWrite 14 = false)
    (hrun : Run.run Instr.exec cpu (.b call f :: callee) = .ok cpu') (hret : ret.rn = 14)
    (hcond : condPassed ret.cond cpu'.cpsr = .ok true) :
    ∃ cpu'', bxOp cpu' ret = .ok cpu'' ∧
      ((cpu''.reg 15).toNat : ℤ) = ((cpu.reg 15).toNat - 4) % 2 ^ 32 := by
  obtain ⟨cpu1, h1, h2⟩ := (Run.run_cons_eq_ok Instr.exec).mp hrun
  obtain rfl : bTaken cpu call = cpu1 := Except.ok.inj ((exec_b_of_passed hcall f).symm.trans h1)
  have hlr : ((cpu'.reg 14).toNat : ℤ) = ((cpu.reg 15).toNat - 4) % 2 ^ 32 := by
    rw [run_frame hcallee h2, bTaken_link cpu hlink, linkAddress_of_aligned haligned]
  have halign : (cpu'.reg ret.rn).toNat % 4 = 0 := by
    rw [hret]
    omega
  obtain ⟨cpu'', hbx, hpc⟩ := bxOp_aligned (hret ▸ by decide) hcond halign
  refine ⟨cpu'', hbx, ?_⟩
  rw [hpc, hret, hlr]

/-- From the program counter 0 the return address wraps to `0xFFFFFFFC`. -/
theorem call_return_initial : ∃ cpu'',
    bxOp (((constructCpuState.setReg 14 0xFFFFFFFC#32).setReg 15 0x100#32).setReg 0 7#32)
        ⟨0#32, CondCode.al.value, 14⟩ = .ok cpu'' ∧
      ((cpu''.reg 15).toNat : ℤ) = ((constructCpuState.reg 15).toNat - 4) % 2 ^ 32 :=
  call_return constructCpuState
    (((constructCpuState.setReg 14 0xFFFFFFFC#32).setReg 15 0x100#32).setReg 0 7#32)
    ⟨0#32, CondCode.al.value, true, 0x100#32⟩ 0 [.alu ⟨.mov, 0#8, 0#32, 7#32, false⟩]
    ⟨0#32, CondCode.al.value, 14⟩ (by decide) rfl (by decide) (by decide) (by decide) rfl
    (by decide)

end SimpleArm
