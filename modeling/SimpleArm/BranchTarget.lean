/-
# Branch targets

What a branch word means: `B` and `BL` go to the program counter plus four
times the low 24 bits read as a signed number, modulo `2^32`, and `BL` links
the word before the program counter. `decode_b` gets the offset by a shift
pair and a scaling (`decodeB_offset`), and `b_op` adds it to an unsigned
program counter; the two together are the sum of integers wrapped once
(`bOp_decodeB`).
-/
import SimpleArm.Lib.BitField
import SimpleArm.Branch

namespace SimpleArm

open BitField

/-! ### The fields of a branch word -/

section Decode

variable (w : Word) (f : FaultOut)

/-- The immediate of a branch word. -/
def branchImm (w : Word) : ℤ := (field w 0 24).toInt

theorem decodeB_link : (decodeB w f).1.link = w.getLsbD 24 :=
  FlagWord.and_twoPow_ne_zero w 24

theorem decodeB_offset : (decodeB w f).1.offset = BitVec.ofInt 32 (4 * branchImm w) := by
  have hmask : w &&& 0x00FFFFFF#32 = (field w 0 24).setWidth 32 := and_mask_eq_field w 24
  have hsign : ((w &&& 0x00FFFFFF#32) <<< 8).sshiftRight 8 = (field w 0 24).signExtend 32 := by
    rw [hmask]
    exact shiftLeft_sshiftRight_eq_signExtend (by decide) (by decide) (field w 0 24)
  show ((w &&& 0x00FFFFFF#32) <<< 8).sshiftRight 8 <<< 2 = _
  rw [hsign, BitVec.shiftLeft_eq_mul_twoPow, BitVec.signExtend, mul_comm 4, BitVec.ofInt_mul]
  rfl

end Decode

/-! ### The link -/

theorem toNat_and_not_three (v : Word) : (v &&& ~~~3#32).toNat = v.toNat - v.toNat % 4 :=
  toNat_and_not_lowMask (k := 2) (by decide) v

/-- The link address of a program counter: one word before, rounded down. -/
def linkAddress (p : ℕ) : ℤ := ((p : ℤ) - 4) % 2 ^ 32 - ((p : ℤ) - 4) % 2 ^ 32 % 4

theorem toNat_link (pc : Word) : (((pc - 4#32) &&& ~~~3#32).toNat : ℤ) = linkAddress pc.toNat := by
  have hsub : ((pc - 4#32).toNat : ℤ) = ((pc.toNat : ℤ) - 4) % 2 ^ 32 := by
    have hpc := pc.isLt
    rw [BitVec.toNat_sub, BitVec.toNat_ofNat]
    omega
  have hle := Nat.mod_le (pc - 4#32).toNat 4
  rw [toNat_and_not_three, linkAddress, ← hsub, Nat.cast_sub hle]
  rfl

/-! ### The effect of a branch -/

/-- The state `cpu'` is `cpu` after a taken branch by `s` words. -/
structure Branched (cpu cpu' : CpuState) (s : ℤ) (link : Bool) : Prop where
  pc : ((cpu'.reg 15).toNat : ℤ) = ((cpu.reg 15).toNat + 4 * s) % 2 ^ 32
  lr : ((cpu'.reg 14).toNat : ℤ) = if link then linkAddress (cpu.reg 15).toNat
    else (cpu.reg 14).toNat
  others : ∀ i, i < 14 → cpu'.reg i = cpu.reg i
  cpsr : cpu'.cpsr = cpu.cpsr

theorem bTaken_branched (cpu : CpuState) (inst : DecodedB) (s : ℤ)
    (hs : inst.offset = BitVec.ofInt 32 (4 * s)) : Branched cpu (bTaken cpu inst) s inst.link where
  pc := by
    rw [bTaken_reg, if_pos rfl, hs, toNat_add_ofInt]
  lr := by
    rw [bTaken_reg, if_neg (by decide)]
    cases inst.link
    · simp
    · rw [if_pos ⟨rfl, rfl⟩, if_pos rfl, toNat_link]
  others i hi := by
    rw [bTaken_reg, if_neg (by omega), if_neg (by omega)]
  cpsr := bTaken_cpsr cpu inst

/-- **Branches end to end.** For every word, condition and state, decoding and executing a
branch changes nothing if the condition fails, and otherwise moves the program counter by
four times the signed immediate and links if the word says so. -/
theorem bOp_decodeB (w : Word) (f g : FaultOut) (c : CondCode) (cpu : CpuState) :
    ∃ passed cpu', condPassed c.value cpu.cpsr = .ok passed ∧
      bOp cpu { (decodeB w f).1 with cond := c.value } g = .ok (cpu', g) ∧
      (if passed then Branched cpu cpu' (branchImm w) (w.getLsbD 24) else cpu' = cpu) := by
  have hc := condPassed_value c cpu.cpsr
  have hb := bTaken_branched cpu { (decodeB w f).1 with cond := c.value } (branchImm w)
    (decodeB_offset w f)
  have hlink : ({ (decodeB w f).1 with cond := c.value } : DecodedB).link = w.getLsbD 24 :=
    decodeB_link w f
  rw [hlink] at hb
  cases hp : condSwitch c cpu.cpsr
  · rw [hp] at hc
    exact ⟨false, cpu, hc, bOp_not_taken hc g, rfl⟩
  · rw [hp] at hc
    exact ⟨true, _, hc, bOp_taken hc g, hb⟩

/-- `BLNE` three words back from a program counter of 8. -/
example : (bOp (constructCpuState.setReg 15 8#32)
    { (decodeB 0x1BFFFFFD#32 0).1 with cond := CondCode.ne.value } 0).map
      (fun out => (out.1.reg 15, out.1.reg 14)) = .ok (0xFFFFFFFC#32, 4#32) := by
  decide

end SimpleArm
