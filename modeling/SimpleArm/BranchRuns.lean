/-
# Runs of branches, and branches after a comparison

A branch changes no flag, so in a run of branches the conditions that hold are
those that hold before it. The run moves the program counter by four times the
sum of the immediates of the branches that are taken, whatever their order, and
leaves the link of the last of them that links (`branches_run`).

A branch may come any number of instructions after the comparison it depends
on. As long as none of them updates the flags, branches included, it is taken
exactly when the comparison holds of the operands (`compare_branch`).
-/
import SimpleArm.BranchTarget
import SimpleArm.Compare
import SimpleArm.Machine

namespace SimpleArm

/-! ### Runs of branches -/

/-- A branch word, with the condition of an enumerator. -/
def branchInstr (p : Word × CondCode) : Instr := .b { (decodeB p.1 0).1 with cond := p.2.value } 0

/-- The words of the branches whose condition holds. -/
def takenWords (ps : List (Word × CondCode)) (cpsr : Cpsr) : List Word :=
  (ps.filter fun p => condSwitch p.2 cpsr).map Prod.fst

/-- The program counter after a branch from `p`. -/
def branchTo (p : ℕ) (w : Word) : ℕ := ((p + 4 * branchImm w) % 2 ^ 32).toNat

/-- The last link of a list of taken branches from `p`, if one of them links. -/
def lastLink (p : ℕ) : List Word → Option ℤ
  | [] => none
  | w :: ws => (lastLink (branchTo p w) ws).or
      (if w.getLsbD 24 then some (linkAddress p) else none)

/-- The state `cpu'` is `cpu` after the taken branches `ws`. -/
structure BranchedBy (cpu cpu' : CpuState) (ws : List Word) : Prop where
  pc : ((cpu'.reg 15).toNat : ℤ) = ((cpu.reg 15).toNat + 4 * (ws.map branchImm).sum) % 2 ^ 32
  lr : ((cpu'.reg 14).toNat : ℤ) =
    (lastLink (cpu.reg 15).toNat ws).getD ((cpu.reg 14).toNat : ℤ)
  others : ∀ i, i < 14 → cpu'.reg i = cpu.reg i
  cpsr : cpu'.cpsr = cpu.cpsr

theorem BranchedBy.refl (cpu : CpuState) : BranchedBy cpu cpu [] where
  pc := by
    have h := (cpu.reg 15).isLt
    simp only [List.map_nil, List.sum_nil]
    omega
  lr := rfl
  others _ _ := rfl
  cpsr := rfl

theorem BranchedBy.cons {cpu c cpu' : CpuState} {w : Word} {ws : List Word}
    (h : Branched cpu c (branchImm w) (w.getLsbD 24)) (h' : BranchedBy c cpu' ws) :
    BranchedBy cpu cpu' (w :: ws) where
  pc := by
    rw [h'.pc, h.pc, List.map_cons, List.sum_cons, Int.emod_add_emod, mul_add, add_assoc]
  lr := by
    have hto : branchTo (cpu.reg 15).toNat w = (c.reg 15).toNat := by
      rw [branchTo, ← h.pc, Int.toNat_natCast]
    rw [h'.lr, lastLink, hto]
    cases hlast : lastLink (c.reg 15).toNat ws with
    | some a => rfl
    | none =>
      rw [Option.none_or, Option.getD_none, h.lr]
      cases w.getLsbD 24 <;> rfl
  others i hi := (h'.others i hi).trans (h.others i hi)
  cpsr := h'.cpsr.trans h.cpsr

theorem exec_branchInstr (cpu : CpuState) (p : Word × CondCode) :
    ∃ c, (branchInstr p).exec cpu = .ok c ∧
      if condSwitch p.2 cpu.cpsr then Branched cpu c (branchImm p.1) (p.1.getLsbD 24)
      else c = cpu := by
  obtain ⟨w, c⟩ := p
  have hcond := condPassed_value c cpu.cpsr
  have hbranched := bTaken_branched cpu { (decodeB w 0).1 with cond := c.value } (branchImm w)
    (decodeB_offset w 0)
  rw [show ({ (decodeB w 0).1 with cond := c.value } : DecodedB).link = w.getLsbD 24 from
    decodeB_link w 0] at hbranched
  cases hp : condSwitch c cpu.cpsr
  · rw [hp] at hcond
    exact ⟨cpu, congrArg (Except.map Prod.fst) (bOp_not_taken hcond 0), rfl⟩
  · rw [hp] at hcond
    exact ⟨_, exec_b_of_passed hcond 0, hbranched⟩

/-- **Runs of branches.** Any branch words with any conditions run without an assertion, and do
what the ones whose condition holds at the start do in a row. -/
theorem branches_run (ps : List (Word × CondCode)) (cpu : CpuState) :
    ∃ cpu', Run.run Instr.exec cpu (ps.map branchInstr) = .ok cpu' ∧
      BranchedBy cpu cpu' (takenWords ps cpu.cpsr) := by
  induction ps generalizing cpu with
  | nil => exact ⟨cpu, rfl, BranchedBy.refl cpu⟩
  | cons p ps ih =>
    obtain ⟨c, hexec, hc⟩ := exec_branchInstr cpu p
    obtain ⟨cpu', hrun, hby⟩ := ih c
    refine ⟨cpu', ?_, ?_⟩
    · rw [List.map_cons, Run.run_cons, hexec]
      exact hrun
    · unfold takenWords at hby ⊢
      rw [List.filter_cons]
      cases hp : condSwitch p.2 cpu.cpsr
      · rw [hp] at hc
        obtain rfl := hc
        exact hby
      · rw [hp] at hc
        have hbranched : Branched cpu c (branchImm p.1) (p.1.getLsbD 24) := hc
        rw [hbranched.cpsr] at hby
        exact BranchedBy.cons hbranched hby

/-! ### Branches after a comparison -/

/-- The instruction does not update the flags. -/
def Instr.keepsFlags : Instr → Bool
  | .alu k => !k.op.updates k.risesCpsr
  | .b .. | .bx _ => true

/-- A step that does not update the flags keeps the status word. -/
theorem exec_keepsFlags {cpu cpu' : CpuState} {i : Instr} (hi : i.keepsFlags = true)
    (h : i.exec cpu = .ok cpu') : cpu'.cpsr = cpu.cpsr := by
  cases i with
  | alu k =>
    obtain ⟨rfl, -⟩ := AluCall.exec_cases h
    have hu : k.op.updates k.risesCpsr = false := by simpa [Instr.keepsFlags] using hi
    show k.cpsrAfter cpu = cpu.cpsr
    rw [AluCall.cpsrAfter, hu]
    rfl
  | b inst f =>
    rcases exec_b_cases h with ⟨-, rfl⟩ | ⟨-, rfl⟩
    · rfl
    · exact bTaken_cpsr cpu inst
  | bx inst =>
    obtain ⟨-, ⟨-, rfl⟩ | ⟨-, -, -, rfl⟩⟩ := bxOp_cases h
    · rfl
    · rfl

theorem run_keepsFlags {is : List Instr} (his : ∀ i ∈ is, i.keepsFlags = true)
    {cpu cpu' : CpuState} (h : Run.run Instr.exec cpu is = .ok cpu') : cpu'.cpsr = cpu.cpsr := by
  refine Run.run_inv (P := fun c => c.cpsr = cpu.cpsr) ?_ is cpu cpu' his rfl h
  intro c i c' hi hc hexec
  exact (exec_keepsFlags hi hexec).trans hc

/-- The initial state after `SUBS r0, #3, #5` and `MOV r2, #7`. -/
def comparedState : CpuState :=
  { (constructCpuState.setReg 0 0xFFFFFFFE#32).setReg 2 7#32 with cpsr := ⟨0x80000000#32⟩ }

/-- **Compare and branch.** After a subtraction with the S flag and any instructions that do not
update the flags, a branch with the condition `c` is taken exactly when `c` holds of the
operands. -/
theorem compare_branch (cpu cpu' : CpuState) (reg : RegisterIndexT) (a b : Word)
    (between : List Instr) (hbetween : ∀ i ∈ between, i.keepsFlags = true)
    (hrun : Run.run Instr.exec cpu (.alu ⟨.sub, reg, a, b, true⟩ :: between) = .ok cpu')
    (c : CondCode) (inst : DecodedB) (hinst : inst.cond = c.value) (f : FaultOut) :
    (c.Compares a b → Instr.exec cpu' (.b inst f) = .ok (bTaken cpu' inst)) ∧
      (¬ c.Compares a b → Instr.exec cpu' (.b inst f) = .ok cpu') := by
  obtain ⟨cpu₁, hsub, hrest⟩ := (Run.run_cons_eq_ok Instr.exec).mp hrun
  obtain ⟨rfl, -⟩ := AluCall.exec_cases (k := ⟨.sub, reg, a, b, true⟩) hsub
  have hcpsr : cpu'.cpsr = subFlags a b (a - b) cpu.cpsr := run_keepsFlags hbetween hrest
  have hcond : condPassed inst.cond cpu'.cpsr = .ok (condSwitch c cpu'.cpsr) := by
    rw [hinst]
    exact condPassed_value c cpu'.cpsr
  have hswitch := condSwitch_subFlags c a b cpu.cpsr
  rw [← hcpsr] at hswitch
  refine ⟨fun hc => ?_, fun hc => ?_⟩
  · rw [hswitch.mpr hc] at hcond
    exact exec_b_of_passed hcond f
  · rw [Bool.eq_false_iff.mpr fun h => hc (hswitch.mp h)] at hcond
    exact congrArg (Except.map Prod.fst) (bOp_not_taken hcond f)

/-- `SUBS r0, #3, #5`, a move, and a branch if less. -/
theorem compare_branch_lt :
    (CondCode.lt.Compares 3#32 5#32 →
        Instr.exec comparedState (.b ⟨0#32, CondCode.lt.value, true, 8#32⟩ 0) =
          .ok (bTaken comparedState ⟨0#32, CondCode.lt.value, true, 8#32⟩)) ∧
      (¬ CondCode.lt.Compares 3#32 5#32 →
        Instr.exec comparedState (.b ⟨0#32, CondCode.lt.value, true, 8#32⟩ 0) =
          .ok comparedState) :=
  compare_branch constructCpuState comparedState 0#8 3#32 5#32
    [.alu ⟨.mov, 2#8, 0#32, 7#32, false⟩] (by decide) (by decide) .lt _ rfl 0

end SimpleArm
