/-
# Exactly the reachable states

Which states a program of machine words can reach, from any state, where each
word is decoded by `decodeB`, `decodeBx` or `decode` and executed by `b_op`,
`bx_op` or `data_proc_op`. The registers can be anything (`reachable_iff`). The
status word is the one before, or one that differs in the flags only and does
not have both N and Z. When no data-processing word writes R15, R15 is aligned
or as far from alignment as before, and can be any such word
(`reachable_pc_iff`).

The bounds come from what a step keeps, and every state within them is reached
by words of five kinds: `ADD r_k, r1, #k`, which increments `r1` for `k = 1`
and copies it with an offset otherwise, `ADDS r1, r1`, `CMP r1, #0`, `BX r1`
and `B` to the next word.
-/
import SimpleArm.DataFlow
import SimpleArm.Lib.Reach
import SimpleArm.Reachable

namespace SimpleArm

open BitField Effect Run

/-- The instruction comes from a machine word. -/
def CondInstr.Encoded : CondInstr → Prop
  | .b inst _ => ∃ w f, inst = (decodeB w f).1
  | .bx inst => ∃ w f, inst = (decodeBx w f).1
  | .dataProcessing inst _ => ∃ w f, inst = (decode w f).1

/-- And if it is a data-processing one it does not write R15. -/
def CondInstr.KeepsPc (i : CondInstr) : Prop :=
  i.Encoded ∧ match i with
    | .dataProcessing inst _ => .reg 15 ∉ inst.writes
    | _ => True

/-! ### What a step keeps -/

/-- The status words that can follow `c`. -/
def Cpsr.Follows (c c' : Cpsr) : Prop :=
  c' = c ∨ (∀ i, i < 28 → c'.bit i = c.bit i) ∧ ¬ (c'.bit 31 = true ∧ c'.bit 30 = true)

theorem Cpsr.Follows.trans {c c' c'' : Cpsr} (h : c.Follows c') (h' : c'.Follows c'') :
    c.Follows c'' := by
  rcases h' with rfl | ⟨hlow, hnz⟩
  · exact h
  · refine Or.inr ⟨fun i hi => ?_, hnz⟩
    rcases h with rfl | ⟨hlow', -⟩
    · exact hlow i hi
    · rw [hlow i hi, hlow' i hi]

theorem AluCall.cpsrAfter_follows (cpu : CpuState) (k : AluCall) :
    cpu.cpsr.Follows (k.cpsrAfter cpu) := by
  unfold AluCall.cpsrAfter
  split_ifs
  · refine Or.inr ⟨fun i hi => AluOp.flags_reserved _ _ _ _ _ hi, ?_⟩
    obtain ⟨hn, hz⟩ := k.op.flags_nz (carryIn cpu) k.operand1 k.operand2 cpu.cpsr
    rw [hn, hz, beq_iff_eq]
    rintro ⟨hneg, hzero⟩
    rw [hzero] at hneg
    exact absurd hneg (by decide)
  · exact Or.inl rfl

theorem exec_dataProcessing_cases {inst : DecodedDataProcessing} {f : FaultOut}
    {cpu cpu' : CpuState} (h : (CondInstr.dataProcessing inst f).exec cpu = .ok cpu') :
    cpu' = cpu ∨ ∃ k : AluCall, cpu' = k.after cpu := by
  by_cases hrej : RejectsIndex inst
  · rw [DecodedDataProcessing.exec_of_rejects hrej] at h
    exact Or.inl (Except.ok.inj h).symm
  rcases Nat.lt_or_ge inst.rn.toNat 16 with hrn | hrn
  · rw [DecodedDataProcessing.exec_eq_switch (valid_of_not_rejects hrej hrn)] at h
    cases hop : OpCode.ofValue inst.op with
    | none =>
      rw [dataProcSwitch_none _ hop] at h
      cases h
    | some op =>
      rw [dataProcSwitch_eq hop] at h
      cases hk : op.call inst (cpu.reg inst.rn.toNat) (operand2Value cpu inst) with
      | none =>
        rw [hk] at h
        cases h
      | some k =>
        rw [hk] at h
        exact Or.inr ⟨k, (AluCall.exec_cases h).1⟩
  · rw [DecodedDataProcessing.exec_of_rn_ge hrej hrn] at h
    cases h

theorem exec_b_cond_cases {inst : DecodedB} {f : FaultOut} {cpu cpu' : CpuState}
    (h : (CondInstr.b inst f).exec cpu = .ok cpu') : cpu' = cpu ∨ cpu' = bTaken cpu inst := by
  obtain ⟨⟨c, f'⟩, hb, rfl⟩ := Run.map_eq_ok.mp h
  obtain ⟨-, ⟨-, hc⟩ | ⟨-, hc⟩⟩ := bOp_cases hb
  · exact Or.inl hc
  · exact Or.inr hc

/-- Every step leads to a status word that can follow. -/
theorem exec_follows {cpu cpu' : CpuState} {i : CondInstr} (h : i.exec cpu = .ok cpu') :
    cpu.cpsr.Follows cpu'.cpsr := by
  cases i with
  | b inst f =>
    rcases exec_b_cond_cases h with rfl | rfl
    · exact Or.inl rfl
    · exact Or.inl (bTaken_cpsr cpu inst)
  | bx inst =>
    obtain ⟨-, ⟨-, rfl⟩ | ⟨-, -, -, rfl⟩⟩ := bxOp_cases h
    · exact Or.inl rfl
    · exact Or.inl rfl
  | dataProcessing inst f =>
    rcases exec_dataProcessing_cases h with rfl | ⟨k, rfl⟩
    · exact Or.inl rfl
    · exact k.cpsrAfter_follows cpu

/-- A step that keeps the PC leads to an aligned R15, or one with the same distance to
alignment. -/
theorem exec_pc_mod {cpu cpu' : CpuState} {i : CondInstr} (hi : i.KeepsPc)
    (h : i.exec cpu = .ok cpu') :
    (cpu'.reg 15).toNat % 4 = 0 ∨ (cpu'.reg 15).toNat % 4 = (cpu.reg 15).toNat % 4 := by
  obtain ⟨henc, hpc⟩ := hi
  cases i with
  | b inst f =>
    obtain ⟨w, f', rfl⟩ := henc
    rcases exec_b_cond_cases h with rfl | rfl
    · exact Or.inr rfl
    · rw [bTaken_reg, if_pos rfl, decodeB_offset]
      have hsum := toNat_add_ofInt (cpu.reg 15) (4 * branchImm w)
      omega
  | bx inst =>
    obtain ⟨-, ⟨-, rfl⟩ | ⟨-, -, -, rfl⟩⟩ := bxOp_cases h
    · exact Or.inr rfl
    · refine Or.inl ?_
      rw [bxTaken, CpuState.reg_setReg_self (by decide)]
      exact and_not_three_aligned _
  | dataProcessing inst f =>
    have hkept : cpu'.get (.reg 15) = cpu.get (.reg 15) :=
      (inst.footprint f).frame cpu cpu' h hpc
    rw [show cpu'.reg 15 = cpu.reg 15 from Sum.inl.inj hkept]
    exact Or.inr rfl

/-! ### The words -/

/-- A data-processing word, executed. -/
def dataProcInstr (w : Word) : CondInstr := .dataProcessing (decode w 0).1 0

/-- `ADD r_k, r1, #k`, whose register is the number that is added. -/
def addWord (k : ℕ) : Word := 0xE2610000#32 ||| BitVec.ofNat 32 k

/-- `ADDS r1, r1`. -/
def doubleWord : Word := 0xE0710001#32

/-- `CMP r1, #0`. -/
def cmpWord : Word := 0xE3710000#32

theorem dataProcInstr_encoded (w : Word) : (dataProcInstr w).Encoded := ⟨w, 0, rfl⟩

theorem decode_addWord : ∀ k : Fin 16, (decode (addWord k) 0).1 =
    { raw := addWord k, cond := 0xE#32, immediateMode := true, op := OpCode.opAdd.value,
      setConditionCodes := false, rn := 1#8, rd := 0#8,
      operand2 := .immOperand ⟨BitVec.ofNat 8 k, .ofScalar 0#8⟩ } := by
  decide

theorem exec_addWord {k : ℕ} (hk : k < 16) (cpu : CpuState) :
    (dataProcInstr (addWord k)).exec cpu = .ok (cpu.setReg k (cpu.reg 1 + BitVec.ofNat 32 k)) := by
  have hreg : (BitVec.ofNat 8 k).toNat = k := by
    rw [BitVec.toNat_ofNat]
    omega
  have hwide : (BitVec.ofNat 8 k).setWidth 32 = BitVec.ofNat 32 k := by
    refine BitVec.eq_of_toNat_eq ?_
    simp only [BitVec.toNat_setWidth, BitVec.toNat_ofNat]
    omega
  unfold dataProcInstr
  rw [DecodedDataProcessing.exec_eq_switch (decode_valid (addWord k) 0),
    decode_addWord ⟨k, hk⟩]
  refine (AluCall.exec_eq cpu ⟨.add, BitVec.ofNat 8 k, cpu.reg 1,
    (BitVec.ofNat 8 k).setWidth 32, false⟩ (by rwa [hreg])).trans ?_
  rw [hwide]
  show Except.ok (cpu.setReg (BitVec.ofNat 8 k).toNat (cpu.reg 1 + BitVec.ofNat 32 k)) = _
  rw [hreg]

theorem exec_doubleWord (cpu : CpuState) : (dataProcInstr doubleWord).exec cpu =
    .ok { cpu.setReg 1 (cpu.reg 1 + cpu.reg 1) with
      cpsr := addFlags (cpu.reg 1) (cpu.reg 1) cpu.cpsr } := by
  unfold dataProcInstr
  rw [DecodedDataProcessing.exec_eq_switch (decode_valid doubleWord 0)]
  exact AluCall.exec_eq cpu ⟨.add, 1#8, cpu.reg 1, cpu.reg 1, true⟩ (show 1 < 16 by decide)

theorem exec_cmpWord (cpu : CpuState) : (dataProcInstr cmpWord).exec cpu =
    .ok { cpu with cpsr := nzFlags (cpu.reg 1) cpu.cpsr } := by
  unfold dataProcInstr
  rw [DecodedDataProcessing.exec_eq_switch (decode_valid cmpWord 0)]
  refine (AluCall.exec_eq cpu ⟨.cmp, 0#8, cpu.reg 1, 0#32, true⟩ (show 0 < 16 by decide)).trans ?_
  show Except.ok { cpu with cpsr := nzFlags (cpu.reg 1 - 0#32) cpu.cpsr } = _
  rw [BitVec.sub_zero]

/-! ### Registers -/

theorem iterate_increase {k : ℕ} (hk : k < 16) (d : Word) (n : ℕ) (cpu : CpuState) :
    (fun c : CpuState => c.setReg k (c.reg k + d))^[n] cpu =
      cpu.setReg k (cpu.reg k + BitVec.ofNat 32 n * d) := by
  induction n generalizing cpu with
  | zero =>
    rw [Function.iterate_zero, id, BitVec.zero_mul, BitVec.add_zero, CpuState.setReg_reg]
  | succ n ih =>
    rw [Function.iterate_succ_apply, ih, CpuState.setReg_setReg hk, CpuState.reg_setReg_self hk,
      BitVec.ofNat_add, BitVec.add_mul, BitVec.one_mul, BitVec.add_assoc, BitVec.add_comm d]

section Registers

variable {A : CondInstr → Prop} (hinc : A (dataProcInstr (addWord 1)))

include hinc

/-- `r1` is counted up to any value. -/
theorem reach_one (cpu : CpuState) (v : Word) :
    Reachable CondInstr.exec A cpu (cpu.setReg 1 v) := by
  have hreach := Reachable.iterate (fun c => Reachable.single hinc (exec_addWord (by decide) c))
    (v - cpu.reg 1).toNat cpu
  rw [iterate_increase (by decide), BitVec.ofNat_toNat, BitVec.setWidth_eq, BitVec.mul_one,
    BitVec.add_comm, BitVec.sub_add_cancel] at hreach
  exact hreach

/-- Any register is set to any value, and `r1` restored. -/
theorem reach_setReg {k : ℕ} (hk : k < 16) (hadd : A (dataProcInstr (addWord k))) (cpu : CpuState)
    (v : Word) : Reachable CondInstr.exec A cpu (cpu.setReg k v) := by
  by_cases hk1 : k = 1
  · subst hk1
    exact reach_one hinc cpu v
  · have hset := (reach_one hinc cpu (v - BitVec.ofNat 32 k)).trans
      (Reachable.single hadd (exec_addWord hk _))
    rw [CpuState.reg_setReg_self (by decide), BitVec.sub_add_cancel] at hset
    have hback := hset.trans (reach_one hinc _ (cpu.reg 1))
    rw [CpuState.setReg_comm hk (by decide) hk1, CpuState.setReg_setReg (by decide),
      CpuState.setReg_reg] at hback
    exact hback

end Registers

theorem reg_foldl_setReg (t : CpuState) : ∀ (n : ℕ) (cpu : CpuState) (i : ℕ), n ≤ 16 →
    ((List.range n).foldl (fun c k => c.setReg k (t.reg k)) cpu).reg i =
      if i < n then t.reg i else cpu.reg i
  | 0, _, _, _ => rfl
  | n + 1, cpu, i, hn => by
    rw [List.range_succ, List.foldl_append, List.foldl_cons, List.foldl_nil,
      CpuState.reg_setReg (by omega), reg_foldl_setReg t n cpu i (by omega)]
    by_cases hi : i = n
    · rw [if_pos hi, if_pos (by omega), hi]
    · rw [if_neg hi]
      by_cases hlt : i < n
      · rw [if_pos hlt, if_pos (by omega)]
      · rw [if_neg hlt, if_neg (by omega)]

theorem cpsr_foldl_setReg (t : CpuState) (l : List ℕ) (cpu : CpuState) :
    (l.foldl (fun c k => c.setReg k (t.reg k)) cpu).cpsr = cpu.cpsr := by
  induction l generalizing cpu with
  | nil => rfl
  | cons k l ih => rw [List.foldl_cons, ih, CpuState.setReg_cpsr]

theorem foldl_setReg_eq {cpu t : CpuState} (h : cpu.cpsr = t.cpsr) :
    (List.range 16).foldl (fun c k => c.setReg k (t.reg k)) cpu = t := by
  refine CpuState.eq_of_reg (fun i hi => ?_) ?_
  · rw [reg_foldl_setReg t 16 cpu i le_rfl, if_pos hi]
  · rw [cpsr_foldl_setReg, h]

/-! ### Flags -/

/-- A number whose double has the flags C and V as given. -/
def doubled (c v : Bool) : Word :=
  (if c then 0x80000000#32 else 0#32) ^^^ (if c ^^ v then 0x40000000#32 else 0#32)

theorem doubled_spec : ∀ c v : Bool, (doubled c v).uaddOverflow (doubled c v) = c ∧
    (doubled c v).saddOverflow (doubled c v) = v := by
  decide

/-- A number that is negative or 0 as given, not both. -/
def compared (n z : Bool) : Word := if n then 0x80000000#32 else if z then 0#32 else 1#32

theorem compared_spec : ∀ n z : Bool, ¬ (n = true ∧ z = true) →
    (compared n z).msb = n ∧ (compared n z == 0#32) = z := by
  decide

/-- Any flags that can follow are set. -/
theorem reach_cpsr {A : CondInstr → Prop} (hinc : A (dataProcInstr (addWord 1)))
    (hdouble : A (dataProcInstr doubleWord)) (hcmp : A (dataProcInstr cmpWord)) (cpu : CpuState)
    {c : Cpsr} (h : cpu.cpsr.Follows c) :
    Reachable CondInstr.exec A cpu { cpu with cpsr := c } := by
  rcases h with rfl | ⟨hlow, hnz⟩
  · exact Reachable.refl cpu
  · obtain ⟨hcarry, hoverflow⟩ := doubled_spec (c.bit 29) (c.bit 28)
    obtain ⟨hneg, hzero⟩ := compared_spec (c.bit 31) (c.bit 30) hnz
    generalize doubled (c.bit 29) (c.bit 28) = x at hcarry hoverflow
    generalize compared (c.bit 31) (c.bit 30) = y at hneg hzero
    -- count to x and double it, count to y and compare it, restore r1
    have hflags : nzFlags y (addFlags x x cpu.cpsr) = c := by
      refine Cpsr.eq_of_bit fun i hi => ?_
      simp only [bit_nzFlags, bit_addFlags, hneg, hzero, hcarry, hoverflow]
      split_ifs with h31 h30 h28 h29
      · rw [h31]
      · rw [h30]
      · rw [h28]
      · rw [h29]
      · exact (hlow i (by omega)).symm
    have hx := (reach_one hinc cpu x).trans (Reachable.single hdouble (exec_doubleWord _))
    have hy := (hx.trans (reach_one hinc _ y)).trans (Reachable.single hcmp (exec_cmpWord _))
    have hback := hy.trans (reach_one hinc _ (cpu.reg 1))
    convert hback using 1
    refine CpuState.eq_of_reg (fun i _ => ?_) ?_
    · rw [CpuState.reg_setReg (by decide), CpuState.reg_withCpsr]
      split_ifs with hi
      · rw [hi]
      · simp [CpuState.reg_setReg, hi]
    · rw [CpuState.setReg_cpsr]
      simp [hflags]

/-! ### The program counter -/

/-- `BX r1`, if Z is as given. -/
def bxWord (z : Bool) : Word := if z then 0x012FFF11#32 else 0x112FFF11#32

/-- `B` to the next word, if Z is as given. -/
def bWord (z : Bool) : Word := if z then 0x0A000001#32 else 0x1A000001#32

theorem condPassed_word (z : Bool) {cpsr : Cpsr} (h : cpsr.bit 30 = z) :
    condPassed (if z then 0#32 else 1#32) cpsr = .ok true := by
  cases z
  · rw [if_neg Bool.false_ne_true, show (1#32 : Word) = CondCode.ne.value from rfl,
      condPassed_value]
    simp [condSwitch, h]
  · rw [if_pos rfl, show (0#32 : Word) = CondCode.eq.value from rfl, condPassed_value]
    simp [condSwitch, h]

theorem exec_bxWord (cpu : CpuState) (h : (cpu.reg 1).toNat % 4 = 0) :
    (CondInstr.bx (decodeBx (bxWord (cpu.cpsr.bit 30)) 0).1).exec cpu =
      .ok (cpu.setReg 15 (cpu.reg 1)) := by
  have hinst : ∀ z, (decodeBx (bxWord z) 0).1 = ⟨bxWord z, if z then 0#32 else 1#32, 1⟩ := by
    decide
  have hround : cpu.reg 1 &&& ~~~3#32 = cpu.reg 1 := by
    refine BitVec.eq_of_toNat_eq ?_
    rw [toNat_and_not_three, h, Nat.sub_zero]
  have heven : cpu.reg 1 &&& 1#32 = 0#32 :=
    (and_lowMask_eq_zero_iff (k := 1) (by decide) (cpu.reg 1)).mpr (by omega)
  rw [hinst]
  refine (bxOp_taken (show 1 < 15 by decide) (condPassed_word _ rfl) heven).trans ?_
  show Except.ok (cpu.setReg 15 (cpu.reg 1 &&& ~~~3#32)) = _
  rw [hround]

theorem exec_bWord (cpu : CpuState) :
    (CondInstr.b (decodeB (bWord (cpu.cpsr.bit 30)) 0).1 0).exec cpu =
      .ok (cpu.setReg 15 (cpu.reg 15 + 4#32)) := by
  have hinst : ∀ z, (decodeB (bWord z) 0).1 =
      ⟨bWord z, if z then 0#32 else 1#32, false, 4#32⟩ := by
    decide
  rw [hinst]
  exact congrArg (Except.map Prod.fst) (bOp_taken (condPassed_word _ rfl) 0)

section Pc

variable {A : CondInstr → Prop} (hinc : A (dataProcInstr (addWord 1)))
  (hbx : ∀ z, A (.bx (decodeBx (bxWord z) 0).1)) (hb : ∀ z, A (.b (decodeB (bWord z) 0).1 0))

include hinc hbx in
/-- R15 is set to any aligned address. -/
theorem reach_pc_aligned (cpu : CpuState) {v : Word} (h : v.toNat % 4 = 0) :
    Reachable CondInstr.exec A cpu (cpu.setReg 15 v) := by
  have hone : (cpu.setReg 1 v).reg 1 = v := CpuState.reg_setReg_self (by decide) cpu v
  have hexec := exec_bxWord (cpu.setReg 1 v) (by rwa [hone])
  rw [hone] at hexec
  have hback := ((reach_one hinc cpu v).trans (Reachable.single (hbx _) hexec)).trans
    (reach_one hinc _ (cpu.reg 1))
  rw [CpuState.setReg_comm (by decide) (by decide) (by decide),
    CpuState.setReg_setReg (by decide), CpuState.setReg_reg] at hback
  exact hback

include hb in
theorem reach_pc_mod (cpu : CpuState) {v : Word} (h : v.toNat % 4 = (cpu.reg 15).toNat % 4) :
    Reachable CondInstr.exec A cpu (cpu.setReg 15 v) := by
  have hreach := Reachable.iterate (fun c => Reachable.single (hb _) (exec_bWord c))
    ((v - cpu.reg 15).toNat / 4) cpu
  have hdvd : (v - cpu.reg 15).toNat % 4 = 0 := by
    have hv := v.isLt
    have hpc := (cpu.reg 15).isLt
    rw [BitVec.toNat_sub]
    omega
  have hcount : BitVec.ofNat 32 ((v - cpu.reg 15).toNat / 4) * 4#32 = v - cpu.reg 15 := by
    have hlt := (v - cpu.reg 15).isLt
    refine BitVec.eq_of_toNat_eq ?_
    rw [BitVec.toNat_mul, BitVec.toNat_ofNat, BitVec.toNat_ofNat]
    omega
  rw [iterate_increase (by decide), hcount, BitVec.add_comm, BitVec.sub_add_cancel] at hreach
  exact hreach

end Pc

/-! ### The reachable states -/

theorem follows_of_reachable {A : CondInstr → Prop} {s t : CpuState}
    (h : Reachable CondInstr.exec A s t) : s.cpsr.Follows t.cpsr :=
  h.bound (P := fun u => s.cpsr.Follows u.cpsr)
    (fun _ _ _ _ hu hexec => hu.trans (exec_follows hexec)) (Or.inl rfl)

/-- **The states that machine words reach.** From any state, decoded and executed words reach
exactly the states whose status word is the same, or differs in the flags only and does not
have both N and Z. -/
theorem reachable_iff (s t : CpuState) :
    Reachable CondInstr.exec CondInstr.Encoded s t ↔ s.cpsr.Follows t.cpsr := by
  constructor
  · exact follows_of_reachable
  · intro h
    have hflags := reach_cpsr (dataProcInstr_encoded (addWord 1)) (dataProcInstr_encoded doubleWord)
      (dataProcInstr_encoded cmpWord) s h
    refine hflags.trans ?_
    have hregs := Reachable.fold (f := fun c k => c.setReg k (t.reg k)) (List.range 16)
      { s with cpsr := t.cpsr } fun k hk c =>
        reach_setReg (dataProcInstr_encoded (addWord 1)) (List.mem_range.mp hk)
          (dataProcInstr_encoded (addWord k)) c (t.reg k)
    have hend : (List.range 16).foldl (fun c k => c.setReg k (t.reg k))
        { s with cpsr := t.cpsr } = t := foldl_setReg_eq rfl
    rw [hend] at hregs
    exact hregs

theorem addWord_keepsPc {k : ℕ} (hk : k < 15) : (dataProcInstr (addWord k)).KeepsPc := by
  have hwrites : ∀ k : Fin 15, Loc.reg 15 ∉ (decode (addWord k) 0).1.writes := by decide
  exact ⟨dataProcInstr_encoded _, hwrites ⟨k, hk⟩⟩

/-- **The program counters that branches reach.** Where no data-processing word writes R15, R15
becomes exactly the aligned addresses and those as far from alignment as it was. -/
theorem reachable_pc_iff (s t : CpuState) :
    Reachable CondInstr.exec CondInstr.KeepsPc s t ↔ s.cpsr.Follows t.cpsr ∧
      ((t.reg 15).toNat % 4 = 0 ∨ (t.reg 15).toNat % 4 = (s.reg 15).toNat % 4) := by
  constructor
  · intro h
    refine ⟨follows_of_reachable h, ?_⟩
    refine h.bound (P := fun u => (u.reg 15).toNat % 4 = 0 ∨
      (u.reg 15).toNat % 4 = (s.reg 15).toNat % 4) (fun u i v hi hu hexec => ?_) (Or.inr rfl)
    rcases exec_pc_mod hi hexec with hv | hv
    · exact Or.inl hv
    · rwa [hv]
  · rintro ⟨hcpsr, hpc⟩
    have hadd : ∀ k, k < 15 → (dataProcInstr (addWord k)).KeepsPc := fun k => addWord_keepsPc
    have hinc := hadd 1 (by decide)
    have hdouble : Loc.reg 15 ∉ (decode doubleWord 0).1.writes := by decide
    have hcmp : Loc.reg 15 ∉ (decode cmpWord 0).1.writes := by decide
    have hflags := reach_cpsr hinc ⟨dataProcInstr_encoded doubleWord, hdouble⟩
      ⟨dataProcInstr_encoded cmpWord, hcmp⟩ s hcpsr
    have hset : Reachable CondInstr.exec CondInstr.KeepsPc { s with cpsr := t.cpsr }
        (CpuState.setReg { s with cpsr := t.cpsr } 15 (t.reg 15)) := by
      rcases hpc with hpc | hpc
      · exact reach_pc_aligned hinc (fun z => ⟨⟨_, 0, rfl⟩, trivial⟩) _ hpc
      · exact reach_pc_mod (fun z => ⟨⟨_, 0, rfl⟩, trivial⟩) _ hpc
    have hregs := Reachable.fold (f := fun c k => c.setReg k (t.reg k)) (List.range 15)
      (CpuState.setReg { s with cpsr := t.cpsr } 15 (t.reg 15)) fun k hk c =>
        reach_setReg hinc ((List.mem_range.mp hk).trans (by decide))
          (hadd k (List.mem_range.mp hk)) c (t.reg k)
    have hend : (List.range 15).foldl (fun c k => c.setReg k (t.reg k))
        (CpuState.setReg { s with cpsr := t.cpsr } 15 (t.reg 15)) = t := by
      refine CpuState.eq_of_reg (fun i hi => ?_) ?_
      · rw [reg_foldl_setReg t 15 _ i (by decide)]
        split_ifs with hlt
        · rfl
        · rw [show i = 15 by omega, CpuState.reg_setReg_self (by decide)]
      · rw [cpsr_foldl_setReg, CpuState.setReg_cpsr]
    rw [hend] at hregs
    exact (hflags.trans hset).trans hregs

end SimpleArm
