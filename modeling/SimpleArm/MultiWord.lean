/-
# Multi-word arithmetic with the carry

The operations with carry are documented for numbers of several words: the
first limbs go through `add_op` or `sub_op`, the others through `adc_op` or
`sbc_op`, and the C flag connects them. A run of such calls is a digit chain
(`limbChain_eq_chain`), whose digit step is what one call does to a limb and
the flag.

* Addition: `adc_op` adds the carry to its second operand modulo `2^32`
  before it extracts the carry out, so the carry is lost at a limb
  `0xFFFFFFFF` that a carry enters, and only there (`adcStep_lossy`,
  `multiAdd_iff`).
* Subtraction: `sbc_op` subtracts the C flag from its second operand where
  the difference needs the borrow added, so every limb after the first is one
  too large, and only one limb comes out right (`multiSub_iff`).
-/
import SimpleArm.Lib.Limbs
import SimpleArm.Operations

namespace SimpleArm

open Limbs

/-! ### A chain of calls -/

/-- A call: the register it writes and its operands. -/
structure LimbCall where
  reg : RegisterIndexT
  operand1 : Word
  operand2 : Word
deriving DecidableEq, Repr

def LimbCall.pair (l : LimbCall) : Word × Word := (l.operand1, l.operand2)

/-- One call with `rises_cpsr = true`, and its result read right after. -/
def callLimb (op : BinOp) (cpu : CpuState) (l : LimbCall) : Except Abort (Word × CpuState) := do
  let cpu ← op cpu l.reg l.operand1 l.operand2 true
  let r ← cpuGetReg cpu l.reg.toNat
  return (r, cpu)

/-- The calls of `op` on the limbs in order, each from the state the one before left. -/
def limbChain (op : BinOp) : CpuState → List LimbCall → Except Abort (List Word × CpuState)
  | cpu, [] => .ok ([], cpu)
  | cpu, l :: ls => do
    let p ← callLimb op cpu l
    let q ← limbChain op p.2 ls
    return (p.1 :: q.1, q.2)

/-- `first` on limb 0 and `rest` on the others. -/
def multiWord (first rest : BinOp) (cpu : CpuState) (l : LimbCall) (ls : List LimbCall) :
    Except Abort (List Word × CpuState) := do
  let p ← callLimb first cpu l
  let q ← limbChain rest p.2 ls
  return (p.1 :: q.1, q.2)

/-- `op` does the digit step `f` with the C flag for its carry. -/
def Computes (op : BinOp) (f : Step 32) : Prop :=
  ∀ (cpu : CpuState) (l : LimbCall), l.reg.toNat < 16 → ∃ cpu',
    callLimb op cpu l = .ok ((f (cpu.cpsr.bit 29) l.operand1 l.operand2).1, cpu') ∧
      cpu'.cpsr.bit 29 = (f (cpu.cpsr.bit 29) l.operand1 l.operand2).2

theorem callLimb_store {op : BinOp} {cpu : CpuState} {l : LimbCall} {r : Word} {u : Cpsr → Cpsr}
    (hr : l.reg.toNat < 16) (hop : op cpu l.reg l.operand1 l.operand2 true =
      storeOp cpu l.reg r true u) :
    ∃ cpu', callLimb op cpu l = .ok (r, cpu') ∧ cpu'.cpsr = u cpu.cpsr := by
  refine ⟨{ cpu.setReg l.reg.toNat r with cpsr := u cpu.cpsr }, ?_, rfl⟩
  rw [callLimb, hop, storeOp_eq hr, Run.ok_bind]
  rw [cpuGetReg_eq hr]
  simp [CpuState.reg_setReg_self hr, pure, Except.pure]

theorem limbChain_eq_chain {op : BinOp} {f : Step 32} (h : Computes op f) :
    ∀ (ls : List LimbCall) (cpu : CpuState), (∀ k ∈ ls, k.reg.toNat < 16) → ∃ cpu',
      limbChain op cpu ls = .ok ((chain f (cpu.cpsr.bit 29) (ls.map LimbCall.pair)).1, cpu') ∧
        cpu'.cpsr.bit 29 = (chain f (cpu.cpsr.bit 29) (ls.map LimbCall.pair)).2
  | [], cpu, _ => ⟨cpu, rfl, rfl⟩
  | l :: ls, cpu, hreg => by
    obtain ⟨cpu1, h1, hc1⟩ := h cpu l (hreg l List.mem_cons_self)
    obtain ⟨cpu2, h2, hc2⟩ := limbChain_eq_chain h ls cpu1
      fun k hk => hreg k (List.mem_cons_of_mem _ hk)
    refine ⟨cpu2, ?_, ?_⟩
    · rw [limbChain, h1, Run.ok_bind, h2, hc1]
      rfl
    · rw [hc2, hc1]
      rfl

/-- The first call does its own step, and the chain goes on from its flag. -/
theorem multiWord_eq_chain {first rest : BinOp} {f g : Step 32} (hf : Computes first f)
    (hg : Computes rest g) (cpu : CpuState) (l : LimbCall) (ls : List LimbCall)
    (hreg : ∀ k ∈ l :: ls, k.reg.toNat < 16) : ∃ cpu',
      multiWord first rest cpu l ls =
        .ok ((f (cpu.cpsr.bit 29) l.operand1 l.operand2).1 ::
          (chain g (f (cpu.cpsr.bit 29) l.operand1 l.operand2).2 (ls.map LimbCall.pair)).1, cpu') ∧
        cpu'.cpsr.bit 29 =
          (chain g (f (cpu.cpsr.bit 29) l.operand1 l.operand2).2 (ls.map LimbCall.pair)).2 := by
  obtain ⟨cpu1, h1, hc1⟩ := hf cpu l (hreg l List.mem_cons_self)
  obtain ⟨cpu2, h2, hc2⟩ := limbChain_eq_chain hg ls cpu1
    fun k hk => hreg k (List.mem_cons_of_mem _ hk)
  refine ⟨cpu2, ?_, ?_⟩
  · rw [multiWord, h1, Run.ok_bind, h2, hc1]
    rfl
  · rw [hc2, hc1]

/-! ### The digit steps -/

def carryWord (c : Bool) : Word := if c then 1#32 else 0#32

theorem carryIn_eq (cpu : CpuState) : carryIn cpu = carryWord (cpu.cpsr.bit 29) := by
  rw [carryIn, cpsrGetCarry_eq, carryWord]

theorem toNat_carryWord (c : Bool) : (carryWord c).toNat = c.toNat := by
  cases c <;> rfl

/-- A limb of `adc_op`. -/
def adcStep : Step 32 := fun c x y => (x + (y + carryWord c), x.uaddOverflow (y + carryWord c))

/-- A limb of `sbc_op`. -/
def sbcStep : Step 32 := fun c x y => (x - (y - carryWord c), decide (y - carryWord c ≤ x))

/-- A limb of `add_op`, which reads no carry. -/
def addStep : Step 32 := fun _ x y => adcStep false x y

/-- A limb of `sub_op`, which reads no borrow. -/
def subStep : Step 32 := fun _ x y => (x - y, decide (y ≤ x))

theorem bit29_addFlags (a b : Word) (c : Cpsr) : (addFlags a b c).bit 29 = a.uaddOverflow b := by
  rw [bit_addFlags]
  rfl

theorem bit29_subFlags (a b : Word) (c : Cpsr) :
    (subFlags a b (a - b) c).bit 29 = decide (b ≤ a) := by
  rw [bit_subFlags]
  rfl

theorem computes_add : Computes addOp addStep := by
  intro cpu l hr
  obtain ⟨cpu', h, hc⟩ := callLimb_store hr (addOp_eq cpu l.reg l.operand1 l.operand2 true)
  refine ⟨cpu', ?_, ?_⟩
  · rw [h]
    simp [addStep, adcStep, carryWord]
  · rw [hc, bit29_addFlags]
    simp [addStep, adcStep, carryWord]

theorem computes_adc : Computes adcOp adcStep := by
  intro cpu l hr
  obtain ⟨cpu', h, hc⟩ := callLimb_store hr (adcOp_eq cpu l.reg l.operand1 l.operand2 true)
  rw [carryIn_eq] at h hc
  refine ⟨cpu', h, ?_⟩
  rw [hc, bit29_addFlags]
  rfl

theorem computes_sub : Computes subOp subStep := by
  intro cpu l hr
  obtain ⟨cpu', h, hc⟩ := callLimb_store hr
    (show subOp cpu l.reg l.operand1 l.operand2 true = storeOp _ _ _ true _ from rfl)
  refine ⟨cpu', h, ?_⟩
  rw [hc, bit29_subFlags]
  rfl

theorem computes_sbc : Computes sbcOp sbcStep := by
  intro cpu l hr
  obtain ⟨cpu', h, hc⟩ := callLimb_store hr
    (show sbcOp cpu l.reg l.operand1 l.operand2 true = storeOp _ _ _ true _ from rfl)
  rw [carryIn_eq] at h hc
  refine ⟨cpu', h, ?_⟩
  rw [hc, bit29_subFlags]
  rfl

/-! ### Addition -/

/-- The first operands' number. -/
def firstNumber (ls : List LimbCall) : ℕ := value (ls.map LimbCall.operand1)

/-- The second operands' number. -/
def secondNumber (ls : List LimbCall) : ℕ := value (ls.map LimbCall.operand2)

theorem sum_pairs (c : Bool) (ls : List LimbCall) :
    sum c (ls.map LimbCall.pair) = firstNumber ls + secondNumber ls + c.toNat := by
  simp only [sum, List.map_map, firstNumber, secondNumber]
  rfl

/-- `adc_op` loses the carry at the limb `0xFFFFFFFF`, where adding it wraps. -/
theorem adcStep_lossy : Lossy adcStep fun c _ y => c = true ∧ y = 0xFFFFFFFF#32 where
  exact c x y hb := by
    have hfold : (y + carryWord c).toNat = y.toNat + c.toNat := by
      have hy := y.isLt
      have hc := toNat_carryWord c
      rw [BitVec.toNat_add, hc]
      refine Nat.mod_eq_of_lt ?_
      by_contra hge
      have hc1 : c = true := by
        cases c
        · simp at hge
          omega
        · rfl
      subst hc1
      have hmax : y.toNat = 0xFFFFFFFF := by
        simp only [Bool.toNat_true] at hge
        omega
      exact hb ⟨rfl, BitVec.eq_of_toNat_eq hmax⟩
    have := Overflow.add_carry x (y + carryWord c)
    rw [hfold] at this
    simp only [adcStep]
    omega
  loss c x y hb := by
    obtain ⟨rfl, rfl⟩ := hb
    have hx := x.isLt
    have h0 : (0xFFFFFFFF#32 : Word) + carryWord true = 0#32 := by decide
    simp only [adcStep, h0, BitVec.uaddOverflow, BitVec.add_zero, BitVec.toNat_ofNat,
      Bool.toNat_true]
    have hno : ¬ 2 ^ 32 ≤ x.toNat + 0 % 2 ^ 32 := by omega
    simp only [ge_iff_le, hno, decide_false, Bool.toNat_false]
    omega

/-- The limbs and the last C flag are the sum of the two numbers. -/
def AddsExactly (cpu : CpuState) (l : LimbCall) (ls : List LimbCall) : Prop :=
  ∃ rs cpu', multiWord addOp adcOp cpu l ls = .ok (rs, cpu') ∧
    value rs = (firstNumber (l :: ls) + secondNumber (l :: ls)) % 2 ^ (32 * (l :: ls).length) ∧
    (cpsrGetCarry cpu'.cpsr = true ↔
      2 ^ (32 * (l :: ls).length) ≤ firstNumber (l :: ls) + secondNumber (l :: ls))

/-- The run is the chain of `adcStep` from no carry. -/
theorem addsExactly_iff_total {cpu : CpuState} {l : LimbCall} {ls : List LimbCall}
    (hreg : ∀ k ∈ l :: ls, k.reg.toNat < 16) : AddsExactly cpu l ls ↔
      total (chain adcStep false ((l :: ls).map LimbCall.pair)) =
        sum false ((l :: ls).map LimbCall.pair) := by
  obtain ⟨cpu', hrun, hcarry⟩ := multiWord_eq_chain computes_add computes_adc cpu l ls hreg
  have hlen := chain_length adcStep false ((l :: ls).map LimbCall.pair)
  have hs := sum_lt ((l :: ls).map LimbCall.pair)
  have hsum := sum_pairs false (l :: ls)
  rw [List.length_map] at hlen hs
  rw [← hlen] at hs
  have hiff := total_eq_iff (c := (chain adcStep false ((l :: ls).map LimbCall.pair)).2) hs
  rw [hlen, hsum, Bool.toNat_false, Nat.add_zero, ← pow_mul] at hiff
  rw [hsum, Bool.toNat_false, Nat.add_zero]
  refine Iff.trans ?_ hiff.symm
  have hbit : cpsrGetCarry cpu'.cpsr = (chain adcStep false ((l :: ls).map LimbCall.pair)).2 :=
    (cpsrGetCarry_eq _).trans hcarry
  rw [← hbit]
  constructor
  · rintro ⟨rs, cpu'', h, hv, hc⟩
    obtain ⟨rfl, rfl⟩ := Prod.mk.inj (Except.ok.inj (hrun.symm.trans h))
    exact ⟨hv, hc⟩
  · rintro ⟨hv, hc⟩
    exact ⟨_, cpu', hrun, hv, hc⟩

/-- **Multi-word addition.** The limbs and the last C flag are those of the sum exactly
when no carry enters a limb whose second operand is `0xFFFFFFFF`: at each such limb the
limbs below sum to less than its weight. -/
theorem multiAdd_iff (cpu : CpuState) (l : LimbCall) (ls : List LimbCall)
    (hreg : ∀ k ∈ l :: ls, k.reg.toNat < 16) : AddsExactly cpu l ls ↔
      ∀ i (hi : i < (l :: ls).length), (l :: ls)[i].operand2 = 0xFFFFFFFF#32 →
        firstNumber ((l :: ls).take i) + secondNumber ((l :: ls).take i) < 2 ^ (32 * i) := by
  rw [addsExactly_iff_total hreg, chain_exact_iff adcStep_lossy]
  have hcarry : ∀ i, carryInto false ((l :: ls).map LimbCall.pair) i = true ↔
      2 ^ (32 * i) ≤ firstNumber ((l :: ls).take i) + secondNumber ((l :: ls).take i) := fun i => by
    rw [carryInto, decide_eq_true_iff, ← List.map_take, sum_pairs, Bool.toNat_false, Nat.add_zero,
      ← pow_mul]
  constructor
  · intro h i hi hy
    by_contra hge
    refine h i (by simpa using hi) ⟨(hcarry i).mpr (Nat.not_lt.mp hge), ?_⟩
    rw [List.getElem_map]
    exact hy
  · rintro h i hi ⟨hc, hy⟩
    have hi' : i < (l :: ls).length := by simpa using hi
    rw [List.getElem_map] at hy
    exact absurd ((hcarry i).mp hc) (Nat.not_le.mpr (h i hi' hy))

/-- `0x2_FFFFFFFF + 0x3_00000001`: a carry enters the limb 3. -/
theorem multiAdd_two_limbs :
    AddsExactly constructCpuState ⟨0#8, 0xFFFFFFFF#32, 1#32⟩ [⟨1#8, 2#32, 3#32⟩] :=
  (multiAdd_iff constructCpuState ⟨0#8, 0xFFFFFFFF#32, 1#32⟩ [⟨1#8, 2#32, 3#32⟩]
    (by decide)).mpr (by decide)

/-- `0xFFFFFFFF + 0xFFFFFFFF_00000001`: a carry enters the limb `0xFFFFFFFF`. The sum is
`2^64`, and the C flag is clear. -/
theorem multiAdd_loses_carry :
    ¬ AddsExactly constructCpuState ⟨0#8, 0xFFFFFFFF#32, 1#32⟩ [⟨1#8, 0#32, 0xFFFFFFFF#32⟩] := by
  rintro ⟨rs, cpu', h, -, hc⟩
  have hrun : (multiWord addOp adcOp constructCpuState ⟨0#8, 0xFFFFFFFF#32, 1#32⟩
      [⟨1#8, 0#32, 0xFFFFFFFF#32⟩]).map (fun r => cpsrGetCarry r.2.cpsr) = .ok false := by
    decide
  rw [h] at hrun
  have hset := hc.mpr (by simp [firstNumber, secondNumber])
  exact absurd (hset.symm.trans (Except.ok.inj hrun)) (by decide)

/-! ### Subtraction -/

/-- The limbs and the last C flag are the difference of the two numbers. -/
def SubtractsExactly (cpu : CpuState) (l : LimbCall) (ls : List LimbCall) : Prop :=
  ∃ rs cpu', multiWord subOp sbcOp cpu l ls = .ok (rs, cpu') ∧
    (value rs : ℤ) =
      ((firstNumber (l :: ls) : ℤ) - secondNumber (l :: ls)) % 2 ^ (32 * (l :: ls).length) ∧
    (cpsrGetCarry cpu'.cpsr = true ↔ secondNumber (l :: ls) ≤ firstNumber (l :: ls))

/-- A limb of `sbc_op` modulo `2^32`: the carry is added where a borrow has to be
subtracted. -/
theorem sbcStep_digit (c : Bool) (x y : Word) :
    ∃ k : ℤ, ((sbcStep c x y).1.toNat : ℤ) = x.toNat - y.toNat + c.toNat + 2 ^ 32 * k := by
  have h1 := Overflow.sub_borrow x (y - carryWord c)
  have h2 := Overflow.sub_borrow y (carryWord c)
  rw [toNat_carryWord] at h2
  refine ⟨(x.usubOverflow (y - carryWord c)).toNat - (y.usubOverflow (carryWord c)).toNat, ?_⟩
  simp only [sbcStep]
  push_cast
  omega

theorem subStep_digit (c : Bool) (x y : Word) : ((subStep c x y).1.toNat : ℤ) =
    x.toNat - y.toNat + 2 ^ 32 * (1 - (subStep c x y).2.toNat) := by
  have h := Overflow.sub_borrow x y
  have hb : (x.usubOverflow y).toNat + (decide (y ≤ x)).toNat = 1 := by
    rw [BitVec.usubOverflow]
    by_cases hxy : y.toNat ≤ x.toNat
    · have hle : y ≤ x := hxy
      simp [hle, Nat.not_lt.mpr hxy]
    · have hle : ¬ y ≤ x := hxy
      simp [hle, Nat.lt_of_not_le hxy]
  simp only [subStep]
  omega

/-- The second limb is one too large, so two limbs are never right, whatever is above. -/
theorem second_limb_ne (c : Bool) (x y x' y' : Word) (r d d' : ℕ) :
    ((((subStep c x y).1.toNat + 2 ^ 32 * ((sbcStep (subStep c x y).2 x' y').1.toNat
        + 2 ^ 32 * r) : ℕ) : ℤ)) % 2 ^ 64 ≠
      (((x.toNat + 2 ^ 32 * (x'.toNat + 2 ^ 32 * d) : ℕ) : ℤ) -
        ((y.toNat + 2 ^ 32 * (y'.toNat + 2 ^ 32 * d') : ℕ) : ℤ)) % 2 ^ 64 := by
  obtain ⟨k, hk⟩ := sbcStep_digit (subStep c x y).2 x' y'
  have h0 := subStep_digit c x y
  push_cast
  omega

theorem subtractsExactly_one (cpu : CpuState) (l : LimbCall) (hreg : l.reg.toNat < 16) :
    SubtractsExactly cpu l [] := by
  obtain ⟨cpu', hrun, hc⟩ := multiWord_eq_chain computes_sub computes_sbc cpu l [] (by simpa)
  have h := subStep_digit (cpu.cpsr.bit 29) l.operand1 l.operand2
  have hr := (subStep (cpu.cpsr.bit 29) l.operand1 l.operand2).1.isLt
  refine ⟨_, cpu', hrun, ?_, ?_⟩
  · simp only [List.map_nil, chain, value_cons, value_nil, firstNumber, secondNumber, List.map_cons,
      List.length_cons, List.length_nil]
    omega
  · rw [cpsrGetCarry_eq, hc]
    simp [chain, subStep, firstNumber, secondNumber, BitVec.le_def]

/-- **Multi-word subtraction.** The limbs and the last C flag are those of the difference
exactly when there is one limb. -/
theorem multiSub_iff (cpu : CpuState) (l : LimbCall) (ls : List LimbCall)
    (hreg : ∀ k ∈ l :: ls, k.reg.toNat < 16) : SubtractsExactly cpu l ls ↔ ls = [] := by
  constructor
  · rintro ⟨rs, cpu', h, hv, -⟩
    obtain ⟨cpu'', hrun, -⟩ := multiWord_eq_chain computes_sub computes_sbc cpu l ls hreg
    obtain ⟨rfl, -⟩ := Prod.mk.inj (Except.ok.inj (hrun.symm.trans h))
    rcases ls with _ | ⟨m, ms⟩
    · rfl
    · exfalso
      have hdvd : (2 : ℤ) ^ 64 ∣ 2 ^ (32 * (l :: m :: ms).length) :=
        pow_dvd_pow 2 (by simp only [List.length_cons]; omega)
      have hmod := congrArg (fun v : ℤ => v % 2 ^ 64) hv
      simp only [Int.emod_emod_of_dvd _ hdvd, firstNumber, secondNumber, List.map_cons, value_cons,
        chain, LimbCall.pair] at hmod
      exact second_limb_ne _ _ _ _ _ _ _ _ hmod
  · rintro rfl
    exact subtractsExactly_one cpu l (hreg l List.mem_cons_self)

theorem multiSub_one_limb : SubtractsExactly constructCpuState ⟨0#8, 3#32, 5#32⟩ [] :=
  (multiSub_iff constructCpuState ⟨0#8, 3#32, 5#32⟩ [] (by decide)).mpr rfl

/-- `0 - 0` on two limbs: the limb 1 comes out 1. -/
theorem multiSub_zero_two_limbs :
    (multiWord subOp sbcOp constructCpuState ⟨0#8, 0#32, 0#32⟩ [⟨1#8, 0#32, 0#32⟩]).map
        Prod.fst = .ok [0#32, 1#32] ∧
      ¬ SubtractsExactly constructCpuState ⟨0#8, 0#32, 0#32⟩ [⟨1#8, 0#32, 0#32⟩] := by
  have hrun : (multiWord subOp sbcOp constructCpuState ⟨0#8, 0#32, 0#32⟩
      [⟨1#8, 0#32, 0#32⟩]).map Prod.fst = .ok [0#32, 1#32] := by
    decide
  refine ⟨hrun, ?_⟩
  rintro ⟨rs, cpu', h, hv, -⟩
  rw [h] at hrun
  obtain rfl : rs = [0#32, 1#32] := Except.ok.inj hrun
  exact absurd hv (by simp [firstNumber, secondNumber])

end SimpleArm
