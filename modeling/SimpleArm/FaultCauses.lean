/-
# Which cause a fault code names

`fetch` and `data_proc_op` write to one variable, with enumerators of three
enumerations: `FAULT_ALIGNMENT` of `FaultCodeFetch`, `FAULT_OUT_OF_BOUNDS` of
`FaultCodeExecute`, and two of `ErrorCode`. The first two are the first
enumerators of theirs, so both are 0: a misaligned fetch and one out of
bounds leave the same value, and every other two causes are told apart
(`faultsIdentify_iff`).
-/
import SimpleArm.Fetch
import SimpleArm.IndexChecks

namespace SimpleArm

/-- What goes wrong in a call. -/
inductive FaultCause
  | misaligned
  | outOfBounds
  | registerIndex
  | pcOperand
deriving DecidableEq, Repr

def FaultCause.code : FaultCause → FaultOut
  | misaligned => faultAlignment
  | outOfBounds => faultOutOfBounds
  | registerIndex => ErrorCode.errorInvalidRegisterIndex.value
  | pcOperand => ErrorCode.warningPcUsedAsOperand.value

/-- A call of `fetch` with no fault pending, or of `data_proc_op`. -/
inductive FaultRun
  | fetch (mem : ProgramMemory) (pc : Word)
  | dataProc (cpu : CpuState) (inst : DecodedDataProcessing) (faultOut : FaultOut)

namespace FaultRun

variable (faultNone : FaultOut)

/-- The call fails for this cause. An index that is no register is an error, and comes before
the warning of the program counter. -/
def FailsFor : FaultRun → FaultCause → Prop
  | fetch _ pc, .misaligned => pc.toNat % 4 ≠ 0
  | fetch mem pc, .outOfBounds => pc.toNat % 4 = 0 ∧ mem.byteCount.toNat < pc.toNat + 4
  | dataProc _ inst _, .registerIndex => HasInvalidIndex inst
  | dataProc _ inst _, .pcOperand => UsesPc inst ∧ ¬ HasInvalidIndex inst
  | _, _ => False

/-- The value that the call finds in `*fault_out`. -/
def before : FaultRun → FaultOut
  | fetch _ _ => faultNone
  | dataProc _ _ faultOut => faultOut

/-- The value that the call leaves in `*fault_out`, if it returns. -/
def left : FaultRun → Option FaultOut
  | fetch mem pc =>
    match SimpleArm.fetch faultNone mem pc faultNone with
    | .ok exit => some (exit.faultOut faultNone)
    | .error _ => none
  | dataProc cpu inst faultOut =>
    match dataProcOp cpu inst faultOut with
    | .ok out => some out.faultOut
    | .error _ => none

/-- The values that the call writes to `*fault_out`, oldest first. -/
def writes : FaultRun → List FaultOut
  | fetch mem pc =>
    match SimpleArm.fetch faultNone mem pc faultNone with
    | .ok .faultAlignment => [faultAlignment]
    | .ok .faultOutOfBounds => [faultOutOfBounds]
    | _ => []
  | dataProc _ inst _ => (faultWrites inst).map ErrorCode.value

/-- No error that the call has written is replaced by the warning. -/
def KeepsErrors (r : FaultRun) : Prop :=
  (r.writes faultNone).Pairwise fun v v' =>
    v' = ErrorCode.warningPcUsedAsOperand.value → v = ErrorCode.warningPcUsedAsOperand.value

/-- One call is a misaligned fetch, the other a fetch out of bounds. -/
def MixedFetches (r r' : FaultRun) : Prop :=
  (r.FailsFor .misaligned ∧ r'.FailsFor .outOfBounds) ∨
    (r.FailsFor .outOfBounds ∧ r'.FailsFor .misaligned)

end FaultRun

/-- Two calls that fail for different causes leave different values, and neither replaces an
error by the warning. -/
structure FaultsIdentify (faultNone : FaultOut) (r r' : FaultRun) : Prop where
  distinct : ∀ c c' v v', r.FailsFor c → r'.FailsFor c' → c ≠ c' →
    r.left faultNone = some v → r'.left faultNone = some v' → v ≠ v'
  keeps : r.KeepsErrors faultNone ∧ r'.KeepsErrors faultNone

/-! ### What a failing call leaves -/

section Runs

variable {faultNone : FaultOut}

theorem FaultRun.keepsErrors (r : FaultRun) : r.KeepsErrors faultNone := by
  unfold FaultRun.KeepsErrors
  cases r with
  | fetch mem pc =>
    rw [FaultRun.writes, fetch_eq]
    cases fetchExit mem pc with
    | faultAlignment => exact List.pairwise_singleton _ _
    | faultOutOfBounds => exact List.pairwise_singleton _ _
    | word v => exact List.Pairwise.nil
  | dataProc cpu inst f =>
    have hwarn : ∀ c : ErrorCode, c.value = ErrorCode.warningPcUsedAsOperand.value →
        c = .warningPcUsedAsOperand := by
      intro c hc
      cases c <;> first | rfl | exact absurd hc (by decide)
    rw [FaultRun.writes, List.pairwise_map]
    refine (faultWrites_pairwise inst).imp fun hcd hd => ?_
    rw [hcd (hwarn _ hd)]

theorem FaultRun.left_eq {r : FaultRun} {v : FaultOut} (h : r.left faultNone = some v) :
    v = (r.writes faultNone).getLastD (r.before faultNone) := by
  cases r with
  | fetch mem pc =>
    rw [FaultRun.left, fetch_eq] at h
    rw [FaultRun.writes, fetch_eq, ← Option.some.inj h]
    cases fetchExit mem pc <;> rfl
  | dataProc cpu inst f =>
    rw [FaultRun.left] at h
    cases ho : dataProcOp cpu inst f with
    | error e =>
      rw [ho] at h
      cases h
    | ok out =>
      rw [ho] at h
      rw [← Option.some.inj h, dataProcOp_faultOut ho, FaultRun.writes, FaultRun.before,
        List.getLastD_eq_getLast?, List.getLast?_map]
      cases (faultWrites inst).getLast? <;> rfl

/-- A call that fails and returns has written the code of its cause last. -/
theorem FaultRun.writes_getLast? {r : FaultRun} {c : FaultCause} {v : FaultOut}
    (hc : r.FailsFor c) (h : r.left faultNone = some v) :
    (r.writes faultNone).getLast? = some c.code := by
  cases r with
  | fetch mem pc =>
    rw [FaultRun.writes, fetch_eq]
    cases c with
    | misaligned =>
      have hexit : fetchExit mem pc = .faultAlignment := if_pos hc
      rw [hexit]
      rfl
    | outOfBounds =>
      have hexit : fetchExit mem pc = .faultOutOfBounds :=
        (if_neg (not_not.mpr hc.1)).trans (if_pos hc.2)
      rw [hexit]
      rfl
    | registerIndex => cases hc
    | pcOperand => cases hc
  | dataProc cpu inst f =>
    rw [FaultRun.writes, List.getLast?_map]
    cases c with
    | misaligned => cases hc
    | outOfBounds => cases hc
    | registerIndex =>
      have hrej : RejectsIndex inst := by
        cases ho : dataProcOp cpu inst f with
        | error e =>
          rw [FaultRun.left, ho] at h
          cases h
        | ok out => exact rejectsIndex_of_ok cpu f ho hc
      obtain ⟨n, hn⟩ := faultWrites_of_rejects hrej
      rw [hn, List.getLast?_concat]
      rfl
    | pcOperand =>
      have hrej : ¬ RejectsIndex inst := fun h => hc.2 (Or.inr h)
      obtain ⟨n, hn, hpc⟩ := faultWrites_of_not_rejects hrej
      have hpos : n ≠ 0 := fun h0 => hpc.mp h0 hc.1
      rw [hn, List.getLast?_replicate, if_neg hpos]
      rfl

theorem FaultRun.left_eq_code {r : FaultRun} {c : FaultCause} {v : FaultOut} (hc : r.FailsFor c)
    (h : r.left faultNone = some v) : v = c.code := by
  rw [FaultRun.left_eq h, List.getLastD_eq_getLast?, FaultRun.writes_getLast? hc h]
  rfl

variable (faultNone) in
theorem FaultRun.left_of_fetch {r : FaultRun} {c : FaultCause} (hc : r.FailsFor c)
    (hfetch : c = .misaligned ∨ c = .outOfBounds) : r.left faultNone = some 0 := by
  have hcode : c.code = 0 := by
    rcases hfetch with rfl | rfl <;> rfl
  cases r with
  | fetch mem pc =>
    have hleft : (FaultRun.fetch mem pc).left faultNone =
        some ((fetchExit mem pc).faultOut faultNone) := by
      rw [FaultRun.left, fetch_eq]
    rw [hleft, FaultRun.left_eq_code hc hleft, hcode]
  | dataProc cpu inst f =>
    rcases hfetch with rfl | rfl <;> cases hc

/-- Two causes have one code only if they are the two of a fetch. -/
theorem FaultCause.code_inj {c c' : FaultCause} (h : c.code = c'.code) (hne : c ≠ c') :
    (c = .misaligned ∧ c' = .outOfBounds) ∨ (c = .outOfBounds ∧ c' = .misaligned) := by
  revert h hne
  cases c <;> cases c' <;> decide

end Runs

/-- **Which causes are told apart.** Two calls identify their causes exactly when they are not
a misaligned fetch and one out of bounds. -/
theorem faultsIdentify_iff (faultNone : FaultOut) (r r' : FaultRun) :
    FaultsIdentify faultNone r r' ↔ ¬ r.MixedFetches r' := by
  constructor
  · intro h hmixed
    rcases hmixed with ⟨hc, hc'⟩ | ⟨hc, hc'⟩
    · have hv := FaultRun.left_of_fetch faultNone hc (Or.inl rfl)
      have hv' := FaultRun.left_of_fetch faultNone hc' (Or.inr rfl)
      exact h.distinct _ _ 0 0 hc hc' (by decide) hv hv' rfl
    · have hv := FaultRun.left_of_fetch faultNone hc (Or.inr rfl)
      have hv' := FaultRun.left_of_fetch faultNone hc' (Or.inl rfl)
      exact h.distinct _ _ 0 0 hc hc' (by decide) hv hv' rfl
  · intro hmixed
    refine ⟨?_, r.keepsErrors, r'.keepsErrors⟩
    intro c c' v v' hc hc' hne hv hv' heq
    rw [FaultRun.left_eq_code hc hv, FaultRun.left_eq_code hc' hv'] at heq
    rcases FaultCause.code_inj heq hne with ⟨rfl, rfl⟩ | ⟨rfl, rfl⟩
    · exact hmixed (Or.inl ⟨hc, hc'⟩)
    · exact hmixed (Or.inr ⟨hc, hc'⟩)

/-- The fetches at 2, misaligned, and at 4, past the end, of a memory of four bytes. -/
theorem faultsIdentify_fourBytes :
    (FaultRun.fetch fourBytes 2#32).left 1 = some 0 ∧
      (FaultRun.fetch fourBytes 4#32).left 1 = some 0 ∧
      ¬ FaultsIdentify 1 (.fetch fourBytes 2#32) (.fetch fourBytes 4#32) := by
  have h2 : (FaultRun.fetch fourBytes 2#32).left 1 = some 0 := by decide
  have h4 : (FaultRun.fetch fourBytes 4#32).left 1 = some 0 := by decide
  refine ⟨h2, h4, fun h => ?_⟩
  have hmis : (FaultRun.fetch fourBytes 2#32).FailsFor .misaligned := by
    unfold FaultRun.FailsFor
    decide
  have hout : (FaultRun.fetch fourBytes 4#32).FailsFor .outOfBounds := by
    unfold FaultRun.FailsFor
    decide
  exact h.distinct .misaligned .outOfBounds 0 0 hmis hout (by decide) h2 h4 rfl

end SimpleArm
