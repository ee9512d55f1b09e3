/-
# The loop of `main`

An iteration fetches at the program counter, decodes, executes and sets the
program counter to the `next_pc` of the result; only then does the loop's
test look at the fault code. The repository defines neither `FAULT_NONE` nor
the accessors of the program counter nor `execute_instruction`, and more than
one function could be the `decode` that `main` calls, so all of these are
fields of `Env`.

A fetch that faults returns the word 0, which is decoded and executed all the
same. The CPU survives exactly when that is idle (`PlaceholderIdle`,
`faulting_fetch_ends_iff`), and even then an instruction has been executed
(`faulting_fetch_never_intact`).
-/
import SimpleArm.DataProcessing
import SimpleArm.Fetch
import SimpleArm.Lib.Loop

namespace SimpleArm

open Loop

/-- `ExecResult`. The number of the error code is not 0 for an error. -/
structure ExecResult where
  nextPc : Word
  shouldHalt : ℤ
  errorCode : ℤ
deriving DecidableEq, Repr

/-- What the loop changes, besides `fault_out`. The array behind `memory` is a variable of the
file. -/
structure MainState where
  cpu : CpuState
  mem : ProgramMemory
deriving DecidableEq

/-- What `main` uses and the repository does not fix. `Inst` is `DecodedInst`. The executor may
read and write the memory; the decoder is given the word and `fault_out`. -/
structure Env (Inst : Type) where
  faultNone : FaultOut
  cpuGetPc : CpuState → Word
  cpuSetPc : CpuState → Word → CpuState
  decode : Word → FaultOut → Except MainAbort (Inst × FaultOut)
  executeInstruction : MainState → Inst → Except MainAbort (MainState × ExecResult)

/-- The state at the top of the loop, with `fault_out`. -/
abbrev LoopState := MainState × FaultOut

/-- The return value of `main`, and the state it leaves. -/
abbrev MainResult := ℤ × MainState

section

variable {Inst : Type} (env : Env Inst)

/-- The body of the loop, and its test. -/
def iteration (s : LoopState) : Except MainAbort (LoopState ⊕ MainResult) := do
  let pc := env.cpuGetPc s.1.cpu
  let exit ← fetch env.faultNone s.1.mem pc s.2
  let (inst, faultOut) ← env.decode exit.value (exit.faultOut s.2)
  let (m, result) ← env.executeInstruction s.1 inst
  if result.errorCode ≠ 0 then return .inr (result.errorCode, m)
  -- break
  if result.shouldHalt ≠ 0 then return .inr (0, m)
  let m := { m with cpu := env.cpuSetPc m.cpu result.nextPc }
  if faultOut = env.faultNone then return .inl (m, faultOut)
  return .inr (0, m)

/-! ### A faulting fetch -/

theorem FetchExit.value_of_faults {exit : FetchExit} (h : exit.faults = true) :
    exit.value = 0#32 := by
  cases exit with
  | faultAlignment => rfl
  | faultOutOfBounds => rfl
  | word v => cases h

/-- Decoding the word 0 with the fault `code` and executing it leaves the CPU of `m` as it is
and ends the loop: with an error or a halt, or at the loop's test. -/
def PlaceholderIdle (code : FaultOut) (m : MainState) : Prop :=
  ∃ inst f m' result, env.decode 0#32 code = .ok (inst, f) ∧
    env.executeInstruction m inst = .ok (m', result) ∧
    if result.errorCode ≠ 0 ∨ result.shouldHalt ≠ 0 then m'.cpu = m.cpu
    else env.cpuSetPc m'.cpu result.nextPc = m.cpu ∧ f ≠ env.faultNone

variable {env}

theorem iteration_end_iff {m m' : MainState} {f g : FaultOut} {exit : FetchExit} {inst : Inst}
    {result : ExecResult} (hfetch : fetch env.faultNone m.mem (env.cpuGetPc m.cpu) f = .ok exit)
    (hdecode : env.decode exit.value (exit.faultOut f) = .ok (inst, g))
    (hexec : env.executeInstruction m inst = .ok (m', result)) (last : CpuState) :
    (∃ code mem, iteration env (m, f) = .ok (.inr (code, ⟨last, mem⟩))) ↔
      if result.errorCode ≠ 0 ∨ result.shouldHalt ≠ 0 then m'.cpu = last
      else env.cpuSetPc m'.cpu result.nextPc = last ∧ g ≠ env.faultNone := by
  obtain ⟨cpu', mem'⟩ := m'
  unfold iteration
  simp only [hfetch, hdecode, hexec, Run.ok_bind]
  by_cases herr : result.errorCode = 0
  · by_cases hhalt : result.shouldHalt = 0
    · by_cases hg : g = env.faultNone
      · simp [herr, hhalt, hg, pure, Except.pure]
      · simp [herr, hhalt, hg, pure, Except.pure]
    · simp [herr, hhalt, pure, Except.pure]
  · simp [herr, pure, Except.pure]

theorem iteration_faults_iff {m : MainState} {f : FaultOut} {exit : FetchExit}
    (h : fetch env.faultNone m.mem (env.cpuGetPc m.cpu) f = .ok exit)
    (hfault : exit.faults = true) :
    (∃ code mem, iteration env (m, f) = .ok (.inr (code, ⟨m.cpu, mem⟩))) ↔
      PlaceholderIdle env (exit.faultOut f) m := by
  have hvalue := FetchExit.value_of_faults hfault
  constructor
  · rintro ⟨code, mem, hend⟩
    obtain ⟨exit', hfetch, hend'⟩ := Run.bind_eq_ok.mp (show (fetch _ _ _ _ >>= _) = _ from hend)
    obtain rfl : exit = exit' := Except.ok.inj (h.symm.trans hfetch)
    obtain ⟨⟨inst, g⟩, hdecode, hend''⟩ := Run.bind_eq_ok.mp hend'
    obtain ⟨⟨m', result⟩, hexec, -⟩ := Run.bind_eq_ok.mp hend''
    refine ⟨inst, g, m', result, hvalue ▸ hdecode, hexec, ?_⟩
    exact (iteration_end_iff h hdecode hexec m.cpu).mp ⟨code, mem, hend⟩
  · rintro ⟨inst, g, m', result, hdecode, hexec, hidle⟩
    rw [← hvalue] at hdecode
    exact (iteration_end_iff h hdecode hexec m.cpu).mpr hidle

/-- The loop ends in the iteration after `n` that went on, and leaves the CPU `cpu`. -/
def EndsWith (env : Env Inst) (n : ℕ) (start : LoopState) (cpu : CpuState) : Prop :=
  ∃ code mem, ∀ fuel, n < fuel → loop (iteration env) fuel start = .ok (some (code, ⟨cpu, mem⟩))

/-- In any run of the loop, the iteration whose fetch faults ends it with the CPU that the
fetch found exactly when decoding and executing the placeholder 0 there is idle. -/
theorem faulting_fetch_ends_iff {n : ℕ} {start : LoopState} {m : MainState} {f : FaultOut}
    {exit : FetchExit} (hrun : Steps (iteration env) n start (m, f))
    (hfetch : fetch env.faultNone m.mem (env.cpuGetPc m.cpu) f = .ok exit)
    (hfault : exit.faults = true) :
    EndsWith env n start m.cpu ↔ PlaceholderIdle env (exit.faultOut f) m := by
  rw [← iteration_faults_iff hfetch hfault]
  exact exists_congr fun code => exists_congr fun mem => loop_eq_some_iff hrun

/-- No instruction is executed in an iteration: what it does is the same with any executor. -/
def ExecutesNothing (env : Env Inst) (s : LoopState) : Prop :=
  ∀ exec, iteration { env with executeInstruction := exec } s = iteration env s

/-- The iteration after `n` that went on leaves the CPU that its fetch found: it ends the loop
there, and executes no instruction. -/
structure LeavesIntact (env : Env Inst) (n : ℕ) (start : LoopState) (s : LoopState) : Prop where
  ends : EndsWith env n start s.1.cpu
  executesNothing : ExecutesNothing env s

/-- The executor is called whenever the decoder returns. -/
theorem not_executesNothing {m : MainState} {f g : FaultOut} {exit : FetchExit} {inst : Inst}
    (hfetch : fetch env.faultNone m.mem (env.cpuGetPc m.cpu) f = .ok exit)
    (hdecode : env.decode exit.value (exit.faultOut f) = .ok (inst, g)) :
    ¬ ExecutesNothing env (m, f) := by
  intro h
  -- two executors that stop differently
  have hstop : ∀ e, iteration { env with executeInstruction := fun _ _ => .error e } (m, f) =
      .error e := by
    intro e
    unfold iteration
    simp only [hfetch, hdecode, Run.ok_bind]
    rfl
  have heq := (h fun _ _ => .error .faultPending).trans
    (h fun _ _ => .error (.call .registerIndex)).symm
  rw [hstop, hstop] at heq
  cases heq

/-- **A faulting fetch never leaves the machine intact.** In any run of the loop, whatever the
decoder and the executor are, an iteration whose fetch faults does not end the loop with the
CPU as it was and without executing an instruction: if the loop ends there at all, the
placeholder has been decoded and executed. -/
theorem faulting_fetch_never_intact {Inst : Type} (env : Env Inst) (n : ℕ) (start : LoopState)
    (m : MainState) (f : FaultOut) (exit : FetchExit)
    (hrun : Steps (iteration env) n start (m, f))
    (hfetch : fetch env.faultNone m.mem (env.cpuGetPc m.cpu) f = .ok exit)
    (hfault : exit.faults = true) : ¬ LeavesIntact env n start (m, f) := by
  rintro ⟨hends, hnothing⟩
  obtain ⟨inst, g, m', result, hdecode, -, -⟩ :=
    (faulting_fetch_ends_iff hrun hfetch hfault).mp hends
  rw [← FetchExit.value_of_faults hfault] at hdecode
  exact not_executesNothing hfetch hdecode hnothing

end

/-! ### A loop over data-processing words -/

/-- An instance: the program counter is R15, words run through `data_proc_op`, and the next one
follows. -/
def dataProcEnv (faultNone : FaultOut) : Env DecodedDataProcessing where
  faultNone := faultNone
  cpuGetPc cpu := cpu.reg 15
  cpuSetPc cpu pc := cpu.setReg 15 pc
  decode w f := .ok (decode w f)
  executeInstruction m inst :=
    match dataProcOp m.cpu inst faultNone with
    | .ok out => .ok (⟨out.cpu, m.mem⟩, ⟨m.cpu.reg 15 + 4#32, 0, 0⟩)
    | .error e => .error (.call e)

/-- The CPU at the end of the memory `fourBytes`. -/
def pastFourBytes : MainState := ⟨constructCpuState.setReg 15 4#32, fourBytes⟩

/-- The first fetch is out of bounds. -/
theorem faulting_fetch_never_intact_past_end :
    ¬ LeavesIntact (dataProcEnv 1) 0 (pastFourBytes, 1) (pastFourBytes, 1) :=
  faulting_fetch_never_intact (dataProcEnv 1) 0 (pastFourBytes, 1) pastFourBytes 1
    .faultOutOfBounds (Steps.refl _) (by decide) rfl

/-- The fetch at 4 is out of bounds; `ANDEQ r0, r0, r0`, the placeholder, is executed, and
the loop ends with the program counter advanced to 8. -/
theorem faulting_fetch_advances_pc :
    fetch 1 fourBytes 4#32 1 = .ok .faultOutOfBounds ∧
      (loop (iteration (dataProcEnv 1)) 1 (pastFourBytes, 1)).map
        (Option.map fun r => r.2.cpu.reg 15) = .ok (some 8#32) ∧
      ¬ LeavesIntact (dataProcEnv 1) 0 (pastFourBytes, 1) (pastFourBytes, 1) := by
  have hrun : (loop (iteration (dataProcEnv 1)) 1 (pastFourBytes, 1)).map
      (Option.map fun r => r.2.cpu.reg 15) = .ok (some 8#32) := by
    decide
  refine ⟨by decide, hrun, ?_⟩
  rintro ⟨⟨code, mem, hend⟩, -⟩
  rw [hend 1 (by decide)] at hrun
  have hpc : pastFourBytes.cpu.reg 15 = 8#32 := Option.some.inj (Except.ok.inj hrun)
  exact absurd hpc (by decide)

end SimpleArm
