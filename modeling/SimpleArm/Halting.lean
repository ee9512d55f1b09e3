/-
# Programs that halt

`halt_op` of `instructions/halt.h` sets `should_halt` in the result of an
instruction. Nothing in the repository calls it, so which instructions halt is
a parameter of the executor (`HaltsBy`). The loop of `main` leaves on
`should_halt` before it sets the program counter and before it looks at
`fault_out`. So a straight-line program ends at its first word that halts, with
0 and the program counter at that word, and what ends the programs of
`main_ends_iff` plays no part: neither the value of `FAULT_NONE`, nor the size of
the memory, nor a word behind the one that halts (`main_halts`).
-/
import SimpleArm.StraightLine

namespace SimpleArm

open Loop

def haltOp (result : ExecResult) : ExecResult := { result with shouldHalt := 1 }

/-- The words from the address `pc` on begin with these. -/
def WordsAt (mem : ProgramMemory) : Word → List Word → Prop
  | _, [] => True
  | pc, w :: ws => fetchExit mem pc = .word w ∧ WordsAt mem (pc + 4#32) ws

section Halting

variable {Inst : Type}

/-- The program counter can be set, and the decoder neither reads nor writes `fault_out`. Of
the instructions that it makes, one that does not halt leaves the memory as it is and goes on at
the next word, with no error and no halt; the result of one that halts has no error and has been
given to `halt_op`. -/
structure HaltsBy (env : Env Inst) (halts : Inst → Bool) : Prop where
  getPc_setPc : ∀ cpu pc, env.cpuGetPc (env.cpuSetPc cpu pc) = pc
  decode : ∀ w f, env.decode w f = (env.decode w env.faultNone).map fun p => (p.1, f)
  mem : ∀ m inst m' result, env.Decodes inst → halts inst = false →
    env.executeInstruction m inst = .ok (m', result) → m'.mem = m.mem
  next : ∀ m inst m' result, env.Decodes inst → halts inst = false →
    env.executeInstruction m inst = .ok (m', result) →
      result = ⟨env.cpuGetPc m.cpu + 4#32, 0, 0⟩
  halt : ∀ m inst m' result, env.Decodes inst → halts inst = true →
    env.executeInstruction m inst = .ok (m', result) → ∃ pc h, result = haltOp ⟨pc, h, 0⟩

/-- The word is decoded to an instruction that halts. -/
def WordHalts (env : Env Inst) (halts : Inst → Bool) (w : Word) : Prop :=
  ∃ inst f, env.decode w env.faultNone = .ok (inst, f) ∧ halts inst = true

/-- The execution of a word, without setting the program counter. -/
def executeWord (env : Env Inst) (m : MainState) (w : Word) : Except MainAbort MainState := do
  let (inst, _) ← env.decode w env.faultNone
  let (m', _) ← env.executeInstruction m inst
  return m'

variable {env : Env Inst} {halts : Inst → Bool} (henv : HaltsBy env halts) {mem : ProgramMemory}
  {cpu : CpuState} {w : Word}

include henv

theorem decoded_eq_of_word (hfetch : fetchExit mem (env.cpuGetPc cpu) = .word w) :
    decoded env ⟨cpu, mem⟩ = (env.decode w env.faultNone).map fun p => (p.1, env.faultNone) := by
  unfold decoded
  simp only [hfetch]
  exact henv.decode w env.faultNone

theorem iteration_of_not_halts (hfetch : fetchExit mem (env.cpuGetPc cpu) = .word w)
    (hw : ¬ WordHalts env halts w) : iteration env (⟨cpu, mem⟩, env.faultNone) =
      (wordStep env mem cpu w).map fun cpu' => .inl (⟨cpu', mem⟩, env.faultNone) := by
  rw [iteration_eq, decoded_eq_of_word henv hfetch]
  unfold wordStep
  cases hdecode : env.decode w env.faultNone with
  | error e => rfl
  | ok p =>
    obtain ⟨inst, f⟩ := p
    have hinst : halts inst = false :=
      Bool.eq_false_iff.mpr fun h => hw ⟨inst, f, hdecode, h⟩
    simp only [Except.map, Run.ok_bind]
    cases hexec : env.executeInstruction ⟨cpu, mem⟩ inst with
    | error e => rfl
    | ok out =>
      obtain ⟨⟨cpu', mem'⟩, result⟩ := out
      obtain rfl : mem' = mem := henv.mem _ _ _ _ ⟨w, f, hdecode⟩ hinst hexec
      rw [henv.next _ _ _ _ ⟨w, f, hdecode⟩ hinst hexec]
      simp [MainState.setPc, pure, Except.pure]

theorem iteration_of_halts (hfetch : fetchExit mem (env.cpuGetPc cpu) = .word w)
    (hw : WordHalts env halts w) : iteration env (⟨cpu, mem⟩, env.faultNone) =
      (executeWord env ⟨cpu, mem⟩ w).map fun m => .inr (0, m) := by
  obtain ⟨inst, f, hdecode, hinst⟩ := hw
  rw [iteration_eq, decoded_eq_of_word henv hfetch, executeWord, hdecode]
  simp only [Except.map, Run.ok_bind]
  cases hexec : env.executeInstruction ⟨cpu, mem⟩ inst with
  | error e => rfl
  | ok out =>
    obtain ⟨m, result⟩ := out
    obtain ⟨pc, h, rfl⟩ := henv.halt _ _ _ _ ⟨w, f, hdecode⟩ hinst hexec
    simp [haltOp, pure, Except.pure]

theorem wordStep_pc_of_not_halts {cpu' : CpuState} (hw : ¬ WordHalts env halts w)
    (h : wordStep env mem cpu w = .ok cpu') : env.cpuGetPc cpu' = env.cpuGetPc cpu + 4#32 := by
  refine wordStep_pc_of_next henv.getPc_setPc (fun inst f m result hdecode hexec => ?_) h
  have hinst : halts inst = false :=
    Bool.eq_false_iff.mpr fun h => hw ⟨inst, f, hdecode, h⟩
  rw [henv.next _ _ _ _ ⟨w, f, hdecode⟩ hinst hexec]

end Halting

/-- **`main` on a program that halts.** From a program counter at which the memory has words that
do not halt and then one that does, the loop runs the words in order, executes the one that
halts and returns 0, with the program counter not set any more. -/
theorem main_halts {Inst : Type} {env : Env Inst} {halts : Inst → Bool}
    (henv : HaltsBy env halts) (mem : ProgramMemory) (cpu : CpuState) (ws : List Word) (w : Word)
    (hmem : WordsAt mem (env.cpuGetPc cpu) (ws ++ [w]))
    (hws : ∀ v ∈ ws, ¬ WordHalts env halts v) (hw : WordHalts env halts w) (fuel : ℕ)
    (hfuel : ws.length < fuel) : loop (iteration env) fuel (⟨cpu, mem⟩, env.faultNone) =
      (Run.run (wordStep env mem) cpu ws >>= fun cpu' => executeWord env ⟨cpu', mem⟩ w).map
        fun m => some (0, m) := by
  induction ws generalizing cpu fuel with
  | nil =>
    obtain ⟨n, rfl⟩ := Nat.exists_eq_add_one_of_ne_zero (Nat.ne_zero_of_lt hfuel)
    rw [loop, iteration_of_halts henv hmem.1 hw, Run.run_nil, Run.ok_bind]
    cases executeWord env ⟨cpu, mem⟩ w <;> rfl
  | cons v ws ih =>
    obtain ⟨n, rfl⟩ := Nat.exists_eq_add_one_of_ne_zero (Nat.ne_zero_of_lt hfuel)
    obtain ⟨hv, hws⟩ := List.forall_mem_cons.mp hws
    rw [loop, iteration_of_not_halts henv hmem.1 hv, Run.run_cons]
    cases hstep : wordStep env mem cpu v with
    | error e => rfl
    | ok cpu' =>
      have hpc := wordStep_pc_of_not_halts henv hv hstep
      exact ih cpu' (hpc ▸ hmem.2) hws n (Nat.lt_of_succ_lt_succ hfuel)

/-! ### A word that halts -/

/-- Data-processing words, and one word that halts. -/
def haltingEnv (haltWord : Word) (faultNone : FaultOut) : Env DecodedDataProcessing where
  faultNone := faultNone
  cpuGetPc cpu := cpu.reg 15
  cpuSetPc cpu pc := cpu.setReg 15 pc
  decode w f := .ok (decode w f)
  executeInstruction m inst :=
    if inst.raw = haltWord then .ok (m, haltOp ⟨m.cpu.reg 15 + 4#32, 0, 0⟩)
    else (dataProcEnv faultNone).executeInstruction m inst

theorem haltingEnv_haltsBy (haltWord : Word) (faultNone : FaultOut) :
    HaltsBy (haltingEnv haltWord faultNone) fun inst => inst.raw = haltWord where
  getPc_setPc cpu pc := CpuState.reg_setReg_self (show 15 < 16 by decide) cpu pc
  decode _ _ := rfl
  mem m inst m' result hdec hinst h := by
    have hraw : inst.raw ≠ haltWord := of_decide_eq_false hinst
    simp only [haltingEnv, if_neg hraw] at h
    exact (dataProcEnv_runsDataProc faultNone).sequential.mem m inst m' result hdec h
  next m inst m' result hdec hinst h := by
    have hraw : inst.raw ≠ haltWord := of_decide_eq_false hinst
    simp only [haltingEnv, if_neg hraw] at h
    exact (dataProcEnv_runsDataProc faultNone).sequential.next m inst m' result hdec h
  halt m inst m' result _ hinst h := by
    have hraw : inst.raw = haltWord := of_decide_eq_true hinst
    simp only [haltingEnv, if_pos hraw] at h
    obtain ⟨-, rfl⟩ := Prod.mk.inj (Except.ok.inj h)
    exact ⟨_, _, rfl⟩

/-- `ANDEQ r0, r0, r0` and a word that halts. -/
def haltingMemory : ProgramMemory :=
  ⟨#[0#8, 0#8, 0#8, 0#8, 255#8, 255#8, 255#8, 255#8], 8#64, rfl⟩

/-- The word `0xFFFFFFFF` halts, with 0 for `FAULT_NONE`. -/
theorem main_halts_twoWords :
    loop (iteration (haltingEnv 0xFFFFFFFF#32 0)) 2 (⟨constructCpuState, haltingMemory⟩, 0) =
      (Run.run (wordStep (haltingEnv 0xFFFFFFFF#32 0) haltingMemory) constructCpuState [0#32] >>=
        fun cpu' => executeWord (haltingEnv 0xFFFFFFFF#32 0) ⟨cpu', haltingMemory⟩
          0xFFFFFFFF#32).map fun m => some (0, m) :=
  main_halts (haltingEnv_haltsBy 0xFFFFFFFF#32 0) haltingMemory constructCpuState [0#32]
    0xFFFFFFFF#32 ⟨by decide, by decide, trivial⟩
    (by
      intro v hv
      obtain rfl := List.mem_singleton.mp hv
      rintro ⟨inst, f, hdecode, hhalts⟩
      obtain ⟨rfl, -⟩ := Prod.mk.inj (Except.ok.inj hdecode)
      cases hhalts)
    ⟨(decode 0xFFFFFFFF#32 0).1, 0, rfl, rfl⟩ 2 (by decide)

end SimpleArm
