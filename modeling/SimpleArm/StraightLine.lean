/-
# Straight-line programs in the loop of `main`

A decoder that leaves `fault_out` alone and an executor that leaves the memory
alone and goes on at the next word make the loop of `main` walk through the
memory (`Sequential`). It is then the run over the words from the program
counter on, and one word more: the placeholder of the fetch past the end,
which is executed too (`main_sequential`). That the loop ends at all rests on
two things that no assertion checks: `FAULT_NONE` is not 0, the value of both
faults, and a fetch past the end can fail, which on a memory of `2^32` bytes or
more it cannot, because the program counter wraps (`main_ends_iff`).

Words that `mem_write32` stores are the words that are fetched, so where
`execute_instruction` runs the words through `data_proc_op` (`RunsDataProc`), a
program in the memory of `construct_memory` runs in order (`main_dataProc`).
-/
import Mathlib.Data.List.GetD
import SimpleArm.CondExec
import SimpleArm.MainRuns
import SimpleArm.MemoryWrites
import SimpleArm.Reachable

namespace SimpleArm

open Loop History

/-! ### The words of a memory -/

/-- The word whose lowest byte is at `a`. -/
def wordAt (mem : ProgramMemory) (a : ℕ) : Word := BitVec.ofNat 32 (littleEndian mem.byte a 4)

/-- The words from the address `pc` on, as many as fit; none from a misaligned address. -/
def wordsFrom (mem : ProgramMemory) (pc : Word) : List Word :=
  if pc.toNat % 4 = 0 then
    (List.range ((mem.byteCount.toNat - pc.toNat) / 4)).map fun k => wordAt mem (pc.toNat + 4 * k)
  else []

section Words

variable {mem : ProgramMemory} {pc : Word}

theorem wordsFrom_of_faults (h : (fetchExit mem pc).faults = true) : wordsFrom mem pc = [] := by
  unfold fetchExit at h
  unfold wordsFrom
  split_ifs at h with halign hlt
  · rw [if_neg halign]
  · have hnone : (mem.byteCount.toNat - pc.toNat) / 4 = 0 := by omega
    rw [if_pos (not_not.mp halign), hnone]
    rfl
  · cases h

theorem wordsFrom_of_word (hcount : mem.byteCount.toNat < 2 ^ 32) {w : Word}
    (h : fetchExit mem pc = .word w) : wordsFrom mem pc = w :: wordsFrom mem (pc + 4#32) := by
  unfold fetchExit at h
  split_ifs at h with halign hlt
  have halign := not_not.mp halign
  have hpc : (pc + 4#32).toNat = pc.toNat + 4 := by
    rw [BitVec.toNat_add, BitVec.toNat_ofNat]
    omega
  have hn : (mem.byteCount.toNat - pc.toNat) / 4 =
      (mem.byteCount.toNat - (pc.toNat + 4)) / 4 + 1 := by
    omega
  have hnext : (pc.toNat + 4) % 4 = 0 := by omega
  unfold wordsFrom
  rw [hpc, if_pos halign, if_pos hnext, hn, List.range_succ_eq_map, List.map_cons, List.map_map]
  congr 1
  · exact FetchExit.word.inj h
  · refine List.map_congr_left fun k _ => ?_
    rw [Function.comp_apply]
    congr 1
    omega

theorem fetchExit_cases (mem : ProgramMemory) (pc : Word) :
    (fetchExit mem pc).faults = true ∨ ∃ w, fetchExit mem pc = .word w ∧ pc.toNat % 4 = 0 := by
  unfold fetchExit
  split_ifs with halign hlt
  · exact Or.inl rfl
  · exact Or.inl rfl
  · exact Or.inr ⟨_, rfl, not_not.mp halign⟩

end Words

/-! ### Sequential machines -/

section Sequential

variable {Inst : Type}

/-- The decoder makes `inst` of some word. -/
def Env.Decodes (env : Env Inst) (inst : Inst) : Prop :=
  ∃ w f, env.decode w env.faultNone = .ok (inst, f)

/-- The program counter can be set, the decoder neither reads nor writes `fault_out`, and every
instruction that it makes leaves the memory as it is and goes on at the next word, with no
error and no halt. -/
structure Sequential (env : Env Inst) : Prop where
  getPc_setPc : ∀ cpu pc, env.cpuGetPc (env.cpuSetPc cpu pc) = pc
  decode : ∀ w f, env.decode w f = (env.decode w env.faultNone).map fun p => (p.1, f)
  mem : ∀ m inst m' result, env.Decodes inst →
    env.executeInstruction m inst = .ok (m', result) → m'.mem = m.mem
  next : ∀ m inst m' result, env.Decodes inst →
    env.executeInstruction m inst = .ok (m', result) →
      result = ⟨env.cpuGetPc m.cpu + 4#32, 0, 0⟩

/-- The step of a word, with the memory `mem`. -/
def wordStep (env : Env Inst) (mem : ProgramMemory) (cpu : CpuState) (w : Word) :
    Except MainAbort CpuState := do
  let (inst, _) ← env.decode w env.faultNone
  let (m, result) ← env.executeInstruction ⟨cpu, mem⟩ inst
  return env.cpuSetPc m.cpu result.nextPc

variable {env : Env Inst} {mem : ProgramMemory}

theorem wordStep_pc_of_next {cpu cpu' : CpuState} {pc w : Word}
    (hset : ∀ cpu pc, env.cpuGetPc (env.cpuSetPc cpu pc) = pc)
    (hnext : ∀ inst f m result, env.decode w env.faultNone = .ok (inst, f) →
      env.executeInstruction ⟨cpu, mem⟩ inst = .ok (m, result) → result.nextPc = pc)
    (h : wordStep env mem cpu w = .ok cpu') : env.cpuGetPc cpu' = pc := by
  obtain ⟨⟨inst, f⟩, hdecode, h⟩ := Run.bind_eq_ok.mp h
  obtain ⟨⟨m, result⟩, hexec, h⟩ := Run.bind_eq_ok.mp h
  obtain rfl := Except.ok.inj h
  rw [hset, hnext inst f m result hdecode hexec]

variable (hseq : Sequential env)

include hseq

theorem wordStep_pc {cpu cpu' : CpuState} {w : Word} (h : wordStep env mem cpu w = .ok cpu') :
    env.cpuGetPc cpu' = env.cpuGetPc cpu + 4#32 := by
  refine wordStep_pc_of_next hseq.getPc_setPc (fun inst f m result hdecode hexec => ?_) h
  rw [hseq.next _ _ _ _ ⟨w, f, hdecode⟩ hexec]

/-- An iteration is the step of its word. It ends the loop if it has a fault to report. -/
theorem iteration_eq_wordStep (cpu : CpuState) : iteration env (⟨cpu, mem⟩, env.faultNone) =
    (wordStep env mem cpu (fetchExit mem (env.cpuGetPc cpu)).value).map fun cpu' =>
      if (fetchExit mem (env.cpuGetPc cpu)).faultOut env.faultNone = env.faultNone then
        .inl (⟨cpu', mem⟩, env.faultNone)
      else .inr (0, ⟨cpu', mem⟩) := by
  rw [iteration_eq]
  unfold decoded wordStep
  simp only
  generalize fetchExit mem (env.cpuGetPc cpu) = exit
  rw [hseq.decode exit.value (exit.faultOut env.faultNone)]
  rcases hdecode : env.decode exit.value env.faultNone with e | ⟨inst, g⟩
  · rfl
  · have hdec : env.Decodes inst := ⟨exit.value, g, hdecode⟩
    simp only [Except.map, Run.ok_bind]
    cases hexec : env.executeInstruction ⟨cpu, mem⟩ inst with
    | error e => rfl
    | ok out =>
      obtain ⟨⟨cpu', mem'⟩, result⟩ := out
      obtain rfl : mem' = mem := hseq.mem _ _ _ _ hdec hexec
      rw [hseq.next _ _ _ _ hdec hexec]
      by_cases hf : exit.faultOut env.faultNone = env.faultNone
      · simp [hf, MainState.setPc, pure, Except.pure]
      · simp [hf, MainState.setPc, pure, Except.pure]

theorem iteration_of_faults (hne : env.faultNone ≠ 0) {cpu : CpuState}
    (h : (fetchExit mem (env.cpuGetPc cpu)).faults = true) :
    iteration env (⟨cpu, mem⟩, env.faultNone) =
      (wordStep env mem cpu 0#32).map fun cpu' => .inr (0, ⟨cpu', mem⟩) := by
  have hcode : (fetchExit mem (env.cpuGetPc cpu)).faultOut env.faultNone = 0 := by
    cases hexit : fetchExit mem (env.cpuGetPc cpu) with
    | word w =>
      rw [hexit] at h
      cases h
    | faultAlignment => rfl
    | faultOutOfBounds => rfl
  rw [iteration_eq_wordStep hseq, FetchExit.value_of_faults h, hcode]
  simp only [if_neg hne.symm]

theorem iteration_of_word {cpu : CpuState} {w : Word}
    (h : fetchExit mem (env.cpuGetPc cpu) = .word w) :
    iteration env (⟨cpu, mem⟩, env.faultNone) =
      (wordStep env mem cpu w).map fun cpu' => .inl (⟨cpu', mem⟩, env.faultNone) := by
  rw [iteration_eq_wordStep hseq, h]
  simp [FetchExit.value, FetchExit.faultOut]

/-- **The loop is a run over words.** -/
theorem loop_eq_run (mem : ProgramMemory) (hne : env.faultNone ≠ 0) : ∀ (fuel : ℕ) (cpu : CpuState),
    ((env.cpuGetPc cpu).toNat % 4 = 0 → mem.byteCount.toNat < 2 ^ 32) →
      (wordsFrom mem (env.cpuGetPc cpu)).length < fuel →
        loop (iteration env) fuel (⟨cpu, mem⟩, env.faultNone) =
          (Run.run (wordStep env mem) cpu (wordsFrom mem (env.cpuGetPc cpu) ++ [0#32])).map
            fun cpu' => some (0, ⟨cpu', mem⟩)
  | 0, _, _, hfuel => absurd hfuel (Nat.not_lt_zero _)
  | fuel + 1, cpu, hcount, hfuel => by
    rcases fetchExit_cases mem (env.cpuGetPc cpu) with hfaults | ⟨w, hw, halign⟩
    · rw [wordsFrom_of_faults hfaults, loop, iteration_of_faults hseq hne hfaults, List.nil_append,
        Run.run_singleton]
      cases wordStep env mem cpu 0#32 <;> rfl
    · rw [wordsFrom_of_word (hcount halign) hw] at hfuel ⊢
      rw [loop, iteration_of_word hseq hw, List.cons_append, Run.run_cons]
      cases hstep : wordStep env mem cpu w with
      | error e => rfl
      | ok cpu' =>
        have hpc := wordStep_pc hseq hstep
        rw [← hpc] at hfuel ⊢
        exact loop_eq_run mem hne fuel cpu' (fun _ => hcount halign) (Nat.lt_of_succ_lt_succ hfuel)

/-- An iteration never ends the loop when the value of a fault is `FAULT_NONE`. -/
theorem iteration_ne_inr_of_zero (hzero : env.faultNone = 0) (cpu : CpuState) (r : MainResult) :
    iteration env (⟨cpu, mem⟩, env.faultNone) ≠ .ok (.inr r) := by
  have hcode : (fetchExit mem (env.cpuGetPc cpu)).faultOut env.faultNone = env.faultNone := by
    cases fetchExit mem (env.cpuGetPc cpu) with
    | word w => rfl
    | faultAlignment => exact hzero.symm
    | faultOutOfBounds => exact hzero.symm
  intro h
  rw [iteration_eq_wordStep hseq, hcode] at h
  obtain ⟨cpu', -, h⟩ := Run.map_eq_ok.mp h
  rw [if_pos rfl] at h
  cases h

theorem aligned_of_steps {n : ℕ} {cpu : CpuState} {m : MainState}
    (halign : (env.cpuGetPc cpu).toNat % 4 = 0)
    (h : Steps (iteration env) n (⟨cpu, mem⟩, env.faultNone) (m, env.faultNone)) :
    m.mem = mem ∧ (env.cpuGetPc m.cpu).toNat % 4 = 0 := by
  have hinv : (m, env.faultNone).2 = env.faultNone ∧ m.mem = mem ∧
      (env.cpuGetPc m.cpu).toNat % 4 = 0 := by
    refine Steps.inv (P := fun s => s.2 = env.faultNone ∧ s.1.mem = mem ∧
      (env.cpuGetPc s.1.cpu).toNat % 4 = 0) ?_ h ⟨rfl, rfl, halign⟩
    rintro ⟨⟨c, mem1⟩, f⟩ ⟨⟨c', mem2⟩, f'⟩ ⟨rfl, hmem, hc⟩ hiter
    have hc : (env.cpuGetPc c).toNat % 4 = 0 := hc
    refine ⟨faultNone_of_iteration hiter, ?_⟩
    rw [iteration_eq_wordStep hseq] at hiter
    obtain ⟨c'', hstep, hc'⟩ := Run.map_eq_ok.mp hiter
    split_ifs at hc'
    obtain ⟨hm, -⟩ := Prod.mk.inj (Sum.inl.inj hc')
    obtain ⟨rfl, rfl⟩ := MainState.mk.inj hm
    refine ⟨hmem, ?_⟩
    show (env.cpuGetPc c'').toNat % 4 = 0
    rw [wordStep_pc hseq hstep, BitVec.toNat_add, BitVec.toNat_ofNat]
    omega
  exact hinv.2

/-- On a memory of `2^32` bytes or more an aligned program counter is always in the memory. -/
theorem iteration_ne_inr_of_count (hcount : 2 ^ 32 ≤ mem.byteCount.toNat) {cpu : CpuState}
    (halign : (env.cpuGetPc cpu).toNat % 4 = 0) (r : MainResult) :
    iteration env (⟨cpu, mem⟩, env.faultNone) ≠ .ok (.inr r) := by
  have hlt := (env.cpuGetPc cpu).isLt
  have hexit : fetchExit mem (env.cpuGetPc cpu) = .word (wordAt mem (env.cpuGetPc cpu).toNat) := by
    unfold fetchExit
    rw [if_neg (not_not.mpr halign), if_neg (by omega)]
    rfl
  intro h
  rw [iteration_of_word hseq hexit] at h
  obtain ⟨cpu', -, h⟩ := Run.map_eq_ok.mp h
  cases h

end Sequential

/-! ### Data-processing instructions -/

/-- What `main` calls runs data-processing instructions: the program counter is R15, `decode`
makes one of every word, and `execute_instruction` runs it through `data_proc_op`, with some
`fault_out` that it does not report, leaves the memory as it is and goes on at the next word. -/
structure RunsDataProc {Inst : Type} (env : Env Inst)
    (ofDataProcessing : DecodedDataProcessing → Inst) : Prop where
  getPc : ∀ cpu, env.cpuGetPc cpu = cpu.reg 15
  setPc : ∀ cpu pc, env.cpuSetPc cpu pc = cpu.setReg 15 pc
  decodes : ∀ w f, env.decode w f = .ok (ofDataProcessing (decode w f).1, (decode w f).2)
  executes : ∀ m inst, inst.Valid → ∃ f, env.executeInstruction m (ofDataProcessing inst) =
    match dataProcOp m.cpu inst f with
    | .ok out => .ok (⟨out.cpu, m.mem⟩, ⟨m.cpu.reg 15 + 4#32, 0, 0⟩)
    | .error e => .error (.call e)

namespace RunsDataProc

variable {Inst : Type} {env : Env Inst} {ofDataProcessing : DecodedDataProcessing → Inst}

theorem of_execute (henv : RunsDataProc env ofDataProcessing) {m m' : MainState} {inst : Inst}
    {result : ExecResult} (hdec : env.Decodes inst)
    (h : env.executeInstruction m inst = .ok (m', result)) :
    m'.mem = m.mem ∧ result = ⟨m.cpu.reg 15 + 4#32, 0, 0⟩ := by
  obtain ⟨w, g, hw⟩ := hdec
  rw [henv.decodes] at hw
  obtain ⟨rfl, -⟩ := Prod.mk.inj (Except.ok.inj hw)
  obtain ⟨f, hf⟩ := henv.executes m _ (decode_valid w env.faultNone)
  rw [hf] at h
  cases hexec : dataProcOp m.cpu (decode w env.faultNone).1 f with
  | error e =>
    rw [hexec] at h
    cases h
  | ok out =>
    rw [hexec] at h
    obtain ⟨rfl, rfl⟩ := Prod.mk.inj (Except.ok.inj h)
    exact ⟨rfl, rfl⟩

theorem sequential (henv : RunsDataProc env ofDataProcessing) : Sequential env where
  getPc_setPc cpu pc := by
    rw [henv.getPc, henv.setPc, CpuState.reg_setReg_self (by decide)]
  decode w f := by
    rw [henv.decodes, henv.decodes]
    rfl
  mem _ _ _ _ hdec h := (henv.of_execute hdec h).1
  next _ _ _ _ hdec h := by
    rw [(henv.of_execute hdec h).2, henv.getPc]

end RunsDataProc

theorem dataProcEnv_runsDataProc (faultNone : FaultOut) :
    RunsDataProc (dataProcEnv faultNone) id where
  getPc _ := rfl
  setPc _ _ := rfl
  decodes _ _ := rfl
  executes _ _ _ := ⟨faultNone, rfl⟩

/-! ### `main` -/

section Main

variable {Inst : Type} {env : Env Inst}

/-- **`main` on a straight-line program.** With a value for `FAULT_NONE` that is no fault, and
from a program counter that is misaligned or in a memory of less than `2^32` bytes, the loop
is the run over the words from the program counter on and the placeholder, and returns 0. -/
theorem main_sequential (hseq : Sequential env) (hne : env.faultNone ≠ 0) (mem : ProgramMemory)
    (cpu : CpuState)
    (hcount : (env.cpuGetPc cpu).toNat % 4 = 0 → mem.byteCount.toNat < 2 ^ 32) (fuel : ℕ)
    (hfuel : (wordsFrom mem (env.cpuGetPc cpu)).length < fuel) :
    loop (iteration env) fuel (⟨cpu, mem⟩, env.faultNone) =
      (Run.run (wordStep env mem) cpu (wordsFrom mem (env.cpuGetPc cpu) ++ [0#32])).map
        fun cpu' => some (0, ⟨cpu', mem⟩) :=
  loop_eq_run hseq mem hne fuel cpu hcount hfuel

/-- The walk through a memory of two words. -/
theorem main_sequential_twoWords :
    loop (iteration (dataProcEnv 1)) 3 (⟨constructCpuState, twoWords⟩, 1) =
      (Run.run (wordStep (dataProcEnv 1) twoWords) constructCpuState [0#32, 0#32, 0#32]).map
        fun cpu => some (0, ⟨cpu, twoWords⟩) :=
  main_sequential (dataProcEnv_runsDataProc 1).sequential (by decide) twoWords constructCpuState
    (fun _ => by decide) 3 (by decide)

/-- **When `main` ends on a straight-line program.** The loop returns exactly when `FAULT_NONE`
is no fault, the program counter is misaligned or in a memory of less than `2^32` bytes, and
no word stops the run. -/
theorem main_ends_iff (hseq : Sequential env) (mem : ProgramMemory) (cpu : CpuState) :
    (∃ fuel r, loop (iteration env) fuel (⟨cpu, mem⟩, env.faultNone) = .ok (some r)) ↔
      env.faultNone ≠ 0 ∧
        ((env.cpuGetPc cpu).toNat % 4 = 0 → mem.byteCount.toNat < 2 ^ 32) ∧
        ∃ cpu', Run.run (wordStep env mem) cpu (wordsFrom mem (env.cpuGetPc cpu) ++ [0#32]) =
          .ok cpu' := by
  constructor
  · rintro ⟨fuel, r, hloop⟩
    obtain ⟨n, t, -, hsteps, hend⟩ := loop_eq_ok_some_iff.mp hloop
    obtain ⟨⟨cpu', mem'⟩, rfl⟩ := exists_eq_of_steps hsteps
    have hne : env.faultNone ≠ 0 := fun h => iteration_ne_inr_of_zero hseq h cpu' r hend
    have hcount : (env.cpuGetPc cpu).toNat % 4 = 0 → mem.byteCount.toNat < 2 ^ 32 := by
      intro halign
      by_contra hge
      obtain ⟨hmem, halign'⟩ := aligned_of_steps hseq halign hsteps
      obtain rfl : mem' = mem := hmem
      exact iteration_ne_inr_of_count hseq (Nat.le_of_not_lt hge) halign' r hend
    refine ⟨hne, hcount, ?_⟩
    -- with more fuel the loop returns the same, and is the run
    have hmore := (loop_eq_some_iff hsteps).mpr hend
      (max (n + 1) ((wordsFrom mem (env.cpuGetPc cpu)).length + 1)) (by omega)
    rw [loop_eq_run hseq mem hne _ cpu hcount (by omega)] at hmore
    obtain ⟨cpu'', hrun, -⟩ := Run.map_eq_ok.mp hmore
    exact ⟨cpu'', hrun⟩
  · rintro ⟨hne, hcount, cpu', hrun⟩
    refine ⟨_, (0, ⟨cpu', mem⟩),
      (loop_eq_run hseq mem hne _ cpu hcount (Nat.lt_succ_self _)).trans ?_⟩
    rw [hrun]
    rfl

/-- The walk ends with 1 for `FAULT_NONE`. -/
theorem main_ends_twoWords :
    ∃ fuel r, loop (iteration (dataProcEnv 1)) fuel (⟨constructCpuState, twoWords⟩, 1) =
      .ok (some r) :=
  (main_ends_iff (dataProcEnv_runsDataProc 1).sequential twoWords constructCpuState).mpr
    ⟨by decide, fun _ => by decide, constructCpuState.setReg 15 12#32, by decide⟩

end Main

/-! ### Programs in memory -/

/-- The words of a program, stored from address 0 on. -/
def storeProgram (ws : List Word) : List MemWrite :=
  ws.zipIdx.map fun p => .write32 (BitVec.ofNat 32 (4 * p.2)) p.1

theorem storeProgram_concat (ws : List Word) (w : Word) : storeProgram (ws ++ [w]) =
    storeProgram ws ++ [.write32 (BitVec.ofNat 32 (4 * ws.length)) w] := by
  simp [storeProgram, List.zipIdx_append]

theorem replay_storeProgram {ws : List Word} (hlen : 4 * ws.length ≤ 2 ^ 32) (bytes : ℕ → Byte)
    (a : ℕ) : replay bytes (history (storeProgram ws)) a = if a / 4 < ws.length then
      BitVec.ofNat 8 ((ws.getD (a / 4) 0#32).toNat / 2 ^ (8 * (a % 4))) else bytes a := by
  induction ws using List.reverseRecOn with
  | nil => simp [storeProgram, history]
  | append_singleton ws w ih =>
    rw [List.length_append, List.length_singleton] at hlen
    have haddr : (BitVec.ofNat 32 (4 * ws.length)).toNat = 4 * ws.length := by
      rw [BitVec.toNat_ofNat]
      omega
    have hcovers : (MemWrite.write32 (BitVec.ofNat 32 (4 * ws.length)) w).Covers a ↔
        a / 4 = ws.length := by
      show (BitVec.ofNat 32 (4 * ws.length)).toNat ≤ a ∧
        a < (BitVec.ofNat 32 (4 * ws.length)).toNat + 4 ↔ _
      omega
    rw [storeProgram_concat, history, List.flatMap_append, replay_append, List.flatMap_singleton,
      MemWrite.replay_cells, List.length_append, List.length_singleton]
    by_cases ha : a / 4 = ws.length
    · have hlow : a - (BitVec.ofNat 32 (4 * ws.length)).toNat = a % 4 := by omega
      rw [if_pos (hcovers.mpr ha), if_pos (by omega), ha]
      show BitVec.ofNat 8 (w.toNat / 2 ^ (8 * (a - (BitVec.ofNat 32 (4 * ws.length)).toNat))) = _
      rw [hlow]
      simp
    · rw [if_neg (fun h => ha (hcovers.mp h)), ← history, ih (by omega)]
      by_cases hlt : a / 4 < ws.length
      · rw [if_pos hlt, if_pos (by omega), List.getD_append _ _ _ _ hlt]
      · rw [if_neg hlt, if_neg (by omega)]

theorem littleEndian_word {bytes : ℕ → Byte} {a : ℕ} {w : Word}
    (h : ∀ k, k < 4 → bytes (a + k) = BitVec.ofNat 8 (w.toNat / 2 ^ (8 * k))) :
    littleEndian bytes a 4 = w.toNat := by
  have hw := w.isLt
  show Limbs.value [bytes (a + 0), bytes (a + 1), bytes (a + 2), bytes (a + 3)] = _
  rw [h 0 (by decide), h 1 (by decide), h 2 (by decide), h 3 (by decide)]
  simp only [Limbs.value_cons, Limbs.value_nil, BitVec.toNat_ofNat]
  omega

theorem map_getD_range {α : Type} (l : List α) (d : α) {n : ℕ} (hn : l.length ≤ n) :
    (List.range n).map (fun k => l.getD k d) = l ++ List.replicate (n - l.length) d := by
  refine List.ext_getElem (by simp; omega) fun k hk _ => ?_
  rw [List.getElem_map, List.getElem_range, List.getElem_append]
  split_ifs with hlt
  · exact List.getD_eq_getElem l d hlt
  · rw [List.getElem_replicate]
    exact List.getD_eq_default l d (Nat.le_of_not_lt hlt)

/-- The memory of `construct_memory` with a program in it. -/
theorem exists_storeProgram {ws : List Word} (hlen : ws.length ≤ 256) :
    ∃ m, Run.run MemWrite.apply constructMemory (storeProgram ws) = .ok m ∧
      m.byteCount = constructMemory.byteCount ∧
      wordsFrom m 0#32 = ws ++ List.replicate (256 - ws.length) 0#32 := by
  have hcount : constructMemory.byteCount.toNat = 1024 := rfl
  have hpass : ∀ w ∈ storeProgram ws, w.PassesOn constructMemory.byteCount := by
    intro w hw
    obtain ⟨⟨v, i⟩, hi, rfl⟩ := List.mem_map.mp hw
    have hlt : i < ws.length := by simpa using List.snd_lt_of_mem_zipIdx hi
    have haddr : (BitVec.ofNat 32 (4 * i)).toNat = 4 * i := by
      rw [BitVec.toNat_ofNat]
      omega
    have halign : (BitVec.ofNat 32 (4 * i)).toNat % Width.word.size = 0 := by
      rw [haddr]
      exact Nat.mul_mod_right 4 i
    rw [MemWrite.passesOn_iff rfl]
    show asserts constructMemory (BitVec.ofNat 32 (4 * i)) .word = .ok ()
    rw [asserts_of_aligned (hcount ▸ by decide) halign, haddr, hcount]
    exact if_pos (show 4 * i + 4 ≤ 1024 by omega)
  obtain ⟨m, hm⟩ := exists_writes (storeProgram ws) rfl hpass
  obtain ⟨-, hn, hbyte⟩ := (writes_eq_ok_iff rfl).mp hm
  have hzero : ∀ a, constructMemory.byte a = 0#8 := by
    intro a
    simp only [ProgramMemory.byte, constructMemory, Array.getElem?_replicate]
    split_ifs <;> rfl
  have hword : ∀ k, wordAt m (0 + 4 * k) = ws.getD k 0#32 := by
    intro k
    have hlittle : littleEndian m.byte (0 + 4 * k) 4 = (ws.getD k 0#32).toNat := by
      refine littleEndian_word fun j hj => ?_
      have hdiv : (0 + 4 * k + j) / 4 = k := by omega
      have hmod : (0 + 4 * k + j) % 4 = j := by omega
      rw [hbyte, replay_storeProgram (by omega), hdiv, hmod, hzero]
      split_ifs with hlt
      · rfl
      · rw [List.getD_eq_default ws _ (Nat.le_of_not_lt hlt)]
        simp
    rw [wordAt, hlittle, BitVec.ofNat_toNat, BitVec.setWidth_eq]
  refine ⟨m, hm, hn, ?_⟩
  have hrange : (m.byteCount.toNat - (0#32 : Word).toNat) / 4 = 256 := by
    rw [hn]
    rfl
  have hstart : (0#32 : Word).toNat = 0 := rfl
  unfold wordsFrom
  rw [hrange, hstart, if_pos (Nat.zero_mod 4), ← map_getD_range ws 0#32 hlen]
  exact List.map_congr_left fun k _ => hword k

/-! ### Data-processing programs -/

/-- `data_proc_op` on a word, and the program counter of the next one. -/
def dataProcStep (cpu : CpuState) (w : Word) : Except MainAbort CpuState :=
  match dataProcOp cpu (decode w 0).1 0 with
  | .ok out => .ok (out.cpu.setReg 15 (cpu.reg 15 + 4#32))
  | .error e => .error (.call e)

/-- The word 0 is `ANDEQ r0, r0, r0`, which does nothing. -/
theorem decode_zero_harmless (f : FaultOut) : Harmless (decode 0#32 f).1 := by
  have hop : OpCode.ofValue (decode 0#32 0).1.op = some .opAnd := by decide
  have hself : KeepsSelf (decode 0#32 0).1 .opAnd := ⟨rfl, Or.inr (Or.inl ⟨rfl, Or.inl rfl⟩)⟩
  exact Or.inr (Or.inr ⟨decode_rn_lt 0#32 f, .opAnd, hop, hself, rfl⟩)

theorem dataProcStep_zero (cpu : CpuState) :
    dataProcStep cpu 0#32 = .ok (cpu.setReg 15 (cpu.reg 15 + 4#32)) := by
  have hexec : (dataProcOp cpu (decode 0#32 0).1 0).map DataProcResult.cpu = .ok cpu :=
    exec_of_harmless (decode_zero_harmless 0) cpu 0
  obtain ⟨out, ho, hcpu⟩ := Run.map_eq_ok.mp hexec
  unfold dataProcStep
  simp only [ho, hcpu]

theorem run_zeros (n : ℕ) (cpu : CpuState) :
    Run.run dataProcStep cpu (List.replicate n 0#32) =
      .ok (cpu.setReg 15 (cpu.reg 15 + BitVec.ofNat 32 (4 * n))) := by
  induction n generalizing cpu with
  | zero =>
    have hzero : cpu.reg 15 + BitVec.ofNat 32 (4 * 0) = cpu.reg 15 := BitVec.add_zero _
    rw [hzero, CpuState.setReg_reg]
    rfl
  | succ n ih =>
    have hpc : cpu.reg 15 + 4#32 + BitVec.ofNat 32 (4 * n) =
        cpu.reg 15 + BitVec.ofNat 32 (4 * (n + 1)) := by
      rw [BitVec.add_assoc, Nat.mul_add, Nat.add_comm (4 * n), BitVec.ofNat_add]
    rw [List.replicate_succ, Run.run_cons, dataProcStep_zero, Run.ok_bind, ih,
      CpuState.reg_setReg_self (by decide), CpuState.setReg_setReg (by decide), hpc]

theorem dataProcStep_pc {cpu cpu' : CpuState} {w : Word} (h : dataProcStep cpu w = .ok cpu') :
    cpu'.reg 15 = cpu.reg 15 + 4#32 := by
  unfold dataProcStep at h
  cases hexec : dataProcOp cpu (decode w 0).1 0 with
  | error e =>
    rw [hexec] at h
    cases h
  | ok out =>
    rw [hexec] at h
    obtain rfl := Except.ok.inj h
    exact CpuState.reg_setReg_self (show 15 < 16 by decide) _ _

theorem run_pc {ws : List Word} {cpu cpu' : CpuState}
    (h : Run.run dataProcStep cpu ws = .ok cpu') :
    cpu'.reg 15 = cpu.reg 15 + BitVec.ofNat 32 (4 * ws.length) := by
  induction ws generalizing cpu with
  | nil =>
    obtain rfl := Except.ok.inj h
    exact (BitVec.add_zero _).symm
  | cons w ws ih =>
    obtain ⟨u, hu, hrun⟩ := (Run.run_cons_eq_ok _).mp h
    rw [ih hrun, dataProcStep_pc hu, BitVec.add_assoc, List.length_cons, Nat.mul_add,
      Nat.add_comm (4 * ws.length), BitVec.ofNat_add]

namespace RunsDataProc

variable {Inst : Type} {env : Env Inst} {ofDataProcessing : DecodedDataProcessing → Inst}

/-- The step of a word is `data_proc_op`, whatever the memory and `fault_out`. -/
theorem wordStep_eq (henv : RunsDataProc env ofDataProcessing) (mem : ProgramMemory) :
    wordStep env mem = dataProcStep := by
  funext cpu w
  have hv := decode_valid w env.faultNone
  have hinst : (decode w 0).1 = (decode w env.faultNone).1 := rfl
  unfold wordStep dataProcStep
  rw [henv.decodes, Run.ok_bind, hinst]
  generalize (decode w env.faultNone).1 = inst at hv
  obtain ⟨f, hf⟩ := henv.executes ⟨cpu, mem⟩ inst hv
  obtain ⟨g, hg⟩ := dataProcOp_eq hv cpu f
  obtain ⟨g', hg'⟩ := dataProcOp_eq hv cpu 0
  simp only [hf, hg, hg']
  cases dataProcSwitch cpu inst (cpu.reg inst.rn.toNat) (operand2Value cpu inst) with
  | error e => rfl
  | ok cpu' => exact congrArg Except.ok (henv.setPc cpu' _)

end RunsDataProc

/-- **`main` on a data-processing program.** A program of up to 256 words that `mem_write32`
stores in the memory of `construct_memory` is run in order, word by word, by `data_proc_op`;
the zero words behind it and the placeholder do nothing, and `main` returns 0 with the program
counter one word past the memory. -/
theorem main_dataProc {Inst : Type} {env : Env Inst}
    {ofDataProcessing : DecodedDataProcessing → Inst} (henv : RunsDataProc env ofDataProcessing)
    (hne : env.faultNone ≠ 0) (ws : List Word) (hlen : ws.length ≤ 256) :
    ∃ mem, Run.run MemWrite.apply constructMemory (storeProgram ws) = .ok mem ∧
      ∀ fuel, 256 < fuel →
        loop (iteration env) fuel
            (⟨env.cpuSetPc constructCpuState initialPc, mem⟩, env.faultNone) =
          (Run.run dataProcStep startState ws).map fun cpu =>
            some (0, ⟨cpu.setReg 15 1028#32, mem⟩) := by
  obtain ⟨mem, hmem, hcount, hwords⟩ := exists_storeProgram hlen
  refine ⟨mem, hmem, fun fuel hfuel => ?_⟩
  have hzero : startState.reg 15 = 0#32 := by decide
  have hstart : env.cpuGetPc startState = 0#32 := (henv.getPc startState).trans hzero
  have hlength : (wordsFrom mem 0#32).length = 256 := by
    rw [hwords, List.length_append, List.length_replicate]
    omega
  have hloop := loop_eq_run henv.sequential mem hne fuel startState
    (fun _ => by rw [hcount]; decide) (by rw [hstart, hlength]; exact hfuel)
  have hzeros : List.replicate (256 - ws.length) 0#32 ++ [0#32] =
      List.replicate (256 - ws.length + 1) (0#32 : Word) := List.replicate_succ'.symm
  rw [hstart, hwords, List.append_assoc, hzeros, Run.run_append, henv.wordStep_eq] at hloop
  rw [henv.setPc]
  refine hloop.trans ?_
  cases hrun : Run.run dataProcStep startState ws with
  | error e => rfl
  | ok cpu =>
    have hpc : cpu.reg 15 + BitVec.ofNat 32 (4 * (256 - ws.length + 1)) = 1028#32 := by
      rw [run_pc hrun, hzero, BitVec.zero_add, ← BitVec.ofNat_add]
      congr 1
      omega
    rw [Run.ok_bind, run_zeros, hpc]
    rfl

/-- `ADDEQ r2, r1, r2`. -/
theorem main_dataProc_add :
    ∃ mem, Run.run MemWrite.apply constructMemory (storeProgram [0x00612002#32]) = .ok mem ∧
      ∀ fuel, 256 < fuel →
        loop (iteration (dataProcEnv 1)) fuel
            (⟨(dataProcEnv 1).cpuSetPc constructCpuState initialPc, mem⟩, 1) =
          (Run.run dataProcStep startState [0x00612002#32]).map fun cpu =>
            some (0, ⟨cpu.setReg 15 1028#32, mem⟩) :=
  main_dataProc (dataProcEnv_runsDataProc 1) (by decide) [0x00612002#32] (by decide)

end SimpleArm
