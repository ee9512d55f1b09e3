/-
# Runs of `main`

What the loop of `main` does in every run, whatever the decoder and the
executor are. The loop's test is what keeps `fetch` going: an iteration goes
on only with `FAULT_NONE` in `fault_out`, so that the assertion of the next
`fetch` holds (`exists_eq_of_steps`), and since no fetch reads outside the memory
the only assertions that can stop `main` are those of the functions it calls
(`main_aborts_iff`). A run that returns has ended with the error of an
instruction, with a halt or with a fault, and only the first is seen in the
returned value (`main_returns_iff`). And a run depends on the memory only
through the words that it fetches and what the executor looks at
(`main_unfetched`).
-/
import SimpleArm.MainLoop

namespace SimpleArm

open Loop History

/-! ### An iteration -/

section Iteration

variable {Inst : Type} (env : Env Inst)

/-- What an iteration at `m` decodes: the word fetched there, or the placeholder. -/
def decoded (m : MainState) : Except MainAbort (Inst × FaultOut) :=
  let exit := fetchExit m.mem (env.cpuGetPc m.cpu)
  env.decode exit.value (exit.faultOut env.faultNone)

/-- An iteration at `m` decodes and executes: the executor leaves the state `m'` and returns
`result`, and `faultOut` is what the decoder leaves in `fault_out`. -/
def Executes (m m' : MainState) (faultOut : FaultOut) (result : ExecResult) : Prop :=
  ∃ inst, decoded env m = .ok (inst, faultOut) ∧
    env.executeInstruction m inst = .ok (m', result)

/-- The decoder or the executor stops an iteration at `m`. -/
def CallAborts (m : MainState) (e : MainAbort) : Prop :=
  decoded env m = .error e ∨
    ∃ inst faultOut, decoded env m = .ok (inst, faultOut) ∧
      env.executeInstruction m inst = .error e

def MainState.setPc (m : MainState) (pc : Word) : MainState :=
  { m with cpu := env.cpuSetPc m.cpu pc }

/-- The endings of the loop, with the value that `main` returns and the state it leaves. -/
inductive Ending (m : MainState) (faultOut : FaultOut) (result : ExecResult) :
    ℤ → MainState → Prop
  /-- `if (result.error_code) return result.error_code` -/
  | error : result.errorCode ≠ 0 → Ending m faultOut result result.errorCode m
  /-- `if (result.should_halt) break` -/
  | halt : result.errorCode = 0 → result.shouldHalt ≠ 0 → Ending m faultOut result 0 m
  /-- the test of the loop -/
  | fault : result.errorCode = 0 → result.shouldHalt = 0 → faultOut ≠ env.faultNone →
      Ending m faultOut result 0 (m.setPc env result.nextPc)

variable {env} {m : MainState}

/-- With no fault pending an iteration is its decoder, its executor and the tests. -/
theorem iteration_eq : iteration env (m, env.faultNone) = do
    let (inst, faultOut) ← decoded env m
    let (m', result) ← env.executeInstruction m inst
    if result.errorCode ≠ 0 then return .inr (result.errorCode, m')
    if result.shouldHalt ≠ 0 then return .inr (0, m')
    let m' := m'.setPc env result.nextPc
    if faultOut = env.faultNone then return .inl (m', faultOut)
    return .inr (0, m') := by
  unfold iteration
  simp only [fetch_eq, Run.ok_bind]
  rfl

theorem iteration_eq_error_iff {e : MainAbort} :
    iteration env (m, env.faultNone) = .error e ↔ CallAborts env m e := by
  rw [iteration_eq]
  unfold CallAborts
  cases hd : decoded env m with
  | error e' => simp
  | ok out =>
    obtain ⟨inst, g⟩ := out
    cases he : env.executeInstruction m inst with
    | error e' => simp [he]
    | ok out' =>
      obtain ⟨m', result⟩ := out'
      by_cases herr : result.errorCode = 0
      · by_cases hhalt : result.shouldHalt = 0
        · by_cases hg : g = env.faultNone <;> simp [he, herr, hhalt, hg, pure, Except.pure]
        · simp [he, herr, hhalt, pure, Except.pure]
      · simp [he, herr, pure, Except.pure]

theorem iteration_eq_inr_iff {code : ℤ} {last : MainState} :
    iteration env (m, env.faultNone) = .ok (.inr (code, last)) ↔
      ∃ m' g result, Executes env m m' g result ∧ Ending env m' g result code last := by
  rw [iteration_eq]
  constructor
  · intro h
    obtain ⟨⟨inst, g⟩, hd, h⟩ := Run.bind_eq_ok.mp h
    obtain ⟨⟨m', result⟩, he, h⟩ := Run.bind_eq_ok.mp h
    refine ⟨m', g, result, ⟨inst, hd, he⟩, ?_⟩
    by_cases herr : result.errorCode = 0
    · by_cases hhalt : result.shouldHalt = 0
      · by_cases hg : g = env.faultNone
        · simp [herr, hhalt, hg, pure, Except.pure] at h
        · simp only [herr, hhalt, hg, ne_eq, not_true_eq_false, if_false] at h
          obtain ⟨rfl, rfl⟩ := Prod.mk.inj (Sum.inr.inj (Except.ok.inj h))
          exact Ending.fault herr hhalt hg
      · simp only [herr, hhalt, ne_eq, not_true_eq_false, not_false_eq_true, if_false,
          if_true] at h
        obtain ⟨rfl, rfl⟩ := Prod.mk.inj (Sum.inr.inj (Except.ok.inj h))
        exact Ending.halt herr hhalt
    · simp only [herr, ne_eq, not_false_eq_true, if_true] at h
      obtain ⟨rfl, rfl⟩ := Prod.mk.inj (Sum.inr.inj (Except.ok.inj h))
      exact Ending.error herr
  · rintro ⟨m', g, result, ⟨inst, hd, he⟩, hend⟩
    rw [hd, Run.ok_bind]
    simp only [he, Run.ok_bind]
    cases hend with
    | error herr => simp [herr, pure, Except.pure]
    | halt herr hhalt => simp [herr, hhalt, pure, Except.pure]
    | fault herr hhalt hg => simp [herr, hhalt, hg, pure, Except.pure]

theorem faultNone_of_iteration {s t : LoopState} (h : iteration env s = .ok (.inl t)) :
    t.2 = env.faultNone := by
  unfold iteration at h
  obtain ⟨exit, -, h⟩ := Run.bind_eq_ok.mp h
  obtain ⟨⟨inst, g⟩, -, h⟩ := Run.bind_eq_ok.mp h
  obtain ⟨⟨m', result⟩, -, h⟩ := Run.bind_eq_ok.mp h
  by_cases herr : result.errorCode = 0
  · by_cases hhalt : result.shouldHalt = 0
    · by_cases hg : g = env.faultNone
      · simp only [herr, hhalt, hg, ne_eq, not_true_eq_false, if_false, if_true] at h
        rw [← Sum.inl.inj (Except.ok.inj h)]
      · simp [herr, hhalt, hg, pure, Except.pure] at h
    · simp [herr, hhalt, pure, Except.pure] at h
  · simp [herr, pure, Except.pure] at h

end Iteration

/-! ### Runs -/

section Runs

variable {Inst : Type} {env : Env Inst} {m : MainState} {fuel : ℕ}

/-- **No fault is pending at a fetch.** -/
theorem exists_eq_of_steps {n : ℕ} {t : LoopState}
    (h : Steps (iteration env) n (m, env.faultNone) t) : ∃ m', t = (m', env.faultNone) := by
  have ht : t.2 = env.faultNone :=
    Steps.inv (P := fun s => s.2 = env.faultNone) (fun _ _ _ => faultNone_of_iteration) h rfl
  exact ⟨t.1, ht ▸ rfl⟩

/-- **What stops `main` at an assertion.** A run from a state without a fault stops exactly when
the decoder or the executor does, in an iteration that it reaches. The assertion of `fetch`
never fails, and `fetch` reads no word outside the memory. -/
theorem main_aborts_iff (env : Env Inst) (m : MainState) (fuel : ℕ) (e : MainAbort) :
    loop (iteration env) fuel (m, env.faultNone) = .error e ↔
      ∃ n m', n < fuel ∧ Steps (iteration env) n (m, env.faultNone) (m', env.faultNone) ∧
        CallAborts env m' e := by
  rw [loop_eq_error_iff]
  constructor
  · rintro ⟨n, t, hn, hsteps, he⟩
    obtain ⟨m', rfl⟩ := exists_eq_of_steps hsteps
    exact ⟨n, m', hn, hsteps, iteration_eq_error_iff.mp he⟩
  · rintro ⟨n, m', hn, hsteps, he⟩
    exact ⟨n, _, hn, hsteps, iteration_eq_error_iff.mpr he⟩

/-- **What `main` returns.** A run returns exactly when an iteration that it reaches executes and
ends: with the error code of the instruction, or with 0 after a halt or a fault. -/
theorem main_returns_iff (env : Env Inst) (m : MainState) (fuel : ℕ) (code : ℤ)
    (last : MainState) :
    loop (iteration env) fuel (m, env.faultNone) = .ok (some (code, last)) ↔
      ∃ n m', n < fuel ∧ Steps (iteration env) n (m, env.faultNone) (m', env.faultNone) ∧
        ∃ m'' g result, Executes env m' m'' g result ∧ Ending env m'' g result code last := by
  rw [loop_eq_ok_some_iff]
  constructor
  · rintro ⟨n, t, hn, hsteps, hend⟩
    obtain ⟨m', rfl⟩ := exists_eq_of_steps hsteps
    exact ⟨n, m', hn, hsteps, iteration_eq_inr_iff.mp hend⟩
  · rintro ⟨n, m', hn, hsteps, hend⟩
    exact ⟨n, _, hn, hsteps, iteration_eq_inr_iff.mpr hend⟩

/-! ### Memory that a run does not look at -/

/-- A fetch reads the number of bytes and the four bytes at its address. -/
theorem fetchExit_congr {m m' : ProgramMemory} {pc : Word} (hcount : m'.byteCount = m.byteCount)
    (hbyte : ∀ k, k < 4 → m'.byte (pc.toNat + k) = m.byte (pc.toNat + k)) :
    fetchExit m' pc = fetchExit m pc := by
  have hword : littleEndian m'.byte pc.toNat 4 = littleEndian m.byte pc.toNat 4 := by
    unfold littleEndian
    rw [List.map_congr_left fun k hk => hbyte k (List.mem_range.mp hk)]
  unfold fetchExit
  rw [hcount, hword]

/-- Whether a fetch faults is decided by the number of bytes alone. -/
theorem fetchExit_congr_of_faults {m m' : ProgramMemory} {pc : Word}
    (hcount : m'.byteCount = m.byteCount) (hfault : (fetchExit m pc).faults = true) :
    fetchExit m' pc = fetchExit m pc := by
  unfold fetchExit at hfault ⊢
  rw [hcount]
  split_ifs at hfault ⊢
  · rfl
  · rfl
  · cases hfault

/-- States that differ only in the bytes at the addresses `A`. -/
structure SameBut (A : Set ℕ) (m m' : MainState) : Prop where
  cpu : m'.cpu = m.cpu
  byteCount : m'.mem.byteCount = m.mem.byteCount
  byte : ∀ a, a ∉ A → m'.mem.byte a = m.mem.byte a

/-- An iteration at `m` does not look at the bytes at the addresses `A`: its word has none of
them, and on a state that differs only there the executor does alike. -/
structure Overlooks (env : Env Inst) (A : Set ℕ) (m : MainState) : Prop where
  fetch : ∀ word, fetchExit m.mem (env.cpuGetPc m.cpu) = .word word →
    ∀ k, k < 4 → (env.cpuGetPc m.cpu).toNat + k ∉ A
  execute : ∀ inst faultOut m', decoded env m = .ok (inst, faultOut) → SameBut A m m' →
    Alike (fun p q => SameBut A p.1 q.1 ∧ q.2 = p.2) (env.executeInstruction m inst)
      (env.executeInstruction m' inst)

theorem Overlooks.fetchExit_eq {A : Set ℕ} {m m' : MainState} (h : Overlooks env A m)
    (hm : SameBut A m m') :
    fetchExit m'.mem (env.cpuGetPc m'.cpu) = fetchExit m.mem (env.cpuGetPc m.cpu) := by
  rw [hm.cpu]
  by_cases hfault : (fetchExit m.mem (env.cpuGetPc m.cpu)).faults = true
  · exact fetchExit_congr_of_faults hm.byteCount hfault
  · cases hexit : fetchExit m.mem (env.cpuGetPc m.cpu) with
    | word word =>
      rw [← hexit]
      exact fetchExit_congr hm.byteCount fun k hk => hm.byte _ (h.fetch word hexit k hk)
    | faultAlignment =>
      rw [hexit] at hfault
      exact absurd rfl hfault
    | faultOutOfBounds =>
      rw [hexit] at hfault
      exact absurd rfl hfault

theorem iteration_alike {A : Set ℕ} {m m' : MainState} (h : Overlooks env A m)
    (hm : SameBut A m m') :
    Alike (Sum.LiftRel (fun s t => SameBut A s.1 t.1 ∧ s.2 = env.faultNone ∧ t.2 = s.2)
        (fun r r' => r'.1 = r.1 ∧ SameBut A r.2 r'.2))
      (iteration env (m, env.faultNone)) (iteration env (m', env.faultNone)) := by
  have hdecoded : decoded env m' = decoded env m := by
    unfold decoded
    rw [h.fetchExit_eq hm]
  rw [iteration_eq, iteration_eq, hdecoded]
  rcases hd : decoded env m with e | ⟨inst, g⟩
  · exact .error e
  · simp only [Run.ok_bind]
    have hcall := h.execute inst g m' hd hm
    generalize env.executeInstruction m inst = r, env.executeInstruction m' inst = r' at hcall
    cases hcall with
    | error e => exact .error e
    | @ok p q hpq =>
      obtain ⟨p, result⟩ := p
      obtain ⟨q, result'⟩ := q
      obtain ⟨hpq, rfl⟩ := hpq
      have hset : SameBut A (p.setPc env result'.nextPc) (q.setPc env result'.nextPc) :=
        ⟨congrArg (env.cpuSetPc · result'.nextPc) hpq.cpu, hpq.byteCount, hpq.byte⟩
      simp only [Run.ok_bind]
      split_ifs with herr hhalt hg
      · exact .ok (.inr ⟨rfl, hpq⟩)
      · exact .ok (.inr ⟨rfl, hpq⟩)
      · exact .ok (.inl ⟨hset, hg, rfl⟩)
      · exact .ok (.inr ⟨rfl, hset⟩)

/-- **Memory that a run does not look at.** Writes that cover no byte that an iteration of the
run looks at change nothing in the run but those bytes. -/
theorem main_unfetched (env : Env Inst) {mem mem' : ProgramMemory} {ws : List MemWrite}
    (hws : Run.run MemWrite.apply mem ws = .ok mem') (cpu : CpuState) (fuel : ℕ)
    (hrun : ∀ n m, n < fuel →
      Steps (iteration env) n (⟨cpu, mem⟩, env.faultNone) (m, env.faultNone) →
        Overlooks env {a | ∃ w ∈ ws, w.Covers a} m) :
    Alike (Option.Rel fun r r' => r'.1 = r.1 ∧ SameBut {a | ∃ w ∈ ws, w.Covers a} r.2 r'.2)
      (loop (iteration env) fuel (⟨cpu, mem⟩, env.faultNone))
      (loop (iteration env) fuel (⟨cpu, mem'⟩, env.faultNone)) := by
  rcases writes_cases ws mem with ⟨e, -, herr⟩ | ⟨mem1, hok, hcount, hbyte⟩
  · rw [hws] at herr
    cases herr
  obtain rfl : mem' = mem1 := Except.ok.inj (hws.symm.trans hok)
  have hstart : SameBut {a | ∃ w ∈ ws, w.Covers a} ⟨cpu, mem⟩ ⟨cpu, mem'⟩ := by
    refine ⟨rfl, hcount, fun a ha => ?_⟩
    rw [hbyte, replay_apply, lastWrite_history_eq_none fun w hw hcovers => ha ⟨w, hw, hcovers⟩,
      Option.getD_none]
  refine loop_alike (R := fun s t => SameBut {a | ∃ w ∈ ws, w.Covers a} s.1 t.1 ∧
    s.2 = env.faultNone ∧ t.2 = s.2) ?_ ⟨hstart, rfl, rfl⟩
  rintro n ⟨m, f⟩ ⟨m', f'⟩ hn hsteps ⟨hm, hf, hf'⟩
  obtain rfl : f = env.faultNone := hf
  obtain rfl : f' = env.faultNone := hf'
  exact iteration_alike (hrun n m hn hsteps) hm

end Runs

/-- `ANDEQ r0, r0, r0` and a word behind it. -/
def twoWords : ProgramMemory := ⟨#[0#8, 0#8, 0#8, 0#8, 0#8, 0#8, 0#8, 0#8], 8#64, rfl⟩

theorem dataProcEnv_execute_alike (faultNone : FaultOut) {A : Set ℕ} {m m' : MainState}
    (inst : DecodedDataProcessing) (hm : SameBut A m m') :
    Alike (fun p q => SameBut A p.1 q.1 ∧ q.2 = p.2)
      ((dataProcEnv faultNone).executeInstruction m inst)
      ((dataProcEnv faultNone).executeInstruction m' inst) := by
  simp only [dataProcEnv, hm.cpu]
  cases dataProcOp m.cpu inst faultNone with
  | error e => exact .error (MainAbort.call e)
  | ok out => exact .ok ⟨⟨rfl, hm.byteCount, hm.byte⟩, rfl⟩

/-- The first iteration does not fetch the second word. -/
theorem main_unfetched_second_word :
    Alike (Option.Rel fun r r' => r'.1 = r.1 ∧
        SameBut {a | ∃ w ∈ [MemWrite.write8 4#32 7#32], w.Covers a} r.2 r'.2)
      (loop (iteration (dataProcEnv 1)) 1 (⟨constructCpuState, twoWords⟩, 1))
      (loop (iteration (dataProcEnv 1)) 1 (⟨constructCpuState,
        ⟨#[0#8, 0#8, 0#8, 0#8, 7#8, 0#8, 0#8, 0#8], 8#64, rfl⟩⟩, 1)) :=
  main_unfetched (dataProcEnv 1)
    (show Run.run MemWrite.apply twoWords [.write8 4#32 7#32] = .ok _ by decide)
    constructCpuState 1 (by
    intro n m hn hsteps
    obtain rfl : n = 0 := Nat.lt_one_iff.mp hn
    cases hsteps
    refine ⟨fun word _ k hk => ?_, fun inst _ m' _ hm => dataProcEnv_execute_alike 1 inst hm⟩
    rintro ⟨w, hw, hcovers⟩
    obtain rfl := List.mem_singleton.mp hw
    have hle : 4 ≤ 0 + k := hcovers.1
    omega)

end SimpleArm
