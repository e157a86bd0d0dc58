import Difacto.Lib.Decimal
import Difacto.Solver.Scheduler
import Mathlib.Data.Nat.Basic

/-!
# Requests for checkpoints

`IterCmd`, `IterScheduler::LoadModel` and `SaveModel`, and `IterServer::ProcessRequest` with
`ModelName` of `solver/iter_solver.h`. The scheduler packs the iteration into the upper half of
a command word, next to the flags for loading and saving; a server unpacks it and makes the
name of its file. `int` has 32 bits and is a two's complement number.

## Main definitions

* `IterCmd` with `setIter` and `iter` — the command word.
* `IterServer.processRequest` — the file that a server writes or reads.
* `Submitted` — the iterations that `Run` submits.

## Main results

* `IterCmd.iter_setIter` — what is unpacked.
* `modelName_inj` — the names of a server are different for different iterations.
* `IterServer.faithful_iff` — when the naming is faithful.
* `Scheduler.submitted_of_mem_run` — the models that a run saves.
-/

namespace Difacto.Solver

open Lib

/-- `IterCmd` -/
structure IterCmd where
  cmd : BitVec 32

namespace IterCmd

/-- `IterCmd()` -/
def new : IterCmd := { cmd := 0 }

/-- `set_iter` -/
def setIter (c : IterCmd) (iter : ℤ) : IterCmd :=
  { cmd := c.cmd ||| (BitVec.ofInt 32 iter + 1) <<< 16 }

/-- `set_load_model` -/
def setLoadModel (c : IterCmd) : IterCmd := { cmd := c.cmd ||| 1#32 <<< 1 }

/-- `set_save_model` -/
def setSaveModel (c : IterCmd) : IterCmd := { cmd := c.cmd ||| 1#32 <<< 2 }

/-- `load_model` -/
def loadModel (c : IterCmd) : Bool := c.cmd &&& 1#32 <<< 1 ≠ 0

/-- `save_model` -/
def saveModel (c : IterCmd) : Bool := c.cmd &&& 1#32 <<< 2 ≠ 0

/-- `iter`; the shift of a negative number is arithmetic. -/
def iter (c : IterCmd) : ℤ := (c.cmd.sshiftRight 16 - 1).toInt

end IterCmd

/-- `ps::Task` -/
structure Task where
  cmd : BitVec 32
  msg : String

namespace IterScheduler

/-- `LoadModel` -/
def loadModel (filename : String) (iter : ℤ) : Task :=
  { cmd := (IterCmd.new.setLoadModel.setIter iter).cmd, msg := filename }

/-- `SaveModel` -/
def saveModel (filename : String) (iter : ℤ) : Task :=
  { cmd := (IterCmd.new.setSaveModel.setIter iter).cmd, msg := filename }

end IterScheduler

/-- `ModelName` on the server with this rank. -/
def modelName (rank : ℕ) (base : String) (iter : ℤ) : String :=
  let name := if 0 ≤ iter then base ++ ("_iter-" ++ toString iter) else base
  name ++ ("_part-" ++ toString rank)

/-- What a server does with a file. -/
inductive FileAccess
  | write (filename : String)
  | read (filename : String)
  deriving DecidableEq

/-- `IterServer::ProcessRequest`: the file that is opened, if any. -/
def IterServer.processRequest (rank : ℕ) (task : Task) : Option FileAccess :=
  if task.msg = "" then none
  else
    let cmd : IterCmd := { cmd := task.cmd }
    let filename := modelName rank task.msg cmd.iter
    if cmd.saveModel then some (.write filename)
    else if cmd.loadModel then some (.read filename)
    else none

/-! ## The command word -/

/-- A word with a flag in the lower half and a number that is shifted to the upper half. -/
theorem toNat_or_shiftLeft {flag : ℕ} (hflag : flag < 2 ^ 16) (x : BitVec 32) :
    (BitVec.ofNat 32 flag ||| x <<< 16).toNat = x.toNat % 2 ^ 16 * 2 ^ 16 + flag := by
  have hlt : flag < 2 ^ 32 := hflag.trans (by decide)
  have hshift : x.toNat <<< 16 % 2 ^ 32 = (x.toNat % 2 ^ 16) <<< 16 := by
    rw [Nat.shiftLeft_eq, Nat.shiftLeft_eq]
    omega
  rw [BitVec.toNat_or, BitVec.toNat_shiftLeft, BitVec.toNat_ofNat, Nat.mod_eq_of_lt hlt, hshift,
    Nat.or_comm, ← Nat.shiftLeft_add_eq_or_of_lt hflag, Nat.shiftLeft_eq]

/-- The number in the upper half of a word, as a number of 16 bits with a sign. -/
theorem toInt_sshiftRight_sub {x : BitVec 32} {y flag : ℕ} (hflag : flag < 2 ^ 16)
    (hy : y < 2 ^ 16) (hx : x.toNat = y * 2 ^ 16 + flag) :
    (x.sshiftRight 16 - 1).toInt = (if y < 2 ^ 15 then (y : ℤ) else y - 2 ^ 16) - 1 := by
  have hhalf : x.toInt >>> (16 : ℕ) = if y < 2 ^ 15 then (y : ℤ) else y - 2 ^ 16 := by
    rw [Int.shiftRight_eq_div_pow, BitVec.toInt_eq_toNat_cond, hx]
    split <;> split <;> omega
  have hone : (1 : BitVec 32).toInt = 1 := by decide
  rw [BitVec.toInt_sub, BitVec.toInt_sshiftRight, hhalf, hone]
  split
  · rw [Int.bmod_eq_of_le (by omega) (by omega)]
  · rw [Int.bmod_eq_of_le (by omega) (by omega)]

namespace IterCmd

/-- **What is unpacked** is the iteration if it is less than `2 ^ 15 - 1`, and another number
otherwise. -/
theorem iter_setIter {c : IterCmd} {flag : ℕ} (hc : c.cmd = BitVec.ofNat 32 flag)
    (hflag : flag < 2 ^ 16) {it : ℤ} (hmin : -1 ≤ it) (hmax : it < 2 ^ 31 - 1) :
    (c.setIter it).iter = it ↔ it < 2 ^ 15 - 1 := by
  have hnum : (BitVec.ofInt 32 it + 1).toNat = (it + 1).toNat := by
    rw [BitVec.toNat_add, BitVec.toNat_ofInt]
    have hone : (1 : BitVec 32).toNat = 1 := by decide
    rw [hone]
    omega
  have hword := toNat_or_shiftLeft hflag (BitVec.ofInt 32 it + 1)
  rw [hnum] at hword
  rw [iter, setIter, hc, toInt_sshiftRight_sub hflag (Nat.mod_lt _ (by decide)) hword]
  split <;> omega

/-- The flags are not in the upper half of the word. -/
theorem and_setIter (c : IterCmd) (it : ℤ) {flag : BitVec 32} (hflag : flag.toNat < 2 ^ 16) :
    (c.setIter it).cmd &&& flag = c.cmd &&& flag := by
  apply BitVec.eq_of_getLsbD_eq
  intro i hi
  simp only [setIter, BitVec.getLsbD_and, BitVec.getLsbD_or, BitVec.getLsbD_shiftLeft]
  by_cases hlow : i < 16
  · simp [hlow]
  · have hbit : flag.getLsbD i = false :=
      Nat.testBit_lt_two_pow (hflag.trans_le (Nat.pow_le_pow_right (by decide) (by omega)))
    simp [hbit]

end IterCmd

/-! ## Names -/

/-- **Different iterations have different names.** -/
theorem modelName_inj {rank : ℕ} {base : String} {a b : ℤ} (ha : -1 ≤ a) (hb : -1 ≤ b)
    (h : modelName rank base a = modelName rank base b) : a = b := by
  rw [modelName, modelName, String.append_left_inj] at h
  have hne : ∀ t : String, base ++ ("_iter-" ++ t) ≠ base := by
    intro t heq
    have hlen := congrArg String.length heq
    simp only [String.length_append] at hlen
    have hsix : "_iter-".length = 6 := rfl
    omega
  split at h <;> split at h
  · rename_i ha' hb'
    rw [String.append_right_inj, String.append_right_inj] at h
    obtain ⟨m, rfl⟩ := Int.eq_ofNat_of_zero_le ha'
    obtain ⟨n, rfl⟩ := Int.eq_ofNat_of_zero_le hb'
    rw [toString_nat_inj h]
  · exact absurd h (hne _)
  · exact absurd h.symm (hne _)
  · omega

/-! ## Requests -/

/-- An iteration that `Run` submits: `-1` for the last model, or the number of a pass. -/
def Submitted (maxDataPass iter : ℤ) : Prop := iter = -1 ∨ 0 ≤ iter ∧ iter < maxDataPass

namespace IterServer

open IterScheduler

/-- The command word of a request to save. -/
theorem decode_saveModel (base : String) (it : ℤ) :
    (⟨(saveModel base it).cmd⟩ : IterCmd).saveModel = true ∧
      (⟨(saveModel base it).cmd⟩ : IterCmd).loadModel = false := by
  simp only [saveModel, IterCmd.saveModel, IterCmd.loadModel,
    IterCmd.and_setIter _ _ (show (1#32 <<< 1).toNat < 2 ^ 16 by decide),
    IterCmd.and_setIter _ _ (show (1#32 <<< 2).toNat < 2 ^ 16 by decide)]
  decide

/-- The command word of a request to load. -/
theorem decode_loadModel (base : String) (it : ℤ) :
    (⟨(loadModel base it).cmd⟩ : IterCmd).saveModel = false ∧
      (⟨(loadModel base it).cmd⟩ : IterCmd).loadModel = true := by
  simp only [loadModel, IterCmd.saveModel, IterCmd.loadModel,
    IterCmd.and_setIter _ _ (show (1#32 <<< 1).toNat < 2 ^ 16 by decide),
    IterCmd.and_setIter _ _ (show (1#32 <<< 2).toNat < 2 ^ 16 by decide)]
  decide

/-- The commands for an iteration are decoded as they were encoded, and the server loads the
file that it saved. -/
structure Faithful (rank : ℕ) (base : String) (it : ℤ) : Prop where
  save : (⟨(saveModel base it).cmd⟩ : IterCmd).iter = it ∧
    (⟨(saveModel base it).cmd⟩ : IterCmd).saveModel = true ∧
    (⟨(saveModel base it).cmd⟩ : IterCmd).loadModel = false
  load : (⟨(loadModel base it).cmd⟩ : IterCmd).iter = it ∧
    (⟨(loadModel base it).cmd⟩ : IterCmd).saveModel = false ∧
    (⟨(loadModel base it).cmd⟩ : IterCmd).loadModel = true
  file : ∃ filename, processRequest rank (saveModel base it) = some (.write filename) ∧
    processRequest rank (loadModel base it) = some (.read filename)

variable {rank : ℕ} {base : String} {it : ℤ}

theorem iter_saveModel (base : String) (hmin : -1 ≤ it) (hmax : it < 2 ^ 31 - 1) :
    (⟨(saveModel base it).cmd⟩ : IterCmd).iter = it ↔ it < 2 ^ 15 - 1 := by
  have hflag : IterCmd.new.setSaveModel.cmd = BitVec.ofNat 32 4 := rfl
  exact IterCmd.iter_setIter hflag (by decide) hmin hmax

theorem iter_loadModel (base : String) (hmin : -1 ≤ it) (hmax : it < 2 ^ 31 - 1) :
    (⟨(loadModel base it).cmd⟩ : IterCmd).iter = it ↔ it < 2 ^ 15 - 1 := by
  have hflag : IterCmd.new.setLoadModel.cmd = BitVec.ofNat 32 2 := rfl
  exact IterCmd.iter_setIter hflag (by decide) hmin hmax

/-- The file that is written for an iteration. -/
theorem processRequest_saveModel (hbase : base ≠ "") : processRequest rank (saveModel base it) =
    some (.write (modelName rank base (⟨(saveModel base it).cmd⟩ : IterCmd).iter)) := by
  have hmsg : (saveModel base it).msg = base := rfl
  rw [processRequest, hmsg, if_neg hbase, if_pos (decode_saveModel base it).1]

/-- The file that is read for an iteration. -/
theorem processRequest_loadModel (hbase : base ≠ "") : processRequest rank (loadModel base it) =
    some (.read (modelName rank base (⟨(loadModel base it).cmd⟩ : IterCmd).iter)) := by
  have hmsg : (loadModel base it).msg = base := rfl
  have hsave : ¬ (⟨(loadModel base it).cmd⟩ : IterCmd).saveModel = true := by
    rw [(decode_loadModel base it).1]
    exact Bool.false_ne_true
  rw [processRequest, hmsg, if_neg hbase, if_neg hsave, if_pos (decode_loadModel base it).2]

/-- The commands for an iteration below `2 ^ 15 - 1` are faithful. -/
theorem faithful_of_lt (rank : ℕ) (hbase : base ≠ "") (hmin : -1 ≤ it) (hlt : it < 2 ^ 15 - 1) :
    Faithful rank base it := by
  have hsave := (iter_saveModel base hmin (by omega)).mpr hlt
  have hload := (iter_loadModel base hmin (by omega)).mpr hlt
  refine ⟨⟨hsave, decode_saveModel base it⟩, ⟨hload, decode_loadModel base it⟩,
    modelName rank base it, ?_, ?_⟩
  · rw [processRequest_saveModel hbase, hsave]
  · rw [processRequest_loadModel hbase, hload]

/-- **When the naming is faithful**: for two iterations that a run of at most `2 ^ 31 - 1` passes
submits, the commands are decoded as they were encoded, each file is loaded as it was saved and
different iterations have different files, if and only if both are less than `2 ^ 15 - 1`. -/
theorem faithful_iff (rank : ℕ) (base : String) (hbase : base ≠ "") (maxDataPass : ℤ)
    (hmax : maxDataPass < 2 ^ 31) (a b : ℤ) (ha : Submitted maxDataPass a)
    (hb : Submitted maxDataPass b) :
    (Faithful rank base a ∧ Faithful rank base b ∧
      (a ≠ b → processRequest rank (saveModel base a) ≠ processRequest rank (saveModel base b))) ↔
    a < 2 ^ 15 - 1 ∧ b < 2 ^ 15 - 1 := by
  have hrange : ∀ {it : ℤ}, Submitted maxDataPass it → -1 ≤ it ∧ it < 2 ^ 31 - 1 := by
    rintro it (rfl | ⟨hmin, hlt⟩) <;> omega
  obtain ⟨ha₁, ha₂⟩ := hrange ha
  obtain ⟨hb₁, hb₂⟩ := hrange hb
  constructor
  · rintro ⟨hfa, hfb, -⟩
    exact ⟨(iter_saveModel base ha₁ ha₂).mp hfa.save.1,
      (iter_saveModel base hb₁ hb₂).mp hfb.save.1⟩
  · rintro ⟨hlta, hltb⟩
    have hfa := faithful_of_lt rank hbase ha₁ hlta
    have hfb := faithful_of_lt rank hbase hb₁ hltb
    refine ⟨hfa, hfb, fun hne heq => hne ?_⟩
    rw [processRequest_saveModel hbase, processRequest_saveModel hbase, hfa.save.1, hfb.save.1,
      Option.some.injEq, FileAccess.write.injEq] at heq
    exact modelName_inj ha₁ hb₁ heq

theorem faithful_small : Faithful 3 "model" 7 ∧ Faithful 3 "model" (-1) ∧
    ((7 : ℤ) ≠ -1 → processRequest 3 (saveModel "model" 7) ≠
      processRequest 3 (saveModel "model" (-1))) :=
  (faithful_iff 3 "model" (by decide) 10 (by decide) 7 (-1) (.inr (by decide)) (.inl rfl)).mpr
    (by decide)

/-- **The model of pass `2 ^ 15 - 1` is saved as the last model.** -/
theorem late_pass_overwrites : Submitted 40000 32767 ∧ Submitted 40000 (-1) ∧
    (⟨(saveModel "model" 32767).cmd⟩ : IterCmd).iter = -32769 ∧
    processRequest 0 (saveModel "model" 32767) = processRequest 0 (saveModel "model" (-1)) := by
  have hlate : (⟨(saveModel "model" 32767).cmd⟩ : IterCmd).iter = -32769 := by decide
  have hlast : (⟨(saveModel "model" (-1)).cmd⟩ : IterCmd).iter = -1 := by decide
  refine ⟨.inr (by decide), .inl rfl, hlate, ?_⟩
  rw [processRequest_saveModel (by decide), processRequest_saveModel (by decide), hlate, hlast]
  rfl

end IterServer

/-! ## The models that a run saves -/

namespace Scheduler

variable {K : Type} [Zero K] [Sub K] [Div K] [LT K] [DecidableLT K] [BEq K]

theorem submitted_of_mem_passes (s : Scheduler K) (reports : ℤ → Reports K) {n : ℕ}
    {curIter it : ℤ} (hcur : 0 ≤ curIter) (hn : n = (s.conf.maxDataPass - curIter).toNat)
    (hmem : .saveModel it ∈ s.passes reports n curIter) : Submitted s.conf.maxDataPass it := by
  induction n generalizing curIter with
  | zero => cases hmem
  | succ n ih =>
      have hval : .saveModel it ∉ (if s.conf.valData = "" then [] else
          [SchedEvent.dispatch curIter .val]) := by split <;> simp
      simp only [passes, iterate_train, iterate_val, Bool.false_eq_true, if_false] at hmem
      split at hmem
      · rcases List.mem_append.mp hmem with h | h
        · simp at h
        · exact absurd h hval
      · rcases List.mem_append.mp hmem with h | h
        · rcases List.mem_append.mp h with h | h
          · rcases List.mem_append.mp h with h | h
            · simp at h
            · exact absurd h hval
          · split at h
            · obtain rfl : it = curIter := by simpa using h
              exact .inr ⟨hcur, by omega⟩
            · cases h
        · exact ih (by omega) (by omega) h

/-- The models that a run saves are those of passes, and the last one. -/
theorem submitted_of_mem_run (s : Scheduler K) (reports : ℤ → Reports K) {log : List SchedEvent}
    (hrun : s.run reports = some log) {it : ℤ} (hmem : .saveModel it ∈ log) :
    Submitted s.conf.maxDataPass it := by
  have hload : .saveModel it ∉ s.load := by
    rw [load]
    split <;> simp
  have hfirst : 0 ≤ s.firstIter := by
    rw [firstIter]
    split
    · exact le_rfl
    · split <;> omega
  rw [run] at hrun
  split at hrun
  · split at hrun
    · cases hrun
    · rw [← Option.some.inj hrun, iterate] at hmem
      rcases List.mem_append.mp hmem with h | h
      · exact absurd h hload
      · simp at h
  · rw [← Option.some.inj hrun] at hmem
    rcases List.mem_append.mp hmem with h | h
    · rcases List.mem_append.mp h with h | h
      · exact absurd h hload
      · exact submitted_of_mem_passes s reports hfirst rfl h
    · split at h
      · exact .inl (by simpa using h)
      · cases h

end Scheduler

end Difacto.Solver
