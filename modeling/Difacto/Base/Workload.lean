import Mathlib.Data.Int.Notation

/-!
# Workloads

The unit of work the scheduler hands to a worker (`base/workload.h`): what to do
(train, validate or predict), in which data pass, and on which parts of which files.
-/

namespace Difacto.Base

/-- `Workload::Type`. -/
inductive WorkloadType
  | train
  | val
  | pred
  deriving DecidableEq, Repr

namespace Workload

/-- `Workload::File`: the `k`-th of `n` virtual parts of a file. -/
structure File where
  filename : String := ""
  /-- data format: libsvm, crb, ... -/
  format : String := ""
  n : ℤ := 1
  k : ℤ := 0
  deriving DecidableEq, Repr

end Workload

/-- `Workload`: the files of one assignment, with the pass they belong to. -/
structure Workload where
  type : WorkloadType
  dataPass : ℤ
  file : List Workload.File := []
  deriving DecidableEq, Repr

namespace Workload

/-- `Workload::Empty`. -/
def empty (wl : Workload) : Bool := wl.file.length == 0

@[simp] theorem empty_iff (wl : Workload) : wl.empty = true ↔ wl.file = [] := by
  simp [empty]

end Workload

end Difacto.Base
