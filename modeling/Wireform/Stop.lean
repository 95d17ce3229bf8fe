/-!
# How a bounded computation stops early

Recursion that no structure bounds is given a number of levels. Running out of
levels is kept apart from failing, so that it can be shown not to happen.
-/

namespace Wireform

/-- Why a computation has no result. -/
inductive Stop (ε : Type u) where
  /-- It failed. -/
  | failure (error : ε)
  /-- It was not given enough levels. -/
  | outOfFuel
deriving DecidableEq

end Wireform
