/-
# Cutting an interval into parts

The values of one variable are cut into consecutive ranges whose sizes differ by
at most one, the larger ones first.  There are as many ranges as asked for, but
no more than values, so that none is empty.
-/

import BoundsSolver.Width

namespace BoundsSolver
namespace Interval

/-- Consecutive ranges from `min` on: `parts` of them with `size` values each, and one
value more in the first `larger`. -/
def ranges (size : Nat) : Nat → Nat → Int → Checked (List Interval)
  | 0, _, _ => .ok []
  | parts + 1, larger, min => do
    let length := size + Min.min larger 1
    let max ← Width.sum.sub (← Width.sum.add min length) 1
    let rest ← ranges size parts (larger - 1) (← Width.sum.add max 1)
    return ⟨Width.value.wrap min, Width.value.wrap max⟩ :: rest

/-- Cuts an interval into at most so many ranges. -/
def partition (i : Interval) (parts : Nat) : Checked (List Interval) :=
  if i.isEmpty ∨ parts = 0 then .ok []
  else
    let parts := Min.min parts i.size
    ranges (i.size / parts) parts (i.size % parts) i.min

end Interval
end BoundsSolver
