/-! # Depth limits

How deep groups may nest in a line, and how deep lookups and groups may nest in
an evaluation. Settings hold no limit beyond the greatest one. A greater one can
still be asked for, but the stack ends what it allows at some depth, and that
depth is taken to be the greatest limit.
-/

namespace Abacus.Depth

/-- The greatest limit that can be set. The stack suffices for lists that nest this deep. -/
def greatest : Int := 150

def effective (limit : Int) : Int :=
  min limit greatest

theorem effective_of_le {limit : Int} (h : limit ≤ greatest) : effective limit = limit :=
  Int.min_eq_left h

abbrev Limit := { n : Int // 1 ≤ n ∧ n ≤ greatest }

namespace Limit

def default : Limit :=
  ⟨100, by decide⟩

def highest : Limit :=
  ⟨greatest, by decide⟩

end Limit

end Abacus.Depth
