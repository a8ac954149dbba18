/-!
# Ordered lists

Search by halving in lists whose first items satisfy a condition and whose others do not, and tables
of entries by increasing key.
-/
namespace Pcode.Ordered

/-- The number of items up to the last that satisfies `p`. Those before `low` are known to satisfy
it and those from `high` on not to; what lies between is halved. -/
def boundary {α : Type} (p : α → Bool) (xs : List α) (low high : Nat) : Nat :=
  if low < high then
    let middle := low + (high - low) / 2
    if xs[middle]?.any p then boundary p xs (middle + 1) high else boundary p xs low middle
  else low
termination_by high - low

/-- The number of items that satisfy `p`, in a list where they come first. -/
def partitionPoint {α : Type} (p : α → Bool) (xs : List α) : Nat := boundary p xs 0 xs.length

section Table
variable {κ α : Type} (order : κ → κ → Ordering)

def find? (key : κ) : List (κ × α) → Option α
  | [] => none
  | e :: es =>
    match order key e.1 with
    | .lt => none
    | .eq => some e.2
    | .gt => find? key es

/-- Puts an entry in its place among the others; one of the same key is replaced. -/
def place (key : κ) (value : α) : List (κ × α) → List (κ × α)
  | [] => [(key, value)]
  | e :: es =>
    match order key e.1 with
    | .lt => (key, value) :: e :: es
    | .eq => (key, value) :: es
    | .gt => e :: place key value es

end Table

end Pcode.Ordered
