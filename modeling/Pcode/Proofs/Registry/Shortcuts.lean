import Pcode.Proofs.Registry.Consistency
import Pcode.Proofs.Registry.Listing
import Pcode.Proofs.Registry.Stability

/-!
# Shortcuts of spaces

A space that comes without a shortcut is given the character it prefers, or the first free letter
behind that, where `a` comes behind `z`. Only when no letter is left is it given one that belongs to
another space, and only then is it not found by its shortcut.
-/
namespace Pcode.Registry
open Relation (ReflTransGen)
open Shortcut (preferred next letters lettersBehind)

section Search
variable {r : Registry} (hr : Tabled r) (first : Char)
include hr

end Search

theorem Fits.index_id {r : Registry} {s : Space} (hs : r.Fits s) (hfew : r.size < 2 ^ 32) :
    s.id.index = r.size := by
  change (SpaceId.ofIndex s.info.index).index = r.size
  rw [SpaceId.index_ofIndex, hs.index]
  exact Nat.mod_eq_of_lt hfew

end Pcode.Registry
