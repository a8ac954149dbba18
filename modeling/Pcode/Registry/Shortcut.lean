import Pcode.Spaces.Forms

/-!
# Shortcut characters

Every space is known by one character. A configured character is kept, and the first space to have
it is the one found by it. Without one the choice depends on purpose and name, and moves on through
the alphabet while the character is taken.
-/
namespace Pcode.Shortcut

/-- The character that a space would have if none were taken. -/
def preferred (s : SpaceInfo) : Char :=
  let c :=
    match s.purpose with
    | .constant => '#'
    | .processor => if s.name = "register" then '%' else s.name.toList.head?.getD 'x'
    | .based => 's'
    | .temporary => 'u'
    | .callSpec => 'f'
    | .joined => 'j'
    | .opReference => 'i'
  c.toLower

def next (c : Char) : Char :=
  if 'a' ≤ c ∧ c < 'z' then Char.ofNat (c.toNat + 1) else 'a'

/-- The first free character from `c` on, looking at no more than `n` further letters. -/
def free? (taken : List (Char × SpaceId)) : Nat → Char → Option Char
  | 0, c => if (taken.lookup c).isSome then none else some c
  | n + 1, c => if (taken.lookup c).isSome then free? taken n (next c) else some c

/-- Gives a space its character and registers it. When the preferred character and all letters are
taken, the space has `z` but is not found by it. -/
def assign (taken : List (Char × SpaceId)) (s : Space) : Space × List (Char × SpaceId) :=
  match s.info.shortcut with
  | some c => (s, if (taken.lookup c).isSome then taken else taken ++ [(c, s.id)])
  | none =>
    match free? taken 26 (preferred s.info) with
    | some c => (s.modifyInfo fun d => { d with shortcut := some c }, taken ++ [(c, s.id)])
    | none => (s.modifyInfo fun d => { d with shortcut := some 'z' }, taken)

end Pcode.Shortcut
