import Pcode.ByteOrder
import Pcode.Spaces.Properties
import Pcode.Word

/-!
# Descriptions of address spaces

A space is a range of offsets `0 … highest` addressed by pointers of `pointerSize` bytes that count
units of `wordSize` bytes. Offsets past the end wrap around to the start.
-/
namespace Pcode

/-- Handle of a space: the low 32 bits of its index. -/
structure SpaceId where
  value : UInt32
deriving Repr, DecidableEq, Ord

namespace SpaceId

def ofIndex (index : UInt64) : SpaceId := ⟨index.toUInt32⟩

def index (id : SpaceId) : Nat := id.value.toNat

theorem index_ofIndex (index : UInt64) : (ofIndex index).index = index.toNat % UInt32.size := rfl

/-- The constant space always has the first handle. -/
def constant : SpaceId := ⟨0⟩

def describe (id : SpaceId) : String := s!"space#{id.value.toNat}"

end SpaceId

inductive Purpose where
  /-- Values that stand for themselves. -/
  | constant
  /-- Memory and registers. -/
  | processor
  /-- Offsets from a base register. -/
  | based
  /-- Values that live no longer than an instruction. -/
  | temporary
  /-- References to descriptions of calls. -/
  | callSpec
  /-- References to operations. -/
  | opReference
  /-- Values spread over several locations. -/
  | joined
deriving Repr, DecidableEq, Ord

namespace Purpose

def all : List Purpose :=
  [.constant, .processor, .based, .temporary, .callSpec, .opReference, .joined]

def label : Purpose → String
  | .constant => "Constant"
  | .processor => "Processor"
  | .based => "Spacebase"
  | .temporary => "Internal"
  | .callSpec => "Fspec"
  | .opReference => "Iop"
  | .joined => "Join"

/-- Only locations in memory, in registers or relative to a base register may be pieces of a joined
value. -/
def isJoinable : Purpose → Bool
  | .processor | .based => true
  | _ => false

end Purpose

/-- The description shared by every form of address space. -/
structure SpaceInfo where
  index : UInt64
  purpose : Purpose
  properties : Properties
  highest : UInt64
  name : String
  shortcut : Option Char
  pointerSize : UInt64
  wordSize : UInt64
  delay : UInt64
  deadcodeWait : UInt64
deriving Repr, DecidableEq, Ord

namespace SpaceInfo

/-- A description without a shortcut, whose highest offset follows from its sizes. -/
def ofSizes (purpose : Purpose) (name : String) (pointerSize wordSize index : UInt64)
    (properties : Properties) (delay : UInt64) : SpaceInfo where
  index
  purpose
  properties
  highest := Word.highest pointerSize wordSize
  name
  shortcut := none
  pointerSize
  wordSize
  delay
  deadcodeWait := delay

def id (s : SpaceInfo) : SpaceId := .ofIndex s.index

def byteOrder (s : SpaceInfo) : ByteOrder := .ofBig (s.properties.has .bigEndian)

def reversesJustification (s : SpaceInfo) : Bool := s.properties.has .reverseJustification

def isNarrowed (s : SpaceInfo) : Bool := s.properties.has .truncated

/-- Where an offset lies past the last one, the number of offsets is a word. -/
theorem toNat_highest_add_one {s : SpaceInfo} {offset : UInt64} (h : s.highest < offset) :
    (s.highest + 1).toNat = s.highest.toNat + 1 := by
  rw [UInt64.lt_iff_toNat_lt] at h
  have hlt := offset.toNat_lt
  rw [UInt64.toNat_add]
  exact Nat.mod_eq_of_lt (by change s.highest.toNat + 1 < _; omega)

/-- What a space makes of an offset. The number of offsets is computed for those past the last one
only, and must be a word other than zero. -/
def wrapChecked (s : SpaceInfo) (offset : UInt64) : Checked UInt64 :=
  if offset ≤ s.highest then .ok offset
  else do
    let count ← Word.add s.highest 1
    Word.rem offset count

theorem exists_wrapChecked (s : SpaceInfo) (offset : UInt64) :
    ∃ a, s.wrapChecked offset = .ok a ∧ a.toNat = offset.toNat % (s.highest.toNat + 1) := by
  unfold wrapChecked
  split
  next h =>
    rw [UInt64.le_iff_toNat_le] at h
    exact ⟨offset, rfl, (Nat.mod_eq_of_lt (Nat.lt_succ_of_le h)).symm⟩
  next h =>
    have hcount := toNat_highest_add_one (UInt64.not_le.mp h)
    have hadd : Word.add s.highest 1 = .ok (s.highest + 1) := Word.add_eq_ok_iff.mpr hcount.symm
    have hne : s.highest + 1 ≠ 0 := by
      intro hzero
      rw [hzero] at hcount
      exact absurd hcount.symm (Nat.succ_ne_zero _)
    refine ⟨offset % (s.highest + 1), ?_, ?_⟩
    · rw [hadd]
      exact if_neg hne
    · rw [UInt64.toNat_mod, hcount]

/-- The offset of the space that an offset stands for, the same one up to the last offset. -/
def wrap (s : SpaceInfo) (offset : UInt64) : UInt64 :=
  (s.wrapChecked offset).get ((s.exists_wrapChecked offset).imp fun _ h => h.1)

theorem wrapChecked_eq (s : SpaceInfo) (offset : UInt64) :
    s.wrapChecked offset = .ok (s.wrap offset) :=
  (Checked.ok_get ..).symm

theorem wrap_of_le {s : SpaceInfo} {offset : UInt64} (h : offset ≤ s.highest) :
    s.wrap offset = offset :=
  Checked.get_of_eq (if_pos h) _

def byteOffset (s : SpaceInfo) (offset : UInt64) : UInt64 := offset * s.wordSize

def narrow (s : SpaceInfo) (size : UInt64) : SpaceInfo :=
  { s with
    properties := s.properties.insert .truncated
    pointerSize := size
    highest := Word.highest size s.wordSize }

end SpaceInfo

end Pcode
