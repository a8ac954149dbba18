/-!
# Opcodes

The operations of the intermediate language, with the number each has on the wire, its mnemonic and
the label it has in serialised text. Numbers, mnemonics and labels are each distinct; numbers and
mnemonics are read back here.
-/
namespace Pcode

/-- Operations of the intermediate language, in the order of their numbers. -/
inductive Opcode where
  | copy
  | load
  | store
  | branch
  | cBranch
  | iBranch
  | call
  | iCall
  | callOther
  | ret
  | intEq
  | intNotEq
  | intSLess
  | intSLessEq
  | intLess
  | intLessEq
  | intZExt
  | intSExt
  | intAdd
  | intSub
  | intCarry
  | intSCarry
  | intSBorrow
  | intNeg
  | intNot
  | intXor
  | intAnd
  | intOr
  | intLShift
  | intRShift
  | intSRShift
  | intMul
  | intDiv
  | intSDiv
  | intRem
  | intSRem
  | boolNot
  | boolXor
  | boolAnd
  | boolOr
  | floatEq
  | floatNotEq
  | floatLess
  | floatLessEq
  | floatIsNaN
  | floatAdd
  | floatDiv
  | floatMul
  | floatSub
  | floatNeg
  | floatAbs
  | floatSqrt
  | floatOfInt
  | floatOfFloat
  | floatTruncate
  | floatCeiling
  | floatFloor
  | floatRound
  | multiEqual
  | indirect
  | piece
  | subpiece
  | cast
  | ptrAdd
  | ptrSub
  | segmentOp
  | cPoolRef
  | new
  | insert
  | extract
  | popCount
  | lzCount
deriving Repr, DecidableEq, Ord

namespace Opcode

inductive Error where
  | noSuchNumber (number : UInt8)
  | noSuchMnemonic (name : String)
deriving Repr, DecidableEq

def Error.message : Error → String
  | .noSuchNumber number => s!"invalid opcode value {number.toNat}"
  | .noSuchMnemonic name => s!"invalid opcode name `{name}`"

/-- What identifies an opcode outside the program. -/
structure Identity where
  number : UInt8
  mnemonic : String
  label : String
deriving Repr, DecidableEq

def identity : Opcode → Identity
  | .copy => ⟨1, "COPY", "Copy"⟩
  | .load => ⟨2, "LOAD", "Load"⟩
  | .store => ⟨3, "STORE", "Store"⟩
  | .branch => ⟨4, "BRANCH", "Branch"⟩
  | .cBranch => ⟨5, "CBRANCH", "CBranch"⟩
  | .iBranch => ⟨6, "BRANCHIND", "IBranch"⟩
  | .call => ⟨7, "CALL", "Call"⟩
  | .iCall => ⟨8, "CALLIND", "ICall"⟩
  | .callOther => ⟨9, "CALLOTHER", "CallOther"⟩
  | .ret => ⟨10, "RETURN", "Return"⟩
  | .intEq => ⟨11, "INT_EQUAL", "IntEq"⟩
  | .intNotEq => ⟨12, "INT_NOTEQUAL", "IntNotEq"⟩
  | .intSLess => ⟨13, "INT_SLESS", "IntSLess"⟩
  | .intSLessEq => ⟨14, "INT_SLESSEQUAL", "IntSLessEq"⟩
  | .intLess => ⟨15, "INT_LESS", "IntLess"⟩
  | .intLessEq => ⟨16, "INT_LESSEQUAL", "IntLessEq"⟩
  | .intZExt => ⟨17, "INT_ZEXT", "IntZExt"⟩
  | .intSExt => ⟨18, "INT_SEXT", "IntSExt"⟩
  | .intAdd => ⟨19, "INT_ADD", "IntAdd"⟩
  | .intSub => ⟨20, "INT_SUB", "IntSub"⟩
  | .intCarry => ⟨21, "INT_CARRY", "IntCarry"⟩
  | .intSCarry => ⟨22, "INT_SCARRY", "IntSCarry"⟩
  | .intSBorrow => ⟨23, "INT_SBORROW", "IntSBorrow"⟩
  | .intNeg => ⟨24, "INT_2COMP", "IntNeg"⟩
  | .intNot => ⟨25, "INT_NEGATE", "IntNot"⟩
  | .intXor => ⟨26, "INT_XOR", "IntXor"⟩
  | .intAnd => ⟨27, "INT_AND", "IntAnd"⟩
  | .intOr => ⟨28, "INT_OR", "IntOr"⟩
  | .intLShift => ⟨29, "INT_LEFT", "IntLShift"⟩
  | .intRShift => ⟨30, "INT_RIGHT", "IntRShift"⟩
  | .intSRShift => ⟨31, "INT_SRIGHT", "IntSRShift"⟩
  | .intMul => ⟨32, "INT_MULT", "IntMul"⟩
  | .intDiv => ⟨33, "INT_DIV", "IntDiv"⟩
  | .intSDiv => ⟨34, "INT_SDIV", "IntSDiv"⟩
  | .intRem => ⟨35, "INT_REM", "IntRem"⟩
  | .intSRem => ⟨36, "INT_SREM", "IntSRem"⟩
  | .boolNot => ⟨37, "BOOL_NEGATE", "BoolNot"⟩
  | .boolXor => ⟨38, "BOOL_XOR", "BoolXor"⟩
  | .boolAnd => ⟨39, "BOOL_AND", "BoolAnd"⟩
  | .boolOr => ⟨40, "BOOL_OR", "BoolOr"⟩
  | .floatEq => ⟨41, "FLOAT_EQUAL", "FloatEq"⟩
  | .floatNotEq => ⟨42, "FLOAT_NOTEQUAL", "FloatNotEq"⟩
  | .floatLess => ⟨43, "FLOAT_LESS", "FloatLess"⟩
  | .floatLessEq => ⟨44, "FLOAT_LESSEQUAL", "FloatLessEq"⟩
  | .floatIsNaN => ⟨46, "FLOAT_NAN", "FloatIsNaN"⟩
  | .floatAdd => ⟨47, "FLOAT_ADD", "FloatAdd"⟩
  | .floatDiv => ⟨48, "FLOAT_DIV", "FloatDiv"⟩
  | .floatMul => ⟨49, "FLOAT_MULT", "FloatMul"⟩
  | .floatSub => ⟨50, "FLOAT_SUB", "FloatSub"⟩
  | .floatNeg => ⟨51, "FLOAT_NEG", "FloatNeg"⟩
  | .floatAbs => ⟨52, "FLOAT_ABS", "FloatAbs"⟩
  | .floatSqrt => ⟨53, "FLOAT_SQRT", "FloatSqrt"⟩
  | .floatOfInt => ⟨54, "INT2FLOAT", "FloatOfInt"⟩
  | .floatOfFloat => ⟨55, "FLOAT2FLOAT", "FloatOfFloat"⟩
  | .floatTruncate => ⟨56, "TRUNC", "FloatTruncate"⟩
  | .floatCeiling => ⟨57, "CEIL", "FloatCeiling"⟩
  | .floatFloor => ⟨58, "FLOOR", "FloatFloor"⟩
  | .floatRound => ⟨59, "ROUND", "FloatRound"⟩
  | .multiEqual => ⟨60, "MULTIEQUAL", "MultiEqual"⟩
  | .indirect => ⟨61, "INDIRECT", "Indirect"⟩
  | .piece => ⟨62, "PIECE", "Piece"⟩
  | .subpiece => ⟨63, "SUBPIECE", "Subpiece"⟩
  | .cast => ⟨64, "CAST", "Cast"⟩
  | .ptrAdd => ⟨65, "PTRADD", "PtrAdd"⟩
  | .ptrSub => ⟨66, "PTRSUB", "PtrSub"⟩
  | .segmentOp => ⟨67, "SEGMENTOP", "SegmentOp"⟩
  | .cPoolRef => ⟨68, "CPOOLREF", "CPoolRef"⟩
  | .new => ⟨69, "NEW", "New"⟩
  | .insert => ⟨70, "INSERT", "Insert"⟩
  | .extract => ⟨71, "EXTRACT", "Extract"⟩
  | .popCount => ⟨72, "POPCOUNT", "PopCount"⟩
  | .lzCount => ⟨73, "LZCOUNT", "LZCount"⟩

/-- The number on the wire. -/
def number (o : Opcode) : UInt8 := o.identity.number

def mnemonic (o : Opcode) : String := o.identity.mnemonic

/-- The name in serialised text. -/
def label (o : Opcode) : String := o.identity.label

def all : List Opcode :=
  [.copy, .load, .store, .branch, .cBranch, .iBranch, .call, .iCall, .callOther, .ret, .intEq,
    .intNotEq, .intSLess, .intSLessEq, .intLess, .intLessEq, .intZExt, .intSExt, .intAdd, .intSub,
    .intCarry, .intSCarry, .intSBorrow, .intNeg, .intNot, .intXor, .intAnd, .intOr, .intLShift,
    .intRShift, .intSRShift, .intMul, .intDiv, .intSDiv, .intRem, .intSRem, .boolNot, .boolXor,
    .boolAnd, .boolOr, .floatEq, .floatNotEq, .floatLess, .floatLessEq, .floatIsNaN, .floatAdd,
    .floatDiv, .floatMul, .floatSub, .floatNeg, .floatAbs, .floatSqrt, .floatOfInt, .floatOfFloat,
    .floatTruncate, .floatCeiling, .floatFloor, .floatRound, .multiEqual, .indirect, .piece,
    .subpiece, .cast, .ptrAdd, .ptrSub, .segmentOp, .cPoolRef, .new, .insert, .extract, .popCount,
    .lzCount]

def ofNumber (number : UInt8) : Except Error Opcode :=
  match all.find? fun o => o.number == number with
  | some o => .ok o
  | none => .error (.noSuchNumber number)

def ofMnemonic (name : String) : Except Error Opcode :=
  match all.find? fun o => o.mnemonic == name with
  | some o => .ok o
  | none => .error (.noSuchMnemonic name)

theorem mem_all (o : Opcode) : o ∈ all := by cases o <;> decide

/-- The number of an opcode reads back. -/
theorem ofNumber_number (o : Opcode) : ofNumber o.number = .ok o := by cases o <;> rfl

def isBranch : Opcode → Bool
  | .branch | .cBranch | .iBranch | .call | .iCall | .ret => true
  | _ => false

end Opcode

end Pcode
