import Babeltrace.Bitfield

/-!
# Field classes and items of CTF item sequences

Classes (`metadata/ctf-ir.hpp`) as far as the item sequence iterator reads them, and its items
(`item-seq/item.hpp`). A data length is its number of bits. Classes which only differ by the type of
their item are one constructor; names, attributes, mappings and media types are left out.
-/
namespace Babeltrace.ItemSeq

inductive ByteOrder
  | big
  | little
  deriving DecidableEq, Repr

inductive BitOrder
  | firstToLast
  | lastToFirst
  deriving DecidableEq, Repr

/-- Code unit of a string: one, two or four bytes. -/
inductive CodeUnit
  | utf8
  | utf16
  | utf32
  deriving DecidableEq, Repr

def CodeUnit.len : CodeUnit → ℕ
  | .utf8 => 1
  | .utf16 => 2
  | .utf32 => 4

inductive StrEncoding
  | utf8
  | utf16Be
  | utf16Le
  | utf32Be
  | utf32Le
  deriving DecidableEq, Repr

def StrEncoding.codeUnit : StrEncoding → CodeUnit
  | .utf8 => .utf8
  | .utf16Be | .utf16Le => .utf16
  | .utf32Be | .utf32Le => .utf32

inductive UIntFieldRole
  | pktMagicNumber
  | dataStreamClsId
  | dataStreamId
  | pktTotalLen
  | pktContentLen
  | defClkTs
  | pktEndDefClkTs
  | discEventRecordCounterSnap
  | pktSeqNum
  | eventRecordClsId
  deriving DecidableEq, Repr

inductive Scope
  | pktHeader
  | pktCtx
  | eventRecordHeader
  | commonEventRecordCtx
  | specEventRecordCtx
  | eventRecordPayload
  deriving DecidableEq, Repr

theorem byteLen_pos : 0 < 8 := by decide

theorem byteLen_le : 8 ≤ 64 := by decide

/-- The constructor of the source asserts the bounds. -/
structure FixedLenBitArrayFc where
  align : ℕ
  len : ℕ
  byteOrder : ByteOrder
  bitOrder : BitOrder
  align_pos : 0 < align := by first | exact byteLen_pos | decide
  len_pos : 0 < len := by first | exact byteLen_pos | decide
  len_le : len ≤ 64 := by first | exact byteLen_le | decide
  deriving DecidableEq

def FixedLenBitArrayFc.isRev (fc : FixedLenBitArrayFc) : Bool :=
  match fc.byteOrder, fc.bitOrder with
  | .big, .firstToLast => true
  | .little, .lastToFirst => true
  | _, _ => false

def FixedLenBitArrayFc.isStd (fc : FixedLenBitArrayFc) : Bool :=
  fc.align % 8 = 0 ∧ fc.len ∈ [8, 16, 32, 64]

inductive FixedLenKind
  | bitArray
  | bitMap
  | bool
  | float
  | uInt
  | sInt
  deriving DecidableEq, Repr

/-- `keyValSavingIndexes` tells where to save the value of a key field. -/
inductive ScalarFc
  | fixedLen (kind : FixedLenKind) (fc : FixedLenBitArrayFc) (roles : List UIntFieldRole)
      (keyValSavingIndexes : List ℕ)
  | varLenInt (isSigned : Bool) (roles : List UIntFieldRole) (keyValSavingIndexes : List ℕ)
  deriving DecidableEq

def ScalarFc.align : ScalarFc → ℕ
  | .fixedLen _ fc _ _ => fc.align
  | .varLenInt _ _ _ => 8

def ScalarFc.roles : ScalarFc → List UIntFieldRole
  | .fixedLen _ _ roles _ => roles
  | .varLenInt _ roles _ => roles

def ScalarFc.keyValSavingIndexes : ScalarFc → List ℕ
  | .fixedLen _ _ _ indexes => indexes
  | .varLenInt _ _ indexes => indexes

/-- A dynamic length is a saved key value. The metadata stream UUID role requires a BLOB of 16
bytes. -/
inductive StrBlobFc
  | nullTerminatedStr (encoding : StrEncoding)
  | staticLenStr (encoding : StrEncoding) (len : ℕ)
  | dynLenStr (encoding : StrEncoding) (savedKeyValIndex : ℕ)
  | staticLenBlob (len : ℕ)
  | staticLenBlobWithMetadataStreamUuidRole
  | dynLenBlob (savedKeyValIndex : ℕ)
  deriving DecidableEq, Repr

abbrev Ranges := List (ℤ × ℤ)

def Ranges.contains (ranges : Ranges) (val : ℤ) : Bool :=
  ranges.any fun r => r.1 ≤ val ∧ val ≤ r.2

inductive OptionalSel
  | bool
  | int (isSigned : Bool) (ranges : Ranges)
  deriving DecidableEq

/-- The alignment of a compound class is stored, as in the source. The metadata stream UUID role
requires an array of 16 fixed-length unsigned integers. -/
inductive Fc
  | scalar (fc : ScalarFc)
  | strBlob (fc : StrBlobFc)
  | staticLenArray (align len : ℕ) (elemFc : Fc)
  | staticLenArrayWithMetadataStreamUuidRole (align : ℕ) (elemFc : FixedLenBitArrayFc)
  | dynLenArray (align savedKeyValIndex : ℕ) (elemFc : Fc)
  | struct (align : ℕ) (members : List Fc)
  | optional (sel : OptionalSel) (savedKeyValIndex : ℕ) (fc : Fc)
  | variant (isSigned : Bool) (ranges : List Ranges) (savedKeyValIndex : ℕ) (opts : List Fc)

def Fc.align : Fc → ℕ
  | .scalar fc => fc.align
  | .strBlob _ => 8
  | .staticLenArray align _ _ => align
  | .staticLenArrayWithMetadataStreamUuidRole align _ => align
  | .dynLenArray align _ _ => align
  | .struct align _ => align
  | .optional _ _ _ => 1
  | .variant _ _ _ _ => 1

/-- The index of the first option which `selVal` selects -/
def findOptBySelVal (ranges : List Ranges) (selVal : ℤ) : Option ℕ :=
  ranges.findIdx? (Ranges.contains · selVal)

mutual

def Fc.all (p : Fc → Bool) : Fc → Bool
  | .scalar fc => p (.scalar fc)
  | .strBlob fc => p (.strBlob fc)
  | .staticLenArray align len elemFc => p (.staticLenArray align len elemFc) && elemFc.all p
  | .staticLenArrayWithMetadataStreamUuidRole align elemFc =>
    p (.staticLenArrayWithMetadataStreamUuidRole align elemFc)
  | .dynLenArray align index elemFc => p (.dynLenArray align index elemFc) && elemFc.all p
  | .struct align members => p (.struct align members) && Fc.allOf p members
  | .optional sel index fc => p (.optional sel index fc) && fc.all p
  | .variant isSigned ranges index opts =>
    p (.variant isSigned ranges index opts) && Fc.allOf p opts

def Fc.allOf (p : Fc → Bool) : List Fc → Bool
  | [] => true
  | fc :: fcs => fc.all p && Fc.allOf p fcs

end

/-- An option of a variant field class has its ranges. -/
def Fc.hasOpts : Fc → Bool
  | .variant _ ranges _ opts => !opts.isEmpty && ranges.length = opts.length
  | _ => true

def Fc.hasNoPktLenRole : Fc → Bool
  | .scalar fc => fc.roles.all fun role => role ≠ .pktTotalLen ∧ role ≠ .pktContentLen
  | _ => true

/-- Structure field class, the class of any scope -/
structure StructFc where
  align : ℕ
  members : List Fc
  hasOpts : (Fc.struct align members).all Fc.hasOpts = true := by decide

def StructFc.toFc (fc : StructFc) : Fc := .struct fc.align fc.members

def StructFc.hasNoPktLenRole (fc : StructFc) : Bool := fc.toFc.all Fc.hasNoPktLenRole

theorem StructFc.all_none : (none : Option StructFc).all StructFc.hasNoPktLenRole = true := rfl

structure EventRecordCls where
  id : ℕ
  specCtxFc : Option StructFc
  payloadFc : Option StructFc
  specCtx_roles : specCtxFc.all StructFc.hasNoPktLenRole = true :=
    by first | exact StructFc.all_none | decide
  payload_roles : payloadFc.all StructFc.hasNoPktLenRole = true :=
    by first | exact StructFc.all_none | decide

structure DataStreamCls where
  id : ℕ
  pktCtxFc : Option StructFc
  eventRecordHeaderFc : Option StructFc
  commonEventRecordCtxFc : Option StructFc
  hasDefClkCls : Bool
  eventRecordClss : List EventRecordCls
  eventRecordHeader_roles : eventRecordHeaderFc.all StructFc.hasNoPktLenRole = true :=
    by first | exact StructFc.all_none | decide
  commonEventRecordCtx_roles :
    commonEventRecordCtxFc.all StructFc.hasNoPktLenRole = true :=
    by first | exact StructFc.all_none | decide

structure TraceCls where
  pktHeaderFc : Option StructFc
  dataStreamClss : List DataStreamCls
  pktHeader_roles : pktHeaderFc.all StructFc.hasNoPktLenRole = true :=
    by first | exact StructFc.all_none | decide

/-- `DataStreamCls::operator[]` -/
def DataStreamCls.find (cls : DataStreamCls) (id : ℕ) : Option EventRecordCls :=
  cls.eventRecordClss.find? (·.id = id)

/-- `TraceCls::operator[]` -/
def TraceCls.find (cls : TraceCls) (id : ℕ) : Option DataStreamCls :=
  cls.dataStreamClss.find? (·.id = id)

structure DataStreamInfo where
  cls : Option DataStreamCls := none
  id : Option ℕ := none

structure PktInfo where
  seqNum : Option ℕ := none
  expectedTotalLen : Option ℕ := none
  expectedContentLen : Option ℕ := none
  beginDefClkVal : Option ℕ := none
  endDefClkVal : Option ℕ := none
  discErCounterSnap : Option ℕ := none

structure EventRecordInfo where
  cls : Option EventRecordCls := none
  defClkVal : Option ℕ := none

inductive ContainerKind
  | struct
  | staticLenArray
  | dynLenArray
  | nullTerminatedStr
  | staticLenStr
  | dynLenStr
  | staticLenBlob
  | dynLenBlob
  | optionalWithBoolSel
  | optionalWithIntSel (isSigned : Bool)
  | variantWithIntSel (isSigned : Bool)
  deriving DecidableEq, Repr

inductive BeginInfo
  | none
  | len (len : ℕ)
  | optional (selVal : ℤ) (isEnabled : Bool)
  | variant (selVal : ℤ) (selectedOptIndex : ℕ)
  deriving DecidableEq, Repr

/-- The value of a floating point number field is the one of its bits; the offset isn't part of an
item. -/
inductive Item
  | pktBegin
  | pktEnd
  | pktContentBegin
  | pktContentEnd
  | scopeBegin (scope : Scope)
  | scopeEnd (scope : Scope)
  | eventRecordBegin
  | eventRecordEnd
  | pktMagicNumber (val : ℕ)
  | metadataStreamUuid (uuid : List UInt8)
  | defClkVal (cycles : ℕ)
  | dataStreamInfo (info : DataStreamInfo)
  | pktInfo (info : PktInfo)
  | eventRecordInfo (info : EventRecordInfo)
  | fixedLenField (kind : FixedLenKind) (fc : ScalarFc) (val : ℤ)
  | varLenIntField (isSigned : Bool) (fc : ScalarFc) (val : ℤ) (len : ℕ)
  | fieldBegin (kind : ContainerKind) (fc : Fc) (info : BeginInfo)
  | fieldEnd (kind : ContainerKind) (fc : Fc)
  | rawData (bytes : List UInt8)

end Babeltrace.ItemSeq
