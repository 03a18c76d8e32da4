import Rcpu.Transaction

/-!
# Scripts

The opcodes and script predicates of `script/script.h` that the modelled code reads.
-/

namespace Rcpu.Script

open ByteStream Transaction

def MAX_SCRIPT_SIZE : Nat := 10000

def OP_0 : UInt8 := 0x00
def OP_PUSHDATA1 : UInt8 := 0x4C
def OP_PUSHDATA2 : UInt8 := 0x4D
def OP_PUSHDATA4 : UInt8 := 0x4E
def OP_TRUE : UInt8 := 0x51
def OP_16 : UInt8 := 0x60
def OP_RETURN : UInt8 := 0x6A
def OP_DUP : UInt8 := 0x76
def OP_EQUAL : UInt8 := 0x87
def OP_EQUALVERIFY : UInt8 := 0x88
def OP_HASH160 : UInt8 := 0xA9
def OP_CODESEPARATOR : UInt8 := 0xAB
def OP_CHECKSIG : UInt8 := 0xAC

/-- The number of bytes that give the size of an immediate operand. -/
def sizeWidth (opcode : UInt8) : Nat :=
  if opcode < OP_PUSHDATA1 then 0
  else if opcode = OP_PUSHDATA1 then 1
  else if opcode = OP_PUSHDATA2 then 2
  else 4

/-- The size of an immediate operand, from the opcode or from the size bytes behind it. -/
def operandSize (opcode : UInt8) (size : Bytes) : Nat :=
  if opcode < OP_PUSHDATA1 then opcode.toNat else ofLeBytes size

/-- `GetScriptOp`: the opcode, if a whole instruction is left, and where the iterator stands
afterwards.  On a failure it stays behind whatever has been read. -/
def getScriptOp : CScript → Option UInt8 × CScript
  | [] => (none, [])
  | opcode :: pc =>
    if opcode ≤ OP_PUSHDATA4 then
      let width := sizeWidth opcode
      if pc.length < width then (none, pc)
      else
        let nSize := operandSize opcode (pc.take width)
        if pc.length - width < nSize then (none, pc.drop width)
        else (some opcode, pc.drop (width + nSize))
    else (some opcode, pc)

/-- Scripts no input can satisfy: they start with `OP_RETURN` or exceed the size limit. -/
def IsUnspendable (script : CScript) : Prop :=
  script.head? = some OP_RETURN ∨ script.length > MAX_SCRIPT_SIZE

instance (script : CScript) : Decidable (IsUnspendable script) :=
  inferInstanceAs (Decidable (_ ∨ _))

/-- A version opcode and one push of the rest, of 2 to 40 bytes. -/
def IsWitnessProgram (script : CScript) : Prop :=
  4 ≤ script.length ∧ script.length ≤ 42 ∧
    (script.head? = some OP_0 ∨ ∃ op ∈ script.head?, OP_TRUE ≤ op ∧ op ≤ OP_16) ∧
    ∃ len ∈ script[1]?, len.toNat + 2 = script.length

instance (script : CScript) : Decidable (IsWitnessProgram script) :=
  inferInstanceAs (Decidable (_ ∧ _))

end Rcpu.Script
