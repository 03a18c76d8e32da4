import Mathlib.Data.Nat.Size
import Rcpu.Transaction

/-!
# 256-bit numbers

`arith_uint256.cpp`: the number a hash denotes and the compact form of targets.  An `arith_uint256`
is a natural number below `2 ^ 256`.
-/

namespace Rcpu.ArithUint256

open ByteStream Transaction

/-- `UintToArith256`: the bytes of a hash, least significant first. -/
def uintToArith256 (hash : Uint256) : Nat := ofLeBytes hash.bytes

structure Compact where
  value : Nat
  fNegative : Bool
  fOverflow : Bool
deriving DecidableEq, Repr

def setCompact (nCompact : UInt32) : Compact :=
  let nSize := (nCompact >>> 24).toNat
  let nWord := (nCompact &&& 0x007FFFFF).toNat
  if nSize ≤ 3 then
    let nWord := nWord / 2 ^ (8 * (3 - nSize))
    ⟨nWord, flag nWord, overflow nSize nWord⟩
  else ⟨nWord * 2 ^ (8 * (nSize - 3)) % 2 ^ 256, flag nWord, overflow nSize nWord⟩
where
  flag (nWord : Nat) : Bool := nWord ≠ 0 ∧ nCompact &&& 0x00800000 ≠ 0
  overflow (nSize nWord : Nat) : Bool :=
    nWord ≠ 0 ∧ (nSize > 34 ∨ (nWord > 0xFF ∧ nSize > 33) ∨ (nWord > 0xFFFF ∧ nSize > 32))

/-- `GetCompact(false)` -/
def getCompact (n : Nat) : UInt32 :=
  let nSize := (Nat.size n + 7) / 8
  let nCompact : UInt32 :=
    if nSize ≤ 3 then UInt32.ofNat (n % 2 ^ 64 * 2 ^ (8 * (3 - nSize)))
    else UInt32.ofNat (n / 2 ^ (8 * (nSize - 3)))
  -- a mantissa that reaches the sign bit is shortened by one byte
  if nCompact &&& 0x00800000 ≠ 0 then nCompact >>> 8 ||| UInt32.ofNat (nSize + 1) <<< 24
  else nCompact ||| UInt32.ofNat nSize <<< 24

end Rcpu.ArithUint256
