import Rcpu.Script
import Rcpu.TxCheck

/-!
# Fee rates and dust

`policy/feerate.cpp` and the dust rule of `policy/policy.cpp`.  Rates are configured and estimated
as non-negative numbers of satoshis per 1000 bytes.
-/

namespace Rcpu.Policy

open Transaction TxCheck Script

structure CFeeRate where
  nSatoshisPerK : Nat
deriving DecidableEq, Repr

/-- The fee for a size, rounded up; it is zero for a zero rate or size only, so that the
correction to one satoshi of the source never applies. -/
def CFeeRate.getFee (rate : CFeeRate) (numBytes : Nat) : Int :=
  ((rate.nSatoshisPerK * numBytes + 999) / 1000 : Nat)

theorem CFeeRate.getFee_nonneg (rate : CFeeRate) (numBytes : Nat) : 0 ≤ rate.getFee numBytes :=
  Int.natCast_nonneg _

def MAX_STANDARD_TX_WEIGHT : Nat := 400000

/-- Below the fee for creating and spending it, with the size of the plaintext output and of an
input with a signature and a public key. -/
def getDustThreshold (txout : CTxOut) (dustRelayFee : CFeeRate) : Int :=
  if IsUnspendable txout.scriptPubKey then 0
  else dustRelayFee.getFee ((txout.serialize false).length +
    if IsWitnessProgram txout.scriptPubKey then 32 + 4 + 1 + 107 / WITNESS_SCALE_FACTOR + 4
    else 32 + 4 + 1 + 107 + 4)

theorem getDustThreshold_nonneg (txout : CTxOut) (dustRelayFee : CFeeRate) :
    0 ≤ getDustThreshold txout dustRelayFee := by
  unfold getDustThreshold
  split_ifs
  · exact le_rfl
  · exact dustRelayFee.getFee_nonneg _
  · exact dustRelayFee.getFee_nonneg _

def IsDust (txout : CTxOut) (dustRelayFee : CFeeRate) : Prop :=
  txout.nValue.getAmount < getDustThreshold txout dustRelayFee

instance (txout : CTxOut) (rate : CFeeRate) : Decidable (IsDust txout rate) :=
  inferInstanceAs (Decidable (_ < _))

end Rcpu.Policy
