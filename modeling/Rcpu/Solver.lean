import Rcpu.Script

/-!
# Destinations of scripts

`Solver` of `script/solver.cpp` and `ExtractDestination` of `addresstype.cpp`.  Data carriers, bare
multisig scripts and nonstandard scripts have no destination and are not told apart.
-/

namespace Rcpu.Solver

open ByteStream Transaction Script

def getLen (chHeader : UInt8) : Nat :=
  if chHeader = 2 ∨ chHeader = 3 then 33
  else if chHeader = 4 ∨ chHeader = 6 ∨ chHeader = 7 then 65
  else 0

/-- `CPubKey::ValidSize`; a `CPubKey` with these bytes is `IsValid` in just this case. -/
def validSize : Bytes → Bool
  | [] => false
  | chHeader :: rest => getLen chHeader = rest.length + 1

inductive CTxDestination where
  | CNoDestination (script : CScript)
  | PubKeyDestination (pubKey : Bytes)
  | PKHash (hash : Bytes)
  | ScriptHash (hash : Bytes)
  | WitnessV0KeyHash (hash : Bytes)
  | WitnessV0ScriptHash (hash : Bytes)
  | WitnessV1Taproot (outputKey : Bytes)
  | WitnessUnknown (version : Nat) (program : Bytes)
deriving DecidableEq, Repr

open CTxDestination

/-- A push of a public key of the given size and `OP_CHECKSIG`. -/
def matchPubkeyOfSize (size : Nat) (script : CScript) : Option Bytes :=
  if script.length = size + 2 ∧ script.head? = some (UInt8.ofNat size) ∧
      script.getLast? = some OP_CHECKSIG then
    let pubkey := (script.drop 1).take size
    if validSize pubkey then some pubkey else none
  else none

def matchPayToPubkey (script : CScript) : Option Bytes :=
  (matchPubkeyOfSize 65 script).orElse fun _ => matchPubkeyOfSize 33 script

def matchPayToPubkeyHash (script : CScript) : Option Bytes :=
  if script.length = 25 ∧ script.take 3 = [OP_DUP, OP_HASH160, 20] ∧
      script.drop 23 = [OP_EQUALVERIFY, OP_CHECKSIG] then some ((script.drop 3).take 20)
  else none

def IsPayToScriptHash (script : CScript) : Prop :=
  script.length = 23 ∧ script.take 2 = [OP_HASH160, 20] ∧ script.getLast? = some OP_EQUAL

instance (script : CScript) : Decidable (IsPayToScriptHash script) :=
  inferInstanceAs (Decidable (_ ∧ _))

def decodeOpN (opcode : UInt8) : Nat := if opcode = OP_0 then 0 else opcode.toNat - 0x50

def witnessDestination (script : CScript) (version : Nat) (program : Bytes) :
    Bool × CTxDestination :=
  if version = 0 ∧ program.length = 20 then (true, WitnessV0KeyHash program)
  else if version = 0 ∧ program.length = 32 then (true, WitnessV0ScriptHash program)
  else if version = 1 ∧ program.length = 32 then (true, WitnessV1Taproot program)
  else if version ≠ 0 then (true, WitnessUnknown version program)
  else (false, CNoDestination script)

/-- `ExtractDestination`: whether the script has an address, and the destination that is filled in;
a bare public key is filled in although it has no address. -/
def extractDestination (script : CScript) : Bool × CTxDestination :=
  if IsPayToScriptHash script then (true, ScriptHash ((script.drop 2).take 20))
  else if IsWitnessProgram script then
    witnessDestination script (decodeOpN (script.headD 0)) (script.drop 2)
  else
    match matchPayToPubkey script with
    | some pubKey =>
      (false, if validSize pubKey then PubKeyDestination pubKey else CNoDestination script)
    | none =>
      match matchPayToPubkeyHash script with
      | some hash => (true, PKHash hash)
      | none => (false, CNoDestination script)

/-- A bare public key and a script without a destination have no address. -/
def hasAddress : CTxDestination → Bool
  | CNoDestination _ => false
  | PubKeyDestination _ => false
  | _ => true

theorem extractDestination_fst (script : CScript) :
    (extractDestination script).1 = hasAddress (extractDestination script).2 := by
  unfold extractDestination witnessDestination
  split_ifs <;> try rfl
  cases matchPayToPubkey script with
  | some pubKey =>
    dsimp only
    split_ifs <;> rfl
  | none => cases matchPayToPubkeyHash script <;> rfl

end Rcpu.Solver
