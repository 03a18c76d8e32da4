import Rcpu.TxVerify
import Rcpu.Unblind

/-!
# Unblinding in the wallet

`wallet/receive.cpp` unblinds outputs of the wallet in two places: `UnblindWalletOutput`, and
`UnblindConfidentialOutput`, from which balances, history and spending take their amounts.  Both
dispatch on the shape of the nonce, the kind of script and the kind of key manager.
-/

namespace Rcpu.WalletReceive

open ByteStream Confidential Transaction Coins ConfidentialValidation TxVerify Script Solver
  Solver.CTxDestination Blind Unblind

/-! ### Key managers -/

/-- The private keys of a manager: `LegacyScriptPubKeyMan` looks them up by key id,
`DescriptorScriptPubKeyMan` by script.  Both return valid keys only. -/
inductive ScriptPubKeyMan where
  | legacy (getKey : Bytes → Option Bytes)
  | descriptor (getPrivKey : CScript → Option Bytes)

def ScriptPubKeyMan.privateKey (script : CScript) (keyid : Bytes) : ScriptPubKeyMan → Option Bytes
  | .legacy getKey => getKey keyid
  | .descriptor getPrivKey => getPrivKey script

/-- `LegacySigningProvider::GetKey`, which never gives out a private key. -/
def legacyProviderGetKey (_keyid : Bytes) : Option Bytes := none

/-- `SigningProvider::GetKeyByXOnly` of the provider of a legacy manager. -/
def legacyProviderGetKeyByXOnly (hash160 : Bytes → Bytes) (outputKey : Bytes) : Option Bytes :=
  [2, 3].findSome? fun parity => legacyProviderGetKey (hash160 (parity :: outputKey))

def keyIdOf (hash160 : Bytes → Bytes) : CTxDestination → Option Bytes
  | PubKeyDestination pubKey => some (hash160 pubKey)
  | PKHash hash => some hash
  | WitnessV0KeyHash hash => some hash
  | _ => none

/-- A wallet by the managers of each script.  A key id names one private key, so the managers that
hold the key of a script to one key hold the same. -/
structure CWallet (hash160 : Bytes → Bytes) where
  getScriptPubKeyMans : CScript → List ScriptPubKeyMan
  same_key : ∀ {script keyid}, keyIdOf hash160 (extractDestination script).2 = some keyid →
    ∀ man ∈ getScriptPubKeyMans script, ∀ man' ∈ getScriptPubKeyMans script, ∀ {key key'},
      man.privateKey script keyid = some key → man'.privateKey script keyid = some key' → key = key'

section Code

variable {𝔾 : Type} {hash160 : Bytes → Bytes}

/-- The key of a taproot output, which both routines resolve alike. -/
def taprootKey (wallet : CWallet hash160) (script : CScript) (outputKey : Bytes) : Option Bytes :=
  (wallet.getScriptPubKeyMans script).findSome? fun
    | .descriptor getPrivKey => getPrivKey script
    | .legacy _ => legacyProviderGetKeyByXOnly hash160 outputKey

/-- The key `UnblindWalletOutput` resolves for a script. -/
def walletKey (wallet : CWallet hash160) (script : CScript) : Option Bytes :=
  let find := fun keyid =>
    (wallet.getScriptPubKeyMans script).findSome? (ScriptPubKeyMan.privateKey script keyid)
  match (extractDestination script).2 with
  | PubKeyDestination pubKey => find (hash160 pubKey)
  | PKHash hash => find hash
  | WitnessV0KeyHash hash => find hash
  | WitnessV1Taproot outputKey => taprootKey wallet script outputKey
  | _ => none

/-- The key `UnblindConfidentialOutput` resolves for a script. -/
def confidentialKey (wallet : CWallet hash160) (script : CScript) : Option Bytes :=
  let find := fun keyid => (wallet.getScriptPubKeyMans script).findSome? fun
    | .descriptor getPrivKey => getPrivKey script
    | .legacy _ => legacyProviderGetKey keyid
  let (extracted, dest) := extractDestination script
  if ¬ extracted then none
  else
    match dest with
    | PubKeyDestination pubKey => find (hash160 pubKey)
    | PKHash hash => find hash
    | WitnessV0KeyHash hash => find hash
    | WitnessV1Taproot outputKey => taprootKey wallet script outputKey
    | _ => none

/-- An output opened with the key of its script: path C by its mark, otherwise path B. -/
def unblindWithKey (env : UnblindEnv 𝔾) (key : Bytes) (txout : CTxOut) : Option (Int × Nat) :=
  if IsPathCNonceCommit txout.nNonce then
    unblindValueWithKeyV2 env key txout.nValue txout.nNonce txout.vchRangeproof txout.scriptPubKey
  else unblindValueWithKey env key txout.nValue txout.nNonce txout.vchRangeproof

/-- A nonce that needs the key of the recipient. -/
def IsKeyedNonce (nc : CConfidentialNonce) : Prop :=
  nc.vchCommitment.length = 33 ∧ (nc.vchCommitment.head? = some 3 ∨ nc.vchCommitment.head? = some 4)

instance (nc : CConfidentialNonce) : Decidable (IsKeyedNonce nc) :=
  inferInstanceAs (Decidable (_ ∧ _))

def unblindWalletOutput (env : UnblindEnv 𝔾) (wallet : CWallet hash160) (txout : CTxOut) :
    Option (Int × Nat) :=
  if txout.nValue.IsExplicit then some (txout.nValue.getAmount, 0)
  else if IsLegacyNonceCommit txout.nNonce then
    unblindValue env txout.nValue txout.nNonce txout.vchRangeproof
  else if IsKeyedNonce txout.nNonce then do
    let key ← walletKey wallet txout.scriptPubKey
    unblindWithKey env key txout
  else none

def unblindConfidentialOutput (env : UnblindEnv 𝔾) (wallet : CWallet hash160) (txout : CTxOut) :
    Option (Int × Nat) :=
  if txout.nValue.IsExplicit then some (txout.nValue.getAmount, 0)
  else
    match unblindValue env txout.nValue txout.nNonce txout.vchRangeproof with
    | some result => some result
    | none => do
      let key ← confidentialKey wallet txout.scriptPubKey
      unblindWithKey env key txout

end Code

/-! ### The keys that are found -/

section Keys

variable {hash160 : Bytes → Bytes} (wallet : CWallet hash160) (script : CScript)

def descriptorKey : Option Bytes :=
  (wallet.getScriptPubKeyMans script).findSome? fun
    | .descriptor getPrivKey => getPrivKey script
    | .legacy _ => none

/-- The destinations with an address and a single key. -/
def IsKeyAddress : CTxDestination → Bool
  | PKHash _ => true
  | WitnessV0KeyHash _ => true
  | WitnessV1Taproot _ => true
  | _ => false

/-- `UnblindConfidentialOutput` finds the keys of descriptor managers only. -/
theorem confidentialKey_eq :
    confidentialKey wallet script =
      if IsKeyAddress (extractDestination script).2 then descriptorKey wallet script else none := by
  unfold confidentialKey
  have hextracted := extractDestination_fst script
  generalize extractDestination script = result at hextracted ⊢
  obtain ⟨extracted, dest⟩ := result
  dsimp only at hextracted ⊢
  subst hextracted
  cases dest <;> rfl

theorem walletKey_of_keyId {keyid : Bytes}
    (hid : keyIdOf hash160 (extractDestination script).2 = some keyid) :
    walletKey wallet script =
      (wallet.getScriptPubKeyMans script).findSome? (ScriptPubKeyMan.privateKey script keyid) := by
  unfold walletKey
  cases hdest : (extractDestination script).2 with
  | PubKeyDestination | PKHash | WitnessV0KeyHash =>
    rw [hdest] at hid
    obtain rfl := Option.some.inj hid
    rfl
  | CNoDestination | ScriptHash | WitnessV0ScriptHash | WitnessV1Taproot | WitnessUnknown =>
    rw [hdest] at hid
    cases hid

theorem walletKey_of_keyId_eq_none (hid : keyIdOf hash160 (extractDestination script).2 = none) :
    walletKey wallet script = confidentialKey wallet script := by
  rw [confidentialKey_eq]
  unfold walletKey
  cases hdest : (extractDestination script).2 with
  | PubKeyDestination | PKHash | WitnessV0KeyHash =>
    rw [hdest] at hid
    cases hid
  | CNoDestination | ScriptHash | WitnessV0ScriptHash | WitnessV1Taproot | WitnessUnknown => rfl

variable {wallet script}

/-- The key of a script to one key is found if some manager holds it. -/
theorem walletKey_eq_some {keyid key : Bytes}
    (hid : keyIdOf hash160 (extractDestination script).2 = some keyid) :
    walletKey wallet script = some key ↔
      ∃ man ∈ wallet.getScriptPubKeyMans script, man.privateKey script keyid = some key := by
  rw [walletKey_of_keyId wallet script hid]
  constructor
  · exact List.exists_of_findSome?_eq_some
  · rintro ⟨man, hman, hkey⟩
    cases hfound : (wallet.getScriptPubKeyMans script).findSome?
        (ScriptPubKeyMan.privateKey script keyid) with
    | none =>
      have hnone := List.findSome?_eq_none_iff.mp hfound man hman
      rw [hnone] at hkey
      cases hkey
    | some found =>
      obtain ⟨man', hman', hkey'⟩ := List.exists_of_findSome?_eq_some hfound
      rw [wallet.same_key hid man' hman' man hman hkey' hkey]

theorem walletKey_of_descriptorKey {keyid key : Bytes}
    (hid : keyIdOf hash160 (extractDestination script).2 = some keyid)
    (hkey : descriptorKey wallet script = some key) : walletKey wallet script = some key := by
  rw [walletKey_eq_some hid]
  obtain ⟨man, hman, hfound⟩ := List.exists_of_findSome?_eq_some hkey
  refine ⟨man, hman, ?_⟩
  cases man with
  | legacy getKey => cases hfound
  | descriptor getPrivKey => exact hfound

end Keys

/-! ### Where the two routines part -/

section Routines

variable {𝔾 : Type} {hash160 : Bytes → Bytes} {env : UnblindEnv 𝔾} {wallet : CWallet hash160}
  {txout : CTxOut}

/-- A manager's key opens the output, but `UnblindConfidentialOutput` does not find it: the script
is a bare public key, or no descriptor manager has the key. -/
def MissedKey (env : UnblindEnv 𝔾) (wallet : CWallet hash160) (txout : CTxOut) : Prop :=
  IsKeyedNonce txout.nNonce ∧
  ∃ keyid key, keyIdOf hash160 (extractDestination txout.scriptPubKey).2 = some keyid ∧
    (∃ man ∈ wallet.getScriptPubKeyMans txout.scriptPubKey,
      man.privateKey txout.scriptPubKey keyid = some key) ∧
    (unblindWithKey env key txout).isSome ∧
    (IsKeyAddress (extractDestination txout.scriptPubKey).2 = false ∨
      descriptorKey wallet txout.scriptPubKey = none)

/-- The nonce is marked as plaintext but only the shared secret of a key opens the output. -/
def SecretAsPlaintext (env : UnblindEnv 𝔾) (wallet : CWallet hash160) (txout : CTxOut) : Prop :=
  IsLegacyNonceCommit txout.nNonce ∧
  unblindValue env txout.nValue txout.nNonce txout.vchRangeproof = none ∧
  IsKeyAddress (extractDestination txout.scriptPubKey).2 = true ∧
  ∃ key, descriptorKey wallet txout.scriptPubKey = some key ∧
    (unblindWithKey env key txout).isSome

theorem IsKeyedNonce.not_legacy {nc : CConfidentialNonce} (h : IsKeyedNonce nc) :
    ¬ IsLegacyNonceCommit nc := by
  rintro ⟨-, hhead⟩
  have hkeyed := h.2
  rw [hhead] at hkeyed
  revert hkeyed
  decide

theorem unblindValue_of_not_legacy (h : ¬ IsLegacyNonceCommit txout.nNonce) :
    unblindValue env txout.nValue txout.nNonce txout.vchRangeproof = none :=
  if_pos (.inr (.inl h))

theorem unblindWithKey_eq_none {key : Bytes}
    (hecdh : ∀ key pub nonce, env.computeECDHNonce key pub = some nonce → pub.length = 33 →
      pub.head? = some 2 ∨ pub.head? = some 3)
    (hlegacy : ¬ IsLegacyNonceCommit txout.nNonce) (hkeyed : ¬ IsKeyedNonce txout.nNonce) :
    unblindWithKey env key txout = none := by
  have hpathC : ¬ IsPathCNonceCommit txout.nNonce := fun h => hkeyed ⟨h.1, .inr h.2⟩
  rw [unblindWithKey, if_neg hpathC, unblindValueWithKey]
  split_ifs with hshape
  · rfl
  · push Not at hshape
    cases hnonce : env.computeECDHNonce key txout.nNonce.vchCommitment with
    | none => rfl
    | some nonce =>
      rcases hecdh key _ nonce hnonce hshape.2.1 with heven | hodd
      · exact absurd ⟨hshape.2.1, heven⟩ hlegacy
      · exact absurd ⟨hshape.2.1, .inl hodd⟩ hkeyed

/-- On a nonce that needs a key the routines differ by the keys they find. -/
theorem agree_keyed_iff (hvalue : ¬ txout.nValue.IsExplicit) (hkeyed : IsKeyedNonce txout.nNonce) :
    unblindWalletOutput env wallet txout = unblindConfidentialOutput env wallet txout ↔
      ¬ MissedKey env wallet txout := by
  have hleft : unblindWalletOutput env wallet txout =
      (walletKey wallet txout.scriptPubKey).bind (unblindWithKey env · txout) := by
    rw [unblindWalletOutput, if_neg hvalue, if_neg hkeyed.not_legacy, if_pos hkeyed]
    rfl
  have hright : unblindConfidentialOutput env wallet txout =
      (confidentialKey wallet txout.scriptPubKey).bind (unblindWithKey env · txout) := by
    rw [unblindConfidentialOutput, if_neg hvalue, unblindValue_of_not_legacy hkeyed.not_legacy]
    rfl
  rw [hleft, hright]
  cases hid : keyIdOf hash160 (extractDestination txout.scriptPubKey).2 with
  | none =>
    rw [walletKey_of_keyId_eq_none wallet _ hid]
    refine iff_of_true rfl ?_
    rintro ⟨-, keyid, key, hid', -⟩
    rw [hid] at hid'
    cases hid'
  | some keyid =>
    by_cases hmiss : IsKeyAddress (extractDestination txout.scriptPubKey).2 = false ∨
        descriptorKey wallet txout.scriptPubKey = none
    · -- the second routine has no key, so the first one must not open the output
      have hnone : confidentialKey wallet txout.scriptPubKey = none := by
        rw [confidentialKey_eq]
        rcases hmiss with haddr | hkey
        · simp [haddr]
        · simp [hkey]
      rw [hnone, Option.bind_none, Option.bind_eq_none_iff]
      constructor
      · rintro hall ⟨-, keyid', key, hid', hheld, hopens, -⟩
        rw [hid, Option.some.injEq] at hid'
        subst hid'
        rw [hall key ((walletKey_eq_some hid).mpr hheld)] at hopens
        cases hopens
      · intro hnot key hkey
        by_contra hopens
        exact hnot ⟨hkeyed, keyid, key, hid, (walletKey_eq_some hid).mp hkey,
          Option.isSome_iff_ne_none.mpr hopens, hmiss⟩
    · push Not at hmiss
      obtain ⟨key, hkey⟩ := Option.ne_none_iff_exists'.mp hmiss.2
      have haddr := (Bool.not_eq_false _).mp hmiss.1
      rw [confidentialKey_eq, if_pos haddr, walletKey_of_descriptorKey hid hkey, hkey]
      refine iff_of_true rfl ?_
      rintro ⟨-, -, -, -, -, -, hmissed⟩
      exact hmissed.elim hmiss.1 hmiss.2

/-- On a plaintext nonce the second routine goes on where the first one has failed. -/
theorem agree_legacy_iff (hvalue : ¬ txout.nValue.IsExplicit)
    (hlegacy : IsLegacyNonceCommit txout.nNonce) :
    unblindWalletOutput env wallet txout = unblindConfidentialOutput env wallet txout ↔
      ¬ SecretAsPlaintext env wallet txout := by
  rw [unblindWalletOutput, unblindConfidentialOutput, if_neg hvalue, if_neg hvalue, if_pos hlegacy]
  cases hplain : unblindValue env txout.nValue txout.nNonce txout.vchRangeproof with
  | some result =>
    refine iff_of_true rfl ?_
    rintro ⟨-, hnone, -⟩
    rw [hplain] at hnone
    cases hnone
  | none =>
    dsimp only
    rw [eq_comm, Option.bind_eq_bind, Option.bind_eq_none_iff, confidentialKey_eq]
    constructor
    · rintro hall ⟨-, -, haddr, key, hkey, hopens⟩
      rw [hall key ((if_pos haddr).trans hkey)] at hopens
      cases hopens
    · intro hnot key hkey
      split_ifs at hkey with haddr
      by_contra hopens
      exact hnot ⟨hlegacy, hplain, haddr, key, hkey, Option.isSome_iff_ne_none.mpr hopens⟩

/-- **When the two unblinding routines agree** on a commitment: neither misses the other's key, nor
is a plaintext nonce taken for a public key. -/
theorem unblind_agree_iff (env : UnblindEnv 𝔾) (wallet : CWallet hash160) (txout : CTxOut)
    (hecdh : ∀ key pub nonce, env.computeECDHNonce key pub = some nonce → pub.length = 33 →
      pub.head? = some 2 ∨ pub.head? = some 3)
    (hvalue : txout.nValue.IsCommitment) :
    unblindWalletOutput env wallet txout = unblindConfidentialOutput env wallet txout ↔
      ¬ MissedKey env wallet txout ∧ ¬ SecretAsPlaintext env wallet txout := by
  have hexplicit := hvalue.not_isExplicit
  by_cases hlegacy : IsLegacyNonceCommit txout.nNonce
  · rw [agree_legacy_iff hexplicit hlegacy, iff_and_self]
    intro _ hmissed
    exact hmissed.1.not_legacy hlegacy
  · have hplain : ¬ SecretAsPlaintext env wallet txout := fun h => hlegacy h.1
    by_cases hkeyed : IsKeyedNonce txout.nNonce
    · rw [agree_keyed_iff hexplicit hkeyed]
      exact (and_iff_left hplain).symm
    · have hmissed : ¬ MissedKey env wallet txout := fun h => hkeyed h.1
      refine iff_of_true ?_ ⟨hmissed, hplain⟩
      rw [unblindWalletOutput, unblindConfidentialOutput, if_neg hexplicit, if_neg hexplicit,
        if_neg hlegacy, if_neg hkeyed, unblindValue_of_not_legacy hlegacy]
      symm
      apply Option.bind_eq_none_iff.mpr
      intro key _
      exact unblindWithKey_eq_none hecdh hlegacy hkeyed

end Routines

/-! ### Two wallets

The private key 5, once in a legacy wallet and once in a descriptor wallet. -/

def toyHash160 (pub : Bytes) : Bytes := pub.drop 13

def samplePubKey : Bytes := exchangeEnv.getPubKey [5]

def walletOf (man : ScriptPubKeyMan) : CWallet toyHash160 where
  getScriptPubKeyMans _ := [man]
  same_key := by
    intro script keyid _ man hman man' hman' key key' hkey hkey'
    rw [List.mem_singleton] at hman hman'
    subst hman hman'
    exact Option.some.inj (hkey.symm.trans hkey')

def legacyWallet : CWallet toyHash160 :=
  walletOf (.legacy fun keyid => if keyid = toyHash160 samplePubKey then some [5] else none)

def descriptorWallet : CWallet toyHash160 := walletOf (.descriptor fun _ => some [5])

/-- 1000 units blinded to the key along path B. -/
def sampleOutput (scriptPubKey : CScript) : CTxOut where
  nValue := ⟨exchangeEnv.commitmentSerialize ((1000 : Nat) + (7 : Nat) * (50 : Nat))⟩
  nNonce := ⟨exchangeEnv.getPubKey [9]⟩
  vchRangeproof := beBytes 8 1000 ++ beBytes 32 50 ++ beBytes 32 45
  scriptPubKey := scriptPubKey

def payToPubKey : CScript := 33 :: samplePubKey ++ [OP_CHECKSIG]

def payToWitnessPubKeyHash : CScript := OP_0 :: 20 :: toyHash160 samplePubKey

/-- A legacy wallet opens an output to its bare public key with one routine only. -/
theorem unblind_legacyWallet :
    unblindWalletOutput exchangeEnv legacyWallet (sampleOutput payToPubKey) = some (1000, 50) ∧
    unblindConfidentialOutput exchangeEnv legacyWallet (sampleOutput payToPubKey) = none := by
  decide +kernel

theorem ecdh_exchangeEnv (key pub : Bytes) (nonce : Uint256)
    (h : exchangeEnv.computeECDHNonce key pub = some nonce) (_ : pub.length = 33) :
    pub.head? = some 2 ∨ pub.head? = some 3 := by
  simp only [exchangeEnv] at h
  split_ifs at h with hparse
  exact (of_decide_eq_true hparse).2

/-- A descriptor wallet opens an output to the hash of its key with both. -/
theorem unblind_descriptorWallet :
    unblindWalletOutput exchangeEnv descriptorWallet (sampleOutput payToWitnessPubKeyHash) =
      unblindConfidentialOutput exchangeEnv descriptorWallet
        (sampleOutput payToWitnessPubKeyHash) ∧
    unblindConfidentialOutput exchangeEnv descriptorWallet (sampleOutput payToWitnessPubKeyHash) =
      some (1000, 50) := by
  refine ⟨?_, by decide +kernel⟩
  refine (unblind_agree_iff exchangeEnv descriptorWallet _ ecdh_exchangeEnv (by decide)).mpr ⟨?_, ?_⟩
  · rintro ⟨-, -, -, -, -, -, haddr | hkey⟩
    · revert haddr
      decide +kernel
    · cases hkey
  · rintro ⟨hlegacy, -⟩
    revert hlegacy
    decide +kernel

/-! ### Nonces that consensus accepts -/

section Consensus

variable {𝔾 : Type} [AddCommGroup 𝔾] [Module Scalar 𝔾] [DecidableEq 𝔾] {secp : Secp256k1 𝔾}
  {elementsMode : Bool} {params : ConsensusParams} {getCoin : COutPoint → Option Coin}
  {nSpendHeight : Nat} {tx : CTransaction} {fee : Int}

theorem nonceShapeOk_of_checkTxInputs
    (haccept : checkTxInputs secp elementsMode params getCoin nSpendHeight tx = .ok fee)
    (hversion : tx.fCT = true) :
    ∀ out ∈ tx.vout, NonceShapeOk nSpendHeight params.nBanPathAHeight out.nNonce := by
  intro out hmem
  obtain ⟨-, -, -, prevouts, -, hcheck⟩ := checkTxInputs_eq_ok.mp haccept
  rcases hcheck with ⟨-, -, hconf⟩ | ⟨hplain, -⟩
  · exact ((checkConfidential_eq_ok.mp hconf).1 out hmem).2
  · rw [hversion] at hplain
    cases hplain

omit [AddCommGroup 𝔾] [Module Scalar 𝔾] [DecidableEq 𝔾] in
theorem unblind_null_nonce {hash160 : Bytes → Bytes} (env : UnblindEnv 𝔾) (wallet : CWallet hash160)
    {txout : CTxOut} (hvalue : txout.nValue.IsCommitment) (hnull : txout.nNonce.IsNull) :
    unblindWalletOutput env wallet txout = none ∧
      unblindConfidentialOutput env wallet txout = none := by
  have hsize : txout.nNonce.vchCommitment.length ≠ 33 := by
    have hnil : txout.nNonce.vchCommitment = [] := hnull
    simp [hnil]
  have hlegacy : ¬ IsLegacyNonceCommit txout.nNonce := fun h => hsize h.1
  have hkeyed : ¬ IsKeyedNonce txout.nNonce := fun h => hsize h.1
  have hpathC : ¬ IsPathCNonceCommit txout.nNonce := fun h => hsize h.1
  rw [unblindWalletOutput, unblindConfidentialOutput, if_neg hvalue.not_isExplicit,
    if_neg hvalue.not_isExplicit, if_neg hlegacy, if_neg hkeyed, unblindValue_of_not_legacy hlegacy]
  refine ⟨rfl, Option.bind_eq_none_iff.mpr fun key _ => ?_⟩
  rw [unblindWithKey, if_neg hpathC]
  exact if_pos (.inr (.inl hsize))

/-- **The nonces of an accepted transaction** from `nBanPathAHeight` on: each can be opened with a
key, just when no commitment goes without a nonce. -/
theorem nonces_usable_iff (secp : Secp256k1 𝔾) (elementsMode : Bool) (params : ConsensusParams)
    (getCoin : COutPoint → Option Coin) (nSpendHeight : Nat) (tx : CTransaction) (fee : Int)
    (haccept : checkTxInputs secp elementsMode params getCoin nSpendHeight tx = .ok fee)
    (hversion : tx.fCT = true) (hheight : params.nBanPathAHeight ≤ nSpendHeight) :
    ((∀ out ∈ tx.vout, out.nValue.IsCommitment → out.nNonce.vchCommitment.length = 33 ∧
        (out.nNonce.vchCommitment.head? = some 3 ∨ out.nNonce.vchCommitment.head? = some 4)) ∧
      ∀ out ∈ tx.vout, out.nNonce.IsNull → out.nValue.IsExplicit) ↔
    ∀ out ∈ tx.vout, out.nValue.IsCommitment → ¬ out.nNonce.IsNull := by
  constructor
  · rintro ⟨-, hnull⟩ out hmem hcommit hnonce
    exact hcommit.not_isExplicit (hnull out hmem hnonce)
  · intro hnonce
    refine ⟨?_, ?_⟩
    · intro out hmem hcommit
      rcases nonceShapeOk_of_checkTxInputs haccept hversion out hmem with hearly | hnull | hshape
      · omega
      · exact absurd hnull (hnonce out hmem hcommit)
      · exact hshape
    · intro out hmem hnull
      rcases isExplicit_or_isCommitment haccept out hmem with hexplicit | hcommit
      · exact hexplicit
      · exact absurd hnull (hnonce out hmem hcommit)

end Consensus

def spentCoin : Coin :=
  .ofOut ⟨⟨scalarEnv.commitmentSerialize ((1000 : Nat) + (7 : Nat) * (50 : Nat))⟩, .null, [10],
    [OP_TRUE]⟩ 0 false

/-- 900 units of it committed to with the given nonce, and a fee. -/
def spendWithNonce (nNonce : CConfidentialNonce) : CTransaction where
  nVersion := CT_VERSION
  vin := [⟨⟨Uint256.null, 0⟩, [], 0, [], .null⟩]
  vout := [⟨⟨scalarEnv.commitmentSerialize ((900 : Nat) + (7 : Nat) * (50 : Nat))⟩, nNonce, [10],
    [OP_TRUE]⟩, .ofAmount 100 []]
  nLockTime := 0

def banParams : ConsensusParams := ⟨210000, 0, 100, Uint256.null, 0, Uint256.null⟩

/-- A commitment without a nonce is accepted, and no wallet opens it. -/
theorem null_nonce_accepted :
    checkTxInputs scalarEnv.toSecp256k1 true banParams (fun _ => some spentCoin) 200
        (spendWithNonce .null) = .ok 100 ∧
    ∃ out ∈ (spendWithNonce .null).vout, out.nValue.IsCommitment ∧ out.nNonce.IsNull ∧
      ∀ (env : UnblindEnv Scalar) (wallet : CWallet toyHash160),
        unblindWalletOutput env wallet out = none ∧ unblindConfidentialOutput env wallet out = none := by
  refine ⟨by decide +kernel, _, List.mem_cons_self, by decide, by decide, ?_⟩
  intro env wallet
  exact unblind_null_nonce env wallet (by decide) (by decide)

/-- With the nonce of a key the same spend is accepted and its commitment can be opened. -/
theorem nonces_usable_sample :
    checkTxInputs scalarEnv.toSecp256k1 true banParams (fun _ => some spentCoin) 200
        (spendWithNonce ⟨samplePubKey⟩) = .ok 100 ∧
    ∀ out ∈ (spendWithNonce ⟨samplePubKey⟩).vout, out.nNonce.IsNull → out.nValue.IsExplicit := by
  have haccept : checkTxInputs scalarEnv.toSecp256k1 true banParams (fun _ => some spentCoin) 200
      (spendWithNonce ⟨samplePubKey⟩) = .ok 100 := by decide +kernel
  have hiff := nonces_usable_iff scalarEnv.toSecp256k1 true banParams (fun _ => some spentCoin) 200
    (spendWithNonce ⟨samplePubKey⟩) 100 haccept (by decide) (by decide)
  exact ⟨haccept, (hiff.mpr (by decide)).2⟩

end Rcpu.WalletReceive
