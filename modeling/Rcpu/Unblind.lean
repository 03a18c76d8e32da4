import Rcpu.Blind
import Rcpu.Solver

/-!
# Unblinding outputs

The receiving side of `blind.cpp`.  The first byte of the nonce of an output tells how the nonce of
its range proof is found: it is the rest of the field (path A), or the shared secret of an ephemeral
key and the key of the recipient (path B), or that secret expanded together with the script (path
C).  The range proof rewound with that nonce gives back amount and blinding factor.
-/

namespace Rcpu.Unblind

open ByteStream Serialize Confidential Transaction ConfidentialValidation Script Solver Blind

structure UnblindEnv (𝔾 : Type) extends BlindEnv 𝔾 where
  /-- `secp256k1_rangeproof_rewind` on a commitment, a proof and a nonce: value and blinding
  factor. -/
  rangeproofRewind : 𝔾 → Bytes → Uint256 → Option (Nat × Nat)
  /-- `secp256k1_ec_pubkey_parse` succeeds. -/
  pubkeyParse : Bytes → Bool
  /-- `CHMAC_SHA256` on a key and a message. -/
  hmac : Bytes → Bytes → Uint256

variable {𝔾 : Type} [AddCommGroup 𝔾] [Module Scalar 𝔾] [DecidableEq 𝔾]

/-! ### Nonces -/

def IsLegacyNonceCommit (nc : CConfidentialNonce) : Prop :=
  nc.vchCommitment.length = 33 ∧ nc.vchCommitment.head? = some 2

instance (nc : CConfidentialNonce) : Decidable (IsLegacyNonceCommit nc) :=
  inferInstanceAs (Decidable (_ ∧ _))

def IsPathCNonceCommit (nc : CConfidentialNonce) : Prop :=
  nc.vchCommitment.length = 33 ∧ nc.vchCommitment.head? = some 4

instance (nc : CConfidentialNonce) : Decidable (IsPathCNonceCommit nc) :=
  inferInstanceAs (Decidable (_ ∧ _))

/-- The plaintext nonce; a malformed commitment yields the null nonce. -/
def getNonce (nc : CConfidentialNonce) : Uint256 :=
  if h : IsLegacyNonceCommit nc then
    ⟨nc.vchCommitment.drop 1, by rw [List.length_drop, h.1]⟩
  else Uint256.null

def pathCSalt : Bytes := "rcpu-pathc-v1".toList.map fun c => UInt8.ofNat c.toNat

/-- `CHKDF_HMAC_SHA256_L32`: the pseudorandom key of some input and a salt. -/
def hkdfPrk (hmac : Bytes → Bytes → Uint256) (ikm : Uint256) (salt : Bytes) : Uint256 :=
  hmac salt ikm.bytes

def expand32 (hmac : Bytes → Bytes → Uint256) (prk : Uint256) (info : Bytes) : Uint256 :=
  hmac prk.bytes (info ++ [1])

def deriveViewSeed (env : UnblindEnv 𝔾) (ss : Uint256) : Uint256 := env.hmac pathCSalt ss.bytes

def deriveRewindNonceFromViewSeed (env : UnblindEnv 𝔾) (viewSeed : Uint256)
    (scriptPubKey : CScript) : Option Uint256 :=
  (buildPathCInfo scriptPubKey).map fun info => env.hmac viewSeed.bytes (info ++ [1])

/-- The first of the two points with the given X coordinate that parses. -/
def reconstructPathCEphemeral (env : UnblindEnv 𝔾) (nc : CConfidentialNonce) : Option Bytes :=
  if IsPathCNonceCommit nc then
    [2, 3].findSome? fun parity =>
      let ser := parity :: nc.vchCommitment.drop 1
      if env.pubkeyParse ser ∧ validSize ser then some ser else none
  else none

/-! ### Unblinding -/

def rewindValue (env : UnblindEnv 𝔾) (confValue : CConfidentialValue) (rangeproof : Bytes)
    (nonce : Uint256) : Option (Int × Nat) := do
  let commit ← env.commitmentParse confValue.vchCommitment
  let (value, blind) ← env.rangeproofRewind commit rangeproof nonce
  return (toInt64 value, blind)

def unblindValue (env : UnblindEnv 𝔾) (confValue : CConfidentialValue)
    (nonceCommit : CConfidentialNonce) (rangeproof : Bytes) : Option (Int × Nat) :=
  if ¬ confValue.IsCommitment ∨ ¬ IsLegacyNonceCommit nonceCommit ∨ rangeproof = [] then none
  else rewindValue env confValue rangeproof (getNonce nonceCommit)

def unblindValueWithKey (env : UnblindEnv 𝔾) (blindingKey : Bytes) (confValue : CConfidentialValue)
    (nonceCommit : CConfidentialNonce) (rangeproof : Bytes) : Option (Int × Nat) :=
  if ¬ confValue.IsCommitment ∨ nonceCommit.vchCommitment.length ≠ 33 ∨ rangeproof = [] then none
  else do
    let nonce ← env.computeECDHNonce blindingKey nonceCommit.vchCommitment
    rewindValue env confValue rangeproof nonce

def pathCNonce (env : UnblindEnv 𝔾) (blindingKey : Bytes) (nonceCommit : CConfidentialNonce)
    (scriptPubKey : CScript) : Option Uint256 := do
  let ephemeralPub ← reconstructPathCEphemeral env nonceCommit
  let ss ← env.computeECDHNonce blindingKey ephemeralPub
  derivePathCNonce env.toBlindEnv ss scriptPubKey

def unblindValueWithKeyV2 (env : UnblindEnv 𝔾) (blindingKey : Bytes)
    (confValue : CConfidentialValue) (nonceCommit : CConfidentialNonce) (rangeproof : Bytes)
    (scriptPubKey : CScript) : Option (Int × Nat) :=
  if ¬ confValue.IsCommitment ∨ nonceCommit.vchCommitment.length ≠ 33 ∨ rangeproof = [] then none
  else
    match nonceCommit.vchCommitment.head? with
    | some 2 => unblindValue env confValue nonceCommit rangeproof
    | some 3 => unblindValueWithKey env blindingKey confValue nonceCommit rangeproof
    | some 4 => do
      let nonce ← pathCNonce env blindingKey nonceCommit scriptPubKey
      rewindValue env confValue rangeproof nonce
    | _ => none

/-! ### Blinding to a recipient -/

structure BlindedValue where
  confValue : CConfidentialValue
  nonceCommit : CConfidentialNonce
  rangeproof : Bytes
  blind : Nat
deriving DecidableEq, Repr

def commitAmount (env : UnblindEnv 𝔾) (blind : Nat) (nonce : Uint256) (amount : Int)
    (nonceCommit : CConfidentialNonce) : Option BlindedValue := do
  let commit ← env.pedersenCommit blind amount.toNat
  let rangeproof ← env.rangeproofSign commit blind nonce amount.toNat
  return ⟨⟨env.commitmentSerialize commit⟩, nonceCommit, rangeproof, blind⟩

/-- An ephemeral key that the drawing loop of path B keeps. -/
def OddKey (env : UnblindEnv 𝔾) : Type :=
  { key : Bytes // (env.getPubKey key).length = 33 ∧ (env.getPubKey key).head? ≠ some 2 }

/-- An ephemeral key that the drawing loop of path C keeps. -/
def CompressedKey (env : UnblindEnv 𝔾) : Type :=
  { key : Bytes // (env.getPubKey key).length = 33 }

/-- `BlindOutputToRecipient` with the drawn ephemeral key and blinding factor. -/
def blindOutputToRecipient (env : UnblindEnv 𝔾) (ephemeral : OddKey env) (blind : Nat)
    (amount : Int) (recipientPubkey : Bytes) : Option BlindedValue :=
  if amount < 0 ∨ ¬ MoneyRange amount ∨ ¬ validSize recipientPubkey then none
  else do
    let nonce ← env.computeECDHNonce ephemeral.val recipientPubkey
    commitAmount env blind nonce amount ⟨env.getPubKey ephemeral.val⟩

/-- `BlindOutputToRecipientV2` with the drawn ephemeral key and blinding factor. -/
def blindOutputToRecipientV2 (env : UnblindEnv 𝔾) (ephemeral : CompressedKey env) (blind : Nat)
    (amount : Int) (recipientPubkey : Bytes) (scriptPubKey : CScript) : Option BlindedValue :=
  if amount < 0 ∨ ¬ MoneyRange amount ∨ ¬ validSize recipientPubkey then none
  else do
    let ss ← env.computeECDHNonce ephemeral.val recipientPubkey
    let nonce ← derivePathCNonce env.toBlindEnv ss scriptPubKey
    commitAmount env blind nonce amount ⟨4 :: ((env.getPubKey ephemeral.val).drop 1).take 32⟩

/-! ### Sender and recipient meet -/

/-- The library as both sides need it: commitments survive their encoding, a range proof rewinds
with its nonce, compressed keys start with 2 or 3, a shared secret is the same from both sides and
for a negated point, and `HKDF` is extraction and expansion. -/
structure RecipientSecp (env : UnblindEnv 𝔾) : Prop where
  isCommitment_serialize : ∀ p ≠ 0,
    (⟨env.commitmentSerialize p⟩ : CConfidentialValue).IsCommitment
  parse_serialize : ∀ p ≠ 0, env.commitmentParse (env.commitmentSerialize p) = some p
  rewind_sign : ∀ {commit blind nonce value proof},
    env.pedersenCommit blind value = some commit →
    env.rangeproofSign commit blind nonce value = some proof →
      proof ≠ [] ∧ env.rangeproofRewind commit proof nonce = some (value, blind)
  compressed : ∀ key, (env.getPubKey key).length = 33 →
    ((env.getPubKey key).head? = some 2 ∨ (env.getPubKey key).head? = some 3) ∧
      env.pubkeyParse (env.getPubKey key) = true
  ecdh_symm : ∀ e k, env.computeECDHNonce e (env.getPubKey k) =
    env.computeECDHNonce k (env.getPubKey e)
  ecdh_neg : ∀ k x, env.computeECDHNonce k (2 :: x) = env.computeECDHNonce k (3 :: x)
  hkdf : ∀ ss info, env.hkdfExpand32 ss info =
    expand32 env.hmac (hkdfPrk env.hmac ss pathCSalt) info

section Recipient

variable {env : UnblindEnv 𝔾} (h : RecipientSecp env)

include h

theorem rewindValue_sign {commit : 𝔾} {blind : Nat} {nonce : Uint256} {amount : Int}
    {proof : Bytes} (hrange : MoneyRange amount)
    (hcommit : env.pedersenCommit blind amount.toNat = some commit)
    (hproof : env.rangeproofSign commit blind nonce amount.toNat = some proof) :
    (⟨env.commitmentSerialize commit⟩ : CConfidentialValue).IsCommitment ∧ proof ≠ [] ∧
      rewindValue env ⟨env.commitmentSerialize commit⟩ proof nonce = some (amount, blind) := by
  have hne : commit ≠ 0 := ((pedersenCommit_eq_some _).mp hcommit).2.2
  obtain ⟨hnil, hrewind⟩ := h.rewind_sign hcommit hproof
  refine ⟨h.isCommitment_serialize commit hne, hnil, ?_⟩
  have hvalue : toInt64 amount.toNat = amount := by
    unfold MoneyRange MAX_MONEY COIN at hrange
    unfold toInt64
    omega
  simp [rewindValue, h.parse_serialize commit hne, hrewind, hvalue]

theorem unblind_pathB {e k : Bytes} {nonce : Uint256} {confValue : CConfidentialValue}
    {proof : Bytes} (scriptPubKey : CScript) (hvalue : confValue.IsCommitment) (hproof : proof ≠ [])
    (hsize : (env.getPubKey e).length = 33) (hodd : (env.getPubKey e).head? ≠ some 2)
    (hnonce : env.computeECDHNonce e (env.getPubKey k) = some nonce) :
    unblindValueWithKeyV2 env k confValue ⟨env.getPubKey e⟩ proof scriptPubKey =
      rewindValue env confValue proof nonce := by
  have hhead := ((h.compressed e hsize).1).resolve_left hodd
  rw [h.ecdh_symm] at hnonce
  simp [unblindValueWithKeyV2, unblindValueWithKey, hvalue, hproof, hsize, hhead, hnonce]

/-- Either point with the transmitted X coordinate gives the shared secret. -/
theorem exists_reconstructPathCEphemeral {e : Bytes} (hsize : (env.getPubKey e).length = 33) :
    ∃ pub, reconstructPathCEphemeral env ⟨4 :: ((env.getPubKey e).drop 1).take 32⟩ = some pub ∧
      ∀ k, env.computeECDHNonce k pub = env.computeECDHNonce k (env.getPubKey e) := by
  obtain ⟨hhead, hparse⟩ := h.compressed e hsize
  cases hpub : env.getPubKey e with
  | nil => simp [hpub] at hsize
  | cons parity x =>
    have hx : x.length = 32 := by simpa [hpub] using hsize
    have hvalid : ∀ q : UInt8, q = 2 ∨ q = 3 → validSize (q :: x) = true := by
      rintro q (rfl | rfl) <;> simp [validSize, getLen, hx]
    have hsame : ∀ q : UInt8, q = 2 ∨ q = 3 → ∀ k,
        env.computeECDHNonce k (q :: x) = env.computeECDHNonce k (parity :: x) := by
      intro q hq k
      rw [hpub, List.head?_cons, Option.some.injEq, Option.some.injEq] at hhead
      rcases hq with rfl | rfl <;> rcases hhead with rfl | rfl <;>
        simp only [h.ecdh_neg]
    have hshape : IsPathCNonceCommit ⟨4 :: x⟩ := ⟨by simp [hx], rfl⟩
    have htake : ((parity :: x).drop 1).take 32 = x := by simp [← hx]
    rw [htake, reconstructPathCEphemeral, if_pos hshape]
    by_cases heven : env.pubkeyParse (2 :: x) = true
    · exact ⟨2 :: x, by simp [heven, hvalid 2 (.inl rfl)], hsame 2 (.inl rfl)⟩
    · have hodd : env.pubkeyParse (3 :: x) = true := by
        rw [hpub, List.head?_cons, Option.some.injEq, Option.some.injEq] at hhead
        rw [hpub] at hparse
        rcases hhead with rfl | rfl
        · exact absurd hparse heven
        · exact hparse
      exact ⟨3 :: x, by simp [heven, hodd, hvalid 3 (.inr rfl)], hsame 3 (.inr rfl)⟩

theorem unblind_pathC {e k : Bytes} {ss nonce : Uint256} {confValue : CConfidentialValue}
    {proof : Bytes} {scriptPubKey : CScript} (hvalue : confValue.IsCommitment) (hproof : proof ≠ [])
    (hsize : (env.getPubKey e).length = 33)
    (hss : env.computeECDHNonce e (env.getPubKey k) = some ss)
    (hnonce : derivePathCNonce env.toBlindEnv ss scriptPubKey = some nonce) :
    unblindValueWithKeyV2 env k confValue ⟨4 :: ((env.getPubKey e).drop 1).take 32⟩ proof
      scriptPubKey = rewindValue env confValue proof nonce := by
  obtain ⟨pub, hpub, hsecret⟩ := exists_reconstructPathCEphemeral h hsize
  have hfound : pathCNonce env k ⟨4 :: ((env.getPubKey e).drop 1).take 32⟩ scriptPubKey =
      some nonce := by
    rw [pathCNonce, hpub, Option.bind_eq_bind, Option.bind_some, hsecret, ← h.ecdh_symm e k, hss]
    exact hnonce
  unfold unblindValueWithKeyV2
  rw [if_neg (by simp [hvalue, hproof, hsize]), List.head?_cons, hfound]
  rfl

omit h in
theorem commitAmount_eq_some {blind : Nat} {nonce : Uint256} {amount : Int}
    {nonceCommit : CConfidentialNonce} {result : BlindedValue}
    (hresult : commitAmount env blind nonce amount nonceCommit = some result) :
    ∃ commit proof, env.pedersenCommit blind amount.toNat = some commit ∧
      env.rangeproofSign commit blind nonce amount.toNat = some proof ∧
      result = ⟨⟨env.commitmentSerialize commit⟩, nonceCommit, proof, blind⟩ := by
  simp only [commitAmount, Option.bind_eq_bind, Option.bind_eq_some_iff, Option.pure_def,
    Option.some.injEq] at hresult
  obtain ⟨commit, hcommit, proof, hproof, rfl⟩ := hresult
  exact ⟨commit, proof, hcommit, hproof, rfl⟩

theorem unblind_blindOutputToRecipient {k : Bytes} {ephemeral : OddKey env} {blind : Nat}
    {amount : Int} {result : BlindedValue} (scriptPubKey : CScript)
    (hresult : blindOutputToRecipient env ephemeral blind amount (env.getPubKey k) = some result) :
    unblindValueWithKeyV2 env k result.confValue result.nonceCommit result.rangeproof scriptPubKey =
      some (amount, result.blind) := by
  unfold blindOutputToRecipient at hresult
  split_ifs at hresult with hcheck
  push Not at hcheck
  obtain ⟨nonce, hnonce, hresult⟩ := Option.bind_eq_some_iff.mp hresult
  obtain ⟨commit, proof, hcommit, hproof, rfl⟩ := commitAmount_eq_some hresult
  obtain ⟨hvalue, hnil, hrewind⟩ := rewindValue_sign h hcheck.2.1 hcommit hproof
  exact (unblind_pathB h scriptPubKey hvalue hnil ephemeral.2.1 ephemeral.2.2 hnonce).trans hrewind

theorem unblind_blindOutputToRecipientV2 {k : Bytes} {ephemeral : CompressedKey env} {blind : Nat}
    {amount : Int} {result : BlindedValue} {scriptPubKey : CScript}
    (hresult : blindOutputToRecipientV2 env ephemeral blind amount (env.getPubKey k) scriptPubKey =
      some result) :
    unblindValueWithKeyV2 env k result.confValue result.nonceCommit result.rangeproof scriptPubKey =
      some (amount, result.blind) := by
  unfold blindOutputToRecipientV2 at hresult
  split_ifs at hresult with hcheck
  push Not at hcheck
  obtain ⟨ss, hss, hresult⟩ := Option.bind_eq_some_iff.mp hresult
  obtain ⟨nonce, hnonce, hresult⟩ := Option.bind_eq_some_iff.mp hresult
  obtain ⟨commit, proof, hcommit, hproof, rfl⟩ := commitAmount_eq_some hresult
  obtain ⟨hvalue, hnil, hrewind⟩ := rewindValue_sign h hcheck.2.1 hcommit hproof
  exact (unblind_pathC h hvalue hnil ephemeral.2 hss hnonce).trans hrewind

theorem unblind_blindOutput {rand : BlindRandom env.getPubKey} {k : Bytes} {usePathC : Bool}
    {blind : Nat} {entry : CTxOut × Nat} {out : CTxOut} {stored : Uint256}
    (hout : blindOutput env.toBlindEnv rand (some (env.getPubKey k)) usePathC blind entry =
      some (out, stored)) :
    unblindValueWithKeyV2 env k out.nValue out.nNonce out.vchRangeproof entry.1.scriptPubKey =
      some (entry.1.nValue.getAmount, blind) := by
  obtain ⟨hrange, commit, nonce, nNonce, proof, hnonce, hcommit, hproof, rfl⟩ :=
    blindOutput_eq_some hout
  obtain ⟨hvalue, hnil, hrewind⟩ := rewindValue_sign h hrange hcommit hproof
  simp only [outputNonce, Option.bind_eq_bind, Option.bind_eq_some_iff] at hnonce
  obtain ⟨ss, hss, hnonce⟩ := hnonce
  cases usePathC with
  | false =>
    simp only [Bool.false_eq_true, if_false, Option.pure_def, Option.some.injEq,
      Prod.mk.injEq] at hnonce
    obtain ⟨rfl, rfl, -⟩ := hnonce
    exact (unblind_pathB h _ hvalue hnil (rand.size_ephemeral false entry.2)
      (rand.odd_ephemeral entry.2) hss).trans hrewind
  | true =>
    simp only [if_true, Option.bind_eq_some_iff, Option.pure_def, Option.some.injEq,
      Prod.mk.injEq] at hnonce
    obtain ⟨nonce', hnonce', rfl, rfl, -⟩ := hnonce
    exact (unblind_pathC h hvalue hnil (rand.size_ephemeral true entry.2) hss hnonce').trans hrewind

theorem unblind_blindTransaction {rand : BlindRandom env.getPubKey} {k : Bytes}
    {inputBlinds : List Nat} {tx : CTransaction} {recipientKeys : List (Option Bytes)}
    {explicitOutputs : Option (List Bool)} {usePathC : Bool} {result : Blinded}
    (hresult : blindTransaction env.toBlindEnv rand inputBlinds tx recipientKeys explicitOutputs
      usePathC = some result) {i : Nat} {out : CTxOut} (hout : tx.vout[i]? = some out)
    (hblinded : isBlinded explicitOutputs (out, i) = true)
    (hkey : recipientKeys.getD i none = some (env.getPubKey k)) :
    ∃ out' blind, result.tx.vout[i]? = some out' ∧ result.outputBlinds[i]? = some blind ∧
      unblindValueWithKeyV2 env k out'.nValue out'.nNonce out'.vchRangeproof out.scriptPubKey =
        some (out.nValue.getAmount, blind) := by
  obtain ⟨blind, -, houts, hblinds, -⟩ := blindTransaction_eq_some hresult
  obtain ⟨hlength, hall⟩ := List.forall₂_iff_get.mp houts
  obtain ⟨hi, rfl⟩ := List.getElem?_eq_some_iff.mp hout
  have hi' : i < result.tx.vout.length := by
    rw [← hlength, List.length_zipIdx]
    exact hi
  have hentry := hall i (by simpa using hi) hi'
  simp only [List.get_eq_getElem, List.getElem_zipIdx, zero_add] at hentry
  rw [BlindedAs, if_pos hblinded, hkey] at hentry
  obtain ⟨stored, hstored⟩ := hentry
  have hfactor : result.outputBlinds[i]? = some (blind i) := by simp [hblinds, hi, hblinded]
  have hopen := unblind_blindOutput h hstored
  exact ⟨result.tx.vout[i], blind i, List.getElem?_eq_getElem hi', hfactor, hopen⟩

theorem deriveRewindNonce_viewSeed (ss : Uint256) (scriptPubKey : CScript) :
    deriveRewindNonceFromViewSeed env (deriveViewSeed env ss) scriptPubKey =
      derivePathCNonce env.toBlindEnv ss scriptPubKey := by
  unfold deriveRewindNonceFromViewSeed derivePathCNonce
  apply Option.map_congr
  intro info _
  rw [h.hkdf]
  rfl

end Recipient

omit [AddCommGroup 𝔾] [Module Scalar 𝔾] [DecidableEq 𝔾] in
theorem derivePathCNonce_eq_none {env : BlindEnv 𝔾} {ss : Uint256} {scriptPubKey : CScript} :
    derivePathCNonce env ss scriptPubKey = none ↔ 119 < scriptPubKey.length := by
  unfold derivePathCNonce buildPathCInfo
  split_ifs with hlong
  · simpa using hlong
  · simpa using hlong

def ofNat256 (n : Nat) : Uint256 := ⟨beBytes 32 n, length_beBytes 32 n⟩

def toyHmac (key msg : Bytes) : Uint256 := ofNat256 (ofBeBytes key + 3 * ofBeBytes msg)

def toyPubkeyParse (pub : Bytes) : Bool :=
  pub.length = 33 ∧ (pub.head? = some 2 ∨ pub.head? = some 3)

def exchangeEnv : UnblindEnv Scalar where
  toBlindEnv := { scalarEnv with
    rangeproofSign := fun _ blind nonce value =>
      if value < 2 ^ 64 then some (beBytes 8 value ++ beBytes 32 blind ++ nonce.bytes) else none
    getPubKey := fun key => 3 :: beBytes 32 (ofBeBytes key % scalarOrder)
    computeECDHNonce := fun key pub =>
      if toyPubkeyParse pub then
        some (ofNat256 (ofBeBytes key % scalarOrder * ofBeBytes (pub.drop 1) % scalarOrder))
      else none
    hkdfExpand32 := fun ss info => expand32 toyHmac (hkdfPrk toyHmac ss pathCSalt) info }
  rangeproofRewind _ proof nonce :=
    if proof.drop 40 = nonce.bytes then
      some (ofBeBytes (proof.take 8), ofBeBytes ((proof.drop 8).take 32))
    else none
  pubkeyParse := toyPubkeyParse
  hmac := toyHmac

theorem recipientSecp_exchangeEnv : RecipientSecp exchangeEnv where
  isCommitment_serialize := completeSecp_scalarEnv.isCommitment_serialize
  parse_serialize := completeSecp_scalarEnv.parse_serialize
  rewind_sign := by
    intro commit blind nonce value proof hcommit hproof
    obtain ⟨hblind, -⟩ := (pedersenCommit_eq_some _).mp hcommit
    simp only [exchangeEnv] at hproof
    split_ifs at hproof with hvalue
    simp only [Option.some.injEq] at hproof
    subst hproof
    have hvalue' : ofBeBytes (beBytes 8 value) = value := ofBeBytes_beBytes_of_lt hvalue
    have hblind' : ofBeBytes (beBytes 32 blind) = blind :=
      ofBeBytes_beBytes_of_lt (hblind.trans (by decide))
    constructor
    · intro hnil
      simpa using congrArg List.length hnil
    · simp [exchangeEnv, List.drop_append, hvalue', hblind']
  compressed key _ := by simp [exchangeEnv, toyPubkeyParse]
  ecdh_symm e k := by
    have hkey : ∀ n : Nat, ofBeBytes (beBytes 32 (n % scalarOrder)) = n % scalarOrder := by
      intro n
      exact ofBeBytes_beBytes_of_lt ((Nat.mod_lt n (by decide)).trans (by decide))
    have hparse : ∀ n : Nat, toyPubkeyParse (3 :: beBytes 32 n) = true := by
      intro n
      simp [toyPubkeyParse]
    simp only [exchangeEnv, hparse, if_true, List.drop_one, List.tail_cons, hkey]
    rw [Nat.mul_comm]
  ecdh_neg k x := by simp [exchangeEnv, toyPubkeyParse]
  hkdf ss info := rfl

def exchangeRandom : BlindRandom exchangeEnv.getPubKey where
  blind i := i + 20
  nonce _ := Uint256.null
  ephemeral _ _ := [9]
  size_ephemeral _ _ := by decide
  odd_ephemeral _ := by decide

end Rcpu.Unblind
