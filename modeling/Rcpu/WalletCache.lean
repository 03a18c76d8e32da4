import Mathlib.Logic.Function.Basic
import Rcpu.WalletReceive
import Rcpu.WeightedMap

/-!
# Amounts the wallet remembers

A wallet transaction remembers what it debits and credits (`CachableAmount`, `fChangeCached`), and in
its `mapValue` the amounts of confidential outputs that need a private key to open, so that the wallet
can value them while it is locked.  This is the code of `wallet/receive.cpp` that computes and
remembers amounts, and of `wallet/wallet.cpp` that adds transactions, locks and unlocks.
-/

namespace Rcpu.WalletCache

open Checks ByteStream Confidential Transaction WeightedMap TxVerify Solver Unblind
open Rcpu.WalletReceive (ScriptPubKeyMan unblindConfidentialOutput)

/-! ### Wallet transactions -/

/-- Bit flags of `isminetype`. -/
abbrev isminefilter := BitVec 3

def ISMINE_NO : isminefilter := 0
def ISMINE_WATCH_ONLY : isminefilter := 1
def ISMINE_SPENDABLE : isminefilter := 2
def ISMINE_USED : isminefilter := 4
def ISMINE_ALL : isminefilter := ISMINE_WATCH_ONLY ||| ISMINE_SPENDABLE

/-- The heights are known once the wallet is loaded. -/
inductive TxState where
  | Confirmed (confirmed_block_hash : Uint256) (confirmed_block_height : Nat) (position_in_block : Int)
  | InMempool
  | Conflicted (conflicting_block_hash : Uint256) (conflicting_block_height : Nat)
  | Inactive (abandoned : Bool)
  | Unrecognized (block_hash : Uint256) (index : Int)
deriving DecidableEq, Repr

/-- `std::variant::index` -/
def TxState.index : TxState → Nat
  | .Confirmed _ _ _ => 0
  | .InMempool => 1
  | .Conflicted _ _ => 2
  | .Inactive _ => 3
  | .Unrecognized _ _ => 4

/-- `TxStateSerializedBlockHash` and `TxStateSerializedIndex` -/
def TxState.serialized : TxState → Uint256 × Int
  | .Confirmed hash _ position => (hash, position)
  | .InMempool => (Uint256.null, 0)
  | .Conflicted hash _ => (hash, -1)
  | .Inactive false => (Uint256.null, 0)
  | .Inactive true => (⟨leBytes 32 1, length_leBytes 32 1⟩, -1)
  | .Unrecognized hash index => (hash, index)

inductive AmountType where
  | DEBIT
  | CREDIT
  | IMMATURE_CREDIT
  | AVAILABLE_CREDIT
deriving DecidableEq, Repr

structure CWalletTx where
  tx : CTransaction
  m_state : TxState
  mapValue : Map String String
  m_amounts : AmountType → isminefilter → Option Int
  m_is_cache_empty : Bool
  nChangeCached : Option Int

namespace CWalletTx

def new (tx : CTransaction) (state : TxState) : CWalletTx := ⟨tx, state, ∅, fun _ _ => none, true, none⟩

def isAbandoned (wtx : CWalletTx) : Bool := wtx.m_state = .Inactive true

def inMempool (wtx : CWalletTx) : Bool := wtx.m_state = .InMempool

def markDirty (wtx : CWalletTx) : CWalletTx :=
  { wtx with m_amounts := fun _ _ => none, m_is_cache_empty := true, nChangeCached := none }

/-- `CachableAmount::Set` -/
def setAmount (wtx : CWalletTx) (type : AmountType) (filter : isminefilter) (value : Int) : CWalletTx :=
  { wtx with
    m_amounts := fun t f => if t = type ∧ f = filter then some value else wtx.m_amounts t f
    m_is_cache_empty := false }

end CWalletTx

/-! ### Amounts as texts -/

def ctUnblindKey (n : Nat) : String := "ct_unblind_" ++ toString n

def isSpace (c : Char) : Bool := c.toNat ∈ [32, 12, 10, 13, 9, 11]

def trimString (s : List Char) : List Char :=
  ((s.dropWhile isSpace).reverse.dropWhile isSpace).reverse

/-- `std::from_chars` into an `int64_t`, with the saturation of `LocaleIndependentAtoi`. -/
def fromChars (s : List Char) : Int :=
  let negative := s.head? = some '-'
  let digits := (if negative then s.tail else s).takeWhile Char.isDigit
  let value : Int := Nat.ofDigitChars 10 digits 0
  if negative then max (-value) (-2 ^ 63) else min value (2 ^ 63 - 1)

def localeIndependentAtoi (str : String) : Int :=
  match trimString str.toList with
  | '+' :: '-' :: _ => 0
  | '+' :: s => fromChars s
  | s => fromChars s

/-- The amount of an output that was persisted while it could be opened. -/
def CWalletTx.recorded (wtx : CWalletTx) (n : Nat) : Option Int :=
  (wtx.mapValue.lookup (ctUnblindKey n)).map localeIndependentAtoi

/-! ### The wallet -/

/-- The keys of a locked wallet: its managers know their scripts but have no private keys. -/
def lockedMan : ScriptPubKeyMan → ScriptPubKeyMan
  | .legacy _ => .legacy fun _ => none
  | .descriptor _ => .descriptor fun _ => none

theorem privateKey_lockedMan (man : ScriptPubKeyMan) (script : CScript) (keyid : Bytes) :
    (lockedMan man).privateKey script keyid = none := by
  cases man <;> rfl

def withoutKeys {hash160 : Bytes → Bytes} (keys : WalletReceive.CWallet hash160) :
    WalletReceive.CWallet hash160 where
  getScriptPubKeyMans script := (keys.getScriptPubKeyMans script).map lockedMan
  same_key := by
    intro script keyid _ man hman man' _ key key' hkey _
    obtain ⟨man, -, rfl⟩ := List.mem_map.mp hman
    rw [privateKey_lockedMan] at hkey
    cases hkey

structure CWallet (hash160 : Bytes → Bytes) where
  keys : WalletReceive.CWallet hash160
  crypted : Bool
  /-- `none` if it is empty. -/
  vMasterKey : Option Bytes
  /-- `CheckDecryptionKey` of all managers. -/
  checkDecryptionKey : Bytes → Bool
  isMine : CScript → isminefilter
  mapWallet : Map Uint256 CWalletTx
  mapTxSpends : List (COutPoint × Uint256)
  m_last_block_processed_height : Nat
  m_spend_zero_conf_change : Bool
  avoidReuse : Bool
  previouslySpent : List CTxDestination
  /-- The addresses of the keys that a legacy manager finds in a script. -/
  affectedDests : CScript → List CTxDestination
  inAddressBook : CTxDestination → Bool

structure WalletEnv (𝔾 : Type) where
  unblindEnv : UnblindEnv 𝔾
  getHash : CTransaction → Uint256

namespace CWallet

variable {hash160 : Bytes → Bytes} (w : CWallet hash160)

def isLocked : Bool := w.crypted && w.vMasterKey.isNone

def available : WalletReceive.CWallet hash160 := if w.isLocked then withoutKeys w.keys else w.keys

def getTxDepthInMainChain (wtx : CWalletTx) : Int :=
  match wtx.m_state with
  | .Confirmed _ height _ => w.m_last_block_processed_height - height + 1
  | .Conflicted _ height => -1 * (w.m_last_block_processed_height - height + 1)
  | _ => 0

def getTxBlocksToMaturity (wtx : CWalletTx) : Except String Int :=
  if ¬ wtx.tx.IsCoinBase then .ok 0
  else do
    let chain_depth := w.getTxDepthInMainChain wtx
    require (chain_depth ≥ 0) "chain_depth >= 0"
    return max 0 (COINBASE_MATURITY + 1 - chain_depth)

def isTxImmatureCoinBase (wtx : CWalletTx) : Except String Bool := do
  return decide ((← w.getTxBlocksToMaturity wtx) > 0)

def isTxInMainChain (wtx : CWalletTx) : Bool := w.getTxDepthInMainChain wtx > 0

def countsAsSpend (wtx : CWalletTx) : Bool :=
  let depth := w.getTxDepthInMainChain wtx
  depth > 0 || (depth = 0 && !wtx.isAbandoned)

def isSpent (outpoint : COutPoint) : Bool :=
  w.mapTxSpends.any fun spend => spend.1 = outpoint && (w.mapWallet.lookup spend.2).any w.countsAsSpend

def isSpentKey (scriptPubKey : CScript) : Bool :=
  let (extracted, dest) := extractDestination scriptPubKey
  extracted && (dest ∈ w.previouslySpent ||
    (w.affectedDests scriptPubKey).any fun dest => dest ∈ w.previouslySpent)

def isMineFor (txout : CTxOut) (filter : isminefilter) : Bool :=
  w.isMine txout.scriptPubKey &&& filter ≠ 0

def scriptIsChange (script : CScript) : Bool :=
  w.isMine script ≠ 0 &&
    (let (extracted, address) := extractDestination script
    !extracted || !w.inAddressBook address)

end CWallet

section Amounts

variable {𝔾 : Type} {hash160 : Bytes → Bytes} (env : WalletEnv 𝔾) (w : CWallet hash160)

/-! ### Amounts as they are computed -/

def unblinded (txout : CTxOut) : Option Int :=
  (unblindConfidentialOutput env.unblindEnv w.available txout).map Prod.fst

def addInRange (error : String) (nSum value : Int) : Except String Int :=
  if MoneyRange (nSum + value) then .ok (nSum + value) else .error error

def unblindedOrRecorded (wtx : CWalletTx) (output : CTxOut × Nat) : Int :=
  match unblinded env w output.1 with
  | some value => value
  | none => (wtx.recorded output.2).getD 0

def debitOf (filter : isminefilter) (prev : CWalletTx) (n : Nat) : Int :=
  match prev.tx.vout[n]? with
  | none => 0
  | some txout => if w.isMineFor txout filter then unblindedOrRecorded env w prev (txout, n) else 0

def getDebitIn (filter : isminefilter) (txin : CTxIn) : Int :=
  match w.mapWallet.lookup txin.prevout.hash with
  | none => 0
  | some prev => debitOf env w filter prev txin.prevout.n.toNat

def getDebit (tx : CTransaction) (filter : isminefilter) : Except String Int :=
  tx.vin.foldlM (fun nDebit txin =>
    addInRange "GetDebit: value out of range" nDebit (getDebitIn env w filter txin)) 0

def outputGetCredit (filter : isminefilter) (txout : CTxOut) : Except String Int :=
  match unblinded env w txout with
  | none => .ok 0
  | some value =>
    if ¬ MoneyRange value then .error "OutputGetCredit: value out of range"
    else .ok (if w.isMineFor txout filter then value else 0)

def txGetCredit (tx : CTransaction) (filter : isminefilter) : Except String Int :=
  tx.vout.foldlM (fun nCredit txout => do
    addInRange "TxGetCredit: value out of range" nCredit (← outputGetCredit env w filter txout)) 0

def outputGetChange (txout : CTxOut) : Except String Int :=
  match unblinded env w txout with
  | none => .ok 0
  | some value =>
    if ¬ MoneyRange value then .error "OutputGetChange: value out of range"
    else .ok (if w.scriptIsChange txout.scriptPubKey then value else 0)

def txGetChange (tx : CTransaction) : Except String Int :=
  tx.vout.foldlM (fun nChange txout => do
    addInRange "TxGetChange: value out of range" nChange (← outputGetChange env w txout)) 0

def creditValue (wtx : CWalletTx) (output : CTxOut × Nat) : Int :=
  if output.1.nValue.IsExplicit then output.1.nValue.getAmount else unblindedOrRecorded env w wtx output

def creditOf (wtx : CWalletTx) (filter : isminefilter) : Except String Int :=
  wtx.tx.vout.zipIdx.foldlM (fun computed output =>
    if ¬ w.isMineFor output.1 filter then .ok computed
    else addInRange "CachedTxGetCredit: value out of range" computed (creditValue env w wtx output)) 0

/-- The value of an unspent output in the loop of `CachedTxGetAvailableCredit`: a locked wallet falls
back to what was recorded for an output of its own. -/
def availableValue (wtx : CWalletTx) (filter : isminefilter) (output : CTxOut × Nat) :
    Except String Int := do
  let output_credit ← outputGetCredit env w filter output.1
  if output_credit = 0 ∧ ¬ output.1.nValue.IsExplicit ∧ w.isMineFor output.1 filter then
    return (wtx.recorded output.2).getD output_credit
  else return output_credit

def countsAvailable (wtx : CWalletTx) (filter : isminefilter) (output : CTxOut × Nat) : Bool :=
  let allow_used_addresses := filter &&& ISMINE_USED ≠ 0 || !w.avoidReuse
  !w.isSpent ⟨env.getHash wtx.tx, UInt32.ofNat output.2⟩ &&
    (allow_used_addresses || !w.isSpentKey output.1.scriptPubKey)

def availableOf (wtx : CWalletTx) (filter : isminefilter) : Except String Int :=
  wtx.tx.vout.zipIdx.foldlM (fun nCredit output => do
    if countsAvailable env w wtx filter output then
      addInRange "CachedTxGetAvailableCredit : value out of range" nCredit
        (← availableValue env w wtx filter output)
    else return nCredit) 0

/-! ### Amounts as they are remembered

Each function returns the amount and the wallet transaction with what it has remembered. -/

/-- The cached amount, or the computed one, which is then cached. -/
def cachable (wtx : CWalletTx) (type : AmountType) (filter : isminefilter)
    (compute : Except String Int) : Except String (Int × CWalletTx) :=
  match wtx.m_amounts type filter with
  | some value => .ok (value, wtx)
  | none => do
    let value ← compute
    return (value, wtx.setAmount type filter value)

def getCachableAmount (wtx : CWalletTx) (type : AmountType) (filter : isminefilter) :
    Except String (Int × CWalletTx) :=
  cachable wtx type filter
    (if type = .DEBIT then getDebit env w wtx.tx filter else txGetCredit env w wtx.tx filter)

def cachedTxGetCredit (wtx : CWalletTx) (filter : isminefilter) : Except String (Int × CWalletTx) := do
  if ← w.isTxImmatureCoinBase wtx then return (0, wtx)
  let get_amount_filter := filter &&& ISMINE_ALL
  if get_amount_filter ≠ 0 then
    cachable wtx .CREDIT get_amount_filter (creditOf env w wtx get_amount_filter)
  else return (0, wtx)

def cachedTxGetDebit (wtx : CWalletTx) (filter : isminefilter) : Except String (Int × CWalletTx) :=
  let get_amount_filter := filter &&& ISMINE_ALL
  if wtx.tx.vin = [] then .ok (0, wtx)
  else if get_amount_filter ≠ 0 then getCachableAmount env w wtx .DEBIT get_amount_filter
  else .ok (0, wtx)

def cachedTxGetChange (wtx : CWalletTx) : Except String (Int × CWalletTx) :=
  match wtx.nChangeCached with
  | some change => .ok (change, wtx)
  | none => do
    let change ← txGetChange env w wtx.tx
    return (change, { wtx with nChangeCached := some change })

def cachedTxGetImmatureCredit (wtx : CWalletTx) (filter : isminefilter) :
    Except String (Int × CWalletTx) := do
  if (← w.isTxImmatureCoinBase wtx) && w.isTxInMainChain wtx then
    getCachableAmount env w wtx .IMMATURE_CREDIT filter
  else return (0, wtx)

def cachedTxGetAvailableCredit (wtx : CWalletTx) (filter : isminefilter) :
    Except String (Int × CWalletTx) := do
  let allow_cache := filter &&& ISMINE_ALL ≠ 0 ∧ filter &&& ISMINE_ALL ≠ ISMINE_ALL
  if ← w.isTxImmatureCoinBase wtx then return (0, wtx)
  if allow_cache then
    cachable wtx .AVAILABLE_CREDIT filter (availableOf env w wtx filter)
  else
    let nCredit ← availableOf env w wtx filter
    return (nCredit, wtx)

def withTx {α : Type} (w : CWallet hash160) (txid : Uint256)
    (call : CWalletTx → Except String (α × CWalletTx)) : Except String (α × CWallet hash160) :=
  match w.mapWallet.lookup txid with
  | none => .error "mapWallet.at"
  | some wtx => do
    let (a, wtx') ← call wtx
    return (a, { w with mapWallet := w.mapWallet.insert txid wtx' })

def lookTx {α : Type} (w : CWallet hash160) (txid : Uint256) (look : CWalletTx → Except String α) :
    Except String α :=
  match w.mapWallet.lookup txid with
  | none => .error "mapWallet.at"
  | some wtx => look wtx

/-! ### Balances -/

/-- The loop over the inputs in `CachedTxIsTrusted`, which recurses with `isTrusted`. -/
def inputsTrusted
    (isTrusted : CWallet hash160 → List Uint256 → Uint256 →
      Except String ((Bool × List Uint256) × CWallet hash160)) :
    CWallet hash160 → List Uint256 → List CTxIn →
      Except String ((Bool × List Uint256) × CWallet hash160)
  | w, trusted_parents, [] => .ok ((true, trusted_parents), w)
  | w, trusted_parents, txin :: vin =>
    match w.mapWallet.lookup txin.prevout.hash with
    | none => .ok ((false, trusted_parents), w)
    | some parent =>
      match parent.tx.vout[txin.prevout.n.toNat]? with
      | none => .error "vout[txin.prevout.n]"
      | some parentOut =>
        if w.isMine parentOut.scriptPubKey ≠ ISMINE_SPENDABLE then .ok ((false, trusted_parents), w)
        else if txin.prevout.hash ∈ trusted_parents then
          inputsTrusted isTrusted w trusted_parents vin
        else do
          let ((trusted, trusted_parents), w) ← isTrusted w trusted_parents txin.prevout.hash
          if !trusted then return ((false, trusted_parents), w)
          else inputsTrusted isTrusted w (trusted_parents.insert txin.prevout.hash) vin

/-- `CachedTxIsTrusted`; each level of the recursion is another transaction of the wallet. -/
def cachedTxIsTrusted : Nat → CWallet hash160 → List Uint256 → Uint256 →
    Except String ((Bool × List Uint256) × CWallet hash160)
  | 0, _, _, _ => .error "recursion"
  | n + 1, w, trusted_parents, txid =>
    match w.mapWallet.lookup txid with
    | none => .error "mapWallet.at"
    | some wtx =>
      let nDepth := w.getTxDepthInMainChain wtx
      if nDepth ≥ 1 then .ok ((true, trusted_parents), w)
      else if nDepth < 0 then .ok ((false, trusted_parents), w)
      else if !w.m_spend_zero_conf_change then .ok ((false, trusted_parents), w)
      else do
        let (debit, w) ← withTx w txid fun wtx => cachedTxGetDebit env w wtx ISMINE_ALL
        -- transactions of others, and those that are not in the mempool, are not trusted
        if debit ≤ 0 ∨ !wtx.inMempool then return ((false, trusted_parents), w)
        else inputsTrusted (cachedTxIsTrusted n) w trusted_parents wtx.tx.vin

structure Balance where
  m_mine_trusted : Int := 0
  m_mine_untrusted_pending : Int := 0
  m_mine_immature : Int := 0
  m_watchonly_trusted : Int := 0
  m_watchonly_untrusted_pending : Int := 0
  m_watchonly_immature : Int := 0
deriving DecidableEq, Repr

/-- The depth of the recursion that `CachedTxIsTrusted` can need. -/
def CWallet.trustDepth (w : CWallet hash160) : Nat := w.mapWallet.keys.card + 1

def addTxBalance (min_depth : Int) (reuse_filter : isminefilter)
    (acc : (Balance × List Uint256) × CWallet hash160) (txid : Uint256) :
    Except String ((Balance × List Uint256) × CWallet hash160) := do
  let ((ret, trusted_parents), w) := acc
  let ((is_trusted, trusted_parents), w) ← cachedTxIsTrusted env w.trustDepth w trusted_parents txid
  let (tx_credit_mine, w) ← withTx w txid fun wtx =>
    cachedTxGetAvailableCredit env w wtx (ISMINE_SPENDABLE ||| reuse_filter)
  let (tx_credit_watchonly, w) ← withTx w txid fun wtx =>
    cachedTxGetAvailableCredit env w wtx (ISMINE_WATCH_ONLY ||| reuse_filter)
  let (immature, w) ← withTx w txid fun wtx => cachedTxGetImmatureCredit env w wtx ISMINE_SPENDABLE
  let (watchonly_immature, w) ← withTx w txid fun wtx =>
    cachedTxGetImmatureCredit env w wtx ISMINE_WATCH_ONLY
  let (tx_depth, in_mempool) ← lookTx w txid fun wtx =>
    .ok (w.getTxDepthInMainChain wtx, wtx.inMempool)
  let trusted := is_trusted ∧ tx_depth ≥ min_depth
  let pending := !is_trusted ∧ tx_depth = 0 ∧ in_mempool
  return (({
    m_mine_trusted := ret.m_mine_trusted + if trusted then tx_credit_mine else 0
    m_watchonly_trusted := ret.m_watchonly_trusted + if trusted then tx_credit_watchonly else 0
    m_mine_untrusted_pending := ret.m_mine_untrusted_pending + if pending then tx_credit_mine else 0
    m_watchonly_untrusted_pending :=
      ret.m_watchonly_untrusted_pending + if pending then tx_credit_watchonly else 0
    m_mine_immature := ret.m_mine_immature + immature
    m_watchonly_immature := ret.m_watchonly_immature + watchonly_immature }, trusted_parents), w)

/-- `GetBalance`, which visits the transactions of the wallet in some order. -/
def getBalance (w : CWallet hash160) (order : List Uint256) (min_depth : Int) (avoid_reuse : Bool) :
    Except String (Balance × CWallet hash160) := do
  let reuse_filter := if avoid_reuse then ISMINE_NO else ISMINE_USED
  let ((ret, _), w) ← order.foldlM (addTxBalance env min_depth reuse_filter) (({}, []), w)
  return (ret, w)

def countsForAddresses (w : CWallet hash160) (trusted_parents : List Uint256) (txid : Uint256) :
    Except String ((Bool × List Uint256) × CWallet hash160) := do
  let ((is_trusted, trusted_parents), w) ← cachedTxIsTrusted env w.trustDepth w trusted_parents txid
  if !is_trusted then return ((false, trusted_parents), w)
  let (immature, nDepth) ← lookTx w txid fun wtx => do
    return (← w.isTxImmatureCoinBase wtx, w.getTxDepthInMainChain wtx)
  if immature then return ((false, trusted_parents), w)
  let (debit, w) ← withTx w txid fun wtx => cachedTxGetDebit env w wtx ISMINE_ALL
  return ((decide (nDepth ≥ if debit > 0 then 0 else 1), trusted_parents), w)

def addressEntry (w : CWallet hash160) (txid : Uint256) (output : CTxOut × Nat) :
    Option (CTxDestination × Int) :=
  let (extracted, addr) := extractDestination output.1.scriptPubKey
  if w.isMine output.1.scriptPubKey = 0 ∨ !extracted then none
  else
    let nVal := (unblinded env w output.1).getD 0
    some (addr, if w.isSpent ⟨txid, UInt32.ofNat output.2⟩ then 0 else nVal)

def addressEntries (w : CWallet hash160) (txid : Uint256) : List (CTxDestination × Int) :=
  match w.mapWallet.lookup txid with
  | none => []
  | some wtx => wtx.tx.vout.zipIdx.filterMap (addressEntry env w txid)

def addTxAddresses (acc : (Map CTxDestination Int × List Uint256) × CWallet hash160) (txid : Uint256) :
    Except String ((Map CTxDestination Int × List Uint256) × CWallet hash160) := do
  let ((balances, trusted_parents), w) := acc
  let ((counted, trusted_parents), w) ← countsForAddresses env w trusted_parents txid
  if counted then return (((addressEntries env w txid).foldl addAt balances, trusted_parents), w)
  else return ((balances, trusted_parents), w)

def getAddressBalances (w : CWallet hash160) (order : List Uint256) :
    Except String (Map CTxDestination Int × CWallet hash160) := do
  let ((balances, _), w) ← order.foldlM (addTxAddresses env) ((∅, []), w)
  return (balances, w)

/-! ### Locking and unlocking -/

/-- Record the amount of an output that opens now and is not recorded yet; the flag is `changed`. -/
def cacheOutput (acc : Map String String × Bool) (output : CTxOut × Nat) : Map String String × Bool :=
  let key := ctUnblindKey output.2
  if output.1.nValue.IsExplicit ∨ (acc.1.lookup key).isSome then acc
  else
    match unblinded env w output.1 with
    | none => acc
    | some value => if ¬ MoneyRange value then acc else (acc.1.insert key (toString value), true)

def cacheTx (wtx : CWalletTx) : CWalletTx :=
  let (mapValue, changed) := wtx.tx.vout.zipIdx.foldl (cacheOutput env w) (wtx.mapValue, false)
  if changed then { wtx with mapValue := mapValue }.markDirty else wtx

def cacheCTUnblindedAmounts (w : CWallet hash160) : CWallet hash160 :=
  { w with mapWallet := mapValues (fun _ wtx => cacheTx env w wtx) w.mapWallet }

def lock (w : CWallet hash160) : CWallet hash160 × Bool :=
  if !w.crypted then (w, false)
  else if w.vMasterKey.isSome then
    ({ cacheCTUnblindedAmounts env w with vMasterKey := none }, true)
  else (w, true)

/-- `Unlock` with no rescan pending, of a wallet that has its confidential managers. -/
def unlock (w : CWallet hash160) (vMasterKeyIn : Bytes) : CWallet hash160 × Bool :=
  if !w.checkDecryptionKey vMasterKeyIn then (w, false)
  else (cacheCTUnblindedAmounts env { w with vMasterKey := some vMasterKeyIn }, true)

/-! ### Adding transactions -/

def modifyTx (w : CWallet hash160) (txid : Uint256) (f : CWalletTx → CWalletTx) : CWallet hash160 :=
  match w.mapWallet.lookup txid with
  | none => w
  | some wtx => { w with mapWallet := w.mapWallet.insert txid (f wtx) }

def markInputsDirty (w : CWallet hash160) (tx : CTransaction) : CWallet hash160 :=
  tx.vin.foldl (fun w txin => modifyTx w txin.prevout.hash CWalletTx.markDirty) w

def markDestinationsDirty (w : CWallet hash160) (destinations : List CTxDestination) :
    CWallet hash160 :=
  { w with mapWallet := mapValues (fun _ wtx =>
      if wtx.m_is_cache_empty then wtx
      else if wtx.tx.vout.any fun txout =>
        let (extracted, dst) := extractDestination txout.scriptPubKey
        extracted && dst ∈ destinations then wtx.markDirty
      else wtx) w.mapWallet }

/-- `SetSpentKeyState` for the output an input spends: the address, if it was not marked before. -/
def setSpentKeyState (w : CWallet hash160) (tx_destinations : List CTxDestination) (txin : CTxIn) :
    Except String (List CTxDestination) :=
  match w.mapWallet.lookup txin.prevout.hash with
  | none => .ok tx_destinations
  | some srctx =>
    match srctx.tx.vout[txin.prevout.n.toNat]? with
    | none => .error "vout[n]"
    | some txout =>
      let (extracted, dst) := extractDestination txout.scriptPubKey
      if extracted ∧ w.isMine txout.scriptPubKey ≠ 0 ∧ dst ∉ w.previouslySpent then
        .ok (tx_destinations.insert dst)
      else .ok tx_destinations

/-- The first part of `AddToWallet`, for wallets that avoid reuse. -/
def markUsed (w : CWallet hash160) (tx : CTransaction) : Except String (CWallet hash160) := do
  if !w.avoidReuse then return w
  let tx_destinations ← tx.vin.foldlM (setSpentKeyState w) []
  return markDestinationsDirty { w with previouslySpent := tx_destinations ++ w.previouslySpent }
    tx_destinations

def updatedState (wtx : CWalletTx) (state : TxState) : Except String TxState :=
  if state.index ≠ wtx.m_state.index then .ok state
  else do
    require (wtx.m_state.serialized.2 = state.serialized.2)
      "TxStateSerializedIndex(wtx.m_state) == TxStateSerializedIndex(state)"
    require (wtx.m_state.serialized.1 = state.serialized.1)
      "TxStateSerializedBlockHash(wtx.m_state) == TxStateSerializedBlockHash(state)"
    return wtx.m_state

def spendsOf (tx : CTransaction) : List (COutPoint × Uint256) :=
  if tx.IsCoinBase then [] else tx.vin.map fun txin => (txin.prevout, env.getHash tx)

def addToWallet (w : CWallet hash160) (tx : CTransaction) (state : TxState) :
    Except String (CWallet hash160) := do
  let hash := env.getHash tx
  let w ← markUsed w tx
  match w.mapWallet.lookup hash with
  | none => return { w with
      mapWallet := w.mapWallet.insert hash (.new tx state)
      mapTxSpends := spendsOf env tx ++ w.mapTxSpends }
  | some wtx => do
    let m_state ← updatedState wtx state
    return { w with mapWallet := w.mapWallet.insert hash { wtx with m_state := m_state }.markDirty }

/-- The transaction was there, or pays to the wallet, or spends from it. -/
def involvesMe (w : CWallet hash160) (fExisted : Bool) (tx : CTransaction) : Except String Bool :=
  if fExisted ∨ tx.vout.any fun txout => w.isMine txout.scriptPubKey ≠ 0 then .ok true
  else do
    let debit ← getDebit env w tx ISMINE_ALL
    return decide (debit > 0)

/-- `AddToWalletIfInvolvingMe`, after conflicting transactions have been marked. -/
def addToWalletIfInvolvingMe (w : CWallet hash160) (tx : CTransaction) (state : TxState)
    (fUpdate : Bool) : Except String (Bool × CWallet hash160) := do
  let fExisted := (w.mapWallet.lookup (env.getHash tx)).isSome
  if fExisted ∧ !fUpdate then return (false, w)
  if ← involvesMe env w fExisted tx then return (true, ← addToWallet env w tx state)
  else return (false, w)

def syncTransaction (w : CWallet hash160) (tx : CTransaction) (state : TxState) (update_tx : Bool) :
    Except String (CWallet hash160) := do
  let (added, w) ← addToWalletIfInvolvingMe env w tx state update_tx
  if added then return markInputsDirty w tx else return w

/-- What `RecursiveUpdateTxState` and `AddToWallet` (for the descendants of a disconnected coinbase)
do to each transaction they reach. -/
def updateTxState (w : CWallet hash160) (txid : Uint256) (state : TxState) : CWallet hash160 :=
  match w.mapWallet.lookup txid with
  | none => w
  | some wtx =>
    markInputsDirty
      { w with mapWallet := w.mapWallet.insert txid { wtx with m_state := state }.markDirty } wtx.tx

end Amounts

end Rcpu.WalletCache
