import Mathlib.Data.List.TakeWhile
import Rcpu.WalletCache

/-!
# What the wallet records

`CacheCTUnblindedAmounts` records the amount of every confidential output that opens, as a text under
the number of the output.  The lemmas here say which outputs open without a key, what is recorded, and
that amounts are computed from the transactions and the records alone.
-/

namespace Rcpu.WalletCache

open Checks ByteStream Confidential Transaction WeightedMap Unblind
open Rcpu.WalletReceive (ScriptPubKeyMan unblindConfidentialOutput confidentialKey confidentialKey_eq
  descriptorKey)

/-! ### Amounts as texts -/

theorem ctUnblindKey_inj {m n : Nat} : ctUnblindKey m = ctUnblindKey n ↔ m = n := by
  unfold ctUnblindKey
  rw [String.append_right_inj]
  refine ⟨?_, fun h => h ▸ rfl⟩
  intro htext
  have hdigits : Nat.toDigits 10 m = Nat.toDigits 10 n := by
    rw [← Nat.toList_repr, ← Nat.toList_repr]
    exact congrArg String.toList htext
  rw [← @Nat.ofDigitChars_ten_toDigits m, hdigits, Nat.ofDigitChars_ten_toDigits]

theorem not_isSpace_of_isDigit {c : Char} (h : c.isDigit = true) : isSpace c = false := by
  have hcode : 48 ≤ c.toNat := by
    simp only [Char.isDigit, ge_iff_le, Bool.and_eq_true, decide_eq_true_eq] at h
    exact h.1
  unfold isSpace
  rw [decide_eq_false_iff_not]
  simp only [List.mem_cons, List.not_mem_nil, or_false]
  omega

theorem dropWhile_isSpace_of_isDigit {s : List Char} (h : ∀ c ∈ s, c.isDigit = true) :
    s.dropWhile isSpace = s := by
  cases s with
  | nil => rfl
  | cons c s =>
    rw [List.dropWhile_cons, not_isSpace_of_isDigit (h c List.mem_cons_self), if_neg (by simp)]

theorem trimString_of_isDigit {s : List Char} (h : ∀ c ∈ s, c.isDigit = true) : trimString s = s := by
  unfold trimString
  rw [dropWhile_isSpace_of_isDigit h, dropWhile_isSpace_of_isDigit, List.reverse_reverse]
  intro c hc
  exact h c (List.mem_reverse.mp hc)

theorem localeIndependentAtoi_toString {value : Int} (h : MoneyRange value) :
    localeIndependentAtoi (toString value) = value := by
  obtain ⟨hnonneg, hmax⟩ := h
  obtain ⟨n, rfl⟩ := Int.eq_ofNat_of_zero_le hnonneg
  have hdigits : ∀ c ∈ Nat.toDigits 10 n, c.isDigit = true := fun c hc =>
    Nat.isDigit_of_mem_toDigits (by decide) (Nat.le_refl 10) hc
  have htext : (toString (n : Int)).toList = Nat.toDigits 10 n := Nat.toList_repr
  have hsign : ∀ c : Char, c.isDigit = false → (Nat.toDigits 10 n).head? ≠ some c := by
    intro c hc hhead
    rw [hdigits c (List.mem_of_mem_head? hhead)] at hc
    cases hc
  have hfrom : fromChars (Nat.toDigits 10 n) = n := by
    unfold fromChars
    dsimp only
    rw [if_neg (hsign '-' rfl), if_neg (hsign '-' rfl), List.takeWhile_eq_self_iff.mpr hdigits,
      Nat.ofDigitChars_ten_toDigits]
    have hlimit : MAX_MONEY ≤ 2 ^ 63 - 1 := by decide
    exact Int.min_eq_left (Int.le_trans hmax hlimit)
  unfold localeIndependentAtoi
  rw [htext, trimString_of_isDigit hdigits]
  split
  · next _ hplus => exact absurd (congrArg List.head? hplus) (hsign '+' rfl)
  · next _ _ hplus => exact absurd (congrArg List.head? hplus) (hsign '+' rfl)
  · exact hfrom

/-! ### Keys -/

section Keys

variable {𝔾 : Type} {hash160 : Bytes → Bytes} {env : WalletEnv 𝔾}

def keyless (env : WalletEnv 𝔾) (txout : CTxOut) : Option Int :=
  if txout.nValue.IsExplicit then some txout.nValue.getAmount
  else (unblindValue env.unblindEnv txout.nValue txout.nNonce txout.vchRangeproof).map Prod.fst

def opens (env : WalletEnv 𝔾) (keys : WalletReceive.CWallet hash160) (txout : CTxOut) : Option Int :=
  (unblindConfidentialOutput env.unblindEnv keys txout).map Prod.fst

theorem descriptorKey_withoutKeys (keys : WalletReceive.CWallet hash160) (script : CScript) :
    descriptorKey (withoutKeys keys) script = none := by
  unfold descriptorKey withoutKeys
  rw [List.findSome?_eq_none_iff]
  intro man hman
  obtain ⟨man, -, rfl⟩ := List.mem_map.mp hman
  cases man <;> rfl

theorem opens_withoutKeys (keys : WalletReceive.CWallet hash160) (txout : CTxOut) :
    opens env (withoutKeys keys) txout = keyless env txout := by
  have hkey : confidentialKey (withoutKeys keys) txout.scriptPubKey = none := by
    rw [confidentialKey_eq, descriptorKey_withoutKeys, ite_self]
  unfold opens keyless unblindConfidentialOutput
  split_ifs with hexplicit
  · rfl
  · cases unblindValue env.unblindEnv txout.nValue txout.nNonce txout.vchRangeproof with
    | some result => rfl
    | none =>
      rw [hkey]
      rfl

theorem opens_of_keyless {keys : WalletReceive.CWallet hash160} {txout : CTxOut} {value : Int}
    (h : keyless env txout = some value) : opens env keys txout = some value := by
  unfold keyless at h
  unfold opens unblindConfidentialOutput
  split_ifs at h ⊢ with hexplicit
  · exact h
  · obtain ⟨result, hresult, rfl⟩ := Option.map_eq_some_iff.mp h
    rw [hresult]
    rfl

variable {w : CWallet hash160}

theorem unblinded_of_locked (h : w.isLocked = true) (txout : CTxOut) :
    unblinded env w txout = keyless env txout := by
  rw [unblinded, CWallet.available, if_pos h]
  exact opens_withoutKeys w.keys txout

theorem unblinded_of_unlocked (h : w.isLocked = false) (txout : CTxOut) :
    unblinded env w txout = opens env w.keys txout := by
  rw [unblinded, CWallet.available, if_neg (by simp [h])]
  rfl

end Keys

/-! ### Recording -/

section Records

variable {𝔾 : Type} {hash160 : Bytes → Bytes} {env : WalletEnv 𝔾} {w : CWallet hash160}

/-- The amount of an output that `CacheCTUnblindedAmounts` would record. -/
def toRecord (env : WalletEnv 𝔾) (w : CWallet hash160) (txout : CTxOut) : Option Int :=
  if txout.nValue.IsExplicit then none
  else (unblinded env w txout).filter fun value => MoneyRange value

def Pending (env : WalletEnv 𝔾) (w : CWallet hash160) (wtx : CWalletTx) : Prop :=
  ∃ output ∈ wtx.tx.vout.zipIdx,
    wtx.mapValue.lookup (ctUnblindKey output.2) = none ∧ toRecord env w output.1 ≠ none

theorem toRecord_eq_some {txout : CTxOut} {value : Int} :
    toRecord env w txout = some value ↔
      ¬ txout.nValue.IsExplicit ∧ unblinded env w txout = some value ∧ MoneyRange value := by
  unfold toRecord
  split_ifs with hexplicit
  · simp [hexplicit]
  · rw [Option.filter_eq_some_iff, decide_eq_true_eq]
    simp [hexplicit]

theorem cacheOutput_eq (acc : Map String String × Bool) (output : CTxOut × Nat) :
    cacheOutput env w acc output =
      if acc.1.lookup (ctUnblindKey output.2) = none then
        match toRecord env w output.1 with
        | some value => (acc.1.insert (ctUnblindKey output.2) (toString value), true)
        | none => acc
      else acc := by
  unfold cacheOutput toRecord
  dsimp only
  by_cases hknown : acc.1.lookup (ctUnblindKey output.2) = none
  · rw [if_pos hknown, hknown]
    by_cases hexplicit : output.1.nValue.IsExplicit
    · simp [hexplicit]
    · rw [if_neg (by simp [hexplicit]), if_neg hexplicit]
      cases unblinded env w output.1 with
      | none => rfl
      | some value =>
        by_cases hrange : MoneyRange value
        · simp [hrange, Option.filter]
        · simp [hrange, Option.filter]
  · rw [if_neg hknown, if_pos (.inr (Option.isSome_iff_ne_none.mpr hknown))]

theorem lookup_cacheOutput {acc : Map String String × Bool} {output : CTxOut × Nat} {n : Nat}
    (hn : n ≠ output.2) :
    (cacheOutput env w acc output).1.lookup (ctUnblindKey n) = acc.1.lookup (ctUnblindKey n) := by
  rw [cacheOutput_eq]
  split_ifs with hknown
  · cases toRecord env w output.1 with
    | none => rfl
    | some value => exact Finmap.lookup_insert_of_ne _ fun heq => hn (ctUnblindKey_inj.mp heq)
  · rfl

theorem lookup_cacheOutput_self (acc : Map String String × Bool) (output : CTxOut × Nat) :
    (cacheOutput env w acc output).1.lookup (ctUnblindKey output.2) =
      (acc.1.lookup (ctUnblindKey output.2)).or ((toRecord env w output.1).map toString) := by
  rw [cacheOutput_eq]
  split_ifs with hknown
  · rw [hknown]
    cases toRecord env w output.1 with
    | none => rw [hknown]; rfl
    | some value =>
      dsimp only
      rw [Finmap.lookup_insert]
      rfl
  · obtain ⟨text, htext⟩ := Option.ne_none_iff_exists'.mp hknown
    rw [htext]
    rfl

theorem lookup_foldl_cacheOutput_of_ne {outputs : List (CTxOut × Nat)}
    {acc : Map String String × Bool} {n : Nat} (hn : ∀ output ∈ outputs, n ≠ output.2) :
    (outputs.foldl (cacheOutput env w) acc).1.lookup (ctUnblindKey n) =
      acc.1.lookup (ctUnblindKey n) := by
  induction outputs generalizing acc with
  | nil => rfl
  | cons output outputs ih =>
    obtain ⟨hne, hrest⟩ := List.forall_mem_cons.mp hn
    rw [List.foldl_cons, ih hrest, lookup_cacheOutput hne]

theorem lookup_foldl_cacheOutput {outputs : List (CTxOut × Nat)} {acc : Map String String × Bool}
    (hnodup : (outputs.map Prod.snd).Nodup) {output : CTxOut × Nat} (hmem : output ∈ outputs) :
    (outputs.foldl (cacheOutput env w) acc).1.lookup (ctUnblindKey output.2) =
      (acc.1.lookup (ctUnblindKey output.2)).or ((toRecord env w output.1).map toString) := by
  induction outputs generalizing acc with
  | nil => cases hmem
  | cons head outputs ih =>
    rw [List.map_cons, List.nodup_cons] at hnodup
    rw [List.foldl_cons]
    rcases List.mem_cons.mp hmem with rfl | hmem
    · rw [lookup_foldl_cacheOutput_of_ne, lookup_cacheOutput_self]
      intro later hlater heq
      exact hnodup.1 (heq ▸ List.mem_map_of_mem hlater)
    · rw [ih hnodup.2 hmem, lookup_cacheOutput]
      intro heq
      exact hnodup.1 (heq ▸ List.mem_map_of_mem hmem)

theorem foldl_cacheOutput_snd {outputs : List (CTxOut × Nat)} {acc : Map String String × Bool}
    (hnodup : (outputs.map Prod.snd).Nodup) :
    (outputs.foldl (cacheOutput env w) acc).2 = true ↔ acc.2 = true ∨ ∃ output ∈ outputs,
      acc.1.lookup (ctUnblindKey output.2) = none ∧ toRecord env w output.1 ≠ none := by
  induction outputs generalizing acc with
  | nil => simp
  | cons head outputs ih =>
    rw [List.map_cons, List.nodup_cons] at hnodup
    have hrest : (∃ output ∈ outputs, (cacheOutput env w acc head).1.lookup
          (ctUnblindKey output.2) = none ∧ toRecord env w output.1 ≠ none) ↔
        ∃ output ∈ outputs, acc.1.lookup (ctUnblindKey output.2) = none ∧
          toRecord env w output.1 ≠ none := by
      refine exists_congr fun output => and_congr_right fun hmem => ?_
      rw [lookup_cacheOutput]
      intro heq
      exact hnodup.1 (heq ▸ List.mem_map_of_mem hmem)
    have hhead : (cacheOutput env w acc head).2 = true ↔ acc.2 = true ∨
        acc.1.lookup (ctUnblindKey head.2) = none ∧ toRecord env w head.1 ≠ none := by
      rw [cacheOutput_eq]
      split_ifs with hknown
      · cases toRecord env w head.1 <;> simp [hknown]
      · simp [hknown]
    rw [List.foldl_cons, ih hnodup.2, hrest, hhead, List.exists_mem_cons_iff, or_assoc]

theorem nodup_zipIdx_snd (vout : List CTxOut) : (vout.zipIdx.map Prod.snd).Nodup := by
  rw [List.zipIdx_map_snd]
  exact List.nodup_range'

theorem changed_iff_pending (env : WalletEnv 𝔾) (w : CWallet hash160) (wtx : CWalletTx) :
    (wtx.tx.vout.zipIdx.foldl (cacheOutput env w) (wtx.mapValue, false)).2 = true ↔
      Pending env w wtx := by
  rw [foldl_cacheOutput_snd (nodup_zipIdx_snd wtx.tx.vout), Pending]
  simp

theorem cacheTx_of_pending {wtx : CWalletTx} (h : Pending env w wtx) :
    cacheTx env w wtx = { wtx with
      mapValue := (wtx.tx.vout.zipIdx.foldl (cacheOutput env w) (wtx.mapValue, false)).1 }.markDirty := by
  unfold cacheTx
  dsimp only
  rw [if_pos ((changed_iff_pending env w wtx).mpr h)]

theorem cacheTx_of_not_pending {wtx : CWalletTx} (h : ¬ Pending env w wtx) :
    cacheTx env w wtx = wtx := by
  unfold cacheTx
  dsimp only
  rw [if_neg (mt (changed_iff_pending env w wtx).mp h)]

@[simp] theorem cacheTx_tx (wtx : CWalletTx) : (cacheTx env w wtx).tx = wtx.tx := by
  by_cases h : Pending env w wtx
  · rw [cacheTx_of_pending h]
    rfl
  · rw [cacheTx_of_not_pending h]

@[simp] theorem cacheTx_m_state (wtx : CWalletTx) : (cacheTx env w wtx).m_state = wtx.m_state := by
  by_cases h : Pending env w wtx
  · rw [cacheTx_of_pending h]
    rfl
  · rw [cacheTx_of_not_pending h]

theorem lookup_cacheCTUnblindedAmounts (w : CWallet hash160) (txid : Uint256) :
    (cacheCTUnblindedAmounts env w).mapWallet.lookup txid =
      (w.mapWallet.lookup txid).map (cacheTx env w) :=
  lookup_mapValues _ _ _

theorem map_toString_toRecord (txout : CTxOut) :
    ((toRecord env w txout).map toString).map localeIndependentAtoi = toRecord env w txout := by
  cases hrecord : toRecord env w txout with
  | none => rfl
  | some value =>
    rw [Option.map_some, Option.map_some,
      localeIndependentAtoi_toString (toRecord_eq_some.mp hrecord).2.2]

/-- What is recorded afterwards: what was recorded before, or else the amount that opens. -/
theorem recorded_cacheTx {wtx : CWalletTx} {output : CTxOut × Nat}
    (hmem : output ∈ wtx.tx.vout.zipIdx) :
    (cacheTx env w wtx).recorded output.2 = (wtx.recorded output.2).or (toRecord env w output.1) := by
  unfold CWalletTx.recorded
  by_cases h : Pending env w wtx
  · have hlookup := @lookup_foldl_cacheOutput 𝔾 hash160 env w _ (wtx.mapValue, false)
      (nodup_zipIdx_snd wtx.tx.vout) output hmem
    rw [cacheTx_of_pending h, CWalletTx.markDirty]
    dsimp only at hlookup ⊢
    rw [hlookup, Option.map_or, map_toString_toRecord]
  · rw [cacheTx_of_not_pending h]
    cases hlookup : wtx.mapValue.lookup (ctUnblindKey output.2) with
    | some text => rfl
    | none =>
      have hnone : toRecord env w output.1 = none := by
        by_contra hsome
        exact h ⟨output, hmem, hlookup, hsome⟩
      rw [hnone]
      rfl

end Records

/-! ### Amounts computed alike

Amounts are sums, so two wallets compute the same amount if they agree on each input or output. -/

section Congruence

variable {𝔾 : Type} {hash160 : Bytes → Bytes} {env : WalletEnv 𝔾} {w w' : CWallet hash160}
  {wtx wtx' : CWalletTx} {filter : isminefilter}

theorem getDebit_congr {tx : CTransaction}
    (h : ∀ txin ∈ tx.vin, getDebitIn env w' filter txin = getDebitIn env w filter txin) :
    getDebit env w' tx filter = getDebit env w tx filter := by
  refine foldlM_congr ?_ 0
  intro nDebit txin htxin
  rw [h txin htxin]

theorem txGetCredit_congr {tx : CTransaction}
    (h : ∀ txout ∈ tx.vout, outputGetCredit env w' filter txout = outputGetCredit env w filter txout) :
    txGetCredit env w' tx filter = txGetCredit env w tx filter := by
  refine foldlM_congr ?_ 0
  intro nCredit txout htxout
  rw [h txout htxout]

theorem txGetChange_congr {tx : CTransaction}
    (h : ∀ txout ∈ tx.vout, outputGetChange env w' txout = outputGetChange env w txout) :
    txGetChange env w' tx = txGetChange env w tx := by
  refine foldlM_congr ?_ 0
  intro nChange txout htxout
  rw [h txout htxout]

theorem isMineFor_congr (hmine : w'.isMine = w.isMine) (txout : CTxOut) (filter : isminefilter) :
    w'.isMineFor txout filter = w.isMineFor txout filter := by
  rw [CWallet.isMineFor, hmine, CWallet.isMineFor]

theorem creditOf_congr (htx : wtx'.tx = wtx.tx) (hmine : w'.isMine = w.isMine)
    (h : ∀ output ∈ wtx.tx.vout.zipIdx, creditValue env w' wtx' output = creditValue env w wtx output) :
    creditOf env w' wtx' filter = creditOf env w wtx filter := by
  unfold creditOf
  rw [htx]
  refine foldlM_congr ?_ 0
  intro computed output hmem
  rw [h output hmem, isMineFor_congr hmine]

theorem availableOf_congr (htx : wtx'.tx = wtx.tx)
    (hcounts : ∀ output ∈ wtx.tx.vout.zipIdx, countsAvailable env w' wtx' filter output =
      countsAvailable env w wtx filter output)
    (h : ∀ output ∈ wtx.tx.vout.zipIdx,
      availableValue env w' wtx' filter output = availableValue env w wtx filter output) :
    availableOf env w' wtx' filter = availableOf env w wtx filter := by
  unfold availableOf
  rw [htx]
  refine foldlM_congr ?_ 0
  intro nCredit output hmem
  rw [hcounts output hmem, h output hmem]

/-- A wallet transaction without amounts and records. -/
def CWalletTx.core (wtx : CWalletTx) : CTransaction × TxState := (wtx.tx, wtx.m_state)

structure SameChain (w w' : CWallet hash160) : Prop where
  isMine : w'.isMine = w.isMine
  spends : w'.mapTxSpends = w.mapTxSpends
  height : w'.m_last_block_processed_height = w.m_last_block_processed_height
  zeroConf : w'.m_spend_zero_conf_change = w.m_spend_zero_conf_change
  avoidReuse : w'.avoidReuse = w.avoidReuse
  previouslySpent : w'.previouslySpent = w.previouslySpent
  affected : w'.affectedDests = w.affectedDests
  txs : ∀ txid, (w'.mapWallet.lookup txid).map CWalletTx.core =
    (w.mapWallet.lookup txid).map CWalletTx.core

theorem sameChain_cacheCTUnblindedAmounts (w : CWallet hash160) :
    SameChain w (cacheCTUnblindedAmounts env w) := by
  refine ⟨rfl, rfl, rfl, rfl, rfl, rfl, rfl, fun txid => ?_⟩
  rw [lookup_cacheCTUnblindedAmounts, Option.map_map]
  congr 1
  funext wtx
  rw [Function.comp_apply, CWalletTx.core, cacheTx_tx, cacheTx_m_state, CWalletTx.core]

theorem SameChain.lookup_eq_none (h : SameChain w w') {txid : Uint256}
    (hlookup : w.mapWallet.lookup txid = none) : w'.mapWallet.lookup txid = none := by
  have htx := h.txs txid
  rw [hlookup] at htx
  exact Option.map_eq_none_iff.mp htx

theorem SameChain.exists_tx (h : SameChain w w') {txid : Uint256}
    (hlookup : w.mapWallet.lookup txid = some wtx) :
    ∃ wtx', w'.mapWallet.lookup txid = some wtx' ∧ wtx'.tx = wtx.tx ∧ wtx'.m_state = wtx.m_state := by
  have htx := h.txs txid
  rw [hlookup] at htx
  obtain ⟨wtx', hlookup', hcore⟩ := Option.map_eq_some_iff.mp htx
  exact ⟨wtx', hlookup', congrArg Prod.fst hcore, congrArg Prod.snd hcore⟩

theorem SameChain.depth (h : SameChain w w') (hstate : wtx'.m_state = wtx.m_state) :
    w'.getTxDepthInMainChain wtx' = w.getTxDepthInMainChain wtx := by
  unfold CWallet.getTxDepthInMainChain
  rw [hstate, h.height]

theorem SameChain.isTxImmatureCoinBase (h : SameChain w w') (htx : wtx'.tx = wtx.tx)
    (hstate : wtx'.m_state = wtx.m_state) :
    w'.isTxImmatureCoinBase wtx' = w.isTxImmatureCoinBase wtx := by
  unfold CWallet.isTxImmatureCoinBase CWallet.getTxBlocksToMaturity
  rw [htx, h.depth hstate]

theorem SameChain.isSpent (h : SameChain w w') (outpoint : COutPoint) :
    w'.isSpent outpoint = w.isSpent outpoint := by
  unfold CWallet.isSpent
  rw [h.spends]
  congr 1
  funext spend
  congr 1
  cases hlookup : w.mapWallet.lookup spend.2 with
  | none => rw [h.lookup_eq_none hlookup]; rfl
  | some wtx =>
    obtain ⟨wtx', hlookup', -, hstate⟩ := h.exists_tx hlookup
    unfold CWallet.countsAsSpend CWalletTx.isAbandoned
    rw [hlookup', Option.any_some, Option.any_some, h.depth hstate, hstate]

theorem SameChain.countsAvailable (h : SameChain w w') (htx : wtx'.tx = wtx.tx)
    (output : CTxOut × Nat) :
    countsAvailable env w' wtx' filter output = countsAvailable env w wtx filter output := by
  unfold WalletCache.countsAvailable CWallet.isSpentKey
  rw [htx, h.isSpent, h.avoidReuse, h.previouslySpent, h.affected]

end Congruence

/-! ### Remembering changes nothing else -/

section Caches

variable {𝔾 : Type} {hash160 : Bytes → Bytes} {env : WalletEnv 𝔾} {w w' : CWallet hash160}
  {wtx wtx' : CWalletTx} {filter : isminefilter}

structure SameTxs (w w' : CWallet hash160) : Prop extends SameChain w w' where
  keys : w'.keys = w.keys
  crypted : w'.crypted = w.crypted
  masterKey : w'.vMasterKey = w.vMasterKey
  addressBook : w'.inAddressBook = w.inAddressBook
  records : ∀ txid, (w'.mapWallet.lookup txid).map CWalletTx.mapValue =
    (w.mapWallet.lookup txid).map CWalletTx.mapValue

theorem isLocked_congr (hcrypted : w'.crypted = w.crypted) (hmaster : w'.vMasterKey = w.vMasterKey) :
    w'.isLocked = w.isLocked := by
  rw [CWallet.isLocked, hcrypted, hmaster, CWallet.isLocked]

theorem unblinded_congr (hkeys : w'.keys = w.keys) (hlocked : w'.isLocked = w.isLocked)
    (txout : CTxOut) : unblinded env w' txout = unblinded env w txout := by
  unfold unblinded CWallet.available
  rw [hkeys, hlocked]

theorem SameTxs.isLocked (h : SameTxs w w') : w'.isLocked = w.isLocked :=
  isLocked_congr h.crypted h.masterKey

theorem SameTxs.unblinded (h : SameTxs w w') (txout : CTxOut) :
    unblinded env w' txout = unblinded env w txout :=
  unblinded_congr h.keys h.isLocked txout

theorem recorded_congr (hrecords : wtx'.mapValue = wtx.mapValue) (n : Nat) :
    wtx'.recorded n = wtx.recorded n := by
  rw [CWalletTx.recorded, hrecords, CWalletTx.recorded]

theorem unblindedOrRecorded_congr
    (hopens : ∀ txout, unblinded env w' txout = unblinded env w txout)
    (hrecords : wtx'.mapValue = wtx.mapValue) (output : CTxOut × Nat) :
    unblindedOrRecorded env w' wtx' output = unblindedOrRecorded env w wtx output := by
  unfold unblindedOrRecorded
  rw [hopens, recorded_congr hrecords]

theorem debitOf_congr (hopens : ∀ txout, unblinded env w' txout = unblinded env w txout)
    (hmine : w'.isMine = w.isMine) (htx : wtx'.tx = wtx.tx)
    (hrecords : wtx'.mapValue = wtx.mapValue) (n : Nat) :
    debitOf env w' filter wtx' n = debitOf env w filter wtx n := by
  unfold debitOf
  rw [htx]
  cases wtx.tx.vout[n]? with
  | none => rfl
  | some txout =>
    dsimp only
    rw [isMineFor_congr hmine, unblindedOrRecorded_congr hopens hrecords]

theorem SameTxs.exists_records (h : SameTxs w w') {txid : Uint256}
    (hlookup : w.mapWallet.lookup txid = some wtx) :
    ∃ wtx', w'.mapWallet.lookup txid = some wtx' ∧ wtx'.tx = wtx.tx ∧
      wtx'.mapValue = wtx.mapValue := by
  obtain ⟨wtx', hlookup', htx, -⟩ := h.exists_tx hlookup
  have hrecords := h.records txid
  rw [hlookup, hlookup'] at hrecords
  exact ⟨wtx', hlookup', htx, Option.some.inj hrecords⟩

theorem SameTxs.getDebitIn (h : SameTxs w w') (txin : CTxIn) :
    getDebitIn env w' filter txin = getDebitIn env w filter txin := by
  unfold WalletCache.getDebitIn
  cases hlookup : w.mapWallet.lookup txin.prevout.hash with
  | none => rw [h.lookup_eq_none hlookup]
  | some wtx =>
    obtain ⟨wtx', hlookup', htx, hrecords⟩ := h.exists_records hlookup
    rw [hlookup']
    exact debitOf_congr h.unblinded h.isMine htx hrecords _

theorem outputGetCredit_congr (hopens : ∀ txout, unblinded env w' txout = unblinded env w txout)
    (hmine : w'.isMine = w.isMine) (txout : CTxOut) :
    outputGetCredit env w' filter txout = outputGetCredit env w filter txout := by
  unfold outputGetCredit
  rw [hopens, isMineFor_congr hmine]

theorem outputGetChange_congr (hopens : ∀ txout, unblinded env w' txout = unblinded env w txout)
    (hmine : w'.isMine = w.isMine) (hbook : w'.inAddressBook = w.inAddressBook) (txout : CTxOut) :
    outputGetChange env w' txout = outputGetChange env w txout := by
  unfold outputGetChange CWallet.scriptIsChange
  rw [hopens, hmine, hbook]

theorem SameTxs.availableValue (h : SameTxs w w') (hrecords : wtx'.mapValue = wtx.mapValue)
    (output : CTxOut × Nat) :
    availableValue env w' wtx' filter output = availableValue env w wtx filter output := by
  unfold WalletCache.availableValue
  rw [outputGetCredit_congr h.unblinded h.isMine, isMineFor_congr h.isMine, recorded_congr hrecords]

def amountOf (env : WalletEnv 𝔾) (w : CWallet hash160) (wtx : CWalletTx) :
    AmountType → isminefilter → Except String Int
  | .DEBIT, filter => getDebit env w wtx.tx filter
  | .CREDIT, filter => creditOf env w wtx filter
  | .IMMATURE_CREDIT, filter => txGetCredit env w wtx.tx filter
  | .AVAILABLE_CREDIT, filter => availableOf env w wtx filter

theorem SameTxs.amountOf (h : SameTxs w w') (htx : wtx'.tx = wtx.tx)
    (hrecords : wtx'.mapValue = wtx.mapValue) (type : AmountType) (filter : isminefilter) :
    amountOf env w' wtx' type filter = amountOf env w wtx type filter := by
  cases type with
  | DEBIT =>
    unfold WalletCache.amountOf
    rw [htx]
    exact getDebit_congr fun txin _ => h.getDebitIn txin
  | CREDIT =>
    refine creditOf_congr htx h.isMine ?_
    intro output _
    rw [creditValue, unblindedOrRecorded_congr h.unblinded hrecords, creditValue]
  | IMMATURE_CREDIT =>
    unfold WalletCache.amountOf
    rw [htx]
    exact txGetCredit_congr fun txout _ => outputGetCredit_congr h.unblinded h.isMine txout
  | AVAILABLE_CREDIT =>
    exact availableOf_congr htx (fun output _ => h.countsAvailable htx output)
      fun output _ => h.availableValue hrecords output

theorem SameTxs.txGetChange (h : SameTxs w w') (tx : CTransaction) :
    txGetChange env w' tx = txGetChange env w tx :=
  txGetChange_congr fun txout _ => outputGetChange_congr h.unblinded h.isMine h.addressBook txout

def readAmount (env : WalletEnv 𝔾) (w : CWallet hash160) (wtx : CWalletTx) (type : AmountType)
    (filter : isminefilter) : Except String Int :=
  match wtx.m_amounts type filter with
  | some value => .ok value
  | none => amountOf env w wtx type filter

theorem map_fst_cachable (type : AmountType) (filter : isminefilter) :
    (cachable wtx type filter (amountOf env w wtx type filter)).map Prod.fst =
      readAmount env w wtx type filter := by
  unfold cachable readAmount
  cases wtx.m_amounts type filter with
  | some value => rfl
  | none => cases amountOf env w wtx type filter <;> rfl

/-- A transaction after it has remembered some amounts as they are computed. -/
structure Remembers (env : WalletEnv 𝔾) (w : CWallet hash160) (wtx wtx' : CWalletTx) : Prop where
  tx : wtx'.tx = wtx.tx
  state : wtx'.m_state = wtx.m_state
  records : wtx'.mapValue = wtx.mapValue
  amounts : ∀ type filter, wtx'.m_amounts type filter = wtx.m_amounts type filter ∨
    ∃ value, amountOf env w wtx type filter = .ok value ∧ wtx.m_amounts type filter = none ∧
      wtx'.m_amounts type filter = some value
  change : wtx'.nChangeCached = wtx.nChangeCached ∨
    ∃ value, txGetChange env w wtx.tx = .ok value ∧ wtx'.nChangeCached = some value
  empty : wtx'.m_is_cache_empty = true →
    wtx.m_is_cache_empty = true ∧ wtx'.m_amounts = wtx.m_amounts

theorem Remembers.refl (env : WalletEnv 𝔾) (w : CWallet hash160) (wtx : CWalletTx) :
    Remembers env w wtx wtx :=
  ⟨rfl, rfl, rfl, fun _ _ => .inl rfl, .inl rfl, fun h => ⟨h, rfl⟩⟩

theorem remembers_cachable (type : AmountType) {r : Int × CWalletTx}
    (h : cachable wtx type filter (amountOf env w wtx type filter) = .ok r) :
    Remembers env w wtx r.2 := by
  unfold cachable at h
  cases hcached : wtx.m_amounts type filter with
  | some value =>
    rw [hcached] at h
    obtain rfl := Except.ok.inj h
    exact .refl env w wtx
  | none =>
    rw [hcached] at h
    obtain ⟨value, hvalue, hr⟩ := bind_eq_ok.mp h
    obtain rfl := Except.ok.inj hr
    refine ⟨rfl, rfl, rfl, ?_, .inl rfl, by simp [CWalletTx.setAmount]⟩
    intro t f
    unfold CWalletTx.setAmount
    dsimp only
    split_ifs with hsame
    · obtain ⟨rfl, rfl⟩ := hsame
      exact .inr ⟨value, hvalue, hcached, rfl⟩
    · exact .inl rfl

theorem remembers_cachedTxGetDebit {r : Int × CWalletTx}
    (h : cachedTxGetDebit env w wtx filter = .ok r) : Remembers env w wtx r.2 := by
  unfold cachedTxGetDebit at h
  dsimp only at h
  split_ifs at h
  · obtain rfl := Except.ok.inj h
    exact .refl env w wtx
  · exact remembers_cachable .DEBIT h
  · obtain rfl := Except.ok.inj h
    exact .refl env w wtx

theorem remembers_cachedTxGetCredit {r : Int × CWalletTx}
    (h : cachedTxGetCredit env w wtx filter = .ok r) : Remembers env w wtx r.2 := by
  obtain ⟨immature, -, h⟩ := bind_eq_ok.mp h
  dsimp only at h
  split_ifs at h
  · obtain rfl := Except.ok.inj h
    exact .refl env w wtx
  · exact remembers_cachable .CREDIT h
  · obtain rfl := Except.ok.inj h
    exact .refl env w wtx

theorem remembers_cachedTxGetImmatureCredit {r : Int × CWalletTx}
    (h : cachedTxGetImmatureCredit env w wtx filter = .ok r) : Remembers env w wtx r.2 := by
  obtain ⟨immature, -, h⟩ := bind_eq_ok.mp h
  split_ifs at h
  · exact remembers_cachable .IMMATURE_CREDIT h
  · obtain rfl := Except.ok.inj h
    exact .refl env w wtx

theorem remembers_cachedTxGetAvailableCredit {r : Int × CWalletTx}
    (h : cachedTxGetAvailableCredit env w wtx filter = .ok r) : Remembers env w wtx r.2 := by
  obtain ⟨immature, -, h⟩ := bind_eq_ok.mp h
  split_ifs at h
  · obtain rfl := Except.ok.inj h
    exact .refl env w wtx
  · exact remembers_cachable .AVAILABLE_CREDIT h
  · obtain ⟨nCredit, -, hr⟩ := bind_eq_ok.mp h
    obtain rfl := Except.ok.inj hr
    exact .refl env w wtx

theorem remembers_cachedTxGetChange {r : Int × CWalletTx}
    (h : cachedTxGetChange env w wtx = .ok r) : Remembers env w wtx r.2 := by
  unfold cachedTxGetChange at h
  cases hcached : wtx.nChangeCached with
  | some change =>
    rw [hcached] at h
    obtain rfl := Except.ok.inj h
    exact .refl env w wtx
  | none =>
    rw [hcached] at h
    obtain ⟨change, hchange, hr⟩ := bind_eq_ok.mp h
    obtain rfl := Except.ok.inj hr
    exact ⟨rfl, rfl, rfl, fun _ _ => .inl rfl, .inr ⟨change, hchange, rfl⟩, fun hempty => ⟨hempty, rfl⟩⟩

theorem SameTxs.of_remembers {txid : Uint256} (hlookup : w.mapWallet.lookup txid = some wtx)
    (h : Remembers env w wtx wtx') :
    SameTxs w { w with mapWallet := w.mapWallet.insert txid wtx' } := by
  refine ⟨⟨rfl, rfl, rfl, rfl, rfl, rfl, rfl, ?_⟩, rfl, rfl, rfl, rfl, ?_⟩
  · intro t
    by_cases ht : t = txid
    · rw [ht, hlookup, Finmap.lookup_insert, Option.map_some, Option.map_some, CWalletTx.core, h.tx,
        h.state, CWalletTx.core]
    · rw [Finmap.lookup_insert_of_ne _ ht]
  · intro t
    by_cases ht : t = txid
    · rw [ht, hlookup, Finmap.lookup_insert, Option.map_some, Option.map_some, h.records]
    · rw [Finmap.lookup_insert_of_ne _ ht]

theorem Remembers.readAmount (h : Remembers env w wtx wtx') (hsame : SameTxs w w')
    (type : AmountType) (filter : isminefilter) :
    readAmount env w' wtx' type filter = readAmount env w wtx type filter := by
  unfold WalletCache.readAmount
  rcases h.amounts type filter with hamount | ⟨value, hvalue, hnone, hamount⟩
  · rw [hamount, hsame.amountOf h.tx h.records]
  · rw [hamount, hnone, hvalue]

end Caches

end Rcpu.WalletCache
