import Mathlib.Data.List.Sort
import Rcpu.Checks
import Rcpu.CoreWrite
import Rcpu.Policy
import Rcpu.SwapList

/-!
# The orphanage

`txorphanage.cpp`: transactions whose inputs are not known yet, with the peer each came from, an index
by the outputs they spend, and for each peer the set of orphans to look at again.  `ProcessOrphanTx` of
`net_processing.cpp` takes them from that set and hands them to the mempool, as long as the peer's
budget pays for the range proofs.

An iterator into `m_orphans` is the key it points to.  Where a loop visits all orphans, the order of
the visit is an argument.
-/

namespace Rcpu.Orphanage

open Checks WeightedMap Transaction CoreWrite Policy

abbrev NodeId := Int

abbrev Txid := Uint256

def ORPHAN_TX_EXPIRE_TIME : Int := 20 * 60

def ORPHAN_TX_EXPIRE_INTERVAL : Int := 5 * 60

structure OrphanTx where
  tx : CTransaction
  fromPeer : NodeId
  nTimeExpire : Int
  list_pos : Nat
deriving DecidableEq, Repr

structure TxOrphanage where
  m_orphans : Map Txid OrphanTx
  m_peer_work_set : Map NodeId (List Txid)
  m_outpoint_to_orphan_it : Map COutPoint (List Txid)
  m_orphan_list : List Txid
  /-- The static variable of `LimitOrphans`. -/
  nNextSweep : Int

def TxOrphanage.empty : TxOrphanage := ⟨∅, ∅, ∅, [], 0⟩

namespace TxOrphanage

def spenders (o : TxOrphanage) (prevout : COutPoint) : List Txid :=
  (o.m_outpoint_to_orphan_it.lookup prevout).getD []

def workSet (o : TxOrphanage) (peer : NodeId) : List Txid := (o.m_peer_work_set.lookup peer).getD []

end TxOrphanage

section Orphans

variable (getHash : CTransaction → Uint256)

/-! ### Adding and erasing -/

def indexInput (hash : Txid) (index : Map COutPoint (List Txid)) (txin : CTxIn) :
    Map COutPoint (List Txid) :=
  index.insert txin.prevout (((index.lookup txin.prevout).getD []).insert hash)

def addTx (o : TxOrphanage) (tx : CTransaction) (peer : NodeId) (now : Int) : TxOrphanage × Bool :=
  let hash := getHash tx
  if (o.m_orphans.lookup hash).isSome then (o, false)
  -- big transactions are ignored, against memory exhaustion
  else if getTransactionWeight tx > MAX_STANDARD_TX_WEIGHT then (o, false)
  else
    ({ o with
        m_orphans := o.m_orphans.insert hash
          ⟨tx, peer, now + ORPHAN_TX_EXPIRE_TIME, o.m_orphan_list.length⟩
        m_orphan_list := o.m_orphan_list ++ [hash]
        m_outpoint_to_orphan_it := tx.vin.foldl (indexInput hash) o.m_outpoint_to_orphan_it }, true)

def unindexInput (txid : Txid) (index : Map COutPoint (List Txid)) (txin : CTxIn) :
    Map COutPoint (List Txid) :=
  match index.lookup txin.prevout with
  | none => index
  | some spenders =>
    let left := spenders.filter (· ≠ txid)
    if left = [] then index.erase txin.prevout else index.insert txin.prevout left

def setListPos (orphans : Map Txid OrphanTx) (txid : Txid) (pos : Nat) : Map Txid OrphanTx :=
  match orphans.lookup txid with
  | some orphan => orphans.insert txid { orphan with list_pos := pos }
  | none => orphans

def eraseTxNoLock (o : TxOrphanage) (txid : Txid) : Except String TxOrphanage :=
  match o.m_orphans.lookup txid with
  | none => .ok o
  | some it => do
    let index := it.tx.vin.foldl (unindexInput txid) o.m_outpoint_to_orphan_it
    let old_pos := it.list_pos
    require (o.m_orphan_list[old_pos]? = some txid) "m_orphan_list[old_pos] == it"
    -- unless it is the last entry itself, the last entry moves to its place
    let it_last := o.m_orphan_list.getLast?.getD txid
    let moved := old_pos + 1 ≠ o.m_orphan_list.length
    let list := if moved then o.m_orphan_list.set old_pos it_last else o.m_orphan_list
    let orphans := if moved then setListPos o.m_orphans it_last old_pos else o.m_orphans
    return { o with
      m_outpoint_to_orphan_it := index
      m_orphan_list := list.dropLast
      m_orphans := orphans.erase txid }

def eraseIf (kind : OrphanTx → Bool) (o : TxOrphanage) (txid : Txid) : Except String TxOrphanage :=
  match o.m_orphans.lookup txid with
  | some orphan => if kind orphan then eraseTxNoLock o (getHash orphan.tx) else .ok o
  | none => .ok o

def eraseWhere (kind : OrphanTx → Bool) (o : TxOrphanage) (order : List Txid) :
    Except String TxOrphanage := order.foldlM (eraseIf getHash kind) o

def eraseForPeer (o : TxOrphanage) (peer : NodeId) (order : List Txid) : Except String TxOrphanage :=
  eraseWhere getHash (fun orphan => orphan.fromPeer = peer)
    { o with m_peer_work_set := o.m_peer_work_set.erase peer } order

def minExpTime (o : TxOrphanage) (order : List Txid) (nNow : Int) : Int :=
  order.foldl (fun nMinExpTime txid =>
    match o.m_orphans.lookup txid with
    | some orphan =>
      if orphan.nTimeExpire ≤ nNow then nMinExpTime else min orphan.nTimeExpire nMinExpTime
    | none => nMinExpTime) (nNow + ORPHAN_TX_EXPIRE_TIME - ORPHAN_TX_EXPIRE_INTERVAL)

/-- The second loop of `LimitOrphans`, with the random numbers it draws. -/
def evict (maxOrphans : Nat) (rng : Nat → Nat) : Nat → TxOrphanage → Except String TxOrphanage
  | 0, o => .ok o
  | n + 1, o =>
    if o.m_orphans.keys.card > maxOrphans then
      match o.m_orphan_list[rng n % o.m_orphan_list.length]? with
      | some txid => do
        let o ← eraseTxNoLock o txid
        evict maxOrphans rng n o
      | none => .error "randrange(0)"
    else .ok o

def limitOrphans (o : TxOrphanage) (maxOrphans : Nat) (rng : Nat → Nat) (nNow : Int)
    (order : List Txid) : Except String TxOrphanage := do
  let o ← if o.nNextSweep ≤ nNow then do
      let swept ← eraseWhere getHash (fun orphan => orphan.nTimeExpire ≤ nNow) o order
      pure { swept with nNextSweep := minExpTime o order nNow + ORPHAN_TX_EXPIRE_INTERVAL }
    else .ok o
  evict maxOrphans rng o.m_orphans.keys.card o

def eraseForBlock (o : TxOrphanage) (vtx : List CTransaction) : Except String TxOrphanage :=
  let vOrphanErase := vtx.flatMap fun tx => tx.vin.flatMap fun txin =>
    (o.spenders txin.prevout).filterMap fun txid =>
      (o.m_orphans.lookup txid).map fun orphan => getHash orphan.tx
  vOrphanErase.foldlM eraseTxNoLock o

/-! ### Work sets -/

/-- `std::set<Txid>::insert` -/
def insertTxid (txid : Txid) (workSet : List Txid) : List Txid :=
  if txid ∈ workSet then workSet
  else workSet.orderedInsert (fun a b => a.bytes ≤ b.bytes) txid

def addWork (o : TxOrphanage) (work : NodeId × Txid) : TxOrphanage :=
  { o with m_peer_work_set :=
      o.m_peer_work_set.insert work.1 (insertTxid work.2 (o.workSet work.1)) }

def children (o : TxOrphanage) (tx : CTransaction) : List (NodeId × Txid) :=
  (List.range tx.vout.length).flatMap fun i =>
    (o.spenders ⟨getHash tx, UInt32.ofNat i⟩).filterMap fun txid =>
      (o.m_orphans.lookup txid).map fun orphan => (orphan.fromPeer, txid)

def addChildrenToWorkSet (o : TxOrphanage) (tx : CTransaction) : TxOrphanage :=
  (children getHash o tx).foldl addWork o

def takeOrphan (orphans : Map Txid OrphanTx) : List Txid → List Txid × Option (Txid × CTransaction)
  | [] => ([], none)
  | txid :: rest =>
    match orphans.lookup txid with
    | some orphan => (rest, some (txid, orphan.tx))
    | none => takeOrphan orphans rest

def getTxToReconsider (o : TxOrphanage) (peer : NodeId) : TxOrphanage × Option (Txid × CTransaction) :=
  match o.m_peer_work_set.lookup peer with
  | none => (o, none)
  | some workSet =>
    let (rest, found) := takeOrphan o.m_orphans workSet
    ({ o with m_peer_work_set := o.m_peer_work_set.insert peer rest }, found)

/-! ### Looking at orphans again -/

def CT_PROOF_BUDGET_MAX : Int := 256 * 1024

/-- What a peer may still have us verify, and when that was last refilled, in microseconds. -/
structure CTBudget where
  m_ct_budget_tokens : Int
  m_ct_budget_last : Int
deriving DecidableEq, Repr

def consumeCTProofBudget (budget : CTBudget) (now bytes : Int) : CTBudget × Bool :=
  if bytes ≤ 0 then (budget, true)
  else
    let elapsed_us := now - budget.m_ct_budget_last
    let budget := if elapsed_us > 0 then
        ⟨min CT_PROOF_BUDGET_MAX (budget.m_ct_budget_tokens + (elapsed_us * 32).tdiv 1000), now⟩
      else budget
    if budget.m_ct_budget_tokens < bytes then (budget, false)
    else ({ budget with m_ct_budget_tokens := budget.m_ct_budget_tokens - bytes }, true)

def ctProofBytes (tx : CTransaction) : Int :=
  if !tx.fCT then 0
  else (tx.vout.map fun out => if out.nValue.IsExplicit then 0 else (out.vchRangeproof.length : Int)).sum

inductive MempoolAcceptResult where
  | VALID
  | TX_MISSING_INPUTS
  | rejected
deriving DecidableEq, Repr

structure Round where
  now : Int
  result : MempoolAcceptResult

/-- What `ProcessOrphanTx` leaves, what it handed to `ProcessTransaction`, and which entries it added
to work sets. -/
structure Processed where
  orphanage : TxOrphanage
  budget : CTBudget
  handed : List Txid
  added : List (NodeId × Txid)
  more : Bool

/-- The loop of `ProcessOrphanTx`; every round takes an orphan from the work set. -/
def processOrphanLoop (peer : NodeId) (rounds : Nat → Round) :
    Nat → TxOrphanage → CTBudget → List Txid → Except String Processed
  | 0, o, budget, handed => .ok ⟨o, budget, handed, [], false⟩
  | n + 1, o, budget, handed =>
    match getTxToReconsider o peer with
    | (o, none) => .ok ⟨o, budget, handed, [], false⟩
    | (o, some (txid, tx)) =>
      let ct_proof_bytes := ctProofBytes tx
      let (budget, paid) := if ct_proof_bytes > 0 then
          consumeCTProofBudget budget (rounds n).now ct_proof_bytes
        else (budget, true)
      -- the orphan is deferred
      if !paid then .ok ⟨o, budget, handed, [], false⟩
      else
        match (rounds n).result with
        | .VALID => do
          let erased ← eraseTxNoLock (addChildrenToWorkSet getHash o tx) (getHash tx)
          return ⟨erased, budget, handed ++ [txid], children getHash o tx, true⟩
        | .rejected => do
          let erased ← eraseTxNoLock o (getHash tx)
          return ⟨erased, budget, handed ++ [txid], [], true⟩
        | .TX_MISSING_INPUTS => processOrphanLoop peer rounds n o budget (handed ++ [txid])

def processOrphanTx (o : TxOrphanage) (peer : NodeId) (budget : CTBudget) (rounds : Nat → Round) :
    Except String Processed :=
  processOrphanLoop getHash peer rounds (o.workSet peer).length o budget []

end Orphans

end Rcpu.Orphanage
