import BitcoinAdaptor.Bitcoin
import BitcoinAdaptor.TransactionManager.LinkedHashMap

/-!
# The transaction manager

`TransactionManager` holds the transactions the replica asked the adapter to relay, in a
`LinkedHashMap` from txid to `TransactionInfo`: the transaction, the peers it was advertised
to, and the time after which it is dropped. The cache holds at most `TX_CACHE_SIZE` entries.

Every operation is a function of the state and its inputs. The wall clock is read as an input
`now`, and the channel is given by the connections it reports and the commands sent to it.
`send_transaction` decodes a transaction and, after evicting the front entry of a full cache,
puts its txid's entry at the back: a cached txid keeps its entry, moved behind the others, and a
new one gets a fresh entry. `tick` advertises, to each available peer, the cached
txids not yet advertised to it, in one `inv` per peer (flushing to every peer whenever a batch
reaches `MAXIMUM_TRANSACTION_PER_INV`), and then drops the entries that timed out.
`process_bitcoin_network_message` answers a `getdata` with the cached transactions it names.
`make_idle` clears the cache.

A run is a sequence of operations from `new`, collecting the commands sent to the channel.

## Main definitions

* `Inventory`, `NetworkMessage`, `Command`: the messages of the channel.
* `TransactionInfo`, `TransactionManager` and its operations.
* `TransactionManager.Op`, `TransactionManager.step`, `TransactionManager.run`.

## References

`src/src/transaction_manager.rs`, lines 1–199.
-/

namespace BitcoinAdaptor

/-- `TX_CACHE_TIMEOUT_PERIOD_SECS`: ten minutes. -/
def txCacheTimeoutPeriodSecs : Nat := 10 * 60

/-- `MAXIMUM_TRANSACTION_PER_INV`. -/
def maximumTransactionPerInv : Nat := 50000

/-- `TX_CACHE_SIZE`. -/
def txCacheSize : Nat := 250

/-- `Duration::from_secs`: a `SystemTime` is a count of nanoseconds. -/
def durationFromSecs (secs : Nat) : Nat := secs * 1000000000

/-- `Inventory`: an item of an `inv` or `getdata` message. The transaction manager reads only
`Inventory::Transaction`; every other kind is kept apart by its wire type code. -/
inductive Inventory
  | transaction (txid : Txid)
  | other (invType : UInt32) (hash : BitVec 256)
  deriving DecidableEq, Repr

/-- `NetworkMessage`: the messages the transaction manager sends (`inv`, `tx`) or reads
(`getdata`); every other message is `other`. -/
inductive NetworkMessage (Transaction : Type)
  | inv (inventory : List Inventory)
  | getData (inventory : List Inventory)
  | tx (transaction : Transaction)
  | other (command : String)
  deriving DecidableEq, Repr

/-- `Command`: a message for the peer at `address`, or for every peer when it is `none`. -/
structure Command (Transaction Addr : Type) where
  address : Option Addr
  message : NetworkMessage Transaction
  deriving DecidableEq, Repr

/-- `ProcessBitcoinNetworkMessageError`. -/
inductive ProcessBitcoinNetworkMessageError
  | invalidMessage
  deriving DecidableEq, Repr

/-- `TransactionInfo`. The `HashSet` of advertised peers is a list without repetitions. -/
structure TransactionInfo (Transaction Addr : Type) where
  transaction : Transaction
  advertised : List Addr
  timeoutAt : Nat
  deriving DecidableEq, Repr

/-- `TransactionInfo::new`, at the clock reading `now`. -/
def TransactionInfo.new {Transaction Addr : Type} (transaction : Transaction) (now : Nat) :
    TransactionInfo Transaction Addr :=
  ⟨transaction, [], now + durationFromSecs txCacheTimeoutPeriodSecs⟩

/-- `TransactionManager`, without its logger and metrics. -/
structure TransactionManager (Transaction Addr : Type) where
  transactions : LinkedHashMap Txid (TransactionInfo Transaction Addr)

namespace TransactionManager

variable {Transaction Addr : Type} [DecidableEq Addr] (B : Bitcoin Transaction)

/-- `TransactionManager::new`. -/
def new : TransactionManager Transaction Addr :=
  ⟨LinkedHashMap.new⟩

/-- `TransactionManager::send_transaction`, at the clock reading `now`. -/
def sendTransaction (m : TransactionManager Transaction Addr) (rawTx : List UInt8) (now : Nat) :
    TransactionManager Transaction Addr :=
  match B.deserialize rawTx with
  | none => m
  | some transaction =>
    let txid := B.txid transaction
    let transactions :=
      if m.transactions.len = txCacheSize then m.transactions.popFront else m.transactions
    ⟨transactions.entryOrInsert txid (TransactionInfo.new transaction now)⟩

omit [DecidableEq Addr] in
/-- The map `send_transaction` inserts into keeps, in order, entries of the cache. -/
theorem entries_evict_sublist (t : LinkedHashMap Txid (TransactionInfo Transaction Addr)) :
    (if t.len = txCacheSize then t.popFront else t).entries.Sublist t.entries := by
  split_ifs
  · exact List.tail_sublist _
  · exact List.Sublist.refl _

omit [DecidableEq Addr] in
theorem transactions_sendTransaction (m : TransactionManager Transaction Addr)
    {rawTx : List UInt8} {transaction : Transaction} (h : B.deserialize rawTx = some transaction)
    (now : Nat) : (m.sendTransaction B rawTx now).transactions =
      (if m.transactions.len = txCacheSize then m.transactions.popFront else m.transactions).entryOrInsert
        (B.txid transaction) (TransactionInfo.new transaction now) := by
  simp only [sendTransaction, h]

/-- `TransactionManager::make_idle`. -/
def makeIdle (m : TransactionManager Transaction Addr) : TransactionManager Transaction Addr :=
  ⟨m.transactions.clear⟩

/-- `TransactionManager::reap`, at the clock reading `now`: keep the entries that have not timed
out. -/
def reap (m : TransactionManager Transaction Addr) (now : Nat) :
    TransactionManager Transaction Addr :=
  ⟨m.transactions.retain fun _ info => !decide (info.timeoutAt < now)⟩

/-- The body of the inner loop of `advertise_txids` for `address`, at the entry `(txid, info)`,
carrying the inventory built so far and the commands sent: if the entry was not advertised to
`address`, add its txid to the inventory and `address` to its advertised peers; then, if the
inventory holds `MAXIMUM_TRANSACTION_PER_INV` items, send it to every connection and start a new
one. The source reads `channel.available_connections()` again for that flush (line 136); the
model sends it to `connections`, the list the tick read, so it assumes the channel's connections
do not change during one `advertise_txids` (the flush never happens in a reachable state, see
`TransactionManager.transactions_bounded`). -/
def advertiseEntry (connections : List Addr) (address : Addr)
    (state : List Inventory × List (Command Transaction Addr)) (txid : Txid)
    (info : TransactionInfo Transaction Addr) :
    TransactionInfo Transaction Addr × (List Inventory × List (Command Transaction Addr)) :=
  let r := if address ∉ info.advertised then
      ({ info with advertised := address :: info.advertised }, state.1 ++ [.transaction txid])
    else (info, state.1)
  if r.2.length = maximumTransactionPerInv then
    (r.1, [], state.2 ++ connections.map fun address => ⟨some address, .inv r.2⟩)
  else (r.1, r.2, state.2)

/-- The pass of `advertise_txids` for one address: the inner loop over the cache, then the
inventory left, if any, sent to that address. -/
def advertisePass (connections : List Addr) (m : TransactionManager Transaction Addr)
    (sent : List (Command Transaction Addr)) (address : Addr) :
    TransactionManager Transaction Addr × List (Command Transaction Addr) :=
  let r := m.transactions.iterMut (advertiseEntry connections address) ([], sent)
  (⟨r.1⟩, if r.2.1.isEmpty then r.2.2 else r.2.2 ++ [⟨some address, .inv r.2.1⟩])

/-- `TransactionManager::advertise_txids`, with the connections the channel reports. -/
def advertiseTxids (m : TransactionManager Transaction Addr) (connections : List Addr) :
    TransactionManager Transaction Addr × List (Command Transaction Addr) :=
  connections.foldl (fun r address => advertisePass connections r.1 r.2 address) (m, [])

/-- `TransactionManager::tick`, with the connections the channel reports and the clock reading
`now` of `reap`. -/
def tick (m : TransactionManager Transaction Addr) (connections : List Addr) (now : Nat) :
    TransactionManager Transaction Addr × List (Command Transaction Addr) :=
  let r := m.advertiseTxids connections
  (r.1.reap now, r.2)

/-- `TransactionManager::process_bitcoin_network_message` from the peer `addr`: its result and
the commands it sends. It reads the cache and changes nothing in it. -/
def processBitcoinNetworkMessage (m : TransactionManager Transaction Addr) (addr : Addr)
    (message : NetworkMessage Transaction) :
    Except ProcessBitcoinNetworkMessageError Unit × List (Command Transaction Addr) :=
  match message with
  | .getData inventory =>
    if inventory.length > maximumTransactionPerInv then (.error .invalidMessage, [])
    else
      (.ok (), inventory.filterMap fun inv =>
        match inv with
        | .transaction txid =>
          (m.transactions.get txid).map fun info => ⟨some addr, .tx info.transaction⟩
        | .other _ _ => none)
  | _ => (.ok (), [])

/-! ### Runs -/

/-- The public operations, with their inputs: the clock readings and the connections. -/
inductive Op (Transaction Addr : Type)
  | sendTransaction (rawTx : List UInt8) (now : Nat)
  | tick (connections : List Addr) (now : Nat)
  | processBitcoinNetworkMessage (addr : Addr) (message : NetworkMessage Transaction)
  | makeIdle

/-- One operation: the state after it and the commands it sent. -/
def step (m : TransactionManager Transaction Addr) :
    Op Transaction Addr → TransactionManager Transaction Addr × List (Command Transaction Addr)
  | .sendTransaction rawTx now => (m.sendTransaction B rawTx now, [])
  | .tick connections now => m.tick connections now
  | .processBitcoinNetworkMessage addr message =>
    (m, (m.processBitcoinNetworkMessage addr message).2)
  | .makeIdle => (m.makeIdle, [])

/-- The state after a sequence of operations from `new`, and every command they sent, in
order. -/
def run (ops : List (Op Transaction Addr)) :
    TransactionManager Transaction Addr × List (Command Transaction Addr) :=
  ops.foldl (fun r op => ((step B r.1 op).1, r.2 ++ (step B r.1 op).2)) (new, [])

theorem run_append (ops ops' : List (Op Transaction Addr)) :
    run B (ops ++ ops') =
      ops'.foldl (fun r op => ((step B r.1 op).1, r.2 ++ (step B r.1 op).2)) (run B ops) :=
  List.foldl_append _ _ _ _

@[simp]
theorem run_nil : run B ([] : List (Op Transaction Addr)) = (new, []) :=
  rfl

theorem run_concat (ops : List (Op Transaction Addr)) (op : Op Transaction Addr) :
    run B (ops ++ [op]) =
      ((step B (run B ops).1 op).1, (run B ops).2 ++ (step B (run B ops).1 op).2) :=
  List.foldl_append _ _ _ _

end TransactionManager

end BitcoinAdaptor
