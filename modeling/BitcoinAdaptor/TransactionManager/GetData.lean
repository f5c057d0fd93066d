import BitcoinAdaptor.TransactionManager.Invariant

/-!
# Serving `getdata`

`process_bitcoin_network_message` reads the cache and changes nothing in it:
`LinkedHashMap::get_mut` does not move an entry, and the entry found is only cloned. A `getdata`
of more than `MAXIMUM_TRANSACTION_PER_INV` items is rejected with nothing sent. A smaller one is
answered item by item: each `Inventory::Transaction` item whose txid is cached gives one `tx` to
the peer, carrying the cached transaction, and every other item gives nothing
(`TransactionManager.processBitcoinNetworkMessage_getData`). In a reachable state each cached
transaction is stored under its own txid, so the transaction sent for a txid has that txid
(`TransactionManager.processBitcoinNetworkMessage_spec`). Every other message is accepted and
ignored.

## Main definitions

* `Inventory.txid?`: the txid of a transaction item.

## Main results

* `TransactionManager.processBitcoinNetworkMessage_getData`: the answer from any state.
* `TransactionManager.processBitcoinNetworkMessage_spec`: every message, in a reachable state.

## References

`src/src/transaction_manager.rs`, lines 167–198.
-/

namespace BitcoinAdaptor

/-- The txid of an `Inventory::Transaction` item. -/
def Inventory.txid? : Inventory → Option Txid
  | .transaction txid => some txid
  | .other _ _ => none

namespace TransactionManager

variable {Transaction Addr : Type} {B : Bitcoin Transaction}

/-- The loop over a `getdata` inventory sends, in order, the cached transaction of each
transaction item whose txid is cached. -/
private theorem filterMap_getData (m : TransactionManager Transaction Addr) (addr : Addr)
    (inventory : List Inventory) :
    ∃ served : List (Txid × Transaction),
      served.map Prod.fst =
        (inventory.filterMap Inventory.txid?).filter m.transactions.containsKey ∧
      (∀ p ∈ served, ∃ info, m.transactions.get p.1 = some info ∧ info.transaction = p.2) ∧
      (inventory.filterMap fun inv =>
        match inv with
        | .transaction txid =>
          (m.transactions.get txid).map fun info =>
            (⟨some addr, .tx info.transaction⟩ : Command Transaction Addr)
        | .other _ _ => none) =
        served.map fun p => (⟨some addr, .tx p.2⟩ : Command Transaction Addr) := by
  induction inventory with
  | nil => exact ⟨[], rfl, by simp, rfl⟩
  | cons inv inventory ih =>
    obtain ⟨served, hkeys, hval, hcmd⟩ := ih
    cases inv with
    | other => exact ⟨served, by simpa [Inventory.txid?] using hkeys, hval, by simpa using hcmd⟩
    | transaction txid =>
      cases hg : m.transactions.get txid with
      | none =>
        exact ⟨served, by simp [Inventory.txid?, LinkedHashMap.containsKey, hg, hkeys], hval,
          by simp [hg, hcmd]⟩
      | some info =>
        refine ⟨(txid, info.transaction) :: served,
          by simp [Inventory.txid?, LinkedHashMap.containsKey, hg, hkeys], ?_, by simp [hg, hcmd]⟩
        rintro p (_ | ⟨_, hp⟩)
        · exact ⟨info, hg, rfl⟩
        · exact hval p hp

/-- A `getdata` of at most `MAXIMUM_TRANSACTION_PER_INV` items, from any state, succeeds and sends,
in the order of the inventory, one `tx` to the peer per transaction item whose txid is cached,
carrying the transaction cached under it. -/
theorem processBitcoinNetworkMessage_getData [DecidableEq Addr]
    (m : TransactionManager Transaction Addr) (addr : Addr) {inventory : List Inventory}
    (h : inventory.length ≤ maximumTransactionPerInv) :
    (m.processBitcoinNetworkMessage addr (.getData inventory)).1 = .ok () ∧
      ∃ served : List (Txid × Transaction),
        served.map Prod.fst =
          (inventory.filterMap Inventory.txid?).filter m.transactions.containsKey ∧
        (∀ p ∈ served, ∃ info, m.transactions.get p.1 = some info ∧ info.transaction = p.2) ∧
        (m.processBitcoinNetworkMessage addr (.getData inventory)).2 =
          served.map fun p => ⟨some addr, .tx p.2⟩ := by
  simp only [processBitcoinNetworkMessage, if_neg (Nat.not_lt.2 h), true_and]
  exact filterMap_getData m addr inventory

/-- In every reachable state, `process_bitcoin_network_message` changes nothing in the cache. A
`getdata` of more than `MAXIMUM_TRANSACTION_PER_INV` items is rejected with `InvalidMessage` and
sends nothing; a smaller one succeeds and sends, in the order of the inventory, one `tx` to the
peer per transaction item whose txid is cached, carrying the transaction cached under it, whose
txid is that txid; every other message succeeds and sends nothing. -/
theorem processBitcoinNetworkMessage_spec [DecidableEq Addr] (ops : List (Op Transaction Addr))
    (addr : Addr) (message : NetworkMessage Transaction) :
    let m := (run B ops).1
    let r := m.processBitcoinNetworkMessage addr message
    step B m (.processBitcoinNetworkMessage addr message) = (m, r.2) ∧
      match message with
      | .getData inventory =>
        if inventory.length > maximumTransactionPerInv then r = (.error .invalidMessage, [])
        else r.1 = .ok () ∧ ∃ served : List (Txid × Transaction),
          served.map Prod.fst =
            (inventory.filterMap Inventory.txid?).filter m.transactions.containsKey ∧
          (∀ p ∈ served, ∃ info, m.transactions.get p.1 = some info ∧ info.transaction = p.2 ∧
            B.txid p.2 = p.1) ∧
          r.2 = served.map fun p => ⟨some addr, .tx p.2⟩
      | _ => r = (.ok (), []) := by
  intro m r
  refine ⟨rfl, ?_⟩
  cases message with
  | getData inventory =>
    dsimp only
    split_ifs with h
    · exact if_pos h
    · obtain ⟨hok, served, hkeys, hval, hcmd⟩ :=
        processBitcoinNetworkMessage_getData m addr (Nat.not_lt.1 h)
      refine ⟨hok, served, hkeys, fun p hp => ?_, hcmd⟩
      obtain ⟨info, hinfo, htx⟩ := hval p hp
      -- the entry's transaction has the entry's txid
      exact ⟨info, hinfo, htx,
        htx ▸ (inv_run ops).txid_eq _ ((LinkedHashMap.get_eq_some_iff _).1 hinfo)⟩
  | inv => rfl
  | tx => rfl
  | other => rfl

end TransactionManager

end BitcoinAdaptor
