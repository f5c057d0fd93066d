import BitcoinAdaptor.TransactionManager.Basic

/-!
# The cache bound and the advertisement passes

In every reachable state the cache holds at most `TX_CACHE_SIZE = 250` entries, and each entry
is stored under its transaction's txid (`TransactionManager.Inv`). `send_transaction` keeps the
bound because it evicts the front entry of a full cache before inserting.

An advertisement pass for one peer walks the cache and lists the txids not yet advertised to
it; while the list stays below `MAXIMUM_TRANSACTION_PER_INV` the pass only marks the entries as
advertised and sends the list to that peer at the end (`TransactionManager.advertisePass_eq`).
With at most 250 entries it always does: so in every reachable state `advertise_txids` sends one
`inv` per peer that had something to learn, addressed to that peer, holding at most 250 distinct
cached txids, and the flush to all connections never happens
(`TransactionManager.transactions_bounded`).

## Main definitions

* `TransactionManager.Inv`: the invariant of the reachable states.
* `TransactionManager.unadvertised`: the txids a pass lists.

## Main results

* `TransactionManager.inv_run`.
* `TransactionManager.advertisePass_eq`, `TransactionManager.advertiseTxids_spec`.
* `TransactionManager.transactions_bounded`.

## References

`src/src/transaction_manager.rs`, lines 77–165.
-/

namespace BitcoinAdaptor

namespace TransactionManager

variable {Transaction Addr : Type} (B : Bitcoin Transaction)

/-! ### One advertisement pass -/

section Advertise

variable [DecidableEq Addr]

/-- An entry marked as advertised to `address`. -/
def markAdvertised (address : Addr) (e : Txid × TransactionInfo Transaction Addr) :
    Txid × TransactionInfo Transaction Addr :=
  (e.1, if address ∈ e.2.advertised then e.2 else { e.2 with advertised := address :: e.2.advertised })

/-- The txids of the entries not yet advertised to `address`, in order. -/
def unadvertised (address : Addr) (es : List (Txid × TransactionInfo Transaction Addr)) :
    List Txid :=
  (es.filter fun e => address ∉ e.2.advertised).map Prod.fst

theorem unadvertised_sublist (address : Addr) (es : List (Txid × TransactionInfo Transaction Addr)) :
    (unadvertised address es).Sublist (es.map Prod.fst) :=
  (List.filter_sublist _).map _

@[simp]
theorem markAdvertised_fst (address : Addr) (e : Txid × TransactionInfo Transaction Addr) :
    (markAdvertised address e).1 = e.1 :=
  rfl

@[simp]
theorem markAdvertised_transaction (address : Addr) (e : Txid × TransactionInfo Transaction Addr) :
    (markAdvertised address e).2.transaction = e.2.transaction := by
  unfold markAdvertised
  split_ifs <;> rfl

/-- The inner loop of a pass, while the inventory stays below `MAXIMUM_TRANSACTION_PER_INV`:
it marks every entry as advertised, appends the txids not yet advertised, and sends nothing. -/
theorem mapAccum_advertiseEntry (connections : List Addr) (address : Addr)
    (es : List (Txid × TransactionInfo Transaction Addr)) (inventory : List Inventory)
    (sent : List (Command Transaction Addr))
    (h : inventory.length + (unadvertised address es).length < maximumTransactionPerInv) :
    LinkedHashMap.mapAccum (advertiseEntry connections address) es (inventory, sent) =
      (es.map (markAdvertised address),
        inventory ++ (unadvertised address es).map .transaction, sent) := by
  induction es generalizing inventory with
  | nil => simp [LinkedHashMap.mapAccum, unadvertised]
  | cons e es ih =>
    obtain ⟨txid, info⟩ := e
    by_cases ha : address ∈ info.advertised
    · have hu : unadvertised address ((txid, info) :: es) = unadvertised address es := by
        simp [unadvertised, ha]
      rw [hu] at h
      simp [LinkedHashMap.mapAccum, advertiseEntry, ha, markAdvertised, ih inventory h,
        show inventory.length ≠ maximumTransactionPerInv by omega, hu]
    · have hu : unadvertised address ((txid, info) :: es) = txid :: unadvertised address es := by
        simp [unadvertised, ha]
      rw [hu, List.length_cons] at h
      have h' : (inventory ++ [Inventory.transaction txid]).length + (unadvertised address es).length <
          maximumTransactionPerInv := by
        simp only [List.length_append, List.length_singleton]
        omega
      simp [LinkedHashMap.mapAccum, advertiseEntry, ha, markAdvertised, ih _ h',
        show inventory.length + 1 ≠ maximumTransactionPerInv by omega, hu]

/-- A pass over a cache with fewer than `MAXIMUM_TRANSACTION_PER_INV` entries not advertised to
`address` marks them and sends them to `address` in one `inv`, if there are any. -/
theorem advertisePass_eq (connections : List Addr) (m : TransactionManager Transaction Addr)
    (sent : List (Command Transaction Addr)) (address : Addr)
    (h : (unadvertised address m.transactions.entries).length < maximumTransactionPerInv) :
    (advertisePass connections m sent address).1.transactions.entries =
        m.transactions.entries.map (markAdvertised address) ∧
      (advertisePass connections m sent address).2 =
        sent ++ if unadvertised address m.transactions.entries = [] then []
          else [⟨some address, .inv ((unadvertised address m.transactions.entries).map .transaction)⟩] := by
  have hm := mapAccum_advertiseEntry connections address m.transactions.entries [] sent
    (by simpa using h)
  simp only [advertisePass, LinkedHashMap.iterMut, hm, List.nil_append, List.isEmpty_iff,
    List.map_eq_nil_iff]
  split_ifs <;> simp

/-- What a pass keeps of each entry: its txid and its transaction. -/
def entryData (e : Txid × TransactionInfo Transaction Addr) : Txid × Transaction :=
  (e.1, e.2.transaction)

/-- The passes over a list of peers of a cache with fewer than `MAXIMUM_TRANSACTION_PER_INV`
entries: each sends, to its own peer, one `inv` of cached txids if it has any to send, and
none of them changes a txid or a transaction. -/
theorem foldl_advertisePass (connections peers : List Addr)
    (r : TransactionManager Transaction Addr × List (Command Transaction Addr))
    (h : r.1.transactions.len < maximumTransactionPerInv) :
    (peers.foldl (fun r address => advertisePass connections r.1 r.2 address) r).1.transactions.entries.map
        entryData = r.1.transactions.entries.map entryData ∧
      ∃ invs : List (List Txid), invs.length = peers.length ∧
        (peers.foldl (fun r address => advertisePass connections r.1 r.2 address) r).2 =
          r.2 ++ ((peers.zip invs).filter fun p => p.2 ≠ []).map
            (fun p => ⟨some p.1, .inv (p.2.map .transaction)⟩) ∧
        ∀ inv ∈ invs, inv.Sublist r.1.transactions.keys := by
  induction peers generalizing r with
  | nil => exact ⟨rfl, [], rfl, by simp, by simp⟩
  | cons address peers ih =>
    obtain ⟨he, hs⟩ := advertisePass_eq connections r.1 r.2 address
      (((unadvertised_sublist _ _).length_le.trans_eq (List.length_map _ _)).trans_lt h)
    have hdata : (advertisePass connections r.1 r.2 address).1.transactions.entries.map entryData =
        r.1.transactions.entries.map entryData := by
      rw [he, List.map_map]
      exact List.map_congr_left fun e _ => by simp [entryData]
    have hkeys : (advertisePass connections r.1 r.2 address).1.transactions.keys =
        r.1.transactions.keys := by
      rw [LinkedHashMap.keys, he, List.map_map]
      rfl
    have hlen : (advertisePass connections r.1 r.2 address).1.transactions.len =
        r.1.transactions.len := by
      rw [← LinkedHashMap.length_keys, hkeys, LinkedHashMap.length_keys]
    obtain ⟨hdata', invs, hinvs, hsent, hsub⟩ := ih _ (hlen ▸ h)
    refine ⟨hdata'.trans hdata, unadvertised address r.1.transactions.entries :: invs,
      by simp [hinvs], ?_, ?_⟩
    · rw [List.foldl_cons, hsent, hs]
      split_ifs with hnil <;> simp [hnil]
    · intro inv hinv
      rcases List.mem_cons.1 hinv with rfl | hinv
      · exact unadvertised_sublist address r.1.transactions.entries
      · exact hkeys ▸ hsub inv hinv

/-- `advertise_txids` on a cache with fewer than `MAXIMUM_TRANSACTION_PER_INV` entries sends, for
each connection in turn, one `inv` addressed to it of the cached txids not yet advertised to it,
if there are any, and nothing else. -/
theorem advertiseTxids_spec (m : TransactionManager Transaction Addr) (connections : List Addr)
    (h : m.transactions.len < maximumTransactionPerInv) :
    (m.advertiseTxids connections).1.transactions.entries.map entryData =
        m.transactions.entries.map entryData ∧
      ∃ invs : List (List Txid), invs.length = connections.length ∧
        (m.advertiseTxids connections).2 =
          ((connections.zip invs).filter fun p => p.2 ≠ []).map
            (fun p => ⟨some p.1, .inv (p.2.map .transaction)⟩) ∧
        ∀ inv ∈ invs, inv.Sublist m.transactions.keys := by
  obtain ⟨hd, invs, hl, hs, hsub⟩ := foldl_advertisePass connections connections (m, []) h
  exact ⟨hd, invs, hl, hs.trans (List.nil_append _), hsub⟩

end Advertise

/-! ### The invariant -/

/-- The invariant of the reachable states: at most `TX_CACHE_SIZE` entries, each under its
transaction's txid. -/
structure Inv (m : TransactionManager Transaction Addr) : Prop where
  len_le : m.transactions.len ≤ txCacheSize
  txid_eq : ∀ e ∈ m.transactions.entries, B.txid e.2.transaction = e.1

variable {B}

theorem inv_new : (new : TransactionManager Transaction Addr).Inv B where
  len_le := Nat.zero_le _
  txid_eq := by simp [new]

/-- A state whose entries keep their txids and transactions keeps the invariant. -/
theorem Inv.of_entryData {m m' : TransactionManager Transaction Addr} (hm : m.Inv B)
    (h : m'.transactions.entries.map entryData = m.transactions.entries.map entryData) :
    m'.Inv B where
  len_le := by
    rw [LinkedHashMap.len, ← List.length_map _ entryData, h, List.length_map]
    exact hm.len_le
  txid_eq e he := by
    obtain ⟨e', he', hd⟩ := List.mem_map.1 (h ▸ List.mem_map_of_mem entryData he)
    simp only [entryData, Prod.mk.injEq] at hd
    rw [← hd.1, ← hd.2]
    exact hm.txid_eq e' he'

/-- Evicting the front entry of a full cache leaves fewer than `TX_CACHE_SIZE` entries, all of
them cached before. -/
theorem Inv.evict {m : TransactionManager Transaction Addr} (hm : m.Inv B) :
    let base := if m.transactions.len = txCacheSize then m.transactions.popFront else m.transactions
    base.len < txCacheSize ∧ base.entries.Sublist m.transactions.entries := by
  refine ⟨?_, entries_evict_sublist _⟩
  split_ifs with hfull
  · simp only [LinkedHashMap.len, LinkedHashMap.entries_popFront, List.length_tail] at hfull ⊢
    unfold txCacheSize at hfull ⊢
    omega
  · exact lt_of_le_of_ne hm.len_le hfull

theorem Inv.sendTransaction {m : TransactionManager Transaction Addr} (hm : m.Inv B)
    (rawTx : List UInt8) (now : Nat) : (m.sendTransaction B rawTx now).Inv B := by
  cases hd : B.deserialize rawTx with
  | none => simpa only [TransactionManager.sendTransaction, hd] using hm
  | some transaction =>
    obtain ⟨hlen, hsub⟩ := hm.evict
    have ht := transactions_sendTransaction B m hd now
    generalize (if m.transactions.len = txCacheSize then m.transactions.popFront
      else m.transactions) = base at hlen hsub ht
    refine ⟨?_, fun e he => ?_⟩
    · rw [ht, LinkedHashMap.entryOrInsert_eq_putBack, LinkedHashMap.len_putBack]
      split_ifs
      · exact hlen.le
      · exact hlen
    · rw [ht] at he
      rcases LinkedHashMap.mem_entryOrInsert he with he | rfl
      · exact hm.txid_eq e (hsub.subset he)
      · rfl

theorem Inv.reap {m : TransactionManager Transaction Addr} (hm : m.Inv B) (now : Nat) :
    (m.reap now).Inv B where
  len_le := (List.length_filter_le _ _).trans hm.len_le
  txid_eq e he := hm.txid_eq e (List.mem_of_mem_filter he)

theorem Inv.tick [DecidableEq Addr] {m : TransactionManager Transaction Addr} (hm : m.Inv B)
    (connections : List Addr) (now : Nat) : (m.tick connections now).1.Inv B :=
  (hm.of_entryData (advertiseTxids_spec m connections
    (hm.len_le.trans_lt (by decide))).1).reap now

theorem Inv.step [DecidableEq Addr] {m : TransactionManager Transaction Addr} (hm : m.Inv B)
    (op : Op Transaction Addr) : (step B m op).1.Inv B := by
  cases op with
  | sendTransaction rawTx now => exact hm.sendTransaction rawTx now
  | tick connections now => exact hm.tick connections now
  | processBitcoinNetworkMessage => exact hm
  | makeIdle => exact ⟨Nat.zero_le _, fun e he => by simp [TransactionManager.step, makeIdle] at he⟩

theorem inv_run [DecidableEq Addr] (ops : List (Op Transaction Addr)) : (run B ops).1.Inv B := by
  induction ops using List.reverseRecOn with
  | nil => exact inv_new
  | append_singleton ops op ih =>
    rw [run_concat]
    exact ih.step op

/-- In every reachable state the cache holds at most 250 entries, each stored under its
transaction's txid; and `advertise_txids` from it sends, for each connection in turn, at most one
`inv`, addressed to that connection, of at most 250 distinct cached txids. So no inventory
reaches `MAXIMUM_TRANSACTION_PER_INV` and the flush to all connections never happens. -/
theorem transactions_bounded [DecidableEq Addr] (ops : List (Op Transaction Addr))
    (connections : List Addr) :
    let m := (run B ops).1
    m.transactions.len ≤ txCacheSize ∧
      (∀ k info, m.transactions.get k = some info → B.txid info.transaction = k) ∧
      ∃ invs : List (List Txid), invs.length = connections.length ∧
        (m.advertiseTxids connections).2 =
          ((connections.zip invs).filter fun p => p.2 ≠ []).map
            (fun p => ⟨some p.1, .inv (p.2.map .transaction)⟩) ∧
        ∀ inv ∈ invs, inv.length ≤ txCacheSize ∧ inv.Nodup ∧
          ∀ k ∈ inv, m.transactions.containsKey k := by
  intro m
  have hm : m.Inv B := inv_run ops
  obtain ⟨-, invs, hl, hs, hsub⟩ :=
    advertiseTxids_spec m connections (hm.len_le.trans_lt (by decide))
  refine ⟨hm.len_le, fun k info h => hm.txid_eq _ ((LinkedHashMap.get_eq_some_iff _).1 h),
    invs, hl, hs, fun inv hinv => ⟨?_, m.transactions.nodup_keys.sublist (hsub inv hinv),
      fun k hk => (m.transactions.containsKey_iff k).2 ((hsub inv hinv).subset hk)⟩⟩
  calc inv.length ≤ m.transactions.keys.length := (hsub inv hinv).length_le
    _ = m.transactions.len := m.transactions.length_keys
    _ ≤ txCacheSize := hm.len_le

end TransactionManager

end BitcoinAdaptor
