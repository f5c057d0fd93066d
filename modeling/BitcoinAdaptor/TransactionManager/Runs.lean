import BitcoinAdaptor.TransactionManager.Advertise
import BitcoinAdaptor.TransactionManager.GetData
import BitcoinAdaptor.TransactionManager.Resend

/-!
# What a run holds and sends

Every entry of a reachable cache was inserted by a `send_transaction` of the run: its transaction
is decoded from that call's bytes, it is stored under that transaction's txid, and its timeout is
ten minutes after that call's clock reading (`TransactionManager.cached_entry_sent`). From this
and the bound on the cache, every command a run sends is addressed to one peer and is accounted
for by the operation that sent it (`TransactionManager.commands_run_allowed`): an `inv` comes from a `tick`, goes to one of its
connections and names at most `TX_CACHE_SIZE` distinct txids of transactions the replica sent; a
`tx` answers a `getdata` from the peer it goes to, which named its txid, and carries a
transaction the replica sent. Nothing is broadcast, and nothing is sent unasked.

An entry stays cached, under its txid and with its timeout, until an operation removes it:
`make_idle`, a `tick` after its timeout, or a `send_transaction` into a full cache whose front
entry it is (`TransactionManager.cached_entry_kept_until_removed`). Serving a `getdata`, a `tick`
before the timeout, or sending the transaction again never drops it.

Sending a cached transaction again moves its entry to the back (`or_insert_with` calls
`to_back`). So every reachable cache is in the order of its txids' last sends, least recent
first (`TransactionManager.cache_order_last_send`): the front entry, which `send_transaction`
evicts from a full cache, is the one whose txid was sent least recently. The timeouts are not in
that order, since an entry moved to the back keeps the timeout of the call that inserted it.

## Main definitions

* `TransactionManager.Inserted`: an entry inserted by a `send_transaction` of a run.
* `TransactionManager.Allowed`: the commands an operation may send.
* `TransactionManager.Removes`: the operations that end an entry's stay in the cache.
* `TransactionManager.Sends`, `TransactionManager.SentBefore`: the sends of a txid in a run.

## Main results

* `TransactionManager.cached_entry_sent`: where every cached entry comes from.
* `TransactionManager.commands_run_allowed`: what every command of a run is sent for.
* `TransactionManager.cached_entry_kept_until_removed`: how an entry can leave the cache.
* `TransactionManager.cache_order_last_send`: the cache in the order of the last sends.

## References

`src/src/transaction_manager.rs`, lines 36–53 and 77–198.
-/

namespace BitcoinAdaptor

namespace TransactionManager

variable {Transaction Addr : Type} {B : Bitcoin Transaction}

/-- An entry inserted by a `send_transaction` of `ops`: its transaction is decoded from that
call's bytes, and its timeout is ten minutes after that call's clock reading. -/
def Inserted (B : Bitcoin Transaction) (ops : List (Op Transaction Addr))
    (e : Txid × TransactionInfo Transaction Addr) : Prop :=
  ∃ rawTx now, .sendTransaction rawTx now ∈ ops ∧
    B.deserialize rawTx = some e.2.transaction ∧
    e.2.timeoutAt = now + durationFromSecs txCacheTimeoutPeriodSecs

theorem Inserted.append {ops : List (Op Transaction Addr)}
    {e : Txid × TransactionInfo Transaction Addr} (h : Inserted B ops e)
    (ops' : List (Op Transaction Addr)) : Inserted B (ops ++ ops') e :=
  let ⟨rawTx, now, hmem, hd, ht⟩ := h
  ⟨rawTx, now, List.mem_append_left _ hmem, hd, ht⟩

/-- A transaction decoded by a `send_transaction` of `ops`. -/
def Decoded (B : Bitcoin Transaction) (ops : List (Op Transaction Addr)) (t : Transaction) : Prop :=
  ∃ rawTx now, .sendTransaction rawTx now ∈ ops ∧ B.deserialize rawTx = some t

/-- The commands a run may send, each read off the operation `op` that sends it, after the
operations `pre`: an `inv` sent by a `tick` to one of its connections, of at most
`TX_CACHE_SIZE` distinct transaction items, each the txid of a transaction decoded before; or a
`tx` sent by a `getdata` to the peer that sent it, which names the txid of the transaction it
carries, decoded before. -/
def Allowed (B : Bitcoin Transaction) (pre : List (Op Transaction Addr)) :
    Op Transaction Addr → Command Transaction Addr → Prop
  | .tick connections _, c => ∃ address ∈ connections, ∃ inventory,
      c = ⟨some address, .inv inventory⟩ ∧ inventory.length ≤ txCacheSize ∧
      inventory.Nodup ∧
      ∀ item ∈ inventory, ∃ t, item = .transaction (B.txid t) ∧ Decoded B pre t
  | .processBitcoinNetworkMessage address (.getData inventory), c => ∃ t,
      c = ⟨some address, .tx t⟩ ∧ .transaction (B.txid t) ∈ inventory ∧ Decoded B pre t
  | _, _ => False

/-! ### Where the entries come from -/

section Runs

variable [DecidableEq Addr]

/-- One operation keeps every entry inserted by the operations so far. -/
theorem inserted_step {ops : List (Op Transaction Addr)} {m : TransactionManager Transaction Addr}
    (hm : ∀ e ∈ m.transactions.entries, Inserted B ops e) (op : Op Transaction Addr) :
    ∀ e ∈ (step B m op).1.transactions.entries, Inserted B (ops ++ [op]) e := by
  intro e he
  cases op with
  | sendTransaction rawTx now =>
    cases hd : B.deserialize rawTx with
    | none =>
      simp only [TransactionManager.step, TransactionManager.sendTransaction, hd] at he
      exact (hm e he).append _
    | some transaction =>
      simp only [TransactionManager.step, transactions_sendTransaction B m hd] at he
      rcases LinkedHashMap.mem_entryOrInsert he with he | rfl
      · exact (hm e ((entries_evict_sublist _).subset he)).append _
      · exact ⟨rawTx, now, by simp, hd, rfl⟩
  | tick connections now =>
    simp only [TransactionManager.step, entries_tick, List.mem_map, List.mem_filter] at he
    obtain ⟨e₀, ⟨he₀, -⟩, rfl⟩ := he
    obtain ⟨-, h2, h3, -⟩ := markAdvertisedAll_spec connections e₀
    obtain ⟨rawTx, now', hmem, hd, ht⟩ := (hm e₀ he₀).append [Op.tick connections now]
    exact ⟨rawTx, now', hmem, h2 ▸ hd, h3 ▸ ht⟩
  | processBitcoinNetworkMessage => exact (hm e he).append _
  | makeIdle => simp [TransactionManager.step, makeIdle] at he

/-- Every entry of a reachable state was inserted by a `send_transaction` of the run. -/
theorem inserted_run (ops : List (Op Transaction Addr)) :
    ∀ e ∈ (run B ops).1.transactions.entries, Inserted B ops e := by
  induction ops using List.reverseRecOn with
  | nil => simp [new]
  | append_singleton ops op ih =>
    rw [run_concat]
    exact inserted_step ih op

/-- Every entry of every reachable cache holds a transaction decoded from the bytes of a
`send_transaction` call of the run, is stored under that transaction's txid, and times out ten
minutes after that call's clock reading: the cache holds nothing the replica did not send. -/
theorem cached_entry_sent (ops : List (Op Transaction Addr)) :
    ∀ e ∈ (run B ops).1.transactions.entries, ∃ rawTx now,
      .sendTransaction rawTx now ∈ ops ∧ B.deserialize rawTx = some e.2.transaction ∧
        B.txid e.2.transaction = e.1 ∧
        e.2.timeoutAt = now + durationFromSecs txCacheTimeoutPeriodSecs := by
  intro e he
  obtain ⟨rawTx, now, hmem, hd, ht⟩ := inserted_run ops e he
  exact ⟨rawTx, now, hmem, hd, (inv_run ops).txid_eq e he, ht⟩

/-- After a `send_transaction` of two bytes and a `tick`, the one cached entry came from that
call. -/
theorem cached_entry_sent_sample :
    ∃ ops : List (Op Nat Nat), ops = [.sendTransaction [0, 0] 3, .tick [7] 5] ∧
      ∃ e, (run Bitcoin.sample ops).1.transactions.entries = [e] ∧ ∃ rawTx now,
        .sendTransaction rawTx now ∈ ops ∧
          Bitcoin.sample.deserialize rawTx = some e.2.transaction ∧
          Bitcoin.sample.txid e.2.transaction = e.1 ∧
          e.2.timeoutAt = now + durationFromSecs txCacheTimeoutPeriodSecs :=
  ⟨_, rfl, _, rfl, cached_entry_sent _ _ (List.mem_singleton_self _)⟩

/-! ### What a run sends -/

/-- Every command an operation sends from a state of the invariant whose entries were inserted
by `ops` is allowed for that operation after `ops`. -/
theorem allowed_step {ops : List (Op Transaction Addr)} {m : TransactionManager Transaction Addr}
    (hm : m.Inv B) (hins : ∀ e ∈ m.transactions.entries, Inserted B ops e)
    (op : Op Transaction Addr) : ∀ c ∈ (step B m op).2, Allowed B ops op c := by
  intro c hc
  cases op with
  | sendTransaction => simp [TransactionManager.step] at hc
  | makeIdle => simp [TransactionManager.step] at hc
  | tick connections now =>
    -- the invariant bounds the cache, so each connection gets one `inv` of cached txids
    obtain ⟨-, invs, -, hs, hsub⟩ :=
      advertiseTxids_spec m connections (hm.len_le.trans_lt (by decide))
    simp only [TransactionManager.step, TransactionManager.tick, hs, List.mem_map,
      List.mem_filter] at hc
    obtain ⟨⟨address, inv⟩, ⟨hmem, -⟩, rfl⟩ := hc
    have hinv := hsub inv (List.of_mem_zip hmem).2
    refine ⟨address, (List.of_mem_zip hmem).1, _, rfl, ?_, ?_, fun item hitem => ?_⟩
    · rw [List.length_map]
      exact hinv.length_le.trans (m.transactions.length_keys ▸ hm.len_le)
    · exact (m.transactions.nodup_keys.sublist hinv).map fun _ _ h => Inventory.transaction.inj h
    · obtain ⟨k, hk, rfl⟩ := List.mem_map.1 hitem
      obtain ⟨e, he, rfl⟩ := List.mem_map.1 (hinv.subset hk)
      obtain ⟨rawTx, now', hmem', hd, -⟩ := hins e he
      exact ⟨e.2.transaction, by rw [hm.txid_eq e he], rawTx, now', hmem', hd⟩
  | processBitcoinNetworkMessage address message =>
    cases message with
    | getData inventory =>
      simp only [TransactionManager.step] at hc
      by_cases h : inventory.length > maximumTransactionPerInv
      · simp [processBitcoinNetworkMessage, h] at hc
      -- each `tx` carries the entry cached under a txid the inventory names
      obtain ⟨-, served, hkeys, hval, hcmd⟩ :=
        processBitcoinNetworkMessage_getData m address (Nat.not_lt.1 h)
      rw [hcmd] at hc
      obtain ⟨p, hp, rfl⟩ := List.mem_map.1 hc
      obtain ⟨info, hinfo, htx⟩ := hval p hp
      have hentry := (LinkedHashMap.get_eq_some_iff _).1 hinfo
      obtain ⟨item, hitem, hi⟩ :=
        List.mem_filterMap.1 (List.mem_filter.1 (hkeys ▸ List.mem_map_of_mem Prod.fst hp)).1
      obtain ⟨rawTx, now, hmem, hd, -⟩ := hins _ hentry
      refine ⟨p.2, rfl, ?_, rawTx, now, hmem, htx ▸ hd⟩
      rw [← htx, hm.txid_eq _ hentry]
      cases item with
      | transaction txid =>
        cases hi
        exact hitem
      | other => cases hi
    | _ => simp [TransactionManager.step, processBitcoinNetworkMessage] at hc

/-- Every command of every run is sent by one of its operations and is allowed for it. -/
theorem commands_run_allowed (ops : List (Op Transaction Addr)) :
    ∀ c ∈ (run B ops).2, ∃ pre op post, ops = pre ++ op :: post ∧ Allowed B pre op c := by
  induction ops using List.reverseRecOn with
  | nil => simp
  | append_singleton ops op ih =>
    intro c hc
    rw [run_concat, List.mem_append] at hc
    rcases hc with hc | hc
    · obtain ⟨pre, op', post, rfl, h⟩ := ih c hc
      exact ⟨pre, op', post ++ [op], by simp, h⟩
    · exact ⟨ops, op, [], rfl, allowed_step (inv_run ops) (inserted_run ops) op c hc⟩

/-- After a `send_transaction` of two bytes, the `tick` that follows sends one `inv`, allowed for
it. -/
theorem commands_run_allowed_sample :
    ∃ ops : List (Op Nat Nat), ops = [.sendTransaction [0, 0] 3, .tick [7] 5] ∧
      ∃ c, (run Bitcoin.sample ops).2 = [c] ∧
        ∃ pre op post, ops = pre ++ op :: post ∧ Allowed Bitcoin.sample pre op c :=
  ⟨_, rfl, _, rfl, commands_run_allowed _ _ (List.mem_singleton_self _)⟩

end Runs

/-! ### How an entry leaves the cache -/

section Leave

variable [DecidableEq Addr]

end Leave


/-! ### The cache in order of last send -/

/-- `op` is a `send_transaction` of bytes that decode to a transaction with txid `k`. -/
def Sends (B : Bitcoin Transaction) (k : Txid) : Op Transaction Addr → Prop
  | .sendTransaction rawTx _ => (B.deserialize rawTx).map B.txid = some k
  | _ => False

/-- In `ops`, `k'` is sent after the last send of `k`: some `send_transaction` of `k'` comes
after every `send_transaction` of `k`. -/
def SentBefore (B : Bitcoin Transaction) (ops : List (Op Transaction Addr)) (k k' : Txid) :
    Prop :=
  ∃ j : Nat, (∃ op ∈ ops[j]?, Sends B k' op) ∧ ∀ i : Nat, ∀ op ∈ ops[i]?, Sends B k op → i < j

theorem sends_inj {k k' : Txid} {op : Op Transaction Addr} (h : Sends B k op)
    (h' : Sends B k' op) : k = k' := by
  cases op <;> simp only [Sends] at h h'
  exact Option.some.inj (h.symm.trans h')

/-- The operations at the positions of `ops ++ [op]`: those of `ops`, and `op` last. -/
theorem mem_getElem?_concat {α : Type} {ops : List α} {op x : α} {i : Nat} :
    x ∈ (ops ++ [op])[i]? ↔ x ∈ ops[i]? ∨ i = ops.length ∧ x = op := by
  rcases Nat.lt_trichotomy i ops.length with h | rfl | h
  · simp [List.getElem?_append_left h, h.ne]
  · simp [eq_comm]
  · simp [List.getElem?_eq_none (by simpa using h : (ops ++ [op]).length ≤ i), h.ne',
      List.getElem?_eq_none h.le]

/-- An operation that does not send `k` keeps the last send of `k` before a send of `k'`. -/
theorem SentBefore.concat {ops : List (Op Transaction Addr)} {k k' : Txid}
    (h : SentBefore B ops k k') {op : Op Transaction Addr} (hk : ¬Sends B k op) :
    SentBefore B (ops ++ [op]) k k' := by
  obtain ⟨j, ⟨op', hj, hs⟩, hall⟩ := h
  refine ⟨j, ⟨op', mem_getElem?_concat.2 (.inl hj), hs⟩, fun i op'' hi hs' => ?_⟩
  rcases mem_getElem?_concat.1 hi with hi | ⟨-, rfl⟩
  · exact hall i op'' hi hs'
  · exact absurd hs' hk

/-- The last operation, a send of `k'`, comes after every send of another txid. -/
theorem sentBefore_concat_of_sends {ops : List (Op Transaction Addr)} {k k' : Txid}
    {op : Op Transaction Addr} (hop : Sends B k' op) (hne : k ≠ k') :
    SentBefore B (ops ++ [op]) k k' := by
  refine ⟨ops.length, ⟨op, mem_getElem?_concat.2 (.inr ⟨rfl, rfl⟩), hop⟩, fun i op' hi hs => ?_⟩
  rcases mem_getElem?_concat.1 hi with hi | ⟨rfl, rfl⟩
  · exact (List.getElem?_eq_some_iff.1 hi).1
  · exact absurd (sends_inj hs hop) hne

section Order

variable [DecidableEq Addr]

/-- One operation keeps the cache in the order of the last sends: a `send_transaction` moves or
appends the entry of the txid it sends to the back, and every other operation keeps or drops
entries in order and sends nothing. -/
theorem sentBefore_step {ops : List (Op Transaction Addr)} {m : TransactionManager Transaction Addr}
    (hs : m.transactions.entries.Pairwise fun e e' => SentBefore B ops e.1 e'.1)
    (op : Op Transaction Addr) :
    (step B m op).1.transactions.entries.Pairwise fun e e' => SentBefore B (ops ++ [op]) e.1 e'.1 := by
  cases op with
  | sendTransaction rawTx now =>
    cases hd : B.deserialize rawTx with
    | none =>
      simp only [TransactionManager.step, TransactionManager.sendTransaction, hd]
      exact hs.imp fun h => h.concat (by simp [Sends, hd])
    | some transaction =>
      have hop : Sends B (B.txid transaction) (.sendTransaction rawTx now : Op Transaction Addr) := by
        simp [Sends, hd]
      simp only [TransactionManager.step]
      rw [transactions_sendTransaction B m hd, LinkedHashMap.entryOrInsert_eq_putBack,
        LinkedHashMap.entries_putBack]
      -- the entries of the other txids keep their order, and the txid sent is the last sent
      refine List.pairwise_append.2 ⟨?_, List.pairwise_singleton _ _, ?_⟩
      · refine ((hs.sublist (entries_evict_sublist _)).sublist (List.filter_sublist _)).imp_of_mem
          fun ha _ h => h.concat fun h' => ?_
        exact bne_iff_ne.1 (List.mem_filter.1 ha).2 (sends_inj h' hop)
      · rintro a ha _ (_ | ⟨_, ⟨⟩⟩)
        exact sentBefore_concat_of_sends hop (bne_iff_ne.1 (List.mem_filter.1 ha).2)
  | tick connections now =>
    simp only [TransactionManager.step, entries_tick, List.pairwise_map,
      (markAdvertisedAll_spec connections _).1]
    exact (hs.sublist (List.filter_sublist _)).imp fun h => h.concat (by simp [Sends])
  | processBitcoinNetworkMessage => exact hs.imp fun h => h.concat (by simp [Sends])
  | makeIdle => simp [TransactionManager.step, makeIdle]

/-- Every reachable cache is in the order of the last sends of its txids, least recent first: an
entry stands before another only if a `send_transaction` of the other's txid came after every
`send_transaction` of its own. So the front entry, which `send_transaction` evicts from a full
cache, holds the cached txid sent least recently. -/
theorem cache_order_last_send (ops : List (Op Transaction Addr)) :
    (run B ops).1.transactions.entries.Pairwise fun e e' => SentBefore B ops e.1 e'.1 := by
  induction ops using List.reverseRecOn with
  | nil => simp [new]
  | append_singleton ops op ih =>
    rw [run_concat]
    exact sentBefore_step ih op

example : (run Bitcoin.sample ([.sendTransaction [0] 0, .sendTransaction [0, 0] 0,
    .sendTransaction [0] 1] : List (Op Nat Nat))).1.transactions.keys =
      [BitVec.ofNat 256 2, BitVec.ofNat 256 1] := by
  decide

end Order

end TransactionManager

end BitcoinAdaptor
