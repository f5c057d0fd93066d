import BitcoinAdaptor.TransactionManager.Invariant

/-!
# The advertisement passes on any cache

`advertise_txids` walks the cache once per available connection. The pass for `address` adds the
txid of each entry not yet advertised to `address` to an inventory and marks the entry; whenever
the inventory reaches `MAXIMUM_TRANSACTION_PER_INV` items it is sent to every available connection
and a new one is started, and what is left at the end is sent to `address` alone. A reachable
state never has enough entries for the flush (`TransactionManager.transactions_bounded`); this
file describes the passes on every cache, flush included.

For one pass, the flushed inventories followed by the last one are the txids not yet advertised
to `address`, in cache order; each flushed inventory has exactly `MAXIMUM_TRANSACTION_PER_INV`
items and the last one fewer (`TransactionManager.advertisePass_spec`). A whole `tick` keeps, in
order, the entries that have not timed out, each marked as advertised to every connection and
otherwise unchanged (`TransactionManager.tick_spec`).

## Main definitions

* `TransactionManager.markAdvertisedAll`: an entry marked for a list of peers in turn.

## Main results

* `TransactionManager.mapAccum_advertiseEntry_flush`: the inner loop, from any inventory below
  the limit.
* `TransactionManager.advertisePass_spec`, `TransactionManager.entries_advertiseTxids`,
  `TransactionManager.entries_tick`, `TransactionManager.tick_spec`.

## References

`src/src/transaction_manager.rs`, lines 77–84, 108–120 and 125–165.
-/

namespace BitcoinAdaptor

namespace TransactionManager

variable {Transaction Addr : Type} [DecidableEq Addr]

/-! ### One pass -/

/-- One step of the inner loop from an inventory below the limit: an entry already advertised to
`address` changes nothing; otherwise its txid is added, and a full inventory is sent to every
connection. -/
private theorem advertiseEntry_eq (connections : List Addr) (address : Addr)
    {inventory : List Inventory} (sent : List (Command Transaction Addr)) (txid : Txid)
    (info : TransactionInfo Transaction Addr) (h : inventory.length < maximumTransactionPerInv) :
    advertiseEntry connections address (inventory, sent) txid info =
      if address ∈ info.advertised then (info, inventory, sent)
      else if inventory.length + 1 = maximumTransactionPerInv then
        ({ info with advertised := address :: info.advertised }, [],
          sent ++ connections.map fun a => ⟨some a, .inv (inventory ++ [.transaction txid])⟩)
      else ({ info with advertised := address :: info.advertised },
        inventory ++ [.transaction txid], sent) := by
  unfold advertiseEntry
  by_cases ha : address ∈ info.advertised
  · simp [ha, h.ne]
  · by_cases hf : inventory.length + 1 = maximumTransactionPerInv <;> simp [ha, hf]

/-- The inner loop of a pass, from an inventory below the limit: it marks every entry; the
inventories it flushes, each of exactly `MAXIMUM_TRANSACTION_PER_INV` items and each sent to every
connection, followed by the inventory it ends with, are the starting inventory and the txids not
yet advertised to `address`. -/
theorem mapAccum_advertiseEntry_flush (connections : List Addr) (address : Addr)
    (es : List (Txid × TransactionInfo Transaction Addr)) (inventory : List Inventory)
    (sent : List (Command Transaction Addr)) (h : inventory.length < maximumTransactionPerInv) :
    let r := LinkedHashMap.mapAccum (advertiseEntry connections address) es (inventory, sent)
    r.1 = es.map (markAdvertised address) ∧
      ∃ batches : List (List Inventory),
        (∀ b ∈ batches, b.length = maximumTransactionPerInv) ∧
        r.2.1.length < maximumTransactionPerInv ∧
        inventory ++ (unadvertised address es).map .transaction = batches.flatten ++ r.2.1 ∧
        r.2.2 = sent ++ batches.flatMap fun b => connections.map fun a => ⟨some a, .inv b⟩ := by
  induction es generalizing inventory sent with
  | nil =>
    exact ⟨rfl, [], by simp, h, by simp [unadvertised, LinkedHashMap.mapAccum],
      by simp [LinkedHashMap.mapAccum]⟩
  | cons e es ih =>
    obtain ⟨txid, info⟩ := e
    simp only [LinkedHashMap.mapAccum, advertiseEntry_eq connections address sent txid info h]
    by_cases ha : address ∈ info.advertised
    · -- already advertised: nothing added
      obtain ⟨h1, batches, hb, hl, hu, hs⟩ := ih inventory sent h
      simp only [ha, if_true]
      refine ⟨by simp [h1, markAdvertised, ha], batches, hb, hl, ?_, hs⟩
      simpa [unadvertised, ha] using hu
    simp only [ha, if_false]
    by_cases hf : inventory.length + 1 = maximumTransactionPerInv
    · -- the inventory fills up: it is flushed and a new one starts
      obtain ⟨h1, batches, hb, hl, hu, hs⟩ := ih [] (sent ++ connections.map fun a =>
        ⟨some a, .inv (inventory ++ [.transaction txid])⟩) (by decide)
      simp only [hf, if_true]
      refine ⟨by simp [h1, markAdvertised, ha], (inventory ++ [.transaction txid]) :: batches,
        ?_, hl, ?_, by simp [hs]⟩
      · rintro b (_ | ⟨_, hb'⟩)
        · simpa using hf
        · exact hb b hb'
      · simp [unadvertised, ha] at hu ⊢
        simp [hu]
    · -- the txid is added and the inventory stays below the limit
      obtain ⟨h1, batches, hb, hl, hu, hs⟩ := ih (inventory ++ [.transaction txid]) sent
        (by simp only [List.length_append, List.length_singleton]; omega)
      simp only [hf, if_false]
      refine ⟨by simp [h1, markAdvertised, ha], batches, hb, hl, ?_, hs⟩
      simpa [unadvertised, ha] using hu

/-- A pass marks every entry as advertised to its address. -/
theorem entries_advertisePass (connections : List Addr) (m : TransactionManager Transaction Addr)
    (sent : List (Command Transaction Addr)) (address : Addr) :
    (advertisePass connections m sent address).1.transactions.entries =
      m.transactions.entries.map (markAdvertised address) :=
  (mapAccum_advertiseEntry_flush connections address m.transactions.entries [] sent
    (by decide)).1

/-- One pass of `advertise_txids` for `address`, on any cache: every entry is marked as advertised
to `address`, and the txids not yet advertised to it are sent in cache order, in inventories of
exactly `MAXIMUM_TRANSACTION_PER_INV` items each sent to every connection, then the remaining
fewer than `MAXIMUM_TRANSACTION_PER_INV`, if any, to `address` alone. -/
theorem advertisePass_spec (connections : List Addr) (m : TransactionManager Transaction Addr)
    (sent : List (Command Transaction Addr)) (address : Addr) :
    (advertisePass connections m sent address).1.transactions.entries =
        m.transactions.entries.map (markAdvertised address) ∧
      ∃ (batches : List (List Inventory)) (rest : List Inventory),
        (∀ b ∈ batches, b.length = maximumTransactionPerInv) ∧
        rest.length < maximumTransactionPerInv ∧
        (unadvertised address m.transactions.entries).map .transaction = batches.flatten ++ rest ∧
        (advertisePass connections m sent address).2 =
          sent ++ (batches.flatMap fun b => connections.map fun a => ⟨some a, .inv b⟩) ++
            if rest = [] then [] else [⟨some address, .inv rest⟩] := by
  obtain ⟨h1, batches, hb, hl, hu, hs⟩ :=
    mapAccum_advertiseEntry_flush connections address m.transactions.entries [] sent (by decide)
  refine ⟨h1, batches, _, hb, hl, by simpa using hu, ?_⟩
  simp only [advertisePass, LinkedHashMap.iterMut, hs, List.isEmpty_iff]
  split_ifs <;> simp

/-! ### Marks -/

@[simp]
theorem markAdvertised_timeoutAt (address : Addr) (e : Txid × TransactionInfo Transaction Addr) :
    (markAdvertised address e).2.timeoutAt = e.2.timeoutAt := by
  unfold markAdvertised
  split_ifs <;> rfl

theorem mem_advertised_markAdvertised (address a : Addr)
    (e : Txid × TransactionInfo Transaction Addr) :
    a ∈ (markAdvertised address e).2.advertised ↔ a ∈ e.2.advertised ∨ a = address := by
  unfold markAdvertised
  split_ifs with h
  · exact ⟨.inl, fun h' => h'.elim id fun ha => ha ▸ h⟩
  · simp [or_comm]

theorem nodup_advertised_markAdvertised (address : Addr)
    (e : Txid × TransactionInfo Transaction Addr) (h : e.2.advertised.Nodup) :
    (markAdvertised address e).2.advertised.Nodup := by
  unfold markAdvertised
  split_ifs with ha
  · exact h
  · exact List.nodup_cons.2 ⟨ha, h⟩

/-- An entry marked as advertised to each of `connections` in turn. -/
def markAdvertisedAll (connections : List Addr) (e : Txid × TransactionInfo Transaction Addr) :
    Txid × TransactionInfo Transaction Addr :=
  connections.foldl (fun e address => markAdvertised address e) e

/-- Marking for a list of peers keeps the txid, the transaction and the timeout, adds exactly
those peers to the advertised ones, and repeats none. -/
theorem markAdvertisedAll_spec (connections : List Addr)
    (e : Txid × TransactionInfo Transaction Addr) :
    (markAdvertisedAll connections e).1 = e.1 ∧
      (markAdvertisedAll connections e).2.transaction = e.2.transaction ∧
      (markAdvertisedAll connections e).2.timeoutAt = e.2.timeoutAt ∧
      (∀ a, a ∈ (markAdvertisedAll connections e).2.advertised ↔
        a ∈ e.2.advertised ∨ a ∈ connections) ∧
      (e.2.advertised.Nodup → (markAdvertisedAll connections e).2.advertised.Nodup) := by
  induction connections generalizing e with
  | nil => exact ⟨rfl, rfl, rfl, by simp [markAdvertisedAll], id⟩
  | cons address connections ih =>
    obtain ⟨h1, h2, h3, h4, h5⟩ := ih (markAdvertised address e)
    refine ⟨h1, by simpa using h2, by simpa using h3, fun a => ?_,
      fun h => h5 (nodup_advertised_markAdvertised address e h)⟩
    rw [markAdvertisedAll, List.foldl_cons, ← markAdvertisedAll, h4,
      mem_advertised_markAdvertised]
    simp [or_assoc, or_comm (a := a = address)]

/-! ### `advertise_txids` and `tick` -/

/-- The passes over a list of peers mark every entry as advertised to each of them. -/
private theorem entries_foldl_advertisePass (connections peers : List Addr)
    (r : TransactionManager Transaction Addr × List (Command Transaction Addr)) :
    (peers.foldl (fun r address => advertisePass connections r.1 r.2 address)
        r).1.transactions.entries =
      r.1.transactions.entries.map (markAdvertisedAll peers) := by
  induction peers generalizing r with
  | nil => exact (List.map_id _).symm
  | cons address peers ih =>
    rw [List.foldl_cons, ih, entries_advertisePass, List.map_map]
    rfl

theorem entries_advertiseTxids (m : TransactionManager Transaction Addr) (connections : List Addr) :
    (m.advertiseTxids connections).1.transactions.entries =
      m.transactions.entries.map (markAdvertisedAll connections) :=
  entries_foldl_advertisePass connections connections (m, [])

/-- `tick` at `now` keeps the entries whose timeout is not before `now`, marked for every
connection. -/
theorem entries_tick (m : TransactionManager Transaction Addr) (connections : List Addr)
    (now : Nat) :
    (m.tick connections now).1.transactions.entries =
      (m.transactions.entries.filter fun e => now ≤ e.2.timeoutAt).map
        (markAdvertisedAll connections) := by
  have hp : ((fun e : Txid × TransactionInfo Transaction Addr => !decide (e.2.timeoutAt < now)) ∘
      markAdvertisedAll connections) = fun e => decide (now ≤ e.2.timeoutAt) := by
    funext e
    simp only [Function.comp, (markAdvertisedAll_spec connections e).2.2.1, ← decide_not,
      Nat.not_lt]
  rw [TransactionManager.tick, TransactionManager.reap, LinkedHashMap.entries_retain,
    entries_advertiseTxids, List.filter_map, hp]

/-- `tick` at `now`, on any cache, flush included: the cache keeps, in order, exactly the entries
whose timeout is not before `now`, each with its txid, transaction and timeout; each is now
recorded as advertised to its former peers and to every connection, and to no other peer, with
no peer twice if there was none before. -/
theorem tick_spec (m : TransactionManager Transaction Addr) (connections : List Addr) (now : Nat) :
    List.Forall₂ (fun e' e => e'.1 = e.1 ∧ e'.2.transaction = e.2.transaction ∧
        e'.2.timeoutAt = e.2.timeoutAt ∧
        (∀ a, a ∈ e'.2.advertised ↔ a ∈ e.2.advertised ∨ a ∈ connections) ∧
        (e.2.advertised.Nodup → e'.2.advertised.Nodup))
      (m.tick connections now).1.transactions.entries
      (m.transactions.entries.filter fun e => now ≤ e.2.timeoutAt) := by
  rw [entries_tick, List.forall₂_map_left_iff, List.forall₂_same]
  exact fun e _ => markAdvertisedAll_spec connections e

end TransactionManager

end BitcoinAdaptor
