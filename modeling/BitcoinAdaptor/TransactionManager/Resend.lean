import BitcoinAdaptor.TransactionManager.Invariant

/-!
# Sending a cached transaction into a full cache

`send_transaction` evicts the front entry of a full cache before it looks the txid up
(`TransactionManager.transactions_sendTransaction`). While the cache has room, sending again a
transaction that is cached only moves its entry to the back, with its timeout and its advertised
peers. Into a full cache it first evicts the front entry: when that entry is another transaction
the cache shrinks to 249 entries, and when it is the transaction itself, the transaction comes
back at the end of the cache with a new timeout and no peer recorded as advertised
(`TransactionManager.sendTransaction_resend_full_cache`). The next tick then announces it again
to a peer that was told while it stayed cached (`TransactionManager.resend_readvertised`).

Both are shown on one reachable state: with the codec `Bitcoin.sample`, send transaction `1`,
tick for peer `0`, and send transactions `2, …, 250`.

## Main definitions

* `Bitcoin.sample`: a codec for the examples.

## Main results

* `TransactionManager.entries_foldl_sendTransaction`: new txids are appended in order.
* `TransactionManager.sendTransaction_resend_full_cache`, `TransactionManager.resend_readvertised`.

## References

`src/src/transaction_manager.rs`, lines 87–99 and 125–165.
-/

namespace BitcoinAdaptor

/-- A codec for examples: a transaction is a positive number `n`, written as any `n` bytes, with
txid `n`. The functions on headers and blocks are never called by the transaction manager. -/
def Bitcoin.sample : Bitcoin Nat where
  blockHash _ := 0
  work _ := 0
  genesisBlock _ := ⟨default, []⟩
  computeMerkleRoot _ := none
  txid n := BitVec.ofNat 256 n
  deserialize rawTx := if rawTx = [] then none else some rawTx.length

namespace TransactionManager

variable {Transaction Addr : Type} {B : Bitcoin Transaction}

/-! ### `send_transaction` -/

/-- Sending transactions with new, distinct txids into a cache with room for all of them appends
them, in order. -/
theorem entries_foldl_sendTransaction (m : TransactionManager Transaction Addr)
    (raws : List (List UInt8)) (txs : List Transaction) (now : Nat)
    (hdes : raws.map B.deserialize = txs.map some)
    (hfresh : (m.transactions.keys ++ txs.map B.txid).Nodup)
    (hroom : m.transactions.len + txs.length ≤ txCacheSize) :
    (raws.foldl (fun m rawTx => m.sendTransaction B rawTx now) m).transactions.entries =
      m.transactions.entries ++ txs.map fun tx => (B.txid tx, TransactionInfo.new tx now) := by
  induction raws generalizing m txs with
  | nil =>
    cases txs with
    | nil => simp
    | cons => simp at hdes
  | cons rawTx raws ih =>
    cases txs with
    | nil => simp at hdes
    | cons tx txs =>
      simp only [List.map_cons, List.cons.injEq] at hdes
      rw [List.map_cons, ← List.singleton_append, ← List.append_assoc] at hfresh
      have hnew : B.txid tx ∉ m.transactions.keys := fun hk =>
        (List.nodup_append.1 (List.nodup_append.1 hfresh).1).2.2 hk (List.mem_singleton_self _)
      have hlen : m.transactions.len ≠ txCacheSize := by
        rw [List.length_cons] at hroom
        omega
      have hstep : (m.sendTransaction B rawTx now).transactions.entries =
          m.transactions.entries ++ [(B.txid tx, TransactionInfo.new tx now)] := by
        rw [transactions_sendTransaction B m hdes.1, if_neg hlen,
          LinkedHashMap.entries_entryOrInsert_of_not_mem hnew]
      have hkeys : (m.sendTransaction B rawTx now).transactions.keys =
          m.transactions.keys ++ [B.txid tx] := by
        simp [LinkedHashMap.keys, hstep]
      rw [List.foldl_cons, ih _ txs hdes.2 (hkeys ▸ hfresh), hstep, List.map_cons,
        List.append_assoc, List.singleton_append]
      rw [LinkedHashMap.len, hstep, List.length_append, List.length_singleton]
      rw [LinkedHashMap.len, List.length_cons] at hroom
      omega

/-- The sends at the end of a run apply `send_transaction` in turn and send no command. -/
theorem run_append_sendTransactions [DecidableEq Addr] (ops : List (Op Transaction Addr))
    (raws : List (List UInt8)) (now : Nat) :
    run B (ops ++ raws.map fun rawTx => .sendTransaction rawTx now) =
      (raws.foldl (fun m rawTx => m.sendTransaction B rawTx now) (run B ops).1, (run B ops).2) := by
  rw [run_append]
  generalize run B ops = r
  induction raws generalizing r with
  | nil => rfl
  | cons rawTx raws ih =>
    rw [List.map_cons, List.foldl_cons, ih]
    simp [TransactionManager.step]

/-! ### A full cache -/

private theorem ofNat_inj_of_lt {a b : Nat} (ha : a < 300) (hb : b < 300)
    (h : BitVec.ofNat 256 a = BitVec.ofNat 256 b) : a = b := by
  have := congrArg BitVec.toNat h
  simp only [BitVec.toNat_ofNat] at this
  omega

/-- The state after transaction `1` was sent and advertised to peer `0` at time `0`. -/
private theorem entries_sample_start :
    (run Bitcoin.sample ([.sendTransaction [0] 0, .tick [0] 0] : List (Op Nat Nat))).1.transactions.entries =
      [(BitVec.ofNat 256 1, ⟨1, [0], 0 + durationFromSecs txCacheTimeoutPeriodSecs⟩)] := by
  decide

/-- The run that sends transaction `1`, ticks for peer `0` and sends transactions
`2, …, j + 1`, all at time `0`: the sends apply in turn, and the tick announced `1` to `0`. -/
private theorem run_sample_fill (j : Nat) :
    run Bitcoin.sample ([.sendTransaction [0] 0, .tick [0] 0] ++
        (List.range j).map fun i => .sendTransaction (List.replicate (i + 2) 0) 0 :
          List (Op Nat Nat)) =
      (((List.range j).map fun i => List.replicate (i + 2) (0 : UInt8)).foldl
          (fun m rawTx => m.sendTransaction Bitcoin.sample rawTx 0)
          (run Bitcoin.sample ([.sendTransaction [0] 0, .tick [0] 0] : List (Op Nat Nat))).1,
        [⟨some 0, .inv [.transaction (BitVec.ofNat 256 1)]⟩]) := by
  have hops : ((List.range j).map fun i => .sendTransaction (List.replicate (i + 2) 0) 0 :
      List (Op Nat Nat)) = ((List.range j).map fun i => List.replicate (i + 2) (0 : UInt8)).map
        fun rawTx => .sendTransaction rawTx 0 := by
    rw [List.map_map]
    rfl
  rw [hops, run_append_sendTransactions]
  congr 1

/-- After transaction `1` was sent and advertised to peer `0` at time `0`, sending transactions
`2, …, j + 1` appends them to the cache. -/
theorem entries_sample_fill {j : Nat} (hj : j ≤ 249) :
    (run Bitcoin.sample ([.sendTransaction [0] 0, .tick [0] 0] ++
        (List.range j).map fun i => .sendTransaction (List.replicate (i + 2) 0) 0 :
          List (Op Nat Nat))).1.transactions.entries =
      (BitVec.ofNat 256 1, ⟨1, [0], 0 + durationFromSecs txCacheTimeoutPeriodSecs⟩) ::
        (List.range j).map fun i => (BitVec.ofNat 256 (i + 2), TransactionInfo.new (i + 2) 0) := by
  rw [run_sample_fill, entries_foldl_sendTransaction _ _ ((List.range j).map (· + 2)) 0 _ _ _,
    entries_sample_start]
  · simp [List.map_map, Bitcoin.sample]
  · simp [List.map_map, Bitcoin.sample, Function.comp_def]
  · simp only [LinkedHashMap.keys, entries_sample_start, List.map_cons, List.map_nil,
      List.singleton_append, List.map_map]
    refine List.nodup_cons.2 ⟨fun hm => ?_, (List.nodup_range j).map_on fun a ha b hb h => ?_⟩
    · obtain ⟨i, hi, h⟩ := List.mem_map.1 hm
      simp only [List.mem_range] at hi
      have := ofNat_inj_of_lt (a := i + 2) (b := 1) (by omega) (by omega) h
      omega
    · simp only [List.mem_range] at ha hb
      have := ofNat_inj_of_lt (a := a + 2) (b := b + 2) (by omega) (by omega) h
      omega
  · simp only [LinkedHashMap.len, entries_sample_start, List.length_singleton, List.length_map,
      List.length_range]
    unfold txCacheSize
    omega

/-- Transaction `1` is none of the fillers. -/
private theorem one_not_mem_fill (j : Nat) (hj : j ≤ 249) :
    BitVec.ofNat 256 1 ∉ ((List.range j).map fun i =>
      (BitVec.ofNat 256 (i + 2), (TransactionInfo.new (i + 2) 0 : TransactionInfo Nat Nat))).map
        Prod.fst := by
  simp only [List.map_map, List.mem_map, List.mem_range, Function.comp_apply, not_exists, not_and]
  intro i hi h
  have := ofNat_inj_of_lt (a := i + 2) (b := 1) (by omega) (by omega) h
  omega

/-- Transaction `2` is the first filler. -/
private theorem two_mem_fill :
    BitVec.ofNat 256 2 ∈ ((List.range 249).map fun i =>
      (BitVec.ofNat 256 (i + 2), (TransactionInfo.new (i + 2) 0 : TransactionInfo Nat Nat))).map
        Prod.fst :=
  List.mem_map.2 ⟨_, List.mem_map.2 ⟨0, List.mem_range.2 (by omega), rfl⟩, rfl⟩

/-- The filled cache holds `TX_CACHE_SIZE` entries. -/
private theorem len_sample_full :
    (run Bitcoin.sample ([.sendTransaction [0] 0, .tick [0] 0] ++
      (List.range 249).map fun i => .sendTransaction (List.replicate (i + 2) 0) 0 :
        List (Op Nat Nat))).1.transactions.len = txCacheSize := by
  rw [LinkedHashMap.len, entries_sample_fill (le_refl 249)]
  simp [txCacheSize]

/-- The filled cache less its front entry holds transactions `2, …, 250`. -/
private theorem entries_popFront_sample_full :
    (run Bitcoin.sample ([.sendTransaction [0] 0, .tick [0] 0] ++
      (List.range 249).map fun i => .sendTransaction (List.replicate (i + 2) 0) 0 :
        List (Op Nat Nat))).1.transactions.popFront.entries =
      (List.range 249).map fun i => (BitVec.ofNat 256 (i + 2), TransactionInfo.new (i + 2) 0) := by
  rw [LinkedHashMap.entries_popFront, entries_sample_fill (le_refl 249), List.tail_cons]

/-- The txids of the filled cache less its front entry: `2, …, 250`. -/
private theorem keys_popFront_sample_full :
    (run Bitcoin.sample ([.sendTransaction [0] 0, .tick [0] 0] ++
      (List.range 249).map fun i => .sendTransaction (List.replicate (i + 2) 0) 0 :
        List (Op Nat Nat))).1.transactions.popFront.keys =
      ((List.range 249).map fun i =>
        (BitVec.ofNat 256 (i + 2), (TransactionInfo.new (i + 2) 0 : TransactionInfo Nat Nat))).map
          Prod.fst := by
  rw [LinkedHashMap.keys, entries_popFront_sample_full]

/-- Sending `1` again into the filled cache evicts it and appends it afresh. -/
private theorem entries_sample_resend_one :
    ((run Bitcoin.sample ([.sendTransaction [0] 0, .tick [0] 0] ++
      (List.range 249).map fun i => .sendTransaction (List.replicate (i + 2) 0) 0 :
        List (Op Nat Nat))).1.sendTransaction Bitcoin.sample [0] 1).transactions.entries =
      ((List.range 249).map fun i => (BitVec.ofNat 256 (i + 2), TransactionInfo.new (i + 2) 0)) ++
        [(BitVec.ofNat 256 1, TransactionInfo.new 1 1)] := by
  rw [transactions_sendTransaction _ _ (show Bitcoin.sample.deserialize [0] = some 1 from rfl),
    if_pos len_sample_full, show Bitcoin.sample.txid 1 = BitVec.ofNat 256 1 from rfl,
    LinkedHashMap.entries_entryOrInsert_of_not_mem
      (keys_popFront_sample_full ▸ one_not_mem_fill 249 (le_refl 249)),
    entries_popFront_sample_full]

/-- Sending `2` again into the filled cache evicts `1` and puts `2` back behind the others. -/
private theorem transactions_sample_resend_two : ∃ v,
    ((run Bitcoin.sample ([.sendTransaction [0] 0, .tick [0] 0] ++
      (List.range 249).map fun i => .sendTransaction (List.replicate (i + 2) 0) 0 :
        List (Op Nat Nat))).1.sendTransaction Bitcoin.sample [0, 0] 1).transactions =
      (run Bitcoin.sample ([.sendTransaction [0] 0, .tick [0] 0] ++
        (List.range 249).map fun i => .sendTransaction (List.replicate (i + 2) 0) 0 :
          List (Op Nat Nat))).1.transactions.popFront.putBack (BitVec.ofNat 256 2) v := by
  rw [transactions_sendTransaction _ _ (show Bitcoin.sample.deserialize [0, 0] = some 2 from rfl),
    if_pos len_sample_full, LinkedHashMap.entryOrInsert_eq_putBack]
  exact ⟨_, rfl⟩

/-- Into a full cache, sending a cached transaction again does more than move it to the back. In
the reachable state `m` where transaction `1`, advertised to peer `0` at time `0`, is the front
of 250 entries, sending `1` again at time `1` puts it back with no advertised peer and a timeout
counted from time `1`; and sending `2` again evicts `1` and leaves 249 entries. -/
theorem sendTransaction_resend_full_cache :
    ∃ m : TransactionManager Nat Nat,
      (run Bitcoin.sample ([.sendTransaction [0] 0, .tick [0] 0] ++
        (List.range 249).map fun i => .sendTransaction (List.replicate (i + 2) 0) 0)).1 = m ∧
      m.transactions.len = 250 ∧
      m.transactions.get (BitVec.ofNat 256 1) = some ⟨1, [0], durationFromSecs 600⟩ ∧
      m.transactions.containsKey (BitVec.ofNat 256 2) ∧
      (m.sendTransaction Bitcoin.sample [0] 1).transactions.get (BitVec.ofNat 256 1) =
        some ⟨1, [], 1 + durationFromSecs 600⟩ ∧
      (m.sendTransaction Bitcoin.sample [0, 0] 1).transactions.len = 249 ∧
      (m.sendTransaction Bitcoin.sample [0, 0] 1).transactions.get (BitVec.ofNat 256 1) = none := by
  obtain ⟨v, hresend⟩ := transactions_sample_resend_two
  refine ⟨_, rfl, len_sample_full, ?_, ?_, ?_, ?_, ?_⟩
  · rw [LinkedHashMap.get_eq_some_iff, entries_sample_fill (le_refl 249)]
    simp [txCacheTimeoutPeriodSecs]
  · rw [LinkedHashMap.containsKey_iff, LinkedHashMap.keys, entries_sample_fill (le_refl 249),
      List.map_cons]
    exact List.mem_cons_of_mem _ two_mem_fill
  · rw [LinkedHashMap.get_eq_some_iff, entries_sample_resend_one]
    simp [TransactionInfo.new, txCacheTimeoutPeriodSecs]
  · rw [hresend, LinkedHashMap.len_putBack, keys_popFront_sample_full, if_pos two_mem_fill,
      LinkedHashMap.len, entries_popFront_sample_full]
    simp
  · rw [hresend, LinkedHashMap.get_putBack, if_neg (by decide), LinkedHashMap.get_eq_none_iff,
      keys_popFront_sample_full]
    exact one_not_mem_fill 249 (le_refl 249)

/-- Transaction `1` stays cached while the cache fills. -/
private theorem mem_keys_take_fill {k : Nat} (hk1 : 1 ≤ k) (hk : k ≤ 251) :
    BitVec.ofNat 256 1 ∈ (run Bitcoin.sample (([.sendTransaction [0] 0, .tick [0] 0] ++
      (List.range 249).map fun i => .sendTransaction (List.replicate (i + 2) 0) 0 :
        List (Op Nat Nat)).take k)).1.transactions.keys := by
  rcases Nat.lt_or_ge k 2 with hk2 | hk2
  · obtain rfl : k = 1 := by omega
    decide
  rw [List.take_append_eq_append_take, List.take_of_length_le (by simp; omega), ← List.map_take,
    List.take_range, min_eq_left (by simp; omega), LinkedHashMap.keys,
    entries_sample_fill (by simp; omega)]
  exact List.mem_cons_self _ _

/-- A transaction can be announced twice to a peer while it stays cached. From the new state,
send transaction `1` and tick for peer `0`, which announces `1` to `0`; send transactions
`2, …, 250`, filling the cache; send `1` again at time `1`; and tick for peer `0` again. Transaction
`1` is cached in every state after the first operation, and both ticks send peer `0` an `inv`
holding `1`. -/
theorem resend_readvertised :
    ∃ ops : List (Op Nat Nat), ops = [.sendTransaction [0] 0, .tick [0] 0] ++
        ((List.range 249).map fun i => .sendTransaction (List.replicate (i + 2) 0) 0) ++
        [.sendTransaction [0] 1, .tick [0] 1] ∧
      (∀ k, 1 ≤ k → k ≤ ops.length →
        (run Bitcoin.sample (ops.take k)).1.transactions.containsKey (BitVec.ofNat 256 1)) ∧
      ∃ inv₁ inv₂, (run Bitcoin.sample ops).2 = [⟨some 0, .inv inv₁⟩, ⟨some 0, .inv inv₂⟩] ∧
        .transaction (BitVec.ofNat 256 1) ∈ inv₁ ∧ .transaction (BitVec.ofNat 256 1) ∈ inv₂ := by
  set fill : List (Op Nat Nat) := [.sendTransaction [0] 0, .tick [0] 0] ++
    (List.range 249).map fun i => .sendTransaction (List.replicate (i + 2) 0) 0
  have hfl : fill.length = 251 := by
    simp [fill]
  set rest := (List.range 249).map fun i =>
    (BitVec.ofNat 256 (i + 2), (TransactionInfo.new (i + 2) 0 : TransactionInfo Nat Nat))
  -- the resend evicts `1` and appends it again, fresh
  set m' := (run Bitcoin.sample fill).1.sendTransaction Bitcoin.sample [0] 1
  have hm' : m'.transactions.entries = rest ++ [(BitVec.ofNat 256 1, TransactionInfo.new 1 1)] :=
    entries_sample_resend_one
  have hT : BitVec.ofNat 256 1 ∈ m'.transactions.keys := by
    simp [LinkedHashMap.keys, hm']
  -- the next tick announces every entry to peer `0`, and none of them times out
  have hun : unadvertised 0 m'.transactions.entries = m'.transactions.keys := by
    rw [unadvertised, List.filter_eq_self.2, LinkedHashMap.keys]
    rw [hm']
    simp only [rest, List.mem_append, List.mem_map, List.mem_singleton]
    rintro _ (⟨i, -, rfl⟩ | rfl) <;> simp [TransactionInfo.new]
  obtain ⟨hpe, hps⟩ := advertisePass_eq [0] m' [] 0 (by
    rw [hun, LinkedHashMap.keys, List.length_map, hm']
    simp [rest, maximumTransactionPerInv])
  have htick : (m'.tick [0] 1).2 = [⟨some 0, .inv (m'.transactions.keys.map .transaction)⟩] := by
    simp only [TransactionManager.tick, advertiseTxids, List.foldl_cons, List.foldl_nil, hps, hun,
      if_neg (List.ne_nil_of_mem hT), List.nil_append]
  have hkept : BitVec.ofNat 256 1 ∈ (m'.tick [0] 1).1.transactions.keys := by
    simp only [TransactionManager.tick, TransactionManager.reap, advertiseTxids, List.foldl_cons,
      List.foldl_nil, LinkedHashMap.keys, LinkedHashMap.entries_retain, hpe]
    simp [hm', TransactionInfo.new, markAdvertised]
  have hrun : run Bitcoin.sample (fill ++ [.sendTransaction [0] 1, .tick [0] 1]) =
      ((m'.tick [0] 1).1, [⟨some 0, .inv [.transaction (BitVec.ofNat 256 1)]⟩] ++
        (m'.tick [0] 1).2) := by
    rw [show fill ++ [.sendTransaction [0] 1, .tick [0] 1] =
      (fill ++ [.sendTransaction [0] 1]) ++ [.tick [0] 1] by simp, run_concat, run_concat]
    simp [TransactionManager.step, m', congrArg Prod.snd (run_sample_fill 249)]
  refine ⟨_, rfl, fun k hk1 hk => ?_, ?_⟩
  · rw [List.length_append, hfl, List.length_cons, List.length_singleton] at hk
    rw [LinkedHashMap.containsKey_iff]
    rcases Nat.lt_or_ge k 252 with hk' | hk'
    · rw [List.take_append_of_le_length (by omega)]
      exact mem_keys_take_fill hk1 (by omega)
    rcases Nat.lt_or_ge k 253 with hk'' | hk''
    · -- the state after the resend
      obtain rfl : k = 252 := by omega
      rw [List.take_append_eq_append_take, List.take_of_length_le (by omega), hfl,
        show List.take (252 - 251) [Op.sendTransaction [0] 1, Op.tick [0] 1] =
          [.sendTransaction [0] 1] from rfl, run_concat]
      exact hT
    · -- the state after the last tick
      rw [List.take_of_length_le (by simp [hfl]; omega), hrun]
      exact hkept
  · rw [hrun, htick]
    exact ⟨_, _, rfl, List.mem_singleton_self _, List.mem_map_of_mem _ hT⟩

end TransactionManager

end BitcoinAdaptor
