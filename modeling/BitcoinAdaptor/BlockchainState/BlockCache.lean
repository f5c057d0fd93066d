import BitcoinAdaptor.BlockchainState.Invariant

/-!
# The block cache

`add_block` first checks the block's merkle root, then adds its header with `add_header`, and
only when both succeed sorts the tips and stores the block under its hash. Each error leaves
the whole state as it was, and a success changes the header cache and the tips exactly as
`add_header` and the sort do (`BlockchainState.addBlock_spec`).

Every block of a reachable state's block cache is stored under its own hash, and its header
is in the header cache. `prune_blocks_below_height` reads the height of a block's header with a
fallback of `0` for a header that is not cached; in a reachable state the fallback is never
used, and the function removes exactly the blocks whose header is below the given height
(`BlockchainState.blockCache_pruneBlocksBelowHeight`).

## Main results

* `BlockchainState.merkleCheck_eq_false_iff`: the merkle check of `add_block`.
* `BlockchainState.addBlock_spec`: the three outcomes of `add_block`.
* `BlockchainState.getBlock_pruneBlocksBelowHeight`: the general law, fallback included.
* `BlockchainState.blockCache_pruneBlocksBelowHeight`.

## References

`src/src/blockchainstate.rs`, lines 237–318 and 338–348.
-/

namespace BitcoinAdaptor

namespace BlockchainState

variable {Transaction : Type} {E : Env Transaction}

/-! ### `add_block` -/

/-- The merkle check of `add_block` passes exactly when the block's merkle root is not computable
or is the one its header holds. -/
theorem merkleCheck_eq_false_iff (block : Block Transaction) :
    ((E.computeBlockMerkleRoot block).isSome && !E.checkMerkleRoot block) = false ↔
      ∀ root, E.computeBlockMerkleRoot block = some root → root = block.header.merkleRoot := by
  unfold Bitcoin.checkMerkleRoot
  cases E.computeBlockMerkleRoot block <;> simp [@eq_comm _ block.header.merkleRoot]

/-- `add_block` from any state. A block whose merkle root is computable and differs from its
header's is rejected with `InvalidMerkleRoot` of its hash; otherwise an error of `add_header` on
its header is returned as `Header`; both leave the state unchanged. Otherwise the result is the
height of the header's node, the header cache and the tips are those of `add_header` followed by
the sort, and the block is stored under its hash, replacing an earlier copy, every other block
kept. -/
theorem addBlock_spec (s : BlockchainState Transaction) (block : Block Transaction) :
    let r := addBlock E s block
    (∀ root, E.computeBlockMerkleRoot block = some root → root ≠ block.header.merkleRoot →
        r = (.error (.invalidMerkleRoot (E.blockBlockHash block)), s)) ∧
      ((∀ root, E.computeBlockMerkleRoot block = some root → root = block.header.merkleRoot) →
        (∀ e, (addHeader E s block.header).1 = .error e → r = (.error (.header e), s)) ∧
        ∀ result, (addHeader E s block.header).1 = .ok result →
          ∃ n, r.1 = .ok n.height ∧ r.2.getCachedHeader (E.blockHash block.header) = some n ∧
            r.2.headerCache = (addHeader E s block.header).2.headerCache ∧
            r.2.tips = E.sortTips.sort (addHeader E s block.header).2.tips ∧
            r.2.network = s.network ∧
            ∀ k, r.2.getBlock k = if k = E.blockBlockHash block then some block else s.getBlock k) := by
  intro r
  refine ⟨fun root hr hne => ?_, fun hm => ?_⟩
  · simp [r, addBlock, Bitcoin.checkMerkleRoot, hr, Ne.symm hne]
  have hc := (merkleCheck_eq_false_iff block).2 hm
  rcases @addHeader_cases _ E s block.header with ⟨n, hn, ha⟩ | ⟨err, ha⟩ | ⟨p, c', -, hp, hi, ha⟩ <;>
    simp only [r, addBlock, hc, ha, Bool.false_eq_true, if_false, true_and]
  · -- the header was cached: its node's height
    exact ⟨fun _ => nofun, fun _ _ => ⟨n, rfl, hn, fun k => lookup_insert_ite _ _ _ _⟩⟩
  · exact ⟨fun _ he => by cases he; rfl, fun _ => nofun⟩
  · -- the header was inserted: the new child's height
    exact ⟨fun _ => nofun, fun _ _ => ⟨_, rfl, HeaderCache.get_insert_self hp hi,
      fun k => lookup_insert_ite _ _ _ _⟩⟩

/-! ### `prune_blocks_below_height` -/

/-- `prune_blocks_below_height` drops a cached block when its header's height, `0` for an
unknown header, is below the given one. -/
theorem getBlock_pruneBlocksBelowHeight (s : BlockchainState Transaction) (height : Nat)
    (k : BlockHash) :
    (s.pruneBlocksBelowHeight height).getBlock k =
      if height > (s.getCachedHeader k).elim 0 (·.height) then none else s.getBlock k := by
  rw [pruneBlocksBelowHeight, getBlock_pruneBlocks]
  by_cases hk : k ∈ s.blockCache
  · simp [List.mem_filter, ← AList.mem_keys, hk]
  · have : s.getBlock k = none := AList.lookup_eq_none.2 hk
    simp [List.mem_filter, ← AList.mem_keys, hk, this]

/-- In every reachable state each cached block is stored under its own hash and has its header
cached; so `prune_blocks_below_height height` removes exactly the blocks whose header node is
below `height` and keeps every other block. -/
theorem blockCache_pruneBlocksBelowHeight (network : Network) (ops : List (Op Transaction)) :
    let s := run E network ops
    (∀ k b, s.getBlock k = some b → E.blockBlockHash b = k ∧ ∃ n, s.getCachedHeader k = some n) ∧
      ∀ height k b, s.getBlock k = some b → ∃ n, s.getCachedHeader k = some n ∧
        (s.pruneBlocksBelowHeight height).getBlock k = if n.height < height then none else some b := by
  have hs := @inv_run _ E network ops
  refine ⟨fun k b hk => ⟨hs.block_hash hk, hs.block_cached hk⟩, fun height k b hk => ?_⟩
  obtain ⟨n, hn⟩ := hs.block_cached hk
  refine ⟨n, hn, ?_⟩
  rw [getBlock_pruneBlocksBelowHeight, hn, hk]
  rfl

end BlockchainState

end BitcoinAdaptor
