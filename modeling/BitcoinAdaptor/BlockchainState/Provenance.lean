import BitcoinAdaptor.BlockchainState.Growth

/-!
# Where the cached headers and blocks come from

The adapter serves its header cache and block cache to the canister, so what enters them matters
more than how they are arranged. A header enters the header cache only through `add_header`,
after `validate_header` accepted it against the state itself: in every reachable state every
cached header but genesis was handed to `add_header` by an `add_headers` batch or an `add_block`
of the run, and the validator accepted it, on the run's network, against a store whose initial
hash is the genesis hash and which held the header's parent with the header and height the parent
still has (`BlockchainState.cached_header_validated`). The validator itself is a parameter: what it
checks is not modelled, only that nothing bypasses it.

A block enters the block cache only through `add_block`, after its merkle root was checked:
every cached block was passed to an `add_block` of the run, and its merkle root either cannot be
computed or matches its header (`BlockchainState.cached_block_added`). Pruning and clearing only
remove blocks.

## Main definitions

* `BlockchainState.Submitted`: the headers the operations of a run hand to `add_header`.
* `BlockchainState.Validated`: every cached header was accepted by the validator.
* `BlockchainState.BlocksChecked`: every cached block passed the merkle check.

## Main results

* `BlockchainState.network_run`: no operation changes the network.
* `BlockchainState.cached_header_validated`: only validated headers are cached.
* `BlockchainState.cached_block_added`: only added and checked blocks are cached.

## References

* `src/src/blockchainstate.rs`, lines 173–190 (`new`), 207–233 (`add_headers`), 237–295
  (`add_header`), 298–318 (`add_block`), 331–346 (`prune_blocks`,
  `prune_blocks_below_height`), 399–401 (`clear_blocks`), 409–422 (`impl HeaderStore`).
-/

namespace BitcoinAdaptor

namespace BlockchainState

variable {Transaction : Type} {E : Env Transaction}

/-! ### The network -/

/-- The loop of `add_headers` keeps the network. -/
theorem network_addHeadersLoop (s : BlockchainState Transaction) (headers : List BlockHeader) :
    (addHeadersLoop E s headers).2.2.network = s.network :=
  addHeadersLoop_induction (fun s' => s'.network = s.network)
    (fun _ header h => (network_addHeader _ header).trans h) s headers rfl

theorem network_step (s : BlockchainState Transaction) (op : Op Transaction) :
    (step E s op).network = s.network := by
  cases op with
  | addHeaders headers => exact network_addHeadersLoop s headers
  | addBlock block =>
    show (addBlock E s block).2.network = s.network
    rcases addBlock_cases s block with h | h <;> rw [h]
    exact network_addHeader s block.header
  | pruneBlocks => rfl
  | pruneBlocksBelowHeight => rfl
  | clearBlocks => rfl

/-- No operation changes the network a state was created for. -/
theorem network_run (network : Network) (ops : List (Op Transaction)) :
    (run E network ops).network = network := by
  induction ops using List.reverseRecOn with
  | nil => rfl
  | append_singleton ops op ih =>
    rw [run, List.foldl_append, List.foldl_cons, List.foldl_nil, network_step]
    exact ih

/-! ### Headers -/

/-- A header that an operation of `ops` hands to `add_header`: one of an `add_headers` batch, or
the header of an `add_block`. -/
def Submitted (ops : List (Op Transaction)) (header : BlockHeader) : Prop :=
  (∃ headers, .addHeaders headers ∈ ops ∧ header ∈ headers) ∨
    ∃ block, .addBlock block ∈ ops ∧ block.header = header

theorem Submitted.append {ops : List (Op Transaction)} {header : BlockHeader}
    (h : Submitted ops header) (ops' : List (Op Transaction)) : Submitted (ops ++ ops') header := by
  rcases h with ⟨headers, hop, hh⟩ | ⟨block, hop, hb⟩
  · exact .inl ⟨headers, List.mem_append_left _ hop, hh⟩
  · exact .inr ⟨block, List.mem_append_left _ hop, hb⟩

variable (E) in
/-- Every cached header but genesis satisfies `S` and was accepted by `validate_header`, on the
state's network, against a store whose initial hash is the genesis hash and which held the
header's parent with the header and height the parent has in the cache now. -/
def Validated (S : BlockHeader → Prop) (s : BlockchainState Transaction) : Prop :=
  ∀ k n, s.getCachedHeader k = some n → k ≠ E.blockHash s.genesis.header → S n.header ∧
    ∃ store : HeaderStore, E.validateHeader s.network store n.header = .ok () ∧
      store.getInitialHash = E.blockHash s.genesis.header ∧
      ∃ p, s.getCachedHeader n.header.prevBlockhash = some p ∧
        store.getHeader n.header.prevBlockhash = some (p.header, p.height)

variable {S S' : BlockHeader → Prop}

theorem Validated.mono {s : BlockchainState Transaction} (h : Validated E S s)
    (hS : ∀ header, S header → S' header) : Validated E S' s := fun k n hk hkg =>
  let ⟨h1, h2⟩ := h k n hk hkg
  ⟨hS _ h1, h2⟩

theorem validated_new (network : Network) : Validated E S (new E network) := by
  intro k n hk hkg
  simp only [new, getCachedHeader, HeaderCache.get_new] at hk
  split_ifs at hk with h
  exact absurd h hkg

/-- `add_header` of a header satisfying `S` keeps `Validated S`: a header it inserts was accepted
against the state itself, and the insertion keeps every node's header and height. -/
theorem Validated.addHeader {s : BlockchainState Transaction} (h : Validated E S s)
    {header : BlockHeader} (hS : S header) : Validated E S (addHeader E s header).2 := by
  rcases addHeader_cases s header with ⟨_, -, he⟩ | ⟨_, he⟩ | ⟨p, c', hnew, hp, hi, he⟩
  · rwa [he]
  · rwa [he]
  have hvalid : E.validateHeader s.network (s.toHeaderStore E) header = .ok () := by
    cases hv : E.validateHeader s.network (s.toHeaderStore E) header with
    | error err => simp [BlockchainState.addHeader, hnew, hv] at he
    | ok u => rfl
  rw [he]
  dsimp only [Validated, getCachedHeader, genesis] at h ⊢
  rw [HeaderCache.insert_genesis hi]
  intro k n hk hkg
  rcases HeaderCache.get_insert_cases hp hi hk with ⟨rfl, rfl⟩ | ⟨n₀, hn₀, hh, -⟩
  · -- the new node: accepted against the state before the insertion
    obtain ⟨p', hp', hph, hpht, -⟩ := HeaderCache.get_insert_of_get hi hp
    refine ⟨hS, s.toHeaderStore E, hvalid, rfl, p', hp', ?_⟩
    rw [hph, hpht]
    exact congrArg (Option.map fun cached => (cached.header, cached.height)) hp
  · -- an old node: its parent keeps its header and height
    obtain ⟨hS₀, store, hv₀, hinit, q, hq, hstore⟩ := h k n₀ hn₀ hkg
    obtain ⟨q', hq', hqh, hqht, -⟩ := HeaderCache.get_insert_of_get hi hq
    refine ⟨hh ▸ hS₀, store, hh ▸ hv₀, hinit, q', hh ▸ hq', ?_⟩
    rw [hh, hstore, hqh, hqht]

/-- The loop of `add_headers` over headers satisfying `S` keeps `Validated S`. -/
theorem Validated.addHeadersLoop (headers : List BlockHeader)
    (hS : ∀ header ∈ headers, S header) :
    ∀ {s : BlockchainState Transaction}, Validated E S s →
      Validated E S (addHeadersLoop E s headers).2.2 := by
  induction headers with
  | nil => exact fun h => h
  | cons header headers ih =>
    intro s h
    have h1 := h.addHeader (hS header (List.mem_cons_self _ _))
    have hS' : ∀ header' ∈ headers, S header' := fun header' hh =>
      hS header' (List.mem_cons_of_mem _ hh)
    rw [BlockchainState.addHeadersLoop]
    rcases hr : BlockchainState.addHeader E s header with ⟨_ | _ | _, s'⟩ <;> rw [hr] at h1
    · exact h1
    · exact ih hS' h1
    · exact ih hS' h1

/-- One operation keeps `Validated` for the headers submitted so far, that operation included. -/
theorem Validated.step {ops : List (Op Transaction)} {s : BlockchainState Transaction}
    (h : Validated E (Submitted ops) s) (op : Op Transaction) :
    Validated E (Submitted (ops ++ [op])) (step E s op) := by
  have h' := h.mono fun header hh => hh.append [op]
  cases op with
  | addHeaders headers =>
    exact h'.addHeadersLoop headers fun header hh =>
      .inl ⟨headers, List.mem_append_right _ (List.mem_singleton_self _), hh⟩
  | addBlock block =>
    show Validated E _ (addBlock E s block).2
    rcases addBlock_cases s block with hb | hb <;> rw [hb]
    · exact h'
    · exact h'.addHeader
        (.inr ⟨block, List.mem_append_right _ (List.mem_singleton_self _), rfl⟩)
  | pruneBlocks => exact h'
  | pruneBlocksBelowHeight => exact h'
  | clearBlocks => exact h'

theorem validated_run (network : Network) (ops : List (Op Transaction)) :
    Validated E (Submitted ops) (run E network ops) := by
  induction ops using List.reverseRecOn with
  | nil => exact validated_new network
  | append_singleton ops op ih =>
    rw [run, List.foldl_append, List.foldl_cons, List.foldl_nil]
    exact ih.step op

/-- In every reachable state, every cached header but genesis was handed to `add_header` by an
`add_headers` or `add_block` of the run, and `validate_header` accepted it, on the run's network,
against a store whose initial hash is the genesis hash and which held the header's parent with
the header and height the parent has in the cache now. -/
theorem cached_header_validated (network : Network) (ops : List (Op Transaction)) :
    ∀ k n, (run E network ops).getCachedHeader k = some n →
      k ≠ E.blockHash (run E network ops).genesis.header →
      Submitted ops n.header ∧
      ∃ store : HeaderStore, E.validateHeader network store n.header = .ok () ∧
        store.getInitialHash = E.blockHash (run E network ops).genesis.header ∧
        ∃ p, (run E network ops).getCachedHeader n.header.prevBlockhash = some p ∧
          store.getHeader n.header.prevBlockhash = some (p.header, p.height) := by
  intro k n hk hkg
  have h := validated_run network ops k n hk hkg
  rwa [network_run] at h

/-- A child of genesis, cached by `add_headers`, was submitted and validated. -/
theorem cached_header_validated_sample :
    ∃ n, (run Env.sample .regtest [.addHeaders [.sample 1 1]]).getCachedHeader
        (Env.sample.blockHash (.sample 1 1)) = some n ∧
      Env.sample.blockHash (.sample 1 1) ≠
        Env.sample.blockHash
          (run Env.sample .regtest [.addHeaders [.sample 1 1]]).genesis.header ∧
      Submitted ([.addHeaders [.sample 1 1]] : List (Op Unit)) n.header ∧
      ∃ store : HeaderStore, Env.sample.validateHeader .regtest store n.header = .ok () ∧
        store.getInitialHash =
          Env.sample.blockHash
            (run Env.sample .regtest [.addHeaders [.sample 1 1]]).genesis.header ∧
        ∃ p, (run Env.sample .regtest [.addHeaders [.sample 1 1]]).getCachedHeader
            n.header.prevBlockhash = some p ∧
          store.getHeader n.header.prevBlockhash = some (p.header, p.height) :=
  have hk : (run Env.sample .regtest [.addHeaders [.sample 1 1]]).getCachedHeader
      (Env.sample.blockHash (.sample 1 1)) = some _ := rfl
  have hkg : Env.sample.blockHash (.sample 1 1) ≠
      Env.sample.blockHash
        (run Env.sample .regtest [.addHeaders [.sample 1 1]]).genesis.header := by
    decide
  ⟨_, hk, hkg, cached_header_validated _ _ _ _ hk hkg⟩

/-! ### Blocks -/

variable (E) in
/-- Every cached block satisfies `P` and passed the check of `add_block`: its merkle root cannot
be computed, or it matches the block's header. -/
def BlocksChecked (P : Block Transaction → Prop) (s : BlockchainState Transaction) : Prop :=
  ∀ k b, s.getBlock k = some b →
    P b ∧ ((E.computeBlockMerkleRoot b).isSome → E.checkMerkleRoot b = true)

/-- The loop of `add_headers` leaves the block cache alone. -/
theorem blockCache_addHeadersLoop (s : BlockchainState Transaction) (headers : List BlockHeader) :
    (addHeadersLoop E s headers).2.2.blockCache = s.blockCache :=
  addHeadersLoop_induction (fun s' => s'.blockCache = s.blockCache)
    (fun _ header h => (blockCache_addHeader _ header).trans h) s headers rfl

/-- What one operation can do to the block cache: a block cached after it was cached before, or
is the block of this `add_block`, which passed the merkle check. -/
theorem getBlock_step {s : BlockchainState Transaction} {op : Op Transaction} {k : BlockHash}
    {b : Block Transaction} (hk : (BlockchainState.step E s op).getBlock k = some b) :
    s.getBlock k = some b ∨
      op = .addBlock b ∧
        ((E.computeBlockMerkleRoot b).isSome → E.checkMerkleRoot b = true) := by
  cases op with
  | addHeaders headers =>
    have hc : (BlockchainState.step E s (.addHeaders headers)).blockCache = s.blockCache :=
      blockCache_addHeadersLoop s headers
    exact .inl (show s.blockCache.lookup k = some b from hc ▸ hk)
  | addBlock block =>
    change (addBlock E s block).2.blockCache.lookup k = some b at hk
    unfold BlockchainState.addBlock at hk
    split_ifs at hk with hcheck
    · exact .inl hk
    generalize hr : BlockchainState.addHeader E s block.header = r at hk
    obtain ⟨_ | r, s'⟩ := r <;> dsimp only at hk
    · -- a header error leaves the state as it was
      obtain rfl : s' = s :=
        (congrArg Prod.snd hr).symm.trans (addHeader_eq_error (congrArg Prod.fst hr))
      exact .inl hk
    have hs' : s'.blockCache = s.blockCache := by rw [← blockCache_addHeader s block.header, hr]
    rw [lookup_insert_ite, hs'] at hk
    split_ifs at hk
    · -- the block just added passed the merkle check
      cases hk
      exact .inr ⟨rfl, fun hs => by simpa [hs] using hcheck⟩
    · exact .inl hk
  | pruneBlocks blockHashes =>
    rw [BlockchainState.step, getBlock_pruneBlocks] at hk
    split_ifs at hk
    exact .inl hk
  | pruneBlocksBelowHeight height =>
    rw [BlockchainState.step, pruneBlocksBelowHeight, getBlock_pruneBlocks] at hk
    split_ifs at hk
    exact .inl hk
  | clearBlocks => simp [BlockchainState.step, clearBlocks, getBlock] at hk

/-- One operation keeps `BlocksChecked` for the blocks added so far, that operation included. -/
theorem BlocksChecked.step {ops : List (Op Transaction)} {s : BlockchainState Transaction}
    (h : BlocksChecked E (fun b => .addBlock b ∈ ops) s) (op : Op Transaction) :
    BlocksChecked E (fun b => .addBlock b ∈ ops ++ [op]) (BlockchainState.step E s op) := by
  intro k b hk
  rcases getBlock_step hk with hk | ⟨rfl, hcheck⟩
  · exact (h k b hk).imp_left (List.mem_append_left _)
  · exact ⟨List.mem_append_right _ (List.mem_singleton_self _), hcheck⟩

/-- In every reachable state, every cached block was passed to an `add_block` of the run, and its
merkle root either cannot be computed or matches the block's header. -/
theorem cached_block_added (network : Network) (ops : List (Op Transaction)) :
    ∀ k b, (run E network ops).getBlock k = some b →
      .addBlock b ∈ ops ∧
        ((E.computeBlockMerkleRoot b).isSome → E.checkMerkleRoot b = true) := by
  induction ops using List.reverseRecOn with
  | nil => intro k b hk; simp [run, new, getBlock] at hk
  | append_singleton ops op ih =>
    rw [run, List.foldl_append, List.foldl_cons, List.foldl_nil]
    exact BlocksChecked.step ih op

/-- A block added below genesis is cached, and was added and checked. -/
theorem cached_block_added_sample :
    ∃ b, (run Env.sample .regtest [.addBlock ⟨.sample 1 1, []⟩]).getBlock
        (Env.sample.blockBlockHash ⟨.sample 1 1, []⟩) = some b ∧
      .addBlock b ∈ ([.addBlock ⟨.sample 1 1, []⟩] : List (Op Unit)) ∧
      ((Env.sample.computeBlockMerkleRoot b).isSome → Env.sample.checkMerkleRoot b = true) :=
  have hk : (run Env.sample .regtest [.addBlock ⟨.sample 1 1, []⟩]).getBlock
      (Env.sample.blockBlockHash ⟨.sample 1 1, []⟩) = some _ := rfl
  ⟨_, hk, cached_block_added _ _ _ _ hk⟩

end BlockchainState

end BitcoinAdaptor
