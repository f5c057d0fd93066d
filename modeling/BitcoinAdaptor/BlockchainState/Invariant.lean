import BitcoinAdaptor.BlockchainState.Tips

/-!
# The invariant of the reachable blockchain states

`BlockchainState.Consistent` collects what holds of the state between any two calls of
`add_header`: the header cache is a valid tree (`HeaderCache.Valid`); the hashes of the tips
are distinct and are exactly the leaves of the tree, each tip carrying its node's header,
height and work; and every cached block is stored under its own hash and has its header
cached. `BlockchainState.Inv` adds that the tips are sorted by non-increasing work, which
`add_header` breaks and the sort at the end of `add_headers` and of `add_block` restores.

Every public operation keeps `Inv`, so every state reached from `new` satisfies it
(`BlockchainState.inv_run`).

## Main definitions

* `BlockchainState.Consistent`, `BlockchainState.Inv`.

## Main results

* `BlockchainState.Consistent.addHeader`, `BlockchainState.Consistent.addHeadersLoop`: one
  step and a whole loop of `add_header`.
* `BlockchainState.Inv.step`, `BlockchainState.inv_run`.
-/

namespace BitcoinAdaptor

namespace BlockchainState

variable {Transaction : Type} (E : Env Transaction)

/-- What holds of the state between any two calls of `add_header`. -/
structure Consistent (s : BlockchainState Transaction) : Prop where
  headerCache_valid : s.headerCache.Valid E.toBitcoin
  tips_ne_nil : s.tips ≠ []
  tips_nodup : (s.tips.map fun t => E.blockHash t.header).Nodup
  mem_tips_iff : ∀ h, h ∈ s.tips.map (fun t => E.blockHash t.header) ↔
    ∃ n, s.getCachedHeader h = some n ∧ n.children = []
  tip_node : ∀ t ∈ s.tips, ∃ n, s.getCachedHeader (E.blockHash t.header) = some n ∧
    n.header = t.header ∧ n.height = t.height ∧ n.work = t.work
  block_hash : ∀ {k b}, s.blockCache.lookup k = some b → E.blockBlockHash b = k
  block_cached : ∀ {k b}, s.blockCache.lookup k = some b → ∃ n, s.getCachedHeader k = some n

/-- The invariant of the reachable states: `Consistent`, and the tips sorted by work. -/
structure Inv (s : BlockchainState Transaction) extends Consistent E s : Prop where
  sorted : s.tips.Sorted Tip.WorkGe

variable {E}

/-- The active tip of a consistent state is one of its tips. -/
theorem Consistent.getActiveChainTip_mem {s : BlockchainState Transaction} (hs : s.Consistent E) :
    s.getActiveChainTip ∈ s.tips := by
  obtain ⟨t, rest, hts⟩ := List.exists_cons_of_ne_nil hs.tips_ne_nil
  simp [getActiveChainTip, hts]

theorem inv_new (network : Network) : (new E network).Inv E where
  headerCache_valid := HeaderCache.valid_new _ network
  tips_ne_nil := List.cons_ne_nil _ _
  tips_nodup := List.nodup_singleton _
  mem_tips_iff h := by
    simp only [new, List.map_cons, List.map_nil, List.mem_singleton, getCachedHeader,
      HeaderCache.get_new]
    split_ifs with hh <;> simp [hh, HeaderCache.new]
  tip_node t ht := by
    simp only [new, List.mem_singleton] at ht
    subst ht
    obtain ⟨g, hg, hgh, hg0, hgw⟩ := (HeaderCache.valid_new E.toBitcoin network).get_genesis
    exact ⟨g, hg, hgh, hg0, hgw.trans (congrArg _ hgh)⟩
  block_hash h := by simp [new] at h
  block_cached h := by simp [new] at h
  sorted := List.sorted_singleton _

/-! ### `add_header` -/

/-- `add_header` keeps every cached node, with its header, height and work. -/
theorem getCachedHeader_addHeader {s : BlockchainState Transaction} (header : BlockHeader)
    {k : BlockHash} {n : HeaderNode} (hk : s.getCachedHeader k = some n) :
    ∃ n', (addHeader E s header).2.getCachedHeader k = some n' ∧ n'.header = n.header ∧
      n'.height = n.height ∧ n'.work = n.work := by
  rcases addHeader_cases s header with ⟨_, -, he⟩ | ⟨_, he⟩ | ⟨_, c', -, -, hi, he⟩ <;> rw [he]
  · exact ⟨n, hk, rfl, rfl, rfl⟩
  · exact ⟨n, hk, rfl, rfl, rfl⟩
  · obtain ⟨n', hn', hh, hht, hw, -⟩ := HeaderCache.get_insert_of_get hi hk
    exact ⟨n', hn', hh, hht, hw⟩

@[simp] theorem blockCache_addHeader (s : BlockchainState Transaction) (header : BlockHeader) :
    (addHeader E s header).2.blockCache = s.blockCache := by
  rcases addHeader_cases s header with ⟨_, -, he⟩ | ⟨_, he⟩ | ⟨_, _, -, -, -, he⟩ <;> rw [he]

@[simp] theorem network_addHeader (s : BlockchainState Transaction) (header : BlockHeader) :
    (addHeader E s header).2.network = s.network := by
  rcases addHeader_cases s header with ⟨_, -, he⟩ | ⟨_, he⟩ | ⟨_, _, -, -, -, he⟩ <;> rw [he]

/-- After a successful `add_header` the header is cached. -/
theorem getCachedHeader_addHeader_of_ok {s : BlockchainState Transaction} {header : BlockHeader}
    {r : AddHeaderResult} (h : (addHeader E s header).1 = .ok r) :
    ∃ n, (addHeader E s header).2.getCachedHeader (E.blockHash header) = some n := by
  rcases addHeader_cases s header with ⟨n, hn, he⟩ | ⟨_, he⟩ | ⟨p, c', -, hp, hi, he⟩ <;>
    rw [he] at h ⊢
  · exact ⟨n, hn⟩
  · cases h
  · exact ⟨_, HeaderCache.get_insert_self hp hi⟩

/-- `add_header` keeps `Consistent`. -/
theorem Consistent.addHeader {s : BlockchainState Transaction} (hs : s.Consistent E)
    (header : BlockHeader) : (BlockchainState.addHeader E s header).2.Consistent E := by
  rcases addHeader_cases s header with ⟨_, -, he⟩ | ⟨_, he⟩ | ⟨p, c', hnone, hp, hi, he⟩ <;>
    rw [he]
  · exact hs
  · exact hs
  have hfresh : E.blockHash header ∉ s.tips.map fun t => E.blockHash t.header := fun hm => by
    obtain ⟨n, hn, -⟩ := (hs.mem_tips_iff _).1 hm
    simp [hnone] at hn
  refine ⟨hs.headerCache_valid.insert hi,
    List.ne_nil_of_mem (tip_mem_updateTips hs.tips_nodup), nodup_map_updateTips hs.tips_nodup hfresh,
    fun h => ?_, fun t ht => ?_, hs.block_hash, fun hk => ?_⟩
  · simp only [getCachedHeader]
    rw [mem_map_updateTips hs.tips_nodup, HeaderCache.get_insert _ hp hi, hs.mem_tips_iff]
    by_cases hh : h = E.blockHash header
    · simp [hh, HeaderCache.childNode]
    · by_cases hhp : h = header.prevBlockhash
      · subst hhp
        simp [hh]
      · simp [hh, hhp, getCachedHeader]
  · rcases mem_updateTips ht with rfl | ht
    · exact ⟨_, HeaderCache.get_insert_self hp hi, rfl, rfl, rfl⟩
    · obtain ⟨n, hn, hh, hht, hw⟩ := hs.tip_node t ht
      obtain ⟨n', hn', hh', hht', hw', -⟩ := HeaderCache.get_insert_of_get hi hn
      exact ⟨n', hn', hh'.trans hh, hht'.trans hht, hw'.trans hw⟩
  · obtain ⟨n, hn⟩ := hs.block_cached hk
    obtain ⟨n', hn', -⟩ := HeaderCache.get_insert_of_get hi hn
    exact ⟨n', hn'⟩

theorem addHeader_eq_error {s : BlockchainState Transaction} {header : BlockHeader}
    {err : AddHeaderError} (h : (addHeader E s header).1 = .error err) :
    (addHeader E s header).2 = s := by
  rcases addHeader_cases s header with ⟨_, -, he⟩ | ⟨_, he⟩ | ⟨_, _, -, -, -, he⟩ <;>
    rw [he] at h ⊢
  cases h

/-! ### `add_headers` and `add_block` -/

/-- A property that one `add_header` keeps is kept by the whole loop of `add_headers`. -/
theorem addHeadersLoop_induction (P : BlockchainState Transaction → Prop)
    (hP : ∀ s header, P s → P (addHeader E s header).2) :
    ∀ (s : BlockchainState Transaction) (headers : List BlockHeader), P s →
      P (addHeadersLoop E s headers).2.2
  | _, [], h => h
  | s, header :: headers, h => by
    have h1 := hP s header h
    rw [addHeadersLoop]
    rcases hr : addHeader E s header with ⟨_ | _ | _, s'⟩ <;> rw [hr] at h1
    · exact h1
    · exact addHeadersLoop_induction P hP s' headers h1
    · exact addHeadersLoop_induction P hP s' headers h1

/-- Sorting the tips keeps `Consistent`: it only permutes them. -/
theorem Consistent.sortTips {s : BlockchainState Transaction} (hs : s.Consistent E)
    (σ : TipSort) : ({ s with tips := σ.sort s.tips } : BlockchainState Transaction).Consistent E := by
  have hp := (σ.perm s.tips).map fun t => E.blockHash t.header
  exact { hs with
    tips_ne_nil := fun h => hs.tips_ne_nil ((σ.perm s.tips).symm.trans (.of_eq h)).eq_nil
    tips_nodup := hp.nodup_iff.2 hs.tips_nodup
    mem_tips_iff := fun h => hp.mem_iff.trans (hs.mem_tips_iff h)
    tip_node := fun t ht => hs.tip_node t ((σ.perm s.tips).mem_iff.1 ht) }

theorem Inv.addHeaders {s : BlockchainState Transaction} (hs : s.Inv E)
    (headers : List BlockHeader) : (addHeaders E s headers).2.Inv E :=
  ⟨(addHeadersLoop_induction _ (fun _ h hs => hs.addHeader h) s headers hs.1).sortTips _,
    E.sortTips.sorted _⟩

theorem Inv.addBlock {s : BlockchainState Transaction} (hs : s.Inv E)
    (block : Block Transaction) : (addBlock E s block).2.Inv E := by
  unfold BlockchainState.addBlock
  split_ifs
  · exact hs
  rcases hr : addHeader E s block.header with ⟨_ | r, s'⟩ <;> dsimp only
  · obtain rfl : s' = s :=
      (congrArg Prod.snd hr).symm.trans (addHeader_eq_error (congrArg Prod.fst hr))
    exact hs
  have h1 := (hs.1.addHeader block.header).sortTips E.sortTips
  obtain ⟨n, hn⟩ := getCachedHeader_addHeader_of_ok (congrArg Prod.fst hr)
  rw [hr] at h1 hn
  refine ⟨{ h1 with block_hash := fun {k b} hk => ?_, block_cached := fun {k b} hk => ?_ },
    E.sortTips.sorted _⟩ <;>
    simp only [lookup_insert_ite] at hk <;> split_ifs at hk with hkb
  · exact (Option.some.inj hk) ▸ hkb.symm
  · exact h1.block_hash hk
  · subst hkb
    exact ⟨n, hn⟩
  · exact h1.block_cached hk

/-! ### The block cache operations -/

/-- Removing a list of keys one after the other. -/
theorem lookup_foldl_erase {V : Type} (l : List BlockHash) (m : AList fun _ : BlockHash => V)
    (k : BlockHash) :
    (l.foldl (fun cache blockHash => cache.erase blockHash) m).lookup k =
      if k ∈ l then none else m.lookup k := by
  induction l generalizing m with
  | nil => simp
  | cons a l ih =>
    rw [List.foldl_cons, ih]
    by_cases hka : k = a
    · subst hka
      simp
    · simp [hka, AList.lookup_erase_ne hka]

theorem getBlock_pruneBlocks (s : BlockchainState Transaction) (blockHashes : List BlockHash)
    (k : BlockHash) :
    (s.pruneBlocks blockHashes).getBlock k = if k ∈ blockHashes then none else s.getBlock k :=
  lookup_foldl_erase _ _ _

theorem Inv.pruneBlocks {s : BlockchainState Transaction} (hs : s.Inv E)
    (blockHashes : List BlockHash) : (s.pruneBlocks blockHashes).Inv E := by
  have hk : ∀ {k b}, (s.pruneBlocks blockHashes).getBlock k = some b → s.getBlock k = some b :=
    fun h => by
      rw [getBlock_pruneBlocks] at h
      split_ifs at h
      exact h
  exact { hs with block_hash := fun h => hs.block_hash (hk h),
                  block_cached := fun h => hs.block_cached (hk h) }

theorem Inv.clearBlocks {s : BlockchainState Transaction} (hs : s.Inv E) : s.clearBlocks.Inv E := by
  have h0 : ∀ {k b}, s.clearBlocks.blockCache.lookup k ≠ some b := by
    simp [BlockchainState.clearBlocks]
  exact ⟨{ hs.1 with block_hash := fun h => absurd h h0, block_cached := fun h => absurd h h0 },
    hs.sorted⟩

theorem Inv.step {s : BlockchainState Transaction} (hs : s.Inv E) :
    ∀ op : Op Transaction, (step E s op).Inv E
  | .addHeaders headers => hs.addHeaders headers
  | .addBlock block => hs.addBlock block
  | .pruneBlocks blockHashes => hs.pruneBlocks blockHashes
  | .pruneBlocksBelowHeight _ => hs.pruneBlocks _
  | .clearBlocks => hs.clearBlocks

/-- Every state reached from `new` by public operations satisfies the invariant. -/
theorem inv_run (network : Network) (ops : List (Op Transaction)) : (run E network ops).Inv E := by
  unfold run
  induction ops using List.reverseRecOn with
  | nil => exact inv_new network
  | append_singleton ops op ih => simpa [List.foldl_append] using ih.step op

/-! ### The header tree of a reachable state -/

/-- The header cache of every reachable state is a tree rooted at genesis: each node is stored
under its own hash; the genesis node is stored under its hash with height `0` and its own work;
every other node has its parent cached, with height one less, work the parent's plus its own,
and occurs exactly once among the parent's children; every listed child is a cached node whose
parent is that node; and following `prev_blockhash` links from a node reaches the genesis node
after exactly its height in steps, and not before. -/
theorem headerCache_tree (network : Network) (ops : List (Op Transaction)) :
    let s := run E network ops
    let genesisHash := E.blockHash s.genesis.header
    (∀ h n, s.getCachedHeader h = some n → E.blockHash n.header = h) ∧
      (∃ g, s.getCachedHeader genesisHash = some g ∧ g.header = s.genesis.header ∧
        g.height = 0 ∧ g.work = E.work g.header) ∧
      (∀ h n, s.getCachedHeader h = some n → h ≠ genesisHash →
        ∃ p, s.getCachedHeader n.header.prevBlockhash = some p ∧ n.height = p.height + 1 ∧
          n.work = p.work + E.work n.header ∧ p.children.count h = 1) ∧
      (∀ h n, s.getCachedHeader h = some n → ∀ k ∈ n.children,
        ∃ m, s.getCachedHeader k = some m ∧ m.header.prevBlockhash = h) ∧
      ∀ h n, s.getCachedHeader h = some n →
        s.headerCache.ancestor n.height n = s.getCachedHeader genesisHash ∧
          ∀ j < n.height, ∃ m, s.headerCache.ancestor j n = some m ∧
            E.blockHash m.header ≠ genesisHash := by
  have hv := (@inv_run _ E network ops).headerCache_valid
  exact ⟨fun _ _ => hv.hash_header, hv.get_genesis, fun _ _ => hv.parent, fun _ _ => hv.child,
    fun _ _ => hv.ancestor_height⟩

end BlockchainState

end BitcoinAdaptor
