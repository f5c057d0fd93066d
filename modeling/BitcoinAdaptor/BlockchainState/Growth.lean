import BitcoinAdaptor.BlockchainState.AddHeaders
import BitcoinAdaptor.BlockchainState.ForkChoice
import Mathlib.Algebra.Group.Nat.Basic
import Mathlib.Data.Option.Defs

/-!
# What a run keeps, and the heaviest chain

The header cache only grows. No operation removes a header or changes the header, height or work
stored under a hash, so whatever a run has cached stays cached through every later operation
(`BlockchainState.getCachedHeader_run_append`). The tips cover the tree: in every reachable state
each cached header lies on the chain of some tip, reached by following `prev_blockhash` links
back from the tip's node (`BlockchainState.tips_cover_run`). `add_header` keeps this because the
new header takes over its parent's slot in `tips`, and every walk in the old cache is still a walk
in the new one.

Together with the fork choice of `BlockchainState.ForkChoice`, which only compares leaves, the
cover gives the property the adapter relies on when it reports its active chain: as long as no
cumulative work wrapped around `2 ^ 256` (the source's `Uint256` addition wraps), the active tip
carries at least as much work as every cached header (`BlockchainState.activeChainTip_work_max`),
and since headers are never dropped, the active chain's work never decreases over a run
(`BlockchainState.activeChainTip_work_mono`). A header of positive work on top of the active tip
becomes the new active tip (`BlockchainState.addHeaders_extends_activeChainTip`), whatever the
order of equal tips left by `sort_unstable_by`.

## Main definitions

* `BlockchainState.TipsCover`: every cached node lies on the chain of a tip.
* `BlockchainState.NoWorkOverflow`: no node's work wrapped around `2 ^ 256`.

## Main results

* `BlockchainState.getCachedHeader_run_append`: the header cache only grows over a run.
* `BlockchainState.tips_cover_run`: in every reachable state, the tips' chains cover the cache.
* `BlockchainState.activeChainTip_work_max`: without wrap-around, the active tip has the most
  work of all cached headers.
* `BlockchainState.activeChainTip_work_mono`: without wrap-around, the active tip's work never
  decreases.
* `BlockchainState.addHeaders_extends_activeChainTip`: a header on top of the active tip becomes
  the active tip.

## References

* `src/src/blockchainstate.rs`, lines 80–105 (`HeaderCache::insert`), 207–233 (`add_headers`),
  237–295 (`add_header`), 298–318 (`add_block`), 322–327 (`get_active_chain_tip`).
-/

namespace BitcoinAdaptor

namespace HeaderCache

variable {Transaction : Type} {B : Bitcoin Transaction}

/-- An insertion keeps every walk back along `prev_blockhash` links: from a node with the same
header it ends at a node with the same header. -/
theorem ancestor_insert {c c' : HeaderCache} {header : BlockHeader}
    (h : c.insert B header = .ok c') {j : Nat} {n n' m : HeaderNode} (hn : n'.header = n.header)
    (hm : c.ancestor j n = some m) :
    ∃ m', c'.ancestor j n' = some m' ∧ m'.header = m.header := by
  induction j generalizing n n' with
  | zero =>
    cases hm
    exact ⟨n', rfl, hn⟩
  | succ j ih =>
    rw [ancestor] at hm
    obtain ⟨p, hp, hpm⟩ := Option.bind_eq_some.1 hm
    obtain ⟨p', hp', hpp, -⟩ := get_insert_of_get h hp
    obtain ⟨m', hm', hmm⟩ := ih hpp hpm
    exact ⟨m', by rw [ancestor, hn, hp', Option.some_bind, hm'], hmm⟩

variable {c : HeaderCache}

/-- Without a wrap-around of the work, walking back from a cached node never reaches more work. -/
theorem Valid.work_ancestor_le (hv : c.Valid B)
    (hprev : c.get c.genesis.header.prevBlockhash = none)
    (hwrap : ∀ k n p, c.get k = some n → c.get n.header.prevBlockhash = some p →
      k ≠ B.blockHash c.genesis.header → p.work.toNat + (B.work n.header).toNat < 2 ^ 256)
    {k : BlockHash} {n : HeaderNode} (hk : c.get k = some n) {j : Nat} {m : HeaderNode}
    (hm : c.ancestor j n = some m) : m.work ≤ n.work := by
  induction j generalizing k n with
  | zero =>
    cases hm
    exact BitVec.le_refl _
  | succ j ih =>
    have hj : j + 1 ≤ n.height := (hv.ancestor_eq_some hprev hk hm).1
    -- a node with a parent on the walk is not genesis
    have hkg : k ≠ B.blockHash c.genesis.header := fun he => by
      have := (hv.blockHash_eq_genesis_iff (hv.hash_header hk ▸ hk)).1
        ((hv.hash_header hk).trans he)
      omega
    obtain ⟨p, hp, -, hw, -⟩ := hv.parent hk hkg
    rw [ancestor, hp, Option.some_bind] at hm
    refine BitVec.le_trans (ih hp hm) ?_
    rw [hw, BitVec.le_def, BitVec.toNat_add, Nat.mod_eq_of_lt (hwrap k n p hk hp hkg)]
    omega

end HeaderCache

namespace BlockchainState

variable {Transaction : Type} {E : Env Transaction}

/-- `add_block` leaves the state as it was, or is `add_header` on the block's header followed by
the sort of the tips and the insertion of the block. -/
theorem addBlock_cases (s : BlockchainState Transaction) (block : Block Transaction) :
    (addBlock E s block).2 = s ∨
      (addBlock E s block).2 = { (addHeader E s block.header).2 with
        tips := E.sortTips.sort (addHeader E s block.header).2.tips,
        blockCache :=
          (addHeader E s block.header).2.blockCache.insert (E.blockBlockHash block) block } := by
  unfold addBlock
  split_ifs
  · exact .inl rfl
  rcases hr : addHeader E s block.header with ⟨_ | _, s'⟩ <;> dsimp only
  · exact .inl ((congrArg Prod.snd hr).symm.trans (addHeader_eq_error (congrArg Prod.fst hr)))
  · exact .inr rfl

/-- Every operation keeps every cached node, with its header, height and work. -/
theorem getCachedHeader_step (s : BlockchainState Transaction) (op : Op Transaction)
    {k : BlockHash} {n : HeaderNode} (hk : s.getCachedHeader k = some n) :
    ∃ n', (step E s op).getCachedHeader k = some n' ∧ n'.header = n.header ∧
      n'.height = n.height ∧ n'.work = n.work := by
  cases op with
  | addHeaders headers => exact getCachedHeader_addHeadersLoop headers hk
  | addBlock block =>
    show ∃ n', (addBlock E s block).2.getCachedHeader k = some n' ∧ _
    rcases addBlock_cases s block with h | h <;> rw [h]
    · exact ⟨n, hk, rfl, rfl, rfl⟩
    · exact getCachedHeader_addHeader block.header hk
  | pruneBlocks => exact ⟨n, hk, rfl, rfl, rfl⟩
  | pruneBlocksBelowHeight => exact ⟨n, hk, rfl, rfl, rfl⟩
  | clearBlocks => exact ⟨n, hk, rfl, rfl, rfl⟩

/-- Any sequence of operations keeps every cached node. -/
theorem getCachedHeader_foldl_step (ops : List (Op Transaction)) :
    ∀ (s : BlockchainState Transaction) {k : BlockHash} {n : HeaderNode},
      s.getCachedHeader k = some n →
      ∃ n', (ops.foldl (step E) s).getCachedHeader k = some n' ∧ n'.header = n.header ∧
        n'.height = n.height ∧ n'.work = n.work := by
  induction ops with
  | nil => exact fun _ _ n hk => ⟨n, hk, rfl, rfl, rfl⟩
  | cons op ops ih =>
    intro s k n hk
    obtain ⟨n₁, h₁, hh₁, hht₁, hw₁⟩ := getCachedHeader_step s op hk
    obtain ⟨n₂, h₂, hh₂, hht₂, hw₂⟩ := ih (step E s op) h₁
    exact ⟨n₂, h₂, hh₂.trans hh₁, hht₂.trans hht₁, hw₂.trans hw₁⟩

/-- No operation removes a header from the cache or changes what is stored under its hash: after
any further operations, every node cached after a run is still cached under the same hash with
the same header, height and work. -/
theorem getCachedHeader_run_append (network : Network) (ops ops' : List (Op Transaction))
    {k : BlockHash} {n : HeaderNode} (hk : (run E network ops).getCachedHeader k = some n) :
    ∃ n', (run E network (ops ++ ops')).getCachedHeader k = some n' ∧ n'.header = n.header ∧
      n'.height = n.height ∧ n'.work = n.work := by
  rw [run, List.foldl_append]
  exact getCachedHeader_foldl_step ops' _ hk

/-- A child of genesis stays cached through a fork and a `clear_blocks`. -/
theorem getCachedHeader_run_append_sample :
    ∃ n, (run Env.sample .regtest [.addHeaders [.sample 1 1]]).getCachedHeader
        (Env.sample.blockHash (.sample 1 1)) = some n ∧
      ∃ n', (run Env.sample .regtest ([.addHeaders [.sample 1 1]] ++
          [.addHeaders [.sample 1 2], .clearBlocks])).getCachedHeader
          (Env.sample.blockHash (.sample 1 1)) = some n' ∧
        n'.header = n.header ∧ n'.height = n.height ∧ n'.work = n.work :=
  ⟨_, rfl, getCachedHeader_run_append _ _ _ rfl⟩

/-! ### Every header lies on a tip's chain -/

section UpdateTips

variable {tips : List Tip} {prevHash : BlockHash} {tip : Tip}
  (hnd : (tips.map fun t => E.blockHash t.header).Nodup)

include hnd

/-- `updateTips` keeps every tip but the parent's. -/
theorem mem_updateTips_of_ne {t : Tip} (ht : t ∈ tips) (hne : E.blockHash t.header ≠ prevHash) :
    t ∈ updateTips E tips prevHash tip := by
  rw [updateTips_eq hnd]
  split_ifs
  · exact List.mem_map.2 ⟨t, ht, if_neg hne⟩
  · exact List.mem_append_left _ ht

end UpdateTips

variable (E) in
/-- Every cached node lies on the chain of a tip: following `prev_blockhash` links back from the
node of some tip reaches a node with its header. -/
def TipsCover (s : BlockchainState Transaction) : Prop :=
  ∀ k n, s.getCachedHeader k = some n → ∃ t ∈ s.tips, ∃ j nt m,
    s.getCachedHeader (E.blockHash t.header) = some nt ∧ s.headerCache.ancestor j nt = some m ∧
      m.header = n.header

theorem tipsCover_new (network : Network) : TipsCover E (new E network) := by
  intro k n hk
  simp only [new, getCachedHeader, HeaderCache.get_new] at hk
  split_ifs at hk
  cases hk
  exact ⟨_, List.mem_singleton_self _, 0, _, _,
    by simp [new, getCachedHeader, HeaderCache.get_new]; rfl, rfl, rfl⟩

/-- `add_header` keeps every node on a tip's chain: a node whose tip is the new header's parent
moves onto the new tip's chain, one link further back. -/
theorem TipsCover.addHeader {s : BlockchainState Transaction} (hc : TipsCover E s)
    (hs : s.Consistent E) (header : BlockHeader) : TipsCover E (addHeader E s header).2 := by
  rcases addHeader_cases s header with ⟨_, -, he⟩ | ⟨_, he⟩ | ⟨p, c', -, hp, hi, he⟩ <;>
    rw [he]
  · exact hc
  · exact hc
  intro k n' hk
  rcases HeaderCache.get_insert_cases hp hi hk with ⟨rfl, rfl⟩ | ⟨n, hn, hh, -⟩
  · -- the new node is the new tip
    exact ⟨_, tip_mem_updateTips hs.tips_nodup, 0, _, _, HeaderCache.get_insert_self hp hi,
      rfl, rfl⟩
  obtain ⟨t, ht, j, nt, m, hnt, hm, hmh⟩ := hc k n hn
  by_cases htp : E.blockHash t.header = header.prevBlockhash
  · -- the tip was the parent: the new tip reaches the node one link further back
    obtain rfl : p = nt := Option.some.inj (hp.symm.trans (htp ▸ hnt))
    obtain ⟨p', hp', hpp, -⟩ := HeaderCache.get_insert_of_get hi hp
    obtain ⟨m', hm', hmm⟩ := HeaderCache.ancestor_insert hi hpp hm
    refine ⟨_, tip_mem_updateTips hs.tips_nodup, j + 1, _, m',
      HeaderCache.get_insert_self hp hi, ?_, hmm.trans (hmh.trans hh.symm)⟩
    rw [HeaderCache.ancestor]
    simp [HeaderCache.childNode, hp', hm']
  · -- the tip stays
    obtain ⟨nt', hnt', hh', -⟩ := HeaderCache.get_insert_of_get hi hnt
    obtain ⟨m', hm', hmm⟩ := HeaderCache.ancestor_insert hi hh' hm
    exact ⟨t, mem_updateTips_of_ne hs.tips_nodup ht htp, j, nt', m', hnt', hm',
      hmm.trans (hmh.trans hh.symm)⟩

theorem TipsCover.sortTips {s : BlockchainState Transaction} (hc : TipsCover E s) (σ : TipSort) :
    TipsCover E { s with tips := σ.sort s.tips } := fun k n hk =>
  let ⟨t, ht, rest⟩ := hc k n hk
  ⟨t, (σ.perm s.tips).mem_iff.2 ht, rest⟩

theorem TipsCover.step {s : BlockchainState Transaction} (hc : TipsCover E s)
    (hs : s.Consistent E) (op : Op Transaction) : TipsCover E (step E s op) := by
  cases op with
  | addHeaders headers =>
    exact (addHeadersLoop_induction (fun s => s.Consistent E ∧ TipsCover E s)
      (fun s header h => ⟨h.1.addHeader header, h.2.addHeader h.1 header⟩) s headers
      ⟨hs, hc⟩).2.sortTips _
  | addBlock block =>
    show TipsCover E (addBlock E s block).2
    rcases addBlock_cases s block with h | h <;> rw [h]
    · exact hc
    · exact (hc.addHeader hs block.header).sortTips E.sortTips
  | pruneBlocks => exact hc
  | pruneBlocksBelowHeight => exact hc
  | clearBlocks => exact hc

theorem tipsCover_run (network : Network) (ops : List (Op Transaction)) :
    TipsCover E (run E network ops) := by
  induction ops using List.reverseRecOn with
  | nil => exact tipsCover_new network
  | append_singleton ops op ih =>
    rw [run, List.foldl_append]
    exact ih.step (inv_run network ops).toConsistent op

/-- In every reachable state, every cached header lies on the chain of one of the tips: following
`prev_blockhash` links back from the node of some tip reaches it. -/
theorem tips_cover_run (network : Network) (ops : List (Op Transaction)) :
    let s := run E network ops
    ∀ k n, s.getCachedHeader k = some n → ∃ t ∈ s.tips, ∃ j nt m,
      s.getCachedHeader (E.blockHash t.header) = some nt ∧ s.headerCache.ancestor j nt = some m ∧
        m.header = n.header :=
  tipsCover_run network ops

/-! ### The active tip carries the most work -/

variable (E) in
/-- No node's work wrapped around `2 ^ 256`: for every cached node but genesis, its parent's work
plus its header's work, the sum `HeaderCache::insert` stores, is below `2 ^ 256`. -/
def NoWorkOverflow (s : BlockchainState Transaction) : Prop :=
  ∀ e ∈ s.headerCache.headers.entries, e.1 ≠ E.blockHash s.genesis.header →
    ∀ p ∈ s.getCachedHeader e.2.header.prevBlockhash,
      p.work.toNat + (E.work e.2.header).toNat < 2 ^ 256

instance (s : BlockchainState Transaction) : Decidable (NoWorkOverflow E s) :=
  inferInstanceAs (Decidable (∀ e ∈ s.headerCache.headers.entries,
    e.1 ≠ E.blockHash s.genesis.header → ∀ p ∈ s.getCachedHeader e.2.header.prevBlockhash,
      p.work.toNat + (E.work e.2.header).toNat < 2 ^ 256))

theorem NoWorkOverflow.get {s : BlockchainState Transaction} (h : NoWorkOverflow E s)
    {k : BlockHash} {n p : HeaderNode} (hk : s.getCachedHeader k = some n)
    (hp : s.getCachedHeader n.header.prevBlockhash = some p)
    (hkg : k ≠ E.blockHash s.genesis.header) :
    p.work.toNat + (E.work n.header).toNat < 2 ^ 256 :=
  h ⟨k, n⟩ (AList.mem_lookup_iff.1 hk) hkg p hp

/-- Every tip of a state of the invariant carries at most the work of the active tip. -/
theorem Inv.work_le_activeChainTip_of_mem {s : BlockchainState Transaction} (hs : s.Inv E)
    {u : Tip} (hu : u ∈ s.tips) : u.work ≤ s.getActiveChainTip.work := by
  obtain ⟨n, hn, -, -, hw⟩ := hs.tip_node u hu
  obtain ⟨n', hn', hleaf⟩ := (hs.mem_tips_iff _).1 (List.mem_map_of_mem _ hu)
  obtain rfl := Option.some.inj (hn.symm.trans hn')
  exact hw ▸ hs.activeChainTip_max.2 _ _ hn hleaf

/-- In a state of the invariant whose tips cover the cache and whose work never wrapped, the
active tip carries at least the work of every cached node: the node lies on a tip's chain, the
work does not grow walking back from the tip, and the tip is a leaf. -/
theorem Inv.work_le_activeChainTip {s : BlockchainState Transaction} (hs : s.Inv E)
    (hc : TipsCover E s) (hprev : s.getCachedHeader s.genesis.header.prevBlockhash = none)
    (hwrap : NoWorkOverflow E s) {k : BlockHash} {n : HeaderNode}
    (hk : s.getCachedHeader k = some n) : n.work ≤ s.getActiveChainTip.work := by
  have hv := hs.headerCache_valid
  obtain ⟨t, ht, j, nt, m, hnt, hm, hmh⟩ := hc k n hk
  -- the walk from the tip's node ends at the node itself
  obtain ⟨-, hmc, -⟩ := hv.ancestor_eq_some hprev hnt hm
  rw [hmh, hv.hash_header hk] at hmc
  obtain rfl := Option.some.inj (hmc.symm.trans hk)
  obtain ⟨nt', hnt', -, -, hw⟩ := hs.tip_node t ht
  obtain rfl := Option.some.inj (hnt.symm.trans hnt')
  exact BitVec.le_trans (hv.work_ancestor_le hprev (fun _ _ _ => hwrap.get) hnt hm)
    (hw ▸ hs.work_le_activeChainTip_of_mem ht)

/-- In every reachable state in which the genesis header's parent is not cached and no node's
work wrapped around `2 ^ 256`, the active chain tip carries at least as much work as every cached
header, not only as every leaf. -/
theorem activeChainTip_work_max (network : Network) (ops : List (Op Transaction))
    (hprev : (run E network ops).getCachedHeader
      (run E network ops).genesis.header.prevBlockhash = none)
    (hwrap : NoWorkOverflow E (run E network ops)) :
    ∀ k n, (run E network ops).getCachedHeader k = some n →
      n.work ≤ (run E network ops).getActiveChainTip.work := fun _ _ hk =>
  (inv_run network ops).work_le_activeChainTip (tipsCover_run network ops) hprev hwrap hk

/-- The hypotheses hold after `Env.sample` caches two children of genesis and a grandchild. -/
theorem activeChainTip_work_max_sample :
    ∃ s, run Env.sample .regtest [.addHeaders [.sample 1 1, .sample 1 2],
        .addHeaders [.sample 3 4]] = s ∧
      s.getCachedHeader s.genesis.header.prevBlockhash = none ∧ NoWorkOverflow Env.sample s ∧
      ∀ k n, s.getCachedHeader k = some n → n.work ≤ s.getActiveChainTip.work :=
  ⟨_, rfl, by decide, by decide, activeChainTip_work_max _ _ (by decide) (by decide)⟩

/-- Without wrap-around, the work of the active chain never decreases: after any further
operations, the active tip carries at least the work it carried before. -/
theorem activeChainTip_work_mono (network : Network) (ops ops' : List (Op Transaction))
    (hprev : (run E network (ops ++ ops')).getCachedHeader
      (run E network (ops ++ ops')).genesis.header.prevBlockhash = none)
    (hwrap : NoWorkOverflow E (run E network (ops ++ ops'))) :
    (run E network ops).getActiveChainTip.work ≤
      (run E network (ops ++ ops')).getActiveChainTip.work := by
  have hs := inv_run (E := E) network ops
  -- the active tip's node stays cached with its work
  obtain ⟨n, hn, -, -, hw⟩ := hs.tip_node _ hs.getActiveChainTip_mem
  have hrun : run E network (ops ++ ops') = ops'.foldl (step E) (run E network ops) :=
    List.foldl_append _ _ _ _
  obtain ⟨n', hn', -, -, hw'⟩ := getCachedHeader_foldl_step (E := E) ops' _ hn
  rw [← hrun] at hn'
  rw [← hw, ← hw']
  exact (inv_run network (ops ++ ops')).work_le_activeChainTip (tipsCover_run _ _) hprev hwrap hn'

/-- The hypotheses hold when a fork of two headers and a header on the other branch follow a
header below genesis. -/
theorem activeChainTip_work_mono_sample :
    ∃ s s', run Env.sample .regtest [.addHeaders [.sample 1 1]] = s ∧
      run Env.sample .regtest ([.addHeaders [.sample 1 1]] ++
        [.addHeaders [.sample 1 2, .sample 3 4]]) = s' ∧
      s'.getCachedHeader s'.genesis.header.prevBlockhash = none ∧ NoWorkOverflow Env.sample s' ∧
      s.getActiveChainTip.work ≤ s'.getActiveChainTip.work :=
  ⟨_, _, rfl, rfl, by decide, by decide, activeChainTip_work_mono _ _ _ (by decide) (by decide)⟩

/-! ### Extending the active chain -/

/-- On a state of the invariant, a header that is not cached, that the validator accepts, whose
parent is the active tip, and whose positive work does not wrap when added to the active tip's,
becomes the active tip of `add_headers`, one higher and with the summed work: every other tip
carries at most the old active tip's work. -/
theorem Inv.addHeaders_extend {s : BlockchainState Transaction} (hs : s.Inv E)
    {header : BlockHeader}
    (hparent : header.prevBlockhash = E.blockHash s.getActiveChainTip.header)
    (hnew : s.getCachedHeader (E.blockHash header) = none)
    (hvalid : E.validateHeader s.network (s.toHeaderStore E) header = .ok ())
    (hpos : 0 < (E.work header).toNat)
    (hwrap : s.getActiveChainTip.work.toNat + (E.work header).toNat < 2 ^ 256) :
    (BlockchainState.addHeaders E s [header]).2.getActiveChainTip =
      ⟨header, s.getActiveChainTip.height + 1, s.getActiveChainTip.work + E.work header⟩ := by
  set a := s.getActiveChainTip
  obtain ⟨p, hp, -, hph, hpw⟩ := hs.tip_node a hs.getActiveChainTip_mem
  rw [← hparent] at hp
  obtain ⟨c', hi⟩ : ∃ c', s.headerCache.insert E.toBitcoin header = .ok c' :=
    ⟨_, (HeaderCache.insert_eq_ok_iff _).2 ⟨hnew, p, hp, rfl⟩⟩
  set T : Tip := ⟨header, a.height + 1, a.work + E.work header⟩
  have hadd : (BlockchainState.addHeaders E s [header]).2.tips =
      E.sortTips.sort (updateTips E s.tips header.prevBlockhash T) := by
    simp [BlockchainState.addHeaders, BlockchainState.addHeadersLoop, BlockchainState.addHeader,
      hnew, hvalid, hi, HeaderCache.get_insert_self hp hi, HeaderCache.childNode, T, hph, hpw]
  have hs' := hs.addHeaders [header]
  have hT : T ∈ (BlockchainState.addHeaders E s [header]).2.tips := by
    rw [hadd]
    exact (E.sortTips.perm _).mem_iff.2 (tip_mem_updateTips hs.tips_nodup)
  -- the new tip carries more work than the old active tip
  have hlt : a.work.toNat < T.work.toNat := by
    show a.work.toNat < (a.work + E.work header).toNat
    rw [BitVec.toNat_add, Nat.mod_eq_of_lt hwrap]
    omega
  have hmem := hs'.getActiveChainTip_mem
  rw [hadd, (E.sortTips.perm _).mem_iff] at hmem
  rcases mem_updateTips hmem with h | h
  · exact h
  · have hle := BitVec.le_trans (hs'.work_le_activeChainTip_of_mem hT)
      (hs.work_le_activeChainTip_of_mem h)
    exact absurd (BitVec.le_def.1 hle) (Nat.not_le.2 hlt)

/-- In every reachable state, `add_headers` of a header that is not cached, that the validator
accepts, whose parent is the active tip, and whose positive work does not wrap when added to the
active tip's, makes it the active tip, one higher than the old one and with the summed work. -/
theorem addHeaders_extends_activeChainTip (network : Network) (ops : List (Op Transaction))
    (header : BlockHeader)
    (hparent : header.prevBlockhash = E.blockHash (run E network ops).getActiveChainTip.header)
    (hnew : (run E network ops).getCachedHeader (E.blockHash header) = none)
    (hvalid : E.validateHeader (run E network ops).network ((run E network ops).toHeaderStore E)
      header = .ok ())
    (hpos : 0 < (E.work header).toNat)
    (hwrap : (run E network ops).getActiveChainTip.work.toNat + (E.work header).toNat < 2 ^ 256) :
    (run E network (ops ++ [.addHeaders [header]])).getActiveChainTip =
      ⟨header, (run E network ops).getActiveChainTip.height + 1,
        (run E network ops).getActiveChainTip.work + E.work header⟩ := by
  rw [run, List.foldl_append, List.foldl_cons, List.foldl_nil]
  exact (inv_run network ops).addHeaders_extend hparent hnew hvalid hpos hwrap

/-- The hypotheses hold for a header below the first of two children of genesis, which are tips
of equal work. -/
theorem addHeaders_extends_activeChainTip_sample :
    ∃ s, run Env.sample .regtest [.addHeaders [.sample 1 1, .sample 1 2]] = s ∧
      (BlockHeader.sample 2 3).prevBlockhash = Env.sample.blockHash s.getActiveChainTip.header ∧
      s.getCachedHeader (Env.sample.blockHash (.sample 2 3)) = none ∧
      Env.sample.validateHeader s.network (s.toHeaderStore Env.sample) (.sample 2 3) = .ok () ∧
      0 < (Env.sample.work (.sample 2 3)).toNat ∧
      s.getActiveChainTip.work.toNat + (Env.sample.work (.sample 2 3)).toNat < 2 ^ 256 ∧
      (run Env.sample .regtest ([.addHeaders [.sample 1 1, .sample 1 2]] ++
        [.addHeaders [.sample 2 3]])).getActiveChainTip =
        ⟨.sample 2 3, s.getActiveChainTip.height + 1,
          s.getActiveChainTip.work + Env.sample.work (.sample 2 3)⟩ :=
  ⟨_, rfl, by decide, by decide, rfl, by decide, by decide,
    addHeaders_extends_activeChainTip _ _ _ (by decide) (by decide) rfl (by decide) (by decide)⟩

end BlockchainState

end BitcoinAdaptor
