import BitcoinAdaptor.BlockchainState.Invariant

/-!
# Fork choice: the tips and the active tip

In every reachable state the tips are the leaves of the header tree, once each, with their
nodes' header, height and work, and they are sorted by non-increasing work; so there is always
a tip, and `get_active_chain_tip`, the first one, is a leaf of maximal work among the leaves
(`BlockchainState.tips_eq_leaves_sorted`).

## Main results

* `BlockchainState.tips_eq_leaves_sorted`.
-/

namespace BitcoinAdaptor

namespace BlockchainState

variable {Transaction : Type} {E : Env Transaction}

/-- In a consistent state with sorted tips, the first tip is a leaf whose work is at least that
of every leaf. -/
theorem Inv.activeChainTip_max {s : BlockchainState Transaction} (hs : s.Inv E) :
    (∃ n, s.getCachedHeader (E.blockHash s.getActiveChainTip.header) = some n ∧ n.children = []) ∧
      ∀ h n, s.getCachedHeader h = some n → n.children = [] → n.work ≤ s.getActiveChainTip.work := by
  obtain ⟨t, rest, hts⟩ := List.exists_cons_of_ne_nil hs.tips_ne_nil
  have hact : s.getActiveChainTip = t := by simp [getActiveChainTip, hts]
  have hsorted := hs.sorted
  rw [hts, List.sorted_cons] at hsorted
  rw [hact]
  refine ⟨(hs.mem_tips_iff _).1 (hts ▸ List.mem_map_of_mem _ (List.mem_cons_self t rest)),
    fun h n hn hleaf => ?_⟩
  obtain ⟨u, hu, rfl⟩ := List.mem_map.1 ((hs.mem_tips_iff h).2 ⟨n, hn, hleaf⟩)
  obtain ⟨n', hn', -, -, hw⟩ := hs.tip_node u hu
  obtain rfl := Option.some.inj (hn.symm.trans hn')
  rw [hw]
  rw [hts, List.mem_cons] at hu
  rcases hu with rfl | hu
  · exact Nat.le_refl _
  · exact hsorted.1 u hu

/-- The tips of every reachable state: their hashes are distinct and are exactly the hashes of
the cached nodes without children; each tip has its node's header, height and work; they are
sorted by non-increasing work; there is at least one; and the active tip is a leaf of maximal
work. -/
theorem tips_eq_leaves_sorted (network : Network) (ops : List (Op Transaction)) :
    let s := run E network ops
    (s.tips.map fun t => E.blockHash t.header).Nodup ∧
      (∀ h, h ∈ s.tips.map (fun t => E.blockHash t.header) ↔
        ∃ n, s.getCachedHeader h = some n ∧ n.children = []) ∧
      (∀ t ∈ s.tips, ∃ n, s.getCachedHeader (E.blockHash t.header) = some n ∧
        n.header = t.header ∧ n.height = t.height ∧ n.work = t.work) ∧
      s.tips.Sorted (fun a b => b.work ≤ a.work) ∧
      s.tips ≠ [] ∧
      (∃ n, s.getCachedHeader (E.blockHash s.getActiveChainTip.header) = some n ∧
        n.children = []) ∧
      ∀ h n, s.getCachedHeader h = some n → n.children = [] →
        n.work ≤ s.getActiveChainTip.work := by
  have hs := @inv_run _ E network ops
  exact ⟨hs.tips_nodup, hs.mem_tips_iff, hs.tip_node, hs.sorted, hs.tips_ne_nil,
    hs.activeChainTip_max⟩

/-! ### Ties -/

/-- Two tips of equal work need not be in the order their headers were inserted. With
`Env.sample`, after `add_headers [a, b]` (`a = sample 1 1`, `b = sample 1 2`, children of
genesis) and `add_headers [b₁, a₁]` (`b₁ = sample 3 4` below `b`, `a₁ = sample 2 3` below `a`),
`b₁` is inserted before `a₁` and yet `a₁` precedes it, with the same work: `a₁` takes over the
slot of `a`, which the sort keeps ahead of the equal `b₁`. -/
theorem tips_tie_not_insertion_order :
    ∃ s₁, run Env.sample .regtest [.addHeaders [.sample 1 1, .sample 1 2]] = s₁ ∧
      (addHeadersLoop Env.sample s₁ [.sample 3 4]).2.2.getCachedHeader
        (Env.sample.blockHash (.sample 3 4)) ≠ none ∧
      (addHeadersLoop Env.sample s₁ [.sample 3 4]).2.2.getCachedHeader
        (Env.sample.blockHash (.sample 2 3)) = none ∧
      (run Env.sample .regtest [.addHeaders [.sample 1 1, .sample 1 2],
        .addHeaders [.sample 3 4, .sample 2 3]]).tips.map (fun t => (t.header, t.work)) =
        [(.sample 2 3, 3), (.sample 3 4, 3)] :=
  ⟨_, rfl, by decide⟩

/-- In every reachable state the tips are sorted by non-increasing work, so tips of equal work
sit next to each other: a tip between two tips of the same work has that work too. The first tip
is a leaf of maximal work. -/
theorem tips_equal_work_adjacent (network : Network) (ops : List (Op Transaction)) :
    let s := run E network ops
    s.tips.Sorted (fun a b => b.work ≤ a.work) ∧
    (∀ i j k : Fin s.tips.length, i ≤ j → j ≤ k → (s.tips.get i).work = (s.tips.get k).work →
        (s.tips.get j).work = (s.tips.get i).work) ∧
      (∃ n, s.getCachedHeader (E.blockHash s.getActiveChainTip.header) = some n ∧
        n.children = []) ∧
      ∀ h n, s.getCachedHeader h = some n → n.children = [] →
        n.work ≤ s.getActiveChainTip.work := by
  have hs := @inv_run _ E network ops
  refine ⟨hs.sorted, fun i j k hij hjk hik => ?_, hs.activeChainTip_max⟩
  have h1 : (_ : Tip).WorkGe _ := hs.sorted.rel_get_of_le hij
  have h2 : (_ : Tip).WorkGe _ := hs.sorted.rel_get_of_le hjk
  simp only [Tip.WorkGe, BitVec.le_def] at h1 h2
  rw [BitVec.toNat_eq] at hik ⊢
  omega

/-! ### `get_height` inside a batch -/

/-- `add_headers` sorts the tips only after its loop, so the validator can be handed a store
whose `get_height` is not the height of a heaviest tip. With `Env.sample`, from the two
children `sample 1 1` and `sample 1 2` of genesis, `add_headers [b₁, c]` with `b₁ = sample 3 4`
below `sample 1 2` and `c = sample 5 5` below `b₁` validates `c` against the state `s` after
`b₁`, where `get_height` is `1` (the tip `sample 1 1`) while the only heaviest tip, `b₁`, has
height `2`. -/
theorem getHeight_in_batch_not_heaviest :
    ∃ s, (addHeadersLoop Env.sample (run Env.sample .regtest
        [.addHeaders [.sample 1 1, .sample 1 2]]) [.sample 3 4]).2.2 = s ∧
      s.getCachedHeader (Env.sample.blockHash (.sample 5 5)) = none ∧
      (s.toHeaderStore Env.sample).getHeight = 1 ∧
      ∀ t ∈ s.tips, (∀ u ∈ s.tips, u.work ≤ t.work) → t.height = 2 :=
  ⟨_, rfl, by decide⟩

end BlockchainState

end BitcoinAdaptor
