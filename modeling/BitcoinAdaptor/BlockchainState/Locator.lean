import BitcoinAdaptor.BlockchainState.Invariant
import Mathlib.Algebra.Group.Nat.Basic

/-!
# Block locators

`locator_hashes` lists hashes of the active chain for a `getheaders` request. It pushes the hash
of the active tip, walks back `step` links, pushes the hash reached, and so on for 22 iterations,
`step` being `1` in the first eight and doubling after each later one; when a parent is missing
it stops early. The list ends with the genesis hash unless that was the last hash pushed.

In a reachable state whose header cache does not hold the genesis header's `prev_blockhash`, this
is the list the documentation describes (`BlockchainState.locatorSpec`): the hashes of the
ancestors of the active tip at the offsets `o i` that are at most the tip's height `h`, in
order, then the genesis hash unless `h` is one of the offsets. So the list starts with the tip's
hash, ends with the genesis hash, has strictly decreasing heights and at most 23 entries
(`BlockchainState.locatorHashes_eq`).

## Main definitions

* `HeaderCache.walkBack`, `BlockchainState.locatorLoop`, `BlockchainState.locatorHashes`: the
  inner loop, the outer loop and `locator_hashes`.
* `BlockchainState.locatorOffset`, `BlockchainState.locatorSpec`: the offsets and the list as the
  documentation of `locator_hashes` gives them.

## Main results

* `BlockchainState.locatorLoop_eq`: the closed form of the outer loop.
* `BlockchainState.locatorHashes_eq`.

## References

`src/src/blockchainstate.rs`, lines 348–385.
-/

namespace BitcoinAdaptor

namespace HeaderCache

/-- The inner loop of `locator_hashes`: `step` times, replace the header by the cached header
stored under its `prev_blockhash`; `none`, where the source returns early, when that hash is
not cached. -/
def walkBack (c : HeaderCache) : Nat → BlockHeader → Option BlockHeader
  | 0, header => some header
  | step + 1, header =>
    match c.get header.prevBlockhash with
    | some cached => c.walkBack step cached.header
    | none => none

/-- The inner loop follows the path of a node towards genesis. -/
theorem walkBack_header (c : HeaderCache) (step : Nat) (n : HeaderNode) :
    c.walkBack step n.header = (c.ancestor step n).map (·.header) := by
  induction step generalizing n with
  | zero => rfl
  | succ step ih =>
    simp only [walkBack, ancestor]
    cases c.get n.header.prevBlockhash <;> simp [ih]

end HeaderCache

namespace BlockchainState

variable {Transaction : Type} (E : Env Transaction)

/-- `u32::saturating_mul`, on values below `2 ^ 32`. -/
def saturatingMul (a b : Nat) : Nat :=
  min (a * b) (2 ^ 32 - 1)

/-- The outer loop of `locator_hashes` at iteration `i`, with `n` iterations left: push the hash
of the current header, walk back `step` headers (when a parent is missing, push the genesis hash
unless the hash just pushed is it, and return), and from iteration 7 on double `step`. After the
last iteration push the genesis hash unless the last hash pushed is it. -/
def locatorLoop (c : HeaderCache) (genesisHash : BlockHash) :
    Nat → Nat → BlockHeader → Nat → BlockHash → List BlockHash → List BlockHash
  | 0, _, _, _, lastHash, hashes =>
    if lastHash ≠ genesisHash then hashes ++ [genesisHash] else hashes
  | n + 1, i, currentHeader, step, _, hashes =>
    let currentHash := E.blockHash currentHeader
    let lastHash := currentHash
    let hashes := hashes ++ [currentHash]
    match c.walkBack step currentHeader with
    | none => if lastHash ≠ genesisHash then hashes ++ [genesisHash] else hashes
    | some currentHeader =>
      locatorLoop c genesisHash n (i + 1) currentHeader
        (if i ≥ 7 then saturatingMul step 2 else step) lastHash hashes

/-- `BlockchainState::locator_hashes`. -/
def locatorHashes (s : BlockchainState Transaction) : List BlockHash :=
  let tip := s.getActiveChainTip
  let currentHeader := tip.header
  let currentHash := E.blockHash currentHeader
  let genesisHash := E.blockHash s.genesis.header
  locatorLoop E s.headerCache genesisHash 22 0 currentHeader 1 currentHash []

/-! ### The offsets -/

/-- The offsets of the locator as the documentation of `locator_hashes` lists them: `o i = i` up
to `i = 8`, then `o i = o (i - 1) + 2 ^ (i - 8)`. -/
def locatorOffset : Nat → Nat
  | 0 => 0
  | i + 1 => locatorOffset i + if i + 1 ≤ 8 then 1 else 2 ^ (i + 1 - 8)

/-- The `step` of iteration `i` of `locator_hashes`. -/
def locatorStep (i : Nat) : Nat :=
  if i < 8 then 1 else 2 ^ (i - 7)

theorem locatorOffset_succ (i : Nat) :
    locatorOffset (i + 1) = locatorOffset i + locatorStep i := by
  rw [locatorOffset, locatorStep]
  split_ifs <;> first | omega | congr 2

/-- The loop doubles `step` into the `step` of the next iteration, saturation never biting. -/
theorem locatorStep_succ : ∀ i < 22,
    (if i ≥ 7 then saturatingMul (locatorStep i) 2 else locatorStep i) = locatorStep (i + 1) := by
  decide

theorem locatorOffset_strictMono : StrictMono locatorOffset :=
  strictMono_nat_of_lt_succ fun i => by
    rw [locatorOffset_succ, locatorStep]
    split_ifs <;> simp [Nat.two_pow_pos]

/-- The list the documentation of `locator_hashes` describes, for the tip node `t`: the hashes
of the nodes `o i` links back from `t`, for the offsets `o i` at most its height, then the
genesis hash unless that height is an offset. -/
def locatorSpec (c : HeaderCache) (genesisHash : BlockHash) (t : HeaderNode) : List BlockHash :=
  (((List.range 22).map locatorOffset).filter (· ≤ t.height)).filterMap
      (fun o => (c.ancestor o t).map fun a => E.blockHash a.header) ++
    if t.height ∈ (List.range 22).map locatorOffset then [] else [genesisHash]

/-- Offsets past the first one above `h` are above `h` too. -/
theorem filter_offset_eq_nil {h i : Nat} (hh : h < locatorOffset i) (n : Nat) :
    ((List.range' i n).map locatorOffset).filter (· ≤ h) = [] := by
  simp only [List.filter_eq_nil_iff, List.mem_map, List.mem_range'_1]
  rintro _ ⟨j, ⟨hj, -⟩, rfl⟩
  have := locatorOffset_strictMono.monotone hj
  simp only [decide_eq_true_eq]
  omega

/-- Between offsets below `h` and an offset above it, `h` can only be the offset in between. -/
theorem mem_offsets_iff {h i : Nat} (hlt : ∀ j < i, locatorOffset j < h)
    (hgt : h < locatorOffset (i + 1)) (n : Nat) :
    h ∈ (List.range (i + (n + 1))).map locatorOffset ↔ locatorOffset i = h := by
  refine ⟨fun hm => ?_, fun he => List.mem_map.2 ⟨i, List.mem_range.2 (by omega), he⟩⟩
  obtain ⟨j, -, hj⟩ := List.mem_map.1 hm
  rcases lt_trichotomy j i with hji | rfl | hji
  · exact absurd hj (hlt j hji).ne
  · exact hj
  · exact absurd hj (hgt.trans_le (locatorOffset_strictMono.monotone hji)).ne'

/-! ### The outer loop -/

section Loop

variable {E} {c : HeaderCache} (hv : c.Valid E.toBitcoin)
  (hprev : c.get c.genesis.header.prevBlockhash = none) {t : HeaderNode}
  (ht : c.get (E.blockHash t.header) = some t)
include hv hprev ht

/-- The loop from iteration `i`, at the node `o i` links back from the tip, with the hashes
`acc` pushed so far: it pushes the hashes for the remaining offsets up to the tip's height, then
the genesis hash unless the tip's height is an offset. -/
theorem locatorLoop_eq (n : Nat) {i : Nat} (hn : i + n = 22) {a : HeaderNode}
    (ha : c.ancestor (locatorOffset i) t = some a) (hlt : ∀ j < i, locatorOffset j < t.height)
    {last : BlockHash} (hlast : n = 0 → last ≠ E.blockHash c.genesis.header)
    (acc : List BlockHash) :
    locatorLoop E c (E.blockHash c.genesis.header) n i a.header (locatorStep i) last acc =
      acc ++ (((List.range' i n).map locatorOffset).filter (· ≤ t.height)).filterMap
          (fun o => (c.ancestor o t).map fun m => E.blockHash m.header) ++
        if t.height ∈ (List.range (i + n)).map locatorOffset then []
        else [E.blockHash c.genesis.header] := by
  induction n generalizing i a last acc with
  | zero =>
    have hg : t.height ∉ (List.range i).map locatorOffset := by
      simp only [List.mem_map, List.mem_range, not_exists, not_and]
      exact fun j hj => (hlt j hj).ne
    simp [locatorLoop, hlast rfl, hg]
  | succ n ih =>
    obtain ⟨hi, hac, hah⟩ := hv.ancestor_eq_some hprev ht ha
    have hwalk : c.walkBack (locatorStep i) a.header =
        (c.ancestor (locatorOffset (i + 1)) t).map (·.header) := by
      rw [HeaderCache.walkBack_header, locatorOffset_succ, HeaderCache.ancestor_add, ha,
        Option.some_bind]
    have hstep := locatorOffset_strictMono (Nat.lt_add_one i)
    -- the hash pushed is the genesis hash exactly at the tip's height
    have hgen : E.blockHash a.header = E.blockHash c.genesis.header ↔
        locatorOffset i = t.height := by
      rw [hv.blockHash_eq_genesis_iff hac, hah]
      omega
    simp only [locatorLoop, hwalk, List.range'_succ, List.map_cons]
    cases ha' : c.ancestor (locatorOffset (i + 1)) t with
    | none =>
      -- the walk fails: `o (i + 1)` is above the tip's height
      have hgt : t.height < locatorOffset (i + 1) := Nat.lt_of_not_le fun hle => by
        obtain ⟨m, hm, -⟩ := hv.ancestor_of_le ht hle
        simp [ha'] at hm
      simp only [Option.map_none', List.filter_cons, hi, decide_True, if_true,
        filter_offset_eq_nil hgt, List.filterMap_cons, ha, Option.map_some',
        mem_offsets_iff hlt hgt, Ne, hgen]
      by_cases hoi : locatorOffset i = t.height <;> simp [hoi]
    | some a' =>
      -- the walk succeeds: recurse at `o (i + 1)`
      obtain ⟨hi', -⟩ := hv.ancestor_eq_some hprev ht ha'
      have hlt' : ∀ j < i + 1, locatorOffset j < t.height := fun j hj =>
        (Nat.lt_succ_iff_lt_or_eq.1 hj).elim (hlt j) fun he => he ▸ by omega
      simp only [Option.map_some', locatorStep_succ i (by omega)]
      rw [ih (by omega) ha' hlt' (fun _ he => by have := hgen.1 he; omega),
        show i + 1 + n = i + (n + 1) by omega]
      simp [List.filter_cons, hi, ha]

/-- From the tip node, the loop computes the documented list. -/
theorem locatorLoop_eq_locatorSpec :
    locatorLoop E c (E.blockHash c.genesis.header) 22 0 t.header 1 (E.blockHash t.header) [] =
      locatorSpec E c (E.blockHash c.genesis.header) t := by
  have h := locatorLoop_eq hv hprev ht 22 (i := 0) rfl (a := t) rfl
    (fun j hj => absurd hj (Nat.not_lt_zero j))
    (fun h => absurd h (by decide) : 22 = 0 → E.blockHash t.header ≠ E.blockHash c.genesis.header) []
  rw [← List.range_eq_range', Nat.zero_add] at h
  exact h

/-- The documented list has strictly decreasing heights. -/
theorem pairwise_locatorSpec : (locatorSpec E c (E.blockHash c.genesis.header) t).Pairwise
    fun a b => ∃ na nb, c.get a = some na ∧ c.get b = some nb ∧ nb.height < na.height := by
  have hoff : (((List.range 22).map locatorOffset).filter (· ≤ t.height)).Pairwise (· < ·) :=
    ((List.pairwise_lt_range 22).map locatorOffset fun _ _ h => locatorOffset_strictMono h).filter _
  have hnode {o : Nat} {b : BlockHash}
      (hb : (c.ancestor o t).map (fun a => E.blockHash a.header) = some b) :
      ∃ m, c.get b = some m ∧ o ≤ t.height ∧ m.height = t.height - o := by
    obtain ⟨m, hm, rfl⟩ := Option.map_eq_some'.1 hb
    obtain ⟨ho, hmc, hmh⟩ := hv.ancestor_eq_some hprev ht hm
    exact ⟨m, hmc, ho, hmh⟩
  rw [locatorSpec, List.pairwise_append]
  refine ⟨List.pairwise_filterMap.2 (hoff.imp fun hlt b hb b' hb' => ?_), by split <;> simp, ?_⟩
  · obtain ⟨m, hm, -, hmh⟩ := hnode hb
    obtain ⟨m', hm', ho', hmh'⟩ := hnode hb'
    exact ⟨m, m', hm, hm', by omega⟩
  · split
    · simp
    · rename_i hh
      obtain ⟨g, hg, -, hg0, -⟩ := hv.get_genesis
      rintro b hb _ hg'
      rw [List.mem_singleton.1 hg']
      obtain ⟨o, ho, hob⟩ := List.mem_filterMap.1 hb
      obtain ⟨ho', hoh⟩ := List.mem_filter.1 ho
      obtain ⟨m, hm, -, hmh⟩ := hnode hob
      have : o ≠ t.height := fun he => hh (he ▸ ho')
      exact ⟨m, g, hm, hg, by simp at hoh; omega⟩

/-- The documented list ends with the genesis hash: it holds it, and no hash after it. -/
theorem getLast?_locatorSpec :
    (locatorSpec E c (E.blockHash c.genesis.header) t).getLast? =
      some (E.blockHash c.genesis.header) := by
  have hmem : E.blockHash c.genesis.header ∈ locatorSpec E c (E.blockHash c.genesis.header) t := by
    rw [locatorSpec]
    split
    · rename_i hh
      obtain ⟨m, hm, hmc, hmh⟩ := hv.ancestor_of_le ht le_rfl
      refine List.mem_append_left _ (List.mem_filterMap.2
        ⟨t.height, List.mem_filter.2 ⟨hh, by simp⟩, ?_⟩)
      rw [hm, Option.map_some', (hv.blockHash_eq_genesis_iff hmc).2 (by omega)]
    · simp
  have hp := pairwise_locatorSpec hv hprev ht
  rcases List.eq_nil_or_concat (locatorSpec E c (E.blockHash c.genesis.header) t) with
    hnil | ⟨L, x, hL⟩
  · rw [hnil] at hmem
    cases hmem
  rw [hL, List.concat_eq_append] at hmem hp ⊢
  rw [List.getLast?_concat]
  rcases List.mem_append.1 hmem with hin | hin
  · obtain ⟨g, hg, -, hg0, -⟩ := hv.get_genesis
    obtain ⟨na, nb, hna, -, hlt⟩ := (List.pairwise_append.1 hp).2.2 _ hin x (List.mem_singleton_self x)
    rw [hg] at hna
    cases hna
    omega
  · rw [List.mem_singleton.1 hin]

end Loop

/-- The documented list starts with the tip's hash. -/
theorem head?_locatorSpec (c : HeaderCache) (genesisHash : BlockHash) (t : HeaderNode) :
    (locatorSpec E c genesisHash t).head? = some (E.blockHash t.header) := by
  simp [locatorSpec, List.range_succ_eq_map, locatorOffset, HeaderCache.ancestor]

/-- The documented list has at most 23 entries: one per offset and the genesis hash. -/
theorem length_locatorSpec_le (c : HeaderCache) (genesisHash : BlockHash) (t : HeaderNode) :
    (locatorSpec E c genesisHash t).length ≤ 23 := by
  rw [locatorSpec, List.length_append]
  have h := (List.length_filterMap_le (fun o => (c.ancestor o t).map fun a => E.blockHash a.header)
    _).trans (List.length_filter_le (· ≤ t.height) ((List.range 22).map locatorOffset))
  rw [List.length_map, List.length_range] at h
  split <;> simp <;> omega

variable {E}

/-- In every reachable state whose header cache does not hold the genesis header's
`prev_blockhash`, `locator_hashes` is the documented list for the active tip's node `t`: the
hashes of the nodes `o i` links back from `t` for the offsets `o i` at most the tip's height, all
of which exist, then the genesis hash unless that height is an offset. It starts with the tip's
hash, ends with the genesis hash, has strictly decreasing heights, so no hash twice, and at most
23 entries. -/
theorem locatorHashes_eq (network : Network) (ops : List (Op Transaction))
    (hprev : (run E network ops).getCachedHeader
      (run E network ops).genesis.header.prevBlockhash = none) :
    let s := run E network ops
    let genesisHash := E.blockHash s.genesis.header
    ∃ t, s.getCachedHeader (E.blockHash s.getActiveChainTip.header) = some t ∧
      t.height = s.getActiveChainTip.height ∧
      (∀ o ≤ t.height, (s.headerCache.ancestor o t).isSome) ∧
      locatorHashes E s = locatorSpec E s.headerCache genesisHash t ∧
      (locatorHashes E s).head? = some (E.blockHash s.getActiveChainTip.header) ∧
      (locatorHashes E s).getLast? = some genesisHash ∧
      (locatorHashes E s).Pairwise (fun a b => ∃ na nb, s.getCachedHeader a = some na ∧
        s.getCachedHeader b = some nb ∧ nb.height < na.height) ∧
      (locatorHashes E s).Nodup ∧
      (locatorHashes E s).length ≤ 23 := by
  intro s genesisHash
  have hs : s.Consistent E := (@inv_run _ E network ops).toConsistent
  have hprev' : s.headerCache.get s.headerCache.genesis.header.prevBlockhash = none := hprev
  have hv := hs.headerCache_valid
  obtain ⟨t, ht, hth, hhh, -⟩ := hs.tip_node _ hs.getActiveChainTip_mem
  rw [← hth] at ht ⊢
  have hloc : locatorHashes E s = locatorSpec E s.headerCache genesisHash t := by
    simp only [locatorHashes, ← hth]
    exact locatorLoop_eq_locatorSpec hv hprev' ht
  have hp := pairwise_locatorSpec hv hprev' ht
  rw [hloc]
  refine ⟨t, ht, hhh, fun o ho => ?_, rfl, head?_locatorSpec E _ _ t,
    getLast?_locatorSpec hv hprev' ht, hp, hp.imp fun ⟨na, nb, ha, hb, hlt⟩ he => ?_,
    length_locatorSpec_le E _ _ t⟩
  · obtain ⟨m, hm, -⟩ := hv.ancestor_of_le ht ho
    simp [hm]
  · rw [he, hb] at ha
    cases ha
    exact lt_irrefl _ hlt

/-- On a chain of twelve headers above genesis (the `i`-th has nonce `i` and hash `i + 1`), the
hypothesis holds, and the locator lists the hashes at heights `12, …, 4`, then at `2` and `0`: ten
steps of one, then a doubled step, then genesis. -/
theorem locatorHashes_eq_chain :
    ∃ ops : List (Op Unit), ops = [.addHeaders ((List.range 12).map fun i =>
        .sample (BitVec.ofNat 256 (i + 1)) (UInt32.ofNat (i + 1)))] ∧
      (run Env.sample .regtest ops).getCachedHeader
        (run Env.sample .regtest ops).genesis.header.prevBlockhash = none ∧
      (let s := run Env.sample .regtest ops
      let genesisHash := Env.sample.blockHash s.genesis.header
      ∃ t, s.getCachedHeader (Env.sample.blockHash s.getActiveChainTip.header) = some t ∧
        t.height = s.getActiveChainTip.height ∧
        (∀ o ≤ t.height, (s.headerCache.ancestor o t).isSome) ∧
        locatorHashes Env.sample s = locatorSpec Env.sample s.headerCache genesisHash t ∧
        (locatorHashes Env.sample s).head? =
          some (Env.sample.blockHash s.getActiveChainTip.header) ∧
        (locatorHashes Env.sample s).getLast? = some genesisHash ∧
        (locatorHashes Env.sample s).Pairwise (fun a b => ∃ na nb, s.getCachedHeader a = some na ∧
          s.getCachedHeader b = some nb ∧ nb.height < na.height) ∧
        (locatorHashes Env.sample s).Nodup ∧
        (locatorHashes Env.sample s).length ≤ 23) ∧
      locatorHashes Env.sample (run Env.sample .regtest ops) = [13, 12, 11, 10, 9, 8, 7, 6, 5, 3, 1] :=
  ⟨_, rfl, by decide, locatorHashes_eq .regtest _ (by decide), by decide⟩

end BlockchainState

end BitcoinAdaptor
