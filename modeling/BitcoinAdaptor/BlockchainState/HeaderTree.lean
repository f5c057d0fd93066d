import BitcoinAdaptor.BlockchainState.HeaderCache

/-!
# The header cache is a tree rooted at genesis

`HeaderCache.Valid` is the invariant of the header cache: every node is stored under its own
hash; the genesis node is stored under its hash with height `0` and its own work; every other
node has its parent (`prev_blockhash`) in the cache, one more than the parent's height, the
parent's work plus its own (in `Uint256` arithmetic), and occurs exactly once among the
parent's children; and every child listed by a node is a cached node whose parent is that node.
`new` establishes it and `insert` keeps it.

From it, following `prev_blockhash` links from any node reaches the genesis node after exactly
as many steps as the node's height (`HeaderCache.Valid.ancestor_height`).

## Main definitions

* `HeaderCache.Valid`, `HeaderCache.ancestor`.

## Main results

* `HeaderCache.valid_new`, `HeaderCache.Valid.insert`.
* `HeaderCache.get_insert_of_get`: an insertion changes no cached node but the parent's
  children.
* `HeaderCache.Valid.ancestor_height`.
-/

namespace BitcoinAdaptor

namespace HeaderCache

variable {Transaction : Type} (B : Bitcoin Transaction)

/-- The invariant of the header tree. -/
structure Valid (c : HeaderCache) : Prop where
  get_genesis : ∃ g, c.get (B.blockHash c.genesis.header) = some g ∧ g.header = c.genesis.header ∧
    g.height = 0 ∧ g.work = B.work g.header
  genesis_height : c.genesis.height = 0
  genesis_work : c.genesis.work = B.work c.genesis.header
  hash_header : ∀ {h n}, c.get h = some n → B.blockHash n.header = h
  parent : ∀ {h n}, c.get h = some n → h ≠ B.blockHash c.genesis.header →
    ∃ p, c.get n.header.prevBlockhash = some p ∧ n.height = p.height + 1 ∧
      n.work = p.work + B.work n.header ∧ p.children.count h = 1
  child : ∀ {h n}, c.get h = some n → ∀ k ∈ n.children,
    ∃ m, c.get k = some m ∧ m.header.prevBlockhash = h

theorem valid_new (network : Network) : (new B network).Valid B where
  get_genesis := ⟨_, by rw [get_new]; exact if_pos rfl, rfl, rfl, rfl⟩
  genesis_height := rfl
  genesis_work := rfl
  hash_header {h n} hn := by
    rw [get_new] at hn
    split_ifs at hn with hh
    exact (Option.some.inj hn) ▸ hh.symm
  parent {h n} hn hne := by
    rw [get_new] at hn
    split_ifs at hn with hh
    exact absurd hh hne
  child {h n} hn k hk := by
    rw [get_new] at hn
    split_ifs at hn with hh
    cases Option.some.inj hn
    simp [new] at hk

variable {B}

/-- An insertion keeps every cached node, adding the new child to its parent's children. -/
theorem get_insert_of_get {c c' : HeaderCache} {header : BlockHeader}
    (h : c.insert B header = .ok c') {k : BlockHash} {n : HeaderNode} (hk : c.get k = some n) :
    ∃ n', c'.get k = some n' ∧ n'.header = n.header ∧ n'.height = n.height ∧
      n'.work = n.work ∧
      n'.children = n.children ++ if k = header.prevBlockhash then [B.blockHash header] else [] := by
  obtain ⟨hnew, parent, hp, -⟩ := (insert_eq_ok_iff B).1 h
  rw [get_insert B hp h]
  have hne : k ≠ B.blockHash header := by rintro rfl; simp [hnew] at hk
  by_cases hkp : k = header.prevBlockhash
  · subst hkp
    obtain rfl := Option.some.inj (hp.symm.trans hk)
    simp [hne]
  · simp [hne, hkp, hk]

theorem get_insert_self {c c' : HeaderCache} {header : BlockHeader} {parent : HeaderNode}
    (hp : c.get header.prevBlockhash = some parent) (h : c.insert B header = .ok c') :
    c'.get (B.blockHash header) = some (childNode B parent header) := by
  simp [get_insert B hp h]

/-- The keys of the cache after an insertion are the old ones and the new header's hash. -/
theorem get_insert_eq_none {c c' : HeaderCache} {header : BlockHeader}
    (h : c.insert B header = .ok c') {k : BlockHash} :
    c'.get k = none ↔ c.get k = none ∧ k ≠ B.blockHash header := by
  obtain ⟨-, parent, hp, -⟩ := (insert_eq_ok_iff B).1 h
  rw [get_insert B hp h]
  by_cases hk : k = B.blockHash header
  · simp [hk]
  · by_cases hkp : k = header.prevBlockhash
    · subst hkp
      simp [hp, hk]
    · simp [hk, hkp]

/-- The hashes an insertion leaves known: the old ones and the new header's. -/
theorem contains_insert {c c' : HeaderCache} {header : BlockHeader}
    (h : c.insert B header = .ok c') (k : BlockHash) :
    c'.contains k = (c.contains k || k == B.blockHash header) := by
  rw [Bool.eq_iff_iff, Bool.or_eq_true, beq_iff_eq]
  simp only [contains, Option.isSome_iff_ne_none, ne_eq, get_insert_eq_none h, not_and, not_not]
  by_cases hk : k = B.blockHash header <;> simp [hk]

theorem insert_genesis {c c' : HeaderCache} {header : BlockHeader}
    (h : c.insert B header = .ok c') : c'.genesis = c.genesis := by
  obtain ⟨-, -, -, rfl⟩ := (insert_eq_ok_iff B).1 h
  rfl

/-- The nodes after an insertion: the new child, or an old node with its header, height and
work, whose children gained the new hash if it is the parent. -/
theorem get_insert_cases {c c' : HeaderCache} {header : BlockHeader} {parent : HeaderNode}
    (hp : c.get header.prevBlockhash = some parent) (h : c.insert B header = .ok c')
    {k : BlockHash} {n' : HeaderNode} (hk : c'.get k = some n') :
    (k = B.blockHash header ∧ n' = childNode B parent header) ∨
      ∃ n, c.get k = some n ∧ n'.header = n.header ∧ n'.height = n.height ∧ n'.work = n.work ∧
        n'.children = n.children ++ if k = header.prevBlockhash then [B.blockHash header] else [] := by
  by_cases hkh : k = B.blockHash header
  · subst hkh
    exact .inl ⟨rfl, Option.some.inj (hk.symm.trans (get_insert_self hp h))⟩
  · obtain ⟨n, hn⟩ := Option.ne_none_iff_exists'.1 fun hnone =>
      (Option.some_ne_none n' (hk.symm.trans ((get_insert_eq_none h).2 ⟨hnone, hkh⟩)))
    obtain ⟨n'', hn'', hrest⟩ := get_insert_of_get h hn
    exact .inr ⟨n, hn, Option.some.inj (hk.symm.trans hn'') ▸ hrest⟩

/-- `insert` keeps the tree invariant. -/
theorem Valid.insert {c c' : HeaderCache} {header : BlockHeader} (hv : c.Valid B)
    (h : c.insert B header = .ok c') : c'.Valid B := by
  obtain ⟨hnew, parent, hp, -⟩ := (insert_eq_ok_iff B).1 h
  have hfresh : ∀ {k n}, c.get k = some n → B.blockHash header ∉ n.children := fun hk hmem => by
    obtain ⟨m, hm, -⟩ := hv.child hk _ hmem
    simp [hnew] at hm
  obtain ⟨p', hp', -, hp'h, hp'w, hp'c⟩ := get_insert_of_get h hp
  rw [if_pos rfl] at hp'c
  have hg := insert_genesis h
  constructor
  · obtain ⟨g, hg', hgh, hg0, hgw⟩ := hv.get_genesis
    obtain ⟨g', hg'', hgh', hgh'', hgw', -⟩ := get_insert_of_get h hg'
    exact ⟨g', hg ▸ hg'', hgh'.trans (hg ▸ hgh), hgh''.trans hg0, by rw [hgw', hgh', hgw]⟩
  · exact hg ▸ hv.genesis_height
  · exact hg ▸ hv.genesis_work
  · intro k n' hk
    rcases get_insert_cases hp h hk with ⟨rfl, rfl⟩ | ⟨n, hn, hh, -⟩
    · rfl
    · rw [hh, hv.hash_header hn]
  · intro k n' hk hkg
    rcases get_insert_cases hp h hk with ⟨rfl, rfl⟩ | ⟨n, hn, hh, hht, hw, -⟩
    · refine ⟨p', hp', by simp [childNode, hp'h], by simp [childNode, hp'w], ?_⟩
      simp [hp'c, List.count_eq_zero_of_not_mem (hfresh hp)]
    · obtain ⟨pp, hpp, hpph, hppw, hppc⟩ := hv.parent hn (hg ▸ hkg)
      obtain ⟨pp', hpp', -, hpph', hppw', hppc'⟩ := get_insert_of_get h hpp
      have hkh : k ≠ B.blockHash header := by rintro rfl; simp [hnew] at hn
      refine ⟨pp', hh ▸ hpp', by rw [hht, hpph, hpph'], by rw [hw, hppw, hppw', hh], ?_⟩
      rw [hppc']
      split_ifs <;> simp [hppc, hkh]
  · intro k n' hk j hj
    rcases get_insert_cases hp h hk with ⟨rfl, rfl⟩ | ⟨n, hn, -, -, -, hc⟩
    · simp [childNode] at hj
    · rw [hc, List.mem_append] at hj
      rcases hj with hj | hj
      · obtain ⟨m, hm, hmp⟩ := hv.child hn j hj
        obtain ⟨m', hm', hmh, -⟩ := get_insert_of_get h hm
        exact ⟨m', hm', hmh ▸ hmp⟩
      · split_ifs at hj with hkp
        · obtain rfl := List.mem_singleton.1 hj
          exact ⟨_, get_insert_self hp h, hkp.symm⟩
        · simp at hj

/-! ### Paths to genesis -/

/-- The node reached from `n` by following `prev_blockhash` links through the cache `k`
times, if every link is cached. -/
def ancestor (c : HeaderCache) : Nat → HeaderNode → Option HeaderNode
  | 0, n => some n
  | k + 1, n => (c.get n.header.prevBlockhash).bind (c.ancestor k)

variable {c : HeaderCache}

/-- Only the genesis node has height `0`. -/
theorem Valid.eq_genesis_of_height_eq_zero (hv : c.Valid B) {k : BlockHash} {n : HeaderNode}
    (hk : c.get k = some n) (h0 : n.height = 0) : k = B.blockHash c.genesis.header := by
  by_contra hne
  obtain ⟨p, -, hh, -⟩ := hv.parent hk hne
  omega

/-- A cached node's hash is the genesis hash exactly when its height is `0`. -/
theorem Valid.blockHash_eq_genesis_iff (hv : c.Valid B) {n : HeaderNode}
    (hn : c.get (B.blockHash n.header) = some n) :
    B.blockHash n.header = B.blockHash c.genesis.header ↔ n.height = 0 := by
  refine ⟨fun he => ?_, hv.eq_genesis_of_height_eq_zero hn⟩
  obtain ⟨g, hg, -, hg0, -⟩ := hv.get_genesis
  rw [he, hg] at hn
  rw [← Option.some.inj hn, hg0]

/-- Walking back `j` links from a cached node, `j` at most its height, stays in the cache and
lowers the height by `j`. -/
theorem Valid.ancestor_of_le (hv : c.Valid B) {k : BlockHash} {n : HeaderNode}
    (hk : c.get k = some n) {j : Nat} (hj : j ≤ n.height) :
    ∃ m, c.ancestor j n = some m ∧ c.get (B.blockHash m.header) = some m ∧
      m.height = n.height - j := by
  induction j generalizing k n with
  | zero => exact ⟨n, rfl, hv.hash_header hk ▸ hk, rfl⟩
  | succ j ih =>
    have hkg : k ≠ B.blockHash c.genesis.header := fun he => by
      have := (hv.blockHash_eq_genesis_iff (hv.hash_header hk ▸ hk)).1 ((hv.hash_header hk).trans he)
      omega
    obtain ⟨p, hp, hph, -⟩ := hv.parent hk hkg
    obtain ⟨m, hm, hmc, hmh⟩ := ih hp (by omega)
    exact ⟨m, by simp [ancestor, hp, hm], hmc, by omega⟩

/-- Following `prev_blockhash` links from a cached node reaches the genesis node after exactly
as many steps as the node's height, and not before. -/
theorem Valid.ancestor_height (hv : c.Valid B) {k : BlockHash} {n : HeaderNode}
    (hk : c.get k = some n) :
    c.ancestor n.height n = c.get (B.blockHash c.genesis.header) ∧
      ∀ j < n.height, ∃ m, c.ancestor j n = some m ∧
        B.blockHash m.header ≠ B.blockHash c.genesis.header := by
  constructor
  · obtain ⟨m, hm, hmc, hmh⟩ := hv.ancestor_of_le hk le_rfl
    rw [hm, ← hv.eq_genesis_of_height_eq_zero hmc (by omega), hmc]
  · intro j hj
    obtain ⟨m, hm, hmc, hmh⟩ := hv.ancestor_of_le hk hj.le
    exact ⟨m, hm, fun he => by
      have := (hv.blockHash_eq_genesis_iff hmc).1 he
      omega⟩

/-- Walking back `j + k` links is walking back `j` links, then `k`. -/
theorem ancestor_add (j k : Nat) (n : HeaderNode) :
    c.ancestor (j + k) n = (c.ancestor j n).bind (c.ancestor k) := by
  induction j generalizing n with
  | zero => simp [ancestor]
  | succ j ih =>
    rw [Nat.add_right_comm, ancestor, ancestor, Option.bind_assoc]
    simp only [ih]

section GenesisParent

variable (hv : c.Valid B) (hprev : c.get c.genesis.header.prevBlockhash = none)
include hv hprev

/-- When the genesis header's parent hash is not cached, walking back more links than a cached
node's height fails. -/
theorem Valid.ancestor_eq_none {k : BlockHash} {n : HeaderNode} (hk : c.get k = some n)
    {j : Nat} (hj : n.height < j) : c.ancestor j n = none := by
  obtain ⟨m, hm, hmc, hmh⟩ := hv.ancestor_of_le hk le_rfl
  have hmg : m.header = c.genesis.header := by
    obtain ⟨g, hg, hgh, -⟩ := hv.get_genesis
    rw [hv.eq_genesis_of_height_eq_zero hmc (by omega), hg] at hmc
    rw [← Option.some.inj hmc, hgh]
  obtain ⟨d, rfl⟩ := Nat.exists_eq_add_of_lt hj
  rw [Nat.add_assoc, ancestor_add, hm, Option.some_bind, ancestor, hmg, hprev, Option.none_bind]

/-- When the genesis header's parent hash is not cached, a walk back from a cached node that
succeeds takes at most its height links, ends at a cached node and lowers the height by the
number of links. -/
theorem Valid.ancestor_eq_some {k : BlockHash} {n : HeaderNode} (hk : c.get k = some n)
    {j : Nat} {m : HeaderNode} (hm : c.ancestor j n = some m) :
    j ≤ n.height ∧ c.get (B.blockHash m.header) = some m ∧ m.height = n.height - j := by
  by_cases hj : j ≤ n.height
  · obtain ⟨m', hm', hmc, hmh⟩ := hv.ancestor_of_le hk hj
    obtain rfl := Option.some.inj (hm.symm.trans hm')
    exact ⟨hj, hmc, hmh⟩
  · rw [hv.ancestor_eq_none hprev hk (by omega)] at hm
    cases hm

end GenesisParent

end HeaderCache

end BitcoinAdaptor
