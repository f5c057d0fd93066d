import BitcoinAdaptor.Bitcoin
import Mathlib.Data.List.AList

/-!
# The header cache

`HeaderCache` keeps the headers discovered from peers as a tree: a map from block hash to
`HeaderNode`, each node holding its header, its height, the work of the chain up to it and
the list of its children. `new` seeds the map with the genesis header of a network at height
`0`; `insert` adds a header below its cached parent, with the parent's height plus one and the
parent's work plus the header's own work, and appends it to the parent's children.

In the source a node is shared (`Arc<HeaderNode>`) between the map and its parent's `children`
list, and only `children` is ever changed, by appending. The model stores the tree once, in the
map, and lists each child by the hash it is stored under: the child in the parent's list and
the child in the map are one node. `HashMap` is an `AList`, whose keys are distinct by
construction.

## Main definitions

* `HeaderNode`, `HeaderCacheError`, `HeaderCache`.
* `HeaderCache.new`, `HeaderCache.get`, `HeaderCache.contains`, `HeaderCache.insert`.

## Main results

* `HeaderCache.insert_eq_ok_iff`: what a successful insertion is, guards included.
* `HeaderCache.get_insert`: the nodes of the cache after an insertion.

## References

* `src/src/blockchainstate.rs`, lines 27–120.
-/

namespace BitcoinAdaptor

/-- A lookup after an insertion into a map whose values do not depend on the key. -/
theorem lookup_insert_ite {K V : Type} [DecidableEq K] (s : AList fun _ : K => V) (a a' : K)
    (b : V) : (s.insert a b).lookup a' = if a' = a then some b else s.lookup a' := by
  split_ifs with h
  · subst h
    exact AList.lookup_insert s
  · exact AList.lookup_insert_ne h

/-- A header of the tree with its height, the work of the chain ending in it, and the hashes
of its children. -/
structure HeaderNode where
  header : BlockHeader
  height : Nat
  work : Work
  children : List BlockHash
  deriving DecidableEq, Inhabited, Repr

/-- The node after `children.lock().push(child)`. -/
def HeaderNode.pushChild (node : HeaderNode) (child : BlockHash) : HeaderNode :=
  { node with children := node.children ++ [child] }

@[simp] theorem HeaderNode.pushChild_header (node : HeaderNode) (child : BlockHash) :
    (node.pushChild child).header = node.header := rfl

@[simp] theorem HeaderNode.pushChild_height (node : HeaderNode) (child : BlockHash) :
    (node.pushChild child).height = node.height := rfl

@[simp] theorem HeaderNode.pushChild_work (node : HeaderNode) (child : BlockHash) :
    (node.pushChild child).work = node.work := rfl

@[simp] theorem HeaderNode.pushChild_children (node : HeaderNode) (child : BlockHash) :
    (node.pushChild child).children = node.children ++ [child] := rfl

/-- The two ways `HeaderCache::insert` refuses a header. -/
inductive HeaderCacheError
  | notFound (prevHash : BlockHash)
  | alreadyExists
  deriving DecidableEq, Repr

/-- The cache of discovered headers. In the code `genesis` is an `Arc` shared with the map, so it
sees the children later appended to the genesis node; here it is a snapshot of the node built by
`new`, whose `children` stay `[]`. The code reads only its header, height and work, and reads
children through `headers`, so nothing that the model computes depends on the difference. -/
structure HeaderCache where
  genesis : HeaderNode
  headers : AList fun _ : BlockHash => HeaderNode

namespace HeaderCache

variable {Transaction : Type} (B : Bitcoin Transaction)

/-- `HeaderCache::new`: the genesis header of the network, at height `0`, alone in the map. -/
def new (network : Network) : HeaderCache :=
  let header := (B.genesisBlock network).header
  let cachedHeader : HeaderNode :=
    { header, height := 0, work := B.work header, children := [] }
  { genesis := cachedHeader, headers := (∅ : AList _).insert (B.blockHash header) cachedHeader }

/-- `HeaderCache::get`. -/
def get (c : HeaderCache) (hash : BlockHash) : Option HeaderNode :=
  c.headers.lookup hash

/-- `HeaderCache::contains`. -/
def contains (c : HeaderCache) (hash : BlockHash) : Bool :=
  (c.get hash).isSome

/-- The node `HeaderCache::insert` creates for `header` below `parent`. -/
def childNode (parent : HeaderNode) (header : BlockHeader) : HeaderNode :=
  { header, height := parent.height + 1, work := parent.work + B.work header, children := [] }

/-- `HeaderCache::insert`: refuse a known header, then a header whose parent is not cached;
otherwise append the new node to its parent's children and store it under its hash. -/
def insert (c : HeaderCache) (header : BlockHeader) : Except HeaderCacheError HeaderCache :=
  let blockHash := B.blockHash header
  if c.contains blockHash then .error .alreadyExists
  else
    match c.get header.prevBlockhash with
    | none => .error (.notFound header.prevBlockhash)
    | some parent =>
      let headers := c.headers.insert header.prevBlockhash (parent.pushChild blockHash)
      .ok { c with headers := headers.insert blockHash (childNode B parent header) }

@[simp] theorem contains_eq_true {c : HeaderCache} {hash : BlockHash} :
    c.contains hash = true ↔ ∃ n, c.get hash = some n := by
  simp [contains, Option.isSome_iff_exists]

theorem get_new (network : Network) (hash : BlockHash) :
    (new B network).get hash =
      if hash = B.blockHash (B.genesisBlock network).header then some (new B network).genesis
      else none := by
  simp only [new, get, lookup_insert_ite]
  rfl

/-- A successful insertion, with the guards it passed: the header was not cached, its parent
was, and the new map is the old one with the parent's children extended and the child added. -/
theorem insert_eq_ok_iff {c c' : HeaderCache} {header : BlockHeader} :
    c.insert B header = .ok c' ↔
      c.get (B.blockHash header) = none ∧ ∃ parent, c.get header.prevBlockhash = some parent ∧
        c' = ⟨c.genesis, (c.headers.insert header.prevBlockhash
          (parent.pushChild (B.blockHash header))).insert (B.blockHash header)
            (childNode B parent header)⟩ := by
  unfold insert
  cases hh : c.get (B.blockHash header) with
  | some n => simp [contains, hh]
  | none =>
    cases hp : c.get header.prevBlockhash with
    | none => simp [contains, hh, hp]
    | some parent => simp [contains, hh, hp, eq_comm]

/-- An insertion fails with `alreadyExists` exactly on a cached header and otherwise with
`notFound` exactly on a header whose parent is missing; in both cases nothing is stored. -/
theorem insert_eq_error_iff {c : HeaderCache} {header : BlockHeader} {e : HeaderCacheError} :
    c.insert B header = .error e ↔
      (c.contains (B.blockHash header) = true ∧ e = .alreadyExists) ∨
      (c.get (B.blockHash header) = none ∧ c.get header.prevBlockhash = none ∧
        e = .notFound header.prevBlockhash) := by
  unfold insert
  cases hh : c.get (B.blockHash header) with
  | some n => simp [contains, hh, eq_comm]
  | none =>
    cases hp : c.get header.prevBlockhash with
    | none => simp [contains, hh, hp, eq_comm]
    | some parent => simp [contains, hh, hp]

/-- The nodes after a successful insertion: the new child under its hash, the parent with one
more child, every other node unchanged. -/
theorem get_insert {c c' : HeaderCache} {header : BlockHeader} {parent : HeaderNode}
    (hp : c.get header.prevBlockhash = some parent) (h : c.insert B header = .ok c')
    (hash : BlockHash) :
    c'.get hash =
      if hash = B.blockHash header then some (childNode B parent header)
      else if hash = header.prevBlockhash then some (parent.pushChild (B.blockHash header))
      else c.get hash := by
  obtain ⟨-, parent', hp', rfl⟩ := (insert_eq_ok_iff B).1 h
  obtain rfl : parent' = parent := Option.some.inj (hp'.symm.trans hp)
  simp only [get, lookup_insert_ite]

end HeaderCache

end BitcoinAdaptor
