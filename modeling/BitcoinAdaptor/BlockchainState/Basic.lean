import BitcoinAdaptor.BlockchainState.HeaderTree
import Mathlib.Data.List.Sort

/-!
# The blockchain state

`BlockchainState` owns the header cache, a cache of full blocks and the list of tips, the
leaves of the header tree projected to their header, height and work. `add_header` validates
a new header against the state itself, inserts it into the header cache, and either replaces
the tip of its parent by the new header or, when the parent is not a tip, appends it as a new
tip. `add_headers` runs `add_header` over a list until the first error and then sorts the tips
by work, heaviest first; `add_block` checks the merkle root, adds the block's header the same
way, sorts the tips and stores the block.

Each method that takes `&mut self` returns its result together with the state it leaves, on
its error paths too. The tips are sorted with `sort_unstable_by`, which the model takes as a
`TipSort`: a function carrying the guarantees of the standard library's sort.

## Main definitions

* `Tip`, `Tip.WorkGe`, `TipSort`, `TipSort.insertion`.
* `AddHeaderResult`, `AddHeaderError`, `AddBlockError`.
* `Env`: the collaborators of the state (the `bitcoin` crate, the validator, the sort).
* `BlockchainState` and its methods `new`, `addHeader`, `addHeaders`, `addBlock`,
  `getActiveChainTip`, `pruneBlocks`, `pruneBlocksBelowHeight`, `clearBlocks`,
  `toHeaderStore`.
* `BlockchainState.Op`, `BlockchainState.step`, `BlockchainState.run`: the states reachable by
  the public operations.

## Main results

* `BlockchainState.addHeader_cases`: the three things `add_header` can do.

## References

* `src/src/blockchainstate.rs`, lines 13–25, 122–346, 387–422.
-/

namespace BitcoinAdaptor

/-- A tip: the header, height and work of a leaf of the header tree. -/
structure Tip where
  header : BlockHeader
  height : Nat
  work : Work
  deriving DecidableEq, Inhabited, Repr

/-- `a` may precede `b` among sorted tips: `b.work.cmp(&a.work)` is not `Less`. -/
def Tip.WorkGe (a b : Tip) : Prop :=
  b.work ≤ a.work

instance : DecidableRel Tip.WorkGe := fun a b =>
  inferInstanceAs (Decidable (b.work ≤ a.work))

instance : IsTotal Tip Tip.WorkGe :=
  ⟨fun a b => Nat.le_total b.work.toNat a.work.toNat⟩

instance : IsRefl Tip Tip.WorkGe :=
  ⟨fun a => Nat.le_refl a.work.toNat⟩

instance : IsTrans Tip Tip.WorkGe :=
  ⟨fun _ _ _ hab hbc => Nat.le_trans hbc hab⟩

/-- `tips.sort_unstable_by(|a, b| b.work.cmp(&a.work))`. The standard library returns a
permutation sorted by the comparator and leaves the order of equal elements unspecified. On a
slice that is already sorted it moves nothing: slices of at most 20 elements are sorted by
insertion, and longer ones are first checked for a sorted run. -/
structure TipSort where
  sort : List Tip → List Tip
  perm : ∀ tips, (sort tips).Perm tips
  sorted : ∀ tips, (sort tips).Sorted Tip.WorkGe
  sort_of_sorted : ∀ tips, tips.Sorted Tip.WorkGe → sort tips = tips

/-- Insertion sort, which `sort_unstable_by` runs on slices of at most 20 elements. -/
def TipSort.insertion : TipSort where
  sort := List.insertionSort Tip.WorkGe
  perm := List.perm_insertionSort Tip.WorkGe
  sorted := List.sorted_insertionSort Tip.WorkGe
  sort_of_sorted _ h := h.insertionSort_eq

/-- `AddHeaderResult`: whether `add_header` stored the header, with its node. -/
inductive AddHeaderResult
  | headerAdded (cachedHeader : HeaderNode)
  | headerAlreadyExists (cachedHeader : HeaderNode)
  deriving DecidableEq, Repr

/-- `AddHeaderError`. -/
inductive AddHeaderError
  | invalidHeader (blockHash : BlockHash) (err : ValidateHeaderError)
  | prevHeaderNotCached (prevHash : BlockHash)
  deriving DecidableEq, Repr

/-- `AddBlockError`. -/
inductive AddBlockError
  | invalidMerkleRoot (blockHash : BlockHash)
  | header (err : AddHeaderError)
  deriving DecidableEq, Repr

/-- What the blockchain state calls and does not define: the `bitcoin` crate, the header
validator, and the sort of the tips. -/
structure Env (Transaction : Type) extends Bitcoin Transaction where
  validateHeader : HeaderValidator
  sortTips : TipSort

/-! ### A concrete instance -/

/-- The header with the given parent hash and nonce, every other field zero. -/
def BlockHeader.sample (prevBlockhash : BlockHash) (nonce : UInt32) : BlockHeader :=
  { version := 0, prevBlockhash, merkleRoot := 0, time := 0, bits := 0, nonce }

/-- Collaborators to run the model on: a header hashes to its nonce plus one (the genesis header,
of nonce `0`, to `1`), every header has work `1` and is valid, blocks have no merkle root, and
the tips are sorted by insertion, as `sort_unstable_by` does for up to 20 tips. -/
def Env.sample : Env Unit where
  blockHash header := BitVec.ofNat 256 (header.nonce.toNat + 1)
  work _ := 1
  genesisBlock _ := ⟨BlockHeader.sample 0 0, []⟩
  computeMerkleRoot _ := none
  txid _ := 0
  deserialize _ := none
  validateHeader _ _ _ := .ok ()
  sortTips := TipSort.insertion

/-- `BlockchainState` (the metrics are left out). -/
structure BlockchainState (Transaction : Type) where
  headerCache : HeaderCache
  blockCache : AList fun _ : BlockHash => Block Transaction
  tips : List Tip
  network : Network

namespace BlockchainState

variable {Transaction : Type} (E : Env Transaction)

/-- `BlockchainState::new`: the genesis header alone in the header cache and as the only tip. -/
def new (network : Network) : BlockchainState Transaction :=
  let headerCache := HeaderCache.new E.toBitcoin network
  let tip : Tip :=
    { header := headerCache.genesis.header, height := 0, work := headerCache.genesis.work }
  { headerCache, blockCache := ∅, tips := [tip], network }

/-- `BlockchainState::genesis`. -/
def genesis (s : BlockchainState Transaction) : HeaderNode :=
  s.headerCache.genesis

/-- `BlockchainState::get_cached_header`. -/
def getCachedHeader (s : BlockchainState Transaction) (hash : BlockHash) : Option HeaderNode :=
  s.headerCache.get hash

/-- `BlockchainState::get_active_chain_tip`: `tips[0]`. -/
def getActiveChainTip (s : BlockchainState Transaction) : Tip :=
  s.tips[0]!

/-- `impl HeaderStore for BlockchainState`: the state as the validator sees it. -/
def toHeaderStore (s : BlockchainState Transaction) : HeaderStore where
  getHeader hash := (s.getCachedHeader hash).map fun cached => (cached.header, cached.height)
  getHeight := s.getActiveChainTip.height
  getInitialHash := E.blockHash s.genesis.header

/-- The update of the tips in `add_header`: the tip of the parent, if there is one, is replaced
by the new tip, and otherwise the new tip is appended. -/
def updateTips (tips : List Tip) (prevHash : BlockHash) (tip : Tip) : List Tip :=
  match tips.findIdx? fun tip => E.blockHash tip.header == prevHash with
  | some idx => tips.set idx tip
  | none => tips ++ [tip]

/-- `BlockchainState::add_header`. -/
def addHeader (s : BlockchainState Transaction) (header : BlockHeader) :
    Except AddHeaderError AddHeaderResult × BlockchainState Transaction :=
  let blockHash := E.blockHash header
  match s.getCachedHeader blockHash with
  | some cachedHeader => (.ok (.headerAlreadyExists cachedHeader), s)
  | none =>
    match E.validateHeader s.network (s.toHeaderStore E) header with
    | .error err => (.error (.invalidHeader blockHash err), s)
    | .ok () =>
      let prevHash := header.prevBlockhash
      match s.headerCache.insert E.toBitcoin header with
      | .error (.notFound prevHash) => (.error (.prevHeaderNotCached prevHash), s)
      | .error .alreadyExists =>
        (.ok (.headerAlreadyExists (s.headerCache.get blockHash).get!), s)
      | .ok headerCache =>
        let cachedHeader := (headerCache.get blockHash).get!
        let tip : Tip := { header, height := cachedHeader.height, work := cachedHeader.work }
        (.ok (.headerAdded cachedHeader),
          { s with headerCache, tips := updateTips E s.tips prevHash tip })

/-- The loop of `add_headers` (`try_for_each`): add the headers in order, collect the nodes of
those that were added, and stop at the first error. -/
def addHeadersLoop (s : BlockchainState Transaction) :
    List BlockHeader → List HeaderNode × Option AddHeaderError × BlockchainState Transaction
  | [] => ([], none, s)
  | header :: headers =>
    match addHeader E s header with
    | (.ok (.headerAdded cachedHeader), s) =>
      let r := addHeadersLoop s headers
      (cachedHeader :: r.1, r.2)
    | (.ok (.headerAlreadyExists _), s) => addHeadersLoop s headers
    | (.error err, s) => ([], some err, s)

/-- `BlockchainState::add_headers`: the loop, then the tips sorted by work. -/
def addHeaders (s : BlockchainState Transaction) (headers : List BlockHeader) :
    (List HeaderNode × Option AddHeaderError) × BlockchainState Transaction :=
  let r := addHeadersLoop E s headers
  ((r.1, r.2.1), { r.2.2 with tips := E.sortTips.sort r.2.2.tips })

/-- `BlockchainState::add_block`. -/
def addBlock (s : BlockchainState Transaction) (block : Block Transaction) :
    Except AddBlockError Nat × BlockchainState Transaction :=
  let blockHash := E.blockBlockHash block
  if (E.computeBlockMerkleRoot block).isSome && !E.checkMerkleRoot block then
    (.error (.invalidMerkleRoot blockHash), s)
  else
    match addHeader E s block.header with
    | (.error err, s) => (.error (.header err), s)
    | (.ok result, s) =>
      let s := { s with tips := E.sortTips.sort s.tips }
      let s := { s with blockCache := s.blockCache.insert blockHash block }
      (.ok (match result with
        | .headerAdded cached => cached.height
        | .headerAlreadyExists cached => cached.height), s)

/-- `BlockchainState::prune_blocks`. -/
def pruneBlocks (s : BlockchainState Transaction) (blockHashes : List BlockHash) :
    BlockchainState Transaction :=
  { s with
    blockCache := blockHashes.foldl (fun cache blockHash => cache.erase blockHash) s.blockCache }

/-- `BlockchainState::prune_blocks_below_height`: a block whose header is not cached counts as
height `0`. -/
def pruneBlocksBelowHeight (s : BlockchainState Transaction) (height : Nat) :
    BlockchainState Transaction :=
  let hashesBelowHeight := s.blockCache.keys.filter fun b =>
    height > (s.getCachedHeader b).elim 0 (·.height)
  s.pruneBlocks hashesBelowHeight

/-- `BlockchainState::clear_blocks`. -/
def clearBlocks (s : BlockchainState Transaction) : BlockchainState Transaction :=
  { s with blockCache := ∅ }

/-- `BlockchainState::is_block_hash_known`. -/
def isBlockHashKnown (s : BlockchainState Transaction) (blockHash : BlockHash) : Bool :=
  s.headerCache.contains blockHash

theorem isBlockHashKnown_eq (s : BlockchainState Transaction) (blockHash : BlockHash) :
    s.isBlockHashKnown blockHash = (s.getCachedHeader blockHash).isSome :=
  rfl

/-- `BlockchainState::get_block`. -/
def getBlock (s : BlockchainState Transaction) (blockHash : BlockHash) :
    Option (Block Transaction) :=
  s.blockCache.lookup blockHash

/-- The public operations that change a `BlockchainState`. -/
inductive Op (Transaction : Type)
  | addHeaders (headers : List BlockHeader)
  | addBlock (block : Block Transaction)
  | pruneBlocks (blockHashes : List BlockHash)
  | pruneBlocksBelowHeight (height : Nat)
  | clearBlocks

/-- One public operation, its result dropped. -/
def step (s : BlockchainState Transaction) : Op Transaction → BlockchainState Transaction
  | .addHeaders headers => (addHeaders E s headers).2
  | .addBlock block => (addBlock E s block).2
  | .pruneBlocks blockHashes => s.pruneBlocks blockHashes
  | .pruneBlocksBelowHeight height => s.pruneBlocksBelowHeight height
  | .clearBlocks => s.clearBlocks

/-- The state reached from `new` by a sequence of public operations. -/
def run (network : Network) (ops : List (Op Transaction)) : BlockchainState Transaction :=
  ops.foldl (step E) (new E network)

/-! ### What `add_header` can do -/

variable {E}

theorem addHeader_of_getCachedHeader {s : BlockchainState Transaction} {header : BlockHeader}
    {n : HeaderNode} (hc : s.getCachedHeader (E.blockHash header) = some n) :
    addHeader E s header = (.ok (.headerAlreadyExists n), s) := by
  simp [addHeader, hc]

/-- `add_header` returns a cached header's node, or fails and changes nothing, or inserts a
header that was not cached below its cached parent and updates the tips. -/
theorem addHeader_cases (s : BlockchainState Transaction) (header : BlockHeader) :
    (∃ n, s.getCachedHeader (E.blockHash header) = some n ∧
        addHeader E s header = (.ok (.headerAlreadyExists n), s)) ∨
    (∃ err, addHeader E s header = (.error err, s)) ∨
    (∃ parent headerCache, s.getCachedHeader (E.blockHash header) = none ∧
        s.getCachedHeader header.prevBlockhash = some parent ∧
        s.headerCache.insert E.toBitcoin header = .ok headerCache ∧
        addHeader E s header =
          (.ok (.headerAdded (HeaderCache.childNode E.toBitcoin parent header)),
            { s with
              headerCache
              tips := updateTips E s.tips header.prevBlockhash
                ⟨header, parent.height + 1, parent.work + E.work header⟩ })) := by
  cases hc : s.getCachedHeader (E.blockHash header) with
  | some n => exact .inl ⟨n, rfl, addHeader_of_getCachedHeader hc⟩
  | none =>
    cases hv : E.validateHeader s.network (s.toHeaderStore E) header with
    | error err => exact .inr (.inl ⟨.invalidHeader (E.blockHash header) err, by simp [addHeader, hc, hv]⟩)
    | ok u =>
      cases hi : s.headerCache.insert E.toBitcoin header with
      | error e =>
        rcases (HeaderCache.insert_eq_error_iff _).1 hi with ⟨hcon, -⟩ | ⟨-, -, rfl⟩
        · simp [getCachedHeader] at hc
          simp [hc] at hcon
        · exact .inr (.inl ⟨.prevHeaderNotCached header.prevBlockhash, by
          simp [addHeader, hc, hv, hi]⟩)
      | ok c' =>
        obtain ⟨-, parent, hp, -⟩ := (HeaderCache.insert_eq_ok_iff _).1 hi
        refine .inr (.inr ⟨parent, c', rfl, hp, rfl, ?_⟩)
        simp [addHeader, hc, hv, hi, HeaderCache.get_insert_self hp hi, HeaderCache.childNode]

end BlockchainState

end BitcoinAdaptor
