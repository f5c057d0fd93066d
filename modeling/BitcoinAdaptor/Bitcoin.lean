import Mathlib.Data.List.Basic

/-!
# The data the adapter reads from the `bitcoin` crate

The two cores of the adapter, the header tree of `blockchainstate.rs` and the transaction
cache of `transaction_manager.rs`, operate on block headers, blocks, hashes and transactions
of the `bitcoin` crate, and call a few of its functions: the hash and the work of a header,
the genesis block of a network, the merkle root of a block's transactions, the id of a
transaction and its wire decoding. Those functions are not part of this repository; the model
takes them as the fields of one structure, `Bitcoin`, so that every result holds for every
choice of them. The header validator of `btc_validation` is treated the same way: it sees the
store only through the three accessors of the `HeaderStore` trait.

Hashes are 256-bit values. The work of a chain, `Work = bitcoin::util::uint::Uint256`, is a
`BitVec 256`: its `+` wraps modulo `2 ^ 256` as the crate's `Add` does, and its order is the
numeric one, as the crate's `Ord`. `BlockHeight` is declared in `crate::common`, which is not
among the sources; following the spec ("`height`: non-negative integer; genesis = 0; child =
parent + 1") heights are natural numbers.

## Main definitions

* `BlockHeader`, `Block`, `Network`.
* `Bitcoin`: the functions of the `bitcoin` crate the adapter calls.
* `HeaderStore`, `ValidateHeaderError`, `HeaderValidator`: the interface of `validate_header`.

## References

* `src/src/blockchainstate.rs`, lines 1–11 and 409–422; `src/src/transaction_manager.rs`,
  lines 1–16.
-/

namespace BitcoinAdaptor

/-- A block hash, the double SHA-256 of a serialized header. -/
abbrev BlockHash := BitVec 256

/-- A transaction id, the double SHA-256 of a serialized transaction. -/
abbrev Txid := BitVec 256

/-- The merkle root of a block's transactions. -/
abbrev TxMerkleNode := BitVec 256

/-- `Work = bitcoin::util::uint::Uint256` (`blockchainstate.rs`, line 11). -/
abbrev Work := BitVec 256

/-- The network selector of the configuration; it determines the genesis header. -/
inductive Network
  | bitcoin
  | testnet
  | signet
  | regtest
  deriving DecidableEq, Repr

/-- A Bitcoin block header, with the fields of the crate's `BlockHeader`. -/
structure BlockHeader where
  version : Int
  prevBlockhash : BlockHash
  merkleRoot : TxMerkleNode
  time : UInt32
  bits : UInt32
  nonce : UInt32
  deriving DecidableEq, Inhabited, Repr

/-- A block: a header and the transactions it commits to. -/
structure Block (Transaction : Type) where
  header : BlockHeader
  txdata : List Transaction

/-- The functions of the `bitcoin` crate that the adapter calls. -/
structure Bitcoin (Transaction : Type) where
  /-- `BlockHeader::block_hash`. -/
  blockHash : BlockHeader → BlockHash
  /-- `BlockHeader::work`, the expected number of hashes behind a header of its target. -/
  work : BlockHeader → Work
  /-- `blockdata::constants::genesis_block`. -/
  genesisBlock : Network → Block Transaction
  /-- The merkle root of a list of transactions, `none` for an empty list
  (`Block::compute_merkle_root`). -/
  computeMerkleRoot : List Transaction → Option TxMerkleNode
  /-- `Transaction::txid`. -/
  txid : Transaction → Txid
  /-- `consensus::deserialize::<Transaction>`; `none` when the bytes do not decode. -/
  deserialize : List UInt8 → Option Transaction

namespace Bitcoin

variable {Transaction : Type} (B : Bitcoin Transaction)

/-- `Block::block_hash`: the hash of the block's header. -/
def blockBlockHash (block : Block Transaction) : BlockHash :=
  B.blockHash block.header

/-- `Block::compute_merkle_root`. -/
def computeBlockMerkleRoot (block : Block Transaction) : Option TxMerkleNode :=
  B.computeMerkleRoot block.txdata

/-- `Block::check_merkle_root`: the computed root exists and is the header's. -/
def checkMerkleRoot (block : Block Transaction) : Bool :=
  match B.computeBlockMerkleRoot block with
  | some merkleRoot => block.header.merkleRoot == merkleRoot
  | none => false

end Bitcoin

/-- The `HeaderStore` trait of `btc_validation`: what the validator may read of a store. -/
structure HeaderStore where
  getHeader : BlockHash → Option (BlockHeader × Nat)
  getHeight : Nat
  getInitialHash : BlockHash

/-- The reasons `validate_header` gives for rejecting a header; only `PrevHeaderNotFound`
is named by the sources, the others are kept apart by a code. -/
inductive ValidateHeaderError
  | prevHeaderNotFound
  | other (code : Nat)
  deriving DecidableEq, Repr

/-- `btc_validation::validate_header`: given the network and the store it checks a header
against, accept it or reject it. -/
abbrev HeaderValidator := Network → HeaderStore → BlockHeader → Except ValidateHeaderError Unit

end BitcoinAdaptor
