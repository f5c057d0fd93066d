import BitcoinAdaptor.Bitcoin
import BitcoinAdaptor.BlockchainState.HeaderCache
import BitcoinAdaptor.BlockchainState.HeaderTree
import BitcoinAdaptor.BlockchainState.Basic
import BitcoinAdaptor.BlockchainState.Tips
import BitcoinAdaptor.BlockchainState.Invariant
import BitcoinAdaptor.BlockchainState.ForkChoice
import BitcoinAdaptor.BlockchainState.BlockCache
import BitcoinAdaptor.BlockchainState.AddHeaders
import BitcoinAdaptor.BlockchainState.Locator
import BitcoinAdaptor.BlockchainState.Growth
import BitcoinAdaptor.BlockchainState.Provenance
import BitcoinAdaptor.TransactionManager.LinkedHashMap
import BitcoinAdaptor.TransactionManager.Basic
import BitcoinAdaptor.TransactionManager.Invariant
import BitcoinAdaptor.TransactionManager.Advertise
import BitcoinAdaptor.TransactionManager.Resend
import BitcoinAdaptor.TransactionManager.GetData
import BitcoinAdaptor.TransactionManager.Runs
import BitcoinAdaptor.Cli
