import HistoryCache.Config.File
import HistoryCache.Schedule
import HistoryCache.Proofs.Accounting
import HistoryCache.Proofs.ActiveRange
import HistoryCache.Proofs.Anew
import HistoryCache.Proofs.BulkLoad
import HistoryCache.Proofs.Cold
import HistoryCache.Proofs.Counting
import HistoryCache.Proofs.Coverage
import HistoryCache.Proofs.Direct
import HistoryCache.Proofs.Duplicates
import HistoryCache.Proofs.EvictionRound
import HistoryCache.Proofs.FlatList
import HistoryCache.Proofs.Gauges
import HistoryCache.Proofs.Interning
import HistoryCache.Proofs.LastResort
import HistoryCache.Proofs.LastWritten
import HistoryCache.Proofs.Orders
import HistoryCache.Proofs.Positions
import HistoryCache.Proofs.Protection
import HistoryCache.Proofs.Representation
import HistoryCache.Proofs.SizeGrammar
import HistoryCache.Proofs.Transparency
import HistoryCache.Proofs.TrimLedger
