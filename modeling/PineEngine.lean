import PineEngine.Candles.Schedule
import PineEngine.Exchange.Chart
import PineEngine.Exchange.Machine
import PineEngine.Exchange.Script
import PineEngine.Journal
import PineEngine.Listing
import PineEngine.Main
import PineEngine.Notice
import PineEngine.Proofs.BlockTokens
import PineEngine.Proofs.Indentation
import PineEngine.Proofs.Panes
import PineEngine.Proofs.History
import PineEngine.Workbench
import PineEngine.Proofs.OrderRecords
import PineEngine.Proofs.Calls
import PineEngine.Proofs.Environments
import PineEngine.Proofs.Delivery
import PineEngine.Proofs.Steadiness
import PineEngine.Proofs.Rereading
import PineEngine.Proofs.Changing
import PineEngine.Proofs.Recency
import PineEngine.Proofs.Targets
import PineEngine.Proofs.Summaries
import PineEngine.Proofs.Merging
import PineEngine.Proofs.Stalling
import PineEngine.Proofs.Conditions
import PineEngine.Proofs.Sources
import PineEngine.Proofs.Surveying
import PineEngine.Proofs.Looping
import PineEngine.Proofs.Covering
import PineEngine.Proofs.Boards
import PineEngine.Proofs.Pivots
