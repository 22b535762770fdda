import MiniRedis.Library.Machine
import MiniRedis.Frame.Encoding
import MiniRedis.Connection
import MiniRedis.Command
import MiniRedis.Handler
import MiniRedis.Library.Interleaving
import MiniRedis.Library.Ledger
import MiniRedis.Library.Linearization
import MiniRedis.Linearization
import MiniRedis.Main
import MiniRedis.Session
import MiniRedis.Exchange
import MiniRedis.Delivery
import MiniRedis.Dialogue
import MiniRedis.KeyValue
import MiniRedis.Frame.Allocation
import MiniRedis.Frame.Relocation
import MiniRedis.Accounting
import MiniRedis.CommandGrammar
import MiniRedis.Supply
import MiniRedis.Charges
import MiniRedis.WindingDown
import MiniRedis.Termination
import MiniRedis.Balance
import MiniRedis.Noninterference
import MiniRedis.Library.BufferedWriter
import MiniRedis.Writer
import MiniRedis.Backlog
import MiniRedis.Channel
import MiniRedis.Socket
import MiniRedis.Agreement
import MiniRedis.Consistency
import MiniRedis.Pipeline
import MiniRedis.Memory
import MiniRedis.Teardown
import MiniRedis.Progress
import MiniRedis.Buffered
