import Wedge.Backtest2.Oco
import Wedge.Backtest2.Cancels
import Wedge.Backtest2.Coverage
import Wedge.Backtest2.Prices
import Wedge.Backtest2.Superposition
import Wedge.Backtest2.Turns
import Wedge.Backtest2.Stranded
import Wedge.Strategy.Rsi
import Wedge.Strategy2.Intact
import Wedge.Strategy2.Warmup
import Wedge.Indicator.Momentum
import Wedge.Compare.PlaceOnFill
import Wedge.Compare.Sweeps
import Wedge.Backtest.Profit
import Wedge.Backtest.Solvency
import Wedge.Backtest.Affordable
import Wedge.Backtest.Merge
import Wedge.Binance.Url
import Wedge.Trade.Lossy
import Wedge.Trade.Ladder
import Wedge.Strategy2.Currency
import Wedge.Strategy2.Money
import Wedge.Backtest2.Resolution
import Wedge.Dataset.SqlIterator
import Wedge.Backtest.Period
import Wedge.Backtest.History
import Wedge.Compare.Rehearsal
import Wedge.Lib.Decimals
import Wedge.Binance.Numbers
import Wedge.Trade.Conversation
import Wedge.Binance.Answers
import Wedge.Trade.Progress
import Wedge.Binance.Intervals
import Wedge.Trade.Feed
import Wedge.Trade.Fills
import Wedge.Dataset.FinalRows
import Wedge.Dataset.Holes
import Wedge.Dataset.Endless
import Wedge.Dataset.Tasks
