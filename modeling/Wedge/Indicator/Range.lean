-- The range indicator (`indicator/volatility/range.h`): the highest price less
-- the lowest price of the last candles, in two ring buffers.
import Wedge.Common

namespace wedge

/-- `count_` is an `int` and counts the candles. A count past the largest `int` is undefined
behaviour there, and here it goes on. -/
structure Range where
  count_ : ℕ := 0
  high_ : List ℚ
  low_ : List ℚ
  deriving DecidableEq, Repr

namespace Range

/-- The constructor: every entry is 0. -/
def make (period : ℕ) : Range :=
  { high_ := List.replicate period 0, low_ := List.replicate period 0 }

def update (candle : Candle) (r : Range) : Range :=
  let index := r.count_ % r.high_.length
  { count_ := r.count_ + 1
    high_ := r.high_.set index candle.high_price
    low_ := r.low_.set index candle.low_price }

/-- `apply`: each step is `std::min` with the comparison, which keeps the result on a tie. -/
def apply (vector : List ℚ) (perd : ℚ → ℚ → Bool) : ℚ :=
  vector.tail.foldl (fun result x => if perd x result then x else result) (vector.headD 0)

def value (r : Range) : ℚ :=
  apply r.high_ (fun a b => a > b) - apply r.low_ (fun a b => a < b)

def period (r : Range) : ℕ := r.high_.length

end Range

end wedge
