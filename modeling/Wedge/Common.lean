-- The shared data of `wedge/common`: the enumerations, the candle, and the
-- account, and the ways in which a process can stop. A `double` is an exact
-- rational here.
import Mathlib

namespace wedge

inductive OrderSide
  | kBuy
  | kSell
  deriving DecidableEq, Repr

inductive OrderStatus
  | kNew
  | kPendingNew
  | kPartiallyFilled
  | kFilled
  | kCanceled
  deriving DecidableEq, Repr

structure Candle where
  open_time : ℤ
  close_time : ℤ
  open_price : ℚ
  close_price : ℚ
  high_price : ℚ
  low_price : ℚ
  volume : ℚ
  quote_volume : ℚ
  traders : ℤ
  taker_buy_base : ℚ
  taker_buy_quote : ℚ
  deriving DecidableEq, Repr

/-- A candle that trades at one price. -/
def flat_candle (price : ℚ) : Candle :=
  { open_time := 0, close_time := 1, open_price := price, close_price := price,
    high_price := price, low_price := price, volume := 1, quote_volume := price, traders := 1,
    taker_buy_base := 0, taker_buy_quote := 0 }

structure Account where
  balance : ℚ
  position : ℚ
  deriving DecidableEq, Repr

def Account.update_balance (a : Account) (value : ℚ) : Account :=
  { a with balance := a.balance + value }

def Account.update_position (a : Account) (value : ℚ) : Account :=
  { a with position := a.position + value }

/-- How a process stops before its end: `std::abort`, an exception that nothing catches, a
failed assertion, or undefined behaviour. -/
inductive Fault
  | abort
  | exception
  | assertion
  | undefined
  deriving DecidableEq, Repr

end wedge
