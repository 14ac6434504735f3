-- The client of the exchange (`binance/binance_broker.h`, `binance_broker.cc`):
-- one request with retries, and the functions that build requests and read answers.
import Wedge.Binance.Http
import Wedge.Strategy.Broker

namespace wedge

/-! ## One request -/

/-- One try: connect, send, and take only a response with the code 200. -/
def requset_once (request : Request) : NetProg (Option Json) := do
  match ← BinanceHttpClient.connect_sync with
  | .raised => .fail .exception
  | .failed => return none
  | .connected =>
    match ← BinanceHttpClient.send_sync request with
    | none => return none
    | some response => if response.result ≠ 200 then return none else return some response.body

/-- The retries. Without a result after the last try the process aborts. -/
def request_until (request : Request) : ℕ → NetProg Json
  | 0 => .fail .abort
  | retry_count + 1 => do
    match ← requset_once request with
    | some json_data => return json_data
    | none => request_until request retry_count

/-! ## Reading a number -/

/-- The sign in front of a number, and what is behind it. -/
def read_sign : List Char → Bool × List Char
  | '-' :: text => (true, text)
  | '+' :: text => (false, text)
  | text => (false, text)

/-- Digits, the digits behind a point, and what is behind them. -/
def read_digits (is_digit : Char → Bool) (text : List Char) :
    List Char × List Char × List Char :=
  let (whole, text) := text.span is_digit
  match text with
  | '.' :: text =>
    let (fraction, text) := text.span is_digit
    (whole, fraction, text)
  | text => (whole, [], text)

/-- The exponent behind its letter. -/
def read_exponent (letter : Char) : List Char → ℤ
  | [] => 0
  | c :: text =>
    if c.toLower = letter then
      let (negative, text) := read_sign text
      let exponent : ℤ := Nat.ofDigitChars 10 (text.takeWhile Char.isDigit) 0
      if negative then -exponent else exponent
    else 0

def read_decimal (text : List Char) : Option ℚ :=
  let (whole, fraction, text) := read_digits Char.isDigit text
  if whole ++ fraction = [] then none
  else some (Nat.ofDigitChars 10 (whole ++ fraction) 0 *
    (10 : ℚ) ^ (read_exponent 'e' text - fraction.length))

def hex_digit (c : Char) : Option ℕ :=
  if c.isDigit then some (c.toNat - '0'.toNat)
  else if 'a' ≤ c.toLower ∧ c.toLower ≤ 'f' then some (c.toLower.toNat - 'a'.toNat + 10)
  else none

def read_hexadecimal (text : List Char) : Option ℚ :=
  let (whole, fraction, text) := read_digits (fun c => (hex_digit c).isSome) text
  if whole ++ fraction = [] then none
  else some ((whole ++ fraction).foldl (fun n c => 16 * n + (hex_digit c).getD 0) 0 *
    (2 : ℚ) ^ (read_exponent 'p' text - 4 * fraction.length))

/-- A number without its sign. Behind `0x` it is hexadecimal, if there are digits. -/
def read_unsigned (text : List Char) : Option ℚ :=
  if text.take 2 = ['0', 'x'] ∨ text.take 2 = ['0', 'X'] then
    (read_hexadecimal (text.drop 2)).or (read_decimal text)
  else read_decimal text

/-- White space for the C library. -/
def isspace (c : Char) : Bool := c.isWhitespace || c = '\x0b' || c = '\x0c'

/-- The number at the start of a text. -/
def read_number (text : String) : Option ℚ :=
  let (negative, text) := read_sign (text.toList.dropWhile isspace)
  (read_unsigned text).map fun value => if negative then -value else value

/-- The nearest `double` is finite, and below the normal ones it is the value itself. -/
def InDoubleRange (value : ℚ) : Prop :=
  |value| < 2 ^ 1024 - 2 ^ 970 ∧ (1 / 2 ^ 1022 ≤ |value| ∨ (value * 2 ^ 1074).den = 1)

instance (value : ℚ) : Decidable (InDoubleRange value) := inferInstanceAs (Decidable (_ ∧ _))

/-! ## Reading an answer

The functions that throw return `none` for the exception. -/

/-- Goes on with what was read. Nothing in the process catches the exception. -/
def throws {α : Type} : Option α → NetProg α
  | some a => .ret a
  | none => .fail .exception

/-- `std::stod`, with the value that the text has. It throws `invalid_argument` without a number
and `out_of_range` when `strtod` sets `ERANGE`. The texts `inf` and `nan` are not modelled. -/
def stod (text : String) : Option ℚ :=
  (read_number text).filter fun value => InDoubleRange value

namespace Json

/-- `operator[]` with a key. A missing key gives `null`, and a value that is no object throws. -/
def field (key : String) : Json → Option Json
  | .obj fields => some ((fields.lookup key).getD .null)
  | .null => some .null
  | _ => none

/-- `at` with a key: a missing key throws. -/
def at_key (key : String) : Json → Option Json
  | .obj fields => fields.lookup key
  | _ => none

/-- `operator[]` with a position. What is not there reads as `null`. -/
def item (i : ℕ) : Json → Json
  | .arr items => items.getD i .null
  | _ => .null

/-- The values that a range-based `for` visits. -/
def items : Json → List Json
  | .arr items => items
  | .obj fields => fields.map Prod.snd
  | .null => []
  | value => [value]

def get_uint64 : Json → Option ℕ
  | .num value => some (value % 2 ^ 64).toNat
  | _ => none

def get_int64 : Json → Option ℤ
  | .num value => some (value.bmod (2 ^ 64))
  | _ => none

def get_int : Json → Option ℤ
  | .num value => some (value.bmod (2 ^ 32))
  | _ => none

def get_string : Json → Option String
  | .str value => some value
  | _ => none

/-- `==` with a text. -/
def equals (text : String) : Json → Bool
  | .str value => value == text
  | _ => false

end Json

def get_double (value : Json) : Option ℚ := do stod (← value.get_string)

/-! ## The broker -/

structure BinanceBroker where
  credentials_ : Option Credentials := none
  retry_count_ : ℕ := 3
  deriving DecidableEq, Repr

/-- The free and the locked amount of each asset. -/
structure BinanceAccount where
  balances_ : List (String × ℚ × ℚ) := []
  deriving DecidableEq, Repr

def BinanceAccount.free (a : BinanceAccount) (symbol : String) : Option ℚ :=
  (a.balances_.lookup symbol).map Prod.fst

/-- `emplace` of a map: the first entry of an asset stays. -/
def BinanceAccount.emplace (a : BinanceAccount) (asset : String) (amounts : ℚ × ℚ) :
    BinanceAccount :=
  if (a.balances_.lookup asset).isSome then a
  else { a with balances_ := a.balances_ ++ [(asset, amounts)] }

namespace BinanceBroker

/-- Sends a request with `*credentials_`. Without credentials this is undefined behaviour. -/
def request (b : BinanceBroker) (r : Request) : NetProg Json :=
  match b.credentials_ with
  | none => .fail .undefined
  | some credentials => request_until (r.with_credentials credentials) b.retry_count_

def create_order (b : BinanceBroker) (r : Request) : NetProg ℕ := do
  let json_data ← b.request r
  throws (do (← json_data.field "orderId").get_uint64)

/-- The request of the two limit orders. -/
def limit_order (symbol : String) (side : trade.Side) (quantity price : ℚ) : Request :=
  trade.NewOrder.time_in_force .kGtc <| trade.NewOrder.new_order_resp_type .kAck <|
    trade.NewOrder.price price <| trade.NewOrder.quantity quantity <|
      trade.NewOrder symbol side "LIMIT"

/-- The request of the two market orders. -/
def market_order (symbol : String) (side : trade.Side) (quantity : ℚ) : Request :=
  trade.NewOrder.time_in_force .kGtc <| trade.NewOrder.new_order_resp_type .kAck <|
    trade.NewOrder.quantity quantity <| trade.NewOrder symbol side "MARKET"

def create_limit_buy_order (b : BinanceBroker) (symbol : String) (quantity price : ℚ) :
    NetProg ℕ := b.create_order (limit_order symbol .kBuy quantity price)

def create_limit_sell_order (b : BinanceBroker) (symbol : String) (quantity price : ℚ) :
    NetProg ℕ := b.create_order (limit_order symbol .kSell quantity price)

def create_market_buy_order (b : BinanceBroker) (symbol : String) (quantity : ℚ) : NetProg ℕ :=
  b.create_order (market_order symbol .kBuy quantity)

def create_market_sell_order (b : BinanceBroker) (symbol : String) (quantity : ℚ) : NetProg ℕ :=
  b.create_order (market_order symbol .kSell quantity)

def get_order (b : BinanceBroker) (symbol : String) (order_id : ℕ) : NetProg Bool := do
  let json_data ← b.request (trade.order_id order_id (trade.GetOrder symbol))
  throws (do return (← json_data.field "status").equals "FILLED")

/-- The status in the answer is only written to the log. -/
def cancel_order (b : BinanceBroker) (symbol : String) (order_id : ℕ) : NetProg Unit := do
  let json_data ← b.request (trade.order_id order_id (trade.CancelOrder symbol))
  throws (do let _ ← json_data.field "status")

/-- One entry of the balances, added to the account. -/
def add_balance (account : BinanceAccount) (item : Json) : Option BinanceAccount := do
  let asset ← (← item.at_key "asset").get_string
  let free ← (← item.at_key "free").get_string
  let locked ← (← item.at_key "locked").get_string
  return account.emplace asset (← stod free, ← stod locked)

def get_account (b : BinanceBroker) : NetProg BinanceAccount := do
  let json_data ← b.request trade.Account
  throws (do (← json_data.field "balances").items.foldlM add_balance {})

/-- One row of the answer to the request for candles. -/
def get_kline (kline : Json) : Option Candle := do
  return {
    open_time := ← (kline.item 0).get_int64
    close_time := ← (kline.item 6).get_int64
    open_price := ← get_double (kline.item 1)
    high_price := ← get_double (kline.item 2)
    low_price := ← get_double (kline.item 3)
    close_price := ← get_double (kline.item 4)
    volume := ← get_double (kline.item 5)
    quote_volume := ← get_double (kline.item 7)
    traders := ← (kline.item 8).get_int
    taker_buy_base := ← get_double (kline.item 9)
    taker_buy_quote := ← get_double (kline.item 10) }

/-- This request carries no credentials. -/
def get_klines (b : BinanceBroker) (symbol interval : String) (start_time end_time : ℤ) :
    NetProg (List Candle) :=
  match market.Klines symbol (market.from_str interval) with
  | none => .fail .undefined
  | some r => do
    let json_data ← request_until
      (market.limit 1000 <| market.end_time end_time <| market.start_time start_time r)
      b.retry_count_
    throws (json_data.items.mapM get_kline)

/-- The function that places the order of a call of `IBroker`. -/
def create (b : BinanceBroker) (symbol : String) : OrderCall → NetProg ℕ
  | .limit_buy_order quantity price => b.create_limit_buy_order symbol quantity price
  | .limit_sell_order quantity price => b.create_limit_sell_order symbol quantity price
  | .market_buy_order quantity => b.create_market_buy_order symbol quantity
  | .market_sell_order quantity => b.create_market_sell_order symbol quantity

end BinanceBroker

/-! ## The client has no assertions -/

section no_assertion

variable {ν α β : Type} (net : Net ν)

/-- Whatever the network does, the program fails no assertion. -/
def NoAssertion (p : NetProg α) : Prop :=
  ∀ w, (programs.run (serve net) p w).1 ≠ .error .assertion

variable {net}

theorem NoAssertion.ret (a : α) : NoAssertion net (.ret a) := by
  intro w h
  cases h

theorem NoAssertion.fail {f : Fault} (hf : f ≠ .assertion) :
    NoAssertion net (.fail f : NetProg α) := by
  intro w h
  cases h
  exact hf rfl

theorem NoAssertion.ask (c : NetCall) : NoAssertion net (programs.Prog.ask c) := by
  intro w h
  cases h

theorem NoAssertion.bind {p : NetProg α} {f : α → NetProg β} (hp : NoAssertion net p)
    (hf : ∀ a, NoAssertion net (f a)) : NoAssertion net (p >>= f) := by
  intro w
  rw [programs.run_bind]
  rcases hrun : programs.run (serve net) p w with ⟨e | a, w'⟩
  · have h1 := hp w
    rw [hrun] at h1
    simpa using h1
  · exact hf a w'

theorem NoAssertion.throws (r : Option α) : NoAssertion net (throws r) := by
  cases r with
  | none => exact .fail (by decide)
  | some a => exact .ret a

theorem NoAssertion.requset_once (r : Request) : NoAssertion net (requset_once r) := by
  apply NoAssertion.bind (.ask NetCall.connect_sync)
  intro result
  cases result with
  | raised => exact .fail (by decide)
  | failed => exact .ret none
  | connected =>
    apply NoAssertion.bind (.ask (NetCall.send_sync r))
    intro response
    cases response with
    | none => exact .ret none
    | some response =>
      dsimp only
      split
      · exact .ret none
      · exact .ret _

theorem NoAssertion.request_until (r : Request) (n : ℕ) : NoAssertion net (request_until r n) := by
  induction n with
  | zero => exact .fail (by decide)
  | succ n ih =>
    apply NoAssertion.bind (.requset_once r)
    intro result
    cases result with
    | none => exact ih
    | some body => exact .ret body

theorem NoAssertion.request (b : BinanceBroker) (r : Request) : NoAssertion net (b.request r) := by
  unfold BinanceBroker.request
  split
  · exact .fail (by decide)
  · exact .request_until _ _

theorem NoAssertion.create (b : BinanceBroker) (symbol : String) (order : OrderCall) :
    NoAssertion net (b.create symbol order) := by
  cases order <;> exact .bind (.request b _) fun _ => .throws _

theorem NoAssertion.get_order (b : BinanceBroker) (symbol : String) (order_id : ℕ) :
    NoAssertion net (b.get_order symbol order_id) := .bind (.request b _) fun _ => .throws _

theorem NoAssertion.cancel_order (b : BinanceBroker) (symbol : String) (order_id : ℕ) :
    NoAssertion net (b.cancel_order symbol order_id) := .bind (.request b _) fun _ => .throws _

theorem NoAssertion.get_account (b : BinanceBroker) : NoAssertion net b.get_account :=
  .bind (.request b _) fun _ => .throws _

theorem NoAssertion.get_klines (b : BinanceBroker) (symbol interval : String)
    (start_time end_time : ℤ) : NoAssertion net (b.get_klines symbol interval start_time end_time) := by
  unfold BinanceBroker.get_klines
  split
  · exact .fail (by decide)
  · exact .bind (.request_until _ _) fun _ => .throws _

end no_assertion

end wedge
