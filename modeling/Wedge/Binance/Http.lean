-- The requests to the exchange (`binance/http.h`, `binance/trade/*.h`,
-- `binance/market/klines.h`), its answers, and one use of the http client.
import Wedge.Common
import Wedge.Lib.Programs

namespace wedge

/-! ## Requests -/

inductive Verb
  | get
  | post
  | delete_
  | put
  deriving DecidableEq, Repr

structure Credentials where
  api_key : String
  secret_key : String
  deriving DecidableEq, Repr

structure Request where
  method : Verb
  path : String
  params : List (String × String) := []
  credentials : Option Credentials := none
  sign : Bool := false
  deriving DecidableEq, Repr

/-- Rounds to the nearest integer, and half way to the even one, as `sprintf` does. -/
def round_even (value : ℚ) : ℤ :=
  let low := ⌊value⌋
  let rest := value - low
  if rest < 1 / 2 then low
  else if 1 / 2 < rest then low + 1
  else if low % 2 = 0 then low
  else low + 1

/-- `std::round`: half way goes away from zero. -/
def round_away (value : ℚ) : ℤ :=
  if 0 ≤ value then ⌊value + 1 / 2⌋ else -⌊-value + 1 / 2⌋

/-- `sprintf` with the format `%.8lf`. -/
def sprintf_8lf (value : ℚ) : String :=
  let units := (round_even (|value| * 10 ^ 8)).toNat
  let digits := Nat.repr (units % 10 ^ 8)
  (if value < 0 then "-" else "") ++ Nat.repr (units / 10 ^ 8) ++ "." ++
    String.ofList (List.replicate (8 - digits.length) '0') ++ digits

namespace Request

/-- `RequestBuilder::credentials`. -/
def with_credentials (credentials : Credentials) (r : Request) : Request :=
  { r with credentials := some credentials }

def add_param (key value : String) (r : Request) : Request :=
  { r with params := r.params ++ [(key, value)] }

def add_param_double (key : String) (value : ℚ) (r : Request) : Request :=
  r.add_param key (sprintf_8lf value)

/-- The overloads of `add_param` for unsigned integers. -/
def add_param_uint (key : String) (value : ℕ) (r : Request) : Request :=
  r.add_param key (Nat.repr value)

def add_param_int64 (key : String) (value : ℤ) (r : Request) : Request :=
  r.add_param key (toString value)

/-- The value of a parameter. -/
def param (key : String) (r : Request) : Option String := r.params.lookup key

end Request

/-! ## The requests of `binance/trade` and `binance/market` -/

namespace trade

inductive Side
  | kBuy
  | kSell
  deriving DecidableEq, Repr

inductive NewOrderResponseType
  | kAck
  | kResult
  | kFull
  deriving DecidableEq, Repr

inductive TimeInForce
  | kGtc
  | kIoc
  | kFok
  deriving DecidableEq, Repr

def Side.str : Side → String
  | .kBuy => "BUY"
  | .kSell => "SELL"

def NewOrderResponseType.str : NewOrderResponseType → String
  | .kAck => "ACK"
  | .kResult => "RESULT"
  | .kFull => "FULL"

def TimeInForce.str : TimeInForce → String
  | .kGtc => "GTC"
  | .kIoc => "IOC"
  | .kFok => "FOK"

def NewOrder (symbol : String) (side : Side) (type : String) : Request :=
  let r : Request := { method := .post, path := "/api/v3/order", sign := true }
  ((r.add_param "symbol" symbol).add_param "side" side.str).add_param "type" type

namespace NewOrder

def time_in_force (value : TimeInForce) (r : Request) : Request :=
  r.add_param "timeInForce" value.str

def quantity (value : ℚ) (r : Request) : Request :=
  r.add_param_double "quantity" (round_away (value * 10 ^ 5) / 10 ^ 5)

def price (value : ℚ) (r : Request) : Request :=
  r.add_param_double "price" (round_away (value * 10 ^ 2) / 10 ^ 2)

def new_order_resp_type (value : NewOrderResponseType) (r : Request) : Request :=
  r.add_param "newOrderRespType" value.str

end NewOrder

def GetOrder (symbol : String) : Request :=
  let r : Request := { method := .get, path := "/api/v3/order", sign := true }
  r.add_param "symbol" symbol

def CancelOrder (symbol : String) : Request :=
  let r : Request := { method := .delete_, path := "/api/v3/order", sign := true }
  r.add_param "symbol" symbol

/-- `GetOrder::order_id` and `CancelOrder::order_id`. -/
def order_id (value : ℕ) (r : Request) : Request := r.add_param_uint "orderId" value

def Account : Request := { method := .get, path := "/api/v3/account", sign := true }

end trade

namespace market

def interval_str : List String :=
  ["1m", "3m", "5m", "15m", "30m", "1h", "2h", "4h", "6h", "8h", "12h", "1d", "3d", "1w", "1M"]

/-- The position of the interval in the table, or the length of the table. -/
def from_str (str : String) : ℕ := interval_str.idxOf str

/-- The request, or `none` when the interval is outside of the table. -/
def Klines (symbol : String) (interval : ℕ) : Option Request :=
  interval_str[interval]?.map fun name =>
    let r : Request := { method := .get, path := "/api/v3/klines" }
    (r.add_param "symbol" symbol).add_param "interval" name

def start_time (value : ℤ) (r : Request) : Request := r.add_param_int64 "startTime" value

def end_time (value : ℤ) (r : Request) : Request := r.add_param_int64 "endTime" value

def limit (value : ℕ) (r : Request) : Request := r.add_param_uint "limit" value

end market

/-! ## Answers -/

inductive Json
  | null
  | num (value : ℤ)
  | str (value : String)
  | arr (items : List Json)
  | obj (fields : List (String × Json))
  deriving Inhabited

/-- The result code and the body of a response. -/
structure Response where
  result : ℕ
  body : Json

inductive ConnectResult
  | connected
  | failed
  /-- The lookup of the host threw an exception. -/
  | raised
  deriving DecidableEq, Repr

/-- The uses of the network: `connect_sync` and `send_sync` of the http client. -/
inductive NetCall
  | connect_sync
  | send_sync (request : Request)

/-- A send has no response when the write or the read gave an error code. -/
def NetCall.Answer : NetCall → Type
  | .connect_sync => ConnectResult
  | .send_sync _ => Option Response

/-- A program of the process that uses the network. -/
abbrev NetProg := programs.Prog NetCall NetCall.Answer Fault

/-- The world outside: it answers the uses of the network and changes its own state. -/
abbrev Net (ν : Type) := (c : NetCall) → ν → c.Answer × ν

/-- The network itself never stops the process. -/
def serve {ν : Type} (net : Net ν) : programs.Handler NetCall NetCall.Answer Fault ν :=
  fun c w => (.ok (net c w).1, (net c w).2)

namespace BinanceHttpClient

def connect_sync : NetProg ConnectResult := programs.Prog.ask NetCall.connect_sync

def send_sync (request : Request) : NetProg (Option Response) :=
  programs.Prog.ask (NetCall.send_sync request)

section run

variable {ν α : Type} (net : Net ν)

theorem run_connect (f : ConnectResult → NetProg α) (w : ν) :
    programs.run (serve net) (connect_sync >>= f) w =
      programs.run (serve net) (f (net .connect_sync w).1) (net .connect_sync w).2 := rfl

theorem run_send (r : Request) (f : Option Response → NetProg α) (w : ν) :
    programs.run (serve net) (send_sync r >>= f) w =
      programs.run (serve net) (f (net (.send_sync r) w).1) (net (.send_sync r) w).2 := rfl

end run

end BinanceHttpClient

end wedge
