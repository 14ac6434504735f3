-- The numbers of a request on the wire: what `sprintf` writes is read back, and
-- an order that is read from the URL is the order as it was rounded.
import Wedge.Binance.Retries
import Wedge.Binance.Url
import Wedge.Lib.Decimals

namespace wedge

open programs decimals

/-! ## Writing and reading a number -/

theorem read_sign_of_digit {c : Char} (hc : c.isDigit = true) (text : List Char) :
    read_sign (c :: text) = (false, c :: text) := by
  have hminus := ne_of_digit hc (by decide : '-'.isDigit = false)
  have hplus := ne_of_digit hc (by decide : '+'.isDigit = false)
  simp [read_sign, hminus, hplus]

theorem not_space_of_digit {c : Char} (hc : c.isDigit = true) : isspace c = false := by
  have hvertical := ne_of_digit hc (by decide : '\x0b'.isDigit = false)
  have hfeed := ne_of_digit hc (by decide : '\x0c'.isDigit = false)
  simp [isspace, digit_not_whitespace hc, hvertical, hfeed]

/-- Digits, a point and digits. -/
theorem read_decimal_digits {whole fraction : List Char}
    (hwhole : ∀ c ∈ whole, c.isDigit = true) (hne : whole ≠ [])
    (hfraction : ∀ c ∈ fraction, c.isDigit = true) :
    read_decimal (whole ++ '.' :: fraction) =
      some ((Nat.ofDigitChars 10 (whole ++ fraction) 0 : ℚ) * 10 ^ (-(fraction.length : ℤ))) := by
  have hspan := span_digits hwhole (ends_cons.mpr (by decide) : Ends ('.' :: fraction))
  have hrest := span_digits hfraction ends_nil
  rw [List.append_nil] at hrest
  unfold read_decimal read_digits
  simp only [hspan, hrest]
  simp [hne, read_exponent]

/-- There is no `x` in a decimal text. -/
theorem read_unsigned_digits {whole fraction : List Char}
    (hwhole : ∀ c ∈ whole, c.isDigit = true) (hfraction : ∀ c ∈ fraction, c.isDigit = true) :
    read_unsigned (whole ++ '.' :: fraction) = read_decimal (whole ++ '.' :: fraction) := by
  have hno (x : Char) (hpoint : x ≠ '.') (hx : x.isDigit = false) :
      (whole ++ '.' :: fraction).take 2 ≠ ['0', x] := by
    intro h
    have hmem : x ∈ (whole ++ '.' :: fraction).take 2 := by
      rw [h]
      simp
    replace hmem := List.mem_of_mem_take hmem
    rcases List.mem_append.mp hmem with hmem | hmem
    · exact ne_of_digit (hwhole x hmem) hx rfl
    · rcases List.mem_cons.mp hmem with hmem | hmem
      · exact hpoint hmem
      · exact ne_of_digit (hfraction x hmem) hx rfl
  unfold read_unsigned
  rw [if_neg (not_or.mpr ⟨hno 'x' (by decide) (by decide), hno 'X' (by decide) (by decide)⟩)]

/-- A text with a sign, digits, a point and digits. -/
theorem read_number_digits {text : String} (negative : Bool) {whole fraction : List Char}
    (htext : text.toList = (if negative then ['-'] else []) ++ (whole ++ '.' :: fraction))
    (hwhole : ∀ c ∈ whole, c.isDigit = true) (hne : whole ≠ [])
    (hfraction : ∀ c ∈ fraction, c.isDigit = true) {value : ℚ}
    (hvalue : (Nat.ofDigitChars 10 (whole ++ fraction) 0 : ℚ) * 10 ^ (-(fraction.length : ℤ)) =
      value) :
    read_number text = some (if negative then -value else value) := by
  have hsign : read_sign (text.toList.dropWhile isspace) =
      (negative, whole ++ '.' :: fraction) := by
    rw [htext]
    cases negative with
    | true => rfl
    | false =>
      obtain ⟨c, cs, rfl⟩ := List.exists_cons_of_ne_nil hne
      have hc := hwhole c List.mem_cons_self
      simp [not_space_of_digit hc, read_sign_of_digit hc]
  unfold read_number
  rw [hsign]
  dsimp only
  rw [read_unsigned_digits hwhole hfraction, read_decimal_digits hwhole hne hfraction, hvalue]
  rfl

/-! ## Rounding -/

theorem round_even_error (value : ℚ) : |(round_even value : ℚ) - value| ≤ 1 / 2 := by
  have hlow := Int.floor_le value
  have hhigh := Int.lt_floor_add_one value
  unfold round_even
  dsimp only
  rw [abs_le]
  split_ifs <;> push_cast <;> constructor <;> linarith

theorem round_even_int (n : ℤ) : round_even n = n := by
  simp [round_even]

theorem round_even_nonneg {value : ℚ} (h : 0 ≤ value) : 0 ≤ round_even value := by
  have hfloor := Int.floor_nonneg.mpr h
  unfold round_even
  dsimp only
  split_ifs <;> omega

theorem round_away_error (value : ℚ) : |(round_away value : ℚ) - value| ≤ 1 / 2 := by
  unfold round_away
  rw [abs_le]
  split_ifs
  · have hlow := Int.floor_le (value + 1 / 2)
    have hhigh := Int.lt_floor_add_one (value + 1 / 2)
    constructor <;> linarith
  · have hlow := Int.floor_le (-value + 1 / 2)
    have hhigh := Int.lt_floor_add_one (-value + 1 / 2)
    push_cast
    constructor <;> linarith

/-- The value of the text that `sprintf` writes. -/
def written (value : ℚ) : ℚ :=
  if value < 0 then -((round_even (|value| * 10 ^ 8) : ℚ) / 10 ^ 8)
  else (round_even (|value| * 10 ^ 8) : ℚ) / 10 ^ 8

theorem sprintf_8lf_toList (value : ℚ) : (sprintf_8lf value).toList =
    (if decide (value < 0) = true then ['-'] else []) ++
      fixed 8 (round_even (|value| * 10 ^ 8)).toNat := by
  unfold sprintf_8lf fixed pad
  by_cases h : value < 0 <;> simp [h, ← String.length_toList]

/-- What `sprintf` writes is read back. -/
theorem read_number_sprintf_8lf (value : ℚ) :
    read_number (sprintf_8lf value) = some (written value) := by
  have hunits := round_even_nonneg (mul_nonneg (abs_nonneg value) (by norm_num : (0 : ℚ) ≤ 10 ^ 8))
  have hlength : (pad 8 ((round_even (|value| * 10 ^ 8)).toNat % 10 ^ 8)).length = 8 :=
    length_pad (by decide) (Nat.mod_lt _ (by decide))
  have hvalue : (Nat.ofDigitChars 10 (Nat.toDigits 10 ((round_even (|value| * 10 ^ 8)).toNat / 10 ^ 8)
      ++ pad 8 ((round_even (|value| * 10 ^ 8)).toNat % 10 ^ 8)) 0 : ℚ) *
      10 ^ (-((pad 8 ((round_even (|value| * 10 ^ 8)).toNat % 10 ^ 8)).length : ℤ)) =
      (round_even (|value| * 10 ^ 8) : ℚ) / 10 ^ 8 := by
    rw [value_fixed (by decide), hlength, zpow_neg, div_eq_mul_inv]
    congr 1
    exact_mod_cast Int.toNat_of_nonneg hunits
  rw [read_number_digits (decide (value < 0)) (sprintf_8lf_toList value) (digits_of_nat _)
    Nat.toDigits_ne_nil (digits_of_pad _ _) hvalue]
  simp [written]

/-- A number with eight places behind the point is written as it is. -/
theorem written_units (n : ℤ) : written (n / 10 ^ 8) = n / 10 ^ 8 := by
  have habs : |(n : ℚ) / 10 ^ 8| * 10 ^ 8 = ((|n| : ℤ) : ℚ) := by
    rw [abs_div, Int.cast_abs, abs_of_pos (by norm_num : (0 : ℚ) < 10 ^ 8)]
    exact div_mul_cancel₀ _ (by norm_num)
  unfold written
  rw [habs, round_even_int]
  split_ifs with h
  · have hneg : n < 0 := by
      by_contra hn
      have : (0 : ℚ) ≤ n / 10 ^ 8 := div_nonneg (by exact_mod_cast not_lt.mp hn) (by norm_num)
      linarith
    rw [abs_of_neg hneg]
    push_cast
    ring
  · have hnonneg : 0 ≤ n := by
      by_contra hn
      have : (n : ℚ) / 10 ^ 8 < 0 :=
        div_neg_of_neg_of_pos (by exact_mod_cast not_le.mp hn) (by norm_num)
      contradiction
    rw [abs_of_nonneg hnonneg]

/-- The text of a number fits in the buffer of `add_param`, with the zero at its end. -/
theorem sprintf_8lf_fits {value : ℚ} (h : |value| < 10 ^ 116) : (sprintf_8lf value).length < 128 := by
  have hunits : (round_even (|value| * 10 ^ 8)).toNat < 10 ^ (116 + 1 + 8) := by
    have herror := (abs_le.mp (round_even_error (|value| * 10 ^ 8))).2
    have hlt : (round_even (|value| * 10 ^ 8) : ℚ) < 10 ^ (116 + 1 + 8) := by
      calc (round_even (|value| * 10 ^ 8) : ℚ) ≤ |value| * 10 ^ 8 + 1 / 2 := by linarith
        _ < 10 ^ 116 * 10 ^ 8 + 1 / 2 := by gcongr
        _ < 10 ^ (116 + 1 + 8) := by norm_num
    have hunits := round_even_nonneg (mul_nonneg (abs_nonneg value) (by norm_num : (0 : ℚ) ≤ 10 ^ 8))
    exact (Int.toNat_lt hunits).mpr (by exact_mod_cast hlt)
  have hfixed := length_fixed_le (by decide : 0 < 8) (by decide : 0 < 116 + 1) hunits
  rw [← String.length_toList, sprintf_8lf_toList, List.length_append]
  split <;> simp only [List.length_cons, List.length_nil] <;> omega

theorem sep_not_in_sprintf_8lf (value : ℚ) : '&' ∉ (sprintf_8lf value).toList := by
  have hdigit (digits : List Char) (hall : ∀ c ∈ digits, c.isDigit = true) : '&' ∉ digits :=
    fun h => absurd (hall _ h) (by decide)
  rw [sprintf_8lf_toList]
  unfold fixed
  simp only [List.mem_append, List.mem_cons, not_or]
  refine ⟨?_, hdigit _ (digits_of_nat _), by decide, hdigit _ (digits_of_pad _ _)⟩
  split <;> simp

/-! ## An order on the wire -/

/-- The quantity and the price as the request has them. -/
def lot (quantity : ℚ) : ℚ := round_away (quantity * 10 ^ 5) / 10 ^ 5

def tick (price : ℚ) : ℚ := round_away (price * 10 ^ 2) / 10 ^ 2

/-- An order as the exchange reads it. -/
structure WireOrder where
  symbol : String
  side : String
  type : String
  quantity : ℚ
  price : Option ℚ
  deriving DecidableEq, Repr

/-- The parameters behind the question mark. -/
def read_target (target : String) : List (String × String) :=
  read_query (String.ofList ((target.toList.dropWhile fun c => c ≠ '?').drop 1))

def read_order (target : String) : Option WireOrder := do
  let params := read_target target
  return {
    symbol := ← params.lookup "symbol"
    side := ← params.lookup "side"
    type := ← params.lookup "type"
    quantity := ← read_number (← params.lookup "quantity")
    price := (params.lookup "price").bind read_number }

/-- What the exchange is to read of an order. -/
def OrderCall.wire (symbol : String) : OrderCall → WireOrder
  | .limit_buy_order quantity price => ⟨symbol, "BUY", "LIMIT", lot quantity, some (tick price)⟩
  | .limit_sell_order quantity price => ⟨symbol, "SELL", "LIMIT", lot quantity, some (tick price)⟩
  | .market_buy_order quantity => ⟨symbol, "BUY", "MARKET", lot quantity, none⟩
  | .market_sell_order quantity => ⟨symbol, "SELL", "MARKET", lot quantity, none⟩

/-- At most eight places behind the point are read back as they are. -/
theorem read_number_places (n : ℤ) {places : ℕ} (h : places ≤ 8) :
    read_number (sprintf_8lf (n / 10 ^ places)) = some (n / 10 ^ places : ℚ) := by
  have hunits : (n / 10 ^ places : ℚ) = ((n * 10 ^ (8 - places) : ℤ) : ℚ) / 10 ^ 8 := by
    have hpow : (10 : ℚ) ^ 8 = 10 ^ (8 - places) * 10 ^ places := by
      rw [← pow_add, Nat.sub_add_cancel h]
    push_cast
    rw [hpow, mul_div_mul_comm, mul_comm]
    field_simp
  rw [read_number_sprintf_8lf, hunits, written_units]

theorem read_number_lot (quantity : ℚ) :
    read_number (sprintf_8lf (lot quantity)) = some (lot quantity) :=
  read_number_places _ (by decide : _ ≤ 8)

theorem read_number_tick (price : ℚ) :
    read_number (sprintf_8lf (tick price)) = some (tick price) :=
  read_number_places _ (by decide : _ ≤ 8)

/-- Rounding to places behind the point. -/
theorem round_places_error (value : ℚ) (places : ℕ) :
    |(round_away (value * 10 ^ places) : ℚ) / 10 ^ places - value| ≤ 1 / 2 / 10 ^ places := by
  have hpos : (0 : ℚ) < 10 ^ places := by positivity
  have heq : (round_away (value * 10 ^ places) : ℚ) / 10 ^ places - value =
      (round_away (value * 10 ^ places) - value * 10 ^ places) / 10 ^ places := by
    field_simp
  rw [heq, abs_div, abs_of_pos hpos]
  exact div_le_div_of_nonneg_right (round_away_error _) hpos.le

/-- The parameters of an order. -/
def WireOrder.params (w : WireOrder) : List (String × String) :=
  [("symbol", w.symbol), ("side", w.side), ("type", w.type),
    ("quantity", sprintf_8lf w.quantity)] ++
    (w.price.map fun price => ("price", sprintf_8lf price)).toList ++
    [("newOrderRespType", "ACK"), ("timeInForce", "GTC")]

theorem order_request_params (symbol : String) (order : OrderCall) :
    (order_request symbol order).params = (order.wire symbol).params := by
  cases order <;> rfl

theorem PlainParam.of_value {key value : String}
    (hkey : '&' ∉ key.toList ∧ '=' ∉ key.toList) (hvalue : '&' ∉ value.toList) :
    PlainParam (key, value) := ⟨hkey.1, hkey.2, hvalue⟩

theorem WireOrder.plain_params {w : WireOrder} (hsymbol : '&' ∉ w.symbol.toList)
    (hside : '&' ∉ w.side.toList) (htype : '&' ∉ w.type.toList) :
    ∀ param ∈ w.params, PlainParam param := by
  have hquantity := sep_not_in_sprintf_8lf w.quantity
  unfold params
  simp only [List.forall_mem_append, List.forall_mem_cons]
  refine ⟨⟨⟨.of_value (by decide) hsymbol, .of_value (by decide) hside,
    .of_value (by decide) htype, .of_value (by decide) hquantity,
    fun _ h => absurd h List.not_mem_nil⟩, ?_⟩, .of_value (by decide) (by decide),
    .of_value (by decide) (by decide), fun _ h => absurd h List.not_mem_nil⟩
  intro param h
  obtain ⟨price, _, rfl⟩ := Option.map_eq_some_iff.mp (Option.mem_toList.mp h)
  exact .of_value (by decide) (sep_not_in_sprintf_8lf price)

theorem read_target_url {path : String} (hpath : '?' ∉ path.toList) {u : URLBuilder}
    (hquery : u.query_string_ ≠ "") : read_target (u.url path) = read_query u.query_string_ := by
  have hdrop : (u.url path).toList.dropWhile (fun c => c ≠ '?') = '?' :: u.query_string_.toList := by
    rw [URLBuilder.toList_url, if_neg hquery, List.dropWhile_append_of_pos fun c hc => by
      rw [decide_eq_true_eq]
      rintro rfl
      exact hpath hc]
    simp
  unfold read_target
  rw [hdrop, List.drop_one, List.tail_cons, String.ofList_toList]

theorem query_ne_empty {params : List (String × String)} (h : params ≠ []) :
    (URLBuilder.of_params params).query_string_ ≠ "" := by
  intro hempty
  have hjoin := URLBuilder.toList_of_params params
  rw [hempty] at hjoin
  exact h (List.map_eq_nil_iff.mp (pairs.join_eq_nil_iff.mp hjoin.symm))

/-- The exchange reads the order of the request from its target. -/
theorem read_order_request (hmac : String → String → List UInt8) (now : ℤ)
    (credentials : Credentials) {symbol : String} (hsymbol : '&' ∉ symbol.toList)
    (order : OrderCall) :
    read_order (((order_request symbol order).with_credentials credentials).target hmac now) =
      some (order.wire symbol) := by
  obtain ⟨bin, htarget⟩ :=
    ((order_request symbol order).with_credentials credentials).target_eq hmac now
  have hparams : ((order_request symbol order).with_credentials credentials).params =
      (order.wire symbol).params := order_request_params symbol order
  have hpath : ((order_request symbol order).with_credentials credentials).path =
      "/api/v3/order" := (order_request_plain symbol order credentials).2.1
  have hplain : ∀ param ∈ (order.wire symbol).params ++
      ((order_request symbol order).with_credentials credentials).added bin now,
      PlainParam param := by
    refine List.forall_mem_append.mpr ⟨WireOrder.plain_params ?_ ?_ ?_, Request.plain_added _ _ _⟩
    · cases order <;> exact hsymbol
    · cases order <;> simp [OrderCall.wire]
    · cases order <;> simp [OrderCall.wire]
  have hadded : ((order_request symbol order).with_credentials credentials).added bin now =
      [("timestamp", toString now), ("signature", URLBuilder.bin2hex bin)] := by
    cases order <;> exact if_pos ⟨rfl, rfl⟩
  rw [hadded] at hplain htarget
  rw [htarget, hparams, hpath]
  unfold read_order
  rw [read_target_url (by simp) (query_ne_empty (by simp)),
    (URLBuilder.read_query_of_params _).mpr hplain]
  cases order <;>
    simp [OrderCall.wire, WireOrder.params, List.lookup, read_number_lot, read_number_tick]

/-! ## What a program sends -/

/-- Whatever the network does, each request that the program sends meets the condition. -/
def SendsOnly {ν α : Type} (net : Net ν) (p : Request → Prop) (prog : NetProg α) : Prop :=
  ∀ w, Obeys (serve net) (fun op _ => ∀ r, op = .send_sync r → p r) prog w

namespace SendsOnly

variable {ν α β : Type} {net : Net ν} {p : Request → Prop}

theorem ret (a : α) : SendsOnly net p (.ret a) := fun _ => trivial

theorem fail (f : Fault) : SendsOnly net p (.fail f : NetProg α) := fun _ => trivial

theorem bind {prog : NetProg α} {f : α → NetProg β} (h : SendsOnly net p prog)
    (hf : ∀ a, SendsOnly net p (f a)) : SendsOnly net p (prog >>= f) :=
  fun w => (h w).bind fun a t _ => hf a t

theorem throws (r : Option α) : SendsOnly net p (throws r) := by
  cases r with
  | none => exact fail _
  | some a => exact ret a

theorem requset_once {r : Request} (h : p r) : SendsOnly net p (requset_once r) := by
  have hconnect : SendsOnly net p BinanceHttpClient.connect_sync := fun _ =>
    ⟨(fun _ h => nomatch h), fun _ _ _ => trivial⟩
  have hsend : SendsOnly net p (BinanceHttpClient.send_sync r) := by
    refine fun _ => ⟨?_, fun _ _ _ => trivial⟩
    rintro _ ⟨⟩
    exact h
  refine bind hconnect fun result => ?_
  cases result with
  | raised => exact fail _
  | failed => exact ret none
  | connected =>
    refine bind hsend fun response => ?_
    rcases response with _ | response
    · exact ret none
    · dsimp only
      split_ifs <;> exact ret _

theorem request_until {r : Request} (h : p r) (n : ℕ) : SendsOnly net p (request_until r n) := by
  induction n with
  | zero => exact fail _
  | succ n ih =>
    refine bind (requset_once h) fun result => ?_
    cases result with
    | none => exact ih
    | some body => exact ret body

theorem request (b : BinanceBroker) {r : Request}
    (h : ∀ credentials, p (r.with_credentials credentials)) : SendsOnly net p (b.request r) := by
  unfold BinanceBroker.request
  split
  · exact fail _
  · exact request_until (h _) _

end SendsOnly

/-- The numbers that a request for the order writes. -/
def WireOrder.numbers (w : WireOrder) : List ℚ := w.quantity :: w.price.toList

/-- Each request that a call for an order sends is read by the exchange as this order, with the
quantity rounded to five places behind the point and the price rounded to two. The numbers fit in
the buffer that they are written to. -/
theorem every_try_carries_the_order {ν : Type} (net : Net ν) (world : ν)
    (hmac : String → String → List UInt8) (b : BinanceBroker) {symbol : String}
    (hsymbol : '&' ∉ symbol.toList) (order : OrderCall)
    (hsize : ∀ value ∈ (order.wire symbol).numbers, |value| < 10 ^ 116) :
    Obeys (serve net) (fun op _ => ∀ r, op = .send_sync r →
        r.method = .post ∧ ∀ now, read_order (r.target hmac now) = some (order.wire symbol))
      (b.create symbol order) world ∧
    (∀ value ∈ (order.wire symbol).numbers, (sprintf_8lf value).length < 128) ∧
    (∀ quantity, |lot quantity - quantity| ≤ 1 / 2 / 10 ^ 5) ∧
    ∀ price, |tick price - price| ≤ 1 / 2 / 10 ^ 2 := by
  refine ⟨?_, fun value hvalue => sprintf_8lf_fits (hsize value hvalue),
    fun quantity => round_places_error quantity 5, fun price => round_places_error price 2⟩
  rw [create_eq]
  refine SendsOnly.bind (.request b fun credentials => ?_) (fun _ => .throws _) world
  exact ⟨(order_request_plain symbol order credentials).1,
    fun now => read_order_request hmac now credentials hsymbol order⟩

/-- Both tries of a call whose first answer is lost carry the same rounded order. -/
theorem a_lost_try_carries_the_rounded_order :
    (OrderCall.limit_buy_order (123456 / 10 ^ 6) (100005 / 10 ^ 3)).wire "BTCUSDT" =
      ⟨"BTCUSDT", "BUY", "LIMIT", 12346 / 10 ^ 5, some (10001 / 10 ^ 2)⟩ ∧
    Obeys (serve (flaky counting_exchange)) (fun op _ => ∀ r, op = .send_sync r →
        r.method = .post ∧ ∀ now, read_order (r.target (fun _ _ => []) now) =
          some ⟨"BTCUSDT", "BUY", "LIMIT", 12346 / 10 ^ 5, some (10001 / 10 ^ 2)⟩)
      (retry_broker.create "BTCUSDT" (.limit_buy_order (123456 / 10 ^ 6) (100005 / 10 ^ 3)))
      { attempts := [.read_fails], exchange := [] } := by
  have hwire : (OrderCall.limit_buy_order (123456 / 10 ^ 6) (100005 / 10 ^ 3)).wire "BTCUSDT" =
      ⟨"BTCUSDT", "BUY", "LIMIT", 12346 / 10 ^ 5, some (10001 / 10 ^ 2)⟩ := by decide +kernel
  have h := every_try_carries_the_order (flaky counting_exchange)
    { attempts := [.read_fails], exchange := [] } (fun _ _ => []) retry_broker
    (by decide : '&' ∉ "BTCUSDT".toList)
    (.limit_buy_order (123456 / 10 ^ 6) (100005 / 10 ^ 3)) (by
      rw [hwire]
      simp only [WireOrder.numbers, Option.toList_some, List.forall_mem_cons]
      exact ⟨by norm_num [abs_lt], by norm_num [abs_lt], fun _ h => absurd h List.not_mem_nil⟩)
  rw [hwire] at h
  exact ⟨hwire, h.1⟩

end wedge
