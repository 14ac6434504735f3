-- The answers of the exchange about the account and about klines, and what the
-- client reads of them: the amounts that the exchange has written.
import Wedge.Binance.Numbers
import Wedge.Trade.Engine

namespace wedge

open programs decimals containers

/-! ## Amounts -/

/-- An amount with a fixed number of places behind the point, within the range of a `double`. -/
structure Amount where
  places : ℕ
  units : ℕ
  places_pos : 0 < places
  places_le : places ≤ 307
  units_lt : units < 10 ^ (308 + places)

namespace Amount

def value (a : Amount) : ℚ := a.units / 10 ^ a.places

def text (a : Amount) : String := String.ofList (fixed a.places a.units)

theorem read_number_text (a : Amount) : read_number a.text = some a.value := by
  have hlength : (pad a.places (a.units % 10 ^ a.places)).length = a.places :=
    length_pad a.places_pos (Nat.mod_lt _ (Nat.pow_pos (by decide)))
  have hvalue : (Nat.ofDigitChars 10 (Nat.toDigits 10 (a.units / 10 ^ a.places) ++
      pad a.places (a.units % 10 ^ a.places)) 0 : ℚ) *
        10 ^ (-((pad a.places (a.units % 10 ^ a.places)).length : ℤ)) = a.value := by
    rw [value_fixed a.places_pos, hlength, zpow_neg, zpow_natCast, ← div_eq_mul_inv]
    rfl
  have htext : a.text.toList = (if false = true then ['-'] else []) ++
      (Nat.toDigits 10 (a.units / 10 ^ a.places) ++
        '.' :: pad a.places (a.units % 10 ^ a.places)) := by
    unfold text fixed
    rw [String.toList_ofList]
    simp
  exact read_number_digits false htext (digits_of_nat _) Nat.toDigits_ne_nil (digits_of_pad _ _)
    hvalue

theorem value_lt (a : Amount) : a.value < 10 ^ 308 := by
  have hunits : (a.units : ℚ) < 10 ^ (308 + a.places) := by exact_mod_cast a.units_lt
  unfold value
  rw [div_lt_iff₀ (by positivity), ← pow_add]
  exact hunits

/-- The least amount but zero is one unit of the last place. -/
theorem le_value (a : Amount) (h : a.units ≠ 0) : 1 / 10 ^ 307 ≤ a.value := by
  have hunits : (1 : ℚ) ≤ a.units := by exact_mod_cast Nat.one_le_iff_ne_zero.mpr h
  have hplaces : (10 : ℚ) ^ a.places ≤ 10 ^ 307 := pow_le_pow_right₀ (by norm_num) a.places_le
  unfold value
  gcongr

theorem in_double_range (a : Amount) : InDoubleRange a.value := by
  have hnonneg : 0 ≤ a.value := div_nonneg (Nat.cast_nonneg _) (by positivity)
  have hlarge : (10 : ℚ) ^ 308 + 2 ^ 970 < 2 ^ 1024 := by
    exact_mod_cast (by decide +kernel : 10 ^ 308 + 2 ^ 970 < 2 ^ 1024)
  have hsmall : (10 : ℚ) ^ 307 ≤ 2 ^ 1022 := by
    exact_mod_cast (by decide +kernel : 10 ^ 307 ≤ 2 ^ 1022)
  unfold InDoubleRange
  rw [abs_of_nonneg hnonneg]
  refine ⟨a.value_lt.trans (lt_sub_iff_add_lt.mpr hlarge), ?_⟩
  by_cases hunits : a.units = 0
  · right
    simp [value, hunits]
  · left
    exact (one_div_le_one_div_of_le (by positivity) hsmall).trans (a.le_value hunits)

theorem stod_text (a : Amount) : stod a.text = some a.value := by
  unfold stod
  rw [a.read_number_text]
  exact Option.filter_some_pos (decide_eq_true a.in_double_range)

theorem get_double_text (a : Amount) : get_double (.str a.text) = some a.value := by
  simp only [get_double, Json.get_string, Option.bind_eq_bind, Option.bind_some, a.stod_text]

end Amount

/-! ## The account -/

/-- A balance of the account. -/
structure Balance where
  asset : String
  free : Amount
  locked : Amount

/-- The exchange has written the balance in an object, among other fields. -/
def Balance.In (b : Balance) (item : Json) : Prop :=
  ∃ fields, item = .obj fields ∧ fields.lookup "asset" = some (.str b.asset) ∧
    fields.lookup "free" = some (.str b.free.text) ∧
    fields.lookup "locked" = some (.str b.locked.text)

def Balance.entry (b : Balance) : String × ℚ × ℚ := (b.asset, b.free.value, b.locked.value)

namespace BinanceBroker

theorem add_balance_eq {b : Balance} {item : Json} (h : b.In item) (account : BinanceAccount) :
    add_balance account item = some (account.emplace b.asset (b.free.value, b.locked.value)) := by
  obtain ⟨fields, rfl, hasset, hfree, hlocked⟩ := h
  simp [add_balance, Json.at_key, hasset, hfree, hlocked, Json.get_string, Amount.stod_text]

/-- The first entry of an asset is the one that counts. -/
theorem lookup_emplace (account : BinanceAccount) (asset symbol : String) (amounts : ℚ × ℚ) :
    (account.emplace asset amounts).balances_.lookup symbol =
      (account.balances_.lookup symbol).or ([(asset, amounts)].lookup symbol) := by
  unfold BinanceAccount.emplace
  split_ifs with hold
  · by_cases heq : symbol = asset
    · subst heq
      obtain ⟨old, hold⟩ := Option.isSome_iff_exists.mp hold
      rw [hold]
      rfl
    · have hne : (symbol == asset) = false := beq_eq_false_iff_ne.mpr heq
      simp [List.lookup, hne]
  · rw [List.lookup_append]

theorem read_balances {balances : List Balance} {items : List Json}
    (h : List.Forall₂ Balance.In balances items) (account : BinanceAccount) :
    ∃ read, items.foldlM add_balance account = some read ∧ ∀ symbol,
      read.balances_.lookup symbol =
        (account.balances_.lookup symbol).or ((balances.map Balance.entry).lookup symbol) := by
  induction h generalizing account with
  | nil => exact ⟨account, rfl, fun symbol => by simp⟩
  | @cons b item balances items hb _ ih =>
    obtain ⟨read, hread, hlookup⟩ := ih (account.emplace b.asset (b.free.value, b.locked.value))
    refine ⟨read, ?_, fun symbol => ?_⟩
    · rw [List.foldlM_cons, add_balance_eq hb]
      exact hread
    · rw [hlookup, lookup_emplace, Option.or_assoc, ← List.lookup_append]
      rfl

end BinanceBroker

/-- The exchange has written the balances of the account. -/
def WritesAccount (body : Json) (balances : List Balance) : Prop :=
  ∃ fields items, body = .obj fields ∧ fields.lookup "balances" = some (.arr items) ∧
    List.Forall₂ Balance.In balances items

/-- The free amount of the first balance of an asset. -/
def free_amount (balances : List Balance) (symbol : String) : Option ℚ :=
  (balances.find? fun b => b.asset = symbol).map fun b => b.free.value

theorem lookup_entry (balances : List Balance) (symbol : String) :
    ((balances.map Balance.entry).lookup symbol).map Prod.fst = free_amount balances symbol := by
  unfold free_amount
  induction balances with
  | nil => rfl
  | cons b balances ih =>
    rw [List.map_cons, Balance.entry, List.lookup_cons, List.find?_cons]
    by_cases heq : b.asset = symbol
    · simp [heq]
    · have hne : (symbol == b.asset) = false := beq_eq_false_iff_ne.mpr (Ne.symm heq)
      simpa [heq, hne] using ih

/-! ## Klines -/

/-- A kline as the exchange has it. -/
structure Kline where
  open_time : ℤ
  close_time : ℤ
  open_price : Amount
  high_price : Amount
  low_price : Amount
  close_price : Amount
  volume : Amount
  quote_volume : Amount
  traders : ℤ
  taker_buy_base : Amount
  taker_buy_quote : Amount
  open_fits : -2 ^ 63 ≤ open_time ∧ open_time < 2 ^ 63
  close_fits : -2 ^ 63 ≤ close_time ∧ close_time < 2 ^ 63
  traders_fit : -2 ^ 31 ≤ traders ∧ traders < 2 ^ 31

namespace Kline

/-- The items of the kline. -/
def items (k : Kline) : List Json :=
  [.num k.open_time, .str k.open_price.text, .str k.high_price.text, .str k.low_price.text,
    .str k.close_price.text, .str k.volume.text, .num k.close_time, .str k.quote_volume.text,
    .num k.traders, .str k.taker_buy_base.text, .str k.taker_buy_quote.text]

/-- The row of the kline, with other items behind it. -/
def row (k : Kline) (more : List Json) : Json := .arr (k.items ++ more)

def candle (k : Kline) : Candle where
  open_time := k.open_time
  close_time := k.close_time
  open_price := k.open_price.value
  close_price := k.close_price.value
  high_price := k.high_price.value
  low_price := k.low_price.value
  volume := k.volume.value
  quote_volume := k.quote_volume.value
  traders := k.traders
  taker_buy_base := k.taker_buy_base.value
  taker_buy_quote := k.taker_buy_quote.value

theorem get_kline_row (k : Kline) (more : List Json) :
    BinanceBroker.get_kline (k.row more) = some k.candle := by
  have hopen : k.open_time.bmod (2 ^ 64) = k.open_time := by
    have := k.open_fits
    apply Int.bmod_eq_of_le <;> omega
  have hclose : k.close_time.bmod (2 ^ 64) = k.close_time := by
    have := k.close_fits
    apply Int.bmod_eq_of_le <;> omega
  have htraders : k.traders.bmod (2 ^ 32) = k.traders := by
    have := k.traders_fit
    apply Int.bmod_eq_of_le <;> omega
  simp [BinanceBroker.get_kline, row, items, Json.item, Json.get_int64, Json.get_int,
    Amount.get_double_text, candle]
  exact ⟨hopen, hclose, htraders⟩

end Kline

/-- The exchange has written the klines, one row for each. -/
def WritesKlines (body : Json) (klines : List Kline) : Prop :=
  ∃ rows, body = .arr rows ∧ List.Forall₂ (fun k row => ∃ more, row = k.row more) klines rows

theorem read_rows_of {klines : List Kline} {rows : List Json}
    (h : List.Forall₂ (fun k row => ∃ more, row = Kline.row k more) klines rows) :
    rows.mapM BinanceBroker.get_kline = some (klines.map Kline.candle) := by
  induction h with
  | nil => rfl
  | @cons k row klines rows hrow _ ih =>
    obtain ⟨more, rfl⟩ := hrow
    rw [List.mapM_cons, k.get_kline_row, ih]
    rfl

/-! ## The answers -/

section answers

variable {ν : Type} {net : Net ν} {w w' : ν} {body : Json} {b : BinanceBroker}

theorem get_klines_read {symbol interval : String} {start_time end_time : ℤ} {r : Request}
    {klines : List Kline} (hr : market.Klines symbol (market.from_str interval) = some r)
    (hrun : run (serve net) (request_until (market.limit 1000 <| market.end_time end_time <|
      market.start_time start_time r) b.retry_count_) w = (.ok body, w'))
    (hbody : WritesKlines body klines) :
    run (serve net) (b.get_klines symbol interval start_time end_time) w =
      (.ok (klines.map Kline.candle), w') := by
  obtain ⟨rows, rfl, hrows⟩ := hbody
  unfold BinanceBroker.get_klines
  rw [hr]
  dsimp only
  rw [run_bind_ok _ hrun, Json.items, read_rows_of hrows]
  rfl

theorem get_account_read {balances : List Balance}
    (hrun : run (serve net) (b.request trade.Account) w = (.ok body, w'))
    (hbody : WritesAccount body balances) :
    ∃ account, run (serve net) b.get_account w = (.ok account, w') ∧
      ∀ symbol, account.free symbol = free_amount balances symbol := by
  obtain ⟨fields, items, rfl, hfield, hitems⟩ := hbody
  obtain ⟨account, hread, hlookup⟩ := BinanceBroker.read_balances hitems {}
  refine ⟨account, ?_, fun symbol => ?_⟩
  · unfold BinanceBroker.get_account
    rw [run_bind_ok _ hrun]
    simp [Json.field, hfield, Json.items, hread, throws]
  · unfold BinanceAccount.free
    rw [hlookup]
    exact lookup_entry balances symbol

/-- The two amounts of the account. -/
theorem account_read {balances : List Balance} (p : Placement OrderIndex TradeOrder)
    {e : TradeEngine ν} (hrun : run (serve net) (e.broker_.request trade.Account) e.world =
      (.ok body, w')) (hbody : WritesAccount body balances) :
    TradeBroker net p .account e =
      (match free_amount balances "USDT",
          free_amount balances (TradeBroker.base_symbol e.symbol_) with
        | some balance, some position => .ok { balance := balance, position := position }
        | _, _ => .error .undefined, { e with world := w' }) := by
  obtain ⟨account, hread, hfree⟩ := get_account_read hrun hbody
  simp only [TradeBroker, TradeBroker.account, TradeEngine.use, hread, TradeBroker.to_account,
    hfree]
  rcases free_amount balances "USDT" with _ | balance
  · rfl
  · rcases free_amount balances (TradeBroker.base_symbol e.symbol_) with _ | position <;> rfl

/-- The live engine gets the amounts of its account as the exchange has written them, and a client
gets the candles of the klines as the exchange has written them. An account without one of the two
assets is undefined behaviour. -/
theorem answers_are_read_as_written (net : Net ν) (p : Placement OrderIndex TradeOrder) :
    (∀ (e : TradeEngine ν) (body : Json) (w' : ν) (balances : List Balance),
      run (serve net) (e.broker_.request trade.Account) e.world = (.ok body, w') →
      WritesAccount body balances →
      TradeBroker net p .account e =
        (match free_amount balances "USDT",
            free_amount balances (TradeBroker.base_symbol e.symbol_) with
          | some balance, some position => .ok { balance := balance, position := position }
          | _, _ => .error .undefined, { e with world := w' })) ∧
    ∀ (b : BinanceBroker) (symbol interval : String) (start_time end_time : ℤ) (r : Request)
      (w : ν) (body : Json) (w' : ν) (klines : List Kline),
      market.Klines symbol (market.from_str interval) = some r →
      run (serve net) (request_until (market.limit 1000 <| market.end_time end_time <|
        market.start_time start_time r) b.retry_count_) w = (.ok body, w') →
      WritesKlines body klines →
      run (serve net) (b.get_klines symbol interval start_time end_time) w =
        (.ok (klines.map Kline.candle), w') :=
  ⟨fun _ _ _ _ hrun hbody => account_read p hrun hbody,
    fun _ _ _ _ _ _ _ _ _ _ hr hrun hbody => get_klines_read hr hrun hbody⟩

end answers

theorem units_fit (units : Fin (10 ^ 18)) (places : ℕ) : units.val < 10 ^ (308 + places) :=
  units.isLt.trans (Nat.pow_lt_pow_right (by decide) (by omega))

/-- Eight places behind the point. -/
def eight_places (units : Fin (10 ^ 18)) : Amount where
  places := 8
  units := units
  places_pos := by decide
  places_le := by decide
  units_lt := units_fit units 8

def two_balances : List Balance :=
  [⟨"BTC", eight_places 25000000, eight_places 0⟩, ⟨"USDT", eight_places 91050000000, eight_places 100⟩]

def Balance.json (b : Balance) : Json :=
  .obj [("asset", .str b.asset), ("free", .str b.free.text), ("locked", .str b.locked.text)]

def one_kline : Kline where
  open_time := 1800000
  close_time := 3599999
  open_price := eight_places 100
  high_price := eight_places 300
  low_price := eight_places 50
  close_price := eight_places 200
  volume := eight_places 1
  quote_volume := eight_places 150
  traders := 1
  taker_buy_base := eight_places 0
  taker_buy_quote := eight_places 0
  open_fits := by decide
  close_fits := by decide
  traders_fit := by decide

/-- Answers about the account and about klines. -/
def answering_net : Net Unit
  | .connect_sync, w => (.connected, w)
  | .send_sync r, w =>
    if r.path = "/api/v3/account" then
      (some { result := 200, body := .obj [("updateTime", .num 1),
        ("balances", .arr (two_balances.map Balance.json))] }, w)
    else (some { result := 200, body := .arr [one_kline.row [.str "0"]] }, w)

/-- The account is 910.5 and 0.25, and the candle has the prices of the kline. -/
theorem an_account_and_a_kline_are_read :
    TradeBroker answering_net in_front .account
        { symbol_ := "BTCUSDT", broker_ := retry_broker, world := () } =
      (.ok { balance := 1821 / 2, position := 1 / 4 },
        { symbol_ := "BTCUSDT", broker_ := retry_broker, world := () }) ∧
    run (serve answering_net) (({} : BinanceBroker).get_klines "BTCUSDT" "30m" 0 3600000) () =
      (.ok [one_kline.candle], ()) := by
  obtain ⟨haccount, hklines⟩ := answers_are_read_as_written answering_net in_front
  constructor
  · refine (haccount { symbol_ := "BTCUSDT", broker_ := retry_broker, world := () }
      (.obj [("updateTime", .num 1), ("balances", .arr (two_balances.map Balance.json))]) ()
      two_balances rfl ⟨_, _, rfl, rfl, ?_⟩).trans ?_
    · exact .cons ⟨_, rfl, rfl, rfl, rfl⟩ (.cons ⟨_, rfl, rfl, rfl, rfl⟩ .nil)
    · have husdt : free_amount two_balances "USDT" = some (1821 / 2) := by decide +kernel
      have hbtc : free_amount two_balances (TradeBroker.base_symbol "BTCUSDT") =
          some (1 / 4) := by decide +kernel
      simp only [husdt, hbtc]
  · exact hklines {} "BTCUSDT" "30m" 0 3600000 _ () (.arr [one_kline.row [.str "0"]]) ()
      [one_kline] rfl rfl ⟨_, rfl, .cons ⟨_, rfl⟩ .nil⟩

end wedge
