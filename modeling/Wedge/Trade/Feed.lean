-- The candles that the live engine passes to the strategy, on the clock. The
-- engine asks for the last half hour, and that window always ends in an interval
-- that is not over. The sleep of half an hour starts after the work of the
-- iteration, so the queries drift until an interval is skipped.
import Wedge.Trade.Engine

namespace wedge

open programs containers runs

/-! ## Half hours -/

/-- The milliseconds of `30min`. -/
def half_hour : ℤ := 1800000

/-- The start of the interval that an instant is in. -/
def interval_start (now : ℤ) : ℤ := now / half_hour * half_hour

theorem interval_start_le (now : ℤ) : interval_start now ≤ now := by
  unfold interval_start half_hour
  omega

theorem lt_interval_end (now : ℤ) : now < interval_start now + half_hour := by
  unfold interval_start half_hour
  omega

/-- The start of the interval is the last instant of the clock with a new interval. -/
theorem le_interval_start {t now : ℤ} (hd : half_hour ∣ t) (h : t ≤ now) :
    t ≤ interval_start now := by
  unfold half_hour at hd
  unfold interval_start half_hour
  omega

theorem half_hour_dvd_interval_start (now : ℤ) : half_hour ∣ interval_start now :=
  Dvd.intro_left _ rfl

/-- A query comes in the next interval as long as the work since the last one fits in what that
interval had left. -/
theorem next_interval_iff (now : ℤ) {delay : ℤ} (h : 0 ≤ delay) :
    interval_start (now + half_hour + delay) = interval_start now + half_hour ↔
      now % half_hour + delay < half_hour := by
  unfold interval_start half_hour
  omega

/-! ## The exchange -/

/-- The request of `TradeEngine::run`. -/
def klines_request (start_time end_time : ℤ) : Request :=
  market.limit 1000 <| market.end_time end_time <| market.start_time start_time {
    method := .get
    path := "/api/v3/klines"
    params := [("symbol", "BTCUSDT"), ("interval", "30m")] }

theorem get_klines_eq (b : BinanceBroker) (start_time end_time : ℤ) :
    b.get_klines "BTCUSDT" "30m" start_time end_time = (do
      let json_data ← request_until (klines_request start_time end_time) b.retry_count_
      throws (json_data.items.mapM BinanceBroker.get_kline)) := rfl

/-- The klines of the intervals that start in the window, in ascending order. -/
structure HalfHours (start_time end_time : ℤ) (candles : List Candle) : Prop where
  ascending : candles.Pairwise fun a b => a.open_time < b.open_time
  complete : ∀ t, (∃ candle ∈ candles, candle.open_time = t) ↔
    start_time ≤ t ∧ t ≤ end_time ∧ half_hour ∣ t
  close : ∀ candle ∈ candles, candle.close_time = candle.open_time + half_hour - 1

/-- Whenever the exchange answers the engine with the code 200, the answer holds the klines of
the last half hour. -/
def AnswersKlines {ν : Type} (net : Net ν) : Prop :=
  ∀ now w response,
    (net (.send_sync (klines_request (now - half_hour) now)) w).1 = some response →
    response.result = 200 →
    ∃ candles, response.body.items.mapM BinanceBroker.get_kline = some candles ∧
      HalfHours (now - half_hour) now candles

/-- The last kline of the window is the one of the interval that is not over yet. -/
theorem HalfHours.last {now : ℤ} {candles : List Candle}
    (h : HalfHours (now - half_hour) now candles) {candle : Candle}
    (hlast : candles.getLast? = some candle) :
    candle.open_time = interval_start now ∧
      candle.close_time = interval_start now + half_hour - 1 := by
  have hmem := List.mem_of_getLast? hlast
  have hopen : candle.open_time = interval_start now := by
    have hin := (h.complete candle.open_time).mp ⟨candle, hmem, rfl⟩
    have hstart := (h.complete (interval_start now)).mpr
      ⟨by have := lt_interval_end now; omega, interval_start_le now,
        half_hour_dvd_interval_start now⟩
    obtain ⟨first, hfirst, heq⟩ := hstart
    apply le_antisymm (le_interval_start hin.2.2 hin.2.1)
    -- The last kline opens latest.
    obtain ⟨l, rfl⟩ := List.getLast?_eq_some_iff.mp hlast
    rw [← heq]
    rcases List.mem_append.mp hfirst with hf | hf
    · exact (List.pairwise_append.mp h.ascending).2.2 first hf candle (List.mem_singleton.mpr rfl)
        |>.le
    · rw [List.mem_singleton.mp hf]
  exact ⟨hopen, by rw [h.close candle hmem, hopen]⟩

section client

variable {ν : Type} {net : Net ν}

theorem requset_once_answer {r : Request} {w w' : ν} {body : Json}
    (h : run (serve net) (requset_once r) w = (.ok (some body), w')) :
    ∃ x response, (net (.send_sync r) x).1 = some response ∧ response.result = 200 ∧
      response.body = body := by
  unfold requset_once at h
  rw [BinanceHttpClient.run_connect] at h
  rcases hconnect : (net .connect_sync w).1 with _ | _ | _ <;> rw [hconnect] at h <;>
    dsimp only at h
  · rw [BinanceHttpClient.run_send] at h
    rcases hsend : (net (.send_sync r) (net .connect_sync w).2).1 with _ | response <;>
      rw [hsend] at h <;> dsimp only at h
    · cases h
    · split at h
      · cases h
      · rename_i hresult
        cases h
        exact ⟨_, response, hsend, not_not.mp hresult, rfl⟩
  · cases h
  · cases h

/-- A result of the retries is the body of an answer with the code 200. -/
theorem request_until_answer {r : Request} {n : ℕ} {w w' : ν} {body : Json}
    (h : run (serve net) (request_until r n) w = (.ok body, w')) :
    ∃ x response, (net (.send_sync r) x).1 = some response ∧ response.result = 200 ∧
      response.body = body := by
  induction n generalizing w with
  | zero => cases h
  | succ n ih =>
    unfold request_until at h
    rw [run_bind] at h
    rcases hone : run (serve net) (requset_once r) w with ⟨fault | _ | json_data, w1⟩ <;>
      rw [hone] at h <;> dsimp only at h
    · cases h
    · exact ih h
    · cases h
      exact requset_once_answer hone

theorem half_hours_of_use {e e' : TradeEngine ν} (hnet : AnswersKlines net) {now : ℤ}
    {candles : List Candle}
    (h : e.use net (e.broker_.get_klines "BTCUSDT" "30m" (now - 1800000) now) =
      (.ok candles, e')) : HalfHours (now - half_hour) now candles := by
  have hrun := congrArg Prod.fst h
  unfold TradeEngine.use at hrun
  dsimp only at hrun
  rw [get_klines_eq, run_bind] at hrun
  rcases hjson : run (serve net)
      (request_until (klines_request (now - 1800000) now) e.broker_.retry_count_) e.world with
    ⟨fault | json_data, w⟩ <;> rw [hjson] at hrun <;> dsimp only at hrun
  · cases hrun
  · obtain ⟨x, response, hsend, hresult, rfl⟩ := request_until_answer hjson
    obtain ⟨read, hread, hhours⟩ := hnet now x response hsend hresult
    rw [hread] at hrun
    cases hrun
    exact hhours

end client

/-! ## The clock -/

/-- The engine with the system clock. `clock` is the earliest instant of the next step, and
`queried` is the instant of the last request for candles. -/
structure TimedRun (σ ν : Type) where
  run : TradeRun σ ν
  clock : ℤ
  queried : ℤ := 0

/-- A candle that the engine passes to `update`, with the instant of its query. -/
structure Query where
  now : ℤ
  candle : Candle
  deriving DecidableEq, Repr

namespace TimedRun

variable {σ ν : Type}

/-- One step of the engine at the instant `now`. Any time can have passed since the last step,
and the sleep of 30 minutes follows `update`. -/
def step (S : IStrategy σ) (net : Net ν) (p : Placement OrderIndex TradeOrder) (now : ℤ)
    (t : TimedRun σ ν) : Option (TimedRun σ ν) :=
  if t.clock ≤ now then
    (t.run.step S net p now).map fun r =>
      match t.run.pc with
      | .swept => { run := r, clock := now, queried := now }
      | .fetched _ => { t with run := r, clock := now + half_hour }
      | _ => { t with run := r, clock := now }
  else none

def Step (S : IStrategy σ) (net : Net ν) (p : Placement OrderIndex TradeOrder)
    (t : TimedRun σ ν) (now : ℤ) (t' : TimedRun σ ν) : Prop := t.step S net p now = some t'

/-- What the step passes to `update`. -/
def passed (t : TimedRun σ ν) (_ : ℤ) : List Query :=
  match t.run.pc with
  | .fetched candle => [{ now := t.queried, candle := candle }]
  | _ => []

/-- A new engine that starts at an instant. -/
def start (symbol : String) (broker : BinanceBroker) (world : ν) (strategy : σ) (clock : ℤ) :
    TimedRun σ ν := { run := .start symbol broker world strategy, clock := clock }

end TimedRun

namespace Query

/-- The candle was closed before the query. -/
def Closed (q : Query) : Prop := q.candle.close_time < q.now

/-- The second candle is the direct successor of the first one. -/
def Next (q q' : Query) : Prop := q'.candle.open_time = q.candle.open_time + half_hour

/-- The candle is the one of the interval that the query is in. -/
structure Current (q : Query) : Prop where
  opened : q.candle.open_time = interval_start q.now
  closes : q.candle.close_time = interval_start q.now + half_hour - 1

theorem Current.not_closed {q : Query} (h : q.Current) : ¬ q.Closed := by
  have := lt_interval_end q.now
  unfold Closed
  rw [h.closes]
  omega

/-- Between two queries lie a sleep and some work. -/
def Later (q q' : Query) : Prop := q.now + half_hour ≤ q'.now

theorem Current.next_iff {q q' : Query} (h : q.Current) (h' : q'.Current) (hlater : q.Later q') :
    q.Next q' ↔ q.now % half_hour + (q'.now - q.now - half_hour) < half_hour := by
  unfold Later at hlater
  have hdelay : 0 ≤ q'.now - q.now - half_hour := by omega
  have hnow : q.now + half_hour + (q'.now - q.now - half_hour) = q'.now := by omega
  have hiff := next_interval_iff q.now hdelay
  unfold Next
  rw [h.opened, h'.opened]
  rwa [hnow] at hiff

end Query

/-! ## The feed -/

namespace TimedRun

variable {σ ν : Type} {S : IStrategy σ} {net : Net ν} {p : Placement OrderIndex TradeOrder}

/-- What holds after the candles of the feed: each one is of the interval of its query, and the
queries lie apart, the one that is not passed yet too. -/
structure Fed (feed : List Query) (t : TimedRun σ ν) : Prop where
  current : ∀ q ∈ feed, q.Current
  later : feed.IsChain Query.Later
  rested : ∀ q ∈ feed.getLast?, q.now + half_hour ≤ t.clock
  pending : ∀ candle, t.run.pc = .fetched candle →
    Query.Current { now := t.queried, candle := candle } ∧ t.queried ≤ t.clock ∧
      ∀ q ∈ feed.getLast?, q.now + half_hour ≤ t.queried

/-- Only the request for candles leads to a candle: the last one of the answer. -/
theorem fetched_of_step {r r' : TradeRun σ ν} {now : ℤ} {candle : Candle}
    (hstep : TradeRun.Step S net p r now r') (hpc : r'.pc = .fetched candle) :
    r.pc = .swept ∧ ∃ candles engine, candles.getLast? = some candle ∧
      r.engine.use net (r.engine.broker_.get_klines "BTCUSDT" "30m" (now - 1800000) now) =
        (.ok candles, engine) := by
  have hcallback : ∀ (prog : StrategyProg σ) (pc : TradePc) (u : TradeRun σ ν),
      pc ≠ .fetched candle → (u.callback net p prog pc).pc ≠ .fetched candle := by
    intro prog pc u hne heq
    rcases (u.callback_engine net p prog pc).2 with h | ⟨fault, h⟩
    · exact hne (h.symm.trans heq)
    · cases h.symm.trans heq
  cases TradeRun.step_moves hstep with
  | start h => cases hpc
  | finish h => cases hpc
  | poll_filled h hf hp => cases hpc
  | poll_open h hf hp => cases hpc
  | poll_failed h hf hp => cases hpc
  | lost h hk => cases hpc
  | report h => exact absurd hpc (hcallback _ _ _ (by simp))
  | forget h hk => cases hpc
  | @fetch candles _ engine h hlast hu =>
    cases hpc
    exact ⟨h, candles, engine, hlast, hu⟩
  | fetch_empty h hu => cases hpc
  | fetch_failed h hu => cases hpc
  | update h => exact absurd hpc (hcallback _ _ _ (by simp))

theorem Fed.silent {feed : List Query} {t t' : TimedRun σ ν} (h : Fed feed t)
    (hclock : t.clock ≤ t'.clock) (hpending : ∀ candle, t'.run.pc = .fetched candle →
      Query.Current { now := t'.queried, candle := candle } ∧ t'.queried ≤ t'.clock ∧
        ∀ q ∈ feed.getLast?, q.now + half_hour ≤ t'.queried) : Fed feed t' :=
  ⟨h.current, h.later, fun q hq => (h.rested q hq).trans hclock, hpending⟩

theorem fed_step (hnet : AnswersKlines net) {feed : List Query} {t t' : TimedRun σ ν} {now : ℤ}
    (hstep : Step S net p t now t') (h : Fed feed t) : Fed (feed ++ t.passed now) t' := by
  unfold Step step at hstep
  split at hstep
  swap
  · cases hstep
  rename_i hclock
  obtain ⟨r, hr, rfl⟩ := Option.map_eq_some_iff.mp hstep
  -- A step from another place than the request leads to no candle.
  have hother : t.run.pc ≠ .swept → ∀ candle, r.pc ≠ .fetched candle := fun hne candle hpc =>
    hne (fetched_of_step hr hpc).1
  unfold passed
  rcases hpc : t.run.pc with _ | it | k | k | _ | candle | fault <;> dsimp only
  · rw [List.append_nil]
    exact h.silent hclock fun c hc => absurd hc (hother (by simp [hpc]) c)
  · rw [List.append_nil]
    exact h.silent hclock fun c hc => absurd hc (hother (by simp [hpc]) c)
  · rw [List.append_nil]
    exact h.silent hclock fun c hc => absurd hc (hother (by simp [hpc]) c)
  · rw [List.append_nil]
    exact h.silent hclock fun c hc => absurd hc (hother (by simp [hpc]) c)
  · rw [List.append_nil]
    refine h.silent hclock fun c hc => ?_
    obtain ⟨_, candles, engine, hlast, hu⟩ := fetched_of_step hr hc
    obtain ⟨hopened, hcloses⟩ := (half_hours_of_use hnet hu).last hlast
    exact ⟨⟨hopened, hcloses⟩, le_refl now, fun q hq => (h.rested q hq).trans hclock⟩
  · -- The candle is passed, and the engine sleeps.
    obtain ⟨hcurrent, hqueried, hlater⟩ := h.pending candle hpc
    refine ⟨fun q hq => ?_, ?_, fun q hq => ?_, fun c hc => ?_⟩
    · rcases List.mem_append.mp hq with hq | hq
      · exact h.current q hq
      · rw [List.mem_singleton.mp hq]
        exact hcurrent
    · refine List.isChain_append.mpr ⟨h.later, List.isChain_singleton _, fun q hq q' hq' => ?_⟩
      cases hq'
      exact hlater q hq
    · rw [List.getLast?_concat] at hq
      cases hq
      exact Int.add_le_add_right (hqueried.trans hclock) _
    · exact absurd hc (hother (by simp [hpc]) c)
  · rw [List.append_nil]
    exact h.silent hclock fun c hc => absurd hc (hother (by simp [hpc]) c)

theorem fed_run (hnet : AnswersKlines net) {symbol : String} {broker : BinanceBroker} {world : ν}
    {strategy : σ} {clock : ℤ} {feed : List Query} {t : TimedRun σ ν}
    (h : Emits (Step S net p) passed (start symbol broker world strategy clock) feed t) :
    Fed feed t := by
  have hstart : Fed [] (start symbol broker world strategy clock : TimedRun σ ν) := by
    refine ⟨fun q hq => ?_, List.isChain_nil, fun q hq => ?_, fun c hc => ?_⟩
    · cases hq
    · cases hq
    · cases hc
  simpa using h.invariant (p := Fed) (fun _ _ _ _ hstep hfed => fed_step hnet hstep hfed) hstart

end TimedRun

/-! ## A run against an exchange -/

/-- The kline of the interval with the number `k`, at the price of one. -/
def half_hour_row (k : ℕ) : Json :=
  .arr [.num (k * 1800000), .str "1", .str "1", .str "1", .str "1", .str "1",
    .num (k * 1800000 + 1799999), .str "1", .num 1, .str "1", .str "1"]

def half_hour_candle (k : ℕ) : Candle where
  open_time := k * 1800000
  close_time := k * 1800000 + 1799999
  open_price := 1
  close_price := 1
  high_price := 1
  low_price := 1
  volume := 1
  quote_volume := 1
  traders := 1
  taker_buy_base := 1
  taker_buy_quote := 1

/-- The numbers of the intervals that start in the window. -/
def half_hours (start_time end_time : ℕ) : List ℕ :=
  (List.range' ((start_time + 1799999) / 1800000)
    (end_time / 1800000 + 1 - (start_time + 1799999) / 1800000))

/-- An instant that is not negative. -/
def read_instant (text : String) : Option ℕ :=
  if text.toList.all Char.isDigit then some (Nat.ofDigitChars 10 text.toList 0) else none

/-- An exchange that answers requests for klines only. -/
def kline_exchange : Net Unit
  | .connect_sync, w => (.connected, w)
  | .send_sync r, w =>
    match (r.param "startTime").bind read_instant, (r.param "endTime").bind read_instant with
    | some start_time, some end_time =>
      if end_time < 2 ^ 62 then
        (some { result := 200, body := .arr ((half_hours start_time end_time).map half_hour_row) },
          w)
      else (some { result := 400, body := .null }, w)
    | _, _ => (some { result := 400, body := .null }, w)

theorem get_kline_row {k : ℕ} (h : k * 1800000 < 2 ^ 62) :
    BinanceBroker.get_kline (half_hour_row k) = some (half_hour_candle k) := by
  have hone : get_double (.str "1") = some 1 := by decide +kernel
  have hopen : ((k : ℤ) * 1800000).bmod (2 ^ 64) = k * 1800000 := by
    apply Int.bmod_eq_of_le <;> omega
  have hclose : ((k : ℤ) * 1800000 + 1799999).bmod (2 ^ 64) = k * 1800000 + 1799999 := by
    apply Int.bmod_eq_of_le <;> omega
  simp [BinanceBroker.get_kline, half_hour_row, half_hour_candle, Json.item, Json.get_int64,
    Json.get_int, hone]
  exact ⟨hopen, hclose⟩

theorem read_rows {numbers : List ℕ} (h : ∀ k ∈ numbers, k * 1800000 < 2 ^ 62) :
    (numbers.map half_hour_row).mapM BinanceBroker.get_kline =
      some (numbers.map half_hour_candle) := by
  induction numbers with
  | nil => rfl
  | cons k rest ih =>
    rw [List.map_cons, List.mapM_cons, get_kline_row (h k List.mem_cons_self),
      ih fun j hj => h j (List.mem_cons_of_mem k hj)]
    rfl

theorem mem_half_hours {start_time end_time k : ℕ} :
    k ∈ half_hours start_time end_time ↔ start_time ≤ k * 1800000 ∧ k * 1800000 ≤ end_time := by
  unfold half_hours
  rw [List.mem_range'_1]
  omega

/-- The numbers of the window are the numbers of its klines. -/
theorem half_hours_window {now : ℤ} {start_time end_time : ℕ} (hstart : now - half_hour = start_time)
    (hend : now = end_time) :
    HalfHours (now - half_hour) now ((half_hours start_time end_time).map half_hour_candle) := by
  refine ⟨?_, fun t => ?_, ?_⟩
  · rw [List.pairwise_map]
    refine List.Pairwise.imp (fun hlt => ?_) List.pairwise_lt_range'
    simp only [half_hour_candle]
    omega
  · simp only [List.mem_map, exists_exists_and_eq_and, mem_half_hours, half_hour_candle]
    rw [hstart, hend]
    unfold half_hour
    constructor
    · rintro ⟨k, ⟨hlow, hhigh⟩, rfl⟩
      exact ⟨by omega, by omega, Dvd.intro_left _ rfl⟩
    · rintro ⟨hlow, hhigh, hd⟩
      exact ⟨(t / 1800000).toNat, ⟨by omega, by omega⟩, by omega⟩
  · intro candle hc
    obtain ⟨k, _, rfl⟩ := List.mem_map.mp hc
    simp only [half_hour_candle]
    unfold half_hour
    omega

theorem read_instant_eq (instant : ℤ) :
    read_instant (toString instant) = if 0 ≤ instant then some instant.toNat else none := by
  unfold read_instant
  by_cases h : 0 ≤ instant
  · have htext : toString instant = Nat.repr instant.toNat := by
      change Int.repr instant = _
      rw [Int.repr_eq_if, if_pos h]
    have hdigits : (Nat.repr instant.toNat).toList.all Char.isDigit = true := by
      rw [Nat.toList_repr, List.all_eq_true]
      intro c hc
      exact Nat.isDigit_of_mem_toDigits (by omega) (by omega) hc
    rw [htext, if_pos hdigits, if_pos h, Nat.toList_repr, Nat.ofDigitChars_ten_toDigits]
  · have htext : toString instant = "-" ++ Nat.repr (-instant).toNat := by
      change Int.repr instant = _
      rw [Int.repr_eq_if, if_neg h]
    rw [htext, if_neg h, if_neg]
    simp

theorem kline_exchange_answers : AnswersKlines kline_exchange := by
  intro now w response hsend hresult
  have hstart : (klines_request (now - half_hour) now).param "startTime" =
      some (toString (now - half_hour)) := rfl
  have hend : (klines_request (now - half_hour) now).param "endTime" = some (toString now) := rfl
  simp only [kline_exchange, hstart, hend, Option.bind_some, read_instant_eq] at hsend
  by_cases hneg : 0 ≤ now - half_hour
  · have hnow : 0 ≤ now := by
      unfold half_hour at hneg
      omega
    simp only [if_pos hneg, if_pos hnow] at hsend
    by_cases hsmall : now.toNat < 2 ^ 62
    · rw [if_pos hsmall] at hsend
      cases hsend
      refine ⟨_, read_rows fun k hk => ?_, half_hours_window (by omega) (by omega)⟩
      exact lt_of_le_of_lt (mem_half_hours.mp hk).2 hsmall
    · rw [if_neg hsmall] at hsend
      cases hsend
      cases hresult
  · simp only [if_neg hneg] at hsend
    cases hsend
    cases hresult

/-- A strategy that places no orders. -/
def idle_strategy : IStrategy Unit where
  update := fun _ s => .ret s
  on_order_filled := fun _ s => .ret s

/-- Two iterations, with 200 seconds of work between the sleep and the second query. -/
def two_iterations : List ℤ := List.replicate 4 3500000 ++ List.replicate 4 5500000

theorem two_iterations_feed : ∃ feed t,
    Emits (TimedRun.Step idle_strategy kline_exchange in_front) TimedRun.passed
      (TimedRun.start "BTCUSDT" {} () () 3500000) feed t ∧
    feed.map (fun q => (q.now, q.candle.open_time, q.candle.close_time)) =
      [(3500000, 1800000, 3599999), (5500000, 5400000, 7199999)] := by
  have h : ((replay_log (fun t now => TimedRun.step idle_strategy kline_exchange in_front now t)
      TimedRun.passed (fun _ _ => True) two_iterations
      (TimedRun.start "BTCUSDT" {} () () 3500000)).map fun x =>
        x.1.map fun q => (q.now, q.candle.open_time, q.candle.close_time)) =
      some [(3500000, 1800000, 3599999), (5500000, 5400000, 7199999)] := by
    decide +kernel
  obtain ⟨⟨feed, t⟩, hreplay, hfeed⟩ := Option.map_eq_some_iff.mp h
  have hemits := emits_of_replay (fun _ _ _ h => h) hreplay
  exact ⟨feed, t, hemits.mono fun _ _ _ hs => hs.1, hfeed⟩

/-! ## The law -/

/-- The candles were closed before their queries, and each one is the direct successor of the
one before it. -/
def CompletedCandles (feed : List Query) : Prop :=
  (∀ q ∈ feed, q.Closed) ∧ feed.IsChain Query.Next

/-- No candle that the live engine passes to the strategy is closed, so its feed is never a
stream of completed candles. The next candle is the direct successor exactly as long as the work
between two queries fits in what the interval of the first one had left. -/
theorem the_live_feed_is_never_a_stream_of_completed_candles {σ ν : Type} (S : IStrategy σ)
    (net : Net ν) (hnet : AnswersKlines net) (p : Placement OrderIndex TradeOrder)
    (symbol : String) (broker : BinanceBroker) (world : ν) (strategy : σ) (clock : ℤ)
    (feed : List Query) (t : TimedRun σ ν)
    (h : Emits (TimedRun.Step S net p) TimedRun.passed
      (TimedRun.start symbol broker world strategy clock) feed t) :
    (CompletedCandles feed ↔ feed = []) ∧ (∀ q ∈ feed, ¬ q.Closed) ∧
      ∀ (i : ℕ) (q q' : Query), feed[i]? = some q → feed[i + 1]? = some q' →
        0 ≤ q'.now - q.now - half_hour ∧
          (q.Next q' ↔ q.now % half_hour + (q'.now - q.now - half_hour) < half_hour) := by
  have hfed := TimedRun.fed_run hnet h
  have hopen : ∀ q ∈ feed, ¬ q.Closed := fun q hq => (hfed.current q hq).not_closed
  refine ⟨⟨fun hcompleted => ?_, ?_⟩, hopen, fun i q q' hq hq' => ?_⟩
  · apply List.eq_nil_iff_forall_not_mem.mpr
    intro q hq
    exact hopen q hq (hcompleted.1 q hq)
  · rintro rfl
    exact ⟨fun q hq => absurd hq List.not_mem_nil, List.isChain_nil⟩
  · have hlater : q.Later q' := by
      obtain ⟨hi, rfl⟩ := List.getElem?_eq_some_iff.mp hq
      obtain ⟨hi', rfl⟩ := List.getElem?_eq_some_iff.mp hq'
      exact List.isChain_iff_getElem.mp hfed.later i hi'
    have h1 := hfed.current q (List.mem_of_getElem? hq)
    have h2 := hfed.current q' (List.mem_of_getElem? hq')
    refine ⟨?_, h1.next_iff h2 hlater⟩
    unfold Query.Later at hlater
    omega

/-- Both candles of the run are passed while their intervals go on. -/
theorem two_iterations_pass_open_candles : ∃ feed t,
    Emits (TimedRun.Step idle_strategy kline_exchange in_front) TimedRun.passed
      (TimedRun.start "BTCUSDT" {} () () 3500000) feed t ∧
    feed.length = 2 ∧ ∀ q ∈ feed, ¬ q.Closed := by
  obtain ⟨feed, t, hemits, hfeed⟩ := two_iterations_feed
  have hlength : feed.length = 2 := by
    simpa using congrArg List.length hfeed
  exact ⟨feed, t, hemits, hlength, (the_live_feed_is_never_a_stream_of_completed_candles
    idle_strategy kline_exchange kline_exchange_answers in_front "BTCUSDT" {} () () 3500000 feed t
    hemits).2.1⟩

/-- The first query comes 100 seconds before the end of its interval. Its candle is not closed,
and the second candle is not the next one. -/
theorem a_late_query_skips_an_interval :
    AnswersKlines kline_exchange ∧ ∃ q q' t,
      Emits (TimedRun.Step idle_strategy kline_exchange in_front) TimedRun.passed
        (TimedRun.start "BTCUSDT" {} () () 3500000) [q, q'] t ∧
      ¬ q.Closed ∧ ¬ q.Next q' ∧ ¬ CompletedCandles [q, q'] := by
  obtain ⟨feed, t, hemits, hfeed⟩ := two_iterations_feed
  rcases feed with _ | ⟨q, _ | ⟨q', _ | ⟨q'', feed⟩⟩⟩
  · simp at hfeed
  · simp at hfeed
  · simp only [List.map_cons, List.map_nil, List.cons.injEq, Prod.mk.injEq, and_true] at hfeed
    obtain ⟨⟨hnow, hopen, hclose⟩, _, hopen', _⟩ := hfeed
    have hclosed : ¬ q.Closed := by
      unfold Query.Closed
      omega
    have hnext : ¬ q.Next q' := by
      unfold Query.Next half_hour
      omega
    exact ⟨kline_exchange_answers, q, q', t, hemits, hclosed, hnext, fun h =>
      hclosed (h.1 q List.mem_cons_self)⟩
  · simp at hfeed

end wedge
