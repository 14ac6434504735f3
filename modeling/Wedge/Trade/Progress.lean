-- The live process in front of an exchange that answers: it stops only when its
-- strategy stops it or grows the map under the loop, and the grid strategy does neither.
import Wedge.Binance.Answers
import Wedge.Trade.Tracking

namespace wedge

open programs containers runs

/-! ## What has to be answered -/

namespace TradeBroker

/-- An answer about the account is readable, and it has both assets. -/
def Readable (m : Market) : BrokerCall → TradeEngine Exchange → Prop
  | .account, e => ∃ balances, WritesAccount (m.info e.world.clock) balances ∧
      (free_amount balances "USDT").isSome ∧
      (free_amount balances (base_symbol e.symbol_)).isSome
  | .place _, _ => True
  | .cancel _, _ => True

/-- A call that the exchange can do what it asks for. -/
def Serves (m : Market) (op : BrokerCall) (e : TradeEngine Exchange) : Prop :=
  (Fair m op e ∧ Narrow op e) ∧ Readable m op e

end TradeBroker

/-- An engine that goes on: the client is ready, and the two stores are in step. -/
structure TradeEngine.Running (aside : Option OrderIndex) (e : TradeEngine Exchange) : Prop where
  ready : Market.Ready e.broker_
  tracks : e.Tracks aside

namespace TradeBroker

/-- A call that is served returns. -/
theorem serves_call {m : Market} (p : Placement OrderIndex TradeOrder) {aside : Option OrderIndex}
    (op : BrokerCall) (e : TradeEngine Exchange) (hc : Serves m op e) (h : e.Running aside) :
    ∃ a t, TradeBroker m.net p op e = (.ok a, t) ∧ t.Running aside := by
  have htracks := tracks_call p op e hc.1 h.tracks
  cases op with
  | place order =>
    rcases place_outcome m p e order hc.1.1.1 with h1 | ⟨hnot, _⟩
    · rw [h1] at htracks
      exact ⟨_, _, h1, h.ready, htracks⟩
    · exact absurd h.ready hnot
  | cancel index =>
    obtain ⟨⟨⟨_, order⟩, hm, rfl, ho⟩, hnarrow⟩ := hc.1
    rcases cancel_outcome m p e (Map.find_of_mem hm) (hnarrow _ hm rfl) ho with h1 | ⟨hnot, _⟩
    · rw [h1] at htracks
      exact ⟨_, _, h1, h.ready, htracks⟩
    · exact absurd h.ready hnot
  | account =>
    obtain ⟨balances, hbody, hbalance, hposition⟩ := hc.2
    obtain ⟨balance, hbalance⟩ := Option.isSome_iff_exists.mp hbalance
    obtain ⟨position, hposition⟩ := Option.isSome_iff_exists.mp hposition
    rcases Market.request_run e.broker_ (Market.handle_other (m := m) (x := e.world)
      (by decide : trade.Account.path ≠ "/api/v3/order")) with hrun | ⟨hnot, _⟩
    · have h1 := account_read p hrun hbody
      rw [hbalance, hposition] at h1
      rw [h1] at htracks
      exact ⟨_, _, h1, h.ready, htracks⟩
    · exact absurd h.ready hnot

end TradeBroker

/-- A poll returns. -/
theorem TradeEngine.Running.poll {e : TradeEngine Exchange} (h : e.Running none) (m : Market)
    {index : OrderIndex} {order : TradeOrder} (hm : (index, order) ∈ e.orders_) :
    ∃ filled t, e.poll m.net order = (.ok filled, t) ∧
      t.Running (if filled then some index else none) := by
  obtain ⟨s, hs⟩ := (h.tracks.settle m).known_state hm
  rcases TradeBroker.poll_outcome m e hs with h1 | ⟨hnot, _⟩
  · exact ⟨_, _, h1, h.ready, TradeBroker.tracks_poll h.tracks hm h1⟩
  · exact absurd h.ready hnot

/-! ## The runs -/

namespace TradeRun

variable {σ : Type} {S : IStrategy σ} {m : Market} {p : Placement OrderIndex TradeOrder}
  {own : Fault → Prop} {r r' : TradeRun σ Exchange}

/-- The calls of the next callback are served, and the next answer about klines is readable and
has one. -/
def Served (S : IStrategy σ) (m : Market) (p : Placement OrderIndex TradeOrder)
    (r : TradeRun σ Exchange) (now : ℤ) : Prop :=
  r.Callbacks S m.net p (TradeBroker.Serves m) now ∧
    (r.pc = .swept → ∃ k klines, WritesKlines (m.info r.engine.world.clock) (k :: klines))

/-- A run that goes on, or that its strategy has stopped. -/
def Running (own : Fault → Prop) (r : TradeRun σ Exchange) : Prop :=
  match r.pc with
  | .crashed fault => own fault
  | .visit (some k) => r.engine.Running none ∧ k ∈ r.engine.orders_.keys
  | _ => r.engine.Running r.aside

theorem running_visit {e : TradeEngine Exchange} (h : e.Running none) {iterator : Option OrderIndex}
    (hkeys : ∀ k, iterator = some k → k ∈ e.orders_.keys) :
    Running own { r with pc := .visit iterator, engine := e } := by
  unfold Running
  cases iterator with
  | none => exact h
  | some k => exact ⟨h, hkeys k rfl⟩

/-- A callback whose calls are served goes on, if its strategy does not stop it. -/
theorem running_callback {prog : StrategyProg σ} {pc : TradePc} {place : Option OrderIndex}
    (hprog : prog.Fails own)
    (hob : Obeys (TradeBroker m.net p) (TradeBroker.Serves m) prog r.engine)
    (h : r.engine.Running place)
    (hpc : ∀ t : TradeRun σ Exchange, t.pc = pc → t.engine.Running place → t.Running own) :
    (r.callback m.net p prog pc).Running own := by
  unfold callback
  rcases hob.ends (fun op e hc he => TradeBroker.serves_call p op e hc he) hprog h with
    ⟨s, t, hrun, ht⟩ | ⟨fault, t, hrun, hown⟩
  · rw [hrun]
    exact hpc _ rfl ht
  · rw [hrun]
    exact hown

/-- The answer about klines that is readable is read. -/
theorem fetch_served {e : TradeEngine Exchange} {k : Kline} {klines : List Kline}
    (hready : Market.Ready e.broker_) (now : ℤ)
    (hbody : WritesKlines (m.info e.world.clock) (k :: klines)) :
    e.use m.net (e.broker_.get_klines "BTCUSDT" "30m" (now - 1800000) now) =
      (.ok ((k :: klines).map Kline.candle), e.settled m) := by
  have hhandle : ∀ r : Request, r.path = "/api/v3/klines" →
      m.handle r e.world = ({ result := 200, body := m.info e.world.clock }, m.settle e.world) :=
    fun r hr => Market.handle_other (by simp [hr])
  obtain ⟨r, hr, hpath⟩ : ∃ r, market.Klines "BTCUSDT" (market.from_str "30m") = some r ∧
      r.path = "/api/v3/klines" := ⟨_, rfl, rfl⟩
  rcases Market.request_until_run e.broker_ (hhandle (market.limit 1000 <|
    market.end_time now <| market.start_time (now - 1800000) r) hpath) with hrun | ⟨hnot, _⟩
  · unfold TradeEngine.use
    rw [get_klines_read hr hrun hbody]
    rfl
  · exact absurd hready hnot

theorem running_step (hupdate : ∀ candle s, (S.update candle s).Fails own)
    (hfilled : ∀ index s, (S.on_order_filled index s).Fails own) {now : ℤ}
    (hstep : Where (Step S m.net p) (Served S m p) r now r') (h : r.Running own) :
    r'.Running own := by
  obtain ⟨hstep, hcalls, hklines⟩ := hstep
  unfold Callbacks at hcalls
  unfold Running at h
  cases step_moves hstep with
  | start hpc =>
    simp only [hpc, aside] at h
    exact running_visit h fun k hk => Map.first_mem hk
  | finish hpc =>
    simp only [hpc, aside] at h
    exact h
  | @poll_filled k order engine hpc hfind hpoll =>
    simp only [hpc] at h
    obtain ⟨filled, t, h1, ht⟩ := h.1.poll m (Map.mem_of_find hfind)
    cases hpoll.symm.trans h1
    exact ht
  | @poll_open k order engine hpc hfind hpoll =>
    simp only [hpc] at h
    obtain ⟨filled, t, h1, ht⟩ := h.1.poll m (Map.mem_of_find hfind)
    cases hpoll.symm.trans h1
    exact running_visit ht fun j hj => (Map.next_mem hj).1
  | @poll_failed k order engine fault hpc hfind hpoll =>
    simp only [hpc] at h
    obtain ⟨filled, t, h1, _⟩ := h.1.poll m (Map.mem_of_find hfind)
    cases hpoll.symm.trans h1
  | @lost k hpc hk =>
    rcases hpc with hpc | hpc <;> simp only [hpc, aside] at h
    · exact absurd h.2 hk
    · exact absurd (h.tracks.aside_kept k rfl) hk
  | @report k hpc =>
    rw [hpc] at hcalls
    simp only [hpc, aside] at h
    refine running_callback (r := { r with reported := r.reported ++ [k] }) (hfilled _ _) hcalls h
      fun t ht hrunning => ?_
    simpa only [Running, ht, aside] using hrunning
  | @forget k hpc hk =>
    simp only [hpc, aside] at h
    have hforget : TradeEngine.Running none { r.engine with
        orders_ := r.engine.orders_.erase k } := ⟨h.ready, h.tracks.forget⟩
    exact running_visit hforget fun j hj => Map.mem_keys_erase.mpr (Map.next_mem hj)
  | @fetch candles candle engine hpc _ huse =>
    simp only [hpc, aside] at h
    obtain ⟨k, klines, hbody⟩ := hklines hpc
    cases huse.symm.trans (fetch_served h.ready now hbody)
    exact ⟨h.ready, h.tracks.settle m⟩
  | fetch_empty hpc huse =>
    simp only [hpc, aside] at h
    obtain ⟨k, klines, hbody⟩ := hklines hpc
    cases huse.symm.trans (fetch_served h.ready now hbody)
  | fetch_failed hpc huse =>
    simp only [hpc, aside] at h
    obtain ⟨k, klines, hbody⟩ := hklines hpc
    cases huse.symm.trans (fetch_served h.ready now hbody)
  | update hpc =>
    rw [hpc] at hcalls
    simp only [hpc, aside] at h
    refine running_callback (hupdate _ _) hcalls h fun t ht hrunning => ?_
    simpa only [Running, ht, aside] using hrunning

/-- Only a crash is the end. -/
theorem exists_step (S : IStrategy σ) {ν : Type} (net : Net ν)
    (p : Placement OrderIndex TradeOrder) {r : TradeRun σ ν}
    (h : ∀ fault, r.pc ≠ .crashed fault) (now : ℤ) : ∃ r', Step S net p r now r' := by
  unfold Step
  rw [← Option.isSome_iff_exists]
  unfold step
  split
  · rfl
  · rfl
  · split
    · rfl
    · split <;> rfl
  · rfl
  · split_ifs <;> rfl
  · split
    · split <;> rfl
    · rfl
  · rfl
  · rename_i fault hpc
    exact absurd hpc (h fault)

end TradeRun

/-! ## The room of the map

`update_orders` keeps an iterator of the `unordered_map` while the strategy is told about a fill. An
`emplace` leaves the iterators valid as long as it makes no rehash. -/

/-- The map takes a new entry without a rehash, since it has fewer than `room` entries. -/
def HasRoom {ν : Type} (room : ℕ) : BrokerCall → TradeEngine ν → Prop
  | .place _, e => e.orders_.keys.length < room
  | _, _ => True

instance {ν : Type} (room : ℕ) (op : BrokerCall) (e : TradeEngine ν) :
    Decidable (HasRoom room op e) :=
  match op with
  | .place _ => Nat.decLt _ _
  | .cancel _ => .isTrue trivial
  | .account => .isTrue trivial

namespace TradeRun

variable {σ ν : Type}

/-- The order that the next callback is about. -/
def told (r : TradeRun σ ν) : Option OrderIndex :=
  match r.pc with
  | .filled index => some index
  | _ => none

/-- The next callback about a fill leaves the iterator of the loop valid. -/
def KeepsIterator (S : IStrategy σ) (net : Net ν) (p : Placement OrderIndex TradeOrder) (room : ℕ)
    (r : TradeRun σ ν) : Prop :=
  ∀ index ∈ r.told,
    Obeys (TradeBroker net p) (HasRoom room) (S.on_order_filled index r.strategy) r.engine

instance (S : IStrategy σ) (net : Net ν) (p : Placement OrderIndex TradeOrder) (room : ℕ)
    (r : TradeRun σ ν) : Decidable (r.KeepsIterator S net p room) :=
  inferInstanceAs (Decidable (∀ index ∈ r.told, _))

/-- One step, when the map can hold `room` entries. The erasure behind a callback is undefined if
the callback has made a rehash. -/
def room_step (S : IStrategy σ) (net : Net ν) (p : Placement OrderIndex TradeOrder) (room : ℕ)
    (now : ℤ) (r : TradeRun σ ν) : Option (TradeRun σ ν) :=
  (r.step S net p now).map fun next =>
    if r.KeepsIterator S net p room then next
    else match next.pc with
      | .crashed _ => next
      | _ => { next with pc := .crashed .undefined }

def RoomStep (S : IStrategy σ) (net : Net ν) (p : Placement OrderIndex TradeOrder) (room : ℕ)
    (r : TradeRun σ ν) (now : ℤ) (r' : TradeRun σ ν) : Prop :=
  r.room_step S net p room now = some r'

theorem RoomStep.step {S : IStrategy σ} {net : Net ν} {p : Placement OrderIndex TradeOrder}
    {room : ℕ} {r r' : TradeRun σ ν} {now : ℤ} (h : RoomStep S net p room r now r')
    (hkeeps : r.KeepsIterator S net p room) : Step S net p r now r' := by
  obtain ⟨next, hstep, heq⟩ := Option.map_eq_some_iff.mp h
  rw [if_pos hkeeps] at heq
  exact heq ▸ hstep

end TradeRun

section room

variable {σ ν : Type} (net : Net ν) (p : Placement OrderIndex TradeOrder)

/-- A call adds no more entries to the map than it costs. -/
theorem TradeBroker.entries_le {op : BrokerCall} {e t : TradeEngine ν} {a : op.Answer}
    (ho : TradeBroker net p op e = (.ok a, t)) :
    t.orders_.keys.length ≤ e.orders_.keys.length + op.entries := by
  cases op with
  | place order =>
    rcases TradeBroker.place_cases net p e order with ⟨id, w, _, h⟩ | ⟨fault, w, _, h⟩ <;>
      cases ho.symm.trans h
    exact p.length_emplace_le _ _ _
  | cancel index =>
    rcases hf : e.orders_.find index with _ | order
    · cases ho.symm.trans (TradeBroker.cancel_unknown net p e hf)
    · rcases TradeBroker.cancel_cases net p e hf with ⟨w, _, h⟩ | ⟨fault, w, _, h⟩ <;>
        cases ho.symm.trans h
      exact Map.length_erase_le _ _
  | account =>
    obtain ⟨w, _, hcases⟩ := TradeBroker.account_cases net p e
    rcases hcases with ⟨b, h⟩ | h | ⟨fault, _, h⟩ <;> cases ho.symm.trans h
    exact le_rfl

/-- A program whose orders fit in the map makes no rehash. -/
theorem has_room {n room : ℕ} {prog : StrategyProg σ} (hprog : prog.Spends BrokerCall.entries n)
    {e : TradeEngine ν} (hroom : e.orders_.keys.length + n ≤ room) :
    Obeys (TradeBroker net p) (HasRoom room) prog e := by
  have hobeys : Obeys (TradeBroker net p)
      (fun op e => e.orders_.keys.length + op.entries ≤ room) prog e :=
    hprog.obeys (fun _ _ _ _ ho => TradeBroker.entries_le net p ho) hroom
  refine hobeys.mono fun op e h => ?_
  cases op with
  | place order => exact h
  | cancel index => trivial
  | account => trivial

end room

/-! ## The grid strategy -/

namespace GridStrategy

/-- A report places two orders. -/
theorem spends_on_order_filled (to_float : ℚ → ℚ) (index : OrderIndex) (g : GridStrategy) :
    (g.on_order_filled to_float index).Spends BrokerCall.entries 2 := by
  have hbuy (price volume : ℚ) (g : GridStrategy) :
      (g.place_buy_order price volume).Spends BrokerCall.entries 1 := by
    unfold place_buy_order
    split_ifs
    · trivial
    · exact ⟨le_rfl, fun _ => trivial⟩
  have hsell (price volume : ℚ) (g : GridStrategy) :
      (g.place_sell_order price volume).Spends BrokerCall.entries 1 := by
    unfold place_sell_order
    split_ifs
    · trivial
    · exact ⟨le_rfl, fun _ => trivial⟩
  have hcancel (g : GridStrategy) : g.cancel_all_orders.Spends BrokerCall.entries (0 + 0) := by
    refine Prog.Spends.bind ?_ fun g' => ?_
    · unfold cancel_buy_order
      split
      · trivial
      · exact ⟨le_rfl, fun _ => trivial⟩
    · unfold cancel_sell_order
      split
      · trivial
      · exact ⟨le_rfl, fun _ => trivial⟩
  unfold on_order_filled
  dsimp only
  split
  · trivial
  · exact (hcancel _).bind fun g' => (hsell _ _ g').bind fun g'' => hbuy _ _ g''

/-- The strategy has at most two orders, and it places two more in a report. -/
theorem keeps_iterator {ν : Type} {to_float : ℚ → ℚ} {net : Net ν}
    {p : Placement OrderIndex TradeOrder} {room : ℕ} (hroom : 4 ≤ room)
    {r : TradeRun GridStrategy ν} (h : r.Sound) :
    r.KeepsIterator (grid_strategy to_float) net p room := by
  intro index hmem
  have hpc : r.pc = .filled index := by
    unfold TradeRun.told at hmem
    split at hmem <;> cases hmem
    assumption
  rw [TradeRun.Sound, hpc] at h
  have hslots : r.strategy.slots.length ≤ 2 := by
    unfold slots
    rw [List.length_append]
    exact Nat.add_le_add Option.length_toList_le Option.length_toList_le
  have hkeys := h.1.coupled.keys_perm.length_eq
  rw [TradeEngine.keys_tracked] at hkeys
  refine has_room net p (spends_on_order_filled to_float index r.strategy) ?_
  rw [hkeys]
  simp only [Option.toList_none, List.map_nil, List.nil_append, List.length_map]
  omega

/-- The grid strategy fails with an assertion only. -/
theorem fails_place_buy_order (price volume : ℚ) (g : GridStrategy) :
    (g.place_buy_order price volume).Fails (· = .assertion) := by
  unfold place_buy_order
  split_ifs
  · exact rfl
  · exact fun _ => trivial

theorem fails_place_sell_order (price volume : ℚ) (g : GridStrategy) :
    (g.place_sell_order price volume).Fails (· = .assertion) := by
  unfold place_sell_order
  split_ifs
  · exact rfl
  · exact fun _ => trivial

theorem fails_cancel_all_orders (g : GridStrategy) :
    g.cancel_all_orders.Fails (· = .assertion) := by
  refine Prog.Fails.bind ?_ fun g' => ?_
  · unfold cancel_buy_order
    split
    · trivial
    · exact fun _ => trivial
  · unfold cancel_sell_order
    split
    · trivial
    · exact fun _ => trivial

theorem fails_place_initial_orders (current_price : ℚ) (g : GridStrategy) :
    (g.place_initial_orders current_price).Fails (· = .assertion) := by
  refine Prog.Fails.bind (p := IBroker.account) (fun _ => trivial) fun account => ?_
  dsimp only
  split_ifs
  · exact fails_place_buy_order _ _ _
  · exact fails_place_sell_order _ _ _
  · exact fails_place_buy_order _ _ _

theorem fails_update (candle : Candle) (g : GridStrategy) :
    (g.update candle).Fails (· = .assertion) := by
  unfold update
  dsimp only
  split
  · trivial
  · split_ifs
    · exact fails_cancel_all_orders _
    · exact fails_place_initial_orders _ _
    · exact (fails_cancel_all_orders _).bind fun g' => fails_place_initial_orders _ g'
    · trivial

theorem fails_on_order_filled (to_float : ℚ → ℚ) (index : OrderIndex) (g : GridStrategy) :
    (g.on_order_filled to_float index).Fails (· = .assertion) := by
  unfold on_order_filled
  dsimp only
  split
  · exact rfl
  · refine (fails_cancel_all_orders _).bind fun g' => ?_
    exact (fails_place_sell_order _ _ g').bind fun g'' => fails_place_buy_order _ _ g''

end GridStrategy

/-- In front of an exchange that does what it is asked for, the live process of a strategy that
makes no rehash while it is told about a fill stops only with a failure of the strategy. The grid
strategy has none and makes none where there is room for four orders, and its process runs on. -/
theorem the_live_process_runs_on (m : Market) (p : Placement OrderIndex TradeOrder) (room : ℕ)
    (symbol : String) (broker : BinanceBroker) (hready : Market.Ready broker) :
    (∀ (σ : Type) (S : IStrategy σ) (own : Fault → Prop),
      (∀ candle s, (S.update candle s).Fails own) →
      (∀ index s, (S.on_order_filled index s).Fails own) →
      ∀ (strategy : σ) (times : List ℤ) (r : TradeRun σ Exchange),
      Run (Where (TradeRun.RoomStep S m.net p room) fun r now =>
          r.Served S m p now ∧ r.KeepsIterator S m.net p room)
        (TradeRun.start symbol broker {} strategy) times r →
      ∀ fault, r.pc = .crashed fault → own fault) ∧
    (4 ≤ room → ∀ (to_float : ℚ → ℚ) (json : StrategyConfig) (volume : ℚ) (times : List ℤ)
      (r : TradeRun GridStrategy Exchange),
      Run (Where (TradeRun.RoomStep (grid_strategy to_float) m.net p room)
        (TradeRun.Served (grid_strategy to_float) m p))
        (TradeRun.start symbol broker {} (GridStrategy.start volume json)) times r →
      ∀ now, ∃ r', TradeRun.RoomStep (grid_strategy to_float) m.net p room r now r') := by
  have hstart : ∀ (σ : Type) (own : Fault → Prop) (strategy : σ),
      (TradeRun.start symbol broker ({} : Exchange) strategy).Running own :=
    fun _ _ _ => ⟨hready, .init symbol broker⟩
  constructor
  · intro σ S own hupdate hfilled strategy times r hrun fault hpc
    have hr := hrun.invariant (p := TradeRun.Running own) (fun _ _ _ hstep hs =>
      TradeRun.running_step hupdate hfilled ⟨hstep.1.step hstep.2.2, hstep.2.1⟩ hs)
      (hstart σ own strategy)
    simpa only [TradeRun.Running, hpc] using hr
  · intro hroom to_float json volume times r hrun now
    obtain ⟨hsound, hrunning⟩ := hrun.invariant
      (p := fun r => r.Sound ∧ r.Running (· = .assertion))
      (fun _ _ _ hstep hs => by
        have hone := hstep.1.step (GridStrategy.keeps_iterator hroom hs.1)
        exact ⟨TradeRun.sound_step hone hs.1, TradeRun.running_step GridStrategy.fails_update
          (GridStrategy.fails_on_order_filled to_float) ⟨hone, hstep.2⟩ hs.2⟩)
      ⟨⟨fun _ hi => absurd hi List.not_mem_nil, Coupled.start volume json⟩, hstart _ _ _⟩
    obtain ⟨next, hstep⟩ := TradeRun.exists_step (grid_strategy to_float) m.net p
      (fun fault hpc => by
        rw [TradeRun.Running, hpc] at hrunning
        rw [TradeRun.Sound, hpc] at hsound
        exact hsound hrunning) now
    exact ⟨_, Option.map_eq_some_iff.mpr ⟨next, hstep, rfl⟩⟩

def kline_of_100 : Kline := { one_kline with close_price := eight_places ⟨10000000000, by decide⟩ }

/-- A market that answers the second request with an account and the others with a kline. -/
def served_market (trades : ℕ → ℕ → Execution) : Market where
  next_id := id
  trades := trades
  info clock :=
    if clock = 1 then .obj [("balances", .arr (two_balances.map Balance.json))]
    else .arr [kline_of_100.row []]

/-- The calls that this market serves. -/
def InOrder (m : Market) (op : BrokerCall) (e : TradeEngine Exchange) : Prop :=
  (TradeBroker.Fair m op e ∧ TradeBroker.Narrow op e) ∧
    (op = .account → e.world.clock = 1 ∧ e.symbol_ = "BTCUSDT")

instance (m : Market) (op : BrokerCall) (e : TradeEngine Exchange) : Decidable (InOrder m op e) :=
  inferInstanceAs (Decidable (_ ∧ _))

theorem serves_in_order {trades : ℕ → ℕ → Execution} (op : BrokerCall)
    (e : TradeEngine Exchange) (h : InOrder (served_market trades) op e) :
    TradeBroker.Serves (served_market trades) op e := by
  refine ⟨h.1, ?_⟩
  cases op with
  | place order => trivial
  | cancel index => trivial
  | account =>
    obtain ⟨hclock, hsymbol⟩ := h.2 rfl
    have hinfo : (served_market trades).info e.world.clock =
        .obj [("balances", .arr (two_balances.map Balance.json))] := if_pos hclock
    refine ⟨two_balances, ⟨_, _, hinfo, rfl, ?_⟩, by decide, ?_⟩
    · exact .cons ⟨_, rfl, rfl, rfl, rfl⟩ (.cons ⟨_, rfl, rfl, rfl, rfl⟩ .nil)
    · rw [hsymbol]
      decide

/-- The grid has two fills and cancels one order, and its process goes on in front of a map that can
hold 13 entries. -/
theorem a_grid_runs_on_after_two_fills :
    ∃ r : TradeRun GridStrategy Exchange, r.reported = [0, 2] ∧ r.engine.canceled = [4] ∧
      ∀ now, ∃ r', TradeRun.RoomStep (grid_strategy id) (served_market fun clock order_id =>
        if clock = 3 ∧ order_id = 2 ∨ clock = 7 ∧ order_id = 5 then .fully else .nothing).net
        in_front 13 r now r' := by
  generalize htrades : (fun clock order_id =>
    if clock = 3 ∧ order_id = 2 ∨ clock = 7 ∧ order_id = 5 then .fully else .nothing :
      ℕ → ℕ → Execution) = trades
  have hrun : ((replay (fun r now => r.room_step (grid_strategy id) (served_market trades).net
        in_front 13 now)
      (fun r now => TradeRun.Callbacks (grid_strategy id) (served_market trades).net in_front
        (InOrder (served_market trades)) r now ∧ (r.pc = .swept → r.engine.world.clock ≠ 1))
      (List.replicate 14 0) (TradeRun.start "BTCUSDT" retry_broker {}
        (GridStrategy.start 0 warm_config))).map
        fun r => (r.reported, r.engine.canceled)) = some ([0, 2], [4]) := by
    subst htrades
    decide +kernel
  obtain ⟨r, hr, heq⟩ := Option.map_eq_some_iff.mp hrun
  obtain ⟨hreported, hcanceled⟩ := Prod.mk.inj heq
  obtain ⟨_, hgoes⟩ := the_live_process_runs_on (served_market trades) in_front 13 "BTCUSDT"
    retry_broker ⟨rfl, by decide⟩
  refine ⟨r, hreported, hcanceled, hgoes (by decide) id warm_config 0 (List.replicate 14 0) r ?_⟩
  refine (run_of_replay (fun _ _ _ h => h) hr).mono ?_
  rintro s now t ⟨hstep, hcalls, hclock⟩
  refine ⟨hstep, ?_, fun hpc => ⟨kline_of_100, [], _, if_neg (hclock hpc), ?_⟩⟩
  · unfold TradeRun.Callbacks at hcalls ⊢
    split at hcalls
    · exact hcalls.mono serves_in_order
    · exact hcalls.mono serves_in_order
    · trivial
  · exact .cons ⟨_, rfl⟩ .nil

end wedge
