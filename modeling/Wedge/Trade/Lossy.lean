-- The live engine over a network that loses requests and answers. An order that is
-- created while its answer is lost stays on the exchange, and the engine does not
-- know it. Nor does it know the orders of an earlier process.
import Wedge.Binance.Delivery
import Wedge.Trade.Tracking

namespace wedge

open programs containers

variable {ν : Type}

/-! ## What one request does to the orders -/

namespace Market

variable (m : Market)

/-- The network that always delivers is one of them. -/
theorem lossy_net : Lossy m.net id m.handle :=
  ⟨fun _ => rfl, fun _ _ => Or.inr ⟨Or.inr rfl, rfl⟩⟩

/-- What becomes of the orders: what is known stays known, what is filled stays filled, and only
the named orders are canceled. -/
structure Onward (named : ℕ → Prop) (x x' : Exchange) : Prop where
  known : ∀ order_id, x.state order_id ≠ none → x'.state order_id ≠ none
  filled : ∀ order_id, x.is_filled order_id → x'.is_filled order_id
  canceled : ∀ order_id, x'.state order_id = some .canceled →
    x.state order_id = some .canceled ∨ named order_id

namespace Onward

variable {named named' : ℕ → Prop} {x x' x'' : Exchange}

theorem refl (named : ℕ → Prop) (x : Exchange) : Onward named x x :=
  ⟨fun _ h => h, fun _ h => h, fun _ h => Or.inl h⟩

theorem trans (h : Onward named x x') (h' : Onward named x' x'') : Onward named x x'' := by
  refine ⟨fun id hid => h'.known id (h.known id hid), fun id hid => h'.filled id (h.filled id hid),
    fun id hid => ?_⟩
  rcases h'.canceled id hid with h1 | h1
  · exact h.canceled id h1
  · exact Or.inr h1

theorem mono (h : Onward named x x') (himp : ∀ order_id, named order_id → named' order_id) :
    Onward named' x x' :=
  ⟨h.known, h.filled, fun id hid => (h.canceled id hid).imp_right (himp id)⟩

theorem settle (m : Market) (named : ℕ → Prop) (x : Exchange) : Onward named x (m.settle x) := by
  refine ⟨fun id hid hnone => hid ?_, fun id hid => m.settle_closed hid rfl, fun id hid => ?_⟩
  · rwa [state_settle, Option.map_eq_none_iff] at hnone
  · rw [state_settle, Option.map_eq_some_iff] at hid
    obtain ⟨s, hs, he⟩ := hid
    left
    cases hopen : s.is_open with
    | true =>
      rcases OrderState.execute_open hopen (m.trades x.clock id) with h1 | h1
      · rw [he] at h1
        cases h1
      · rw [he] at h1
        cases h1
    | false => rw [hs, ← he, OrderState.execute_closed hopen]

/-- The list of cancel requests is no part of the orders. -/
theorem requested (m : Market) (named : ℕ → Prop) (x : Exchange) (cancels : List ℕ) :
    Onward named x { m.settle x with cancels := cancels } :=
  ⟨(settle m named x).known, (settle m named x).filled, (settle m named x).canceled⟩

/-- Whether the id is new plays no part. -/
theorem create (named : ℕ → Prop) (order_id : ℕ) (x : Exchange) :
    Onward named x (x.create order_id) := by
  have hstate : ∀ id, (x.create order_id).state id =
      (x.state id).or ([(order_id, OrderState.new)].lookup id) :=
    fun id => List.lookup_append
  refine ⟨fun id hid => ?_, fun id hid => ?_, fun id hid => Or.inl ?_⟩
  · rw [hstate]
    obtain ⟨s, hs⟩ := Option.ne_none_iff_exists'.mp hid
    simp [hs]
  · unfold Exchange.is_filled at hid ⊢
    rw [hstate, hid]
    rfl
  · rw [hstate, Option.or_eq_some_iff] at hid
    rcases hid with h1 | ⟨_, h1⟩
    · exact h1
    · rw [List.lookup_cons] at h1
      split at h1 <;> cases h1

/-- A cancel of an open order. -/
theorem close {named : ℕ → Prop} {order_id : ℕ} {x : Exchange} (hopen : x.is_open order_id)
    (hnamed : named order_id) : Onward named x (x.close order_id) := by
  refine ⟨fun id hid hnone => hid ?_, fun id hid => ?_, fun id hid => ?_⟩
  · rwa [state_close, Option.map_eq_none_iff] at hnone
  · refine filled_close.mpr ⟨hid, ?_⟩
    rintro rfl
    exact not_open_of_filled hid hopen
  · rw [state_close, Option.map_eq_some_iff] at hid
    obtain ⟨s, hs, he⟩ := hid
    split at he
    · rename_i heq
      exact Or.inr (heq ▸ hnamed)
    · exact Or.inl (he ▸ hs)

end Onward

/-- The ids that the exchange still gives out, up to its `N`-th request, are new 64-bit numbers,
and they differ. -/
structure Unused (N : ℕ) (x : Exchange) : Prop where
  small : ∀ clock < N, m.next_id clock < 2 ^ 64
  distinct : ∀ c c', x.clock ≤ c → c < N → x.clock ≤ c' → c' < N →
    m.next_id c = m.next_id c' → c = c'
  unknown : ∀ c, x.clock ≤ c → c < N → x.state (m.next_id c) = none

variable {m} {N : ℕ}

theorem Unused.settle {x : Exchange} (h : m.Unused N x) : m.Unused N (m.settle x) := by
  refine ⟨h.small, fun c c' hc hn hc' hn' => ?_, fun c hc hn => ?_⟩
  · exact h.distinct c c' (Nat.le_of_succ_le hc) hn (Nat.le_of_succ_le hc') hn'
  · rw [state_settle, h.unknown c (Nat.le_of_succ_le hc) hn]
    rfl

/-- The id of the new order is not given out again. -/
theorem Unused.create {x : Exchange} (h : m.Unused N x) :
    m.Unused N ((m.settle x).create (m.next_id x.clock)) := by
  refine ⟨h.settle.small, h.settle.distinct, fun c hc hn => ?_⟩
  have hlt : x.clock < c := hc
  have hnew : (m.settle x).state (m.next_id x.clock) = none := by
    rw [state_settle, h.unknown x.clock (Nat.le_refl _) (hlt.trans hn)]
    rfl
  rw [state_create _ _ _ hnew, if_neg]
  · exact h.settle.unknown c hc hn
  · intro heq
    exact hlt.ne' (h.distinct c x.clock hlt.le hn (Nat.le_refl _) (hlt.trans hn) heq)

theorem Unused.requested {x : Exchange} (h : m.Unused N x) (cancels : List ℕ) :
    m.Unused N { m.settle x with cancels := cancels } :=
  ⟨h.settle.small, h.settle.distinct, h.settle.unknown⟩

theorem Unused.close {x : Exchange} (h : m.Unused N x) (order_id : ℕ) :
    m.Unused N (x.close order_id) := by
  refine ⟨h.small, h.distinct, fun c hc hn => ?_⟩
  rw [state_close, h.unknown c hc hn]
  rfl

/-- All that the exchange can do to its orders for one request. -/
theorem handle_cases (r : Request) (x : Exchange) :
    (m.handle r x).2 = m.settle x ∨
    (r.method = .post ∧ (m.handle r x).1 =
        { result := 200, body := .obj [("orderId", .num (m.next_id x.clock))] } ∧
      (m.handle r x).2 = (m.settle x).create (m.next_id x.clock)) ∨
    ∃ order_id, r.method = .delete_ ∧ requested r = some order_id ∧
      ((m.handle r x).2 = { m.settle x with cancels := x.cancels ++ [order_id] } ∨
        (m.settle x).is_open order_id ∧ (m.handle r x).2 =
          { m.settle x with cancels := x.cancels ++ [order_id] }.close order_id) := by
  by_cases hp : r.path = "/api/v3/order"
  · rw [handle_order hp]
    rcases hm : r.method with _ | _ | _ | _ <;> rcases hr : requested r with _ | order_id
    · exact Or.inl rfl
    · left
      simp only [answer]
      split <;> rfl
    · exact Or.inr (Or.inl ⟨rfl, rfl, rfl⟩)
    · exact Or.inr (Or.inl ⟨rfl, rfl, rfl⟩)
    · exact Or.inl rfl
    · refine Or.inr (Or.inr ⟨order_id, rfl, rfl, ?_⟩)
      by_cases hopen : (m.settle x).is_open order_id
      · exact Or.inr ⟨hopen, congrArg Prod.snd (if_pos hopen)⟩
      · exact Or.inl (congrArg Prod.snd (if_neg hopen))
    · exact Or.inl rfl
    · exact Or.inl rfl
  · rw [handle_other hp]
    exact Or.inl rfl

/-- The orders that a request asks to cancel. -/
def Names (r : Request) (order_id : ℕ) : Prop := r.method = .delete_ ∧ requested r = some order_id

theorem onward_handle (r : Request) (x : Exchange) : Onward (Names r) x (m.handle r x).2 := by
  rcases m.handle_cases r x with h | ⟨_, _, h⟩ | ⟨order_id, hm, hr, h | ⟨hopen, h⟩⟩ <;> rw [h]
  · exact .settle m _ x
  · exact (Onward.settle m _ x).trans (.create _ _ _)
  · exact .requested m _ x _
  · exact (Onward.requested m _ x _).trans (.close hopen ⟨hm, hr⟩)

theorem Unused.handle {x : Exchange} (h : m.Unused N x) (r : Request) :
    m.Unused N (m.handle r x).2 := by
  rcases m.handle_cases r x with h' | ⟨_, _, h'⟩ | ⟨order_id, _, _, h' | ⟨_, h'⟩⟩ <;> rw [h']
  · exact h.settle
  · exact h.create
  · exact h.requested _
  · exact (h.requested _).close order_id

theorem clock_handle (r : Request) (x : Exchange) : (m.handle r x).2.clock = x.clock + 1 := by
  rcases m.handle_cases r x with h | ⟨_, _, h⟩ | ⟨order_id, _, _, h | ⟨_, h⟩⟩ <;> rw [h] <;> rfl

theorem onward_handled (r : Request) (k : ℕ) (x : Exchange) :
    Onward (Names r) x (handled m.handle r k x) :=
  handled_keeps (p := Onward (Names r) x) (fun _ h => h.trans (onward_handle r _)) k (.refl _ x)

theorem Unused.handled {x : Exchange} (h : m.Unused N x) (r : Request) (k : ℕ) :
    m.Unused N (handled m.handle r k x) :=
  handled_keeps (p := m.Unused N) (fun _ h => h.handle r) k h

theorem clock_handled (r : Request) (k : ℕ) (x : Exchange) :
    x.clock ≤ (handled m.handle r k x).clock :=
  handled_keeps (p := fun y => x.clock ≤ y.clock)
    (fun y h => h.trans ((Nat.le_succ _).trans (clock_handle r y).ge)) k (Nat.le_refl _)

/-! ## The calls of the client -/

section calls

variable {net : Net ν} {exchange : ν → Exchange}

/-- The exchange after a call of the client. -/
structure After (m : Market) (N : ℕ) (exchange : ν → Exchange) (named : ℕ → Prop) (w w' : ν) :
    Prop where
  onward : Onward named (exchange w) (exchange w')
  clock : (exchange w).clock ≤ (exchange w').clock
  unused : m.Unused N (exchange w) → m.Unused N (exchange w')

theorem after_served {α : Type} {r : Request} {read : Json → Option α} {w : ν}
    {out : Except Fault α × ν} (h : Served exchange m.handle r read w out) {named : ℕ → Prop}
    (hnamed : ∀ order_id, Names r order_id → named order_id) :
    After m N exchange named w out.2 := by
  obtain ⟨k, hx, _⟩ := h
  refine ⟨?_, ?_, fun hw => ?_⟩ <;> rw [hx]
  · exact (onward_handled r k _).mono hnamed
  · exact clock_handled r k _
  · exact hw.handled r k

/-- A call that returns an id has created an order with it, and the id was new. -/
theorem create_lossy (hnet : Lossy net exchange m.handle) (b : BinanceBroker) (symbol : String)
    (order : OrderCall) (w : ν) :
    After m N exchange (fun _ => False) w (run (serve net) (b.create symbol order) w).2 ∧
      ∀ order_id, (run (serve net) (b.create symbol order) w).1 = .ok order_id →
        m.Unused N (exchange w) →
        (exchange (run (serve net) (b.create symbol order) w).2).clock ≤ N →
        (exchange w).state order_id = none ∧
          (exchange (run (serve net) (b.create symbol order) w).2).state order_id ≠ none := by
  obtain ⟨c, hserved⟩ := request_serves hnet b (order_request symbol order)
    (fun json_data => do (← json_data.field "orderId").get_uint64) w
  obtain ⟨hm, hp, _⟩ := order_request_plain symbol order c
  rw [create_eq]
  change After m N exchange _ w (run (serve net) (b.request _ >>= fun _ => throws _) w).2 ∧ _
  refine ⟨after_served hserved fun id hid => ?_, fun order_id hok hw hclock => ?_⟩
  · rw [Names, hm] at hid
    cases hid.1
  · obtain ⟨k, hx, hanswer⟩ := hserved
    obtain ⟨j, body, rfl, hread, hbody⟩ := hanswer order_id hok
    rw [handled_last] at hx
    have honward := onward_handled (m := m) ((order_request symbol order).with_credentials c) j
      (exchange w)
    have hyw := hw.handled ((order_request symbol order).with_credentials c) j
    generalize handled m.handle ((order_request symbol order).with_credentials c) j
      (exchange w) = y at hx hbody honward hyw
    have hlt : y.clock < N := by
      have hsucc := clock_handle (m := m) ((order_request symbol order).with_credentials c) y
      rw [← hx] at hsucc
      exact Nat.lt_of_lt_of_le (Nat.lt_of_lt_of_eq (Nat.lt_succ_self _) hsucc.symm) hclock
    have hunknown := hyw.unknown y.clock (Nat.le_refl _) hlt
    rw [handle_order hp, hm] at hx hbody
    obtain rfl : Json.obj [("orderId", .num (m.next_id y.clock))] = body :=
      congrArg Response.body hbody
    obtain rfl : m.next_id y.clock = order_id :=
      Option.some.inj ((read_order_id rfl (hyw.small y.clock hlt)).symm.trans hread)
    constructor
    · by_contra hne
      exact honward.known (m.next_id y.clock) hne hunknown
    · change (exchange (run (serve net) (b.request _ >>= fun _ => throws _) w).2).state _ ≠ none
      rw [hx]
      change ((m.settle y).create _).state _ ≠ none
      rw [state_create _ _ _ (by rw [state_settle, hunknown]; rfl), if_pos rfl]
      simp

theorem cancel_lossy (hnet : Lossy net exchange m.handle) (b : BinanceBroker) (symbol : String)
    (order_id : ℕ) (w : ν) :
    After m N exchange (· = order_id) w
      (run (serve net) (b.cancel_order symbol order_id) w).2 := by
  obtain ⟨c, hserved⟩ := request_serves hnet b (trade.order_id order_id (trade.CancelOrder symbol))
    (fun json_data => do let _ ← json_data.field "status") w
  refine after_served hserved fun id hid => ?_
  have hr : requested ((trade.order_id order_id (trade.CancelOrder symbol)).with_credentials c) =
      some order_id := requested_cancel symbol order_id
  exact Option.some.inj (hid.2.symm.trans hr)

/-- A poll says that an order is filled only when it is. -/
theorem poll_lossy (hnet : Lossy net exchange m.handle) (b : BinanceBroker) (symbol : String)
    (order_id : ℕ) (w : ν) :
    After m N exchange (fun _ => False) w
        (run (serve net) (b.get_order symbol order_id) w).2 ∧
      ((run (serve net) (b.get_order symbol order_id) w).1 = .ok true →
        (exchange (run (serve net) (b.get_order symbol order_id) w).2).is_filled order_id) := by
  obtain ⟨c, hserved⟩ := request_serves hnet b (trade.order_id order_id (trade.GetOrder symbol))
    (fun json_data => do return (← json_data.field "status").equals "FILLED") w
  refine ⟨after_served hserved fun id hid => (by cases hid.1), fun hok => ?_⟩
  obtain ⟨k, hx, hanswer⟩ := hserved
  obtain ⟨j, body, rfl, hread, hbody⟩ := hanswer true hok
  rw [handled_last] at hx
  generalize handled m.handle ((trade.order_id order_id (trade.GetOrder symbol)).with_credentials c)
    j (exchange w) = y at hx hbody
  have hr : requested ((trade.order_id order_id (trade.GetOrder symbol)).with_credentials c) =
      some order_id := requested_get symbol order_id
  rw [handle_order rfl, hr] at hx hbody
  change (m.answer y.clock (m.settle y) .get (some order_id)).1 = _ at hbody
  change _ = (m.answer y.clock (m.settle y) .get (some order_id)).2 at hx
  simp only [answer] at hx hbody
  rcases hs : (m.settle y).state order_id with _ | s <;> rw [hs] at hx hbody
  · cases hbody
  · obtain rfl : Json.obj [("status", .str s.str)] = body := congrArg Response.body hbody
    change (exchange (run (serve net) (b.request _ >>= fun _ => throws _) w).2).is_filled order_id
    rw [hx]
    cases s with
    | filled => exact hs
    | _ => cases hread

/-- The other calls are about no order. -/
theorem account_lossy (hnet : Lossy net exchange m.handle) (b : BinanceBroker) (w : ν) :
    After m N exchange (fun _ => False) w (run (serve net) b.get_account w).2 := by
  obtain ⟨c, hserved⟩ := request_serves hnet b trade.Account
    (fun json_data => do (← json_data.field "balances").items.foldlM BinanceBroker.add_balance {}) w
  exact after_served hserved fun id hid => (by cases hid.1)

theorem klines_lossy (hnet : Lossy net exchange m.handle) (b : BinanceBroker)
    (start_time end_time : ℤ) (w : ν) :
    After m N exchange (fun _ => False) w
      (run (serve net) (b.get_klines "BTCUSDT" "30m" start_time end_time) w).2 :=
  after_served (until_serves hnet _ b.retry_count_
    (fun json_data => json_data.items.mapM BinanceBroker.get_kline) w)
    fun id hid => (by cases hid.1)

end calls

end Market

/-! ## The engine -/

namespace TradeEngine

/-- What the engine knows of the exchange, which was `x₀` at the start. The orders of the engine
were created by it, one id for each index, and what it has polled or reported as filled is filled.
Only the engine cancels, and what it cancels is named by the last 16 bits of one of its ids. The
order `held` is reported, and its entry is still in the map. -/
structure Honest (m : Market) (N : ℕ) (exchange : ν → Exchange) (x₀ : Exchange)
    (reported : List OrderIndex) (held : Option OrderIndex) (e : TradeEngine ν) : Prop where
  unused : m.Unused N (exchange e.world)
  known : ∀ order_id, x₀.state order_id ≠ none → (exchange e.world).state order_id ≠ none
  count : e.issued.length = e.last_order_index_
  distinct : e.issued.Nodup
  created : ∀ order_id ∈ e.issued, x₀.state order_id = none ∧
    (exchange e.world).state order_id ≠ none
  entry : ∀ i o, (i, o) ∈ e.orders_ → e.issued[i]? = some o.order_id
  polled : ∀ order_id ∈ e.polled, order_id ∈ e.issued ∧ (exchange e.world).is_filled order_id
  canceled : ∀ order_id, (exchange e.world).state order_id = some .canceled →
    x₀.state order_id = some .canceled ∨ ∃ id ∈ e.issued, order_id = id % 2 ^ 16
  gone : ∀ i ∈ reported, i ∈ e.orders_.keys → held = some i
  told : ∀ i ∈ reported, ∃ order_id, e.issued[i]? = some order_id ∧
    (exchange e.world).is_filled order_id

namespace Honest

variable {m : Market} {N : ℕ} {exchange : ν → Exchange} {x₀ : Exchange}
  {reported : List OrderIndex} {held : Option OrderIndex} {e : TradeEngine ν}

theorem init (symbol : String) (broker : BinanceBroker) {w : ν} (h : m.Unused N (exchange w)) :
    Honest m N exchange (exchange w) [] none
      { symbol_ := symbol, broker_ := broker, world := w } := by
  have hempty : ∀ i o, (i, o) ∉ (∅ : Map OrderIndex TradeOrder) := fun _ _ => Map.not_mem_empty _
  constructor
  case unused => exact h
  case entry => exact fun i o hi => absurd hi (hempty i o)
  all_goals simp

theorem fits (h : e.Honest m N exchange x₀ reported held) : e.Fits := by
  intro i hi
  obtain ⟨o, ho⟩ := Map.mem_keys.mp hi
  rw [← h.count]
  exact (List.getElem?_eq_some_iff.mp (h.entry i o ho)).1

/-- The world goes on, and the engine stays as it is. -/
theorem world (h : e.Honest m N exchange x₀ reported held) {named : ℕ → Prop} {w : ν}
    (hw : Market.After m N exchange named e.world w)
    (hnamed : ∀ order_id, named order_id → ∃ id ∈ e.issued, order_id = id % 2 ^ 16) :
    Honest m N exchange x₀ reported held { e with world := w } where
  unused := hw.unused h.unused
  known := fun id hid => hw.onward.known id (h.known id hid)
  count := h.count
  distinct := h.distinct
  created := fun id hid => ⟨(h.created id hid).1, hw.onward.known id (h.created id hid).2⟩
  entry := h.entry
  polled := fun id hid => ⟨(h.polled id hid).1, hw.onward.filled id (h.polled id hid).2⟩
  canceled := fun id hid => (hw.onward.canceled id hid).elim (h.canceled id) fun hn =>
    Or.inr (hnamed id hn)
  gone := h.gone
  told := fun i hi => (h.told i hi).imp fun id hid => ⟨hid.1, hw.onward.filled id hid.2⟩

theorem erase (h : e.Honest m N exchange x₀ reported held) (index : OrderIndex)
    (canceled : List ℕ) : Honest m N exchange x₀ reported held
      { e with orders_ := e.orders_.erase index, canceled := canceled } :=
  { h with
    entry := fun i o hi => h.entry i o (Map.mem_erase.mp hi).1
    gone := fun i hi hk => h.gone i hi (Map.mem_keys_erase.mp hk).1 }

/-- An order with a new id. -/
theorem add_order (h : e.Honest m N exchange x₀ reported held) (p : Placement OrderIndex TradeOrder)
    (order : OrderCall) {order_id : ℕ} (hstart : x₀.state order_id = none)
    (hnew : order_id ∉ e.issued) (hcreated : (exchange e.world).state order_id ≠ none) :
    Honest m N exchange x₀ reported held (e.add_order p order order_id).2 := by
  have hold : ∀ (i id : ℕ), e.issued[i]? = some id → (e.issued ++ [order_id])[i]? = some id := by
    intro i id hi
    rw [List.getElem?_append_left (List.getElem?_eq_some_iff.mp hi).1]
    exact hi
  have hmem : ∀ id ∈ e.issued, id ∈ e.issued ++ [order_id] := fun id => List.mem_append_left _
  constructor
  case unused => exact h.unused
  case known => exact h.known
  case count =>
    change (e.issued ++ [order_id]).length = e.last_order_index_ + 1
    rw [List.length_append, h.count]
    rfl
  case distinct =>
    refine List.nodup_append.mpr ⟨h.distinct, List.nodup_singleton _, ?_⟩
    rintro a ha b hb rfl
    rw [List.mem_singleton.mp hb] at ha
    exact hnew ha
  case created =>
    intro id hid
    rcases List.mem_append.mp hid with hid | hid
    · exact h.created id hid
    · rw [List.mem_singleton.mp hid]
      exact ⟨hstart, hcreated⟩
  case entry =>
    intro i o hi
    rcases (p.mem_emplace h.fits.new).mp hi with heq | hi
    · cases heq
      change (e.issued ++ [order_id])[e.last_order_index_]? = _
      rw [← h.count]
      simp
    · exact hold i _ (h.entry i o hi)
  case polled => exact fun id hid => ⟨hmem id (h.polled id hid).1, (h.polled id hid).2⟩
  case canceled =>
    exact fun id hid => (h.canceled id hid).imp_right fun ⟨id', h1, h2⟩ => ⟨id', hmem id' h1, h2⟩
  case gone =>
    intro i hi hk
    rcases (p.mem_keys_emplace h.fits.new).mp hk with rfl | hk
    · obtain ⟨id, hid, _⟩ := h.told _ hi
      have hlt := (List.getElem?_eq_some_iff.mp hid).1
      rw [h.count] at hlt
      exact absurd hlt (Nat.lt_irrefl _)
    · exact h.gone i hi hk
  case told =>
    intro i hi
    obtain ⟨id, h1, h2⟩ := h.told i hi
    exact ⟨id, hold i id h1, h2⟩

section calls

variable {net : Net ν} (hnet : Lossy net exchange m.handle)

include hnet

/-- Every call of a strategy, whatever the network does to its requests. The exchange has counted
its requests up to `N` at most when the call is over. -/
theorem call (p : Placement OrderIndex TradeOrder) (op : BrokerCall)
    (h : e.Honest m N exchange x₀ reported held)
    (hN : (exchange (TradeBroker net p op e).2.world).clock ≤ N) :
    (TradeBroker net p op e).2.Honest m N exchange x₀ reported held := by
  have hnone : ∀ order_id : ℕ, False → ∃ id ∈ e.issued, order_id = id % 2 ^ 16 :=
    fun _ => False.elim
  cases op with
  | place order =>
    obtain ⟨hafter, hcreated⟩ :=
      Market.create_lossy (N := N) hnet e.broker_ e.symbol_ order e.world
    rcases TradeBroker.place_cases net p e order with ⟨id, w, hrun, hp⟩ | ⟨fault, w, hrun, hp⟩ <;>
      rw [hp] at hN ⊢ <;> rw [hrun] at hafter
    · rw [hrun] at hcreated
      obtain ⟨hnew, hthere⟩ := hcreated id rfl h.unused hN
      have hfresh : id ∉ e.issued := fun hid => (h.created id hid).2 hnew
      refine (h.world hafter hnone).add_order p order ?_ hfresh hthere
      by_contra hne
      exact h.known id hne hnew
    · exact h.world hafter hnone
  | cancel index =>
    rcases hf : e.orders_.find index with _ | order
    · rw [TradeBroker.cancel_unknown net p e hf]
      exact h
    · have hissued := List.mem_of_getElem? (h.entry index order (Map.mem_of_find hf))
      have hnamed : ∀ id, id = order.order_id % 2 ^ 16 → ∃ id' ∈ e.issued, id = id' % 2 ^ 16 :=
        fun _ heq => ⟨_, hissued, heq⟩
      have hafter :=
        Market.cancel_lossy (N := N) hnet e.broker_ e.symbol_ (order.order_id % 2 ^ 16) e.world
      rcases TradeBroker.cancel_cases net p e hf with ⟨w, hrun, hc⟩ | ⟨fault, w, hrun, hc⟩ <;>
        rw [hc] <;> rw [hrun] at hafter
      · exact (h.world hafter hnamed).erase index _
      · exact h.world hafter hnamed
  | account =>
    have hafter := Market.account_lossy (N := N) hnet e.broker_ e.world
    obtain ⟨w, hrun, ⟨a, ha⟩ | ha | ⟨fault, _, ha⟩⟩ := TradeBroker.account_cases net p e <;>
      rw [ha] <;> rw [hrun] at hafter <;> exact h.world hafter hnone

/-- A poll says that an order is filled only when it is. -/
theorem poll (h : e.Honest m N exchange x₀ reported held) {index : OrderIndex}
    {order : TradeOrder} (hm : (index, order) ∈ e.orders_) :
    (e.poll net order).2.Honest m N exchange x₀ reported held ∧
      ((e.poll net order).1 = .ok true →
        (exchange (e.poll net order).2.world).is_filled order.order_id) := by
  obtain ⟨hafter, hfilled⟩ :=
    Market.poll_lossy (N := N) hnet e.broker_ e.symbol_ order.order_id e.world
  rcases e.poll_cases net order with ⟨filled, w, hrun, he⟩ | ⟨fault, w, hrun, he⟩ <;>
    rw [hrun] at hafter hfilled <;> rw [he]
  · have hw := h.world hafter fun _ => False.elim
    cases filled with
    | false => exact ⟨hw, nofun⟩
    | true =>
      have hfill : (exchange w).is_filled order.order_id := hfilled rfl
      refine ⟨{ hw with polled := fun id hid => ?_ }, fun _ => hfill⟩
      rcases List.mem_append.mp hid with hid | hid
      · exact hw.polled id hid
      · rw [List.mem_singleton.mp hid]
        exact ⟨List.mem_of_getElem? (h.entry index order hm), hfill⟩
  · exact ⟨h.world hafter fun _ => False.elim, nofun⟩

theorem fetch (h : e.Honest m N exchange x₀ reported held) (start_time end_time : ℤ) :
    (e.use net (e.broker_.get_klines "BTCUSDT" "30m" start_time end_time)).2.Honest m N exchange
      x₀ reported held :=
  h.world (Market.klines_lossy hnet e.broker_ start_time end_time e.world) fun _ => False.elim

end calls

/-- The report of an order that is filled. -/
theorem report (h : e.Honest m N exchange x₀ reported none) {index : OrderIndex} {order : TradeOrder}
    (hm : (index, order) ∈ e.orders_) (hfill : (exchange e.world).is_filled order.order_id) :
    e.Honest m N exchange x₀ (reported ++ [index]) (some index) :=
  { h with
    gone := by
      intro i hi hk
      rcases List.mem_append.mp hi with hi | hi
      · cases h.gone i hi hk
      · rw [List.mem_singleton.mp hi]
    told := by
      intro i hi
      rcases List.mem_append.mp hi with hi | hi
      · exact h.told i hi
      · rw [List.mem_singleton.mp hi]
        exact ⟨_, h.entry index order hm, hfill⟩ }

/-- Its entry leaves the map. -/
theorem forget {index : OrderIndex} (h : e.Honest m N exchange x₀ reported (some index)) :
    Honest m N exchange x₀ reported none { e with orders_ := e.orders_.erase index } :=
  { h with
    entry := fun i o hi => h.entry i o (Map.mem_erase.mp hi).1
    gone := by
      intro i hi hk
      obtain ⟨hk, hne⟩ := Map.mem_keys_erase.mp hk
      cases h.gone i hi hk
      exact absurd rfl hne }

end Honest

theorem poll_orders (net : Net ν) (order : TradeOrder) (e : TradeEngine ν) :
    (e.poll net order).2.orders_ = e.orders_ := by
  rcases e.poll_cases net order with ⟨filled, w, _, he⟩ | ⟨fault, w, _, he⟩ <;> rw [he]

/-! ## The clock of the exchange -/

section clock

variable {m : Market} {exchange : ν → Exchange} {net : Net ν}
  (hnet : Lossy net exchange m.handle) (e : TradeEngine ν)

include hnet

theorem clock_call (p : Placement OrderIndex TradeOrder) (op : BrokerCall) :
    (exchange e.world).clock ≤ (exchange (TradeBroker net p op e).2.world).clock := by
  cases op with
  | place order =>
    have hafter := (Market.create_lossy (N := 0) hnet e.broker_ e.symbol_ order e.world).1.clock
    rcases TradeBroker.place_cases net p e order with ⟨id, w, hrun, hp⟩ | ⟨fault, w, hrun, hp⟩ <;>
      rw [hp] <;> rw [hrun] at hafter <;> exact hafter
  | cancel index =>
    rcases hf : e.orders_.find index with _ | order
    · rw [TradeBroker.cancel_unknown net p e hf]
    · have hafter := (Market.cancel_lossy (N := 0) hnet e.broker_ e.symbol_
        (order.order_id % 2 ^ 16) e.world).clock
      rcases TradeBroker.cancel_cases net p e hf with ⟨w, hrun, hc⟩ | ⟨fault, w, hrun, hc⟩ <;>
        rw [hc] <;> rw [hrun] at hafter <;> exact hafter
  | account =>
    have hafter := (Market.account_lossy (N := 0) hnet e.broker_ e.world).clock
    obtain ⟨w, hrun, ⟨a, ha⟩ | ha | ⟨fault, _, ha⟩⟩ := TradeBroker.account_cases net p e <;>
      rw [ha] <;> rw [hrun] at hafter <;> exact hafter

theorem clock_poll (order : TradeOrder) :
    (exchange e.world).clock ≤ (exchange (e.poll net order).2.world).clock := by
  have hafter :=
    (Market.poll_lossy (N := 0) hnet e.broker_ e.symbol_ order.order_id e.world).1.clock
  rcases e.poll_cases net order with ⟨filled, w, hrun, he⟩ | ⟨fault, w, hrun, he⟩ <;>
    rw [hrun] at hafter <;> rw [he] <;> exact hafter

end clock

end TradeEngine

/-! ## The runs -/

namespace TradeRun

variable {σ : Type}

/-- What a run keeps. A crash can leave a reported order in the map. -/
structure Truthful (m : Market) (N : ℕ) (exchange : ν → Exchange) (x₀ : Exchange)
    (r : TradeRun σ ν) : Prop where
  honest : ∃ held, r.engine.Honest m N exchange x₀ r.reported held ∧
    ((∀ f, r.pc ≠ .crashed f) → held = r.held)
  once : r.reported.Nodup
  next : ∀ i, r.pc = .filled i → ∃ order, (i, order) ∈ r.engine.orders_ ∧
    (exchange r.engine.world).is_filled order.order_id

namespace Truthful

variable {m : Market} {N : ℕ} {exchange : ν → Exchange} {x₀ : Exchange} {r : TradeRun σ ν}

/-- The engine at a place where the next step is known. -/
theorem at_pc (h : r.Truthful m N exchange x₀) {pc : TradePc} (hpc : r.pc = pc)
    (hlive : ∀ f, pc ≠ .crashed f) :
    r.engine.Honest m N exchange x₀ r.reported (held { r with pc := pc }) := by
  subst hpc
  obtain ⟨held, hh, heq⟩ := h.honest
  exact heq hlive ▸ hh

/-- A step that ends at no report and no poll of a filled order. -/
theorem of_honest {r' : TradeRun σ ν} {reported : List OrderIndex} (hreported : reported.Nodup)
    (heq : r'.reported = reported) (hheld : r'.held = none) (hnext : ∀ i, r'.pc ≠ .filled i)
    (h : r'.engine.Honest m N exchange x₀ reported none) : r'.Truthful m N exchange x₀ where
  honest := ⟨none, heq ▸ h, fun _ => hheld.symm⟩
  once := heq ▸ hreported
  next := fun i hi => absurd hi (hnext i)

/-- A callback makes calls, and then the run goes on or crashes. -/
theorem callback {net : Net ν} (hnet : Lossy net exchange m.handle)
    {p : Placement OrderIndex TradeOrder} {prog : StrategyProg σ} {pc : TradePc}
    {held : Option OrderIndex} (h : r.engine.Honest m N exchange x₀ r.reported held)
    (honce : r.reported.Nodup) (hpc : ∀ r' : TradeRun σ ν, r'.pc = pc → r'.held = held)
    (hnext : ∀ i, pc ≠ .filled i)
    (hN : (exchange (r.callback net p prog pc).engine.world).clock ≤ N) :
    (r.callback net p prog pc).Truthful m N exchange x₀ := by
  obtain ⟨he, hend⟩ := callback_engine net p prog pc r
  have hkeep : ∀ op e, True →
      ((exchange e.world).clock ≤ N → e.Honest m N exchange x₀ r.reported held) →
      (exchange (TradeBroker net p op e).2.world).clock ≤ N →
      (TradeBroker net p op e).2.Honest m N exchange x₀ r.reported held := fun op e _ hp hle =>
    (hp ((TradeEngine.clock_call hnet e p op).trans hle)).call hnet p op hle
  have hrun := (obeys_true (TradeBroker net p) prog r.engine).keeps hkeep fun _ => h
  rw [← he] at hrun
  have hreported : (r.callback net p prog pc).reported = r.reported := by
    unfold TradeRun.callback
    split <;> rfl
  refine ⟨⟨held, hreported ▸ hrun hN, fun hlive => ?_⟩, hreported ▸ honce, fun i hi => ?_⟩
  · rcases hend with hend | ⟨f, hend⟩
    · exact (hpc _ hend).symm
    · exact absurd hend (hlive f)
  · rcases hend with hend | ⟨f, hend⟩ <;> rw [hend] at hi
    · exact absurd hi (hnext i)
    · cases hi

theorem step {S : IStrategy σ} {net : Net ν} (hnet : Lossy net exchange m.handle)
    {p : Placement OrderIndex TradeOrder} {r r' : TradeRun σ ν} {now : ℤ}
    (hstep : Step S net p r now r') (h : r.Truthful m N exchange x₀)
    (hN : (exchange r'.engine.world).clock ≤ N) : r'.Truthful m N exchange x₀ := by
  cases step_moves hstep with
  | start hpc => exact of_honest h.once rfl rfl nofun (h.at_pc hpc nofun)
  | finish hpc => exact of_honest h.once rfl rfl nofun (h.at_pc hpc nofun)
  | @poll_filled index order engine hpc hf hp =>
    have hm := Map.mem_of_find hf
    obtain ⟨hpoll, hfill⟩ := (h.at_pc hpc nofun).poll hnet hm
    have hsame := r.engine.poll_orders net order
    rw [hp] at hpoll hfill hsame
    refine ⟨⟨none, hpoll, fun _ => rfl⟩, h.once, fun i hi => ?_⟩
    cases hi
    exact ⟨order, hsame ▸ hm, hfill rfl⟩
  | @poll_open index order engine hpc hf hp =>
    obtain ⟨hpoll, _⟩ := (h.at_pc hpc nofun).poll hnet (Map.mem_of_find hf)
    rw [hp] at hpoll
    exact of_honest h.once rfl rfl nofun hpoll
  | @poll_failed index order engine fault hpc hf hp =>
    obtain ⟨hpoll, _⟩ := (h.at_pc hpc nofun).poll hnet (Map.mem_of_find hf)
    rw [hp] at hpoll
    exact of_honest h.once rfl rfl nofun hpoll
  | lost =>
    obtain ⟨held, hh, _⟩ := h.honest
    exact ⟨⟨held, hh, fun hlive => absurd rfl (hlive _)⟩, h.once, nofun⟩
  | @report index hpc =>
    obtain ⟨order, hm, hfill⟩ := h.next index hpc
    have hh := h.at_pc hpc nofun
    have hnew : index ∉ r.reported := fun hi => by
      cases hh.gone index hi (Map.mem_keys.mpr ⟨order, hm⟩)
    refine callback (r := { r with reported := r.reported ++ [index] }) hnet
      (hh.report hm hfill) ?_ ?_ nofun hN
    · exact List.nodup_append.mpr ⟨h.once, List.nodup_singleton _, fun a ha b hb hab => hnew
        (List.mem_singleton.mp hb ▸ hab ▸ ha)⟩
    · intro r' hr'
      unfold held
      rw [hr']
  | @forget index hpc _ => exact of_honest h.once rfl rfl nofun (h.at_pc hpc nofun).forget
  | @fetch candles candle engine hpc _ hu =>
    have hfetch := (h.at_pc hpc nofun).fetch hnet (now - 1800000) now
    rw [hu] at hfetch
    exact of_honest h.once rfl rfl nofun hfetch
  | @fetch_empty engine hpc hu =>
    have hfetch := (h.at_pc hpc nofun).fetch hnet (now - 1800000) now
    rw [hu] at hfetch
    exact of_honest h.once rfl rfl nofun hfetch
  | @fetch_failed fault engine hpc hu =>
    have hfetch := (h.at_pc hpc nofun).fetch hnet (now - 1800000) now
    rw [hu] at hfetch
    exact of_honest h.once rfl rfl nofun hfetch
  | @update candle hpc =>
    refine callback hnet (h.at_pc hpc nofun) h.once ?_ nofun hN
    intro r' hr'
    unfold held
    rw [hr']

end Truthful

/-- The exchange counts its requests, and never back. -/
theorem clock_step {m : Market} {exchange : ν → Exchange} {S : IStrategy σ} {net : Net ν}
    (hnet : Lossy net exchange m.handle) {p : Placement OrderIndex TradeOrder}
    {r r' : TradeRun σ ν} {now : ℤ} (hstep : Step S net p r now r') :
    (exchange r.engine.world).clock ≤ (exchange r'.engine.world).clock := by
  have hcallback : ∀ (r : TradeRun σ ν) prog pc,
      (exchange r.engine.world).clock ≤
        (exchange (r.callback net p prog pc).engine.world).clock := by
    intro r prog pc
    rw [(callback_engine net p prog pc r).1]
    exact (obeys_true (TradeBroker net p) prog r.engine).keeps
      (p := fun e => (exchange r.engine.world).clock ≤ (exchange e.world).clock)
      (fun op e _ hle => hle.trans (TradeEngine.clock_call hnet e p op)) (Nat.le_refl _)
  have hfetch := (Market.klines_lossy (N := 0) hnet r.engine.broker_ (now - 1800000) now
    r.engine.world).clock
  cases step_moves hstep with
  | @poll_filled index order engine _ _ hp
  | @poll_open index order engine _ _ hp
  | @poll_failed index order engine fault _ _ hp =>
    have hpoll := TradeEngine.clock_poll hnet r.engine order
    rwa [hp] at hpoll
  | @fetch candles candle engine _ _ hu
  | @fetch_empty engine _ hu
  | @fetch_failed fault engine _ hu =>
    have hw := congrArg (fun x => x.2.world) hu
    exact hfetch.trans_eq (congrArg (fun w => (exchange w).clock) hw)
  | @report index => exact hcallback { r with reported := r.reported ++ [index] } _ _
  | update => exact hcallback _ _ _
  | start | finish | lost | forget => exact Nat.le_refl _

/-- Every run of a new engine, when the ids that the exchange gave out in it were new. -/
theorem truthful {m : Market} {exchange : ν → Exchange} {S : IStrategy σ} {net : Net ν}
    (hnet : Lossy net exchange m.handle) {p : Placement OrderIndex TradeOrder} {symbol : String}
    {broker : BinanceBroker} {w : ν} {strategy : σ} {times : List ℤ} {r : TradeRun σ ν}
    (h : runs.Run (Step S net p) (start symbol broker w strategy) times r)
    (hids : m.Unused (exchange r.engine.world).clock (exchange w)) :
    r.Truthful m (exchange r.engine.world).clock exchange (exchange w) := by
  have hkeep := h.invariant
    (p := fun s => (exchange s.engine.world).clock ≤ (exchange r.engine.world).clock →
      s.Truthful m (exchange r.engine.world).clock exchange (exchange w))
    (fun _ _ _ hstep hs hle => (hs ((clock_step hnet hstep).trans hle)).step hnet hstep hle)
  refine hkeep (fun _ => ?_) (Nat.le_refl _)
  exact .of_honest List.nodup_nil rfl rfl nofun (TradeEngine.Honest.init symbol broker hids)

end TradeRun

/-- Over a network that loses requests and answers, whatever the strategy does, the engine reports
each index once at most, and each report is about an order that this run created, that no other
index stands for, and that is filled. -/
theorem reports_are_fills {σ : Type} (S : IStrategy σ) {m : Market} {exchange : ν → Exchange}
    {net : Net ν} (hnet : Lossy net exchange m.handle) (p : Placement OrderIndex TradeOrder)
    (symbol : String) (broker : BinanceBroker) (w : ν) (strategy : σ) (times : List ℤ)
    (r : TradeRun σ ν)
    (h : runs.Run (TradeRun.Step S net p) (TradeRun.start symbol broker w strategy) times r)
    (hids : m.Unused (exchange r.engine.world).clock (exchange w)) :
    r.reported.Nodup ∧ r.engine.issued.Nodup ∧
      ∀ i ∈ r.reported, ∃ order_id, r.engine.issued[i]? = some order_id ∧
        (exchange w).state order_id = none ∧
        (exchange r.engine.world).is_filled order_id := by
  have ht := TradeRun.truthful hnet h hids
  obtain ⟨held, hh, _⟩ := ht.honest
  refine ⟨ht.once, hh.distinct, fun i hi => ?_⟩
  obtain ⟨order_id, hissued, hfilled⟩ := hh.told i hi
  exact ⟨order_id, hissued, (hh.created _ (List.mem_of_getElem? hissued)).1, hfilled⟩

/-- An order that no call has returned, because an earlier process placed it or because the answer
was lost, is never in the map and never polled as filled. It is canceled only if it was canceled at
the start, or if the last 16 bits of an order of this run are its id. -/
theorem unreturned_orders_are_left_alone {σ : Type} (S : IStrategy σ) {m : Market}
    {exchange : ν → Exchange} {net : Net ν} (hnet : Lossy net exchange m.handle)
    (p : Placement OrderIndex TradeOrder) (symbol : String) (broker : BinanceBroker) (w : ν)
    (strategy : σ) (times : List ℤ) (r : TradeRun σ ν)
    (h : runs.Run (TradeRun.Step S net p) (TradeRun.start symbol broker w strategy) times r)
    (hids : m.Unused (exchange r.engine.world).clock (exchange w)) :
    (∀ order_id, (exchange w).state order_id ≠ none →
        (exchange r.engine.world).state order_id ≠ none ∧ order_id ∉ r.engine.issued) ∧
      ∀ order_id ∉ r.engine.issued,
        (∀ i o, (i, o) ∈ r.engine.orders_ → o.order_id ≠ order_id) ∧
        order_id ∉ r.engine.polled ∧
        ((exchange r.engine.world).state order_id = some .canceled →
          (exchange w).state order_id = some .canceled ∨
            ∃ id ∈ r.engine.issued, order_id = id % 2 ^ 16) := by
  obtain ⟨held, hh, _⟩ := (TradeRun.truthful hnet h hids).honest
  refine ⟨fun id hid => ⟨hh.known id hid, fun hissued => ?_⟩, fun id hnot => ⟨?_, ?_, ?_⟩⟩
  · exact hid (hh.created id hissued).1
  · rintro i o hi rfl
    exact hnot (List.mem_of_getElem? (hh.entry i o hi))
  · exact fun hpolled => hnot (hh.polled id hpolled).1
  · exact hh.canceled id

theorem one_trade_unused {N clock order_id : ℕ} (hN : N ≤ 2 ^ 64) :
    (one_trade id clock order_id).Unused N {} :=
  ⟨fun _ hc => hc.trans_le hN, fun _ _ _ _ _ _ heq => heq, fun _ _ _ => rfl⟩

/-- The answer to the first order is lost, so the exchange has three orders: 1 is open, 2 is filled
and 3 is canceled. -/
def lossy_start : TradeRun Bool (Link Exchange) :=
  TradeRun.start "BTCUSDT" retry_broker { attempts := [.clean, .read_fails], exchange := {} } false

theorem lossy_start_runs : ∃ r : TradeRun Bool (Link Exchange),
    runs.Run (TradeRun.Step place_and_cancel (flaky (one_trade id 5 2).handle) in_front)
      lossy_start [0, 0, 0, 0, 1, 1, 1] r ∧
    (r.reported = [0] ∧ r.engine.issued = [2, 3] ∧ r.engine.world.exchange.clock = 6) ∧
    r.engine.world.exchange.is_open 1 := by
  have hrun : ((runs.replay (fun r now => r.step place_and_cancel
        (flaky (one_trade id 5 2).handle) in_front now) (fun _ _ => True)
      [0, 0, 0, 0, 1, 1, 1] lossy_start).map fun r => ((r.reported, r.engine.issued,
        r.engine.world.exchange.clock), decide (r.engine.world.exchange.is_open 1))) =
      some (([0], [2, 3], 6), true) := by decide +kernel
  obtain ⟨r, hr, heq⟩ := Option.map_eq_some_iff.mp hrun
  simp only [Prod.mk.injEq, decide_eq_true_eq] at heq
  exact ⟨r, (runs.run_of_replay (fun _ _ _ h => h) hr).forget, heq.1, heq.2⟩

/-- The report is about the order 2. -/
theorem reports_are_fills_after_a_lost_answer : ∃ r : TradeRun Bool (Link Exchange),
    r.reported = [0] ∧ r.engine.world.exchange.is_filled 2 := by
  obtain ⟨r, hr, ⟨hreported, hissued, hclock⟩, _⟩ := lossy_start_runs
  have hids : (one_trade id 5 2).Unused r.engine.world.exchange.clock ({} : Exchange) :=
    one_trade_unused (by rw [hclock]; decide)
  have hfills := reports_are_fills place_and_cancel (lossy_flaky _) in_front "BTCUSDT" retry_broker
    _ false _ r hr hids
  obtain ⟨order_id, hi, _, hfilled⟩ := hfills.2.2 0 (by rw [hreported]; decide)
  rw [hissued] at hi
  cases hi
  exact ⟨r, hreported, hfilled⟩

/-- The order 1 is open, and the engine has no entry for it. -/
theorem a_lost_order_is_left_alone : ∃ r : TradeRun Bool (Link Exchange),
    r.engine.world.exchange.is_open 1 ∧
      (∀ i o, (i, o) ∈ r.engine.orders_ → o.order_id ≠ 1) ∧ 1 ∉ r.engine.polled := by
  obtain ⟨r, hr, ⟨_, hissued, hclock⟩, hopen⟩ := lossy_start_runs
  have hids : (one_trade id 5 2).Unused r.engine.world.exchange.clock ({} : Exchange) :=
    one_trade_unused (by rw [hclock]; decide)
  have halone := unreturned_orders_are_left_alone place_and_cancel (lossy_flaky _) in_front
    "BTCUSDT" retry_broker _ false _ r hr hids
  obtain ⟨htracked, hpolled, _⟩ := halone.2 1 (by rw [hissued]; decide)
  exact ⟨r, hopen, htracked, hpolled⟩

end wedge
