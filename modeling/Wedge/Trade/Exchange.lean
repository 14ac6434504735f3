-- The exchange behind the live engine, with a network that does not fail. The
-- market decides between the requests what trades. Each call of the client is
-- then one request.
import Wedge.Binance.Retries
import Wedge.Trade.Engine

namespace wedge

open programs containers

/-! ## Orders on the exchange -/

inductive OrderState
  | new
  | partially_filled
  | filled
  | canceled
  deriving DecidableEq, Repr

/-- What trades of an order before a request. -/
inductive Execution
  | nothing
  | partly
  | fully
  deriving DecidableEq, Repr

namespace OrderState

def str : OrderState → String
  | .new => "NEW"
  | .partially_filled => "PARTIALLY_FILLED"
  | .filled => "FILLED"
  | .canceled => "CANCELED"

def is_open : OrderState → Bool
  | .new => true
  | .partially_filled => true
  | .filled => false
  | .canceled => false

/-- Only an open order trades. -/
def execute (execution : Execution) (s : OrderState) : OrderState :=
  if s.is_open then
    match execution with
    | .nothing => s
    | .partly => .partially_filled
    | .fully => .filled
  else s

theorem execute_closed {s : OrderState} (h : s.is_open = false) (execution : Execution) :
    s.execute execution = s := by
  simp [execute, h]

theorem execute_open {s : OrderState} (h : s.is_open = true) (execution : Execution) :
    (s.execute execution).is_open = true ∨ s.execute execution = .filled := by
  unfold execute
  rw [if_pos h]
  cases execution with
  | nothing => exact Or.inl h
  | partly => exact Or.inl rfl
  | fully => exact Or.inr rfl

end OrderState

/-- The orders by id, the number of requests so far, and the ids of the cancel requests. -/
structure Exchange where
  clock : ℕ := 0
  orders : List (ℕ × OrderState) := []
  cancels : List ℕ := []
  deriving DecidableEq, Repr

namespace Exchange

def state (x : Exchange) (order_id : ℕ) : Option OrderState := x.orders.lookup order_id

def is_open (x : Exchange) (order_id : ℕ) : Prop := ∃ s, x.state order_id = some s ∧ s.is_open

def is_filled (x : Exchange) (order_id : ℕ) : Prop := x.state order_id = some .filled

instance (x : Exchange) (order_id : ℕ) : Decidable (x.is_open order_id) :=
  decidable_of_iff ((x.state order_id).any OrderState.is_open = true) (by
    unfold is_open
    cases x.state order_id <;> simp)

instance (x : Exchange) (order_id : ℕ) : Decidable (x.is_filled order_id) :=
  inferInstanceAs (Decidable (_ = _))

def create (order_id : ℕ) (x : Exchange) : Exchange :=
  { x with orders := x.orders ++ [(order_id, .new)] }

/-- Marks an order as canceled. -/
def close (order_id : ℕ) (x : Exchange) : Exchange :=
  { x with orders := x.orders.map fun o => (o.1, if o.1 = order_id then .canceled else o.2) }

end Exchange

/-- What is not decided by the requests: the id of an order, what trades of an order before
a request, and the answers to the requests that are about no order. The first argument is the
number of the request. -/
structure Market where
  next_id : ℕ → ℕ
  trades : ℕ → ℕ → Execution
  info : ℕ → Json

namespace Market

/-- What trades before the next request. -/
def settle (m : Market) (x : Exchange) : Exchange :=
  { x with
    clock := x.clock + 1
    orders := x.orders.map fun o => (o.1, o.2.execute (m.trades x.clock o.1)) }

/-- The order that a request is about. -/
def requested (r : Request) : Option ℕ :=
  (r.param "orderId").map fun text => Nat.ofDigitChars 10 text.toList 0

def rejected : Response := { result := 400, body := .null }

def accepted (status : OrderState) : Response :=
  { result := 200, body := .obj [("status", .str status.str)] }

/-- The answer to a request about an order. A cancel of an order that is not open is
rejected. -/
def answer (m : Market) (clock : ℕ) (x : Exchange) : Verb → Option ℕ → Response × Exchange
  | .post, _ =>
    let order_id := m.next_id clock
    ({ result := 200, body := .obj [("orderId", .num order_id)] }, x.create order_id)
  | .get, some order_id =>
    match x.state order_id with
    | some s => (accepted s, x)
    | none => (rejected, x)
  | .delete_, some order_id =>
    let x := { x with cancels := x.cancels ++ [order_id] }
    if x.is_open order_id then (accepted .canceled, x.close order_id) else (rejected, x)
  | _, _ => (rejected, x)

def handle (m : Market) (r : Request) (x : Exchange) : Response × Exchange :=
  if r.path = "/api/v3/order" then m.answer x.clock (m.settle x) r.method (requested r)
  else ({ result := 200, body := m.info x.clock }, m.settle x)

/-- The network in front of the exchange. It always delivers. -/
def net (m : Market) : Net Exchange
  | .connect_sync, x => (.connected, x)
  | .send_sync r, x => (some (m.handle r x).1, (m.handle r x).2)

/-! ## The states of the orders -/

section state

variable (m : Market) (x : Exchange) (order_id other : ℕ)

theorem lookup_map {orders : List (ℕ × OrderState)} (f : ℕ → OrderState → OrderState) (id : ℕ) :
    (orders.map fun o => (o.1, f o.1 o.2)).lookup id = (orders.lookup id).map (f id) := by
  induction orders with
  | nil => rfl
  | cons o rest ih =>
    rw [List.map_cons, List.lookup_cons, List.lookup_cons]
    by_cases h : id = o.1
    · subst h
      simp
    · have h1 : (id == o.1) = false := by simpa using h
      rw [h1]
      exact ih

theorem state_settle : (m.settle x).state order_id =
    (x.state order_id).map fun s => s.execute (m.trades x.clock order_id) :=
  lookup_map (fun id s => s.execute (m.trades x.clock id)) order_id

theorem state_close : (x.close order_id).state other =
    (x.state other).map fun s => if other = order_id then .canceled else s :=
  lookup_map (fun id s => if id = order_id then .canceled else s) other

theorem state_create (h : x.state order_id = none) : (x.create order_id).state other =
    if other = order_id then some .new else x.state other := by
  unfold Exchange.state Exchange.create
  rw [List.lookup_append]
  split
  · rename_i heq
    subst heq
    have h1 : x.orders.lookup other = none := h
    simp [h1]
  · rename_i hne
    have h1 : (other == order_id) = false := by simpa using hne
    simp [List.lookup_cons, h1]

variable {x order_id other}

/-- No order opens by itself. -/
theorem open_settle (h : (m.settle x).is_open order_id) : x.is_open order_id := by
  obtain ⟨s, hs, ho⟩ := h
  rw [state_settle] at hs
  obtain ⟨s', hs', rfl⟩ := Option.map_eq_some_iff.mp hs
  refine ⟨s', hs', ?_⟩
  by_contra hc
  rw [OrderState.execute_closed (by simpa using hc)] at ho
  exact hc ho

/-- An open order stays open or is filled. -/
theorem settle_open (h : x.is_open order_id) :
    (m.settle x).is_open order_id ∨ (m.settle x).is_filled order_id := by
  obtain ⟨s, hs, ho⟩ := h
  unfold Exchange.is_open Exchange.is_filled
  rw [state_settle, hs, Option.map_some]
  rcases OrderState.execute_open ho (m.trades x.clock order_id) with h1 | h1
  · exact Or.inl ⟨_, rfl, h1⟩
  · exact Or.inr (congrArg some h1)

/-- A closed order stays as it is. -/
theorem settle_closed {s : OrderState} (h : x.state order_id = some s) (hc : s.is_open = false) :
    (m.settle x).state order_id = some s := by
  rw [state_settle, h, Option.map_some, OrderState.execute_closed hc]

theorem filled_settle (h : (m.settle x).is_filled order_id) :
    x.is_open order_id ∨ x.is_filled order_id := by
  unfold Exchange.is_filled at h
  rw [state_settle] at h
  obtain ⟨s, hs, he⟩ := Option.map_eq_some_iff.mp h
  by_cases ho : s.is_open = true
  · exact Or.inl ⟨s, hs, ho⟩
  · rw [OrderState.execute_closed (by simpa using ho)] at he
    subst he
    exact Or.inr hs

theorem open_create (h : x.state order_id = none) :
    (x.create order_id).is_open other ↔ x.is_open other ∨ other = order_id := by
  unfold Exchange.is_open
  rw [state_create x order_id other h]
  split
  · rename_i heq
    simp [heq, OrderState.is_open]
  · rename_i hne
    simp [hne]

theorem filled_create (h : x.state order_id = none) :
    (x.create order_id).is_filled other ↔ x.is_filled other := by
  unfold Exchange.is_filled
  rw [state_create x order_id other h]
  split
  · rename_i heq
    simp [heq, h]
  · exact Iff.rfl

theorem open_close :
    (x.close order_id).is_open other ↔ x.is_open other ∧ other ≠ order_id := by
  unfold Exchange.is_open
  rw [state_close x order_id other]
  rcases x.state other with _ | s
  · simp
  · by_cases heq : other = order_id <;> simp [heq, OrderState.is_open]

theorem filled_close :
    (x.close order_id).is_filled other ↔ x.is_filled other ∧ other ≠ order_id := by
  unfold Exchange.is_filled
  rw [state_close x order_id other]
  rcases x.state other with _ | s
  · simp
  · by_cases heq : other = order_id <;> simp [heq]

theorem not_open_of_filled (h : x.is_filled order_id) : ¬ x.is_open order_id := by
  rintro ⟨s, hs, ho⟩
  rw [h] at hs
  cases hs
  cases ho

end state

/-! ## The calls of the client -/

/-- The client has credentials and tries at least once. -/
def Ready (b : BinanceBroker) : Prop := b.credentials_.isSome ∧ 0 < b.retry_count_

section calls

variable {m : Market} {b : BinanceBroker} {r : Request} {x x' : Exchange} {body : Json}

theorem until_run (h : m.handle r x = ({ result := 200, body := body }, x')) (n : ℕ) :
    run (serve m.net) (request_until r (n + 1)) x = (.ok body, x') := by
  have hx : (m.net (.send_sync r) x).2 = x' := congrArg Prod.snd h
  have hr : m.net (.send_sync r) x = (some { result := 200, body := body }, x') := by
    change (some (m.handle r x).1, (m.handle r x).2) = _
    rw [h]
  have hone : run (serve m.net) (requset_once r) x = (.ok (some body), x') := by
    rw [requset_once, BinanceHttpClient.run_connect]
    dsimp only [net]
    rw [BinanceHttpClient.run_send, hr]
    rfl
  rw [request_until, run_bind_ok _ hone]
  rfl

/-- The outcome of a program that makes one request and that the exchange answers. A client
that is not ready makes no request. -/
def Answered (m : Market) (b : BinanceBroker) {α : Type} (p : NetProg α) (x : Exchange)
    (out : Except Fault α × Exchange) : Prop :=
  run (serve m.net) p x = out ∨ ¬ Ready b ∧ ∃ f, run (serve m.net) p x = (.error f, x)

theorem request_until_run (b : BinanceBroker)
    (h : m.handle r x = ({ result := 200, body := body }, x')) :
    Answered m b (request_until r b.retry_count_) x (.ok body, x') := by
  rcases hn : b.retry_count_ with _ | n
  · exact Or.inr ⟨by simp [Ready, hn], .abort, rfl⟩
  · exact Or.inl (until_run h n)

theorem request_run (b : BinanceBroker)
    (h : m.handle r x = ({ result := 200, body := body }, x')) :
    Answered m b (b.request r) x (.ok body, x') := by
  unfold BinanceBroker.request
  rcases hc : b.credentials_ with _ | c
  · exact Or.inr ⟨by simp [Ready, hc], .undefined, rfl⟩
  · exact request_until_run (r := r.with_credentials c) b h

/-- A request and the reading of its answer. -/
theorem Answered.read {α : Type} {p : NetProg Json} (h : Answered m b p x (.ok body, x'))
    (read : Json → Option α) :
    Answered m b (p >>= fun json_data => throws (read json_data)) x
      ((read body).elim (.error .exception) .ok, x') := by
  rcases h with h | ⟨hb, f, h⟩
  · refine Or.inl ((run_bind_ok _ h _).trans ?_)
    cases read body <;> rfl
  · exact Or.inr ⟨hb, f, run_bind_error _ h _⟩

/-- What a failed reading throws is an exception. -/
theorem read_error {α : Type} {read : Option α} {f : Fault}
    (h : read.elim (.error .exception) .ok = (.error f : Except Fault α)) : f = .exception := by
  cases read <;> cases h
  rfl

theorem handle_other (hp : r.path ≠ "/api/v3/order") :
    m.handle r x = ({ result := 200, body := m.info x.clock }, m.settle x) := by
  unfold handle
  rw [if_neg hp]

theorem handle_order (hp : r.path = "/api/v3/order") :
    m.handle r x = m.answer x.clock (m.settle x) r.method (requested r) := by
  unfold handle
  rw [if_pos hp]

theorem create_run (b : BinanceBroker) (symbol : String) (order : OrderCall)
    (hid : m.next_id x.clock < 2 ^ 64) :
    Answered m b (b.create symbol order) x
      (.ok (m.next_id x.clock), (m.settle x).create (m.next_id x.clock)) := by
  have hh : m.handle (order_request symbol order) x =
      ({ result := 200, body := .obj [("orderId", .num (m.next_id x.clock))] },
        (m.settle x).create (m.next_id x.clock)) := by
    cases order <;> exact handle_order rfl
  have hfield : [("orderId", Json.num (m.next_id x.clock))].lookup "orderId" =
      some (.num (m.next_id x.clock)) := rfl
  have h := (request_run b hh).read fun json_data => do
    (← json_data.field "orderId").get_uint64
  rw [read_order_id hfield hid] at h
  rw [create_eq]
  exact h

theorem read_digits (n : ℕ) : Nat.ofDigitChars 10 (Nat.repr n).toList 0 = n := by
  rw [Nat.toList_repr, Nat.ofDigitChars_ten_toDigits]

theorem requested_get (symbol : String) (order_id : ℕ) :
    requested (trade.order_id order_id (trade.GetOrder symbol)) = some order_id :=
  congrArg some (read_digits order_id)

theorem requested_cancel (symbol : String) (order_id : ℕ) :
    requested (trade.order_id order_id (trade.CancelOrder symbol)) = some order_id :=
  congrArg some (read_digits order_id)

theorem get_order_run (b : BinanceBroker) (symbol : String) {order_id : ℕ} {s : OrderState}
    (hs : (m.settle x).state order_id = some s) :
    Answered m b (b.get_order symbol order_id) x (.ok (decide (s = .filled)), m.settle x) := by
  have hh : m.handle (trade.order_id order_id (trade.GetOrder symbol)) x =
      (accepted s, m.settle x) := by
    rw [handle_order rfl, requested_get]
    change m.answer x.clock (m.settle x) .get (some order_id) = _
    simp only [answer, hs]
  have h := (request_run b hh).read fun json_data => do
    return (← json_data.field "status").equals "FILLED"
  cases s <;> exact h

theorem cancel_order_run (b : BinanceBroker) (symbol : String) {order_id : ℕ}
    (ho : (m.settle x).is_open order_id) :
    Answered m b (b.cancel_order symbol order_id) x
      (.ok (), { m.settle x with cancels := x.cancels ++ [order_id] }.close order_id) := by
  have hh : m.handle (trade.order_id order_id (trade.CancelOrder symbol)) x =
      (accepted .canceled,
        { m.settle x with cancels := x.cancels ++ [order_id] }.close order_id) := by
    rw [handle_order rfl, requested_cancel]
    exact if_pos ho
  exact (request_run b hh).read fun json_data => do let _ ← json_data.field "status"

/-- The other requests change no order. -/
theorem get_account_run (m : Market) (b : BinanceBroker) (x : Exchange) :
    ∃ read : Option BinanceAccount,
      Answered m b b.get_account x (read.elim (.error .exception) .ok, m.settle x) :=
  ⟨_, (request_run b (handle_other (by decide))).read fun json_data => do
    (← json_data.field "balances").items.foldlM BinanceBroker.add_balance {}⟩

theorem get_klines_run (m : Market) (b : BinanceBroker) (start_time end_time : ℤ) (x : Exchange) :
    ∃ read : Option (List Candle),
      Answered m b (b.get_klines "BTCUSDT" "30m" start_time end_time) x
        (read.elim (.error .exception) .ok, m.settle x) := by
  refine ⟨_, (request_until_run b (handle_other ?_)).read fun json_data =>
    json_data.items.mapM BinanceBroker.get_kline⟩
  exact (by decide : "/api/v3/klines" ≠ "/api/v3/order")

end calls

end Market

end wedge
