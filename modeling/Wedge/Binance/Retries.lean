-- Orders under retries. A try can fail before the exchange gets the request and
-- after it has accepted it. The client sends the same request again in both
-- cases, and the exchange creates one order for each request that it gets.
import Wedge.Binance.Broker

namespace wedge

open programs

/-! ## A network that fails -/

/-- How one try of `request_until` goes. -/
inductive Attempt
  /-- The lookup of the host throws. -/
  | resolve_throws
  | connect_fails
  /-- The request does not reach the exchange. -/
  | write_fails
  /-- The exchange has accepted the request, and the response is not read. -/
  | read_fails
  | clean
  deriving DecidableEq, Repr

/-- The exchange with the state `ξ` behind a network. The next tries go as the list says, and
the tries after them are clean. -/
structure Link (ξ : Type) where
  attempts : List Attempt
  exchange : ξ
  deriving DecidableEq, Repr

variable {ξ : Type}

def flaky (handle : Request → ξ → Response × ξ) : Net (Link ξ)
  | .connect_sync, w =>
    match w.attempts with
    | .resolve_throws :: rest => (.raised, { w with attempts := rest })
    | .connect_fails :: rest => (.failed, { w with attempts := rest })
    | _ => (.connected, w)
  | .send_sync r, w =>
    match w.attempts with
    | .write_fails :: rest => (none, { w with attempts := rest })
    | .read_fails :: rest => (none, { attempts := rest, exchange := (handle r w.exchange).2 })
    | _ =>
      (some (handle r w.exchange).1,
        { attempts := w.attempts.tail, exchange := (handle r w.exchange).2 })

/-- The tries that a call makes: it stops after a clean one and after one that throws. -/
def tries : ℕ → List Attempt → List Attempt
  | 0, _ => []
  | _ + 1, [] => [.clean]
  | n + 1, a :: rest => a :: if a = .clean ∨ a = .resolve_throws then [] else tries n rest

/-- Whether the exchange gets the request of the try. -/
def Attempt.received : Attempt → Bool
  | .read_fails => true
  | .clean => true
  | _ => false

/-- What the exchange does with an order request that carries no client order id: it creates
one new order, and answers with the code 200 and the id of the order. The view `created` lists
the ids of all its orders, first order first. -/
structure CreatesPerPost (handle : Request → ξ → Response × ξ) (created : ξ → List ℕ) : Prop where
  creates : ∀ (r : Request) (x : ξ), r.method = .post → r.path = "/api/v3/order" →
    r.param "newClientOrderId" = none →
    ∃ (id : ℕ) (fields : List (String × Json)), id < 2 ^ 64 ∧
      created (handle r x).2 = created x ++ [id] ∧
      (handle r x).1 = { result := 200, body := .obj fields } ∧
      fields.lookup "orderId" = some (.num id)

/-! ## One try -/

section tries

variable {handle : Request → ξ → Response × ξ} {r : Request} {x : ξ} {rest : List Attempt}

theorem once_resolve_throws : run (serve (flaky handle)) (requset_once r)
    { attempts := .resolve_throws :: rest, exchange := x } =
      (.error .exception, { attempts := rest, exchange := x }) := rfl

theorem once_connect_fails : run (serve (flaky handle)) (requset_once r)
    { attempts := .connect_fails :: rest, exchange := x } =
      (.ok none, { attempts := rest, exchange := x }) := rfl

theorem once_write_fails : run (serve (flaky handle)) (requset_once r)
    { attempts := .write_fails :: rest, exchange := x } =
      (.ok none, { attempts := rest, exchange := x }) := rfl

theorem once_read_fails : run (serve (flaky handle)) (requset_once r)
    { attempts := .read_fails :: rest, exchange := x } =
      (.ok none, { attempts := rest, exchange := (handle r x).2 }) := rfl

theorem once_clean {body : Json} {attempts : List Attempt}
    (ha : attempts = [] ∨ attempts = .clean :: rest)
    (hr : (handle r x).1 = { result := 200, body := body }) :
    run (serve (flaky handle)) (requset_once r) { attempts := attempts, exchange := x } =
      (.ok (some body), { attempts := attempts.tail, exchange := (handle r x).2 }) := by
  rw [requset_once, BinanceHttpClient.run_connect]
  rcases ha with rfl | rfl <;> simp only [flaky] <;> rw [BinanceHttpClient.run_send] <;>
    simp [flaky, hr]

end tries

/-! ## The retries -/

/-- The orders that a run of the retries creates: one for each try that the exchange gets. The
result is the answer to the last one. -/
structure Created (created : ξ → List ℕ) (r : Request) (n : ℕ) (w : Link ξ)
    (out : Except Fault Json × Link ξ) (ids : List ℕ) : Prop where
  grown : created out.2.exchange = created w.exchange ++ ids
  count : ids.length = (tries n w.attempts).countP Attempt.received
  small : ∀ id ∈ ids, id < 2 ^ 64
  result : ∀ body, out.1 = .ok body → ∃ id fields, ids.getLast? = some id ∧
    body = .obj fields ∧ fields.lookup "orderId" = some (.num id)

theorem Created.none_yet {created : ξ → List ℕ} {r : Request} {n : ℕ} {w : Link ξ}
    {f : Fault} {w' : Link ξ} (hw : w'.exchange = w.exchange)
    (hcount : (tries n w.attempts).countP Attempt.received = 0) :
    Created created r n w (.error f, w') [] := by
  refine ⟨by simp [hw], by simp [hcount], by simp, ?_⟩
  intro body hb
  cases hb

/-- A try before the others that created no order. -/
theorem Created.skip {created : ξ → List ℕ} {r : Request} {n : ℕ} {x : ξ} {a : Attempt}
    {rest : List Attempt} {out : Except Fault Json × Link ξ} {ids : List ℕ}
    (ha : a = .connect_fails ∨ a = .write_fails)
    (h : Created created r n { attempts := rest, exchange := x } out ids) :
    Created created r (n + 1) { attempts := a :: rest, exchange := x } out ids := by
  refine ⟨h.grown, ?_, h.small, h.result⟩
  rw [h.count]
  rcases ha with rfl | rfl <;> simp [tries, Attempt.received]

/-- A try before the others that created an order whose answer was lost. -/
theorem Created.lost {created : ξ → List ℕ} {r : Request} {n id : ℕ} {x x' : ξ}
    {rest : List Attempt} {out : Except Fault Json × Link ξ} {ids : List ℕ}
    (hid : id < 2 ^ 64) (hx : created x' = created x ++ [id])
    (hlast : ids = [] → ∀ body, out.1 ≠ .ok body)
    (h : Created created r n { attempts := rest, exchange := x' } out ids) :
    Created created r (n + 1) { attempts := .read_fails :: rest, exchange := x } out
      (id :: ids) := by
  refine ⟨?_, ?_, ?_, ?_⟩
  · have hg : created out.2.exchange = created x' ++ ids := h.grown
    rw [hg, hx, List.append_assoc]
    rfl
  · have hc : ids.length = (tries n rest).countP Attempt.received := h.count
    change _ = (Attempt.read_fails :: tries n rest).countP Attempt.received
    rw [List.countP_cons_of_pos rfl, List.length_cons, hc]
  · intro y hy
    rcases List.mem_cons.mp hy with rfl | hy
    · exact hid
    · exact h.small y hy
  · intro body hb
    obtain ⟨last, fields, h1, h2, h3⟩ := h.result body hb
    refine ⟨last, fields, ?_, h2, h3⟩
    cases hids : ids with
    | nil => exact absurd hb (hlast hids body)
    | cons y ys =>
      rw [hids] at h1
      rw [List.getLast?_cons_cons]
      exact h1

theorem created_until {handle : Request → ξ → Response × ξ} {created : ξ → List ℕ}
    (hx : CreatesPerPost handle created) {r : Request} (hm : r.method = .post)
    (hp : r.path = "/api/v3/order") (hc : r.param "newClientOrderId" = none) (n : ℕ)
    (w : Link ξ) :
    ∃ ids, Created created r n w (run (serve (flaky handle)) (request_until r n) w) ids := by
  induction n generalizing w with
  | zero => exact ⟨[], Created.none_yet rfl rfl⟩
  | succ n ih =>
    obtain ⟨attempts, x⟩ := w
    obtain ⟨id, fields, hid, hgrow, hbody, hfield⟩ := hx.creates r x hm hp hc
    -- A clean try, at the end of the list or in it, ends the retries.
    have hclean : ∀ rest, attempts = [] ∨ attempts = .clean :: rest →
        Created created r (n + 1) { attempts := attempts, exchange := x }
          (run (serve (flaky handle)) (request_until r (n + 1))
            { attempts := attempts, exchange := x }) [id] := by
      intro rest ha
      rw [request_until, run_bind_ok _ (once_clean ha hbody)]
      refine ⟨hgrow, ?_, by simpa using hid, ?_⟩
      · rcases ha with rfl | rfl <;> simp [tries, Attempt.received]
      · intro body hb
        cases hb
        exact ⟨id, fields, rfl, rfl, hfield⟩
    rcases attempts with _ | ⟨a, rest⟩
    · exact ⟨[id], hclean [] (Or.inl rfl)⟩
    cases a with
    | resolve_throws =>
      rw [request_until, run_bind_error _ once_resolve_throws]
      exact ⟨[], Created.none_yet rfl rfl⟩
    | connect_fails =>
      rw [request_until, run_bind_ok _ once_connect_fails]
      obtain ⟨ids, h⟩ := ih { attempts := rest, exchange := x }
      exact ⟨ids, h.skip (Or.inl rfl)⟩
    | write_fails =>
      rw [request_until, run_bind_ok _ once_write_fails]
      obtain ⟨ids, h⟩ := ih { attempts := rest, exchange := x }
      exact ⟨ids, h.skip (Or.inr rfl)⟩
    | read_fails =>
      rw [request_until, run_bind_ok _ once_read_fails]
      obtain ⟨ids, h⟩ := ih { attempts := rest, exchange := (handle r x).2 }
      refine ⟨id :: ids, h.lost hid hgrow fun hids body hb => ?_⟩
      obtain ⟨last, _, h1, _⟩ := h.result body hb
      rw [hids] at h1
      cases h1
    | clean => exact ⟨[id], hclean rest (Or.inr rfl)⟩

/-! ## The orders of one call -/

/-- The requests of the four functions that create an order. -/
def order_request (symbol : String) : OrderCall → Request
  | .limit_buy_order quantity price => BinanceBroker.limit_order symbol .kBuy quantity price
  | .limit_sell_order quantity price => BinanceBroker.limit_order symbol .kSell quantity price
  | .market_buy_order quantity => BinanceBroker.market_order symbol .kBuy quantity
  | .market_sell_order quantity => BinanceBroker.market_order symbol .kSell quantity

theorem create_eq (b : BinanceBroker) (symbol : String) (order : OrderCall) :
    b.create symbol order = b.create_order (order_request symbol order) := by
  cases order <;> rfl

/-- Each of them is an order request without a client order id. -/
theorem order_request_plain (symbol : String) (order : OrderCall) (c : Credentials) :
    ((order_request symbol order).with_credentials c).method = .post ∧
      ((order_request symbol order).with_credentials c).path = "/api/v3/order" ∧
      ((order_request symbol order).with_credentials c).param "newClientOrderId" = none := by
  cases order <;> exact ⟨rfl, rfl, rfl⟩

/-- The answer to an order request, read as `create_order` reads it. -/
theorem read_order_id {fields : List (String × Json)} {id : ℕ}
    (hf : fields.lookup "orderId" = some (.num id)) (hid : id < 2 ^ 64) :
    (do (← (Json.obj fields).field "orderId").get_uint64) = some id := by
  have hmod : ((id : ℤ) % 2 ^ 64).toNat = id := by omega
  rw [Json.field, hf]
  exact congrArg some hmod

theorem received_le (l : List Attempt) (h : Attempt.read_fails ∉ l) :
    l.countP Attempt.received = l.count .clean := by
  rw [List.count]
  apply List.countP_congr
  intro a ha
  cases a with
  | read_fails => exact absurd ha h
  | _ => decide

theorem tries_clean_le (n : ℕ) (l : List Attempt) : (tries n l).count .clean ≤ 1 := by
  induction n generalizing l with
  | zero => simp [tries]
  | succ n ih =>
    rcases l with _ | ⟨a, rest⟩
    · simp [tries]
    · have h1 := ih rest
      rw [tries]
      by_cases ha : a = .clean
      · simp [ha]
      · rw [List.count_cons_of_ne ha]
        split
        · simp
        · exact h1

/-- A call of a create function creates exactly one order for each try that the exchange gets,
and an id that it returns is the id of the last one. So the call creates at most one order if
and only if the exchange gets at most one of its tries, and the id that it returns is its only
order if and only if the exchange got exactly one. When no try fails after the exchange has
accepted it, the call creates at most one order. -/
theorem a_call_creates_one_order_per_received_try (handle : Request → ξ → Response × ξ)
    (created : ξ → List ℕ) (hx : CreatesPerPost handle created) (b : BinanceBroker)
    (c : Credentials) (hb : b.credentials_ = some c) (symbol : String) (order : OrderCall)
    (w : Link ξ) :
    ∃ ids, created (run (serve (flaky handle)) (b.create symbol order) w).2.exchange =
        created w.exchange ++ ids ∧
      ids.length = (tries b.retry_count_ w.attempts).countP Attempt.received ∧
      (∀ id, (run (serve (flaky handle)) (b.create symbol order) w).1 = .ok id →
        ids.getLast? = some id ∧
          (ids = [id] ↔ (tries b.retry_count_ w.attempts).countP Attempt.received = 1)) ∧
      (Attempt.read_fails ∉ tries b.retry_count_ w.attempts → ids.length ≤ 1) := by
  obtain ⟨hm, hp, hc⟩ := order_request_plain symbol order c
  obtain ⟨ids, h⟩ := created_until hx hm hp hc b.retry_count_ w
  have hcount := h.count
  have hle : Attempt.read_fails ∉ tries b.retry_count_ w.attempts → ids.length ≤ 1 := by
    intro hno
    rw [hcount, received_le _ hno]
    exact tries_clean_le _ _
  -- The retries leave their last state, and reading the answer keeps it.
  have hout : ∃ res, run (serve (flaky handle)) (b.create symbol order) w =
      (res, (run (serve (flaky handle))
        (request_until ((order_request symbol order).with_credentials c) b.retry_count_) w).2) ∧
      ∀ id, res = .ok id → ids.getLast? = some id := by
    rw [create_eq, BinanceBroker.create_order, BinanceBroker.request, hb]
    rcases ho : run (serve (flaky handle))
      (request_until ((order_request symbol order).with_credentials c) b.retry_count_) w with
      ⟨f | body, w'⟩
    · refine ⟨.error f, run_bind_error _ ho _, fun id hid => ?_⟩
      cases hid
    · obtain ⟨id, fields, hlast, rfl, hf⟩ := h.result body (by rw [ho])
      have hid := h.small id (List.mem_of_getLast? hlast)
      refine ⟨.ok id, ?_, fun id' hid' => ?_⟩
      · rw [run_bind_ok _ ho]
        rw [read_order_id hf hid]
        rfl
      · cases hid'
        exact hlast
  obtain ⟨res, hrun, hres⟩ := hout
  rw [hrun]
  refine ⟨ids, h.grown, hcount, fun id hid => ?_, hle⟩
  have hlast := hres id hid
  refine ⟨hlast, ?_⟩
  rw [← hcount]
  constructor
  · rintro rfl
    rfl
  · intro hone
    obtain ⟨y, rfl⟩ := List.length_eq_one_iff.mp hone
    cases hlast
    rfl

/-- An exchange that gives the ids 0, 1, 2 and so on, up to the width of an id. -/
def counting_exchange (r : Request) (orders : List ℕ) : Response × List ℕ :=
  if r.method = .post then
    let id : ℕ := orders.length % 2 ^ 64
    ({ result := 200, body := .obj [("orderId", .num id)] }, orders ++ [id])
  else ({ result := 200, body := .null }, orders)

theorem counting_creates : CreatesPerPost counting_exchange id := by
  refine ⟨fun r x hm _ _ => ?_⟩
  refine ⟨x.length % 2 ^ 64, [("orderId", .num (x.length % 2 ^ 64 : ℕ))],
    Nat.mod_lt _ (by decide), ?_, ?_, rfl⟩ <;>
    simp [counting_exchange, hm]

def retry_broker : BinanceBroker :=
  { credentials_ := some { api_key := "key", secret_key := "secret" } }

theorem a_clean_call_creates_one_order :
    ∃ ids, ids.length = 1 ∧
      (run (serve (flaky counting_exchange)) (retry_broker.create "BTCUSDT" (.market_buy_order 1))
        { attempts := [.connect_fails, .clean], exchange := [] }).2.exchange = [] ++ ids := by
  obtain ⟨ids, hgrown, hcount, _⟩ := a_call_creates_one_order_per_received_try counting_exchange id
    counting_creates retry_broker _ rfl "BTCUSDT" (.market_buy_order 1)
    { attempts := [.connect_fails, .clean], exchange := [] }
  exact ⟨ids, hcount.trans (by decide), hgrown⟩

/-- The exchange accepts the first try and the client cannot read the answer. The second try is
clean: the call returns the id 1, and the order 0 is live too. -/
theorem a_lost_answer_creates_a_second_order :
    CreatesPerPost counting_exchange id ∧
      run (serve (flaky counting_exchange)) (retry_broker.create "BTCUSDT" (.market_buy_order 1))
          { attempts := [.read_fails, .clean], exchange := [] } =
        (.ok 1, { attempts := [], exchange := [0, 1] }) :=
  ⟨counting_creates, rfl⟩

end wedge
