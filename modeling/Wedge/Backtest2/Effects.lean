-- What each step of the engine does, in closed form. The proofs about runs use
-- these laws and never unfold the engine again.
import Wedge.Backtest2.Engine

namespace wedge.backtest2

/-! ## A change of many statuses at once -/

/-- Rewrites the status of each order, by its id and its old status. -/
def restatus (f : ℕ → OrderStatus → OrderStatus) (orders : List OrderBase) : List OrderBase :=
  orders.mapIdx fun j o => { o with status_ := f j o.status_ }

@[simp] theorem restatus_length (f : ℕ → OrderStatus → OrderStatus) (orders : List OrderBase) :
    (restatus f orders).length = orders.length := by
  simp [restatus]

theorem restatus_get (f : ℕ → OrderStatus → OrderStatus) (orders : List OrderBase) (j : ℕ) :
    (restatus f orders)[j]? = orders[j]?.map fun o => { o with status_ := f j o.status_ } := by
  simp [restatus]

theorem restatus_restatus (f g : ℕ → OrderStatus → OrderStatus) (orders : List OrderBase) :
    restatus g (restatus f orders) = restatus (fun j st => g j (f j st)) orders := by
  apply List.ext_getElem?
  intro j
  simp only [restatus_get, Option.map_map]
  rfl

theorem restatus_id (orders : List OrderBase) : restatus (fun _ st => st) orders = orders := by
  apply List.ext_getElem?
  intro j
  simp [restatus_get]

theorem restatus_congr {f g : ℕ → OrderStatus → OrderStatus} (orders : List OrderBase)
    (h : ∀ j o, orders[j]? = some o → f j o.status_ = g j o.status_) :
    restatus f orders = restatus g orders := by
  apply List.ext_getElem?
  intro j
  rw [restatus_get, restatus_get]
  cases ho : orders[j]? with
  | none => rfl
  | some o => simp [h j o ho]

namespace BacktestEngine

/-! ## The views of an engine -/

/-- The status of an order, or `none` when there is no such order. -/
def status? (s : BacktestEngine) (order_id : ℕ) : Option OrderStatus :=
  s.orders_[order_id]?.map OrderBase.status_

/-- The orders that a fill of the order triggers. -/
def children (s : BacktestEngine) (order_id : ℕ) : List ℕ :=
  (s.orders_[order_id]?.map OrderBase.triggered_).getD []

/-- The orders that a fill of the order cancels. -/
def rivals (s : BacktestEngine) (order_id : ℕ) : List ℕ :=
  (s.orders_[order_id]?.map OrderBase.canceled_).getD []

/-- Whether the candle meets the fill condition of the order. -/
def meets (s : BacktestEngine) (order_id : ℕ) (candle : Candle) : Bool :=
  (s.orders_[order_id]?.map fun o => o.meets candle).getD false

/-- The fill events of the run so far, with the order that sent each. -/
def fills (s : BacktestEngine) : List (ℕ × FillOrderEvent) :=
  s.heard.filterMap fun x => match x.2 with
    | .fill event => some (x.1, event)
    | _ => none

/-- The orders that have sent a fill event, in the order of the events. -/
def fired (s : BacktestEngine) : List ℕ := s.fills.map Prod.fst

theorem is_status_eq (s : BacktestEngine) (j : ℕ) (st : OrderStatus) :
    s.is_status j st = true ↔ s.status? j = some st := by
  unfold is_status status?
  cases s.orders_[j]? with
  | none => simp
  | some o => simp [OrderBase.is_status, eq_comm]

theorem status?_lt {s : BacktestEngine} {j : ℕ} {st : OrderStatus} (h : s.status? j = some st) :
    j < s.orders_.length := by
  unfold status? at h
  by_contra hge
  rw [List.getElem?_eq_none (by omega)] at h
  cases h

theorem status?_of_get {s : BacktestEngine} {j : ℕ} {o : OrderBase} (h : s.orders_[j]? = some o) :
    s.status? j = some o.status_ := by
  simp [status?, h]

theorem exists_get_of_status? {s : BacktestEngine} {j : ℕ} {st : OrderStatus}
    (h : s.status? j = some st) : ∃ o, s.orders_[j]? = some o ∧ o.status_ = st := by
  unfold status? at h
  cases ho : s.orders_[j]? with
  | none => simp [ho] at h
  | some o => exact ⟨o, rfl, by simpa [ho] using h⟩

/-! ## The writes -/

theorem write_status_eq (st : OrderStatus) (id : ℕ) (s : BacktestEngine) :
    s.write_status st id =
      { s with orders_ := restatus (fun j old => if j = id then st else old) s.orders_ } := by
  unfold write_status
  congr 1
  apply List.ext_getElem?
  intro j
  rw [List.getElem?_modify, restatus_get]
  cases s.orders_[j]? with
  | none => rfl
  | some o => by_cases h : id = j <;> simp [h, eq_comm]

/-- A fold of writes gives every order of the list the status. -/
theorem foldl_write_status (st : OrderStatus) (ids : List ℕ) (s : BacktestEngine) :
    ids.foldl (fun s id => s.write_status st id) s =
      { s with orders_ := restatus (fun j old => if j ∈ ids then st else old) s.orders_ } := by
  induction ids generalizing s with
  | nil => simp [restatus_id]
  | cons id ids ih =>
    rw [List.foldl_cons, ih, write_status_eq]
    simp only [restatus_restatus]
    congr 1
    apply restatus_congr
    intro j o _
    by_cases h : j = id <;> simp [h]

theorem status_of_ne_filled {st : OrderStatus} (h : st ≠ .kFilled) (id : ℕ) (s : BacktestEngine) :
    s.status st id = s.write_status st id := by
  simp [status, h]

theorem trigger_order_eq (s : BacktestEngine) (id : ℕ) :
    s.trigger_order id = { s with
      new_orders_ := s.new_orders_ ++ [id]
      orders_ := restatus (fun j old => if j = id then .kNew else old) s.orders_
      failed := s.failed ++ if s.is_status id .kPendingNew then [] else [id] } := by
  unfold trigger_order
  split <;> simp [write_status_eq]

/-- The triggered orders become new and stand at the end of the queue. An order that was not
pending is a failed assertion. -/
theorem foldl_trigger_order (ids : List ℕ) (s : BacktestEngine) (hnd : ids.Nodup) :
    ids.foldl trigger_order s = { s with
      new_orders_ := s.new_orders_ ++ ids
      orders_ := restatus (fun j old => if j ∈ ids then .kNew else old) s.orders_
      failed := s.failed ++ ids.filter fun id => !s.is_status id .kPendingNew } := by
  induction ids generalizing s with
  | nil => simp [restatus_id]
  | cons id ids ih =>
    obtain ⟨hid, hids⟩ := List.nodup_cons.mp hnd
    rw [List.foldl_cons, ih _ hids]
    have hsame : ∀ x ∈ ids, (s.trigger_order id).is_status x .kPendingNew =
        s.is_status x .kPendingNew := by
      intro x hx
      have hne : x ≠ id := fun h => hid (h ▸ hx)
      simp only [trigger_order_eq, is_status, restatus_get]
      cases s.orders_[x]? <;> simp [hne]
    rw [List.filter_congr (fun x hx => by rw [hsame x hx]), trigger_order_eq]
    simp only [restatus_restatus, List.append_assoc, List.singleton_append, List.filter_cons]
    congr 1
    · apply restatus_congr
      intro j o _
      by_cases h : j = id <;> simp [h]
    · cases s.is_status id .kPendingNew <;> simp

/-! ## One fill -/

/-- What a fill adds to the base account. -/
def base_delta (event : FillOrderEvent) : ℚ :=
  match event.side with
  | .kBuy => event.base * (1 - 1 / 10000)
  | .kSell => -event.base

/-- What a fill adds to the quote account. -/
def quote_delta (event : FillOrderEvent) : ℚ :=
  match event.side with
  | .kBuy => -event.quote
  | .kSell => event.quote * (1 - 1 / 10000)

/-- The status of order `j` after a fill of the order `o` with id `id`. -/
def after_fill (id : ℕ) (o : OrderBase) (j : ℕ) (old : OrderStatus) : OrderStatus :=
  if j ∈ o.canceled_ then .kCanceled
  else if j ∈ o.triggered_ then .kNew
  else if j = id then .kFilled
  else old

/-- The events of a fill: the fill first, then the trigger, then the cancel. -/
def fill_events (id : ℕ) (o : OrderBase) (event : FillOrderEvent) : List (ℕ × OrderEvent) :=
  (id, .fill event) ::
    ((if o.triggered_ = [] then [] else [(id, .trigger o.triggered_)]) ++
      (if o.canceled_ = [] then [] else [(id, .cancel o.canceled_)]))

/-- The engine after a fill of the order. -/
def filled (id : ℕ) (o : OrderBase) (event : FillOrderEvent) (s : BacktestEngine) :
    BacktestEngine :=
  { base_ := s.base_ + base_delta event
    quote_ := s.quote_ + quote_delta event
    new_orders_ := s.new_orders_ ++ o.triggered_
    order_lists_ := s.order_lists_
    orders_ := restatus (after_fill id o) s.orders_
    heard := s.heard ++ fill_events id o event
    failed := s.failed ++ o.triggered_.filter fun j => !s.is_status j .kPendingNew }

theorem on_fill_eq (event : FillOrderEvent) (s : BacktestEngine) :
    s.on_fill event =
      { s with base_ := s.base_ + base_delta event, quote_ := s.quote_ + quote_delta event } := by
  unfold on_fill base_delta quote_delta
  cases event.side <;> simp [sub_eq_add_neg]

/-- The trigger event of a fill, or nothing when the order triggers none. -/
theorem trigger_event_eq (id : ℕ) (ids : List ℕ) (s : BacktestEngine) (hnd : ids.Nodup) :
    (if ids ≠ [] then s.on_event id (.trigger ids) else s) = { s with
      new_orders_ := s.new_orders_ ++ ids
      orders_ := restatus (fun j old => if j ∈ ids then .kNew else old) s.orders_
      heard := s.heard ++ if ids = [] then [] else [(id, .trigger ids)]
      failed := s.failed ++ ids.filter fun j => !s.is_status j .kPendingNew } := by
  by_cases h : ids = []
  · simp [h, restatus_id]
  · simp only [ne_eq, h, not_false_eq_true, if_true, if_false, on_event]
    rw [foldl_trigger_order _ _ hnd]
    rfl

theorem cancel_event_eq (id : ℕ) (ids : List ℕ) (s : BacktestEngine) :
    (if ids ≠ [] then s.on_event id (.cancel ids) else s) = { s with
      orders_ := restatus (fun j old => if j ∈ ids then .kCanceled else old) s.orders_
      heard := s.heard ++ if ids = [] then [] else [(id, .cancel ids)] } := by
  by_cases h : ids = []
  · simp [h, restatus_id]
  · simp only [ne_eq, h, not_false_eq_true, if_true, if_false, on_event, foldl_write_status]

theorem fill_eq {s : BacktestEngine} {id : ℕ} {o : OrderBase} (event : FillOrderEvent)
    (ho : s.orders_[id]? = some o) (hnd : o.triggered_.Nodup) (hid : id ∉ o.triggered_) :
    (s.on_event id (.fill event)).status .kFilled id = s.filled id o event := by
  have hget : ∀ t : BacktestEngine, t.orders_ = s.orders_ →
      (t.write_status .kFilled id).orders_[id]? = some { o with status_ := .kFilled } := by
    intro t ht
    simp [write_status_eq, restatus_get, ht, ho]
  have hpending : ∀ j ∈ o.triggered_, ∀ t : BacktestEngine, t.orders_ = s.orders_ →
      (t.write_status .kFilled id).is_status j .kPendingNew = s.is_status j .kPendingNew := by
    intro j hj t ht
    have hne : j ≠ id := fun h => hid (h ▸ hj)
    simp only [write_status_eq, is_status, restatus_get, ht]
    cases s.orders_[j]? <;> simp [hne]
  have horders : (s.on_event id (.fill event)).orders_ = s.orders_ := by
    simp [on_event, on_fill_eq]
  rw [status, if_neg (fun h => h rfl)]
  simp only [hget _ horders]
  rw [cancel_event_eq, trigger_event_eq _ _ _ hnd,
    List.filter_congr (fun j hj => by rw [hpending j hj _ horders])]
  simp only [write_status_eq, restatus_restatus, horders]
  simp only [on_event, on_fill_eq, filled, fill_events, List.append_assoc, List.cons_append,
    List.nil_append]
  rfl

/-- One turn of the sweep: a new order whose condition the candle meets is filled, and every
other order stays as it is. -/
theorem update_order_eq {s : BacktestEngine} {id : ℕ} {o : OrderBase} (candle : Candle)
    (ho : s.orders_[id]? = some o) (hnd : o.triggered_.Nodup) (hid : id ∉ o.triggered_) :
    s.update_order candle id =
      if o.status_ = .kNew ∧ o.meets candle = true then s.filled id o (o.fill_event candle)
      else s := by
  simp only [update_order, ho, OrderBase.is_status, OrderBase.update_eq, decide_eq_true_eq,
    eq_comm (a := OrderStatus.kNew)]
  by_cases h : o.status_ = .kNew
  · by_cases hm : o.meets candle = true
    · simp [h, hm, fill_eq (o.fill_event candle) ho hnd hid]
    · simp [h, hm]
  · simp [h]

/-! ## The cancels -/

/-- The orders that a command cancels. -/
def named (s : BacktestEngine) : Command → List ℕ
  | .CancelOrder order_id => [order_id]
  | .CancelOrderList order_list_id => s.order_lists_.getD order_list_id []
  | .NewOrder _ => []
  | .NewOrderList _ => []

/-- The engine after a cancel of the orders. -/
def canceled (ids : List ℕ) (s : BacktestEngine) : BacktestEngine :=
  { s with orders_ := restatus (fun j old => if j ∈ ids then .kCanceled else old) s.orders_ }

theorem execute_cancel_order_eq (id : ℕ) (s : BacktestEngine) :
    s.execute_cancel_order id = s.canceled [id] := by
  simp [execute_cancel_order, status_of_ne_filled, write_status_eq, canceled]

theorem execute_cancel_order_list_eq (id : ℕ) (s : BacktestEngine) :
    s.execute_cancel_order_list id = s.canceled (s.order_lists_.getD id []) := by
  have hne : ∀ j (t : BacktestEngine), t.status .kCanceled j = t.write_status .kCanceled j :=
    fun j t => status_of_ne_filled (by simp) j t
  simp only [execute_cancel_order_list, hne, foldl_write_status]
  rfl

/-! ## The placements -/

/-- The engine after a placement of the orders. The first one goes into the queue. -/
def placed (batch : List OrderBase) (lists : List (List ℕ)) (s : BacktestEngine) :
    BacktestEngine :=
  { s with
    new_orders_ := s.new_orders_ ++ [s.orders_.length]
    order_lists_ := s.order_lists_ ++ lists
    orders_ := s.orders_ ++ batch }

/-- The orders of a list with their links, when the first one gets the id `n`. -/
def list_batch (n : ℕ) : NewOrderList → List OrderBase
  | .NewOtoOrderList working pending =>
    [{ make_order .kNew working with triggered_ := [n + 1] }, make_order .kPendingNew pending]
  | .NewOcoOrderList above below =>
    [{ make_order .kNew above with canceled_ := [n + 1] },
      { make_order .kPendingNew below with canceled_ := [n] }]
  | .NewOtocoOrderList working pending_above pending_below =>
    [{ make_order .kNew working with triggered_ := [n + 1, n + 2] },
      { make_order .kPendingNew pending_above with canceled_ := [n + 2] },
      { make_order .kPendingNew pending_below with canceled_ := [n + 1] }]

/-- The ids of the orders of a list, when the first one gets the id `n`. -/
def list_ids (n : ℕ) : NewOrderList → List ℕ
  | .NewOtoOrderList _ _ => [n, n + 1]
  | .NewOcoOrderList _ _ => [n, n + 1]
  | .NewOtocoOrderList _ _ _ => [n, n + 1, n + 2]

@[simp] theorem make_order_status (st : OrderStatus) (order : NewOrder) :
    (make_order st order).status_ = st := by cases order <;> rfl

@[simp] theorem make_order_triggered (st : OrderStatus) (order : NewOrder) :
    (make_order st order).triggered_ = [] := by cases order <;> rfl

@[simp] theorem make_order_canceled (st : OrderStatus) (order : NewOrder) :
    (make_order st order).canceled_ = [] := by cases order <;> rfl

theorem modify_behind (l m : List OrderBase) (i : ℕ) (f : OrderBase → OrderBase) :
    (l ++ m).modify (l.length + i) f = l ++ m.modify i f :=
  List.modifyTailIdx_add ..

theorem modify_first (l m : List OrderBase) (f : OrderBase → OrderBase) :
    (l ++ m).modify l.length f = l ++ m.modify 0 f := modify_behind l m 0 f

theorem execute_new_order_eq (order : NewOrder) (s : BacktestEngine) :
    s.execute_new_order order = (s.orders_.length, s.placed [make_order .kNew order] []) := by
  simp [execute_new_order, order_executor, add_base_order, OrderBase.is_status, placed]

theorem execute_new_order_list_eq (list : NewOrderList) (s : BacktestEngine) :
    s.execute_new_order_list list = (s.order_lists_.length,
      s.placed (list_batch s.orders_.length list) [list_ids s.orders_.length list]) := by
  cases list with
  | NewOtoOrderList working pending =>
    simp [execute_new_order_list, order_executor, add_base_order, OrderBase.is_status, placed,
      add_oto, add_order_list, add_triggered, OrderBase.add_triggered, list_batch, list_ids,
      modify_first]
  | NewOcoOrderList above below =>
    simp [execute_new_order_list, order_executor, add_base_order, OrderBase.is_status, placed,
      add_oco, add_order_list, add_canceled, OrderBase.add_canceled, list_batch, list_ids,
      modify_first, modify_behind]
  | NewOtocoOrderList working pending_above pending_below =>
    simp [execute_new_order_list, order_executor, add_base_order, OrderBase.is_status, placed,
      add_otoco, add_order_list, add_canceled, OrderBase.add_canceled, add_triggered,
      OrderBase.add_triggered, list_batch, list_ids, modify_first, modify_behind]

theorem execute_list_eq (list : NewOrderList) (s : BacktestEngine) :
    s.execute (.NewOrderList list) =
      s.placed (list_batch s.orders_.length list) [list_ids s.orders_.length list] := by
  simp [execute, execute_new_order_list_eq]

/-- What the orders of one placement look like, when the first one gets the id `n`: only the
first is new, only the first triggers others and then it has no rivals, and all links stay
inside the placement. -/
structure Batch (n : ℕ) (o : OrderBase) (rest : List OrderBase) : Prop where
  head : o.status_ = .kNew
  pending : ∀ x ∈ rest, x.status_ = .kPendingNew ∧ x.triggered_ = []
  child : ∀ c ∈ o.triggered_, n < c ∧ c < n + (rest.length + 1)
  child_nodup : o.triggered_.Nodup
  solo : o.triggered_ ≠ [] → o.canceled_ = []
  rival : ∀ i x y, (o :: rest)[i]? = some x → y ∈ x.canceled_ →
    n ≤ y ∧ y < n + (rest.length + 1) ∧ y ≠ n + i ∧
    (∃ z, (o :: rest)[y - n]? = some z ∧ n + i ∈ z.canceled_) ∧
    (y ∈ o.triggered_ → n + i ∈ o.triggered_)

theorem batch_single (n : ℕ) (order : NewOrder) : Batch n (make_order .kNew order) [] := by
  refine ⟨by simp, by simp, by simp, by simp, by simp, ?_⟩
  rintro (_ | i) x y hi hy <;> simp at hi
  subst hi
  simp at hy

theorem batch_list (n : ℕ) (list : NewOrderList) :
    ∃ o rest, list_batch n list = o :: rest ∧ Batch n o rest := by
  cases list with
  | NewOtoOrderList working pending =>
    refine ⟨_, _, rfl, by simp, by simp, by simp, by simp, by simp, ?_⟩
    rintro (_ | _ | i) x y hi hy <;> simp at hi <;> subst hi <;> simp at hy
  | NewOcoOrderList above below =>
    refine ⟨_, _, rfl, by simp, by simp, by simp, by simp, by simp, ?_⟩
    rintro (_ | _ | i) x y hi hy <;> simp at hi <;> subst hi <;> simp at hy <;> subst hy <;> simp
  | NewOtocoOrderList working pending_above pending_below =>
    refine ⟨_, _, rfl, by simp, by simp, by simp, by simp, by simp, ?_⟩
    rintro (_ | _ | _ | i) x y hi hy <;> simp at hi <;> subst hi <;> simp at hy <;> subst hy <;>
      simp

/-- What a command does: it cancels the orders that it names, or it names none and places
new orders. -/
theorem execute_cases (s : BacktestEngine) (c : Command) :
    s.execute c = s.canceled (s.named c) ∨
      s.named c = [] ∧ ∃ o rest lists, s.execute c = s.placed (o :: rest) lists ∧
        Batch s.orders_.length o rest ∧
        ∀ ids ∈ lists, ∀ id ∈ ids, s.orders_.length ≤ id ∧
          id < s.orders_.length + (rest.length + 1) := by
  cases c with
  | CancelOrder id => exact Or.inl (execute_cancel_order_eq id s)
  | CancelOrderList id => exact Or.inl (execute_cancel_order_list_eq id s)
  | NewOrder order =>
    refine Or.inr ⟨rfl, make_order .kNew order, [], [], ?_, batch_single _ order, by simp⟩
    simp [execute, execute_new_order_eq]
  | NewOrderList list =>
    obtain ⟨o, rest, hbatch, hgood⟩ := batch_list s.orders_.length list
    refine Or.inr ⟨rfl, o, rest, [list_ids s.orders_.length list], ?_, hgood, ?_⟩
    · simp [execute, execute_new_order_list_eq, hbatch]
    · have hlen := congrArg List.length hbatch
      cases list <;> simp [list_ids, list_batch] at hlen ⊢ <;> omega

end BacktestEngine

end wedge.backtest2
