-- The orders of one group, seen alone. A group never separates the orders of a
-- list. The engine restricted to a group runs as the engine would run with the
-- commands of that group alone.
import Wedge.Lib.Positions
import Wedge.Backtest2.Ledger

namespace wedge.backtest2

/-! ## Other ids for the same orders -/

def OrderBase.rename (f : ℕ → ℕ) (o : OrderBase) : OrderBase :=
  { o with triggered_ := o.triggered_.map f, canceled_ := o.canceled_.map f }

def OrderEvent.rename (f : ℕ → ℕ) : OrderEvent → OrderEvent
  | .fill event => .fill event
  | .trigger orders => .trigger (orders.map f)
  | .cancel orders => .cancel (orders.map f)

namespace BacktestEngine

theorem fill_events_rename (f : ℕ → ℕ) (id : ℕ) (o : OrderBase) (event : FillOrderEvent) :
    (fill_events id o event).map (fun x => (f x.1, x.2.rename f)) =
      fill_events (f id) (o.rename f) event := by
  unfold fill_events
  by_cases ht : o.triggered_ = [] <;> by_cases hc : o.canceled_ = [] <;>
    simp [ht, hc, OrderBase.rename, OrderEvent.rename]

theorem fill_events_sender {id : ℕ} {o : OrderBase} {event : FillOrderEvent} {x : ℕ × OrderEvent}
    (h : x ∈ fill_events id o event) : x.1 = id := by
  unfold fill_events at h
  split_ifs at h <;> simp at h <;> grind

/-- The links of an order stay in its group. -/
def Linked {ι : Type*} (part : ℕ → ι) (s : BacktestEngine) : Prop :=
  ∀ w c, c ∈ s.children w ∨ c ∈ s.rivals w → part c = part w

theorem linked_update_order {ι : Type*} {part : ℕ → ι} {s : BacktestEngine} (hw : Wired s)
    (h : Linked part s) (candle : Candle) (id : ℕ) : Linked part (s.update_order candle id) := by
  refine turn_of_fill hw (fun o _ _ _ w c hc => ?_) h
  rw [filled_children, filled_rivals] at hc
  exact h w c hc

section groups

variable {ι : Type*} [DecidableEq ι] (part : ℕ → ι) (g : ι)

/-- Whether an order is of the group. -/
def of_group (id : ℕ) : Bool := part id = g

/-- Whether a list is of the group, by its first order. -/
def list_of_group (ids : List ℕ) : Bool := part (ids.headD 0) = g

/-- The id of an order of the group, when the group runs alone. -/
def local_id (id : ℕ) : ℕ := positions.rank (of_group part g) id

/-- The group never separates the orders of one list. -/
def Separated (s : BacktestEngine) : Prop :=
  ∀ ids ∈ s.order_lists_, ∀ a ∈ ids, ∀ b ∈ ids, part a = part b

/-- What one group sees of the engine. Its accounts hold only what its fills brought. -/
def restrict (s : BacktestEngine) : BacktestEngine :=
  let fills := s.fills.filter fun f => of_group part g f.1
  { base_ := (fills.map fun f => base_delta f.2).sum
    quote_ := (fills.map fun f => quote_delta f.2).sum
    new_orders_ := (s.new_orders_.filter (of_group part g)).map (local_id part g)
    order_lists_ := (s.order_lists_.filter (list_of_group part g)).map fun ids =>
      ids.map (local_id part g)
    orders_ := (positions.chosen (of_group part g) s.orders_).map fun x =>
      x.1.rename (local_id part g)
    heard := (s.heard.filter fun x => of_group part g x.1).map fun x =>
      (local_id part g x.1, x.2.rename (local_id part g))
    failed := (s.failed.filter (of_group part g)).map (local_id part g) }

/-! ## What the group sees -/

variable {part g}

theorem restrict_get (s : BacktestEngine) {id : ℕ} (h : of_group part g id = true) :
    (restrict part g s).orders_[local_id part g id]? =
      s.orders_[id]?.map (OrderBase.rename (local_id part g)) := by
  simp only [restrict, local_id, List.getElem?_map, positions.chosen_get s.orders_ h,
    Option.map_map]
  rfl

theorem restrict_status? (s : BacktestEngine) {id : ℕ} (h : of_group part g id = true) :
    (restrict part g s).status? (local_id part g id) = s.status? id := by
  unfold status?
  rw [restrict_get s h, Option.map_map]
  rfl

theorem restrict_is_status (s : BacktestEngine) {id : ℕ} (h : of_group part g id = true)
    (st : OrderStatus) :
    (restrict part g s).is_status (local_id part g id) st = s.is_status id st := by
  rw [Bool.eq_iff_iff, is_status_eq, is_status_eq, restrict_status? s h]

theorem restrict_length (s : BacktestEngine) :
    (restrict part g s).orders_.length = local_id part g s.orders_.length := by
  simp [restrict, positions.chosen_length, local_id]

theorem mem_map_local {l : List ℕ} {i : ℕ} (hl : ∀ j ∈ l, of_group part g j = true)
    (hi : of_group part g i = true) : local_id part g i ∈ l.map (local_id part g) ↔ i ∈ l :=
  positions.mem_map_rank hl hi

theorem local_id_inj {i j : ℕ} (hi : of_group part g i = true) (hj : of_group part g j = true) :
    local_id part g i = local_id part g j ↔ i = j :=
  ⟨positions.rank_inj hi hj, fun h => h ▸ rfl⟩

/-- A change of statuses, as the group sees it. -/
theorem restrict_restatus (f f' : ℕ → OrderStatus → OrderStatus) (orders : List OrderBase)
    (h : ∀ i st, of_group part g i = true → f' (local_id part g i) st = f i st) :
    (positions.chosen (of_group part g) (restatus f orders)).map
        (fun x => x.1.rename (local_id part g)) =
      restatus f' ((positions.chosen (of_group part g) orders).map
        fun x => x.1.rename (local_id part g)) := by
  unfold restatus
  rw [positions.chosen_mapIdx, List.map_map, positions.mapIdx_chosen _ _
    (fun i o => { o with status_ := f i o.status_ }) _ (fun i o _ hi => by
      rw [show positions.rank (of_group part g) i = local_id part g i from rfl, h i _ hi])]
  rfl

theorem all_of_group {l : List ℕ} (h : ∀ j ∈ l, of_group part g j = true) :
    l.filter (of_group part g) = l := List.filter_eq_self.mpr h

theorem none_of_group {l : List ℕ} (h : ∀ j ∈ l, of_group part g j = false) :
    l.filter (of_group part g) = [] :=
  List.filter_eq_nil_iff.mpr fun j hj => by simp [h j hj]

/-! ## Fills -/

/-- A fill in the group is a fill of the group alone. -/
theorem restrict_filled_in {s : BacktestEngine} {id : ℕ} {o : OrderBase} (event : FillOrderEvent)
    (hid : of_group part g id = true) (ht : ∀ c ∈ o.triggered_, of_group part g c = true)
    (hc : ∀ c ∈ o.canceled_, of_group part g c = true) :
    restrict part g (s.filled id o event) =
      (restrict part g s).filled (local_id part g id) (o.rename (local_id part g)) event := by
  have hafter : ∀ i st, of_group part g i = true →
      after_fill (local_id part g id) (o.rename (local_id part g)) (local_id part g i) st =
        after_fill id o i st := by
    intro i st hi
    simp only [after_fill, OrderBase.rename, mem_map_local ht hi, mem_map_local hc hi,
      local_id_inj hi hid]
  have hevents : (fill_events id o event).filter (fun x => of_group part g x.1) =
      fill_events id o event := List.filter_eq_self.mpr fun x hx => by
    rw [fill_events_sender hx, hid]
  have hfailed : ((o.triggered_.filter fun j => !s.is_status j .kPendingNew).filter
      (of_group part g)).map (local_id part g) = (o.triggered_.map (local_id part g)).filter
        fun j => !(restrict part g s).is_status j .kPendingNew := by
    rw [all_of_group fun j hj => ht j (List.mem_filter.mp hj).1, List.filter_map]
    congr 1
    apply List.filter_congr
    intro j hj
    simp only [Function.comp, restrict_is_status s (ht j hj)]
  have hfills : (s.filled id o event).fills.filter (fun f => of_group part g f.1) =
      s.fills.filter (fun f => of_group part g f.1) ++ [(id, event)] := by
    rw [filled_fills, List.filter_append]
    simp [hid]
  unfold restrict
  rw [hfills]
  simp only [filled, List.filter_append, List.map_append, all_of_group ht, hevents,
    fill_events_rename, List.sum_append, restrict_restatus _ _ _ hafter]
  rw [hfailed]
  simp [restrict, OrderBase.rename]

/-- The group does not see a fill in another group. -/
theorem restrict_filled_out {s : BacktestEngine} {id : ℕ} {o : OrderBase} (event : FillOrderEvent)
    (hid : of_group part g id = false) (ht : ∀ c ∈ o.triggered_, of_group part g c = false)
    (hc : ∀ c ∈ o.canceled_, of_group part g c = false) :
    restrict part g (s.filled id o event) = restrict part g s := by
  have hafter : ∀ i st, of_group part g i = true → st = after_fill id o i st := by
    intro i st hi
    have h1 : i ∉ o.canceled_ := fun h => by simp [hc i h] at hi
    have h2 : i ∉ o.triggered_ := fun h => by simp [ht i h] at hi
    have h3 : i ≠ id := fun h => by simp [h, hid] at hi
    simp [after_fill, h1, h2, h3]
  have hevents : (fill_events id o event).filter (fun x => of_group part g x.1) = [] :=
    List.filter_eq_nil_iff.mpr fun x hx => by rw [fill_events_sender hx, hid]; simp
  have hfills : (s.filled id o event).fills.filter (fun f => of_group part g f.1) =
      s.fills.filter (fun f => of_group part g f.1) := by
    rw [filled_fills, List.filter_append]
    simp [hid]
  unfold restrict
  rw [hfills]
  simp only [filled, List.filter_append, none_of_group ht, hevents, List.append_nil,
    restrict_restatus _ (fun _ st => st) _ hafter, restatus_id,
    none_of_group fun j hj => ht j (List.mem_filter.mp hj).1]

/-! ## Sweeps -/

theorem Linked.same_group {s : BacktestEngine} {id : ℕ} {o : OrderBase} (h : Linked part s)
    (ho : s.orders_[id]? = some o) :
    (∀ c ∈ o.triggered_, of_group part g c = of_group part g id) ∧
      ∀ c ∈ o.canceled_, of_group part g c = of_group part g id := by
  refine ⟨fun c hc => ?_, fun c hc => ?_⟩
  · rw [← children_of_get ho] at hc
    simp only [of_group, h id c (Or.inl hc)]
  · rw [← rivals_of_get ho] at hc
    simp only [of_group, h id c (Or.inr hc)]

theorem restrict_update_in {s : BacktestEngine} (hw : Wired s) (h : Linked part s)
    (candle : Candle) {id : ℕ} (hid : of_group part g id = true) :
    restrict part g (s.update_order candle id) =
      (restrict part g s).update_order candle (local_id part g id) := by
  have hget := restrict_get s hid
  cases ho : s.orders_[id]? with
  | none =>
    rw [ho, Option.map_none] at hget
    simp only [update_order, ho, hget]
  | some o =>
    rw [ho, Option.map_some] at hget
    obtain ⟨ht, hc⟩ := h.same_group (g := g) ho
    simp only [hid] at ht hc
    have hself : id ∉ o.triggered_ := by
      rw [← children_of_get ho]
      exact hw.not_self_child
    have hnd : o.triggered_.Nodup := by
      rw [← children_of_get ho]
      exact hw.child_nodup id
    rw [update_order_eq candle ho hnd hself, update_order_eq candle hget
      (positions.nodup_map_rank ht hnd) (fun h1 => hself ((mem_map_local ht hid).mp h1))]
    change _ = if o.status_ = .kNew ∧ o.meets candle = true then _ else _
    by_cases hm : o.status_ = .kNew ∧ o.meets candle = true
    · rw [if_pos hm, if_pos hm, restrict_filled_in _ hid ht hc]
      rfl
    · rw [if_neg hm, if_neg hm]

theorem restrict_update_out {s : BacktestEngine} (hw : Wired s) (h : Linked part s)
    (candle : Candle) {id : ℕ} (hid : of_group part g id = false) :
    restrict part g (s.update_order candle id) = restrict part g s := by
  rcases update_order_cases hw candle id with ⟨o, ho, _, _, he⟩ | ⟨_, he⟩
  · obtain ⟨ht, hc⟩ := h.same_group (g := g) ho
    simp only [hid] at ht hc
    rw [he, restrict_filled_out _ hid ht hc]
  · rw [he]

theorem restrict_remove_stale (s : BacktestEngine) :
    restrict part g s.remove_stale = (restrict part g s).remove_stale := by
  have hqueue : ((s.new_orders_.filter fun id => s.is_status id .kNew).filter
      (of_group part g)).map (local_id part g) =
        ((s.new_orders_.filter (of_group part g)).map (local_id part g)).filter
          fun id => (restrict part g s).is_status id .kNew := by
    rw [List.filter_map, List.filter_comm]
    congr 1
    apply List.filter_congr
    intro id hid
    simp only [Function.comp, restrict_is_status s (List.mem_filter.mp hid).2]
  have h : restrict part g s.remove_stale = { restrict part g s with
      new_orders_ := ((s.new_orders_.filter fun id => s.is_status id .kNew).filter
        (of_group part g)).map (local_id part g) } := rfl
  rw [h, hqueue]
  rfl

/-- A sweep, seen by the group, is the sweep of the group alone. -/
theorem restrict_sweep {fuel : ℕ} {s s' : BacktestEngine} {candle : Candle} (hs : Sound s)
    (h : Linked part s) (hrun : s.update_new_orders fuel candle = some s') :
    (restrict part g s).update_new_orders fuel candle = some (restrict part g s') := by
  obtain ⟨t, ht, rfl⟩ := Option.map_eq_some_iff.mp hrun
  have hwalk : worklist.walk new_orders_ (update_order candle) fuel 0 (restrict part g s) =
      some (restrict part g t) := worklist.walk_view (p := fun t => Sound t ∧ Linked part t)
    (restrict part g) (of_group part g) (local_id part g) (fun _ => rfl)
    (fun u id hu _ => ⟨sound_update_order candle id hu.1,
      linked_update_order hu.1.wired hu.2 candle id⟩)
    (fun u id hu _ => by
      rcases update_order_queue hu.1.wired candle id with he | he <;> rw [he]
      exact List.prefix_append _ _)
    (fun u id hu _ hid => restrict_update_out hu.1.wired hu.2 candle hid)
    (fun u id hu _ hid => restrict_update_in hu.1.wired hu.2 candle hid)
    ⟨hs, h⟩ (Nat.zero_le _) ht
  rw [update_new_orders, hwalk, Option.map_some, restrict_remove_stale]

/-! ## Commands -/

theorem restrict_canceled_in {s : BacktestEngine} {ids : List ℕ}
    (h : ∀ id ∈ ids, of_group part g id = true) :
    restrict part g (s.canceled ids) = (restrict part g s).canceled (ids.map (local_id part g)) := by
  have hst : ∀ i st, of_group part g i = true →
      (if local_id part g i ∈ ids.map (local_id part g) then OrderStatus.kCanceled else st) =
        if i ∈ ids then .kCanceled else st := by
    intro i st hi
    simp only [mem_map_local h hi]
  have horders := restrict_restatus (fun j old => if j ∈ ids then OrderStatus.kCanceled else old)
    (fun j old => if j ∈ ids.map (local_id part g) then OrderStatus.kCanceled else old) s.orders_
    hst
  unfold canceled restrict
  rw [horders]
  rfl

theorem restrict_canceled_out {s : BacktestEngine} {ids : List ℕ}
    (h : ∀ id ∈ ids, of_group part g id = false) :
    restrict part g (s.canceled ids) = restrict part g s := by
  have hst : ∀ i (st : OrderStatus), of_group part g i = true →
      st = if i ∈ ids then .kCanceled else st := by
    intro i st hi
    have hne : i ∉ ids := fun h1 => by simp [h i h1] at hi
    rw [if_neg hne]
  have horders := restrict_restatus (fun j old => if j ∈ ids then OrderStatus.kCanceled else old)
    (fun _ st => st) s.orders_ hst
  rw [restatus_id] at horders
  unfold canceled restrict
  rw [horders]
  rfl

theorem restrict_placed_in {s : BacktestEngine} {batch : List OrderBase} {lists : List (List ℕ)}
    (hn : of_group part g s.orders_.length = true)
    (h : ∀ i < batch.length, of_group part g (s.orders_.length + i) = true)
    (hl : ∀ ids ∈ lists, list_of_group part g ids = true) :
    restrict part g (s.placed batch lists) = (restrict part g s).placed
      (batch.map (OrderBase.rename (local_id part g)))
      (lists.map fun ids => ids.map (local_id part g)) := by
  have horders := positions.chosen_append_in (of_group part g)
    (OrderBase.rename (local_id part g)) s.orders_ batch h
  have hlen : (restrict part g s).orders_.length = local_id part g s.orders_.length :=
    restrict_length s
  have hqueue : [s.orders_.length].filter (of_group part g) = [s.orders_.length] := by simp [hn]
  have hlists : lists.filter (list_of_group part g) = lists := List.filter_eq_self.mpr hl
  unfold placed
  rw [hlen]
  simp only [restrict, List.filter_append, List.map_append, horders, hqueue, hlists]
  rfl

theorem restrict_placed_out {s : BacktestEngine} {batch : List OrderBase}
    {lists : List (List ℕ)} (hn : of_group part g s.orders_.length = false)
    (h : ∀ i < batch.length, of_group part g (s.orders_.length + i) = false)
    (hl : ∀ ids ∈ lists, list_of_group part g ids = false) :
    restrict part g (s.placed batch lists) = restrict part g s := by
  have horders := positions.chosen_append_out (of_group part g) s.orders_ batch h
  have hqueue : [s.orders_.length].filter (of_group part g) = [] := by simp [hn]
  have hlists : lists.filter (list_of_group part g) = [] :=
    List.filter_eq_nil_iff.mpr fun ids hids => by simp [hl ids hids]
  unfold placed
  simp only [restrict, List.filter_append, horders, hqueue, hlists, List.append_nil]
  rfl

end groups

end BacktestEngine

end wedge.backtest2
