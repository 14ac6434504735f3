-- Brackets of a buy with sells of the same quantity: every sell that fills has
-- a buy of its own, so what is sold was bought before, and only the fees of the
-- buys are missing.
import Wedge.Backtest2.Brackets

namespace wedge.backtest2

def NewOrder.side : NewOrder → OrderSide
  | .NewLimitOrder side _ _ => side
  | .NewMarketOrder side _ => side
  | .NewStopLossOrder side _ _ => side

def NewOrder.quantity : NewOrder → ℚ
  | .NewLimitOrder _ _ quantity => quantity
  | .NewMarketOrder _ quantity => quantity
  | .NewStopLossOrder _ _ quantity => quantity

namespace BacktestEngine

/-! ## The brackets -/

/-- The pending order sells what the working order buys. -/
def Closes (working pending : NewOrder) : Prop :=
  working.side = .kBuy ∧ pending.side = .kSell ∧ 0 < working.quantity ∧
    pending.quantity = working.quantity

def Bracket : NewOrderList → Prop
  | .NewOtoOrderList working pending => Closes working pending
  | .NewOcoOrderList _ _ => False
  | .NewOtocoOrderList working pending_above pending_below =>
    Closes working pending_above ∧ Closes working pending_below

/-- Every order of the command is part of a bracket. -/
def Bracketed (_ : BacktestEngine) : Action → Prop
  | .command (.NewOrder _) => False
  | .command (.NewOrderList list) => Bracket list
  | _ => True

@[simp] theorem make_order_side (st : OrderStatus) (order : NewOrder) :
    (make_order st order).side_ = order.side := by cases order <;> rfl

@[simp] theorem make_order_quantity (st : OrderStatus) (order : NewOrder) :
    (make_order st order).quantity = order.quantity := by cases order <;> rfl

/-- The quantity stands in the class, so neither the status nor the links change it. -/
@[simp] theorem linked_quantity (st st' : OrderStatus) (order : NewOrder) (side : OrderSide)
    (triggered canceled : List ℕ) :
    OrderBase.quantity ⟨(make_order st order).cls, side, st', triggered, canceled⟩ =
      order.quantity := by cases order <;> rfl

/-- A book of brackets: no buy has a negative quantity, every sell is a child of a buy of the
same quantity, and the children of a buy are rivals. -/
structure Paired (s : BacktestEngine) : Prop where
  buy_pos : ∀ (id : ℕ) (o : OrderBase), s.orders_[id]? = some o → o.side_ = .kBuy → 0 < o.quantity
  sell_parent : ∀ (id : ℕ) (o : OrderBase), s.orders_[id]? = some o → o.side_ = .kSell →
    ∃ (w : ℕ) (p : OrderBase), s.orders_[w]? = some p ∧ id ∈ p.triggered_ ∧ p.side_ = .kBuy ∧
      p.quantity = o.quantity
  siblings : ∀ (w x y : ℕ) (p : OrderBase), s.orders_[w]? = some p → x ∈ p.triggered_ →
    y ∈ p.triggered_ → x ≠ y → ∃ o : OrderBase, s.orders_[x]? = some o ∧ y ∈ o.canceled_

/-- A change of the statuses keeps the pairs. -/
theorem Paired.restatus {s t : BacktestEngine} (h : Paired s) (hg : Grows s t)
    (hl : t.orders_.length = s.orders_.length) : Paired t := by
  -- Every order of the later book is an order of the earlier one, up to the status.
  have hback : ∀ (id : ℕ) (o : OrderBase), t.orders_[id]? = some o →
      ∃ (o' : OrderBase) (st : OrderStatus), s.orders_[id]? = some o' ∧ o = { o' with status_ := st } := by
    intro id o ho
    have hlt : id < s.orders_.length := by
      have := (List.getElem?_eq_some_iff.mp ho).1
      omega
    obtain ⟨st, hst⟩ := hg.order id _ (List.getElem?_eq_getElem hlt)
    rw [ho] at hst
    exact ⟨_, st, List.getElem?_eq_getElem hlt, Option.some.inj hst⟩
  refine ⟨?_, ?_, ?_⟩
  · intro id o ho hside
    obtain ⟨o', st, ho', rfl⟩ := hback id o ho
    exact h.buy_pos id o' ho' hside
  · intro id o ho hside
    obtain ⟨o', st, ho', rfl⟩ := hback id o ho
    obtain ⟨w, p, hp, hchild, hbuy, hq⟩ := h.sell_parent id o' ho' hside
    obtain ⟨st', hst'⟩ := hg.order w p hp
    exact ⟨w, _, hst', hchild, hbuy, hq⟩
  · intro w x y p hp hx hy hne
    obtain ⟨p', st, hp', rfl⟩ := hback w p hp
    obtain ⟨o, ho, hr⟩ := h.siblings w x y p' hp' hx hy hne
    obtain ⟨st', hst'⟩ := hg.order x o ho
    exact ⟨_, hst', hr⟩

/-- A new order of a batch is an order of the batch at its place. -/
theorem placed_get_cases {s : BacktestEngine} {batch : List OrderBase} {lists : List (List ℕ)}
    {id : ℕ} {o : OrderBase} (h : (s.placed batch lists).orders_[id]? = some o) :
    s.orders_[id]? = some o ∨ ∃ i, id = s.orders_.length + i ∧ batch[i]? = some o := by
  by_cases hid : id < s.orders_.length
  · rw [placed_get_old s _ _ hid] at h
    exact Or.inl h
  · obtain ⟨i, rfl⟩ := Nat.exists_eq_add_of_le (Nat.le_of_not_lt hid)
    rw [placed_get_new] at h
    exact Or.inr ⟨i, rfl, h⟩

theorem placed_get_of_get {s : BacktestEngine} {id : ℕ} {o : OrderBase}
    (h : s.orders_[id]? = some o) (batch : List OrderBase) (lists : List (List ℕ)) :
    (s.placed batch lists).orders_[id]? = some o :=
  (placed_get_old s batch lists (List.getElem?_eq_some_iff.mp h).1).trans h

/-- The orders of a bracket that gets the ids from `n` on: the working order, and behind it
the pending orders. -/
theorem bracket_batch {n : ℕ} {list : NewOrderList} (h : Bracket list) :
    ∃ w rest, list_batch n list = w :: rest ∧ w.side_ = .kBuy ∧ 0 < w.quantity ∧
      (∀ (i : ℕ) (o : OrderBase), rest[i]? = some o → o.side_ = .kSell ∧ o.triggered_ = [] ∧
        o.quantity = w.quantity ∧ n + (i + 1) ∈ w.triggered_) ∧
      ∀ x ∈ w.triggered_, ∀ y ∈ w.triggered_, x ≠ y →
        ∃ (i : ℕ) (o : OrderBase), x = n + (i + 1) ∧ rest[i]? = some o ∧ y ∈ o.canceled_ := by
  cases list with
  | NewOtoOrderList working pending =>
    obtain ⟨h1, h2, h3, h4⟩ := h
    refine ⟨_, _, rfl, by simpa using h1, by simpa using h3, ?_, by simp⟩
    rintro (_ | i) o ho <;> simp at ho
    subst ho
    simp [h2, h4]
  | NewOcoOrderList above below => exact h.elim
  | NewOtocoOrderList working pending_above pending_below =>
    obtain ⟨⟨h1, h2, h3, h4⟩, _, h5, _, h6⟩ := h
    refine ⟨_, _, rfl, by simpa using h1, by simpa using h3, ?_, ?_⟩
    · rintro (_ | _ | i) o ho <;> simp at ho <;> subst ho <;> simp [*]
    · intro x hx y hy hne
      simp only [List.mem_cons, List.not_mem_nil, or_false] at hx hy
      rcases hx with rfl | rfl <;> rcases hy with rfl | rfl
      · exact absurd rfl hne
      · exact ⟨0, _, rfl, rfl, by simp⟩
      · exact ⟨1, _, rfl, rfl, by simp⟩
      · exact absurd rfl hne

theorem paired_placed {s : BacktestEngine} {list : NewOrderList} (hb : Bracket list)
    (lists : List (List ℕ)) (h : Paired s) :
    Paired (s.placed (list_batch s.orders_.length list) lists) := by
  obtain ⟨w, rest, hbatch, hbuy, hpos, hrest, hsib⟩ := bracket_batch (n := s.orders_.length) hb
  rw [hbatch]
  have hw : (s.placed (w :: rest) lists).orders_[s.orders_.length]? = some w := by
    have := placed_get_new s (w :: rest) lists 0
    rwa [Nat.add_zero] at this
  refine ⟨?_, ?_, ?_⟩
  · intro id o ho hside
    rcases placed_get_cases ho with ho | ⟨_ | i, rfl, hi⟩
    · exact h.buy_pos id o ho hside
    · cases hi
      exact hpos
    · rw [(hrest i o hi).1] at hside
      cases hside
  · intro id o ho hside
    rcases placed_get_cases ho with ho | ⟨_ | i, rfl, hi⟩
    · obtain ⟨v, p, hp, hp'⟩ := h.sell_parent id o ho hside
      exact ⟨v, p, placed_get_of_get hp _ _, hp'⟩
    · cases hi
      rw [hbuy] at hside
      cases hside
    · obtain ⟨_, _, hq, hchild⟩ := hrest i o hi
      exact ⟨_, w, hw, hchild, hbuy, hq.symm⟩
  · intro v x y p hp hx hy hne
    rcases placed_get_cases hp with hp | ⟨_ | i, rfl, hi⟩
    · obtain ⟨o, ho, hr⟩ := h.siblings v x y p hp hx hy hne
      exact ⟨o, placed_get_of_get ho _ _, hr⟩
    · cases hi
      obtain ⟨i, o, rfl, hi, hr⟩ := hsib x hx y hy hne
      exact ⟨o, (placed_get_new s _ _ (i + 1)).trans hi, hr⟩
    · rw [(hrest i p hi).2.1] at hx
      cases hx

theorem paired_step {s s' : BacktestEngine} {a : Action} (h : runs.Where Step Bracketed s a s')
    (hs : Sound s) (hp : Paired s) : Paired s' := by
  obtain ⟨hstep, hok⟩ := h
  cases hstep with
  | candle hrun =>
    have hg := grows_run (runs.Run.single (.candle hrun)) hs
    exact hp.restatus hg (sweep_book hs hrun).1
  | @command c hk =>
    cases c with
    | CancelOrder id =>
      apply hp.restatus (grows_execute s _)
      simp [execute, execute_cancel_order_eq]
    | CancelOrderList id =>
      apply hp.restatus (grows_execute s _)
      simp [execute, execute_cancel_order_list_eq]
    | NewOrder order => exact hok.elim
    | NewOrderList list =>
      simp only [execute, execute_new_order_list_eq]
      exact paired_placed hok _ hp

theorem paired_run {base quote : ℚ} {acts : List Action} {s : BacktestEngine}
    (h : runs.Run (runs.Where Step Bracketed) (init base quote) acts s) : Paired s := by
  refine (h.invariant (p := fun t => Sound t ∧ Paired t)
    (fun _ _ _ hstep ht => ⟨sound_step hstep.1 ht.1, paired_step hstep ht.1 ht.2⟩) ?_).2
  refine ⟨sound_init base quote, ?_, ?_, ?_⟩ <;> simp [init]

/-! ## The quantities -/

/-- The base that the fills of one side moved. -/
def traded (side : OrderSide) (s : BacktestEngine) : ℚ :=
  ((s.fills.filter fun f => f.2.side = side).map fun f => f.2.base).sum

/-- The orders of one side that have filled. -/
def fired_on (side : OrderSide) (s : BacktestEngine) : List ℕ :=
  (s.fills.filter fun f => f.2.side = side).map Prod.fst

def quantity (s : BacktestEngine) (id : ℕ) : ℚ :=
  (s.orders_[id]?.map OrderBase.quantity).getD 0

theorem base_delta_sum (fills : List (ℕ × FillOrderEvent)) :
    (fills.map fun f => base_delta f.2).sum =
      ((fills.filter fun f => f.2.side = .kBuy).map fun f => f.2.base).sum * (1 - 1 / 10000) -
        ((fills.filter fun f => f.2.side = .kSell).map fun f => f.2.base).sum := by
  induction fills with
  | nil => simp
  | cons f fills ih =>
    rw [List.map_cons, List.sum_cons, ih]
    obtain ⟨id, side, base, quote⟩ := f
    cases side <;> simp [base_delta] <;> ring

/-- The account holds what was bought, less the fees, and not what was sold. -/
theorem Balanced.base_eq {base quote : ℚ} {s : BacktestEngine} (h : Balanced base quote s) :
    s.base_ = base + (s.traded .kBuy * (1 - 1 / 10000) - s.traded .kSell) := by
  rw [h.1, base_delta_sum]
  rfl

theorem mem_fired_on {s : BacktestEngine} (ht : FillsTrue s) {side : OrderSide} {id : ℕ} :
    id ∈ s.fired_on side ↔
      id ∈ s.fired ∧ ∃ o : OrderBase, s.orders_[id]? = some o ∧ o.side_ = side := by
  unfold fired_on fired
  simp only [List.mem_map, List.mem_filter, decide_eq_true_eq]
  constructor
  · rintro ⟨f, ⟨hf, hside⟩, rfl⟩
    obtain ⟨o, candle, ho, he⟩ := ht f hf
    exact ⟨⟨f, hf, rfl⟩, o, ho, by rw [← hside, he]; rfl⟩
  · rintro ⟨⟨f, hf, rfl⟩, o, ho, hside⟩
    obtain ⟨o', candle, ho', he⟩ := ht f hf
    rw [ho] at ho'
    cases ho'
    exact ⟨f, ⟨hf, by rw [he]; exact hside⟩, rfl⟩

theorem traded_eq_sum {s : BacktestEngine} (hs : Sound s) (ht : FillsTrue s) (side : OrderSide) :
    s.traded side = ∑ id ∈ (s.fired_on side).toFinset, s.quantity id := by
  have hnodup : (s.fired_on side).Nodup :=
    hs.fired_nodup.sublist (List.filter_sublist.map Prod.fst)
  rw [List.sum_toFinset _ hnodup]
  unfold traded fired_on
  rw [List.map_map]
  congr 1
  apply List.map_congr_left
  intro f hf
  obtain ⟨o, candle, ho, he⟩ := ht f (List.mem_filter.mp hf).1
  simp [quantity, ho, he, OrderBase.fill_event]

/-- What was sold was bought before: every sell that filled has a buy of its own that filled
first, of the same quantity. -/
theorem sold_le_bought {s : BacktestEngine} (hs : Sound s) (ht : FillsTrue s) (hp : Paired s)
    (hc : Caused s) (he : Exclusive s) : s.traded .kSell ≤ s.traded .kBuy := by
  -- The buy of a sell that filled.
  have hparent : ∀ x ∈ s.fired_on .kSell, ∃ w, x ∈ s.children w ∧ w ∈ s.fired_on .kBuy ∧
      s.quantity w = s.quantity x := by
    intro x hx
    obtain ⟨hfired, o, ho, hside⟩ := (mem_fired_on ht).mp hx
    obtain ⟨w, p, hw, hchild, hbuy, hq⟩ := hp.sell_parent x o ho hside
    have hmem : x ∈ s.children w := mem_children.mpr ⟨p, hw, hchild⟩
    obtain ⟨l1, l2, hsplit⟩ := List.append_of_mem hfired
    have hwf : w ∈ s.fired := by
      rw [hsplit]
      exact List.mem_append_left _ (hc w x hmem l1 l2 hsplit)
    exact ⟨w, hmem, (mem_fired_on ht).mpr ⟨hwf, p, hw, hbuy⟩, by simp [quantity, ho, hw, hq]⟩
  choose! buy hchild hbuy hq using hparent
  -- Two sells of one buy are rivals, so they did not both fill.
  have hinj : Set.InjOn buy (s.fired_on .kSell).toFinset := by
    intro x hx y hy hxy
    rw [List.coe_toFinset] at hx hy
    by_contra hne
    obtain ⟨p, hw, hx'⟩ := mem_children.mp (hchild x hx)
    have hy' := hchild y hy
    rw [← hxy, children_of_get hw] at hy'
    have hr := mem_rivals.mpr (hp.siblings _ x y p hw hx' hy' hne)
    exact he x y hr ((mem_fired_on ht).mp hx).1 ((mem_fired_on ht).mp hy).1
  rw [traded_eq_sum hs ht, traded_eq_sum hs ht]
  calc ∑ x ∈ (s.fired_on .kSell).toFinset, s.quantity x
      = ∑ x ∈ (s.fired_on .kSell).toFinset, s.quantity (buy x) :=
        Finset.sum_congr rfl fun x hx => (hq x (List.mem_toFinset.mp hx)).symm
    _ = ∑ w ∈ (s.fired_on .kSell).toFinset.image buy, s.quantity w :=
        (Finset.sum_image hinj).symm
    _ ≤ ∑ w ∈ (s.fired_on .kBuy).toFinset, s.quantity w := by
        apply Finset.sum_le_sum_of_subset_of_nonneg
        · intro w hw
          obtain ⟨x, hx, rfl⟩ := Finset.mem_image.mp hw
          exact List.mem_toFinset.mpr (hbuy x (List.mem_toFinset.mp hx))
        · intro w hw _
          obtain ⟨_, o, ho, hside⟩ := (mem_fired_on ht).mp (List.mem_toFinset.mp hw)
          have := hp.buy_pos w o ho hside
          simp [quantity, ho, this.le]

/-! ## The law -/

/-- In every run of brackets, no more is sold than was bought, and the base account falls below
its first value by the fees of the closed buys at most. -/
theorem brackets_sell_what_they_bought_and_lose_the_fees (base quote : ℚ) (acts : List Action)
    (s : BacktestEngine) (h : runs.Run (runs.Where Step Bracketed) (init base quote) acts s) :
    s.traded .kSell ≤ s.traded .kBuy ∧ base - s.traded .kSell / 10000 ≤ s.base_ := by
  obtain ⟨hb, ht⟩ := ledger_run h.forget
  obtain ⟨hc, he⟩ := fills_follow_links h.forget
  have hle := sold_le_bought (sound_of_run h.forget) ht (paired_run h) hc he
  refine ⟨hle, ?_⟩
  rw [hb.base_eq]
  linarith

instance (order order' : NewOrder) : Decidable (Closes order order') := instDecidableAnd

instance (list : NewOrderList) : Decidable (Bracket list) :=
  match list with
  | .NewOtoOrderList _ _ => instDecidableAnd
  | .NewOcoOrderList _ _ => .isFalse id
  | .NewOtocoOrderList _ _ _ => instDecidableAnd

instance (s : BacktestEngine) (a : Action) : Decidable (Bracketed s a) :=
  match a with
  | .command (.CancelOrder _) => .isTrue trivial
  | .command (.CancelOrderList _) => .isTrue trivial
  | .command (.NewOrder _) => .isFalse id
  | .command (.NewOrderList list) => inferInstanceAs (Decidable (Bracket list))
  | .candle _ => .isTrue trivial

/-- Two brackets: one is closed by its stop, and of the other only the buy is filled. -/
def two_brackets : List Action :=
  [.command (.NewOrderList (.NewOtocoOrderList (.NewMarketOrder .kBuy 2)
      (.NewStopLossOrder .kSell 90 2) (.NewLimitOrder .kSell 110 2))),
    .candle (flat_candle 100), .candle (flat_candle 80),
    .command (.NewOrderList (.NewOtoOrderList (.NewLimitOrder .kBuy 85 3)
      (.NewLimitOrder .kSell 120 3))),
    .candle (flat_candle 80)]

theorem two_brackets_sell_what_they_bought :
    ∃ s : BacktestEngine, s.traded .kSell = 2 ∧ s.traded .kSell ≤ s.traded .kBuy ∧
      10 - s.traded .kSell / 10000 ≤ s.base_ := by
  obtain ⟨s, hs, hq⟩ : ∃ s, replay Bracketed 9 two_brackets (init 10 1000) = some s ∧
      s.traded .kSell = 2 := ⟨_, rfl, by decide +kernel⟩
  exact ⟨s, hq, brackets_sell_what_they_bought_and_lose_the_fees 10 1000 two_brackets s
    (run_of_replay _ hs)⟩

/-- A buy and a sell of one unit leave less base than there was: the fee of the buy is taken
from the base, and the sell takes the whole unit. -/
theorem a_round_trip_sells_base_that_the_account_does_not_own :
    ∃ s, runs.Run (runs.Where Step Bracketed) (init 0 1000)
        [.command (.NewOrderList (.NewOtoOrderList (.NewMarketOrder .kBuy 1)
          (.NewMarketOrder .kSell 1))), .candle (flat_candle 100)] s ∧
      s.base_ = -1 / 10000 ∧ s.base_ < 0 := by
  obtain ⟨s, hs, hb⟩ : ∃ s, replay Bracketed 9
      [.command (.NewOrderList (.NewOtoOrderList (.NewMarketOrder .kBuy 1)
        (.NewMarketOrder .kSell 1))), .candle (flat_candle 100)] (init 0 1000) = some s ∧
      s.base_ = -1 / 10000 := ⟨_, rfl, by decide +kernel⟩
  exact ⟨s, run_of_replay _ hs, hb, by rw [hb]; norm_num⟩

end BacktestEngine

end wedge.backtest2
