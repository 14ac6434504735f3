-- The traversals of the live engine and of the old backtest engine side by side,
-- with the same orders, the same outcomes and the same strategy: when they call
-- the strategy in the same order.
import Wedge.Backtest.Sweep
import Wedge.Binance.Retries
import Wedge.Trade.Engine

namespace wedge

open programs containers runs sweep

variable {σ ν : Type}

/-! ## The two traversals -/

/-- The strategy places orders, and cancels tracked orders other than the one that it is told
about. -/
def PlacesAndCancels (tracked : σ → List OrderIndex) (told : OrderIndex) : BrokerCall → σ → Prop
  | .place _, _ => True
  | .cancel index, s => index ∈ tracked s ∧ index ≠ told
  | .account, _ => False

instance (tracked : σ → List OrderIndex) (told : OrderIndex) (op : BrokerCall) (s : σ) :
    Decidable (PlacesAndCancels tracked told op s) :=
  match op with
  | .place _ => instDecidableTrue
  | .cancel _ => instDecidableAnd
  | .account => instDecidableFalse

/-- The least of the orders in front of the bound that fill. -/
def least_filled (o : OrderIndex → Bool) (last : OrderIndex) (keys : List OrderIndex) :
    Option OrderIndex := (keys.filter fun k => k < last ∧ o k = true).min?

namespace TradeRun

/-- The places inside `update_orders`. -/
def Sweeping (r : TradeRun σ ν) (_ : ℤ) : Prop :=
  match r.pc with
  | .visit _ => True
  | .filled _ => True
  | .reported _ => True
  | _ => False

instance (r : TradeRun σ ν) (now : ℤ) : Decidable (r.Sweeping now) := by
  unfold Sweeping
  cases r.pc <;> infer_instance

/-- The steps of `update_orders`. -/
abbrev SweepStep (S : IStrategy σ) (net : Net ν) (p : Placement OrderIndex TradeOrder) :=
  Where (Step S net p) Sweeping

/-- The next poll, if one is due, is answered with the outcome of its order. The next callback,
if one is due, only places and cancels, and its requests are answered. -/
def Asks (S : IStrategy σ) (net : Net ν) (p : Placement OrderIndex TradeOrder)
    (o : OrderIndex → Bool) (r : TradeRun σ ν) : Prop :=
  match r.pc with
  | .visit (some index) => ∀ order ∈ r.engine.orders_.find index,
      (r.engine.poll net order).1.toOption = some (o index)
  | .filled index =>
    Obeys (TradeBroker net p) (PlacesAndCancels (fun e => e.orders_.keys) index)
      (S.on_order_filled index r.strategy) r.engine ∧
    (run (TradeBroker net p) (S.on_order_filled index r.strategy) r.engine).1.isOk = true
  | _ => True

instance (S : IStrategy σ) (net : Net ν) (p : Placement OrderIndex TradeOrder)
    (o : OrderIndex → Bool) (r : TradeRun σ ν) : Decidable (r.Asks S net p o) := by
  unfold Asks
  rcases r.pc with _ | ⟨_ | _⟩ | _ | _ | _ | _ | _ <;> infer_instance

/-- The order that the next step asks the exchange about. -/
def asked (r : TradeRun σ ν) (_ : ℤ) : List OrderIndex :=
  match r.pc with
  | .visit (some index) => if index ∈ r.engine.orders_.keys then [index] else []
  | _ => []

/-- The iterator stands at an order from the time before the traversal, and the first filled
order that it reaches is the least of the filled orders from that time. -/
def InOrder (o : OrderIndex → Bool) (last : OrderIndex) (r : TradeRun σ ν) : Prop :=
  match r.pc with
  | .visit iterator =>
    (r.engine.orders_.rest iterator).find? o = least_filled o last r.engine.orders_.keys ∧
      ∀ index ∈ iterator, index < last
  | _ => True

instance (o : OrderIndex → Bool) (last : OrderIndex) (r : TradeRun σ ν) :
    Decidable (r.InOrder o last) := by
  unfold InOrder
  cases r.pc <;> infer_instance

end TradeRun

/-- The next look at an order, if one is due, has the outcome of its order. -/
def BacktestRun.looks (o : OrderIndex → Bool) (r : BacktestRun σ) : Bool :=
  match r.pc with
  | .visit (some index) last_index candle => ¬ index < last_index ∨
    (r.context.orders_.find index).all fun order => (order.update r.context candle).1 = o index
  | _ => true

theorem least_filled_eq_some {o : OrderIndex → Bool} {last k : OrderIndex}
    {keys : List OrderIndex} :
    least_filled o last keys = some k ↔
      (k ∈ keys ∧ k < last ∧ o k = true) ∧ ∀ j ∈ keys, j < last → o j = true → k ≤ j := by
  unfold least_filled
  rw [List.min?_eq_some_iff]
  simp only [List.mem_filter, decide_eq_true_eq, and_imp]

theorem least_filled_eq_none {o : OrderIndex → Bool} {last : OrderIndex} {keys : List OrderIndex} :
    least_filled o last keys = none ↔ ∀ j ∈ keys, j < last → o j = false := by
  unfold least_filled
  rw [List.min?_eq_none_iff, List.filter_eq_nil_iff]
  constructor
  · intro h j hj hlt
    have := h j hj
    simpa [hlt] using this
  · intro h j hj
    simp only [decide_eq_true_eq, not_and]
    intro hlt ho
    rw [h j hj hlt] at ho
    cases ho

/-- Only the tracked orders matter, not their places. -/
theorem least_filled_congr {o : OrderIndex → Bool} {last : OrderIndex} {keys keys' : List OrderIndex}
    (h : ∀ k, k ∈ keys ↔ k ∈ keys') : least_filled o last keys = least_filled o last keys' := by
  rcases hl : least_filled o last keys' with _ | k
  · rw [least_filled_eq_none] at hl ⊢
    exact fun j hj => hl j ((h j).mp hj)
  · rw [least_filled_eq_some] at hl ⊢
    exact ⟨⟨(h k).mpr hl.1.1, hl.1.2⟩, fun j hj => hl.2 j ((h j).mp hj)⟩

/-! ## The books of the two engines -/

/-- Both engines track the same orders and give out the same next index. -/
structure SameBooks (last : OrderIndex) (e : TradeEngine ν) (c : BacktestContext) : Prop where
  index : e.last_order_index_ = c.last_order_index_
  keys : ∀ k, k ∈ e.orders_.keys ↔ k ∈ c.orders_.keys
  fits : c.Fits last
  ascending : c.orders_.Ascending

section books

variable {last k : OrderIndex} {e e' : TradeEngine ν} {c : BacktestContext}

theorem SameBooks.world (h : SameBooks last e c) (ho : e'.orders_ = e.orders_)
    (hl : e'.last_order_index_ = e.last_order_index_) : SameBooks last e' c :=
  ⟨hl.trans h.index, fun k => by rw [ho, h.keys], h.fits, h.ascending⟩

theorem SameBooks.account {c' : BacktestContext} (h : SameBooks last e c)
    (ho : c'.orders_ = c.orders_) (hl : c'.last_order_index_ = c.last_order_index_) :
    SameBooks last e c' := by
  obtain ⟨h1, h2, ⟨h3, h4⟩, h5⟩ := h
  refine ⟨?_, ?_, ⟨?_, ?_⟩, ?_⟩ <;> simpa only [ho, hl]

theorem SameBooks.erase (h : SameBooks last e c) (ho : e'.orders_ = e.orders_.erase k)
    (hl : e'.last_order_index_ = e.last_order_index_) : SameBooks last e' (c.cancel k) := by
  refine ⟨hl.trans h.index, fun j => ?_, h.fits.cancel k, h.ascending.erase k⟩
  rw [ho, Map.mem_keys_erase, h.keys]
  exact Map.mem_keys_erase.symm

theorem SameBooks.place (h : SameBooks last e c) (p : Placement OrderIndex TradeOrder)
    (order : OrderCall) (order_id : ℕ) (w : ν) :
    SameBooks last ({ e with world := w }.add_order p order order_id).2
      (c.add_order order).2 := by
  have hnew : e.last_order_index_ ∉ e.orders_.keys := by
    rw [h.keys, h.index]
    exact h.fits.new
  refine ⟨?_, fun j => ?_, h.fits.add_order order, h.ascending.emplace h.fits.small order⟩
  · change e.last_order_index_ + 1 = c.last_order_index_ + 1
    rw [h.index]
  · refine (p.mem_keys_emplace hnew).trans ?_
    rw [h.keys, h.index]
    exact (sorted.mem_keys_emplace h.fits.new).symm

/-- A callback goes the same way in both engines. -/
theorem SameBooks.callback (net : Net ν) (p : Placement OrderIndex TradeOrder)
    {prog : StrategyProg σ} {a : σ} (h : SameBooks last e c) (hk : k ∈ c.orders_.keys)
    (hob : Obeys (TradeBroker net p) (PlacesAndCancels (fun e => e.orders_.keys) k) prog e)
    (hrun : run (TradeBroker net p) prog e = (.ok a, e')) :
    ∃ c', run BacktestBroker prog c = (.ok a, c') ∧ SameBooks last e' c' ∧ k ∈ c'.orders_.keys ∧
      ∀ j ∈ c'.orders_.keys, j < last → j ∈ c.orders_.keys := by
  induction prog generalizing e c with
  | ret b =>
    cases hrun
    exact ⟨c, rfl, h, hk, fun j hj _ => hj⟩
  | fail f => cases hrun
  | call op next ih =>
    obtain ⟨hop, hrest⟩ := hob
    cases op with
    | place order =>
      rcases TradeBroker.place_cases net p e order with ⟨order_id, w, _, ho⟩ | ⟨fault, w, _, ho⟩
      · rw [run_call_ok _ ho] at hrun
        have hk' : k ∈ (c.add_order order).2.orders_.keys :=
          (sorted.mem_keys_emplace h.fits.new).mpr (Or.inr hk)
        obtain ⟨c', h1, h2, h3, h4⟩ := ih _ (h.place p order order_id w) hk' (hrest _ _ ho) hrun
        refine ⟨c', ?_, h2, h3, fun j hj hlt => ?_⟩
        · rw [← h1, h.index]
          rfl
        · rcases (sorted.mem_keys_emplace h.fits.new).mp (h4 j hj hlt) with rfl | hj'
          · exact absurd h.fits.last_le (Nat.not_le_of_lt hlt)
          · exact hj'
      · rw [run_call_error _ ho] at hrun
        cases hrun
    | cancel index =>
      obtain ⟨order, hfind⟩ := Map.find_of_mem_keys hop.1
      rcases TradeBroker.cancel_cases net p e hfind with ⟨w, _, ho⟩ | ⟨fault, w, _, ho⟩
      · rw [run_call_ok _ ho] at hrun
        have hk' : k ∈ (c.cancel index).orders_.keys := Map.mem_keys_erase.mpr ⟨hk, hop.2.symm⟩
        have hbooks : SameBooks last { e with
            world := w
            canceled := e.canceled ++ [order.order_id]
            orders_ := e.orders_.erase index } (c.cancel index) := h.erase rfl rfl
        obtain ⟨c', h1, h2, h3, h4⟩ := ih () hbooks hk' (hrest _ _ ho) hrun
        exact ⟨c', h1, h2, h3, fun j hj hlt => (Map.mem_keys_erase.mp (h4 j hj hlt)).1⟩
      · rw [run_call_error _ ho] at hrun
        cases hrun
    | account => exact hop.elim

end books

/-! ## The next call of the backtest -/

namespace BacktestRun

variable {S : IStrategy σ} {o : OrderIndex → Bool} {last : OrderIndex}

/-- The iterator has not passed a filled order that is in front of the bound. -/
def Ahead (o : OrderIndex → Bool) (last : OrderIndex) (iterator : Option OrderIndex)
    (m : Map OrderIndex OrderCall) : Prop :=
  (∀ k, iterator = some k → k ∈ m.keys) ∧
    ∀ k ∈ m.keys, k < last → o k = true → ∃ j, iterator = some j ∧ j ≤ k

theorem ahead_first (o : OrderIndex → Bool) (last : OrderIndex) {m : Map OrderIndex OrderCall}
    (hm : m.Ascending) : Ahead o last m.first m := by
  refine ⟨fun k hk => Map.first_mem hk, fun k hk _ _ => ?_⟩
  rcases hf : m.first with _ | j
  · rw [List.head?_eq_none_iff.mp hf] at hk
    cases hk
  · exact ⟨j, rfl, hm.first_le hf k hk⟩

/-- The iterator goes on from `k` when every filled order is behind it. The order `k` may be
gone from the map. -/
theorem ahead_next {k : OrderIndex} {m m' : Map OrderIndex OrderCall} (hm : m.Ascending)
    (hk : k ∈ m.keys) (hkeep : ∀ j ∈ m.keys, j ≠ k → j ∈ m'.keys)
    (h : ∀ j ∈ m'.keys, j < last → o j = true → j ∈ m.keys ∧ k < j) :
    Ahead o last (m.next k) m' := by
  refine ⟨fun j hj => ?_, fun j hj hlt ho => ?_⟩
  · obtain ⟨h1, h2⟩ := Map.next_mem hj
    exact hkeep j h1 h2
  · obtain ⟨hjm, hkj⟩ := h j hj hlt ho
    rcases hn : m.next k with _ | i
    · exact absurd hkj (Nat.not_lt_of_le (hm.next_none hk hn j hjm))
    · exact ⟨i, rfl, (hm.next_le hk hn).2 j hjm hkj⟩

/-- At the end of the map, or at the bound, no filled order is left. -/
theorem ahead_end {iterator : Option OrderIndex} {m : Map OrderIndex OrderCall}
    (h : Ahead o last iterator m) (hend : ∀ k, iterator = some k → last ≤ k) :
    least_filled o last m.keys = none := by
  refine least_filled_eq_none.mpr fun j hj hlt => ?_
  by_contra ho
  obtain ⟨i, hi, hle⟩ := h.2 j hj hlt (Bool.eq_true_of_not_eq_false ho)
  exact Nat.not_lt_of_le (hend i hi) (Nat.lt_of_le_of_lt hle hlt)

/-- An order that is not filled has every filled order behind it. -/
theorem ahead_pass {k : OrderIndex} {m : Map OrderIndex OrderCall} (h : Ahead o last (some k) m)
    (hm : m.Ascending) (hopen : o k = false) : Ahead o last (m.next k) m := by
  refine ahead_next hm (h.1 k rfl) (fun j hj _ => hj) fun j hj hlt ho => ⟨hj, ?_⟩
  obtain ⟨i, hi, hle⟩ := h.2 j hj hlt ho
  cases hi
  refine Nat.lt_of_le_of_ne hle ?_
  rintro rfl
  rw [ho] at hopen
  cases hopen

/-- An order that is filled is the least one. -/
theorem ahead_trade {k : OrderIndex} {m : Map OrderIndex OrderCall} (h : Ahead o last (some k) m)
    (hlt : k < last) (hfilled : o k = true) : least_filled o last m.keys = some k := by
  refine least_filled_eq_some.mpr ⟨⟨h.1 k rfl, hlt, hfilled⟩, fun j hj hjl ho => ?_⟩
  obtain ⟨i, hi, hle⟩ := h.2 j hj hjl ho
  cases hi
  exact hle

/-- No steps lead out of a finished traversal. -/
theorem emits_swept {r r' : BacktestRun σ} {log : SweepLog} {candle : Candle}
    (hpc : r.pc = .swept candle) (h : Emits (SweepStep S) (emitted S) r log r') : log = [] := by
  cases h with
  | nil => rfl
  | cons h1 _ =>
    have := h1.2
    rw [Sweeping, hpc] at this
    exact this.elim

/-- From a place in the map the traversal goes to the least filled order, and to its end when
there is none. -/
theorem goes_to_the_least_filled {b b' : BacktestRun σ} {log : SweepLog} {candle : Candle}
    (h : Emits (SweepStep S) (emitted S) b log b') (hdone : ∃ c, b'.pc = .swept c)
    (hlooks : ∀ n t, Run (SweepStep S) b n t → t.looks o = true) {iterator : Option OrderIndex}
    (hpc : b.pc = .visit iterator last candle) (hm : b.context.orders_.Ascending)
    (ha : Ahead o last iterator b.context.orders_) :
    (least_filled o last b.context.orders_.keys = none ∧ called log = []) ∨
      ∃ k t log', least_filled o last b.context.orders_.keys = some k ∧
        t.pc = .filled k last candle ∧ t.strategy = b.strategy ∧
        t.context.orders_ = b.context.orders_ ∧
        t.context.last_order_index_ = b.context.last_order_index_ ∧
        Emits (SweepStep S) (emitted S) t log' b' ∧ called log = called log' ∧
        ∀ n u, Run (SweepStep S) t n u → u.looks o = true := by
  induction h generalizing iterator with
  | nil =>
    obtain ⟨c, hc⟩ := hdone
    rw [hpc] at hc
    cases hc
  | @cons b t _ a log' hstep hrest ih =>
    have hlater : ∀ n u, Run (SweepStep S) t n u → u.looks o = true := fun n u hu =>
      hlooks _ u (.cons hstep hu)
    have hlook := hlooks _ b (.nil b)
    cases step_moves hstep.1 with
    | start hpc' hd => cases hpc.symm.trans hpc'
    | finish hpc' =>
      cases hpc.symm.trans hpc'
      rw [emits_swept rfl hrest]
      refine Or.inl ⟨ahead_end ha fun k hk => ?_, by simp [emitted, hpc, called]⟩
      cases hk
    | bound hpc' hle =>
      cases hpc.symm.trans hpc'
      rw [emits_swept rfl hrest]
      refine Or.inl ⟨ahead_end ha fun k hk => Option.some.inj hk ▸ hle, ?_⟩
      simp [emitted, hpc, Nat.not_lt.mpr hle, called]
    | @pass k _ _ order hpc' hlt hfind hexec =>
      -- The order is not executed, so every filled order is behind it.
      cases hpc.symm.trans hpc'
      have hopen : o k = false := by
        simpa [looks, hpc, hfind, hlt, OrderCall.update_eq, hexec] using hlook
      rw [emitted_pass hpc hlt hfind hexec]
      exact ih hdone hlater rfl hm (ahead_pass ha hm hopen)
    | @trade k _ _ order hpc' hlt hfind hexec =>
      cases hpc.symm.trans hpc'
      have hfilled : o k = true := by
        simpa [looks, hpc, hfind, hlt, OrderCall.update_eq, hexec] using hlook
      rw [emitted_trade hpc hlt hfind hexec]
      exact Or.inr ⟨k, { b with
        pc := .filled k last candle
        context := { b.context with
          account_ := b.context.paid order.side order.quantity (order.fill_price candle) }
        fills := b.fills + 1 }, log', ahead_trade ha hlt hfilled,
        rfl, rfl, rfl, rfl, hrest, rfl, hlater⟩
    | lost hpc' hmem =>
      rcases hpc' with ⟨hpc', _⟩ | hpc' <;> cases hpc.symm.trans hpc'
      exact absurd (ha.1 _ rfl) hmem
    | report hpc' => cases hpc.symm.trans hpc'
    | forget hpc' hmem => cases hpc.symm.trans hpc'
    | update hpc' => cases hpc.symm.trans hpc'

instance (r : BacktestRun σ) (a : Unit) : Decidable (r.Sweeping a) := by
  unfold Sweeping
  cases r.pc <;> infer_instance

end BacktestRun

/-! ## The steps of the live traversal -/

namespace TradeRun

variable {S : IStrategy σ} {net : Net ν} {p : Placement OrderIndex TradeOrder}
  {t t' u : TradeRun σ ν}

/-- The clock plays no part in a traversal. -/
theorem sweep_clockless {now : ℤ} (h : SweepStep S net p t now t') (now' : ℤ) :
    t.step S net p now' = some t' := by
  obtain ⟨h1, h2⟩ := h
  unfold Sweeping at h2
  unfold Step step at h1
  unfold step
  rcases hpc : t.pc with _ | ⟨_ | k⟩ | k | k | _ | candle | f <;>
    simp only [hpc] at h1 h2 ⊢ <;> exact h1

theorem sweep_unique {now now' : ℤ} (h : SweepStep S net p t now t')
    (h' : SweepStep S net p t now' u) : t' = u :=
  Option.some.inj ((sweep_clockless h now').symm.trans h'.1)

/-- What holds at every place that the traversal comes to holds here and from the next step
on. -/
theorem everywhere_cons {P : TradeRun σ ν → Prop} {now : ℤ} (h : SweepStep S net p t now t') :
    (∀ n u, Run (SweepStep S net p) t n u → P u) ↔
      P t ∧ ∀ n u, Run (SweepStep S net p) t' n u → P u := by
  constructor
  · exact fun hall => ⟨hall _ t (.nil t), fun n u hu => hall _ u (.cons h hu)⟩
  · rintro ⟨ht, hall⟩ n u hu
    cases hu with
    | nil => exact ht
    | cons h1 h2 =>
      cases sweep_unique h h1
      exact hall _ u h2

theorem dead_end {n : List ℤ} (hno : ∀ now, ¬ t.Sweeping now)
    (h : Run (SweepStep S net p) t n u) : u = t := by
  cases h with
  | nil => rfl
  | cons h1 _ => exact absurd h1.2 (hno _)

/-- A traversal that comes to its end has not crashed. -/
theorem alive {n : List ℤ} (h : Run (SweepStep S net p) t n u) (hdone : u.pc = .swept)
    (fault : Fault) : t.pc ≠ .crashed fault := by
  intro hpc
  rw [dead_end (fun now hs => by simp [Sweeping, hpc] at hs) h, hpc] at hdone
  cases hdone

theorem poll_frame {order : TradeOrder} {b : Bool} {e e' : TradeEngine ν}
    (h : e.poll net order = (.ok b, e')) :
    e'.orders_ = e.orders_ ∧ e'.last_order_index_ = e.last_order_index_ := by
  rcases e.poll_cases net order with ⟨filled, w, _, hp⟩ | ⟨fault, w, _, hp⟩ <;> rw [hp] at h <;>
    cases h
  exact ⟨rfl, rfl⟩

theorem poll_outcome {o : OrderIndex → Bool} {index : OrderIndex} {order : TradeOrder} {b : Bool}
    {e : TradeEngine ν} (h : t.Asks S net p o) (hpc : t.pc = .visit (some index))
    (hfind : t.engine.orders_.find index = some order)
    (hpoll : t.engine.poll net order = (.ok b, e)) : b = o index := by
  rw [Asks, hpc] at h
  have := h order hfind
  rw [hpoll] at this
  exact Option.some.inj this

theorem callback_reported (prog : StrategyProg σ) (pc : TradePc) (t : TradeRun σ ν) :
    (t.callback net p prog pc).reported = t.reported := by
  unfold callback
  split <;> rfl

theorem reported_grows {n : List ℤ} (h : Run (SweepStep S net p) t n u) :
    t.reported <+: u.reported := by
  refine h.spans (p := fun _ => True) (r := fun t u => t.reported <+: u.reported)
    (fun _ _ _ _ _ => trivial) (fun _ => List.prefix_rfl) (fun _ _ _ => List.IsPrefix.trans)
    (fun t now u _ hstep => ?_) trivial
  cases step_moves hstep.1 with
  | report _ =>
    rw [callback_reported]
    exact List.prefix_append _ _
  | update _ =>
    rw [callback_reported]
  | _ => exact List.prefix_rfl

/-- A filled order is reported before the traversal ends. -/
theorem reports_next {n : List ℤ} {k : OrderIndex} (hpc : t.pc = .filled k)
    (h : Run (SweepStep S net p) t n u) (hdone : u.pc = .swept) :
    t.reported ++ [k] <+: u.reported := by
  cases h with
  | nil =>
    rw [hpc] at hdone
    cases hdone
  | @cons _ t' _ now _ h1 h2 =>
    have hstep : t.step S net p now = some t' := h1.1
    simp only [step, hpc, Option.some.injEq] at hstep
    have := reported_grows h2
    rwa [← hstep, callback_reported] at this

end TradeRun

/-! ## Side by side -/

/-- The two traversals stand at the same place, up to the place in the map. -/
def Synced (o : OrderIndex → Bool) (last : OrderIndex) (t : TradeRun σ ν) (b : BacktestRun σ) :
    Prop :=
  t.strategy = b.strategy ∧ SameBooks last t.engine b.context ∧
    match t.pc, b.pc with
    | .visit _, .visit iterator last' _ =>
      last' = last ∧ BacktestRun.Ahead o last iterator b.context.orders_
    | .filled k, .filled k' last' _ => k' = k ∧ last' = last ∧ k ∈ b.context.orders_.keys ∧
        ∀ j ∈ b.context.orders_.keys, j < last → o j = true → k ≤ j
    | .reported k, .reported k' last' _ => k' = k ∧ last' = last ∧ k ∈ b.context.orders_.keys ∧
        ∀ j ∈ b.context.orders_.keys, j < last → o j = true → k ≤ j
    | _, _ => False

section synced

variable {S : IStrategy σ} {o : OrderIndex → Bool} {last k : OrderIndex} {t : TradeRun σ ν}
  {b b' : BacktestRun σ}

theorem Synced.visit {iterator : Option OrderIndex} (h : Synced o last t b)
    (hpc : t.pc = .visit iterator) : ∃ iterator candle, b.pc = .visit iterator last candle ∧
      BacktestRun.Ahead o last iterator b.context.orders_ := by
  obtain ⟨_, _, h⟩ := h
  rw [hpc] at h
  rcases hb : b.pc with _ | ⟨iterator, last', candle⟩ | _ | _ | _ | _ <;> rw [hb] at h
  case visit =>
    obtain ⟨rfl, ha⟩ := h
    exact ⟨iterator, candle, rfl, ha⟩
  all_goals exact h.elim

theorem Synced.filled (h : Synced o last t b) (hpc : t.pc = .filled k) :
    ∃ candle, b.pc = .filled k last candle ∧ k ∈ b.context.orders_.keys ∧
      ∀ j ∈ b.context.orders_.keys, j < last → o j = true → k ≤ j := by
  obtain ⟨_, _, h⟩ := h
  rw [hpc] at h
  rcases hb : b.pc with _ | _ | ⟨k', last', candle⟩ | _ | _ | _ <;> rw [hb] at h
  case filled =>
    obtain ⟨rfl, rfl, h⟩ := h
    exact ⟨candle, rfl, h⟩
  all_goals exact h.elim

theorem Synced.reported (h : Synced o last t b) (hpc : t.pc = .reported k) :
    ∃ candle, b.pc = .reported k last candle ∧ k ∈ b.context.orders_.keys ∧
      ∀ j ∈ b.context.orders_.keys, j < last → o j = true → k ≤ j := by
  obtain ⟨_, _, h⟩ := h
  rw [hpc] at h
  rcases hb : b.pc with _ | _ | _ | ⟨k', last', candle⟩ | _ | _ <;> rw [hb] at h
  case reported =>
    obtain ⟨rfl, rfl, h⟩ := h
    exact ⟨candle, rfl, h⟩
  all_goals exact h.elim

/-- The first call of a traversal that stands in front of a callback. -/
theorem BacktestRun.called_of_filled {log : SweepLog} {candle : Candle}
    (hpc : b.pc = .filled k last candle)
    (h : Emits (BacktestRun.SweepStep S) (BacktestRun.emitted S) b log b')
    (hdone : ∃ c, b'.pc = .swept c) : ∃ rest, called log = k :: rest := by
  cases h with
  | nil =>
    obtain ⟨c, hc⟩ := hdone
    rw [hpc] at hc
    cases hc
  | cons h1 h2 =>
    simp only [BacktestRun.emitted, hpc]
    exact ⟨_, List.filterMap_cons_some rfl⟩

/-- A step of the backtest traversal from a place inside it. -/
theorem BacktestRun.emits_step {log : SweepLog} {u : BacktestRun σ}
    (h : Emits (BacktestRun.SweepStep S) (BacktestRun.emitted S) b log b')
    (hdone : ∃ c, b'.pc = .swept c) (hstep : BacktestRun.SweepStep S b () u) :
    ∃ log', log = BacktestRun.emitted S b () ++ log' ∧
      Emits (BacktestRun.SweepStep S) (BacktestRun.emitted S) u log' b' := by
  cases h with
  | nil =>
    obtain ⟨c, hc⟩ := hdone
    have := hstep.2
    rw [Sweeping, hc] at this
    exact this.elim
  | cons h1 h2 =>
    cases Option.some.inj (h1.1.symm.trans hstep.1)
    exact ⟨_, rfl, h2⟩

/-- The log of a callback holds its call, and no other. -/
theorem BacktestRun.called_callback {candle : Candle} (hpc : b.pc = .filled k last candle)
    (log : SweepLog) : called (BacktestRun.emitted S b () ++ log) = k :: called log := by
  have hsilent := (BacktestRun.callback_events_silent k
    (trace BacktestBroker (S.on_order_filled k b.strategy) b.context) []).2
  rw [List.nil_append] at hsilent
  simp only [BacktestRun.emitted, hpc]
  change k :: called (_ ++ log) = k :: called log
  rw [called_append, hsilent]
  rfl

/-- At the end of the map the backtest has no call left if and only if nothing is filled. -/
theorem Synced.finish {iterator : Option OrderIndex} {log : SweepLog} (h : Synced o last t b)
    (hpc : t.pc = .visit iterator)
    (hb : Emits (BacktestRun.SweepStep S) (BacktestRun.emitted S) b log b')
    (hdone : ∃ c, b'.pc = .swept c)
    (hlooks : ∀ n u, Run (BacktestRun.SweepStep S) b n u → u.looks o = true) :
    called log = [] ↔ least_filled o last b.context.orders_.keys = none := by
  obtain ⟨iterator, candle, hbpc, ha⟩ := h.visit hpc
  rcases BacktestRun.goes_to_the_least_filled hb hdone hlooks hbpc h.2.1.ascending ha with
    ⟨hnone, hcalled⟩ | ⟨k, u, log', hsome, hupc, _, _, _, hu, hcalled, _⟩
  · rw [hnone, hcalled]
    exact ⟨fun _ => rfl, fun _ => rfl⟩
  · obtain ⟨rest, hrest⟩ := BacktestRun.called_of_filled hupc hu hdone
    rw [hcalled, hrest, hsome]
    simp

/-- A poll without a fill. -/
theorem Synced.skip {engine : TradeEngine ν} {iterator iterator' : Option OrderIndex}
    (h : Synced o last t b) (hpc : t.pc = .visit iterator)
    (ho : engine.orders_ = t.engine.orders_)
    (hl : engine.last_order_index_ = t.engine.last_order_index_) :
    Synced o last { t with pc := .visit iterator', engine := engine } b := by
  obtain ⟨iterator, candle, hbpc, ha⟩ := h.visit hpc
  refine ⟨h.1, h.2.1.world ho hl, ?_⟩
  rw [hbpc]
  exact ⟨rfl, ha⟩

/-- A poll with a fill, when the backtest goes to the same order. -/
theorem Synced.jump {engine : TradeEngine ν} {u : BacktestRun σ} {candle : Candle}
    (h : Synced o last t b) (ho : engine.orders_ = t.engine.orders_)
    (hl : engine.last_order_index_ = t.engine.last_order_index_)
    (hk : least_filled o last b.context.orders_.keys = some k)
    (hupc : u.pc = .filled k last candle) (hus : u.strategy = b.strategy)
    (huo : u.context.orders_ = b.context.orders_)
    (hui : u.context.last_order_index_ = b.context.last_order_index_) :
    Synced o last { t with pc := .filled k, engine := engine } u := by
  have hleast := least_filled_eq_some.mp hk
  refine ⟨h.1.trans hus.symm, (h.2.1.world ho hl).account huo hui, ?_⟩
  rw [hupc, huo]
  exact ⟨rfl, rfl, hleast.1.1, hleast.2⟩

/-- After a poll with a fill the backtest goes to the same order, or its next call is not about
that order. -/
theorem Synced.fill {engine : TradeEngine ν} {iterator : Option OrderIndex} {log : SweepLog}
    (h : Synced o last t b) (hpc : t.pc = .visit iterator)
    (ho : engine.orders_ = t.engine.orders_)
    (hl : engine.last_order_index_ = t.engine.last_order_index_)
    (hb : Emits (BacktestRun.SweepStep S) (BacktestRun.emitted S) b log b')
    (hdone : ∃ c, b'.pc = .swept c)
    (hlooks : ∀ n u, Run (BacktestRun.SweepStep S) b n u → u.looks o = true) :
    (least_filled o last b.context.orders_.keys = some k ∧ ∃ u log',
        Emits (BacktestRun.SweepStep S) (BacktestRun.emitted S) u log' b' ∧
        called log = called log' ∧
        (∀ n v, Run (BacktestRun.SweepStep S) u n v → v.looks o = true) ∧
        Synced o last { t with pc := .filled k, engine := engine } u) ∨
      least_filled o last b.context.orders_.keys ≠ some k ∧ ∀ rest, called log ≠ k :: rest := by
  obtain ⟨iterator, candle, hbpc, ha⟩ := h.visit hpc
  rcases BacktestRun.goes_to_the_least_filled hb hdone hlooks hbpc h.2.1.ascending ha with
    ⟨hnone, hcalled⟩ | ⟨j, u, log', hsome, hupc, hus, huo, hui, hu, hcalled, hul⟩
  · rw [hnone, hcalled]
    exact Or.inr ⟨by simp, by simp⟩
  · by_cases hjk : j = k
    · subst hjk
      exact Or.inl ⟨hsome, u, log', hu, hcalled, hul, h.jump ho hl hsome hupc hus huo hui⟩
    · obtain ⟨rest', hrest⟩ := BacktestRun.called_of_filled hupc hu hdone
      rw [hsome, hcalled, hrest]
      refine Or.inr ⟨by simpa using hjk, fun rest heq => ?_⟩
      exact hjk (List.cons.inj heq).1

/-- A callback, in both engines. -/
theorem Synced.report {net : Net ν} {p : Placement OrderIndex TradeOrder} {a : σ}
    {e : TradeEngine ν} {log : SweepLog} (h : Synced o last t b) (hpc : t.pc = .filled k)
    (hasks : t.Asks S net p o)
    (hrun : run (TradeBroker net p) (S.on_order_filled k t.strategy) t.engine = (.ok a, e))
    (hb : Emits (BacktestRun.SweepStep S) (BacktestRun.emitted S) b log b')
    (hdone : ∃ c, b'.pc = .swept c) :
    ∃ u log', BacktestRun.SweepStep S b () u ∧
      Emits (BacktestRun.SweepStep S) (BacktestRun.emitted S) u log' b' ∧
      called log = k :: called log' ∧
      Synced o last (TradeRun.callback net p (S.on_order_filled k t.strategy) (.reported k)
        { t with reported := t.reported ++ [k] }) u := by
  obtain ⟨candle, hbpc, hk, hmin⟩ := h.filled hpc
  rw [TradeRun.Asks, hpc] at hasks
  obtain ⟨c, hrun', hbooks, hk', hold⟩ := h.2.1.callback net p hk hasks.1 hrun
  rw [h.1] at hrun'
  have hmove : BacktestRun.Move S b _ := .report hbpc
  rw [BacktestRun.callback_ok hrun'] at hmove
  have hstep : BacktestRun.SweepStep S b () _ :=
    ⟨hmove.step, by simp [BacktestRun.Sweeping, hbpc]⟩
  obtain ⟨log', rfl, hb'⟩ := BacktestRun.emits_step hb hdone hstep
  refine ⟨_, log', hstep, hb', BacktestRun.called_callback hbpc log', ?_⟩
  unfold TradeRun.callback
  simp only [hrun]
  exact ⟨rfl, hbooks, rfl, rfl, hk', fun j hj hlt ho => hmin j (hold j hj hlt) hlt ho⟩

/-- The executed order goes, in both engines. -/
theorem Synced.forget {log : SweepLog} (h : Synced o last t b) (hpc : t.pc = .reported k)
    (hb : Emits (BacktestRun.SweepStep S) (BacktestRun.emitted S) b log b')
    (hdone : ∃ c, b'.pc = .swept c) :
    ∃ u log', BacktestRun.SweepStep S b () u ∧
      Emits (BacktestRun.SweepStep S) (BacktestRun.emitted S) u log' b' ∧
      called log = called log' ∧
      Synced o last { t with
        pc := .visit (t.engine.orders_.next k)
        engine := { t.engine with orders_ := t.engine.orders_.erase k } } u := by
  obtain ⟨candle, hbpc, hk, hmin⟩ := h.reported hpc
  have hstep : BacktestRun.SweepStep S b () _ :=
    ⟨(BacktestRun.Move.forget hbpc hk).step, by simp [BacktestRun.Sweeping, hbpc]⟩
  obtain ⟨log', rfl, hb'⟩ := BacktestRun.emits_step hb hdone hstep
  have hcalls : called (BacktestRun.emitted S b () ++ log') = called log' := by
    simp only [BacktestRun.emitted, hbpc]
    rfl
  refine ⟨_, log', hstep, hb', hcalls, h.1, h.2.1.erase rfl rfl, rfl, ?_⟩
  apply BacktestRun.ahead_next h.2.1.ascending hk
  · exact fun j hj hne => Map.mem_keys_erase.mpr ⟨hj, hne⟩
  · intro j hj hlt ho
    obtain ⟨hj, hne⟩ := Map.mem_keys_erase.mp hj
    exact ⟨hj, Nat.lt_of_le_of_ne (hmin j hj hlt ho) hne.symm⟩

end synced

section in_order

variable {o : OrderIndex → Bool} {last k : OrderIndex} {t : TradeRun σ ν}

/-- At the end of the map nothing filled may be left. -/
theorem inOrder_end (hpc : t.pc = .visit none) :
    t.InOrder o last ↔ least_filled o last t.engine.orders_.keys = none := by
  rw [TradeRun.InOrder, hpc]
  simp only [Map.rest, List.find?_nil, eq_comm, reduceCtorEq, Option.mem_def, false_implies,
    implies_true, and_true]

/-- An order that is not filled leaves the first filled order where it is. -/
theorem inOrder_open (hpc : t.pc = .visit (some k)) (hk : k ∈ t.engine.orders_.keys)
    (ho : o k = false) {engine : TradeEngine ν} (horders : engine.orders_ = t.engine.orders_)
    (h : TradeRun.InOrder o last { t with
      pc := .visit (engine.orders_.next k)
      engine := engine }) : t.InOrder o last ↔ k < last := by
  unfold TradeRun.InOrder at h ⊢
  rw [hpc]
  dsimp only at h ⊢
  rw [horders] at h
  rw [Map.rest_next hk, List.find?_cons_of_neg (by simp [ho])]
  simp [h.1]

theorem inOrder_filled (hpc : t.pc = .visit (some k)) (hk : k ∈ t.engine.orders_.keys)
    (ho : o k = true) :
    t.InOrder o last ↔ least_filled o last t.engine.orders_.keys = some k ∧ k < last := by
  unfold TradeRun.InOrder
  rw [hpc]
  dsimp only
  rw [Map.rest_next hk, List.find?_cons_of_pos ho, eq_comm]
  simp

/-- Between a fill and the next visit nothing is asked of the order. -/
theorem inOrder_between (hpc : ∀ iterator, t.pc ≠ .visit iterator) : t.InOrder o last := by
  unfold TradeRun.InOrder
  split
  · exact absurd ‹_› (hpc _)
  · trivial

/-- The next step asks about the order that it polls. -/
theorem asked_poll {order : TradeOrder} (hpc : t.pc = .visit (some k))
    (hfind : t.engine.orders_.find k = some order) (now : ℤ) : t.asked now = [k] := by
  have hk : k ∈ t.engine.orders_.keys := Map.mem_keys_of_find hfind
  simp [TradeRun.asked, hpc, hk]

theorem asked_between (hpc : ∀ index, t.pc ≠ .visit (some index)) (now : ℤ) :
    t.asked now = [] := by
  unfold TradeRun.asked
  split
  · exact absurd ‹_› (hpc _)
  · rfl

end in_order

theorem calls_alike_iff {S : IStrategy σ} {net : Net ν} {p : Placement OrderIndex TradeOrder}
    {o : OrderIndex → Bool} {last : OrderIndex} {t r : TradeRun σ ν} {polls : List OrderIndex}
    (hrun : Emits (TradeRun.SweepStep S net p) TradeRun.asked t polls r) (hdone : r.pc = .swept)
    {b b' : BacktestRun σ} {log : SweepLog}
    (hb : Emits (BacktestRun.SweepStep S) (BacktestRun.emitted S) b log b')
    (hdone' : ∃ c, b'.pc = .swept c) (hsync : Synced o last t b)
    (hasks : ∀ n u, Run (TradeRun.SweepStep S net p) t n u → u.Asks S net p o)
    (hlooks : ∀ n u, Run (BacktestRun.SweepStep S) b n u → u.looks o = true) :
    (r.reported = t.reported ++ called log ∧ ∀ k ∈ polls, k < last) ↔
      ∀ n u, Run (TradeRun.SweepStep S net p) t n u → u.InOrder o last := by
  induction hrun generalizing b log with
  | nil =>
    obtain ⟨_, _, h⟩ := hsync
    rw [hdone] at h
    exact h.elim
  | @cons t t' r now polls hstep hrest ih =>
    rw [TradeRun.everywhere_cons hstep]
    have hlater : ∀ n u, Run (TradeRun.SweepStep S net p) t' n u → u.Asks S net p o :=
      fun n u hu => hasks _ u (.cons hstep hu)
    have hhere := hasks _ t (.nil t)
    obtain ⟨hstrategy, hbooks, _⟩ := id hsync
    have hleast : least_filled o last t.engine.orders_.keys =
        least_filled o last b.context.orders_.keys := least_filled_congr hbooks.keys
    obtain ⟨rest, hrestrun⟩ := hrest.run
    have halive := TradeRun.alive hrestrun hdone
    have hsweeping := hstep.2
    cases TradeRun.step_moves hstep.1 with
    | finish hpc =>
      -- The end of the map is the end of the run.
      have hstop : ∀ {n u}, Run (TradeRun.SweepStep S net p) { t with pc := .swept } n u →
          u = { t with pc := .swept } :=
        TradeRun.dead_end fun now h => by simp [TradeRun.Sweeping] at h
      have hpolls : t.asked now ++ polls = [] := by
        cases hrest with
        | nil => rw [asked_between (by simp [hpc]), List.append_nil]
        | cons h1 _ => exact absurd h1.2 (by simp [TradeRun.Sweeping])
      rw [inOrder_end hpc, hleast, ← hsync.finish hpc hb hdone' hlooks, hstop hrestrun, hpolls]
      refine ⟨fun h => ⟨List.self_eq_append_right.mp h.1, fun m v hv => ?_⟩, fun h => ?_⟩
      · rw [hstop hv]
        trivial
      · rw [h.1]
        simp
    | @poll_open k order engine hpc hfind hpoll =>
      obtain ⟨horders, hindex⟩ := TradeRun.poll_frame hpoll
      have hk : k ∈ t.engine.orders_.keys := Map.mem_keys_of_find hfind
      have hopen : o k = false := by
        exact (TradeRun.poll_outcome hhere hpc hfind hpoll).symm
      have hrest := ih hdone hb (hsync.skip hpc horders hindex) hlater hlooks
      rw [asked_poll hpc hfind, List.singleton_append, List.forall_mem_cons, and_left_comm]
      constructor
      · rintro ⟨hlt, h⟩
        have hlaterOrder := hrest.mp h
        exact ⟨(inOrder_open hpc hk hopen horders (hlaterOrder _ _ (.nil _))).mpr hlt, hlaterOrder⟩
      · rintro ⟨hnow, h⟩
        exact ⟨(inOrder_open hpc hk hopen horders (h _ _ (.nil _))).mp hnow, hrest.mpr h⟩
    | @poll_filled k order engine hpc hfind hpoll =>
      obtain ⟨horders, hindex⟩ := TradeRun.poll_frame hpoll
      have hk : k ∈ t.engine.orders_.keys := Map.mem_keys_of_find hfind
      have hfilled : o k = true := by
        exact (TradeRun.poll_outcome hhere hpc hfind hpoll).symm
      rw [inOrder_filled hpc hk hfilled, hleast, asked_poll hpc hfind, List.singleton_append,
        List.forall_mem_cons]
      rcases hsync.fill hpc horders hindex hb hdone' hlooks with
        ⟨hsome, u, log', hu, hcalled, hul, hsync'⟩ | ⟨hnot, hother⟩
      · rw [hcalled, hsome, ← ih hdone hu hsync' hlater hul, and_left_comm]
        simp
      · simp only [hnot, false_and, iff_false]
        rintro ⟨heq, _⟩
        have hnext := TradeRun.reports_next rfl hrestrun hdone
        rw [heq] at hnext
        obtain ⟨rest, hrest'⟩ := (List.prefix_append_right_inj _).mp hnext
        exact hother rest hrest'.symm
    | @report k hpc =>
      rcases hprog : run (TradeBroker net p) (S.on_order_filled k t.strategy) t.engine with
        ⟨fault | a, e⟩
      · exact absurd (by simp [TradeRun.callback, hprog]) (halive fault)
      · obtain ⟨u, log', hbstep, hb', hcalled, hsync'⟩ :=
          hsync.report hpc hhere hprog hb hdone'
        have hnow : t.InOrder o last := inOrder_between fun iterator => by simp [hpc]
        rw [hcalled, ← ih hdone hb' hsync' hlater fun n u hu => hlooks _ u (.cons hbstep hu),
          TradeRun.callback_reported, List.append_cons, asked_between (by simp [hpc]),
          List.nil_append]
        exact ⟨fun h => ⟨hnow, h⟩, And.right⟩
    | @forget k hpc hk =>
      obtain ⟨u, log', hbstep, hb', hcalled, hsync'⟩ := hsync.forget hpc hb hdone'
      have hnow : t.InOrder o last := inOrder_between fun iterator => by simp [hpc]
      rw [hcalled, ← ih hdone hb' hsync' hlater fun n u hu => hlooks _ u (.cons hbstep hu),
        asked_between (by simp [hpc]), List.nil_append]
      exact ⟨fun h => ⟨hnow, h⟩, And.right⟩
    | poll_failed _ _ _ => exact absurd rfl (halive _)
    | lost _ _ => exact absurd rfl (halive _)
    | start hpc => simp [TradeRun.Sweeping, hpc] at hsweeping
    | fetch hpc _ _ => simp [TradeRun.Sweeping, hpc] at hsweeping
    | fetch_empty hpc _ => simp [TradeRun.Sweeping, hpc] at hsweeping
    | fetch_failed hpc _ => simp [TradeRun.Sweeping, hpc] at hsweeping
    | update hpc => simp [TradeRun.Sweeping, hpc] at hsweeping

/-! ## The live traversal ends -/

namespace TradeRun

variable {S : IStrategy σ} {net : Net ν} {p : Placement OrderIndex TradeOrder}
  {o : OrderIndex → Bool} {last k : OrderIndex} {t u : TradeRun σ ν} {order : TradeOrder}

/-- The traversal ends, and it ends in one way. -/
def Ends (S : IStrategy σ) (net : Net ν) (p : Placement OrderIndex TradeOrder)
    (t : TradeRun σ ν) : Prop := ∃ n r, Run (SweepStep S net p) t n r ∧ r.pc = .swept

theorem Ends.cons (hstep : SweepStep S net p t 0 u) (h : u.Ends S net p) : t.Ends S net p := by
  obtain ⟨n, r, hrun, hdone⟩ := h
  exact ⟨_, r, .cons hstep hrun, hdone⟩

/-- A poll of an order with an outcome. -/
theorem poll_step (hpc : t.pc = .visit (some k)) (hfind : t.engine.orders_.find k = some order)
    (hasks : t.Asks S net p o) :
    ∃ engine, engine.orders_ = t.engine.orders_ ∧
      engine.last_order_index_ = t.engine.last_order_index_ ∧
      SweepStep S net p t 0 { t with
        pc := if o k then .filled k else .visit (t.engine.orders_.next k)
        engine := engine } := by
  rw [Asks, hpc] at hasks
  have hpoll := hasks order hfind
  rcases hp : t.engine.poll net order with ⟨fault | b, engine⟩ <;> rw [hp] at hpoll <;> cases hpoll
  obtain ⟨horders, hindex⟩ := poll_frame hp
  refine ⟨engine, horders, hindex, ?_, by simp [Sweeping, hpc]⟩
  unfold Step step
  cases ho : o k <;> simp [hpc, hfind, hp, ho, horders]

/-- A callback whose requests are answered. -/
theorem report_step (hpc : t.pc = .filled k) (hasks : t.Asks S net p o) :
    ∃ a e, run (TradeBroker net p) (S.on_order_filled k t.strategy) t.engine = (.ok a, e) ∧
      SweepStep S net p t 0 (callback net p (S.on_order_filled k t.strategy) (.reported k)
        { t with reported := t.reported ++ [k] }) := by
  rw [Asks, hpc] at hasks
  obtain ⟨_, hok⟩ := hasks
  rcases hrun : run (TradeBroker net p) (S.on_order_filled k t.strategy) t.engine with
    ⟨fault | a, e⟩
  · rw [hrun] at hok
    cases hok
  · refine ⟨a, e, rfl, ?_, by simp [Sweeping, hpc]⟩
    simp [Step, step, hpc]

end TradeRun

/-- Both engines call the strategy about the same order, and forget the order. -/
theorem Synced.one_call {S : IStrategy σ} {net : Net ν} {p : Placement OrderIndex TradeOrder}
    {o : OrderIndex → Bool} {last k : OrderIndex} {t : TradeRun σ ν} {b b' : BacktestRun σ}
    {log : SweepLog} (hsync : Synced o last t b) (hpc : t.pc = .filled k)
    (hasks : t.Asks S net p o)
    (hb : Emits (BacktestRun.SweepStep S) (BacktestRun.emitted S) b log b')
    (hdone' : ∃ c, b'.pc = .swept c) :
    ∃ t' iterator b'' log', Run (TradeRun.SweepStep S net p) t [0, 0] t' ∧
      t'.pc = .visit iterator ∧ (∀ j, iterator = some j → j ∈ t'.engine.orders_.keys) ∧
      Run (BacktestRun.SweepStep S) b [(), ()] b'' ∧
      Emits (BacktestRun.SweepStep S) (BacktestRun.emitted S) b'' log' b' ∧
      called log = k :: called log' ∧ Synced o last t' b'' := by
  obtain ⟨a, e, hprog, hstep⟩ := TradeRun.report_step hpc hasks
  obtain ⟨u, log', hbstep, hb1, hcalled, hsync1⟩ := hsync.report hpc hasks hprog hb hdone'
  have hpc' : (TradeRun.callback net p (S.on_order_filled k t.strategy) (.reported k)
      { t with reported := t.reported ++ [k] }).pc = .reported k := by
    simp [TradeRun.callback, hprog]
  generalize TradeRun.callback net p (S.on_order_filled k t.strategy) (.reported k)
    { t with reported := t.reported ++ [k] } = t' at hstep hsync1 hpc'
  obtain ⟨_, _, hk, _⟩ := hsync1.reported hpc'
  have hk' : k ∈ t'.engine.orders_.keys := (hsync1.2.1.keys k).mpr hk
  have hstep' : TradeRun.SweepStep S net p t' 0 { t' with
      pc := .visit (t'.engine.orders_.next k)
      engine := { t'.engine with orders_ := t'.engine.orders_.erase k } } :=
    ⟨by simp [TradeRun.Step, TradeRun.step, hpc', hk'], by simp [TradeRun.Sweeping, hpc']⟩
  obtain ⟨v, log'', hbstep', hb2, hcalled', hsync2⟩ := hsync1.forget hpc' hb1 hdone'
  refine ⟨_, _, v, log'', .cons hstep (.single hstep'), rfl, ?_, .cons hbstep (.single hbstep'),
    hb2, ?_, hsync2⟩
  · intro j hj
    exact Map.mem_keys_erase.mpr (Map.next_mem hj)
  · rw [hcalled, hcalled']

/-- A live traversal that meets the filled orders in order ends: each of its callbacks is one of
the backtest, and between two of them the iterator moves on. -/
theorem ends_in_order {S : IStrategy σ} {net : Net ν} {p : Placement OrderIndex TradeOrder}
    {o : OrderIndex → Bool} {last : OrderIndex} (calls behind : ℕ) {t : TradeRun σ ν}
    {b b' : BacktestRun σ} {log : SweepLog} {iterator : Option OrderIndex}
    (hpc : t.pc = .visit iterator) (hiterator : ∀ k, iterator = some k → k ∈ t.engine.orders_.keys)
    (hcalls : (called log).length = calls)
    (hbehind : (t.engine.orders_.rest iterator).length = behind)
    (hb : Emits (BacktestRun.SweepStep S) (BacktestRun.emitted S) b log b')
    (hdone' : ∃ c, b'.pc = .swept c) (hsync : Synced o last t b)
    (hasks : ∀ n u, Run (TradeRun.SweepStep S net p) t n u → u.Asks S net p o)
    (hlooks : ∀ n u, Run (BacktestRun.SweepStep S) b n u → u.looks o = true)
    (horder : ∀ n u, Run (TradeRun.SweepStep S net p) t n u → u.InOrder o last) :
    t.Ends S net p := by
  induction calls using Nat.strong_induction_on generalizing behind t b log iterator with
  | _ calls ih =>
    induction behind generalizing t iterator with
    | zero =>
      rcases iterator with _ | k
      · exact ⟨[0], { t with pc := .swept }, .single
          ⟨by simp [TradeRun.Step, TradeRun.step, hpc], by simp [TradeRun.Sweeping, hpc]⟩, rfl⟩
      · rw [Map.rest_next (hiterator k rfl)] at hbehind
        cases hbehind
    | succ behind ihb =>
      rcases iterator with _ | k
      · cases hbehind
      have hk := hiterator k rfl
      obtain ⟨order, hfind⟩ := Map.find_of_mem_keys hk
      obtain ⟨engine, horders, hindex, hstep⟩ :=
        TradeRun.poll_step hpc hfind (hasks _ t (.nil t))
      apply TradeRun.Ends.cons hstep
      obtain ⟨_, hasks'⟩ := (TradeRun.everywhere_cons hstep).mp hasks
      obtain ⟨hhere, horder'⟩ := (TradeRun.everywhere_cons hstep).mp horder
      cases ho : o k with
      | false =>
        rw [ho] at hasks' horder'
        refine ihb rfl (fun j hj => ?_) ?_ (hsync.skip hpc horders hindex) hasks' horder'
        · change j ∈ engine.orders_.keys
          rw [horders]
          exact (Map.next_mem hj).1
        · change (engine.orders_.rest _).length = behind
          rw [Map.rest_next hk] at hbehind
          rw [horders]
          exact Nat.succ.inj hbehind
      | true =>
        rw [ho] at hasks' horder'
        have hleast : least_filled o last b.context.orders_.keys = some k := by
          rw [← ((inOrder_filled hpc hk ho).mp hhere).1]
          exact least_filled_congr fun j => (hsync.2.1.keys j).symm
        rcases hsync.fill hpc horders hindex hb hdone' hlooks with
          ⟨_, u, log', hu, hcalled, hul, hfilled⟩ | ⟨hnot, _⟩
        · obtain ⟨t', iterator, b'', log'', hrun, hpc', hit, hbrun, hb'', hcalled', hsync'⟩ :=
            hfilled.one_call rfl (hasks' _ _ (.nil _)) hu hdone'
          obtain ⟨n, r, hr, hdone⟩ := ih (called log'').length
            (by rw [← hcalls, hcalled, hcalled']; simp) _ hpc' hit rfl rfl hb'' hsync'
            (fun n u hu => hasks' _ u (hrun.append hu)) (fun n u hu => hul _ u (hbrun.append hu))
            (fun n u hu => horder' _ u (hrun.append hu))
          exact ⟨_, r, hrun.append hr, hdone⟩
        · exact absurd hleast hnot

/-- The live traversal and the one of the backtest, at their starts, over the same orders, with
the same outcomes and the same strategy. -/
structure SideBySide (S : IStrategy σ) (net : Net ν) (p : Placement OrderIndex TradeOrder)
    (o : OrderIndex → Bool) (candle : Candle) (r : TradeRun σ ν) (b : BacktestRun σ) : Prop where
  live : r.pc = .visit r.engine.orders_.first
  backtest : b.pc = .visit b.context.orders_.first b.context.last_order_index_ candle
  strategy : r.strategy = b.strategy
  books : SameBooks b.context.last_order_index_ r.engine b.context
  asks : ∀ n u, Run (TradeRun.SweepStep S net p) r n u → u.Asks S net p o
  looks : ∀ n u, Run (BacktestRun.SweepStep S) b n u → u.looks o = true

/-- The live traversal ends with the calls of the backtest, and asks about no order that was placed
on the way, if and only if its iterator stands only at orders from before, and the first filled
order from there on is always the least of the filled orders from before. -/
theorem the_traversals_call_alike_iff_in_order (S : IStrategy σ) (net : Net ν)
    (p : Placement OrderIndex TradeOrder) (o : OrderIndex → Bool) (candle : Candle)
    (r : TradeRun σ ν) (b b' : BacktestRun σ) (log : SweepLog)
    (h : SideBySide S net p o candle r b)
    (hb : Emits (BacktestRun.SweepStep S) (BacktestRun.emitted S) b log b')
    (hdone : b'.pc = .swept candle) :
    (∃ polls r', Emits (TradeRun.SweepStep S net p) TradeRun.asked r polls r' ∧
        r'.pc = .swept ∧ r'.reported = r.reported ++ called log ∧
        ∀ k ∈ polls, k < b.context.last_order_index_) ↔
      ∀ n u, Run (TradeRun.SweepStep S net p) r n u →
        u.InOrder o b.context.last_order_index_ := by
  have hsync : Synced o b.context.last_order_index_ r b := by
    refine ⟨h.strategy, h.books, ?_⟩
    rw [h.live, h.backtest]
    exact ⟨rfl, BacktestRun.ahead_first _ _ h.books.ascending⟩
  constructor
  · rintro ⟨polls, r', hrun, hswept, halike⟩
    exact (calls_alike_iff hrun hswept hb ⟨candle, hdone⟩ hsync h.asks h.looks).mp halike
  · intro horder
    obtain ⟨n, r', hrun, hswept⟩ := ends_in_order _ _ h.live (fun k hk => Map.first_mem hk) rfl rfl
      hb ⟨candle, hdone⟩ hsync h.asks h.looks horder
    obtain ⟨polls, hemits⟩ := hrun.emits TradeRun.asked
    exact ⟨polls, r', hemits, hswept,
      (calls_alike_iff hemits hswept hb ⟨candle, hdone⟩ hsync h.asks h.looks).mpr horder⟩

/-- An exchange with nothing but filled orders. -/
def filled_net : Net Unit
  | .connect_sync, w => (.connected, w)
  | .send_sync _, w =>
    (some { result := 200, body := .obj [("status", .str "FILLED"), ("orderId", .num 7)] }, w)

/-- A strategy that answers the fill of each of its first two orders with a new order. -/
def answering_strategy : IStrategy Unit where
  update := fun _ s => .ret s
  on_order_filled := fun index s => do
    if index < 2 then
      let _ ← IBroker.limit_sell_order 1 110
    return s

/-- The live engine in front of two orders. -/
def live_sweep (orders : Map OrderIndex TradeOrder) : TradeRun Unit Unit where
  pc := .visit orders.first
  engine := {
    symbol_ := "BTCUSDT"
    broker_ := retry_broker
    orders_ := orders
    last_order_index_ := 2
    world := () }
  strategy := ()

/-- The backtest engine in front of the same orders, with a candle that fills them. -/
def backtest_sweep : BacktestRun Unit where
  pc := .visit (some 0) 2 (flat_candle 100)
  data_loader := []
  context := {
    account_ := { balance := 1000, position := 0 }
    orders_ := ⟨[(0, .limit_buy_order 1 100), (1, .limit_buy_order 1 100)], by decide⟩
    last_order_index_ := 2 }
  strategy := ()

/-- What a live traversal meets can be computed, if it meets few states. -/
theorem live_sweep_everywhere {S : IStrategy σ} {net : Net ν}
    {p : Placement OrderIndex TradeOrder} {P : TradeRun σ ν → Prop} [DecidablePred P] (fuel : ℕ)
    {r : TradeRun σ ν}
    (h : everywhere (fun r => if r.Sweeping 0 then r.step S net p 0 else none)
      (fun r => decide (P r)) fuel r = true) {n : List ℤ} {u : TradeRun σ ν}
    (hu : Run (TradeRun.SweepStep S net p) r n u) : P u := by
  refine of_decide_eq_true (of_everywhere (p := fun r => decide (P r)) (fun t now t' hstep => ?_) h hu)
  rw [if_pos (show t.Sweeping 0 from hstep.2)]
  exact TradeRun.sweep_clockless hstep 0

theorem side_by_side (orders : Map OrderIndex TradeOrder)
    (hkeys : orders.keys.Perm [0, 1])
    (h : everywhere (fun r => if r.Sweeping 0 then r.step answering_strategy filled_net in_front 0
        else none)
      (fun r => decide (r.Asks answering_strategy filled_net in_front fun _ => true)) 8
      (live_sweep orders) = true) :
    SideBySide answering_strategy filled_net in_front (fun _ => true) (flat_candle 100)
      (live_sweep orders) backtest_sweep := by
  refine ⟨rfl, rfl, rfl, ⟨rfl, fun _ => hkeys.mem_iff, ⟨Nat.le_refl _, by decide⟩, ?_⟩, ?_, ?_⟩
  · unfold Map.Ascending
    decide
  · exact fun n u hu => live_sweep_everywhere 8 h hu
  · intro n u hu
    exact of_everywhere (fun t _ t' hstep => hstep.1) (n := 20) (by decide +kernel) hu

/-- The traversal of the backtest calls about the order 0 and then the order 1. -/
theorem backtest_sweep_calls :
    ∃ log b', Emits (BacktestRun.SweepStep answering_strategy)
        (BacktestRun.emitted answering_strategy) backtest_sweep log b' ∧
      b'.pc = .swept (flat_candle 100) ∧ called log = [0, 1] := by
  have hlog : ((replay_log (fun b _ => b.step answering_strategy)
      (BacktestRun.emitted answering_strategy) BacktestRun.Sweeping (List.replicate 7 ())
      backtest_sweep).any fun x =>
        x.2.pc = .swept (flat_candle 100) ∧ called x.1 = [0, 1]) = true := by decide +kernel
  obtain ⟨⟨log, b'⟩, hreplay, hout⟩ := (Option.any_eq_true _ _).mp hlog
  obtain ⟨hswept, hcalls⟩ := of_decide_eq_true hout
  exact ⟨log, b', emits_of_replay (fun _ _ _ h => h) hreplay, hswept, hcalls⟩

/-- In the order of the indices, both engines call about the order 0 and then the order 1. The
orders that the callbacks place stand in front of the iterator and are not polled. -/
theorem two_filled_orders_in_order_are_called_alike :
    ∃ log b' polls r', Emits (BacktestRun.SweepStep answering_strategy)
        (BacktestRun.emitted answering_strategy) backtest_sweep log b' ∧
      called log = [0, 1] ∧
      Emits (TradeRun.SweepStep answering_strategy filled_net in_front) TradeRun.asked
        (live_sweep ⟨[(0, ⟨7, .limit_buy_order 1 100⟩), (1, ⟨7, .limit_buy_order 1 100⟩)],
          by decide⟩) polls r' ∧
      r'.pc = .swept ∧ r'.reported = [0, 1] ∧ ∀ k ∈ polls, k < 2 := by
  obtain ⟨log, b', hb, hswept, hcalls⟩ := backtest_sweep_calls
  obtain ⟨polls, r', hrun, hswept', hcalls', hpolls⟩ := (the_traversals_call_alike_iff_in_order
    answering_strategy filled_net in_front (fun _ => true) (flat_candle 100) _ backtest_sweep b' log
    (side_by_side ⟨[(0, ⟨7, .limit_buy_order 1 100⟩), (1, ⟨7, .limit_buy_order 1 100⟩)],
      by decide⟩ (by decide) (by decide +kernel)) hb hswept).mpr
    fun n u hu => live_sweep_everywhere 8 (by decide +kernel) hu
  exact ⟨log, b', polls, r', hb, hcalls, hrun, hswept', hcalls'.trans hcalls, hpolls⟩

/-- The order 1 stands in front of the order 0 in the map of the live engine, as a hash map may
have it after it was placed: the live engine calls about 1 and then 0, the backtest about 0 and
then 1. -/
theorem the_live_engine_calls_in_the_order_of_its_map :
    ∃ orders log b' n r',
      orders = in_front.emplace 1 ⟨7, .limit_buy_order 1 100⟩
        (in_front.emplace 0 ⟨7, .limit_buy_order 1 100⟩ ∅) ∧
      SideBySide answering_strategy filled_net in_front (fun _ => true) (flat_candle 100)
        (live_sweep orders) backtest_sweep ∧
      Emits (BacktestRun.SweepStep answering_strategy)
        (BacktestRun.emitted answering_strategy) backtest_sweep log b' ∧
      b'.pc = .swept (flat_candle 100) ∧
      Run (TradeRun.SweepStep answering_strategy filled_net in_front) (live_sweep orders) n r' ∧
      r'.pc = .swept ∧ r'.reported = [1, 0] ∧ called log = [0, 1] := by
  obtain ⟨log, b', hb, hswept, hcalls⟩ := backtest_sweep_calls
  have hrun : ((replay (fun r now => r.step answering_strategy filled_net in_front now)
      TradeRun.Sweeping (List.replicate 7 0) (live_sweep (in_front.emplace 1
        ⟨7, .limit_buy_order 1 100⟩ (in_front.emplace 0 ⟨7, .limit_buy_order 1 100⟩ ∅)))).any
        fun r => r.pc = .swept ∧ r.reported = [1, 0]) = true := by decide +kernel
  obtain ⟨r', hreplay, hout⟩ := (Option.any_eq_true _ _).mp hrun
  obtain ⟨hswept', hcalls'⟩ := of_decide_eq_true hout
  refine ⟨_, log, b', _, r', rfl, side_by_side _ (by decide) ?_, hb, hswept,
    run_of_replay (fun _ _ _ h => h) hreplay, hswept', hcalls', hcalls⟩
  decide +kernel

end wedge
