-- An OTO list of the new engine against a strategy of the old engine that places the
-- pending order when the working order fills. The old traversal has a bound, so a new
-- order waits for the next candle; the sweep of the new engine has none.
import Wedge.Backtest.Solvency
import Wedge.Backtest.Sweep
import Wedge.Backtest2.Oto
import Wedge.Compare.Plain

namespace wedge

open programs containers runs sweep backtest2

/-! ## New orders wait -/

namespace BacktestRun

variable {σ : Type} {S : IStrategy σ}

/-- A callback gets new indices only. -/
theorem callback_places {α : Type} (prog : StrategyProg α) (c : BacktestContext) :
    c.last_order_index_ ≤ (run BacktestBroker prog c).2.last_order_index_ ∧
      ∀ (order : OrderCall) (i : OrderIndex),
        ⟨.place order, i⟩ ∈ trace BacktestBroker prog c → c.last_order_index_ ≤ i := by
  induction prog generalizing c with
  | ret a => exact ⟨Nat.le_refl _, fun _ _ h => by cases h⟩
  | fail e => exact ⟨Nat.le_refl _, fun _ _ h => by cases h⟩
  | call op next ih =>
    cases op with
    | place order =>
      obtain ⟨h1, h2⟩ := ih c.last_order_index_ (c.add_order order).2
      have hle : c.last_order_index_ ≤ (c.add_order order).2.last_order_index_ := Nat.le_succ _
      refine ⟨Nat.le_trans hle h1, fun order' i hi => ?_⟩
      rcases List.mem_cons.mp hi with heq | hi
      · cases heq
        exact Nat.le_refl _
      · exact Nat.le_trans hle (h2 order' i hi)
    | cancel index =>
      obtain ⟨h1, h2⟩ := ih () (c.cancel index)
      refine ⟨h1, fun order' i hi => ?_⟩
      rcases List.mem_cons.mp hi with heq | hi
      · cases heq
      · exact h2 order' i hi
    | account =>
      obtain ⟨h1, h2⟩ := ih c.account_ c
      refine ⟨h1, fun order' i hi => ?_⟩
      rcases List.mem_cons.mp hi with heq | hi
      · cases heq
      · exact h2 order' i hi

/-- The bound that the traversal started with. -/
def bound (r : BacktestRun σ) : Option OrderIndex :=
  match r.pc with
  | .visit _ last _ => some last
  | .filled _ last _ => some last
  | .reported _ last _ => some last
  | _ => none

/-- The traversal tries orders in front of the bound, and the strategy places orders behind
it. -/
structure Apart (last : OrderIndex) (log : SweepLog) (r : BacktestRun σ) : Prop where
  given_out : last ≤ r.context.last_order_index_
  bounded : ∀ k, r.bound = some k → k = last
  tried_below : ∀ i ∈ tried log, i < last
  placed_above : ∀ caller i order, .placed caller i order ∈ log → last ≤ i

/-- A look at an order in front of the bound. -/
theorem Apart.look {last : OrderIndex} {log : SweepLog} {r : BacktestRun σ}
    (h : Apart last log r) {k : OrderIndex} (hlt : k < last) (b : Bool) {r' : BacktestRun σ}
    (hindex : r'.context.last_order_index_ = r.context.last_order_index_)
    (hbound : ∀ j, r'.bound = some j → j = last) : Apart last (log ++ [.tried k b]) r' := by
  refine ⟨hindex ▸ h.given_out, hbound, fun i hi => ?_, fun caller i order hi => ?_⟩
  · rw [tried_snoc] at hi
    rcases List.mem_append.mp hi with hi | hi
    · exact h.tried_below i hi
    · rw [List.mem_singleton.mp hi]
      exact hlt
  · rcases List.mem_append.mp hi with hi | hi
    · exact h.placed_above caller i order hi
    · cases List.mem_singleton.mp hi

/-- A step that neither looks at an order nor calls the strategy. -/
theorem Apart.still {last : OrderIndex} {log : SweepLog} {r r' : BacktestRun σ}
    (h : Apart last log r) (hindex : r'.context.last_order_index_ = r.context.last_order_index_)
    (hbound : ∀ j, r'.bound = some j → j = last) : Apart last log r' :=
  ⟨hindex ▸ h.given_out, hbound, h.tried_below, h.placed_above⟩

/-- The callback of a fill. -/
theorem Apart.report {last : OrderIndex} {log : SweepLog} {r : BacktestRun σ}
    (h : Apart last log r) (k : OrderIndex) (candle : Candle) :
    Apart last (log ++ .called k ::
        (trace BacktestBroker (S.on_order_filled k r.strategy) r.context).filterMap
          (callback_event k))
      (r.callback (S.on_order_filled k r.strategy) (.reported k last candle)) := by
  obtain ⟨hgrow, hnew⟩ := callback_places (S.on_order_filled k r.strategy) r.context
  refine ⟨?_, fun j hj => ?_, fun i hi => ?_, fun caller i order hi => ?_⟩
  · rw [callback_context]
    exact Nat.le_trans h.given_out hgrow
  · unfold bound at hj
    rcases callback_pc (S.on_order_filled k r.strategy) (.reported k last candle) r with
      hpc | ⟨fault, hpc⟩ <;> rw [hpc] at hj
    · exact (Option.some.inj hj).symm
    · cases hj
  · unfold tried at hi
    rw [List.filterMap_append, List.mem_append] at hi
    refine hi.elim (h.tried_below i) fun hi => ?_
    obtain ⟨event, hevent, htried_index⟩ := List.mem_filterMap.mp hi
    rcases List.mem_cons.mp hevent with rfl | hevent
    · cases htried_index
    · obtain ⟨⟨op, a⟩, _, hop⟩ := List.mem_filterMap.mp hevent
      cases op <;> cases hop <;> cases htried_index
  · refine (List.mem_append.mp hi).elim (h.placed_above caller i order) fun hi => ?_
    rcases List.mem_cons.mp hi with heq | hi
    · cases heq
    · obtain ⟨⟨op, a⟩, hmem, hop⟩ := List.mem_filterMap.mp hi
      cases op <;> cases hop
      exact Nat.le_trans h.given_out (hnew order i hmem)

theorem apart_step {last : OrderIndex} {log : SweepLog} {r r' : BacktestRun σ}
    (hstep : SweepStep S r () r') (h : Apart last log r) : Apart last (log ++ emitted S r ()) r' := by
  obtain ⟨hstep, hsweeping⟩ := hstep
  cases step_moves hstep with
  | start hpc hd =>
    rw [Sweeping, hpc] at hsweeping
    exact hsweeping.elim
  | finish hpc =>
    rw [emitted, hpc, List.append_nil]
    exact h.still rfl (by simp [bound])
  | bound hpc hle =>
    simp only [emitted, hpc, if_neg (Nat.not_lt.mpr hle), List.append_nil]
    exact h.still rfl (by simp [bound])
  | @pass k last' candle order hpc hlt hfind hexec =>
    have hlast : last' = last := h.bounded last' (by simp [bound, hpc])
    subst hlast
    rw [emitted_pass hpc hlt hfind hexec]
    exact h.look hlt false rfl (by simp [bound])
  | @trade k last' candle order hpc hlt hfind hexec =>
    have hlast : last' = last := h.bounded last' (by simp [bound, hpc])
    subst hlast
    rw [emitted_trade hpc hlt hfind hexec]
    exact h.look hlt true rfl (by simp [bound])
  | @lost k last' candle hpc hmem =>
    have hnone : emitted S r () = [] := by
      rcases hpc with ⟨hpc, _⟩ | hpc
      · simp [emitted, hpc, Map.find_eq_none.mpr hmem]
      · simp [emitted, hpc]
    rw [hnone, List.append_nil]
    exact h.still rfl (by simp [bound])
  | @report k last' candle hpc =>
    have hlast : last' = last := h.bounded last' (by simp [bound, hpc])
    subst hlast
    rw [emitted, hpc]
    exact h.report k candle
  | @forget k last' candle hpc hmem =>
    have hlast : last' = last := h.bounded last' (by simp [bound, hpc])
    subst hlast
    rw [emitted, hpc, List.append_nil]
    exact h.still rfl (by simp [bound])
  | update hpc =>
    rw [Sweeping, hpc] at hsweeping
    exact hsweeping.elim

/-- An order that is placed while a candle is processed is not tried on the candle, whatever the
strategy does. -/
theorem new_orders_wait {r r' : BacktestRun σ} {iterator : Option OrderIndex} {candle : Candle}
    {log : SweepLog} (hpc : r.pc = .visit iterator r.context.last_order_index_ candle)
    (h : Emits (SweepStep S) (emitted S) r log r') (caller i : OrderIndex) (order : OrderCall)
    (hplaced : .placed caller i order ∈ log) : i ∉ tried log := by
  have hapart := h.invariant (p := Apart r.context.last_order_index_) (l := [])
    (fun log r a r' hstep hr => apart_step hstep hr)
    ⟨Nat.le_refl _, by simp [bound, hpc], by simp [tried], by simp⟩
  intro htried
  exact absurd (hapart.tried_below i htried)
    (Nat.not_lt_of_le (hapart.placed_above caller i order hplaced))

end BacktestRun

/-! ## The strategy -/

/-- `fills` holds the orders that the strategy was called for, first call first. -/
structure PlaceOnFill where
  working : OrderIndex
  pending : Option OrderIndex := none
  fills : List OrderIndex := []
  deriving DecidableEq, Repr

/-- The strategy that places an order when its working order fills. -/
def place_on_fill (order : OrderCall) : IStrategy PlaceOnFill where
  update := fun _ s => .ret s
  on_order_filled := fun index s =>
    if index = s.working then do
      let pending ← programs.Prog.ask (BrokerCall.place order)
      return { s with pending := some pending, fills := s.fills ++ [index] }
    else return { s with fills := s.fills ++ [index] }

theorem run_on_working_filled {pending : OrderCall} {s : PlaceOnFill} {index : OrderIndex}
    (h : index = s.working) (c : BacktestContext) :
    run BacktestBroker ((place_on_fill pending).on_order_filled index s) c =
      (.ok { s with pending := some c.last_order_index_, fills := s.fills ++ [index] },
        (c.add_order pending).2) := by
  simp only [place_on_fill, h, if_true]
  rfl

theorem run_on_other_filled {pending : OrderCall} {s : PlaceOnFill} {index : OrderIndex}
    (h : index ≠ s.working) (c : BacktestContext) :
    run BacktestBroker ((place_on_fill pending).on_order_filled index s) c =
      (.ok { s with fills := s.fills ++ [index] }, c) := by
  simp only [place_on_fill, h, if_false]
  rfl

/-- The old engine with a working order that the strategy has just placed. -/
def with_working (order : OrderCall) (c : BacktestContext) (candles : List Candle) :
    BacktestRun PlaceOnFill where
  data_loader := candles
  context := (c.add_order order).2
  strategy := { working := (c.add_order order).1 }

/-- The candle that fills the working order is not tried on the pending order. -/
def PairStage.on_the_next_candle (working pending : Candle → Bool) (candle : Candle) :
    PairStage → PairStage
  | .placed => if working candle then .working_filled else .placed
  | .working_filled => if pending candle then .both_filled else .working_filled
  | .both_filled => .both_filled

/-- The open orders and the calls of the strategy at a stage of the pair. -/
def OnBooks (working pending : OrderCall) (orders : Map OrderIndex OrderCall) (s : PlaceOnFill) :
    PairStage → Prop
  | .placed => (s.working, working) ∈ orders ∧ s.working ∉ s.fills ∧ s.pending = none
  | .working_filled => s.working ∉ orders.keys ∧ s.working ∈ s.fills ∧
      ∃ q, s.pending = some q ∧ (q, pending) ∈ orders ∧ q ∉ s.fills
  | .both_filled => s.working ∉ orders.keys ∧ s.working ∈ s.fills ∧
      ∃ q, s.pending = some q ∧ q ∈ s.fills

/-- The order of the pair that is open at a stage. -/
def PlaceOnFill.awaited (s : PlaceOnFill) : PairStage → Option OrderIndex
  | .placed => some s.working
  | .working_filled => s.pending
  | .both_filled => none

/-- The map is sorted, and every index was given out. -/
structure Tidy (c : BacktestContext) (s : PlaceOnFill) : Prop where
  ascending : c.orders_.Ascending
  small : ∀ k ∈ c.orders_.keys, k < c.last_order_index_
  fills_small : ∀ k ∈ s.fills, k < c.last_order_index_
  working_small : s.working < c.last_order_index_

/-- A trade leaves the orders as they are. -/
theorem Tidy.same_orders {c : BacktestContext} {s : PlaceOnFill} (h : Tidy c s)
    {account : Account} : Tidy { c with account_ := account } s :=
  ⟨h.ascending, h.small, h.fills_small, h.working_small⟩

theorem Tidy.placed {c : BacktestContext} {s : PlaceOnFill} (h : Tidy c s) (order : OrderCall) :
    Tidy (c.add_order order).2 s := by
  have hfits : c.Fits 0 := ⟨Nat.zero_le _, h.small⟩
  exact ⟨h.ascending.emplace h.small order, (hfits.add_order order).small,
    fun k hk => Nat.lt_succ_of_lt (h.fills_small k hk), Nat.lt_succ_of_lt h.working_small⟩

theorem Tidy.called {c : BacktestContext} {s : PlaceOnFill} (h : Tidy c s)
    (pending : Option OrderIndex) {k : OrderIndex} (hk : k < c.last_order_index_) :
    Tidy c { s with pending := pending, fills := s.fills ++ [k] } := by
  refine ⟨h.ascending, h.small, fun i hi => ?_, h.working_small⟩
  rcases List.mem_append.mp hi with hi | hi
  · exact h.fills_small i hi
  · rw [List.mem_singleton.mp hi]
    exact hk

theorem Tidy.forget {c : BacktestContext} {s : PlaceOnFill} (h : Tidy c s) (k : OrderIndex) :
    Tidy (c.cancel k) s :=
  ⟨h.ascending.erase k, fun i hi => h.small i (Map.mem_keys_erase.mp hi).1, h.fills_small,
    h.working_small⟩

/-- The candle takes the pair to `target`: if the traversal still comes to the open order of the
pair, from the stage now, and else the pair is there. -/
def Due (working pending : OrderCall) (candle : Candle) (target : PairStage)
    (ahead : OrderIndex → Prop) (orders : Map OrderIndex OrderCall) (s : PlaceOnFill) : Prop :=
  ∃ stage, OnBooks working pending orders s stage ∧
    ((∀ k, s.awaited stage = some k → ahead k →
        stage.on_the_next_candle working.meets pending.meets candle = target) ∧
      ((∀ k, s.awaited stage = some k → ¬ ahead k) → stage = target))

section due

variable {working pending : OrderCall} {candle : Candle} {target : PairStage}
  {ahead ahead' : OrderIndex → Prop} {orders orders' : Map OrderIndex OrderCall} {s : PlaceOnFill}

/-- The open order of the pair. -/
theorem OnBooks.awaited_entry {stage : PairStage} {k : OrderIndex} {order : OrderCall}
    (h : OnBooks working pending orders s stage) (hk : s.awaited stage = some k)
    (ho : (k, order) ∈ orders) :
    (stage = .placed ∧ k = s.working ∧ order = working) ∨
      (stage = .working_filled ∧ k ≠ s.working ∧ order = pending) := by
  cases stage with
  | placed =>
    cases hk
    exact Or.inl ⟨rfl, rfl, Map.entry_unique ho h.1⟩
  | working_filled =>
    obtain ⟨hgone, _, q, hq, hentry, _⟩ := h
    cases hq.symm.trans hk
    refine Or.inr ⟨rfl, ?_, Map.entry_unique ho hentry⟩
    rintro rfl
    exact hgone (Map.mem_keys.mpr ⟨_, ho⟩)
  | both_filled => cases hk

theorem OnBooks.awaited_mem {stage : PairStage} {k : OrderIndex}
    (h : OnBooks working pending orders s stage) (hk : s.awaited stage = some k) :
    k ∈ orders.keys := by
  cases stage with
  | placed =>
    cases hk
    exact Map.mem_keys.mpr ⟨_, h.1⟩
  | working_filled =>
    obtain ⟨_, _, q, hq, hentry, _⟩ := h
    cases hq.symm.trans hk
    exact Map.mem_keys.mpr ⟨_, hentry⟩
  | both_filled => cases hk

/-- Only the open order of the pair matters. -/
theorem Due.move (h : Due working pending candle target ahead orders s)
    (hsame : ∀ k ∈ orders.keys, ahead k ↔ ahead' k) :
    Due working pending candle target ahead' orders s := by
  obtain ⟨stage, hbooks, hahead, hdone⟩ := h
  refine ⟨stage, hbooks, fun k hk ha => ?_, fun hno => hdone fun k hk ha => ?_⟩
  · exact hahead k hk ((hsame k (hbooks.awaited_mem hk)).mpr ha)
  · exact hno k hk ((hsame k (hbooks.awaited_mem hk)).mp ha)

theorem Due.at_iterator {i last : OrderIndex}
    (h : Due working pending candle target (fun k => ∃ j, some i = some j ∧ j ≤ k ∧ k < last)
      orders s) :
    Due working pending candle target (fun k => i ≤ k ∧ k < last) orders s := by
  refine h.move fun k _ => ⟨?_, fun hk => ⟨i, rfl, hk⟩⟩
  rintro ⟨j, hj, hk⟩
  cases hj
  exact hk

/-- The traversal has come to its end. -/
theorem Due.finish (h : Due working pending candle target ahead orders s)
    (hno : ∀ k ∈ orders.keys, ¬ ahead k) : OnBooks working pending orders s target := by
  obtain ⟨stage, hbooks, _, hdone⟩ := h
  rw [← hdone fun k hk => hno k (hbooks.awaited_mem hk)]
  exact hbooks

/-- The start of a traversal: the open order of the pair is ahead. -/
theorem OnBooks.due {stage : PairStage} (h : OnBooks working pending orders s stage)
    (hall : ∀ k ∈ orders.keys, ahead k) :
    Due working pending candle (stage.on_the_next_candle working.meets pending.meets candle) ahead
      orders s := by
  refine ⟨stage, h, fun _ _ _ => rfl, fun hno => ?_⟩
  cases stage with
  | placed => exact absurd (hall _ (h.awaited_mem rfl)) (hno _ rfl)
  | working_filled =>
    obtain ⟨q, hq, _⟩ := h.2.2
    exact absurd (hall _ (h.awaited_mem hq)) (hno _ hq)
  | both_filled => rfl

theorem behind_iff {j k last : OrderIndex} (hne : k ≠ j) :
    (j ≤ k ∧ k < last) ↔ (j < k ∧ k < last) :=
  ⟨fun h => ⟨Nat.lt_of_le_of_ne h.1 hne.symm, h.2⟩, fun h => ⟨Nat.le_of_lt h.1, h.2⟩⟩

/-- The traversal passes an order that the candle does not meet. -/
theorem Due.pass {j : OrderIndex} {order : OrderCall} {last : OrderIndex} (hlt : j < last)
    (h : Due working pending candle target (fun k => j ≤ k ∧ k < last) orders s)
    (ho : (j, order) ∈ orders) (hm : order.meets candle = false) :
    Due working pending candle target (fun k => j < k ∧ k < last) orders s := by
  obtain ⟨stage, hbooks, hahead, hdone⟩ := h
  refine ⟨stage, hbooks, fun k hk ha => hahead k hk ⟨Nat.le_of_lt ha.1, ha.2⟩, fun hno => ?_⟩
  by_cases hj : s.awaited stage = some j
  · -- The order is the open one of the pair, and the candle leaves the stage as it is.
    rw [← hahead j hj ⟨Nat.le_refl j, hlt⟩]
    rcases hbooks.awaited_entry hj ho with ⟨rfl, _, rfl⟩ | ⟨rfl, _, rfl⟩ <;>
      simp [PairStage.on_the_next_candle, hm]
  · refine hdone fun k hk ha => hno k hk ((behind_iff fun heq => hj ?_).mp ha)
    rw [← heq]
    exact hk

/-- The callback for the working order places the pending one, behind the bound. -/
theorem Due.call_working {c : BacktestContext} {last : OrderIndex}
    (hs : Tidy c s) (hlast : last ≤ c.last_order_index_)
    (h : Due working pending candle target (fun k => s.working ≤ k ∧ k < last) c.orders_ s)
    {order : OrderCall} (ho : (s.working, order) ∈ c.orders_) (hm : order.meets candle = true)
    (hlt : s.working < last) :
    Due working pending candle target (fun k => s.working < k ∧ k < last)
      ((c.add_order pending).2.orders_.erase s.working)
      { s with pending := some c.last_order_index_, fills := s.fills ++ [s.working] } := by
  obtain ⟨stage, hbooks, hahead, _⟩ := h
  have hfits : c.Fits 0 := ⟨Nat.zero_le _, hs.small⟩
  cases stage with
  | placed =>
    have htarget := hahead _ rfl ⟨Nat.le_refl _, hlt⟩
    have hworking : order = working := Map.entry_unique ho hbooks.1
    subst hworking
    have hnew : c.last_order_index_ ≠ s.working := Nat.ne_of_gt hs.working_small
    have hnot : c.last_order_index_ ∉ s.fills := fun hmem =>
      Nat.lt_irrefl _ (hs.fills_small _ hmem)
    refine ⟨.working_filled, ⟨?_, by simp, c.last_order_index_, rfl, ?_, ?_⟩, ?_, fun _ => ?_⟩
    · exact fun hk => (Map.mem_keys_erase.mp hk).2 rfl
    · exact Map.mem_erase.mpr ⟨(sorted.mem_emplace hfits.new).mpr (Or.inl rfl), hnew⟩
    · simp [hnot, hnew]
    · intro k hk ha
      cases hk
      exact absurd hlast (Nat.not_le_of_lt ha.2)
    · rw [← htarget]
      simp [PairStage.on_the_next_candle, hm]
  | working_filled => exact absurd (Map.mem_keys.mpr ⟨_, ho⟩) hbooks.1
  | both_filled => exact absurd (Map.mem_keys.mpr ⟨_, ho⟩) hbooks.1

/-- The callback for another order, which may be the pending one. -/
theorem Due.call_other {j last : OrderIndex} (hj : j ≠ s.working)
    (h : Due working pending candle target (fun k => j ≤ k ∧ k < last) orders s)
    {order : OrderCall} (ho : (j, order) ∈ orders) (hm : order.meets candle = true) (hlt : j < last) :
    Due working pending candle target (fun k => j < k ∧ k < last) (orders.erase j)
      { s with fills := s.fills ++ [j] } := by
  obtain ⟨stage, hbooks, hahead, hdone⟩ := h
  have hafter : ∀ k, k ∈ (orders.erase j).keys → k ∈ orders.keys := fun k hk =>
    (Map.mem_keys_erase.mp hk).1
  -- The pair does not notice an order that is not its open one.
  have hother : s.awaited stage ≠ some j →
      OnBooks working pending (orders.erase j) { s with fills := s.fills ++ [j] } stage →
      Due working pending candle target (fun k => j < k ∧ k < last) (orders.erase j)
        { s with fills := s.fills ++ [j] } := by
    intro hne hbooks'
    refine ⟨stage, hbooks', fun k hk ha => ?_, fun hno => hdone fun k hk ha => ?_⟩
    · exact hahead k (by cases stage <;> exact hk) ⟨Nat.le_of_lt ha.1, ha.2⟩
    · refine hno k (by cases stage <;> exact hk) ((behind_iff fun heq => hne ?_).mp ha)
      rw [← heq]
      exact hk
  cases stage with
  | placed =>
    obtain ⟨hentry, hnot, hpending⟩ := hbooks
    refine hother (fun heq => hj (Option.some.inj heq).symm) ⟨?_, ?_, hpending⟩
    · exact Map.mem_erase.mpr ⟨hentry, hj.symm⟩
    · simp [hnot, hj.symm]
  | working_filled =>
    obtain ⟨hgone, hcalled, q, hq, hentry, hnot⟩ := hbooks
    by_cases hqj : q = j
    · subst hqj
      have htarget := hahead q hq ⟨Nat.le_refl _, hlt⟩
      have hpending : order = pending := Map.entry_unique ho hentry
      subst hpending
      refine ⟨.both_filled, ⟨mt (hafter _) hgone, by simp [hcalled], q, hq, by simp⟩,
        fun k hk => (by cases hk), fun _ => ?_⟩
      rw [← htarget]
      simp [PairStage.on_the_next_candle, hm]
    · refine hother (fun heq => hqj (Option.some.inj (hq.symm.trans heq))) ⟨mt (hafter _) hgone,
        by simp [hcalled], q, hq, Map.mem_erase.mpr ⟨hentry, hqj⟩, by simp [hnot, hqj]⟩
  | both_filled =>
    obtain ⟨hgone, hcalled, q, hq, hmem⟩ := hbooks
    exact hother (fun heq => by cases heq) ⟨mt (hafter _) hgone, by simp [hcalled], q, hq,
      by simp [hmem]⟩

end due

/-! ## The runs -/

namespace BacktestRun

/-- The stage of the pair after the first `n` candles, in the old engine. -/
def stage_after (working pending : OrderCall) (candles : List Candle) : PairStage :=
  candles.foldl (fun stage candle => stage.on_the_next_candle working.meets pending.meets candle)
    .placed

/-- What holds at each place of a run over the candles. Those that are done, or under way, are
the first ones. -/
def Follows (working pending : OrderCall) (candles : List Candle) (r : BacktestRun PlaceOnFill) :
    Prop :=
  ∃ done, candles = done ++ r.data_loader ∧ Tidy r.context r.strategy ∧
    match r.pc with
    | .next => OnBooks working pending r.context.orders_ r.strategy
        (stage_after working pending done)
    | .visit iterator last candle => last ≤ r.context.last_order_index_ ∧
        (∀ k, iterator = some k → k ∈ r.context.orders_.keys) ∧
        Due working pending candle (stage_after working pending done)
          (fun k => ∃ i, iterator = some i ∧ i ≤ k ∧ k < last) r.context.orders_ r.strategy
    | .filled j last candle => last ≤ r.context.last_order_index_ ∧ j < last ∧
        (∃ order, (j, order) ∈ r.context.orders_ ∧ order.meets candle = true) ∧
        Due working pending candle (stage_after working pending done)
          (fun k => j ≤ k ∧ k < last) r.context.orders_ r.strategy
    | .reported j last candle => last ≤ r.context.last_order_index_ ∧
        j ∈ r.context.orders_.keys ∧
        Due working pending candle (stage_after working pending done)
          (fun k => j < k ∧ k < last) (r.context.orders_.erase j) r.strategy
    | .swept _ => OnBooks working pending r.context.orders_ r.strategy
        (stage_after working pending done)
    | .crashed _ => False

/-- The iterator behind `j` comes to the orders behind `j`. -/
theorem next_comes_to {m : Map OrderIndex OrderCall} (hm : m.Ascending) {j last : OrderIndex}
    (hj : j ∈ m.keys) {k : OrderIndex} (hk : k ∈ m.keys) :
    (j < k ∧ k < last) ↔ ∃ i, m.next j = some i ∧ i ≤ k ∧ k < last := by
  constructor
  · rintro ⟨hjk, hlt⟩
    rcases hn : m.next j with _ | i
    · exact absurd hjk (Nat.not_lt_of_le (hm.next_none hj hn k hk))
    · exact ⟨i, rfl, (hm.next_le hj hn).2 k hk hjk, hlt⟩
  · rintro ⟨i, hn, hle, hlt⟩
    exact ⟨Nat.lt_of_lt_of_le (hm.next_le hj hn).1 hle, hlt⟩

theorem follows_step {working pending : OrderCall} {candles : List Candle}
    {r r' : BacktestRun PlaceOnFill} (hstep : r.step (place_on_fill pending) = some r')
    (hfunds : r.NeverRefuses (place_on_fill pending) ()) (h : Follows working pending candles r) :
    Follows working pending candles r' := by
  obtain ⟨done, hdone, htidy, h⟩ := h
  unfold Follows
  cases step_moves hstep with
  | @start candle rest hpc hd =>
    rw [hpc] at h
    refine ⟨done ++ [candle], by simp [hdone, hd], htidy, Nat.le_refl _,
      fun k hk => Map.first_mem hk, ?_⟩
    rw [stage_after, List.foldl_append]
    apply h.due
    intro k hk
    rcases hf : r.context.orders_.first with _ | i
    · rw [List.head?_eq_none_iff.mp hf] at hk
      cases hk
    · exact ⟨i, rfl, htidy.ascending.first_le hf k hk, htidy.small k hk⟩
  | finish hpc =>
    rw [hpc] at h
    refine ⟨done, hdone, htidy, h.2.2.finish ?_⟩
    rintro k _ ⟨i, hi, _⟩
    cases hi
  | bound hpc hle =>
    rw [hpc] at h
    refine ⟨done, hdone, htidy, h.2.2.finish ?_⟩
    rintro i _ ⟨j, hj, hi⟩
    cases hj
    exact Nat.not_lt_of_le hle (Nat.lt_of_le_of_lt hi.1 hi.2)
  | @pass k last candle order hpc hlt hfind hexec =>
    -- The account can pay, so the candle does not reach the order.
    have hm := hfunds.not_met hpc hlt hfind hexec
    rw [hpc] at h
    obtain ⟨hle, hiterator, hdue⟩ := h
    have hk := hiterator k rfl
    refine ⟨done, hdone, htidy, hle, fun j hj => (Map.next_mem hj).1, ?_⟩
    exact (hdue.at_iterator.pass hlt (Map.mem_of_find hfind) hm).move fun i hi =>
      next_comes_to htidy.ascending hk hi
  | trade hpc hlt hfind hexec =>
    rw [hpc] at h
    obtain ⟨hle, _, hdue⟩ := h
    exact ⟨done, hdone, htidy.same_orders, hle, hlt, ⟨_, Map.mem_of_find hfind, hexec.1⟩,
      hdue.at_iterator⟩
  | lost hpc hmem =>
    rcases hpc with ⟨hpc, _⟩ | hpc <;> rw [hpc] at h
    · exact absurd (h.2.1 _ rfl) hmem
    · exact absurd h.2.1 hmem
  | @report k last candle hpc =>
    rw [hpc] at h
    obtain ⟨hle, hlt, ⟨order, ho, hm⟩, hdue⟩ := h
    have hkeys : k ∈ r.context.orders_.keys := Map.mem_keys.mpr ⟨_, ho⟩
    have hfits : r.context.Fits 0 := ⟨Nat.zero_le _, htidy.small⟩
    by_cases hk : k = r.strategy.working
    · rw [callback_ok (run_on_working_filled hk r.context)]
      refine ⟨done, hdone, (htidy.placed pending).called _ (Nat.lt_succ_of_lt (htidy.small k hkeys)),
        Nat.le_succ_of_le hle, (sorted.mem_keys_emplace hfits.new).mpr (Or.inr hkeys), ?_⟩
      subst hk
      exact Due.call_working htidy hle hdue ho hm hlt
    · rw [callback_ok (run_on_other_filled hk r.context)]
      exact ⟨done, hdone, htidy.called _ (htidy.small k hkeys), hle, hkeys,
        Due.call_other hk hdue ho hm hlt⟩
  | @forget k last candle hpc hk =>
    rw [hpc] at h
    obtain ⟨hle, _, hdue⟩ := h
    refine ⟨done, hdone, htidy.forget k, hle,
      fun j hj => Map.mem_keys_erase.mpr (Map.next_mem hj), ?_⟩
    exact hdue.move fun i hi => next_comes_to htidy.ascending hk (Map.mem_keys_erase.mp hi).1
  | update hpc =>
    rw [hpc] at h
    have hrun : ∀ candle, run BacktestBroker ((place_on_fill pending).update candle r.strategy)
        r.context = (.ok r.strategy, r.context) := fun _ => rfl
    rw [callback_ok (hrun _)]
    exact ⟨done, hdone, htidy, h⟩

theorem follows_start (working pending : OrderCall) {c : BacktestContext}
    (hmap : c.orders_.Ascending) (hsmall : ∀ k ∈ c.orders_.keys, k < c.last_order_index_)
    (candles : List Candle) :
    Follows working pending candles (with_working working c candles) := by
  have hfits : c.Fits 0 := ⟨Nat.zero_le _, hsmall⟩
  refine ⟨[], rfl, ⟨hmap.emplace hsmall working, (hfits.add_order working).small,
    by simp [with_working], Nat.lt_succ_self _⟩, (sorted.mem_emplace hfits.new).mpr (Or.inl rfl),
    by simp [with_working], rfl⟩

theorem follows_run {working pending : OrderCall} {candles : List Candle}
    {r r' : BacktestRun PlaceOnFill} {n : List Unit}
    (hfunds : ∀ n u, Run (Step (place_on_fill pending)) r n u →
      u.NeverRefuses (place_on_fill pending) ())
    (h : Follows working pending candles r) (hrun : Run (Step (place_on_fill pending)) r n r') :
    Follows working pending candles r' := by
  refine (hrun.invariant (p := fun u => (∃ n, Run (Step (place_on_fill pending)) r n u) ∧
    Follows working pending candles u) ?_ ⟨⟨_, .nil r⟩, h⟩).2
  rintro u a u' hstep ⟨⟨n, hn⟩, hu⟩
  exact ⟨⟨_, hn.snoc hstep⟩, follows_step hstep (hfunds n u hn) hu⟩

/-- The strategy never cancels. -/
theorem place_on_fill_spares (pending : OrderCall) (r : BacktestRun PlaceOnFill) :
    r.Spares (place_on_fill pending) := by
  unfold Spares
  rcases r.pc with _ | _ | ⟨k, _, _⟩ | _ | _ | _ <;> try trivial
  by_cases hk : k = r.strategy.working
  · simp only [place_on_fill, hk, if_true]
    exact ⟨⟨by simp, fun _ _ _ => trivial⟩, _, _, rfl⟩
  · simp only [place_on_fill, hk, if_false]
    exact ⟨trivial, _, _, rfl⟩

theorem sweep_data_loader {σ : Type} {S : IStrategy σ} {r r' : BacktestRun σ} {n : List Unit}
    (h : Run (SweepStep S) r n r') : r'.data_loader = r.data_loader := by
  refine h.invariant (p := fun u => u.data_loader = r.data_loader) ?_ rfl
  rintro u a u' ⟨hstep, hsweeping⟩ hu
  rw [← hu]
  cases step_moves hstep with
  | start hpc hd =>
    rw [Sweeping, hpc] at hsweeping
    exact hsweeping.elim
  | finish hpc => rfl
  | bound hpc hle => rfl
  | pass hpc hlt hfind hexec => rfl
  | trade hpc hlt hfind hexec => rfl
  | lost hpc hmem => rfl
  | report hpc => exact callback_data_loader _ _ _
  | forget hpc hmem => rfl
  | update hpc => exact callback_data_loader _ _ _

/-- The run goes on over the next candle. -/
theorem next_candle {working pending : OrderCall} {candles : List Candle}
    {r : BacktestRun PlaceOnFill} {candle : Candle} {rest : List Candle}
    (h : Follows working pending candles r) (hpc : r.pc = .next)
    (hd : r.data_loader = candle :: rest) :
    ∃ n r', Run (Step (place_on_fill pending)) r n r' ∧ r'.pc = .next ∧ r'.data_loader = rest := by
  obtain ⟨_, _, htidy, _⟩ := h
  have hfirst : Step (place_on_fill pending) r () _ := (Move.start hpc hd).step
  obtain ⟨log, t, hemits, hswept, _⟩ := traversal_ends (place_on_fill pending) { r with
      pc := .visit r.context.orders_.first r.context.last_order_index_ candle
      data_loader := rest
      fills := 0 } candle rfl htidy.ascending htidy.small
    fun _ u _ => place_on_fill_spares pending u
  obtain ⟨n, hsweep⟩ := hemits.run
  have hlast : Step (place_on_fill pending) t () _ := (Move.update hswept).step
  rw [callback_ok (show run BacktestBroker ((place_on_fill pending).update candle t.strategy)
    t.context = (.ok t.strategy, t.context) from rfl)] at hlast
  exact ⟨_, _, .cons hfirst (hsweep.forget.snoc hlast), rfl, sweep_data_loader hsweep⟩

/-- The run comes to the end of each candle. -/
theorem comes_to {working pending : OrderCall} {candles : List Candle}
    {r : BacktestRun PlaceOnFill}
    (hfunds : ∀ n u, Run (Step (place_on_fill pending)) r n u →
      u.NeverRefuses (place_on_fill pending) ())
    (h : Follows working pending candles r) (hpc : r.pc = .next) (hd : r.data_loader = candles)
    {i : ℕ} (hi : i ≤ candles.length) :
    ∃ n r', Run (Step (place_on_fill pending)) r n r' ∧ r'.pc = .next ∧
      r'.data_loader = candles.drop i := by
  induction i with
  | zero => exact ⟨[], r, .nil r, hpc, hd⟩
  | succ i ih =>
    obtain ⟨n, t, hrun, htpc, htd⟩ := ih (Nat.le_of_succ_le hi)
    rw [List.drop_eq_getElem_cons hi] at htd
    obtain ⟨m, r', hrun', hpc', hd'⟩ := next_candle (follows_run hfunds h hrun) htpc htd
    exact ⟨_, r', hrun.append hrun', hpc', hd'⟩

end BacktestRun

theorem OnBooks.filled {working pending : OrderCall} {orders : Map OrderIndex OrderCall}
    {s : PlaceOnFill} {stage : PairStage} (h : OnBooks working pending orders s stage) :
    (s.working ∈ s.fills ↔ stage ≠ .placed) ∧
      ((∃ q, s.pending = some q ∧ q ∈ s.fills) ↔ stage = .both_filled) := by
  cases stage with
  | placed => simp [h.2.1, h.2.2]
  | working_filled =>
    obtain ⟨_, hcalled, q, hq, _, hnot⟩ := h
    simp [hcalled, hq, hnot]
  | both_filled => simp [h.2.1, h.2.2]

/-! ## The two ways to try the pending order -/

section stages

variable {working pending : Candle → Bool}

/-- Once the working order is filled, both ways are the same. -/
theorem stages_agree_after {stage : PairStage} (h : stage ≠ .placed) (candles : List Candle) :
    candles.foldl (fun stage candle => stage.on_the_same_candle working pending candle) stage =
      candles.foldl (fun stage candle => stage.on_the_next_candle working pending candle) stage := by
  induction candles generalizing stage with
  | nil => rfl
  | cons candle candles ih =>
    cases stage with
    | placed => exact absurd rfl h
    | working_filled =>
      cases hp : pending candle <;>
        simpa [PairStage.on_the_same_candle, PairStage.on_the_next_candle, hp] using ih (by simp)
    | both_filled => exact ih h

theorem stages_agree {candles : List Candle}
    (h : ∀ candle, candles.find? working = some candle → pending candle = false) :
    candles.foldl (fun (stage : PairStage) candle => stage.on_the_same_candle working pending candle)
        PairStage.placed =
      candles.foldl
        (fun (stage : PairStage) candle => stage.on_the_next_candle working pending candle)
        PairStage.placed := by
  induction candles with
  | nil => rfl
  | cons candle candles ih =>
    rw [List.foldl_cons, List.foldl_cons]
    cases hw : working candle with
    | false =>
      simp only [PairStage.on_the_same_candle, PairStage.on_the_next_candle, hw,
        Bool.false_eq_true, if_false]
      exact ih fun c hc => h c (by rw [List.find?_cons_of_neg (by simp [hw]), hc])
    | true =>
      have hp := h candle (List.find?_cons_of_pos hw)
      simp only [PairStage.on_the_same_candle, PairStage.on_the_next_candle, hw, hp,
        Bool.false_eq_true, if_true, if_false]
      exact stages_agree_after (by simp) candles

/-- Before the working order fills, the pair stays as it was placed. -/
theorem stages_before (pending : Candle → Bool) {candles : List Candle}
    (h : ∀ candle ∈ candles, working candle = false) :
    candles.foldl (fun (stage : PairStage) candle => stage.on_the_same_candle working pending candle)
        PairStage.placed = .placed ∧
      candles.foldl
        (fun (stage : PairStage) candle => stage.on_the_next_candle working pending candle)
        PairStage.placed = .placed := by
  induction candles with
  | nil => exact ⟨rfl, rfl⟩
  | cons candle candles ih =>
    rw [List.foldl_cons, List.foldl_cons]
    have hw := h candle List.mem_cons_self
    simp only [PairStage.on_the_same_candle, PairStage.on_the_next_candle, hw, Bool.false_eq_true,
      if_false]
    exact ih fun c hc => h c (List.mem_cons_of_mem _ hc)

/-- The two ways agree candle by candle if and only if the candle that fills the working order
does not meet the pending one. -/
theorem stages_agree_iff (candles : List Candle) :
    (∀ i ≤ candles.length,
      (candles.take i).foldl
          (fun (stage : PairStage) candle => stage.on_the_same_candle working pending candle)
          PairStage.placed =
        (candles.take i).foldl
          (fun (stage : PairStage) candle => stage.on_the_next_candle working pending candle)
          PairStage.placed) ↔
      ∀ candle, candles.find? working = some candle → pending candle = false := by
  constructor
  · intro h candle hfind
    obtain ⟨hw, pre, post, rfl, hpre⟩ := List.find?_eq_some_iff_append.mp hfind
    have hmiss : ∀ c ∈ pre, working c = false := fun c hc => by simpa using hpre c hc
    obtain ⟨h1, h2⟩ := stages_before pending hmiss
    have hat := h (pre.length + 1) (by simp)
    rw [List.take_append, List.take_of_length_le (Nat.le_succ _), Nat.add_sub_cancel_left,
      List.take_succ_cons, List.take_zero, List.foldl_append, List.foldl_append, h1, h2] at hat
    simp only [List.foldl_cons, List.foldl_nil, PairStage.on_the_same_candle,
      PairStage.on_the_next_candle, hw, if_true] at hat
    cases hp : pending candle with
    | false => rfl
    | true =>
      rw [hp] at hat
      cases hat
  · intro h i _
    refine stages_agree fun candle hfind => h candle ?_
    exact (List.take_prefix i candles).find?_eq_some hfind

end stages

/-! ## Side by side -/

/-- After the first `i` candles, the new engine has filled the orders of the list that was placed
in `s` just as the old engine has filled the working order placed in `c` and the pending one of
its strategy. -/
def FilledAlike (s : BacktestEngine) (c : BacktestContext) (working pending : OrderCall)
    (candles : List Candle) (i : ℕ) : Prop :=
  ∃ s' n r,
    BacktestEngine.Run
      (s.execute (.NewOrderList (.NewOtoOrderList working.new_order pending.new_order)))
      ((candles.take i).map .candle) s' ∧
    Run (BacktestRun.Step (place_on_fill pending)) (with_working working c candles) n r ∧
    r.pc = .next ∧ r.data_loader = candles.drop i ∧
    (s.orders_.length ∈ s'.fired ↔ r.strategy.working ∈ r.strategy.fills) ∧
    (s.orders_.length + 1 ∈ s'.fired ↔ ∃ q, r.strategy.pending = some q ∧ q ∈ r.strategy.fills)

/-- The fills of the list in the new engine after some candles. -/
theorem oto_filled {s s' : BacktestEngine} {working pending : OrderCall} {candles : List Candle}
    (hs : BacktestEngine.Sound s)
    (hrun : BacktestEngine.Run
      (s.execute (.NewOrderList (.NewOtoOrderList working.new_order pending.new_order)))
      (candles.map .candle) s') :
    (s.orders_.length ∈ s'.fired ↔ candles.foldl (fun (stage : PairStage) candle =>
        stage.on_the_same_candle working.meets pending.meets candle) PairStage.placed ≠ .placed) ∧
      (s.orders_.length + 1 ∈ s'.fired ↔ candles.foldl (fun (stage : PairStage) candle =>
        stage.on_the_same_candle working.meets pending.meets candle) PairStage.placed =
          .both_filled) := by
  have hs' := BacktestEngine.sound_execute
    (.NewOrderList (.NewOtoOrderList working.new_order pending.new_order)) hs
  obtain ⟨hpair, hplaced⟩ := BacktestEngine.new_pair working.new_order pending.new_order hs
  have hmeets : ∀ order : OrderCall, (fun candle => order.meets candle) =
      (BacktestEngine.make_order .kNew order.new_order).meets := fun order =>
    funext fun candle => (OrderCall.order_base_meets .kNew order candle).symm
  rw [hmeets, hmeets]
  exact (BacktestEngine.stage_run hs' hpair hplaced hrun).fired (BacktestEngine.sound_run hrun hs')

/-- The calls of the strategy after the first `i` candles. -/
theorem BacktestRun.Follows.filled {working pending : OrderCall} {candles : List Candle}
    {r : BacktestRun PlaceOnFill} (h : BacktestRun.Follows working pending candles r) {i : ℕ}
    (hpc : r.pc = .next) (hd : r.data_loader = candles.drop i) :
    (r.strategy.working ∈ r.strategy.fills ↔
        (candles.take i).foldl (fun (stage : PairStage) candle =>
          stage.on_the_next_candle working.meets pending.meets candle) PairStage.placed ≠ .placed) ∧
      ((∃ q, r.strategy.pending = some q ∧ q ∈ r.strategy.fills) ↔
        (candles.take i).foldl (fun (stage : PairStage) candle =>
          stage.on_the_next_candle working.meets pending.meets candle) PairStage.placed =
            .both_filled) := by
  obtain ⟨done, hdone, _, hbooks⟩ := h
  rw [hpc] at hbooks
  have htake : done = candles.take i := by
    have := hdone.symm.trans (List.take_append_drop i candles).symm
    rw [hd] at this
    exact List.append_cancel_right this
  rw [← htake]
  exact OnBooks.filled hbooks

/-- Two stages with the same fills are the same. -/
theorem PairStage.eq_of_filled {stage stage' : PairStage}
    (h1 : stage ≠ .placed ↔ stage' ≠ .placed)
    (h2 : stage = .both_filled ↔ stage' = .both_filled) : stage = stage' := by
  cases stage <;> cases stage' <;> simp at h1 h2 ⊢

theorem filledAlike_iff {base quote : ℚ} {acts : List BacktestEngine.Action} {s : BacktestEngine}
    (hs : BacktestEngine.Run (BacktestEngine.init base quote) acts s) (working pending : OrderCall)
    {c : BacktestContext} (hmap : c.orders_.Ascending)
    (hsmall : ∀ k ∈ c.orders_.keys, k < c.last_order_index_) (candles : List Candle)
    (hfunds : ∀ n r, Run (BacktestRun.Step (place_on_fill pending)) (with_working working c candles)
      n r → r.NeverRefuses (place_on_fill pending) ())
    {i : ℕ} (hi : i ≤ candles.length) :
    FilledAlike s c working pending candles i ↔
      (candles.take i).foldl (fun (stage : PairStage) candle =>
          stage.on_the_same_candle working.meets pending.meets candle) PairStage.placed =
        (candles.take i).foldl (fun (stage : PairStage) candle =>
          stage.on_the_next_candle working.meets pending.meets candle) PairStage.placed := by
  have hsound := BacktestEngine.sound_of_run hs
  have hsound' := BacktestEngine.sound_execute
    (.NewOrderList (.NewOtoOrderList working.new_order pending.new_order)) hsound
  have hfollows := BacktestRun.follows_start working pending hmap hsmall candles
  constructor
  · rintro ⟨s', n, r, hrun, hrun', hpc, hd, hworking, hpending⟩
    obtain ⟨h1, h2⟩ := oto_filled hsound hrun
    obtain ⟨h3, h4⟩ := (BacktestRun.follows_run hfunds hfollows hrun').filled hpc hd
    exact PairStage.eq_of_filled (h1.symm.trans (hworking.trans h3))
      (h2.symm.trans (hpending.trans h4))
  · intro heq
    obtain ⟨s', hrun⟩ := BacktestEngine.candles_run (candles.take i) hsound'
    obtain ⟨n, r, hrun', hpc, hd⟩ := BacktestRun.comes_to hfunds hfollows rfl rfl hi
    obtain ⟨h1, h2⟩ := oto_filled hsound hrun
    obtain ⟨h3, h4⟩ := (BacktestRun.follows_run hfunds hfollows hrun').filled hpc hd
    rw [heq] at h1 h2
    exact ⟨s', n, r, hrun, hrun', hpc, hd, h1.trans h3.symm, h2.trans h4.symm⟩

/-- An OTO list fills its two orders on the candles on which the old engine fills them, with a
strategy that places the pending order when the working one fills, if and only if the first
candle that meets the working order does not meet the pending one. An order that is placed
while the old engine processes a candle is never tried on that candle. -/
theorem an_oto_list_is_place_on_fill_iff_no_candle_meets_both (base quote : ℚ)
    (acts : List BacktestEngine.Action) (s : BacktestEngine)
    (hs : BacktestEngine.Run (BacktestEngine.init base quote) acts s) (working pending : OrderCall)
    (c : BacktestContext) (hmap : c.orders_.Ascending)
    (hsmall : ∀ k ∈ c.orders_.keys, k < c.last_order_index_) (candles : List Candle)
    (hfunds : ∀ n r, Run (BacktestRun.Step (place_on_fill pending)) (with_working working c candles)
      n r → r.NeverRefuses (place_on_fill pending) ()) :
    ((∀ i ≤ candles.length, FilledAlike s c working pending candles i) ↔
      ∀ candle, candles.find? working.meets = some candle → pending.meets candle = false) ∧
    ∀ (σ : Type) (S : IStrategy σ) (r r' : BacktestRun σ) (iterator : Option OrderIndex)
      (candle : Candle) (log : SweepLog),
      r.pc = .visit iterator r.context.last_order_index_ candle →
      Emits (BacktestRun.SweepStep S) (BacktestRun.emitted S) r log r' →
      ∀ caller i order, .placed caller i order ∈ log → i ∉ tried log := by
  refine ⟨?_, fun σ S r r' iterator candle log hpc hlog caller i order =>
    BacktestRun.new_orders_wait hpc hlog caller i order⟩
  rw [← stages_agree_iff]
  exact forall_congr' fun i => imp_congr_right fun hi =>
    filledAlike_iff hs working pending hmap hsmall candles hfunds hi

/-- An account without fees and with enough of everything for one coin. -/
def rich_context : BacktestContext := { account_ := { balance := 1000, position := 1 } }

/-- Enough funds along a run can be computed. -/
theorem funds_everywhere {σ : Type} {S : IStrategy σ} (fuel : ℕ) {r : BacktestRun σ}
    (h : everywhere (fun r => r.step S) (fun r => decide (r.NeverRefuses S ())) fuel r = true)
    (n : List Unit) (u : BacktestRun σ) (hu : Run (BacktestRun.Step S) r n u) :
    u.NeverRefuses S () :=
  of_decide_eq_true (of_everywhere (p := fun r => decide (r.NeverRefuses S ()))
    (fun _ _ _ h => h) h hu)

/-- A buy at 100 fills on the first candle and its sell at 110 on the second one, in both
engines. -/
theorem a_list_over_two_candles_is_filled_alike :
    FilledAlike (BacktestEngine.init 1 1000) rich_context (.limit_buy_order 1 100)
        (.limit_sell_order 1 110) [flat_candle 100, flat_candle 110] 1 ∧
      FilledAlike (BacktestEngine.init 1 1000) rich_context (.limit_buy_order 1 100)
        (.limit_sell_order 1 110) [flat_candle 100, flat_candle 110] 2 := by
  have hkeys : ∀ k ∈ rich_context.orders_.keys, k < rich_context.last_order_index_ := by
    intro k hk
    cases hk
  have halike := (an_oto_list_is_place_on_fill_iff_no_candle_meets_both 1 1000 [] _ (.nil _)
    (.limit_buy_order 1 100) (.limit_sell_order 1 110) rich_context Map.ascending_empty hkeys
    [flat_candle 100, flat_candle 110] (funds_everywhere 20 (by decide +kernel))).1.mpr
  have hfirst : ∀ candle, [flat_candle 100, flat_candle 110].find?
      (OrderCall.limit_buy_order 1 100).meets = some candle →
      (OrderCall.limit_sell_order 1 110).meets candle = false := by
    intro candle hfind
    cases hfind
    decide +kernel
  exact ⟨halike hfirst 1 (by decide), halike hfirst 2 (by decide)⟩

/-- A candle from 90 to 120. -/
def wide_candle : Candle := { flat_candle 100 with low_price := 90, high_price := 120 }

/-- On a candle from 90 to 120 the new engine fills the buy at 100 and the sell at 110. The old
engine fills the buy, and the sell is still open after the candle. -/
theorem a_wide_candle_fills_both_orders_of_an_oto_list :
    ∃ s' n r,
      BacktestEngine.Run ((BacktestEngine.init 1 1000).execute (.NewOrderList (.NewOtoOrderList
        (.NewLimitOrder .kBuy 100 1) (.NewLimitOrder .kSell 110 1)))) [.candle wide_candle] s' ∧
      Run (BacktestRun.Step (place_on_fill (.limit_sell_order 1 110)))
        (with_working (.limit_buy_order 1 100) rich_context [wide_candle]) n r ∧
      r.pc = .next ∧ r.data_loader = [] ∧ s'.fired = [0, 1] ∧ r.strategy.fills = [0] ∧
      r.strategy.pending = some 1 ∧
      (∀ n u, Run (BacktestRun.Step (place_on_fill (.limit_sell_order 1 110)))
        (with_working (.limit_buy_order 1 100) rich_context [wide_candle]) n u →
          u.NeverRefuses (place_on_fill (.limit_sell_order 1 110)) ()) ∧
      ¬ FilledAlike (BacktestEngine.init 1 1000) rich_context (.limit_buy_order 1 100)
        (.limit_sell_order 1 110) [wide_candle] 1 := by
  have hnew : ((BacktestEngine.replay (fun _ _ => True) 5 [.candle wide_candle]
      ((BacktestEngine.init 1 1000).execute (.NewOrderList (.NewOtoOrderList
        (.NewLimitOrder .kBuy 100 1) (.NewLimitOrder .kSell 110 1))))).any
      fun s => s.fired = [0, 1]) = true := by decide +kernel
  have hold : ((replay (fun r _ => r.step (place_on_fill (.limit_sell_order 1 110)))
      (fun _ _ => True) (List.replicate 6 ())
      (with_working (.limit_buy_order 1 100) rich_context [wide_candle])).any
      fun r => r.pc = .next ∧ r.data_loader = [] ∧ r.strategy.fills = [0] ∧
        r.strategy.pending = some 1) = true := by decide +kernel
  obtain ⟨s', hs', hfired⟩ := (Option.any_eq_true _ _).mp hnew
  obtain ⟨r, hr, hout⟩ := (Option.any_eq_true _ _).mp hold
  obtain ⟨hpc, hd, hfills, hpending⟩ := of_decide_eq_true hout
  have hfunds := funds_everywhere (S := place_on_fill (.limit_sell_order 1 110)) 20
    (r := with_working (.limit_buy_order 1 100) rich_context [wide_candle]) (by decide +kernel)
  refine ⟨s', _, r, (BacktestEngine.run_of_replay _ hs').forget,
    (run_of_replay (fun _ _ _ h => h) hr).forget, hpc, hd, of_decide_eq_true hfired, hfills,
    hpending, hfunds, fun halike => ?_⟩
  have hsame := (filledAlike_iff (.nil _) (.limit_buy_order 1 100) (.limit_sell_order 1 110)
    Map.ascending_empty (fun k hk => by cases hk) [wide_candle] hfunds (Nat.le_refl 1)).mp halike
  exact absurd hsame (by decide +kernel)

end wedge
