-- The law of pending orders: every pending order has one working order, and that
-- one is still new. The engine keeps it until a cancel names a working order alone.
import Wedge.Backtest2.Lists

namespace wedge.backtest2

namespace BacktestEngine

/-! ## Pending orders and their working orders -/

/-- Every pending order is triggered by exactly one order, and that one is new. -/
def NoneStranded (s : BacktestEngine) : Prop :=
  ∀ c, s.status? c = some .kPendingNew →
    ∃ w, s.status? w = some .kNew ∧ ∀ w', c ∈ s.children w' ↔ w' = w

/-- The action places no OCO list, whose lower leg is pending without a working order. -/
def NoOco : Action → Prop
  | .command (.NewOrderList (.NewOcoOrderList _ _)) => False
  | _ => True

/-- The action is no cancel of an order that still has a pending order to trigger. -/
def SparesWorking (s : BacktestEngine) : Action → Prop
  | .command (.CancelOrder w) => ∀ c ∈ s.children w, s.status? c ≠ some .kPendingNew
  | _ => True

/-! ## One step -/

/-- Cancels strand no order when they cancel each pending order with its working order. -/
theorem noneStranded_canceled {s : BacktestEngine} {ids : List ℕ} (h : NoneStranded s)
    (hall : ∀ w ∈ ids, ∀ c ∈ s.children w, s.status? c = some .kPendingNew → c ∈ ids) :
    NoneStranded (s.canceled ids) := by
  intro c hc
  rw [canceled_status?, Option.map_eq_some_iff] at hc
  obtain ⟨old, hold, hst⟩ := hc
  have hout : c ∉ ids := by
    intro hmem
    rw [if_pos hmem] at hst
    cases hst
  rw [if_neg hout] at hst
  subst hst
  obtain ⟨w, hw, honly⟩ := h c hold
  refine ⟨w, ?_, fun w' => by rw [canceled_children]; exact honly w'⟩
  have hwout : w ∉ ids := fun hmem => hout (hall w hmem c ((honly w).mpr rfl) hold)
  rw [canceled_status?, hw, Option.map_some, if_neg hwout]

/-- A placement whose pending orders are all triggered by the first order strands none. -/
theorem noneStranded_placed {s : BacktestEngine} {o : OrderBase} {rest : List OrderBase}
    (lists : List (List ℕ)) (hs : Sound s) (hb : Batch s.orders_.length o rest)
    (hall : ∀ c, s.orders_.length < c → c < s.orders_.length + (rest.length + 1) →
      c ∈ o.triggered_) (h : NoneStranded s) : NoneStranded (s.placed (o :: rest) lists) := by
  intro c hc
  have hlt := status?_lt hc
  rw [placed_length, List.length_cons] at hlt
  rcases Nat.lt_trichotomy c s.orders_.length with hold | rfl | hnew
  · rw [placed_status_old lists _ hold] at hc
    obtain ⟨w, hw, honly⟩ := h c hc
    refine ⟨w, by rw [placed_status_old lists _ (status?_lt hw), hw], fun w' => ?_⟩
    rw [placed_child lists hb, honly w']
    have hnot : c ∉ o.triggered_ := fun h1 => by
      have := hb.child c h1
      omega
    simp [hnot]
  · rw [placed_status_first lists hb] at hc
    cases hc
  · refine ⟨s.orders_.length, placed_status_first lists hb, fun w' => ?_⟩
    rw [placed_child lists hb]
    have hnot : c ∉ s.children w' := fun h1 => by
      have := hs.wired.child_lt w' c h1
      omega
    simp [hnot, hall c hnew hlt]

/-- The first order of a list that is no OCO list triggers all the others. -/
theorem list_batch_triggered {n : ℕ} {list : NewOrderList} {o : OrderBase}
    {rest : List OrderBase} (hoco : NoOco (.command (.NewOrderList list)))
    (he : list_batch n list = o :: rest) :
    ∀ c, n < c → c < n + (rest.length + 1) → c ∈ o.triggered_ := by
  intro c h1 h2
  cases list with
  | NewOtoOrderList working pending =>
    cases he
    simp only [List.length_singleton] at h2
    simp only [List.mem_singleton]
    omega
  | NewOcoOrderList above below => exact absurd hoco id
  | NewOtocoOrderList working pending_above pending_below =>
    cases he
    simp only [List.length_cons, List.length_nil] at h2
    simp only [List.mem_cons, List.not_mem_nil, or_false]
    omega

/-- A fill makes the orders that it triggers new, and the orders that it cancels trigger none. -/
theorem noneStranded_filled {s : BacktestEngine} {id : ℕ} {o : OrderBase}
    (event : FillOrderEvent) (hw : Wired s) (ho : s.orders_[id]? = some o)
    (h : NoneStranded s) : NoneStranded (s.filled id o event) := by
  intro c hc
  rcases filled_status_cases event hw ho c with ⟨_, h1⟩ | ⟨_, h1⟩ | ⟨_, h1⟩ | ⟨_, hkid, _, h1⟩
  · rw [hc] at h1; cases h1
  · rw [hc] at h1; cases h1
  · rw [hc] at h1; cases h1
  · obtain ⟨w, hwnew, honly⟩ := h c (h1 ▸ hc)
    have hcw : c ∈ s.children w := (honly w).mpr rfl
    have hne : w ≠ id := by
      rintro rfl
      exact hkid hcw
    refine ⟨w, ?_, fun w' => by rw [filled_children]; exact honly w'⟩
    exact filled_keeps_parent event hw ho (List.ne_nil_of_mem hcw) hwnew hne

theorem noneStranded_step {base quote : ℚ} {acts : List Action} {s s' : BacktestEngine}
    {a : Action} (h : Run (init base quote) acts s) (hn : NoneStranded s) (hstep : Step s a s')
    (hoco : NoOco a) (hspare : SparesWorking s a) : NoneStranded s' := by
  have hs := sound_of_run h
  cases hstep with
  | candle hrun =>
    obtain ⟨t, rfl, _, ht⟩ := sweep_of_fills (p := NoneStranded)
      (fun t id o ht ho _ _ hnt => noneStranded_filled _ ht.wired ho hnt) hs hn hrun
    exact ht
  | @command c hk =>
    cases c with
    | CancelOrder id =>
      rw [execute, execute_cancel_order_eq]
      apply noneStranded_canceled hn
      intro w hw c hc hst
      rw [List.mem_singleton.mp hw] at hc
      exact absurd hst (hspare c hc)
    | CancelOrderList id =>
      rw [execute, execute_cancel_order_list_eq]
      apply noneStranded_canceled hn
      have hget := List.getElem?_eq_getElem hk
      have hlink := linked_list h (List.getElem_mem hk)
      intro w hw c hc _
      simp only [List.getD, hget, Option.getD_some] at hw ⊢
      exact (hlink w c (Or.inl hc)).mpr hw
    | NewOrder order =>
      rw [execute_order_eq]
      apply noneStranded_placed [] hs (batch_single _ order) _ hn
      intro c h1 h2
      rw [List.length_nil] at h2
      omega
    | NewOrderList list =>
      obtain ⟨o, rest, hbatch, hb⟩ := batch_list s.orders_.length list
      rw [execute_list_eq, hbatch]
      exact noneStranded_placed _ hs hb (list_batch_triggered hoco hbatch) hn

/-- A cancel of an order that still has a pending order to trigger strands that one. -/
theorem stranded_step {s s' : BacktestEngine} {a : Action} (hs : Sound s) (hstep : Step s a s')
    (hspare : ¬ SparesWorking s a) : ¬ NoneStranded s' := by
  cases hstep with
  | candle _ => exact absurd trivial hspare
  | @command c _ =>
    cases c with
    | CancelOrder w =>
      unfold SparesWorking at hspare
      push Not at hspare
      obtain ⟨c, hc, hst⟩ := hspare
      rw [execute, execute_cancel_order_eq]
      intro hnone
      have hne : c ≠ w := by
        rintro rfl
        exact hs.wired.not_self_child hc
      obtain ⟨w', hw', honly⟩ := hnone c (by
        rw [canceled_status?, hst, Option.map_some, if_neg (by simpa using hne)])
      obtain rfl : w = w' := (honly w).mp (by rw [canceled_children]; exact hc)
      rw [canceled_status?, Option.map_eq_some_iff] at hw'
      obtain ⟨old, _, hold⟩ := hw'
      rw [if_pos (List.mem_singleton_self w)] at hold
      cases hold
    | CancelOrderList id => exact absurd trivial hspare
    | NewOrder order => exact absurd trivial hspare
    | NewOrderList list => exact absurd trivial hspare

/-! ## The law -/

/-- In a run without OCO lists, every pending order has one working order and that one is new, in
every state of the run, exactly when no step cancels an order that still has a pending order to
trigger. -/
theorem no_pending_order_is_stranded_iff (base quote : ℚ) (acts : List Action)
    (s : BacktestEngine)
    (h : runs.Run (runs.Where Step fun _ a => NoOco a) (init base quote) acts s) :
    (∀ before t, before <+: acts →
        runs.Run (runs.Where Step fun _ a => NoOco a) (init base quote) before t →
        NoneStranded t) ↔
      runs.Run (runs.Where (runs.Where Step fun _ a => NoOco a) SparesWorking) (init base quote)
        acts s := by
  apply h.all_good_iff (p := fun t => (∃ acts, Run (init base quote) acts t) ∧ NoneStranded t)
  · exact fun _ _ _ _ h1 h2 => step_unique h1.1 h2.1
  · refine ⟨⟨[], .nil _⟩, fun c hc => ?_⟩
    simp [init, status?] at hc
  · rintro t a u ⟨hstep, hoco⟩ ⟨⟨acts, ht⟩, hn⟩ hspare
    exact ⟨⟨_, ht.snoc hstep⟩, noneStranded_step ht hn hstep hoco hspare⟩
  · rintro t a u ⟨hstep, _⟩ ⟨⟨acts, ht⟩, _⟩ hspare
    exact stranded_step (sound_of_run ht) hstep hspare
  · exact fun t ht => ht.2

instance : DecidablePred NoOco := fun a =>
  match a with
  | .command (.NewOrderList (.NewOcoOrderList _ _)) => .isFalse id
  | .command (.NewOrderList (.NewOtoOrderList _ _)) => .isTrue trivial
  | .command (.NewOrderList (.NewOtocoOrderList _ _ _)) => .isTrue trivial
  | .command (.NewOrder _) => .isTrue trivial
  | .command (.CancelOrder _) => .isTrue trivial
  | .command (.CancelOrderList _) => .isTrue trivial
  | .candle _ => .isTrue trivial

instance (s : BacktestEngine) (a : Action) : Decidable (SparesWorking s a) :=
  match a with
  | .command (.CancelOrder w) =>
    inferInstanceAs (Decidable (∀ c ∈ s.children w, s.status? c ≠ some .kPendingNew))
  | .command (.CancelOrderList _) => .isTrue trivial
  | .command (.NewOrder _) => .isTrue trivial
  | .command (.NewOrderList _) => .isTrue trivial
  | .candle _ => .isTrue trivial

/-- The entry of the first list fills, and the second list is canceled as a whole. -/
def filled_and_canceled : List Action :=
  [.command (.NewOrderList entry_and_exit), .candle (flat_candle 90),
    .command (.NewOrderList entry_and_exit), .command (.CancelOrderList 1)]

theorem fills_and_list_cancels_strand_none :
    ∃ s, Run (init 0 1000) filled_and_canceled s ∧
      ∀ before t, before <+: filled_and_canceled →
        runs.Run (runs.Where Step fun _ a => NoOco a) (init 0 1000) before t →
        NoneStranded t := by
  obtain ⟨s, hs⟩ : ∃ s, replay (fun s a => NoOco a ∧ SparesWorking s a) 9
      filled_and_canceled (init 0 1000) = some s := Option.isSome_iff_exists.mp (by decide +kernel)
  have h : runs.Run (runs.Where (runs.Where Step fun _ a => NoOco a) SparesWorking) (init 0 1000)
      filled_and_canceled s :=
    (run_of_replay _ hs).mono fun _ _ _ h1 => ⟨⟨h1.1, h1.2.1⟩, h1.2.2⟩
  have hall := (no_pending_order_is_stranded_iff 0 1000 filled_and_canceled s h.forget).mpr h
  exact ⟨s, h.forget.forget, hall⟩

/-- The entry is canceled alone: its exit stays pending, on the candles that would have filled
both orders too. -/
theorem a_cancel_of_the_entry_strands_the_exit :
    ∃ s t, runs.Run (runs.Where Step fun _ a => NoOco a) (init 0 1000)
        [.command (.NewOrderList entry_and_exit), .command (.CancelOrder 0)] s ∧
      ¬ NoneStranded s ∧ s.status? 0 = some .kCanceled ∧ s.status? 1 = some .kPendingNew ∧
      Run s [.candle (flat_candle 90), .candle (flat_candle 120)] t ∧
      t.status? 1 = some .kPendingNew := by
  obtain ⟨s, hs⟩ : ∃ s, replay (fun _ a => NoOco a) 9 [.command (.NewOrderList entry_and_exit),
      .command (.CancelOrder 0)] (init 0 1000) = some s :=
    Option.isSome_iff_exists.mp (by decide +kernel)
  obtain ⟨t, ht⟩ : ∃ t, replay (fun _ _ => True) 9 [.candle (flat_candle 90),
      .candle (flat_candle 120)] s = some t := by
    cases hs
    exact Option.isSome_iff_exists.mp (by decide +kernel)
  have hentry : s.status? 0 = some .kCanceled := by cases hs; decide +kernel
  have hexit : s.status? 1 = some .kPendingNew := by cases hs; decide +kernel
  have hlink : 1 ∈ s.children 0 := by cases hs; decide +kernel
  have hlate : t.status? 1 = some .kPendingNew := by cases hs; cases ht; decide +kernel
  refine ⟨s, t, run_of_replay _ hs, ?_, hentry, hexit, (run_of_replay _ ht).forget, hlate⟩
  intro hnone
  obtain ⟨w, hw, honly⟩ := hnone 1 hexit
  obtain rfl : 0 = w := (honly 0).mp hlink
  rw [hentry] at hw
  cases hw

end BacktestEngine

end wedge.backtest2
