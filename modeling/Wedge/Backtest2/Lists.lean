-- The law of canceled lists. No link leads out of an order list, so a list whose
-- orders are all canceled is down for good: no fill brings one of them back.
import Wedge.Backtest2.Cancels
import Wedge.Backtest2.Superposition

namespace wedge.backtest2

namespace BacktestEngine

/-! ## The lists are closed under the links -/

/-- No order stands in two lists. -/
def Apart (s : BacktestEngine) : Prop := s.order_lists_.Pairwise List.Disjoint

theorem new_lists_ge {n : ℕ} {c : Command} {ids : List ℕ} (h : ids ∈ new_lists n c) :
    ∀ id ∈ ids, n ≤ id := by
  cases c with
  | NewOrderList list =>
    rw [List.mem_singleton.mp h]
    cases list <;> simp [list_ids]
  | _ => cases h

theorem apart_execute {s : BacktestEngine} (c : Command) (hs : Sound s) (h : Apart s) :
    Apart (s.execute c) := by
  unfold Apart
  rw [execute_lists, List.pairwise_append]
  refine ⟨h, ?_, ?_⟩
  · cases c <;> simp [new_lists]
  · intro a ha b hb id hida hidb
    have := hs.list_lt a ha id hida
    have := new_lists_ge hb id hidb
    omega

theorem apart_run {base quote : ℚ} {s : BacktestEngine} {acts : List Action}
    (h : Run (init base quote) acts s) : Apart s := by
  refine (h.invariant (p := fun t => Sound t ∧ Apart t) ?_
    ⟨sound_init base quote, List.Pairwise.nil⟩).2
  rintro t a u hstep ⟨hs, ha⟩
  refine ⟨sound_step hstep hs, ?_⟩
  cases hstep with
  | command _ => exact apart_execute _ hs ha
  | candle hrun =>
    unfold Apart
    rw [(sweep_book hs hrun).2]
    exact ha

/-- No link leads out of a list or into it. -/
theorem linked_list {base quote : ℚ} {s : BacktestEngine} {acts : List Action}
    (h : Run (init base quote) acts s) {ids : List ℕ} (hids : ids ∈ s.order_lists_) :
    Linked (fun id => id ∈ ids) s := by
  intro w c hc
  obtain ⟨ids', hids', hw, hcc⟩ := listed_run h w c hc
  by_cases he : ids' = ids
  · subst he
    exact propext ⟨fun _ => hw, fun _ => hcc⟩
  · have : Std.Symm (@List.Disjoint ℕ) := ⟨fun _ _ hd => hd.symm⟩
    have hdis : List.Disjoint ids' ids := (apart_run h).forall hids' hids he
    exact propext ⟨fun h1 => absurd h1 (hdis hcc), fun h1 => absurd h1 (hdis hw)⟩

/-! ## A list that is down -/

/-- Every order of the list is canceled. -/
def Down (ids : List ℕ) (s : BacktestEngine) : Prop := ∀ id ∈ ids, s.status? id = some .kCanceled

/-- No order of the list has sent an event between the two states. -/
def Silent (ids : List ℕ) (s s' : BacktestEngine) : Prop :=
  ∃ events, s'.heard = s.heard ++ events ∧ ∀ e ∈ events, e.1 ∉ ids

theorem Silent.refl (ids : List ℕ) (s : BacktestEngine) : Silent ids s s :=
  ⟨[], (List.append_nil _).symm, by simp⟩

theorem Silent.trans {ids : List ℕ} {s t u : BacktestEngine} (h1 : Silent ids s t)
    (h2 : Silent ids t u) : Silent ids s u := by
  obtain ⟨l1, e1, n1⟩ := h1
  obtain ⟨l2, e2, n2⟩ := h2
  refine ⟨l1 ++ l2, by rw [e2, e1, List.append_assoc], ?_⟩
  intro e he
  exact (List.mem_append.mp he).elim (n1 e) (n2 e)

/-- The order that fills is none of a list that is down, and so its links lead to none of it. -/
theorem down_turn {ids : List ℕ} {s : BacktestEngine} (h : Sound s)
    (hl : Linked (fun id => id ∈ ids) s) (hd : Down ids s) (candle : Candle) (id : ℕ) :
    Down ids (s.update_order candle id) ∧ Silent ids s (s.update_order candle id) := by
  refine turn_of_fill (p := fun t => Down ids t ∧ Silent ids s t) h.wired
    (fun o ho hnew _ => ?_) ⟨hd, Silent.refl ids s⟩
  have hout : id ∉ ids := by
    intro hid
    have := hd id hid
    rw [hnew] at this
    cases this
  refine ⟨?_, fill_events id o (o.fill_event candle), rfl, ?_⟩
  · intro j hj
    rcases filled_status_cases (o.fill_event candle) h.wired ho j with
      ⟨_, h1⟩ | ⟨h1, _⟩ | ⟨rfl, _⟩ | ⟨_, _, _, h1⟩
    · exact h1
    · exact absurd ((hl id j (Or.inl h1)).mp hj) hout
    · exact absurd hj hout
    · rw [h1, hd j hj]
  · intro e hev
    rwa [fill_events_sender hev]

theorem down_step {base quote : ℚ} {acts : List Action} {s s' : BacktestEngine} {a : Action}
    {ids : List ℕ} (h : Run (init base quote) acts s) (hids : ids ∈ s.order_lists_)
    (hd : Down ids s) (hstep : Step s a s') : Down ids s' ∧ Silent ids s s' := by
  have hs := sound_of_run h
  cases hstep with
  | @command c _ =>
    refine ⟨fun id hid => ((execute_keeps_canceled s c).2 id (hd id hid)).1, [], ?_, by simp⟩
    rcases execute_cases s c with he | ⟨_, o, rest, lists, he, _⟩ <;> rw [he] <;>
      exact (List.append_nil _).symm
  | candle hrun =>
    obtain ⟨t, rfl, _, _, hd', hq⟩ := sweep_keeps
      (p := fun t => Linked (fun id => id ∈ ids) t ∧ Down ids t ∧ Silent ids s t)
      (by
        rintro t id ht _ ⟨hl, hdt, hq⟩
        obtain ⟨h1, h2⟩ := down_turn ht hl hdt _ id
        exact ⟨linked_update_order ht.wired hl _ id, h1, hq.trans h2⟩)
      hs ⟨linked_list h hids, hd, Silent.refl ids s⟩ hrun
    exact ⟨hd', hq⟩

/-! ## The law -/

/-- After a cancel of a list all its orders are canceled. In every continuation they stay
canceled, and none of them sends a fill, a trigger or a cancel. -/
theorem a_canceled_list_stays_down (base quote : ℚ) (acts : List Action) (s : BacktestEngine)
    (h : Run (init base quote) acts s) (order_list_id : ℕ) (ids : List ℕ)
    (hids : s.order_lists_[order_list_id]? = some ids) :
    Down ids (s.execute (.CancelOrderList order_list_id)) ∧
      ∀ later s', Run (s.execute (.CancelOrderList order_list_id)) later s' →
        Down ids s' ∧ Silent ids (s.execute (.CancelOrderList order_list_id)) s' := by
  have hs := sound_of_run h
  have hlt := (List.getElem?_eq_some_iff.mp hids).1
  have hmem := List.mem_of_getElem? hids
  have hrun := h.snoc (.command (c := .CancelOrderList order_list_id) hlt)
  have hdown : Down ids (s.execute (.CancelOrderList order_list_id)) := by
    intro id hid
    obtain ⟨st, hst⟩ := status?_of_lt (hs.list_lt ids hmem id hid)
    rw [execute, execute_cancel_order_list_eq, canceled_status?, hst]
    simp [hids, hid]
  refine ⟨hdown, fun later s' hlater => ?_⟩
  have hend := hlater.invariant
    (p := fun t => (∃ acts, Run (init base quote) acts t) ∧ ids ∈ t.order_lists_ ∧ Down ids t ∧
      Silent ids (s.execute (.CancelOrderList order_list_id)) t)
    (by
      rintro t a u hstep ⟨⟨acts, ht⟩, hl, hd, hq⟩
      obtain ⟨h1, h2⟩ := down_step ht hl hd hstep
      have hg := grows_run (.single hstep) (sound_of_run ht)
      exact ⟨⟨_, ht.snoc hstep⟩, hg.lists.subset hl, h1, hq.trans h2⟩)
    ⟨⟨_, hrun⟩, (grows_execute s _).lists.subset hmem, hdown, Silent.refl ids _⟩
  exact hend.2.2

theorem a_canceled_entry_stays_down :
    ∃ s', entry_without_exit.status? 0 = some .kNew ∧
      Run (entry_without_exit.execute (.CancelOrderList 0))
        [.candle (flat_candle 90), .candle (flat_candle 120)] s' ∧
      Down [0, 1] s' ∧ Silent [0, 1] (entry_without_exit.execute (.CancelOrderList 0)) s' := by
  have h : replay (fun _ _ => True) 9 [.command (.NewOrderList entry_and_exit),
      .command (.CancelOrder 1)] (init 0 1000) = some entry_without_exit := by decide +kernel
  obtain ⟨s', h'⟩ : ∃ s', replay (fun _ _ => True) 9 [.candle (flat_candle 90),
      .candle (flat_candle 120)] (entry_without_exit.execute (.CancelOrderList 0)) = some s' :=
    Option.isSome_iff_exists.mp (by decide +kernel)
  have hdown := a_canceled_list_stays_down 0 1000 _ _ (run_of_replay _ h).forget 0 [0, 1]
    (by decide +kernel)
  have hrun := (run_of_replay _ h').forget
  exact ⟨s', by decide +kernel, hrun, hdown.2 _ _ hrun⟩

end BacktestEngine

end wedge.backtest2
