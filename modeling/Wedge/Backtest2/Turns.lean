-- The laws of one sweep, turn by turn: how long the loop can run, when it leaves
-- the queue as it is, and what is left for a second sweep of the same candle.
import Wedge.Backtest2.Cancels

namespace wedge.backtest2

namespace BacktestEngine

/-- The engine after the first `n` turns of the loop of `update_new_orders`. -/
def turns (candle : Candle) (n : ℕ) (s : BacktestEngine) : BacktestEngine :=
  worklist.turns new_orders_ (update_order candle) n s

/-- A sweep makes the turns of its loop and then drops the stale entries. -/
theorem sweep_turns {s s' : BacktestEngine} {candle : Candle} {fuel : ℕ}
    (h : s.update_new_orders fuel candle = some s') :
    s' = (s.turns candle fuel).remove_stale := by
  obtain ⟨t, ht, rfl⟩ := Option.map_eq_some_iff.mp h
  rw [turns, worklist.turns_of_walk ht, Nat.zero_add]

/-! ## The loop ends -/

/-- The orders that a trigger can still queue. -/
def pending (s : BacktestEngine) : Finset ℕ :=
  (Finset.range s.orders_.length).filter fun id => s.status? id = some .kPendingNew

/-- From the first state to the second, an assertion failed or each new entry of the queue is
paid for by an order that is no longer pending. -/
abbrev Pays : BacktestEngine → BacktestEngine → Prop :=
  worklist.Pays new_orders_ (fun s => s.failed.length) (fun s => s.pending.card)

theorem mem_pending (s : BacktestEngine) (id : ℕ) :
    id ∈ s.pending ↔ s.status? id = some .kPendingNew := by
  unfold pending
  rw [Finset.mem_filter, Finset.mem_range]
  exact ⟨And.right, fun h => ⟨status?_lt h, h⟩⟩

theorem write_status_status? (st : OrderStatus) (id : ℕ) (s : BacktestEngine) (j : ℕ) :
    (s.write_status st id).status? j = (s.status? j).map fun old => if j = id then st else old :=
  restatus_status? s (fun j old => if j = id then st else old) _ (by rw [write_status_eq]) j

theorem write_status_pending {st : OrderStatus} (hst : st ≠ .kPendingNew) (id : ℕ)
    (s : BacktestEngine) : (s.write_status st id).pending = s.pending.erase id := by
  ext j
  rw [Finset.mem_erase, mem_pending, mem_pending, write_status_status?]
  by_cases hj : j = id <;> cases s.status? j <;> simp [hj, hst]

theorem pays_write_status {st : OrderStatus} (hst : st ≠ .kPendingNew) (id : ℕ)
    (s : BacktestEngine) : Pays s (s.write_status st id) := by
  refine ⟨le_rfl, Or.inr ?_⟩
  apply Nat.add_le_add_left
  simp only [write_status_pending hst]
  exact Finset.card_erase_le

/-- A trigger moves a pending order to the queue, or its assertion fails. -/
theorem pays_trigger_order (s : BacktestEngine) (id : ℕ) : Pays s (s.trigger_order id) := by
  by_cases h : s.is_status id .kPendingNew = true
  · have hqueue : (s.trigger_order id).new_orders_ = s.new_orders_ ++ [id] := by
      rw [trigger_order_eq]
    have hfailed : (s.trigger_order id).failed = s.failed := by
      simp [trigger_order_eq, h]
    have hnew : OrderStatus.kNew ≠ .kPendingNew := by simp
    have hpending : (s.trigger_order id).pending = s.pending.erase id := by
      rw [← write_status_pending hnew]
      simp [trigger_order_eq, write_status_eq, pending, status?]
    have hcard := Finset.card_erase_add_one ((mem_pending s id).mpr ((is_status_eq s id _).mp h))
    refine ⟨(congrArg List.length hfailed).ge, Or.inr ?_⟩
    simp only [hqueue, hpending, List.length_append, List.length_singleton]
    omega
  · have hfailed : s.failed.length < (s.trigger_order id).failed.length := by
      simp [trigger_order_eq, h]
    exact ⟨hfailed.le, Or.inl hfailed⟩

/-- An event that an order sends is paid for, whatever orders it names. -/
theorem pays_on_event (id : ℕ) (event : OrderEvent) (s : BacktestEngine) :
    Pays s (s.on_event id event) := by
  have hheard : Pays s { s with heard := s.heard ++ [(id, event)] } := ⟨le_rfl, Or.inr le_rfl⟩
  cases event with
  | fill event =>
    simp only [on_event, on_fill_eq]
    exact hheard
  | trigger ids => exact hheard.trans (worklist.Pays.foldl pays_trigger_order ids _)
  | cancel ids =>
    apply hheard.trans
    exact worklist.Pays.foldl (fun s id => pays_write_status (by simp) id s) ids _

theorem pays_status {st : OrderStatus} (hst : st ≠ .kPendingNew) (id : ℕ) (s : BacktestEngine) :
    Pays s (s.status st id) := by
  have hwrite := pays_write_status hst id s
  unfold status
  by_cases hf : st ≠ .kFilled
  · rw [if_pos hf]
    exact hwrite
  · rw [if_neg hf]
    cases (s.write_status st id).orders_[id]? with
    | none => exact hwrite
    | some o =>
      have hevent : ∀ (ids : List ℕ) (event : OrderEvent) (t : BacktestEngine),
          Pays t (if ids ≠ [] then t.on_event id event else t) := by
        intro ids event t
        by_cases hids : ids ≠ []
        · rw [if_pos hids]
          exact pays_on_event id event t
        · rw [if_neg hids]
          exact worklist.Pays.refl t
      exact hwrite.trans ((hevent _ _ _).trans (hevent _ _ _))

theorem pays_update_order (candle : Candle) (id : ℕ) (s : BacktestEngine) :
    Pays s (s.update_order candle id) := by
  unfold update_order
  cases s.orders_[id]? with
  | none => exact worklist.Pays.refl s
  | some o =>
    by_cases hnew : o.is_status .kNew = true
    · simp only [hnew, if_true]
      rw [OrderBase.update_eq]
      by_cases hm : o.meets candle = true
      · simp only [hm, if_true, List.foldl_cons, List.foldl_nil]
        exact (pays_on_event id _ s).trans (pays_status (by simp) id _)
      · simp only [hm, Bool.false_eq_true, if_false, List.foldl_nil]
        exact worklist.Pays.refl s
    · simp only [hnew, Bool.false_eq_true, if_false]
      exact worklist.Pays.refl s

/-- From every state, with any links between the orders, the loop fails an assertion or ends
after as many positions as the queue has entries and the book has pending orders. -/
theorem the_loop_fails_or_ends (s : BacktestEngine) (candle : Candle) :
    (s.turns candle (s.new_orders_.length + s.pending.card)).failed ≠ s.failed ∨
      ∃ s', s.update_new_orders (s.new_orders_.length + s.pending.card + 1) candle = some s' := by
  rcases worklist.damages_or_ends (update_order candle)
    (fun t id => pays_update_order candle id t) (le_refl (s.new_orders_.length + s.pending.card))
    with h | ⟨t, ht⟩
  · left
    intro he
    rw [turns] at he
    exact absurd (congrArg List.length he) h.ne'
  · right
    exact ⟨t.remove_stale, by rw [update_new_orders, ht, Option.map_some]⟩

/-! ## One sweep is enough -/

/-- A sweep of a candle whose condition no new order meets changes nothing but stale entries. -/
theorem idle_sweep {s s' : BacktestEngine} {candle : Candle} {fuel : ℕ} (h : Sound s)
    (hidle : ∀ id, s.status? id = some .kNew → s.meets id candle = false)
    (hrun : s.update_new_orders fuel candle = some s') : s' = s.remove_stale := by
  obtain ⟨t, rfl, _, rfl⟩ := sweep_of_fills (p := fun t => t = s)
    (by
      rintro t id o _ _ hnew hmeets rfl
      rw [hidle id hnew] at hmeets
      cases hmeets)
    h rfl hrun
  rfl

theorem remove_stale_of_new {s : BacktestEngine}
    (h : ∀ id ∈ s.new_orders_, s.status? id = some .kNew) : s.remove_stale = s := by
  have hq : (s.new_orders_.filter fun id => s.is_status id .kNew) = s.new_orders_ :=
    List.filter_eq_self.mpr fun id hid => (is_status_eq s id .kNew).mpr (h id hid)
  unfold remove_stale
  rw [hq]

/-- The candle has one sweep, and the sweep leaves it nothing to do: no new order meets its
condition on the candle, and a second sweep of the same candle ends in the same state. -/
theorem one_sweep_exhausts_a_candle (base quote : ℚ) (acts : List Action) (s : BacktestEngine)
    (h : Run (init base quote) acts s) (candle : Candle) :
    ∃ s', (∀ t, Step s (.candle candle) t ↔ t = s') ∧
      (∀ id, s'.status? id = some .kNew → s'.meets id candle = false) ∧
      ∀ t, Step s' (.candle candle) t ↔ t = s' := by
  have hs := sound_of_run h
  obtain ⟨s', hrun⟩ := sweep_returns hs candle
  obtain ⟨hs', hqueue, hidle⟩ := sweep_exhausts hs hrun
  obtain ⟨u, hagain⟩ := sweep_returns hs' candle
  obtain rfl : u = s' := by
    rw [idle_sweep hs' hidle hagain]
    exact remove_stale_of_new fun id hid => (hqueue id).mp hid
  have hunique : ∀ {v w}, Step v (.candle candle) w → ∀ t, Step v (.candle candle) t ↔ t = w :=
    fun hstep t => ⟨fun ht => step_unique ht hstep, fun ht => ht ▸ hstep⟩
  exact ⟨u, hunique (.candle hrun), hidle, hunique (.candle hagain)⟩

/-- A market buy that waits for its candle. -/
def bought : BacktestEngine := (init 0 1000).execute (.NewOrder (.NewMarketOrder .kBuy 2))

theorem a_market_order_needs_one_sweep :
    bought.status? 0 = some .kNew ∧ bought.meets 0 (flat_candle 50) = true ∧
      ∃ s', (∀ t, Step bought (.candle (flat_candle 50)) t ↔ t = s') ∧
        (∀ id, s'.status? id = some .kNew → s'.meets id (flat_candle 50) = false) ∧
        ∀ t, Step s' (.candle (flat_candle 50)) t ↔ t = s' :=
  ⟨by decide +kernel, by decide +kernel,
    one_sweep_exhausts_a_candle 0 1000 [.command (.NewOrder (.NewMarketOrder .kBuy 2))] bought
      (.single (.command trivial)) (flat_candle 50)⟩

/-! ## The queue under the iterator -/

/-- No new order that the candle meets has an order to trigger. -/
def TriggersNone (s : BacktestEngine) (candle : Candle) : Prop :=
  ∀ w < s.orders_.length, s.status? w = some .kNew → s.meets w candle = true → s.children w = []

instance (s : BacktestEngine) (candle : Candle) : Decidable (s.TriggersNone candle) :=
  Nat.decidableBallLT _ _

/-- A turn that finds nothing to trigger leaves the queue as it is, and leaves nothing to
trigger for the turns behind it. -/
theorem triggersNone_turn {s : BacktestEngine} {candle : Candle} (h : Sound s)
    (hnone : s.TriggersNone candle) (id : ℕ) :
    (s.update_order candle id).new_orders_ = s.new_orders_ ∧
      (s.update_order candle id).TriggersNone candle := by
  refine turn_of_fill (p := fun t => t.new_orders_ = s.new_orders_ ∧ t.TriggersNone candle) h.wired
    (fun o ho hnew hm => ?_) ⟨rfl, hnone⟩
  have hkids := hnone id (status?_lt hnew) hnew hm
  refine ⟨by rw [filled_queue, ← children_of_get ho, hkids, List.append_nil], ?_⟩
  intro w hlt hw hmeets
  rw [filled_length] at hlt
  rw [filled_meets] at hmeets
  rw [filled_children]
  rcases filled_status_cases (o.fill_event candle) h.wired ho w with
    ⟨_, h1⟩ | ⟨h1, _⟩ | ⟨_, h1⟩ | ⟨_, _, _, h1⟩
  · rw [hw] at h1; cases h1
  · rw [hkids] at h1; cases h1
  · rw [hw] at h1; cases h1
  · exact hnone w hlt (h1 ▸ hw) hmeets

theorem turns_sound {s : BacktestEngine} (h : Sound s) (candle : Candle) (n : ℕ) :
    Sound (s.turns candle n) :=
  worklist.turns_keeps (fun _ id _ ht => sound_update_order candle id ht) h n

/-- A new parent stays new until the loop comes to its position. -/
theorem parent_waits {s : BacktestEngine} {candle : Candle} {w k : ℕ} (h : Sound s)
    (hw : s.status? w = some .kNew) (hkids : s.children w ≠ []) (hk : s.new_orders_[k]? = some w)
    (hsame : ∀ n, (s.turns candle n).new_orders_ = s.new_orders_) :
    ∀ n ≤ k, Grows s (s.turns candle n) ∧ (s.turns candle n).status? w = some .kNew := by
  intro n hn
  induction n with
  | zero => exact ⟨Grows.refl s, hw⟩
  | succ n ih =>
    obtain ⟨hg, hst⟩ := ih (by omega)
    have hsound := turns_sound h candle n
    have hlt : n < s.new_orders_.length := by
      have := (List.getElem?_eq_some_iff.mp hk).1
      omega
    have hget : (s.turns candle n).new_orders_[n]? = some s.new_orders_[n] := by
      rw [hsame, List.getElem?_eq_getElem hlt]
    have hturn : s.turns candle (n + 1) =
        (s.turns candle n).update_order candle s.new_orders_[n] := worklist.turns_visit hget
    rw [hturn]
    refine ⟨hg.trans (grows_update_order hsound.wired candle _), ?_⟩
    have hne : s.new_orders_[n] ≠ w := by
      rintro rfl
      have hsame := (List.getElem?_eq_getElem hlt).trans hk.symm
      have := (List.getElem?_inj hlt h.queue_nodup).mp hsame
      omega
    rw [← hg.children (status?_lt hw)] at hkids
    rcases update_order_cases hsound.wired candle s.new_orders_[n] with ⟨o, ho, _, _, he⟩ | ⟨_, he⟩
    · rw [he]
      exact filled_keeps_parent _ hsound.wired ho hkids hst hne.symm
    · rw [he]
      exact hst

/-- The sweep appends nothing to the queue that it walks exactly when the candle meets no new
order that has orders to trigger. -/
theorem the_queue_stays_under_the_iterator_iff (base quote : ℚ) (acts : List Action)
    (s : BacktestEngine) (h : Run (init base quote) acts s) (candle : Candle) :
    (∀ n, (s.turns candle n).new_orders_ = s.new_orders_) ↔ s.TriggersNone candle := by
  have hs := sound_of_run h
  constructor
  · intro hsame w _ hw hm
    by_contra hkids
    obtain ⟨k, hk⟩ := List.getElem?_of_mem (hs.new_queued w hw)
    obtain ⟨hg, hst⟩ := parent_waits hs hw hkids hk hsame k le_rfl
    have hsound := turns_sound hs candle k
    have hget : (s.turns candle k).new_orders_[k]? = some w := by rw [hsame, hk]
    have hturn : s.turns candle (k + 1) = (s.turns candle k).update_order candle w :=
      worklist.turns_visit hget
    have hlast := hsame (k + 1)
    rcases update_order_cases hsound.wired candle w with ⟨o, ho, _, _, he⟩ | ⟨hno, _⟩
    · rw [hturn, he, filled_queue, hsame, ← children_of_get ho, hg.children (status?_lt hw)]
        at hlast
      exact hkids (List.append_right_eq_self.mp hlast)
    · exact hno ⟨hst, by rw [hg.meets (status?_lt hw), hm]⟩
  · intro hnone n
    exact (worklist.turns_keeps
      (p := fun t => Sound t ∧ t.new_orders_ = s.new_orders_ ∧ t.TriggersNone candle)
      (by
        rintro t id - ⟨ht, hq, hn⟩
        obtain ⟨h1, h2⟩ := triggersNone_turn ht hn id
        exact ⟨sound_update_order candle id ht, h1.trans hq, h2⟩)
      ⟨hs, rfl, hnone⟩ n).2.1

theorem a_market_order_leaves_the_queue :
    bought.status? 0 = some .kNew ∧ bought.meets 0 (flat_candle 50) = true ∧
      ∀ n, (bought.turns (flat_candle 50) n).new_orders_ = bought.new_orders_ :=
  ⟨by decide +kernel, by decide +kernel,
    (the_queue_stays_under_the_iterator_iff 0 1000
      [.command (.NewOrder (.NewMarketOrder .kBuy 2))] bought (.single (.command trivial))
      (flat_candle 50)).mpr (by decide +kernel)⟩

/-- The entry fills in the first turn, and its trigger appends the exit to the queue that the
loop is walking. -/
theorem a_trigger_grows_the_queue_under_the_iterator :
    ∃ s, Run (init 0 1000) [.command (.NewOrderList entry_and_exit)] s ∧
      s.new_orders_ = [0] ∧ (s.turns (flat_candle 90) 1).new_orders_ = [0, 1] :=
  ⟨_, .single (.command trivial), by decide +kernel, by decide +kernel⟩

end BacktestEngine

end wedge.backtest2
