-- The law of cancels: a canceled order stays canceled, and a fill triggers only
-- pending orders. The engine keeps it until a candle fills an order that still
-- has a canceled order to trigger.
import Wedge.Backtest2.Ledger

namespace wedge.backtest2

namespace BacktestEngine

/-! ## Candles that revive no order -/

/-- No new order that the candle meets has a canceled order to trigger. -/
def RevivesNone (s : BacktestEngine) (candle : Candle) : Prop :=
  ∀ w < s.orders_.length, s.status? w = some .kNew → s.meets w candle = true →
    ∀ c ∈ s.children w, s.status? c ≠ some .kCanceled

/-- The action is no candle that revives an order. -/
def SparesCanceled (s : BacktestEngine) : Action → Prop
  | .command _ => True
  | .candle candle => s.RevivesNone candle

/-- Every order that is canceled in the first state is canceled in the second, and has sent
no fill in between. -/
def KeepsCanceled (s s' : BacktestEngine) : Prop :=
  ∀ id, s.status? id = some .kCanceled →
    s'.status? id = some .kCanceled ∧ s'.fired.count id = s.fired.count id

theorem KeepsCanceled.refl (s : BacktestEngine) : KeepsCanceled s s := fun _ h => ⟨h, rfl⟩

theorem KeepsCanceled.trans {s t u : BacktestEngine} (h1 : KeepsCanceled s t)
    (h2 : KeepsCanceled t u) : KeepsCanceled s u := fun id hid =>
  ⟨(h2 id (h1 id hid).1).1, (h2 id (h1 id hid).1).2.trans (h1 id hid).2⟩

/-! ## One turn -/

section turn

variable {s : BacktestEngine} {id : ℕ} {o : OrderBase}

/-- A fill that revives no order now leaves none for the rest of the sweep to revive. An order
that the fill makes new has nothing to trigger, and an order that the fill cancels has a
parent that has already fired. -/
theorem revivesNone_filled {candle : Candle} (event : FillOrderEvent) (h : Sound s)
    (ho : s.orders_[id]? = some o) (hnew : s.status? id = some .kNew)
    (hsafe : s.RevivesNone candle) : (s.filled id o event).RevivesNone candle := by
  intro w hw hwnew hm c hc hcc
  rw [filled_length] at hw
  rw [filled_meets] at hm
  rw [filled_children] at hc
  rcases filled_status_cases event h.wired ho w with ⟨_, h1⟩ | ⟨h1, _⟩ | ⟨_, h1⟩ | ⟨_, _, hne, h1⟩
  · rw [hwnew] at h1; cases h1
  · rw [h.wired.flat id w h1] at hc
    cases hc
  · rw [hwnew] at h1; cases h1
  · rw [h1] at hwnew
    rcases filled_status_cases event h.wired ho c with ⟨h2, _⟩ | ⟨_, h2⟩ | ⟨_, h2⟩ | ⟨_, _, _, h2⟩
    · have hid := h.wired.rival_parent w id c h2 hc
      exact h.not_fired_of_new hwnew (h.parent_fired hnew hid)
    · rw [hcc] at h2; cases h2
    · rw [hcc] at h2; cases h2
    · rw [h2] at hcc
      exact hsafe w hw hwnew hm c hc hcc

/-- A fill of an order whose children wait uncanceled triggers only pending orders. -/
theorem filled_failed (event : FillOrderEvent) (h : Sound s) (ho : s.orders_[id]? = some o)
    (hnew : s.status? id = some .kNew)
    (hkids : ∀ c ∈ s.children id, s.status? c ≠ some .kCanceled) :
    (s.filled id o event).failed = s.failed := by
  have hnone : (o.triggered_.filter fun j => !s.is_status j .kPendingNew) = [] := by
    rw [List.filter_eq_nil_iff]
    intro c hc
    rw [← children_of_get ho] at hc
    have hst := (h.waiting id c hc (h.not_fired_of_new hnew)).2.2.resolve_right (hkids c hc)
    simp [(is_status_eq s c .kPendingNew).mpr hst]
  simp [filled, hnone]

theorem filled_keeps_canceled (event : FillOrderEvent) (h : Sound s)
    (ho : s.orders_[id]? = some o) (hnew : s.status? id = some .kNew)
    (hkids : ∀ c ∈ s.children id, s.status? c ≠ some .kCanceled) :
    KeepsCanceled s (s.filled id o event) := by
  intro j hj
  have hne : j ≠ id := by
    rintro rfl
    rw [hnew] at hj
    cases hj
  refine ⟨?_, by simp [hne.symm]⟩
  rcases filled_status_cases event h.wired ho j with ⟨_, h1⟩ | ⟨h1, _⟩ | ⟨h1, _⟩ | ⟨_, _, _, h1⟩
  · exact h1
  · exact absurd hj (hkids j h1)
  · exact absurd h1 hne
  · rw [h1, hj]

end turn

/-! ## Sweeps and runs -/

/-- A sweep of a candle that revives no order fails no assertion and keeps the canceled
orders. -/
theorem safe_sweep {fuel : ℕ} {s s' : BacktestEngine} {candle : Candle} (h : Sound s)
    (hsafe : s.RevivesNone candle) (hrun : s.update_new_orders fuel candle = some s') :
    s'.failed = s.failed ∧ KeepsCanceled s s' := by
  obtain ⟨t, rfl, _, _, hf, hk⟩ := sweep_of_fills
    (p := fun t => t.RevivesNone candle ∧ t.failed = s.failed ∧ KeepsCanceled s t)
    (by
      rintro t id o ht ho hnew hm ⟨hs, hf, hk⟩
      have hkids := hs id (status?_lt hnew) hnew hm
      exact ⟨revivesNone_filled _ ht ho hnew hs, (filled_failed _ ht ho hnew hkids).trans hf,
        hk.trans (filled_keeps_canceled _ ht ho hnew hkids)⟩)
    h ⟨hsafe, rfl, KeepsCanceled.refl s⟩ hrun
  exact ⟨hf, hk⟩

/-- A turn either leaves a new order with a canceled child as it is, or fails the assertion of
the trigger. -/
theorem reviving_turn {s : BacktestEngine} {candle : Candle} {w c : ℕ} (h : Sound s)
    (hw : s.status? w = some .kNew) (hc : c ∈ s.children w)
    (hcc : s.status? c = some .kCanceled) (id : ℕ) :
    (s.update_order candle id).status? w = some .kNew ∧
        (s.update_order candle id).status? c = some .kCanceled ∨
      c ∈ (s.update_order candle id).failed := by
  rcases update_order_cases h.wired candle id with ⟨o, ho, hnew, _, he⟩ | ⟨_, he⟩
  · rw [he]
    by_cases hid : id = w
    · subst hid
      right
      have hnp : s.is_status c .kPendingNew = false := by
        rw [Bool.eq_false_iff, ne_eq, is_status_eq, hcc]
        simp
      rw [children_of_get ho] at hc
      simp [filled, hc, hnp]
    · refine Or.inl ⟨?_, ?_⟩
      · exact filled_keeps_parent _ h.wired ho (List.ne_nil_of_mem hc) hw (Ne.symm hid)
      · rcases filled_status_cases (o.fill_event candle) h.wired ho c with
          ⟨_, h1⟩ | ⟨h1, _⟩ | ⟨rfl, _⟩ | ⟨_, _, _, h1⟩
        · exact h1
        · exact absurd (h.wired.one_parent id w c h1 hc) hid
        · rw [hnew] at hcc; cases hcc
        · rw [h1, hcc]
  · rw [he]
    exact Or.inl ⟨hw, hcc⟩

/-- A sweep fails an assertion exactly when its candle revives an order. -/
theorem sweep_failed_iff {fuel : ℕ} {s s' : BacktestEngine} {candle : Candle} (h : Sound s)
    (hf : s.failed = []) (hrun : s.update_new_orders fuel candle = some s') :
    s'.failed = [] ↔ s.RevivesNone candle := by
  refine ⟨fun hf' w _ hw hm c hc hcc => ?_, fun hsafe => (safe_sweep h hsafe hrun).1.trans hf⟩
  obtain ⟨t, rfl, ht, hgrow, hp⟩ := sweep_keeps
    (p := fun t => Grows s t ∧
      (t.status? w = some .kNew ∧ t.status? c = some .kCanceled ∨ c ∈ t.failed))
    (by
      rintro t id ht _ ⟨hg, hp⟩
      have hg1 := grows_update_order ht.wired candle id
      refine ⟨hg.trans hg1, ?_⟩
      rcases hp with ⟨h1, h2⟩ | h1
      · exact reviving_turn ht h1 (by rw [hg.children (status?_lt hw)]; exact hc) h2 id
      · exact Or.inr (hg1.failed.subset h1))
    h ⟨Grows.refl s, Or.inl ⟨hw, hcc⟩⟩ hrun
  rcases hp with ⟨h1, _⟩ | h1
  · have hno := (sweep_exhausts h hrun).2.2 w h1
    have hm' := hgrow.meets (status?_lt hw) candle
    rw [hm] at hm'
    exact absurd (hno.symm.trans hm') (by simp)
  · rw [show t.failed = [] from hf'] at h1
    cases h1

theorem execute_keeps_canceled (s : BacktestEngine) (c : Command) :
    (s.execute c).failed = s.failed ∧ KeepsCanceled s (s.execute c) := by
  have hfired : (s.execute c).fired = s.fired := by unfold fired; rw [(execute_fills s c).1]
  refine ⟨?_, fun id hid => ⟨?_, by rw [hfired]⟩⟩
  · rcases execute_cases s c with he | ⟨_, o, rest, lists, he, _⟩ <;> rw [he] <;> rfl
  · rcases execute_cases s c with he | ⟨_, o, rest, lists, he, _⟩
    · rw [he, canceled_status?, hid]
      simp
    · rw [he, placed_status_old lists _ (status?_lt hid), hid]

theorem safe_run {s s' : BacktestEngine} {acts : List Action}
    (h : runs.Run (runs.Where Step SparesCanceled) s acts s') (hs : Sound s) :
    s'.failed = s.failed ∧ KeepsCanceled s s' := by
  refine h.spans (p := Sound) (r := fun s s' => s'.failed = s.failed ∧ KeepsCanceled s s')
    (fun _ _ _ hstep ht => sound_step hstep.1 ht) (fun s => ⟨rfl, KeepsCanceled.refl s⟩)
    (fun _ _ _ h1 h2 => ⟨h2.1.trans h1.1, h1.2.trans h2.2⟩) ?_ hs
  rintro s a t hst ⟨hstep, hok⟩
  cases hstep with
  | command _ => exact execute_keeps_canceled _ _
  | candle hrun => exact safe_sweep hst hok hrun

/-! ## The law -/

/-- In every run whose candles revive no order, a canceled order stays canceled and sends no
fill, and no assertion of a trigger fails. The condition is exact: any other candle fails the
assertion. -/
theorem a_canceled_order_stays_canceled (base quote : ℚ) (acts later : List Action)
    (s s' : BacktestEngine)
    (h : runs.Run (runs.Where Step SparesCanceled) (init base quote) acts s)
    (h' : runs.Run (runs.Where Step SparesCanceled) s later s') :
    (∀ id, s.status? id = some .kCanceled →
        s'.status? id = some .kCanceled ∧ s'.fired.count id = s.fired.count id) ∧
      s'.failed = [] ∧
      ∀ candle fuel s'', s'.update_new_orders fuel candle = some s'' →
        (s''.failed = [] ↔ s'.RevivesNone candle) := by
  have hs := sound_of_run h.forget
  obtain ⟨hf1, _⟩ := safe_run h (sound_init base quote)
  obtain ⟨hf2, hk⟩ := safe_run h' hs
  have hf : s'.failed = [] := by rw [hf2, hf1]; rfl
  exact ⟨hk, hf, fun candle fuel s'' hrun => sweep_failed_iff (sound_run h'.forget hs) hf hrun⟩

instance (s : BacktestEngine) (a : Action) : Decidable (SparesCanceled s a) :=
  match a with
  | .command _ => .isTrue trivial
  | .candle _ => Nat.decidableBallLT _ _

/-- A limit buy at 100 that triggers a limit sell at 110. -/
def entry_and_exit : NewOrderList :=
  .NewOtoOrderList (.NewLimitOrder .kBuy 100 1) (.NewLimitOrder .kSell 110 1)

/-- The engine with that list, after a cancel of the exit. -/
def entry_without_exit : BacktestEngine :=
  ((init 0 1000).execute (.NewOrderList entry_and_exit)).execute (.CancelOrder 1)

theorem a_canceled_exit_stays_canceled_with_its_entry :
    ∃ s' : BacktestEngine, entry_without_exit.status? 1 = some .kCanceled ∧
      s'.status? 1 = some .kCanceled ∧ s'.failed = [] := by
  have h : replay SparesCanceled 9 [.command (.NewOrderList entry_and_exit),
      .command (.CancelOrder 1)] (init 0 1000) = some entry_without_exit := by decide +kernel
  obtain ⟨s', h'⟩ : ∃ s', replay SparesCanceled 9 [.command (.CancelOrderList 0),
      .candle (flat_candle 90), .candle (flat_candle 120)] entry_without_exit = some s' :=
    Option.isSome_iff_exists.mp (by decide +kernel)
  have hc : entry_without_exit.status? 1 = some .kCanceled := by decide +kernel
  obtain ⟨hkeep, hf, _⟩ := a_canceled_order_stays_canceled 0 1000 _ _ _ _ (run_of_replay _ h)
    (run_of_replay _ h')
  exact ⟨s', hc, (hkeep 1 hc).1, hf⟩

/-- The entry fills at 90 and triggers the canceled exit: the assertion fails, and in a release
build the exit is new again and fills at 120. -/
theorem a_fill_revives_a_canceled_order :
    ∃ s t, Run (init 0 1000) [.command (.NewOrderList entry_and_exit),
        .command (.CancelOrder 1)] entry_without_exit ∧
      entry_without_exit.status? 1 = some .kCanceled ∧
      Run entry_without_exit [.candle (flat_candle 90)] s ∧
      s.failed = [1] ∧ s.status? 1 = some .kNew ∧
      Run s [.candle (flat_candle 120)] t ∧
      t.status? 1 = some .kFilled ∧ t.fired = [0, 1] := by
  have h : replay (fun _ _ => True) 9 [.command (.NewOrderList entry_and_exit),
      .command (.CancelOrder 1)] (init 0 1000) = some entry_without_exit := by decide +kernel
  obtain ⟨s, hs⟩ : ∃ s, replay (fun _ _ => True) 9 [.candle (flat_candle 90)]
      entry_without_exit = some s := Option.isSome_iff_exists.mp (by decide +kernel)
  obtain ⟨t, ht⟩ : ∃ t, replay (fun _ _ => True) 9 [.candle (flat_candle 120)] s = some t := by
    cases hs
    exact Option.isSome_iff_exists.mp (by decide +kernel)
  refine ⟨s, t, (run_of_replay _ h).forget, by decide +kernel, (run_of_replay _ hs).forget, ?_, ?_,
    (run_of_replay _ ht).forget, ?_, ?_⟩ <;> cases hs <;> cases ht <;> decide +kernel

end BacktestEngine

end wedge.backtest2
