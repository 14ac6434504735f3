-- OTO lists in the new engine. The fill of the working order puts the pending order
-- at the end of the queue, and the same sweep comes to it.
import Wedge.Backtest2.Oco

namespace wedge

/-- How far a working order and its pending order are. -/
inductive PairStage
  | placed
  | working_filled
  | both_filled
  deriving DecidableEq, Repr

/-- The candle that fills the working order is tried on the pending order too. The arguments say
which candles meet the two orders. -/
def PairStage.on_the_same_candle (working pending : Candle → Bool) (candle : Candle) :
    PairStage → PairStage
  | .placed =>
    if working candle then
      if pending candle then .both_filled else .working_filled
    else .placed
  | .working_filled => if pending candle then .both_filled else .working_filled
  | .both_filled => .both_filled

end wedge

namespace wedge.backtest2

namespace BacktestEngine

/-! ## The pair -/

/-- The links of an OTO list whose working order is `n`, and the candles that meet its orders. -/
structure Pair (working pending : Candle → Bool) (n : ℕ) (s : BacktestEngine) : Prop where
  pending_lt : n + 1 < s.orders_.length
  children : s.children n = [n + 1]
  working_rivals : s.rivals n = []
  pending_rivals : s.rivals (n + 1) = []
  working_parent : NoParent s n
  working_meets : ∀ candle, s.meets n candle = working candle
  pending_meets : ∀ candle, s.meets (n + 1) candle = pending candle

/-- The statuses of the pair. -/
def AtStage (n : ℕ) (s : BacktestEngine) : PairStage → Prop
  | .placed => s.status? n = some .kNew ∧ s.status? (n + 1) = some .kPendingNew
  | .working_filled => s.status? n = some .kFilled ∧ s.status? (n + 1) = some .kNew
  | .both_filled => s.status? n = some .kFilled ∧ s.status? (n + 1) = some .kFilled

section pair

variable {working pending : Candle → Bool} {n : ℕ} {s s' : BacktestEngine} {stage : PairStage}
  {candle : Candle}

theorem Pair.grows (h : Pair working pending n s) (hg : Grows s s') (hw : Wired s')
    (hl : s.orders_.length ≤ s'.orders_.length) : Pair working pending n s' := by
  have hp := h.pending_lt
  have hn : n < s.orders_.length := by omega
  exact ⟨by omega, (hg.children hn).trans h.children, (hg.rivals hn).trans h.working_rivals,
    (hg.rivals hp).trans h.pending_rivals, h.working_parent.grows hg hw hn,
    fun candle => (hg.meets hn candle).trans (h.working_meets candle),
    fun candle => (hg.meets hp candle).trans (h.pending_meets candle)⟩

/-- A fill of an order outside the pair leaves the pair as it is. -/
theorem Pair.other_fill {id : ℕ} {o : OrderBase} (event : FillOrderEvent) (hw : Wired s)
    (h : Pair working pending n s) (ho : s.orders_[id]? = some o) (hne : id ≠ n)
    (hne' : id ≠ n + 1) :
    (s.filled id o event).status? n = s.status? n ∧
      (s.filled id o event).status? (n + 1) = s.status? (n + 1) := by
  have hr : n ∉ s.rivals id := fun hr => by
    have := hw.rival_symm id n hr
    rw [h.working_rivals] at this
    cases this
  have hr' : n + 1 ∉ s.rivals id := fun hr => by
    have := hw.rival_symm id (n + 1) hr
    rw [h.pending_rivals] at this
    cases this
  have hc' : n + 1 ∉ s.children id := fun hc =>
    hne (hw.one_parent id n (n + 1) hc (by simp [h.children]))
  exact ⟨filled_status_other event ho hr (h.working_parent id) hne.symm,
    filled_status_other event ho hr' hc' hne'.symm⟩

/-- A turn of the sweep keeps what the candle makes of the pair. -/
theorem stage_turn (hs : Sound s) (h : Pair working pending n s) (hstage : AtStage n s stage)
    (id : ℕ) : ∃ stage', AtStage n (s.update_order candle id) stage' ∧
      stage'.on_the_same_candle working pending candle =
        stage.on_the_same_candle working pending candle := by
  rcases update_order_cases hs.wired candle id with ⟨o, ho, hnew, hm, he⟩ | ⟨_, he⟩
  · rw [he]
    by_cases hne : id = n
    · -- The working order fills.
      subst hne
      rw [h.working_meets] at hm
      have hself := filled_status_self (o.fill_event candle) hs.wired ho
      have hchild := filled_status_child (o.fill_event candle) hs.wired ho
        (j := id + 1) (by simp [h.children])
      cases stage with
      | placed => exact ⟨.working_filled, ⟨hself, hchild⟩, by simp [PairStage.on_the_same_candle, hm]⟩
      | working_filled => rw [hstage.1] at hnew; cases hnew
      | both_filled => rw [hstage.1] at hnew; cases hnew
    by_cases hne' : id = n + 1
    · -- The pending order fills.
      subst hne'
      rw [h.pending_meets] at hm
      have hself := filled_status_self (o.fill_event candle) hs.wired ho
      have hother : (s.filled (n + 1) o (o.fill_event candle)).status? n = s.status? n := by
        apply filled_status_other _ ho _ (h.working_parent _) (by omega)
        rw [h.pending_rivals]
        exact List.not_mem_nil
      cases stage with
      | placed => rw [hstage.2] at hnew; cases hnew
      | working_filled =>
        exact ⟨.both_filled, ⟨hother.trans hstage.1, hself⟩, by
          simp [PairStage.on_the_same_candle, hm]⟩
      | both_filled => rw [hstage.2] at hnew; cases hnew
    · obtain ⟨h1, h2⟩ := h.other_fill (o.fill_event candle) hs.wired ho hne hne'
      refine ⟨stage, ?_, rfl⟩
      cases stage <;> exact ⟨h1.trans hstage.1, h2.trans hstage.2⟩
  · rw [he]
    exact ⟨stage, hstage, rfl⟩

/-- One candle moves the pair on. -/
theorem stage_sweep {fuel : ℕ} (hs : Sound s) (h : Pair working pending n s)
    (hstage : AtStage n s stage) (hrun : s.update_new_orders fuel candle = some s') :
    Pair working pending n s' ∧
      AtStage n s' (stage.on_the_same_candle working pending candle) := by
  obtain ⟨hs', _, hdry⟩ := sweep_exhausts hs hrun
  obtain ⟨t, rfl, ht, hpair, stage', hstage', htarget⟩ := sweep_keeps
    (p := fun t => Pair working pending n t ∧ ∃ stage', AtStage n t stage' ∧
      stage'.on_the_same_candle working pending candle =
        stage.on_the_same_candle working pending candle)
    (by
      rintro t id ht _ ⟨hpair, stage', hstage', htarget⟩
      obtain ⟨stage'', h1, h2⟩ : ∃ stage'', AtStage n (t.update_order candle id) stage'' ∧
          stage''.on_the_same_candle working pending candle =
            stage'.on_the_same_candle working pending candle := stage_turn ht hpair hstage' id
      exact ⟨hpair.grows (grows_update_order ht.wired candle id)
        (sound_update_order candle id ht).wired (update_order_length t candle id ht.wired).ge,
        stage'', h1, h2.trans htarget⟩)
    hs ⟨h, stage, hstage, rfl⟩ hrun
  have hpair' : Pair working pending n t.remove_stale :=
    hpair.grows (grows_remove_stale t) hs'.wired (Nat.le_refl _)
  refine ⟨hpair', ?_⟩
  rw [← htarget]
  -- No new order of the sweep's end meets the candle, so the pair has come to rest.
  cases stage' with
  | placed =>
    have hno := hdry n hstage'.1
    rw [hpair'.working_meets] at hno
    have hrest : AtStage n t.remove_stale .placed := hstage'
    simpa [PairStage.on_the_same_candle, hno] using hrest
  | working_filled =>
    have hno := hdry (n + 1) hstage'.2
    rw [hpair'.pending_meets] at hno
    have hrest : AtStage n t.remove_stale .working_filled := hstage'
    simpa [PairStage.on_the_same_candle, hno] using hrest
  | both_filled => exact hstage'

/-- What the fills of the run so far say of the stage. -/
theorem AtStage.fired (hs : Sound s) (h : AtStage n s stage) :
    (n ∈ s.fired ↔ stage ≠ .placed) ∧ (n + 1 ∈ s.fired ↔ stage = .both_filled) := by
  have hpending : s.status? (n + 1) = some .kPendingNew → n + 1 ∉ s.fired := by
    intro h1 hf
    rcases hs.fired_status _ hf with h2 | h2 <;> rw [h1] at h2 <;> cases h2
  cases stage with
  | placed =>
    simp [hs.not_fired_of_new h.1, hpending h.2]
  | working_filled =>
    simp [hs.filled_fired _ h.1, hs.not_fired_of_new h.2]
  | both_filled => simp [hs.filled_fired _ h.1, hs.filled_fired _ h.2]

end pair

/-! ## A new list -/

/-- The two orders of a new OTO list, with their links. -/
theorem new_pair_orders (s : BacktestEngine) (working pending : NewOrder) :
    (s.execute (.NewOrderList (.NewOtoOrderList working pending))).orders_[s.orders_.length]? =
        some { make_order .kNew working with triggered_ := [s.orders_.length + 1] } ∧
      (s.execute (.NewOrderList (.NewOtoOrderList working pending))).orders_[s.orders_.length + 1]? =
        some (make_order .kPendingNew pending) :=
  ⟨execute_list_get s _ 0, execute_list_get s _ 1⟩

theorem new_pair {s : BacktestEngine} (working pending : NewOrder) (h : Sound s) :
    Pair (make_order .kNew working).meets (make_order .kNew pending).meets s.orders_.length
        (s.execute (.NewOrderList (.NewOtoOrderList working pending))) ∧
      AtStage s.orders_.length (s.execute (.NewOrderList (.NewOtoOrderList working pending)))
        .placed := by
  have hsound := sound_execute (.NewOrderList (.NewOtoOrderList working pending)) h
  have hg := grows_execute s (.NewOrderList (.NewOtoOrderList working pending))
  obtain ⟨h0, h1⟩ := new_pair_orders s working pending
  have hparent : NoParent (s.execute (.NewOrderList (.NewOtoOrderList working pending)))
      s.orders_.length := by
    intro w hc
    have hlt := (hsound.wired.child_lt w _ hc).1
    rw [hg.children hlt] at hc
    have := (h.wired.child_lt w _ hc).2
    omega
  refine ⟨⟨(List.getElem?_eq_some_iff.mp h1).1, children_of_get h0, ?_, ?_, hparent, ?_, ?_⟩, ?_, ?_⟩
  · rw [rivals_of_get h0]
    simp
  · rw [rivals_of_get h1]
    simp
  · intro candle
    simp only [BacktestEngine.meets, h0]
    rfl
  · intro candle
    simp only [BacktestEngine.meets, h1]
    cases pending <;> rfl
  · rw [status?_of_get h0, make_order_status]
  · rw [status?_of_get h1, make_order_status]

/-- A run of candles moves the pair candle by candle. -/
theorem stage_run {working pending : Candle → Bool} {n : ℕ} {s s' : BacktestEngine}
    {stage : PairStage} {candles : List Candle} (hs : Sound s) (h : Pair working pending n s)
    (hstage : AtStage n s stage) (hrun : Run s (candles.map .candle) s') :
    AtStage n s' (candles.foldl
      (fun stage candle => stage.on_the_same_candle working pending candle) stage) := by
  induction candles generalizing s stage with
  | nil =>
    cases hrun
    exact hstage
  | cons candle candles ih =>
    cases hrun with
    | cons hstep hrest =>
      have hs' := sound_step hstep hs
      cases hstep with
      | candle hsweep =>
        obtain ⟨h', hstage'⟩ := stage_sweep hs h hstage hsweep
        exact ih hs' h' hstage' hrest

end BacktestEngine

end wedge.backtest2
