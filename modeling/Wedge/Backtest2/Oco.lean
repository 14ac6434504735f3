-- The law of OCO lists: one leg cancels the other. The engine keeps it exactly
-- when the first candle that meets a leg meets the upper leg, since the lower leg
-- starts as `kPendingNew` and nothing ever triggers it.
import Wedge.Backtest2.Ledger

namespace wedge.backtest2

namespace BacktestEngine

/-! ## Orders that no fill triggers -/

/-- The action is no cancel that names the order. -/
def Spares (id : ℕ) (s : BacktestEngine) : Action → Prop
  | .command c => id ∉ s.named c
  | .candle _ => True

/-- No fill triggers the order. -/
def NoParent (s : BacktestEngine) (id : ℕ) : Prop := ∀ w, id ∉ s.children w

theorem NoParent.grows {s s' : BacktestEngine} {id : ℕ} (h : NoParent s id) (hg : Grows s s')
    (hw : Wired s') (hid : id < s.orders_.length) : NoParent s' id := by
  intro w hc
  by_cases hlt : w < s.orders_.length
  · rw [hg.children hlt] at hc
    exact h w hc
  · have := (hw.child_lt w id hc).1
    omega

/-- A command that spares an order keeps its status. -/
theorem execute_spares {s : BacktestEngine} {x : ℕ} {c : Command} (hx : x < s.orders_.length)
    (h : x ∉ s.named c) : (s.execute c).status? x = s.status? x := by
  rcases execute_cases s c with he | ⟨_, o, rest, lists, he, _⟩
  · rw [he, canceled_status?]
    simp [h]
  · rw [he, placed_status_old lists _ hx]

theorem execute_fired (s : BacktestEngine) (c : Command) : (s.execute c).fired = s.fired := by
  unfold fired
  rw [(execute_fills s c).1]

/-! ## The two legs -/

/-- The links of an OCO list whose upper leg is `a`. -/
structure Legs (a : ℕ) (s : BacktestEngine) : Prop where
  below_lt : a + 1 < s.orders_.length
  above_rivals : s.rivals a = [a + 1]
  below_rivals : s.rivals (a + 1) = [a]
  above_parent : NoParent s a
  below_parent : NoParent s (a + 1)

theorem Legs.grows {a : ℕ} {s s' : BacktestEngine} (h : Legs a s) (hg : Grows s s')
    (hw : Wired s') (hl : s.orders_.length ≤ s'.orders_.length) : Legs a s' := by
  have hb := h.below_lt
  exact ⟨by omega, (hg.rivals (by omega)).trans h.above_rivals,
    (hg.rivals hb).trans h.below_rivals, h.above_parent.grows hg hw (by omega),
    h.below_parent.grows hg hw hb⟩

/-- The upper leg is new, and the lower leg waits for a trigger that never comes. -/
structure Resting (a : ℕ) (s : BacktestEngine) : Prop where
  sound : Sound s
  legs : Legs a s
  above : s.status? a = some .kNew
  below : s.status? (a + 1) = some .kPendingNew

/-- The upper leg is filled, and the lower leg is canceled and has sent no fill. -/
structure AboveWon (a : ℕ) (s : BacktestEngine) : Prop where
  sound : Sound s
  legs : Legs a s
  above : s.status? a = some .kFilled
  below : s.status? (a + 1) = some .kCanceled
  below_idle : s.fired.count (a + 1) = 0

theorem Resting.below_idle {a : ℕ} {s : BacktestEngine} (h : Resting a s) :
    s.fired.count (a + 1) = 0 := by
  rw [List.count_eq_zero]
  intro hf
  rcases h.sound.fired_status _ hf with h1 | h1 <;> rw [h.below] at h1 <;> cases h1

theorem legs_turn {a : ℕ} {s : BacktestEngine} (hs : Sound s) (h : Legs a s) (candle : Candle)
    (id : ℕ) : Legs a (s.update_order candle id) :=
  h.grows (grows_update_order hs.wired candle id) (sound_update_order candle id hs).wired
    (update_order_length s candle id hs.wired).ge

/-- A fill of an order that is no leg leaves both legs as they are. -/
theorem other_fill {a id : ℕ} {o : OrderBase} {s : BacktestEngine} (event : FillOrderEvent)
    (hw : Wired s) (h : Legs a s) (ho : s.orders_[id]? = some o) (hne : id ≠ a)
    (hne' : id ≠ a + 1) :
    (s.filled id o event).status? a = s.status? a ∧
      (s.filled id o event).status? (a + 1) = s.status? (a + 1) ∧
      (s.filled id o event).fired.count (a + 1) = s.fired.count (a + 1) := by
  have hr : a ∉ s.rivals id := fun h1 => by
    have := hw.rival_symm id a h1
    rw [h.above_rivals, List.mem_singleton] at this
    exact hne' this
  have hr' : a + 1 ∉ s.rivals id := fun h1 => by
    have := hw.rival_symm id (a + 1) h1
    rw [h.below_rivals, List.mem_singleton] at this
    exact hne this
  refine ⟨filled_status_other event ho hr (h.above_parent id) hne.symm,
    filled_status_other event ho hr' (h.below_parent id) hne'.symm, ?_⟩
  simp [hne']

/-- A turn leaves resting legs as they are, or the candle meets the upper leg and that leg
wins. -/
theorem resting_turn {a : ℕ} {s : BacktestEngine} (h : Resting a s) (candle : Candle) (id : ℕ) :
    Resting a (s.update_order candle id) ∨
      s.meets a candle = true ∧ AboveWon a (s.update_order candle id) := by
  have hs := sound_update_order candle id h.sound
  have hl := legs_turn h.sound h.legs candle id
  rcases update_order_cases h.sound.wired candle id with ⟨o, ho, hnew, hm, he⟩ | ⟨_, he⟩
  · have hne' : id ≠ a + 1 := by
      rintro rfl
      rw [h.below] at hnew
      cases hnew
    by_cases hne : id = a
    · subst hne
      have hr : id + 1 ∈ s.rivals id := by simp [h.legs.above_rivals]
      refine Or.inr ⟨hm, hs, hl, ?_, ?_, ?_⟩
      · rw [he]; exact filled_status_self _ h.sound.wired ho
      · rw [he]; exact filled_status_rival _ h.sound.wired ho hr
      · rw [he, filled_fired, List.count_append, h.below_idle]
        simp
    · obtain ⟨h1, h2, _⟩ := other_fill (o.fill_event candle) h.sound.wired h.legs ho hne hne'
      refine Or.inl ⟨hs, hl, ?_, ?_⟩
      · rw [he, h1, h.above]
      · rw [he, h2, h.below]
  · rw [he]
    exact Or.inl h

/-- Once the upper leg has won, no turn changes a leg. -/
theorem won_turn {a : ℕ} {s : BacktestEngine} (h : AboveWon a s) (candle : Candle) (id : ℕ) :
    AboveWon a (s.update_order candle id) := by
  have hs := sound_update_order candle id h.sound
  have hl := legs_turn h.sound h.legs candle id
  rcases update_order_cases h.sound.wired candle id with ⟨o, ho, hnew, hm, he⟩ | ⟨_, he⟩
  · have hne : id ≠ a := by
      rintro rfl
      rw [h.above] at hnew
      cases hnew
    have hne' : id ≠ a + 1 := by
      rintro rfl
      rw [h.below] at hnew
      cases hnew
    obtain ⟨h1, h2, h3⟩ := other_fill (o.fill_event candle) h.sound.wired h.legs ho hne hne'
    refine ⟨hs, hl, ?_, ?_, ?_⟩
    · rw [he, h1, h.above]
    · rw [he, h2, h.below]
    · rw [he, h3, h.below_idle]
  · rw [he]
    exact h

/-! ## Steps and runs -/

/-- The action is no cancel that names a leg. -/
def SparesLegs (a : ℕ) (s : BacktestEngine) (act : Action) : Prop :=
  Spares a s act ∧ Spares (a + 1) s act

/-- The action is no cancel of a leg and no candle that meets a leg. -/
def MissesLegs (a : ℕ) (s : BacktestEngine) : Action → Prop
  | .command c => SparesLegs a s (.command c)
  | .candle candle => s.meets a candle = false ∧ s.meets (a + 1) candle = false

theorem legs_execute {a : ℕ} {s : BacktestEngine} {c : Command} (hs : Sound s) (h : Legs a s) :
    Legs a (s.execute c) := by
  apply h.grows (grows_execute s c) (sound_execute c hs).wired
  rcases execute_cases s c with he | ⟨_, o, rest, lists, he, _⟩ <;> simp [he]

theorem resting_execute {a : ℕ} {s : BacktestEngine} {c : Command} (h : Resting a s)
    (hsp : SparesLegs a s (.command c)) : Resting a (s.execute c) := by
  have hlt := h.legs.below_lt
  exact ⟨sound_execute c h.sound, legs_execute h.sound h.legs,
    (execute_spares (by omega) hsp.1).trans h.above, (execute_spares hlt hsp.2).trans h.below⟩

theorem won_execute {a : ℕ} {s : BacktestEngine} {c : Command} (h : AboveWon a s)
    (hsp : SparesLegs a s (.command c)) : AboveWon a (s.execute c) := by
  have hlt := h.legs.below_lt
  refine ⟨sound_execute c h.sound, legs_execute h.sound h.legs,
    (execute_spares (by omega) hsp.1).trans h.above, (execute_spares hlt hsp.2).trans h.below, ?_⟩
  rw [execute_fired, h.below_idle]

theorem legs_remove_stale {a : ℕ} {s : BacktestEngine} (h : Legs a s) : Legs a s.remove_stale :=
  ⟨h.below_lt, h.above_rivals, h.below_rivals, h.above_parent, h.below_parent⟩

/-- Resting legs after a sweep: the upper leg wins if the candle meets it, and else both legs
rest. -/
theorem resting_sweep {a fuel : ℕ} {s s' : BacktestEngine} {candle : Candle} (h : Resting a s)
    (hrun : s.update_new_orders fuel candle = some s') :
    s.meets a candle = true ∧ AboveWon a s' ∨ s.meets a candle = false ∧ Resting a s' := by
  have hex := sweep_exhausts h.sound hrun
  have hbelow := h.legs.below_lt
  obtain ⟨t, rfl, ht, hmt, hp⟩ := sweep_keeps
    (p := fun t => t.meets a candle = s.meets a candle ∧
      (Resting a t ∨ s.meets a candle = true ∧ AboveWon a t))
    (by
      rintro t id hst _ ⟨hmt, hp⟩
      have hg := grows_update_order hst.wired candle id
      rcases hp with hp | ⟨hm, hp⟩
      · have := hp.legs.below_lt
        refine ⟨(hg.meets (by omega) candle).trans hmt, ?_⟩
        rcases resting_turn hp candle id with h1 | ⟨h1, h2⟩
        · exact Or.inl h1
        · exact Or.inr ⟨hmt ▸ h1, h2⟩
      · have := hp.legs.below_lt
        exact ⟨(hg.meets (by omega) candle).trans hmt, Or.inr ⟨hm, won_turn hp candle id⟩⟩)
    h.sound ⟨rfl, Or.inl h⟩ hrun
  rcases hp with hp | ⟨hm, hp⟩
  · have hno := hex.2.2 a hp.above
    refine Or.inr ⟨?_, hex.1, legs_remove_stale hp.legs, hp.above, hp.below⟩
    rw [← hmt]
    exact hno
  · exact Or.inl ⟨hm, hex.1, legs_remove_stale hp.legs, hp.above, hp.below, hp.below_idle⟩

theorem resting_run {a : ℕ} {s s' : BacktestEngine} {acts : List Action}
    (hrun : runs.Run (runs.Where Step (MissesLegs a)) s acts s') (h : Resting a s) :
    Resting a s' := by
  refine hrun.invariant (p := Resting a) ?_ h
  rintro s act t ⟨hstep, hmiss⟩ hr
  cases hstep with
  | command _ => exact resting_execute hr hmiss
  | candle hsweep =>
    rcases resting_sweep hr hsweep with ⟨hm, _⟩ | ⟨_, h1⟩
    · rw [hmiss.1] at hm
      cases hm
    · exact h1

theorem won_run {a : ℕ} {s s' : BacktestEngine} {acts : List Action}
    (hrun : runs.Run (runs.Where Step (SparesLegs a)) s acts s') (h : AboveWon a s) :
    AboveWon a s' := by
  refine hrun.invariant (p := AboveWon a) ?_ h
  rintro s act t ⟨hstep, hsp⟩ hw
  cases hstep with
  | command _ => exact won_execute hw hsp
  | candle hsweep =>
    have hex := sweep_exhausts hw.sound hsweep
    obtain ⟨t, rfl, _, h1⟩ := sweep_keeps (p := AboveWon a)
      (fun t id _ _ ht => won_turn ht _ id) hw.sound hw hsweep
    exact ⟨hex.1, legs_remove_stale h1.legs, h1.above, h1.below, h1.below_idle⟩

/-- The two legs of a new OCO list, with their links. -/
theorem new_legs (s : BacktestEngine) (above below : NewOrder) :
    (s.execute (.NewOrderList (.NewOcoOrderList above below))).orders_[s.orders_.length]? =
        some { make_order .kNew above with canceled_ := [s.orders_.length + 1] } ∧
      (s.execute (.NewOrderList (.NewOcoOrderList above below))).orders_[s.orders_.length + 1]? =
        some { make_order .kPendingNew below with canceled_ := [s.orders_.length] } :=
  ⟨execute_list_get s _ 0, execute_list_get s _ 1⟩

/-- A new OCO list rests, with the next free id on its upper leg. -/
theorem resting_new {s : BacktestEngine} (above below : NewOrder) (h : Sound s) :
    Resting s.orders_.length (s.execute (.NewOrderList (.NewOcoOrderList above below))) := by
  have hsound := sound_execute (.NewOrderList (.NewOcoOrderList above below)) h
  have hg := grows_execute s (.NewOrderList (.NewOcoOrderList above below))
  obtain ⟨h0, h1⟩ := new_legs s above below
  have hparent : ∀ c, s.orders_.length ≤ c → c ≤ s.orders_.length + 1 →
      NoParent (s.execute (.NewOrderList (.NewOcoOrderList above below))) c := by
    intro c hle hle' w hc
    have hlt := (hsound.wired.child_lt w c hc).1
    by_cases hw : w < s.orders_.length
    · rw [hg.children hw] at hc
      have := (h.wired.child_lt w c hc).2
      omega
    · obtain rfl : w = s.orders_.length := by omega
      rw [children_of_get h0] at hc
      simp at hc
  refine ⟨hsound, ⟨(List.getElem?_eq_some_iff.mp h1).1, rivals_of_get h0, rivals_of_get h1,
    hparent _ (by omega) (by omega), hparent _ (by omega) (by omega)⟩, ?_, ?_⟩
  · rw [status?_of_get h0, make_order_status]
  · rw [status?_of_get h1, make_order_status]

/-! ## The law -/

/-- One leg of the list whose upper leg is `a` wins on the candle: the candle meets it and it
is filled, the other leg is canceled, and no later run without a cancel of a leg fills it. -/
def OneCancelsOther (a : ℕ) (candle : Candle) (s : BacktestEngine) : Prop :=
  ∃ win lose, (win = a ∧ lose = a + 1 ∨ win = a + 1 ∧ lose = a) ∧
    s.meets win candle = true ∧ s.status? win = some .kFilled ∧
    s.status? lose = some .kCanceled ∧
    ∀ acts s', runs.Run (runs.Where Step (SparesLegs a)) s acts s' →
      s'.status? lose = some .kCanceled ∧ s'.fired.count lose = s.fired.count lose

theorem resting_meets {s s' : BacktestEngine} {above below : NewOrder} {acts : List Action}
    (h : Sound s) (hrun : Run (s.execute (.NewOrderList (.NewOcoOrderList above below))) acts s')
    (candle : Candle) :
    s'.meets s.orders_.length candle = (make_order .kNew above).meets candle ∧
      s'.meets (s.orders_.length + 1) candle = (make_order .kPendingNew below).meets candle := by
  have hrest := resting_new above below h
  have hlt := hrest.legs.below_lt
  have hg := grows_run hrun hrest.sound
  obtain ⟨h0, h1⟩ := new_legs s above below
  rw [hg.meets (by omega) candle, hg.meets hlt candle]
  simp only [meets, h0, h1]
  exact ⟨rfl, rfl⟩

/-- An OCO list that rests in any reachable state, up to the first candle that meets a leg: one
leg cancels the other if and only if that candle meets the upper leg. -/
theorem one_leg_cancels_the_other_iff_the_upper_leg_is_met (base quote : ℚ) (acts : List Action)
    (s : BacktestEngine) (h : Run (init base quote) acts s) (above below : NewOrder)
    (pre : List Action) (s1 s2 : BacktestEngine)
    (hpre : runs.Run (runs.Where Step (MissesLegs s.orders_.length))
      (s.execute (.NewOrderList (.NewOcoOrderList above below))) pre s1)
    (candle : Candle) (fuel : ℕ) (hsweep : s1.update_new_orders fuel candle = some s2) :
    OneCancelsOther s.orders_.length candle s2 ↔
      (make_order .kNew above).meets candle = true := by
  have hs := sound_of_run h
  have hrest := resting_run hpre (resting_new above below hs)
  have hmeets := (resting_meets hs hpre.forget candle).1
  have hlt := hrest.legs.below_lt
  have hg := grows_run (.single (.candle hsweep)) hrest.sound
  rcases resting_sweep hrest hsweep with ⟨hm, hwon⟩ | ⟨hm, hrest'⟩
  · rw [hmeets] at hm
    refine ⟨fun _ => hm, fun _ => ⟨s.orders_.length, s.orders_.length + 1, Or.inl ⟨rfl, rfl⟩, ?_,
      hwon.above, hwon.below, ?_⟩⟩
    · rw [hg.meets (by omega) candle, hmeets, hm]
    · intro later s3 hlater
      have h3 := won_run hlater hwon
      exact ⟨h3.below, h3.below_idle.trans hwon.below_idle.symm⟩
  · rw [hmeets] at hm
    rw [hm]
    refine ⟨?_, fun h1 => absurd h1 (by simp)⟩
    rintro ⟨win, lose, hwl, _, hwin, hlose, _⟩
    rcases hwl with ⟨rfl, rfl⟩ | ⟨rfl, rfl⟩
    · rw [hrest'.above] at hwin; cases hwin
    · rw [hrest'.below] at hwin; cases hwin

instance (a : ℕ) (s : BacktestEngine) (act : Action) : Decidable (MissesLegs a s act) :=
  match act with
  | .command c => inferInstanceAs (Decidable (a ∉ s.named c ∧ a + 1 ∉ s.named c))
  | .candle _ => instDecidableAnd

/-- A limit sell at 110 over a stop at 90. -/
def exit_pair : NewOrderList :=
  .NewOcoOrderList (.NewLimitOrder .kSell 110 1) (.NewStopLossOrder .kSell 90 1)

theorem one_leg_cancels_the_other_at_the_upper_price :
    ∃ s, replay (fun _ _ => True) 9 [.candle (flat_candle 100), .candle (flat_candle 120)]
        ((init 1 0).execute (.NewOrderList exit_pair)) = some s ∧
      OneCancelsOther 0 (flat_candle 120) s := by
  obtain ⟨s1, h1⟩ : ∃ s1, replay (MissesLegs 0) 9 [.candle (flat_candle 100)]
      ((init 1 0).execute (.NewOrderList exit_pair)) = some s1 :=
    Option.isSome_iff_exists.mp (by decide +kernel)
  obtain ⟨s2, h2⟩ : ∃ s2, s1.update_new_orders 9 (flat_candle 120) = some s2 := by
    cases h1
    exact Option.isSome_iff_exists.mp (by decide +kernel)
  refine ⟨s2, ?_, ?_⟩
  · cases h1
    rw [← h2]
    decide +kernel
  · exact (one_leg_cancels_the_other_iff_the_upper_leg_is_met 1 0 [] (init 1 0) (.nil _) _ _ _ s1
      s2 (run_of_replay _ h1) (flat_candle 120) 9 h2).mpr (by decide +kernel)

/-- The candle at 80 meets the stop and misses the limit sell. The stop is still pending after
the sweep, the limit sell is still new, and nothing is filled. -/
theorem the_lower_leg_never_fills :
    ∃ s, Run (init 1 0) [.command (.NewOrderList exit_pair), .candle (flat_candle 80)] s ∧
      s.meets 1 (flat_candle 80) = true ∧ s.meets 0 (flat_candle 80) = false ∧
      s.status? 0 = some .kNew ∧ s.status? 1 = some .kPendingNew ∧ s.fills = [] ∧
      ¬ OneCancelsOther 0 (flat_candle 80) s := by
  obtain ⟨s, hs⟩ : ∃ s, replay (fun _ _ => True) 9
      [.command (.NewOrderList exit_pair), .candle (flat_candle 80)] (init 1 0) = some s :=
    Option.isSome_iff_exists.mp (by decide +kernel)
  refine ⟨s, (run_of_replay _ hs).forget, ?_⟩
  cases hs
  refine ⟨by decide +kernel, by decide +kernel, by decide +kernel, by decide +kernel,
    by decide +kernel, ?_⟩
  rintro ⟨win, lose, hwl, _, hwin, _⟩
  rcases hwl with ⟨rfl, _⟩ | ⟨rfl, _⟩ <;> exact absurd hwin (by decide +kernel)

end BacktestEngine

end wedge.backtest2
