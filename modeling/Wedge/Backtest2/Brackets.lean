-- The law of the lists with a working order (OTO and OTOCO): a pending order
-- fills only after the working order of its list, and one pending order of a
-- list is all that ever fills.
import Wedge.Backtest2.Ledger

namespace wedge.backtest2

namespace BacktestEngine

/-! ## Fills and links -/

/-- Every fill of a child stands behind the fill of its parent. -/
def Caused (s : BacktestEngine) : Prop :=
  ∀ w c, c ∈ s.children w → ∀ l1 l2, s.fired = l1 ++ c :: l2 → w ∈ l1

/-- No two rivals have both sent a fill. -/
def Exclusive (s : BacktestEngine) : Prop :=
  ∀ x y, y ∈ s.rivals x → x ∈ s.fired → y ∉ s.fired

theorem caused_filled {s : BacktestEngine} {id : ℕ} {o : OrderBase} (event : FillOrderEvent)
    (h : Sound s) (hnew : s.status? id = some .kNew) (hc : Caused s) :
    Caused (s.filled id o event) := by
  intro w c hcw l1 l2 hsplit
  rw [filled_children] at hcw
  rw [filled_fired] at hsplit
  -- The fill is the last one, or it is a fill from before.
  rcases List.eq_nil_or_concat l2 with rfl | ⟨l3, x, rfl⟩
  · obtain ⟨rfl, hid⟩ := List.append_inj' hsplit rfl
    cases hid
    exact h.parent_fired hnew hcw
  · have hsplit' : s.fired ++ [id] = (l1 ++ c :: l3) ++ [x] := by simpa using hsplit
    exact hc w c hcw l1 l3 (List.append_inj' hsplit' rfl).1

theorem exclusive_filled {s : BacktestEngine} {id : ℕ} {o : OrderBase} (event : FillOrderEvent)
    (h : Sound s) (hnew : s.status? id = some .kNew) (he : Exclusive s) :
    Exclusive (s.filled id o event) := by
  intro x y hy hx hyf
  rw [filled_rivals] at hy
  rw [filled_fired, List.mem_append, List.mem_singleton] at hx hyf
  rcases hx with hx | rfl <;> rcases hyf with hyf | rfl
  · exact he x y hy hx hyf
  · exact h.rival_not_fired hnew (h.wired.rival_symm x y hy) hx
  · exact h.rival_not_fired hnew hy hyf
  · exact (h.wired.rival_lt y y hy).2 rfl

theorem execute_links {s : BacktestEngine} (c : Command) (h : Sound s) :
    (∀ w x, x ∈ (s.execute c).children w → x ∈ s.fired → x ∈ s.children w) ∧
      ∀ x y, y ∈ (s.execute c).rivals x → x ∈ s.fired → y ∈ s.rivals x := by
  have hg := grows_execute s c
  refine ⟨fun w x hx hf => ?_, fun x y hy hf => ?_⟩
  · by_cases hw : w < s.orders_.length
    · rwa [hg.children hw] at hx
    · have := (sound_execute c h).wired.child_lt w x hx
      have := h.fired_lt hf
      omega
  · rwa [hg.rivals (h.fired_lt hf)] at hy

/-- Both properties hold along every run. -/
theorem fills_follow_links {s : BacktestEngine} {base quote : ℚ} {acts : List Action}
    (h : Run (init base quote) acts s) : Caused s ∧ Exclusive s := by
  refine (h.invariant (p := fun t => Sound t ∧ Caused t ∧ Exclusive t) ?_ ?_).2
  · rintro t a u hstep ⟨ht, hc, he⟩
    refine ⟨sound_step hstep ht, ?_⟩
    cases hstep with
    | @command c _ =>
      have hf : (t.execute c).fired = t.fired := by unfold fired; rw [(execute_fills t c).1]
      obtain ⟨hch, hr⟩ := execute_links c ht
      refine ⟨fun w x hx l1 l2 hsplit => ?_, fun x y hy hx hyf => ?_⟩
      · rw [hf] at hsplit
        exact hc w x (hch w x hx (hsplit ▸ by simp)) l1 l2 hsplit
      · rw [hf] at hx hyf
        exact he x y (hr x y hy hx) hx hyf
    | candle hrun =>
      obtain ⟨v, rfl, _, hv⟩ := sweep_of_fills (p := fun t => Caused t ∧ Exclusive t)
        (by
          rintro v id o hv _ hnew _ ⟨hc, he⟩
          exact ⟨caused_filled _ hv hnew hc, exclusive_filled _ hv hnew he⟩)
        ht ⟨hc, he⟩ hrun
      exact hv
  · refine ⟨sound_init base quote, ?_, ?_⟩
    · intro w c hc
      simp [init, children] at hc
    · intro x y hy
      simp [init, rivals] at hy

/-! ## The law -/

/-- The ids of the pending orders of a list with a working order, when the working order gets
the id `n`. -/
def pending_ids (n : ℕ) : NewOrderList → List ℕ
  | .NewOtoOrderList _ _ => [n + 1]
  | .NewOcoOrderList _ _ => []
  | .NewOtocoOrderList _ _ _ => [n + 1, n + 2]

/-- The links of a new list: the working order triggers the pending orders, and these cancel
each other. -/
theorem new_list_links (s : BacktestEngine) (list : NewOrderList) :
    (s.execute (.NewOrderList list)).children s.orders_.length =
        pending_ids s.orders_.length list ∧
      ∀ x y, x ∈ pending_ids s.orders_.length list → y ∈ pending_ids s.orders_.length list →
        x ≠ y → y ∈ (s.execute (.NewOrderList list)).rivals x := by
  have hget := execute_list_get s list
  refine ⟨?_, fun x y hx hy hne => ?_⟩
  · have h0 := hget 0
    rw [Nat.add_zero] at h0
    unfold children
    rw [h0]
    cases list <;> simp [list_batch, pending_ids]
  · cases list with
    | NewOtoOrderList working pending =>
      simp only [pending_ids, List.mem_singleton] at hx hy
      exact absurd (hx.trans hy.symm) hne
    | NewOcoOrderList above below => cases hx
    | NewOtocoOrderList working pending_above pending_below =>
      have h1 := rivals_of_get (hget 1)
      have h2 := rivals_of_get (hget 2)
      simp only [pending_ids, List.mem_cons, List.not_mem_nil, or_false] at hx hy
      rcases hx with rfl | rfl <;> rcases hy with rfl | rfl
      · exact absurd rfl hne
      · rw [h1]; simp
      · rw [h2]; simp
      · exact absurd rfl hne

/-- A list with a working order, in any reachable state and any later run, also one that fails
an assertion. Its pending orders fill only after the working order. When one of them has
filled, the other one is canceled and has sent no fill. -/
theorem pending_orders_follow_the_working_order_and_exclude_each_other (base quote : ℚ)
    (acts later : List Action) (s s' : BacktestEngine) (list : NewOrderList)
    (h : Run (init base quote) acts s)
    (h' : Run (s.execute (.NewOrderList list)) later s') :
    (∀ c ∈ pending_ids s.orders_.length list, ∀ l1 l2, s'.fired = l1 ++ c :: l2 →
        s.orders_.length ∈ l1) ∧
      ∀ x ∈ pending_ids s.orders_.length list, ∀ y ∈ pending_ids s.orders_.length list, x ≠ y →
        x ∈ s'.fired → s'.status? y = some .kCanceled ∧ y ∉ s'.fired := by
  have hplace : Step s (.command (.NewOrderList list)) (s.execute (.NewOrderList list)) :=
    .command trivial
  have hs := sound_of_run (h.snoc hplace)
  have hg := grows_run h' hs
  have hall := (h.snoc hplace).append h'
  obtain ⟨hc, he⟩ := fills_follow_links hall
  obtain ⟨hch, hr⟩ := new_list_links s list
  refine ⟨fun c hcp l1 l2 hsplit => ?_, fun x hx y hy hne hxf => ?_⟩
  · rw [← hch] at hcp
    refine hc _ c ?_ l1 l2 hsplit
    rw [hg.children (parent_lt hcp)]
    exact hcp
  · have hry := hr x y hx hy hne
    rw [← hg.rivals (rival_of_lt hry)] at hry
    exact ⟨(sound_of_run hall).rival_down x hxf y hry, he x y hry hxf⟩

theorem the_stop_of_a_bracket_cancels_its_target :
    ∃ s : BacktestEngine, 1 ∈ s.fired ∧ 0 ∈ s.fired.take 1 ∧ s.status? 2 = some .kCanceled ∧
      2 ∉ s.fired := by
  obtain ⟨s, hs, h0⟩ : ∃ s, replay (fun _ _ => True) 9 bracket_run.tail
      ((init 10 1000).execute (.NewOrderList (.NewOtocoOrderList (.NewMarketOrder .kBuy 2)
        (.NewStopLossOrder .kSell 90 2) (.NewLimitOrder .kSell 110 2)))) = some s ∧
      s.fired = [0, 1] := ⟨_, rfl, by decide +kernel⟩
  obtain ⟨hc, he⟩ := pending_orders_follow_the_working_order_and_exclude_each_other 10 1000 []
    bracket_run.tail (init 10 1000) s _ (.nil _) (run_of_replay _ hs).forget
  have h1 := hc 1 (by decide +kernel) [0] [] h0
  have h2 := he 1 (by decide +kernel) 2 (by decide +kernel) (by decide) (h0 ▸ by decide)
  exact ⟨s, h0 ▸ by decide, by rw [h0]; exact h1, h2.1, h2.2⟩

end BacktestEngine

end wedge.backtest2
