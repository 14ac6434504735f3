-- The sweep of the new orders and the runs of the engine: every sweep ends,
-- every step keeps the invariant, and no order that a sweep leaves new meets
-- its condition on the candle.
import Wedge.Backtest2.Invariant

namespace wedge.backtest2

namespace BacktestEngine

/-! ## The rule of the sweep -/

/-- A turn of the sweep only appends to the queue, and appends the children of the order. -/
theorem update_order_queue {s : BacktestEngine} (h : Wired s) (candle : Candle) (id : ℕ) :
    (s.update_order candle id).new_orders_ = s.new_orders_ ∨
      (s.update_order candle id).new_orders_ = s.new_orders_ ++ s.children id := by
  rcases update_order_cases h candle id with ⟨o, ho, _, _, he⟩ | ⟨_, he⟩
  · rw [he, filled_queue, ← children_of_get ho]
    exact Or.inr rfl
  · exact Or.inl (by rw [he])

@[simp] theorem update_order_length (s : BacktestEngine) (candle : Candle) (id : ℕ)
    (h : Wired s) : (s.update_order candle id).orders_.length = s.orders_.length := by
  rcases update_order_cases h candle id with ⟨o, _, _, _, he⟩ | ⟨_, he⟩ <;> simp [he]

theorem queue_grows {s : BacktestEngine} (h : Wired s) (candle : Candle) (id : ℕ) :
    s.new_orders_.length ≤ (s.update_order candle id).new_orders_.length := by
  rcases update_order_queue h candle id with he | he <;> rw [he]
  simp

/-- What every turn takes from one position to the next holds when the loop has walked the
whole queue. -/
theorem sweep_induct {candle : Candle} {fuel : ℕ} {s s' : BacktestEngine}
    {p : ℕ → BacktestEngine → Prop}
    (hturn : ∀ i t id, Sound t → t.new_orders_[i]? = some id → p i t →
      p (i + 1) (t.update_order candle id))
    (h : Sound s) (hp : p 0 s) (hrun : s.update_new_orders fuel candle = some s') :
    ∃ t, s' = t.remove_stale ∧ Sound t ∧ p t.new_orders_.length t := by
  obtain ⟨t, ht, rfl⟩ := Option.map_eq_some_iff.mp hrun
  obtain ⟨last, hlast, hsound, hle, hp'⟩ := worklist.walk_induct
    (p := fun i t => Sound t ∧ i ≤ t.new_orders_.length ∧ p i t)
    (by
      rintro i u id hid ⟨hu, hi, hpu⟩
      have hlt := (List.getElem?_eq_some_iff.mp hid).1
      have := queue_grows hu.wired candle id
      exact ⟨sound_update_order candle id hu, by omega, hturn i u id hu hid hpu⟩)
    ht ⟨h, Nat.zero_le _, hp⟩
  have : last = t.new_orders_.length := by
    have := List.getElem?_eq_none_iff.mp hlast
    omega
  exact ⟨t, rfl, hsound, this ▸ hp'⟩

/-- A property that every turn keeps holds after the sweep, up to the stale entries. -/
theorem sweep_keeps {candle : Candle} {fuel : ℕ} {s s' : BacktestEngine}
    {p : BacktestEngine → Prop}
    (hturn : ∀ t id, Sound t → id ∈ t.new_orders_ → p t → p (t.update_order candle id))
    (h : Sound s) (hp : p s) (hrun : s.update_new_orders fuel candle = some s') :
    ∃ t, s' = t.remove_stale ∧ Sound t ∧ p t :=
  sweep_induct (p := fun _ t => p t)
    (fun _ t id ht hid hpt => hturn t id ht (List.mem_of_getElem? hid) hpt) h hp hrun

/-- A property that every fill keeps holds after the sweep, up to the stale entries. -/
theorem sweep_of_fills {candle : Candle} {fuel : ℕ} {s s' : BacktestEngine}
    {p : BacktestEngine → Prop}
    (hfill : ∀ t id o, Sound t → t.orders_[id]? = some o → t.status? id = some .kNew →
      t.meets id candle = true → p t → p (t.filled id o (o.fill_event candle)))
    (h : Sound s) (hp : p s) (hrun : s.update_new_orders fuel candle = some s') :
    ∃ t, s' = t.remove_stale ∧ Sound t ∧ p t := by
  refine sweep_keeps (fun t id ht _ hpt => ?_) h hp hrun
  exact turn_of_fill ht.wired (fun o ho hnew hm => hfill t id o ht ho hnew hm hpt) hpt

theorem Sound.queue_length_le {s : BacktestEngine} (h : Sound s) :
    s.new_orders_.length ≤ s.orders_.length := by
  have hsub : s.new_orders_ ⊆ List.range s.orders_.length := fun id hid =>
    List.mem_range.mpr (h.queue_lt id hid)
  simpa using (h.queue_nodup.subperm hsub).length_le

/-- The loop ends: no order is queued twice, so the queue never holds more entries than there
are orders. -/
theorem sweep_returns {s : BacktestEngine} (h : Sound s) (candle : Candle) :
    ∃ s', s.update_new_orders (s.orders_.length + 1) candle = some s' := by
  have hfuel : s.orders_.length < s.orders_.length + 1 + 0 := by omega
  obtain ⟨t, ht⟩ : ∃ t, worklist.walk new_orders_ (update_order candle)
      (s.orders_.length + 1) 0 s = some t := by
    refine worklist.walk_returns
      (p := fun i t => Sound t ∧ t.orders_.length = s.orders_.length ∧ i ≤ t.new_orders_.length)
      ?_ ?_ ⟨h, rfl, Nat.zero_le _⟩ hfuel
    · rintro i u id hid ⟨hu, hl, hi⟩
      have hlt := (List.getElem?_eq_some_iff.mp hid).1
      have := queue_grows hu.wired candle id
      refine ⟨sound_update_order candle id hu, ?_, by omega⟩
      rw [update_order_length u candle id hu.wired, hl]
    · rintro i u ⟨hu, hl, hi⟩
      exact ⟨hi, hl ▸ hu.queue_length_le⟩
  exact ⟨t.remove_stale, by simp [update_new_orders, ht]⟩

/-- No order of the first `i` positions is new and meets its condition on the candle. -/
def Done (candle : Candle) (i : ℕ) (s : BacktestEngine) : Prop :=
  ∀ k < i, ∀ id, s.new_orders_[k]? = some id →
    ¬ (s.status? id = some .kNew ∧ s.meets id candle = true)

theorem done_turn {candle : Candle} {i id : ℕ} {s : BacktestEngine} (h : Sound s)
    (hid : s.new_orders_[i]? = some id) (hd : Done candle i s) :
    Done candle (i + 1) (s.update_order candle id) := by
  rcases update_order_cases h.wired candle id with ⟨o, ho, hnew, hmeets, he⟩ | ⟨hno, he⟩
  · rw [he]
    intro k hk j hj
    have hlt := (List.getElem?_eq_some_iff.mp hid).1
    rw [filled_queue, List.getElem?_append_left (by omega)] at hj
    rw [filled_meets]
    rintro ⟨hst, hm⟩
    rcases filled_status_cases (o.fill_event candle) h.wired ho j with
      ⟨_, h1⟩ | ⟨h1, _⟩ | ⟨_, h1⟩ | ⟨_, _, hne, h1⟩
    · rw [hst] at h1; cases h1
    · -- A child of the order stands behind the end of the old queue.
      exact (h.waiting id j h1 (h.not_fired_of_new hnew)).1 (List.mem_of_getElem? hj)
    · rw [hst] at h1; cases h1
    · rw [h1] at hst
      rcases Nat.lt_or_ge k i with hki | hki
      · exact hd k hki j hj ⟨hst, hm⟩
      · obtain rfl : k = i := by omega
        rw [hid] at hj
        exact hne (Option.some.inj hj).symm
  · rw [he]
    intro k hk j hj
    rcases Nat.lt_or_ge k i with hki | hki
    · exact hd k hki j hj
    · obtain rfl : k = i := by omega
      rw [hid] at hj
      cases hj
      exact hno

/-- After the sweep the queue holds exactly the new orders, and none of them meets its
condition on the candle. -/
theorem sweep_exhausts {candle : Candle} {fuel : ℕ} {s s' : BacktestEngine} (h : Sound s)
    (hrun : s.update_new_orders fuel candle = some s') :
    Sound s' ∧ (∀ id, id ∈ s'.new_orders_ ↔ s'.status? id = some .kNew) ∧
      ∀ id, s'.status? id = some .kNew → s'.meets id candle = false := by
  obtain ⟨t, rfl, ht, hd⟩ := sweep_induct (p := Done candle)
    (fun i t id hs hid hp => done_turn hs hid hp) h (fun k hk => absurd hk (Nat.not_lt_zero k))
    hrun
  have hmem : ∀ id, id ∈ t.remove_stale.new_orders_ ↔ t.status? id = some .kNew := fun id =>
    (remove_stale_mem t id).trans ⟨And.right, fun h1 => ⟨ht.new_queued id h1, h1⟩⟩
  refine ⟨sound_remove_stale ht, hmem, ?_⟩
  intro id hid
  obtain ⟨k, hk⟩ := List.getElem?_of_mem (ht.new_queued id hid)
  have := hd k (List.getElem?_eq_some_iff.mp hk).1 id hk
  by_contra hm
  exact this ⟨hid, Bool.eq_true_of_not_eq_false hm⟩

/-- A sweep makes no orders and no lists. -/
theorem sweep_book {candle : Candle} {fuel : ℕ} {s s' : BacktestEngine} (h : Sound s)
    (hrun : s.update_new_orders fuel candle = some s') :
    s'.orders_.length = s.orders_.length ∧ s'.order_lists_ = s.order_lists_ := by
  obtain ⟨t, rfl, _, ht⟩ := sweep_of_fills
    (p := fun t => t.orders_.length = s.orders_.length ∧ t.order_lists_ = s.order_lists_)
    (fun t id o _ _ _ _ ⟨h1, h2⟩ => ⟨(filled_length t id o _).trans h1, h2⟩) h ⟨rfl, rfl⟩ hrun
  exact ht

/-! ## The runs -/

theorem sound_step {s s' : BacktestEngine} {a : Action} (h : Step s a s') (hs : Sound s) :
    Sound s' := by
  cases h with
  | command _ => exact sound_execute _ hs
  | candle hrun => exact (sweep_exhausts hs hrun).1

theorem sound_run {s s' : BacktestEngine} {acts : List Action} (h : Run s acts s')
    (hs : Sound s) : Sound s' :=
  h.invariant (fun _ _ _ hstep ht => sound_step hstep ht) hs

/-- Every list of candles has its run. -/
theorem candles_run {s : BacktestEngine} (candles : List Candle) (hs : Sound s) :
    ∃ s', Run s (candles.map .candle) s' := by
  induction candles generalizing s with
  | nil => exact ⟨s, .nil s⟩
  | cons candle candles ih =>
    obtain ⟨t, ht⟩ := sweep_returns hs candle
    obtain ⟨s', hrun⟩ := ih (sound_step (.candle ht) hs)
    exact ⟨s', .cons (.candle ht) hrun⟩

/-- Every state of a run of a new engine is sound. -/
theorem sound_of_run {base quote : ℚ} {acts : List Action} {s : BacktestEngine}
    (h : Run (init base quote) acts s) : Sound s := sound_run h (sound_init base quote)

/-- A step leaves no choice: the fuel of a sweep does not change its result. -/
theorem step_unique {s t t' : BacktestEngine} {a : Action} (h : Step s a t) (h' : Step s a t') :
    t = t' := by
  cases h with
  | command _ =>
    cases h'
    rfl
  | @candle _ candle fuel h1 =>
    cases h' with
    | @candle _ _ fuel' h2 =>
      obtain ⟨u, hu, rfl⟩ := Option.map_eq_some_iff.mp h1
      obtain ⟨u', hu', rfl⟩ := Option.map_eq_some_iff.mp h2
      have h3 := worklist.walk_mono_le (Nat.le_max_left fuel fuel') hu
      have h4 := worklist.walk_mono_le (Nat.le_max_right fuel fuel') hu'
      rw [h3] at h4
      cases h4
      rfl

/-- A relation that every turn of every sweep and every command keep spans every run. The
commands of the run can be under a condition. -/
theorem run_spans {r : BacktestEngine → BacktestEngine → Prop}
    {ok : BacktestEngine → Action → Prop} (hrefl : ∀ s, r s s)
    (htrans : ∀ s t u, r s t → r t u → r s u)
    (hturn : ∀ s candle id, Sound s → r s (s.update_order candle id))
    (hclean : ∀ s, r s s.remove_stale)
    (hcommand : ∀ s c, Sound s → s.Known c → ok s (.command c) → r s (s.execute c))
    {s s' : BacktestEngine} {acts : List Action} (h : runs.Run (runs.Where Step ok) s acts s')
    (hs : Sound s) : r s s' := by
  refine h.spans (p := Sound) (fun _ _ _ hstep ht => sound_step hstep.1 ht) hrefl htrans ?_ hs
  rintro s a t hst ⟨hstep, hok⟩
  cases hstep with
  | command hk => exact hcommand _ _ hst hk hok
  | candle hrun =>
    obtain ⟨u, rfl, _, hu⟩ := sweep_keeps (p := r s)
      (fun t id ht _ hrt => htrans _ _ _ hrt (hturn t _ id ht)) hst (hrefl s) hrun
    exact htrans _ _ _ hu (hclean u)

/-! ## What every step keeps -/

/-- The later state has every order of the earlier one, with the same class, side and links,
and it has every list and every event. -/
structure Grows (s s' : BacktestEngine) : Prop where
  order : ∀ (id : ℕ) (o : OrderBase), s.orders_[id]? = some o →
    ∃ st, s'.orders_[id]? = some { o with status_ := st }
  lists : s.order_lists_ <+: s'.order_lists_
  heard : s.heard <+: s'.heard
  failed : s.failed <+: s'.failed

theorem Grows.refl (s : BacktestEngine) : Grows s s :=
  ⟨fun _ o ho => ⟨o.status_, ho⟩, List.prefix_rfl, List.prefix_rfl, List.prefix_rfl⟩

theorem Grows.trans {s t u : BacktestEngine} (h1 : Grows s t) (h2 : Grows t u) : Grows s u := by
  refine ⟨fun id o ho => ?_, h1.lists.trans h2.lists, h1.heard.trans h2.heard,
    h1.failed.trans h2.failed⟩
  obtain ⟨st, h3⟩ := h1.order id o ho
  obtain ⟨st', h4⟩ := h2.order id _ h3
  exact ⟨st', h4⟩

theorem grows_restatus {s t : BacktestEngine} {f : ℕ → OrderStatus → OrderStatus}
    (ho : t.orders_ = restatus f s.orders_) (hl : s.order_lists_ <+: t.order_lists_)
    (hh : s.heard <+: t.heard) (hf : s.failed <+: t.failed) : Grows s t := by
  refine ⟨fun id o hid => ⟨f id o.status_, ?_⟩, hl, hh, hf⟩
  rw [ho, restatus_get, hid]
  rfl

theorem grows_filled (s : BacktestEngine) (id : ℕ) (o : OrderBase) (event : FillOrderEvent) :
    Grows s (s.filled id o event) :=
  grows_restatus rfl List.prefix_rfl (List.prefix_append _ _) (List.prefix_append _ _)

theorem grows_update_order {s : BacktestEngine} (h : Wired s) (candle : Candle) (id : ℕ) :
    Grows s (s.update_order candle id) :=
  turn_of_fill h (fun o _ _ _ => grows_filled s id o _) (Grows.refl s)

theorem grows_execute (s : BacktestEngine) (c : Command) : Grows s (s.execute c) := by
  rcases execute_cases s c with he | ⟨_, o, rest, lists, he, _⟩
  · rw [he]
    exact grows_restatus rfl List.prefix_rfl List.prefix_rfl List.prefix_rfl
  · rw [he]
    refine ⟨fun id o' ho => ⟨o'.status_, ?_⟩, List.prefix_append _ _, List.prefix_rfl,
      List.prefix_rfl⟩
    rw [placed_get_old s _ _ (List.getElem?_eq_some_iff.mp ho).1]
    exact ho

theorem grows_remove_stale (s : BacktestEngine) : Grows s s.remove_stale :=
  ⟨(Grows.refl s).order, List.prefix_rfl, List.prefix_rfl, List.prefix_rfl⟩

theorem grows_run {s s' : BacktestEngine} {acts : List Action} (h : Run s acts s')
    (hs : Sound s) : Grows s s' := by
  have h1 : runs.Run (runs.Where Step fun _ _ => True) s acts s' :=
    h.mono fun _ _ _ hstep => ⟨hstep, trivial⟩
  exact run_spans Grows.refl (fun _ _ _ => Grows.trans)
    (fun _ candle id ht => grows_update_order ht.wired candle id) grows_remove_stale
    (fun s c _ _ _ => grows_execute s c) h1 hs

theorem Grows.children {s s' : BacktestEngine} (h : Grows s s') {id : ℕ}
    (hid : id < s.orders_.length) : s'.children id = s.children id := by
  obtain ⟨st, hst⟩ := h.order id _ (List.getElem?_eq_getElem hid)
  rw [children_of_get hst, children_of_get (List.getElem?_eq_getElem hid)]

theorem Grows.rivals {s s' : BacktestEngine} (h : Grows s s') {id : ℕ}
    (hid : id < s.orders_.length) : s'.rivals id = s.rivals id := by
  obtain ⟨st, hst⟩ := h.order id _ (List.getElem?_eq_getElem hid)
  rw [rivals_of_get hst, rivals_of_get (List.getElem?_eq_getElem hid)]

theorem Grows.meets {s s' : BacktestEngine} (h : Grows s s') {id : ℕ}
    (hid : id < s.orders_.length) (candle : Candle) : s'.meets id candle = s.meets id candle := by
  have hget := List.getElem?_eq_getElem hid
  obtain ⟨st, hst⟩ := h.order id _ hget
  unfold BacktestEngine.meets
  rw [hst, hget]
  rfl

theorem Grows.fills {s s' : BacktestEngine} (h : Grows s s') : s.fills <+: s'.fills :=
  h.heard.filterMap _

theorem Grows.fired {s s' : BacktestEngine} (h : Grows s s') : s.fired <+: s'.fired :=
  h.fills.map _

/-! ## Replays -/

instance (s : BacktestEngine) (c : Command) : Decidable (s.Known c) :=
  match c with
  | .CancelOrder _ => Nat.decLt _ _
  | .CancelOrderList _ => Nat.decLt _ _
  | .NewOrder _ => .isTrue trivial
  | .NewOrderList _ => .isTrue trivial

section replay

variable (ok : BacktestEngine → Action → Prop) [∀ s a, Decidable (ok s a)]

/-- Runs the actions under a condition, with the same fuel for every sweep. -/
def replay (fuel : ℕ) : List Action → BacktestEngine → Option BacktestEngine
  | [], s => some s
  | .command c :: acts, s =>
    if s.Known c ∧ ok s (.command c) then replay fuel acts (s.execute c) else none
  | .candle candle :: acts, s =>
    if ok s (.candle candle) then (s.update_new_orders fuel candle).bind (replay fuel acts)
    else none

theorem run_of_replay {fuel : ℕ} {acts : List Action} {s s' : BacktestEngine}
    (h : replay ok fuel acts s = some s') : runs.Run (runs.Where Step ok) s acts s' := by
  induction acts generalizing s with
  | nil =>
    cases h
    exact .nil _
  | cons a acts ih =>
    cases a with
    | command c =>
      simp only [replay] at h
      split at h
      · rename_i hc
        exact .cons ⟨.command hc.1, hc.2⟩ (ih h)
      · cases h
    | candle candle =>
      simp only [replay] at h
      split at h
      · rename_i hc
        obtain ⟨t, ht, h1⟩ := Option.bind_eq_some_iff.mp h
        exact .cons ⟨.candle ht, hc⟩ (ih h1)
      · cases h

end replay

end BacktestEngine

end wedge.backtest2
