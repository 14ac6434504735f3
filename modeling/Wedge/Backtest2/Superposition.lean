-- The law of superposition: each group of orders runs as if it were alone. The
-- statuses of a run are the statuses of its groups, and the changes of the
-- accounts are the sums over the groups.
import Wedge.Backtest2.Groups

namespace wedge.backtest2

namespace BacktestEngine

/-! ## The links stay in the lists -/

/-- The ids that a command gives to new orders, when the first one is `n`. -/
def new_ids (n : ℕ) : Command → List ℕ
  | .CancelOrder _ => []
  | .CancelOrderList _ => []
  | .NewOrder _ => [n]
  | .NewOrderList list => list_ids n list

/-- The lists that a command makes, when the first new order gets the id `n`. -/
def new_lists (n : ℕ) : Command → List (List ℕ)
  | .NewOrderList list => [list_ids n list]
  | _ => []

theorem list_batch_length (n : ℕ) (list : NewOrderList) :
    (list_batch n list).length = (list_ids n list).length := by
  cases list <;> rfl

theorem execute_order_eq (order : NewOrder) (s : BacktestEngine) :
    s.execute (.NewOrder order) = s.placed [make_order .kNew order] [] := by
  simp [execute, execute_new_order_eq]

theorem execute_length (s : BacktestEngine) (c : Command) :
    (s.execute c).orders_.length = s.orders_.length + (new_ids s.orders_.length c).length := by
  cases c with
  | CancelOrder id => rw [execute, execute_cancel_order_eq, canceled_length]; rfl
  | CancelOrderList id => rw [execute, execute_cancel_order_list_eq, canceled_length]; rfl
  | NewOrder order => rw [execute_order_eq, placed_length]; rfl
  | NewOrderList list => rw [execute_list_eq, placed_length, list_batch_length]; rfl

theorem execute_lists (s : BacktestEngine) (c : Command) :
    (s.execute c).order_lists_ = s.order_lists_ ++ new_lists s.orders_.length c := by
  cases c with
  | CancelOrder id => rw [execute, execute_cancel_order_eq]; simp [canceled, new_lists]
  | CancelOrderList id => rw [execute, execute_cancel_order_list_eq]; simp [canceled, new_lists]
  | NewOrder order => rw [execute_order_eq]; simp [placed, new_lists]
  | NewOrderList list => rw [execute_list_eq]; simp [placed, new_lists]

/-- Two linked orders stand in one list. -/
def Listed (s : BacktestEngine) : Prop :=
  ∀ w c, c ∈ s.children w ∨ c ∈ s.rivals w → ∃ ids ∈ s.order_lists_, w ∈ ids ∧ c ∈ ids

theorem list_batch_links {n i c : ℕ} {list : NewOrderList} {o : OrderBase}
    (ho : (list_batch n list)[i]? = some o) (hc : c ∈ o.triggered_ ∨ c ∈ o.canceled_) :
    n + i ∈ list_ids n list ∧ c ∈ list_ids n list := by
  cases list with
  | NewOtoOrderList working pending =>
    rcases i with _ | _ | i <;> simp [list_batch] at ho <;> subst ho <;> simp at hc
    simp [list_ids, hc]
  | NewOcoOrderList above below =>
    rcases i with _ | _ | i <;> simp [list_batch] at ho <;> subst ho <;> simp at hc <;>
      simp [list_ids, hc]
  | NewOtocoOrderList working pending_above pending_below =>
    rcases i with _ | _ | _ | i <;> simp [list_batch] at ho <;> subst ho <;> simp at hc <;>
      simp [list_ids] <;> omega

theorem listed_execute {s : BacktestEngine} (c : Command) (h : Listed s) :
    Listed (s.execute c) := by
  intro w x hx
  have hg := grows_execute s c
  by_cases hw : w < s.orders_.length
  · rw [hg.children hw, hg.rivals hw] at hx
    obtain ⟨ids, hids, h1⟩ := h w x hx
    exact ⟨ids, hg.lists.subset hids, h1⟩
  · obtain ⟨i, rfl⟩ : ∃ i, w = s.orders_.length + i := ⟨w - s.orders_.length, by omega⟩
    obtain ⟨o, ho, hc⟩ : ∃ o, (s.execute c).orders_[s.orders_.length + i]? = some o ∧
        (x ∈ o.triggered_ ∨ x ∈ o.canceled_) := by
      rcases hx with hx | hx
      · obtain ⟨o, ho, hc⟩ := mem_children.mp hx
        exact ⟨o, ho, Or.inl hc⟩
      · obtain ⟨o, ho, hc⟩ := mem_rivals.mp hx
        exact ⟨o, ho, Or.inr hc⟩
    have hlt := (List.getElem?_eq_some_iff.mp ho).1
    rw [execute_length] at hlt
    cases c with
    | CancelOrder id => simp [new_ids] at hlt
    | CancelOrderList id => simp [new_ids] at hlt
    | NewOrder order =>
      rw [execute_order_eq, placed_get_new] at ho
      rcases i with _ | i <;> simp at ho
      subst ho
      simp at hc
    | NewOrderList list =>
      rw [execute_list_eq] at ho ⊢
      rw [placed_get_new] at ho
      exact ⟨_, List.mem_append_right _ (List.mem_singleton_self _), list_batch_links ho hc⟩

theorem listed_step {s s' : BacktestEngine} {a : Action} (hstep : Step s a s') (hs : Sound s)
    (h : Listed s) : Listed s' := by
  cases hstep with
  | command _ => exact listed_execute _ h
  | candle hrun =>
    obtain ⟨t, rfl, _, ht⟩ := sweep_of_fills (p := Listed)
      (by
        intro t id o _ _ _ _ h1 w x hx
        rw [filled_children, filled_rivals] at hx
        exact h1 w x hx)
      hs h hrun
    exact ht

theorem listed_run {base quote : ℚ} {s : BacktestEngine} {acts : List Action}
    (h : Run (init base quote) acts s) : Listed s := by
  refine (h.invariant (p := fun t => Sound t ∧ Listed t)
    (fun _ _ _ hstep ht => ⟨sound_step hstep ht.1, listed_step hstep ht.1 ht.2⟩)
    ⟨sound_init base quote, fun w c hc => ?_⟩).2
  simp [init, children, rivals] at hc

theorem Listed.linked {ι : Type*} {part : ℕ → ι} {s : BacktestEngine} (h : Listed s)
    (hsep : Separated part s) : Linked part s := by
  intro w c hc
  obtain ⟨ids, hids, hw, hci⟩ := h w c hc
  exact hsep ids hids c hci w hw

/-! ## The commands of a group -/

section groups

variable {ι : Type*} [DecidableEq ι] (part : ℕ → ι) (g : ι)

/-- The id of a list of the group, when the group runs alone. -/
def local_list_id (lists : List (List ℕ)) (order_list_id : ℕ) : ℕ :=
  (lists.take order_list_id).countP (list_of_group part g)

/-- The command as the group alone gives it, when `n` orders and the lists have been made so
far. A command of another group is left out. -/
def local_command (n : ℕ) (lists : List (List ℕ)) : Command → Option Command
  | .CancelOrder order_id =>
    if of_group part g order_id then some (.CancelOrder (local_id part g order_id)) else none
  | .CancelOrderList order_list_id =>
    if list_of_group part g (lists.getD order_list_id []) then
      some (.CancelOrderList (local_list_id part g lists order_list_id))
    else none
  | .NewOrder order => if of_group part g n then some (.NewOrder order) else none
  | .NewOrderList list => if of_group part g n then some (.NewOrderList list) else none

/-- The actions of the group alone: its commands in their order, and every candle. -/
def project : ℕ → List (List ℕ) → List Action → List Action
  | _, _, [] => []
  | n, lists, .candle candle :: acts => .candle candle :: project n lists acts
  | n, lists, .command c :: acts =>
    ((local_command part g n lists c).map Action.command).toList ++
      project (n + (new_ids n c).length) (lists ++ new_lists n c) acts

variable {part g}

theorem list_batch_rename {n : ℕ} {list : NewOrderList}
    (h : ∀ id ∈ list_ids n list, of_group part g id = true) :
    (list_batch n list).map (OrderBase.rename (local_id part g)) =
        list_batch (local_id part g n) list ∧
      (list_ids n list).map (local_id part g) = list_ids (local_id part g n) list := by
  have hsucc : ∀ i, of_group part g i = true → local_id part g (i + 1) = local_id part g i + 1 :=
    fun i hi => by rw [local_id, positions.rank_succ, if_pos hi]; rfl
  cases list with
  | NewOtoOrderList working pending =>
    simp only [list_ids, List.mem_cons, List.not_mem_nil, or_false, forall_eq_or_imp,
      forall_eq] at h
    simp only [list_batch, list_ids, OrderBase.rename, hsucc, h, List.map_cons, List.map_nil,
      make_order_canceled, and_true]
    cases pending <;> rfl
  | NewOcoOrderList above below =>
    simp only [list_ids, List.mem_cons, List.not_mem_nil, or_false, forall_eq_or_imp,
      forall_eq] at h
    simp [list_batch, list_ids, OrderBase.rename, hsucc, h]
  | NewOtocoOrderList working pending_above pending_below =>
    simp only [list_ids, List.mem_cons, List.not_mem_nil, or_false, forall_eq_or_imp,
      forall_eq] at h
    simp [list_batch, list_ids, OrderBase.rename, hsucc, h]

/-- What the group alone does for a command of the whole run. -/
def Follows (part : ℕ → ι) (g : ι) (s : BacktestEngine) (c : Command) : Prop :=
  Run (restrict part g s)
    ((local_command part g s.orders_.length s.order_lists_ c).map Action.command).toList
    (restrict part g (s.execute c))

theorem follows_own {s : BacktestEngine} {c : Command} (c' : Command)
    (hc : local_command part g s.orders_.length s.order_lists_ c = some c')
    (hk : (restrict part g s).Known c')
    (he : restrict part g (s.execute c) = (restrict part g s).execute c') :
    Follows part g s c := by
  rw [Follows, hc, he]
  exact .single (.command hk)

theorem follows_other {s : BacktestEngine} {c : Command}
    (hc : local_command part g s.orders_.length s.order_lists_ c = none)
    (he : restrict part g (s.execute c) = restrict part g s) : Follows part g s c := by
  rw [Follows, hc, he]
  exact .nil _

theorem follows_cancel_order {s : BacktestEngine} {id : ℕ} (hk : id < s.orders_.length) :
    Follows part g s (.CancelOrder id) := by
  cases hid : of_group part g id with
  | true =>
    refine follows_own (.CancelOrder (local_id part g id)) (by simp [local_command, hid]) ?_ ?_
    · rw [Known, restrict_length]
      exact positions.rank_lt hid hk
    · rw [execute, execute_cancel_order_eq, execute, execute_cancel_order_eq,
        restrict_canceled_in (by simpa using hid)]
      rfl
  | false =>
    apply follows_other (by simp [local_command, hid])
    rw [execute, execute_cancel_order_eq, restrict_canceled_out (by simpa using hid)]

theorem follows_cancel_list {s : BacktestEngine} {lid : ℕ} {ids : List ℕ}
    (hget : s.order_lists_[lid]? = some ids)
    (hsame : ∀ id ∈ ids, of_group part g id = list_of_group part g ids) :
    Follows part g s (.CancelOrderList lid) := by
  have hgetD : s.order_lists_.getD lid [] = ids := by simp [List.getD, hget]
  cases hl : list_of_group part g ids with
  | true =>
    have hlocal : (restrict part g s).order_lists_[local_list_id part g s.order_lists_ lid]? =
        some (ids.map (local_id part g)) := by
      simp only [restrict, local_list_id, List.getElem?_map, positions.filter_get hget hl,
        Option.map_some]
    refine follows_own (.CancelOrderList (local_list_id part g s.order_lists_ lid))
      (by simp only [local_command, hgetD, hl, if_true]) ?_ ?_
    · exact (List.getElem?_eq_some_iff.mp hlocal).1
    · rw [execute, execute_cancel_order_list_eq, execute, execute_cancel_order_list_eq, hgetD,
        restrict_canceled_in fun id hid => (hsame id hid).trans hl, List.getD, hlocal]
      rfl
  | false =>
    apply follows_other (by simp [local_command, hget, hl])
    rw [execute, execute_cancel_order_list_eq, hgetD,
      restrict_canceled_out fun id hid => (hsame id hid).trans hl]

theorem follows_new_order (s : BacktestEngine) (order : NewOrder) :
    Follows part g s (.NewOrder order) := by
  cases hn : of_group part g s.orders_.length with
  | true =>
    apply follows_own (.NewOrder order) (by simp [local_command, hn]) trivial
    rw [execute_order_eq, restrict_placed_in hn (by simpa using hn) (by simp), execute_order_eq]
    cases order <;> rfl
  | false =>
    apply follows_other (by simp [local_command, hn])
    rw [execute_order_eq, restrict_placed_out hn (by simpa using hn) (by simp)]

theorem follows_new_list {s : BacktestEngine} {list : NewOrderList}
    (hsame : ∀ id ∈ list_ids s.orders_.length list,
      of_group part g id = of_group part g s.orders_.length) :
    Follows part g s (.NewOrderList list) := by
  have hbatch : ∀ i < (list_batch s.orders_.length list).length,
      of_group part g (s.orders_.length + i) = of_group part g s.orders_.length := by
    intro i hi
    apply hsame _
    cases list <;> simp [list_batch, list_ids] at hi ⊢ <;> omega
  have hhead : list_of_group part g (list_ids s.orders_.length list) =
      of_group part g s.orders_.length := by cases list <;> rfl
  cases hn : of_group part g s.orders_.length with
  | true =>
    rw [hn] at hsame hbatch hhead
    obtain ⟨h1, h2⟩ := list_batch_rename hsame
    apply follows_own (.NewOrderList list) (by simp [local_command, hn]) trivial
    rw [execute_list_eq, restrict_placed_in hn hbatch (by simpa using hhead), h1,
      List.map_singleton, h2, ← restrict_length, ← execute_list_eq]
  | false =>
    rw [hn] at hsame hbatch hhead
    apply follows_other (by simp [local_command, hn])
    rw [execute_list_eq, restrict_placed_out hn hbatch (by simpa using hhead)]

/-- A command, seen by the group, is the command of the group alone or nothing. -/
theorem restrict_execute {s : BacktestEngine} {c : Command} (hk : s.Known c)
    (hsep : Separated part (s.execute c)) : Follows part g s c := by
  have hlists := execute_lists s c
  have hsame : ∀ ids ∈ (s.execute c).order_lists_, ∀ id ∈ ids,
      of_group part g id = list_of_group part g ids := by
    intro ids hids id hid
    have hhead : ids.headD 0 ∈ ids := by
      cases ids with
      | nil => cases hid
      | cons x l => simp
    simp only [of_group, list_of_group, hsep ids hids id hid _ hhead]
  cases c with
  | CancelOrder id => exact follows_cancel_order hk
  | CancelOrderList lid =>
    have hget := List.getElem?_eq_getElem (l := s.order_lists_) hk
    refine follows_cancel_list hget (hsame _ ?_)
    rw [hlists]
    exact List.mem_append_left _ (List.mem_of_getElem? hget)
  | NewOrder order => exact follows_new_order s order
  | NewOrderList list =>
    refine follows_new_list fun id hid => ?_
    rw [hsame _ (by rw [hlists]; simp [new_lists]) id hid]
    cases list <;> rfl

/-- A run, seen by the group, is a run of the group alone. -/
theorem restrict_run {s s' : BacktestEngine} {acts : List Action} (h : Run s acts s')
    (hs : Sound s) (hl : Listed s) (hsep : Separated part s') :
    Run (restrict part g s) (project part g s.orders_.length s.order_lists_ acts)
      (restrict part g s') := by
  induction h with
  | nil s => exact .nil _
  | @cons s t u a acts hstep hrest ih =>
    have ht := sound_step hstep hs
    have hsep_t : Separated part t := fun ids hids =>
      hsep ids ((grows_run hrest ht).lists.subset hids)
    have h1 := ih ht (listed_step hstep hs hl) hsep
    cases hstep with
    | @command c hk =>
      rw [execute_length, execute_lists] at h1
      exact (restrict_execute hk hsep_t).append h1
    | candle hrun =>
      obtain ⟨hlen, hlists⟩ := sweep_book hs hrun
      rw [hlen, hlists] at h1
      have hsep_s : Separated part s := fun ids hids => hsep_t ids (hlists ▸ hids)
      exact .cons (.candle (restrict_sweep hs (hl.linked hsep_s) hrun)) h1

/-! ## The law -/

/-- The sum over a list is the sum over the groups of its entries. -/
theorem sum_by_group {α : Type*} (gs : Finset ι) (key : α → ι) (value : α → ℚ) (l : List α)
    (h : ∀ x ∈ l, key x ∈ gs) :
    ∑ g ∈ gs, ((l.filter fun x => key x = g).map value).sum = (l.map value).sum := by
  induction l with
  | nil => simp
  | cons x l ih =>
    have hx := h x List.mem_cons_self
    have hcons : ∀ g, (((x :: l).filter fun x => key x = g).map value).sum =
        (if key x = g then value x else 0) + ((l.filter fun x => key x = g).map value).sum := by
      intro g
      by_cases hg : key x = g <;> simp [hg]
    simp only [hcons, Finset.sum_add_distrib, ih fun y hy => h y (List.mem_cons_of_mem x hy)]
    simp [hx]

theorem sum_restrict (part : ℕ → ι) {base quote : ℚ} {s : BacktestEngine} (hs : Sound s)
    (hb : Balanced base quote s) (gs : Finset ι)
    (h : ∀ id < s.orders_.length, part id ∈ gs) :
    s.base_ - base = ∑ g ∈ gs, (restrict part g s).base_ ∧
      s.quote_ - quote = ∑ g ∈ gs, (restrict part g s).quote_ := by
  have hin : ∀ f ∈ s.fills, part f.1 ∈ gs := fun f hf =>
    h f.1 (hs.fired_lt (List.mem_map_of_mem hf))
  refine ⟨?_, ?_⟩
  · rw [hb.1, add_sub_cancel_left]
    exact (sum_by_group gs (fun f : ℕ × FillOrderEvent => part f.1) (fun f => base_delta f.2) _
      hin).symm
  · rw [hb.2, add_sub_cancel_left]
    exact (sum_by_group gs (fun f : ℕ × FillOrderEvent => part f.1) (fun f => quote_delta f.2) _
      hin).symm

theorem restrict_failed (part : ℕ → ι) {s : BacktestEngine} :
    s.failed = [] ↔ ∀ g, (restrict part g s).failed = [] := by
  constructor
  · intro h g
    simp [restrict, h]
  · intro h
    by_contra hne
    obtain ⟨id, l, hl⟩ := List.exists_cons_of_ne_nil hne
    have := h (part id)
    simp [restrict, hl, of_group] at this

/-- The run of a new engine, seen by a group, is the only run of the group alone. -/
theorem alone_iff {base quote : ℚ} {acts : List Action} {s t : BacktestEngine}
    (h : Run (init base quote) acts s) (hsep : Separated part s) :
    Run (init 0 0) (project part g 0 [] acts) t ↔ t = restrict part g s := by
  have halone : Run (init 0 0) (project part g 0 [] acts) (restrict part g s) :=
    restrict_run h (sound_init base quote) (listed_run (.nil _)) hsep
  constructor
  · have hdet : ∀ (s : BacktestEngine) a t t', Step s a t → Step s a t' → t = t' :=
      fun _ _ _ _ => step_unique
    exact fun ht => runs.Run.unique hdet ht halone
  · rintro rfl
    exact halone

/-- The second actions are the first ones with commands of different groups in another order
between the same candles, and with other ids for the same orders. Each group gives the same
commands in both, in the same order between the same candles. -/
def Reordered (part : ℕ → ι) (acts : List Action) (part' : ℕ → ι) (acts' : List Action) : Prop :=
  ∀ g, project part g 0 [] acts = project part' g 0 [] acts'

theorem reordered_same {part' : ℕ → ι} {base quote : ℚ} {acts acts' : List Action}
    {s t : BacktestEngine} (h : Run (init base quote) acts s) (hsep : Separated part s)
    (h' : Run (init base quote) acts' t) (hsep' : Separated part' t)
    (hre : Reordered part acts part' acts') :
    t.base_ = s.base_ ∧ t.quote_ = s.quote_ ∧ (s.failed = [] → t.failed = []) ∧
      ∀ id < s.orders_.length, ∃ id' < t.orders_.length, part' id' = part id ∧
        local_id part' (part id) id' = local_id part (part id) id ∧
        t.status? id' = s.status? id := by
  have hsame : ∀ g, restrict part' g t = restrict part g s := fun g =>
    (alone_iff h hsep).mp (hre g ▸ (alone_iff h' hsep').mpr rfl)
  let gs := (Finset.range s.orders_.length).image part ∪ (Finset.range t.orders_.length).image part'
  obtain ⟨hb, hq⟩ := sum_restrict part (sound_of_run h) (ledger_run h).1 gs
    (fun id hid => Finset.mem_union_left _ (Finset.mem_image_of_mem _ (Finset.mem_range.mpr hid)))
  obtain ⟨hb', hq'⟩ := sum_restrict part' (sound_of_run h') (ledger_run h').1 gs
    (fun id hid => Finset.mem_union_right _ (Finset.mem_image_of_mem _ (Finset.mem_range.mpr hid)))
  simp only [hsame] at hb' hq'
  refine ⟨by linarith, by linarith, fun hf => ?_, fun id hid => ?_⟩
  · rw [restrict_failed part']
    intro g
    rw [hsame g]
    exact (restrict_failed part).mp hf g
  · have hg : of_group part (part id) id = true := by simp [of_group]
    have hlen := congrArg (fun u : BacktestEngine => u.orders_.length) (hsame (part id))
    simp only [restrict_length] at hlen
    obtain ⟨id', hid', hg', hloc⟩ := positions.rank_surj
      (p := of_group part' (part id)) (n := t.orders_.length) (k := local_id part (part id) id)
      (by
        have := positions.rank_lt hg hid
        rw [local_id] at hlen
        rw [hlen]
        exact this)
    refine ⟨id', hid', by simpa [of_group] using hg', hloc, ?_⟩
    rw [← restrict_status? t hg', ← restrict_status? s hg, hsame (part id)]
    exact congrArg _ hloc

/-- Each group of orders runs as if it were alone, in every state of every run. The statuses of
the run are those of the groups, the changes of the accounts are the sums over the groups, and
no group alone fails an assertion that the run did not fail. So no reordering of commands of
different groups between two candles changes the accounts or the outcome of an order. -/
theorem each_group_runs_as_if_alone (part : ℕ → ι) (base quote : ℚ) (acts later : List Action)
    (s s' : BacktestEngine) (h : Run (init base quote) acts s) (h' : Run s later s')
    (hsep : Separated part s') :
    ∃ alone : ι → BacktestEngine,
      (∀ g t, Run (init 0 0) (project part g 0 [] acts) t ↔ t = alone g) ∧
      (∀ id < s.orders_.length,
        (alone (part id)).status? (local_id part (part id) id) = s.status? id) ∧
      (∀ gs : Finset ι, (∀ id < s.orders_.length, part id ∈ gs) →
        s.base_ - base = ∑ g ∈ gs, (alone g).base_ ∧
          s.quote_ - quote = ∑ g ∈ gs, (alone g).quote_) ∧
      (s.failed = [] → ∀ g, (alone g).failed = []) ∧
      ∀ (part' : ℕ → ι) (acts' : List Action) (t : BacktestEngine),
        Run (init base quote) acts' t → Separated part' t → Reordered part acts part' acts' →
        t.base_ = s.base_ ∧ t.quote_ = s.quote_ ∧ (s.failed = [] → t.failed = []) ∧
          ∀ id < s.orders_.length, ∃ id' < t.orders_.length, part' id' = part id ∧
            local_id part' (part id) id' = local_id part (part id) id ∧
            t.status? id' = s.status? id := by
  have hs := sound_of_run h
  have hsep_s : Separated part s := fun ids hids => hsep ids ((grows_run h' hs).lists.subset hids)
  refine ⟨fun g => restrict part g s, fun g t => alone_iff h hsep_s, ?_, ?_, ?_, ?_⟩
  · intro id _
    exact restrict_status? s (by simp [of_group])
  · exact fun gs hgs => sum_restrict part hs (ledger_run h).1 gs hgs
  · exact fun hf g => (restrict_failed part).mp hf g
  · exact fun part' acts' t ht hsep' hre => reordered_same h hsep_s ht hsep' hre

end groups

/-- A limit buy, and a list of an entry and an exit, between the same candles in two orders. The
buy has the id 0 in the first run and the id 2 in the second. -/
def buy_then_list : List Action :=
  [.command (.NewOrder (.NewLimitOrder .kBuy 95 3)),
    .command (.NewOrderList (.NewOtoOrderList (.NewLimitOrder .kBuy 100 1)
      (.NewLimitOrder .kSell 110 1))),
    .candle (flat_candle 98), .command (.CancelOrder 0), .candle (flat_candle 120)]

def list_then_buy : List Action :=
  [.command (.NewOrderList (.NewOtoOrderList (.NewLimitOrder .kBuy 100 1)
      (.NewLimitOrder .kSell 110 1))),
    .command (.NewOrder (.NewLimitOrder .kBuy 95 3)),
    .candle (flat_candle 98), .command (.CancelOrder 2), .candle (flat_candle 120)]

theorem a_buy_and_a_list_run_as_if_alone :
    ∃ s t : BacktestEngine, Run (init 0 1000) buy_then_list s ∧
      Run (init 0 1000) list_then_buy t ∧ t.base_ = s.base_ ∧ t.quote_ = s.quote_ ∧
      ∃ alone : Bool → BacktestEngine, s.quote_ - 1000 = (alone true).quote_ + (alone false).quote_ ∧
        (alone true).status? 0 = s.status? 0 := by
  obtain ⟨s, hs, hlists⟩ : ∃ s, replay (fun _ _ => True) 9 buy_then_list (init 0 1000) = some s ∧
      s.order_lists_ = [[1, 2]] := ⟨_, rfl, by decide +kernel⟩
  obtain ⟨t, ht, hlists'⟩ : ∃ t, replay (fun _ _ => True) 9 list_then_buy (init 0 1000) = some t ∧
      t.order_lists_ = [[0, 1]] := ⟨_, rfl, by decide +kernel⟩
  have h := (run_of_replay _ hs).forget
  have h' := (run_of_replay _ ht).forget
  have hsep : Separated (fun id => id == 0) s := by
    unfold Separated
    rw [hlists]
    decide
  have hsep' : Separated (fun id => id == 2) t := by
    unfold Separated
    rw [hlists']
    decide
  obtain ⟨alone, _, hst, hsum, _, hre⟩ :=
    each_group_runs_as_if_alone (fun id => id == 0) 0 1000 buy_then_list [] s s h (.nil s) hsep
  obtain ⟨hb, hq, _⟩ := hre (fun id => id == 2) list_then_buy t h' hsep' (by
    unfold Reordered
    decide +kernel)
  obtain ⟨_, hquote⟩ := hsum Finset.univ (fun id _ => Finset.mem_univ _)
  have hlen : 0 < s.orders_.length := by
    cases hs
    decide +kernel
  refine ⟨s, t, h, h', hb, hq, alone, ?_, hst 0 hlen⟩
  rw [hquote, Fintype.sum_bool]

end BacktestEngine

end wedge.backtest2
