-- The invariant of the order book. It says how the links of the orders, the
-- queue, the statuses and the events of a run fit together, and every command,
-- every turn of a sweep and every sweep keeps it.
import Wedge.Backtest2.Effects

namespace wedge.backtest2

namespace BacktestEngine

/-! ## The views after a fill, a cancel and a placement -/

section views

variable (s : BacktestEngine) (id : ℕ) (o : OrderBase) (event : FillOrderEvent) (ids : List ℕ)

theorem restatus_children (f : ℕ → OrderStatus → OrderStatus) (t : BacktestEngine)
    (h : t.orders_ = restatus f s.orders_) (j : ℕ) : t.children j = s.children j := by
  unfold children
  rw [h, restatus_get]
  cases s.orders_[j]? <;> rfl

theorem restatus_rivals (f : ℕ → OrderStatus → OrderStatus) (t : BacktestEngine)
    (h : t.orders_ = restatus f s.orders_) (j : ℕ) : t.rivals j = s.rivals j := by
  unfold rivals
  rw [h, restatus_get]
  cases s.orders_[j]? <;> rfl

theorem restatus_meets (f : ℕ → OrderStatus → OrderStatus) (t : BacktestEngine)
    (h : t.orders_ = restatus f s.orders_) (j : ℕ) (candle : Candle) :
    t.meets j candle = s.meets j candle := by
  unfold meets
  rw [h, restatus_get]
  cases s.orders_[j]? <;> rfl

theorem restatus_status? (f : ℕ → OrderStatus → OrderStatus) (t : BacktestEngine)
    (h : t.orders_ = restatus f s.orders_) (j : ℕ) :
    t.status? j = (s.status? j).map (f j) := by
  unfold status?
  rw [h, restatus_get]
  cases s.orders_[j]? <;> rfl

@[simp] theorem filled_children (j : ℕ) : (s.filled id o event).children j = s.children j :=
  restatus_children s _ _ rfl j

@[simp] theorem filled_rivals (j : ℕ) : (s.filled id o event).rivals j = s.rivals j :=
  restatus_rivals s _ _ rfl j

@[simp] theorem filled_meets (j : ℕ) (candle : Candle) :
    (s.filled id o event).meets j candle = s.meets j candle := restatus_meets s _ _ rfl j candle

theorem filled_status? (j : ℕ) :
    (s.filled id o event).status? j = (s.status? j).map (after_fill id o j) :=
  restatus_status? s _ _ rfl j

@[simp] theorem filled_queue :
    (s.filled id o event).new_orders_ = s.new_orders_ ++ o.triggered_ := rfl

@[simp] theorem filled_length : (s.filled id o event).orders_.length = s.orders_.length := by
  simp [filled]

@[simp] theorem filled_fills : (s.filled id o event).fills = s.fills ++ [(id, event)] := by
  unfold fills filled fill_events
  split_ifs <;> simp

@[simp] theorem filled_fired : (s.filled id o event).fired = s.fired ++ [id] := by
  simp [fired]

@[simp] theorem canceled_children (j : ℕ) : (s.canceled ids).children j = s.children j :=
  restatus_children s _ _ rfl j

@[simp] theorem canceled_rivals (j : ℕ) : (s.canceled ids).rivals j = s.rivals j :=
  restatus_rivals s _ _ rfl j

theorem canceled_status? (j : ℕ) : (s.canceled ids).status? j =
    (s.status? j).map fun old => if j ∈ ids then .kCanceled else old :=
  restatus_status? s (fun j old => if j ∈ ids then .kCanceled else old) _ rfl j

@[simp] theorem canceled_length : (s.canceled ids).orders_.length = s.orders_.length := by
  simp [canceled]

variable (batch : List OrderBase) (lists : List (List ℕ))

theorem placed_get_old {j : ℕ} (h : j < s.orders_.length) :
    (s.placed batch lists).orders_[j]? = s.orders_[j]? :=
  List.getElem?_append_left h

theorem placed_get_new (i : ℕ) :
    (s.placed batch lists).orders_[s.orders_.length + i]? = batch[i]? := by
  simp [placed, List.getElem?_append_right]

/-- The orders of a new list, with their links. -/
theorem execute_list_get (list : NewOrderList) (i : ℕ) :
    (s.execute (.NewOrderList list)).orders_[s.orders_.length + i]? =
      (list_batch s.orders_.length list)[i]? := by
  rw [execute_list_eq, placed_get_new]

@[simp] theorem placed_length :
    (s.placed batch lists).orders_.length = s.orders_.length + batch.length := by
  simp [placed]

@[simp] theorem placed_queue :
    (s.placed batch lists).new_orders_ = s.new_orders_ ++ [s.orders_.length] := rfl

theorem mem_children {s : BacktestEngine} {w c : ℕ} :
    c ∈ s.children w ↔ ∃ o, s.orders_[w]? = some o ∧ c ∈ o.triggered_ := by
  unfold children
  cases s.orders_[w]? <;> simp

theorem mem_rivals {s : BacktestEngine} {x y : ℕ} :
    y ∈ s.rivals x ↔ ∃ o, s.orders_[x]? = some o ∧ y ∈ o.canceled_ := by
  unfold rivals
  cases s.orders_[x]? <;> simp

theorem children_of_get {s : BacktestEngine} {w : ℕ} {o : OrderBase} (h : s.orders_[w]? = some o) :
    s.children w = o.triggered_ := by
  simp [children, h]

theorem rivals_of_get {s : BacktestEngine} {w : ℕ} {o : OrderBase} (h : s.orders_[w]? = some o) :
    s.rivals w = o.canceled_ := by
  simp [rivals, h]

end views

/-! ## The links -/

/-- The links of the book: an order has at most one parent, a child is no parent, a parent has
no rivals, and two rivals are rivals of each other with the same parent. -/
structure Wired (s : BacktestEngine) : Prop where
  child_lt : ∀ w c, c ∈ s.children w → w < c ∧ c < s.orders_.length
  child_nodup : ∀ w, (s.children w).Nodup
  one_parent : ∀ w w' c, c ∈ s.children w → c ∈ s.children w' → w = w'
  flat : ∀ w c, c ∈ s.children w → s.children c = []
  solo : ∀ w, s.children w ≠ [] → s.rivals w = []
  rival_lt : ∀ x y, y ∈ s.rivals x → y < s.orders_.length ∧ y ≠ x
  rival_symm : ∀ x y, y ∈ s.rivals x → x ∈ s.rivals y
  rival_parent : ∀ w x y, y ∈ s.rivals x → y ∈ s.children w → x ∈ s.children w

theorem Wired.of_same {s t : BacktestEngine} (h : Wired s) (hc : ∀ j, t.children j = s.children j)
    (hr : ∀ j, t.rivals j = s.rivals j) (hl : t.orders_.length = s.orders_.length) : Wired t := by
  obtain ⟨h1, h2, h3, h4, h5, h6, h7, h8⟩ := h
  constructor <;> simp only [hc, hr, hl] <;> assumption

theorem wired_init (base quote : ℚ) : Wired (init base quote) := by
  constructor <;> simp [init, children, rivals]

theorem parent_lt {s : BacktestEngine} {w c : ℕ} (h : c ∈ s.children w) :
    w < s.orders_.length := by
  obtain ⟨o, ho, _⟩ := mem_children.mp h
  exact (List.getElem?_eq_some_iff.mp ho).1

theorem rival_of_lt {s : BacktestEngine} {x y : ℕ} (h : y ∈ s.rivals x) :
    x < s.orders_.length := by
  obtain ⟨o, ho, _⟩ := mem_rivals.mp h
  exact (List.getElem?_eq_some_iff.mp ho).1

section placement

variable {s : BacktestEngine} {o : OrderBase} {rest : List OrderBase} (lists : List (List ℕ))

theorem placed_children_old (batch : List OrderBase) {w : ℕ} (hw : w < s.orders_.length) :
    (s.placed batch lists).children w = s.children w := by
  simp [children, placed_get_old s batch lists hw]

theorem placed_children_first : (s.placed (o :: rest) lists).children s.orders_.length =
    o.triggered_ := by
  have h := placed_get_new s (o :: rest) lists 0
  simp only [Nat.add_zero, List.getElem?_cons_zero] at h
  exact children_of_get h

theorem placed_children_rest (h : Batch s.orders_.length o rest) {w : ℕ}
    (hw : s.orders_.length < w) : (s.placed (o :: rest) lists).children w = [] := by
  obtain ⟨i, rfl⟩ : ∃ i, w = s.orders_.length + (i + 1) := ⟨w - s.orders_.length - 1, by omega⟩
  unfold children
  rw [placed_get_new, List.getElem?_cons_succ]
  cases hx : rest[i]? with
  | none => rfl
  | some x => simp [(h.pending x (List.mem_of_getElem? hx)).2]

theorem placed_rivals_old (batch : List OrderBase) {x : ℕ} (hx : x < s.orders_.length) :
    (s.placed batch lists).rivals x = s.rivals x := by
  simp [rivals, placed_get_old s batch lists hx]

theorem placed_rivals_first : (s.placed (o :: rest) lists).rivals s.orders_.length =
    o.canceled_ := by
  have h := placed_get_new s (o :: rest) lists 0
  simp only [Nat.add_zero, List.getElem?_cons_zero] at h
  exact rivals_of_get h

/-- A child after a placement is an old child of an old order, or a child of the first new
order. -/
theorem placed_child (h : Batch s.orders_.length o rest) (w c : ℕ) :
    c ∈ (s.placed (o :: rest) lists).children w ↔
      c ∈ s.children w ∨ w = s.orders_.length ∧ c ∈ o.triggered_ := by
  rcases Nat.lt_trichotomy w s.orders_.length with hw | rfl | hw
  · rw [placed_children_old lists _ hw]
    constructor
    · exact Or.inl
    · rintro (h1 | ⟨h1, _⟩)
      · exact h1
      · omega
  · have hold : c ∉ s.children s.orders_.length := fun hc => by
      have := parent_lt hc
      omega
    simp [placed_children_first, hold]
  · have hold : c ∉ s.children w := fun hc => by
      have := parent_lt hc
      omega
    simp only [placed_children_rest lists h hw, List.not_mem_nil, hold, false_or, false_iff]
    omega

/-- The rivals of an old order are the old ones, and a new order has the rivals that it
came with. -/
theorem placed_rival (batch : List OrderBase) (x y : ℕ) :
    y ∈ (s.placed batch lists).rivals x ↔
      y ∈ s.rivals x ∨ ∃ i z, x = s.orders_.length + i ∧ batch[i]? = some z ∧ y ∈ z.canceled_ := by
  by_cases hx : x < s.orders_.length
  · rw [mem_rivals, mem_rivals, placed_get_old s _ _ hx]
    constructor
    · exact Or.inl
    · rintro (h1 | ⟨i, _, h1, _⟩)
      · exact h1
      · omega
  · have hold : y ∉ s.rivals x := fun hy => hx (rival_of_lt hy)
    obtain ⟨i, rfl⟩ : ∃ i, x = s.orders_.length + i := ⟨x - s.orders_.length, by omega⟩
    rw [mem_rivals, placed_get_new]
    simp only [hold, false_or]
    constructor
    · rintro ⟨z, hz, hy⟩
      exact ⟨i, z, rfl, hz, hy⟩
    · rintro ⟨j, z, hj, hz, hy⟩
      obtain rfl : i = j := by omega
      exact ⟨z, hz, hy⟩

theorem wired_placed (hb : Batch s.orders_.length o rest) (h : Wired s) :
    Wired (s.placed (o :: rest) lists) := by
  constructor
  · intro w c hc
    simp only [placed_length, List.length_cons]
    rcases (placed_child lists hb w c).mp hc with h1 | ⟨rfl, h1⟩
    · have := h.child_lt w c h1
      omega
    · exact hb.child c h1
  · intro w
    rcases Nat.lt_trichotomy w s.orders_.length with hw | rfl | hw
    · rw [placed_children_old lists _ hw]
      exact h.child_nodup w
    · rw [placed_children_first]
      exact hb.child_nodup
    · rw [placed_children_rest lists hb hw]
      exact List.nodup_nil
  · intro w w' c hc hc'
    rcases (placed_child lists hb w c).mp hc with h1 | ⟨rfl, h1⟩ <;>
      rcases (placed_child lists hb w' c).mp hc' with h2 | ⟨rfl, h2⟩
    · exact h.one_parent w w' c h1 h2
    · have := h.child_lt w c h1
      have := hb.child c h2
      omega
    · have := h.child_lt w' c h2
      have := hb.child c h1
      omega
    · rfl
  · intro w c hc
    rcases (placed_child lists hb w c).mp hc with h1 | ⟨rfl, h1⟩
    · rw [placed_children_old lists _ (h.child_lt w c h1).2]
      exact h.flat w c h1
    · exact placed_children_rest lists hb (hb.child c h1).1
  · intro w hw
    rcases Nat.lt_trichotomy w s.orders_.length with hlt | rfl | hlt
    · rw [placed_children_old lists _ hlt] at hw
      rw [placed_rivals_old lists _ hlt]
      exact h.solo w hw
    · rw [placed_children_first] at hw
      rw [placed_rivals_first]
      exact hb.solo hw
    · exact absurd (placed_children_rest lists hb hlt) hw
  · intro x y hy
    simp only [placed_length, List.length_cons]
    rcases (placed_rival lists _ x y).mp hy with h2 | ⟨i, z, rfl, hz, h2⟩
    · have := h.rival_lt x y h2
      omega
    · have := hb.rival i z y hz h2
      omega
  · intro x y hy
    rw [placed_rival]
    rcases (placed_rival lists _ x y).mp hy with h2 | ⟨i, z, rfl, hz, h2⟩
    · exact Or.inl (h.rival_symm x y h2)
    · obtain ⟨hle, _, _, ⟨z', hz', hx⟩, _⟩ := hb.rival i z y hz h2
      exact Or.inr ⟨y - s.orders_.length, z', by omega, hz', hx⟩
  · intro w x y hy hc
    rw [placed_child lists hb]
    rcases (placed_rival lists _ x y).mp hy with h2 | ⟨i, z, rfl, hz, h2⟩ <;>
      rcases (placed_child lists hb w y).mp hc with h1 | ⟨rfl, h1⟩
    · exact Or.inl (h.rival_parent w x y h2 h1)
    · have := h.rival_lt x y h2
      have := hb.child y h1
      omega
    · have := h.child_lt w y h1
      have := hb.rival i z y hz h2
      omega
    · exact Or.inr ⟨rfl, (hb.rival i z y hz h2).2.2.2.2 h1⟩

end placement

/-! ## The invariant -/

/-- How the queue, the statuses and the fill events of a run fit together. A child waits
until its parent fires: it is in no queue and has no fill, and so it is queued only once. -/
structure Sound (s : BacktestEngine) : Prop where
  wired : Wired s
  list_lt : ∀ ids ∈ s.order_lists_, ∀ id ∈ ids, id < s.orders_.length
  queue_lt : ∀ id ∈ s.new_orders_, id < s.orders_.length
  queue_nodup : s.new_orders_.Nodup
  new_queued : ∀ id, s.status? id = some .kNew → id ∈ s.new_orders_
  fired_nodup : s.fired.Nodup
  fired_status : ∀ x ∈ s.fired, s.status? x = some .kFilled ∨ s.status? x = some .kCanceled
  filled_fired : ∀ x, s.status? x = some .kFilled → x ∈ s.fired
  waiting : ∀ w c, c ∈ s.children w → w ∉ s.fired → c ∉ s.new_orders_ ∧ c ∉ s.fired ∧
    (s.status? c = some .kPendingNew ∨ s.status? c = some .kCanceled)
  rival_down : ∀ x ∈ s.fired, ∀ y ∈ s.rivals x, s.status? y = some .kCanceled

theorem sound_init (base quote : ℚ) : Sound (init base quote) := by
  refine ⟨wired_init base quote, ?_, ?_, ?_, ?_, ?_, ?_, ?_, ?_, ?_⟩ <;>
    simp [init, status?, children, fired, fills]

theorem status?_of_lt {s : BacktestEngine} {j : ℕ} (h : j < s.orders_.length) :
    ∃ st, s.status? j = some st := by
  simp [status?, List.getElem?_eq_getElem h]

section fill

variable {s : BacktestEngine} {id : ℕ} {o : OrderBase}

theorem Wired.not_self_child (h : Wired s) : id ∉ s.children id := fun hc =>
  absurd (h.child_lt id id hc).1 (Nat.lt_irrefl id)

theorem Wired.child_not_rival (h : Wired s) {j : ℕ} (hc : j ∈ s.children id) :
    j ∉ s.rivals id := fun hr => h.not_self_child (h.rival_parent id id j hr hc)

theorem filled_status_rival (event : FillOrderEvent) (h : Wired s) (ho : s.orders_[id]? = some o)
    {j : ℕ} (hr : j ∈ s.rivals id) : (s.filled id o event).status? j = some .kCanceled := by
  obtain ⟨st, hst⟩ := status?_of_lt (h.rival_lt id j hr).1
  rw [filled_status?, hst]
  simp [after_fill, ← rivals_of_get ho, hr]

theorem filled_status_child (event : FillOrderEvent) (h : Wired s) (ho : s.orders_[id]? = some o)
    {j : ℕ} (hc : j ∈ s.children id) : (s.filled id o event).status? j = some .kNew := by
  obtain ⟨st, hst⟩ := status?_of_lt (h.child_lt id j hc).2
  rw [filled_status?, hst]
  simp [after_fill, ← rivals_of_get ho, ← children_of_get ho, h.child_not_rival hc, hc]

theorem filled_status_self (event : FillOrderEvent) (h : Wired s)
    (ho : s.orders_[id]? = some o) : (s.filled id o event).status? id = some .kFilled := by
  have hr : id ∉ s.rivals id := fun hr => (h.rival_lt id id hr).2 rfl
  rw [filled_status?, status?_of_get ho]
  simp [after_fill, ← rivals_of_get ho, ← children_of_get ho, hr, h.not_self_child]

theorem filled_status_other (event : FillOrderEvent) (ho : s.orders_[id]? = some o) {j : ℕ}
    (hr : j ∉ s.rivals id) (hc : j ∉ s.children id) (hj : j ≠ id) :
    (s.filled id o event).status? j = s.status? j := by
  rw [filled_status?]
  unfold after_fill
  rw [← rivals_of_get ho, ← children_of_get ho]
  simp [hr, hc, hj]

/-- The status of every order after a fill, by the links of the order that fills. -/
theorem filled_status_cases (event : FillOrderEvent) (h : Wired s)
    (ho : s.orders_[id]? = some o) (j : ℕ) :
    (j ∈ s.rivals id ∧ (s.filled id o event).status? j = some .kCanceled) ∨
    (j ∈ s.children id ∧ (s.filled id o event).status? j = some .kNew) ∨
    (j = id ∧ (s.filled id o event).status? j = some .kFilled) ∨
    (j ∉ s.rivals id ∧ j ∉ s.children id ∧ j ≠ id ∧
      (s.filled id o event).status? j = s.status? j) := by
  by_cases hr : j ∈ s.rivals id
  · exact Or.inl ⟨hr, filled_status_rival event h ho hr⟩
  by_cases hc : j ∈ s.children id
  · exact Or.inr (Or.inl ⟨hc, filled_status_child event h ho hc⟩)
  by_cases hj : j = id
  · subst hj
    exact Or.inr (Or.inr (Or.inl ⟨rfl, filled_status_self event h ho⟩))
  · exact Or.inr (Or.inr (Or.inr ⟨hr, hc, hj, filled_status_other event ho hr hc hj⟩))

theorem Wired.parent_not_rival (h : Wired s) {w : ℕ} (hw : s.children w ≠ []) :
    w ∉ s.rivals id := fun hr => by
  have := h.rival_symm id w hr
  rw [h.solo w hw] at this
  cases this

/-- A parent that is new stays new when another order fills. -/
theorem filled_keeps_parent (event : FillOrderEvent) (h : Wired s) (ho : s.orders_[id]? = some o)
    {w : ℕ} (hw : s.children w ≠ []) (hnew : s.status? w = some .kNew) (hne : w ≠ id) :
    (s.filled id o event).status? w = some .kNew := by
  rcases filled_status_cases event h ho w with ⟨h1, _⟩ | ⟨_, h1⟩ | ⟨h1, _⟩ | ⟨_, _, _, h1⟩
  · exact absurd h1 (h.parent_not_rival hw)
  · exact h1
  · exact absurd h1 hne
  · rw [h1, hnew]

theorem Sound.not_fired_of_new (h : Sound s) (hnew : s.status? id = some .kNew) :
    id ∉ s.fired := fun hf => by
  rcases h.fired_status id hf with h1 | h1 <;> rw [hnew] at h1 <;> cases h1

/-- A new order has no parent that has not fired. -/
theorem Sound.parent_fired (h : Sound s) {w : ℕ} (hnew : s.status? id = some .kNew)
    (hc : id ∈ s.children w) : w ∈ s.fired := by
  by_contra hw
  rcases (h.waiting w id hc hw).2.2 with h1 | h1 <;> rw [hnew] at h1 <;> cases h1

/-- No rival of a new order has fired. -/
theorem Sound.rival_not_fired (h : Sound s) {x : ℕ} (hnew : s.status? id = some .kNew)
    (hr : x ∈ s.rivals id) : x ∉ s.fired := fun hx => by
  have := h.rival_down x hx id (h.wired.rival_symm id x hr)
  rw [hnew] at this
  cases this

/-- A child of a new order has not fired. -/
theorem Sound.child_not_fired (h : Sound s) {c : ℕ} (hnew : s.status? id = some .kNew)
    (hc : c ∈ s.children id) : c ∉ s.fired :=
  (h.waiting id c hc (h.not_fired_of_new hnew)).2.1

theorem Sound.filled_fired_status (event : FillOrderEvent) (h : Sound s)
    (ho : s.orders_[id]? = some o) (hnew : s.status? id = some .kNew) {x : ℕ}
    (hx : x ∈ s.fired ∨ x = id) : (s.filled id o event).status? x = some .kFilled ∨
      (s.filled id o event).status? x = some .kCanceled := by
  rcases filled_status_cases event h.wired ho x with
    ⟨_, h1⟩ | ⟨h1, _⟩ | ⟨_, h1⟩ | ⟨_, _, h1, h2⟩
  · exact Or.inr h1
  · rcases hx with hx | rfl
    · exact absurd hx (h.child_not_fired hnew h1)
    · exact absurd h1 h.wired.not_self_child
  · exact Or.inl h1
  · rcases hx with hx | rfl
    · rw [h2]
      exact h.fired_status x hx
    · exact absurd rfl h1

/-- A child of another order waits as before. -/
theorem Sound.filled_waiting (event : FillOrderEvent) (h : Sound s) (ho : s.orders_[id]? = some o)
    (hnew : s.status? id = some .kNew) {w c : ℕ} (hc : c ∈ s.children w) (hf : w ∉ s.fired)
    (hne : w ≠ id) : c ∉ (s.filled id o event).new_orders_ ∧ c ∉ (s.filled id o event).fired ∧
      ((s.filled id o event).status? c = some .kPendingNew ∨
        (s.filled id o event).status? c = some .kCanceled) := by
  obtain ⟨hq, hidle, hst⟩ := h.waiting w c hc hf
  have hnc : c ∉ s.children id := fun h1 => hne (h.wired.one_parent w id c hc h1)
  have hnot : c ≠ id := by
    rintro rfl
    exact hf (h.parent_fired hnew hc)
  refine ⟨?_, ?_, ?_⟩
  · rw [filled_queue, List.mem_append, ← children_of_get ho]
    exact not_or.mpr ⟨hq, hnc⟩
  · rw [BacktestEngine.filled_fired, List.mem_append, List.mem_singleton]
    exact not_or.mpr ⟨hidle, hnot⟩
  · rcases filled_status_cases event h.wired ho c with
      ⟨_, h1⟩ | ⟨h1, _⟩ | ⟨h1, _⟩ | ⟨_, _, _, h1⟩
    · exact Or.inr h1
    · exact absurd h1 hnc
    · exact absurd h1 hnot
    · rw [h1]
      exact hst

theorem Sound.filled_rival_down (event : FillOrderEvent) (h : Sound s)
    (ho : s.orders_[id]? = some o) (hnew : s.status? id = some .kNew) {x y : ℕ}
    (hx : x ∈ s.fired ∨ x = id) (hy : y ∈ s.rivals x) :
    (s.filled id o event).status? y = some .kCanceled := by
  have hw := h.wired
  rcases filled_status_cases event hw ho y with ⟨_, h1⟩ | ⟨h1, _⟩ | ⟨rfl, _⟩ | ⟨h1, _, _, h2⟩
  · exact h1
  · -- A child of the order has a rival with the same parent, and that rival has not fired.
    rcases hx with hx | rfl
    · exact absurd hx (h.child_not_fired hnew (hw.rival_parent id x y hy h1))
    · exact absurd hy (hw.child_not_rival h1)
  · rcases hx with hx | rfl
    · exact absurd hx (h.rival_not_fired hnew (hw.rival_symm x y hy))
    · exact absurd rfl (hw.rival_lt x x hy).2
  · rcases hx with hx | rfl
    · rw [h2]
      exact h.rival_down x hx y hy
    · exact absurd hy h1

theorem sound_filled (event : FillOrderEvent) (h : Sound s) (ho : s.orders_[id]? = some o)
    (hnew : s.status? id = some .kNew) : Sound (s.filled id o event) := by
  have hw := h.wired
  have hch := children_of_get ho
  have hidle := h.not_fired_of_new hnew
  have hcases := filled_status_cases event hw ho
  have hfired : ∀ x, x ∈ (s.filled id o event).fired ↔ x ∈ s.fired ∨ x = id := fun x => by
    rw [filled_fired, List.mem_append, List.mem_singleton]
  refine ⟨hw.of_same (by simp) (by simp) (by simp), ?_, ?_, ?_, ?_, ?_, ?_, ?_, ?_, ?_⟩
  · intro ids hids
    simp only [filled_length]
    exact h.list_lt ids hids
  · intro j hj
    simp only [filled_queue, List.mem_append, filled_length] at hj ⊢
    rcases hj with hj | hj
    · exact h.queue_lt j hj
    · exact (hw.child_lt id j (hch ▸ hj)).2
  · rw [filled_queue, List.nodup_append, ← hch]
    refine ⟨h.queue_nodup, hw.child_nodup id, ?_⟩
    rintro a ha b hb rfl
    exact (h.waiting id a hb hidle).1 ha
  · intro j hj
    rw [filled_queue, List.mem_append, ← hch]
    rcases hcases j with ⟨_, h1⟩ | ⟨h1, _⟩ | ⟨_, h1⟩ | ⟨_, _, _, h1⟩
    · rw [hj] at h1; cases h1
    · exact Or.inr h1
    · rw [hj] at h1; cases h1
    · exact Or.inl (h.new_queued j (h1 ▸ hj))
  · rw [filled_fired, List.nodup_append]
    refine ⟨h.fired_nodup, List.nodup_singleton id, ?_⟩
    rintro a ha b hb rfl
    rw [List.mem_singleton.mp hb] at ha
    exact hidle ha
  · intro x hx
    exact h.filled_fired_status event ho hnew ((hfired x).mp hx)
  · intro x hx
    rw [hfired]
    rcases hcases x with ⟨_, h1⟩ | ⟨_, h1⟩ | ⟨h1, _⟩ | ⟨_, _, _, h1⟩
    · rw [hx] at h1; cases h1
    · rw [hx] at h1; cases h1
    · exact Or.inr h1
    · exact Or.inl (h.filled_fired x (h1 ▸ hx))
  · intro w c hc hwf
    rw [filled_children] at hc
    rw [hfired, not_or] at hwf
    exact h.filled_waiting event ho hnew hc hwf.1 hwf.2
  · intro x hx y hy
    rw [filled_rivals] at hy
    exact h.filled_rival_down event ho hnew ((hfired x).mp hx) hy

end fill

theorem sound_canceled {s : BacktestEngine} (ids : List ℕ) (h : Sound s) :
    Sound (s.canceled ids) := by
  have hcases : ∀ j st, s.status? j = some st → (s.canceled ids).status? j = some .kCanceled ∨
      (s.canceled ids).status? j = some st := by
    intro j st hst
    rw [canceled_status?, hst]
    by_cases hj : j ∈ ids <;> simp [hj]
  have hback : ∀ j st, (s.canceled ids).status? j = some st → st ≠ .kCanceled →
      s.status? j = some st := by
    intro j st hst hne
    rw [canceled_status?, Option.map_eq_some_iff] at hst
    obtain ⟨old, hold, h1⟩ := hst
    split at h1
    · exact absurd h1.symm hne
    · rw [hold, h1]
  refine ⟨h.wired.of_same (by simp) (by simp) (by simp), ?_, ?_, h.queue_nodup, ?_,
    h.fired_nodup, ?_, ?_, ?_, ?_⟩
  · intro i hi
    rw [canceled_length]
    exact h.list_lt i hi
  · intro j hj
    rw [canceled_length]
    exact h.queue_lt j hj
  · intro j hj
    exact h.new_queued j (hback j _ hj (by simp))
  · intro x hx
    rcases h.fired_status x hx with h1 | h1
    · exact (hcases x _ h1).symm
    · exact Or.inr ((hcases x _ h1).elim id id)
  · intro x hx
    exact h.filled_fired x (hback x _ hx (by simp))
  · intro w c hc hw
    rw [canceled_children] at hc
    obtain ⟨hq, hf, hst⟩ := h.waiting w c hc hw
    refine ⟨hq, hf, ?_⟩
    rcases hst with h1 | h1
    · exact (hcases c _ h1).symm
    · exact Or.inr ((hcases c _ h1).elim id id)
  · intro x hx y hy
    rw [canceled_rivals] at hy
    exact (hcases y _ (h.rival_down x hx y hy)).elim id id

section placement

variable {s : BacktestEngine} {o : OrderBase} {rest : List OrderBase} (lists : List (List ℕ))

theorem placed_status_old (batch : List OrderBase) {j : ℕ} (hj : j < s.orders_.length) :
    (s.placed batch lists).status? j = s.status? j := by
  simp [status?, placed_get_old s batch lists hj]

theorem placed_status_first (hb : Batch s.orders_.length o rest) :
    (s.placed (o :: rest) lists).status? s.orders_.length = some .kNew := by
  have h := placed_get_new s (o :: rest) lists 0
  simp only [Nat.add_zero, List.getElem?_cons_zero] at h
  rw [status?_of_get h, hb.head]

theorem placed_status_rest (hb : Batch s.orders_.length o rest) {j : ℕ} {st : OrderStatus}
    (hj : s.orders_.length < j) (hst : (s.placed (o :: rest) lists).status? j = some st) :
    st = .kPendingNew := by
  obtain ⟨i, rfl⟩ : ∃ i, j = s.orders_.length + (i + 1) := ⟨j - s.orders_.length - 1, by omega⟩
  obtain ⟨x, hx, rfl⟩ := exists_get_of_status? hst
  rw [placed_get_new, List.getElem?_cons_succ] at hx
  exact (hb.pending x (List.mem_of_getElem? hx)).1

theorem Sound.fired_lt (h : Sound s) {x : ℕ} (hx : x ∈ s.fired) : x < s.orders_.length := by
  rcases h.fired_status x hx with h1 | h1 <;> exact status?_lt h1

/-- The children of the first new order wait, and so do those of the old orders. -/
theorem Sound.placed_waiting (hb : Batch s.orders_.length o rest) (h : Sound s) {w c : ℕ}
    (hc : c ∈ (s.placed (o :: rest) lists).children w) (hw : w ∉ s.fired) :
    c ∉ (s.placed (o :: rest) lists).new_orders_ ∧ c ∉ s.fired ∧
      ((s.placed (o :: rest) lists).status? c = some .kPendingNew ∨
        (s.placed (o :: rest) lists).status? c = some .kCanceled) := by
  rw [placed_queue, List.mem_append, List.mem_singleton, not_or]
  rcases (placed_child lists hb w c).mp hc with h1 | ⟨rfl, h1⟩
  · obtain ⟨hq, hf, hst⟩ := h.waiting w c h1 hw
    have hlt := (h.wired.child_lt w c h1).2
    rw [placed_status_old lists _ hlt]
    exact ⟨⟨hq, Nat.ne_of_lt hlt⟩, hf, hst⟩
  · obtain ⟨hgt, hlt⟩ := hb.child c h1
    have hold : ¬ c < s.orders_.length := Nat.not_lt_of_le (Nat.le_of_lt hgt)
    refine ⟨⟨fun hq => hold (h.queue_lt c hq), Nat.ne_of_gt hgt⟩,
      fun hf => hold (h.fired_lt hf), Or.inl ?_⟩
    obtain ⟨st, hst⟩ := status?_of_lt (s := s.placed (o :: rest) lists) (j := c)
      (by rw [placed_length, List.length_cons]; exact hlt)
    rw [hst, placed_status_rest lists hb hgt hst]

theorem sound_placed (hb : Batch s.orders_.length o rest)
    (hl : ∀ ids ∈ lists, ∀ id ∈ ids, id < s.orders_.length + (rest.length + 1)) (h : Sound s) :
    Sound (s.placed (o :: rest) lists) := by
  have hback : ∀ j st, (s.placed (o :: rest) lists).status? j = some st → st ≠ .kPendingNew →
      j = s.orders_.length ∧ st = .kNew ∨ s.status? j = some st := by
    intro j st hst hne
    rcases Nat.lt_trichotomy j s.orders_.length with hj | rfl | hj
    · rw [placed_status_old lists _ hj] at hst
      exact Or.inr hst
    · rw [placed_status_first lists hb] at hst
      cases hst
      exact Or.inl ⟨rfl, rfl⟩
    · exact absurd (placed_status_rest lists hb hj hst) hne
  refine ⟨wired_placed lists hb h.wired, ?_, ?_, ?_, ?_, h.fired_nodup, ?_, ?_, ?_, ?_⟩
  · intro ids hids id hid
    rw [placed_length, List.length_cons]
    rcases List.mem_append.mp hids with hids | hids
    · have := h.list_lt ids hids id hid
      omega
    · exact hl ids hids id hid
  · intro j hj
    rw [placed_length, List.length_cons]
    rcases List.mem_append.mp hj with hj | hj
    · have := h.queue_lt j hj
      omega
    · rw [List.mem_singleton.mp hj]
      omega
  · rw [placed_queue, List.nodup_append]
    refine ⟨h.queue_nodup, List.nodup_singleton _, ?_⟩
    rintro a ha b hb rfl
    have := h.queue_lt a ha
    rw [List.mem_singleton.mp hb] at this
    omega
  · intro j hj
    rw [placed_queue, List.mem_append, List.mem_singleton]
    rcases hback j _ hj (by simp) with ⟨h1, _⟩ | h1
    · exact Or.inr h1
    · exact Or.inl (h.new_queued j h1)
  · intro x hx
    rw [placed_status_old lists _ (h.fired_lt hx)]
    exact h.fired_status x hx
  · intro x hx
    rcases hback x _ hx (by simp) with ⟨_, h1⟩ | h1
    · cases h1
    · exact h.filled_fired x h1
  · intro w c hc hw
    exact h.placed_waiting lists hb hc hw
  · intro x hx y hy
    rcases (placed_rival lists _ x y).mp hy with h1 | ⟨i, z, rfl, _⟩
    · rw [placed_status_old lists _ (h.wired.rival_lt x y h1).1]
      exact h.rival_down x hx y h1
    · have := h.fired_lt hx
      omega

end placement

/-! ## The steps keep the invariant -/

theorem sound_execute {s : BacktestEngine} (c : Command) (h : Sound s) : Sound (s.execute c) := by
  rcases execute_cases s c with he | ⟨_, o, rest, lists, he, hb, hl⟩
  · rw [he]
    exact sound_canceled _ h
  · rw [he]
    exact sound_placed lists hb (fun ids hids id hid => (hl ids hids id hid).2) h

/-- One turn of the sweep, in a sound book: a fill of a new order whose condition the candle
meets, or nothing. -/
theorem update_order_cases {s : BacktestEngine} (h : Wired s) (candle : Candle) (id : ℕ) :
    (∃ o, s.orders_[id]? = some o ∧ s.status? id = some .kNew ∧ s.meets id candle = true ∧
      s.update_order candle id = s.filled id o (o.fill_event candle)) ∨
    (¬ (s.status? id = some .kNew ∧ s.meets id candle = true) ∧
      s.update_order candle id = s) := by
  cases ho : s.orders_[id]? with
  | none => exact Or.inr ⟨by simp [status?, ho], by simp [update_order, ho]⟩
  | some o =>
    have hch := children_of_get ho
    rw [update_order_eq candle ho (hch ▸ h.child_nodup id) (hch ▸ h.not_self_child)]
    have hst := status?_of_get ho
    have hm : s.meets id candle = o.meets candle := by simp [meets, ho]
    by_cases hc : o.status_ = .kNew ∧ o.meets candle = true
    · rw [if_pos hc]
      exact Or.inl ⟨o, rfl, by rw [hst, hc.1], by rw [hm, hc.2], rfl⟩
    · rw [if_neg hc, hst, hm]
      exact Or.inr ⟨fun h1 => hc ⟨Option.some.inj h1.1, h1.2⟩, rfl⟩

/-- What a fill of a new order keeps, a turn keeps. -/
theorem turn_of_fill {s : BacktestEngine} {candle : Candle} {id : ℕ} {p : BacktestEngine → Prop}
    (h : Wired s) (hfill : ∀ o, s.orders_[id]? = some o → s.status? id = some .kNew →
      s.meets id candle = true → p (s.filled id o (o.fill_event candle))) (hp : p s) :
    p (s.update_order candle id) := by
  rcases update_order_cases h candle id with ⟨o, ho, hnew, hm, he⟩ | ⟨_, he⟩
  · rw [he]
    exact hfill o ho hnew hm
  · rw [he]
    exact hp

theorem sound_update_order {s : BacktestEngine} (candle : Candle) (id : ℕ) (h : Sound s) :
    Sound (s.update_order candle id) :=
  turn_of_fill h.wired (fun _ ho hnew _ => sound_filled _ h ho hnew) h

theorem remove_stale_mem (s : BacktestEngine) (id : ℕ) :
    id ∈ s.remove_stale.new_orders_ ↔ id ∈ s.new_orders_ ∧ s.status? id = some .kNew := by
  simp [remove_stale, List.mem_filter, is_status_eq]

theorem sound_remove_stale {s : BacktestEngine} (h : Sound s) : Sound s.remove_stale := by
  refine ⟨h.wired.of_same (fun _ => rfl) (fun _ => rfl) rfl, h.list_lt, ?_, ?_, ?_,
    h.fired_nodup, h.fired_status, h.filled_fired, ?_, h.rival_down⟩
  · intro id hid
    exact h.queue_lt id ((remove_stale_mem s id).mp hid).1
  · exact h.queue_nodup.filter _
  · intro id hid
    exact (remove_stale_mem s id).mpr ⟨h.new_queued id hid, hid⟩
  · intro w c hc hw
    obtain ⟨hq, hrest⟩ := h.waiting w c hc hw
    exact ⟨fun h1 => hq ((remove_stale_mem s c).mp h1).1, hrest⟩

end BacktestEngine

end wedge.backtest2
