-- The traversal of the open orders in the old backtest engine, for any strategy:
-- which orders it tries, when it calls the strategy, and which orders it leaves.
import Wedge.Backtest.Bookkeeping

namespace wedge

open programs containers runs

/-! ## The log of a traversal -/

/-- What a traversal does. The first index of a placement and of a cancel is the order that the
strategy was called for. -/
inductive SweepEvent
  | tried (index : OrderIndex) (executed : Bool)
  | called (index : OrderIndex)
  | placed (caller index : OrderIndex) (order : OrderCall)
  | canceled (caller index : OrderIndex)
  deriving DecidableEq, Repr

namespace SweepEvent

def tried_index : SweepEvent → Option OrderIndex
  | .tried index _ => some index
  | _ => none

def executed_index : SweepEvent → Option OrderIndex
  | .tried index true => some index
  | _ => none

def called_index : SweepEvent → Option OrderIndex
  | .called index => some index
  | _ => none

def canceled_index : SweepEvent → Option OrderIndex
  | .canceled _ index => some index
  | _ => none

end SweepEvent

abbrev SweepLog := List SweepEvent

namespace sweep

/-- The orders that the traversal tries, in order. -/
def tried (log : SweepLog) : List OrderIndex := log.filterMap SweepEvent.tried_index

/-- The orders that the traversal executes, in order. -/
def executed (log : SweepLog) : List OrderIndex := log.filterMap SweepEvent.executed_index

/-- The orders that `on_order_filled` is called for, in order. -/
def called (log : SweepLog) : List OrderIndex := log.filterMap SweepEvent.called_index

/-- The orders that the strategy cancels, in order. -/
def canceled (log : SweepLog) : List OrderIndex := log.filterMap SweepEvent.canceled_index

/-- The strategy placed the order under the index and did not cancel it afterwards. -/
def PlacedAndKept (log : SweepLog) (e : OrderIndex × OrderCall) : Prop :=
  ∃ caller before after, log = before ++ .placed caller e.1 e.2 :: after ∧ e.1 ∉ canceled after

/-- What a call of the broker in a callback adds to the log. -/
def callback_event (caller : OrderIndex) : ((op : BrokerCall) × op.Answer) → Option SweepEvent
  | ⟨.place order, index⟩ => some (.placed caller index order)
  | ⟨.cancel index, _⟩ => some (.canceled caller index)
  | ⟨.account, _⟩ => none

end sweep

open sweep

namespace BacktestRun

variable {σ : Type}

/-- What the next step adds to the log. -/
def emitted (S : IStrategy σ) (r : BacktestRun σ) (_ : Unit) : SweepLog :=
  match r.pc with
  | .visit (some index) last_index candle =>
    if index < last_index then
      match r.context.orders_.find index with
      | none => []
      | some order => [.tried index (order.update r.context candle).1]
    else []
  | .filled index _ _ => .called index ::
      (trace BacktestBroker (S.on_order_filled index r.strategy) r.context).filterMap
        (callback_event index)
  | _ => []

theorem emitted_pass {S : IStrategy σ} {r : BacktestRun σ} {k last : OrderIndex}
    {candle : Candle} {order : OrderCall} {a : Unit} (hpc : r.pc = .visit (some k) last candle)
    (hlt : k < last) (hfind : r.context.orders_.find k = some order)
    (hexec : ¬ order.Executes r.context candle) : emitted S r a = [.tried k false] := by
  simp [emitted, hpc, hlt, hfind, OrderCall.update_eq, hexec]

theorem emitted_trade {S : IStrategy σ} {r : BacktestRun σ} {k last : OrderIndex}
    {candle : Candle} {order : OrderCall} {a : Unit} (hpc : r.pc = .visit (some k) last candle)
    (hlt : k < last) (hfind : r.context.orders_.find k = some order)
    (hexec : order.Executes r.context candle) : emitted S r a = [.tried k true] := by
  simp [emitted, hpc, hlt, hfind, OrderCall.update_eq, hexec]

/-- The places inside `update_orders`. -/
def Sweeping (r : BacktestRun σ) (_ : Unit) : Prop :=
  match r.pc with
  | .visit _ _ _ => True
  | .filled _ _ _ => True
  | .reported _ _ _ => True
  | _ => False

/-- The steps of `update_orders`. -/
abbrev SweepStep (S : IStrategy σ) := Where (Step S) Sweeping

/-- The next callback, if one is due, ends and does not cancel the order that it is told
about. -/
def Spares (S : IStrategy σ) (r : BacktestRun σ) : Prop :=
  match r.pc with
  | .filled index _ _ =>
    Obeys BacktestBroker (fun op _ => op ≠ .cancel index) (S.on_order_filled index r.strategy)
        r.context ∧
      ∃ strategy context,
        run BacktestBroker (S.on_order_filled index r.strategy) r.context =
          (.ok strategy, context)
  | _ => True

end BacktestRun

/-! ## The law -/

/-- The law of one traversal, from the map at its start to the map at its end. -/
structure SweepLaw (start : Map OrderIndex OrderCall) (log : SweepLog)
    (finish : Map OrderIndex OrderCall) : Prop where
  ascending : (tried log).Pairwise (· < ·)
  only_open : ∀ i ∈ tried log, i ∈ start.keys
  each_open : ∀ i ∈ start.keys, i ∈ tried log ∨ ∃ caller < i, .canceled caller i ∈ log
  not_after_cancel : ∀ i b before after, log = before ++ .tried i b :: after →
    i ∉ canceled before
  never_placed : ∀ caller i order, .placed caller i order ∈ log → i ∉ tried log
  calls : called log = executed log
  finish : ∀ e, e ∈ finish ↔
    (e ∈ start ∧ e.1 ∉ executed log ∧ e.1 ∉ canceled log) ∨ PlacedAndKept log e

/-! ## The log grows by one event -/

namespace sweep

variable {log : SweepLog} {x : SweepEvent}

theorem snoc_split {y : SweepEvent} {before after : SweepLog} :
    log ++ [x] = before ++ y :: after ↔
      (after = [] ∧ before = log ∧ x = y) ∨
        ∃ rest, after = rest ++ [x] ∧ log = before ++ y :: rest := by
  constructor
  · intro h
    rcases List.eq_nil_or_concat after with rfl | ⟨rest, z, rfl⟩
    · obtain ⟨h1, h2⟩ := List.append_inj' h rfl
      cases h2
      exact Or.inl ⟨rfl, h1.symm, rfl⟩
    · have h' : log ++ [x] = (before ++ y :: rest) ++ [z] := by simpa using h
      obtain ⟨h1, h2⟩ := List.append_inj' h' rfl
      cases h2
      exact Or.inr ⟨rest, by simp, h1⟩
  · rintro (⟨rfl, rfl, rfl⟩ | ⟨rest, rfl, rfl⟩)
    · rfl
    · simp

theorem called_append (log log' : SweepLog) : called (log ++ log') = called log ++ called log' :=
  List.filterMap_append

@[simp] theorem tried_snoc : tried (log ++ [x]) = tried log ++ x.tried_index.toList := by
  unfold tried
  rw [List.filterMap_append]
  cases h : x.tried_index <;> simp [h]

@[simp] theorem executed_snoc :
    executed (log ++ [x]) = executed log ++ x.executed_index.toList := by
  unfold executed
  rw [List.filterMap_append]
  cases h : x.executed_index <;> simp [h]

@[simp] theorem called_snoc : called (log ++ [x]) = called log ++ x.called_index.toList := by
  unfold called
  rw [List.filterMap_append]
  cases h : x.called_index <;> simp [h]

@[simp] theorem canceled_snoc :
    canceled (log ++ [x]) = canceled log ++ x.canceled_index.toList := by
  unfold canceled
  rw [List.filterMap_append]
  cases h : x.canceled_index <;> simp [h]

theorem placedAndKept_snoc {e : OrderIndex × OrderCall} :
    PlacedAndKept (log ++ [x]) e ↔
      (PlacedAndKept log e ∧ x.canceled_index ≠ some e.1) ∨
        ∃ caller, x = .placed caller e.1 e.2 := by
  unfold PlacedAndKept
  constructor
  · rintro ⟨caller, before, after, h, hc⟩
    rcases snoc_split.mp h with ⟨_, _, rfl⟩ | ⟨rest, rfl, hl⟩
    · exact Or.inr ⟨caller, rfl⟩
    · rw [canceled_snoc, List.mem_append, not_or] at hc
      refine Or.inl ⟨⟨caller, before, rest, hl, hc.1⟩, fun hx => hc.2 ?_⟩
      rw [hx]
      simp
  · rintro (⟨⟨caller, before, after, rfl, hc⟩, hx⟩ | ⟨caller, rfl⟩)
    · refine ⟨caller, before, after ++ [x], by simp, ?_⟩
      rw [canceled_snoc, List.mem_append, not_or]
      refine ⟨hc, fun hm => hx ?_⟩
      simpa [eq_comm] using hm
    · exact ⟨caller, log, [], rfl, List.not_mem_nil⟩

theorem PlacedAndKept.mem {e : OrderIndex × OrderCall} (h : PlacedAndKept log e) :
    ∃ caller, .placed caller e.1 e.2 ∈ log := by
  obtain ⟨caller, before, after, rfl, _⟩ := h
  exact ⟨caller, by simp⟩

/-! ## The invariant -/

/-- What holds inside a traversal that started with the map `start` and the bound `last`. The
orders of `gone` are executed and erased. `behind` says which indices the iterator has passed:
an order of the start that was not tried is in front of it, or an earlier callback canceled
it. -/
structure Turn (start : Map OrderIndex OrderCall) (last : OrderIndex) (gone : List OrderIndex)
    (behind : OrderIndex → Prop) (log : SweepLog) (c : BacktestContext) : Prop where
  fits : c.Fits last
  ascending : c.orders_.Ascending
  placed_new : ∀ caller i order, .placed caller i order ∈ log →
    last ≤ i ∧ i < c.last_order_index_
  entries : ∀ e, e ∈ c.orders_ ↔
    (e ∈ start ∧ e.1 ∉ gone ∧ e.1 ∉ canceled log) ∨ PlacedAndKept log e
  tried_ascending : (tried log).Pairwise (· < ·)
  tried_open : ∀ i ∈ tried log, i ∈ start.keys
  tried_behind : ∀ i ∈ tried log, behind i
  each_open : ∀ i ∈ start.keys, i ∈ tried log ∨ (i ∈ c.orders_.keys ∧ ¬ behind i) ∨
    ∃ caller < i, .canceled caller i ∈ log
  not_after_cancel : ∀ i b before after, log = before ++ .tried i b :: after →
    i ∉ canceled before

section turn

variable {start : Map OrderIndex OrderCall} {last k : OrderIndex} {gone : List OrderIndex}
  {behind : OrderIndex → Prop} {c c' : BacktestContext}

/-- The account plays no part. -/
theorem Turn.same_orders (h : Turn start last gone behind log c) (ho : c'.orders_ = c.orders_)
    (hl : c'.last_order_index_ = c.last_order_index_) : Turn start last gone behind log c' := by
  obtain ⟨⟨h1, h2⟩, h3, h4, h5, h6, h7, h8, h9, h10⟩ := h
  refine ⟨⟨?_, ?_⟩, ?_, ?_, ?_, h6, h7, h8, ?_, h10⟩ <;> simpa only [ho, hl]

theorem Turn.move (h : Turn start last gone behind log c) {behind' : OrderIndex → Prop}
    (h1 : ∀ i, behind i → behind' i) (h2 : ∀ i ∈ c.orders_.keys, ¬ behind i → ¬ behind' i) :
    Turn start last gone behind' log c :=
  { h with
    tried_behind := fun i hi => h1 i (h.tried_behind i hi)
    each_open := fun i hi => (h.each_open i hi).imp_right
      (Or.imp_left fun ⟨hk, hb⟩ => ⟨hk, h2 i hk hb⟩) }

/-- An order of the map in front of the bound was open at the start, and nobody canceled it. -/
theorem Turn.open_of_lt (h : Turn start last gone behind log c) (hk : k ∈ c.orders_.keys)
    (hlt : k < last) : k ∈ start.keys ∧ k ∉ gone ∧ k ∉ canceled log := by
  obtain ⟨order, ho⟩ := Map.mem_keys.mp hk
  rcases (h.entries _).mp ho with ⟨h1, h2, h3⟩ | h1
  · exact ⟨Map.mem_keys.mpr ⟨order, h1⟩, h2, h3⟩
  · obtain ⟨caller, hm⟩ := h1.mem
    exact absurd (h.placed_new caller k order hm).1 (Nat.not_le_of_lt hlt)

theorem Turn.next (h : Turn start last gone (· ≤ k) log c) (hk : k ∈ c.orders_.keys) :
    Turn start last gone (fun i => ∀ j, c.orders_.next k = some j → i < j) log c := by
  apply h.move
  · intro i hi j hj
    exact Nat.lt_of_le_of_lt hi (h.ascending.next_le hk hj).1
  · intro i hi hlt hall
    rcases hn : c.orders_.next k with _ | j
    · exact hlt (h.ascending.next_none hk hn i hi)
    · have h1 := (h.ascending.next_le hk hn).2 i hi (Nat.lt_of_not_le hlt)
      exact Nat.lt_irrefl i (Nat.lt_of_lt_of_le (hall j hn) h1)

theorem Turn.try_order (h : Turn start last gone (· < k) log c) (hk : k ∈ c.orders_.keys)
    (hlt : k < last) (b : Bool) : Turn start last gone (· ≤ k) (log ++ [.tried k b]) c := by
  obtain ⟨hopen, hgone, hcanceled⟩ := h.open_of_lt hk hlt
  refine ⟨h.fits, h.ascending, ?_, ?_, ?_, ?_, ?_, ?_, ?_⟩
  · intro caller i order hm
    exact h.placed_new caller i order (by simpa using hm)
  · intro e
    rw [h.entries, placedAndKept_snoc]
    simp [SweepEvent.canceled_index]
  · rw [tried_snoc]
    apply List.pairwise_append.mpr
    refine ⟨h.tried_ascending, List.pairwise_singleton _ _, fun i hi j hj => ?_⟩
    rw [List.mem_singleton.mp hj]
    exact h.tried_behind i hi
  · intro i hi
    rw [tried_snoc, List.mem_append] at hi
    rcases hi with hi | hi
    · exact h.tried_open i hi
    · rw [List.mem_singleton.mp hi]
      exact hopen
  · intro i hi
    rw [tried_snoc, List.mem_append] at hi
    rcases hi with hi | hi
    · exact Nat.le_of_lt (h.tried_behind i hi)
    · rw [List.mem_singleton.mp hi]
  · intro i hi
    rw [tried_snoc, List.mem_append]
    by_cases hik : i = k
    · exact Or.inl (Or.inr (by simp [hik, SweepEvent.tried_index]))
    · rcases h.each_open i hi with h1 | ⟨h1, h2⟩ | ⟨caller, h1, h2⟩
      · exact Or.inl (Or.inl h1)
      · exact Or.inr (Or.inl ⟨h1, fun hle => h2 (Nat.lt_of_le_of_ne hle hik)⟩)
      · exact Or.inr (Or.inr ⟨caller, h1, List.mem_append_left _ h2⟩)
  · intro i b' before after hsplit
    rcases snoc_split.mp hsplit with ⟨_, rfl, he⟩ | ⟨rest, _, hl⟩
    · cases he
      exact hcanceled
    · exact h.not_after_cancel i b' before rest hl

/-- An event that tries nothing keeps the order of tries and cancels. -/
theorem Turn.not_after_cancel_snoc (h : Turn start last gone behind log c)
    (hx : x.tried_index = none) : ∀ i b before after, log ++ [x] = before ++ .tried i b :: after →
      i ∉ canceled before := by
  intro i b before after hsplit
  rcases snoc_split.mp hsplit with ⟨_, _, rfl⟩ | ⟨rest, _, hl⟩
  · cases hx
  · exact h.not_after_cancel i b before rest hl

theorem Turn.call (h : Turn start last gone behind log c) (i : OrderIndex) :
    Turn start last gone behind (log ++ [.called i]) c := by
  have ht : tried (log ++ [.called i]) = tried log := by simp [SweepEvent.tried_index]
  refine ⟨h.fits, h.ascending, ?_, ?_, ht ▸ h.tried_ascending, ht ▸ h.tried_open,
    ht ▸ h.tried_behind, ?_, h.not_after_cancel_snoc rfl⟩
  · intro caller i order hm
    exact h.placed_new caller i order (by simpa using hm)
  · intro e
    rw [h.entries, placedAndKept_snoc]
    simp [SweepEvent.canceled_index]
  · intro j hj
    rw [ht]
    exact (h.each_open j hj).imp_right (Or.imp_right fun ⟨caller, h1, h2⟩ =>
      ⟨caller, h1, List.mem_append_left _ h2⟩)

theorem Turn.place (h : Turn start last gone (· ≤ k) log c) (caller : OrderIndex)
    (order : OrderCall) :
    Turn start last gone (· ≤ k) (log ++ [.placed caller c.last_order_index_ order])
      (c.add_order order).2 := by
  have ht : tried (log ++ [.placed caller c.last_order_index_ order]) = tried log := by
    simp [SweepEvent.tried_index]
  have hmem : ∀ e, e ∈ (c.add_order order).2.orders_ ↔
      e = (c.last_order_index_, order) ∨ e ∈ c.orders_ := fun e => sorted.mem_emplace h.fits.new
  refine ⟨h.fits.add_order order, h.ascending.emplace h.fits.small order, ?_, ?_,
    ht ▸ h.tried_ascending, ht ▸ h.tried_open, ht ▸ h.tried_behind, ?_,
    h.not_after_cancel_snoc rfl⟩
  · intro caller' i order' hm
    rcases List.mem_append.mp hm with hm | hm
    · have := h.placed_new caller' i order' hm
      exact ⟨this.1, Nat.lt_succ_of_lt this.2⟩
    · cases List.mem_singleton.mp hm
      exact ⟨h.fits.last_le, Nat.lt_succ_self _⟩
  · intro e
    rw [hmem, h.entries, placedAndKept_snoc]
    constructor
    · rintro (rfl | h1 | h1)
      · exact Or.inr (Or.inr ⟨caller, rfl⟩)
      · exact Or.inl (by simpa [SweepEvent.canceled_index] using h1)
      · exact Or.inr (Or.inl ⟨h1, by simp [SweepEvent.canceled_index]⟩)
    · rintro (h1 | ⟨h1, _⟩ | ⟨caller', h1⟩)
      · exact Or.inr (Or.inl (by simpa [SweepEvent.canceled_index] using h1))
      · exact Or.inr (Or.inr h1)
      · rw [SweepEvent.placed.injEq] at h1
        exact Or.inl (Prod.ext h1.2.1.symm h1.2.2.symm)
  · intro i hi
    rw [ht]
    rcases h.each_open i hi with h1 | ⟨h1, h2⟩ | ⟨caller', h1, h2⟩
    · exact Or.inl h1
    · obtain ⟨order', ho⟩ := Map.mem_keys.mp h1
      exact Or.inr (Or.inl ⟨Map.mem_keys.mpr ⟨order', (hmem _).mpr (Or.inr ho)⟩, h2⟩)
    · exact Or.inr (Or.inr ⟨caller', h1, List.mem_append_left _ h2⟩)

theorem Turn.cancel (h : Turn start last gone (· ≤ k) log c) (i : OrderIndex) :
    Turn start last gone (· ≤ k) (log ++ [.canceled k i]) (c.cancel i) := by
  have ht : tried (log ++ [.canceled k i]) = tried log := by simp [SweepEvent.tried_index]
  refine ⟨h.fits.cancel i, h.ascending.erase i, ?_, ?_, ht ▸ h.tried_ascending, ht ▸ h.tried_open,
    ht ▸ h.tried_behind, ?_, h.not_after_cancel_snoc rfl⟩
  · intro caller j order hm
    exact h.placed_new caller j order (by simpa using hm)
  · intro e
    have herase : e ∈ (c.cancel i).orders_ ↔ e ∈ c.orders_ ∧ e.1 ≠ i := Map.mem_erase
    rw [herase, h.entries, placedAndKept_snoc]
    simp only [canceled_snoc, SweepEvent.canceled_index, Option.toList_some, List.mem_append,
      List.mem_singleton, ne_eq, Option.some.injEq, reduceCtorEq, exists_false, or_false]
    constructor
    · rintro ⟨⟨h1, h2, h3⟩ | h1, hne⟩
      · exact Or.inl ⟨h1, h2, not_or.mpr ⟨h3, hne⟩⟩
      · exact Or.inr ⟨h1, Ne.symm hne⟩
    · rintro (⟨h1, h2, h3⟩ | ⟨h1, hne⟩)
      · exact ⟨Or.inl ⟨h1, h2, (not_or.mp h3).1⟩, (not_or.mp h3).2⟩
      · exact ⟨Or.inr h1, Ne.symm hne⟩
  · intro j hj
    rw [ht]
    rcases h.each_open j hj with h1 | ⟨h1, h2⟩ | ⟨caller, h1, h2⟩
    · exact Or.inl h1
    · -- An order that was not tried is behind the one that the callback is called for.
      by_cases hji : j = i
      · subst hji
        exact Or.inr (Or.inr ⟨k, Nat.lt_of_not_le h2, by simp⟩)
      · exact Or.inr (Or.inl ⟨Map.mem_keys_erase.mpr ⟨h1, hji⟩, h2⟩)
    · exact Or.inr (Or.inr ⟨caller, h1, List.mem_append_left _ h2⟩)

theorem Turn.erase (h : Turn start last gone behind log c) (hlt : k < last) (hk : behind k) :
    Turn start last (gone ++ [k]) behind log (c.cancel k) := by
  refine ⟨h.fits.cancel k, h.ascending.erase k, h.placed_new, ?_, h.tried_ascending, h.tried_open,
    h.tried_behind, ?_, h.not_after_cancel⟩
  · intro e
    have herase : e ∈ (c.cancel k).orders_ ↔ e ∈ c.orders_ ∧ e.1 ≠ k := Map.mem_erase
    rw [herase, h.entries, List.mem_append, List.mem_singleton]
    constructor
    · rintro ⟨⟨h1, h2, h3⟩ | h1, hne⟩
      · exact Or.inl ⟨h1, not_or.mpr ⟨h2, hne⟩, h3⟩
      · exact Or.inr h1
    · rintro (⟨h1, h2, h3⟩ | h1)
      · exact ⟨Or.inl ⟨h1, (not_or.mp h2).1, h3⟩, (not_or.mp h2).2⟩
      · refine ⟨Or.inr h1, ?_⟩
        rintro rfl
        obtain ⟨caller, hm⟩ := h1.mem
        exact absurd (h.placed_new caller _ _ hm).1 (Nat.not_le_of_lt hlt)
  · intro j hj
    rcases h.each_open j hj with h1 | ⟨h1, h2⟩ | h1
    · exact Or.inl h1
    · refine Or.inr (Or.inl ⟨Map.mem_keys_erase.mpr ⟨h1, ?_⟩, h2⟩)
      rintro rfl
      exact h2 hk
    · exact Or.inr (Or.inr h1)

/-- A callback for the order `k`, which it does not cancel. -/
theorem Turn.callback {σ : Type} (h : Turn start last gone (· ≤ k) log c)
    (hk : k ∈ c.orders_.keys) {p : StrategyProg σ} {a : σ}
    (hob : Obeys BacktestBroker (fun op _ => op ≠ .cancel k) p c)
    (hrun : run BacktestBroker p c = (.ok a, c')) :
    Turn start last gone (· ≤ k)
        (log ++ (trace BacktestBroker p c).filterMap (callback_event k)) c' ∧
      k ∈ c'.orders_.keys := by
  refine hob.trace_keeps (l := [])
    (p := fun ops t => Turn start last gone (· ≤ k) (log ++ ops.filterMap (callback_event k)) t ∧
      k ∈ t.orders_.keys) ?_ hrun ⟨by simpa using h, hk⟩
  rintro ops op a t t' hop hstep ⟨ht, htk⟩
  rw [List.filterMap_append, ← List.append_assoc]
  cases op with
  | place order =>
    cases hstep
    refine ⟨ht.place k order, ?_⟩
    exact (sorted.mem_keys_emplace ht.fits.new).mpr (Or.inr htk)
  | cancel i =>
    cases hstep
    refine ⟨ht.cancel i, Map.mem_keys_erase.mpr ⟨htk, ?_⟩⟩
    rintro rfl
    exact hop rfl
  | account =>
    cases hstep
    rw [List.filterMap_cons_none rfl, List.filterMap_nil, List.append_nil]
    exact ⟨ht, htk⟩

end turn

end sweep

/-! ## The traversal -/

namespace BacktestRun

variable {σ : Type} {S : IStrategy σ}

/-- What holds at each place of a traversal, with the log so far. -/
def OnTurn (start : Map OrderIndex OrderCall) (last : OrderIndex) (candle : Candle)
    (log : SweepLog) (r : BacktestRun σ) : Prop :=
  match r.pc with
  | .visit iterator last' candle' => last' = last ∧ candle' = candle ∧
      Turn start last (executed log) (fun i => ∀ j, iterator = some j → i < j) log r.context ∧
      (∀ k, iterator = some k → k ∈ r.context.orders_.keys) ∧ called log = executed log
  | .filled k last' candle' => last' = last ∧ candle' = candle ∧ k < last ∧
      k ∈ r.context.orders_.keys ∧ Turn start last (called log) (· ≤ k) log r.context ∧
      executed log = called log ++ [k]
  | .reported k last' candle' => last' = last ∧ candle' = candle ∧ k < last ∧
      k ∈ r.context.orders_.keys ∧ ∃ gone, Turn start last gone (· ≤ k) log r.context ∧
      executed log = gone ++ [k] ∧ called log = gone ++ [k]
  | .swept candle' => candle' = candle ∧ SweepLaw start log r.context.orders_
  | _ => False

/-- The callback adds no tries and no calls to the log. -/
theorem callback_events_silent (k : OrderIndex)
    (ops : List ((op : BrokerCall) × op.Answer)) (log : SweepLog) :
    executed (log ++ ops.filterMap (callback_event k)) = executed log ∧
      called (log ++ ops.filterMap (callback_event k)) = called log := by
  induction ops generalizing log with
  | nil => simp
  | cons op ops ih =>
    obtain ⟨op, a⟩ := op
    cases op with
    | place order =>
      have := ih (log ++ [.placed k a order])
      simpa [callback_event, SweepEvent.executed_index, SweepEvent.called_index] using this
    | cancel i =>
      have := ih (log ++ [.canceled k i])
      simpa [callback_event, SweepEvent.executed_index, SweepEvent.called_index] using this
    | account =>
      rw [List.filterMap_cons_none rfl]
      exact ih log

theorem sweepLaw_of_turn {start : Map OrderIndex OrderCall} {last : OrderIndex} {log : SweepLog}
    {behind : OrderIndex → Prop} {c : BacktestContext} (hstart : ∀ i ∈ start.keys, i < last)
    (h : Turn start last (executed log) behind log c) (hcalls : called log = executed log)
    (hbehind : ∀ i < last, behind i) : SweepLaw start log c.orders_ := by
  refine ⟨h.tried_ascending, h.tried_open, fun i hi => ?_, h.not_after_cancel, ?_, hcalls,
    h.entries⟩
  · rcases h.each_open i hi with h1 | ⟨_, h1⟩ | h1
    · exact Or.inl h1
    · exact absurd (hbehind i (hstart i hi)) h1
    · exact Or.inr h1
  · intro caller i order hm hi
    have h1 := (h.placed_new caller i order hm).1
    have h2 := hstart i (h.tried_open i hi)
    exact Nat.not_lt_of_le h1 h2

/-- What is left to do in a traversal, in steps. -/
def left (r : BacktestRun σ) : ℕ :=
  match r.pc with
  | .visit none _ _ => 1
  | .visit (some k) last _ => 3 * (last - k) + 1
  | .filled k last _ => 3 * (last - k)
  | .reported k last _ => 3 * (last - k) - 1
  | _ => 0

/-- The iterator behind `k` leaves less to do than `k`. -/
theorem left_next {c : BacktestContext} (h : c.orders_.Ascending) {k last : OrderIndex}
    (hk : k ∈ c.orders_.keys) (hlt : k < last) (r : BacktestRun σ) (candle : Candle) :
    left { r with pc := .visit (c.orders_.next k) last candle } + 1 < 3 * (last - k) := by
  have hend : ∀ a b : ℕ, a < b → 1 + 1 < 3 * (b - a) := by omega
  have hmid : ∀ a b i : ℕ, a < b → a < i → 3 * (b - i) + 1 + 1 < 3 * (b - a) := by omega
  rcases hn : c.orders_.next k with _ | j
  · exact hend k last hlt
  · exact hmid k last j hlt (h.next_le hk hn).1

/-- There is a next step in the traversal. It keeps the invariant and leaves less to do. -/
def Advances (S : IStrategy σ) (start : Map OrderIndex OrderCall) (last : OrderIndex)
    (candle : Candle) (log : SweepLog) (r : BacktestRun σ) : Prop :=
  ∃ r', SweepStep S r () r' ∧ OnTurn start last candle (log ++ emitted S r ()) r' ∧
    left r' < left r

section advances

variable {start : Map OrderIndex OrderCall} {last k : OrderIndex} {candle : Candle}
  {log : SweepLog} {r : BacktestRun σ}

/-- The end of the map. -/
theorem advances_end (hstart : ∀ i ∈ start.keys, i < last) (hpc : r.pc = .visit none last candle)
    (h : OnTurn start last candle log r) : Advances S start last candle log r := by
  rw [OnTurn, hpc] at h
  obtain ⟨_, _, hturn, _, hcalls⟩ := h
  refine ⟨_, ⟨(Move.finish hpc).step, by simp [Sweeping, hpc]⟩, ?_, by simp [left, hpc]⟩
  have hlaw := sweepLaw_of_turn hstart hturn hcalls fun i _ j hj => by cases hj
  simpa [OnTurn, emitted, hpc] using hlaw

/-- The bound of the traversal. -/
theorem advances_bound (hstart : ∀ i ∈ start.keys, i < last)
    (hpc : r.pc = .visit (some k) last candle) (hle : last ≤ k)
    (h : OnTurn start last candle log r) : Advances S start last candle log r := by
  rw [OnTurn, hpc] at h
  obtain ⟨_, _, hturn, _, hcalls⟩ := h
  refine ⟨_, ⟨(Move.bound hpc hle).step, by simp [Sweeping, hpc]⟩, ?_, by simp [left, hpc]⟩
  have hlaw := sweepLaw_of_turn hstart hturn hcalls fun i hi j hj => by
    cases hj
    exact Nat.lt_of_lt_of_le hi hle
  have hnot : ¬ k < last := Nat.not_lt_of_le hle
  simpa [OnTurn, emitted, hpc, hnot] using hlaw

/-- A try at an order, which executes or stays open. -/
theorem advances_try (hpc : r.pc = .visit (some k) last candle) (hlt : k < last)
    (h : OnTurn start last candle log r) : Advances S start last candle log r := by
  rw [OnTurn, hpc] at h
  obtain ⟨_, _, hturn, hkeys, hcalls⟩ := h
  have hk := hkeys k rfl
  obtain ⟨order, hfind⟩ := Map.find_of_mem_keys hk
  have hat : Turn start last (executed log) (fun i => i < k) log r.context :=
    hturn.move (fun i hi => hi k rfl)
      (fun i _ hi hlt => hi fun j hj => Option.some.inj hj ▸ hlt)
  by_cases hexec : order.Executes r.context candle
  · have htried := hat.try_order hk hlt true
    refine ⟨_, ⟨(Move.trade hpc hlt hfind hexec).step, by simp [Sweeping, hpc]⟩, ?_,
      by simp [left, hpc]⟩
    rw [emitted_trade hpc hlt hfind hexec]
    have hcalled : called (log ++ [.tried k true]) = executed log := by
      simp [SweepEvent.called_index, hcalls]
    refine ⟨rfl, rfl, hlt, hk, ?_, ?_⟩
    · rw [hcalled]
      exact htried.same_orders rfl rfl
    · simp [SweepEvent.executed_index, SweepEvent.called_index, hcalls]
  · have hnext := (hat.try_order hk hlt false).next hk
    have hless := left_next hturn.ascending hk hlt r candle
    refine ⟨_, ⟨(Move.pass hpc hlt hfind hexec).step, by simp [Sweeping, hpc]⟩, ?_, ?_⟩
    · rw [emitted_pass hpc hlt hfind hexec]
      refine ⟨rfl, rfl, ?_, fun j hj => (Map.next_mem hj).1, ?_⟩
      · simpa [SweepEvent.executed_index] using hnext
      · simpa [SweepEvent.executed_index, SweepEvent.called_index] using hcalls
    · rw [left.eq_def r, hpc]
      exact Nat.lt_succ_of_lt (Nat.lt_of_succ_lt hless)

/-- The callback. -/
theorem advances_filled (hpc : r.pc = .filled k last candle) (hspares : Spares S r)
    (h : OnTurn start last candle log r) : Advances S start last candle log r := by
  rw [OnTurn, hpc] at h
  obtain ⟨_, _, hlt, hk, hturn, hexec⟩ := h
  rw [Spares, hpc] at hspares
  obtain ⟨hob, strategy, context, hrun⟩ := hspares
  obtain ⟨hafter, hk'⟩ := (hturn.call k).callback hk hob hrun
  obtain ⟨h1, h2⟩ := callback_events_silent k
    (trace BacktestBroker (S.on_order_filled k r.strategy) r.context) (log ++ [.called k])
  have hmove : Move S r _ := .report hpc
  rw [callback_ok hrun] at hmove
  refine ⟨_, ⟨hmove.step, by simp [Sweeping, hpc]⟩, ?_, ?_⟩
  · simp only [OnTurn, emitted, hpc, hlt, true_and]
    refine ⟨hk', called log, ?_, ?_, ?_⟩
    · rwa [List.append_cons]
    · rw [List.append_cons, h1]
      simpa [SweepEvent.executed_index] using hexec
    · rw [List.append_cons, h2]
      simp [SweepEvent.called_index]
  · have hpos : ∀ a b : ℕ, a < b → 3 * (b - a) - 1 < 3 * (b - a) := by omega
    rw [left.eq_def r, hpc]
    exact hpos k last hlt

/-- The executed order goes. -/
theorem advances_reported (hpc : r.pc = .reported k last candle)
    (h : OnTurn start last candle log r) : Advances S start last candle log r := by
  rw [OnTurn, hpc] at h
  obtain ⟨_, _, hlt, hk, gone, hturn, hexec, hcalls⟩ := h
  have hless := left_next hturn.ascending hk hlt { r with context := r.context.cancel k } candle
  refine ⟨_, ⟨(Move.forget hpc hk).step, by simp [Sweeping, hpc]⟩, ?_, ?_⟩
  · simp only [OnTurn, emitted, hpc, true_and, List.append_nil]
    refine ⟨?_, ?_, hcalls.trans hexec.symm⟩
    · rw [hexec]
      exact (hturn.next hk).erase hlt fun j hj => (hturn.ascending.next_le hk hj).1
    · intro j hj
      obtain ⟨h1, h2⟩ := Map.next_mem hj
      exact Map.mem_keys_erase.mpr ⟨h1, h2⟩
  · rw [left.eq_def r, hpc]
    exact Nat.lt_sub_of_add_lt hless

/-- A traversal that is not at its end goes on. -/
theorem onTurn_step (hstart : ∀ i ∈ start.keys, i < last) (h : OnTurn start last candle log r)
    (hspares : Spares S r) : r.pc = .swept candle ∨ Advances S start last candle log r := by
  have hturn := h
  unfold OnTurn at hturn
  rcases hpc : r.pc with _ | ⟨_ | k, last', candle'⟩ | ⟨k, last', candle'⟩ |
    ⟨k, last', candle'⟩ | candle' | f <;> rw [hpc] at hturn
  · exact hturn.elim
  · obtain ⟨rfl, rfl, _⟩ := hturn
    exact Or.inr (advances_end hstart hpc h)
  · obtain ⟨rfl, rfl, _⟩ := hturn
    rcases Nat.lt_or_ge k last' with hlt | hle
    · exact Or.inr (advances_try hpc hlt h)
    · exact Or.inr (advances_bound hstart hpc hle h)
  · obtain ⟨rfl, rfl, _⟩ := hturn
    exact Or.inr (advances_filled hpc hspares h)
  · obtain ⟨rfl, rfl, _⟩ := hturn
    exact Or.inr (advances_reported hpc h)
  · rw [hturn.1]
    exact Or.inl rfl
  · exact hturn.elim

end advances

/-- A traversal from its start ends, and keeps the invariant. -/
theorem traversal_ends (S : IStrategy σ) (r : BacktestRun σ) (candle : Candle)
    (hpc : r.pc = .visit r.context.orders_.first r.context.last_order_index_ candle)
    (hmap : r.context.orders_.Ascending)
    (hsmall : ∀ i ∈ r.context.orders_.keys, i < r.context.last_order_index_)
    (hspares : ∀ n r', Run (SweepStep S) r n r' → Spares S r') :
    ∃ log r', Emits (SweepStep S) (emitted S) r log r' ∧ r'.pc = .swept candle ∧
      OnTurn r.context.orders_ r.context.last_order_index_ candle log r' := by
  have hturn : Turn r.context.orders_ r.context.last_order_index_ []
      (fun i => ∀ j, r.context.orders_.first = some j → i < j) [] r.context := by
    refine ⟨⟨Nat.le_refl _, hsmall⟩, hmap, ?_, ?_, ?_, ?_, ?_, ?_, ?_⟩
    · intro caller i order hm
      cases hm
    · intro e
      simp [canceled, PlacedAndKept]
    · exact List.Pairwise.nil
    · intro i hi
      cases hi
    · intro i hi
      cases hi
    · intro i hi
      refine Or.inr (Or.inl ⟨hi, fun hall => ?_⟩)
      rcases hf : r.context.orders_.first with _ | j
      · rw [List.head?_eq_none_iff.mp hf] at hi
        cases hi
      · exact Nat.lt_irrefl i (Nat.lt_of_lt_of_le (hall j hf) (hmap.first_le hf i hi))
    · intro i b before after h
      simp at h
  obtain ⟨log, r', hemits, ⟨_, hlast⟩, hdone⟩ : ∃ log r', Emits (SweepStep S) (emitted S) r log r' ∧
      ((∃ n, Run (SweepStep S) r n r') ∧
        OnTurn r.context.orders_ r.context.last_order_index_ candle ([] ++ log) r') ∧
      r'.pc = .swept candle := Emits.reaches
    (p := fun log r' => (∃ n, Run (SweepStep S) r n r') ∧
      OnTurn r.context.orders_ r.context.last_order_index_ candle log r') left
    (by
      rintro log t ⟨⟨n, hn⟩, ht⟩
      rcases onTurn_step (S := S) hsmall ht (hspares n t hn) with h1 | ⟨t', h1, h2, h3⟩
      · exact Or.inl h1
      · exact Or.inr ⟨(), t', h1, ⟨⟨_, hn.snoc h1⟩, h2⟩, h3⟩)
    ⟨⟨_, .nil r⟩, by
      rw [OnTurn, hpc]
      exact ⟨rfl, rfl, hturn, fun k hk => Map.first_mem hk, rfl⟩⟩
  exact ⟨log, r', hemits, hdone, hlast⟩

/-- The law of `update_orders`, for any strategy and any map of open orders, which is sorted and
holds only indices that were given out: the traversal ends, and its log and the map at the end
obey the law. -/
theorem update_orders_obeys_the_sweep_law (S : IStrategy σ) (r : BacktestRun σ) (candle : Candle)
    (hpc : r.pc = .visit r.context.orders_.first r.context.last_order_index_ candle)
    (hmap : r.context.orders_.Ascending)
    (hsmall : ∀ i ∈ r.context.orders_.keys, i < r.context.last_order_index_)
    (hspares : ∀ n r', Run (SweepStep S) r n r' → Spares S r') :
    ∃ log r', Emits (SweepStep S) (emitted S) r log r' ∧ r'.pc = .swept candle ∧
      SweepLaw r.context.orders_ log r'.context.orders_ := by
  obtain ⟨log, r', hemits, hdone, hlast⟩ := traversal_ends S r candle hpc hmap hsmall hspares
  rw [OnTurn, hdone] at hlast
  exact ⟨log, r', hemits, hdone, hlast.2⟩

/-- A strategy that answers every fill with a new order at half the quantity, and cancels the
order behind the one that filled. -/
def halving_strategy : IStrategy Unit where
  update := fun _ s => .ret s
  on_order_filled := fun index s => do
    let _ ← IBroker.limit_sell_order 1 50
    IBroker.cancel (index + 1)
    return s

/-- Three limit buys, of which a candle at 90 fills the first and the third. -/
def three_buys : BacktestRun Unit where
  pc := .visit (some 0) 3 (flat_candle 90)
  data_loader := []
  context := {
    account_ := { balance := 1000, position := 0 }
    orders_ := ⟨[(0, .limit_buy_order 1 100), (1, .limit_buy_order 1 100),
      (2, .limit_buy_order 1 95)], by decide⟩
    last_order_index_ := 3 }
  strategy := ()

theorem halving_strategy_obeys_the_sweep_law :
    ∃ log r', Emits (SweepStep halving_strategy) (emitted halving_strategy) three_buys log r' ∧
      r'.pc = .swept (flat_candle 90) ∧
      SweepLaw three_buys.context.orders_ log r'.context.orders_ := by
  apply update_orders_obeys_the_sweep_law halving_strategy three_buys (flat_candle 90) rfl
  · unfold Map.Ascending
    decide
  · decide
  · intro n r' _
    unfold Spares
    split
    · rename_i index last candle _
      refine ⟨⟨by simp, fun _ _ _ => ⟨?_, fun _ _ _ => trivial⟩⟩, _, _, rfl⟩
      intro h
      exact Nat.succ_ne_self index (BrokerCall.cancel.inj h)
    · trivial

end BacktestRun

end wedge
