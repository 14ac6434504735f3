-- The whole history of a backtest in the old engine, for any strategy: the candles that were
-- read, what it placed, what it canceled and what was traded. Every trade is one of an open
-- order on the candle of the moment, and the account is what the trades make of the first one.
import Wedge.Backtest.Solvency
import Wedge.Backtest.Bookkeeping
import Wedge.Lib.Histories

namespace wedge

open programs containers runs histories

/-- What happens in a backtest. -/
inductive BrokerEvent
  | read (candle : Candle)
  | placed (index : OrderIndex) (order : OrderCall)
  | canceled (index : OrderIndex)
  | traded (index : OrderIndex) (order : OrderCall) (candle : Candle) (price : ℚ)
  deriving DecidableEq, Repr

namespace BrokerEvent

/-- The event of a call of the broker. -/
def of_call : ((op : BrokerCall) × op.Answer) → Option BrokerEvent
  | ⟨.place order, index⟩ => some (.placed index order)
  | ⟨.cancel index, _⟩ => some (.canceled index)
  | ⟨.account, _⟩ => none

def Opens (event : BrokerEvent) (e : OrderIndex × OrderCall) : Prop := event = .placed e.1 e.2

/-- The order under the index is canceled or traded. -/
def Closes : BrokerEvent → OrderIndex × OrderCall → Prop
  | .canceled index, e => index = e.1
  | .traded index _ _ _, e => index = e.1
  | _, _ => False

def read_candle : BrokerEvent → Option Candle
  | .read candle => some candle
  | _ => none

def traded_index : BrokerEvent → Option OrderIndex
  | .traded index _ _ _ => some index
  | _ => none

/-- What the event adds to the position. -/
def base_delta (commission : ℚ) : BrokerEvent → ℚ
  | .traded _ order _ _ =>
    match order.side with
    | .kBuy => order.quantity * (1 - commission)
    | .kSell => -order.quantity
  | _ => 0

/-- What the event adds to the balance. -/
def quote_delta (commission : ℚ) : BrokerEvent → ℚ
  | .traded _ order _ price =>
    match order.side with
    | .kBuy => -(order.quantity * price)
    | .kSell => order.quantity * price * (1 - commission)
  | _ => 0

end BrokerEvent

abbrev BrokerLog := List BrokerEvent

namespace history

/-- The strategy has placed the order under the index, and since then it was neither canceled nor
traded. -/
def Open (log : BrokerLog) (e : OrderIndex × OrderCall) : Prop :=
  Stands BrokerEvent.Opens BrokerEvent.Closes log e

/-- The candle that was read last. -/
def current (log : BrokerLog) : Option Candle := (log.filterMap BrokerEvent.read_candle).getLast?

/-- A trade is one of an open order that the candle of the moment meets, at its price on this
candle. -/
def Fair (log : BrokerLog) : BrokerEvent → Prop
  | .traded index order candle price => Open log (index, order) ∧ current log = some candle ∧
      order.meets candle = true ∧ price = order.fill_price candle
  | _ => True

end history

open history

namespace BacktestRun

variable {σ : Type} {S : IStrategy σ}

/-- What the next step adds to the history. -/
def history (S : IStrategy σ) (r : BacktestRun σ) (_ : Unit) : BrokerLog :=
  match r.pc with
  | .next => (r.reads ()).map .read
  | .visit (some index) last_index candle =>
    match r.context.orders_.find index with
    | none => []
    | some order =>
      if index < last_index ∧ order.Executes r.context candle then
        [.traded index order candle (order.fill_price candle)]
      else []
  | .filled index _ _ =>
    (trace BacktestBroker (S.on_order_filled index r.strategy) r.context).filterMap
      BrokerEvent.of_call
  | .swept candle =>
    (trace BacktestBroker (S.update candle r.strategy) r.context).filterMap BrokerEvent.of_call
  | _ => []

/-- The order that was traded and is still in the map, while the strategy is told about it. -/
def reporting (r : BacktestRun σ) : Option OrderIndex :=
  match r.pc with
  | .filled index _ _ => some index
  | .reported index _ _ => some index
  | _ => none

end BacktestRun

/-! ## The law -/

namespace history

variable {start : Account} {commission : ℚ} {log : BrokerLog} {held : Option OrderIndex}
  {c : BacktestContext}

/-- Events that read no candle leave the candle of the moment. -/
theorem current_append {out : BrokerLog} (h : out.filterMap BrokerEvent.read_candle = []) :
    current (log ++ out) = current log := by
  unfold current
  rw [List.filterMap_append, h, List.append_nil]

theorem current_read (log : BrokerLog) (candle : Candle) :
    current (log ++ [.read candle]) = some candle := by
  unfold current
  rw [List.filterMap_append]
  exact List.getLast?_concat

/-- The calls of a callback read no candle. -/
theorem calls_read_nothing (ops : List ((op : BrokerCall) × op.Answer)) :
    (ops.filterMap BrokerEvent.of_call).filterMap BrokerEvent.read_candle = [] := by
  rw [List.filterMap_filterMap, List.filterMap_eq_nil_iff]
  rintro ⟨op, a⟩ _
  cases op <;> rfl

/-- The state after a history. `held` is the order that is being reported. -/
structure Law (start : Account) (commission : ℚ) (log : BrokerLog) (held : Option OrderIndex)
    (c : BacktestContext) : Prop where
  commission_eq : c.commission_ = commission
  held_lt : ∀ i, held = some i → i < c.last_order_index_
  balance : c.account_.balance =
    start.balance + (log.map (BrokerEvent.quote_delta commission)).sum
  position : c.account_.position =
    start.position + (log.map (BrokerEvent.base_delta commission)).sum
  fits : c.Fits 0
  fair : Each Fair log
  once : (log.filterMap BrokerEvent.traded_index).Nodup
  gone : ∀ i ∈ log.filterMap BrokerEvent.traded_index, i < c.last_order_index_ ∧
    (i ∈ c.orders_.keys → held = some i)
  book : ∀ e, Open log e ↔ e ∈ c.orders_ ∧ held ≠ some e.1

/-- An event without a trade. -/
theorem Law.quiet (h : Law start commission log held c) {event : BrokerEvent}
    {c' : BacktestContext} (hevent : event.traded_index = none)
    (haccount : c'.account_ = c.account_) (hcommission : c'.commission_ = c.commission_)
    (hfits : c'.Fits 0) (hlast : c.last_order_index_ ≤ c'.last_order_index_)
    (hkeys : ∀ i < c.last_order_index_, i ∈ c'.orders_.keys → i ∈ c.orders_.keys)
    (hbook : ∀ e, Open (log ++ [event]) e ↔ e ∈ c'.orders_ ∧ held ≠ some e.1) :
    Law start commission (log ++ [event]) held c' := by
  have hquote : event.quote_delta commission = 0 := by cases event <;> first | rfl | cases hevent
  have hbase : event.base_delta commission = 0 := by cases event <;> first | rfl | cases hevent
  have hfair : Fair log event := by cases event <;> trivial
  have hindex : (log ++ [event]).filterMap BrokerEvent.traded_index =
      log.filterMap BrokerEvent.traded_index := by
    rw [List.filterMap_append, List.filterMap_cons_none hevent, List.filterMap_nil,
      List.append_nil]
  refine ⟨hcommission.trans h.commission_eq, fun i hi => (h.held_lt i hi).trans_le hlast, ?_, ?_,
    hfits, each_snoc.mpr ⟨h.fair, hfair⟩, ?_, ?_, hbook⟩
  · simpa [hquote, haccount] using h.balance
  · simpa [hbase, haccount] using h.position
  · rw [hindex]
    exact h.once
  · rw [hindex]
    intro i hi
    obtain ⟨hlt, hheld⟩ := h.gone i hi
    exact ⟨hlt.trans_le hlast, fun hmem => hheld (hkeys i hlt hmem)⟩

/-- A candle is read. -/
theorem Law.read (h : Law start commission log held c) (candle : Candle) :
    Law start commission (log ++ [.read candle]) held c := by
  refine h.quiet rfl rfl rfl h.fits le_rfl (fun _ _ hmem => hmem) fun e => ?_
  have hopens : ¬ BrokerEvent.Opens (.read candle) e := nofun
  have hcloses : ¬ BrokerEvent.Closes (.read candle) e := id
  have hbook := h.book e
  unfold Open at hbook ⊢
  rw [stands_snoc, hbook]
  tauto

theorem Law.place (h : Law start commission log held c) (order : OrderCall) :
    Law start commission (log ++ [.placed c.last_order_index_ order]) held
      (c.add_order order).2 := by
  refine h.quiet rfl rfl rfl (h.fits.add_order order) (Nat.le_succ _) ?_ fun e => ?_
  · intro i hlt hmem
    rcases (sorted.mem_keys_emplace h.fits.new).mp hmem with rfl | hmem
    · exact absurd hlt (Nat.lt_irrefl _)
    · exact hmem
  · refine stands_snoc.trans ?_
    have hmem : e ∈ (c.add_order order).2.orders_ ↔
        e = (c.last_order_index_, order) ∨ e ∈ c.orders_ := sorted.mem_emplace h.fits.new
    have hbook := h.book e
    have hcloses : ¬ BrokerEvent.Closes (.placed c.last_order_index_ order) e := id
    have hopens : BrokerEvent.Opens (.placed c.last_order_index_ order) e ↔
        e = (c.last_order_index_, order) := by
      unfold BrokerEvent.Opens
      rw [BrokerEvent.placed.injEq, Prod.ext_iff, eq_comm, eq_comm (b := e.2)]
    rw [hmem, hopens]
    constructor
    · rintro (rfl | ⟨hopen, _⟩)
      · exact ⟨Or.inl rfl, fun heq => Nat.lt_irrefl _ (h.held_lt _ heq)⟩
      · exact ⟨Or.inr (hbook.mp hopen).1, (hbook.mp hopen).2⟩
    · rintro ⟨rfl | hold, hne⟩
      · exact Or.inl rfl
      · exact Or.inr ⟨hbook.mpr ⟨hold, hne⟩, hcloses⟩

theorem Law.cancel (h : Law start commission log held c) (i : OrderIndex) :
    Law start commission (log ++ [.canceled i]) held (c.cancel i) := by
  refine h.quiet rfl rfl rfl (h.fits.cancel i) le_rfl ?_ fun e => ?_
  · exact fun j _ hmem => (Map.mem_keys_erase.mp hmem).1
  · refine stands_snoc.trans ?_
    have hopens : ¬ BrokerEvent.Opens (.canceled i) e := nofun
    have hcloses : BrokerEvent.Closes (.canceled i) e ↔ i = e.1 := Iff.rfl
    have hmem : e ∈ (c.cancel i).orders_ ↔ e ∈ c.orders_ ∧ e.1 ≠ i := Map.mem_erase
    have hbook := h.book e
    unfold Open at hbook
    rw [hcloses, hmem, hbook, eq_comm (a := i)]
    tauto

/-- The calls of a callback. -/
theorem Law.callback {σ : Type} (h : Law start commission log held c)
    (prog : StrategyProg σ) :
    Law start commission
      (log ++ (trace BacktestBroker prog c).filterMap BrokerEvent.of_call) held
      (run BacktestBroker prog c).2 := by
  refine trace_keeps_any (h := BacktestBroker) (l := []) (s := c)
    (p := fun ops t => Law start commission (log ++ ops.filterMap BrokerEvent.of_call)
      held t) ?_ ?_ (by simpa using h)
  · rintro ops op a t t' hstep ht
    rw [List.filterMap_append, ← List.append_assoc]
    cases op with
    | place order =>
      cases hstep
      exact ht.place order
    | cancel i =>
      cases hstep
      exact ht.cancel i
    | account =>
      cases hstep
      rw [List.filterMap_cons_none rfl, List.filterMap_nil, List.append_nil]
      exact ht
  · rintro ops op e t t' hstep ht
    cases op <;> cases hstep

/-- The order is traded, and the strategy is going to be told about it. -/
theorem Law.trade (h : Law start commission log none c) {k : OrderIndex}
    {order : OrderCall} {candle : Candle} (hfind : c.orders_.find k = some order)
    (hexec : order.Executes c candle) (hcandle : current log = some candle) :
    Law start commission (log ++ [.traded k order candle (order.fill_price candle)]) (some k)
      { c with account_ := c.paid order.side order.quantity (order.fill_price candle) } := by
  have hmem := Map.mem_of_find hfind
  have hopen : Open log (k, order) := (h.book (k, order)).mpr ⟨hmem, nofun⟩
  have hkey : k ∈ c.orders_.keys := Map.mem_keys.mpr ⟨order, hmem⟩
  have hnew : k ∉ log.filterMap BrokerEvent.traded_index := fun hk =>
    nomatch (h.gone k hk).2 hkey
  refine ⟨h.commission_eq, fun i hi => ?_, ?_, ?_, ⟨h.fits.last_le, h.fits.small⟩,
    each_snoc.mpr ⟨h.fair, hopen, hcandle, hexec.1, rfl⟩, ?_, ?_, fun e => ?_⟩
  · rw [← Option.some.inj hi]
    exact h.fits.small k hkey
  · rw [List.map_append, List.sum_append, ← add_assoc, ← h.balance]
    unfold BacktestContext.paid
    cases hside : order.side <;>
      simp [BrokerEvent.quote_delta, hside, h.commission_eq, sub_eq_add_neg]
  · rw [List.map_append, List.sum_append, ← add_assoc, ← h.position]
    unfold BacktestContext.paid
    cases hside : order.side <;>
      simp [BrokerEvent.base_delta, hside, h.commission_eq, sub_eq_add_neg]
  · rw [List.filterMap_append]
    exact List.nodup_append.mpr ⟨h.once, List.nodup_singleton k, fun i hi j hj heq =>
      hnew (by rw [← List.mem_singleton.mp hj, ← heq]; exact hi)⟩
  · intro i hi
    rw [List.filterMap_append] at hi
    rcases List.mem_append.mp hi with hi | hi
    · obtain ⟨hlt, hheld⟩ := h.gone i hi
      exact ⟨hlt, fun hi => nomatch hheld hi⟩
    · rw [List.mem_singleton.mp hi]
      exact ⟨h.fits.small k hkey, fun _ => rfl⟩
  · refine stands_snoc.trans ?_
    have hopens : ¬ BrokerEvent.Opens (.traded k order candle (order.fill_price candle)) e := nofun
    have hcloses : BrokerEvent.Closes (.traded k order candle (order.fill_price candle)) e ↔
        k = e.1 := Iff.rfl
    have hbook := h.book e
    unfold Open at hbook
    have hkept : (none : Option OrderIndex) ≠ some e.1 := nofun
    rw [hcloses, hbook, ne_eq (some k), Option.some.injEq]
    tauto

/-- The traded order leaves the map. -/
theorem Law.forget {k : OrderIndex} (h : Law start commission log (some k) c) :
    Law start commission log none (c.cancel k) := by
  refine ⟨h.commission_eq, nofun, h.balance, h.position, h.fits.cancel k, h.fair, h.once, ?_,
    fun e => ?_⟩
  · intro i hi
    obtain ⟨hlt, hheld⟩ := h.gone i hi
    refine ⟨hlt, fun hmem => ?_⟩
    obtain ⟨hmem, hne⟩ := Map.mem_keys_erase.mp hmem
    exact absurd (Option.some.inj (hheld hmem)).symm hne
  · have hmem : e ∈ (c.cancel k).orders_ ↔ e ∈ c.orders_ ∧ e.1 ≠ k := Map.mem_erase
    rw [h.book, hmem, ne_eq, Option.some.injEq, eq_comm (a := k)]
    simp

theorem law_start (account : Account) (commission : ℚ) :
    Law account commission [] none { account_ := account, commission_ := commission } := by
  refine ⟨rfl, nofun, by simp, by simp, ⟨le_rfl, fun i hi => absurd hi List.not_mem_nil⟩, each_nil,
    List.nodup_nil, fun i hi => absurd hi List.not_mem_nil, fun e => ?_⟩
  exact ⟨fun h => absurd h not_stands_nil, fun h => absurd h.1 (Map.not_mem_empty e)⟩

end history

/-! ## The runs -/

namespace BacktestRun

variable {σ : Type} {S : IStrategy σ} {account : Account} {commission : ℚ} {log : BrokerLog}
  {r r' : BacktestRun σ}

theorem history_reads (S : IStrategy σ) (r : BacktestRun σ) :
    (history S r ()).filterMap BrokerEvent.read_candle = r.reads () := by
  have hmap (l : List Candle) : (l.map BrokerEvent.read).filterMap BrokerEvent.read_candle = l := by
    rw [List.filterMap_map]
    exact List.filterMap_some
  unfold history
  rcases hpc : r.pc with _ | ⟨_ | index, last, candle⟩ | ⟨index, last, candle⟩ |
    ⟨index, last, candle⟩ | candle | fault
  · exact hmap _
  · simp [reads, hpc]
  · simp only [reads, hpc]
    split
    · rfl
    · split_ifs <;> rfl
  · simp only [reads, hpc]
    exact calls_read_nothing _
  · simp [reads, hpc]
  · simp only [reads, hpc]
    exact calls_read_nothing _
  · simp [reads, hpc]

/-- The candles that the history has read, and the candles to come. -/
theorem history_run (h : Emits (Step S) (history S) r log r') :
    log.filterMap BrokerEvent.read_candle ++ r'.data_loader = r.data_loader := by
  induction h with
  | nil => rfl
  | cons hstep _ ih =>
    rw [List.filterMap_append, history_reads, List.append_assoc, ih, reads_step hstep]

/-- What holds at each place of a run, with the history so far. After a crash the order that was
reported may still be in the map. -/
structure Audited (account : Account) (commission : ℚ) (log : BrokerLog) (r : BacktestRun σ) :
    Prop where
  here : ∀ candle, r.candle? = some candle → current log = some candle
  law : ∃ held, Law account commission log held r.context ∧
    ((∀ fault, r.pc ≠ .crashed fault) → held = r.reporting)

theorem Audited.reported (h : Audited account commission log r)
    (hpc : ∀ fault, r.pc ≠ .crashed fault) :
    Law account commission log r.reporting r.context := by
  obtain ⟨held, hlaw, hheld⟩ := h.law
  exact hheld hpc ▸ hlaw

theorem audited_start (account : Account) (commission : ℚ) (candles : List Candle) (strategy : σ) :
    Audited account commission [] (start account commission candles strategy) :=
  ⟨(fun _ h => nomatch h), none, law_start account commission, fun _ => rfl⟩

/-- A step that changes nothing in the context. -/
theorem Audited.moved (h : Audited account commission log r)
    (hpc : ∀ fault, r.pc ≠ .crashed fault) (hcontext : r'.context = r.context)
    (hhere : ∀ candle, r'.candle? = some candle → r.candle? = some candle)
    (hreporting : (∀ fault, r'.pc ≠ .crashed fault) → r.reporting = r'.reporting) :
    Audited account commission (log ++ []) r' := by
  rw [List.append_nil]
  refine ⟨fun candle hc => h.here candle (hhere candle hc), r.reporting, ?_, hreporting⟩
  rw [hcontext]
  exact h.reported hpc

/-- The state behind a callback. -/
theorem Audited.callback (h : Audited account commission log r) (prog : StrategyProg σ)
    {pc : BacktestPc} (hpc : ∀ fault, r.pc ≠ .crashed fault)
    (hhere : ∀ candle, ({ r with pc := pc } : BacktestRun σ).candle? = some candle →
      r.candle? = some candle)
    (hreporting : r.reporting = ({ r with pc := pc } : BacktestRun σ).reporting) :
    Audited account commission
      (log ++ (trace BacktestBroker prog r.context).filterMap BrokerEvent.of_call)
      (r.callback prog pc) := by
  have hlaw := (h.reported hpc).callback prog
  rcases hrun : run BacktestBroker prog r.context with ⟨fault | strategy, context⟩
  · rw [callback_error hrun]
    rw [hrun] at hlaw
    exact ⟨(by rintro _ ⟨⟩), _, hlaw, fun hnot => absurd rfl (hnot fault)⟩
  · rw [callback_ok hrun]
    rw [hrun] at hlaw
    refine ⟨fun candle hc => ?_, _, hlaw, fun _ => hreporting⟩
    rw [current_append (calls_read_nothing _)]
    exact h.here candle (hhere candle hc)

theorem audited_step (hstep : Step S r () r') (h : Audited account commission log r) :
    Audited account commission (log ++ history S r ()) r' := by
  cases step_moves hstep with
  | @start candle rest hpc hd =>
    have hread : history S r () = [.read candle] := by simp [history, reads, hpc, hd]
    have hlaw := h.reported (by simp [hpc])
    have hreporting : r.reporting = none := by simp [BacktestRun.reporting, hpc]
    rw [hreporting] at hlaw
    rw [hread]
    refine ⟨fun c hc => ?_, none, hlaw.read candle, fun _ => rfl⟩
    cases hc
    exact current_read log candle
  | finish hpc =>
    have hsilent : history S r () = [] := by simp [history, hpc]
    rw [hsilent]
    exact h.moved (by simp [hpc]) rfl (by rintro _ ⟨⟩)
      fun _ => by simp [BacktestRun.reporting, hpc]
  | @bound index last candle hpc hle =>
    have hsilent : history S r () = [] := by
      simp only [history, hpc, Nat.not_lt.mpr hle, false_and, if_false]
      split <;> rfl
    rw [hsilent]
    exact h.moved (by simp [hpc]) rfl (by rintro _ ⟨⟩)
      fun _ => by simp [BacktestRun.reporting, hpc]
  | @pass index last candle order hpc hlt hfind hexec =>
    have hsilent : history S r () = [] := by simp [history, hpc, hfind, hexec]
    rw [hsilent]
    refine h.moved (by simp [hpc]) rfl (fun c hc => ?_)
      fun _ => by simp [BacktestRun.reporting, hpc]
    rw [candle?, hpc]
    exact hc
  | @trade index last candle order hpc hlt hfind hexec =>
    have hone : history S r () = [.traded index order candle (order.fill_price candle)] := by
      simp [history, hpc, hfind, hexec, hlt]
    have hcandle : current log = some candle := h.here candle (by simp [candle?, hpc])
    have hlaw := h.reported (by simp [hpc])
    have hreporting : r.reporting = none := by simp [BacktestRun.reporting, hpc]
    rw [hreporting] at hlaw
    rw [hone]
    refine ⟨fun c hc => ?_, some index, hlaw.trade hfind hexec hcandle, fun _ => rfl⟩
    cases hc
    exact (current_append rfl).trans hcandle
  | @lost index last candle hpc hmem =>
    have hsilent : history S r () = [] := by
      rcases hpc with ⟨hpc, _⟩ | hpc
      · simp [history, hpc, Map.find_eq_none.mpr hmem]
      · simp [history, hpc]
    have halive : ∀ fault, r.pc ≠ .crashed fault := by
      rcases hpc with ⟨hpc, _⟩ | hpc <;> simp [hpc]
    rw [hsilent]
    exact h.moved halive rfl (by rintro _ ⟨⟩) fun hnot => absurd rfl (hnot .undefined)
  | @report index last candle hpc =>
    have htrace : history S r () = (trace BacktestBroker (S.on_order_filled index r.strategy)
        r.context).filterMap BrokerEvent.of_call := by simp [history, hpc]
    rw [htrace]
    refine h.callback _ (by simp [hpc]) (fun c hc => ?_) (by simp [BacktestRun.reporting, hpc])
    rw [candle?, hpc]
    exact hc
  | @forget index last candle hpc hmem =>
    have hsilent : history S r () = [] := by simp [history, hpc]
    have hlaw := h.reported (by simp [hpc])
    have hreporting : r.reporting = some index := by simp [BacktestRun.reporting, hpc]
    rw [hreporting] at hlaw
    rw [hsilent, List.append_nil]
    refine ⟨fun c hc => ?_, none, hlaw.forget, fun _ => rfl⟩
    exact h.here c (by rw [candle?, hpc]; exact hc)
  | @update candle hpc =>
    have htrace : history S r () = (trace BacktestBroker (S.update candle r.strategy)
        r.context).filterMap BrokerEvent.of_call := by simp [history, hpc]
    rw [htrace]
    exact h.callback _ (by simp [hpc]) (by rintro _ ⟨⟩)
      (by simp [BacktestRun.reporting, hpc])

/-- In every backtest of every strategy the candles are read one after another. Each trade is one
of an order that the strategy placed and that was neither canceled nor traded before, and the
candle that was read last meets it and gives its price. The account is the first one and what the
trades add to it, and the map holds the orders that are open. -/
theorem every_trade_is_of_an_open_order (S : IStrategy σ) (account : Account) (commission : ℚ)
    (candles : List Candle) (strategy : σ) {log : BrokerLog} {r : BacktestRun σ}
    (h : Emits (Step S) (history S) (start account commission candles strategy) log r) :
    log.filterMap BrokerEvent.read_candle ++ r.data_loader = candles ∧
      Each Fair log ∧ (log.filterMap BrokerEvent.traded_index).Nodup ∧
      r.context.account_.balance =
        account.balance + (log.map (BrokerEvent.quote_delta commission)).sum ∧
      r.context.account_.position =
        account.position + (log.map (BrokerEvent.base_delta commission)).sum ∧
      ((∀ fault, r.pc ≠ .crashed fault) →
        ∀ e, Open log e ↔ e ∈ r.context.orders_ ∧ r.reporting ≠ some e.1) := by
  have hbooks : Audited account commission ([] ++ log) r :=
    h.invariant (p := Audited account commission)
      (fun _ _ _ _ hstep ht => audited_step hstep ht)
      (audited_start account commission candles strategy)
  obtain ⟨held, hlaw, hheld⟩ := hbooks.law
  rw [List.nil_append] at hlaw
  refine ⟨history_run h, hlaw.fair, hlaw.once, hlaw.balance, hlaw.position, fun hpc e => ?_⟩
  rw [← hheld hpc]
  exact hlaw.book e

/-- Sells what a buy has brought, and cancels a sell that is too high. -/
def changing_strategy : IStrategy Unit where
  update := fun candle s => do
    if candle.close_price = 100 then
      let _ ← IBroker.limit_buy_order 2 90
      return s
    else
      IBroker.cancel 1
      return s
  on_order_filled := fun _ s => do
    let _ ← IBroker.limit_sell_order 1 120
    let _ ← IBroker.limit_sell_order 1 110
    return s

def changing_log : BrokerLog :=
  [.read (flat_candle 100), .placed 0 (.limit_buy_order 2 90),
    .read (flat_candle 90), .traded 0 (.limit_buy_order 2 90) (flat_candle 90) 90,
    .placed 1 (.limit_sell_order 1 120), .placed 2 (.limit_sell_order 1 110), .canceled 1,
    .read (flat_candle 130), .traded 2 (.limit_sell_order 1 110) (flat_candle 130) 110]

/-- The buy and one of the sells are traded, and the other sell is canceled. -/
theorem the_canceled_sell_is_not_traded :
    ∃ r : BacktestRun Unit, Emits (Step changing_strategy) (history changing_strategy)
        (start ⟨1000, 0⟩ (1 / 10) [flat_candle 100, flat_candle 90, flat_candle 130] ())
        changing_log r ∧
      Each Fair changing_log ∧
      r.context.account_.balance = 1000 + (changing_log.map (BrokerEvent.quote_delta (1 / 10))).sum ∧
      (changing_log.map (BrokerEvent.quote_delta (1 / 10))).sum = -81 := by
  have hrun : (runs.replay_log (fun r _ => r.step changing_strategy) (history changing_strategy)
      (fun _ _ => True) (List.replicate 11 ()) (start ⟨1000, 0⟩ (1 / 10)
        [flat_candle 100, flat_candle 90, flat_candle 130] ())).any (fun x =>
          x.1 = changing_log) = true := by
    decide +kernel
  obtain ⟨⟨log, r⟩, hr, hlog⟩ := (Option.any_eq_true _ _).mp hrun
  obtain rfl : log = changing_log := of_decide_eq_true hlog
  have hemits := (runs.emits_of_replay (fun _ _ _ h => h) hr).mono fun _ _ _ h => h.1
  obtain ⟨_, hfair, _, hbalance, _⟩ :=
    every_trade_is_of_an_open_order changing_strategy ⟨1000, 0⟩ (1 / 10) _ () hemits
  exact ⟨r, hemits, hfair, hbalance, by decide +kernel⟩

end BacktestRun

end wedge
