-- A backtest from the table (`BacktestContext::run` with its `SqlIterator`): what it reads
-- after downloads with any interruptions, and how it goes on from one period to the next.
import Wedge.Backtest.Effects
import Wedge.Dataset.Resume
import Wedge.Dataset.SqlIterator

namespace wedge

open containers windows runs programs

namespace BacktestRun

variable {σ : Type} {S : IStrategy σ}

/-- `BacktestContext::run` with a data loader. -/
def loaded (account : Account) (commission : ℚ) (data_loader : SqlIterator) (strategy : σ) :
    BacktestRun σ := start account commission data_loader.rest strategy

/-- The head of the while loop asks the data loader. -/
theorem step_next {r : BacktestRun σ} {it : SqlIterator} (hpc : r.pc = .next)
    (hloader : r.data_loader = it.rest) :
    r.step S = match it.next false with
      | (.ok (some candle), it') => some { r with
          pc := .visit (r.context.orders_.first) r.context.last_order_index_ candle
          data_loader := it'.rest
          fills := 0 }
      | _ => none := by
  rw [SqlIterator.next_eq]
  unfold step
  rw [hpc, hloader]
  cases hrest : it.rest with
  | nil => rfl
  | cons candle l =>
    dsimp only
    rw [SqlIterator.rest_step hrest]

/-! ## More candles -/

/-- The same state with more candles to come. -/
def more (candles : List Candle) (r : BacktestRun σ) : BacktestRun σ :=
  { r with data_loader := r.data_loader ++ candles }

theorem more_callback (candles : List Candle) (r : BacktestRun σ) (prog : StrategyProg σ)
    (pc : BacktestPc) :
    (r.more candles).callback prog pc = (r.callback prog pc).more candles := by
  unfold callback more
  dsimp only
  rcases run BacktestBroker prog r.context with ⟨_ | _, _⟩ <;> rfl

/-- A step does not look behind the next candle. -/
theorem more_step {r r' : BacktestRun σ} (candles : List Candle) (h : Step S r () r') :
    Step S (r.more candles) () (r'.more candles) := by
  have hmove := step_moves h
  suffices hmore : Move S (r.more candles) (r'.more candles) from hmore.step
  cases hmove with
  | @start candle rest hpc hd =>
    have hloader : (r.more candles).data_loader = candle :: (rest ++ candles) := by simp [more, hd]
    exact .start hpc hloader
  | finish hpc => exact .finish hpc
  | bound hpc hle => exact .bound hpc hle
  | pass hpc hlt hfind hexec => exact .pass hpc hlt hfind hexec
  | trade hpc hlt hfind hexec => exact .trade hpc hlt hfind hexec
  | lost hpc hmem => exact .lost hpc hmem
  | report hpc =>
    rw [← more_callback]
    exact .report hpc
  | forget hpc hmem => exact .forget hpc hmem
  | update hpc =>
    rw [← more_callback]
    exact .update hpc

theorem more_run {r r' : BacktestRun σ} {acts : List Unit} (candles : List Candle)
    (h : Run (Step S) r acts r') : Run (Step S) (r.more candles) acts (r'.more candles) := by
  induction h with
  | nil => exact .nil _
  | cons hstep _ ih => exact .cons (more_step candles hstep) ih

theorem reads_run {r r' : BacktestRun σ} {used : List Candle}
    (h : Emits (Step S) reads r used r') : used ++ r'.data_loader = r.data_loader := by
  induction h with
  | nil => rfl
  | cons hstep _ ih => rw [List.append_assoc, ih, reads_step hstep]

end BacktestRun

/-! ## After the downloads -/

section downloads

variable {x : KlineExchange} {r : DownloadRun} {events : List DownloadEvent}

/-- The rows of a period are the klines of the market in the period. -/
theorem mem_period (himm : x.Immutable) (hrun : Run (DownloadRun.SafeStep x) {} events r) {now : ℤ}
    (hpc : r.pc = .left now) {start stop : ℤ}
    (hover : ∀ k ∈ x.history, start ≤ k.open_time → k.open_time ≤ stop → k.close_time < now)
    (k : Candle) :
    k ∈ SqlIterator.select start stop r.dataset ↔
      k ∈ x.history ∧ start ≤ k.open_time ∧ k.open_time ≤ stop := by
  obtain ⟨hsynced, hfailed⟩ := DownloadRun.safe_run hrun
  have hkeyed : ∀ e ∈ r.dataset.klines,
      ({ e.2 with open_time := e.1 } : Candle) = e.2 ∧ e.2 ∈ x.history := by
    intro e he
    obtain ⟨hmem, hkey⟩ := hsynced.sourced.keyed himm he
    exact ⟨by rw [hkey], hmem⟩
  rw [SqlDataset.mem_select]
  constructor
  · rintro ⟨e, he, rfl, hle⟩
    obtain ⟨hsame, hmem⟩ := hkeyed e he
    rw [hsame]
    exact ⟨hmem, (hsynced.sourced.keyed himm he).2 ▸ hle⟩
  · rintro ⟨hk, hstart, hstop⟩
    have hhas : r.dataset.Has k.open_time := (hsynced.sourced.mem_rows himm hk).mp
      (hsynced.complete himm hfailed hpc hk (Or.inl (hover k hk hstart hstop)))
    obtain ⟨row, he⟩ := SqlDataset.has_iff.mp hhas
    obtain ⟨hmem, hkey⟩ := hsynced.sourced.keyed himm he
    obtain rfl : k = row := timelines.Timeline.eq_of_first (t := x.timeline) hk hmem hkey
    exact ⟨_, he, ((hkeyed _ he).1).symm, hstart, hstop⟩

end downloads

/-- A backtest does not see what happened to the downloads. After any two sequences of them, with
errors of the network and processes that were killed, each of which went to the end of its last call
when the period was over, a backtest reads the same candles: the klines of the market in the period,
in the order of time, and each of them once. -/
theorem a_backtest_reads_the_market (x : KlineExchange) (himm : x.Immutable)
    {events events' : List DownloadEvent} {r r' : DownloadRun}
    (hrun : Run (DownloadRun.SafeStep x) {} events r)
    (hrun' : Run (DownloadRun.SafeStep x) {} events' r') {now now' : ℤ} (hpc : r.pc = .left now)
    (hpc' : r'.pc = .left now') (as_unix_timestamp : String → ℤ)
    (start_time end_time : Option String)
    (hover : ∀ k ∈ x.history,
      SqlIterator.start_timestamp as_unix_timestamp start_time ≤ k.open_time →
      k.open_time ≤ SqlIterator.end_timestamp as_unix_timestamp end_time →
      k.close_time < now ∧ k.close_time < now') :
    r.dataset.iterator as_unix_timestamp start_time end_time =
        r'.dataset.iterator as_unix_timestamp start_time end_time ∧
      ∀ (σ : Type) (S : IStrategy σ) (account : Account) (commission : ℚ) (strategy : σ)
        (used : List Candle) (b : BacktestRun σ),
        Emits (BacktestRun.Step S) BacktestRun.reads (BacktestRun.loaded account commission
          (r.dataset.iterator as_unix_timestamp start_time end_time) strategy) used b →
        Ascends Candle.open_time (used ++ b.data_loader) ∧
          ∀ k, k ∈ used ++ b.data_loader ↔ k ∈ x.history ∧
            SqlIterator.start_timestamp as_unix_timestamp start_time ≤ k.open_time ∧
            k.open_time ≤ SqlIterator.end_timestamp as_unix_timestamp end_time := by
  have hrows := mem_period himm hrun hpc fun k hk h1 h2 => (hover k hk h1 h2).1
  have hrows' := mem_period himm hrun' hpc' fun k hk h1 h2 => (hover k hk h1 h2).2
  refine ⟨?_, ?_⟩
  · have hsame := (r.dataset.ascends_select _ _).eq_of_mem_iff (r'.dataset.ascends_select _ _)
      fun k => (hrows k).trans (hrows' k).symm
    unfold SqlDataset.iterator SqlIterator.construct
    rw [hsame]
  · intro σ S account commission strategy used b hb
    rw [BacktestRun.reads_run hb]
    exact ⟨r.dataset.ascends_select _ _, hrows⟩

/-- The first minute is stored and the process is killed. The next call goes on behind it. -/
def two_calls : List DownloadEvent :=
  [.call 90000 0 .connected, .response (.arr [minute_row 0 "101", minute_row 60000 "102"]),
    .insert true, .killed, .call 90000 0 .connected, .response (.arr [minute_row 60000 "102"]),
    .insert true, .leave]

theorem two_calls_run : ∃ r, Run (DownloadRun.SafeStep two_minutes) {} two_calls r ∧
    r.pc = .left 90000 := by
  have hfirst := get_first_minute
  have hsecond := get_second_minute
  have hbegin : DownloadRun.Move {} (.call 90000 0 .connected) { pc := .loop [] 0 90000 } :=
    .begin fun _ _ _ h => nomatch h
  let stored : DownloadRun :=
    { ({} : DownloadRun).read (minute_candle 0 101) [] 90000 true with pc := .idle }
  have hstart : stored.dataset.get_max_start_time = 59999 := by decide +kernel
  have hagain : DownloadRun.Move stored (.call 90000 0 .connected)
      { stored with pc := .loop [] 59999 90000 } := by
    rw [← hstart]
    exact .begin fun _ _ _ h => nomatch h
  have hpage : two_minutes.timeline.Page 59999 90000 1000 [minute_candle 60000 102] := by
    refine ⟨List.pairwise_singleton _ _, ?_, by decide, ?_⟩
    · intro k hk
      rw [List.mem_singleton.mp hk]
      exact ⟨Or.inr rfl, by decide, by decide⟩
    · rintro k (rfl | rfl) hstart _
      · exact absurd hstart (by decide)
      · exact Or.inl List.mem_cons_self
  refine ⟨_, .cons ⟨⟨hbegin.step, trivial⟩, nofun⟩ (.cons ⟨⟨(DownloadRun.Move.response rfl
    (by decide)).step, ?_⟩, nofun⟩ (.cons ⟨⟨(DownloadRun.Move.insert rfl hfirst).step, trivial⟩,
    nofun⟩ (.cons ⟨⟨DownloadRun.Move.killed.step, trivial⟩, nofun⟩ (.cons ⟨⟨hagain.step, trivial⟩,
    nofun⟩ (.cons ⟨⟨(DownloadRun.Move.response rfl (by decide)).step, ?_⟩, nofun⟩ (.cons
    ⟨⟨(DownloadRun.Move.insert rfl hsecond).step, trivial⟩, nofun⟩ (.single
    ⟨⟨(DownloadRun.Move.leave rfl (by decide)).step, trivial⟩, nofun⟩))))))), rfl⟩
  · intro a b hloop
    cases hloop
    exact ⟨0, _, two_minutes_page, .cons get_first_minute (.cons get_second_minute .nil)⟩
  · intro a b hloop
    cases hloop
    exact ⟨0, _, hpage, .cons get_second_minute .nil⟩

/-- One download goes through, and the other one is killed and resumed. The period ends within the
first minute. -/
theorem a_killed_download_gives_the_same_period :
    ∃ r r' events, Run (DownloadRun.SafeStep two_minutes) {} events r ∧
      Run (DownloadRun.SafeStep two_minutes) {} two_calls r' ∧
      r.dataset.iterator (fun _ => 50000) none (some "") =
        r'.dataset.iterator (fun _ => 50000) none (some "") := by
  have hrun := two_minutes_run (c := fun _ event => event ≠ .insert false) true true
    (by simp [two_minutes_events, two_rows_events])
  obtain ⟨r', hrun', hpc'⟩ := two_calls_run
  refine ⟨_, r', _, hrun, hrun', (a_backtest_reads_the_market two_minutes (fun _ _ _ => rfl) hrun
    hrun' (rfl : _ = DownloadPc.left 90000) hpc' (fun _ => 50000) none (some "") ?_).1⟩
  rintro k (rfl | rfl) _ hstop
  · exact ⟨by decide, by decide⟩
  · exact absurd hstop (by decide)

/-! ## From one period to the next -/

/-- A backtest over a period is the backtest over its first part, which goes on with the rows of
the second part. When a row starts where the parts meet, both parts have it, and the second part
is to be taken without it. -/
theorem a_backtest_goes_on_over_the_next_period (as_unix_timestamp : String → ℤ)
    (data : SqlDataset) {a b c : String} (hab : as_unix_timestamp a ≤ as_unix_timestamp b)
    (hbc : as_unix_timestamp b ≤ as_unix_timestamp c) {σ : Type} (S : IStrategy σ)
    (account : Account) (commission : ℚ) (strategy : σ) {acts acts' : List Unit}
    {r q : BacktestRun σ}
    (hfirst : Run (BacktestRun.Step S) (BacktestRun.loaded account commission
      (data.iterator as_unix_timestamp (some a) (some b)) strategy) acts r)
    (hend : r.data_loader = []) {second : List Candle}
    (hsecond : second = if data.Has (as_unix_timestamp b)
      then (data.iterator as_unix_timestamp (some b) (some c)).rest.tail
      else (data.iterator as_unix_timestamp (some b) (some c)).rest)
    (hrest : Run (BacktestRun.Step S) { r with data_loader := second } acts' q) :
    Run (BacktestRun.Step S) (BacktestRun.loaded account commission
      (data.iterator as_unix_timestamp (some a) (some c)) strategy) (acts ++ acts') q := by
  have hfilter : second = (SqlIterator.select (as_unix_timestamp b) (as_unix_timestamp c)
      data).filter fun row => row.open_time ≠ as_unix_timestamp b := by
    rw [hsecond, SqlDataset.select_behind data hbc]
    rfl
  have hwhole := BacktestRun.more_run second hfirst
  have hmid : r.more second = { r with data_loader := second } := by
    unfold BacktestRun.more
    rw [hend, List.nil_append]
  rw [hmid] at hwhole
  have hstart : (BacktestRun.loaded account commission
      (data.iterator as_unix_timestamp (some a) (some b)) strategy).more second =
      BacktestRun.loaded account commission
        (data.iterator as_unix_timestamp (some a) (some c)) strategy := by
    unfold BacktestRun.more BacktestRun.loaded BacktestRun.start
    rw [hfilter]
    congr 1
    exact SqlDataset.select_split data hab hbc
  rw [hstart] at hwhole
  exact hwhole.append hrest

/-- Buys one unit after each candle. -/
def buys_each_candle : IStrategy Unit where
  update := fun _ s => do
    let _ ← programs.Prog.ask (BrokerCall.place (.market_buy_order 1))
    return s
  on_order_filled := fun _ s => .ret s

def three_minutes : SqlDataset :=
  [minute_candle 0 101, minute_candle 60000 102, minute_candle 120000 103].foldl
    (fun data candle => data.insert candle true) {}

/-- The instant that a date of the example stands for. -/
def minute_of (date : String) : ℤ :=
  if date = "first" then 0 else if date = "second" then 60000 else 120000

/-- The second part has the second minute too, and a backtest in two parts uses it once. -/
theorem three_minutes_are_used_once : ∃ (acts acts' : List Unit) (q : BacktestRun Unit),
    Run (BacktestRun.Step buys_each_candle) (BacktestRun.loaded ⟨1000, 0⟩ (1 / 1000)
      (three_minutes.iterator minute_of (some "first") (some "third")) ()) (acts ++ acts') q ∧
    q.data_loader = [] ∧ q.context.account_.balance = 1000 - 102 - 103 := by
  have hparts : ((runs.replay (fun r _ => r.step buys_each_candle) (fun _ _ => True)
      (List.replicate 9 ()) (BacktestRun.loaded ⟨1000, 0⟩ (1 / 1000)
        (three_minutes.iterator minute_of (some "first") (some "second")) ())).bind fun r =>
      (runs.replay (fun r _ => r.step buys_each_candle) (fun _ _ => True) (List.replicate 6 ())
        { r with data_loader := [minute_candle 120000 103] }).map fun q =>
          decide (r.data_loader = [] ∧ q.data_loader = [] ∧ q.pc = .next ∧
            q.context.account_.balance = 1000 - 102 - 103)) = some true := by
    decide +kernel
  obtain ⟨r, hr, hrest⟩ := Option.bind_eq_some_iff.mp hparts
  obtain ⟨q, hq, hfacts⟩ := Option.map_eq_some_iff.mp hrest
  obtain ⟨hempty, hdone, _, hbalance⟩ := of_decide_eq_true hfacts
  have hsecond : [minute_candle 120000 103] = if three_minutes.Has (minute_of "second")
      then (three_minutes.iterator minute_of (some "second") (some "third")).rest.tail
      else (three_minutes.iterator minute_of (some "second") (some "third")).rest := by
    decide +kernel
  refine ⟨_, _, q, a_backtest_goes_on_over_the_next_period minute_of three_minutes
    (a := "first") (b := "second") (c := "third") (by decide +kernel) (by decide +kernel)
    buys_each_candle ⟨1000, 0⟩ (1 / 1000) () (runs.run_of_replay (fun _ _ _ h => h) hr).forget hempty
    hsecond (runs.run_of_replay (fun _ _ _ h => h) hq).forget, hdone, hbalance⟩

end wedge
