-- The resumption of the downloads. The cursor of a call starts behind the rows of the
-- table, and whatever fails on the way, nothing before the cursor is left out but
-- the rows that an error of the table kept away.
import Wedge.Dataset.Download

namespace wedge

open containers timelines runs

/-! ## The exchange -/

/-- The klines of a market with their final values, and what a response at an instant shows of a
kline. The values change until the kline is over. -/
structure KlineExchange where
  history : Set Candle
  shown : ℤ → Candle → Candle
  open_nonneg : ∀ k ∈ history, 0 ≤ k.open_time
  open_le : ∀ k ∈ history, k.open_time ≤ k.close_time
  apart : ∀ j ∈ history, ∀ k ∈ history, j ≠ k →
    j.close_time < k.open_time ∨ k.close_time < j.open_time
  shown_open : ∀ instant, ∀ k ∈ history, (shown instant k).open_time = k.open_time
  shown_close : ∀ instant, ∀ k ∈ history, (shown instant k).close_time = k.close_time
  final : ∀ instant, ∀ k ∈ history, k.close_time < instant → shown instant k = k

namespace KlineExchange

def timeline (x : KlineExchange) : Timeline Candle ℤ where
  items := x.history
  first := Candle.open_time
  last := Candle.close_time
  first_le := x.open_le
  apart := x.apart

/-- The rows of a response show the klines as they are at the instant. -/
def Shows (x : KlineExchange) (instant : ℤ) (rows : List Json) (klines : List Candle) : Prop :=
  List.Forall₂ (fun row k => BinanceBroker.get_kline row = some (x.shown instant k)) rows klines

/-- A response holds the first klines of its request, and at most 1000. -/
def Serves (x : KlineExchange) (r : DownloadRun) : DownloadEvent → Prop
  | .response body => ∀ start_time end_time, r.pc = .loop [] start_time end_time →
      ∃ instant klines, x.timeline.Page start_time end_time 1000 klines ∧
        x.Shows instant body.items klines
  | _ => True

/-- With a stored kline, every earlier one is stored. -/
def NoGap (x : KlineExchange) (data : SqlDataset) : Prop :=
  ∀ k ∈ x.history, data.Has k.open_time →
    ∀ j ∈ x.history, j.open_time < k.open_time → data.Has j.open_time

end KlineExchange

namespace DownloadRun

/-- The step of the program before the exchange. -/
abbrev ServedStep (x : KlineExchange) := Where Step x.Serves

/-! ## The cursor -/

/-- The insert of the kline was done, or it had an error in this call. -/
def Tried (r : DownloadRun) (k : Candle) : Prop :=
  r.dataset.Has k.open_time ∨ k.open_time ∈ r.failed

/-- A row that is stored under a new key leaves no kline out: each kline whose insert had an error
in this call is the same one, or it is stored by now. -/
def Repaired (r : DownloadRun) : DownloadEvent → Prop
  | .insert true => ∀ kline klines a b candle, r.pc = .loop (kline :: klines) a b →
      BinanceBroker.get_kline kline = some candle →
      r.dataset.Has candle.open_time ∨
        ∀ t ∈ r.failed, t = candle.open_time ∨ r.dataset.Has t
  | _ => True

/-- Every row is one of a kline, as it was shown at some instant. -/
def Sourced (x : KlineExchange) (data : SqlDataset) : Prop :=
  ∀ t row, (t, row) ∈ data.klines →
    ∃ k ∈ x.history, t = k.open_time ∧ ∃ instant, row = x.shown instant k

/-- What holds of the cursor. It is zero or the end of a kline. -/
structure Cursor (x : KlineExchange) (r : DownloadRun) (klines : List Json) (cursor : ℤ) :
    Prop where
  ahead : ∃ instant next, x.Shows instant klines next ∧ x.timeline.Ahead r.Tried cursor next
  stands : cursor = 0 ∨ ∃ k ∈ x.history, r.Tried k ∧ k.close_time = cursor
  behind : ∀ t ∈ r.failed, ∃ k ∈ x.history, k.open_time = t ∧ t ≤ cursor

/-- The table has no gap, and nothing in front of the cursor is left out. -/
structure Synced (x : KlineExchange) (r : DownloadRun) : Prop where
  sourced : Sourced x r.dataset
  no_gap : x.NoGap r.dataset
  place : match r.pc with
    | .idle => True
    | .loop klines cursor _ => Cursor x r klines cursor
    | .left end_time => ∀ k ∈ x.history,
        k.close_time < end_time ∨ k.close_time = end_time ∧ 0 < end_time → r.Tried k

variable {x : KlineExchange} {r r' : DownloadRun} {event : DownloadEvent}

theorem Sourced.insert {data : SqlDataset} (h : Sourced x data) {k : Candle} (hk : k ∈ x.history)
    (instant : ℤ) (done : Bool) : Sourced x (data.insert (x.shown instant k) done) := by
  intro t row he
  by_cases hhas : data.Has (x.shown instant k).open_time
  · rw [SqlDataset.insert_again hhas] at he
    exact h t row he
  · cases done with
    | false => exact h t row he
    | true =>
      rcases (SqlDataset.mem_insert hhas).mp he with heq | hold
      · cases heq
        exact ⟨k, hk, x.shown_open instant k hk, instant, rfl⟩
      · exact h t row hold

/-- A call starts behind the rows of the table. -/
theorem Synced.start_covered (hs : Sourced x r.dataset) (hg : x.NoGap r.dataset) :
    x.timeline.Covered (fun k => r.dataset.Has k.open_time) r.dataset.get_max_start_time ∧
      (r.dataset.get_max_start_time = 0 ∨
        ∃ k ∈ x.history, r.dataset.Has k.open_time ∧
          k.close_time = r.dataset.get_max_start_time) := by
  rcases r.dataset.max_start_time_cases with ⟨_, hzero⟩ | ⟨row, hrow, hmax, _⟩
  · rw [hzero]
    exact ⟨fun k hk hlt => absurd (x.open_nonneg k hk) (not_le.mpr hlt), Or.inl rfl⟩
  · obtain ⟨t, he⟩ := SqlDataset.mem_rows.mp hrow
    obtain ⟨k, hk, rfl, instant, rfl⟩ := hs t row he
    rw [x.shown_close instant k hk] at hmax
    have hhas : r.dataset.Has k.open_time := SqlDataset.has_iff.mpr ⟨_, he⟩
    have hbefore : x.timeline.Covered (fun j => r.dataset.Has j.open_time)
        (x.timeline.first k) := hg k hk hhas
    rw [← hmax]
    exact ⟨hbefore.last hk hhas, Or.inr ⟨k, hk, hhas, rfl⟩⟩

/-- Behind the loop everything that is over was tried. -/
theorem Cursor.done {klines : List Json} {cursor end_time : ℤ} (h : Cursor x r klines cursor)
    (hend : end_time ≤ cursor) {k : Candle} (hk : k ∈ x.history)
    (hover : k.close_time < end_time ∨ k.close_time = end_time ∧ 0 < end_time) : r.Tried k := by
  obtain ⟨_, _, _, hahead⟩ := h.ahead
  have hopen := x.open_le k hk
  rcases lt_or_ge k.open_time cursor with hlt | hge
  · exact hahead.covered k hk hlt
  · -- The kline starts and ends at the cursor, where another one ends.
    obtain ⟨hclose, hpos⟩ : k.close_time = end_time ∧ 0 < end_time := by
      refine hover.resolve_left fun hlt => ?_
      omega
    rcases h.stands with hzero | ⟨j, hj, htried, hend'⟩
    · omega
    · by_cases hne : j = k
      · exact hne ▸ htried
      · rcases x.apart j hj k hk hne with hlt | hlt
        · omega
        · have := x.open_le j hj
          omega

theorem tried_read {candle k : Candle} {klines : List Json} {b : ℤ} {done : Bool} :
    (r.read candle klines b done).Tried k ↔ r.Tried k ∨ k.open_time = candle.open_time := by
  unfold Tried read
  rw [SqlDataset.has_insert]
  cases done with
  | false =>
    simp only [Bool.false_eq_true, false_and, or_false, if_false, List.mem_cons]
    tauto
  | true =>
    simp only [true_and, if_true]
    tauto

/-- The row of the next kline is read. -/
theorem Cursor.read {kline : Json} {klines : List Json} {a b : ℤ} {candle : Candle}
    (h : Cursor x r (kline :: klines) a) (hparse : BinanceBroker.get_kline kline = some candle)
    (done : Bool) :
    ∃ k ∈ x.history, ∃ instant, candle = x.shown instant k ∧
      x.timeline.Covered r.Tried k.open_time ∧ a ≤ k.open_time ∧
      Cursor x (r.read candle klines b done) klines candle.close_time := by
  obtain ⟨instant, next, hshows, hahead⟩ := h.ahead
  rcases hshows with _ | ⟨hrow, hrest⟩
  rename_i k next
  obtain ⟨hk, hle⟩ := hahead.within k List.mem_cons_self
  obtain rfl : candle = x.shown instant k := Option.some.inj (hparse.symm.trans hrow)
  have hopen := x.shown_open instant k hk
  have hclose := x.shown_close instant k hk
  have htried : (r.read (x.shown instant k) klines b done).Tried k :=
    tried_read.mpr (Or.inr hopen.symm)
  refine ⟨k, hk, instant, rfl, hahead.head, hle, ⟨instant, next, hrest, ?_⟩, ?_, ?_⟩
  · rw [hclose]
    exact hahead.step (fun j hj => tried_read.mpr (Or.inl hj)) htried
  · exact Or.inr ⟨k, hk, htried, hclose.symm⟩
  · have hlast := x.open_le k hk
    change a ≤ k.open_time at hle
    intro t ht
    have hcases : t ∈ r.failed ∨ t = (x.shown instant k).open_time := by
      cases done
      · exact (List.mem_cons.mp ht).symm
      · exact Or.inl ht
    rcases hcases with hold | rfl
    · obtain ⟨j, hj, rfl, hja⟩ := h.behind t hold
      exact ⟨j, hj, rfl, by omega⟩
    · exact ⟨k, hk, hopen.symm, by omega⟩

/-- A stored row leaves no gap when no kline before it is left out. -/
theorem no_gap_read {k candle : Candle} {klines : List Json} {b : ℤ} {done : Bool}
    (hg : x.NoGap r.dataset) (hopen : candle.open_time = k.open_time)
    (hbefore : done = true → ¬ r.dataset.Has k.open_time →
      ∀ j ∈ x.history, j.open_time < k.open_time → r.dataset.Has j.open_time) :
    x.NoGap (r.read candle klines b done).dataset := by
  intro i hi hhas j hj hlt
  apply SqlDataset.has_insert.mpr
  by_cases hold : r.dataset.Has i.open_time
  · exact Or.inl (hg i hi hold j hj hlt)
  · obtain ⟨hdone, heq⟩ := (SqlDataset.has_insert.mp hhas).resolve_left hold
    rw [hopen] at heq
    exact Or.inl (hbefore hdone (heq ▸ hold) j hj (heq ▸ hlt))

theorem synced_step (hstep : ServedStep x r event r') (hrepaired : r.Repaired event)
    (h : Synced x r) : Synced x r' := by
  obtain ⟨hstep, hserves⟩ := hstep
  obtain ⟨hsourced, hgap, hplace⟩ := h
  cases step_moves hstep with
  | begin hpc =>
    obtain ⟨hcovered, hstands⟩ := Synced.start_covered hsourced hgap
    refine ⟨hsourced, hgap, ⟨0, [], .nil, ?_⟩, ?_, fun t ht => absurd ht List.not_mem_nil⟩
    · exact (hcovered.mono fun k hk => Or.inl hk).ahead
    · exact hstands.imp id fun ⟨k, hk, hhas, hend⟩ => ⟨k, hk, Or.inl hhas, hend⟩
  | unconnected hpc => exact ⟨hsourced, hgap, trivial⟩
  | retry hpc hlt hcount =>
    rw [hpc] at hplace
    exact ⟨hsourced, hgap, hplace.ahead, hplace.stands, hplace.behind⟩
  | give_up hpc hlt => exact ⟨hsourced, hgap, trivial⟩
  | response hpc hlt =>
    rw [hpc] at hplace
    obtain ⟨instant, klines, hpage, hshows⟩ := hserves _ _ hpc
    obtain ⟨_, _, _, hahead⟩ := hplace.ahead
    exact ⟨hsourced, hgap, ⟨instant, klines, hshows, hpage.ahead hahead.covered⟩,
      hplace.stands, hplace.behind⟩
  | leave hpc hle =>
    rw [hpc] at hplace
    exact ⟨hsourced, hgap, fun k hk hover => hplace.done hle hk hover⟩
  | unreadable hpc hparse => exact ⟨hsourced, hgap, trivial⟩
  | @insert kline klines a b done candle hpc hparse =>
    rw [hpc] at hplace
    obtain ⟨k, hk, instant, rfl, hbefore, _, hcursor⟩ := hplace.read hparse done (b := b)
    have hopen := x.shown_open instant k hk
    refine ⟨hsourced.insert hk instant done, no_gap_read hgap hopen ?_, hcursor⟩
    rintro rfl hnew j hj hlt
    rcases hbefore j hj hlt with hhas | hfailed
    · exact hhas
    · -- An error kept the kline away, but it was repaired.
      rcases hrepaired kline klines a b _ hpc hparse with hhas | hall
      · exact absurd (hopen ▸ hhas) hnew
      · refine (hall _ hfailed).resolve_left fun heq => ?_
        omega
  | killed => exact ⟨hsourced, hgap, trivial⟩

theorem synced_new (x : KlineExchange) : Synced x {} :=
  ⟨fun _ _ he => absurd he (Map.not_mem_empty _), fun _ _ hhas => absurd hhas List.not_mem_nil,
    trivial⟩

end DownloadRun

/-! ## Downloads without errors of the table -/

/-- The values of a kline never change. -/
def KlineExchange.Immutable (x : KlineExchange) : Prop :=
  ∀ instant, ∀ k ∈ x.history, x.shown instant k = k

/-- The table holds the first klines of the history, each of them once, and no others. -/
structure KlineExchange.Prefix (x : KlineExchange) (data : SqlDataset) : Prop where
  once : data.rows.Nodup
  stored : ∀ k ∈ data.rows, k ∈ x.history
  no_gap : ∀ k ∈ data.rows, ∀ j ∈ x.history, j.open_time < k.open_time → j ∈ data.rows

namespace DownloadRun

/-- The step of the program before the exchange and a table that takes every row. -/
abbrev SafeStep (x : KlineExchange) := Where (ServedStep x) fun _ event => event ≠ .insert false

variable {x : KlineExchange} {r r' : DownloadRun} {event : DownloadEvent}

theorem Sourced.keyed {data : SqlDataset} (himm : x.Immutable) (h : Sourced x data)
    {e : ℤ × Candle} (he : e ∈ data.klines) : e.2 ∈ x.history ∧ e.1 = e.2.open_time := by
  obtain ⟨k, hk, ht, instant, hrow⟩ := h e.1 e.2 he
  rw [himm instant k hk] at hrow
  rw [hrow]
  exact ⟨hk, ht⟩

theorem Sourced.mem_rows {data : SqlDataset} (himm : x.Immutable) (h : Sourced x data) {k : Candle}
    (hk : k ∈ x.history) : k ∈ data.rows ↔ data.Has k.open_time := by
  rw [SqlDataset.mem_rows, SqlDataset.has_iff]
  constructor
  · rintro ⟨t, he⟩
    obtain rfl : t = k.open_time := (h.keyed himm he).2
    exact ⟨k, he⟩
  · rintro ⟨row, he⟩
    obtain ⟨hrow, hopen⟩ := h.keyed himm he
    obtain rfl : k = row := Timeline.eq_of_first (t := x.timeline) hk hrow hopen
    exact ⟨_, he⟩

/-- No kline has two rows, since no two rows have one key. -/
theorem Sourced.once {data : SqlDataset} (himm : x.Immutable) (h : Sourced x data) :
    data.rows.Nodup := by
  have hkeys : data.rows.map Candle.open_time = data.klines.entries.map Prod.fst := by
    unfold SqlDataset.rows
    rw [List.map_map]
    exact List.map_congr_left fun e he => (h.keyed himm he).2.symm
  have hnodup := data.klines.distinct
  rw [← hkeys] at hnodup
  exact hnodup.of_map

theorem Synced.table_first (himm : x.Immutable) (h : Synced x r) : x.Prefix r.dataset := by
  have hstored : ∀ k ∈ r.dataset.rows, k ∈ x.history := by
    intro k hk
    obtain ⟨t, he⟩ := SqlDataset.mem_rows.mp hk
    exact (h.sourced.keyed himm he).1
  refine ⟨h.sourced.once himm, hstored, fun k hk j hj hlt => ?_⟩
  have hhas := (h.sourced.mem_rows himm (hstored k hk)).mp hk
  exact (h.sourced.mem_rows himm hj).mpr (h.no_gap k (hstored k hk) hhas j hj hlt)

/-- Without an error of the table, none is noted. -/
theorem unfailed_step (hstep : Step r event r') (hevent : event ≠ .insert false)
    (h : r.failed = []) : r'.failed = [] := by
  cases step_moves hstep with
  | begin | unconnected => rfl
  | retry | give_up | response | leave | unreadable | killed => exact h
  | @insert kline klines a b done candle hpc hparse =>
    cases done with
    | false => exact absurd rfl hevent
    | true => exact h

theorem safe_step (hstep : SafeStep x r event r') (h : Synced x r ∧ r.failed = []) :
    Synced x r' ∧ r'.failed = [] := by
  obtain ⟨hstep, hevent⟩ := hstep
  refine ⟨synced_step hstep ?_ h.1, unfailed_step hstep.1 hevent h.2⟩
  unfold Repaired
  split
  · intro _ _ _ _ _ _ _
    rw [h.2]
    exact Or.inr fun t ht => absurd ht List.not_mem_nil
  · trivial

theorem safe_run {events : List DownloadEvent} (hrun : Run (SafeStep x) {} events r) :
    Synced x r ∧ r.failed = [] :=
  hrun.invariant (fun _ _ _ hstep h => safe_step hstep h) ⟨synced_new x, rfl⟩

/-- Behind the loop of a call, all klines that are over by its start have their rows. -/
theorem Synced.complete (h : Synced x r) (himm : x.Immutable) (hfailed : r.failed = []) {now : ℤ}
    (hpc : r.pc = .left now) {k : Candle} (hk : k ∈ x.history)
    (hover : k.close_time < now ∨ k.close_time = now ∧ 0 < now) : k ∈ r.dataset.rows := by
  have hplace := h.place
  rw [hpc] at hplace
  refine (h.sourced.mem_rows himm hk).mpr ((hplace k hk hover).resolve_right ?_)
  rw [hfailed]
  exact List.not_mem_nil

end DownloadRun

/-- After every sequence of downloads, with any errors of the network and with the process ended
anywhere, the table holds the first klines of the history, and behind the loop of a call all that
are over by its start. -/
theorem no_download_leaves_a_hole (x : KlineExchange) (himm : x.Immutable)
    {events : List DownloadEvent} {r : DownloadRun}
    (hrun : Run (DownloadRun.SafeStep x) {} events r) :
    x.Prefix r.dataset ∧ ∀ now, r.pc = .left now → ∀ k ∈ x.history,
      k.close_time < now ∨ k.close_time = now ∧ 0 < now → k ∈ r.dataset.rows := by
  obtain ⟨hsynced, hfailed⟩ := DownloadRun.safe_run hrun
  exact ⟨hsynced.table_first himm,
    fun now hpc k hk hover => hsynced.complete himm hfailed hpc hk hover⟩

/-! ## Two klines -/

/-- The row of the minute that starts at the instant, with a close price. -/
def minute_row (open_time : ℤ) (close_price : String) : Json :=
  .arr [.num open_time, .str "100", .str "120", .str "90", .str close_price, .str "1",
    .num (open_time + 59999), .str "100", .num 1, .str "0", .str "0"]

def minute_candle (open_time : ℤ) (close_price : ℚ) : Candle where
  open_time := open_time
  close_time := open_time + 59999
  open_price := 100
  close_price := close_price
  high_price := 120
  low_price := 90
  volume := 1
  quote_volume := 100
  traders := 1
  taker_buy_base := 0
  taker_buy_quote := 0

/-- A market of two minutes. -/
def two_minutes : KlineExchange where
  history := {minute_candle 0 101, minute_candle 60000 102}
  shown _ k := k
  open_nonneg := by
    rintro k (rfl | rfl) <;> decide
  open_le := by
    rintro k (rfl | rfl) <;> decide
  apart := by
    rintro j (rfl | rfl) k (rfl | rfl) hne
    · exact absurd rfl hne
    · exact Or.inl (by decide)
    · exact Or.inr (by decide)
    · exact absurd rfl hne
  shown_open _ _ _ := rfl
  shown_close _ _ _ := rfl
  final _ _ _ _ := rfl

theorem two_minutes_page : two_minutes.timeline.Page 0 90000 1000
    [minute_candle 0 101, minute_candle 60000 102] := by
  refine ⟨by decide, ?_, by decide, ?_⟩
  · intro k hk
    rcases List.mem_pair.mp hk with rfl | rfl
    · exact ⟨Or.inl rfl, by decide, by decide⟩
    · exact ⟨Or.inr rfl, by decide, by decide⟩
  · rintro k (rfl | rfl) _ _
    · exact Or.inl List.mem_cons_self
    · exact Or.inl (List.mem_cons_of_mem _ List.mem_cons_self)

theorem get_first_minute :
    BinanceBroker.get_kline (minute_row 0 "101") = some (minute_candle 0 101) := by
  decide +kernel

theorem get_second_minute :
    BinanceBroker.get_kline (minute_row 60000 "102") = some (minute_candle 60000 102) := by
  decide +kernel

/-- What happens in a call that goes on after an error of the network and gets two klines. -/
def two_rows_events (first second : Json) (first_done second_done : Bool) : List DownloadEvent :=
  [.call 90000 0 .connected, .send_error .connected, .response (.arr [first, second]),
    .insert first_done, .insert second_done, .leave]

/-- Where the call ends. -/
def two_rows_stored (first second : Candle) (second_row : Json) (first_done second_done : Bool) :
    DownloadRun :=
  let r : DownloadRun := { count := 1 }
  { (r.read first [second_row] 90000 first_done).read second [] 90000 second_done with
    pc := .left 90000 }

theorem two_rows_run {x : KlineExchange} {c : DownloadRun → DownloadEvent → Prop}
    {first second : Json} {k l : Candle} (hfirst : BinanceBroker.get_kline first = some k)
    (hsecond : BinanceBroker.get_kline second = some l) (hend : 90000 ≤ l.close_time)
    (first_done second_done : Bool)
    (hserves : ∀ r, r.pc = .loop [] 0 90000 → x.Serves r (.response (.arr [first, second])))
    (hc : ∀ r, ∀ event ∈ two_rows_events first second first_done second_done, c r event) :
    Run (Where (DownloadRun.ServedStep x) c) {}
      (two_rows_events first second first_done second_done)
      (two_rows_stored k l second first_done second_done) := by
  unfold two_rows_events at hc ⊢
  simp only [List.forall_mem_cons] at hc
  have hbegin : DownloadRun.Move {} (.call 90000 0 .connected) { pc := .loop [] 0 90000 } :=
    .begin fun _ _ _ h => nomatch h
  have hretry : DownloadRun.Move { pc := .loop [] 0 90000 } (.send_error .connected)
      { pc := .loop [] 0 90000, count := 1 } := .retry rfl (by decide) (by decide) nofun
  refine .cons ⟨⟨hbegin.step, trivial⟩, (hc _).1⟩ ?_
  refine .cons ⟨⟨hretry.step, trivial⟩, (hc _).2.1⟩ ?_
  refine .cons ⟨⟨(DownloadRun.Move.response rfl (by decide)).step, hserves _ rfl⟩, (hc _).2.2.1⟩ ?_
  refine .cons ⟨⟨(DownloadRun.Move.insert rfl hfirst).step, trivial⟩, (hc _).2.2.2.1⟩ ?_
  refine .cons ⟨⟨(DownloadRun.Move.insert rfl hsecond).step, trivial⟩, (hc _).2.2.2.2.1⟩ ?_
  exact .single ⟨⟨(DownloadRun.Move.leave rfl hend).step, trivial⟩, (hc _).2.2.2.2.2.1⟩

def two_minutes_events : Bool → Bool → List DownloadEvent :=
  two_rows_events (minute_row 0 "101") (minute_row 60000 "102")

def two_minutes_stored : Bool → Bool → DownloadRun :=
  two_rows_stored (minute_candle 0 101) (minute_candle 60000 102) (minute_row 60000 "102")

theorem two_minutes_run {c : DownloadRun → DownloadEvent → Prop} (first_done second_done : Bool)
    (hc : ∀ r, ∀ event ∈ two_minutes_events first_done second_done, c r event) :
    Run (Where (DownloadRun.ServedStep two_minutes) c) {}
      (two_minutes_events first_done second_done) (two_minutes_stored first_done second_done) := by
  refine two_rows_run get_first_minute get_second_minute (by decide) _ _ ?_ hc
  intro r hpc a b hloop
  cases hpc.symm.trans hloop
  exact ⟨0, _, two_minutes_page, .cons get_first_minute (.cons get_second_minute .nil)⟩

/-- Both minutes are stored. -/
theorem two_minutes_are_stored :
    ∃ r : DownloadRun, r.pc = .left 90000 ∧ two_minutes.Prefix r.dataset ∧
      minute_candle 0 101 ∈ r.dataset.rows := by
  have hrun := two_minutes_run (c := fun _ event => event ≠ .insert false) true true
    (by simp [two_minutes_events, two_rows_events])
  obtain ⟨htable, hover⟩ := no_download_leaves_a_hole two_minutes (fun _ _ _ => rfl) hrun
  exact ⟨_, rfl, htable, hover 90000 rfl _ (Or.inl rfl) (Or.inl (by decide))⟩

end wedge
