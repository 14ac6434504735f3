-- The holes of the table. An insert with an error does not stop the loop, and the
-- next kline is stored behind the gap. The cursor of every later call is behind it too.
import Wedge.Dataset.Resume

namespace wedge

open containers timelines runs

namespace DownloadRun

variable {x : KlineExchange} {r r' : DownloadRun} {event : DownloadEvent} {j : Candle}

/-- The kline is not stored, and everything that the program still asks for is behind it. -/
structure Passed (x : KlineExchange) (j : Candle) (r : DownloadRun) : Prop where
  sourced : Sourced x r.dataset
  missing : ¬ r.dataset.Has j.open_time
  later : ∃ k ∈ x.history, r.dataset.Has k.open_time ∧ j.open_time < k.open_time
  place : ∀ klines cursor end_time, r.pc = .loop klines cursor end_time →
    j.open_time < cursor ∧ ∃ instant next, x.Shows instant klines next ∧
      ∀ k ∈ next, k ∈ x.history ∧ j.open_time < k.open_time

/-- A call starts behind every row. -/
theorem Sourced.le_start (h : Sourced x r.dataset) {k : Candle} (hk : k ∈ x.history)
    (hhas : r.dataset.Has k.open_time) : k.close_time ≤ r.dataset.get_max_start_time := by
  obtain ⟨row, he⟩ := SqlDataset.has_iff.mp hhas
  obtain ⟨l, hl, hopen, instant, rfl⟩ := h _ _ he
  obtain rfl : k = l := Timeline.eq_of_first (t := x.timeline) hk hl hopen
  have hrow : x.shown instant k ∈ r.dataset.rows := SqlDataset.mem_rows.mpr ⟨_, he⟩
  rw [← x.shown_close instant k hk]
  rcases r.dataset.max_start_time_cases with ⟨hnil, _⟩ | ⟨_, _, _, hmax⟩
  · rw [hnil] at hrow
    exact absurd hrow List.not_mem_nil
  · exact hmax _ hrow

theorem Passed.step (hstep : ServedStep x r event r') (h : Passed x j r) : Passed x j r' := by
  obtain ⟨hsourced, hmissing, hlater, hplace⟩ := h
  cases step_moves hstep.1 with
  | begin hpc =>
    refine ⟨hsourced, hmissing, hlater, ?_⟩
    rintro klines cursor end_time heq
    cases heq
    obtain ⟨k, hk, hhas, hlt⟩ := hlater
    have hend := hsourced.le_start hk hhas
    have hopen := x.open_le k hk
    exact ⟨by omega, 0, [], .nil, fun _ hk => absurd hk List.not_mem_nil⟩
  | unconnected | give_up | leave | unreadable | killed =>
    exact ⟨hsourced, hmissing, hlater, nofun⟩
  | retry hpc hlt hcount =>
    refine ⟨hsourced, hmissing, hlater, ?_⟩
    rintro klines cursor end_time heq
    cases heq
    exact hplace _ _ _ hpc
  | response hpc hlt =>
    refine ⟨hsourced, hmissing, hlater, ?_⟩
    rintro klines cursor end_time heq
    cases heq
    obtain ⟨hcursor, _⟩ := hplace _ _ _ hpc
    obtain ⟨instant, page, hpage, hshows⟩ := hstep.2 _ _ hpc
    refine ⟨hcursor, instant, page, hshows, fun k hk => ?_⟩
    obtain ⟨hmem, hstart, _⟩ := hpage.within k hk
    exact ⟨hmem, lt_of_lt_of_le hcursor hstart⟩
  | @insert kline klines a b done candle hpc hparse =>
    obtain ⟨_, instant, next, hshows, hnext⟩ := hplace _ _ _ hpc
    rcases hshows with _ | ⟨hrow, hrest⟩
    rename_i k next
    obtain ⟨hk, hlt⟩ := hnext k List.mem_cons_self
    obtain rfl : candle = x.shown instant k := Option.some.inj (hparse.symm.trans hrow)
    have hopen := x.shown_open instant k hk
    have hclose := x.shown_close instant k hk
    have hle := x.open_le k hk
    refine ⟨hsourced.insert hk instant done, ?_, ?_, ?_⟩
    · intro hhas
      rcases SqlDataset.has_insert.mp hhas with hold | ⟨_, heq⟩
      · exact hmissing hold
      · omega
    · obtain ⟨l, hl, hhas, hbefore⟩ := hlater
      exact ⟨l, hl, SqlDataset.has_insert.mpr (Or.inl hhas), hbefore⟩
    · rintro klines' cursor end_time heq
      cases heq
      exact ⟨by omega, instant, next, hrest, fun l hl => hnext l (List.mem_cons_of_mem _ hl)⟩

/-- There is a hole, and no later call fills it. -/
def Broken (x : KlineExchange) (r : DownloadRun) : Prop := ∃ j ∈ x.history, Passed x j r

theorem Broken.gap (h : Broken x r) : ¬ x.NoGap r.dataset := by
  obtain ⟨j, hj, hpassed⟩ := h
  obtain ⟨k, hk, hhas, hlt⟩ := hpassed.later
  exact fun hgap => hpassed.missing (hgap k hk hhas j hj hlt)

/-- A row that goes behind a kline that an error kept away leaves a hole. -/
theorem broken_of_not_repaired (hstep : ServedStep x r event r') (h : Synced x r)
    (hnot : ¬ r.Repaired event) : Broken x r' := by
  unfold Repaired at hnot
  split at hnot
  · push Not at hnot
    obtain ⟨kline, klines, a, b, candle, hpc, hparse, hnew, t, hfailed, hne, hmissing⟩ := hnot
    have hcursor := h.place
    rw [hpc] at hcursor
    obtain ⟨j, hj, rfl, hja⟩ := hcursor.behind t hfailed
    obtain ⟨k, hk, instant, rfl, _, hak, hnext⟩ := hcursor.read hparse true (b := b)
    have hopen := x.shown_open instant k hk
    have hclose := x.shown_close instant k hk
    have hle := x.open_le k hk
    cases read_of_step hstep.1 hpc hparse
    refine ⟨j, hj, h.sourced.insert hk instant true, ?_, ⟨k, hk, ?_, by omega⟩, ?_⟩
    · intro hhas
      exact (SqlDataset.has_insert.mp hhas).elim hmissing fun heq => hne heq.2
    · exact SqlDataset.has_insert.mpr (Or.inr ⟨rfl, hopen.symm⟩)
    · rintro klines' cursor end_time heq
      cases heq
      obtain ⟨instant', next, hshows, hahead⟩ := hnext.ahead
      refine ⟨by omega, instant', next, hshows, fun l hl => ?_⟩
      obtain ⟨hmem, hcursor⟩ := hahead.within l hl
      change _ ≤ l.open_time at hcursor
      exact ⟨hmem, by omega⟩
  · exact absurd trivial hnot

end DownloadRun

/-- After a sequence of downloads the rows have no gap if and only if no row was stored under a new
key while another kline of the same call was missing because of an error of the table. -/
theorem the_rows_have_no_gap_iff (x : KlineExchange) {events : List DownloadEvent} {r : DownloadRun}
    (hrun : Run (DownloadRun.ServedStep x) {} events r) :
    x.NoGap r.dataset ↔
      Run (Where (DownloadRun.ServedStep x) DownloadRun.Repaired) {} events r :=
  hrun.good_iff (p := DownloadRun.Synced x) (q := DownloadRun.Broken x)
    (g := fun r => x.NoGap r.dataset) (DownloadRun.synced_new x)
    (fun _ _ _ hstep h hrepaired => DownloadRun.synced_step hstep hrepaired h)
    (fun _ _ _ hstep h hnot => DownloadRun.broken_of_not_repaired hstep h hnot)
    (fun _ _ _ hstep ⟨j, hj, h⟩ => ⟨j, hj, h.step hstep⟩) (fun _ h => h.no_gap) fun _ h => h.gap

/-- Both minutes are stored, and no error was in between. -/
theorem two_minutes_have_no_gap :
    ∃ events r, Run (Where (DownloadRun.ServedStep two_minutes) DownloadRun.Repaired) {} events r ∧
      r.pc = .left 90000 := by
  have hrun := two_minutes_run (c := fun _ _ => True) true true fun _ _ _ => trivial
  have hfirst : (two_minutes_stored true true).dataset.Has 0 := by decide +kernel
  have hsecond : (two_minutes_stored true true).dataset.Has 60000 := by decide +kernel
  refine ⟨_, _, (the_rows_have_no_gap_iff two_minutes hrun.forget).mp ?_, rfl⟩
  rintro k _ _ j (rfl | rfl) _
  · exact hfirst
  · exact hsecond

/-- The insert of the first minute has an error, and the one of the second minute has none. No
later call stores the first minute. -/
theorem the_first_minute_is_lost :
    ∃ events r, Run (DownloadRun.ServedStep two_minutes) {} events r ∧ r.pc = .left 90000 ∧
      ∀ more q, Run (DownloadRun.ServedStep two_minutes) r more q →
        ¬ q.dataset.Has 0 ∧ ¬ two_minutes.NoGap q.dataset := by
  have hrun := two_minutes_run (c := fun _ _ => True) false true fun _ _ _ => trivial
  have hentries : (two_minutes_stored false true).dataset.klines.entries =
      [(60000, minute_candle 60000 102)] := by decide +kernel
  have hfirst : ¬ (two_minutes_stored false true).dataset.Has 0 := by decide +kernel
  have hsecond : (two_minutes_stored false true).dataset.Has 60000 := by decide +kernel
  have hpassed : DownloadRun.Passed two_minutes (minute_candle 0 101)
      (two_minutes_stored false true) := by
    refine ⟨fun t row he => ?_, hfirst, ⟨minute_candle 60000 102, Or.inr rfl, hsecond, by decide⟩,
      nofun⟩
    have hrow : (t, row) ∈ [(60000, minute_candle 60000 102)] := by
      rw [← hentries]
      exact he
    cases List.mem_singleton.mp hrow
    exact ⟨_, Or.inr rfl, rfl, 0, rfl⟩
  refine ⟨_, _, hrun.forget, rfl, fun more q hmore => ?_⟩
  have hq : DownloadRun.Passed two_minutes (minute_candle 0 101) q :=
    hmore.invariant (fun _ _ _ hstep h => h.step hstep) hpassed
  exact ⟨hq.missing, DownloadRun.Broken.gap ⟨_, Or.inl rfl, hq⟩⟩

end wedge
