-- The values of the rows. A row of the table is never replaced, so a kline that
-- was not over when its row was stored keeps the values of that moment.
import Wedge.Dataset.Resume

namespace wedge

open containers timelines runs

/-- Every row holds the final values of the kline under its key. -/
def KlineExchange.AllFinal (x : KlineExchange) (data : SqlDataset) : Prop :=
  ∀ t row, (t, row) ∈ data.klines → row ∈ x.history ∧ row.open_time = t

/-- A row that goes into the table under a new key shows the final values of its kline. They are
final as soon as the kline is over. -/
def KlineExchange.Final (x : KlineExchange) (r : DownloadRun) : DownloadEvent → Prop
  | .insert true => ∀ kline klines a b candle, r.pc = .loop (kline :: klines) a b →
      BinanceBroker.get_kline kline = some candle →
      r.dataset.Has candle.open_time ∨ candle ∈ x.history
  | _ => True

namespace DownloadRun

variable {x : KlineExchange} {r r' : DownloadRun} {event : DownloadEvent}

/-- A row stays as it was stored. -/
theorem row_stays {e : ℤ × Candle} (hstep : Step r event r') (he : e ∈ r.dataset.klines) :
    e ∈ r'.dataset.klines := by
  cases step_moves hstep with
  | begin | unconnected | retry | give_up | response | leave | unreadable | killed => exact he
  | insert hpc hparse => exact SqlDataset.insert_keeps he

/-- A row that is not final is never mended. -/
def Stale (x : KlineExchange) (r : DownloadRun) : Prop :=
  ∃ e ∈ r.dataset.klines, e.2 ∉ x.history

theorem Stale.step (hstep : ServedStep x r event r') (h : Stale x r) : Stale x r' := by
  obtain ⟨e, he, hnot⟩ := h
  exact ⟨e, row_stays hstep.1 he, hnot⟩

theorem Stale.not_final (h : Stale x r) : ¬ x.AllFinal r.dataset := by
  obtain ⟨e, he, hnot⟩ := h
  exact fun hall => hnot (hall e.1 e.2 he).1

theorem final_step (hstep : ServedStep x r event r') (h : x.AllFinal r.dataset)
    (hfinal : x.Final r event) : x.AllFinal r'.dataset := by
  cases step_moves hstep.1 with
  | begin | unconnected | retry | give_up | response | leave | unreadable | killed => exact h
  | @insert kline klines a b done candle hpc hparse =>
    intro t row he
    change (t, row) ∈ (r.dataset.insert candle done).klines at he
    by_cases hhas : r.dataset.Has candle.open_time
    · rw [SqlDataset.insert_again hhas] at he
      exact h t row he
    · cases done with
      | false => exact h t row he
      | true =>
        have hrow := (hfinal kline klines a b candle hpc hparse).resolve_left hhas
        rcases (SqlDataset.mem_insert hhas).mp he with heq | hold
        · cases heq
          exact ⟨hrow, rfl⟩
        · exact h t row hold

theorem stale_of_not_final (hstep : ServedStep x r event r') (hfinal : ¬ x.Final r event) :
    Stale x r' := by
  unfold KlineExchange.Final at hfinal
  split at hfinal
  · push Not at hfinal
    obtain ⟨kline, klines, a, b, candle, hpc, hparse, hnew, hnot⟩ := hfinal
    cases read_of_step hstep.1 hpc hparse
    exact ⟨(candle.open_time, candle), (SqlDataset.mem_insert hnew).mpr (Or.inl rfl), hnot⟩
  · exact absurd trivial hfinal

end DownloadRun

/-- After a sequence of downloads every row holds the final values of its kline if and only if
each row that went into the table under a new key was shown with them. -/
theorem the_rows_are_final_iff (x : KlineExchange) {events : List DownloadEvent} {r : DownloadRun}
    (hrun : Run (DownloadRun.ServedStep x) {} events r) :
    x.AllFinal r.dataset ↔ Run (Where (DownloadRun.ServedStep x) x.Final) {} events r :=
  hrun.good_iff (c := x.Final) (p := fun r => x.AllFinal r.dataset) (q := DownloadRun.Stale x)
    (fun _ _ he => absurd he (Map.not_mem_empty _))
    (fun _ _ _ hstep h hfinal => DownloadRun.final_step hstep h hfinal)
    (fun _ _ _ hstep _ hfinal => DownloadRun.stale_of_not_final hstep hfinal)
    (fun _ _ _ hstep h => h.step hstep) (fun _ h => h) fun _ h => h.not_final

/-- Both minutes were shown with their final values. -/
theorem two_minutes_are_final :
    ∃ events r, Run (Where (DownloadRun.ServedStep two_minutes) two_minutes.Final) {} events r ∧
      r.pc = .left 90000 := by
  have hrun := two_minutes_run (c := fun _ _ => True) true true fun _ _ _ => trivial
  refine ⟨_, _, (the_rows_are_final_iff two_minutes hrun.forget).mp ?_, rfl⟩
  have hentries : (two_minutes_stored true true).dataset.klines.entries =
      [(0, minute_candle 0 101), (60000, minute_candle 60000 102)] := by decide +kernel
  intro t row he
  have hrow : (t, row) ∈ [(0, minute_candle 0 101), (60000, minute_candle 60000 102)] := by
    rw [← hentries]
    exact he
  rcases List.mem_pair.mp hrow with heq | heq <;> cases heq
  · exact ⟨Or.inl rfl, rfl⟩
  · exact ⟨Or.inr rfl, rfl⟩

/-- The two minutes, and the last price of a minute that is not over is 110. -/
def moving_minutes : KlineExchange :=
  { two_minutes with
    shown := fun instant k => if k.close_time < instant then k else { k with close_price := 110 }
    shown_open := fun instant k _ => by split <;> rfl
    shown_close := fun instant k _ => by split <;> rfl
    final := fun instant k _ h => if_pos h }

theorem get_moving_minute :
    BinanceBroker.get_kline (minute_row 60000 "110") = some (minute_candle 60000 110) := by
  decide +kernel

/-- A call in the second minute stores the price of that moment, and the price stays. -/
theorem the_minute_in_progress_stays :
    ∃ events r, Run (DownloadRun.ServedStep moving_minutes) {} events r ∧ r.pc = .left 90000 ∧
      ∀ more q, Run (DownloadRun.ServedStep moving_minutes) r more q →
        (60000, minute_candle 60000 110) ∈ q.dataset.klines ∧
          ¬ moving_minutes.AllFinal q.dataset := by
  have hserves : ∀ r : DownloadRun, r.pc = .loop [] 0 90000 → moving_minutes.Serves r
      (.response (.arr [minute_row 0 "101", minute_row 60000 "110"])) := by
    intro r hpc a b hloop
    cases hpc.symm.trans hloop
    exact ⟨90000, _, two_minutes_page, .cons get_first_minute (.cons get_moving_minute .nil)⟩
  have hrun := two_rows_run (c := fun _ _ => True) get_first_minute get_moving_minute (by decide)
    true true hserves fun _ _ _ => trivial
  have hstored : (60000, minute_candle 60000 110) ∈ (two_rows_stored (minute_candle 0 101)
      (minute_candle 60000 110) (minute_row 60000 "110") true true).dataset.klines.entries := by
    decide +kernel
  refine ⟨_, _, hrun.forget, rfl, fun more q hmore => ?_⟩
  have hstays : (60000, minute_candle 60000 110) ∈ q.dataset.klines :=
    hmore.invariant (p := fun q => (60000, minute_candle 60000 110) ∈ q.dataset.klines)
      (fun _ _ _ hstep he => DownloadRun.row_stays hstep.1 he) hstored
  refine ⟨hstays, fun hall => ?_⟩
  rcases (hall _ _ hstays).1 with heq | heq
  · exact absurd heq (by decide +kernel)
  · exact absurd heq (by decide +kernel)

end wedge
