-- `merge` of `backtest/backtest_context.cc`: two candles that follow each other as one.
-- A candle without a volume is dropped with its time, and the close is the first one.
import Wedge.Common

namespace wedge

/-- The candle over two candles. -/
def merged (previous current : Candle) : Candle where
  open_time := previous.open_time
  close_time := current.close_time
  open_price := previous.open_price
  close_price := previous.close_price
  high_price := max previous.high_price current.high_price
  low_price := min previous.low_price current.low_price
  volume := previous.volume + current.volume
  quote_volume := previous.quote_volume + current.quote_volume
  traders := previous.traders + current.traders
  taker_buy_base := previous.taker_buy_base + current.taker_buy_base
  taker_buy_quote := previous.taker_buy_quote + current.taker_buy_quote

def merge (previous current : Candle) : Except Fault Candle :=
  if previous.volume = 0 then .ok current
  else if current.volume = 0 then .ok previous
  else if previous.close_time = current.open_time then .ok (merged previous current)
  else .error .assertion

/-- Folds `merge` over a list from the left. -/
def merge_all (first : Candle) (rest : List Candle) : Except Fault Candle := rest.foldlM merge first

/-- The second candle opens when the first one closes. -/
def Meets (previous current : Candle) : Prop := previous.close_time = current.open_time

instance (previous current : Candle) : Decidable (Meets previous current) :=
  inferInstanceAs (Decidable (previous.close_time = current.open_time))

theorem merge_all_concat (first : Candle) (rest : List Candle) (candle : Candle) :
    merge_all first (rest ++ [candle]) = merge_all first rest >>= fun c => merge c candle := by
  unfold merge_all
  rw [List.foldlM_append]
  simp

/-! ## The candle over a list -/

/-- The last candle of a list. -/
def last_of (first : Candle) (rest : List Candle) : Candle := rest.getLastD first

/-- The aggregated candle. -/
def aggregate (first : Candle) (rest : List Candle) : Candle where
  open_time := first.open_time
  close_time := (last_of first rest).close_time
  open_price := first.open_price
  close_price := (last_of first rest).close_price
  high_price := ((first :: rest).map Candle.high_price).max (by simp)
  low_price := ((first :: rest).map Candle.low_price).min (by simp)
  volume := ((first :: rest).map Candle.volume).sum
  quote_volume := ((first :: rest).map Candle.quote_volume).sum
  traders := ((first :: rest).map Candle.traders).sum
  taker_buy_base := ((first :: rest).map Candle.taker_buy_base).sum
  taker_buy_quote := ((first :: rest).map Candle.taker_buy_quote).sum

theorem last_of_concat (first : Candle) (rest : List Candle) (candle : Candle) :
    last_of first (rest ++ [candle]) = candle := by
  simp [last_of]

theorem high_aggregate (first : Candle) (rest : List Candle) :
    (aggregate first rest).high_price = (rest.map Candle.high_price).foldl max first.high_price :=
  rfl

theorem low_aggregate (first : Candle) (rest : List Candle) :
    (aggregate first rest).low_price = (rest.map Candle.low_price).foldl min first.low_price :=
  rfl

/-- One more candle. -/
theorem aggregate_concat (first : Candle) (rest : List Candle) (candle : Candle) :
    aggregate first (rest ++ [candle]) =
      { merged (aggregate first rest) candle with close_price := candle.close_price } := by
  have hhigh : (aggregate first (rest ++ [candle])).high_price =
      max (aggregate first rest).high_price candle.high_price := by
    rw [high_aggregate, high_aggregate, List.map_append, List.foldl_append]
    rfl
  have hlow : (aggregate first (rest ++ [candle])).low_price =
      min (aggregate first rest).low_price candle.low_price := by
    rw [low_aggregate, low_aggregate, List.map_append, List.foldl_append]
    rfl
  unfold merged
  rw [← hhigh, ← hlow]
  simp [aggregate, last_of_concat, add_assoc]

/-- The candles merged from the left are the aggregated candle, with the close of the first. -/
theorem foldl_merged (first : Candle) (rest : List Candle) :
    rest.foldl merged first = { aggregate first rest with close_price := first.close_price } := by
  induction rest using List.reverseRecOn with
  | nil => simp [aggregate, last_of]
  | append_singleton rest candle ih =>
    rw [List.foldl_concat, ih, aggregate_concat]
    rfl

/-! ## Which candles the fold keeps -/

/-- The candles with a volume. -/
def trading (candles : List Candle) : List Candle :=
  candles.filter fun candle => candle.volume ≠ 0

theorem trading_concat (first : Candle) (rest : List Candle) (candle : Candle) :
    trading (first :: (rest ++ [candle])) =
      if candle.volume = 0 then trading (first :: rest)
      else trading (first :: rest) ++ [candle] := by
  unfold trading
  rw [← List.cons_append, List.filter_append, List.filter_singleton]
  by_cases h : candle.volume = 0 <;> simp [h]

theorem last_of_mem (first : Candle) (rest : List Candle) : last_of first rest ∈ first :: rest :=
  List.getLastD_mem_cons

theorem chain_concat (first : Candle) (rest : List Candle) (candle : Candle) :
    (first :: (rest ++ [candle])).IsChain Meets ↔
      (first :: rest).IsChain Meets ∧ Meets (last_of first rest) candle := by
  rw [← List.cons_append, List.isChain_append]
  simp [List.getLast?_cons, last_of, List.getLastD_eq_getLast?]

/-- The volumes add up to a volume. -/
theorem volume_merged {first : Candle} {rest : List Candle} (hfirst : 0 < first.volume)
    (hrest : ∀ candle ∈ rest, 0 < candle.volume) : 0 < (rest.foldl merged first).volume := by
  induction rest using List.reverseRecOn with
  | nil => exact hfirst
  | append_singleton rest candle ih =>
    rw [List.foldl_concat]
    have hold := ih fun c hc => hrest c (List.mem_append_left _ hc)
    have hnew := hrest candle (List.mem_append_right _ (List.mem_singleton.mpr rfl))
    exact add_pos hold hnew

theorem close_time_merged (first : Candle) (rest : List Candle) :
    (rest.foldl merged first).close_time = (last_of first rest).close_time := by
  rw [foldl_merged]
  rfl

theorem merge_quiet {previous : Candle} (h : previous.volume = 0) (current : Candle) :
    merge previous current = .ok current := if_pos h

theorem last_quiet {first : Candle} {rest : List Candle} (h : trading (first :: rest) = []) :
    (last_of first rest).volume = 0 := by
  have hall := List.filter_eq_nil_iff.mp h _ (last_of_mem first rest)
  simpa using hall

/-- Until there is a candle with a volume the last candle stands for the list. -/
theorem merge_all_quiet {first : Candle} {rest : List Candle} (h : trading (first :: rest) = []) :
    merge_all first rest = .ok (last_of first rest) := by
  induction rest using List.reverseRecOn with
  | nil => rfl
  | append_singleton rest candle ih =>
    rw [trading_concat] at h
    split_ifs at h with hquiet
    · rw [merge_all_concat, ih h, last_of_concat]
      exact merge_quiet (last_quiet h) candle
    · exact absurd h (List.append_ne_nil_of_right_ne_nil _ (List.cons_ne_nil _ _))

theorem trading_pos {candles : List Candle} (hvolume : ∀ candle ∈ candles, 0 ≤ candle.volume) :
    ∀ candle ∈ trading candles, 0 < candle.volume := by
  intro candle h
  obtain ⟨hmem, hne⟩ := List.mem_filter.mp h
  exact lt_of_le_of_ne (hvolume candle hmem) (of_decide_eq_true hne).symm

theorem merge_trading {previous current : Candle} (hprevious : previous.volume ≠ 0)
    (hcurrent : current.volume ≠ 0) :
    merge previous current =
      if previous.close_time = current.open_time then .ok (merged previous current)
      else .error .assertion := by
  unfold merge
  rw [if_neg hprevious, if_neg hcurrent]

/-- The candles with a volume merged, as long as they meet each other. -/
def merge_chain (start : Candle) (more : List Candle) : Except Fault Candle :=
  if (start :: more).IsChain Meets then .ok (more.foldl merged start) else .error .assertion

theorem volume_chain {start : Candle} {more : List Candle}
    (hpos : ∀ candle ∈ start :: more, 0 < candle.volume) :
    (more.foldl merged start).volume ≠ 0 :=
  (volume_merged (hpos start List.mem_cons_self) fun c hc =>
    hpos c (List.mem_cons_of_mem _ hc)).ne'

/-- A quiet candle changes nothing. -/
theorem merge_chain_quiet {start : Candle} {more : List Candle} {candle : Candle}
    (hpos : ∀ c ∈ start :: more, 0 < c.volume) (hquiet : candle.volume = 0) :
    (merge_chain start more >>= fun c => merge c candle) = merge_chain start more := by
  unfold merge_chain
  split_ifs
  · exact (if_neg (volume_chain hpos)).trans (if_pos hquiet)
  · rfl

/-- A candle with a volume has to meet the last one. -/
theorem merge_chain_trading {start : Candle} {more : List Candle} {candle : Candle}
    (hpos : ∀ c ∈ start :: more, 0 < c.volume) (hcandle : candle.volume ≠ 0) :
    (merge_chain start more >>= fun c => merge c candle) =
      merge_chain start (more ++ [candle]) := by
  have hmerge := merge_trading (volume_chain hpos) hcandle
  rw [close_time_merged] at hmerge
  unfold merge_chain
  rw [List.foldl_concat]
  by_cases hchain : (start :: more).IsChain Meets
  · rw [if_pos hchain]
    by_cases hmeets : Meets (last_of start more) candle
    · rw [if_pos ((chain_concat start more candle).mpr ⟨hchain, hmeets⟩)]
      exact hmerge.trans (if_pos hmeets)
    · rw [if_neg fun h => hmeets ((chain_concat start more candle).mp h).2]
      exact hmerge.trans (if_neg hmeets)
  · rw [if_neg hchain, if_neg fun h => hchain ((chain_concat start more candle).mp h).1]
    rfl

theorem merge_chain_single (candle : Candle) : merge_chain candle [] = .ok candle :=
  if_pos (List.isChain_singleton _)

/-- After the first candle with a volume the fold is about the candles with a volume alone. -/
theorem merge_all_trading {first : Candle} {rest : List Candle}
    (hvolume : ∀ candle ∈ first :: rest, 0 ≤ candle.volume) {start : Candle} {more : List Candle}
    (h : trading (first :: rest) = start :: more) :
    merge_all first rest = merge_chain start more := by
  induction rest using List.reverseRecOn generalizing start more with
  | nil =>
    have hsingle : first = start ∧ [] = more := by
      by_cases hquiet : first.volume = 0
      · simp [trading, hquiet] at h
      · simpa [trading, hquiet] using h
    obtain ⟨rfl, rfl⟩ := hsingle
    exact (merge_chain_single first).symm
  | append_singleton rest candle ih =>
    have hrest : ∀ c ∈ first :: rest, 0 ≤ c.volume := by
      intro c hc
      apply hvolume
      rw [← List.cons_append]
      exact List.mem_append_left _ hc
    have hpos := trading_pos hrest
    rw [trading_concat] at h
    rw [merge_all_concat]
    split_ifs at h with hquiet
    · rw [h] at hpos
      rw [ih hrest h, merge_chain_quiet hpos hquiet]
    · cases hold : trading (first :: rest) with
      | nil =>
        rw [hold] at h
        obtain ⟨rfl, rfl⟩ := List.cons.inj h
        rw [merge_all_quiet hold, merge_chain_single]
        exact merge_quiet (last_quiet hold) candle
      | cons k ks =>
        rw [hold] at hpos
        rw [hold, List.cons_append] at h
        obtain ⟨rfl, rfl⟩ := List.cons.inj h
        rw [ih hrest hold]
        exact merge_chain_trading hpos hquiet

/-! ## Candles that all have a volume -/

theorem trading_all {candles : List Candle} (h : ∀ candle ∈ candles, 0 < candle.volume) :
    trading candles = candles :=
  List.filter_eq_self.mpr fun candle hc => decide_eq_true (h candle hc).ne'

theorem merge_all_eq {first : Candle} {rest : List Candle}
    (hvolume : ∀ candle ∈ first :: rest, 0 < candle.volume)
    (hchain : (first :: rest).IsChain Meets) :
    merge_all first rest = .ok (rest.foldl merged first) := by
  rw [merge_all_trading (fun c hc => (hvolume c hc).le) (trading_all hvolume)]
  exact if_pos hchain

theorem merged_assoc (a b c : Candle) : merged (merged a b) c = merged a (merged b c) := by
  simp [merged, max_assoc, min_assoc, add_assoc]

instance : Std.Associative merged := ⟨merged_assoc⟩

theorem open_time_merged (first : Candle) (rest : List Candle) :
    (rest.foldl merged first).open_time = first.open_time := by
  rw [foldl_merged]
  rfl

/-- A split of the candles changes nothing. -/
theorem merge_all_split {first : Candle} {left : List Candle} {candle : Candle}
    {right : List Candle} (hvolume : ∀ c ∈ first :: left ++ candle :: right, 0 < c.volume)
    (hchain : (first :: left ++ candle :: right).IsChain Meets) :
    (do
      let previous ← merge_all first left
      let current ← merge_all candle right
      merge previous current) = merge_all first (left ++ candle :: right) := by
  have hleft : ∀ c ∈ first :: left, 0 < c.volume := fun c hc =>
    hvolume c (List.mem_append_left _ hc)
  have hright : ∀ c ∈ candle :: right, 0 < c.volume := fun c hc =>
    hvolume c (List.mem_append_right _ hc)
  obtain ⟨hchain1, hchain2, hmeets⟩ := List.isChain_append.mp hchain
  have hboth : (left.foldl merged first).close_time = (right.foldl merged candle).open_time := by
    rw [close_time_merged, open_time_merged]
    exact hmeets _ (by simp [last_of, List.getLast?_cons]) _ rfl
  have hall : merge_all first (left ++ candle :: right) =
      .ok ((left ++ candle :: right).foldl merged first) := merge_all_eq hvolume hchain
  rw [merge_all_eq hleft hchain1, merge_all_eq hright hchain2, hall, List.foldl_append,
    List.foldl_cons, List.foldl_assoc]
  exact (merge_trading (volume_chain hleft) (volume_chain hright)).trans (if_pos hboth)

/-- Candles that meet each other and all have a volume merge to the aggregated candle, however they
are split, if and only if the first and the last of them have the same close. -/
theorem merging_aggregates_iff {first : Candle} {rest : List Candle}
    (hvolume : ∀ candle ∈ first :: rest, 0 < candle.volume)
    (hchain : (first :: rest).IsChain Meets) :
    (merge_all first rest = .ok (aggregate first rest) ∧
      ∀ left candle right, rest = left ++ candle :: right →
        (do
          let previous ← merge_all first left
          let current ← merge_all candle right
          merge previous current) = .ok (aggregate first rest)) ↔
      first.close_price = (last_of first rest).close_price := by
  have hall := merge_all_eq hvolume hchain
  rw [foldl_merged] at hall
  constructor
  · rintro ⟨h, -⟩
    rw [hall] at h
    have hclose := congrArg Candle.close_price (Except.ok.inj h)
    exact hclose
  · intro hclose
    have hfold : merge_all first rest = .ok (aggregate first rest) := by
      rw [hall, hclose]
      rfl
    refine ⟨hfold, ?_⟩
    rintro left candle right rfl
    rw [merge_all_split hvolume hchain, hfold]

/-- A candle from one instant to the next. -/
def minute (open_time : ℤ) (close_price volume : ℚ) : Candle :=
  { flat_candle close_price with
    open_time := open_time, close_time := open_time + 1, volume := volume }

theorem two_minutes_aggregate :
    (merge_all (minute 0 100 1) [minute 1 100 2] =
        .ok (aggregate (minute 0 100 1) [minute 1 100 2]) ∧
      ∀ left candle right, [minute 1 100 2] = left ++ candle :: right →
        (do
          let previous ← merge_all (minute 0 100 1) left
          let current ← merge_all candle right
          merge previous current) = .ok (aggregate (minute 0 100 1) [minute 1 100 2])) ↔
      (minute 0 100 1).close_price = (last_of (minute 0 100 1) [minute 1 100 2]).close_price :=
  merging_aggregates_iff (by decide +kernel) (by decide)

/-- The price goes from 100 to 110, and the merged candle closes at 100. -/
theorem the_close_is_the_first_close :
    merge_all (minute 0 100 1) [minute 1 110 1] =
        .ok { aggregate (minute 0 100 1) [minute 1 110 1] with close_price := 100 } ∧
      merge_all (minute 0 100 1) [minute 1 110 1] ≠
        .ok (aggregate (minute 0 100 1) [minute 1 110 1]) := by
  decide +kernel

/-! ## Candles without a volume -/

/-- What the fold keeps of a list: the candles with a volume, or the last candle when none has
one. -/
def kept (first : Candle) (rest : List Candle) : List Candle :=
  match trading (first :: rest) with
  | [] => [last_of first rest]
  | start :: more => start :: more

/-- The fold ends well and takes the time of the whole list if and only if the candles that it
keeps meet each other, open when the list opens and close when the list closes. -/
theorem merging_spans_iff {first : Candle} {rest : List Candle}
    (hvolume : ∀ candle ∈ first :: rest, 0 ≤ candle.volume) :
    (∃ candle, merge_all first rest = .ok candle ∧ candle.open_time = first.open_time ∧
        candle.close_time = (last_of first rest).close_time) ↔
      (kept first rest).IsChain Meets ∧
        (kept first rest).head?.map Candle.open_time = some first.open_time ∧
        (kept first rest).getLast?.map Candle.close_time =
          some (last_of first rest).close_time := by
  unfold kept
  cases htrading : trading (first :: rest) with
  | nil =>
    rw [merge_all_quiet htrading]
    simp
  | cons start more =>
    have hlast : (start :: more).getLast?.map Candle.close_time =
        some (last_of start more).close_time := by
      simp [List.getLast?_cons, last_of]
    rw [merge_all_trading hvolume htrading, merge_chain, hlast]
    by_cases hchain : (start :: more).IsChain Meets
    · rw [if_pos hchain]
      simp [hchain, open_time_merged, close_time_merged]
    · rw [if_neg hchain]
      simp [hchain]

/-- Three minutes with a volume are merged into one candle from the first to the third. -/
theorem three_trading_minutes_span :
    ∃ candle, merge_all (minute 0 100 1) [minute 1 110 1, minute 2 90 1] = .ok candle ∧
      candle.open_time = 0 ∧ candle.close_time = 3 := by
  have hvolume : ∀ candle ∈ [minute 0 100 1, minute 1 110 1, minute 2 90 1], 0 ≤ candle.volume := by
    decide +kernel
  exact (merging_spans_iff hvolume).mpr (by decide +kernel)

/-- The candle in the middle has no volume, and the third one does not meet the first. -/
theorem a_quiet_minute_fails :
    [minute 0 100 1, minute 1 100 0, minute 2 100 1].IsChain Meets ∧
      merge_all (minute 0 100 1) [minute 1 100 0, minute 2 100 1] = .error .assertion := by
  decide +kernel

/-- How long a candle takes. -/
def duration (candle : Candle) : ℤ := candle.close_time - candle.open_time

theorem sum_duration {first : Candle} {rest : List Candle}
    (hchain : (first :: rest).IsChain Meets) :
    ((first :: rest).map duration).sum = (last_of first rest).close_time - first.open_time := by
  induction rest using List.reverseRecOn with
  | nil => simp [duration, last_of]
  | append_singleton rest candle ih =>
    obtain ⟨hold, hmeets⟩ := (chain_concat first rest candle).mp hchain
    rw [← List.cons_append, List.map_append, List.sum_append, ih hold, last_of_concat]
    unfold Meets at hmeets
    simp [duration, hmeets]

/-- Some of the candles take as long as all of them only when they are all of them. -/
theorem eq_of_duration {some_of all : List Candle} (hsub : some_of.Sublist all)
    (htime : ∀ candle ∈ all, candle.open_time < candle.close_time) :
    (some_of.map duration).sum ≤ (all.map duration).sum ∧
      ((some_of.map duration).sum = (all.map duration).sum → some_of = all) := by
  induction hsub with
  | slnil => exact ⟨le_rfl, fun _ => rfl⟩
  | cons candle _ ih =>
    obtain ⟨hle, -⟩ := ih fun c hc => htime c (List.mem_cons_of_mem _ hc)
    have hpos := htime candle List.mem_cons_self
    simp only [List.map_cons, List.sum_cons, duration] at hle ⊢
    exact ⟨by linarith, fun h => absurd h (by linarith)⟩
  | cons_cons candle _ ih =>
    obtain ⟨hle, heq⟩ := ih fun c hc => htime c (List.mem_cons_of_mem _ hc)
    simp only [List.map_cons, List.sum_cons]
    exact ⟨by linarith, fun h => by rw [heq (by linarith)]⟩

theorem kept_sublist (first : Candle) (rest : List Candle) :
    (kept first rest).Sublist (first :: rest) := by
  unfold kept
  split
  · exact List.singleton_sublist.mpr (last_of_mem first rest)
  · rename_i h
    rw [← h]
    exact List.filter_sublist

theorem kept_eq_all_iff (first : Candle) (rest : List Candle) :
    kept first rest = first :: rest ↔
      rest = [] ∨ ∀ candle ∈ first :: rest, candle.volume ≠ 0 := by
  unfold kept
  cases h : trading (first :: rest) with
  | nil =>
    have hquiet := List.filter_eq_nil_iff.mp h first List.mem_cons_self
    have hfirst : first.volume = 0 := by simpa using hquiet
    cases rest with
    | nil => simp [last_of]
    | cons candle rest => simp [hfirst]
  | cons start more =>
    simp only [← h]
    constructor
    · intro hall
      right
      intro candle hc
      exact of_decide_eq_true (List.filter_eq_self.mp hall candle hc)
    · rintro (rfl | hall)
      · unfold trading at h ⊢
        by_cases hquiet : first.volume = 0
        · simp [hquiet] at h
        · simp [hquiet]
      · exact List.filter_eq_self.mpr fun candle hc => decide_eq_true (hall candle hc)

/-- When each candle takes some time, what the fold keeps spans the list exactly when no candle
is quiet or there is only one. -/
theorem kept_spans_iff {first : Candle} {rest : List Candle}
    (hchain : (first :: rest).IsChain Meets)
    (htime : ∀ candle ∈ first :: rest, candle.open_time < candle.close_time) :
    ((kept first rest).IsChain Meets ∧
        (kept first rest).head?.map Candle.open_time = some first.open_time ∧
        (kept first rest).getLast?.map Candle.close_time =
          some (last_of first rest).close_time) ↔
      rest = [] ∨ ∀ candle ∈ first :: rest, candle.volume ≠ 0 := by
  rw [← kept_eq_all_iff]
  constructor
  · rintro ⟨hkept, hhead, hlast⟩
    apply (eq_of_duration (kept_sublist first rest) htime).2
    cases h : kept first rest with
    | nil => simp [h] at hhead
    | cons start more =>
      rw [h] at hkept hhead hlast
      have hopen : start.open_time = first.open_time := by simpa using hhead
      have hclose : (last_of start more).close_time = (last_of first rest).close_time := by
        simpa [List.getLast?_cons, last_of] using hlast
      rw [sum_duration hkept, sum_duration hchain, hopen, hclose]
  · intro h
    rw [h]
    refine ⟨hchain, rfl, ?_⟩
    simp [List.getLast?_cons, last_of]

end wedge
