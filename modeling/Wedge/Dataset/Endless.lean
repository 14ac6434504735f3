-- The end of the download loop. The cursor moves only with the klines of a response,
-- so a response without a kline behind the cursor is asked for again and again.
import Wedge.Dataset.Resume

namespace wedge

open containers timelines runs

/-- What comes back for a request. -/
inductive Reply
  | send_error (result : ConnectResult)
  | response (body : Json)

namespace DownloadRun

/-- What the event does, where it can come. -/
def turn (event : DownloadEvent) (r : DownloadRun) : DownloadRun := (r.step event).getD r

/-- One round of the loop with all klines of its response. `done` says which inserts the table
takes. -/
def round (done : Json → Bool) (r : DownloadRun) : Reply → DownloadRun
  | .send_error result => r.turn (.send_error result)
  | .response body =>
    body.items.foldl (fun r kline => r.turn (.insert (done kline))) (r.turn (.response body))

/-- The call after the first `n` replies. -/
def after (done : ℕ → Json → Bool) (replies : ℕ → Reply) (r : DownloadRun) : ℕ → DownloadRun
  | 0 => r
  | n + 1 => (r.after done replies n).round (done n) (replies n)

/-- The loop sends a request. -/
def Asks (r : DownloadRun) (start_time end_time : ℤ) : Prop :=
  r.pc = .loop [] start_time end_time ∧ start_time < end_time

/-- The round moves the cursor or counts an error. -/
def Advances (r r' : DownloadRun) : Prop :=
  r'.count = r.count + 1 ∨ ∃ a a' b, r.pc = .loop [] a b ∧ r'.pc = .loop [] a' b ∧ a < a'

theorem turn_run (event : DownloadEvent) (r : DownloadRun) :
    ∃ events, Run Step r events (r.turn event) := by
  unfold turn
  rcases h : r.step event with _ | r'
  · exact ⟨[], .nil r⟩
  · exact ⟨[event], .single h⟩

/-- A round is a part of a run. -/
theorem round_run (done : Json → Bool) (r : DownloadRun) (reply : Reply) :
    ∃ events, Run Step r events (r.round done reply) := by
  cases reply with
  | send_error result => exact turn_run _ r
  | response body =>
    have hrows : ∀ (klines : List Json) (s : DownloadRun), ∃ events, Run Step s events
        (klines.foldl (fun r kline => r.turn (.insert (done kline))) s) := by
      intro klines
      induction klines with
      | nil => exact fun s => ⟨[], .nil s⟩
      | cons kline klines ih =>
        intro s
        obtain ⟨_, h1⟩ := turn_run (.insert (done kline)) s
        obtain ⟨_, h2⟩ := ih (s.turn (.insert (done kline)))
        exact ⟨_, h1.append h2⟩
    obtain ⟨_, h1⟩ := turn_run (.response body) r
    obtain ⟨_, h2⟩ := hrows body.items (r.turn (.response body))
    exact ⟨_, h1.append h2⟩

/-- The rounds of a call are a run. -/
theorem after_run (done : ℕ → Json → Bool) (replies : ℕ → Reply) (r : DownloadRun) (n : ℕ) :
    ∃ events, Run Step r events (r.after done replies n) := by
  induction n with
  | zero => exact ⟨[], .nil r⟩
  | succ n ih =>
    obtain ⟨_, h1⟩ := ih
    obtain ⟨_, h2⟩ := round_run (done n) (r.after done replies n) (replies n)
    exact ⟨_, h1.append h2⟩

theorem Move.turn {r r' : DownloadRun} {event : DownloadEvent} (h : Move r event r') :
    r.turn event = r' := by
  unfold DownloadRun.turn
  rw [show r.step event = some r' from h.step, Option.getD_some]

end DownloadRun

namespace KlineExchange

/-- A response that the history allows: at most 1000 klines of the window in ascending order. -/
def Fits (x : KlineExchange) (start_time end_time : ℤ) : Reply → Prop
  | .send_error _ => True
  | .response body => ∃ instant klines, x.Shows instant body.items klines ∧
      klines.length ≤ 1000 ∧ (klines.Pairwise fun j k => j.open_time < k.open_time) ∧
      ∀ k ∈ klines, k ∈ x.history ∧ start_time ≤ k.open_time ∧ k.open_time ≤ end_time

/-- No kline of the response ends behind the start of the request. -/
def Idle (start_time : ℤ) : Reply → Prop
  | .send_error _ => False
  | .response body => ∀ row ∈ body.items, ∀ candle, BinanceBroker.get_kline row = some candle →
      candle.close_time ≤ start_time

end KlineExchange

namespace DownloadRun

variable {x : KlineExchange} {r : DownloadRun} {done : Json → Bool} {a b : ℤ} {instant : ℤ}
  {rows : List Json} {klines : List Candle} {reply : Reply}

/-! ## One round -/

/-- The cursor behind the klines. -/
def cursor_after (klines : List Candle) (start_time : ℤ) : ℤ :=
  klines.foldl (fun _ k => k.close_time) start_time

theorem rows_read (done : Json → Bool) (hshows : x.Shows instant rows klines)
    (hmem : ∀ k ∈ klines, k ∈ x.history) (hpc : r.pc = .loop rows a b) :
    (rows.foldl (fun r kline => r.turn (.insert (done kline))) r).pc =
        .loop [] (cursor_after klines a) b ∧
      (rows.foldl (fun r kline => r.turn (.insert (done kline))) r).count = r.count := by
  induction hshows generalizing r a with
  | nil => exact ⟨hpc, rfl⟩
  | @cons row k rows klines hrow hrest ih =>
    have hinsert : Move r (.insert (done row)) _ := .insert hpc hrow
    have hclose := x.shown_close instant k (hmem k List.mem_cons_self)
    rw [List.foldl_cons, hinsert.turn]
    obtain ⟨h1, h2⟩ := ih (r := r.read (x.shown instant k) rows b (done row))
      (fun l hl => hmem l (List.mem_cons_of_mem _ hl)) rfl
    refine ⟨h1.trans ?_, h2⟩
    rw [hclose]
    rfl

/-- The cursor stays, or it goes to the end of the last kline, which ends last. -/
theorem cursor_after_cases (hmem : ∀ k ∈ klines, k ∈ x.history)
    (hascending : klines.Pairwise fun j k => j.open_time < k.open_time) :
    (klines = [] ∧ cursor_after klines a = a) ∨
      ∃ k ∈ klines, cursor_after klines a = k.close_time ∧
        ∀ j ∈ klines, j.close_time ≤ k.close_time := by
  rcases List.eq_nil_or_concat klines with rfl | ⟨rest, k, rfl⟩
  · exact Or.inl ⟨rfl, rfl⟩
  · rw [List.concat_eq_append] at hmem hascending ⊢
    refine Or.inr ⟨k, by simp, by simp [cursor_after], fun j hj => ?_⟩
    have hk := hmem k (by simp)
    rcases List.mem_append.mp hj with hj | hj
    · have hlt := (List.pairwise_append.mp hascending).2.2 j hj k List.mem_cons_self
      have hover : j.close_time < k.open_time :=
        Timeline.last_lt (t := x.timeline) (hmem j (by simp [hj])) hk hlt
      exact (hover.trans_le (x.open_le k hk)).le
    · rw [List.mem_singleton.mp hj]

theorem shown_row (hshows : x.Shows instant rows klines) {k : Candle} (hk : k ∈ klines) :
    ∃ row ∈ rows, BinanceBroker.get_kline row = some (x.shown instant k) := by
  induction hshows with
  | nil => exact absurd hk List.not_mem_nil
  | cons hrow hrest ih =>
    rcases List.mem_cons.mp hk with rfl | hk
    · exact ⟨_, List.mem_cons_self, hrow⟩
    · obtain ⟨row, hmem, hparse⟩ := ih hk
      exact ⟨row, List.mem_cons_of_mem _ hmem, hparse⟩

theorem row_shown (hshows : x.Shows instant rows klines) {row : Json} (hrow : row ∈ rows) :
    ∃ k ∈ klines, BinanceBroker.get_kline row = some (x.shown instant k) := by
  induction hshows with
  | nil => exact absurd hrow List.not_mem_nil
  | cons hfirst hrest ih =>
    rcases List.mem_cons.mp hrow with rfl | hrow
    · exact ⟨_, List.mem_cons_self, hfirst⟩
    · obtain ⟨k, hmem, hparse⟩ := ih hrow
      exact ⟨k, List.mem_cons_of_mem _ hmem, hparse⟩

/-- A response moves the cursor to the end of a kline, or it is idle and the cursor stays. -/
theorem round_response {body : Json} (done : Json → Bool) (hasks : r.Asks a b)
    (hfits : x.Fits a b (.response body)) :
    (r.round done (.response body)).count = r.count ∧ ∃ a' ≥ a,
      (r.round done (.response body)).pc = .loop [] a' b ∧
      (KlineExchange.Idle a (.response body) → a' = a) ∧
      (¬ KlineExchange.Idle a (.response body) → ∃ k ∈ x.history, a < k.close_time ∧
        a' = k.close_time) := by
  obtain ⟨instant, klines, hshows, _, hascending, hwithin⟩ := hfits
  have hmem : ∀ k ∈ klines, k ∈ x.history := fun k hk => (hwithin k hk).1
  have hresponse : Move r (.response body) _ := .response hasks.1 hasks.2
  have hturn := hresponse.turn
  obtain ⟨hpc, hcount⟩ := rows_read done (r := r.turn (.response body)) hshows hmem
    (by rw [hturn])
  have hsame : (r.turn (.response body)).count = r.count := by rw [hturn]
  have hrows : ∀ row ∈ body.items, ∀ candle, BinanceBroker.get_kline row = some candle →
      ∃ k ∈ klines, candle.close_time = k.close_time := by
    intro row hrow candle hparse
    obtain ⟨k, hk, hparse'⟩ := row_shown hshows hrow
    obtain rfl : candle = x.shown instant k := Option.some.inj (hparse.symm.trans hparse')
    exact ⟨k, hk, x.shown_close instant k (hmem k hk)⟩
  refine ⟨hcount.trans hsame, cursor_after klines a, ?_, hpc, ?_, ?_⟩
  · rcases cursor_after_cases (a := a) hmem hascending with ⟨_, hsame⟩ | ⟨k, hk, hlast, _⟩
    · rw [hsame]
    · rw [hlast]
      exact (hwithin k hk).2.1.trans (x.open_le k (hmem k hk))
  · intro hidle
    rcases cursor_after_cases (a := a) hmem hascending with ⟨_, hsame⟩ | ⟨k, hk, hlast, _⟩
    · exact hsame
    · obtain ⟨row, hrow, hparse⟩ := shown_row hshows hk
      have hle := hidle row hrow _ hparse
      rw [x.shown_close instant k (hmem k hk)] at hle
      have hge := (hwithin k hk).2.1.trans (x.open_le k (hmem k hk))
      rw [hlast]
      exact le_antisymm hle hge
  · intro hidle
    unfold KlineExchange.Idle at hidle
    push Not at hidle
    obtain ⟨row, hrow, candle, hparse, hlt⟩ := hidle
    obtain ⟨j, hj, hclose⟩ := hrows row hrow candle hparse
    rcases cursor_after_cases (a := a) hmem hascending with ⟨hnil, _⟩ | ⟨k, hk, hlast, hmax⟩
    · exact absurd (hnil ▸ hj) List.not_mem_nil
    · refine ⟨k, hmem k hk, ?_, hlast⟩
      have := hmax j hj
      omega

theorem round_error (done : Json → Bool) (hasks : r.Asks a b) (result : ConnectResult) :
    (r.round done (.send_error result)).count = r.count + 1 ∧
      ((r.round done (.send_error result)).pc = .idle ∨ r.count + 1 < 3 ∧
        (r.round done (.send_error result)).pc = .loop [] a b) := by
  obtain ⟨hpc, hlt⟩ := hasks
  by_cases hover : 3 ≤ r.count + 1 ∨ result = .raised
  · have hturn := (Move.give_up hpc hlt hover).turn
    simp [round, hturn]
  · obtain ⟨hcount, hresult⟩ := not_or.mp hover
    have hturn := (Move.retry hpc hlt (Nat.not_le.mp hcount) hresult).turn
    simp [round, hturn, Nat.not_le.mp hcount]

/-- A round that is not idle moves the cursor or counts an error. -/
theorem advances_iff (hasks : r.Asks a b) (hfits : x.Fits a b reply) :
    r.Advances (r.round done reply) ↔ ¬ KlineExchange.Idle a reply := by
  cases reply with
  | send_error result => exact ⟨fun _ h => h, fun _ => Or.inl (round_error done hasks result).1⟩
  | response body =>
    obtain ⟨hcount, a', hle, hpc, hidle, hmoves⟩ := round_response done hasks hfits
    constructor
    · rintro (hcounted | ⟨c, c', d, hc, hc', hlt⟩) hnot
      · omega
      · cases hasks.1.symm.trans hc
        cases hpc.symm.trans hc'
        have := hidle hnot
        omega
    · intro hnot
      obtain ⟨k, _, hlt, heq⟩ := hmoves hnot
      exact Or.inr ⟨a, a', b, hasks.1, hpc, by omega⟩

/-! ## The number of rounds -/

/-- The klines that end behind the cursor, and the errors that the call takes. -/
noncomputable def budget (x : KlineExchange) (r : DownloadRun) (cursor : ℤ) : ℕ :=
  {k ∈ x.history | cursor < k.close_time}.ncard + max 1 (3 - r.count)

/-- A round that is not the last one takes at least one from the budget. -/
theorem budget_round (hfin : x.history.Finite) (hasks : r.Asks a b) (hfits : x.Fits a b reply)
    (hnot : ¬ KlineExchange.Idle a reply) {a' b' : ℤ} (hasks' : (r.round done reply).Asks a' b') :
    budget x (r.round done reply) a' + 1 ≤ budget x r a := by
  unfold budget
  cases reply with
  | send_error result =>
    obtain ⟨hcount, hidle | ⟨hlt, hpc⟩⟩ := round_error done hasks result
    · exact absurd (hidle.symm.trans hasks'.1) nofun
    · cases hpc.symm.trans hasks'.1
      omega
  | response body =>
    obtain ⟨hcount, c, hle, hpc, _, hmoves⟩ := round_response done hasks hfits
    cases hpc.symm.trans hasks'.1
    obtain ⟨k, hk, hlt, heq⟩ := hmoves hnot
    have hfewer : {k ∈ x.history | a' < k.close_time}.ncard <
        {k ∈ x.history | a < k.close_time}.ncard := by
      apply Set.ncard_lt_ncard
      · refine ⟨fun j hj => ⟨hj.1, lt_of_le_of_lt hle hj.2⟩, fun hall => ?_⟩
        have := (hall ⟨hk, hlt⟩).2
        omega
      · exact hfin.subset fun j hj => hj.1
    rw [hcount]
    omega

/-- While the call asks and no reply is idle, the rounds so far come out of the budget. -/
theorem rounds_le {done : ℕ → Json → Bool} {replies : ℕ → Reply} (hfin : x.history.Finite)
    (hasks : r.Asks a b)
    (hfits : ∀ n a b, (r.after done replies n).Asks a b → x.Fits a b (replies n))
    (hidle : ∀ n a b, (r.after done replies n).Asks a b → ¬ KlineExchange.Idle a (replies n))
    (n : ℕ) (hall : ∀ m ≤ n, ∃ a b, (r.after done replies m).Asks a b) :
    ∃ a' b', (r.after done replies n).Asks a' b' ∧
      n + budget x (r.after done replies n) a' ≤ budget x r a := by
  induction n with
  | zero => exact ⟨a, b, hasks, by simp [after]⟩
  | succ n ih =>
    obtain ⟨c, d, hcd, hle⟩ := ih fun m hm => hall m (Nat.le_succ_of_le hm)
    obtain ⟨c', d', hcd'⟩ := hall (n + 1) (Nat.le_refl _)
    have hstep := budget_round hfin hcd (hfits n c d hcd) (hidle n c d hcd) hcd'
    refine ⟨c', d', hcd', ?_⟩
    change n + 1 + budget x ((r.after done replies n).round (done n) (replies n)) c' ≤ _
    omega

end DownloadRun

/-- For every sequence of replies, the loop ends within the klines of the history and the errors
that the call takes, and each round moves the cursor or counts an error, if and only if each
response that comes has a kline that ends behind the start of its request. -/
theorem the_loop_ends_iff (x : KlineExchange) (hfin : x.history.Finite) (r : DownloadRun)
    (done : ℕ → Json → Bool) (replies : ℕ → Reply)
    (hfits : ∀ n a b, (r.after done replies n).Asks a b → x.Fits a b (replies n)) :
    ((∃ n ≤ x.history.ncard + max 1 (3 - r.count), ∀ a b, ¬ (r.after done replies n).Asks a b) ∧
        ∀ n a b, (r.after done replies n).Asks a b →
          (r.after done replies n).Advances (r.after done replies (n + 1))) ↔
      ∀ n a b, (r.after done replies n).Asks a b → ¬ KlineExchange.Idle a (replies n) := by
  constructor
  · rintro ⟨_, hadvances⟩ n a b hasks
    exact (DownloadRun.advances_iff hasks (hfits n a b hasks)).mp (hadvances n a b hasks)
  · intro hidle
    refine ⟨?_, fun n a b hasks =>
      (DownloadRun.advances_iff hasks (hfits n a b hasks)).mpr (hidle n a b hasks)⟩
    by_contra hnone
    push Not at hnone
    obtain ⟨a, b, hasks⟩ : ∃ a b, r.Asks a b := hnone 0 (Nat.zero_le _)
    have hbudget : DownloadRun.budget x r a ≤ x.history.ncard + max 1 (3 - r.count) :=
      Nat.add_le_add_right (Set.ncard_le_ncard (fun _ hk => hk.1) hfin) _
    obtain ⟨a', b', _, hle⟩ := DownloadRun.rounds_le hfin hasks hfits hidle
      (DownloadRun.budget x r a) fun m hm => hnone m (hm.trans hbudget)
    have hpos : 1 ≤ DownloadRun.budget x (r.after done replies (DownloadRun.budget x r a)) a' :=
      le_add_left (le_max_left _ _)
    omega

/-- A call before the first minute. -/
def first_call : DownloadRun where
  pc := .loop [] 0 90000

/-- Both minutes at once, and then errors only. -/
def both_rows : ℕ → Reply
  | 0 => .response (.arr [minute_row 0 "101", minute_row 60000 "102"])
  | _ + 1 => .send_error .connected

theorem two_minutes_end :
    ∃ n ≤ two_minutes.history.ncard + 3, ∀ a b,
      ¬ (first_call.after (fun _ _ => true) both_rows n).Asks a b := by
  refine ((the_loop_ends_iff two_minutes ?_ first_call _ both_rows ?_).mpr ?_).1
  · exact (Set.finite_singleton _).insert _
  · intro n a b hasks
    rcases n with _ | n
    · cases hasks.1
      exact ⟨0, _, .cons get_first_minute (.cons get_second_minute .nil), by decide, by decide,
        two_minutes_page.within⟩
    · trivial
  · intro n a b hasks
    rcases n with _ | n
    · cases hasks.1
      intro hidle
      exact absurd (hidle _ List.mem_cons_self _ get_first_minute) (by decide)
    · exact fun h => h

/-- A call behind the second minute. -/
def halted_call : DownloadRun where
  pc := .loop [] 119999 200000

def no_rows (_ : ℕ) : Reply := .response (.arr [])

/-- A market that stops at its second minute: there is nothing behind it, and the loop asks for
it for ever. -/
theorem a_halted_market_never_ends :
    (∀ n a b, (halted_call.after (fun _ _ => true) no_rows n).Asks a b →
      two_minutes.Fits a b (no_rows n) ∧ two_minutes.timeline.Page a b 1000 []) ∧
    ∀ n, (halted_call.after (fun _ _ => true) no_rows n).Asks 119999 200000 := by
  have hfits : two_minutes.Fits 119999 200000 (.response (.arr [])) :=
    ⟨0, [], .nil, by decide, .nil, fun _ hk => absurd hk List.not_mem_nil⟩
  have hasks : ∀ n, (halted_call.after (fun _ _ => true) no_rows n).Asks 119999 200000 := by
    intro n
    induction n with
    | zero => exact ⟨rfl, by decide⟩
    | succ n ih =>
      obtain ⟨_, a', _, hpc, hidle, _⟩ :=
        DownloadRun.round_response (fun _ => true) ih hfits
      obtain rfl := hidle nofun
      exact ⟨hpc, by decide⟩
  have hpage : two_minutes.timeline.Page 119999 200000 1000 [] := by
    refine ⟨.nil, fun _ hk => absurd hk List.not_mem_nil, by decide, ?_⟩
    rintro k (rfl | rfl) hle _
    · exact absurd hle (by decide)
    · exact absurd hle (by decide)
  refine ⟨fun n a b hab => ?_, hasks⟩
  cases (hasks n).1.symm.trans hab.1
  exact ⟨hfits, hpage⟩

end wedge
