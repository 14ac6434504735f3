-- The download of the klines (`dataset/download.cc`), one step for each use of the
-- network, of the table and of the loop condition, over many runs of the program.
import Wedge.Binance.Broker
import Wedge.Dataset.SqlDataset
import Wedge.Lib.Runs
import Wedge.Lib.Timeline

namespace wedge

open containers

/-- Where `download` stands: before a call or behind its end, in the while loop, or behind the
loop. The first argument of `loop` holds the klines of the last response that are not read yet,
and without any of them the loop condition is next. -/
inductive DownloadPc
  | idle
  | loop (klines : List Json) (start_time end_time : ℤ)
  | left (end_time : ℤ)

/-- `count` is the static variable. The last field is not in the C++ program: it holds the
`open_time` of each row that the table did not take in this call because of an error. -/
structure DownloadRun where
  pc : DownloadPc := .idle
  dataset : SqlDataset := {}
  count : ℕ := 0
  failed : List ℤ := []

/-- What comes from outside. A call starts at an instant, and `count` is what the earlier calls
of its process have left, those for other files too. A send has an error or a response, and an
insert takes the row or has an error. The process may end at any moment. -/
inductive DownloadEvent
  | call (now : ℤ) (count : ℕ) (result : ConnectResult)
  | send_error (result : ConnectResult)
  | response (body : Json)
  | insert (done : Bool)
  | leave
  | killed
  deriving Inhabited

namespace DownloadRun

/-- The body of the loop over the klines, once the kline is read. -/
def read (candle : Candle) (klines : List Json) (end_time : ℤ) (done : Bool) (r : DownloadRun) :
    DownloadRun :=
  { r with
    pc := .loop klines candle.close_time end_time
    dataset := r.dataset.insert candle done
    failed := if done then r.failed else candle.open_time :: r.failed }

/-- One step. An exception ends the process. -/
def step (r : DownloadRun) (event : DownloadEvent) : Option DownloadRun :=
  match r.pc, event with
  | .idle, .call now count result | .left _, .call now count result =>
    match result with
    | .connected => some { r with
        pc := .loop [] r.dataset.get_max_start_time now
        count := count
        failed := [] }
    | .failed | .raised => some { r with pc := .idle, count := count, failed := [] }
  | .loop [] start_time end_time, .send_error result =>
    if start_time < end_time then
      let r := { r with count := r.count + 1 }
      if 3 ≤ r.count then some { r with pc := .idle }
      else
        match result with
        | .connected | .failed => some r
        | .raised => some { r with pc := .idle }
    else none
  | .loop [] start_time end_time, .response body =>
    if start_time < end_time then some { r with pc := .loop body.items start_time end_time }
    else none
  | .loop [] start_time end_time, .leave =>
    if start_time < end_time then none else some { r with pc := .left end_time }
  | .loop (kline :: klines) _ end_time, .insert done =>
    match BinanceBroker.get_kline kline with
    | none => some { r with pc := .idle }
    | some candle => some (r.read candle klines end_time done)
  | _, .killed => some { r with pc := .idle }
  | _, _ => none

def Step (r : DownloadRun) (event : DownloadEvent) (r' : DownloadRun) : Prop :=
  r.step event = some r'

/-- The steps, one by one. -/
inductive Move (r : DownloadRun) : DownloadEvent → DownloadRun → Prop
  | begin {now : ℤ} {count : ℕ} : (∀ klines a b, r.pc ≠ .loop klines a b) →
      Move r (.call now count .connected) { r with
        pc := .loop [] r.dataset.get_max_start_time now
        count := count
        failed := [] }
  | unconnected {now : ℤ} {count : ℕ} {result : ConnectResult} :
      (∀ klines a b, r.pc ≠ .loop klines a b) → result ≠ .connected →
      Move r (.call now count result) { r with pc := .idle, count := count, failed := [] }
  | retry {result : ConnectResult} {a b : ℤ} : r.pc = .loop [] a b → a < b →
      r.count + 1 < 3 → result ≠ .raised →
      Move r (.send_error result) { r with pc := .loop [] a b, count := r.count + 1 }
  | give_up {result : ConnectResult} {a b : ℤ} : r.pc = .loop [] a b → a < b →
      3 ≤ r.count + 1 ∨ result = .raised →
      Move r (.send_error result) { r with pc := .idle, count := r.count + 1 }
  | response {body : Json} {a b : ℤ} : r.pc = .loop [] a b → a < b →
      Move r (.response body) { r with pc := .loop body.items a b }
  | leave {a b : ℤ} : r.pc = .loop [] a b → b ≤ a → Move r .leave { r with pc := .left b }
  | unreadable {kline : Json} {klines : List Json} {a b : ℤ} {done : Bool} :
      r.pc = .loop (kline :: klines) a b → BinanceBroker.get_kline kline = none →
      Move r (.insert done) { r with pc := .idle }
  | insert {kline : Json} {klines : List Json} {a b : ℤ} {done : Bool} {candle : Candle} :
      r.pc = .loop (kline :: klines) a b → BinanceBroker.get_kline kline = some candle →
      Move r (.insert done) (r.read candle klines b done)
  | killed : Move r .killed { r with pc := .idle }

theorem step_moves {r r' : DownloadRun} {event : DownloadEvent} (h : Step r event r') :
    Move r event r' := by
  unfold Step step at h
  rcases hpc : r.pc with _ | ⟨_ | ⟨kline, klines⟩, a, b⟩ | b <;>
    rcases event with ⟨now, count, _ | _ | _⟩ | result | body | done | _ | _ <;>
    rw [hpc] at h <;> dsimp only at h <;> try cases h
  all_goals first
    | exact .begin (by simp [hpc])
    | exact .unconnected (by simp [hpc]) nofun
    | exact .killed
    | skip
  · split at h
    · rename_i hlt
      split at h
      · cases h
        exact .give_up hpc hlt (Or.inl ‹_›)
      · rename_i hcount
        rcases result with _ | _ | _ <;> cases h
        · exact .retry hpc hlt (Nat.not_le.mp hcount) nofun
        · exact .retry hpc hlt (Nat.not_le.mp hcount) nofun
        · exact .give_up hpc hlt (Or.inr rfl)
    · cases h
  · split at h <;> cases h
    exact .response hpc ‹_›
  · split at h <;> cases h
    exact .leave hpc (not_lt.mp ‹_›)
  · rcases hk : BinanceBroker.get_kline kline with _ | candle <;> rw [hk] at h <;> cases h
    · exact .unreadable hpc hk
    · exact .insert hpc hk

theorem Move.step {r r' : DownloadRun} {event : DownloadEvent} (h : Move r event r') :
    Step r event r' := by
  unfold Step DownloadRun.step
  cases h with
  | begin hpc =>
    rcases h : r.pc with _ | ⟨klines, a, b⟩ | b
    · rfl
    · exact absurd h (hpc klines a b)
    · rfl
  | @unconnected now count result hpc hresult =>
    rcases h : r.pc with _ | ⟨klines, a, b⟩ | b
    · cases result <;> first | rfl | exact absurd rfl hresult
    · exact absurd h (hpc klines a b)
    · cases result <;> first | rfl | exact absurd rfl hresult
  | @retry result a b hpc hlt hcount hresult =>
    simp only [hpc, if_pos hlt, if_neg (Nat.not_le.mpr hcount)]
    cases result <;> first | rfl | exact absurd rfl hresult
  | @give_up result a b hpc hlt hover =>
    simp only [hpc, if_pos hlt]
    by_cases hcount : 3 ≤ r.count + 1
    · rw [if_pos hcount]
    · rw [if_neg hcount, hover.resolve_left hcount]
  | response hpc hlt => simp [hpc, hlt]
  | leave hpc hle => simp [hpc, not_lt.mpr hle]
  | unreadable hpc hparse => simp [hpc, hparse]
  | insert hpc hparse => simp [hpc, hparse]
  | killed => rcases r.pc with _ | ⟨_ | ⟨kline, klines⟩, a, b⟩ | b <;> rfl

/-- An insert of a readable row does only one thing. -/
theorem read_of_step {r r' : DownloadRun} {kline : Json} {klines : List Json} {a b : ℤ}
    {done : Bool} {candle : Candle} (h : Step r (.insert done) r')
    (hpc : r.pc = .loop (kline :: klines) a b)
    (hparse : BinanceBroker.get_kline kline = some candle) : r' = r.read candle klines b done :=
  Option.some.inj (h.symm.trans (Move.insert hpc hparse).step)

end DownloadRun

end wedge
