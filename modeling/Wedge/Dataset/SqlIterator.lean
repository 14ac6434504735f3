-- The reader of the table (`dataset/sql_iterator.cc`): a statement for the rows of a
-- period in the order of the key, and one row of it for each call of `next`.
import Wedge.Dataset.SqlDataset
import Wedge.Lib.Windows

namespace wedge

open containers windows

/-- The largest value of an `int64_t`. -/
def int64_max : ℤ := 9223372036854775807

/-- The prepared statement: its rows, and how many of them were stepped over. -/
structure SqlIterator where
  rows : List Candle
  position : ℕ := 0
  deriving DecidableEq, Repr

namespace SqlIterator

/-- `WHERE open_time >= ? AND open_time <= ? ORDER BY open_time ASC`. The column `open_time` is
the key of the table. -/
def select (start_timestamp end_timestamp : ℤ) (db : SqlDataset) : List Candle :=
  (window Prod.fst start_timestamp end_timestamp db.klines.entries).map fun e =>
    { e.2 with open_time := e.1 }

/-- The bounds of the period. What `as_unix_timestamp` makes of a date depends on the time zone of
the process. -/
def start_timestamp (as_unix_timestamp : String → ℤ) (start_time : Option String) : ℤ :=
  (start_time.map as_unix_timestamp).getD 0

def end_timestamp (as_unix_timestamp : String → ℤ) (end_time : Option String) : ℤ :=
  (end_time.map as_unix_timestamp).getD int64_max

/-- The constructor. -/
def construct (as_unix_timestamp : String → ℤ) (db : SqlDataset)
    (start_time end_time : Option String) : SqlIterator where
  rows := select (start_timestamp as_unix_timestamp start_time)
    (end_timestamp as_unix_timestamp end_time) db

/-- `failed` says that `sqlite3_step` returns neither a row nor the end. A step behind the end
resets the statement first. -/
def next (failed : Bool) (it : SqlIterator) : Except Fault (Option Candle) × SqlIterator :=
  if failed then (.error .abort, it)
  else match it.rows[it.position]? with
    | some candle => (.ok (some candle), { it with position := it.position + 1 })
    | none => (.ok none, { it with position := 0 })

/-- The rows that are still to come. -/
def rest (it : SqlIterator) : List Candle := it.rows.drop it.position

/-- A call of `next` gives the first row that is still to come. -/
theorem next_eq (it : SqlIterator) : it.next false =
    match it.rest with
    | [] => (.ok none, { it with position := 0 })
    | candle :: _ => (.ok (some candle), { it with position := it.position + 1 }) := by
  unfold next rest
  cases h : it.rows[it.position]? with
  | none => simp [List.drop_eq_nil_of_le (List.getElem?_eq_none_iff.mp h)]
  | some candle =>
    obtain ⟨hlt, hget⟩ := List.getElem?_eq_some_iff.mp h
    simp [List.drop_eq_getElem_cons hlt, hget]

theorem rest_step {it : SqlIterator} {candle : Candle} {l : List Candle}
    (h : it.rest = candle :: l) :
    ({ it with position := it.position + 1 } : SqlIterator).rest = l := by
  unfold rest at h ⊢
  rw [← List.drop_drop, h]
  rfl

end SqlIterator

namespace SqlDataset

/-- `SqlDataset::iterator`. -/
def iterator (as_unix_timestamp : String → ℤ) (start_time end_time : Option String)
    (data : SqlDataset) : SqlIterator :=
  SqlIterator.construct as_unix_timestamp data start_time end_time

variable {data : SqlDataset} {start stop mid : ℤ} {row : Candle}

theorem mem_select : row ∈ SqlIterator.select start stop data ↔
    ∃ e ∈ data.klines, row = { e.2 with open_time := e.1 } ∧ start ≤ e.1 ∧ e.1 ≤ stop := by
  unfold SqlIterator.select
  rw [List.mem_map]
  constructor
  · rintro ⟨e, he, rfl⟩
    obtain ⟨hmem, hle⟩ := mem_window.mp he
    exact ⟨e, hmem, rfl, hle⟩
  · rintro ⟨e, hmem, rfl, hle⟩
    exact ⟨e, mem_window.mpr ⟨hmem, hle⟩, rfl⟩

/-- The rows come in the order of time, and no two of them start together. -/
theorem ascends_select (start stop : ℤ) (data : SqlDataset) :
    Ascends Candle.open_time (SqlIterator.select start stop data) := by
  unfold SqlIterator.select Ascends
  rw [List.pairwise_map]
  exact ascends_window data.klines.distinct

theorem select_split (data : SqlDataset) (hstart : start ≤ mid) (hstop : mid ≤ stop) :
    SqlIterator.select start mid data ++
        (SqlIterator.select mid stop data).filter (fun row => row.open_time ≠ mid) =
      SqlIterator.select start stop data := by
  unfold SqlIterator.select
  rw [← window_split data.klines.distinct hstart hstop, List.map_append, List.filter_map]
  rfl

/-- The rows behind the start of a period. -/
theorem select_behind (data : SqlDataset) (h : start ≤ stop) :
    (SqlIterator.select start stop data).filter (fun row => row.open_time ≠ start) =
      if data.Has start then (SqlIterator.select start stop data).tail
      else SqlIterator.select start stop data := by
  have hle : ∀ row ∈ SqlIterator.select start stop data, start ≤ row.open_time := by
    intro row hrow
    obtain ⟨e, _, rfl, hle, _⟩ := mem_select.mp hrow
    exact hle
  have hhas : (∃ row ∈ SqlIterator.select start stop data, row.open_time = start) ↔
      data.Has start := by
    constructor
    · rintro ⟨row, hrow, rfl⟩
      obtain ⟨e, he, rfl, _⟩ := mem_select.mp hrow
      exact has_iff.mpr ⟨e.2, he⟩
    · intro hhas
      obtain ⟨row, he⟩ := has_iff.mp hhas
      exact ⟨_, mem_select.mpr ⟨(start, row), he, rfl, le_rfl, h⟩, rfl⟩
  rw [(ascends_select start stop data).behind hle]
  exact if_congr hhas rfl rfl

end SqlDataset

end wedge
