-- The two tables of interval names (`binance/market/klines.h`). `from_str` scans one up
-- to its sentinel, and the constructor of the request reads the other, which has none.
import Wedge.Binance.Broker

namespace wedge.market

/-- The table of `from_str`, with the null pointer at its end. -/
def scanned_str : List (Option String) :=
  [some "1m", some "3m", some "5m", some "15m", some "30m", some "1h",
    some "2h", some "4h", some "6h", some "8h", some "12h", some "1d",
    some "3d", some "1w", some "1M", none]

/-- The loop of `from_str`: it stops at the sentinel or at the string. -/
def scan (str : String) : List (Option String) → ℕ
  | some name :: table => if str ≠ name then scan str table + 1 else 0
  | _ => 0

/-- The table of `Klines::Klines`. -/
def sent_str : List String :=
  ["1m", "3m", "5m", "15m", "30m",
    "1h", "2h", "4h", "6h", "8h",
    "12h", "1d", "3d", "1w", "1M"]

/-- A scan up to the sentinel gives the position, or the number of names. -/
theorem scan_names (str : String) (names : List String) (rest : List (Option String)) :
    scan str (names.map some ++ none :: rest) = names.idxOf str := by
  induction names with
  | nil => rfl
  | cons name names ih =>
    rw [List.map_cons, List.cons_append, scan, ih, List.idxOf_cons]
    by_cases h : str = name
    · simp [h]
    · have hne : (name == str) = false := beq_false_of_ne (Ne.symm h)
      rw [if_pos h, hne, cond_false]

theorem scanned_str_eq : scanned_str = interval_str.map some ++ none :: [] := rfl

theorem sent_str_eq : sent_str = interval_str := rfl

theorem from_str_eq_scan (str : String) : from_str str = scan str scanned_str := by
  rw [scanned_str_eq, scan_names]
  rfl

theorem Klines_eq (symbol : String) (interval : ℕ) :
    Klines symbol interval = sent_str[interval]?.map fun name =>
      { method := .get, path := "/api/v3/klines",
        params := [("symbol", symbol), ("interval", name)] } := rfl

/-- The scan stays within the second table exactly for the names of the table. -/
theorem scan_lt_iff (str : String) :
    scan str scanned_str < sent_str.length ↔ str ∈ interval_str := by
  rw [← from_str_eq_scan, sent_str_eq]
  exact List.idxOf_lt_length_iff

/-- The index that `from_str` gives lies in the table of the request, and the string itself is
sent, if and only if the string is one of the names. No string is rejected. -/
theorem an_interval_is_sent_iff (symbol str : String) :
    (scan str scanned_str < sent_str.length ∧
      ∃ r, Klines symbol (from_str str) = some r ∧
        r.params = [("symbol", symbol), ("interval", str)]) ↔
      str ∈ interval_str := by
  rw [scan_lt_iff]
  constructor
  · exact fun h => h.1
  · intro h
    have hname : sent_str[from_str str]? = some str := List.getElem?_idxOf h
    refine ⟨h, ?_⟩
    rw [Klines_eq, hname]
    exact ⟨_, rfl, rfl⟩

/-- Two days are no interval of the table. The index is 15, behind the last entry. -/
theorem two_days_are_behind_the_table :
    scan "2d" scanned_str = sent_str.length ∧
      (∀ symbol, Klines symbol (from_str "2d") = none) ∧
      ∀ (b : BinanceBroker) (symbol : String) (start_time end_time : ℤ),
        b.get_klines symbol "2d" start_time end_time = .fail .undefined := by
  have hscan : scan "2d" scanned_str = 15 := by decide
  have hnone (symbol : String) : Klines symbol (from_str "2d") = none := by
    rw [from_str_eq_scan, hscan]
    rfl
  refine ⟨hscan, hnone, fun b symbol start_time end_time => ?_⟩
  unfold BinanceBroker.get_klines
  rw [hnone]

end wedge.market
