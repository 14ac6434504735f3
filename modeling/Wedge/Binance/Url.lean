-- The URL of a request and its signature (`URLBuilder` in `binance/binance_http_client.cc`).
-- Keys and values go into the query string as they are.
import Wedge.Binance.Http
import Wedge.Lib.Pairs

namespace wedge

structure URLBuilder where
  query_string_ : String := ""
  deriving DecidableEq, Repr

namespace URLBuilder

def set (key value : String) (u : URLBuilder) : URLBuilder :=
  let query_string := if u.query_string_ = "" then u.query_string_ else u.query_string_.push '&'
  { query_string_ := (query_string ++ key).push '=' ++ value }

def bin2hex (bin : List UInt8) : String :=
  String.ofList (bin.flatMap fun byte =>
    [Nat.digitChar (byte.toNat / 16), Nat.digitChar (byte.toNat % 16)])

section hmac

-- The HMAC with SHA-256: from a key and a message to bytes.
variable (hmac : String → String → List UInt8)

def create_signature (secret_key : String) (u : URLBuilder) : String :=
  bin2hex (hmac secret_key u.query_string_)

def sign (current_timestamp : ℤ) (secret_key : String) (u : URLBuilder) : URLBuilder :=
  let u := u.set "timestamp" (toString current_timestamp)
  u.set "signature" (u.create_signature hmac secret_key)

end hmac

def url (target : String) (u : URLBuilder) : String :=
  if u.query_string_ = "" then target else target.push '?' ++ u.query_string_

/-- The loop over the parameters of a request. -/
def of_params (params : List (String × String)) : URLBuilder :=
  params.foldl (fun u param => u.set param.1 param.2) {}

end URLBuilder

/-- The target of the http request that `send` and `send_sync` write. -/
def Request.target (hmac : String → String → List UInt8) (current_timestamp : ℤ)
    (request : Request) : String :=
  let url_builder := URLBuilder.of_params request.params
  let url_builder := match request.credentials with
    | some credentials =>
      if request.sign then url_builder.sign hmac current_timestamp credentials.secret_key
      else url_builder
    | none => url_builder
  url_builder.url request.path

/-- What the signature of a request is taken over. -/
def signed_payload (current_timestamp : ℤ) (params : List (String × String)) : String :=
  ((URLBuilder.of_params params).set "timestamp" (toString current_timestamp)).query_string_

/-! ## Reading a query string -/

/-- The pieces between the `&`, each split at its first `=`. -/
def read_query (query_string : String) : List (String × String) :=
  (pairs.split '&' '=' query_string.toList).map fun p => (String.ofList p.1, String.ofList p.2)

/-- A parameter without separators: no `&` in it, and no `=` in its key. -/
structure PlainParam (param : String × String) : Prop where
  key_sep : '&' ∉ param.1.toList
  key_mark : '=' ∉ param.1.toList
  value_sep : '&' ∉ param.2.toList

namespace URLBuilder

/-- The characters of the parameters. -/
def chars (param : String × String) : List Char × List Char := (param.1.toList, param.2.toList)

theorem of_params_concat (params : List (String × String)) (param : String × String) :
    of_params (params ++ [param]) = (of_params params).set param.1 param.2 :=
  List.foldl_concat ..

/-- The query string joins the parameters. -/
theorem toList_of_params (params : List (String × String)) :
    (of_params params).query_string_.toList = pairs.join '&' '=' (params.map chars) := by
  induction params using List.reverseRecOn with
  | nil => rfl
  | append_singleton params param ih =>
    have hempty : (of_params params).query_string_ = "" ↔ params.map chars = [] := by
      rw [← @pairs.join_eq_nil_iff _ '&' '=', ← ih]
      simp
    rw [of_params_concat, List.map_append, List.map_singleton, pairs.join_concat]
    unfold set
    by_cases h : params.map chars = []
    · simp [h, hempty.mpr h, chars, pairs.join_pair]
    · simp [h, mt hempty.mp h, ih, chars, pairs.join_pair]

theorem plain_chars {param : String × String} :
    pairs.Plain '&' '=' (chars param) ↔ PlainParam param :=
  ⟨fun h => ⟨h.first_sep, h.first_mark, h.second_sep⟩,
    fun h => ⟨h.key_sep, h.key_mark, h.value_sep⟩⟩

theorem plain_map_chars {params : List (String × String)} :
    (∀ p ∈ params.map chars, pairs.Plain '&' '=' p) ↔ ∀ param ∈ params, PlainParam param := by
  rw [List.forall_mem_map]
  exact forall₂_congr fun _ _ => plain_chars

theorem read_query_of_params (params : List (String × String)) :
    read_query (of_params params).query_string_ = params ↔
      ∀ param ∈ params, PlainParam param := by
  have hstrings (l : List (List Char × List Char)) :
      l.map (fun p => (String.ofList p.1, String.ofList p.2)) = params ↔ l = params.map chars := by
    constructor
    · rintro rfl
      simp [chars, Function.comp_def]
    · rintro rfl
      simp [chars, Function.comp_def]
  unfold read_query
  rw [hstrings, toList_of_params, pairs.split_join_iff (by decide), plain_map_chars]

/-- Parameters without separators are told apart by their query strings. -/
theorem of_params_inj {params params' : List (String × String)}
    (h : ∀ param ∈ params, PlainParam param) (h' : ∀ param ∈ params', PlainParam param)
    (heq : (of_params params).query_string_ = (of_params params').query_string_) :
    params = params' := by
  rw [← (read_query_of_params params).mpr h, heq, (read_query_of_params params').mpr h']

theorem toList_url (target : String) (u : URLBuilder) :
    (u.url target).toList =
      target.toList ++ if u.query_string_ = "" then [] else '?' :: u.query_string_.toList := by
  unfold url
  split_ifs <;> simp

theorem url_inj {target : String} {u u' : URLBuilder} (h : u.url target = u'.url target) :
    u.query_string_ = u'.query_string_ := by
  have htail := congrArg String.toList h
  rw [toList_url, toList_url, List.append_cancel_left_eq] at htail
  split_ifs at htail with hu hu'
  · rw [hu, hu']
  · exact String.toList_inj.mp (List.cons.inj htail).2

/-! ## Signed requests -/

theorem sep_not_in_repr (n : ℕ) : '&' ∉ (Nat.repr n).toList := by
  rw [Nat.toList_repr]
  intro h
  exact absurd (Nat.isDigit_of_mem_toDigits (by decide) (by decide) h) (by decide)

theorem plain_timestamp (current_timestamp : ℤ) :
    PlainParam ("timestamp", toString current_timestamp) := by
  refine ⟨by simp, by simp, ?_⟩
  change '&' ∉ (Int.repr current_timestamp).toList
  rw [Int.repr_eq_if]
  split_ifs
  · exact sep_not_in_repr _
  · rw [String.toList_append, List.mem_append, not_or]
    exact ⟨by decide, sep_not_in_repr _⟩

theorem plain_signature (bin : List UInt8) : PlainParam ("signature", bin2hex bin) := by
  refine ⟨by simp, by simp, ?_⟩
  unfold bin2hex
  rw [String.toList_ofList, List.mem_flatMap]
  rintro ⟨byte, -, h⟩
  have hne (n : ℕ) : '&' ≠ Nat.digitChar n := (Nat.digitChar_ne '&' (by decide)).symm
  simp [hne] at h

end URLBuilder

namespace Request

/-- The request is signed. -/
def Signed (r : Request) : Prop := r.credentials.isSome ∧ r.sign = true

instance (r : Request) : Decidable r.Signed := inferInstanceAs (Decidable (_ ∧ _))

/-- The parameters that a signature adds. -/
def added (bin : List UInt8) (current_timestamp : ℤ) (r : Request) : List (String × String) :=
  if r.Signed then
    [("timestamp", toString current_timestamp), ("signature", URLBuilder.bin2hex bin)]
  else []

theorem target_eq (hmac : String → String → List UInt8) (current_timestamp : ℤ) (r : Request) :
    ∃ bin, r.target hmac current_timestamp =
      (URLBuilder.of_params (r.params ++ r.added bin current_timestamp)).url r.path := by
  rcases r with ⟨method, path, params, _ | credentials, _ | _⟩
  · exact ⟨[], by simp [target, added, Signed]⟩
  · exact ⟨[], by simp [target, added, Signed]⟩
  · exact ⟨[], by simp [target, added, Signed]⟩
  · refine ⟨hmac credentials.secret_key (signed_payload current_timestamp params), ?_⟩
    simp only [target, added, Signed, Option.isSome_some, and_self, if_true]
    rw [List.append_cons, URLBuilder.of_params_concat, URLBuilder.of_params_concat]
    rfl

theorem plain_added (bin : List UInt8) (current_timestamp : ℤ) (r : Request) :
    ∀ param ∈ r.added bin current_timestamp, PlainParam param := by
  unfold added
  split_ifs
  · intro param h
    rcases List.mem_pair.mp h with rfl | rfl
    · exact URLBuilder.plain_timestamp current_timestamp
    · exact URLBuilder.plain_signature bin
  · exact fun _ h => absurd h List.not_mem_nil

end Request

/-- A query string is read back exactly when no key or value holds a separator. Two requests with
such parameters, both signed or both not, have different targets and different signed payloads when
their parameters differ. -/
theorem query_strings_are_unambiguous (hmac : String → String → List UInt8) :
    (∀ params, read_query (URLBuilder.of_params params).query_string_ = params ↔
      ∀ param ∈ params, PlainParam param) ∧
    (∀ (r r' : Request) (t t' : ℤ), (∀ param ∈ r.params, PlainParam param) →
      (∀ param ∈ r'.params, PlainParam param) → r.path = r'.path → (r.Signed ↔ r'.Signed) →
      r.target hmac t = r'.target hmac t' → r.params = r'.params) ∧
    ∀ (params params' : List (String × String)) (t t' : ℤ),
      (∀ param ∈ params, PlainParam param) → (∀ param ∈ params', PlainParam param) →
      signed_payload t params = signed_payload t' params' → params = params' := by
  refine ⟨URLBuilder.read_query_of_params, ?_, ?_⟩
  · intro r r' t t' h h' hpath hsigned htarget
    obtain ⟨bin, hr⟩ := r.target_eq hmac t
    obtain ⟨bin', hr'⟩ := r'.target_eq hmac t'
    rw [hr, hr', hpath] at htarget
    have hlength : (r.added bin t).length = (r'.added bin' t').length := by
      unfold Request.added
      simp only [hsigned]
      split_ifs <;> rfl
    have hall := URLBuilder.of_params_inj
      (List.forall_mem_append.mpr ⟨h, r.plain_added bin t⟩)
      (List.forall_mem_append.mpr ⟨h', r'.plain_added bin' t'⟩) (URLBuilder.url_inj htarget)
    exact (List.append_inj' hall hlength).1
  · intro params params' t t' h h' hpayload
    have hstamp (t : ℤ) : ∀ param ∈ [("timestamp", toString t)], PlainParam param :=
      List.forall_mem_singleton.mpr (URLBuilder.plain_timestamp t)
    have hpayload' : (URLBuilder.of_params (params ++ [("timestamp", toString t)])).query_string_ =
        (URLBuilder.of_params (params' ++ [("timestamp", toString t')])).query_string_ := by
      rw [URLBuilder.of_params_concat, URLBuilder.of_params_concat]
      exact hpayload
    have hall := URLBuilder.of_params_inj (List.forall_mem_append.mpr ⟨h, hstamp t⟩)
      (List.forall_mem_append.mpr ⟨h', hstamp t'⟩) hpayload'
    exact (List.append_inj' hall rfl).1

/-- A request for the klines of a symbol. -/
def klines_of (symbol : String) : Request :=
  { method := .get, path := "/api/v3/klines", params := [("symbol", symbol)] }

/-- Two symbols have two targets and two payloads. -/
theorem two_symbols_are_told_apart :
    read_query (URLBuilder.of_params [("symbol", "BTCUSDT")]).query_string_ =
        [("symbol", "BTCUSDT")] ∧
      ∀ (hmac : String → String → List UInt8) (t t' : ℤ),
        (klines_of "BTCUSDT").target hmac t ≠ (klines_of "ETHUSDT").target hmac t' ∧
          signed_payload t [("symbol", "BTCUSDT")] ≠ signed_payload t' [("symbol", "ETHUSDT")] := by
  have hbtc : ∀ param ∈ [("symbol", "BTCUSDT")], PlainParam param :=
    List.forall_mem_singleton.mpr ⟨by decide, by decide, by decide⟩
  have heth : ∀ param ∈ [("symbol", "ETHUSDT")], PlainParam param :=
    List.forall_mem_singleton.mpr ⟨by decide, by decide, by decide⟩
  have hne : [("symbol", "BTCUSDT")] ≠ [("symbol", "ETHUSDT")] := by decide
  refine ⟨((query_strings_are_unambiguous fun _ _ => []).1 _).mpr hbtc, fun hmac t t' => ⟨?_, ?_⟩⟩
  · exact fun h => hne ((query_strings_are_unambiguous hmac).2.1 (klines_of "BTCUSDT")
      (klines_of "ETHUSDT") t t' hbtc heth rfl Iff.rfl h)
  · exact fun h => hne ((query_strings_are_unambiguous hmac).2.2 _ _ t t' hbtc heth h)

/-- A value that holds a separator, and two parameters. Their targets and payloads are the
same. -/
theorem a_separator_in_a_value :
    read_query (URLBuilder.of_params [("a", "1&b=2")]).query_string_ ≠ [("a", "1&b=2")] ∧
      ∀ (hmac : String → String → List UInt8) (t : ℤ),
        Request.target hmac t { klines_of "" with params := [("a", "1&b=2")] } =
            Request.target hmac t { klines_of "" with params := [("a", "1"), ("b", "2")] } ∧
          signed_payload t [("a", "1&b=2")] = signed_payload t [("a", "1"), ("b", "2")] := by
  have hsame : URLBuilder.of_params [("a", "1&b=2")] =
      URLBuilder.of_params [("a", "1"), ("b", "2")] := by decide +kernel
  refine ⟨fun h => ?_, fun hmac t => ⟨?_, ?_⟩⟩
  · have hplain := (URLBuilder.read_query_of_params _).mp h _ List.mem_cons_self
    exact hplain.value_sep (by decide)
  · simp only [Request.target, hsame]
  · simp only [signed_payload, hsame]

end wedge
