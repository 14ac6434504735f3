-- Maps of the C++ library, as the list of their entries in iteration order.
-- An iterator is the key of its entry, and `none` is the end, so an iterator
-- outlives the changes to the other entries.
import Mathlib

namespace containers

/-- The entries stand in iteration order, and no two of them have the same key. -/
@[ext] structure Map (κ ν : Type*) where
  entries : List (κ × ν)
  distinct : (entries.map Prod.fst).Nodup
  deriving DecidableEq, Repr

variable {κ ν μ : Type*}

namespace Map

instance : Membership (κ × ν) (Map κ ν) := ⟨fun m e => e ∈ m.entries⟩

instance : EmptyCollection (Map κ ν) := ⟨⟨[], List.nodup_nil⟩⟩

def keys (m : Map κ ν) : List κ := m.entries.map Prod.fst

/-- `begin` of the map. -/
def first (m : Map κ ν) : Option κ := m.keys.head?

/-- The map with a part of each value. -/
def view (f : ν → μ) (m : Map κ ν) : Map κ μ where
  entries := m.entries.map fun e => (e.1, f e.2)
  distinct := by
    rw [List.map_map]
    exact m.distinct

/-! ## Entries and keys -/

theorem mem_keys {m : Map κ ν} {k : κ} : k ∈ m.keys ↔ ∃ v, (k, v) ∈ m := by
  unfold keys
  rw [List.mem_map]
  constructor
  · rintro ⟨⟨j, v⟩, he, rfl⟩
    exact ⟨v, he⟩
  · rintro ⟨v, he⟩
    exact ⟨(k, v), he, rfl⟩

/-- An entry is the only one under its key. -/
theorem entry_unique {m : Map κ ν} {k : κ} {v w : ν} (hv : (k, v) ∈ m) (hw : (k, w) ∈ m) :
    v = w := by
  have h1 := List.inj_on_of_nodup_map m.distinct hv hw rfl
  exact congrArg Prod.snd h1

theorem first_mem {m : Map κ ν} {k : κ} (h : m.first = some k) : k ∈ m.keys :=
  List.mem_of_mem_head? h

theorem not_mem_empty (e : κ × ν) : e ∉ (∅ : Map κ ν) := List.not_mem_nil

theorem keys_view (f : ν → μ) (m : Map κ ν) : (m.view f).keys = m.keys := by
  unfold keys view
  rw [List.map_map]
  rfl

section keyed

variable [DecidableEq κ]

def find (m : Map κ ν) (k : κ) : Option ν := m.entries.lookup k

def erase (m : Map κ ν) (k : κ) : Map κ ν where
  entries := m.entries.filter fun e => e.1 ≠ k
  distinct := (List.filter_sublist.map _).nodup m.distinct

/-- The iterator behind the one of a key. -/
def next (m : Map κ ν) (k : κ) : Option κ := (m.keys.dropWhile fun j => j ≠ k).tail.head?

/-! ## Lookup and erase -/

theorem mem_erase {m : Map κ ν} {k : κ} {e : κ × ν} : e ∈ m.erase k ↔ e ∈ m ∧ e.1 ≠ k := by
  have h : e ∈ m.entries.filter (fun e => e.1 ≠ k) ↔ e ∈ m.entries ∧ e.1 ≠ k := by simp
  exact h

theorem keys_erase (m : Map κ ν) (k : κ) : (m.erase k).keys = m.keys.filter fun j => j ≠ k := by
  unfold keys erase
  rw [List.filter_map]
  rfl

theorem mem_keys_erase {m : Map κ ν} {j k : κ} : j ∈ (m.erase k).keys ↔ j ∈ m.keys ∧ j ≠ k := by
  rw [keys_erase, List.mem_filter, decide_eq_true_eq]

theorem length_erase_le (m : Map κ ν) (k : κ) : (m.erase k).keys.length ≤ m.keys.length := by
  rw [keys_erase]
  exact List.length_filter_le _ _

theorem find_eq_none {m : Map κ ν} {k : κ} : m.find k = none ↔ k ∉ m.keys := by
  unfold find keys
  rw [List.lookup_eq_none_iff]
  constructor
  · intro h hk
    obtain ⟨e, he, rfl⟩ := List.mem_map.mp hk
    simpa using h e he
  · intro h e he
    rw [bne_iff_ne]
    rintro rfl
    exact h (List.mem_map_of_mem he)

theorem mem_of_find {m : Map κ ν} {k : κ} {v : ν} (h : m.find k = some v) : (k, v) ∈ m := by
  unfold find at h
  obtain ⟨l, l', hl, _⟩ := List.lookup_eq_some_iff.mp h
  change (k, v) ∈ m.entries
  rw [hl]
  simp

theorem mem_keys_of_find {m : Map κ ν} {k : κ} {v : ν} (h : m.find k = some v) : k ∈ m.keys :=
  mem_keys.mpr ⟨v, mem_of_find h⟩

theorem find_of_mem_keys {m : Map κ ν} {k : κ} (h : k ∈ m.keys) : ∃ v, m.find k = some v := by
  rcases hf : m.find k with _ | v
  · exact absurd h (find_eq_none.mp hf)
  · exact ⟨v, rfl⟩

theorem find_of_mem {m : Map κ ν} {k : κ} {v : ν} (hv : (k, v) ∈ m) : m.find k = some v := by
  obtain ⟨w, hw⟩ := find_of_mem_keys (mem_keys.mpr ⟨v, hv⟩)
  rw [hw, entry_unique (mem_of_find hw) hv]

theorem erase_view (f : ν → μ) (m : Map κ ν) (k : κ) : (m.view f).erase k = (m.erase k).view f :=
  Map.ext List.filter_map

/-! ## Iterators -/

/-- The iterator behind an entry is the one of another entry, or the end. -/
theorem next_mem {m : Map κ ν} {j k : κ} (h : m.next k = some j) : j ∈ m.keys ∧ j ≠ k := by
  unfold next at h
  have hsuf := List.dropWhile_suffix (l := m.keys) (fun j => j ≠ k)
  have hnodup := hsuf.sublist.nodup m.distinct
  rcases hl : m.keys.dropWhile (fun j => j ≠ k) with _ | ⟨x, l⟩
  · rw [hl] at h
    cases h
  · rw [hl] at h hsuf hnodup
    have hj : j ∈ l := List.mem_of_mem_head? h
    have hx : x = k := by
      have := List.head?_dropWhile_not (fun j => j ≠ k) m.keys
      rw [hl] at this
      simpa using this
    refine ⟨hsuf.subset (List.mem_cons_of_mem x hj), ?_⟩
    rintro rfl
    exact (List.nodup_cons.mp hnodup).1 (hx ▸ hj)

/-- The keys that an iterator still reaches. -/
def rest (m : Map κ ν) : Option κ → List κ
  | none => []
  | some k => m.keys.dropWhile fun j => j ≠ k

theorem rest_of_split {m : Map κ ν} {k : κ} {l l' : List κ} (h : m.keys = l ++ k :: l') :
    m.rest (some k) = k :: l' := by
  have hnodup : (l ++ k :: l').Nodup := h ▸ m.distinct
  have hl : ∀ j ∈ l, (decide (j ≠ k)) = true := by
    intro j hj
    have := (List.nodup_append.mp hnodup).2.2 j hj k List.mem_cons_self
    simpa using this
  change m.keys.dropWhile (fun j => j ≠ k) = k :: l'
  rw [h, List.dropWhile_append_of_pos hl]
  simp

theorem rest_first (m : Map κ ν) : m.rest m.first = m.keys := by
  unfold first
  rcases hl : m.keys with _ | ⟨k, l⟩
  · rfl
  · exact rest_of_split (l := []) hl

/-- The iterator behind an entry is the head of the entries behind it. -/
theorem next_of_split {m : Map κ ν} {k : κ} {l l' : List κ} (h : m.keys = l ++ k :: l') :
    m.next k = l'.head? := by
  have h1 : m.keys.dropWhile (fun j => j ≠ k) = k :: l' := rest_of_split h
  unfold next
  rw [h1]
  rfl

theorem rest_next {m : Map κ ν} {k : κ} (hk : k ∈ m.keys) :
    m.rest (some k) = k :: m.rest (m.next k) := by
  obtain ⟨l, l', h⟩ := List.append_of_mem hk
  rw [rest_of_split h, next_of_split h]
  rcases l' with _ | ⟨j, l'⟩
  · rfl
  · have h1 : m.keys = (l ++ [k]) ++ j :: l' := by simp [h]
    rw [List.head?_cons, rest_of_split h1]

/-- What stands behind an entry stays when the entry goes. -/
theorem rest_erase {m : Map κ ν} {k : κ} (hk : k ∈ m.keys) :
    (m.erase k).rest (m.next k) = m.rest (m.next k) := by
  obtain ⟨l, l', h⟩ := List.append_of_mem hk
  rw [next_of_split h]
  rcases l' with _ | ⟨j, l'⟩
  · rfl
  have hnodup : (l ++ k :: j :: l').Nodup := h ▸ m.distinct
  obtain ⟨_, h2, h3⟩ := List.nodup_append.mp hnodup
  have hl : ∀ i ∈ l, i ≠ k := fun i hi => h3 i hi k List.mem_cons_self
  have hl' : ∀ i ∈ j :: l', i ≠ k := fun i hi heq => (List.nodup_cons.mp h2).1 (heq ▸ hi)
  have hkeys : (m.erase k).keys = l ++ j :: l' := by
    rw [keys_erase, h, List.filter_append, List.filter_cons_of_neg (by simp),
      List.filter_eq_self.mpr (by simpa using hl), List.filter_eq_self.mpr (by simpa using hl')]
  have hsplit : m.keys = (l ++ [k]) ++ j :: l' := by simp [h]
  rw [List.head?_cons, rest_of_split hkeys, rest_of_split hsplit]

/-- Without an entry, the rest of the entries stays. -/
theorem erase_perm {m : Map κ ν} {e : κ × ν} {rest : List (κ × ν)}
    (h : m.entries.Perm (e :: rest)) : (m.erase e.1).entries.Perm rest := by
  have hkeys : (e.1 :: rest.map Prod.fst).Nodup := (h.map Prod.fst).nodup_iff.mp m.distinct
  have hnot : e.1 ∉ rest.map Prod.fst := (List.nodup_cons.mp hkeys).1
  have hrest : rest.filter (fun x => x.1 ≠ e.1) = rest := by
    rw [List.filter_eq_self]
    intro x hx
    simp only [ne_eq, decide_eq_true_eq]
    intro heq
    exact hnot (heq ▸ List.mem_map_of_mem hx)
  have h1 := h.filter fun x => x.1 ≠ e.1
  rw [List.filter_cons_of_neg (by simp), hrest] at h1
  exact h1

end keyed

end Map

/-! ## New entries -/

/-- How a map places a new entry among the others: a sorted map by the order of the keys, a
hash map anywhere, and it may reorder the others. -/
structure Placement (κ ν : Type*) where
  place : κ × ν → List (κ × ν) → List (κ × ν)
  perm : ∀ e m, (place e m).Perm (e :: m)

/-- The placement of a sorted map. -/
def sorted [LinearOrder κ] : Placement κ ν where
  place e m := m.orderedInsert (fun a b => a.1 ≤ b.1) e
  perm e m := List.perm_orderedInsert _ e m

/-- A hash map that puts a new entry in front, and keeps the order of the others. -/
def in_front : Placement κ ν where
  place := List.cons
  perm _ _ := .refl _

namespace Placement

variable [DecidableEq κ] (p : Placement κ ν) {k : κ} {v : ν} {m : Map κ ν}

/-- A key that is there already keeps its entry. -/
def emplace (k : κ) (v : ν) (m : Map κ ν) : Map κ ν :=
  if h : k ∈ m.keys then m
  else {
    entries := p.place (k, v) m.entries
    distinct := ((p.perm (k, v) m.entries).map Prod.fst).nodup_iff.mpr
      (List.nodup_cons.mpr ⟨h, m.distinct⟩) }

theorem emplace_perm (v : ν) (h : k ∉ m.keys) :
    (p.emplace k v m).entries.Perm ((k, v) :: m.entries) := by
  unfold emplace
  rw [dif_neg h]
  exact p.perm _ _

/-- A map grows by one entry at most. -/
theorem length_emplace_le (k : κ) (v : ν) (m : Map κ ν) :
    (p.emplace k v m).keys.length ≤ m.keys.length + 1 := by
  by_cases h : k ∈ m.keys
  · unfold emplace
    rw [dif_pos h]
    exact Nat.le_succ _
  · have hperm := ((p.emplace_perm v h).map Prod.fst).length_eq
    exact hperm.le

theorem mem_emplace (h : k ∉ m.keys) {e : κ × ν} : e ∈ p.emplace k v m ↔ e = (k, v) ∨ e ∈ m :=
  (p.emplace_perm v h).mem_iff.trans List.mem_cons

theorem mem_keys_emplace (h : k ∉ m.keys) {j : κ} :
    j ∈ (p.emplace k v m).keys ↔ j = k ∨ j ∈ m.keys :=
  ((p.emplace_perm v h).map Prod.fst).mem_iff.trans List.mem_cons

end Placement

/-! ## Sorted maps -/

section ascending

variable [LinearOrder κ]

/-- The order of the entries of a sorted map. -/
def Map.Ascending (m : Map κ ν) : Prop := m.keys.Pairwise (· < ·)

theorem Map.ascending_empty : (∅ : Map κ ν).Ascending := List.Pairwise.nil

theorem Map.Ascending.erase {m : Map κ ν} (h : m.Ascending) (k : κ) : (m.erase k).Ascending :=
  List.Pairwise.sublist (List.filter_sublist.map Prod.fst) h

/-- The first entry has the least key. -/
theorem Map.Ascending.first_le {m : Map κ ν} (h : m.Ascending) {k : κ} (hk : m.first = some k) :
    ∀ j ∈ m.keys, k ≤ j := by
  unfold Map.first at hk
  unfold Map.Ascending at h
  rcases hl : m.keys with _ | ⟨x, l⟩ <;> rw [hl] at h hk
  · cases hk
  · cases hk
    intro j hj
    rcases List.mem_cons.mp hj with rfl | hj
    · exact le_refl j
    · exact (List.rel_of_pairwise_cons h hj).le

/-- The iterator behind an entry is the one of the next larger key. -/
theorem Map.Ascending.next_le {m : Map κ ν} (h : m.Ascending) {j k : κ} (hk : k ∈ m.keys)
    (hj : m.next k = some j) : k < j ∧ ∀ i ∈ m.keys, k < i → j ≤ i := by
  obtain ⟨l, l', hl⟩ := List.append_of_mem hk
  rw [Map.next_of_split hl] at hj
  unfold Map.Ascending at h
  rw [hl] at h ⊢
  obtain ⟨_, h2, h3⟩ := List.pairwise_append.mp h
  rcases l' with _ | ⟨x, l'⟩ <;> cases hj
  refine ⟨List.rel_of_pairwise_cons h2 List.mem_cons_self, fun i hi hlt => ?_⟩
  rcases List.mem_append.mp hi with hi | hi
  · exact absurd (h3 i hi k List.mem_cons_self) (not_lt.mpr hlt.le)
  · rcases List.mem_cons.mp hi with rfl | hi
    · exact absurd hlt (lt_irrefl i)
    · rcases List.mem_cons.mp hi with rfl | hi
      · exact le_refl i
      · exact (List.rel_of_pairwise_cons (List.pairwise_cons.mp h2).2 hi).le

/-- Behind the last entry there is no larger key. -/
theorem Map.Ascending.next_none {m : Map κ ν} (h : m.Ascending) {k : κ} (hk : k ∈ m.keys)
    (hj : m.next k = none) : ∀ i ∈ m.keys, i ≤ k := by
  obtain ⟨l, l', hl⟩ := List.append_of_mem hk
  rw [Map.next_of_split hl] at hj
  rw [List.head?_eq_none_iff.mp hj] at hl
  unfold Map.Ascending at h
  rw [hl] at h ⊢
  obtain ⟨_, _, h3⟩ := List.pairwise_append.mp h
  intro i hi
  rcases List.mem_append.mp hi with hi | hi
  · exact (h3 i hi k List.mem_cons_self).le
  · exact (List.mem_singleton.mp hi).le

/-- A key above all others goes to the end. -/
theorem emplace_last {m : Map κ ν} {k : κ} (h : ∀ j ∈ m.keys, j < k) (v : ν) :
    (sorted.emplace k v m).entries = m.entries ++ [(k, v)] := by
  have hk : k ∉ m.keys := fun hk => lt_irrefl k (h k hk)
  have hlt : ∀ e ∈ m.entries, e.1 < k := fun e he => h e.1 (List.mem_map_of_mem he)
  unfold Placement.emplace
  rw [dif_neg hk]
  change List.orderedInsert _ (k, v) m.entries = m.entries ++ [(k, v)]
  generalize m.entries = l at hlt
  induction l with
  | nil => rfl
  | cons e l ih =>
    have he : ¬ k ≤ e.1 := not_le.mpr (hlt e List.mem_cons_self)
    rw [List.orderedInsert_cons, if_neg he, ih fun e he => hlt e (List.mem_cons_of_mem _ he)]
    rfl

theorem Map.Ascending.emplace {m : Map κ ν} (hm : m.Ascending) {k : κ}
    (h : ∀ j ∈ m.keys, j < k) (v : ν) : (sorted.emplace k v m).Ascending := by
  have he : (sorted.emplace k v m).keys = m.keys ++ [k] := by
    unfold Map.keys
    rw [emplace_last h v, List.map_append]
    rfl
  unfold Map.Ascending
  rw [he]
  apply List.pairwise_append.mpr
  refine ⟨hm, List.pairwise_singleton _ _, fun a ha b hb => ?_⟩
  rw [List.mem_singleton.mp hb]
  exact h a ha

end ascending

end containers
