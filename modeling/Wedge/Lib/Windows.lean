-- The part of a list whose keys lie in a window, in the order of the keys. When no two
-- entries have one key, the members alone decide on the part. Nothing here names a table.
import Mathlib

namespace windows

variable {α τ : Type*} [LinearOrder τ] (key : α → τ)

/-- The entries with a key from the first bound to the second one, both included. -/
def window (start stop : τ) (l : List α) : List α :=
  (l.filter fun x => start ≤ key x ∧ key x ≤ stop).insertionSort fun x y => key x ≤ key y

/-- The keys ascend. -/
def Ascends (l : List α) : Prop := l.Pairwise fun x y => key x < key y

variable {key} {l l' : List α} {start mid stop : τ} {x : α}

@[simp] theorem mem_window :
    x ∈ window key start stop l ↔ x ∈ l ∧ start ≤ key x ∧ key x ≤ stop := by
  simp [window]

theorem ascends_window (h : (l.map key).Nodup) : Ascends key (window key start stop l) := by
  have : Std.Total fun x y : α => key x ≤ key y := ⟨fun x y => le_total (key x) (key y)⟩
  have : IsTrans α fun x y : α => key x ≤ key y := ⟨fun _ _ _ => le_trans⟩
  have hsorted : (window key start stop l).Pairwise fun x y => key x ≤ key y :=
    List.pairwise_insertionSort _ _
  have hperm : ((window key start stop l).map key).Perm
      ((l.filter fun x => start ≤ key x ∧ key x ≤ stop).map key) :=
    (List.perm_insertionSort _ _).map key
  have hnodup := hperm.nodup_iff.mpr ((List.filter_sublist.map key).nodup h)
  exact hsorted.imp₂ (fun _ _ hle hne => lt_of_le_of_ne hle hne) (List.pairwise_map.mp hnodup)

/-- Two lists with ascending keys and the same members are the same. -/
theorem Ascends.eq_of_mem_iff (h : Ascends key l) (h' : Ascends key l')
    (hmem : ∀ x, x ∈ l ↔ x ∈ l') : l = l' := by
  have : Std.Irrefl fun x y : α => key x < key y := ⟨fun x => lt_irrefl (key x)⟩
  have : Std.Asymm fun x y : α => key x < key y := ⟨fun _ _ => lt_asymm⟩
  exact List.Pairwise.eq_of_mem_iff h h' hmem

theorem Ascends.append (h : Ascends key l) (h' : Ascends key l')
    (hlt : ∀ x ∈ l, ∀ y ∈ l', key x < key y) : Ascends key (l ++ l') :=
  List.pairwise_append.mpr ⟨h, h', hlt⟩

theorem Ascends.filter (h : Ascends key l) (p : α → Bool) : Ascends key (l.filter p) :=
  List.Pairwise.filter p h

/-- A window is the first part of it and then the second one. What has the common bound for its
key is in both of them. -/
theorem window_split (h : (l.map key).Nodup) (hstart : start ≤ mid) (hstop : mid ≤ stop) :
    window key start mid l ++ (window key mid stop l).filter (fun x => key x ≠ mid) =
      window key start stop l := by
  refine Ascends.eq_of_mem_iff ((ascends_window h).append ((ascends_window h).filter _) ?_)
    (ascends_window h) fun x => ?_
  · intro x hx y hy
    obtain ⟨hy, hne⟩ := List.mem_filter.mp hy
    have hlt : mid < key y :=
      lt_of_le_of_ne (mem_window.mp hy).2.1 (Ne.symm (of_decide_eq_true hne))
    exact lt_of_le_of_lt (mem_window.mp hx).2.2 hlt
  · simp only [List.mem_append, List.mem_filter, mem_window, decide_eq_true_eq]
    constructor
    · rintro (⟨hx, hle, hmid⟩ | ⟨⟨hx, hmid, hle⟩, _⟩)
      · exact ⟨hx, hle, hmid.trans hstop⟩
      · exact ⟨hx, hstart.trans hmid, hle⟩
    · rintro ⟨hx, hle, hge⟩
      rcases le_or_gt (key x) mid with hmid | hmid
      · exact Or.inl ⟨hx, hle, hmid⟩
      · exact Or.inr ⟨⟨hx, hmid.le, hge⟩, hmid.ne'⟩

/-- Behind the lower bound there are all entries but the first one, when that one is at the bound. -/
theorem Ascends.behind (h : Ascends key l) (hle : ∀ x ∈ l, mid ≤ key x) :
    l.filter (fun x => key x ≠ mid) = if ∃ x ∈ l, key x = mid then l.tail else l := by
  split_ifs with hex
  · obtain ⟨x, hx, heq⟩ := hex
    cases l with
    | nil => exact absurd hx List.not_mem_nil
    | cons y l =>
      have hy : key y = mid := by
        rcases List.mem_cons.mp hx with rfl | hx
        · exact heq
        · have hlt := List.rel_of_pairwise_cons h hx
          exact absurd (hle y List.mem_cons_self) (not_le.mpr (heq ▸ hlt))
      have hrest : ∀ z ∈ l, key z ≠ mid := fun z hz => by
        have hlt := List.rel_of_pairwise_cons h hz
        exact (hy ▸ hlt).ne'
      simpa [hy] using hrest
  · exact List.filter_eq_self.mpr fun x hx => decide_eq_true fun heq => hex ⟨x, hx, heq⟩

end windows
