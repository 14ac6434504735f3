-- Items that each take a stretch of time, with no two at once. A reader goes through
-- them in pages and has a cursor; the rules say what lies behind the cursor. Nothing
-- here names a particular store.
import Mathlib

namespace timelines

/-- Items with their first and last instants. -/
structure Timeline (α τ : Type*) [LinearOrder τ] where
  items : Set α
  first : α → τ
  last : α → τ
  first_le : ∀ x ∈ items, first x ≤ last x
  apart : ∀ x ∈ items, ∀ y ∈ items, x ≠ y → last x < first y ∨ last y < first x

namespace Timeline

variable {α τ : Type*} [LinearOrder τ] (t : Timeline α τ)

/-- Every item that starts before the instant was seen. -/
def Covered (seen : α → Prop) (instant : τ) : Prop :=
  ∀ x ∈ t.items, t.first x < instant → seen x

/-- With each item, the earlier ones were seen. -/
def NoGap (seen : α → Prop) : Prop :=
  ∀ x ∈ t.items, seen x → t.Covered seen (t.first x)

/-- The first items of a window, and `limit` of them if there are as many. -/
structure Page (start stop : τ) (limit : ℕ) (page : List α) : Prop where
  ascending : page.Pairwise fun x y => t.first x < t.first y
  within : ∀ x ∈ page, x ∈ t.items ∧ start ≤ t.first x ∧ t.first x ≤ stop
  length_le : page.length ≤ limit
  complete : ∀ x ∈ t.items, start ≤ t.first x → t.first x ≤ stop →
    x ∈ page ∨ page.length = limit ∧ ∀ y ∈ page, t.first y < t.first x

/-- The reader has come to the cursor, and the items of the list are next. -/
structure Ahead (seen : α → Prop) (cursor : τ) (next : List α) : Prop where
  covered : t.Covered seen cursor
  ascending : next.Pairwise fun x y => t.first x < t.first y
  within : ∀ x ∈ next, x ∈ t.items ∧ cursor ≤ t.first x
  earlier : ∀ x ∈ next, ∀ y ∈ t.items, t.first y < t.first x → seen y ∨ y ∈ next

variable {t} {seen seen' : α → Prop} {x y : α} {l : List α} {cursor start stop : τ} {limit : ℕ}

/-- An item that starts earlier is over before the later one starts. -/
theorem last_lt (hx : x ∈ t.items) (hy : y ∈ t.items) (h : t.first x < t.first y) :
    t.last x < t.first y := by
  have hne : x ≠ y := by
    rintro rfl
    exact lt_irrefl _ h
  refine (t.apart x hx y hy hne).resolve_right fun hlt => ?_
  exact lt_asymm h (lt_of_le_of_lt (t.first_le y hy) hlt)

theorem eq_of_first (hx : x ∈ t.items) (hy : y ∈ t.items) (h : t.first x = t.first y) : x = y := by
  by_contra hne
  rcases t.apart x hx y hy hne with hlt | hlt
  · exact absurd (lt_of_le_of_lt (t.first_le x hx) hlt) (h ▸ lt_irrefl _)
  · exact absurd (lt_of_le_of_lt (t.first_le y hy) hlt) (h ▸ lt_irrefl _)

/-- What starts before the end of an item starts before the item, or is the item. -/
theorem first_lt_of_lt_last (hx : x ∈ t.items) (hy : y ∈ t.items) (h : t.first y < t.last x) :
    y = x ∨ t.first y < t.first x := by
  rcases lt_trichotomy (t.first y) (t.first x) with hlt | heq | hlt
  · exact Or.inr hlt
  · exact Or.inl (eq_of_first hy hx heq)
  · exact absurd (last_lt hx hy hlt) (lt_asymm h)

theorem Covered.mono (h : t.Covered seen cursor) (hseen : ∀ x, seen x → seen' x) :
    t.Covered seen' cursor := fun x hx hlt => hseen x (h x hx hlt)

/-- Once an item and all before it were seen, everything up to its end was. -/
theorem Covered.last (h : t.Covered seen (t.first x)) (hx : x ∈ t.items) (hs : seen x) :
    t.Covered seen (t.last x) := by
  intro y hy hlt
  rcases first_lt_of_lt_last hx hy hlt with rfl | hfirst
  · exact hs
  · exact h y hy hfirst

/-- A page is what comes next. -/
theorem Page.ahead (h : t.Page start stop limit l) (hc : t.Covered seen start) :
    t.Ahead seen start l := by
  refine ⟨hc, h.ascending, fun x hx => ⟨(h.within x hx).1, (h.within x hx).2.1⟩, ?_⟩
  intro x hx y hy hlt
  rcases lt_or_ge (t.first y) start with hbefore | hstart
  · exact Or.inl (hc y hy hbefore)
  · obtain ⟨_, _, hstop⟩ := h.within x hx
    rcases h.complete y hy hstart (hlt.le.trans hstop) with hmem | ⟨_, hall⟩
    · exact Or.inr hmem
    · exact absurd (hall x hx) (lt_asymm hlt)

/-- Nothing is left out before the next item. -/
theorem Ahead.head (h : t.Ahead seen cursor (x :: l)) : t.Covered seen (t.first x) := by
  intro y hy hlt
  rcases h.earlier x List.mem_cons_self y hy hlt with hseen | hmem
  · exact hseen
  · rcases List.mem_cons.mp hmem with rfl | hmem
    · exact absurd hlt (lt_irrefl _)
    · exact absurd (List.rel_of_pairwise_cons h.ascending hmem) (lt_asymm hlt)

/-- The next item is seen, and the cursor is its end. -/
theorem Ahead.step (h : t.Ahead seen cursor (x :: l)) (hseen : ∀ x, seen x → seen' x)
    (hx : seen' x) : t.Ahead seen' (t.last x) l := by
  have hmem := (h.within x List.mem_cons_self).1
  refine ⟨(h.head.mono hseen).last hmem hx, h.ascending.of_cons, fun y hy => ?_, ?_⟩
  · have hy' := (h.within y (List.mem_cons_of_mem _ hy)).1
    exact ⟨hy', (last_lt hmem hy' (List.rel_of_pairwise_cons h.ascending hy)).le⟩
  · intro y hy z hz hlt
    rcases h.earlier y (List.mem_cons_of_mem _ hy) z hz hlt with hold | hnext
    · exact Or.inl (hseen z hold)
    · rcases List.mem_cons.mp hnext with rfl | hnext
      · exact Or.inl hx
      · exact Or.inr hnext

theorem Covered.ahead (h : t.Covered seen cursor) : t.Ahead seen cursor [] :=
  ⟨h, .nil, fun _ hx => absurd hx List.not_mem_nil, fun _ hx => absurd hx List.not_mem_nil⟩

end Timeline

end timelines
