-- Programs that ask an outside party for each step and go on with its answer.
-- A handler plays the outside party, with a state of its own. The rules here
-- say what a run keeps, and how a program meets a contract with its handler.
import Mathlib

namespace programs

/-- A program returns, fails, or asks for an operation and goes on with the answer. -/
inductive Prog (Op : Type) (Ans : Op → Type) (ε α : Type) : Type
  | ret (a : α)
  | fail (e : ε)
  | call (op : Op) (next : Ans op → Prog Op Ans ε α)

variable {Op : Type} {Ans : Op → Type} {ε σ α β : Type}

namespace Prog

def bind (p : Prog Op Ans ε α) (f : α → Prog Op Ans ε β) : Prog Op Ans ε β :=
  match p with
  | .ret a => f a
  | .fail e => .fail e
  | .call op next => .call op fun a => (next a).bind f

instance : Monad (Prog Op Ans ε) where
  pure := .ret
  bind := bind

/-- The program that asks for one operation. -/
def ask (op : Op) : Prog Op Ans ε (Ans op) := .call op .ret

@[simp] theorem pure_eq (a : α) : (pure a : Prog Op Ans ε α) = .ret a := rfl

@[simp] theorem bind_call (op : Op) (next : Ans op → Prog Op Ans ε α)
    (f : α → Prog Op Ans ε β) : (.call op next >>= f) = .call op fun a => next a >>= f := rfl

end Prog

open Prog

/-- What the outside party does for an operation: an answer or a failure, and a new state. -/
abbrev Handler (Op : Type) (Ans : Op → Type) (ε σ : Type) : Type :=
  (op : Op) → σ → Except ε (Ans op) × σ

/-! ## Runs -/

/-- Runs the program against the handler. A failure ends it. -/
def run (h : Handler Op Ans ε σ) : Prog Op Ans ε α → σ → Except ε α × σ
  | .ret a, s => (.ok a, s)
  | .fail e, s => (.error e, s)
  | .call op next, s =>
    match h op s with
    | (.ok a, t) => run h (next a) t
    | (.error e, t) => (.error e, t)

section run

variable (h : Handler Op Ans ε σ)

@[simp] theorem run_ret (a : α) (s : σ) : run h (.ret a) s = (.ok a, s) := rfl

theorem run_call_ok {op : Op} {s t : σ} {a : Ans op} (ho : h op s = (.ok a, t))
    (next : Ans op → Prog Op Ans ε α) : run h (.call op next) s = run h (next a) t := by
  simp [run, ho]

theorem run_call_error {op : Op} {s t : σ} {e : ε} (ho : h op s = (.error e, t))
    (next : Ans op → Prog Op Ans ε α) : run h (.call op next) s = (.error e, t) := by
  simp [run, ho]

theorem run_bind (p : Prog Op Ans ε α) (f : α → Prog Op Ans ε β) (s : σ) :
    run h (p >>= f) s =
      match run h p s with
      | (.ok a, t) => run h (f a) t
      | (.error e, t) => (.error e, t) := by
  induction p generalizing s with
  | ret a => rfl
  | fail e => rfl
  | call op next ih =>
    rw [bind_call]
    rcases ho : h op s with ⟨e | a, t⟩
    · rw [run_call_error h ho, run_call_error h ho]
    · rw [run_call_ok h ho, run_call_ok h ho, ih]

theorem run_bind_ok {p : Prog Op Ans ε α} {s t : σ} {a : α} (hp : run h p s = (.ok a, t))
    (f : α → Prog Op Ans ε β) : run h (p >>= f) s = run h (f a) t := by
  rw [run_bind, hp]

theorem run_bind_error {p : Prog Op Ans ε α} {s t : σ} {e : ε} (hp : run h p s = (.error e, t))
    (f : α → Prog Op Ans ε β) : run h (p >>= f) s = (.error e, t) := by
  rw [run_bind, hp]

end run

/-! ## What every call of a run meets -/

/-- Every operation that the run asks for meets the condition in the state at that moment. -/
def Obeys (h : Handler Op Ans ε σ) (cond : (op : Op) → σ → Prop) : Prog Op Ans ε α → σ → Prop
  | .ret _, _ => True
  | .fail _, _ => True
  | .call op next, s => cond op s ∧ ∀ a t, h op s = (.ok a, t) → Obeys h cond (next a) t

section obeys

variable {h : Handler Op Ans ε σ} {cond : (op : Op) → σ → Prop}

/-- What every operation under the condition keeps, every run under the condition keeps. -/
theorem Obeys.keeps {p : σ → Prop} (hop : ∀ op s, cond op s → p s → p (h op s).2)
    {prog : Prog Op Ans ε α} {s : σ} (hob : Obeys h cond prog s) (hs : p s) :
    p (run h prog s).2 := by
  induction prog generalizing s with
  | ret a => exact hs
  | fail e => exact hs
  | call op next ih =>
    have h1 := hop op s hob.1 hs
    rcases ho : h op s with ⟨e | a, t⟩
    · rw [run_call_error h ho]
      rwa [ho] at h1
    · rw [run_call_ok h ho]
      rw [ho] at h1
      exact ih a (hob.2 a t ho) h1

/-- The same program with two handlers. When the operations of the first run have the same answers
in the second one, the second run ends as the first one does. -/
theorem Obeys.run_alike {τ : Type} {h' : Handler Op Ans ε τ} {r : σ → τ → Prop}
    (hop : ∀ op s s' t a, cond op s → r s t → h op s = (.ok a, s') →
      ∃ t', h' op t = (.ok a, t') ∧ r s' t')
    {prog : Prog Op Ans ε α} {s s' : σ} {t : τ} {a : α} (hob : Obeys h cond prog s)
    (hrun : run h prog s = (.ok a, s')) (hr : r s t) :
    ∃ t', run h' prog t = (.ok a, t') ∧ r s' t' := by
  induction prog generalizing s t with
  | ret b =>
    cases hrun
    exact ⟨t, rfl, hr⟩
  | fail e => cases hrun
  | call op next ih =>
    rcases ho : h op s with ⟨e | b, u⟩
    · rw [run_call_error h ho] at hrun
      cases hrun
    · rw [run_call_ok h ho] at hrun
      obtain ⟨v, hv, hr'⟩ := hop op s u t b hob.1 hr ho
      obtain ⟨t', ht', hrt⟩ := ih b (hob.2 b u ho) hrun hr'
      exact ⟨t', (run_call_ok h' hv _).trans ht', hrt⟩

theorem Obeys.mono {cond' : (op : Op) → σ → Prop} (himp : ∀ op s, cond op s → cond' op s)
    {prog : Prog Op Ans ε α} {s : σ} (hob : Obeys h cond prog s) : Obeys h cond' prog s := by
  induction prog generalizing s with
  | ret a => trivial
  | fail e => trivial
  | call op next ih => exact ⟨himp op s hob.1, fun a t ho => ih a (hob.2 a t ho)⟩

theorem Obeys.bind {p : Prog Op Ans ε α} {f : α → Prog Op Ans ε β} {s : σ}
    (hp : Obeys h cond p s) (hf : ∀ a t, run h p s = (.ok a, t) → Obeys h cond (f a) t) :
    Obeys h cond (p >>= f) s := by
  induction p generalizing s with
  | ret a => exact hf a s rfl
  | fail e => trivial
  | call op next ih =>
    refine ⟨hp.1, fun a t ho => ih a (hp.2 a t ho) fun b u hb => hf b u ?_⟩
    rw [run_call_ok h ho, hb]

/-- A run that can be computed can be checked. -/
def Obeys.decide [∀ op s, Decidable (cond op s)] :
    (prog : Prog Op Ans ε α) → (s : σ) → Decidable (Obeys h cond prog s)
  | .ret _, _ => isTrue trivial
  | .fail _, _ => isTrue trivial
  | .call op next, s =>
    match ho : h op s with
    | (.ok a, t) =>
      have := Obeys.decide (next a) t
      decidable_of_iff (cond op s ∧ Obeys h cond (next a) t) (by simp [Obeys, ho])
    | (.error _, _) => decidable_of_iff (cond op s) (by simp [Obeys, ho])

instance [∀ op s, Decidable (cond op s)] (prog : Prog Op Ans ε α) (s : σ) :
    Decidable (Obeys h cond prog s) := Obeys.decide prog s

theorem obeys_true (h : Handler Op Ans ε σ) (prog : Prog Op Ans ε α) (s : σ) :
    Obeys h (fun _ _ => True) prog s := by
  induction prog generalizing s with
  | ret a => trivial
  | fail e => trivial
  | call op next ih => exact ⟨trivial, fun a t _ => ih a t⟩

end obeys

/-! ## What a run does -/

/-- The operations of the run with their answers, in order, without one that fails. -/
def trace (h : Handler Op Ans ε σ) : Prog Op Ans ε α → σ → List ((op : Op) × Ans op)
  | .ret _, _ => []
  | .fail _, _ => []
  | .call op next, s =>
    match h op s with
    | (.ok a, t) => ⟨op, a⟩ :: trace h (next a) t
    | (.error _, _) => []

section trace

variable {h : Handler Op Ans ε σ} {cond : (op : Op) → σ → Prop}

theorem trace_call_ok {op : Op} {s t : σ} {a : Ans op} (ho : h op s = (.ok a, t))
    (next : Ans op → Prog Op Ans ε α) :
    trace h (.call op next) s = ⟨op, a⟩ :: trace h (next a) t := by
  simp [trace, ho]

theorem trace_bind_ok {p : Prog Op Ans ε α} {s t : σ} {a : α} (hp : run h p s = (.ok a, t))
    (f : α → Prog Op Ans ε β) : trace h (p >>= f) s = trace h p s ++ trace h (f a) t := by
  induction p generalizing s with
  | ret b =>
    cases hp
    rfl
  | fail e => cases hp
  | call op next ih =>
    rcases ho : h op s with ⟨e | b, u⟩
    · rw [run_call_error h ho] at hp
      cases hp
    · rw [run_call_ok h ho] at hp
      rw [bind_call, trace_call_ok ho, trace_call_ok ho, ih b hp, List.cons_append]

theorem trace_bind_error {p : Prog Op Ans ε α} {s t : σ} {e : ε} (hp : run h p s = (.error e, t))
    (f : α → Prog Op Ans ε β) : trace h (p >>= f) s = trace h p s := by
  induction p generalizing s with
  | ret b => cases hp
  | fail e => rfl
  | call op next ih =>
    rcases ho : h op s with ⟨e | b, u⟩
    · simp [trace, ho]
    · rw [run_call_ok h ho] at hp
      rw [bind_call, trace_call_ok ho, trace_call_ok ho, ih b hp]

/-- What every operation of a run under the condition keeps of the state and of the operations
so far, the run keeps. -/
theorem Obeys.trace_keeps {p : List ((op : Op) × Ans op) → σ → Prop}
    (hop : ∀ l op a s t, cond op s → h op s = (.ok a, t) → p l s → p (l ++ [⟨op, a⟩]) t)
    {prog : Prog Op Ans ε α} {s t : σ} {a : α} {l : List ((op : Op) × Ans op)}
    (hob : Obeys h cond prog s) (hrun : run h prog s = (.ok a, t)) (hs : p l s) :
    p (l ++ trace h prog s) t := by
  induction prog generalizing s l with
  | ret b =>
    cases hrun
    simpa [trace] using hs
  | fail e => cases hrun
  | call op next ih =>
    rcases ho : h op s with ⟨e | b, u⟩
    · rw [run_call_error h ho] at hrun
      cases hrun
    · rw [run_call_ok h ho] at hrun
      rw [trace_call_ok ho, List.append_cons]
      exact ih b (hob.2 b u ho) hrun (hop l op b s u hob.1 ho hs)

/-- What every operation keeps of the state and of the operations so far, every run keeps, one
that fails too. -/
theorem trace_keeps_any {p : List ((op : Op) × Ans op) → σ → Prop}
    (hop : ∀ l op a s t, h op s = (.ok a, t) → p l s → p (l ++ [⟨op, a⟩]) t)
    (herr : ∀ l op e s t, h op s = (.error e, t) → p l s → p l t)
    {prog : Prog Op Ans ε α} {s : σ} {l : List ((op : Op) × Ans op)} (hs : p l s) :
    p (l ++ trace h prog s) (run h prog s).2 := by
  induction prog generalizing s l with
  | ret b => simpa [trace] using hs
  | fail e => simpa [trace, run] using hs
  | call op next ih =>
    rcases ho : h op s with ⟨e | b, u⟩
    · rw [run_call_error h ho]
      simpa [trace, ho] using herr l op e s u ho hs
    · rw [run_call_ok h ho, trace_call_ok ho, List.append_cons]
      exact ih b (hop l op b s u ho hs)

end trace

/-- When every operation goes on or ends as it may, and a program may fail in every state that it
goes on in, every run ends as it may. -/
theorem run_ends {h : Handler Op Ans ε σ} {going : σ → Prop} {ends : ε → σ → Prop}
    (hop : ∀ op s, going s → (∃ a t, h op s = (.ok a, t) ∧ going t) ∨
      ∃ e t, h op s = (.error e, t) ∧ ends e t)
    (hfail : ∀ e s, going s → ends e s) {prog : Prog Op Ans ε α} {s : σ} (hs : going s) :
    (∃ a t, run h prog s = (.ok a, t) ∧ going t) ∨
      ∃ e t, run h prog s = (.error e, t) ∧ ends e t := by
  induction prog generalizing s with
  | ret a => exact Or.inl ⟨a, s, rfl, hs⟩
  | fail e => exact Or.inr ⟨e, s, rfl, hfail e s hs⟩
  | call op next ih =>
    rcases hop op s hs with ⟨a, t, ho, ht⟩ | ⟨e, t, ho, ht⟩
    · rw [run_call_ok h ho]
      exact ih a ht
    · rw [run_call_error h ho]
      exact Or.inr ⟨e, t, rfl, ht⟩

/-- Each failure of the program itself is one of its own. -/
def Prog.Fails (own : ε → Prop) : Prog Op Ans ε α → Prop
  | .ret _ => True
  | .fail e => own e
  | .call _ next => ∀ a, (next a).Fails own

theorem Prog.Fails.bind {own : ε → Prop} {p : Prog Op Ans ε α} {f : α → Prog Op Ans ε β}
    (hp : p.Fails own) (hf : ∀ a, (f a).Fails own) : (p >>= f).Fails own := by
  induction p with
  | ret a => exact hf a
  | fail e => exact hp
  | call op next ih => exact fun a => ih a (hp a)

/-- Where every operation under the condition has an answer, a program ends only with a failure of
its own. -/
theorem Obeys.ends {h : Handler Op Ans ε σ} {cond : (op : Op) → σ → Prop} {p : σ → Prop}
    {own : ε → Prop}
    (hop : ∀ op s, cond op s → p s → ∃ a t, h op s = (.ok a, t) ∧ p t)
    {prog : Prog Op Ans ε α} (hprog : prog.Fails own) {s : σ} (hob : Obeys h cond prog s)
    (hs : p s) :
    (∃ a t, run h prog s = (.ok a, t) ∧ p t) ∨ ∃ e t, run h prog s = (.error e, t) ∧ own e := by
  induction prog generalizing s with
  | ret a => exact Or.inl ⟨a, s, rfl, hs⟩
  | fail e => exact Or.inr ⟨e, s, rfl, hprog⟩
  | call op next ih =>
    obtain ⟨a, t, ho, ht⟩ := hop op s hob.1 hs
    rw [run_call_ok h ho]
    exact ih a (hprog a) (hob.2 a t ho) ht

/-! ## What a program spends -/

/-- On every path the operations of the program spend at most `n` in all. -/
def Prog.Spends (cost : Op → ℕ) : Prog Op Ans ε α → ℕ → Prop
  | .ret _, _ => True
  | .fail _, _ => True
  | .call op next, n => cost op ≤ n ∧ ∀ a, (next a).Spends cost (n - cost op)

theorem Prog.Spends.mono {cost : Op → ℕ} {p : Prog Op Ans ε α} {n m : ℕ} (h : p.Spends cost n)
    (hle : n ≤ m) : p.Spends cost m := by
  induction p generalizing n m with
  | ret a => trivial
  | fail e => trivial
  | call op next ih => exact ⟨h.1.trans hle, fun a => ih a (h.2 a) (Nat.sub_le_sub_right hle _)⟩

theorem Prog.Spends.bind {cost : Op → ℕ} {p : Prog Op Ans ε α} {f : α → Prog Op Ans ε β} {n m : ℕ}
    (hp : p.Spends cost n) (hf : ∀ a, (f a).Spends cost m) : (p >>= f).Spends cost (n + m) := by
  induction p generalizing n with
  | ret a => exact (hf a).mono (Nat.le_add_left m n)
  | fail e => trivial
  | call op next ih =>
    refine ⟨hp.1.trans (Nat.le_add_right n m), fun a => ?_⟩
    have hnext := ih a (hp.2 a)
    rwa [← Nat.sub_add_comm hp.1] at hnext

/-- The state grows by no more than the operations cost, so each operation has the room that is
left for the whole program. -/
theorem Prog.Spends.obeys {h : Handler Op Ans ε σ} {cost : Op → ℕ} {size : σ → ℕ}
    (hop : ∀ op s a t, h op s = (.ok a, t) → size t ≤ size s + cost op)
    {prog : Prog Op Ans ε α} {n room : ℕ} (hprog : prog.Spends cost n) {s : σ}
    (hs : size s + n ≤ room) : Obeys h (fun op s => size s + cost op ≤ room) prog s := by
  induction prog generalizing n s with
  | ret a => trivial
  | fail e => trivial
  | call op next ih =>
    obtain ⟨hcost, hnext⟩ := hprog
    refine ⟨(Nat.add_le_add_left hcost _).trans hs, fun a t ho => ih a (hnext a) ?_⟩
    have hgrow := hop op s a t ho
    omega

/-! ## Contracts -/

/-- The contract of a program with its handler. Each operation that it asks for meets `guar`.
As long as the operations also meet `rely`, every operation that fails and every failure of the
program meet `err`, and the program returns only in a state that meets `post`. -/
def Safe (h : Handler Op Ans ε σ) (rely guar : (op : Op) → σ → Prop) (err : ε → σ → Prop) :
    Prog Op Ans ε α → (α → σ → Prop) → σ → Prop
  | .ret a, post, s => post a s
  | .fail e, _, s => err e s
  | .call op next, post, s =>
    guar op s ∧ (rely op s →
      (∃ a t, h op s = (.ok a, t) ∧ Safe h rely guar err (next a) post t) ∨
        ∃ e t, h op s = (.error e, t) ∧ err e t)

section safe

variable {h : Handler Op Ans ε σ} {rely guar : (op : Op) → σ → Prop} {err : ε → σ → Prop}

theorem Safe.bind {p : Prog Op Ans ε α} {f : α → Prog Op Ans ε β} {post : β → σ → Prop} {s : σ}
    (hs : Safe h rely guar err p (fun a t => Safe h rely guar err (f a) post t) s) :
    Safe h rely guar err (p >>= f) post s := by
  induction p generalizing s with
  | ret a => exact hs
  | fail e => exact hs
  | call op next ih =>
    refine ⟨hs.1, fun hr => ?_⟩
    rcases hs.2 hr with ⟨a, t, ho, h1⟩ | h1
    · exact Or.inl ⟨a, t, ho, ih a h1⟩
    · exact Or.inr h1

theorem Safe.mono {p : Prog Op Ans ε α} {post post' : α → σ → Prop} {s : σ}
    (hs : Safe h rely guar err p post s) (himp : ∀ a t, post a t → post' a t) :
    Safe h rely guar err p post' s := by
  induction p generalizing s with
  | ret a => exact himp a s hs
  | fail e => exact hs
  | call op next ih =>
    refine ⟨hs.1, fun hr => ?_⟩
    rcases hs.2 hr with ⟨a, t, ho, h1⟩ | h1
    · exact Or.inl ⟨a, t, ho, ih a h1⟩
    · exact Or.inr h1

/-- The program that asks for one operation. -/
theorem Safe.ask {op : Op} {post : Ans op → σ → Prop} {s : σ} (hg : guar op s)
    (ho : rely op s → (∃ a t, h op s = (.ok a, t) ∧ post a t) ∨
      ∃ e t, h op s = (.error e, t) ∧ err e t) :
    Safe h rely guar err (Prog.ask op) post s := ⟨hg, ho⟩

/-- A program under contract whose operations meet `rely` ends as the contract says. -/
theorem Safe.ends {p : Prog Op Ans ε α} {post : α → σ → Prop} {s : σ}
    (hs : Safe h rely guar err p post s) (hob : Obeys h rely p s) :
    (∃ a t, run h p s = (.ok a, t) ∧ post a t) ∨ ∃ e t, run h p s = (.error e, t) ∧ err e t := by
  induction p generalizing s with
  | ret a => exact Or.inl ⟨a, s, rfl, hs⟩
  | fail e => exact Or.inr ⟨e, s, rfl, hs⟩
  | call op next ih =>
    rcases hs.2 hob.1 with ⟨a, t, ho, h1⟩ | ⟨e, t, ho, h1⟩
    · rw [run_call_ok h ho]
      exact ih a h1 (hob.2 a t ho)
    · rw [run_call_error h ho]
      exact Or.inr ⟨e, t, rfl, h1⟩

/-- Its operations then also meet `guar`. -/
theorem Safe.obeys {p : Prog Op Ans ε α} {post : α → σ → Prop} {s : σ}
    (hs : Safe h rely guar err p post s) (hob : Obeys h rely p s) : Obeys h guar p s := by
  induction p generalizing s with
  | ret a => trivial
  | fail e => trivial
  | call op next ih =>
    refine ⟨hs.1, fun a t ho => ?_⟩
    rcases hs.2 hob.1 with ⟨a', t', ho', h1⟩ | ⟨e, t', ho', _⟩ <;> rw [ho] at ho' <;> cases ho'
    exact ih a h1 (hob.2 a t ho)

end safe

/-! ## What a program can return -/

/-- The values that the program returns for some answers. -/
def Prog.results : Prog Op Ans ε α → Set α
  | .ret a => {a}
  | .fail _ => ∅
  | .call _ next => {b | ∃ a, b ∈ (next a).results}

theorem mem_results_call {op : Op} {next : Ans op → Prog Op Ans ε α} {b : α} :
    b ∈ (Prog.call op next).results ↔ ∃ a, b ∈ (next a).results := Iff.rfl

theorem mem_results_bind {p : Prog Op Ans ε α} {f : α → Prog Op Ans ε β} {b : β} :
    b ∈ (p >>= f).results ↔ ∃ a ∈ p.results, b ∈ (f a).results := by
  induction p with
  | ret a => exact ⟨fun h => ⟨a, rfl, h⟩, fun ⟨_, ha, h⟩ => ha ▸ h⟩
  | fail e => exact ⟨False.elim, fun ⟨_, ha, _⟩ => ha.elim⟩
  | call op next ih =>
    rw [bind_call, mem_results_call]
    simp only [ih, mem_results_call]
    constructor
    · rintro ⟨a, c, hc, h⟩
      exact ⟨c, ⟨a, hc⟩, h⟩
    · rintro ⟨c, ⟨a, hc⟩, h⟩
      exact ⟨a, c, hc, h⟩

/-- What a run returns is a result. -/
theorem mem_results_of_run {h : Handler Op Ans ε σ} {p : Prog Op Ans ε α} {s t : σ} {a : α}
    (hrun : run h p s = (.ok a, t)) : a ∈ p.results := by
  induction p generalizing s with
  | ret b =>
    cases hrun
    exact rfl
  | fail e => cases hrun
  | call op next ih =>
    rcases ho : h op s with ⟨e | b, u⟩
    · rw [run_call_error h ho] at hrun
      cases hrun
    · rw [run_call_ok h ho] at hrun
      exact ⟨b, ih b hrun⟩

end programs
