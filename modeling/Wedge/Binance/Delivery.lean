-- Requests over a network that loses some of them, and some of the answers. What
-- arrives is handled once. A request that is sent again is handled again.
import Wedge.Binance.Retries

namespace wedge

open programs

variable {ν ξ : Type}

/-- A network in front of an exchange. A request does not arrive, or it is handled, and then its
answer comes back or is lost. -/
structure Lossy (net : Net ν) (exchange : ν → ξ) (handle : Request → ξ → Response × ξ) :
    Prop where
  connect : ∀ w, exchange (net .connect_sync w).2 = exchange w
  send : ∀ r w, (net (.send_sync r) w).1 = none ∧ exchange (net (.send_sync r) w).2 = exchange w ∨
    ((net (.send_sync r) w).1 = none ∨
        (net (.send_sync r) w).1 = some (handle r (exchange w)).1) ∧
      exchange (net (.send_sync r) w).2 = (handle r (exchange w)).2

theorem lossy_flaky (handle : Request → ξ → Response × ξ) :
    Lossy (flaky handle) Link.exchange handle := by
  constructor
  · rintro ⟨attempts, x⟩
    rcases attempts with _ | ⟨_ | _ | _ | _ | _, rest⟩ <;> rfl
  · rintro r ⟨attempts, x⟩
    rcases attempts with _ | ⟨_ | _ | _ | _ | _, rest⟩
    · exact Or.inr ⟨Or.inr rfl, rfl⟩
    · exact Or.inr ⟨Or.inr rfl, rfl⟩
    · exact Or.inr ⟨Or.inr rfl, rfl⟩
    · exact Or.inl ⟨rfl, rfl⟩
    · exact Or.inr ⟨Or.inl rfl, rfl⟩
    · exact Or.inr ⟨Or.inr rfl, rfl⟩

/-- The exchange after it has handled a request some times. -/
def handled (handle : Request → ξ → Response × ξ) (r : Request) (k : ℕ) (x : ξ) : ξ :=
  (fun x => (handle r x).2)^[k] x

section handled

variable {handle : Request → ξ → Response × ξ} {r : Request} {x : ξ}

@[simp] theorem handled_zero : handled handle r 0 x = x := rfl

theorem handled_last (k : ℕ) :
    handled handle r (k + 1) x = (handle r (handled handle r k x)).2 :=
  Function.iterate_succ_apply' _ _ _

/-- What one handling keeps, all of them keep. -/
theorem handled_keeps {p : ξ → Prop} (hp : ∀ x, p x → p (handle r x).2) (k : ℕ) (hx : p x) :
    p (handled handle r k x) := by
  induction k generalizing x with
  | zero => exact hx
  | succ k ih => exact ih (hp x hx)

end handled

/-! ## One request -/

section request

variable {net : Net ν} {exchange : ν → ξ} {handle : Request → ξ → Response × ξ}

/-- A request was handled some times. When it has an answer, that is the answer of the last
time. -/
def Delivered (exchange : ν → ξ) (handle : Request → ξ → Response × ξ) (r : Request) (n : ℕ)
    (w : ν) (answer : Option Json) (w' : ν) : Prop :=
  ∃ k ≤ n, exchange w' = handled handle r k (exchange w) ∧
    ∀ body, answer = some body → ∃ j, k = j + 1 ∧
      (handle r (handled handle r j (exchange w))).1 = { result := 200, body := body }

theorem once_delivers (h : Lossy net exchange handle) (r : Request) (w : ν) :
    ∃ res w', run (serve net) (requset_once r) w = (res, w') ∧
      Delivered exchange handle r 1 w (res.toOption.getD none) w' := by
  have hconnect := h.connect w
  rw [requset_once, BinanceHttpClient.run_connect]
  rcases hc : net .connect_sync w with ⟨_ | _ | _, w1⟩ <;> rw [hc] at hconnect
  · -- Connected.
    dsimp only
    rw [BinanceHttpClient.run_send]
    have hsend := h.send r w1
    dsimp only at hconnect
    rcases hs : net (.send_sync r) w1 with ⟨answer, w2⟩
    rw [hs, hconnect] at hsend
    rcases hsend with ⟨rfl, hx⟩ | ⟨rfl | rfl, hx⟩
    · exact ⟨_, _, rfl, 0, Nat.zero_le 1, hx, fun body hb => by cases hb⟩
    · exact ⟨_, _, rfl, 1, Nat.le_refl 1, hx, fun body hb => by cases hb⟩
    · dsimp only
      split
      · exact ⟨_, _, rfl, 1, Nat.le_refl 1, hx, fun body hb => by cases hb⟩
      · rename_i hresult
        refine ⟨_, _, rfl, 1, Nat.le_refl 1, hx, fun body hb => ⟨0, rfl, ?_⟩⟩
        obtain rfl : (handle r (exchange w)).1.body = body := Option.some.inj hb
        have hcode : (handle r (exchange w)).1.result = 200 := not_not.mp hresult
        rw [handled_zero, ← hcode]
  · exact ⟨_, _, rfl, 0, Nat.zero_le 1, hconnect, fun body hb => by cases hb⟩
  · exact ⟨_, _, rfl, 0, Nat.zero_le 1, hconnect, fun body hb => by cases hb⟩

theorem until_delivers (h : Lossy net exchange handle) (r : Request) (n : ℕ) (w : ν) :
    ∃ res w', run (serve net) (request_until r n) w = (res, w') ∧
      Delivered exchange handle r n w res.toOption w' := by
  induction n generalizing w with
  | zero => exact ⟨_, _, rfl, 0, Nat.le_refl 0, rfl, fun body hb => by cases hb⟩
  | succ n ih =>
    obtain ⟨res, w1, hone, k, hk, hx, hanswer⟩ := once_delivers h r w
    rw [request_until]
    rcases res with f | _ | body
    · rw [run_bind_error _ hone]
      exact ⟨_, _, rfl, k, hk.trans (Nat.le_add_left 1 n), hx, fun body hb => by cases hb⟩
    · -- No answer yet.
      rw [run_bind_ok _ hone]
      obtain ⟨res, w2, hrun, k', hk', hx', hanswer'⟩ := ih w1
      have hplus : ∀ i, handled handle r i (exchange w1) =
          handled handle r (k + i) (exchange w) := fun i => by
        rw [hx, Nat.add_comm]
        exact (Function.iterate_add_apply _ i k _).symm
      refine ⟨res, w2, hrun, k + k', by omega, hx'.trans (hplus k'), fun body hb => ?_⟩
      obtain ⟨j, rfl, hj⟩ := hanswer' body hb
      exact ⟨k + j, rfl, hplus j ▸ hj⟩
    · rw [run_bind_ok _ hone]
      refine ⟨_, _, rfl, k, hk.trans (Nat.le_add_left 1 n), hx, fun body' hb => ?_⟩
      exact hanswer body' hb

/-! ## Reading the answer -/

variable {α : Type}

/-- A request was handled some times, and what was read comes from the answer of the last time. -/
def Served (exchange : ν → ξ) (handle : Request → ξ → Response × ξ) (r : Request)
    (read : Json → Option α) (w : ν) (out : Except Fault α × ν) : Prop :=
  ∃ k, exchange out.2 = handled handle r k (exchange w) ∧
    ∀ a, out.1 = .ok a → ∃ j body, k = j + 1 ∧ read body = some a ∧
      (handle r (handled handle r j (exchange w))).1 = { result := 200, body := body }

theorem until_serves (h : Lossy net exchange handle) (r : Request) (n : ℕ)
    (read : Json → Option α) (w : ν) :
    Served exchange handle r read w (run (serve net)
      (request_until r n >>= fun json_data => throws (read json_data)) w) := by
  obtain ⟨res, w', hrun, k, _, hx, hanswer⟩ := until_delivers h r n w
  rcases res with f | body
  · rw [run_bind_error _ hrun]
    exact ⟨k, hx, fun a ha => by cases ha⟩
  · rw [run_bind_ok _ hrun]
    obtain ⟨j, hk, hj⟩ := hanswer body rfl
    refine ⟨k, ?_, fun a ha => ⟨j, body, hk, ?_, hj⟩⟩
    · cases read body <;> exact hx
    · rcases hread : read body with _ | a' <;> rw [hread] at ha <;> cases ha
      rfl

/-- A client without credentials sends nothing. -/
theorem request_serves (h : Lossy net exchange handle) (b : BinanceBroker) (r : Request)
    (read : Json → Option α) (w : ν) :
    ∃ c, Served exchange handle (r.with_credentials c) read w (run (serve net)
      (b.request r >>= fun json_data => throws (read json_data)) w) := by
  unfold BinanceBroker.request
  rcases b.credentials_ with _ | c
  · exact ⟨{ api_key := "", secret_key := "" }, 0, rfl, fun a ha => by cases ha⟩
  · exact ⟨c, until_serves h _ _ read w⟩

end request

end wedge
