-- All that the live process says over the network. Each request is tried until it
-- has an answer, at most as often as the client retries, and a request without an
-- answer is the last one.
import Wedge.Binance.Retries
import Wedge.Trade.Feed

namespace wedge

open programs containers runs

variable {ν : Type}

/-! ## The record of the network -/

/-- The uses of the network with their answers, first use first. -/
abbrev Talk := List ((c : NetCall) × c.Answer)

/-- The network with a record of its uses. -/
def recorded (net : Net ν) : Net (ν × Talk) := fun c w =>
  ((net c w.1).1, (net c w.1).2, w.2 ++ [⟨c, (net c w.1).1⟩])

/-- The record changes nothing for the program. -/
theorem run_recorded (net : Net ν) {α : Type} (prog : NetProg α) (w : ν) (talk : Talk) :
    run (serve (recorded net)) prog (w, talk) =
      ((run (serve net) prog w).1, (run (serve net) prog w).2,
        talk ++ trace (serve net) prog w) := by
  induction prog generalizing w talk with
  | ret a => simp [trace]
  | fail e => simp [trace, run]
  | call c next ih =>
    have hcall : serve net c w = (.ok (net c w).1, (net c w).2) := rfl
    have hrecorded : serve (recorded net) c (w, talk) =
        (.ok (net c w).1, (net c w).2, talk ++ [⟨c, (net c w).1⟩]) := rfl
    rw [run_call_ok _ hcall, run_call_ok _ hrecorded, trace_call_ok hcall, ih,
      ← List.append_cons]

/-! ## The tries of a request -/

/-- One try, with the body of its answer. -/
inductive Try (r : Request) : Talk → Option Json → Prop
  | unconnected : Try r [⟨.connect_sync, ConnectResult.failed⟩] none
  | lost : Try r [⟨.connect_sync, ConnectResult.connected⟩, ⟨.send_sync r, none⟩] none
  | refused {response : Response} : response.result ≠ 200 →
      Try r [⟨.connect_sync, ConnectResult.connected⟩, ⟨.send_sync r, some response⟩] none
  | answered (body : Json) :
      Try r [⟨.connect_sync, ConnectResult.connected⟩,
        ⟨.send_sync r, some { result := 200, body := body }⟩] (some body)

/-- Why there is no answer: the lookup of the host threw, or every try has failed. -/
inductive Stop
  | raised
  | given_up
  deriving DecidableEq, Repr

def Stop.fault : Stop → Fault
  | .raised => .exception
  | .given_up => .abort

/-- The tries of a request, at most as many as the number says. -/
inductive Tries (r : Request) : ℕ → Talk → Except Stop Json → Prop
  | given_up : Tries r 0 [] (.error .given_up)
  | raised (n : ℕ) : Tries r (n + 1) [⟨.connect_sync, ConnectResult.raised⟩] (.error .raised)
  | again {n : ℕ} {talk rest : Talk} {outcome : Except Stop Json} :
      Try r talk none → Tries r n rest outcome → Tries r (n + 1) (talk ++ rest) outcome
  | answered (n : ℕ) {talk : Talk} {body : Json} :
      Try r talk (some body) → Tries r (n + 1) talk (.ok body)

theorem once_talks (net : Net ν) (r : Request) (w : ν) :
    (∃ w', run (serve net) (requset_once r) w = (.error .exception, w') ∧
      trace (serve net) (requset_once r) w = [⟨.connect_sync, ConnectResult.raised⟩]) ∨
    ∃ body w', run (serve net) (requset_once r) w = (.ok body, w') ∧
      Try r (trace (serve net) (requset_once r) w) body := by
  have hconnect : run (serve net) BinanceHttpClient.connect_sync w =
      (.ok (net .connect_sync w).1, (net .connect_sync w).2) := rfl
  have htalk : trace (serve net) BinanceHttpClient.connect_sync w =
      [⟨.connect_sync, (net .connect_sync w).1⟩] := rfl
  rw [requset_once, run_bind_ok _ hconnect, trace_bind_ok hconnect, htalk]
  rcases net .connect_sync w with ⟨_ | _ | _, w1⟩ <;> dsimp only
  · have hsend : run (serve net) (BinanceHttpClient.send_sync r) w1 =
        (.ok (net (.send_sync r) w1).1, (net (.send_sync r) w1).2) := rfl
    have hsent : trace (serve net) (BinanceHttpClient.send_sync r) w1 =
        [⟨.send_sync r, (net (.send_sync r) w1).1⟩] := rfl
    rw [run_bind_ok _ hsend, trace_bind_ok hsend, hsent]
    right
    rcases net (.send_sync r) w1 with ⟨_ | ⟨result, body⟩, w2⟩ <;> dsimp only
    · exact ⟨none, w2, rfl, .lost⟩
    · by_cases hresult : result = 200
      · subst hresult
        exact ⟨some body, w2, rfl, .answered body⟩
      · rw [if_pos hresult]
        exact ⟨none, w2, rfl, .refused hresult⟩
  · exact Or.inr ⟨none, w1, rfl, .unconnected⟩
  · exact Or.inl ⟨w1, rfl, rfl⟩

/-- What the tries bring to the program. -/
def Tries.result (outcome : Except Stop Json) : Except Fault Json := outcome.mapError Stop.fault

theorem until_talks (net : Net ν) (r : Request) (n : ℕ) (w : ν) :
    ∃ outcome w', run (serve net) (request_until r n) w = (Tries.result outcome, w') ∧
      Tries r n (trace (serve net) (request_until r n) w) outcome := by
  induction n generalizing w with
  | zero => exact ⟨.error .given_up, w, rfl, .given_up⟩
  | succ n ih =>
    rw [request_until]
    rcases once_talks net r w with ⟨w1, hrun, htalk⟩ | ⟨body, w1, hrun, htry⟩
    · rw [run_bind_error _ hrun, trace_bind_error hrun, htalk]
      exact ⟨.error .raised, w1, rfl, .raised n⟩
    · rw [run_bind_ok _ hrun, trace_bind_ok hrun]
      cases body with
      | none =>
        obtain ⟨outcome, w2, hrest, htries⟩ := ih w1
        exact ⟨outcome, w2, hrest, .again htry htries⟩
      | some body =>
        refine ⟨.ok body, w1, rfl, ?_⟩
        have hsilent : trace (serve net) (.ret body : NetProg Json) w1 = [] := rfl
        exact (List.append_nil _).symm ▸ .answered n htry

/-! ## The conversation -/

/-- The requests of a live process for one symbol. -/
inductive Spoken (symbol : String) (broker : BinanceBroker) : Request → Prop
  | order {credentials : Credentials} (order : OrderCall) :
      broker.credentials_ = some credentials →
      Spoken symbol broker ((order_request symbol order).with_credentials credentials)
  | poll {credentials : Credentials} (order_id : ℕ) : broker.credentials_ = some credentials →
      Spoken symbol broker
        ((trade.order_id order_id (trade.GetOrder symbol)).with_credentials credentials)
  | cancel {credentials : Credentials} {order_id : ℕ} : order_id < 2 ^ 16 →
      broker.credentials_ = some credentials →
      Spoken symbol broker
        ((trade.order_id order_id (trade.CancelOrder symbol)).with_credentials credentials)
  | account {credentials : Credentials} : broker.credentials_ = some credentials →
      Spoken symbol broker (trade.Account.with_credentials credentials)
  | klines {r : Request} (now : ℤ) : market.Klines "BTCUSDT" (market.from_str "30m") = some r →
      Spoken symbol broker
        (market.limit 1000 <| market.end_time now <| market.start_time (now - 1800000) r)

/-- Requests with an answer, one after the other, and maybe a last one without an answer. -/
inductive Conversation (spoken : Request → Prop) (n : ℕ) : Talk → Option Stop → Prop
  | silence : Conversation spoken n [] none
  | answer {talk rest : Talk} {r : Request} {body : Json} : Conversation spoken n talk none →
      spoken r → Tries r n rest (.ok body) → Conversation spoken n (talk ++ rest) none
  | stop {talk rest : Talk} {r : Request} {stop : Stop} : Conversation spoken n talk none →
      spoken r → Tries r n rest (.error stop) → Conversation spoken n (talk ++ rest) (some stop)

/-- A program that went on from a conversation. When the last request has no answer, the program
has ended with its fault. -/
def GoesOn {α : Type} (spoken : Request → Prop) (n : ℕ) (res : Except Fault α) (talk : Talk) :
    Prop :=
  ∃ stop, Conversation spoken n talk stop ∧ ∀ s, stop = some s → res = .error s.fault

section goes_on

variable {α β : Type} {spoken : Request → Prop} {n : ℕ} {net : Net ν} {talk : Talk} {w : ν}

theorem GoesOn.ok {a : α} (h : GoesOn spoken n (.ok a : Except Fault α) talk) :
    Conversation spoken n talk none := by
  obtain ⟨stop, hconv, hstop⟩ := h
  cases stop with
  | none => exact hconv
  | some s => cases hstop s rfl

theorem GoesOn.error {fault : Fault} (h : GoesOn spoken n (.error fault : Except Fault α) talk) :
    GoesOn spoken n (.error fault : Except Fault β) talk := by
  obtain ⟨stop, hconv, hstop⟩ := h
  refine ⟨stop, hconv, fun s hs => ?_⟩
  rw [Except.error.inj (hstop s hs)]

theorem GoesOn.of_silence (h : Conversation spoken n talk none) (res : Except Fault α) :
    GoesOn spoken n res talk := ⟨none, h, nofun⟩

/-- One request, and what is read of its answer. -/
theorem goesOn_until {r : Request} (h : Conversation spoken n talk none) (hr : spoken r)
    (read : Json → Option α) :
    GoesOn spoken n (run (serve (recorded net)) (request_until r n >>= fun j => throws (read j))
        (w, talk)).1
      (run (serve (recorded net)) (request_until r n >>= fun j => throws (read j))
        (w, talk)).2.2 := by
  rw [run_recorded]
  obtain ⟨outcome, w', hrun, htries⟩ := until_talks net r n w
  cases outcome with
  | error stop =>
    rw [run_bind_error _ hrun, trace_bind_error hrun]
    refine ⟨some stop, .stop h hr htries, fun s hs => ?_⟩
    rw [Option.some.inj hs]
  | ok body =>
    have hread : trace (serve net) (throws (read body)) w' = [] := by
      cases read body <;> rfl
    rw [trace_bind_ok hrun, hread, List.append_nil]
    exact .of_silence (.answer h hr htries) _

theorem goesOn_request {b : BinanceBroker} {r : Request}
    (h : Conversation spoken b.retry_count_ talk none)
    (hr : ∀ credentials, b.credentials_ = some credentials → spoken (r.with_credentials credentials))
    (read : Json → Option α) :
    GoesOn spoken b.retry_count_
      (run (serve (recorded net)) (b.request r >>= fun j => throws (read j)) (w, talk)).1
      (run (serve (recorded net)) (b.request r >>= fun j => throws (read j)) (w, talk)).2.2 := by
  unfold BinanceBroker.request
  rcases hc : b.credentials_ with _ | credentials
  · exact .of_silence h _
  · exact goesOn_until h (hr credentials hc) read

end goes_on

/-! ## The live engine -/

/-- The engine with its conversation so far, behind something that ended with `res`. -/
structure TradeEngine.Says (symbol : String) (broker : BinanceBroker) {α : Type}
    (res : Except Fault α) (e : TradeEngine (ν × Talk)) : Prop where
  symbol_eq : e.symbol_ = symbol
  broker_eq : e.broker_ = broker
  talk : GoesOn (Spoken symbol broker) broker.retry_count_ res e.world.2

namespace TradeEngine

variable {α β : Type} {symbol : String} {broker : BinanceBroker} {net : Net ν}
  {e e' : TradeEngine (ν × Talk)}

theorem Says.of_talk {res : Except Fault α} {res' : Except Fault β} (h : e.Says symbol broker res)
    (hs : e'.symbol_ = e.symbol_) (hb : e'.broker_ = e.broker_)
    (ht : GoesOn (Spoken symbol broker) broker.retry_count_ res' e'.world.2) :
    e'.Says symbol broker res' :=
  ⟨hs.trans h.symbol_eq, hb.trans h.broker_eq, ht⟩

/-- A program that makes one request. -/
theorem Says.asks {a : α} (h : e.Says symbol broker (.ok a : Except Fault α)) {r : Request}
    (hr : ∀ credentials, broker.credentials_ = some credentials →
      Spoken symbol broker (r.with_credentials credentials)) (read : Json → Option β) :
    GoesOn (Spoken symbol broker) broker.retry_count_
      (run (serve (recorded net)) (e.broker_.request r >>= fun j => throws (read j)) e.world).1
      (run (serve (recorded net)) (e.broker_.request r >>= fun j => throws (read j))
        e.world).2.2 := by
  rw [h.broker_eq]
  exact goesOn_request h.talk.ok hr read

theorem Says.place {a : α} (h : e.Says symbol broker (.ok a : Except Fault α))
    (net : Net ν) (order : OrderCall) :
    GoesOn (Spoken symbol broker) broker.retry_count_
      (run (serve (recorded net)) (e.broker_.create e.symbol_ order) e.world).1
      (run (serve (recorded net)) (e.broker_.create e.symbol_ order) e.world).2.2 := by
  rw [create_eq, h.symbol_eq]
  exact h.asks (fun _ hc => .order order hc) _

theorem Says.cancel {a : α} (h : e.Says symbol broker (.ok a : Except Fault α))
    (net : Net ν) (order_id : ℕ) :
    GoesOn (Spoken symbol broker) broker.retry_count_
      (run (serve (recorded net)) (e.broker_.cancel_order e.symbol_ (order_id % 2 ^ 16)) e.world).1
      (run (serve (recorded net)) (e.broker_.cancel_order e.symbol_ (order_id % 2 ^ 16))
        e.world).2.2 := by
  rw [h.symbol_eq]
  exact h.asks (fun _ hc => .cancel (Nat.mod_lt _ (by decide)) hc) _

theorem Says.poll {a : α} (h : e.Says symbol broker (.ok a : Except Fault α))
    (net : Net ν) (order_id : ℕ) :
    GoesOn (Spoken symbol broker) broker.retry_count_
      (run (serve (recorded net)) (e.broker_.get_order e.symbol_ order_id) e.world).1
      (run (serve (recorded net)) (e.broker_.get_order e.symbol_ order_id) e.world).2.2 := by
  rw [h.symbol_eq]
  exact h.asks (fun _ hc => .poll order_id hc) _

theorem Says.account {a : α} (h : e.Says symbol broker (.ok a : Except Fault α))
    (net : Net ν) :
    GoesOn (Spoken symbol broker) broker.retry_count_
      (run (serve (recorded net)) e.broker_.get_account e.world).1
      (run (serve (recorded net)) e.broker_.get_account e.world).2.2 :=
  h.asks (fun _ hc => .account hc) _

theorem Says.klines {a : α} (h : e.Says symbol broker (.ok a : Except Fault α))
    (net : Net ν) (now : ℤ) :
    GoesOn (Spoken symbol broker) broker.retry_count_
      (run (serve (recorded net)) (e.broker_.get_klines "BTCUSDT" "30m" (now - 1800000) now)
        e.world).1
      (run (serve (recorded net)) (e.broker_.get_klines "BTCUSDT" "30m" (now - 1800000) now)
        e.world).2.2 := by
  rw [h.broker_eq]
  unfold BinanceBroker.get_klines
  rcases hk : market.Klines "BTCUSDT" (market.from_str "30m") with _ | r
  · exact .of_silence h.talk.ok _
  · exact goesOn_until h.talk.ok (.klines now hk) _

/-- An operation of the broker goes on, or it ends the process. -/
theorem Says.call (p : Placement OrderIndex TradeOrder) (op : BrokerCall)
    (h : e.Says symbol broker (.ok () : Except Fault Unit)) :
    (∃ a t, TradeBroker (recorded net) p op e = (.ok a, t) ∧
        t.Says symbol broker (.ok () : Except Fault Unit)) ∨
      ∃ fault t, TradeBroker (recorded net) p op e = (.error fault, t) ∧
        t.Says symbol broker (.error fault : Except Fault Unit) := by
  cases op with
  | place order =>
    have htalk := h.place net order
    rcases TradeBroker.place_cases (recorded net) p e order with
      ⟨order_id, w, hrun, ho⟩ | ⟨fault, w, hrun, ho⟩ <;> rw [hrun] at htalk
    · exact Or.inl ⟨_, _, ho, h.of_talk rfl rfl (.of_silence htalk.ok _)⟩
    · exact Or.inr ⟨fault, _, ho, h.of_talk rfl rfl htalk.error⟩
  | cancel index =>
    rcases hf : e.orders_.find index with _ | order
    · exact Or.inr ⟨.undefined, e, TradeBroker.cancel_unknown (recorded net) p e hf,
        h.of_talk rfl rfl (.of_silence h.talk.ok _)⟩
    · have htalk := h.cancel net order.order_id
      rcases TradeBroker.cancel_cases (recorded net) p e hf with
        ⟨w, hrun, ho⟩ | ⟨fault, w, hrun, ho⟩ <;> rw [hrun] at htalk
      · exact Or.inl ⟨_, _, ho, h.of_talk rfl rfl (.of_silence htalk.ok _)⟩
      · exact Or.inr ⟨fault, _, ho, h.of_talk rfl rfl htalk.error⟩
  | account =>
    have htalk := h.account net
    simp only [TradeBroker, TradeBroker.account, use]
    rcases hrun : run (serve (recorded net)) e.broker_.get_account e.world with
      ⟨fault | account, w⟩ <;> rw [hrun] at htalk
    · exact Or.inr ⟨fault, _, rfl, h.of_talk rfl rfl htalk.error⟩
    · dsimp only
      rcases TradeBroker.to_account e.symbol_ account with fault | a
      · exact Or.inr ⟨fault, _, rfl, h.of_talk rfl rfl (.of_silence htalk.ok _)⟩
      · exact Or.inl ⟨a, _, rfl, h.of_talk rfl rfl (.of_silence htalk.ok _)⟩

theorem Says.callback {σ : Type} (h : e.Says symbol broker (.ok () : Except Fault Unit))
    (p : Placement OrderIndex TradeOrder) (prog : StrategyProg σ) :
    (∃ s t, run (TradeBroker (recorded net) p) prog e = (.ok s, t) ∧
        t.Says symbol broker (.ok () : Except Fault Unit)) ∨
      ∃ fault t, run (TradeBroker (recorded net) p) prog e = (.error fault, t) ∧
        t.Says symbol broker (.error fault : Except Fault Unit) :=
  run_ends (fun op _ ht => ht.call p op)
    (fun _ _ ht => ht.of_talk rfl rfl (.of_silence ht.talk.ok _)) h

end TradeEngine

namespace TradeRun

variable {σ : Type} {symbol : String} {broker : BinanceBroker} {net : Net ν}
  {S : IStrategy σ} {p : Placement OrderIndex TradeOrder} {r r' : TradeRun σ (ν × Talk)}

/-- How the process is. -/
def outcome (r : TradeRun σ ν) : Except Fault Unit :=
  match r.pc with
  | .crashed fault => .error fault
  | _ => .ok ()

theorem says_callback (h : r.engine.Says symbol broker (.ok () : Except Fault Unit))
    (prog : StrategyProg σ) {pc : TradePc} (hpc : ∀ fault, pc ≠ .crashed fault) :
    (r.callback (recorded net) p prog pc).engine.Says symbol broker
      (r.callback (recorded net) p prog pc).outcome := by
  unfold callback
  rcases h.callback p prog with ⟨s, t, hrun, ht⟩ | ⟨fault, t, hrun, ht⟩ <;> rw [hrun]
  · have hok : outcome { r with pc := pc, engine := t, strategy := s } = .ok () := by
      unfold outcome
      split
      · exact absurd ‹_› (hpc _)
      · rfl
    rwa [hok]
  · exact ht

theorem says_step {now : ℤ} (hstep : r.Step S (recorded net) p now r')
    (h : r.engine.Says symbol broker r.outcome) : r'.engine.Says symbol broker r'.outcome := by
  cases step_moves hstep with
  | start hpc =>
    rw [outcome, hpc] at h
    exact h
  | finish hpc =>
    rw [outcome, hpc] at h
    exact h
  | @poll_filled k order engine hpc hfind hpoll =>
    rw [outcome, hpc] at h
    have htalk := h.poll net order.order_id
    rcases r.engine.poll_cases (recorded net) order with
      ⟨filled, w, hrun, ho⟩ | ⟨fault, w, hrun, ho⟩ <;> rw [hrun] at htalk <;>
      cases hpoll.symm.trans ho
    exact h.of_talk rfl rfl (.of_silence htalk.ok _)
  | @poll_open k order engine hpc hfind hpoll =>
    rw [outcome, hpc] at h
    have htalk := h.poll net order.order_id
    rcases r.engine.poll_cases (recorded net) order with
      ⟨filled, w, hrun, ho⟩ | ⟨fault, w, hrun, ho⟩ <;> rw [hrun] at htalk <;>
      cases hpoll.symm.trans ho
    exact h.of_talk rfl rfl (.of_silence htalk.ok _)
  | @poll_failed k order engine fault hpc hfind hpoll =>
    rw [outcome, hpc] at h
    have htalk := h.poll net order.order_id
    rcases r.engine.poll_cases (recorded net) order with
      ⟨filled, w, hrun, ho⟩ | ⟨fault, w, hrun, ho⟩ <;> rw [hrun] at htalk <;>
      cases hpoll.symm.trans ho
    exact h.of_talk rfl rfl htalk.error
  | lost hpc =>
    have hok : r.outcome = .ok () := by rcases hpc with hpc | hpc <;> rw [outcome, hpc]
    rw [hok] at h
    exact h.of_talk rfl rfl (.of_silence h.talk.ok _)
  | @report k hpc =>
    rw [outcome, hpc] at h
    refine says_callback (r := { r with reported := r.reported ++ [k] }) h _ ?_
    exact fun _ hcrash => nomatch hcrash
  | forget hpc =>
    rw [outcome, hpc] at h
    exact h.of_talk rfl rfl h.talk
  | fetch hpc _ huse =>
    rw [outcome, hpc] at h
    have htalk := h.klines net now
    obtain ⟨hres, rfl⟩ := Prod.mk.inj huse
    rw [hres] at htalk
    exact h.of_talk rfl rfl (.of_silence htalk.ok _)
  | fetch_empty hpc huse =>
    rw [outcome, hpc] at h
    have htalk := h.klines net now
    obtain ⟨hres, rfl⟩ := Prod.mk.inj huse
    rw [hres] at htalk
    exact h.of_talk rfl rfl (.of_silence htalk.ok _)
  | fetch_failed hpc huse =>
    rw [outcome, hpc] at h
    have htalk := h.klines net now
    obtain ⟨hres, rfl⟩ := Prod.mk.inj huse
    rw [hres] at htalk
    exact h.of_talk rfl rfl htalk.error
  | update hpc =>
    rw [outcome, hpc] at h
    refine says_callback h _ ?_
    exact fun _ hcrash => nomatch hcrash

end TradeRun

/-- In every run over every network, what the live process has said is one request after the other,
each tried until it had an answer and at most `retry_count` times. A request without an answer is
the last one: then the process has crashed, with an abort when all tries have failed and with an
exception when the lookup of the host threw. -/
theorem every_request_is_answered_before_the_next {σ : Type} (S : IStrategy σ) (net : Net ν)
    (p : Placement OrderIndex TradeOrder) (symbol : String) (broker : BinanceBroker) (world : ν)
    (strategy : σ) {times : List ℤ} {r : TradeRun σ (ν × Talk)}
    (h : Run (TradeRun.Step S (recorded net) p)
      (TradeRun.start symbol broker (world, []) strategy) times r) :
    ∃ stop, Conversation (Spoken symbol broker) broker.retry_count_ r.engine.world.2 stop ∧
      ∀ s, stop = some s → r.pc = .crashed s.fault := by
  have hstart : (TradeRun.start symbol broker (world, ([] : Talk)) strategy).engine.Says symbol
      broker (TradeRun.start symbol broker (world, ([] : Talk)) strategy).outcome :=
    ⟨rfl, rfl, .of_silence .silence _⟩
  have hsays : r.engine.Says symbol broker r.outcome :=
    h.invariant (p := fun r => r.engine.Says symbol broker r.outcome)
      (fun _ _ _ hstep hs => TradeRun.says_step hstep hs) hstart
  obtain ⟨stop, hconv, hstop⟩ := hsays.talk
  refine ⟨stop, hconv, fun s hs => ?_⟩
  have hout := hstop s hs
  unfold TradeRun.outcome at hout
  split at hout
  · rw [← Except.error.inj hout]
    assumption
  · cases hout

/-- Three tries fail in three ways, and the process aborts. -/
theorem three_failed_tries_are_the_last_words :
    ∃ r : TradeRun Unit (Link (List ℕ) × Talk), r.pc = .crashed .abort ∧
      r.engine.world.2.length = 5 ∧
      ∃ stop, Conversation (Spoken "BTCUSDT" retry_broker) 3 r.engine.world.2 stop ∧
        ∀ s, stop = some s → r.pc = .crashed s.fault := by
  have hrun : (replay (fun r now => r.step idle_strategy (recorded (flaky counting_exchange))
        in_front now) (fun _ _ => True) [0, 0, 0] (TradeRun.start "BTCUSDT" retry_broker
          (⟨[.connect_fails, .read_fails, .write_fails], []⟩, []) ())).any
      (fun r => r.pc = .crashed .abort ∧ r.engine.world.2.length = 5) = true := by
    decide +kernel
  obtain ⟨r, hreplay, hout⟩ := (Option.any_eq_true _ _).mp hrun
  obtain ⟨hpc, hlength⟩ := of_decide_eq_true hout
  exact ⟨r, hpc, hlength, every_request_is_answered_before_the_next idle_strategy
    (flaky counting_exchange) in_front "BTCUSDT" retry_broker _ ()
    (run_of_replay (fun _ _ _ h => h) hreplay).forget⟩

end wedge
