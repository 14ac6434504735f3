-- The tasks of the download program (`async_main` in `dataset/download.cc`). A process
-- works on one file after the other, and all its tasks share one count of errors.
import Wedge.Dataset.Resume

namespace wedge

open containers timelines runs

structure Task where
  symbol : String
  interval : String
  filename : String
  deriving DecidableEq, Repr

/-- The files, and the process that works on them: the tasks that it has not begun, the one whose
call goes on, and the place and the two fields of this call. -/
structure DownloadProcess where
  files : String → SqlDataset := fun _ => {}
  tasks : List Task := []
  task : Option Task := none
  pc : DownloadPc := .idle
  count : ℕ := 0
  failed : List ℤ := []

/-- What comes from outside. A process starts with the tasks of its configuration, and it has none
when the configuration cannot be read. The request of an interval that is not in the table is
undefined behaviour. -/
inductive ProcessEvent
  | start (tasks : List Task)
  | download (event : DownloadEvent)
  | undefined

/-- The event comes from a send. -/
def DownloadEvent.is_send : DownloadEvent → Bool
  | .send_error _ | .response _ => true
  | .call _ _ _ | .insert _ | .leave | .killed => false

/-- What has ended the call has ended the process: an exception or the end from outside. An error
of a send ends only the call when there are three of them. -/
def DownloadRun.ends_process (r : DownloadRun) : DownloadEvent → Bool
  | .call _ _ result => result = .raised
  | .send_error _ => r.count < 3
  | .insert _ | .killed => true
  | .response _ | .leave => false

/-- The index of the interval is in the table of the request. -/
def Task.has_interval (t : Task) : Bool :=
  (market.Klines t.symbol (market.from_str t.interval)).isSome

namespace DownloadProcess

/-- The call for the task. -/
def current (t : Task) (p : DownloadProcess) : DownloadRun where
  pc := p.pc
  dataset := p.files t.filename
  count := p.count
  failed := p.failed

/-- Where the process is behind an event of the call. -/
def put (t : Task) (event : DownloadEvent) (p : DownloadProcess) (r : DownloadRun) :
    DownloadProcess where
  files := Function.update p.files t.filename r.dataset
  tasks :=
    match r.pc with
    | .idle => if r.ends_process event then [] else p.tasks
    | _ => p.tasks
  task :=
    match r.pc with
    | .loop _ _ _ => some t
    | _ => none
  pc := r.pc
  count := r.count
  failed := r.failed

def step (p : DownloadProcess) (event : ProcessEvent) : Option DownloadProcess :=
  match event, p.task, p.tasks with
  | .start tasks, none, [] => some { p with tasks := tasks, count := 0 }
  | .download .killed, none, _ => some { p with tasks := [] }
  | .download (.call now count result), none, t :: rest =>
    if count = p.count then
      ((p.current t).step (.call now count result)).map
        ({ p with tasks := rest }.put t (.call now count result))
    else none
  | .download (.call _ _ _), some _, _ => none
  | .download event, some t, _ =>
    if event.is_send && !t.has_interval then none
    else ((p.current t).step event).map (p.put t event)
  | .undefined, some t, _ =>
    match p.pc with
    | .loop [] start_time end_time =>
      if start_time < end_time && !t.has_interval then
        some { p with tasks := [], task := none, pc := .idle }
      else none
    | _ => none
  | _, _, _ => none

def Step (p : DownloadProcess) (event : ProcessEvent) (p' : DownloadProcess) : Prop :=
  p.step event = some p'

/-- The steps, one by one. -/
inductive Move (p : DownloadProcess) : ProcessEvent → DownloadProcess → Prop
  | start {tasks : List Task} : p.task = none → p.tasks = [] →
      Move p (.start tasks) { p with tasks := tasks, count := 0 }
  | killed : p.task = none → Move p (.download .killed) { p with tasks := [] }
  | call {t : Task} {rest : List Task} {now : ℤ} {result : ConnectResult} {r : DownloadRun} :
      p.task = none → p.tasks = t :: rest →
      DownloadRun.Step (p.current t) (.call now p.count result) r →
      Move p (.download (.call now p.count result))
        ({ p with tasks := rest }.put t (.call now p.count result) r)
  | go_on {t : Task} {event : DownloadEvent} {r : DownloadRun} : p.task = some t →
      (∀ now count result, event ≠ .call now count result) →
      (event.is_send = true → t.has_interval = true) →
      DownloadRun.Step (p.current t) event r →
      Move p (.download event) (p.put t event r)
  | undefined {t : Task} {a b : ℤ} : p.task = some t → p.pc = .loop [] a b → a < b →
      t.has_interval = false →
      Move p .undefined { p with tasks := [], task := none, pc := .idle }

theorem step_moves {p p' : DownloadProcess} {event : ProcessEvent} (h : Step p event p') :
    Move p event p' := by
  unfold Step step at h
  split at h
  · cases h
    exact .start ‹_› ‹_›
  · cases h
    exact .killed ‹_›
  · split at h
    · rename_i heq
      obtain ⟨r, hr, rfl⟩ := Option.map_eq_some_iff.mp h
      subst heq
      exact .call ‹_› ‹_› hr
    · cases h
  · cases h
  · rename_i hcall htask
    split at h
    · cases h
    · rename_i hsend
      obtain ⟨r, hr, rfl⟩ := Option.map_eq_some_iff.mp h
      refine .go_on htask hcall (fun his => ?_) hr
      simpa [his] using hsend
  · split at h
    · rename_i hpc
      split at h
      · rename_i hbad
        cases h
        obtain ⟨hlt, hname⟩ := Bool.and_eq_true_iff.mp hbad
        exact .undefined ‹_› hpc (of_decide_eq_true hlt) (by simpa using hname)
      · cases h
    · cases h
  · cases h

theorem Move.step {p p' : DownloadProcess} {event : ProcessEvent} (h : Move p event p') :
    Step p event p' := by
  unfold Step DownloadProcess.step
  cases h with
  | start htask htasks => simp [htask, htasks]
  | killed htask => simp [htask]
  | @call t rest now result r htask htasks hcall =>
    have hr : (p.current t).step (.call now p.count result) = some r := hcall
    simp [htask, htasks, hr]
  | @go_on t event r htask hcall hsend hgo =>
    have hr : (p.current t).step event = some r := hgo
    have hvalid : (event.is_send && !t.has_interval) = false := by
      cases his : event.is_send with
      | false => rfl
      | true => simp [hsend his]
    cases event with
    | call now count result => exact absurd rfl (hcall now count result)
    | send_error | response | insert | leave | killed => simp [htask, hvalid, hr]
  | undefined htask hpc hlt hbad => simp [htask, hpc, hlt, hbad]

/-! ## One file -/

/-- What happens to the calls for the file. -/
def of_file (file : String) (p : DownloadProcess) : ProcessEvent → List DownloadEvent
  | .start _ => []
  | .download event =>
    match p.task, p.tasks, event with
    | some t, _, _ => if t.filename = file then [event] else []
    | none, t :: _, .call _ _ _ => if t.filename = file then [event] else []
    | _, _, _ => []
  | .undefined =>
    match p.task with
    | some t => if t.filename = file then [.killed] else []
    | none => []

/-- The exchange serves each task from its market, and the tables take every row. -/
def Served (x : String → String → KlineExchange) (p : DownloadProcess) : ProcessEvent → Prop
  | .download event => event ≠ .insert false ∧
      ∀ t, p.task = some t → (x t.symbol t.interval).Serves (p.current t) event
  | _ => True

/-- The tasks that name the file name the market. -/
def Keeps (file symbol interval : String) (tasks : List Task) : Prop :=
  ∀ t ∈ tasks, t.filename = file → t.symbol = symbol ∧ t.interval = interval

/-- Every configuration has only tasks of the market for the file. -/
def OneMarket (file symbol interval : String) (_ : DownloadProcess) : ProcessEvent → Prop
  | .start tasks => Keeps file symbol interval tasks
  | _ => True

/-- The calls for the file are the one that goes on now, or the last of them is over. -/
structure Follows (file symbol interval : String) (p : DownloadProcess) (r : DownloadRun) :
    Prop where
  tasks : Keeps file symbol interval p.tasks
  dataset : r.dataset = p.files file
  here : ∀ t, p.task = some t → t.filename = file →
    r = p.current t ∧ t.symbol = symbol ∧ t.interval = interval
  apart : (∀ t, p.task = some t → t.filename ≠ file) →
    ∀ klines a b, r.pc ≠ .loop klines a b

variable {x : String → String → KlineExchange} {file symbol interval : String}
  {p p' : DownloadProcess} {r : DownloadRun} {event : ProcessEvent}

theorem keeps_put (h : Keeps file symbol interval p.tasks) (t : Task) (event : DownloadEvent)
    (q : DownloadRun) : Keeps file symbol interval (p.put t event q).tasks := by
  unfold put
  dsimp only
  split
  · split_ifs
    · exact fun t ht => absurd ht List.not_mem_nil
    · exact h
  · exact h

theorem task_put {t t' : Task} {event : DownloadEvent} {q : DownloadRun}
    (h : (p.put t event q).task = some t') : t' = t := by
  unfold put at h
  dsimp only at h
  split at h
  · exact (Option.some.inj h).symm
  · cases h

/-- A call for another file leaves this file alone. -/
theorem Follows.put_other (h : Follows file symbol interval p r) {t : Task}
    (hne : t.filename ≠ file) (hapart : ∀ t, p.task = some t → t.filename ≠ file)
    (event : DownloadEvent) (q : DownloadRun) :
    Follows file symbol interval (p.put t event q) r := by
  refine ⟨keeps_put h.tasks t event q, ?_, ?_, fun _ => h.apart hapart⟩
  · rw [h.dataset]
    exact (Function.update_of_ne hne.symm _ _).symm
  · rintro t' ht' hname
    exact absurd (task_put ht' ▸ hname) hne

/-- The call for this file is where its own run is. -/
theorem Follows.put_here (htasks : Keeps file symbol interval p.tasks) {t : Task}
    (hname : t.filename = file) (hmarket : t.symbol = symbol ∧ t.interval = interval)
    (event : DownloadEvent) (q : DownloadRun) :
    Follows file symbol interval (p.put t event q) q := by
  subst hname
  refine ⟨keeps_put htasks t event q, (Function.update_self t.filename _ p.files).symm, ?_, ?_⟩
  · rintro t' ht' _
    obtain rfl := task_put ht'
    refine ⟨?_, hmarket⟩
    unfold current put
    dsimp only
    rw [Function.update_self]
  · intro hapart klines a b hpc
    refine hapart t ?_ rfl
    simp [put, hpc]

theorem Follows.rest (h : Follows file symbol interval p r) {t : Task} {rest : List Task}
    (htasks : p.tasks = t :: rest) : Follows file symbol interval { p with tasks := rest } r :=
  ⟨fun s hs => h.tasks s (htasks ▸ List.mem_cons_of_mem t hs), h.dataset, h.here, h.apart⟩

/-- A call does not depend on how the last one ended. -/
theorem call_anew {r r' q : DownloadRun} {now : ℤ} {count : ℕ} {result : ConnectResult}
    (h : DownloadRun.Step r (.call now count result) r') (hdata : q.dataset = r.dataset)
    (hpc : ∀ klines a b, q.pc ≠ .loop klines a b) :
    DownloadRun.Step q (.call now count result) r' := by
  obtain ⟨qpc, qdata, qcount, qfailed⟩ := q
  dsimp only at hdata
  subst hdata
  cases DownloadRun.step_moves h with
  | begin hpc' =>
    have hmove : DownloadRun.Move ⟨qpc, r.dataset, qcount, qfailed⟩
        (.call now count .connected) _ := .begin hpc
    exact hmove.step
  | unconnected hpc' hresult =>
    have hmove : DownloadRun.Move ⟨qpc, r.dataset, qcount, qfailed⟩
        (.call now count result) _ := .unconnected hpc hresult
    exact hmove.step

theorem follows_step
    (hstep : Where (Where Step (Served x)) (OneMarket file symbol interval) p event p')
    (h : Follows file symbol interval p r) :
    ∃ r', Run (DownloadRun.SafeStep (x symbol interval)) r (p.of_file file event) r' ∧
      Follows file symbol interval p' r' := by
  obtain ⟨⟨hstep, hserved⟩, hmarket⟩ := hstep
  cases step_moves hstep with
  | @start tasks htask htasks =>
    refine ⟨r, .nil r, hmarket, h.dataset, ?_, h.apart⟩
    intro t ht
    exact absurd (htask.symm.trans ht) nofun
  | killed htask =>
    have hnone : p.of_file file (.download .killed) = [] := by simp [of_file, htask]
    rw [hnone]
    exact ⟨r, .nil r, fun t ht => absurd ht List.not_mem_nil, h.dataset, h.here, h.apart⟩
  | @call t rest now result q htask htasks hcall =>
    have hno : ∀ t, p.task = some t → t.filename ≠ file := by
      intro t ht
      exact absurd (htask.symm.trans ht) nofun
    have hrest := h.rest htasks
    by_cases hname : t.filename = file
    · have hone : p.of_file file (.download (.call now p.count result)) =
          [.call now p.count result] := by simp [of_file, htask, htasks, hname]
      have hdata : r.dataset = (p.current t).dataset := by
        rw [h.dataset, ← hname]
        rfl
      rw [hone]
      refine ⟨q, .single ⟨⟨call_anew hcall hdata (h.apart hno), trivial⟩, nofun⟩, ?_⟩
      have ht : t ∈ p.tasks := htasks ▸ List.mem_cons_self
      exact .put_here hrest.tasks hname (h.tasks t ht hname) _ q
    · have hnone : p.of_file file (.download (.call now p.count result)) = [] := by
        simp [of_file, htask, htasks, hname]
      rw [hnone]
      exact ⟨r, .nil r, hrest.put_other hname hno _ q⟩
  | @go_on t event q htask hcall hsend hgo =>
    by_cases hname : t.filename = file
    · have hone : p.of_file file (.download event) = [event] := by
        simp [of_file, htask, hname]
      obtain ⟨rfl, hsymbol, hinterval⟩ := h.here t htask hname
      have hserves := hserved.2 t htask
      rw [hsymbol, hinterval] at hserves
      rw [hone]
      exact ⟨q, .single ⟨⟨hgo, hserves⟩, hserved.1⟩,
        .put_here h.tasks hname ⟨hsymbol, hinterval⟩ event q⟩
    · have hnone : p.of_file file (.download event) = [] := by simp [of_file, htask, hname]
      rw [hnone]
      refine ⟨r, .nil r, h.put_other hname (fun s hs => ?_) event q⟩
      exact Option.some.inj (htask.symm.trans hs) ▸ hname
  | @undefined t a b htask hpc hlt hbad =>
    have hempty : Keeps file symbol interval [] := fun t ht => absurd ht List.not_mem_nil
    by_cases hname : t.filename = file
    · have hone : p.of_file file .undefined = [.killed] := by simp [of_file, htask, hname]
      rw [hone]
      refine ⟨{ r with pc := .idle }, .single ⟨⟨DownloadRun.Move.killed.step, trivial⟩, nofun⟩,
        hempty, h.dataset, nofun, fun _ _ _ _ => nofun⟩
    · have hnone : p.of_file file .undefined = [] := by simp [of_file, htask, hname]
      rw [hnone]
      refine ⟨r, .nil r, hempty, h.dataset, nofun, fun _ => h.apart fun s hs => ?_⟩
      exact Option.some.inj (htask.symm.trans hs) ▸ hname

theorem follows_run {log : List DownloadEvent}
    (h : Emits (Where (Where Step (Served x)) (OneMarket file symbol interval)) (of_file file)
      p log p') (hr : Follows file symbol interval p r) :
    ∃ r', Run (DownloadRun.SafeStep (x symbol interval)) r log r' ∧
      Follows file symbol interval p' r' := by
  induction h generalizing r with
  | nil => exact ⟨r, .nil r, hr⟩
  | cons hstep _ ih =>
    obtain ⟨q, hq, hfollows⟩ := follows_step hstep hr
    obtain ⟨r', hr', h'⟩ := ih hfollows
    exact ⟨r', hq.append hr', h'⟩

end DownloadProcess

/-- Whatever processes run one after the other, and whatever their other tasks are, what happens to
a file whose tasks all name one market is a run of the calls for this file alone. So the file holds
the first klines of its market, each of them once, and no other row, and behind a call that went
to its end all that were over by its start. -/
theorem the_files_are_downloaded_apart (x : String → String → KlineExchange)
    {file symbol interval : String} (himm : (x symbol interval).Immutable)
    {log : List DownloadEvent} {p : DownloadProcess}
    (h : Emits (Where (Where DownloadProcess.Step (DownloadProcess.Served x))
      (DownloadProcess.OneMarket file symbol interval)) (DownloadProcess.of_file file) {} log p) :
    ∃ r, Run (DownloadRun.SafeStep (x symbol interval)) {} log r ∧ r.dataset = p.files file ∧
      (x symbol interval).Prefix (p.files file) ∧
      ∀ now, r.pc = .left now → ∀ k ∈ (x symbol interval).history,
        k.close_time < now → k ∈ (p.files file).rows := by
  have hstart : DownloadProcess.Follows file symbol interval {} {} :=
    ⟨fun t ht => absurd ht List.not_mem_nil, rfl, nofun, fun _ _ _ _ => nofun⟩
  obtain ⟨r, hrun, hfollows⟩ := DownloadProcess.follows_run h hstart
  obtain ⟨hsynced, hfailed⟩ := DownloadRun.safe_run hrun
  refine ⟨r, hrun, hfollows.dataset, hfollows.dataset ▸ hsynced.table_first himm, ?_⟩
  intro now hpc k hk hover
  rw [← hfollows.dataset]
  exact hsynced.complete himm hfailed hpc hk (Or.inl hover)

namespace DownloadProcess

variable {p : DownloadProcess} {t : Task} {event next : DownloadEvent} {q q' : DownloadRun}

theorem current_put : (p.put t event q).current t = q := by
  unfold current put
  dsimp only
  rw [Function.update_self]

/-- A call that is in its loop goes on. -/
theorem put_step {klines : List Json} {a b : ℤ} (hloop : q.pc = .loop klines a b)
    (hcall : ∀ now count result, next ≠ .call now count result)
    (hsend : next.is_send = true → t.has_interval = true) (hgo : DownloadRun.Step q next q') :
    Step (p.put t event q) (.download next) ((p.put t event q).put t next q') := by
  refine (Move.go_on ?_ hcall hsend ?_).step
  · simp [put, hloop]
  · rw [current_put]
    exact hgo

end DownloadProcess

def first_task : Task := { symbol := "BTCUSDT", interval := "1m", filename := "btc" }

def second_task : Task := { symbol := "ETHUSDT", interval := "1m", filename := "eth" }

/-- A call that has just got the two minutes. -/
def two_rows_left : DownloadRun :=
  { pc := .loop [minute_row 0 "101", minute_row 60000 "102"] 0 90000 }

def one_row_left : DownloadRun :=
  two_rows_left.read (minute_candle 0 101) [minute_row 60000 "102"] 90000 true

def no_row_left : DownloadRun := one_row_left.read (minute_candle 60000 102) [] 90000 true

/-- The first task gets no connection, and the file of the second one is complete. -/
theorem the_second_file_is_complete :
    ∃ p : DownloadProcess, two_minutes.Prefix (p.files "eth") ∧ (p.files "btc").rows = [] ∧
      minute_candle 0 101 ∈ (p.files "eth").rows := by
  let p1 : DownloadProcess := { tasks := [first_task, second_task] }
  let p2 := { p1 with tasks := [second_task] }.put first_task (.call 90000 0 .failed) {}
  let p3 := { p2 with tasks := [] }.put second_task (.call 90000 0 .connected)
    { pc := .loop [] 0 90000 }
  let p4 := p3.put second_task (.response (.arr [minute_row 0 "101", minute_row 60000 "102"]))
    two_rows_left
  let p5 := p4.put second_task (.insert true) one_row_left
  let p6 := p5.put second_task (.insert true) no_row_left
  let p7 := p6.put second_task .leave { no_row_left with pc := .left 90000 }
  have h1 : DownloadProcess.Step {} (.start [first_task, second_task]) p1 := rfl
  have h2 : p1.Step (.download (.call 90000 0 .failed)) p2 := rfl
  have h3 : p2.Step (.download (.call 90000 0 .connected)) p3 := rfl
  have h4 : p3.Step
      (.download (.response (.arr [minute_row 0 "101", minute_row 60000 "102"]))) p4 :=
    DownloadProcess.put_step rfl nofun (fun _ => by decide)
      (DownloadRun.Move.response rfl (by decide)).step
  have h5 : p4.Step (.download (.insert true)) p5 :=
    DownloadProcess.put_step rfl nofun nofun (DownloadRun.Move.insert rfl get_first_minute).step
  have h6 : p5.Step (.download (.insert true)) p6 :=
    DownloadProcess.put_step rfl nofun nofun (DownloadRun.Move.insert rfl get_second_minute).step
  have h7 : p6.Step (.download .leave) p7 :=
    DownloadProcess.put_step rfl nofun nofun (DownloadRun.Move.leave rfl (by decide)).step
  have hserves : ∀ t, p3.task = some t → two_minutes.Serves (p3.current t)
      (.response (.arr [minute_row 0 "101", minute_row 60000 "102"])) := by
    intro t ht a b hloop
    cases hloop
    exact ⟨0, _, two_minutes_page, .cons get_first_minute (.cons get_second_minute .nil)⟩
  have hmarket : DownloadProcess.Keeps "eth" "ETHUSDT" "1m" [first_task, second_task] := by
    simp [DownloadProcess.Keeps, first_task, second_task]
  have hemits : Emits (Where (Where DownloadProcess.Step (DownloadProcess.Served fun _ _ =>
      two_minutes)) (DownloadProcess.OneMarket "eth" "ETHUSDT" "1m"))
      (DownloadProcess.of_file "eth") {} _ p7 :=
    .cons ⟨⟨h1, trivial⟩, hmarket⟩ <| .cons ⟨⟨h2, nofun, fun _ _ => trivial⟩, trivial⟩ <|
      .cons ⟨⟨h3, nofun, fun _ _ => trivial⟩, trivial⟩ <| .cons ⟨⟨h4, nofun, hserves⟩, trivial⟩ <|
      .cons ⟨⟨h5, nofun, fun _ _ => trivial⟩, trivial⟩ <|
      .cons ⟨⟨h6, nofun, fun _ _ => trivial⟩, trivial⟩ <|
      .single ⟨⟨h7, nofun, fun _ _ => trivial⟩, trivial⟩
  obtain ⟨_, _, _, hprefix, _⟩ :=
    the_files_are_downloaded_apart (fun _ _ => two_minutes) (fun _ _ _ => rfl) hemits
  exact ⟨p7, hprefix, by decide +kernel, by decide +kernel⟩

/-! ## The errors of a process -/

/-- A send had an error. -/
def ProcessEvent.is_send_error : ProcessEvent → Bool
  | .download (.send_error _) => true
  | _ => false

namespace DownloadProcess

/-- The tasks that are not over. -/
def open_tasks (p : DownloadProcess) : ℕ := p.tasks.length + if p.task.isSome then 1 else 0

/-- Of `n` tasks, the ones that are over have taken one error each from the common count, and two
more are left to all. -/
structure Budget (n : ℕ) (p : DownloadProcess) : Prop where
  tasks : p.open_tasks ≤ n
  errors : p.count + p.open_tasks ≤ n + 2

variable {p p' : DownloadProcess} {n : ℕ} {event : ProcessEvent}

/-- An error goes into the count, and the call goes on only with one of the first two. -/
theorem count_step {r r' : DownloadRun} {event : DownloadEvent}
    (hstep : DownloadRun.Step r event r')
    (hcall : ∀ now count result, event ≠ .call now count result) :
    r'.count = r.count + (if (ProcessEvent.download event).is_send_error then 1 else 0) ∧
      ((∃ klines a b, r'.pc = .loop klines a b) →
        (ProcessEvent.download event).is_send_error = false ∨ r'.count < 3) := by
  cases DownloadRun.step_moves hstep with
  | begin | unconnected => exact absurd rfl (hcall _ _ _)
  | retry hpc hlt hcount => exact ⟨rfl, fun _ => Or.inr hcount⟩
  | give_up hpc hlt =>
    refine ⟨rfl, ?_⟩
    rintro ⟨_, _, _, hloop⟩
    cases hloop
  | response | leave | unreadable | insert | killed => exact ⟨rfl, fun _ => Or.inl rfl⟩

/-- The budget behind an event of a call. -/
theorem budget_put {t : Task} {event : DownloadEvent} {q : DownloadRun} {errors : ℕ}
    (htasks : p.tasks.length + 1 ≤ n) (hbudget : p.count + p.tasks.length + 1 ≤ n + 2)
    (hcount : q.count = p.count + errors) (herrors : errors ≤ 1)
    (hgo : (∃ klines a b, q.pc = .loop klines a b) → errors = 0 ∨ q.count < 3) :
    Budget n (p.put t event q) := by
  unfold put
  rcases hpc : q.pc with _ | ⟨klines, a, b⟩ | b
  · -- The call is over, and so is perhaps the process.
    by_cases hends : q.ends_process event = true <;> constructor <;>
      simp only [open_tasks, hends, if_true, if_false, Option.isSome_none, Bool.false_eq_true,
        List.length_nil] <;> omega
  · have h := hgo ⟨klines, a, b, hpc⟩
    constructor <;> simp only [open_tasks, Option.isSome_some, if_true] <;> omega
  · constructor <;> simp only [open_tasks, Option.isSome_none, Bool.false_eq_true, if_false] <;>
      omega

theorem budget_step (hstep : Step p event p') (hevent : ∀ tasks, event ≠ .start tasks)
    (h : Budget n p) :
    Budget n p' ∧ p'.count = p.count + if event.is_send_error then 1 else 0 := by
  obtain ⟨htasks, herrors⟩ := h
  unfold open_tasks at htasks herrors
  cases step_moves hstep with
  | start => exact absurd rfl (hevent _)
  | killed htask =>
    refine ⟨⟨?_, ?_⟩, rfl⟩ <;> simp only [open_tasks, htask, List.length_nil, Option.isSome_none,
      Bool.false_eq_true, if_false] <;> omega
  | @call t rest now result q htask hrest hcall =>
    have hcount : q.count = p.count + 0 := by
      cases DownloadRun.step_moves hcall with
      | begin | unconnected => rfl
    rw [htask, hrest, List.length_cons] at htasks herrors
    simp only [Option.isSome_none, Bool.false_eq_true, if_false] at htasks herrors
    refine ⟨budget_put ?_ ?_ hcount (Nat.zero_le 1) fun _ => Or.inl rfl, hcount⟩
    · exact htasks
    · dsimp only
      omega
  | @go_on t event q htask hcall hsend hgo =>
    obtain ⟨hcount, hloop⟩ := count_step hgo hcall
    rw [htask] at htasks herrors
    simp only [Option.isSome_some, if_true] at htasks herrors
    refine ⟨budget_put htasks (by omega) hcount (by split <;> decide) fun hq => ?_, hcount⟩
    rcases hloop hq with hno | hlt
    · simp [hno]
    · exact Or.inr hlt
  | undefined htask hpc hlt hbad =>
    refine ⟨⟨?_, ?_⟩, rfl⟩ <;> simp only [open_tasks, List.length_nil, Option.isSome_none,
      Bool.false_eq_true, if_false] <;> omega

theorem budget_run {events : List ProcessEvent}
    (h : Run (Where Step fun _ event => ∀ tasks, event ≠ .start tasks) p events p')
    (hbudget : Budget n p) :
    Budget n p' ∧ p'.count = p.count + events.countP ProcessEvent.is_send_error := by
  induction h with
  | nil => exact ⟨hbudget, rfl⟩
  | @cons s t u event events hstep _ ih =>
    obtain ⟨ht, hcount⟩ := budget_step hstep.1 hstep.2 hbudget
    obtain ⟨hu, htotal⟩ := ih ht
    refine ⟨hu, ?_⟩
    rw [htotal, hcount, List.countP_cons]
    omega

end DownloadProcess

/-- All tasks of a process share the count of errors: with `n` tasks, not more than `n + 2` sends
have an error. -/
theorem a_process_has_few_errors {p q : DownloadProcess} {events : List ProcessEvent}
    (hnew : p.task = none) (hcount : p.count = 0)
    (h : Run (Where DownloadProcess.Step fun _ event => ∀ tasks, event ≠ .start tasks) p events q) :
    q.count = events.countP ProcessEvent.is_send_error ∧
      events.countP ProcessEvent.is_send_error ≤ p.tasks.length + 2 := by
  have hopen : p.open_tasks = p.tasks.length := by simp [DownloadProcess.open_tasks, hnew]
  obtain ⟨⟨_, herrors⟩, htotal⟩ := DownloadProcess.budget_run (n := p.tasks.length) h
    ⟨hopen.le, by omega⟩
  rw [hcount, Nat.zero_add] at htotal
  exact ⟨htotal, by omega⟩

def three_errors : List ProcessEvent :=
  .download (.call 90000 0 .connected) :: List.replicate 3 (.download (.send_error .connected))

/-- The third error ends the task, and there is no other one. -/
theorem three_errors_end_a_task :
    ∃ q : DownloadProcess, q.task = none ∧ q.count = 3 ∧
      three_errors.countP ProcessEvent.is_send_error = q.count ∧
      three_errors.countP ProcessEvent.is_send_error ≤ [first_task].length + 2 := by
  let p : DownloadProcess := { tasks := [first_task] }
  let p1 := { p with tasks := [] }.put first_task (.call 90000 0 .connected)
    { pc := .loop [] 0 90000 }
  let p2 := p1.put first_task (.send_error .connected) { pc := .loop [] 0 90000, count := 1 }
  let p3 := p2.put first_task (.send_error .connected) { pc := .loop [] 0 90000, count := 2 }
  let p4 := p3.put first_task (.send_error .connected) { count := 3 }
  have hrun : Run (Where DownloadProcess.Step fun _ event => ∀ tasks, event ≠ .start tasks) p
      three_errors p4 :=
    .cons ⟨rfl, nofun⟩ <| .cons ⟨rfl, nofun⟩ <| .cons ⟨rfl, nofun⟩ <| .single ⟨rfl, nofun⟩
  obtain ⟨hcount, hfew⟩ := a_process_has_few_errors rfl rfl hrun
  exact ⟨p4, rfl, rfl, hcount.symm, hfew⟩

end wedge
