import Undertone.Lib.Run
import Mathlib.Data.List.Basic

/-!
# The send queue of a connection

`send` may be called at any time and from any thread, a write takes a while: the messages wait in `send_queue`, and only
the first of them is being written. A step of `SendQueue` is what happens under `send_queue_mutex`, or a part of the
write on the socket. The handler of a write takes the callbacks out of the queue under the mutex, and calls them after
`lock.unlock()`, on whichever thread it runs: this is a step of its own (`Sending`). A run takes the steps in any order,
and when the server stops it ends where it is. No callback is lost or called twice; on one thread they are called in the
order of the calls of `send`, on two a callback may overtake another (`overtaken`). What has been written is a part of
the messages in their order (`written_in_order`); the queue never waits without a write under way (`Live`), so it can
always be drained (`sent_in_order`).
-/

namespace Undertone

namespace SimpleWeb

variable {κ : Type*}

structure OutData (κ : Type*) where
  /-- `out_header` and `out_message` -/
  bytes : List UInt8
  callback : κ

/-- How far the write of the first message of the queue has come. -/
inductive Writing
  | idle
  /-- handed to the strand -/
  | posted
  | started (written : ℕ)
deriving DecidableEq, Repr

structure SendQueue (κ : Type*) where
  send_queue : List (OutData κ)
  writing : Writing

namespace SendQueue

def empty : SendQueue κ := { send_queue := [], writing := .idle }

inductive Move (κ : Type*)
  | send (out_data : OutData κ)
  /-- the strand runs `async_write` -/
  | start
  /-- the socket takes `n` bytes -/
  | transfer (n : ℕ)
  /-- the handler of the write, without an error -/
  | complete
  /-- the handler of the write, with an error -/
  | fail

/-- What a step hands to the socket, and the callbacks it takes out of the queue, with whether there was no error. -/
structure Answer (κ : Type*) where
  bytes : List UInt8
  taken : List (κ × Bool)

def Answer.none : Answer κ := { bytes := [], taken := [] }

/-- `send`: the write of the first message begins at once. -/
def send (out_data : OutData κ) (Q : SendQueue κ) : SendQueue κ :=
  let send_queue := Q.send_queue ++ [out_data]
  { send_queue := send_queue, writing := if send_queue.length = 1 then .posted else Q.writing }

def step : Move κ → SendQueue κ → Option (Answer κ × SendQueue κ)
  | .send out_data, Q => some (.none, Q.send out_data)
  | .start, Q =>
    match Q.writing with
    | .posted => some (.none, { Q with writing := .started 0 })
    | _ => none
  | .transfer n, Q =>
    match Q.writing, Q.send_queue with
    | .started written, it :: _ =>
      if written + n ≤ it.bytes.length then
        some ({ bytes := (it.bytes.drop written).take n, taken := [] }, { Q with writing := .started (written + n) })
      else none
    | _, _ => none
  | .complete, Q =>
    match Q.writing, Q.send_queue with
    | .started written, it :: rest =>
      if written = it.bytes.length then
        some ({ bytes := [], taken := [(it.callback, true)] },
          { send_queue := rest, writing := if 0 < rest.length then .posted else .idle })
      else none
    | _, _ => none
  | .fail, Q =>
    match Q.writing with
    | .started _ =>
      some ({ bytes := [], taken := Q.send_queue.map fun out_data => (out_data.callback, false) }, empty)
    | _ => none

/-! ## What a run did -/

abbrev Log (κ : Type*) := List (Move κ × Answer κ)

/-- The messages that were handed to `send`. -/
def sends (log : Log κ) : List (OutData κ) :=
  log.filterMap fun e => match e.1 with
    | .send out_data => some out_data
    | _ => none

def taken (log : Log κ) : List (κ × Bool) := log.flatMap fun e => e.2.taken

/-- The bytes on the socket. -/
def wire (log : Log κ) : List UInt8 := log.flatMap fun e => e.2.bytes

/-- The bytes that are still to be written. -/
def rest (Q : SendQueue κ) : List UInt8 :=
  (Q.send_queue.flatMap (·.bytes)).drop (match Q.writing with
    | .started written => written
    | _ => 0)

/-- A message waits exactly if a write is under way, and of the first message no more than its bytes were written. -/
structure Live (Q : SendQueue κ) : Prop where
  idle : Q.writing = .idle ↔ Q.send_queue = []
  written : ∀ n it rest, Q.writing = .started n → Q.send_queue = it :: rest → n ≤ it.bytes.length

variable {Q Q' : SendQueue κ} {log : Log κ}

@[simp] theorem sends_snoc (m : Move κ) (a : Answer κ) :
    sends (log ++ [(m, a)]) = sends log ++ (match m with
      | .send out_data => [out_data]
      | _ => []) := by
  cases m <;> simp [sends]

@[simp] theorem taken_snoc (m : Move κ) (a : Answer κ) : taken (log ++ [(m, a)]) = taken log ++ a.taken := by
  simp [taken]

@[simp] theorem wire_snoc (m : Move κ) (a : Answer κ) : wire (log ++ [(m, a)]) = wire log ++ a.bytes := by
  simp [wire]

/-! ## One step -/

@[simp] theorem send_send_queue (d : OutData κ) (Q : SendQueue κ) : (Q.send d).send_queue = Q.send_queue ++ [d] := rfl

@[simp] theorem send_writing (d : OutData κ) (Q : SendQueue κ) :
    (Q.send d).writing = if Q.send_queue = [] then .posted else Q.writing := by
  cases hq : Q.send_queue <;> simp [send, hq]

/-- What a step can do. -/
theorem step_cases {m : Move κ} {a : Answer κ} (h : step m Q = some (a, Q')) :
    (∃ d, m = .send d ∧ a = .none ∧ Q' = Q.send d) ∨
    (m = .start ∧ a = .none ∧ Q.writing = .posted ∧ Q' = { Q with writing := .started 0 }) ∨
    (∃ n k it tail, m = .transfer n ∧ Q = { send_queue := it :: tail, writing := .started k } ∧
      k + n ≤ it.bytes.length ∧ a = { bytes := (it.bytes.drop k).take n, taken := [] } ∧
      Q' = { send_queue := it :: tail, writing := .started (k + n) }) ∨
    (∃ it tail, m = .complete ∧ Q = { send_queue := it :: tail, writing := .started it.bytes.length } ∧
      a = { bytes := [], taken := [(it.callback, true)] } ∧
      Q' = { send_queue := tail, writing := if tail = [] then .idle else .posted }) ∨
    (m = .fail ∧ a = { bytes := [], taken := Q.send_queue.map fun d => (d.callback, false) } ∧ Q' = empty) := by
  obtain ⟨queue, writing⟩ := Q
  cases m with
  | send d =>
    obtain ⟨rfl, rfl⟩ := Prod.mk.inj (Option.some.inj h)
    exact .inl ⟨d, rfl, rfl, rfl⟩
  | start =>
    cases writing <;> simp only [step, reduceCtorEq] at h
    obtain ⟨rfl, rfl⟩ := Prod.mk.inj (Option.some.inj h)
    exact .inr (.inl ⟨rfl, rfl, rfl, rfl⟩)
  | transfer n =>
    cases writing <;> cases queue <;> simp only [step, reduceCtorEq] at h
    rename_i k it tail
    split at h
    · obtain ⟨rfl, rfl⟩ := Prod.mk.inj (Option.some.inj h)
      exact .inr (.inr (.inl ⟨n, k, it, tail, rfl, rfl, ‹_›, rfl, rfl⟩))
    · cases h
  | complete =>
    cases writing <;> cases queue <;> simp only [step, reduceCtorEq] at h
    rename_i k it tail
    split at h
    · obtain ⟨rfl, rfl⟩ := Prod.mk.inj (Option.some.inj h)
      subst k
      refine .inr (.inr (.inr (.inl ⟨it, tail, rfl, rfl, rfl, ?_⟩)))
      cases tail <;> simp
    · cases h
  | fail =>
    cases writing <;> simp only [step, reduceCtorEq] at h
    obtain ⟨rfl, rfl⟩ := Prod.mk.inj (Option.some.inj h)
    exact .inr (.inr (.inr (.inr ⟨rfl, rfl, rfl⟩)))

theorem step_live {m : Move κ} {a : Answer κ} (h : step m Q = some (a, Q')) (hlive : Q.Live) : Q'.Live := by
  rcases step_cases h with ⟨d, -, -, rfl⟩ | ⟨-, -, hw, rfl⟩ | ⟨n, k, it, tail, -, rfl, hn, -, rfl⟩ |
    ⟨it, tail, -, rfl, -, rfl⟩ | ⟨-, -, rfl⟩
  · refine ⟨?_, ?_⟩
    · by_cases hq : Q.send_queue = []
      · simp [hq]
      · simp [hq, hlive.idle]
    · rintro n it rest hw hq
      by_cases hnil : Q.send_queue = []
      · simp [hnil] at hw
      · obtain ⟨it', tail, hcons⟩ := List.exists_cons_of_ne_nil hnil
        simp only [send_writing, hnil, if_false] at hw
        simp only [send_send_queue, hcons, List.cons_append, List.cons.injEq] at hq
        exact hq.1 ▸ hlive.written n it' tail hw hcons
  · refine ⟨?_, ?_⟩
    · have := hlive.idle
      simp_all
    · rintro n it rest hw' -
      obtain rfl : 0 = n := by simpa using hw'
      exact Nat.zero_le _
  · refine ⟨by simp, ?_⟩
    rintro n' it' rest hw' hq
    obtain rfl : k + n = n' := by simpa using hw'
    obtain ⟨rfl, rfl⟩ : it = it' ∧ tail = rest := by simpa using hq
    exact hn
  · refine ⟨?_, ?_⟩
    · by_cases hq : tail = [] <;> simp [hq]
    · rintro n' it' rest hw' hq
      by_cases hq : tail = [] <;> simp [hq] at hw'
  · exact ⟨by simp [empty], by simp [empty]⟩

/-! ## Runs -/

theorem run_live (h : Run step Q log Q') (hlive : Q.Live) : Q'.Live := by
  induction h with
  | nil => exact hlive
  | call _ hc ih => exact step_live hc ih

theorem empty_live : (empty : SendQueue κ).Live := ⟨by simp [empty], by simp [empty]⟩

/-- Every callback is taken once, in the order of the calls of `send`; those of the messages that wait are still in the
queue. -/
theorem taken_in_order (h : Run step (empty : SendQueue κ) log Q) :
    (sends log).map (·.callback) = (taken log).map Prod.fst ++ Q.send_queue.map (·.callback) := by
  induction h with
  | nil => rfl
  | @call log Q Q' m a h hc ih =>
    rcases step_cases hc with ⟨d, rfl, rfl, rfl⟩ | ⟨rfl, rfl, hw, rfl⟩ | ⟨n, k, it, tail, rfl, rfl, hn, rfl, rfl⟩ |
      ⟨it, tail, rfl, rfl, rfl, rfl⟩ | ⟨rfl, rfl, rfl⟩
    · simp [ih, Answer.none]
    · simp [ih, Answer.none]
    · simp [ih]
    · simp [ih]
    · simp [ih, empty, Function.comp_def]

theorem rest_started {it : OutData κ} {tail : List (OutData κ)} {k : ℕ} (hk : k ≤ it.bytes.length) :
    rest { send_queue := it :: tail, writing := .started k } = it.bytes.drop k ++ tail.flatMap (·.bytes) := by
  simp [rest, List.drop_append_of_le_length hk]

theorem rest_send (hlive : Q.Live) (d : OutData κ) : (Q.send d).rest = Q.rest ++ d.bytes := by
  have hsend : Q.send d =
      { send_queue := Q.send_queue ++ [d], writing := if Q.send_queue = [] then .posted else Q.writing } := by
    rw [← send_writing d Q]
    rfl
  rw [hsend]
  obtain ⟨queue, writing⟩ := Q
  cases queue with
  | nil =>
    obtain rfl : writing = .idle := hlive.idle.2 rfl
    simp [rest]
  | cons it tail =>
    cases writing with
    | idle => simp [rest]
    | posted => simp [rest]
    | started k =>
      have hk : k ≤ it.bytes.length := hlive.written k it tail rfl rfl
      rw [if_neg (List.cons_ne_nil _ _), List.cons_append, rest_started hk, rest_started hk]
      simp

/-- A step that is neither `send` nor a failure only moves bytes to the socket. -/
theorem step_rest {m : Move κ} {a : Answer κ} (h : step m Q = some (a, Q')) (hsend : ∀ d, m ≠ .send d)
    (hfail : m ≠ .fail) : Q.rest = a.bytes ++ Q'.rest := by
  rcases step_cases h with ⟨d, rfl, -, -⟩ | ⟨-, rfl, hw, rfl⟩ | ⟨n, k, it, tail, -, rfl, hn, rfl, rfl⟩ |
    ⟨it, tail, -, rfl, rfl, rfl⟩ | ⟨rfl, -, -⟩
  · exact absurd rfl (hsend d)
  · simp [rest, hw, Answer.none]
  · rw [rest_started (by omega), rest_started hn, ← List.append_assoc, ← List.drop_drop, List.take_append_drop]
  · rw [rest_started (Nat.le_refl _), List.drop_length]
    by_cases hq : tail = [] <;> simp [rest, hq]
  · exact absurd rfl hfail

/-- As long as no write fails, what was written and what is still to be written are the messages, in the order of the
calls of `send`. -/
theorem written_in_order (h : Run step (empty : SendQueue κ) log Q) (hok : ∀ e ∈ log, e.1 ≠ .fail) :
    (sends log).flatMap (·.bytes) = wire log ++ Q.rest := by
  induction h with
  | nil => rfl
  | @call log Q Q' m a h hc ih =>
    have ih := ih fun e he => hok e (List.mem_append_left _ he)
    have hfail : m ≠ .fail := hok (m, a) (List.mem_append_right _ (List.mem_singleton_self _))
    rw [sends_snoc, wire_snoc, List.flatMap_append, ih]
    cases m with
    | send d =>
      obtain ⟨rfl, rfl⟩ := Prod.mk.inj (Option.some.inj hc)
      simp [rest_send (run_live h empty_live), Answer.none]
    | fail => exact absurd rfl hfail
    | _ =>
      rw [List.flatMap_nil, List.append_nil, step_rest hc (by simp) (by simp), List.append_assoc]

/-- A message whose write has begun can be finished. -/
theorem finish (it : OutData κ) (tail : List (OutData κ)) {k : ℕ} (hk : k ≤ it.bytes.length) :
    ∃ log, Run step { send_queue := it :: tail, writing := .started k } log
        { send_queue := tail, writing := if tail = [] then .idle else .posted } ∧
      taken log = [(it.callback, true)] ∧ sends log = [] ∧ ∀ e ∈ log, e.1 ≠ .fail := by
  have hlen : k + (it.bytes.length - k) = it.bytes.length := by omega
  have htransfer : step (.transfer (it.bytes.length - k)) { send_queue := it :: tail, writing := .started k } =
      some ({ bytes := (it.bytes.drop k).take (it.bytes.length - k), taken := [] },
        { send_queue := it :: tail, writing := .started it.bytes.length }) := by
    rw [step]
    simp only [hlen, Nat.le_refl, if_true]
  have hcomplete : step .complete { send_queue := it :: tail, writing := .started it.bytes.length } =
      some ({ bytes := [], taken := [(it.callback, true)] },
        { send_queue := tail, writing := if 0 < tail.length then .posted else .idle }) := if_pos rfl
  have hwriting : (if 0 < tail.length then Writing.posted else .idle) = if tail = [] then .idle else .posted := by
    cases tail <;> simp
  rw [hwriting] at hcomplete
  exact ⟨_, .call (.call .nil htransfer) hcomplete, by simp [taken], by simp [sends], by simp⟩

/-- A drained queue: the messages that wait are written and their callbacks taken, with nothing else sent. -/
def Drains (Q : SendQueue κ) : Prop :=
  ∃ log, Run step Q log empty ∧ taken log = Q.send_queue.map (fun d => (d.callback, true)) ∧ sends log = [] ∧
    ∀ e ∈ log, e.1 ≠ .fail

theorem Drains.after {log : Log κ} {it : OutData κ} {tail : List (OutData κ)}
    (h : Drains Q') (hq : Q.send_queue = it :: tail) (hq' : Q'.send_queue = tail) (hrun : Run step Q log Q')
    (htaken : taken log = [(it.callback, true)]) (hsends : sends log = []) (hfail : ∀ e ∈ log, e.1 ≠ .fail) :
    Drains Q := by
  obtain ⟨log', hrun', htaken', hsends', hfail'⟩ := h
  refine ⟨log ++ log', hrun.append hrun', ?_, ?_, ?_⟩
  · rw [taken, List.flatMap_append, ← taken, ← taken, htaken, htaken', hq, hq']
    rfl
  · rw [sends, List.filterMap_append, ← sends, ← sends, hsends, hsends']
    rfl
  · exact fun e he => (List.mem_append.1 he).elim (hfail e) (hfail' e)

/-- From every state that is reached the queue can be drained. -/
theorem drains (hlive : Q.Live) : Drains Q := by
  obtain ⟨queue, writing⟩ := Q
  induction queue generalizing writing with
  | nil =>
    obtain rfl : writing = .idle := hlive.idle.2 rfl
    exact ⟨[], .nil, rfl, rfl, by simp⟩
  | cons it tail ih =>
    have hstarted : ∀ {log k}, k ≤ it.bytes.length → taken log = [] → sends log = [] → (∀ e ∈ log, e.1 ≠ .fail) →
        Run step { send_queue := it :: tail, writing := writing } log
          { send_queue := it :: tail, writing := .started k } →
        Drains { send_queue := it :: tail, writing := writing } := by
      intro log k hk htaken hsends hfail hrun
      obtain ⟨log', hrun', htaken', hsends', hfail'⟩ := finish it tail hk
      refine (ih _ (run_live (hrun.append hrun') hlive)).after rfl rfl (hrun.append hrun') ?_ ?_ ?_
      · rw [taken, List.flatMap_append, ← taken, ← taken, htaken, htaken', List.nil_append]
      · rw [sends, List.filterMap_append, ← sends, ← sends, hsends, hsends', List.nil_append]
      · exact fun e he => (List.mem_append.1 he).elim (hfail e) (hfail' e)
    cases writing with
    | idle => exact absurd (hlive.idle.1 rfl) (List.cons_ne_nil _ _)
    | started n => exact hstarted (hlive.written n it tail rfl rfl) rfl rfl (by simp) .nil
    | posted =>
      have hstart : step .start { send_queue := it :: tail, writing := .posted } =
          some (.none, { send_queue := it :: tail, writing := .started 0 }) := rfl
      exact hstarted (Nat.zero_le _) rfl rfl (by simp) (.call .nil hstart)

end SendQueue

/-! ## The callbacks -/

/-- The queue, and the callbacks that each handler has still to call. -/
structure Sending (κ : Type*) where
  queue : SendQueue κ
  handlers : List (List (κ × Bool))

namespace Sending

def empty : Sending κ := { queue := .empty, handlers := [] }

inductive Move (κ : Type*)
  | queue (m : SendQueue.Move κ)
  /-- the `i`-th of the handlers calls its next callback -/
  | call (i : ℕ)

structure Answer (κ : Type*) where
  bytes : List UInt8
  calls : List (κ × Bool)

/-- What runs on a thread of the `io_service`. -/
def onThread : SendQueue.Move κ → Bool
  | .start | .complete | .fail => true
  | .send _ | .transfer _ => false

/-- A handler, for as long as it has callbacks to call. -/
def handler : List (κ × Bool) → List (List (κ × Bool))
  | [] => []
  | calls => [calls]

/-- A handler has one of the threads that run the `io_service` until it has called its callbacks. -/
def step (thread_pool_size : ℕ) : Move κ → Sending κ → Option (Answer κ × Sending κ)
  | .queue m, s =>
    if onThread m ∧ thread_pool_size ≤ s.handlers.length then none
    else
      match SendQueue.step m s.queue with
      | some (a, Q) =>
        some ({ bytes := a.bytes, calls := [] }, { queue := Q, handlers := s.handlers ++ handler a.taken })
      | none => none
  | .call i, s =>
    match s.handlers[i]? with
    | some (call :: calls) =>
      some ({ bytes := [], calls := [call] },
        { s with handlers := s.handlers.take i ++ handler calls ++ s.handlers.drop (i + 1) })
    | _ => none

/-! ## What a run did -/

abbrev Log (κ : Type*) := List (Move κ × Answer κ)

/-- The messages that were handed to `send`. -/
def sends (log : Log κ) : List (OutData κ) :=
  log.filterMap fun e => match e.1 with
    | .queue (.send out_data) => some out_data
    | _ => none

/-- The callbacks that were called, with whether there was no error. -/
def calls (log : Log κ) : List (κ × Bool) := log.flatMap fun e => e.2.calls

/-- The bytes on the socket. -/
def wire (log : Log κ) : List UInt8 := log.flatMap fun e => e.2.bytes

/-- No write failed. -/
def Succeeds (log : Log κ) : Prop := ∀ e ∈ log, e.1 ≠ .queue .fail

/-- The callbacks that are still to be called: those that handlers have taken, and those of the messages that wait. -/
def waiting (s : Sending κ) : List κ :=
  s.handlers.flatten.map Prod.fst ++ s.queue.send_queue.map (·.callback)

variable {thread_pool_size : ℕ} {s s' : Sending κ} {log : Log κ}

@[simp] theorem handler_flatten (calls : List (κ × Bool)) : (handler calls).flatten = calls := by
  cases calls <;> simp [handler]

theorem calls_append (log log' : Log κ) : calls (log ++ log') = calls log ++ calls log' := List.flatMap_append

theorem sends_append (log log' : Log κ) : sends (log ++ log') = sends log ++ sends log' := List.filterMap_append

theorem Succeeds.append {log log' : Log κ} (h : Succeeds log) (h' : Succeeds log') : Succeeds (log ++ log') :=
  fun e he => (List.mem_append.1 he).elim (h e) (h' e)

/-! ## One step -/

/-- What a step can do. -/
theorem step_cases {m : Move κ} {a : Answer κ} (h : step thread_pool_size m s = some (a, s')) :
    (∃ qm qa, m = .queue qm ∧ SendQueue.step qm s.queue = some (qa, s'.queue) ∧ a = ⟨qa.bytes, []⟩ ∧
      s'.handlers = s.handlers ++ handler qa.taken ∧ (onThread qm = true → s.handlers.length < thread_pool_size)) ∨
    ∃ before call calls after, m = .call before.length ∧ s.handlers = before ++ (call :: calls) :: after ∧
      a = ⟨[], [call]⟩ ∧ s' = { s with handlers := before ++ handler calls ++ after } := by
  cases m with
  | queue qm =>
    simp only [step] at h
    split_ifs at h with hthread
    split at h
    · next qa Q hstep =>
      obtain ⟨rfl, rfl⟩ := Prod.mk.inj (Option.some.inj h)
      exact .inl ⟨qm, qa, rfl, hstep, rfl, rfl, fun hon => Nat.not_le.1 fun hle => hthread ⟨hon, hle⟩⟩
    · cases h
  | call i =>
    simp only [step] at h
    split at h
    · next call calls hget =>
      obtain ⟨rfl, rfl⟩ := Prod.mk.inj (Option.some.inj h)
      obtain ⟨hi, hcell⟩ := List.getElem?_eq_some_iff.1 hget
      have hlen : (s.handlers.take i).length = i := List.length_take_of_le (Nat.le_of_lt hi)
      refine .inr ⟨s.handlers.take i, call, calls, s.handlers.drop (i + 1), by rw [hlen], ?_, rfl, rfl⟩
      rw [← hcell, List.getElem_cons_drop, List.take_append_drop]
    · cases h

/-- Only the handler of a write takes callbacks. -/
theorem taken_of_not_onThread {m : SendQueue.Move κ} {a : SendQueue.Answer κ} {Q Q' : SendQueue κ}
    (h : SendQueue.step m Q = some (a, Q')) (hm : onThread m = false) : a.taken = [] := by
  rcases SendQueue.step_cases h with ⟨d, -, rfl, -⟩ | ⟨-, rfl, -, -⟩ | ⟨n, k, it, tail, -, -, -, rfl, -⟩ |
    ⟨it, tail, rfl, -⟩ | ⟨rfl, -⟩
  · rfl
  · rfl
  · rfl
  · cases hm
  · cases hm

/-! ## Runs -/

/-- The run of the queue under a run with its callbacks. What the handlers have taken is called or still to be called,
on one thread in this order. -/
structure Under (thread_pool_size : ℕ) (qlog : SendQueue.Log κ) (log : Log κ) (s : Sending κ) : Prop where
  run : Run SendQueue.step .empty qlog s.queue
  sends : SendQueue.sends qlog = sends log
  wire : SendQueue.wire qlog = wire log
  succeeds : Succeeds log → ∀ e ∈ qlog, e.1 ≠ .fail
  taken : (SendQueue.taken qlog).Perm (calls log ++ s.handlers.flatten)
  inOrder : thread_pool_size = 1 → SendQueue.taken qlog = calls log ++ s.handlers.flatten ∧ s.handlers.length ≤ 1

theorem Under.queue {qlog : SendQueue.Log κ} (h : Under thread_pool_size qlog log s) {m : SendQueue.Move κ}
    {a : SendQueue.Answer κ} (hq : SendQueue.step m s.queue = some (a, s'.queue))
    (hhandlers : s'.handlers = s.handlers ++ handler a.taken)
    (hthread : onThread m = true → s.handlers.length < thread_pool_size) :
    Under thread_pool_size (qlog ++ [(m, a)]) (log ++ [(.queue m, ⟨a.bytes, []⟩)]) s' := by
  have hcalls : calls (log ++ [(.queue m, ⟨a.bytes, []⟩)]) = calls log := by simp [calls]
  have hflatten : s'.handlers.flatten = s.handlers.flatten ++ a.taken := by
    rw [hhandlers, List.flatten_append, handler_flatten]
  refine ⟨.call h.run hq, ?_, ?_, fun hok e he => ?_, ?_, fun h1 => ?_⟩
  · rw [SendQueue.sends_snoc, h.sends, sends_append]
    cases m <;> rfl
  · rw [SendQueue.wire_snoc, h.wire]
    simp [Sending.wire]
  · rcases List.mem_append.1 he with he | he
    · exact h.succeeds (fun e he => hok e (List.mem_append_left _ he)) e he
    · rw [List.mem_singleton.1 he]
      rintro rfl
      exact hok (.queue .fail, _) (List.mem_append_right _ (List.mem_singleton_self _)) rfl
  · rw [SendQueue.taken_snoc, hcalls, hflatten, ← List.append_assoc]
    exact h.taken.append_right _
  · obtain ⟨horder, hlen⟩ := h.inOrder h1
    refine ⟨by rw [SendQueue.taken_snoc, hcalls, hflatten, ← List.append_assoc, horder], ?_⟩
    cases hm : onThread m with
    | false =>
      rw [hhandlers, taken_of_not_onThread hq hm]
      simpa [handler] using hlen
    | true =>
      -- the thread is free
      obtain hnil : s.handlers = [] := List.eq_nil_of_length_eq_zero (by have := hthread hm; omega)
      rw [hhandlers, hnil]
      cases a.taken <;> simp [handler]

theorem Under.call {qlog : SendQueue.Log κ} {before after : List (List (κ × Bool))} {call : κ × Bool}
    {rest : List (κ × Bool)} (h : Under thread_pool_size qlog log s)
    (hsplit : s.handlers = before ++ (call :: rest) :: after) :
    Under thread_pool_size qlog (log ++ [(.call before.length, ⟨[], [call]⟩)])
      { s with handlers := before ++ handler rest ++ after } := by
  have hcalls : calls (log ++ [(.call before.length, ⟨[], [call]⟩)]) = calls log ++ [call] := by simp [calls]
  refine ⟨h.run, ?_, ?_, fun hok => h.succeeds fun e he => hok e (List.mem_append_left _ he), ?_, fun h1 => ?_⟩
  · rw [h.sends, sends_append]
    exact (List.append_nil _).symm
  · rw [h.wire]
    simp [Sending.wire]
  · rw [hcalls, List.append_assoc]
    refine h.taken.trans (List.Perm.append_left _ ?_)
    simp only [hsplit, List.flatten_append, List.flatten_cons, handler_flatten, List.cons_append, List.append_assoc]
    exact List.perm_middle
  · obtain ⟨horder, hlen⟩ := h.inOrder h1
    rw [hsplit, List.length_append, List.length_cons] at hlen
    obtain rfl : before = [] := List.eq_nil_of_length_eq_zero (by omega)
    obtain rfl : after = [] := List.eq_nil_of_length_eq_zero (by omega)
    refine ⟨?_, ?_⟩
    · rw [horder, hcalls, hsplit]
      simp
    · cases rest <;> simp [handler]

theorem run_under (h : Run (step thread_pool_size) (empty : Sending κ) log s) :
    ∃ qlog, Under thread_pool_size qlog log s := by
  have hempty : Under thread_pool_size [] [] (empty : Sending κ) :=
    ⟨.nil, rfl, rfl, fun _ => by simp, .refl _, fun _ => ⟨rfl, Nat.zero_le 1⟩⟩
  refine h.rule (fun log s => ∃ qlog, Under thread_pool_size qlog log s) ⟨[], hempty⟩ ?_
  rintro log s m a s' ⟨qlog, hunder⟩ hstep
  rcases step_cases hstep with ⟨qm, qa, rfl, hq, rfl, hhandlers, hthread⟩ |
    ⟨before, call, rest, after, rfl, hsplit, rfl, rfl⟩
  · exact ⟨_, hunder.queue hq hhandlers hthread⟩
  · exact ⟨_, hunder.call hsplit⟩

/-! ## Draining -/

/-- The callbacks `cs` are called and nothing is sent, and no write fails. -/
def Calls (thread_pool_size : ℕ) (s : Sending κ) (cs : List (κ × Bool)) (s' : Sending κ) : Prop :=
  ∃ log, Run (step thread_pool_size) s log s' ∧ calls log = cs ∧ sends log = [] ∧ Succeeds log

theorem Calls.refl (s : Sending κ) : Calls thread_pool_size s [] s := ⟨[], .nil, rfl, rfl, by simp [Succeeds]⟩

theorem Calls.trans {cs cs' : List (κ × Bool)} {s'' : Sending κ} (h : Calls thread_pool_size s cs s')
    (h' : Calls thread_pool_size s' cs' s'') : Calls thread_pool_size s (cs ++ cs') s'' := by
  obtain ⟨log, hrun, hcalls, hsends, hok⟩ := h
  obtain ⟨log', hrun', hcalls', hsends', hok'⟩ := h'
  refine ⟨log ++ log', hrun.append hrun', ?_, ?_, hok.append hok'⟩
  · rw [calls_append, hcalls, hcalls']
  · rw [sends_append, hsends, hsends', List.append_nil]

/-- A handler calls its callbacks. -/
theorem calls_handler (thread_pool_size : ℕ) (Q : SendQueue κ) (cs : List (κ × Bool))
    (handlers : List (List (κ × Bool))) :
    Calls thread_pool_size ⟨Q, handler cs ++ handlers⟩ cs ⟨Q, handlers⟩ := by
  induction cs with
  | nil => exact .refl _
  | cons c cs ih =>
    have hstep : step thread_pool_size (.call 0) ⟨Q, handler (c :: cs) ++ handlers⟩ =
        some (⟨[], [c]⟩, ⟨Q, handler cs ++ handlers⟩) := rfl
    have hcall : Calls thread_pool_size ⟨Q, handler (c :: cs) ++ handlers⟩ [c] ⟨Q, handler cs ++ handlers⟩ :=
      ⟨_, .call .nil hstep, rfl, rfl, by simp [Succeeds]⟩
    exact hcall.trans ih

/-- All handlers call their callbacks. -/
theorem calls_handlers (Q : SendQueue κ) (handlers : List (List (κ × Bool))) (hnil : [] ∉ handlers) :
    Calls thread_pool_size ⟨Q, handlers⟩ handlers.flatten ⟨Q, []⟩ := by
  induction handlers with
  | nil => exact .refl _
  | cons cs handlers ih =>
    rw [List.mem_cons, not_or] at hnil
    have hcs : handler cs = [cs] := by
      cases cs with
      | nil => exact absurd rfl hnil.1
      | cons c cs => rfl
    have hfirst := calls_handler thread_pool_size Q cs handlers
    rw [hcs] at hfirst
    exact hfirst.trans (ih hnil.2)

/-- A run of the queue in which nothing is sent and no write fails, with a thread that is free: every handler calls what
it takes at once. -/
theorem calls_queue (hthread : 0 < thread_pool_size) {Q Q' : SendQueue κ} {qlog : SendQueue.Log κ}
    (h : Run SendQueue.step Q qlog Q') (hsends : SendQueue.sends qlog = []) (hok : ∀ e ∈ qlog, e.1 ≠ .fail) :
    Calls thread_pool_size ⟨Q, []⟩ (SendQueue.taken qlog) ⟨Q', []⟩ := by
  induction h with
  | nil => exact .refl _
  | @call qlog Q1 Q2 m a h hq ih =>
    rw [SendQueue.sends_snoc, List.append_eq_nil_iff] at hsends
    have hbefore := ih hsends.1 fun e he => hok e (List.mem_append_left _ he)
    have hfail : m ≠ .fail := hok (m, a) (List.mem_append_right _ (List.mem_singleton_self _))
    have hstep : step thread_pool_size (.queue m) ⟨Q1, []⟩ = some (⟨a.bytes, []⟩, ⟨Q2, handler a.taken⟩) := by
      rw [step, if_neg fun hfull => absurd hfull.2 (Nat.not_le.2 hthread), hq]
      rfl
    have hmove : Calls thread_pool_size ⟨Q1, []⟩ [] ⟨Q2, handler a.taken⟩ := by
      refine ⟨_, .call .nil hstep, rfl, ?_, by simp [Succeeds, hfail]⟩
      cases m with
      | send d => exact absurd hsends.2 (by simp)
      | _ => rfl
    have hhandler := calls_handler thread_pool_size Q2 a.taken []
    rw [List.append_nil] at hhandler
    rw [SendQueue.taken_snoc]
    exact hbefore.trans (hmove.trans hhandler)

/-- No handler is left without a callback to call. -/
theorem run_handlers (h : Run (step thread_pool_size) (empty : Sending κ) log s) : [] ∉ s.handlers := by
  have hhandler : ∀ cs : List (κ × Bool), [] ∉ handler cs := fun cs => by cases cs <;> simp [handler]
  refine h.rule (fun _ s => [] ∉ s.handlers) (by simp [empty]) ?_
  rintro log s m a s' hnil hstep
  rcases step_cases hstep with ⟨qm, qa, -, -, -, hhandlers, -⟩ | ⟨before, call, rest, after, -, hsplit, -, rfl⟩
  · rw [hhandlers, List.mem_append, not_or]
    exact ⟨hnil, hhandler _⟩
  · rw [hsplit, List.mem_append, List.mem_cons, not_or, not_or] at hnil
    simp only [List.mem_append, not_or]
    exact ⟨⟨hnil.1, hhandler _⟩, hnil.2.2⟩

/-! ## Main result -/

/-- Whatever the order of the steps and however many threads there are, every callback is called once, and on one thread
in the order of the calls of `send`; what was written is in order as long as no write fails; and the queue is never
stuck: it can be drained, with all callbacks called. -/
theorem sent_in_order (h : Run (step thread_pool_size) (empty : Sending κ) log s) :
    ((sends log).map (·.callback)).Perm ((calls log).map Prod.fst ++ s.waiting) ∧
    (thread_pool_size = 1 → (sends log).map (·.callback) = (calls log).map Prod.fst ++ s.waiting) ∧
    (Succeeds log → (sends log).flatMap (·.bytes) = wire log ++ s.queue.rest) ∧
    (0 < thread_pool_size → Calls thread_pool_size s
      (s.handlers.flatten ++ s.queue.send_queue.map fun d => (d.callback, true)) empty) := by
  obtain ⟨qlog, hunder⟩ := run_under h
  have htaken := SendQueue.taken_in_order hunder.run
  rw [hunder.sends] at htaken
  refine ⟨?_, fun h1 => ?_, fun hok => ?_, fun hthread => ?_⟩
  · rw [htaken, waiting, ← List.append_assoc, ← List.map_append]
    exact (hunder.taken.map _).append_right _
  · rw [htaken, (hunder.inOrder h1).1, waiting, List.map_append, List.append_assoc]
  · rw [← hunder.sends, ← hunder.wire]
    exact SendQueue.written_in_order hunder.run (hunder.succeeds hok)
  · obtain ⟨qlog', hrun, hcalls, hsends, hok⟩ := SendQueue.drains (SendQueue.run_live hunder.run SendQueue.empty_live)
    have hqueue := calls_queue hthread hrun hsends hok
    rw [hcalls] at hqueue
    exact (calls_handlers s.queue s.handlers (run_handlers h)).trans hqueue

/-- One thread and two messages, the first one written in two parts while the second one is handed over. -/
theorem sent_in_order_two :
    ∃ log s, Run (step 1) (empty : Sending ℕ) log s ∧ wire log = [1, 2, 3, 4] ∧ calls log = [(0, true)] ∧
      (sends log).map (·.callback) = (calls log).map Prod.fst ++ s.waiting := by
  obtain ⟨log, s, hrun, heq⟩ := Run.exists_of_execute (step 1) (empty : Sending ℕ)
    [.queue (.send ⟨[1, 2, 3], 0⟩), .queue .start, .queue (.transfer 2), .queue (.send ⟨[4], 1⟩),
      .queue (.transfer 1), .queue .complete, .call 0, .queue .start, .queue (.transfer 1), .queue .complete]
    (fun r => (wire r.1, calls r.1)) ([1, 2, 3, 4], [(0, true)]) (by decide +kernel)
  obtain ⟨hwire, hcalls⟩ := Prod.mk.inj heq
  exact ⟨log, s, hrun, hwire, hcalls, (sent_in_order hrun).2.1 rfl⟩

/-- Two threads: between `lock.unlock()` and its call of the first callback, the handler of the first write is overtaken
by that of the second. -/
theorem overtaken :
    ∃ log s, Run (step 2) (empty : Sending ℕ) log s ∧ (sends log).map (·.callback) = [0, 1] ∧
      calls log = [(1, true), (0, true)] := by
  obtain ⟨log, s, hrun, heq⟩ := Run.exists_of_execute (step 2) (empty : Sending ℕ)
    [.queue (.send ⟨[1], 0⟩), .queue (.send ⟨[2], 1⟩), .queue .start, .queue (.transfer 1), .queue .complete,
      .queue .start, .queue (.transfer 1), .queue .complete, .call 1, .call 0]
    (fun r => ((sends r.1).map (·.callback), calls r.1)) ([0, 1], [(1, true), (0, true)]) (by decide +kernel)
  obtain ⟨hsends, hcalls⟩ := Prod.mk.inj heq
  exact ⟨log, s, hrun, hsends, hcalls⟩

end Sending

end SimpleWeb

end Undertone
