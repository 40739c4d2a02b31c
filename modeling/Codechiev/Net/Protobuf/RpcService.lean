import Codechiev.Net.Protobuf.RpcConnection
import Mathlib.Data.List.Perm.Subperm

/-!
# The RPC service over one connection

The client sends requests; the loop thread of the server makes a job of each one it decodes; worker
threads take the jobs in order, let the service answer, and send the answers back through
`Callback`, in whatever order they finish. The jobs of one `onData` are queued in one step: the
queue hands them out in order, so the workers take the same ones if they come one at a time. What
protobuf and the service make of a request is a parameter, as in `ProtoServer`.

The connection in a careful run is a connection in a careful run, so requests and answers arrive as
they were sent, and every request is answered once (`answered_once`).
-/

namespace Codechiev

open scoped List

/-- A connection, the jobs in the server's queue, and the jobs that workers have taken and not yet
    answered, by worker. -/
structure RpcService (τ : Type*) extends RpcConnection τ where
  queue : List (List UInt8)
  taken : List (τ × List UInt8)

/-- A step of the connection, or of the worker that is named: `takeJob`, and `onMessage` up to its
    end for a request that has no answer, or else through the `AppendInt32` of `Callback`. The
    `send` of `Callback` is a step of the connection. -/
inductive ServiceStep (τ : Type*) where
  | connection (l : ConnectionStep τ)
  | takeJob (t : τ)
  | ignore (t : τ)
  | callback (t : τ) (serialized : List UInt8)

/-- The step starts a call at the server. -/
def ConnectionStep.Answers {τ : Type*} : ConnectionStep τ → Prop
  | .channel a (.header _ _) => a = .server
  | _ => False

namespace RpcConnection

variable {τ : Type*} {p : Side → Ptr} {s s' : RpcConnection τ} {l : ConnectionStep τ}

/-- Messages that were decoded stay decoded. -/
theorem Step.decoded_grows (h : Step p s l s') (a : Side) : s.decoded a <+: s'.decoded a := by
  have hread : ∀ (b : Side) (ms : List (List UInt8)),
      s.decoded a <+: Function.update s.decoded b (s.decoded b ++ ms) a := by
    intro b ms
    by_cases hb : a = b
    · subst hb
      rw [Function.update_self]
      exact List.prefix_append _ _
    · simp only [Function.update_of_ne hb, List.prefix_refl]
  cases h with
  | channel hstep => exact List.prefix_rfl
  | waits hfree hwire hrun => exact hread _ _
  | delivers hfree hwire hrun hdata => exact hread _ _

/-- Only a call that starts at the server adds to what the server sent. -/
theorem Step.sent_server (h : Step p s l s') (hl : ¬ l.Answers) :
    s'.sent .server = s.sent .server := by
  cases h with
  | @channel a l c hstep =>
    show Function.update s.sent a (s.sent a ++ l.started) .server = s.sent .server
    rw [Function.update_apply]
    split
    · rename_i ha
      cases l with
      | header t m => exact absurd ha.symm hl
      | body | size | write | consume | rearm => rw [ha]; exact List.append_nil _
    · rfl
  | waits hfree hwire hrun => rfl
  | delivers hfree hwire hrun hdata => rfl

end RpcConnection

namespace RpcService

variable {τ : Type*}

/-- What a step of the connection adds to the queue: a job for each request decoded. -/
def decodedSince (c c' : RpcConnection τ) : List (List UInt8) :=
  (c'.decoded .server).drop (c.decoded .server).length

/-- The steps. A worker answers one job at a time. -/
inductive Step (p : Side → Ptr) (respond : List UInt8 → Option (List UInt8)) :
    RpcService τ → ServiceStep τ → RpcService τ → Prop where
  | connection {s : RpcService τ} {c : RpcConnection τ} {l : ConnectionStep τ}
      (hl : ¬ l.Answers) (hstep : RpcConnection.Step p s.toRpcConnection l c) :
      Step p respond s (.connection l)
        ⟨c, s.queue ++ decodedSince s.toRpcConnection c, s.taken⟩
  | takeJob {s : RpcService τ} {t : τ} {m : List UInt8} {rest : List (List UInt8)}
      (hidle : t ∉ s.taken.map Prod.fst ∧ t ∉ (s.ends .server).pending.map Prod.fst)
      (hqueue : s.queue = m :: rest) :
      Step p respond s (.takeJob t) ⟨s.toRpcConnection, rest, (t, m) :: s.taken⟩
  | ignore {s : RpcService τ} {t : τ} {m : List UInt8} {k r : List (τ × List UInt8)}
      (htaken : s.taken = k ++ (t, m) :: r) (hnone : respond m = none) :
      Step p respond s (.ignore t) ⟨s.toRpcConnection, s.queue, k ++ r⟩
  | callback {s : RpcService τ} {c : RpcConnection τ} {t : τ} {m serialized : List UInt8}
      {k r : List (τ × List UInt8)} (htaken : s.taken = k ++ (t, m) :: r)
      (hanswer : respond m = some serialized)
      (hstep : RpcConnection.Step p s.toRpcConnection
        (.channel .server (.header t serialized)) c) :
      Step p respond s (.callback t serialized) ⟨c, s.queue, k ++ r⟩

/-- The runs from the establishment of the connection on, with workers that wait for jobs. -/
def serviceRuns (τ : Type*) (p : Side → Ptr) (respond : List UInt8 → Option (List UInt8)) :
    LabelledSystem (RpcService τ) (ServiceStep τ) where
  init s := ∃ fd epoll, s = ⟨.new τ fd epoll, [], []⟩
  step := Step p respond

/-- What a connection asks of its steps, and of the calls that the workers start. -/
def Careful (s : RpcService τ) : ServiceStep τ → Prop
  | .connection l => s.toRpcConnection.Careful l
  | .callback t serialized => s.toRpcConnection.Careful (.channel .server (.header t serialized))
  | .takeJob _ | .ignore _ => True

/-- Nothing is under way: requests and answers have arrived, and no job is left. -/
def Quiet (s : RpcService τ) : Prop :=
  s.Settled .server ∧ s.Settled .client ∧ s.queue = [] ∧ s.taken = []

/-- Every request that was decoded is in the queue, with a worker, or handled, and the answers of
    the handled ones are what the server sent. -/
def Accounted (respond : List UInt8 → Option (List UInt8)) (s : RpcService τ) : Prop :=
  ∃ handled : List (List UInt8), handled ++ (s.taken.map Prod.snd ++ s.queue) ~ s.decoded .server ∧
    s.sent .server = handled.filterMap respond

section Runs

variable {p : Side → Ptr} {respond : List UInt8 → Option (List UInt8)} {s s' : RpcService τ}
  {l : ServiceStep τ}

theorem careful_step (h : ((serviceRuns τ p respond).under Careful).Reachable s)
    (hl : s.Careful l) (hstep : Step p respond s l s') :
    ((serviceRuns τ p respond).under Careful).Reachable s' := .next l h ⟨hl, hstep⟩

/-- The connection in a careful run of the service is in a careful run of its own. -/
theorem connection_reachable (h : ((serviceRuns τ p respond).under Careful).Reachable s) :
    ((RpcConnection.connectionRuns τ p).under RpcConnection.Careful).Reachable
      s.toRpcConnection := by
  refine h.invariant (I := fun s => ((RpcConnection.connectionRuns τ p).under
    RpcConnection.Careful).Reachable s.toRpcConnection) ?_ ?_
  · rintro s ⟨fd, epoll, rfl⟩
    exact .start ⟨fd, epoll, rfl⟩
  · rintro s l s' - hs ⟨hl, hstep⟩
    cases hstep with
    | connection _ hconn => exact .next _ hs ⟨hl, hconn⟩
    | takeJob hidle hqueue => exact hs
    | ignore htaken hnone => exact hs
    | @callback c t m serialized l₁ l₂ htaken hanswer hconn =>
      exact .next (.channel .server (.header t serialized)) hs ⟨hl, hconn⟩

/-- A worker is done with its job, and the server has sent the answer, if there is one. -/
theorem Accounted.handle {c : RpcConnection τ} {t : τ} {m : List UInt8}
    {l₁ l₂ : List (τ × List UInt8)} (h : s.Accounted respond)
    (htaken : s.taken = l₁ ++ (t, m) :: l₂) (hdecoded : c.decoded .server = s.decoded .server)
    (hsent : c.sent .server = s.sent .server ++ (respond m).toList) :
    Accounted respond ⟨c, s.queue, l₁ ++ l₂⟩ := by
  obtain ⟨handled, hperm, hanswers⟩ := h
  refine ⟨handled ++ [m], ?_, ?_⟩
  · rw [htaken] at hperm
    show _ ~ c.decoded .server
    rw [hdecoded]
    refine .trans ?_ hperm
    simp only [List.map_append, List.map_cons, List.append_assoc, List.singleton_append]
    exact .append_left _ List.perm_middle.symm
  · show c.sent .server = _
    rw [hsent, hanswers, List.filterMap_append]
    cases hanswer : respond m with
    | none => simp [hanswer]
    | some serialized => simp [hanswer]

theorem Accounted.step (h : s.Accounted respond) (hstep : Step p respond s l s') :
    s'.Accounted respond := by
  cases hstep with
  | @connection c l hl hconn =>
    obtain ⟨handled, hperm, hanswers⟩ := h
    -- each request decoded since becomes a job, and the server sends nothing
    obtain ⟨ms, hms⟩ := hconn.decoded_grows .server
    refine ⟨handled, ?_, (hconn.sent_server hl).trans hanswers⟩
    have hnew : decodedSince s.toRpcConnection c = ms := by
      rw [decodedSince, ← hms, List.drop_left]
    show _ ++ (_ ++ (s.queue ++ decodedSince s.toRpcConnection c)) ~ c.decoded .server
    rw [hnew, ← hms, ← List.append_assoc, ← List.append_assoc]
    rw [← List.append_assoc] at hperm
    exact hperm.append_right ms
  | @takeJob t m rest hidle hqueue =>
    obtain ⟨handled, hperm, hanswers⟩ := h
    -- the job moves from the queue to the worker
    refine ⟨handled, .trans ?_ hperm, hanswers⟩
    rw [hqueue]
    exact .append_left _ List.perm_middle.symm
  | @ignore t m l₁ l₂ htaken hnone =>
    refine h.handle htaken rfl ?_
    rw [hnone]
    exact (List.append_nil _).symm
  | @callback c t m serialized l₁ l₂ htaken hanswer hconn =>
    cases hconn with
    | channel hheader =>
      refine h.handle htaken rfl ?_
      show Function.update s.sent .server _ .server = _
      rw [hanswer, Function.update_self]
      rfl

theorem accounted_of_careful (h : ((serviceRuns τ p respond).under Careful).Reachable s) :
    s.Accounted respond := by
  refine h.invariant (I := Accounted respond) ?_ ?_
  · rintro s ⟨fd, epoll, rfl⟩
    exact ⟨[], List.Perm.rfl, rfl⟩
  · rintro s l s' - hs ⟨-, hstep⟩
    exact hs.step hstep

end Runs

/-- In every run with any number of calling threads and workers whose connection is careful at both
    ends, as for `RpcConnection.decoded_prefix`, the answers that the client has decoded are those
    to its requests, none of them twice, in some order; and when nothing is under way any more,
    every request that has an answer has been answered. -/
theorem answered_once (τ : Type*) (p : Side → Ptr) (respond : List UInt8 → Option (List UInt8))
    (s : RpcService τ) (h : ((serviceRuns τ p respond).under Careful).Reachable s) :
    s.decoded .client <+~ (s.sent .client).filterMap respond ∧
      (s.Quiet → s.decoded .client ~ (s.sent .client).filterMap respond) := by
  have hintact := RpcConnection.intact_of_careful (connection_reachable h)
  obtain ⟨handled, hperm, hanswers⟩ := accounted_of_careful h
  constructor
  · -- what was handled was decoded, and what was decoded was sent
    have hhandled : handled <+~ s.sent .client := by
      have hdecoded : handled <+~ s.decoded .server :=
        (List.sublist_append_left _ _).subperm.trans hperm.subperm
      exact hdecoded.trans (hintact.ordered .server).sublist.subperm
    obtain ⟨ms, hms, hsub⟩ := hhandled
    have hanswered : handled.filterMap respond <+~ (s.sent .client).filterMap respond :=
      ⟨ms.filterMap respond, hms.filterMap respond, hsub.filterMap respond⟩
    rw [← hanswers] at hanswered
    exact (hintact.ordered .client).sublist.subperm.trans hanswered
  · -- with no job left, all that was decoded was handled
    rintro ⟨hserver, hclient, hqueue, htaken⟩
    rw [hqueue, htaken, List.map_nil, List.append_nil, List.append_nil,
      hintact.decoded_of_settled hserver] at hperm
    rw [hintact.decoded_of_settled hclient]
    exact hanswers ▸ hperm.filterMap respond

/-- A service that answers each request with its own bytes answers one. -/
theorem oneAnswer_reachable : ∃ s,
    ((serviceRuns Unit (fun _ => 0) some).under Careful).Reachable s ∧
      s.decoded .client = [[65]] ∧ s.Quiet := by
  have hroom : (5 : ℤ) ≤ (FixedBuffer.fresh kBufferSize).writable := by decide
  have hnew : ((serviceRuns Unit (fun _ => 0) some).under Careful).Reachable
      ⟨.new Unit (fun _ => 5) fun _ _ => none, [], []⟩ := .start ⟨_, _, rfl⟩
  -- the request
  have hheader := careful_step (l := .connection (.channel .client (.header () [65]))) hnew
    ⟨⟨nofun, by decide, by decide⟩, hroom⟩
    (.connection nofun (.channel (.header List.not_mem_nil (by decide) (by decide))))
  have hbody := careful_step (l := .connection (.channel .client (.body () [65]))) hheader
    ⟨trivial, trivial⟩ (.connection id (.channel (.body rfl
      (show _ = [] ++ ((), [65]) :: [] from rfl) (by decide) (by decide))))
  have hsize := careful_step (l := .connection (.channel .client (.size 0))) hbody
    ⟨trivial, trivial⟩ (.connection id (.channel (.size rfl)))
  have hwrite := careful_step (l := .connection (.channel .client (.write 5))) hsize
    ⟨trivial, trivial⟩ (.connection id (.channel (.write rfl (by decide))))
  have hconsume := careful_step (l := .connection (.channel .client .consume)) hwrite
    ⟨trivial, trivial⟩ (.connection id (.channel (.consume rfl)))
  have hrearm := careful_step (l := .connection (.channel .client .rearm)) hconsume
    ⟨trivial, trivial⟩ (.connection id (.channel (.rearm rfl)))
  have hread := careful_step
    (l := .connection (.onRead .server 0 [.data [0, 0, 0, 1, 65], .error EAGAIN])) hrearm hroom
    (.connection id (.delivers rfl List.prefix_rfl rfl rfl))
  have htake := careful_step (l := .takeJob ()) hread trivial
    (.takeJob ⟨List.not_mem_nil, List.not_mem_nil⟩ rfl)
  -- the answer
  have hcallback := careful_step (l := .callback () [65]) htake
    ⟨⟨nofun, by decide, by decide⟩, hroom⟩
    (.callback (k := []) rfl rfl (.channel (.header List.not_mem_nil (by decide) (by decide))))
  have hbody' := careful_step (l := .connection (.channel .server (.body () [65]))) hcallback
    ⟨trivial, trivial⟩ (.connection id (.channel (.body rfl
      (show _ = [] ++ ((), [65]) :: [] from rfl) (by decide) (by decide))))
  have hsize' := careful_step (l := .connection (.channel .server (.size 0))) hbody'
    ⟨trivial, trivial⟩ (.connection id (.channel (.size rfl)))
  have hwrite' := careful_step (l := .connection (.channel .server (.write 5))) hsize'
    ⟨trivial, trivial⟩ (.connection id (.channel (.write rfl (by decide))))
  have hconsume' := careful_step (l := .connection (.channel .server .consume)) hwrite'
    ⟨trivial, trivial⟩ (.connection id (.channel (.consume rfl)))
  have hread' := careful_step
    (l := .connection (.onRead .client 0 [.data [0, 0, 0, 1, 65], .error EAGAIN])) hconsume' hroom
    (.connection id (.delivers rfl List.prefix_rfl rfl rfl))
  exact ⟨_, hread', rfl, ⟨rfl, rfl, rfl⟩, ⟨rfl, rfl, rfl⟩, rfl, rfl⟩

theorem answered_one_request : ∃ s : RpcService Unit, s.decoded .client = [[65]] ∧
    s.decoded .client <+~ (s.sent .client).filterMap some ∧
      (s.Quiet → s.decoded .client ~ (s.sent .client).filterMap some) := by
  obtain ⟨s, hreach, hdecoded, -⟩ := oneAnswer_reachable
  exact ⟨s, hdecoded, answered_once Unit (fun _ => 0) some s hreach⟩

end RpcService

end Codechiev
