import Codechiev.Library.GrowingBatches
import Codechiev.Net.Channel
import Mathlib.Data.Finset.Card
import Mathlib.Data.List.Nodup

/-!
# The rounds of `EPoll::poll`

`poll` has `epoll_wait` write into `events_`, which is two events long at first and is doubled
whenever it is filled. Channels that are ready and do not fit wait for a later round, and
`epoll_wait` reports those first that have been ready longest.

However many channels there are, `poll` passes on what was written, `events_` stays within twice
their number (`poll_passes_on`), and a channel that stays ready is reported after a number of rounds
that is logarithmic in what was ready before it (`reported_within`).
-/

namespace Codechiev

/-- What `::epoll_wait` does: it writes events to the front of `events_`, or fails. -/
inductive WaitResult where
  | events (evs : List Registration)
  | error (e : Errno)

namespace WaitResult

def written : WaitResult → List Registration
  | events evs => evs
  | error _ => []

def nfds : WaitResult → ℤ
  | events evs => evs.length
  | error _ => -1

end WaitResult

/-- `events_`, the channels in the epoll set, those of them that are ready, in the order in which
    they became so, and the number of rounds that left out one that was ready. -/
structure EPollRounds where
  events : List Registration
  registered : Finset Ptr
  ready : List Ptr
  short : ℕ

/-- A channel comes into the set or out of it, becomes ready or stops being so, or `poll` returns
    with events. -/
inductive PollStep where
  | addChannel (p : Ptr)
  | delChannel (p : Ptr)
  | rises (p : Ptr)
  | falls (p : Ptr)
  | poll (vec : List Registration)

namespace EPollRounds

/-- `events_.resize`, with an `int` that becomes a `size_t`. A negative one is a length that no
    vector can have. -/
def resize (events : List Registration) (n : ℤ) : Option (List Registration) :=
  if n < 0 then none
  else some (events.take n.toNat ++ List.replicate (n.toNat - events.length) ⟨0, 0⟩)

/-- `if(events_.size()==nfds)`, where the comparison is one of `size_t`s. -/
def grow (events : List Registration) (nfds : ℤ) : Option (List Registration) :=
  if (events.length : ℤ) = nfds % 2 ^ 64 then resize events (Int32.ofInt (nfds * 2)).toInt
  else some events

/-- `EPoll::poll(channel_vec&)`: `events_` afterwards, and the channels pushed to the vector, each
    with the mask that `setEvent` sets. -/
def poll (events : List Registration) (r : WaitResult) :
    Option (List Registration × List Registration) :=
  let events := r.written ++ events.drop r.written.length
  if r.nfds = 0 then some (events, [])
  -- a failure is -1, for which the loop over the events does not run
  else (grow events r.nfds).map fun events => (events, events.take r.nfds.toNat)

/-- What `epoll_wait` may answer: it blocks until a channel is ready, and reports the first ones,
    with any masks, up to `static_cast<int>(events_.size())` of them. -/
def Answers (s : EPollRounds) : WaitResult → Prop
  | .events evs =>
      s.ready ≠ [] ∧ evs.map Registration.ptr = s.ready.take (castInt s.events.length).toNat
  | .error _ => True

/-- `EPoll::EPoll()`. -/
def start : EPollRounds := ⟨List.replicate 2 ⟨0, 0⟩, ∅, [], 0⟩

/-- The round that reports the first `n` of the ready channels. -/
def report (s : EPollRounds) (events : List Registration) (n : ℕ) : EPollRounds where
  events := events
  registered := s.registered
  ready := s.ready.drop n
  short := if n = 0 ∨ (s.ready.drop n).isEmpty then s.short else s.short + 1

inductive Step : EPollRounds → PollStep → EPollRounds → Prop where
  | addChannel {s : EPollRounds} {p : Ptr} (hp : p ∉ s.registered) :
      Step s (.addChannel p) { s with registered := insert p s.registered }
  | delChannel {s : EPollRounds} {p : Ptr} :
      Step s (.delChannel p)
        { s with registered := s.registered.erase p, ready := s.ready.erase p }
  | rises {s : EPollRounds} {p : Ptr} (hp : p ∈ s.registered) (hready : p ∉ s.ready) :
      Step s (.rises p) { s with ready := s.ready ++ [p] }
  | falls {s : EPollRounds} {p : Ptr} :
      Step s (.falls p) { s with ready := s.ready.erase p }
  | poll {s : EPollRounds} {r : WaitResult} {events vec : List Registration} (hans : s.Answers r)
      (hpoll : EPollRounds.poll s.events r = some (events, vec)) :
      Step s (.poll vec) (s.report events r.written.length)

def pollRuns : LabelledSystem EPollRounds PollStep where
  init s := s = start
  step := Step

/-- At most `n` channels are registered at a time. -/
def Within (n : ℕ) (s : EPollRounds) : PollStep → Prop
  | .addChannel _ => s.registered.card < n
  | .delChannel _ | .rises _ | .falls _ | .poll _ => True

/-- The ready channels, as a queue that is served in batches. -/
def queue (s : EPollRounds) : BatchQueue Ptr := ⟨s.ready, s.events.length, s.short⟩

end EPollRounds

namespace PollStep

/-- What a step is for that queue. -/
def batchStep : PollStep → Option (BatchStep Ptr)
  | addChannel _ | poll [] => none
  | delChannel p | falls p => some (.leave p)
  | rises p => some (.join p)
  | poll (ev :: evs) => some (.serve ((ev :: evs).map Registration.ptr))

/-- The channel stays ready, and is not reported. -/
def Keeps (p : Ptr) : PollStep → Prop
  | addChannel _ | rises _ => True
  | delChannel q | falls q => q ≠ p
  | poll vec => p ∉ vec.map Registration.ptr

/-- A round that reports something. -/
def isReport : PollStep → Bool
  | poll (_ :: _) => true
  | poll [] | addChannel _ | delChannel _ | rises _ | falls _ => false

theorem spares_of_keeps {p : Ptr} {ls : List PollStep} (h : ∀ l ∈ ls, l.Keeps p) :
    ∀ b ∈ ls.filterMap batchStep, b.Spares p := by
  intro b hb
  obtain ⟨l, hl, heq⟩ := List.mem_filterMap.mp hb
  have hkeeps := h l hl
  rcases l with q | q | q | q | (_ | ⟨ev, evs⟩) <;> cases heq
  · exact hkeeps
  · trivial
  · exact hkeeps
  · exact hkeeps

theorem countP_batchStep (ls : List PollStep) :
    (ls.filterMap batchStep).countP BatchStep.isServe = ls.countP isReport := by
  rw [List.countP_filterMap]
  congr 1
  funext l
  rcases l with q | q | q | q | (_ | ⟨ev, evs⟩) <;> rfl

end PollStep

namespace EPollRounds

variable {n : ℕ} {s s' : EPollRounds} {l : PollStep} {p : Ptr} {r : WaitResult}
  {events evs vec : List Registration}

/-! ## One call of `poll` -/

/-- A vector that grows keeps its elements. -/
theorem resize_double (h : events.length < 2 ^ 30) :
    resize events (Int32.ofInt (events.length * 2)).toInt =
      some (events ++ List.replicate events.length ⟨0, 0⟩) := by
  have hint : (Int32.ofInt (events.length * 2)).toInt = (events.length * 2 : ℕ) := by
    rw [Int32.toInt_ofInt_of_le (by omega) (by omega)]
    rfl
  have hlength : events.length * 2 - events.length = events.length := by omega
  rw [resize, hint, if_neg (by omega), Int.toNat_natCast, List.take_of_length_le (by omega),
    hlength]

theorem grow_full (h : events.length < 2 ^ 30) :
    grow events events.length = some (events ++ List.replicate events.length ⟨0, 0⟩) := by
  have hsize : (events.length : ℤ) % 2 ^ 64 = events.length :=
    Int.emod_eq_of_lt (by omega) (by omega)
  rw [grow, hsize, if_pos rfl, resize_double h]

theorem grow_of_ne {nfds : ℤ} (h : (events.length : ℤ) ≠ nfds % 2 ^ 64) :
    grow events nfds = some events := if_neg h

theorem poll_error (e : Errno) (h : events.length < 2 ^ 31) :
    poll events (.error e) = some (events, []) := by
  have hsize : (events.length : ℤ) ≠ -1 % 2 ^ 64 := by omega
  show (grow events (-1)).map _ = _
  rw [grow_of_ne hsize]
  rfl

/-- `poll` passes on what was written, and doubles `events_` if that filled it. -/
theorem poll_events (hevs : evs ≠ []) (hle : evs.length ≤ events.length)
    (hlt : evs.length < 2 ^ 30) :
    ∃ events', poll events (.events evs) = some (events', evs) ∧
      events'.length =
        if evs.length = events.length then 2 * events.length else events.length := by
  have hpos := List.length_pos_iff.mpr hevs
  have hnfds : (WaitResult.events evs).nfds ≠ 0 := by
    show (evs.length : ℤ) ≠ 0
    omega
  simp only [poll, if_neg hnfds]
  show ∃ events', (grow (evs ++ events.drop evs.length) evs.length).map _ = _ ∧ _
  -- `nfds` is far from overflowing, so `events_` grows exactly when it was filled
  by_cases hfull : evs.length = events.length
  · have hall : events.drop evs.length = [] := List.drop_of_length_le hfull.ge
    rw [hall, List.append_nil, grow_full hlt, if_pos hfull]
    refine ⟨evs ++ List.replicate evs.length ⟨0, 0⟩, ?_, ?_⟩
    · exact congrArg some (congrArg _ List.take_left)
    · rw [List.length_append, List.length_replicate]
      omega
  · have hwritten : (evs ++ events.drop evs.length).length = events.length := by
      rw [List.length_append, List.length_drop]
      omega
    have hsize : ((evs ++ events.drop evs.length).length : ℤ) ≠ evs.length % 2 ^ 64 := by
      rw [hwritten, Int.emod_eq_of_lt (by omega) (by omega)]
      omega
    rw [grow_of_ne hsize, if_neg hfull]
    exact ⟨_, congrArg some (congrArg _ List.take_left), hwritten⟩

/-! ## One step -/

/-- Each ready channel is in the list once and is registered, no more than `n` are registered, and
    `events_` has grown as a batch does. -/
structure Valid (n : ℕ) (s : EPollRounds) : Prop where
  nodup : s.ready.Nodup
  registered : ∀ p ∈ s.ready, p ∈ s.registered
  card : s.registered.card ≤ n
  grown : s.queue.Grown n 2

/-- A round with events, as far as the queue goes. -/
theorem queue_report {k : ℕ} (hk : k ≠ 0) (hrest : s.ready.drop k = s.queue.rest)
    (hsize : events.length = s.queue.serve.size) :
    (s.report events k).queue = s.queue.serve := by
  have hshort : (s.report events k).short = s.queue.serve.short := by
    simp only [report, hk, false_or, hrest]
    rfl
  show BatchQueue.mk (s.ready.drop k) events.length (s.report events k).short = _
  rw [hrest, hsize, hshort]
  rfl

namespace Valid

theorem start (n : ℕ) : EPollRounds.start.Valid n :=
  ⟨List.nodup_nil, nofun, Nat.zero_le _, BatchQueue.grown_empty n 2⟩

theorem ready_length (h : s.Valid n) : s.ready.length ≤ n := by
  rw [← List.toFinset_card_of_nodup h.nodup]
  refine (Finset.card_le_card fun p hp => ?_).trans h.card
  exact h.registered p (List.mem_toFinset.mp hp)

theorem two_le (h : s.Valid n) : 2 ≤ s.events.length := by
  obtain ⟨k, hk, -⟩ := h.grown.doubled
  have hk : s.events.length = 2 ^ k * 2 := hk
  have hpos : 0 < 2 ^ k := Nat.two_pow_pos k
  omega

theorem lt_int (h : s.Valid n) (hn : n < 2 ^ 30) : s.events.length < 2 ^ 31 := by
  have hle : s.events.length ≤ max 2 (2 * n) := h.grown.le
  omega

/-- `epoll_wait` writes the next batch, which is not empty. -/
theorem written (h : s.Valid n) (hn : n < 2 ^ 30) (hans : s.Answers (.events evs)) :
    evs.map Registration.ptr = s.queue.batch ∧ evs ≠ [] ∧
      evs.length = min s.events.length s.ready.length := by
  obtain ⟨hready, hptr⟩ := hans
  have hmax : (castInt s.events.length).toNat = s.events.length := by
    rw [castInt_of_lt (h.lt_int hn), Int.toNat_natCast]
  rw [hmax] at hptr
  have hlength : evs.length = min s.events.length s.ready.length := by
    rw [← List.length_map (f := Registration.ptr), hptr, List.length_take]
  refine ⟨hptr, ?_, hlength⟩
  have hpos := List.length_pos_iff.mpr hready
  have htwo := h.two_le
  rw [← List.length_pos_iff]
  omega

/-- `poll` passes on what `epoll_wait` wrote. -/
theorem poll_eq (h : s.Valid n) (hn : n < 2 ^ 30) (hans : s.Answers r) :
    ∃ events, poll s.events r = some (events, r.written) ∧
      events.length = if r.written.length = s.events.length then 2 * s.events.length
        else s.events.length := by
  have htwo := h.two_le
  cases r with
  | error e =>
    refine ⟨s.events, poll_error e (h.lt_int hn), ?_⟩
    exact (if_neg (by simp only [WaitResult.written, List.length_nil]; omega)).symm
  | events evs =>
    obtain ⟨-, hevs, hlength⟩ := h.written hn hans
    have hready := h.ready_length
    exact poll_events hevs (by omega) (by omega)

/-- A round reports nothing and changes nothing, or it serves the next batch. -/
theorem poll_cases (h : s.Valid n) (hn : n < 2 ^ 30) (hstep : Step s (.poll vec) s') :
    (vec = [] ∧ s' = s) ∨
      (vec ≠ [] ∧ vec.map Registration.ptr = s.queue.batch ∧ s'.registered = s.registered ∧
        s'.queue = s.queue.serve) := by
  cases hstep with
  | @poll r events vec hans hpoll =>
    obtain ⟨events', heq, hsize⟩ := h.poll_eq hn hans
    rw [hpoll, Option.some.injEq, Prod.mk.injEq] at heq
    obtain ⟨rfl, rfl⟩ := heq
    cases r with
    | error e =>
      rw [poll_error e (h.lt_int hn), Option.some.injEq, Prod.mk.injEq] at hpoll
      obtain ⟨rfl, -⟩ := hpoll
      refine .inl ⟨rfl, ?_⟩
      simp [report, WaitResult.written]
    | events evs =>
      obtain ⟨hptr, hevs, hlength⟩ := h.written hn hans
      have hbatch : evs.length = s.queue.batch.length := by
        rw [← hptr, List.length_map]
      -- the round drops as many as it wrote, which is all of them if `events_` has room
      have hrest : s.ready.drop evs.length = s.queue.rest := by
        show s.ready.drop evs.length = s.ready.drop s.events.length
        rcases Nat.le_total s.events.length s.ready.length with hle | hle
        · rw [hlength, Nat.min_eq_left hle]
        · rw [hlength, Nat.min_eq_right hle, List.drop_length, List.drop_of_length_le hle]
      refine .inr ⟨hevs, hptr, rfl, ?_⟩
      refine queue_report (List.length_pos_iff.mpr hevs).ne' hrest (hsize.trans ?_)
      rw [BatchQueue.serve, ← hbatch]
      rfl

/-- A step that the queue does not see. -/
theorem hidden (h : s.Valid n) (hn : n < 2 ^ 30) (hstep : Step s l s') (hl : l.batchStep = none) :
    s'.queue = s.queue := by
  cases hstep with
  | addChannel => rfl
  | delChannel => cases hl
  | rises => cases hl
  | falls => cases hl
  | @poll r events vec hans hpoll =>
    rcases h.poll_cases hn (.poll hans hpoll) with ⟨-, hsame⟩ | ⟨hvec, -⟩
    · rw [hsame]
    · obtain ⟨ev, evs, rfl⟩ := List.exists_cons_of_ne_nil hvec
      cases hl

/-- A step that it sees. -/
theorem shown {b : BatchStep Ptr} (h : s.Valid n) (hn : n < 2 ^ 30) (hstep : Step s l s')
    (hl : l.batchStep = some b) : BatchQueue.Step s.queue b s'.queue := by
  cases hstep with
  | addChannel => cases hl
  | delChannel =>
    cases hl
    exact .leave
  | rises hp hready =>
    cases hl
    exact .join hready
  | falls =>
    cases hl
    exact .leave
  | @poll r events vec hans hpoll =>
    rcases h.poll_cases hn (.poll hans hpoll) with ⟨rfl, -⟩ | ⟨hvec, hbatch, -, hqueue⟩
    · cases hl
    · obtain ⟨ev, evs, rfl⟩ := List.exists_cons_of_ne_nil hvec
      cases hl
      rw [hqueue, hbatch]
      exact .serve

theorem step (h : s.Valid n) (hn : n < 2 ^ 30) (hl : s.Within n l) (hstep : Step s l s') :
    s'.Valid n := by
  -- the growth of `events_` is the queue's own invariant, whether it sees the step or not
  have hgrown : s'.queue.Grown n 2 := by
    cases hb : l.batchStep with
    | none => exact h.hidden hn hstep hb ▸ h.grown
    | some b => exact h.grown.step h.ready_length (h.shown hn hstep hb)
  cases hstep with
  | @addChannel p hp =>
    refine ⟨h.nodup, fun q hq => Finset.mem_insert_of_mem (h.registered q hq), ?_, hgrown⟩
    show (insert p s.registered).card ≤ n
    rw [Finset.card_insert_of_notMem hp]
    exact hl
  | @delChannel p =>
    refine ⟨h.nodup.erase p, fun q hq => ?_, (Finset.card_erase_le).trans h.card, hgrown⟩
    obtain ⟨hne, hready⟩ := h.nodup.mem_erase_iff.mp hq
    exact Finset.mem_erase.mpr ⟨hne, h.registered q hready⟩
  | @rises p hp hready =>
    refine ⟨?_, ?_, h.card, hgrown⟩
    · exact List.nodup_append.mpr ⟨h.nodup, List.nodup_singleton p,
        fun q hq r hr hqr => hready (List.mem_singleton.mp hr ▸ hqr ▸ hq)⟩
    · rw [List.forall_mem_append, List.forall_mem_singleton]
      exact ⟨h.registered, hp⟩
  | @falls p =>
    exact ⟨h.nodup.erase p, fun q hq => h.registered q (List.mem_of_mem_erase hq), h.card, hgrown⟩
  | poll hans hpoll =>
    exact ⟨h.nodup.sublist (List.drop_sublist _ _),
      fun q hq => h.registered q (List.mem_of_mem_drop hq), h.card, hgrown⟩

end Valid

/-- A run, as the queue sees it. -/
theorem Valid.queue_run {ls : List PollStep} (h : s.Valid n) (hn : n < 2 ^ 30)
    (hrun : (pollRuns.under (Within n)).Run s ls s') :
    (BatchQueue.batchRuns Ptr 2).Run s.queue (ls.filterMap PollStep.batchStep) s'.queue := by
  refine hrun.simulate (I := Valid n) h ?_ ?_ ?_
  · rintro s l s' hs ⟨hl, hstep⟩
    exact hs.step hn hl hstep
  · rintro s l s' hs ⟨-, hstep⟩ hnone
    exact hs.hidden hn hstep hnone
  · rintro s l s' b hs ⟨-, hstep⟩ hb
    exact hs.shown hn hstep hb

theorem reachable_valid (hn : n < 2 ^ 30) (h : (pollRuns.under (Within n)).Reachable s) :
    s.Valid n := by
  refine h.invariant (I := Valid n) ?_ ?_
  · rintro s rfl
    exact .start n
  · rintro s l s' - hs ⟨hl, hstep⟩
    exact hs.step hn hl hstep

/-- As long as fewer than 2^30 channels are registered: `poll` returns what `epoll_wait` answers,
    event for event, and with it different channels that are registered; `events_` never grows
    beyond twice the number `n` of channels that may be registered; and the rounds that left out a
    channel that was ready are fewer than the times that `n` can be halved. -/
theorem poll_passes_on (n : ℕ) (hn : n < 2 ^ 30) (s : EPollRounds)
    (h : (pollRuns.under (Within n)).Reachable s) :
    (∀ r, s.Answers r → (∃ events, poll s.events r = some (events, r.written)) ∧
      (r.written.map Registration.ptr).Nodup ∧ ∀ ev ∈ r.written, ev.ptr ∈ s.registered) ∧
      s.events.length ≤ max 2 (2 * n) ∧ (∃ k, s.events.length = 2 ^ (k + 1)) ∧
      (s.short = 0 ∨ 2 ^ s.short < n) := by
  have hvalid := reachable_valid hn h
  refine ⟨fun r hans => ?_, hvalid.grown.le, ?_, ?_⟩
  · obtain ⟨events, hpoll, -⟩ := hvalid.poll_eq hn hans
    refine ⟨⟨events, hpoll⟩, ?_⟩
    cases r with
    | error e => exact ⟨List.nodup_nil, nofun⟩
    | events evs =>
      obtain ⟨hptr, -⟩ := hvalid.written hn hans
      refine ⟨?_, fun ev hev => ?_⟩
      · show (evs.map Registration.ptr).Nodup
        rw [hptr]
        exact hvalid.nodup.sublist (List.take_sublist _ _)
      · have hmem : ev.ptr ∈ evs.map Registration.ptr := List.mem_map_of_mem hev
        rw [hptr] at hmem
        exact hvalid.registered _ (List.mem_of_mem_take hmem)
  · obtain ⟨k, hk, -⟩ := hvalid.grown.doubled
    exact ⟨k, hk⟩
  · rcases hvalid.grown.short with hzero | hlt
    · exact .inl hzero
    · refine (Nat.eq_zero_or_pos s.short).imp_right fun hpos => ?_
      have hlt : 2 ^ (s.short - 1) * 2 < n := hlt
      rwa [← pow_succ, Nat.sub_add_cancel hpos] at hlt

/-- A channel that is ready, and stays so through a run without being reported, has waited for a
    number of reports that is logarithmic in the number of channels before it, and so in `n`. -/
theorem reported_within (n : ℕ) (hn : n < 2 ^ 30) (s s' : EPollRounds) (ls : List PollStep)
    (p : Ptr)
    (h : (pollRuns.under (Within n)).Reachable s) (hrun : (pollRuns.under (Within n)).Run s ls s')
    (hp : p ∈ s.ready) (hls : ∀ l ∈ ls, l.Keeps p) :
    2 ^ ls.countP PollStep.isReport * s.events.length ≤ s.ready.idxOf p + s.events.length ∧
      2 ^ ls.countP PollStep.isReport * 2 ≤ n + 1 := by
  have hvalid := reachable_valid hn h
  obtain ⟨-, hidx, hsize⟩ :=
    BatchQueue.Run.spared (hvalid.queue_run hn hrun) (PollStep.spares_of_keeps hls) hp
  rw [PollStep.countP_batchStep] at hsize
  have hbound : 2 ^ ls.countP PollStep.isReport * s.events.length ≤
      s.ready.idxOf p + s.events.length := by
    have hle := (Nat.le_add_left s'.queue.size _).trans hidx
    rw [hsize] at hle
    exact hle
  refine ⟨hbound, ?_⟩
  have hindex := (List.idxOf_lt_length_of_mem hp).trans_le hvalid.ready_length
  have htwo := hvalid.two_le
  have hpos : 0 < 2 ^ ls.countP PollStep.isReport := Nat.two_pow_pos _
  generalize 2 ^ ls.countP PollStep.isReport = m at hbound hpos ⊢
  obtain ⟨k, rfl⟩ := Nat.exists_eq_add_of_le' hpos
  rw [Nat.succ_mul] at hbound
  have hmul : k * 2 ≤ k * s.events.length := Nat.mul_le_mul_left k htwo
  omega

/-- Three channels that are ready, one more than `events_` holds. -/
def threeReady : EPollRounds := ⟨List.replicate 2 ⟨0, 0⟩, {2, 1, 0}, [0, 1, 2], 0⟩

theorem within_step (h : (pollRuns.under (Within n)).Reachable s) (hl : s.Within n l)
    (hstep : Step s l s') : (pollRuns.under (Within n)).Reachable s' := .next l h ⟨hl, hstep⟩

theorem threeReady_reachable : (pollRuns.under (Within 3)).Reachable threeReady := by
  have hstart : (pollRuns.under (Within 3)).Reachable start := .start rfl
  have hzero := within_step (l := .addChannel 0) hstart (show 0 < 3 by decide)
    (.addChannel (by decide))
  have hone := within_step (l := .addChannel 1) hzero (show 1 < 3 by decide)
    (.addChannel (by decide))
  have htwo := within_step (l := .addChannel 2) hone (show 2 < 3 by decide)
    (.addChannel (by decide))
  have hfirst := within_step (l := .rises 0) htwo trivial (.rises (by decide) (by decide))
  have hsecond := within_step (l := .rises 1) hfirst trivial (.rises (by decide) (by decide))
  exact within_step (l := .rises 2) hsecond trivial (.rises (by decide) (by decide))

theorem poll_passes_on_three :
    (∃ events, poll threeReady.events (.events [⟨1, 0⟩, ⟨1, 1⟩]) =
      some (events, [⟨1, 0⟩, ⟨1, 1⟩])) ∧ threeReady.events.length ≤ max 2 (2 * 3) := by
  have hall := poll_passes_on 3 (by decide) threeReady threeReady_reachable
  exact ⟨(hall.1 (.events [⟨1, 0⟩, ⟨1, 1⟩]) ⟨by decide, by decide⟩).1, hall.2.1⟩

/-- The third channel is left out of the first report, which is as many as it can be. -/
theorem reported_within_three : ∃ s', (pollRuns.under (Within 3)).Run threeReady
    [.poll [⟨1, 0⟩, ⟨1, 1⟩]] s' ∧ 2 ^ 1 * 2 ≤ threeReady.ready.idxOf 2 + 2 ∧ 2 ^ 1 * 2 ≤ 3 + 1 := by
  have hans : threeReady.Answers (.events [⟨1, 0⟩, ⟨1, 1⟩]) := ⟨by decide, by decide⟩
  obtain ⟨events, hpoll, -⟩ :=
    (reachable_valid (by decide) threeReady_reachable).poll_eq (by decide) hans
  have hstep := Step.poll hans hpoll
  have hrun : (pollRuns.under (Within 3)).Run threeReady [.poll [⟨1, 0⟩, ⟨1, 1⟩]]
    (threeReady.report events 2) := .cons ⟨trivial, hstep⟩ (.nil _)
  refine ⟨_, hrun, ?_⟩
  refine reported_within 3 (by decide) threeReady _ _ 2 threeReady_reachable hrun (by decide) ?_
  rw [List.forall_mem_singleton]
  show 2 ∉ [0, 1]
  decide

end EPollRounds

end Codechiev
