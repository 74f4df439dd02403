import DeepSeekWebToApi.Toolstream.Segments

/- The order of the events. Text goes out at once, the calls of a block when the next chunk
   comes or the stream ends. So text behind a block that comes with it overtakes the
   block's calls.

   `events_in_order_iff`: the events of a stream are those of its log, in the order of
   the text, exactly when no turn shows text or completes another block while calls
   wait. -/
namespace DeepSeekWebToApi.Toolstream
open GoStrings GoLoop Toolcall

/-- The events of a text: none for no text. -/
def contentEvents (text : Bytes) : List Event := if text = [] then [] else [.content text]

/-- The events of a list of calls: none for no calls. -/
def callEvents (calls : List ParsedToolCall) : List Event :=
  if calls.isEmpty then [] else [.toolCalls calls]

/-- The events a segment stands for. -/
def Segment.events : Segment → List Event
  | .shown text => contentEvents text
  | .gone _ c => callEvents c.calls

/-- The events of a log, in the order of the text. -/
def logEvents (log : List Segment) : List Event := log.flatMap Segment.events

theorem logEvents_append (l m : List Segment) :
    logEvents (l ++ m) = logEvents l ++ logEvents m := List.flatMap_append

/-- While calls wait, the coming turn shows no text and completes no block of calls. -/
def Work.Quiet (std : GoStd) (w : Work) : Prop :=
  w.state.pendingToolCalls ≠ [] → logEvents (turnLog std w) = []

/-- Every turn of the chunk's loop is quiet while calls wait. -/
def Work.QuietDuring (std : GoStd) (w : Work) (chunk : Bytes) : Prop :=
  Along Work.left (chunkTurn std) (Work.Quiet std) (w.receive chunk)

/-! What a turn does to the events. -/

theorem Work.say_contentEvents (w : Work) (text : Bytes) :
    (w.say text).events = w.events ++ contentEvents text := by
  unfold Work.say contentEvents
  split
  · exact (List.append_nil _).symm
  · rfl

theorem Work.release_callEvents (w : Work) :
    w.release.events = w.events ++ callEvents w.state.pendingToolCalls := by
  unfold Work.release callEvents
  split
  · exact (List.append_nil _).symm
  · rfl

variable {std : GoStd}

/-- A turn shows a text, and the calls it takes wait in the place of others. -/
theorem chunkTurn_events {w : Work} {turn : Turn Work Work} (h : chunkTurn std w = some turn) : ∃ text calls,
      logEvents (turnLog std w) = contentEvents text ++ callEvents calls ∧
      turn.state.events = w.events ++ contentEvents text ∧
      turn.state.state.pendingToolCalls =
        (if calls.isEmpty then w.state.pendingToolCalls else calls) ∧
      ∀ r, turn = .done r → logEvents (turnLog std w) = [] := by
  have hnothing : ∀ t : Work, t.events = w.events →
      t.state.pendingToolCalls = w.state.pendingToolCalls →
      ∃ text calls, [] = contentEvents text ++ callEvents calls ∧
        t.events = w.events ++ contentEvents text ∧
        t.state.pendingToolCalls = (if calls.isEmpty then w.state.pendingToolCalls else calls) ∧
        ∀ r, Turn.done (σ := Work) t = .done r → ([] : List Event) = [] :=
    fun t hevents hwaiting =>
      ⟨[], [], rfl, hevents.trans (List.append_nil _).symm, hwaiting, fun _ _ => rfl⟩
  unfold chunkTurn at h
  unfold turnLog
  split at h
  · next hcap =>
    obtain ⟨consumed, hconsumed, h⟩ := Option.bind_eq_some_iff.mp h
    rw [if_pos hcap, hconsumed]
    cases consumed with
    | none =>
      cases h
      exact hnothing _ rfl rfl
    | some c =>
      cases h
      refine ⟨c.before, c.calls, ?_, ?_, (w.park_spec c).2.2, nofun⟩
      · simp only [logEvents, List.flatMap_cons, List.flatMap_nil, List.append_nil, Segment.events]
      · exact Work.say_contentEvents
          { w with state := { w.state with pending := [], capture := [], capturing := false } }
          c.before
  · next hcap =>
    rw [if_neg hcap]
    split at h
    · next hnil =>
      cases h
      rw [if_pos hnil]
      exact hnothing _ rfl rfl
    · next hne =>
      rw [if_neg hne]
      obtain ⟨start, hstart, h⟩ := Option.bind_eq_some_iff.mp h
      rw [hstart]
      cases start with
      | some start =>
        cases h
        refine ⟨w.state.pending.take start, [], ?_, w.say_contentEvents _,
          (w.say_same _).waiting, nofun⟩
        simp only [logEvents, List.flatMap_singleton, Segment.events]
        exact (List.append_nil _).symm
      | none =>
        obtain ⟨⟨safe, hold⟩, hsplit, h⟩ := Option.bind_eq_some_iff.mp h
        simp only [hsplit] at h ⊢
        have hlog : logEvents [.shown safe] = contentEvents safe ++ callEvents [] := by
          simp only [logEvents, List.flatMap_singleton, Segment.events]
          exact (List.append_nil _).symm
        split at h
        · next hsafe =>
          cases h
          rw [contentEvents, if_pos hsafe] at hlog
          rw [hlog]
          exact hnothing _ rfl rfl
        · cases h
          let held : Work := { w with state := { w.state with pending := hold } }
          exact ⟨safe, [], hlog, held.say_contentEvents safe, (held.say_same safe).waiting, nofun⟩

/-! In order, and out of order for good. -/

/-- The events that went out and those of the calls that wait. -/
def Work.outgoing (w : Work) : List Event := w.events ++ callEvents w.state.pendingToolCalls

/-- The events are those of the log, in its order. -/
def InOrder (log : List Segment) (w : Work) : Prop := w.outgoing = logEvents log

def isCalls : Event → Bool
  | .content _ => false
  | .toolCalls _ => true

/-- The events differ from those of the log at some place, or events of calls are missing. -/
def OutOfOrder (log : List Segment) (w : Work) : Prop :=
  (∃ before e f es fs, w.events = before ++ e :: es ∧ logEvents log = before ++ f :: fs ∧
    isCalls e ≠ isCalls f) ∨
  w.outgoing.countP isCalls < (logEvents log).countP isCalls

theorem countP_contentEvents (text : Bytes) : (contentEvents text).countP isCalls = 0 := by
  unfold contentEvents
  split <;> rfl

section Turns
variable {std : GoStd} {log : List Segment} {w : Work} {u : Turn Work Work}

theorem outgoing_turn {text : Bytes} {calls : List ParsedToolCall} {t : Work}
    (hevents : t.events = w.events ++ contentEvents text)
    (hwaiting : t.state.pendingToolCalls =
      if calls.isEmpty then w.state.pendingToolCalls else calls) :
    t.outgoing.countP isCalls ≤ w.outgoing.countP isCalls + (callEvents calls).countP isCalls := by
  simp only [Work.outgoing, hevents, hwaiting, List.countP_append, countP_contentEvents]
  split
  · omega
  · omega

/-- A quiet turn keeps the order. -/
theorem InOrder.turn (hlog : InOrder log w) (hquiet : w.Quiet std)
    (h : chunkTurn std w = some u) : InOrder (log ++ turnLog std w) u.state := by
  obtain ⟨text, calls, hlaid, hevents, hwaiting, -⟩ := chunkTurn_events h
  have hsame : w.outgoing = logEvents log := hlog
  unfold InOrder
  rw [logEvents_append, ← hsame, hlaid, Work.outgoing, Work.outgoing, hevents, hwaiting]
  by_cases hidle : w.state.pendingToolCalls = []
  · -- nothing waits: the text follows at once, the calls wait behind it
    rw [hidle]
    cases calls <;> simp [callEvents]
  · have hnone := hquiet hidle
    rw [hlaid] at hnone
    obtain ⟨htext, hcalls⟩ := List.append_eq_nil_iff.mp hnone
    have hempty : calls = [] := by
      cases calls with
      | nil => rfl
      | cons c cs => cases hcalls
    rw [htext, hempty]
    simp [callEvents]

/-- A turn that is not quiet puts the events out of order. -/
theorem InOrder.disturbed (hlog : InOrder log w) (hquiet : ¬ w.Quiet std)
    (h : chunkTurn std w = some u) : OutOfOrder (log ++ turnLog std w) u.state := by
  obtain ⟨text, calls, hlaid, hevents, hwaiting, -⟩ := chunkTurn_events h
  obtain ⟨hwait, hsome⟩ := Classical.not_imp.mp hquiet
  have hcallEvents : callEvents w.state.pendingToolCalls =
      [.toolCalls w.state.pendingToolCalls] := by
    rw [callEvents, if_neg (by simpa using hwait)]
  have hsame : w.events ++ [.toolCalls w.state.pendingToolCalls] = logEvents log := by
    rw [← hcallEvents]
    exact hlog
  unfold OutOfOrder
  rw [logEvents_append, ← hsame, hlaid]
  rw [hlaid] at hsome
  by_cases htext : text = []
  · -- other calls take the place of those that wait
    right
    have hcalls : calls.isEmpty = false := by
      cases calls with
      | nil =>
        rw [htext] at hsome
        exact absurd rfl hsome
      | cons c cs => rfl
    simp only [Work.outgoing, hevents, hwaiting, hcalls, List.countP_append, countP_contentEvents,
      Bool.false_eq_true, if_false, List.countP_singleton, isCalls, if_true]
    omega
  · left
    refine ⟨w.events, .content text, .toolCalls w.state.pendingToolCalls, [], _, ?_,
      List.append_assoc _ _ _, nofun⟩
    rw [hevents, contentEvents, if_neg htext]

/-- Events out of order stay so. -/
theorem OutOfOrder.turn (hlog : OutOfOrder log w) (h : chunkTurn std w = some u) :
    OutOfOrder (log ++ turnLog std w) u.state := by
  obtain ⟨text, calls, hlaid, hevents, hwaiting, -⟩ := chunkTurn_events h
  unfold OutOfOrder
  rw [logEvents_append]
  rcases hlog with ⟨before, e, f, es, fs, he, hf, hne⟩ | hfew
  · exact Or.inl ⟨before, e, f, es ++ contentEvents text, fs ++ logEvents (turnLog std w),
      by rw [hevents, he, List.append_assoc]; rfl, by rw [hf, List.append_assoc]; rfl, hne⟩
  · right
    have hcount := outgoing_turn hevents hwaiting
    rw [hlaid, List.countP_append, List.countP_append, countP_contentEvents]
    omega

end Turns

/-- What goes out is what was to go out, and behind it the events of some segments. -/
structure Follows (w t : Work) (more : List Segment) : Prop where
  events : ∃ es, t.events = w.events ++ es
  outgoing : t.outgoing = w.outgoing ++ logEvents more

section Follows
variable {log more : List Segment} {w t : Work}

theorem InOrder.follows (hlog : InOrder log w) (h : Follows w t more) : InOrder (log ++ more) t := by
  rw [InOrder, h.outgoing, logEvents_append, show w.outgoing = logEvents log from hlog]

theorem OutOfOrder.follows (hlog : OutOfOrder log w) (h : Follows w t more) :
    OutOfOrder (log ++ more) t := by
  obtain ⟨new, hnew⟩ := h.events
  unfold OutOfOrder
  rw [logEvents_append]
  rcases hlog with ⟨before, e, f, es, fs, he, hf, hne⟩ | hfew
  · exact Or.inl ⟨before, e, f, es ++ new, fs ++ logEvents more,
      by rw [hnew, he, List.append_assoc]; rfl, by rw [hf, List.append_assoc]; rfl, hne⟩
  · right
    rw [h.outgoing, List.countP_append, List.countP_append]
    omega

/-- Once no calls wait, the kinds of the events show the disorder. -/
theorem OutOfOrder.kinds_ne (hlog : OutOfOrder log w) (hout : w.outgoing = w.events) :
    w.events.map isCalls ≠ (logEvents log).map isCalls := by
  intro hsame
  rcases hlog with ⟨before, e, f, es, fs, he, hf, hne⟩ | hfew
  · rw [he, hf, List.map_append, List.map_append] at hsame
    exact hne (List.cons.inj (List.append_cancel_left hsame)).1
  · have hcount : ∀ events : List Event, events.countP isCalls = (events.map isCalls).countP id := by
      intro events
      rw [List.countP_map]
      rfl
    rw [hout, hcount, hcount, hsame] at hfew
    exact Nat.lt_irrefl _ hfew

end Follows

theorem Work.release_follows (w : Work) : Follows w w.release [] := by
  refine ⟨⟨_, w.release_callEvents⟩, ?_⟩
  rw [Work.outgoing, w.release_callEvents, w.release_spec.2.2]
  rfl

theorem Work.receive_follows (w : Work) (chunk : Bytes) : Follows w (w.receive chunk) [] := by
  have h := Work.release_follows
    { w with state := { w.state with pending := w.state.pending ++ chunk } }
  exact ⟨h.events, h.outgoing⟩

/-! Chunks and the end of the stream. -/

section Chunks
variable {std : GoStd} {log : List Segment} {w t : Work} {chunk : Bytes}

/-- A chunk keeps the order exactly when its turns are quiet. -/
theorem processChunk_order (hlog : InOrder log w) (h : processChunk std w chunk = some t) :
    w.QuietDuring std chunk ∧ InOrder (log ++ chunkLog std w chunk) t ∨
      ¬ w.QuietDuring std chunk ∧ OutOfOrder (log ++ chunkLog std w chunk) t := by
  have hstart : InOrder (log ++ []) (w.receive chunk) := hlog.follows (w.receive_follows chunk)
  have hlaid : ∀ (l : List Work) (u : Work), log ++ (l ++ [u]).flatMap (turnLog std) =
      (log ++ l.flatMap (turnLog std)) ++ turnLog std u := by
    intro l u
    rw [List.flatMap_append, List.flatMap_singleton, List.append_assoc]
  refine loop_trail_exact (P := fun l u => InOrder (log ++ l.flatMap (turnLog std)) u)
    (L := fun l u => OutOfOrder (log ++ l.flatMap (turnLog std)) u)
    (Q := fun l u => InOrder (log ++ l.flatMap (turnLog std)) u)
    (M := fun l u => OutOfOrder (log ++ l.flatMap (turnLog std)) u) ?_ ?_ ?_ ?_ ?_ hstart h
  · intro l u v hu hquiet hv
    rw [hlaid]
    exact hu.turn hquiet hv
  · intro l u v hu hquiet hv
    rw [hlaid]
    exact hu.disturbed hquiet hv
  · intro l u v hu hv
    rw [hlaid]
    exact hu.turn hv
  · intro l u v hu hv
    obtain ⟨_, _, -, -, -, hdone⟩ := chunkTurn_events hv
    have hquiet : u.Quiet std := fun _ => hdone v rfl
    rw [hlaid]
    exact ⟨hquiet, hu.turn hquiet hv⟩
  · intro l u v hu hv
    rw [hlaid]
    exact hu.turn hv

theorem processChunk_disorder (hlog : OutOfOrder log w) (h : processChunk std w chunk = some t) :
    OutOfOrder (log ++ chunkLog std w chunk) t := by
  have hstart : OutOfOrder (log ++ []) (w.receive chunk) := hlog.follows (w.receive_follows chunk)
  have hturn : ∀ (l : List Work) (u : Work) (v : Turn Work Work),
      OutOfOrder (log ++ l.flatMap (turnLog std)) u → chunkTurn std u = some v →
        OutOfOrder (log ++ (l ++ [u]).flatMap (turnLog std)) v.state := by
    intro l u v hu hv
    rw [List.flatMap_append, List.flatMap_singleton, ← List.append_assoc]
    exact hu.turn hv
  exact loop_trail_inv (I := fun l u => OutOfOrder (log ++ l.flatMap (turnLog std)) u)
    (Q := fun l u => OutOfOrder (log ++ l.flatMap (turnLog std)) u)
    (fun l u v hu hv => hturn l u (.next v) hu hv) (fun l u v hu hv => hturn l u (.done v) hu hv)
    hstart h

theorem Work.conclude_events (w : Work) (c : Consumed) :
    (w.conclude c).events =
        w.events ++ (contentEvents c.before ++ callEvents c.calls ++ contentEvents c.after) ∧
      (w.conclude c).state.pendingToolCalls = w.state.pendingToolCalls := by
  unfold Work.conclude callEvents
  simp only [Work.say_contentEvents, (Work.say_same _ _).waiting]
  split
  · rw [Work.say_contentEvents, (Work.say_same _ _).waiting]
    simp only [List.append_nil, List.append_assoc]
    exact ⟨trivial, trivial⟩
  · simp only [(Work.say_same _ _).waiting, List.append_assoc]
    exact ⟨trivial, trivial⟩

/-- Closing the capture adds the events of its log. -/
theorem closeCapture_events (h : closeCapture std w.release = some t) :
    t.events = w.outgoing ++ logEvents (closeLog std w) ∧ t.state.pendingToolCalls = [] ∧
      t.state.pending = w.state.pending := by
  obtain ⟨waiting, hstate⟩ := w.release_state
  have hcapturing : w.release.state.capturing = w.state.capturing := by rw [hstate]
  have hcapture : w.release.state.capture = w.state.capture := by rw [hstate]
  have hpending : w.release.state.pending = w.state.pending := by rw [hstate]
  have hreleased := w.release_spec.2.2
  have hconclude : ∀ c : Consumed,
      (w.release.conclude c).events = w.outgoing ++ logEvents (concludeLog w.state.capture c) ∧
        (w.release.conclude c).state.pendingToolCalls = [] ∧
        (w.release.conclude c).state.pending = w.state.pending := by
    intro c
    obtain ⟨hevents, hwaiting⟩ := w.release.conclude_events c
    refine ⟨?_, hwaiting.trans hreleased, (w.release.conclude_text c).2.trans hpending⟩
    rw [hevents, w.release_callEvents, Work.outgoing]
    simp only [logEvents, concludeLog, List.flatMap_cons, List.flatMap_nil, Segment.events,
      List.append_nil, List.append_assoc]
  unfold closeCapture at h
  unfold closeLog
  rw [hcapturing] at h
  split at h
  · next hcap =>
    rw [if_pos hcap]
    have hcases := flushCapture_cases h
    rw [hcapture] at hcases
    rcases hcases with ⟨c, hc, rfl⟩ | ⟨hnone, ⟨c, hc, rfl⟩ | ⟨hc, rfl⟩⟩
    · simp only [hc]
      exact hconclude c
    · simp only [hnone, hc]
      exact hconclude c
    · simp only [hnone, hc]
      refine ⟨?_, (w.release.say_same _).waiting.trans hreleased,
        (w.release.say_pending _).trans hpending⟩
      rw [Work.say_contentEvents, w.release_callEvents, Work.outgoing]
      simp only [logEvents, List.flatMap_singleton, Segment.events]
  · next hcap =>
    cases h
    rw [if_neg hcap]
    refine ⟨?_, hreleased, hpending⟩
    rw [w.release_callEvents]
    exact (List.append_nil _).symm

/-- The end of the stream adds the events of what it lays down. -/
theorem finish_follows (h : closeCapture std w.release = some t) :
    Follows w t.finish (closeLog std w ++ [.shown w.state.pending]) := by
  obtain ⟨hevents, hwaiting, hpending⟩ := closeCapture_events h
  let idle : Work := { t with state := { t.state with capture := [], capturing := false } }
  have hfinish : t.finish.events =
      w.outgoing ++ logEvents (closeLog std w ++ [.shown w.state.pending]) := by
    have hsay : t.finish.events = t.events ++ contentEvents t.state.pending :=
      idle.say_contentEvents t.state.pending
    rw [hsay, hevents, hpending, logEvents_append, List.append_assoc]
    simp only [logEvents, List.flatMap_singleton, Segment.events]
  have hreleased : t.finish.state.pendingToolCalls = [] :=
    (idle.say_same t.state.pending).waiting.trans hwaiting
  refine ⟨⟨callEvents w.state.pendingToolCalls ++
    logEvents (closeLog std w ++ [.shown w.state.pending]), ?_⟩, ?_⟩
  · rw [hfinish, Work.outgoing, List.append_assoc]
  · rw [Work.outgoing, hfinish, hreleased]
    exact List.append_nil _

end Chunks

/-! Streams. -/

theorem feed_order {s t : Fed} {input : Input} (hs : InOrder s.log s.work) (h : feed std s input = some t) :
    s.work.QuietDuring std input.text ∧ InOrder t.log t.work ∨
      ¬ s.work.QuietDuring std input.text ∧ OutOfOrder t.log t.work := by
  obtain ⟨v, hv, rfl⟩ := Option.map_eq_some_iff.mp h
  cases input with
  | chunk text => exact processChunk_order hs hv
  | flush =>
    obtain ⟨u, hu, hv⟩ := Option.bind_eq_some_iff.mp hv
    obtain ⟨closed, hclosed, hv⟩ := Option.bind_eq_some_iff.mp hv
    cases hv
    have hfollows := finish_follows hclosed
    simp only [inputLog, hu]
    rw [List.append_assoc, ← List.append_assoc]
    exact (processChunk_order hs hu).imp (And.imp_right (·.follows hfollows))
      (And.imp_right (·.follows hfollows))

theorem feed_disorder {s t : Fed} {input : Input} (hs : OutOfOrder s.log s.work) (h : feed std s input = some t) :
    OutOfOrder t.log t.work := by
  obtain ⟨v, hv, rfl⟩ := Option.map_eq_some_iff.mp h
  cases input with
  | chunk text => exact processChunk_disorder hs hv
  | flush =>
    obtain ⟨u, hu, hv⟩ := Option.bind_eq_some_iff.mp hv
    obtain ⟨closed, hclosed, hv⟩ := Option.bind_eq_some_iff.mp hv
    cases hv
    simp only [inputLog, hu]
    rw [List.append_assoc, ← List.append_assoc]
    exact (processChunk_disorder hs hu).follows (finish_follows hclosed)

/-- In no turn of the stream does text go out, or a block complete, while calls wait. -/
def QuietThroughout (std : GoStd) (chunks : List Bytes) : Prop :=
  Runs.Meets (feed std) (fun s input => s.work.QuietDuring std input.text) {} (stream chunks)

theorem stream_order {chunks : List Bytes} {s : Fed} (h : Runs.run (feed std) {} (stream chunks) = some s) :
    QuietThroughout std chunks ∧ InOrder s.log s.work ∨
      ¬ QuietThroughout std chunks ∧ OutOfOrder s.log s.work :=
  Runs.run_exact (fun _ _ _ hs ht => feed_order hs ht) (fun _ _ _ hs ht => feed_disorder hs ht)
    (stream chunks) rfl h

/-- The log is kept beside the stream. -/
theorem run_feed_work : ∀ (inputs : List Input) {s t : Fed},
    Runs.run (feed std) s inputs = some t → Runs.run (step std) s.work inputs = some t.work
  | [], _, _, h => by
    cases h
    rfl
  | input :: inputs, s, t, h => by
    simp only [Runs.run] at h ⊢
    split at h
    · next u hu =>
      obtain ⟨v, hv, rfl⟩ := Option.map_eq_some_iff.mp hu
      rw [hv]
      exact run_feed_work inputs h
    · cases h

/-- At the end no calls wait. -/
theorem stream_outgoing {chunks : List Bytes} {s : Fed} (h : Runs.run (feed std) {} (stream chunks) = some s) :
    s.work.outgoing = s.work.events := by
  rw [Work.outgoing, stream_released chunks (run_feed_work _ h)]
  exact List.append_nil _

/-- The events of a stream are those of its log, in the order of the text, exactly when no turn
    shows text or completes a block while the calls of another one wait. -/
theorem events_in_order_iff (std : GoStd) (chunks : List Bytes) (s : Fed)
    (h : Runs.run (feed std) {} (stream chunks) = some s) :
    s.work.events = logEvents s.log ↔ QuietThroughout std chunks := by
  have hout := stream_outgoing h
  rcases stream_order h with ⟨hquiet, horder⟩ | ⟨hquiet, hdisorder⟩
  · exact iff_of_true (hout.symm.trans horder) hquiet
  · exact iff_of_false (fun hsame => hdisorder.kinds_ne hout (congrArg _ hsame)) hquiet

/-- A block, and the text behind it in a chunk of its own. -/
theorem events_in_order_example :
    ∃ s, Runs.run (feed plainStd) {} (stream [lit "see ", firstBlock, lit " tail"]) = some s ∧
      s.work.events.map isCalls = [false, true, false] ∧ s.work.events = logEvents s.log := by
  have hrun : (Runs.run (feed plainStd) {} (stream [lit "see ", firstBlock, lit " tail"])).map
      (fun s => (s.work.events.map isCalls, (logEvents s.log).map isCalls)) =
        some ([false, true, false], [false, true, false]) := by decide +kernel
  obtain ⟨s, hs, hkinds⟩ := Option.map_eq_some_iff.mp hrun
  obtain ⟨hevents, hlog⟩ := Prod.mk.inj hkinds
  have hquiet : QuietThroughout plainStd [lit "see ", firstBlock, lit " tail"] := by
    rcases stream_order hs with ⟨hquiet, -⟩ | ⟨-, hdisorder⟩
    · exact hquiet
    · exact absurd (hevents.trans hlog.symm) (hdisorder.kinds_ne (stream_outgoing hs))
  exact ⟨s, hs, hevents, (events_in_order_iff plainStd _ s hs).mpr hquiet⟩

/-- Text behind a block in the block's chunk goes out before the block's calls. -/
theorem tail_overtakes_calls :
    ∃ s, Runs.run (feed plainStd) {} (stream [firstBlock ++ lit " tail"]) = some s ∧
      s.work.events.map isCalls = [false, true] ∧
      (logEvents s.log).map isCalls = [true, false] ∧ s.work.events ≠ logEvents s.log := by
  have hrun : (Runs.run (feed plainStd) {} (stream [firstBlock ++ lit " tail"])).map
      (fun s => (s.work.events.map isCalls, (logEvents s.log).map isCalls)) =
        some ([false, true], [true, false]) := by decide +kernel
  obtain ⟨s, hs, hkinds⟩ := Option.map_eq_some_iff.mp hrun
  obtain ⟨hevents, hlog⟩ := Prod.mk.inj hkinds
  refine ⟨s, hs, hevents, hlog, fun hsame => ?_⟩
  rw [← hsame, hevents] at hlog
  cases hlog

end DeepSeekWebToApi.Toolstream
