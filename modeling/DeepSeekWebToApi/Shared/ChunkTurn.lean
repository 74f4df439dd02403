import DeepSeekWebToApi.Sse.Pump

/- One turn of a chunked request (`commitSessionChunkTurn` of `openai/shared/session_chunking.go`).
   The turn sends a fragment or a control prompt and listens to the answer until it has evidence
   that the upstream stored a response message; the id of that message is the parent of the next
   turn. What the `select` sees is a list of observations: results of the parsed-line pump, the
   closing of its channel, its terminal value, and the end of the turn's context. A channel that
   was set to nil is not seen any more, so an observation of it is passed over.

   Two exits are weaker than the others.

   1. A turn that is interrupted once reasoning starts does not compare the id with the parent.
      `committed_turn_advances_iff`: the returned id is a new one unless the upstream echoes the
      parent id until then.
   2. The exits at the end of the stream differ in one case. `outcome_schedule_free_iff`: the
      order in which the end is seen matters exactly for a control turn that got a new id and
      nothing else. -/
namespace DeepSeekWebToApi.Shared
open GoStrings
open GoJson (wholeNumbers wholeText)
open Sse (LineResult TerminalError startParsedLinePump)

inductive ChunkTerminal where
  | eof
  | done
  | timeout
  deriving DecidableEq

/-- What is behind an uncommitted turn: the terminal value of the pump, or the turn's deadline. -/
inductive StreamCause where
  | stream (e : TerminalError)
  | deadline
  deriving DecidableEq

/-- `sessionChunkUncommittedError`. -/
structure Uncommitted where
  reason : Bytes
  terminal : ChunkTerminal
  responseMessageID : Int
  started : Bool
  cause : Option StreamCause
  deriving DecidableEq

inductive TurnError where
  | sessionRequired
  | pow
  /-- The completion call failed. -/
  | call
  | noResponseBody
  /-- `sessionChunkHTTPFailure`: the status, the message, and whether it is about the capacity of
      the session. -/
  | http (status : Int) (message : Bytes) (sessionCapacity : Bool)
  | upstream (message : Bytes)
  | contentFilter
  | uncommitted (e : Uncommitted)
  /-- The caller's context is over. -/
  | cancelled
  deriving DecidableEq

structure TurnArgs where
  parentID : Int
  interruptAfterStart : Bool
  turnKind : Bytes

def TurnArgs.isFragment (args : TurnArgs) : Bool := args.turnKind = lit "fragment"

/-- The variables of the loop; `lines` and `done` say which of the channels is not nil. -/
structure TurnState where
  lines : Bool := true
  done : Bool := true
  responseID : Int := 0
  started : Bool := false
  streamErr : Option StreamCause := none

inductive Observed where
  | result (r : LineResult)
  | closed
  | done (err : Option StreamCause)
  /-- `turnCtx.Done()`; the caller's context is over as well, or it is the deadline of the turn. -/
  | ended (callerGone : Bool)

/-- A part that is not blank. -/
def visible (r : LineResult) : Bool :=
  (r.parts ++ r.toolDetectionThinkingParts).any fun p => trimSpace p.text ≠ []

def latestID (id : Int) (r : LineResult) : Int := if 0 < r.responseMessageID then r.responseMessageID else id

def TurnState.take (s : TurnState) (r : LineResult) : TurnState :=
  { s with responseID := latestID s.responseID r, started := s.started || visible r }

/-- The id is a new one. -/
def TurnState.fresh (s : TurnState) (args : TurnArgs) : Bool :=
  decide (0 < s.responseID) && decide (s.responseID ≠ args.parentID)

def TurnState.uncommitted (s : TurnState) (reason : Bytes) (terminal : ChunkTerminal) (cause : Option StreamCause) :
    Except TurnError Int :=
  .error (.uncommitted ⟨reason, terminal, s.responseID, s.started, cause⟩)

/-- The loop goes on with a state, or the function returns. -/
inductive Progress where
  | wait (s : TurnState)
  | answer (r : Except TurnError Int)

def observeResult (args : TurnArgs) (s : TurnState) (r : LineResult) : Progress :=
  let t := s.take r
  if r.errorMessage ≠ [] then .answer (.error (.upstream r.errorMessage))
  else if r.contentFilter then .answer (.error .contentFilter)
  else if args.interruptAfterStart ∧ 0 < t.responseID ∧ t.started then .answer (.ok t.responseID)
  else if r.stop then
    if args.interruptAfterStart ∧ args.isFragment ∧ ¬ t.started ∧ t.fresh args then .answer (.ok t.responseID)
    else if args.interruptAfterStart ∧ ¬ args.isFragment ∧ t.fresh args then .answer (.ok t.responseID)
    else if t.fresh args ∧ ¬ args.interruptAfterStart then .answer (.ok t.responseID)
    else .answer (t.uncommitted (lit "upstream finished before required reasoning/content started") .done none)
  else .wait t

def endedEarly : Bytes := lit "upstream stream ended before fragment commit"

def observeClosed (args : TurnArgs) (s : TurnState) : Progress :=
  if s.done then .wait { s with lines := false }
  else if s.fresh args ∧ ¬ args.interruptAfterStart then .answer (.ok s.responseID)
  else .answer (s.uncommitted endedEarly .eof s.streamErr)

def observeDone (args : TurnArgs) (s : TurnState) (err : Option StreamCause) : Progress :=
  let s := { s with streamErr := err, done := false }
  if s.lines then .wait s
  else if args.interruptAfterStart ∧ ¬ args.isFragment ∧ s.fresh args then .answer (.ok s.responseID)
  else if s.fresh args ∧ ¬ args.interruptAfterStart then .answer (.ok s.responseID)
  else .answer (s.uncommitted endedEarly .eof s.streamErr)

def observe (args : TurnArgs) (s : TurnState) : Observed → Progress
  | .result r => if s.lines then observeResult args s r else .wait s
  | .closed => if s.lines then observeClosed args s else .wait s
  | .done err => if s.done then observeDone args s err else .wait s
  | .ended true => .answer (.error .cancelled)
  | .ended false =>
    .answer (s.uncommitted (lit "timed out waiting for fragment commit") .timeout (some .deadline))

/-- The loop over what the `select` sees; `none` while it has not returned. -/
def listen (args : TurnArgs) : TurnState → List Observed → Option (Except TurnError Int)
  | _, [] => none
  | s, o :: rest =>
    match observe args s o with
    | .wait t => listen args t rest
    | .answer r => some r

/-- Texts of a reply that speak of the capacity of the session. -/
def capacityPatterns : List Bytes :=
  [lit "conversation context", lit "conversation limit", lit "conversation turn", lit "conversation has reached",
    lit "session context", lit "session limit", lit "session turn", lit "session has reached",
    lit "maximum turns", lit "maximum messages", lit "too many messages", lit "context window",
    lit "context length", lit "prompt is too long", lit "input is too long",
    lit "会话上下文", lit "会话轮次", lit "会话达到上限", lit "会话已达到上限",
    lit "对话上下文", lit "对话轮次", lit "对话达到上限", lit "上下文长度", lit "上下文超限"]

def sessionChunkBodyIndicatesCapacity (body : Bytes) : Bool :=
  let message := toLower (trimSpace body)
  message ≠ [] && capacityPatterns.any (contains message ·)

def sessionChunkHTTPFailure (status : Int) (body : Bytes) : TurnError :=
  .http status (trimSpace body) (status = 429 && sessionChunkBodyIndicatesCapacity body)

/-- What the upstream answers to the request of the turn. -/
inductive Reply where
  | powFailed
  | callFailed
  | noResponse
  /-- A status other than 200, with the body if there is one. -/
  | failed (status : Int) (body : Option Bytes)
  | noBody
  | stream

def commitSessionChunkTurn (args : TurnArgs) (sessionID : Bytes) (reply : Reply) (observed : List Observed) :
    Option (Except TurnError Int) :=
  if trimSpace sessionID = [] then some (.error .sessionRequired)
  else
    match reply with
    | .powFailed => some (.error .pow)
    | .callFailed => some (.error .call)
    | .noResponse => some (.error .noResponseBody)
    | .failed status body => some (.error (sessionChunkHTTPFailure status ((body.getD []).take 4096)))
    | .noBody => some (.error .noResponseBody)
    | .stream => listen args {} observed

/-! ## What one observation does -/

/-- The result carries no error and no refusal. -/
def plainResult (r : LineResult) : Prop := r.errorMessage = [] ∧ r.contentFilter = false

/-- The turn is interrupted: it has an id and reasoning has started. -/
def Interrupts (args : TurnArgs) (t : TurnState) : Prop :=
  args.interruptAfterStart = true ∧ 0 < t.responseID ∧ t.started = true

/-- An answer that is an error or a new id. -/
def Advances (args : TurnArgs) (answer : Except TurnError Int) : Prop :=
  ∀ id, answer = .ok id → 0 < id ∧ id ≠ args.parentID

theorem advances_error (args : TurnArgs) (e : TurnError) : Advances args (.error e) := by
  intro id h
  cases h

variable {args : TurnArgs} {s : TurnState}

theorem advances_fresh (h : s.fresh args = true) : Advances args (.ok s.responseID) := by
  rintro id ⟨⟩
  simpa [TurnState.fresh] using h

/-- A result ends the turn with an error, interrupts it, ends it at the stop mark, or is taken in. -/
theorem observeResult_cases (args : TurnArgs) (s : TurnState) (r : LineResult) :
    (¬ plainResult r ∧ ∃ e, observeResult args s r = .answer (.error e)) ∨
    (plainResult r ∧ Interrupts args (s.take r) ∧
      observeResult args s r = .answer (.ok (s.take r).responseID)) ∨
    (plainResult r ∧ ¬ Interrupts args (s.take r) ∧ r.stop = true ∧
      ∃ a, observeResult args s r = .answer a ∧ Advances args a) ∨
    (plainResult r ∧ ¬ Interrupts args (s.take r) ∧ r.stop = false ∧ observeResult args s r = .wait (s.take r)) := by
  simp only [observeResult]
  by_cases herror : r.errorMessage ≠ []
  · rw [if_pos herror]
    exact Or.inl ⟨fun h => herror h.1, _, rfl⟩
  rw [if_neg herror]
  by_cases hfilter : r.contentFilter = true
  · rw [if_pos hfilter]
    refine Or.inl ⟨fun h => ?_, _, rfl⟩
    exact Bool.noConfusion (h.2.symm.trans hfilter)
  rw [if_neg hfilter]
  have hplain : plainResult r := ⟨not_not.mp herror, Bool.eq_false_iff.mpr hfilter⟩
  refine Or.inr ?_
  by_cases hint : Interrupts args (s.take r)
  · exact Or.inl ⟨hplain, hint, if_pos hint⟩
  refine Or.inr ?_
  have hgoes : ¬ (args.interruptAfterStart = true ∧ 0 < (s.take r).responseID ∧ (s.take r).started = true) := hint
  rw [if_neg hgoes]
  by_cases hstop : r.stop = true
  · refine Or.inl ⟨hplain, hint, hstop, ?_⟩
    rw [if_pos hstop]
    split
    · next h => exact ⟨_, rfl, advances_fresh h.2.2.2⟩
    split
    · next h => exact ⟨_, rfl, advances_fresh h.2.2⟩
    split
    · next h => exact ⟨_, rfl, advances_fresh h.1⟩
    · exact ⟨_, rfl, advances_error _ _⟩
  · exact Or.inr ⟨hplain, hint, Bool.eq_false_iff.mpr hstop, if_neg hstop⟩

theorem observeClosed_cases (args : TurnArgs) (s : TurnState) :
    observeClosed args s = .wait { s with lines := false } ∨
      ∃ a, observeClosed args s = .answer a ∧ Advances args a := by
  rw [observeClosed]
  split
  · exact Or.inl rfl
  split
  · next h => exact Or.inr ⟨_, rfl, advances_fresh h.1⟩
  · exact Or.inr ⟨_, rfl, advances_error _ _⟩

theorem observeDone_cases (args : TurnArgs) (s : TurnState) (err : Option StreamCause) :
    (s.lines = true ∧ observeDone args s err = .wait { s with streamErr := err, done := false }) ∨
      (s.lines = false ∧ ∃ a, observeDone args s err = .answer a ∧ Advances args a) := by
  simp only [observeDone]
  split
  · next h => exact Or.inl ⟨h, rfl⟩
  next hlines =>
  refine Or.inr ⟨Bool.eq_false_iff.mpr hlines, ?_⟩
  split
  · next h => exact ⟨_, rfl, advances_fresh h.2.2⟩
  split
  · next h => exact ⟨_, rfl, advances_fresh h.1⟩
  · exact ⟨_, rfl, advances_error _ _⟩

/-- Behind the closing of `lines` every id that is returned is a new one. -/
theorem listen_closed (args : TurnArgs) : ∀ (observed : List Observed) {s : TurnState}, s.lines = false →
    ∀ a, listen args s observed = some a → Advances args a
  | [], _, _, _, h => by cases h
  | o :: rest, s, hs, a, h => by
    rw [listen] at h
    cases o with
    | result r =>
      rw [observe, hs] at h
      exact listen_closed args rest hs a h
    | closed =>
      rw [observe, hs] at h
      exact listen_closed args rest hs a h
    | done err =>
      rw [observe] at h
      by_cases hdone : s.done = true
      · rw [if_pos hdone] at h
        rcases observeDone_cases args s err with ⟨hlines, -⟩ | ⟨-, b, hb, hadv⟩
        · exact Bool.noConfusion (hs.symm.trans hlines)
        · rw [hb] at h
          cases h
          exact hadv
      · rw [if_neg hdone] at h
        exact listen_closed args rest hs a h
    | ended gone =>
      cases gone <;>
      · cases h
        exact advances_error _ _

/-! ## The returned id -/

/-- The observation leaves the turn listening to the results, reasoning apart. -/
def Observed.Quiet : Observed → Prop
  | .result r => plainResult r ∧ r.stop = false
  | .done _ => True
  | .closed => False
  | .ended _ => False

def resultsOf (observed : List Observed) : List LineResult :=
  observed.filterMap fun
    | .result r => some r
    | _ => none

/-- The last positive id among the results, `id` where there is none. -/
def latestOf (id : Int) (results : List LineResult) : Int := results.foldl latestID id

/-- Behind `before`, which leaves the turn listening, a result comes with which an id and a visible
    part are there, and the id is that of the parent. -/
def EchoesFrom (args : TurnArgs) (id : Int) (started : Bool) (observed : List Observed) : Prop :=
  ∃ before r after, observed = before ++ .result r :: after ∧ (∀ o ∈ before, o.Quiet) ∧
    ¬ (0 < latestOf id (resultsOf before) ∧ (started || (resultsOf before).any visible) = true) ∧
    plainResult r ∧ latestID (latestOf id (resultsOf before)) r = args.parentID ∧
    (started || (resultsOf before).any visible || visible r) = true

/-- The upstream answers an interrupted turn under the id of its parent. -/
def Echoes (args : TurnArgs) (observed : List Observed) : Prop :=
  args.interruptAfterStart = true ∧ 0 < args.parentID ∧ EchoesFrom args 0 false observed

theorem latestID_pos {id : Int} (h : 0 < id) (r : LineResult) : 0 < latestID id r := by
  rw [latestID]
  split
  · next hr => exact hr
  · exact h

theorem latestOf_pos : ∀ {id : Int} (results : List LineResult), 0 < id → 0 < latestOf id results
  | _, [], h => h
  | _, r :: results, h => latestOf_pos results (latestID_pos h r)

section
variable {args : TurnArgs} {id : Int} {started : Bool} {rest : List Observed}

theorem echoesFrom_result {r : LineResult} : EchoesFrom args id started (.result r :: rest) ↔
    plainResult r ∧ (¬ (0 < id ∧ started = true) ∧ latestID id r = args.parentID ∧ (started || visible r) = true ∨
      r.stop = false ∧ EchoesFrom args (latestID id r) (started || visible r) rest) := by
  constructor
  · rintro ⟨before, r', after, heq, hquiet, hlisten, hplain, hid, hvisible⟩
    cases before with
    | nil =>
      cases heq
      simp only [resultsOf, List.filterMap_nil, latestOf, List.foldl_nil, List.any_nil, Bool.or_false]
        at hlisten hid hvisible
      exact ⟨hplain, Or.inl ⟨hlisten, hid, hvisible⟩⟩
    | cons o before =>
      obtain ⟨rfl, hrest⟩ := List.cons.inj heq
      obtain ⟨⟨hr, hstop⟩, hquiet⟩ := List.forall_mem_cons.mp hquiet
      refine ⟨hr, Or.inr ⟨hstop, before, r', after, hrest, hquiet, ?_, hplain, hid, ?_⟩⟩
      · simpa [resultsOf, latestOf, Bool.or_assoc] using hlisten
      · simpa [resultsOf, Bool.or_assoc] using hvisible
  · rintro ⟨hr, ⟨hlisten, hid, hvisible⟩ | ⟨hstop, before, r', after, hrest, hquiet, hlisten, hplain, hid, hvisible⟩⟩
    · refine ⟨[], r, rest, rfl, List.forall_mem_nil _, ?_, hr, hid, ?_⟩
      · simpa [resultsOf, latestOf] using hlisten
      · simpa [resultsOf] using hvisible
    · refine ⟨.result r :: before, r', after, by rw [hrest]; rfl, List.forall_mem_cons.mpr ⟨⟨hr, hstop⟩, hquiet⟩, ?_,
        hplain, hid, ?_⟩
      · simpa [resultsOf, latestOf, Bool.or_assoc] using hlisten
      · simpa [resultsOf, Bool.or_assoc] using hvisible

theorem echoesFrom_done {err : Option StreamCause} :
    EchoesFrom args id started (.done err :: rest) ↔ EchoesFrom args id started rest := by
  constructor
  · rintro ⟨before, r, after, heq, hquiet, h⟩
    cases before with
    | nil => cases heq
    | cons o before =>
      obtain ⟨rfl, hrest⟩ := List.cons.inj heq
      exact ⟨before, r, after, hrest, (List.forall_mem_cons.mp hquiet).2, h⟩
  · rintro ⟨before, r, after, hrest, hquiet, h⟩
    exact ⟨.done err :: before, r, after, by rw [hrest]; rfl, List.forall_mem_cons.mpr ⟨trivial, hquiet⟩, h⟩

theorem Observed.closed_ne (r : LineResult) : Observed.closed ≠ .result r := fun h => by cases h

theorem Observed.ended_ne (gone : Bool) (r : LineResult) : Observed.ended gone ≠ .result r := fun h => by cases h

/-- What ends the turn ends the search for an echo. -/
theorem not_echoesFrom {o : Observed} (hquiet : ¬ o.Quiet) (hresult : ∀ r, o ≠ .result r) :
    ¬ EchoesFrom args id started (o :: rest) := by
  rintro ⟨before, r, after, heq, hbefore, -⟩
  cases before with
  | nil =>
    obtain ⟨rfl, -⟩ := List.cons.inj heq
    exact hresult r rfl
  | cons b before =>
    obtain ⟨rfl, -⟩ := List.cons.inj heq
    exact hquiet (List.forall_mem_cons.mp hbefore).1

end

/-- The turn has an echo of its parent before it, from the state it is in. -/
def TurnState.Echoes (s : TurnState) (args : TurnArgs) (observed : List Observed) : Prop :=
  args.interruptAfterStart = true ∧ 0 < args.parentID ∧ EchoesFrom args s.responseID s.started observed

/-- An echo from here on: the next result is it, or it comes behind the result. -/
theorem TurnState.echoes_result {r : LineResult} {rest : List Observed} (hs : ¬ Interrupts args s) :
    s.Echoes args (.result r :: rest) ↔
      plainResult r ∧ (Interrupts args (s.take r) ∧ (s.take r).responseID = args.parentID ∨
        r.stop = false ∧ (s.take r).Echoes args rest) := by
  rw [TurnState.Echoes, echoesFrom_result]
  constructor
  · rintro ⟨hint, hparent, hplain, ⟨-, hid, hvisible⟩ | ⟨hstop, hrest⟩⟩
    · have hpos : 0 < (s.take r).responseID := lt_of_lt_of_eq hparent hid.symm
      exact ⟨hplain, Or.inl ⟨⟨hint, hpos, hvisible⟩, hid⟩⟩
    · exact ⟨hplain, Or.inr ⟨hstop, hint, hparent, hrest⟩⟩
  · rintro ⟨hplain, ⟨⟨hint, hpos, hvisible⟩, hid⟩ | ⟨hstop, hint, hparent, hrest⟩⟩
    · refine ⟨hint, lt_of_lt_of_eq hpos hid, hplain, Or.inl ⟨fun h => hs ⟨hint, h⟩, hid, hvisible⟩⟩
    · exact ⟨hint, hparent, hplain, Or.inr ⟨hstop, hrest⟩⟩

theorem advances_interrupted {t : TurnState} (h : Interrupts args t) :
    Advances args (.ok t.responseID) ↔ t.responseID ≠ args.parentID := by
  constructor
  · intro hadv
    exact (hadv _ rfl).2
  · rintro hne id ⟨⟩
    exact ⟨h.2.1, hne⟩

/-- A turn that is interrupted has no echo behind it. -/
theorem not_echoes_of_interrupts {t : TurnState} (h : Interrupts args t) (rest : List Observed) :
    ¬ t.Echoes args rest := by
  rintro ⟨-, -, before, r, after, -, -, hlisten, -⟩
  exact hlisten ⟨latestOf_pos _ h.2.1, by rw [h.2.2, Bool.true_or]⟩

/-- What the loop returns is an error or a new id exactly when no echo is before it. -/
theorem listen_advances_iff (args : TurnArgs) : ∀ (observed : List Observed) {s : TurnState}, s.lines = true →
    ¬ Interrupts args s → ((∀ a, listen args s observed = some a → Advances args a) ↔ ¬ s.Echoes args observed)
  | [], s, _, _ => by
    have hnone : ¬ s.Echoes args [] := by
      rintro ⟨-, -, before, r, after, heq, -⟩
      cases before <;> cases heq
    exact iff_of_true (fun a h => by cases h) hnone
  | o :: rest, s, hlines, hs => by
    cases o with
    | result r =>
      rw [TurnState.echoes_result hs]
      rw [listen, observe, if_pos hlines]
      rcases observeResult_cases args s r with ⟨hplain, e, heq⟩ | ⟨hplain, hint, heq⟩ | ⟨hplain, hint, hstop, a, heq, hadv⟩ |
        ⟨hplain, hint, hstop, heq⟩
      · rw [heq]
        refine iff_of_true ?_ (fun h => hplain h.1)
        rintro a ⟨⟩
        exact advances_error _ _
      · rw [heq]
        have hanswer : (∀ a, some (Except.ok (s.take r).responseID) = some a → Advances args a) ↔
            Advances args (.ok (s.take r).responseID) :=
          ⟨fun h => h _ rfl, fun h a ha => Option.some.inj ha ▸ h⟩
        have hrest : ¬ (s.take r).Echoes args rest := not_echoes_of_interrupts hint rest
        refine hanswer.trans ((advances_interrupted hint).trans (not_congr ?_))
        simp only [hplain, hint, hrest, true_and, and_false, or_false]
      · rw [heq]
        refine iff_of_true ?_ ?_
        · rintro b ⟨⟩
          exact hadv
        · rintro ⟨-, ⟨h, -⟩ | ⟨h, -⟩⟩
          · exact hint h
          · exact Bool.noConfusion (hstop.symm.trans h)
      · rw [heq]
        have hrest := listen_advances_iff args rest (s := s.take r) hlines hint
        refine hrest.trans (not_congr ?_)
        simp only [hplain, hint, hstop, false_and, true_and, false_or]
    | closed =>
      have hnot : ¬ s.Echoes args (.closed :: rest) := fun h => not_echoesFrom id Observed.closed_ne h.2.2
      refine iff_of_true (fun a h => ?_) hnot
      rw [listen, observe, if_pos hlines] at h
      rcases observeClosed_cases args s with heq | ⟨b, heq, hadv⟩
      · rw [heq] at h
        exact listen_closed args rest rfl a h
      · rw [heq] at h
        cases h
        exact hadv
    | done err =>
      have hecho : ∀ t : TurnState, t.responseID = s.responseID → t.started = s.started →
          (s.Echoes args (.done err :: rest) ↔ t.Echoes args rest) := by
        intro t hid hstarted
        rw [TurnState.Echoes, echoesFrom_done, TurnState.Echoes, hid, hstarted]
      rw [listen, observe]
      by_cases hdone : s.done = true
      · rw [if_pos hdone]
        rcases observeDone_cases args s err with ⟨-, heq⟩ | ⟨hclosed, -⟩
        · rw [heq]
          have hrest := listen_advances_iff args rest (s := { s with streamErr := err, done := false }) hlines hs
          exact hrest.trans (not_congr (hecho _ rfl rfl).symm)
        · exact Bool.noConfusion (hlines.symm.trans hclosed)
      · rw [if_neg hdone]
        exact (listen_advances_iff args rest hlines hs).trans (not_congr (hecho _ rfl rfl).symm)
    | ended gone =>
      have hnot : ¬ s.Echoes args (.ended gone :: rest) := fun h => not_echoesFrom id (Observed.ended_ne gone) h.2.2
      refine iff_of_true (fun a h => ?_) hnot
      cases gone <;>
      · cases h
        exact advances_error _ _

/-- A committed turn returns a new id exactly when it is not an interrupted turn whose upstream
    answers under the id of the parent. -/
theorem committed_turn_advances_iff (args : TurnArgs) (sessionID : Bytes) (reply : Reply)
    (observed : List Observed) :
    (∀ id, commitSessionChunkTurn args sessionID reply observed = some (.ok id) → 0 < id ∧ id ≠ args.parentID) ↔
      ¬ (trimSpace sessionID ≠ [] ∧ reply = .stream ∧ Echoes args observed) := by
  have hother : ∀ {e : TurnError} {id : Int}, some (.error e) = some (Except.ok id) → 0 < id ∧ id ≠ args.parentID := by
    intro e id h
    cases h
  by_cases hsession : trimSpace sessionID = []
  · simp only [commitSessionChunkTurn, if_pos hsession]
    exact iff_of_true (fun _ => hother) (fun h => h.1 hsession)
  simp only [commitSessionChunkTurn, if_neg hsession]
  cases reply with
  | stream =>
    have hstart : ¬ Interrupts args {} := fun h => absurd h.2.1 (lt_irrefl 0)
    have hiff := listen_advances_iff args observed (s := {}) rfl hstart
    simp only [ne_eq, hsession, not_false_eq_true, true_and]
    refine Iff.trans ⟨?_, fun h id hid => h _ hid id rfl⟩ hiff
    rintro h a ha id rfl
    exact h id ha
  | powFailed => exact iff_of_true (fun _ => hother) (fun h => by cases h.2.1)
  | callFailed => exact iff_of_true (fun _ => hother) (fun h => by cases h.2.1)
  | noResponse => exact iff_of_true (fun _ => hother) (fun h => by cases h.2.1)
  | failed status body => exact iff_of_true (fun _ => hother) (fun h => by cases h.2.1)
  | noBody => exact iff_of_true (fun _ => hother) (fun h => by cases h.2.1)

deriving instance DecidableEq for LineResult

/-- The result of a chunk with the id of a message and pieces of reasoning. -/
def chunkResult (id : Int) (texts : List String) : LineResult :=
  { parsed := true
    parts := texts.map fun t => ⟨lit t, .thinking⟩
    toolDetectionThinkingParts := texts.map fun t => ⟨lit t, .thinking⟩
    nextType := .thinking
    responseMessageID := id }

/-- A fragment sent below message 7, answered under the id 7 with some reasoning. -/
theorem echoed_parent_committed :
    startParsedLinePump wholeNumbers wholeText true .thinking
        [.line (lit "data: \x7b\"response_message_id\":7,\"p\":\"response/thinking_content\",\"v\":\"ok\"\x7d\n")]
        none = some ([chunkResult 7 ["ok"]], some .unexpectedEOF) ∧
      commitSessionChunkTurn ⟨7, true, lit "fragment"⟩ (lit "session") .stream [.result (chunkResult 7 ["ok"])] =
        some (.ok 7) :=
  ⟨by decide +kernel, rfl⟩

/-! ## The order at the end of the stream -/

/-- The results that come before the channels end, up to the one that ends the turn. -/
def hear (args : TurnArgs) : TurnState → List LineResult → Progress
  | s, [] => .wait s
  | s, r :: results =>
    match observeResult args s r with
    | .wait t => hear args t results
    | .answer a => .answer a

/-- The state behind the terminal value of the pump. -/
def TurnState.mark (err : Option StreamCause) (s : TurnState) : TurnState :=
  { s with streamErr := err, done := false }

def Progress.mark (err : Option StreamCause) : Progress → Progress
  | .wait s => .wait (s.mark err)
  | .answer a => .answer a

/-- No result is handled another way because the terminal value was seen before it. -/
theorem observeResult_mark (args : TurnArgs) (s : TurnState) (err : Option StreamCause) (r : LineResult) :
    observeResult args (s.mark err) r = (observeResult args s r).mark err := by
  have htake : (s.mark err).take r = (s.take r).mark err := rfl
  have hfresh : ((s.take r).mark err).fresh args = (s.take r).fresh args := rfl
  have hid : ((s.take r).mark err).responseID = (s.take r).responseID := rfl
  have hstarted : ((s.take r).mark err).started = (s.take r).started := rfl
  have hanswer : ∀ a, (Progress.answer a).mark err = .answer a := fun _ => rfl
  have hwait : (Progress.wait (s.take r)).mark err = .wait ((s.take r).mark err) := rfl
  simp only [observeResult, htake, hfresh, hid, hstarted, TurnState.uncommitted, apply_ite (Progress.mark err), hanswer,
    hwait]

theorem hear_mark (args : TurnArgs) (err : Option StreamCause) : ∀ (results : List LineResult) (s : TurnState),
    hear args (s.mark err) results = (hear args s results).mark err
  | [], _ => rfl
  | r :: results, s => by
    rw [hear, observeResult_mark, hear]
    cases observeResult args s r with
    | wait t => exact hear_mark args err results t
    | answer a => rfl

theorem observeResult_wait {s t : TurnState} {r : LineResult} (h : observeResult args s r = .wait t) :
    plainResult r ∧ r.stop = false ∧ ¬ Interrupts args t ∧ t = s.take r := by
  rcases observeResult_cases args s r with ⟨-, e, heq⟩ | ⟨-, -, heq⟩ | ⟨-, -, -, a, heq, -⟩ | ⟨hplain, hint, hstop, heq⟩
  · rw [heq] at h
    cases h
  · rw [heq] at h
    cases h
  · rw [heq] at h
    cases h
  · rw [heq] at h
    cases h
    exact ⟨hplain, hstop, hint, rfl⟩

theorem hear_append (args : TurnArgs) (more : List LineResult) : ∀ (results : List LineResult) (s : TurnState),
    hear args s (results ++ more) =
      match hear args s results with
      | .wait t => hear args t more
      | .answer a => .answer a
  | [], _ => rfl
  | r :: results, s => by
    rw [List.cons_append, hear, hear]
    cases observeResult args s r with
    | wait t => exact hear_append args more results t
    | answer a => rfl

/-- Listening to results while `lines` is open. -/
theorem listen_results (args : TurnArgs) (tail : List Observed) : ∀ (results : List LineResult) {s : TurnState},
    s.lines = true → listen args s (results.map .result ++ tail) =
      match hear args s results with
      | .wait t => listen args t tail
      | .answer a => some a
  | [], _, _ => rfl
  | r :: results, s, hs => by
    rw [List.map_cons, List.cons_append, listen, observe, if_pos hs, hear]
    cases hr : observeResult args s r with
    | wait t =>
      have ht : t.lines = true := by
        rw [(observeResult_wait hr).2.2.2]
        exact hs
      exact listen_results args tail results ht
    | answer a => rfl

theorem hear_lines : ∀ {results : List LineResult} {s t : TurnState},
    hear args s results = .wait t → t.lines = s.lines ∧ t.done = s.done
  | [], _, _, h => by
    cases h
    exact ⟨rfl, rfl⟩
  | r :: results, s, t, h => by
    rw [hear] at h
    cases hr : observeResult args s r with
    | wait u =>
      rw [hr] at h
      obtain ⟨-, -, -, rfl⟩ := observeResult_wait hr
      exact hear_lines (s := s.take r) h
    | answer a =>
      rw [hr] at h
      cases h

/-- The `select` sees the closing of `lines` first. -/
def closedFirst (results : List LineResult) (err : Option StreamCause) : List Observed :=
  results.map .result ++ [.closed, .done err]

/-- The `select` sees the terminal value first, behind `k` of the results. -/
def doneFirst (k : Nat) (results : List LineResult) (err : Option StreamCause) : List Observed :=
  (results.take k).map .result ++ .done err :: ((results.drop k).map .result ++ [.closed])

/-- What is returned when the terminal value comes last. -/
def endDone (args : TurnArgs) (s : TurnState) : Except TurnError Int :=
  if args.interruptAfterStart ∧ ¬ args.isFragment ∧ s.fresh args then .ok s.responseID
  else if s.fresh args ∧ ¬ args.interruptAfterStart then .ok s.responseID
  else s.uncommitted endedEarly .eof s.streamErr

/-- What is returned when the closing of `lines` comes last. -/
def endClosed (args : TurnArgs) (s : TurnState) : Except TurnError Int :=
  if s.fresh args ∧ ¬ args.interruptAfterStart then .ok s.responseID
  else s.uncommitted endedEarly .eof s.streamErr

theorem observeDone_closed (args : TurnArgs) (hs : s.lines = false) (err : Option StreamCause) :
    observeDone args s err = .answer (endDone args (s.mark err)) := by
  rw [endDone, apply_ite Progress.answer, apply_ite Progress.answer]
  exact if_neg (by rw [hs]; exact Bool.false_ne_true)

theorem observeClosed_done (args : TurnArgs) (hs : s.done = false) :
    observeClosed args s = .answer (endClosed args s) := by
  rw [observeClosed, if_neg (by rw [hs]; exact Bool.false_ne_true), endClosed, apply_ite Progress.answer]

theorem listen_closedFirst (args : TurnArgs) (results : List LineResult) (err : Option StreamCause) :
    listen args {} (closedFirst results err) =
      match hear args {} results with
      | .wait t => some (endDone args (t.mark err))
      | .answer a => some a := by
  rw [closedFirst, listen_results args _ results rfl]
  cases h : hear args {} results with
  | answer a => rfl
  | wait t =>
    obtain ⟨hlines, hdone⟩ := hear_lines h
    have hclosed : observe args t .closed = .wait { t with lines := false } := by
      rw [observe, if_pos hlines, observeClosed, if_pos hdone]
    have hlast : observe args { t with lines := false } (.done err) = .answer (endDone args (t.mark err)) := by
      rw [observe, if_pos hdone, observeDone_closed args rfl]
      rfl
    simp only [listen, hclosed, hlast]

theorem listen_doneFirst (args : TurnArgs) (k : Nat) (results : List LineResult) (err : Option StreamCause) :
    listen args {} (doneFirst k results err) =
      match hear args {} results with
      | .wait t => some (endClosed args (t.mark err))
      | .answer a => some a := by
  have hsplit := hear_append args (results.drop k) (results.take k) {}
  rw [List.take_append_drop] at hsplit
  rw [doneFirst, listen_results args _ _ rfl, hsplit]
  cases h : hear args {} (results.take k) with
  | answer a => rfl
  | wait t =>
    obtain ⟨hlines, hdone⟩ := hear_lines h
    have hmark : observe args t (.done err) = .wait (t.mark err) := by
      rw [observe, if_pos hdone, observeDone]
      exact if_pos hlines
    -- the results behind the terminal value are heard as they would be without it
    simp only [listen, hmark]
    rw [listen_results args _ _ (show (t.mark err).lines = true from hlines), hear_mark]
    cases hrest : hear args t (results.drop k) with
    | answer a => rfl
    | wait u =>
      obtain ⟨hlines', -⟩ := hear_lines hrest
      have hopen : (u.mark err).lines = true := hlines'.trans hlines
      have hlast : observe args (u.mark err) .closed = .answer (endClosed args (u.mark err)) := by
        rw [observe, if_pos hopen, observeClosed_done args rfl]
      simp only [Progress.mark, listen, hlast]

/-- The two ends differ for a control turn with a new id. -/
theorem ends_agree_iff (args : TurnArgs) (s : TurnState) : endDone args s = endClosed args s ↔
    ¬ (args.interruptAfterStart = true ∧ args.isFragment = false ∧ s.fresh args = true) := by
  rw [endDone, endClosed]
  constructor
  · rintro heq ⟨hint, hkind, hfresh⟩
    rw [if_pos ⟨hint, by rw [hkind]; exact Bool.false_ne_true, hfresh⟩,
      if_neg (fun h => h.2 hint)] at heq
    cases heq
  · intro h
    refine if_neg fun hc => h ⟨hc.1, ?_, hc.2.2⟩
    exact Bool.eq_false_iff.mpr hc.2.1

/-! ## The results of a turn that comes to its end -/

theorem foldl_take : ∀ (results : List LineResult) (s : TurnState),
    (results.foldl TurnState.take s).responseID = latestOf s.responseID results ∧
      (results.foldl TurnState.take s).started = (s.started || results.any visible)
  | [], s => ⟨rfl, (Bool.or_false _).symm⟩
  | r :: results, s => by
    obtain ⟨hid, hstarted⟩ := foldl_take results (s.take r)
    refine ⟨hid, hstarted.trans ?_⟩
    rw [List.any_cons, ← Bool.or_assoc]
    rfl

/-- A turn that hears all its results has taken them in. -/
theorem hear_wait : ∀ {results : List LineResult} {s t : TurnState},
    hear args s results = .wait t → ¬ Interrupts args s →
    (∀ r ∈ results, plainResult r ∧ r.stop = false) ∧ t = results.foldl TurnState.take s ∧ ¬ Interrupts args t
  | [], _, _, h, hs => by
    cases h
    exact ⟨List.forall_mem_nil _, rfl, hs⟩
  | r :: results, s, t, h, _ => by
    rw [hear] at h
    cases hr : observeResult args s r with
    | answer a =>
      rw [hr] at h
      cases h
    | wait u =>
      rw [hr] at h
      obtain ⟨hplain, hstop, hu, rfl⟩ := observeResult_wait hr
      obtain ⟨hall, hfold, ht⟩ := hear_wait h hu
      exact ⟨List.forall_mem_cons.mpr ⟨⟨hplain, hstop⟩, hall⟩, hfold, ht⟩

/-- Results without a visible part that carry no error and no end are all heard. -/
theorem hear_silent (args : TurnArgs) : ∀ {results : List LineResult} {s : TurnState}, s.started = false →
    (∀ r ∈ results, plainResult r ∧ r.stop = false) → results.any visible = false →
    hear args s results = .wait (results.foldl TurnState.take s)
  | [], _, _, _, _ => rfl
  | r :: results, s, hs, hquiet, hsilent => by
    obtain ⟨⟨hplain, hstop⟩, hquiet⟩ := List.forall_mem_cons.mp hquiet
    rw [List.any_cons, Bool.or_eq_false_iff] at hsilent
    have hstarted : (s.take r).started = false := by
      show (s.started || visible r) = false
      rw [hs, hsilent.1]
      rfl
    have hwait : observeResult args s r = .wait (s.take r) := by
      rcases observeResult_cases args s r with ⟨hnot, -⟩ | ⟨-, hint, -⟩ | ⟨-, -, hstop', -⟩ | ⟨-, -, -, heq⟩
      · exact absurd hplain hnot
      · exact Bool.noConfusion (hstarted.symm.trans hint.2.2)
      · exact Bool.noConfusion (hstop.symm.trans hstop')
      · exact heq
    rw [hear, hwait]
    exact hear_silent args hstarted hquiet hsilent.2

/-- A control turn that gets a new id and neither a visible part nor an end. -/
structure SilentControl (args : TurnArgs) (results : List LineResult) : Prop where
  interrupted : args.interruptAfterStart = true
  control : args.isFragment = false
  quiet : ∀ r ∈ results, plainResult r ∧ r.stop = false
  silent : results.any visible = false
  positive : 0 < latestOf 0 results
  new : latestOf 0 results ≠ args.parentID

theorem silentControl_iff (args : TurnArgs) (results : List LineResult) : SilentControl args results ↔
    ∃ t, hear args {} results = .wait t ∧ args.interruptAfterStart = true ∧ args.isFragment = false ∧
      t.fresh args = true := by
  obtain ⟨hid, hstarted⟩ := foldl_take results {}
  constructor
  · intro h
    refine ⟨_, hear_silent args rfl h.quiet h.silent, h.interrupted, h.control, ?_⟩
    have hpos := h.positive
    have hnew := h.new
    simp [TurnState.fresh, hid, hpos, hnew]
  · rintro ⟨t, ht, hint, hkind, hfresh⟩
    have hstart : ¬ Interrupts args {} := fun h => absurd h.2.1 (lt_irrefl 0)
    obtain ⟨hquiet, rfl, hnot⟩ := hear_wait ht hstart
    have hfresh' : 0 < latestOf 0 results ∧ latestOf 0 results ≠ args.parentID := by
      simpa [TurnState.fresh, hid] using hfresh
    refine ⟨hint, hkind, hquiet, ?_, hfresh'.1, hfresh'.2⟩
    refine Bool.eq_false_iff.mpr fun hvisible => hnot ⟨hint, ?_, ?_⟩
    · rw [hid]
      exact hfresh'.1
    · rw [hstarted, hvisible]
      rfl

/-- Every turn returns, and returns the same whichever end of the stream its `select` sees first, exactly
    when it is not a control turn that got a new id and nothing else. -/
theorem outcome_schedule_free_iff (args : TurnArgs) (sessionID : Bytes) (reply : Reply)
    (results : List LineResult) (err : Option StreamCause) :
    (∃ outcome, commitSessionChunkTurn args sessionID reply (closedFirst results err) = some outcome ∧
        ∀ k, commitSessionChunkTurn args sessionID reply (doneFirst k results err) = some outcome) ↔
      ¬ (trimSpace sessionID ≠ [] ∧ reply = .stream ∧ SilentControl args results) := by
  by_cases hsession : trimSpace sessionID = []
  · simp only [commitSessionChunkTurn, if_pos hsession]
    exact iff_of_true ⟨_, rfl, fun _ => rfl⟩ (fun h => h.1 hsession)
  simp only [commitSessionChunkTurn, if_neg hsession]
  cases reply with
  | stream =>
    simp only [listen_closedFirst, listen_doneFirst, silentControl_iff, ne_eq, hsession, not_false_eq_true, true_and]
    cases hear args {} results with
    | answer a => exact iff_of_true ⟨a, rfl, fun _ => rfl⟩ (fun h => by obtain ⟨t, ht, -⟩ := h; cases ht)
    | wait t =>
      have hends := ends_agree_iff args (t.mark err)
      constructor
      · rintro ⟨outcome, h₁, h₂⟩ ⟨u, hu, hcase⟩
        cases hu
        have heq : endDone args (t.mark err) = endClosed args (t.mark err) :=
          Option.some.inj (h₁.trans (h₂ 0).symm)
        exact hends.mp heq hcase
      · intro h
        have heq := hends.mpr fun hcase => h ⟨t, rfl, hcase⟩
        exact ⟨_, rfl, fun _ => congrArg some heq.symm⟩
  | powFailed => exact iff_of_true ⟨_, rfl, fun _ => rfl⟩ (fun h => by cases h.2.1)
  | callFailed => exact iff_of_true ⟨_, rfl, fun _ => rfl⟩ (fun h => by cases h.2.1)
  | noResponse => exact iff_of_true ⟨_, rfl, fun _ => rfl⟩ (fun h => by cases h.2.1)
  | failed status body => exact iff_of_true ⟨_, rfl, fun _ => rfl⟩ (fun h => by cases h.2.1)
  | noBody => exact iff_of_true ⟨_, rfl, fun _ => rfl⟩ (fun h => by cases h.2.1)

/-- A probe whose answer breaks off behind the id of its message: it is committed or not, as the `select`
    has it. -/
theorem probe_outcome_by_chance :
    startParsedLinePump wholeNumbers wholeText true .thinking
        [.line (lit "data: \x7b\"response_message_id\":8\x7d\n")] none =
        some ([chunkResult 8 []], some .unexpectedEOF) ∧
      commitSessionChunkTurn ⟨7, true, lit "probe"⟩ (lit "session") .stream
        (closedFirst [chunkResult 8 []] (some (.stream .unexpectedEOF))) = some (.ok 8) ∧
      commitSessionChunkTurn ⟨7, true, lit "probe"⟩ (lit "session") .stream
        (doneFirst 1 [chunkResult 8 []] (some (.stream .unexpectedEOF))) =
          some (.error (.uncommitted ⟨endedEarly, .eof, 8, false, some (.stream .unexpectedEOF)⟩)) :=
  ⟨by decide +kernel, rfl, rfl⟩

end DeepSeekWebToApi.Shared
