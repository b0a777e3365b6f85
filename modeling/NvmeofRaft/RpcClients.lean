import Mathlib.Data.Nat.Bitwise
import Mathlib.Logic.Function.Basic
import NvmeofRaft.GuardedRun

namespace NvmeofRaft

/-!
# Calls to one peer

`RpcRaftTransport::call_peer` (`raft_rpc_clients.cpp`) over an `RpcConn`
(`raft_rpc_conn.h`).  Any number of threads share the cached connection of a
peer; `call_mu` serialises their invocations, and a thread whose invocation
threw drops the connection from the cache in another lock.
-/

/-- The method and the serialised message of a call. -/
structure RpcRequest where
  method : List UInt8
  body : List UInt8
  deriving Repr, DecidableEq

/-- The method has a name, and both lengths fit their fields on the wire. -/
structure RpcRequest.Fits (request : RpcRequest) : Prop where
  named : 1 ≤ request.method.length
  method : request.method.length ≤ 65535
  body : request.body.length < 2 ^ 32

/-- What the dispatcher of a server makes of a request. -/
structure RpcAnswer where
  error : List UInt8 := []
  body : List UInt8
  deriving Repr, DecidableEq

/-- How an invocation goes on. -/
inductive Progress (Call : Type) where
  | running (call : Call)
  | returned (body : List UInt8)
  /--
  The invocation threw; `settled` says whether it had read its whole answer,
  or had not sent its request.
  -/
  | threw (settled : Bool)
  deriving Repr, DecidableEq

/--
`RpcConn`: a dialled connection with the server at its other end.  An
invocation and the network take their steps in turn.  The last two fields are
histories: the requests that have been sent, and the ones the server has
answered, with its answers.
-/
structure RpcConn where
  State : Type
  Call : Type
  Action : Type
  Event : Type
  dialed : State
  /-- The invocation has taken `call_mu`. -/
  invoke : State → RpcRequest → State × Call
  advance : State → Call → Action → Option (State × Progress Call)
  happen : State → Event → Option State
  sent : State → List RpcRequest
  served : State → List (RpcRequest × RpcAnswer)

/--
A connection with the thread that holds its `call_mu`.  `abandoned` is
history: an invocation has left the connection without its whole answer.
-/
structure Channel (conn : RpcConn) where
  state : conn.State
  holder : Option Nat := none
  abandoned : Bool := false

/-- Where a thread is in `call_peer`. -/
inductive CallerPhase (conn : RpcConn) where
  | idle
  | dialing (request : { request : RpcRequest // request.Fits })
  | waiting (index : Nat) (request : { request : RpcRequest // request.Fits })
  /-- The invocation sends the request with this number on its connection. -/
  | invoking (index number : Nat) (request : RpcRequest) (call : conn.Call)
  | failed (index : Nat)

/-- A body that an invocation has returned. -/
structure CallResult where
  index : Nat
  number : Nat
  request : RpcRequest
  body : List UInt8
  deriving Repr, DecidableEq

/-- The connections to a peer, the cached one, and the threads that call it. -/
structure PeerLink (conn : RpcConn) where
  cached : Option Nat := none
  channels : List (Channel conn) := []
  callers : Nat → CallerPhase conn := fun _ => .idle
  results : List CallResult := []

/-- What happens next on the way to a peer. -/
inductive LinkAct (conn : RpcConn) where
  /-- A thread reads the cached state; `backoff` answers its clock test. -/
  | call (caller : Nat) (request : { request : RpcRequest // request.Fits })
      (backoff : Bool)
  | dialed (caller : Nat) (connected : Bool)
  | lock (caller : Nat)
  | advance (caller : Nat) (action : conn.Action)
  | invalidate (caller : Nat)
  | event (index : Nat) (event : conn.Event)

namespace PeerLink

variable {conn : RpcConn}

/-- Continue a thread. -/
def setCaller
    (link : PeerLink conn)
    (caller : Nat)
    (phase : CallerPhase conn) :
    PeerLink conn :=
  { link with callers := Function.update link.callers caller phase }

/-- Change a connection. -/
def setChannel
    (link : PeerLink conn)
    (index : Nat)
    (channel : Channel conn) :
    PeerLink conn :=
  { link with channels := link.channels.set index channel }

/-- The lock section that reads the cached connection. -/
def stepCall
    (link : PeerLink conn)
    (caller : Nat)
    (request : { request : RpcRequest // request.Fits })
    (backoff : Bool) :
    PeerLink conn :=
  match link.cached with
  | some index => link.setCaller caller (.waiting index request)
  | none =>
      if backoff then
        link
      else
        link.setCaller caller (.dialing request)

/--
The lock section after a dial.  A thread that comes second uses the connection
of the first and drops its own.
-/
def stepDialed
    (link : PeerLink conn)
    (caller : Nat)
    (request : { request : RpcRequest // request.Fits })
    (connected : Bool) :
    PeerLink conn :=
  if connected then
    match link.cached with
    | some index => link.setCaller caller (.waiting index request)
    | none =>
        let dialed : PeerLink conn := { link with
          cached := some link.channels.length
          channels := link.channels ++ [{ state := conn.dialed }] }
        dialed.setCaller caller (.waiting link.channels.length request)
  else
    link.setCaller caller .idle

/-- The thread takes `call_mu`, when it is free. -/
def stepLock
    (link : PeerLink conn)
    (caller index : Nat)
    (request : { request : RpcRequest // request.Fits })
    (channel : Channel conn) :
    Option (PeerLink conn) :=
  match channel.holder with
  | some _ => none
  | none =>
      let invoked := conn.invoke channel.state request
      some ((link.setChannel index
          { channel with state := invoked.1, holder := some caller }).setCaller
        caller (.invoking index (conn.sent channel.state).length request
          invoked.2))

/-- A step of an invocation, which releases `call_mu` when it ends. -/
def stepInvoke
    (link : PeerLink conn)
    (caller index number : Nat)
    (request : RpcRequest)
    (channel : Channel conn)
    (after : conn.State) :
    Progress conn.Call → PeerLink conn
  | .running call =>
      (link.setChannel index { channel with state := after }).setCaller caller
        (.invoking index number request call)
  | .returned body =>
      { (link.setChannel index
          { channel with state := after, holder := none }).setCaller caller
            .idle with
        results := { index, number, request, body } :: link.results }
  | .threw settled =>
      (link.setChannel index
        { state := after
          holder := none
          abandoned := channel.abandoned || !settled }).setCaller caller
            (.failed index)

/-- The lock section that drops a failed connection, if it is still cached. -/
def stepInvalidate
    (link : PeerLink conn)
    (caller index : Nat) :
    PeerLink conn :=
  let dropped : PeerLink conn := { link with
    cached := if link.cached = some index then none else link.cached }
  dropped.setCaller caller .idle

/-- One step; `none` when it is not possible. -/
def step
    (link : PeerLink conn)
    (act : LinkAct conn) :
    Option (PeerLink conn) :=
  match act with
  | .call caller request backoff =>
      match link.callers caller with
      | .idle => some (link.stepCall caller request backoff)
      | _ => none
  | .dialed caller connected =>
      match link.callers caller with
      | .dialing request => some (link.stepDialed caller request connected)
      | _ => none
  | .lock caller =>
      match link.callers caller with
      | .waiting index request =>
          (link.channels[index]?).bind fun channel =>
            link.stepLock caller index request channel
      | _ => none
  | .advance caller action =>
      match link.callers caller with
      | .invoking index number request call =>
          (link.channels[index]?).bind fun channel =>
            (conn.advance channel.state call action).map fun moved =>
              link.stepInvoke caller index number request channel moved.1
                moved.2
      | _ => none
  | .invalidate caller =>
      match link.callers caller with
      | .failed index => some (link.stepInvalidate caller index)
      | _ => none
  | .event index event =>
      (link.channels[index]?).bind fun channel =>
        (conn.happen channel.state event).map fun after =>
          link.setChannel index { channel with state := after }

end PeerLink

/-- The body is the server's answer to the request of this very invocation. -/
def CallResult.Paired
    {conn : RpcConn}
    (channels : List (Channel conn))
    (result : CallResult) : Prop :=
  ∃ channel answer,
    channels[result.index]? = some channel ∧
      (conn.served channel.state)[result.number]? =
          some (result.request, answer) ∧
        answer.error = [] ∧ answer.body = result.body

/--
An invocation starts only on a connection on which every earlier invocation
has read its whole answer.
-/
def PeerLink.settled
    {conn : RpcConn}
    (link : PeerLink conn) :
    LinkAct conn → Bool
  | .lock caller =>
      match link.callers caller with
      | .waiting index _ =>
          (link.channels[index]?).all fun channel => !channel.abandoned
      | _ => true
  | _ => true

/--
What a step of an invocation leads to.  Only one that has its answer, or sent
nothing, leaves the connection aligned.
-/
def Progress.Leads
    {Call : Type}
    (Aligned : Prop)
    (InCall : Call → Prop)
    (Answered : List UInt8 → Prop) :
    Progress Call → Prop
  | .running call => InCall call
  | .returned body => Aligned ∧ Answered body
  | .threw settled => settled = true → Aligned

/--
Why the answers of a connection go to the requests they belong to: what holds
between two invocations and what holds during one, as long as no invocation
has left without its answer.
-/
structure RpcConn.Lawful (conn : RpcConn) where
  Aligned : conn.State → Prop
  InCall : conn.State → Nat → RpcRequest → conn.Call → Prop
  dialed : Aligned conn.dialed
  invoke :
    ∀ {state : conn.State} {request : RpcRequest},
      Aligned state →
      request.Fits →
      InCall (conn.invoke state request).1 (conn.sent state).length request
        (conn.invoke state request).2
  advance :
    ∀ {state after : conn.State} {number : Nat} {request : RpcRequest}
      {call : conn.Call} {action : conn.Action}
      {progress : Progress conn.Call},
      InCall state number request call →
      conn.advance state call action = some (after, progress) →
      progress.Leads (Aligned after) (InCall after number request)
        (fun body => (conn.served after)[number]? = some (request, { body }))
  idle :
    ∀ {state after : conn.State} {event : conn.Event},
      Aligned state →
      conn.happen state event = some after →
      Aligned after
  busy :
    ∀ {state after : conn.State} {event : conn.Event} {number : Nat}
      {request : RpcRequest} {call : conn.Call},
      InCall state number request call →
      conn.happen state event = some after →
      InCall after number request call
  servedInvoke :
    ∀ (state : conn.State) (request : RpcRequest),
      conn.served (conn.invoke state request).1 = conn.served state
  servedAdvance :
    ∀ {state after : conn.State} {call : conn.Call} {action : conn.Action}
      {progress : Progress conn.Call},
      conn.advance state call action = some (after, progress) →
      conn.served after = conn.served state
  servedHappen :
    ∀ {state after : conn.State} {event : conn.Event},
      conn.happen state event = some after →
      conn.served state <+: conn.served after

section

variable {conn : RpcConn} {lawful : conn.Lawful}
variable {channels : List (Channel conn)}
variable {callers : Nat → CallerPhase conn}
variable {results : List CallResult}

/-- The channels, the threads and the returned bodies belong together. -/
structure LinkSound
    (lawful : conn.Lawful)
    (channels : List (Channel conn))
    (callers : Nat → CallerPhase conn)
    (results : List CallResult) : Prop where
  /-- An invocation holds the `call_mu` of its connection. -/
  invoking :
    ∀ caller index number request call,
      callers caller = .invoking index number request call →
      ∃ channel,
        channels[index]? = some channel ∧
          channel.holder = some caller ∧
            channel.abandoned = false ∧
              lawful.InCall channel.state number request call
  free :
    ∀ (index : Nat) (channel : Channel conn),
      channels[index]? = some channel →
      channel.holder = none →
      channel.abandoned = false →
      lawful.Aligned channel.state
  paired : ∀ result ∈ results, result.Paired channels

theorem CallResult.Paired.set
    {result : CallResult}
    {index : Nat}
    {channel after : Channel conn}
    (paired : result.Paired channels)
    (found : channels[index]? = some channel)
    (grown : conn.served channel.state <+: conn.served after.state) :
    result.Paired (channels.set index after) := by
  obtain ⟨old, answer, held, served, error, body⟩ := paired
  by_cases same : result.index = index
  · rw [same, found, Option.some.injEq] at held
    refine ⟨after, answer, ?_, ?_, error, body⟩
    · rw [same, List.getElem?_set_self (List.getElem?_eq_some_iff.mp found).1]
    · rw [held] at grown
      obtain ⟨more, longer⟩ := grown
      rw [← longer, List.getElem?_append_left
        (List.getElem?_eq_some_iff.mp served).1]
      exact served
  · refine ⟨old, answer, ?_, served, error, body⟩
    rw [List.getElem?_set_ne (Ne.symm same)]
    exact held

/-- A thread that is not in an invocation may do as it likes. -/
theorem LinkSound.setCaller
    (sound : LinkSound lawful channels callers results)
    (caller : Nat)
    {phase : CallerPhase conn}
    (quiet : ∀ index number request call,
      phase ≠ .invoking index number request call) :
    LinkSound lawful channels (Function.update callers caller phase)
      results where
  invoking := by
    intro other index number request call invokes
    by_cases same : other = caller
    · rw [same, Function.update_self] at invokes
      exact absurd invokes (quiet _ _ _ _)
    · rw [Function.update_of_ne same] at invokes
      exact sound.invoking _ _ _ _ _ invokes
  free := sound.free
  paired := sound.paired

/-- A new connection is aligned. -/
theorem LinkSound.dial
    (sound : LinkSound lawful channels callers results) :
    LinkSound lawful (channels ++ [{ state := conn.dialed }]) callers
      results where
  invoking := by
    intro caller index number request call invokes
    obtain ⟨channel, found, rest⟩ := sound.invoking _ _ _ _ _ invokes
    exact ⟨channel, (List.getElem?_append_left
      (List.getElem?_eq_some_iff.mp found).1).trans found, rest⟩
  free := by
    intro index channel found holder whole
    rcases Nat.lt_or_ge index channels.length with old | new
    · rw [List.getElem?_append_left old] at found
      exact sound.free _ _ found holder whole
    · rw [List.getElem?_append_right new] at found
      have last := List.mem_of_getElem? found
      rw [List.mem_singleton.mp last]
      exact lawful.dialed
  paired := by
    intro result held
    obtain ⟨channel, answer, found, rest⟩ := sound.paired _ held
    exact ⟨channel, answer, (List.getElem?_append_left
      (List.getElem?_eq_some_iff.mp found).1).trans found, rest⟩

/-- A change of one connection, by the only thread that may be on it. -/
theorem LinkSound.setChannel
    (sound : LinkSound lawful channels callers results)
    {index : Nat}
    {channel after : Channel conn}
    {later : Nat → CallerPhase conn}
    (found : channels[index]? = some channel)
    (grown : conn.served channel.state <+: conn.served after.state)
    (others :
      ∀ caller other number request call,
        later caller = .invoking other number request call →
        other ≠ index →
        callers caller = .invoking other number request call)
    (own :
      ∀ caller number request call,
        later caller = .invoking index number request call →
        after.holder = some caller ∧
          after.abandoned = false ∧
            lawful.InCall after.state number request call)
    (rests :
      after.holder = none →
      after.abandoned = false →
      lawful.Aligned after.state) :
    LinkSound lawful (channels.set index after) later results where
  invoking := by
    intro caller other number request call invokes
    by_cases same : other = index
    · subst same
      obtain ⟨holder, whole, inCall⟩ := own _ _ _ _ invokes
      exact ⟨after,
        List.getElem?_set_self (List.getElem?_eq_some_iff.mp found).1,
        holder, whole, inCall⟩
    · obtain ⟨old, held, rest⟩ :=
        sound.invoking _ _ _ _ _ (others _ _ _ _ _ invokes same)
      exact ⟨old, (List.getElem?_set_ne (Ne.symm same)).trans held, rest⟩
  free := by
    intro other old held holder whole
    by_cases same : other = index
    · subst same
      rw [List.getElem?_set_self (List.getElem?_eq_some_iff.mp found).1,
        Option.some.injEq] at held
      subst held
      exact rests holder whole
    · rw [List.getElem?_set_ne (Ne.symm same)] at held
      exact sound.free _ _ held holder whole
  paired := fun result held => (sound.paired result held).set found grown

/-- Only the holder of `call_mu` is in an invocation on the connection. -/
theorem LinkSound.only
    (sound : LinkSound lawful channels callers results)
    {index number : Nat}
    {channel : Channel conn}
    {caller : Nat}
    {request : RpcRequest}
    {call : conn.Call}
    (found : channels[index]? = some channel)
    (invokes : callers caller = .invoking index number request call) :
    channel.holder = some caller ∧
      channel.abandoned = false ∧
        lawful.InCall channel.state number request call := by
  obtain ⟨other, held, rest⟩ := sound.invoking _ _ _ _ _ invokes
  rw [found, Option.some.injEq] at held
  subst held
  exact rest

/-- The threads that a change of one thread leaves alone. -/
theorem invoking_of_update
    {caller other index number : Nat}
    {phase : CallerPhase conn}
    {request : RpcRequest}
    {call : conn.Call}
    (invokes :
      Function.update callers caller phase other =
        .invoking index number request call)
    (different : phase ≠ .invoking index number request call) :
    other ≠ caller ∧
      callers other = .invoking index number request call := by
  by_cases same : other = caller
  · rw [same, Function.update_self] at invokes
    exact absurd invokes different
  · rw [Function.update_of_ne same] at invokes
    exact ⟨same, invokes⟩

theorem LinkSound.lock
    (sound : LinkSound lawful channels callers results)
    {caller index : Nat}
    {channel : Channel conn}
    {request : { request : RpcRequest // request.Fits }}
    (found : channels[index]? = some channel)
    (released : channel.holder = none)
    (whole : channel.abandoned = false) :
    LinkSound lawful
      (channels.set index
        { channel with
          state := (conn.invoke channel.state request).1
          holder := some caller })
      (Function.update callers caller
        (.invoking index (conn.sent channel.state).length request
          (conn.invoke channel.state request).2)) results := by
  have started := lawful.invoke (sound.free _ _ found released whole)
    request.property
  have same := lawful.servedInvoke channel.state request
  refine sound.setChannel found
    ⟨[], (List.append_nil _).trans same.symm⟩ ?_ ?_ ?_
  · intro other index' number request' call invokes elsewhere
    refine (invoking_of_update invokes ?_).2
    rintro ⟨⟩
    exact elsewhere rfl
  · intro other number request' call invokes
    by_cases same : other = caller
    · subst same
      rw [Function.update_self] at invokes
      cases invokes
      exact ⟨rfl, whole, started⟩
    · rw [Function.update_of_ne same] at invokes
      obtain ⟨holder, -⟩ := sound.only found invokes
      rw [released] at holder
      cases holder
  · rintro ⟨⟩

theorem LinkSound.event
    (sound : LinkSound lawful channels callers results)
    {index : Nat}
    {channel : Channel conn}
    {event : conn.Event}
    {after : conn.State}
    (found : channels[index]? = some channel)
    (happened : conn.happen channel.state event = some after) :
    LinkSound lawful
      (channels.set index { channel with state := after }) callers
      results := by
  refine sound.setChannel found (lawful.servedHappen happened) ?_ ?_ ?_
  · exact fun _ _ _ _ _ invokes _ => invokes
  · intro caller number request call invokes
    obtain ⟨holder, whole, inCall⟩ := sound.only found invokes
    exact ⟨holder, whole, lawful.busy inCall happened⟩
  · intro released whole
    exact lawful.idle (sound.free _ _ found released whole) happened

theorem LinkSound.advance
    (sound : LinkSound lawful channels callers results)
    {link : PeerLink conn}
    {caller index number : Nat}
    {channel : Channel conn}
    {request : RpcRequest}
    {call : conn.Call}
    {action : conn.Action}
    {after : conn.State}
    {progress : Progress conn.Call}
    (sameChannels : link.channels = channels)
    (sameCallers : link.callers = callers)
    (sameResults : link.results = results)
    (found : channels[index]? = some channel)
    (invokes : callers caller = .invoking index number request call)
    (moved : conn.advance channel.state call action = some (after, progress)) :
    LinkSound lawful
      (link.stepInvoke caller index number request channel after
        progress).channels
      (link.stepInvoke caller index number request channel after
        progress).callers
      (link.stepInvoke caller index number request channel after
        progress).results := by
  subst sameChannels sameCallers sameResults
  obtain ⟨holder, whole, inCall⟩ := sound.only found invokes
  have leads := lawful.advance inCall moved
  have grown : conn.served channel.state <+: conn.served after :=
    ⟨[], (List.append_nil _).trans (lawful.servedAdvance moved).symm⟩
  -- Nobody else is in an invocation on the connection.
  have alone :
      ∀ other number' request' call',
        link.callers other = .invoking index number' request' call' →
        other = caller := by
    intro other number' request' call' also
    have others := (sound.only found also).1
    rw [holder, Option.some.injEq] at others
    exact others.symm
  cases progress with
  | running later =>
      simp only [PeerLink.stepInvoke, PeerLink.setCaller,
        PeerLink.setChannel]
      refine sound.setChannel found grown ?_ ?_ ?_
      · intro other index' number' request' call' invokes elsewhere
        refine (invoking_of_update invokes ?_).2
        rintro ⟨⟩
        exact elsewhere rfl
      · intro other number' request' call' also
        by_cases own : other = caller
        · subst own
          rw [Function.update_self] at also
          cases also
          exact ⟨holder, whole, leads⟩
        · rw [Function.update_of_ne own] at also
          exact absurd (alone _ _ _ _ also) own
      · intro released
        rw [holder] at released
        cases released
  | returned body =>
      obtain ⟨aligned, answered⟩ := leads
      have kept :
          LinkSound lawful
            (link.channels.set index
              { channel with state := after, holder := none })
            (Function.update link.callers caller .idle) link.results := by
        refine sound.setChannel found grown ?_ ?_ ?_
        · intro other index' number' request' call' invokes elsewhere
          exact (invoking_of_update invokes (by rintro ⟨⟩)).2
        · intro other number' request' call' also
          obtain ⟨other, also⟩ := invoking_of_update also (by rintro ⟨⟩)
          exact absurd (alone _ _ _ _ also) other
        · exact fun _ _ => aligned
      refine ⟨kept.invoking, kept.free, ?_⟩
      intro result held
      rcases List.mem_cons.mp held with rfl | old
      · exact ⟨_, { body }, List.getElem?_set_self
          (List.getElem?_eq_some_iff.mp found).1, answered, rfl, rfl⟩
      · exact kept.paired result old
  | threw settled =>
      refine sound.setChannel found grown ?_ ?_ ?_
      · intro other index' number' request' call' invokes elsewhere
        exact (invoking_of_update invokes (by rintro ⟨⟩)).2
      · intro other number' request' call' also
        obtain ⟨other, also⟩ := invoking_of_update also (by rintro ⟨⟩)
        exact absurd (alone _ _ _ _ also) other
      · intro _ kept
        have complete : settled = true := by
          simpa [whole] using kept
        exact leads complete

/-- An allowed step keeps connections, threads and results together. -/
theorem PeerLink.step_sound
    {link next : PeerLink conn}
    {act : LinkAct conn}
    (sound : LinkSound lawful link.channels link.callers link.results)
    (allowed : link.settled act = true)
    (stepped : link.step act = some next) :
    LinkSound lawful next.channels next.callers next.results := by
  cases act with
  | call caller request backoff =>
      simp only [PeerLink.step] at stepped
      split at stepped
      · cases stepped
        unfold PeerLink.stepCall
        split
        · exact sound.setCaller caller (by rintro _ _ _ _ ⟨⟩)
        · split
          · exact sound
          · exact sound.setCaller caller (by rintro _ _ _ _ ⟨⟩)
      · cases stepped
  | dialed caller connected =>
      simp only [PeerLink.step] at stepped
      split at stepped
      · cases stepped
        unfold PeerLink.stepDialed
        split
        · split
          · exact sound.setCaller caller (by rintro _ _ _ _ ⟨⟩)
          · exact sound.dial.setCaller caller (by rintro _ _ _ _ ⟨⟩)
        · exact sound.setCaller caller (by rintro _ _ _ _ ⟨⟩)
      · cases stepped
  | lock caller =>
      simp only [PeerLink.step] at stepped
      split at stepped
      · rename_i index request waits
        obtain ⟨channel, found, stepped⟩ := Option.bind_eq_some_iff.mp stepped
        simp only [PeerLink.settled, waits, found, Option.all_some,
          Bool.not_eq_true'] at allowed
        unfold PeerLink.stepLock at stepped
        split at stepped
        · cases stepped
        · rename_i released
          cases stepped
          exact sound.lock found released allowed
      · cases stepped
  | advance caller action =>
      simp only [PeerLink.step] at stepped
      split at stepped
      · rename_i index number request call invokes
        obtain ⟨channel, found, stepped⟩ := Option.bind_eq_some_iff.mp stepped
        obtain ⟨⟨after, progress⟩, moved, rfl⟩ :=
          Option.map_eq_some_iff.mp stepped
        exact sound.advance rfl rfl rfl found invokes moved
      · cases stepped
  | invalidate caller =>
      simp only [PeerLink.step] at stepped
      split at stepped
      · cases stepped
        exact sound.setCaller caller (by rintro _ _ _ _ ⟨⟩)
      · cases stepped
  | event index event =>
      obtain ⟨channel, found, stepped⟩ := Option.bind_eq_some_iff.mp stepped
      obtain ⟨after, happened, rfl⟩ := Option.map_eq_some_iff.mp stepped
      exact sound.event found happened

/-- Over a lawful connection, allowed runs pair every answer. -/
theorem PeerLink.run_paired
    (lawful : conn.Lawful)
    {acts : List (LinkAct conn)}
    {link : PeerLink conn}
    (run : runWhile PeerLink.settled PeerLink.step {} acts = some link) :
    ∀ result ∈ link.results, result.Paired link.channels := by
  have sound : LinkSound lawful link.channels link.callers link.results :=
    runWhile_invariant
      (fun link : PeerLink conn =>
        LinkSound lawful link.channels link.callers link.results)
      (fun _ _ _ sound allowed stepped => PeerLink.step_sound sound allowed stepped)
      (by
        refine ⟨?_, ?_, ?_⟩
        · rintro _ _ _ _ _ ⟨⟩
        · rintro _ _ ⟨⟩
        · rintro _ ⟨⟩)
      run
  exact sound.paired

end

end NvmeofRaft
