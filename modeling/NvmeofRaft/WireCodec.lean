import Mathlib.Data.List.AList
import Mathlib.Data.Nat.Bitwise
import NvmeofRaft.WordBytes

namespace NvmeofRaft

/-!
# TCP frames

`raft_wire_codec.cpp`: requests and responses are written as one buffer each
and read field by field, the body in a second call that finds its length in
the codec.  A read or write call of the kernel moves at least one byte, and
not necessarily all it was asked for.

The host is little-endian, so `memcpy` of a word copies its bytes least
significant first and `htons` and `htonl` reverse them.
-/

/-- The exceptions of the codec. -/
inductive WireExn where
  | writeFailed
  | readFailed
  | methodTooLong
  | errorTooLong
  | emptyMethod
  deriving Repr, DecidableEq

/--
One end of a connection: the bytes it has still to read, the bytes it has
written, and how the coming calls end.  A call moves up to `n + 1` bytes for
`some n` and fails for `none`; once the list is used up, every call moves all
it is asked for.
-/
structure Socket where
  incoming : List UInt8 := []
  outgoing : List UInt8 := []
  calls : List (Option Nat) := []
  deriving Repr, DecidableEq

namespace Socket

/-- How the next call ends when it is asked to move `asked` bytes. -/
def nextCall (socket : Socket) (asked : Nat) : Option Nat :=
  socket.calls.headD (some (asked - 1))

/-- The socket after a call. -/
def passCall (socket : Socket) : Socket :=
  { socket with calls := socket.calls.tail }

/-- No coming call fails. -/
def CallsSucceed (socket : Socket) : Prop :=
  none ∉ socket.calls

instance (socket : Socket) : Decidable socket.CallsSucceed :=
  inferInstanceAs (Decidable (none ∉ socket.calls))

end Socket

/-- `wire_write_all`. -/
def wireWriteAll
    (socket : Socket)
    (bytes : List UInt8) :
    Except WireExn Socket :=
  match bytes with
  | [] =>
      .ok socket
  | first :: others =>
      match socket.nextCall (others.length + 1) with
      | none =>
          .error .writeFailed
      | some more =>
          wireWriteAll
            { socket.passCall with
              outgoing := socket.outgoing ++ first :: others.take more }
            (others.drop more)
termination_by bytes.length

/-- `wire_read_full`. -/
def wireReadFull
    (socket : Socket)
    (len : Nat) :
    Except WireExn (List UInt8 × Socket) :=
  match len with
  | 0 =>
      .ok ([], socket)
  | missing + 1 =>
      match socket.nextCall (missing + 1), socket.incoming with
      | none, _ =>
          .error .readFailed
      | some _, [] =>
          -- The peer has closed the connection.
          .error .readFailed
      | some more, first :: others => do
          let got := others.take (min more missing)
          let (rest, after) ← wireReadFull
            { socket.passCall with incoming := others.drop got.length }
            (missing - got.length)
          return (first :: got ++ rest, after)
termination_by len

/-- `htons`, and `ntohs`, which is the same reversal. -/
def htons (value : Nat) : Nat :=
  reverseBytes 2 value

/-- `htonl`, and `ntohl`. -/
def htonl (value : Nat) : Nat :=
  reverseBytes 4 value

/-- `wire_htobe64`, and `wire_be64toh`, which calls it. -/
def wireHtobe64 (value : Nat) : Nat :=
  let hi := htonl (value >>> 32)
  let lo := htonl (value &&& 0xFFFFFFFF)
  lo <<< 32 ||| hi

/-- The two swapped halves are the whole number in the other byte order. -/
theorem wireHtobe64_eq
    (value : Nat) :
    wireHtobe64 value = reverseBytes 8 value := by
  have highFits : htonl (value >>> 32) < 2 ^ 32 := reverseBytes_lt 4 _
  have lowMask : value &&& 0xFFFFFFFF = value % 256 ^ 4 :=
    Nat.and_two_pow_sub_one_eq_mod value 32
  have low : htonl (value &&& 0xFFFFFFFF) = reverseBytes 4 value := by
    rw [lowMask]
    exact reverseBytes_mod 4 value
  have high : htonl (value >>> 32) = reverseBytes 4 (value / 256 ^ 4) := by
    rw [Nat.shiftRight_eq_div_pow]
    rfl
  unfold wireHtobe64
  dsimp only
  rw [← Nat.shiftLeft_add_eq_or_of_lt highFits, Nat.shiftLeft_eq, low, high,
    reverseBytes_add 4 4 value]
  ring

/-- A 64-bit number survives the way through memory and back. -/
theorem wireHtobe64_of_memory
    {value : Nat}
    (fits : value < 2 ^ 64) :
    wireHtobe64 (ofLeBytes (leBytes 8 (wireHtobe64 value))) = value := by
  rw [wireHtobe64_eq, wireHtobe64_eq]
  exact reverseBytes_of_memory fits

/-- `WireClientCodec`, with `pending_table_` from sequence numbers to methods. -/
structure WireClientCodec where
  socket : Socket := {}
  pendingTable : AList (fun _ : Nat => List UInt8) := ∅
  pendingBodyLen : Nat := 0
  pendingMethod : List UInt8 := []

/-- `WireClientCodec::ResponseHeader`. -/
structure ResponseHeader where
  seq : Nat
  serviceMethod : List UInt8
  error : List UInt8
  deriving Repr, DecidableEq

namespace WireClientCodec

/-- The buffer that `write_request` fills. -/
def requestBuffer
    (serviceMethod : List UInt8)
    (seq : Nat)
    (body : List UInt8) :
    List UInt8 :=
  leBytes 2 (htons serviceMethod.length) ++ serviceMethod ++
    leBytes 8 (wireHtobe64 seq) ++ leBytes 4 (htonl body.length) ++ body

/-- `WireClientCodec::write_request`. -/
def writeRequest
    (codec : WireClientCodec)
    (serviceMethod : List UInt8)
    (seq : Nat)
    (body : List UInt8) :
    Except WireExn WireClientCodec := do
  if 0xFFFF < serviceMethod.length then
    throw .methodTooLong
  let socket ← wireWriteAll codec.socket
    (requestBuffer serviceMethod seq body)
  return { codec with
    socket
    pendingTable := codec.pendingTable.insert seq serviceMethod }

/-- `WireClientCodec::read_response_header`. -/
def readResponseHeader
    (codec : WireClientCodec) :
    Except WireExn (ResponseHeader × WireClientCodec) := do
  let (hdr, socket) ← wireReadFull codec.socket 10
  let seq := wireHtobe64 (ofLeBytes (hdr.take 8))
  let errLen := htons (ofLeBytes (hdr.drop 8))
  let (error, socket) ← wireReadFull socket errLen
  let (bodyLenBuf, socket) ← wireReadFull socket 4
  let method := (codec.pendingTable.lookup seq).getD []
  return ({ seq, serviceMethod := method, error }, { codec with
    socket
    pendingTable := codec.pendingTable.erase seq
    pendingBodyLen := htonl (ofLeBytes bodyLenBuf)
    pendingMethod := method })

/-- `WireClientCodec::read_response_body`. -/
def readResponseBody
    (codec : WireClientCodec) :
    Except WireExn (List UInt8 × WireClientCodec) := do
  let (body, socket) ← wireReadFull codec.socket codec.pendingBodyLen
  return (body, { codec with
    socket
    pendingBodyLen := 0
    pendingMethod := [] })

end WireClientCodec

/-- `WireServerCodec`. -/
structure WireServerCodec where
  socket : Socket := {}
  pendingBodyLen : Nat := 0
  pendingMethod : List UInt8 := []
  deriving Repr, DecidableEq

/-- `WireServerCodec::RequestHeader`. -/
structure RequestHeader where
  serviceMethod : List UInt8
  seq : Nat
  deriving Repr, DecidableEq

namespace WireServerCodec

/-- `WireServerCodec::read_request_header`. -/
def readRequestHeader
    (codec : WireServerCodec) :
    Except WireExn (RequestHeader × WireServerCodec) := do
  let (mlenBuf, socket) ← wireReadFull codec.socket 2
  let mlen := htons (ofLeBytes mlenBuf)
  if mlen = 0 then
    throw .emptyMethod
  let (serviceMethod, socket) ← wireReadFull socket mlen
  let (seqBuf, socket) ← wireReadFull socket 8
  let (bodyLenBuf, socket) ← wireReadFull socket 4
  return ({ serviceMethod, seq := wireHtobe64 (ofLeBytes seqBuf) }, {
    socket
    pendingBodyLen := htonl (ofLeBytes bodyLenBuf)
    pendingMethod := serviceMethod })

/-- `WireServerCodec::read_request_body`. -/
def readRequestBody
    (codec : WireServerCodec) :
    Except WireExn (List UInt8 × WireServerCodec) := do
  let (body, socket) ← wireReadFull codec.socket codec.pendingBodyLen
  return (body, { socket, pendingBodyLen := 0, pendingMethod := [] })

/-- The buffer that `write_response` fills. -/
def responseBuffer
    (seq : Nat)
    (error body : List UInt8) :
    List UInt8 :=
  leBytes 8 (wireHtobe64 seq) ++ leBytes 2 (htons error.length) ++ error ++
    leBytes 4 (htonl body.length) ++ body

/-- `WireServerCodec::write_response`. -/
def writeResponse
    (codec : WireServerCodec)
    (seq : Nat)
    (error body : List UInt8) :
    Except WireExn WireServerCodec := do
  if 0xFFFF < error.length then
    throw .errorTooLong
  let socket ← wireWriteAll codec.socket (responseBuffer seq error body)
  return { codec with socket }

end WireServerCodec

namespace Socket

variable {socket : Socket}

/-- The next call moves some bytes. -/
theorem CallsSucceed.nextCall
    (succeed : socket.CallsSucceed)
    (asked : Nat) :
    ∃ more, socket.nextCall asked = some more := by
  unfold Socket.nextCall
  cases calls : socket.calls with
  | nil =>
      exact ⟨asked - 1, rfl⟩
  | cons call rest =>
      cases call with
      | none =>
          exact (succeed (by rw [calls]; exact List.mem_cons_self)).elim
      | some more =>
          exact ⟨more, rfl⟩

theorem CallsSucceed.passCall
    (succeed : socket.CallsSucceed) :
    socket.passCall.CallsSucceed :=
  fun failed => succeed (List.mem_of_mem_tail failed)

/-- These bytes are still to be read, and no call on the way fails. -/
structure Holds
    (socket : Socket)
    (bytes : List UInt8) : Prop where
  incoming : socket.incoming = bytes
  succeed : socket.CallsSucceed

end Socket

/-- However the calls split it, the whole buffer is written. -/
theorem wireWriteAll_spec
    (socket : Socket)
    (bytes : List UInt8)
    (succeed : socket.CallsSucceed) :
    ∃ calls, none ∉ calls ∧
      wireWriteAll socket bytes =
        .ok { socket with
          outgoing := socket.outgoing ++ bytes
          calls } := by
  fun_induction wireWriteAll socket bytes with
  | case1 socket =>
      exact ⟨socket.calls, succeed, by rw [List.append_nil]⟩
  | case2 socket first others failed =>
      obtain ⟨more, moved⟩ := succeed.nextCall (others.length + 1)
      rw [failed] at moved
      cases moved
  | case3 socket first others more moved inductionHypothesis =>
      obtain ⟨calls, left, written⟩ := inductionHypothesis succeed.passCall
      refine ⟨calls, left, written.trans ?_⟩
      have whole :
          socket.outgoing ++ first :: others.take more ++ others.drop more =
            socket.outgoing ++ first :: others := by
        rw [List.append_assoc, List.cons_append, List.take_append_drop]
      dsimp only [Socket.passCall]
      rw [whole]

/-- However the calls split them, the bytes in front are read. -/
theorem wireReadFull_spec
    (socket : Socket)
    {len : Nat}
    {front rest : List UInt8}
    (width : front.length = len)
    (holds : socket.Holds (front ++ rest)) :
    ∃ after,
      wireReadFull socket len = .ok (front, after) ∧ after.Holds rest := by
  fun_induction wireReadFull socket len generalizing front with
  | case1 socket =>
      have empty : front = [] := List.length_eq_zero_iff.mp width
      subst empty
      exact ⟨socket, rfl, holds⟩
  | case2 socket missing failed =>
      obtain ⟨more, moved⟩ := holds.succeed.nextCall (missing + 1)
      rw [failed] at moved
      cases moved
  | case3 socket missing more closed moved =>
      have empty : front = [] :=
        (List.append_eq_nil_iff.mp (holds.incoming.symm.trans closed)).1
      rw [empty] at width
      cases width
  | case4 socket missing more first others arrived moved got =>
      rename_i inductionHypothesis
      obtain ⟨byte, body, rfl⟩ := List.exists_cons_of_length_eq_add_one width
      have same := arrived.symm.trans holds.incoming
      rw [List.cons_append, List.cons.injEq] at same
      obtain ⟨rfl, rfl⟩ := same
      have bodyLength : body.length = missing := Nat.succ.inj width
      have within : min more missing ≤ body.length := by
        rw [bodyLength]
        exact Nat.min_le_right more missing
      -- One call reads the front of the body, the later ones the rest of it.
      have gotEq : got = body.take (min more missing) :=
        List.take_append_of_le_length within
      have gotLength : got.length = min more missing := by
        rw [gotEq, List.length_take, Nat.min_eq_left within]
      have whole : got ++ body.drop got.length = body := by
        rw [gotLength, gotEq, List.take_append_drop]
      have restLength :
          (body.drop got.length).length = missing - got.length := by
        rw [List.length_drop, bodyLength]
      obtain ⟨after, read, left⟩ :=
        inductionHypothesis restLength
          ⟨List.drop_append_of_le_length (by rwa [gotLength]),
            holds.succeed.passCall⟩
      refine ⟨after, ?_, left⟩
      rw [read]
      show Except.ok (first :: got ++ body.drop got.length, after) = _
      rw [List.cons_append, whole]

/-- Reading leaves what has been written. -/
theorem wireReadFull_outgoing
    {socket after : Socket}
    {len : Nat}
    {front : List UInt8}
    (read : wireReadFull socket len = .ok (front, after)) :
    after.outgoing = socket.outgoing := by
  fun_induction wireReadFull socket len generalizing front after with
  | case1 socket =>
      cases read
      rfl
  | case2 socket missing failed =>
      cases read
  | case3 socket missing more closed moved =>
      cases read
  | case4 socket missing more first others arrived moved got =>
      rename_i inductionHypothesis
      revert read
      cases rest :
          wireReadFull
            { socket.passCall with incoming := others.drop got.length }
            (missing - got.length) with
      | error failure =>
          intro read
          cases read
      | ok result =>
          intro read
          cases read
          exact inductionHypothesis rest

/-- A request, as the caller gives it and as the server gets it. -/
structure WireRequest where
  serviceMethod : List UInt8
  seq : Nat
  body : List UInt8
  deriving Repr, DecidableEq

/-- The lengths and the number fit their fields. -/
structure WireRequest.Fits (request : WireRequest) : Prop where
  named : 1 ≤ request.serviceMethod.length
  method : request.serviceMethod.length ≤ 65535
  seq : request.seq < 2 ^ 64
  body : request.body.length < 2 ^ 32

/-- A response, as the server gives it and as the caller gets it. -/
structure WireResponse where
  seq : Nat
  error : List UInt8
  body : List UInt8
  deriving Repr, DecidableEq

/-- The lengths and the number fit their fields. -/
structure WireResponse.Fits (response : WireResponse) : Prop where
  seq : response.seq < 2 ^ 64
  error : response.error.length ≤ 65535
  body : response.body.length < 2 ^ 32

/-- The bytes of a request on the wire. -/
def WireRequest.bytes (request : WireRequest) : List UInt8 :=
  WireClientCodec.requestBuffer request.serviceMethod request.seq request.body

/-- The bytes of a response on the wire. -/
def WireResponse.bytes (response : WireResponse) : List UInt8 :=
  WireServerCodec.responseBuffer response.seq response.error response.body

/-- The header and then the body, as the server reads a request. -/
def WireServerCodec.readRequest
    (codec : WireServerCodec) :
    Except WireExn (WireRequest × WireServerCodec) := do
  let (hdr, codec) ← codec.readRequestHeader
  let (body, codec) ← codec.readRequestBody
  return ({ serviceMethod := hdr.serviceMethod, seq := hdr.seq, body }, codec)

/-- The header and then the body, as the client reads a response. -/
def WireClientCodec.readResponse
    (codec : WireClientCodec) :
    Except WireExn (WireResponse × WireClientCodec) := do
  let (hdr, codec) ← codec.readResponseHeader
  let (body, codec) ← codec.readResponseBody
  return ({ seq := hdr.seq, error := hdr.error, body }, codec)

/-- A request in front of the stream is read, and only the reading side moves. -/
theorem readRequest_leaves
    {codec : WireServerCodec}
    {request : WireRequest}
    {rest : List UInt8}
    (fits : request.Fits)
    (holds : codec.socket.Holds (request.bytes ++ rest)) :
    ∃ after,
      codec.readRequest = .ok (request, after) ∧
        after.socket.Holds rest ∧
          after.socket.outgoing = codec.socket.outgoing := by
  have mlen :
      htons (ofLeBytes (leBytes 2 (htons request.serviceMethod.length))) =
        request.serviceMethod.length :=
    reverseBytes_of_memory (Nat.lt_succ_of_le fits.method)
  have bodyLen :
      htonl (ofLeBytes (leBytes 4 (htonl request.body.length))) =
        request.body.length :=
    reverseBytes_of_memory fits.body
  have named : request.serviceMethod.length ≠ 0 := Nat.ne_of_gt fits.named
  simp only [WireRequest.bytes, WireClientCodec.requestBuffer,
    List.append_assoc] at holds
  obtain ⟨afterLen, readLen, holds⟩ :=
    wireReadFull_spec _ (length_leBytes 2 _) holds
  obtain ⟨afterMethod, readMethod, holds⟩ := wireReadFull_spec _ rfl holds
  obtain ⟨afterSeq, readSeq, holds⟩ :=
    wireReadFull_spec _ (length_leBytes 8 _) holds
  obtain ⟨afterHeader, readBodyLen, holds⟩ :=
    wireReadFull_spec _ (length_leBytes 4 _) holds
  obtain ⟨afterBody, readBody, holds⟩ := wireReadFull_spec _ rfl holds
  refine ⟨{ socket := afterBody }, ?_, holds, ?_⟩
  · simp only [WireServerCodec.readRequest,
      WireServerCodec.readRequestHeader, WireServerCodec.readRequestBody,
      bind, Except.bind, pure, Except.pure, readLen, mlen, named, if_false,
      readMethod, readSeq, readBodyLen, bodyLen, readBody,
      wireHtobe64_of_memory fits.seq]
  · rw [wireReadFull_outgoing readBody, wireReadFull_outgoing readBodyLen,
      wireReadFull_outgoing readSeq, wireReadFull_outgoing readMethod,
      wireReadFull_outgoing readLen]

/-- A request in front of the stream is read, and nothing behind it. -/
theorem readRequest_spec
    {codec : WireServerCodec}
    {request : WireRequest}
    {rest : List UInt8}
    (fits : request.Fits)
    (holds : codec.socket.Holds (request.bytes ++ rest)) :
    ∃ after,
      codec.readRequest = .ok (request, after) ∧ after.socket.Holds rest := by
  obtain ⟨after, read, left, -⟩ := readRequest_leaves fits holds
  exact ⟨after, read, left⟩

/-- A header in front of the stream is read, and its body is left. -/
theorem readResponseHeader_spec
    {codec : WireClientCodec}
    {response : WireResponse}
    {rest : List UInt8}
    (fits : response.Fits)
    (holds : codec.socket.Holds (response.bytes ++ rest)) :
    ∃ hdr after,
      codec.readResponseHeader = .ok (hdr, after) ∧
        hdr.seq = response.seq ∧
          hdr.error = response.error ∧
            after.pendingBodyLen = response.body.length ∧
              after.socket.Holds (response.body ++ rest) ∧
                after.socket.outgoing = codec.socket.outgoing := by
  have errLen :
      htons (ofLeBytes (leBytes 2 (htons response.error.length))) =
        response.error.length :=
    reverseBytes_of_memory (Nat.lt_succ_of_le fits.error)
  have bodyLen :
      htonl (ofLeBytes (leBytes 4 (htonl response.body.length))) =
        response.body.length :=
    reverseBytes_of_memory fits.body
  -- Sequence number and error length are read in one call.
  have header :
      response.bytes ++ rest =
        (leBytes 8 (wireHtobe64 response.seq) ++
            leBytes 2 (htons response.error.length)) ++
          (response.error ++ (leBytes 4 (htonl response.body.length) ++
            (response.body ++ rest))) := by
    simp only [WireResponse.bytes, WireServerCodec.responseBuffer,
      List.append_assoc]
  rw [header] at holds
  have headerLength :
      (leBytes 8 (wireHtobe64 response.seq) ++
          leBytes 2 (htons response.error.length)).length = 10 := by
    rw [List.length_append, length_leBytes, length_leBytes]
  obtain ⟨afterHdr, readHdr, holds⟩ :=
    wireReadFull_spec _ headerLength holds
  obtain ⟨afterError, readError, holds⟩ := wireReadFull_spec _ rfl holds
  obtain ⟨afterHeader, readBodyLen, holds⟩ :=
    wireReadFull_spec _ (length_leBytes 4 _) holds
  let method := (codec.pendingTable.lookup response.seq).getD []
  let after : WireClientCodec :=
    { socket := afterHeader
      pendingTable := codec.pendingTable.erase response.seq
      pendingBodyLen := response.body.length
      pendingMethod := method }
  let hdr : ResponseHeader :=
    { seq := response.seq, serviceMethod := method, error := response.error }
  have seqRead :
      wireHtobe64
          (ofLeBytes
            ((leBytes 8 (wireHtobe64 response.seq) ++
              leBytes 2 (htons response.error.length)).take 8)) =
        response.seq := by
    rw [List.take_left' (length_leBytes 8 _),
      wireHtobe64_of_memory fits.seq]
  refine ⟨hdr, after, ?_, rfl, rfl, rfl, holds, ?_⟩
  · simp only [WireClientCodec.readResponseHeader, bind, Except.bind, pure,
      Except.pure, readHdr, List.drop_left' (length_leBytes 8 _), errLen,
      readError, readBodyLen, bodyLen]
    rw [seqRead]
  · rw [wireReadFull_outgoing readBodyLen, wireReadFull_outgoing readError,
      wireReadFull_outgoing readHdr]

/-- The body that the header announced is read, and nothing behind it. -/
theorem readResponseBody_spec
    {codec : WireClientCodec}
    {body rest : List UInt8}
    (announced : codec.pendingBodyLen = body.length)
    (holds : codec.socket.Holds (body ++ rest)) :
    ∃ after,
      codec.readResponseBody = .ok (body, after) ∧
        after.socket.Holds rest ∧
          after.socket.outgoing = codec.socket.outgoing := by
  obtain ⟨afterBody, readBody, holds⟩ :=
    wireReadFull_spec _ announced.symm holds
  let after : WireClientCodec :=
    { codec with
      socket := afterBody
      pendingBodyLen := 0
      pendingMethod := [] }
  refine ⟨after, ?_, holds, wireReadFull_outgoing readBody⟩
  simp only [WireClientCodec.readResponseBody, bind, Except.bind, pure,
    Except.pure, readBody, after]

/-- A response in front of the stream is read, and nothing behind it. -/
theorem readResponse_spec
    {codec : WireClientCodec}
    {response : WireResponse}
    {rest : List UInt8}
    (fits : response.Fits)
    (holds : codec.socket.Holds (response.bytes ++ rest)) :
    ∃ after,
      codec.readResponse = .ok (response, after) ∧
        after.socket.Holds rest := by
  obtain ⟨hdr, between, readHeader, seq, error, announced, holds, -⟩ :=
    readResponseHeader_spec fits holds
  obtain ⟨after, readBody, holds, -⟩ := readResponseBody_spec announced holds
  refine ⟨after, ?_, holds⟩
  simp only [WireClientCodec.readResponse, bind, Except.bind, pure,
    Except.pure, readHeader, readBody, seq, error]

/--
A request that fits its fields is written whole, and only the
writing side moves.
-/
theorem writeRequest_leaves
    {codec : WireClientCodec}
    {request : WireRequest}
    (fits : request.Fits)
    (succeed : codec.socket.CallsSucceed) :
    ∃ after,
      codec.writeRequest request.serviceMethod request.seq request.body =
        .ok after ∧
      after.socket.CallsSucceed ∧
      after.socket.outgoing = codec.socket.outgoing ++ request.bytes ∧
      after.socket.incoming = codec.socket.incoming := by
  have short : ¬ 0xFFFF < request.serviceMethod.length :=
    Nat.not_lt.mpr fits.method
  obtain ⟨calls, left, written⟩ :=
    wireWriteAll_spec codec.socket request.bytes succeed
  let after : WireClientCodec :=
    { codec with
      socket := { codec.socket with
        outgoing := codec.socket.outgoing ++ request.bytes
        calls }
      pendingTable :=
        codec.pendingTable.insert request.seq request.serviceMethod }
  refine ⟨after, ?_, left, rfl, rfl⟩
  rw [WireRequest.bytes] at written
  simp only [WireClientCodec.writeRequest, short, if_false, bind,
    Except.bind, pure, Except.pure, written, after, WireRequest.bytes]

/-- A request that fits its fields is written whole. -/
theorem writeRequest_spec
    {codec : WireClientCodec}
    {request : WireRequest}
    (fits : request.Fits)
    (succeed : codec.socket.CallsSucceed) :
    ∃ after,
      codec.writeRequest request.serviceMethod request.seq request.body =
        .ok after ∧
      after.socket.CallsSucceed ∧
      after.socket.outgoing = codec.socket.outgoing ++ request.bytes := by
  obtain ⟨after, wrote, left, outgoing, -⟩ := writeRequest_leaves fits succeed
  exact ⟨after, wrote, left, outgoing⟩

/--
A response that fits its fields is written whole, and only the
writing side moves.
-/
theorem writeResponse_leaves
    {codec : WireServerCodec}
    {response : WireResponse}
    (fits : response.Fits)
    (succeed : codec.socket.CallsSucceed) :
    ∃ after,
      codec.writeResponse response.seq response.error response.body =
        .ok after ∧
      after.socket.CallsSucceed ∧
      after.socket.outgoing = codec.socket.outgoing ++ response.bytes ∧
      after.socket.incoming = codec.socket.incoming := by
  have short : ¬ 0xFFFF < response.error.length :=
    Nat.not_lt.mpr fits.error
  obtain ⟨calls, left, written⟩ :=
    wireWriteAll_spec codec.socket response.bytes succeed
  let after : WireServerCodec :=
    { codec with
      socket := { codec.socket with
        outgoing := codec.socket.outgoing ++ response.bytes
        calls } }
  refine ⟨after, ?_, left, rfl, rfl⟩
  rw [WireResponse.bytes] at written
  simp only [WireServerCodec.writeResponse, short, if_false, bind,
    Except.bind, pure, Except.pure, written, after, WireResponse.bytes]

/-- A response that fits its fields is written whole. -/
theorem writeResponse_spec
    {codec : WireServerCodec}
    {response : WireResponse}
    (fits : response.Fits)
    (succeed : codec.socket.CallsSucceed) :
    ∃ after,
      codec.writeResponse response.seq response.error response.body =
        .ok after ∧
      after.socket.CallsSucceed ∧
      after.socket.outgoing = codec.socket.outgoing ++ response.bytes := by
  obtain ⟨after, wrote, left, outgoing, -⟩ := writeResponse_leaves fits succeed
  exact ⟨after, wrote, left, outgoing⟩

/-- `step` applied to the items one after the other. -/
def feed
    {Codec Item : Type}
    (step : Codec → Item → Except WireExn Codec) :
    Codec → List Item → Except WireExn Codec
  | codec, [] => .ok codec
  | codec, item :: items => do
      let codec ← step codec item
      feed step codec items

/-- `step` called `count` times, and what it returned. -/
def collect
    {Codec Item : Type}
    (step : Codec → Except WireExn (Item × Codec)) :
    Nat → Codec → Except WireExn (List Item × Codec)
  | 0, codec => .ok ([], codec)
  | count + 1, codec => do
      let (item, codec) ← step codec
      let (items, codec) ← collect step count codec
      return (item :: items, codec)

/-- A writer that appends the bytes of one item appends those of a list. -/
theorem feed_spec
    {Codec Item : Type}
    (socketOf : Codec → Socket)
    {step : Codec → Item → Except WireExn Codec}
    {bytesOf : Item → List UInt8}
    {Fits : Item → Prop}
    (stepSpec :
      ∀ codec item,
        Fits item →
        (socketOf codec).CallsSucceed →
        ∃ after,
          step codec item = .ok after ∧
          (socketOf after).CallsSucceed ∧
          (socketOf after).outgoing =
            (socketOf codec).outgoing ++ bytesOf item)
    {items : List Item}
    (fits : ∀ item ∈ items, Fits item)
    (codec : Codec)
    (succeed : (socketOf codec).CallsSucceed) :
    ∃ after,
      feed step codec items = .ok after ∧
      (socketOf after).outgoing =
        (socketOf codec).outgoing ++ items.flatMap bytesOf := by
  induction items generalizing codec with
  | nil =>
      exact ⟨codec, rfl, (List.append_nil _).symm⟩
  | cons item items inductionHypothesis =>
      obtain ⟨next, stepped, succeedNext, outgoingNext⟩ :=
        stepSpec codec item (fits item List.mem_cons_self) succeed
      obtain ⟨after, fed, outgoing⟩ :=
        inductionHypothesis
          (fun other member => fits other (List.mem_cons_of_mem item member))
          next succeedNext
      refine ⟨after, ?_, ?_⟩
      · simp only [feed, stepped, bind, Except.bind, fed]
      · rw [outgoing, outgoingNext, List.append_assoc, List.flatMap_cons]

/-- A reader of one item in front of a stream reads a stream of items. -/
theorem collect_spec
    {Codec Item : Type}
    (socketOf : Codec → Socket)
    {step : Codec → Except WireExn (Item × Codec)}
    {bytesOf : Item → List UInt8}
    {Fits : Item → Prop}
    (stepSpec :
      ∀ codec item rest,
        Fits item →
        (socketOf codec).Holds (bytesOf item ++ rest) →
        ∃ after,
          step codec = .ok (item, after) ∧ (socketOf after).Holds rest)
    {items : List Item}
    (fits : ∀ item ∈ items, Fits item)
    {rest : List UInt8}
    (codec : Codec)
    (holds : (socketOf codec).Holds (items.flatMap bytesOf ++ rest)) :
    ∃ after,
      collect step items.length codec = .ok (items, after) ∧
        (socketOf after).Holds rest := by
  induction items generalizing codec with
  | nil =>
      exact ⟨codec, rfl, holds⟩
  | cons item items inductionHypothesis =>
      rw [List.flatMap_cons, List.append_assoc] at holds
      obtain ⟨next, stepped, holdsNext⟩ :=
        stepSpec codec item _ (fits item List.mem_cons_self) holds
      obtain ⟨after, collected, left⟩ :=
        inductionHypothesis
          (fun other member => fits other (List.mem_cons_of_mem item member))
          next holdsNext
      refine ⟨after, ?_, left⟩
      simp only [List.length_cons, collect, stepped, bind, Except.bind,
        collected, pure, Except.pure]

namespace WireClientCodec

/-- `write_request` for each request in turn. -/
def writeRequests :
    WireClientCodec → List WireRequest → Except WireExn WireClientCodec :=
  feed fun codec request =>
    codec.writeRequest request.serviceMethod request.seq request.body

/-- `count` responses, each by its header and then its body. -/
def readResponses :
    Nat →
    WireClientCodec →
    Except WireExn (List WireResponse × WireClientCodec) :=
  collect readResponse

end WireClientCodec

namespace WireServerCodec

/-- `write_response` for each response in turn. -/
def writeResponses :
    WireServerCodec → List WireResponse → Except WireExn WireServerCodec :=
  feed fun codec response =>
    codec.writeResponse response.seq response.error response.body

/-- `count` requests, each by its header and then its body. -/
def readRequests :
    Nat →
    WireServerCodec →
    Except WireExn (List WireRequest × WireServerCodec) :=
  collect readRequest

end WireServerCodec

/-- The other end of the connection has written these bytes. -/
def Socket.arriving
    (socket : Socket)
    (bytes : List UInt8) :
    Socket :=
  { socket with incoming := bytes }

/-- What a client writes, a server reads, to the last byte. -/
theorem requests_round_trip
    {client : WireClientCodec}
    {server : WireServerCodec}
    {requests : List WireRequest}
    (fits : ∀ request ∈ requests, request.Fits)
    (fresh : client.socket.outgoing = [])
    (writes : client.socket.CallsSucceed)
    (reads : server.socket.CallsSucceed) :
    ∃ written drained,
      client.writeRequests requests = .ok written ∧
      WireServerCodec.readRequests requests.length
          { server with
            socket := server.socket.arriving written.socket.outgoing } =
        .ok (requests, drained) ∧
      drained.socket.incoming = [] := by
  obtain ⟨written, wrote, outgoing⟩ :=
    feed_spec WireClientCodec.socket
      (fun _ _ => writeRequest_spec) fits client writes
  rw [fresh, List.nil_append] at outgoing
  have holds :
      (server.socket.arriving written.socket.outgoing).Holds
        (requests.flatMap WireRequest.bytes ++ []) :=
    ⟨outgoing.trans (List.append_nil _).symm, reads⟩
  obtain ⟨drained, read, left⟩ :=
    collect_spec WireServerCodec.socket
      (fun _ _ _ => readRequest_spec) fits
      { server with
        socket := server.socket.arriving written.socket.outgoing } holds
  exact ⟨written, drained, wrote, read, left.incoming⟩

/-- What a server writes, a client reads, to the last byte. -/
theorem responses_round_trip
    {client : WireClientCodec}
    {server : WireServerCodec}
    {responses : List WireResponse}
    (fits : ∀ response ∈ responses, response.Fits)
    (fresh : server.socket.outgoing = [])
    (writes : server.socket.CallsSucceed)
    (reads : client.socket.CallsSucceed) :
    ∃ written drained,
      server.writeResponses responses = .ok written ∧
      WireClientCodec.readResponses responses.length
          { client with
            socket := client.socket.arriving written.socket.outgoing } =
        .ok (responses, drained) ∧
      drained.socket.incoming = [] := by
  obtain ⟨written, wrote, outgoing⟩ :=
    feed_spec WireServerCodec.socket
      (fun _ _ => writeResponse_spec) fits server writes
  rw [fresh, List.nil_append] at outgoing
  have holds :
      (client.socket.arriving written.socket.outgoing).Holds
        (responses.flatMap WireResponse.bytes ++ []) :=
    ⟨outgoing.trans (List.append_nil _).symm, reads⟩
  obtain ⟨drained, read, left⟩ :=
    collect_spec WireClientCodec.socket
      (fun _ _ _ => readResponse_spec) fits
      { client with
        socket := client.socket.arriving written.socket.outgoing } holds
  exact ⟨written, drained, wrote, read, left.incoming⟩

/-- Lists of requests and of responses survive the connection. -/
theorem frame_streams_round_trip
    {client : WireClientCodec}
    {server : WireServerCodec}
    {requests : List WireRequest}
    {responses : List WireResponse}
    (requestsFit : ∀ request ∈ requests, request.Fits)
    (responsesFit : ∀ response ∈ responses, response.Fits)
    (clientFresh : client.socket.outgoing = [])
    (serverFresh : server.socket.outgoing = [])
    (clientCalls : client.socket.CallsSucceed)
    (serverCalls : server.socket.CallsSucceed) :
    (∃ written drained,
      client.writeRequests requests = .ok written ∧
      WireServerCodec.readRequests requests.length
          { server with
            socket := server.socket.arriving written.socket.outgoing } =
        .ok (requests, drained) ∧
      drained.socket.incoming = []) ∧
    (∃ written drained,
      server.writeResponses responses = .ok written ∧
      WireClientCodec.readResponses responses.length
          { client with
            socket := client.socket.arriving written.socket.outgoing } =
        .ok (responses, drained) ∧
      drained.socket.incoming = []) :=
  ⟨requests_round_trip requestsFit clientFresh clientCalls serverCalls,
    responses_round_trip responsesFit serverFresh serverCalls clientCalls⟩

/-- A request and an error response, moved one or a few bytes at a time. -/
theorem frame_streams_round_trip_split :
    let client : WireClientCodec :=
      { socket := { calls := [some 0, some 4, some 0, some 0] } }
    let server : WireServerCodec :=
      { socket := { calls := [some 0, some 0, some 1] } }
    let requests : List WireRequest :=
      [{ serviceMethod := [97], seq := 2 ^ 64 - 1, body := [1, 2] },
        { serviceMethod := [98, 99], seq := 0, body := [] }]
    let responses : List WireResponse :=
      [{ seq := 7, error := [101], body := [] }]
    (∃ written drained,
      client.writeRequests requests = .ok written ∧
      WireServerCodec.readRequests requests.length
          { server with
            socket := server.socket.arriving written.socket.outgoing } =
        .ok (requests, drained) ∧
      drained.socket.incoming = []) ∧
    (∃ written drained,
      server.writeResponses responses = .ok written ∧
      WireClientCodec.readResponses responses.length
          { client with
            socket := client.socket.arriving written.socket.outgoing } =
        .ok (responses, drained) ∧
      drained.socket.incoming = []) := by
  intro client server requests responses
  have requestsFit : ∀ request ∈ requests, request.Fits := by
    intro request member
    rcases List.mem_pair.mp member with rfl | rfl
    · exact ⟨by decide, by decide, by decide, by decide⟩
    · exact ⟨by decide, by decide, by decide, by decide⟩
  have responsesFit : ∀ response ∈ responses, response.Fits := by
    intro response member
    rw [List.mem_singleton.mp member]
    exact ⟨by decide, by decide, by decide⟩
  exact frame_streams_round_trip requestsFit responsesFit rfl rfl
    (by decide) (by decide)

end NvmeofRaft
