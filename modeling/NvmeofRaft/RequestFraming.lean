import NvmeofRaft.WireCodec

namespace NvmeofRaft

/-!
# Requests in a stream of bytes

What the server reads as a request (`read_request_header` and
`read_request_body` of `raft_wire_codec.cpp`) is the frame of one, and no frame
is the front of another.  So every stream of bytes is a list of requests, and a
rest in which no request begins, in exactly one way.
-/

/-- A read that ends takes its bytes from the front. -/
theorem wireReadFull_takes
    {socket after : Socket}
    {len : Nat}
    {front : List UInt8}
    (read : wireReadFull socket len = .ok (front, after)) :
    socket.incoming = front ++ after.incoming ∧
      front.length = len ∧
        after.calls <:+ socket.calls := by
  fun_induction wireReadFull socket len generalizing front after with
  | case1 socket =>
      cases read
      exact ⟨rfl, rfl, List.suffix_refl _⟩
  | case2 socket missing failed =>
      cases read
  | case3 socket missing more closed moved =>
      cases read
  | case4 socket missing more first others arrived moved got =>
      rename_i inductionHypothesis
      revert read
      cases rest :
          wireReadFull
            { socket.passCall with incoming := others.drop got.length }
            (missing - got.length) with
      | error failure =>
          intro read
          cases read
      | ok result =>
          intro read
          cases read
          obtain ⟨incoming, length, calls⟩ := inductionHypothesis rest
          have gotLength : got.length ≤ missing :=
            (List.length_take_le _ _).trans (Nat.min_le_right _ _)
          have gotFront : got ++ others.drop got.length = others :=
            List.prefix_iff_eq_append.mp (List.take_prefix _ _)
          refine ⟨?_, ?_, calls.trans (List.tail_suffix _)⟩
          · rw [arrived, List.cons_append, List.cons_append, List.append_assoc,
              ← incoming, gotFront]
          · simp only [List.length_append, List.length_cons, length]
            omega

/-- A word that is read is the one that was written for its value. -/
theorem leBytes_of_read
    {width : Nat}
    {bytes : List UInt8}
    (length : bytes.length = width) :
    leBytes width (reverseBytes width (reverseBytes width (ofLeBytes bytes))) =
      bytes := by
  subst length
  rw [reverseBytes_reverseBytes (ofLeBytes_lt bytes), leBytes_ofLeBytes]

theorem bind_ends
    {ε α β : Type}
    {first : Except ε α}
    {next : α → Except ε β}
    {result : β}
    (ends : first >>= next = .ok result) :
    ∃ value, first = .ok value ∧ next value = .ok result := by
  cases first with
  | error failure => cases ends
  | ok value => exact ⟨value, rfl, ends⟩

/-- What a server reads as a request is one that was written whole. -/
theorem readRequest_takes
    {codec after : WireServerCodec}
    {request : WireRequest}
    (read : codec.readRequest = .ok (request, after)) :
    request.Fits ∧
      codec.socket.incoming = request.bytes ++ after.socket.incoming ∧
        after.socket.calls <:+ codec.socket.calls ∧
          after.socket.outgoing = codec.socket.outgoing := by
  rw [WireServerCodec.readRequest] at read
  obtain ⟨⟨hdr, middle⟩, readHeader, read⟩ := bind_ends read
  obtain ⟨⟨body, last⟩, readBody, read⟩ := bind_ends read
  cases read
  rw [WireServerCodec.readRequestHeader] at readHeader
  obtain ⟨⟨mlenBuf, first⟩, readLen, readHeader⟩ := bind_ends readHeader
  dsimp only at readHeader
  split at readHeader
  · cases readHeader
  rename_i named
  obtain ⟨⟨serviceMethod, second⟩, readMethod, readHeader⟩ :=
    bind_ends readHeader
  obtain ⟨⟨seqBuf, third⟩, readSeq, readHeader⟩ := bind_ends readHeader
  obtain ⟨⟨bodyLenBuf, fourth⟩, readBodyLen, readHeader⟩ :=
    bind_ends readHeader
  cases readHeader
  rw [WireServerCodec.readRequestBody] at readBody
  obtain ⟨⟨content, fifth⟩, readContent, readBody⟩ := bind_ends readBody
  cases readBody
  obtain ⟨lenIn, lenWidth, lenCalls⟩ := wireReadFull_takes readLen
  obtain ⟨methodIn, methodWidth, methodCalls⟩ := wireReadFull_takes readMethod
  obtain ⟨seqIn, seqWidth, seqCalls⟩ := wireReadFull_takes readSeq
  obtain ⟨bodyLenIn, bodyLenWidth, bodyLenCalls⟩ :=
    wireReadFull_takes readBodyLen
  obtain ⟨bodyIn, bodyWidth, bodyCalls⟩ := wireReadFull_takes readContent
  have methodShort : htons (ofLeBytes mlenBuf) < 256 ^ 2 := reverseBytes_lt 2 _
  have bodyShort : htonl (ofLeBytes bodyLenBuf) < 256 ^ 4 :=
    reverseBytes_lt 4 _
  have seqShort : wireHtobe64 (ofLeBytes seqBuf) < 256 ^ 8 := by
    rw [wireHtobe64_eq]
    exact reverseBytes_lt 8 _
  refine ⟨⟨?_, ?_, seqShort, ?_⟩, ?_, ?_, ?_⟩
  · exact methodWidth ▸ Nat.one_le_iff_ne_zero.mpr named
  · exact methodWidth ▸ Nat.le_of_lt_succ methodShort
  · exact bodyWidth ▸ bodyShort
  · have lenBack : leBytes 2 (htons serviceMethod.length) = mlenBuf := by
      rw [methodWidth]
      exact leBytes_of_read lenWidth
    have seqBack : leBytes 8 (wireHtobe64 (wireHtobe64 (ofLeBytes seqBuf))) =
        seqBuf := by
      rw [wireHtobe64_eq, wireHtobe64_eq]
      exact leBytes_of_read seqWidth
    have bodyLenBack : leBytes 4 (htonl body.length) = bodyLenBuf := by
      rw [bodyWidth]
      exact leBytes_of_read bodyLenWidth
    rw [WireRequest.bytes, WireClientCodec.requestBuffer, lenBack, seqBack,
      bodyLenBack, lenIn, methodIn, seqIn, bodyLenIn, bodyIn]
    simp only [List.append_assoc]
  · exact bodyCalls.trans (bodyLenCalls.trans (seqCalls.trans
      (methodCalls.trans lenCalls)))
  · exact (wireReadFull_outgoing readContent).trans
      ((wireReadFull_outgoing readBodyLen).trans
        ((wireReadFull_outgoing readSeq).trans
          ((wireReadFull_outgoing readMethod).trans
            (wireReadFull_outgoing readLen))))

/-- The stream is these requests, and then bytes that start no request. -/
structure Framed
    (stream : List UInt8)
    (requests : List WireRequest)
    (tail : List UInt8) : Prop where
  stream : stream = requests.flatMap WireRequest.bytes ++ tail
  fits : ∀ request ∈ requests, request.Fits
  ended :
    ∀ request rest, WireRequest.Fits request → tail ≠ request.bytes ++ rest

/-- No request is the front of another one. -/
theorem WireRequest.Fits.front
    {first second : WireRequest}
    {firstRest secondRest : List UInt8}
    (firstFits : first.Fits)
    (secondFits : second.Fits)
    (same : first.bytes ++ firstRest = second.bytes ++ secondRest) :
    first = second ∧ firstRest = secondRest := by
  have noCalls : none ∉ ([] : List (Option Nat)) := List.not_mem_nil
  let codec : WireServerCodec :=
    { socket := { incoming := first.bytes ++ firstRest } }
  obtain ⟨after, read, left⟩ :=
    @readRequest_spec codec _ _ firstFits ⟨rfl, noCalls⟩
  obtain ⟨other, again, leftAgain⟩ :=
    @readRequest_spec codec _ _ secondFits ⟨same, noCalls⟩
  rw [read, Except.ok.injEq, Prod.mk.injEq] at again
  obtain ⟨rfl, rfl⟩ := again
  exact ⟨rfl, left.incoming.symm.trans leftAgain.incoming⟩

theorem WireRequest.length_bytes
    (request : WireRequest) :
    request.bytes.length =
      14 + request.serviceMethod.length + request.body.length := by
  simp only [WireRequest.bytes, WireClientCodec.requestBuffer,
    List.length_append, length_leBytes]
  omega

/-- Every stream has its requests. -/
theorem framed_exists
    (stream : List UInt8) :
    ∃ requests tail, Framed stream requests tail := by
  induction whole : stream.length using Nat.strong_induction_on
    generalizing stream with
  | _ length inductionHypothesis =>
      by_cases starts :
          ∃ request rest,
            WireRequest.Fits request ∧ stream = request.bytes ++ rest
      · obtain ⟨request, rest, fits, rfl⟩ := starts
        have shorter : rest.length < length := by
          rw [← whole, List.length_append, request.length_bytes]
          omega
        obtain ⟨requests, tail, framed⟩ :=
          inductionHypothesis rest.length shorter rest rfl
        refine ⟨request :: requests, tail, ?_, ?_, framed.ended⟩
        · rw [List.flatMap_cons, List.append_assoc, ← framed.stream]
        · exact List.forall_mem_cons.mpr ⟨fits, framed.fits⟩
      · exact ⟨[], stream, rfl, fun _ none => absurd none List.not_mem_nil,
          fun request rest fits same => starts ⟨request, rest, fits, same⟩⟩

/-- A stream has its requests in one way only. -/
theorem Framed.unique
    {requests others : List WireRequest}
    {tail rest : List UInt8} :
    ∀ {stream : List UInt8},
      Framed stream requests tail →
      Framed stream others rest →
      requests = others ∧ tail = rest := by
  induction requests generalizing others with
  | nil =>
      intro stream first second
      have whole : stream = tail := first.stream
      subst whole
      cases others with
      | nil =>
          exact ⟨rfl, second.stream⟩
      | cons other others =>
          have stream := second.stream
          rw [List.flatMap_cons, List.append_assoc] at stream
          exact absurd stream
            (first.ended other _ (second.fits other List.mem_cons_self))
  | cons request requests inductionHypothesis =>
      intro stream first second
      have begins := first.stream
      rw [List.flatMap_cons, List.append_assoc] at begins
      have fits := first.fits request List.mem_cons_self
      cases others with
      | nil =>
          have whole : stream = rest := second.stream
          exact absurd (whole.symm.trans begins)
            (second.ended request _ fits)
      | cons other others =>
          have beginsToo := second.stream
          rw [List.flatMap_cons, List.append_assoc] at beginsToo
          obtain ⟨rfl, same⟩ :=
            fits.front (second.fits other List.mem_cons_self)
              (begins.symm.trans beginsToo)
          obtain ⟨rfl, sameTail⟩ :=
            inductionHypothesis
              ⟨rfl, fun item inside =>
                first.fits item (List.mem_cons_of_mem _ inside), first.ended⟩
              ⟨same, fun item inside =>
                second.fits item (List.mem_cons_of_mem _ inside),
                second.ended⟩
          exact ⟨rfl, sameTail⟩

/-- Writing leaves what has arrived. -/
theorem wireWriteAll_incoming
    {socket after : Socket}
    {bytes : List UInt8}
    (wrote : wireWriteAll socket bytes = .ok after) :
    after.incoming = socket.incoming := by
  fun_induction wireWriteAll socket bytes with
  | case1 socket =>
      cases wrote
      rfl
  | case2 socket first others failed =>
      cases wrote
  | case3 socket first others more moved inductionHypothesis =>
      exact inductionHypothesis wrote

theorem writeResponse_incoming
    {codec after : WireServerCodec}
    {seq : Nat}
    {error body : List UInt8}
    (wrote : codec.writeResponse seq error body = .ok after) :
    after.socket.incoming = codec.socket.incoming := by
  rw [WireServerCodec.writeResponse] at wrote
  split at wrote
  · cases wrote
  · obtain ⟨socket, written, wrote⟩ := bind_ends wrote
    cases wrote
    exact wireWriteAll_incoming written

/-- An answer is written, whatever the length of its body. -/
theorem writeResponse_ends
    {codec : WireServerCodec}
    {response : WireResponse}
    (succeed : codec.socket.CallsSucceed)
    (short : ¬ 0xFFFF < response.error.length) :
    ∃ after,
      codec.writeResponse response.seq response.error response.body =
          .ok after ∧
        after.socket.CallsSucceed ∧
          after.socket.outgoing =
            codec.socket.outgoing ++ response.bytes := by
  obtain ⟨calls, left, written⟩ :=
    wireWriteAll_spec codec.socket response.bytes succeed
  refine ⟨{ codec with
    socket := { codec.socket with
      outgoing := codec.socket.outgoing ++ response.bytes
      calls } }, ?_, left, rfl⟩
  rw [WireResponse.bytes] at written
  simp only [WireServerCodec.writeResponse, short, if_false, bind,
    Except.bind, pure, Except.pure, written, WireResponse.bytes]

end NvmeofRaft
