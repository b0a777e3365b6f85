import NvmeofRaft.Startup

namespace NvmeofRaft

/-!
# Durable term and vote

What the file header holds when `persist_circular` returns.  The header cache
is updated between the header write and the sync of the same call, so a sync
that fails after the write leaves a cache that is ahead of stable storage.
-/

/-- The first sixteen header bytes: term and vote. -/
def headerBytes (term vote : Nat) : List UInt8 :=
  putU64Le term ++ putU64Le vote

/-- The term and vote of a return were on stable storage. -/
def PersistReturn.Durable (returned : PersistReturn) : Prop :=
  returned.stableHeader = headerBytes returned.term returned.votedFor

instance (returned : PersistReturn) : Decidable returned.Durable :=
  inferInstanceAs (Decidable (_ = _))

/-- A later term, or the same term with the vote kept or given. -/
def VoteLe (first second : Nat × Nat) : Prop :=
  first.1 < second.1 ∨
    first.1 = second.1 ∧ (first.2 = second.2 ∨ first.2 = 0)

/-- The order of terms and votes is transitive. -/
theorem VoteLe.trans
    {first second third : Nat × Nat}
    (lower : VoteLe first second)
    (upper : VoteLe second third) :
    VoteLe first third := by
  unfold VoteLe at *
  omega

theorem VoteLe.antisymm
    {first second : Nat × Nat}
    (lower : VoteLe first second)
    (upper : VoteLe second first) :
    first = second := by
  unfold VoteLe at *
  apply Prod.ext <;> omega

/-- The cache, the header bytes and the state they stand for. -/
structure HeaderView where
  file : List UInt8
  stable : List UInt8
  cache : Option (Nat × Nat)
  current : Nat × Nat
  returns : List PersistReturn
  syncs : List Bool

/-- The header view of a server. -/
def Server.headerView (server : Server) : HeaderView where
  file := server.io.file.read 0 16
  stable := server.io.stable.read 0 16
  cache :=
    if server.ring.persistedInit then
      some (server.ring.persistedTerm, server.ring.persistedVotedFor)
    else
      none
  current := server.termAndVote
  returns := server.io.persistReturns
  syncs := server.io.outcomes.syncs

namespace HeaderView

/-- The cache holds the current term and vote. -/
def Cached (header : HeaderView) : Prop :=
  header.cache = some header.current

/-- Every return so far was durable. -/
def AllDurable (header : HeaderView) : Prop :=
  ∀ returned, returned ∈ header.returns → returned.Durable

/-- The invariant of the header cache. -/
structure Sound (header : HeaderView) : Prop where
  onFile :
    header.Cached →
      header.file = headerBytes header.current.1 header.current.2
  onStable :
    header.Cached →
      header.stable = headerBytes header.current.1 header.current.2
  behind : ∀ cached, header.cache = some cached → VoteLe cached header.current
  durable : header.AllDurable

/-- No coming sync fails. -/
def SyncsSucceed (header : HeaderView) : Prop :=
  ∀ ok, ok ∈ header.syncs → ok = true

/-- Moving term and vote forward keeps the invariant. -/
theorem Sound.forward
    {header : HeaderView}
    (sound : header.Sound)
    {current : Nat × Nat}
    (later : VoteLe header.current current) :
    ({ header with current } : HeaderView).Sound := by
  have unmoved :
      ({ header with current } : HeaderView).Cached →
        header.Cached ∧ header.current = current := by
    intro cached
    have same : header.current = current :=
      later.antisymm (sound.behind current cached)
    exact ⟨cached.trans (congrArg some same.symm), same⟩
  refine ⟨?_, ?_, ?_, sound.durable⟩
  · intro cached
    obtain ⟨before, rfl⟩ := unmoved cached
    exact sound.onFile before
  · intro cached
    obtain ⟨before, rfl⟩ := unmoved cached
    exact sound.onStable before
  · intro cached held
    exact (sound.behind cached held).trans later

end HeaderView

/-- No header is due exactly when the cache holds term and vote. -/
theorem needsHeader_eq_false_iff
    (server : Server) :
    needsHeader server = false ↔ server.headerView.Cached := by
  simp only [needsHeader, HeaderView.Cached, Server.headerView,
    Server.termAndVote]
  cases server.ring.persistedInit with
  | false =>
      simp
  | true =>
      simp only [Bool.not_true, Bool.false_or, Bool.or_eq_false_iff,
        decide_eq_false_iff_not, ne_eq, not_not, if_true,
        Option.some.injEq, Prod.mk.injEq]
      exact ⟨fun same => ⟨same.1.symm, same.2.symm⟩,
        fun same => ⟨same.1.symm, same.2.symm⟩⟩

/-- The buffered run starts behind the header. -/
def RunBehindHeader
    (runOff : Nat)
    (server : Server) : Prop :=
  server.ring.runBuf.data = [] ∨ headerSize ≤ runOff

/-- A write behind the header changes no header byte. -/
theorem writeAtFile_header
    (data : List UInt8)
    {offset : Nat}
    (behind : headerSize ≤ offset) :
    Frames Server.headerView (writeAtFile data offset) := by
  have short : 16 ≤ offset := Nat.le_trans (by decide) behind
  refine Frames.bind ?_ fun outcome => ?_
  · exact Frames.bind Frames.get fun _ =>
      Frames.bind (Frames.modifyState fun _ => rfl) fun _ => Frames.pure _
  · cases outcome with
    | done =>
        refine Frames.modifyState fun server => ?_
        simp only [Server.headerView, ByteImage.read_write_of_le short]
        rfl
    | fails landed =>
        refine Frames.bind (Frames.modifyState fun server => ?_)
          fun _ => Frames.throw _
        simp only [Server.headerView, ByteImage.read_write_of_le short]
        rfl

/-- A run that starts behind the header leaves it alone. -/
theorem flushRun_header
    {runOff : Nat}
    {server : Server}
    (behind : RunBehindHeader runOff server) :
    wp (flushRun runOff)
      (fun _ final =>
        final.ring.runBuf.data = [] ∧
          final.headerView = server.headerView)
      (fun _ final => final.headerView = server.headerView) server := by
  simp only [flushRun, modifyRing, wp_bind, wp_get, wp_ite, wp_pure,
    wp_modify]
  split
  · rename_i empty
    exact ⟨List.isEmpty_iff.mp empty, trivial⟩
  · rename_i notEmpty
    have offset : headerSize ≤ runOff :=
      behind.resolve_left fun empty => notEmpty (by simp [empty])
    refine wp_mono ((writeAtFile_header _ offset).ends server) ?_ ?_
    · intro _ final same
      exact ⟨rfl, same⟩
    · exact fun _ final same => same

/-- What every step of the entry loop keeps. -/
def KeepsHeader
    (server : Server)
    (runOff : Nat)
    (final : Server) : Prop :=
  RunBehindHeader runOff final ∧ final.headerView = server.headerView

theorem wrapTail_header
    (needed : Nat)
    {runOff : Nat}
    {server : Server}
    (behind : RunBehindHeader runOff server) :
    wp (wrapTail needed runOff)
      (fun runOff final => KeepsHeader server runOff final)
      (fun _ final => final.headerView = server.headerView) server := by
  simp only [wrapTail, modifyRing, wp_bind, wp_get, wp_ite, wp_pure,
    wp_modify]
  split
  · refine wp_mono (flushRun_header behind) ?_ ?_
    · rintro _ final ⟨empty, same⟩
      exact ⟨Or.inl empty, same⟩
    · exact fun _ final same => same
  · exact ⟨behind, rfl⟩

theorem skipExtentEnd_header
    (needed : Nat)
    (extHint : Int)
    {runOff : Nat}
    {server : Server}
    (behind : RunBehindHeader runOff server) :
    wp (skipExtentEnd needed runOff extHint)
      (fun cursor final => KeepsHeader server cursor.1 final)
      (fun _ final => final.headerView = server.headerView) server := by
  simp only [skipExtentEnd, modifyRing, wp_bind, wp_get, wp_ite, wp_pure,
    wp_modify]
  split_ifs
  · exact ⟨behind, rfl⟩
  · refine wp_mono (flushRun_header behind) ?_ ?_
    · rintro _ final ⟨empty, same⟩
      exact ⟨Or.inl empty, same⟩
    · exact fun _ final same => same
  · exact ⟨behind, rfl⟩

/-- An entry goes behind the header. -/
theorem placeEntry_header
    (entry : Entry)
    (needed logIdx : Nat)
    {runOff : Nat}
    {server : Server}
    (behind : RunBehindHeader runOff server) :
    wp (placeEntry entry needed logIdx runOff)
      (fun runOff final => KeepsHeader server runOff final)
      (fun _ final => final.headerView = server.headerView) server := by
  have offset :
      headerSize ≤
        if server.ring.runBuf.data.isEmpty then
          slotOffset server.ring.tailSlot
        else
          runOff := by
    split
    · exact headerSize_le_slotOffset _
    · rename_i notEmpty
      exact behind.resolve_left fun empty => notEmpty (by simp [empty])
  simp only [placeEntry, modifyRing, wp_bind, wp_get, wp_ite, wp_pure,
    wp_modify]
  split_ifs at offset ⊢ <;> exact ⟨Or.inr offset, rfl⟩

/-- Entries go behind the header. -/
theorem persistEntries_header
    (entries : List Entry) :
    ∀ {logIdx : Nat} {cursor : Nat × Int} {server : Server},
      RunBehindHeader cursor.1 server →
      wp (persistEntries entries logIdx cursor)
        (fun cursor final => KeepsHeader server cursor.1 final)
        (fun _ final => final.headerView = server.headerView) server := by
  induction entries with
  | nil =>
      intro logIdx cursor server behind
      exact ⟨behind, rfl⟩
  | cons entry rest inductionHypothesis =>
      intro logIdx cursor server behind
      simp only [persistEntries, persistEntry, wp_bind, wp_pure]
      refine wp_mono (wrapTail_header _ behind) ?_ fun _ _ same => same
      rintro runOff wrapped ⟨behindWrapped, sameWrapped⟩
      refine wp_mono (skipExtentEnd_header _ _ behindWrapped) ?_
        fun _ _ same => same.trans sameWrapped
      rintro skippedCursor skipped ⟨behindSkipped, sameSkipped⟩
      refine wp_mono (placeEntry_header _ _ _ behindSkipped) ?_
        fun _ _ same => same.trans (sameSkipped.trans sameWrapped)
      rintro placedOff placed ⟨behindPlaced, samePlaced⟩
      have same : placed.headerView = server.headerView :=
        samePlaced.trans (sameSkipped.trans sameWrapped)
      refine wp_mono (inductionHypothesis behindPlaced) ?_
        fun _ _ kept => kept.trans same
      rintro _ final ⟨behindFinal, kept⟩
      exact ⟨behindFinal, kept.trans same⟩

/-- Writing entries changes nothing the header argument looks at. -/
theorem persistLog_header
    (count : Nat)
    (server : Server) :
    wp (persistLog count)
      (fun _ final => final.headerView = server.headerView)
      (fun _ final => final.headerView = server.headerView) server := by
  simp only [persistLog, modifyRing, wp_bind, wp_get, wp_modify, wp_discard]
  refine wp_mono (persistEntries_header _ (Or.inl ?_)) ?_ ?_
  · dsimp only
    split <;> rfl
  · rintro cursor final ⟨behind, same⟩
    refine wp_mono (flushRun_header behind) ?_ ?_
    · exact fun _ _ kept => kept.2.trans same
    · exact fun _ _ kept => kept.trans same
  · exact fun _ _ same => same

/-- The header begins with term and vote. -/
theorem encodeHeader_eq
    (server : Server) :
    ∃ rest,
      encodeHeader server =
        headerBytes server.raft.currentTerm server.getVotedFor ++ rest := by
  simp only [encodeHeader, headerBytes, List.append_assoc]
  exact ⟨_, rfl⟩

/-- What is written at the start of the file is read there. -/
theorem writeHeader_read
    (image : ByteImage)
    (server : Server) :
    (image.write 0 (encodeHeader server)).read 0 16 =
      headerBytes server.raft.currentTerm server.getVotedFor := by
  obtain ⟨rest, encoded⟩ := encodeHeader_eq server
  have length :
      (headerBytes server.raft.currentTerm
        server.getVotedFor).length = 16 := by
    simp [headerBytes]
  rw [encoded, ← length]
  exact ByteImage.read_write_append _ rest

/-- The header is written, and cached before it is synced. -/
theorem persistHeader_header
    (server : Server) :
    wp persistHeader
      (fun _ final =>
        final.headerView =
          { server.headerView with
            file := headerBytes server.headerView.current.1
              server.headerView.current.2
            cache := some server.headerView.current })
      (fun _ final =>
        ∃ file, final.headerView = { server.headerView with file })
      server := by
  simp only [persistHeader, writeAtFile, nextWriteOutcome, wp_bind, wp_get,
    wp_modify, wp_pure]
  cases server.io.outcomes.writes.headD .done with
  | done =>
      simp only [wp_modify]
      simp only [Server.headerView, if_true]
      rw [writeHeader_read]
      rfl
  | fails landed =>
      exact ⟨_, rfl⟩

/-- A sync makes the written header stable, or throws. -/
theorem fdatasync_header
    (server : Server) :
    wp fdatasync
      (fun _ final =>
        final.headerView =
          { server.headerView with
            stable := server.headerView.file
            syncs := server.headerView.syncs.tail })
      (fun _ final =>
        final.headerView =
          { server.headerView with
            syncs := server.headerView.syncs.tail } ∧
          ¬ server.headerView.SyncsSucceed) server := by
  simp only [fdatasync, nextSyncOutcome, wp_bind, wp_get, wp_modify, wp_pure,
    wp_ite, wp_throw]
  split
  · rfl
  · rename_i failed
    refine ⟨rfl, fun succeed => failed ?_⟩
    cases listed : server.io.outcomes.syncs with
    | nil =>
        rfl
    | cons ok rest =>
        exact succeed ok (by simp [Server.headerView, listed])

/-- What a call of `persist_circular` leaves, seen from the header. -/
structure HeaderView.After
    (before after : HeaderView) : Prop where
  current : after.current = before.current
  syncs : before.SyncsSucceed → after.SyncsSucceed

theorem HeaderView.syncsSucceed_tail
    {before after : HeaderView}
    (succeed : before.SyncsSucceed)
    (consumed : after.syncs = before.syncs.tail) :
    after.SyncsSucceed := by
  intro ok member
  rw [consumed] at member
  exact succeed ok (List.mem_of_mem_tail member)

/-- A successful sync makes a cached header stable. -/
theorem HeaderView.Sound.synced
    {header : HeaderView}
    (cached : header.Cached)
    (onFile : header.file = headerBytes header.current.1 header.current.2)
    (durable : header.AllDurable)
    (syncs : List Bool) :
    ({ header with stable := header.file, syncs } : HeaderView).Sound where
  onFile := fun _ => onFile
  onStable := fun _ => onFile
  behind := by
    intro held same
    have equal : held = header.current :=
      Option.some.inj (same.symm.trans cached)
    exact Or.inr ⟨congrArg Prod.fst equal, Or.inl (congrArg Prod.snd equal)⟩
  durable := durable

/-- Behind the sync the cached pair is stable, unless the sync throws. -/
theorem persistSync_header
    (logging : Bool)
    {server : Server}
    (sound : server.headerView.Sound) :
    wp (persistSync logging)
      (fun _ final =>
        server.headerView.After final.headerView ∧
          final.headerView.Sound ∧ final.headerView.Cached)
      (fun _ final =>
        server.headerView.After final.headerView ∧
          final.headerView.AllDurable ∧
            (server.headerView.SyncsSucceed ∨ server.headerView.Cached →
              final.headerView.Sound)) server := by
  simp only [persistSync, wp_bind, wp_get, wp_ite, wp_pure]
  by_cases needed : needsHeader server = true
  · have notCached : ¬ server.headerView.Cached := by
      rw [← needsHeader_eq_false_iff, needed]
      simp
    rw [if_pos needed]
    refine wp_mono (persistHeader_header server) ?_ ?_
    · intro _ written same
      refine wp_mono (fdatasync_header written) ?_ ?_
      · intro _ final synced
        have cached : written.headerView.Cached := by
          rw [same]
          rfl
        have onFile :
            written.headerView.file =
              headerBytes written.headerView.current.1
                written.headerView.current.2 := by
          rw [same]
        have durable : written.headerView.AllDurable := by
          rw [same]
          exact sound.durable
        rw [synced]
        refine ⟨⟨?_, fun succeed => ?_⟩,
          HeaderView.Sound.synced cached onFile durable _, cached⟩
        · rw [same]
        · refine HeaderView.syncsSucceed_tail succeed ?_
          rw [same]
      · rintro _ final ⟨unsynced, failed⟩
        rw [same] at unsynced failed
        rw [unsynced]
        refine ⟨⟨rfl, fun succeed =>
          HeaderView.syncsSucceed_tail succeed rfl⟩, sound.durable, ?_⟩
        rintro (succeed | cached)
        · exact absurd succeed failed
        · exact absurd cached notCached
    · rintro _ final ⟨file, torn⟩
      rw [torn]
      refine ⟨⟨rfl, id⟩, sound.durable, fun _ => ?_⟩
      exact ⟨fun cached => absurd cached notCached,
        fun cached => absurd cached notCached, sound.behind, sound.durable⟩
  · have cached : server.headerView.Cached :=
      (needsHeader_eq_false_iff server).mp (by simpa using needed)
    rw [if_neg needed]
    split
    · refine wp_mono (fdatasync_header server) ?_ ?_
      · intro _ final synced
        rw [synced]
        refine ⟨⟨rfl, fun succeed =>
          HeaderView.syncsSucceed_tail succeed rfl⟩, ?_, cached⟩
        exact HeaderView.Sound.synced cached (sound.onFile cached)
          sound.durable _
      · rintro _ final ⟨unsynced, failed⟩
        rw [unsynced]
        refine ⟨⟨rfl, fun succeed =>
          HeaderView.syncsSucceed_tail succeed rfl⟩, sound.durable,
          fun _ => ?_⟩
        exact ⟨sound.onFile, sound.onStable, sound.behind, sound.durable⟩
    · exact ⟨⟨rfl, id⟩, sound, cached⟩

/-- Noting the return of a cached, sound header keeps the invariant. -/
theorem notePersistReturn_sound
    {server : Server}
    (sound : server.headerView.Sound)
    (cached : server.headerView.Cached) :
    (notePersistReturn server).headerView.Sound where
  onFile := sound.onFile
  onStable := sound.onStable
  behind := sound.behind
  durable := by
    intro returned member
    rcases List.mem_cons.mp member with rfl | earlier
    · exact sound.onStable cached
    · exact sound.durable returned earlier

/--
`persist_circular` returns with a durable header.  When it throws, the cache
is still sound if the sync did not fail or there was no header to write.
-/
theorem persistCircular_header
    (writeLog : Bool)
    (nNewEntries : Nat)
    {server : Server}
    (sound : server.headerView.Sound) :
    wp (persistCircular writeLog nNewEntries)
      (fun _ final =>
        server.headerView.After final.headerView ∧
          final.headerView.Sound ∧ final.headerView.Cached)
      (fun _ final =>
        server.headerView.After final.headerView ∧
          final.headerView.AllDurable ∧
            (server.headerView.SyncsSucceed ∨ server.headerView.Cached →
              final.headerView.Sound)) server := by
  simp only [persistCircular, wp_bind, wp_get, wp_ite, wp_modify]
  generalize (if nNewEntries = 0 ∧ writeLog = true then
    server.raft.log.length - 1 else nNewEntries) = count
  split
  · refine wp_mono (persistLog_header _ server) ?_ ?_
    · intro _ logged same
      rw [← same] at sound ⊢
      refine wp_mono (persistSync_header true sound) ?_ fun _ _ kept => kept
      rintro _ final ⟨after, finalSound, cached⟩
      exact ⟨⟨after.current, after.syncs⟩,
        notePersistReturn_sound finalSound cached, cached⟩
    · intro _ final same
      rw [same]
      exact ⟨⟨rfl, id⟩, sound.durable, fun _ => sound⟩
  · refine wp_mono (persistSync_header false sound) ?_ fun _ _ kept => kept
    rintro _ final ⟨after, finalSound, cached⟩
    exact ⟨⟨after.current, after.syncs⟩,
      notePersistReturn_sound finalSound cached, cached⟩

theorem termAndVote_eq
    (server : Server) :
    server.termAndVote = (server.view.term, server.view.vote) := by
  rw [Server.termAndVote, getVotedFor_eq]
  rfl

/-- A change of the consensus state shows in the current term and vote. -/
theorem headerView_of_ground
    {before after : Server}
    (same : after.ground = before.ground) :
    after.headerView =
      { before.headerView with current := after.termAndVote } := by
  have sameInit : after.ring.persistedInit = before.ring.persistedInit :=
    congrArg Ground.persistedInit same
  have sameTerm : after.ring.persistedTerm = before.ring.persistedTerm :=
    congrArg Ground.persistedTerm same
  have sameVote :
      after.ring.persistedVotedFor = before.ring.persistedVotedFor :=
    congrArg Ground.persistedVotedFor same
  have sameIo : after.io = before.io := congrArg Ground.io same
  simp only [Server.headerView, sameInit, sameTerm, sameVote, sameIo]

/-- A change that moves term and vote forward keeps the invariant. -/
theorem sound_of_forward
    {before after : Server}
    (sound : before.headerView.Sound)
    (same : after.ground = before.ground)
    (later :
      VoteLe (before.view.term, before.view.vote)
        (after.view.term, after.view.vote)) :
    after.headerView.Sound := by
  rw [headerView_of_ground same]
  refine sound.forward ?_
  rw [termAndVote_eq]
  have current : before.headerView.current = before.termAndVote := rfl
  rw [current, termAndVote_eq]
  exact later

/-- A change that keeps term and vote does not show at all. -/
theorem headerView_of_calm
    {before after : Server}
    (same : after.ground = before.ground)
    (sameTerm : after.view.term = before.view.term)
    (sameVote : after.view.vote = before.view.vote) :
    after.headerView = before.headerView := by
  rw [headerView_of_ground same, termAndVote_eq, sameTerm, sameVote,
    ← termAndVote_eq]
  rfl

/-- A demotion goes up in the order. -/
theorem View.voteLe_demote
    {view : View}
    {msgTerm : Nat}
    (higher : view.term < msgTerm) :
    VoteLe (view.term, view.vote)
      ((view.demote msgTerm).term, (view.demote msgTerm).vote) :=
  Or.inl higher

/-- A candidacy goes up in the order. -/
theorem View.voteLe_elect
    (view : View) :
    VoteLe (view.term, view.vote) (view.elect.term, view.elect.vote) :=
  Or.inl (Nat.lt_succ_self _)

/-- A vote of a node that has none goes up in the order. -/
theorem View.voteLe_withVote
    {view : View}
    {vote : Nat}
    (free : view.vote = 0 ∨ view.vote = vote) :
    VoteLe (view.term, view.vote)
      ((view.withVote vote).term, (view.withVote vote).vote) := by
  refine Or.inr ⟨rfl, ?_⟩
  rcases free with none | same
  · exact Or.inr none
  · by_cases inside : view.index < view.votes.length
    · left
      simp [View.withVote, View.vote, inside] at same ⊢
      exact same
    · right
      simp [View.vote, Nat.not_lt.mp inside]

/-- Recording another node's vote keeps the own one. -/
theorem View.vote_record
    {view : View}
    {peerIndex : Nat}
    (other : peerIndex ≠ view.index) :
    (view.record peerIndex).vote = view.vote := by
  simp [View.record, View.vote, List.getD_eq_getElem?_getD,
    List.getElem?_set_ne other]

/-- The section keeps a sound header, when it throws if no sync fails. -/
def KeepsSound
    {α : Type}
    (action : Section α)
    (server : Server) : Prop :=
  wp action
    (fun _ final =>
      final.headerView.Sound ∧
        (server.headerView.SyncsSucceed → final.headerView.SyncsSucceed))
    (fun _ final =>
      final.headerView.AllDurable ∧
        (server.headerView.SyncsSucceed → final.headerView.Sound)) server

/-- Persist after a change that moved term and vote forward. -/
theorem keepsSound_persist
    {before after : Server}
    {writeLog : Bool}
    {nNewEntries : Nat}
    (sound : before.headerView.Sound)
    (same : after.ground = before.ground)
    (later :
      VoteLe (before.view.term, before.view.vote)
        (after.view.term, after.view.vote)) :
    wp (persistCircular writeLog nNewEntries)
      (fun _ final =>
        final.headerView.Sound ∧
          (before.headerView.SyncsSucceed → final.headerView.SyncsSucceed))
      (fun _ final =>
        final.headerView.AllDurable ∧
          (before.headerView.SyncsSucceed → final.headerView.Sound))
      after := by
  have sameSyncs :
      before.headerView.SyncsSucceed → after.headerView.SyncsSucceed := by
    rw [headerView_of_ground same]
    exact id
  refine wp_mono
    (persistCircular_header writeLog nNewEntries
      (sound_of_forward sound same later)) ?_ ?_
  · rintro _ final ⟨kept, finalSound, -⟩
    exact ⟨finalSound, fun succeed => kept.syncs (sameSyncs succeed)⟩
  · rintro _ final ⟨-, durable, finalSound⟩
    exact ⟨durable, fun succeed => finalSound (Or.inl (sameSyncs succeed))⟩

/-- Taking over a higher term leaves a sound header. -/
theorem updateTerm_sound
    (msgTerm : Nat)
    {server : Server}
    (sound : server.headerView.Sound) :
    KeepsSound (updateTerm msgTerm) server := by
  simp only [KeepsSound, updateTerm, wp_bind, wp_get, wp_ite, wp_modify,
    wp_pure]
  split
  · rename_i higher
    refine keepsSound_persist sound (demote_ground server msgTerm) ?_
    rw [demote_view]
    exact View.voteLe_demote higher
  · exact ⟨sound, id⟩

/-- A timeout leaves a sound header. -/
theorem timeout_sound
    (expired : Bool)
    {server : Server}
    (sound : server.headerView.Sound) :
    KeepsSound (timeout expired) server := by
  simp only [KeepsSound, timeout, wp_bind, wp_ite, wp_modify, wp_pure]
  split
  · refine keepsSound_persist sound (startElection_ground server) ?_
    rw [startElection_view]
    exact View.voteLe_elect _
  · exact ⟨sound, id⟩

/-- A vote goes to nobody who is not the one it was given to already. -/
theorem vote_of_grants
    {req : RequestVoteRequest}
    {server : Server}
    (granted : server.grants req = true) :
    server.view.vote = 0 ∨ server.view.vote = req.candidateId := by
  rw [grants_eq] at granted
  simp only [View.grants, Bool.and_eq_true, Bool.or_eq_true,
    decide_eq_true_eq] at granted
  exact granted.2

/-- A vote request leaves a sound header. -/
theorem handleRequestVoteRequest_sound
    (req : RequestVoteRequest)
    {server : Server}
    (sound : server.headerView.Sound) :
    KeepsSound (handleRequestVoteRequest req) server := by
  simp only [KeepsSound, handleRequestVoteRequest, wp_bind, wp_discard,
    wp_get, wp_ite, wp_modify, wp_pure]
  refine wp_mono (updateTerm_sound req.term sound) ?_ fun _ _ kept => kept
  rintro _ middle ⟨middleSound, syncs⟩
  split
  · exact ⟨middleSound, syncs⟩
  · split
    · rename_i granted
      have free := vote_of_grants granted
      refine wp_mono
        (keepsSound_persist middleSound
          (setVotedFor_ground middle req.candidateId) ?_) ?_ ?_
      · rw [setVotedFor_view]
        exact View.voteLe_withVote free
      · exact fun _ final kept =>
          ⟨kept.1, fun succeed => kept.2 (syncs succeed)⟩
      · exact fun _ final kept =>
          ⟨kept.1, fun succeed => kept.2 (syncs succeed)⟩
    · exact ⟨middleSound, syncs⟩

/-- A granted vote is answered with a durable header. -/
theorem handleRequestVoteRequest_granted
    (req : RequestVoteRequest)
    {server : Server}
    (sound : server.headerView.Sound) :
    wp (handleRequestVoteRequest req)
      (fun rsp final =>
        rsp.voteGranted = true →
          final.headerView.Sound ∧ final.headerView.Cached)
      (fun _ _ => True) server := by
  simp only [handleRequestVoteRequest, wp_bind, wp_discard, wp_get, wp_ite,
    wp_modify, wp_pure]
  refine wp_mono (updateTerm_sound req.term sound) ?_ fun _ _ _ => trivial
  rintro _ middle ⟨middleSound, -⟩
  split
  · exact fun impossible => by cases impossible
  · split
    · rename_i granted
      have free := vote_of_grants granted
      have votedSound :
          (middle.setVotedFor req.candidateId).headerView.Sound := by
        refine sound_of_forward middleSound (setVotedFor_ground middle _) ?_
        rw [setVotedFor_view]
        exact View.voteLe_withVote free
      refine wp_mono (persistCircular_header false 0 votedSound) ?_
        fun _ _ _ => trivial
      rintro _ final ⟨-, finalSound, cached⟩ _
      exact ⟨finalSound, cached⟩
    · exact fun impossible => by cases impossible

end NvmeofRaft
