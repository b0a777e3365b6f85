import NvmeofRaft.OneLeader

namespace NvmeofRaft

/-!
# A chunk of a copy

A chunk that a run of one leader allows brings the leader's bytes to the same
place of a follower's ring file, and none to an entry that the leader has since
covered.
-/

/-- An entry is in a file when each of its bytes is. -/
theorem holdsEntry_iff
    {file : ByteImage}
    {entry : Entry}
    {logIdx start : Nat} :
    HoldsEntry file entry logIdx start ↔
      ∀ position < entry.needed * sectorSize,
        file (slotOffset start + position) =
          (encodeEntry entry entry.needed logIdx).getD position 0 := by
  have size := encodeEntry_length entry logIdx
  constructor
  · intro holds position inside
    rw [← holds.encoded, ByteImage.read, List.getD_eq_getElem?_getD,
      List.getElem?_map, List.getElem?_range inside]
    rfl
  · intro bytes
    refine ⟨List.ext_getElem? fun position => ?_⟩
    rw [ByteImage.read, List.getElem?_map]
    by_cases inside : position < entry.needed * sectorSize
    · rw [List.getElem?_range inside, Option.map_some, bytes position inside,
        List.getD_eq_getElem?_getD,
        List.getElem?_eq_getElem (by rw [size]; exact inside)]
      rfl
    · rw [List.getElem?_eq_none (by rw [List.length_range]; omega),
        List.getElem?_eq_none (by rw [size]; omega)]
      rfl

/-- The bytes of an item that is in the ring are inside the ring file. -/
theorem RingLayout.LiesAt.entry_inside
    {layout : RingLayout}
    {physical length start needed position : Nat}
    (lies : layout.LiesAt physical length)
    (inRing : start + needed ≤ layout.ringSlots)
    (inside : position < needed * sectorSize) :
    slotOffset start + position < length := by
  have whole := Nat.mul_le_mul_right sectorSize inRing
  rw [Nat.add_mul] at whole
  exact lies.below (by omega)

section

variable {n : Nat} {members : Membership n} {leader : Fin n}
variable {layouts : Fin n → RingLayout} {source : Nat} {fabric : Fabric n}

/-- A thread that waits for a copy has a request for a follower. -/
theorem Fabric.Sound.copyJob
    (sound : fabric.Sound members leader layouts source)
    {owner : Fin n}
    {thread dst : Nat}
    {req : AppendEntriesRequest}
    (job :
      (fabric.cluster.procs owner).copyJob? owner thread = some (dst, req)) :
    ∃ member : Fin n,
      dst = member ∧ member ≠ leader ∧ (owner = member ∨ owner = leader) ∧
        req.DescribesPlaced leader (layouts leader) fabric.placed := by
  unfold Process.copyJob? at job
  split at job
  · rename_i pending found
    cases job
    obtain ⟨other, describes, -⟩ :=
      sound.threads owner _ (List.mem_of_getElem? found)
    exact ⟨owner, rfl, other, Or.inl rfl, describes⟩
  · rename_i call found
    cases job
    obtain ⟨rfl, ⟨member, same, other⟩, describes⟩ :=
      sound.threads owner _ (List.mem_of_getElem? found)
    exact ⟨member, same, other, Or.inr rfl, describes⟩
  · cases job

variable {req : AppendEntriesRequest}

/-- The block of a request is not empty, and its source is the start slot. -/
theorem AppendEntriesRequest.DescribesPlaced.located
    {length : Nat}
    (describes : req.DescribesPlaced leader (layouts leader) fabric.placed)
    (lies : (layouts leader).LiesAt source length) :
    0 < req.logBlockLength ∧
      req.leaderPbaSrc = source + slotOffset req.startSlot := by
  have within := describes.within
  have data := describes.data
  obtain ⟨⟨entry, start⟩, found⟩ :
      ∃ item, fabric.placed[req.prevLogIndex + 0]? = some item :=
    ⟨_, List.getElem?_eq_getElem (by omega)⟩
  obtain ⟨starts, ends⟩ := describes.slots 0 entry start data found
  have needed : 0 < entry.needed := slotsForEntry_pos _
  rw [List.take_zero] at starts
  change start = req.startSlot + 0 at starts
  have positive : 0 < req.logBlockLength := by
    omega
  refine ⟨positive, ?_⟩
  have inRing := describes.inRing
  have inside := @RingLayout.LiesAt.entry_inside _ _ _ req.startSlot 1 0 lies
    (by omega) (by decide)
  rw [Nat.add_zero] at inside
  have address := describes.source
  rw [lies.physicalAt inside, Option.some.injEq] at address
  exact address.symm

end

/-- The chunk carries a byte of the source ring file. -/
def PbaChunk.Carries
    (chunk : PbaChunk)
    (source logical : Nat) : Prop :=
  chunk.src ≤ source + logical ∧
    source + logical < chunk.src + chunk.nbytes

instance PbaChunk.Carries.decidable
    (chunk : PbaChunk)
    (source logical : Nat) :
    Decidable (chunk.Carries source logical) :=
  inferInstanceAs (Decidable (_ ∧ _))

/-- A chunk of a request has been copied to a follower. -/
structure Fabric.Brings
    {n : Nat}
    (fabric next : Fabric n)
    (leader dst : Fin n)
    (req : AppendEntriesRequest)
    (chunk : PbaChunk)
    (source length : Nat) : Prop where
  others :
    ∀ member,
      member ≠ dst →
      next.cluster.procs member = fabric.cluster.procs member
  self :
    ∃ volume,
      next.cluster.procs dst = (fabric.cluster.procs dst).reread volume
  net : next.cluster.net = fabric.cluster.net
  placed : next.placed = fabric.placed
  landed : next.landed = { dst, req, chunk } :: fabric.landed
  file :
    ∀ logical < length,
      (next.cluster.procs dst).server.io.file logical =
        if chunk.Carries source logical then
          (fabric.cluster.procs leader).server.io.file logical
        else
          (fabric.cluster.procs dst).server.io.file logical
  inside :
    ∀ logical,
      chunk.Carries source logical →
      slotOffset req.startSlot ≤ logical ∧
        logical < slotOffset req.startSlot + copyBytes req.logBlockLength

section

variable {n : Nat} {members : Membership n} {leader : Fin n}
variable {layouts : Fin n → RingLayout} {source length : Nat}
variable {fabric next : Fabric n} {owner : Fin n} {thread index : Nat}
variable (sound : fabric.Sound members leader layouts source)
variable (rings : Rings leader layouts source)
variable (lies : (layouts leader).LiesAt source length)

include sound lies

/-- The chunks of a copy to a follower, in front of its ring end. -/
theorem Fabric.Sound.carries
    {dst : Fin n}
    {req : AppendEntriesRequest}
    {chunks : List PbaChunk}
    {dstAt dstLength : Nat}
    (destination : (layouts dst).LiesAt dstAt dstLength)
    (describes : req.DescribesPlaced leader (layouts leader) fabric.placed)
    (inRing :
      req.startSlot * sectorSize + copyBytes req.logBlockLength ≤
        (layouts dst).ringSlots * sectorSize)
    (cut : (fabric.cluster.procs dst).server.copyChunks req = .ok chunks) :
    CarriesOn (source + slotOffset req.startSlot)
      (dstAt + slotOffset req.startSlot) (copyBytes req.logBlockLength)
      chunks := by
  obtain ⟨-, address⟩ := describes.located lies
  rw [Server.copyChunks, sound.laidOut dst, address] at cut
  have positive : source + slotOffset req.startSlot ≠ 0 := by
    unfold slotOffset ringOffset headerSize sectorSize
    omega
  exact destination.doPbaCopy positive inRing cut

include rings

/-- A copy that the run allows brings its chunk to the follower. -/
theorem Fabric.Sound.brings
    (keeps : fabric.keepsCommands (.copy owner thread index) = true)
    (stepped : fabric.stepCopy owner thread index = some next) :
    ∃ (dst : Fin n) (req : AppendEntriesRequest) (chunk : PbaChunk),
      dst ≠ leader ∧
        req.DescribesPlaced leader (layouts leader) fabric.placed ∧
          bringsCurrent fabric.placed req = true ∧
            fabric.Brings next leader dst req chunk source length := by
  unfold Fabric.stepCopy at stepped
  dsimp only at stepped
  split at stepped
  · rename_i dst req job
    simp only [Fabric.keepsCommands, job, Bool.and_eq_true] at keeps
    obtain ⟨⟨stays, alike⟩, current⟩ := keeps
    obtain ⟨dst, rfl, other, whose, describes⟩ := sound.copyJob job
    split at stepped
    · rename_i chunks cut
      split at stepped
      · rename_i chunk found
        rw [dif_pos dst.isLt] at stepped
        cases stepped
        refine ⟨dst, req, chunk, other, describes, current, ?_⟩
        have same :
            (fabric.cluster.procs dst).server.copyChunks req = .ok chunks := by
          rw [Fabric.inPlace, dif_pos dst.isLt, cut] at alike
          split at alike
          · rename_i first second foundFirst foundSecond
            cases foundFirst
            rw [of_decide_eq_true alike]
            exact foundSecond
          · cases alike
        have inRing :
            req.startSlot * sectorSize + copyBytes req.logBlockLength ≤
              (layouts dst).ringSlots * sectorSize := by
          have ends := of_decide_eq_true stays
          rw [sound.laidOut owner] at ends
          rcases whose with rfl | rfl
          · exact ends
          · exact ends.trans
              (Nat.mul_le_mul_right _ (rings.larger dst))
        obtain ⟨dstAt, dstLength, destination, -⟩ := rings.lies dst
        have carries :=
          sound.carries lies destination describes inRing same
        obtain ⟨shift, ends, atSrc, atDst⟩ :=
          carries.inside chunk (List.mem_of_getElem? found)
        have inFile :
            slotOffset req.startSlot + shift + chunk.nbytes ≤ dstLength := by
          have holds := destination.holds
          unfold slotOffset at holds ⊢
          omega
        rw [describes.device]
        refine ⟨fun member apart => ?_, ?_, rfl, rfl, rfl, ?_, ?_⟩
        · exact fabric.copyChunk_others leader chunk apart
        · exact fabric.copyChunk_self leader dst chunk
        · intro logical inSource
          refine (@Fabric.copyChunk_file _ _ _ _ _ source _ _ _
            (slotOffset req.startSlot + shift)
            (sound.laidOut leader ▸ lies) (sound.laidOut dst ▸ destination)
            inFile (by omega) (by omega) _ inSource).trans ?_
          refine if_congr ?_ rfl rfl
          unfold PbaChunk.Carries
          omega
        · rintro logical ⟨starts, stops⟩
          omega
      · cases stepped
    · cases stepped
  · cases stepped

end

/-- An entry that a copy meets has not been covered. -/
theorem uncovered_of_meets
    {placed : List (Entry × Nat)}
    {req : AppendEntriesRequest}
    {position logical start : Nat}
    {entry : Entry}
    (current : bringsCurrent placed req = true)
    (found : placed[position]? = some (entry, start))
    (some : start ≠ 0)
    (inEntry :
      slotOffset start ≤ logical ∧
        logical < slotOffset start + entry.needed * sectorSize)
    (inCopy :
      slotOffset req.startSlot ≤ logical ∧
        logical < slotOffset req.startSlot + copyBytes req.logBlockLength) :
    Uncovered placed position (entry, start) := by
  have within := (List.getElem?_eq_some_iff.mp found).1
  have here := List.all_eq_true.mp current position
    (List.mem_range.mpr within)
  have ends :
      slotOffset (start + entry.needed) =
        slotOffset start + entry.needed * sectorSize := by
    unfold slotOffset
    rw [Nat.add_mul, Nat.add_assoc]
  have meets : meetsCopy req (entry, start) = true := by
    simp only [meetsCopy, Bool.and_eq_true, decide_eq_true_eq]
    omega
  simp only [found, meets, Bool.not_true, Bool.or_false, Bool.or_eq_true,
    decide_eq_true_eq] at here
  exact here.resolve_left some

section

variable {n : Nat} {members : Membership n} {leader dst : Fin n}
variable {layouts : Fin n → RingLayout} {source length : Nat}
variable {fabric next : Fabric n} {req : AppendEntriesRequest}
variable {chunk : PbaChunk}
variable (lies : (layouts leader).LiesAt source length)
variable (current : bringsCurrent fabric.placed req = true)
variable (brings : fabric.Brings next leader dst req chunk source length)
variable
  (image :
    HoldsPlaced (fabric.cluster.procs leader).server.io.file fabric.placed)

include lies current brings image

/-- A byte of a placed entry behind a copy: brought, or as it was. -/
theorem Fabric.Brings.byte
    {position start byte : Nat}
    {entry : Entry}
    (found : fabric.placed[position]? = some (entry, start))
    (some : start ≠ 0)
    (inRing : start + entry.needed ≤ (layouts leader).ringSlots)
    (inside : byte < entry.needed * sectorSize)
    (known :
      chunk.Carries source (slotOffset start + byte) ∨
        (fabric.cluster.procs dst).server.io.file (slotOffset start + byte) =
          (encodeEntry entry entry.needed (position + 1)).getD byte 0) :
    (next.cluster.procs dst).server.io.file (slotOffset start + byte) =
      (encodeEntry entry entry.needed (position + 1)).getD byte 0 := by
  rw [brings.file _ (lies.entry_inside inRing inside)]
  by_cases carried : chunk.Carries source (slotOffset start + byte)
  · rw [if_pos carried]
    have uncovered := uncovered_of_meets current found some
      ⟨Nat.le_add_right _ _, by omega⟩ (brings.inside _ carried)
    exact holdsEntry_iff.mp (image position entry start found uncovered) byte
      inside
  · rw [if_neg carried]
    exact known.resolve_left carried

/-- What a member shows it shows behind the copy, too. -/
theorem Fabric.Brings.shows
    {position : Nat}
    {item : Entry × Nat}
    (found : fabric.placed[position]? = some item)
    (shows :
      Shows (fabric.cluster.procs dst).server.io.file (layouts leader)
        (position + 1) item) :
    Shows (next.cluster.procs dst).server.io.file (layouts leader)
      (position + 1) item := by
  intro some
  obtain ⟨inRing, holds⟩ := shows some
  refine ⟨inRing, holdsEntry_iff.mpr fun byte inside => ?_⟩
  exact brings.byte lies current image found some inRing inside
    (Or.inr (holdsEntry_iff.mp holds byte inside))

/-- What an earlier chunk has brought is still there. -/
theorem Fabric.Brings.landed_in
    {landed : LandedChunk}
    (describes :
      landed.req.DescribesPlaced leader (layouts leader) fabric.placed)
    (known :
      landed.In (fabric.cluster.procs dst).server.io.file source
          fabric.placed ∨
        landed.req = req ∧ landed.chunk = chunk) :
    landed.In (next.cluster.procs dst).server.io.file source
      fabric.placed := by
  intro offset entry start byte within found some inside starts stops
  obtain ⟨-, ends⟩ := describes.slots offset entry start within found
  have inRing := describes.inRing
  refine brings.byte lies current image found some (by omega) inside ?_
  rcases known with before | ⟨-, same⟩
  · exact Or.inr
      (before offset entry start byte within found some inside starts stops)
  · rw [← same]
    exact Or.inl ⟨starts, stops⟩

end

theorem Process.Started.reread
    {proc : Process}
    (started : proc.Started)
    (volume : ByteImage) :
    (proc.reread volume).Started :=
  ⟨⟨started.wellformed.headerFits, started.wellformed.positive,
    started.wellformed.sentinel⟩, started.tail, started.reach⟩

section

variable {n : Nat} {members : Membership n} {leader : Fin n}
variable {layouts : Fin n → RingLayout} {source : Nat}
variable {fabric next : Fabric n} {owner : Fin n} {thread index : Nat}

/-- A chunk that the run allows keeps what such runs keep. -/
theorem Fabric.Sound.stepCopy
    (sound : fabric.Sound members leader layouts source)
    (rings : Rings leader layouts source)
    (keeps : fabric.keepsCommands (.copy owner thread index) = true)
    (stepped : fabric.stepCopy owner thread index = some next) :
    next.Sound members leader layouts source := by
  obtain ⟨length, lies⟩ := rings.source
  obtain ⟨dst, req, chunk, other, describes, current, brings⟩ :=
    sound.brings rings lies keeps stepped
  obtain ⟨volume, self⟩ := brings.self
  have leaderKept := brings.others leader fun same => other same.symm
  have servers :
      ∀ member,
        ∃ file,
          (next.cluster.procs member).server =
              { (fabric.cluster.procs member).server with
                io := { (fabric.cluster.procs member).server.io with
                  file } } ∧
            (next.cluster.procs member).threads =
                (fabric.cluster.procs member).threads ∧
              (next.cluster.procs member).halted =
                (fabric.cluster.procs member).halted := by
    intro member
    by_cases here : member = dst
    · rw [here, self]
      exact ⟨_, rfl, rfl, rfl⟩
    · rw [brings.others member here]
      exact ⟨_, rfl, rfl, rfl⟩
  have startedAll : ∀ member, (next.cluster.procs member).Started := by
    intro member
    by_cases here : member = dst
    · rw [here, self]
      exact (sound.started dst).reread volume
    · rw [brings.others member here]
      exact sound.started member
  have shows :
      ∀ (member : Fin n) position item,
        fabric.placed[position]? = some item →
        Shows (fabric.cluster.procs member).server.io.file (layouts leader)
          (position + 1) item →
        Shows (next.cluster.procs member).server.io.file (layouts leader)
          (position + 1) item := by
    intro member position item found before
    by_cases here : member = dst
    · rw [here] at before ⊢
      exact brings.shows lies current sound.image found before
    · rw [brings.others member here]
      exact before
  refine ⟨⟨fun member => (startedAll member).wellformed, ?_⟩, startedAll,
    ?_, ?_, ?_, ?_, ?_, ?_, ?_⟩
  · intro member
    obtain ⟨file, same, -⟩ := servers member
    rw [same]
    exact sound.sane.configured member
  · intro member
    obtain ⟨file, same, -⟩ := servers member
    rw [same]
    exact sound.laidOut member
  · rw [leaderKept, brings.placed]
    exact sound.leadership
  · rw [leaderKept, brings.placed]
    exact sound.image
  · intro member apart
    obtain ⟨role, defers, holds⟩ := sound.followers member apart
    obtain ⟨file, same, -, halted⟩ := servers member
    rw [brings.placed]
    refine ⟨?_, ?_, ?_⟩
    · rw [same]
      exact role
    · rw [same, halted]
      exact defers
    · intro running position item found inLog
      rw [halted] at running
      have inLog' :
          position + 1 <
            (fabric.cluster.procs member).server.ring.tailLogIndex := by
        rw [same] at inLog
        exact inLog
      exact shows member position item found
        (holds running position item found inLog')
  · intro message req' sent payload
    rw [brings.net] at sent
    obtain ⟨target, same, apart, sound', arrived⟩ :=
      sound.sent message req' sent payload
    rw [brings.placed]
    refine ⟨target, same, apart, sound', fun copied => ?_⟩
    intro offset item inside found
    exact shows target _ item found (arrived copied offset item inside found)
  · intro member thread held
    obtain ⟨file, -, threads, -⟩ := servers member
    rw [threads] at held
    rw [brings.placed]
    exact sound.threads member thread held
  · intro landed held
    rw [brings.landed] at held
    rw [brings.placed]
    rcases List.mem_cons.mp held with rfl | old
    · exact ⟨dst, rfl, other, describes,
        brings.landed_in lies current sound.image describes
          (Or.inr ⟨rfl, rfl⟩)⟩
    · obtain ⟨target, same, apart, describes', known⟩ := sound.landed landed old
      refine ⟨target, same, apart, describes', ?_⟩
      by_cases here : target = dst
      · rw [here] at known ⊢
        exact brings.landed_in lies current sound.image describes'
          (Or.inl known)
      · rw [brings.others target here]
        exact known

end

end NvmeofRaft
