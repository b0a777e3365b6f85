import NvmeofRaft.State

namespace NvmeofRaft

/-!
# The ring file

`blockio/cached_fd.cpp`: resolution of file offsets through the cached extent
map, and the file operations of the persistence and start-up code.  Every
`write_at_file` and `fdatasync` call consumes one of the coming outcomes.
-/

/-- `PBASegment`: a contiguous physical region. -/
structure PbaSegment where
  pba : Nat
  len : Nat
  deriving Repr, DecidableEq

/--
The extents whose logical start is not above the offset.  On the sorted extent
list this is everything in front of `std::upper_bound`.
-/
def extentsUpTo
    (extents : List Extent)
    (logical : Nat) :
    List Extent :=
  extents.takeWhile fun extent => decide (extent.logical ≤ logical)

/-- `ExtentCache::lookup`. -/
def lookup
    (extents : List Extent)
    (logical length : Nat) :
    Except Exn PbaSegment :=
  match (extentsUpTo extents logical).getLast? with
  | none =>
      .error .noExtentCovers
  | some extent =>
      if extent.logical + extent.length ≤ logical then
        .error .offsetPastExtent
      else
        let intraOffset := logical - extent.logical
        .ok {
          pba := extent.physical + intraOffset
          len := min (extent.length - intraOffset) length
        }

/-- Whether an extent holds the byte at the offset. -/
def Extent.covers
    (extent : Extent)
    (logical : Nat) :
    Bool :=
  decide (extent.logical ≤ logical) &&
    decide (logical < extent.logical + extent.length)

/-- The binary search of `ExtentCache::remaining_at`. -/
def remainingAtSlow
    (extents : List Extent)
    (logical : Nat) :
    Nat × Int :=
  let before := extentsUpTo extents logical
  match before.getLast? with
  | none =>
      (0, 0)
  | some extent =>
      let index : Int := before.length - 1
      if extent.logical + extent.length ≤ logical then
        (0, index)
      else
        (extent.length - (logical - extent.logical), index)

/-- `ExtentCache::remaining_at`. -/
def remainingAt
    (extents : List Extent)
    (logical : Nat)
    (hint : Int) :
    Nat × Int :=
  if hint < 0 then
    remainingAtSlow extents logical
  else
    match extents[hint.toNat]? with
    | none =>
        remainingAtSlow extents logical
    | some extent =>
        if extent.covers logical then
          (extent.length - (logical - extent.logical), hint)
        else
          match extents[hint.toNat + 1]? with
          | none =>
              remainingAtSlow extents logical
          | some second =>
              if second.covers logical then
                (second.length - (logical - second.logical), hint + 1)
              else
                remainingAtSlow extents logical

/-- `CachedFD::is_contiguous`. -/
def StorageIo.isContiguous (io : StorageIo) : Bool :=
  decide (io.extents.length ≤ 1)

/-- `CachedFD::get_pba`. -/
def getPba (logical length : Nat) : Section PbaSegment := do
  let server ← get
  match lookup server.io.extents logical length with
  | .ok segment => return segment
  | .error exn => throw exn

/-- The outcome of the next `write_at_file` call. -/
def nextWriteOutcome : Section WriteOutcome := do
  let server ← get
  modify fun server => { server with
    io := { server.io with
      outcomes := { server.io.outcomes with
        writes := server.io.outcomes.writes.tail } } }
  return server.io.outcomes.writes.headD .done

/-- The outcome of the next `fdatasync` call. -/
def nextSyncOutcome : Section Bool := do
  let server ← get
  modify fun server => { server with
    io := { server.io with
      outcomes := { server.io.outcomes with
        syncs := server.io.outcomes.syncs.tail } } }
  return server.io.outcomes.syncs.headD true

/--
`CachedFD::write_at_file`.  A short or failed `pwrite` throws after some of
the bytes may have reached the file.
-/
def writeAtFile
    (data : List UInt8)
    (offset : Nat) :
    Section Unit := do
  match ← nextWriteOutcome with
  | .done =>
      modify fun server => { server with
        io := { server.io with file := server.io.file.write offset data } }
  | .fails landed =>
      modify fun server => { server with
        io := { server.io with
          file := server.io.file.write offset (data.take landed) } }
      throw .writeAtFile

/-- `CachedFD::fdatasync`: only a successful call makes the contents stable. -/
def fdatasync : Section Unit := do
  if ← nextSyncOutcome then
    modify fun server => { server with
      io := { server.io with stable := server.io.file } }
  else
    throw .fdatasync

/-- What the kernel answers to the system calls of `init_storage`. -/
structure KernelAnswers where
  openOk : Bool := true
  fallocateOk : Bool := true
  zeroRangeOk : Bool := true
  devicePathGiven : Bool := true
  fiemap : Option (List Extent)
  headerReadOk : Bool := true

/--
`create_ring_file`.  A file that is too short is extended, which keeps its
bytes; then the whole range is zeroed and synced.
-/
def createRingFile
    (kernel : KernelAnswers)
    (sizeBytes : Nat) :
    Section Nat := do
  if !kernel.openOk then
    throw .createRingFile
  let server ← get
  if server.io.fileSize < sizeBytes then
    if !kernel.fallocateOk then
      throw .createRingFile
    modify fun server => { server with
      io := { server.io with
        fileSize := sizeBytes
        stable := server.io.file } }
  if !kernel.zeroRangeOk then
    throw .createRingFile
  modify fun server =>
    let zeroed := server.io.file.zeroRange sizeBytes
    { server with io := { server.io with file := zeroed, stable := zeroed } }
  return (← get).io.fileSize

/-- `CachedFD::read_at_file`. -/
def readAtFile
    (kernel : KernelAnswers)
    (length offset : Nat) :
    Section (List UInt8) := do
  let server ← get
  if kernel.headerReadOk && decide (offset + length ≤ server.io.fileSize) then
    return server.io.file.read offset length
  else
    throw .readAtFile

end NvmeofRaft
