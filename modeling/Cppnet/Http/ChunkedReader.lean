import Cppnet.Bytes
import Cppnet.Lib.Loop

/-!
# `chunked_reader`

`http/chunked_reader.cpp`: a reader of a body sent in chunks, each of them its size in
decimal, an end of line, as many bytes, and an end of line; the last one is empty.
-/

namespace Cppnet.Http

open Lib Io

/-- `chunked_reader`, on a parent with the states `σ`. -/
structure ChunkedReader (σ : Type*) where
  parent : σ
  currentChunkSize : ℕ
  deriving DecidableEq, Repr

namespace ChunkedReader

variable {σ : Type*}

/-- The constructor. -/
def new (parent : σ) : ChunkedReader σ := ⟨parent, 0⟩

variable [Reader σ Byte ErrorCondition]

/-- One turn of the loop of `get_next_chunk_size`, which leaves it with the error. -/
def sizeTurn (r : ChunkedReader σ) :
    Option (Turn (ChunkedReader σ) (Option ErrorCondition × ChunkedReader σ)) := do
  let (res, data, parent) ← Reader.read r.parent [0]
  let r := { r with parent }
  let next := data.headD 0
  if res.err.isSome then some (.done (res.err, r))
  else if ch '0' ≤ next ∧ next ≤ ch '9' then
    some (.next
      { r with currentChunkSize := (r.currentChunkSize * 10 + (next - ch '0').toNat) % 2 ^ 64 })
  else if next = ch '\r' then
    -- end of the size: the next byte should be a line feed
    let (res, data, parent) ← Reader.read r.parent [next]
    let r := { r with parent }
    if res.err.isSome then some (.done (res.err, r))
    else if data.headD 0 = ch '\n' then some (.done (none, r))
    else some (.done (some (.errc .illegalByteSequence), r))
  else some (.done (some (.errc .illegalByteSequence), r))

/-- `get_next_chunk_size`. -/
def getNextChunkSize (r : ChunkedReader σ) : Option (Option ErrorCondition × ChunkedReader σ) :=
  Loop.run sizeTurn (Reader.fuel r.parent + 1) { r with currentChunkSize := 0 }

/-- `validate_end_of_chunk`. -/
def validateEndOfChunk (r : ChunkedReader σ) :
    Option (Option ErrorCondition × ChunkedReader σ) := do
  let (res, data, parent) ← Reader.read r.parent [0, 0]
  let r := { r with parent }
  if res.err.isSome then some (res.err, r)
  else if data.getD 0 0 ≠ ch '\r' ∧ data.getD 1 0 ≠ ch '\n' then
    some (some (.errc .illegalByteSequence), r)
  else some (none, r)

/-- The state of the loop of `read`. -/
structure State (σ : Type*) where
  reader : ChunkedReader σ
  bytesRead : ℕ
  data : Bytes

/-- The end of a turn of the loop of `read`: what is left of the chunk, or of the span. -/
def readChunk (s : State σ) : Option (Turn (State σ) (Result × Bytes × ChunkedReader σ)) := do
  let amountToRead := min (s.data.length - s.bytesRead) s.reader.currentChunkSize
  let (res, piece, parent) ← Reader.read s.reader.parent (subspan s.data s.bytesRead amountToRead)
  let data := overwrite s.data s.bytesRead piece
  let reader : ChunkedReader σ := ⟨parent, s.reader.currentChunkSize - res.count⟩
  let bytesRead := s.bytesRead + res.count
  if res.err.isSome then some (.done (⟨bytesRead, res.err⟩, data, reader))
  else if reader.currentChunkSize = 0 then
    let (err, reader) ← reader.validateEndOfChunk
    if err.isSome then some (.done (⟨bytesRead, err⟩, data, reader))
    else some (.next ⟨reader, bytesRead, data⟩)
  else some (.next ⟨reader, bytesRead, data⟩)

/-- One turn of the loop of `read`. -/
def readTurn (s : State σ) : Option (Turn (State σ) (Result × Bytes × ChunkedReader σ)) :=
  if s.bytesRead < s.data.length then
    if s.reader.currentChunkSize = 0 then do
      let (err, reader) ← s.reader.getNextChunkSize
      if err.isSome then some (.done (⟨s.bytesRead, err⟩, s.data, reader))
      else if reader.currentChunkSize = 0 then
        -- the last chunk
        let (err, reader) ← reader.validateEndOfChunk
        some (.done (⟨s.bytesRead, err⟩, s.data, reader))
      else readChunk { s with reader }
    else readChunk s
  else some (.done (⟨s.bytesRead, none⟩, s.data, s.reader))

/-- `read`, into the span `data`. -/
def read (r : ChunkedReader σ) (data : Bytes) : Option (Result × Bytes × ChunkedReader σ) :=
  Loop.run readTurn (Reader.fuel r.parent + 1) ⟨r, 0, data⟩

/-- Reads into spans, one after the other: the results, and what was delivered. -/
def reads (r : ChunkedReader σ) : List Bytes → Option (List Result × Bytes × ChunkedReader σ)
  | [] => some ([], [], r)
  | data :: datas => do
    let (res, data, r) ← r.read data
    let (results, out, r) ← r.reads datas
    some (res :: results, data.take res.count ++ out, r)

end ChunkedReader

end Cppnet.Http
