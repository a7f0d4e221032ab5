import Icecast.Lib.Machine
import Icecast.Lib.Socket

/-!
# ICY metadata from a source client

The receiving half of `format_mp3.c`. A source that announced `icy-metaint` sends a metadata block
behind every `inline_metadata_interval` bytes of audio. The stream is read in buffers of 1400 bytes;
`mp3_get_filter_meta` takes the blocks out of such a buffer in place, so that what is left at its
start is audio. A block may begin in one buffer and end in another one, and is put together in
`build_metadata` meanwhile.

What `mp3_set_title` makes of a title that was set from elsewhere is part of the event that sets it.
-/

namespace Icecast.Format.Mp3Reader

open Lib.Machine Lib.Socket

abbrev Bytes := List UInt8

def refbufSize : ℕ := 1400

/-- `mp3_state`. The first `read_count` bytes of `read_data` and the first `build_metadata_offset`
bytes of `build_metadata` are kept as lists; what follows the latter is zero. -/
structure Mp3State where
  inlineMetadataInterval : ℕ
  offset : ℕ
  metadata : Bytes
  updateMetadata : Option Bytes
  readData : Option Bytes
  buildMetadataLen : ℕ
  buildMetadata : Bytes
  deriving DecidableEq

/-- A buffer from which metadata is being removed, and the local variables of the loop: `bytes`
bytes from `src` on have not been looked at, and the first `len` bytes will be kept. -/
structure Filter where
  data : Bytes
  src : ℕ
  bytes : ℕ
  len : ℕ
  deriving DecidableEq

def memmove (data : Bytes) (dst src n : ℕ) : Bytes :=
  data.take dst ++ (data.drop src).take n ++ data.drop (dst + n)

/-- The text before the terminating null byte. -/
def cString (bytes : Bytes) : Bytes := bytes.takeWhile (· ≠ 0)

def streamTitle : Bytes := "StreamTitle=".toList.map fun char ↦ UInt8.ofNat char.toNat

/-- Assign a block that is complete up to its last byte, if it holds text and the text has changed.
There is no result for a block in the wrong format. -/
def assignMetadata (mp3 : Mp3State) : Option Mp3State :=
  if 1 < mp3.buildMetadataLen ∧
      cString (mp3.buildMetadata.drop 1) ≠ cString (mp3.metadata.drop 1) then
    let block := mp3.buildMetadata ++
      List.replicate (mp3.buildMetadataLen - mp3.buildMetadata.length) 0
    if (block.drop 1).take 12 = streamTitle then some { mp3 with metadata := block } else none
  else some mp3

/-- The first byte of a block tells how long it is. -/
def beginBlock (mp3 : Mp3State) (filter : Filter) : Mp3State :=
  if mp3.buildMetadataLen = 0 then
    { mp3 with
      buildMetadata := []
      buildMetadataLen := 1 + ((filter.data.drop filter.src).headD 0).toNat * 16 }
  else mp3

/-- The loop of `mp3_get_filter_meta`. Every turn that does not end it looks at one byte at least. -/
def filterLoop : ℕ → Mp3State → Filter → Bool × Mp3State × Filter
  | 0, mp3, filter => (true, mp3, filter)
  | fuel + 1, mp3, filter =>
    if filter.bytes = 0 then (true, mp3, filter)
    else
      let mp3Block := mp3.inlineMetadataInterval - mp3.offset
      if filter.bytes ≤ mp3Block then
        (true, { mp3 with offset := mp3.offset + filter.bytes },
          { filter with len := filter.len + filter.bytes })
      else if mp3Block ≠ 0 then
        filterLoop fuel { mp3 with offset := mp3.offset + mp3Block }
          { filter with
            src := filter.src + mp3Block
            bytes := filter.bytes - mp3Block
            len := filter.len + mp3Block }
      else
        let mp3 := beginBlock mp3 filter
        let src := filter.data.drop filter.src
        let metadataRemaining := mp3.buildMetadataLen - mp3.buildMetadata.length
        if filter.bytes < metadataRemaining then
          (true, { mp3 with buildMetadata := mp3.buildMetadata ++ src.take filter.bytes }, filter)
        else
          let mp3 := { mp3 with
            buildMetadata := mp3.buildMetadata ++ src.take (metadataRemaining - 1) }
          let bytes := filter.bytes - metadataRemaining
          let filter := { filter with
            bytes := bytes
            data := memmove filter.data filter.src (filter.src + metadataRemaining) bytes }
          match assignMetadata mp3 with
          | none => (false, mp3, filter)
          | some mp3 => filterLoop fuel { mp3 with offset := 0, buildMetadataLen := 0 } filter

/-- What a read from the source client finds: nothing, with or without the connection being lost, or
bytes of which `limit` have arrived. -/
inductive ReadOutcome where
  | fail (error : Bool)
  | bytes (limit : ℕ)
  deriving DecidableEq

/-- The source. `returned` are the data of the buffers returned so far, `completed` counts the reads
that filled a buffer, and `formatError` records that a block in the wrong format was found. -/
structure Source where
  mp3 : Mp3State
  incoming : Bytes
  conError : Bool
  running : Bool
  returned : List Bytes
  completed : ℕ
  formatError : Bool
  deriving DecidableEq

def setReadData (s : Source) (readData : Option Bytes) : Source :=
  { s with mp3 := { s.mp3 with readData := readData } }

/-- `complete_read`: whether the buffer in `read_data` is full. -/
def completeRead (s : Source) : ReadOutcome → Bool × Source
  | .fail error =>
    let s := { s with conError := s.conError || error }
    (false, setReadData s (if s.conError then none else some (s.mp3.readData.getD [])))
  | .bytes limit =>
    let data := s.mp3.readData.getD []
    let (read, incoming) := readBytes s.incoming limit (refbufSize - data.length)
    let s := { s with incoming := incoming, conError := s.conError || read = [] }
    let data := data ++ read
    if data.length < refbufSize then
      (false, setReadData s (if data = [] then none else some data))
    else (true, setReadData s (some data))

/-- A title set from elsewhere becomes the metadata before the next buffer is filtered. -/
def mp3SetTitle (mp3 : Mp3State) : Mp3State :=
  { mp3 with metadata := mp3.updateMetadata.getD mp3.metadata, updateMetadata := none }

def mp3GetFilterMeta (s : Source) (read : ReadOutcome) : Source :=
  match completeRead s read with
  | (false, s) => s
  | (true, s) =>
    let data := s.mp3.readData.getD []
    let mp3 := mp3SetTitle { s.mp3 with readData := none }
    let s := { s with completed := s.completed + 1 }
    match filterLoop (data.length + 1) mp3 ⟨data, 0, data.length, 0⟩ with
    | (false, mp3, _) => { s with mp3 := mp3, running := false, formatError := true }
    | (true, mp3, filter) =>
      if filter.len = 0 then { s with mp3 := mp3 }
      else { s with mp3 := mp3, returned := s.returned ++ [filter.data.take filter.len] }

inductive Event where
  | getBuffer (read : ReadOutcome)
  | setTitle (block : Bytes)
  deriving DecidableEq

/-- A call from `get_next_buffer`, which ends the source when its connection is lost, or a change of
the title by another thread. -/
def step (s : Source) : Event → Source
  | .getBuffer read =>
    if s.running then
      let s := mp3GetFilterMeta s read
      { s with running := s.running && !s.conError }
    else s
  | .setTitle block => { s with mp3 := { s.mp3 with updateMetadata := some block } }

/-- The block that `format_mp3_get_plugin` starts with. -/
def initialMetadata : Bytes :=
  1 :: ("StreamTitle='';".toList.map fun char ↦ UInt8.ofNat char.toNat) ++ [0]

def startSource (interval : ℕ) (stream : Bytes) : Source where
  mp3 := ⟨interval, 0, initialMetadata, none, none, 0, []⟩
  incoming := stream
  conError := false
  running := true
  returned := []
  completed := 0
  formatError := false

end Icecast.Format.Mp3Reader
