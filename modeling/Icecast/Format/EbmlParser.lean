import Icecast.Lib.Machine
import Icecast.Lib.Socket

/-!
# Reading an EBML stream from a source client

`format_ebml.c` cuts a WebM stream into a header and chunks for the queue. Bytes arrive in an input
buffer; the parser looks at the element that begins there, moves it to the header or to the read
buffer, and goes on with the next one. An element may be longer than what has arrived or than what
fits, so the number of bytes left to copy outlives a call. A Cluster has to begin a chunk of its own:
its place in the read buffer is remembered, and a second one waits in the input buffer until the
first has left.

The three buffers are lists of the bytes they hold. Two fields have no counterpart in `ebml_t`:
`consumed` counts the bytes that have left the input buffer, and `clusters` are the offsets in the
stream at which a Cluster was recognised.
-/

namespace Icecast.Format.Ebml

open Lib.Machine Lib.Socket

abbrev Bytes := List UInt8

def ebmlHeaderMaxSize : ℕ := 131072

def ebmlSliceSize : ℕ := 4096

/-- A value that no var-int takes. -/
def ebmlUnknown : ℕ := 2 ^ 64 - 1

def uncommonMagicLen : ℕ := 4
def commonMagicLen : ℕ := 1

def segmentMagic : Bytes := [0x18, 0x53, 0x80, 0x67]
def clusterMagic : Bytes := [0x1F, 0x43, 0xB6, 0x75]
def tracksMagic : Bytes := [0x16, 0x54, 0xAE, 0x6B]
def trackEntryMagic : Bytes := [0xAE]
def trackNumberMagic : Bytes := [0xD7]
def trackTypeMagic : Bytes := [0x83]
def simpleBlockMagic : Bytes := [0xA3]

inductive ReadMode where
  | readingHeader
  | readingClusters
  deriving DecidableEq

inductive ParsingState where
  | parsingHeader
  | copyingToHeader
  | startCluster
  | parsingClusters
  | copyingToData
  deriving DecidableEq

inductive ChunkType where
  | header
  | clusterStart
  | clusterContinue
  deriving DecidableEq

inductive KeyframeStatus where
  | unknown
  | doesNotStartCluster
  | startsCluster
  deriving DecidableEq

structure EbmlState where
  outputState : ReadMode
  parseState : ParsingState
  copyLen : ℕ
  clusterStart : ℤ
  clusterStartsWithKeyframe : KeyframeStatus
  flushCluster : Bool
  buffer : Bytes
  inputBuffer : Bytes
  headerSize : ℕ
  headerReadPosition : ℕ
  header : Bytes
  keyframeTrackNumber : ℕ
  parsingTrackNumber : ℕ
  parsingTrackIsVideo : Bool
  consumed : ℕ
  clusters : List ℕ
  deriving DecidableEq

def ebmlCreate : EbmlState where
  outputState := .readingHeader
  parseState := .parsingHeader
  copyLen := 0
  clusterStart := -1
  clusterStartsWithKeyframe := .doesNotStartCluster
  flushCluster := false
  buffer := []
  inputBuffer := []
  headerSize := 0
  headerReadPosition := 0
  header := []
  keyframeTrackNumber := ebmlUnknown
  parsingTrackNumber := ebmlUnknown
  parsingTrackIsVideo := false
  consumed := 0
  clusters := []

/-! ## Numbers and tags -/

/-- What a parse function returns: zero, minus one, or a length with the value that was read. -/
inductive Parsed where
  | wait
  | corrupt
  | done (length value : ℕ)
  deriving DecidableEq

/-- The returned length, read as an unsigned 64 bit number. -/
def Parsed.length : Parsed → ℕ
  | .wait => 0
  | .corrupt => 2 ^ 64 - 1
  | .done length _ => length

/-- The search for the length marker in the lowest `bits` bits of the first byte: the size of the
number, its first digits, and what these are in a number that stands for "unknown". -/
def findMarker (value : ℕ) : ℕ → Option (ℕ × ℕ × ℕ)
  | 0 => none
  | bit + 1 =>
    let mask := 2 ^ bit
    if value &&& mask ≠ 0 then some (8 - bit, value &&& (255 - mask), mask - 1)
    else findMarker value bit

def ebmlParseVarInt : Bytes → Parsed
  | [] => .wait
  | first :: rest =>
    match findMarker first.toNat 8 with
    | none => .corrupt
    | some (size, value, unknownMarker) =>
      if rest.length < size - 1 then .wait
      else
        let digits := rest.take (size - 1)
        let value := digits.foldl (fun value digit ↦ value * 256 + digit.toNat) value
        let unknownMarker := digits.foldl (fun marker _ ↦ marker * 256 + 0xFF) unknownMarker
        .done size (if value = unknownMarker then ebmlUnknown else value)

/-- The length of a tag, with the length of its payload for a value. -/
def ebmlParseTag (buffer : Bytes) : Parsed :=
  match ebmlParseVarInt buffer with
  | .done typeLength _ =>
    match ebmlParseVarInt (buffer.drop typeLength) with
    | .done sizeLength payloadLength => .done (typeLength + sizeLength) payloadLength
    | result => result
  | result => result

/-- One byte more than the number has to be there before it is read. -/
def ebmlParseSizedInt (buffer : Bytes) (len : ℕ) (isSigned : Bool) : Parsed :=
  if len < 1 ∨ 8 < len then .corrupt
  else if buffer.length ≤ len then .wait
  else
    let negative := isSigned && (buffer.headD 0 ≥ 0x80)
    let value := (buffer.take len).foldl (fun value digit ↦ (value * 256 + digit.toNat) % 2 ^ 64)
      (if negative then 2 ^ 64 - 1 else 0)
    .done len value

/-! ## Probing -/

/-- How a turn of the loop of `ebml_wrote` ends: with `processing` still set, with `processing`
cleared, or by returning minus one. -/
inductive Turn where
  | proceed
  | wait
  | fail
  deriving DecidableEq

def ebmlCheckTrack (ebml : EbmlState) : EbmlState :=
  if ebml.keyframeTrackNumber = ebmlUnknown ∧ ebml.parsingTrackIsVideo ∧
      ebml.parsingTrackNumber ≠ ebmlUnknown then
    { ebml with keyframeTrackNumber := ebml.parsingTrackNumber }
  else ebml

/-- Probe the header of a SimpleBlock for the keyframe status. -/
def probeSimpleBlock (ebml : EbmlState) (input : Bytes) (tagLength : ℕ) : Turn × EbmlState :=
  if ebml.clusterStartsWithKeyframe = .unknown then
    match ebmlParseVarInt (input.drop tagLength) with
    | .wait => (.wait, ebml)
    | .corrupt => (.fail, ebml)
    | .done trackNumberLength trackNumber =>
      if trackNumber = ebml.keyframeTrackNumber then
        match input[tagLength + trackNumberLength + 2]? with
        | none => (.wait, ebml)
        | some flags =>
          (.proceed, { ebml with
            clusterStartsWithKeyframe :=
              if flags &&& 0x80 ≠ 0 then .startsCluster else .doesNotStartCluster })
      else (.proceed, ebml)
  else (.proceed, ebml)

def probeTrackNumber (ebml : EbmlState) (input : Bytes) (tagLength payloadLength : ℕ) : Turn × EbmlState :=
  match ebmlParseSizedInt (input.drop tagLength) payloadLength false with
  | .wait => (.wait, ebml)
  | .corrupt => (.fail, ebml)
  | .done _ value => (.proceed, ebmlCheckTrack { ebml with parsingTrackNumber := value })

def probeTrackType (ebml : EbmlState) (input : Bytes) (tagLength payloadLength : ℕ) : Turn × EbmlState :=
  match ebmlParseSizedInt (input.drop tagLength) payloadLength false with
  | .wait => (.wait, ebml)
  | .corrupt => (.fail, ebml)
  | .done _ value =>
    if value &&& 0x01 ≠ 0 then (.proceed, ebmlCheckTrack { ebml with parsingTrackIsVideo := true })
    else (.proceed, ebml)

/-- The elements with short identifiers that the parser looks into. The last component is the
length of the payload that is copied without being parsed. -/
def probe (ebml : EbmlState) (input : Bytes) (tagLength payloadLength : ℕ) : Turn × EbmlState × ℕ :=
  if commonMagicLen < tagLength then
    if input.take commonMagicLen = simpleBlockMagic then
      let (turn, ebml) := probeSimpleBlock ebml input tagLength
      (turn, ebml, payloadLength)
    else if input.take commonMagicLen = trackEntryMagic then
      (.proceed, { ebml with parsingTrackNumber := ebmlUnknown, parsingTrackIsVideo := false }, 0)
    else if input.take commonMagicLen = trackNumberMagic then
      let (turn, ebml) := probeTrackNumber ebml input tagLength payloadLength
      (turn, ebml, payloadLength)
    else if input.take commonMagicLen = trackTypeMagic then
      let (turn, ebml) := probeTrackType ebml input tagLength payloadLength
      (turn, ebml, payloadLength)
    else (.proceed, ebml, payloadLength)
  else (.proceed, ebml, payloadLength)

/-! ## The loop of `ebml_wrote` -/

def copyState : ParsingState → ParsingState
  | .parsingHeader => .copyingToHeader
  | _ => .copyingToData

/-- Examine the element at the cursor. -/
def parseElement (ebml : EbmlState) (cursor : ℕ) : Turn × EbmlState :=
  let input := ebml.inputBuffer.drop cursor
  match ebmlParseTag input with
  | .wait => (.wait, ebml)
  | .corrupt => (.fail, ebml)
  | .done tagLength payloadLength =>
    let payloadLength := if payloadLength = ebmlUnknown then 0 else payloadLength
    if uncommonMagicLen < tagLength ∧ input.take uncommonMagicLen = clusterMagic then
      (.proceed, { ebml with
        parseState := .startCluster
        clusters := ebml.clusters ++ [ebml.consumed + cursor] })
    else
      let payloadLength :=
        if uncommonMagicLen < tagLength ∧ (input.take uncommonMagicLen = segmentMagic ∨
          input.take uncommonMagicLen = tracksMagic) then 0 else payloadLength
      match probe ebml input tagLength payloadLength with
      | (.proceed, probed, payloadLength) =>
        (.proceed, { probed with
          copyLen := tagLength + payloadLength
          parseState := copyState ebml.parseState })
      | (turn, probed, _) => (turn, probed)

/-- A Cluster has been found; it waits until the previous one has left the read buffer. -/
def startCluster (ebml : EbmlState) (cursor : ℕ) : Turn × EbmlState :=
  if 0 ≤ ebml.clusterStart then (.wait, { ebml with flushCluster := true })
  else
    (.proceed, { ebml with
      headerSize := ebml.header.length
      clusterStart := ebml.buffer.length
      clusterStartsWithKeyframe := .unknown
      flushCluster := false
      copyLen := (ebmlParseTag (ebml.inputBuffer.drop cursor)).length
      parseState := .copyingToData })

/-- Behind the copying: resume parsing, or wait for more data. -/
def finishCopy (ebml : EbmlState) (toCopy : ℕ) (resume : ParsingState) (cursor : ℕ) :
    Turn × EbmlState × ℕ :=
  let ebml := { ebml with copyLen := ebml.copyLen - toCopy }
  if ebml.copyLen = 0 then (.proceed, { ebml with parseState := resume }, cursor + toCopy)
  else (.wait, ebml, cursor + toCopy)

def copyToHeader (ebml : EbmlState) (cursor : ℕ) : Turn × EbmlState × ℕ :=
  let toCopy := min (ebml.inputBuffer.length - cursor) ebml.copyLen
  if ebmlHeaderMaxSize < ebml.header.length + toCopy then (.fail, ebml, cursor)
  else
    finishCopy { ebml with header := ebml.header ++ (ebml.inputBuffer.drop cursor).take toCopy }
      toCopy .parsingHeader cursor

def copyToData (ebml : EbmlState) (cursor : ℕ) : Turn × EbmlState × ℕ :=
  let toCopy := min (ebml.inputBuffer.length - cursor) ebml.copyLen
  let toCopy :=
    if ebmlSliceSize < ebml.buffer.length + toCopy then ebmlSliceSize - ebml.buffer.length
    else toCopy
  finishCopy { ebml with buffer := ebml.buffer ++ (ebml.inputBuffer.drop cursor).take toCopy }
    toCopy .parsingClusters cursor

def turn (ebml : EbmlState) (cursor : ℕ) : Turn × EbmlState × ℕ :=
  match ebml.parseState with
  | .parsingHeader | .parsingClusters =>
    let (turn, ebml) := parseElement ebml cursor
    (turn, ebml, cursor)
  | .startCluster =>
    let (turn, ebml) := startCluster ebml cursor
    (turn, ebml, cursor)
  | .copyingToHeader => copyToHeader ebml cursor
  | .copyingToData => copyToData ebml cursor

def wroteLoop : ℕ → EbmlState → ℕ → Turn × EbmlState × ℕ
  | 0, ebml, cursor => (.proceed, ebml, cursor)
  | fuel + 1, ebml, cursor =>
    match turn ebml cursor with
    | (.proceed, ebml, cursor) => wroteLoop fuel ebml cursor
    | result => result

/-- Process the bytes that have been written behind those in the input buffer. An element is at
least two bytes long and takes at most three turns. -/
def ebmlWrote (ebml : EbmlState) (written : Bytes) : ℤ × EbmlState :=
  let ebml := { ebml with inputBuffer := ebml.inputBuffer ++ written }
  match wroteLoop (3 * ebml.inputBuffer.length + 3) ebml 0 with
  | (.fail, ebml, _) => (-1, ebml)
  | (_, ebml, cursor) =>
    (written.length, { ebml with
      inputBuffer := ebml.inputBuffer.drop cursor
      consumed := ebml.consumed + cursor })

/-! ## Reading chunks -/

/-- The size of the next chunk. A full read buffer is flushed. -/
def ebmlReadSpace (ebml : EbmlState) : ℕ × EbmlState :=
  match ebml.outputState with
  | .readingHeader => (ebml.headerSize, ebml)
  | .readingClusters =>
    if 0 < ebml.clusterStart then (ebml.clusterStart.toNat, ebml)
    else
      let ebml :=
        if ebml.buffer.length = ebmlSliceSize then { ebml with flushCluster := true } else ebml
      if ebml.flushCluster then (ebml.buffer.length, ebml) else (0, ebml)

def ebmlReadHeader (ebml : EbmlState) (len : ℕ) : Bytes × ChunkType × EbmlState :=
  if ebml.headerSize ≠ 0 then
    let toRead := min len (ebml.headerSize - ebml.headerReadPosition)
    let headerReadPosition := ebml.headerReadPosition + toRead
    (ebml.header.take toRead, .header, { ebml with
      headerReadPosition := headerReadPosition
      outputState :=
        if headerReadPosition = ebml.headerSize then .readingClusters else ebml.outputState })
  else ([], .header, ebml)

def ebmlReadCluster (ebml : EbmlState) (len : ℕ) : Bytes × ChunkType × EbmlState :=
  let chunkType :=
    if ebml.clusterStart = 0 ∧ ebml.clusterStartsWithKeyframe ≠ .doesNotStartCluster
    then .clusterStart else .clusterContinue
  let readSpace :=
    if 0 < ebml.clusterStart then ebml.clusterStart.toNat else ebml.buffer.length
  let ebml := if ebml.clusterStart = 0 then { ebml with clusterStart := -1 } else ebml
  if readSpace < 1 then ([], chunkType, ebml)
  else
    let toRead := min len readSpace
    (ebml.buffer.take toRead, chunkType, { ebml with
      buffer := ebml.buffer.drop toRead
      clusterStart :=
        if 0 < ebml.clusterStart then ebml.clusterStart - toRead else ebml.clusterStart })

def ebmlRead (ebml : EbmlState) (len : ℕ) : Bytes × ChunkType × EbmlState :=
  if len < 1 then ([], .header, ebml)
  else
    match ebml.outputState with
    | .readingHeader => ebmlReadHeader ebml len
    | .readingClusters => ebmlReadCluster ebml len

/-- A buffer returned to the queue. -/
structure Chunk where
  data : Bytes
  syncPoint : Bool
  deriving DecidableEq

/-- The source: what it has been sent so far and what is still on its way, the captured header, and
the chunks it has returned. `parseError` records that `ebml_wrote` has returned minus one. -/
structure Source where
  ebml : EbmlState
  header : Option Bytes
  running : Bool
  incoming : Bytes
  received : Bytes
  chunks : List Chunk
  parseError : Bool
  deriving DecidableEq

/-- A chunk is available: the first one is the header. -/
def takeChunk (s : Source) (len : ℕ) : Source :=
  let (data, chunkType, ebml) := ebmlRead s.ebml len
  match s.header with
  | none => { s with ebml := ebml, header := some data }
  | some _ => { s with ebml := ebml, chunks := s.chunks ++ [⟨data, chunkType = .clusterStart⟩] }

/-- Feed more bytes into the parser. A read that brings nothing still lets it go on. -/
def feed (s : Source) (limit : ℕ) : Source :=
  let (data, incoming) := readBytes s.incoming limit (ebmlSliceSize - s.ebml.inputBuffer.length)
  let (ret, ebml) := ebmlWrote s.ebml data
  if data = [] then { s with ebml := ebml, parseError := s.parseError || ret = -1 }
  else if ret ≠ data.length then
    { s with
      ebml := ebml, incoming := incoming, received := s.received ++ data
      running := false, parseError := true }
  else { s with ebml := ebml, incoming := incoming, received := s.received ++ data }

/-- One turn of the loop of `ebml_get_buffer`, where a read finds at most `limit` bytes. A turn that
returns is followed by the first one of the next call. -/
def getBufferTurn (s : Source) (limit : ℕ) : Source :=
  let (len, ebml) := ebmlReadSpace s.ebml
  let s := { s with ebml := ebml }
  if 0 < len then takeChunk s len else feed s limit

def startSource (stream : Bytes) : Source where
  ebml := ebmlCreate
  header := none
  running := true
  incoming := stream
  received := []
  chunks := []
  parseError := false

end Icecast.Format.Ebml
