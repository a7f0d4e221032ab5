import Icecast.Format.EbmlPassthrough
import Icecast.Lib.Checked
import Icecast.Lib.MachineInt

/-!
# The EBML parser on its buffers

`EbmlParser` describes the parser by what its buffers hold. Here the three buffers are the memory that was
allocated for them, with a fill level each, as in `ebml_t`. A read or a write outside of a buffer and a
subtraction that would go below zero are faults, and `ebml_wrote` is followed turn by turn of its loop.

Below the cursor and behind the fill level the memory holds whatever was there before. The parser never
looks at it: on memory it does what it does on the bytes that the buffers hold.
-/

namespace Icecast.Format.EbmlMemory

open Lib.Checked Lib.MachineInt
open Ebml (Bytes ChunkType KeyframeStatus Parsed ParsingState ReadMode Turn clusterMagic commonMagicLen
  copyState ebmlHeaderMaxSize ebmlSliceSize ebmlUnknown findMarker segmentMagic simpleBlockMagic
  trackEntryMagic trackNumberMagic trackTypeMagic tracksMagic uncommonMagicLen)

inductive Fault where
  | outOfRange
  | underflow
  deriving DecidableEq, Repr

abbrev Run := Except Fault

structure EbmlSt where
  outputState : ReadMode
  parseState : ParsingState
  copyLen : ℕ
  clusterStart : ℤ
  clusterStartsWithKeyframe : KeyframeStatus
  flushCluster : Bool
  position : ℕ
  buffer : Bytes
  inputPosition : ℕ
  inputBuffer : Bytes
  headerSize : ℕ
  headerPosition : ℕ
  headerReadPosition : ℕ
  header : Bytes
  keyframeTrackNumber : ℕ
  parsingTrackNumber : ℕ
  parsingTrackIsVideo : Bool

def ebmlCreate : EbmlSt where
  outputState := .readingHeader
  parseState := .parsingHeader
  copyLen := 0
  clusterStart := -1
  clusterStartsWithKeyframe := .doesNotStartCluster
  flushCluster := false
  position := 0
  buffer := List.replicate ebmlSliceSize 0
  inputPosition := 0
  inputBuffer := List.replicate ebmlSliceSize 0
  headerSize := 0
  headerPosition := 0
  headerReadPosition := 0
  header := List.replicate ebmlHeaderMaxSize 0
  keyframeTrackNumber := ebmlUnknown
  parsingTrackNumber := ebmlUnknown
  parsingTrackIsVideo := false

/-! ## Numbers and tags -/

/-- The digits are read one after the other; all of them are in front of the end of the buffer. -/
def ebmlParseVarInt (memory : Bytes) (buffer bufferEnd : ℕ) : Run Parsed := do
  if bufferEnd ≤ buffer then return .wait
  else
    let first ← load .outOfRange memory buffer
    match findMarker first.toNat 8 with
    | none => return .corrupt
    | some (size, value, unknownMarker) =>
      if bufferEnd ≤ buffer + size - 1 then return .wait
      else
        let digits ← loadRange .outOfRange memory (buffer + 1) (size - 1)
        let value := digits.foldl (fun value digit ↦ value * 256 + digit.toNat) value
        let unknownMarker := digits.foldl (fun marker _ ↦ marker * 256 + 0xFF) unknownMarker
        return .done size (if value = unknownMarker then ebmlUnknown else value)

def ebmlParseTag (memory : Bytes) (buffer bufferEnd : ℕ) : Run Parsed := do
  match ← ebmlParseVarInt memory buffer bufferEnd with
  | .done typeLength _ =>
    match ← ebmlParseVarInt memory (buffer + typeLength) bufferEnd with
    | .done sizeLength payloadLength => return .done (typeLength + sizeLength) payloadLength
    | result => return result
  | result => return result

def ebmlParseSizedInt (memory : Bytes) (buffer bufferEnd len : ℕ) (isSigned : Bool) : Run Parsed := do
  if len < 1 ∨ 8 < len then return .corrupt
  else if bufferEnd ≤ buffer + len then return .wait
  else
    let negative := isSigned && (← load .outOfRange memory buffer) ≥ 0x80
    let digits ← loadRange .outOfRange memory buffer len
    return .done len (digits.foldl (fun value digit ↦ (value * 256 + digit.toNat) % 2 ^ 64)
      (if negative then 2 ^ 64 - 1 else 0))

/-! ## Probing -/

def ebmlCheckTrack (ebml : EbmlSt) : EbmlSt :=
  if ebml.keyframeTrackNumber = ebmlUnknown ∧ ebml.parsingTrackIsVideo ∧
      ebml.parsingTrackNumber ≠ ebmlUnknown then
    { ebml with keyframeTrackNumber := ebml.parsingTrackNumber }
  else ebml

def probeSimpleBlock (ebml : EbmlSt) (cursor tagLength : ℕ) : Run (Turn × EbmlSt) := do
  if ebml.clusterStartsWithKeyframe = .unknown then
    match ← ebmlParseVarInt ebml.inputBuffer (cursor + tagLength) ebml.inputPosition with
    | .wait => return (.wait, ebml)
    | .corrupt => return (.fail, ebml)
    | .done trackNumberLength trackNumber =>
      if trackNumber = ebml.keyframeTrackNumber then
        let place := cursor + tagLength + trackNumberLength + 2
        if ebml.inputPosition ≤ place then return (.wait, ebml)
        else
          let flags ← load .outOfRange ebml.inputBuffer place
          return (.proceed, { ebml with
            clusterStartsWithKeyframe :=
              if flags &&& 0x80 ≠ 0 then .startsCluster else .doesNotStartCluster })
      else return (.proceed, ebml)
  else return (.proceed, ebml)

def probeTrackNumber (ebml : EbmlSt) (cursor tagLength payloadLength : ℕ) : Run (Turn × EbmlSt) := do
  match ← ebmlParseSizedInt ebml.inputBuffer (cursor + tagLength) ebml.inputPosition payloadLength
    false with
  | .wait => return (.wait, ebml)
  | .corrupt => return (.fail, ebml)
  | .done _ value => return (.proceed, ebmlCheckTrack { ebml with parsingTrackNumber := value })

def probeTrackType (ebml : EbmlSt) (cursor tagLength payloadLength : ℕ) : Run (Turn × EbmlSt) := do
  match ← ebmlParseSizedInt ebml.inputBuffer (cursor + tagLength) ebml.inputPosition payloadLength
    false with
  | .wait => return (.wait, ebml)
  | .corrupt => return (.fail, ebml)
  | .done _ value =>
    if value &&& 0x01 ≠ 0 then
      return (.proceed, ebmlCheckTrack { ebml with parsingTrackIsVideo := true })
    else return (.proceed, ebml)

/-- `memcmp` with the input at the cursor. -/
def compares (ebml : EbmlSt) (cursor : ℕ) (magic : Bytes) : Run Bool := do
  return (← loadRange .outOfRange ebml.inputBuffer cursor magic.length) = magic

def probe (ebml : EbmlSt) (cursor tagLength payloadLength : ℕ) : Run (Turn × EbmlSt × ℕ) := do
  if commonMagicLen < tagLength then
    if ← compares ebml cursor simpleBlockMagic then
      let (turn, ebml) ← probeSimpleBlock ebml cursor tagLength
      return (turn, ebml, payloadLength)
    else if ← compares ebml cursor trackEntryMagic then
      return (.proceed, { ebml with
        parsingTrackNumber := ebmlUnknown, parsingTrackIsVideo := false }, 0)
    else if ← compares ebml cursor trackNumberMagic then
      let (turn, ebml) ← probeTrackNumber ebml cursor tagLength payloadLength
      return (turn, ebml, payloadLength)
    else if ← compares ebml cursor trackTypeMagic then
      let (turn, ebml) ← probeTrackType ebml cursor tagLength payloadLength
      return (turn, ebml, payloadLength)
    else return (.proceed, ebml, payloadLength)
  else return (.proceed, ebml, payloadLength)

/-! ## The loop of `ebml_wrote` -/

def isCluster (ebml : EbmlSt) (cursor tagLength : ℕ) : Run Bool :=
  if uncommonMagicLen < tagLength then compares ebml cursor clusterMagic else pure false

/-- The payload of Segment and Tracks elements is parsed. -/
def parsedPayload (ebml : EbmlSt) (cursor tagLength payloadLength : ℕ) : Run ℕ := do
  if uncommonMagicLen < tagLength then
    if ← compares ebml cursor segmentMagic then return 0
    else if ← compares ebml cursor tracksMagic then return 0
    else return payloadLength
  else return payloadLength

def parseElement (ebml : EbmlSt) (cursor : ℕ) : Run (Turn × EbmlSt) := do
  match ← ebmlParseTag ebml.inputBuffer cursor ebml.inputPosition with
  | .wait => return (.wait, ebml)
  | .corrupt => return (.fail, ebml)
  | .done tagLength payloadLength =>
    let payloadLength := if payloadLength = ebmlUnknown then 0 else payloadLength
    if ← isCluster ebml cursor tagLength then return (.proceed, { ebml with parseState := .startCluster })
    else
      let payloadLength ← parsedPayload ebml cursor tagLength payloadLength
      match ← probe ebml cursor tagLength payloadLength with
      | (.proceed, probed, payloadLength) =>
        return (.proceed, { probed with
          copyLen := uadd 64 tagLength payloadLength
          parseState := copyState ebml.parseState })
      | (turn, probed, _) => return (turn, probed)

def startCluster (ebml : EbmlSt) (cursor : ℕ) : Run (Turn × EbmlSt) := do
  if 0 ≤ ebml.clusterStart then return (.wait, { ebml with flushCluster := true })
  else
    let tag ← ebmlParseTag ebml.inputBuffer cursor ebml.inputPosition
    return (.proceed, { ebml with
      headerSize := ebml.headerPosition
      clusterStart := ebml.position
      clusterStartsWithKeyframe := .unknown
      flushCluster := false
      copyLen := tag.length
      parseState := .copyingToData })

def finishCopy (ebml : EbmlSt) (toCopy : ℕ) (resume : ParsingState) (cursor : ℕ) :
    Run (Turn × EbmlSt × ℕ) := do
  let copyLen ← sub .underflow ebml.copyLen toCopy
  if copyLen = 0 then
    return (.proceed, { ebml with copyLen := copyLen, parseState := resume }, cursor + toCopy)
  else return (.wait, { ebml with copyLen := copyLen }, cursor + toCopy)

def copyToHeader (ebml : EbmlSt) (cursor : ℕ) : Run (Turn × EbmlSt × ℕ) := do
  let toCopy := min (← sub .underflow ebml.inputPosition cursor) ebml.copyLen
  if ebmlHeaderMaxSize < ebml.headerPosition + toCopy then return (.fail, ebml, cursor)
  else
    let data ← loadRange .outOfRange ebml.inputBuffer cursor toCopy
    let header ← storeRange .outOfRange ebml.header ebml.headerPosition data
    finishCopy { ebml with header := header, headerPosition := ebml.headerPosition + toCopy }
      toCopy .parsingHeader cursor

/-- What does not fit into the read buffer has to wait. -/
def clampToBuffer (ebml : EbmlSt) (toCopy : ℕ) : Run ℕ :=
  if ebmlSliceSize < ebml.position + toCopy then sub .underflow ebmlSliceSize ebml.position
  else pure toCopy

def copyToData (ebml : EbmlSt) (cursor : ℕ) : Run (Turn × EbmlSt × ℕ) := do
  let toCopy ← clampToBuffer ebml (min (← sub .underflow ebml.inputPosition cursor) ebml.copyLen)
  let data ← loadRange .outOfRange ebml.inputBuffer cursor toCopy
  let buffer ← storeRange .outOfRange ebml.buffer ebml.position data
  finishCopy { ebml with buffer := buffer, position := ebml.position + toCopy }
    toCopy .parsingClusters cursor

def turn (ebml : EbmlSt) (cursor : ℕ) : Run (Turn × EbmlSt × ℕ) :=
  match ebml.parseState with
  | .parsingHeader | .parsingClusters => do
    let (turn, ebml) ← parseElement ebml cursor
    return (turn, ebml, cursor)
  | .startCluster => do
    let (turn, ebml) ← startCluster ebml cursor
    return (turn, ebml, cursor)
  | .copyingToHeader => copyToHeader ebml cursor
  | .copyingToData => copyToData ebml cursor

/-- Unprocessed data is shifted to the start of the input buffer. -/
def shiftInput (ebml : EbmlSt) (cursor : ℕ) : Run EbmlSt := do
  let left ← sub .underflow ebml.inputPosition cursor
  let data ← loadRange .outOfRange ebml.inputBuffer cursor left
  let inputBuffer ← storeRange .outOfRange ebml.inputBuffer 0 data
  return { ebml with inputBuffer := inputBuffer, inputPosition := left }

/-! ## Reading -/

def ebmlReadSpace (ebml : EbmlSt) : ℕ × EbmlSt :=
  match ebml.outputState with
  | .readingHeader => (ebml.headerSize, ebml)
  | .readingClusters =>
    if 0 < ebml.clusterStart then (ebml.clusterStart.toNat, ebml)
    else
      let ebml := if ebml.position = ebmlSliceSize then { ebml with flushCluster := true } else ebml
      if ebml.flushCluster then (ebml.position, ebml) else (0, ebml)

def ebmlReadHeader (ebml : EbmlSt) (len : ℕ) : Run (Bytes × ChunkType × EbmlSt) := do
  if ebml.headerSize ≠ 0 then
    let readSpace ← sub .underflow ebml.headerSize ebml.headerReadPosition
    let toRead := min len readSpace
    let data ← loadRange .outOfRange ebml.header 0 toRead
    let headerReadPosition := ebml.headerReadPosition + toRead
    return (data, .header, { ebml with
      headerReadPosition := headerReadPosition
      outputState :=
        if headerReadPosition = ebml.headerSize then .readingClusters else ebml.outputState })
  else return ([], .header, ebml)

/-- Unread data is shifted to the start of the read buffer. -/
def shiftBuffer (ebml : EbmlSt) (toRead : ℕ) : Run EbmlSt := do
  let left ← sub .underflow ebml.position toRead
  let data ← loadRange .outOfRange ebml.buffer toRead left
  let buffer ← storeRange .outOfRange ebml.buffer 0 data
  return { ebml with buffer := buffer, position := left }

def ebmlReadCluster (ebml : EbmlSt) (len : ℕ) : Run (Bytes × ChunkType × EbmlSt) := do
  let chunkType :=
    if ebml.clusterStart = 0 ∧ ebml.clusterStartsWithKeyframe ≠ .doesNotStartCluster
    then .clusterStart else .clusterContinue
  let readSpace := if 0 < ebml.clusterStart then ebml.clusterStart.toNat else ebml.position
  let ebml := if ebml.clusterStart = 0 then { ebml with clusterStart := -1 } else ebml
  if readSpace < 1 then return ([], chunkType, ebml)
  else
    let toRead := min len readSpace
    let data ← loadRange .outOfRange ebml.buffer 0 toRead
    let ebml ← shiftBuffer ebml toRead
    return (data, chunkType, { ebml with
      clusterStart :=
        if 0 < ebml.clusterStart then ebml.clusterStart - toRead else ebml.clusterStart })

def ebmlRead (ebml : EbmlSt) (len : ℕ) : Run (Bytes × ChunkType × EbmlSt) :=
  if len < 1 then .ok ([], .header, ebml)
  else
    match ebml.outputState with
    | .readingHeader => ebmlReadHeader ebml len
    | .readingClusters => ebmlReadCluster ebml len

/-! ## Calls -/

/-- The parser, and the cursor of the call of `ebml_wrote` that is going on. -/
structure Machine where
  ebml : EbmlSt
  call : Option ℕ

inductive Event where
  | wrote (data : Bytes)
  | turn
  | readSpace
  | read (len : ℕ)

/-- Bytes are put where `ebml_get_write_buffer` says, as many as it allows, and a call of `ebml_wrote`
begins; a turn of its loop; or one of the functions for reading, which are not called in between. A chunk
is read to a buffer of the size that is asked for. -/
def step (machine : Machine) : Event → Run Machine
  | .wrote data =>
    match machine.call with
    | some _ => .ok machine
    | none => do
      let ebml := machine.ebml
      let space ← sub .underflow ebmlSliceSize ebml.inputPosition
      let data := data.take space
      let inputBuffer ← storeRange .outOfRange ebml.inputBuffer ebml.inputPosition data
      return ⟨{ ebml with
        inputBuffer := inputBuffer, inputPosition := ebml.inputPosition + data.length }, some 0⟩
  | .turn =>
    match machine.call with
    | none => .ok machine
    | some cursor => do
      match ← turn machine.ebml cursor with
      | (.proceed, ebml, cursor) => return ⟨ebml, some cursor⟩
      | (.wait, ebml, cursor) => return ⟨← shiftInput ebml cursor, none⟩
      | (.fail, ebml, _) => return ⟨ebml, none⟩
  | .readSpace =>
    match machine.call with
    | some _ => .ok machine
    | none => .ok ⟨(ebmlReadSpace machine.ebml).2, none⟩
  | .read len =>
    match machine.call with
    | some _ => .ok machine
    | none => do
      let (data, _, ebml) ← ebmlRead machine.ebml len
      let _ ← storeRange .outOfRange (List.replicate len 0) 0 data
      return ⟨ebml, none⟩

def start : Machine := ⟨ebmlCreate, none⟩

end Icecast.Format.EbmlMemory
