import Icecast.Lib.Interleave
import Icecast.Lib.Machine
import Icecast.Lib.MachineInt
import Icecast.Lib.Socket

/-!
# ICY metadata towards a listener

The sending half of `format_mp3.c` together with the `check_buffer` functions of `format.c` that
choose the buffer to send from. A listener that asked for metadata receives a block after every
`interval` bytes of audio. Writes are non-blocking, so the position inside a buffer, the distance
to the last block and the offset inside a partly sent block all survive from one call to the next.

The blocks a listener has been sent are recovered from the bytes its socket accepted: they are
the audio with whole blocks inserted at the right places, followed by the part of a block that
is still being sent.
-/

namespace Icecast.Format.Mp3Sender

open Lib.Interleave Lib.Machine Lib.MachineInt Lib.Socket

abbrev Bytes := List UInt8

/-- A metadata block announces its own length in units of sixteen bytes. -/
def WellFormedBlock : Bytes → Prop
  | [] => False
  | lenByte :: content => content.length = 16 * lenByte.toNat

instance : DecidablePred WellFormedBlock
  | [] => .isFalse id
  | _ :: _ => inferInstanceAs (Decidable (_ = _))

/-- A metadata refbuf. The sender compares such buffers by address. -/
structure Metadata where
  addr : ℕ
  data : Bytes
  wellFormed : WellFormedBlock data
  deriving DecidableEq

/-- A buffer of the stream queue, or the private buffer an intro file is read into. -/
structure Refbuf where
  data : Bytes
  associated : Option Metadata
  syncPoint : Bool
  deriving DecidableEq

/-- `mp3_client_data`; the reference to the last metadata sent is only ever compared. -/
structure Mp3ClientData where
  interval : ℕ
  metadataOffset : ℕ
  sinceMetaBlock : ℕ
  inMetadata : Bool
  associated : Option ℕ
  deriving DecidableEq

/-- The functions a listener's `check_buffer` is set to once its HTTP header has been sent. -/
inductive CheckBuffer where
  | formatCheckFileBuffer
  | formatAdvanceQueue
  deriving DecidableEq

/-- What a source shows to its listeners: `queue` runs from `burst_point` to `stream_data_tail`. -/
structure Source where
  hasClient : Bool
  introFile : Option Bytes
  queue : List Refbuf
  deriving DecidableEq

/-- A listener. `ahead` are the buffers linked behind `refbuf` through `next`. The last three
fields are a record of the run: the buffers taken up so far, the values computed for `meta_len`,
and whether bytes outside a buffer were offered to the socket. -/
structure Listener where
  conn : Conn UInt8
  refbuf : Option Refbuf
  ahead : List Refbuf
  pos : ℕ
  introOffset : ℤ
  checkBuffer : CheckBuffer
  mp3 : Mp3ClientData
  taken : List Refbuf
  metaLens : List ℤ
  overrun : Bool
  deriving DecidableEq

/-! ## Sending -/

/-- `client_send_bytes` on memory of which `buf` is readable. The length is converted to an
unsigned number, so a negative one asks for bytes far outside the buffer. -/
def clientSendBytes (l : Listener) (buf : Bytes) (len : ℤ) : ℤ × Listener :=
  if 0 ≤ len ∧ len ≤ buf.length then
    let (ret, conn) := l.conn.write (buf.take len.toNat)
    (ret, { l with conn := conn })
  else (-1, { l with overrun := true })

/-- The text sent for a buffer without metadata, with its length byte and the final NUL. -/
def emptyTitle : Bytes :=
  [1, 83, 116, 114, 101, 97, 109, 84, 105, 116, 108, 101, 61, 39, 39, 59, 0]

/-- What is left to send of the metadata due, and its length. An unchanged block is replaced by a
single zero byte; there the offset plays no role. -/
def metadataDue (mp3 : Mp3ClientData) (associated : Option Metadata) : Bytes × ℤ :=
  match associated with
  | some block =>
    if some block.addr ≠ mp3.associated then
      (block.data.drop mp3.metadataOffset, (block.data.length : ℤ) - mp3.metadataOffset)
    else ([0], 1)
  | none => (emptyTitle.drop mp3.metadataOffset, 17 - (mp3.metadataOffset : ℤ))

def sendStreamMetadata (l : Listener) (associated : Option Metadata) : ℤ × Listener :=
  let (metadata, metaLen) := metadataDue l.mp3 associated
  let (ret, l) := clientSendBytes { l with metaLens := metaLen :: l.metaLens } metadata metaLen
  if ret = metaLen then
    (ret, { l with mp3 := { l.mp3 with
      associated := associated.map (·.addr)
      metadataOffset := 0
      inMetadata := false
      sinceMetaBlock := 0 } })
  else if 0 < ret then
    (ret, { l with mp3 := { l.mp3 with
      metadataOffset := l.mp3.metadataOffset + ret.toNat
      inMetadata := true } })
  else (0, { l with mp3 := { l.mp3 with inMetadata := true } })

/-- `client_send_bytes` for audio, with the bookkeeping both of its call sites share. -/
def sendAudio (l : Listener) (buf : Bytes) (len : ℕ) : ℤ × Listener :=
  let (ret, l) := clientSendBytes l buf len
  if 0 < ret then
    (ret, { l with
      pos := l.pos + ret.toNat
      mp3 := { l.mp3 with sinceMetaBlock := l.mp3.sinceMetaBlock + ret.toNat } })
  else (ret, l)

/-- The end of the function, reached by `break` with the result of the last write in `ret`. -/
def finish (written ret : ℤ) (l : Listener) : ℤ × Listener :=
  (if 0 < ret then written + ret else written, l)

/-- Write any mp3, maybe after the metadata block. -/
def writeRest (l : Listener) (buf : Bytes) (len : ℕ) (written : ℤ) : ℤ × Listener :=
  if len ≠ 0 then
    let (ret, l) := sendAudio l buf len
    if ret < toSigned 32 len then finish written ret l else finish (written + ret) 0 l
  else finish written 0 l

/-- The metadata block at the end of an interval, then what the buffer holds behind it. -/
def writeBlock (l : Listener) (associated : Option Metadata) (buf : Bytes) (len : ℕ)
    (written : ℤ) : ℤ × Listener :=
  let (ret, l) := sendStreamMetadata l associated
  if l.mp3.inMetadata then finish written ret l
  else
    -- limit how much mp3 is sent if using small intervals
    writeRest l buf (if l.mp3.interval < len then l.mp3.interval else len) (written + ret)

/-- See if the current metadata needs to be sent, with the audio leading up to it first. -/
def writeInterval (l : Listener) (associated : Option Metadata) (buf : Bytes) (len : ℕ)
    (written : ℤ) : ℤ × Listener :=
  if l.mp3.interval ≠ 0 then
    let remaining := usub 32 l.mp3.interval l.mp3.sinceMetaBlock
    if remaining ≤ len then
      if remaining ≠ 0 then
        let (ret, l) := sendAudio l buf remaining
        if ret < toSigned 32 remaining then finish written ret l
        else writeBlock l associated (buf.drop remaining) (len - remaining) (written + ret)
      else writeBlock l associated buf len written
    else writeRest l buf len written
  else writeRest l buf len written

def formatMp3WriteBufToClient (l : Listener) (refbuf : Refbuf) : ℤ × Listener :=
  let buf := refbuf.data.drop l.pos
  let len := refbuf.data.length - l.pos
  if l.mp3.inMetadata then
    let (ret, l) := sendStreamMetadata l refbuf.associated
    if l.mp3.inMetadata then finish 0 ret l
    else writeInterval l refbuf.associated buf len ret
  else writeInterval l refbuf.associated buf len 0

/-! ## Choosing the buffer -/

/-- `client_set_queue`, with the buffers linked behind the new one. -/
def clientSetQueue (l : Listener) (chain : List Refbuf) : Listener :=
  { l with refbuf := chain.head?, ahead := chain.tail, pos := 0,
           taken := l.taken ++ chain.head?.toList }

/-- Walk along the queue for `size` bytes, in the arithmetic of `size_t`, but not past its end. -/
def skipBytes : ℕ → List Refbuf → List Refbuf
  | size, first :: second :: rest =>
    if 0 < size then skipBytes (usub 64 size first.data.length) (second :: rest)
    else first :: second :: rest
  | _, queue => queue

/-- Where `find_client_start` begins to look for a sync point. -/
def startOfSearch (s : Source) (l : Listener) : List Refbuf :=
  match s.queue.getLast? with
  | some tail =>
    if l.introOffset = -1 ∧ tail.syncPoint then [tail]
    else skipBytes (l.introOffset % 2 ^ 64).toNat s.queue
  | none => []

def findClientStart (s : Source) (l : Listener) : Listener :=
  match (startOfSearch s l).dropWhile (!·.syncPoint) with
  | [] => l
  | chain => { clientSetQueue l chain with checkBuffer := .formatAdvanceQueue, introOffset := -1 }

/-- `get_file_data`: the next 4096 bytes of the intro file, if there are any. -/
def getFileData (intro : Option Bytes) (introOffset : ℤ) : Option Bytes :=
  match intro with
  | none => none
  | some file =>
    if introOffset < 0 then none
    else
      let data := (file.drop introOffset.toNat).take 4096
      if data = [] then none else some data

/-- `PER_CLIENT_REFBUF_SIZE` -/
def perClientRefbufSize : ℕ := 4096

/-- The part of `format_check_file_buffer` behind the test for a missing buffer. -/
def checkFileData (s : Source) (l : Listener) (refbuf : Refbuf) : ℤ × Listener :=
  if l.pos = refbuf.data.length then
    match getFileData s.introFile l.introOffset with
    | some data =>
      (0, { l with refbuf := some { refbuf with data := data }, pos := 0,
                   introOffset := l.introOffset + data.length,
                   taken := l.taken ++ [{ refbuf with data := data }] })
    | none =>
      if s.queue ≠ [] then (-1, findClientStart s (clientSetQueue l []))
      else (-1, { l with introOffset := 0 })
  else (0, l)

def formatCheckFileBuffer (s : Source) (l : Listener) : ℤ × Listener :=
  match l.refbuf with
  | none =>
    -- the client refers to no data, must be from a move
    if s.hasClient then (-1, findClientStart s l)
    else
      let refbuf : Refbuf := ⟨List.replicate perClientRefbufSize 0, none, false⟩
      checkFileData s { l with refbuf := some refbuf, pos := perClientRefbufSize, introOffset := 0 }
        refbuf
  | some refbuf => checkFileData s l refbuf

def formatAdvanceQueue (l : Listener) : ℤ × Listener :=
  match l.refbuf with
  | none => (-1, l)
  | some refbuf =>
    if l.pos = refbuf.data.length then
      if l.ahead = [] then (-1, l) else (0, clientSetQueue l l.ahead)
    else (0, l)

def checkBuffer (s : Source) (l : Listener) : ℤ × Listener :=
  match l.checkBuffer with
  | .formatCheckFileBuffer => formatCheckFileBuffer s l
  | .formatAdvanceQueue => formatAdvanceQueue l

/-- One turn of the loop in `send_to_listener`. -/
def sendToListener (s : Source) (l : Listener) : Listener :=
  let (ret, l) := checkBuffer s l
  if ret < 0 then l
  else
    match l.refbuf with
    | none => l
    | some refbuf => (formatMp3WriteBufToClient l refbuf).2
end Icecast.Format.Mp3Sender
