import Icecast.Format.Comments
import Icecast.Format.Mp3Reader
import Icecast.Lib.CString
import Icecast.Lib.Heap

/-!
# The metadata blocks of an MP3 source

The block that goes with new data is a buffer with a reference count: `mp3_state` holds one reference
and every buffer returned since then another one. It is replaced by a block that comes inline with
the stream (`mp3_get_filter_meta`), and by one that is built from a title set by the admin interface
(`mp3_set_title`). `inline_url` points to the URL in a block that came inline.

A call of `mp3_get_filter_meta` is followed in two steps, up to the end of `mp3_set_title`, which it
may call, and from there on. `Mp3Reader` has the same loop for blocks without identity.
-/

namespace Icecast.Format.Mp3Metadata

open Comments Lib Lib.CString Lib.Machine Lib.Socket
open Mp3Reader (Filter ReadOutcome cString memmove refbufSize streamTitle)

/-- A block; `count` is its reference count. -/
structure Block where
  data : Bytes
  count : ℕ
  deriving DecidableEq

/-- A place in the data of a block. -/
structure Pointer where
  block : ℕ
  offset : ℕ
  deriving DecidableEq

structure Mp3State where
  inlineMetadataInterval : ℕ
  offset : ℕ
  inlineUrl : Option Pointer
  updateMetadata : Bool
  metadata : ℕ
  readData : Option Bytes
  buildMetadataLen : ℕ
  buildMetadata : Bytes

/-- The source. `queue` are the blocks associated with the buffers that have been returned and not
yet released, and `filter` is the buffer a call of `mp3_get_filter_meta` has got to work on. -/
structure Source where
  mp3 : Mp3State
  vc : List Bytes
  blocks : Heap Block
  queue : List ℕ
  filter : Option Filter
  incoming : Bytes
  conError : Bool
  running : Bool

/-! ## References -/

def refbufAddref (id : ℕ) (blocks : Heap Block) : Heap Block :=
  blocks.modify id fun block ↦ { block with count := block.count + 1 }

def refbufRelease (id : ℕ) (blocks : Heap Block) : Heap Block :=
  match blocks.objects id with
  | none => blocks
  | some block =>
    if block.count = 1 then blocks.free id
    else blocks.modify id fun block ↦ { block with count := block.count - 1 }

def dataOf (blocks : Heap Block) (id : ℕ) : Bytes := (blocks.objects id).elim [] (·.data)

/-- A new block takes the place of the one that is held. -/
def replaceMetadata (data : Bytes) (s : Source) : Source :=
  { s with
    blocks := refbufRelease s.mp3.metadata (s.blocks.alloc ⟨data, 1⟩)
    mp3 := { s.mp3 with metadata := s.blocks.next } }

/-! ## Titles -/

def mp3MetadataTitle : Bytes := bytes "X_ICY_TITLE"

def mp3MetadataArtist : Bytes := bytes "X_ICY_ARTIST"

def mp3MetadataUrl : Bytes := bytes "X_ICY_URL"

section Titles

variable (lib : VorbisComments)

/-- `conv` is `util_conv_string` with the charset of the source. -/
def mp3SetTag (conv : Bytes → Option Bytes → Option Bytes) (tag : Option Bytes) (inValue : Bytes)
    (charset : Option Bytes) (s : Source) : Source :=
  match tag with
  | none => { s with mp3 := { s.mp3 with updateMetadata := true } }
  | some tag =>
    let value := (conv inValue charset).getD inValue
    let tag := if tag = bytes "title" ∨ tag = bytes "song" then mp3MetadataTitle
      else if tag = bytes "artist" then mp3MetadataArtist
      else if tag = bytes "url" then mp3MetadataUrl
      else tag
    { s with vc := formatSetVorbiscomment lib s.vc tag value }

/-- The text that `inline_url` points to. Nothing is known about the text in a block that has been
freed. -/
def inlineText (s : Source) : Option Bytes :=
  s.mp3.inlineUrl.map fun url ↦ cString ((dataOf s.blocks url.block).drop url.offset)

/-- The length of the text, with the null byte. -/
def titleLen (s : Source) : ℕ :=
  let artist := lib.query s.vc mp3MetadataArtist
  let title := lib.query s.vc mp3MetadataTitle
  let url := lib.query s.vc mp3MetadataUrl
  16 + artist.elim 0 List.length + title.elim 0 List.length +
    (if artist.isSome ∧ title.isSome then 3 else 0) +
    match inlineText s with
    | some text => (strstr (bytes "';") text).elim 0 (· + 2)
    | none => url.elim 0 fun url ↦ url.length + 11 + 2

def maxMetaLen : ℕ := 255 * 16

/-- `snprintf` into a buffer of this size, without the null byte. -/
def snprintf (size : ℕ) (text : Bytes) : Bytes := text.take (size - 1)

/-- The block that `mp3_set_title` builds; the bytes behind its text are zero. -/
def titleBlock (s : Source) : Bytes :=
  let artist := lib.query s.vc mp3MetadataArtist
  let title := lib.query s.vc mp3MetadataTitle
  let url := lib.query s.vc mp3MetadataUrl
  let lenByte := (titleLen lib s - 1) / 16 + 1
  let size := lenByte * 16 + 1
  let name := match artist, title with
    | some artist, some title => artist ++ bytes " - " ++ title
    | none, some title => title
    | _, none => []
  let text := UInt8.ofNat lenByte :: bytes "StreamTitle='" ++ name ++ bytes "';"
  let streamUrl := match inlineText s, url with
    | some inline, _ =>
      let urlLen := (strstr (bytes "';") inline).elim size (· + 2)
      if urlLen < size - text.length then
        snprintf (size - text.length) (bytes "StreamUrl='" ++ inline.drop 11 ++ bytes "';")
      else []
    | none, some url => snprintf (size - text.length) (bytes "StreamUrl='" ++ url ++ bytes "';")
    | none, none => []
  let data := snprintf size text ++ streamUrl
  data ++ List.replicate (size - data.length) 0

/-- `inline_url` stays as it is. -/
def mp3SetTitle (s : Source) : Source :=
  if maxMetaLen < titleLen lib s then s else replaceMetadata (titleBlock lib s) s

end Titles

/-! ## Reading -/

/-- Assign a block that is complete up to its last byte, if it holds text and the text has changed.
There is no result for a block in the wrong format. -/
def assignMetadata (s : Source) : Option Source :=
  if 1 < s.mp3.buildMetadataLen ∧
      cString (s.mp3.buildMetadata.drop 1) ≠ cString ((dataOf s.blocks s.mp3.metadata).drop 1) then
    let block := s.mp3.buildMetadata ++
      List.replicate (s.mp3.buildMetadataLen - s.mp3.buildMetadata.length) 0
    if (block.drop 1).take 12 = streamTitle then
      let s := replaceMetadata block s
      some { s with
        mp3 := { s.mp3 with
          inlineUrl := (strstr (bytes "StreamUrl='") (cString (block.drop 1))).map
            fun offset ↦ ⟨s.mp3.metadata, offset + 1⟩ } }
    else none
  else some s

def setMp3 (s : Source) (f : Mp3State → Mp3State) : Source := { s with mp3 := f s.mp3 }

def beginBlock (s : Source) (filter : Filter) : Source :=
  if s.mp3.buildMetadataLen = 0 then
    setMp3 s fun mp3 ↦ { mp3 with
      buildMetadata := []
      buildMetadataLen := 1 + ((filter.data.drop filter.src).headD 0).toNat * 16 }
  else s

/-- The loop of `mp3_get_filter_meta`. -/
def filterLoop : ℕ → Source → Filter → Bool × Source × Filter
  | 0, s, filter => (true, s, filter)
  | fuel + 1, s, filter =>
    if filter.bytes = 0 then (true, s, filter)
    else
      let mp3Block := s.mp3.inlineMetadataInterval - s.mp3.offset
      if filter.bytes ≤ mp3Block then
        (true, setMp3 s fun mp3 ↦ { mp3 with offset := mp3.offset + filter.bytes },
          { filter with len := filter.len + filter.bytes })
      else if mp3Block ≠ 0 then
        filterLoop fuel (setMp3 s fun mp3 ↦ { mp3 with offset := mp3.offset + mp3Block })
          { filter with
            src := filter.src + mp3Block
            bytes := filter.bytes - mp3Block
            len := filter.len + mp3Block }
      else
        let s := beginBlock s filter
        let src := filter.data.drop filter.src
        let metadataRemaining := s.mp3.buildMetadataLen - s.mp3.buildMetadata.length
        if filter.bytes < metadataRemaining then
          (true, setMp3 s fun mp3 ↦ { mp3 with
            buildMetadata := mp3.buildMetadata ++ src.take filter.bytes }, filter)
        else
          let s := setMp3 s fun mp3 ↦ { mp3 with
            buildMetadata := mp3.buildMetadata ++ src.take (metadataRemaining - 1) }
          let bytes := filter.bytes - metadataRemaining
          let filter := { filter with
            bytes := bytes
            data := memmove filter.data filter.src (filter.src + metadataRemaining) bytes }
          match assignMetadata s with
          | none => (false, s, filter)
          | some s =>
            filterLoop fuel (setMp3 s fun mp3 ↦ { mp3 with offset := 0, buildMetadataLen := 0 }) filter

def setReadData (s : Source) (readData : Option Bytes) : Source :=
  setMp3 s fun mp3 ↦ { mp3 with readData }

def completeRead (s : Source) : ReadOutcome → Bool × Source
  | .fail error =>
    let s := { s with conError := s.conError || error }
    (false, setReadData s (if s.conError then none else some (s.mp3.readData.getD [])))
  | .bytes limit =>
    let data := s.mp3.readData.getD []
    let (read, incoming) := readBytes s.incoming limit (refbufSize - data.length)
    let s := { s with incoming, conError := s.conError || read = [] }
    let data := data ++ read
    if data.length < refbufSize then
      (false, setReadData s (if data = [] then none else some data))
    else (true, setReadData s (some data))

def updateTitle (lib : VorbisComments) (s : Source) : Source :=
  if s.mp3.updateMetadata then
    setMp3 (mp3SetTitle lib s) fun mp3 ↦ { mp3 with updateMetadata := false }
  else s

/-- The first half of `mp3_get_filter_meta`. -/
def getFilterMeta (lib : VorbisComments) (read : ReadOutcome) (s : Source) : Source :=
  if s.running ∧ s.filter = none then
    match completeRead s read with
    | (false, s) => s
    | (true, s) =>
      let data := s.mp3.readData.getD []
      { updateTitle lib (setReadData s none) with filter := some ⟨data, 0, data.length, 0⟩ }
  else s

/-- The second half. A buffer with data is associated with the block that is held now. -/
def filterBuffer (s : Source) : Source :=
  match s.filter with
  | none => s
  | some filter =>
    match filterLoop (filter.bytes + 1) { s with filter := none } filter with
    | (false, s, _) => { s with running := false }
    | (true, s, filter) =>
      if filter.len = 0 then s
      else
        { s with
          queue := s.queue ++ [s.mp3.metadata]
          blocks := refbufAddref s.mp3.metadata s.blocks }

/-- The last holder of a buffer releases it. -/
def releaseBuffer (i : ℕ) (s : Source) : Source :=
  match s.queue[i]? with
  | none => s
  | some id => { s with queue := s.queue.eraseIdx i, blocks := refbufRelease id s.blocks }

inductive Event where
  | setTag (tag : Option Bytes) (value : Bytes) (charset : Option Bytes)
  | setTitle
  | getFilterMeta (read : ReadOutcome)
  | filterBuffer
  | releaseBuffer (i : ℕ)

def next (lib : VorbisComments) (conv : Bytes → Option Bytes → Option Bytes) (s : Source) :
    Event → Source
  | .setTag tag value charset => mp3SetTag lib conv tag value charset s
  | .setTitle => mp3SetTitle lib s
  | .getFilterMeta read => getFilterMeta lib read s
  | .filterBuffer => filterBuffer s
  | .releaseBuffer i => releaseBuffer i s

def startSource (interval : ℕ) (stream : Bytes) : Source where
  mp3 := ⟨interval, 0, none, false, 0, none, 0, []⟩
  vc := []
  blocks := Heap.empty.alloc ⟨Mp3Reader.initialMetadata, 1⟩
  queue := []
  filter := none
  incoming := stream
  conError := false
  running := true

end Icecast.Format.Mp3Metadata
