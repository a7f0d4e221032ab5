import Icecast.Format.Comments
import Icecast.Lib.Machine
import Mathlib.Data.Int.Notation

/-!
# Rebuilding a Vorbis stream

A source with Vorbis as its only codec is not passed on page by page: its packets are put into a new logical
stream, so that other comments can be written when a title is set (`format_vorbis.c`). A title ends the new
stream, and another one follows which begins with the three headers. The last packet is held back until the
next one comes, because it may turn out to be the last of its stream.

The pages are made by libogg. What it is asked for each new stream, and what it answers, is kept beside the
state of the codec.
-/

namespace Icecast.Format.VorbisRebuild

open Comments Lib.Machine

/-- `ogg_packet` -/
structure OggPacket where
  packet : Bytes
  eOS : Bool
  granulepos : ℤ
  packetno : ℤ
  deriving DecidableEq

/-- A page that comes in: whether `ogg_stream_pagein` takes it, whether pages are missing before it, and the
packets that end on it. -/
structure PageIn where
  valid : Bool
  gap : Bool
  granulepos : ℤ
  packets : List OggPacket

/-- What `ogg_stream_packetout` is going to give for a page: -1 where pages are missing, here `none`, and the
packets. -/
def PageIn.out (page : PageIn) : List (Option OggPacket) :=
  (if page.gap then [none] else []) ++ page.packets.map some

/-- What is called from libogg and libvorbis. `streamInit` is told how many streams there were, in place of
a random serial number, and `synthesisHeaderin` which header it is. -/
structure Library (σ Page : Type) extends VorbisComments where
  streamInit : ℕ → σ
  packetin : σ → OggPacket → σ
  pageout : σ → Option (Page × σ)
  flush : σ → Option (Page × σ)
  pending : σ → ℕ
  pageGranulepos : Page → ℤ
  synthesisHeaderin : ℕ → List Bytes → Bytes → Option (List Bytes)
  commentheaderOut : List Bytes → OggPacket
  rate : Bytes → ℤ
  packetBlocksize : Bytes → ℤ

/-- What was put into a new stream, and what has become of its pages. -/
structure Stream (Page : Type) where
  packets : List OggPacket
  headerPages : List Page
  buffers : List Page

def Stream.empty {Page : Type} : Stream Page := ⟨[], [], []⟩

def Stream.pages {Page : Type} (stream : Stream Page) : List Page := stream.headerPages ++ stream.buffers

inductive PacketProcess where
  | processVorbisHeaders
  | processVorbisAudio
  deriving DecidableEq

inductive BufferPage where
  | getBufferHeader
  | getBufferAudio
  | getBufferFinished
  deriving DecidableEq

/-- `vorbis_codec_t`, with what `ogg_stream_packetout` is still going to give, the comments of the plugin and
the error flag of `ogg_state_t`. -/
structure VorbisCodec (σ Page : Type) where
  os : List (Option OggPacket)
  header : List OggPacket
  rebuildComment : Bool
  streamNotify : Bool
  initialAudioPage : Bool
  newOs : σ
  streams : ℕ
  pageSamplesTrigger : ℤ
  prevGranulepos : ℤ
  prevPacket : Option OggPacket
  granulepos : ℤ
  initialPageGranulepos : ℤ
  samplesInPage : ℤ
  prevWindow : ℤ
  initialAudioPacket : Bool
  prevPageSamples : ℤ
  processPacket : Option PacketProcess
  getBufferPage : Option BufferPage
  vc : List Bytes
  error : Bool
  arrived : List OggPacket
  consumed : List OggPacket
  finished : List (Stream Page)
  current : Stream Page
  returned : List Page

section Codec

variable {σ Page : Type} (lib : Library σ Page)

/-- `initial_vorbis_page`, with the first packet of a Vorbis stream and the others on its page. -/
def initialVorbisPage (packet : OggPacket) (others : List OggPacket) (vc : List Bytes) :
    VorbisCodec σ Page where
  os := others.map some
  header := [packet]
  rebuildComment := false
  streamNotify := false
  initialAudioPage := false
  newOs := lib.streamInit 0
  streams := 1
  pageSamplesTrigger := 0
  prevGranulepos := 0
  prevPacket := none
  granulepos := 0
  initialPageGranulepos := 0
  samplesInPage := 0
  prevWindow := 0
  initialAudioPacket := false
  prevPageSamples := 0
  processPacket := none
  getBufferPage := none
  vc := vc
  error := false
  arrived := others
  consumed := []
  finished := []
  current := .empty
  returned := []

/-- `ogg_stream_packetin` for the new stream. -/
def packetin (s : VorbisCodec σ Page) (packet : OggPacket) : VorbisCodec σ Page :=
  { s with
    newOs := lib.packetin s.newOs packet
    current := { s.current with packets := s.current.packets ++ [packet] } }

/-- The packet is given back as it is afterwards. -/
def addAudioPacket (s : VorbisCodec σ Page) (packet : OggPacket) : VorbisCodec σ Page × OggPacket :=
  if s.initialAudioPacket then
    let packet := { packet with granulepos := 0 }
    (packetin lib { s with initialAudioPacket := false } packet, packet)
  else
    let s := { s with
      samplesInPage := s.samplesInPage + (packet.granulepos - s.prevGranulepos)
      prevGranulepos := packet.granulepos
      granulepos := s.granulepos + s.prevWindow }
    (packetin lib s packet, packet)

/-! ## Pages of the new stream -/

/-- A page that goes to the queue. -/
def makeRefbufWithPage (s : VorbisCodec σ Page) (page : Page) (newOs : σ) :
    VorbisCodec σ Page × Option Page :=
  ({ s with
      newOs := newOs
      samplesInPage := s.samplesInPage - (lib.pageGranulepos page - s.prevPageSamples)
      prevPageSamples := lib.pageGranulepos page
      current := { s.current with buffers := s.current.buffers ++ [page] } }, some page)

def getBufferAudio (s : VorbisCodec σ Page) : VorbisCodec σ Page × Option Page :=
  let getOggPage := if s.samplesInPage > s.pageSamplesTrigger then lib.flush else lib.pageout
  match getOggPage s.newOs with
  | some (page, newOs) => makeRefbufWithPage lib s page newOs
  | none => (s, none)

/-- The loop of `get_buffer_header`. -/
def flushHeaders : ℕ → VorbisCodec σ Page → VorbisCodec σ Page
  | 0, s => s
  | fuel + 1, s =>
    match lib.flush s.newOs with
    | some (page, newOs) =>
      flushHeaders fuel { s with
        newOs := newOs
        current := { s.current with headerPages := s.current.headerPages ++ [page] }
        getBufferPage := some .getBufferAudio }
    | none => s

def getBufferHeader (s : VorbisCodec σ Page) : VorbisCodec σ Page × Option Page :=
  (flushHeaders lib (lib.pending s.newOs) s, none)

def getBufferFinished (s : VorbisCodec σ Page) : VorbisCodec σ Page × Option Page :=
  match lib.flush s.newOs with
  | some (page, newOs) => makeRefbufWithPage lib s page newOs
  | none =>
    ({ s with
      newOs := lib.streamInit s.streams
      streams := s.streams + 1
      finished := s.finished ++ [s.current]
      current := .empty
      getBufferPage := none
      processPacket := s.prevPacket.map fun _ ↦ .processVorbisHeaders
      prevWindow := if s.initialAudioPacket then s.prevWindow else 0 }, none)

def getBuffer (s : VorbisCodec σ Page) : VorbisCodec σ Page × Option Page :=
  match s.getBufferPage with
  | none => (s, none)
  | some .getBufferHeader => getBufferHeader lib s
  | some .getBufferAudio => getBufferAudio lib s
  | some .getBufferFinished => getBufferFinished lib s

/-! ## Packets of the source -/

/-- The packet that is held back becomes the last one of the stream. -/
def addLastPacket (s : VorbisCodec σ Page) : VorbisCodec σ Page :=
  match s.prevPacket with
  | none => s
  | some prev =>
    let (s, prev) := addAudioPacket lib s { prev with eOS := true }
    { s with prevPacket := some { prev with eOS := false } }

def initiateFlush (s : VorbisCodec σ Page) : VorbisCodec σ Page :=
  { addLastPacket lib s with getBufferPage := some .getBufferFinished, initialAudioPacket := true }

/-- Short values on the first page. -/
def shortFirstPage (s : VorbisCodec σ Page) (packet : OggPacket) : VorbisCodec σ Page :=
  if packet.packetno = 4 ∧ s.initialPageGranulepos < s.granulepos then
    { s with
      granulepos := s.granulepos - s.initialPageGranulepos
      samplesInPage := s.pageSamplesTrigger }
  else s

/-- Long values on the first page. -/
def longFirstPage (s : VorbisCodec σ Page) (packet : OggPacket) : VorbisCodec σ Page :=
  if packet.granulepos = s.initialPageGranulepos ∧ s.initialPageGranulepos > s.granulepos then
    { s with granulepos := s.initialPageGranulepos }
  else s

/-- A packet has come, and the one that was held back is added. -/
def nextPacket (s : VorbisCodec σ Page) (packet : OggPacket) : VorbisCodec σ Page × OggPacket :=
  match s.prevPacket with
  | some prev =>
    let s := longFirstPage (shortFirstPage (addAudioPacket lib s prev).1 packet) packet
    (s, if packet.eOS then packet else { packet with granulepos := s.granulepos })
  | none => (s, { packet with granulepos := 0 })

/-- One packet in the loop of `process_vorbis_audio`; `true` if the function returns. -/
def audioPacket (s : VorbisCodec σ Page) (packet : OggPacket) : VorbisCodec σ Page × Bool :=
  let window := (lib.packetBlocksize packet.packet).tdiv 4
  let (s, packet) := nextPacket lib
    { s with granulepos := s.granulepos + window, consumed := s.consumed ++ [packet] } packet
  let s := { s with prevWindow := window, prevPacket := some packet }
  if packet.eOS then ({ initiateFlush lib s with prevPacket := none }, true)
  else (s, decide (s.samplesInPage > s.pageSamplesTrigger))

/-- Behind the loop of `process_vorbis_audio` a title is answered. -/
def answerTitle (s : VorbisCodec σ Page) : VorbisCodec σ Page × Bool :=
  if s.streamNotify then ({ initiateFlush lib s with streamNotify := false }, true) else (s, false)

/-- The loop of `process_vorbis_audio`; it is left at a gap, too. -/
def audioLoop : List (Option OggPacket) → VorbisCodec σ Page → VorbisCodec σ Page × Bool
  | [], s => answerTitle lib s
  | none :: os, s => answerTitle lib { s with os := os }
  | some packet :: os, s =>
    let (s, returns) := audioPacket lib { s with os := os } packet
    if returns then (s, true) else audioLoop os s

/-- Whether there is more to do is given back, as the sign of the result. -/
def processVorbisAudio (s : VorbisCodec σ Page) : VorbisCodec σ Page × Bool := audioLoop lib s.os s

/-- The comments of the source, or new ones. -/
def addComments (serverId : Bytes) (comment : OggPacket) (s : VorbisCodec σ Page) : VorbisCodec σ Page :=
  if s.rebuildComment then
    let vc := formatSetVorbiscomment lib.toVorbisComments s.vc (bytes "server") serverId
    packetin lib { s with vc := vc } (lib.commentheaderOut vc)
  else packetin lib s comment

def processVorbisHeaders (serverId : Bytes) (s : VorbisCodec σ Page) : VorbisCodec σ Page × Bool :=
  match s.header with
  | [] => (s, false)
  | first :: others =>
    let s := packetin lib s first
    let s := addComments lib serverId (others.getD 0 first) s
    let s := packetin lib s (others.getD 1 first)
    ({ s with
      rebuildComment := false
      getBufferPage := some .getBufferHeader
      processPacket := some .processVorbisAudio
      granulepos := s.prevWindow
      initialAudioPacket := true }, true)

def processPacket (serverId : Bytes) (s : VorbisCodec σ Page) : VorbisCodec σ Page × Bool :=
  match s.processPacket with
  | none => (s, false)
  | some .processVorbisHeaders => processVorbisHeaders lib serverId s
  | some .processVorbisAudio => processVorbisAudio lib s

/-- The loop of `process_vorbis`. -/
def processLoop (serverId : Bytes) : ℕ → VorbisCodec σ Page → VorbisCodec σ Page × Option Page
  | 0, s => (s, none)
  | fuel + 1, s =>
    match getBuffer lib s with
    | (s, some page) => (s, some page)
    | (s, none) =>
      match processPacket lib serverId s with
      | (s, true) => processLoop serverId fuel s
      | (s, false) => (s, none)

/-- Each turn uses a packet, starts a stream or answers a title. -/
def turns (s : VorbisCodec σ Page) : ℕ := 2 * s.os.length + 5

def processVorbis (serverId : Bytes) (s : VorbisCodec σ Page) : VorbisCodec σ Page × Option Page :=
  processLoop lib serverId (turns s) s

/-! ## Pages of the source -/

/-- The loop of `process_vorbis_page` over the header packets. -/
def headerLoop : List (Option OggPacket) → VorbisCodec σ Page → VorbisCodec σ Page
  | [], s => { s with os := [] }
  | none :: os, s => if s.header.length < 3 then { s with os := os } else { s with os := none :: os }
  | some packet :: os, s =>
    if s.header.length < 3 then
      match lib.synthesisHeaderin s.header.length s.vc packet.packet with
      | none => { s with os := os, error := true }
      | some vc => headerLoop os { s with vc := vc, header := s.header ++ [{ packet with granulepos := 0 }] }
    else { s with os := some packet :: os }

/-- With all three headers the stream is going to be rebuilt. -/
def headersDone (s : VorbisCodec σ Page) : VorbisCodec σ Page :=
  if s.header.length = 3 then
    { s with
      pageSamplesTrigger := (s.header.head?.elim 0 fun first ↦ lib.rate first.packet).tdiv 2
      processPacket := some .processVorbisHeaders
      initialAudioPage := true }
  else s

/-- `process_vorbis_page` for a stream with one codec. -/
def processVorbisPage (s : VorbisCodec σ Page) (page : PageIn) : VorbisCodec σ Page :=
  if page.valid then
    let s := { s with os := s.os ++ page.out, arrived := s.arrived ++ page.packets }
    if s.header.length = 3 then
      if s.initialAudioPage then
        { s with initialPageGranulepos := page.granulepos, initialAudioPage := false }
      else s
    else headersDone lib (headerLoop lib s.os s)
  else { s with error := true }

/-- `vorbis_set_tag`; the value has been converted. -/
def vorbisSetTag (s : VorbisCodec σ Page) : Option (Bytes × Bytes) → VorbisCodec σ Page
  | none => { s with streamNotify := true, rebuildComment := true }
  | some (tag, value) =>
    let tag := if tag = bytes "song" then bytes "title" else tag
    { s with vc := formatSetVorbiscomment lib.toVorbisComments s.vc tag value }

inductive Event where
  | page (page : PageIn)
  | process (serverId : Bytes)
  | setTag (tag : Option (Bytes × Bytes))

/-- After an error the source is stopped. -/
def step (s : VorbisCodec σ Page) (event : Event) : VorbisCodec σ Page :=
  if s.error then s
  else
    match event with
    | .page page => processVorbisPage lib s page
    | .process serverId =>
      let (s, page) := processVorbis lib serverId s
      { s with returned := s.returned ++ page.toList }
    | .setTag tag => vorbisSetTag lib s tag

end Codec

end Icecast.Format.VorbisRebuild
