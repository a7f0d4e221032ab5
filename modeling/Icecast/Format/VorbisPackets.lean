import Icecast.Format.VorbisRebuild
import Icecast.Lib.Overlap
import Mathlib.Data.List.ReduceOption

/-!
# What becomes of the packets

The packets of the source come into the new streams one after the other. A stream that is ended by a title
ends with the packet that was held back, and the next one begins with this packet, so that a decoder, which
needs the packet before the one it decodes, misses nothing. Everything that libogg gives out is passed on,
and it has given out everything when a stream ends.
-/

namespace Icecast.Format.VorbisRebuild

open Comments Lib.Machine Lib.Overlap

variable {σ Page : Type}

def payloads (packets : List OggPacket) : List Bytes := packets.map OggPacket.packet

/-- Behind the headers. -/
def Stream.audio (stream : Stream Page) : List OggPacket := stream.packets.drop 3

/-- `ogg_stream_flush` gives out a page as long as there is something to be given out. -/
structure Lawful (lib : Library σ Page) : Prop where
  flush_none : ∀ os, lib.flush os = none → lib.pending os = 0
  flush_some : ∀ os page os', lib.flush os = some (page, os') → lib.pending os' < lib.pending os
  packetin : ∀ os packet, lib.pending (lib.packetin os packet) ≠ 0

/-- A stream of libogg, with the packets that were put into it and the pages that came out. -/
inductive Written (lib : Library σ Page) : σ → List OggPacket → List Page → Prop
  | init (n : ℕ) : Written lib (lib.streamInit n) [] []
  | packetin {os : σ} {packets : List OggPacket} {pages : List Page} (h : Written lib os packets pages)
      (packet : OggPacket) : Written lib (lib.packetin os packet) (packets ++ [packet]) pages
  | pageout {os os' : σ} {packets : List OggPacket} {pages : List Page} {page : Page}
      (h : Written lib os packets pages) (hpage : lib.pageout os = some (page, os')) :
      Written lib os' packets (pages ++ [page])
  | flush {os os' : σ} {packets : List OggPacket} {pages : List Page} {page : Page}
      (h : Written lib os packets pages) (hpage : lib.flush os = some (page, os')) :
      Written lib os' packets (pages ++ [page])

/-- The headers of a new stream; the comments are those of the source or others. -/
def Headers (lib : Library σ Page) (header packets : List OggPacket) : Prop :=
  ∃ first comment second third, header = [first, second, third] ∧ packets = [first, comment, third] ∧
    (comment = second ∨ ∃ vc, comment = lib.commentheaderOut vc)

/-- The last packet of a stream is marked, and no other one is. -/
def Marked (audio : List OggPacket) : Prop :=
  (∀ packet ∈ audio.dropLast, packet.eOS = false) ∧
    ∀ packet, audio.getLast? = some packet → packet.eOS = true

/-- The pages that are attached as headers are those of the three headers. -/
def HeaderPages (lib : Library σ Page) (stream : Stream Page) : Prop :=
  ∃ os, Written lib os (stream.packets.take 3) stream.headerPages ∧ lib.flush os = none

/-- A stream that has been ended. -/
structure Complete (lib : Library σ Page) (header : List OggPacket) (stream : Stream Page) : Prop where
  headers : Headers lib header (stream.packets.take 3)
  headerPages : HeaderPages lib stream
  marked : Marked stream.audio
  written : ∃ os, Written lib os stream.packets stream.pages ∧ lib.flush os = none

/-! ## The invariant -/

/-- Headers are still to come. -/
structure Reading (s : VorbisCodec σ Page) : Prop where
  first : s.header ≠ []
  header : s.header.length < 3
  process : s.processPacket = none
  buffer : s.getBufferPage = none
  current : s.current = .empty
  prev : s.prevPacket = none
  finished : s.finished = []
  consumed : s.consumed = []

/-- A new stream is to be begun. -/
structure Starting (s : VorbisCodec σ Page) : Prop where
  header : s.header.length = 3
  process : s.processPacket = some .processVorbisHeaders
  buffer : s.getBufferPage = none
  current : s.current = .empty
  prev : s.prevPacket = none → s.finished = []
  mark : ∀ prev, s.prevPacket = some prev → prev.eOS = false

/-- The headers are in the stream, and their pages are to be made. -/
structure Heading (lib : Library σ Page) (s : VorbisCodec σ Page) : Prop where
  process : s.processPacket = some .processVorbisAudio
  buffer : s.getBufferPage = some .getBufferHeader
  headers : Headers lib s.header s.current.packets
  headerPages : s.current.headerPages = []
  buffers : s.current.buffers = []
  pending : lib.pending s.newOs ≠ 0
  prev : s.prevPacket = none → s.finished = []
  mark : ∀ prev, s.prevPacket = some prev → prev.eOS = false

/-- Audio follows. -/
structure Open (lib : Library σ Page) (s : VorbisCodec σ Page) : Prop where
  process : s.processPacket = some .processVorbisAudio
  buffer : s.getBufferPage = some .getBufferAudio
  headers : Headers lib s.header (s.current.packets.take 3)
  headerPages : HeaderPages lib s.current
  prev : s.prevPacket = none → s.finished = [] ∧ s.current.audio = []
  mark : ∀ packet ∈ s.current.audio, packet.eOS = false

structure Writing (lib : Library σ Page) (s : VorbisCodec σ Page) : Prop extends Open lib s where
  held : ∀ prev, s.prevPacket = some prev → prev.eOS = false

/-- The last packet is in the stream, and its pages are given out. -/
structure Finishing (lib : Library σ Page) (s : VorbisCodec σ Page) : Prop where
  process : s.processPacket = some .processVorbisAudio
  buffer : s.getBufferPage = some .getBufferFinished
  headers : Headers lib s.header (s.current.packets.take 3)
  headerPages : HeaderPages lib s.current
  marked : Marked s.current.audio
  prev : ∀ prev, s.prevPacket = some prev →
    prev.eOS = false ∧ (payloads s.current.audio).getLast? = some prev.packet

structure Ended (s : VorbisCodec σ Page) : Prop where
  header : s.header.length = 3
  process : s.processPacket = none
  buffer : s.getBufferPage = none
  current : s.current = .empty
  prev : s.prevPacket = none

inductive Phase (lib : Library σ Page) (s : VorbisCodec σ Page) : Prop
  | reading (h : Reading s)
  | starting (h : Starting s)
  | heading (h : Heading lib s)
  | writing (h : Writing lib s)
  | finishing (h : Finishing lib s)
  | ended (h : Ended s)

/-- The audio of the stream that is not ended, with the packet that is held back. -/
def openPart (s : VorbisCodec σ Page) : List (List Bytes) :=
  match s.processPacket with
  | none => []
  | some .processVorbisHeaders => [payloads s.prevPacket.toList]
  | some .processVorbisAudio =>
    if s.getBufferPage = some .getBufferFinished then [payloads s.current.audio]
    else [payloads (s.current.audio ++ s.prevPacket.toList)]

def audioParts (s : VorbisCodec σ Page) : List (List Bytes) :=
  s.finished.map (fun stream ↦ payloads stream.audio) ++ openPart s

/-- What holds in all phases. -/
structure Sound (lib : Library σ Page) (s : VorbisCodec σ Page) : Prop where
  arrived : s.error = false →
    payloads s.arrived = payloads (s.header.tail ++ s.consumed ++ s.os.reduceOption)
  joined : payloads s.consumed = join (audioParts s)
  linked : Linked (audioParts s)
  finished : ∀ stream ∈ s.finished, Complete lib s.header stream
  written : Written lib s.newOs s.current.packets s.current.pages

structure Invariant (lib : Library σ Page) (s : VorbisCodec σ Page) : Prop extends Sound lib s where
  phase : Phase lib s

/-- The pages that went to the queue. -/
def buffersOf (s : VorbisCodec σ Page) : List Page := s.finished.flatMap Stream.buffers ++ s.current.buffers

/-- One more page, or none, goes to the queue, and packets of the source are only taken. -/
structure Sends (s s' : VorbisCodec σ Page) (page : Option Page) : Prop where
  header : s'.header = s.header
  returned : s'.returned = s.returned
  buffers : buffersOf s' = buffersOf s ++ page.toList
  os : s'.os <:+ s.os

theorem Sends.trans {s s' s'' : VorbisCodec σ Page} {page : Option Page} (h : Sends s s' none)
    (h' : Sends s' s'' page) : Sends s s'' page := by
  refine ⟨h'.header.trans h.header, h'.returned.trans h.returned, ?_, h'.os.trans h.os⟩
  rw [h'.buffers, h.buffers, Option.toList_none, List.append_nil]

theorem sends_none {s s' : VorbisCodec σ Page} (hheader : s'.header = s.header)
    (hreturned : s'.returned = s.returned) (hbuffers : buffersOf s' = buffersOf s)
    (hos : s'.os <:+ s.os) : Sends s s' none :=
  ⟨hheader, hreturned, hbuffers.trans (List.append_nil _).symm, hos⟩

section Steps

variable {lib : Library σ Page} {first : OggPacket} {s : VorbisCodec σ Page}

/-- What is not touched when a packet is added. -/
structure Same (s s' : VorbisCodec σ Page) : Prop where
  os : s'.os = s.os
  header : s'.header = s.header
  streamNotify : s'.streamNotify = s.streamNotify
  error : s'.error = s.error
  arrived : s'.arrived = s.arrived
  consumed : s'.consumed = s.consumed
  finished : s'.finished = s.finished
  returned : s'.returned = s.returned

/-- A packet has been added, perhaps with another position. -/
structure Added (lib : Library σ Page) (s s' : VorbisCodec σ Page) (packet : OggPacket) : Prop where
  same : Same s s'
  prevPacket : s'.prevPacket = s.prevPacket
  processPacket : s'.processPacket = s.processPacket
  getBufferPage : s'.getBufferPage = s.getBufferPage
  newOs : s'.newOs = lib.packetin s.newOs packet
  current : s'.current = { s.current with packets := s.current.packets ++ [packet] }

theorem addAudioPacket_ok (lib : Library σ Page) (s : VorbisCodec σ Page) (packet : OggPacket) : ∃ s' added,
    addAudioPacket lib s packet = (s', added) ∧ Added lib s s' added ∧ added.packet = packet.packet ∧
      added.eOS = packet.eOS := by
  rw [addAudioPacket]
  split
  · exact ⟨_, _, rfl, ⟨⟨rfl, rfl, rfl, rfl, rfl, rfl, rfl, rfl⟩, rfl, rfl, rfl, rfl, rfl⟩, rfl, rfl⟩
  · exact ⟨_, _, rfl, ⟨⟨rfl, rfl, rfl, rfl, rfl, rfl, rfl, rfl⟩, rfl, rfl, rfl, rfl, rfl⟩, rfl, rfl⟩

/-- The packet that is held back is added as the last one. -/
theorem initiateFlush_some (lib : Library σ Page) {prev : OggPacket} (hprev : s.prevPacket = some prev) :
    ∃ last kept, Same s (initiateFlush lib s) ∧ last.packet = prev.packet ∧ last.eOS = true ∧
      (initiateFlush lib s).newOs = lib.packetin s.newOs last ∧
      (initiateFlush lib s).current = { s.current with packets := s.current.packets ++ [last] } ∧
      (initiateFlush lib s).prevPacket = some kept ∧ kept.packet = prev.packet ∧ kept.eOS = false ∧
      (initiateFlush lib s).processPacket = s.processPacket ∧
      (initiateFlush lib s).getBufferPage = some .getBufferFinished := by
  obtain ⟨s', last, hadd, hadded, hpacket, hmark⟩ := addAudioPacket_ok lib s { prev with eOS := true }
  obtain ⟨hos, hheader, hnotify, herror, harrived, hconsumed, hfinished, hreturned⟩ := hadded.same
  have hstate : addLastPacket lib s = { s' with prevPacket := some { last with eOS := false } } := by
    rw [addLastPacket, hprev]
    dsimp only
    rw [hadd]
  rw [initiateFlush, hstate]
  exact ⟨last, { last with eOS := false }, ⟨hos, hheader, hnotify, herror, harrived, hconsumed, hfinished,
    hreturned⟩, hpacket, hmark, hadded.newOs, hadded.current, rfl, hpacket, rfl, hadded.processPacket,
    rfl⟩

theorem initiateFlush_same (lib : Library σ Page) (s : VorbisCodec σ Page) :
    Same s (initiateFlush lib s) := by
  cases hprev : s.prevPacket with
  | none =>
    rw [initiateFlush, addLastPacket, hprev]
    exact ⟨rfl, rfl, rfl, rfl, rfl, rfl, rfl, rfl⟩
  | some prev =>
    obtain ⟨last, kept, hsame, -⟩ := initiateFlush_some lib hprev
    exact hsame

theorem payloads_append (first second : List OggPacket) :
    payloads (first ++ second) = payloads first ++ payloads second := List.map_append

/-- Packets put into a stream that has its headers. -/
theorem audio_append {stream : Stream Page} (hheaders : 3 ≤ stream.packets.length)
    (packets : List OggPacket) :
    { stream with packets := stream.packets ++ packets }.audio = stream.audio ++ packets ∧
      (stream.packets ++ packets).take 3 = stream.packets.take 3 :=
  ⟨List.drop_append_of_le_length hheaders, List.take_append_of_le_length hheaders⟩

theorem Headers.length {header packets : List OggPacket} (h : Headers lib header (packets.take 3)) :
    3 ≤ packets.length := by
  obtain ⟨first, comment, second, third, -, hpackets, -⟩ := h
  have hlength := congrArg List.length hpackets
  rw [List.length_take, List.length_cons, List.length_cons, List.length_cons, List.length_nil] at hlength
  omega

theorem marked_concat {audio : List OggPacket} (haudio : ∀ packet ∈ audio, packet.eOS = false)
    {last : OggPacket} (hlast : last.eOS = true) : Marked (audio ++ [last]) := by
  constructor
  · rwa [List.dropLast_concat]
  · intro packet hpacket
    rw [List.getLast?_concat, Option.some.injEq] at hpacket
    rwa [← hpacket]

theorem openPart_open (h : Open lib s) : openPart s =
    [payloads (s.current.audio ++ s.prevPacket.toList)] := by
  rw [openPart, h.process]
  dsimp only
  rw [if_neg]
  rw [h.buffer]
  decide

theorem audio_heading (h : Heading lib s) : s.current.audio = [] := by
  obtain ⟨first, comment, second, third, -, hpackets, -⟩ := h.headers
  rw [Stream.audio, hpackets]
  rfl

theorem openPart_heading (h : Heading lib s) : openPart s = [payloads s.prevPacket.toList] := by
  rw [openPart, h.process]
  dsimp only
  rw [if_neg, audio_heading h, List.nil_append]
  rw [h.buffer]
  decide

theorem openPart_finishing (h : Finishing lib s) : openPart s = [payloads s.current.audio] := by
  rw [openPart, h.process]
  dsimp only
  rw [if_pos h.buffer]

/-- A title, or the mark on the last packet of the source, ends the stream. -/
theorem initiateFlush_finishing (h : Sound lib s) (hwriting : Open lib s) :
    Sound lib (initiateFlush lib s) ∧ Finishing lib (initiateFlush lib s) ∧
      Sends s (initiateFlush lib s) none := by
  have hlength := hwriting.headers.length
  have hjoined := h.joined
  have hlinked := h.linked
  rw [audioParts, openPart_open hwriting] at hjoined hlinked
  cases hprev : s.prevPacket with
  | none =>
    obtain ⟨hfinished, haudio⟩ := hwriting.prev hprev
    have hstate : initiateFlush lib s =
        { s with getBufferPage := some .getBufferFinished, initialAudioPacket := true } := by
      have hadd : addLastPacket lib s = s := by rw [addLastPacket, hprev]
      rw [initiateFlush, hadd]
    have hmarked : Marked s.current.audio := by
      rw [haudio]
      refine ⟨?_, ?_⟩
      · rintro packet ⟨⟩
      · rintro packet ⟨⟩
    have hfinishing : Finishing lib (initiateFlush lib s) := by
      rw [hstate]
      refine ⟨hwriting.process, rfl, hwriting.headers, hwriting.headerPages, hmarked, ?_⟩
      intro prev hsome
      rw [show s.prevPacket = some prev from hsome] at hprev
      cases hprev
    rw [hprev, Option.toList_none, List.append_nil] at hjoined hlinked
    refine ⟨⟨?_, ?_, ?_, ?_, ?_⟩, hfinishing, ?_⟩
    · rw [hstate]
      exact h.arrived
    · rw [audioParts, openPart_finishing hfinishing, hstate]
      exact hjoined
    · rw [audioParts, openPart_finishing hfinishing, hstate]
      exact hlinked
    · rw [hstate]
      exact h.finished
    · rw [hstate]
      exact h.written
    · rw [hstate]
      exact sends_none rfl rfl rfl List.suffix_rfl
  | some prev =>
    obtain ⟨last, kept, hsame, hlast, hlastMark, hnewOs, hcurrent, hkept, hkeptPacket, hkeptMark, hprocess,
      hbuffer⟩ := initiateFlush_some lib hprev
    obtain ⟨haudio, hheaders⟩ := audio_append hlength [last]
    have hmark : ∀ packet ∈ s.current.audio, packet.eOS = false :=
      hwriting.mark
    have hpayloads : payloads (s.current.audio ++ [last]) =
        payloads (s.current.audio ++ s.prevPacket.toList) := by
      rw [hprev, Option.toList_some, payloads_append, payloads_append, payloads, payloads,
        List.map_singleton, payloads, List.map_singleton, hlast]
    have hfinishing : Finishing lib (initiateFlush lib s) := by
      refine ⟨hprocess.trans hwriting.process, hbuffer, ?_, ?_, ?_, ?_⟩
      · rw [hcurrent, hsame.header, hheaders]
        exact hwriting.headers
      · rw [hcurrent, HeaderPages, hheaders]
        exact hwriting.headerPages
      · rw [hcurrent, haudio]
        exact marked_concat hmark hlastMark
      · intro found hfound
        rw [hkept, Option.some.injEq] at hfound
        rw [← hfound, hcurrent, haudio]
        refine ⟨hkeptMark, ?_⟩
        rw [payloads_append, payloads, payloads, List.map_singleton, List.getLast?_concat, hlast,
          hkeptPacket]
    refine ⟨⟨?_, ?_, ?_, ?_, ?_⟩, hfinishing, ?_⟩
    · rw [hsame.error, hsame.arrived, hsame.header, hsame.consumed, hsame.os]
      exact h.arrived
    · rw [audioParts, openPart_finishing hfinishing, hsame.consumed, hsame.finished, hcurrent, haudio,
        hpayloads]
      exact hjoined
    · rw [audioParts, openPart_finishing hfinishing, hsame.finished, hcurrent, haudio, hpayloads]
      exact hlinked
    · rw [hsame.finished, hsame.header]
      exact h.finished
    · rw [hnewOs, hcurrent]
      exact h.written.packetin last
    · refine sends_none hsame.header hsame.returned ?_ (hsame.os ▸ List.suffix_rfl)
      rw [buffersOf, buffersOf, hsame.finished, hcurrent]

theorem firstPage_ok (s : VorbisCodec σ Page) (packet : OggPacket) : ∃ granulepos samples,
    longFirstPage (shortFirstPage s packet) packet =
      { s with granulepos := granulepos, samplesInPage := samples } := by
  obtain ⟨granulepos, samples, hshort⟩ : ∃ granulepos samples, shortFirstPage s packet =
      { s with granulepos := granulepos, samplesInPage := samples } := by
    rw [shortFirstPage]
    split
    · exact ⟨_, _, rfl⟩
    · exact ⟨_, _, rfl⟩
  rw [hshort, longFirstPage]
  split
  · exact ⟨_, _, rfl⟩
  · exact ⟨_, _, rfl⟩

/-- The packet that was held back is in the stream, and the new one may be held. -/
theorem nextPacket_ok (lib : Library σ Page) (s : VorbisCodec σ Page) (packet : OggPacket) :
    ∃ s' next added, nextPacket lib s packet = (s', next) ∧
      next.packet = packet.packet ∧ next.eOS = packet.eOS ∧
      Same s s' ∧ s'.processPacket = s.processPacket ∧ s'.getBufferPage = s.getBufferPage ∧
      payloads added = payloads s.prevPacket.toList ∧
      (∀ other ∈ added, ∃ prev, s.prevPacket = some prev ∧ other.eOS = prev.eOS) ∧
      s'.current = { s.current with packets := s.current.packets ++ added } ∧
      (Written lib s.newOs s.current.packets s.current.pages →
        Written lib s'.newOs (s.current.packets ++ added) s.current.pages) := by
  rw [nextPacket]
  cases hprev : s.prevPacket with
  | none =>
    refine ⟨s, _, [], rfl, rfl, rfl, ⟨rfl, rfl, rfl, rfl, rfl, rfl, rfl, rfl⟩, rfl, rfl, rfl, ?_, ?_, ?_⟩
    · rintro other ⟨⟩
    · rw [List.append_nil]
    · rw [List.append_nil]
      exact id
  | some prev =>
    obtain ⟨middle, last, hadd, hadded, hpacket, hmark⟩ := addAudioPacket_ok lib s prev
    obtain ⟨granulepos, samples, hfirst⟩ := firstPage_ok middle packet
    dsimp only
    rw [hadd]
    dsimp only
    rw [hfirst]
    obtain ⟨hos, hheader, hnotify, herror, harrived, hconsumed, hfinished, hreturned⟩ := hadded.same
    refine ⟨_, _, [last], rfl, ?_, ?_, ⟨hos, hheader, hnotify, herror, harrived, hconsumed, hfinished,
      hreturned⟩, hadded.processPacket, hadded.getBufferPage, ?_, ?_, hadded.current, ?_⟩
    · split
      · rfl
      · rfl
    · split
      · rfl
      · rfl
    · exact congrArg ([·]) hpacket
    · intro other hother
      exact ⟨prev, rfl, (List.mem_singleton.mp hother) ▸ hmark⟩
    · intro hwritten
      dsimp only
      rw [hadded.newOs]
      exact hwritten.packetin last

/-- The last packet of the source is not kept for another stream. -/
theorem dropHeld_ok (h : Sound lib s) (hfinishing : Finishing lib s) :
    Sound lib { s with prevPacket := none } ∧ Finishing lib { s with prevPacket := none } := by
  have hlast : Finishing lib { s with prevPacket := none } := by
    refine ⟨hfinishing.process, hfinishing.buffer, hfinishing.headers, hfinishing.headerPages,
      hfinishing.marked, ?_⟩
    rintro prev ⟨⟩
  have hparts : audioParts { s with prevPacket := none } = audioParts s := by
    rw [audioParts, audioParts, openPart_finishing hlast, openPart_finishing hfinishing]
  refine ⟨⟨h.arrived, ?_, ?_, h.finished, h.written⟩, hlast⟩
  · rw [hparts]
    exact h.joined
  · rw [hparts]
    exact h.linked

/-- One packet of the source: it is held back, or ends the stream. -/
theorem audioPacket_ok (h : Sound lib s) (hwriting : Writing lib s) {packet : OggPacket}
    {os : List (Option OggPacket)} (hos : s.os = some packet :: os) :
    ∃ s' returns, audioPacket lib { s with os := os } packet = (s', returns) ∧
      Sound lib s' ∧ (Writing lib s' ∨ returns = true ∧ Finishing lib s') ∧ s'.os = os ∧
      s'.streamNotify = s.streamNotify ∧ Sends s s' none := by
  set window := (lib.packetBlocksize packet.packet).tdiv 4 with hwindow
  obtain ⟨t, next, added, hnext, hpacket, hmark, hsame, hprocess, hbuffer, hadded, haddedMark, hcurrent,
    hwritten⟩ := nextPacket_ok lib
      { s with os := os, granulepos := s.granulepos + window, consumed := s.consumed ++ [packet] } packet
  obtain ⟨htos, hheader, hnotify, herror, harrived, hconsumed, hfinished, hreturned⟩ := hsame
  dsimp only at htos hheader hnotify herror harrived hconsumed hfinished hreturned hprocess hbuffer hadded
  dsimp only at haddedMark hcurrent hwritten
  obtain ⟨haudio, hheaders⟩ := audio_append hwriting.headers.length added
  set u : VorbisCodec σ Page := { t with prevWindow := window, prevPacket := some next } with hu
  have hparts : payloads (s.current.audio ++ added ++ [next]) =
      payloads (s.current.audio ++ s.prevPacket.toList) ++ [packet.packet] := by
    rw [payloads_append, payloads_append, payloads_append, hadded, ← hpacket]
    rfl
  have hopen : Open lib u := by
    refine ⟨hprocess.trans hwriting.process, hbuffer.trans hwriting.buffer, ?_, ?_, ?_, ?_⟩
    · rw [hu]
      dsimp only
      rw [hcurrent, hheader, hheaders]
      exact hwriting.headers
    · rw [hu]
      dsimp only
      rw [hcurrent, HeaderPages, hheaders]
      exact hwriting.headerPages
    · rintro ⟨⟩
    · rw [hu]
      dsimp only
      rw [hcurrent, haudio]
      intro other hother
      rcases List.mem_append.mp hother with hother | hother
      · exact hwriting.mark other hother
      · obtain ⟨prev, hprev, hsameMark⟩ := haddedMark other hother
        rw [hsameMark, hwriting.held prev hprev]
  have hpart : audioParts u = s.finished.map (fun stream ↦ payloads stream.audio) ++
      [payloads (s.current.audio ++ s.prevPacket.toList) ++ [packet.packet]] := by
    rw [audioParts, openPart_open hopen, hu]
    dsimp only
    rw [hfinished, hcurrent, haudio, Option.toList_some, hparts]
  have hgrow : s.finished.map (fun stream ↦ payloads stream.audio) = [] ∨
      payloads (s.current.audio ++ s.prevPacket.toList) ≠ [] := by
    cases hprev : s.prevPacket with
    | none =>
      left
      rw [(hwriting.prev hprev).1]
      rfl
    | some prev =>
      right
      rw [payloads_append]
      exact List.append_ne_nil_of_right_ne_nil _ (List.cons_ne_nil _ _)
  have hsound : Sound lib u := by
    refine ⟨?_, ?_, ?_, ?_, ?_⟩
    · intro hok
      have hok' : s.error = false := herror.symm.trans hok
      change payloads t.arrived = payloads (t.header.tail ++ t.consumed ++ t.os.reduceOption)
      rw [harrived, hheader, hconsumed, htos, h.arrived hok', hos, List.reduceOption_cons_of_some]
      simp only [payloads_append, List.append_assoc]
      rfl
    · rw [hpart, join_grow hgrow]
      change payloads t.consumed = _
      have hjoined := h.joined
      rw [audioParts, openPart_open hwriting.toOpen] at hjoined
      rw [hconsumed, payloads_append, hjoined]
      rfl
    · rw [hpart]
      have hlinked := h.linked
      rw [audioParts, openPart_open hwriting.toOpen] at hlinked
      exact hlinked.grow hgrow _
    · change ∀ stream ∈ t.finished, Complete lib t.header stream
      rw [hfinished, hheader]
      exact h.finished
    · change Written lib t.newOs t.current.packets t.current.pages
      rw [hcurrent]
      exact hwritten h.written
  have hsends : Sends s u none := by
    refine sends_none hheader hreturned ?_ ?_
    · rw [buffersOf, hu]
      dsimp only
      rw [hfinished, hcurrent]
      rfl
    · rw [hos]
      exact htos ▸ List.suffix_cons (some packet) os
  rw [audioPacket, hnext]
  dsimp only
  by_cases heos : next.eOS = true
  · rw [if_pos heos]
    obtain ⟨hsound', hfinishing, hflush⟩ := initiateFlush_finishing hsound hopen
    obtain ⟨hsound'', hlast⟩ := dropHeld_ok hsound' hfinishing
    obtain ⟨hos', -, hnotify', -⟩ := initiateFlush_same lib u
    exact ⟨_, _, rfl, hsound'', Or.inr ⟨rfl, hlast⟩, hos'.trans htos, hnotify'.trans hnotify,
      hsends.trans ⟨hflush.header, hflush.returned, hflush.buffers, hflush.os⟩⟩
  · rw [if_neg heos]
    refine ⟨u, _, rfl, hsound, Or.inl ⟨hopen, ?_⟩, htos, hnotify, hsends⟩
    intro prev hprev
    rw [← Option.some.inj hprev]
    exact eq_false_of_ne_true heos

end Steps

end Icecast.Format.VorbisRebuild
