import Icecast.Format.VorbisPackets
import Mathlib.Algebra.Group.Nat.Defs

/-!
# Runs of the Vorbis codec

A page of the source, a call from the source thread and a title come in any order. What has been said
about one packet is carried through the loops of `process_vorbis` and from there through whole runs. Each
turn of the loop returns a page, uses a packet, ends a stream or begins one, so that it comes to an end.
-/

namespace Icecast.Format.VorbisRebuild

open Comments Lib.Machine Lib.Overlap

variable {σ Page : Type}

section Steps

variable {lib : Library σ Page} {first : OggPacket} {s : VorbisCodec σ Page}

/-! ## Packets -/

/-- How much there is to do: a packet or a title may end a stream, and another one is begun then. -/
def work (s : VorbisCodec σ Page) : ℕ :=
  2 * (s.os.length + s.streamNotify.toNat) +
    if s.processPacket = some .processVorbisHeaders ∨
      s.getBufferPage = some .getBufferFinished then 1 else 0

/-- Where the packets that there were have not all been taken, a gap has been met last. -/
def Stopped (os os' : List (Option OggPacket)) : Prop := os' = [] ∨ ∃ front, os = front ++ none :: os'

/-- Nothing is left to do before a page or a title comes, or a gap is in the way. -/
def Idle (lib : Library σ Page) (os : List (Option OggPacket)) (s : VorbisCodec σ Page) : Prop :=
  Reading s ∨ Ended s ∨ Writing lib s ∧ Stopped os s.os ∧ s.streamNotify = false

theorem Idle.suffix {os os' : List (Option OggPacket)} (h : Idle lib os s) (hsuffix : os <:+ os') :
    Idle lib os' s := by
  rcases h with hreading | hended | ⟨hwriting, hstopped, hnotify⟩
  · exact Or.inl hreading
  · exact Or.inr (Or.inl hended)
  · refine Or.inr (Or.inr ⟨hwriting, hstopped.imp_right ?_, hnotify⟩)
    rintro ⟨front, hfront⟩
    obtain ⟨taken, htaken⟩ := hsuffix
    exact ⟨taken ++ front, by rw [← htaken, hfront, List.append_assoc]⟩

theorem work_writing (h : Open lib s) : work s = 2 * (s.os.length + s.streamNotify.toNat) := by
  have hphase : ¬(s.processPacket = some .processVorbisHeaders ∨
    s.getBufferPage = some .getBufferFinished) := by
    rw [h.process, h.buffer]
    decide
  rw [work, if_neg hphase, Nat.add_zero]

theorem work_heading (h : Heading lib s) : work s = 2 * (s.os.length + s.streamNotify.toNat) := by
  have hphase : ¬(s.processPacket = some .processVorbisHeaders ∨
    s.getBufferPage = some .getBufferFinished) := by
    rw [h.process, h.buffer]
    decide
  rw [work, if_neg hphase, Nat.add_zero]

theorem work_le (s : VorbisCodec σ Page) : work s ≤ 2 * (s.os.length + s.streamNotify.toNat) + 1 := by
  rw [work]
  split
  · exact le_rfl
  · exact Nat.le_succ _

/-- A title ends the stream. -/
theorem answerTitle_ok (h : Sound lib s) (hwriting : Writing lib s) :
    ∃ s' returns, answerTitle lib s = (s', returns) ∧ Invariant lib s' ∧ Sends s s' none ∧
      if returns then work s' < work s else Writing lib s' ∧ s'.os = s.os ∧ s'.streamNotify = false := by
  rw [answerTitle]
  by_cases hnotify : s.streamNotify = true
  · rw [if_pos hnotify]
    obtain ⟨hsound, hfinishing, hsends⟩ := initiateFlush_finishing h hwriting.toOpen
    have hflushed : (initiateFlush lib s).os = s.os := (initiateFlush_same lib s).os
    refine ⟨_, _, rfl, ?_, ⟨hsends.header, hsends.returned, hsends.buffers, hsends.os⟩, ?_⟩
    · exact ⟨⟨hsound.arrived, hsound.joined, hsound.linked, hsound.finished, hsound.written⟩, .finishing
        ⟨hfinishing.process, hfinishing.buffer, hfinishing.headers, hfinishing.headerPages,
          hfinishing.marked, hfinishing.prev⟩⟩
    · refine lt_of_le_of_lt (work_le _) ?_
      rw [work_writing hwriting.toOpen, hnotify]
      change 2 * ((initiateFlush lib s).os.length + 0) + 1 < 2 * (s.os.length + 1)
      rw [hflushed]
      omega
  · rw [if_neg hnotify]
    exact ⟨s, false, rfl, ⟨h, .writing hwriting⟩, sends_none rfl rfl rfl List.suffix_rfl,
      hwriting, rfl, eq_false_of_ne_true hnotify⟩

/-- A gap is no packet. -/
theorem gap_ok {os : List (Option OggPacket)} (h : Sound lib s) (hwriting : Writing lib s)
    (hos : s.os = none :: os) : Sound lib { s with os := os } ∧ Writing lib { s with os := os } ∧
      Sends s { s with os := os } none ∧ work { s with os := os } < work s := by
  have hwriting' : Writing lib { s with os := os } :=
    ⟨⟨hwriting.process, hwriting.buffer, hwriting.headers, hwriting.headerPages, hwriting.prev,
      hwriting.mark⟩, hwriting.held⟩
  refine ⟨⟨fun hok ↦ ?_, h.joined, h.linked, h.finished, h.written⟩, hwriting', ?_, ?_⟩
  · have harrived := h.arrived hok
    rwa [hos, List.reduceOption_cons_of_none] at harrived
  · refine sends_none rfl rfl rfl ?_
    rw [hos]
    exact List.suffix_cons none os
  · rw [work_writing hwriting.toOpen, work_writing hwriting'.toOpen, hos, List.length_cons]
    exact Nat.mul_lt_mul_of_pos_left (Nat.add_lt_add_right (Nat.lt_succ_self _) _) Nat.two_pos

/-- The packets are used up to a gap or a point where a page may be given out, and a title is answered after
them. -/
theorem audioLoop_ok (os : List (Option OggPacket)) :
    ∀ s : VorbisCodec σ Page, Sound lib s → Writing lib s → s.os = os →
    ∃ s' returns, audioLoop lib os s = (s', returns) ∧ Invariant lib s' ∧ Sends s s' none ∧
      if returns then work s' < work s else Idle lib os s' := by
  induction os with
  | nil =>
    intro s h hwriting hos
    rw [audioLoop]
    obtain ⟨s', returns, htitle, hinvariant, hsends, hmore⟩ := answerTitle_ok h hwriting
    refine ⟨s', returns, htitle, hinvariant, hsends, ?_⟩
    cases returns with
    | true => exact hmore
    | false =>
      obtain ⟨hwriting', hsame, hnotify⟩ := hmore
      exact Or.inr (Or.inr ⟨hwriting', Or.inl (hsame.trans hos), hnotify⟩)
  | cons head os ih =>
    intro s h hwriting hos
    cases head with
    | none =>
      rw [audioLoop]
      obtain ⟨hsound, hwriting', hsends, hless⟩ := gap_ok h hwriting hos
      obtain ⟨s', returns, htitle, hinvariant, hsends', hmore⟩ := answerTitle_ok hsound hwriting'
      refine ⟨s', returns, htitle, hinvariant, hsends.trans hsends', ?_⟩
      cases returns with
      | true => exact lt_trans hmore hless
      | false =>
        obtain ⟨hwriting'', hsame, hnotify⟩ := hmore
        refine Or.inr (Or.inr ⟨hwriting'', Or.inr ⟨[], ?_⟩, hnotify⟩)
        rw [hsame, List.nil_append]
    | some packet =>
      obtain ⟨t, stops, hpacket, hsound, hphase, htos, hnotify, hsends⟩ := audioPacket_ok h hwriting hos
      have hless : 2 * (t.os.length + t.streamNotify.toNat) + 1 < work s := by
        rw [work_writing hwriting.toOpen, htos, hnotify, hos, List.length_cons]
        omega
      have hworked : work t < work s := lt_of_le_of_lt (work_le t) hless
      rw [audioLoop, hpacket]
      dsimp only
      cases stops with
      | true =>
        rw [if_pos rfl]
        refine ⟨t, true, rfl, ⟨hsound, ?_⟩, hsends, hworked⟩
        rcases hphase with hwriting' | hfinishing
        · exact .writing hwriting'
        · exact .finishing hfinishing.2
      | false =>
        rw [if_neg Bool.false_ne_true]
        have hwriting' : Writing lib t := by
          rcases hphase with hwriting' | hfinishing
          · exact hwriting'
          · exact absurd hfinishing.1 Bool.false_ne_true
        obtain ⟨s', returns, hloop, hinvariant, hsends', hmore⟩ := ih t hsound hwriting' htos
        refine ⟨s', returns, hloop, hinvariant, hsends.trans hsends', ?_⟩
        cases returns with
        | true => exact lt_trans hmore hworked
        | false => exact hmore.suffix (List.suffix_cons (some packet) os)

theorem packetin_added (lib : Library σ Page) (s : VorbisCodec σ Page) (packet : OggPacket) :
    Added lib s (packetin lib s packet) packet :=
  ⟨⟨rfl, rfl, rfl, rfl, rfl, rfl, rfl, rfl⟩, rfl, rfl, rfl, rfl, rfl⟩

/-- The second header is that of the source, or is made from the comments. -/
theorem addComments_added (lib : Library σ Page) (serverId : Bytes) (second : OggPacket)
    (s : VorbisCodec σ Page) :
    ∃ comment, Added lib s (addComments lib serverId second s) comment ∧
      (comment = second ∨ ∃ vc, comment = lib.commentheaderOut vc) := by
  rw [addComments]
  split
  · exact ⟨_, ⟨⟨rfl, rfl, rfl, rfl, rfl, rfl, rfl, rfl⟩, rfl, rfl, rfl, rfl, rfl⟩, Or.inr ⟨_, rfl⟩⟩
  · exact ⟨second, packetin_added lib s second, Or.inl rfl⟩

theorem Same.trans {s s' s'' : VorbisCodec σ Page} (h : Same s s') (h' : Same s' s'') : Same s s'' :=
  ⟨h'.os.trans h.os, h'.header.trans h.header, h'.streamNotify.trans h.streamNotify, h'.error.trans h.error,
    h'.arrived.trans h.arrived, h'.consumed.trans h.consumed, h'.finished.trans h.finished,
    h'.returned.trans h.returned⟩

/-- The three headers are put into the new stream. -/
theorem headers_added (lib : Library σ Page) (serverId : Bytes) {first second third : OggPacket}
    (hheader : s.header = [first, second, third]) :
    ∃ s' comment, processVorbisHeaders lib serverId s = (s', true) ∧
      Same s s' ∧ s'.prevPacket = s.prevPacket ∧ s'.processPacket = some .processVorbisAudio ∧
      s'.getBufferPage = some .getBufferHeader ∧
      s'.newOs = lib.packetin (lib.packetin (lib.packetin s.newOs first) comment) third ∧
      s'.current = { s.current with packets := s.current.packets ++ [first, comment, third] } ∧
      (comment = second ∨ ∃ vc, comment = lib.commentheaderOut vc) := by
  have hfirst := packetin_added lib s first
  obtain ⟨comment, hcomment, hfound⟩ := addComments_added lib serverId second (packetin lib s first)
  have hthird := packetin_added lib (addComments lib serverId second (packetin lib s first)) third
  obtain ⟨hos, hh, hnotify, herror, harrived, hconsumed, hfinished, hreturned⟩ :=
    (hfirst.same.trans hcomment.same).trans hthird.same
  have hprev := hthird.prevPacket.trans (hcomment.prevPacket.trans hfirst.prevPacket)
  have hnewOs := hthird.newOs
  have hcurrent := hthird.current
  rw [hcomment.newOs, hfirst.newOs] at hnewOs
  rw [hcomment.current, hfirst.current, List.append_assoc, List.append_assoc] at hcurrent
  rw [processVorbisHeaders, hheader]
  exact ⟨_, comment, rfl, ⟨hos, hh, hnotify, herror, harrived, hconsumed, hfinished, hreturned⟩, hprev,
    rfl, rfl, hnewOs, hcurrent, hfound⟩

/-- The packet that was held back is going to be the first one behind the headers. -/
theorem processVorbisHeaders_ok (hlawful : Lawful lib) (h : Sound lib s) (hstarting : Starting s)
    (serverId : Bytes) :
    ∃ s', processVorbisHeaders lib serverId s = (s', true) ∧ Invariant lib s' ∧ Sends s s' none ∧
      work s' < work s := by
  obtain ⟨first, second, third, hheader⟩ := List.length_eq_three.mp hstarting.header
  have hwork : work s = 2 * (s.os.length + s.streamNotify.toNat) + 1 := by
    rw [work, if_pos (Or.inl hstarting.process)]
  have hjoined := h.joined
  have hlinked := h.linked
  have hwritten := h.written
  have hpart : openPart s = [payloads s.prevPacket.toList] := by
    rw [openPart, hstarting.process]
  rw [audioParts, hpart] at hjoined hlinked
  obtain ⟨s', comment, hstate, hsame, hprev, hprocess, hbuffer, hnewOs, hcurrent, hfound⟩ :=
    headers_added lib serverId hheader
  rw [hstarting.current] at hwritten hcurrent
  have hheading : Heading lib s' := by
    refine ⟨hprocess, hbuffer, ⟨first, comment, second, third, ?_, ?_, hfound⟩, ?_, ?_, ?_, ?_, ?_⟩
    · rw [hsame.header, hheader]
    · rw [hcurrent]
      rfl
    · rw [hcurrent]
      rfl
    · rw [hcurrent]
      rfl
    · rw [hnewOs]
      exact hlawful.packetin _ _
    · rw [hprev, hsame.finished]
      exact hstarting.prev
    · rw [hprev]
      exact hstarting.mark
  have hparts : audioParts s' = s.finished.map (fun stream ↦ payloads stream.audio) ++
      [payloads s.prevPacket.toList] := by
    rw [audioParts, openPart_heading hheading, hsame.finished, hprev]
  refine ⟨s', hstate, ⟨⟨?_, ?_, ?_, ?_, ?_⟩, .heading hheading⟩, ?_, ?_⟩
  · rw [hsame.error, hsame.arrived, hsame.header, hsame.consumed, hsame.os]
    exact h.arrived
  · rw [hparts, hsame.consumed]
    exact hjoined
  · rw [hparts]
    exact hlinked
  · rw [hsame.finished, hsame.header]
    exact h.finished
  · rw [hnewOs, hcurrent]
    exact ((hwritten.packetin first).packetin comment).packetin third
  · refine sends_none hsame.header hsame.returned ?_ (hsame.os ▸ List.suffix_rfl)
    rw [buffersOf, buffersOf, hsame.finished, hcurrent, hstarting.current]
  · rw [work_heading hheading, hwork, hsame.os, hsame.streamNotify]
    exact Nat.lt_succ_self _

/-! ## Pages -/

/-- All pages of the headers are made. -/
theorem flushHeaders_ok (hlawful : Lawful lib) (fuel : ℕ) : ∀ s :
    VorbisCodec σ Page, lib.pending s.newOs ≤ fuel →
    Written lib s.newOs s.current.packets s.current.headerPages → ∃ newOs pages buffer,
      flushHeaders lib fuel s = { s with
        newOs := newOs
        current := { s.current with headerPages := pages }
        getBufferPage := buffer } ∧
      Written lib newOs s.current.packets pages ∧ lib.flush newOs = none ∧
      (buffer = some .getBufferAudio ∨ lib.pending s.newOs = 0 ∧ buffer = s.getBufferPage) := by
  induction fuel with
  | zero =>
    intro s hfuel h
    have hpending := Nat.le_zero.mp hfuel
    refine ⟨s.newOs, s.current.headerPages, s.getBufferPage, rfl, h, ?_, Or.inr ⟨hpending, rfl⟩⟩
    cases hflush : lib.flush s.newOs with
    | none => rfl
    | some found =>
      have hless := hlawful.flush_some s.newOs found.1 found.2 hflush
      rw [hpending] at hless
      exact absurd hless (Nat.not_lt_zero _)
  | succ fuel ih =>
    intro s hfuel h
    rw [flushHeaders]
    cases hflush : lib.flush s.newOs with
    | none =>
      exact ⟨s.newOs, s.current.headerPages, s.getBufferPage, rfl, h, hflush,
        Or.inr ⟨hlawful.flush_none s.newOs hflush, rfl⟩⟩
    | some found =>
      obtain ⟨page, newOs⟩ := found
      have hless := hlawful.flush_some s.newOs page newOs hflush
      obtain ⟨os, pages, buffer, hstate, hwritten, hdone, hbuffer⟩ := ih
        { s with
          newOs := newOs
          current := { s.current with headerPages := s.current.headerPages ++ [page] }
          getBufferPage := some .getBufferAudio }
        (Nat.le_of_lt_succ (lt_of_lt_of_le hless hfuel)) (h.flush hflush)
      refine ⟨os, pages, buffer, hstate, hwritten, hdone, Or.inl ?_⟩
      rcases hbuffer with hbuffer | hbuffer
      · exact hbuffer
      · exact hbuffer.2

theorem getBufferHeader_ok (hlawful : Lawful lib) (h : Sound lib s) (hheading : Heading lib s) :
    ∃ s', getBufferHeader lib s = (s', none) ∧ Sound lib s' ∧ Writing lib s' ∧ Sends s s' none ∧
      work s' ≤ work s := by
  have hwritten := h.written
  rw [Stream.pages, hheading.buffers, List.append_nil] at hwritten
  obtain ⟨newOs, pages, buffer, hstate, hwritten', hdone, hbuffer⟩ :=
    flushHeaders_ok hlawful (lib.pending s.newOs) s le_rfl hwritten
  have hbuffer' : buffer = some .getBufferAudio :=
    hbuffer.resolve_right fun hnone ↦ hheading.pending hnone.1
  obtain ⟨first, comment, second, third, hheader, hpackets, hfound⟩ := hheading.headers
  have hthree : s.current.packets.take 3 = s.current.packets := by
    rw [hpackets]
    rfl
  have haudio := audio_heading hheading
  rw [getBufferHeader, hstate]
  have hopen : Open lib { s with
      newOs := newOs
      current := { s.current with headerPages := pages }
      getBufferPage := buffer } := by
    refine ⟨hheading.process, hbuffer', hthree.symm ▸ hheading.headers, ⟨newOs, ?_, hdone⟩, ?_, ?_⟩
    · dsimp only
      rw [hthree]
      exact hwritten'
    · exact fun hnone ↦ ⟨hheading.prev hnone, haudio⟩
    · intro packet hpacket
      rw [Stream.audio, show s.current.packets.drop 3 = [] from haudio] at hpacket
      cases hpacket
  have hparts : openPart { s with
      newOs := newOs
      current := { s.current with headerPages := pages }
      getBufferPage := buffer } = openPart s := by
    rw [openPart_open hopen, openPart_heading hheading, Stream.audio,
      show s.current.packets.drop 3 = [] from haudio, List.nil_append]
  refine ⟨_, rfl, ⟨h.arrived, ?_, ?_, h.finished, ?_⟩, ⟨hopen, hheading.mark⟩,
    sends_none rfl rfl rfl List.suffix_rfl, ?_⟩
  · rw [audioParts, hparts]
    exact h.joined
  · rw [audioParts, hparts]
    exact h.linked
  · rw [Stream.pages, hheading.buffers, List.append_nil]
    exact hwritten'
  · rw [work_writing hopen, work_heading hheading]

/-- No page is to be given out before the next packet. -/
def Ready (lib : Library σ Page) (s : VorbisCodec σ Page) : Prop :=
  Starting s ∨ Writing lib s ∨ Reading s ∨ Ended s

/-- The audio is the same when a page is sent. -/
theorem makeRefbufWithPage_ok (h : Sound lib s)
    (hphase : Writing lib s ∨ Finishing lib s) {page : Page} {newOs : σ}
    (hpage : Written lib newOs s.current.packets (s.current.pages ++ [page])) :
    ∃ s', makeRefbufWithPage lib s page newOs = (s', some page) ∧ Invariant lib s' ∧
    Sends s s' (some page) := by
  rw [makeRefbufWithPage]
  refine ⟨_, rfl, ⟨⟨h.arrived, h.joined, h.linked, h.finished, ?_⟩, ?_⟩, rfl, rfl, ?_, List.suffix_rfl⟩
  · rw [Stream.pages] at hpage ⊢
    dsimp only
    rw [← List.append_assoc]
    exact hpage
  · rcases hphase with hwriting | hfinishing
    · exact .writing ⟨⟨hwriting.process, hwriting.buffer, hwriting.headers, hwriting.headerPages,
        hwriting.prev, hwriting.mark⟩, hwriting.held⟩
    · exact .finishing ⟨hfinishing.process, hfinishing.buffer, hfinishing.headers, hfinishing.headerPages,
        hfinishing.marked, hfinishing.prev⟩
  · rw [buffersOf, buffersOf, List.append_assoc]
    rfl

theorem getBufferAudio_ok (h : Sound lib s) (hwriting : Writing lib s) :
    ∃ s' page, getBufferAudio lib s = (s', page) ∧ Invariant lib s' ∧ Sends s s' page ∧
      (page = none → Ready lib s' ∧ work s' ≤ work s) := by
  rw [getBufferAudio]
  have hpage : ∀ page newOs,
      (if s.samplesInPage > s.pageSamplesTrigger then lib.flush else lib.pageout) s.newOs =
        some (page, newOs) → Written lib newOs s.current.packets (s.current.pages ++ [page]) := by
    intro page newOs hfound
    split at hfound
    · exact h.written.flush hfound
    · exact h.written.pageout hfound
  cases hfound : (if s.samplesInPage > s.pageSamplesTrigger then lib.flush else lib.pageout) s.newOs with
  | none =>
    exact ⟨s, none, rfl, ⟨h, .writing hwriting⟩, sends_none rfl rfl rfl List.suffix_rfl,
      fun _ ↦ ⟨Or.inr (Or.inl hwriting), le_rfl⟩⟩
  | some found =>
    obtain ⟨page, newOs⟩ := found
    obtain ⟨s', hstate, hinvariant, hsends⟩ :=
      makeRefbufWithPage_ok h (Or.inl hwriting) (hpage page newOs hfound)
    refine ⟨s', some page, hstate, hinvariant, hsends, ?_⟩
    rintro ⟨⟩

theorem Headers.header_length {header packets : List OggPacket} (h : Headers lib header packets) :
    header.length = 3 := by
  obtain ⟨first, comment, second, third, hheader, -⟩ := h
  rw [hheader]
  rfl

theorem audioParts_next {s' : VorbisCodec σ Page} (hfinished : s'.finished = s.finished ++ [s.current])
    (hprev : s'.prevPacket = s.prevPacket)
    (hprocess : s'.processPacket = s.prevPacket.map fun _ ↦ .processVorbisHeaders) :
    audioParts s' = s.finished.map (fun stream ↦ payloads stream.audio) ++ [payloads s.current.audio] ++
      s.prevPacket.toList.map fun prev ↦ [prev.packet] := by
  have hopen : openPart s' = s.prevPacket.toList.map fun prev ↦ [prev.packet] := by
    rw [openPart, hprocess, hprev]
    cases s.prevPacket with
    | none => rfl
    | some prev => rfl
  rw [audioParts, hopen, hfinished, List.map_append, List.map_singleton]

/-- When all pages have been sent, a stream is complete, and the next one begins with its last packet. -/
theorem streamEnded_ok (h : Sound lib s) (hfinishing : Finishing lib s)
    (hflush : lib.flush s.newOs = none) :
    ∃ s', getBufferFinished lib s = (s', none) ∧ Sound lib s' ∧ Sends s s' none ∧
      (Starting s' ∨ Ended s') ∧ work s' ≤ work s := by
  have hjoined := h.joined
  have hlinked := h.linked
  rw [audioParts, openPart_finishing hfinishing] at hjoined hlinked
  have hheader := hfinishing.headers.header_length
  have hwork : work s = 2 * (s.os.length + s.streamNotify.toNat) + 1 := by
    rw [work, if_pos (Or.inr hfinishing.buffer)]
  obtain ⟨s', hstate, hfinished, hcurrent, hprev, hprocess, hbuffer, hnewOs, hsame⟩ : ∃ s',
      getBufferFinished lib s = (s', none) ∧ s'.finished = s.finished ++ [s.current] ∧ s'.current = .empty ∧
      s'.prevPacket = s.prevPacket ∧ s'.processPacket = s.prevPacket.map (fun _ ↦ .processVorbisHeaders) ∧
      s'.getBufferPage = none ∧ s'.newOs = lib.streamInit s.streams ∧
      Same s { s' with finished := s.finished } := by
    rw [getBufferFinished, hflush]
    exact ⟨_, rfl, rfl, rfl, rfl, rfl, rfl, rfl, rfl, rfl, rfl, rfl, rfl, rfl, rfl, rfl⟩
  obtain ⟨hos, hh, hnotify, herror, harrived, hconsumed, -, hreturned⟩ := hsame
  dsimp only at hos hh hnotify herror harrived hconsumed hreturned
  have hparts := audioParts_next hfinished hprev hprocess
  have hphase : Starting s' ∨ Ended s' := by
    cases hheld : s.prevPacket with
    | none =>
      rw [hheld] at hprev hprocess
      exact Or.inr ⟨hh ▸ hheader, hprocess, hbuffer, hcurrent, hprev⟩
    | some prev =>
      rw [hheld] at hprev hprocess
      refine Or.inl ⟨hh ▸ hheader, hprocess, hbuffer, hcurrent, fun hnone ↦ ?_, fun found hfound ↦ ?_⟩
      · rw [hprev] at hnone
        cases hnone
      · exact (hfinishing.prev found (hheld.trans (hprev.symm.trans hfound))).1
  refine ⟨s', hstate, ⟨?_, ?_, ?_, ?_, ?_⟩,
    sends_none hh hreturned ?_ (hos ▸ List.suffix_rfl), hphase, ?_⟩
  · rw [herror, harrived, hh, hconsumed, hos]
    exact h.arrived
  · rw [hparts, hconsumed, hjoined]
    cases s.prevPacket with
    | none => rw [Option.toList_none, List.map_nil, List.append_nil]
    | some prev =>
      rw [Option.toList_some, List.map_singleton, join_again]
      exact List.append_ne_nil_of_right_ne_nil _ (List.cons_ne_nil _ _)
  · rw [hparts]
    cases hheld : s.prevPacket with
    | none =>
      rw [Option.toList_none, List.map_nil, List.append_nil]
      exact hlinked
    | some prev => exact hlinked.again (hfinishing.prev prev hheld).2
  · rw [hfinished, hh]
    intro stream hstream
    rcases List.mem_append.mp hstream with hstream | hstream
    · exact h.finished stream hstream
    · rw [List.mem_singleton.mp hstream]
      exact ⟨hfinishing.headers, hfinishing.headerPages, hfinishing.marked, s.newOs, h.written, hflush⟩
  · rw [hnewOs, hcurrent]
    exact .init s.streams
  · rw [buffersOf, buffersOf, hfinished, hcurrent, List.flatMap_append, List.flatMap_singleton]
    exact List.append_nil _
  · rw [hwork, ← hos, ← hnotify]
    exact work_le s'

theorem getBufferFinished_ok (h : Sound lib s) (hfinishing : Finishing lib s) :
    ∃ s' page, getBufferFinished lib s = (s', page) ∧ Invariant lib s' ∧ Sends s s' page ∧
      (page = none → Ready lib s' ∧ work s' ≤ work s) := by
  cases hflush : lib.flush s.newOs with
  | some found =>
    obtain ⟨page, newOs⟩ := found
    obtain ⟨s', hstate, hinvariant, hsends⟩ :=
      makeRefbufWithPage_ok h (Or.inr hfinishing) (h.written.flush hflush)
    rw [getBufferFinished, hflush]
    refine ⟨s', some page, hstate, hinvariant, hsends, ?_⟩
    rintro ⟨⟩
  | none =>
    obtain ⟨s', hstate, hsound, hsends, hphase, hwork⟩ := streamEnded_ok h hfinishing hflush
    rcases hphase with hstarting | hended
    · exact ⟨s', none, hstate, ⟨hsound, .starting hstarting⟩, hsends, fun _ ↦ ⟨Or.inl hstarting, hwork⟩⟩
    · exact ⟨s', none, hstate, ⟨hsound, .ended hended⟩, hsends,
        fun _ ↦ ⟨Or.inr (Or.inr (Or.inr hended)), hwork⟩⟩

/-- After a page was asked for. -/
theorem getBuffer_ok (hlawful : Lawful lib) (h : Invariant lib s) :
    ∃ s' page, getBuffer lib s = (s', page) ∧
    Invariant lib s' ∧ Sends s s' page ∧ (page = none → Ready lib s' ∧ work s' ≤ work s) := by
  have hnone (hbuffer : s.getBufferPage = none) (hready : Ready lib s) :
    ∃ s' page, getBuffer lib s = (s', page) ∧
      Invariant lib s' ∧ Sends s s' page ∧ (page = none → Ready lib s' ∧ work s' ≤ work s) := by
    rw [getBuffer, hbuffer]
    exact ⟨s, none, rfl, h, sends_none rfl rfl rfl List.suffix_rfl, fun _ ↦ ⟨hready, le_rfl⟩⟩
  rcases h.phase with hreading | hstarting | hheading | hwriting | hfinishing | hended
  · exact hnone hreading.buffer (Or.inr (Or.inr (Or.inl hreading)))
  · exact hnone hstarting.buffer (Or.inl hstarting)
  · rw [getBuffer, hheading.buffer]
    obtain ⟨s', hstate, hsound, hwriting, hsends, hwork⟩ := getBufferHeader_ok hlawful h.toSound hheading
    exact ⟨s', none, hstate, ⟨hsound, .writing hwriting⟩, hsends, fun _ ↦ ⟨Or.inr (Or.inl hwriting), hwork⟩⟩
  · rw [getBuffer, hwriting.buffer]
    exact getBufferAudio_ok h.toSound hwriting
  · rw [getBuffer, hfinishing.buffer]
    exact getBufferFinished_ok h.toSound hfinishing
  · exact hnone hended.buffer (Or.inr (Or.inr (Or.inr hended)))

theorem processPacket_ok (hlawful : Lawful lib) (h : Invariant lib s) (hready : Ready lib s)
    (serverId : Bytes) :
    ∃ s' returns, processPacket lib serverId s = (s', returns) ∧ Invariant lib s' ∧ Sends s s' none ∧
      if returns then work s' < work s else Idle lib s.os s' := by
  rcases hready with hstarting | hwriting | hreading | hended
  · rw [processPacket, hstarting.process]
    obtain ⟨s', hstate, hinvariant, hsends, hless⟩ :=
      processVorbisHeaders_ok hlawful h.toSound hstarting serverId
    exact ⟨s', true, hstate, hinvariant, hsends, hless⟩
  · rw [processPacket, hwriting.process]
    exact audioLoop_ok s.os s h.toSound hwriting rfl
  · rw [processPacket, hreading.process]
    exact ⟨s, false, rfl, h, sends_none rfl rfl rfl List.suffix_rfl, Or.inl hreading⟩
  · rw [processPacket, hended.process]
    exact ⟨s, false, rfl, h, sends_none rfl rfl rfl List.suffix_rfl, Or.inr (Or.inl hended)⟩

/-- The function returns a page, or there is nothing left to do. -/
theorem processLoop_ok (hlawful : Lawful lib) (serverId : Bytes) (fuel : ℕ) : ∀ s :
    VorbisCodec σ Page, Invariant lib s → work s < fuel →
    ∃ s' page, processLoop lib serverId fuel s = (s', page) ∧ Invariant lib s' ∧ Sends s s' page ∧
      (page = none → Idle lib s.os s') := by
  induction fuel with
  | zero => exact fun s _ hless ↦ absurd hless (Nat.not_lt_zero _)
  | succ fuel ih =>
    intro s h hless
    obtain ⟨t, page, hbuffer, ht, hsends, hmore⟩ := getBuffer_ok hlawful h
    rw [processLoop, hbuffer]
    cases page with
    | some page =>
      refine ⟨t, some page, rfl, ht, hsends, ?_⟩
      rintro ⟨⟩
    | none =>
      obtain ⟨hready, hle⟩ := hmore rfl
      obtain ⟨u, returns, hpacket, hu, hsends', hrest⟩ := processPacket_ok hlawful ht hready serverId
      dsimp only
      rw [hpacket]
      cases returns with
      | true =>
        have hrest' : work u < work t := hrest
        have hboth := hsends.trans hsends'
        obtain ⟨s', page, hloop, hs', hsends'', hidle⟩ := ih u hu (by omega)
        exact ⟨s', page, hloop, hs', hboth.trans hsends'', fun hnone ↦ (hidle hnone).suffix hboth.os⟩
      | false => exact ⟨u, none, rfl, hu, hsends.trans hsends', fun _ ↦ hrest.suffix hsends.os⟩

theorem processVorbis_ok (hlawful : Lawful lib) (h : Invariant lib s) (serverId : Bytes) : ∃ s' page,
    processVorbis lib serverId s = (s', page) ∧ Invariant lib s' ∧ Sends s s' page ∧
      (page = none → Idle lib s.os s') := by
  refine processLoop_ok hlawful serverId (turns s) s h (lt_of_le_of_lt (work_le s) ?_)
  rw [turns]
  have hnotify := Bool.toNat_le s.streamNotify
  omega

/-! ## Pages of the source -/

/-- The phases do not depend on what the source has sent beyond the packets that were used. -/
theorem Invariant.frame (h : Invariant lib s) {s' : VorbisCodec σ Page}
    (hsame : s' = { s with
      os := s'.os
      rebuildComment := s'.rebuildComment
      streamNotify := s'.streamNotify
      initialAudioPage := s'.initialAudioPage
      initialPageGranulepos := s'.initialPageGranulepos
      vc := s'.vc
      error := s'.error
      arrived := s'.arrived
      returned := s'.returned })
    (harrived : s'.error = false →
      payloads s'.arrived = payloads (s.header.tail ++ s.consumed ++ s'.os.reduceOption)) :
    Invariant lib s' := by
  have hphase : Phase lib s' := by
    rw [hsame]
    rcases h.phase with hreading | hstarting | hheading | hwriting | hfinishing | hended
    · exact .reading ⟨hreading.first, hreading.header, hreading.process, hreading.buffer, hreading.current,
        hreading.prev, hreading.finished, hreading.consumed⟩
    · exact .starting ⟨hstarting.header, hstarting.process, hstarting.buffer, hstarting.current,
        hstarting.prev, hstarting.mark⟩
    · exact .heading ⟨hheading.process, hheading.buffer, hheading.headers, hheading.headerPages,
        hheading.buffers, hheading.pending, hheading.prev, hheading.mark⟩
    · exact .writing ⟨⟨hwriting.process, hwriting.buffer, hwriting.headers, hwriting.headerPages,
        hwriting.prev, hwriting.mark⟩, hwriting.held⟩
    · exact .finishing ⟨hfinishing.process, hfinishing.buffer, hfinishing.headers, hfinishing.headerPages,
        hfinishing.marked, hfinishing.prev⟩
    · exact .ended ⟨hended.header, hended.process, hended.buffer, hended.current, hended.prev⟩
  refine ⟨⟨?_, ?_, ?_, ?_, ?_⟩, hphase⟩
  · rw [hsame]
    exact harrived
  · rw [hsame]
    exact h.joined
  · rw [hsame]
    exact h.linked
  · rw [hsame]
    exact h.finished
  · rw [hsame]
    exact h.written

/-- The headers are taken from the packets, as many as there are before a gap. -/
theorem headerLoop_ok (lib : Library σ Page) (os : List (Option OggPacket)) :
    ∀ s : VorbisCodec σ Page, s.error = false → s.header ≠ [] → s.header.length ≤ 3 →
    ∃ header vc rest error,
      headerLoop lib os s = { s with header := header, vc := vc, os := rest, error := error } ∧
      header.length ≤ 3 ∧ header.head? = s.header.head? ∧ (error = false →
        payloads (header.tail ++ rest.reduceOption) = payloads (s.header.tail ++ os.reduceOption)) := by
  induction os with
  | nil => exact fun s herror hheader hlength ↦
    ⟨s.header, s.vc, [], s.error, rfl, hlength, rfl, fun _ ↦ rfl⟩
  | cons head os ih =>
    intro s herror hheader hlength
    cases head with
    | none =>
      rw [headerLoop]
      by_cases hless : s.header.length < 3
      · rw [if_pos hless]
        refine ⟨s.header, s.vc, os, s.error, rfl, hlength, rfl, fun _ ↦ ?_⟩
        rw [List.reduceOption_cons_of_none]
      · rw [if_neg hless]
        exact ⟨s.header, s.vc, none :: os, s.error, rfl, hlength, rfl, fun _ ↦ rfl⟩
    | some packet =>
      rw [headerLoop]
      by_cases hless : s.header.length < 3
      · rw [if_pos hless]
        cases lib.synthesisHeaderin s.header.length s.vc packet.packet with
        | none =>
          refine ⟨s.header, s.vc, os, true, rfl, hlength, rfl, ?_⟩
          rintro ⟨⟩
        | some vc =>
          obtain ⟨header, vc, rest, error, hstate, hlength', hheader', hpayloads⟩ :=
            ih { s with vc := vc, header := s.header ++ [{ packet with granulepos := 0 }] } herror
              (List.append_ne_nil_of_right_ne_nil _ (List.cons_ne_nil _ _))
              (by rw [List.length_append]; exact hless)
          refine ⟨header, vc, rest, error, hstate, hlength',
            hheader'.trans (List.head?_append_of_ne_nil _ hheader), fun hok ↦ ?_⟩
          rw [hpayloads hok, List.reduceOption_cons_of_some]
          dsimp only
          rw [List.tail_append_of_ne_nil hheader, List.append_assoc, payloads_append, payloads_append,
            payloads_append]
          rfl
      · rw [if_neg hless]
        exact ⟨s.header, s.vc, some packet :: os, s.error, rfl, hlength, rfl, fun _ ↦ rfl⟩

/-- Between the events the pages that went to the queue are those of the streams. -/
structure Running (lib : Library σ Page) (packet : OggPacket) (s : VorbisCodec σ Page) : Prop
    extends Invariant lib s where
  first : s.header.head? = some packet
  returned : s.returned = buffersOf s

theorem reduceOption_map_some {α : Type} (items : List α) : (items.map some).reduceOption = items := by
  rw [List.reduceOption, List.filterMap_map]
  exact List.filterMap_some

theorem running_initial (lib : Library σ Page) (packet : OggPacket) (others : List OggPacket)
    (vc : List Bytes) : Running lib packet (initialVorbisPage lib packet others vc) := by
  have harrived := congrArg payloads (reduceOption_map_some others).symm
  refine ⟨⟨⟨fun _ ↦ harrived, rfl, linked_nil, ?_, .init 0⟩, .reading ?_⟩, rfl, rfl⟩
  · rintro stream ⟨⟩
  · exact ⟨List.cons_ne_nil _ _, Nat.lt_of_sub_eq_succ rfl, rfl, rfl, rfl, rfl, rfl, rfl⟩

theorem header_length_eq (h : Invariant lib s) (hreading : ¬Reading s) : s.header.length = 3 := by
  rcases h.phase with hread | hstarting | hheading | hwriting | hfinishing | hended
  · exact absurd hread hreading
  · exact hstarting.header
  · exact hheading.headers.header_length
  · exact hwriting.headers.header_length
  · exact hfinishing.headers.header_length
  · exact hended.header

theorem reading_of_header (h : Invariant lib s) (hheader : s.header.length ≠ 3) : Reading s :=
  by_contra fun hreading ↦ hheader (header_length_eq h hreading)

theorem reduceOption_out (page : PageIn) : page.out.reduceOption = page.packets := by
  rw [PageIn.out, List.reduceOption_append, reduceOption_map_some]
  split
  · rfl
  · rfl

/-- With the third header a stream is to be begun. -/
theorem headersDone_ok (lib : Library σ Page) (h : Running lib first s) (hreading : Reading s)
    (herror : s.error = false) :
    Running lib first (headersDone lib (headerLoop lib s.os s)) := by
  obtain ⟨header, vc, rest, error, hstate, hlength, hheader, hpayloads⟩ :=
    headerLoop_ok lib s.os s herror hreading.first hreading.header.le
  have hfirst : header.head? = some first := hheader.trans h.first
  have hne : header ≠ [] := by
    rintro rfl
    cases hfirst
  have harrived : error = false →
      payloads s.arrived = payloads (header.tail ++ s.consumed ++ rest.reduceOption) := by
    intro hok
    have hbefore := h.arrived herror
    rw [hreading.consumed, List.append_nil] at hbefore ⊢
    rw [hbefore, hpayloads hok]
  rw [hstate, headersDone]
  dsimp only
  by_cases hthree : header.length = 3
  · rw [if_pos hthree]
    refine ⟨⟨⟨harrived, ?_, ?_, ?_, h.written⟩, .starting ?_⟩, hfirst, h.returned⟩
    · rw [audioParts, openPart]
      dsimp only
      rw [hreading.finished, hreading.prev, hreading.consumed]
      rfl
    · rw [audioParts, openPart]
      dsimp only
      rw [hreading.finished, hreading.prev]
      exact linked_singleton []
    · dsimp only
      rw [hreading.finished]
      rintro stream ⟨⟩
    · refine ⟨hthree, rfl, hreading.buffer, hreading.current, fun _ ↦ hreading.finished, ?_⟩
      dsimp only
      rw [hreading.prev]
      rintro prev ⟨⟩
  · rw [if_neg hthree]
    refine ⟨⟨⟨harrived, h.joined, h.linked, ?_, h.written⟩, .reading ?_⟩, hfirst, h.returned⟩
    · dsimp only
      rw [hreading.finished]
      rintro stream ⟨⟩
    · exact ⟨hne, lt_of_le_of_ne hlength hthree, hreading.process, hreading.buffer, hreading.current,
        hreading.prev, hreading.finished, hreading.consumed⟩

theorem processVorbisPage_ok (h : Running lib first s) (herror : s.error = false) (page : PageIn) :
    Running lib first (processVorbisPage lib s page) := by
  rw [processVorbisPage]
  by_cases hvalid : page.valid = true
  · rw [if_pos hvalid]
    have harrived : s.error = false → payloads (s.arrived ++ page.packets) =
        payloads (s.header.tail ++ s.consumed ++ (s.os ++ page.out).reduceOption) := by
      intro hok
      rw [payloads_append, h.arrived hok, ← payloads_append, List.reduceOption_append, reduceOption_out,
        List.append_assoc, List.append_assoc]
    have hnext : Running lib first
        { s with os := s.os ++ page.out, arrived := s.arrived ++ page.packets } :=
      ⟨h.toInvariant.frame rfl harrived, h.first, h.returned⟩
    dsimp only
    by_cases hheader : s.header.length = 3
    · rw [if_pos hheader]
      split
      · exact ⟨hnext.toInvariant.frame rfl harrived, h.first, h.returned⟩
      · exact hnext
    · rw [if_neg hheader]
      exact headersDone_ok lib hnext (reading_of_header hnext.toInvariant hheader) herror
  · rw [if_neg hvalid]
    refine ⟨h.toInvariant.frame rfl ?_, h.first, h.returned⟩
    rintro ⟨⟩

theorem vorbisSetTag_ok (h : Running lib first s) (tag : Option (Bytes × Bytes)) :
    Running lib first (vorbisSetTag lib s tag) := by
  cases tag with
  | none => exact ⟨h.toInvariant.frame rfl h.arrived, h.first, h.returned⟩
  | some found => exact ⟨h.toInvariant.frame rfl h.arrived, h.first, h.returned⟩

theorem step_ok (hlawful : Lawful lib) (h : Running lib first s) (event : Event) :
    Running lib first (step lib s event) := by
  rw [step.eq_def]
  by_cases herror : s.error = true
  · rw [if_pos herror]
    exact h
  · rw [if_neg herror]
    cases event with
    | page page => exact processVorbisPage_ok h (eq_false_of_ne_true herror) page
    | setTag tag => exact vorbisSetTag_ok h tag
    | process serverId =>
      obtain ⟨s', page, hprocess, hinvariant, hsends, -⟩ := processVorbis_ok hlawful h.toInvariant serverId
      dsimp only
      rw [hprocess]
      refine ⟨hinvariant.frame rfl hinvariant.arrived, ?_, ?_⟩
      · exact (congrArg List.head? hsends.header).trans h.first
      · dsimp only
        rw [hsends.returned, h.returned, ← hsends.buffers]
        rfl

theorem run_ok (hlawful : Lawful lib) (packet : OggPacket) (others : List OggPacket) (vc : List Bytes)
    (events : List Event) :
    Running lib packet (run (step lib) (initialVorbisPage lib packet others vc) events) :=
  run_invariant (step lib) (Running lib packet) (fun _ event h ↦ step_ok hlawful h event) events
    (running_initial lib packet others vc)

/-! ## Runs -/

/-- Whatever the pages of the source are and whenever titles are set: the packets behind the headers are in
the new streams, in their order, one is held back, and the rest waits. Each stream begins with the last
packet of the one before. A stream that has been ended has its three headers, is marked at its end, and all
its pages have come out; those of the headers have been attached, and the others are what was returned. -/
theorem packets_kept (hlawful : Lawful lib) (packet : OggPacket) (others : List OggPacket) (vc : List Bytes)
    (events : List Event) :
    ∃ s, run (step lib) (initialVorbisPage lib packet others vc) events = s ∧
      s.header.head? = some packet ∧
      (s.error = false → payloads s.arrived =
        payloads s.header.tail ++ join (audioParts s) ++ payloads s.os.reduceOption) ∧
      Linked (audioParts s) ∧ (∀ stream ∈ s.finished, Complete lib s.header stream) ∧
      s.returned = buffersOf s := by
  have h := run_ok hlawful packet others vc events
  refine ⟨_, rfl, h.first, fun hok ↦ ?_, h.linked, h.finished, h.returned⟩
  rw [← h.joined, ← payloads_append, ← payloads_append]
  exact h.arrived hok

/-- Nothing is returned only if headers are missing, a stream was ended with no packet held back, or the
title that was set has been answered and all packets have been used, up to the end or up to a gap. -/
theorem processVorbis_idle (hlawful : Lawful lib) (packet : OggPacket) (others : List OggPacket)
    (vc : List Bytes) (events : List Event) (serverId : Bytes) :
    ∃ before s page, run (step lib) (initialVorbisPage lib packet others vc) events = before ∧
      processVorbis lib serverId before = (s, page) ∧
      (page = none → s.header.length < 3 ∨ s.processPacket = none ∧ s.prevPacket = none ∨
        s.streamNotify = false ∧ (s.os = [] ∨ ∃ front, before.os = front ++ none :: s.os)) := by
  have h := run_ok hlawful packet others vc events
  obtain ⟨s, page, hprocess, -, -, hidle⟩ := processVorbis_ok hlawful h.toInvariant serverId
  refine ⟨_, s, page, rfl, hprocess, fun hnone ↦ ?_⟩
  rcases hidle hnone with hreading | hended | ⟨-, hstopped, hnotify⟩
  · exact Or.inl hreading.header
  · exact Or.inr (Or.inl ⟨hended.process, hended.prev⟩)
  · exact Or.inr (Or.inr ⟨hnotify, hstopped⟩)

end Steps

/-! ### One title -/

/-- A stream of libogg with small packets: the first packet has a page for itself, and a page is given out
before it is asked for only if the stream has just begun or has ended. -/
structure SmallStream where
  began : Bool
  ended : Bool
  waiting : List OggPacket

def flushSmall (os : SmallStream) : Option (List OggPacket × SmallStream) :=
  match os.waiting with
  | [] => none
  | packet :: rest =>
    if os.began then some (packet :: rest, { os with waiting := [] })
    else some ([packet], { os with began := true, waiting := rest })

def le32 (n : ℕ) : Bytes := (List.range 4).map fun i ↦ UInt8.ofNat (n / 256 ^ i)

/-- The header with the comments, as libvorbis writes it. -/
def commentHeader (vendor : Bytes) (vc : List Bytes) : Bytes :=
  3 :: bytes "vorbis" ++ le32 vendor.length ++ vendor ++ le32 vc.length ++
    vc.flatMap (fun comment ↦ le32 comment.length ++ comment) ++ [1]

/-- Blocks of 256 samples are read from audio packets, and headers are told by how they begin. -/
def smallPages : Library SmallStream (List OggPacket) where
  toVorbisComments := listComments
  streamInit _ := ⟨false, false, []⟩
  packetin os packet := ⟨os.began, os.ended || packet.eOS, os.waiting ++ [packet]⟩
  pageout os := if os.ended || !os.began then flushSmall os else none
  flush := flushSmall
  pending os := os.waiting.length
  pageGranulepos page := page.getLast?.elim (-1) OggPacket.granulepos
  synthesisHeaderin n vc packet :=
    if packet.take 7 = UInt8.ofNat (2 * n + 1) :: bytes "vorbis" then some vc else none
  commentheaderOut vc := ⟨commentHeader (bytes "Xiph.Org libVorbis I") vc, false, 0, 1⟩
  rate packet := ((packet.drop 12).take 4).foldr (fun byte rest ↦ byte.toNat + 256 * rest) 0
  packetBlocksize packet := if packet.headD 1 % 2 = 0 then 256 else -135

theorem lawful_smallPages : Lawful smallPages := by
  refine ⟨fun os hflush ↦ ?_, fun os page os' hflush ↦ ?_, fun os packet ↦ ?_⟩
  · change flushSmall os = none at hflush
    change os.waiting.length = 0
    rw [flushSmall] at hflush
    cases hwaiting : os.waiting with
    | nil => rfl
    | cons packet rest =>
      rw [hwaiting] at hflush
      dsimp only at hflush
      split at hflush
      · cases hflush
      · cases hflush
  · change flushSmall os = some (page, os') at hflush
    change os'.waiting.length < os.waiting.length
    rw [flushSmall] at hflush
    cases hwaiting : os.waiting with
    | nil =>
      rw [hwaiting] at hflush
      cases hflush
    | cons packet rest =>
      rw [hwaiting] at hflush
      dsimp only at hflush
      split at hflush
      · cases hflush
        exact Nat.succ_pos _
      · cases hflush
        exact Nat.lt_succ_self _
  · change (os.waiting ++ [packet]).length ≠ 0
    rw [List.length_append]
    exact Nat.succ_ne_zero _

/-- One channel of 8000 samples a second, in blocks of 256 or 2048. -/
def idHeader : OggPacket :=
  ⟨1 :: bytes "vorbis" ++ le32 0 ++ 1 :: le32 8000 ++ le32 0 ++ le32 0 ++ le32 0 ++ [184, 1], false, 0, 0⟩

def noComments : OggPacket := ⟨commentHeader [] [], false, 0, 1⟩

/-- One codebook with two entries, one floor without partitions, one residue, mapping and mode. -/
def setupHeader : OggPacket :=
  ⟨5 :: bytes "vorbis" ++ [0, 66, 67, 86, 1, 0, 2, 0, 0, 0, 0, 0, 0, 0, 16, 0, 0, 56] ++
    List.replicate 26 0 ++ [1], false, 0, 2⟩

/-- A title is set after two packets of audio, and a page is missing before the next packet. -/
def titled : List Event :=
  [.page ⟨true, false, 0, [noComments, setupHeader]⟩,
    .page ⟨true, false, 128, [⟨[10], false, -1, 3⟩, ⟨[20], false, 128, 4⟩]⟩, .process (bytes "Icecast"),
    .setTag none, .process (bytes "Icecast"), .process (bytes "Icecast"),
    .page ⟨true, true, 512, [⟨[30], false, 512, 6⟩]⟩]

theorem titled_kept : ∃ s, run (step smallPages) (initialVorbisPage smallPages idHeader [] []) titled = s ∧
    payloads s.arrived = payloads s.header.tail ++ join (audioParts s) ++ payloads s.os.reduceOption ∧
      s.finished.length = 1 := by
  obtain ⟨s, hrun, -, harrived, -⟩ := packets_kept lawful_smallPages idHeader [] [] titled
  refine ⟨s, hrun, harrived ?_, ?_⟩
  · rw [← hrun]
    rfl
  · rw [← hrun]
    rfl

/-- The packet behind the gap waits. -/
theorem titled_idle : ∃ before s,
    run (step smallPages) (initialVorbisPage smallPages idHeader [] []) titled = before ∧
      processVorbis smallPages (bytes "Icecast") before = (s, none) ∧ payloads s.os.reduceOption = [[30]] ∧
      (s.header.length < 3 ∨ s.processPacket = none ∧ s.prevPacket = none ∨
        s.streamNotify = false ∧ (s.os = [] ∨ ∃ front, before.os = front ++ none :: s.os)) := by
  obtain ⟨before, s, page, hrun, hprocess, hidle⟩ :=
    processVorbis_idle lawful_smallPages idHeader [] [] titled (bytes "Icecast")
  rw [← hrun] at hprocess
  have hpage : page = none := (congrArg Prod.snd hprocess).symm
  have hos : payloads s.os.reduceOption = [[30]] :=
    (congrArg (fun result ↦ payloads result.1.os.reduceOption) hprocess).symm
  rw [hrun, hpage] at hprocess
  exact ⟨before, s, hrun, hprocess, hos, hidle hpage⟩

end Icecast.Format.VorbisRebuild
