import Icecast.Format.Comments
import Icecast.Lib.Machine
import Mathlib.Data.Int.Notation

/-!
# The codecs of an Ogg stream

Every logical stream in an Ogg stream begins with a BOS page, by which `process_initial_page` finds
out its codec. The codecs of a group of BOS pages are kept in a list until the next group begins.
A Vorbis stream also installs `vorbis_set_tag`, by which titles come into the stream; it is never
taken back, and looks at the codec that is alone in the list when it is called.

The libraries that decide whether a packet is a header of their codec are parameters.
-/

namespace Icecast.Format.OggCodecs

open Comments Lib.Machine

/-- A BOS page with its first packet. -/
structure OggPage where
  serialno : ℤ
  headerLen : ℕ
  bodyLen : ℕ
  packet : Bytes
  deriving DecidableEq

/-- What is called from libraries. Those for Theora, Speex and Kate may be missing.
`util_conv_string` converts a text to UTF-8. -/
structure Library extends VorbisComments where
  vorbisSynthesisHeaderin : Bytes → Bool
  theoraDecodeHeader : Option (Bytes → Bool)
  speexPacketToHeader : Option (Bytes → Bool)
  kateOggDecodeHeaderin : Option (Bytes → Bool)
  utilConvString : Bytes → Option Bytes → Option Bytes

/-- The part of `vorbis_codec_t` that `vorbis_set_tag` writes to. -/
structure VorbisCodec where
  streamNotify : Bool
  rebuildComment : Bool
  deriving DecidableEq

/-- What the pointer `specific` of a codec points to. -/
inductive Specific where
  | null
  | vorbis (codec : VorbisCodec)
  | theora
  | kate
  deriving DecidableEq

def Specific.isVorbis : Specific → Bool
  | .vorbis _ => true
  | _ => false

structure OggCodec where
  serialno : ℤ
  headers : ℕ
  name : Option String
  specific : Specific
  deriving DecidableEq

inductive SetTag where
  | vorbisSetTag
  deriving DecidableEq

/-- The plugin with its `ogg_state_t`. The newest codec is the first one. -/
structure State where
  setTag : Option SetTag
  vc : List Bytes
  codecs : List OggCodec
  codecCount : ℕ
  bosCompleted : Bool
  error : Bool
  deriving DecidableEq

/-- `format_ogg_get_plugin`. -/
def start : State := ⟨none, [], [], 0, false, false⟩

/-! ## Initial pages -/

/-- The codec that is made for a page it accepts. -/
def initialPage (accepts : Bool) (name : Option String) (specific : Specific) (page : OggPage) :
    Option OggCodec :=
  if accepts then some ⟨page.serialno, 1, name, specific⟩ else none

def initialVorbisPage (lib : Library) (page : OggPage) : Option OggCodec :=
  initialPage (lib.vorbisSynthesisHeaderin page.packet) (some "Vorbis") (.vorbis ⟨false, false⟩) page

def initialTheoraPage (lib : Library) (page : OggPage) : Option OggCodec :=
  initialPage (lib.theoraDecodeHeader.any (· page.packet)) (some "Theora") .theora page

def initialMidiPage (page : OggPage) : Option OggCodec :=
  initialPage (9 ≤ page.packet.length ∧ page.packet.take 8 = bytes "OggMIDI\x00" ∧
    page.packet.length = 12) (some "MIDI") .null page

def initialFlacPage (page : OggPage) : Option OggCodec :=
  initialPage (page.headerLen + page.bodyLen = 79 ∧ page.packet.take 1 = [0x7F] ∧
    (page.packet.drop 1).take 4 = bytes "FLAC") (some "FLAC") .null page

/-- A packet that is too short is not shown to the library. -/
def initialSpeexPage (lib : Library) (page : OggPage) : Option OggCodec :=
  initialPage (lib.speexPacketToHeader.any fun packetToHeader ↦
    80 ≤ page.packet.length ∧ packetToHeader page.packet) none .null page

def initialKatePage (lib : Library) (page : OggPage) : Option OggCodec :=
  let accepts := match lib.kateOggDecodeHeaderin with
    | some headerin => headerin page.packet
    | none => 9 ≤ page.packet.length ∧ page.packet.take 9 = 0x80 :: bytes "kate\x00\x00\x00\x00"
  initialPage accepts (some "Kate") .kate page

def initialSkeletonPage (page : OggPage) : Option OggCodec :=
  initialPage (8 ≤ page.packet.length ∧ page.packet.take 8 = bytes "fishead\x00") (some "Skeleton")
    .null page

def initialOpusPage (page : OggPage) : Option OggCodec :=
  initialPage (8 ≤ page.packet.length ∧ page.packet.take 8 = bytes "OpusHead") (some "Opus") .null page

/-- The codecs that are tried after Vorbis, in this order. -/
def initialOtherPage (lib : Library) (page : OggPage) : Option OggCodec :=
  (initialTheoraPage lib page).or <| (initialMidiPage page).or <| (initialFlacPage page).or <|
    (initialSpeexPage lib page).or <| (initialKatePage lib page).or <|
      (initialSkeletonPage page).or (initialOpusPage page)

def freeOggCodecs (s : State) : State :=
  { s with codecs := [], bosCompleted := false, codecCount := 0 }

def addCodec (codec : OggCodec) (s : State) : State :=
  { s with codecs := codec :: s.codecs, codecCount := s.codecCount + 1 }

/-- The comments are cleared before the page is shown to the Vorbis library. -/
def processInitialPage (lib : Library) (page : OggPage) (s : State) : State :=
  let s := if s.bosCompleted then freeOggCodecs s else s
  if s.codecCount > 10 then { s with error := true }
  else
    let s := { s with vc := [] }
    match initialVorbisPage lib page with
    | some codec => addCodec codec { s with setTag := some .vorbisSetTag }
    | none =>
      match initialOtherPage lib page with
      | some codec => addCodec codec s
      | none => { s with error := true }

/-! ## Other pages and tags -/

/-- The codec with the serial number of the page works on it, which may change the flags of a Vorbis
stream. -/
def processPage (serialno : ℤ) (process : VorbisCodec → VorbisCodec) : List OggCodec → List OggCodec
  | [] => []
  | codec :: codecs =>
    if codec.serialno = serialno then
      match codec.specific with
      | .vorbis vorbis => { codec with specific := .vorbis (process vorbis) } :: codecs
      | _ => codec :: codecs
    else codec :: processPage serialno process codecs

/-- The codec that `vorbis_set_tag` uses: there must not be another one. -/
def target (s : State) : Option OggCodec :=
  match s.codecs with
  | [codec] => some codec
  | _ => none

/-- The end of an update is told by writing to the Vorbis codec. -/
def notify (codec : OggCodec) : OggCodec :=
  match codec.specific with
  | .vorbis _ => { codec with specific := .vorbis ⟨true, true⟩ }
  | _ => codec

def vorbisSetTag (lib : Library) (tag : Option Bytes) (inValue : Bytes) (charset : Option Bytes)
    (s : State) : State :=
  match target s with
  | none => s
  | some codec =>
    match tag with
    | none => { s with codecs := [notify codec] }
    | some tag =>
      let value := (lib.utilConvString inValue charset).getD inValue
      let tag := if tag = bytes "song" then bytes "title" else tag
      { s with vc := formatSetVorbiscomment lib.toVorbisComments s.vc tag value }

inductive Event where
  | bosPage (page : OggPage)
  | otherPage (serialno : ℤ) (error : Bool) (process : VorbisCodec → VorbisCodec)
  | setTag (tag : Option Bytes) (value : Bytes) (charset : Option Bytes)

/-- The pages of `ogg_get_buffer`, and calls of `set_tag` from the admin interface. No page is taken
from the stream after an error. -/
def next (lib : Library) (s : State) : Event → State
  | .bosPage page => if s.error then s else processInitialPage lib page s
  | .otherPage serialno error process =>
    if s.error then s
    else { s with bosCompleted := true, codecs := processPage serialno process s.codecs, error }
  | .setTag tag value charset =>
    match s.setTag with
    | none => s
    | some .vorbisSetTag => vorbisSetTag lib tag value charset s

/-! ## The codec that is found -/

/-- A call of `vorbis_set_tag` in this state finds a Vorbis codec, if it finds one. -/
def Sound (s : State) : Prop :=
  s.setTag = some .vorbisSetTag → ∀ codec, target s = some codec → codec.specific.isVorbis = true

/-- The codec that is found out for a page. -/
def codecOf (lib : Library) (page : OggPage) : Option OggCodec :=
  (initialVorbisPage lib page).or (initialOtherPage lib page)

/-- Once a Vorbis stream has come, every group of BOS pages begins with a Vorbis stream. -/
def VorbisFirst (lib : Library) (s : State) : Event → Prop
  | .bosPage page => s.error = false → s.setTag = some .vorbisSetTag →
      s.bosCompleted = true ∨ s.codecs = [] →
        ∀ codec, codecOf lib page = some codec → codec.specific.isVorbis = true
  | _ => True

structure Inv (s : State) : Prop where
  sound : Sound s
  count : s.codecCount = s.codecs.length

section Steps

variable {lib : Library} {s : State}

theorem target_eq_some {codec : OggCodec} : target s = some codec ↔ s.codecs = [codec] := by
  unfold target
  split
  · rename_i found hcodecs
    rw [hcodecs, Option.some_inj, List.singleton_inj]
  · rename_i hcodecs
    exact ⟨nofun, fun hcodec ↦ absurd hcodec (hcodecs codec)⟩

theorem initialVorbisPage_isVorbis {page : OggPage} {codec : OggCodec}
    (h : initialVorbisPage lib page = some codec) : codec.specific.isVorbis = true := by
  unfold initialVorbisPage initialPage at h
  split at h
  · rw [← Option.some.inj h]
    rfl
  · cases h

/-- The codecs of the group that a BOS page comes into. -/
def group (s : State) : List OggCodec := if s.bosCompleted then [] else s.codecs

/-- What a BOS page does: its codec joins the group, or there is an error. -/
inductive Processed (lib : Library) (page : OggPage) (s s' : State) : Prop
  | vorbis (codec : OggCodec) (hcodec : codecOf lib page = some codec)
    (hvorbis : codec.specific.isVorbis = true) (hcodecs : s'.codecs = codec :: group s)
  | other (codec : OggCodec) (hcodec : codecOf lib page = some codec)
    (hcodecs : s'.codecs = codec :: group s) (htag : s'.setTag = s.setTag)
  | error (hcodecs : s'.codecs = group s) (htag : s'.setTag = s.setTag)
    (hfull : 10 < (group s).length ∨ codecOf lib page = none)

theorem processInitialPage_processed (hcount : s.codecCount = s.codecs.length) (page : OggPage) :
    (processInitialPage lib page s).codecCount = (processInitialPage lib page s).codecs.length ∧
      Processed lib page s (processInitialPage lib page s) := by
  have hgroup : (if s.bosCompleted then freeOggCodecs s else s).codecs = group s := by
    unfold group
    split <;> rfl
  have hlength : (if s.bosCompleted then freeOggCodecs s else s).codecCount = (group s).length := by
    rw [← hgroup]
    split
    · rfl
    · exact hcount
  have hkept : (if s.bosCompleted then freeOggCodecs s else s).setTag = s.setTag := by
    split <;> rfl
  unfold processInitialPage
  generalize (if s.bosCompleted then freeOggCodecs s else s) = begun at hgroup hlength hkept ⊢
  dsimp only
  split
  · rename_i hfull
    rw [hlength] at hfull
    exact ⟨hlength.trans (congrArg List.length hgroup).symm, .error hgroup hkept (Or.inl hfull)⟩
  · cases hvorbis : initialVorbisPage lib page with
    | some codec =>
      refine ⟨by simp [addCodec, hlength, hgroup], .vorbis codec ?_ ?_ ?_⟩
      · rw [codecOf, hvorbis, Option.some_or]
      · exact initialVorbisPage_isVorbis hvorbis
      · simp [addCodec, hgroup]
    | none =>
      cases hother : initialOtherPage lib page with
      | some codec =>
        refine ⟨by simp [addCodec, hlength, hgroup], .other codec ?_ ?_ hkept⟩
        · rw [codecOf, hvorbis, Option.none_or, hother]
        · simp [addCodec, hgroup]
      | none =>
        refine ⟨hlength.trans (congrArg List.length hgroup).symm, .error hgroup hkept (Or.inr ?_)⟩
        rw [codecOf, hvorbis, Option.none_or, hother]

theorem processPage_isVorbis (serialno : ℤ) (process : VorbisCodec → VorbisCodec)
    (codecs : List OggCodec) :
    (processPage serialno process codecs).map (·.specific.isVorbis) =
      codecs.map (·.specific.isVorbis) := by
  induction codecs with
  | nil => rfl
  | cons codec codecs ih =>
    unfold processPage
    split_ifs
    · split
      · rename_i vorbis hspecific
        simp [Specific.isVorbis, hspecific]
      · rfl
    · rw [List.map_cons, ih, List.map_cons]

theorem notify_isVorbis (codec : OggCodec) :
    (notify codec).specific.isVorbis = codec.specific.isVorbis := by
  unfold notify
  split
  · rename_i vorbis hspecific
    rw [hspecific]
    rfl
  · rfl

/-- The property depends only on which of the codecs are Vorbis codecs. -/
theorem Sound.congr {s' : State} (h : Sound s) (htag : s'.setTag = s.setTag)
    (hkinds : s'.codecs.map (·.specific.isVorbis) = s.codecs.map (·.specific.isVorbis)) :
    Sound s' := by
  intro hset codec' hcodec'
  rw [target_eq_some.mp hcodec', List.map_singleton] at hkinds
  obtain ⟨codec, hcodec, hkind⟩ := List.map_eq_singleton_iff.mp hkinds.symm
  rw [← hkind]
  exact h (htag.symm.trans hset) codec (target_eq_some.mpr hcodec)

theorem Inv.vorbisSetTag (h : Inv s) (tag : Option Bytes) (value : Bytes) (charset : Option Bytes) :
    Inv (vorbisSetTag lib tag value charset s) := by
  unfold OggCodecs.vorbisSetTag
  split
  · exact h
  · rename_i codec htarget
    have hcodecs := target_eq_some.mp htarget
    split
    · refine ⟨h.sound.congr rfl ?_, ?_⟩
      · rw [hcodecs, List.map_singleton, List.map_singleton, notify_isVorbis]
      · rw [h.count, hcodecs]
        rfl
    · exact ⟨h.sound.congr rfl rfl, h.count⟩

theorem Inv.bosPage (h : Inv s) {page : OggPage} (herror : s.error = false)
    (hfirst : VorbisFirst lib s (.bosPage page)) : Inv (processInitialPage lib page s) := by
  obtain ⟨hcount, hprocessed⟩ := processInitialPage_processed h.count page
  refine ⟨?_, hcount⟩
  intro htag found hfound
  have hsingle := target_eq_some.mp hfound
  cases hprocessed with
  | vorbis codec hcodec hvorbis hcodecs =>
    rw [hcodecs, List.cons_eq_cons] at hsingle
    rw [← hsingle.1]
    exact hvorbis
  | other codec hcodec hcodecs hsame =>
    rw [hcodecs, List.cons_eq_cons] at hsingle
    have hbegin : s.bosCompleted = true ∨ s.codecs = [] := by
      by_contra hnot
      rw [not_or] at hnot
      rw [group, if_neg hnot.1] at hsingle
      exact hnot.2 hsingle.2
    rw [← hsingle.1]
    exact hfirst herror (hsame.symm.trans htag) hbegin codec hcodec
  | error hcodecs hsame hfull =>
    rw [hcodecs] at hsingle
    unfold group at hsingle
    split at hsingle
    · cases hsingle
    · exact h.sound (hsame.symm.trans htag) found (target_eq_some.mpr hsingle)

theorem Inv.not_sound (h : Inv s) {page : OggPage} (hfirst : ¬VorbisFirst lib s (.bosPage page)) :
    ¬Sound (next lib s (.bosPage page)) := by
  simp only [VorbisFirst, not_forall] at hfirst
  obtain ⟨herror, htag, hbegin, codec, hcodec, hnot⟩ := hfirst
  have hgroup : group s = [] := by
    unfold group
    split
    · rfl
    · rename_i hcompleted
      exact hbegin.resolve_left hcompleted
  have hnext : next lib s (.bosPage page) = processInitialPage lib page s := by
    simp [next, herror]
  intro hsound
  rw [hnext] at hsound
  have hprocessed : Processed lib page s (processInitialPage lib page s) :=
    (processInitialPage_processed h.count page).2
  cases hprocessed with
  | vorbis found hfound hvorbis hcodecs =>
    rw [Option.some.inj (hcodec.symm.trans hfound)] at hnot
    exact hnot hvorbis
  | other found hfound hcodecs hsame =>
    rw [Option.some.inj (hcodec.symm.trans hfound)] at hnot
    rw [hgroup] at hcodecs
    exact hnot (hsound (hsame.trans htag) found (target_eq_some.mpr hcodecs))
  | error hcodecs hsame hfull =>
    rw [hgroup, hcodec] at hfull
    simp at hfull

end Steps

/-- `vorbis_set_tag` finds a Vorbis codec in every state that is reached, if and only if every group
of BOS pages behind a Vorbis stream begins with a Vorbis stream. -/
theorem vorbis_set_tag_sound (lib : Library) (events : List Event) :
    (∀ before, before <+: events → Sound (run (next lib) start before)) ↔
      Guarded (next lib) (VorbisFirst lib) start events := by
  refine forall_prefix_iff_guarded (next lib) Inv Sound ?_ (fun s h ↦ h.sound) ?_ events
    ⟨nofun, rfl⟩
  · intro s event h hfirst
    cases event with
    | bosPage page =>
      rw [next]
      split
      · exact h
      · rename_i herror
        exact h.bosPage (by simpa using herror) hfirst
    | otherPage serialno error process =>
      rw [next]
      split
      · exact h
      · have hkinds := processPage_isVorbis serialno process s.codecs
        refine ⟨h.sound.congr rfl hkinds, ?_⟩
        have hlength := congrArg List.length hkinds
        rw [List.length_map, List.length_map] at hlength
        exact h.count.trans hlength.symm
    | setTag tag value charset =>
      rw [next]
      split
      · exact h
      · exact h.vorbisSetTag tag value charset
  · intro s event h hfirst
    cases event with
    | bosPage page => exact h.not_sound hfirst
    | otherPage serialno error process => exact absurd trivial hfirst
    | setTag tag value charset => exact absurd trivial hfirst

/-- The first bytes of a header packet are enough for a decision. -/
def exampleLibrary : Library where
  toVorbisComments := listComments
  vorbisSynthesisHeaderin packet := packet.take 7 = 1 :: bytes "vorbis"
  theoraDecodeHeader := none
  speexPacketToHeader := none
  kateOggDecodeHeaderin := none
  utilConvString _ _ := none

def examplePage (packet : Bytes) : OggPage := ⟨1, 28, packet.length, packet⟩

/-- A Vorbis stream, and an Opus stream behind it. -/
def vorbisThenOpus : List Event :=
  [.bosPage (examplePage (1 :: bytes "vorbis")), .otherPage 1 false id,
    .bosPage (examplePage (bytes "OpusHead"))]

/-- `vorbis_set_tag` is still there when the only codec is the one of the Opus stream. -/
theorem vorbis_set_tag_finds_opus :
    (¬∀ (lib : Library) (events : List Event), Sound (run (next lib) start events)) ∧
      (run (next exampleLibrary) start vorbisThenOpus).setTag = some .vorbisSetTag ∧
      target (run (next exampleLibrary) start vorbisThenOpus) =
        some ⟨1, 1, some "Opus", .null⟩ := by
  have htag : (run (next exampleLibrary) start vorbisThenOpus).setTag = some .vorbisSetTag := by
    decide +kernel
  have htarget : target (run (next exampleLibrary) start vorbisThenOpus) =
      some ⟨1, 1, some "Opus", .null⟩ := by decide +kernel
  refine ⟨fun hall ↦ ?_, htag, htarget⟩
  exact nomatch hall exampleLibrary vorbisThenOpus htag _ htarget

end Icecast.Format.OggCodecs
