import Icecast.Format.Comments
import Icecast.Lib.CString
import Icecast.Lib.Decimal
import Icecast.Lib.Snprintf

/-!
# The response header of a listener

When a listener's turn comes for the first time, `format_prepare_headers` (`format.c`) puts its
response header together: the general part of it with the headers of the configuration
(`util_http_build_header`), then what the source has sent in headers of its own, and an empty line. The
format plugin may go on from there; the one for MP3 takes the empty line back and adds its headers
(`format_mp3.c`).

There is always 1 kB of room behind the general part, since the buffer is enlarged if need be. Nothing
else is compared with the room that is left, and the plugin takes the buffer to have 4096 bytes, whether
it has been enlarged or not.
-/

namespace Icecast.Format.ListenerHeaders

open Comments (Bytes bytes toLower)
open Lib.CString (strstr)
open Lib.MachineInt Lib.Snprintf

def strcasecmp (text word : Bytes) : Bool := text.map toLower = word.map toLower

/-- `strncasecmp` with the length of the word. -/
def startsWith (word text : Bytes) : Bool := strcasecmp (text.take word.length) word

/-- `%u` -/
def decimal (value : ℕ) : Bytes := bytes (Nat.repr value)

/-! ## The general part -/

/-- `ice_config_http_header_t`; a status of 0 stands for every status. -/
structure HttpHeader where
  name : Option Bytes
  value : Option Bytes
  status : ℕ

inductive Reuse where
  | close
  | keepalive
  | upgradetls

/-- The settings and the client, as far as the response header is concerned. -/
structure Settings where
  serverId : Bytes
  httpHeaders : List HttpHeader
  mountHttpHeaders : List HttpHeader
  streamName : Option Bytes
  contenttype : Option Bytes
  tls : Bool
  reuse : Reuse
  adminCommand : Bool

/-- `_build_headers_loop` -/
def buildHeadersLoop (status : ℕ) (headers : List HttpHeader) : Bytes :=
  headers.flatMap fun header ↦
    if header.status ≠ 0 ∧ header.status ≠ status then []
    else
      match header.name, header.value with
      | some name, some value => name ++ bytes ": " ++ value ++ bytes "\r\n"
      | _, _ => []

/-- `util_http_build_header` for a status of 200 without a cache, a charset or a data block. The line
with the content type is put together in 80 bytes; the date is given as a line. -/
def utilHttpBuildHeader (settings : Settings) (date : Bytes) : Bytes :=
  let connection := match settings.reuse with
    | .close => bytes "Close"
    | .keepalive => bytes "Keep-Alive"
    | .upgradetls => bytes "Upgrade"
  let upgrade := match settings.reuse with
    | .upgradetls => []
    | _ => if settings.tls then bytes "Upgrade: TLS/1.0\r\n" else []
  let contenttype := match settings.contenttype with
    | none => []
    | some contenttype => (bytes "Content-Type: " ++ contenttype ++ bytes "\r\n").take 79
  bytes "HTTP/1.0 200 OK\r\nServer: " ++ settings.serverId ++ bytes "\r\nConnection: " ++ connection ++
    bytes "\r\nAccept-Encoding: identity\r\nAllow: " ++
    (if settings.adminCommand then bytes "GET" else bytes "GET, SOURCE") ++ bytes "\r\n" ++ upgrade ++
    date ++ contenttype ++
    bytes "Cache-Control: no-cache\r\nExpires: Mon, 26 Jul 1997 05:00:00 GMT\r\nPragma: no-cache\r\n" ++
    buildHeadersLoop 200 settings.httpHeaders ++ buildHeadersLoop 200 settings.mountHttpHeaders

/-! ## The headers of the source -/

/-- `http_var_t` -/
structure HttpVar where
  name : Bytes
  value : Bytes

def isDigit (byte : UInt8) : Bool := 48 ≤ byte && byte ≤ 57

/-- What `%u` reads. A text that ends before the number is not told apart from one with a number, and
leaves the variable as it was (`unset`). -/
def scanUnsigned (unset : ℕ) (text : Bytes) : Option ℕ :=
  match text.dropWhile fun byte ↦ byte = 32 || (9 ≤ byte && byte ≤ 13) with
  | [] => some unset
  | first :: rest =>
    let digits := (if first = 43 ∨ first = 45 then rest else first :: rest).takeWhile isDigit
    if digits = [] then none
    else
      let value := digits.foldl (fun value digit ↦ value * 10 + (digit.toNat - 48)) 0
      if 2 ^ 64 ≤ value then some (2 ^ 32 - 1)
      else if first = 45 then some (usub 32 0 value)
      else some (value % 2 ^ 32)

/-- The bit rate in an `ice-audio-info`. -/
def bitrateOf (unset : ℕ) (value : Bytes) : Option ℕ :=
  match strstr (bytes "bitrate=") value with
  | none => none
  | some offset => scanUnsigned unset (value.drop (offset + 8))

/-- The text for a header, if it has one, and whether the same header comes again. -/
def headerStep (streamName : Option Bytes) (unset : ℕ) (bitrateFiltered : Bool) (var : HttpVar) :
    Option Bytes × Bool :=
  if strcasecmp var.name (bytes "ice-audio-info") then
    match if bitrateFiltered then none else bitrateOf unset var.value with
    | some bitrate => (some (bytes "icy-br:" ++ decimal bitrate ++ bytes "\r\n"), true)
    | none => (some (var.name ++ bytes ": " ++ var.value ++ bytes "\r\n"), false)
  else if strcasecmp var.name (bytes "ice-password") || strcasecmp var.name (bytes "icy-metaint") then
    (none, false)
  else if strcasecmp var.name (bytes "ice-name") then
    (some (bytes "icy-name:" ++ streamName.getD var.value ++ bytes "\r\n"), false)
  else if startsWith (bytes "ice-") var.name then
    if strcasecmp var.name (bytes "ice-public") then
      (some (bytes "icy-pub:" ++ var.value ++ bytes "\r\n"), false)
    else if strcasecmp var.name (bytes "ice-bitrate") then
      (some (bytes "icy-br:" ++ var.value ++ bytes "\r\n"), false)
    else (some (bytes "icy" ++ var.name.drop 3 ++ bytes ":" ++ var.value ++ bytes "\r\n"), false)
  else if startsWith (bytes "icy-") var.name then
    (some (bytes "icy" ++ var.name.drop 3 ++ bytes ":" ++ var.value ++ bytes "\r\n"), false)
  else (none, false)

/-- The texts of the loop over the source's headers. A header that comes again is not looked at for a
bit rate any more. -/
def headerTexts (streamName : Option Bytes) (unset : ℕ) : Bool → List HttpVar → List Bytes
  | _, [] => []
  | bitrateFiltered, var :: vars =>
    match headerStep streamName unset bitrateFiltered var with
    | (text, false) => text.toList ++ headerTexts streamName unset bitrateFiltered vars
    | (text, true) =>
      text.toList ++ (headerStep streamName unset true var).1.toList ++
        headerTexts streamName unset true vars

/-! ## Putting it together -/

/-- `perClientRefbufSize` is the size of a listener's buffer, and the `4096` of the MP3 plugin. -/
def perClientRefbufSize : ℕ := 4096

/-- What the MP3 plugin looks at in the listener's request. -/
structure Request where
  xFlashVersion : Bool
  userAgent : Option Bytes
  icyMetadata : Option String

inductive Plugin where
  | ogg
  | ebml
  | mp3 (interval : ℤ)

/-- Everything that the header is made of. `firstDate` and `secondDate` are the dates of the two calls
of `util_http_build_header`; `reallocFails` is about the call of `realloc`. -/
structure Input where
  settings : Settings
  firstDate : Bytes
  secondDate : Bytes
  reallocFails : Bool
  vars : List HttpVar
  unset : ℕ
  request : Request
  plugin : Plugin

/-- The buffer of the listener: its true size, what has been written, and `refbuf->len`. -/
structure Buffer where
  capacity : ℕ
  writer : Writer UInt8
  len : ℕ

/-- The texts that the MP3 plugin adds. -/
def mp3Texts (interval : ℤ) (request : Request) : List Bytes :=
  let flash := request.xFlashVersion ||
    request.userAgent.any fun useragent ↦ (strstr (bytes "MSIE") useragent).isSome
  let clientInterval := if 0 ≤ interval then interval.toNat else 16000
  (if flash then [bytes "Content-Length: 221183499\r\n"] else []) ++
    if request.icyMetadata.any (Lib.Decimal.atoi · ≠ 0) ∧ clientInterval ≠ 0 then
      [bytes "icy-metaint:" ++ decimal clientInterval ++ bytes "\r\n"]
    else []

/-- Where the plugin starts: two bytes back, with an `unsigned int` for the room. -/
def mp3Start (buffer : Buffer) : Writer UInt8 where
  calls := buffer.writer.calls
  offset := buffer.len - 2
  remaining := usub 32 (perClientRefbufSize + 2) buffer.len
  wrapped := buffer.writer.wrapped || perClientRefbufSize + 2 < buffer.len

/-- `format_mp3_create_client_data` -/
def formatMp3CreateClientData (interval : ℤ) (request : Request) (buffer : Buffer) : Buffer :=
  let writer := (mp3Texts interval request ++ [bytes "\r\n"]).foldl (Writer.snprintf 32)
    (mp3Start buffer)
  { buffer with writer, len := usub 32 perClientRefbufSize writer.remaining }

/-- The plugins other than that for MP3 leave the header as it is. -/
def createClientData (plugin : Plugin) (request : Request) (buffer : Buffer) : Buffer :=
  match plugin with
  | .mp3 interval => formatMp3CreateClientData interval request buffer
  | _ => buffer

/-- The headers of the source and the empty line, behind the general part. -/
def appendHeaders (input : Input) (capacity : ℕ) (header : Bytes) : Buffer :=
  let texts := header :: headerTexts input.settings.streamName input.unset false input.vars
  let writer := (texts ++ [bytes "\r\n"]).foldl (Writer.snprintf 64) (.start capacity)
  ⟨capacity, writer, usub 32 capacity writer.remaining⟩

/-- The general part is too long for the buffer. -/
def mustEnlarge (input : Input) : Bool :=
  perClientRefbufSize ≤ (utilHttpBuildHeader input.settings input.firstDate).length + 1024

/-- There is no larger buffer, also because its size is no `int`. -/
def dropped (input : Input) : Bool :=
  mustEnlarge input && (input.reallocFails ||
    2 ^ 31 ≤ (utilHttpBuildHeader input.settings input.firstDate).length + 1024)

/-- `format_prepare_headers`. The first call of `util_http_build_header` is a trial if the buffer has to
be enlarged after it. -/
def formatPrepareHeaders (input : Input) : Buffer :=
  let header := utilHttpBuildHeader input.settings input.firstDate
  if dropped input then
    ⟨perClientRefbufSize, ⟨⟨[⟨0, perClientRefbufSize, header⟩], 0⟩, perClientRefbufSize, false⟩,
      perClientRefbufSize⟩
  else if mustEnlarge input then
    createClientData input.plugin input.request
      (appendHeaders input (header.length + 1024)
        (utilHttpBuildHeader input.settings input.secondDate))
  else
    createClientData input.plugin input.request (appendHeaders input perClientRefbufSize header)

/-! ## When it stays within the buffer -/

/-- All writing is within the buffer, the count of the room never wraps around, and the length at the
end is not more than there is. -/
structure Buffer.InBounds (buffer : Buffer) : Prop where
  writer : buffer.writer.Good buffer.capacity
  len : buffer.len ≤ buffer.capacity

def textLength (texts : List Bytes) : ℕ := (texts.map List.length).sum

/-- The length of a header with this general part. -/
def headerLength (input : Input) (header : Bytes) : ℕ :=
  header.length + textLength (headerTexts input.settings.streamName input.unset false input.vars) + 2

section Append

variable {input : Input} {capacity : ℕ} {header : Bytes}

theorem sum_appended (input : Input) (header : Bytes) :
    ((header :: headerTexts input.settings.streamName input.unset false input.vars ++
      [bytes "\r\n"]).map List.length).sum = headerLength input header := by
  have hend : (bytes "\r\n").length = 2 := by decide
  simp only [List.cons_append, List.map_cons, List.map_append, List.map_nil, List.sum_cons,
    List.sum_append, List.sum_nil, hend, headerLength, textLength]
  omega

theorem good_appendHeaders_iff (hcapacity : capacity < 2 ^ 31) :
    (appendHeaders input capacity header).writer.Good capacity ↔
      headerLength input header ≤ capacity := by
  have hwidth : capacity < 2 ^ 64 := by omega
  unfold appendHeaders
  dsimp only
  rw [Writer.good_foldl_iff hwidth _ (Writer.room_start capacity), sum_appended]
  constructor
  · intro hgood
    exact hgood.2
  · intro hfit
    exact ⟨Writer.good_start capacity, hfit⟩

/-- The length of a header that fits. -/
theorem len_appendHeaders (hcapacity : capacity < 2 ^ 31)
    (hfit : headerLength input header ≤ capacity) :
    (appendHeaders input capacity header).len = headerLength input header := by
  have hwidth : capacity < 2 ^ 64 := by omega
  have hremaining : (appendHeaders input capacity header).writer.remaining =
      capacity - headerLength input header := by
    unfold appendHeaders
    dsimp only
    rw [Writer.remaining_foldl _ hwidth, sum_appended]
    · rfl
    · rw [sum_appended]
      exact hfit
  have hlen : (appendHeaders input capacity header).len =
      usub 32 capacity (appendHeaders input capacity header).writer.remaining := rfl
  rw [hlen, hremaining, usub_of_le (by omega) (by omega)]
  omega

/-- The count wraps around if the header does not fit. -/
theorem wrapped_appendHeaders (hcapacity : capacity < 2 ^ 31)
    (hlong : ¬ headerLength input header ≤ capacity) :
    (appendHeaders input capacity header).writer.wrapped = true := by
  have hwidth : capacity < 2 ^ 64 := by omega
  rw [← good_appendHeaders_iff hcapacity] at hlong
  by_contra hwrapped
  apply hlong
  apply Writer.good_foldl_of_wrapped hwidth (Writer.room_start capacity)
    (Writer.good_start capacity)
  exact Bool.eq_false_of_not_eq_true hwrapped

theorem inBounds_appendHeaders_iff (hcapacity : capacity < 2 ^ 31) :
    (appendHeaders input capacity header).InBounds ↔ headerLength input header ≤ capacity := by
  constructor
  · intro hbounds
    exact (good_appendHeaders_iff hcapacity).mp hbounds.writer
  · intro hfit
    refine ⟨(good_appendHeaders_iff hcapacity).mpr hfit, ?_⟩
    rw [len_appendHeaders hcapacity hfit]
    exact hfit

end Append

section Mp3

variable {interval : ℤ} {request : Request} {buffer : Buffer}

theorem sum_mp3Texts (interval : ℤ) (request : Request) :
    ((mp3Texts interval request ++ [bytes "\r\n"]).map List.length).sum =
      textLength (mp3Texts interval request) + 2 := by
  have hend : (bytes "\r\n").length = 2 := by decide
  simp [textLength, hend]

/-- Once the count has wrapped around, that is not made good again. -/
theorem not_inBounds_mp3_of_wrapped (interval : ℤ) (request : Request)
    (h : buffer.writer.wrapped = true ∨ perClientRefbufSize + 2 < buffer.len) :
    ¬ (formatMp3CreateClientData interval request buffer).InBounds := by
  intro hbounds
  have hwrapped := Writer.wrapped_of_foldl hbounds.writer.wrapped
  simp only [mp3Start, Bool.or_eq_false_iff, decide_eq_false_iff_not] at hwrapped
  rcases h with htrue | hlong
  · rw [htrue] at hwrapped
    exact absurd hwrapped.1 (by decide)
  · exact hwrapped.2 hlong

theorem inBounds_mp3_iff (hgood : buffer.writer.Good buffer.capacity)
    (hcapacity : perClientRefbufSize ≤ buffer.capacity) (hsmall : buffer.capacity < 2 ^ 31)
    (htwo : 2 ≤ buffer.len) (hlen : buffer.len ≤ perClientRefbufSize + 2) :
    (formatMp3CreateClientData interval request buffer).InBounds ↔
      buffer.len + textLength (mp3Texts interval request) ≤ perClientRefbufSize := by
  have hsize : perClientRefbufSize = 4096 := rfl
  have hwidth : buffer.capacity < 2 ^ 32 := by omega
  have hremaining : (mp3Start buffer).remaining = perClientRefbufSize + 2 - buffer.len :=
    usub_of_le hlen (by omega)
  have hwrapped : (mp3Start buffer).wrapped = false := by
    simp [mp3Start, hgood.wrapped, hlen]
  have hoffset : (mp3Start buffer).offset = buffer.len - 2 := rfl
  have hroom : (mp3Start buffer).Room buffer.capacity := by
    intro _
    omega
  have hstart : (mp3Start buffer).Good buffer.capacity := ⟨hgood.calls, by omega, hwrapped⟩
  have hwriter : (formatMp3CreateClientData interval request buffer).writer =
      (mp3Texts interval request ++ [bytes "\r\n"]).foldl (Writer.snprintf 32) (mp3Start buffer) :=
    rfl
  have hiff : (formatMp3CreateClientData interval request buffer).writer.Good buffer.capacity ↔
      buffer.len + textLength (mp3Texts interval request) ≤ perClientRefbufSize := by
    rw [hwriter, Writer.good_foldl_iff hwidth _ hroom, sum_mp3Texts, hremaining]
    constructor
    · rintro ⟨-, hfit⟩
      omega
    · intro hfit
      exact ⟨hstart, by omega⟩
  constructor
  · intro hbounds
    exact hiff.mp hbounds.writer
  · intro hfit
    refine ⟨hiff.mpr hfit, ?_⟩
    have hleft : (formatMp3CreateClientData interval request buffer).writer.remaining =
        perClientRefbufSize - (buffer.len + textLength (mp3Texts interval request)) := by
      rw [hwriter, Writer.remaining_foldl _ (by omega), sum_mp3Texts]
      · omega
      · rw [sum_mp3Texts]
        omega
    calc (formatMp3CreateClientData interval request buffer).len
      _ = usub 32 perClientRefbufSize
            (formatMp3CreateClientData interval request buffer).writer.remaining := rfl
      _ ≤ perClientRefbufSize := by
        rw [hleft, usub_of_le (by omega) (by omega)]
        omega
      _ ≤ buffer.capacity := hcapacity

end Mp3

/-- The room for a header with the plugin's own texts. -/
def fits (input : Input) (capacity : ℕ) (header : Bytes) : Prop :=
  match input.plugin with
  | .mp3 interval =>
    headerLength input header + textLength (mp3Texts interval input.request) ≤ perClientRefbufSize
  | _ => headerLength input header ≤ capacity

theorem inBounds_createClientData_iff {input : Input} {capacity : ℕ} {header : Bytes}
    (hcapacity : perClientRefbufSize ≤ capacity) (hsmall : capacity < 2 ^ 31) :
    (createClientData input.plugin input.request (appendHeaders input capacity header)).InBounds ↔
      fits input capacity header := by
  unfold createClientData fits
  cases input.plugin with
  | ogg => exact inBounds_appendHeaders_iff hsmall
  | ebml => exact inBounds_appendHeaders_iff hsmall
  | mp3 interval =>
    dsimp only
    by_cases hfit : headerLength input header ≤ capacity
    · have hlen := len_appendHeaders hsmall hfit
      have hgood := (good_appendHeaders_iff hsmall).mpr hfit
      by_cases hlong : perClientRefbufSize + 2 < headerLength input header
      · have hnot := not_inBounds_mp3_of_wrapped interval input.request (Or.inr (hlen ▸ hlong))
        exact iff_of_false hnot (by omega)
      · have htwo : 2 ≤ headerLength input header := Nat.le_add_left 2 _
        rw [← hlen] at htwo hlong ⊢
        exact inBounds_mp3_iff hgood hcapacity hsmall htwo (Nat.not_lt.mp hlong)
    · have hnot := not_inBounds_mp3_of_wrapped interval input.request
        (Or.inl (wrapped_appendHeaders hsmall hfit))
      exact iff_of_false hnot (by omega)

/-- The header is put together within the buffer if and only if the listener is dropped for want of a
buffer, or the whole header fits: into the buffer, and for MP3 into 4096 bytes. -/
theorem listener_header_in_bounds_iff (input : Input) :
    (formatPrepareHeaders input).InBounds ↔
      let header := utilHttpBuildHeader input.settings input.firstDate
      dropped input = true ∨
        if mustEnlarge input then
          fits input (header.length + 1024) (utilHttpBuildHeader input.settings input.secondDate)
        else fits input perClientRefbufSize header := by
  have hsize : perClientRefbufSize = 4096 := rfl
  unfold formatPrepareHeaders
  dsimp only
  by_cases hdropped : dropped input = true
  · rw [if_pos hdropped]
    have hstored := Call.stored_le
      ⟨0, perClientRefbufSize, utilHttpBuildHeader input.settings input.firstDate⟩
    refine iff_of_true ⟨⟨?_, Nat.zero_le _, rfl⟩, Nat.le_refl _⟩ (Or.inl hdropped)
    intro call hcall
    rw [List.mem_singleton.mp hcall]
    exact ⟨Nat.zero_le _, by simpa using hstored⟩
  · rw [if_neg hdropped]
    by_cases henlarge : mustEnlarge input = true
    · rw [if_pos henlarge, if_pos henlarge]
      have hlarge : perClientRefbufSize ≤
          (utilHttpBuildHeader input.settings input.firstDate).length + 1024 := by
        simpa [mustEnlarge] using henlarge
      have hsmall : (utilHttpBuildHeader input.settings input.firstDate).length + 1024 < 2 ^ 31 := by
        simp only [dropped, henlarge, Bool.true_and, Bool.or_eq_true, decide_eq_true_eq,
          not_or, Nat.not_le] at hdropped
        exact hdropped.2
      rw [or_iff_right hdropped]
      exact inBounds_createClientData_iff hlarge hsmall
    · rw [if_neg henlarge, if_neg henlarge]
      rw [or_iff_right hdropped]
      exact inBounds_createClientData_iff (Nat.le_refl _) (by omega)

/-- A source of MP3 data with a long description, and nothing unusual in the configuration. -/
def exampleInput : Input where
  settings := {
    serverId := bytes "Icecast 2.4.99.2"
    httpHeaders := [⟨some (bytes "Access-Control-Allow-Origin"), some (bytes "*"), 0⟩]
    mountHttpHeaders := []
    streamName := none
    contenttype := some (bytes "audio/mpeg")
    tls := false
    reuse := .close
    adminCommand := false }
  firstDate := bytes "Date: Thu, 01 Jan 1970 00:00:00 GMT\r\n"
  secondDate := bytes "Date: Thu, 01 Jan 1970 00:00:00 GMT\r\n"
  reallocFails := false
  vars := [⟨bytes "ice-description", List.replicate 3900 97⟩, ⟨bytes "ice-name", bytes "name"⟩]
  unset := 0
  request := ⟨false, none, none⟩
  plugin := .mp3 16000

/-- The name is written behind the end of the buffer. -/
theorem listener_header_overflows :
    ¬ (formatPrepareHeaders exampleInput).InBounds ∧
    ∃ call ∈ (formatPrepareHeaders exampleInput).writer.calls,
      (formatPrepareHeaders exampleInput).capacity < call.offset ∧ 0 < call.stored := by
  have hwrite : ∃ call ∈ (formatPrepareHeaders exampleInput).writer.calls,
      (formatPrepareHeaders exampleInput).capacity < call.offset ∧ 0 < call.stored := by
    decide +kernel
  refine ⟨?_, hwrite⟩
  intro hbounds
  obtain ⟨call, hcall, hoffset, -⟩ := hwrite
  have hle := (hbounds.writer.calls call hcall).1
  omega

end Icecast.Format.ListenerHeaders
