import Icecast.Format.ListenerHeaders
import Icecast.Lib.TextLines
import Mathlib.Data.Nat.Digits.Defs

/-!
# Response headers

`util_http_build_header` (`util.c`) puts a response header together from a status with its message, the
content type, the headers of the configuration and possibly a block of data. The status line and the one
with the content type are printed into buffers of 80 bytes first. What does not fit there is cut off, the
line break before everything else.
-/

namespace Icecast.Util.ResponseHeader

open Format.Comments (Bytes bytes bytes_ofList)
open Format.ListenerHeaders (Reuse Settings decimal)
open Lib.MachineInt Lib.TextLines

/-! ## The function -/

/-- `struct tm` of a day in the calendar. -/
structure Tm where
  wday : Fin 7
  mday : Fin 32
  mon : Fin 12
  year : ℤ
  hour : Fin 24
  min : Fin 60
  sec : Fin 61
  year_lt : year.natAbs < 10 ^ 10

/-- `ice_config_http_header_t`; a status of 0 stands for every status. -/
structure HttpHeader where
  name : Option Bytes
  value : Option Bytes
  status : ℤ

structure Client where
  tls : Bool
  reuse : Reuse
  adminCommandError : Bool

/-- The arguments, the settings and the clock; the headers of the mount are those of the source. -/
structure Request where
  cache : Bool
  status : ℤ
  statusmsg : Option Bytes
  contenttype : Option Bytes
  charset : Option Bytes
  datablock : Option Bytes
  serverId : Bytes
  httpHeaders : List HttpHeader
  mountHttpHeaders : List HttpHeader
  client : Option Client
  gmtime : Option Tm

/-- `%d` -/
def printInt (value : ℤ) : Bytes := bytes (toString value)

def twoDigits (value : ℕ) : Bytes := [UInt8.ofNat (48 + value / 10), UInt8.ofNat (48 + value % 10)]

def dayNames : Vector String 7 := #v["Sun", "Mon", "Tue", "Wed", "Thu", "Fri", "Sat"]

def monthNames : Vector String 12 :=
  #v["Jan", "Feb", "Mar", "Apr", "May", "Jun", "Jul", "Aug", "Sep", "Oct", "Nov", "Dec"]

/-- `%a, %d %b %Y %X` -/
def strftime (tm : Tm) : Bytes :=
  bytes (dayNames.get tm.wday) ++ bytes ", " ++ twoDigits tm.mday ++ bytes " " ++
    bytes (monthNames.get tm.mon) ++ bytes " " ++ printInt tm.year ++ bytes " " ++ twoDigits tm.hour ++
    bytes ":" ++ twoDigits tm.min ++ bytes ":" ++ twoDigits tm.sec

/-- The message for a status, and the version of the protocol that goes with it. -/
def defaultMessage : ℤ → Bytes × Bytes
  | 100 => (bytes "1.1", bytes "Continue")
  | 101 => (bytes "1.1", bytes "Switching Protocols")
  | 200 => (bytes "1.0", bytes "OK")
  | 206 => (bytes "1.1", bytes "Partial Content")
  | 400 => (bytes "1.0", bytes "Bad Request")
  | 401 => (bytes "1.0", bytes "Authentication Required")
  | 403 => (bytes "1.0", bytes "Forbidden")
  | 404 => (bytes "1.0", bytes "File Not Found")
  | 405 => (bytes "1.0", bytes "Method Not Allowed")
  | 409 => (bytes "1.0", bytes "Conflict")
  | 415 => (bytes "1.0", bytes "Unsupported Media Type")
  | 416 => (bytes "1.0", bytes "Request Range Not Satisfiable")
  | 426 => (bytes "1.1", bytes "Upgrade Required")
  | 429 => (bytes "1.0", bytes "Too Many Requests")
  | 501 => (bytes "1.0", bytes "Unimplemented")
  | 503 => (bytes "1.0", bytes "Service Unavailable")
  | _ => (bytes "1.0", bytes "(unknown status code)")

def statusLine (request : Request) : Bytes :=
  let (version, message) := match request.statusmsg with
    | none => defaultMessage request.status
    | some message => (bytes "1.0", message)
  bytes "HTTP/" ++ version ++ bytes " " ++ printInt request.status ++ bytes " " ++ message

def contentTypeLine (contenttype : Bytes) : Option Bytes → Bytes
  | some charset => bytes "Content-Type: " ++ contenttype ++ bytes "; charset=" ++ charset
  | none => bytes "Content-Type: " ++ contenttype

def crlf : Bytes := bytes "\r\n"

/-- What is left of a text in a buffer of 80 bytes. -/
def inBuffer (text : Bytes) : Bytes := text.take 79

/-- `_build_headers_loop` -/
def buildHeadersLoop (status : ℤ) (headers : List HttpHeader) : Bytes :=
  headers.flatMap fun header ↦
    if header.status ≠ 0 ∧ header.status ≠ status then []
    else
      match header.name, header.value with
      | some name, some value => name ++ bytes ": " ++ value ++ crlf
      | _, _ => []

def connectionHeader : Option Client → Bytes
  | some ⟨_, .keepalive, _⟩ => bytes "Keep-Alive"
  | some ⟨_, .upgradetls, _⟩ => bytes "Upgrade"
  | _ => bytes "Close"

def upgradeHeader : Option Client → Bytes
  | some ⟨_, .upgradetls, _⟩ => []
  | some ⟨true, _, _⟩ => bytes "Upgrade: TLS/1.0\r\n"
  | _ => []

/-- The text up to the data block. -/
def headText (request : Request) : Bytes :=
  let statusBuffer := if request.status = -1 then [] else inBuffer (statusLine request ++ crlf)
  let contenttypeBuffer := match request.contenttype with
    | none => []
    | some contenttype => inBuffer (contentTypeLine contenttype request.charset ++ crlf)
  let currenttimeBuffer := match request.gmtime with
    | none => []
    | some tm => inBuffer (bytes "Date: " ++ strftime tm ++ bytes " GMT\r\n")
  statusBuffer ++ bytes "Server: " ++ request.serverId ++ bytes "\r\nConnection: " ++
    connectionHeader request.client ++
    bytes "\r\nAccept-Encoding: identity\r\nAllow: " ++
    (if request.client.any Client.adminCommandError then bytes "GET, SOURCE" else bytes "GET") ++
    crlf ++ upgradeHeader request.client ++ currenttimeBuffer ++ contenttypeBuffer ++
    (if request.status = 401 then bytes "WWW-Authenticate: Basic realm=\"Icecast2 Server\"\r\n" else []) ++
    (if request.cache then []
      else bytes
        "Cache-Control: no-cache\r\nExpires: Mon, 26 Jul 1997 05:00:00 GMT\r\nPragma: no-cache\r\n") ++
    (buildHeadersLoop request.status request.httpHeaders ++
      buildHeadersLoop request.status request.mountHttpHeaders) ++
    (if request.datablock.isSome then crlf else [])

/-- The return value, and what is written from the offset on, without the zero byte at the end. -/
structure Result where
  ret : ℤ
  written : Bytes
  deriving DecidableEq

/-- `util_http_build_header` with what the buffer of `len` bytes holds; without an offset (-1) the text is
added to that. -/
def utilHttpBuildHeader (out : Option Bytes) (len : ℕ) (offset : Option ℕ) (request : Request) :
    Result :=
  match out with
  | none => ⟨-1, []⟩
  | some out =>
    let offset := offset.getD (out.takeWhile (· ≠ 0)).length
    let size := usub 64 len offset
    let text := headText request ++ request.datablock.getD []
    -- the length has to be an `int`
    if 2 ^ 31 ≤ text.length then ⟨-1, []⟩
    else ⟨text.length, text.take (size - 1)⟩

/-- What `format_prepare_headers` asks for. -/
def listenerRequest (settings : Settings) (gmtime : Option Tm) : Request :=
  let headers := List.map fun header : Format.ListenerHeaders.HttpHeader ↦
    (⟨header.name, header.value, header.status⟩ : HttpHeader)
  { cache := false
    status := 200
    statusmsg := none
    contenttype := settings.contenttype
    charset := none
    datablock := none
    serverId := settings.serverId
    httpHeaders := headers settings.httpHeaders
    mountHttpHeaders := headers settings.mountHttpHeaders
    client := some ⟨settings.tls, settings.reuse, !settings.adminCommand⟩
    gmtime := gmtime }

theorem buildHeadersLoop_map (status : ℕ) (headers : List Format.ListenerHeaders.HttpHeader) :
    buildHeadersLoop status (headers.map fun header ↦ ⟨header.name, header.value, header.status⟩) =
      Format.ListenerHeaders.buildHeadersLoop status headers := by
  rw [buildHeadersLoop, Format.ListenerHeaders.buildHeadersLoop, List.flatMap_map]
  apply congrArg (List.flatMap · headers)
  funext header
  have hcast : ((header.status : ℤ) ≠ 0 ∧ (header.status : ℤ) ≠ status) ↔
      header.status ≠ 0 ∧ header.status ≠ status := by omega
  dsimp only
  by_cases hskip : header.status ≠ 0 ∧ header.status ≠ status
  · rw [if_pos (hcast.mpr hskip), if_pos hskip]
  · rw [if_neg (mt hcast.mp hskip), if_neg hskip]
    cases header.name <;> cases header.value <;> rfl

theorem connectionHeader_listenerRequest (settings : Settings) (gmtime : Option Tm) :
    connectionHeader (listenerRequest settings gmtime).client =
      match settings.reuse with
      | .close => bytes "Close"
      | .keepalive => bytes "Keep-Alive"
      | .upgradetls => bytes "Upgrade" := by
  unfold listenerRequest
  cases settings.reuse <;> rfl

theorem upgradeHeader_listenerRequest (settings : Settings) (gmtime : Option Tm) :
    upgradeHeader (listenerRequest settings gmtime).client =
      match settings.reuse with
      | .upgradetls => []
      | _ => if settings.tls then bytes "Upgrade: TLS/1.0\r\n" else [] := by
  unfold listenerRequest
  cases settings.reuse <;> cases settings.tls <;> rfl

theorem contenttype_listenerRequest (settings : Settings) (gmtime : Option Tm) :
    (match (listenerRequest settings gmtime).contenttype with
      | none => []
      | some contenttype =>
        inBuffer (contentTypeLine contenttype (listenerRequest settings gmtime).charset ++ crlf)) =
      match settings.contenttype with
      | none => []
      | some contenttype => (bytes "Content-Type: " ++ contenttype ++ bytes "\r\n").take 79 := by
  unfold listenerRequest
  cases settings.contenttype <;> rfl

/-- The general part of a listener's header. -/
theorem headText_listenerRequest (settings : Settings) (gmtime : Option Tm) :
    headText (listenerRequest settings gmtime) = Format.ListenerHeaders.utilHttpBuildHeader settings
      (match gmtime with
        | none => []
        | some tm => inBuffer (bytes "Date: " ++ strftime tm ++ bytes " GMT\r\n")) := by
  have hstatus : inBuffer (statusLine (listenerRequest settings gmtime) ++ crlf) ++ bytes "Server: " =
      bytes "HTTP/1.0 200 OK\r\nServer: " := by
    have hline : inBuffer (bytes "HTTP/" ++ bytes "1.0" ++ bytes " " ++ bytes "200" ++ bytes " " ++
        bytes "OK" ++ bytes "\r\n") ++ bytes "Server: " = bytes "HTTP/1.0 200 OK\r\nServer: " := by
      rw [bytes_ofList, bytes_ofList, bytes_ofList, bytes_ofList, bytes_ofList, bytes_ofList,
        bytes_ofList, bytes_ofList]
      rfl
    exact hline
  have hallow : (if (listenerRequest settings gmtime).client.any Client.adminCommandError
        then bytes "GET, SOURCE" else bytes "GET") =
      if settings.adminCommand then bytes "GET" else bytes "GET, SOURCE" := by
    unfold listenerRequest
    cases settings.adminCommand <;> rfl
  have hstatuses : ¬ (200 : ℤ) = -1 ∧ ¬ (200 : ℤ) = 401 := by decide
  have hcrlf : bytes "\r\n" = crlf := rfl
  unfold headText Format.ListenerHeaders.utilHttpBuildHeader
  simp only [connectionHeader_listenerRequest, upgradeHeader_listenerRequest, hallow,
    contenttype_listenerRequest, ← hstatus]
  have hheaders (headers : List Format.ListenerHeaders.HttpHeader) : buildHeadersLoop 200
      (headers.map fun header ↦ ⟨header.name, header.value, header.status⟩) =
      Format.ListenerHeaders.buildHeadersLoop 200 headers := buildHeadersLoop_map 200 headers
  rcases settings with ⟨serverId, httpHeaders, mountHttpHeaders, name, contenttype, tls, reuse, adminCommand⟩
  cases reuse <;> cases contenttype <;> cases gmtime <;>
    simp only [listenerRequest, hstatuses, hheaders, hcrlf, List.append_assoc, if_false,
      Option.isSome_none, Bool.false_eq_true, List.append_nil]

/-! ## The lines -/

def extraLine (status : ℤ) (header : HttpHeader) : Option Bytes :=
  if header.status ≠ 0 ∧ header.status ≠ status then none
  else
    match header.name, header.value with
    | some name, some value => some (name ++ bytes ": " ++ value)
    | _, _ => none

/-- The lines from the name of the server to the date. -/
def generalLines (request : Request) : List Bytes :=
  let upgrade := match request.client with
    | some ⟨_, .upgradetls, _⟩ => []
    | some ⟨true, _, _⟩ => [bytes "Upgrade: TLS/1.0"]
    | _ => []
  [bytes "Server: " ++ request.serverId, bytes "Connection: " ++ connectionHeader request.client,
      bytes "Accept-Encoding: identity",
      bytes "Allow: " ++
        if request.client.any Client.adminCommandError then bytes "GET, SOURCE" else bytes "GET"] ++
    upgrade ++ (request.gmtime.map fun tm ↦ bytes "Date: " ++ strftime tm ++ bytes " GMT").toList

/-- The lines behind the content type; an empty one comes before a data block. -/
def closingLines (request : Request) : List Bytes :=
  (if request.status = 401 then [bytes "WWW-Authenticate: Basic realm=\"Icecast2 Server\""] else []) ++
    (if request.cache then []
      else [bytes "Cache-Control: no-cache", bytes "Expires: Mon, 26 Jul 1997 05:00:00 GMT",
        bytes "Pragma: no-cache"]) ++
    (request.httpHeaders ++ request.mountHttpHeaders).filterMap (extraLine request.status) ++
    if request.datablock.isSome then [[]] else []

def headerLines (request : Request) : List Bytes :=
  (if request.status = -1 then [] else [statusLine request]) ++ generalLines request ++
    (request.contenttype.map (contentTypeLine · request.charset)).toList ++ closingLines request

/-- Up to the data block a reader finds the lines, each of them complete. -/
def Complete (request : Request) (written : Bytes) : Prop :=
  ∃ head, written = head ++ request.datablock.getD [] ∧
    readLines 13 10 head = some (headerLines request)

/-- No part that is given has a line break. -/
structure NoLineBreaks (request : Request) : Prop where
  statusmsg : ∀ text ∈ request.statusmsg, Plain 13 10 text
  contenttype : ∀ text ∈ request.contenttype, Plain 13 10 text
  charset : ∀ text ∈ request.charset, Plain 13 10 text
  headers : ∀ header ∈ request.httpHeaders ++ request.mountHttpHeaders,
    (∀ text ∈ header.name, Plain 13 10 text) ∧ ∀ text ∈ header.value, Plain 13 10 text

/-- With their line breaks, the status line and the content type are at most 79 bytes. -/
structure Short (request : Request) : Prop where
  status : request.status ≠ -1 → (statusLine request).length ≤ 77
  contenttype : ∀ contenttype ∈ request.contenttype,
    (contentTypeLine contenttype request.charset).length ≤ 77
  serverId : Plain 13 10 request.serverId

/-! ## Printed parts -/

theorem plain_of_forall {text : Bytes} (h : ∀ byte ∈ text, 32 ≤ byte) : Plain 13 10 text :=
  ⟨fun hmem ↦ absurd (h 13 hmem) (by decide), fun hmem ↦ absurd (h 10 hmem) (by decide)⟩

theorem plain_ofList {text : List Char}
    (h : Plain 13 10 (text.map fun char ↦ UInt8.ofNat char.toNat)) :
    Plain 13 10 (bytes (String.ofList text)) := by
  rwa [bytes_ofList]

theorem byte_of_isDigit {char : Char} (h : char.isDigit = true) : 32 ≤ UInt8.ofNat char.toNat := by
  obtain ⟨hlower, hupper⟩ := Lib.Decimal.toNat_of_isDigit h
  rw [UInt8.le_iff_toNat_le, UInt8.toNat_ofNat']
  simp
  omega

theorem plain_decimal (value : ℕ) : ∀ byte ∈ bytes value.repr, 32 ≤ byte := by
  intro byte hmem
  obtain ⟨char, hchar, rfl⟩ := List.mem_map.mp hmem
  rw [Nat.toList_repr] at hchar
  exact byte_of_isDigit (Nat.isDigit_of_mem_toDigits (by decide) (by decide) hchar)

theorem bytes_append (first second : String) : bytes (first ++ second) = bytes first ++ bytes second := by
  simp [bytes]

theorem plain_printInt (value : ℤ) : Plain 13 10 (printInt value) := by
  refine plain_of_forall ?_
  rw [printInt, Int.toString_eq_repr, Int.repr_eq_if]
  split
  · exact plain_decimal _
  · rw [bytes_append]
    intro byte hmem
    rcases List.mem_append.mp hmem with hmem | hmem
    · have hminus : bytes "-" = [45] := by
        rw [bytes_ofList]
        rfl
      rw [hminus, List.mem_singleton] at hmem
      rw [hmem]
      exact UInt8.le_iff_toNat_le.mpr (Nat.le_add_right 32 13)
    · exact plain_decimal _ byte hmem

theorem length_printInt {value : ℤ} (h : value.natAbs < 10 ^ 10) : (printInt value).length ≤ 11 := by
  rw [printInt, Int.toString_eq_repr, Int.repr_eq_if]
  split
  · have hlength := Nat.repr_length value.toNat 10 (by decide) (by omega)
    rw [bytes, List.length_map, String.length_toList]
    omega
  · have hlength := Nat.repr_length (-value).toNat 10 (by decide) (by omega)
    rw [bytes_append, List.length_append, bytes, bytes, List.length_map, List.length_map,
      String.length_toList, String.length_toList]
    have hminus : "-".length = 1 := by decide
    omega

theorem twoDigits_spec {value : ℕ} (h : value < 62) :
    Plain 13 10 (twoDigits value) ∧ (twoDigits value).length = 2 := by
  have hdigit {n : ℕ} (hn : n < 10) : 32 ≤ UInt8.ofNat (48 + n) := by
    rw [UInt8.le_iff_toNat_le, UInt8.toNat_ofNat']
    simp
    omega
  refine ⟨plain_of_forall ?_, rfl⟩
  rw [twoDigits, List.forall_mem_cons, List.forall_mem_singleton]
  exact ⟨hdigit (by omega), hdigit (by omega)⟩

theorem strftime_spec (tm : Tm) : Plain 13 10 (strftime tm) ∧ (strftime tm).length ≤ 33 := by
  have hdays : ∀ wday, Plain 13 10 (bytes (dayNames.get wday)) ∧
      (bytes (dayNames.get wday)).length = 3 := by decide +kernel
  have hmonths : ∀ mon, Plain 13 10 (bytes (monthNames.get mon)) ∧
      (bytes (monthNames.get mon)).length = 3 := by decide +kernel
  have hday := hdays tm.wday
  have hmonth := hmonths tm.mon
  have hmday := twoDigits_spec (Nat.lt_trans tm.mday.isLt (by decide))
  have hhour := twoDigits_spec (Nat.lt_trans tm.hour.isLt (by decide))
  have hmin := twoDigits_spec (Nat.lt_trans tm.min.isLt (by decide))
  have hsec := twoDigits_spec (Nat.lt_trans tm.sec.isLt (by decide))
  have hyear := length_printInt tm.year_lt
  have hpunctuation : Plain 13 10 (bytes ", ") ∧ Plain 13 10 (bytes " ") ∧ Plain 13 10 (bytes ":") ∧
      (bytes ", ").length = 2 ∧ (bytes " ").length = 1 ∧ (bytes ":").length = 1 := by decide
  constructor
  · unfold strftime
    simp only [plain_append_iff, hday, hmonth, hmday, hhour, hmin, hsec, plain_printInt, hpunctuation,
      and_self]
  · unfold strftime
    simp only [List.length_append, hday, hmonth, hmday, hhour, hmin, hsec, hpunctuation]
    omega

/-! ## The text and its lines -/

theorem joinLines_append (first second : List Bytes) : joinLines (13 : UInt8) 10 (first ++ second) =
    joinLines 13 10 first ++ joinLines 13 10 second := List.flatMap_append

theorem joinLines_singleton (line : Bytes) : joinLines (13 : UInt8) 10 [line] = line ++ crlf := by
  simp [joinLines]
  rfl

theorem joinLines_toList (text : Option Bytes) :
    joinLines (13 : UInt8) 10 text.toList = (text.map (· ++ crlf)).getD [] := by
  cases text with
  | none => rfl
  | some line => exact joinLines_singleton line

theorem joinLines_headers (status : ℤ) (headers : List HttpHeader) :
    joinLines (13 : UInt8) 10 (headers.filterMap (extraLine status)) =
      buildHeadersLoop status headers := by
  induction headers with
  | nil => rfl
  | cons header headers ih =>
    have hheader : buildHeadersLoop status [header] =
        joinLines 13 10 (extraLine status header).toList := by
      obtain ⟨name, value, only⟩ := header
      rw [joinLines_toList]
      by_cases hskip : only ≠ 0 ∧ only ≠ status
      · simp [buildHeadersLoop, extraLine, hskip]
      · cases name <;> cases value <;> simp [buildHeadersLoop, extraLine, hskip]
    calc joinLines 13 10 ((header :: headers).filterMap (extraLine status))
        = joinLines 13 10 ((extraLine status header).toList ++ headers.filterMap (extraLine status)) := by
          rw [List.filterMap_cons]
          cases extraLine status header <;> rfl
      _ = buildHeadersLoop status [header] ++ buildHeadersLoop status headers := by
          rw [joinLines_append, ih, hheader]
      _ = buildHeadersLoop status ([header] ++ headers) := List.flatMap_append.symm

/-- With their line breaks, the two lines that are printed into a buffer. -/
def bufferedStatus (request : Request) : Bytes :=
  if request.status = -1 then [] else statusLine request ++ crlf

def bufferedContentType (request : Request) : Bytes :=
  (request.contenttype.map (contentTypeLine · request.charset ++ crlf)).getD []

theorem inBuffer_date (tm : Tm) : inBuffer (bytes "Date: " ++ strftime tm ++ bytes " GMT\r\n") =
    bytes "Date: " ++ strftime tm ++ bytes " GMT" ++ crlf := by
  have hlength := (strftime_spec tm).2
  have hparts : (bytes "Date: ").length = 6 ∧ (bytes " GMT\r\n").length = 6 ∧
      bytes " GMT\r\n" = bytes " GMT" ++ crlf := by decide
  rw [inBuffer, List.take_of_length_le, hparts.2.2, List.append_assoc _ (bytes " GMT")]
  simp only [List.length_append]
  omega

theorem joinLines_nil : joinLines (13 : UInt8) 10 [] = [] := rfl

theorem joinLines_ite (p : Prop) [Decidable p] (first second : List Bytes) :
    joinLines (13 : UInt8) 10 (if p then first else second) =
      if p then joinLines 13 10 first else joinLines 13 10 second := apply_ite _ p first second

theorem joinLines_cons (line : Bytes) (lines : List Bytes) :
    joinLines (13 : UInt8) 10 (line :: lines) = line ++ crlf ++ joinLines 13 10 lines := by
  rw [← joinLines_singleton, ← joinLines_append]
  rfl

theorem joinLines_generalLines (request : Request) : joinLines 13 10 (generalLines request) =
    bytes "Server: " ++ request.serverId ++ bytes "\r\nConnection: " ++
      connectionHeader request.client ++ bytes "\r\nAccept-Encoding: identity\r\nAllow: " ++
      (if request.client.any Client.adminCommandError then bytes "GET, SOURCE" else bytes "GET") ++
      crlf ++ upgradeHeader request.client ++
      (request.gmtime.map fun tm ↦ bytes "Date: " ++ strftime tm ++ bytes " GMT" ++ crlf).getD [] := by
  have hliterals : bytes "\r\nConnection: " = crlf ++ bytes "Connection: " ∧
      bytes "\r\nAccept-Encoding: identity\r\nAllow: " =
        crlf ++ (bytes "Accept-Encoding: identity" ++ (crlf ++ bytes "Allow: ")) := by
    rw [crlf, bytes_ofList, bytes_ofList, bytes_ofList, bytes_ofList, bytes_ofList, bytes_ofList]
    exact ⟨rfl, rfl⟩
  have hupgrade : joinLines 13 10 (match request.client with
      | some ⟨_, .upgradetls, _⟩ => []
      | some ⟨true, _, _⟩ => [bytes "Upgrade: TLS/1.0"]
      | _ => []) = upgradeHeader request.client := by
    rcases request.client with _ | ⟨_ | _, _ | _ | _, _⟩ <;> rfl
  rw [generalLines, joinLines_append, joinLines_append, hupgrade, joinLines_toList, Option.map_map]
  simp only [joinLines_cons, joinLines_nil, hliterals, List.append_assoc, List.append_nil,
    Function.comp_def]

theorem joinLines_closingLines (request : Request) : joinLines 13 10 (closingLines request) =
    (if request.status = 401 then bytes "WWW-Authenticate: Basic realm=\"Icecast2 Server\"\r\n" else []) ++
      (if request.cache then []
        else bytes
          "Cache-Control: no-cache\r\nExpires: Mon, 26 Jul 1997 05:00:00 GMT\r\nPragma: no-cache\r\n") ++
      (buildHeadersLoop request.status request.httpHeaders ++
        buildHeadersLoop request.status request.mountHttpHeaders) ++
      (if request.datablock.isSome then crlf else []) := by
  have hliterals : joinLines 13 10 [bytes "WWW-Authenticate: Basic realm=\"Icecast2 Server\""] =
        bytes "WWW-Authenticate: Basic realm=\"Icecast2 Server\"\r\n" ∧
      joinLines 13 10 [bytes "Cache-Control: no-cache",
        bytes "Expires: Mon, 26 Jul 1997 05:00:00 GMT", bytes "Pragma: no-cache"] = bytes
          "Cache-Control: no-cache\r\nExpires: Mon, 26 Jul 1997 05:00:00 GMT\r\nPragma: no-cache\r\n" ∧
      joinLines (13 : UInt8) 10 [[]] = crlf := by
    rw [crlf, bytes_ofList, bytes_ofList, bytes_ofList, bytes_ofList, bytes_ofList, bytes_ofList,
      bytes_ofList]
    exact ⟨rfl, rfl, rfl⟩
  simp only [closingLines, joinLines_append, List.filterMap_append, joinLines_headers, joinLines_ite,
    joinLines_nil, hliterals]

/-- The text differs from the lines only in what does not fit in the buffers. -/
theorem headText_eq (request : Request) : headText request =
    inBuffer (bufferedStatus request) ++ joinLines 13 10 (generalLines request) ++
      inBuffer (bufferedContentType request) ++ joinLines 13 10 (closingLines request) := by
  have hstatus : (if request.status = -1 then [] else inBuffer (statusLine request ++ crlf)) =
      inBuffer (bufferedStatus request) := by
    unfold bufferedStatus
    split <;> rfl
  have htype : (match request.contenttype with
      | none => []
      | some contenttype => inBuffer (contentTypeLine contenttype request.charset ++ crlf)) =
      inBuffer (bufferedContentType request) := by
    unfold bufferedContentType
    cases request.contenttype <;> rfl
  have hdate : (match request.gmtime with
      | none => []
      | some tm => inBuffer (bytes "Date: " ++ strftime tm ++ bytes " GMT\r\n")) =
      (request.gmtime.map fun tm ↦ bytes "Date: " ++ strftime tm ++ bytes " GMT" ++ crlf).getD [] := by
    cases request.gmtime with
    | none => rfl
    | some tm => exact inBuffer_date tm
  unfold headText
  rw [hstatus, htype, hdate, joinLines_generalLines, joinLines_closingLines]
  simp only [List.append_assoc]

theorem joinLines_headerLines (request : Request) : joinLines 13 10 (headerLines request) =
    bufferedStatus request ++ joinLines 13 10 (generalLines request) ++
      bufferedContentType request ++ joinLines 13 10 (closingLines request) := by
  have hstatus : joinLines 13 10 (if request.status = -1 then [] else [statusLine request]) =
      bufferedStatus request := by
    unfold bufferedStatus
    split
    · rfl
    · exact joinLines_singleton _
  rw [headerLines, joinLines_append, joinLines_append, joinLines_append, hstatus, joinLines_toList,
    bufferedContentType, Option.map_map]
  rfl

/-! ## Line breaks -/

theorem plain_defaultMessage (status : ℤ) :
    Plain 13 10 (defaultMessage status).1 ∧ Plain 13 10 (defaultMessage status).2 := by
  unfold defaultMessage
  split <;> exact ⟨plain_ofList (by decide), plain_ofList (by decide)⟩

variable {request : Request}

theorem plain_statusLine (hparts : NoLineBreaks request) : Plain 13 10 (statusLine request) := by
  have hliterals : Plain 13 10 (bytes "HTTP/") ∧ Plain 13 10 (bytes " ") ∧ Plain 13 10 (bytes "1.0") :=
    ⟨plain_ofList (by decide), plain_ofList (by decide), plain_ofList (by decide)⟩
  have hmessage := plain_defaultMessage request.status
  unfold statusLine
  cases hstatusmsg : request.statusmsg with
  | none => simp [plain_append_iff, hliterals, hmessage, plain_printInt]
  | some message =>
    simp [plain_append_iff, hliterals, hparts.statusmsg message hstatusmsg, plain_printInt]

theorem plain_contentTypeLine (hparts : NoLineBreaks request) {contenttype : Bytes}
    (htype : request.contenttype = some contenttype) :
    Plain 13 10 (contentTypeLine contenttype request.charset) := by
  have hliterals : Plain 13 10 (bytes "Content-Type: ") ∧ Plain 13 10 (bytes "; charset=") :=
    ⟨plain_ofList (by decide), plain_ofList (by decide)⟩
  have hcontenttype := hparts.contenttype contenttype htype
  cases hcharset : request.charset with
  | none => simp [contentTypeLine, plain_append_iff, hliterals, hcontenttype]
  | some charset =>
    simp [contentTypeLine, plain_append_iff, hliterals, hcontenttype,
      hparts.charset charset hcharset]

theorem plain_generalLines (hserver : Plain 13 10 request.serverId) :
    ∀ line ∈ generalLines request, Plain 13 10 line := by
  have hliterals : Plain 13 10 (bytes "Server: ") ∧ Plain 13 10 (bytes "Connection: ") ∧
      Plain 13 10 (bytes "Accept-Encoding: identity") ∧ Plain 13 10 (bytes "Allow: ") ∧
      Plain 13 10 (bytes "GET, SOURCE") ∧ Plain 13 10 (bytes "GET") ∧
      Plain 13 10 (bytes "Date: ") ∧ Plain 13 10 (bytes " GMT") :=
    ⟨plain_ofList (by decide), plain_ofList (by decide), plain_ofList (by decide),
      plain_ofList (by decide), plain_ofList (by decide), plain_ofList (by decide),
      plain_ofList (by decide), plain_ofList (by decide)⟩
  have hconnection : Plain 13 10 (connectionHeader request.client) := by
    unfold connectionHeader
    split <;> exact plain_ofList (by decide)
  have hallow : Plain 13 10
      (if request.client.any Client.adminCommandError then bytes "GET, SOURCE" else bytes "GET") := by
    split
    · exact hliterals.2.2.2.2.1
    · exact hliterals.2.2.2.2.2.1
  unfold generalLines
  simp only [List.forall_mem_append, List.forall_mem_cons, plain_append_iff, hliterals, hserver,
    hconnection, hallow, and_self, true_and]
  refine ⟨⟨nofun, ?_⟩, ?_⟩
  · split
    · exact nofun
    · exact List.forall_mem_singleton.mpr (plain_ofList (by decide))
    · exact nofun
  · intro line hmem
    obtain ⟨tm, -, rfl⟩ := Option.map_eq_some_iff.mp (Option.mem_toList.mp hmem)
    simp only [plain_append_iff, hliterals, (strftime_spec tm).1, and_self]

theorem plain_closingLines (hparts : NoLineBreaks request) :
    ∀ line ∈ closingLines request, Plain 13 10 line := by
  have hcolon : Plain 13 10 (bytes ": ") := plain_ofList (by decide)
  unfold closingLines
  simp only [List.forall_mem_append]
  refine ⟨⟨⟨?_, ?_⟩, ?_⟩, ?_⟩
  · split
    · exact List.forall_mem_singleton.mpr (plain_ofList (by decide))
    · exact nofun
  · split
    · exact nofun
    · rw [List.forall_mem_cons, List.forall_mem_cons, List.forall_mem_singleton]
      exact ⟨plain_ofList (by decide), plain_ofList (by decide), plain_ofList (by decide)⟩
  · intro line hmem
    obtain ⟨header, hheader, hline⟩ := List.mem_filterMap.mp hmem
    obtain ⟨hname, hvalue⟩ := hparts.headers header hheader
    unfold extraLine at hline
    split at hline
    · cases hline
    · split at hline
      · rename_i name value hnameEq hvalueEq
        cases hline
        simp only [plain_append_iff, hname name hnameEq, hcolon, hvalue value hvalueEq, and_self]
      · cases hline
  · split
    · exact List.forall_mem_singleton.mpr (by decide)
    · exact nofun

theorem plain_headerLines (hparts : NoLineBreaks request) (hserver : Plain 13 10 request.serverId) :
    ∀ line ∈ headerLines request, Plain 13 10 line := by
  unfold headerLines
  simp only [List.forall_mem_append]
  refine ⟨⟨⟨?_, plain_generalLines hserver⟩, ?_⟩, plain_closingLines hparts⟩
  · split
    · exact nofun
    · exact List.forall_mem_singleton.mpr (plain_statusLine hparts)
  · intro line hmem
    obtain ⟨contenttype, htype, rfl⟩ := Option.map_eq_some_iff.mp (Option.mem_toList.mp hmem)
    exact plain_contentTypeLine hparts htype

/-! ## Every response -/

theorem headText_eq_lines_iff (request : Request) :
    headText request = joinLines 13 10 (headerLines request) ↔
      (bufferedStatus request).length ≤ 79 ∧ (bufferedContentType request).length ≤ 79 := by
  rw [headText_eq, joinLines_headerLines]
  constructor
  · intro hsame
    have hlength := congrArg List.length hsame
    simp only [List.length_append, inBuffer, List.length_take] at hlength
    omega
  · rintro ⟨hstatus, htype⟩
    rw [inBuffer, inBuffer, List.take_of_length_le hstatus, List.take_of_length_le htype]

theorem length_bufferedStatus_le_iff (request : Request) : (bufferedStatus request).length ≤ 79 ↔
    (request.status ≠ -1 → (statusLine request).length ≤ 77) := by
  have hcrlf : crlf.length = 2 := by decide
  unfold bufferedStatus
  split
  · rename_i hnone
    simp [hnone]
  · rename_i hstatus
    rw [List.length_append, hcrlf]
    simp [hstatus]

theorem length_bufferedContentType_le_iff (request : Request) :
    (bufferedContentType request).length ≤ 79 ↔ ∀ contenttype ∈ request.contenttype,
      (contentTypeLine contenttype request.charset).length ≤ 77 := by
  have hcrlf : crlf.length = 2 := by decide
  unfold bufferedContentType
  cases request.contenttype <;> simp [hcrlf]

/-- What fits is written completely. -/
theorem written_eq {out : Bytes} {len : ℕ} (hlen : len < 2 ^ 64) {offset : Option ℕ}
    (hret : 0 ≤ (utilHttpBuildHeader (some out) len offset request).ret)
    (hfits : (offset.getD (out.takeWhile (· ≠ 0)).length : ℤ) +
      (utilHttpBuildHeader (some out) len offset request).ret < len) :
    (utilHttpBuildHeader (some out) len offset request).written =
      headText request ++ request.datablock.getD [] := by
  simp only [utilHttpBuildHeader] at hret hfits ⊢
  generalize offset.getD (out.takeWhile (· ≠ 0)).length = start at hfits
  split at hret
  · exact absurd hret (by decide)
  · rename_i hshort
    rw [if_neg hshort] at hfits ⊢
    refine List.take_of_length_le ?_
    simp only at hfits
    rw [usub_of_le (by omega) hlen]
    omega

theorem complete_iff (hparts : NoLineBreaks request) :
    Complete request (headText request ++ request.datablock.getD []) ↔ Short request := by
  have hcomplete : Complete request (headText request ++ request.datablock.getD []) ↔
      headText request = joinLines 13 10 (headerLines request) ∧
        ∀ line ∈ headerLines request, Plain 13 10 line := by
    rw [Complete, ← readLines_eq_some_iff]
    constructor
    · rintro ⟨head, hhead, hread⟩
      rwa [List.append_cancel_right hhead]
    · exact fun hread ↦ ⟨headText request, rfl, hread⟩
  rw [hcomplete, headText_eq_lines_iff, length_bufferedStatus_le_iff,
    length_bufferedContentType_le_iff]
  constructor
  · rintro ⟨⟨hstatus, htype⟩, hlines⟩
    have hserver : bytes "Server: " ++ request.serverId ∈ headerLines request := by
      simp [headerLines, generalLines]
    exact ⟨hstatus, htype, ((plain_append_iff _ _).mp (hlines _ hserver)).2⟩
  · rintro ⟨hstatus, htype, hserver⟩
    exact ⟨⟨hstatus, htype⟩, plain_headerLines hparts hserver⟩

/-- A header that fits is complete exactly if both lines fit in their buffers with the line break. -/
theorem response_header_complete_iff (request : Request) (hparts : NoLineBreaks request) (out : Bytes)
    {len : ℕ} (hlen : len < 2 ^ 64) (offset : Option ℕ)
    (hret : 0 ≤ (utilHttpBuildHeader (some out) len offset request).ret)
    (hfits : (offset.getD (out.takeWhile (· ≠ 0)).length : ℤ) +
      (utilHttpBuildHeader (some out) len offset request).ret < len) :
    Complete request (utilHttpBuildHeader (some out) len offset request).written ↔ Short request := by
  rw [written_eq hlen hret hfits]
  exact complete_iff hparts

/-- The request for a source with a content type, on a server without headers of its own. -/
def plainRequest (contenttype : Bytes) : Request :=
  listenerRequest ⟨bytes "Icecast", [], [], none, some contenttype, false, .close, false⟩ none

theorem noLineBreaks_plainRequest {contenttype : Bytes} (htype : Plain 13 10 contenttype) :
    NoLineBreaks (plainRequest contenttype) where
  statusmsg := nofun
  contenttype := by
    rintro text ⟨⟩
    exact htype
  charset := nofun
  headers := nofun

theorem response_header_complete_audio :
    Complete (plainRequest (bytes "audio/mpeg"))
        (utilHttpBuildHeader (some [0]) 4096 (some 0) (plainRequest (bytes "audio/mpeg"))).written ↔
      Short (plainRequest (bytes "audio/mpeg")) :=
  have hbuilt : (utilHttpBuildHeader (some [0]) 4096 (some 0) (plainRequest (bytes "audio/mpeg"))).ret =
      209 := by decide +kernel
  response_header_complete_iff _ (noLineBreaks_plainRequest (plain_ofList (by decide))) [0] (by decide)
    (some 0) (by rw [hbuilt]; decide) (by rw [hbuilt]; decide)

def longContentType : Bytes :=
  bytes "multipart/x-mixed-replace;boundary=frame-boundary-of-the-live-stream"

/-- The end of the content type is missing, and the next line follows it at once. -/
theorem response_header_cut : ¬ ∀ (request : Request) (out : Bytes) (len : ℕ) (offset : Option ℕ),
    NoLineBreaks request → len < 2 ^ 64 →
    0 ≤ (utilHttpBuildHeader (some out) len offset request).ret →
    (offset.getD (out.takeWhile (· ≠ 0)).length : ℤ) +
      (utilHttpBuildHeader (some out) len offset request).ret < len →
    Complete request (utilHttpBuildHeader (some out) len offset request).written := by
  intro hall
  have hparts : NoLineBreaks (plainRequest longContentType) :=
    noLineBreaks_plainRequest (plain_ofList (by decide))
  have hbuilt : (utilHttpBuildHeader (some [0]) 4096 (some 0) (plainRequest longContentType)).ret =
      262 := by decide +kernel
  have hret : 0 ≤ (utilHttpBuildHeader (some [0]) 4096 (some 0) (plainRequest longContentType)).ret := by
    rw [hbuilt]
    decide
  have hfits : ((some 0).getD ([0].takeWhile (· ≠ 0)).length : ℤ) +
      (utilHttpBuildHeader (some [0]) 4096 (some 0) (plainRequest longContentType)).ret < 4096 := by
    rw [hbuilt]
    decide
  have hcomplete := hall _ [0] 4096 (some 0) hparts (by decide) hret hfits
  rw [written_eq (by decide) hret hfits, complete_iff hparts] at hcomplete
  have hlong : (contentTypeLine longContentType none).length = 82 := by
    rw [contentTypeLine, longContentType, bytes_ofList, bytes_ofList]
    rfl
  have hshort : (contentTypeLine longContentType none).length ≤ 77 :=
    hcomplete.contenttype longContentType rfl
  omega

end Icecast.Util.ResponseHeader
