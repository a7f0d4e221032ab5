import Icecast.Format.ListenerHeaders
import Mathlib.Data.Nat.Digits.Defs

/-!
# Requests for a part of a file

`fserve_client_create` (`fserve.c`) answers a request with a `Range` header from the byte that the
header names to the end of the file. What comes behind the first number of the header is ignored. The
file has been found and opened when the header is looked at; the response header and the file are
handed to the file serving thread, or the file is closed and an error is sent.

A start at the very end of the file is taken for a part of zero bytes. The file is left open if the
response header gets too long.
-/

namespace Icecast.Fserve.Range

open Format.Comments (Bytes bytes)
open Format.ListenerHeaders (Settings buildHeadersLoop decimal isDigit startsWith perClientRefbufSize)
open Lib.CString (strrchr)

/-! ## Response headers -/

/-- The version and the text for a status. -/
def statusLine (status : ℕ) : Bytes :=
  let (version, message) := match status with
    | 100 => ("1.1", "Continue")
    | 101 => ("1.1", "Switching Protocols")
    | 200 => ("1.0", "OK")
    | 206 => ("1.1", "Partial Content")
    | 400 => ("1.0", "Bad Request")
    | 401 => ("1.0", "Authentication Required")
    | 403 => ("1.0", "Forbidden")
    | 404 => ("1.0", "File Not Found")
    | 405 => ("1.0", "Method Not Allowed")
    | 409 => ("1.0", "Conflict")
    | 415 => ("1.0", "Unsupported Media Type")
    | 416 => ("1.0", "Request Range Not Satisfiable")
    | 426 => ("1.1", "Upgrade Required")
    | 429 => ("1.0", "Too Many Requests")
    | 501 => ("1.0", "Unimplemented")
    | 503 => ("1.0", "Service Unavailable")
    | _ => ("1.0", "(unknown status code)")
  (bytes "HTTP/" ++ bytes version ++ bytes " " ++ decimal status ++ bytes " " ++ bytes message ++
    bytes "\r\n").take 79

/-- `util_http_build_header` without a message, a cache, a data block or a source. -/
def utilHttpBuildHeader (settings : Settings) (status : ℕ) (contenttype : Option Bytes)
    (charset : Option Bytes) (date : Bytes) : Bytes :=
  let connection := match settings.reuse with
    | .close => bytes "Close"
    | .keepalive => bytes "Keep-Alive"
    | .upgradetls => bytes "Upgrade"
  let upgrade := match settings.reuse with
    | .upgradetls => []
    | _ => if settings.tls then bytes "Upgrade: TLS/1.0\r\n" else []
  let contenttype := match contenttype, charset with
    | none, _ => []
    | some contenttype, none => (bytes "Content-Type: " ++ contenttype ++ bytes "\r\n").take 79
    | some contenttype, some charset =>
      (bytes "Content-Type: " ++ contenttype ++ bytes "; charset=" ++ charset ++ bytes "\r\n").take 79
  statusLine status ++ bytes "Server: " ++ settings.serverId ++ bytes "\r\nConnection: " ++
    connection ++ bytes "\r\nAccept-Encoding: identity\r\nAllow: " ++
    (if settings.adminCommand then bytes "GET" else bytes "GET, SOURCE") ++ bytes "\r\n" ++ upgrade ++
    date ++ contenttype ++
    (if status = 401 then bytes "WWW-Authenticate: Basic realm=\"Icecast2 Server\"\r\n" else []) ++
    bytes "Cache-Control: no-cache\r\nExpires: Mon, 26 Jul 1997 05:00:00 GMT\r\nPragma: no-cache\r\n" ++
    buildHeadersLoop status settings.httpHeaders

/-- The general part of a listener's header is the one for a status of 200, if the mount has no headers
of its own. -/
theorem utilHttpBuildHeader_ok (settings : Settings) (hmount : settings.mountHttpHeaders = [])
    (date : Bytes) :
    utilHttpBuildHeader settings 200 settings.contenttype none date =
      Format.ListenerHeaders.utilHttpBuildHeader settings date := by
  have hline : statusLine 200 ++ bytes "Server: " = bytes "HTTP/1.0 200 OK\r\nServer: " := by decide
  unfold utilHttpBuildHeader Format.ListenerHeaders.utilHttpBuildHeader
  rw [hline, hmount]
  cases settings.contenttype <;> cases settings.reuse <;> simp [buildHeadersLoop]

/-! ## Errors -/

/-- `icecast_error_t` -/
structure Error where
  httpStatus : ℕ
  uuid : Bytes
  message : Bytes

def requestRangeNotSatisfiable : Error where
  httpStatus := 416
  uuid := bytes "5874cc51-770b-42b5-82d2-737b2b406b30"
  message := bytes "Request Range Not Satisfiable"

def headerGenFailed : Error where
  httpStatus := 500
  uuid := bytes "a8b3c3fe-cb87-45fe-9a9d-ee4c2075d43a"
  message := bytes "Header generation failed."

/-- What the client gets: a buffer with its length and possibly another one, for the file serving
thread; or a message that is sent at once, after which the client is gone. -/
inductive Answer where
  | prepared (respcode : ℕ) (data : Bytes) (len : ℕ) (next : Option Bytes)
  | internalError (message : Bytes)
  deriving DecidableEq

def Answer.status : Answer → ℕ
  | .prepared respcode _ _ _ => respcode
  | .internalError _ => 500

/-- `client_send_error_by_id`, with what was chosen by the `Accept` header of the request. -/
def clientSendError (settings : Settings) (date : Bytes) (plain : Bool) (error : Error) : Answer :=
  if error.httpStatus = 500 then .internalError error.message
  else
    let header := utilHttpBuildHeader { settings with reuse := .keepalive } error.httpStatus
      (some (if plain then bytes "text/plain" else bytes "text/html")) (some (bytes "utf-8")) date
    if perClientRefbufSize ≤ header.length then .internalError (bytes "Header generation failed.")
    else
      let status := decimal error.httpStatus
      let text := if plain then
          bytes "Error " ++ status ++ bytes "\r\n---------\r\n\r\nMessage: " ++ error.message ++
            bytes "\r\n\r\nError code: " ++ error.uuid ++ bytes "\r\n"
        else
          bytes "<html><head><title>Error " ++ status ++ bytes "</title></head><body><h1>Error " ++
            status ++ bytes "</h1><hr><p><b>" ++ error.message ++ bytes "</b></p><p>Error code: " ++
            error.uuid ++ bytes "</p></body></html>\r\n"
      let data := text.take (perClientRefbufSize - 1)
      let reply := (header ++ bytes "Content-Length: " ++ decimal data.length ++ bytes "\r\n\r\n").take
        (perClientRefbufSize - 1)
      .prepared error.httpStatus reply reply.length (some data)

/-! ## The request -/

def bufSize : ℕ := 4096

def utilGetExtension (path : Bytes) : Bytes := ((strrchr 46 path).map Prod.snd).getD []

/-- `mimetypes` is the table from the configured file. -/
def fserveContentType (mimetypes : Bytes → Option Bytes) (path : Bytes) : Bytes :=
  let ext := utilGetExtension path
  match mimetypes ext with
  | some type => type
  | none =>
    if ext = bytes "ogg" then bytes "application/ogg"
    else if ext = bytes "mp3" then bytes "audio/mpeg"
    else if ext = bytes "html" then bytes "text/html"
    else if ext = bytes "css" then bytes "text/css"
    else if ext = bytes "txt" then bytes "text/plain"
    else if ext = bytes "jpg" then bytes "image/jpeg"
    else if ext = bytes "png" then bytes "image/png"
    else if ext = bytes "m3u" then bytes "audio/x-mpegurl"
    else if ext = bytes "aac" then bytes "audio/aac"
    else bytes "application/octet-stream"

def isSpace (byte : UInt8) : Bool := byte = 32 || (9 ≤ byte && byte ≤ 13)

def minusSign : UInt8 := 45

def plusSign : UInt8 := 43

def digitsValue (digits : Bytes) : ℕ :=
  digits.foldl (fun value digit ↦ value * 10 + (digit.toNat - 48)) 0

def signedValue (negative : Bool) (digits : Bytes) : ℤ :=
  if negative then -digitsValue digits else digitsValue digits

def offMax : ℤ := 2 ^ 63 - 1

/-- The nearest number that fits. -/
def clampOff (value : ℤ) : ℤ := max (-2 ^ 63) (min value offMax)

/-- What `sscanf` reads with the format `SCN_OFF_T`. -/
def scanOff (text : Bytes) : Option ℤ :=
  let number := text.dropWhile isSpace
  let negative := decide (number.head? = some minusSign)
  let unsigned := if negative ∨ number.head? = some plusSign then number.tail else number
  let digits := unsigned.takeWhile isDigit
  if digits = [] then none else some (clampOff (signedValue negative digits))

/-- What becomes of the file. Nobody knows of it any more if it is `left`. -/
inductive FileState where
  | left
  | closed
  | handedOver (position : ℤ)
  deriving DecidableEq

structure Outcome where
  returned : ℤ
  answer : Answer
  file : FileState
  deriving DecidableEq

/-- The settings, the dates of the header and of that of an error, and the file: whether `fseeko`
succeeds for a position. -/
structure Environment where
  settings : Settings
  date : Bytes
  errorDate : Bytes
  plain : Bool
  mimetypes : Bytes → Option Bytes
  seek : ℤ → Bool

section Request

variable (env : Environment) (path : Bytes)

/-- The general part of the response header. -/
def generalPart (status : ℕ) : Bytes :=
  utilHttpBuildHeader env.settings status (some (fserveContentType env.mimetypes path)) none env.date

def sendError (error : Error) : Answer := clientSendError env.settings env.errorDate env.plain error

def fail : Outcome := ⟨-1, sendError env requestRangeNotSatisfiable, .closed⟩

/-- `%jd` for a number that is not negative. -/
def formatOff (value : ℤ) : Bytes := decimal value.toNat

def rangeLines (newContentLen rangenumber endpos contentLength : ℤ) : Bytes :=
  bytes "Accept-Ranges: bytes\r\nContent-Length: " ++ formatOff newContentLen ++
    bytes "\r\nContent-Range: bytes " ++ formatOff rangenumber ++ bytes "-" ++ formatOff endpos ++
    bytes "/" ++ formatOff contentLength ++ bytes "\r\n\r\n"

/-- The lines behind the general part, as far as there is room for them. -/
def serve (status : ℕ) (header lines : Bytes) (position : ℤ) : Outcome :=
  ⟨0, .prepared status ((header ++ lines).take (bufSize - 1)) (header.length + lines.length) none,
    .handedOver position⟩

def rangeRequest (rangenumber contentLength : ℤ) : Outcome :=
  if rangenumber < 0 then fail env
  else if env.seek rangenumber = false then fail env
  else
    let newContentLen := contentLength - rangenumber
    if newContentLen < 0 then fail env
    else
      let endpos := rangenumber + newContentLen - 1
      let endpos := if endpos < 0 then 0 else endpos
      let header := generalPart env path 206
      -- the file is not closed here, in contrast to the whole file below
      if bufSize - 512 ≤ header.length then ⟨-1, sendError env headerGenFailed, .left⟩
      else serve 206 header (rangeLines newContentLen rangenumber endpos contentLength) rangenumber

/-- `fserve_client_create` for a file that has been opened. -/
def fserveClientCreate (contentLength : ℤ) : Option Bytes → Outcome
  | some range =>
    if startsWith (bytes "bytes=") range then
      match scanOff (range.drop 6) with
      | none => fail env
      | some rangenumber => rangeRequest env path rangenumber contentLength
    else fail env
  | none =>
    let header := generalPart env path 200
    if bufSize - 512 ≤ header.length then ⟨-1, sendError env headerGenFailed, .closed⟩
    else
      serve 200 header (bytes "Accept-Ranges: bytes\r\nContent-Length: " ++ formatOff contentLength ++
        bytes "\r\n\r\n") 0

end Request

/-! ## Reading the header -/

/-- A header that asks for the file from a number on; the name is in any case. -/
def rangeHeader (name : Bytes) (negative : Bool) (digits rest : Bytes) : Bytes :=
  name ++ ((if negative then [minusSign] else []) ++ digits ++ minusSign :: rest)

section Reading

variable {name digits rest : Bytes} {negative : Bool}

theorem not_isSpace_of_isDigit {byte : UInt8} (h : isDigit byte = true) : isSpace byte = false := by
  simp only [isDigit, isSpace, Bool.and_eq_true, Bool.or_eq_false_iff, Bool.and_eq_false_iff,
    decide_eq_true_eq, decide_eq_false_iff_not] at h ⊢
  have hlow : 48 ≤ byte.toNat := h.1
  refine ⟨?_, Or.inr ?_⟩
  · rintro rfl
    exact absurd hlow (by decide)
  · intro hle
    have hhigh : byte.toNat ≤ 13 := hle
    omega

theorem takeWhile_digits (hdigits : ∀ digit ∈ digits, isDigit digit = true) :
    (digits ++ minusSign :: rest).takeWhile isDigit = digits := by
  rw [List.takeWhile_append_of_pos hdigits]
  simp [minusSign, isDigit]

/-- The number in front of the minus sign is read, and what follows is ignored. -/
theorem scanOff_number (hne : digits ≠ []) (hdigits : ∀ digit ∈ digits, isDigit digit = true) :
    scanOff ((if negative then [minusSign] else []) ++ digits ++ minusSign :: rest) =
      some (clampOff (signedValue negative digits)) := by
  cases negative with
  | true =>
    have hspace : ([minusSign] ++ digits ++ minusSign :: rest).dropWhile isSpace =
        minusSign :: (digits ++ minusSign :: rest) := by
      rw [List.append_assoc, List.singleton_append, List.dropWhile_cons_of_neg (by decide)]
    simp only [scanOff, if_true, hspace, List.head?_cons, decide_true, true_or, List.tail_cons,
      takeWhile_digits hdigits, if_neg hne]
  | false =>
    obtain ⟨first, tail, rfl⟩ := List.exists_cons_of_ne_nil hne
    have hfirst := hdigits first (List.mem_cons_self ..)
    have hspace : ([] ++ (first :: tail) ++ minusSign :: rest).dropWhile isSpace =
        first :: tail ++ minusSign :: rest := by
      rw [List.nil_append, List.cons_append,
        List.dropWhile_cons_of_neg (by simp [not_isSpace_of_isDigit hfirst])]
    have hminus : first ≠ minusSign := by
      rintro rfl
      exact absurd hfirst (by decide)
    have hplus : first ≠ plusSign := by
      rintro rfl
      exact absurd hfirst (by decide)
    simp only [scanOff, Bool.false_eq_true, if_false, hspace]
    rw [List.cons_append, List.head?_cons]
    simp only [Option.some.injEq, hminus, hplus, decide_false, Bool.false_eq_true, or_false, if_false]
    rw [← List.cons_append, takeWhile_digits hdigits, if_neg hne]

theorem fserveClientCreate_rangeHeader (env : Environment) (path : Bytes) (contentLength : ℤ)
    (hname : name.map Format.Comments.toLower = bytes "bytes=") (hne : digits ≠ [])
    (hdigits : ∀ digit ∈ digits, isDigit digit = true) :
    fserveClientCreate env path contentLength (some (rangeHeader name negative digits rest)) =
      rangeRequest env path (clampOff (signedValue negative digits)) contentLength := by
  have hword : (bytes "bytes=").length = 6 := by decide
  have hlength : name.length = 6 := by
    rw [← List.length_map Format.Comments.toLower, hname, hword]
  have hstarts : startsWith (bytes "bytes=") (rangeHeader name negative digits rest) = true := by
    have htake : (rangeHeader name negative digits rest).take (bytes "bytes=").length = name := by
      rw [hword, ← hlength, rangeHeader, List.take_left]
    rw [startsWith, htake, Format.ListenerHeaders.strcasecmp, hname]
    decide
  have hdrop : (rangeHeader name negative digits rest).drop 6 =
      (if negative then [minusSign] else []) ++ digits ++ minusSign :: rest := by
    rw [← hlength, rangeHeader, List.drop_left]
  unfold fserveClientCreate
  dsimp only
  rw [if_pos hstarts, hdrop, scanOff_number hne hdigits]

end Reading

/-! ## The answer -/

section Answer

variable {env : Environment} {path : Bytes} {n s : ℤ}

/-- For a position within the file, the rest of it; for every other one, the error, and the file is
closed. -/
def RangeAnswered (env : Environment) (path : Bytes) (n s : ℤ) (outcome : Outcome) : Prop :=
  if 0 ≤ s ∧ s < n then
    let reply := generalPart env path 206 ++ rangeLines (n - s) s (n - 1) n
    outcome = ⟨0, .prepared 206 reply reply.length none, .handedOver s⟩
  else outcome.returned = -1 ∧ outcome.answer.status = 416 ∧ outcome.file = .closed

/-- The general part of the header with the error. -/
def errorPart (env : Environment) : Bytes :=
  utilHttpBuildHeader { env.settings with reuse := .keepalive } 416
    (some (if env.plain then bytes "text/plain" else bytes "text/html")) (some (bytes "utf-8"))
    env.errorDate

/-- The response header fits, and the position is not the end of the file. Numbers beyond the range of
`off_t` are taken for the largest one. -/
def RangeFits (env : Environment) (path : Bytes) (n s : ℤ) : Prop :=
  if 0 ≤ s ∧ s < n then (generalPart env path 206).length < bufSize - 512
  else min s offMax ≠ n ∧ (errorPart env).length < perClientRefbufSize

instance (env : Environment) (path : Bytes) (n s : ℤ) (outcome : Outcome) :
    Decidable (RangeAnswered env path n s outcome) :=
  inferInstanceAs (Decidable (if 0 ≤ s ∧ s < n then _ else _ ∧ _ ∧ _))

instance (env : Environment) (path : Bytes) (n s : ℤ) : Decidable (RangeFits env path n s) :=
  inferInstanceAs (Decidable (if 0 ≤ s ∧ s < n then _ else _ ∧ _))

theorem sendError_status (env : Environment) :
    (sendError env requestRangeNotSatisfiable).status = 416 ↔
      (errorPart env).length < perClientRefbufSize := by
  have hstatus : requestRangeNotSatisfiable.httpStatus = 416 := rfl
  rw [sendError, clientSendError, hstatus, if_neg (by decide)]
  change Answer.status (if perClientRefbufSize ≤ (errorPart env).length then _ else _) = 416 ↔ _
  split
  · rename_i hlong
    constructor
    · intro h
      exact absurd h (by simp [Answer.status])
    · intro hshort
      omega
  · rename_i hshort
    exact iff_of_true rfl (Nat.lt_of_not_le hshort)

theorem formatOff_length_le {value : ℤ} (h : value ≤ offMax) : (formatOff value).length ≤ 19 := by
  have hlt : value.toNat < 10 ^ 19 := by
    unfold offMax at h
    omega
  rw [formatOff, decimal, bytes, List.length_map, String.length_toList]
  exact Nat.repr_length _ 19 (by decide) hlt

/-- The lines behind the general part always have room. -/
theorem rangeLines_length_le {size start last total : ℤ} (hsize : size ≤ offMax)
    (hstart : start ≤ offMax) (hlast : last ≤ offMax) (htotal : total ≤ offMax) :
    (rangeLines size start last total).length ≤ 511 := by
  have hfirst : (bytes "Accept-Ranges: bytes\r\nContent-Length: ").length = 38 := by decide
  have hsecond : (bytes "\r\nContent-Range: bytes ").length = 23 := by decide
  have hend : (bytes "\r\n\r\n").length = 4 := by decide
  have hdash : (bytes "-").length = 1 := by decide
  have hslash : (bytes "/").length = 1 := by decide
  have hsizeText := formatOff_length_le hsize
  have hstartText := formatOff_length_le hstart
  have hlastText := formatOff_length_le hlast
  have htotalText := formatOff_length_le htotal
  simp only [rangeLines, List.length_append, hfirst, hsecond, hend, hdash, hslash]
  omega

theorem serve_of_fits {header lines : Bytes} (hheader : header.length < bufSize - 512)
    (hlines : lines.length ≤ 511) (status : ℕ) (position : ℤ) :
    serve status header lines position =
      ⟨0, .prepared status (header ++ lines) (header ++ lines).length none, .handedOver position⟩ := by
  have hlength : (header ++ lines).length ≤ bufSize - 1 := by
    rw [List.length_append]
    unfold bufSize at hheader ⊢
    omega
  rw [serve, List.take_of_length_le hlength, List.length_append]

theorem rangeRequest_inside (hn : n ≤ offMax) (hseek : env.seek s = true) (hstart : 0 ≤ s)
    (hend : s < n) :
    RangeAnswered env path n s (rangeRequest env path s n) ↔
      (generalPart env path 206).length < bufSize - 512 := by
  have hlast : ¬s + (n - s) - 1 < 0 := by omega
  rw [RangeAnswered, if_pos ⟨hstart, hend⟩, rangeRequest, if_neg (by omega),
    if_neg (by simp [hseek])]
  dsimp only
  rw [if_neg (by omega), if_neg hlast, show s + (n - s) - 1 = n - 1 by omega]
  by_cases hlong : bufSize - 512 ≤ (generalPart env path 206).length
  · rw [if_pos hlong]
    constructor
    · intro h
      cases h
    · intro hshort
      omega
  · rw [if_neg hlong, serve_of_fits (Nat.lt_of_not_le hlong)]
    · exact iff_of_true rfl (Nat.lt_of_not_le hlong)
    · unfold offMax at hn
      apply rangeLines_length_le <;> unfold offMax <;> omega

/-- At the end of the file, a part of zero bytes is sent. -/
theorem rangeRequest_end (hseek : env.seek n = true) (hn : 0 ≤ n) :
    (rangeRequest env path n n).file ≠ .closed := by
  rw [rangeRequest, if_neg (by omega), if_neg (by simp [hseek])]
  dsimp only
  rw [if_neg (by omega)]
  split
  · nofun
  · nofun

theorem rangeRequest_outside {start : ℤ} (h : start < 0 ∨ n < start) :
    rangeRequest env path start n = fail env := by
  unfold rangeRequest
  split
  · rfl
  · split
    · rfl
    · dsimp only
      rw [if_pos (by omega)]

/-- A request for a part of a file of length `n` is answered as it should be if and only if the
response header fits, and it does not begin right at the end of the file. -/
theorem range_request_iff {name digits rest : Bytes} {negative : Bool}
    (hname : name.map Format.Comments.toLower = bytes "bytes=") (hne : digits ≠ [])
    (hdigits : ∀ digit ∈ digits, isDigit digit = true) (hn : 0 ≤ n) (hmax : n ≤ offMax)
    (hseek : ∀ position, 0 ≤ position → position ≤ n → env.seek position = true) :
    RangeAnswered env path n (signedValue negative digits)
        (fserveClientCreate env path n (some (rangeHeader name negative digits rest))) ↔
      RangeFits env path n (signedValue negative digits) := by
  rw [fserveClientCreate_rangeHeader env path n hname hne hdigits]
  generalize signedValue negative digits = s
  have hclamp : clampOff s = max (-2 ^ 63) (min s offMax) := rfl
  have hoff : offMax = 2 ^ 63 - 1 := rfl
  by_cases hinside : 0 ≤ s ∧ s < n
  · have hsame : clampOff s = s := by omega
    rw [hsame, RangeFits, if_pos hinside]
    exact rangeRequest_inside hmax (hseek s hinside.1 hinside.2.le) hinside.1 hinside.2
  · rw [RangeFits, if_neg hinside, RangeAnswered, if_neg hinside]
    by_cases hend : min s offMax = n
    · have hsame : clampOff s = n := by omega
      rw [hsame]
      constructor
      · intro h
        exact absurd h.2.2 (rangeRequest_end (hseek n hn le_rfl) hn)
      · intro h
        exact absurd hend h.1
    · have houtside : clampOff s < 0 ∨ n < clampOff s := by omega
      rw [rangeRequest_outside houtside, ← sendError_status]
      simp only [fail, true_and, and_true, ne_eq, hend, not_false_eq_true]

end Answer

/-! ## A file of five bytes -/

def smallSettings : Settings where
  serverId := bytes "Icecast"
  httpHeaders := []
  mountHttpHeaders := []
  streamName := none
  contenttype := none
  tls := false
  reuse := .close
  adminCommand := true

def smallEnvironment : Environment where
  settings := smallSettings
  date := []
  errorDate := []
  plain := true
  mimetypes := fun _ ↦ none
  seek := fun position ↦ 0 ≤ position

/-- From the third byte on, with `bytes=2-` -/
theorem range_request_two :
    RangeAnswered smallEnvironment (bytes "/a.ogg") 5 2
      (fserveClientCreate smallEnvironment (bytes "/a.ogg") 5 (some (bytes "bytes=2-"))) := by
  exact (@range_request_iff smallEnvironment (bytes "/a.ogg") 5 (bytes "bytes=") [50] [] false (by decide)
    (by decide) (by decide +kernel) (by decide) (by decide)
    (fun position hstart _ ↦ decide_eq_true hstart)).mpr (by decide +kernel)

/-- Behind the last byte, with `bytes=5-`: the part that is sent ends before it begins. -/
theorem not_range_request_end :
    ¬ ∀ (env : Environment) (path : Bytes) (n : ℤ) (digits rest : Bytes),
      0 ≤ n → n ≤ offMax → digits ≠ [] → (∀ digit ∈ digits, isDigit digit = true) →
      (∀ position, 0 ≤ position → position ≤ n → env.seek position = true) →
      RangeAnswered env path n (signedValue false digits)
        (fserveClientCreate env path n (some (rangeHeader (bytes "bytes=") false digits rest))) := by
  intro h
  have hanswer := h smallEnvironment (bytes "/a.ogg") 5 [53] [] (by decide) (by decide) (by decide)
    (by decide +kernel) (fun position hstart _ ↦ decide_eq_true hstart)
  exact absurd hanswer (by decide +kernel)

end Icecast.Fserve.Range
