import Icecast.Format.Comments
import Icecast.Lib.Snprintf

/-!
# The request of the URL authenticator

`url_add_client` (`auth_url.c`) asks a web server about a listener. The body of that request is put
together in a buffer of 4096 bytes on the stack: what is known of the listener first, then those of
its request headers that the configuration asks for. All values are percent-encoded, which may make
them three times as long.

The lengths that `snprintf` returns are added up and never compared with the size of the buffer. So
the code stays within the buffer exactly for the bodies that fit (`url_post_in_bounds_iff`).
-/

namespace Icecast.Auth.UrlPost

open Format.Comments (Bytes bytes)
open Lib.Snprintf

/-! ## Texts -/

/-- `safechars`: digits and letters. -/
def isSafeChar (byte : UInt8) : Bool :=
  (48 ≤ byte && byte ≤ 57) || (65 ≤ byte && byte ≤ 90) || (97 ≤ byte && byte ≤ 122)

/-- `hexchars` -/
def hexChar (digit : UInt8) : UInt8 := if digit < 10 then 48 + digit else 87 + digit

def utilUrlEscape (text : Bytes) : Bytes :=
  text.flatMap fun byte ↦
    if isSafeChar byte then [byte] else [37, hexChar (byte >>> 4), hexChar (byte &&& 15)]

/-- The text fits into the `3 * len + 1` bytes that `util_url_escape` allocates for it. -/
theorem length_utilUrlEscape_le (text : Bytes) : (utilUrlEscape text).length ≤ 3 * text.length := by
  induction text with
  | nil => exact Nat.le_refl 0
  | cons byte text ih =>
    have hbyte : (if isSafeChar byte then [byte]
        else [37, hexChar (byte >>> 4), hexChar (byte &&& 15)]).length ≤ 3 := by
      split <;> simp
    simp only [utilUrlEscape, List.flatMap_cons, List.length_append, List.length_cons] at ih ⊢
    omega

/-- `%d` -/
def decimal (value : ℤ) : Bytes :=
  bytes (if value < 0 then "-" ++ Nat.repr value.natAbs else Nat.repr value.natAbs)

/-! ## The body -/

/-- `auth_url`, as far as the request is concerned. The action is kept percent-encoded. -/
structure AuthUrl where
  addurl : Option Bytes
  addaction : Bytes
  passHeaders : Option Bytes
  prefixHeaders : Option Bytes

/-- The client with the texts of its request; `getvar` looks up a request header. -/
structure Client where
  id : ℕ
  ip : Bytes
  username : Option Bytes
  password : Option Bytes
  rawuri : Option Bytes
  uri : Bytes
  userAgent : Option Bytes
  getvar : Bytes → Option Bytes

structure Config where
  hostname : Bytes
  port : ℤ

/-- The size of `post`. -/
def postSize : ℕ := 4096

/-- What is known of the listener. -/
def listenerText (config : Config) (url : AuthUrl) (client : Client) : Bytes :=
  bytes "action=" ++ url.addaction ++ bytes "&server=" ++ utilUrlEscape config.hostname ++
    bytes "&port=" ++ decimal config.port ++ bytes "&client=" ++ decimal client.id ++
    bytes "&mount=" ++ utilUrlEscape (client.rawuri.getD client.uri) ++
    bytes "&user=" ++ utilUrlEscape (client.username.getD []) ++
    bytes "&pass=" ++ utilUrlEscape (client.password.getD []) ++
    bytes "&ip=" ++ utilUrlEscape client.ip ++
    bytes "&agent=" ++ (client.userAgent.map utilUrlEscape).getD (bytes "-")

def headerText (url : AuthUrl) (name value : Bytes) : Bytes :=
  bytes "&" ++ url.prefixHeaders.getD [] ++ name ++ bytes "=" ++ utilUrlEscape value

/-- A turn of the loop over the names in `pass_headers`. -/
def passHeader (url : AuthUrl) (client : Client) (post : Output UInt8) (name : Bytes) :
    Output UInt8 :=
  match client.getvar name with
  | none => post
  | some value => post.append postSize (headerText url name value)

def headerNames (url : AuthUrl) : List Bytes :=
  match url.passHeaders with
  | none => []
  | some names => names.splitOn 44

/-- The output of `url_add_client` into `post`; `offset` is `post_offset`. Without a URL there is no
request. -/
def urlAddClient (config : Config) (url : AuthUrl) (client : Client) : Output UInt8 :=
  match url.addurl with
  | none => .start
  | some _ =>
    (headerNames url).foldl (passHeader url client)
      (Output.start.append postSize (listenerText config url client))

/-! ## Its length -/

/-- The pieces of the body, none of them cut off. -/
def bodyTexts (config : Config) (url : AuthUrl) (client : Client) : List Bytes :=
  listenerText config url client ::
    (headerNames url).filterMap fun name ↦ (client.getvar name).map (headerText url name)

def bodyLength (config : Config) (url : AuthUrl) (client : Client) : ℕ :=
  ((bodyTexts config url client).map List.length).sum

theorem foldl_passHeader (url : AuthUrl) (client : Client) (names : List Bytes)
    (post : Output UInt8) :
    names.foldl (passHeader url client) post =
      (names.filterMap fun name ↦ (client.getvar name).map (headerText url name)).foldl
        (Output.append postSize) post := by
  induction names generalizing post with
  | nil => rfl
  | cons name names ih =>
    rw [List.foldl_cons, ih, List.filterMap_cons]
    unfold passHeader
    cases client.getvar name with
    | none => rfl
    | some value => rfl

theorem urlAddClient_eq_foldl {config : Config} {url : AuthUrl} {client : Client}
    (hurl : url.addurl ≠ none) :
    urlAddClient config url client =
      (bodyTexts config url client).foldl (Output.append postSize) .start := by
  unfold urlAddClient bodyTexts
  cases haddurl : url.addurl with
  | none => exact absurd haddurl hurl
  | some addurl => rw [foldl_passHeader, List.foldl_cons]

/-- The body is put together within the buffer if and only if there is none or it fits as a whole. -/
theorem url_post_in_bounds_iff (config : Config) (url : AuthUrl) (client : Client) :
    (urlAddClient config url client).Safe postSize ↔
      url.addurl = none ∨ bodyLength config url client ≤ postSize := by
  by_cases hurl : url.addurl = none
  · have hstart : urlAddClient config url client = .start := by
      unfold urlAddClient
      rw [hurl]
    rw [hstart]
    simp [hurl, Output.safe_start]
  · have hcapacity : postSize < 2 ^ 64 := by decide
    rw [urlAddClient_eq_foldl hurl, Output.safe_foldl_append_iff hcapacity]
    have hlength : (Output.start : Output UInt8).offset +
          ((bodyTexts config url client).map List.length).sum = bodyLength config url client :=
      Nat.zero_add _
    rw [hlength]
    simp [hurl, Output.safe_start]

def exampleUrl : AuthUrl where
  addurl := some (bytes "http://auth.example/listener.php")
  addaction := bytes "listener%5Fadd"
  passHeaders := some (bytes "referer")
  prefixHeaders := none

/-- A listener with a long user agent, of slashes, which are all encoded. -/
def exampleClient : Client where
  id := 7
  ip := bytes "127.0.0.1"
  username := some (bytes "listener")
  password := some (bytes "secret")
  rawuri := none
  uri := bytes "/stream"
  userAgent := some (List.replicate 1500 47)
  getvar name := if name = bytes "referer" then some (bytes "http://www.example/") else none

/-- The header is written behind the end of the buffer. -/
theorem url_post_overflows :
    ¬ (urlAddClient ⟨bytes "localhost", 8000⟩ exampleUrl exampleClient).Safe postSize ∧
    ∃ call ∈ (urlAddClient ⟨bytes "localhost", 8000⟩ exampleUrl exampleClient).calls,
      postSize < call.offset ∧ 0 < call.stored := by
  have hwrite : ∃ call ∈ (urlAddClient ⟨bytes "localhost", 8000⟩ exampleUrl exampleClient).calls,
      postSize < call.offset ∧ 0 < call.stored := by
    decide +kernel
  refine ⟨?_, hwrite⟩
  intro hsafe
  obtain ⟨call, hcall, hoffset, -⟩ := hwrite
  have hle := (hsafe.calls call hcall).1
  omega

end Icecast.Auth.UrlPost
