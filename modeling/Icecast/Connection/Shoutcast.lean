import Icecast.Connection.Reuse
import Icecast.Format.Comments

/-!
# The first data of a shoutcast source

A shoutcast source sends its password on a line of its own, then its headers, then the stream. The
server builds an ordinary request from the headers (`_handle_shoutcast_compatible`), moves what has been
read behind them to the start of the buffer, and goes on with the client as with any other
(`_handle_connection`), which moves it once more.

A source is started by `source_client_callback`, which takes the buffer away from the client and leaves
the associated one in its place. For other sources the buffer at that time is the answer, with what has
been read associated to it. A shoutcast source is answered directly: the buffer is the one with the data,
nothing is associated to it, and the data is released.
-/

namespace Icecast.Connection.Shoutcast

open Lib.CString Lib.Socket
open Format.Comments (bytes toLower)
open Reuse (Bytes cString perClientRefbufSize)

/-! ## Clients -/

/-- A buffer: its memory, how much of it is used, and the buffer that is associated to it. -/
structure Refbuf where
  data : Bytes
  len : ℕ
  associated : Option Refbuf

inductive Protocol where
  | http
  | shoutcast
  deriving DecidableEq

/-- A request after parsing, as far as the variables are looked at here. -/
structure Parser where
  transferEncoding : Option Bytes
  expect : Option Bytes

/-- The HTTP library: parsing, and the transfer encodings with the function that reads through one. -/
structure Httpp (Client : Type) where
  parse : Bytes → Option Parser
  encodingNew : Bytes → Bool
  encodingRead : Bytes → (Client → ℕ → Bytes × Client) → Client → ℕ → Bytes × Client

/-- A client. `error` is that of its connection, `incoming` is what the peer has sent and the server has
not read, and `sent` is what the peer has been sent directly. -/
structure Client where
  refbuf : Option Refbuf
  parser : Option Parser
  protocol : Protocol
  username : Option Bytes
  password : Option Bytes
  encoding : Option Bytes
  respcode : ℕ
  error : Bool
  incoming : Bytes
  sent : Bytes

/-- An entry of the request queue or the connection queue. -/
structure Node where
  client : Client
  offset : ℕ
  streamOffset : ℕ
  shoutcast : ℕ
  shoutcastMount : Option Bytes

structure Config where
  shoutcastMount : Bytes
  shoutcastUser : Bytes

/-- What the string functions see of the client's buffer. -/
def Client.text (client : Client) : Bytes :=
  match client.refbuf with
  | some refbuf => cString refbuf.data
  | none => []

/-- `memmove` to the start of a buffer. -/
def moveToFront (data : Bytes) (src n : ℕ) : Bytes := (data.drop src).take n ++ data.drop n

/-- There may be more than just headers. -/
def Node.compact (node : Node) (refbuf : Refbuf) : Refbuf :=
  if node.streamOffset = node.offset then { refbuf with len := 0 }
  else
    { refbuf with
      len := node.offset - node.streamOffset
      data := moveToFront refbuf.data node.streamOffset (node.offset - node.streamOffset) }

/-! ## From the queue to authentication -/

/-- The end of the password and the start of the headers. -/
def passwordLine (text : Bytes) : Option (ℕ × ℕ) :=
  match strstr [13, 13, 10] text with
  | some ptr => some (ptr, ptr + 3)
  | none =>
    match strstr [13, 10] text with
    | some ptr => some (ptr, ptr + 2)
    | none =>
      match strstr [10] text with
      | some ptr => some (ptr, ptr + 1)
      | none => none

/-- The request that is built from the headers. The buffer for it is sized by the offset. -/
def httpCompliant (config : Config) (node : Node) : Bytes :=
  let mount := node.shoutcastMount.getD config.shoutcastMount
  (bytes "SOURCE " ++ mount ++ bytes " HTTP/1.0\r\n" ++ node.client.text).take
    (20 + mount.length + node.offset - 1)

/-- A node goes back to the request queue, it goes on, or it is freed with its client. -/
inductive Compatible where
  | requeued (node : Node)
  | ready (node : Node)
  | freed

def handleShoutcastCompatible (httpp : Httpp Client) (config : Config) (node : Node) : Compatible :=
  if node.shoutcast = 1 then
    match passwordLine node.client.text with
    | none => .freed
    | some (ptr, headers) =>
      let offset := node.offset - headers
      .requeued
        { node with
          client :=
            { node.client with
              password := some (node.client.text.take ptr)
              username := some config.shoutcastUser
              refbuf := node.client.refbuf.map fun refbuf ↦
                { refbuf with data := moveToFront (refbuf.data.set ptr 0) headers (offset + 1) } }
          offset := offset
          shoutcast := 2 }
  else
    match httpp.parse (httpCompliant config node) with
    | none => .freed
    | some parser =>
      .ready
        { node with
          client :=
            { node.client with
              refbuf := node.client.refbuf.map node.compact
              parser := some parser
              protocol := .shoutcast }
          shoutcast := 0 }

/-- What `_handle_connection` makes of a node: it waits for more, it is freed with its client, or the
client goes on to be authenticated. -/
inductive Handled where
  | waiting (node : Node)
  | dropped
  | continued (client : Client)

def handleConnection (httpp : Httpp Client) (config : Config) (node : Node) : Handled :=
  let compatible :=
    if node.shoutcast ≠ 0 then handleShoutcastCompatible httpp config node else .ready node
  match compatible with
  | .requeued node => .waiting node
  | .freed => .dropped
  | .ready node =>
    let client := node.client
    let parsed :=
      match client.parser with
      | some parser => some parser
      | none => httpp.parse ((client.refbuf.elim [] (·.data)).take node.offset)
    match parsed with
    | none => .dropped
    | some parser =>
      .continued { client with parser := some parser, refbuf := client.refbuf.map node.compact }

/-! ## Starting the source -/

/-- What starting a source depends on: whether the mount point is free, whether the source can be set up,
what the socket accepts of an answer at once and whether the connection is found to be broken, and the
header of an answer. -/
structure Startup where
  reserved : Bool
  completed : Bool
  accepted : ℕ
  broken : Bool
  buildHeader : ℕ → Bytes

inductive Started where
  | inUse
  | failed
  | unimplemented
  | answering (client : Client)
  | running (client : Client)

/-- The buffer of the client is released, and the associated one takes its place. -/
def sourceClientCallback (client : Client) : Started :=
  if client.error then .failed
  else .running { client with refbuf := client.refbuf.bind (·.associated) }

def statusToSend (parser : Parser) : ℕ :=
  match parser.expect with
  | some expect =>
    if (strstr (bytes "100-continue") (expect.map toLower)).isSome then 100 else 200
  | none => 200

/-- The answer to a source that is not a shoutcast one goes through the file serving thread. What has
been read is associated to it. -/
def answerSource (startup : Startup) (parser : Parser) (client : Client) : Client :=
  let data := (startup.buildHeader (statusToSend parser) ++ bytes "Content-Length: 0\r\n\r\n").take
    (perClientRefbufSize - 1)
  { client with
    respcode := 200
    refbuf := some { data := data, len := data.length, associated := client.refbuf } }

def sourceStartup (httpp : Httpp Client) (startup : Startup) (client : Client) : Started :=
  if ¬ startup.reserved then .inUse
  else if ¬ startup.completed then .failed
  else
    match client.protocol, client.parser with
    | .shoutcast, _ =>
      sourceClientCallback
        { client with
          respcode := 200
          sent := client.sent ++ (bytes "OK2\r\nicy-caps:11\r\n\r\n").take startup.accepted
          error := client.error || startup.broken }
    | .http, none => .failed
    | .http, some parser =>
      match parser.transferEncoding with
      | none => .answering (answerSource startup parser client)
      | some encoding =>
        if encoding.map toLower = bytes "identity" then
          .answering (answerSource startup parser client)
        else if httpp.encodingNew encoding then
          .answering (answerSource startup parser { client with encoding := some encoding })
        else .unimplemented

/-- The file serving thread has sent the answer, or has found the connection to be broken. -/
def answered (startup : Startup) : Started → Started
  | .answering client => sourceClientCallback { client with error := client.error || startup.broken }
  | started => started

/-! ## Reading from the source -/

def clientReadBytesReal (client : Client) (len : ℕ) : Bytes × Client :=
  match client.refbuf with
  | none => ([], client)
  | some refbuf =>
    let taken := min refbuf.len len
    let data :=
      if taken < refbuf.len then moveToFront refbuf.data taken (refbuf.len - taken) else refbuf.data
    (refbuf.data.take taken,
      { client with refbuf := some { refbuf with data := data, len := refbuf.len - taken } })

def connectionReadBytes (limit : ℕ) (client : Client) (len : ℕ) : Bytes × Client :=
  let (data, incoming) := readBytes client.incoming limit len
  (data, { client with incoming := incoming })

/-- The bytes of the buffer first, then those of the socket. -/
def clientReadBytes (httpp : Httpp Client) (limit : ℕ) (client : Client) (len : ℕ) : Bytes × Client :=
  let reader :=
    if client.refbuf.elim 0 (·.len) ≠ 0 then clientReadBytesReal else connectionReadBytes limit
  match client.encoding with
  | some encoding => httpp.encodingRead encoding reader client len
  | none => reader client len

/-- What the format plugin gets by a sequence of reads, each with what has arrived at that time and the
length that is asked for. -/
def readSource (httpp : Httpp Client) (client : Client) : List (ℕ × ℕ) → Bytes × Client
  | [] => ([], client)
  | (limit, len) :: reads =>
    let (data, client) := clientReadBytes httpp limit client len
    let (rest, client) := readSource httpp client reads
    (data ++ rest, client)

section Reading

variable (httpp : Httpp Client) {client : Client}

/-- The bytes that are delivered before any from the socket. -/
def Client.buffered (client : Client) : Bytes :=
  match client.refbuf with
  | some refbuf => refbuf.data.take refbuf.len
  | none => []

/-- The client is read from without an encoding, and its buffer holds as much as it says. -/
structure Client.Plain (client : Client) : Prop where
  encoding : client.encoding = none
  len : ∀ refbuf ∈ client.refbuf, refbuf.len ≤ refbuf.data.length

theorem take_moveToFront {data : Bytes} {src n : ℕ} (hle : src + n ≤ data.length) :
    (moveToFront data src n).take n = (data.drop src).take n := by
  have hlength : ((data.drop src).take n).length = n := by
    rw [List.length_take, List.length_drop]
    omega
  unfold moveToFront
  rw [List.take_append_of_le_length (by omega), List.take_take, Nat.min_self]

theorem length_moveToFront {data : Bytes} {src n : ℕ} (hle : src + n ≤ data.length) :
    (moveToFront data src n).length = data.length := by
  simp only [moveToFront, List.length_append, List.length_take, List.length_drop]
  omega

theorem Client.Plain.length_buffered (hplain : client.Plain) :
    client.buffered.length = client.refbuf.elim 0 (·.len) := by
  unfold buffered
  cases hrefbuf : client.refbuf with
  | none => rfl
  | some refbuf =>
    have hlen := hplain.len refbuf hrefbuf
    exact List.length_take_of_le hlen

/-- One read of a client that has data in its buffer. -/
theorem Client.Plain.read_buffered (hplain : client.Plain) (hpos : client.buffered ≠ [])
    (limit len : ℕ) :
    (clientReadBytes httpp limit client len).1 = client.buffered.take len ∧
      (clientReadBytes httpp limit client len).2.buffered = client.buffered.drop len ∧
      (clientReadBytes httpp limit client len).2.incoming = client.incoming ∧
      (clientReadBytes httpp limit client len).2.Plain := by
  cases hrefbuf : client.refbuf with
  | none =>
    unfold buffered at hpos
    rw [hrefbuf] at hpos
    exact absurd rfl hpos
  | some refbuf =>
    have hlen : refbuf.len ≤ refbuf.data.length := hplain.len refbuf hrefbuf
    have hbuffered : client.buffered = refbuf.data.take refbuf.len := by
      unfold buffered
      rw [hrefbuf]
    have hne : refbuf.len ≠ 0 := by
      intro hzero
      rw [hbuffered, hzero] at hpos
      exact hpos rfl
    have hread : clientReadBytes httpp limit client len = clientReadBytesReal client len := by
      simp only [clientReadBytes, hrefbuf, Option.elim_some, ne_eq, hne, not_false_eq_true, if_true,
        hplain.encoding]
    rw [hread, hbuffered]
    simp only [clientReadBytesReal, hrefbuf]
    refine ⟨?_, ?_, trivial, ⟨hplain.encoding, ?_⟩⟩
    · rw [List.take_take, Nat.min_comm]
    · simp only [buffered]
      split
      · rename_i hlt
        have hcut : min refbuf.len len = len := by omega
        rw [hcut, take_moveToFront (by omega), List.drop_take]
      · rename_i hnlt
        have hcut : refbuf.len - min refbuf.len len = 0 := by omega
        rw [hcut, List.take_zero]
        symm
        apply List.drop_of_length_le
        rw [List.length_take]
        omega
    · intro after hafter
      rw [← Option.some.inj hafter]
      dsimp only
      split
      · rw [length_moveToFront (by omega)]
        omega
      · omega

/-- One read of a client whose buffer is empty. -/
theorem Client.Plain.read_socket (hplain : client.Plain) (hnil : client.buffered = [])
    (limit len : ℕ) :
    clientReadBytes httpp limit client len = connectionReadBytes limit client len := by
  have hzero : client.refbuf.elim 0 (·.len) = 0 := by
    rw [← hplain.length_buffered, hnil, List.length_nil]
  simp only [clientReadBytes, hzero, ne_eq, not_true, if_false, hplain.encoding]

/-- However a client is read from, it delivers what is in its buffer first. -/
theorem Client.Plain.readSource_buffered (hplain : client.Plain) (reads : List (ℕ × ℕ)) :
    (readSource httpp client reads).1.take client.buffered.length =
        client.buffered.take (reads.map Prod.snd).sum ∧
      ((reads.map Prod.snd).sum ≤ client.buffered.length →
        (readSource httpp client reads).2.incoming = client.incoming) := by
  induction reads generalizing client with
  | nil => simp [readSource]
  | cons read reads ih =>
    obtain ⟨limit, len⟩ := read
    simp only [readSource, List.map_cons, List.sum_cons]
    by_cases hpos : client.buffered = []
    · rw [hplain.read_socket httpp hpos, hpos]
      refine ⟨by simp, fun hle ↦ ?_⟩
      have hlen : len = 0 := by simp at hle; omega
      have hsame : connectionReadBytes limit client len = ([], client) := by
        simp [connectionReadBytes, readBytes, hlen]
      rw [hsame]
      refine (ih hplain).2 ?_
      simp at hle
      omega
    · obtain ⟨hdata, hrest, hincoming, hafter⟩ := hplain.read_buffered httpp hpos limit len
      have ih := ih hafter
      rw [hrest, List.length_drop] at ih
      rw [hdata]
      refine ⟨?_, fun hle ↦ ?_⟩
      · rcases Nat.le_total len client.buffered.length with hle | hle
        · have hlength : (client.buffered.take len).length = len := List.length_take_of_le hle
          rw [List.take_append, hlength, ih.1, List.take_take, Nat.min_eq_right hle, List.take_add]
        · rw [List.take_of_length_le hle, List.take_left]
          symm
          apply List.take_of_length_le
          omega
      · rw [← hincoming]
        exact ih.2 (by omega)

end Reading

/-! ## Nodes of the queues -/

/-- The node has a client with this buffer, and what has been read fits into it. -/
structure Node.Queued (node : Node) (refbuf : Refbuf) : Prop where
  holds : node.client.refbuf = some refbuf
  associated : refbuf.associated = none
  length : refbuf.data.length = perClientRefbufSize
  encoding : node.client.encoding = none
  offset : node.offset < perClientRefbufSize

/-- A client whose connection has been accepted. The memory of a new buffer is not cleared. -/
def createClientNode (memory incoming : Bytes) (shoutcastCompat : Bool) (mount : Option Bytes) : Node where
  client :=
    { refbuf := some { data := memory, len := 0, associated := none }
      parser := none
      protocol := .http
      username := none
      password := none
      encoding := none
      respcode := 0
      error := false
      incoming := incoming
      sent := [] }
  offset := 0
  streamOffset := 0
  shoutcast := if shoutcastCompat then 1 else 0
  shoutcastMount := mount

/-- `process_request_queue` has read so much more into the buffer. -/
def Node.receive (node : Node) (chunk : Bytes) : Node :=
  { node with
    client :=
      { node.client with
        refbuf := node.client.refbuf.map fun refbuf ↦
          { refbuf with
            data := refbuf.data.take node.offset ++ (chunk ++ [0]) ++
              refbuf.data.drop (node.offset + chunk.length + 1) } }
    offset := node.offset + chunk.length }

section Queued

variable {httpp : Httpp Client} {config : Config} {node : Node} {refbuf : Refbuf}

theorem queued_createClientNode {memory : Bytes} (hlength : memory.length = perClientRefbufSize)
    (incoming : Bytes) (shoutcastCompat : Bool) (mount : Option Bytes) :
    (createClientNode memory incoming shoutcastCompat mount).Queued ⟨memory, 0, none⟩ := by
  exact ⟨rfl, rfl, hlength, rfl, Nat.zero_lt_succ 4095⟩

theorem Node.Queued.receive (hqueued : node.Queued refbuf) {chunk : Bytes}
    (hfits : node.offset + chunk.length < perClientRefbufSize) :
    ∃ after, (node.receive chunk).Queued after := by
  let after : Refbuf :=
    { refbuf with
      data := refbuf.data.take node.offset ++ (chunk ++ [0]) ++
        refbuf.data.drop (node.offset + chunk.length + 1) }
  have hholds : (node.receive chunk).client.refbuf = some after := by
    simp only [Node.receive, hqueued.holds, Option.map_some, after]
  refine ⟨after, hholds, hqueued.associated, ?_, hqueued.encoding, hfits⟩
  have hlength := hqueued.length
  simp only [after]
  simp only [List.length_append, List.length_take, List.length_drop, List.length_singleton]
  omega

/-- The text in the buffer ends with what has been read. -/
theorem Node.Queued.length_text_receive (hqueued : node.Queued refbuf) (chunk : Bytes) :
    (node.receive chunk).client.text.length ≤ (node.receive chunk).offset := by
  have hlength : (refbuf.data.take node.offset ++ chunk).length ≤ node.offset + chunk.length := by
    rw [List.length_append, List.length_take]
    omega
  simp only [Client.text, Node.receive, hqueued.holds, Option.map_some, cString, List.append_assoc,
    List.singleton_append]
  rw [← List.append_assoc]
  exact (length_takeWhile_ne_le _ _).trans hlength

theorem headers_le {text : Bytes} {ptr headers : ℕ} (h : passwordLine text = some (ptr, headers)) :
    headers ≤ text.length := by
  unfold passwordLine at h
  split at h
  · rename_i hfound
    rw [← (Prod.mk.inj (Option.some.inj h)).2]
    exact add_length_le_of_strstr hfound (by decide)
  · split at h
    · rename_i hfound
      rw [← (Prod.mk.inj (Option.some.inj h)).2]
      exact add_length_le_of_strstr hfound (by decide)
    · split at h
      · rename_i hfound
        rw [← (Prod.mk.inj (Option.some.inj h)).2]
        exact add_length_le_of_strstr hfound (by decide)
      · cases h

/-- A node that is sent back for its headers can be read into again, if the text in its buffer ends with
what has been read. -/
theorem Node.Queued.requeued (hqueued : node.Queued refbuf)
    (htext : node.client.text.length ≤ node.offset) {after : Node}
    (h : handleShoutcastCompatible httpp config node = .requeued after) :
    ∃ refbuf', after.Queued refbuf' ∧ after.shoutcast = 2 := by
  unfold handleShoutcastCompatible at h
  split at h
  · split at h
    · cases h
    · rename_i ptr headers hline
      have hheaders := headers_le hline
      have hoffset := hqueued.offset
      let moved : Refbuf :=
        { refbuf with
          data := moveToFront (refbuf.data.set ptr 0) headers (node.offset - headers + 1) }
      rw [← Compatible.requeued.inj h]
      refine ⟨moved, ⟨?_, hqueued.associated, ?_, hqueued.encoding, ?_⟩, rfl⟩
      · simp only [hqueued.holds, Option.map_some, moved]
      · simp only [moved]
        rw [length_moveToFront]
        · rw [List.length_set, hqueued.length]
        · rw [List.length_set, hqueued.length]
          omega
      · dsimp only
        omega
  · split at h
    · cases h
    · cases h

/-- The buffer for the request is large enough. -/
theorem httpCompliant_eq (htext : node.client.text.length ≤ node.offset) :
    httpCompliant config node =
      bytes "SOURCE " ++ node.shoutcastMount.getD config.shoutcastMount ++ bytes " HTTP/1.0\r\n" ++
        node.client.text := by
  have hfront : (bytes "SOURCE ").length = 7 := rfl
  have hback : (bytes " HTTP/1.0\r\n").length = 11 := rfl
  unfold httpCompliant
  apply List.take_of_length_le
  simp only [List.length_append, hfront, hback]
  omega

end Queued

/-! ## The data behind the headers -/

/-- The bytes that were read behind the headers. -/
def Node.body (node : Node) (refbuf : Refbuf) : Bytes :=
  (refbuf.data.drop node.streamOffset).take (node.offset - node.streamOffset)

/-- The client's buffer holds the body after `_handle_connection`, and when the source runs, the body is
what the format plugin gets first, before anything is taken from the socket. -/
structure BodyPreserved (httpp : Httpp Client) (body : Bytes) (handled running : Client) : Prop where
  refbuf : ∃ refbuf ∈ handled.refbuf, refbuf.len = body.length ∧ refbuf.data.take refbuf.len = body
  first : ∀ reads, (readSource httpp running reads).1.take body.length =
    body.take (reads.map Prod.snd).sum
  socket : ∀ reads, (reads.map Prod.snd).sum ≤ body.length →
    (readSource httpp running reads).2.incoming = running.incoming

section Body

variable {httpp : Httpp Client} {config : Config} {startup : Startup} {node : Node} {refbuf : Refbuf}
variable {handled running : Client}

theorem compact_associated (node : Node) (refbuf : Refbuf) :
    (node.compact refbuf).associated = refbuf.associated := by
  unfold Node.compact
  split
  · rfl
  · rfl

theorem length_body (hle : node.streamOffset ≤ node.offset) (hfits : node.offset ≤ refbuf.data.length) :
    (node.body refbuf).length = node.offset - node.streamOffset := by
  rw [Node.body, List.length_take, List.length_drop]
  omega

theorem compact_len (node : Node) (refbuf : Refbuf) :
    (node.compact refbuf).len = node.offset - node.streamOffset := by
  unfold Node.compact
  split
  · dsimp only
    omega
  · rfl

/-- Moved once, the body is at the start of the buffer. -/
theorem take_compact (hle : node.streamOffset ≤ node.offset)
    (hfits : node.offset ≤ refbuf.data.length) :
    (node.compact refbuf).data.take (node.compact refbuf).len = node.body refbuf := by
  rw [compact_len, Node.body]
  unfold Node.compact
  split
  · rename_i hsame
    rw [hsame, Nat.sub_self, List.take_zero, List.take_zero]
  · exact take_moveToFront (by omega)

/-- Moved twice, the body is at the start of the buffer if and only if it goes on with itself where the
headers ended. -/
theorem take_moveToFront_twice_iff {data : Bytes} {src n : ℕ} (hle : src + n ≤ data.length) :
    (moveToFront (moveToFront data src n) src n).take n = (data.drop src).take n ↔
      ((data.drop src).take n).drop src <+: (data.drop src).take n := by
  have hlength : ((data.drop src).take n).length = n := by
    rw [List.length_take, List.length_drop]
    omega
  rw [take_moveToFront (by rw [length_moveToFront hle]; exact hle)]
  rcases Nat.le_total n src with hshort | hlong
  · have hsame : (moveToFront data src n).drop src = data.drop src := by
      rw [moveToFront, List.drop_append, List.drop_of_length_le (by omega), List.nil_append, hlength,
        List.drop_drop, Nat.add_sub_cancel' hshort]
    rw [hsame, List.drop_of_length_le (by omega : ((data.drop src).take n).length ≤ src)]
    exact iff_of_true rfl List.nil_prefix
  · -- The end of the body is still where it was.
    have hend : (data.drop n).take src = ((data.drop src).take n).drop (n - src) := by
      rw [List.drop_take, List.drop_drop, Nat.add_sub_cancel' hlong, Nat.sub_sub_self hlong]
    have hmoved : ((moveToFront data src n).drop src).take n =
        ((data.drop src).take n).drop src ++ ((data.drop src).take n).drop (n - src) := by
      have hrest : (((data.drop src).take n).drop src).length = n - src := by
        rw [List.length_drop, hlength]
      rw [moveToFront, List.drop_append_of_le_length (by omega), List.take_append,
        List.take_of_length_le (by omega), hrest, Nat.sub_sub_self hlong, hend]
    rw [hmoved, List.prefix_iff_eq_take, List.length_drop, hlength]
    conv_lhs =>
      rhs
      rw [← List.take_append_drop (n - src) ((data.drop src).take n)]
    exact List.append_left_inj _

/-- A shoutcast client that goes on has had its buffer compacted twice. -/
theorem Node.Queued.handled_shoutcast (hqueued : node.Queued refbuf) (hshoutcast : node.shoutcast = 2)
    (h : handleConnection httpp config node = .continued handled) :
    handled.refbuf = some (node.compact (node.compact refbuf)) ∧ handled.protocol = .shoutcast ∧
      handled.encoding = none := by
  simp only [handleConnection, handleShoutcastCompatible, hshoutcast] at h
  cases hparse : httpp.parse (httpCompliant config node) with
  | none => simp [hparse] at h
  | some parser =>
    simp [hparse] at h
    rw [← h]
    refine ⟨?_, rfl, hqueued.encoding⟩
    simp only [hqueued.holds, Option.map_some]
    rfl

theorem running_callback {client : Client} (h : sourceClientCallback client = .running running) :
    running.refbuf = client.refbuf.bind (·.associated) ∧ running.encoding = client.encoding := by
  unfold sourceClientCallback at h
  split at h
  · cases h
  · rw [← Started.running.inj h]
    exact ⟨rfl, rfl⟩

/-- A shoutcast source runs with the buffer that was associated to the one it had. -/
theorem running_shoutcast (hprotocol : handled.protocol = .shoutcast)
    (h : sourceStartup httpp startup handled = .running running) :
    running.refbuf = handled.refbuf.bind (·.associated) ∧ running.encoding = handled.encoding := by
  unfold sourceStartup at h
  split at h
  · cases h
  · split at h
    · cases h
    · rw [hprotocol] at h
      have hboth := running_callback h
      exact hboth

/-- What a source has in its buffer when it runs is what it delivers first. -/
theorem Client.Plain.bodyPreserved (hplain : running.Plain) {body : Bytes}
    (hbuffered : running.buffered = body)
    (hrefbuf : ∃ refbuf ∈ handled.refbuf, refbuf.len = body.length ∧ refbuf.data.take refbuf.len = body) :
    BodyPreserved httpp body handled running := by
  subst hbuffered
  exact ⟨hrefbuf, fun reads ↦ (hplain.readSource_buffered httpp reads).1,
    fun reads ↦ (hplain.readSource_buffered httpp reads).2⟩

/-- The buffer of a shoutcast client holds the body after `_handle_connection` if and only if moving it
a second time makes no difference. -/
theorem Node.Queued.refbuf_shoutcast_iff (hqueued : node.Queued refbuf) (hshoutcast : node.shoutcast = 2)
    (hle : node.streamOffset ≤ node.offset)
    (h : handleConnection httpp config node = .continued handled) :
    (∃ after ∈ handled.refbuf, after.len = (node.body refbuf).length ∧
        after.data.take after.len = node.body refbuf) ↔
      (node.body refbuf).drop node.streamOffset <+: node.body refbuf := by
  have hoffset := hqueued.offset
  have hlength := hqueued.length
  have hbody : (node.body refbuf).length = node.offset - node.streamOffset :=
    length_body hle (by omega)
  have hmember : ∀ after, after ∈ handled.refbuf ↔ node.compact (node.compact refbuf) = after := by
    intro after
    rw [(hqueued.handled_shoutcast hshoutcast h).1, Option.mem_some_iff]
  simp only [hmember, exists_eq_left', compact_len, hbody, true_and]
  unfold Node.compact Node.body
  split
  · rename_i hsame
    simp [hsame]
  · exact take_moveToFront_twice_iff (by omega)

/-- The body of a shoutcast source is preserved if and only if nothing of it was read with the headers. -/
theorem shoutcast_body_preserved_iff (hqueued : node.Queued refbuf) (hshoutcast : node.shoutcast = 2)
    (hle : node.streamOffset ≤ node.offset)
    (hhandled : handleConnection httpp config node = .continued handled)
    (hrunning : sourceStartup httpp startup handled = .running running) :
    BodyPreserved httpp (node.body refbuf) handled running ↔ node.streamOffset = node.offset := by
  have hoffset := hqueued.offset
  have hlength := hqueued.length
  have hbody : (node.body refbuf).length = node.offset - node.streamOffset :=
    length_body hle (by omega)
  obtain ⟨hrefbuf, hprotocol, hencoding⟩ := hqueued.handled_shoutcast hshoutcast hhandled
  obtain ⟨hafter, hsame⟩ := running_shoutcast hprotocol hrunning
  -- The callback has released the buffer, and there was none behind it.
  have hnone : running.refbuf = none := by
    rw [hafter, hrefbuf, Option.bind_some, compact_associated, compact_associated, hqueued.associated]
  have hplain : running.Plain := by
    refine ⟨hsame.trans hencoding, ?_⟩
    intro after hmem
    rw [hnone] at hmem
    exact absurd hmem (Option.not_mem_none after)
  have hempty : running.buffered = [] := by
    rw [Client.buffered, hnone]
  constructor
  · intro hpreserved
    by_contra hne
    have hpos : 0 < (node.body refbuf).length := by omega
    have hread : readSource httpp running [(1, 1)] =
        (running.incoming.take 1, { running with incoming := running.incoming.drop 1 }) := by
      simp [readSource, hplain.read_socket httpp hempty, connectionReadBytes, readBytes]
    have hfirst := congrArg List.length (hpreserved.first [(1, 1)])
    have hsocket := congrArg List.length (hpreserved.socket [(1, 1)] hpos)
    rw [hread] at hfirst hsocket
    simp only [List.map_cons, List.map_nil, List.sum_cons, List.sum_nil, List.length_take,
      List.length_drop] at hfirst hsocket
    omega
  · intro heq
    have hnil : node.body refbuf = [] := by
      apply List.length_eq_zero_iff.mp
      omega
    apply hplain.bodyPreserved
    · rw [hempty, hnil]
    · rw [hqueued.refbuf_shoutcast_iff hshoutcast hle hhandled, hnil, List.drop_nil]

/-- A library that parses every request, and knows no encoding. -/
def exampleHttpp : Httpp Client where
  parse _ := some { transferEncoding := none, expect := none }
  encodingNew _ := false
  encodingRead _ reader := reader

def exampleConfig : Config where
  shoutcastMount := bytes "/stream"
  shoutcastUser := bytes "source"

/-- The mount point is free, the source can be set up, and the connection takes the whole answer. -/
def exampleStartup : Startup where
  reserved := true
  completed := true
  accepted := 20
  broken := false
  buildHeader _ := bytes "HTTP/1.0 200 OK\r\n"

def exampleText : Bytes := bytes "icy-name:s\r\n\r\nID3"

/-- The first three bytes of the stream have arrived with the headers. -/
def exampleNode : Node :=
  { createClientNode (exampleText ++ List.replicate (perClientRefbufSize - 17) 0) [] true none with
    offset := 17
    streamOffset := 14
    shoutcast := 2 }

def exampleRefbuf : Refbuf where
  data := exampleText ++ List.replicate (perClientRefbufSize - 17) 0
  len := 0
  associated := none

theorem queued_exampleNode : exampleNode.Queued exampleRefbuf := by
  have hlength : exampleRefbuf.data.length = perClientRefbufSize := by
    rw [exampleRefbuf, List.length_append, List.length_replicate]
    rfl
  exact ⟨rfl, rfl, hlength, rfl, by decide⟩

theorem shoutcast_body_preserved_iff_of_three_bytes :
    ∃ handled running, handleConnection exampleHttpp exampleConfig exampleNode = .continued handled ∧
      sourceStartup exampleHttpp exampleStartup handled = .running running ∧
      (BodyPreserved exampleHttpp (exampleNode.body exampleRefbuf) handled running ↔
        exampleNode.streamOffset = exampleNode.offset) := by
  refine ⟨_, _, rfl, rfl, ?_⟩
  exact shoutcast_body_preserved_iff queued_exampleNode rfl (by decide)
    (rfl : handleConnection exampleHttpp exampleConfig exampleNode = .continued _)
    (rfl : sourceStartup exampleHttpp exampleStartup _ = .running _)

/-- The bytes that have arrived with the headers are lost. -/
theorem shoutcast_body_lost :
    ¬ ∀ (httpp : Httpp Client) (config : Config) (startup : Startup) (node : Node) (refbuf : Refbuf)
      (handled running : Client), node.Queued refbuf → node.shoutcast = 2 →
      node.streamOffset ≤ node.offset → handleConnection httpp config node = .continued handled →
      sourceStartup httpp startup handled = .running running →
      BodyPreserved httpp (node.body refbuf) handled running := by
  intro h
  have hpreserved := h exampleHttpp exampleConfig exampleStartup exampleNode exampleRefbuf _ _
    queued_exampleNode rfl (by decide) rfl rfl
  exact absurd (hpreserved.first [(1, 1)]) (by decide)

/-- A source that does not speak the old protocol keeps its buffer. -/
theorem continued_native (hqueued : node.Queued refbuf) (hshoutcast : node.shoutcast = 0)
    (hprotocol : node.client.protocol = .http)
    (hhandled : handleConnection httpp config node = .continued handled) :
    handled.refbuf = some (node.compact refbuf) ∧ handled.protocol = .http ∧
      handled.encoding = none := by
  simp only [handleConnection, hshoutcast, ne_eq, not_true, if_false] at hhandled
  split at hhandled
  · cases hhandled
  · rw [← Handled.continued.inj hhandled]
    refine ⟨?_, hprotocol, hqueued.encoding⟩
    simp only [hqueued.holds, Option.map_some]

/-- The answer to such a source leaves the buffer, and decodes nothing if the encoding is the identity. -/
theorem running_native (hhttp : handled.protocol = .http) (hencoding : handled.encoding = none)
    (hidentity : ∀ parser ∈ handled.parser, ∀ encoding ∈ parser.transferEncoding,
      encoding.map toLower = bytes "identity")
    (hrunning : answered startup (sourceStartup httpp startup handled) = .running running) :
    running.refbuf = handled.refbuf ∧ running.encoding = none := by
  unfold sourceStartup at hrunning
  split at hrunning
  · cases hrunning
  · split at hrunning
    · cases hrunning
    · rw [hhttp] at hrunning
      cases hparser : handled.parser with
      | none =>
        rw [hparser] at hrunning
        cases hrunning
      | some parser =>
        rw [hparser] at hrunning
        have hanswer : answered startup (.answering (answerSource startup parser handled)) =
            .running running := by
          dsimp only at hrunning
          split at hrunning
          · exact hrunning
          · rename_i encoding htransfer
            rw [if_pos (hidentity parser hparser encoding htransfer)] at hrunning
            exact hrunning
        obtain ⟨hbehind, hsame⟩ := running_callback hanswer
        exact ⟨hbehind, hsame.trans hencoding⟩

/-- Other sources get what was read with their headers, if it is not encoded. -/
theorem native_body_preserved (hqueued : node.Queued refbuf) (hshoutcast : node.shoutcast = 0)
    (hprotocol : node.client.protocol = .http) (hle : node.streamOffset ≤ node.offset)
    (hhandled : handleConnection httpp config node = .continued handled)
    (hidentity : ∀ parser ∈ handled.parser, ∀ encoding ∈ parser.transferEncoding,
      encoding.map toLower = bytes "identity")
    (hrunning : answered startup (sourceStartup httpp startup handled) = .running running) :
    BodyPreserved httpp (node.body refbuf) handled running := by
  have hoffset := hqueued.offset
  have hlength := hqueued.length
  obtain ⟨hrefbuf, hhttp, hencoding⟩ := continued_native hqueued hshoutcast hprotocol hhandled
  have hafter := running_native hhttp hencoding hidentity hrunning
  have hplain : running.Plain := by
    refine ⟨hafter.2, ?_⟩
    intro after hmem
    rw [hafter.1, hrefbuf, Option.mem_some_iff] at hmem
    rw [← hmem, compact_len]
    unfold Node.compact
    split
    · dsimp only
      omega
    · dsimp only
      rw [length_moveToFront (by omega)]
      omega
  have hholds : (node.compact refbuf).data.take (node.compact refbuf).len = node.body refbuf :=
    take_compact hle (by omega)
  apply hplain.bodyPreserved
  · rw [Client.buffered, hafter.1, hrefbuf]
    exact hholds
  · refine ⟨node.compact refbuf, hrefbuf, ?_, hholds⟩
    rw [compact_len, length_body hle (by omega)]

end Body

end Icecast.Connection.Shoutcast
