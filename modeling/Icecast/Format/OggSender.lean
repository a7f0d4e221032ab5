import Icecast.Lib.Machine
import Icecast.Lib.Socket

/-!
# Ogg pages towards a listener

The sending half of `format_ogg.c`. Every buffer of the queue holds one page and refers to the
header pages in force when it was made; a listener is sent these once before the first buffer that
refers to them. Several fields remember how far a listener has come: `headers` is the list it
completed last, `header_page` and `pos` are where it stands in the list being sent.

The bytes accepted by the socket are exactly the pages due, in order, as long as no header page is
accepted in part. A header page of which only a part is accepted is sent again from its start,
because `pos` is advanced only behind the test for a short write.
-/

namespace Icecast.Format.OggSender

open Lib.Machine Lib.Socket

abbrev Bytes := List UInt8

/-- A page of the queue. `associated` is the address of its first header page. An Ogg page has a
header of its own, so it is never empty, and it has at most 65307 bytes, so the conversion of its
length to `int` is exact. -/
structure Refbuf where
  data : Bytes
  associated : Option ℕ
  nonempty : data ≠ []
  deriving DecidableEq

/-- `struct ogg_client`; the position `header_page` is the part of the list still linked behind it. -/
structure OggClient where
  headers : Option ℕ
  headerPage : List Bytes
  pos : ℕ
  headersSent : Bool
  deriving DecidableEq

/-- A listener on the queue. `ahead` are the buffers linked behind `refbuf`; `finished` records the
buffers the listener has left. -/
structure Listener where
  conn : Conn UInt8
  refbuf : Refbuf
  ahead : List Refbuf
  pos : ℕ
  oggClient : OggClient
  finished : List Refbuf
  deriving DecidableEq

/-- The header pages linked behind an address; there are none behind `NULL`. -/
def pagesOf (pages : ℕ → List Bytes) : Option ℕ → List Bytes
  | none => []
  | some addr => pages addr

/-- The loop of `send_ogg_headers`, from the page `header_page` points to. -/
def sendPages (conn : Conn UInt8) (client : OggClient) (written : ℤ) :
    List Bytes → ℤ × Conn UInt8 × OggClient
  | [] => (written, conn, { client with headerPage := [], headersSent := true })
  | page :: rest =>
    let (ret, conn) := conn.write (page.drop client.pos)
    let written := if 0 < ret then written + ret else written
    if ret < (page.length : ℤ) - client.pos then
      (if written ≠ 0 then written else -1, conn, { client with headerPage := page :: rest })
    else sendPages conn { client with headerPage := rest, pos := 0 } written rest

def sendOggHeaders (pages : ℕ → List Bytes) (conn : Conn UInt8) (client : OggClient)
    (headers : Option ℕ) : ℤ × Conn UInt8 × OggClient :=
  let client :=
    if client.headersSent then
      { client with headerPage := pagesOf pages headers, pos := 0, headersSent := false }
    else client
  let (written, conn, client) := sendPages conn client 0 client.headerPage
  if client.headersSent then (written, conn, { client with headers := headers })
  else (written, conn, client)

/-- The page itself, behind the headers. -/
def writePage (l : Listener) (written : ℤ) : ℤ × Listener :=
  let (ret, conn) := l.conn.write (l.refbuf.data.drop l.pos)
  let l := { l with conn := conn, pos := if 0 < ret then l.pos + ret.toNat else l.pos }
  (if 0 < ret then written + ret else written, l)

def writeBufToClient (pages : ℕ → List Bytes) (l : Listener) : ℤ × Listener :=
  if l.oggClient.headers ≠ l.refbuf.associated then
    let (ret, conn, client) := sendOggHeaders pages l.conn l.oggClient l.refbuf.associated
    let l := { l with conn := conn, oggClient := client }
    if client.headersSent = false then (if 0 < ret then ret else 0, l)
    else writePage l ret
  else writePage l 0

def formatAdvanceQueue (l : Listener) : ℤ × Listener :=
  match l.ahead with
  | [] => if l.pos = l.refbuf.data.length then (-1, l) else (0, l)
  | next :: rest =>
    if l.pos = l.refbuf.data.length then
      (0, { l with refbuf := next, ahead := rest, pos := 0, finished := l.finished ++ [l.refbuf] })
    else (0, l)

/-- One turn of the loop in `send_to_listener`. -/
def sendToListener (pages : ℕ → List Bytes) (l : Listener) : Listener :=
  let (ret, l) := formatAdvanceQueue l
  if ret < 0 then l else (writeBufToClient pages l).2

inductive Event where
  | turn
  | append (refbuf : Refbuf)
  deriving DecidableEq

def step (pages : ℕ → List Bytes) (l : Listener) : Event → Listener
  | .turn => sendToListener pages l
  | .append refbuf => { l with ahead := l.ahead ++ [refbuf] }

/-- `create_ogg_client_data`, for a listener placed at the buffer `first` of the queue. -/
def startListener (outcomes : List WriteOutcome) (first : Refbuf) (ahead : List Refbuf) :
    Listener where
  conn := ⟨outcomes, []⟩
  refbuf := first
  ahead := ahead
  pos := 0
  oggClient := ⟨none, [], 0, true⟩
  finished := []

/-! ## What is due -/

/-- What a listener is owed for one buffer, after completing the headers `last`. -/
def unit (pages : ℕ → List Bytes) (last : Option ℕ) (refbuf : Refbuf) : Bytes :=
  (if last ≠ refbuf.associated then (pagesOf pages refbuf.associated).flatten else []) ++
    refbuf.data

/-- What it is owed for a sequence of buffers: headers once, whenever they change, and each page. -/
def delivery (pages : ℕ → List Bytes) : Option ℕ → List Refbuf → Bytes
  | _, [] => []
  | last, refbuf :: rest => unit pages last refbuf ++ delivery pages refbuf.associated rest

/-- The header pages still to be sent before the current buffer. -/
def pagesDue (pages : ℕ → List Bytes) (l : Listener) : List Bytes :=
  if l.oggClient.headers = l.refbuf.associated then []
  else if l.oggClient.headersSent then pagesOf pages l.refbuf.associated
  else l.oggClient.headerPage

def unsent (pages : ℕ → List Bytes) (l : Listener) : Bytes :=
  (pagesDue pages l).flatten ++ l.refbuf.data.drop l.pos

/-- Writing these pages one after the other, the socket takes each of them whole until it takes
nothing or fails. -/
def TakesWholePages : List WriteOutcome → List Bytes → Prop
  | .accept limit :: outcomes, page :: rest =>
    if page.length ≤ limit then TakesWholePages outcomes rest else limit = 0
  | _, _ => True

instance TakesWholePages.decidable : ∀ (outcomes : List WriteOutcome) (due : List Bytes),
    Decidable (TakesWholePages outcomes due)
  | .accept limit :: outcomes, page :: rest =>
    have := TakesWholePages.decidable outcomes rest
    inferInstanceAs (Decidable (if page.length ≤ limit then _ else limit = 0))
  | [], _ => .isTrue (by simp [TakesWholePages])
  | .fail :: _, _ => .isTrue (by simp [TakesWholePages])
  | .accept _ :: _, [] => .isTrue (by simp [TakesWholePages])

/-- No turn leaves a header page accepted in part. -/
def WholeHeaderPages (pages : ℕ → List Bytes) (l : Listener) : Event → Prop
  | .turn => TakesWholePages l.conn.outcomes (pagesDue pages (formatAdvanceQueue l).2)
  | .append _ => True

instance (pages : ℕ → List Bytes) : ∀ (l : Listener) (event : Event),
    Decidable (WholeHeaderPages pages l event)
  | _, .turn => inferInstanceAs (Decidable (TakesWholePages _ _))
  | _, .append _ => .isTrue trivial

/-! ## Sending the header pages -/

theorem write_page_cases {conn : Conn UInt8} {page : Bytes} {rest : List Bytes}
    (hwhole : TakesWholePages conn.outcomes (page :: rest)) :
    ((conn.write page).1 < page.length ∧ (conn.write page).2.sent = conn.sent) ∨
      ((conn.write page).1 = page.length ∧ (conn.write page).2.sent = conn.sent ++ page ∧
        TakesWholePages (conn.write page).2.outcomes rest) := by
  unfold Conn.write
  split
  · exact .inl ⟨by dsimp only; omega, rfl⟩
  · exact .inl ⟨by dsimp only; omega, rfl⟩
  · rename_i limit outcomes houtcomes
    rw [houtcomes, TakesWholePages] at hwhole
    dsimp only
    by_cases hfits : page.length ≤ limit
    · rw [if_pos hfits] at hwhole
      rw [List.take_of_length_le hfits]
      exact .inr ⟨by omega, rfl, hwhole⟩
    · rw [if_neg hfits] at hwhole
      subst hwhole
      exact .inl ⟨by omega, by simp⟩

/-- The loop ends behind the last page, or in front of a page of which nothing was accepted. -/
theorem sendPages_spec (due : List Bytes) (conn : Conn UInt8) (client : OggClient) (written : ℤ)
    (hpos : client.pos = 0) (hunfinished : client.headersSent = false)
    (hwhole : TakesWholePages conn.outcomes due) :
    ∃ (left : List Bytes) (conn' : Conn UInt8) (client' : OggClient),
      (sendPages conn client written due).2 = (conn', client') ∧
      conn.sent ++ due.flatten = conn'.sent ++ left.flatten ∧
      client'.headers = client.headers ∧ client'.headerPage = left ∧ client'.pos = 0 ∧
      (client'.headersSent = true ↔ left = []) := by
  induction due generalizing conn client written with
  | nil => exact ⟨[], conn, _, rfl, rfl, rfl, rfl, hpos, by simp⟩
  | cons page rest ih =>
    simp only [sendPages, hpos, List.drop_zero, Nat.cast_zero, sub_zero]
    rcases write_page_cases hwhole with ⟨hshort, hsent⟩ | ⟨hfull, hsent, hrest⟩
    · rw [if_pos hshort]
      exact ⟨page :: rest, _, _, rfl, by rw [hsent], rfl, rfl, rfl, by simp [hunfinished]⟩
    · rw [if_neg (by omega)]
      obtain ⟨left, conn', client', hstate, hleft, hclient⟩ :=
        ih (conn.write page).2 { client with headerPage := rest, pos := 0 } _ rfl hunfinished hrest
      refine ⟨left, conn', client', hstate, ?_, hclient⟩
      rw [← hleft, hsent, List.flatten_cons, List.append_assoc]

/-- One call of `send_ogg_headers`, where `due` are the pages it would send. -/
theorem sendOggHeaders_spec (pages : ℕ → List Bytes) (conn : Conn UInt8) (client : OggClient)
    (headers : Option ℕ) {due : List Bytes}
    (hdue : due = if client.headersSent then pagesOf pages headers else client.headerPage)
    (hpos : client.pos = 0) (hwhole : TakesWholePages conn.outcomes due) :
    ∃ (left : List Bytes) (conn' : Conn UInt8) (client' : OggClient),
      (sendOggHeaders pages conn client headers).2 = (conn', client') ∧
      conn.sent ++ due.flatten = conn'.sent ++ left.flatten ∧ client'.pos = 0 ∧
      ((left = [] ∧ client'.headersSent = true ∧ client'.headers = headers) ∨
        (client'.headersSent = false ∧ client'.headers = client.headers ∧
          client'.headerPage = left)) := by
  set begun : OggClient :=
    if client.headersSent then
      { client with headerPage := pagesOf pages headers, pos := 0, headersSent := false }
    else client with hbegun
  have hbegunFields : begun.headerPage = due ∧ begun.pos = 0 ∧ begun.headersSent = false ∧
      begun.headers = client.headers := by
    rw [hbegun, hdue]
    split
    · exact ⟨rfl, rfl, rfl, rfl⟩
    · rename_i hnot
      exact ⟨rfl, hpos, by simpa using hnot, rfl⟩
  obtain ⟨hpage, hbegunPos, hunfinished, hheaders⟩ := hbegunFields
  obtain ⟨left, conn', client', hstate, hsent, hkept, hleft, hpos', hdone⟩ :=
    sendPages_spec due conn begun 0 hbegunPos hunfinished hwhole
  simp only [sendOggHeaders, ← hbegun, hpage, hstate]
  by_cases hall : left = []
  · rw [if_pos (hdone.mpr hall)]
    exact ⟨left, conn', _, rfl, hsent, hpos', .inl ⟨hall, hdone.mpr hall, rfl⟩⟩
  · have hopen : client'.headersSent = false := by
      by_contra hnot
      exact hall (hdone.mp (by simpa using hnot))
    simp only [hopen, Bool.false_eq_true, if_false]
    exact ⟨left, conn', _, rfl, hsent, hpos', .inr ⟨hopen, hkept.trans hheaders, hleft⟩⟩

/-! ## The invariant -/

structure Inv (pages : ℕ → List Bytes) (l : Listener) : Prop where
  pos_le : l.pos ≤ l.refbuf.data.length
  header_pos : l.oggClient.pos = 0
  completed : 0 < l.pos → l.oggClient.headers = l.refbuf.associated
  unfinished : l.oggClient.headersSent = false → l.oggClient.headers ≠ l.refbuf.associated
  delivered : delivery pages none (l.finished ++ [l.refbuf]) = l.conn.sent ++ unsent pages l

theorem delivery_append (pages : ℕ → List Bytes) (last : Option ℕ) (front : List Refbuf)
    (current next : Refbuf) :
    delivery pages last (front ++ [current] ++ [next]) =
      delivery pages last (front ++ [current]) ++ unit pages current.associated next := by
  induction front generalizing last with
  | nil => simp [delivery]
  | cons refbuf front ih =>
    simp only [List.cons_append, delivery]
    rw [ih, List.append_assoc]

variable {pages : ℕ → List Bytes} {l : Listener}

theorem Inv.unsent_eq_nil (inv : Inv pages l) (hend : l.pos = l.refbuf.data.length) :
    unsent pages l = [] := by
  have hpos : 0 < l.pos := by
    rw [hend]
    exact List.length_pos_iff.mpr l.refbuf.nonempty
  simp [unsent, pagesDue, inv.completed hpos, hend]

theorem Inv.formatAdvanceQueue (inv : Inv pages l) :
    Inv pages (OggSender.formatAdvanceQueue l).2 := by
  unfold OggSender.formatAdvanceQueue
  split
  · split <;> exact inv
  · rename_i next rest _
    split
    · rename_i hend
      have hpos : 0 < l.pos := by
        rw [hend]
        exact List.length_pos_iff.mpr l.refbuf.nonempty
      have hheaders := inv.completed hpos
      have hsent : l.oggClient.headersSent = true := by
        by_contra hnot
        exact inv.unfinished (by simpa using hnot) hheaders
      refine ⟨Nat.zero_le _, inv.header_pos, ?_, ?_, ?_⟩
      · intro h
        exact absurd h (Nat.lt_irrefl 0)
      · intro h
        exact absurd (hsent.symm.trans h) (by decide)
      · rw [delivery_append, inv.delivered, inv.unsent_eq_nil hend, List.append_nil]
        simp only [unsent, pagesDue, unit, hheaders, hsent, List.drop_zero]
        split <;> simp_all
    · exact inv

theorem Inv.writePage (inv : Inv pages l) (hheaders : l.oggClient.headers = l.refbuf.associated)
    (written : ℤ) : Inv pages (OggSender.writePage l written).2 := by
  obtain ⟨hlow, hhigh, hsent⟩ := l.conn.write_spec (l.refbuf.data.drop l.pos)
  have hpos := inv.pos_le
  rw [List.length_drop] at hhigh
  simp only [OggSender.writePage]
  set ret := (l.conn.write (l.refbuf.data.drop l.pos)).1
  have hnext : (if 0 < ret then l.pos + ret.toNat else l.pos) = l.pos + ret.toNat := by
    split <;> omega
  rw [hnext]
  refine ⟨by dsimp only; omega, inv.header_pos, fun _ ↦ hheaders, inv.unfinished, ?_⟩
  have hdelivered := inv.delivered
  simp only [unsent, pagesDue, hheaders, if_true, List.flatten_nil, List.nil_append] at hdelivered ⊢
  rw [hsent, hdelivered, List.append_assoc, ← List.drop_drop, List.take_append_drop]

theorem Inv.writeBufToClient (inv : Inv pages l)
    (hwhole : TakesWholePages l.conn.outcomes (pagesDue pages l)) :
    Inv pages (OggSender.writeBufToClient pages l).2 := by
  unfold OggSender.writeBufToClient
  split
  · rename_i hchanged
    have hpos : l.pos = 0 := by
      by_contra hne
      exact hchanged (inv.completed (Nat.pos_of_ne_zero hne))
    have hdue : pagesDue pages l = if l.oggClient.headersSent then
        pagesOf pages l.refbuf.associated else l.oggClient.headerPage := by
      simp [pagesDue, hchanged]
    obtain ⟨left, conn', client', hstate, hsent, hpos', hcases⟩ :=
      sendOggHeaders_spec pages l.conn l.oggClient l.refbuf.associated hdue inv.header_pos hwhole
    have hdelivered := inv.delivered
    rw [unsent, ← List.append_assoc, hsent, List.append_assoc] at hdelivered
    simp only [hstate]
    rcases hcases with ⟨rfl, hdone, hheaders⟩ | ⟨hopen, hheaders, hleft⟩
    · simp only [hdone, Bool.true_eq_false, if_false]
      apply Inv.writePage (l := { l with conn := conn', oggClient := client' }) _ hheaders
      refine ⟨inv.pos_le, hpos', fun _ ↦ hheaders, ?_, ?_⟩
      · intro h
        exact absurd (hdone.symm.trans h) (by decide)
      · simpa [unsent, pagesDue, hheaders] using hdelivered
    · simp only [hopen, if_true]
      refine ⟨inv.pos_le, hpos', ?_, ?_, ?_⟩
      · intro h
        exact absurd h (by dsimp only; omega)
      · intro _
        rw [hheaders]
        exact hchanged
      · simpa [unsent, pagesDue, hheaders, hchanged, hopen, hleft] using hdelivered
  · rename_i hsame
    exact inv.writePage (by simpa using hsame) 0

theorem formatAdvanceQueue_conn (l : Listener) : (formatAdvanceQueue l).2.conn = l.conn := by
  unfold formatAdvanceQueue
  split
  · split <;> rfl
  · split <;> rfl

theorem Inv.step (inv : Inv pages l) {event : Event} (hwhole : WholeHeaderPages pages l event) :
    Inv pages (step pages l event) := by
  cases event with
  | turn =>
    simp only [OggSender.step, sendToListener]
    split
    · exact inv.formatAdvanceQueue
    · apply inv.formatAdvanceQueue.writeBufToClient
      rw [formatAdvanceQueue_conn]
      exact hwhole
  | append refbuf =>
    exact ⟨inv.pos_le, inv.header_pos, inv.completed, inv.unfinished, inv.delivered⟩

theorem inv_startListener (outcomes : List WriteOutcome) (first : Refbuf) (ahead : List Refbuf) :
    Inv pages (startListener outcomes first ahead) := by
  refine ⟨Nat.zero_le _, rfl, ?_, ?_, ?_⟩
  · intro h
    exact absurd h (Nat.lt_irrefl 0)
  · intro h
    cases h
  · simp only [startListener, delivery, unit, unsent, pagesDue, List.nil_append, List.append_nil,
      List.drop_zero]
    split <;> simp_all

/-- The buffers linked to the queue by a list of events. -/
def appended (events : List Event) : List Refbuf :=
  events.filterMap fun
    | .turn => none
    | .append refbuf => some refbuf

/-- A turn changes neither the buffers of the queue nor their order. -/
theorem sendToListener_queue (pages : ℕ → List Bytes) (l : Listener) :
    let next := sendToListener pages l
    next.finished ++ next.refbuf :: next.ahead = l.finished ++ l.refbuf :: l.ahead := by
  have hwrite (l : Listener) : let next := (writeBufToClient pages l).2
      next.finished = l.finished ∧ next.refbuf = l.refbuf ∧ next.ahead = l.ahead := by
    simp only [writeBufToClient]
    split
    · split <;> exact ⟨rfl, rfl, rfl⟩
    · exact ⟨rfl, rfl, rfl⟩
  have hadvance : let next := (formatAdvanceQueue l).2
      next.finished ++ next.refbuf :: next.ahead = l.finished ++ l.refbuf :: l.ahead := by
    simp only [formatAdvanceQueue]
    split
    · split <;> rfl
    · rename_i next rest hahead
      split <;> simp [hahead]
  simp only [sendToListener]
  split
  · exact hadvance
  · obtain ⟨hfinished, hrefbuf, hahead⟩ := hwrite (formatAdvanceQueue l).2
    rw [hfinished, hrefbuf, hahead]
    exact hadvance

theorem run_queue (pages : ℕ → List Bytes) (events : List Event) (l : Listener) :
    let final := run (step pages) l events
    final.finished ++ final.refbuf :: final.ahead =
      l.finished ++ l.refbuf :: l.ahead ++ appended events := by
  induction events generalizing l with
  | nil => simp [appended]
  | cons event events ih =>
    have htail := ih (step pages l event)
    simp only [run_cons] at htail ⊢
    rw [htail]
    cases event with
    | turn =>
      have hturn := sendToListener_queue pages l
      simp only [step]
      rw [hturn]
      rfl
    | append refbuf => simp [step, appended]

/-- In every state of a run in which no header page is accepted in part, the accepted bytes and
what is still owed for the current buffer make up the delivery of all buffers so far, nothing is
owed any more when the listener leaves a buffer, and the buffers are those of the queue. -/
theorem ogg_delivery_of_whole_header_pages (pages : ℕ → List Bytes) (outcomes : List WriteOutcome)
    (first : Refbuf) (ahead : List Refbuf) (events : List Event)
    (hwhole : Guarded (step pages) (WholeHeaderPages pages)
      (startListener outcomes first ahead) events) :
    let l := run (step pages) (startListener outcomes first ahead) events
    delivery pages none (l.finished ++ [l.refbuf]) = l.conn.sent ++ unsent pages l ∧
      (l.pos = l.refbuf.data.length → unsent pages l = []) ∧
      l.finished ++ l.refbuf :: l.ahead = first :: ahead ++ appended events := by
  have inv := run_invariant_of_guarded (step pages) (Inv pages)
    (fun _ _ inv hwhole ↦ inv.step hwhole)
    events (inv_startListener outcomes first ahead) hwhole
  exact ⟨inv.delivered, inv.unsent_eq_nil, run_queue pages events _⟩

/-! ## A header page accepted in part -/

/-- One header page of thirty bytes, and a page of the stream that refers to it. -/
def headerPage : Bytes := [79, 103, 103, 83, 0, 2] ++ List.replicate 24 7
def headerPages : ℕ → List Bytes := fun _ ↦ [headerPage]
def streamPage : Refbuf := ⟨[79, 103, 103, 83, 0, 0] ++ List.replicate 24 8, some 1, by decide⟩

/-- The socket takes ten bytes of the header page at first and everything afterwards. -/
def shortWriteRun : Listener :=
  run (step headerPages) (startListener [.accept 10, .accept 30, .accept 30] streamPage [])
    [.turn, .turn]

/-- The ten bytes are sent again, so what the listener receives is no part of what it is owed. -/
theorem not_ogg_delivery_of_short_header_write :
    shortWriteRun.conn.sent = headerPage.take 10 ++ headerPage ++ streamPage.data ∧
      ¬ shortWriteRun.conn.sent <+:
        delivery headerPages none (shortWriteRun.finished ++ [shortWriteRun.refbuf]) := by
  decide +kernel

/-- A header page refused at first and a short write of the page behind it are both resumed. -/
theorem ogg_delivery_resumed :
    let l := run (step headerPages)
      (startListener [.fail, .accept 30, .accept 10, .accept 30] streamPage [])
      [.turn, .turn, .turn]
    l.conn.sent = headerPage ++ streamPage.data ∧
    delivery headerPages none (l.finished ++ [l.refbuf]) = l.conn.sent ++ unsent headerPages l ∧
      (l.pos = l.refbuf.data.length → unsent headerPages l = []) ∧
      l.finished ++ l.refbuf :: l.ahead = streamPage :: [] ++ appended [.turn, .turn, .turn] :=
  ⟨by decide +kernel,
    ogg_delivery_of_whole_header_pages headerPages _ streamPage [] _ (by decide +kernel)⟩

end Icecast.Format.OggSender
