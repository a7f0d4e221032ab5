import Icecast.Lib.Machine
import Icecast.Lib.Socket

/-!
# WebM streams towards a listener

The sending half of `format_ebml.c`. A listener is given the header of the stream first, in slices
and over as many calls as its socket needs; `header_pos` remembers how far it has come. With the
header complete the listener is handed over to the generic writer, which sends the buffers of the
queue.
-/

namespace Icecast.Format.EbmlSender

open Lib.Machine Lib.Socket

abbrev Bytes := List UInt8

/-- `EBML_SLICE_SIZE` -/
def ebmlSliceSize : ℕ := 4096

/-- The functions `client->write_to_client` points to. -/
inductive Writer where
  | ebmlWriteBufToClient
  | formatGenericWriteToClient
  deriving DecidableEq

/-- A listener on the queue, with the fields of its `ebml_client_data`. `ahead` are the buffers
linked behind `refbuf`; `finished` records the buffers the listener has left. -/
structure Listener where
  conn : Conn UInt8
  refbuf : Bytes
  ahead : List Bytes
  pos : ℕ
  header : Bytes
  headerPos : ℕ
  writeToClient : Writer
  finished : List Bytes
  deriving DecidableEq

/-- How many bytes `send_ebml_header` offers to the socket. -/
def sliceLen (l : Listener) : ℕ :=
  if l.header.length - l.headerPos < ebmlSliceSize then l.header.length - l.headerPos
  else ebmlSliceSize

def sendEbmlHeader (l : Listener) : ℤ × Listener :=
  let (ret, conn) := l.conn.write ((l.header.drop l.headerPos).take (sliceLen l))
  let headerPos := if 0 < ret then l.headerPos + ret.toNat else l.headerPos
  (ret, { l with conn := conn, headerPos := headerPos })

def formatGenericWriteToClient (l : Listener) : ℤ × Listener :=
  let (ret, conn) := l.conn.write (l.refbuf.drop l.pos)
  (ret, { l with conn := conn, pos := if 0 < ret then l.pos + ret.toNat else l.pos })

def ebmlWriteBufToClient (l : Listener) : ℤ × Listener :=
  if l.headerPos ≠ l.header.length then sendEbmlHeader l
  else formatGenericWriteToClient { l with writeToClient := .formatGenericWriteToClient }

def writeToClient (l : Listener) : ℤ × Listener :=
  match l.writeToClient with
  | .ebmlWriteBufToClient => ebmlWriteBufToClient l
  | .formatGenericWriteToClient => formatGenericWriteToClient l

def formatAdvanceQueue (l : Listener) : ℤ × Listener :=
  match l.ahead with
  | [] => if l.pos = l.refbuf.length then (-1, l) else (0, l)
  | next :: rest =>
    if l.pos = l.refbuf.length then
      (0, { l with refbuf := next, ahead := rest, pos := 0, finished := l.finished ++ [l.refbuf] })
    else (0, l)

/-- One turn of the loop in `send_to_listener`. -/
def sendToListener (l : Listener) : Listener :=
  let (ret, l) := formatAdvanceQueue l
  if ret < 0 then l else (writeToClient l).2

inductive Event where
  | turn
  | append (refbuf : Bytes)
  deriving DecidableEq

def step (l : Listener) : Event → Listener
  | .turn => sendToListener l
  | .append refbuf => { l with ahead := l.ahead ++ [refbuf] }

/-- `ebml_create_client_data`, for a listener placed at the buffer `first` of the queue. -/
def startListener (header : Bytes) (outcomes : List WriteOutcome) (first : Bytes)
    (ahead : List Bytes) : Listener where
  conn := ⟨outcomes, []⟩
  refbuf := first
  ahead := ahead
  pos := 0
  header := header
  headerPos := 0
  writeToClient := .ebmlWriteBufToClient
  finished := []

/-! ## What is due -/

/-- The buffers of the queue the listener has passed, is at, or will come to. -/
def queue (l : Listener) : List Bytes := l.finished ++ l.refbuf :: l.ahead

/-- What is still to be sent: the rest of the header, of the current buffer, and all behind it. -/
def unsent (l : Listener) : Bytes :=
  l.header.drop l.headerPos ++ l.refbuf.drop l.pos ++ l.ahead.flatten

/-- The accepted bytes and the unsent ones are the header once and every buffer once. No buffer is
begun before the header is complete, and only then does the generic writer take over. -/
structure Inv (l : Listener) : Prop where
  pos_le : l.pos ≤ l.refbuf.length
  headerPos_le : l.headerPos ≤ l.header.length
  header_first : l.headerPos < l.header.length → l.pos = 0 ∧ l.finished.flatten = []
  generic : l.writeToClient = .formatGenericWriteToClient → l.headerPos = l.header.length
  delivered : l.conn.sent ++ unsent l = l.header ++ (queue l).flatten

theorem inv_startListener (header : Bytes) (outcomes : List WriteOutcome) (first : Bytes)
    (ahead : List Bytes) : Inv (startListener header outcomes first ahead) where
  pos_le := Nat.zero_le _
  headerPos_le := Nat.zero_le _
  header_first _ := ⟨rfl, rfl⟩
  generic h := by cases h
  delivered := by simp [startListener, unsent, queue]

/-! ## One call -/

theorem sliceLen_le (l : Listener) : sliceLen l ≤ l.header.length - l.headerPos := by
  unfold sliceLen
  split <;> omega

theorem sliceLen_pos {l : Listener} (h : l.headerPos < l.header.length) : 0 < sliceLen l := by
  unfold sliceLen ebmlSliceSize
  split <;> omega

/-- A position after a write, whatever the write returned. -/
theorem advanced_pos (pos : ℕ) (ret : ℤ) :
    (if 0 < ret then pos + ret.toNat else pos) = pos + ret.toNat := by
  split <;> omega

variable {l : Listener}

theorem Inv.sendEbmlHeader (inv : Inv l) (hopen : l.headerPos ≠ l.header.length) :
    Inv (EbmlSender.sendEbmlHeader l).2 := by
  obtain ⟨hlow, hhigh, hsent⟩ :=
    l.conn.write_spec ((l.header.drop l.headerPos).take (sliceLen l))
  have hslice := sliceLen_le l
  have hpos := inv.headerPos_le
  obtain ⟨hstart, hnone⟩ := inv.header_first (by omega)
  simp only [EbmlSender.sendEbmlHeader, advanced_pos]
  set ret := (l.conn.write ((l.header.drop l.headerPos).take (sliceLen l))).1
  rw [List.length_take, List.length_drop] at hhigh
  refine ⟨inv.pos_le, by dsimp only; omega, fun _ ↦ ⟨hstart, hnone⟩, ?_, ?_⟩
  · intro hgeneric
    exact absurd (inv.generic hgeneric) hopen
  · have hdelivered := inv.delivered
    have hcut : (l.header.drop l.headerPos).take ret.toNat ++
        (l.header.drop (l.headerPos + ret.toNat)) = l.header.drop l.headerPos := by
      rw [← List.drop_drop, List.take_append_drop]
    have htake : ((l.header.drop l.headerPos).take (sliceLen l)).take ret.toNat =
        (l.header.drop l.headerPos).take ret.toNat := by
      rw [List.take_take, Nat.min_eq_left (by omega)]
    rw [htake] at hsent
    simp only [unsent, queue] at hdelivered ⊢
    rw [← hcut] at hdelivered
    rw [← hdelivered, hsent]
    simp only [List.append_assoc]

theorem Inv.formatGenericWriteToClient (inv : Inv l) (hdone : l.headerPos = l.header.length) :
    Inv (EbmlSender.formatGenericWriteToClient l).2 := by
  obtain ⟨hlow, hhigh, hsent⟩ := l.conn.write_spec (l.refbuf.drop l.pos)
  have hpos := inv.pos_le
  simp only [EbmlSender.formatGenericWriteToClient, advanced_pos]
  set ret := (l.conn.write (l.refbuf.drop l.pos)).1
  rw [List.length_drop] at hhigh
  refine ⟨by dsimp only; omega, inv.headerPos_le, ?_, fun _ ↦ hdone, ?_⟩
  · intro hopen
    exact absurd hopen (by dsimp only; omega)
  · have hdelivered := inv.delivered
    have hcut : (l.refbuf.drop l.pos).take ret.toNat ++ l.refbuf.drop (l.pos + ret.toNat) =
        l.refbuf.drop l.pos := by
      rw [← List.drop_drop, List.take_append_drop]
    simp only [unsent, queue, hdone, List.drop_length, List.nil_append] at hdelivered ⊢
    rw [← hcut] at hdelivered
    rw [← hdelivered, hsent]
    simp only [List.append_assoc]

theorem Inv.writeToClient (inv : Inv l) : Inv (EbmlSender.writeToClient l).2 := by
  unfold EbmlSender.writeToClient
  split
  · unfold ebmlWriteBufToClient
    split
    · rename_i hopen
      exact inv.sendEbmlHeader hopen
    · rename_i hdone
      have hdone : l.headerPos = l.header.length := by simpa using hdone
      exact Inv.formatGenericWriteToClient
        ⟨inv.pos_le, inv.headerPos_le, inv.header_first, fun _ ↦ hdone, inv.delivered⟩ hdone
  · rename_i hgeneric
    exact inv.formatGenericWriteToClient (inv.generic hgeneric)

theorem Inv.formatAdvanceQueue (inv : Inv l) : Inv (EbmlSender.formatAdvanceQueue l).2 := by
  unfold EbmlSender.formatAdvanceQueue
  split
  · split <;> exact inv
  · rename_i next rest hahead
    split
    · rename_i hend
      refine ⟨Nat.zero_le _, inv.headerPos_le, ?_, inv.generic, ?_⟩
      · intro hopen
        -- only an empty buffer is left before the header is complete
        obtain ⟨hstart, hnone⟩ := inv.header_first hopen
        have hempty : l.refbuf = [] := List.length_eq_zero_iff.mp (by omega)
        exact ⟨rfl, by simp [hnone, hempty]⟩
      · have hdelivered := inv.delivered
        simpa [unsent, queue, hend, hahead] using hdelivered
    · exact inv

theorem Inv.step (inv : Inv l) (event : Event) : Inv (step l event) := by
  cases event with
  | turn =>
    simp only [EbmlSender.step, sendToListener]
    split
    · exact inv.formatAdvanceQueue
    · exact inv.formatAdvanceQueue.writeToClient
  | append refbuf =>
    refine ⟨inv.pos_le, inv.headerPos_le, inv.header_first, inv.generic, ?_⟩
    have hunsent : unsent (EbmlSender.step l (.append refbuf)) = unsent l ++ refbuf := by
      simp [EbmlSender.step, unsent]
    have hqueue : queue (EbmlSender.step l (.append refbuf)) = queue l ++ [refbuf] := by
      simp [EbmlSender.step, queue]
    rw [hunsent, hqueue, ← List.append_assoc]
    simp only [EbmlSender.step]
    rw [inv.delivered]
    simp

/-- The buffers linked to the queue by a list of events. -/
def appended (events : List Event) : List Bytes :=
  events.filterMap fun
    | .turn => none
    | .append refbuf => some refbuf

theorem writeToClient_queue (l : Listener) :
    queue (writeToClient l).2 = queue l ∧ (writeToClient l).2.header = l.header := by
  unfold writeToClient
  split
  · unfold ebmlWriteBufToClient
    split <;> exact ⟨rfl, rfl⟩
  · exact ⟨rfl, rfl⟩

theorem formatAdvanceQueue_queue (l : Listener) :
    queue (formatAdvanceQueue l).2 = queue l ∧ (formatAdvanceQueue l).2.header = l.header := by
  unfold formatAdvanceQueue
  split
  · split <;> exact ⟨rfl, rfl⟩
  · rename_i next rest hahead
    split
    · exact ⟨by simp [queue, hahead], rfl⟩
    · exact ⟨rfl, rfl⟩

/-- A turn changes neither the buffers of the queue nor the header. -/
theorem sendToListener_queue (l : Listener) :
    queue (sendToListener l) = queue l ∧ (sendToListener l).header = l.header := by
  obtain ⟨hqueue, hheader⟩ := formatAdvanceQueue_queue l
  simp only [sendToListener]
  split
  · exact ⟨hqueue, hheader⟩
  · obtain ⟨hqueue', hheader'⟩ := writeToClient_queue (formatAdvanceQueue l).2
    exact ⟨hqueue'.trans hqueue, hheader'.trans hheader⟩

theorem run_queue (events : List Event) (l : Listener) :
    queue (run step l events) = queue l ++ appended events ∧
      (run step l events).header = l.header := by
  induction events generalizing l with
  | nil => simp [appended]
  | cons event events ih =>
    rw [run_cons]
    obtain ⟨hqueue, hheader⟩ := ih (step l event)
    rw [hqueue, hheader]
    cases event with
    | turn =>
      obtain ⟨hqueue', hheader'⟩ := sendToListener_queue l
      simp only [step]
      exact ⟨by rw [hqueue']; rfl, hheader'⟩
    | append refbuf => exact ⟨by simp [step, queue, appended], rfl⟩

/-! ## Completion -/

/-- The next writes all take something, as many of them as the number says. -/
def Willing : ℕ → List WriteOutcome → Prop
  | 0, _ => True
  | n + 1, .accept limit :: outcomes => 0 < limit ∧ Willing n outcomes
  | _ + 1, _ => False

instance Willing.decidable : ∀ (n : ℕ) (outcomes : List WriteOutcome), Decidable (Willing n outcomes)
  | 0, _ => .isTrue trivial
  | n + 1, .accept _ :: outcomes =>
    have := Willing.decidable n outcomes
    inferInstanceAs (Decidable (_ ∧ _))
  | _ + 1, [] => .isFalse id
  | _ + 1, .fail :: _ => .isFalse id

theorem Willing.cases {n : ℕ} {outcomes : List WriteOutcome} (h : Willing (n + 1) outcomes) :
    ∃ limit rest, outcomes = .accept limit :: rest ∧ 0 < limit ∧ Willing n rest := by
  match outcomes, h with
  | .accept limit :: rest, h => exact ⟨limit, rest, rfl, h.1, h.2⟩

theorem Willing.mono {m n : ℕ} {outcomes : List WriteOutcome} (h : Willing n outcomes)
    (hle : m ≤ n) : Willing m outcomes := by
  induction m generalizing n outcomes with
  | zero => trivial
  | succ m ih =>
    obtain ⟨n, rfl⟩ := Nat.exists_eq_succ_of_ne_zero (show n ≠ 0 by omega)
    obtain ⟨limit, rest, rfl, hlimit, hrest⟩ := h.cases
    exact ⟨hlimit, ih hrest (by omega)⟩

/-- No buffer still to be sent is empty. `ebml_get_buffer` makes a buffer only of bytes read. -/
def Filled (l : Listener) : Prop := ∀ refbuf ∈ l.refbuf :: l.ahead, refbuf ≠ []

/-- A write of something to a willing socket. -/
theorem write_willing {conn : Conn UInt8} {buf : Bytes} {limit : ℕ} {rest : List WriteOutcome}
    (houtcomes : conn.outcomes = .accept limit :: rest) (hlimit : 0 < limit) (hbuf : buf ≠ []) :
    conn.sent.length < (conn.write buf).2.sent.length ∧ (conn.write buf).2.outcomes = rest := by
  have hpos := List.length_pos_iff.mpr hbuf
  simp only [Conn.write, houtcomes, List.length_append, List.length_take]
  exact ⟨by omega, trivial⟩

theorem writeToClient_willing (inv : Inv l) {limit : ℕ} {rest : List WriteOutcome}
    (houtcomes : l.conn.outcomes = .accept limit :: rest) (hlimit : 0 < limit)
    (hopen : l.pos ≠ l.refbuf.length) :
    l.conn.sent.length < (writeToClient l).2.conn.sent.length ∧
      (writeToClient l).2.conn.outcomes = rest := by
  have hpos := inv.pos_le
  have hheaderPos := inv.headerPos_le
  have hgeneric : l.refbuf.drop l.pos ≠ [] := by
    rw [← List.length_pos_iff, List.length_drop]
    omega
  unfold writeToClient
  split
  · unfold ebmlWriteBufToClient
    split
    · rename_i hheader
      apply write_willing houtcomes hlimit
      have hslice := sliceLen_pos (l := l) (by omega)
      rw [← List.length_pos_iff, List.length_take, List.length_drop]
      omega
    · exact write_willing houtcomes hlimit hgeneric
  · exact write_willing houtcomes hlimit hgeneric

/-- With something left to send, the check leaves the listener inside a buffer. -/
theorem formatAdvanceQueue_filled (inv : Inv l) (hfilled : Filled l) (hunsent : unsent l ≠ []) :
    (formatAdvanceQueue l).1 = 0 ∧
      (formatAdvanceQueue l).2.pos ≠ (formatAdvanceQueue l).2.refbuf.length ∧
      (formatAdvanceQueue l).2.conn = l.conn ∧ Filled (formatAdvanceQueue l).2 := by
  unfold formatAdvanceQueue
  split
  · rename_i hahead
    by_cases hend : l.pos = l.refbuf.length
    · have hcurrent := List.length_pos_iff.mpr (hfilled l.refbuf List.mem_cons_self)
      have hheader : l.headerPos = l.header.length := by
        by_contra hopen
        have hle := inv.headerPos_le
        obtain ⟨hstart, -⟩ := inv.header_first (by omega)
        omega
      exact absurd (by simp [unsent, hahead, hend, hheader]) hunsent
    · rw [if_neg hend]
      exact ⟨rfl, hend, rfl, hfilled⟩
  · rename_i next rest hahead
    by_cases hend : l.pos = l.refbuf.length
    · rw [if_pos hend]
      have hfilled' : ∀ refbuf ∈ next :: rest, refbuf ≠ [] := by
        intro refbuf hmem
        exact hfilled refbuf (List.mem_cons_of_mem _ (hahead ▸ hmem))
      have hnext := List.length_pos_iff.mpr (hfilled' next List.mem_cons_self)
      exact ⟨rfl, Nat.ne_of_lt hnext, rfl, hfilled'⟩
    · rw [if_neg hend]
      exact ⟨rfl, hend, rfl, hfilled⟩

theorem writeToClient_filled (hfilled : Filled l) : Filled (writeToClient l).2 := by
  unfold writeToClient
  split
  · unfold ebmlWriteBufToClient
    split <;> exact hfilled
  · exact hfilled

/-- A turn gets something across as long as something is left. -/
theorem sendToListener_willing (inv : Inv l) (hfilled : Filled l) {limit : ℕ}
    {rest : List WriteOutcome} (houtcomes : l.conn.outcomes = .accept limit :: rest)
    (hlimit : 0 < limit) (hunsent : unsent l ≠ []) :
    (unsent (sendToListener l)).length < (unsent l).length ∧
      (sendToListener l).conn.outcomes = rest ∧ Filled (sendToListener l) := by
  obtain ⟨hret, hinside, hconn, hfilled'⟩ := formatAdvanceQueue_filled inv hfilled hunsent
  have hturn : sendToListener l = (writeToClient (formatAdvanceQueue l).2).2 := by
    simp only [sendToListener, hret]
    rfl
  obtain ⟨hsent, hrest⟩ := writeToClient_willing inv.formatAdvanceQueue
    (by rw [hconn, houtcomes]) hlimit hinside
  rw [← hturn] at hsent hrest
  refine ⟨?_, hrest, hturn ▸ writeToClient_filled hfilled'⟩
  -- header and buffers are the same before and after, so what is accepted is no longer unsent
  obtain ⟨hqueue, hheader⟩ := sendToListener_queue l
  have hbefore := congrArg List.length inv.delivered
  have hafter := congrArg List.length (inv.step .turn).delivered
  simp only [step] at hafter
  rw [hqueue, hheader, ← hbefore, List.length_append, List.length_append] at hafter
  rw [hconn] at hsent
  omega

theorem sendToListener_of_unsent_eq_nil (inv : Inv l) (hfilled : Filled l) (hunsent : unsent l = []) :
    sendToListener l = l := by
  obtain ⟨⟨-, hcurrent⟩, hrest⟩ : (l.header.drop l.headerPos = [] ∧ l.refbuf.drop l.pos = []) ∧
      l.ahead.flatten = [] := by
    simpa only [unsent, List.append_eq_nil_iff] using hunsent
  have hahead : l.ahead = [] := by
    by_contra hne
    obtain ⟨next, rest, hcons⟩ := List.exists_cons_of_ne_nil hne
    rw [hcons, List.flatten_cons, List.append_eq_nil_iff] at hrest
    exact hfilled next (by simp [hcons]) hrest.1
  have hend : l.pos = l.refbuf.length := by
    have hle := inv.pos_le
    have hge := List.drop_eq_nil_iff.mp hcurrent
    omega
  simp [sendToListener, formatAdvanceQueue, hahead, hend]

theorem run_turns_complete (n : ℕ) (inv : Inv l) (hfilled : Filled l)
    (hn : (unsent l).length ≤ n) (hwilling : Willing (unsent l).length l.conn.outcomes) :
    unsent (run step l (List.replicate n .turn)) = [] := by
  induction n generalizing l with
  | zero => exact List.length_eq_zero_iff.mp (by simpa using hn)
  | succ n ih =>
    rw [List.replicate_succ, run_cons]
    by_cases hunsent : unsent l = []
    · have hsame : step l .turn = l := sendToListener_of_unsent_eq_nil inv hfilled hunsent
      rw [hsame]
      exact ih inv hfilled (by simp [hunsent]) hwilling
    · obtain ⟨left, hleft⟩ := Nat.exists_eq_succ_of_ne_zero
        (Nat.ne_of_gt (List.length_pos_iff.mpr hunsent))
      rw [hleft] at hwilling
      obtain ⟨limit, rest, houtcomes, hlimit, hrest⟩ := hwilling.cases
      obtain ⟨hless, houtcomes', hfilled'⟩ :=
        sendToListener_willing inv hfilled houtcomes hlimit hunsent
      apply ih (inv.step .turn) hfilled'
      · simp only [step]
        omega
      · simp only [step]
        rw [houtcomes']
        exact hrest.mono (by omega)

/-- Whatever the writes return and whenever buffers are added, the accepted bytes are the beginning
of the header followed by the buffers of the queue, what is missing is what the positions of the
listener say, and as soon as the socket takes something at each write all of it arrives. -/
theorem ebml_delivery (header : Bytes) (outcomes : List WriteOutcome) (first : Bytes)
    (ahead : List Bytes) (events : List Event) :
    let l := run step (startListener header outcomes first ahead) events
    let buffers := first :: ahead ++ appended events
    l.conn.sent ++ unsent l = header ++ buffers.flatten ∧
      ((∀ refbuf ∈ buffers, refbuf ≠ []) → Willing (unsent l).length l.conn.outcomes →
        (run step l (List.replicate (unsent l).length .turn)).conn.sent =
          header ++ buffers.flatten) := by
  have inv := run_invariant step Inv (fun _ event inv ↦ inv.step event) events
    (inv_startListener header outcomes first ahead)
  obtain ⟨hqueue, hheader⟩ := run_queue events (startListener header outcomes first ahead)
  intro l buffers
  have hdue : l.header ++ (queue l).flatten = header ++ buffers.flatten := by
    rw [hqueue, hheader]
    rfl
  refine ⟨inv.delivered.trans hdue, ?_⟩
  intro hnonempty hwilling
  have hfilled : Filled l := by
    intro refbuf hmem
    have hbuffer : refbuf ∈ queue l := List.mem_append_right _ hmem
    rw [hqueue] at hbuffer
    exact hnonempty refbuf hbuffer
  have hcomplete := run_turns_complete _ inv hfilled (Nat.le_refl _) hwilling
  set final := run step l (List.replicate (unsent l).length .turn)
  have hfinal : Inv final := run_invariant step Inv (fun _ event inv ↦ inv.step event) _ inv
  obtain ⟨hqueue', hheader'⟩ := run_queue (List.replicate (unsent l).length .turn) l
  have hturns : appended (List.replicate (unsent l).length .turn) = [] := by
    simp [appended]
  have hdelivered := hfinal.delivered
  rw [hcomplete, List.append_nil, hqueue', hheader', hturns, List.append_nil, hdue] at hdelivered
  exact hdelivered

/-- A header that is refused and then taken in two parts, with a buffer arriving meanwhile. -/
theorem ebml_delivery_resumed :
    let start := startListener [26, 69, 223, 163, 1]
      [.accept 2, .fail, .accept 9, .accept 1, .accept 1, .accept 1, .accept 1] [31, 67] []
    let l := run step start [.turn, .turn, .append [182, 117], .turn]
    l.conn.sent = [26, 69, 223, 163, 1] ∧ (unsent l).length = 4 ∧
      (run step l (List.replicate (unsent l).length .turn)).conn.sent =
        [26, 69, 223, 163, 1] ++ [[31, 67], [182, 117]].flatten :=
  ⟨by decide +kernel, by decide +kernel,
    (ebml_delivery [26, 69, 223, 163, 1] _ [31, 67] []
      [.turn, .turn, .append [182, 117], .turn]).2 (by decide) (by decide +kernel)⟩

end Icecast.Format.EbmlSender
