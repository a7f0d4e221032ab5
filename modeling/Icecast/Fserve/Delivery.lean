import Icecast.Fserve.ServingThread
import Mathlib.Data.List.Nodup

/-!
# What the file serving thread sends

Each client of the thread has a buffer, further buffers chained to it, and possibly a file. The buffer
is sent first; it is then filled from the file again and again, and after the end of the file the other
buffers take its place one by one. A client leaves when there is nothing more to send, or when its
connection has failed.

The thread is that of the module on its lists and flags; here a pass over the active clients also moves
their bytes. Every client that is handed over gets a number, by which it is known in all lists.
-/

namespace Icecast.Fserve.Delivery

open Lib.Machine

abbrev Bytes := List UInt8

/-- What one write to a socket does. -/
inductive SendOutcome where
  | accepted (limit : ℕ)
  | again
  | failed
  deriving DecidableEq

/-- `client_t` with the file of its `fserve_t`. A buffer is given by its first `len` bytes, and a file
by what is still to be read of it; `sent` is what the socket has accepted. -/
structure Client where
  refbuf : Bytes
  next : List Bytes
  pos : ℕ
  pos_le : pos ≤ refbuf.length
  file : Option Bytes
  error : Bool
  sent : Bytes
  deriving DecidableEq

def bufSize : ℕ := 4096

/-! ## One client -/

def formatGenericWriteToClient (outcome : SendOutcome) (client : Client) : Client :=
  match outcome with
  | .accepted limit =>
    { client with
      pos := client.pos + ((client.refbuf.drop client.pos).take limit).length
      pos_le := by
        have hle := client.pos_le
        rw [List.length_take, List.length_drop]
        omega
      sent := client.sent ++ (client.refbuf.drop client.pos).take limit }
  | .again => client
  | .failed => { client with error := true }

/-- The next chunk of the file; of no file there is none. -/
def fread (file : Option Bytes) : Bytes := (file.getD []).take bufSize

def afterRead (file : Option Bytes) : Option Bytes := file.map (List.drop bufSize)

/-- The buffer for a client that has been sent all of the last one, if there is one. -/
def grabChunk (client : Client) : Option Client :=
  if fread client.file = [] then
    match client.next with
    | [] => none
    | refbuf :: next =>
      some { client with refbuf, next, pos := 0, pos_le := Nat.zero_le _, file := afterRead client.file }
  else
    some { client with
      refbuf := fread client.file
      pos := 0
      pos_le := Nat.zero_le _
      file := afterRead client.file }

/-- What the thread does for a client that is ready, and whether the client leaves. -/
def serveReady (outcome : SendOutcome) (client : Client) : Client × Bool :=
  match if client.pos = client.refbuf.length then grabChunk client else some client with
  | none => (client, true)
  | some client =>
    let client := formatGenericWriteToClient outcome client
    (client, client.error)

/-! ## The thread -/

/-- A client in one of the lists, with its number. -/
structure Job where
  serial : ℕ
  client : Client
  deriving DecidableEq

/-- The walk over the active clients: those that stay, and those that leave. -/
def servePass (send : ℕ → SendOutcome) : ℕ → List (Fclient Job) → List (Fclient Job) × List Job
  | _, [] => ([], [])
  | i, fclient :: rest =>
    let (kept, gone) := servePass send (i + 1) rest
    if fclient.ready then
      let (client, leaves) := serveReady (send i) fclient.client.client
      let job := { fclient.client with client }
      if leaves then (kept, job :: gone) else (⟨job, false⟩ :: kept, gone)
    else (fclient :: kept, gone)

/-- The thread and its lists, all clients that have been handed over, and those that have left. -/
structure System where
  thread : State Job
  added : List Client
  gone : List Job

def start : System := ⟨Fserve.start, [], []⟩

/-- What the thread meets; `send` is the outcome for the client at a place of the active list. -/
structure Environment where
  memory : Bool
  poll : Option (ℕ → Bool)
  send : ℕ → SendOutcome

def serveClients (send : ℕ → SendOutcome) (s : System) : System :=
  let (kept, gone) := servePass send 0 s.thread.activeList
  { s with
    thread := { s.thread with
      activeList := kept
      fserveClients := s.thread.fserveClients - gone.length
      clientTreeChanged := s.thread.clientTreeChanged || !gone.isEmpty }
    gone := s.gone ++ gone }

def advance (env : Environment) (s : System) : Location → System × Location
  | .serving => (serveClients env.send s, .loop)
  | location =>
    let (thread, location) := Fserve.advance ⟨env.memory, env.poll, fun _ ↦ false⟩ s.thread location
    ({ s with thread }, location)

def fservThreadFunction (i : ℕ) (env : Environment) (s : System) : System :=
  match s.thread.threads[i]? with
  | none => s
  | some location =>
    let (s, location) := advance env s location
    { s with thread := { s.thread with threads := s.thread.threads.set i location } }

inductive Event where
  | add (client : Client)
  | thread (i : ℕ) (env : Environment)

def next (s : System) : Event → System
  | .add client =>
    { s with
      thread := fserveAddPending ⟨s.added.length, client⟩ s.thread
      added := s.added ++ [client] }
  | .thread i env => fservThreadFunction i env s

/-! ## What is still to be sent -/

section Client

variable {client : Client} {outcome : SendOutcome}

def remaining (client : Client) : Bytes :=
  client.refbuf.drop client.pos ++ client.file.getD [] ++ client.next.flatten

/-- The socket has been given more, and that much less is still to be sent. -/
def Continues (before after : Client) : Prop :=
  ∃ delivered, after.sent = before.sent ++ delivered ∧ remaining before = delivered ++ remaining after

theorem Continues.refl (client : Client) : Continues client client :=
  ⟨[], (List.append_nil _).symm, rfl⟩

theorem Continues.trans {first second third : Client} (h : Continues first second)
    (h' : Continues second third) : Continues first third := by
  obtain ⟨delivered, hsent, hremaining⟩ := h
  obtain ⟨delivered', hsent', hremaining'⟩ := h'
  refine ⟨delivered ++ delivered', ?_, ?_⟩
  · rw [hsent', hsent, List.append_assoc]
  · rw [hremaining, hremaining', List.append_assoc]

theorem remaining_accepted (limit : ℕ) (client : Client) :
    remaining client = (client.refbuf.drop client.pos).take limit ++
      remaining (formatGenericWriteToClient (.accepted limit) client) := by
  have hrest : (client.refbuf.drop client.pos).take limit ++
      client.refbuf.drop (client.pos + ((client.refbuf.drop client.pos).take limit).length) =
      client.refbuf.drop client.pos := by
    rw [← List.drop_drop]
    exact List.prefix_iff_eq_append.mp (List.take_prefix limit _)
  simp only [remaining, formatGenericWriteToClient]
  conv_lhs => rw [← hrest]
  simp only [List.append_assoc]

theorem continues_write (outcome : SendOutcome) (client : Client) :
    Continues client (formatGenericWriteToClient outcome client) := by
  cases outcome with
  | again => exact Continues.refl client
  | failed => exact ⟨[], (List.append_nil _).symm, rfl⟩
  | accepted limit => exact ⟨_, rfl, remaining_accepted limit client⟩

theorem fread_append (file : Option Bytes) :
    fread file ++ (afterRead file).getD [] = file.getD [] := by
  cases file with
  | none => rfl
  | some content => exact List.take_append_drop bufSize content

theorem fread_eq_nil_iff {file : Option Bytes} : fread file = [] ↔ file.getD [] = [] := by
  rw [fread, List.take_eq_nil_iff, or_iff_right (by decide)]

/-- A new buffer changes nothing in what is to be sent. -/
theorem grabChunk_spec {grabbed : Client} (hpos : client.pos = client.refbuf.length)
    (h : grabChunk client = some grabbed) :
    grabbed.sent = client.sent ∧ remaining grabbed = remaining client := by
  have hdone : client.refbuf.drop client.pos = [] := by rw [hpos, List.drop_length]
  have hread := fread_append client.file
  unfold grabChunk at h
  split at h
  · rename_i hempty
    -- the end of the file has been reached before the chain is followed
    have hend : client.file.getD [] = [] := fread_eq_nil_iff.mp hempty
    rw [hempty, List.nil_append, hend] at hread
    split at h
    · cases h
    · rename_i refbuf next hnext
      obtain rfl := Option.some.inj h
      refine ⟨rfl, ?_⟩
      simp only [remaining, hdone, hnext, hread, hend, List.drop_zero, List.nil_append,
        List.append_nil, List.flatten_cons]
  · obtain rfl := Option.some.inj h
    refine ⟨rfl, ?_⟩
    simp only [remaining, hdone, List.drop_zero, List.nil_append, ← hread]

theorem remaining_of_grabChunk_eq_none (hpos : client.pos = client.refbuf.length)
    (h : grabChunk client = none) : remaining client = [] := by
  unfold grabChunk at h
  split at h
  · rename_i hempty
    split at h
    · rename_i hnext
      simp only [remaining, hpos, List.drop_length, fread_eq_nil_iff.mp hempty, hnext,
        List.flatten_nil, List.append_nil]
    · cases h
  · cases h

/-- Nothing is lost or sent twice, and who leaves has been sent everything, unless the connection has
failed. -/
theorem serveReady_spec (outcome : SendOutcome) (client : Client) :
    Continues client (serveReady outcome client).1 ∧
      ((serveReady outcome client).2 = true →
        (serveReady outcome client).1.error = true ∨ remaining (serveReady outcome client).1 = []) := by
  unfold serveReady
  by_cases hpos : client.pos = client.refbuf.length
  · rw [if_pos hpos]
    cases hgrab : grabChunk client with
    | none =>
      exact ⟨Continues.refl client, fun _ ↦ Or.inr (remaining_of_grabChunk_eq_none hpos hgrab)⟩
    | some grabbed =>
      obtain ⟨hsent, hremaining⟩ := grabChunk_spec hpos hgrab
      have hgrabbed : Continues client grabbed :=
        ⟨[], by rw [hsent, List.append_nil], by rw [hremaining, List.nil_append]⟩
      exact ⟨hgrabbed.trans (continues_write outcome grabbed), Or.inl⟩
  · rw [if_neg hpos]
    exact ⟨continues_write outcome client, Or.inl⟩

/-! ## Progress -/

/-- The write takes something, or the connection fails. -/
def SendOutcome.progresses : SendOutcome → Bool
  | .accepted limit => 0 < limit
  | .again => false
  | .failed => true

/-- The bytes and the buffers that are still to come. -/
def weight (client : Client) : ℕ := (remaining client).length + client.next.length

theorem weight_write (limit : ℕ) (client : Client) :
    weight (formatGenericWriteToClient (.accepted limit) client) +
      ((client.refbuf.drop client.pos).take limit).length = weight client := by
  have hremaining := congrArg List.length (remaining_accepted limit client)
  have hnext : (formatGenericWriteToClient (.accepted limit) client).next = client.next := rfl
  rw [List.length_append] at hremaining
  rw [weight, weight, hnext]
  omega

/-- A write never adds to what is to come, and one that gets on takes something away. -/
theorem weight_write_le (outcome : SendOutcome) (client : Client)
    (herror : (formatGenericWriteToClient outcome client).error = false) :
    weight (formatGenericWriteToClient outcome client) ≤ weight client ∧
      (outcome.progresses = true → client.refbuf.drop client.pos ≠ [] →
        weight (formatGenericWriteToClient outcome client) < weight client) := by
  cases outcome with
  | again => exact ⟨Nat.le_refl _, fun hprogress ↦ absurd hprogress (by decide)⟩
  | failed => exact absurd herror (by simp [formatGenericWriteToClient])
  | accepted limit =>
    have hweight := weight_write limit client
    refine ⟨by omega, ?_⟩
    intro hprogress hbuf
    have hlimit : 0 < limit := by simpa [SendOutcome.progresses] using hprogress
    have hlength : 0 < (client.refbuf.drop client.pos).length := List.length_pos_of_ne_nil hbuf
    have htaken : 0 < ((client.refbuf.drop client.pos).take limit).length := by
      rw [List.length_take]
      omega
    omega

/-- A new buffer has something to send, or the chain has got shorter. -/
theorem weight_grabChunk {grabbed : Client} (hpos : client.pos = client.refbuf.length)
    (h : grabChunk client = some grabbed) :
    weight grabbed < weight client ∨
      weight grabbed = weight client ∧ grabbed.refbuf.drop grabbed.pos ≠ [] := by
  have hremaining := (grabChunk_spec hpos h).2
  rw [weight, weight, hremaining]
  unfold grabChunk at h
  split at h
  · split at h
    · cases h
    · rename_i refbuf next hnext
      obtain rfl := Option.some.inj h
      left
      rw [hnext, List.length_cons]
      exact Nat.lt_succ_self _
  · rename_i hread
    obtain rfl := Option.some.inj h
    exact Or.inr ⟨rfl, hread⟩

theorem weight_serveReady (hstays : (serveReady outcome client).2 = false) :
    weight (serveReady outcome client).1 ≤ weight client ∧
      (outcome.progresses = true → weight (serveReady outcome client).1 < weight client) := by
  unfold serveReady at hstays ⊢
  by_cases hpos : client.pos = client.refbuf.length
  · rw [if_pos hpos] at hstays ⊢
    cases hgrab : grabChunk client with
    | none =>
      rw [hgrab] at hstays
      cases hstays
    | some grabbed =>
      rw [hgrab] at hstays
      obtain ⟨hle, hlt⟩ := weight_write_le outcome grabbed hstays
      dsimp only
      rcases weight_grabChunk hpos hgrab with hshorter | ⟨hsame, hbuf⟩
      · exact ⟨by omega, fun _ ↦ by omega⟩
      · refine ⟨by omega, fun hprogress ↦ ?_⟩
        have hstep := hlt hprogress hbuf
        omega
  · rw [if_neg hpos] at hstays ⊢
    obtain ⟨hle, hlt⟩ := weight_write_le outcome client hstays
    refine ⟨hle, fun hprogress ↦ hlt hprogress ?_⟩
    have hle' := client.pos_le
    rw [ne_eq, List.drop_eq_nil_iff]
    omega

end Client

/-! ## One pass -/

section Pass

variable (send : ℕ → SendOutcome)

/-- Nobody is dropped from the lists or added to them. -/
theorem servePass_serials (i : ℕ) (list : List (Fclient Job)) :
    ((servePass send i list).1.map (·.client.serial) ++
      (servePass send i list).2.map Job.serial).Perm (list.map (·.client.serial)) := by
  induction list generalizing i with
  | nil => exact List.Perm.nil
  | cons fclient rest ih =>
    simp only [servePass]
    split
    · split
      · exact List.perm_middle.trans ((ih (i + 1)).cons _)
      · exact (ih (i + 1)).cons _
    · exact (ih (i + 1)).cons _

/-- Every client is sent its own bytes on. -/
theorem servePass_continues (i : ℕ) {list : List (Fclient Job)} {job : Job}
    (hmem : job ∈ (servePass send i list).1.map (·.client) ++ (servePass send i list).2) :
    ∃ fclient ∈ list, fclient.client.serial = job.serial ∧
      Continues fclient.client.client job.client := by
  induction list generalizing i with
  | nil => cases hmem
  | cons fclient rest ih =>
    have htail (h : job ∈ (servePass send (i + 1) rest).1.map (·.client) ++
        (servePass send (i + 1) rest).2) :
        ∃ fclient' ∈ fclient :: rest, fclient'.client.serial = job.serial ∧
          Continues fclient'.client.client job.client := by
      obtain ⟨old, hold, hsame⟩ := ih (i + 1) h
      exact ⟨old, List.mem_cons_of_mem _ hold, hsame⟩
    have hspec := (serveReady_spec (send i) fclient.client.client).1
    simp only [servePass] at hmem
    split at hmem
    · split at hmem
      · rcases List.mem_cons.mp (List.perm_middle.mem_iff.mp hmem) with rfl | hmem
        · exact ⟨fclient, List.mem_cons_self .., rfl, hspec⟩
        · exact htail hmem
      · rcases List.mem_cons.mp hmem with rfl | hmem
        · exact ⟨fclient, List.mem_cons_self .., rfl, hspec⟩
        · exact htail hmem
    · rcases List.mem_cons.mp hmem with rfl | hmem
      · exact ⟨fclient, List.mem_cons_self .., rfl, Continues.refl _⟩
      · exact htail hmem

theorem servePass_gone (i : ℕ) {list : List (Fclient Job)} {job : Job}
    (hmem : job ∈ (servePass send i list).2) :
    job.client.error = true ∨ remaining job.client = [] := by
  induction list generalizing i with
  | nil => cases hmem
  | cons fclient rest ih =>
    simp only [servePass] at hmem
    split at hmem
    · split at hmem
      · rename_i hleaves
        rcases List.mem_cons.mp hmem with rfl | hmem
        · exact (serveReady_spec (send i) fclient.client.client).2 hleaves
        · exact ih (i + 1) hmem
      · exact ih (i + 1) hmem
    · exact ih (i + 1) hmem

/-- The client leaves, or stays with no more to come than before, and with less if it gets on. -/
def GetsOn (serial before : ℕ) (progress : Bool) (kept : List (Fclient Job)) (gone : List Job) : Prop :=
  (∃ job ∈ gone, job.serial = serial) ∨
    ∃ fclient ∈ kept, fclient.client.serial = serial ∧ weight fclient.client.client ≤ before ∧
      (progress = true → weight fclient.client.client < before)

theorem GetsOn.mono {serial before : ℕ} {progress : Bool} {kept kept' : List (Fclient Job)}
    {gone gone' : List Job} (h : GetsOn serial before progress kept gone) (hkept : kept ⊆ kept')
    (hgone : gone ⊆ gone') : GetsOn serial before progress kept' gone' := by
  rcases h with ⟨job, hjob, hserial⟩ | ⟨other, hother, hspec⟩
  · exact Or.inl ⟨job, hgone hjob, hserial⟩
  · exact Or.inr ⟨other, hkept hother, hspec⟩

theorem servePass_getsOn (i : ℕ) {list : List (Fclient Job)} {j : ℕ} {fclient : Fclient Job}
    (hget : list[j]? = some fclient) :
    GetsOn fclient.client.serial (weight fclient.client.client)
      (fclient.ready && (send (i + j)).progresses)
      (servePass send i list).1 (servePass send i list).2 := by
  induction list generalizing i j with
  | nil => cases hget
  | cons first rest ih =>
    simp only [servePass]
    cases j with
    | zero =>
      obtain rfl := Option.some.inj hget
      split
      · rename_i hready
        split
        · exact Or.inl ⟨_, List.mem_cons_self .., rfl⟩
        · rename_i hstays
          obtain ⟨hle, hlt⟩ := weight_serveReady (Bool.not_eq_true _ ▸ hstays)
          refine Or.inr ⟨_, List.mem_cons_self .., rfl, hle, ?_⟩
          intro hprogress
          rw [hready, Bool.true_and] at hprogress
          exact hlt hprogress
      · rename_i hready
        refine Or.inr ⟨_, List.mem_cons_self .., rfl, Nat.le_refl _, ?_⟩
        simp [hready]
    | succ j =>
      have hrest := ih (i + 1) hget
      rw [Nat.add_assoc, Nat.add_comm 1 j] at hrest
      split
      · split
        · exact hrest.mono (List.Subset.refl _) (List.subset_cons_self _ _)
        · exact hrest.mono (List.subset_cons_self _ _) (List.Subset.refl _)
      · exact hrest.mono (List.subset_cons_self _ _) (List.Subset.refl _)

end Pass

/-! ## The other steps -/

section Steps

variable {α : Type*} {s : State α}

/-- The clients that wait or are active. -/
def listed (s : State α) : List α := (s.pendingList ++ s.activeList).map Fclient.client

theorem fserveClientWaiting_fserveClients (memory : Bool) (s : State α) :
    (fserveClientWaiting memory s).1.fserveClients = s.fserveClients := by
  unfold fserveClientWaiting rebuildUfds
  split <;> rfl

theorem foldl_moveClient_fserveClients (pending : List (Fclient α)) (s : State α) :
    (pending.foldl moveClient s).fserveClients = s.fserveClients + pending.length := by
  induction pending generalizing s with
  | nil => rfl
  | cons toMove pending ih =>
    have hstep : (moveClient s toMove).fserveClients = s.fserveClients + 1 := rfl
    rw [List.foldl_cons, ih, List.length_cons, hstep]
    omega

/-- `fserve_clients` is the length of the active list. -/
def Counted (s : State α) : Prop := s.fserveClients = s.activeList.length

theorem movePending_spec (s : State α) :
    (listed (movePending s)).Perm (listed s) ∧ (Counted s → Counted (movePending s)) := by
  have hactive : (movePending s).activeList = s.pendingList.reverse ++ s.activeList :=
    (foldl_moveClient s.pendingList s).1
  have hcount : (movePending s).fserveClients = s.fserveClients + s.pendingList.length :=
    foldl_moveClient_fserveClients s.pendingList s
  have hpending : (movePending s).pendingList = [] := rfl
  constructor
  · rw [listed, listed, hactive, hpending, List.nil_append]
    exact ((List.reverse_perm s.pendingList).append_right s.activeList).map _
  · intro hcounted
    rw [Counted, hactive, hcount, hcounted, List.length_append, List.length_reverse]
    exact Nat.add_comm _ _

theorem fserveClientWaiting_listed (memory : Bool) (s : State α) :
    listed (fserveClientWaiting memory s).1 = listed s ∧
      (Counted s → Counted (fserveClientWaiting memory s).1) := by
  obtain ⟨-, hpending, hactive, -⟩ := fserveClientWaiting_spec memory s
  constructor
  · rw [listed, listed, hpending, hactive]
  · intro hcounted
    rw [Counted, fserveClientWaiting_fserveClients, hactive]
    exact hcounted

theorem markReady_listed (revents : ℕ → Bool) (s : State α) :
    listed (markReady revents s) = listed s ∧ (Counted s → Counted (markReady revents s)) := by
  have hactive : (markReady revents s).activeList.map Fclient.client =
      s.activeList.map Fclient.client := by
    apply List.ext_getElem?
    intro i
    rw [List.getElem?_map, List.getElem?_map, markReady, List.getElem?_mapIdx]
    cases s.activeList[i]? with
    | none => rfl
    | some fclient =>
      rw [Option.map_some, Option.map_some, Option.map_some]
      split <;> rfl
  constructor
  · rw [listed, listed, List.map_append, List.map_append, hactive]
    rfl
  · intro hcounted
    rw [Counted, ← List.length_map Fclient.client, hactive, List.length_map]
    exact hcounted

/-- All steps but the pass only move clients from one list to the other. -/
theorem advance_listed (env : Fserve.Environment α) {location : Location}
    (hlocation : location ≠ .serving) :
    (listed (Fserve.advance env s location).1).Perm (listed s) ∧
      (Counted s → Counted (Fserve.advance env s location).1) := by
  cases location with
  | loop | stopping | stopped => exact ⟨List.Perm.refl _, id⟩
  | serving => exact absurd rfl hlocation
  | test =>
    simp only [Fserve.advance]
    split
    · have hwaiting := fserveClientWaiting_listed env.memory s
      exact ⟨List.Perm.of_eq hwaiting.1, hwaiting.2⟩
    · exact ⟨List.Perm.refl _, id⟩
  | move =>
    have hmove := movePending_spec s
    have hwaiting := fserveClientWaiting_listed env.memory (movePending s)
    exact ⟨(List.Perm.of_eq hwaiting.1).trans hmove.1, fun h ↦ hwaiting.2 (hmove.2 h)⟩
  | polling =>
    simp only [Fserve.advance]
    split
    · exact ⟨List.Perm.refl _, id⟩
    · rename_i revents _
      have hready := markReady_listed revents s
      exact ⟨List.Perm.of_eq hready.1, hready.2⟩

end Steps

/-! ## All clients -/

section Clients

variable {s : System}

/-- Everybody who has been handed over. -/
def System.jobs (s : System) : List Job := listed s.thread ++ s.gone

/-- The count is right, everybody is in one place, has been sent or is going to be sent what was handed
over, and has left only after all of it or after a failure. -/
structure Inv (s : System) : Prop where
  counted : Counted s.thread
  serials : (s.jobs.map Job.serial).Perm (List.range s.added.length)
  delivered : ∀ job ∈ s.jobs, ∃ initial, s.added[job.serial]? = some initial ∧
    Continues initial job.client
  finished : ∀ job ∈ s.gone, job.client.error = true ∨ remaining job.client = []

theorem inv_start : Inv start where
  counted := rfl
  serials := List.Perm.nil
  delivered := nofun
  finished := nofun

theorem Inv.add (h : Inv s) (client : Client) : Inv (next s (.add client)) := by
  have hjobs : (next s (.add client)).jobs = ⟨s.added.length, client⟩ :: s.jobs := rfl
  have hadded : (next s (.add client)).added = s.added ++ [client] := rfl
  refine ⟨h.counted, ?_, ?_, h.finished⟩
  · rw [hjobs, hadded, List.length_append, List.length_singleton, List.range_succ]
    exact (h.serials.cons _).trans (List.perm_append_singleton _ _).symm
  · intro job hmem
    rw [hjobs] at hmem
    rw [hadded]
    rcases List.mem_cons.mp hmem with rfl | hmem
    · exact ⟨client, List.getElem?_concat_length, Continues.refl client⟩
    · obtain ⟨initial, hinitial, hcontinues⟩ := h.delivered job hmem
      have hlt := (List.getElem?_eq_some_iff.mp hinitial).1
      exact ⟨initial, by rwa [List.getElem?_append_left hlt], hcontinues⟩

/-- The lists of the thread may change places. -/
theorem Inv.of_perm (h : Inv s) {thread : State Job} (hlisted : (listed thread).Perm (listed s.thread))
    (hcounted : Counted thread) : Inv { s with thread } := by
  have hjobs : (System.jobs { s with thread }).Perm s.jobs := hlisted.append_right s.gone
  refine ⟨hcounted, (hjobs.map _).trans h.serials, ?_, h.finished⟩
  intro job hmem
  exact h.delivered job (hjobs.mem_iff.mp hmem)

theorem serveClients_jobs (send : ℕ → SendOutcome) (s : System) :
    (serveClients send s).jobs =
      (s.thread.pendingList ++ (servePass send 0 s.thread.activeList).1).map Fclient.client ++
        (s.gone ++ (servePass send 0 s.thread.activeList).2) := rfl

/-- A pass keeps everybody in one place. -/
theorem serveClients_serials (send : ℕ → SendOutcome) (s : System) :
    ((serveClients send s).jobs.map Job.serial).Perm (s.jobs.map Job.serial) := by
  have hserials := servePass_serials send 0 s.thread.activeList
  rw [serveClients_jobs, System.jobs, listed]
  generalize (servePass send 0 s.thread.activeList).1 = kept at hserials
  generalize (servePass send 0 s.thread.activeList).2 = gone at hserials
  simp only [List.map_append, List.map_map, List.append_assoc]
  apply List.Perm.append_left
  calc
    List.Perm (kept.map (Job.serial ∘ Fclient.client) ++ (s.gone.map Job.serial ++ gone.map Job.serial))
        (kept.map (Job.serial ∘ Fclient.client) ++ (gone.map Job.serial ++ s.gone.map Job.serial)) :=
      List.perm_append_comm.append_left _
    List.Perm _ (s.thread.activeList.map (Job.serial ∘ Fclient.client) ++ s.gone.map Job.serial) := by
      rw [← List.append_assoc]
      exact hserials.append_right _

/-- In a pass everybody goes on from where he was. -/
theorem serveClients_continues (send : ℕ → SendOutcome) {job : Job}
    (hmem : job ∈ (serveClients send s).jobs) :
    ∃ old ∈ s.jobs, old.serial = job.serial ∧ Continues old.client job.client := by
  have hserved (hin : job ∈ (servePass send 0 s.thread.activeList).1.map Fclient.client ++
      (servePass send 0 s.thread.activeList).2) :
      ∃ old ∈ s.jobs, old.serial = job.serial ∧ Continues old.client job.client := by
    obtain ⟨fclient, hfclient, hserial, hcontinues⟩ := servePass_continues send 0 hin
    refine ⟨fclient.client, ?_, hserial, hcontinues⟩
    exact List.mem_append_left _ (List.mem_map_of_mem (List.mem_append_right _ hfclient))
  rw [serveClients_jobs, List.map_append, List.append_assoc, List.mem_append, List.mem_append,
    List.mem_append] at hmem
  rcases hmem with hpending | hkept | hgone | hleaves
  · refine ⟨job, ?_, rfl, Continues.refl _⟩
    rw [System.jobs, listed, List.map_append]
    exact List.mem_append_left _ (List.mem_append_left _ hpending)
  · exact hserved (List.mem_append_left _ hkept)
  · exact ⟨job, List.mem_append_right _ hgone, rfl, Continues.refl _⟩
  · exact hserved (List.mem_append_right _ hleaves)

theorem Inv.serve (h : Inv s) (send : ℕ → SendOutcome) : Inv (serveClients send s) := by
  refine ⟨?_, (serveClients_serials send s).trans h.serials, ?_, ?_⟩
  · have hcount : s.thread.fserveClients = s.thread.activeList.length := h.counted
    have hlength := (servePass_serials send 0 s.thread.activeList).length_eq
    simp only [List.length_append, List.length_map] at hlength
    change s.thread.fserveClients - (servePass send 0 s.thread.activeList).2.length =
      (servePass send 0 s.thread.activeList).1.length
    omega
  · intro job hmem
    obtain ⟨old, hold, hserial, hcontinues⟩ := serveClients_continues send hmem
    obtain ⟨initial, hinitial, hbefore⟩ := h.delivered old hold
    exact ⟨initial, hserial ▸ hinitial, hbefore.trans hcontinues⟩
  · intro job hmem
    rcases List.mem_append.mp hmem with hmem | hmem
    · exact h.finished job hmem
    · exact servePass_gone send 0 hmem

theorem Inv.stepThread (h : Inv s) (env : Environment) (location : Location) :
    Inv (advance env s location).1 := by
  by_cases hlocation : location = .serving
  · subst hlocation
    exact h.serve env.send
  · have hlisted := @advance_listed Job s.thread ⟨env.memory, env.poll, fun _ ↦ false⟩ location hlocation
    have hstep : (advance env s location).1 =
        { s with thread := (Fserve.advance ⟨env.memory, env.poll, fun _ ↦ false⟩ s.thread location).1 } := by
      cases location <;> first | rfl | exact absurd rfl hlocation
    rw [hstep]
    exact h.of_perm hlisted.1 (hlisted.2 h.counted)

theorem Inv.step (h : Inv s) (event : Event) : Inv (next s event) := by
  cases event with
  | add client => exact h.add client
  | thread i env =>
    simp only [next, fservThreadFunction]
    split
    · exact h
    · rename_i location _
      exact (h.stepThread env location).of_perm (List.Perm.refl _) (h.stepThread env location).counted

theorem inv_run (events : List Event) : Inv (run next start events) :=
  run_invariant next Inv (fun _ event h ↦ h.step event) events inv_start

end Clients

/-! ## Leaving -/

section Leaving

variable {s : System} {job : Job}

/-- The event is a pass in which the client is ready and its connection gets on. -/
def isTurn (serial : ℕ) (s : System) : Event → Bool
  | .add _ => false
  | .thread i env =>
    s.thread.threads[i]? = some .serving && s.thread.activeList.zipIdx.any fun (fclient, j) ↦
      fclient.client.serial = serial && fclient.ready && (env.send j).progresses

def turns (serial : ℕ) : System → List Event → ℕ
  | _, [] => 0
  | s, event :: events =>
    (if isTurn serial s event then 1 else 0) + turns serial (next s event) events

/-- The client has left, or is listed with no more to come than before, and with less after a turn. -/
def StepsOn (job : Job) (turn : Bool) (s : System) : Prop :=
  (∃ left ∈ s.gone, left.serial = job.serial) ∨
    ∃ job' ∈ listed s.thread, job'.serial = job.serial ∧ weight job'.client ≤ weight job.client ∧
      (turn = true → weight job'.client < weight job.client)

theorem stepsOn_of_mem (hmem : job ∈ listed s.thread) : StepsOn job false s :=
  Or.inr ⟨job, hmem, rfl, Nat.le_refl _, nofun⟩

theorem Inv.nodup (h : Inv s) : (s.jobs.map Job.serial).Nodup :=
  h.serials.nodup_iff.mpr List.nodup_range

/-- Who is still pending is not active. -/
theorem Inv.serial_ne_of_pending (h : Inv s) {pending active : Fclient Job}
    (hpending : pending ∈ s.thread.pendingList) (hactive : active ∈ s.thread.activeList) :
    pending.client.serial ≠ active.client.serial := by
  have hnodup := h.nodup
  rw [System.jobs, listed, List.map_append, List.map_append, List.map_append,
    List.append_assoc] at hnodup
  refine (List.nodup_append.mp hnodup).2.2 _ ?_ _ ?_
  · exact List.mem_map_of_mem (List.mem_map_of_mem hpending)
  · exact List.mem_append_left _ (List.mem_map_of_mem (List.mem_map_of_mem hactive))

/-- No two active clients have the same number. -/
theorem Inv.active_inj (h : Inv s) {j k : ℕ} {fclient other : Fclient Job}
    (hj : s.thread.activeList[j]? = some fclient) (hk : s.thread.activeList[k]? = some other)
    (hserial : other.client.serial = fclient.client.serial) : j = k := by
  have hnodup := h.nodup
  rw [System.jobs, listed, List.map_append, List.map_append, List.map_append,
    List.append_assoc] at hnodup
  have hactive := (List.nodup_append.mp (List.nodup_append.mp hnodup).2.1).1
  rw [List.map_map] at hactive
  apply (List.getElem?_inj _ hactive).mp
  · rw [List.getElem?_map, List.getElem?_map, hj, hk, Option.map_some, Option.map_some,
      Function.comp_apply, Function.comp_apply, hserial]
  · rw [List.length_map]
    exact (List.getElem?_eq_some_iff.mp hj).1

theorem Inv.stepsOn_serve (h : Inv s) (hmem : job ∈ listed s.thread) (send : ℕ → SendOutcome) :
    StepsOn job (s.thread.activeList.zipIdx.any fun (fclient, j) ↦
      fclient.client.serial = job.serial && fclient.ready && (send j).progresses)
      (serveClients send s) := by
  obtain ⟨fclient, hfclient, rfl⟩ := List.mem_map.mp hmem
  rcases List.mem_append.mp hfclient with hpending | hactive
  · have hnone : (s.thread.activeList.zipIdx.any fun (other, j) ↦
        other.client.serial = fclient.client.serial && other.ready && (send j).progresses) = false := by
      rw [List.any_eq_false]
      rintro ⟨other, j⟩ hother hturn
      simp only [Bool.and_eq_true, decide_eq_true_eq] at hturn
      exact h.serial_ne_of_pending hpending (List.fst_mem_of_mem_zipIdx hother) hturn.1.1.symm
    rw [hnone]
    refine stepsOn_of_mem ?_
    exact List.mem_map_of_mem (List.mem_append_left _ hpending)
  · obtain ⟨j, hj⟩ := List.mem_iff_getElem?.mp hactive
    have hgets := servePass_getsOn send 0 hj
    rw [Nat.zero_add] at hgets
    rcases hgets with ⟨left, hleft, hserial⟩ | ⟨kept, hkept, hserial, hle, hlt⟩
    · exact Or.inl ⟨left, List.mem_append_right _ hleft, hserial⟩
    · refine Or.inr ⟨kept.client, ?_, hserial, hle, ?_⟩
      · exact List.mem_map_of_mem (List.mem_append_right _ hkept)
      · intro hturn
        obtain ⟨⟨other, k⟩, hother, hspec⟩ := List.any_eq_true.mp hturn
        simp only [Bool.and_eq_true, decide_eq_true_eq] at hspec
        have hk : s.thread.activeList[k]? = some other := List.mem_zipIdx_iff_getElem?.mp hother
        have hsame : j = k := h.active_inj hj hk hspec.1.1
        rw [← hsame, hj] at hk
        obtain rfl := Option.some.inj hk
        apply hlt
        rw [hspec.1.2, hsame, hspec.2]
        rfl

theorem Inv.stepsOn (h : Inv s) (hmem : job ∈ listed s.thread) (event : Event) :
    StepsOn job (isTurn job.serial s event) (next s event) := by
  cases event with
  | add client =>
    refine stepsOn_of_mem ?_
    exact List.mem_cons_of_mem _ hmem
  | thread i env =>
    simp only [isTurn, next, fservThreadFunction]
    cases hlocation : s.thread.threads[i]? with
    | none => exact stepsOn_of_mem hmem
    | some location =>
      by_cases hserving : location = .serving
      · subst hserving
        rw [decide_eq_true rfl, Bool.true_and]
        exact h.stepsOn_serve hmem env.send
      · have hfalse : decide (some location = some Location.serving) = false := by simpa using hserving
        rw [hfalse, Bool.false_and]
        refine stepsOn_of_mem ?_
        have hlisted := (@advance_listed Job s.thread ⟨env.memory, env.poll, fun _ ↦ false⟩ location
          hserving).1
        have hadvance : listed (advance env s location).1.thread =
            listed (Fserve.advance ⟨env.memory, env.poll, fun _ ↦ false⟩ s.thread location).1 := by
          cases location <;> first | rfl | exact absurd rfl hserving
        have hmoved := hlisted.mem_iff.mpr hmem
        rw [← hadvance] at hmoved
        exact hmoved

theorem gone_subset_next (s : System) (event : Event) : s.gone ⊆ (next s event).gone := by
  cases event with
  | add client => exact List.Subset.refl _
  | thread i env =>
    simp only [next, fservThreadFunction]
    split
    · exact List.Subset.refl _
    · rename_i location _
      cases location with
      | serving => exact List.subset_append_left _ _
      | loop | test | move | stopping | polling | stopped => exact List.Subset.refl _

theorem gone_subset_run (s : System) (events : List Event) : s.gone ⊆ (run next s events).gone := by
  induction events generalizing s with
  | nil => exact List.Subset.refl _
  | cons event events ih => exact List.Subset.trans (gone_subset_next s event) (ih (next s event))

/-- Whoever has more turns than bytes and buffers to come has left. -/
theorem Inv.leaves (h : Inv s) (hmem : job ∈ listed s.thread) {events : List Event}
    (hturns : weight job.client < turns job.serial s events) :
    ∃ left ∈ (run next s events).gone, left.serial = job.serial := by
  induction events generalizing s job with
  | nil => cases hturns
  | cons event events ih =>
    rcases h.stepsOn hmem event with ⟨left, hleft, hserial⟩ | ⟨job', hmem', hserial, hle, hlt⟩
    · exact ⟨left, gone_subset_run _ events hleft, hserial⟩
    · rw [turns, ← hserial] at hturns
      rw [← hserial]
      apply ih (h.step event) hmem'
      split at hturns
      · rename_i hturn
        have hless := hlt (hserial ▸ hturn)
        omega
      · omega

end Leaving

/-! ## The result -/

/-- In every run, `fserve_clients` is the length of the active list; everybody who was handed over waits,
is active or has left, once; everybody's socket has been given a beginning of the first buffer, the
file and the other buffers, and all of it if the client has left without a failure; and everybody
leaves who has enough turns. -/
theorem file_delivery (events : List Event) :
    (run next start events).thread.fserveClients = (run next start events).thread.activeList.length ∧
      ((run next start events).jobs.map Job.serial).Perm
        (List.range (run next start events).added.length) ∧
      (∀ job ∈ (run next start events).jobs, ∃ initial delivered,
        (run next start events).added[job.serial]? = some initial ∧
          job.client.sent = initial.sent ++ delivered ∧
          delivered <+: initial.refbuf.drop initial.pos ++ initial.file.getD [] ++ initial.next.flatten ∧
          (job ∈ (run next start events).gone → job.client.error = true ∨
            delivered =
              initial.refbuf.drop initial.pos ++ initial.file.getD [] ++ initial.next.flatten)) ∧
      ∀ job ∈ listed (run next start events).thread, ∀ later,
        weight job.client < turns job.serial (run next start events) later →
          ∃ left ∈ (run next start (events ++ later)).gone, left.serial = job.serial := by
  have hinv := inv_run events
  refine ⟨hinv.counted, hinv.serials, ?_, ?_⟩
  · intro job hmem
    obtain ⟨initial, hinitial, delivered, hsent, hremaining⟩ := hinv.delivered job hmem
    refine ⟨initial, delivered, hinitial, hsent, ⟨_, hremaining.symm⟩, ?_⟩
    intro hgone
    rcases hinv.finished job hgone with herror | hnothing
    · exact Or.inl herror
    · right
      rw [hnothing, List.append_nil] at hremaining
      exact hremaining.symm
  · intro job hmem later hturns
    rw [run_append]
    exact hinv.leaves hmem hturns

/-- A buffer of two bytes, a file of one, and another buffer. -/
def smallClient : Client := ⟨[1, 2], [[4]], 0, by decide, some [3], false, []⟩

/-- Every client is ready in every pass, and its socket takes what it is given. -/
def readyEnvironment : Environment := ⟨true, some fun _ ↦ true, fun _ ↦ .accepted 10⟩

example : (run next start
    (.add smallClient :: List.replicate 17 (.thread 0 readyEnvironment))).gone.map (·.client.sent) =
      [[1, 2, 3, 4]] := by
  decide

end Icecast.Fserve.Delivery
