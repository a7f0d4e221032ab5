import Icecast.Lib.Machine
import Mathlib.Data.List.Basic

/-!
# Dumping a stream to a file

Every buffer that comes into the queue of a source is written to its dump file, behind header data that the
file does not have yet. A write that fails closes the file, and `source->dumpfile` is cleared so that there
are no further writes. Each plugin has its own function for this.
-/

namespace Icecast.Source.DumpFile

open Lib.Machine

/-! ## The file -/

abbrev Bytes := List UInt8

/-- A call of the standard library with the file or, as `file` tells, with `NULL`. -/
inductive Access where
  | write (file : Bool) (data : Bytes) (complete : Bool)
  | close (file : Bool)
  deriving DecidableEq

def Access.Failed : Access → Prop
  | .write _ _ complete => complete = false
  | .close _ => False

/-- `source->dumpfile`, what the plugins remember about headers, and the calls that have been made.
`fileHeaders` is the address of the pages that the file has. -/
structure State where
  dumpfile : Bool
  fileHeadersWritten : Bool
  fileHeaders : Option ℕ
  writes : ℕ
  trace : List Access

/-- The file may be open or not from the start. -/
def start (opened : Bool) : State := ⟨opened, false, none, 0, []⟩

/-- `takes` tells how many bytes the file has room for at each of the writes. -/
def fwrite (takes : ℕ → ℕ) (data : Bytes) (st : State) : ℕ × State :=
  let written := min (takes st.writes) data.length
  (written,
    { st with
      writes := st.writes + 1
      trace := st.trace ++ [.write st.dumpfile data (written = data.length)] })

def fclose (st : State) : State :=
  { st with dumpfile := false, trace := st.trace ++ [.close st.dumpfile] }

/-! ## The plugins -/

/-- `refbuf_t`: the data, and the address and the pages of the associated headers. -/
structure Refbuf where
  data : Bytes
  associated : Option (ℕ × List Bytes)

def writeMp3ToFile (takes : ℕ → ℕ) (refbuf : Refbuf) (st : State) : State :=
  if refbuf.data.length = 0 then st
  else
    let (written, st) := fwrite takes refbuf.data st
    if written < refbuf.data.length then fclose st else st

/-- The result tells whether the data has been written. -/
def writeOggData (takes : ℕ → ℕ) (data : Bytes) (st : State) : Bool × State :=
  let (written, st) := fwrite takes data st
  if written ≠ data.length then (false, fclose st) else (true, st)

def writeOggHeaders (takes : ℕ → ℕ) : List Bytes → State → Bool × State
  | [], st => (true, st)
  | header :: headers, st =>
    match writeOggData takes header st with
    | (false, st) => (false, st)
    | (true, st) => writeOggHeaders takes headers st

def writeOggToFile (takes : ℕ → ℕ) (refbuf : Refbuf) (st : State) : State :=
  if st.fileHeaders ≠ refbuf.associated.map Prod.fst then
    match writeOggHeaders takes (refbuf.associated.elim [] Prod.snd) st with
    | (false, st) => st
    | (true, st) =>
      (writeOggData takes refbuf.data { st with fileHeaders := refbuf.associated.map Prod.fst }).2
  else (writeOggData takes refbuf.data st).2

def ebmlWriteBufToFile (takes : ℕ → ℕ) (header : Bytes) (refbuf : Refbuf) (st : State) : State :=
  let st :=
    if st.fileHeadersWritten then st
    else
      let (written, st) := fwrite takes header st
      if written ≠ header.length then fclose st else { st with fileHeadersWritten := true }
  let (written, st) := fwrite takes refbuf.data st
  if written ≠ refbuf.data.length then fclose st else st

inductive Plugin where
  | mp3
  | ogg
  | ebml
  deriving DecidableEq

/-- A buffer is queued, with the header that an EBML source has, or the source is cleared. -/
inductive Event where
  | buffer (refbuf : Refbuf) (header : Bytes)
  | clear

def writeBufToFile (plugin : Plugin) (takes : ℕ → ℕ) (refbuf : Refbuf) (header : Bytes) (st : State) :
    State :=
  match plugin with
  | .mp3 => writeMp3ToFile takes refbuf st
  | .ogg => writeOggToFile takes refbuf st
  | .ebml => ebmlWriteBufToFile takes header refbuf st

/-- `source_main` and `source_clear_source` look at the file first. -/
def step (plugin : Plugin) (takes : ℕ → ℕ) (st : State) : Event → State
  | .buffer refbuf header =>
    if st.dumpfile then writeBufToFile plugin takes refbuf header st else st
  | .clear => if st.dumpfile then fclose st else st

/-! ## What is expected -/

/-- Behind a write that fails there is one close and nothing else. -/
def ClosedOnce (trace : List Access) : Prop :=
  ∀ before access after, trace = before ++ access :: after → access.Failed → after = [.close true]

/-- For EBML the header comes before the first buffer, if there is a file. -/
def HeaderFits (plugin : Plugin) (takes : ℕ → ℕ) (opened : Bool) (events : List Event) : Prop :=
  plugin = .ebml → opened = true → ∀ refbuf header rest, events = .buffer refbuf header :: rest →
    header.length ≤ takes 0

/-! ## Traces -/

def Intact (trace : List Access) : Prop := ∀ access ∈ trace, ¬ access.Failed

theorem Intact.closedOnce {trace : List Access} (h : Intact trace) : ClosedOnce trace := by
  intro before access after htrace hfailed
  exact absurd hfailed (h access (htrace ▸ List.mem_append_right before List.mem_cons_self))

theorem Intact.append {trace : List Access} (h : Intact trace) {access : Access} (hok : ¬ access.Failed) :
    Intact (trace ++ [access]) := by
  intro other hother
  rw [List.mem_append, List.mem_singleton] at hother
  cases hother with
  | inl hmem => exact h other hmem
  | inr heq => exact heq ▸ hok

/-- The first write that fails, and the close behind it. -/
theorem Intact.closedOnce_append {trace : List Access} (h : Intact trace) (access : Access) :
    ClosedOnce (trace ++ [access] ++ [.close true]) := by
  intro before other after htrace hfailed
  rw [List.append_assoc, List.append_eq_append_iff] at htrace
  obtain ⟨between, -, htail⟩ | ⟨between, hbefore, htail⟩ := htrace
  · match between with
    | [] => exact (List.cons.inj htail).2.symm
    | [_] =>
      rw [← (List.cons.inj (List.cons.inj htail).2).1] at hfailed
      exact absurd hfailed id
    | _ :: _ :: _ => simp at htail
  · match between with
    | [] => exact (List.cons.inj htail).2
    | first :: between =>
      have hmem : other ∈ trace := by
        rw [hbefore, (List.cons.inj htail).1]
        exact List.mem_append_right before List.mem_cons_self
      exact absurd hfailed (h other hmem)

/-! ## States -/

/-- The state that every call is expected to leave. -/
structure State.Good (st : State) : Prop where
  closedOnce : ClosedOnce st.trace
  intact : st.dumpfile → Intact st.trace

/-- The state in which a plugin is called. -/
structure State.Open (st : State) : Prop where
  dumpfile : st.dumpfile = true
  intact : Intact st.trace

variable {st : State} {takes : ℕ → ℕ} {data header : Bytes} {refbuf : Refbuf}

theorem State.Open.good (h : st.Open) : st.Good := ⟨h.intact.closedOnce, fun _ ↦ h.intact⟩

theorem State.Good.open (h : st.Good) (hfile : st.dumpfile = true) : st.Open := ⟨hfile, h.intact hfile⟩

theorem fwrite_le (takes : ℕ → ℕ) (data : Bytes) (st : State) : (fwrite takes data st).1 ≤ data.length :=
  Nat.min_le_right _ _

theorem State.Open.fwrite (h : st.Open) (hcomplete : (fwrite takes data st).1 = data.length) :
    (fwrite takes data st).2.Open where
  dumpfile := h.dumpfile
  intact := h.intact.append fun hfailed ↦ absurd hcomplete (of_decide_eq_false hfailed)

theorem State.Open.fclose (h : st.Open) (takes : ℕ → ℕ) (data : Bytes) :
    (fclose (DumpFile.fwrite takes data st).2).Good where
  closedOnce := by
    have hclosed := h.intact.closedOnce_append
      (.write st.dumpfile data (decide ((DumpFile.fwrite takes data st).1 = data.length)))
    rw [← h.dumpfile] at hclosed
    exact hclosed
  intact hfile := absurd hfile Bool.false_ne_true

/-! ## The plugins, one call at a time -/

theorem writeMp3ToFile_good (h : st.Open) (takes : ℕ → ℕ) (refbuf : Refbuf) :
    (writeMp3ToFile takes refbuf st).Good := by
  unfold writeMp3ToFile
  split_ifs with hempty
  · exact h.good
  · dsimp only
    split_ifs with hless
    · exact h.fclose takes refbuf.data
    · exact (h.fwrite (Nat.le_antisymm (fwrite_le _ _ _) (Nat.le_of_not_lt hless))).good

theorem writeOggData_good (h : st.Open) (takes : ℕ → ℕ) (data : Bytes) :
    (writeOggData takes data st).2.Good ∧
      ((writeOggData takes data st).1 = true → (writeOggData takes data st).2.Open) := by
  unfold writeOggData
  dsimp only
  split_ifs with hshort
  · exact ⟨h.fclose takes data, False.elim⟩
  · have hopen := h.fwrite (not_not.mp hshort)
    exact ⟨hopen.good, fun _ ↦ hopen⟩

/-- The loop over the header pages ends at the first that fails. -/
theorem writeOggHeaders_good (h : st.Open) (takes : ℕ → ℕ) (headers : List Bytes) :
    (writeOggHeaders takes headers st).2.Good ∧
      ((writeOggHeaders takes headers st).1 = true → (writeOggHeaders takes headers st).2.Open) := by
  induction headers generalizing st with
  | nil => exact ⟨h.good, fun _ ↦ h⟩
  | cons header headers ih =>
    obtain ⟨hgood, hopen⟩ := writeOggData_good h takes header
    unfold writeOggHeaders
    cases hwrite : writeOggData takes header st with
    | mk done after =>
      rw [hwrite] at hgood hopen
      cases done with
      | false => exact ⟨hgood, fun hdone ↦ absurd hdone Bool.false_ne_true⟩
      | true => exact ih (hopen rfl)

theorem writeOggToFile_good (h : st.Open) (takes : ℕ → ℕ) (refbuf : Refbuf) :
    (writeOggToFile takes refbuf st).Good := by
  obtain ⟨hgood, hopen⟩ := writeOggHeaders_good h takes (refbuf.associated.elim [] Prod.snd)
  unfold writeOggToFile
  split_ifs with hheaders
  · cases hwrite : writeOggHeaders takes (refbuf.associated.elim [] Prod.snd) st with
    | mk done after =>
      rw [hwrite] at hgood hopen
      cases done with
      | false => exact hgood
      | true =>
        have hnext : State.Open { after with fileHeaders := refbuf.associated.map Prod.fst } :=
          ⟨(hopen rfl).dumpfile, (hopen rfl).intact⟩
        exact (writeOggData_good hnext takes refbuf.data).1
  · exact (writeOggData_good h takes refbuf.data).1

/-- Behind the header, an EBML buffer is written like every other. -/
theorem ebmlWriteBufToFile_body (h : st.Open) (hheader : st.fileHeadersWritten = true) (takes : ℕ → ℕ)
    (header : Bytes) (refbuf : Refbuf) : (ebmlWriteBufToFile takes header refbuf st).Good ∧
      (ebmlWriteBufToFile takes header refbuf st).fileHeadersWritten = true := by
  unfold ebmlWriteBufToFile
  rw [if_pos hheader]
  dsimp only
  split_ifs with hshort
  · exact ⟨h.fclose takes refbuf.data, hheader⟩
  · exact ⟨(h.fwrite (not_not.mp hshort)).good, hheader⟩

/-- A header that fits is written before the buffer. -/
theorem ebmlWriteBufToFile_header (h : st.Open) (hheader : st.fileHeadersWritten = false)
    (hfits : header.length ≤ takes st.writes) (refbuf : Refbuf) :
    ebmlWriteBufToFile takes header refbuf st = ebmlWriteBufToFile takes header refbuf
        { (fwrite takes header st).2 with fileHeadersWritten := true } ∧
      State.Open { (fwrite takes header st).2 with fileHeadersWritten := true } := by
  have hcomplete : (fwrite takes header st).1 = header.length := Nat.min_eq_right hfits
  have hopen := h.fwrite hcomplete
  refine ⟨?_, hopen.dumpfile, hopen.intact⟩
  unfold ebmlWriteBufToFile
  rw [if_neg (hheader ▸ Bool.false_ne_true), if_pos rfl]
  dsimp only
  rw [if_neg (not_not.mpr hcomplete)]

/-! ## Runs -/

variable {plugin : Plugin} {events : List Event}

/-- What a run keeps; an EBML file that is open has its header. -/
structure State.Kept (plugin : Plugin) (st : State) : Prop extends st.Good where
  header : plugin = .ebml → st.dumpfile = true → st.fileHeadersWritten = true

theorem step_closed (plugin : Plugin) (takes : ℕ → ℕ) (h : st.dumpfile = false) (event : Event) :
    step plugin takes st event = st := by
  cases event with
  | buffer refbuf header => exact if_neg (h ▸ Bool.false_ne_true)
  | clear => exact if_neg (h ▸ Bool.false_ne_true)

/-- Without a file there are no more accesses. -/
theorem run_closed (plugin : Plugin) (takes : ℕ → ℕ) (h : st.dumpfile = false) (events : List Event) :
    run (step plugin takes) st events = st := by
  induction events with
  | nil => rfl
  | cons event events ih => rw [run_cons, step_closed plugin takes h, ih]

theorem fclose_good (h : st.Open) : (fclose st).Good where
  closedOnce := (h.intact.append id).closedOnce
  intact hfile := absurd hfile Bool.false_ne_true

theorem State.Kept.step (h : st.Kept plugin) (takes : ℕ → ℕ) (event : Event) :
    (step plugin takes st event).Kept plugin := by
  cases hfile : st.dumpfile with
  | false =>
    rw [step_closed plugin takes hfile]
    exact h
  | true =>
    have hopen := h.toGood.open hfile
    cases event with
    | buffer refbuf header =>
      rw [DumpFile.step, if_pos hfile]
      cases plugin with
      | mp3 => exact ⟨writeMp3ToFile_good hopen takes refbuf, nofun⟩
      | ogg => exact ⟨writeOggToFile_good hopen takes refbuf, nofun⟩
      | ebml =>
        obtain ⟨hgood, hheader⟩ := ebmlWriteBufToFile_body hopen (h.header rfl hfile) takes header refbuf
        exact ⟨hgood, fun _ _ ↦ hheader⟩
    | clear =>
      rw [DumpFile.step, if_pos hfile]
      exact ⟨fclose_good hopen, fun _ hclosed ↦ absurd hclosed Bool.false_ne_true⟩

theorem State.Kept.run (h : st.Kept plugin) (takes : ℕ → ℕ) (events : List Event) :
    (run (DumpFile.step plugin takes) st events).Kept plugin :=
  run_invariant (DumpFile.step plugin takes) (State.Kept plugin) (fun _ event hkept ↦ hkept.step takes event)
    events h

theorem start_good (opened : Bool) : (start opened).Good where
  closedOnce := by
    apply Intact.closedOnce
    exact fun _ haccess ↦ absurd haccess List.not_mem_nil
  intact _ _ haccess := absurd haccess List.not_mem_nil

/-- A header that does not fit: the file is closed, and then the buffer is written to `NULL`. -/
theorem ebmlWriteBufToFile_short (hshort : takes 0 < header.length) (refbuf : Refbuf) :
    (ebmlWriteBufToFile takes header refbuf (start true)).dumpfile = false ∧
      ∃ complete tail, (ebmlWriteBufToFile takes header refbuf (start true)).trace =
        .write true header false :: .close true :: .write false refbuf.data complete :: tail := by
  have hcut : min (takes 0) header.length ≠ header.length := by omega
  unfold ebmlWriteBufToFile
  simp only [start, Bool.false_eq_true, if_false, fwrite, fclose, hcut, ne_eq, not_false_eq_true, if_true,
    decide_false, List.nil_append, List.cons_append]
  split_ifs
  · exact ⟨rfl, _, _, rfl⟩
  · exact ⟨rfl, _, _, rfl⟩

theorem not_closedOnce_of_header (hshort : takes 0 < header.length) (refbuf : Refbuf)
    (events : List Event) :
    ¬ ClosedOnce (run (step .ebml takes) (start true) (.buffer refbuf header :: events)).trace := by
  intro h
  obtain ⟨hclosed, complete, tail, htrace⟩ := ebmlWriteBufToFile_short hshort refbuf
  have hrun : run (step .ebml takes) (start true) (.buffer refbuf header :: events) =
      ebmlWriteBufToFile takes header refbuf (start true) := run_closed .ebml takes hclosed events
  rw [hrun] at h
  have hafter := h [] _ _ htrace rfl
  simp at hafter

/-- A header that fits leaves nothing but buffers to write. -/
theorem kept_of_headerFits (h : HeaderFits .ebml takes true events) :
    (run (step .ebml takes) (start true) events).Good := by
  cases events with
  | nil => exact start_good true
  | cons event events =>
    have hopen : (start true).Open := (start_good true).open rfl
    have hnext : (step .ebml takes (start true) event).Kept .ebml := by
      cases event with
      | clear => exact ⟨fclose_good hopen, fun _ hclosed ↦ absurd hclosed Bool.false_ne_true⟩
      | buffer refbuf header =>
        have hfits : header.length ≤ takes 0 := h rfl rfl refbuf header events rfl
        obtain ⟨hheader, hwritten⟩ := ebmlWriteBufToFile_header hopen rfl hfits refbuf
        obtain ⟨hgood, hfile⟩ := ebmlWriteBufToFile_body hwritten rfl takes header refbuf
        have hstep : step .ebml takes (start true) (.buffer refbuf header) =
            ebmlWriteBufToFile takes header refbuf (start true) := rfl
        rw [hstep, hheader]
        exact ⟨hgood, fun _ _ ↦ hfile⟩
    exact (hnext.run takes events).toGood

/-- Behind the first write that fails there is exactly one close, whatever the plugin, the buffers and
the writes, if and only if a header that goes before the first buffer of an EBML stream fits. -/
theorem dumpfile_closed_once_iff (plugin : Plugin) (takes : ℕ → ℕ) (opened : Bool) (events : List Event) :
    ClosedOnce (run (step plugin takes) (start opened) events).trace ↔
      HeaderFits plugin takes opened events := by
  constructor
  · intro h hplugin hopened refbuf header rest hevents
    by_contra hshort
    rw [hplugin, hopened, hevents] at h
    exact not_closedOnce_of_header (Nat.lt_of_not_le hshort) refbuf rest h
  · intro h
    by_cases hkept : plugin = .ebml ∧ opened = true
    · obtain ⟨rfl, rfl⟩ := hkept
      exact (kept_of_headerFits h).closedOnce
    · have hstart : (start opened).Kept plugin :=
        ⟨start_good opened, fun hplugin hopened ↦ absurd ⟨hplugin, hopened⟩ hkept⟩
      exact (hstart.run takes events).closedOnce

/-- The disk is full when the header of a stream comes. -/
theorem dumpfile_not_closed_once : ¬ ∀ plugin takes opened events,
    ClosedOnce (run (step plugin takes) (start opened) events).trace := by
  intro h
  have hclosed := h .ebml (fun _ ↦ 0) true [.buffer ⟨[0], none⟩ [26]]
  have hshort : (fun _ : ℕ ↦ 0) 0 < [(26 : UInt8)].length := Nat.zero_lt_one
  exact not_closedOnce_of_header hshort ⟨[0], none⟩ [] hclosed

end Icecast.Source.DumpFile
