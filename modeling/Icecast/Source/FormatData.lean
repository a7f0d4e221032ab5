import Icecast.Source.Moving

/-!
# The format data of a listener

`format_data` of a listener is made by the plugin of the source that builds its header, and used by
the `write_buf_to_client` of the source it is on later. The two belong to the same format as long as
no listener with data of another format is on a source when its plugin is set up, or comes to a
source with a plugin from one without. `source_move_clients` compares the formats of both sources,
but an on-demand source that is not running has none.
-/

namespace Icecast.Source.Delivery

open Lib Lib.Machine
open scoped List

/-- The data of the listener, if it has any, is of the given format. -/
def Fits (type : FormatType) (client : Client) : Prop :=
  client.formatData = none ∨ client.formatData = some type

instance (type : FormatType) (client : Client) : Decidable (Fits type client) :=
  inferInstanceAs (Decidable (_ ∨ _))

/-- The writer of the listener finds data of its own format. -/
def WriterFits (client : Client) : Prop :=
  ∀ type, client.writeToClient = .writeBufToClient type → client.formatData = some type

/-- A listener of a source with the given plugin. It has data from the end of its header on. -/
structure DataOk (format : Option FormatType) (client : Client) : Prop where
  fits : ∀ type, format = some type → Fits type client
  writer : WriterFits client
  made : client.checkBuffer ≠ .formatCheckHttpBuffer ∨ client.respcode ≠ 0 ∧ client.error = false →
    client.formatData ≠ none

section Pass

variable {type : FormatType} {client : Client}

theorem DataOk.formatData_eq (h : DataOk (some type) client) (hmade : client.formatData ≠ none) :
    client.formatData = some type :=
  (h.fits type rfl).resolve_left hmade

/-- A listener that is given the writer of its source. -/
theorem DataOk.setWriter (h : DataOk (some type) client) (hmade : client.formatData ≠ none)
    {next : Client} (hdata : next.formatData = client.formatData)
    (hwriter : next.writeToClient = .writeBufToClient type) : DataOk (some type) next := by
  have htype : next.formatData = some type := hdata.trans (h.formatData_eq hmade)
  refine ⟨?_, ?_, ?_⟩
  · intro other hother
    exact Or.inr (htype.trans hother)
  · intro other hother
    rw [hwriter] at hother
    rw [htype, Writer.writeBufToClient.inj hother]
  · intro _ hnone
    exact Option.some_ne_none type (htype.symm.trans hnone)

/-- Neither `refbuf` nor `pos` nor `intro_offset` plays a role. -/
theorem DataOk.congr {format : Option FormatType} (h : DataOk format client) {next : Client}
    (hdata : next.formatData = client.formatData)
    (hwriter : next.writeToClient = client.writeToClient)
    (hcheck : next.checkBuffer = client.checkBuffer) (hrespcode : next.respcode = client.respcode)
    (herror : client.error = true → next.error = true) : DataOk format next := by
  refine ⟨?_, ?_, ?_⟩
  · intro type htype
    unfold Fits
    rw [hdata]
    exact h.fits type htype
  · intro type htype
    rw [hdata]
    exact h.writer type (hwriter.symm.trans htype)
  · intro hphase
    rw [hdata]
    apply h.made
    rw [hcheck, hrespcode] at hphase
    cases hphase with
    | inl hbehind => exact Or.inl hbehind
    | inr hanswered =>
      refine Or.inr ⟨hanswered.1, ?_⟩
      by_contra hold
      exact absurd (herror (by simpa using hold)) (by simp [hanswered.2])

theorem findClientStart_dataOk (h : DataOk (some type) client)
    (hcheck : client.checkBuffer ≠ .formatCheckHttpBuffer) (source : SourceState) (mem : Memory) :
    DataOk (some type) (findClientStart type source mem client).2 := by
  unfold findClientStart
  split
  · exact h
  · exact h.setWriter (h.made (Or.inl hcheck)) rfl rfl

theorem checkFileData_dataOk (h : DataOk (some type) client)
    (hcheck : client.checkBuffer ≠ .formatCheckHttpBuffer) (source : SourceState) (addr : ℕ)
    (mem : Memory) : DataOk (some type) (checkFileData type source addr mem client).2.2 := by
  unfold checkFileData
  dsimp only
  split_ifs
  · exact h.congr rfl rfl rfl rfl id
  · have hreset : DataOk (some type) (clientSetQueue mem client none).2 :=
      h.congr rfl rfl rfl rfl id
    exact findClientStart_dataOk hreset hcheck source _
  · exact h.congr rfl rfl rfl rfl id
  · exact h

theorem formatCheckFileBuffer_dataOk (h : DataOk (some type) client)
    (hcheck : client.checkBuffer ≠ .formatCheckHttpBuffer) (source : SourceState) (mem : Memory) :
    DataOk (some type) (formatCheckFileBuffer type source mem client).2.2 := by
  unfold formatCheckFileBuffer
  split
  · exact checkFileData_dataOk h hcheck source _ mem
  · split
    · exact findClientStart_dataOk h hcheck source mem
    · have hnew : DataOk (some type) { client with
          refbuf := some mem.fresh, pos := perClientRefbufSize, introOffset := 0 } :=
        h.congr rfl rfl rfl rfl id
      exact checkFileData_dataOk hnew hcheck source _ _

theorem checkHttpSent_dataOk (h : DataOk (some type) client) (hmade : client.formatData ≠ none)
    (addr : ℕ) (mem : Memory) :
    DataOk (some type) (checkHttpSent type addr mem client).2.2 := by
  unfold checkHttpSent
  split
  · exact h.setWriter hmade rfl rfl
  · exact h

theorem formatCheckHttpBuffer_dataOk (h : DataOk (some type) client)
    (hcheck : client.checkBuffer = .formatCheckHttpBuffer) (herror : client.error = false)
    (pass : Pass) (mem : Memory) :
    DataOk (some type) (formatCheckHttpBuffer type pass mem client).2.2 := by
  unfold formatCheckHttpBuffer
  split
  · exact h
  · split
    · split
      · -- The listener has failed and is not looked at again.
        exact ⟨h.fits, h.writer, by simp [hcheck]⟩
      · apply checkHttpSent_dataOk
        · refine ⟨?_, ?_, ?_⟩
          · intro other hother
            exact Or.inr hother
          · intro other hother
            have hnone := h.writer other hother
            exact (h.fits type rfl).elim (fun hnew ↦ by simp [hnew] at hnone)
              fun hold ↦ hold.symm.trans hnone
          · simp
        · simp
    · rename_i hrespcode
      exact checkHttpSent_dataOk h (h.made (Or.inr ⟨hrespcode, herror⟩)) _ mem

theorem formatAdvanceQueue_dataOk {format : Option FormatType} (h : DataOk format client)
    (mem : Memory) : DataOk format (formatAdvanceQueue mem client).2.2 := by
  unfold formatAdvanceQueue
  split
  · exact h
  · split
    · split
      · exact h
      · exact h.congr rfl rfl rfl rfl id
    · exact h

theorem checkBuffer_dataOk (h : DataOk (some type) client) (herror : client.error = false)
    (source : SourceState) (pass : Pass) (mem : Memory) :
    DataOk (some type) (checkBuffer type source pass mem client).2.2 := by
  unfold checkBuffer
  split
  · rename_i hcheck
    exact formatCheckHttpBuffer_dataOk h hcheck herror pass mem
  · rename_i hcheck
    exact formatCheckFileBuffer_dataOk h (by simp [hcheck]) source mem
  · exact formatAdvanceQueue_dataOk h mem

theorem writeToClient_dataOk {format : Option FormatType} (h : DataOk format client) (pass : Pass)
    (mem : Memory) : DataOk format (writeToClient pass mem client) := by
  unfold writeToClient
  split
  · exact h
  · split
    · exact h.congr rfl rfl rfl rfl id
    · split
      · exact ⟨h.fits, fun type hwriter ↦ (nomatch hwriter), h.made⟩
      · exact h
    · exact h.congr rfl rfl rfl rfl id

/-- A pass keeps the listener in order, and its call finds the right data. -/
theorem sendToListener_dataOk (h : DataOk (some type) client) (source : SourceState) (pass : Pass)
    (mem : Memory) :
    DataOk (some type) (sendToListener type source pass mem client).2.1 ∧
      ∀ call ∈ (sendToListener type source pass mem client).2.2, WriterFits call := by
  unfold sendToListener
  split
  · exact ⟨h, fun call hcall ↦ nomatch hcall⟩
  · rename_i herror
    have hchecked := checkBuffer_dataOk h (by simpa using herror) source pass mem
    dsimp only
    split
    · exact ⟨hchecked, fun call hcall ↦ nomatch hcall⟩
    · refine ⟨writeToClient_dataOk hchecked pass _, ?_⟩
      intro call hcall
      rw [← Option.some.inj hcall]
      exact hchecked.writer

end Pass

/-! ## All listeners -/

def SourceDataOk (source : SourceState) : Prop := ∀ client ∈ source.trees, DataOk source.format client

structure DataInv (s : State) : Prop where
  sources : ∀ id source, s.sources.objects id = some source → SourceDataOk source
  calls : ∀ call ∈ s.calls, WriterFits call

/-- Whenever the plugin of a source is set up, and whenever listeners come from a source without a
plugin to one with a plugin, their data is of the format of that plugin. -/
def KeepsFormat (s : State) : Event → Prop
  | .completeSource id type _ _ => ∀ source ∈ s.sources.objects id, source.active = false →
    ∀ client ∈ source.trees, Fits type client
  | .move id dest => ∀ source ∈ s.sources.objects id, ∀ target ∈ s.sources.objects dest,
    movable source target = true → source.format = none → ∀ type ∈ target.format,
      ∀ client ∈ source.trees, Fits type client
  | _ => True

instance (s : State) : ∀ event, Decidable (KeepsFormat s event)
  | .completeSource id type _ _ =>
    inferInstanceAs (Decidable (∀ source ∈ s.sources.objects id, source.active = false →
      ∀ client ∈ source.trees, Fits type client))
  | .move id dest =>
    inferInstanceAs (Decidable (∀ source ∈ s.sources.objects id,
      ∀ target ∈ s.sources.objects dest, movable source target = true → source.format = none →
        ∀ type ∈ target.format, ∀ client ∈ source.trees, Fits type client))
  | .reserve _ | .updateSettings _ _ _ _ _ _ | .init _ | .connect _ | .append _ _ _ | .trim _
  | .pass _ _ _ | .setError _ _ | .removeClients _ | .addPending _ | .stop _ | .clear _ =>
    .isTrue trivial

theorem SourceDataOk.of_subset {source next : SourceState} (h : SourceDataOk source)
    (hformat : next.format = source.format) (htrees : next.trees ⊆ source.trees) :
    SourceDataOk next := by
  intro client hclient
  rw [hformat]
  exact h client (htrees hclient)

theorem DataInv.onSource {s : State} (inv : DataInv s) (id : ℕ)
    {f : Memory → SourceState → Memory × SourceState}
    (hf : ∀ source, s.sources.objects id = some source → SourceDataOk source →
      SourceDataOk (f s.mem source).2) : DataInv (Delivery.onSource id f s) := by
  unfold Delivery.onSource
  split
  · exact inv
  · rename_i source hsource
    refine ⟨fun _ _ ↦ Heap.forall_modify inv.sources fun _ _ ↦ ?_, inv.calls⟩
    exact hf source hsource (inv.sources id source hsource)

theorem markClient_dataOk {source : SourceState} (h : SourceDataOk source) (i : ℕ) :
    SourceDataOk (markClient i source) := by
  intro client hclient
  cases List.mem_append.mp hclient with
  | inl hpending => exact h client (List.mem_append_left _ hpending)
  | inr htree =>
    obtain ⟨place, hplace⟩ := List.getElem?_of_mem htree
    rw [markClient, List.getElem?_modify] at hplace
    obtain ⟨old, hold, heq⟩ := Option.map_eq_some_iff.mp hplace
    have hok := h old (List.mem_append_right _ (List.mem_of_getElem? hold))
    rw [← heq]
    split
    · exact hok.congr rfl rfl rfl rfl fun _ ↦ rfl
    · exact hok

theorem addListener_dataOk {source : SourceState} (h : SourceDataOk source) (client : ℕ)
    (mem : Memory) : SourceDataOk (addListener client mem source).2 := by
  intro other hother
  cases List.mem_cons.mp ((addListener_trees client mem source).mem_iff.mp hother) with
  | inl hnew =>
    rw [hnew]
    exact ⟨fun _ _ ↦ Or.inl rfl, fun type hwriter ↦ (nomatch hwriter), by simp [newListener]⟩
  | inr hold => exact h other hold

theorem onQueue_trees (f : Queue.SourceState → Queue.SourceState) (mem : Memory) (source : SourceState) :
    (onQueue f mem source).2.trees = source.trees ∧
      (onQueue f mem source).2.format = source.format := by
  unfold onQueue
  split
  · exact ⟨rfl, rfl⟩
  · exact ⟨rfl, rfl⟩

theorem DataInv.passClient {s : State} (inv : DataInv s) (id i : ℕ) (pass : Pass) :
    DataInv (Delivery.passClient id i pass s) := by
  unfold Delivery.passClient
  split
  · exact inv
  · rename_i source hsource
    split
    · rename_i type client hformat hclient
      split
      · have hok := inv.sources id source hsource
        have hmem : client ∈ source.trees := List.mem_append_right _ (List.mem_of_getElem? hclient)
        have hsent := sendToListener_dataOk (hformat ▸ hok client hmem) source pass s.mem
        constructor
        · intro other found
          apply Heap.forall_modify inv.sources
          intro _ _ client' hclient'
          cases List.mem_append.mp hclient' with
          | inl hpending => exact hok client' (List.mem_append_left _ hpending)
          | inr htree =>
            cases List.mem_or_eq_of_mem_set htree with
            | inl hold => exact hok client' (List.mem_append_right _ hold)
            | inr hnew =>
              rw [hnew, hformat]
              exact hsent.1
        · intro call hcall
          cases List.mem_append.mp hcall with
          | inl hnew => exact hsent.2 call (Option.mem_toList.mp hnew)
          | inr hold => exact inv.calls call hold
      · exact inv
    · exact inv

/-! ## Moves -/

theorem relocated_dataOk {format : Option FormatType} {client : Client} (h : DataOk format client)
    (con : Bool) : DataOk format (relocated con client) := by
  unfold relocated
  split
  · exact h
  · rename_i hcheck
    exact ⟨h.fits, h.writer, fun _ ↦ h.made (Or.inl hcheck)⟩

/-- A listener fits on another source of the same format. -/
theorem DataOk.change {format dest : Option FormatType} {client : Client} (h : DataOk format client)
    (hfits : ∀ type, dest = some type → Fits type client) : DataOk dest client :=
  ⟨hfits, h.writer, h.made⟩

theorem format_eq_of_sameType {source dest : SourceState} (h : sameType source dest = true)
    {type destType : FormatType} (hsource : source.format = some type)
    (hdest : dest.format = some destType) : type = destType := by
  simpa [sameType, hsource, hdest] using h

theorem moved_dataOk (mem : Memory) {source dest : SourceState} (hmovable : movable source dest = true)
    (hsource : SourceDataOk source) (hdest : SourceDataOk dest)
    (hfits : source.format = none → ∀ type, dest.format = some type →
      ∀ client ∈ source.trees, Fits type client) :
    SourceDataOk (sourceMoveClients mem source dest).2.2 := by
  rw [sourceMoveClients_of_movable mem hmovable]
  intro client hclient
  cases List.mem_append.mp hclient with
  | inr htree => exact hdest client (List.mem_append_right _ htree)
  | inl hpending =>
    cases List.mem_append.mp ((bothLoops_perm mem source dest).mem_iff.mp hpending) with
    | inl hold => exact hdest client (List.mem_append_left _ hold)
    | inr hmoved =>
      obtain ⟨old, hold, heq⟩ := List.mem_map.mp hmoved
      rw [← heq]
      apply relocated_dataOk
      apply (hsource old hold).change
      intro destType hdestType
      cases hformat : source.format with
      | none => exact hfits hformat destType hdestType old hold
      | some type =>
        have htype : sameType source dest = true := by
          simp only [movable, Bool.and_eq_true] at hmovable
          exact hmovable.2
        rw [← format_eq_of_sameType htype hformat hdestType]
        exact (hsource old hold).fits type hformat

theorem DataInv.moveClients {s : State} (inv : DataInv s) {id dest : ℕ}
    (hkeeps : KeepsFormat s (.move id dest)) : DataInv (Delivery.moveClients id dest s) := by
  unfold Delivery.moveClients
  split
  · rename_i source target hsource htarget
    split
    · exact inv
    · have hok := inv.sources id source hsource
      have htargetOk := inv.sources dest target htarget
      have hboth : SourceDataOk (sourceMoveClients s.mem source target).2.1 ∧
          SourceDataOk (sourceMoveClients s.mem source target).2.2 := by
        cases hmovable : movable source target with
        | false =>
          rw [sourceMoveClients_of_not_movable s.mem hmovable]
          exact ⟨hok, htargetOk⟩
        | true =>
          refine ⟨?_, moved_dataOk s.mem hmovable hok htargetOk fun hformat type htype ↦ ?_⟩
          · rw [sourceMoveClients_of_movable s.mem hmovable]
            exact fun client hclient ↦ nomatch hclient
          · exact hkeeps source hsource target htarget hmovable hformat type htype
      refine ⟨?_, inv.calls⟩
      have hemptied : ∀ other found, (s.sources.modify id fun _ ↦
          (sourceMoveClients s.mem source target).2.1).objects other = some found →
          SourceDataOk found :=
        fun _ _ ↦ Heap.forall_modify inv.sources fun _ _ ↦ hboth.1
      exact fun _ _ ↦ Heap.forall_modify hemptied fun _ _ ↦ hboth.2
  · exact inv

theorem step_dataInv (s : State) (event : Event) (inv : DataInv s) (hkeeps : KeepsFormat s event) :
    DataInv (step s event) := by
  cases event with
  | reserve mount =>
    have hempty : SourceDataOk (reserved mount) :=
      fun client hclient ↦ (List.not_mem_nil hclient).elim
    exact ⟨fun _ _ ↦ Heap.forall_alloc inv.sources hempty, inv.calls⟩
  | updateSettings id onDemand introFile maxListeners burstSize queueSizeLimit =>
    exact inv.onSource id fun source _ h ↦ h.of_subset rfl (List.Subset.refl _)
  | completeSource id type client con =>
    apply inv.onSource id
    intro source hsource h
    unfold plain
    dsimp only
    split
    · exact h
    · rename_i hidle
      intro client hclient
      apply (h client hclient).change
      intro other hother
      rw [← Option.some.inj hother]
      exact hkeeps source hsource (by simpa using hidle) client hclient
  | init id =>
    apply inv.onSource id
    intro source hsource h
    unfold plain
    dsimp only
    split
    · exact h
    · exact h.of_subset rfl (List.Subset.refl _)
  | connect id =>
    have hadded := inv.onSource id fun source _ h ↦ addListener_dataOk h s.nextId s.mem
    exact ⟨hadded.sources, hadded.calls⟩
  | append id len syncPoint =>
    exact inv.onSource id fun source _ h ↦
      h.of_subset (onQueue_trees _ _ _).2 (List.Perm.of_eq (onQueue_trees _ _ _).1).subset
  | trim id =>
    exact inv.onSource id fun source _ h ↦
      h.of_subset (onQueue_trees _ _ _).2 (List.Perm.of_eq (onQueue_trees _ _ _).1).subset
  | pass id i pass => exact inv.passClient id i pass
  | setError id i => exact inv.onSource id fun source _ h ↦ markClient_dataOk h i
  | removeClients id =>
    exact inv.onSource id fun source _ h ↦ h.of_subset rfl (removeClients_trees _ _).subset
  | addPending id =>
    exact inv.onSource id fun source _ h ↦ h.of_subset rfl (addPending_trees _ _).subset
  | move id dest => exact inv.moveClients hkeeps
  | stop id => exact inv.onSource id fun source _ h ↦ h.of_subset rfl (List.Subset.refl _)
  | clear id =>
    exact inv.onSource id fun source _ _ client hclient ↦ (List.not_mem_nil hclient).elim

theorem start_dataInv : DataInv start :=
  ⟨fun _ _ hsource ↦ (nomatch hsource), fun _ hcall ↦ (List.not_mem_nil hcall).elim⟩

/-- In every run in which listeners only meet plugins of the format of their data, every call of a
plugin's `write_buf_to_client` is for a listener with data of that plugin, and every listener that is
to be written to by a plugin has such data. -/
theorem format_data_agrees (events : List Event)
    (hkeeps : Guarded step KeepsFormat start events) :
    (∀ call ∈ (run step start events).calls, WriterFits call) ∧
      ∀ id source, (run step start events).sources.objects id = some source →
        ∀ client ∈ source.trees, WriterFits client := by
  have inv := run_invariant_of_guarded step DataInv step_dataInv events start_dataInv hkeeps
  refine ⟨inv.calls, ?_⟩
  intro id source hsource client hclient
  exact (inv.sources id source hsource client hclient).writer

/-- A listener of the source on `/live` is moved to the on-demand relay on `/relay`, which then starts
with a stream of the given format. -/
def exampleFallback (type : FormatType) : List Event :=
  [.reserve "/live", .reserve "/relay", .updateSettings 1 true none none 0 1000,
    .completeSource 0 .generic true true, .init 0, .connect 0, .addPending 0, .append 0 100 true,
    .pass 0 0 ⟨some 50, 50, false⟩, .pass 0 0 ⟨none, 0, false⟩, .pass 0 0 ⟨none, 0, false⟩,
    .pass 0 0 ⟨none, 30, false⟩, .stop 0, .move 0 1, .clear 0, .completeSource 1 type true true,
    .init 1, .append 1 100 true, .addPending 1, .pass 1 0 ⟨none, 0, false⟩,
    .pass 1 0 ⟨none, 30, false⟩]

/-- The data of the calls, together with the functions that were called. -/
def callTypes (events : List Event) : List (Writer × Option FormatType) :=
  (run step start events).calls.map fun call ↦ (call.writeToClient, call.formatData)

theorem format_data_agrees_fallback :
    (∀ call ∈ (run step start (exampleFallback .generic)).calls, WriterFits call) ∧
    callTypes (exampleFallback .generic) =
      [(.writeBufToClient .generic, some .generic), (.writeBufToClient .generic, some .generic),
        (.formatGenericWriteToClient, some .generic)] := by
  have h := format_data_agrees (exampleFallback .generic) (by decide +kernel)
  exact ⟨h.1, by decide +kernel⟩

/-- When the relay turns out to be an Ogg stream, its plugin is called with the data of the other. -/
theorem format_data_differs :
    ∃ events, ∃ call ∈ (run step start events).calls, call.formatData = some .generic ∧
      call.writeToClient = .writeBufToClient .ogg := by
  have hcalls : (.writeBufToClient .ogg, some .generic) ∈ callTypes (exampleFallback .ogg) := by
    decide +kernel
  obtain ⟨call, hcall, heq⟩ := List.mem_map.mp hcalls
  exact ⟨exampleFallback .ogg, call, hcall, congrArg Prod.snd heq, congrArg Prod.fst heq⟩

end Icecast.Source.Delivery
