import Icecast.Source.SharedBuffers

/-!
# The buffer of a listener in a pass

A listener before the queue has a buffer of its own or none, a listener on the queue one that is
shared. A pass of `send_to_listener` keeps this through every change of phase. It changes the length
of the listener's own buffer at most, it keeps `pos` inside the buffer, and it calls
`write_to_client` for a listener with a buffer only.
-/

namespace Icecast.Source.Delivery

open Lib Lib.Machine Lib.MachineInt
open scoped List

structure MemOk (shared : ℕ → Prop) (mem : Memory) : Prop where
  lt_fresh : ∀ addr, shared addr → addr < mem.fresh
  next : NextShared shared mem.heap
  bound : ∀ addr, mem.len addr < 2 ^ 32

/-- The pointers of the queue of a source. -/
structure PointersOk (shared : ℕ → Prop) (source : SourceState) : Prop where
  streamData : ∀ addr, source.streamData = some addr → shared addr
  streamDataTail : ∀ addr, source.streamDataTail = some addr → shared addr
  burstPoint : ∀ addr, source.burstPoint = some addr → shared addr

theorem PointersOk.empty {shared : ℕ → Prop} {source : SourceState} (hfirst : source.streamData = none)
    (htail : source.streamDataTail = none) (hburst : source.burstPoint = none) :
    PointersOk shared source := by
  constructor
  · simp [hfirst]
  · simp [htail]
  · simp [hburst]

/-- A listener refers to a shared buffer exactly when it is on the queue, and has not yet sent
anything of a header that is still to be built. -/
structure ClientOwned (shared : ℕ → Prop) (mem : Memory) (client : Client) : Prop where
  lt_fresh : ∀ addr, client.refbuf = some addr → addr < mem.fresh
  pos_le : ∀ addr, client.refbuf = some addr → client.pos ≤ mem.len addr
  shared_iff : ∀ addr, client.refbuf = some addr →
    (shared addr ↔ client.checkBuffer = .formatAdvanceQueue)
  unsent : client.checkBuffer = .formatCheckHttpBuffer → client.respcode = 0 → client.pos = 0

/-- What a pass may do: it changes the length of the listener's own buffer only, and a private buffer
it leaves the listener with is the old one or new. -/
structure PassOk (shared : ℕ → Prop) (mem : Memory) (client : Client) (mem' : Memory)
    (client' : Client) : Prop where
  memory : MemStep (fun addr ↦ client.refbuf = some addr ∧ ¬shared addr) mem mem'
  owned : ClientOwned shared mem' client'
  refbuf : ∀ addr, client'.refbuf = some addr → ¬shared addr →
    client.refbuf = some addr ∨ mem.fresh ≤ addr

section Pass

variable {shared : ℕ → Prop} {mem mem' mem'' : Memory} {client client' client'' : Client}
  {source : SourceState} {type : FormatType} {pass : Pass}

theorem MemOk.step {touched : ℕ → Prop} (h : MemOk shared mem) (hstep : MemStep touched mem mem') :
    MemOk shared mem' := by
  refine ⟨fun addr haddr ↦ (h.lt_fresh addr haddr).trans_le hstep.fresh_le, ?_, hstep.bound h.bound⟩
  intro addr next haddr hnext
  exact h.next addr next haddr (hstep.next_of addr (h.lt_fresh addr haddr) next hnext)

theorem MemOk.queueShared (h : MemOk shared mem) (hpointers : PointersOk shared source) :
    QueueShared shared (queueOf mem source) :=
  ⟨h.next, hpointers.streamData, hpointers.streamDataTail, hpointers.burstPoint⟩

/-- Other listeners do not notice a change of a buffer that is not theirs. -/
theorem ClientOwned.step {touched : ℕ → Prop} (h : ClientOwned shared mem client)
    (hstep : MemStep touched mem mem')
    (huntouched : ∀ addr, client.refbuf = some addr → ¬touched addr) :
    ClientOwned shared mem' client := by
  refine ⟨fun addr haddr ↦ (h.lt_fresh addr haddr).trans_le hstep.fresh_le, ?_, h.shared_iff,
    h.unsent⟩
  intro addr haddr
  rw [hstep.len_eq addr (h.lt_fresh addr haddr) (huntouched addr haddr)]
  exact h.pos_le addr haddr

theorem PassOk.refl (h : ClientOwned shared mem client) : PassOk shared mem client mem client :=
  ⟨MemStep.refl mem, h, fun _ haddr _ ↦ Or.inl haddr⟩

theorem PassOk.trans (h : PassOk shared mem client mem' client')
    (h' : PassOk shared mem' client' mem'' client'') : PassOk shared mem client mem'' client'' := by
  have hback : ∀ addr < mem.fresh, client'.refbuf = some addr ∧ ¬shared addr →
      client.refbuf = some addr ∧ ¬shared addr := by
    intro addr hlt hown
    exact ⟨(h.refbuf addr hown.1 hown.2).resolve_right (Nat.not_le_of_lt hlt), hown.2⟩
  refine ⟨h.memory.trans h'.memory hback, h'.owned, ?_⟩
  intro addr haddr hprivate
  cases h'.refbuf addr haddr hprivate with
  | inl hold => exact h.refbuf addr hold hprivate
  | inr hnew => exact Or.inr (h.memory.fresh_le.trans hnew)

/-- A change of the listener alone, other than of its buffer. -/
theorem PassOk.change (h : PassOk shared mem client mem' client')
    (hclient : ClientOwned shared mem' client'') (hrefbuf : client''.refbuf = client'.refbuf) :
    PassOk shared mem client mem' client'' :=
  ⟨h.memory, hclient, fun addr haddr ↦ h.refbuf addr (hrefbuf.symm.trans haddr)⟩

/-- The listener is left without a buffer. -/
theorem clientSetQueue_none (hcheck : client.checkBuffer ≠ .formatCheckHttpBuffer) :
    PassOk shared mem client (clientSetQueue mem client none).1
      (clientSetQueue mem client none).2 := by
  refine ⟨clientSetQueue_memStep mem client none, ⟨?_, ?_, ?_, ?_⟩, ?_⟩
  · exact fun addr haddr ↦ nomatch haddr
  · exact fun addr haddr ↦ nomatch haddr
  · exact fun addr haddr ↦ nomatch haddr
  · exact fun hhttp ↦ absurd hhttp hcheck
  · exact fun addr haddr ↦ nomatch haddr

/-- The listener is put on a buffer of a queue. -/
theorem setQueue_passOk (hmem : MemOk shared mem) {addr : ℕ} (haddr : shared addr)
    {next : Client} (hnext : next.refbuf = some addr) (hpos : next.pos = 0)
    (hcheck : next.checkBuffer = .formatAdvanceQueue) :
    PassOk shared mem client (clientSetQueue mem client (some addr)).1 next := by
  have hstep : MemStep (fun other ↦ client.refbuf = some other ∧ ¬shared other) mem
      (clientSetQueue mem client (some addr)).1 := clientSetQueue_memStep mem client _
  have hfound : ∀ other, next.refbuf = some other → shared other :=
    fun other hother ↦ Option.some.inj (hnext.symm.trans hother) ▸ haddr
  refine ⟨hstep, ⟨?_, ?_, ?_, ?_⟩, ?_⟩
  · exact fun other hother ↦ (hmem.lt_fresh other (hfound other hother)).trans_le hstep.fresh_le
  · intro other _
    rw [hpos]
    exact Nat.zero_le _
  · exact fun other hother ↦ iff_of_true (hfound other hother) hcheck
  · intro _ _
    exact hpos
  · exact fun other hother hprivate ↦ absurd (hfound other hother) hprivate

theorem findClientStart_passOk (hmem : MemOk shared mem) (hpointers : PointersOk shared source)
    (h : ClientOwned shared mem client) :
    PassOk shared mem client (findClientStart type source mem client).1
      (findClientStart type source mem client).2 := by
  unfold findClientStart
  split
  · exact PassOk.refl h
  · rename_i addr hfound
    obtain ⟨first, hfirst, hsync⟩ := Option.bind_eq_some_iff.mp hfound
    have hqueue := hmem.queueShared hpointers
    have haddr : shared addr :=
      findSyncPoint_shared hmem.next _ (startOfSearch_shared hqueue hfirst) hsync
    exact setQueue_passOk hmem haddr rfl rfl rfl

/-- A private buffer gets a new length, which is not before `pos`. -/
theorem setLen_passOk (h : ClientOwned shared mem client) {addr len : ℕ}
    (haddr : client.refbuf = some addr) (hcheck : client.checkBuffer ≠ .formatAdvanceQueue)
    (hlen : len < 2 ^ 32) {next : Client} (hrefbuf : next.refbuf = some addr) (hpos : next.pos ≤ len)
    (hnext : next.checkBuffer ≠ .formatAdvanceQueue)
    (hunsent : next.checkBuffer = .formatCheckHttpBuffer → next.respcode = 0 → next.pos = 0) :
    PassOk shared mem client (mem.setLen addr len) next := by
  have hprivate : ¬shared addr := fun hshared ↦ hcheck ((h.shared_iff addr haddr).mp hshared)
  have hsame : ∀ other, next.refbuf = some other → other = addr :=
    fun other hother ↦ (Option.some.inj (hrefbuf.symm.trans hother)).symm
  refine ⟨?_, ⟨?_, ?_, ?_, hunsent⟩, ?_⟩
  · exact (setLen_memStep mem addr hlen).mono fun other _ hother ↦ hother ▸ ⟨haddr, hprivate⟩
  · exact fun other hother ↦ hsame other hother ▸ h.lt_fresh addr haddr
  · intro other hother
    rw [hsame other hother, len_setLen]
    exact hpos
  · intro other hother
    rw [hsame other hother]
    exact iff_of_false hprivate hnext
  · exact fun other hother _ ↦ Or.inl (hsame other hother ▸ haddr)

/-- A listener that `write_to_client` may be called for. -/
structure Ready (client : Client) : Prop where
  refbuf : client.refbuf ≠ none
  answered : client.checkBuffer = .formatCheckHttpBuffer → client.respcode ≠ 0

/-- What a `check_buffer` function may do: if it does not refuse, the listener is ready. -/
structure CheckOk (shared : ℕ → Prop) (mem : Memory) (client : Client)
    (result : ℤ × Memory × Client) : Prop where
  pass : PassOk shared mem client result.2.1 result.2.2
  ready : 0 ≤ result.1 → Ready result.2.2

theorem PassOk.refused (h : PassOk shared mem client mem' client') :
    CheckOk shared mem client (-1, mem', client') :=
  ⟨h, fun hret ↦ absurd hret (by simp)⟩

theorem PassOk.ready {addr : ℕ} (h : PassOk shared mem client mem' client')
    (haddr : client'.refbuf = some addr)
    (hanswered : client'.checkBuffer = .formatCheckHttpBuffer → client'.respcode ≠ 0) :
    CheckOk shared mem client (0, mem', client') :=
  ⟨h, fun _ ↦ ⟨fun hnone ↦ Option.some_ne_none addr (haddr.symm.trans hnone), hanswered⟩⟩

variable (type) in
theorem checkFileData_ok (hmem : MemOk shared mem) (hpointers : PointersOk shared source)
    (h : ClientOwned shared mem client) {addr : ℕ} (haddr : client.refbuf = some addr)
    (hcheck : client.checkBuffer = .formatCheckFileBuffer) :
    CheckOk shared mem client (checkFileData type source addr mem client) := by
  have hbehind : client.checkBuffer = .formatCheckHttpBuffer → client.respcode ≠ 0 :=
    fun hhttp ↦ absurd (hcheck.symm.trans hhttp) (by decide)
  unfold checkFileData
  dsimp only
  split_ifs
  · have hbytes : getFileData source client.introOffset < 2 ^ 32 := by
      unfold getFileData
      split
      · decide
      · split <;> omega
    refine PassOk.ready ?_ haddr hbehind
    exact setLen_passOk h haddr (by simp [hcheck]) hbytes haddr (Nat.zero_le _) (by simp [hcheck])
      fun _ _ ↦ rfl
  · have hreset : PassOk shared mem client (clientSetQueue mem client none).1
        (clientSetQueue mem client none).2 := clientSetQueue_none (by simp [hcheck])
    have hmem' := hmem.step hreset.memory
    exact (hreset.trans (findClientStart_passOk hmem' hpointers hreset.owned)).refused
  · have hreplay : ClientOwned shared mem { client with introOffset := 0 } :=
      ⟨h.lt_fresh, h.pos_le, h.shared_iff, h.unsent⟩
    exact ((PassOk.refl h).change hreplay rfl).refused
  · exact (PassOk.refl h).ready haddr hbehind

/-- The buffer of a listener that comes from another source to a file fallback. -/
theorem newBuffer_passOk (hmem : MemOk shared mem)
    (hcheck : client.checkBuffer = .formatCheckFileBuffer) :
    PassOk shared mem client (refbufNew mem perClientRefbufSize)
      { client with refbuf := some mem.fresh, pos := perClientRefbufSize, introOffset := 0 } := by
  have hfresh : ¬shared mem.fresh := fun hshared ↦ lt_irrefl _ (hmem.lt_fresh _ hshared)
  refine ⟨refbufNew_memStep mem (by decide), ⟨?_, ?_, ?_, ?_⟩, ?_⟩
  · exact fun addr haddr ↦ Option.some.inj haddr ▸ Nat.lt_succ_self _
  · intro addr haddr
    rw [← Option.some.inj haddr, len_refbufNew]
  · intro addr haddr
    rw [← Option.some.inj haddr]
    exact iff_of_false hfresh (by simp [hcheck])
  · intro hhttp
    exact absurd (hcheck.symm.trans hhttp) (by decide)
  · exact fun addr haddr _ ↦ Or.inr (Option.some.inj haddr).le

theorem formatCheckFileBuffer_ok (hmem : MemOk shared mem) (hpointers : PointersOk shared source)
    (h : ClientOwned shared mem client) (hcheck : client.checkBuffer = .formatCheckFileBuffer) :
    CheckOk shared mem client (formatCheckFileBuffer type source mem client) := by
  unfold formatCheckFileBuffer
  split
  · rename_i addr haddr
    exact checkFileData_ok type hmem hpointers h haddr hcheck
  · split
    · exact (findClientStart_passOk hmem hpointers h).refused
    · have hnew := newBuffer_passOk hmem hcheck
      have hread := checkFileData_ok type (hmem.step hnew.memory) hpointers hnew.owned rfl hcheck
      exact ⟨hnew.trans hread.pass, hread.ready⟩

variable (type) in
theorem checkHttpSent_ok (h : ClientOwned shared mem client) {addr : ℕ}
    (haddr : client.refbuf = some addr) (hcheck : client.checkBuffer = .formatCheckHttpBuffer)
    (hanswered : client.respcode ≠ 0) :
    CheckOk shared mem client (checkHttpSent type addr mem client) := by
  unfold checkHttpSent
  split
  · apply PassOk.refused
    exact setLen_passOk h haddr (by simp [hcheck]) (by decide) haddr le_rfl (by simp)
      fun hhttp ↦ nomatch hhttp
  · exact (PassOk.refl h).ready haddr fun _ ↦ hanswered

theorem formatCheckHttpBuffer_ok (h : ClientOwned shared mem client)
    (hcheck : client.checkBuffer = .formatCheckHttpBuffer) :
    CheckOk shared mem client (formatCheckHttpBuffer type pass mem client) := by
  unfold formatCheckHttpBuffer
  split
  · exact (PassOk.refl h).refused
  · rename_i addr haddr
    split
    · rename_i hnew
      split
      · have hfailed : ClientOwned shared mem { client with respcode := 500, error := true } :=
          ⟨h.lt_fresh, h.pos_le, h.shared_iff, fun _ hzero ↦ absurd hzero (by simp)⟩
        exact ((PassOk.refl h).change hfailed rfl).refused
      · rename_i len _
        have hpos : client.pos = 0 := h.unsent hcheck hnew
        have hbuilt : PassOk shared mem client (mem.setLen addr (len % 2 ^ 32))
            { client with respcode := 200, formatData := some type } :=
          setLen_passOk h haddr (by simp [hcheck]) (Nat.mod_lt _ (by decide)) haddr
            (hpos ▸ Nat.zero_le _) (by simp [hcheck]) fun _ _ ↦ hpos
        have hsent := checkHttpSent_ok type hbuilt.owned haddr hcheck (by simp)
        exact ⟨hbuilt.trans hsent.pass, hsent.ready⟩
    · rename_i hanswered
      exact checkHttpSent_ok type h haddr hcheck hanswered

theorem formatAdvanceQueue_ok (hmem : MemOk shared mem) (h : ClientOwned shared mem client)
    (hcheck : client.checkBuffer = .formatAdvanceQueue) :
    CheckOk shared mem client (formatAdvanceQueue mem client) := by
  have hbehind : client.checkBuffer = .formatCheckHttpBuffer → client.respcode ≠ 0 :=
    fun hhttp ↦ absurd (hcheck.symm.trans hhttp) (by decide)
  unfold formatAdvanceQueue
  split
  · exact (PassOk.refl h).refused
  · rename_i addr haddr
    split
    · split
      · exact (PassOk.refl h).refused
      · rename_i next hnext
        have hshared : shared next := hmem.next addr next ((h.shared_iff addr haddr).mpr hcheck) hnext
        exact PassOk.ready (setQueue_passOk hmem hshared rfl rfl hcheck) rfl hbehind
    · exact (PassOk.refl h).ready haddr hbehind

theorem checkBuffer_ok (hmem : MemOk shared mem) (hpointers : PointersOk shared source)
    (h : ClientOwned shared mem client) :
    CheckOk shared mem client (checkBuffer type source pass mem client) := by
  unfold checkBuffer
  split
  · rename_i hcheck
    exact formatCheckHttpBuffer_ok h hcheck
  · rename_i hcheck
    exact formatCheckFileBuffer_ok hmem hpointers h hcheck
  · rename_i hcheck
    exact formatAdvanceQueue_ok hmem h hcheck

/-- A write stays inside the buffer. -/
theorem sendRest_passOk (hmem : MemOk shared mem) (h : ClientOwned shared mem client) {addr : ℕ}
    (haddr : client.refbuf = some addr)
    (hanswered : client.checkBuffer = .formatCheckHttpBuffer → client.respcode ≠ 0) :
    PassOk shared mem client mem (sendRest pass addr mem client) := by
  refine (PassOk.refl h).change ⟨h.lt_fresh, ?_, h.shared_iff, ?_⟩ rfl
  · intro other hother
    have hsame : other = addr := Option.some.inj (hother.symm.trans haddr)
    have hle : client.pos ≤ mem.len addr := h.pos_le addr haddr
    have hrest : usub 32 (mem.len addr) client.pos = mem.len addr - client.pos :=
      usub_of_le hle (hmem.bound addr)
    simp only [sendRest, hrest, hsame]
    omega
  · exact fun hhttp hzero ↦ absurd hzero (hanswered hhttp)

theorem writeToClient_passOk (hmem : MemOk shared mem) (h : ClientOwned shared mem client)
    (hready : Ready client) : PassOk shared mem client mem (writeToClient pass mem client) := by
  unfold writeToClient
  split
  · exact PassOk.refl h
  · rename_i addr haddr
    split
    · exact sendRest_passOk hmem h haddr hready.answered
    · split
      · have hgeneric : ClientOwned shared mem
            { client with writeToClient := .formatGenericWriteToClient } :=
          ⟨h.lt_fresh, h.pos_le, h.shared_iff, h.unsent⟩
        exact ((PassOk.refl h).change hgeneric rfl).trans
          (sendRest_passOk hmem hgeneric haddr hready.answered)
      · exact PassOk.refl h
    · exact sendRest_passOk hmem h haddr hready.answered

variable (type pass) in
/-- A pass keeps the listener in order, and `write_to_client` is called with a buffer only. -/
theorem sendToListener_ok (hmem : MemOk shared mem) (hpointers : PointersOk shared source)
    (h : ClientOwned shared mem client) :
    PassOk shared mem client (sendToListener type source pass mem client).1
        (sendToListener type source pass mem client).2.1 ∧
      ∀ call ∈ (sendToListener type source pass mem client).2.2, call.refbuf ≠ none := by
  unfold sendToListener
  split
  · exact ⟨PassOk.refl h, fun call hcall ↦ nomatch hcall⟩
  · have hchecked : CheckOk shared mem client (checkBuffer type source pass mem client) :=
      checkBuffer_ok hmem hpointers h
    dsimp only
    split
    · exact ⟨hchecked.pass, fun call hcall ↦ nomatch hcall⟩
    · rename_i hret
      have hready := hchecked.ready (Int.not_lt.mp hret)
      have hmem' := hmem.step hchecked.pass.memory
      refine ⟨hchecked.pass.trans (writeToClient_passOk hmem' hchecked.pass.owned hready), ?_⟩
      intro call hcall
      rw [← Option.some.inj hcall]
      exact hready.refbuf

end Pass

end Icecast.Source.Delivery
