import Icecast.Format.Mp3Sender

/-!
# Framing of the ICY stream

A run interleaves turns of `send_to_listener` with a source that links new buffers and changes
its intro file or burst point as it likes. In every run in which a partly sent metadata block is
not cut off by moving to a buffer with other metadata, the accepted bytes are the audio with one
whole block behind every `interval` bytes.

The restriction is needed. When a buffer ends exactly where a block is due and the socket takes
only a part of that block, the next turn moves to the next buffer first and then continues at the
remembered offset inside that buffer's metadata.
-/

namespace Icecast.Format.Mp3Framing

open Lib.Interleave Lib.Machine Lib.MachineInt Lib.Socket Mp3Sender

structure System where
  source : Source
  listener : Listener
  deriving DecidableEq

inductive Event where
  | turn
  | append (refbuf : Refbuf)
  | settle (source : Source)
  deriving DecidableEq

/-- A new buffer is linked behind the tail, so a listener on the queue can reach it. -/
def append (sys : System) (refbuf : Refbuf) : System where
  source := { sys.source with queue := sys.source.queue ++ [refbuf] }
  listener :=
    if sys.listener.checkBuffer = .formatAdvanceQueue then
      { sys.listener with ahead := sys.listener.ahead ++ [refbuf] }
    else sys.listener

def step (sys : System) : Event → System
  | .turn => { sys with listener := sendToListener sys.source sys.listener }
  | .append refbuf => append sys refbuf
  | .settle source => { sys with source := source }

/-- The state in which `format_check_http_buffer` leaves a listener: the buffer that held the HTTP
header counts as used up, and `create_client_data` has set the interval. -/
def startListener (interval : ℕ) (outcomes : List WriteOutcome) : Listener where
  conn := ⟨outcomes, []⟩
  refbuf := some ⟨List.replicate perClientRefbufSize 0, none, false⟩
  ahead := []
  pos := perClientRefbufSize
  introOffset := 0
  checkBuffer := .formatCheckFileBuffer
  mp3 := ⟨interval, 0, 0, false, none⟩
  taken := []
  metaLens := []
  overrun := false

/-- While a block is partly sent, a turn keeps the metadata it is taken from. -/
def KeepsPartlySentBlock (sys : System) : Event → Prop
  | .turn => sys.listener.mp3.metadataOffset ≠ 0 →
      (checkBuffer sys.source sys.listener).2.refbuf.map (·.associated) =
        sys.listener.refbuf.map (·.associated)
  | _ => True

instance : ∀ (sys : System) (event : Event), Decidable (KeepsPartlySentBlock sys event)
  | _, .turn => inferInstanceAs (Decidable (_ → _))
  | _, .append _ => .isTrue trivial
  | _, .settle _ => .isTrue trivial

/-! ## What a framed stream is -/

/-- The bytes of the current buffer that have not been accepted yet. -/
def unread (l : Listener) : Bytes :=
  match l.refbuf with
  | none => []
  | some refbuf => refbuf.data.drop l.pos

def audioTaken (l : Listener) : Bytes := l.taken.flatMap (·.data)

/-- The blocks a listener may be sent: the stand-ins of the sender and the metadata of its buffers. -/
def Offered (taken : List Refbuf) (block : Bytes) : Prop :=
  block = [0] ∨ block = emptyTitle ∨
    ∃ refbuf ∈ taken, ∃ metadata, refbuf.associated = some metadata ∧ block = metadata.data

/-- Whole blocks behind every full interval of the audio, then a proper part of one more block if
the audio ends with a full interval. -/
def Framing (interval : ℕ) (taken : List Refbuf) (audio sent : Bytes) : Prop :=
  ∃ (blocks : List Bytes) (whole : Bytes) (offset : ℕ),
    (∀ block ∈ blocks, Offered taken block ∧ WellFormedBlock block) ∧
    Offered taken whole ∧ WellFormedBlock whole ∧ offset < whole.length ∧
    interval * blocks.length ≤ audio.length ∧ audio.length ≤ interval * (blocks.length + 1) ∧
    (offset ≠ 0 → audio.length = interval * (blocks.length + 1)) ∧
    sent = insertBlocks interval audio blocks ++ whole.take offset

theorem offered_wellFormed {taken : List Refbuf} {block : Bytes} (h : Offered taken block) :
    WellFormedBlock block := by
  rcases h with rfl | rfl | ⟨_, _, metadata, _, rfl⟩
  · decide
  · decide
  · exact metadata.wellFormed

theorem offered_append {taken : List Refbuf} {block : Bytes} (more : List Refbuf)
    (h : Offered taken block) : Offered (taken ++ more) block := by
  rcases h with h | h | ⟨refbuf, hmem, h⟩
  · exact .inl h
  · exact .inr (.inl h)
  · exact .inr (.inr ⟨refbuf, List.mem_append_left _ hmem, h⟩)

/-! ## One call of the sender -/

/-- The whole block that is due when the current buffer carries `associated`. -/
def blockDue (mp3 : Mp3ClientData) (associated : Option Metadata) : Bytes :=
  match associated with
  | some block => if some block.addr ≠ mp3.associated then block.data else [0]
  | none => emptyTitle

theorem metadataDue_eq {mp3 : Mp3ClientData} {associated : Option Metadata}
    (h : mp3.metadataOffset < (blockDue mp3 associated).length) :
    metadataDue mp3 associated =
      ((blockDue mp3 associated).drop mp3.metadataOffset,
        ((blockDue mp3 associated).length : ℤ) - mp3.metadataOffset) := by
  cases associated with
  | none => rfl
  | some block =>
    by_cases hnew : some block.addr ≠ mp3.associated
    · simp only [metadataDue, blockDue, if_pos hnew]
    · simp only [blockDue, if_neg hnew, List.length_singleton] at h
      have hzero : mp3.metadataOffset = 0 := by omega
      simp [metadataDue, blockDue, hnew, hzero]

theorem clientSendBytes_spec {l : Listener} {buf : Bytes} {len : ℕ} (hlen : len ≤ buf.length) :
    ∃ (n : ℕ) (conn : Conn UInt8), n ≤ len ∧
      conn.sent = l.conn.sent ++ buf.take n ∧
      (clientSendBytes l buf len).2 = { l with conn := conn } ∧
      ((clientSendBytes l buf len).1 = n ∨ (clientSendBytes l buf len).1 = -1 ∧ n = 0) := by
  have hbound : (0 : ℤ) ≤ len ∧ (len : ℤ) ≤ buf.length := by omega
  obtain ⟨hlow, hhigh, hsent⟩ := l.conn.write_spec (buf.take len)
  simp only [clientSendBytes, if_pos hbound, Int.toNat_natCast]
  set ret := (l.conn.write (buf.take len)).1
  have hret : ret ≤ len := by
    rw [List.length_take, Nat.min_eq_left hlen] at hhigh
    exact hhigh
  refine ⟨ret.toNat, _, by omega, ?_, rfl, by omega⟩
  rw [hsent, List.take_take, Nat.min_eq_left (by omega)]

/-- The two ways a call of `send_stream_metadata` ends: the block is complete, or some bytes of the
same block are still to come. -/
theorem sendStreamMetadata_cases {l : Listener} {associated : Option Metadata} {block : Bytes}
    (hblock : blockDue l.mp3 associated = block) (hoffset : l.mp3.metadataOffset < block.length) :
    ∃ conn : Conn UInt8,
      let rest := block.drop l.mp3.metadataOffset
      let log := ((block.length : ℤ) - l.mp3.metadataOffset) :: l.metaLens
      (conn.sent = l.conn.sent ++ rest ∧
        (sendStreamMetadata l associated).2 = { l with
          conn := conn, metaLens := log, mp3 := { l.mp3 with
            associated := associated.map (·.addr), metadataOffset := 0, inMetadata := false,
            sinceMetaBlock := 0 } }) ∨
      (∃ n, l.mp3.metadataOffset + n < block.length ∧
        conn.sent = l.conn.sent ++ rest.take n ∧
        (sendStreamMetadata l associated).2 = { l with
          conn := conn, metaLens := log, mp3 := { l.mp3 with
            metadataOffset := l.mp3.metadataOffset + n, inMetadata := true } }) := by
  have hdue := metadataDue_eq (hblock.symm ▸ hoffset)
  rw [hblock] at hdue
  have hlen : (block.length : ℤ) - l.mp3.metadataOffset =
      ((block.drop l.mp3.metadataOffset).length : ℤ) := by
    rw [List.length_drop]
    omega
  obtain ⟨n, conn, hn, hsent, hstate, hret⟩ := clientSendBytes_spec
    (l := { l with metaLens := ((block.length : ℤ) - l.mp3.metadataOffset) :: l.metaLens })
    (le_refl (block.drop l.mp3.metadataOffset).length)
  rw [← hlen] at hstate hret
  rw [List.length_drop] at hn
  refine ⟨conn, ?_⟩
  simp only [sendStreamMetadata, hdue, hstate]
  generalize (clientSendBytes _ _ _).1 = ret at hret
  by_cases hfull : ret = (block.length : ℤ) - l.mp3.metadataOffset
  · left
    rw [List.take_of_length_le (by rw [List.length_drop]; omega)] at hsent
    exact ⟨hsent, by rw [if_pos hfull]⟩
  · right
    refine ⟨n, by omega, hsent, ?_⟩
    rw [if_neg hfull]
    by_cases hpos : 0 < ret
    · have hnat : ret.toNat = n := by omega
      rw [if_pos hpos, hnat]
    · have hzero : n = 0 := by omega
      rw [if_neg hpos, hzero, Nat.add_zero]

theorem sendAudio_spec {l : Listener} {buf : Bytes} {len : ℕ} (hlen : len ≤ buf.length) :
    ∃ (n : ℕ) (conn : Conn UInt8), n ≤ len ∧
      conn.sent = l.conn.sent ++ buf.take n ∧
      (sendAudio l buf len).2 = { l with
        conn := conn, pos := l.pos + n,
        mp3 := { l.mp3 with sinceMetaBlock := l.mp3.sinceMetaBlock + n } } ∧
      ((sendAudio l buf len).1 = n ∨ (sendAudio l buf len).1 = -1 ∧ n = 0) := by
  obtain ⟨n, conn, hn, hsent, hstate, hret⟩ := clientSendBytes_spec (l := l) hlen
  refine ⟨n, conn, hn, hsent, ?_, ?_⟩
  · simp only [sendAudio, hstate]
    generalize (clientSendBytes _ _ _).1 = ret at hret
    by_cases hpos : 0 < ret
    · have hnat : ret.toNat = n := by omega
      rw [if_pos hpos, hnat]
    · have hzero : n = 0 := by omega
      rw [if_neg hpos, hzero, Nat.add_zero, Nat.add_zero]
  · simp only [sendAudio]
    split <;> exact hret

/-! ## The invariant -/

/-- The block the next call of `send_stream_metadata` would continue or begin. -/
def currentBlock (l : Listener) : Bytes :=
  match l.refbuf with
  | none => [0]
  | some refbuf => blockDue l.mp3 refbuf.associated

/-- Between two calls: the audio accepted so far, cut where the last block was completed. -/
structure Inv (interval : ℕ) (l : Listener) : Prop where
  interval_eq : l.mp3.interval = interval
  since_le : l.mp3.sinceMetaBlock ≤ interval
  pending : l.mp3.inMetadata = true → l.mp3.sinceMetaBlock = interval
  partly : l.mp3.metadataOffset ≠ 0 → l.mp3.inMetadata = true
  offset_lt : l.mp3.metadataOffset < (currentBlock l).length
  offered : ∀ refbuf metadata, l.refbuf = some refbuf → refbuf.associated = some metadata →
    ∃ other ∈ l.taken, other.associated = some metadata
  framed : ∃ (audio : Bytes) (blocks : List Bytes),
    audioTaken l = audio ++ unread l ∧ (∀ block ∈ blocks, Offered l.taken block) ∧
    audio.length = interval * blocks.length + l.mp3.sinceMetaBlock ∧
    l.conn.sent = insertBlocks interval audio blocks ++ (currentBlock l).take l.mp3.metadataOffset
  no_overrun : l.overrun = false
  metaLens_nonneg : ∀ metaLen ∈ l.metaLens, 0 ≤ metaLen

theorem blockDue_ne_nil (mp3 : Mp3ClientData) (associated : Option Metadata) :
    0 < (blockDue mp3 associated).length := by
  unfold blockDue
  split
  · rename_i block
    split
    · have h := block.wellFormed
      cases hdata : block.data with
      | nil => rw [hdata] at h; exact h.elim
      | cons => simp
    · simp
  · decide

theorem currentBlock_ne_nil (l : Listener) : 0 < (currentBlock l).length := by
  unfold currentBlock
  split
  · simp
  · exact blockDue_ne_nil _ _

theorem Inv.offset_eq_zero {interval : ℕ} {l : Listener} (inv : Inv interval l)
    (h : l.mp3.inMetadata = false) : l.mp3.metadataOffset = 0 := by
  by_contra hne
  simp [inv.partly hne] at h

theorem Inv.currentBlock_offered {interval : ℕ} {l : Listener} (inv : Inv interval l) :
    Offered l.taken (currentBlock l) := by
  unfold currentBlock
  split
  · exact .inl rfl
  · rename_i refbuf hrefbuf
    unfold blockDue
    split
    · rename_i metadata hassociated
      split
      · obtain ⟨other, hmem, hother⟩ := inv.offered _ _ hrefbuf hassociated
        exact .inr (.inr ⟨other, hmem, metadata, hother, rfl⟩)
      · exact .inl rfl
    · exact .inr (.inl rfl)

/-- The invariant gives the shape of the accepted bytes. -/
theorem Inv.framing {interval : ℕ} {l : Listener} (inv : Inv interval l) :
    ∃ audio, audioTaken l = audio ++ unread l ∧ Framing interval l.taken audio l.conn.sent := by
  obtain ⟨audio, blocks, haudio, hblocks, hlen, hsent⟩ := inv.framed
  have hsince := inv.since_le
  refine ⟨audio, haudio, blocks, currentBlock l, l.mp3.metadataOffset,
    fun block hmem ↦ ⟨hblocks block hmem, offered_wellFormed (hblocks block hmem)⟩,
    inv.currentBlock_offered, offered_wellFormed inv.currentBlock_offered, inv.offset_lt,
    by omega, by rw [Nat.mul_succ]; omega, ?_, hsent⟩
  intro hpartly
  rw [hlen, inv.pending (inv.partly hpartly), Nat.mul_succ]

/-! ## Steps of the sender -/

variable {interval : ℕ} {l : Listener}

theorem Inv.send_audio (inv : Inv interval l) (hmeta : l.mp3.inMetadata = false) {n : ℕ}
    {conn : Conn UInt8} (hn : n ≤ (unread l).length) (hsince : l.mp3.sinceMetaBlock + n ≤ interval)
    (hsent : conn.sent = l.conn.sent ++ (unread l).take n) :
    Inv interval { l with
      conn := conn, pos := l.pos + n,
      mp3 := { l.mp3 with sinceMetaBlock := l.mp3.sinceMetaBlock + n } } := by
  obtain ⟨audio, blocks, haudio, hblocks, hlen, hframed⟩ := inv.framed
  have hzero := inv.offset_eq_zero hmeta
  have hunread : unread { l with
      conn := conn, pos := l.pos + n,
      mp3 := { l.mp3 with sinceMetaBlock := l.mp3.sinceMetaBlock + n } } = (unread l).drop n := by
    unfold unread
    cases l.refbuf with
    | none => simp
    | some refbuf => simp [List.drop_drop]
  refine ⟨inv.interval_eq, hsince, ?_, inv.partly, inv.offset_lt, inv.offered,
    ⟨audio ++ (unread l).take n, blocks, ?_, hblocks, ?_, ?_⟩, inv.no_overrun, inv.metaLens_nonneg⟩
  · intro h
    exact absurd (hmeta.symm.trans h) (by decide)
  · rw [hunread, List.append_assoc, List.take_append_drop]
    exact haudio
  · change (audio ++ _).length = interval * blocks.length + (l.mp3.sinceMetaBlock + n)
    rw [List.length_append, List.length_take, Nat.min_eq_left hn, hlen, Nat.add_assoc]
  · simp only [hsent, hframed, hzero, List.take_zero, List.append_nil]
    rw [insertBlocks_append_stream _ _ _ _ (by omega)]

theorem Inv.send_block (inv : Inv interval l) {refbuf : Refbuf} (hrefbuf : l.refbuf = some refbuf)
    (hdue : l.mp3.sinceMetaBlock = interval) :
    Inv interval (sendStreamMetadata l refbuf.associated).2 ∧
      ((sendStreamMetadata l refbuf.associated).2.mp3.inMetadata = false →
        (sendStreamMetadata l refbuf.associated).2.mp3.sinceMetaBlock = 0) ∧
      (sendStreamMetadata l refbuf.associated).2.refbuf = l.refbuf ∧
      (sendStreamMetadata l refbuf.associated).2.pos = l.pos := by
  have hcurrent : blockDue l.mp3 refbuf.associated = currentBlock l := by
    simp [currentBlock, hrefbuf]
  have hoffset := inv.offset_lt
  obtain ⟨audio, blocks, haudio, hblocks, hlen, hframed⟩ := inv.framed
  obtain ⟨conn, ⟨hsent, hstate⟩ | ⟨n, hn, hsent, hstate⟩⟩ :=
    sendStreamMetadata_cases hcurrent hoffset
  · rw [hstate]
    refine ⟨⟨inv.interval_eq, Nat.zero_le _, ?_, ?_, currentBlock_ne_nil _, inv.offered,
      ⟨audio, blocks ++ [currentBlock l], haudio, ?_, ?_, ?_⟩, inv.no_overrun, ?_⟩,
      fun _ ↦ rfl, rfl, rfl⟩
    · intro h
      cases h
    · intro h
      exact absurd rfl h
    · intro block hmem
      rcases List.mem_append.mp hmem with hold | hnew
      · exact hblocks block hold
      · rw [List.mem_singleton.mp hnew]
        exact inv.currentBlock_offered
    · simp only [List.length_append, List.length_singleton, hlen, hdue]
      ring
    · simp only [hsent, hframed, List.take_zero, List.append_nil, List.append_assoc,
        List.take_append_drop]
      rw [insertBlocks_append_block _ _ _ _ (by rw [hlen, hdue]; ring)]
    · intro metaLen hmem
      rcases List.mem_cons.mp hmem with rfl | hmem
      · omega
      · exact inv.metaLens_nonneg metaLen hmem
  · rw [hstate]
    have hblock : currentBlock { l with
        conn := conn,
        metaLens := ((currentBlock l).length - l.mp3.metadataOffset : ℤ) :: l.metaLens,
        mp3 := { l.mp3 with metadataOffset := l.mp3.metadataOffset + n, inMetadata := true } } =
        currentBlock l := rfl
    refine ⟨⟨inv.interval_eq, inv.since_le, fun _ ↦ hdue, fun _ ↦ rfl, ?_, inv.offered,
      ⟨audio, blocks, haudio, hblocks, hlen, ?_⟩, inv.no_overrun, ?_⟩, ?_, rfl, rfl⟩
    · rw [hblock]
      exact hn
    · rw [hblock]
      simp only [hsent, hframed, List.append_assoc, List.take_add]
    · intro metaLen hmem
      rcases List.mem_cons.mp hmem with rfl | hmem
      · omega
      · exact inv.metaLens_nonneg metaLen hmem
    · intro h
      cases h

theorem finish_snd (written ret : ℤ) (l : Listener) : (finish written ret l).2 = l := rfl

theorem Inv.writeRest (inv : Inv interval l) (hmeta : l.mp3.inMetadata = false) {len : ℕ}
    (hlen : len ≤ (unread l).length) (hsince : l.mp3.sinceMetaBlock + len ≤ interval)
    (written : ℤ) :
    Inv interval (Mp3Sender.writeRest l (unread l) len written).2 := by
  unfold Mp3Sender.writeRest
  by_cases hzero : len = 0
  · simpa [hzero, finish_snd] using inv
  · obtain ⟨n, conn, hn, hsent, hstate, _⟩ := sendAudio_spec (l := l) hlen
    have hnext := inv.send_audio hmeta (hn.trans hlen) (by omega) hsent
    rw [← hstate] at hnext
    simp only [ne_eq, hzero, not_false_eq_true, if_true]
    split <;> exact hnext

theorem Inv.writeBlock (inv : Inv interval l) {refbuf : Refbuf} (hrefbuf : l.refbuf = some refbuf)
    (hdue : l.mp3.sinceMetaBlock = interval) (written : ℤ) :
    Inv interval
      (Mp3Sender.writeBlock l refbuf.associated (unread l) (unread l).length written).2 := by
  obtain ⟨hnext, hsince, hkeep, hpos⟩ := inv.send_block hrefbuf hdue
  have hunread : unread (sendStreamMetadata l refbuf.associated).2 = unread l := by
    simp only [unread, hkeep, hpos]
  simp only [Mp3Sender.writeBlock]
  split
  · exact hnext
  · rename_i hmeta
    have hmeta : (sendStreamMetadata l refbuf.associated).2.mp3.inMetadata = false := by
      simpa using hmeta
    rw [← hunread]
    apply hnext.writeRest hmeta
    · split <;> omega
    · rw [hsince hmeta, hnext.interval_eq]
      split <;> omega

theorem Inv.writeInterval (inv : Inv interval l) (hpos : 0 < interval) (hint : interval < 2 ^ 31)
    {refbuf : Refbuf} (hrefbuf : l.refbuf = some refbuf) (hmeta : l.mp3.inMetadata = false)
    (written : ℤ) :
    Inv interval
      (Mp3Sender.writeInterval l refbuf.associated (unread l) (unread l).length written).2 := by
  have hsince := inv.since_le
  have hremaining : usub 32 l.mp3.interval l.mp3.sinceMetaBlock =
      interval - l.mp3.sinceMetaBlock := by
    rw [inv.interval_eq, usub_of_le hsince (by omega)]
  unfold Mp3Sender.writeInterval
  rw [if_pos (by rw [inv.interval_eq]; omega)]
  simp only [hremaining]
  by_cases hreach : interval - l.mp3.sinceMetaBlock ≤ (unread l).length
  · rw [if_pos hreach]
    by_cases hzero : interval - l.mp3.sinceMetaBlock = 0
    · simp only [hzero, ne_eq, not_true_eq_false, if_false]
      exact inv.writeBlock hrefbuf (by omega) written
    · rw [if_pos hzero]
      obtain ⟨n, conn, hn, hsent, hstate, hret⟩ := sendAudio_spec (l := l) hreach
      have hnext := inv.send_audio hmeta (hn.trans hreach) (by omega) hsent
      rw [toSigned_of_lt (by omega)]
      split
      · rw [finish_snd, hstate]
        exact hnext
      · have hfull : n = interval - l.mp3.sinceMetaBlock := by omega
        rw [← hstate] at hnext
        have hkeep : (sendAudio l (unread l) (interval - l.mp3.sinceMetaBlock)).2.refbuf =
            some refbuf := by rw [hstate]; exact hrefbuf
        have hunread : (unread l).drop (interval - l.mp3.sinceMetaBlock) =
            unread (sendAudio l (unread l) (interval - l.mp3.sinceMetaBlock)).2 := by
          rw [hstate]
          simp only [unread, hrefbuf, List.drop_drop, hfull]
        rw [hunread, ← List.length_drop, hunread]
        apply hnext.writeBlock hkeep
        rw [hstate, hfull]
        change l.mp3.sinceMetaBlock + (interval - l.mp3.sinceMetaBlock) = interval
        omega
  · rw [if_neg hreach]
    exact inv.writeRest hmeta le_rfl (by omega) written

theorem Inv.write (inv : Inv interval l) (hpos : 0 < interval) (hint : interval < 2 ^ 31)
    {refbuf : Refbuf} (hrefbuf : l.refbuf = some refbuf) :
    Inv interval (formatMp3WriteBufToClient l refbuf).2 := by
  have hbuf : refbuf.data.drop l.pos = unread l := by simp [unread, hrefbuf]
  have hlen : refbuf.data.length - l.pos = (unread l).length := by
    rw [← hbuf, List.length_drop]
  unfold formatMp3WriteBufToClient
  simp only [hbuf, hlen]
  split
  · rename_i hmeta
    obtain ⟨hnext, _, hkeep, hsame⟩ := inv.send_block hrefbuf (inv.pending hmeta)
    have hunread : unread l = unread (sendStreamMetadata l refbuf.associated).2 := by
      simp only [unread, hkeep, hsame]
    split
    · exact hnext
    · rename_i hdone
      rw [hunread]
      exact hnext.writeInterval hpos hint (hkeep.trans hrefbuf) (by simpa using hdone) _
  · rename_i hmeta
    exact inv.writeInterval hpos hint hrefbuf (by simpa using hmeta) _

/-! ## Steps of `check_buffer` -/

/-- Taking up another buffer is harmless once the last one is used up and no block is cut off. -/
theorem Inv.take (inv : Inv interval l) {next : Listener} (hused : unread l = [])
    (hblock : l.mp3.metadataOffset < (currentBlock next).length ∧
      (currentBlock next).take l.mp3.metadataOffset = (currentBlock l).take l.mp3.metadataOffset)
    (hmp3 : next.mp3 = l.mp3) (hconn : next.conn = l.conn) (hlens : next.metaLens = l.metaLens)
    (hoverrun : next.overrun = l.overrun) {more : List Refbuf}
    (htaken : next.taken = l.taken ++ more)
    (hdata : more.flatMap (·.data) = unread next)
    (hoffered : ∀ refbuf metadata, next.refbuf = some refbuf → refbuf.associated = some metadata →
      ∃ other ∈ next.taken, other.associated = some metadata) :
    Inv interval next := by
  obtain ⟨audio, blocks, haudio, hblocks, hlen, hframed⟩ := inv.framed
  refine ⟨hmp3 ▸ inv.interval_eq, hmp3 ▸ inv.since_le, hmp3 ▸ inv.pending, hmp3 ▸ inv.partly,
    hmp3 ▸ hblock.1, hoffered, ⟨audio, blocks, ?_, ?_, hmp3 ▸ hlen, ?_⟩, hoverrun ▸ inv.no_overrun,
    hlens ▸ inv.metaLens_nonneg⟩
  · rw [audioTaken, htaken, List.flatMap_append, hdata]
    change audioTaken l ++ _ = _
    rw [haudio, hused, List.append_nil]
  · intro block hmem
    rw [htaken]
    exact offered_append more (hblocks block hmem)
  · rw [hconn, hframed, hmp3, hblock.2]

/-- A listener whose buffer is used up refers to other data now, or to none. -/
structure Moved (l next : Listener) : Prop where
  mp3_eq : next.mp3 = l.mp3
  conn_eq : next.conn = l.conn
  metaLens_eq : next.metaLens = l.metaLens
  overrun_eq : next.overrun = l.overrun
  used : unread l = []
  taken_eq : ∃ more, next.taken = l.taken ++ more ∧ more.flatMap (·.data) = unread next
  known : next.refbuf = l.refbuf ∧ next.taken = l.taken ∨
    ∀ refbuf, next.refbuf = some refbuf → refbuf.associated = none ∨ refbuf ∈ next.taken

theorem Moved.refl {l : Listener} (hused : unread l = []) : Moved l l :=
  ⟨rfl, rfl, rfl, rfl, hused, ⟨[], by simp, by simp [hused]⟩, .inl ⟨rfl, rfl⟩⟩

theorem Moved.trans {first second third : Listener} (h₁ : Moved first second)
    (h₂ : Moved second third) : Moved first third := by
  obtain ⟨more₁, htaken₁, hdata₁⟩ := h₁.taken_eq
  obtain ⟨more₂, htaken₂, hdata₂⟩ := h₂.taken_eq
  refine ⟨h₂.mp3_eq.trans h₁.mp3_eq, h₂.conn_eq.trans h₁.conn_eq,
    h₂.metaLens_eq.trans h₁.metaLens_eq, h₂.overrun_eq.trans h₁.overrun_eq, h₁.used,
    ⟨more₁ ++ more₂, by rw [htaken₂, htaken₁, List.append_assoc], ?_⟩, ?_⟩
  · rw [List.flatMap_append, hdata₁, h₂.used, hdata₂, List.nil_append]
  · rcases h₂.known with ⟨hrefbuf, htaken⟩ | hknown
    · rw [hrefbuf, htaken]
      exact h₁.known
    · exact .inr hknown

theorem clientSetQueue_moved {l : Listener} (hused : unread l = []) (chain : List Refbuf) :
    Moved l (clientSetQueue l chain) := by
  refine ⟨rfl, rfl, rfl, rfl, hused, ⟨chain.head?.toList, rfl, ?_⟩, .inr ?_⟩
  · cases chain <;> simp [clientSetQueue, unread]
  · intro refbuf hrefbuf
    right
    simp only [clientSetQueue] at hrefbuf ⊢
    simp [hrefbuf]

theorem findClientStart_moved {l : Listener} (hused : unread l = []) (s : Source) :
    Moved l (findClientStart s l) := by
  unfold findClientStart
  split
  · exact Moved.refl hused
  · have h := clientSetQueue_moved hused ((startOfSearch s l).dropWhile (!·.syncPoint))
    exact ⟨h.mp3_eq, h.conn_eq, h.metaLens_eq, h.overrun_eq, h.used, h.taken_eq, h.known⟩

theorem checkFileData_moved {l : Listener} {refbuf : Refbuf} (hrefbuf : l.refbuf = some refbuf)
    (s : Source) : (checkFileData s l refbuf).2 = l ∨ Moved l (checkFileData s l refbuf).2 := by
  unfold checkFileData
  split
  · rename_i hend
    have hused : unread l = [] := by simp [unread, hrefbuf, hend]
    right
    split
    · refine ⟨rfl, rfl, rfl, rfl, hused, ⟨_, rfl, by simp [unread]⟩, .inr ?_⟩
      intro other hother
      right
      simp [← Option.some.inj hother]
    · split
      · exact (clientSetQueue_moved hused []).trans (findClientStart_moved (by rfl) s)
      · have h := Moved.refl hused
        exact ⟨h.mp3_eq, h.conn_eq, h.metaLens_eq, h.overrun_eq, h.used, h.taken_eq, h.known⟩
  · exact .inl rfl

theorem checkBuffer_moved (s : Source) (l : Listener) :
    (checkBuffer s l).2 = l ∨ Moved l (checkBuffer s l).2 := by
  unfold checkBuffer
  split
  · unfold formatCheckFileBuffer
    split
    · rename_i hrefbuf
      have hused : unread l = [] := by simp [unread, hrefbuf]
      right
      split
      · exact findClientStart_moved hused s
      · set fresh : Listener := { l with
          refbuf := some ⟨List.replicate perClientRefbufSize 0, none, false⟩,
          pos := perClientRefbufSize, introOffset := 0 }
        have hfresh : Moved l fresh := by
          refine ⟨rfl, rfl, rfl, rfl, hused, ⟨[], by simp [fresh], ?_⟩, .inr ?_⟩
          · simp [fresh, unread]
          · intro refbuf h
            left
            rw [← Option.some.inj h]
        rcases checkFileData_moved (l := fresh) rfl s with h | h
        · rw [h]
          exact hfresh
        · exact hfresh.trans h
    · rename_i refbuf hrefbuf
      exact checkFileData_moved hrefbuf s
  · unfold formatAdvanceQueue
    split
    · exact .inl rfl
    · rename_i refbuf hrefbuf
      split
      · rename_i hend
        split
        · exact .inl rfl
        · exact .inr (clientSetQueue_moved (by simp [unread, hrefbuf, hend]) _)
      · exact .inl rfl

theorem currentBlock_congr {l next : Listener} (hmp3 : next.mp3 = l.mp3)
    (h : next.refbuf.map (·.associated) = l.refbuf.map (·.associated)) :
    currentBlock next = currentBlock l := by
  unfold currentBlock
  cases hn : next.refbuf <;> cases hl : l.refbuf <;> simp_all

theorem Inv.checkBuffer (inv : Inv interval l) {s : Source}
    (hkeep : l.mp3.metadataOffset ≠ 0 →
      (Mp3Sender.checkBuffer s l).2.refbuf.map (·.associated) = l.refbuf.map (·.associated)) :
    Inv interval (Mp3Sender.checkBuffer s l).2 := by
  rcases checkBuffer_moved s l with hsame | hmoved
  · rw [hsame]
    exact inv
  · obtain ⟨more, htaken, hdata⟩ := hmoved.taken_eq
    refine inv.take hmoved.used ?_ hmoved.mp3_eq hmoved.conn_eq hmoved.metaLens_eq
      hmoved.overrun_eq htaken hdata ?_
    · by_cases hzero : l.mp3.metadataOffset = 0
      · rw [hzero]
        exact ⟨currentBlock_ne_nil _, rfl⟩
      · rw [currentBlock_congr hmoved.mp3_eq (hkeep hzero)]
        exact ⟨inv.offset_lt, rfl⟩
    · intro refbuf metadata hrefbuf hassociated
      rcases hmoved.known with ⟨hsame, hsameTaken⟩ | hknown
      · rw [hsameTaken]
        exact inv.offered refbuf metadata (hsame ▸ hrefbuf) hassociated
      · rcases hknown refbuf hrefbuf with hnone | hmem
        · rw [hnone] at hassociated
          cases hassociated
        · exact ⟨refbuf, hmem, hassociated⟩

/-! ## Runs -/

theorem Inv.step {sys : System} (inv : Inv interval sys.listener) (hpos : 0 < interval)
    (hint : interval < 2 ^ 31) {event : Event} (hkeep : KeepsPartlySentBlock sys event) :
    Inv interval (step sys event).listener := by
  cases event with
  | turn =>
    have hchecked := inv.checkBuffer hkeep
    simp only [Mp3Framing.step, sendToListener]
    split
    · exact hchecked
    · split
      · exact hchecked
      · rename_i refbuf hrefbuf
        exact hchecked.write hpos hint hrefbuf
  | append refbuf =>
    simp only [Mp3Framing.step, Mp3Framing.append]
    split
    · exact ⟨inv.interval_eq, inv.since_le, inv.pending, inv.partly, inv.offset_lt, inv.offered,
        inv.framed, inv.no_overrun, inv.metaLens_nonneg⟩
    · exact inv
  | settle source => exact inv

theorem inv_startListener (interval : ℕ) (outcomes : List WriteOutcome) :
    Inv interval (startListener interval outcomes) := by
  refine ⟨rfl, Nat.zero_le _, ?_, ?_, currentBlock_ne_nil _, ?_, ⟨[], [], ?_, ?_, rfl, rfl⟩,
    rfl, ?_⟩
  · intro h
    cases h
  · intro h
    exact absurd rfl h
  · intro refbuf metadata hrefbuf hassociated
    rw [← Option.some.inj hrefbuf] at hassociated
    cases hassociated
  · simp [audioTaken, unread, startListener]
  · simp
  · simp [startListener]

/-- In every state of a run that never cuts off a partly sent block, what the listener has been
sent is framed, no `meta_len` was negative and nothing outside a buffer was read. -/
theorem icy_framing_of_kept_blocks (interval : ℕ) (hpos : 0 < interval) (hint : interval < 2 ^ 31)
    (outcomes : List WriteOutcome) (source : Source) (events : List Event)
    (hkeep : Guarded step KeepsPartlySentBlock ⟨source, startListener interval outcomes⟩ events) :
    let l := (run step ⟨source, startListener interval outcomes⟩ events).listener
    (∃ audio, audioTaken l = audio ++ unread l ∧ Framing interval l.taken audio l.conn.sent) ∧
      (∀ metaLen ∈ l.metaLens, 0 ≤ metaLen) ∧ l.overrun = false := by
  have inv := run_invariant_of_guarded step (fun sys ↦ Inv interval sys.listener)
    (fun sys event inv hkeep ↦ inv.step hpos hint hkeep) events
    (inv_startListener interval outcomes) hkeep
  exact ⟨inv.framing, inv.metaLens_nonneg, inv.no_overrun⟩

/-! ## Runs that cut a block off -/

/-- Two buffers of four bytes whose metadata differ. -/
def titleA : Metadata := ⟨1, 1 :: List.replicate 16 65, by decide⟩
def titleB : Metadata := ⟨2, 1 :: List.replicate 16 66, by decide⟩
def firstBuffer : Refbuf := ⟨[10, 11, 12, 13], some titleA, true⟩
def secondBuffer : Refbuf := ⟨[20, 21, 22, 23], some titleB, true⟩

def twoTitles : Source := ⟨true, none, [firstBuffer]⟩

/-- The listener starts at the first buffer; its socket takes the audio and five bytes of the block
behind it, and after the second buffer has arrived twelve bytes more. -/
def cutOffRun : System :=
  run step ⟨twoTitles, startListener 4 [.accept 4, .accept 5, .accept 12]⟩
    [.turn, .turn, .append secondBuffer, .turn]

/-- What has been sent, the buffers that have been taken, and what is left of the last one. -/
theorem cutOffRun_listener : cutOffRun.listener.conn.sent =
      [10, 11, 12, 13] ++ (titleA.data.take 5 ++ titleB.data.drop 5) ∧
    cutOffRun.listener.taken = [firstBuffer, secondBuffer] ∧
    unread cutOffRun.listener = secondBuffer.data := by decide +kernel

/-- The seventeen bytes that stand in the place of a block. -/
def mixedBlock : Bytes := titleA.data.take 5 ++ titleB.data.drop 5

theorem offered_mem {block : Bytes} (h : Offered [firstBuffer, secondBuffer] block) :
    block ∈ [[0], emptyTitle, titleA.data, titleB.data] := by
  rcases h with rfl | rfl | ⟨refbuf, hmem, metadata, hassociated, rfl⟩
  · simp
  · simp
  · simp only [List.mem_cons, List.not_mem_nil, or_false] at hmem
    rcases hmem with rfl | rfl <;> cases hassociated <;> simp

/-- The listener was sent five bytes of one title and twelve of the other in the place of one
block, so the stream is not framed. -/
theorem not_icy_framing_of_cut_block :
    ¬ ∃ audio, audioTaken cutOffRun.listener = audio ++ unread cutOffRun.listener ∧
      Framing 4 cutOffRun.listener.taken audio cutOffRun.listener.conn.sent := by
  obtain ⟨hsent, htaken, hunread⟩ := cutOffRun_listener
  rw [audioTaken, htaken, hunread, hsent]
  rintro ⟨audio, haudio, blocks, whole, offset, hblocks, hwhole, _, hoffset, hmany, _, _, hsent⟩
  have haudio : audio = [10, 11, 12, 13] := List.append_cancel_right haudio.symm
  subst haudio
  have hcount : blocks.length ≤ 1 := by
    simp only [List.length_cons, List.length_nil] at hmany
    omega
  match blocks, hcount with
  | [], _ =>
    have hpart : mixedBlock = whole.take offset := List.append_cancel_left hsent
    have hshort : ∀ block ∈ [[0], emptyTitle, titleA.data, titleB.data],
        block.length ≤ mixedBlock.length := by decide
    have hwhole := hshort whole (offered_mem hwhole)
    have hlen := congrArg List.length hpart
    rw [List.length_take] at hlen
    omega
  | [block], _ =>
    have hpart : mixedBlock = block ++ whole.take offset := by
      rw [insertBlocks, List.append_assoc, List.append_assoc] at hsent
      exact List.append_cancel_left hsent
    have hforeign : ∀ block ∈ [[0], emptyTitle, titleA.data, titleB.data],
        ¬ block <+: mixedBlock := by decide
    exact hforeign block (offered_mem (hblocks block (List.mem_singleton_self block)).1)
      ⟨_, hpart.symm⟩

/-- With the same title in both buffers the partly sent block is completed. -/
theorem icy_framing_same_title :
    let start : System := ⟨twoTitles, startListener 4 [.accept 4, .accept 5, .accept 12]⟩
    let events := [.turn, .turn, .append { secondBuffer with associated := some titleA }, .turn]
    let l := (run step start events).listener
    (l.mp3.metadataOffset, l.conn.sent) = (0, [10, 11, 12, 13] ++ titleA.data) ∧
    (∃ audio, audioTaken l = audio ++ unread l ∧ Framing 4 l.taken audio l.conn.sent) ∧
      (∀ metaLen ∈ l.metaLens, 0 ≤ metaLen) ∧ l.overrun = false :=
  ⟨by decide +kernel,
    icy_framing_of_kept_blocks 4 (by decide) (by decide) _ _ _ (by decide +kernel)⟩

end Icecast.Format.Mp3Framing
