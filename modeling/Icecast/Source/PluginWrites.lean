import Icecast.Format.Mp3Framing
import Icecast.Format.OggSender
import Icecast.Source.Delivery

/-!
# The writes of the plugins

To the phases of a listener a write is a step of `pos` towards the end of the buffer. Here this is
tied to what the plugins do: whatever their own data looks like and however the socket behaves, a
call of `write_buf_to_client` leaves `pos` between where it was and the end of the buffer, so it is
one of the writes that `writeToClient` has.
-/

namespace Icecast.Source.Delivery

open Lib.MachineInt

/-- A write can end anywhere between `pos` and the end of the buffer. -/
theorem sendRest_reaches {mem : Memory} {client : Client} {addr target : ℕ}
    (hle : client.pos ≤ target) (htarget : target ≤ mem.len addr) (hbound : mem.len addr < 2 ^ 32) :
    sendRest ⟨none, target - client.pos, false⟩ addr mem client =
      { client with pos := target } := by
  have hrest : usub 32 (mem.len addr) client.pos = mem.len addr - client.pos :=
    usub_of_le (hle.trans htarget) hbound
  have hsent : client.pos + min (target - client.pos) (mem.len addr - client.pos) = target := by
    omega
  simp only [sendRest, hrest, hsent]

section Mp3

open Format.Mp3Sender Format.Mp3Framing

variable {l : Listener}

/-- The position moves by at most `len`. -/
def Advances (l next : Listener) (len : ℕ) : Prop := l.pos ≤ next.pos ∧ next.pos ≤ l.pos + len

theorem clientSendBytes_pos (l : Listener) (buf : Bytes) (len : ℤ) :
    (clientSendBytes l buf len).2.pos = l.pos := by
  unfold clientSendBytes
  split <;> rfl

theorem sendStreamMetadata_pos (l : Listener) (associated : Option Metadata) :
    (sendStreamMetadata l associated).2.pos = l.pos := by
  have hpos := clientSendBytes_pos
    { l with metaLens := (metadataDue l.mp3 associated).2 :: l.metaLens }
    (metadataDue l.mp3 associated).1 (metadataDue l.mp3 associated).2
  unfold sendStreamMetadata
  dsimp only
  split_ifs
  · exact hpos
  · exact hpos
  · exact hpos

theorem sendAudio_advances {buf : Bytes} {len : ℕ} (hlen : len ≤ buf.length) :
    Advances l (sendAudio l buf len).2 len := by
  obtain ⟨n, conn, hn, -, heq, -⟩ := sendAudio_spec (l := l) hlen
  rw [heq]
  unfold Advances
  dsimp only
  omega

theorem writeRest_advances {buf : Bytes} {len : ℕ} (hlen : len ≤ buf.length) (written : ℤ) :
    Advances l (writeRest l buf len written).2 len := by
  have haudio : Advances l (sendAudio l buf len).2 len := sendAudio_advances hlen
  unfold writeRest
  split
  · dsimp only
    split
    · exact haudio
    · exact haudio
  · exact ⟨le_rfl, Nat.le_add_right _ _⟩

theorem writeBlock_advances {buf : Bytes} {len : ℕ} (hlen : len ≤ buf.length)
    (associated : Option Metadata) (written : ℤ) (l : Listener) :
    Advances l (writeBlock l associated buf len written).2 len := by
  have hpos := sendStreamMetadata_pos l associated
  unfold writeBlock
  dsimp only
  split
  · unfold Advances
    rw [finish_snd, hpos]
    exact ⟨le_rfl, Nat.le_add_right _ _⟩
  · have hlimit : (if (sendStreamMetadata l associated).2.mp3.interval < len then
        (sendStreamMetadata l associated).2.mp3.interval else len) ≤ len := by
      split <;> omega
    have hrest := writeRest_advances (l := (sendStreamMetadata l associated).2)
      (hlimit.trans hlen) (written + (sendStreamMetadata l associated).1)
    unfold Advances at hrest ⊢
    omega

theorem writeInterval_advances {buf : Bytes} {len : ℕ} (hlen : len ≤ buf.length)
    (associated : Option Metadata) (written : ℤ) :
    Advances l (writeInterval l associated buf len written).2 len := by
  unfold writeInterval
  split
  · dsimp only
    split
    · rename_i hremaining
      split
      · have haudio := sendAudio_advances (l := l) (hremaining.trans hlen)
        split
        · unfold Advances at haudio ⊢
          rw [finish_snd]
          omega
        · have hrest : len - usub 32 l.mp3.interval l.mp3.sinceMetaBlock ≤
              (buf.drop (usub 32 l.mp3.interval l.mp3.sinceMetaBlock)).length := by
            rw [List.length_drop]
            omega
          have hblock := writeBlock_advances hrest associated
            (written + (sendAudio l buf (usub 32 l.mp3.interval l.mp3.sinceMetaBlock)).1)
            (sendAudio l buf (usub 32 l.mp3.interval l.mp3.sinceMetaBlock)).2
          unfold Advances at haudio hblock ⊢
          omega
      · exact writeBlock_advances hlen associated written l
    · exact writeRest_advances hlen written
  · exact writeRest_advances hlen written

theorem formatMp3WriteBufToClient_advances (l : Listener) (refbuf : Refbuf) :
    Advances l (formatMp3WriteBufToClient l refbuf).2 (refbuf.data.length - l.pos) := by
  have hlen : refbuf.data.length - l.pos ≤ (refbuf.data.drop l.pos).length := by
    rw [List.length_drop]
  have hpos := sendStreamMetadata_pos l refbuf.associated
  unfold formatMp3WriteBufToClient
  dsimp only
  split
  · split
    · unfold Advances
      rw [finish_snd, hpos]
      exact ⟨le_rfl, Nat.le_add_right _ _⟩
    · have hrest := writeInterval_advances (l := (sendStreamMetadata l refbuf.associated).2) hlen
        refbuf.associated (sendStreamMetadata l refbuf.associated).1
      unfold Advances at hrest ⊢
      omega
  · exact writeInterval_advances hlen refbuf.associated 0

end Mp3

section Ogg

open Format.OggSender

theorem writePage_pos (l : Listener) (written : ℤ) (hpos : l.pos ≤ l.refbuf.data.length) :
    l.pos ≤ (writePage l written).2.pos ∧ (writePage l written).2.pos ≤ l.refbuf.data.length := by
  have hwrite := (l.conn.write_spec (l.refbuf.data.drop l.pos)).2.1
  rw [List.length_drop] at hwrite
  unfold writePage
  dsimp only
  split
  · omega
  · omega

theorem writeBufToClient_pos (pages : ℕ → List Bytes) (l : Listener)
    (hpos : l.pos ≤ l.refbuf.data.length) :
    l.pos ≤ (Format.OggSender.writeBufToClient pages l).2.pos ∧
      (Format.OggSender.writeBufToClient pages l).2.pos ≤ l.refbuf.data.length := by
  unfold Format.OggSender.writeBufToClient
  split
  · dsimp only
    split
    · exact ⟨le_rfl, hpos⟩
    · exact writePage_pos { l with
        conn := (sendOggHeaders pages l.conn l.oggClient l.refbuf.associated).2.1
        oggClient := (sendOggHeaders pages l.conn l.oggClient l.refbuf.associated).2.2 } _ hpos
  · exact writePage_pos l 0 hpos

end Ogg

/-! ## The plugins as writers -/

section Writers

variable {mem : Memory} {client : Client} {addr : ℕ} (haddr : client.refbuf = some addr)
  (hbound : mem.len addr < 2 ^ 32)
include haddr hbound

theorem mp3_write (hwriter : client.writeToClient = .writeBufToClient .generic)
    (l : Format.Mp3Sender.Listener) (refbuf : Format.Mp3Sender.Refbuf) (hpos : l.pos = client.pos)
    (hlen : refbuf.data.length = mem.len addr) (hle : client.pos ≤ mem.len addr) :
    ∃ pass, writeToClient pass mem client =
      { client with pos := (Format.Mp3Sender.formatMp3WriteBufToClient l refbuf).2.pos } := by
  have hadvances := formatMp3WriteBufToClient_advances l refbuf
  unfold Advances at hadvances
  rw [hpos, hlen] at hadvances
  refine ⟨⟨none, (Format.Mp3Sender.formatMp3WriteBufToClient l refbuf).2.pos - client.pos, false⟩, ?_⟩
  rw [← sendRest_reaches hadvances.1 (by omega) hbound]
  simp only [writeToClient, haddr, hwriter]

theorem ogg_write (hwriter : client.writeToClient = .writeBufToClient .ogg)
    (pages : ℕ → List (List UInt8)) (l : Format.OggSender.Listener) (hpos : l.pos = client.pos)
    (hlen : l.refbuf.data.length = mem.len addr) (hle : client.pos ≤ mem.len addr) :
    ∃ pass, writeToClient pass mem client =
      { client with pos := (Format.OggSender.writeBufToClient pages l).2.pos } := by
  have hbetween := writeBufToClient_pos pages l (by omega)
  rw [hpos, hlen] at hbetween
  refine ⟨⟨none, (Format.OggSender.writeBufToClient pages l).2.pos - client.pos, false⟩, ?_⟩
  rw [← sendRest_reaches hbetween.1 hbetween.2 hbound]
  simp only [writeToClient, haddr, hwriter]

end Writers

end Icecast.Source.Delivery
