import Icecast.Format.Mp3Demux

/-!
# ICY metadata that is passed on

The blocks a source client sends become the metadata of its stream. The filter works on whole
buffers and keeps what it has seen of a block in between. Byte by byte it is a small machine, and so
it does not matter how a block is cut into buffers. What is kept of a block is all of it but its last
byte, which is always a null byte afterwards, and a block whose text is that of the current one is
not kept at all.
-/

namespace Icecast.Format.Mp3Reader

open Lib.Machine Lib.Socket

/-! ## The filter byte by byte -/

/-- The first byte of a block tells how long it is. -/
def beginWith (mp3 : Mp3State) (byte : UInt8) : Mp3State :=
  if mp3.buildMetadataLen = 0 then
    { mp3 with buildMetadata := [], buildMetadataLen := 1 + byte.toNat * 16 }
  else mp3

/-- Behind a block the next interval of audio begins. -/
def endBlock (mp3 : Mp3State) : Option Mp3State :=
  (assignMetadata mp3).map fun mp3 ↦ { mp3 with offset := 0, buildMetadataLen := 0 }

def absorbByte (mp3 : Mp3State) (byte : UInt8) : Option Mp3State :=
  if mp3.offset < mp3.inlineMetadataInterval then some { mp3 with offset := mp3.offset + 1 }
  else
    let mp3 := beginWith mp3 byte
    if mp3.buildMetadata.length + 1 < mp3.buildMetadataLen then
      some { mp3 with buildMetadata := mp3.buildMetadata ++ [byte] }
    else endBlock mp3

def absorb (mp3 : Mp3State) (bytes : Bytes) : Option Mp3State := bytes.foldlM absorbByte mp3

/-- The result of the loop of `mp3_get_filter_meta`, which has none for a block in the wrong
format. -/
def filtered (result : Bool × Mp3State × Filter) : Option Mp3State :=
  if result.1 then some result.2.1 else none

/-- A block that has been begun is not complete. -/
def Unfinished (mp3 : Mp3State) : Prop :=
  mp3.buildMetadataLen ≠ 0 → mp3.buildMetadata.length < mp3.buildMetadataLen

variable {mp3 : Mp3State} {bytes : Bytes}

theorem absorb_append (mp3 : Mp3State) (first second : Bytes) :
    absorb mp3 (first ++ second) = (absorb mp3 first).bind fun mp3 ↦ absorb mp3 second :=
  List.foldlM_append

theorem absorb_cons (mp3 : Mp3State) (byte : UInt8) (bytes : Bytes) :
    absorb mp3 (byte :: bytes) = (absorbByte mp3 byte).bind fun mp3 ↦ absorb mp3 bytes :=
  List.foldlM_cons

theorem absorb_audio (h : bytes.length ≤ mp3.inlineMetadataInterval - mp3.offset) :
    absorb mp3 bytes = some { mp3 with offset := mp3.offset + bytes.length } := by
  induction bytes generalizing mp3 with
  | nil => rfl
  | cons byte bytes ih =>
    rw [List.length_cons] at h
    have hbyte : absorbByte mp3 byte = some { mp3 with offset := mp3.offset + 1 } := by
      rw [absorbByte, if_pos (by omega)]
    rw [absorb_cons, hbyte, Option.bind_some, ih (by dsimp only; omega)]
    simp only [List.length_cons, Nat.add_assoc, Nat.add_comm 1]

theorem beginWith_of_ne_zero (h : mp3.buildMetadataLen ≠ 0) (byte : UInt8) :
    beginWith mp3 byte = mp3 := if_neg h

theorem beginWith_len (mp3 : Mp3State) (byte : UInt8) :
    (beginWith mp3 byte).buildMetadataLen ≠ 0 := by
  unfold beginWith
  split
  · dsimp only
    omega
  · assumption

theorem beginWith_frame (mp3 : Mp3State) (byte : UInt8) :
    (beginWith mp3 byte).offset = mp3.offset ∧
      (beginWith mp3 byte).inlineMetadataInterval = mp3.inlineMetadataInterval ∧
      (beginWith mp3 byte).metadata = mp3.metadata := by
  unfold beginWith
  split <;> exact ⟨rfl, rfl, rfl⟩

theorem Unfinished.beginWith (h : Unfinished mp3) (byte : UInt8) :
    Unfinished (Mp3Reader.beginWith mp3 byte) := by
  unfold Mp3Reader.beginWith
  split
  · intro _
    simp only [List.length_nil]
    omega
  · exact h

theorem absorbByte_block (hoffset : mp3.inlineMetadataInterval ≤ mp3.offset) (byte : UInt8) :
    absorbByte mp3 byte =
      if (beginWith mp3 byte).buildMetadata.length + 1 < (beginWith mp3 byte).buildMetadataLen then
        some { beginWith mp3 byte with
          buildMetadata := (beginWith mp3 byte).buildMetadata ++ [byte] }
      else endBlock (beginWith mp3 byte) := by
  rw [absorbByte, if_neg (Nat.not_lt.mpr hoffset)]

/-- Inside the metadata, a block is begun before its first byte is looked at. -/
theorem absorb_beginWith (hoffset : mp3.inlineMetadataInterval ≤ mp3.offset) (byte : UInt8)
    (bytes : Bytes) : absorb mp3 (byte :: bytes) = absorb (beginWith mp3 byte) (byte :: bytes) := by
  obtain ⟨hoff, hinterval, -⟩ := beginWith_frame mp3 byte
  have hbyte : absorbByte mp3 byte = absorbByte (beginWith mp3 byte) byte := by
    rw [absorbByte_block hoffset, absorbByte_block (by omega),
      beginWith_of_ne_zero (beginWith_len mp3 byte)]
  rw [absorb_cons, absorb_cons, hbyte]

theorem absorb_unfinished (hoffset : mp3.inlineMetadataInterval ≤ mp3.offset)
    (hlen : mp3.buildMetadataLen ≠ 0)
    (h : mp3.buildMetadata.length + bytes.length < mp3.buildMetadataLen) :
    absorb mp3 bytes = some { mp3 with buildMetadata := mp3.buildMetadata ++ bytes } := by
  induction bytes generalizing mp3 with
  | nil => simp [absorb]
  | cons byte bytes ih =>
    rw [List.length_cons] at h
    have hbyte : absorbByte mp3 byte =
        some { mp3 with buildMetadata := mp3.buildMetadata ++ [byte] } := by
      rw [absorbByte_block hoffset, beginWith_of_ne_zero hlen]
      exact if_pos (by omega)
    have hrest := @ih { mp3 with buildMetadata := mp3.buildMetadata ++ [byte] } hoffset hlen
      (by simp; omega)
    rw [absorb_cons, hbyte, Option.bind_some, hrest]
    simp

/-- The last byte of a block is counted, but not kept. -/
theorem absorb_complete (hoffset : mp3.inlineMetadataInterval ≤ mp3.offset)
    (hlen : mp3.buildMetadataLen ≠ 0) (hbytes : bytes ≠ [])
    (h : mp3.buildMetadata.length + bytes.length = mp3.buildMetadataLen) :
    absorb mp3 bytes =
      endBlock { mp3 with buildMetadata := mp3.buildMetadata ++ bytes.dropLast } := by
  have hpos := List.length_pos_iff.mpr hbytes
  have hpartial := @absorb_unfinished mp3 bytes.dropLast hoffset hlen
    (by rw [List.length_dropLast]; omega)
  let built : Mp3State := { mp3 with buildMetadata := mp3.buildMetadata ++ bytes.dropLast }
  have hlast : absorbByte built (bytes.getLast hbytes) = endBlock built := by
    have hblock := @absorbByte_block built hoffset (bytes.getLast hbytes)
    rw [@beginWith_of_ne_zero built hlen] at hblock
    rw [hblock]
    apply if_neg
    simp only [built, List.length_append, List.length_dropLast]
    omega
  calc
    absorb mp3 bytes = absorb mp3 (bytes.dropLast ++ [bytes.getLast hbytes]) := by
      rw [List.dropLast_append_getLast hbytes]
    _ = (absorbByte built (bytes.getLast hbytes)).bind some := by
      rw [absorb_append, hpartial]
      rfl
    _ = endBlock built := by
      rw [hlast]
      exact Option.bind_fun_some _

theorem assignMetadata_frame {after : Mp3State} (h : assignMetadata mp3 = some after) :
    ∃ metadata, after = { mp3 with metadata := metadata } := by
  unfold assignMetadata at h
  split at h
  · dsimp only at h
    split at h
    · exact ⟨_, (Option.some.inj h).symm⟩
    · cases h
  · exact ⟨mp3.metadata, (Option.some.inj h).symm⟩

/-! ## The loop -/

variable {filter : Filter} {chunk : Bytes}

theorem beginBlock_eq {byte : UInt8} {more : Bytes} (hholds : Holds filter (byte :: more)) :
    beginBlock mp3 filter = beginWith mp3 byte := by
  have hhead : (filter.data.drop filter.src).headD 0 = byte := by
    rw [hholds.drop_src]
    rfl
  rw [beginBlock, beginWith, hhead]

/-- A turn of the loop inside a block that has been begun, in terms of what the further turns do. -/
theorem filtered_block {fuel : ℕ} (hchunk : chunk.length < fuel + 1) (hholds : Holds filter chunk)
    (hoffset : mp3.inlineMetadataInterval ≤ mp3.offset) (hlen : mp3.buildMetadataLen ≠ 0)
    (hunfinished : Unfinished mp3)
    (ih : ∀ {mp3 : Mp3State} {filter : Filter} {chunk : Bytes}, chunk.length < fuel →
      Holds filter chunk → Unfinished mp3 →
      filtered (filterLoop fuel mp3 filter) = absorb mp3 chunk) :
    filtered
      (let src := filter.data.drop filter.src
      let metadataRemaining := mp3.buildMetadataLen - mp3.buildMetadata.length
      if filter.bytes < metadataRemaining then
        (true, { mp3 with buildMetadata := mp3.buildMetadata ++ src.take filter.bytes }, filter)
      else
        let mp3 := { mp3 with
          buildMetadata := mp3.buildMetadata ++ src.take (metadataRemaining - 1) }
        let bytes := filter.bytes - metadataRemaining
        let filter := { filter with
          bytes := bytes
          data := memmove filter.data filter.src (filter.src + metadataRemaining) bytes }
        match assignMetadata mp3 with
        | none => (false, mp3, filter)
        | some mp3 => filterLoop fuel { mp3 with offset := 0, buildMetadataLen := 0 } filter) =
      absorb mp3 chunk := by
  have hbytes := hholds.length_eq
  have hremaining := hunfinished hlen
  dsimp only
  set remaining := mp3.buildMetadataLen - mp3.buildMetadata.length
  by_cases hshort : filter.bytes < remaining
  · rw [if_pos hshort, absorb_unfinished hoffset hlen (by omega), hholds.chunk_eq]
    rfl
  · rw [if_neg hshort]
    have hcut : chunk.take remaining ≠ [] := by
      rw [← List.length_pos_iff, List.length_take]
      omega
    have hkept : (filter.data.drop filter.src).take (remaining - 1) =
        (chunk.take remaining).dropLast := by
      rw [hholds.drop_src, List.take_append_of_le_length (by omega), List.dropLast_eq_take,
        List.length_take, List.take_take, show min (min remaining chunk.length - 1) remaining =
          remaining - 1 by omega]
    have hblock := absorb_complete hoffset hlen hcut (by rw [List.length_take]; omega)
    calc
      _ = (endBlock { mp3 with
            buildMetadata := mp3.buildMetadata ++ (chunk.take remaining).dropLast }).bind
              fun mp3 ↦ absorb mp3 (chunk.drop remaining) := by
        rw [hkept, endBlock]
        cases assignMetadata { mp3 with
          buildMetadata := mp3.buildMetadata ++ (chunk.take remaining).dropLast } with
        | none => rfl
        | some after =>
          exact ih (by rw [List.length_drop]; omega) (hholds.overwrite remaining).1
            fun h ↦ absurd rfl h
      _ = absorb mp3 chunk := by
        rw [← hblock, ← absorb_append, List.take_append_drop]

/-- The loop over a buffer is the machine over its bytes. -/
theorem filtered_filterLoop {fuel : ℕ} (hfuel : chunk.length < fuel) (hholds : Holds filter chunk)
    (hunfinished : Unfinished mp3) :
    filtered (filterLoop fuel mp3 filter) = absorb mp3 chunk := by
  induction fuel generalizing mp3 filter chunk with
  | zero => omega
  | succ fuel ih =>
    have hbytes := hholds.length_eq
    unfold filterLoop
    by_cases hempty : filter.bytes = 0
    · rw [if_pos hempty, List.length_eq_zero_iff.mp (hbytes.trans hempty)]
      rfl
    · rw [if_neg hempty]
      by_cases haudio : filter.bytes ≤ mp3.inlineMetadataInterval - mp3.offset
      · rw [absorb_audio (by omega)]
        simp only [if_pos haudio, filtered, hbytes, if_true]
      · simp only [if_neg haudio]
        by_cases hblock : mp3.inlineMetadataInterval - mp3.offset ≠ 0
        · rw [if_pos hblock]
          set n := mp3.inlineMetadataInterval - mp3.offset
          have hlong : n ≤ chunk.length := by omega
          have htaken : (chunk.take n).length = n := by
            rw [List.length_take, Nat.min_eq_left hlong]
          rw [← List.take_append_drop n chunk, absorb_append, absorb_audio (by omega),
            Option.bind_some, htaken]
          exact ih (by rw [List.length_drop]; omega) (hholds.pass hlong) hunfinished
        · rw [if_neg hblock]
          have hsome : chunk ≠ [] := by
            rw [← List.length_pos_iff]
            omega
          obtain ⟨byte, more, rfl⟩ := List.exists_cons_of_ne_nil hsome
          obtain ⟨hoff, hinterval, -⟩ := beginWith_frame mp3 byte
          rw [absorb_beginWith (by omega), beginBlock_eq hholds]
          exact filtered_block hfuel hholds (by omega) (beginWith_len mp3 byte)
            (hunfinished.beginWith byte) ih

/-! ## Buffer after buffer -/

/-- `mp3_get_filter_meta` with a buffer that has been filled. -/
def readBuffer (mp3 : Mp3State) (data : Bytes) : Option Mp3State :=
  filtered (filterLoop (data.length + 1) (mp3SetTitle mp3) ⟨data, 0, data.length, 0⟩)

def readBuffers (mp3 : Mp3State) (buffers : List Bytes) : Option Mp3State :=
  buffers.foldlM readBuffer mp3

/-- A call that fills the buffer changes the state of the plugin in this way. -/
theorem mp3GetFilterMeta_mp3 {s filled : Source} {read : ReadOutcome} {after : Mp3State}
    (hfull : completeRead s read = (true, filled))
    (h : readBuffer { filled.mp3 with readData := none } filled.pending = some after) :
    (mp3GetFilterMeta s read).mp3 = after := by
  simp only [readBuffer, Source.pending] at h
  simp only [mp3GetFilterMeta, hfull]
  split
  · rename_i _ _ hloop
    rw [hloop] at h
    cases h
  · rename_i _ _ hloop
    rw [hloop] at h
    split <;> exact Option.some.inj h

theorem absorbByte_kept {after : Mp3State} {byte : UInt8} (h : absorbByte mp3 byte = some after)
    (hunfinished : Unfinished mp3) :
    Unfinished after ∧ after.updateMetadata = mp3.updateMetadata := by
  have hbegin : (beginWith mp3 byte).updateMetadata = mp3.updateMetadata := by
    unfold beginWith
    split <;> rfl
  unfold absorbByte at h
  split at h
  · rw [← Option.some.inj h]
    exact ⟨hunfinished, rfl⟩
  · dsimp only at h
    split at h
    · rename_i hmore
      rw [← Option.some.inj h]
      refine ⟨fun _ ↦ ?_, hbegin⟩
      simp only [List.length_append, List.length_singleton]
      exact hmore
    · obtain ⟨assigned, hassigned, rfl⟩ := Option.map_eq_some_iff.mp h
      obtain ⟨metadata, rfl⟩ := assignMetadata_frame hassigned
      exact ⟨fun hzero ↦ absurd rfl hzero, hbegin⟩

theorem absorb_kept {after : Mp3State} (h : absorb mp3 bytes = some after)
    (hunfinished : Unfinished mp3) :
    Unfinished after ∧ after.updateMetadata = mp3.updateMetadata := by
  induction bytes generalizing mp3 with
  | nil =>
    obtain rfl : mp3 = after := Option.some.inj h
    exact ⟨hunfinished, rfl⟩
  | cons byte bytes ih =>
    rw [absorb_cons] at h
    obtain ⟨next, hnext, hrest⟩ := Option.bind_eq_some_iff.mp h
    obtain ⟨hunfinished', htitle⟩ := absorbByte_kept hnext hunfinished
    obtain ⟨hafter, htitle'⟩ := ih hrest hunfinished'
    exact ⟨hafter, htitle'.trans htitle⟩

/-- It does not matter how the bytes are cut into buffers. -/
theorem readBuffers_eq (buffers : List Bytes) (hunfinished : Unfinished mp3)
    (htitle : mp3.updateMetadata = none) : readBuffers mp3 buffers = absorb mp3 buffers.flatten := by
  induction buffers generalizing mp3 with
  | nil => rfl
  | cons data buffers ih =>
    have hsame : mp3SetTitle mp3 = mp3 := by
      cases mp3
      cases htitle
      rfl
    have hholds : Holds ⟨data, 0, data.length, 0⟩ data := ⟨rfl, by simp, rfl, Nat.zero_le _⟩
    have hfirst : readBuffer mp3 data = absorb mp3 data := by
      rw [readBuffer, hsame]
      exact filtered_filterLoop (Nat.lt_succ_self _) hholds hunfinished
    rw [readBuffers, List.foldlM_cons, hfirst, List.flatten_cons, absorb_append]
    cases hafter : absorb mp3 data with
    | none => rfl
    | some after =>
      obtain ⟨hunfinished', htitle'⟩ := absorb_kept hafter hunfinished
      exact ih hunfinished' (htitle'.trans htitle)

/-- A title that waits is taken over with the first buffer. -/
theorem readBuffers_setTitle (mp3 : Mp3State) {buffers : List Bytes} (hbuffers : buffers ≠ []) :
    readBuffers (mp3SetTitle mp3) buffers = readBuffers mp3 buffers := by
  cases buffers with
  | nil => exact absurd rfl hbuffers
  | cons data buffers => rfl

/-! ## One block -/

/-- The text of a block: up to the first null byte, and at most up to the byte before the last. -/
def textOf (block : Bytes) : Bytes := cString (block.dropLast.drop 1)

theorem absorb_block {lenByte : UInt8} {content : Bytes}
    (hoffset : mp3.inlineMetadataInterval ≤ mp3.offset) (hlen : mp3.buildMetadataLen = 0)
    (hcontent : content.length = 16 * lenByte.toNat) :
    absorb mp3 (lenByte :: content) = endBlock { mp3 with
      buildMetadataLen := (lenByte :: content).length
      buildMetadata := (lenByte :: content).dropLast } := by
  have hbegin : beginWith mp3 lenByte = { mp3 with
      buildMetadata := [], buildMetadataLen := (lenByte :: content).length } := by
    rw [beginWith, if_pos hlen, List.length_cons, hcontent, Nat.mul_comm, Nat.add_comm]
  have hblock := @absorb_complete (beginWith mp3 lenByte) (lenByte :: content)
  rw [hbegin] at hblock
  rw [absorb_beginWith hoffset, hbegin]
  exact hblock hoffset (by simp) (by simp) (by simp)

theorem dropLast_append_zero_eq_iff {block : Bytes} (hblock : block ≠ []) :
    block.dropLast ++ [0] = block ↔ block.getLast? = some 0 := by
  conv_lhs => rw [← List.dropLast_append_getLast hblock, List.dropLast_concat]
  rw [List.append_cancel_left_eq, List.getLast?_eq_some_getLast hblock]
  simp [eq_comm]

/-- What becomes of the metadata at the end of a block that begins with a title. -/
theorem endBlock_titled {lenByte : UInt8} {content : Bytes} (hpos : 0 < lenByte.toNat)
    (hcontent : content.length = 16 * lenByte.toNat) (htitle : streamTitle <+: content)
    (hlen : mp3.buildMetadataLen = (lenByte :: content).length)
    (hbuild : mp3.buildMetadata = (lenByte :: content).dropLast) :
    endBlock mp3 = some { mp3 with
      metadata := if textOf (lenByte :: content) = cString (mp3.metadata.drop 1) then mp3.metadata
        else (lenByte :: content).dropLast ++ [0]
      offset := 0
      buildMetadataLen := 0 } := by
  have hcons : (lenByte :: content).dropLast = lenByte :: content.dropLast :=
    List.dropLast_cons_of_ne_nil (by rw [← List.length_pos_iff]; omega)
  have hzero : List.replicate (mp3.buildMetadataLen - mp3.buildMetadata.length) (0 : UInt8) =
      [0] := by
    rw [hlen, hbuild, List.length_dropLast, List.length_cons, show
      content.length + 1 - (content.length + 1 - 1) = 1 by omega]
    rfl
  have hstart : ((mp3.buildMetadata ++ [0]).drop 1).take 12 = streamTitle := by
    have htwelve : streamTitle.length = 12 := by decide
    rw [hbuild, hcons, List.cons_append, List.drop_succ_cons, List.drop_zero,
      List.take_append_of_le_length (by rw [List.length_dropLast]; omega), List.dropLast_eq_take,
      List.take_take, show min 12 (content.length - 1) = 12 by omega, ← htwelve]
    exact (List.prefix_iff_eq_take.mp htitle).symm
  have htext : cString (mp3.buildMetadata.drop 1) = textOf (lenByte :: content) := by
    rw [hbuild]
    rfl
  have hlong : 1 < mp3.buildMetadataLen := by
    rw [hlen, List.length_cons]
    omega
  unfold endBlock assignMetadata
  rw [htext, hzero]
  by_cases hsame : textOf (lenByte :: content) = cString (mp3.metadata.drop 1)
  · rw [if_neg (by simp [hsame]), if_pos hsame]
    rfl
  · rw [if_pos ⟨hlong, hsame⟩, if_neg hsame, ← hbuild]
    simp only [if_pos hstart]
    rfl

/-- A block that begins with a title, behind the audio still due and before any other bytes, cut into
buffers in any way. At its end the metadata is the block with a null byte for its last byte, if its
text is new, and what it was before otherwise: a title that was waiting, if there was one. -/
theorem inline_metadata_received {buffers : List Bytes} {audio content post : Bytes}
    {lenByte : UInt8} (hlen : mp3.buildMetadataLen = 0)
    (haudio : audio.length = mp3.inlineMetadataInterval - mp3.offset) (hpos : 0 < lenByte.toNat)
    (hcontent : content.length = 16 * lenByte.toNat) (htitled : streamTitle <+: content)
    (hbuffers : buffers.flatten = audio ++ lenByte :: content ++ post) :
    let block := lenByte :: content
    let current := mp3.updateMetadata.getD mp3.metadata
    ∃ after : Mp3State, readBuffers mp3 buffers = absorb after post ∧
      after.offset = 0 ∧ after.buildMetadataLen = 0 ∧
      (textOf block ≠ cString (current.drop 1) → after.metadata = block.dropLast ++ [0]) ∧
      (textOf block = cString (current.drop 1) → after.metadata = current) ∧
      (block ≠ current → (after.metadata = block ↔
        block.getLast? = some 0 ∧ textOf block ≠ cString (current.drop 1))) := by
  intro block current
  have hunfinished : Unfinished (mp3SetTitle mp3) := fun h ↦ absurd hlen h
  have hnonempty : buffers ≠ [] := by
    rintro rfl
    have hlengths := congrArg List.length hbuffers
    rw [List.length_append, List.length_append, List.length_cons, List.flatten_nil, List.length_nil]
      at hlengths
    omega
  let due : Mp3State := { mp3SetTitle mp3 with offset := mp3.offset + audio.length }
  have hdue : due.inlineMetadataInterval ≤ due.offset := by
    change mp3.inlineMetadataInterval ≤ mp3.offset + audio.length
    omega
  let built : Mp3State := { due with
    buildMetadataLen := (lenByte :: content).length
    buildMetadata := (lenByte :: content).dropLast }
  have hend := @endBlock_titled built lenByte content hpos hcontent htitled rfl rfl
  let after : Mp3State := { built with
    metadata := if textOf block = cString (current.drop 1) then current else block.dropLast ++ [0]
    offset := 0
    buildMetadataLen := 0 }
  refine ⟨after, ?_, rfl, rfl, fun hnew ↦ if_neg hnew, fun hsame ↦ if_pos hsame, ?_⟩
  · calc
      readBuffers mp3 buffers = readBuffers (mp3SetTitle mp3) buffers :=
        (readBuffers_setTitle mp3 hnonempty).symm
      _ = absorb (mp3SetTitle mp3) (audio ++ block ++ post) := by
        rw [readBuffers_eq buffers hunfinished rfl, hbuffers]
      _ = (absorb due block).bind fun after ↦ absorb after post := by
        rw [absorb_append, absorb_append, @absorb_audio (mp3SetTitle mp3) audio haudio.le]
        rfl
      _ = (endBlock built).bind fun after ↦ absorb after post := by
        rw [@absorb_block due lenByte content hdue hlen hcontent]
      _ = _ := by
        rw [hend]
        rfl
  · intro hdiffers
    by_cases hsame : textOf block = cString (current.drop 1)
    · simp only [after]
      rw [if_pos hsame]
      exact iff_of_false hdiffers.symm fun h ↦ h.2 hsame
    · simp only [after]
      rw [if_neg hsame, dropLast_append_zero_eq_iff (by simp)]
      exact (and_iff_left hsame).symm

/-- A block of sixteen bytes that is filled up to the last one. -/
def filledBlock : Bytes := 1 :: "StreamTitle='a';".toList.map fun char ↦ UInt8.ofNat char.toNat

def beforeBlock : Mp3State := ⟨4, 4, initialMetadata, none, none, 0, []⟩

/-- Its last byte is lost, although it differs from the current block and begins with a title. -/
theorem not_inline_metadata_exact :
    filledBlock ≠ beforeBlock.metadata ∧ streamTitle <+: filledBlock.drop 1 ∧
      (readBuffers beforeBlock [filledBlock.take 5, filledBlock.drop 5]).map (·.metadata) =
        some (filledBlock.dropLast ++ [0]) ∧
      filledBlock.dropLast ++ [0] ≠ filledBlock := by
  decide +kernel

/-- A block of 32 bytes, padded with null bytes and cut into three buffers. -/
def paddedBlock : Bytes :=
  2 :: ("StreamTitle='news';".toList.map fun char ↦ UInt8.ofNat char.toNat) ++ List.replicate 13 0

theorem padded_metadata_received :
    ∃ after, readBuffers beforeBlock [paddedBlock.take 1, (paddedBlock.drop 1).take 20,
        paddedBlock.drop 21] = absorb after [] ∧ after.metadata = paddedBlock := by
  obtain ⟨after, hread, -, -, hnew, -⟩ := @inline_metadata_received beforeBlock
    [paddedBlock.take 1, (paddedBlock.drop 1).take 20, paddedBlock.drop 21] [] (paddedBlock.drop 1) []
    2 rfl rfl (by decide) (by decide) (by decide) (by decide +kernel)
  exact ⟨after, hread, (hnew (by decide +kernel)).trans (by decide +kernel)⟩

end Icecast.Format.Mp3Reader
