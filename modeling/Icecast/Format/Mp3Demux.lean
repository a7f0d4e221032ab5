import Icecast.Format.Mp3Reader

/-!
# The audio of an ICY stream is kept

A stream is a sequence of frames: `interval` bytes of audio and a metadata block. The reader stands
inside the audio or inside the block of some frame. Whatever buffers it is handed, the bytes it keeps
are the audio bytes among those it has looked at.
-/

namespace Icecast.Format.Mp3Reader

open Lib.Machine Lib.Socket

/-- Audio and the block behind it. A block that is not empty begins with a title. -/
structure Frame (interval : ℕ) where
  audio : Bytes
  lenByte : UInt8
  content : Bytes
  audio_length : audio.length = interval
  content_length : content.length = 16 * lenByte.toNat
  titled : 0 < lenByte.toNat → streamTitle <+: content

variable {interval : ℕ}

def Frame.block (frame : Frame interval) : Bytes := frame.lenByte :: frame.content

def streamOf (frames : List (Frame interval)) : Bytes :=
  frames.flatMap fun frame ↦ frame.audio ++ frame.block

def audioOf (frames : List (Frame interval)) : Bytes := frames.flatMap Frame.audio

/-- The audio bytes among the first `n` bytes of a stream. -/
def audioWithin : List (Frame interval) → ℕ → Bytes
  | [], _ => []
  | frame :: frames, n =>
    frame.audio.take n ++ audioWithin frames (n - (frame.audio ++ frame.block).length)

@[simp] theorem streamOf_cons (frame : Frame interval) (frames : List (Frame interval)) :
    streamOf (frame :: frames) = frame.audio ++ frame.block ++ streamOf frames := by
  simp [streamOf]

@[simp] theorem streamOf_append (first second : List (Frame interval)) :
    streamOf (first ++ second) = streamOf first ++ streamOf second := by
  simp [streamOf]

@[simp] theorem audioOf_cons (frame : Frame interval) (frames : List (Frame interval)) :
    audioOf (frame :: frames) = frame.audio ++ audioOf frames := by
  simp [audioOf]

@[simp] theorem audioWithin_zero (frames : List (Frame interval)) : audioWithin frames 0 = [] := by
  induction frames with
  | nil => rfl
  | cons frame frames ih => simp [audioWithin, ih]

theorem audioWithin_append (first second : List (Frame interval)) (n : ℕ) :
    audioWithin (first ++ second) ((streamOf first).length + n) =
      audioOf first ++ audioWithin second n := by
  induction first with
  | nil => simp [streamOf, audioOf]
  | cons frame frames ih =>
    have hrest : (streamOf (frame :: frames)).length + n - (frame.audio ++ frame.block).length =
        (streamOf frames).length + n := by
      simp only [streamOf_cons, List.length_append]
      omega
    have htake : frame.audio.take ((streamOf (frame :: frames)).length + n) = frame.audio := by
      apply List.take_of_length_le
      simp only [streamOf_cons, List.length_append]
      omega
    rw [List.cons_append, audioWithin, hrest, htake, ih, audioOf_cons, List.append_assoc]

theorem audioWithin_length (frames : List (Frame interval)) :
    audioWithin frames (streamOf frames).length = audioOf frames := by
  have h := audioWithin_append frames [] 0
  simpa [audioWithin] using h

theorem audioWithin_prefix (frames : List (Frame interval)) (n : ℕ) :
    audioWithin frames n <+: audioOf frames := by
  induction frames generalizing n with
  | nil => exact List.prefix_rfl
  | cons frame frames ih =>
    rw [audioWithin, audioOf_cons]
    by_cases hn : n ≤ frame.audio.length
    · have hnone : n - (frame.audio ++ frame.block).length = 0 := by
        rw [List.length_append]
        omega
      rw [hnone, audioWithin_zero, List.append_nil]
      exact (List.take_prefix _ _).trans (List.prefix_append _ _)
    · rw [List.take_of_length_le (by omega), List.prefix_append_right_inj]
      exact ih _

/-- Where the reader stands: `rest` is the part of the stream it has not looked at, and `out` the
audio in front of it. -/
inductive Position (frames : List (Frame interval)) (mp3 : Mp3State) : Bytes → Bytes → Prop where
  | inAudio (before after : List (Frame interval)) (frame : Frame interval) (seen unseen : Bytes)
      (hframes : frames = before ++ frame :: after) (haudio : frame.audio = seen ++ unseen)
      (hoffset : mp3.offset = seen.length) (hlen : mp3.buildMetadataLen = 0) :
      Position frames mp3 (unseen ++ frame.block ++ streamOf after) (audioOf before ++ seen)
  | inBlock (before after : List (Frame interval)) (frame : Frame interval) (seen unseen : Bytes)
      (hframes : frames = before ++ frame :: after) (hblock : frame.block = seen ++ unseen)
      (hunseen : unseen ≠ []) (hoffset : mp3.offset = interval)
      (hlen : mp3.buildMetadataLen = frame.block.length) (hseen : mp3.buildMetadata = seen) :
      Position frames mp3 (unseen ++ streamOf after) (audioOf before ++ frame.audio)
  | atEnd (hoffset : mp3.offset = 0) (hlen : mp3.buildMetadataLen = 0) :
      Position frames mp3 [] (audioOf frames)

variable {frames : List (Frame interval)} {mp3 : Mp3State} {rest out : Bytes}

/-- The position determines how much of the stream is left, and that the audio kept so far is right. -/
theorem Position.spec (h : Position frames mp3 rest out) :
    rest.length ≤ (streamOf frames).length ∧
      out = audioWithin frames ((streamOf frames).length - rest.length) := by
  cases h with
  | inAudio before after frame seen unseen hframes haudio hoffset hlen =>
    have hlength : (streamOf frames).length =
        (streamOf before).length + seen.length +
        (unseen ++ frame.block ++ streamOf after).length := by
      simp only [hframes, streamOf_append, streamOf_cons, haudio, List.length_append]
      omega
    refine ⟨by omega, ?_⟩
    rw [hlength, Nat.add_sub_cancel, hframes, audioWithin_append, audioWithin]
    have hnone : seen.length - (frame.audio ++ frame.block).length = 0 := by
      simp only [haudio, List.length_append]
      omega
    rw [hnone, audioWithin_zero, haudio, List.take_left, List.append_nil]
  | inBlock before after frame seen unseen hframes hblock hunseen hoffset hlen hseen =>
    have hlength : (streamOf frames).length = (streamOf before).length +
        (frame.audio.length + seen.length) + (unseen ++ streamOf after).length := by
      simp only [hframes, streamOf_append, streamOf_cons, hblock, List.length_append]
      omega
    refine ⟨by omega, ?_⟩
    rw [hlength, Nat.add_sub_cancel, hframes, audioWithin_append, audioWithin]
    have hnone : frame.audio.length + seen.length - (frame.audio ++ frame.block).length = 0 := by
      simp only [hblock, List.length_append]
      omega
    rw [hnone, audioWithin_zero, List.take_of_length_le (by omega), List.append_nil]
  | atEnd hoffset hlen => simp [audioWithin_length]

theorem Position.congr {mp3' : Mp3State} (h : Position frames mp3 rest out)
    (hoffset : mp3'.offset = mp3.offset) (hlen : mp3'.buildMetadataLen = mp3.buildMetadataLen)
    (hbuild : mp3'.buildMetadata = mp3.buildMetadata) : Position frames mp3' rest out := by
  cases h with
  | inAudio before after frame seen unseen hframes haudio hoff hzero =>
    exact .inAudio before after frame seen unseen hframes haudio (hoffset.trans hoff)
      (hlen.trans hzero)
  | inBlock before after frame seen unseen hframes hblock hunseen hoff hlength hseen =>
    exact .inBlock before after frame seen unseen hframes hblock hunseen (hoffset.trans hoff)
      (hlen.trans hlength) (hbuild.trans hseen)
  | atEnd hoff hzero => exact .atEnd (hoffset.trans hoff) (hlen.trans hzero)

/-! ## Blocks -/

theorem Frame.block_length (frame : Frame interval) :
    frame.block.length = 1 + frame.lenByte.toNat * 16 := by
  rw [block, List.length_cons, frame.content_length]
  omega

/-- A block of a stream is never taken for one in the wrong format. -/
theorem assignMetadata_block (frame : Frame interval)
    (hlen : mp3.buildMetadataLen = frame.block.length)
    (hbuild : mp3.buildMetadata = frame.block.take (frame.block.length - 1)) :
    ∃ metadata, assignMetadata mp3 = some { mp3 with metadata := metadata } := by
  unfold assignMetadata
  split
  · rename_i htext
    have hlength := frame.block_length
    have hpos : 0 < frame.lenByte.toNat := by omega
    have htitle := frame.titled hpos
    have hcontent := frame.content_length
    have htwelve : streamTitle.length = 12 := by decide
    have hstart : ((mp3.buildMetadata ++ List.replicate (mp3.buildMetadataLen -
        mp3.buildMetadata.length) 0).drop 1).take 12 = streamTitle := by
      have htake : frame.block.take (frame.block.length - 1) =
          frame.lenByte :: frame.content.take (frame.content.length - 1) := by
        rw [hlength, Frame.block, hcontent, show 1 + frame.lenByte.toNat * 16 - 1 =
          (16 * frame.lenByte.toNat - 1) + 1 by omega, List.take_succ_cons]
      rw [hbuild, htake, List.cons_append, List.drop_succ_cons, List.drop_zero,
        List.take_append_of_le_length (by rw [List.length_take]; omega), List.take_take,
        show min 12 (frame.content.length - 1) = 12 by omega, ← htwelve]
      exact (List.prefix_iff_eq_take.mp htitle).symm
    rw [if_pos hstart]
    exact ⟨_, rfl⟩
  · exact ⟨mp3.metadata, rfl⟩

/-- Behind a block the audio of the next frame begins. -/
theorem position_behind {before after : List (Frame interval)} {frame : Frame interval}
    (hframes : frames = before ++ frame :: after) (hoffset : mp3.offset = 0)
    (hlen : mp3.buildMetadataLen = 0) :
    Position frames mp3 (streamOf after) (audioOf before ++ frame.audio) := by
  have haudio : audioOf (before ++ [frame]) = audioOf before ++ frame.audio := by simp [audioOf]
  cases after with
  | nil =>
    rw [← haudio, ← hframes]
    exact .atEnd hoffset hlen
  | cons next after =>
    have h : Position frames mp3 (next.audio ++ next.block ++ streamOf after)
        (audioOf (before ++ [frame]) ++ []) :=
      .inAudio (before ++ [frame]) after next [] next.audio (by rw [hframes]; simp) rfl hoffset hlen
    rw [List.append_nil, haudio] at h
    rw [streamOf_cons]
    exact h

/-! ## The loop -/

/-- The bytes of the buffer that have not been looked at are `chunk`; those before them are kept. -/
structure Holds (filter : Filter) (chunk : Bytes) : Prop where
  src_eq : filter.src = filter.len
  chunk_eq : (filter.data.drop filter.src).take filter.bytes = chunk
  length_eq : chunk.length = filter.bytes
  src_le : filter.src ≤ filter.data.length

variable {filter : Filter} {chunk : Bytes}

def Filter.kept (filter : Filter) : Bytes := filter.data.take filter.len

theorem Holds.drop_src (h : Holds filter chunk) :
    filter.data.drop filter.src = chunk ++ filter.data.drop (filter.src + filter.bytes) := by
  rw [← h.chunk_eq, ← List.drop_drop, List.take_append_drop]

theorem Holds.take_kept (h : Holds filter chunk) {n : ℕ} (hle : n ≤ chunk.length) :
    filter.data.take (filter.len + n) = filter.kept ++ chunk.take n := by
  rw [List.take_add, Filter.kept, ← h.src_eq, h.drop_src, List.take_append_of_le_length hle]

/-- Bytes that are audio are passed over. -/
theorem Holds.pass {n : ℕ} (h : Holds filter chunk) (hle : n ≤ chunk.length) :
    Holds { filter with
      src := filter.src + n
      bytes := filter.bytes - n
      len := filter.len + n } (chunk.drop n) := by
  have hlength := h.length_eq
  have hsrc := h.src_le
  have hdata : chunk.length ≤ filter.data.length - filter.src := by
    rw [← h.chunk_eq, List.length_take, List.length_drop]
    omega
  refine ⟨by simp [h.src_eq], ?_, by simp [hlength], by simp only; omega⟩
  simp only
  rw [← List.drop_drop, ← h.chunk_eq, List.drop_take]

/-- Bytes that are metadata are overwritten by what follows them. -/
theorem Holds.overwrite (h : Holds filter chunk) (n : ℕ) :
    Holds { filter with
      bytes := filter.bytes - n
      data := memmove filter.data filter.src (filter.src + n) (filter.bytes - n) } (chunk.drop n) ∧
    (memmove filter.data filter.src (filter.src + n) (filter.bytes - n)).take filter.len =
      filter.kept := by
  have hsrc := h.src_le
  have hlength : (filter.data.take filter.src).length = filter.src := by
    rw [List.length_take]
    omega
  have hchunk : (filter.data.drop (filter.src + n)).take (filter.bytes - n) = chunk.drop n := by
    rw [← List.drop_drop, ← h.chunk_eq, List.drop_take]
  have hmoved : memmove filter.data filter.src (filter.src + n) (filter.bytes - n) =
      filter.data.take filter.src ++ (chunk.drop n ++
        filter.data.drop (filter.src + (filter.bytes - n))) := by
    rw [memmove, hchunk, List.append_assoc]
  have hbytes : (chunk.drop n).length = filter.bytes - n := by
    rw [List.length_drop, h.length_eq]
  refine ⟨⟨h.src_eq, ?_, hbytes, ?_⟩, ?_⟩
  · simp only [hmoved]
    rw [List.drop_left' hlength, List.take_left' hbytes]
  · simp only [hmoved, List.length_append, hlength]
    omega
  · rw [hmoved, ← h.src_eq, List.take_left' hlength, Filter.kept, h.src_eq]

/-- What the loop does with the rest of a buffer: it ends without an error, has kept the audio, and
stands behind the buffer. -/
def Filters (frames : List (Frame interval)) (rest out : Bytes) (mp3 : Mp3State)
    (result : Bool × Mp3State × Filter) : Prop :=
  result.1 = true ∧ Position frames result.2.1 rest (out ++ result.2.2.kept) ∧
    result.2.1.inlineMetadataInterval = mp3.inlineMetadataInterval ∧
    result.2.1.readData = mp3.readData

theorem chunk_split {first second chunk rest : Bytes} (h : first ++ second = chunk ++ rest)
    (hle : first.length ≤ chunk.length) :
    ∃ more, chunk = first ++ more ∧ second = more ++ rest := by
  obtain ⟨more, rfl⟩ := List.prefix_of_prefix_length_le ⟨second, h⟩ ⟨rest, rfl⟩ hle
  exact ⟨more, rfl, by simpa using h⟩

/-- At the start of a block its length is taken from its first byte. -/
theorem beginBlock_of_zero {frame : Frame interval} {second : Bytes} (hholds : Holds filter chunk)
    (hchunk : chunk ≠ []) (hlen : mp3.buildMetadataLen = 0)
    (hall : frame.block ++ second = chunk ++ rest) :
    (beginBlock mp3 filter).buildMetadataLen = frame.block.length ∧
      (beginBlock mp3 filter).buildMetadata = [] := by
  obtain ⟨first, more, rfl⟩ := List.exists_cons_of_ne_nil hchunk
  have hfirst : frame.lenByte = first := by
    rw [Frame.block, List.cons_append, List.cons_append] at hall
    exact (List.cons.inj hall).1
  have hhead : (filter.data.drop filter.src).headD 0 = frame.lenByte := by
    rw [hholds.drop_src, hfirst]
    rfl
  unfold beginBlock
  rw [if_pos hlen]
  exact ⟨by rw [frame.block_length, hhead], rfl⟩

/-- The loop does so from every position, with enough fuel. -/
def LoopSpec (frames : List (Frame interval)) (rest out : Bytes) (fuel : ℕ) : Prop :=
  ∀ (chunk : Bytes) (mp3 : Mp3State) (filter : Filter) (all audio : Bytes),
    chunk.length < fuel → Holds filter chunk → mp3.inlineMetadataInterval = interval →
    Position frames mp3 all audio → all = chunk ++ rest → audio = out ++ filter.kept →
    Filters frames rest out mp3 (filterLoop fuel mp3 filter)

theorem beginBlock_frame (mp3 : Mp3State) (filter : Filter) :
    (beginBlock mp3 filter).inlineMetadataInterval = mp3.inlineMetadataInterval ∧
      (beginBlock mp3 filter).readData = mp3.readData ∧
      (beginBlock mp3 filter).offset = mp3.offset := by
  unfold beginBlock
  split <;> exact ⟨rfl, rfl, rfl⟩

/-- With the rest of a block at the source, all of the block but its last byte is built. -/
theorem Holds.built {block seen unseen more : Bytes} (hholds : Holds filter chunk)
    (hblock : block = seen ++ unseen) (hunseen : unseen ≠ []) (hmore : chunk = unseen ++ more) :
    seen ++ (filter.data.drop filter.src).take (unseen.length - 1) =
      block.take (block.length - 1) := by
  have hpositive := List.length_pos_iff.mpr hunseen
  have hlength : block.length = seen.length + unseen.length := by rw [hblock, List.length_append]
  have hlast : block.length - 1 = seen.length + (unseen.length - 1) := by omega
  have hshort : (unseen ++ more).take (unseen.length - 1) = unseen.take (unseen.length - 1) :=
    List.take_append_of_le_length (by omega)
  rw [hholds.drop_src, hmore, List.take_append_of_le_length (by simp; omega), hshort, hlast, hblock,
    List.take_length_add_append]

/-- A turn inside a block, in terms of what the further turns do. -/
theorem LoopSpec.block {fuel : ℕ} {before after : List (Frame interval)} {frame : Frame interval}
    {seen unseen : Bytes}
    (ih : LoopSpec frames rest out fuel)
    (hfuel : chunk.length < fuel + 1) (hholds : Holds filter chunk) (hchunk : chunk ≠ [])
    (hinterval : mp3.inlineMetadataInterval = interval) (hoffset : mp3.offset = interval)
    (hframes : frames = before ++ frame :: after) (hblock : frame.block = seen ++ unseen)
    (hunseen : unseen ≠ [])
    (hbegin : (beginBlock mp3 filter).buildMetadataLen = frame.block.length ∧
      (beginBlock mp3 filter).buildMetadata = seen)
    (hall : unseen ++ streamOf after = chunk ++ rest)
    (hout : audioOf before ++ frame.audio = out ++ filter.kept) :
    Filters frames rest out mp3 (filterLoop (fuel + 1) mp3 filter) := by
  have hpos : filter.bytes ≠ 0 := by
    rw [← hholds.length_eq]
    exact (List.length_pos_iff.mpr hchunk).ne'
  have hzero : mp3.inlineMetadataInterval - mp3.offset = 0 := by omega
  have hsame := beginBlock_frame mp3 filter
  have hremaining : frame.block.length - seen.length = unseen.length := by
    rw [hblock, List.length_append]
    omega
  have hpositive := List.length_pos_iff.mpr hunseen
  unfold filterLoop
  rw [if_neg hpos]
  simp only [hzero, hbegin.1, hbegin.2, hremaining]
  rw [if_neg (by omega), if_neg (by simp)]
  have hlength := hholds.length_eq
  split
  · rename_i hshort
    obtain ⟨more, hmore, hrest⟩ := chunk_split hall.symm (by omega)
    refine ⟨rfl, ?_, hsame.1, hsame.2.1⟩
    rw [hrest, ← hout, hholds.chunk_eq]
    apply Position.inBlock before after frame (seen ++ chunk) more hframes
    · rw [hblock, hmore, List.append_assoc]
    · rintro rfl
      rw [hmore, List.append_nil] at hshort
      omega
    · exact hsame.2.2.trans hoffset
    · rfl
    · rfl
  · rename_i hwhole
    obtain ⟨more, hmore, hrest⟩ := chunk_split hall (by omega)
    have hbuilt := hholds.built hblock hunseen hmore
    let built : Mp3State := { beginBlock mp3 filter with
      buildMetadataLen := frame.block.length
      buildMetadata := seen ++ (filter.data.drop filter.src).take (unseen.length - 1) }
    have hlen : built.buildMetadataLen = frame.block.length := rfl
    obtain ⟨metadata, hassign⟩ := assignMetadata_block frame hlen hbuilt
    simp only [built] at hassign
    simp only [hassign]
    obtain ⟨hheld, hkept⟩ := hholds.overwrite unseen.length
    have hdrop : chunk.drop unseen.length = more := by rw [hmore, List.drop_left]
    rw [hdrop] at hheld
    let next : Mp3State := { built with metadata := metadata, offset := 0, buildMetadataLen := 0 }
    have hnext : next.inlineMetadataInterval = interval := hsame.1.trans hinterval
    obtain ⟨hok, hposition, hsameInterval, hsameRead⟩ :=
      ih more next _ _ _ (by rw [hmore, List.length_append] at hfuel; omega) hheld hnext
        (position_behind hframes rfl rfl) hrest (hout.trans (congrArg (out ++ ·) hkept.symm))
    exact ⟨hok, hposition, hsameInterval.trans hsame.1, hsameRead.trans hsame.2.1⟩

/-- A turn that ends inside the audio. -/
theorem filterLoop_audio_end {fuel : ℕ} {before after : List (Frame interval)}
    {frame : Frame interval}
    {seen unseen : Bytes} (hholds : Holds filter chunk) (hchunk : chunk ≠ [])
    (hblock : mp3.inlineMetadataInterval - mp3.offset = unseen.length)
    (hframes : frames = before ++ frame :: after) (haudio : frame.audio = seen ++ unseen)
    (hoffset : mp3.offset = seen.length) (hlen : mp3.buildMetadataLen = 0)
    (hle : chunk.length ≤ unseen.length)
    (hall : unseen ++ (frame.block ++ streamOf after) = chunk ++ rest)
    (hout : audioOf before ++ seen = out ++ filter.kept) :
    Filters frames rest out mp3 (filterLoop (fuel + 1) mp3 filter) := by
  have hlength := hholds.length_eq
  have hpos := List.length_pos_iff.mpr hchunk
  obtain ⟨more, hmore, hrest⟩ := chunk_split hall.symm hle
  rw [filterLoop, if_neg (by omega)]
  simp only [hblock]
  rw [if_pos (by omega)]
  refine ⟨rfl, ?_, rfl, rfl⟩
  have hkept : filter.data.take (filter.len + filter.bytes) = filter.kept ++ chunk := by
    rw [← hlength, hholds.take_kept le_rfl, List.take_length]
  rw [Filter.kept, hkept, ← List.append_assoc, ← hout, hrest, ← List.append_assoc,
    List.append_assoc (audioOf before)]
  apply Position.inAudio before after frame (seen ++ chunk) more hframes
  · rw [haudio, hmore, List.append_assoc]
  · simp only [List.length_append]
    omega
  · exact hlen

/-- A turn that passes over the rest of the audio. -/
theorem LoopSpec.audio {fuel : ℕ} {before after : List (Frame interval)} {frame : Frame interval}
    {seen unseen : Bytes} (ih : LoopSpec frames rest out fuel) (hfuel : chunk.length < fuel + 1)
    (hholds : Holds filter chunk) (hunseen : unseen ≠ [])
    (hinterval : mp3.inlineMetadataInterval = interval)
    (hblock : mp3.inlineMetadataInterval - mp3.offset = unseen.length)
    (hframes : frames = before ++ frame :: after) (haudio : frame.audio = seen ++ unseen)
    (hoffset : mp3.offset = seen.length) (hlen : mp3.buildMetadataLen = 0)
    (hlt : unseen.length < chunk.length)
    (hall : unseen ++ (frame.block ++ streamOf after) = chunk ++ rest)
    (hout : audioOf before ++ seen = out ++ filter.kept) :
    Filters frames rest out mp3 (filterLoop (fuel + 1) mp3 filter) := by
  have hlength := hholds.length_eq
  have hpos := List.length_pos_iff.mpr hunseen
  obtain ⟨more, hmore, hrest⟩ := chunk_split hall hlt.le
  have hpass := hholds.pass hlt.le
  have hkept := hholds.take_kept hlt.le
  rw [hmore, List.drop_left] at hpass
  rw [hmore, List.take_left] at hkept
  let next : Mp3State := { mp3 with offset := mp3.offset + unseen.length }
  have hnext : Position frames next ([] ++ frame.block ++ streamOf after)
      (audioOf before ++ (seen ++ unseen)) := by
    apply Position.inAudio before after frame (seen ++ unseen) [] hframes
    · rw [haudio, List.append_nil]
    · simp only [next, List.length_append]
      omega
    · exact hlen
  have haudio' : audioOf before ++ (seen ++ unseen) =
      out ++ filter.data.take (filter.len + unseen.length) := by
    rw [hkept, ← List.append_assoc, hout, List.append_assoc]
  rw [filterLoop, if_neg (by omega)]
  simp only [hblock]
  rw [if_neg (by omega), if_pos hpos.ne']
  exact ih more next _ _ _ (by rw [hmore, List.length_append] at hfuel; omega) hpass hinterval hnext
    (by simpa using hrest) haudio'

theorem filterLoop_spec (frames : List (Frame interval)) (rest out : Bytes) (fuel : ℕ) :
    LoopSpec frames rest out fuel := by
  induction fuel with
  | zero =>
    intro chunk mp3 filter all audio hfuel
    omega
  | succ fuel ih =>
    intro chunk mp3 filter all audio hfuel hholds hinterval hposition hall hout
    by_cases hempty : chunk = []
    · have hbytes : filter.bytes = 0 := by simp [← hholds.length_eq, hempty]
      rw [filterLoop, if_pos hbytes]
      rw [hall, hempty, List.nil_append, hout] at hposition
      exact ⟨rfl, hposition, rfl, rfl⟩
    · cases hposition with
      | inAudio before after frame seen unseen hframes haudio hoffset hlen =>
        have hblock : mp3.inlineMetadataInterval - mp3.offset = unseen.length := by
          have hframe := frame.audio_length
          rw [haudio, List.length_append] at hframe
          omega
        rw [List.append_assoc] at hall
        by_cases hle : chunk.length ≤ unseen.length
        · exact filterLoop_audio_end hholds hempty hblock hframes haudio hoffset hlen hle hall hout
        · by_cases hunseen : unseen = []
          · rw [hunseen, List.append_nil] at haudio
            rw [hunseen, List.nil_append] at hall
            rw [← haudio] at hout
            have hbegin := beginBlock_of_zero hholds hempty hlen hall
            apply ih.block hfuel hholds hempty hinterval _ hframes (List.nil_append _).symm
              (by simp [Frame.block]) hbegin hall hout
            rw [hoffset, ← haudio, frame.audio_length]
          · exact ih.audio hfuel hholds hunseen hinterval hblock hframes haudio hoffset hlen
              (not_le.mp hle) hall hout
      | inBlock before after frame seen unseen hframes hblock hunseen hoffset hlen hseen =>
        have hbegin : beginBlock mp3 filter = mp3 := by
          have hpos : mp3.buildMetadataLen ≠ 0 := by
            rw [hlen, frame.block_length]
            omega
          simp [beginBlock, hpos]
        exact ih.block hfuel hholds hempty hinterval hoffset hframes hblock hunseen
          ⟨by rw [hbegin, hlen], by rw [hbegin, hseen]⟩ hall hout
      | atEnd hoffset hlen =>
        have hnil := List.append_eq_nil_iff.mp hall.symm
        exact absurd hnil.1 hempty

/-! ## Reads -/

/-- What has been read and not been filtered yet. -/
def Source.pending (s : Source) : Bytes := s.mp3.readData.getD []

/-- A read changes nothing but the pending bytes, those still to come and the connection. -/
theorem completeRead_frame (s : Source) (read : ReadOutcome) :
    ∃ readData incoming conError, (completeRead s read).2 = { s with
      mp3 := { s.mp3 with readData := readData }
      incoming := incoming
      conError := conError } := by
  cases read with
  | fail error => exact ⟨_, _, _, rfl⟩
  | bytes limit =>
    simp only [completeRead]
    split <;> exact ⟨_, _, _, rfl⟩

/-- As long as the connection is there, a read moves bytes from those to come to the pending ones. It
reports a full buffer. -/
theorem completeRead_spec (s : Source) (read : ReadOutcome)
    (hpending : s.pending.length < refbufSize) (hcon : (completeRead s read).2.conError = false) :
    (completeRead s read).2.pending ++ (completeRead s read).2.incoming = s.pending ++ s.incoming ∧
      ((completeRead s read).1 = true → (completeRead s read).2.pending.length = refbufSize) ∧
      ((completeRead s read).1 = false → (completeRead s read).2.pending.length < refbufSize) := by
  cases read with
  | fail error =>
    simp only [completeRead, setReadData] at hcon ⊢
    refine ⟨?_, by simp, fun _ ↦ ?_⟩
    · simp [Source.pending, hcon]
    · simpa [Source.pending, hcon] using hpending
  | bytes limit =>
    have happend := readBytes_append s.incoming limit (refbufSize - s.pending.length)
    have hle := readBytes_length_le s.incoming limit (refbufSize - s.pending.length)
    simp only [completeRead]
    rw [← Source.pending]
    generalize readBytes s.incoming limit (refbufSize - s.pending.length) = result at happend hle ⊢
    obtain ⟨bytes, incoming⟩ := result
    simp only at happend hle ⊢
    have hstream : s.pending ++ bytes ++ incoming = s.pending ++ s.incoming := by
      rw [List.append_assoc, happend]
    split
    · rename_i hshort
      have hdata : (if s.pending ++ bytes = [] then none else some (s.pending ++ bytes)).getD [] =
          s.pending ++ bytes := by
        split <;> simp_all
      refine ⟨?_, by simp, fun _ ↦ ?_⟩
      · rw [Source.pending, setReadData, hdata]
        exact hstream
      · rw [Source.pending, setReadData, hdata]
        exact hshort
    · rename_i hfull
      refine ⟨hstream, fun _ ↦ ?_, by simp⟩
      change (s.pending ++ bytes).length = refbufSize
      rw [List.length_append] at hfull ⊢
      omega

/-- A read that fills the buffer has brought something, so the connection is still there. -/
theorem completeRead_full (s : Source) (read : ReadOutcome)
    (hpending : s.pending.length < refbufSize)
    (hfull : (completeRead s read).1 = true) : (completeRead s read).2.conError = s.conError := by
  cases read with
  | fail error => simp [completeRead] at hfull
  | bytes limit =>
    simp only [completeRead] at hfull ⊢
    rw [← Source.pending] at hfull ⊢
    generalize readBytes s.incoming limit (refbufSize - s.pending.length) = result at hfull ⊢
    obtain ⟨bytes, incoming⟩ := result
    simp only at hfull ⊢
    split at hfull
    · cases hfull
    · rename_i hlong
      rw [if_neg hlong]
      have hsome : bytes ≠ [] := by
        rintro rfl
        rw [List.append_nil] at hlong
        exact hlong hpending
      simp [setReadData, hsome]

/-! ## Runs -/

/-- The reader stands behind the buffers it has filtered; while the source runs, what it has not
looked at is pending or still to come. -/
structure SourceInv (frames : List (Frame interval)) (s : Source) : Prop where
  interval_eq : s.mp3.inlineMetadataInterval = interval
  formatError : s.formatError = false
  position : ∃ rest, Position frames s.mp3 rest s.returned.flatten ∧
    refbufSize * s.completed + rest.length = (streamOf frames).length ∧
    (s.running = true → rest = s.pending ++ s.incoming)
  running : s.running = true → s.conError = false ∧ s.pending.length < refbufSize
  alive : s.conError = false → s.running = true

variable {s : Source}

/-- A full buffer is filtered. -/
theorem SourceInv.filterBuffer (inv : SourceInv frames s) {readData : Bytes} {incoming : Bytes}
    (hfull : readData.length = refbufSize) (hall : readData ++ incoming = s.pending ++ s.incoming)
    (hrunning : s.running = true) :
    ∃ mp3 filter, filterLoop (readData.length + 1) (mp3SetTitle { s.mp3 with readData := none })
        ⟨readData, 0, readData.length, 0⟩ = (true, mp3, filter) ∧
      mp3.inlineMetadataInterval = interval ∧ mp3.readData = none ∧
      Position frames mp3 incoming (s.returned.flatten ++ filter.data.take filter.len) ∧
      refbufSize * (s.completed + 1) + incoming.length = (streamOf frames).length := by
  obtain ⟨rest, hposition, hlength, hrest⟩ := inv.position
  have hholds : Holds ⟨readData, 0, readData.length, 0⟩ readData :=
    ⟨rfl, by simp, rfl, Nat.zero_le _⟩
  let start : Mp3State := mp3SetTitle { s.mp3 with readData := none }
  have hstart : Position frames start rest s.returned.flatten := hposition.congr rfl rfl rfl
  have hfilters := filterLoop_spec frames incoming s.returned.flatten (readData.length + 1) readData
    start _ rest _ (Nat.lt_succ_self _) hholds inv.interval_eq hstart
    ((hrest hrunning).trans hall.symm) (List.append_nil _).symm
  rcases hresult : filterLoop (readData.length + 1) (mp3SetTitle { s.mp3 with readData := none })
    ⟨readData, 0, readData.length, 0⟩ with ⟨ok, mp3, filter⟩
  rw [hresult] at hfilters
  obtain ⟨rfl, hend, hinterval, hread⟩ := hfilters
  refine ⟨mp3, filter, rfl, hinterval.trans inv.interval_eq, hread, hend, ?_⟩
  rw [hrest hrunning, ← hall, List.length_append, hfull] at hlength
  rw [Nat.mul_succ]
  omega

theorem SourceInv.getBuffer (inv : SourceInv frames s) (read : ReadOutcome) :
    SourceInv frames (step s (.getBuffer read)) := by
  simp only [step]
  split
  · rename_i hrunning
    obtain ⟨hcon, hpending⟩ := inv.running hrunning
    obtain ⟨readData, incoming, conError, hframe⟩ := completeRead_frame s read
    have hspec := completeRead_spec s read hpending
    have hkept := completeRead_full s read hpending
    unfold mp3GetFilterMeta
    rcases hresult : completeRead s read with ⟨full, s'⟩
    rw [hresult] at hframe hspec hkept
    simp only at hframe hspec hkept
    subst hframe
    cases full with
    | false =>
      obtain ⟨rest, hposition, hlength, hrest⟩ := inv.position
      refine ⟨inv.interval_eq, inv.formatError,
        ⟨rest, hposition.congr rfl rfl rfl, hlength, ?_⟩, ?_, ?_⟩
      · intro h
        simp only [hrunning, Bool.true_and, Bool.not_eq_true'] at h
        rw [hrest hrunning]
        exact (hspec h).1.symm
      · intro h
        simp only [hrunning, Bool.true_and, Bool.not_eq_true'] at h
        exact ⟨h, (hspec h).2.2 rfl⟩
      · intro h
        have hfalse : conError = false := h
        simp [hrunning, hfalse]
    | true =>
      have hconError : conError = false := (hkept rfl).trans hcon
      obtain ⟨hall, hfull, -⟩ := hspec hconError
      obtain ⟨mp3, filter, hloop, hinterval, hread, hend, hlength⟩ :=
        inv.filterBuffer (hfull rfl) hall hrunning
      simp only [Source.pending] at hloop
      simp only [hloop]
      split
      · rename_i hnothing
        rw [hnothing, List.take_zero, List.append_nil] at hend
        refine ⟨hinterval, inv.formatError, ⟨incoming, hend, hlength, fun _ ↦ ?_⟩,
          fun _ ↦ ⟨hconError, ?_⟩, fun _ ↦ ?_⟩
        · simp [Source.pending, hread]
        · simp [Source.pending, hread, refbufSize]
        · simp [hrunning, hconError]
      · refine ⟨hinterval, inv.formatError, ⟨incoming, ?_, hlength, fun _ ↦ ?_⟩,
          fun _ ↦ ⟨hconError, ?_⟩, fun _ ↦ ?_⟩
        · simpa using hend
        · simp [Source.pending, hread]
        · simp [Source.pending, hread, refbufSize]
        · simp [hrunning, hconError]
  · exact inv

theorem step_sourceInv (frames : List (Frame interval)) (s : Source) (event : Event)
    (inv : SourceInv frames s) : SourceInv frames (step s event) := by
  cases event with
  | getBuffer read => exact inv.getBuffer read
  | setTitle block =>
    obtain ⟨rest, hposition, hlength, hrest⟩ := inv.position
    exact ⟨inv.interval_eq, inv.formatError, ⟨rest, hposition.congr rfl rfl rfl, hlength, hrest⟩,
      inv.running, inv.alive⟩

theorem startSource_sourceInv (frames : List (Frame interval)) :
    SourceInv frames (startSource interval (streamOf frames)) := by
  refine ⟨rfl, rfl, ⟨streamOf frames, ?_, by simp [startSource], fun _ ↦ rfl⟩, fun _ ↦ ⟨rfl, ?_⟩,
    fun _ ↦ rfl⟩
  · cases frames with
    | nil => exact .atEnd rfl rfl
    | cons frame frames =>
      rw [streamOf_cons]
      exact .inAudio [] frames frame [] frame.audio rfl rfl rfl rfl
  · simp [Source.pending, startSource, refbufSize]

/-- The data of the buffers returned are the audio bytes among the bytes that filled these buffers;
all others that have arrived are waiting in a buffer that is not full yet. -/
theorem icy_demux_keeps_audio (frames : List (Frame interval)) (events : List Event) :
    let s := run step (startSource interval (streamOf frames)) events
    s.formatError = false ∧
    s.returned.flatten = audioWithin frames (refbufSize * s.completed) ∧
    s.returned.flatten <+: audioOf frames ∧
    (s.conError = false → s.pending.length < refbufSize ∧
      refbufSize * s.completed + s.pending.length + s.incoming.length =
        (streamOf frames).length) := by
  intro s
  have inv : SourceInv frames s :=
    run_invariant step (SourceInv frames) (step_sourceInv frames) events
      (startSource_sourceInv frames)
  obtain ⟨rest, hposition, hlength, hrest⟩ := inv.position
  obtain ⟨hle, haudio⟩ := hposition.spec
  have hcompleted : (streamOf frames).length - rest.length = refbufSize * s.completed := by omega
  rw [hcompleted] at haudio
  refine ⟨inv.formatError, haudio, ?_, fun hcon ↦ ?_⟩
  · rw [haudio]
    exact audioWithin_prefix frames _
  · have hrunning := inv.alive hcon
    rw [hrest hrunning, List.length_append] at hlength
    exact ⟨(inv.running hrunning).2, by omega⟩

example :
    (run step (startSource 1398 (List.replicate 1398 7 ++ [0] ++ List.replicate 1398 8 ++ [0]))
    [.getBuffer (.bytes 900), .getBuffer (.fail false), .getBuffer (.bytes 900)]).returned =
      [List.replicate 1398 7 ++ [8]] := by decide +kernel

end Icecast.Format.Mp3Reader
