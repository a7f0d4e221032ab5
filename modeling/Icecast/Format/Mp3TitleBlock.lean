import Icecast.Format.Mp3Metadata

/-!
# The block that `mp3_set_title` makes

The length of the text is worked out from its parts and rounded up to a number of 16 bytes, and the
parts are then printed one behind the other. A URL that came inline is printed from its place in the
block it came with: up to the end of the text there, with another quote and semicolon behind it. What
stands behind the URL is cut off only where the block ends, so the block is right if nothing is left
of the 16 bytes.
-/

namespace Icecast.Format.Mp3Metadata

open Comments Lib Lib.CString
open Mp3Reader (cString)

/-! ## The text -/

section Title

variable (lib : VorbisComments)

def artistOf (s : Source) : Option Bytes := lib.query s.vc mp3MetadataArtist

def titleOf (s : Source) : Option Bytes := lib.query s.vc mp3MetadataTitle

/-- Artist and title, the title alone, or nothing. -/
def shownName (s : Source) : Bytes :=
  match artistOf lib s, titleOf lib s with
  | some artist, some title => artist ++ bytes " - " ++ title
  | none, some title => title
  | _, none => []

def streamTitleText (s : Source) : Bytes := bytes "StreamTitle='" ++ shownName lib s ++ bytes "';"

def streamUrlText (url : Bytes) : Bytes := bytes "StreamUrl='" ++ url ++ bytes "';"

/-- The URL up to its closing quote and semicolon, if it came inline, and the tag otherwise. -/
def knownUrl (s : Source) : Option Bytes :=
  match inlineText s with
  | some inline =>
    (strstr (bytes "';") (inline.drop 11)).map fun place ↦ (inline.drop 11).take place
  | none => lib.query s.vc mp3MetadataUrl

/-- What is meant to be in the block. -/
def titleText (s : Source) : Bytes :=
  streamTitleText lib s ++ (knownUrl lib s).elim [] streamUrlText

/-- The block of `mp3_set_title`, if it makes one. -/
def producedBlock (s : Source) : Option Bytes :=
  if maxMetaLen < titleLen lib s then none else some (titleBlock lib s)

theorem mp3SetTitle_eq (s : Source) :
    mp3SetTitle lib s = (producedBlock lib s).elim s fun block ↦ replaceMetadata block s := by
  unfold mp3SetTitle producedBlock
  split <;> rfl

/-- The length byte, the text, and null bytes up to the length that was announced. -/
def IsBlock (text block : Bytes) : Prop :=
  ∃ lenByte : ℕ, 1 ≤ lenByte ∧ lenByte ≤ 255 ∧ text.length ≤ 16 * lenByte ∧
    block = UInt8.ofNat lenByte :: text ++ List.replicate (16 * lenByte - text.length) 0

/-- The length of an artist that is counted and not shown, as there is no title. -/
def unshown (s : Source) : ℕ :=
  if (titleOf lib s).isSome then 0 else (artistOf lib s).elim 0 List.length

/-- Without a URL from the stream there is room for the text, a null byte and an artist that is not
shown. With one the text fills the block up to a single null byte; `place` is where its closing
quote and semicolon are, and `found` where they are looked for from its start. -/
def TextFits (s : Source) : Prop :=
  match inlineText s with
  | none => (titleText lib s).length + unshown lib s < maxMetaLen
  | some inline =>
    match strstr (bytes "';") inline, strstr (bytes "';") (inline.drop 11) with
    | none, _ => (titleText lib s).length + unshown lib s < maxMetaLen
    | some _, none => False
    | some found, some place =>
      16 ∣ (titleText lib s).length + 1 ∧ unshown lib s + found ≤ place + 11 ∧
        place + 11 < unshown lib s + found + 16

/-! ## What is written -/

/-- The URL, printed into `room` bytes. -/
def writtenUrl (s : Source) (size room : ℕ) : Bytes :=
  match inlineText s, lib.query s.vc mp3MetadataUrl with
  | some inline, _ =>
    if (strstr (bytes "';") inline).elim size (· + 2) < room then
      snprintf room (bytes "StreamUrl='" ++ inline.drop 11 ++ bytes "';")
    else []
  | none, some url => snprintf room (streamUrlText url)
  | none, none => []

def lenByteOf (s : Source) : ℕ := (titleLen lib s - 1) / 16 + 1

/-- How many bytes are counted for the URL. -/
def countedUrl (s : Source) : ℕ :=
  match inlineText s with
  | some text => (strstr (bytes "';") text).elim 0 (· + 2)
  | none => (lib.query s.vc mp3MetadataUrl).elim 0 fun url ↦ url.length + 11 + 2

theorem streamTitleText_length (s : Source) :
    (streamTitleText lib s).length = 15 + (shownName lib s).length := by
  have hopen : (bytes "StreamTitle='").length = 13 := by decide
  have hclose : (bytes "';").length = 2 := by decide
  rw [streamTitleText, List.length_append, List.length_append, hopen, hclose]
  omega

theorem streamUrlText_length (url : Bytes) : (streamUrlText url).length = url.length + 13 := by
  have hopen : (bytes "StreamUrl='").length = 11 := by decide
  have hclose : (bytes "';").length = 2 := by decide
  rw [streamUrlText, List.length_append, List.length_append, hopen, hclose]
  omega

theorem titleLen_eq (s : Source) :
    titleLen lib s = (streamTitleText lib s).length + 1 + unshown lib s + countedUrl lib s := by
  have hjoin : (bytes " - ").length = 3 := by decide
  have hparts : titleLen lib s = 16 + (artistOf lib s).elim 0 List.length +
      (titleOf lib s).elim 0 List.length +
      (if (artistOf lib s).isSome ∧ (titleOf lib s).isSome then 3 else 0) + countedUrl lib s := rfl
  rw [hparts, streamTitleText_length]
  unfold shownName unshown
  cases artistOf lib s <;> cases titleOf lib s
  · simp
  · simp
    omega
  · simp
  · simp [hjoin]
    omega

theorem titleBlock_eq (s : Source) :
    titleBlock lib s = UInt8.ofNat (lenByteOf lib s) :: (streamTitleText lib s ++
      (writtenUrl lib s (lenByteOf lib s * 16 + 1)
          (16 * lenByteOf lib s - (streamTitleText lib s).length) ++
        List.replicate (16 * lenByteOf lib s - (streamTitleText lib s).length -
          (writtenUrl lib s (lenByteOf lib s * 16 + 1)
            (16 * lenByteOf lib s - (streamTitleText lib s).length)).length) 0)) := by
  have hlen := titleLen_eq lib s
  have hroom : (streamTitleText lib s).length + 1 ≤ 16 * lenByteOf lib s := by
    unfold lenByteOf
    omega
  let text : Bytes := UInt8.ofNat (lenByteOf lib s) :: streamTitleText lib s
  have hsize : lenByteOf lib s * 16 + 1 - text.length =
      16 * lenByteOf lib s - (streamTitleText lib s).length := by
    simp only [text, List.length_cons]
    omega
  let data : Bytes := snprintf (lenByteOf lib s * 16 + 1) text ++
    writtenUrl lib s (lenByteOf lib s * 16 + 1) (lenByteOf lib s * 16 + 1 - text.length)
  have hblock : titleBlock lib s = data ++ List.replicate (lenByteOf lib s * 16 + 1 - data.length) 0 := rfl
  have hprinted : snprintf (lenByteOf lib s * 16 + 1) text = text := by
    rw [snprintf, List.take_of_length_le]
    simp only [text, List.length_cons]
    omega
  rw [hblock]
  simp only [data]
  rw [hprinted, hsize, List.length_append, ← Nat.sub_sub, hsize]
  simp only [text, List.cons_append, List.append_assoc]

/-! ## When the block is right -/

theorem not_mem_cString (text : Bytes) : (0 : UInt8) ∉ cString text := by
  intro hmem
  have hall := List.all_takeWhile (p := fun byte : UInt8 ↦ decide (byte ≠ 0)) (l := text)
  simpa using List.all_eq_true.mp hall 0 hmem

/-- Text without null bytes is determined by the text with null bytes behind it. -/
theorem eq_of_padded {first second : Bytes} (hfirst : (0 : UInt8) ∉ first)
    (hsecond : (0 : UInt8) ∉ second) {m n : ℕ}
    (h : first ++ List.replicate m 0 = second ++ List.replicate n 0) : first = second := by
  have htext (text : Bytes) (htext : (0 : UInt8) ∉ text) (k : ℕ) :
      (text ++ List.replicate k 0).takeWhile (· ≠ 0) = text := by
    rw [takeWhile_ne_append htext]
    cases k with
    | zero => simp
    | succ k => simp [List.replicate_succ]
  rw [← htext first hfirst m, h, htext second hsecond n]

variable {lib} {s : Source} {url written : Bytes}

/-- A block in which something is written behind the title. -/
def blockWith (lib : VorbisComments) (s : Source) (written : Bytes) : Bytes :=
  UInt8.ofNat (lenByteOf lib s) :: (streamTitleText lib s ++ (written ++
    List.replicate (16 * lenByteOf lib s - (streamTitleText lib s).length - written.length) 0))

theorem isBlock_blockWith (hlow : titleLen lib s ≤ maxMetaLen)
    (hroom : (streamTitleText lib s).length + url.length ≤ 16 * lenByteOf lib s) :
    IsBlock (streamTitleText lib s ++ url) (blockWith lib s url) := by
  refine ⟨lenByteOf lib s, ?_, ?_, ?_, ?_⟩
  · unfold lenByteOf
    omega
  · unfold lenByteOf maxMetaLen at *
    omega
  · rw [List.length_append]
    exact hroom
  · rw [blockWith, List.length_append, ← Nat.sub_sub]
    simp only [List.cons_append, List.append_assoc]

theorem eq_of_isBlock (hwritten : (0 : UInt8) ∉ written) (hurl : (0 : UInt8) ∉ url)
    (h : IsBlock (streamTitleText lib s ++ url) (blockWith lib s written)) : written = url := by
  obtain ⟨lenByte, -, -, -, hblock⟩ := h
  rw [blockWith, List.cons_append, List.append_assoc] at hblock
  have hbody := List.append_cancel_left (List.cons.inj hblock).2
  exact eq_of_padded hwritten hurl hbody

theorem producedBlock_isBlock_iff :
    (∃ block, producedBlock lib s = some block ∧ IsBlock (titleText lib s) block) ↔
      titleLen lib s ≤ maxMetaLen ∧ IsBlock (titleText lib s) (blockWith lib s
        (writtenUrl lib s (lenByteOf lib s * 16 + 1)
          (16 * lenByteOf lib s - (streamTitleText lib s).length))) := by
  have hblock : titleBlock lib s = blockWith lib s (writtenUrl lib s (lenByteOf lib s * 16 + 1)
      (16 * lenByteOf lib s - (streamTitleText lib s).length)) := titleBlock_eq lib s
  unfold producedBlock
  rw [hblock]
  by_cases hlong : maxMetaLen < titleLen lib s
  · rw [if_pos hlong]
    constructor
    · rintro ⟨block, hnone, -⟩
      cases hnone
    · intro h
      omega
  · rw [if_neg hlong]
    constructor
    · rintro ⟨block, hsome, his⟩
      rw [Option.some.inj hsome]
      exact ⟨by omega, his⟩
    · rintro ⟨-, his⟩
      exact ⟨_, rfl, his⟩

/-- The URL is written as it is meant, and counted for what it is. -/
theorem producedBlock_of_same
    (hwritten : writtenUrl lib s (lenByteOf lib s * 16 + 1)
      (16 * lenByteOf lib s - (streamTitleText lib s).length) = (knownUrl lib s).elim [] streamUrlText)
    (hcounted : countedUrl lib s = ((knownUrl lib s).elim [] streamUrlText).length) :
    (∃ block, producedBlock lib s = some block ∧ IsBlock (titleText lib s) block) ↔
      (titleText lib s).length + unshown lib s < maxMetaLen := by
  have hlen := titleLen_eq lib s
  have htext : (titleText lib s).length = (streamTitleText lib s).length + countedUrl lib s := by
    rw [titleText, List.length_append, hcounted]
  rw [producedBlock_isBlock_iff, hwritten]
  constructor
  · rintro ⟨hlow, -⟩
    omega
  · intro hfits
    have hlow : titleLen lib s ≤ maxMetaLen := by omega
    refine ⟨hlow, isBlock_blockWith hlow ?_⟩
    unfold lenByteOf
    omega

section Inline

variable {inline : Bytes} {found place : ℕ}

theorem inline_eq (hstart : bytes "StreamUrl='" <+: inline) :
    bytes "StreamUrl='" ++ inline.drop 11 = inline := by
  have hopen : (bytes "StreamUrl='").length = 11 := by decide
  rw [← hopen]
  exact (List.prefix_append_drop hstart).symm

variable (lib) in
theorem countedUrl_inline (hinline : inlineText s = some inline)
    (hfound : strstr (bytes "';") inline = some found) : countedUrl lib s = found + 2 := by
  rw [countedUrl, hinline]
  simp only [hfound]
  rfl

/-- The bytes that are left for the URL, without the null byte. -/
def urlRoom (lib : VorbisComments) (s : Source) : ℕ :=
  16 * lenByteOf lib s - (streamTitleText lib s).length - 1

variable (lib) in
theorem le_urlRoom (hinline : inlineText s = some inline)
    (hfound : strstr (bytes "';") inline = some found) : found + 2 ≤ urlRoom lib s := by
  have hlen := titleLen_eq lib s
  have hcounted := countedUrl_inline lib hinline hfound
  unfold urlRoom lenByteOf
  omega

/-- An inline URL is printed with all that stands behind it, as far as there is room. -/
theorem writtenUrl_inline (hinline : inlineText s = some inline)
    (hstart : bytes "StreamUrl='" <+: inline) (hfound : strstr (bytes "';") inline = some found) :
    writtenUrl lib s (lenByteOf lib s * 16 + 1) (16 * lenByteOf lib s - (streamTitleText lib s).length) =
      (inline ++ bytes "';").take (urlRoom lib s) := by
  have hroom := le_urlRoom lib hinline hfound
  rw [writtenUrl, hinline]
  simp only [hfound, Option.elim_some]
  rw [if_pos (by unfold urlRoom at hroom; omega), inline_eq hstart, snprintf, urlRoom]

theorem streamUrlText_eq_take (hstart : bytes "StreamUrl='" <+: inline)
    (hplace : strstr (bytes "';") (inline.drop 11) = some place) :
    streamUrlText ((inline.drop 11).take place) = inline.take (place + 13) ∧
      place + 13 ≤ inline.length := by
  have hopen : (bytes "StreamUrl='").length = 11 := by decide
  have hclose : (bytes "';").length = 2 := by decide
  have hquote := List.prefix_iff_eq_take.mp (prefix_of_strstr hplace)
  have hend := add_length_le_of_strstr hplace (by decide)
  have hlong : 11 ≤ inline.length := by
    rw [← hopen]
    exact hstart.length_le
  rw [hclose] at hquote hend
  rw [List.length_drop] at hend
  refine ⟨?_, by omega⟩
  calc
    streamUrlText ((inline.drop 11).take place) =
        bytes "StreamUrl='" ++ (inline.drop 11).take (place + 2) := by
      rw [streamUrlText, List.append_assoc, List.take_add, ← hquote]
    _ = inline.take (place + 13) := by
      conv_rhs => rw [← inline_eq hstart]
      rw [show place + 13 = (bytes "StreamUrl='").length + (place + 2) by omega,
        List.take_length_add_append]

theorem not_mem_inline (hinline : inlineText s = some inline) : (0 : UInt8) ∉ inline := by
  obtain ⟨pointer, -, rfl⟩ := Option.map_eq_some_iff.mp hinline
  exact not_mem_cString _

theorem not_mem_written (hinline : inlineText s = some inline) (room : ℕ) :
    (0 : UInt8) ∉ (inline ++ bytes "';").take room := by
  have hnull : (0 : UInt8) ∉ inline ++ bytes "';" := by
    rw [List.mem_append, not_or]
    exact ⟨not_mem_inline hinline, by decide⟩
  exact fun hmem ↦ hnull (List.mem_of_mem_take hmem)

theorem length_written (inline : Bytes) (room : ℕ) :
    ((inline ++ bytes "';").take room).length = min room (inline.length + 2) := by
  have hclose : (bytes "';").length = 2 := by decide
  rw [List.length_take, List.length_append, hclose]

/-- Only as much as there is in the URL may be written. -/
theorem written_eq_iff {room : ℕ} (hend : place + 13 ≤ inline.length) :
    (inline ++ bytes "';").take room = inline.take (place + 13) ↔ room = place + 13 := by
  constructor
  · intro hsame
    have hlengths := congrArg List.length hsame
    rw [length_written, List.length_take, Nat.min_eq_left hend] at hlengths
    omega
  · intro hequal
    rw [hequal, List.take_append_of_le_length hend]

/-- Something is written although no URL is known. -/
theorem not_isBlock_of_unknown (hinline : inlineText s = some inline)
    (hfound : strstr (bytes "';") inline = some found)
    (hplace : strstr (bytes "';") (inline.drop 11) = none) :
    ¬ IsBlock (titleText lib s) (blockWith lib s ((inline ++ bytes "';").take (urlRoom lib s))) := by
  intro hblock
  have hroom := le_urlRoom lib hinline hfound
  have hknown : knownUrl lib s = none := by simp only [knownUrl, hinline, hplace, Option.map_none]
  rw [titleText, hknown] at hblock
  have hnothing := congrArg List.length (eq_of_isBlock (not_mem_written hinline _) (by simp) hblock)
  rw [length_written] at hnothing
  simp only [Option.elim_none, List.length_nil] at hnothing
  omega

theorem titleText_inline (hinline : inlineText s = some inline)
    (hstart : bytes "StreamUrl='" <+: inline)
    (hplace : strstr (bytes "';") (inline.drop 11) = some place) :
    titleText lib s = streamTitleText lib s ++ inline.take (place + 13) := by
  have hknown : knownUrl lib s = some ((inline.drop 11).take place) := by
    simp only [knownUrl, hinline, hplace, Option.map_some]
  rw [titleText, hknown, Option.elim_some, (streamUrlText_eq_take hstart hplace).1]

/-- The URL that is known has to fill the room. -/
theorem isBlock_of_known_iff (hinline : inlineText s = some inline)
    (hstart : bytes "StreamUrl='" <+: inline)
    (hplace : strstr (bytes "';") (inline.drop 11) = some place) (hlow : titleLen lib s ≤ maxMetaLen) :
    IsBlock (titleText lib s) (blockWith lib s ((inline ++ bytes "';").take (urlRoom lib s))) ↔
      urlRoom lib s = place + 13 := by
  have hend := (streamUrlText_eq_take hstart hplace).2
  rw [titleText_inline hinline hstart hplace, ← written_eq_iff hend]
  constructor
  · exact eq_of_isBlock (not_mem_written hinline _)
      fun hmem ↦ not_mem_inline hinline (List.mem_of_mem_take hmem)
  · intro hwritten
    rw [hwritten]
    apply isBlock_blockWith hlow
    have hlen := titleLen_eq lib s
    have hfull := (written_eq_iff hend).mp hwritten
    rw [List.length_take, Nat.min_eq_left hend, ← hfull]
    unfold urlRoom lenByteOf
    omega

/-- With a URL from the stream that has a closing quote and semicolon somewhere. -/
theorem producedBlock_inline_iff (hinline : inlineText s = some inline)
    (hstart : bytes "StreamUrl='" <+: inline) (hfound : strstr (bytes "';") inline = some found)
    (hshort : (titleText lib s).length ≤ maxMetaLen) :
    (∃ block, producedBlock lib s = some block ∧ IsBlock (titleText lib s) block) ↔ TextFits lib s := by
  rw [producedBlock_isBlock_iff, writtenUrl_inline hinline hstart hfound]
  unfold TextFits
  simp only [hinline, hfound]
  cases hplace : strstr (bytes "';") (inline.drop 11) with
  | none => exact iff_of_false (fun h ↦ not_isBlock_of_unknown hinline hfound hplace h.2) not_false
  | some place =>
    have hlen := titleLen_eq lib s
    have hcounted := countedUrl_inline lib hinline hfound
    have hroom := le_urlRoom lib hinline hfound
    have hend := (streamUrlText_eq_take hstart hplace).2
    have htextLength : (titleText lib s).length = (streamTitleText lib s).length + (place + 13) := by
      rw [titleText_inline hinline hstart hplace, List.length_append, List.length_take,
        Nat.min_eq_left hend]
    constructor
    · rintro ⟨hlow, hblock⟩
      have hfull := (isBlock_of_known_iff hinline hstart hplace hlow).mp hblock
      have hsize : 16 * lenByteOf lib s = (titleText lib s).length + 1 := by
        unfold urlRoom at hfull hroom
        omega
      refine ⟨⟨lenByteOf lib s, hsize.symm⟩, ?_, ?_⟩
      · unfold lenByteOf at hsize
        omega
      · unfold lenByteOf at hsize
        omega
    · rintro ⟨⟨size, hsize⟩, hle, hlt⟩
      have hlow : titleLen lib s ≤ maxMetaLen := by
        unfold maxMetaLen at hshort ⊢
        omega
      refine ⟨hlow, (isBlock_of_known_iff hinline hstart hplace hlow).mpr ?_⟩
      unfold urlRoom lenByteOf
      omega

end Inline

end Title

/-- For a text of at most 4080 bytes, `mp3_set_title` makes the block that is meant if and only if
the text fits in this way. -/
theorem title_block_iff_textFits (lib : VorbisComments) (s : Source)
    (hstart : ∀ inline, inlineText s = some inline → bytes "StreamUrl='" <+: inline)
    (hshort : (titleText lib s).length ≤ 4080) :
    (∃ block, producedBlock lib s = some block ∧ IsBlock (titleText lib s) block) ↔ TextFits lib s := by
  cases hinline : inlineText s with
  | none =>
    have hfits : TextFits lib s ↔ (titleText lib s).length + unshown lib s < maxMetaLen := by
      simp only [TextFits, hinline]
    have hlen := titleLen_eq lib s
    rw [hfits]
    apply producedBlock_of_same
    · cases hurl : lib.query s.vc mp3MetadataUrl with
      | none => simp only [writtenUrl, knownUrl, hinline, hurl, Option.elim_none]
      | some url =>
        simp only [writtenUrl, knownUrl, hinline, hurl, Option.elim_some, snprintf]
        apply List.take_of_length_le
        have hcounted : countedUrl lib s = (streamUrlText url).length := by
          simp [countedUrl, hinline, hurl, streamUrlText_length]
        unfold lenByteOf
        omega
    · cases hurl : lib.query s.vc mp3MetadataUrl with
      | none => simp [countedUrl, knownUrl, hinline, hurl]
      | some url =>
        simp [countedUrl, knownUrl, hinline, hurl, streamUrlText_length]
  | some inline =>
    cases hfound : strstr (bytes "';") inline with
    | some found => exact producedBlock_inline_iff hinline (hstart inline hinline) hfound hshort
    | none =>
      have hfits : TextFits lib s ↔ (titleText lib s).length + unshown lib s < maxMetaLen := by
        simp only [TextFits, hinline, hfound]
      have hplace : strstr (bytes "';") (inline.drop 11) = none := by
        rw [strstr_eq_none_iff] at hfound ⊢
        exact fun hinside ↦ hfound (hinside.trans (List.drop_suffix 11 inline).isInfix)
      have hknown : knownUrl lib s = none := by simp only [knownUrl, hinline, hplace, Option.map_none]
      rw [hfits]
      apply producedBlock_of_same
      · simp only [writtenUrl, hinline, hfound, hknown, Option.elim_none]
        apply if_neg
        omega
      · simp [countedUrl, hinline, hfound, hknown]

/-- A source with a title, and with a URL in the block that came with the stream last. -/
def sourceWith (title url : String) : Source :=
  let start := startSource 8192 []
  { start with
    vc := [mp3MetadataTitle ++ bytes "=" ++ bytes title]
    blocks := Heap.empty.alloc ⟨3 :: bytes "StreamTitle='x';" ++ streamUrlText (bytes url) ++ [0], 1⟩
    mp3 := { start.mp3 with inlineUrl := some ⟨0, 17⟩ } }

/-- A title of one letter leaves ten bytes behind the URL, and two of them are written. -/
theorem not_title_block_of_slack :
    let s := sourceWith "a" "http://x"
    titleText listComments s = bytes "StreamTitle='a';StreamUrl='http://x';" ∧
      producedBlock listComments s = some (3 :: bytes "StreamTitle='a';StreamUrl='http://x';';" ++
        List.replicate 9 0) ∧
      ¬ IsBlock (titleText listComments s) (3 :: bytes "StreamTitle='a';StreamUrl='http://x';';" ++
        List.replicate 9 0) := by
  refine ⟨by decide +kernel, by decide +kernel, ?_⟩
  rintro ⟨lenByte, -, -, -, hblock⟩
  have htext : titleText listComments (sourceWith "a" "http://x") =
      bytes "StreamTitle='a';StreamUrl='http://x';" := by decide +kernel
  rw [htext] at hblock
  have hsame := eq_of_padded (by decide +kernel) (by decide +kernel) (List.cons.inj hblock).2
  exact absurd hsame (by decide +kernel)

/-- A title of eleven letters leaves none. -/
theorem title_block_without_slack :
    let s := sourceWith "a long name" "http://x"
    ∃ block, producedBlock listComments s = some block ∧ IsBlock (titleText listComments s) block := by
  have hinline : inlineText (sourceWith "a long name" "http://x") =
      some (bytes "StreamUrl='http://x';") := by decide +kernel
  have hfound : strstr (bytes "';") (bytes "StreamUrl='http://x';") = some 19 := by decide +kernel
  have hplace : strstr (bytes "';") ((bytes "StreamUrl='http://x';").drop 11) = some 8 := by
    decide +kernel
  apply (title_block_iff_textFits listComments (sourceWith "a long name" "http://x") (by decide +kernel)
    (by decide +kernel)).mpr
  simp only [TextFits, hinline, hfound, hplace]
  decide +kernel

end Icecast.Format.Mp3Metadata
