import Icecast.Format.EbmlProgress

/-!
# The elements of an EBML stream

A stream is a sequence of elements, whichever way it is split into reads. Segment, Tracks, TrackEntry and
Cluster elements, and those of unknown size, are followed by what they contain; other elements are skipped
as a whole. What the elements in front of some place say about the video track and about the first block of
it in a Cluster is defined here without the parser.
-/

namespace Icecast.Format.Ebml

/-- What an element says. A number is `none` where it stands for "unknown", and the bit for a keyframe is
`none` where the stream ends in front of it. -/
inductive ElementKind where
  | cluster
  | trackEntry
  | trackNumber (number : Option ℕ)
  | trackType (isVideo : Bool)
  | simpleBlock (track : Option ℕ) (keyframe : Option Bool)
  | other
  deriving DecidableEq

structure Element where
  offset : ℕ
  kind : ElementKind
  deriving DecidableEq

def known (value : ℕ) : Option ℕ := if value = ebmlUnknown then none else some value

/-- A SimpleBlock begins with the number of its track, a timecode of two bytes, and its flags. -/
def blockTrack (payload : Bytes) : Option ℕ :=
  match ebmlParseVarInt payload with
  | .done _ track => known track
  | _ => none

def blockKeyframe (payload : Bytes) : Option Bool :=
  match ebmlParseVarInt payload with
  | .done length _ => (payload[length + 2]?).map fun flags ↦ flags &&& 0x80 ≠ 0
  | _ => none

def elementKind (input : Bytes) (tagLength payloadLength : ℕ) : Option ElementKind :=
  let payload := input.drop tagLength
  let magic := input.take commonMagicLen
  if magic = simpleBlockMagic then some (.simpleBlock (blockTrack payload) (blockKeyframe payload))
  else if magic = trackEntryMagic then some .trackEntry
  else if magic = trackNumberMagic then
    match ebmlParseSizedInt payload payloadLength false with
    | .done _ value => some (.trackNumber (known value))
    | _ => none
  else if magic = trackTypeMagic then
    match ebmlParseSizedInt payload payloadLength false with
    | .done _ value => some (.trackType (value &&& 0x01 ≠ 0))
    | _ => none
  else some .other

/-- The element at the start of `input`, and the distance to the next one. -/
def elementAt (input : Bytes) : Option (ElementKind × ℕ) :=
  match ebmlParseTag input with
  | .done tagLength payloadLength =>
    let magic := input.take uncommonMagicLen
    if uncommonMagicLen < tagLength ∧ magic = clusterMagic then some (.cluster, tagLength)
    else
      let payloadLength := if payloadLength = ebmlUnknown then 0 else payloadLength
      let payloadLength :=
        if uncommonMagicLen < tagLength ∧ (magic = segmentMagic ∨ magic = tracksMagic) then 0
        else payloadLength
      (elementKind input tagLength payloadLength).map fun kind ↦
        (kind, tagLength + if kind = .trackEntry then 0 else payloadLength)
  | _ => none

def elementsFrom (stream : Bytes) (frontier : ℕ) : ℕ → ℕ → List Element
  | 0, _ => []
  | fuel + 1, offset =>
    if frontier ≤ offset then []
    else
      match elementAt (stream.drop offset) with
      | some (kind, length) => ⟨offset, kind⟩ :: elementsFrom stream frontier fuel (offset + length)
      | none => []

/-- The elements of the stream that begin in front of the frontier. -/
def elementsBefore (stream : Bytes) (frontier : ℕ) : List Element :=
  elementsFrom stream frontier frontier 0

/-! ## The video track -/

structure Entry where
  number : Option ℕ
  isVideo : Bool
  deriving DecidableEq

def Entry.empty : Entry := ⟨none, false⟩

def Entry.read (entry : Entry) : ElementKind → Entry
  | .trackEntry => .empty
  | .trackNumber number => { entry with number := number }
  | .trackType isVideo => { entry with isVideo := entry.isVideo || isVideo }
  | _ => entry

def Entry.videoNumber (entry : Entry) : Option ℕ := if entry.isVideo then entry.number else none

def identifiedFrom (entry : Entry) : List Element → Option ℕ
  | [] => none
  | element :: rest =>
    ((entry.read element.kind).videoNumber).or (identifiedFrom (entry.read element.kind) rest)

/-- The first number that comes together with the video bit, whether or not there is a TrackEntry. -/
def identified (elements : List Element) : Option ℕ := identifiedFrom .empty elements

def lastEntry (elements : List Element) : Entry :=
  elements.foldl (fun entry element ↦ entry.read element.kind) .empty

def notTrackEntry (element : Element) : Bool := element.kind ≠ .trackEntry

/-- The number of the first TrackEntry with the video bit set. -/
def videoTrack (elements : List Element) : Option ℕ := identified (elements.dropWhile notTrackEntry)

/-! ## The first block of the video track in a Cluster -/

/-- Whether a block behind the elements `seen` is a keyframe, if it belongs to the video track. -/
def videoBlock (seen : List Element) (element : Element) : Option Bool :=
  match element.kind with
  | .simpleBlock (some track) keyframe => if videoTrack seen = some track then keyframe else none
  | _ => none

/-- The same of the first such block in front of the next Cluster. -/
def firstVideoBlock (seen : List Element) : List Element → Option Bool
  | [] => none
  | element :: rest =>
    if element.kind = .cluster then none
    else (videoBlock seen element).or (firstVideoBlock (seen ++ [element]) rest)

/-- The same of the first such block in the Cluster at an offset. -/
def firstVideoBlockOf (offset : ℕ) (seen : List Element) : List Element → Option Bool
  | [] => none
  | element :: rest =>
    if element = ⟨offset, .cluster⟩ then firstVideoBlock (seen ++ [element]) rest
    else firstVideoBlockOf offset (seen ++ [element]) rest

/-! ## Sequences of elements -/

section Paths

variable {stream : Bytes} {offset frontier : ℕ} {elements : List Element}

/-- The elements from an offset on, up to the place at which the next one begins. -/
inductive Path (stream : Bytes) : ℕ → List Element → ℕ → Prop
  | nil (offset : ℕ) : Path stream offset [] offset
  | cons {offset length frontier : ℕ} {kind : ElementKind} {rest : List Element}
      (head : elementAt (stream.drop offset) = some (kind, length))
      (tail : Path stream (offset + length) rest frontier) :
      Path stream offset (⟨offset, kind⟩ :: rest) frontier

theorem elementAt_pos {input : Bytes} {kind : ElementKind} {length : ℕ}
    (h : elementAt input = some (kind, length)) : 0 < length := by
  unfold elementAt at h
  split at h
  · rename_i tagLength payloadLength htag
    have hpos := ebmlParseTag_pos htag
    simp only at h
    split at h
    · obtain ⟨-, hlength⟩ := Prod.mk.inj (Option.some.inj h)
      omega
    · obtain ⟨found, -, hfound⟩ := Option.map_eq_some_iff.mp h
      obtain ⟨-, hlength⟩ := Prod.mk.inj hfound
      omega
  · cases h

theorem Path.le (h : Path stream offset elements frontier) : offset ≤ frontier := by
  induction h with
  | nil offset => exact le_rfl
  | cons head tail ih => omega

theorem Path.snoc {kind : ElementKind} {length : ℕ} (h : Path stream offset elements frontier)
    (hlast : elementAt (stream.drop frontier) = some (kind, length)) :
    Path stream offset (elements ++ [⟨frontier, kind⟩]) (frontier + length) := by
  induction h with
  | nil offset => exact .cons hlast (.nil _)
  | cons head tail ih => exact .cons head (ih hlast)

theorem Path.split {before after : List Element} (h : Path stream offset (before ++ after) frontier) :
    ∃ middle, Path stream offset before middle ∧ Path stream middle after frontier := by
  induction before generalizing offset with
  | nil => exact ⟨offset, .nil offset, h⟩
  | cons element before ih =>
    cases h with
    | cons head tail =>
      obtain ⟨middle, hbefore, hafter⟩ := ih tail
      exact ⟨middle, .cons head hbefore, hafter⟩

theorem Path.offset_lt (h : Path stream offset elements frontier) {element : Element}
    (hmem : element ∈ elements) : element.offset < frontier := by
  induction h with
  | nil offset => cases hmem
  | cons head tail ih =>
    have hpos := elementAt_pos head
    have hle := tail.le
    rcases List.mem_cons.mp hmem with rfl | hmem
    · simp only
      omega
    · exact ih hmem

/-- An element is not among those in front of it. -/
theorem Path.not_mem {before after : List Element} {element : Element}
    (h : Path stream offset (before ++ element :: after) frontier) : element ∉ before := by
  obtain ⟨middle, hbefore, hafter⟩ := h.split
  intro hmem
  have hlt := hbefore.offset_lt hmem
  cases hafter with
  | cons head tail => exact Nat.lt_irrefl _ hlt

theorem Path.elementsFrom_eq (h : Path stream offset elements frontier) {fuel : ℕ}
    (hfuel : frontier ≤ offset + fuel) : elementsFrom stream frontier fuel offset = elements := by
  induction h generalizing fuel with
  | nil offset =>
    cases fuel with
    | zero => rfl
    | succ fuel => simp [elementsFrom]
  | cons head tail ih =>
    have hpos := elementAt_pos head
    have hle := tail.le
    cases fuel with
    | zero => omega
    | succ fuel =>
      have htail := @ih fuel (by omega)
      rw [elementsFrom, if_neg (by omega), head]
      simp only [htail]

theorem Path.elementsBefore_eq (h : Path stream 0 elements frontier) :
    elementsBefore stream frontier = elements := h.elementsFrom_eq (by omega)

end Paths

/-! ## What more elements tell -/

section Tracks

variable {elements : List Element}

theorem identifiedFrom_append (entry : Entry) (before after : List Element) :
    identifiedFrom entry (before ++ after) = (identifiedFrom entry before).or
      (identifiedFrom (before.foldl (fun entry element ↦ entry.read element.kind) entry) after) := by
  induction before generalizing entry with
  | nil => rfl
  | cons element before ih =>
    rw [List.cons_append, identifiedFrom, ih, identifiedFrom, Option.or_assoc, List.foldl_cons]

theorem lastEntry_snoc (elements : List Element) (element : Element) :
    lastEntry (elements ++ [element]) = (lastEntry elements).read element.kind :=
  List.foldl_append

theorem identified_snoc (elements : List Element) (element : Element) :
    identified (elements ++ [element]) =
      (identified elements).or ((lastEntry elements).read element.kind).videoNumber := by
  rw [identified, identifiedFrom_append, identifiedFrom, identifiedFrom, Option.or_none]
  rfl

/-- The last entry has been looked at already. -/
theorem identified_or_lastEntry (elements : List Element) :
    (identified elements).or (lastEntry elements).videoNumber = identified elements := by
  rcases List.eq_nil_or_concat' elements with rfl | ⟨before, element, rfl⟩
  · rfl
  · rw [identified_snoc, lastEntry_snoc, Option.or_assoc, Option.or_self]

/-- Where the parser can be trusted: what is in front of the first TrackEntry does not make a track of its
own, and no block in a Cluster has a number for "unknown" while no video track is known. -/
structure Regular (elements : List Element) : Prop where
  loose : identified (elements.takeWhile notTrackEntry) = none
  stray : ∀ before element after keyframe, elements = before ++ element :: after →
    element.kind = .simpleBlock none (some keyframe) → (∃ cluster ∈ before, cluster.kind = .cluster) →
      videoTrack before ≠ none

/-- Where all blocks have a number, only the tracks matter. -/
theorem regular_of_numbered (hloose : identified (elements.takeWhile notTrackEntry) = none)
    (hnumbered : ∀ element ∈ elements, ∀ keyframe, element.kind ≠ .simpleBlock none (some keyframe)) :
    Regular elements := by
  refine ⟨hloose, ?_⟩
  intro before element after keyframe heq hkind
  have hmem : element ∈ elements := by
    rw [heq]
    exact List.mem_append_right before List.mem_cons_self
  exact absurd hkind (hnumbered element hmem keyframe)

theorem Regular.of_append {more : List Element} (h : Regular (elements ++ more)) : Regular elements := by
  refine ⟨?_, ?_⟩
  · have hloose := h.loose
    rw [List.takeWhile_append] at hloose
    split at hloose
    · rename_i hall
      rw [(List.takeWhile_prefix notTrackEntry).eq_of_length hall]
      rw [identified, identifiedFrom_append, Option.or_eq_none_iff] at hloose
      exact hloose.1
    · exact hloose
  · intro before element after keyframe heq hkind hcluster
    apply h.stray before element (after ++ more) keyframe _ hkind hcluster
    rw [heq, List.append_assoc, List.cons_append]

theorem Regular.videoTrack_eq (h : Regular elements) : videoTrack elements = identified elements := by
  have hparts : elements.takeWhile notTrackEntry ++ elements.dropWhile notTrackEntry = elements :=
    List.takeWhile_append_dropWhile
  have hall : identified elements = identifiedFrom (lastEntry (elements.takeWhile notTrackEntry))
      (elements.dropWhile notTrackEntry) := by
    conv_lhs => rw [← hparts, identified, identifiedFrom_append]
    have hloose := h.loose
    rw [identified] at hloose
    rw [hloose, Option.none_or]
    rfl
  rw [hall, videoTrack, identified]
  cases hrest : elements.dropWhile notTrackEntry with
  | nil => rfl
  | cons element rest =>
    have hentry : element.kind = .trackEntry := by
      have hnot := List.head?_dropWhile_not notTrackEntry elements
      rw [hrest] at hnot
      simpa [notTrackEntry] using hnot
    rw [identifiedFrom, identifiedFrom, hentry]
    rfl

theorem firstVideoBlock_snoc {inside : List Element} {element : Element} (seen : List Element)
    (hinside : ∀ e ∈ inside, e.kind ≠ .cluster) (helement : element.kind ≠ .cluster) :
    firstVideoBlock seen (inside ++ [element]) =
      (firstVideoBlock seen inside).or (videoBlock (seen ++ inside) element) := by
  induction inside generalizing seen with
  | nil => simp [firstVideoBlock, helement]
  | cons first inside ih =>
    have hfirst := hinside first List.mem_cons_self
    rw [List.cons_append, firstVideoBlock, if_neg hfirst, firstVideoBlock, if_neg hfirst,
      ih (seen ++ [first]) fun e he ↦ hinside e (List.mem_cons_of_mem first he), Option.or_assoc,
      List.append_assoc, List.singleton_append]

theorem firstVideoBlockOf_cluster {before : List Element} {offset : ℕ} (seen inside : List Element)
    (hnot : (⟨offset, .cluster⟩ : Element) ∉ before) :
    firstVideoBlockOf offset seen (before ++ ⟨offset, .cluster⟩ :: inside) =
      firstVideoBlock (seen ++ before ++ [⟨offset, .cluster⟩]) inside := by
  induction before generalizing seen with
  | nil => simp [firstVideoBlockOf]
  | cons first before ih =>
    obtain ⟨hfirst, hbefore⟩ := List.ne_and_not_mem_of_not_mem_cons hnot
    rw [List.cons_append, firstVideoBlockOf, if_neg (Ne.symm hfirst), ih _ hbefore]
    simp only [List.append_assoc, List.singleton_append]

end Tracks

end Icecast.Format.Ebml
