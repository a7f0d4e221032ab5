import Icecast.Format.EbmlElements

/-!
# Which Clusters are sync points

A chunk that begins with a Cluster is a sync point unless the parser has found that the first block of the
video track in this Cluster is not a keyframe. Through every run without an ignored error, what the parser
remembers about tracks and blocks is what the elements in front of its frontier say.
-/

namespace Icecast.Format.Ebml

open Lib.Machine Lib.Socket

/-! ## Probing an element -/

theorem known_inj {a b : ℕ} : known a = known b ↔ a = b := by
  unfold known
  constructor
  · intro h
    split_ifs at h with ha hb hb
    · rw [ha, hb]
    · exact Option.some.inj h
  · rintro rfl
    rfl

theorem ebmlParseTag_two_le {input : Bytes} {length payload : ℕ}
    (h : ebmlParseTag input = .done length payload) : 2 ≤ length := by
  obtain ⟨typeLength, tagId, sizeLength, htype, hsize, rfl⟩ := ebmlParseTag_cases h
  have := ebmlParseVarInt_pos htype
  have := ebmlParseVarInt_pos hsize
  omega

/-- A number that has been read is the same when more bytes follow. -/
theorem ebmlParseSizedInt_append {payload : Bytes} {len length value : ℕ} {isSigned : Bool}
    (h : ebmlParseSizedInt payload len isSigned = .done length value) (more : Bytes) :
    ebmlParseSizedInt (payload ++ more) len isSigned = .done length value := by
  unfold ebmlParseSizedInt at h ⊢
  split at h
  · cases h
  · rename_i hsize
    split at h
    · cases h
    · rename_i hlong
      have hhead : (payload ++ more).headD 0 = payload.headD 0 := by
        cases payload with
        | nil =>
          rw [List.length_nil] at hlong
          omega
        | cons first rest => rfl
      rw [if_neg hsize, if_neg (by rw [List.length_append]; omega),
        List.take_append_of_le_length (by omega), hhead]
      exact h

def statusOf : Option Bool → KeyframeStatus
  | none => .unknown
  | some true => .startsCluster
  | some false => .doesNotStartCluster

/-- What the parser makes of an element. A block counts if its number is that of the track looked for, also
where both stand for "unknown". -/
def Probed (ebml : EbmlState) (probed : EbmlState) : ElementKind → Prop
  | .simpleBlock track keyframe => ∃ status,
    probed = { ebml with clusterStartsWithKeyframe := status } ∧
      (ebml.clusterStartsWithKeyframe ≠ .unknown → status = ebml.clusterStartsWithKeyframe) ∧
      (ebml.clusterStartsWithKeyframe = .unknown →
        track = known ebml.keyframeTrackNumber ∧ keyframe ≠ none ∧ status = statusOf keyframe ∨
        track ≠ known ebml.keyframeTrackNumber ∧ status = .unknown)
  | .trackEntry =>
    probed = { ebml with parsingTrackNumber := ebmlUnknown, parsingTrackIsVideo := false }
  | .trackNumber number =>
    ∃ value, number = known value ∧ probed = ebmlCheckTrack { ebml with parsingTrackNumber := value }
  | .trackType true => probed = ebmlCheckTrack { ebml with parsingTrackIsVideo := true }
  | _ => probed = ebml

theorem probeSimpleBlock_probed {ebml probed : EbmlState} {input : Bytes} {tagLength : ℕ}
    (hlong : tagLength ≤ input.length)
    (h : probeSimpleBlock ebml input tagLength = (.proceed, probed)) (more : Bytes) :
    Probed ebml probed (.simpleBlock (blockTrack ((input ++ more).drop tagLength))
      (blockKeyframe ((input ++ more).drop tagLength))) := by
  rw [List.drop_append_of_le_length hlong]
  unfold probeSimpleBlock at h
  split at h
  · rename_i hstatus
    split at h
    · cases h
    · cases h
    · rename_i numberLength track hnumber
      have hwhole := (ebmlParseVarInt_append hnumber more).1
      have htrack : blockTrack (input.drop tagLength ++ more) = known track := by
        simp only [blockTrack, hwhole]
      rw [htrack]
      split at h
      · rename_i hmatch
        split at h
        · cases h
        · rename_i flags hflags
          have hplace : (input.drop tagLength ++ more)[numberLength + 2]? = some flags := by
            have hhere : (input.drop tagLength)[numberLength + 2]? = some flags := by
              rw [List.getElem?_drop, ← Nat.add_assoc]
              exact hflags
            rw [List.getElem?_append_left (List.getElem?_eq_some_iff.mp hhere).1]
            exact hhere
          have hkeyframe : blockKeyframe (input.drop tagLength ++ more) =
              some (decide (flags &&& 0x80 ≠ 0)) := by
            simp only [blockKeyframe, hwhole, hplace, Option.map_some]
          refine ⟨_, (Prod.mk.inj h).2.symm, fun hknown ↦ absurd hstatus hknown, fun _ ↦ Or.inl ?_⟩
          rw [hkeyframe]
          refine ⟨known_inj.mpr hmatch, nofun, ?_⟩
          by_cases hflag : flags &&& 0x80 ≠ 0
          · rw [if_pos hflag, decide_eq_true hflag]
            rfl
          · rw [if_neg hflag, decide_eq_false hflag]
            rfl
      · rename_i hother
        refine ⟨ebml.clusterStartsWithKeyframe, (Prod.mk.inj h).2.symm, fun _ ↦ rfl,
          fun _ ↦ Or.inr ⟨fun hsame ↦ hother (known_inj.mp hsame), hstatus⟩⟩
  · rename_i hstatus
    exact ⟨ebml.clusterStartsWithKeyframe, (Prod.mk.inj h).2.symm, fun _ ↦ rfl,
      fun hunknown ↦ absurd hunknown hstatus⟩

theorem probeTrackNumber_probed {ebml probed : EbmlState} {input : Bytes} {tagLength payloadLength : ℕ}
    (hlong : tagLength ≤ input.length)
    (h : probeTrackNumber ebml input tagLength payloadLength = (.proceed, probed)) (more : Bytes) :
    ∃ length value, ebmlParseSizedInt ((input ++ more).drop tagLength) payloadLength false =
        .done length value ∧ Probed ebml probed (.trackNumber (known value)) := by
  rw [List.drop_append_of_le_length hlong]
  unfold probeTrackNumber at h
  split at h
  · cases h
  · cases h
  · rename_i length value hvalue
    exact ⟨length, value, ebmlParseSizedInt_append hvalue more, value, rfl, (Prod.mk.inj h).2.symm⟩

theorem probeTrackType_probed {ebml probed : EbmlState} {input : Bytes} {tagLength payloadLength : ℕ}
    (hlong : tagLength ≤ input.length)
    (h : probeTrackType ebml input tagLength payloadLength = (.proceed, probed)) (more : Bytes) :
    ∃ length value, ebmlParseSizedInt ((input ++ more).drop tagLength) payloadLength false =
        .done length value ∧ Probed ebml probed (.trackType (value &&& 0x01 ≠ 0)) := by
  rw [List.drop_append_of_le_length hlong]
  unfold probeTrackType at h
  split at h
  · cases h
  · cases h
  · rename_i length value hvalue
    refine ⟨length, value, ebmlParseSizedInt_append hvalue more, ?_⟩
    split at h
    · rename_i hvideo
      rw [decide_eq_true hvideo]
      exact (Prod.mk.inj h).2.symm
    · rename_i hvideo
      rw [decide_eq_false hvideo]
      exact (Prod.mk.inj h).2.symm

theorem probe_probed {ebml probed : EbmlState} {input : Bytes} {tagLength payloadLength copied : ℕ}
    (htwo : 2 ≤ tagLength) (hlong : tagLength ≤ input.length)
    (h : probe ebml input tagLength payloadLength = (.proceed, probed, copied)) (more : Bytes) :
    ∃ kind, elementKind (input ++ more) tagLength payloadLength = some kind ∧ kind ≠ .cluster ∧
      copied = (if kind = .trackEntry then 0 else payloadLength) ∧ Probed ebml probed kind := by
  have htag : commonMagicLen < tagLength := htwo
  have hmagic : (input ++ more).take commonMagicLen = input.take commonMagicLen :=
    List.take_append_of_le_length (htag.le.trans hlong)
  unfold probe at h
  unfold elementKind
  simp only [if_pos htag] at h
  simp only [hmagic]
  generalize input.take commonMagicLen = magic at h
  by_cases hblock : magic = simpleBlockMagic
  · rw [if_pos hblock] at h ⊢
    obtain ⟨hturn, hprobed, hcopied⟩ := by simpa only [Prod.mk.injEq] using h
    exact ⟨_, rfl, nofun, hcopied.symm, probeSimpleBlock_probed hlong (Prod.ext hturn hprobed) more⟩
  rw [if_neg hblock] at h ⊢
  by_cases hentry : magic = trackEntryMagic
  · rw [if_pos hentry] at h ⊢
    obtain ⟨-, hprobed, hcopied⟩ := by simpa only [Prod.mk.injEq] using h
    exact ⟨_, rfl, nofun, hcopied.symm, hprobed.symm⟩
  rw [if_neg hentry] at h ⊢
  by_cases hnumber : magic = trackNumberMagic
  · rw [if_pos hnumber] at h ⊢
    obtain ⟨hturn, hprobed, hcopied⟩ := by simpa only [Prod.mk.injEq] using h
    obtain ⟨length, value, hvalue, hresult⟩ :=
      probeTrackNumber_probed hlong (Prod.ext hturn hprobed) more
    rw [hvalue]
    exact ⟨_, rfl, nofun, hcopied.symm, hresult⟩
  rw [if_neg hnumber] at h ⊢
  by_cases htype : magic = trackTypeMagic
  · rw [if_pos htype] at h ⊢
    obtain ⟨hturn, hprobed, hcopied⟩ := by simpa only [Prod.mk.injEq] using h
    obtain ⟨length, value, hvalue, hresult⟩ :=
      probeTrackType_probed hlong (Prod.ext hturn hprobed) more
    rw [hvalue]
    exact ⟨_, rfl, nofun, hcopied.symm, hresult⟩
  rw [if_neg htype] at h ⊢
  obtain ⟨-, hprobed, hcopied⟩ := by simpa only [Prod.mk.injEq] using h
  exact ⟨_, rfl, nofun, hcopied.symm, hprobed.symm⟩

/-- An element that the parser gets past is the one that the stream has there. -/
theorem parseElement_probed {ebml ebml' : EbmlState} {cursor : ℕ}
    (h : parseElement ebml cursor = (.proceed, ebml')) (more : Bytes) :
    (∃ length payload, ebmlParseTag (ebml.inputBuffer.drop cursor) = .done length payload ∧
      elementAt (ebml.inputBuffer.drop cursor ++ more) = some (.cluster, length) ∧
      ebml' = { ebml with
        parseState := .startCluster
        clusters := ebml.clusters ++ [ebml.consumed + cursor] }) ∨
    (∃ kind length probed, elementAt (ebml.inputBuffer.drop cursor ++ more) = some (kind, length) ∧
      kind ≠ .cluster ∧ Probed ebml probed kind ∧
      ebml' = { probed with copyLen := length, parseState := copyState ebml.parseState }) := by
  cases htag : ebmlParseTag (ebml.inputBuffer.drop cursor) with
  | wait => simp [parseElement, htag] at h
  | corrupt => simp [parseElement, htag] at h
  | done tagLength payloadLength =>
    have htwo := ebmlParseTag_two_le htag
    have hlong := ebmlParseTag_length_le htag
    have hwhole := ebmlParseTag_append htag more
    have hmagic : uncommonMagicLen < tagLength →
        (ebml.inputBuffer.drop cursor ++ more).take uncommonMagicLen =
          (ebml.inputBuffer.drop cursor).take uncommonMagicLen := fun hlarge ↦
      List.take_append_of_le_length (hlarge.le.trans hlong)
    by_cases hcluster : uncommonMagicLen < tagLength ∧
        (ebml.inputBuffer.drop cursor).take uncommonMagicLen = clusterMagic
    · refine Or.inl ⟨tagLength, payloadLength, rfl, ?_, ?_⟩
      · simp only [elementAt, hwhole]
        rw [if_pos ⟨hcluster.1, (hmagic hcluster.1).trans hcluster.2⟩]
      · simp only [parseElement, htag, if_pos hcluster] at h
        exact (Prod.mk.inj h).2.symm
    · refine Or.inr ?_
      have hother : ¬ (uncommonMagicLen < tagLength ∧
          (ebml.inputBuffer.drop cursor ++ more).take uncommonMagicLen = clusterMagic) := by
        rintro ⟨hlarge, hsame⟩
        exact hcluster ⟨hlarge, (hmagic hlarge).symm.trans hsame⟩
      have hpayload : (uncommonMagicLen < tagLength ∧
          ((ebml.inputBuffer.drop cursor ++ more).take uncommonMagicLen = segmentMagic ∨
            (ebml.inputBuffer.drop cursor ++ more).take uncommonMagicLen = tracksMagic)) ↔
          (uncommonMagicLen < tagLength ∧
          ((ebml.inputBuffer.drop cursor).take uncommonMagicLen = segmentMagic ∨
            (ebml.inputBuffer.drop cursor).take uncommonMagicLen = tracksMagic)) := by
        apply and_congr_right
        intro hlarge
        rw [hmagic hlarge]
      simp only [parseElement, htag, if_neg hcluster] at h
      simp only [elementAt, hwhole, if_neg hother, hpayload]
      generalize (if uncommonMagicLen < tagLength ∧
        ((ebml.inputBuffer.drop cursor).take uncommonMagicLen = segmentMagic ∨
          (ebml.inputBuffer.drop cursor).take uncommonMagicLen = tracksMagic) then 0
        else if payloadLength = ebmlUnknown then 0 else payloadLength) = payload at h
      rcases hprobe : probe ebml (ebml.inputBuffer.drop cursor) tagLength payload with
        ⟨result, probed, copied⟩
      rw [hprobe] at h
      cases result with
      | wait => cases (Prod.mk.inj h).1
      | fail => cases (Prod.mk.inj h).1
      | proceed =>
        obtain ⟨kind, hkind, hnot, hcopied, hresult⟩ := probe_probed htwo hlong hprobe more
        refine ⟨kind, tagLength + copied, probed, ?_, hnot, hresult, (Prod.mk.inj h).2.symm⟩
        rw [hkind, Option.map_some, ← hcopied]

/-- An element for which there is not enough data leaves the parser as it is. -/
theorem probe_wait {ebml probed : EbmlState} {input : Bytes} {tagLength payloadLength copied : ℕ}
    (h : probe ebml input tagLength payloadLength = (.wait, probed, copied)) : probed = ebml := by
  unfold probe probeSimpleBlock probeTrackNumber probeTrackType at h
  grind

theorem parseElement_wait {ebml ebml' : EbmlState} {cursor : ℕ}
    (h : parseElement ebml cursor = (.wait, ebml')) : ebml' = ebml := by
  cases htag : ebmlParseTag (ebml.inputBuffer.drop cursor) with
  | wait =>
    simp only [parseElement, htag] at h
    exact (Prod.mk.inj h).2.symm
  | corrupt => simp [parseElement, htag] at h
  | done tagLength payloadLength =>
    simp only [parseElement, htag] at h
    split at h
    · cases (Prod.mk.inj h).1
    · split at h
      · cases (Prod.mk.inj h).1
      · rename_i turn probed copied hprobe
        obtain ⟨rfl, rfl⟩ := Prod.mk.inj h
        exact probe_wait hprobe

/-! ## What the parser remembers -/

section Watching

variable {ebml ebml' : EbmlState} {elements : List Element} {kind : ElementKind}

/-- The parser knows of the tracks what the elements say. -/
structure TracksKnown (ebml : EbmlState) (elements : List Element) : Prop where
  video : known ebml.keyframeTrackNumber = identified elements
  number : known ebml.parsingTrackNumber = (lastEntry elements).number
  isVideo : ebml.parsingTrackIsVideo = (lastEntry elements).isVideo

/-- The first block of the video track in the last Cluster has decided about it. -/
def StatusKnown (ebml : EbmlState) (elements : List Element) : Prop :=
  Regular elements → ∀ before offset inside,
    elements = before ++ (⟨offset, .cluster⟩ : Element) :: inside →
    (∀ element ∈ inside, element.kind ≠ .cluster) →
    ebml.clusterStartsWithKeyframe = statusOf (firstVideoBlock (before ++ [⟨offset, .cluster⟩]) inside)

theorem ebmlCheckTrack_known (ebml : EbmlState) :
    known (ebmlCheckTrack ebml).keyframeTrackNumber = (known ebml.keyframeTrackNumber).or
        (Entry.videoNumber ⟨known ebml.parsingTrackNumber, ebml.parsingTrackIsVideo⟩) ∧
      (ebmlCheckTrack ebml).parsingTrackNumber = ebml.parsingTrackNumber ∧
      (ebmlCheckTrack ebml).parsingTrackIsVideo = ebml.parsingTrackIsVideo := by
  unfold ebmlCheckTrack
  split
  · rename_i hfound
    obtain ⟨hnone, hvideo, -⟩ := hfound
    refine ⟨?_, rfl, rfl⟩
    simp [known, hnone, Entry.videoNumber, hvideo]
  · rename_i hnot
    refine ⟨?_, rfl, rfl⟩
    by_cases hnone : ebml.keyframeTrackNumber = ebmlUnknown
    · simp only [known, hnone, if_true, Option.none_or, Entry.videoNumber]
      symm
      split
      · rename_i hvideo
        rw [if_pos]
        by_contra hknown
        exact hnot ⟨hnone, hvideo, hknown⟩
      · rfl
    · simp only [known, if_neg hnone, Option.some_or]

/-- An element that is not about tracks. -/
theorem TracksKnown.unchanged (h : TracksKnown ebml elements)
    (hread : (lastEntry elements).read kind = lastEntry elements) (offset : ℕ) :
    TracksKnown ebml (elements ++ [⟨offset, kind⟩]) := by
  refine ⟨?_, ?_, ?_⟩
  · rw [identified_snoc, hread, identified_or_lastEntry]
    exact h.video
  · rw [lastEntry_snoc, hread]
    exact h.number
  · rw [lastEntry_snoc, hread]
    exact h.isVideo

/-- A field of a TrackEntry, after which the parser looks whether it has found the video track. -/
theorem TracksKnown.checked (h : TracksKnown ebml elements) {number : ℕ} {isVideo : Bool}
    (hread : (lastEntry elements).read kind = ⟨known number, isVideo⟩) (offset : ℕ) :
    TracksKnown (ebmlCheckTrack { ebml with
      parsingTrackNumber := number, parsingTrackIsVideo := isVideo }) (elements ++ [⟨offset, kind⟩]) := by
  obtain ⟨hvideo, hnumber, hisVideo⟩ := ebmlCheckTrack_known { ebml with
    parsingTrackNumber := number, parsingTrackIsVideo := isVideo }
  refine ⟨?_, ?_, ?_⟩
  · rw [hvideo, identified_snoc, hread, h.video]
  · rw [hnumber, lastEntry_snoc, hread]
  · rw [hisVideo, lastEntry_snoc, hread]

theorem TracksKnown.probed (h : TracksKnown ebml elements) (hprobed : Probed ebml ebml' kind)
    (offset : ℕ) : TracksKnown ebml' (elements ++ [⟨offset, kind⟩]) := by
  cases kind with
  | cluster =>
    obtain rfl : ebml' = ebml := hprobed
    exact h.unchanged rfl offset
  | other =>
    obtain rfl : ebml' = ebml := hprobed
    exact h.unchanged rfl offset
  | simpleBlock track keyframe =>
    obtain ⟨status, rfl, -⟩ := hprobed
    have hsame : TracksKnown ebml (elements ++ [⟨offset, .simpleBlock track keyframe⟩]) :=
      h.unchanged rfl offset
    exact ⟨hsame.video, hsame.number, hsame.isVideo⟩
  | trackEntry =>
    obtain rfl : ebml' = { ebml with
      parsingTrackNumber := ebmlUnknown, parsingTrackIsVideo := false } := hprobed
    refine ⟨?_, ?_, ?_⟩
    · rw [identified_snoc]
      exact h.video.trans (Option.or_none).symm
    · rw [lastEntry_snoc]
      exact if_pos rfl
    · rw [lastEntry_snoc]
      rfl
  | trackNumber number =>
    obtain ⟨value, rfl, rfl⟩ := hprobed
    apply h.checked
    rw [Entry.read, ← h.isVideo]
  | trackType isVideo =>
    cases isVideo with
    | false =>
      obtain rfl : ebml' = ebml := hprobed
      refine h.unchanged ?_ offset
      rw [Entry.read, Bool.or_false]
    | true =>
      obtain rfl : ebml' = ebmlCheckTrack { ebml with parsingTrackIsVideo := true } := hprobed
      apply h.checked
      rw [Entry.read, Bool.or_true, ← h.number]

/-- The last element is not the Cluster that it belongs to. -/
theorem append_eq_cluster {before inside : List Element} {element cluster : Element}
    (h : elements ++ [element] = before ++ cluster :: inside) (hne : element ≠ cluster) :
    ∃ inner, inside = inner ++ [element] ∧ elements = before ++ cluster :: inner := by
  rcases List.eq_nil_or_concat' inside with rfl | ⟨inner, last, rfl⟩
  · obtain ⟨-, hlast⟩ := List.append_inj' h rfl
    exact absurd (List.singleton_inj.mp hlast) hne
  · rw [← List.cons_append, ← List.append_assoc] at h
    obtain ⟨hfront, hlast⟩ := List.append_inj' h rfl
    obtain rfl := List.singleton_inj.mp hlast
    exact ⟨inner, rfl, hfront⟩

theorem StatusKnown.cluster (elements : List Element) (offset : ℕ)
    (hstatus : ebml.clusterStartsWithKeyframe = .unknown) :
    StatusKnown ebml (elements ++ [⟨offset, .cluster⟩]) := by
  intro _ before offset' inside heq hinside
  rcases List.eq_nil_or_concat' inside with rfl | ⟨inner, last, rfl⟩
  · exact hstatus
  · rw [← List.cons_append, ← List.append_assoc] at heq
    obtain ⟨-, hlast⟩ := List.append_inj' heq rfl
    obtain rfl := List.singleton_inj.mp hlast
    exact absurd rfl (hinside _ (List.mem_append_right inner List.mem_cons_self))

theorem statusOf_eq_unknown {decision : Option Bool} : statusOf decision = .unknown ↔ decision = none := by
  rcases decision with _ | (_ | _) <;> simp [statusOf]

/-- Elements other than blocks decide nothing. -/
theorem Probed.status_eq (hprobed : Probed ebml ebml' kind)
    (hkind : ∀ track keyframe, kind ≠ .simpleBlock track keyframe) :
    ebml'.clusterStartsWithKeyframe = ebml.clusterStartsWithKeyframe := by
  have hcheck : ∀ ebml : EbmlState,
      (ebmlCheckTrack ebml).clusterStartsWithKeyframe = ebml.clusterStartsWithKeyframe := by
    intro ebml
    unfold ebmlCheckTrack
    split
    · rfl
    · rfl
  cases kind with
  | cluster => exact congrArg _ hprobed
  | other => exact congrArg _ hprobed
  | simpleBlock track keyframe => exact absurd rfl (hkind track keyframe)
  | trackEntry =>
    obtain rfl : ebml' = _ := hprobed
    rfl
  | trackNumber number =>
    obtain ⟨value, -, rfl⟩ := hprobed
    exact hcheck _
  | trackType isVideo =>
    cases isVideo with
    | false => exact congrArg _ hprobed
    | true =>
      obtain rfl : ebml' = _ := hprobed
      exact hcheck _

theorem Probed.sameBuffers (hprobed : Probed ebml ebml' kind) : SameBuffers ebml ebml' := by
  cases kind with
  | cluster =>
    obtain rfl : ebml' = ebml := hprobed
    exact .refl ebml'
  | other =>
    obtain rfl : ebml' = ebml := hprobed
    exact .refl ebml'
  | simpleBlock track keyframe =>
    obtain ⟨status, rfl, -⟩ := hprobed
    exact ⟨_, _, _, _, rfl⟩
  | trackEntry => exact ⟨_, _, _, _, hprobed⟩
  | trackNumber number =>
    obtain ⟨value, -, rfl⟩ := hprobed
    exact ebmlCheckTrack_sameBuffers ⟨_, _, _, _, rfl⟩
  | trackType isVideo =>
    cases isVideo with
    | false =>
      obtain rfl : ebml' = ebml := hprobed
      exact .refl ebml'
    | true =>
      obtain rfl : ebml' = _ := hprobed
      exact ebmlCheckTrack_sameBuffers ⟨_, _, _, _, rfl⟩

/-- A block in a Cluster, behind blocks that have not decided. -/
theorem Probed.block_status {track : Option ℕ} {keyframe : Option Bool} {offset : ℕ}
    (hprobed : Probed ebml ebml' (.simpleBlock track keyframe))
    (hunknown : ebml.clusterStartsWithKeyframe = .unknown) (htracks : TracksKnown ebml elements)
    (hregular : Regular (elements ++ [⟨offset, .simpleBlock track keyframe⟩]))
    (hcluster : ∃ cluster ∈ elements, cluster.kind = .cluster) :
    ebml'.clusterStartsWithKeyframe =
      statusOf (videoBlock elements ⟨offset, .simpleBlock track keyframe⟩) := by
  have hvideo : known ebml.keyframeTrackNumber = videoTrack elements :=
    htracks.video.trans hregular.of_append.videoTrack_eq.symm
  obtain ⟨status, rfl, -, hdecided⟩ := hprobed
  rw [hvideo] at hdecided
  rcases hdecided hunknown with ⟨hmatch, hkeyframe, hstatus⟩ | ⟨hother, hstatus⟩
  · cases track with
    | none =>
      obtain ⟨bit, rfl⟩ := Option.ne_none_iff_exists'.mp hkeyframe
      have hstray := hregular.stray elements _ [] bit rfl rfl hcluster
      exact absurd hmatch.symm hstray
    | some track =>
      simp only [videoBlock, if_pos hmatch.symm]
      exact hstatus
  · cases track with
    | none => exact hstatus
    | some track =>
      simp only [videoBlock, if_neg (Ne.symm hother)]
      exact hstatus

theorem StatusKnown.probed (h : StatusKnown ebml elements) (htracks : TracksKnown ebml elements)
    (hkind : kind ≠ .cluster) (hprobed : Probed ebml ebml' kind) (offset : ℕ) :
    StatusKnown ebml' (elements ++ [⟨offset, kind⟩]) := by
  intro hregular before clusterOffset inside heq hinside
  have hne : (⟨offset, kind⟩ : Element) ≠ ⟨clusterOffset, .cluster⟩ := fun hsame ↦
    hkind (Element.mk.inj hsame).2
  obtain ⟨inner, rfl, helements⟩ := append_eq_cluster heq hne
  have hinner : ∀ element ∈ inner, element.kind ≠ .cluster := fun element hmem ↦
    hinside element (List.mem_append_left _ hmem)
  have hbefore := h hregular.of_append before clusterOffset inner helements hinner
  have hseen : before ++ [⟨clusterOffset, .cluster⟩] ++ inner = elements := by
    rw [helements, List.append_assoc, List.singleton_append]
  have hcluster : ∃ cluster ∈ elements, cluster.kind = .cluster := by
    refine ⟨⟨clusterOffset, .cluster⟩, ?_, rfl⟩
    rw [helements]
    exact List.mem_append_right before List.mem_cons_self
  rw [firstVideoBlock_snoc _ hinner hkind, hseen]
  by_cases hblock : ∃ track keyframe, kind = .simpleBlock track keyframe
  · obtain ⟨track, keyframe, rfl⟩ := hblock
    by_cases hunknown : ebml.clusterStartsWithKeyframe = .unknown
    · rw [hunknown] at hbefore
      rw [statusOf_eq_unknown.mp hbefore.symm, Option.none_or]
      exact hprobed.block_status hunknown htracks hregular hcluster
    · obtain ⟨status, rfl, hsame, -⟩ := hprobed
      obtain ⟨bit, hbit⟩ := Option.ne_none_iff_exists'.mp fun hnone ↦
        hunknown (hbefore.trans (statusOf_eq_unknown.mpr hnone))
      rw [hbit] at hbefore ⊢
      exact (hsame hunknown).trans hbefore
  · have hnone : videoBlock elements ⟨offset, kind⟩ = none := by
      cases kind with
      | simpleBlock track keyframe => exact absurd ⟨track, keyframe, rfl⟩ hblock
      | _ => rfl
    rw [hnone, Option.or_none, hprobed.status_eq fun track keyframe hsame ↦
      hblock ⟨track, keyframe, hsame⟩]
    exact hbefore

end Watching

end Icecast.Format.Ebml
