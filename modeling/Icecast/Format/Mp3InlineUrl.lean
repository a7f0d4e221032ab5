import Icecast.Format.Mp3Metadata

/-!
# Where the inline URL points to

The block that `mp3_state` holds is counted, so that it is never freed while it is held. `inline_url`
points into it as long as the blocks come inline; a block built by `mp3_set_title` takes the place of
the one that `inline_url` points into.
-/

namespace Icecast.Format.Mp3Metadata

open Comments Lib Lib.CString Lib.Machine
open Mp3Reader (Filter ReadOutcome cString memmove refbufSize streamTitle)

/-! ## Reference counts -/

def countOf (blocks : Heap Block) (id : ℕ) : ℕ := (blocks.objects id).elim 0 (·.count)

section Counts

variable {blocks : Heap Block} {id : ℕ}

theorem isSome_of_countOf (h : 0 < countOf blocks id) : (blocks.objects id).isSome := by
  unfold countOf at h
  cases hobject : blocks.objects id with
  | none =>
    rw [hobject] at h
    cases h
  | some block => rfl

theorem countOf_alloc (blocks : Heap Block) (data : Bytes) (id : ℕ) :
    countOf (blocks.alloc ⟨data, 1⟩) id = countOf blocks id + if id = blocks.next then 1 else 0 := by
  unfold countOf
  by_cases hid : id = blocks.next
  · rw [if_pos hid, hid, Heap.objects_alloc_self, blocks.fresh blocks.next (Nat.le_refl _)]
    rfl
  · rw [if_neg hid, Heap.objects_alloc_of_ne _ _ hid, Nat.add_zero]

theorem countOf_addref (h : (blocks.objects id).isSome) (other : ℕ) :
    countOf (refbufAddref id blocks) other =
      countOf blocks other + if other = id then 1 else 0 := by
  unfold countOf refbufAddref
  by_cases hother : other = id
  · obtain ⟨block, hblock⟩ := Option.isSome_iff_exists.mp h
    rw [if_pos hother, hother, Heap.objects_modify_self, hblock]
    rfl
  · rw [if_neg hother, Heap.objects_modify_of_ne _ _ hother, Nat.add_zero]

theorem countOf_release (blocks : Heap Block) (id other : ℕ) :
    countOf (refbufRelease id blocks) other =
      countOf blocks other - if other = id then 1 else 0 := by
  unfold refbufRelease
  by_cases hother : other = id
  · subst hother
    rw [if_pos rfl]
    split
    · rename_i hobject
      simp [countOf, hobject]
    · rename_i block hobject
      split
      · rename_i hcount
        simp [countOf, hobject, hcount]
      · simp [countOf, hobject]
  · rw [if_neg hother, Nat.sub_zero]
    split
    · rfl
    · split
      · rw [countOf, Heap.objects_free_of_ne _ hother, countOf]
      · rw [countOf, Heap.objects_modify_of_ne _ _ hother, countOf]

theorem objects_release_of_ne {other : ℕ} (h : other ≠ id) :
    (refbufRelease id blocks).objects other = blocks.objects other := by
  unfold refbufRelease
  split
  · rfl
  · split
    · exact Heap.objects_free_of_ne _ h
    · exact Heap.objects_modify_of_ne _ _ h

/-- The data of a block that is not freed stay the same. -/
theorem dataOf_release {other : ℕ} (h : (refbufRelease id blocks).objects other ≠ none) :
    dataOf (refbufRelease id blocks) other = dataOf blocks other := by
  by_cases hother : other = id
  · subst hother
    unfold refbufRelease at h ⊢
    split
    · rfl
    · rename_i block hobject
      rw [hobject] at h
      dsimp only at h
      split
      · rename_i hcount
        rw [if_pos hcount, Heap.objects_free_self] at h
        exact absurd rfl h
      · simp [dataOf, hobject]
  · rw [dataOf, objects_release_of_ne hother, dataOf]

end Counts

/-! ## The invariant -/

/-- The URL is in the data of the block that is held, which has not been freed. -/
def Valid (s : Source) : Prop :=
  ∀ url, s.mp3.inlineUrl = some url → url.block = s.mp3.metadata ∧
    (s.blocks.objects url.block).isSome ∧ url.offset < (dataOf s.blocks url.block).length

/-- Every block is held by `mp3_state` or by buffers, and counts them. -/
def Counted (s : Source) : Prop :=
  ∀ id, countOf s.blocks id = s.queue.count id + if id = s.mp3.metadata then 1 else 0

structure Inv (s : Source) : Prop where
  valid : Valid s
  counted : Counted s

/-- Nothing is different about the blocks. -/
structure Agree (s s' : Source) : Prop where
  blocks : s'.blocks = s.blocks
  queue : s'.queue = s.queue
  metadata : s'.mp3.metadata = s.mp3.metadata
  inlineUrl : s'.mp3.inlineUrl = s.mp3.inlineUrl

section Steps

variable {s : Source}

theorem Counted.live (h : Counted s) : (s.blocks.objects s.mp3.metadata).isSome := by
  apply isSome_of_countOf
  rw [h, if_pos rfl]
  exact Nat.succ_pos _

theorem Inv.congr (h : Inv s) {s' : Source} (hagree : Agree s s') : Inv s' := by
  constructor
  · rw [Valid, hagree.blocks, hagree.metadata, hagree.inlineUrl]
    exact h.valid
  · rw [Counted, hagree.blocks, hagree.queue, hagree.metadata]
    exact h.counted

theorem Counted.replaceMetadata (h : Counted s) (data : Bytes) :
    Counted (replaceMetadata data s) ∧
      (replaceMetadata data s).blocks.objects s.blocks.next = some ⟨data, 1⟩ := by
  have hne : s.blocks.next ≠ s.mp3.metadata := (Heap.ne_next_of_isSome h.live).symm
  constructor
  · intro id
    change countOf (refbufRelease s.mp3.metadata (s.blocks.alloc ⟨data, 1⟩)) id =
      s.queue.count id + if id = s.blocks.next then 1 else 0
    rw [countOf_release, countOf_alloc, h id]
    omega
  · simp only [Mp3Metadata.replaceMetadata]
    rw [objects_release_of_ne hne, Heap.objects_alloc_self]

theorem cString_length_le (data : Bytes) : (cString data).length ≤ data.length :=
  (List.takeWhile_prefix _).length_le

theorem Inv.assignMetadata (h : Inv s) {s' : Source} (hassign : assignMetadata s = some s') :
    Inv s' := by
  unfold Mp3Metadata.assignMetadata at hassign
  split at hassign
  · dsimp only at hassign
    split at hassign
    · obtain rfl := Option.some.inj hassign
      obtain ⟨hcounted, hnew⟩ := h.counted.replaceMetadata (s.mp3.buildMetadata ++
        List.replicate (s.mp3.buildMetadataLen - s.mp3.buildMetadata.length) 0)
      refine ⟨?_, hcounted⟩
      intro url hurl
      obtain ⟨offset, hoffset, rfl⟩ := Option.map_eq_some_iff.mp hurl
      refine ⟨rfl, ?_, ?_⟩
      · exact Option.isSome_of_eq_some hnew
      · have hle := add_length_le_of_strstr hoffset (by decide)
        have htext := cString_length_le ((s.mp3.buildMetadata ++
          List.replicate (s.mp3.buildMetadataLen - s.mp3.buildMetadata.length) 0).drop 1)
        have hpattern : (bytes "StreamUrl='").length = 11 := by decide
        simp only [dataOf]
        rw [show (replaceMetadata _ s).mp3.metadata = s.blocks.next from rfl, hnew]
        simp only [Option.elim_some]
        rw [List.length_drop] at htext
        omega
    · cases hassign
  · rw [← Option.some.inj hassign]
    exact h

theorem Inv.beginBlock (h : Inv s) (filter : Filter) : Inv (beginBlock s filter) := by
  unfold Mp3Metadata.beginBlock
  split
  · exact h.congr ⟨rfl, rfl, rfl, rfl⟩
  · exact h

theorem Inv.filterLoop (h : Inv s) (fuel : ℕ) (filter : Filter) :
    Inv (filterLoop fuel s filter).2.1 := by
  induction fuel generalizing s filter with
  | zero => exact h
  | succ fuel ih =>
    have hbegin : Inv (Mp3Metadata.beginBlock s filter) := h.beginBlock filter
    unfold Mp3Metadata.filterLoop
    dsimp only
    split_ifs
    · exact h
    · exact h.congr ⟨rfl, rfl, rfl, rfl⟩
    · apply ih
      exact h.congr ⟨rfl, rfl, rfl, rfl⟩
    · exact hbegin.congr ⟨rfl, rfl, rfl, rfl⟩
    · split
      · exact hbegin.congr ⟨rfl, rfl, rfl, rfl⟩
      · rename_i s' hassign
        apply ih
        refine Inv.congr (s := s') ?_ ⟨rfl, rfl, rfl, rfl⟩
        refine Inv.assignMetadata ?_ hassign
        exact hbegin.congr ⟨rfl, rfl, rfl, rfl⟩

/-- What `Mp3Reader` knows of the source, after a title has been taken over. -/
def view (s : Source) : Mp3Reader.Mp3State where
  inlineMetadataInterval := s.mp3.inlineMetadataInterval
  offset := s.mp3.offset
  metadata := dataOf s.blocks s.mp3.metadata
  updateMetadata := none
  readData := s.mp3.readData
  buildMetadataLen := s.mp3.buildMetadataLen
  buildMetadata := s.mp3.buildMetadata

/-- Two branches on the same condition. -/
theorem ite_eq_apply_ite {α β : Type*} {c : Prop} [Decidable c] (f : α → β) {x y : α} {x' y' : β}
    (hpos : c → x' = f x) (hneg : ¬c → y' = f y) :
    (if c then x' else y') = f (if c then x else y) := by
  split
  · exact hpos ‹_›
  · exact hneg ‹_›

theorem Counted.assignMetadata_view (h : Counted s) :
    Mp3Reader.assignMetadata (view s) = (assignMetadata s).map view := by
  unfold Mp3Reader.assignMetadata Mp3Metadata.assignMetadata
  refine ite_eq_apply_ite (Option.map view) (fun _ ↦ ?_) fun _ ↦ rfl
  refine ite_eq_apply_ite (Option.map view) (fun _ ↦ ?_) fun _ ↦ rfl
  obtain ⟨-, hnew⟩ := h.replaceMetadata (s.mp3.buildMetadata ++
    List.replicate (s.mp3.buildMetadataLen - s.mp3.buildMetadata.length) 0)
  simp only [Option.map_some, view, Mp3Metadata.replaceMetadata] at hnew ⊢
  rw [dataOf, hnew, Option.elim_some]

def project (result : Bool × Source × Filter) : Bool × Mp3Reader.Mp3State × Filter :=
  (result.1, view result.2.1, result.2.2)

/-- The loop does to the contents of the blocks what the loop of `Mp3Reader` does. -/
theorem Inv.filterLoop_view (h : Inv s) (fuel : ℕ) (filter : Filter) :
    Mp3Reader.filterLoop fuel (view s) filter = project (Mp3Metadata.filterLoop fuel s filter) := by
  induction fuel generalizing s filter with
  | zero => rfl
  | succ fuel ih =>
    have hbegin := h.beginBlock filter
    have hview : Mp3Reader.beginBlock (view s) filter =
        view (Mp3Metadata.beginBlock s filter) := by
      unfold Mp3Reader.beginBlock Mp3Metadata.beginBlock
      exact ite_eq_apply_ite view (fun _ ↦ rfl) fun _ ↦ rfl
    unfold Mp3Reader.filterLoop Mp3Metadata.filterLoop
    rw [hview]
    generalize Mp3Metadata.beginBlock s filter = begun at hbegin
    refine ite_eq_apply_ite project (fun _ ↦ rfl) fun _ ↦ ?_
    refine ite_eq_apply_ite project (fun _ ↦ rfl) fun _ ↦ ?_
    refine ite_eq_apply_ite project (fun _ ↦ ?_) fun _ ↦ ?_
    · exact ih (s := setMp3 s fun mp3 ↦ { mp3 with
        offset := mp3.offset + (s.mp3.inlineMetadataInterval - s.mp3.offset) })
        (h.congr ⟨rfl, rfl, rfl, rfl⟩) _
    refine ite_eq_apply_ite project (fun _ ↦ rfl) fun _ ↦ ?_
    -- the block is complete
    have hcomplete : Inv (setMp3 begun fun mp3 ↦ { mp3 with
        buildMetadata := mp3.buildMetadata ++ (filter.data.drop filter.src).take
          (begun.mp3.buildMetadataLen - begun.mp3.buildMetadata.length - 1) }) :=
      hbegin.congr ⟨rfl, rfl, rfl, rfl⟩
    have hassign := hcomplete.counted.assignMetadata_view
    have hkeeps := fun s' (hs' : Mp3Metadata.assignMetadata _ = some s') ↦
      hcomplete.assignMetadata hs'
    dsimp only [view, setMp3] at hassign hkeeps ⊢
    rw [hassign]
    split
    · rename_i hresult
      rw [Option.map_eq_none_iff] at hresult
      rw [hresult]
      rfl
    · rename_i mp3 hresult
      obtain ⟨s', hs', rfl⟩ := Option.map_eq_some_iff.mp hresult
      rw [hs']
      exact ih (s := setMp3 s' fun mp3 ↦ { mp3 with offset := 0, buildMetadataLen := 0 })
        ((hkeeps s' hs').congr ⟨rfl, rfl, rfl, rfl⟩) _

/-- A buffer is returned with the block that is held. -/
theorem Inv.addBuffer (h : Inv s) :
    Inv { s with
      queue := s.queue ++ [s.mp3.metadata]
      blocks := refbufAddref s.mp3.metadata s.blocks } := by
  constructor
  · intro url hurl
    obtain ⟨hblock, hlive, hoffset⟩ := h.valid url hurl
    obtain ⟨block, hobject⟩ := Option.isSome_iff_exists.mp hlive
    have hnew : (refbufAddref s.mp3.metadata s.blocks).objects url.block =
        some { block with count := block.count + 1 } := by
      rw [refbufAddref, ← hblock, Heap.objects_modify_self, hobject, Option.map_some]
    refine ⟨hblock, Option.isSome_of_eq_some hnew, ?_⟩
    rw [dataOf, hobject] at hoffset
    rw [dataOf, hnew]
    exact hoffset
  · intro id
    have hid := h.counted id
    change countOf (refbufAddref s.mp3.metadata s.blocks) id =
      (s.queue ++ [s.mp3.metadata]).count id + if id = s.mp3.metadata then 1 else 0
    rw [countOf_addref h.counted.live, hid, List.count_append, List.count_singleton]
    simp only [beq_iff_eq]
    split_ifs <;> omega

theorem Inv.filterBuffer (h : Inv s) : Inv (filterBuffer s) := by
  unfold Mp3Metadata.filterBuffer
  split
  · exact h
  · rename_i filter hfilter
    have hloop := Inv.filterLoop (s := { s with filter := none }) (h.congr ⟨rfl, rfl, rfl, rfl⟩)
      (filter.bytes + 1) filter
    split
    · rename_i s' filter' hresult
      rw [hresult] at hloop
      exact hloop.congr ⟨rfl, rfl, rfl, rfl⟩
    · rename_i s' filter' hresult
      rw [hresult] at hloop
      split
      · exact hloop
      · exact hloop.addBuffer

theorem Inv.releaseBuffer (h : Inv s) (i : ℕ) : Inv (releaseBuffer i s) := by
  unfold Mp3Metadata.releaseBuffer
  split
  · exact h
  · rename_i id hid
    obtain ⟨hlt, hget⟩ := List.getElem?_eq_some_iff.mp hid
    have hcounted : Counted { s with
        queue := s.queue.eraseIdx i, blocks := refbufRelease id s.blocks } := by
      intro other
      have hperm := (List.getElem_cons_eraseIdx_perm hlt).count_eq other
      have hother := h.counted other
      rw [List.count_cons, hget] at hperm
      simp only [beq_iff_eq] at hperm
      change countOf (refbufRelease id s.blocks) other =
        (s.queue.eraseIdx i).count other + if other = s.mp3.metadata then 1 else 0
      rw [countOf_release, hother]
      split_ifs at hperm ⊢ <;> omega
    refine ⟨?_, hcounted⟩
    intro url hurl
    obtain ⟨hblock, hlive, hoffset⟩ := h.valid url hurl
    have hlive' : ((refbufRelease id s.blocks).objects url.block).isSome := by
      rw [hblock]
      exact hcounted.live
    refine ⟨hblock, hlive', ?_⟩
    rw [dataOf_release (Option.isSome_iff_ne_none.mp hlive')]
    exact hoffset

/-! ## Titles -/

variable {lib : VorbisComments}

theorem Inv.mp3SetTitle (h : Inv s)
    (hurl : titleLen lib s ≤ maxMetaLen → s.mp3.inlineUrl = none) : Inv (mp3SetTitle lib s) := by
  unfold Mp3Metadata.mp3SetTitle
  split
  · exact h
  · rename_i hlen
    refine ⟨?_, (h.counted.replaceMetadata _).1⟩
    intro url hsome
    exact nomatch (hurl (Nat.le_of_not_lt hlen)).symm.trans hsome

/-- The URL is left behind in the old block. -/
theorem Inv.not_valid_mp3SetTitle (h : Inv s) (hlen : titleLen lib s ≤ maxMetaLen)
    (hurl : s.mp3.inlineUrl ≠ none) : ¬Valid (Mp3Metadata.mp3SetTitle lib s) := by
  obtain ⟨url, hsome⟩ := Option.ne_none_iff_exists'.mp hurl
  obtain ⟨hblock, hlive, -⟩ := h.valid url hsome
  have hreplaced : Mp3Metadata.mp3SetTitle lib s = replaceMetadata (titleBlock lib s) s := by
    rw [Mp3Metadata.mp3SetTitle, if_neg (Nat.not_lt_of_le hlen)]
  intro hvalid
  rw [hreplaced] at hvalid
  exact Heap.ne_next_of_isSome hlive (hvalid url hsome).1

/-- The event makes `mp3_set_title` replace the block. -/
def Replaces (lib : VorbisComments) (s : Source) : Event → Prop
  | .setTitle => titleLen lib s ≤ maxMetaLen
  | .getFilterMeta read => s.running = true ∧ s.filter = none ∧ (completeRead s read).1 = true ∧
      s.mp3.updateMetadata = true ∧ titleLen lib s ≤ maxMetaLen
  | _ => False

/-- `mp3_set_title` replaces the block only if `inline_url` is null. -/
def NoInlineUrl (lib : VorbisComments) (s : Source) (event : Event) : Prop :=
  Replaces lib s event → s.mp3.inlineUrl = none

theorem completeRead_agree (s : Source) (read : ReadOutcome) :
    Agree s (completeRead s read).2 ∧ (completeRead s read).2.vc = s.vc ∧
      (completeRead s read).2.mp3.updateMetadata = s.mp3.updateMetadata := by
  cases read with
  | fail error => exact ⟨⟨rfl, rfl, rfl, rfl⟩, rfl, rfl⟩
  | bytes limit =>
    unfold completeRead
    dsimp only
    split <;> exact ⟨⟨rfl, rfl, rfl, rfl⟩, rfl, rfl⟩

theorem Agree.titleLen_eq {s' : Source} (h : Agree s s') (hvc : s'.vc = s.vc) :
    titleLen lib s' = titleLen lib s := by
  simp only [titleLen, inlineText, h.blocks, h.inlineUrl, hvc]

theorem Agree.mp3SetTitle {s' : Source} (h : Agree s s') (hvc : s'.vc = s.vc) :
    Agree (mp3SetTitle lib s) (mp3SetTitle lib s') := by
  have hblock : titleBlock lib s' = titleBlock lib s := by
    simp only [titleBlock, h.titleLen_eq hvc, inlineText, h.blocks, h.inlineUrl, hvc]
  unfold Mp3Metadata.mp3SetTitle
  rw [h.titleLen_eq hvc]
  split
  · exact h
  · rw [hblock]
    constructor <;> simp only [replaceMetadata, h.blocks, h.queue, h.metadata, h.inlineUrl]

/-- A buffer is complete and there is a new title. -/
theorem getFilterMeta_agree {read : ReadOutcome} (h : Replaces lib s (.getFilterMeta read)) :
    Agree (mp3SetTitle lib s) (getFilterMeta lib read s) := by
  obtain ⟨hrunning, hfilter, hcomplete, hupdate, hlen⟩ := h
  obtain ⟨hagree, hvc, hsame⟩ := completeRead_agree s read
  unfold getFilterMeta
  rw [if_pos ⟨hrunning, hfilter⟩]
  split
  · rename_i s' hread
    rw [hread] at hcomplete
    cases hcomplete
  · rename_i s' hread
    rw [hread] at hagree hvc hsame
    have hdone : Agree s (setReadData s' none) :=
      ⟨hagree.blocks, hagree.queue, hagree.metadata, hagree.inlineUrl⟩
    have htitle : Agree (mp3SetTitle lib s) (mp3SetTitle lib (setReadData s' none)) :=
      hdone.mp3SetTitle hvc
    unfold updateTitle
    rw [if_pos (show (setReadData s' none).mp3.updateMetadata = true from hsame.trans hupdate)]
    exact ⟨htitle.blocks, htitle.queue, htitle.metadata, htitle.inlineUrl⟩

theorem getFilterMeta_agree_of_not {read : ReadOutcome} (h : ¬Replaces lib s (.getFilterMeta read)) :
    Agree s (getFilterMeta lib read s) := by
  obtain ⟨hagree, hvc, hsame⟩ := completeRead_agree s read
  unfold getFilterMeta
  split
  · rename_i hstart
    split
    · rename_i s' hread
      rw [hread] at hagree
      exact hagree
    · rename_i s' hread
      rw [hread] at hagree hvc hsame
      have hdone : Agree s (setReadData s' none) :=
        ⟨hagree.blocks, hagree.queue, hagree.metadata, hagree.inlineUrl⟩
      unfold updateTitle
      split
      · rename_i hupdate
        have hlong : maxMetaLen < titleLen lib (setReadData s' none) := by
          rw [hdone.titleLen_eq hvc]
          by_contra hshort
          refine h ⟨hstart.1, hstart.2, by rw [hread], ?_, Nat.le_of_not_lt hshort⟩
          exact hsame.symm.trans hupdate
        rw [Mp3Metadata.mp3SetTitle, if_pos hlong]
        exact ⟨hdone.blocks, hdone.queue, hdone.metadata, hdone.inlineUrl⟩
      · exact ⟨hdone.blocks, hdone.queue, hdone.metadata, hdone.inlineUrl⟩
  · exact ⟨rfl, rfl, rfl, rfl⟩

theorem Inv.getFilterMeta (h : Inv s) {read : ReadOutcome}
    (hurl : NoInlineUrl lib s (.getFilterMeta read)) : Inv (getFilterMeta lib read s) := by
  by_cases hreplaces : Replaces lib s (.getFilterMeta read)
  · exact (h.mp3SetTitle fun _ ↦ hurl hreplaces).congr (getFilterMeta_agree hreplaces)
  · exact h.congr (getFilterMeta_agree_of_not hreplaces)

theorem Inv.mp3SetTag (h : Inv s) (conv : Bytes → Option Bytes → Option Bytes) (tag : Option Bytes)
    (value : Bytes) (charset : Option Bytes) : Inv (mp3SetTag lib conv tag value charset s) := by
  unfold Mp3Metadata.mp3SetTag
  split <;> exact h.congr ⟨rfl, rfl, rfl, rfl⟩

theorem Inv.not_valid (h : Inv s) (conv : Bytes → Option Bytes → Option Bytes) {event : Event}
    (hurl : ¬NoInlineUrl lib s event) : ¬Valid (next lib conv s event) := by
  rw [NoInlineUrl, Classical.not_imp] at hurl
  obtain ⟨hreplaces, hne⟩ := hurl
  cases event with
  | setTitle => exact h.not_valid_mp3SetTitle hreplaces hne
  | getFilterMeta read =>
    have hnot := h.not_valid_mp3SetTitle hreplaces.2.2.2.2 hne
    have hagree := getFilterMeta_agree hreplaces
    rw [Valid, ← hagree.blocks, ← hagree.metadata, ← hagree.inlineUrl] at hnot
    exact hnot
  | setTag tag value charset => exact absurd hreplaces id
  | filterBuffer => exact absurd hreplaces id
  | releaseBuffer i => exact absurd hreplaces id

end Steps

theorem inv_startSource (interval : ℕ) (stream : Bytes) : Inv (startSource interval stream) := by
  refine ⟨nofun, ?_⟩
  intro id
  change countOf (Heap.empty.alloc ⟨Mp3Reader.initialMetadata, 1⟩) id = 0 + if id = 0 then 1 else 0
  rw [countOf_alloc]
  rfl

/-! ## The result -/

/-- `inline_url` is null or points into the block that is held, in every state that is reached, if and
only if `mp3_set_title` replaces the block only when `inline_url` is null. -/
theorem inline_url_valid (lib : VorbisComments) (conv : Bytes → Option Bytes → Option Bytes)
    (interval : ℕ) (stream : Bytes) (events : List Event) :
    (∀ before, before <+: events → Valid (run (next lib conv) (startSource interval stream) before)) ↔
      Guarded (next lib conv) (NoInlineUrl lib) (startSource interval stream) events := by
  refine forall_prefix_iff_guarded (next lib conv) Inv Valid ?_ (fun s h ↦ h.valid)
    (fun s event h hurl ↦ h.not_valid conv hurl) events (inv_startSource interval stream)
  intro s event h hurl
  cases event with
  | setTag tag value charset => exact h.mp3SetTag conv tag value charset
  | setTitle => exact h.mp3SetTitle hurl
  | getFilterMeta read => exact h.getFilterMeta hurl
  | filterBuffer => exact h.filterBuffer
  | releaseBuffer i => exact h.releaseBuffer i

/-- Audio, a block with a URL, and more audio. -/
def exampleStream : Bytes :=
  List.replicate 1360 0xFF ++ 2 :: bytes "StreamTitle='';StreamUrl='x';\x00\x00\x00" ++
    List.replicate 1407 0xFF

/-- The block is read and its buffer goes; then an admin sets a title, which is taken over with the
next buffer. -/
def titleBehindUrl : List Event :=
  [.getFilterMeta (.bytes 1400), .filterBuffer, .releaseBuffer 0,
    .setTag (some (bytes "title")) (bytes "y") none, .setTag none [] none,
    .getFilterMeta (.bytes 1400)]

/-- `inline_url` points into a block that has been freed. -/
theorem inline_url_dangling :
    (¬∀ lib conv interval stream events,
      Valid (run (next lib conv) (startSource interval stream) events)) ∧
    (run (next listComments fun _ _ ↦ none) (startSource 1360 exampleStream)
      titleBehindUrl).mp3.inlineUrl = some ⟨1, 16⟩ ∧
    (run (next listComments fun _ _ ↦ none) (startSource 1360 exampleStream)
      titleBehindUrl).blocks.objects 1 = none := by
  obtain ⟨hurl, hfreed⟩ : (run (next listComments fun _ _ ↦ none) (startSource 1360 exampleStream)
        titleBehindUrl).mp3.inlineUrl = some ⟨1, 16⟩ ∧
      (run (next listComments fun _ _ ↦ none) (startSource 1360 exampleStream)
        titleBehindUrl).blocks.objects 1 = none := by
    decide +kernel
  refine ⟨fun hall ↦ ?_, hurl, hfreed⟩
  have hvalid := hall listComments (fun _ _ ↦ none) 1360 exampleStream titleBehindUrl
  generalize run (next listComments fun _ _ ↦ none) (startSource 1360 exampleStream) titleBehindUrl = s
    at hurl hfreed hvalid
  obtain ⟨-, hlive, -⟩ := hvalid _ hurl
  rw [hfreed] at hlive
  cases hlive

end Icecast.Format.Mp3Metadata
