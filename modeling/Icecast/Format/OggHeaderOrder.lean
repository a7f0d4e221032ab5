import Icecast.Format.OggHeaderCounts

/-!
# The order of the header pages

The BOS pages stand in front of the other header pages, and both groups are in the order in which they
were attached (`format_ogg_attach_header` in `format_ogg.c`). `header_pages_tail` is the last page of the
list, `bos_end` points to the link behind the last BOS page.
-/

namespace Icecast.Format.OggHeaders

open Lib Lib.LinkedList

/-! ## What has been attached -/

/-- The header list has been left alone: the pages of the list are there, and so are their links. -/
structure SameHeaders (s s' : State) : Prop where
  headerPages : s'.headerPages = s.headerPages
  headerPagesTail : s'.headerPagesTail = s.headerPagesTail
  bosEnd : s'.bosEnd = s.bosEnd
  pages : ∀ id ∈ headers s, (s'.pages.objects id).isSome ∧ nextOf s'.pages id = nextOf s.pages id

/-- The pages attached since the list was freed, each with its kind; meanwhile other parts of the server
have used the buffers. -/
inductive Since : State → List (ℕ × Bool) → Prop
  | freed {s s' : State} (hfree : formatOggFreeHeaders s = some s') : Since s' []
  | attached {s s' : State} {calls : List (ℕ × Bool)} {bos : Bool} (hsince : Since s calls)
      (hattach : formatOggAttachHeader bos s = some s') : Since s' (calls ++ [(s.pages.next, bos)])
  | elsewhere {s s' : State} {calls : List (ℕ × Bool)} (hsince : Since s calls)
      (hsame : SameHeaders s s') : Since s' calls

def bosPages (calls : List (ℕ × Bool)) : List ℕ := (calls.filter (·.2)).map (·.1)

def otherPages (calls : List (ℕ × Bool)) : List ℕ := (calls.filter (!·.2)).map (·.1)

structure HeaderOrder (s : State) (bos others : List ℕ) : Prop where
  chain : Chain (nextOf s.pages) s.headerPages (bos ++ others)
  live : ∀ id ∈ bos ++ others, (s.pages.objects id).isSome
  tail : s.headerPagesTail = (bos ++ others).getLast?
  bosEnd : s.bosEnd = bos.getLast?

/-! ## Links -/

section Links

variable {pages : Heap Page} {page : Page} {last id : ℕ}

theorem nextOf_alloc_self (pages : Heap Page) (page : Page) :
    nextOf (pages.alloc page) pages.next = page.next := by
  rw [nextOf, Heap.objects_alloc_self, Option.bind_some]

theorem isSome_alloc (page : Page) (h : (pages.objects id).isSome) :
    ((pages.alloc page).objects id).isSome := by
  rw [pages.objects_alloc_of_isSome page h]
  exact h

theorem nextOf_linked_last (h : (pages.objects last).isSome) :
    nextOf (linked pages last page) last = some pages.next := by
  obtain ⟨old, hold⟩ := Option.isSome_iff_exists.mp h
  rw [nextOf, linked, Heap.objects_modify_self, pages.objects_alloc_of_isSome page h, hold]
  rfl

theorem nextOf_linked_of_ne (hne : id ≠ last) :
    nextOf (linked pages last page) id = nextOf (pages.alloc page) id :=
  nextOf_congr (Heap.objects_modify_of_ne _ _ hne)

theorem isSome_linked (h : (pages.objects id).isSome) : ((linked pages last page).objects id).isSome := by
  by_cases hid : id = last
  · rw [hid, linked, Heap.objects_modify_self, Option.isSome_map, ← hid]
    exact isSome_alloc page h
  · rw [linked, Heap.objects_modify_of_ne _ _ hid]
    exact isSome_alloc page h

theorem isSome_linked_new (hlast : last ≠ pages.next) :
    ((linked pages last page).objects pages.next).isSome := by
  rw [linked, Heap.objects_modify_of_ne _ _ hlast.symm, Heap.objects_alloc_self]
  rfl

end Links

/-! ## The operations -/

variable {s s' : State} {bos others : List ℕ}

theorem headerOrder_freed (h : formatOggFreeHeaders s = some s') : HeaderOrder s' [] [] := by
  obtain ⟨pages, -, hs'⟩ := Option.bind_eq_some_iff.mp h
  rw [← Option.some.inj hs']
  exact ⟨rfl, nofun, rfl, rfl⟩

theorem HeaderOrder.headers_eq (h : HeaderOrder s bos others) : headers s = bos ++ others :=
  h.chain.walk_eq (length_le_next h.chain.nodup h.live)

theorem HeaderOrder.same (h : HeaderOrder s bos others) (hsame : SameHeaders s s') :
    HeaderOrder s' bos others := by
  have hpages := hsame.pages
  rw [h.headers_eq] at hpages
  refine ⟨?_, fun id hid ↦ (hpages id hid).1, hsame.headerPagesTail.trans h.tail,
    hsame.bosEnd.trans h.bosEnd⟩
  rw [hsame.headerPages]
  exact h.chain.congr fun id hid ↦ (hpages id hid).2

/-- The new page is the last of the BOS pages. -/
theorem HeaderOrder.attachBos (h : HeaderOrder s bos others) :
    ∃ s', attachBos s = some s' ∧ HeaderOrder s' (bos ++ [s.pages.next]) others := by
  unfold OggHeaders.attachBos
  cases hend : s.bosEnd with
  | none =>
    have hnil : bos = [] := by
      rw [h.bosEnd] at hend
      exact List.getLast?_eq_none_iff.mp hend
    have hchain := h.chain
    have hlive := h.live
    have htail := h.tail
    rw [hnil, List.nil_append] at hchain hlive htail
    refine ⟨_, rfl, ?_, ?_, ?_, by simp [hnil]⟩
    · rw [hnil, List.nil_append, List.singleton_append]
      exact hchain.push (nextOf_alloc_self _ _) fun id hid ↦ nextOf_alloc _ (hlive id hid)
    · rw [hnil, List.nil_append, List.singleton_append]
      refine List.forall_mem_cons.mpr ⟨?_, fun id hid ↦ isSome_alloc _ (hlive id hid)⟩
      rw [Heap.objects_alloc_self]
      rfl
    · rw [hnil, List.nil_append, List.singleton_append, ← hchain.head?_eq]
      cases others with
      | nil => simp
      | cons first rest => simp [htail, List.getLast?_cons_cons]
  | some last =>
    obtain ⟨front, hbos⟩ : ∃ front, bos = front ++ [last] := by
      rw [h.bosEnd] at hend
      exact List.getLast?_eq_some_iff.mp hend
    have hlist : bos ++ others = front ++ last :: others := by rw [hbos, List.append_assoc]; rfl
    have hmem : last ∈ bos ++ others := by simp [hlist]
    have hlast := h.live last hmem
    have hne := Heap.ne_next_of_isSome hlast
    have hnodup := h.chain.nodup
    have hchain := h.chain
    rw [hlist] at hnodup hchain
    obtain ⟨page, hpage⟩ := Option.isSome_iff_exists.mp hlast
    have hnew : bos ++ [s.pages.next] ++ others = front ++ last :: s.pages.next :: others := by
      rw [hbos]
      simp
    refine ⟨{ s with
      pages := linked s.pages last ⟨true, page.next, 1⟩
      headerPagesTail := if page.next = none then some s.pages.next else s.headerPagesTail
      bosEnd := some s.pages.next }, ?_, ?_, ?_, ?_, by simp⟩
    · simp [hpage, linked]
    · rw [hnew]
      refine hchain.insert (nextOf_linked_last hlast) ?_ ?_
      · rw [nextOf_linked_of_ne hne.symm, nextOf_alloc_self, nextOf_eq hpage]
      · intro id hid
        have hother : id ≠ last := by
          rintro rfl
          rw [List.nodup_middle] at hnodup
          exact (List.nodup_cons.mp hnodup).1 hid
        have hin : id ∈ bos ++ others := by
          rw [hlist]
          simp only [List.mem_append, List.mem_cons] at hid ⊢
          tauto
        rw [nextOf_linked_of_ne hother]
        exact nextOf_alloc _ (h.live id hin)
    · intro id hid
      have hin : id = s.pages.next ∨ id ∈ bos ++ others := by
        simp only [List.mem_append, List.mem_singleton] at hid ⊢
        tauto
      rcases hin with rfl | hin
      · exact isSome_linked_new hne
      · exact isSome_linked (h.live id hin)
    · have hback : page.next = others.head? := by
        rw [← nextOf_eq hpage]
        exact hchain.suffix.2.head?_eq.symm
      rw [hnew, hback]
      cases others with
      | nil => simp
      | cons first rest => simp [h.tail, hbos]

/-- The new page is the last of all. -/
theorem HeaderOrder.attachOther (h : HeaderOrder s bos others) :
    ∃ s', attachOther s = some s' ∧ HeaderOrder s' bos (others ++ [s.pages.next]) := by
  unfold OggHeaders.attachOther
  have hassoc : bos ++ (others ++ [s.pages.next]) = bos ++ others ++ [s.pages.next] :=
    (List.append_assoc _ _ _).symm
  cases htail : s.headerPagesTail with
  | none =>
    have hnil : bos ++ others = [] := by
      rw [h.tail] at htail
      exact List.getLast?_eq_none_iff.mp htail
    have hchain := h.chain
    rw [hnil, chain_nil] at hchain
    refine ⟨_, rfl, ?_, ?_, ?_, h.bosEnd⟩
    · rw [hassoc, hnil, List.nil_append, hchain, if_pos rfl]
      exact ⟨rfl, nextOf_alloc_self _ _⟩
    · rw [hassoc, hnil, List.nil_append]
      refine List.forall_mem_singleton.mpr ?_
      rw [Heap.objects_alloc_self]
      rfl
    · rw [hassoc, hnil]
      rfl
  | some last =>
    obtain ⟨front, hlist⟩ : ∃ front, bos ++ others = front ++ [last] := by
      rw [h.tail] at htail
      exact List.getLast?_eq_some_iff.mp htail
    have hmem : last ∈ bos ++ others := by simp [hlist]
    have hlast := h.live last hmem
    have hne := Heap.ne_next_of_isSome hlast
    have hchain := h.chain
    have hnodup := hchain.nodup
    rw [hlist] at hchain hnodup
    have hsome : s.headerPages ≠ none := by
      rw [← hchain.head?_eq]
      cases front <;> simp
    obtain ⟨page, hpage⟩ := Option.isSome_iff_exists.mp hlast
    refine ⟨{ s with
      pages := linked s.pages last ⟨false, none, 1⟩
      headerPagesTail := some s.pages.next }, ?_, ?_, ?_, ?_, h.bosEnd⟩
    · simp [hpage, hsome, linked]
    · rw [hassoc, hlist]
      refine hchain.snoc (nextOf_linked_last hlast) ?_ ?_
      · rw [nextOf_linked_of_ne hne.symm, nextOf_alloc_self]
      · intro id hid
        have hother : id ≠ last := by
          rintro rfl
          exact (List.nodup_append.mp hnodup).2.2 id hid id List.mem_cons_self rfl
        rw [nextOf_linked_of_ne hother]
        exact nextOf_alloc _ (h.live id (hlist ▸ List.mem_append_left _ hid))
    · rw [hassoc]
      intro id hid
      rcases List.mem_append.mp hid with hold | hnew
      · exact isSome_linked (h.live id hold)
      · rw [List.mem_singleton.mp hnew]
        exact isSome_linked_new hne
    · rw [hassoc, List.getLast?_concat]

theorem HeaderOrder.formatOggAttachHeader (h : HeaderOrder s bos others) (kind : Bool) :
    ∃ s', formatOggAttachHeader kind s = some s' ∧
      HeaderOrder s' (if kind then bos ++ [s.pages.next] else bos)
        (if kind then others else others ++ [s.pages.next]) := by
  cases kind with
  | true => exact h.attachBos
  | false => exact h.attachOther

/-! ## What the other parts of the server do -/

/-- A data buffer that is completed takes references and changes no link. -/
theorem HeaderOrder.sameHeaders_completeBuffer (h : HeaderOrder s bos others) :
    ∃ s', completeBuffer s = some s' ∧ SameHeaders s s' := by
  obtain ⟨pages', hloop, hreferenced⟩ := addrefHeaders_spec h.chain h.live
    (length_le_next h.chain.nodup h.live)
  refine ⟨{ s with pages := pages', data := s.data.alloc ⟨s.headerPages, 1⟩ }, ?_, rfl, rfl, rfl, ?_⟩
  · simp [completeBuffer, hloop]
  · intro id hid
    rw [h.headers_eq] at hid
    obtain ⟨page, hpage⟩ := Option.isSome_iff_exists.mp (h.live id hid)
    dsimp only
    rw [nextOf, nextOf, hreferenced.objects, hpage, Option.map_some, if_pos hid]
    exact ⟨rfl, rfl⟩

/-- Two states in which the counts are right have the same links if they have the same list. -/
theorem Layout.sameHeaders {list : List ℕ} {held held' : ℕ → List ℕ} (h : Layout s list held)
    (h' : Layout s' list held') (hbosEnd : s'.bosEnd = s.bosEnd) : SameHeaders s s' := by
  have hfirst : s'.headerPages = s.headerPages :=
    h'.header_chain.head?_eq.symm.trans h.header_chain.head?_eq
  refine ⟨hfirst, h'.tail.trans h.tail.symm, hbosEnd, ?_⟩
  intro id hid
  rw [h.headers_eq] at hid
  refine ⟨h'.header_live id hid, ?_⟩
  obtain ⟨front, back, hlist⟩ := List.append_of_mem hid
  have hchain := h.header_chain
  have hchain' := h'.header_chain
  rw [hlist] at hchain hchain'
  exact hchain'.suffix.2.head?_eq.symm.trans hchain.suffix.2.head?_eq

theorem bosEnd_releaseData {id : ℕ} (h : releaseData id s = some s') : s'.bosEnd = s.bosEnd := by
  unfold releaseData at h
  split at h
  · rw [← Option.some.inj h]
  · split at h
    · obtain ⟨pages, -, hs'⟩ := Option.bind_eq_some_iff.mp h
      rw [← Option.some.inj hs']
    · rw [← Option.some.inj h]

/-- While the counts are right, the release of a data buffer keeps the pages of the list. -/
theorem Layout.sameHeaders_releaseData {list : List ℕ} {held : ℕ → List ℕ} (h : Layout s list held)
    (id : ℕ) : ∃ s', OggHeaders.releaseData id s = some s' ∧ SameHeaders s s' := by
  obtain ⟨s', held', hrelease, h', -⟩ := h.releaseData id
  exact ⟨s', hrelease, h.sameHeaders h' (bosEnd_releaseData hrelease)⟩

/-! ## Every sequence of calls -/

theorem bosPages_concat (calls : List (ℕ × Bool)) (id : ℕ) (kind : Bool) :
    bosPages (calls ++ [(id, kind)]) = if kind then bosPages calls ++ [id] else bosPages calls := by
  cases kind <;> simp [bosPages]

theorem otherPages_concat (calls : List (ℕ × Bool)) (id : ℕ) (kind : Bool) :
    otherPages (calls ++ [(id, kind)]) = if kind then otherPages calls else otherPages calls ++ [id] := by
  cases kind <;> simp [otherPages]

/-- The list is in order after any calls, and the next call finds what its pointers point to. -/
theorem header_page_order {s : State} {calls : List (ℕ × Bool)} (h : Since s calls) :
    HeaderOrder s (bosPages calls) (otherPages calls) ∧
      ∀ kind, (formatOggAttachHeader kind s).isSome := by
  have horder : HeaderOrder s (bosPages calls) (otherPages calls) := by
    induction h with
    | freed hfree => exact headerOrder_freed hfree
    | @attached s s' calls bos hsince hattach ih =>
      obtain ⟨next, hnext, hordered⟩ := ih.formatOggAttachHeader bos
      rw [hattach] at hnext
      rw [bosPages_concat, otherPages_concat, Option.some.inj hnext]
      exact hordered
    | elsewhere hsince hsame ih => exact ih.same hsame
  refine ⟨horder, fun kind ↦ ?_⟩
  obtain ⟨next, hnext, -⟩ := horder.formatOggAttachHeader kind
  rw [hnext]
  rfl

def afterCalls (kinds : List Bool) : State :=
  kinds.foldl (fun s kind ↦ (formatOggAttachHeader kind s).getD s) start

/-- Two BOS pages that come late. -/
theorem header_page_order_late_bos :
    HeaderOrder (afterCalls [false, true, false, true]) [1, 3] [0, 2] := by
  have hfreed : Since start [] := .freed (rfl : formatOggFreeHeaders start = some start)
  have hfirst : Since (afterCalls [false]) [(0, false)] := .attached hfreed rfl
  have hsecond : Since (afterCalls [false, true]) [(0, false), (1, true)] := .attached hfirst rfl
  have hthird : Since (afterCalls [false, true, false]) [(0, false), (1, true), (2, false)] :=
    .attached hsecond rfl
  have hfourth : Since (afterCalls [false, true, false, true])
      [(0, false), (1, true), (2, false), (3, true)] := .attached hthird rfl
  exact (header_page_order hfourth).1

end Icecast.Format.OggHeaders
