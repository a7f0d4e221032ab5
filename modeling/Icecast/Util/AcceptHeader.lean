import Icecast.Util.AcceptTokens

/-!
# When the Accept header can be parsed safely

The words of a header make up its items, each with its parameters. There are two ways to leave memory. A
quoted string that ends the header makes the tokenizer look behind the terminating zero. A parameter `q`
without a value makes the selection read a number from a null pointer. Every other header is handled within
the string and the two arrays.
-/

namespace Icecast.Util.AcceptHeader

open AcceptParser AcceptTokens Lib.Checked
open Format.Comments (Bytes bytes)

/-! ## Items -/

/-- What has been read: items that are complete, and the parameters of the one that is not. -/
structure Draft (α : Type*) where
  done : List (List (Kv α))
  earlier : List (Kv α)
  current : Kv α

namespace Draft

variable {α : Type*}

def start : Draft α := ⟨[], [], ⟨none, none⟩⟩

/-- Each item is a list of its name and its parameters. -/
def items (draft : Draft α) : List (List (Kv α)) := draft.done ++ [draft.earlier ++ [draft.current]]

def place (draft : Draft α) (word : Option α) : Option (Draft α) :=
  (draft.current.place word).map fun current ↦ { draft with current := current }

def separate (draft : Draft α) (separator : UInt8) : Draft α :=
  if separator = 44 then ⟨draft.items, [], ⟨none, none⟩⟩
  else if separator = 59 then ⟨draft.done, draft.earlier ++ [draft.current], ⟨none, none⟩⟩
  else draft

end Draft

/-- A header is rejected, it runs on behind its end, or its items are known. -/
inductive Reading where
  | rejected
  | runsOn
  | accepted (items : List (List (Kv Bytes)))

def readHeader (signed : Bool) (text : Bytes) (draft : Draft Bytes) : Reading :=
  match _ : lexeme signed text with
  | .illegal => .rejected
  | .quotedEnd => .runsOn
  | .last word =>
    match draft.place word with
    | none => .rejected
    | some draft => .accepted draft.items
  | .piece word separator rest =>
    match draft.place word with
    | none => .rejected
    | some draft => readHeader signed rest (draft.separate separator)
termination_by text.length
decreasing_by exact (piece_of_lexeme ‹_›).2.2

def isQ (entry : Kv Bytes) : Bool := entry.key.any (strcasecmp · (bytes "q"))

/-- If the item has a name, the first of its parameters that is called `q` has a value. -/
def HasQuality : List (Kv Bytes) → Prop
  | [] => True
  | name :: params => name.key ≠ none → ∀ entry ∈ params.find? isQ, entry.value ≠ none

/-- The header does not end with a quoted string that has an escape in it, as far as it is read, and if it
is accepted, every item has its quality. -/
def SafeHeader (signed : Bool) (text : Bytes) : Prop :=
  match readHeader signed text Draft.start with
  | .rejected => True
  | .runsOn => False
  | .accepted items => ∀ item ∈ items, HasQuality item

/-! ## The arrays -/

section Arrays

variable {α : Type*} {kva : Kva} {draft : Draft ℕ}

/-- Where the items begin in the list of all entries. -/
def starts (items : List (List α)) : List ℕ :=
  (List.range items.length).map fun i ↦ (items.take i).flatten.length

theorem starts_append (items : List (List α)) (item : List α) :
    starts (items ++ [item]) = starts items ++ [items.flatten.length] := by
  unfold starts
  rw [List.length_append, List.length_singleton, List.range_succ, List.map_append, List.map_singleton,
    List.take_left]
  congr 1
  apply List.map_congr_left
  intro i hi
  rw [List.take_append_of_le_length (List.mem_range.mp hi).le]

/-- The arrays hold the entries and the starts of the items. What is not used of them is zero. -/
structure Arrays (kva : Kva) (items : List (List (Kv ℕ))) : Prop where
  kv : ∃ n, kva.kv = items.flatten ++ List.replicate n ⟨none, none⟩
  kvlen : kva.kvlen = items.flatten.length
  index : ∃ n, kva.index = starts items ++ List.replicate n 0
  indexlen : kva.indexlen = items.length
  named : ∀ item ∈ items, item ≠ []

/-- There is room for one more in each of the arrays. -/
def Roomy (kva : Kva) : Prop := kva.kvlen < kva.kv.length ∧ kva.indexlen < kva.index.length

theorem arrays_start : Arrays Kva.start Draft.start.items :=
  ⟨⟨7, rfl⟩, rfl, ⟨7, rfl⟩, rfl, by simp [Draft.items, Draft.start]⟩

theorem resizeArray_spec (unused : α) (used : List α) (n inc : ℕ) (hinc : 0 < inc) :
    ∃ m, resizeArray unused (used ++ List.replicate n unused) used.length inc =
      used ++ List.replicate (m + 1) unused := by
  unfold resizeArray
  split
  · rename_i hlt
    rw [List.length_append, List.length_replicate] at hlt
    exact ⟨n - 1, by rw [Nat.sub_add_cancel (by omega)]⟩
  · refine ⟨n + inc - 1, ?_⟩
    rw [List.append_assoc, List.replicate_append_replicate, Nat.sub_add_cancel (by omega)]

theorem Arrays.resize {items : List (List (Kv ℕ))} (h : Arrays kva items) :
    Arrays kva.resize items ∧ Roomy kva.resize := by
  obtain ⟨n, hkv⟩ := h.kv
  obtain ⟨m, hindex⟩ := h.index
  obtain ⟨n', hkv'⟩ := resizeArray_spec ⟨none, none⟩ items.flatten n httpCnKvIncrement (by decide)
  obtain ⟨m', hindex'⟩ := resizeArray_spec 0 (starts items) m httpCnIndexIncrement (by decide)
  have hlength : (starts items).length = items.length := by
    rw [starts, List.length_map, List.length_range]
  have hentries : kva.resize.kv = items.flatten ++ List.replicate (n' + 1) ⟨none, none⟩ := by
    rw [← hkv', Kva.resize, hkv, h.kvlen]
  have hplaces : kva.resize.index = starts items ++ List.replicate (m' + 1) 0 := by
    rw [← hindex', Kva.resize, hindex, h.indexlen, hlength]
  refine ⟨⟨⟨n' + 1, hentries⟩, h.kvlen, ⟨m' + 1, hplaces⟩, h.indexlen, h.named⟩, ?_, ?_⟩
  · rw [hentries, List.length_append, List.length_replicate, ← h.kvlen]
    exact Nat.lt_add_of_pos_right (Nat.succ_pos n')
  · rw [hplaces, List.length_append, List.length_replicate, hlength, ← h.indexlen]
    exact Nat.lt_add_of_pos_right (Nat.succ_pos m')

/-- The entries of a draft, with the current one at the end. -/
theorem flatten_items (draft : Draft α) :
    draft.items.flatten = (draft.done.flatten ++ draft.earlier) ++ [draft.current] := by
  rw [Draft.items, List.flatten_append, List.flatten_singleton, List.append_assoc]

theorem starts_items (draft : Draft α) :
    starts draft.items = starts draft.done ++ [draft.done.flatten.length] :=
  starts_append draft.done _

/-- Only complete items could be without an entry. -/
theorem named_items {draft : Draft α} (h : ∀ item ∈ draft.done, item ≠ []) :
    ∀ item ∈ draft.items, item ≠ [] := by
  intro item hitem
  rcases List.mem_append.mp hitem with hitem | hitem
  · exact h item hitem
  · rw [List.mem_singleton.mp hitem]
    simp

theorem Arrays.named_done (h : Arrays kva draft.items) : ∀ item ∈ draft.done, item ≠ [] :=
  fun item hitem ↦ h.named item (List.mem_append_left _ hitem)

/-- The word goes to the current entry, if there is room in it. -/
theorem Arrays.fill (h : Arrays kva draft.items) (hroomy : Roomy kva) (out : Option ℕ) :
    match draft.place out with
    | none => kva.fill out = .ok none
    | some after => ∃ filled, kva.fill out = .ok (some filled) ∧ Arrays filled after.items ∧
        Roomy filled := by
  obtain ⟨n, hkv⟩ := h.kv
  have hlast : kva.kvlen - 1 = (draft.done.flatten ++ draft.earlier).length := by
    rw [h.kvlen, flatten_items, List.length_append, List.length_singleton, Nat.add_sub_cancel]
  have hentries : kva.kv = (draft.done.flatten ++ draft.earlier) ++
      draft.current :: List.replicate n ⟨none, none⟩ := by
    rw [hkv, flatten_items, List.append_assoc, List.singleton_append]
  have hcurrent : loadKv kva.kv (kva.kvlen - 1) = .ok draft.current := by
    apply load_of_drop
    rw [hlast, hentries, List.drop_left]
  unfold Kva.fill Draft.place
  rw [hcurrent]
  simp only [ok_bind]
  cases hplace : draft.current.place out with
  | none => rfl
  | some entry =>
    refine ⟨_, rfl, ⟨⟨n, ?_⟩, ?_, ?_, ?_, named_items h.named_done⟩, ?_⟩
    · simp only [flatten_items, hlast, hentries]
      rw [List.set_append_right _ _ (Nat.le_refl _), Nat.sub_self, List.set_cons_zero]
      simp
    · rw [flatten_items, List.length_append, List.length_singleton]
      exact h.kvlen.trans (by rw [flatten_items, List.length_append, List.length_singleton])
    · have hindex := h.index
      rw [starts_items] at hindex
      rw [starts_items]
      exact hindex
    · have hindexlen := h.indexlen
      rw [Draft.items, List.length_append] at hindexlen
      rw [Draft.items, List.length_append]
      exact hindexlen
    · exact ⟨by rw [List.length_set]; exact hroomy.1, hroomy.2⟩

/-- One more entry is used, and it is an empty one. -/
theorem Arrays.kv_succ (h : Arrays kva draft.items) (hroomy : Roomy kva) :
    ∃ n, kva.kv = (draft.items.flatten ++ [⟨none, none⟩]) ++ List.replicate n ⟨none, none⟩ := by
  obtain ⟨n, hkv⟩ := h.kv
  have hlt := hroomy.1
  rw [hkv, h.kvlen, List.length_append, List.length_replicate] at hlt
  refine ⟨n - 1, ?_⟩
  rw [hkv, List.append_assoc, List.singleton_append, ← List.replicate_succ,
    Nat.sub_add_cancel (by omega)]

/-- A comma begins an item, a semicolon an entry. -/
theorem Arrays.separate (h : Arrays kva draft.items) (hroomy : Roomy kva) {separator : UInt8}
    (hseparator : isSeparator separator = true) :
    ∃ after, kva.separate (tokenizerResFromChar separator) = .ok after ∧
      Arrays after (draft.separate separator).items := by
  obtain ⟨n, hkv⟩ := h.kv_succ hroomy
  rcases isSeparator_iff.mp hseparator with rfl | rfl | rfl
  · exact ⟨kva, rfl, h⟩
  · have hitems : (draft.separate 44).items = draft.items ++ [[⟨none, none⟩]] := rfl
    obtain ⟨m, hindex⟩ := h.index
    have hlength : (starts draft.items).length = draft.items.length := by
      rw [starts, List.length_map, List.length_range]
    have hlt := hroomy.2
    refine ⟨_, if_pos hlt, ?_⟩
    rw [hindex, h.indexlen, List.length_append, hlength, List.length_replicate] at hlt
    obtain ⟨m, rfl⟩ : ∃ k, m = k + 1 := ⟨m - 1, by omega⟩
    rw [hitems]
    refine ⟨⟨n, ?_⟩, ?_, ⟨m, ?_⟩, ?_, hitems ▸ named_items h.named⟩
    · rw [List.flatten_append, List.flatten_singleton]
      exact hkv
    · rw [List.flatten_append, List.length_append, ← h.kvlen]
      rfl
    · dsimp only
      rw [starts_append, hindex, h.indexlen, ← hlength, List.set_append_right _ _ (Nat.le_refl _),
        Nat.sub_self, List.replicate_succ, List.set_cons_zero, h.kvlen, List.append_assoc,
        List.singleton_append]
    · rw [List.length_append, ← h.indexlen]
      rfl
  · have hitems : (draft.separate 59).items =
        draft.done ++ [(draft.earlier ++ [draft.current]) ++ [⟨none, none⟩]] := rfl
    have hflatten : (draft.separate 59).items.flatten = draft.items.flatten ++ [⟨none, none⟩] := by
      rw [hitems]
      simp only [Draft.items, List.flatten_append, List.flatten_singleton, List.append_assoc]
    refine ⟨_, rfl, ⟨n, ?_⟩, ?_, ?_, ?_, named_items h.named_done⟩
    · rw [hflatten]
      exact hkv
    · rw [hflatten, List.length_append, ← h.kvlen]
      rfl
    · have hindex := h.index
      rw [starts_items] at hindex
      rw [hitems, starts_append]
      exact hindex
    · have hindexlen := h.indexlen
      rw [Draft.items, List.length_append] at hindexlen
      rw [hitems, List.length_append]
      exact hindexlen

end Arrays

/-! ## Words and pointers -/

section Pointers

variable {α β : Type*}

def mapEntry (f : α → β) (entry : Kv α) : Kv β := ⟨entry.key.map f, entry.value.map f⟩

def mapItems (f : α → β) (items : List (List (Kv α))) : List (List (Kv β)) :=
  items.map (List.map (mapEntry f))

def Draft.map (f : α → β) (draft : Draft α) : Draft β :=
  ⟨mapItems f draft.done, draft.earlier.map (mapEntry f), mapEntry f draft.current⟩

theorem Draft.items_map (f : α → β) (draft : Draft α) :
    (draft.map f).items = mapItems f draft.items := by
  simp [Draft.items, Draft.map, mapItems]

theorem Draft.place_map (f : α → β) (draft : Draft α) (word : Option α) :
    (draft.map f).place (word.map f) = (draft.place word).map (Draft.map f) := by
  obtain ⟨done, earlier, key, value⟩ := draft
  cases key with
  | none => rfl
  | some key =>
    cases value with
    | none => rfl
    | some value => rfl

theorem Draft.separate_map (f : α → β) (draft : Draft α) (separator : UInt8) :
    (draft.map f).separate separator = (draft.separate separator).map f := by
  unfold Draft.separate
  split
  · rw [Draft.items_map]
    rfl
  · split
    · simp [Draft.map, mapEntry]
    · rfl

/-- All pointers of the items have the property. -/
def EveryPointer (P : α → Prop) (items : List (List (Kv α))) : Prop :=
  ∀ item ∈ items, ∀ entry ∈ item, (∀ ptr ∈ entry.key, P ptr) ∧ ∀ ptr ∈ entry.value, P ptr

theorem EveryPointer.mono {P Q : α → Prop} {items : List (List (Kv α))} (h : EveryPointer P items)
    (hle : ∀ ptr, P ptr → Q ptr) : EveryPointer Q items := by
  intro item hitem entry hentry
  obtain ⟨hkey, hvalue⟩ := h item hitem entry hentry
  exact ⟨fun ptr hptr ↦ hle ptr (hkey ptr hptr), fun ptr hptr ↦ hle ptr (hvalue ptr hptr)⟩

theorem mapItems_congr {f g : α → β} {items : List (List (Kv α))}
    (h : EveryPointer (fun ptr ↦ f ptr = g ptr) items) : mapItems f items = mapItems g items := by
  apply List.map_congr_left
  intro item hitem
  apply List.map_congr_left
  intro entry hentry
  obtain ⟨hkey, hvalue⟩ := h item hitem entry hentry
  unfold mapEntry
  rw [Option.map_congr hkey, Option.map_congr hvalue]

theorem everyPointer_items {P : α → Prop} {draft : Draft α} :
    EveryPointer P draft.items ↔ EveryPointer P draft.done ∧
      (∀ entry ∈ draft.earlier, (∀ ptr ∈ entry.key, P ptr) ∧ ∀ ptr ∈ entry.value, P ptr) ∧
      (∀ ptr ∈ draft.current.key, P ptr) ∧ ∀ ptr ∈ draft.current.value, P ptr := by
  simp only [EveryPointer, Draft.items, List.mem_append, List.mem_singleton]
  constructor
  · intro h
    exact ⟨fun item hitem ↦ h item (Or.inl hitem),
      fun entry hentry ↦ h _ (Or.inr rfl) entry (by simp [hentry]),
      h _ (Or.inr rfl) draft.current (by simp)⟩
  · rintro ⟨hdone, hearlier, hcurrent⟩ item (hitem | rfl) entry hentry
    · exact hdone item hitem entry hentry
    · rcases List.mem_append.mp hentry with hentry | hentry
      · exact hearlier entry hentry
      · rw [List.mem_singleton.mp hentry]
        exact hcurrent

theorem EveryPointer.place {P : α → Prop} {draft after : Draft α} {word : Option α}
    (h : EveryPointer P draft.items) (hword : ∀ ptr ∈ word, P ptr)
    (hplace : draft.place word = some after) : EveryPointer P after.items := by
  rw [everyPointer_items] at h
  obtain ⟨done, earlier, key, value⟩ := draft
  rw [everyPointer_items]
  cases key with
  | none =>
    rw [← Option.some.inj hplace]
    exact ⟨h.1, h.2.1, hword, h.2.2.2⟩
  | some key =>
    cases value with
    | none =>
      rw [← Option.some.inj hplace]
      exact ⟨h.1, h.2.1, h.2.2.1, hword⟩
    | some value => cases hplace

theorem EveryPointer.separate {P : α → Prop} {draft : Draft α} (h : EveryPointer P draft.items)
    (separator : UInt8) : EveryPointer P (draft.separate separator).items := by
  have hparts := everyPointer_items.mp h
  rw [everyPointer_items]
  unfold Draft.separate
  split
  · exact ⟨h, by simp, by simp, by simp⟩
  · split
    · refine ⟨hparts.1, ?_, by simp, by simp⟩
      intro entry hentry
      rcases List.mem_append.mp hentry with hentry | hentry
      · exact hparts.2.1 entry hentry
      · rw [List.mem_singleton.mp hentry]
        exact hparts.2.2
    · exact hparts

/-- The pointers lead to the words, and each of the strings ends before this place. -/
structure Points (memory : Bytes) (bound : ℕ) (draft : Draft ℕ) (words : Draft Bytes) : Prop where
  words : words = draft.map (textAt memory)
  ends : EveryPointer (EndsBefore memory bound) draft.items

theorem Draft.map_congr {f g : α → β} {draft : Draft α}
    (h : EveryPointer (fun ptr ↦ f ptr = g ptr) draft.items) : draft.map f = draft.map g := by
  obtain ⟨hdone, hearlier, hkey, hvalue⟩ := everyPointer_items.mp h
  have hentries : draft.earlier.map (mapEntry f) = draft.earlier.map (mapEntry g) := by
    apply List.map_congr_left
    intro entry hentry
    unfold mapEntry
    rw [Option.map_congr (hearlier entry hentry).1, Option.map_congr (hearlier entry hentry).2]
  have hcurrent : mapEntry f draft.current = mapEntry g draft.current := by
    unfold mapEntry
    rw [Option.map_congr hkey, Option.map_congr hvalue]
  unfold Draft.map
  rw [mapItems_congr hdone, hentries, hcurrent]

/-- What is written behind the strings does not matter to them. -/
theorem Points.kept {memory after : Bytes} {bound further : ℕ} {draft : Draft ℕ} {words : Draft Bytes}
    (h : Points memory bound draft words) (hkept : after.take bound = memory.take bound)
    (hle : bound ≤ further) : Points after further draft words := by
  refine ⟨?_, h.ends.mono fun ptr hends ↦ hends.congr hkept hle⟩
  rw [h.words]
  exact Draft.map_congr (h.ends.mono fun ptr hends ↦ (textAt_congr hkept hends).symm)

/-- The word is placed in the same way as the pointer to it. -/
theorem Points.place {memory : Bytes} {bound : ℕ} {draft : Draft ℕ} {words : Draft Bytes}
    (h : Points memory bound draft words) {out : Option ℕ} (hends : ∀ ptr ∈ out, EndsBefore memory bound ptr) :
    match draft.place out with
    | none => words.place (out.map (textAt memory)) = none
    | some after => ∃ placed, words.place (out.map (textAt memory)) = some placed ∧
        Points memory bound after placed := by
  rw [h.words, Draft.place_map]
  cases hplace : draft.place out with
  | none => rfl
  | some after => exact ⟨after.map (textAt memory), rfl, rfl, h.ends.place hends hplace⟩

theorem Points.separate {memory : Bytes} {bound : ℕ} {draft : Draft ℕ} {words : Draft Bytes}
    (h : Points memory bound draft words) (separator : UInt8) :
    Points memory bound (draft.separate separator) (words.separate separator) := by
  refine ⟨?_, h.ends.separate separator⟩
  rw [h.words, Draft.separate_map]

end Pointers

/-! ## The loop over the tokens -/

section Loop

variable {signed : Bool} {memory : Bytes} {next : ℕ} {kva : Kva}

theorem parseLoop_of_error {fault : Fault} (h : tokenizer signed memory next = .error fault) :
    parseLoop signed memory next kva = .error fault := by
  rw [parseLoop.eq_def]
  split
  · rename_i hrun
    rw [h] at hrun
    rw [Except.error.inj hrun]
  · rename_i hrun
    rw [h] at hrun
    cases hrun

/-- One turn of the loop. -/
theorem parseLoop_of_token {token : Token} (h : tokenizer signed memory next = .ok token) (kva : Kva) :
    parseLoop signed memory next kva =
      if token.result = .ilseq then .ok none
      else
        match kva.resize.fill token.out with
        | .error fault => .error fault
        | .ok none => .ok none
        | .ok (some kva) =>
          if token.result = .eos then .ok (some (token.memory, kva))
          else
            match kva.separate token.result with
            | .error fault => .error fault
            | .ok kva => parseLoop signed token.memory token.next kva := by
  rw [parseLoop.eq_def]
  split
  · rename_i hrun
    rw [h] at hrun
    cases hrun
  · rename_i found hrun
    rw [h] at hrun
    rw [← Except.ok.inj hrun]
    rfl

/-- The loop over the tokens agrees with the header: it returns nothing, it looks behind the string, or the
arrays lead to the items. -/
def Parses (run : Run (Option (Bytes × Kva))) : Reading → Prop
  | .rejected => run = .ok none
  | .runsOn => run = .error .readPast
  | .accepted items => ∃ memory kva draft, run = .ok (some (memory, kva)) ∧
      Arrays kva (Draft.items draft) ∧ items = mapItems (textAt memory) draft.items ∧
      EveryPointer (EndsBefore memory memory.length) draft.items

/-- A token has been placed, and so has the word it points to. -/
theorem placed {bound : ℕ} {draft : Draft ℕ} {words : Draft Bytes} {word : Option Bytes} {token : Token}
    (harrays : Arrays kva draft.items) (hpoints : Points memory next draft words)
    (hwritten : Written memory next bound word token) (hle : next ≤ bound) :
    match words.place word with
    | none => kva.resize.fill token.out = .ok none
    | some after => ∃ filled pointers, kva.resize.fill token.out = .ok (some filled) ∧
        Arrays filled (Draft.items pointers) ∧ Roomy filled ∧
        Points token.memory bound pointers after := by
  have hfill := harrays.resize.1.fill harrays.resize.2 token.out
  have hplace := (hpoints.kept hwritten.kept hle).place hwritten.ends
  rw [hwritten.word] at hplace
  cases hpointers : draft.place token.out with
  | none =>
    rw [hpointers] at hfill hplace
    rw [hplace]
    exact hfill
  | some pointers =>
    rw [hpointers] at hfill hplace
    obtain ⟨filled, hrun, hafter, hroomy⟩ := hfill
    obtain ⟨after, hword, hled⟩ := hplace
    rw [hword]
    exact ⟨filled, pointers, hrun, hafter, hroomy, hled⟩

theorem parses {text : Bytes} {draft : Draft ℕ} {words : Draft Bytes}
    (hmemory : memory.drop next = text ++ [0]) (hclean : 0 ∉ text)
    (harrays : Arrays kva draft.items) (hpoints : Points memory next draft words) :
    Parses (parseLoop signed memory next kva) (readHeader signed text words) := by
  have htoken : Tokenizes memory next (tokenizer signed memory next) (lexeme signed text) :=
    tokenizes hmemory hclean
  have hle : next ≤ memory.length := by
    have hlength := congrArg List.length hmemory
    rw [List.length_drop, List.length_append, List.length_singleton] at hlength
    omega
  fun_induction readHeader signed text words generalizing memory next kva draft with
  | case1 text words hlexeme =>
    rw [hlexeme] at htoken
    obtain ⟨token, hrun, hresult⟩ := htoken
    exact (parseLoop_of_token hrun kva).trans (if_pos hresult)
  | case2 text words hlexeme =>
    rw [hlexeme] at htoken
    exact parseLoop_of_error htoken
  | case3 text words word hlexeme hplace =>
    rw [hlexeme] at htoken
    obtain ⟨token, hrun, hresult, hwritten⟩ := htoken
    have hplaced := placed harrays hpoints hwritten hle
    rw [hplace] at hplaced
    have hparse := parseLoop_of_token hrun kva
    rw [if_neg (by rw [hresult]; decide), hplaced] at hparse
    exact hparse
  | case4 text words word hlexeme after hplace =>
    rw [hlexeme] at htoken
    obtain ⟨token, hrun, hresult, hwritten⟩ := htoken
    have hplaced := placed harrays hpoints hwritten hle
    rw [hplace] at hplaced
    obtain ⟨filled, pointers, hfill, hafter, hroomy, hled⟩ := hplaced
    have hparse := parseLoop_of_token hrun kva
    rw [if_neg (by rw [hresult]; decide), hfill] at hparse
    dsimp only at hparse
    rw [if_pos hresult] at hparse
    refine ⟨token.memory, filled, pointers, hparse, hafter, ?_, ?_⟩
    · rw [hled.words, Draft.items_map]
    · rw [hwritten.length]
      exact hled.ends
  | case5 text words word separator rest hlexeme hplace =>
    have hlegal := tokenizerResFromChar_of_separator (piece_of_lexeme hlexeme).1
    rw [hlexeme] at htoken
    obtain ⟨token, hrun, hresult, hnext, hfar, hwritten⟩ := htoken
    have hplaced := placed harrays hpoints hwritten hfar
    rw [hplace] at hplaced
    have hparse := parseLoop_of_token hrun kva
    rw [hresult, if_neg hlegal.1, hplaced] at hparse
    exact hparse
  | case6 text words word separator rest hlexeme after hplace ih =>
    obtain ⟨hseparator, hsuffix, -⟩ := piece_of_lexeme hlexeme
    have hlegal := tokenizerResFromChar_of_separator hseparator
    have hrest := zero_not_mem_of_suffix hclean hsuffix
    rw [hlexeme] at htoken
    obtain ⟨token, hrun, hresult, hnext, hfar, hwritten⟩ := htoken
    have hplaced := placed harrays hpoints hwritten hfar
    rw [hplace] at hplaced
    obtain ⟨filled, pointers, hfill, hafter, hroomy, hled⟩ := hplaced
    obtain ⟨separated, hseparate, harranged⟩ := hafter.separate hroomy hseparator
    have hparse := parseLoop_of_token hrun kva
    rw [hresult, if_neg hlegal.1, hfill] at hparse
    dsimp only at hparse
    rw [if_neg hlegal.2, hseparate] at hparse
    rw [hparse]
    refine ih hnext hrest harranged (hled.separate separator) (tokenizes hnext hrest) ?_
    have hlength := congrArg List.length hnext
    rw [List.length_drop, List.length_append, List.length_singleton] at hlength
    omega

end Loop

/-! ## The selection -/

section Selection

variable {memory : Bytes} {kva : Kva} {items : List (List (Kv ℕ))} {item : List (Kv ℕ)} {i : ℕ}

theorem Arrays.loadIndex_eq (h : Arrays kva items) (hlt : i < items.length) :
    loadIndex kva.index i = .ok (items.take i).flatten.length := by
  obtain ⟨n, hindex⟩ := h.index
  apply load_of_getElem?
  rw [hindex, List.getElem?_append_left (by simpa [starts] using hlt), starts, List.getElem?_map,
    List.getElem?_range hlt]
  rfl

/-- Where an item begins, the array holds its entries. -/
theorem Arrays.drop_eq (h : Arrays kva items) (hitem : items[i]? = some item) :
    ∃ rest, kva.kv.drop (items.take i).flatten.length = item ++ rest := by
  obtain ⟨n, hkv⟩ := h.kv
  have hlt := (List.getElem?_eq_some_iff.mp hitem).1
  have hsplit : items = items.take i ++ item :: items.drop (i + 1) := by
    rw [← (List.getElem?_eq_some_iff.mp hitem).2, List.getElem_cons_drop, List.take_append_drop]
  have hflatten : items.flatten = (items.take i).flatten ++ (item ++ (items.drop (i + 1)).flatten) := by
    rw [← List.flatten_cons, ← List.flatten_append, ← hsplit]
  refine ⟨(items.drop (i + 1)).flatten ++ List.replicate n ⟨none, none⟩, ?_⟩
  rw [hkv, hflatten, List.append_assoc, List.drop_left, List.append_assoc]

theorem flatten_take_succ (hitem : items[i]? = some item) :
    (items.take (i + 1)).flatten.length = (items.take i).flatten.length + item.length := by
  obtain ⟨hlt, hget⟩ := List.getElem?_eq_some_iff.mp hitem
  rw [List.take_succ_eq_append_getElem hlt, List.flatten_append, List.flatten_singleton, hget,
    List.length_append]

/-- The number that belongs to an item: that of its first parameter `q`. -/
def qualityOf (params : List (Kv Bytes)) : Run ℤ :=
  match params.find? isQ with
  | none => .ok 1000
  | some entry =>
    match entry.value with
    | none => .error .nullDereference
    | some value => .ok (parseQLoop 0 1000 value)

theorem findQLoop_eq {params rest : List (Kv ℕ)} (hkv : kva.kv.drop i = params ++ rest)
    (hends : EveryPointer (EndsBefore memory memory.length) [params]) :
    findQLoop memory kva i params.length = qualityOf (params.map (mapEntry (textAt memory))) := by
  induction params generalizing i with
  | nil => rfl
  | cons entry params ih =>
    have hnext : kva.kv.drop (i + 1) = params ++ rest := by
      rw [← List.drop_drop, hkv]
      rfl
    have hentry := hends (entry :: params) List.mem_cons_self entry List.mem_cons_self
    have hparams : EveryPointer (EndsBefore memory memory.length) [params] := by
      intro list hlist other hother
      rw [List.mem_singleton.mp hlist] at hother
      exact hends (entry :: params) List.mem_cons_self other (List.mem_cons_of_mem entry hother)
    have hload : loadKv kva.kv i = .ok entry := load_of_drop hkv
    rw [List.length_cons, findQLoop, hload, ok_bind, List.map_cons, qualityOf, List.find?_cons]
    obtain ⟨key, value⟩ := entry
    cases key with
    | none => exact ih hnext hparams
    | some key =>
      have hisQ : isQ (mapEntry (textAt memory) ⟨some key, value⟩) =
          strcasecmp (textAt memory key) (bytes "q") := rfl
      simp only [loadString_eq (hentry.1 key rfl), ok_bind, hisQ]
      cases strcasecmp (textAt memory key) (bytes "q") with
      | false => exact ih hnext hparams
      | true =>
        cases value with
        | none => rfl
        | some value =>
          rw [if_pos rfl, parseQ, loadString_eq (hentry.2 value rfl)]
          rfl

theorem Arrays.findQInIndex_eq (h : Arrays kva items)
    (hends : EveryPointer (EndsBefore memory memory.length) items) {name : Kv ℕ} {params : List (Kv ℕ)}
    (hitem : items[i]? = some (name :: params)) :
    findQInIndex memory kva i = qualityOf (params.map (mapEntry (textAt memory))) := by
  obtain ⟨hlt, hget⟩ := List.getElem?_eq_some_iff.mp hitem
  obtain ⟨rest, hkv⟩ := h.drop_eq hitem
  have hnext : kva.kv.drop ((items.take i).flatten.length + 1) = params ++ rest := by
    rw [← List.drop_drop, hkv]
    rfl
  have hparams : EveryPointer (EndsBefore memory memory.length) [params] := by
    intro list hlist other hother
    rw [List.mem_singleton.mp hlist] at hother
    exact hends _ (List.mem_of_getElem? hitem) other (List.mem_cons_of_mem name hother)
  have hsucc := flatten_take_succ hitem
  rw [List.length_cons] at hsucc
  rw [← findQLoop_eq hnext hparams]
  unfold findQInIndex
  rw [h.loadIndex_eq hlt]
  simp only [ok_bind, h.indexlen]
  split
  · have hall : (items.take (i + 1)).flatten = items.flatten := by
      rw [List.take_of_length_le (by omega)]
    have hcount : kva.kvlen - 1 + 1 - ((items.take i).flatten.length + 1) = params.length := by
      rw [h.kvlen, ← hall]
      omega
    simp only [pure_bind, hcount]
  · have hcount : (items.take (i + 1)).flatten.length - 1 + 1 -
        ((items.take i).flatten.length + 1) = params.length := by omega
    rw [h.loadIndex_eq (by omega)]
    have hmap : ((· - 1) <$> (Except.ok (items.take (i + 1)).flatten.length : Run ℕ)) =
        .ok ((items.take (i + 1)).flatten.length - 1) := rfl
    simp only [hmap, ok_bind, hcount]

/-- What `selectItem` does, with the words instead of pointers to them. -/
def selectWords (state : ℤ × Arg) : List (Kv Bytes) → Run (ℤ × Arg)
  | [] => .ok state
  | name :: params =>
    match name.key with
    | none => .ok state
    | some p => do
      let q ← qualityOf params
      let arg := state.2
      return (max state.1 q,
        { arg with
          bestComp := if strcasecmp p arg.comp then max arg.bestComp q else arg.bestComp
          bestGroup := if strcasecmp p arg.group then max arg.bestGroup q else arg.bestGroup })

def selectAll (items : List (List (Kv Bytes))) (bestQ : ℤ) : List Arg → Run (ℤ × List Arg)
  | [] => .ok (bestQ, [])
  | arg :: args => do
    let (bestQ, arg) ← items.foldlM selectWords (bestQ, arg)
    let (bestQ, args) ← selectAll items bestQ args
    return (bestQ, arg :: args)

theorem Arrays.selectItem_eq (h : Arrays kva items)
    (hends : EveryPointer (EndsBefore memory memory.length) items) (hitem : items[i]? = some item)
    (state : ℤ × Arg) :
    selectItem memory kva state i = selectWords state (item.map (mapEntry (textAt memory))) := by
  have hlt := (List.getElem?_eq_some_iff.mp hitem).1
  cases item with
  | nil => exact absurd rfl (h.named [] (List.mem_of_getElem? hitem))
  | cons name params =>
    obtain ⟨rest, hkv⟩ := h.drop_eq hitem
    have hname := hends _ (List.mem_of_getElem? hitem) name List.mem_cons_self
    have hload : loadKv kva.kv (items.take i).flatten.length = .ok name := load_of_drop hkv
    unfold selectItem
    rw [h.loadIndex_eq hlt]
    simp only [ok_bind, hload, List.map_cons, selectWords]
    obtain ⟨key, value⟩ := name
    cases key with
    | none => rfl
    | some key =>
      rw [← h.findQInIndex_eq hends hitem]
      simp only [loadString_eq (hname.1 key rfl), mapEntry, Option.map_some]
      rfl

theorem Arrays.selectLoop_eq (h : Arrays kva items)
    (hends : EveryPointer (EndsBefore memory memory.length) items) (bestQ : ℤ) (args : List Arg) :
    selectLoop memory kva bestQ args = selectAll (mapItems (textAt memory) items) bestQ args := by
  have hturns (state : ℤ × Arg) : (List.range kva.indexlen).foldlM (selectItem memory kva) state =
      (mapItems (textAt memory) items).foldlM selectWords state := by
    rw [h.indexlen, mapItems, List.foldlM_map]
    exact foldlM_range items (fun i item hitem state ↦ h.selectItem_eq hends hitem state) state
  induction args generalizing bestQ with
  | nil => rfl
  | cons arg args ih =>
    rw [selectLoop, selectAll, hturns]
    simp only [ih]

/-- The number can be found if and only if the first parameter `q` has a value. -/
theorem qualityOf_ok_iff (params : List (Kv Bytes)) :
    (∃ q, qualityOf params = .ok q) ↔ ∀ entry ∈ params.find? isQ, entry.value ≠ none := by
  unfold qualityOf
  cases params.find? isQ with
  | none => exact iff_of_true ⟨1000, rfl⟩ nofun
  | some entry =>
    obtain ⟨key, value⟩ := entry
    cases value with
    | none => exact iff_of_false nofun fun h ↦ h _ rfl rfl
    | some value =>
      refine iff_of_true ⟨_, rfl⟩ ?_
      rintro _ ⟨⟩
      exact nofun

theorem selectWords_ok_iff (state : ℤ × Arg) (item : List (Kv Bytes)) :
    (∃ result, selectWords state item = .ok result) ↔ HasQuality item := by
  cases item with
  | nil => exact iff_of_true ⟨state, rfl⟩ trivial
  | cons name params =>
    obtain ⟨key, value⟩ := name
    cases key with
    | none => exact iff_of_true ⟨state, rfl⟩ fun hkey ↦ absurd rfl hkey
    | some key =>
      have hsome : (⟨some key, value⟩ : Kv Bytes).key ≠ none := nofun
      rw [HasQuality, forall_prop_of_true hsome, ← qualityOf_ok_iff, selectWords]
      cases qualityOf params with
      | error fault => exact iff_of_false nofun nofun
      | ok q => exact iff_of_true ⟨_, rfl⟩ ⟨q, rfl⟩

theorem selectAll_ok_iff (items : List (List (Kv Bytes))) (bestQ : ℤ) (arg : Arg) (args : List Arg) :
    (∃ result, selectAll items bestQ (arg :: args) = .ok result) ↔ ∀ item ∈ items, HasQuality item := by
  have hturn : ∀ item ∈ items, ∀ state, (∃ result, selectWords state item = .ok result) ↔
      HasQuality item := fun item _ state ↦ selectWords_ok_iff state item
  induction args generalizing bestQ arg with
  | nil =>
    rw [← foldlM_ok_iff hturn (bestQ, arg), selectAll]
    cases items.foldlM selectWords (bestQ, arg) with
    | error fault => exact iff_of_false nofun nofun
    | ok after => exact iff_of_true ⟨_, rfl⟩ ⟨after, rfl⟩
  | cons next args ih =>
    have hfirst := foldlM_ok_iff hturn (bestQ, arg)
    rw [selectAll]
    cases hrun : items.foldlM selectWords (bestQ, arg) with
    | error fault =>
      rw [hrun] at hfirst
      rw [← hfirst]
      exact iff_of_false nofun nofun
    | ok after =>
      obtain ⟨best, visited⟩ := after
      refine Iff.trans ?_ (ih best next)
      rw [ok_bind]
      dsimp only
      cases selectAll items best (next :: args) with
      | error fault => exact iff_of_false nofun nofun
      | ok result => exact iff_of_true ⟨_, rfl⟩ ⟨result, rfl⟩

end Selection

/-! ## Every header -/

theorem points_start (memory : Bytes) : Points memory 0 Draft.start Draft.start :=
  ⟨rfl, by simp [EveryPointer, Draft.items, Draft.start]⟩

theorem safeHeader_nil (signed : Bool) : SafeHeader signed [] := by
  unfold SafeHeader
  rw [readHeader.eq_def]
  simp [lexeme, Draft.place, Draft.start, Kv.place, Draft.items, HasQuality]

/-- The parser leaves what the header says, and nothing for an empty one. -/
theorem utilParseHttpCn_parses (signed : Bool) {text : Bytes} (hne : text ≠ []) (hclean : 0 ∉ text) :
    Parses (utilParseHttpCn signed (some text)) (readHeader signed text Draft.start) := by
  have hparse : Parses (parseLoop signed (text ++ [0]) 0 Kva.start)
      (readHeader signed text Draft.start) :=
    parses rfl hclean arrays_start (points_start _)
  cases text with
  | nil => exact absurd rfl hne
  | cons char rest => exact hparse

/-- What is selected from what the header says. -/
def selectFrom (first : Bytes) (others : List Bytes) : Reading → Run Bytes
  | .rejected => .ok first
  | .runsOn => .error .readPast
  | .accepted items => do
    let (bestQ, args) ← selectAll items 0 (((first :: others).take selectBestMaxArgs).map fillArg)
    return (pickBest bestQ args).getD first

theorem utilHttpSelectBest_eq (signed : Bool) {text : Bytes} (hne : text ≠ []) (hclean : 0 ∉ text)
    (first : Bytes) (others : List Bytes) : utilHttpSelectBest signed (some text) first others =
      selectFrom first others (readHeader signed text Draft.start) := by
  have hparse := utilParseHttpCn_parses signed hne hclean
  unfold utilHttpSelectBest
  cases hheader : readHeader signed text Draft.start with
  | rejected =>
    rw [hheader] at hparse
    rw [show utilParseHttpCn signed (some text) = .ok none from hparse]
    rfl
  | runsOn =>
    rw [hheader] at hparse
    rw [show utilParseHttpCn signed (some text) = .error .readPast from hparse]
    rfl
  | accepted items =>
    rw [hheader] at hparse
    obtain ⟨memory, kva, draft, hfound, harrays, rfl, hends⟩ := hparse
    rw [hfound, ok_bind, selectFrom]
    simp only [harrays.selectLoop_eq hends]

/-- For every header, and whatever there is to choose from, the selection stays within the string and the
arrays and uses no null pointer if and only if the header is safe. -/
theorem select_best_safe_iff (signed : Bool) (text first : Bytes) (others : List Bytes) (hclean : 0 ∉ text) :
    (∃ result, utilHttpSelectBest signed (some text) first others = .ok result) ↔
      SafeHeader signed text := by
  by_cases hne : text = []
  · subst hne
    exact iff_of_true ⟨first, rfl⟩ (safeHeader_nil signed)
  · have hargs : ((first :: others).take selectBestMaxArgs).map fillArg =
        fillArg first :: (others.take 7).map fillArg := rfl
    rw [utilHttpSelectBest_eq signed hne hclean first others]
    unfold SafeHeader
    cases readHeader signed text Draft.start with
    | rejected => exact iff_of_true ⟨first, rfl⟩ trivial
    | runsOn => exact iff_of_false nofun not_false
    | accepted items =>
      refine Iff.trans ?_ (selectAll_ok_iff items 0 (fillArg first) ((others.take 7).map fillArg))
      rw [selectFrom, hargs]
      cases selectAll items 0 (fillArg first :: (others.take 7).map fillArg) with
      | error fault => exact iff_of_false nofun nofun
      | ok result => exact iff_of_true ⟨_, rfl⟩ ⟨result, rfl⟩

/-- A usual header is safe. -/
theorem select_best_safe_iff_two_types :
    (∃ result, utilHttpSelectBest true (some (bytes "text/html;q=0.5,text/plain")) (bytes "text/plain")
      [bytes "text/html"] = .ok result) ↔ SafeHeader true (bytes "text/html;q=0.5,text/plain") := by
  exact select_best_safe_iff true (bytes "text/html;q=0.5,text/plain") (bytes "text/plain")
    [bytes "text/html"] (by decide)

/-- A parameter `q` without a value is read from a null pointer, and a quoted string at the end of the
header makes the tokenizer look behind the terminating zero. -/
theorem select_best_unsafe :
    ¬ (∀ text : Bytes, 0 ∉ text → ∃ result,
        utilHttpSelectBest true (some text) (bytes "text/plain") [bytes "text/html"] = .ok result) ∧
      utilHttpSelectBest true (some (bytes "text/html;q")) (bytes "text/plain") [bytes "text/html"] =
        .error .nullDereference ∧
      utilHttpSelectBest true (some (bytes "\"\\a\"")) (bytes "text/plain") [bytes "text/html"] =
        .error .readPast := by
  have hnull : utilHttpSelectBest true (some (bytes "text/html;q")) (bytes "text/plain")
      [bytes "text/html"] = .error .nullDereference := by decide +kernel
  refine ⟨fun h ↦ ?_, hnull, by decide +kernel⟩
  obtain ⟨result, hresult⟩ := h (bytes "text/html;q") (by decide)
  rw [hnull] at hresult
  cases hresult

end Icecast.Util.AcceptHeader
