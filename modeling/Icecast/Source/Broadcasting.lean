import Icecast.Lib.Broadcast
import Icecast.Source.Lagging

/-!
# What the queue is for

A source broadcasts: what it appends is a log of which the queue is the end, and a listener on the queue is
given one buffer of the log after the other from a sync point on. Each event of the queue is answered by
actions of the broadcasting machine, so that no listener misses a buffer, gets one twice or gets them in
another order, whatever is trimmed, moved or dropped.
-/

namespace Icecast.Source.Queue

open Lib Lib.LinkedList Lib.Machine Lib.MachineInt Lib.Broadcast

/-- What is told of a buffer. -/
structure Item where
  len : ℕ
  syncPoint : Bool
  deriving DecidableEq

def itemOf (s : SourceState) (addr : ℕ) : Item := ⟨(s.heap addr).len, (s.heap addr).syncPoint⟩

/-- A source, with the buffers each of its listeners has come to since it is on the queue. -/
structure Watched where
  source : SourceState
  heard : List (List Item)

/-- The listener at a position has come to another buffer of the queue. -/
def note (s s' : SourceState) (i : ℕ) (heard : List Item) : List Item :=
  match s'.clients[i]? with
  | some client =>
    if client.onQueue ∧ s.clients[i]? ≠ s'.clients[i]? then
      heard ++ (client.refbuf.map (itemOf s')).toList
    else heard
  | none => heard

def watch (w : Watched) (event : Event) : Watched where
  source := step w.source event
  heard := match event with
    | .join _ | .arrive _ => w.heard ++ [[]]
    | .leaveFile i | .advance i => w.heard.modify i (note w.source (step w.source event) i)
    | .detach i _ => w.heard.set i []
    | .leave i => w.heard.eraseIdx i
    | .dropLagging i =>
      if (step w.source event).clients.length < w.source.clients.length then w.heard.eraseIdx i else w.heard
    | _ => w.heard

def startWatched : Watched := ⟨startSource, []⟩

/-- The actions that may answer an event. -/
def Answers : Event → List (Action Item) → Prop
  | .append len syncPoint, actions => actions = [.publish ⟨len, syncPoint⟩]
  | .trim, actions => ∃ count, actions = List.replicate count .forget
  | .join _, actions => actions = [.join]
  | .arrive _, actions => actions = [.join]
  | .leaveFile i, actions => actions = [] ∨ ∃ start, actions = [.enter i start]
  | .advance i, actions => actions = [] ∨ actions = [.advance i]
  | .detach i _, actions => actions = [.quit i]
  | .leave i, actions => actions = [.leave i]
  | .dropLagging i, actions => actions = [] ∨ actions = [.leave i]
  | _, actions => actions = []

/-- A listener on the queue refers to the buffer of its place. -/
def Placed (nodes : List ℕ) (first : ℕ) (client : Client) : Option Place → Prop
  | none => client.onQueue = false
  | some place => client.onQueue = true ∧ ∃ addr, client.refbuf = some addr ∧
      nodes[place.position - first]? = some addr

/-- The queue is what is left of the log. -/
structure Represents (w : Watched) (b : State Item) (front back : List ℕ) : Prop where
  queue : QueueInv w.source front back
  log : (front ++ back).map (itemOf w.source) = b.log.drop b.first
  places : List.Forall₂ (Placed (front ++ back) b.first) w.source.clients b.places
  sound : Sound Item.syncPoint b
  heard : w.heard = b.places.map (given b.log)

/-! ## Items -/

section Items

variable {s : SourceState} {front back : List ℕ}

theorem itemOf_modifyHeap (s : SourceState) (addr : ℕ) {f : Refbuf → Refbuf}
    (hf : ∀ refbuf, (f refbuf).len = refbuf.len ∧ (f refbuf).syncPoint = refbuf.syncPoint) :
    itemOf (modifyHeap s addr f) = itemOf s := by
  funext other
  unfold itemOf modifyHeap
  by_cases hother : other = addr
  · rw [hother]
    dsimp only
    rw [Function.update_self, (hf _).1, (hf _).2]
  · dsimp only
    rw [Function.update_of_ne hother]

theorem itemOf_refbufRelease (s : SourceState) (addr : ℕ) : itemOf (refbufRelease s addr) = itemOf s :=
  itemOf_modifyHeap s addr fun _ ↦ ⟨rfl, rfl⟩

theorem itemOf_clientSetQueue (s : SourceState) (i : ℕ) (client : Client) :
    itemOf (clientSetQueue s i client) = itemOf s := by
  cases hold : s.clients[i]? with
  | none =>
    rw [clientSetQueue, hold]
  | some old =>
    obtain ⟨heap, hstate, hheap⟩ := clientSetQueue_eq hold client
    funext addr
    rw [hstate, itemOf, itemOf]
    dsimp only
    rw [hheap]

theorem clientSetQueue_clients (s : SourceState) (i : ℕ) (client : Client) :
    (clientSetQueue s i client).clients = s.clients.set i client := by
  cases hold : s.clients[i]? with
  | none =>
    rw [clientSetQueue, hold, List.set_eq_of_length_le (List.getElem?_eq_none_iff.mp hold)]
  | some old =>
    obtain ⟨heap, hstate, -⟩ := clientSetQueue_eq hold client
    rw [hstate]

theorem itemOf_trimLoop (fuel : ℕ) (s : SourceState) : itemOf (trimLoop fuel s) = itemOf s := by
  induction fuel generalizing s with
  | zero => rfl
  | succ fuel ih =>
    unfold trimLoop
    split
    · rfl
    · split
      · split
        · rfl
        · rw [ih, itemOf_refbufRelease]
          exact itemOf_modifyHeap _ _ fun _ ↦ ⟨rfl, rfl⟩
      · rfl

theorem advanceBurst_same (fuel : ℕ) (s : SourceState) : itemOf (advanceBurst fuel s) = itemOf s ∧
    (advanceBurst fuel s).clients = s.clients := by
  induction fuel generalizing s with
  | zero => exact ⟨rfl, rfl⟩
  | succ fuel ih =>
    unfold advanceBurst
    split
    · split
      · exact ⟨rfl, rfl⟩
      · rename_i toRelease _
        split
        · exact ⟨rfl, rfl⟩
        · rename_i next _
          obtain ⟨hitem, hclients⟩ := ih (refbufRelease { s with
            burstPoint := some next
            burstOffset := usub 32 s.burstOffset (s.heap toRelease).len } toRelease)
          refine ⟨hitem.trans ?_, hclients⟩
          rw [itemOf_refbufRelease]
          rfl
    · exact ⟨rfl, rfl⟩

theorem itemOf_refbufNew_of_ne (s : SourceState) (len : ℕ) (syncPoint : Bool) {addr : ℕ}
    (hne : addr ≠ s.fresh) : itemOf (refbufNew s len syncPoint) addr = itemOf s addr := by
  unfold itemOf refbufNew
  dsimp only
  rw [Function.update_of_ne hne]

/-- The new buffer, and that no other one changes. -/
theorem QueueInv.append_same (inv : QueueInv s front back) (len : ℕ) (syncPoint : Bool) :
    (Queue.append s len syncPoint).clients = s.clients ∧
      itemOf (Queue.append s len syncPoint) s.fresh = ⟨len, syncPoint⟩ ∧
      ∀ addr ∈ front ++ back, itemOf (Queue.append s len syncPoint) addr = itemOf s addr := by
  have htail : (Queue.refbufNew s len syncPoint).streamDataTail ≠ some s.fresh := by
    intro h
    have hmem : s.fresh ∈ front ++ back := List.mem_of_getLast? (inv.tail_eq.symm.trans h)
    exact (inv.allocated _ hmem).ne rfl
  obtain ⟨heap, hstate, hheap⟩ := linkBuffer_eq (Queue.refbufNew s len syncPoint) htail
  obtain ⟨hitem, hclients⟩ := advanceBurst_same
    (Queue.linkBuffer (Queue.refbufNew s len syncPoint) s.fresh).fresh
    (Queue.linkBuffer (Queue.refbufNew s len syncPoint) s.fresh)
  have hlinked : itemOf (Queue.linkBuffer (Queue.refbufNew s len syncPoint) s.fresh) =
      itemOf (Queue.refbufNew s len syncPoint) := by
    funext addr
    rw [hstate, itemOf, itemOf]
    dsimp only
    rw [hheap]
  have happend : itemOf (Queue.append s len syncPoint) = itemOf (Queue.refbufNew s len syncPoint) :=
    hitem.trans hlinked
  refine ⟨hclients.trans ?_, ?_, ?_⟩
  · rw [hstate]
    rfl
  · rw [happend, itemOf, Queue.refbufNew]
    dsimp only
    rw [Function.update_self]
  · intro addr hmem
    rw [happend, itemOf_refbufNew_of_ne s len syncPoint (inv.allocated addr hmem).ne]

theorem findSyncPoint_syncPoint {heap : ℕ → Refbuf} {fuel addr found : ℕ}
    (h : findSyncPoint heap fuel addr = some found) : (heap found).syncPoint = true := by
  induction fuel generalizing addr with
  | zero => cases h
  | succ fuel ih =>
    unfold findSyncPoint at h
    split at h
    · rename_i hsync
      rwa [← Option.some.inj h]
    · split at h
      · cases h
      · exact ih h

theorem chain_getElem? {next : ℕ → Option ℕ} {start : Option ℕ} {nodes : List ℕ}
    (h : Chain next start nodes)
    {k addr : ℕ} (haddr : nodes[k]? = some addr) : next addr = nodes[k + 1]? := by
  induction nodes generalizing start k with
  | nil => cases haddr
  | cons node nodes ih =>
    cases k with
    | zero =>
      rw [List.getElem?_cons_zero, Option.some.injEq] at haddr
      rw [← haddr, List.getElem?_cons_succ, ← List.head?_eq_getElem?]
      exact h.2.head?_eq.symm
    | succ k => exact ih h.2 haddr

theorem set_getElem?_self {α : Type*} {l : List α} {i : ℕ} {a : α} (h : l[i]? = some a) : l.set i a = l :=
    by
  obtain ⟨hlt, rfl⟩ := List.getElem?_eq_some_iff.mp h
  exact List.set_getElem_self hlt

theorem modify_eq_set {α : Type*} {l : List α} {i : ℕ} {a : α} (h : l[i]? = some a) (f : α → α) :
    l.modify i f = l.set i (f a) := by
  obtain ⟨hlt, rfl⟩ := List.getElem?_eq_some_iff.mp h
  apply List.ext_getElem?
  intro j
  rw [List.getElem?_modify, List.getElem?_set]
  by_cases hij : i = j
  · subst hij
    simp [hlt]
  · simp [hij]

theorem modify_eq_self {α : Type*} {l : List α} {i : ℕ} {f : α → α} (h : ∀ a, l[i]? = some a → f a = a) :
    l.modify i f = l := by
  cases hget : l[i]? with
  | none =>
    apply List.ext_getElem?
    intro j
    rw [List.getElem?_modify]
    by_cases hij : i = j
    · subst hij
      simp [hget]
    · simp [hij]
  | some a => rw [modify_eq_set hget f, h a hget, set_getElem?_self hget]

end Items

/-! ## Events -/

section Events

variable {w : Watched} {b : State Item} {front back : List ℕ}

/-- The places of listeners are in the queue. -/
theorem Represents.length_eq (h : Represents w b front back) :
    (front ++ back).length = b.log.length - b.first := by
  have hlength := congrArg List.length h.log
  rwa [List.length_map, List.length_drop] at hlength

theorem Represents.getElem?_log (h : Represents w b front back) (k : ℕ) :
    b.log[b.first + k]? = (front ++ back)[k]?.map (itemOf w.source) := by
  rw [← List.getElem?_drop, ← h.log, List.getElem?_map]

/-- A change of one listener. -/
theorem Represents.set (h : Represents w b front back) {s : SourceState} (inv : QueueInv s front back)
    {i : ℕ} {client : Client} {place : Option Place} (hclients : s.clients = w.source.clients.set i client)
    (hitems : ∀ addr ∈ front ++ back, itemOf s addr = itemOf w.source addr)
    (hplaced : Placed (front ++ back) b.first client place)
    (hsound : Sound Item.syncPoint { b with places := b.places.set i place }) :
    Represents ⟨s, w.heard.set i (given b.log place)⟩
    { b with places := b.places.set i place } front back := by
  refine ⟨inv, ?_, ?_, hsound, ?_⟩
  · rw [← h.log]
    exact List.map_congr_left hitems
  · dsimp only
    rw [hclients]
    exact forall₂_set h.places i hplaced
  · dsimp only
    rw [h.heard, List.map_set]

/-- A listener that is not on the queue remains so. -/
theorem Represents.setOff (h : Represents w b front back) {s : SourceState} (inv : QueueInv s front back)
    {i : ℕ} {old client : Client} (hold : w.source.clients[i]? = some old) (holdOff : old.onQueue = false)
    (hclients : s.clients = w.source.clients.set i client)
    (hitems : ∀ addr ∈ front ++ back, itemOf s addr = itemOf w.source addr)
    (hoff : client.onQueue = false) :
    Represents ⟨s, w.heard⟩ b front back := by
  obtain ⟨place, hplace, hplaced⟩ := forall₂_getElem? h.places hold
  cases place with
  | some place =>
    rw [hplaced.1] at holdOff
    cases holdOff
  | none =>
    have hheard : w.heard[i]? = some [] := by
      rw [h.heard, List.getElem?_map, hplace]
      rfl
    have hplaced' : Placed (front ++ back) b.first client none := hoff
    have hset := h.set inv hclients hitems hplaced' (by rw [set_getElem?_self hplace]; exact h.sound)
    rwa [set_getElem?_self hplace, given, set_getElem?_self hheard] at hset

/-- What answers an event. -/
def Answered (w : Watched) (b : State Item) (event : Event) : Prop :=
  ∃ actions b' front' back', Answers event actions ∧ Broadcast.run Item.syncPoint b actions = some b' ∧
    Represents (watch w event) b' front' back'

theorem append_answered (h : Represents w b front back) (len : ℕ) (syncPoint : Bool) :
    Answered w b (.append len syncPoint) := by
  obtain ⟨front', back', inv, hnodes, -⟩ := h.queue.append len syncPoint
  obtain ⟨hclients, hnew, hold⟩ := h.queue.append_same len syncPoint
  have hstep : Broadcast.step Item.syncPoint b (.publish ⟨len, syncPoint⟩) =
      some { b with log := b.log ++ [⟨len, syncPoint⟩] } := rfl
  refine ⟨[.publish ⟨len, syncPoint⟩], { b with log := b.log ++ [⟨len, syncPoint⟩] }, front', back', rfl,
    ?_, inv, ?_, ?_, h.sound.step hstep, ?_⟩
  · rw [run_singleton, hstep]
  · rw [hnodes, List.map_append, List.map_singleton, List.drop_append_of_le_length h.sound.first, ← h.log]
    exact congrArg₂ (· ++ ·) (List.map_congr_left hold) (congrArg ([·]) hnew)
  · change List.Forall₂ _ (Queue.append w.source len syncPoint).clients b.places
    rw [hclients, hnodes]
    refine h.places.imp ?_
    intro client place hplaced
    cases place with
    | none => exact hplaced
    | some place =>
      obtain ⟨hqueued, addr, hrefbuf, haddr⟩ := hplaced
      refine ⟨hqueued, addr, hrefbuf, ?_⟩
      rw [List.getElem?_append_left (List.getElem?_eq_some_iff.mp haddr).1, haddr]
  · refine h.heard.trans (List.map_congr_left ?_)
    intro place hplace
    refine (given_publish _ ?_).symm
    rintro found rfl
    obtain ⟨hstart, -, hposition⟩ := h.sound.order found hplace
    exact ⟨hstart, hposition⟩

theorem trim_answered (h : Represents w b front back) : Answered w b .trim := by
  obtain ⟨removed, front', rfl, inv, hremoved, -⟩ := h.queue.trim
  have hlength := h.length_eq
  rw [List.append_assoc, List.length_append] at hlength
  have hfirst := h.sound.first
  have hplaces : ∀ place, some place ∈ b.places → b.first + removed.length ≤ place.position := by
    intro place hplace
    obtain ⟨i, hi⟩ := List.getElem?_of_mem hplace
    obtain ⟨client, hclient, hqueued, addr, hrefbuf, haddr⟩ := forall₂_getElem? h.places.flip hi
    obtain ⟨-, hle, -⟩ := h.sound.order place hplace
    by_contra hlt
    rw [List.append_assoc, List.getElem?_append_left (by omega)] at haddr
    have hzero := hremoved addr (List.mem_of_getElem? haddr)
    have hpos := refs_pos hclient hrefbuf
    omega
  have hrun : Broadcast.run Item.syncPoint b (List.replicate removed.length .forget) =
      some { b with first := b.first + removed.length } := run_forget (by omega) hplaces
  refine ⟨_, _, front', back, ⟨removed.length, rfl⟩, hrun, inv, ?_, ?_, h.sound.run hrun, h.heard⟩
  · have hitems : itemOf (watch w .trim).source = itemOf w.source := itemOf_trimLoop _ _
    rw [hitems, ← List.drop_drop, ← h.log, List.append_assoc, ← List.map_drop, List.drop_left]
  · have hclients : (watch w .trim).source.clients = w.source.clients := trimLoop_clients _ _
    rw [hclients]
    obtain ⟨hsame, hzip⟩ := List.forall₂_iff_zip.mp h.places
    refine List.forall₂_iff_zip.mpr ⟨hsame, fun {client place} hmem ↦ ?_⟩
    have hplaced := hzip hmem
    cases place with
    | none => exact hplaced
    | some place =>
      have hle := hplaces place (List.of_mem_zip hmem).2
      obtain ⟨hqueued, addr, hrefbuf, haddr⟩ := hplaced
      refine ⟨hqueued, addr, hrefbuf, ?_⟩
      rw [List.append_assoc, List.getElem?_append_right (by omega)] at haddr
      rw [← haddr]
      congr 1
      dsimp only
      omega

theorem Represents.sound_join (h : Represents w b front back) :
    Sound Item.syncPoint { b with places := b.places ++ [none] } := by
  have hstep : Broadcast.step Item.syncPoint b .join = some { b with places := b.places ++ [none] } := rfl
  exact h.sound.step hstep

theorem join_answered (h : Represents w b front back) (len : ℕ) : Answered w b (.join len) := by
  refine ⟨[.join], { b with places := b.places ++ [none] }, front, back, rfl, rfl, h.queue.join len, ?_, ?_,
    h.sound_join, ?_⟩
  · rw [← h.log]
    exact List.map_congr_left fun addr hmem ↦
      itemOf_refbufNew_of_ne w.source len false (h.queue.allocated addr hmem).ne
  · exact forall₂_concat h.places rfl
  · rw [List.map_append, ← h.heard]
    rfl

theorem arrive_answered (h : Represents w b front back) (introOffset : ℤ) :
    Answered w b (.arrive introOffset) := by
  refine ⟨[.join], { b with places := b.places ++ [none] }, front, back, rfl, rfl,
    h.queue.arrive introOffset, h.log, forall₂_concat h.places rfl, h.sound_join, ?_⟩
  rw [List.map_append, ← h.heard]
  rfl

theorem readIntro_answered (h : Represents w b front back) (i len : ℕ) (introOffset : ℤ) :
    Answered w b (.readIntro i len introOffset) := by
  refine ⟨[], b, front, back, rfl, rfl, ?_⟩
  have inv := h.queue.readIntro i len introOffset
  have hwatch : watch w (.readIntro i len introOffset) =
    ⟨readIntro w.source i len introOffset, w.heard⟩ := rfl
  rw [hwatch]
  revert inv
  rw [readIntro]
  split
  · exact fun _ ↦ h
  · rename_i client hclient
    split
    · exact fun _ ↦ h
    · rename_i hoff
      split
      · intro inv
        refine h.setOff inv hclient (eq_false_of_ne_true hoff) rfl ?_ rfl
        exact fun addr hmem ↦ itemOf_refbufNew_of_ne w.source len false (h.queue.allocated addr hmem).ne
      · rename_i addr hrefbuf
        intro inv
        refine h.setOff inv hclient (eq_false_of_ne_true hoff) rfl ?_ (eq_false_of_ne_true hoff)
        intro other hmem
        have hne : other ≠ addr := by
          rintro rfl
          exact h.queue.client_private client (List.mem_of_getElem? hclient)
            (eq_false_of_ne_true hoff) other
            hmem hrefbuf
        rw [itemOf, modifyHeap]
        dsimp only
        rw [Function.update_of_ne hne]
        rfl

/-- The search of a listener that has left its file, and is not on the queue. -/
theorem findClientStart_answered (h : Represents w b front back) {i : ℕ} {client old : Client}
    (hclient : w.source.clients[i]? = some client) (hoff : client.onQueue = false) {s : SourceState}
    (hold : s.clients[i]? = some old) (holdOff : old.onQueue = false) :
    ∃ actions b', (actions = [] ∨ ∃ start, actions = [.enter i start]) ∧
      Broadcast.run Item.syncPoint b actions = some b' ∧ Represents ⟨findClientStart w.source i,
        w.heard.modify i (note s (findClientStart w.source i) i)⟩ b' front back := by
  obtain ⟨place, hplace, hplaced⟩ := forall₂_getElem? h.places hclient
  have hnone : place = none := by
    cases place with
    | none => rfl
    | some place =>
      rw [hplaced.1] at hoff
      cases hoff
  rw [hnone] at hplace
  have hbefore : w.heard[i]? = some [] := by
    rw [h.heard, List.getElem?_map, hplace]
    rfl
  have inv := h.queue.findClientStart i
  rw [findClientStart, hclient] at inv ⊢
  dsimp only at inv ⊢
  cases hfound : (startOfSearch w.source client.introOffset).bind
    (findSyncPoint w.source.heap w.source.fresh) with
  | none =>
    refine ⟨[], b, Or.inl rfl, rfl, ?_⟩
    rw [modify_eq_self]
    · exact h
    · intro heard _
      rw [note, hclient]
      dsimp only
      rw [hoff, if_neg fun hboth ↦ Bool.false_ne_true hboth.1]
  | some addr =>
    rw [hfound] at inv
    dsimp only at inv ⊢
    obtain ⟨first, hfirst, hsync⟩ := Option.bind_eq_some_iff.mp hfound
    have hmem := h.queue.findSyncPoint_mem _ (h.queue.startOfSearch_mem hfirst) hsync
    obtain ⟨k, hk⟩ := List.getElem?_of_mem hmem
    have hitem : b.log[b.first + k]? = some (itemOf w.source addr) := by
      rw [h.getElem?_log, hk, Option.map_some]
    have hstep : Broadcast.step Item.syncPoint b (.enter i (b.first + k)) =
        some { b with places := b.places.set i (some ⟨b.first + k, b.first + k⟩) } := by
      rw [Broadcast.step, if_pos]
      refine ⟨hplace, Nat.le_add_right _ _, ?_⟩
      rw [hitem]
      exact findSyncPoint_syncPoint hsync
    refine ⟨[.enter i (b.first + k)], _, Or.inr ⟨_, rfl⟩, (run_singleton _).trans hstep, ?_⟩
    have hclients := clientSetQueue_clients w.source i ⟨some addr, -1, true⟩
    have hitems := itemOf_clientSetQueue w.source i ⟨some addr, -1, true⟩
    have hplaced' : Placed (front ++ back) b.first ⟨some addr, -1, true⟩
      (some ⟨b.first + k, b.first + k⟩) := by
      refine ⟨rfl, addr, rfl, ?_⟩
      rw [Nat.add_sub_cancel_left, hk]
    have hset := h.set inv hclients (fun other _ ↦ congrFun hitems other) hplaced' (h.sound.step hstep)
    rw [given_enter hitem] at hset
    rw [modify_eq_set hbefore]
    have hafter : (clientSetQueue w.source i ⟨some addr, -1, true⟩).clients[i]? =
      some ⟨some addr, -1, true⟩ := by
      rw [hclients, List.getElem?_set_self (List.getElem?_eq_some_iff.mp hclient).1]
    have hne : some old ≠ some ⟨some addr, -1, true⟩ := by
      rintro ⟨⟩
      cases holdOff
    rw [note, hafter, hold]
    dsimp only
    rw [if_pos ⟨rfl, hne⟩, List.nil_append, Option.map_some, Option.toList_some, hitems]
    exact hset

theorem leaveFile_answered (h : Represents w b front back) (i : ℕ) : Answered w b (.leaveFile i) := by
  have hwatch : watch w (.leaveFile i) =
      ⟨leaveFile w.source i, w.heard.modify i (note w.source (leaveFile w.source i) i)⟩ := rfl
  have hsame (hstep : leaveFile w.source i = w.source) : Answered w b (.leaveFile i) := by
    refine ⟨[], b, front, back, Or.inl rfl, rfl, ?_⟩
    rw [hwatch, hstep, modify_eq_self]
    · exact h
    · intro heard _
      rw [note]
      cases w.source.clients[i]? with
      | none => rfl
      | some client =>
        dsimp only
        rw [if_neg fun hboth ↦ hboth.2 rfl]
  cases hclient : w.source.clients[i]? with
  | none => exact hsame (by rw [leaveFile, hclient])
  | some client =>
    cases hqueued : client.onQueue with
    | true => exact hsame (by rw [leaveFile, hclient]; dsimp only; rw [if_pos hqueued])
    | false =>
      have hstep : leaveFile w.source i =
          findClientStart (clientSetQueue w.source i { client with refbuf := none }) i := by
        rw [leaveFile, hclient]
        dsimp only
        rw [hqueued, if_neg Bool.false_ne_true]
      have hclients := clientSetQueue_clients w.source i { client with refbuf := none }
      have hitems := itemOf_clientSetQueue w.source i { client with refbuf := none }
      have inv : QueueInv (clientSetQueue w.source i { client with refbuf := none }) front back := by
        apply h.queue.clientSetQueue i
        · rintro addr ⟨⟩
        · simp [hqueued]
      have hcleared := h.setOff inv hclient hqueued hclients (fun addr _ ↦ congrFun hitems addr) hqueued
      have hafter : (clientSetQueue w.source i { client with refbuf := none }).clients[i]? =
          some { client with refbuf := none } := by
        rw [hclients, List.getElem?_set_self (List.getElem?_eq_some_iff.mp hclient).1]
      obtain ⟨actions, b', hactions, hrun, hrep⟩ :=
        findClientStart_answered hcleared hafter hqueued hclient hqueued
      refine ⟨actions, b', front, back, hactions, hrun, ?_⟩
      rw [hwatch, hstep]
      exact hrep

theorem advance_answered (h : Represents w b front back) (i : ℕ) : Answered w b (.advance i) := by
  have hwatch : watch w (.advance i) =
      ⟨formatAdvanceQueue w.source i, w.heard.modify i
        (note w.source (formatAdvanceQueue w.source i) i)⟩ := rfl
  have hsame (hstep : formatAdvanceQueue w.source i = w.source) : Answered w b (.advance i) := by
    refine ⟨[], b, front, back, Or.inl rfl, rfl, ?_⟩
    rw [hwatch, hstep, modify_eq_self]
    · exact h
    · intro heard _
      rw [note]
      cases w.source.clients[i]? with
      | none => rfl
      | some client =>
        dsimp only
        rw [if_neg fun hboth ↦ hboth.2 rfl]
  cases hclient : w.source.clients[i]? with
  | none => exact hsame (by rw [formatAdvanceQueue, hclient])
  | some client =>
    obtain ⟨place, hplace, hplaced⟩ := forall₂_getElem? h.places hclient
    cases place with
    | none =>
      apply hsame
      rw [formatAdvanceQueue, hclient]
      dsimp only
      cases client.refbuf with
      | none => rfl
      | some addr =>
        dsimp only
        rw [show client.onQueue = false from hplaced, if_neg Bool.false_ne_true]
    | some place =>
      obtain ⟨hqueued, addr, hrefbuf, haddr⟩ := hplaced
      obtain ⟨hstart, hfirst, hposition⟩ := h.sound.order place (List.mem_of_getElem? hplace)
      have hnext : (w.source.heap addr).next = (front ++ back)[place.position - b.first + 1]? :=
        chain_getElem? h.queue.chain haddr
      cases hnode : (w.source.heap addr).next with
      | none =>
        apply hsame
        rw [formatAdvanceQueue, hclient]
        dsimp only
        rw [hrefbuf]
        dsimp only
        rw [if_pos hqueued, hnode]
      | some next =>
        have hstep : formatAdvanceQueue w.source i =
            clientSetQueue w.source i { client with refbuf := some next } := by
          rw [formatAdvanceQueue, hclient]
          dsimp only
          rw [hrefbuf]
          dsimp only
          rw [if_pos hqueued, hnode]
        rw [hnode] at hnext
        have inv := h.queue.formatAdvanceQueue i
        rw [hstep] at inv
        have hitem : b.log[place.position + 1]? = some (itemOf w.source next) := by
          have hindex : place.position + 1 = b.first + (place.position - b.first + 1) := by omega
          rw [hindex, h.getElem?_log, ← hnext, Option.map_some]
        have haction : Broadcast.step Item.syncPoint b (.advance i) = some { b with
            places := b.places.set i (some { place with position := place.position + 1 }) } := by
          rw [Broadcast.step, hplace]
          dsimp only
          rw [if_pos (List.getElem?_eq_some_iff.mp hitem).1]
        have hclients := clientSetQueue_clients w.source i { client with refbuf := some next }
        have hitems := itemOf_clientSetQueue w.source i { client with refbuf := some next }
        have hplaced' : Placed (front ++ back) b.first { client with refbuf := some next }
            (some { place with position := place.position + 1 }) := by
          refine ⟨hqueued, next, rfl, ?_⟩
          rw [hnext]
          congr 1
          dsimp only
          omega
        have hset := h.set inv hclients (fun other _ ↦ congrFun hitems other) hplaced'
          (h.sound.step haction)
        have hbefore : w.heard[i]? = some (given b.log (some place)) := by
          rw [h.heard, List.getElem?_map, hplace, Option.map_some]
        have hafter : (clientSetQueue w.source i { client with refbuf := some next }).clients[i]? =
            some { client with refbuf := some next } := by
          rw [hclients, List.getElem?_set_self (List.getElem?_eq_some_iff.mp hclient).1]
        have hne : some client ≠ some { client with refbuf := some next } := by
          intro heq
          have hsame := congrArg Client.refbuf (Option.some.inj heq)
          rw [hrefbuf] at hsame
          rw [← Option.some.inj hsame] at hnext
          have hindex := (List.getElem?_inj (List.getElem?_eq_some_iff.mp haddr).1
            h.queue.nodup).mp (haddr.trans hnext)
          omega
        refine ⟨[.advance i], _, front, back, Or.inr rfl, (run_singleton _).trans haction, ?_⟩
        rw [hwatch, hstep, modify_eq_set hbefore, note, hafter, hclient]
        dsimp only
        rw [if_pos ⟨hqueued, hne⟩, Option.map_some, Option.toList_some, hitems,
          ← given_advance hstart hitem]
        exact hset

theorem detach_answered (h : Represents w b front back) (i : ℕ) (introOffset : ℤ) :
    Answered w b (.detach i introOffset) := by
  have haction : Broadcast.step Item.syncPoint b (.quit i) = some
    { b with places := b.places.set i none } := rfl
  refine ⟨[.quit i], _, front, back, rfl, (run_singleton _).trans haction, ?_⟩
  have hplaced : Placed (front ++ back) b.first ⟨none, introOffset, false⟩ none := rfl
  exact h.set (h.queue.detach i introOffset) (clientSetQueue_clients w.source i _)
    (fun addr _ ↦ congrFun (itemOf_clientSetQueue w.source i _) addr) hplaced (h.sound.step haction)

/-- A listener that goes. -/
theorem Represents.erase (h : Represents w b front back) (i : ℕ) :
    Represents ⟨leave w.source i, w.heard.eraseIdx i⟩
    { b with places := b.places.eraseIdx i } front back := by
  have haction : Broadcast.step Item.syncPoint b (.leave i) =
      some { b with places := b.places.eraseIdx i } := rfl
  refine ⟨h.queue.leave i, ?_, ?_, h.sound.step haction, ?_⟩
  · rw [← h.log]
    exact List.map_congr_left fun addr _ ↦ congrFun (itemOf_clientSetQueue w.source i _) addr
  · rw [leave_clients]
    exact forall₂_eraseIdx h.places i
  · rw [h.heard, List.eraseIdx_map]

theorem leave_answered (h : Represents w b front back) (i : ℕ) : Answered w b (.leave i) :=
  ⟨[.leave i], _, front, back, rfl, rfl, h.erase i⟩

theorem dropLagging_answered (h : Represents w b front back) (i : ℕ) : Answered w b (.dropLagging i) := by
  have hwatch : watch w (.dropLagging i) = ⟨dropLagging w.source i,
      if (dropLagging w.source i).clients.length < w.source.clients.length then w.heard.eraseIdx i
        else w.heard⟩ := rfl
  have hsame (hstep : dropLagging w.source i = w.source) : Answered w b (.dropLagging i) := by
    refine ⟨[], b, front, back, Or.inl rfl, rfl, ?_⟩
    rw [hwatch, hstep, if_neg (lt_irrefl _)]
    exact h
  cases hclient : w.source.clients[i]? with
  | none => exact hsame (by rw [dropLagging, hclient])
  | some client =>
    by_cases hlags : w.source.queueSizeLimit < w.source.queueSize ∧ client.refbuf.isSome ∧
        client.refbuf = w.source.streamData
    · have hstep : dropLagging w.source i = leave w.source i := by
        rw [dropLagging, hclient]
        dsimp only
        rw [if_pos hlags]
      have hlt := (List.getElem?_eq_some_iff.mp hclient).1
      refine ⟨[.leave i], _, front, back, Or.inr rfl, rfl, ?_⟩
      rw [hwatch, hstep, leave_clients, List.length_eraseIdx_of_lt hlt, if_pos (by omega)]
      exact h.erase i
    · exact hsame (by rw [dropLagging, hclient]; dsimp only; rw [if_neg hlags])

theorem event_answered (h : Represents w b front back) (event : Event) : Answered w b event := by
  have hsame {s : SourceState} (inv : QueueInv s front back) (hitems : itemOf s = itemOf w.source)
      (hclients : s.clients = w.source.clients) : Represents ⟨s, w.heard⟩ b front back := by
    refine ⟨inv, ?_, ?_, h.sound, h.heard⟩
    · dsimp only
      rw [hitems, h.log]
    · dsimp only
      rw [hclients]
      exact h.places
  cases event with
  | append len syncPoint => exact append_answered h len syncPoint
  | trim => exact trim_answered h
  | setBurstSize size =>
    refine ⟨[], b, front, back, rfl, rfl, hsame ?_ rfl rfl⟩
    exact h.queue.congr (fun _ _ ↦ rfl) le_rfl rfl rfl rfl rfl rfl rfl
      (fun _ _ ↦ rfl) h.queue.client_allocated
      h.queue.client_linked h.queue.client_private
  | setQueueSizeLimit size =>
    refine ⟨[], b, front, back, rfl, rfl, hsame ?_ rfl rfl⟩
    exact h.queue.congr (fun _ _ ↦ rfl) le_rfl rfl rfl rfl rfl rfl rfl
      (fun _ _ ↦ rfl) h.queue.client_allocated
      h.queue.client_linked h.queue.client_private
  | join len => exact join_answered h len
  | arrive introOffset => exact arrive_answered h introOffset
  | readIntro i len introOffset => exact readIntro_answered h i len introOffset
  | leaveFile i => exact leaveFile_answered h i
  | advance i => exact advance_answered h i
  | detach i introOffset => exact detach_answered h i introOffset
  | leave i => exact leave_answered h i
  | dropLagging i => exact dropLagging_answered h i

end Events

/-! ## Runs -/

/-- What an event appends. -/
def published : Event → Option Item
  | .append len syncPoint => some ⟨len, syncPoint⟩
  | _ => none

theorem Answers.published_eq {event : Event} {actions : List (Action Item)} (h : Answers event actions) :
    actions.filterMap Action.item = (published event).toList := by
  cases event with
  | append len syncPoint =>
    rw [show actions = _ from h]
    rfl
  | trim =>
    obtain ⟨count, rfl⟩ := h
    rw [List.filterMap_replicate_of_none rfl]
    rfl
  | leaveFile i =>
    obtain rfl | ⟨start, rfl⟩ := h
    · rfl
    · rfl
  | advance i =>
    obtain rfl | rfl := h
    · rfl
    · rfl
  | dropLagging i =>
    obtain rfl | rfl := h
    · rfl
    · rfl
  | _ =>
    rw [show actions = _ from h]
    rfl

theorem published_answers {events : List Event} {answers : List (List (Action Item))}
    (h : List.Forall₂ Answers events answers) :
    answers.flatten.filterMap Action.item = events.filterMap published := by
  induction h with
  | nil => rfl
  | @cons event actions events answers hhead htail ih =>
    rw [List.flatten_cons, List.filterMap_append, ih, hhead.published_eq, List.filterMap_cons]
    cases published event <;> rfl

theorem represents_start : Represents startWatched State.empty [] [] := by
  obtain ⟨front, back, inv⟩ := startSource_queued
  have hnodes : front ++ back = [] := Chain.unique inv.chain rfl
  obtain ⟨rfl, rfl⟩ := List.append_eq_nil_iff.mp hnodes
  exact ⟨inv, rfl, List.Forall₂.nil, sound_empty, rfl⟩

theorem run_represents (events : List Event) {w : Watched} {b : State Item} {front back : List ℕ}
    (h : Represents w b front back) : ∃ answers b' front' back', List.Forall₂ Answers events answers ∧
      Broadcast.run Item.syncPoint b answers.flatten = some b' ∧
      Represents (run watch w events) b' front' back' := by
  induction events generalizing w b front back with
  | nil => exact ⟨[], b, front, back, List.Forall₂.nil, rfl, h⟩
  | cons event events ih =>
    obtain ⟨actions, middle, front', back', hactions, hrun, hmiddle⟩ := event_answered h event
    obtain ⟨answers, b', front'', back'', hanswers, hrest, hafter⟩ := ih hmiddle
    refine ⟨actions :: answers, b', front'', back'', List.Forall₂.cons hactions hanswers, ?_, hafter⟩
    rw [List.flatten_cons, Broadcast.run_append hrun, hrest]

theorem run_watch_source (events : List Event) (w : Watched) :
    (run watch w events).source = run step w.source events := by
  induction events generalizing w with
  | nil => rfl
  | cons event events ih => exact ih (watch w event)

/-- Every run of the queue is a run of the broadcasting machine, event by event: the queue is the end of its
log, the listeners on the queue are at the buffers of their places, and what they have come to is what they
have been given. -/
theorem queue_broadcasts (events : List Event) : ∃ answers b front back,
    List.Forall₂ Answers events answers ∧ Broadcast.run Item.syncPoint State.empty answers.flatten =
    some b ∧
    (run watch startWatched events).source = run step startSource events ∧
    Represents (run watch startWatched events) b front back := by
  obtain ⟨answers, b, front, back, hanswers, hrun, hrep⟩ := run_represents events represents_start
  exact ⟨answers, b, front, back, hanswers, hrun, run_watch_source events startWatched, hrep⟩

/-- What has been appended is in the queue, apart from a beginning of it. A listener on the queue has come
to a part of this without a gap, from a sync point to the buffer it refers to, and what follows that part is
behind this buffer in the queue. -/
theorem listeners_hear_the_stream (events : List Event) : ∃ forgotten nodes,
    Chain (nextOf (run step startSource events)) (run step startSource events).streamData nodes ∧
    events.filterMap published = forgotten ++ nodes.map (itemOf (run step startSource events)) ∧
    List.Forall₂ (fun client heard ↦ client.onQueue = false ∧ heard = [] ∨
      ∃ addr before behind missed first more, client.refbuf = some addr ∧ nodes = before ++ addr :: behind ∧
        heard = first :: more ∧ first.syncPoint = true ∧
        heard.getLast? = some (itemOf (run step startSource events) addr) ∧
        events.filterMap published = missed ++ heard ++ behind.map (itemOf (run step startSource events)))
      (run step startSource events).clients (run watch startWatched events).heard := by
  obtain ⟨answers, b, front, back, hanswers, hrun, hrep⟩ := run_represents events represents_start
  have hsource : (run watch startWatched events).source = run step startSource events :=
    run_watch_source events startWatched
  have hlog : b.log = events.filterMap published := by
    rw [run_log hrun, published_answers hanswers]
    rfl
  obtain ⟨inv, hqueue, hplaces, hsound, hheard⟩ := hrep
  rw [hsource] at inv hqueue hplaces
  have hwindow : b.log = b.log.take b.first ++ (front ++ back).map
    (itemOf (run step startSource events)) := by
    rw [hqueue, List.take_append_drop]
  refine ⟨b.log.take b.first, front ++ back, inv.chain, by rw [← hlog]; exact hwindow, ?_⟩
  rw [hheard, List.forall₂_map_right_iff]
  obtain ⟨hsame, hzip⟩ := List.forall₂_iff_zip.mp hplaces
  refine List.forall₂_iff_zip.mpr ⟨hsame, fun {client place} hmem ↦ ?_⟩
  have hplaced := hzip hmem
  cases place with
  | none => exact Or.inl ⟨hplaced, rfl⟩
  | some place =>
    have hplace := (List.of_mem_zip hmem).2
    obtain ⟨hqueued, addr, hrefbuf, haddr⟩ := hplaced
    obtain ⟨hstart, hfirst, hposition⟩ := hsound.order place hplace
    obtain ⟨first, more, hgiven, hsync⟩ := hsound.given_head hplace
    obtain ⟨hlt, hget⟩ := List.getElem?_eq_some_iff.mp haddr
    have hsplit : front ++ back = (front ++ back).take (place.position - b.first) ++
        addr :: (front ++ back).drop (place.position - b.first + 1) := by
      rw [← hget, ← List.drop_eq_getElem_cons hlt, List.take_append_drop]
    refine Or.inr ⟨addr, _, _, b.log.take place.start, first, more, hrefbuf, hsplit, hgiven, hsync, ?_, ?_⟩
    · have hindex : place.position = b.first + (place.position - b.first) := by omega
      rw [hsound.given_getLast? hplace, hindex, ← List.getElem?_drop, ← hqueue, List.getElem?_map, haddr,
        Option.map_some]
    · have hbehind : b.log.drop (place.position + 1) =
          ((front ++ back).drop (place.position - b.first + 1)).map
            (itemOf (run step startSource events)) := by
        rw [List.map_drop, hqueue, List.drop_drop]
        congr 1
        omega
      rw [← hlog, ← hbehind]
      exact hsound.log_eq hplace

end Icecast.Source.Queue
