import Icecast.Source.Delivery

/-!
# Moving listeners to another source

`source_move_clients` either changes nothing or takes every listener of the origin over to the
pending tree of the destination, exactly once. A listener that is still being sent its header goes
on with that, any other one starts again without a buffer.
-/

namespace Icecast.Source.Delivery

open AvlTree
open scoped List

/-- The order `_compare_clients` puts the listeners of a tree in. -/
def Before (first second : Client) : Prop := first.id ≤ second.id

instance : DecidableRel Before := fun first second ↦ Nat.decLe first.id second.id

/-- What becomes of a listener that is moved; `con` is `source->con` of the origin. -/
def relocated (con : Bool) (client : Client) : Client :=
  if client.checkBuffer = .formatCheckHttpBuffer then client
  else
    { client with
      refbuf := none
      pos := 0
      checkBuffer := .formatCheckFileBuffer
      introOffset := if con then client.introOffset else -1 }

@[simp] theorem relocated_id (con : Bool) (client : Client) :
    (relocated con client).id = client.id := by
  unfold relocated
  split <;> rfl

theorem moveClient_pending (con : Bool) (moved : Moved) (client : Client) :
    (moveClient con moved client).pending = avlInsert Client.id (relocated con client) moved.pending := by
  by_cases hhttp : client.checkBuffer = .formatCheckHttpBuffer
  · simp [moveClient, relocated, hhttp]
  · simp [moveClient, relocated, hhttp, clientSetQueue]

theorem moveClient_count (con : Bool) (moved : Moved) (client : Client) :
    (moveClient con moved client).count = moved.count + 1 := by
  unfold moveClient
  split <;> rfl

theorem moveLoop_perm (con : Bool) (tree : List Client) (moved : Moved) :
    (moveLoop con tree moved).pending ~ tree.map (relocated con) ++ moved.pending := by
  induction tree generalizing moved with
  | nil => exact List.Perm.refl _
  | cons client tree ih =>
    calc (moveLoop con tree (moveClient con moved client)).pending
        ~ tree.map (relocated con) ++ (moveClient con moved client).pending := ih _
      _ ~ tree.map (relocated con) ++ relocated con client :: moved.pending := by
          rw [moveClient_pending]
          exact (avlInsert_perm _ _ _).append_left _
      _ ~ (client :: tree).map (relocated con) ++ moved.pending := List.perm_middle

theorem moveLoop_count (con : Bool) (tree : List Client) (moved : Moved) :
    (moveLoop con tree moved).count = moved.count + tree.length := by
  induction tree generalizing moved with
  | nil => rfl
  | cons client tree ih =>
    rw [moveLoop, ih, moveClient_count, List.length_cons]
    omega

theorem moveLoop_sorted (con : Bool) (tree : List Client) {moved : Moved}
    (h : moved.pending.Pairwise Before) : (moveLoop con tree moved).pending.Pairwise Before := by
  induction tree generalizing moved with
  | nil => exact h
  | cons client tree ih =>
    apply ih
    rw [moveClient_pending]
    exact avlInsert_sorted Client.id (relocated con client) h

/-- The order of a tree without two listeners of the same id is strict. -/
theorem pairwise_lt_of_nodup {tree : List Client} (hsorted : tree.Pairwise Before)
    (hids : (tree.map (·.id)).Nodup) : tree.Pairwise fun first second ↦ first.id < second.id := by
  have hdistinct : tree.Pairwise fun first second ↦ first.id ≠ second.id :=
    List.pairwise_map.mp hids
  exact (hsorted.and hdistinct).imp fun h ↦ Nat.lt_of_le_of_ne h.1 h.2

/-- The conditions under which `source_move_clients` does anything. -/
def movable (source dest : SourceState) : Bool :=
  source.mount ≠ dest.mount && (dest.running || dest.onDemand) &&
    (source.onDemand || source.format.isSome) && sameType source dest

/-- Both loops, one after the other. -/
def bothLoops (mem : Memory) (source dest : SourceState) : Moved :=
  moveLoop source.con source.clientTree
    (moveLoop source.con source.pendingTree ⟨mem, dest.pendingTree, 0⟩)

/-- None of the early exits is taken. -/
theorem movable_iff (source dest : SourceState) :
    movable source dest = true ↔
      ¬source.mount = dest.mount ∧ ¬(!dest.running && !dest.onDemand) = true ∧
        ¬(!source.onDemand && source.format.isNone) = true ∧ ¬(!sameType source dest) = true := by
  cases hformat : source.format with
  | none => cases hrunning : dest.running <;> simp [movable, hformat, hrunning, and_assoc]
  | some type => cases hrunning : dest.running <;> simp [movable, hformat, hrunning, and_assoc]

theorem sourceMoveClients_of_not_movable (mem : Memory) {source dest : SourceState}
    (h : movable source dest = false) :
    sourceMoveClients mem source dest = (mem, source, dest) := by
  unfold sourceMoveClients
  split_ifs with hmount hdest hsource htype
  · rfl
  · rfl
  · rfl
  · rfl
  · have hmovable := (movable_iff source dest).mpr ⟨hmount, hdest, hsource, htype⟩
    exact absurd (hmovable.symm.trans h) (by decide)

theorem sourceMoveClients_of_movable (mem : Memory) {source dest : SourceState}
    (h : movable source dest = true) :
    sourceMoveClients mem source dest =
      ((bothLoops mem source dest).mem,
        { source with pendingTree := [], clientTree := [], listeners := 0 },
        { dest with
          pendingTree := (bothLoops mem source dest).pending
          onDemandReq := dest.onDemandReq ||
            (!dest.running && dest.onDemand && (bothLoops mem source dest).count ≠ 0) }) := by
  obtain ⟨hmount, hdest, hsource, htype⟩ := (movable_iff source dest).mp h
  unfold sourceMoveClients
  rw [if_neg hmount, if_neg hdest, if_neg hsource, if_neg htype]
  rfl

theorem bothLoops_perm (mem : Memory) (source dest : SourceState) :
    (bothLoops mem source dest).pending ~
      dest.pendingTree ++ (source.pendingTree ++ source.clientTree).map (relocated source.con) := by
  have hpending := moveLoop_perm source.con source.pendingTree ⟨mem, dest.pendingTree, 0⟩
  calc (bothLoops mem source dest).pending
      ~ source.clientTree.map (relocated source.con) ++
          (moveLoop source.con source.pendingTree ⟨mem, dest.pendingTree, 0⟩).pending :=
        moveLoop_perm _ _ _
    _ ~ source.clientTree.map (relocated source.con) ++
          (source.pendingTree.map (relocated source.con) ++ dest.pendingTree) :=
        hpending.append_left _
    _ ~ (source.pendingTree.map (relocated source.con) ++ dest.pendingTree) ++
          source.clientTree.map (relocated source.con) := List.perm_append_comm
    _ ~ (dest.pendingTree ++ source.pendingTree.map (relocated source.con)) ++
          source.clientTree.map (relocated source.con) := List.perm_append_comm.append_right _
    _ ~ dest.pendingTree ++
          (source.pendingTree ++ source.clientTree).map (relocated source.con) := by
        rw [List.map_append, List.append_assoc]

theorem bothLoops_count (mem : Memory) (source dest : SourceState) :
    (bothLoops mem source dest).count = (source.pendingTree ++ source.clientTree).length := by
  rw [bothLoops, moveLoop_count, moveLoop_count, List.length_append, Nat.zero_add]

theorem bothLoops_sorted (mem : Memory) {source dest : SourceState}
    (h : dest.pendingTree.Pairwise Before)
    (hids : ((dest.pendingTree ++ (source.pendingTree ++ source.clientTree)).map (·.id)).Nodup) :
    (bothLoops mem source dest).pending.Pairwise fun first second ↦ first.id < second.id := by
  apply pairwise_lt_of_nodup
  · exact moveLoop_sorted _ _ (moveLoop_sorted _ _ h)
  · have hperm := (bothLoops_perm mem source dest).map (·.id)
    rw [hperm.nodup_iff]
    simpa [Function.comp_def] using hids

/-- Either `source_move_clients` changes nothing, or it leaves the trees of the origin empty and the
pending tree of the destination with every listener of the origin added once. The destination is
asked to start if it is an idle on-demand source and has got a listener. -/
theorem source_move_clients_conserves (mem : Memory) (source dest : SourceState) :
    (movable source dest = false → sourceMoveClients mem source dest = (mem, source, dest)) ∧
    (movable source dest = true →
      ∃ mem' source' dest', sourceMoveClients mem source dest = (mem', source', dest') ∧
        source'.pendingTree = [] ∧ source'.clientTree = [] ∧ source'.listeners = 0 ∧
        dest'.pendingTree ~ dest.pendingTree ++
          (source.pendingTree ++ source.clientTree).map (relocated source.con) ∧
        (dest.pendingTree.Pairwise Before →
          ((dest.pendingTree ++ (source.pendingTree ++ source.clientTree)).map (·.id)).Nodup →
          dest'.pendingTree.Pairwise fun first second ↦ first.id < second.id) ∧
        dest' = { dest with pendingTree := dest'.pendingTree, onDemandReq := dest'.onDemandReq } ∧
        (dest'.onDemandReq = true ↔ dest.onDemandReq = true ∨ dest.running = false ∧
          dest.onDemand = true ∧ source.pendingTree ++ source.clientTree ≠ [])) ∧
    ∀ client, (relocated source.con client).id = client.id ∧
      (client.checkBuffer = .formatCheckHttpBuffer → relocated source.con client = client) ∧
      (client.checkBuffer ≠ .formatCheckHttpBuffer →
        (relocated source.con client).refbuf = none ∧
        (relocated source.con client).checkBuffer = .formatCheckFileBuffer) := by
  refine ⟨sourceMoveClients_of_not_movable mem, ?_, ?_⟩
  · intro hmovable
    refine ⟨_, _, _, sourceMoveClients_of_movable mem hmovable, rfl, rfl, rfl,
      bothLoops_perm mem source dest, bothLoops_sorted mem, rfl, ?_⟩
    simp only [bothLoops_count, Bool.or_eq_true, Bool.and_eq_true, Bool.not_eq_true',
      decide_eq_true_eq, ne_eq, List.length_eq_zero_iff, and_assoc]
  · intro client
    refine ⟨relocated_id _ _, ?_, ?_⟩
    · intro hhttp
      rw [relocated, if_pos hhttp]
    · intro hhttp
      rw [relocated, if_neg hhttp]
      exact ⟨rfl, rfl⟩

/-- A listener that is on the queue and one that is still being sent its header. -/
def exampleClients : List Client :=
  [⟨3, some 9, 17, -1, 200, .formatAdvanceQueue, .writeBufToClient .generic, some .generic, false⟩,
    ⟨5, some 2, 40, 0, 200, .formatCheckHttpBuffer, .formatGenericWriteToClient, some .generic,
      false⟩]

def exampleOrigin : SourceState :=
  { reserved "/live" with
    con := true
    format := some .generic
    clientTree := exampleClients
    listeners := 2 }

/-- An on-demand relay that has not been started. -/
def exampleRelay : SourceState := { reserved "/relay" with onDemand := true }

theorem source_move_clients_conserves_relay :
    ∃ mem' source' dest',
      sourceMoveClients ⟨fun _ ↦ ⟨100, 2, none, true⟩, 10⟩ exampleOrigin exampleRelay =
        (mem', source', dest') ∧
      source'.clientTree = [] ∧
      dest'.pendingTree ~ exampleClients.map (relocated true) ∧
      (dest'.pendingTree.Pairwise fun first second ↦ first.id < second.id) ∧
      dest'.onDemandReq = true := by
  obtain ⟨mem', source', dest', heq, -, hclients, -, hperm, hsorted, -, hreq⟩ :=
    (source_move_clients_conserves ⟨fun _ ↦ ⟨100, 2, none, true⟩, 10⟩ exampleOrigin
      exampleRelay).2.1 (by decide)
  exact ⟨mem', source', dest', heq, hclients, hperm, hsorted (by decide) (by decide),
    hreq.mpr (Or.inr (by decide))⟩

end Icecast.Source.Delivery
