import HashStorm.Blockchain.Ethereum.MatureBlocks
import HashStorm.Lib.Machine

/-!
# Evidence for Ethereum blocks

A block of the pool is confirmed by the block of the main chain at its height, or
by an uncle that was found around it. That no other block is stored as the uncle
is looked up in the database, which does not know the decisions of the same call
yet; and blocks at one height are told apart by the times they were created at.
Over runs in which neither matters, no block or uncle of the chain confirms two
blocks of the pool.
-/

namespace HashStorm.Ethereum.Payout

open Contracts Payments Machine

section Cycles

/-- The hash that a block is given when it is confirmed by the main chain, or by an uncle. -/
def Decision.evidence (d : Decision) : Option String :=
  if d.after.status = .confirmed then
    match d.ground with
    | .mainChain hash => some hash
    | .uncle _ hash _ => some hash
    | _ => none
  else none

/-- The table of blocks, and the hashes that blocks were confirmed by, with their ids. -/
structure State where
  rows : List Row
  evidence : List (Nat × String)

/-- A new block is stored, or there is a payment cycle in which some of the returned blocks are
committed before an exception. -/
inductive Op where
  | insert (row : Row)
  | cycle (daemon : Daemon) (commits : Nat)

/-- `UpdateBlockAsync`. -/
def updateBlock (rows : List Row) (block : Row) : List Row :=
  rows.map fun r =>
    if r.id = block.id then
      { r with
        blockHeight := block.blockHeight
        status := block.status
        type := block.type
        reward := block.reward
        confirmationProgress := block.confirmationProgress
        hash := block.hash }
    else r

/-- The blocks of several decisions are updated, one after the other. -/
def updateBlocks (rows : List Row) (decisions : List Decision) : List Row :=
  decisions.foldl (fun rows d => updateBlock rows d.after) rows

variable (handler : Handler)

/-- The blocks that `UpdatePoolBalancesAsync` commits: those that the call returned, the oldest
first, up to an exception. -/
def committed (rows : List Row) (daemon : Daemon) (commits : Nat) : List Decision :=
  let classification := classifyBlocks handler daemon rows
    (getPendingBlocksForPool handler.poolId rows)
  match classification.returned with
  | none => []
  | some _ => (classification.decisions.insertionSort fun d d' =>
      d.after.created ≤ d'.after.created).take commits

/-- One step. -/
def step (s : State) : Op → Option State
  | .insert row =>
    if row.status = .pending ∧ row.id ∉ s.rows.map Row.id then
      some { s with rows := s.rows ++ [row] }
    else none
  | .cycle daemon commits =>
    let decisions := committed handler s.rows daemon commits
    some
      { rows := updateBlocks s.rows decisions
        evidence := s.evidence ++ decisions.filterMap fun d =>
          d.evidence.map fun hash => (d.before.id, hash) }

/-- The daemon reports the blocks of the pool at the heights and in the roles they have. -/
structure Reports (chain : String → UInt64 × BlockType) (daemon : Daemon) : Prop where
  block : ∀ request height block, daemon.block request height = some block →
    handler.isOurs block.miner = true → chain block.hash = (height, .block)
  uncle : ∀ request height index uncle uheight, daemon.uncle request height index = some uncle →
    handler.isOurs uncle.miner = true → uncle.height = some uheight →
      chain uncle.hash = (uheight, .uncle)

/-- The daemon of a cycle reports the given chain. -/
def Op.Reports (chain : String → UInt64 × BlockType) : Op → Prop
  | .insert _ => True
  | .cycle daemon _ => Payout.Reports handler chain daemon

/-- The uncle by which a block is confirmed. -/
def Decision.uncle (d : Decision) : Option UInt64 :=
  match d.ground with
  | .uncle uheight _ _ => if d.after.status = .confirmed then some uheight else none
  | _ => none

/-- The main chain confirms the block. -/
def Decision.onMainChain (d : Decision) : Bool :=
  match d.ground with
  | .mainChain _ => true
  | _ => false

/-- The blocks that are committed are confirmed by uncles of different heights; and where one is
confirmed by the main chain, no other block of the pool at its height is pending and of the same
time, or was confirmed by the main chain before. -/
structure Separate (rows : List Row) (decisions : List Decision) : Prop where
  uncles : ∀ d ∈ decisions, ∀ d' ∈ decisions, d.before.id ≠ d'.before.id →
    ∀ uheight ∈ d.uncle, d'.uncle ≠ some uheight
  pending : ∀ d ∈ decisions, d.onMainChain = true →
    ∀ r ∈ getPendingBlocksForPool handler.poolId rows, r.id ≠ d.before.id →
      r.blockHeight = d.before.blockHeight → r.created ≠ d.before.created
  confirmed : ∀ d ∈ decisions, d.onMainChain = true →
    ∀ r ∈ rows, r.poolId = handler.poolId → r.status = .confirmed → r.type = some .block →
      r.blockHeight ≠ d.before.blockHeight

theorem ne_some_iff {uncle uncle' : Option UInt64} :
    (∀ uheight ∈ uncle, uncle' ≠ some uheight) ↔ (uncle ≠ none → uncle' ≠ uncle) := by
  cases uncle <;> simp

instance (rows : List Row) (decisions : List Decision) :
    Decidable (Separate handler rows decisions) :=
  decidable_of_iff
    ((∀ d ∈ decisions, ∀ d' ∈ decisions, d.before.id ≠ d'.before.id →
        d.uncle ≠ none → d'.uncle ≠ d.uncle) ∧
      (∀ d ∈ decisions, d.onMainChain = true →
        ∀ r ∈ getPendingBlocksForPool handler.poolId rows, r.id ≠ d.before.id →
          r.blockHeight = d.before.blockHeight → r.created ≠ d.before.created) ∧
      ∀ d ∈ decisions, d.onMainChain = true →
        ∀ r ∈ rows, r.poolId = handler.poolId → r.status = .confirmed → r.type = some .block →
          r.blockHeight ≠ d.before.blockHeight)
    ⟨fun h => ⟨fun d hd d' hd' hid => ne_some_iff.mpr (h.1 d hd d' hd' hid), h.2.1, h.2.2⟩,
      fun h => ⟨fun d hd d' hd' hid => ne_some_iff.mp (h.uncles d hd d' hd' hid), h.pending,
        h.confirmed⟩⟩

/-- The blocks of a cycle are kept apart. -/
def Op.Separate (s : State) : Op → Prop
  | .insert _ => True
  | .cycle daemon commits =>
    Payout.Separate handler s.rows (committed handler s.rows daemon commits)

instance (s : State) : DecidablePred (Op.Separate handler s)
  | .insert _ => isTrue trivial
  | .cycle daemon commits => inferInstanceAs
    (Decidable (Payout.Separate handler s.rows (committed handler s.rows daemon commits)))

end Cycles

section Update

variable {rows : List Row}

/-- What no classification changes. -/
structure Decision.Framed (d : Decision) : Prop where
  id : d.after.id = d.before.id
  poolId : d.after.poolId = d.before.poolId
  created : d.after.created = d.before.created

theorem framed_of_eq {d : Decision} {r : Row} (h : d.after = r) (hid : r.id = d.before.id)
    (hpool : r.poolId = d.before.poolId) (hcreated : r.created = d.before.created) :
    d.Framed := by
  subst h
  exact ⟨hid, hpool, hcreated⟩

theorem Decision.Grounded.framed {handler : Handler} {daemon : Daemon} {d : Decision}
    (h : d.Grounded handler daemon rows) : d.Framed := by
  obtain ⟨latest, before, after, ground⟩ := d
  cases ground with
  | undecided =>
    obtain ⟨reward, progress, hafter⟩ := h
    exact framed_of_eq hafter rfl rfl rfl
  | duplicate reward =>
    obtain ⟨-, -, hafter⟩ := h
    exact framed_of_eq hafter rfl rfl rfl
  | mainChain hash =>
    obtain ⟨-, -, -, reward, hafter⟩ := h
    exact framed_of_eq hafter rfl rfl rfl
  | uncle uheight hash reward =>
    obtain ⟨-, -, -, -, progress, hafter⟩ := h
    exact framed_of_eq hafter rfl rfl rfl
  | lost =>
    obtain ⟨-, progress, hafter⟩ := h
    exact framed_of_eq hafter rfl rfl rfl

theorem map_id_updateBlock (rows : List Row) (block : Row) :
    (updateBlock rows block).map Row.id = rows.map Row.id := by
  rw [updateBlock, List.map_map]
  apply List.map_congr_left
  intro r _
  simp only [Function.comp_apply]
  split <;> rfl

theorem map_id_updateBlocks (decisions : List Decision) (rows : List Row) :
    (updateBlocks rows decisions).map Row.id = rows.map Row.id := by
  induction decisions generalizing rows with
  | nil => rfl
  | cons d decisions ih => exact (ih _).trans (map_id_updateBlock rows d.after)

theorem mem_updateBlock_of_ne {block r : Row} (hr : r ∈ rows) (hne : r.id ≠ block.id) :
    r ∈ updateBlock rows block :=
  List.mem_map.mpr ⟨r, hr, if_neg hne⟩

theorem mem_updateBlock_self {d : Decision} (hframed : d.Framed) (hbefore : d.before ∈ rows) :
    d.after ∈ updateBlock rows d.after := by
  refine List.mem_map.mpr ⟨d.before, hbefore, ?_⟩
  rw [if_pos hframed.id.symm, ← hframed.id, ← hframed.poolId, ← hframed.created]

/-- Blocks without a decision are left alone. -/
theorem mem_updateBlocks_of_not_mem {decisions : List Decision} {r : Row}
    (hframed : ∀ d ∈ decisions, d.Framed) (hr : r ∈ rows)
    (hid : r.id ∉ decisions.map fun d => d.before.id) : r ∈ updateBlocks rows decisions := by
  induction decisions generalizing rows with
  | nil => exact hr
  | cons d decisions ih =>
    obtain ⟨hd, hrest⟩ := List.forall_mem_cons.mp hframed
    rw [List.map_cons, List.mem_cons, not_or] at hid
    refine ih hrest (mem_updateBlock_of_ne hr ?_) hid.2
    rw [hd.id]
    exact hid.1

/-- Every decision is written. -/
theorem mem_updateBlocks {decisions : List Decision} (hframed : ∀ d ∈ decisions, d.Framed)
    (hbefore : ∀ d ∈ decisions, d.before ∈ rows)
    (hnodup : (decisions.map fun d => d.before.id).Nodup) {d : Decision} (hd : d ∈ decisions) :
    d.after ∈ updateBlocks rows decisions := by
  induction decisions generalizing rows with
  | nil => cases hd
  | cons e decisions ih =>
    obtain ⟨he, hrest⟩ := List.forall_mem_cons.mp hframed
    obtain ⟨hbe, hbrest⟩ := List.forall_mem_cons.mp hbefore
    rw [List.map_cons, List.nodup_cons] at hnodup
    rcases List.mem_cons.mp hd with rfl | hd
    · have hid : d.after.id ∉ decisions.map fun d => d.before.id := by
        rw [he.id]
        exact hnodup.1
      have hmem := mem_updateBlocks_of_not_mem hrest (mem_updateBlock_self he hbe) hid
      exact hmem
    · refine ih hrest (fun f hf => mem_updateBlock_of_ne (hbrest f hf) ?_) hnodup.2 hd
      rw [he.id]
      exact fun hid => hnodup.1 (hid ▸ List.mem_map_of_mem hf)

end Update

section Evidence

variable {handler : Handler} {daemon : Daemon} {rows : List Row}
  {chain : String → UInt64 × BlockType}

theorem mem_pending {r : Row} (hr : r ∈ getPendingBlocksForPool handler.poolId rows) :
    r ∈ rows ∧ r.poolId = handler.poolId ∧ r.status = .pending := by
  obtain ⟨hmem, hkey⟩ := List.mem_filter.mp hr
  simp only [decide_eq_true_eq] at hkey
  exact ⟨hmem, hkey⟩

/-- Every committed decision is grounded and about a pending block. -/
theorem committed_spec {commits : Nat} {d : Decision}
    (hd : d ∈ committed handler rows daemon commits) :
    d.Grounded handler daemon rows ∧
      d.before ∈ getPendingBlocksForPool handler.poolId rows := by
  obtain ⟨hsub, hgrounded⟩ := classifyBlocks_spec handler daemon rows
    (getPendingBlocksForPool handler.poolId rows)
  simp only [committed] at hd
  split at hd
  · cases hd
  · have hmem := (List.mem_insertionSort _).mp (List.mem_of_mem_take hd)
    exact ⟨hgrounded d hmem, hsub.subset (List.mem_map_of_mem hmem)⟩

/-- No block is committed twice. -/
theorem nodup_committed (hids : (rows.map Row.id).Nodup) (commits : Nat) :
    ((committed handler rows daemon commits).map fun d => d.before.id).Nodup := by
  obtain ⟨hsub, -⟩ := classifyBlocks_spec handler daemon rows
    (getPendingBlocksForPool handler.poolId rows)
  simp only [committed]
  split
  · exact List.nodup_nil
  · refine ((List.take_sublist _ _).map _).nodup ?_
    refine ((List.perm_insertionSort _ _).map _).nodup_iff.mpr ?_
    have hall := ((hsub.trans List.filter_sublist).map Row.id).nodup hids
    rwa [List.map_map] at hall

/-- A block is confirmed as what a hash stands for on the chain. -/
structure Row.ConfirmedBy (r : Row) (handler : Handler) (chain : String → UInt64 × BlockType)
    (hash : String) : Prop where
  poolId : r.poolId = handler.poolId
  status : r.status = .confirmed
  type : r.type = some (chain hash).2
  blockHeight : r.blockHeight = (chain hash).1

/-- What it means that a decision confirms a block by a hash. -/
theorem evidence_cases {d : Decision} (hd : d.Grounded handler daemon rows)
    (hreports : Reports handler chain daemon) {hash : String} (h : d.evidence = some hash) :
    d.after.status = .confirmed ∧ d.after.type = some (chain hash).2 ∧
      d.after.blockHeight = (chain hash).1 ∧
      ((d.onMainChain = true ∧ d.uncle = none ∧ chain hash = (d.before.blockHeight, .block) ∧
          ¬HasLater handler rows d.before) ∨
        (d.onMainChain = false ∧ d.uncle = some (chain hash).1 ∧ (chain hash).2 = .uncle ∧
          getBlockByPoolHeightAndType handler.poolId rows (chain hash).1 .uncle = none)) := by
  obtain ⟨latest, before, after, ground⟩ := d
  rw [Decision.evidence] at h
  split at h
  · rename_i hconfirmed
    cases ground with
    | undecided => cases h
    | duplicate reward => cases h
    | lost => cases h
    | mainChain hash' =>
      cases h
      obtain ⟨-, hlater, ⟨request, answer, hanswer, hours, rfl⟩, reward, hafter⟩ := hd
      have hlabel := hreports.block _ _ _ hanswer hours
      refine ⟨hconfirmed, ?_, ?_, .inl ⟨rfl, rfl, hlabel, hlater⟩⟩
      · rw [hlabel, hafter]
      · rw [hlabel, hafter]
    | uncle uheight hash' reward =>
      cases h
      obtain ⟨-, -, hfree, ⟨request, height, index, uncle, hanswer, hours, huheight, rfl⟩,
        progress, hafter⟩ := hd
      have hlabel := hreports.uncle _ _ _ _ _ hanswer hours huheight
      refine ⟨hconfirmed, ?_, ?_, .inr ⟨rfl, ?_, ?_, ?_⟩⟩
      · rw [hlabel, hafter]
      · rw [hlabel, hafter]
      · rw [hlabel, Decision.uncle]
        exact if_pos hconfirmed
      · rw [hlabel]
      · rw [hlabel]
        exact hfree
  · cases h

theorem one_lt_length_of_ne {α : Type*} {l : List α} {a b : α} (ha : a ∈ l) (hb : b ∈ l)
    (hne : a ≠ b) : 1 < l.length := by
  match l, ha, hb with
  | [x], ha, hb =>
    exact absurd ((List.mem_singleton.mp ha).trans (List.mem_singleton.mp hb).symm) hne
  | x :: y :: l, _, _ => simp

/-- Of two pending blocks at one height the earlier one has a later one. -/
theorem hasLater_of_created_lt {r r' : Row} (hr : r ∈ getPendingBlocksForPool handler.poolId rows)
    (hr' : r' ∈ getPendingBlocksForPool handler.poolId rows)
    (hheight : r.blockHeight = r'.blockHeight) (hlt : r.created < r'.created) :
    HasLater handler rows r := by
  obtain ⟨hmem, hpool, hstatus⟩ := mem_pending hr
  obtain ⟨hmem', hpool', hstatus'⟩ := mem_pending hr'
  have hdup : r ∈ duplicateBlocks handler.poolId rows r.blockHeight [r.status] := by
    simp [duplicateBlocks, hmem, hpool]
  have hdup' : r' ∈ duplicateBlocks handler.poolId rows r.blockHeight [r.status] := by
    simp [duplicateBlocks, hmem', hpool', hheight, hstatus, hstatus']
  have hne : r ≠ r' := fun h => absurd hlt (h ▸ lt_irrefl _)
  exact ⟨one_lt_length_of_ne hdup hdup' hne,
    List.length_pos_of_mem (List.mem_filter.mpr ⟨hdup', by simpa using hlt⟩)⟩

/-- Two committed blocks are confirmed by different hashes. -/
theorem evidence_ne {commits : Nat} (hreports : Reports handler chain daemon)
    (hsep : Separate handler rows (committed handler rows daemon commits)) {d d' : Decision}
    (hd : d ∈ committed handler rows daemon commits)
    (hd' : d' ∈ committed handler rows daemon commits) (hne : d.before.id ≠ d'.before.id)
    {hash : String} (h : d.evidence = some hash) : d'.evidence ≠ some hash := by
  intro h'
  obtain ⟨hgrounded, hpending⟩ := committed_spec hd
  obtain ⟨hgrounded', hpending'⟩ := committed_spec hd'
  obtain ⟨-, -, -, hcase⟩ := evidence_cases hgrounded hreports h
  obtain ⟨-, -, -, hcase'⟩ := evidence_cases hgrounded' hreports h'
  rcases hcase with ⟨hmain, -, hlabel, hlater⟩ | ⟨-, huncle, htype, -⟩
  · rcases hcase' with ⟨-, -, hlabel', hlater'⟩ | ⟨-, -, htype', -⟩
    · -- two blocks at one height, neither of which is older than the other
      have hheight : d'.before.blockHeight = d.before.blockHeight := by
        rw [hlabel', Prod.mk.injEq] at hlabel
        exact hlabel.1
      have hcreated := hsep.pending d hd hmain d'.before hpending' hne.symm hheight
      rcases lt_or_gt_of_ne hcreated with hlt | hgt
      · exact hlater' (hasLater_of_created_lt hpending' hpending hheight hlt)
      · exact hlater (hasLater_of_created_lt hpending hpending' hheight.symm hgt)
    · rw [hlabel] at htype'
      cases htype'
  · rcases hcase' with ⟨-, -, hlabel', -⟩ | ⟨-, huncle', -, -⟩
    · rw [hlabel'] at htype
      cases htype
    · exact hsep.uncles d hd d' hd' hne _ huncle huncle'

/-- No block of the pool was confirmed by the hash that a block is confirmed by now. -/
theorem evidence_fresh {commits : Nat} (hreports : Reports handler chain daemon)
    (hsep : Separate handler rows (committed handler rows daemon commits)) {d : Decision}
    (hd : d ∈ committed handler rows daemon commits) {hash : String}
    (h : d.evidence = some hash) {r : Row} (hr : r ∈ rows) :
    ¬r.ConfirmedBy handler chain hash := by
  intro hconfirmed
  obtain ⟨hgrounded, -⟩ := committed_spec hd
  obtain ⟨-, -, -, hcase⟩ := evidence_cases hgrounded hreports h
  rcases hcase with ⟨hmain, -, hlabel, -⟩ | ⟨-, -, htype, hfree⟩
  · refine hsep.confirmed d hd hmain r hr hconfirmed.poolId hconfirmed.status ?_ ?_
    · rw [hconfirmed.type, hlabel]
    · rw [hconfirmed.blockHeight, hlabel]
  · have hnone := List.find?_eq_none.mp hfree r hr
    rw [← htype] at hnone
    simp [hconfirmed.poolId, hconfirmed.blockHeight, hconfirmed.type] at hnone

end Evidence

section Runs

variable {handler : Handler} {chain : String → UInt64 × BlockType}

/-- The blocks have different ids, every hash in use confirms one that is stored, and no hash is
in use twice. -/
structure State.Inv (handler : Handler) (chain : String → UInt64 × BlockType) (s : State) :
    Prop where
  ids : (s.rows.map Row.id).Nodup
  confirmed : ∀ e ∈ s.evidence, ∃ r ∈ s.rows, r.id = e.1 ∧ r.ConfirmedBy handler chain e.2
  nodup : (s.evidence.map Prod.snd).Nodup

/-- A new block keeps the invariant. -/
theorem State.Inv.insert {s : State} (h : s.Inv handler chain) {row : Row}
    (hfresh : row.id ∉ s.rows.map Row.id) :
    State.Inv handler chain { s with rows := s.rows ++ [row] } where
  ids := by
    rw [List.map_append, List.nodup_append]
    refine ⟨h.ids, List.nodup_singleton _, ?_⟩
    intro id hid id' hid' heq
    rw [List.map_singleton, List.mem_singleton] at hid'
    exact hfresh (hid' ▸ heq ▸ hid)
  confirmed e he := by
    obtain ⟨r, hr, hid, hconfirmed⟩ := h.confirmed e he
    exact ⟨r, List.mem_append_left _ hr, hid, hconfirmed⟩
  nodup := h.nodup

/-- The hashes of one cycle are different ones. -/
theorem nodup_evidence {s : State} (h : s.Inv handler chain) {daemon : Daemon} {commits : Nat}
    (hreports : Reports handler chain daemon)
    (hsep : Separate handler s.rows (committed handler s.rows daemon commits)) :
    ((committed handler s.rows daemon commits).filterMap Decision.evidence).Nodup := by
  refine List.pairwise_filterMap.mpr ?_
  have hids := List.pairwise_map.mp (@nodup_committed handler daemon _ h.ids commits)
  refine hids.imp_of_mem ?_
  intro d d' hd hd' hne hash hhash hash' hhash' heq
  subst heq
  exact evidence_ne hreports hsep hd hd' hne hhash hhash'

/-- A cycle in which the blocks are kept apart keeps the invariant. -/
theorem State.Inv.cycle {s : State} (h : s.Inv handler chain) {daemon : Daemon} {commits : Nat}
    (hreports : Reports handler chain daemon)
    (hsep : Separate handler s.rows (committed handler s.rows daemon commits)) :
    State.Inv handler chain
      { rows := updateBlocks s.rows (committed handler s.rows daemon commits)
        evidence := s.evidence ++ (committed handler s.rows daemon commits).filterMap fun d =>
          d.evidence.map fun hash => (d.before.id, hash) } := by
  have hids := @nodup_committed handler daemon _ h.ids commits
  have hframed : ∀ d ∈ committed handler s.rows daemon commits, d.Framed :=
    fun d hd => (committed_spec hd).1.framed
  have hpending : ∀ d ∈ committed handler s.rows daemon commits, d.before ∈ s.rows ∧
      d.before.poolId = handler.poolId ∧ d.before.status = .pending :=
    fun d hd => mem_pending (committed_spec hd).2
  have hnew : (((committed handler s.rows daemon commits).filterMap fun d =>
      d.evidence.map fun hash => (d.before.id, hash)).map Prod.snd) =
        (committed handler s.rows daemon commits).filterMap Decision.evidence := by
    rw [List.map_filterMap]
    congr 1
    funext d
    rw [Option.map_map]
    exact Option.map_id'
  refine ⟨?_, ?_, ?_⟩
  · rw [map_id_updateBlocks]
    exact h.ids
  · intro e he
    rcases List.mem_append.mp he with he | he
    · obtain ⟨r, hr, hid, hconfirmed⟩ := h.confirmed e he
      refine ⟨r, mem_updateBlocks_of_not_mem hframed hr ?_, hid, hconfirmed⟩
      -- a block that is committed was pending, so it is not the confirmed one
      intro hmem
      obtain ⟨d, hd, hdid⟩ := List.mem_map.mp hmem
      have hsame := List.inj_on_of_nodup_map h.ids (hpending d hd).1 hr hdid
      have hstatus := (hpending d hd).2.2
      rw [hsame, hconfirmed.status] at hstatus
      cases hstatus
    · obtain ⟨d, hd, hdhash⟩ := List.mem_filterMap.mp he
      obtain ⟨hash, hhash, rfl⟩ := Option.map_eq_some_iff.mp hdhash
      obtain ⟨hstatus, htype, hheight, -⟩ := evidence_cases (committed_spec hd).1 hreports hhash
      refine ⟨d.after, mem_updateBlocks hframed (fun d hd => (hpending d hd).1) hids hd,
        (hframed d hd).id, ?_, hstatus, htype, hheight⟩
      rw [(hframed d hd).poolId]
      exact (hpending d hd).2.1
  · rw [List.map_append, hnew, List.nodup_append]
    refine ⟨h.nodup, nodup_evidence h hreports hsep, ?_⟩
    intro hash hhash hash' hhash' heq
    subst heq
    obtain ⟨e, he, rfl⟩ := List.mem_map.mp hhash
    obtain ⟨d, hd, hdhash⟩ := List.mem_filterMap.mp hhash'
    obtain ⟨r, hr, -, hconfirmed⟩ := h.confirmed e he
    exact evidence_fresh hreports hsep hd hdhash hr hconfirmed

theorem State.Inv.step {s s' : State} {op : Op} (h : s.Inv handler chain)
    (hok : op.Reports handler chain ∧ op.Separate handler s)
    (hstep : step handler s op = some s') : s'.Inv handler chain := by
  cases op with
  | insert row =>
    rw [Payout.step] at hstep
    split at hstep
    · rename_i hnew
      cases hstep
      exact h.insert hnew.2
    · cases hstep
  | cycle daemon commits =>
    cases hstep
    exact h.cycle hok.1 hok.2

/-- Over every run of cycles whose blocks are kept apart, on a chain on which the blocks of the
pool stay what they are, no hash confirms two blocks. -/
theorem confirmed_once {rows : List Row} (hids : (rows.map Row.id).Nodup) {ops : List Op}
    {s : State} (hrun : run (step handler) ⟨rows, []⟩ ops = some s)
    (hreports : ∀ op ∈ ops, op.Reports handler chain)
    (hsep : Meets (step handler) (fun s op => op.Separate handler s) ⟨rows, []⟩ ops) :
    (s.evidence.map Prod.snd).Nodup := by
  have hinitial : State.Inv handler chain ⟨rows, []⟩ :=
    ⟨hids, fun e he => absurd he List.not_mem_nil, List.nodup_nil⟩
  exact (run_invariant (State.Inv handler chain) (fun _ _ _ h hok hstep => h.step hok hstep)
    hinitial (hsep.and_forall hreports) hrun).nodup

/-- The blocks are those of another miner; two of them have an uncle. -/
def othersChain (height : UInt64) : ChainBlock where
  height := some height
  hash := "0xb"
  miner := "0xde709f2102306220921060314715629080e2fb77"
  uncles := if height = 101 ∨ height = 102 then ["uncle"] else []

/-- The uncles, which were mined by the pool. -/
def ownUncles (height : UInt64) : Option ChainBlock :=
  if height = 101 then some ⟨some 100, "0x64", exampleHandler.address, [], 0, 0, []⟩
  else if height = 102 then some ⟨some 101, "0x65", exampleHandler.address, [], 0, 0, []⟩
  else none

/-- What the hashes of the uncles stand for. -/
def unclesByHash (hash : String) : UInt64 × BlockType :=
  if hash = "0x64" then (100, .uncle) else (101, .uncle)

/-- A daemon that reports these blocks and uncles. -/
def unclesDaemon : Daemon := exampleDaemon 130 othersChain ownUncles

theorem reports_unclesDaemon : Reports exampleHandler unclesByHash unclesDaemon where
  block request height block hblock hours := by
    cases hblock
    have hothers : exampleHandler.isOurs (othersChain 0).miner = false := by decide +kernel
    have hminer : (othersChain height).miner = (othersChain 0).miner := rfl
    rw [hminer, hothers] at hours
    cases hours
  uncle request height index uncle uheight huncle _ huheight := by
    simp only [unclesDaemon, exampleDaemon, ownUncles] at huncle
    split at huncle
    · cases huncle
      cases huheight
      decide
    · split at huncle
      · cases huncle
        cases huheight
        decide
      · cases huncle

/-- Two blocks are confirmed by different uncles in two cycles: the first uncle that is found for
the second one is stored already, so the search goes on. -/
theorem confirmed_once_two_uncles : ∃ s,
    run (step exampleHandler) ⟨[], []⟩ [.insert (pendingBlock 1 100 5), .cycle unclesDaemon 1,
      .insert (pendingBlock 2 101 6), .cycle unclesDaemon 1] = some s ∧
    s.evidence = [(1, "0x64"), (2, "0x65")] ∧ (s.evidence.map Prod.snd).Nodup := by
  have hsep : Meets (step exampleHandler) (fun s op => op.Separate exampleHandler s) ⟨[], []⟩
      [.insert (pendingBlock 1 100 5), .cycle unclesDaemon 1, .insert (pendingBlock 2 101 6),
        .cycle unclesDaemon 1] := by decide +kernel
  have hreports : ∀ op ∈ [Op.insert (pendingBlock 1 100 5), .cycle unclesDaemon 1,
      .insert (pendingBlock 2 101 6), .cycle unclesDaemon 1],
      op.Reports exampleHandler unclesByHash := by
    simp [Op.Reports, reports_unclesDaemon]
  have hids : (([] : List Row).map Row.id).Nodup := List.nodup_nil
  have hevidence : (run (step exampleHandler) ⟨[], []⟩ [.insert (pendingBlock 1 100 5),
      .cycle unclesDaemon 1, .insert (pendingBlock 2 101 6), .cycle unclesDaemon 1]).map
        State.evidence = some [(1, "0x64"), (2, "0x65")] := by decide +kernel
  obtain ⟨s, hrun, hs⟩ := Option.map_eq_some_iff.mp hevidence
  exact ⟨s, hrun, hs, confirmed_once hids hrun hreports hsep⟩

/-- Two blocks of neighbouring heights are classified in one cycle, and both are confirmed by the
same uncle. -/
theorem uncle_confirms_two_blocks : ∃ s,
    run (step exampleHandler) ⟨[pendingBlock 1 100 5, pendingBlock 2 101 6], []⟩
      [.cycle unclesDaemon 2] = some s ∧
    s.evidence = [(1, "0x64"), (2, "0x64")] ∧ ¬(s.evidence.map Prod.snd).Nodup := by
  refine ⟨_, rfl, ?_⟩
  decide +kernel

end Runs

end HashStorm.Ethereum.Payout
