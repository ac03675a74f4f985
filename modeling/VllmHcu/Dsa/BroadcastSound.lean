import VllmHcu.Dsa.Broadcast

/-!
# Coherence of the owner broadcasts

`Inv` says that the rows recorded for the layer in the scratch buffers, and the
rows of a pending prefetch, hold the owner's content on every rank. Every event
keeps it as long as no forward updates a recorded row while it has to send
others: there only the owner writes and the recorded row is not sent again.
-/

namespace VllmHcu.Dsa

section
variable {Rank V : Type} [DecidableEq Rank] (rt : Runtime Rank)

/-- Every rank sees the owner's content of a block. -/
def Agree (store : Rank → Buffer → Int → V) (layerIdx block : Int) : Prop :=
  ∀ rank, store rank (rt.bufferOf rank layerIdx) block =
    store (rt.ownerOf layerIdx) (rt.bufferOf (rt.ownerOf layerIdx) layerIdx) block

/-- The blocks the attention of the next forwards reads. -/
def ActiveBlock (s : Caches Rank V) (block : Int) : Prop :=
  ∀ ids, activeBlockIdsFor rt s.activeBlockIds = some ids → block ∈ ids

/-- The rows recorded for a layer agree. -/
structure RowsAgree (store : Rank → Buffer → Int → V) (layerIdx : Int) (ids : Option (Finset Int))
    (full : Bool) : Prop where
  covers : rt.covers layerIdx = true
  full : full = true → ∀ block, Agree rt store layerIdx block
  known : ∀ known, ids = some known → ∀ block ∈ known, Agree rt store layerIdx block

structure FamilyInv (store : Rank → Buffer → Int → V) (fam : FamilyRemoteState) : Prop where
  remote : ∀ l, fam.remoteLayerId = some l → RowsAgree rt store l fam.remoteBlockIds fam.remoteFull
  pending : ∀ l, fam.pendingRemoteLayerId = some l →
    RowsAgree rt store l fam.pendingRemoteBlockIds fam.pendingRemoteFull
  -- a prefetch overwrites the scratch buffers, so nothing else is known to be there
  nothingKnown : fam.pendingRemoteBroadcast = true → fam.remoteBlockIds = none ∧ fam.remoteFull = false
  noPending : fam.pendingRemoteBroadcast = false → fam.pendingRemoteLayerId = none

def Inv (s : Caches Rank V) : Prop := FamilyInv rt s.store s.family

end

/-! ## Bookkeeping steps -/

section
variable (fam : FamilyRemoteState) (l : Int)

variable {fam l} in
theorem resetOther_of_eq (h : fam.remoteLayerId = some l) : resetOther fam l = fam := by
  rw [resetOther, if_neg (not_not.mpr h)]

variable {fam l} in
theorem resetOther_of_ne (h : fam.remoteLayerId ≠ some l) :
    resetOther fam l = { fam with remoteBlockIds := none, remoteFull := false } := by
  rw [resetOther, if_pos h]

theorem resetOther_remoteLayerId : (resetOther fam l).remoteLayerId = fam.remoteLayerId := by
  unfold resetOther
  split <;> rfl

theorem resetOther_pending :
    (resetOther fam l).pendingRemoteLayerId = fam.pendingRemoteLayerId ∧
      (resetOther fam l).pendingRemoteBlockIds = fam.pendingRemoteBlockIds ∧
      (resetOther fam l).pendingRemoteFull = fam.pendingRemoteFull ∧
      (resetOther fam l).pendingRemoteBroadcast = fam.pendingRemoteBroadcast := by
  unfold resetOther
  split <;> exact ⟨rfl, rfl, rfl, rfl⟩

theorem recordRemoteSelection_remoteLayerId (ids : Option (Finset Int)) (full : Bool) :
    (recordRemoteSelection fam l ids full).remoteLayerId = some l := by
  unfold recordRemoteSelection
  dsimp only
  repeat' split
  all_goals rfl

theorem recordRemoteSelection_pending (ids : Option (Finset Int)) (full : Bool) :
    (recordRemoteSelection fam l ids full).pendingRemoteLayerId = fam.pendingRemoteLayerId ∧
      (recordRemoteSelection fam l ids full).pendingRemoteBroadcast = fam.pendingRemoteBroadcast := by
  obtain ⟨h₁, _, _, h₄⟩ := resetOther_pending fam l
  unfold recordRemoteSelection
  dsimp only
  repeat' split
  all_goals exact ⟨h₁, h₄⟩

/-- What is known after recording rows of a layer: what was known of that layer, and those rows. -/
theorem recordRemoteSelection_known (ids : Option (Finset Int)) (full : Bool) :
    (recordRemoteSelection fam l ids full).remoteFull = full ∧
      ∀ known, (recordRemoteSelection fam l ids full).remoteBlockIds = some known → ∀ b ∈ known,
        (∃ old, fam.remoteLayerId = some l ∧ fam.remoteBlockIds = some old ∧ b ∈ old) ∨
          ∃ new, ids = some new ∧ b ∈ new := by
  have hold : ∀ known, (resetOther fam l).remoteBlockIds = some known → ∀ b ∈ known,
      ∃ old, fam.remoteLayerId = some l ∧ fam.remoteBlockIds = some old ∧ b ∈ old := by
    intro known hk b hb
    by_cases he : fam.remoteLayerId = some l
    · rw [resetOther_of_eq he] at hk
      exact ⟨known, he, hk, hb⟩
    · rw [resetOther_of_ne he] at hk
      cases hk
  unfold recordRemoteSelection
  dsimp only
  cases full with
  | true => exact ⟨rfl, nofun⟩
  | false =>
    cases ids with
    | none => exact ⟨rfl, fun known hk b hb => .inl (hold known hk b hb)⟩
    | some ids =>
      by_cases he : ids = ∅
      · rw [if_neg (by simp)]
        dsimp only
        rw [if_pos he]
        exact ⟨rfl, fun known hk b hb => .inl (hold known hk b hb)⟩
      · rw [if_neg (by simp)]
        dsimp only
        rw [if_neg he]
        cases hr : (resetOther fam l).remoteBlockIds with
        | none =>
          dsimp only
          refine ⟨rfl, fun known hk b hb => .inr ⟨ids, rfl, ?_⟩⟩
          cases hk
          exact hb
        | some old =>
          dsimp only
          refine ⟨rfl, fun known hk b hb => ?_⟩
          cases hk
          rcases Finset.mem_union.mp hb with hb | hb
          · exact .inl (hold old hr b hb)
          · exact .inr ⟨ids, rfl, hb⟩

end

section
variable {Rank V : Type} [DecidableEq Rank] {rt : Runtime Rank} {s : Caches Rank V}
  {fam : FamilyRemoteState} {l : Int}

theorem FamilyInv.resetOther (h : FamilyInv rt s.store fam) (l : Int) : FamilyInv rt s.store (resetOther fam l) := by
  by_cases he : fam.remoteLayerId = some l
  · rwa [resetOther_of_eq he]
  · rw [resetOther_of_ne he]
    exact ⟨fun l' hl => ⟨(h.remote l' hl).covers, nofun, nofun⟩, h.pending, fun _ => ⟨rfl, rfl⟩, h.noPending⟩

theorem FamilyInv.record (hremote : fam.remoteLayerId = some l →
      ∀ known, fam.remoteBlockIds = some known → ∀ b ∈ known, Agree rt s.store l b)
    (hpend : fam.pendingRemoteBroadcast = false ∧ fam.pendingRemoteLayerId = none)
    {ids : Option (Finset Int)} {full : Bool} (hrows : RowsAgree rt s.store l ids full) :
    FamilyInv rt s.store (recordRemoteSelection fam l ids full) := by
  obtain ⟨hp₁, hp₂⟩ := recordRemoteSelection_pending fam l ids full
  obtain ⟨hfull, hknown⟩ := recordRemoteSelection_known fam l ids full
  refine ⟨?_, ?_, ?_, ?_⟩
  · intro l' hl'
    rw [recordRemoteSelection_remoteLayerId] at hl'
    cases hl'
    refine ⟨hrows.covers, ?_, ?_⟩
    · rw [hfull]
      exact hrows.full
    · intro known hk b hb
      rcases hknown known hk b hb with ⟨old, hl, ho, hm⟩ | ⟨new, hn, hm⟩
      · exact hremote hl old ho b hm
      · exact hrows.known new hn b hm
  · intro l' hl'
    rw [hp₁, hpend.2] at hl'
    cases hl'
  · intro hb
    rw [hp₂, hpend.1] at hb
    cases hb
  · intro _
    rw [hp₁, hpend.2]

theorem finalizePendingBroadcast_of_not (h : fam.pendingRemoteBroadcast = false) (b : Bool) :
    finalizePendingBroadcast fam b = fam := by rw [finalizePendingBroadcast, if_pos h]

theorem finalizePendingBroadcast_false (h : fam.pendingRemoteBroadcast = true) :
    finalizePendingBroadcast fam false = { fam with
      pendingRemoteBroadcast := false, pendingRemoteLayerId := none, pendingRemoteBlockIds := none,
      pendingRemoteFull := false } := by
  rw [finalizePendingBroadcast, if_neg (by simp [h])]

theorem finalizePendingBroadcast_true (h : fam.pendingRemoteBroadcast = true)
    (hl : fam.pendingRemoteLayerId = some l) :
    finalizePendingBroadcast fam true = recordRemoteSelection { fam with
      pendingRemoteBroadcast := false, pendingRemoteLayerId := none, pendingRemoteBlockIds := none,
      pendingRemoteFull := false } l fam.pendingRemoteBlockIds fam.pendingRemoteFull := by
  rw [finalizePendingBroadcast, if_neg (by simp [h])]
  simp only [hl]
  unfold recordRemoteSelection resetOther
  dsimp only
  split_ifs
  all_goals first
    | rfl
    | (cases fam.pendingRemoteBlockIds with
       | none => rfl
       | some ids => dsimp only; split_ifs <;> first | rfl | (cases fam.remoteBlockIds <;> rfl))

theorem FamilyInv.finalize (h : FamilyInv rt s.store fam) (b : Bool) :
    FamilyInv rt s.store (finalizePendingBroadcast fam b) ∧
      (finalizePendingBroadcast fam b).pendingRemoteBroadcast = false := by
  cases hp : fam.pendingRemoteBroadcast with
  | false => rw [finalizePendingBroadcast_of_not hp]; exact ⟨h, hp⟩
  | true =>
    have hdrop : FamilyInv rt s.store { fam with
        pendingRemoteBroadcast := false, pendingRemoteLayerId := none, pendingRemoteBlockIds := none,
        pendingRemoteFull := false } := ⟨h.remote, nofun, nofun, fun _ => rfl⟩
    cases b with
    | false => rw [finalizePendingBroadcast_false hp]; exact ⟨hdrop, rfl⟩
    | true =>
      cases hl : fam.pendingRemoteLayerId with
      | none =>
        have hnone : finalizePendingBroadcast fam true = finalizePendingBroadcast fam false := by
          rw [finalizePendingBroadcast, finalizePendingBroadcast, hl]
        rw [hnone, finalizePendingBroadcast_false hp]
        exact ⟨hdrop, rfl⟩
      | some l =>
        have hrec := FamilyInv.record (fun hr known hk => (hdrop.remote l hr).known known hk)
          ⟨rfl, rfl⟩ (h.pending l hl)
        rw [finalizePendingBroadcast_true hp hl]
        exact ⟨hrec, (recordRemoteSelection_pending _ l _ _).2⟩

theorem FamilyInv.known_subset (h : FamilyInv rt s.store fam) (hp : fam.pendingRemoteBroadcast = false)
    {ids : Option (Finset Int)} (hids : ∀ known, ids = some known → ∃ old, fam.remoteBlockIds = some old ∧
      known ⊆ old) : FamilyInv rt s.store { fam with remoteBlockIds := ids } := by
  refine ⟨fun l hl => ⟨(h.remote l hl).covers, (h.remote l hl).full, ?_⟩, h.pending, ?_, h.noPending⟩
  · intro known hk b hb
    obtain ⟨old, ho, hsub⟩ := hids known hk
    exact (h.remote l hl).known old ho b (hsub hb)
  · intro ht
    rw [hp] at ht
    cases ht

theorem FamilyInv.invalidate (h : FamilyInv rt s.store fam) (ids : Option (Finset Int)) :
    FamilyInv rt s.store (invalidateRemoteBroadcastState fam ids) := by
  have hfin : FamilyInv rt s.store (if fam.pendingRemoteBroadcast then finalizePendingBroadcast fam true else fam) ∧
      (if fam.pendingRemoteBroadcast then finalizePendingBroadcast fam true
        else fam).pendingRemoteBroadcast = false := by
    cases hp : fam.pendingRemoteBroadcast with
    | true => exact h.finalize true
    | false => exact ⟨h, hp⟩
  obtain ⟨hinv, hp⟩ := hfin
  unfold invalidateRemoteBroadcastState
  dsimp only
  generalize (if fam.pendingRemoteBroadcast then finalizePendingBroadcast fam true else fam) = fam' at hinv hp
  cases ids with
  | none =>
    dsimp only
    split
    · exact hinv
    · exact hinv.known_subset hp nofun
  | some ids =>
    dsimp only
    split
    · exact hinv
    · cases hr : fam'.remoteBlockIds with
      | none => exact hinv
      | some known =>
        refine hinv.known_subset hp fun known' hk => ⟨known, hr, ?_⟩
        cases hk
        exact Finset.inter_subset_left

/-! ## Cache contents -/

theorem view_update (on : Rank → Bool) (ids : Int → Bool) (rows : Rank → Int → V) (rank : Rank) (block : Int) :
    (s.update rt l on ids rows).view rt rank l block =
      if on rank && ids block then rows rank block else s.view rt rank l block := by
  simp [Caches.view, Caches.update]

theorem view_update_of_ne {l' : Int} {on : Rank → Bool} {ids : Int → Bool} {rows : Rank → Int → V}
    {rank : Rank} (h : rt.bufferOf rank l' ≠ rt.bufferOf rank l) (block : Int) :
    (s.update rt l on ids rows).view rt rank l' block = s.view rt rank l' block := by
  simp [Caches.view, Caches.update, h]

theorem agree_iff_view {block : Int} : Agree rt s.store l block ↔
    ∀ rank, s.view rt rank l block = s.view rt (rt.ownerOf l) l block := Iff.rfl

theorem agree_sendRows_of_mem {ids : Option (Finset Int)} {block : Int}
    (h : ∀ rows, ids = some rows → block ∈ rows) : Agree rt (s.sendRows rt l ids).store l block := by
  refine agree_iff_view.mpr fun rank => ?_
  rw [Caches.sendRows, view_update, view_update]
  by_cases hr : rank = rt.ownerOf l
  · rw [hr]
  · cases ids with
    | none => simp [hr]
    | some rows => simp [hr, h rows rfl]

theorem agree_sendRows {ids : Option (Finset Int)} {block : Int} (h : Agree rt s.store l block) :
    Agree rt (s.sendRows rt l ids).store l block := by
  refine agree_iff_view.mpr fun rank => ?_
  rw [Caches.sendRows, view_update, view_update]
  by_cases hr : rank = rt.ownerOf l
  · rw [hr]
  · rw [agree_iff_view.mp h rank]
    simp

theorem agree_update_all {on : Rank → Bool} (hon : ∀ rank, on rank = true) (u : KvUpdate V) {block : Int}
    (h : Agree rt s.store l block) : Agree rt (doKvCacheUpdate rt s l on u).store l block := by
  refine agree_iff_view.mpr fun rank => ?_
  rw [doKvCacheUpdate, view_update, view_update, hon, hon, agree_iff_view.mp h rank]

theorem agree_update_untouched {on : Rank → Bool} {u : KvUpdate V} {block : Int} (hb : block ∉ u.blocks)
    (h : Agree rt s.store l block) : Agree rt (doKvCacheUpdate rt s l on u).store l block := by
  refine agree_iff_view.mpr fun rank => ?_
  rw [doKvCacheUpdate, view_update, view_update]
  simpa [hb] using agree_iff_view.mp h rank

theorem agree_update_replicated (hc : rt.covers l = false) {on : Rank → Bool} (u : KvUpdate V) {l' block : Int}
    (hc' : rt.covers l' = true) (h : Agree rt s.store l' block) :
    Agree rt (doKvCacheUpdate rt s l on u).store l' block := by
  have hne : ∀ rank, rt.bufferOf rank l' ≠ rt.bufferOf rank l := by
    intro rank he
    have hl : rt.bufferOf rank l = .layer l := by simp [Runtime.bufferOf, Runtime.isOwned, hc]
    rw [hl, Runtime.bufferOf] at he
    split at he
    · cases he
      rw [hc] at hc'
      cases hc'
    · cases he
  refine agree_iff_view.mpr fun rank => ?_
  rw [doKvCacheUpdate, view_update_of_ne (hne _), view_update_of_ne (hne _)]
  exact agree_iff_view.mp h rank

/-! ## The broadcast of a layer -/

omit [DecidableEq Rank] in
theorem activeBlockIdsFor_nonempty {active : Option (Finset Int)} {ids : Finset Int}
    (h : activeBlockIdsFor rt active = some ids) : ids ≠ ∅ := by
  unfold activeBlockIdsFor at h
  split at h
  · cases h
  · cases active with
    | none => cases h
    | some rows =>
      dsimp only at h
      split_ifs at h with he
      cases h
      exact he

section
omit [DecidableEq Rank]
variable {active : Option (Finset Int)} {ids : Finset Int}

theorem prepareRemoteSelection_full (ha : activeBlockIdsFor rt active = none) :
    prepareRemoteSelection rt active l fam =
      (resetOther fam l, ⟨none, true, !(resetOther fam l).remoteFull⟩) := by
  unfold prepareRemoteSelection
  rw [ha]

theorem prepareRemoteSelection_landed (ha : activeBlockIdsFor rt active = some ids)
    (hr : (resetOther fam l).remoteFull = true) :
    prepareRemoteSelection rt active l fam = (resetOther fam l, ⟨some ids, false, false⟩) := by
  unfold prepareRemoteSelection
  simp only [ha, hr, ite_true]

theorem prepareRemoteSelection_sparse (ha : activeBlockIdsFor rt active = some ids)
    (hr : (resetOther fam l).remoteFull = false) :
    prepareRemoteSelection rt active l fam =
      (resetOther fam l, ⟨some (neededRows (resetOther fam l).remoteBlockIds ids), false,
        decide (neededRows (resetOther fam l).remoteBlockIds ids ≠ ∅)⟩) := by
  unfold prepareRemoteSelection
  simp only [ha, hr, Bool.false_eq_true, ite_false]

theorem prepareRemoteSelection_fst : (prepareRemoteSelection rt active l fam).1 = resetOther fam l := by
  cases ha : activeBlockIdsFor rt active with
  | none => rw [prepareRemoteSelection_full ha]
  | some ids =>
    cases hr : (resetOther fam l).remoteFull with
    | true => rw [prepareRemoteSelection_landed ha hr]
    | false => rw [prepareRemoteSelection_sparse ha hr]

end

theorem broadcastTensorFromOwner_skip {fam : FamilyRemoteState} {sel : Selection}
    (hp : prepareRemoteSelection rt s.activeBlockIds l s.family = (fam, sel)) (hs : sel.needsCollective = false) :
    broadcastTensorFromOwner rt s l =
      { s with family := recordRemoteSelection fam l sel.blockIds sel.full } := by
  rw [broadcastTensorFromOwner, hp]
  simp only [hs, ite_true]

theorem broadcastTensorFromOwner_send {fam : FamilyRemoteState} {sel : Selection}
    (hp : prepareRemoteSelection rt s.activeBlockIds l s.family = (fam, sel)) (hs : sel.needsCollective = true) :
    broadcastTensorFromOwner rt s l = { s.sendRows rt l sel.blockIds with
      family := recordRemoteSelection fam l sel.blockIds sel.full } := by
  rw [broadcastTensorFromOwner, hp]
  simp only [hs, Bool.true_eq_false, ite_false]

theorem mem_neededRows_or {known : Option (Finset Int)} {ids : Finset Int} {b : Int} (hb : b ∈ ids) :
    b ∈ neededRows known ids ∨ ∃ rows, known = some rows ∧ b ∈ rows := by
  unfold neededRows
  cases known with
  | none => exact .inl hb
  | some rows =>
    by_cases hr : b ∈ rows
    · exact .inr ⟨rows, rfl, hr⟩
    · refine .inl ?_
      dsimp only
      split
      · exact hb
      · exact Finset.mem_sdiff.mpr ⟨hb, hr⟩

theorem inv_of_record (hremote : ∀ known, fam.remoteBlockIds = some known → ∀ b ∈ known, Agree rt s.store l b)
    (hpend : fam.pendingRemoteBroadcast = false ∧ fam.pendingRemoteLayerId = none)
    {ids : Option (Finset Int)} {full : Bool} (hrows : RowsAgree rt s.store l ids full) :
    Inv rt { s with family := recordRemoteSelection fam l ids full } :=
  FamilyInv.record (fun _ => hremote) hpend hrows

/-- What the broadcast of `l` relies on: no prefetch in flight, and the rows it will not send agree. -/
structure ReadyToSend (rt : Runtime Rank) (active : Option (Finset Int)) (store : Rank → Buffer → Int → V)
    (l : Int) (fam : FamilyRemoteState) : Prop where
  covers : rt.covers l = true
  noPending : fam.pendingRemoteBroadcast = false ∧ fam.pendingRemoteLayerId = none
  full : fam.remoteLayerId = some l → fam.remoteFull = true → ∀ block, Agree rt store l block
  known : fam.remoteLayerId = some l → ∀ ids, activeBlockIdsFor rt active = some ids →
    ∀ known, fam.remoteBlockIds = some known → ∀ block ∈ known, Agree rt store l block

theorem FamilyInv.ready (h : FamilyInv rt s.store fam) (hc : rt.covers l = true)
    (hp : fam.pendingRemoteBroadcast = false) : ReadyToSend rt s.activeBlockIds s.store l fam :=
  ⟨hc, ⟨hp, h.noPending hp⟩, fun hl => (h.remote l hl).full, fun hl _ _ => (h.remote l hl).known⟩

theorem broadcastTensorFromOwner_spec (h : ReadyToSend rt s.activeBlockIds s.store l s.family) :
    Inv rt (broadcastTensorFromOwner rt s l) ∧
      ∀ block, ActiveBlock rt s block → Agree rt (broadcastTensorFromOwner rt s l).store l block := by
  have hrest : (resetOther s.family l).pendingRemoteBroadcast = false ∧
      (resetOther s.family l).pendingRemoteLayerId = none := by
    obtain ⟨h₁, _, _, h₄⟩ := resetOther_pending s.family l
    rw [h₁, h₄]
    exact h.noPending
  have hfull : (resetOther s.family l).remoteFull = true → ∀ block, Agree rt s.store l block := by
    by_cases he : s.family.remoteLayerId = some l
    · rw [resetOther_of_eq he]
      exact h.full he
    · rw [resetOther_of_ne he]
      nofun
  have hknown : ∀ ids, activeBlockIdsFor rt s.activeBlockIds = some ids →
      ∀ known, (resetOther s.family l).remoteBlockIds = some known → ∀ block ∈ known, Agree rt s.store l block := by
    by_cases he : s.family.remoteLayerId = some l
    · rw [resetOther_of_eq he]
      exact h.known he
    · rw [resetOther_of_ne he]
      nofun
  cases ha : activeBlockIdsFor rt s.activeBlockIds with
  | none =>
    have hprep : prepareRemoteSelection rt s.activeBlockIds l s.family =
        (resetOther s.family l, ⟨none, true, !(resetOther s.family l).remoteFull⟩) :=
      prepareRemoteSelection_full ha
    cases hr : (resetOther s.family l).remoteFull with
    | true =>
      rw [hr] at hprep
      rw [broadcastTensorFromOwner_skip hprep rfl]
      refine ⟨inv_of_record ?_ hrest ⟨h.covers, fun _ => hfull hr, ?_⟩, fun block _ => hfull hr block⟩
      · exact fun _ _ b _ => hfull hr b
      · exact fun _ _ b _ => hfull hr b
    | false =>
      have hall : ∀ block, Agree rt (s.sendRows rt l none).store l block := fun block =>
        agree_sendRows_of_mem nofun
      rw [hr] at hprep
      rw [broadcastTensorFromOwner_send hprep rfl]
      refine ⟨inv_of_record ?_ hrest ⟨h.covers, fun _ => hall, ?_⟩, fun block _ => hall block⟩
      · exact fun _ _ b _ => hall b
      · exact fun _ _ b _ => hall b
  | some ids =>
    cases hr : (resetOther s.family l).remoteFull with
    | true =>
      rw [broadcastTensorFromOwner_skip (prepareRemoteSelection_landed ha hr) rfl]
      refine ⟨inv_of_record ?_ hrest ⟨h.covers, fun _ => hfull hr, ?_⟩, fun block _ => hfull hr block⟩
      · exact fun _ _ b _ => hfull hr b
      · exact fun _ _ b _ => hfull hr b
    | false =>
      have hprep := prepareRemoteSelection_sparse ha hr
      by_cases hn : neededRows (resetOther s.family l).remoteBlockIds ids = ∅
      · -- every active row is known
        rw [broadcastTensorFromOwner_skip hprep (by simp [hn])]
        refine ⟨inv_of_record (hknown ids ha) hrest ⟨h.covers, fun hf => ?_, ?_⟩, ?_⟩
        · cases hf
        · intro rows he b hb
          cases he
          rw [hn] at hb
          simp at hb
        · intro block hb
          obtain ⟨rows, hk, hm⟩ : ∃ rows, (resetOther s.family l).remoteBlockIds = some rows ∧ block ∈ rows := by
            refine (mem_neededRows_or (hb ids ha)).resolve_left fun hm => ?_
            rw [hn] at hm
            simp at hm
          exact hknown ids ha rows hk block hm
      · rw [broadcastTensorFromOwner_send hprep (by simp [hn])]
        have hsent : ∀ block ∈ neededRows (resetOther s.family l).remoteBlockIds ids,
            Agree rt (s.sendRows rt l (some (neededRows (resetOther s.family l).remoteBlockIds ids))).store l block :=
          fun block hb => agree_sendRows_of_mem fun rows he => by cases he; exact hb
        have hkept : ∀ rows, (resetOther s.family l).remoteBlockIds = some rows → ∀ block ∈ rows,
            Agree rt (s.sendRows rt l (some (neededRows (resetOther s.family l).remoteBlockIds ids))).store l block :=
          fun rows hk block hb => agree_sendRows (hknown ids ha rows hk block hb)
        refine ⟨inv_of_record hkept hrest ⟨h.covers, fun hf => ?_, ?_⟩, ?_⟩
        · cases hf
        · intro rows he
          cases he
          exact hsent
        · intro block hb
          rcases mem_neededRows_or (hb ids ha) with hm | ⟨rows, hk, hm⟩
          · exact hsent block hm
          · exact hkept rows hk block hm

theorem broadcastTensorFromOwner_active :
    (broadcastTensorFromOwner rt s l).activeBlockIds = s.activeBlockIds := by
  unfold broadcastTensorFromOwner
  dsimp only
  split <;> rfl

/-- The bookkeeping once the prefetch of another layer is dropped and that of `l` has landed. -/
def landed (fam : FamilyRemoteState) (l : Int) : FamilyRemoteState :=
  if fam.pendingRemoteBroadcast then finalizePendingBroadcast fam (fam.pendingRemoteLayerId == some l) else fam

theorem FamilyInv.landed (h : FamilyInv rt s.store fam) (l : Int) :
    FamilyInv rt s.store (landed fam l) ∧ (landed fam l).pendingRemoteBroadcast = false := by
  unfold Dsa.landed
  cases hp : fam.pendingRemoteBroadcast with
  | true => exact h.finalize _
  | false => exact ⟨h, hp⟩

theorem broadcastDsaCacheFromOwner_eq (hc : rt.covers l = true) : broadcastDsaCacheFromOwner rt s l =
    if (landed s.family l).remoteLayerId = some l ∧ (landed s.family l).remoteFull = true then
      { s with family := landed s.family l }
    else broadcastTensorFromOwner rt { s with family := landed s.family l } l := by
  rw [broadcastDsaCacheFromOwner, if_neg (by simp [hc])]
  rfl

theorem broadcastDsaCacheFromOwner_spec (h : ReadyToSend rt s.activeBlockIds s.store l (landed s.family l)) :
    Inv rt (broadcastDsaCacheFromOwner rt s l) ∧
      ∀ block, ActiveBlock rt s block → Agree rt (broadcastDsaCacheFromOwner rt s l).store l block := by
  rw [broadcastDsaCacheFromOwner_eq h.covers]
  split
  · rename_i hfull
    have hall := h.full hfull.1 hfull.2
    refine ⟨⟨?_, ?_, ?_, fun _ => h.noPending.2⟩, fun block _ => hall block⟩
    · intro l' hl'
      rw [hfull.1] at hl'
      cases hl'
      exact ⟨h.covers, fun _ => hall, fun _ _ b _ => hall b⟩
    · intro l' hl'
      rw [h.noPending.2] at hl'
      cases hl'
    · intro hb
      rw [h.noPending.1] at hb
      cases hb
  · exact broadcastTensorFromOwner_spec h

theorem broadcast_replicated (hc : rt.covers l = false) : broadcastDsaCacheFromOwner rt s l = s := by
  rw [broadcastDsaCacheFromOwner, if_pos hc]

theorem broadcastDsaCacheFromOwner_active :
    (broadcastDsaCacheFromOwner rt s l).activeBlockIds = s.activeBlockIds := by
  cases hc : rt.covers l with
  | false => rw [broadcast_replicated hc]
  | true =>
    rw [broadcastDsaCacheFromOwner_eq hc]
    split
    · rfl
    · exact broadcastTensorFromOwner_active

/-! ## Steps -/

theorem Inv.setActive (h : Inv rt s) (blockIds : Option (List Int)) :
    Inv rt (setActiveDsaBroadcastBlockIds s blockIds) := by
  unfold setActiveDsaBroadcastBlockIds
  dsimp only
  unfold Inv
  dsimp only
  split
  · exact FamilyInv.invalidate h _
  · exact h

/-- With no prefetch in flight and another layer in the scratch buffers, a collective is needed. -/
theorem needsCollective_of_ne (hne : fam.remoteLayerId ≠ some l) :
    (prepareRemoteSelection rt s.activeBlockIds l fam).2.needsCollective = true := by
  have hr : (resetOther fam l).remoteFull = false := by rw [resetOther_of_ne hne]
  cases ha : activeBlockIdsFor rt s.activeBlockIds with
  | none => rw [prepareRemoteSelection_full ha, hr]; rfl
  | some ids =>
    have hk : (resetOther fam l).remoteBlockIds = none := by rw [resetOther_of_ne hne]
    rw [prepareRemoteSelection_sparse ha hr, hk]
    exact decide_eq_true (activeBlockIdsFor_nonempty ha)

theorem Inv.async (h : FamilyInv rt s.store s.family) (hp : s.family.pendingRemoteBroadcast = false)
    (hc : rt.covers l = true) (hne : s.family.remoteLayerId ≠ some l) (hcomm : rt.bcastComm = true) :
    ∃ s', broadcastTensorFromOwnerAsync rt s l = (s', true) ∧ Inv rt s' := by
  rw [broadcastTensorFromOwnerAsync, if_neg (by simp [hcomm])]
  have hneeds : (prepareRemoteSelection rt s.activeBlockIds l s.family).2.needsCollective = true :=
    needsCollective_of_ne hne
  have hfst : (prepareRemoteSelection rt s.activeBlockIds l s.family).1 =
      { s.family with remoteBlockIds := none, remoteFull := false } :=
    prepareRemoteSelection_fst.trans (resetOther_of_ne hne)
  have hfull : (prepareRemoteSelection rt s.activeBlockIds l s.family).2.full = true →
      (prepareRemoteSelection rt s.activeBlockIds l s.family).2.blockIds = none := by
    cases ha : activeBlockIdsFor rt s.activeBlockIds with
    | none => rw [prepareRemoteSelection_full ha]; exact fun _ => rfl
    | some ids =>
      have hr : (Dsa.resetOther s.family l).remoteFull = false := by rw [resetOther_of_ne hne]
      rw [prepareRemoteSelection_sparse ha hr]
      nofun
  generalize prepareRemoteSelection rt s.activeBlockIds l s.family = prep at hneeds hfst hfull
  obtain ⟨fam, sel⟩ := prep
  dsimp only at hfst hneeds hfull ⊢
  subst hfst
  rw [if_neg (by simp [hneeds])]
  refine ⟨_, rfl, ?_, ?_, fun _ => ⟨rfl, rfl⟩, nofun⟩
  · intro l' hl'
    exact ⟨(h.remote l' hl').covers, nofun, nofun⟩
  · intro l' hl'
    cases hl'
    refine ⟨hc, fun hf block => ?_, fun rows hk block hb => ?_⟩
    · exact agree_sendRows_of_mem fun rows hk => by cases (hfull hf).symm.trans hk
    · exact agree_sendRows_of_mem fun rows' hk' => by cases hk.symm.trans hk'; exact hb

theorem Inv.prefetch (h : Inv rt s) (l : Int) : Inv rt (prefetchDsaCacheFromOwner rt s l) := by
  unfold prefetchDsaCacheFromOwner
  split
  · exact h
  · rename_i hc
    rw [Bool.not_eq_false] at hc
    split
    · exact h
    · rename_i hne
      split
      · exact h
      · -- the prefetch of another layer, if any, is dropped
        have hdrop : FamilyInv rt s.store
            (if s.family.pendingRemoteBroadcast then finalizePendingBroadcast s.family false else s.family) ∧
            (if s.family.pendingRemoteBroadcast then finalizePendingBroadcast s.family false
              else s.family).pendingRemoteBroadcast = false ∧
            (if s.family.pendingRemoteBroadcast then finalizePendingBroadcast s.family false
              else s.family).remoteLayerId ≠ some l := by
          cases hp : s.family.pendingRemoteBroadcast with
          | true =>
            refine ⟨(FamilyInv.finalize h false).1, (FamilyInv.finalize h false).2, ?_⟩
            rw [if_pos rfl, finalizePendingBroadcast_false hp]
            exact hne
          | false => exact ⟨h, hp, hne⟩
        dsimp only
        generalize (if s.family.pendingRemoteBroadcast then finalizePendingBroadcast s.family false
          else s.family) = fam at hdrop
        obtain ⟨hinv, hp, hne'⟩ := hdrop
        cases hcomm : rt.bcastComm with
        | true =>
          obtain ⟨s', he, hi⟩ := Inv.async (s := { s with family := fam }) hinv hp hc hne' hcomm
          rw [he]
          exact hi
        | false =>
          rw [broadcastTensorFromOwnerAsync, if_pos hcomm]
          dsimp only
          refine (broadcastDsaCacheFromOwner_spec ?_).1
          have hl := FamilyInv.landed (s := { s with family := fam }) hinv l
          exact hl.1.ready hc hl.2

/-- The bookkeeping that the write of `l` reads: a prefetch of `l` has landed. -/
def writeFamily (fam : FamilyRemoteState) (l : Int) : FamilyRemoteState :=
  if fam.pendingRemoteLayerId = some l then finalizePendingBroadcast fam true else fam

theorem FamilyInv.writeFamily (h : FamilyInv rt s.store fam) (l : Int) :
    FamilyInv rt s.store (writeFamily fam l) ∧ (writeFamily fam l).pendingRemoteLayerId ≠ some l := by
  unfold Dsa.writeFamily
  split
  · obtain ⟨hf, hp⟩ := h.finalize true
    refine ⟨hf, ?_⟩
    rw [hf.noPending hp]
    nofun
  · rename_i hne
    exact ⟨h, hne⟩

/-- The write touches no block that the ranks are believed to hold while others still have to be
sent. -/
def CleanWrite (rt : Runtime Rank) (s : Caches Rank V) (l : Int) (u : KvUpdate V) : Prop :=
  ∀ ids, activeBlockIdsFor rt s.activeBlockIds = some ids →
    (writeFamily s.family l).remoteLayerId = some l → (writeFamily s.family l).remoteFull = false →
    ∀ known, (writeFamily s.family l).remoteBlockIds = some known → ¬ ids ⊆ known →
    ∀ block ∈ u.blocks, block ∉ known

theorem neededRows_subset {known ids : Finset Int} (h : ids ⊆ known) (hne : ids ≠ ∅) :
    neededRows (some known) ids = ∅ := by
  have hk : known ≠ ∅ := by
    rintro rfl
    exact hne (Finset.subset_empty.mp h)
  simp only [neededRows, if_neg hk]
  exact Finset.sdiff_eq_empty_iff_subset.mpr h

theorem beginMlaDsaCacheWrite_eq : beginMlaDsaCacheWrite rt s l =
    ({ s with family := resetOther (writeFamily s.family l) l },
      (writeFamily s.family l).remoteLayerId == some l &&
        !(prepareRemoteSelection rt s.activeBlockIds l (writeFamily s.family l)).2.needsCollective) := by
  have hfst : (prepareRemoteSelection rt s.activeBlockIds l (writeFamily s.family l)).1 =
      resetOther (writeFamily s.family l) l := prepareRemoteSelection_fst
  rw [beginMlaDsaCacheWrite, ← resetOther_remoteLayerId (writeFamily s.family l) l, ← hfst]
  rfl

theorem landed_of_ne (h : fam.pendingRemoteLayerId ≠ some l) :
    (landed fam l).remoteLayerId = fam.remoteLayerId ∧ (landed fam l).remoteBlockIds = fam.remoteBlockIds ∧
      (landed fam l).remoteFull = fam.remoteFull := by
  unfold landed
  cases hp : fam.pendingRemoteBroadcast with
  | false => exact ⟨rfl, rfl, rfl⟩
  | true =>
    have : (fam.pendingRemoteLayerId == some l) = false := by simpa using h
    rw [if_pos rfl, this, finalizePendingBroadcast_false hp]
    exact ⟨rfl, rfl, rfl⟩

/-- The update of `l` leaves the rows that the broadcast of `l` will not send in agreement. -/
theorem ready_after_update (h : Inv rt s) (hc : rt.covers l = true) {u : KvUpdate V}
    (hu : CleanWrite rt s l u) :
    ReadyToSend rt s.activeBlockIds
      (doKvCacheUpdate rt { s with family := resetOther (writeFamily s.family l) l } l
        (fun rank => rt.isOwned rank l || (beginMlaDsaCacheWrite rt s l).2) u).store l
      (landed (resetOther (writeFamily s.family l) l) l) := by
  obtain ⟨hinv, hpend⟩ := FamilyInv.writeFamily (s := s) h l
  have hne : (resetOther (writeFamily s.family l) l).pendingRemoteLayerId ≠ some l := by
    rw [(resetOther_pending _ l).1]
    exact hpend
  obtain ⟨hid, hids, hfull⟩ := landed_of_ne hne
  obtain ⟨hland, hnone⟩ := (hinv.resetOther l).landed l
  rw [resetOther_remoteLayerId] at hid
  -- once the ranks may patch their scratch, an update keeps everything that agrees
  have hall : (prepareRemoteSelection rt s.activeBlockIds l (writeFamily s.family l)).2.needsCollective = false →
      (writeFamily s.family l).remoteLayerId = some l → ∀ block, Agree rt s.store l block →
      Agree rt (doKvCacheUpdate rt { s with family := resetOther (writeFamily s.family l) l } l
        (fun rank => rt.isOwned rank l || (beginMlaDsaCacheWrite rt s l).2) u).store l block := by
    intro hneeds hl block ha
    refine agree_update_all (s := { s with family := resetOther (writeFamily s.family l) l }) (fun rank => ?_) u ha
    rw [beginMlaDsaCacheWrite_eq]
    simp [hneeds, hl]
  have hlanded : (writeFamily s.family l).remoteLayerId = some l → (writeFamily s.family l).remoteFull = true →
      (prepareRemoteSelection rt s.activeBlockIds l (writeFamily s.family l)).2.needsCollective = false := by
    intro hl hf
    have hf' : (resetOther (writeFamily s.family l) l).remoteFull = true := by rwa [resetOther_of_eq hl]
    cases ha : activeBlockIdsFor rt s.activeBlockIds with
    | none => rw [prepareRemoteSelection_full ha, hf']; rfl
    | some ids => rw [prepareRemoteSelection_landed ha hf']
  refine ⟨hc, ⟨hnone, hland.noPending hnone⟩, ?_, ?_⟩
  · intro hl hf block
    rw [hid] at hl
    rw [hfull, resetOther_of_eq hl] at hf
    exact hall (hlanded hl hf) hl block ((hinv.remote l hl).full hf block)
  · intro hl ids ha known hk block hb
    rw [hid] at hl
    rw [hids, resetOther_of_eq hl] at hk
    have hagree := (hinv.remote l hl).known known hk block hb
    cases hf : (writeFamily s.family l).remoteFull with
    | true => exact hall (hlanded hl hf) hl block hagree
    | false =>
      by_cases hsub : ids ⊆ known
      · refine hall ?_ hl block hagree
        have hf' : (resetOther (writeFamily s.family l) l).remoteFull = false := by rwa [resetOther_of_eq hl]
        rw [prepareRemoteSelection_sparse ha hf', resetOther_of_eq hl, hk]
        simp [neededRows_subset hsub (activeBlockIdsFor_nonempty ha)]
      · refine agree_update_untouched (s := { s with family := resetOther (writeFamily s.family l) l }) ?_ hagree
        exact fun hm => hu ids ha hl hf known hk hsub block hm hb

/-- A forward: the invariant is kept, and the layer is coherent on the active blocks. -/
theorem mlaForward_spec (h : Inv rt s) {u : Option (KvUpdate V)} (hu : ∀ w ∈ u, rt.covers l = true → CleanWrite rt s l w) :
    Inv rt (mlaForward rt s l u) ∧ (mlaForward rt s l u).activeBlockIds = s.activeBlockIds ∧
      (rt.covers l = true → ∀ block, ActiveBlock rt s block → Agree rt (mlaForward rt s l u).store l block) := by
  cases u with
  | none =>
    refine ⟨?_, broadcastDsaCacheFromOwner_active, fun hc => ?_⟩
    · cases hc : rt.covers l with
      | false => rw [mlaForward, broadcast_replicated hc]; exact h
      | true =>
        obtain ⟨hl, hp⟩ := FamilyInv.landed (s := s) h l
        exact (broadcastDsaCacheFromOwner_spec (hl.ready hc hp)).1
    · obtain ⟨hl, hp⟩ := FamilyInv.landed (s := s) h l
      exact (broadcastDsaCacheFromOwner_spec (hl.ready hc hp)).2
  | some w =>
    have hbody : mlaForward rt s l (some w) = broadcastDsaCacheFromOwner rt
        (doKvCacheUpdate rt { s with family := resetOther (writeFamily s.family l) l } l
          (fun rank => rt.isOwned rank l || (beginMlaDsaCacheWrite rt s l).2) w) l := by
      rw [mlaForward, beginMlaDsaCacheWrite_eq]
    rw [hbody]
    cases hc : rt.covers l with
    | true =>
      have hspec := broadcastDsaCacheFromOwner_spec (s := doKvCacheUpdate rt
        { s with family := resetOther (writeFamily s.family l) l } l
        (fun rank => rt.isOwned rank l || (beginMlaDsaCacheWrite rt s l).2) w)
        (ready_after_update h hc (hu w rfl hc))
      exact ⟨hspec.1, broadcastDsaCacheFromOwner_active, fun _ => hspec.2⟩
    | false =>
      rw [broadcast_replicated hc]
      refine ⟨?_, rfl, nofun⟩
      have hinv := (FamilyInv.writeFamily (s := s) h l).1.resetOther l
      have hrows : ∀ l' ids full, RowsAgree rt s.store l' ids full → RowsAgree rt (doKvCacheUpdate rt
          { s with family := resetOther (writeFamily s.family l) l } l
          (fun rank => rt.isOwned rank l || (beginMlaDsaCacheWrite rt s l).2) w).store l' ids full := by
        intro l' ids full hr
        refine ⟨hr.covers, fun hf block => ?_, fun known hk block hb => ?_⟩
        · exact agree_update_replicated hc w hr.covers (hr.full hf block)
        · exact agree_update_replicated hc w hr.covers (hr.known known hk block hb)
      exact ⟨fun l' hl => hrows l' _ _ (hinv.remote l' hl), fun l' hl => hrows l' _ _ (hinv.pending l' hl),
        hinv.nothingKnown, hinv.noPending⟩

theorem inv_init (store : Rank → Buffer → Int → V) : Inv rt { store := store } :=
  ⟨nofun, nofun, nofun, fun _ => rfl⟩

/-! ## Runs -/

def CleanEvent (rt : Runtime Rank) (s : Caches Rank V) : Event V → Prop
  | .forward l (some u) => rt.covers l = true → CleanWrite rt s l u
  | _ => True

def CleanRun (rt : Runtime Rank) : Caches Rank V → List (Event V) → Prop
  | _, [] => True
  | s, e :: es => CleanEvent rt s e ∧ CleanRun rt (step rt s e) es

theorem inv_step (h : Inv rt s) {e : Event V} (he : CleanEvent rt s e) : Inv rt (step rt s e) := by
  cases e with
  | setActive blockIds => exact h.setActive blockIds
  | prefetch l => exact h.prefetch l
  | forward l u =>
    refine (mlaForward_spec h fun w hw => ?_).1
    cases hw
    exact he

theorem inv_run : ∀ {events : List (Event V)} {s : Caches Rank V}, Inv rt s → CleanRun rt s events →
    Inv rt (run rt s events)
  | [], _, h, _ => h
  | e :: es, s, h, hr => by
    rw [run, List.foldl_cons]
    exact inv_run (inv_step h hr.1) hr.2

theorem cleanRun_append : ∀ {events rest : List (Event V)} {s : Caches Rank V},
    CleanRun rt s (events ++ rest) → CleanRun rt s events ∧ CleanRun rt (run rt s events) rest
  | [], _, _, h => ⟨trivial, h⟩
  | _ :: _, _, _, h => by
    obtain ⟨he, hr⟩ := h
    obtain ⟨h₁, h₂⟩ := cleanRun_append hr
    exact ⟨⟨he, h₁⟩, h₂⟩

/-- Right after the broadcast of a layer, every rank sees the owner's durable content of it at
every active block. -/
theorem forward_coherent (rt : Runtime Rank) (store : Rank → Buffer → Int → V) (events : List (Event V))
    (l : Int) (u : Option (KvUpdate V)) (hclean : CleanRun rt { store := store } (events ++ [.forward l u]))
    (hc : rt.covers l = true) (block : Int)
    (hb : ActiveBlock rt (run rt { store := store } (events ++ [.forward l u])) block) (rank : Rank) :
    (run rt { store := store } (events ++ [.forward l u])).view rt rank l block =
      (run rt { store := store } (events ++ [.forward l u])).store (rt.ownerOf l) (.layer l) block := by
  obtain ⟨hbefore, hlast, _⟩ := cleanRun_append hclean
  have hwrite : ∀ w ∈ u, rt.covers l = true → CleanWrite rt (run rt { store := store } events) l w := by
    intro w hw
    cases hw
    exact hlast
  obtain ⟨_, hactive, hagree⟩ := mlaForward_spec (inv_run (inv_init store) hbefore) hwrite
  have hrun : run rt { store := store } (events ++ [.forward l u]) =
      mlaForward rt (run rt { store := store } events) l u := by
    rw [run, List.foldl_append]
    rfl
  have howner : rt.bufferOf (rt.ownerOf l) l = .layer l := by simp [Runtime.bufferOf, Runtime.isOwned]
  rw [hrun] at hb ⊢
  have := agree_iff_view.mp (hagree hc block ?_) rank
  · rwa [Caches.view, Caches.view, howner] at this
  · intro ids ha
    exact hb ids (by rw [hactive]; exact ha)

end

/-- Two ranks, every layer owned by rank 0, four blocks. -/
def twoRanks : Runtime (Fin 2) := ⟨fun _ => true, fun _ => ⟨0, Nat.two_pos⟩, 4, true, true⟩

/-- Layer 0 is written at block 0, then the active set grows to blocks 0 and 1. -/
def growingRun : List (Event Nat) :=
  [.setActive (some [0]), .forward 0 (some ⟨{0}, fun _ _ => 1⟩), .setActive (some [0, 1])]

/-- The layer is visited again and its new block written. -/
theorem forward_coherent_growing :
    (run twoRanks { store := fun _ _ _ => 0 } (growingRun ++ [.forward 0 (some ⟨{1}, fun _ _ => 2⟩)])).view
        twoRanks 1 0 1 =
      (run twoRanks { store := fun _ _ _ => 0 } (growingRun ++ [.forward 0 (some ⟨{1}, fun _ _ => 2⟩)])).store 0
        (.layer 0) 1 := by
  refine forward_coherent twoRanks _ growingRun 0 _ ?_ rfl 1 ?_ 1
  · refine ⟨trivial, fun _ ids _ hl => ?_, trivial, fun _ ids _ _ _ known hk _ block hb => ?_, trivial⟩
    · exact absurd hl (by decide)
    · -- only block 0 is known
      have : (writeFamily (run twoRanks { store := fun _ _ _ => 0 } growingRun).family 0).remoteBlockIds =
          some {0} := by decide
      cases this.symm.trans hk
      cases Finset.mem_singleton.mp hb
      decide
  · intro ids ha
    have : activeBlockIdsFor twoRanks (run twoRanks { store := fun _ _ _ => 0 }
        (growingRun ++ [.forward 0 (some ⟨{1}, fun _ _ => 2⟩)])).activeBlockIds = some {0, 1} := by decide
    cases this.symm.trans ha
    decide

/-- The layer is visited again and block 0 written, which rank 1 is believed to hold: only the owner
writes it and only block 1 is sent. -/
theorem forward_incoherent_revisit :
    ActiveBlock twoRanks (run twoRanks { store := fun _ _ _ => 0 }
      (growingRun ++ [.forward 0 (some ⟨{0}, fun _ _ => 2⟩)])) 0 ∧
    (run twoRanks { store := fun _ _ _ => 0 } (growingRun ++ [.forward 0 (some ⟨{0}, fun _ _ => 2⟩)])).view
        twoRanks 1 0 0 = 1 ∧
    (run twoRanks { store := fun _ _ _ => 0 } (growingRun ++ [.forward 0 (some ⟨{0}, fun _ _ => 2⟩)])).store 0
        (.layer 0) 0 = 2 := by
  refine ⟨?_, by decide, by decide⟩
  intro ids ha
  have : activeBlockIdsFor twoRanks (run twoRanks { store := fun _ _ _ => 0 }
      (growingRun ++ [.forward 0 (some ⟨{0}, fun _ _ => 2⟩)])).activeBlockIds = some {0, 1} := by decide
  cases this.symm.trans ha
  decide

end VllmHcu.Dsa
