import Mathlib.Algebra.Order.BigOperators.Group.List
import VllmHcu.Du.SendStore

/-!
# Accounting of the fetch buffer

`send_accounting_iff`: the counter stays the total size in every state of a run
exactly when no call puts a tensor in the place of another one of its id that is
not empty.
-/

namespace VllmHcu.Du

/-! ## Total sizes -/

@[simp] theorem totalSize_nil : totalSize [] = 0 := rfl

@[simp] theorem totalSize_cons (p : String × Tensor) (store : TensorStore) :
    totalSize (p :: store) = p.2.size + totalSize store := rfl

@[simp] theorem totalSize_append (a c : TensorStore) : totalSize (a ++ c) = totalSize a + totalSize c := by
  simp [totalSize]

theorem totalSize_insertKey_new {id : String} (t : Tensor) {store : TensorStore} (h : id ∉ store.map Prod.fst) :
    totalSize (insertKey id t store) = totalSize store + t.size := by
  induction store with
  | nil => simp [insertKey]
  | cons p store ih =>
    rw [List.map_cons, List.mem_cons, not_or] at h
    unfold insertKey
    rw [if_neg (Ne.symm h.1), totalSize_cons, totalSize_cons, ih h.2, Nat.add_assoc]

theorem totalSize_insertKey_set {id : String} (t u : Tensor) {older newer : TensorStore} (h : id ∉ older.map Prod.fst) :
    totalSize (insertKey id t (older ++ (id, u) :: newer)) + u.size = totalSize (older ++ (id, u) :: newer) + t.size := by
  induction older with
  | nil =>
    simp [insertKey]
    omega
  | cons p older ih =>
    rw [List.map_cons, List.mem_cons, not_or] at h
    have hrest := ih h.2
    rw [List.cons_append]
    unfold insertKey
    rw [if_neg (Ne.symm h.1), totalSize_cons, totalSize_cons]
    omega

/-! ## Eviction -/

/-- From a counter that is right the loop ends without the assertion: it drops the first entries, and none that could stay. -/
theorem evictOldest_spec {size threshold : Nat} (hsize : size ≤ threshold) (store : TensorStore) :
    ∃ evicted kept, store = evicted ++ kept ∧
      evictOldest size threshold (totalSize store) store = ((totalSize kept : Int), kept, true) ∧ totalSize kept + size ≤ threshold ∧
      ∀ older p newer, evicted = older ++ p :: newer → threshold < totalSize (p :: newer ++ kept) + size := by
  induction store with
  | nil =>
    refine ⟨[], [], rfl, ?_, by simpa using hsize, fun older p newer h => by simp at h⟩
    simp [evictOldest, hsize]
  | cons q store ih =>
    obtain ⟨id, oldest⟩ := q
    unfold evictOldest
    by_cases hfull : ((totalSize ((id, oldest) :: store) : Nat) : Int) + size > threshold
    · obtain ⟨evicted, kept, hstore, hrun, hfit, hneed⟩ := ih
      refine ⟨(id, oldest) :: evicted, kept, by rw [hstore]; rfl, ?_, hfit, ?_⟩
      · have hnext : ((totalSize ((id, oldest) :: store) : Nat) : Int) - oldest.size = totalSize store := by
          rw [totalSize_cons]
          push_cast
          omega
        rw [if_pos hfull, hnext, hrun]
      · intro older p newer h
        cases older with
        | nil =>
          cases h
          rw [List.cons_append, ← hstore]
          omega
        | cons x older => exact hneed older p newer (List.cons_eq_cons.mp h).2
    · rw [if_neg hfull]
      exact ⟨[], (id, oldest) :: store, rfl, rfl, by omega, fun older p newer h => by simp at h⟩

/-! ## One step -/

/-- The counter is the total size, within the threshold. -/
structure Accounted (s : SendBuffer) : Prop where
  keys : (s.sendStore.map Prod.fst).Nodup
  counter : s.bufferSize = totalSize s.sendStore
  bounded : s.bufferSize ≤ s.bufferSizeThreshold

/-- A tensor of the id that is still stored when the new one is set: it is empty, or it and what is newer have to be evicted. -/
def Replaceable (s : SendBuffer) : SendEvent → Prop
  | .send _ _ none => True
  | .send tensorId tensor (some _) => ∀ older u newer, s.sendStore = older ++ (tensorId, u) :: newer →
      u.size = 0 ∨ s.bufferSizeThreshold < totalSize ((tensorId, u) :: newer) + tensor.size
  | .get _ => True

/-- Entries go from the front only, and only those that leave no room; one of the same id is replaced. -/
def DropsOldest (s s' : SendBuffer) : SendEvent → Prop
  | .send tensorId tensor _ => s'.sendStore = s.sendStore ∨ ∃ evicted kept, s.sendStore = evicted ++ kept ∧
      s'.sendStore = insertKey tensorId tensor kept ∧ ∀ older p newer, evicted = older ++ p :: newer →
        s.bufferSizeThreshold < totalSize (p :: newer ++ kept) + tensor.size
  | .get _ => s'.sendStore.Perm s.sendStore

/-- One call keeps the buffer in order. -/
structure StepSound (s : SendBuffer) (e : SendEvent) : Prop where
  accounted : ∀ s', sendStep s e = some s' → Accounted s'
  noAssertion : ∀ tensorId tensor remoteAddress, e = .send tensorId tensor remoteAddress →
    (s.sendTensor tensorId tensor remoteAddress).2 ≠ .assertionError
  dropped : ∀ s', sendStep s e = some s' → DropsOldest s s' e

theorem perm_eraseKey {id : String} {t : Tensor} {store : TensorStore} (h : store.lookup id = some t) :
    (eraseKey id store ++ [(id, t)]).Perm store := by
  induction store with
  | nil => cases h
  | cons p store ih =>
    obtain ⟨k, u⟩ := p
    rw [List.lookup_cons] at h
    unfold eraseKey
    by_cases hk : id = k
    · subst hk
      rw [beq_self_eq_true] at h
      cases h
      rw [if_pos rfl]
      exact List.perm_append_comm
    · rw [beq_eq_false_iff_ne.mpr hk] at h
      rw [if_neg (Ne.symm hk)]
      exact (ih h).cons _

theorem totalSize_perm {a c : TensorStore} (h : a.Perm c) : totalSize a = totalSize c := (h.map _).sum_eq

variable {s : SendBuffer}

theorem get_sound (h : Accounted s) (tensorId : String) : StepSound s (.get tensorId) := by
  have hget : (s.get tensorId).1.sendStore.Perm s.sendStore ∧ (s.get tensorId).1.bufferSize = s.bufferSize ∧
      (s.get tensorId).1.bufferSizeThreshold = s.bufferSizeThreshold := by
    unfold SendBuffer.get
    cases hlook : s.sendStore.lookup tensorId with
    | none => exact ⟨.rfl, rfl, rfl⟩
    | some t => exact ⟨perm_eraseKey hlook, rfl, rfl⟩
  obtain ⟨hperm, hsize, hthreshold⟩ := hget
  refine ⟨fun s' hs => ?_, fun _ _ _ he => (by cases he), fun s' hs => ?_⟩
  · cases hs
    refine ⟨(hperm.map _).nodup_iff.mpr h.keys, ?_, ?_⟩
    · rw [hsize, h.counter, totalSize_perm hperm]
    · rw [hsize, hthreshold]
      exact h.bounded
  · cases hs
    exact hperm

/-- What a call that stores its tensor does from a counter that is right. -/
theorem send_stores (h : Accounted s) (tensorId : String) {tensor : Tensor} {address : String}
    (hfit : tensor.size ≤ s.bufferSizeThreshold) :
    ∃ evicted kept, s.sendStore = evicted ++ kept ∧ totalSize kept + tensor.size ≤ s.bufferSizeThreshold ∧
      (s.sendTensor tensorId tensor (some address)).1 =
        { s with sendStore := insertKey tensorId tensor kept, bufferSize := ((totalSize kept + tensor.size : Nat) : Int) } ∧
      (s.sendTensor tensorId tensor (some address)).2 ≠ .assertionError ∧
      ∀ older p newer, evicted = older ++ p :: newer →
        s.bufferSizeThreshold < totalSize (p :: newer ++ kept) + tensor.size := by
  obtain ⟨evicted, kept, hstore, hrun, hkept, hneed⟩ := evictOldest_spec hfit s.sendStore
  refine ⟨evicted, kept, hstore, hkept, ?_, ?_, hneed⟩
  · unfold SendBuffer.sendTensor
    rw [if_neg nofun, if_neg (by omega), h.counter, hrun]
    rfl
  · unfold SendBuffer.sendTensor
    rw [if_neg nofun, if_neg (by omega), h.counter, hrun]
    dsimp only
    split <;> nofun

theorem send_skips {tensorId : String} {tensor : Tensor} {remoteAddress : Option String}
    (h : remoteAddress = none ∨ s.bufferSizeThreshold < tensor.size) :
    ∃ sent, s.sendTensor tensorId tensor remoteAddress = (s, .returned sent) := by
  unfold SendBuffer.sendTensor
  by_cases hnone : remoteAddress = none
  · exact ⟨true, if_pos hnone⟩
  · rw [if_neg hnone]
    exact ⟨false, if_pos (h.resolve_left hnone)⟩

theorem split_unique {id : String} {u u' : Tensor} {a c a' c' : TensorStore} (hkeys : ((a ++ (id, u) :: c).map Prod.fst).Nodup)
    (h : a ++ (id, u) :: c = a' ++ (id, u') :: c') : a = a' ∧ u = u' ∧ c = c' := by
  induction a generalizing a' with
  | nil =>
    cases a' with
    | nil =>
      cases h
      exact ⟨rfl, rfl, rfl⟩
    | cons q a' =>
      obtain ⟨rfl, rfl⟩ := List.cons_eq_cons.mp h
      simp at hkeys
  | cons p a ih =>
    cases a' with
    | nil =>
      obtain ⟨rfl, rfl⟩ := List.cons_eq_cons.mp h
      simp at hkeys
    | cons q a' =>
      obtain ⟨rfl, hrest⟩ := List.cons_eq_cons.mp h
      rw [List.cons_append, List.map_cons, List.nodup_cons] at hkeys
      obtain ⟨rfl, hu, hc⟩ := ih hkeys.2 hrest
      exact ⟨rfl, hu, hc⟩

/-- The counter is right after the call exactly when what is replaced is empty. -/
theorem counter_iff {tensorId : String} {tensor : Tensor} {address : String} {evicted kept : TensorStore}
    (hkeys : (s.sendStore.map Prod.fst).Nodup) (hstore : s.sendStore = evicted ++ kept)
    (hkept : totalSize kept + tensor.size ≤ s.bufferSizeThreshold)
    (hneed : ∀ older p newer, evicted = older ++ p :: newer →
      s.bufferSizeThreshold < totalSize (p :: newer ++ kept) + tensor.size) :
    totalSize kept + tensor.size = totalSize (insertKey tensorId tensor kept) ↔
      Replaceable s (.send tensorId tensor (some address)) := by
  by_cases hmem : tensorId ∈ kept.map Prod.fst
  · obtain ⟨⟨_, u⟩, hp, rfl⟩ := List.mem_map.mp hmem
    dsimp only
    rename_i id
    obtain ⟨older, newer, rfl⟩ := List.append_of_mem hp
    have hsplit : s.sendStore = evicted ++ older ++ (id, u) :: newer := by rw [hstore, List.append_assoc]
    have hnew : id ∉ older.map Prod.fst := by
      rw [hsplit, List.map_append, List.nodup_append] at hkeys
      intro hin
      exact hkeys.2.2 id (by rw [List.map_append]; exact List.mem_append_right _ hin) id List.mem_cons_self rfl
    have hset : totalSize (insertKey id tensor (older ++ (id, u) :: newer)) + u.size =
        totalSize (older ++ (id, u) :: newer) + tensor.size := totalSize_insertKey_set tensor u hnew
    have hempty : totalSize (older ++ (id, u) :: newer) + tensor.size = totalSize (insertKey id tensor (older ++ (id, u) :: newer)) ↔
        u.size = 0 := by omega
    rw [hempty]
    constructor
    · intro hu older' u' newer' h
      rw [hsplit] at h hkeys
      obtain ⟨-, rfl, -⟩ := split_unique hkeys h
      exact .inl hu
    · intro h
      apply (h _ _ _ hsplit).resolve_right
      rw [totalSize_append] at hkept
      omega
  · refine iff_of_true (totalSize_insertKey_new tensor hmem).symm ?_
    intro older u newer h
    have hin : (tensorId, u) ∈ evicted := by
      have : (tensorId, u) ∈ evicted ++ kept := by
        rw [← hstore, h]
        exact List.mem_append_right _ List.mem_cons_self
      exact (List.mem_append.mp this).resolve_right fun hk => hmem (List.mem_map.mpr ⟨_, hk, rfl⟩)
    obtain ⟨older', newer', rfl⟩ := List.append_of_mem hin
    rw [List.append_assoc, List.cons_append] at hstore
    rw [h] at hkeys
    obtain ⟨-, -, rfl⟩ := split_unique hkeys (h.symm.trans hstore)
    exact .inr (hneed _ _ _ rfl)

/-- From a counter that is right a call keeps it right exactly when it replaces no tensor that is not empty. -/
theorem stepSound_iff (h : Accounted s) (e : SendEvent) : StepSound s e ↔ Replaceable s e := by
  cases e with
  | get tensorId => exact iff_of_true (get_sound h tensorId) trivial
  | send tensorId tensor remoteAddress =>
    by_cases hskip : remoteAddress = none ∨ s.bufferSizeThreshold < tensor.size
    · obtain ⟨sent, hsame⟩ : ∃ sent, s.sendTensor tensorId tensor remoteAddress = (s, .returned sent) := send_skips hskip
      refine iff_of_true ⟨fun s' hs => ?_, fun _ _ _ he => ?_, fun s' hs => ?_⟩ ?_
      · cases hs
        rw [hsame]
        exact h
      · cases he
        rw [hsame]
        nofun
      · cases hs
        rw [hsame]
        exact .inl rfl
      · cases remoteAddress with
        | none => trivial
        | some address =>
          intro older u newer _
          have := hskip.resolve_left nofun
          exact .inr (by omega)
    · rw [not_or] at hskip
      obtain ⟨hremote, hfit⟩ := hskip
      cases remoteAddress with
      | none => exact absurd rfl hremote
      | some address =>
        obtain ⟨evicted, kept, hstore, hkept, hnext, hassert, hneed⟩ := send_stores h tensorId (Nat.le_of_not_lt hfit)
        have hkeys := h.keys
        rw [hstore, List.map_append] at hkeys
        have hnodup : (kept.map Prod.fst).Nodup := hkeys.sublist (List.sublist_append_right _ _)
        rw [← counter_iff h.keys hstore hkept hneed]
        constructor
        · intro hsound
          have := (hsound.accounted _ rfl).counter
          rw [hnext] at this
          exact Int.ofNat_inj.mp this
        · intro heq
          refine ⟨fun s' hs => ?_, fun _ _ _ he => ?_, fun s' hs => ?_⟩
          · cases hs
            rw [hnext]
            exact ⟨nodup_insertKey _ _ hnodup, congrArg Int.ofNat heq, Int.ofNat_le.mpr hkept⟩
          · cases he
            exact hassert
          · cases hs
            rw [hnext]
            exact .inr ⟨evicted, kept, hstore, rfl, hneed⟩

/-! ## Runs -/

theorem accounted_empty (threshold : Nat) : Accounted (SendBuffer.empty threshold) :=
  ⟨List.nodup_nil, rfl, Int.natCast_nonneg _⟩

/-- Over every run from an empty buffer: all calls keep it in order exactly when none replaces a tensor that is not empty. -/
theorem send_accounting_iff (threshold : Nat) (es : List SendEvent) :
    Along sendStep StepSound (SendBuffer.empty threshold) es ↔ Along sendStep Replaceable (SendBuffer.empty threshold) es := by
  apply along_iff (I := Accounted) (fun s e h => stepSound_iff h e) ?_ (accounted_empty threshold)
  intro s e s' _ hsound hs
  exact hsound.accounted s' hs

/-- The same id twice: the counter is then eight for four bytes, and the next call empties the store and fails. -/
theorem resend_fails : ∃ s, runFrom sendStep (SendBuffer.empty 10) [.send "r#0" (bytesTensor 4) (some "d"),
      .send "r#0" (bytesTensor 4) (some "d")] = some s ∧ s.bufferSize = 8 ∧ totalSize s.sendStore = 4 ∧
    (s.sendTensor "r#1" (bytesTensor 8) (some "d")).2 = .assertionError ∧
    (s.sendTensor "r#1" (bytesTensor 8) (some "d")).1.sendStore = [] :=
  ⟨_, rfl, rfl, rfl, rfl, rfl⟩

end VllmHcu.Du
