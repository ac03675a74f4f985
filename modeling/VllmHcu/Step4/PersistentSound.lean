import VllmHcu.Step4.ReplaySound
import Mathlib.Algebra.GroupWithZero.Nat

/-!
# Persistent buffers between steps

After every call the buffers hold the schedule of the call and inert entries up to
their capacity, whatever they held before. A staging buffer is filled only when no
copy reads it, so the copies in flight land the schedules of their own calls.
-/

namespace VllmHcu.Step4

open Staging Step4PendingTable

section
variable {g : Step4DSAGeometry} {limits : GraphLimits} {md : Step4DSAMetadata} {t : Step4PendingTable}

/-! ## The vectors of a verify step -/

theorem SpecField.mem_all (f : SpecField) : f ∈ SpecField.all := by
  cases f <;> decide

/-- Every field reads back from the packed vector. -/
theorem specHost_start (sched : SpecSchedule) (f : SpecField) {i : Nat} (hi : i < f.size g limits) :
    specHost g limits md sched (f.start g limits + i) = sched.field md f i := by
  unfold specHost
  apply scatter_eq_of_agree
  · intro p hp he
    obtain ⟨f', -, hp⟩ := List.mem_flatMap.mp hp
    obtain ⟨i', hi', rfl⟩ := List.mem_map.mp hp
    have hslot : Packing.slotStart (fun _ => 1) (SpecField.size g limits) SpecField.all f' i' =
        Packing.slotStart (fun _ => 1) (SpecField.size g limits) SpecField.all f i := by
      unfold Packing.slotStart
      rw [Nat.mul_one, Nat.mul_one]
      exact he
    obtain ⟨rfl, rfl⟩ := Packing.slotStart_inj f'.mem_all f.mem_all (List.mem_range.mp hi') hi Nat.one_pos Nat.one_pos hslot
    rfl
  · exact .inr ⟨_, List.mem_flatMap.mpr ⟨f, f.mem_all, List.mem_map.mpr ⟨i, List.mem_range.mpr hi, rfl⟩⟩, rfl⟩

theorem nrm_pos : 0 < g.nrm := by
  have hR := g.two_le_regionSize
  unfold Step4DSAGeometry.nrm
  apply Nat.div_pos _ g.regionSize_pos
  omega

theorem row_not_mem {α : Type} {rows : List BatchRow} {f : BatchRow → α} {r : Nat} (h : ∀ v ∈ rows, v.row ≠ r) :
    r ∉ (rows.map fun v => (v.row, f v)).map Prod.fst := by
  intro hmem
  obtain ⟨p, hp, he⟩ := List.mem_map.mp hmem
  obtain ⟨v, hv, rfl⟩ := List.mem_map.mp hp
  exact h v hv he

theorem rowOf_le (hwf : t.Wf) (s : Nat) : t.rowOf s ≤ t.capacity := by
  unfold rowOf
  cases hs : t.rowOfSlot s with
  | none => exact Nat.le_refl _
  | some row => exact (hwf.row_lt hs).le

theorem headRow_lt (hwf : t.Wf) {v : BatchRow} {row : Nat} (h : v.headRow g t = some row) : row < t.capacity := by
  unfold BatchRow.headRow at h
  split at h
  · exact hwf.row_lt h
  · cases h

theorem outRow_lt (hwf : t.Wf) {v : BatchRow} {row : Nat} (h : v.outRow g t = some row) : row < t.capacity := by
  unfold BatchRow.outRow at h
  split at h
  · exact hwf.row_lt h
  · cases h

theorem scatter_rows_le {rows : List BatchRow} {f : BatchRow → Option Nat} {trash r : Nat}
    (h : ∀ v row, f v = some row → row < trash) :
    scatter (fun _ => trash) (rows.filterMap fun v => (f v).map (v.row, ·)) r ≤ trash := by
  apply scatter_forall (P := (· ≤ trash)) (Nat.le_refl _)
  intro p hp
  obtain ⟨v, -, hp⟩ := List.mem_filterMap.mp hp
  obtain ⟨row, hrow, rfl⟩ := Option.map_eq_some_iff.mp hp
  exact (h v row hrow).le

theorem verify_inside (hwf : t.Wf) (h : md.VerifyBatch g) : (verifyVectors g md t).Inside g t.capacity := by
  have hR := g.regionSize_pos
  constructor
  · intro r _
    simp only [verifyVectors, specVectors, List.filterMap_map]
    exact scatter_rows_le (f := fun v => v.headRow g t) fun v row => headRow_lt hwf
  · intro r _
    simp only [verifyVectors, specVectors, List.filterMap_map]
    exact scatter_rows_le (f := fun v => v.outRow g t) fun v row => outRow_lt hwf
  · intro r _
    simp only [verifyVectors, specVectors, List.map_map]
    refine scatter_forall (P := (· < g.regionSize)) ?_ fun w hw => ?_
    · exact hR
    · obtain ⟨v, -, rfl⟩ := List.mem_map.mp hw
      exact BatchRow.head_lt
  · intro r _
    simp only [verifyVectors, specVectors, List.map_map]
    refine scatter_forall (P := (· < g.regionSize)) ?_ fun w hw => ?_
    · exact hR
    · obtain ⟨v, -, rfl⟩ := List.mem_map.mp hw
      exact BatchRow.tail_lt
  · intro r hr
    simp only [verifyVectors, specVectors, List.map_map] at hr ⊢
    apply scatter_forall (P := (· < md.numDecodes * g.nrm))
    · exact Nat.mul_lt_mul_of_pos_right hr nrm_pos
    · intro w hw
      obtain ⟨v, hv, rfl⟩ := List.mem_map.mp hw
      have hn := h.nregions_le hv
      have hpos := BatchRow.nregions_pos (g := g) (aliveRows_qlen md hv)
      have hlt := span_lt (i := v.nregions g - 1) (n := g.nrm) (by omega) (mem_aliveRows.mp hv).1
      change v.row * g.nrm + v.nregions g - 1 < _
      omega
  · intro p _
    rw [verifyVectors_keepRows]
    refine scatter_forall (P := (· ≤ t.capacity)) ?_ fun w hw => ?_
    · exact Nat.le_refl _
    · obtain ⟨v, -, hw⟩ := List.mem_flatMap.mp hw
      obtain ⟨j, -, rfl⟩ := List.mem_map.mp hw
      exact rowOf_le hwf _
  · intro p _
    simp only [verifyVectors, specVectors, List.flatMap_map]
    refine scatter_forall (P := (· ≤ g.regionSize)) ?_ fun w hw => ?_
    · exact Nat.zero_le _
    · obtain ⟨v, -, hw⟩ := List.mem_flatMap.mp hw
      obtain ⟨j, -, rfl⟩ := List.mem_map.mp hw
      exact Nat.le_refl _
  · intro k hk
    simp only [verifyVectors, specVectors] at hk ⊢
    apply scatter_forall (P := (· < md.numDecodes * g.nrm * g.regionSize + md.numDecodeTokens))
    · exact Nat.add_lt_add_left hk _
    · intro w hw
      obtain ⟨x, hx, rfl⟩ := List.mem_map.mp hw
      obtain ⟨r, hr, i, hi, rfl⟩ := mem_batchTokens.mp hx
      have hq := h.head_qlen_le (v := md.generalRow r) hr rfl
      have hhead := BatchRow.head_lt (g := g) (v := md.generalRow r)
      have hoff : (if (md.generalRow r).Alive g md.numPages then (md.generalRow r).head g else 0) + i <
          g.nrm * g.regionSize := by
        split <;> omega
      have hlt := span_lt hoff hr
      rw [← Nat.add_assoc, ← Nat.mul_assoc md.numDecodes] at hlt
      exact hlt.trans_le (Nat.le_add_right _ _)

theorem verify_dead_row {r : Nat} (hr : md.numDecodes ≤ r) : ∀ v ∈ md.aliveRows g, v.row ≠ r := by
  intro v hv he
  have := (mem_aliveRows.mp hv).1
  omega

/-- The wider view of the buffers a verify schedule was landed in. -/
theorem view_widens (h : md.VerifyBatch g) {b : SpecBuffers} {nd ndt : Nat} {queryStartLoc : Nat → Nat}
    (hraw : ∀ (f : SpecField) i, i < f.size g limits → b.raw (f.start g limits + i) = (verifyVectors g md t).field md f i)
    (hcounts : ∀ p < limits.maxNumReqs * g.nrm, b.counts p =
      if p < md.numDecodes * g.nrm then (verifyVectors g md t).counts p else 0)
    (hnd : md.numDecodes ≤ nd) (hnd' : nd ≤ limits.maxNumReqs) (hndt : md.numDecodeTokens ≤ ndt)
    (hndt' : ndt ≤ maxTokens g limits) (hq : ∀ r ≤ md.numDecodes, queryStartLoc r = md.queryStartLoc r) :
    (verifyVectors g md t).Widens g t.capacity (b.view g limits nd ndt queryStartLoc) := by
  have hrow : ∀ r < nd, r < limits.maxNumReqs := fun r hr => hr.trans_le hnd'
  have hregion : ∀ p < nd * g.nrm, p < limits.maxNumReqs * g.nrm := fun p hp => hp.trans_le (Nat.mul_le_mul_right _ hnd')
  have hlive : ∀ r < md.numDecodes, r < limits.maxNumReqs := fun r hr => hrow r (hr.trans_le hnd)
  have hlive' : ∀ p < md.numDecodes * g.nrm, p < limits.maxNumReqs * g.nrm :=
    fun p hp => hregion p (hp.trans_le (Nat.mul_le_mul_right _ hnd))
  refine {
    nrm := rfl
    nrm_pos := nrm_pos
    numDecodes := hnd
    numTokens := hndt
    head := fun r hr => hraw .head r (hlive r hr)
    tail := fun r hr => hraw .tail r (hlive r hr)
    pendingIn := fun r hr => hraw .pendingIn r (hlive r hr)
    pendingOut := fun r hr => hraw .pendingOut r (hlive r hr)
    tailReg := fun r hr => (hraw .tailReg r (hlive r hr)).trans (if_pos hr)
    counts := fun p hp => (hcounts p (hlive' p hp)).trans (if_pos hp)
    slots := fun p hp => hraw .slots p (hlive' p hp)
    live := fun p hp => ?_
    keepRows := fun p hp => hraw .keepRows p (hlive' p hp)
    tokBuf := fun k hk => hraw .tokBuf k ((hk.trans_le hndt).trans_le hndt')
    queryStartLoc := hq
    deadHead := fun r hge hr => (hraw .head r (hrow r hr)).trans ?_
    deadTail := fun r hge hr => (hraw .tail r (hrow r hr)).trans ?_
    deadIn := fun r hge hr => (hraw .pendingIn r (hrow r hr)).trans ?_
    deadOut := fun r hge hr => (hraw .pendingOut r (hrow r hr)).trans ?_
    deadTailReg := fun r hge hr => (hraw .tailReg r (hrow r hr)).trans (if_neg (Nat.not_lt.mpr hge))
    deadCounts := fun p hge hp => (hcounts p (hregion p hp)).trans (if_neg (Nat.not_lt.mpr hge))
    deadLive := fun p hge hp => ?_
    deadKeep := fun p hge hp => (hraw .keepRows p (hregion p hp)).trans ?_
    scratch := fun k hge hk => (hraw .tokBuf k (hk.trans_le hndt')).trans ?_ }
  · change (b.raw (SpecField.live.start g limits + p) != 0) = _
    rw [hraw .live p (hlive' p hp)]
    change (((verifyVectors g md t).live p).toNat != 0) = _
    cases (verifyVectors g md t).live p <;> rfl
  · change (verifyVectors g md t).head r = 0
    simp only [verifyVectors, specVectors, List.map_map]
    exact scatter_of_not_mem _ (row_not_mem (f := fun v => v.head g) (verify_dead_row hge))
  · change (verifyVectors g md t).tail r = 0
    simp only [verifyVectors, specVectors, List.map_map]
    exact scatter_of_not_mem _ (row_not_mem (f := fun v => v.tail g) (verify_dead_row hge))
  · change (verifyVectors g md t).pendingIn r = t.capacity
    simp only [verifyVectors, specVectors, List.filterMap_map]
    exact scatter_rows_other (f := fun v => v.headRow g t) (verify_dead_row hge)
  · change (verifyVectors g md t).pendingOut r = t.capacity
    simp only [verifyVectors, specVectors, List.filterMap_map]
    exact scatter_rows_other (f := fun v => v.outRow g t) (verify_dead_row hge)
  · change (b.raw (SpecField.live.start g limits + p) != 0) = _
    rw [hraw .live p (hregion p hp)]
    change (((verifyVectors g md t).live p).toNat != 0) = _
    have hdead : (verifyVectors g md t).live p = false := by
      rw [Bool.eq_false_iff]
      intro hl
      obtain ⟨v, hv, j, hj, rfl⟩ := live_inv hl
      have := span_lt ((BatchRow.lt_nregions hj).trans_le (h.nregions_le hv)) (mem_aliveRows.mp hv).1
      exact absurd hge (Nat.not_le.mpr this)
    rw [hdead]
    rfl
  · by_contra hk
    obtain ⟨v, hv, -, j, hj, rfl, -⟩ := keepRows_inv hk
    have := span_lt ((BatchRow.lt_nregions hj).trans_le (h.nregions_le hv)) (mem_aliveRows.mp hv).1
    exact absurd hge (Nat.not_le.mpr this)
  · apply scatter_of_not_mem
    intro hmem
    obtain ⟨p, hp, he⟩ := List.mem_map.mp hmem
    obtain ⟨x, hx, rfl⟩ := List.mem_map.mp hp
    obtain ⟨r, hr, i, hi, rfl⟩ := mem_batchTokens.mp hx
    have := h.token_lt hr hi
    change md.queryStartLoc r + i = k at he
    change md.numDecodeTokens ≤ k at hge
    omega

/-! ## The vectors of a decode step -/

theorem decode_inside (hwf : t.Wf) : (decodeVectors g md t.capacity t).Inside g t.capacity := by
  have hR := g.regionSize_pos
  constructor
  · intro r _
    exact scatter_rows_le (f := fun v => v.headRow g t) fun v row => headRow_lt hwf
  · intro r _
    exact scatter_rows_le (f := fun v => v.outRow g t) fun v row => outRow_lt hwf
  · intro r _
    change (if _ then BatchRow.head g _ else 0) < _
    split
    · exact BatchRow.head_lt
    · exact hR
  · intro r _
    change (if _ then g.regionSize else 0) ≤ _
    split
    · exact Nat.le_refl _
    · exact Nat.zero_le _

theorem fillOut_of_lt {α : Type} {size n i : Nat} {fill : α} {value dst : Nat → α} (hi : i < n) :
    fillOut size n fill value dst i = value i := if_pos hi

theorem fillOut_of_ge {α : Type} {size n i : Nat} {fill : α} {value dst : Nat → α} (hn : n ≤ i) (hi : i < size) :
    fillOut size n fill value dst i = fill := by
  unfold fillOut
  rw [if_neg (Nat.not_lt.mpr hn)]
  exact if_pos ⟨hn, hi⟩

variable (limits) in
/-- The buffers once a decode schedule has landed. -/
def DecodeBuffers.land (trash : Nat) (sched : DecodeSchedule) (b : DecodeBuffers) : DecodeBuffers :=
  let size := limits.maxNumReqs
  let nd := sched.numDecodes
  { counts := fillOut size nd 0 sched.counts b.counts
    slots := fillOut size nd none sched.slots b.slots
    live := fillOut size nd false sched.live b.live
    head := fillOut size nd 0 sched.head b.head
    tail := fillOut size nd 0 sched.tail b.tail
    nscore := fillOut size nd 0 sched.nscore b.nscore
    pendingIn := fun i => if i < nd then sched.pendingIn i else trash
    pendingOut := fun i => if i < nd then sched.pendingOut i else trash }

theorem decode_view_widens {sched : DecodeSchedule} {b : DecodeBuffers} {trash n : Nat} (hn : sched.numDecodes ≤ n)
    (hn' : n ≤ limits.maxNumReqs) : sched.Widens trash ((b.land limits trash sched).view n) where
  numDecodes := hn
  counts _ hr := fillOut_of_lt hr
  slots _ hr := fillOut_of_lt hr
  live _ hr := fillOut_of_lt hr
  head _ hr := fillOut_of_lt hr
  tail _ hr := fillOut_of_lt hr
  pendingIn _ hr := if_pos hr
  pendingOut _ hr := if_pos hr
  deadCounts _ hge hr := fillOut_of_ge hge (hr.trans_le hn')
  deadLive _ hge hr := fillOut_of_ge hge (hr.trans_le hn')
  deadHead _ hge hr := fillOut_of_ge hge (hr.trans_le hn')
  deadIn _ hge _ := if_neg (Nat.not_lt.mpr hge)
  deadOut _ hge _ := if_neg (Nat.not_lt.mpr hge)

variable (g limits) in
/-- The buffers once a verify schedule has landed. -/
def SpecBuffers.land (md : Step4DSAMetadata) (sched : SpecSchedule) (b : SpecBuffers) : SpecBuffers :=
  let raw := specHost g limits md sched
  let dev := fun (f : SpecField) i => raw (f.start g limits + i)
  { raw := raw
    counts := fillOut (limits.maxNumReqs * g.nrm) (sched.numDecodes * sched.nrm) 0 (dev .counts) b.counts
    tokSeq := fillOut (maxTokens g limits) sched.numTokens 0 (dev .tokSeq) b.tokSeq
    tokNscore := fillOut (maxTokens g limits) sched.numTokens 0 (dev .tokNscore) b.tokNscore
    table := fillOut (maxTokens g limits) sched.numTokens (fun _ => 0) (fun t => md.blockTable (dev .tokReq t)) b.table }

/-! ## What a call lands -/

variable {x : (StagingBuffer → Nat → Nat) × GraphDevice}

theorem runBlocking_append (ops ops' : List GraphOp) :
    runBlocking (ops ++ ops') x = runBlocking ops' (runBlocking ops x) := List.foldl_append

theorem decodeOps_land {trash stage : Nat} {sched : DecodeSchedule} :
    (runBlocking (decodeOps limits trash stage sched) x).2 =
      { x.2 with decode := x.2.decode.land limits trash sched } := by
  unfold decodeOps upload
  cases limits.pinned <;>
    simp [runBlocking, decodeOut, onDecode, HostOp.blocking, StreamOp.exec, DecodeBuffers.land]

theorem specOps_land {stage : Nat} {sched : SpecSchedule} :
    (runBlocking (specOps g limits md stage sched) x).2 = { x.2 with spec := x.2.spec.land g limits md sched } := by
  unfold specOps upload
  cases limits.pinned <;>
    simp [runBlocking, specOut, onSpec, HostOp.blocking, StreamOp.exec, SpecBuffers.land]

theorem blocking_records {stages : List Nat} :
    runBlocking (stages.map fun stage => (.record (.spec stage) : GraphOp)) x = x := by
  induction stages with
  | nil => rfl
  | cons k ks ih => exact ih

theorem allocateSpec_land : ∃ b, (runBlocking (allocateSpec limits) x).2 = { x.2 with spec := b } := by
  refine ⟨⟨fun _ => 0, fun _ => 0, fun _ => 0, fun _ => 0, fun _ _ => 0⟩, ?_⟩
  unfold allocateSpec
  cases limits.pinned with
  | false => rfl
  | true =>
    change (runBlocking (List.map _ _) _).2 = _
    rw [blocking_records]
    rfl

/-! ## The ring of staging buffers -/

variable (limits) in
/-- Between two calls nothing is left to wait for, or the events know of all copies. -/
def Rested (φ : StagingBuffer → Phase) : Prop := ∀ b, φ b = .quiet ∨ limits.pinned = true ∧ φ b = .covered

variable {φ : StagingBuffer → Phase}

theorem Rested.not_busy (h : Rested limits φ) (b : StagingBuffer) : φ b ≠ .busy := by
  intro hb
  rcases h b with hq | ⟨-, hc⟩
  · rw [hq] at hb
    cases hb
  · rw [hc] at hb
    cases hb

theorem Rested.quiet (h : Rested limits φ) (hp : limits.pinned = false) (b : StagingBuffer) : φ b = .quiet := by
  rcases h b with hq | ⟨ht, -⟩
  · exact hq
  · rw [hp] at ht
    cases ht

/-- Launches leave the staging buffers alone. -/
theorem launches_disciplined {ops : List GraphOp} (h : ∀ o ∈ ops, ∃ f, o = .enqueue (.launch f)) :
    Disciplined StagingBuffer.event φ ops ∧ phases StagingBuffer.event φ ops = φ := by
  induction ops with
  | nil => exact ⟨trivial, rfl⟩
  | cons o ops ih =>
    obtain ⟨f, rfl⟩ := h o (List.mem_cons_self ..)
    obtain ⟨hd, hp⟩ := ih fun o ho => h o (List.mem_cons_of_mem _ ho)
    exact ⟨⟨trivial, hd⟩, hp⟩

theorem phases_append (ops ops' : List GraphOp) :
    phases StagingBuffer.event φ (ops ++ ops') = phases StagingBuffer.event (phases StagingBuffer.event φ ops) ops' :=
  List.foldl_append

variable (limits) in
/-- A program that keeps the discipline and rests at its end. -/
def Sound (ops : List GraphOp) : Prop :=
  ∀ φ, Rested limits φ → Disciplined StagingBuffer.event φ ops ∧ Rested limits (phases StagingBuffer.event φ ops)

theorem Sound.nil : Sound limits [] := fun _ h => ⟨trivial, h⟩

theorem Sound.append {ops ops' : List GraphOp} (h : Sound limits ops) (h' : Sound limits ops') : Sound limits (ops ++ ops') := by
  intro φ hφ
  obtain ⟨hd, hr⟩ := h φ hφ
  obtain ⟨hd', hr'⟩ := h' _ hr
  refine ⟨(disciplined_append _).mpr ⟨hd, hd'⟩, ?_⟩
  rw [phases_append]
  exact hr'

theorem Sound.launches {ops : List GraphOp} (h : ∀ o ∈ ops, ∃ f, o = .enqueue (.launch f)) : Sound limits ops := by
  intro φ hφ
  obtain ⟨hd, hp⟩ := launches_disciplined (φ := φ) h
  rw [hp]
  exact ⟨hd, hφ⟩

theorem Sound.records (hp : limits.pinned = true) (stages : List Nat) :
    Sound limits (stages.map fun stage => (.record (.spec stage) : GraphOp)) := by
  intro φ hφ
  induction stages generalizing φ with
  | nil => exact ⟨trivial, hφ⟩
  | cons k ks ih =>
    have hstep : Rested limits fun b => if StagingBuffer.event b = .spec k then .covered else φ b := by
      intro b
      by_cases he : StagingBuffer.event b = .spec k
      · exact .inr ⟨hp, if_pos he⟩
      · simp only [if_neg he]
        exact hφ b
    obtain ⟨hd, hr⟩ := ih _ hstep
    exact ⟨⟨trivial, hd⟩, hr⟩

/-- The two host vectors of a decode step: wait, fill, copy and record. -/
theorem Sound.stageDecode {stage : Nat} {vin vout : Nat → Nat} {landIn landOut : (Nat → Nat) → GraphDevice → GraphDevice} :
    Sound limits ((if limits.pinned then [.synchronize (.decode stage)] else []) ++
      [.write (.pendingIn stage) vin, .write (.pendingOut stage) vout] ++
      upload limits (.pendingIn stage) landIn ++ upload limits (.pendingOut stage) landOut ++
      if limits.pinned then [.record (.decode stage)] else []) := by
  intro φ hφ
  unfold upload
  cases hp : limits.pinned with
  | true =>
    refine ⟨⟨fun b _ => hφ.not_busy b, if_pos rfl, if_pos rfl, trivial, trivial, trivial, trivial⟩, fun b => ?_⟩
    by_cases he : StagingBuffer.event b = .decode stage
    · exact .inr ⟨hp, if_pos he⟩
    · have hin : b ≠ .pendingIn stage := by
        rintro rfl
        exact he rfl
      have hout : b ≠ .pendingOut stage := by
        rintro rfl
        exact he rfl
      have hsame : phases StagingBuffer.event φ
          [.synchronize (.decode stage), .write (.pendingIn stage) vin, .write (.pendingOut stage) vout,
            .enqueue (.copy (.pendingIn stage) landIn), .enqueue (.copy (.pendingOut stage) landOut),
            (.record (.decode stage) : GraphOp)] b = φ b := by
        change (if _ then _ else Function.update (Function.update _ _ _) _ _ b) = _
        rw [if_neg he, Function.update_of_ne hout, Function.update_of_ne hin]
        exact if_neg he
      exact hsame ▸ hφ b
  | false =>
    have hq := hφ.quiet hp
    exact ⟨⟨hq _, hq _, trivial, trivial, trivial, trivial, trivial⟩, fun b => .inl rfl⟩

theorem Sound.stageSpec {stage : Nat} {v : Nat → Nat} {land : (Nat → Nat) → GraphDevice → GraphDevice} :
    Sound limits ((if limits.pinned then [.synchronize (.spec stage)] else []) ++ [.write (.spec stage) v] ++
      upload limits (.spec stage) land ++ if limits.pinned then [.record (.spec stage)] else []) := by
  intro φ hφ
  unfold upload
  cases hp : limits.pinned with
  | true =>
    refine ⟨⟨fun b _ => hφ.not_busy b, if_pos rfl, trivial, trivial, trivial⟩, fun b => ?_⟩
    by_cases he : StagingBuffer.event b = .spec stage
    · exact .inr ⟨hp, if_pos he⟩
    · have hne : b ≠ .spec stage := by
        rintro rfl
        exact he rfl
      have hsame : phases StagingBuffer.event φ
          [.synchronize (.spec stage), .write (.spec stage) v, .enqueue (.copy (.spec stage) land),
            (.record (.spec stage) : GraphOp)] b = φ b := by
        change (if _ then _ else Function.update _ _ _ b) = _
        rw [if_neg he, Function.update_of_ne hne]
        exact if_neg he
      exact hsame ▸ hφ b
  | false =>
    have hq := hφ.quiet hp
    exact ⟨⟨hq _, trivial, trivial, trivial⟩, fun b => .inl rfl⟩

theorem decodeOps_sound {trash stage : Nat} {sched : DecodeSchedule} : Sound limits (decodeOps limits trash stage sched) := by
  have hout : Sound limits (decodeOut limits sched) := by
    apply Sound.launches
    simp [decodeOut, onDecode]
  have h := hout.append (@Sound.stageDecode limits stage (fun i => if i < sched.numDecodes then sched.pendingIn i else trash)
    (fun i => if i < sched.numDecodes then sched.pendingOut i else trash)
    (fun v b => { b with decode := { b.decode with pendingIn := v } })
    (fun v b => { b with decode := { b.decode with pendingOut := v } }))
  unfold decodeOps
  simpa only [List.append_assoc] using h

theorem specOps_sound {stage : Nat} {sched : SpecSchedule} : Sound limits (specOps g limits md stage sched) := by
  refine Sound.stageSpec.append (Sound.launches ?_)
  simp [specOut, onSpec]

theorem allocateSpec_sound : Sound limits (allocateSpec limits) := by
  unfold allocateSpec
  have hzero : Sound limits [onSpec fun _ => ⟨fun _ => 0, fun _ => 0, fun _ => 0, fun _ => 0, fun _ _ => 0⟩] := by
    apply Sound.launches
    simp [onSpec]
  cases hp : limits.pinned with
  | true => exact hzero.append (Sound.records hp _)
  | false => exact hzero

theorem replay_sound : Sound limits [replay] := by
  apply Sound.launches
  simp [replay]

/-! ## Replays after every call -/

variable {κ σ : Type}

section
variable (g limits) (zero : κ) (compress : List κ → σ) (trash : Nat)

/-- A replay at `n` rows does what the update of the schedule does, and reads inside the tensors. -/
structure DecodeReplay (s : DecodeSchedule) (b : DecodeBuffers) (n : Nat) : Prop where
  inside : (b.view n).Inside g trash
  update : ∀ (index : Nat → κ) (T : LayerTensors κ σ), SameButTrash trash
    (updateSummariesDecode g zero compress (b.view n) index T) (updateSummariesDecode g zero compress s index T)

structure SpecReplay (s : SpecSchedule) (b : SpecBuffers) (nd ndt : Nat) (queryStartLoc : Nat → Nat) : Prop where
  inside : (b.view g limits nd ndt queryStartLoc).Inside g trash
  update : ∀ (fused : Bool) (index : Nat → κ) (T : LayerTensors κ σ), SameButTrash trash
    (updateSummariesSpec g zero compress fused (b.view g limits nd ndt queryStartLoc) index trash T)
    (updateSummariesSpec g zero compress fused s index trash T)

/-- What a replay has found in the buffers is inert behind the schedule, whatever size was captured. Past the
batch `query_start_loc` may hold anything. -/
def GraphSchedule.Replays (s : GraphSchedule) (b : DecodeBuffers × SpecBuffers) : Prop :=
  match s with
  | .decode s => ∀ n, s.numDecodes ≤ n → n ≤ limits.maxNumReqs → DecodeReplay g zero compress trash s b.1 n
  | .spec s => ∀ nd ndt queryStartLoc, s.numDecodes ≤ nd → nd ≤ limits.maxNumReqs → s.numTokens ≤ ndt →
      ndt ≤ maxTokens g limits → (∀ r ≤ s.numDecodes, queryStartLoc r = s.queryStartLoc r) →
      SpecReplay g limits zero compress trash s b.2 nd ndt queryStartLoc

end

variable (g) in
def GraphCall.Valid : GraphCall → Prop
  | .spec md _ => md.VerifyBatch g
  | _ => True

theorem decode_replays (hwf : t.Wf) (zero : κ) (compress : List κ → σ) (b : DecodeBuffers) (b' : SpecBuffers) :
    (GraphSchedule.decode (decodeVectors g md t.capacity t)).Replays g limits zero compress t.capacity
      (b.land limits t.capacity (decodeVectors g md t.capacity t), b') := by
  intro n hn hn'
  have hwide : (decodeVectors g md t.capacity t).Widens t.capacity
      ((b.land limits t.capacity (decodeVectors g md t.capacity t)).view n) := decode_view_widens hn hn'
  exact ⟨hwide.inside (decode_inside hwf), hwide.update zero compress⟩

theorem spec_replays (hwf : t.Wf) (h : md.VerifyBatch g) (zero : κ) (compress : List κ → σ) (b : DecodeBuffers)
    (b' : SpecBuffers) : (GraphSchedule.spec (verifyVectors g md t)).Replays g limits zero compress t.capacity
      (b, b'.land g limits md (verifyVectors g md t)) := by
  intro nd ndt queryStartLoc hnd hnd' hndt hndt' hq
  have hcounts : ∀ p < limits.maxNumReqs * g.nrm, (b'.land g limits md (verifyVectors g md t)).counts p =
      if p < md.numDecodes * g.nrm then (verifyVectors g md t).counts p else 0 := by
    intro p hp
    change fillOut (limits.maxNumReqs * g.nrm) (md.numDecodes * g.nrm) 0
      (fun i => specHost g limits md (verifyVectors g md t) (SpecField.counts.start g limits + i)) b'.counts p = _
    by_cases hlt : p < md.numDecodes * g.nrm
    · rw [if_pos hlt]
      exact (fillOut_of_lt hlt).trans (specHost_start _ .counts hp)
    · rw [if_neg hlt]
      exact fillOut_of_ge (Nat.not_lt.mp hlt) hp
  have hraw : ∀ (f : SpecField) i, i < f.size g limits →
      (b'.land g limits md (verifyVectors g md t)).raw (f.start g limits + i) = (verifyVectors g md t).field md f i :=
    fun f i hi => specHost_start (verifyVectors g md t) f hi
  have hwide := view_widens h hraw hcounts hnd hnd' hndt hndt' hq
  have hstarts : ∀ r < md.numDecodes, md.queryStartLoc (r + 1) ≤ md.numDecodeTokens :=
    fun r hr => (h.starts_le hr (Nat.le_refl _)).trans h.tokens
  exact ⟨hwide.inside (verify_inside hwf h), hwide.update zero compress (verify_inside hwf h) hstarts⟩

theorem ensureSpecBuffers_ok {capturing : Bool} {s s' : GraphState} {ops : List GraphOp}
    (h : ensureSpecBuffers limits md capturing s = .ok (ops, s')) :
    s'.pending = s.pending ∧ s'.completedSlots = s.completedSlots ∧ Sound limits ops ∧
      ∀ x, ∃ b, (runBlocking ops x).2 = { x.2 with spec := b } := by
  unfold ensureSpecBuffers at h
  cases hp : s.specPages with
  | some pages =>
    rw [hp] at h
    obtain ⟨_, -, h⟩ := bind_eq_ok.mp h
    cases h
    exact ⟨rfl, rfl, .nil, fun x => ⟨x.2.spec, rfl⟩⟩
  | none =>
    rw [hp] at h
    obtain ⟨_, -, h⟩ := bind_eq_ok.mp h
    cases h
    exact ⟨rfl, rfl, allocateSpec_sound, fun x => allocateSpec_land⟩

/-- What one call keeps, and what its replay finds. -/
structure Landed (g : Step4DSAGeometry) (limits : GraphLimits) (zero : κ) (compress : List κ → σ) (trash : Nat)
    (scheds : List GraphSchedule) (ops : List GraphOp) (s' : GraphState) : Prop where
  wf : s'.pending.Wf
  capacity : s'.pending.capacity = trash
  sound : Sound limits ops
  replayed : ∀ x, ∃ found, (runBlocking ops x).2.replayed = x.2.replayed ++ found ∧
    List.Forall₂ (fun s b => s.Replays g limits zero compress trash b) scheds found

theorem claimed_table {s : GraphState} {heads slots : List Nat} {t : Step4PendingTable}
    (hwf : s.pending.Wf) (hc : claimRows (stepTable g s.completedSlots s.pending) heads slots = .ok t) :
    t.Wf ∧ t.capacity = s.pending.capacity := by
  obtain ⟨ht, -⟩ := claimRows_ok (stepTable_wf hwf _) hc
  exact ⟨ht.wf, by rw [ht.capacity, stepTable_capacity]⟩

theorem run_landed {c : GraphCall} {s s' : GraphState} {scheds : List GraphSchedule} {ops : List GraphOp}
    (hwf : s.pending.Wf) (hv : c.Valid g) (h : c.run g limits s = .ok (scheds, ops, s')) (zero : κ)
    (compress : List κ → σ) : Landed g limits zero compress s.pending.capacity scheds ops s' := by
  cases c with
  | general md =>
    obtain ⟨⟨sched, t⟩, hs, h⟩ := bind_eq_ok.mp h
    cases h
    rw [generalSchedule_eq md s.completedSlots hwf] at hs
    obtain ⟨u, hc, he⟩ := map_eq_ok hs
    cases he
    obtain ⟨hwf', hcap⟩ := claimed_table hwf hc
    exact ⟨hwf', hcap, .nil, fun x => ⟨[], (List.append_nil _).symm, .nil⟩⟩
  | decode md =>
    obtain ⟨⟨sched, ops, s₁⟩, hs, h⟩ := bind_eq_ok.mp h
    cases h
    obtain ⟨-, -, hs⟩ := bind_eq_ok.mp hs
    obtain ⟨⟨sched, t⟩, hd, hs⟩ := bind_eq_ok.mp hs
    obtain ⟨-, -, hs⟩ := bind_eq_ok.mp hs
    cases hs
    rw [decodeSchedule_eq md s.completedSlots hwf] at hd
    obtain ⟨u, hc, he⟩ := map_eq_ok hd
    cases he
    obtain ⟨hwf', hcap⟩ := claimed_table hwf hc
    rw [← hcap]
    refine ⟨hwf', rfl, decodeOps_sound.append replay_sound,
      fun x => ⟨_, ?_, .cons (decode_replays hwf' zero compress x.2.decode x.2.spec) .nil⟩⟩
    rw [runBlocking_append]
    change (runBlocking _ x).2.replayed ++ [((runBlocking _ x).2.decode, (runBlocking _ x).2.spec)] = _
    rw [decodeOps_land]
  | spec md capturing =>
    obtain ⟨⟨sched, ops, s₁⟩, hs, h⟩ := bind_eq_ok.mp h
    cases h
    obtain ⟨_, hlen, hs⟩ := bind_eq_ok.mp hs
    obtain ⟨-, -, hs⟩ := bind_eq_ok.mp hs
    obtain ⟨⟨allocated, s₂⟩, hall, hs⟩ := bind_eq_ok.mp hs
    obtain ⟨⟨sched, t⟩, hd, hs⟩ := bind_eq_ok.mp hs
    obtain ⟨-, -, hs⟩ := bind_eq_ok.mp hs
    obtain ⟨-, -, hs⟩ := bind_eq_ok.mp hs
    cases hs
    obtain ⟨hpend, hdone, hsound, hspec⟩ := ensureSpecBuffers_ok hall
    rw [hpend, hdone, specDecodeSchedule_eq md s.completedSlots hwf (ensure_eq_ok.mp hlen)] at hd
    obtain ⟨u, hc, he⟩ := map_eq_ok hd
    cases he
    obtain ⟨hwf', hcap⟩ := claimed_table hwf hc
    rw [← hcap]
    refine ⟨hwf', rfl, (hsound.append specOps_sound).append replay_sound,
      fun x => ⟨_, ?_, .cons (spec_replays hwf' hv zero compress x.2.decode (runBlocking allocated x).2.spec) .nil⟩⟩
    obtain ⟨b, hb⟩ := hspec x
    rw [runBlocking_append, runBlocking_append]
    change (runBlocking _ (runBlocking _ x)).2.replayed ++ [((runBlocking _ (runBlocking _ x)).2.decode,
      (runBlocking _ (runBlocking _ x)).2.spec)] = _
    rw [specOps_land, hb]
    rfl

theorem runCalls_landed : ∀ {calls : List GraphCall} {s s' : GraphState} {scheds : List GraphSchedule}
    {ops : List GraphOp}, s.pending.Wf → (∀ c ∈ calls, c.Valid g) → runCalls g limits calls s = .ok (scheds, ops, s') →
    ∀ (zero : κ) (compress : List κ → σ), Landed g limits zero compress s.pending.capacity scheds ops s'
  | [], s, s', scheds, ops, hwf, _, h, zero, compress => by
    cases h
    exact ⟨hwf, rfl, .nil, fun x => ⟨[], (List.append_nil _).symm, .nil⟩⟩
  | c :: cs, s, s', scheds, ops, hwf, hv, h, zero, compress => by
    obtain ⟨⟨scheds₁, ops₁, s₁⟩, hc, h⟩ := bind_eq_ok.mp h
    obtain ⟨⟨scheds₂, ops₂, s₂⟩, hcs, h⟩ := bind_eq_ok.mp h
    cases h
    have h₁ := run_landed hwf (hv c (List.mem_cons_self ..)) hc zero compress
    have h₂ := runCalls_landed h₁.wf (fun c hc => hv c (List.mem_cons_of_mem _ hc)) hcs zero compress
    rw [h₁.capacity] at h₂
    refine ⟨h₂.wf, h₂.capacity, h₁.sound.append h₂.sound, fun x => ?_⟩
    obtain ⟨found₁, he₁, hf₁⟩ := h₁.replayed x
    obtain ⟨found₂, he₂, hf₂⟩ := h₂.replayed (runBlocking ops₁ x)
    refine ⟨found₁ ++ found₂, ?_, List.rel_append hf₁ hf₂⟩
    rw [runBlocking_append, he₂, he₁, List.append_assoc]

/-- However the host runs ahead of the stream: no staging buffer is filled while a copy that reads it is in
flight, and what each replay finds in the buffers is inert behind the schedule of its own call. -/
theorem persistent_buffers_inert {calls : List GraphCall} {s s' : GraphState} {scheds : List GraphSchedule}
    {ops : List GraphOp} (hwf : s.pending.Wf) (hv : ∀ c ∈ calls, c.Valid g)
    (h : runCalls g limits calls s = .ok (scheds, ops, s')) (zero : κ) (compress : List κ → σ)
    {st : System StagingBuffer StagingEvent (Nat → Nat) GraphDevice} (hst : st.queue = []) :
    (∀ b v rest st', Reachable (ops, st) (.write b v :: rest, st') → ∀ op ∈ st'.queue, ¬op.Reads b) ∧
      ∀ st', Reachable (ops, st) ([], st') → ∃ found, st'.drain.replayed = st.device.replayed ++ found ∧
        List.Forall₂ (fun s₁ b => s₁.Replays g limits zero compress s.pending.capacity b) scheds found := by
  have hl := runCalls_landed hwf hv h zero compress
  have hd := (hl.sound (fun _ => .quiet) fun _ => .inl rfl).1
  have hholds : Holds StagingBuffer.event (fun _ => .quiet) st := holds_of_queue_nil hst _
  refine ⟨fun b v rest st' hr => write_safe hholds hd hr, fun st' hr => ?_⟩
  have hdrain := congrArg Prod.snd (drain_eq_blocking hholds hd hr)
  have hstart : st.drain = st.device := by
    unfold System.drain
    rw [hst]
    rfl
  change st'.drain = (runBlocking ops (st.staging, st.drain)).2 at hdrain
  rw [hdrain, hstart]
  exact hl.replayed _

/-- A decode step and then a verify step, two requests each, in buffers for three. The decode step begins the regions that
the verify step resumes. -/
theorem persistent_buffers_inert_two :
    let g : Step4DSAGeometry := ⟨2, 4, 3, by decide, by decide⟩
    let limits : GraphLimits := ⟨3, 1, true, false⟩
    let decode : Step4DSAMetadata := ⟨2, 0, 2, fun i => i, fun _ => 5, fun r _ => r + 1, none, 1⟩
    let verify : Step4DSAMetadata := ⟨2, 0, 6, fun i => 3 * i, fun _ => 8, fun r _ => r + 1, none, 1⟩
    let s : GraphState := ⟨⟨8, fun _ => none, fun _ => none, fun _ => -1, 0⟩, [], 8, 0, 0, none⟩
    let st : System StagingBuffer StagingEvent (Nat → Nat) GraphDevice := ⟨fun _ _ => 0, fun _ => 0, [], 0,
      ⟨⟨fun _ => 0, fun _ => none, fun _ => false, fun _ => 0, fun _ => 0, fun _ => 0, fun _ => 8, fun _ => 8⟩,
        ⟨fun _ => 0, fun _ => 0, fun _ => 0, fun _ => 0, fun _ _ => 0⟩, []⟩⟩
    ∃ scheds ops s', runCalls g limits [.decode decode, .spec verify false] s = .ok (scheds, ops, s') ∧
      (∀ b v rest st', Reachable (ops, st) (.write b v :: rest, st') → ∀ op ∈ st'.queue, ¬op.Reads b) ∧
        ∀ st', Reachable (ops, st) ([], st') → ∃ found, st'.drain.replayed = st.device.replayed ++ found ∧
          List.Forall₂ (fun s₁ b => s₁.Replays g limits 0 List.sum s.pending.capacity b) scheds found := by
  intro g limits decode verify s st
  have hok : (runCalls g limits [.decode decode, .spec verify false] s).isOk = true := by decide
  obtain ⟨⟨scheds, ops, s'⟩, hs⟩ : ∃ r, runCalls g limits [.decode decode, .spec verify false] s = .ok r := by
    cases hr : runCalls g limits [.decode decode, .spec verify false] s with
    | ok r => exact ⟨r, rfl⟩
    | error e =>
      rw [hr] at hok
      cases hok
  refine ⟨scheds, ops, s', hs, persistent_buffers_inert (wf_initial 8) (fun c hc => ?_) hs 0 List.sum rfl⟩
  rcases List.mem_pair.mp hc with rfl | rfl
  · trivial
  · refine ⟨fun i _ => Nat.mul_le_mul_left 3 (Nat.le_succ i), fun i _ => ?_, by decide⟩
    change 3 * (i + 1) - 3 * i ≤ 3
    omega

end

end VllmHcu.Step4
