import VllmHcu.Ipc.TeardownSound

/-!
# Exchanges and resources of a session

The plan after `m` exchanges is the same for all ranks. What a rank holds open is
what was opened for it and not closed, what it owns is what it allocated and has
not freed.
-/

namespace VllmHcu.Ipc

theorem Endpoint.Inv.ok {e : Endpoint} (h : e.Inv) (hpc : e.pc ≠ .idle ∧ e.pc ≠ .raised) :
    e.collectiveFailed = false := by
  cases hf : e.collectiveFailed with
  | false => rfl
  | true =>
    rcases h.failed hf with h' | h'
    · exact absurd h' hpc.1
    · exact absurd h' hpc.2

namespace Session

/-- The exchange number `m` of the group. -/
def planAt (world : Nat) (s : Session) : Nat → Option (Stage × Mode)
  | 0 => some (.allocating .data, .construct)
  | m + 1 => (planAt world s m).bind fun p => Endpoint.nextPlan p.1 p.2 ((s.gathered world m).any Payload.failed)

/-- In some exchange every rank has reported its mappings as closed. -/
def Quiet (world : Nat) (s : Session) : Prop :=
  ∃ m : Nat, ∀ r < world, (s.ranks r).sent[m]? = some (Stage.closing, Payload.status none)

structure RoundInv (world : Nat) (s : Session) : Prop where
  ranks : ∀ r < world, (s.ranks r).Inv
  rounds : ∀ r < world, ∀ r' < world, (s.ranks r).received ≤ (s.ranks r').sent.length
  plan : ∀ r < world, (s.ranks r).collectiveFailed = false → (s.ranks r).plan = s.planAt world (s.ranks r).received
  sent : ∀ r < world, ∀ m st p, (s.ranks r).sent[m]? = some (st, p) →
    (s.planAt world m).map Prod.fst = some st ∧ Fits st p
  quiet : ∀ r < world, (s.ranks r).needsCoordinatedClose = false → (s.ranks r).pc = .fresh ∨ s.Quiet world
  freed : s.freed ≠ [] → s.Quiet world

section
variable {world : Nat} {s s' : Session}

theorem planAt_congr {m : Nat} (h : ∀ j < m, s'.gathered world j = s.gathered world j) :
    s'.planAt world m = s.planAt world m := by
  induction m with
  | zero => rfl
  | succ m ih => rw [planAt, planAt, ih fun j hj => h j (by omega), h m (Nat.lt_succ_self m)]

theorem gathered_congr {j : Nat} (h : ∀ r < world, (s'.ranks r).sent[j]? = (s.ranks r).sent[j]?) :
    s'.gathered world j = s.gathered world j := by
  unfold gathered
  refine List.filterMap_congr fun r hr => ?_
  rw [h r (List.mem_range.mp hr)]

theorem update_ranks {r : Nat} {e' : Endpoint} (hranks : s'.ranks = Function.update s.ranks r e') (r' : Nat) :
    s'.ranks r' = if r' = r then e' else s.ranks r' := by
  rw [hranks, Function.update_apply]

theorem RoundInv.local {r : Nat} {e' : Endpoint} (h : RoundInv world s) (hr : r < world)
    (hranks : s'.ranks = Function.update s.ranks r e') (hinv : e'.Inv) (hsent : e'.sent = (s.ranks r).sent)
    (hreceived : e'.received = (s.ranks r).received)
    (hplan : e'.collectiveFailed = false → (s.ranks r).collectiveFailed = false ∧ e'.plan = (s.ranks r).plan)
    (hquiet : e'.needsCoordinatedClose = false → e'.pc = .fresh ∨ s.Quiet world)
    (hfreed : s'.freed ≠ [] → s.Quiet world) : RoundInv world s' := by
  have hrank := update_ranks hranks
  have hsame : ∀ r', (s'.ranks r').sent = (s.ranks r').sent := by
    intro r'
    rw [hrank r']
    split
    · subst_vars
      exact hsent
    · rfl
  have hrec : ∀ r', (s'.ranks r').received = (s.ranks r').received := by
    intro r'
    rw [hrank r']
    split
    · subst_vars
      exact hreceived
    · rfl
  have hplanAt : ∀ m, s'.planAt world m = s.planAt world m :=
    fun m => planAt_congr fun j _ => gathered_congr fun r' _ => by rw [hsame r']
  have hq : s.Quiet world → s'.Quiet world := by
    rintro ⟨m, hm⟩
    exact ⟨m, fun r' hr' => by rw [hsame r']; exact hm r' hr'⟩
  refine ⟨fun r' hr' => ?_, fun r₁ hr₁ r₂ hr₂ => ?_, fun r' hr' hok => ?_, fun r' hr' m st p hm => ?_, fun r' hr' hn => ?_,
    fun hf => hq (hfreed hf)⟩
  · rw [hrank r']
    split
    · exact hinv
    · exact h.ranks r' hr'
  · rw [hrec, hsame]
    exact h.rounds r₁ hr₁ r₂ hr₂
  · rw [hplanAt, hrec]
    rw [hrank r'] at hok ⊢
    split at hok
    · subst_vars
      rw [if_pos rfl, (hplan hok).2]
      exact h.plan r' hr' (hplan hok).1
    · rename_i hne
      rw [if_neg hne]
      exact h.plan r' hr' hok
  · rw [hplanAt]
    rw [hsame] at hm
    exact h.sent r' hr' m st p hm
  · rw [hrank r'] at hn ⊢
    split at hn
    · subst_vars
      rw [if_pos rfl]
      exact (hquiet hn).imp_right hq
    · rename_i hne
      rw [if_neg hne]
      exact (h.quiet r' hr' hn).imp_right hq

theorem RoundInv.send {r : Nat} {stage : Stage} {payload : Payload} (h : RoundInv world s) (hr : r < world)
    (hpc : (s.ranks r).pc = .exchange stage payload false)
    (hranks : s'.ranks = Function.update s.ranks r { s.ranks r with
      sent := (s.ranks r).sent ++ [(stage, payload)], pc := .exchange stage payload true })
    (hfreed : s'.freed = s.freed) : RoundInv world s' := by
  have hinv := h.ranks r hr
  have hok := hinv.ok (by simp [hpc])
  have hlen : (s.ranks r).sent.length = (s.ranks r).received := by
    simpa [hpc, Pc.waiting] using hinv.sent_eq hok
  have hplan : s.planAt world (s.ranks r).received = some (stage, (s.ranks r).mode) := by
    rw [← h.plan r hr hok]
    simp [Endpoint.plan, hpc]
  have hmode := hinv.mode
  have hneeds := hinv.needs
  have hpay := hinv.payload
  rw [hpc] at hmode hneeds hpay
  dsimp only at hmode hneeds hpay
  have hinv' : ({ s.ranks r with
      sent := (s.ranks r).sent ++ [(stage, payload)], pc := .exchange stage payload true } : Endpoint).Inv := by
    refine ⟨⟨?_, fun hc x hx => ?_, hinv.failed_needs, fun hm => ?_⟩, hmode, hneeds, ⟨hpay.1, hpay.2.1, fun _ => ?_⟩, ?_,
      ?_⟩
    · simp [hlen]
    · rcases List.mem_append.mp hx with hx | hx
      · exact hinv.noClosing hc x hx
      · rw [List.mem_singleton.mp hx]
        exact (hmode.mp hc).2
    · rcases List.mem_append.mp hm with hm | hm
      · exact hinv.swept hm
      · have := Prod.mk.inj (List.mem_singleton.mp hm)
        exact hpay.2.1 this.1.symm this.2.symm
    · simp [← hlen]
    · simp [hok]
    · simp [Pc.waiting, hlen]
  have hrank := update_ranks hranks
  -- what was sent before stays
  have hold : ∀ r' m, m < (s.ranks r').sent.length → (s'.ranks r').sent[m]? = (s.ranks r').sent[m]? := by
    intro r' m hm
    rw [hrank r']
    split
    · subst_vars
      exact List.getElem?_append_left hm
    · rfl
  have hrec : ∀ r', (s'.ranks r').received = (s.ranks r').received := by
    intro r'
    rw [hrank r']
    split
    · subst_vars
      rfl
    · rfl
  have hplanAt : ∀ r' < world, ∀ m ≤ (s.ranks r').received, s'.planAt world m = s.planAt world m := by
    intro r' hr' m hm
    refine planAt_congr fun j hj => gathered_congr fun r₁ hr₁ => hold r₁ j ?_
    have := h.rounds r' hr' r₁ hr₁
    omega
  have hq : s.Quiet world → s'.Quiet world := by
    rintro ⟨m, hm⟩
    refine ⟨m, fun r' hr' => ?_⟩
    rw [hold r' m (List.getElem?_eq_some_iff.mp (hm r' hr')).1]
    exact hm r' hr'
  refine ⟨fun r' hr' => ?_, fun r₁ hr₁ r₂ hr₂ => ?_, fun r' hr' hok' => ?_, fun r' hr' m st p hm => ?_,
    fun r' hr' hn => ?_, fun hf => hq (h.freed (hfreed ▸ hf))⟩
  · rw [hrank r']
    split
    · exact hinv'
    · exact h.ranks r' hr'
  · have hle := h.rounds r₁ hr₁ r₂ hr₂
    rw [hrec, hrank r₂]
    split
    · subst_vars
      simp only [List.length_append]
      omega
    · exact hle
  · rw [hrec, hplanAt r' hr' _ (Nat.le_refl _)]
    rw [hrank r'] at hok' ⊢
    split
    · subst_vars
      rw [hplan]
      rfl
    · rename_i hne
      rw [if_neg hne] at hok'
      exact h.plan r' hr' hok'
  · by_cases hlt : m < (s.ranks r').sent.length
    · rw [hold r' m hlt] at hm
      have hle := (h.ranks r' hr').sent_le.2
      rw [hplanAt r' hr' m (by omega)]
      exact h.sent r' hr' m st p hm
    · rw [hrank r'] at hm
      split at hm
      · subst_vars
        have hm' := (List.getElem?_eq_some_iff.mp hm).1
        simp only [List.length_append, List.length_singleton] at hm'
        obtain rfl : m = (s.ranks r').sent.length := by omega
        simp only [List.getElem?_append_right (Nat.le_refl _), Nat.sub_self, List.getElem?_cons_zero, Option.some.injEq,
          Prod.mk.injEq] at hm
        obtain ⟨rfl, rfl⟩ := hm
        rw [hlen, hplanAt r' hr' _ (Nat.le_refl _), hplan]
        exact ⟨rfl, hpay.1⟩
      · exact absurd (List.getElem?_eq_some_iff.mp hm).1 hlt
  · rw [hrank r'] at hn ⊢
    split at hn
    · subst_vars
      rw [hneeds] at hn
      cases hn
    · rename_i hne
      rw [if_neg hne]
      exact (h.quiet r' hr' hn).imp_right hq

theorem mem_gathered {m : Nat} {p : Payload} :
    p ∈ s.gathered world m ↔ ∃ r < world, ∃ st, (s.ranks r).sent[m]? = some (st, p) := by
  unfold gathered
  simp only [List.mem_filterMap, List.mem_range, Option.map_eq_some_iff]
  constructor
  · rintro ⟨r, hr, ⟨st, p'⟩, hm, rfl⟩
    exact ⟨r, hr, st, hm⟩
  · rintro ⟨r, hr, st, hm⟩
    exact ⟨r, hr, (st, p), hm, rfl⟩

theorem RoundInv.same_stage {r : Nat} {stage : Stage} {payload : Payload} {sent : Bool} (h : RoundInv world s)
    (hr : r < world) (hpc : (s.ranks r).pc = .exchange stage payload sent) :
    ∀ r' < world, ∀ st p, (s.ranks r').sent[(s.ranks r).received]? = some (st, p) → st = stage ∧ Fits st p := by
  intro r' hr' st p hm
  obtain ⟨hst, hfits⟩ := h.sent r' hr' _ st p hm
  rw [← h.plan r hr ((h.ranks r hr).ok (by simp [hpc]))] at hst
  simp only [Endpoint.plan, hpc, Option.map_some, Option.some.injEq] at hst
  exact ⟨hst.symm, hfits⟩

theorem RoundInv.gathered_fits {r : Nat} {stage : Stage} {payload : Payload} {sent : Bool} (h : RoundInv world s)
    (hr : r < world) (hpc : (s.ranks r).pc = .exchange stage payload sent) :
    ∀ p ∈ s.gathered world (s.ranks r).received, Fits stage p := by
  intro p hp
  obtain ⟨r', hr', st, hm⟩ := mem_gathered.mp hp
  obtain ⟨rfl, hf⟩ := h.same_stage hr hpc r' hr' st p hm
  exact hf

theorem RoundInv.receive {r : Nat} {stage : Stage} {payload : Payload} (h : RoundInv world s) (hr : r < world)
    (hpc : (s.ranks r).pc = .exchange stage payload true)
    (hall : ∀ r' < world, (s.ranks r).received < (s.ranks r').sent.length)
    (hranks : s'.ranks = Function.update s.ranks r
      (Endpoint.afterExchange { s.ranks r with received := (s.ranks r).received + 1 } r stage
        (s.gathered world (s.ranks r).received)))
    (hfreed : s'.freed = s.freed) : RoundInv world s' := by
  have hinv := h.ranks r hr
  have hok := hinv.ok (by simp [hpc])
  have hlen : (s.ranks r).sent.length = (s.ranks r).received + 1 := by
    simpa [hpc, Pc.waiting] using hinv.sent_eq hok
  have hplan : s.planAt world (s.ranks r).received = some (stage, (s.ranks r).mode) := by
    rw [← h.plan r hr hok]
    simp [Endpoint.plan, hpc]
  have hmode := hinv.mode
  have hneeds := hinv.needs
  rw [hpc] at hmode hneeds
  dsimp only at hmode hneeds
  have hstage := h.same_stage hr hpc
  have hfits := h.gathered_fits hr hpc
  generalize he' : Endpoint.afterExchange { s.ranks r with received := (s.ranks r).received + 1 } r stage
    (s.gathered world (s.ranks r).received) = e' at hranks
  have hkeeps := Endpoint.afterExchange_keeps { s.ranks r with received := (s.ranks r).received + 1 } r stage
    (s.gathered world (s.ranks r).received)
  have hbetween : Endpoint.Between { s.ranks r with received := (s.ranks r).received + 1 } :=
    ⟨by simp [hlen], hinv.noClosing, hinv.failed_needs, hinv.swept⟩
  have hplan' : e'.plan = s.planAt world ((s.ranks r).received + 1) := by
    rw [planAt, hplan, ← he']
    exact Endpoint.plan_afterExchange (e := { s.ranks r with received := (s.ranks r).received + 1 }) r hok hneeds hmode
      hfits
  have hinv' : e'.Inv := by
    rw [← he']
    exact Endpoint.afterExchange_inv r hbetween hlen hok hneeds hmode
  have hquiet : e'.needsCoordinatedClose = false → s.Quiet world := by
    intro hn
    rw [← he'] at hn
    obtain ⟨rfl, hgood⟩ := Endpoint.afterExchange_needs _ _ _ _ hn hneeds
    refine ⟨(s.ranks r).received, fun r' hr' => ?_⟩
    obtain ⟨⟨st, p⟩, hm⟩ : ∃ x, (s.ranks r').sent[(s.ranks r).received]? = some x :=
      ⟨_, List.getElem?_eq_getElem (hall r' hr')⟩
    obtain ⟨rfl, -⟩ := hstage r' hr' st p hm
    have hp := List.any_eq_false.mp hgood p (mem_gathered.mpr ⟨r', hr', _, hm⟩)
    rw [hm]
    cases p with
    | handle result => simp [Payload.badStatus] at hp
    | status error =>
      cases error with
      | none => rfl
      | some msg => simp [Payload.badStatus] at hp
  rw [he'] at hkeeps
  have hrank := update_ranks hranks
  have hsame : ∀ r', (s'.ranks r').sent = (s.ranks r').sent := by
    intro r'
    rw [hrank r']
    split
    · subst_vars
      exact hkeeps.sent
    · rfl
  have hplanAt : ∀ m, s'.planAt world m = s.planAt world m :=
    fun m => planAt_congr fun j _ => gathered_congr fun r' _ => by rw [hsame r']
  have hq : s.Quiet world → s'.Quiet world := by
    rintro ⟨m, hm⟩
    exact ⟨m, fun r' hr' => by rw [hsame r']; exact hm r' hr'⟩
  refine ⟨fun r' hr' => ?_, fun r₁ hr₁ r₂ hr₂ => ?_, fun r' hr' hok' => ?_, fun r' hr' m st p hm => ?_,
    fun r' hr' hn => ?_, fun hf => hq (h.freed (hfreed ▸ hf))⟩
  · rw [hrank r']
    split
    · exact hinv'
    · exact h.ranks r' hr'
  · rw [hsame, hrank r₁]
    split
    · rw [hkeeps.received]
      exact hall r₂ hr₂
    · exact h.rounds r₁ hr₁ r₂ hr₂
  · rw [hplanAt]
    rw [hrank r'] at hok' ⊢
    split
    · rw [hkeeps.received]
      exact hplan'
    · rename_i hne
      rw [if_neg hne] at hok'
      exact h.plan r' hr' hok'
  · rw [hplanAt]
    rw [hsame] at hm
    exact h.sent r' hr' m st p hm
  · rw [hrank r'] at hn ⊢
    split at hn
    · exact .inr (hq (hquiet hn))
    · rename_i hne
      rw [if_neg hne]
      exact (h.quiet r' hr' hn).imp_right hq

/-! ## Every step -/

section
variable {r : Nat} (h : RoundInv world s) (hr : r < world)
include h hr

theorem RoundInv.construct (hs : s.construct r = some s') : RoundInv world s' := by
  simp only [Session.construct] at hs
  split at hs
  · rename_i hpc
    cases hs
    have hinv := h.ranks r hr
    have hmode := hinv.mode
    rw [hpc] at hmode
    refine h.local hr rfl ?_ rfl rfl (fun hok => ⟨hok, by simp [Endpoint.plan, hpc]⟩) nofun h.freed
    refine ⟨⟨hinv.sent_le, hinv.noClosing, fun _ => rfl, hinv.swept⟩, hmode, rfl, trivial, ?_, ?_⟩
    · intro hf
      rw [hinv.ok (by simp [hpc])] at hf
      cases hf
    · intro hok
      simpa [hpc, Pc.waiting] using hinv.sent_eq hok
  · cases hs

theorem RoundInv.report (stage : Stage) (payload : Payload) (e : Endpoint) (hpc : (s.ranks r).pc.waiting = false)
    (hsent : e.sent = (s.ranks r).sent) (hrec : e.received = (s.ranks r).received)
    (hcf : e.collectiveFailed = (s.ranks r).collectiveFailed) (hb : e.Between) (hok : e.collectiveFailed = false)
    (hneeds : e.needsCoordinatedClose = true) (hmode : e.mode = .construct ↔ stage ≠ .quiescing ∧ stage ≠ .closing)
    (hfits : Fits stage payload) (hstage : stage ≠ .closing) (hplan : (s.ranks r).plan = some (stage, e.mode))
    (hranks : s'.ranks = Function.update s.ranks r { e with pc := .exchange stage payload false })
    (hfreed : s'.freed = s.freed) : RoundInv world s' := by
  have heq : e.collectiveFailed = false → e.sent.length = e.received := by
    intro hok
    rw [hsent, hrec]
    simpa [hpc] using (h.ranks r hr).sent_eq (hcf ▸ hok)
  refine h.local hr hranks (Endpoint.exchange_inv hb heq hok hneeds hmode hfits fun hc => absurd hc hstage) hsent hrec
    (fun hok => ⟨hcf ▸ hok, ?_⟩) (fun hn => ?_) fun hf => h.freed (hfreed ▸ hf)
  · rw [hplan]
    rfl
  · rw [hneeds] at hn
    cases hn

theorem RoundInv.allocate {error : Option String} (hs : s.allocate r error = some s') : RoundInv world s' := by
  have hinv := h.ranks r hr
  simp only [Session.allocate] at hs
  split at hs
  · rename_i b hpc
    have hmode := hinv.mode
    have hneeds := hinv.needs
    rw [hpc] at hmode hneeds
    have hok := hinv.ok (by simp [hpc])
    have hmode' : (s.ranks r).mode = .construct ↔ Stage.allocating b ≠ .quiescing ∧ Stage.allocating b ≠ .closing := by
      simpa using hmode
    have hplan : (s.ranks r).plan = some (.allocating b, (s.ranks r).mode) := by simp [Endpoint.plan, hpc, hmode]
    split at hs
    · cases hs
      exact h.report hr (.allocating b) (.handle (.ok (r, s.next)))
        { s.ranks r with ownedBuffers := (s.ranks r).ownedBuffers ++ [s.next] } (by simp [hpc, Pc.waiting])
        rfl rfl rfl ⟨hinv.sent_le, hinv.noClosing, hinv.failed_needs, hinv.swept⟩ hok hneeds hmode' trivial (by rintro ⟨⟩) hplan rfl
        rfl
    · rename_i msg
      cases hs
      exact h.report hr (.allocating b) (.handle (.error msg)) (s.ranks r) (by simp [hpc, Pc.waiting]) rfl rfl rfl
        hinv.toBetween hok hneeds hmode' trivial (by rintro ⟨⟩) hplan rfl rfl
  · cases hs

theorem RoundInv.openHandle {error : Option String} (hs : s.openHandle r error = some s') : RoundInv world s' := by
  have hinv := h.ranks r hr
  simp only [Session.openHandle] at hs
  split at hs
  · rename_i b hd todo hpc
    have hmode := hinv.mode
    have hneeds := hinv.needs
    rw [hpc] at hmode hneeds
    have hok := hinv.ok (by simp [hpc])
    have heq : (s.ranks r).collectiveFailed = false → (s.ranks r).sent.length = (s.ranks r).received := by
      simpa [hpc, Pc.waiting] using hinv.sent_eq
    split at hs
    · cases hs
      have hb : Endpoint.Between { s.ranks r with
          importedBuffers := (s.ranks r).importedBuffers ++ [⟨s.next, r, hd.1, hd.2⟩] } :=
        ⟨hinv.sent_le, hinv.noClosing, hinv.failed_needs, fun hm => absurd rfl (hinv.noClosing hmode _ hm)⟩
      have hkeeps := Endpoint.nextOpen_keeps { s.ranks r with
        importedBuffers := (s.ranks r).importedBuffers ++ [⟨s.next, r, hd.1, hd.2⟩] } b todo
      refine h.local hr rfl (Endpoint.nextOpen_inv hb heq hok hmode hneeds b todo) hkeeps.sent hkeeps.received
        (fun _ => ⟨hok, ?_⟩) (fun hn => ?_) h.freed
      · rw [Endpoint.plan_nextOpen (by exact hmode)]
        simp [Endpoint.plan, hpc]
      · rw [Endpoint.nextOpen_needs] at hn
        exact absurd (hn.symm.trans hneeds) (by rintro ⟨⟩)
    · rename_i msg
      cases hs
      exact h.report hr (.opening b) (.status (some msg)) (s.ranks r) (by simp [hpc, Pc.waiting]) rfl rfl rfl
        hinv.toBetween hok hneeds (by simpa using hmode) trivial (by rintro ⟨⟩) (by simp [Endpoint.plan, hpc, hmode]) rfl rfl
  · cases hs

theorem RoundInv.initBuffers {error : Option String} (hs : s.initBuffers r error = some s') : RoundInv world s' := by
  have hinv := h.ranks r hr
  simp only [Session.initBuffers] at hs
  split at hs
  · rename_i hpc
    have hmode := hinv.mode
    have hneeds := hinv.needs
    rw [hpc] at hmode hneeds
    cases hs
    exact h.report hr .initializing (.status error) (s.ranks r) (by simp [hpc, Pc.waiting]) rfl rfl rfl hinv.toBetween
      (hinv.ok (by simp [hpc])) hneeds (by simpa using hmode) trivial nofun (by simp [Endpoint.plan, hpc, hmode]) rfl rfl
  · cases hs

theorem RoundInv.synchronize {error : Option String} (hs : s.synchronize r error = some s') : RoundInv world s' := by
  have hinv := h.ranks r hr
  simp only [Session.synchronize] at hs
  split at hs
  · rename_i hpc
    have hmode := hinv.mode
    have hneeds := hinv.needs
    rw [hpc] at hmode hneeds
    cases hs
    exact h.report hr .quiescing (.status error) (s.ranks r) (by simp [hpc, Pc.waiting]) rfl rfl rfl hinv.toBetween
      (hinv.ok (by simp [hpc])) hneeds (by simpa using hmode) trivial nofun (by simp [Endpoint.plan, hpc]) rfl rfl
  · cases hs

theorem RoundInv.closeMapping {error : Option String} (hs : s.closeMapping r error = some s') : RoundInv world s' := by
  have hinv := h.ranks r hr
  simp only [Session.closeMapping] at hs
  split at hs
  · rename_i m todo remaining first hpc
    have hmode := hinv.mode
    have hneeds := hinv.needs
    have hpay := hinv.payload
    rw [hpc] at hmode hneeds hpay
    have hok := hinv.ok (by simp [hpc])
    have heq : (s.ranks r).collectiveFailed = false → (s.ranks r).sent.length = (s.ranks r).received := by
      simpa [hpc, Pc.waiting] using hinv.sent_eq
    have hnext : ∀ remaining' first', (first' = none → remaining' = []) → ∀ s',
        s'.ranks = Function.update s.ranks r ((s.ranks r).nextUnmap todo remaining' first') → s'.freed = s.freed →
        RoundInv world s' := by
      intro remaining' first' hrem s' hranks hfreed
      have hkeeps := Endpoint.nextUnmap_keeps (s.ranks r) todo remaining' first'
      refine h.local hr hranks (Endpoint.nextUnmap_inv hinv.toBetween heq hok hmode hneeds hrem ?_) hkeeps.sent
        hkeeps.received (fun _ => ⟨hok, ?_⟩) (fun hn => ?_) fun hf => h.freed (hfreed ▸ hf)
      · exact fun hm => absurd hm hpay.2
      · rw [Endpoint.plan_nextUnmap]
        simp [Endpoint.plan, hpc]
      · rw [Endpoint.nextUnmap_needs] at hn
        exact absurd (hn.symm.trans hneeds) (by rintro ⟨⟩)
    split at hs
    · cases hs
      exact hnext _ _ hpay.1 _ rfl rfl
    · cases hs
      refine hnext _ _ (fun hn => ?_) _ rfl rfl
      cases first with
      | _ => cases hn
  · cases hs

theorem RoundInv.freeBuffer {error : Option String} (hs : s.freeBuffer r error = some s') : RoundInv world s' := by
  have hinv := h.ranks r hr
  simp only [Session.freeBuffer] at hs
  split at hs
  · rename_i b todo remaining first hpc
    have hmode := hinv.mode
    have hneeds := hinv.needs
    rw [hpc] at hmode hneeds
    have hok := hinv.ok (by simp [hpc])
    have hquiet : s.Quiet world := by
      rcases h.quiet r hr hneeds with h' | h'
      · rw [hpc] at h'
        cases h'
      · exact h'
    have heq : (s.ranks r).collectiveFailed = false → (s.ranks r).sent.length = (s.ranks r).received := by
      simpa [hpc, Pc.waiting] using hinv.sent_eq
    have hnext : ∀ remaining' first' s',
        s'.ranks = Function.update s.ranks r ((s.ranks r).nextFree todo remaining' first') → RoundInv world s' := by
      intro remaining' first' s' hranks
      have hkeeps := Endpoint.nextFree_keeps (s.ranks r) todo remaining' first'
      refine h.local hr hranks (Endpoint.nextFree_inv hinv.toBetween heq hmode hneeds _ _ _) hkeeps.sent hkeeps.received
        (fun _ => ⟨hok, ?_⟩) (fun _ => .inr hquiet) fun _ => hquiet
      rw [Endpoint.plan_nextFree hmode hneeds]
      simp [Endpoint.plan, hpc]
    split at hs
    · cases hs
      exact hnext _ _ _ rfl
    · cases hs
      exact hnext _ _ _ rfl
  · cases hs

theorem RoundInv.close (hs : s.close r = some s') : RoundInv world s' := by
  have hinv := h.ranks r hr
  simp only [Session.close] at hs
  split at hs
  · rename_i hpc
    cases hs
    have heq : (s.ranks r).collectiveFailed = false → (s.ranks r).sent.length = (s.ranks r).received := by
      simpa [hpc, Pc.waiting] using hinv.sent_eq
    have hb : Endpoint.Between { s.ranks r with mode := .close, closes := (s.ranks r).closes + 1 } :=
      ⟨hinv.sent_le, (by rintro ⟨⟩), hinv.failed_needs, hinv.swept⟩
    have hkeeps := Endpoint.beginClose_keeps { s.ranks r with mode := .close, closes := (s.ranks r).closes + 1 }
    refine h.local hr rfl (Endpoint.beginClose_inv hb heq (by rintro ⟨⟩)) hkeeps.sent hkeeps.received (fun hok => ?_)
      (fun hn => ?_) h.freed
    · rw [hkeeps.collectiveFailed] at hok
      refine ⟨hok, ?_⟩
      rw [Endpoint.plan_beginClose (e := { s.ranks r with mode := .close, closes := (s.ranks r).closes + 1 }) (by rintro ⟨⟩) hok]
      simp [Endpoint.plan, hpc]
    · rw [Endpoint.beginClose_needs] at hn
      rcases h.quiet r hr hn with h' | h'
      · rw [hpc] at h'
        cases h'
      · exact .inr h'
  · cases hs

theorem RoundInv.exchangeRaises (hs : s.exchangeRaises r = some s') : RoundInv world s' := by
  have hinv := h.ranks r hr
  simp only [Session.exchangeRaises] at hs
  split at hs
  · rename_i hpc
    cases hs
    have hneeds := hinv.needs
    rw [hpc] at hneeds
    have hb : Endpoint.Between { s.ranks r with collectiveFailed := true } :=
      ⟨hinv.sent_le, hinv.noClosing, fun _ => hneeds, hinv.swept⟩
    have hkeeps := Endpoint.raise_keeps { s.ranks r with collectiveFailed := true }
    refine h.local hr rfl (Endpoint.raise_inv hb nofun) hkeeps.sent hkeeps.received (fun hok => ?_) (fun hn => ?_) h.freed
    · rw [hkeeps.collectiveFailed] at hok
      cases hok
    · rw [Endpoint.raise_needs] at hn
      exact absurd (hn.symm.trans hneeds) nofun
  · cases hs

end

theorem RoundInv.step {ev : SessionEvent} (h : RoundInv world s) (hs : s.step world ev = some s') :
    RoundInv world s' := by
  simp only [Session.step, Option.ite_none_right_eq_some] at hs
  obtain ⟨hr, hs⟩ := hs
  cases ev with
  | construct r => exact h.construct hr hs
  | close r => exact h.close hr hs
  | allocate r error => exact h.allocate hr hs
  | openHandle r error => exact h.openHandle hr hs
  | initBuffers r error => exact h.initBuffers hr hs
  | synchronize r error => exact h.synchronize hr hs
  | closeMapping r error => exact h.closeMapping hr hs
  | freeBuffer r error => exact h.freeBuffer hr hs
  | send r =>
    simp only [perform, Session.send] at hs
    split at hs
    · rename_i hpc
      cases hs
      exact h.send hr hpc rfl rfl
    · cases hs
  | receive r =>
    simp only [perform, Session.receive] at hs
    split at hs
    · rename_i hpc
      split at hs
      · rename_i hall
        cases hs
        exact h.receive hr hpc hall rfl rfl
      · cases hs
    · cases hs
  | exchangeRaises r => exact h.exchangeRaises hr hs

theorem roundInv_initial : RoundInv world {} := by
  have hinv : ({} : Endpoint).Inv :=
    ⟨⟨by simp, fun _ => nofun, nofun, nofun⟩, rfl, rfl, trivial, nofun, fun _ => rfl⟩
  exact ⟨fun r _ => hinv, fun _ _ _ _ => Nat.le_refl 0, fun _ _ _ => rfl, fun _ _ _ _ _ hm => by simp at hm,
    fun _ _ _ => .inl rfl, fun hf => absurd rfl hf⟩

end

end Session

end VllmHcu.Ipc
