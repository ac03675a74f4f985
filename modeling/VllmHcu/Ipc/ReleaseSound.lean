import Mathlib.Data.Nat.Init
import VllmHcu.Ipc.SessionSound
import VllmHcu.Lib.Ledger

/-!
# Resources of a session

Every mapping is closed at most once and every buffer freed at most once, no
buffer is freed while it is mapped anywhere, and a session without failures
releases everything.
-/

namespace VllmHcu.Ipc

namespace Session

/-! ## What the ranks hold and own -/

structure ResourceInv (world : Nat) (s : Session) : Prop where
  mappings : Ledger world Mapping.importer s.opened s.closed fun r => (s.ranks r).held
  buffers : Ledger world Prod.fst s.allocated s.freed fun r => (s.ranks r).owns.map fun b => (r, b)
  fresh : (∀ m ∈ s.opened, m.pointer < s.next) ∧ ∀ a ∈ s.allocated, a.2 < s.next

section
variable {world : Nat} {s s' : Session} {r : Nat} {e' : Endpoint}

/-- A step of rank `r` that neither opens, closes, allocates nor frees. -/
theorem ResourceInv.local (h : ResourceInv world s) (hranks : s'.ranks = Function.update s.ranks r e')
    (hheld : e'.held.Perm (s.ranks r).held) (howns : e'.owns.Perm (s.ranks r).owns) (hnext : s'.next = s.next)
    (hopened : s'.opened = s.opened) (hclosed : s'.closed = s.closed) (hallocated : s'.allocated = s.allocated)
    (hfreed : s'.freed = s.freed) : ResourceInv world s' := by
  have hrank := update_ranks hranks
  refine ⟨?_, ?_, by rw [hopened, hallocated, hnext]; exact h.fresh⟩
  · rw [hopened, hclosed]
    refine h.mappings.perm fun r' => ?_
    rw [hrank r']
    split
    · subst_vars
      exact hheld
    · exact .refl _
  · rw [hallocated, hfreed]
    refine h.buffers.perm fun r' => ?_
    rw [hrank r']
    split
    · subst_vars
      exact howns.map _
    · exact .refl _

theorem ResourceInv.buffers_kept (h : ResourceInv world s) (hranks : s'.ranks = Function.update s.ranks r e')
    (howns : e'.owns = (s.ranks r).owns) :
    Ledger world Prod.fst s.allocated s.freed fun r' => (s'.ranks r').owns.map fun b => (r', b) := by
  refine h.buffers.perm fun r' => ?_
  rw [update_ranks hranks r']
  split
  · subst_vars
    rw [howns]
  · exact .refl _

theorem ResourceInv.mappings_kept (h : ResourceInv world s) (hranks : s'.ranks = Function.update s.ranks r e')
    (hheld : e'.held = (s.ranks r).held) :
    Ledger world Mapping.importer s.opened s.closed fun r' => (s'.ranks r').held := by
  refine h.mappings.perm fun r' => ?_
  rw [update_ranks hranks r']
  split
  · subst_vars
    rw [hheld]
  · exact .refl _

theorem ResourceInv.allocate {error : Option String} (h : ResourceInv world s) (hr : r < world)
    (hs : s.allocate r error = some s') : ResourceInv world s' := by
  simp only [Session.allocate] at hs
  split at hs
  · rename_i b hpc
    have hheld : (s.ranks r).held = (s.ranks r).importedBuffers := by simp [Endpoint.held, hpc]
    have howns : (s.ranks r).owns = (s.ranks r).ownedBuffers := by simp [Endpoint.owns, hpc]
    split at hs
    · cases hs
      refine ⟨h.mappings_kept rfl hheld.symm, ?_, fun m hm => Nat.lt_succ_of_lt (h.fresh.1 m hm), fun a ha => ?_⟩
      · have hnew : (r, s.next) ∉ s.allocated := fun hm => Nat.lt_irrefl _ (h.fresh.2 _ hm)
        refine h.buffers.acquire hnew hr ?_ fun r' hne => ?_
        · simp [Session.set, Endpoint.owns, hpc]
        · simp [Session.set, Function.update_of_ne hne]
      · rcases List.mem_append.mp ha with ha | ha
        · exact Nat.lt_succ_of_lt (h.fresh.2 a ha)
        · rw [List.mem_singleton.mp ha]
          exact Nat.lt_succ_self _
    · cases hs
      exact h.local rfl (by rw [hheld]; rfl) (by rw [howns]; rfl) rfl rfl rfl rfl rfl
  · cases hs

theorem ResourceInv.openHandle {error : Option String} (h : ResourceInv world s) (hr : r < world)
    (hs : s.openHandle r error = some s') : ResourceInv world s' := by
  simp only [Session.openHandle] at hs
  split at hs
  · rename_i b hd todo hpc
    have hheld : (s.ranks r).held = (s.ranks r).importedBuffers := by simp [Endpoint.held, hpc]
    have howns : (s.ranks r).owns = (s.ranks r).ownedBuffers := by simp [Endpoint.owns, hpc]
    split at hs
    · cases hs
      have hkeeps := Endpoint.nextOpen_keeps { s.ranks r with
        importedBuffers := (s.ranks r).importedBuffers ++ [⟨s.next, r, hd.1, hd.2⟩] } b todo
      refine ⟨?_, h.buffers_kept rfl (hkeeps.owns.trans howns.symm), fun m hm => ?_,
        fun a ha => Nat.lt_succ_of_lt (h.fresh.2 a ha)⟩
      · have hnew : (⟨s.next, r, hd.1, hd.2⟩ : Mapping) ∉ s.opened := fun hm => Nat.lt_irrefl _ (h.fresh.1 _ hm)
        refine h.mappings.acquire hnew hr ?_ fun r' hne => ?_
        · simp only [Session.set, Function.update_self]
          rw [hkeeps.held, hheld]
        · simp [Session.set, Function.update_of_ne hne]
      · rcases List.mem_append.mp hm with hm | hm
        · exact Nat.lt_succ_of_lt (h.fresh.1 m hm)
        · rw [List.mem_singleton.mp hm]
          exact Nat.lt_succ_self _
    · cases hs
      exact h.local rfl (by rw [hheld]; rfl) (by rw [howns]; rfl) rfl rfl rfl rfl rfl
  · cases hs

theorem ResourceInv.closeMapping {error : Option String} (h : ResourceInv world s) (hr : r < world)
    (hs : s.closeMapping r error = some s') : ResourceInv world s' := by
  simp only [Session.closeMapping] at hs
  split at hs
  · rename_i m todo remaining first hpc
    have hheld : (s.ranks r).held = m :: (todo ++ remaining) := by simp [Endpoint.held, hpc]
    have howns : (s.ranks r).owns = (s.ranks r).ownedBuffers := by simp [Endpoint.owns, hpc]
    split at hs
    · cases hs
      have hkeeps := Endpoint.nextUnmap_keeps (s.ranks r) todo remaining first
      refine ⟨?_, h.buffers_kept rfl (hkeeps.owns.trans howns.symm), h.fresh⟩
      refine h.mappings.release hr ?_ fun r' hne => ?_
      · simp only [Session.set, Function.update_self]
        rw [hkeeps.held, hheld]
      · simp [Session.set, Function.update_of_ne hne]
    · rename_i msg
      cases hs
      have hkeeps := Endpoint.nextUnmap_keeps (s.ranks r) todo (remaining ++ [m]) (first.or (some msg))
      refine h.local rfl ?_ ?_ rfl rfl rfl rfl rfl
      · rw [hkeeps.held, hheld, ← List.append_assoc]
        exact List.perm_append_singleton m _
      · rw [hkeeps.owns, howns]
  · cases hs

theorem ResourceInv.freeBuffer {error : Option String} (h : ResourceInv world s) (hr : r < world)
    (hs : s.freeBuffer r error = some s') : ResourceInv world s' := by
  simp only [Session.freeBuffer] at hs
  split at hs
  · rename_i b todo remaining first hpc
    have hheld : (s.ranks r).held = (s.ranks r).importedBuffers := by simp [Endpoint.held, hpc]
    have howns : (s.ranks r).owns = b :: (todo ++ remaining) := by simp [Endpoint.owns, hpc]
    split at hs
    · cases hs
      have hkeeps := Endpoint.nextFree_keeps (s.ranks r) todo remaining first
      refine ⟨h.mappings_kept rfl (hkeeps.held.trans hheld.symm), ?_, h.fresh⟩
      refine h.buffers.release hr ?_ fun r' hne => ?_
      · simp only [Session.set, Function.update_self]
        rw [hkeeps.owns, howns]
        exact .refl _
      · simp [Session.set, Function.update_of_ne hne]
    · rename_i msg
      cases hs
      have hkeeps := Endpoint.nextFree_keeps (s.ranks r) todo (remaining ++ [b]) (first.or (some msg))
      refine h.local rfl ?_ ?_ rfl rfl rfl rfl rfl
      · rw [hkeeps.held, hheld]
      · rw [hkeeps.owns, howns, ← List.append_assoc]
        exact List.perm_append_singleton b _
  · cases hs

theorem ResourceInv.jump (h : ResourceInv world s) (hheld : (s.ranks r).held = (s.ranks r).importedBuffers)
    (howns : (s.ranks r).owns = (s.ranks r).ownedBuffers) (hheld' : e'.held = (s.ranks r).importedBuffers)
    (howns' : e'.owns = (s.ranks r).ownedBuffers) : ResourceInv world (s.set r e') := by
  refine h.local rfl ?_ ?_ rfl rfl rfl rfl rfl
  · rw [hheld', hheld]
  · rw [howns', howns]

theorem ResourceInv.step {ev : SessionEvent} (h : ResourceInv world s) (hs : s.step world ev = some s') :
    ResourceInv world s' := by
  simp only [Session.step, Option.ite_none_right_eq_some] at hs
  obtain ⟨hr, hs⟩ := hs
  cases ev with
  | allocate r error => exact h.allocate hr hs
  | openHandle r error => exact h.openHandle hr hs
  | closeMapping r error => exact h.closeMapping hr hs
  | freeBuffer r error => exact h.freeBuffer hr hs
  | construct r =>
    simp only [perform, Session.construct] at hs
    split at hs
    · rename_i hpc
      cases hs
      exact h.jump (by simp [Endpoint.held, hpc]) (by simp [Endpoint.owns, hpc]) rfl rfl
    · cases hs
  | initBuffers r error =>
    simp only [perform, Session.initBuffers] at hs
    split at hs
    · rename_i hpc
      cases hs
      exact h.jump (by simp [Endpoint.held, hpc]) (by simp [Endpoint.owns, hpc]) rfl rfl
    · cases hs
  | synchronize r error =>
    simp only [perform, Session.synchronize] at hs
    split at hs
    · rename_i hpc
      cases hs
      exact h.jump (by simp [Endpoint.held, hpc]) (by simp [Endpoint.owns, hpc]) rfl rfl
    · cases hs
  | close r =>
    simp only [perform, Session.close] at hs
    split at hs
    · rename_i hpc
      cases hs
      have hkeeps := Endpoint.beginClose_keeps { s.ranks r with mode := .close, closes := (s.ranks r).closes + 1 }
      exact h.jump (by simp [Endpoint.held, hpc]) (by simp [Endpoint.owns, hpc]) hkeeps.held hkeeps.owns
    · cases hs
  | send r =>
    simp only [perform, Session.send] at hs
    split at hs
    · rename_i hpc
      cases hs
      exact h.jump (by simp [Endpoint.held, hpc]) (by simp [Endpoint.owns, hpc]) rfl rfl
    · cases hs
  | receive r =>
    simp only [perform, Session.receive] at hs
    split at hs
    · rename_i stage payload hpc
      split at hs
      · cases hs
        have hkeeps := Endpoint.afterExchange_keeps { s.ranks r with received := (s.ranks r).received + 1 } r stage
          (s.gathered world (s.ranks r).received)
        exact h.jump (by simp [Endpoint.held, hpc]) (by simp [Endpoint.owns, hpc]) hkeeps.held hkeeps.owns
      · cases hs
    · cases hs
  | exchangeRaises r =>
    simp only [perform, Session.exchangeRaises] at hs
    split at hs
    · rename_i hpc
      cases hs
      have hkeeps := Endpoint.raise_keeps { s.ranks r with collectiveFailed := true }
      exact h.jump (by simp [Endpoint.held, hpc]) (by simp [Endpoint.owns, hpc]) hkeeps.held hkeeps.owns
    · cases hs

theorem resourceInv_initial : ResourceInv world {} := ⟨.initial, .initial, nofun, nofun⟩

theorem no_mapping_after_free (h : ResourceInv world s) (hround : RoundInv world s) (hfreed : s.freed ≠ []) :
    ∀ m ∈ s.opened, m ∈ s.closed := by
  intro m hm
  obtain ⟨k, hk⟩ := hround.freed hfreed
  have hlt := h.mappings.owner_lt m hm
  have hinv := hround.ranks m.importer hlt
  have hsent := List.mem_of_getElem? (hk m.importer hlt)
  by_contra hopen
  have hheld : m ∈ (s.ranks m.importer).held := (h.mappings.mem_holds _ hlt m).mpr ⟨hm, rfl, hopen⟩
  have hempty := hinv.swept hsent
  have hpay := hinv.payload
  unfold Endpoint.held at hheld
  split at hheld
  · rename_i hpc
    rw [hpc] at hpay
    exact hpay.2 hsent
  · rw [hempty] at hheld
    cases hheld

end

end Session

/-! ## Sessions without failures -/

/-- The operation succeeds. -/
def SessionEvent.succeeds : SessionEvent → Bool
  | .allocate _ error | .openHandle _ error | .initBuffers _ error | .synchronize _ error | .closeMapping _ error
  | .freeBuffer _ error => error.isNone
  | .exchangeRaises _ => false
  | .construct _ | .close _ | .send _ | .receive _ => true

/-- What holds for a rank as long as nothing has failed. -/
structure Endpoint.Smooth (e : Endpoint) : Prop where
  ok : e.collectiveFailed = false
  sent : ∀ x ∈ e.sent, x.2.failed = false
  mode : e.mode ≠ .cleanup
  pc : match e.pc with
    | .fresh => e.closes = 0
    | .exchange _ payload _ => payload.failed = false
    | .openHandles _ todo => todo ≠ []
    | .closeMappings todo _ error => todo ≠ [] ∧ error = none
    | .freeOwned todo remaining _ => todo ≠ [] ∧ remaining = []
    | .idle => 0 < e.closes → e.needsCoordinatedClose = false ∧ e.ownedBuffers = []
    | .raised => False
    | _ => True
  closes : e.mode = .construct → e.closes = 0

namespace Endpoint

section
variable {e : Endpoint} (hok : e.collectiveFailed = false) (hsent : ∀ x ∈ e.sent, x.2.failed = false)
include hok hsent

theorem nextFree_smooth (hmode : e.mode = .close) (hneeds : e.needsCoordinatedClose = false) (todo : List Nat)
    (error : Option String) : Smooth (e.nextFree todo [] error) := by
  unfold nextFree
  cases todo with
  | nil =>
    simp only [endCall, hmode]
    refine ⟨hok, hsent, ?_, fun _ => ⟨hneeds, rfl⟩, fun h => ?_⟩
    · nofun
    · cases h
  | cons b todo =>
    refine ⟨hok, hsent, by rw [hmode]; nofun, ⟨by simp, rfl⟩, fun h => ?_⟩
    rw [hmode] at h
    cases h

theorem nextUnmap_smooth (hmode : e.mode = .close) (todo remaining : List Mapping) :
    Smooth (e.nextUnmap todo remaining none) := by
  have hclose : e.mode = .construct → e.closes = 0 := fun h => by rw [hmode] at h; cases h
  unfold nextUnmap
  cases todo with
  | nil => exact ⟨hok, hsent, by rw [hmode]; nofun, rfl, hclose⟩
  | cons m todo => exact ⟨hok, hsent, by rw [hmode]; nofun, ⟨by simp, rfl⟩, hclose⟩

theorem nextOpen_smooth (hmode : e.mode ≠ .cleanup) (hclose : e.mode = .construct → e.closes = 0) (b : Buf)
    (todo : List Handle) : Smooth (e.nextOpen b todo) := by
  unfold nextOpen
  cases todo with
  | nil => exact ⟨hok, hsent, hmode, rfl, hclose⟩
  | cons m todo => exact ⟨hok, hsent, hmode, by simp, hclose⟩

theorem beginClose_smooth (hmode : e.mode = .close) : Smooth e.beginClose := by
  have hclose : e.mode = .construct → e.closes = 0 := fun h => by rw [hmode] at h; cases h
  unfold beginClose
  dsimp only
  split
  · rw [if_neg (by simp [hok])]
    exact ⟨hok, hsent, by rw [hmode]; nofun, trivial, hclose⟩
  · rename_i hneeds
    exact nextFree_smooth (e := { e with disabled := true }) hok hsent hmode (by simpa using hneeds) _ _

theorem afterExchange_smooth {stage : Stage} {payloads : List Payload} (r : Nat) (hmode : e.mode ≠ .cleanup)
    (hclose : e.mode = .construct → e.closes = 0)
    (hstage : e.mode = .construct ↔ stage ≠ .quiescing ∧ stage ≠ .closing) (hfits : ∀ p ∈ payloads, Fits stage p)
    (hgood : payloads.any Payload.failed = false) : Smooth (e.afterExchange r stage payloads) := by
  have hexplicit : e.mode ≠ .construct → e.mode = .close := by
    intro h
    cases hm : e.mode with
    | construct => exact absurd hm h
    | cleanup => exact absurd hm hmode
    | close => rfl
  cases stage with
  | allocating b =>
    simp only [afterExchange]
    split
    · rename_i hnone
      rw [(mapM_handle?_eq_none hfits).mp hnone] at hgood
      cases hgood
    · exact nextOpen_smooth hok hsent hmode hclose _ _
  | opening b =>
    rw [← any_badStatus hfits (by intro a h; cases h)] at hgood
    simp only [afterExchange, hgood, Bool.false_eq_true, if_false]
    cases b with
    | _ => exact ⟨hok, hsent, hmode, trivial, hclose⟩
  | initializing =>
    rw [← any_badStatus hfits (by intro a h; cases h)] at hgood
    simp only [afterExchange, hgood, Bool.false_eq_true, if_false]
    refine ⟨hok, hsent, hmode, fun hc => ?_, hclose⟩
    rw [hclose (hstage.mpr ⟨(by rintro ⟨⟩), (by rintro ⟨⟩)⟩)] at hc
    cases hc
  | quiescing =>
    rw [← any_badStatus hfits (by intro a h; cases h)] at hgood
    simp only [afterExchange, hgood, Bool.false_eq_true, if_false]
    exact nextUnmap_smooth hok hsent (hexplicit fun hm => (hstage.mp hm).1 rfl) _ _
  | closing =>
    rw [← any_badStatus hfits (by intro a h; cases h)] at hgood
    simp only [afterExchange, hgood, Bool.false_eq_true, if_false]
    exact nextFree_smooth (e := { e with needsCoordinatedClose := false }) hok hsent
      (hexplicit fun hm => (hstage.mp hm).2 rfl) rfl _ _

end

end Endpoint

namespace Session

section
variable {world : Nat} {s s' : Session}

theorem smooth_set {r : Nat} {e' : Endpoint} (h : ∀ r < world, (s.ranks r).Smooth)
    (hranks : s'.ranks = Function.update s.ranks r e') (he' : e'.Smooth) : ∀ r < world, (s'.ranks r).Smooth := by
  intro r' hr'
  rw [update_ranks hranks r']
  split
  · exact he'
  · exact h r' hr'

theorem smooth_step {ev : SessionEvent} (h : ∀ r < world, (s.ranks r).Smooth) (hround : RoundInv world s)
    (hev : ev.succeeds = true) (hs : s.step world ev = some s') : ∀ r < world, (s'.ranks r).Smooth := by
  simp only [Session.step, Option.ite_none_right_eq_some] at hs
  obtain ⟨hr, hs⟩ := hs
  cases ev with
  | construct r =>
    simp only [perform, Session.construct] at hs
    split at hs
    · cases hs
      obtain ⟨hok, hsent, hmode, -, hcl⟩ := h r hr
      exact smooth_set h rfl ⟨hok, hsent, hmode, trivial, hcl⟩
    · cases hs
  | close r =>
    simp only [perform, Session.close] at hs
    split at hs
    · cases hs
      obtain ⟨hok, hsent, -, -, -⟩ := h r hr
      exact smooth_set h rfl (Endpoint.beginClose_smooth
        (e := { s.ranks r with mode := .close, closes := (s.ranks r).closes + 1 }) hok hsent rfl)
    · cases hs
  | allocate r error =>
    obtain rfl := Option.isNone_iff_eq_none.mp hev
    simp only [perform, Session.allocate] at hs
    split at hs
    · cases hs
      obtain ⟨hok, hsent, hmode, -, hcl⟩ := h r hr
      exact smooth_set h rfl ⟨hok, hsent, hmode, rfl, hcl⟩
    · cases hs
  | openHandle r error =>
    obtain rfl := Option.isNone_iff_eq_none.mp hev
    simp only [perform, Session.openHandle] at hs
    split at hs
    · rename_i b hd todo hpc
      cases hs
      obtain ⟨hok, hsent, hmode, -, hcl⟩ := h r hr
      exact smooth_set h rfl (Endpoint.nextOpen_smooth (e := { s.ranks r with
        importedBuffers := (s.ranks r).importedBuffers ++ [⟨s.next, r, hd.1, hd.2⟩] }) hok hsent hmode hcl b todo)
    · cases hs
  | initBuffers r error =>
    obtain rfl := Option.isNone_iff_eq_none.mp hev
    simp only [perform, Session.initBuffers] at hs
    split at hs
    · cases hs
      obtain ⟨hok, hsent, hmode, -, hcl⟩ := h r hr
      exact smooth_set h rfl ⟨hok, hsent, hmode, rfl, hcl⟩
    · cases hs
  | synchronize r error =>
    obtain rfl := Option.isNone_iff_eq_none.mp hev
    simp only [perform, Session.synchronize] at hs
    split at hs
    · cases hs
      obtain ⟨hok, hsent, hmode, -, hcl⟩ := h r hr
      exact smooth_set h rfl ⟨hok, hsent, hmode, rfl, hcl⟩
    · cases hs
  | closeMapping r error =>
    obtain rfl := Option.isNone_iff_eq_none.mp hev
    simp only [perform, Session.closeMapping] at hs
    split at hs
    · rename_i m todo remaining first hpc
      obtain ⟨hok, hsent, hmode, hp, -⟩ := h r hr
      have hexplicit := (hround.ranks r hr).mode
      rw [hpc] at hp hexplicit
      obtain ⟨-, rfl⟩ := hp
      cases hs
      refine smooth_set h rfl (Endpoint.nextUnmap_smooth hok hsent ?_ todo remaining)
      cases hm : (s.ranks r).mode with
      | construct => exact absurd hm hexplicit
      | cleanup => exact absurd hm hmode
      | close => rfl
    · cases hs
  | freeBuffer r error =>
    obtain rfl := Option.isNone_iff_eq_none.mp hev
    simp only [perform, Session.freeBuffer] at hs
    split at hs
    · rename_i b todo remaining first hpc
      obtain ⟨hok, hsent, hmode, hp, -⟩ := h r hr
      have hexplicit := (hround.ranks r hr).mode
      have hneeds := (hround.ranks r hr).needs
      rw [hpc] at hp hexplicit hneeds
      obtain ⟨-, rfl⟩ := hp
      cases hs
      refine smooth_set h rfl (Endpoint.nextFree_smooth hok hsent ?_ hneeds todo first)
      cases hm : (s.ranks r).mode with
      | construct => exact absurd hm hexplicit
      | cleanup => exact absurd hm hmode
      | close => rfl
    · cases hs
  | send r =>
    simp only [perform, Session.send] at hs
    split at hs
    · rename_i stage payload hpc
      cases hs
      obtain ⟨hok, hsent, hmode, hp, hcl⟩ := h r hr
      rw [hpc] at hp
      refine smooth_set h rfl ⟨hok, fun x hx => ?_, hmode, hp, hcl⟩
      rcases List.mem_append.mp hx with hx | hx
      · exact hsent x hx
      · rw [List.mem_singleton.mp hx]
        exact hp
    · cases hs
  | receive r =>
    simp only [perform, Session.receive] at hs
    split at hs
    · rename_i stage payload hpc
      split at hs
      · cases hs
        obtain ⟨hok, hsent, hmode, -, hcl⟩ := h r hr
        have hstage := (hround.ranks r hr).mode
        rw [hpc] at hstage
        refine smooth_set h rfl (Endpoint.afterExchange_smooth
          (e := { s.ranks r with received := (s.ranks r).received + 1 }) hok hsent r hmode hcl hstage
          (hround.gathered_fits hr hpc) ?_)
        refine List.any_eq_false.mpr fun p hp => ?_
        obtain ⟨r', hr', st, hm⟩ := mem_gathered.mp hp
        simpa using (h r' hr').sent (st, p) (List.mem_of_getElem? hm)
      · cases hs
    · cases hs
  | exchangeRaises r => cases hev

theorem all_released (h : ResourceInv world s) (hround : RoundInv world s) (hsmooth : ∀ r < world, (s.ranks r).Smooth)
    (hcloses : ∀ r < world, 0 < (s.ranks r).closes) (hidle : ∀ r < world, (s.ranks r).pc = .idle) :
    (∀ m ∈ s.opened, m ∈ s.closed) ∧ ∀ a ∈ s.allocated, a ∈ s.freed := by
  have hdone : ∀ r < world, (s.ranks r).needsCoordinatedClose = false ∧ (s.ranks r).ownedBuffers = [] := by
    intro r hr
    have hp := (hsmooth r hr).pc
    rw [hidle r hr] at hp
    exact hp (hcloses r hr)
  refine ⟨fun m hm => ?_, fun a ha => ?_⟩
  · have hr := h.mappings.owner_lt m hm
    have hquiet : s.Quiet world := by
      rcases hround.quiet _ hr (hdone _ hr).1 with h' | h'
      · rw [hidle _ hr] at h'
        cases h'
      · exact h'
    obtain ⟨k, hk⟩ := hquiet
    have himported := (hround.ranks _ hr).swept (List.mem_of_getElem? (hk _ hr))
    by_contra hopen
    have hheld := (h.mappings.mem_holds _ hr m).mpr ⟨hm, rfl, hopen⟩
    simp [Endpoint.held, hidle _ hr, himported] at hheld
  · have hr := h.buffers.owner_lt a ha
    by_contra hopen
    have howns := (h.buffers.mem_holds _ hr a).mpr ⟨ha, rfl, hopen⟩
    simp [Endpoint.owns, hidle _ hr, (hdone _ hr).2] at howns

end

end Session

/-- A call of the constructor or of `close`. -/
def SessionEvent.isCall : SessionEvent → Bool
  | .construct _ | .close _ => true
  | _ => false

namespace Session

section
variable {world : Nat} {s : Session}

theorem local_progress {r : Nat} (hr : r < world) (hsmooth : (s.ranks r).Smooth) (hcloses : 0 < (s.ranks r).closes)
    (hidle : (s.ranks r).pc ≠ .idle) (hwait : (s.ranks r).pc.waiting = false) :
    ∃ ev s', ev.succeeds = true ∧ ev.isCall = false ∧ s.step world ev = some s' := by
  have hp := hsmooth.pc
  cases hpc : (s.ranks r).pc with
  | fresh =>
    rw [hpc] at hp
    dsimp only at hp
    omega
  | allocate b => exact ⟨.allocate r none, _, rfl, rfl, (if_pos hr).trans (by simp only [perform, allocate, hpc]; rfl)⟩
  | exchange stage payload sent =>
    rw [hpc] at hwait
    obtain rfl : sent = false := hwait
    exact ⟨.send r, _, rfl, rfl, (if_pos hr).trans (by simp only [perform, send, hpc]; rfl)⟩
  | openHandles b todo =>
    rw [hpc] at hp
    cases todo with
    | nil => exact absurd rfl hp
    | cons hd todo =>
      exact ⟨.openHandle r none, _, rfl, rfl, (if_pos hr).trans (by simp only [perform, openHandle, hpc]; rfl)⟩
  | initBuffers =>
    exact ⟨.initBuffers r none, _, rfl, rfl, (if_pos hr).trans (by simp only [perform, initBuffers, hpc]; rfl)⟩
  | idle => exact absurd hpc hidle
  | synchronize =>
    exact ⟨.synchronize r none, _, rfl, rfl, (if_pos hr).trans (by simp only [perform, synchronize, hpc]; rfl)⟩
  | closeMappings todo remaining error =>
    rw [hpc] at hp
    cases todo with
    | nil => exact absurd rfl hp.1
    | cons m todo =>
      exact ⟨.closeMapping r none, _, rfl, rfl, (if_pos hr).trans (by simp only [perform, closeMapping, hpc]; rfl)⟩
  | freeOwned todo remaining error =>
    rw [hpc] at hp
    cases todo with
    | nil => exact absurd rfl hp.1
    | cons b todo =>
      exact ⟨.freeBuffer r none, _, rfl, rfl, (if_pos hr).trans (by simp only [perform, freeBuffer, hpc]; rfl)⟩
  | raised =>
    rw [hpc] at hp
    exact hp.elim

theorem progress (hround : RoundInv world s) (hsmooth : ∀ r < world, (s.ranks r).Smooth)
    (hcloses : ∀ r < world, 0 < (s.ranks r).closes) : ∀ {r : Nat}, r < world → (s.ranks r).pc ≠ .idle →
      ∃ ev s', ev.succeeds = true ∧ ev.isCall = false ∧ s.step world ev = some s' := by
  intro r
  induction hn : (s.ranks r).received using Nat.strong_induction_on generalizing r with
  | _ n ih =>
    intro hr hidle
    cases hwait : (s.ranks r).pc.waiting with
    | false => exact local_progress hr (hsmooth r hr) (hcloses r hr) hidle hwait
    | true =>
      obtain ⟨stage, payload, hpc⟩ : ∃ stage payload, (s.ranks r).pc = .exchange stage payload true := by
        cases hpc : (s.ranks r).pc with
        | exchange stage payload sent =>
          rw [hpc] at hwait
          obtain rfl : sent = true := hwait
          exact ⟨stage, payload, rfl⟩
        | _ =>
          rw [hpc] at hwait
          cases hwait
      by_cases hall : ∀ r' < world, (s.ranks r).received < (s.ranks r').sent.length
      · have hreceive : ∃ s', s.receive world r = some s' := by
          simp only [receive, hpc]
          exact ⟨_, if_pos hall⟩
        obtain ⟨s', hs'⟩ := hreceive
        exact ⟨.receive r, s', rfl, rfl, (if_pos hr).trans hs'⟩
      · obtain ⟨r', hr', hle⟩ : ∃ r' < world, (s.ranks r').sent.length ≤ (s.ranks r).received := by
          by_contra hno
          exact hall fun r' hr' => Nat.lt_of_not_le fun hle => hno ⟨r', hr', hle⟩
        have hinv' := hround.ranks r' hr'
        have hlen := hinv'.sent_eq (hsmooth r' hr').ok
        have hge := hround.rounds r hr r' hr'
        by_cases hidle' : (s.ranks r').pc = .idle
        · -- an idle rank has ended the last exchange, so there is none to wait for
          have hp := (hsmooth r' hr').pc
          rw [hidle'] at hp hlen
          have hplan' := hround.plan r' hr' (hsmooth r' hr').ok
          have hplan := hround.plan r hr (hsmooth r hr).ok
          simp only [Endpoint.plan, hidle', (hp (hcloses r' hr')).1, Bool.false_eq_true, if_false] at hplan'
          simp only [Pc.waiting, Bool.toNat_false] at hlen
          rw [show (s.ranks r').received = (s.ranks r).received by omega, ← hplan] at hplan'
          simp [Endpoint.plan, hpc] at hplan'
        · by_cases hlt : (s.ranks r').received < n
          · exact ih _ hlt rfl hr' hidle'
          · refine local_progress hr' (hsmooth r' hr') (hcloses r' hr') hidle' ?_
            cases hw : (s.ranks r').pc.waiting with
            | false => rfl
            | true =>
              simp only [hw, Bool.toNat_true] at hlen
              omega

end

end Session

/-- No buffer is freed while it is mapped, nothing is closed or freed twice, and without failures everything is
released once all ranks have called `close`. -/
theorem teardown_order (world : Nat) (es : List SessionEvent) (s : Session)
    (hrun : runFrom (Session.step world) {} es = some s) :
    (∀ a ∈ s.freed, ∀ m ∈ s.opened, (m.exporter, m.exported) = a → m ∈ s.closed) ∧
    s.closed.Nodup ∧ s.freed.Nodup ∧
    ((∀ ev ∈ es, ev.succeeds = true) → (∀ r < world, 0 < (s.ranks r).closes) →
      ((∀ r < world, (s.ranks r).pc = .idle) → (∀ m ∈ s.opened, m ∈ s.closed) ∧ ∀ a ∈ s.allocated, a ∈ s.freed) ∧
      ((∃ r < world, (s.ranks r).pc ≠ .idle) →
        ∃ ev s', ev.succeeds = true ∧ ev.isCall = false ∧ s.step world ev = some s')) := by
  obtain ⟨hround, hres⟩ : Session.RoundInv world s ∧ Session.ResourceInv world s :=
    run_kept (I := fun s => Session.RoundInv world s ∧ Session.ResourceInv world s)
      (fun s ev s' h hs => ⟨h.1.step hs, h.2.step hs⟩) ⟨Session.roundInv_initial, Session.resourceInv_initial⟩ hrun
  refine ⟨fun a ha m hm _ => Session.no_mapping_after_free hres hround (List.ne_nil_of_mem ha) m hm,
    hres.mappings.released_nodup, hres.buffers.released_nodup, fun hev hcloses => ?_⟩
  have hsmooth : ∀ r < world, (s.ranks r).Smooth := by
    refine (run_invariant (I := fun s => Session.RoundInv world s ∧ ∀ r < world, (s.ranks r).Smooth)
      (P := fun _ ev => ev.succeeds = true) ?_ ⟨Session.roundInv_initial, fun r _ => ?_⟩
      (.of_forall fun ev he _ => hev ev he) hrun).2
    · exact fun s ev s' h hP hs => ⟨h.1.step hs, Session.smooth_step h.2 h.1 hP hs⟩
    · exact ⟨rfl, nofun, nofun, rfl, fun _ => rfl⟩
  refine ⟨fun hidle => Session.all_released hres hround hsmooth hcloses hidle, ?_⟩
  rintro ⟨r, hr, hidle⟩
  exact Session.progress hround hsmooth hcloses hr hidle

def Pc.isIdle : Pc → Bool
  | .idle => true
  | _ => false

theorem Pc.isIdle_iff {pc : Pc} : pc.isIdle = true ↔ pc = .idle := by
  cases pc with
  | _ => simp [Pc.isIdle]

/-- Two ranks construct and close. -/
def twoRankSession : List SessionEvent :=
  let both (f : Nat → SessionEvent) := [f 0, f 1]
  let exchange := both .send ++ both .receive
  let share := both (.allocate · none) ++ exchange ++ both (.openHandle · none) ++ exchange
  both .construct ++ share ++ share ++ both (.initBuffers · none) ++ exchange ++
    both .close ++ both (.synchronize · none) ++ exchange ++
    both (.closeMapping · none) ++ both (.closeMapping · none) ++ exchange ++
    both (.freeBuffer · none) ++ both (.freeBuffer · none)

theorem teardown_order_twoRanks :
    ∃ s, runFrom (Session.step 2) {} twoRankSession = some s ∧ s.opened.length = 4 ∧
      (∀ m ∈ s.opened, m ∈ s.closed) ∧ s.closed.Nodup ∧ s.allocated.length = 4 ∧ (∀ a ∈ s.allocated, a ∈ s.freed) ∧
      s.freed.Nodup := by
  have hmap : (runFrom (Session.step 2) {} twoRankSession).map (fun s => (s.opened.length, s.allocated.length,
      (s.ranks 0).closes, (s.ranks 1).closes, (s.ranks 0).pc.isIdle && (s.ranks 1).pc.isIdle)) =
      some (4, 4, 1, 1, true) := by decide +kernel
  obtain ⟨s, hs, heq⟩ := Option.map_eq_some_iff.mp hmap
  simp only [Prod.mk.injEq, Bool.and_eq_true] at heq
  obtain ⟨hopened, hallocated, hcloses₀, hcloses₁, hidle₀, hidle₁⟩ := heq
  obtain ⟨-, hclosed, hfreed, hsmooth⟩ := teardown_order 2 twoRankSession s hs
  have hcloses : ∀ r < 2, 0 < (s.ranks r).closes := by
    intro r hr
    obtain rfl | rfl : r = 0 ∨ r = 1 := by omega
    · omega
    · omega
  have hidle : ∀ r < 2, (s.ranks r).pc = .idle := by
    intro r hr
    obtain rfl | rfl : r = 0 ∨ r = 1 := by omega
    · exact Pc.isIdle_iff.mp hidle₀
    · exact Pc.isIdle_iff.mp hidle₁
  obtain ⟨hm, ha⟩ := (hsmooth (by decide) hcloses).1 hidle
  exact ⟨s, hs, hopened, hm, hclosed, hallocated, ha, hfreed⟩

end VllmHcu.Ipc
