import Mathlib.Tactic.Common
import VllmHcu.Lib.Result
import VllmHcu.Patch.Registry

/-!
# The life of a patch

Every call moves one record along its life and leaves every other key alone,
provided that the calls that write a record, or read it for the caller, are given
the id under which it is stored.
-/

namespace VllmHcu.Patch

/-! ## Ids -/

theorem strip_strip (s : String) : strip (strip s) = strip s := by
  unfold strip
  rw [String.toList_ofList]
  have hdrop : ((s.toList.dropWhile isSpace).rdropWhile isSpace).dropWhile isSpace =
      (s.toList.dropWhile isSpace).rdropWhile isSpace := by
    rw [List.dropWhile_eq_self_iff]
    intro hlen
    -- what remains begins as the list with its front removed
    have hfront := List.rdropWhile_prefix isSpace (s.toList.dropWhile isSpace)
    rw [hfront.getElem hlen]
    exact List.dropWhile_eq_self_iff.mp (List.dropWhile_idempotent isSpace s.toList) _
  rw [hdrop, List.rdropWhile_idempotent]

/-! ## Effects of a call -/

namespace PatchRegistry

def life (reg : PatchRegistry) (key : String) : Option PatchStatus := (reg.records key).map (·.status)

end PatchRegistry

def PatchStatus.final (status : PatchStatus) : Prop := status = .applied ∨ status = .skipped ∨ status = .failed

inductive Moves : Option PatchStatus → Option PatchStatus → Prop
  | stay (life) : Moves life life
  | declare : Moves none (some .armed)
  | begin : Moves (some .armed) (some .applying)
  | finish {status status'} : status = .armed ∨ status = .applying → PatchStatus.final status' → Moves (some status) (some status')

theorem Moves.of_final {status : PatchStatus} {life : Option PatchStatus} (h : Moves (some status) life)
    (hf : status.final) : life = some status := by
  cases h with
  | stay => rfl
  | begin => exact absurd hf (by simp [PatchStatus.final])
  | finish hopen _ =>
    obtain rfl | rfl := hopen
    · exact absurd hf (by simp [PatchStatus.final])
    · exact absurd hf (by simp [PatchStatus.final])

theorem Moves.not_armed {life life' : Option PatchStatus} (h : Moves life life') (hn : life ≠ none) (ha : life ≠ some .armed) :
    life' ≠ none ∧ life' ≠ some .armed := by
  cases h with
  | stay => exact ⟨hn, ha⟩
  | declare => exact absurd rfl hn
  | begin => exact absurd rfl ha
  | finish _ hf =>
    refine ⟨nofun, fun h => ?_⟩
    cases h
    simp [PatchStatus.final] at hf

structure RegistryInv (reg : PatchRegistry) : Prop where
  owned : ∀ key, (reg.owners key).isSome = true ↔ reg.life key = some .applying
  keys : ∀ key r, reg.records key = some r → strip key = key ∧ r.patchId = key

/-- What a call does that addresses one key. -/
structure Effect (reg : PatchRegistry) (key : String) (reg' : PatchRegistry) (out : Outcome) : Prop where
  others : ∀ k, k ≠ key → reg'.records k = reg.records k ∧ reg'.owners k = reg.owners k
  moves : Moves (reg.life key) (reg'.life key)
  answer : ∀ r, out = .record r → r = reg'.records key
  claim : out = .claimed true → reg.life key = some .armed ∧ reg'.life key = some .applying
  inv : RegistryInv reg'

section
variable {reg : PatchRegistry} {key : String}

theorem Effect.refl {out : Outcome} (h : RegistryInv reg) (hout : ∀ r, out = .record r → r = reg.records key)
    (hclaim : out ≠ .claimed true) : Effect reg key reg out where
  others := fun _ _ => ⟨rfl, rfl⟩
  moves := .stay _
  answer := hout
  claim := fun h => absurd h hclaim
  inv := h

theorem Effect.raised (h : RegistryInv reg) (e : RegistryError) : Effect reg key reg (.raised e) :=
  .refl h nofun nofun

theorem Effect.found (h : RegistryInv reg) {r : PatchRecord} (hr : reg.records key = some r) :
    Effect reg key reg (.record (some r)) :=
  .refl h (fun r' heq => by cases heq; exact hr.symm) nofun

theorem Effect.store (h : RegistryInv reg) {r : PatchRecord} {owner : Option Nat} {out : Outcome}
    (hkey : strip key = key) (hid : r.patchId = key) (howner : owner.isSome = true ↔ r.status = .applying)
    (hmoves : Moves (reg.life key) (some r.status)) (hout : ∀ r', out = .record r' → r' = some r)
    (hclaim : out = .claimed true → reg.life key = some .armed ∧ r.status = .applying) :
    Effect reg key ⟨Function.update reg.records key (some r), Function.update reg.owners key owner⟩ out where
  others := fun k hk => ⟨Function.update_of_ne hk _ _, Function.update_of_ne hk _ _⟩
  moves := by simpa [PatchRegistry.life] using hmoves
  answer := fun r' heq => by simpa using hout r' heq
  claim := fun heq => by simpa [PatchRegistry.life] using hclaim heq
  inv := by
    refine ⟨fun k => ?_, fun k r' hr' => ?_⟩
    · by_cases hk : k = key
      · subst hk
        simpa [PatchRegistry.life] using howner
      · simpa [PatchRegistry.life, Function.update_of_ne hk] using h.owned k
    · by_cases hk : k = key
      · subst hk
        simp only [Function.update_self, Option.some.injEq] at hr'
        exact ⟨hkey, hr' ▸ hid⟩
      · simp only [Function.update_of_ne hk] at hr'
        exact h.keys k r' hr'

theorem Effect.finish (h : RegistryInv reg) {r r' : PatchRecord} (hr : reg.records key = some r)
    (hid : r'.patchId = r.patchId) (hopen : r.status = .armed ∨ r.status = .applying) (hf : r'.status.final) :
    Effect reg key (reg.finish key r') (.record (some r')) := by
  obtain ⟨hkey, hrid⟩ := h.keys key r hr
  refine .store h hkey (hid.trans hrid) ⟨nofun, fun ha => ?_⟩ ?_ (fun _ heq => by cases heq; rfl) nofun
  · rw [ha] at hf
    simp [PatchStatus.final] at hf
  · rw [PatchRegistry.life, hr]
    exact .finish hopen hf

theorem Effect.setRecord (h : RegistryInv reg) {r : PatchRecord} (hkey : strip key = key) (hid : r.patchId = key)
    (hna : r.status ≠ .applying) (hnl : reg.life key ≠ some .applying) (hmoves : Moves (reg.life key) (some r.status)) :
    Effect reg key (reg.setRecord key r) (.record (some r)) := by
  have hno : reg.owners key = none := by
    have := (h.owned key).not.mpr hnl
    simpa using this
  have := @Effect.store reg key h r none (.record (some r)) hkey hid ⟨nofun, fun ha => absurd ha hna⟩ hmoves
    (fun _ heq => by cases heq; rfl) nofun
  rwa [← hno, Function.update_eq_self] at this

end

/-! ## The calls -/

namespace PatchRegistry

section
variable {reg : PatchRegistry} {patchId : String}

theorem validatePatchId_eq_ok {key : String} (h : validatePatchId patchId = .ok key) : key = strip patchId := by
  unfold validatePatchId at h
  split at h
  · cases h
  · cases h
    rfl

theorem requireRecord_eq_ok {r : PatchRecord} (h : reg.requireRecord patchId = .ok r) :
    reg.records (strip patchId) = some r := by
  obtain ⟨key, hkey, h⟩ := bind_eq_ok.mp h
  obtain rfl := validatePatchId_eq_ok hkey
  split at h
  · rename_i hr
    cases h
    exact hr
  · cases h

theorem settle_effect (h : RegistryInv reg) {key : String} {x : Except RegistryError (PatchRecord × PatchRegistry)}
    {reg' : PatchRegistry} {out : Outcome} (hp : some (reg.settle x) = some (reg', out))
    (hx : ∀ r reg', x = .ok (r, reg') → Effect reg key reg' (.record (some r))) : Effect reg key reg' out := by
  cases x with
  | error e =>
    cases hp
    exact .raised h e
  | ok p =>
    cases hp
    exact hx p.1 p.2 rfl

theorem declare_effect (h : RegistryInv reg) {targets : List String} {r : PatchRecord} {reg' : PatchRegistry}
    (hd : reg.declare patchId targets = .ok (r, reg')) : Effect reg (strip patchId) reg' (.record (some r)) := by
  obtain ⟨key, hkey, hd⟩ := bind_eq_ok.mp hd
  obtain rfl := validatePatchId_eq_ok hkey
  obtain ⟨targets, -, hd⟩ := bind_eq_ok.mp hd
  split at hd
  · rename_i hr
    split at hd
    · cases hd
      exact .found h hr
    · cases hd
  · rename_i hr
    cases hd
    refine .setRecord h (strip_strip patchId) rfl nofun ?_ ?_
    · simp [life, hr]
    · rw [life, hr]
      exact .declare

theorem begin_effect (h : RegistryInv reg) {thread : Nat} {ok : Bool} {reg' : PatchRegistry}
    (hb : reg.begin thread patchId = .ok (some (ok, reg'))) : Effect reg (strip patchId) reg' (.claimed ok) := by
  obtain ⟨key, hkey, hb⟩ := bind_eq_ok.mp hb
  obtain rfl := validatePatchId_eq_ok hkey
  split at hb
  · cases hb
  · rename_i r hr
    split at hb
    · split at hb
      · cases hb
      · cases hb
    · cases hb
    · cases hb
      exact .refl h nofun nofun
    · cases hb
      exact .refl h nofun nofun
    · rename_i hs
      cases hb
      have hl : reg.life (strip patchId) = some .armed := by simp [life, hr, hs]
      refine .store h (strip_strip patchId) (h.keys _ r hr).2 ⟨fun _ => rfl, fun _ => rfl⟩ ?_ nofun fun _ => ⟨hl, rfl⟩
      rw [hl]
      exact .begin

/-- The calls that store the record under the id they are given, or look it up there, when they do. -/
def touches (reg : PatchRegistry) (patchId : String) : RegistryCall → Bool
  | .declare _ => false
  | .begin => false
  | .markApplied _ => reg.life (strip patchId) = some .applying
  | .markSkipped _ => reg.life (strip patchId) = some .armed || reg.life (strip patchId) = some .applying
  | .markFailed error =>
    (formatFailure error).toOption.isSome &&
      (reg.life (strip patchId) = some .armed || reg.life (strip patchId) = some .applying)
  | .setFeatureEnabled _ =>
    reg.life (strip patchId) = some .armed || reg.life (strip patchId) = some .applied ||
      reg.life (strip patchId) = some .skipped
  | .get => (reg.life (strip patchId)).isSome

/-- Such a call is given the id without spaces around it. -/
def keyed (reg : PatchRegistry) (patchId : String) (c : RegistryCall) : Bool :=
  !reg.touches patchId c || strip patchId = patchId

theorem keyed_of_touches {c : RegistryCall} (hk : reg.keyed patchId c = true) (ht : reg.touches patchId c = true) :
    strip patchId = patchId := by
  simpa [keyed, ht] using hk

theorem markApplied_effect (h : RegistryInv reg) {featureEnabled : Bool}
    (hk : reg.keyed patchId (.markApplied featureEnabled) = true) {r : PatchRecord} {reg' : PatchRegistry}
    (hm : reg.markApplied patchId featureEnabled = .ok (r, reg')) :
    Effect reg (strip patchId) reg' (.record (some r)) ∧ r.status = .applied := by
  obtain ⟨old, hr, hm⟩ := bind_eq_ok.mp hm
  have hr := requireRecord_eq_ok hr
  split at hm
  · rename_i hs
    cases hm
    exact ⟨.found h hr, hs⟩
  · split at hm
    · cases hm
    · rename_i hs
      rw [not_not] at hs
      cases hm
      have hkey := keyed_of_touches hk (by simp [touches, life, hr, hs])
      rw [hkey] at hr ⊢
      exact ⟨.finish h hr rfl (.inr hs) (.inl rfl), rfl⟩

theorem markSkipped_effect (h : RegistryInv reg) {reason : Option String}
    (hk : reg.keyed patchId (.markSkipped reason) = true) {r : PatchRecord} {reg' : PatchRegistry}
    (hm : reg.markSkipped patchId reason = .ok (r, reg')) : Effect reg (strip patchId) reg' (.record (some r)) := by
  obtain ⟨old, hr, hm⟩ := bind_eq_ok.mp hm
  have hr := requireRecord_eq_ok hr
  split at hm
  · cases hm
    exact .found h hr
  · split at hm
    · cases hm
    · rename_i hs
      have hopen : old.status = .armed ∨ old.status = .applying := by tauto
      cases hm
      have hkey := keyed_of_touches hk (by simpa [touches, life, hr] using hopen)
      rw [hkey] at hr ⊢
      exact .finish h hr rfl hopen (.inr (.inl rfl))

theorem markFailed_effect (h : RegistryInv reg) {error : Failure}
    (hk : reg.keyed patchId (.markFailed error) = true) {r : PatchRecord} {reg' : PatchRegistry}
    (hm : reg.markFailed patchId error = .ok (r, reg')) : Effect reg (strip patchId) reg' (.record (some r)) := by
  obtain ⟨reason, hreason, hm⟩ := bind_eq_ok.mp hm
  obtain ⟨old, hr, hm⟩ := bind_eq_ok.mp hm
  have hr := requireRecord_eq_ok hr
  split at hm
  · cases hm
    exact .found h hr
  · rename_i hf
    split at hm
    · cases hm
    · rename_i hs
      have hopen : old.status = .armed ∨ old.status = .applying := by
        rw [not_or] at hs
        cases hst : old.status <;> simp_all
      cases hm
      have hkey := keyed_of_touches hk (by simpa [touches, life, hr, hreason, Except.toOption] using hopen)
      rw [hkey] at hr ⊢
      exact .finish h hr rfl hopen (.inr (.inr rfl))

theorem setFeatureEnabled_effect (h : RegistryInv reg) {enabled : Bool}
    (hk : reg.keyed patchId (.setFeatureEnabled enabled) = true) {r : PatchRecord} {reg' : PatchRegistry}
    (hm : reg.setFeatureEnabled patchId enabled = .ok (r, reg')) : Effect reg (strip patchId) reg' (.record (some r)) := by
  obtain ⟨old, hr, hm⟩ := bind_eq_ok.mp hm
  have hr := requireRecord_eq_ok hr
  split at hm
  · rename_i hs
    cases hm
    have hkey := keyed_of_touches hk (by simpa [touches, life, hr, or_assoc] using hs)
    rw [hkey] at hr ⊢
    obtain ⟨-, hid⟩ := h.keys _ old hr
    have hna : old.status ≠ .applying := by
      intro ha
      rw [ha] at hs
      simp at hs
    refine .setRecord h hkey hid hna ?_ ?_
    · simpa [life, hr] using hna
    · rw [life, hr]
      exact .stay _
  · cases hm

theorem get_effect (h : RegistryInv reg) (hk : reg.keyed patchId .get = true) :
    Effect reg (strip patchId) reg (.record (reg.get patchId)) := by
  refine .refl h (fun r heq => ?_) nofun
  cases heq
  by_cases hs : strip patchId = patchId
  · rw [hs]
    rfl
  · -- nothing is stored under an id with spaces around it
    have hnone : reg.records (strip patchId) = none := by simpa [keyed, touches, life, hs] using hk
    rw [hnone, get]
    cases hr : reg.records patchId with
    | none => rfl
    | some r => exact absurd (h.keys _ r hr).1 hs

theorem perform_effect (h : RegistryInv reg) {thread : Nat} {c : RegistryCall} (hk : reg.keyed patchId c = true)
    {reg' : PatchRegistry} {out : Outcome} (hp : reg.perform thread patchId c = some (reg', out)) :
    Effect reg (strip patchId) reg' out := by
  cases c with
  | declare targets => exact settle_effect h hp fun _ _ => declare_effect h
  | begin =>
    simp only [perform] at hp
    split at hp
    · cases hp
    · rename_i hb
      cases hp
      exact begin_effect h hb
    · cases hp
      exact .raised h _
  | markApplied featureEnabled => exact settle_effect h hp fun _ _ hm => (markApplied_effect h hk hm).1
  | markSkipped reason => exact settle_effect h hp fun _ _ => markSkipped_effect h hk
  | markFailed error => exact settle_effect h hp fun _ _ => markFailed_effect h hk
  | setFeatureEnabled enabled => exact settle_effect h hp fun _ _ => setFeatureEnabled_effect h hk
  | get =>
    cases hp
    exact get_effect h hk

end

end PatchRegistry

theorem Effect.moves_all {reg reg' : PatchRegistry} {key : String} {out : Outcome} (h : Effect reg key reg' out) (k : String) :
    Moves (reg.life k) (reg'.life k) := by
  by_cases hk : k = key
  · rw [hk]
    exact h.moves
  · rw [PatchRegistry.life, PatchRegistry.life, (h.others k hk).1]
    exact .stay _

/-! ## Runs -/

structure PatchSystem.Inv (s : PatchSystem) : Prop where
  reg : RegistryInv s.reg
  once : s.claims.Nodup
  claimed : ∀ key ∈ s.claims, s.reg.life key ≠ none ∧ s.reg.life key ≠ some .armed
  returned : ∀ patchId ∈ s.returned, s.reg.life (strip patchId) = some .applied

namespace PatchSystem

def keyed (s : PatchSystem) : PatchEvent → Bool
  | .call _ patchId c => s.reg.keyed patchId c
  | .runPatch _ _ _ _ => true
  | .runBegin _ => true
  | .callbackReturns thread => (s.runs thread).head?.all fun r => s.reg.keyed r.patchId (.markApplied r.featureEnabled)
  | .callbackRaises thread typeName message =>
    (s.runs thread).head?.all fun r => s.reg.keyed r.patchId (.markFailed (.exception typeName message))

section
variable {s : PatchSystem} {thread : Nat} {patchId : String}

theorem logged_eq (out : Outcome) :
    s.logged patchId out = if out = .claimed true then strip patchId :: s.claims else s.claims := by
  cases out with
  | raised e => rfl
  | record r => rfl
  | claimed ok =>
    cases ok with
    | true => rfl
    | false => rfl

theorem calls_spec (h : s.Inv) {c : RegistryCall} (hk : s.reg.keyed patchId c = true) {p : PatchSystem × Outcome}
    (hc : s.calls thread patchId c = some p) : p.1.Inv ∧ Effect s.reg (strip patchId) p.1.reg p.2 := by
  obtain ⟨⟨reg', out⟩, hp, rfl⟩ := Option.map_eq_some_iff.mp hc
  have heff := PatchRegistry.perform_effect h.reg hk hp
  have hold : ∀ key ∈ s.claims, reg'.life key ≠ none ∧ reg'.life key ≠ some .armed :=
    fun key hm => (heff.moves_all key).not_armed (h.claimed key hm).1 (h.claimed key hm).2
  have hclaims : (s.logged patchId out).Nodup ∧
      ∀ key ∈ s.logged patchId out, reg'.life key ≠ none ∧ reg'.life key ≠ some .armed := by
    rw [logged_eq]
    split
    · rename_i hout
      obtain ⟨harmed, happlying⟩ := heff.claim hout
      refine ⟨List.nodup_cons.mpr ⟨fun hm => (h.claimed _ hm).2 harmed, h.once⟩, fun key hm => ?_⟩
      obtain rfl | hm := List.mem_cons.mp hm
      · rw [happlying]
        exact ⟨nofun, nofun⟩
      · exact hold key hm
    · exact ⟨h.once, hold⟩
  refine ⟨⟨heff.inv, hclaims.1, hclaims.2, ?_⟩, heff⟩
  intro id hm
  have hmove := heff.moves_all (strip id)
  rw [h.returned id hm] at hmove
  exact hmove.of_final (.inl rfl)

theorem applied_of_calls (h : s.Inv) {featureEnabled : Bool}
    (hk : s.reg.keyed patchId (.markApplied featureEnabled) = true) {p : PatchSystem × Outcome}
    (hc : s.calls thread patchId (.markApplied featureEnabled) = some p) (hout : ∀ e, p.2 ≠ .raised e) :
    p.1.reg.life (strip patchId) = some .applied := by
  obtain ⟨⟨reg', out⟩, hp, rfl⟩ := Option.map_eq_some_iff.mp hc
  simp only [PatchRegistry.perform] at hp
  cases hm : s.reg.markApplied patchId featureEnabled with
  | error e =>
    rw [hm] at hp
    cases hp
    exact absurd rfl (hout e)
  | ok q =>
    rw [hm] at hp
    cases hp
    obtain ⟨heff, hs⟩ := PatchRegistry.markApplied_effect h.reg hk hm
    simp only [PatchRegistry.life, ← heff.answer _ rfl]
    rw [Option.map_some, hs]

theorem Inv.setRuns (h : s.Inv) (runs : List RunPatch) : (s.setRuns thread runs).Inv := ⟨h.reg, h.once, h.claimed, h.returned⟩

theorem step_spec (h : s.Inv) {e : PatchEvent} (hk : s.keyed e = true) {s' : PatchSystem} (hs : s.step e = some s') :
    s'.Inv ∧ ∀ key, Moves (s.reg.life key) (s'.reg.life key) := by
  cases e with
  | call thread patchId c =>
    simp only [step] at hs
    split at hs
    · obtain ⟨p, hc, rfl⟩ := Option.map_eq_some_iff.mp hs
      obtain ⟨hinv, heff⟩ := calls_spec h hk hc
      exact ⟨hinv, heff.moves_all⟩
    · cases hs
  | runPatch thread patchId targets featureEnabled =>
    simp only [step] at hs
    split at hs
    · obtain ⟨p, hc, rfl⟩ := Option.map_eq_some_iff.mp hs
      obtain ⟨hinv, heff⟩ := calls_spec h rfl hc
      split
      · exact ⟨hinv, heff.moves_all⟩
      · exact ⟨hinv.setRuns _, heff.moves_all⟩
    · cases hs
  | runBegin thread =>
    simp only [step] at hs
    split at hs
    · obtain ⟨p, hc, rfl⟩ := Option.map_eq_some_iff.mp hs
      obtain ⟨hinv, heff⟩ := calls_spec h rfl hc
      split
      · exact ⟨hinv.setRuns _, heff.moves_all⟩
      · exact ⟨hinv.setRuns _, heff.moves_all⟩
    · cases hs
  | callbackReturns thread =>
    simp only [step] at hs
    split at hs
    · rename_i patchId featureEnabled rest hruns
      obtain ⟨p, hc, rfl⟩ := Option.map_eq_some_iff.mp hs
      have hk : s.reg.keyed patchId (.markApplied featureEnabled) = true := by simpa [keyed, hruns] using hk
      obtain ⟨hinv, heff⟩ := calls_spec h hk hc
      split
      · exact ⟨hinv.setRuns _, heff.moves_all⟩
      · rename_i hout
        refine ⟨⟨hinv.reg, hinv.once, hinv.claimed, fun id hm => ?_⟩, heff.moves_all⟩
        obtain rfl | hm := List.mem_cons.mp hm
        · exact applied_of_calls h hk hc hout
        · exact hinv.returned id hm
    · cases hs
  | callbackRaises thread typeName message =>
    simp only [step] at hs
    split at hs
    · rename_i patchId featureEnabled rest hruns
      obtain ⟨p, hc, rfl⟩ := Option.map_eq_some_iff.mp hs
      have hk : s.reg.keyed patchId (.markFailed (.exception typeName message)) = true := by simpa [keyed, hruns] using hk
      obtain ⟨hinv, heff⟩ := calls_spec h hk hc
      exact ⟨hinv.setRuns _, heff.moves_all⟩
    · cases hs

theorem run_moves (h : s.Inv) {events : List PatchEvent} {s' : PatchSystem}
    (hkeyed : Along step (fun s e => s.keyed e = true) s events) (hrun : runFrom step s events = some s') {key : String}
    {status : PatchStatus} (hf : status.final) (hl : s.reg.life key = some status) : s'.reg.life key = some status := by
  have := run_invariant (I := fun s => s.Inv ∧ s.reg.life key = some status)
    (fun s e s' hs hk hstep => by
      obtain ⟨hinv, hmoves⟩ := step_spec hs.1 hk hstep
      have hmove := hmoves key
      rw [hs.2] at hmove
      exact ⟨hinv, hmove.of_final hf⟩) ⟨h, hl⟩ hkeyed hrun
  exact this.2

end

end PatchSystem

/-- In a run whose calls address the patches by their stored ids. -/
theorem lifecycle (events : List PatchEvent) (s : PatchSystem) (hrun : runFrom PatchSystem.step {} events = some s)
    (hkeyed : Along PatchSystem.step (fun s e => s.keyed e = true) {} events) :
    -- a call addresses the record of the normalised id, and no other
    (∀ thread patchId c reg' out, s.reg.keyed patchId c = true → s.reg.perform thread patchId c = some (reg', out) →
      (∀ key, key ≠ strip patchId → reg'.records key = s.reg.records key ∧ reg'.owners key = s.reg.owners key) ∧
      ∀ r, out = .record r → r = reg'.records (strip patchId)) ∧
    -- a patch is claimed once
    s.claims.Nodup ∧
    -- a finished patch stays as it is
    (∀ later s', runFrom PatchSystem.step s later = some s' →
      Along PatchSystem.step (fun s e => s.keyed e = true) s later →
      ∀ key status, status.final → s.reg.life key = some status → s'.reg.life key = some status) ∧
    (∀ key, (s.reg.owners key).isSome = true ↔ s.reg.life key = some .applying) ∧
    -- `run_patch` that has run its callback and returned
    ∀ patchId ∈ s.returned, s.reg.life (strip patchId) = some .applied ∧ s.reg.owners (strip patchId) = none := by
  have hinit : PatchSystem.Inv {} :=
    ⟨⟨fun _ => ⟨nofun, nofun⟩, nofun⟩, List.nodup_nil, nofun, nofun⟩
  have h := run_invariant (fun s e s' hs hk hstep => (PatchSystem.step_spec hs hk hstep).1) hinit hkeyed hrun
  refine ⟨fun thread patchId c reg' out hk hp => ?_, h.once, fun later s' hlater hk key status hf hl => ?_, h.reg.owned,
    fun patchId hm => ?_⟩
  · have heff := PatchRegistry.perform_effect h.reg hk hp
    exact ⟨heff.others, heff.answer⟩
  · exact PatchSystem.run_moves h hk hlater hf hl
  · have hl := h.returned patchId hm
    refine ⟨hl, ?_⟩
    have hno := (h.reg.owned (strip patchId)).not.mpr (by rw [hl]; nofun)
    simpa using hno

/-- One thread runs a patch. -/
def oneRun (patchId : String) : List PatchEvent :=
  [.runPatch 0 patchId ["m.f"] true, .runBegin 0, .callbackReturns 0]

theorem lifecycle_oneRun : ∃ s, runFrom PatchSystem.step {} (oneRun "a") = some s ∧ s.returned = ["a"] ∧
    s.reg.life "a" = some .applied ∧ s.reg.owners "a" = none := by
  have hmap : (runFrom PatchSystem.step {} (oneRun "a")).map (·.returned) = some ["a"] := by decide +kernel
  obtain ⟨s, hs, hret⟩ := Option.map_eq_some_iff.mp hmap
  obtain ⟨-, -, -, -, hdone⟩ := lifecycle (oneRun "a") s hs (by decide +kernel)
  have hstrip : strip "a" = "a" := by decide +kernel
  refine ⟨s, hs, hret, ?_⟩
  have := hdone "a" (by rw [hret]; exact List.mem_singleton_self _)
  rwa [hstrip] at this

/-- An id with a space: the patch is applied and returns, and its record stays claimed. -/
theorem spaced_stays_applying : ∃ s, runFrom PatchSystem.step {} (oneRun " a") = some s ∧ s.returned = [" a"] ∧
    strip " a" = "a" ∧ s.reg.life "a" = some .applying ∧ s.reg.owners "a" = some 0 ∧ s.reg.life " a" = some .applied := by
  have hmap : (runFrom PatchSystem.step {} (oneRun " a")).map
      (fun s => (s.returned, s.reg.life "a", s.reg.owners "a", s.reg.life " a")) =
      some ([" a"], some .applying, some 0, some .applied) := by decide +kernel
  obtain ⟨s, hs, hval⟩ := Option.map_eq_some_iff.mp hmap
  simp only [Prod.mk.injEq] at hval
  exact ⟨s, hs, hval.1, by decide +kernel, hval.2.1, hval.2.2.1, hval.2.2.2⟩

end VllmHcu.Patch
