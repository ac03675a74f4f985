import VllmHcu.Patch.Replacement

/-!
# No canonical module survives

Once the coordinator is installed, a name with an armed replacement is served by
the replacement, so that the canonical module can only come from a load that the
other finders had started before. Installation and registration see the modules
that are bound; they do not see a load that is on its way.
-/

namespace VllmHcu.Patch

namespace ModuleState

variable {m : ModuleState} {resolves : Bool} {outcomes : Nat → CallbackOutcome} {status : PatchStatus}

def armed (m : ModuleState) : Bool := m.replacement.any (·.status = .armed)

/-- The canonical module is neither bound nor on its way. -/
def Clear (m : ModuleState) : Prop := m.bound ≠ some .canonical ∧ m.load = none

@[simp] theorem moduleLoaded_replacement : (m.moduleLoaded outcomes).1.replacement = m.replacement := rfl
@[simp] theorem moduleLoaded_bound : (m.moduleLoaded outcomes).1.bound = m.bound := rfl
@[simp] theorem moduleLoaded_load : (m.moduleLoaded outcomes).1.load = m.load := rfl
@[simp] theorem setStatus_bound : (m.setStatus status).bound = m.bound := rfl
@[simp] theorem setStatus_load : (m.setStatus status).load = m.load := rfl

@[simp] theorem setStatus_isSome : (m.setStatus status).replacement.isSome = m.replacement.isSome := Option.isSome_map

theorem setStatus_not_armed (h : status ≠ .armed) : (m.setStatus status).armed = false := by
  unfold armed setStatus
  cases m.replacement with
  | none => rfl
  | some e => simp [h]

theorem armed_iff : m.armed = true ↔ ∃ e, m.replacement = some e ∧ e.status = .armed := by
  simp [armed, Option.any_eq_true]

theorem armed_congr {m' : ModuleState} (h : m'.replacement = m.replacement) : m'.armed = m.armed := by
  unfold armed
  rw [h]

/-- What the steps do to a name: the replacement is kept or no longer armed, and a name that is clear stays so. -/
structure Kept (m m' : ModuleState) : Prop where
  registered : m'.replacement.isSome = m.replacement.isSome
  clear : m'.armed = true → m.armed = true ∧ (m.Clear → m'.Clear)

theorem Kept.of_eq {m' : ModuleState} (hr : m'.replacement = m.replacement) (hb : m'.bound = m.bound)
    (hl : m'.load = m.load) : Kept m m' := by
  refine ⟨by rw [hr], fun h => ⟨by rwa [armed_congr hr] at h, fun hc => ?_⟩⟩
  unfold Clear
  rw [hb, hl]
  exact hc

theorem Kept.of_unbound {m' : ModuleState} (hr : m'.replacement = m.replacement) (hb : m'.bound = none)
    (hl : m'.load = none) : Kept m m' :=
  ⟨by rw [hr], fun h => ⟨by rwa [armed_congr hr] at h, fun _ => ⟨by rw [hb]; nofun, hl⟩⟩⟩

theorem Kept.of_not_armed {m' : ModuleState} (hr : m'.replacement.isSome = m.replacement.isSome)
    (h : m'.armed = false) : Kept m m' :=
  ⟨hr, fun h' => by rw [h] at h'; cases h'⟩

theorem moduleLoaded_kept : Kept m (m.moduleLoaded outcomes).1 := .of_eq rfl rfl rfl

theorem moduleLoadFailed_kept : Kept m m.moduleLoadFailed := .of_eq rfl rfl rfl

theorem applyCallback_kept {i : Nat} {outcome : CallbackOutcome} : Kept m (m.applyCallback i outcome).1 :=
  .of_eq rfl rfl rfl

theorem replaceLoadedModule_spec :
    Kept m (m.replaceLoadedModule resolves outcomes).1 ∧ (m.replaceLoadedModule resolves outcomes).1.armed = false := by
  cases hr : m.replacement with
  | none =>
    have heq : m.replaceLoadedModule resolves outcomes = (m, false) := by simp only [replaceLoadedModule, hr]
    have hna : m.armed = false := by simp only [armed, hr, Option.any_none]
    rw [heq]
    exact ⟨.of_eq rfl rfl rfl, hna⟩
  | some e =>
    cases hs : e.status with
    | armed =>
      simp only [replaceLoadedModule, hr, hs]
      split
      · have hna : (m.setStatus .applied).armed = false := setStatus_not_armed nofun
        exact ⟨.of_not_armed setStatus_isSome hna, hna⟩
      · have hna : (m.setStatus .failed).armed = false := setStatus_not_armed nofun
        exact ⟨.of_not_armed setStatus_isSome hna, hna⟩
    | applied | skipped | failed | applying =>
      have hna : m.armed = false := by simp [armed, hr, hs]
      simp only [replaceLoadedModule, hr, hs]
      exact ⟨.of_eq rfl rfl rfl, hna⟩

theorem installModule_spec (m : ModuleState) (resolves : Bool) (outcomes : Nat → CallbackOutcome) :
    Kept m (m.installModule resolves outcomes).1 ∧
    ((m.installModule resolves outcomes).2 = false → m.load = none → (m.installModule resolves outcomes).1.armed = true →
      (m.installModule resolves outcomes).1.Clear) := by
  unfold installModule
  split
  case isTrue hload =>
    split
    case h_1 e he =>
      split
      · refine ⟨?_, nofun⟩
        split
        · exact .of_not_armed setStatus_isSome (setStatus_not_armed nofun)
        · exact .of_eq rfl rfl rfl
      · refine ⟨replaceLoadedModule_spec.1, fun _ _ h => ?_⟩
        rw [replaceLoadedModule_spec.2] at h
        cases h
    case h_2 he =>
      refine ⟨moduleLoaded_kept, fun _ _ h => ?_⟩
      obtain ⟨e, hr, hs⟩ := armed_iff.mp h
      rw [moduleLoaded_replacement] at hr
      simp [activeReplacement, hr, hs] at he
  case isFalse hload =>
    refine ⟨.of_eq rfl rfl rfl, fun _ hl _ => ⟨fun hb => hload ?_, hl⟩⟩
    have hb' : m.bound = some .canonical := hb
    simp [loaded, initializing, hb', hl]

theorem importReplacement_kept : Kept m (m.importReplacement resolves outcomes) := by
  unfold importReplacement
  split
  · exact .of_not_armed setStatus_isSome (setStatus_not_armed nofun)
  · exact .of_not_armed setStatus_isSome (setStatus_not_armed nofun)

theorem endLoad_kept {returns : Bool} (h : m.load ≠ none) : Kept m (m.endLoad returns outcomes) := by
  -- a name with a load is not clear
  have hclear : ∀ m' : ModuleState, m'.replacement = m.replacement → Kept m m' :=
    fun m' hr => ⟨by rw [hr], fun ha => ⟨by rwa [armed_congr hr] at ha, fun hc => absurd hc.2 h⟩⟩
  apply hclear
  simp only [endLoad]
  split
  · split
    · split <;> rfl
    · rfl
  · split <;> rfl

theorem findSpec_of_armed {reload : Bool} (h : m.armed = true) :
    m.findSpec reload = .blocked ∨ m.findSpec reload = .replacement := by
  obtain ⟨e, hr, hs⟩ := armed_iff.mp h
  have hactive : m.activeReplacement.isSome = true := by simp [activeReplacement, hr, hs]
  simp only [findSpec, hactive, if_true]
  split
  · exact .inl rfl
  split
  · exact .inl rfl
  split
  · exact .inl rfl
  · exact .inr rfl

/-- On a reload an applied replacement is blocked, so that the one that is found is armed. -/
theorem armed_of_findSpec (h : m.findSpec true = .replacement) : m.armed = true := by
  unfold findSpec at h
  split at h
  · cases h
  case isFalse happlied =>
  split at h
  · cases h
  split at h
  · cases h
  split at h
  case isTrue hactive =>
    obtain ⟨e, he⟩ := Option.isSome_iff_exists.mp hactive
    obtain ⟨hr, hs⟩ := Option.filter_eq_some_iff.mp he
    refine armed_iff.mpr ⟨e, hr, ?_⟩
    have hna : e.status ≠ .applied := fun hs' => happlied (by simp [statuses, hr, hs'])
    simpa [hna] using hs
  · split at h <;> cases h

theorem Kept.refl : Kept m m := .of_eq rfl rfl rfl

theorem Kept.trans {m₁ m₂ : ModuleState} (h₁ : Kept m m₁) (h₂ : Kept m₁ m₂) : Kept m m₂ := by
  refine ⟨h₂.registered.trans h₁.registered, fun ha => ?_⟩
  obtain ⟨ha₁, hc₂⟩ := h₂.clear ha
  obtain ⟨ha₀, hc₁⟩ := h₁.clear ha₁
  exact ⟨ha₀, fun hc => hc₂ (hc₁ hc)⟩

end ModuleState

namespace ImportProcess

open ModuleState

variable {s s' : ImportProcess} {name : String} {m : ModuleState} {p : String → Payloads}

structure Inv (s : ImportProcess) : Prop where
  named : ∀ name, (s.modules name).replacement.isSome = true → name ∈ s.byModule
  clear : s.installed = true → s.installRaised = false → ∀ name, (s.modules name).armed = true → (s.modules name).Clear
  guarded : s.installRaised = false → s.guardOnCanonical = false

@[simp] theorem setModule_self : (s.setModule name m).modules name = m := Function.update_self ..

theorem setModule_of_ne {name' : String} (h : name' ≠ name) : (s.setModule name m).modules name' = s.modules name' :=
  Function.update_of_ne h ..

theorem Inv.setModule (h : Inv s) (hr : m.replacement.isSome = true → name ∈ s.byModule)
    (hc : s.installed = true → s.installRaised = false → m.armed = true → m.Clear) : Inv (s.setModule name m) := by
  refine ⟨fun name' hi => ?_, fun hinst hok name' ha => ?_, h.guarded⟩
  · by_cases hn : name' = name
    · subst hn
      rw [setModule_self] at hi
      exact hr hi
    · rw [setModule_of_ne hn] at hi
      exact h.named name' hi
  · by_cases hn : name' = name
    · subst hn
      rw [setModule_self] at ha ⊢
      exact hc hinst hok ha
    · rw [setModule_of_ne hn] at ha ⊢
      exact h.clear hinst hok name' ha

theorem Inv.setKept (h : Inv s) (hk : Kept (s.modules name) m) : Inv (s.setModule name m) := by
  refine h.setModule (fun hi => h.named name (by rwa [hk.registered] at hi)) fun hinst hok ha => ?_
  obtain ⟨ha₀, hc⟩ := hk.clear ha
  exact hc (h.clear hinst hok name ha₀)

/-! ## Loops -/

theorem setModule_kept (hk : Kept (s.modules name) m) (name' : String) :
    Kept (s.modules name') ((s.setModule name m).modules name') := by
  by_cases hn : name' = name
  · subst hn
    rwa [setModule_self]
  · rw [setModule_of_ne hn]
    exact .refl

theorem drainLoop_inv : ∀ {entries : List (String × Nat)} {s : ImportProcess}, Inv s → Inv (drainLoop p s entries)
  | [], _, h => h
  | (name, i) :: entries, s, h => by
    simp only [drainLoop]
    split
    · exact h
    split
    · split
      · exact h.setKept applyCallback_kept
      · exact drainLoop_inv (h.setKept applyCallback_kept)
    · exact drainLoop_inv h

structure Installed (s s' : ImportProcess) (names : List String) : Prop where
  kept : ∀ name, Kept (s.modules name) (s'.modules name)
  byModule : s'.byModule = s.byModule
  guardOnCanonical : s'.guardOnCanonical = s.guardOnCanonical
  done : s'.installRaised = false → s.installRaised = false ∧
    ∀ name ∈ names, (s.modules name).load = none → (s'.modules name).armed = true → (s'.modules name).Clear

theorem installLoop_spec (p : String → Payloads) :
    ∀ (names : List String) (s : ImportProcess), Installed s (installLoop p s names) names
  | [], s => ⟨fun _ => .refl, rfl, rfl, fun h => ⟨h, nofun⟩⟩
  | name :: names, s => by
    obtain ⟨hk, hclear⟩ := installModule_spec (s.modules name) (p name).resolves (p name).outcomes
    simp only [installLoop]
    split
    · exact ⟨setModule_kept hk, rfl, rfl, nofun⟩
    case isFalse hok =>
      have ih := installLoop_spec p names
        (s.setModule name ((s.modules name).installModule (p name).resolves (p name).outcomes).1)
      refine ⟨fun name' => (setModule_kept hk name').trans (ih.kept name'), ih.byModule, ih.guardOnCanonical, fun h => ?_⟩
      obtain ⟨h₀, hdone⟩ := ih.done h
      refine ⟨h₀, fun name' hmem hl ha => ?_⟩
      by_cases hn : name' = name
      · -- done here, and kept by the rest of the loop
        subst hn
        obtain ⟨ha₁, hc⟩ := (ih.kept name').clear ha
        rw [setModule_self] at ha₁ hc
        exact hc (hclear (by simpa using hok) hl ha₁)
      · refine hdone name' ((List.mem_cons.mp hmem).resolve_left hn) ?_ ha
        rwa [setModule_of_ne hn]

/-! ## Steps -/

/-- No load of a name with an armed replacement is on its way where `install` inserts the finder, and no load of the
name where its replacement is registered. -/
def ready (s : ImportProcess) : ImportEvent → Bool
  | .install _ => s.installed || s.byModule.all fun name => !(s.modules name).armed || (s.modules name).load = none
  | .registerReplacement name _ _ _ => !s.installed || (s.modules name).bound.isSome || (s.modules name).load = none
  | _ => true

theorem Inv.install (h : Inv s) (hready : s.ready (.install p) = true) :
    Inv (if s.installed then s else installLoop p { s with installed := true } s.byModule) := by
  split
  · exact h
  case isFalse hinst =>
    have hloop := installLoop_spec p s.byModule { s with installed := true }
    refine ⟨fun name hi => ?_, fun _ hok name ha => ?_, fun hok => ?_⟩
    · rw [hloop.byModule]
      rw [(hloop.kept name).registered] at hi
      exact h.named name hi
    · obtain ⟨ha₀, -⟩ := (hloop.kept name).clear ha
      have hmem : name ∈ s.byModule := by
        obtain ⟨e, hr, -⟩ := armed_iff.mp ha₀
        exact h.named name (by rw [show (s.modules name).replacement = some e from hr]; rfl)
      have hl : (s.modules name).load = none := by
        have hall := (Bool.or_eq_true _ _).mp hready |>.resolve_left hinst
        have := List.all_eq_true.mp hall name hmem
        rw [show (s.modules name).armed = true from ha₀] at this
        simpa using this
      exact (hloop.done hok).2 name hmem hl ha
    · rw [hloop.guardOnCanonical]
      exact h.guarded (hloop.done hok).1

theorem Inv.addName (h : Inv s) (name : String) : Inv (s.addName name) ∧ name ∈ (s.addName name).byModule := by
  have hsub : ∀ name' ∈ s.byModule, name' ∈ (s.addName name).byModule := by
    intro name' hmem
    simp only [ImportProcess.addName]
    split
    · exact hmem
    · exact List.mem_append_left _ hmem
  refine ⟨⟨fun name' hi => hsub name' (h.named name' hi), h.clear, h.guarded⟩, ?_⟩
  simp only [ImportProcess.addName]
  split
  · assumption
  · exact List.mem_append_right _ (List.mem_singleton_self name)

theorem Inv.registerReplacement (h : Inv s) {payload : Nat} {latePolicy : LatePolicy} {p : Payloads}
    (hready : s.ready (.registerReplacement name payload latePolicy p) = true) :
    Inv (s.registerReplacement name payload latePolicy p) := by
  simp only [ImportProcess.registerReplacement]
  split
  · exact h
  obtain ⟨h', hmem⟩ := h.addName name
  split
  · cases latePolicy with
    | fail =>
      refine h'.setModule (fun _ => hmem) fun _ _ ha => ?_
      cases ha
    | replace =>
      refine h'.setModule (fun _ => hmem) fun _ _ ha => ?_
      rw [replaceLoadedModule_spec.2] at ha
      cases ha
  case isFalse hb =>
    refine h'.setModule (fun _ => hmem) fun hinst _ _ => ?_
    have hb' : (s.modules name).bound = none := by simpa using hb
    have hl : (s.modules name).load = none := by
      simpa [ready, show s.installed = true from hinst, hb'] using hready
    exact ⟨by simp [hb'], hl⟩

theorem Inv.registerCallback (h : Inv s) {index : Nat} {p : Payloads} : Inv (s.registerCallback name index p) := by
  simp only [ImportProcess.registerCallback]
  split
  · split
    · exact h.setKept applyCallback_kept
    · exact h
  · obtain ⟨h', -⟩ := h.addName name
    have h'' : Inv { s.addName name with callbacks := s.callbacks ++ [(name, (s.modules name).callbacks.length)] } :=
      ⟨h'.named, h'.clear, h'.guarded⟩
    split
    · exact h''.setKept (.of_eq rfl rfl rfl)
    · exact h''.setKept (.of_eq rfl rfl rfl)

theorem Inv.reload (h : Inv s) {object : ModuleObject} {returns : Bool} {p : Payloads}
    (hb : (s.modules name).bound = some object) : Inv (s.reload name object returns p) := by
  unfold ImportProcess.reload
  split
  · exact h
  case h_2 hspec =>
    have hk : Inv (s.setModule name ((s.modules name).moduleLoaded p.outcomes).1) := h.setKept moduleLoaded_kept
    refine ⟨hk.named, hk.clear, fun hok => ?_⟩
    -- the finder answers, so the name is clear
    have hinst : s.installed = true := by
      by_contra hno
      simp [ImportProcess.findSpec, hno] at hspec
    simp only [ImportProcess.findSpec, hinst, if_true] at hspec
    have hc := h.clear hinst hok name (armed_of_findSpec hspec)
    have hobj : object ≠ .canonical := fun ho => hc.1 (by rw [hb, ho])
    simp [h.guarded hok, hobj]
  · split
    · exact h.setKept moduleLoaded_kept
    · exact h.setKept moduleLoadFailed_kept
  · exact h

/-- A spec of another finder is given only for a name without an armed replacement. -/
theorem Inv.startLoad (h : Inv s) {postLoad : Bool} (hspec : s.findSpec name false ≠ .blocked)
    (hspec' : s.findSpec name false ≠ .replacement) :
    Inv (s.setModule name { s.modules name with load := some .found, postLoad }) := by
  refine h.setModule (h.named name) fun hinst _ ha => ?_
  have ha₀ : (s.modules name).armed = true := ha
  simp only [ImportProcess.findSpec, hinst, if_true] at hspec hspec'
  exact ((findSpec_of_armed ha₀).elim hspec hspec').elim

theorem Inv.step (h : Inv s) {e : ImportEvent} (hready : s.ready e = true) (hstep : s.step e = some s') : Inv s' := by
  cases e with
  | importModule name p =>
    simp only [ImportProcess.step] at hstep
    split at hstep
    · cases hstep
      exact h
    split at hstep
    · cases hstep
    split at hstep
    case h_1 =>
      cases hstep
      exact h
    case h_2 =>
      cases hstep
      exact h.setKept importReplacement_kept
    case h_3 hspec =>
      cases hstep
      exact h.startLoad (by rw [hspec]; nofun) (by rw [hspec]; nofun)
    case h_4 hspec =>
      cases hstep
      exact h.startLoad (by rw [hspec]; nofun) (by rw [hspec]; nofun)
  | bindModule name created =>
    simp only [ImportProcess.step] at hstep
    split at hstep
    case isTrue hl =>
      cases hstep
      refine h.setModule (fun hi => h.named name (by split at hi <;> exact hi)) fun hinst hok ha => ?_
      have ha₀ : (s.modules name).armed = true := by split at ha <;> exact ha
      have := (h.clear hinst hok name ha₀).2
      rw [hl] at this
      cases this
    · cases hstep
  | loadEnd name returns p =>
    simp only [ImportProcess.step] at hstep
    split at hstep
    case isTrue hl =>
      cases hstep
      exact h.setKept (endLoad_kept (by rw [hl]; nofun))
    · cases hstep
  | registerCallback name index p =>
    cases hstep
    exact h.registerCallback
  | registerReplacement name payload latePolicy p =>
    cases hstep
    exact h.registerReplacement hready
  | install p =>
    cases hstep
    exact h.install hready
  | drainReadyCallbacks p =>
    cases hstep
    exact drainLoop_inv h
  | reload name returns p =>
    simp only [ImportProcess.step] at hstep
    split at hstep
    case h_1 object hb =>
      split at hstep
      · cases hstep
      · cases hstep
        exact h.reload hb
    · cases hstep
      exact h
  | evict name =>
    simp only [ImportProcess.step] at hstep
    split at hstep
    · cases hstep
    case isFalse hl =>
      cases hstep
      exact h.setKept (.of_unbound rfl rfl (by simpa using hl))

end ImportProcess

/-- In a run in which no load is on its way where it would be missed, a name with an armed replacement is not bound to
the canonical module, and no reload has put the guard of a replacement on one. -/
theorem canonical_replaced (events : List ImportEvent) (s : ImportProcess)
    (hrun : runFrom ImportProcess.step {} events = some s)
    (hready : Along ImportProcess.step (fun s e => s.ready e = true) {} events)
    (hinst : s.installed = true) (hok : s.installRaised = false) :
    (∀ name e, (s.modules name).replacement = some e → e.status = .armed → (s.modules name).bound ≠ some .canonical) ∧
    s.guardOnCanonical = false := by
  have hinit : ImportProcess.Inv {} := ⟨nofun, nofun, fun _ => rfl⟩
  have h := run_invariant (fun s e s' hs hr hstep => hs.step hr hstep) hinit hready hrun
  refine ⟨fun name e hr hs => ?_, h.guarded hok⟩
  exact (h.clear hinst hok name (ModuleState.armed_iff.mpr ⟨e, hr, hs⟩)).1

def allReturn : Payloads := ⟨true, fun _ => .returns⟩

/-- A module loads, its replacement takes its place at `install`, and another replacement waits. -/
def replacedLate : List ImportEvent := [
  .registerReplacement "m" 0 .replace allReturn, .registerReplacement "n" 1 .fail allReturn,
  .importModule "m" allReturn, .bindModule "m" true, .loadEnd "m" true allReturn, .install fun _ => allReturn]

theorem canonical_replaced_replacedLate : ∃ s, runFrom ImportProcess.step {} replacedLate = some s ∧
    (s.modules "m").bound = some .replacement ∧ (s.modules "n").replacement = some ⟨1, .fail, .armed⟩ ∧
    (s.modules "n").bound ≠ some .canonical ∧ s.guardOnCanonical = false := by
  have hmap : (runFrom ImportProcess.step {} replacedLate).map
      (fun s => (s.installed, s.installRaised, (s.modules "m").bound, (s.modules "n").replacement)) =
      some (true, false, some .replacement, some ⟨1, .fail, .armed⟩) := by decide +kernel
  obtain ⟨s, hs, hval⟩ := Option.map_eq_some_iff.mp hmap
  simp only [Prod.mk.injEq] at hval
  obtain ⟨hinst, hok, hm, hn⟩ := hval
  obtain ⟨hclear, hguard⟩ := canonical_replaced replacedLate s hs (by decide +kernel) hinst hok
  exact ⟨s, hs, hm, hn, hclear "n" _ hn rfl, hguard⟩

/-- `install` passes over a module that is half initialised: the load ends, the canonical module stays, and a reload puts
the guard on it. -/
theorem canonical_survives : ∃ s, runFrom ImportProcess.step {} [
      .registerReplacement "m" 0 .replace allReturn, .importModule "m" allReturn, .bindModule "m" true,
      .install fun _ => allReturn, .loadEnd "m" true allReturn, .drainReadyCallbacks fun _ => allReturn,
      .reload "m" true allReturn] = some s ∧
    s.installed = true ∧ s.installRaised = false ∧ (s.modules "m").load = none ∧
    (s.modules "m").replacement = some ⟨0, .replace, .armed⟩ ∧ (s.modules "m").bound = some .canonical ∧
    s.guardOnCanonical = true := by
  have hmap : (runFrom ImportProcess.step {} [
      .registerReplacement "m" 0 .replace allReturn, .importModule "m" allReturn, .bindModule "m" true,
      .install fun _ => allReturn, .loadEnd "m" true allReturn, .drainReadyCallbacks fun _ => allReturn,
      .reload "m" true allReturn]).map (fun s => (s.installed, s.installRaised, s.modules "m", s.guardOnCanonical)) =
      some (true, false, ⟨some ⟨0, .replace, .armed⟩, [], some .canonical, none, false⟩, true) := by decide +kernel
  obtain ⟨s, hs, hval⟩ := Option.map_eq_some_iff.mp hmap
  simp only [Prod.mk.injEq] at hval
  obtain ⟨hinst, hok, hm, hguard⟩ := hval
  exact ⟨s, hs, hinst, hok, by rw [hm], by rw [hm], by rw [hm], hguard⟩

end VllmHcu.Patch
