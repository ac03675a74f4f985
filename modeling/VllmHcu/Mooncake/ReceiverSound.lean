import Mathlib.Data.List.Count
import Mathlib.Data.List.Nodup
import Mathlib.Tactic.Common
import VllmHcu.Mooncake.Receiver

/-!
# When a request has been received

A call counts a request down once per exchange, so its counter is the number of
workers that have not been counted. A worker that reports the request, or fails
before it acknowledged it, is never counted, and the request stays out.
-/

namespace VllmHcu.Mooncake

section
variable {ReqId : Type} [DecidableEq ReqId]

/-! ## The loop over a response -/

theorem mem_fromKeys {r : ReqId} : ∀ {l : List ReqId}, r ∈ fromKeys l ↔ r ∈ l
  | [] => by simp [fromKeys]
  | a :: l => by
    simp only [fromKeys, List.mem_cons, List.mem_filter, mem_fromKeys (l := l), decide_eq_true_eq]
    tauto

theorem fromKeys_nodup : ∀ l : List ReqId, (fromKeys l).Nodup
  | [] => List.nodup_nil
  | a :: l => by
    rw [fromKeys, List.nodup_cons]
    exact ⟨by simp, (fromKeys_nodup l).filter _⟩

theorem mem_foldl_insert {r : ReqId} : ∀ {new l : List ReqId},
    r ∈ new.foldl (fun l r => l.insert r) l ↔ r ∈ l ∨ r ∈ new
  | [], l => by simp
  | a :: new, l => by
    rw [List.foldl_cons, mem_foldl_insert (l := l.insert a), List.mem_insert_iff, List.mem_cons]
    tauto

theorem countDown_spec {reqIds : List ReqId} : ∀ {l : List ReqId} {counts counts' : ReqId → Int}
    {counted finished : List ReqId} {missing : Option ReqId}, l.Nodup →
    countDown reqIds l counts = (counts', counted, finished, missing) →
    counted.Sublist l ∧ (∀ r, counts' r = if r ∈ counted then counts r - 1 else counts r) ∧
      finished = counted.filter (fun r => counts r = 1) ∧ (missing = none → counted = l)
  | [], counts, counts', counted, finished, missing, _, h => by
    cases h
    exact ⟨.slnil, fun r => by simp, rfl, fun _ => rfl⟩
  | a :: l, counts, counts', counted, finished, missing, hn, h => by
    rw [List.nodup_cons] at hn
    unfold countDown at h
    split at h
    · rcases hc : countDown reqIds l (Function.update counts a (counts a - 1)) with
        ⟨counts₁, counted₁, finished₁, missing₁⟩
      obtain ⟨hsub, hcounts, hfin, hall⟩ := countDown_spec hn.2 hc
      have ha : a ∉ counted₁ := fun hm => hn.1 (hsub.subset hm)
      simp only [hc] at h
      cases h
      refine ⟨hsub.cons_cons a, fun r => ?_, ?_, fun hm => by rw [hall hm]⟩
      · rw [hcounts r]
        by_cases hr : r = a
        · subst hr
          simp [ha]
        · simp [hr]
      · have hrest : counted₁.filter (fun r => Function.update counts a (counts a - 1) r = 1) =
            counted₁.filter fun r => counts r = 1 := by
          refine List.filter_congr fun r hr => ?_
          have hne : r ≠ a := fun he => ha (he ▸ hr)
          rw [Function.update_of_ne hne]
        rw [hfin, hrest]
        by_cases hone : counts a = 1
        · simp [hone]
        · have hne : ¬ counts a - 1 = 0 := by omega
          simp [hone, hne]
    · cases h
      exact ⟨List.nil_sublist _, fun r => by simp, rfl, nofun⟩

/-! ## One call -/

/-- How many workers of the call have been counted for `r`. -/
def Receive.acked (rv : Receive ReqId) (r : ReqId) : Nat := rv.exchanges.countP fun e => r ∈ e.counted

structure ExchangeInv (e : Exchange ReqId) : Prop where
  counted_nodup : e.counted.Nodup
  counted_ok : ∀ r ∈ e.counted, r ∈ e.okReqs
  disjoint : ∀ r ∈ e.errReqs, r ∉ e.okReqs
  failed_ended : e.failed = true → e.ended = true

/-- The accounting of one call: `entered` counts the additions of its requests and `latched` tells whether an error
has been latched. -/
structure ReceiveInv (rv : Receive ReqId) (entered : ReqId → Nat) (latched : Bool) : Prop where
  reqs : rv.reqIds ≠ []
  exchanges : ∀ e ∈ rv.exchanges, ExchangeInv e
  counts : ∀ r, rv.pullTasksCount r = (rv.exchanges.length : Int) - rv.acked r
  entered : ∀ r, entered r = if 0 < rv.exchanges.length ∧ rv.acked r = rv.exchanges.length then 1 else 0
  reported : ∀ e ∈ rv.exchanges, e.errReqs ≠ [] ∨ e.failed = true → latched = true
  clean : latched = false → ∀ e ∈ rv.exchanges, ∀ r ∈ e.okReqs, r ∈ e.counted

theorem acked_le (rv : Receive ReqId) (r : ReqId) : rv.acked r ≤ rv.exchanges.length := List.countP_le_length

theorem acked_eq_length {rv : Receive ReqId} {r : ReqId} :
    rv.acked r = rv.exchanges.length ↔ ∀ e ∈ rv.exchanges, r ∈ e.counted := by
  unfold Receive.acked
  rw [List.countP_eq_length]
  simp

theorem ReceiveInv.update {rv : Receive ReqId} {entered entered' : ReqId → Nat} {latched latched' : Bool} {w : Nat}
    {e e' : Exchange ReqId} {pre : List ReqId} {counts : ReqId → Int} (h : ReceiveInv rv entered latched)
    (hw : rv.exchanges[w]? = some e) (hpre : pre.Nodup) (hnew : ∀ r ∈ pre, r ∉ e.counted)
    (hcounted : e'.counted = e.counted ++ pre) (hok : ∀ r ∈ pre, r ∈ e'.okReqs) (hsub : e.okReqs ⊆ e'.okReqs)
    (hdisj : ∀ r ∈ e'.errReqs, r ∉ e'.okReqs) (hended : e'.failed = true → e'.ended = true)
    (hcounts : ∀ r, counts r = if r ∈ pre then rv.pullTasksCount r - 1 else rv.pullTasksCount r)
    (hentered : ∀ r, entered' r = entered r + if r ∈ pre ∧ rv.pullTasksCount r = 1 then 1 else 0)
    (hlatched : latched = true → latched' = true) (hrep : e'.errReqs ≠ [] ∨ e'.failed = true → latched' = true)
    (hclean : latched' = false → ∀ r ∈ e'.okReqs, r ∈ e.okReqs ∨ r ∈ pre) :
    ReceiveInv { rv with pullTasksCount := counts, exchanges := rv.exchanges.set w e' } entered' latched' := by
  have hlt : w < rv.exchanges.length := (List.getElem?_eq_some_iff.mp hw).1
  have hmem : e ∈ rv.exchanges := List.mem_of_getElem? hw
  have he := h.exchanges e hmem
  have hcases : ∀ e₁ ∈ rv.exchanges.set w e', e₁ ∈ rv.exchanges ∨ e₁ = e' := fun e₁ hm => List.mem_or_eq_of_mem_set hm
  have hacked : ∀ r, ({ rv with pullTasksCount := counts, exchanges := rv.exchanges.set w e' } : Receive ReqId).acked r =
      rv.acked r + if r ∈ pre then 1 else 0 := by
    intro r
    have hget : rv.exchanges[w] = e := by
      rw [List.getElem?_eq_getElem hlt] at hw
      exact Option.some.inj hw
    have hset : ({ rv with pullTasksCount := counts, exchanges := rv.exchanges.set w e' } : Receive ReqId).acked r =
        (rv.exchanges.set w e').countP fun e => r ∈ e.counted := rfl
    rw [hset, List.countP_set hlt, hget, hcounted]
    have hpos : r ∈ e.counted → 0 < rv.acked r := fun hr => List.countP_pos_iff.mpr ⟨e, hmem, by simpa using hr⟩
    unfold Receive.acked at hpos ⊢
    by_cases hr : r ∈ e.counted
    · have hrp : r ∉ pre := fun hp => hnew r hp hr
      have := hpos hr
      simp [hr, hrp]
      omega
    · by_cases hrp : r ∈ pre
      · simp [hr, hrp]
      · simp [hr, hrp]
  have hroom : ∀ r ∈ pre, rv.acked r < rv.exchanges.length := by
    intro r hr
    have hne : rv.acked r ≠ rv.exchanges.length := fun hall => hnew r hr (acked_eq_length.mp hall e hmem)
    have := acked_le rv r
    omega
  refine ⟨h.reqs, fun e₁ hm => ?_, fun r => ?_, fun r => ?_, fun e₁ hm hne => ?_, ?_⟩
  · rcases hcases e₁ hm with hm | rfl
    · exact h.exchanges e₁ hm
    · refine ⟨?_, fun r hr => ?_, hdisj, hended⟩
      · rw [hcounted]
        exact List.nodup_append.mpr ⟨he.counted_nodup, hpre, fun r hr r' hr' heq => hnew r' hr' (heq ▸ hr)⟩
      · rw [hcounted] at hr
        rcases List.mem_append.mp hr with hr | hr
        · exact hsub (he.counted_ok r hr)
        · exact hok r hr
  · rw [hacked r]
    simp only [List.length_set]
    rw [hcounts r, h.counts r]
    split
    · push_cast
      omega
    · push_cast
      omega
  · rw [hacked r]
    simp only [List.length_set]
    rw [hentered r, h.entered r, h.counts r]
    have hle := acked_le rv r
    by_cases hr : r ∈ pre
    · have hroom := hroom r hr
      simp only [hr, true_and, if_true]
      by_cases hlast : rv.acked r + 1 = rv.exchanges.length
      · rw [if_neg (by omega), if_pos (by omega), if_pos (by omega)]
      · rw [if_neg (by omega), if_neg (by omega), if_neg (by omega)]
    · simp [hr]
  · rcases hcases e₁ hm with hm | rfl
    · exact hlatched (h.reported e₁ hm hne)
    · exact hrep hne
  · intro hl e₁ hm r hr
    have hl₀ : latched = false := by
      cases hb : latched with
      | false => rfl
      | true =>
        rw [hlatched hb] at hl
        cases hl
    rcases hcases e₁ hm with hm | rfl
    · exact h.clean hl₀ e₁ hm r hr
    · rw [hcounted]
      rcases hclean hl r hr with hr | hr
      · exact List.mem_append_left _ (h.clean hl₀ e hmem r hr)
      · exact List.mem_append_right _ hr

/-! ## The receiver loop -/

structure ReceiverInv (s : Receiver ReqId) : Prop where
  calls : ∀ (c : Nat) (rv : Receive ReqId), s.receives[c]? = some rv →
    ReceiveInv rv (fun r => s.entered.count (c, r)) s.kvLoadError.isSome
  entered : ∀ p ∈ s.entered, p.1 < s.receives.length
  finished : ∀ r ∈ s.finishedRecvingReqs, ∃ c, (c, r) ∈ s.entered

theorem ReceiverInv.setCall {s s' : Receiver ReqId} {c : Nat} {rv rv' : Receive ReqId} (h : ReceiverInv s)
    (finished : List ReqId) (hc : s.receives[c]? = some rv) (hreceives : s'.receives = s.receives.set c rv')
    (hentered : s'.entered = s.entered ++ finished.map fun r => (c, r))
    (hfinished : ∀ r ∈ s'.finishedRecvingReqs, r ∈ s.finishedRecvingReqs ∨ r ∈ finished)
    (hlatched : s.kvLoadError.isSome = true → s'.kvLoadError.isSome = true)
    (hrv : ReceiveInv rv' (fun r => s.entered.count (c, r) + finished.count r) s'.kvLoadError.isSome) :
    ReceiverInv s' := by
  have hlt : c < s.receives.length := (List.getElem?_eq_some_iff.mp hc).1
  refine ⟨fun c₁ rv₁ hc₁ => ?_, fun p hp => ?_, fun r hr => ?_⟩
  · have hcount : ∀ r, s'.entered.count (c₁, r) = s.entered.count (c₁, r) + if c₁ = c then finished.count r else 0 := by
      intro r
      rw [hentered, List.count_append]
      congr 1
      split
      · rename_i he
        subst he
        exact List.count_map_of_injective _ _ (fun a b hab => (Prod.mk.inj hab).2) r
      · rename_i he
        rw [List.count_eq_zero]
        intro hm
        obtain ⟨r', -, hr'⟩ := List.mem_map.mp hm
        exact he (Prod.mk.inj hr').1.symm
    simp only [hcount]
    rw [hreceives] at hc₁
    by_cases he : c₁ = c
    · subst he
      rw [List.getElem?_set_self hlt] at hc₁
      cases hc₁
      simpa using hrv
    · rw [List.getElem?_set_ne (Ne.symm he)] at hc₁
      have hold := h.calls c₁ rv₁ hc₁
      simp only [he, if_false, Nat.add_zero]
      refine ⟨hold.reqs, hold.exchanges, hold.counts, hold.entered, fun e hm hne => hlatched (hold.reported e hm hne),
        fun hl => ?_⟩
      refine hold.clean ?_
      cases hb : s.kvLoadError.isSome with
      | false => rfl
      | true =>
        rw [hlatched hb] at hl
        cases hl
  · rw [hreceives, List.length_set]
    rw [hentered] at hp
    rcases List.mem_append.mp hp with hp | hp
    · exact h.entered p hp
    · obtain ⟨r, -, rfl⟩ := List.mem_map.mp hp
      exact hlt
  · simp only [hentered, List.mem_append]
    rcases hfinished r hr with hr | hr
    · obtain ⟨c', hc'⟩ := h.finished r hr
      exact ⟨c', .inl hc'⟩
    · exact ⟨c, .inr (List.mem_map_of_mem hr)⟩

/-- `e'` is `e` with the acknowledgements of a response and the flags of its end. -/
structure Extends (e e' : Exchange ReqId) (response : XferResponse ReqId) : Prop where
  okReqs : e'.okReqs = e.okReqs ++ response.okReqs
  errReqs : e'.errReqs = e.errReqs ++ response.errReqs
  counted : e'.counted = e.counted

/-- Each worker acknowledges each request at most once. -/
def AcksOnce (e : Exchange ReqId) (response : XferResponse ReqId) : Prop :=
  (∀ r ∈ response.okReqs, r ∉ e.okReqs ∧ r ∉ e.errReqs) ∧
    ∀ r ∈ response.errReqs, r ∉ e.okReqs ∧ r ∉ response.okReqs

omit [DecidableEq ReqId] in
theorem Extends.disjoint {e e' : Exchange ReqId} {response : XferResponse ReqId} (h : Extends e e' response)
    (he : ExchangeInv e) (hack : AcksOnce e response) : ∀ r ∈ e'.errReqs, r ∉ e'.okReqs := by
  intro r hr hok
  rw [h.errReqs, List.mem_append] at hr
  rw [h.okReqs, List.mem_append] at hok
  rcases hr with hr | hr
  · rcases hok with hok | hok
    · exact he.disjoint r hr hok
    · exact (hack.1 r hok).2 hr
  · rcases hok with hok | hok
    · exact (hack.2 r hr).1 hok
    · exact (hack.2 r hr).2 hok

theorem ReceiverInv.latch {s : Receiver ReqId} {c w : Nat} {rv : Receive ReqId} {e e' : Exchange ReqId}
    (h : ReceiverInv s) (hc : s.receives[c]? = some rv) (hw : rv.exchanges[w]? = some e)
    (hcounted : e'.counted = e.counted) (hsub : e.okReqs ⊆ e'.okReqs) (hdisj : ∀ r ∈ e'.errReqs, r ∉ e'.okReqs)
    (hended : e'.failed = true → e'.ended = true) (errReqs : List ReqId) (errMsg : Option String) :
    ReceiverInv ((s.latch errReqs errMsg).setReceive c { rv with exchanges := rv.exchanges.set w e' }) := by
  refine h.setCall [] hc rfl (by simp [Receiver.latch, Receiver.setReceive]) (fun _ hr => .inl hr) (fun _ => rfl) ?_
  exact (h.calls c rv hc).update hw List.nodup_nil nofun (by simp [hcounted]) nofun hsub hdisj hended (by simp) (by simp)
    (fun _ => rfl) (fun _ => rfl) (fun hl => by cases hl)

theorem ReceiverInv.counted {s s' : Receiver ReqId} {c w : Nat} {rv : Receive ReqId} {e e₁ : Exchange ReqId}
    {response : XferResponse ReqId} {counts : ReqId → Int} {counted finished : List ReqId} {missing : Option ReqId}
    (h : ReceiverInv s) (e₂ : Exchange ReqId) (hc : s.receives[c]? = some rv) (hw : rv.exchanges[w]? = some e)
    (hext : Extends e e₁ response) (hack : AcksOnce e response) (herr : response.errReqs = [])
    (hcd : countDown rv.reqIds (fromKeys (response.okReqs ++ response.errReqs)) rv.pullTasksCount =
      (counts, counted, finished, missing))
    (hcounted : e₂.counted = e₁.counted ++ counted) (hok : e₂.okReqs = e₁.okReqs) (herrs : e₂.errReqs = e₁.errReqs)
    (hreceives : s'.receives = s.receives.set c
      { rv with pullTasksCount := counts, exchanges := rv.exchanges.set w e₂ })
    (hentered : s'.entered = s.entered ++ finished.map fun r => (c, r))
    (hfinished : s'.finishedRecvingReqs = finished.foldl (fun l r => l.insert r) s.finishedRecvingReqs)
    (hlatched : s.kvLoadError.isSome = true → s'.kvLoadError.isSome = true)
    (hended : e₂.failed = true → e₂.ended = true)
    (hfail : e₂.failed = true → e.failed = true ∨ s'.kvLoadError.isSome = true)
    (hclean : s'.kvLoadError.isSome = false → missing = none) : ReceiverInv s' := by
  have he := (h.calls c rv hc).exchanges e (List.mem_of_getElem? hw)
  obtain ⟨hsub, hcounts, hfin, hall⟩ := countDown_spec (fromKeys_nodup _) hcd
  have hmem : ∀ r ∈ counted, r ∈ response.okReqs := by
    intro r hr
    have := mem_fromKeys.mp (hsub.subset hr)
    rw [herr, List.append_nil] at this
    exact this
  have hnd : counted.Nodup := (fromKeys_nodup _).sublist hsub
  refine h.setCall finished hc hreceives hentered (fun r hr => mem_foldl_insert.mp (hfinished ▸ hr)) hlatched ?_
  refine (h.calls c rv hc).update hw hnd ?_ ?_ ?_ ?_ ?_ hended hcounts ?_ hlatched ?_ ?_
  · intro r hr hin
    exact (hack.1 r (hmem r hr)).1 (he.counted_ok r hin)
  · rw [hcounted, hext.counted]
  · intro r hr
    rw [hok, hext.okReqs]
    exact List.mem_append_right _ (hmem r hr)
  · rw [hok, hext.okReqs]
    exact List.subset_append_left _ _
  · rw [hok, herrs]
    exact hext.disjoint he hack
  · intro r
    rw [hfin, (hnd.filter _).count]
    simp only [List.mem_filter, decide_eq_true_eq]
  · rw [herrs, hext.errReqs, herr, List.append_nil]
    have hold := (h.calls c rv hc).reported e (List.mem_of_getElem? hw)
    rintro (hne | hf)
    · exact hlatched (hold (.inl hne))
    · rcases hfail hf with hf | hl
      · exact hlatched (hold (.inr hf))
      · exact hl
  · intro hl r hr
    rw [hok, hext.okReqs] at hr
    rcases List.mem_append.mp hr with hr | hr
    · exact .inl hr
    · refine .inr ?_
      rw [hall (hclean hl), mem_fromKeys]
      exact List.mem_append_left _ hr

theorem ReceiverInv.fail {s : Receiver ReqId} {c w : Nat} {rv : Receive ReqId} {e e' : Exchange ReqId}
    (h : ReceiverInv s) (hc : s.receives[c]? = some rv) (hw : rv.exchanges[w]? = some e)
    (hcounted : e'.counted = e.counted) (hsub : e.okReqs ⊆ e'.okReqs) (hdisj : ∀ r ∈ e'.errReqs, r ∉ e'.okReqs)
    (hended : e'.failed = true → e'.ended = true) (errMsg : Option String) :
    ReceiverInv (s.processPullingResult c rv w e' { status := .ERROR, errReqs := rv.reqIds, errMsg := errMsg }).1 := by
  unfold Receiver.processPullingResult
  rw [if_pos (h.calls c rv hc).reqs]
  exact h.latch hc hw hcounted hsub hdisj hended _ _

theorem failPullMetas_inv {s : Receiver ReqId} {c w : Nat} {rv : Receive ReqId} {e : Exchange ReqId}
    (h : ReceiverInv s) (hc : s.receives[c]? = some rv) (hw : rv.exchanges[w]? = some e) (msg : String) :
    ReceiverInv (s.failPullMetas c rv w e msg) := by
  have he := (h.calls c rv hc).exchanges e (List.mem_of_getElem? hw)
  refine h.fail hc hw ?_ ?_ ?_ (fun _ => rfl) (some msg)
  · rfl
  · exact List.Subset.refl _
  · exact he.disjoint

theorem handleResponse_inv {keyError : ReqId → String} {s : Receiver ReqId} {c w : Nat} {rv : Receive ReqId}
    {e : Exchange ReqId} {response : XferResponse ReqId} (h : ReceiverInv s) (hc : s.receives[c]? = some rv)
    (hw : rv.exchanges[w]? = some e) (hopen : e.ended = false) (hack : AcksOnce e response) :
    ReceiverInv (s.handleResponse keyError c rv w e response) := by
  have he := (h.calls c rv hc).exchanges e (List.mem_of_getElem? hw)
  have hlt : c < s.receives.length := (List.getElem?_eq_some_iff.mp hc).1
  have hwlt : w < rv.exchanges.length := (List.getElem?_eq_some_iff.mp hw).1
  have hext : ∀ ended failed, Extends e { e with
      okReqs := e.okReqs ++ response.okReqs, errReqs := e.errReqs ++ response.errReqs, ended := ended,
      failed := failed } response := fun _ _ => ⟨rfl, rfl, rfl⟩
  have hsub : e.okReqs ⊆ e.okReqs ++ response.okReqs := List.subset_append_left _ _
  have hend : ∀ {ended : Bool}, e.failed = true → ended = true := by
    intro ended hf
    rw [he.failed_ended hf] at hopen
    cases hopen
  unfold Receiver.handleResponse
  dsimp only
  split
  · split
    · exact h.fail hc hw (by rfl) hsub ((hext true true).disjoint he hack) (fun _ => rfl) response.errMsg
    · rename_i herr
      unfold Receiver.processPullingResult
      rw [if_pos herr]
      exact h.latch hc hw (by rfl) hsub ((hext true e.failed).disjoint he hack) (fun _ => rfl) _ _
  · by_cases herr : response.errReqs = []
    · unfold Receiver.processPullingResult
      rw [if_neg (not_not_intro herr)]
      rcases hcd : countDown rv.reqIds (fromKeys (response.okReqs ++ response.errReqs)) rv.pullTasksCount with
        ⟨counts, counted, finished, missing⟩
      have hcounted : ∀ (s' : Receiver ReqId) (ended failed : Bool), s'.receives = s.receives.set c { rv with
          pullTasksCount := counts
          exchanges := rv.exchanges.set w
            ⟨e.workerAddr, ended, e.okReqs ++ response.okReqs, e.errReqs ++ response.errReqs, e.counted ++ counted,
              failed⟩ } →
          s'.entered = s.entered ++ finished.map (fun r => (c, r)) →
          s'.finishedRecvingReqs = finished.foldl (fun l r => l.insert r) s.finishedRecvingReqs →
          (failed = true → ended = true) →
          (s.kvLoadError.isSome = true → s'.kvLoadError.isSome = true) →
          (failed = true → e.failed = true ∨ s'.kvLoadError.isSome = true) →
          (s'.kvLoadError.isSome = false → missing = none) → ReceiverInv s' :=
        fun s' ended failed hr hent hfin hend hl hf hm =>
          h.counted
            ⟨e.workerAddr, ended, e.okReqs ++ response.okReqs, e.errReqs ++ response.errReqs, e.counted ++ counted,
              failed⟩ hc hw (hext ended failed) hack herr hcd rfl rfl rfl hr hent hfin hl hend hf hm
      cases missing with
      | none => exact hcounted _ _ e.failed rfl rfl rfl hend (fun hl => hl) .inl fun _ => rfl
      | some r =>
        -- the failed lookup ends the exchange after the requests before it have been counted
        dsimp only
        rw [List.getElem?_set_self hlt]
        dsimp only
        rw [List.getElem?_set_self hwlt]
        dsimp only
        unfold Receiver.failPullMetas Receiver.processPullingResult
        dsimp only
        rw [if_pos (h.calls c rv hc).reqs]
        refine hcounted _ true true ?_ rfl rfl (fun _ => rfl) (fun _ => rfl) (fun _ => .inr rfl) nofun
        simp [Receiver.latch, Receiver.setReceive]
    · unfold Receiver.processPullingResult
      rw [if_pos herr]
      exact h.latch hc hw (by rfl) hsub ((hext _ e.failed).disjoint he hack) hend _ _

/-! ## Steps -/

omit [DecidableEq ReqId] in
theorem running_eq_some {s : Receiver ReqId} {c w : Nat} {p : Receive ReqId × Exchange ReqId}
    (h : s.running c w = some p) :
    s.receives[c]? = some p.1 ∧ p.1.exchanges[w]? = some p.2 ∧ p.2.ended = false := by
  simp only [Receiver.running, Option.bind_eq_bind, Option.bind_eq_some_iff] at h
  obtain ⟨rv, hc, e, hw, h⟩ := h
  split at h
  · cases h
  · cases h
    exact ⟨hc, hw, by simpa using ‹¬e.ended = true›⟩

/-- The workers' side of the exchange: each response acknowledges a request at most once. -/
def Acknowledges (s : Receiver ReqId) : ReceiverEvent ReqId → Prop
  | .response c w r => ∀ p ∈ s.running c w, AcksOnce p.2 r
  | _ => True

theorem receiveKv_inv {s : Receiver ReqId} (h : ReceiverInv s) (addrs : List String) {reqIds : List ReqId}
    (hne : reqIds ≠ []) : ReceiverInv (s.receiveKv addrs reqIds) := by
  refine ⟨fun c rv hc => ?_, fun p hp => ?_, h.finished⟩
  · simp only [Receiver.receiveKv, List.getElem?_append] at hc
    split at hc
    · exact h.calls c rv hc
    · rename_i hlt
      have hrv := List.mem_of_getElem? hc
      rw [List.mem_singleton] at hrv
      subst hrv
      have hfresh : ∀ e ∈ addrs.map fun a => ({ workerAddr := a } : Exchange ReqId),
          e.okReqs = [] ∧ e.errReqs = [] ∧ e.counted = [] ∧ e.failed = false := by
        intro e he
        obtain ⟨a, -, rfl⟩ := List.mem_map.mp he
        exact ⟨rfl, rfl, rfl, rfl⟩
      have hacked : ∀ r, (⟨reqIds, fun _ => addrs.length, addrs.map fun a => { workerAddr := a }⟩ :
          Receive ReqId).acked r = 0 := by
        intro r
        refine List.countP_eq_zero.mpr fun e he => ?_
        simp [(hfresh e he).2.2.1]
      have hzero : ∀ r, s.entered.count (c, r) = 0 :=
        fun r => List.count_eq_zero.mpr fun hm => hlt (h.entered (c, r) hm)
      refine ⟨hne, fun e he => ?_, fun r => ?_, fun r => ?_, fun e he => ?_, fun _ e he => ?_⟩
      · obtain ⟨hok, herr, hcounted, hfailed⟩ := hfresh e he
        exact ⟨by simp [hcounted], by simp [hcounted], by simp [herr], by simp [hfailed]⟩
      · rw [hacked r]
        simp
      · rw [hacked r]
        simp only [Receiver.receiveKv]
        rw [hzero r, if_neg (by omega)]
      · simp [hfresh e he]
      · simp [hfresh e he]
  · rw [Receiver.receiveKv, List.length_append]
    exact Nat.lt_add_right _ (h.entered p hp)

theorem receiver_inv_step {ppSize ppRank : Nat} {keyError : ReqId → String} (s : Receiver ReqId)
    (ev : ReceiverEvent ReqId) (s' : Receiver ReqId) (h : ReceiverInv s) (hack : Acknowledges s ev)
    (hs : receiverStep ppSize ppRank keyError s ev = some s') : ReceiverInv s' := by
  cases ev with
  | receiveKv engine reqIds =>
    simp only [receiverStep] at hs
    split at hs
    · cases hs
    · rename_i hne
      cases hs
      cases workerAddrs ppSize ppRank engine with
      | none => exact h
      | some addrs => exact receiveKv_inv h addrs hne
  | response c w r =>
    obtain ⟨p, hp, rfl⟩ := Option.map_eq_some_iff.mp hs
    obtain ⟨hc, hw, hopen⟩ := running_eq_some hp
    exact handleResponse_inv h hc hw hopen (hack p hp)
  | raised c w msg =>
    obtain ⟨p, hp, rfl⟩ := Option.map_eq_some_iff.mp hs
    obtain ⟨hc, hw, -⟩ := running_eq_some hp
    exact failPullMetas_inv h hc hw msg
  | contextTerminated c w =>
    obtain ⟨⟨rv, e⟩, hp, rfl⟩ := Option.map_eq_some_iff.mp hs
    obtain ⟨hc, hw, -⟩ := running_eq_some hp
    have he := (h.calls c rv hc).exchanges e (List.mem_of_getElem? hw)
    refine h.setCall [] hc rfl (by simp [Receiver.setReceive]) (fun _ hr => .inl hr) (fun hl => hl) ?_
    exact (h.calls c rv hc).update hw List.nodup_nil nofun (List.append_nil _).symm nofun (List.Subset.refl _)
      he.disjoint (fun _ => rfl) (by simp) (by simp) (fun hl => hl)
      ((h.calls c rv hc).reported e (List.mem_of_getElem? hw)) fun _ r hr => .inl hr
  | fetch =>
    simp only [receiverStep, Receiver.fetchFinishedRecvingReqs] at hs
    cases hl : s.kvLoadError with
    | some err =>
      rw [hl] at hs
      cases hs
      exact h
    | none =>
      have hcalls := h.calls
      rw [hl] at hs hcalls
      cases hs
      exact ⟨hcalls, h.entered, nofun⟩

/-! ## Whole runs -/

/-- Some worker has reported a request as failed, or its exchange failed as a whole. -/
def Receiver.Reported (s : Receiver ReqId) : Prop :=
  ∃ (c w : Nat) (rv : Receive ReqId) (e : Exchange ReqId), s.receives[c]? = some rv ∧ rv.exchanges[w]? = some e ∧
    (e.errReqs ≠ [] ∨ e.failed = true)

/-- What a later state keeps of an exchange: its reports, and all of it once it has ended. -/
structure KeepsReports (e e' : Exchange ReqId) : Prop where
  errReqs : e.errReqs ⊆ e'.errReqs
  failed : e.failed = true → e'.failed = true
  ended : e.ended = true → e' = e

structure Later (s s' : Receiver ReqId) : Prop where
  latched : s'.kvLoadError = s.kvLoadError ∨ s'.kvLoadError.isSome = true ∧ s'.Reported
  exchanges : ∀ (c : Nat) (rv : Receive ReqId), s.receives[c]? = some rv →
    ∃ rv', s'.receives[c]? = some rv' ∧ ∀ (w : Nat) (e : Exchange ReqId), rv.exchanges[w]? = some e →
      ∃ e', rv'.exchanges[w]? = some e' ∧ KeepsReports e e'

omit [DecidableEq ReqId] in
theorem KeepsReports.rfl {e : Exchange ReqId} : KeepsReports e e := ⟨List.Subset.refl _, fun h => h, fun _ => Eq.refl e⟩

omit [DecidableEq ReqId] in
theorem KeepsReports.reported {e e' : Exchange ReqId} (h : KeepsReports e e')
    (hr : e.errReqs ≠ [] ∨ e.failed = true) : e'.errReqs ≠ [] ∨ e'.failed = true := by
  rcases hr with hr | hr
  · refine .inl fun hnil => hr (List.eq_nil_iff_forall_not_mem.mpr fun r hm => ?_)
    simpa [hnil] using h.errReqs hm
  · exact .inr (h.failed hr)

omit [DecidableEq ReqId] in
theorem Later.of_receives {s s' : Receiver ReqId} (h : s.receives <+: s'.receives)
    (hlatched : s'.kvLoadError = s.kvLoadError) : Later s s' := by
  refine ⟨.inl hlatched, fun c rv hc => ⟨rv, ?_, fun w e hw => ⟨e, hw, .rfl⟩⟩⟩
  have hlt : c < s.receives.length := (List.getElem?_eq_some_iff.mp hc).1
  obtain ⟨t, ht⟩ := h
  rw [← ht, List.getElem?_append_left hlt, hc]

omit [DecidableEq ReqId] in
theorem Later.reported {s s' : Receiver ReqId} (h : Later s s') (hr : s.Reported) : s'.Reported := by
  obtain ⟨c, w, rv, e, hc, hw, hr⟩ := hr
  obtain ⟨rv', hc', hrv'⟩ := h.exchanges c rv hc
  obtain ⟨e', hw', hkeep⟩ := hrv' w e hw
  exact ⟨c, w, rv', e', hc', hw', hkeep.reported hr⟩

omit [DecidableEq ReqId] in
theorem Later.trans {s₁ s₂ s₃ : Receiver ReqId} (h₁ : Later s₁ s₂) (h₂ : Later s₂ s₃) : Later s₁ s₃ := by
  refine ⟨?_, fun c rv hc => ?_⟩
  · rcases h₂.latched with h | h
    · rw [h]
      rcases h₁.latched with h' | h'
      · exact .inl h'
      · exact .inr ⟨h'.1, h₂.reported h'.2⟩
    · exact .inr h
  · obtain ⟨rv₂, hc₂, hrv₂⟩ := h₁.exchanges c rv hc
    obtain ⟨rv₃, hc₃, hrv₃⟩ := h₂.exchanges c rv₂ hc₂
    refine ⟨rv₃, hc₃, fun w e hw => ?_⟩
    obtain ⟨e₂, hw₂, hk₂⟩ := hrv₂ w e hw
    obtain ⟨e₃, hw₃, hk₃⟩ := hrv₃ w e₂ hw₂
    refine ⟨e₃, hw₃, fun r hr => hk₃.errReqs (hk₂.errReqs hr), fun hf => hk₃.failed (hk₂.failed hf), fun hended => ?_⟩
    obtain rfl := hk₂.ended hended
    exact hk₃.ended hended

/-- The running exchange `w` of call `c` goes on as `e'`. -/
structure Touches (s : Receiver ReqId) (c w : Nat) (rv : Receive ReqId) (e : Exchange ReqId) (s' : Receiver ReqId)
    (rv' : Receive ReqId) (e' : Exchange ReqId) : Prop where
  receives : s'.receives = s.receives.set c rv'
  exchanges : rv'.exchanges = rv.exchanges.set w e'
  errReqs : e.errReqs ⊆ e'.errReqs
  failed : e.failed = true → e'.failed = true
  latched : s'.kvLoadError = s.kvLoadError ∨ s'.kvLoadError.isSome = true ∧ (e'.errReqs ≠ [] ∨ e'.failed = true)

omit [DecidableEq ReqId] in
theorem Touches.later {s s' : Receiver ReqId} {c w : Nat} {p : Receive ReqId × Exchange ReqId} {rv' : Receive ReqId}
    {e' : Exchange ReqId} (h : Touches s c w p.1 p.2 s' rv' e') (hp : s.running c w = some p) : Later s s' := by
  obtain ⟨hc, hw, hopen⟩ := running_eq_some hp
  have hlt : c < s.receives.length := (List.getElem?_eq_some_iff.mp hc).1
  have hwlt : w < p.1.exchanges.length := (List.getElem?_eq_some_iff.mp hw).1
  have hc' : s'.receives[c]? = some rv' := by rw [h.receives, List.getElem?_set_self hlt]
  have hw' : rv'.exchanges[w]? = some e' := by rw [h.exchanges, List.getElem?_set_self hwlt]
  refine ⟨h.latched.imp_right fun hl => ⟨hl.1, c, w, rv', e', hc', hw', hl.2⟩, fun c₁ rv₁ hc₁ => ?_⟩
  by_cases hcc : c₁ = c
  · subst hcc
    obtain rfl : p.1 = rv₁ := Option.some.inj (hc.symm.trans hc₁)
    refine ⟨rv', hc', fun w₁ e₁ hw₁ => ?_⟩
    by_cases hww : w₁ = w
    · subst hww
      obtain rfl : p.2 = e₁ := Option.some.inj (hw.symm.trans hw₁)
      refine ⟨e', hw', h.errReqs, h.failed, fun hended => ?_⟩
      rw [hopen] at hended
      cases hended
    · exact ⟨e₁, by rw [h.exchanges, List.getElem?_set_ne (Ne.symm hww), hw₁], .rfl⟩
  · exact ⟨rv₁, by rw [h.receives, List.getElem?_set_ne (Ne.symm hcc), hc₁], fun w₁ e₁ hw₁ => ⟨e₁, hw₁, .rfl⟩⟩

/-- A response only touches its exchange and the counters of its call. -/
theorem handleResponse_touches (keyError : ReqId → String) {s : Receiver ReqId} {c w : Nat} {rv : Receive ReqId}
    {e : Exchange ReqId} (response : XferResponse ReqId) (hc : s.receives[c]? = some rv)
    (hw : rv.exchanges[w]? = some e) (hreqs : rv.reqIds ≠ []) :
    ∃ rv' e', Touches s c w rv e (s.handleResponse keyError c rv w e response) rv' e' := by
  have hlt : c < s.receives.length := (List.getElem?_eq_some_iff.mp hc).1
  have hwlt : w < rv.exchanges.length := (List.getElem?_eq_some_iff.mp hw).1
  have hsub : e.errReqs ⊆ e.errReqs ++ response.errReqs := List.subset_append_left _ _
  unfold Receiver.handleResponse
  dsimp only
  split
  · split
    · simp only [Receiver.processPullingResult, hreqs, ne_eq, not_false_eq_true, if_true]
      exact ⟨_, _, rfl, rfl, hsub, fun _ => rfl, .inr ⟨rfl, .inr rfl⟩⟩
    · rename_i herr
      simp only [Receiver.processPullingResult, herr, ne_eq, not_false_eq_true, if_true]
      exact ⟨_, _, rfl, rfl, hsub, fun hf => hf, .inr ⟨rfl, .inl (by simp [herr])⟩⟩
  · by_cases herr : response.errReqs = []
    · unfold Receiver.processPullingResult
      rw [if_neg (not_not_intro herr)]
      rcases countDown rv.reqIds (fromKeys (response.okReqs ++ response.errReqs)) rv.pullTasksCount with
        ⟨counts, counted, finished, missing⟩
      cases missing with
      | none => exact ⟨_, _, rfl, rfl, hsub, fun hf => hf, .inl rfl⟩
      | some r =>
        dsimp only
        rw [List.getElem?_set_self hlt]
        dsimp only
        rw [List.getElem?_set_self hwlt]
        simp only [Receiver.failPullMetas, Receiver.processPullingResult, hreqs, ne_eq, not_false_eq_true, if_true,
          Receiver.latch, Receiver.setReceive, List.set_set]
        exact ⟨_, _, rfl, rfl, hsub, fun _ => rfl, .inr ⟨rfl, .inr rfl⟩⟩
    · simp only [Receiver.processPullingResult, herr, ne_eq, not_false_eq_true, if_true]
      exact ⟨_, _, rfl, rfl, hsub, fun hf => hf, .inr ⟨rfl, .inl (by simp [herr])⟩⟩

theorem later_step {ppSize ppRank : Nat} {keyError : ReqId → String} {s s' : Receiver ReqId}
    {ev : ReceiverEvent ReqId} (h : ReceiverInv s) (hs : receiverStep ppSize ppRank keyError s ev = some s') :
    Later s s' := by
  cases ev with
  | receiveKv engine reqIds =>
    simp only [receiverStep] at hs
    split at hs
    · cases hs
    · cases hs
      cases workerAddrs ppSize ppRank engine with
      | none => exact .of_receives List.prefix_rfl rfl
      | some addrs => exact .of_receives (List.prefix_append _ _) rfl
  | response c w r =>
    obtain ⟨p, hp, rfl⟩ := Option.map_eq_some_iff.mp hs
    obtain ⟨hc, hw, -⟩ := running_eq_some hp
    obtain ⟨rv', e', ht⟩ := handleResponse_touches keyError r hc hw (h.calls c p.1 hc).reqs
    exact ht.later hp
  | raised c w msg =>
    obtain ⟨p, hp, rfl⟩ := Option.map_eq_some_iff.mp hs
    obtain ⟨hc, -, -⟩ := running_eq_some hp
    simp only [Receiver.failPullMetas, Receiver.processPullingResult, (h.calls c p.1 hc).reqs, ne_eq,
      not_false_eq_true, if_true]
    exact Touches.later ⟨rfl, rfl, List.Subset.refl _, fun _ => rfl, .inr ⟨rfl, .inr rfl⟩⟩ hp
  | contextTerminated c w =>
    obtain ⟨p, hp, rfl⟩ := Option.map_eq_some_iff.mp hs
    exact Touches.later ⟨rfl, rfl, List.Subset.refl _, fun hf => hf, .inl rfl⟩ hp
  | fetch =>
    simp only [receiverStep, Receiver.fetchFinishedRecvingReqs] at hs
    cases hl : s.kvLoadError with
    | some err =>
      rw [hl] at hs
      cases hs
      exact .of_receives List.prefix_rfl rfl
    | none =>
      rw [hl] at hs
      cases hs
      exact .of_receives List.prefix_rfl hl.symm

theorem later_run {ppSize ppRank : Nat} {keyError : ReqId → String} {es : List (ReceiverEvent ReqId)}
    {s s' : Receiver ReqId} (h : ReceiverInv s)
    (hack : Along (receiverStep ppSize ppRank keyError) Acknowledges s es)
    (hr : runFrom (receiverStep ppSize ppRank keyError) s es = some s') : ReceiverInv s' ∧ Later s s' := by
  refine run_invariant (I := fun s₁ => ReceiverInv s₁ ∧ Later s s₁) ?_ ⟨h, .of_receives List.prefix_rfl rfl⟩
    hack hr
  intro s₁ ev s₂ hI hP hs
  exact ⟨receiver_inv_step s₁ ev s₂ hI.1 hP hs, hI.2.trans (later_step hI.1 hs)⟩

omit [DecidableEq ReqId] in
theorem fetch_raises_iff (s : Receiver ReqId) :
    (∃ err, s.fetchFinishedRecvingReqs = .error err) ↔ s.kvLoadError.isSome = true := by
  unfold Receiver.fetchFinishedRecvingReqs
  cases s.kvLoadError with
  | none => simp
  | some err => simp

theorem receiver_inv_initial : ReceiverInv ({} : Receiver ReqId) := ⟨nofun, nofun, nofun⟩

/-- Received once and only after every worker acknowledged; never after a worker reported the request, or failed
before it acknowledged it, and from then on every fetch raises. -/
theorem received_after_all (ppSize ppRank : Nat) (keyError : ReqId → String) (es es' : List (ReceiverEvent ReqId))
    (s s' : Receiver ReqId) (hrun : runFrom (receiverStep ppSize ppRank keyError) {} es = some s)
    (hrun' : runFrom (receiverStep ppSize ppRank keyError) s es' = some s')
    (hack : Along (receiverStep ppSize ppRank keyError) Acknowledges {} es)
    (hack' : Along (receiverStep ppSize ppRank keyError) Acknowledges s es') :
    (∀ r ∈ s.finishedRecvingReqs, ∃ c, (c, r) ∈ s.entered) ∧
    (s.Reported → ∃ err, s'.fetchFinishedRecvingReqs = .error err) ∧
    ∀ (c : Nat) (rv : Receive ReqId), s.receives[c]? = some rv → ∀ r,
      s.entered.count (c, r) ≤ 1 ∧
      ((c, r) ∈ s.entered → rv.exchanges ≠ [] ∧ ∀ e ∈ rv.exchanges, r ∈ e.okReqs) ∧
      (¬ s.Reported → rv.exchanges ≠ [] → (∀ e ∈ rv.exchanges, r ∈ e.okReqs) → s.entered.count (c, r) = 1) ∧
      ∀ e ∈ rv.exchanges, r ∈ e.errReqs ∨ e.failed = true ∧ r ∉ e.okReqs → (c, r) ∉ s'.entered := by
  obtain ⟨hinv, hlater⟩ := later_run receiver_inv_initial hack hrun
  obtain ⟨hinv', hlater'⟩ := later_run hinv hack' hrun'
  -- in either state an entered request has been counted for every worker
  have hcounted : ∀ {s : Receiver ReqId} (_ : ReceiverInv s) {c rv r}, s.receives[c]? = some rv → (c, r) ∈ s.entered →
      rv.exchanges ≠ [] ∧ ∀ e ∈ rv.exchanges, r ∈ e.counted := by
    intro s hinv c rv r hc hm
    have hpos : 0 < s.entered.count (c, r) := List.count_pos_iff.mpr hm
    rw [(hinv.calls c rv hc).entered r] at hpos
    split at hpos
    · rename_i hall
      exact ⟨List.ne_nil_of_length_pos hall.1, acked_eq_length.mp hall.2⟩
    · cases hpos
  have hlatch : s'.Reported → s'.kvLoadError.isSome = true := by
    rintro ⟨c, w, rv, e, hc, hw, hr⟩
    exact (hinv'.calls c rv hc).reported e (List.mem_of_getElem? hw) hr
  have hnone : ¬ s.Reported → s.kvLoadError.isSome = false := by
    intro hno
    rcases hlater.latched with hl | hl
    · rw [hl]
      rfl
    · exact absurd hl.2 hno
  refine ⟨hinv.finished, fun hr => (fetch_raises_iff s').mpr (hlatch (hlater'.reported hr)), fun c rv hc r => ?_⟩
  have hcall := hinv.calls c rv hc
  refine ⟨?_, fun hm => ?_, fun hno hne hall => ?_, fun e he hr hm => ?_⟩
  · rw [hcall.entered r]
    split
    · exact Nat.le_refl 1
    · exact Nat.zero_le 1
  · obtain ⟨hne, hall⟩ := hcounted hinv hc hm
    exact ⟨hne, fun e he => (hcall.exchanges e he).counted_ok r (hall e he)⟩
  · have hacked := acked_eq_length.mpr fun e he => hcall.clean (hnone hno) e he r (hall e he)
    rw [hcall.entered r, if_pos ⟨List.length_pos_of_ne_nil hne, hacked⟩]
  · obtain ⟨w, hw⟩ := List.mem_iff_getElem?.mp he
    obtain ⟨rv', hc', hrv'⟩ := hlater'.exchanges c rv hc
    obtain ⟨e', hw', hkeep⟩ := hrv' w e hw
    have he' := (hinv'.calls c rv' hc').exchanges e' (List.mem_of_getElem? hw')
    have hok : r ∈ e'.okReqs := he'.counted_ok r ((hcounted hinv' hc' hm).2 e' (List.mem_of_getElem? hw'))
    rcases hr with hr | ⟨hf, hno⟩
    · exact he'.disjoint r (hkeep.errReqs hr) hok
    · rw [hkeep.ended ((hcall.exchanges e he).failed_ended hf)] at hok
      exact hno hok

instance (e : Exchange ReqId) (response : XferResponse ReqId) : Decidable (AcksOnce e response) :=
  inferInstanceAs (Decidable ((∀ r ∈ response.okReqs, r ∉ e.okReqs ∧ r ∉ e.errReqs) ∧
    ∀ r ∈ response.errReqs, r ∉ e.okReqs ∧ r ∉ response.okReqs))

instance (s : Receiver ReqId) : (ev : ReceiverEvent ReqId) → Decidable (Acknowledges s ev)
  | .response c w r => inferInstanceAs (Decidable (∀ p ∈ s.running c w, AcksOnce p.2 r))
  | .receiveKv .. | .raised .. | .contextTerminated .. | .fetch => inferInstanceAs (Decidable True)

end

/-- A producer with one worker per rank. -/
def oneStage (ranks : List Nat) : RemoteEngine := ⟨ranks, 1, false, ranks.map fun r => (r, [(0, "worker")])⟩

/-- Both workers acknowledge request 1, only the second one request 2. -/
def twoWorkers : List (ReceiverEvent Nat) :=
  [.receiveKv (oneStage [0, 1]) [1, 2], .response 0 1 { status := .FINISH, okReqs := [1, 2] },
    .response 0 0 { status := .CONTINUE, okReqs := [1] }, .raised 0 0 "timeout"]

theorem received_after_all_timeout :
    ∃ s s' : Receiver Nat, runFrom (receiverStep 1 0 toString) {} twoWorkers = some s ∧
      runFrom (receiverStep 1 0 toString) s [.fetch] = some s' ∧ s.entered = [(0, 1)] ∧
      (∀ r ∈ s.finishedRecvingReqs, ∃ c, (c, r) ∈ s.entered) ∧
      (s.Reported → ∃ err, s'.fetchFinishedRecvingReqs = .error err) ∧
      ∀ (c : Nat) (rv : Receive Nat), s.receives[c]? = some rv → ∀ r,
        s.entered.count (c, r) ≤ 1 ∧
        ((c, r) ∈ s.entered → rv.exchanges ≠ [] ∧ ∀ e ∈ rv.exchanges, r ∈ e.okReqs) ∧
        (¬ s.Reported → rv.exchanges ≠ [] → (∀ e ∈ rv.exchanges, r ∈ e.okReqs) → s.entered.count (c, r) = 1) ∧
        ∀ e ∈ rv.exchanges, r ∈ e.errReqs ∨ e.failed = true ∧ r ∉ e.okReqs → (c, r) ∉ s'.entered :=
  ⟨_, _, rfl, rfl, rfl, received_after_all 1 0 toString twoWorkers [.fetch] _ _ rfl rfl (by decide +kernel)
    (by decide +kernel)⟩

/-- A request that its only worker acknowledges beside a failed one never enters, and one acknowledged before its
exchange raises has entered. -/
theorem acknowledged_apart_from_received :
    (∃ (s : Receiver Nat) (e : Exchange Nat), runFrom (receiverStep 1 0 toString) {}
          [.receiveKv (oneStage [0]) [1, 2], .response 0 0 { status := .FINISH, okReqs := [1], errReqs := [2] }] =
          some s ∧
        s.receives.map Receive.exchanges = [[e]] ∧ 1 ∈ e.okReqs ∧ 1 ∉ e.errReqs ∧ e.failed = false ∧
        e.ended = true ∧ s.entered = []) ∧
      ∃ (s : Receiver Nat) (e : Exchange Nat), runFrom (receiverStep 1 0 toString) {}
          [.receiveKv (oneStage [0]) [1, 2], .response 0 0 { status := .CONTINUE, okReqs := [1] },
            .raised 0 0 "timeout"] = some s ∧
        s.receives.map Receive.exchanges = [[e]] ∧ e.failed = true ∧ s.finishedRecvingReqs = [1] :=
  ⟨⟨_, _, rfl, rfl, by decide, by decide, rfl, rfl, rfl⟩, ⟨_, _, rfl, rfl, rfl, rfl⟩⟩

end VllmHcu.Mooncake
