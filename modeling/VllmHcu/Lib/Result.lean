import Mathlib.Data.List.Forall2

/-!
# Lists of fallible results
-/

namespace VllmHcu

section
variable {ε α β : Type}

theorem bind_eq_ok {x : Except ε α} {f : α → Except ε β} {b : β} :
    x >>= f = .ok b ↔ ∃ a, x = .ok a ∧ f a = .ok b := by
  cases x with
  | error e => exact ⟨nofun, fun ⟨_, h, _⟩ => by cases h⟩
  | ok a => exact ⟨fun h => ⟨a, rfl, h⟩, fun ⟨_, h, hf⟩ => by cases h; exact hf⟩

/-! ## Checks -/

/-- Raises `e` where `p` fails. -/
def ensure (p : Prop) [Decidable p] (e : ε) : Except ε Unit := if p then .ok () else .error e

/-- The value, or `e` where there is none. -/
def expect (o : Option α) (e : ε) : Except ε α := o.elim (.error e) .ok

theorem ensure_eq_ok {p : Prop} [Decidable p] {e : ε} {u : Unit} : ensure p e = .ok u ↔ p := by
  unfold ensure
  split
  · rename_i h
    exact ⟨fun _ => h, fun _ => rfl⟩
  · rename_i h
    exact ⟨nofun, fun hp => absurd hp h⟩

theorem expect_eq_ok {o : Option α} {e : ε} {a : α} : expect o e = .ok a ↔ o = some a := by
  cases o with
  | none => exact ⟨nofun, nofun⟩
  | some b => exact ⟨fun h => congrArg some (Except.ok.inj h), fun h => congrArg Except.ok (Option.some.inj h)⟩

theorem map_eq_ok {x : Except ε α} {f : α → β} {b : β} : x.map f = .ok b ↔ ∃ a, x = .ok a ∧ f a = b := by
  cases x with
  | error e => exact ⟨nofun, fun ⟨_, h, _⟩ => by cases h⟩
  | ok a => exact ⟨fun h => ⟨a, rfl, Except.ok.inj h⟩, fun ⟨_, h, hf⟩ => by cases h; exact congrArg _ hf⟩

theorem pure_eq_ok {a b : α} : (pure a : Except ε α) = .ok b ↔ a = b :=
  ⟨Except.ok.inj, congrArg _⟩

/-! ## Loops -/

theorem forM_eq_ok {f : α → Except ε Unit} : ∀ {l : List α}, l.forM f = .ok () ↔ ∀ a ∈ l, f a = .ok ()
  | [] => ⟨fun _ => nofun, fun _ => rfl⟩
  | a :: l => by
    change (f a >>= fun _ => l.forM f) = .ok () ↔ _
    rw [bind_eq_ok, List.forall_mem_cons]
    exact ⟨fun ⟨_, ha, h⟩ => ⟨ha, forM_eq_ok.mp h⟩, fun ⟨ha, h⟩ => ⟨(), ha, forM_eq_ok.mpr h⟩⟩

theorem mapM_eq_ok (f : α → Except ε β) : ∀ {l : List α} {r : List β},
    l.mapM f = .ok r ↔ List.Forall₂ (fun a b => f a = .ok b) l r
  | [], r => by
    rw [List.mapM_nil, List.forall₂_nil_left_iff]
    exact ⟨fun h => by cases h; rfl, fun h => by rw [h]; rfl⟩
  | a :: l, r => by
    rw [List.mapM_cons, bind_eq_ok, List.forall₂_cons_left_iff]
    constructor
    · intro ⟨b, hb, h⟩
      obtain ⟨bs, hbs, he⟩ := bind_eq_ok.mp h
      cases he
      exact ⟨b, bs, hb, (mapM_eq_ok f).mp hbs, rfl⟩
    · intro ⟨b, bs, hb, hbs, hr⟩
      refine ⟨b, hb, bind_eq_ok.mpr ⟨bs, (mapM_eq_ok f).mpr hbs, ?_⟩⟩
      rw [hr]
      rfl

theorem mapM_ok_of_forall {f : α → Except ε β} : ∀ {l : List α}, (∀ a ∈ l, ∃ b, f a = .ok b) →
    ∃ r, l.mapM f = .ok r
  | [], _ => ⟨[], rfl⟩
  | a :: l, h => by
    obtain ⟨b, hb⟩ := h a (List.mem_cons_self ..)
    obtain ⟨r, hr⟩ := mapM_ok_of_forall fun a' ha => h a' (List.mem_cons_of_mem a ha)
    exact ⟨b :: r, (mapM_eq_ok f).mpr (.cons hb ((mapM_eq_ok f).mp hr))⟩

theorem mapM_returns {f : α → Except ε β} {g : α → β} : ∀ {l : List α}, (∀ a ∈ l, f a = .ok (g a)) →
    l.mapM f = .ok (l.map g)
  | [], _ => rfl
  | a :: l, h => by
    rw [List.mapM_cons, h a List.mem_cons_self, mapM_returns fun a' ha => h a' (List.mem_cons_of_mem a ha)]
    rfl

theorem mapM_option {f : α → Option β} : ∀ {l : List α} {r : List β}, l.mapM f = some r →
    List.Forall₂ (fun a b => f a = some b) l r
  | [], r, h => by
    cases h
    exact .nil
  | a :: l, r, h => by
    rw [List.mapM_cons] at h
    obtain ⟨b, hb, h⟩ := Option.bind_eq_some_iff.mp h
    obtain ⟨bs, hbs, h⟩ := Option.bind_eq_some_iff.mp h
    cases h
    exact .cons hb (mapM_option hbs)

theorem mapM_isSome {f : α → Option β} {l : List α} (h : ∀ a ∈ l, (f a).isSome = true) :
    (l.mapM f).isSome = true := by
  induction l with
  | nil => rfl
  | cons a l ih =>
    obtain ⟨b, hb⟩ := Option.isSome_iff_exists.mp (h a List.mem_cons_self)
    obtain ⟨bs, hbs⟩ := Option.isSome_iff_exists.mp (ih fun a ha => h a (List.mem_cons_of_mem _ ha))
    rw [List.mapM_cons, hb, hbs]
    rfl

theorem foldlM_range {σ : Type} {I : Nat → σ → Prop} {f : σ → Nat → Except ε σ} {s : σ} (h₀ : I 0 s)
    {n : Nat} (h : ∀ k < n, ∀ s, I k s → ∃ s', f s k = .ok s' ∧ I (k + 1) s') :
    ∃ s', (List.range n).foldlM f s = .ok s' ∧ I n s' := by
  induction n with
  | zero => exact ⟨s, rfl, h₀⟩
  | succ n ih =>
    obtain ⟨s', hs', hI⟩ := ih fun k hk => h k (Nat.lt_succ_of_lt hk)
    obtain ⟨s'', hs'', hI'⟩ := h n (Nat.lt_succ_self n) s' hI
    refine ⟨s'', ?_, hI'⟩
    rw [List.range_succ, List.foldlM_append, bind_eq_ok]
    exact ⟨s', hs', by rw [List.foldlM_cons, hs'']; rfl⟩

theorem mapM_zipIdx {f : α × Nat → Except ε β} {l : List α} (h : ∀ i a, l[i]? = some a → ∃ b, f (a, i) = .ok b) :
    ∃ r, l.zipIdx.mapM f = .ok r ∧ r.length = l.length ∧
      ∀ i a, l[i]? = some a → ∃ b, r[i]? = some b ∧ f (a, i) = .ok b := by
  obtain ⟨r, hr⟩ := mapM_ok_of_forall (f := f) (l := l.zipIdx) fun p hp => by
    obtain ⟨i, hi, hget⟩ := List.mem_iff_getElem.mp hp
    rw [List.getElem_zipIdx] at hget
    rw [← hget, Nat.zero_add]
    exact h i _ (List.getElem?_eq_getElem _)
  have hall := (mapM_eq_ok f).mp hr
  refine ⟨r, hr, ?_, ?_⟩
  · rw [← hall.length_eq, List.length_zipIdx]
  · intro i a ha
    obtain ⟨hi, rfl⟩ := List.getElem?_eq_some_iff.mp ha
    have hi' : i < l.zipIdx.length := by rwa [List.length_zipIdx]
    have hri : i < r.length := by rwa [← hall.length_eq]
    refine ⟨r[i], List.getElem?_eq_getElem hri, ?_⟩
    have := (List.forall₂_iff_get.mp hall).2 i hi' hri
    rw [List.get_eq_getElem, List.get_eq_getElem, List.getElem_zipIdx, Nat.zero_add] at this
    exact this

theorem forall₂_mem_left {R : α → β → Prop} {l : List α} {r : List β} (h : List.Forall₂ R l r) {a : α}
    (ha : a ∈ l) : ∃ b ∈ r, R a b := by
  induction h with
  | nil => cases ha
  | cons hr _ ih =>
    rcases List.mem_cons.mp ha with he | ha
    · subst he
      exact ⟨_, List.mem_cons_self .., hr⟩
    · obtain ⟨b, hb, hab⟩ := ih ha
      exact ⟨b, List.mem_cons_of_mem _ hb, hab⟩

theorem forall₂_mem_right {R : α → β → Prop} {l : List α} {r : List β} (h : List.Forall₂ R l r) {b : β}
    (hb : b ∈ r) : ∃ a ∈ l, R a b := by
  obtain ⟨a, ha, hab⟩ := forall₂_mem_left h.flip hb
  exact ⟨a, ha, hab⟩

theorem forall₂_flatMap {γ : Type} {R : α → β → Prop} {l : List γ} {f : γ → List α} {g : γ → List β}
    (h : ∀ c ∈ l, List.Forall₂ R (f c) (g c)) : List.Forall₂ R (l.flatMap f) (l.flatMap g) := by
  induction l with
  | nil => exact .nil
  | cons c l ih =>
    rw [List.flatMap_cons, List.flatMap_cons]
    exact List.rel_append (h c List.mem_cons_self) (ih fun c' hc => h c' (List.mem_cons_of_mem _ hc))

theorem forall₂_getElem? {R : α → β → Prop} {l : List α} {r : List β} (h : List.Forall₂ R l r) {i : Nat} {a : α}
    (ha : l[i]? = some a) : ∃ b, r[i]? = some b ∧ R a b := by
  induction h generalizing i with
  | nil => cases ha
  | @cons x y _ _ hr _ ih =>
    cases i with
    | zero =>
      cases ha
      exact ⟨y, rfl, hr⟩
    | succ i => exact ih ha

/-! ## Two runs side by side -/

/-- Two results that are related values or the same error. -/
inductive Outcomes (R : α → β → Prop) : Except ε α → Except ε β → Prop
  | ok {a : α} {b : β} (h : R a b) : Outcomes R (.ok a) (.ok b)
  | error (e : ε) : Outcomes R (.error e) (.error e)

theorem Outcomes.bind {γ δ : Type} {R : α → β → Prop} {Q : γ → δ → Prop} {x : Except ε α} {y : Except ε β}
    {f : α → Except ε γ} {g : β → Except ε δ} (h : Outcomes R x y) (hf : ∀ a b, R a b → Outcomes Q (f a) (g b)) :
    Outcomes Q (x >>= f) (y >>= g) := by
  cases h with
  | ok h => exact hf _ _ h
  | error e => exact .error e

theorem Outcomes.map_eq {γ : Type} {R : α → β → Prop} {x : Except ε α} {y : Except ε β} {f : α → γ} {g : β → γ}
    (h : Outcomes R x y) (hf : ∀ a b, R a b → f a = g b) : x.map f = y.map g := by
  cases h with
  | ok h => exact congrArg Except.ok (hf _ _ h)
  | error e => rfl

theorem Outcomes.foldlM {γ : Type} {R : α → β → Prop} {f : α → γ → Except ε α} {g : β → γ → Except ε β} :
    ∀ {l : List γ}, (∀ c ∈ l, ∀ a b, R a b → Outcomes R (f a c) (g b c)) → ∀ {a : α} {b : β}, R a b →
      Outcomes R (l.foldlM f a) (l.foldlM g b)
  | [], _, _, _, h => .ok h
  | c :: l, hstep, a, b, h => by
    rw [List.foldlM_cons, List.foldlM_cons]
    exact (hstep c List.mem_cons_self a b h).bind fun a b h =>
      Outcomes.foldlM (fun c hc => hstep c (List.mem_cons_of_mem _ hc)) h

end

end VllmHcu
