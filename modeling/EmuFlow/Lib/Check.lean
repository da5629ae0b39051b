/-!
# Checked computations in `Except`

A validator is a sequence of guards, each of which raises or lets the run go on.
This module has the guard, and for each way of sequencing (`bind`, `forM`, `mapM`, `foldlM`)
the one lemma that says what a run that did not raise has passed.
-/

namespace Check

open List

variable {ε α β σ : Type}

/-- Raise `err` when `bad` holds. -/
def raiseIf (bad : Prop) [Decidable bad] (err : ε) : Except ε Unit :=
  if bad then .error err else .ok ()

variable {bad : Prop}

@[simp] theorem raiseIf_eq_ok [Decidable bad] {err : ε} {u : Unit} :
    raiseIf bad err = .ok u ↔ ¬ bad := by
  unfold raiseIf
  split <;> simp_all

theorem raiseIf_eq_error [Decidable bad] {err e : ε} :
    raiseIf bad err = .error e ↔ bad ∧ err = e := by
  unfold raiseIf
  split <;> simp_all

variable {f : α → Except ε β} {x : Except ε α}

theorem bind_eq_ok {b : β} : (x >>= f) = .ok b ↔ ∃ a, x = .ok a ∧ f a = .ok b := by
  cases x with
  | error e => simp [bind, Except.bind]
  | ok a => simp [bind, Except.bind]

theorem raiseIf_bind [Decidable bad] {err : ε} {f : Unit → Except ε β} {b : β} :
    (raiseIf bad err >>= f) = .ok b ↔ ¬ bad ∧ f () = .ok b := by
  rw [bind_eq_ok]
  constructor
  · rintro ⟨a, ha, hf⟩
    exact ⟨raiseIf_eq_ok.mp ha, hf⟩
  · rintro ⟨hb, hf⟩
    exact ⟨(), raiseIf_eq_ok.mpr hb, hf⟩

theorem exists_bind_eq_ok : (∃ b, (x >>= f) = .ok b) ↔ ∃ a, x = .ok a ∧ ∃ b, f a = .ok b := by
  simp only [bind_eq_ok]
  exact ⟨fun ⟨b, a, ha, hb⟩ => ⟨a, ha, b, hb⟩, fun ⟨a, ha, b, hb⟩ => ⟨b, a, ha, hb⟩⟩

theorem exists_of_isOk (h : x.isOk = true) : ∃ a, x = .ok a := by
  cases x with
  | error e => cases h
  | ok a => exact ⟨a, rfl⟩

def returns (P : α → Prop) [DecidablePred P] : Except ε α → Bool
  | .ok a => decide (P a)
  | .error _ => false

theorem exists_of_returns {P : α → Prop} [DecidablePred P]
    (h : returns P x = true) : ∃ a, x = .ok a ∧ P a := by
  cases x with
  | error e => cases h
  | ok a => exact ⟨a, rfl, of_decide_eq_true h⟩

theorem exists_of_bind_eq_error {e : ε}
    (hx : x.isOk = true) (h : (x >>= f) = .error e) : ∃ a, x = .ok a ∧ f a = .error e := by
  obtain ⟨a, rfl⟩ := exists_of_isOk hx
  exact ⟨a, rfl, h⟩

theorem bind_eq_error {e : ε} :
    (x >>= f) = .error e ↔ x = .error e ∨ ∃ a, x = .ok a ∧ f a = .error e := by
  cases x with
  | error e' => simp [bind, Except.bind]
  | ok a => simp [bind, Except.bind]

/-! ## loops -/

theorem of_forM_eq_error {f : α → Except ε Unit} {e : ε} :
    ∀ {l : List α}, forM l f = .error e → ∃ a ∈ l, f a = .error e
  | [], h => by cases h
  | a :: l, h => by
    rw [forM_cons, bind_eq_error] at h
    rcases h with h | ⟨_, -, h⟩
    · exact ⟨a, mem_cons_self, h⟩
    · obtain ⟨b, hb, h⟩ := of_forM_eq_error h
      exact ⟨b, mem_cons_of_mem a hb, h⟩

theorem of_mapM_eq_error {e : ε} : ∀ {l : List α}, l.mapM f = .error e → ∃ a ∈ l, f a = .error e
  | [], h => by
    rw [mapM_nil] at h
    cases h
  | a :: l, h => by
    rw [mapM_cons, bind_eq_error] at h
    rcases h with h | ⟨_, -, h⟩
    · exact ⟨a, mem_cons_self, h⟩
    · rcases bind_eq_error.mp h with h | ⟨_, -, h⟩
      · obtain ⟨b, hb, h⟩ := of_mapM_eq_error h
        exact ⟨b, mem_cons_of_mem a hb, h⟩
      · cases h

theorem forM_eq_ok {f : α → Except ε Unit} :
    ∀ {l : List α}, forM l f = .ok () ↔ ∀ a ∈ l, f a = .ok ()
  | [] => by simp [forM_nil, pure, Except.pure]
  | a :: l => by
    rw [forM_cons, bind_eq_ok]
    simp only [forall_mem_cons]
    constructor
    · rintro ⟨_, ha, hl⟩
      exact ⟨ha, forM_eq_ok.mp hl⟩
    · rintro ⟨ha, hl⟩
      exact ⟨⟨⟩, ha, forM_eq_ok.mpr hl⟩

theorem mapM_nil_eq_ok {bs : List β} : ([] : List α).mapM f = .ok bs ↔ bs = [] := by
  rw [mapM_nil]
  exact ⟨fun h => (Except.ok.inj h).symm, fun h => by rw [h]; rfl⟩

theorem mapM_cons_eq_ok {a : α} {l : List α} {bs : List β} :
    (a :: l).mapM f = .ok bs ↔ ∃ b bs', f a = .ok b ∧ l.mapM f = .ok bs' ∧ bs = b :: bs' := by
  rw [mapM_cons, bind_eq_ok]
  constructor
  · rintro ⟨b, hb, h⟩
    obtain ⟨bs', hbs, h⟩ := bind_eq_ok.mp h
    exact ⟨b, bs', hb, hbs, (Except.ok.inj h).symm⟩
  · rintro ⟨b, bs', hb, hbs, rfl⟩
    exact ⟨b, hb, bind_eq_ok.mpr ⟨bs', hbs, rfl⟩⟩

/-- A `mapM` whose elements all succeed succeeds. -/
theorem exists_mapM_eq_ok : ∀ {l : List α}, (∀ a ∈ l, ∃ b, f a = .ok b) → ∃ bs, l.mapM f = .ok bs
  | [], _ => ⟨[], mapM_nil_eq_ok.mpr rfl⟩
  | a :: l, h => by
    obtain ⟨b, hb⟩ := h a mem_cons_self
    obtain ⟨bs, hbs⟩ := exists_mapM_eq_ok fun x hx => h x (mem_cons_of_mem a hx)
    exact ⟨b :: bs, mapM_cons_eq_ok.mpr ⟨b, bs, hb, hbs, rfl⟩⟩

theorem exists_of_mem_mapM :
    ∀ {l : List α} {bs : List β} {b : β}, l.mapM f = .ok bs → b ∈ bs → ∃ a ∈ l, f a = .ok b
  | [], bs, b, h, hb => by
    rw [mapM_nil_eq_ok.mp h] at hb
    exact absurd hb not_mem_nil
  | a :: l, bs, b, h, hb => by
    obtain ⟨c, cs, hc, hcs, rfl⟩ := mapM_cons_eq_ok.mp h
    rcases mem_cons.mp hb with rfl | hb
    · exact ⟨a, mem_cons_self, hc⟩
    · obtain ⟨x, hx, hf⟩ := exists_of_mem_mapM hcs hb
      exact ⟨x, mem_cons_of_mem a hx, hf⟩

theorem mem_mapM_of_mem :
    ∀ {l : List α} {bs : List β} {a : α}, l.mapM f = .ok bs → a ∈ l → ∃ b ∈ bs, f a = .ok b
  | [], _, _, _, ha => absurd ha not_mem_nil
  | x :: l, bs, a, h, ha => by
    obtain ⟨c, cs, hc, hcs, rfl⟩ := mapM_cons_eq_ok.mp h
    rcases mem_cons.mp ha with rfl | ha
    · exact ⟨c, mem_cons_self, hc⟩
    · obtain ⟨b, hb, hf⟩ := mem_mapM_of_mem hcs ha
      exact ⟨b, mem_cons_of_mem c hb, hf⟩

theorem mapM_eq_ok_map {g : α → β} :
    ∀ {l : List α}, (∀ a ∈ l, f a = .ok (g a)) → l.mapM f = .ok (l.map g)
  | [], _ => mapM_nil_eq_ok.mpr rfl
  | a :: l, h => mapM_cons_eq_ok.mpr
    ⟨g a, l.map g, h a mem_cons_self, mapM_eq_ok_map fun x hx => h x (mem_cons_of_mem a hx), rfl⟩

theorem map_of_mapM {γ : Type} {g : β → γ} {k : α → γ} (hg : ∀ a b, f a = .ok b → g b = k a) :
    ∀ {l : List α} {bs : List β}, l.mapM f = .ok bs → bs.map g = l.map k
  | [], bs, h => by rw [mapM_nil_eq_ok.mp h]; rfl
  | a :: l, bs, h => by
    obtain ⟨b, bs', hb, hbs, rfl⟩ := mapM_cons_eq_ok.mp h
    rw [map_cons, map_cons, hg a b hb, map_of_mapM hg hbs]

theorem sublist_of_mapM {γ δ : Type} {p : β → Option γ} {g : γ → δ}
    {k : α → δ} (hg : ∀ a b c, f a = .ok b → p b = some c → g c = k a) :
    ∀ {l : List α} {bs : List β}, l.mapM f = .ok bs → ((bs.filterMap p).map g).Sublist (l.map k)
  | [], bs, h => by
    rw [mapM_nil_eq_ok.mp h]
    exact Sublist.refl []
  | a :: l, bs, h => by
    obtain ⟨b, bs', hb, hbs, rfl⟩ := mapM_cons_eq_ok.mp h
    rw [filterMap_cons]
    split
    · exact (sublist_of_mapM hg hbs).cons _
    · next c hc =>
      rw [map_cons, map_cons, hg a b c hb hc]
      exact (sublist_of_mapM hg hbs).cons_cons _

theorem mapM_eq_ok_of_mapM {γ : Type} {g : α → Except ε γ} {k : β → γ}
    (hg : ∀ a b, f a = .ok b → g a = .ok (k b)) :
    ∀ {l : List α} {bs : List β}, l.mapM f = .ok bs → l.mapM g = .ok (bs.map k)
  | [], bs, h => by
    rw [mapM_nil_eq_ok.mp h]
    exact mapM_nil_eq_ok.mpr rfl
  | a :: l, bs, h => by
    obtain ⟨b, bs', hb, hbs, rfl⟩ := mapM_cons_eq_ok.mp h
    exact mapM_cons_eq_ok.mpr ⟨k b, bs'.map k, hg a b hb, mapM_eq_ok_of_mapM hg hbs, rfl⟩

theorem map_eq_of_mapM {γ : Type} {g : α → Except ε γ} {k : β → γ} :
    ∀ {l : List α} {bs : List β} {cs : List γ},
      (∀ a ∈ l, ∀ b c, f a = .ok b → g a = .ok c → k b = c) →
      l.mapM f = .ok bs → l.mapM g = .ok cs → bs.map k = cs
  | [], bs, cs, _, hf, hg => by
    rw [mapM_nil_eq_ok.mp hf, mapM_nil_eq_ok.mp hg]
    rfl
  | a :: l, bs, cs, h, hf, hg => by
    obtain ⟨b, bs', hb, hbs, rfl⟩ := mapM_cons_eq_ok.mp hf
    obtain ⟨c, cs', hc, hcs, rfl⟩ := mapM_cons_eq_ok.mp hg
    rw [map_cons, h a mem_cons_self b c hb hc,
      map_eq_of_mapM (fun x hx => h x (mem_cons_of_mem a hx)) hbs hcs]

theorem foldlM_invariant {f : σ → α → Except ε σ} (P : σ → Prop) : ∀ {l : List α} {s s' : σ},
      (∀ a ∈ l, ∀ t t', P t → f t a = .ok t' → P t') →
      P s → l.foldlM f s = .ok s' → P s'
  | [], s, s', _, hs, h => by
    rw [foldlM_nil] at h
    exact Except.ok.inj h ▸ hs
  | a :: l, s, s', hst, hs, h => by
    rw [foldlM_cons] at h
    obtain ⟨t, ht, h⟩ := bind_eq_ok.mp h
    exact foldlM_invariant P (fun b hb => hst b (mem_cons_of_mem a hb))
      (hst a mem_cons_self s t hs ht) h

theorem exists_step_of_foldlM {f : σ → α → Except ε σ} :
    ∀ {l : List α} {s s' : σ} {a : α}, l.foldlM f s = .ok s' → a ∈ l → ∃ t t', f t a = .ok t'
  | [], _, _, _, _, ha => absurd ha not_mem_nil
  | x :: l, s, s', a, h, ha => by
    rw [foldlM_cons] at h
    obtain ⟨t, ht, h⟩ := bind_eq_ok.mp h
    rcases mem_cons.mp ha with rfl | ha
    · exact ⟨s, t, ht⟩
    · exact exists_step_of_foldlM h ha

theorem foldlM_isOk_iff {f : σ → α → Except ε σ} {P : α → Prop} :
    ∀ {l : List α} {s : σ}, (∀ a ∈ l, ∀ t, (∃ t', f t a = .ok t') ↔ P a) →
      ((∃ s', l.foldlM f s = .ok s') ↔ ∀ a ∈ l, P a)
  | [], s, _ => by
    simp only [foldlM_nil]
    exact ⟨fun _ _ ha => absurd ha not_mem_nil, fun _ => ⟨s, rfl⟩⟩
  | a :: l, s, hs => by
    have hr : ∀ t, (∃ s', l.foldlM f t = .ok s') ↔ ∀ b ∈ l, P b := fun t =>
      foldlM_isOk_iff fun b hb => hs b (mem_cons_of_mem a hb)
    simp only [foldlM_cons, exists_bind_eq_ok, hr, forall_mem_cons]
    rw [← hs a mem_cons_self s]
    constructor
    · rintro ⟨t, ht, h⟩
      exact ⟨⟨t, ht⟩, h⟩
    · rintro ⟨⟨t, ht⟩, h⟩
      exact ⟨t, ht, h⟩

theorem foldlM_iff {f : σ → α → Except ε σ} {P : σ → Prop} {Q : α → Prop} :
    ∀ {l : List α} {s s' : σ}, (∀ a ∈ l, ∀ t t', f t a = .ok t' → (P t' ↔ P t ∧ Q a)) →
      l.foldlM f s = .ok s' → (P s' ↔ P s ∧ ∀ a ∈ l, Q a)
  | [], s, s', _, h => by
    rw [foldlM_nil] at h
    cases h
    exact ⟨fun hs => ⟨hs, fun _ ha => absurd ha not_mem_nil⟩, And.left⟩
  | a :: l, s, s', hst, h => by
    rw [foldlM_cons] at h
    obtain ⟨t, ht, h⟩ := bind_eq_ok.mp h
    rw [foldlM_iff (fun b hb => hst b (mem_cons_of_mem a hb)) h,
      hst a mem_cons_self s t ht, forall_mem_cons, and_assoc]

end Check
