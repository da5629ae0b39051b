import EmuFlow.Lib.Check
import Mathlib.Tactic

/-!
# Numbered records and the rows they own

A writer numbers the records of a list and stores rows that carry the number of their record. A
reader that meets the records in order takes from the rows, which stand in the order of their
owners, those of the record at hand, and looks one row ahead. Every record gets its own rows back.
-/

namespace OwnedRows

open List

variable {ε α β γ σ ρ : Type}

/-! ## numbering -/

def numberedM (f : ℕ → α → σ → Except ε (β × σ)) : ℕ → List α → σ → Except ε (List β × σ)
  | _, [], s => .ok ([], s)
  | n, a :: l, s => do
    let (b, s) ← f n a s
    let (bs, s) ← numberedM f (n + 1) l s
    return (b :: bs, s)

inductive Numbered (R : ℕ → α → β → Prop) : ℕ → List α → List β → Prop
  | nil {n : ℕ} : Numbered R n [] []
  | cons {n : ℕ} {a : α} {l : List α} {b : β} {bs : List β} :
    R n a b → Numbered R (n + 1) l bs → Numbered R n (a :: l) (b :: bs)

namespace Numbered

variable {R R' : ℕ → α → β → Prop} {n : ℕ} {l : List α} {bs : List β}

theorem exists_of_mem (h : Numbered R n l bs) {b : β} (hb : b ∈ bs) : ∃ n a, R n a b := by
  induction h with
  | nil => cases hb
  | cons ha _ ih =>
    rcases mem_cons.mp hb with rfl | hb
    · exact ⟨_, _, ha⟩
    · exact ih hb

theorem le_number {number : β → ℕ} (h : Numbered R n l bs)
    (hn : ∀ n a b, R n a b → number b = n) : ∀ b ∈ bs, n ≤ number b := by
  induction h with
  | nil => exact fun _ hb => absurd hb not_mem_nil
  | cons ha _ ih =>
    intro b hb
    rcases mem_cons.mp hb with rfl | hb
    · exact (hn _ _ _ ha).ge
    · exact (Nat.le_succ _).trans (ih b hb)

theorem pairwise {number : β → ℕ} (h : Numbered R n l bs)
    (hn : ∀ n a b, R n a b → number b = n) : bs.Pairwise fun b c => number b < number c := by
  induction h with
  | nil => exact .nil
  | cons ha hr ih =>
    refine pairwise_cons.mpr ⟨fun c hc => ?_, ih⟩
    rw [hn _ _ _ ha]
    exact le_number hr hn c hc

theorem le_owner_flatMap {owner : ρ → ℕ} {rows : β → List ρ} (h : Numbered R n l bs)
    (ho : ∀ n a b, R n a b → ∀ row ∈ rows b, owner row = n) :
    ∀ row ∈ bs.flatMap rows, n ≤ owner row := by
  induction h with
  | nil => exact fun _ hr => absurd hr not_mem_nil
  | cons ha _ ih =>
    intro row hr
    rw [flatMap_cons] at hr
    rcases List.mem_append.mp hr with hr | hr
    · exact (ho _ _ _ ha row hr).ge
    · exact (Nat.le_succ _).trans (ih row hr)

theorem pairwise_flatMap {owner : ρ → ℕ} {rows : β → List ρ} {le : ρ → ρ → Prop}
    (h : Numbered R n l bs) (ho : ∀ n a b, R n a b → ∀ row ∈ rows b, owner row = n)
    (hr : ∀ n a b, R n a b → (rows b).Pairwise le)
    (hle : ∀ row row', owner row < owner row' → le row row') : (bs.flatMap rows).Pairwise le := by
  induction h with
  | nil => exact .nil
  | cons ha hrs ih =>
    rw [flatMap_cons]
    refine pairwise_append.mpr ⟨hr _ _ _ ha, ih, fun row hrw row' hrw' => hle _ _ ?_⟩
    rw [ho _ _ _ ha row hrw]
    exact hrs.le_owner_flatMap ho row' hrw'

theorem mapM_eq {read : β → Except ε γ} {k : α → γ} (h : Numbered R n l bs)
    (hr : ∀ n a b, R n a b → read b = .ok (k a)) : bs.mapM read = .ok (l.map k) := by
  induction h with
  | nil => exact Check.mapM_nil_eq_ok.mpr rfl
  | cons ha _ ih => exact Check.mapM_cons_eq_ok.mpr ⟨_, _, hr _ _ _ ha, ih, rfl⟩

theorem map_eq {f : β → γ} {k : α → γ} (h : Numbered R n l bs)
    (hf : ∀ n a b, R n a b → f b = k a) : bs.map f = l.map k := by
  induction h with
  | nil => rfl
  | cons ha _ ih => rw [map_cons, map_cons, hf _ _ _ ha, ih]

end Numbered

theorem numberedM_spec {f : ℕ → α → σ → Except ε (β × σ)} {G : σ → Prop} {E : σ → σ → Prop}
    {P : α → Prop} {R : σ → ℕ → α → β → Prop} (hr : ∀ s, E s s)
    (htr : ∀ s t u, E s t → E t u → E s u)
    (hk : ∀ s t n a b, E s t → R s n a b → R t n a b)
    (hsp : ∀ n a s, G s → P a → ∃ b t, f n a s = .ok (b, t) ∧ G t ∧ E s t ∧ R t n a b) :
    ∀ (l : List α) (n : ℕ) (s : σ), G s → (∀ a ∈ l, P a) →
      ∃ bs t, numberedM f n l s = .ok (bs, t) ∧ G t ∧ E s t ∧ Numbered (R t) n l bs
  | [], n, s, hs, _ => ⟨[], s, rfl, hs, hr s, .nil⟩
  | a :: l, n, s, hs, hP => by
    obtain ⟨b, t, hf, ht, hst, ha⟩ := hsp n a s hs (hP a mem_cons_self)
    obtain ⟨bs, u, hrs, hu, htu, hb⟩ := numberedM_spec hr htr hk hsp l (n + 1) t ht
      fun x hx => hP x (mem_cons_of_mem a hx)
    refine ⟨b :: bs, u, ?_, hu, htr s t u hst htu, .cons (hk t u n a b htu ha) hb⟩
    rw [numberedM, hf]
    show (numberedM f (n + 1) l t >>= fun p => Except.ok (b :: p.1, p.2)) = _
    rw [hrs]
    rfl

theorem numberedM_of_const {f : ℕ → α → σ → Except ε (β × σ)} {P : α → Prop}
    {R : ℕ → α → β → Prop} {x : σ}
    (hs : ∀ n a, P a → ∃ b, f n a x = .ok (b, x) ∧ R n a b) {l : List α} {n : ℕ}
    (hP : ∀ a ∈ l, P a) : ∃ bs, numberedM f n l x = .ok (bs, x) ∧ Numbered R n l bs := by
  obtain ⟨bs, y, hbs, rfl, -, hR⟩ := numberedM_spec (f := f) (G := fun y => y = x)
    (E := fun _ _ => True) (P := P) (R := fun _ => R) (fun _ => trivial)
    (fun _ _ _ _ _ => trivial) (fun _ _ _ _ _ _ h => h) (fun n a y hy ha => by
      obtain ⟨b, hb, hR⟩ := hs n a ha
      exact ⟨b, x, by rw [hy, hb], rfl, trivial, hR⟩) l n x rfl hP
  exact ⟨bs, hbs, hR⟩

def take (owner : ρ → ℕ) (err : ε) (rows : List ρ) (n : ℕ) : Except ε (List ρ × List ρ) :=
  match rows with
  | [] => .ok ([], [])
  | row :: rows =>
    if owner row < n then .error err
    else .ok ((row :: rows).span fun row => owner row = n)

def finish (err : ε) (rows : List ρ) : Except ε Unit :=
  match rows with
  | [] => .ok ()
  | _ :: _ => .error err

theorem take_append {owner : ρ → ℕ} (err : ε) {n : ℕ} {own later : List ρ}
    (ho : ∀ row ∈ own, owner row = n) (hl : ∀ row ∈ later, n < owner row) :
    take owner err (own ++ later) n = .ok (own, later) := by
  have hs : (own ++ later).span (fun row => owner row = n) = (own, later) := by
    rw [span_eq_takeWhile_dropWhile,
      takeWhile_append_of_pos fun row hr => decide_eq_true (ho row hr),
      dropWhile_append_of_pos fun row hr => decide_eq_true (ho row hr)]
    cases later with
    | nil => simp
    | cons row later =>
      have hne : ¬ owner row = n := (hl row mem_cons_self).ne'
      rw [takeWhile_cons_of_neg (by simpa using hne),
        dropWhile_cons_of_neg (by simpa using hne), append_nil]
  rw [← hs]
  cases h : own ++ later with
  | nil => rfl
  | cons row rows =>
    rw [take, if_neg]
    rw [not_lt]
    have hr : row ∈ own ++ later := h ▸ mem_cons_self
    rcases List.mem_append.mp hr with hr | hr
    · exact (ho row hr).ge
    · exact (hl row hr).le

theorem of_take_eq_ok {owner : ρ → ℕ} {err : ε} {n : ℕ} {rows own later : List ρ}
    (hrw : rows.Pairwise fun a b => owner a ≤ owner b)
    (h : take owner err rows n = .ok (own, later)) :
    own = rows.filter (fun row => owner row = n) ∧
      later = rows.filter (fun row => owner row ≠ n) ∧ ∀ row ∈ later, n < owner row := by
  cases rows with
  | nil =>
    obtain ⟨rfl, rfl⟩ := Prod.mk.inj (Except.ok.inj h)
    exact ⟨rfl, rfl, fun _ h => absurd h not_mem_nil⟩
  | cons first rows =>
    simp only [take] at h
    split_ifs at h with hlt
    rw [span_eq_takeWhile_dropWhile] at h
    obtain ⟨rfl, rfl⟩ := Prod.mk.inj (Except.ok.inj h)
    have hge : ∀ row ∈ first :: rows, n ≤ owner row := by
      intro row hro
      rcases mem_cons.mp hro with rfl | hro
      · exact not_lt.mp hlt
      · exact (not_lt.mp hlt).trans ((pairwise_cons.mp hrw).1 row hro)
    generalize first :: rows = l at hrw hge
    clear h hlt
    induction l with
    | nil => exact ⟨rfl, rfl, fun _ h => absurd h not_mem_nil⟩
    | cons row l ih =>
      obtain ⟨hro, hrs⟩ := pairwise_cons.mp hrw
      by_cases hn : owner row = n
      · obtain ⟨ho, hl, hgt⟩ := ih hrs fun r hr => hge r (mem_cons_of_mem _ hr)
        simp only [takeWhile_cons, dropWhile_cons, filter_cons, hn, decide_true,
          if_true, ne_eq, not_true_eq_false, decide_false, Bool.false_eq_true, if_false]
        refine ⟨congrArg (row :: ·) ho, ?_, ?_⟩
        · simpa only [ne_eq] using hl
        · exact hgt
      · -- from the first row of another owner on, all rows are those of later owners
        have hgt : ∀ r ∈ row :: l, n < owner r := by
          intro r hr
          have hf : n < owner row := lt_of_le_of_ne (hge row mem_cons_self) (Ne.symm hn)
          rcases mem_cons.mp hr with rfl | hr
          · exact hf
          · exact hf.trans_le (hro r hr)
        rw [takeWhile_cons_of_neg (by simpa using hn), dropWhile_cons_of_neg (by simpa using hn)]
        refine ⟨?_, ?_, hgt⟩
        · exact (filter_eq_nil_iff.mpr fun r hr => by simpa using (hgt r hr).ne').symm
        · exact (filter_eq_self.mpr fun r hr => by simpa using (hgt r hr).ne').symm

end OwnedRows
