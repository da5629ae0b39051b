import Mathlib.Tactic

/-!
# Sets by open addressing

A set of keys in a ring of cells. A key comes into the first cell from its home on that is free,
and a search walks the same cells up to the first free one. No key is ever taken out of a cell
but by clearing the ring.
-/

namespace OpenAddressing

open Finset

open Function (update)

variable {n : Nat} {κ : Type}

/-! ## operations -/

inductive Op (κ : Type) where
  | insert (key : κ)
  | query (key : κ)
  | clear

namespace Op

variable {σ : Type}

def map (f : σ → κ) : Op σ → Op κ
  | insert key => insert (f key)
  | query key => query (f key)
  | clear => clear

def keys (keys : List κ) : Op κ → List κ
  | insert key => key :: keys
  | query _ => keys
  | clear => []

def key? : Op κ → Option κ
  | insert key | query key => some key
  | clear => none

end Op

/-- The keys inserted since the ring was last cleared. -/
def inserted (ops : List (Op κ)) : List κ := ops.foldl Op.keys []

theorem inserted_append (ops : List (Op κ)) (op : Op κ) :
    inserted (ops ++ [op]) = op.keys (inserted ops) := by
  rw [inserted, List.foldl_append]
  rfl

theorem inserted_map {σ : Type} (f : σ → κ) (ops : List (Op σ)) :
    inserted (ops.map (Op.map f)) = (inserted ops).map f := by
  induction ops using List.reverseRecOn with
  | nil => rfl
  | append_singleton ops op ih =>
    rw [List.map_append, List.map_singleton, inserted_append, inserted_append, ih]
    cases op <;> rfl

/-! ## walks -/

/-- The cell `d` steps after `p`. -/
def shift (p : Fin n) (d : Nat) : Fin n := ⟨(p + d) % n, Nat.mod_lt _ p.pos⟩

theorem shift_zero (p : Fin n) : shift p 0 = p := Fin.ext (Nat.mod_eq_of_lt p.isLt)

theorem shift_shift (p : Fin n) (d : Nat) : shift (shift p 1) d = shift p (d + 1) := by
  refine Fin.ext ?_
  show ((p + 1) % n + d) % n = (p + (d + 1)) % n
  rw [Nat.mod_add_mod, Nat.add_assoc, Nat.add_comm 1 d]

theorem exists_shift (p q : Fin n) : ∃ d, shift p d = q := by
  refine ⟨q + (n - p), Fin.ext ?_⟩
  have hs : (p : Nat) + (q + (n - p)) = q + n := by
    have hp := p.isLt
    omega
  show (p + (q + (n - p))) % n = (q : Nat)
  rw [hs, Nat.add_mod_right, Nat.mod_eq_of_lt q.isLt]

theorem shift_mod (p : Fin n) (d : Nat) : shift p (d % n) = shift p d :=
  Fin.ext (Nat.add_mod_mod _ _ _)

section

variable (empty : κ) (cells : Fin n → κ) (key : κ)

/-- The walk from `p` stops `d` steps on, and not before. -/
structure Stops (p : Fin n) (d : Nat) : Prop where
  stop : cells (shift p d) = empty ∨ cells (shift p d) = key
  pass : ∀ e < d, cells (shift p e) ≠ empty ∧ cells (shift p e) ≠ key

variable [DecidableEq κ]

/-- Whether the walk from `p` finds the key; without an answer when the fuel runs out. -/
def contains : Nat → Fin n → Option Bool
  | 0, _ => none
  | fuel + 1, p =>
    if cells p = empty then some false
    else if cells p = key then some true
    else contains fuel (shift p 1)

/-- The first cell from `p` on that is free or holds the key. -/
def place : Nat → Fin n → Option (Fin n)
  | 0, _ => none
  | fuel + 1, p =>
    if cells p ≠ empty ∧ cells p ≠ key then place fuel (shift p 1) else some p

def insert (p : Fin n) : Option (Fin n → κ) :=
  (place empty cells key n p).map fun q => update cells q key

end

variable {empty : κ} {cells : Fin n → κ} {key : κ} {p : Fin n} {d fuel : Nat}

theorem Stops.tail (h : Stops empty cells key p (d + 1)) : Stops empty cells key (shift p 1) d where
  stop := by
    rw [shift_shift]
    exact h.stop
  pass e he := by
    rw [shift_shift]
    exact h.pass (e + 1) (Nat.succ_lt_succ he)

theorem Stops.head (h : Stops empty cells key p (d + 1)) : cells p ≠ empty ∧ cells p ≠ key := by
  have hp := h.pass 0 (Nat.succ_pos d)
  rwa [shift_zero] at hp

variable [DecidableEq κ]

theorem place_of_stops (h : Stops empty cells key p d) (hf : d < fuel) :
    place empty cells key fuel p = some (shift p d) := by
  induction d generalizing p fuel with
  | zero =>
    obtain ⟨fuel, rfl⟩ := Nat.exists_eq_add_one.mpr hf
    have hs := h.stop
    rw [shift_zero] at hs ⊢
    rw [place, if_neg]
    tauto
  | succ d ih =>
    obtain ⟨fuel, rfl⟩ := Nat.exists_eq_add_one.mpr (Nat.zero_lt_of_lt hf)
    rw [place, if_pos h.head, ih h.tail (Nat.succ_lt_succ_iff.mp hf), shift_shift]

theorem contains_of_stops (h : Stops empty cells key p d) (hk : key ≠ empty) (hfl : d < fuel) :
    contains empty cells key fuel p = some (decide (cells (shift p d) = key)) := by
  induction d generalizing p fuel with
  | zero =>
    obtain ⟨fuel, rfl⟩ := Nat.exists_eq_add_one.mpr hfl
    have hs := h.stop
    rw [shift_zero] at hs ⊢
    rw [contains]
    rcases hs with he | hf
    · rw [if_pos he, he, decide_eq_false hk.symm]
    · rw [if_neg (hf.trans_ne hk), if_pos hf, decide_eq_true hf]
  | succ d ih =>
    obtain ⟨fuel, rfl⟩ := Nat.exists_eq_add_one.mpr (Nat.zero_lt_of_lt hfl)
    rw [contains, if_neg h.head.1, if_neg h.head.2, ih h.tail (Nat.succ_lt_succ_iff.mp hfl),
      shift_shift]

/-- As long as one cell is free, every walk stops within one turn. -/
theorem exists_stops (q : Fin n) (hq : cells q = empty) (key : κ) (p : Fin n) :
    ∃ d < n, Stops empty cells key p d := by
  classical
  obtain ⟨d, hd⟩ := exists_shift p q
  have ht : ∃ d, cells (shift p d) = empty ∨ cells (shift p d) = key :=
    ⟨d % n, Or.inl (by rw [shift_mod, hd, hq])⟩
  refine ⟨Nat.find ht, ?_, Nat.find_spec ht, fun e he => ?_⟩
  · refine lt_of_le_of_lt (Nat.find_min' ht ?_) (Nat.mod_lt d p.pos)
    exact Or.inl (by rw [shift_mod, hd, hq])
  · exact not_or.mp (Nat.find_min ht he)

/-! ## the set in the ring -/

/-- The cells hold the keys, and no free cell lies between a key's home and the key. -/
structure Holds (empty : κ) (home : κ → Fin n) (cells : Fin n → κ) (keys : List κ) : Prop where
  sound : ∀ p, cells p ≠ empty → cells p ∈ keys
  reach : ∀ k ∈ keys, ∃ d, cells (shift (home k) d) = k ∧ ∀ e < d, cells (shift (home k) e) ≠ empty
  proper : ∀ k ∈ keys, k ≠ empty
  card : (univ.filter fun p => cells p ≠ empty).card ≤ keys.length

theorem holds_nil (home : κ → Fin n) : Holds empty home (fun _ => empty) [] where
  sound p hp := absurd rfl hp
  reach k hk := absurd hk List.not_mem_nil
  proper k hk := absurd hk List.not_mem_nil
  card := by simp

namespace Holds

variable {home : κ → Fin n} {keys : List κ}

section

variable (h : Holds empty home cells keys) (hroom : keys.length < n)
include h hroom

theorem exists_free : ∃ q, cells q = empty := by
  by_contra hf
  have ha : (univ.filter fun p => cells p ≠ empty) = univ :=
    filter_true_of_mem fun p _ hp => hf ⟨p, hp⟩
  have hc := h.card
  rw [ha, card_univ, Fintype.card_fin] at hc
  exact absurd hc (Nat.not_le.mpr hroom)

theorem contains (hk : key ≠ empty) :
    contains empty cells key n (home key) = some (decide (key ∈ keys)) := by
  obtain ⟨q, hq⟩ := h.exists_free hroom
  obtain ⟨d, hd, hs⟩ := exists_stops q hq key (home key)
  rw [contains_of_stops hs hk hd]
  refine congrArg some (decide_eq_decide.mpr ⟨fun hf => ?_, fun hm => ?_⟩)
  · exact hf ▸ h.sound _ (hf.trans_ne hk)
  · -- the key is not further on: the walk would have passed the free cell it stops at
    obtain ⟨e, he, hb⟩ := h.reach key hm
    rcases hs.stop with hem | hf
    · rcases lt_trichotomy e d with hlt | heq | hgt
      · exact absurd he (hs.pass e hlt).2
      · rw [heq] at he
        exact he
      · exact absurd hem (hb d hgt)
    · exact hf

theorem insert (hky : key ≠ empty) : ∃ cells', insert empty cells key (home key) = some cells' ∧
      Holds empty home cells' (key :: keys) := by
  obtain ⟨q, hq⟩ := h.exists_free hroom
  obtain ⟨d, hd, hs⟩ := exists_stops q hq key (home key)
  refine ⟨update cells (shift (home key) d) key, ?_, ?_⟩
  · rw [OpenAddressing.insert, place_of_stops hs hd]
    rfl
  have hf : ∀ p, cells p ≠ empty → update cells (shift (home key) d) key p ≠ empty := by
    intro p hp
    rw [Function.update_apply]
    split
    · exact hky
    · exact hp
  refine { sound := fun p hp => ?_, reach := fun k hk => ?_, proper := ?_, card := ?_ }
  · by_cases heq : p = shift (home key) d
    · rw [heq, Function.update_self]
      exact List.mem_cons_self
    · rw [Function.update_of_ne heq] at hp ⊢
      exact List.mem_cons_of_mem _ (h.sound p hp)
  · rcases List.mem_cons.mp hk with rfl | hk
    · exact ⟨d, Function.update_self .., fun e he => hf _ (hs.pass e he).1⟩
    · obtain ⟨e, he, hb⟩ := h.reach k hk
      refine ⟨e, ?_, fun e' he' => hf _ (hb e' he')⟩
      rw [Function.update_apply]
      split
      · -- the cell written was the key's own
        rename_i heq
        rw [heq] at he
        rcases hs.stop with hem | hfn
        · exact absurd (he.symm.trans hem) (h.proper k hk)
        · exact hfn.symm.trans he
      · exact he
  · exact List.forall_mem_cons.mpr ⟨hky, h.proper⟩
  · have hsb : (univ.filter fun p =>
        update cells (shift (home key) d) key p ≠ empty) ⊆
        Insert.insert (shift (home key) d) (univ.filter fun p => cells p ≠ empty) := by
      intro p hp
      rw [mem_insert, mem_filter]
      by_cases heq : p = shift (home key) d
      · exact Or.inl heq
      · have hfr := (mem_filter.mp hp).2
        rw [Function.update_of_ne heq] at hfr
        exact Or.inr ⟨mem_univ p, hfr⟩
    calc _ ≤ _ := card_le_card hsb
      _ ≤ _ := card_insert_le _ _
      _ ≤ (key :: keys).length := Nat.succ_le_succ h.card

end

end Holds

def step (empty : κ) (home : κ → Fin n) (cells : Fin n → κ) : Op κ → Option (Fin n → κ)
  | .insert key => insert empty cells key (home key)
  | .query key => (contains empty cells key n (home key)).map fun _ => cells
  | .clear => some fun _ => empty

def run (empty : κ) (home : κ → Fin n) (ops : List (Op κ)) : Option (Fin n → κ) :=
  ops.foldlM (step empty home) fun _ => empty

variable {home : κ → Fin n} {keys : List κ} {ops : List (Op κ)}

theorem Holds.step (h : Holds empty home cells keys) (hroom : keys.length < n) (op : Op κ)
    (hk : ∀ k ∈ op.key?, k ≠ empty) :
    ∃ cells', step empty home cells op = some cells' ∧ Holds empty home cells' (op.keys keys) := by
  cases op with
  | insert key => exact h.insert hroom (hk key rfl)
  | query key =>
    refine ⟨cells, ?_, h⟩
    rw [OpenAddressing.step, h.contains hroom (hk key rfl)]
    rfl
  | clear => exact ⟨_, rfl, holds_nil home⟩

theorem run_spec (home : κ → Fin n) (hroom : ∀ pre, pre <+: ops → (inserted pre).length < n)
    (hk : ∀ op ∈ ops, ∀ k ∈ op.key?, k ≠ empty) :
    ∃ cells, run empty home ops = some cells ∧ Holds empty home cells (inserted ops) := by
  induction ops using List.reverseRecOn with
  | nil => exact ⟨_, rfl, holds_nil home⟩
  | append_singleton ops op ih =>
    obtain ⟨cells, hr, h⟩ := ih (fun pre hp => hroom pre (hp.trans (List.prefix_append ..)))
      fun op' hop' => hk op' (List.mem_append_left _ hop')
    obtain ⟨cells', hs, h'⟩ := h.step (hroom ops (List.prefix_append ..)) op
      (hk op (List.mem_append_right _ (List.mem_singleton_self op)))
    refine ⟨cells', ?_, inserted_append ops op ▸ h'⟩
    rw [run] at hr ⊢
    rw [List.foldlM_append, hr]
    exact (bind_pure _).trans hs

end OpenAddressing
